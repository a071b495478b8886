import Mathlib.Data.List.Chain
import Xv6.Umalloc.Heap

/-!
# The heap as a row of blocks

What the allocator is for: the memory obtained from `sbrk` is a row of blocks, each
free or in use.  The addresses of the blocks follow from their sizes, so blocks of
a row cannot overlap or leave a gap.  The definitions below read off a row the
addresses of its free blocks, in increasing order, and those of the blocks in use.
-/

namespace Xv6

namespace Umalloc

/-- A block of the heap, free or in use for a request of some number of bytes. -/
structure Seg where
  size : ℕ
  used : Option ℕ
  deriving DecidableEq, Repr

/-- The units in a row of blocks. -/
def total : List Seg → ℕ
  | [] => 0
  | seg :: segs => seg.size + total segs

/-- The addresses of the free blocks of a row that starts at `a`. -/
def frees (a : ℕ) : List Seg → List ℕ
  | [] => []
  | seg :: segs =>
      if seg.used = none then a :: frees (a + seg.size) segs else frees (a + seg.size) segs

/-- The addresses of the blocks in use, with what was asked for. -/
def lives (a : ℕ) : List Seg → List (ℕ × ℕ)
  | [] => []
  | seg :: segs =>
      match seg.used with
      | none => lives (a + seg.size) segs
      | some n => (a, n) :: lives (a + seg.size) segs

/-- The addresses of all blocks. -/
def starts (a : ℕ) : List Seg → List ℕ
  | [] => []
  | seg :: segs => a :: starts (a + seg.size) segs

/-- Every block has its size in its header. -/
def Headers (mem : ℕ → Header) (a : ℕ) : List Seg → Prop
  | [] => True
  | seg :: segs => (mem a).size = seg.size ∧ Headers mem (a + seg.size) segs

/-- No block is empty, and no two neighbours are free. -/
structure Tidy (segs : List Seg) : Prop where
  pos : ∀ seg ∈ segs, 0 < seg.size
  apart : segs.IsChain fun s t => s.used ≠ none ∨ t.used ≠ none
  fits : ∀ seg ∈ segs, ∀ n, seg.used = some n → n ≤ 8 * (seg.size - 1)

variable {a x n : ℕ} {seg : Seg} {segs pre post : List Seg} {mem mem' : ℕ → Header}

@[simp] theorem total_nil : total [] = 0 := rfl

@[simp] theorem total_cons : total (seg :: segs) = seg.size + total segs := rfl

@[simp] theorem total_append : total (pre ++ post) = total pre + total post := by
  induction pre with
  | nil => exact (Nat.zero_add _).symm
  | cons seg pre ih => rw [List.cons_append, total_cons, total_cons, ih, Nat.add_assoc]

theorem frees_cons_free (h : seg.used = none) :
    frees a (seg :: segs) = a :: frees (a + seg.size) segs := by
  rw [frees, if_pos h]

theorem frees_cons_used (h : seg.used = some n) :
    frees a (seg :: segs) = frees (a + seg.size) segs := by
  rw [frees, if_neg (by simp [h])]

theorem lives_cons_free (h : seg.used = none) :
    lives a (seg :: segs) = lives (a + seg.size) segs := by
  rw [lives, h]

theorem lives_cons_used (h : seg.used = some n) :
    lives a (seg :: segs) = (a, n) :: lives (a + seg.size) segs := by
  rw [lives, h]

theorem frees_append : frees a (pre ++ post) = frees a pre ++ frees (a + total pre) post := by
  induction pre generalizing a with
  | nil => rfl
  | cons seg pre ih =>
      rw [List.cons_append, frees, frees, ih, total_cons, ← Nat.add_assoc]
      split <;> rfl

theorem lives_append : lives a (pre ++ post) = lives a pre ++ lives (a + total pre) post := by
  induction pre generalizing a with
  | nil => rfl
  | cons seg pre ih =>
      rw [List.cons_append, lives, lives, ih, total_cons, ← Nat.add_assoc]
      split <;> rfl

theorem headers_append :
    Headers mem a (pre ++ post) ↔ Headers mem a pre ∧ Headers mem (a + total pre) post := by
  induction pre generalizing a with
  | nil => simp [Headers]
  | cons seg pre ih =>
      rw [List.cons_append, Headers, Headers, ih, total_cons, ← Nat.add_assoc, and_assoc]

/-- Headers outside of the row do not matter. -/
theorem Headers.congr (h : Headers mem a segs) (hpos : ∀ seg ∈ segs, 0 < seg.size)
    (hmem : ∀ x, a ≤ x → x < a + total segs → (mem' x).size = (mem x).size) :
    Headers mem' a segs := by
  induction segs generalizing a with
  | nil => exact trivial
  | cons seg segs ih =>
      have hseg := hpos seg (by simp)
      rw [total_cons] at hmem
      refine ⟨(hmem a le_rfl (by omega)).trans h.1, ih h.2 (fun s hs => hpos s (by simp [hs])) ?_⟩
      intro x hlow hhigh
      exact hmem x (by omega) (by omega)

theorem mem_frees (hpos : ∀ seg ∈ segs, 0 < seg.size) (h : x ∈ frees a segs) :
    a ≤ x ∧ x < a + total segs := by
  induction segs generalizing a with
  | nil => simp [frees] at h
  | cons seg segs ih =>
      have hseg := hpos seg (by simp)
      have hrest := ih (a := a + seg.size) fun s hs => hpos s (by simp [hs])
      rw [frees] at h
      rw [total_cons]
      split at h
      · rcases List.mem_cons.mp h with rfl | h
        · omega
        · have := hrest h
          omega
      · have := hrest h
        omega

theorem frees_pairwise (hpos : ∀ seg ∈ segs, 0 < seg.size) :
    (frees a segs).Pairwise (· < ·) := by
  induction segs generalizing a with
  | nil => exact .nil
  | cons seg segs ih =>
      have hseg := hpos seg (by simp)
      have hpos' : ∀ s ∈ segs, 0 < s.size := fun s hs => hpos s (by simp [hs])
      have hrest := ih (a := a + seg.size) hpos'
      rw [frees]
      split
      · refine .cons (fun x hx => ?_) hrest
        have := mem_frees hpos' hx
        omega
      · exact hrest

/-- The block of a free address. -/
theorem exists_of_mem_frees (h : x ∈ frees a segs) :
    ∃ pre seg post, segs = pre ++ seg :: post ∧ seg.used = none ∧ x = a + total pre := by
  induction segs generalizing a with
  | nil => simp [frees] at h
  | cons seg segs ih =>
      rw [frees] at h
      have hrest : x ∈ frees (a + seg.size) segs →
          ∃ pre s post, seg :: segs = pre ++ s :: post ∧ s.used = none ∧ x = a + total pre := by
        intro hx
        obtain ⟨pre, s, post, rfl, hs, hxa⟩ := ih hx
        refine ⟨seg :: pre, s, post, rfl, hs, ?_⟩
        rw [total_cons]
        omega
      split at h
      · rename_i hfree
        rcases List.mem_cons.mp h with rfl | h
        · exact ⟨[], seg, segs, rfl, hfree, rfl⟩
        · exact hrest h
      · exact hrest h

/-- The block of an address in use. -/
theorem exists_of_mem_lives (h : (x, n) ∈ lives a segs) :
    ∃ pre seg post, segs = pre ++ seg :: post ∧ seg.used = some n ∧ x = a + total pre := by
  induction segs generalizing a with
  | nil => simp [lives] at h
  | cons seg segs ih =>
      rw [lives] at h
      have hrest : (x, n) ∈ lives (a + seg.size) segs →
          ∃ pre s post, seg :: segs = pre ++ s :: post ∧ s.used = some n ∧ x = a + total pre := by
        intro hx
        obtain ⟨pre, s, post, rfl, hs, hxa⟩ := ih hx
        refine ⟨seg :: pre, s, post, rfl, hs, ?_⟩
        rw [total_cons]
        omega
      split at h
      · exact hrest h
      · rename_i m hused
        rcases List.mem_cons.mp h with heq | h
        · obtain ⟨rfl, rfl⟩ := Prod.mk.inj heq
          exact ⟨[], seg, segs, rfl, hused, rfl⟩
        · exact hrest h

theorem lives_pairwise (hpos : ∀ seg ∈ segs, 0 < seg.size) :
    (lives a segs).Pairwise fun b c => b.1 < c.1 := by
  induction segs generalizing a with
  | nil => exact .nil
  | cons seg segs ih =>
      have hseg := hpos seg (by simp)
      have hrest := ih (a := a + seg.size) fun s hs => hpos s (by simp [hs])
      cases hused : seg.used with
      | none =>
          rw [lives_cons_free hused]
          exact hrest
      | some n =>
          rw [lives_cons_used hused]
          refine .cons (fun c hc => ?_) hrest
          obtain ⟨pre, s, post, -, -, hc'⟩ := exists_of_mem_lives (x := c.1) (n := c.2) hc
          change a < c.1
          omega

/-- The blocks before and after one block of a row. -/
theorem Tidy.around (h : Tidy (pre ++ seg :: post)) : Tidy pre ∧ Tidy post := by
  obtain ⟨hpre, hpost, -⟩ := List.isChain_append.mp h.apart
  refine ⟨⟨fun s hs => h.pos s (by simp [hs]), hpre, fun s hs => h.fits s (by simp [hs])⟩,
    ⟨fun s hs => h.pos s (by simp [hs]), hpost.tail, fun s hs => h.fits s (by simp [hs])⟩⟩

theorem Tidy.tail (h : Tidy (seg :: post)) : Tidy post :=
  ⟨fun s hs => h.pos s (by simp [hs]), h.apart.tail, fun s hs => h.fits s (by simp [hs])⟩

/-- Two rows make a row if no free blocks meet. -/
theorem Tidy.append (hpre : Tidy pre) (hpost : Tidy post)
    (hmeet : ∀ s ∈ pre.getLast?, ∀ t ∈ post.head?, s.used ≠ none ∨ t.used ≠ none) :
    Tidy (pre ++ post) := by
  refine ⟨fun s hs => ?_, List.isChain_append.mpr ⟨hpre.apart, hpost.apart, hmeet⟩,
    fun s hs => ?_⟩
  · rcases List.mem_append.mp hs with hs | hs
    · exact hpre.pos s hs
    · exact hpost.pos s hs
  · rcases List.mem_append.mp hs with hs | hs
    · exact hpre.fits s hs
    · exact hpost.fits s hs

/-- A block in use can stand before any row. -/
theorem Tidy.cons_used {sz : ℕ} (hpost : Tidy post) (hsz : 0 < sz) (hn : n ≤ 8 * (sz - 1)) :
    Tidy (⟨sz, some n⟩ :: post) := by
  refine ⟨?_, ?_, ?_⟩
  · intro s hs
    rcases List.mem_cons.mp hs with rfl | hs
    · exact hsz
    · exact hpost.pos s hs
  · cases post with
    | nil => exact .singleton _
    | cons s post => exact .cons_cons (Or.inl (by simp)) hpost.apart
  · intro s hs m hm
    rcases List.mem_cons.mp hs with rfl | hs
    · cases hm
      exact hn
    · exact hpost.fits s hs m hm

/-- Nothing free stands before a free block. -/
theorem Tidy.before (h : Tidy (pre ++ seg :: post)) (hfree : seg.used = none) :
    ∀ s ∈ pre.getLast?, s.used ≠ none := by
  intro s hs
  obtain ⟨-, -, hmeet⟩ := List.isChain_append.mp h.apart
  rcases hmeet s hs seg rfl with hused | hbad
  · exact hused
  · exact absurd hfree hbad

/-- A free block lies at the start of a row if its first block is free. -/
theorem mem_frees_start (hpos : ∀ seg ∈ segs, 0 < seg.size) (h : a ∈ frees a segs) :
    ∃ seg post, segs = seg :: post ∧ seg.used = none := by
  obtain ⟨pre, seg, post, rfl, hfree, hx⟩ := exists_of_mem_frees h
  cases pre with
  | nil => exact ⟨seg, post, rfl, hfree⟩
  | cons s pre =>
      have hs := hpos s (by simp)
      rw [total_cons] at hx
      omega

/-! ## The row as a tiling -/

theorem starts_perm : (frees a segs ++ (lives a segs).map Prod.fst).Perm (starts a segs) := by
  induction segs generalizing a with
  | nil => exact .refl _
  | cons seg segs ih =>
      cases hused : seg.used with
      | none =>
          rw [frees_cons_free hused, lives_cons_free hused, starts, List.cons_append]
          exact ih.cons a
      | some n =>
          rw [frees_cons_used hused, lives_cons_used hused, starts, List.map_cons]
          exact List.perm_middle.trans (ih.cons a)

theorem le_of_mem_starts (h : x ∈ starts a segs) : a ≤ x := by
  induction segs generalizing a with
  | nil => simp [starts] at h
  | cons seg segs ih =>
      rcases List.mem_cons.mp h with rfl | h
      · exact le_rfl
      · have := ih h
        omega

/-- Blocks do not overlap. -/
theorem starts_pairwise (h : Headers mem a segs) :
    (starts a segs).Pairwise fun x y => x + (mem x).size ≤ y := by
  induction segs generalizing a with
  | nil => exact .nil
  | cons seg segs ih =>
      refine .cons (fun y hy => ?_) (ih h.2)
      rw [h.1]
      exact le_of_mem_starts hy

/-- Blocks leave no gap. -/
theorem mem_row_iff (h : Headers mem a segs) :
    (a ≤ x ∧ x < a + total segs) ↔ ∃ b ∈ starts a segs, b ≤ x ∧ x < b + (mem b).size := by
  induction segs generalizing a with
  | nil =>
      simp only [total_nil, starts, List.not_mem_nil, false_and, exists_false, iff_false]
      omega
  | cons seg segs ih =>
      have hrest := ih h.2
      rw [total_cons, starts]
      constructor
      · rintro ⟨hlow, hhigh⟩
        by_cases hx : x < a + seg.size
        · refine ⟨a, by simp, hlow, ?_⟩
          rw [h.1]
          exact hx
        · obtain ⟨b, hb, hin⟩ := hrest.mp ⟨by omega, by omega⟩
          exact ⟨b, List.mem_cons_of_mem _ hb, hin⟩
      · rintro ⟨b, hb, hlow, hhigh⟩
        rcases List.mem_cons.mp hb with rfl | hb
        · rw [h.1] at hhigh
          omega
        · have := hrest.mpr ⟨b, hb, hlow, hhigh⟩
          omega

/-- Between two free blocks there is one in use. -/
theorem frees_apart (h : Tidy segs) (hheaders : Headers mem a segs) :
    (frees a segs).Pairwise fun x y => x + (mem x).size < y := by
  induction segs generalizing a with
  | nil => exact .nil
  | cons seg segs ih =>
      have hrest := ih h.tail hheaders.2
      cases hused : seg.used with
      | some n =>
          rw [frees_cons_used hused]
          exact hrest
      | none =>
          rw [frees_cons_free hused]
          refine .cons (fun y hy => ?_) hrest
          rw [hheaders.1]
          refine lt_of_le_of_ne (mem_frees h.tail.pos hy).1 ?_
          rintro rfl
          obtain ⟨t, post, rfl, hfree⟩ := mem_frees_start h.tail.pos hy
          rcases (List.isChain_cons_cons.mp h.apart).1 with hbad | hbad
          · exact hbad hused
          · exact hbad hfree

end Umalloc

end Xv6
