import Mathlib.Data.List.Perm.Subperm
import Xv6.Umalloc.Segments

/-!
# Freeing a block

`Arena` relates the memory of the allocator to a row of blocks: every block has its
size in its header, and the free blocks, together with `base`, form a cycle in the
order of their addresses.  `free` makes a block of the row free and joins it to free
neighbours: the loop finds the last free block below, and the two tests of the source
are the two places where free blocks can meet.
-/

namespace Xv6

namespace Umalloc

open Support

variable {base start bp p q nu : ℕ} {s t : Heap} {seg : Seg} {segs pre post : List Seg}

/-- The memory of the allocator is the row of blocks `segs`. -/
structure Arena (base start : ℕ) (s : Heap) (segs : List Seg) : Prop where
  nonnull : 0 < base
  below : base < start
  brk : s.brk = start + total segs
  tidy : Tidy segs
  headers : Headers s.mem start segs
  baseSize : s.size base = 0
  cycle : Cycle.Path s.ptr base (frees start segs) base
  freep : s.freep ∈ base :: frees start segs

/-- The free list is in the order of the addresses. -/
theorem nodes_pairwise (hbelow : base < start) (hpos : ∀ seg ∈ segs, 0 < seg.size) :
    (base :: frees start segs).Pairwise (· < ·) := by
  refine .cons (fun x hx => ?_) (frees_pairwise hpos)
  have := mem_frees hpos hx
  omega

theorem Arena.nodes_lt (h : Arena base start s segs) (hx : p ∈ base :: frees start segs) :
    p < s.brk := by
  have hbelow := h.below
  rw [h.brk]
  rcases List.mem_cons.mp hx with rfl | hx
  · omega
  · exact (mem_frees h.tidy.pos hx).2

/-- The free list is not longer than memory. -/
theorem Arena.length_le (h : Arena base start s segs) :
    (base :: frees start segs).length ≤ s.brk := by
  have hnodup : (base :: frees start segs).Nodup :=
    (nodes_pairwise h.below h.tidy.pos).imp fun hlt => Nat.ne_of_lt hlt
  have hsub : base :: frees start segs ⊆ List.range s.brk := fun x hx =>
    List.mem_range.mpr (h.nodes_lt hx)
  have hle := (List.Nodup.subperm hnodup hsub).length_le
  rwa [List.length_range] at hle

/-- A walk along the free list from any of its blocks ends if there is a block to stop at. -/
theorem Arena.walk {stop : ℕ → Prop} [DecidablePred stop] {k : ℕ} (h : Arena base start s segs)
    (hk : s.brk < k) (hp : p ∈ base :: frees start segs) (hstop : ∃ q ∈ base :: frees start segs, stop q) :
    ∃ ys u q v, Cycle.Path s.ptr p ys p ∧ (p :: ys).Perm (base :: frees start segs) ∧
      p :: ys = u ++ q :: v ∧ (∀ x ∈ u, ¬stop x) ∧ stop q ∧
      Cycle.walk s.ptr stop k p = some q := by
  obtain ⟨ys, hpath, hperm⟩ := h.cycle.rotate hp
  have hlen : ys.length < k := by
    have hle := h.length_le
    rw [← hperm.length_eq, List.length_cons] at hle
    omega
  obtain ⟨q, hq, hstopq⟩ := hstop
  obtain ⟨u, r, v, hsplit, hfirst, hr, hwalk⟩ :=
    Cycle.walk_of_path hpath hlen ⟨q, hperm.mem_iff.mpr hq, hstopq⟩
  exact ⟨ys, u, r, v, hpath, hperm, hsplit, hfirst, hr, hwalk⟩

/-- A list can be cut in only one way at a number. -/
theorem cut_unique {X₁ Y₁ X₂ Y₂ : List ℕ} {k : ℕ} (h : X₁ ++ Y₁ = X₂ ++ Y₂)
    (hX₁ : ∀ x ∈ X₁, x < k) (hY₁ : ∀ y ∈ Y₁, k ≤ y) (hX₂ : ∀ x ∈ X₂, x < k)
    (hY₂ : ∀ y ∈ Y₂, k ≤ y) : X₁ = X₂ ∧ Y₁ = Y₂ := by
  have hfilter : ∀ X Y : List ℕ, (∀ x ∈ X, x < k) → (∀ y ∈ Y, k ≤ y) →
      (X ++ Y).filter (fun x => decide (x < k)) = X := by
    intro X Y hX hY
    rw [List.filter_append, List.filter_eq_self.mpr (fun x hx => by simpa using hX x hx),
      List.filter_eq_nil_iff.mpr (fun y hy => by simpa using hY y hy), List.append_nil]
  have hX : X₁ = X₂ := by
    rw [← hfilter X₁ Y₁ hX₁ hY₁, h, hfilter X₂ Y₂ hX₂ hY₂]
  subst hX
  exact ⟨rfl, List.append_cancel_left h⟩

/-! ## Where `free` stops -/

/-- `free` stops at the last free block below `bp`. -/
theorem Arena.around_iff (h : Arena base start s (pre ++ seg :: post)) {u v : List ℕ}
    (hbp : bp = start + total pre) (hsplit : base :: (frees start pre ++
      frees (bp + seg.size) post) = u ++ p :: v)
    (hpath : Cycle.Path s.ptr p v base) :
    s.Around bp p ↔ base :: frees start pre = u ++ [p] ∧ v = frees (bp + seg.size) post := by
  obtain ⟨hpre, hpost⟩ := h.tidy.around
  have hbelow := h.below
  have hseg := h.tidy.pos seg (by simp)
  have hlow : ∀ x ∈ base :: frees start pre, x < bp := by
    intro x hx
    rcases List.mem_cons.mp hx with rfl | hx
    · omega
    · have := mem_frees hpre.pos hx
      omega
  have hhigh : ∀ y ∈ frees (bp + seg.size) post, bp < y := by
    intro y hy
    have := mem_frees hpost.pos hy
    omega
  have hsorted : (u ++ p :: v).Pairwise (· < ·) := by
    rw [← hsplit, ← List.cons_append]
    refine List.pairwise_append.mpr ⟨nodes_pairwise h.below hpre.pos,
      frees_pairwise hpost.pos, fun x hx y hy => ?_⟩
    exact (hlow x hx).trans (hhigh y hy)
  have hu : ∀ x ∈ u, x < p := fun x hx =>
    (List.pairwise_append.mp hsorted).2.2 x hx p (by simp)
  have hv : v.Pairwise (· < ·) := (List.pairwise_cons.mp (List.pairwise_append.mp hsorted).2.1).2
  have hpv : ∀ y ∈ v, p < y :=
    (List.pairwise_cons.mp (List.pairwise_append.mp hsorted).2.1).1
  have hbase : base ≤ p := by
    have hmem : base ∈ u ++ p :: v := by
      rw [← hsplit]
      simp
    rcases List.mem_append.mp hmem with hx | hx
    · exact (hu base hx).le
    · rcases List.mem_cons.mp hx with rfl | hx
      · exact le_rfl
      · have hfirst : (base :: (frees start pre ++ frees (bp + seg.size) post)).head? =
            (u ++ p :: v).head? := congrArg _ hsplit
        cases u with
        | nil =>
            have : base = p := by simpa using hfirst
            exact this.le
        | cons y u =>
            have : base = y := by simpa using hfirst
            exact this ▸ (hu y (by simp)).le
  have hcut : p < bp → (∀ y ∈ v, bp < y) →
      base :: frees start pre = u ++ [p] ∧ v = frees (bp + seg.size) post := by
    intro hlt hvbp
    have heq : (base :: frees start pre) ++ frees (bp + seg.size) post = (u ++ [p]) ++ v := by
      rw [List.cons_append, hsplit, List.append_assoc, List.singleton_append]
    obtain ⟨hX, hY⟩ := cut_unique heq hlow (fun y hy => (hhigh y hy).le) (fun x hx => by
      rcases List.mem_append.mp hx with hx | hx
      · exact (hu x hx).trans hlt
      · rw [List.mem_singleton] at hx
        omega) fun y hy => (hvbp y hy).le
    exact ⟨hX, hY.symm⟩
  unfold Heap.Around
  constructor
  · intro haround
    cases v with
    | nil =>
        have hptr : s.ptr p = base := hpath
        rw [hptr] at haround
        refine hcut ?_ (by simp)
        omega
    | cons y v =>
        have hptr : s.ptr p = y := hpath.1
        have hpy := hpv y (by simp)
        rw [hptr] at haround
        refine hcut (by omega) fun z hz => ?_
        rcases List.mem_cons.mp hz with rfl | hz
        · omega
        · have := (List.pairwise_cons.mp hv).1 z hz
          omega
  · rintro ⟨hX, hY⟩
    have hlt : p < bp := hlow p (by rw [hX]; simp)
    cases v with
    | nil =>
        have hptr : s.ptr p = base := hpath
        rw [hptr]
        exact Or.inr ⟨hbase, Or.inl hlt⟩
    | cons y v =>
        have hptr : s.ptr p = y := hpath.1
        rw [hptr]
        refine Or.inl ⟨hlt, hhigh y ?_⟩
        rw [← hY]
        simp

/-- The loop of `free` finds the block below `bp`, and the rest of the list follows it. -/
theorem Arena.walk_around (h : Arena base start s (pre ++ seg :: post)) {n k : ℕ}
    (hk : s.brk < k) (hused : seg.used = some n) (hbp : bp = start + total pre) :
    ∃ u p, base :: frees start pre = u ++ [p] ∧
      Cycle.Path s.ptr p (frees (bp + seg.size) post) base ∧
      Cycle.walk s.ptr (s.Around bp) k s.freep = some p := by
  have hnodes : base :: frees start (pre ++ seg :: post) =
      base :: (frees start pre ++ frees (bp + seg.size) post) := by
    rw [frees_append, frees_cons_used hused, hbp]
  -- there is such a block
  obtain ⟨w, r, hlast⟩ : ∃ w r, base :: frees start pre = w ++ [r] :=
    ⟨_, _, (List.dropLast_append_getLast (List.cons_ne_nil base _)).symm⟩
  have hsplit₀ : base :: (frees start pre ++ frees (bp + seg.size) post) =
      w ++ r :: frees (bp + seg.size) post := by
    rw [← List.cons_append, hlast, List.append_assoc, List.singleton_append]
  have hcycle := h.cycle
  have hpath₀ : Cycle.Path s.ptr r (frees (bp + seg.size) post) base :=
    hcycle.suffix (hnodes.trans hsplit₀)
  have hstop : ∃ q ∈ base :: frees start (pre ++ seg :: post), s.Around bp q := by
    refine ⟨r, ?_, (h.around_iff hbp hsplit₀ hpath₀).mpr ⟨hlast, rfl⟩⟩
    rw [hnodes, hsplit₀]
    simp
  obtain ⟨ys, _, q, _, -, hperm, hq, -, hstopq, hwalk⟩ := h.walk hk h.freep hstop
  have hmem : q ∈ base :: frees start (pre ++ seg :: post) := by
    refine hperm.mem_iff.mp ?_
    rw [hq]
    simp
  obtain ⟨u, v, hsplit⟩ := List.append_of_mem hmem
  have hpath := hcycle.suffix hsplit
  obtain ⟨hu, hv⟩ := (h.around_iff hbp (hnodes.symm.trans hsplit) hpath).mp hstopq
  exact ⟨u, q, hu, hv ▸ hpath, hwalk⟩

/-! ## Joining blocks -/

/-- The heap while a free block of size `sz` at `bp` is not yet part of the free list:
the list below it and the list above it are in order. -/
structure Open (base start : ℕ) (s : Heap) (pre : List Seg) (bp sz : ℕ) (post : List Seg) :
    Prop where
  nonnull : 0 < base
  below : base < start
  addr : bp = start + total pre
  brk : s.brk = bp + sz + total post
  tidyPre : Tidy pre
  tidyPost : Tidy (⟨sz, none⟩ :: post)
  headersPre : Headers s.mem start pre
  header : s.size bp = sz
  headersPost : Headers s.mem (bp + sz) post
  baseSize : s.size base = 0
  lower : ∃ c, Cycle.Path s.ptr base (frees start pre) c
  upper : Cycle.Path s.ptr bp (frees (bp + sz) post) base

theorem Heap.ptr_setPtr (s : Heap) (a v x : ℕ) :
    (s.setPtr a v).ptr x = if x = a then v else s.ptr x := by
  unfold Heap.ptr Heap.setPtr
  simp only [Function.update_apply]
  split <;> rfl

theorem Heap.size_setPtr (s : Heap) (a v x : ℕ) : (s.setPtr a v).size x = s.size x := by
  unfold Heap.size Heap.setPtr
  simp only [Function.update_apply]
  split
  · rename_i h
    rw [h]
  · rfl

theorem Heap.ptr_setSize (s : Heap) (a v x : ℕ) : (s.setSize a v).ptr x = s.ptr x := by
  unfold Heap.ptr Heap.setSize
  simp only [Function.update_apply]
  split
  · rename_i h
    rw [h]
  · rfl

theorem Heap.size_setSize (s : Heap) (a v x : ℕ) :
    (s.setSize a v).size x = if x = a then v else s.size x := by
  unfold Heap.size Heap.setSize
  simp only [Function.update_apply]
  split <;> rfl

/-- `joinUpper` changes the header at `bp` only. -/
theorem Heap.joinUpper_other (s : Heap) {nx x : ℕ} (h : x ≠ bp) :
    (s.joinUpper bp nx).ptr x = s.ptr x ∧ (s.joinUpper bp nx).size x = s.size x := by
  unfold Heap.joinUpper
  split
  · simp [Heap.ptr_setPtr, Heap.ptr_setSize, Heap.size_setPtr, Heap.size_setSize, h]
  · simp [Heap.ptr_setPtr, Heap.size_setPtr, h]

theorem Heap.joinUpper_brk (s : Heap) (bp nx : ℕ) : (s.joinUpper bp nx).brk = s.brk := by
  unfold Heap.joinUpper
  split <;> rfl

/-- Everything below and above `bp` stays in order when only the header at `bp` changes. -/
theorem Arena.open (h : Arena base start s (pre ++ seg :: post)) {sz : ℕ} {post' : List Seg}
    (hbp : bp = start + total pre) (hbrk : t.brk = s.brk)
    (hother : ∀ x, x ≠ bp → t.ptr x = s.ptr x ∧ t.size x = s.size x)
    (hsz : seg.size ≤ sz) (htotal : seg.size + total post = sz + total post')
    (htidy : Tidy (⟨sz, none⟩ :: post')) (hheader : t.size bp = sz)
    (hheaders : Headers s.mem (bp + sz) post')
    (hupper : Cycle.Path t.ptr bp (frees (bp + sz) post') base) :
    Open base start t pre bp sz post' := by
  obtain ⟨hpre, -⟩ := h.tidy.around
  have hbelow := h.below
  have hseg := h.tidy.pos seg (by simp)
  have hlow : ∀ x ∈ base :: frees start pre, x ≠ bp := by
    intro x hx
    rcases List.mem_cons.mp hx with rfl | hx
    · omega
    · have := mem_frees hpre.pos hx
      omega
  obtain ⟨hheadPre, -⟩ := headers_append.mp h.headers
  refine ⟨h.nonnull, hbelow, hbp, ?_, hpre, htidy, ?_, hheader, ?_, ?_, ?_, hupper⟩
  · rw [hbrk, h.brk, total_append, total_cons]
    omega
  · refine hheadPre.congr hpre.pos fun x hx hlt => (hother x ?_).2
    omega
  · refine hheaders.congr (fun s hs => htidy.pos s (by simp [hs])) fun x hx hlt => (hother x ?_).2
    omega
  · exact (hother base (hlow base (by simp))).2.trans h.baseSize
  · -- the list below `bp` ends wherever it ends
    have hcycle := h.cycle
    rw [frees_append] at hcycle
    have hpart : ∃ c, Cycle.Path s.ptr base (frees start pre) c := by
      generalize frees (start + total pre) (seg :: post) = ys at hcycle
      cases ys with
      | nil => exact ⟨base, by rwa [List.append_nil] at hcycle⟩
      | cons y ys => exact ⟨y, (Cycle.path_append.mp hcycle).1⟩
    obtain ⟨c, hc⟩ := hpart
    exact ⟨c, hc.congr fun x hx => (hother x (hlow x hx)).1⟩

theorem Arena.header (h : Arena base start s (pre ++ seg :: post)) :
    s.size (start + total pre) = seg.size ∧
      Headers s.mem (start + total pre + seg.size) post := by
  obtain ⟨-, hheader⟩ := headers_append.mp h.headers
  exact hheader

/-- A free block can stand before a row that does not start with one. -/
theorem Tidy.release {sz : ℕ} {post' : List Seg} (hsz : 0 < sz) (hpost : Tidy post')
    (hfirst : ∀ seg' ∈ post'.head?, seg'.used ≠ none) :
    Tidy (⟨sz, none⟩ :: post') := by
  refine ⟨?_, ?_, ?_⟩
  · intro seg' hseg'
    rcases List.mem_cons.mp hseg' with rfl | hseg'
    · exact hsz
    · exact hpost.pos seg' hseg'
  · cases post' with
    | nil => exact .singleton _
    | cons seg' post' => exact .cons_cons (Or.inr (hfirst seg' rfl)) hpost.apart
  · intro seg' hseg' n hn
    rcases List.mem_cons.mp hseg' with rfl | hseg'
    · cases hn
    · exact hpost.fits seg' hseg' n hn

theorem Arena.joinUpper (h : Arena base start s (pre ++ seg :: post))
    (hbp : bp = start + total pre)
    (hpath : Cycle.Path s.ptr p (frees (bp + seg.size) post) base) :
    ∃ sz post', Open base start (s.joinUpper bp (s.ptr p)) pre bp sz post' ∧
      lives (bp + sz) post' = lives (bp + seg.size) post ∧ seg.size ≤ sz := by
  obtain ⟨-, hpost⟩ := h.tidy.around
  have hseg := h.tidy.pos seg (by simp)
  have hbelow := h.below
  obtain ⟨hheader, hheaders⟩ := h.header
  rw [← hbp] at hheader hheaders
  have hother : ∀ x, x ≠ bp → (s.joinUpper bp (s.ptr p)).ptr x = s.ptr x ∧
      (s.joinUpper bp (s.ptr p)).size x = s.size x := fun x hx => s.joinUpper_other hx
  have habove : ∀ x ∈ frees (bp + seg.size) post, x ≠ bp := by
    intro x hx
    have := mem_frees hpost.pos hx
    omega
  by_cases hjoin : bp + s.size bp = s.ptr p
  · -- the block above is free
    have hnext : s.ptr p = bp + seg.size := by rw [← hjoin, hheader]
    obtain ⟨seg', post', rfl, hfree⟩ : ∃ seg' post', post = seg' :: post' ∧ seg'.used = none := by
      cases hF : frees (bp + seg.size) post with
      | nil =>
          rw [hF] at hpath
          have : s.ptr p = base := hpath
          omega
      | cons y ys =>
          rw [hF] at hpath
          have hy : y = bp + seg.size := hpath.1.symm.trans hnext
          refine mem_frees_start hpost.pos (a := bp + seg.size) ?_
          rw [hF, hy]
          simp
    rw [frees_cons_free hfree] at hpath habove
    obtain ⟨hheader', hheaders'⟩ := hheaders
    have hpost' : Tidy post' := hpost.tail
    have hadd : bp + (seg.size + seg'.size) = bp + seg.size + seg'.size := by omega
    have hptr : (s.joinUpper bp (s.ptr p)).ptr bp = s.ptr (bp + seg.size) := by
      unfold Heap.joinUpper
      rw [if_pos hjoin, Heap.ptr_setPtr, if_pos rfl, hnext]
    have hsize : (s.joinUpper bp (s.ptr p)).size bp = seg.size + seg'.size := by
      unfold Heap.joinUpper
      rw [if_pos hjoin, Heap.size_setPtr, Heap.size_setSize, if_pos rfl, hnext, hheader]
      exact congrArg _ hheader'
    refine ⟨seg.size + seg'.size, post', ?_, ?_, by omega⟩
    · refine h.open hbp (s.joinUpper_brk bp _) hother (by omega) ?_ ?_ hsize ?_ ?_
      · rw [total_cons]
        omega
      · refine Tidy.release (by omega) hpost' fun seg₂ hseg₂ => ?_
        have hchain := hpost.apart
        cases post' with
        | nil => simp at hseg₂
        | cons seg₃ post₃ =>
            obtain rfl : seg₃ = seg₂ := by simpa using hseg₂
            rcases (List.isChain_cons_cons.mp hchain).1 with hbad | hok
            · exact absurd hfree hbad
            · exact hok
      · rw [hadd]
        exact hheaders'
      · rw [hadd]
        exact hpath.2.restart hptr fun x hx => (hother x (habove x (by simp [hx]))).1
    · rw [hadd, lives_cons_free hfree]
  · have hptr : (s.joinUpper bp (s.ptr p)).ptr bp = s.ptr p := by
      unfold Heap.joinUpper
      rw [if_neg hjoin, Heap.ptr_setPtr, if_pos rfl]
    have hsize : (s.joinUpper bp (s.ptr p)).size bp = seg.size := by
      unfold Heap.joinUpper
      rw [if_neg hjoin, Heap.size_setPtr, hheader]
    refine ⟨seg.size, post, ?_, rfl, le_rfl⟩
    refine h.open hbp (s.joinUpper_brk bp _) hother le_rfl rfl ?_ hsize hheaders ?_
    · refine Tidy.release hseg hpost fun seg' hseg' hfree => hjoin ?_
      cases post with
      | nil => simp at hseg'
      | cons seg₂ post₂ =>
          obtain rfl : seg₂ = seg' := by simpa using hseg'
          rw [frees_cons_free hfree] at hpath
          rw [hheader]
          exact hpath.1.symm
    · exact hpath.restart hptr fun x hx => (hother x (habove x hx)).1

/-- The last free block of a row that ends at `bp` is the last block of the row, if it
reaches `bp`. -/
theorem last_free (hbelow : base < start) (hpre : Tidy pre) (hheaders : Headers s.mem start pre)
    (hbase : s.size base = 0) (hp : p ∈ base :: frees start pre)
    (hreach : p + s.size p = start + total pre) :
    ∃ pre' seg, pre = pre' ++ [seg] ∧ seg.used = none ∧ p = start + total pre' := by
  rcases List.mem_cons.mp hp with rfl | hp
  · omega
  · obtain ⟨pre', seg, mid, rfl, hfree, hp'⟩ := exists_of_mem_frees hp
    obtain ⟨-, hheader, -⟩ := headers_append.mp hheaders
    rw [← hp'] at hheader
    have hmid : total mid = 0 := by
      rw [total_append, total_cons] at hreach
      have hsize : s.size p = seg.size := hheader
      omega
    cases mid with
    | nil => exact ⟨pre', seg, rfl, hfree, hp'⟩
    | cons seg' mid =>
        have := hpre.pos seg' (by simp)
        rw [total_cons] at hmid
        omega

/-- Link the open block to the list, or make it a part of the block below. -/
theorem Open.joinLower {sz : ℕ} {u : List ℕ} (h : Open base start s pre bp sz post)
    (hu : base :: frees start pre = u ++ [p]) :
    ∃ segs, Arena base start { s.joinLower bp p with freep := p } segs ∧
      lives start segs = lives start pre ++ lives (bp + sz) post ∧
      ∃ x ∈ frees start segs, sz ≤ (s.joinLower bp p).size x := by
  have hbelow := h.below
  have hbp := h.addr
  have hsz : 0 < sz := h.tidyPost.pos ⟨sz, none⟩ (by simp)
  have hp : p ∈ base :: frees start pre := by
    rw [hu]
    simp
  have habove : ∀ x ∈ frees (bp + sz) post, bp < x := by
    intro x hx
    have := mem_frees h.tidyPost.tail.pos hx
    omega
  obtain ⟨c, hlower⟩ := h.lower
  by_cases hjoin : p + s.size p = bp
  · -- the block below is free
    obtain ⟨pre', seg, rfl, hfree, hp'⟩ :=
      last_free hbelow h.tidyPre h.headersPre h.baseSize hp (hjoin.trans hbp)
    obtain ⟨hheadPre, hheader, -⟩ := headers_append.mp h.headersPre
    rw [← hp'] at hheader
    have hsize : s.size p = seg.size := hheader
    obtain ⟨hpre', -⟩ := h.tidyPre.around
    have hlow : ∀ x ∈ base :: frees start pre', x ≠ p := by
      intro x hx
      have hseg := h.tidyPre.pos seg (by simp)
      rcases List.mem_cons.mp hx with rfl | hx
      · omega
      · have := mem_frees hpre'.pos hx
        omega
    have hadd : p + (seg.size + sz) = bp + sz := by omega
    have hptr : ∀ x, (s.joinLower bp p).ptr x = if x = p then s.ptr bp else s.ptr x := by
      intro x
      unfold Heap.joinLower
      rw [if_pos hjoin, Heap.ptr_setPtr, Heap.ptr_setSize]
    have hsizes : ∀ x, (s.joinLower bp p).size x =
        if x = p then seg.size + sz else s.size x := by
      intro x
      unfold Heap.joinLower
      rw [if_pos hjoin, Heap.size_setPtr, Heap.size_setSize, hsize, h.header]
    have hfrees : frees start (pre' ++ ⟨seg.size + sz, none⟩ :: post) =
        frees start pre' ++ p :: frees (bp + sz) post := by
      rw [frees_append, frees_cons_free rfl, ← hp', hadd]
    have hlower' : Cycle.Path s.ptr base (frees start pre') p := by
      rw [frees_append, frees_cons_free hfree, ← hp'] at hlower
      exact (Cycle.path_append.mp hlower).1
    refine ⟨pre' ++ ⟨seg.size + sz, none⟩ :: post, ⟨h.nonnull, hbelow, ?_, ?_, ?_, ?_, ?_, ?_⟩,
      ?_, p, ?_, ?_⟩
    · have hbrk : (s.joinLower bp p).brk = s.brk := by
        unfold Heap.joinLower
        rw [if_pos hjoin]
        rfl
      refine hbrk.trans ?_
      rw [h.brk, total_append, total_cons, ← Nat.add_assoc, ← hp', ← Nat.add_assoc, hadd]
    · refine hpre'.append (Tidy.release (by omega) h.tidyPost.tail ?_) ?_
      · intro t ht
        have hchain := h.tidyPost.apart
        cases post with
        | nil => simp at ht
        | cons t' post =>
            obtain rfl : t' = t := by simpa using ht
            rcases (List.isChain_cons_cons.mp hchain).1 with hbad | hok
            · exact absurd rfl hbad
            · exact hok
      · intro t ht _ _
        exact Or.inl (h.tidyPre.before hfree t ht)
    · refine headers_append.mpr ⟨hheadPre.congr hpre'.pos fun x _ hx => ?_, ?_, ?_⟩
      · exact (hsizes x).trans (if_neg (by omega))
      · rw [← hp']
        exact (hsizes p).trans (if_pos rfl)
      · rw [← hp', hadd]
        refine h.headersPost.congr h.tidyPost.tail.pos fun x hx _ => ?_
        exact (hsizes x).trans (if_neg (by omega))
    · exact (hsizes base).trans ((if_neg (hlow base (by simp))).trans h.baseSize)
    · rw [hfrees]
      refine Cycle.path_append.mpr ⟨hlower'.congr fun x hx => ?_, h.upper.restart ?_ ?_⟩
      · exact (hptr x).trans (if_neg (hlow x hx))
      · exact (hptr p).trans (if_pos rfl)
      · intro x hx
        have := habove x hx
        exact (hptr x).trans (if_neg (by omega))
    · rw [hfrees]
      simp
    · rw [lives_append, lives_append, lives_cons_free rfl, lives_cons_free hfree, ← hp', hadd]
      rw [List.append_assoc]
      rfl
    · rw [hfrees]
      simp
    · rw [hsizes, if_pos rfl]
      omega
  · have hptr : ∀ x, (s.joinLower bp p).ptr x = if x = p then bp else s.ptr x := by
      intro x
      unfold Heap.joinLower
      rw [if_neg hjoin, Heap.ptr_setPtr]
    have hsizes : ∀ x, (s.joinLower bp p).size x = s.size x := by
      intro x
      unfold Heap.joinLower
      rw [if_neg hjoin, Heap.size_setPtr]
    have hsorted := nodes_pairwise hbelow h.tidyPre.pos
    rw [hu] at hsorted
    have hlow : ∀ x ∈ u, x ≠ p := fun x hx =>
      Nat.ne_of_lt ((List.pairwise_append.mp hsorted).2.2 x hx p (by simp))
    have hpbp : p < bp := by
      rcases List.mem_cons.mp hp with rfl | hp
      · omega
      · have := mem_frees h.tidyPre.pos hp
        omega
    have hfrees : frees start (pre ++ ⟨sz, none⟩ :: post) =
        frees start pre ++ bp :: frees (bp + sz) post := by
      rw [frees_append, frees_cons_free rfl, ← hbp]
    refine ⟨pre ++ ⟨sz, none⟩ :: post, ⟨h.nonnull, hbelow, ?_, ?_, ?_, ?_, ?_, ?_⟩, ?_, bp, ?_, ?_⟩
    · have hbrk : (s.joinLower bp p).brk = s.brk := by
        unfold Heap.joinLower
        rw [if_neg hjoin]
        rfl
      refine hbrk.trans ?_
      rw [h.brk, total_append, total_cons, ← Nat.add_assoc, ← hbp, ← Nat.add_assoc]
    · refine h.tidyPre.append h.tidyPost fun t ht _ _ => Or.inl fun hfree => hjoin ?_
      -- a free block below would be the last of the list
      obtain ⟨pre', rfl⟩ := List.getLast?_eq_some_iff.mp ht
      rw [frees_append, frees_cons_free hfree, ← List.cons_append] at hu
      have hp' : start + total pre' = p := (List.append_inj' hu rfl).2 |> List.singleton_inj.mp
      obtain ⟨-, hheader, -⟩ := headers_append.mp h.headersPre
      rw [hp'] at hheader
      have hsize : s.size p = t.size := hheader
      rw [total_append, total_cons, total_nil] at hbp
      omega
    · refine headers_append.mpr ⟨h.headersPre.congr h.tidyPre.pos fun x _ _ => hsizes x, ?_, ?_⟩
      · rw [← hbp]
        exact (hsizes bp).trans h.header
      · rw [← hbp]
        exact h.headersPost.congr h.tidyPost.tail.pos fun x _ _ => hsizes x
    · exact (hsizes base).trans h.baseSize
    · rw [hfrees]
      refine Cycle.path_append.mpr ⟨hlower.retarget hu ?_ fun x hx => ?_, h.upper.congr ?_⟩
      · exact (hptr p).trans (if_pos rfl)
      · exact (hptr x).trans (if_neg (hlow x hx))
      · intro x hx
        have hle : bp ≤ x := by
          rcases List.mem_cons.mp hx with rfl | hx
          · exact le_rfl
          · exact (habove x hx).le
        exact (hptr x).trans (if_neg (by omega))
    · rw [hfrees, ← List.cons_append, hu]
      simp
    · rw [lives_append, lives_cons_free rfl, ← hbp]
    · rw [hfrees]
      simp
    · rw [hsizes, h.header]

theorem Heap.free_live (h : s.free bp = some t) : t.live = s.live := by
  unfold Heap.free at h
  split at h
  · cases h
  · cases h
    unfold Heap.joinLower Heap.joinUpper
    split <;> split <;> rfl

/-- `free` returns, and the block is part of a free block then. -/
theorem Arena.free (h : Arena base start s (pre ++ seg :: post)) {n : ℕ}
    (hused : seg.used = some n) (hbp : bp = start + total pre) :
    ∃ t segs, s.free bp = some t ∧ Arena base start t segs ∧
      lives start segs = lives start pre ++ lives (bp + seg.size) post ∧
      ∃ x ∈ frees start segs, seg.size ≤ t.size x := by
  obtain ⟨u, p, hu, hpath, hwalk⟩ := h.walk_around s.brk_lt_bound hused hbp
  obtain ⟨sz, post', hopen, hlives, hsz⟩ := h.joinUpper hbp hpath
  obtain ⟨segs, harena, hall, x, hx, hle⟩ := hopen.joinLower hu
  refine ⟨_, segs, ?_, harena, hall.trans (by rw [hlives]), x, hx, hsz.trans hle⟩
  unfold Heap.free
  rw [hwalk]

end Umalloc

end Xv6
