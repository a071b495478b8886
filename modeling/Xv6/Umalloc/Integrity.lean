import Xv6.Umalloc.Free

/-!
# The integrity of the heap

`malloc` takes a free block or cuts it in two, and may add a block at the end of the
row by way of `free`.  So every call leaves the memory of the allocator a row of
blocks, whatever the program asks for and whether or not `sbrk` grants it; and every
call returns.
-/

namespace Xv6

namespace Umalloc

open Support

variable {base start bp p q nu n k : ℕ} {s t : Heap} {seg : Seg} {segs pre post : List Seg}

/-! ## Taking a block -/

/-- The free block after `q`, if it is large enough for anything. -/
theorem Arena.next (h : Arena base start s segs) (hq : q ∈ base :: frees start segs)
    (hsize : 0 < s.size (s.ptr q)) :
    ∃ pre seg post u, segs = pre ++ seg :: post ∧ seg.used = none ∧
      s.ptr q = start + total pre ∧ base :: frees start pre = u ++ [q] := by
  obtain ⟨u, v, hsplit⟩ := List.append_of_mem hq
  have hpath := h.cycle.suffix hsplit
  have hsorted := nodes_pairwise h.below h.tidy.pos
  cases v with
  | nil =>
      have hptr : s.ptr q = base := hpath
      rw [hptr, h.baseSize] at hsize
      omega
  | cons y v =>
      obtain ⟨hptr, -⟩ := hpath
      have hy : y ∈ frees start segs := by
        have hmem : y ∈ base :: frees start segs := by
          rw [hsplit]
          simp
        rcases List.mem_cons.mp hmem with rfl | hmem
        · rw [hptr, h.baseSize] at hsize
          omega
        · exact hmem
      obtain ⟨pre, seg, post, rfl, hfree, haddr⟩ := exists_of_mem_frees hy
      refine ⟨pre, seg, post, u, rfl, hfree, hptr.trans haddr, ?_⟩
      -- both sides are what lies below `y`
      have hseg := h.tidy.pos seg (by simp)
      have hbelow := h.below
      rw [frees_append, frees_cons_free hfree, ← haddr] at hsplit hsorted
      have hcut : (base :: frees start pre) ++ y :: frees (y + seg.size) post =
          (u ++ [q]) ++ y :: v := by
        rw [List.cons_append, hsplit, List.append_assoc, List.singleton_append]
      have hsorted' : ((u ++ [q]) ++ y :: v).Pairwise (· < ·) := by
        rw [← hcut, List.cons_append]
        exact hsorted
      obtain ⟨-, hright, hmeet⟩ := List.pairwise_append.mp hsorted'
      rw [← List.cons_append] at hsorted
      obtain ⟨-, hright₀, hmeet₀⟩ := List.pairwise_append.mp hsorted
      have hge : ∀ l : List ℕ, (y :: l).Pairwise (· < ·) → ∀ z ∈ y :: l, y ≤ z := by
        intro l hl z hz
        rcases List.mem_cons.mp hz with rfl | hz
        · exact le_rfl
        · exact ((List.pairwise_cons.mp hl).1 z hz).le
      exact (cut_unique hcut (fun x hx => hmeet₀ x hx y (by simp)) (hge _ hright₀)
        (fun x hx => hmeet x hx y (by simp)) (hge _ hright)).1

/-- The block that `malloc` hands out is a block of the row, in use from now on. -/
theorem Arena.carve (h : Arena base start s segs) (hq : q ∈ base :: frees start segs)
    (hnu : 0 < nu) (hfit : nu ≤ s.size (s.ptr q)) (hn : n ≤ 8 * (nu - 1)) :
    ∃ segs', Arena base start (s.carve nu q).1 segs' ∧ (s.carve nu q).1.live = s.live ∧
      (lives start segs').Perm (((s.carve nu q).2, n) :: lives start segs) := by
  obtain ⟨pre, seg, post, u, rfl, hfree, hp, hu⟩ := h.next hq (by omega)
  obtain ⟨hheader, hheaders⟩ := h.header
  obtain ⟨hheadPre, -⟩ := headers_append.mp h.headers
  obtain ⟨hpre, hpost⟩ := h.tidy.around
  have hbelow := h.below
  have hseg := h.tidy.pos seg (by simp)
  have hbrk := h.brk
  have hcycle := h.cycle
  rw [total_append, total_cons] at hbrk
  rw [frees_append, frees_cons_free hfree, ← hp] at hcycle
  rw [← hp] at hheader hheaders
  have hfits : nu ≤ seg.size := by omega
  have hqmem : q ∈ base :: frees start pre := by
    rw [hu]
    simp
  have hqp : q < s.ptr q := by
    rcases List.mem_cons.mp hqmem with rfl | hqmem
    · omega
    · have := mem_frees hpre.pos hqmem
      omega
  have hmeet := h.tidy.before hfree
  by_cases hexact : s.size (s.ptr q) = nu
  · -- the whole block
    have hcarve : s.carve nu q = ({ s.setPtr q (s.ptr (s.ptr q)) with freep := q }, s.ptr q) := by
      unfold Heap.carve
      rw [if_pos hexact]
    rw [hcarve]
    have hsizes : ∀ x, (s.setPtr q (s.ptr (s.ptr q))).size x = s.size x := s.size_setPtr q _
    have hptrs := s.ptr_setPtr q (s.ptr (s.ptr q))
    have hsize : nu = seg.size := by omega
    have hfrees : frees start (pre ++ ⟨nu, some n⟩ :: post) =
        frees start pre ++ frees (s.ptr q + seg.size) post := by
      rw [frees_append, frees_cons_used rfl, ← hp, hsize]
    refine ⟨pre ++ ⟨nu, some n⟩ :: post, ⟨h.nonnull, hbelow, ?_, ?_, ?_, ?_, ?_, ?_⟩, rfl, ?_⟩
    · rw [total_append, total_cons, hsize]
      exact hbrk
    · refine hpre.append (hpost.cons_used hnu hn) fun t ht _ _ => Or.inl (hmeet t ht)
    · refine headers_append.mpr ⟨hheadPre.congr hpre.pos fun x _ _ => hsizes x, ?_, ?_⟩
      · rw [← hp]
        exact (hsizes _).trans hexact
      · rw [← hp]
        refine Headers.congr ?_ hpost.pos fun x _ _ => hsizes x
        rw [hsize]
        exact hheaders
    · exact (hsizes base).trans h.baseSize
    · rw [hfrees]
      have hsorted := nodes_pairwise hbelow hpre.pos
      rw [hu] at hsorted
      refine hcycle.unlink hu ?_ (fun x hx => ?_) fun y hy => ?_
      · exact (hptrs q).trans (if_pos rfl)
      · have hlt := (List.pairwise_append.mp hsorted).2.2 x hx q (by simp)
        exact (hptrs x).trans (if_neg (by omega))
      · have hy' := mem_frees hpost.pos hy
        exact (hptrs y).trans (if_neg (by omega))
    · rw [hfrees, ← List.cons_append]
      exact List.mem_append_left _ hqmem
    · rw [lives_append, lives_append, lives_cons_used rfl, lives_cons_free hfree, ← hp, hsize]
      exact List.perm_middle
  · -- the end of the block
    have hcarve : s.carve nu q =
        ({ (s.setSize (s.ptr q) (seg.size - nu)).setSize (s.ptr q + (seg.size - nu)) nu with
          freep := q }, s.ptr q + (seg.size - nu)) := by
      unfold Heap.carve
      rw [if_neg hexact, hheader]
    rw [hcarve]
    have hrest : 0 < seg.size - nu := by omega
    have hsizes : ∀ x, ((s.setSize (s.ptr q) (seg.size - nu)).setSize
        (s.ptr q + (seg.size - nu)) nu).size x =
        if x = s.ptr q + (seg.size - nu) then nu else
          if x = s.ptr q then seg.size - nu else s.size x := by
      intro x
      rw [Heap.size_setSize, Heap.size_setSize]
    have hptrs : ∀ x, ((s.setSize (s.ptr q) (seg.size - nu)).setSize
        (s.ptr q + (seg.size - nu)) nu).ptr x = s.ptr x := by
      intro x
      rw [Heap.ptr_setSize, Heap.ptr_setSize]
    have hadd : s.ptr q + (seg.size - nu) + nu = s.ptr q + seg.size := by omega
    have hfrees : frees start (pre ++ ⟨seg.size - nu, none⟩ :: ⟨nu, some n⟩ :: post) =
        frees start pre ++ s.ptr q :: frees (s.ptr q + seg.size) post := by
      rw [frees_append, frees_cons_free rfl, frees_cons_used rfl, ← hp, hadd]
    refine ⟨pre ++ ⟨seg.size - nu, none⟩ :: ⟨nu, some n⟩ :: post,
      ⟨h.nonnull, hbelow, ?_, ?_, ?_, ?_, ?_, ?_⟩, rfl, ?_⟩
    · refine hbrk.trans ?_
      rw [total_append, total_cons, total_cons, ← Nat.add_assoc (seg.size - nu),
        Nat.sub_add_cancel hfits]
    · refine hpre.append (Tidy.release hrest (hpost.cons_used hnu hn) ?_) fun t ht _ _ =>
        Or.inl (hmeet t ht)
      intro t ht
      obtain rfl : (⟨nu, some n⟩ : Seg) = t := by simpa using ht
      simp
    · refine headers_append.mpr ⟨hheadPre.congr hpre.pos fun x _ hx => ?_, ?_, ?_, ?_⟩
      · exact (hsizes x).trans ((if_neg (by omega)).trans (if_neg (by omega)))
      · rw [← hp]
        exact (hsizes _).trans ((if_neg (by omega)).trans (if_pos rfl))
      · rw [← hp]
        exact (hsizes _).trans (if_pos rfl)
      · rw [← hp, hadd]
        refine hheaders.congr hpost.pos fun x hx _ => ?_
        exact (hsizes x).trans ((if_neg (by omega)).trans (if_neg (by omega)))
    · exact (hsizes base).trans (((if_neg (by omega)).trans (if_neg (by omega))).trans h.baseSize)
    · rw [hfrees]
      exact hcycle.congr fun x _ => hptrs x
    · rw [hfrees, ← List.cons_append]
      exact List.mem_append_left _ hqmem
    · rw [lives_append, lives_append, lives_cons_free rfl, lives_cons_used rfl,
        lives_cons_free hfree, ← hp, hadd]
      exact List.perm_middle

/-! ## More memory -/

theorem moved_units (brk : ℕ) (hsmall : k < 268435456) :
    Heap.moved brk (int32 (k * 8)) = brk + k := by
  unfold Heap.moved
  rw [int32_of_bounds (by omega) (by omega), if_neg (by omega)]
  omega

/-- Memory behind the break is a block in use at the end of the row. -/
theorem Arena.extend (h : Arena base start s segs) (hk : 0 < k) :
    Arena base start { s.setSize s.brk k with brk := s.brk + k } (segs ++ [⟨k, some 0⟩]) := by
  have hbelow := h.below
  have hsizes : ∀ x, (s.setSize s.brk k).size x = if x = s.brk then k else s.size x :=
    s.size_setSize s.brk k
  have hptrs : ∀ x, (s.setSize s.brk k).ptr x = s.ptr x := s.ptr_setSize s.brk k
  have hfrees : frees start (segs ++ [⟨k, some 0⟩]) = frees start segs := by
    rw [frees_append, frees_cons_used rfl]
    simp [frees]
  have hbrk := h.brk
  refine ⟨h.nonnull, hbelow, ?_, ?_, ?_, ?_, ?_, ?_⟩
  · change s.brk + k = _
    rw [total_append, total_cons, total_nil, hbrk, Nat.add_zero, Nat.add_assoc]
  · refine h.tidy.append ((Tidy.cons_used ⟨?_, .nil, ?_⟩ hk (by omega))) fun t _ t' ht' => ?_
    · simp
    · simp
    · obtain rfl : (⟨k, some 0⟩ : Seg) = t' := by simpa using ht'
      exact Or.inr (by simp)
  · refine headers_append.mpr ⟨h.headers.congr h.tidy.pos fun x _ hx => ?_, ?_, trivial⟩
    · exact (hsizes x).trans (if_neg (by omega))
    · rw [← hbrk]
      exact (hsizes _).trans (if_pos rfl)
  · exact (hsizes base).trans ((if_neg (by omega)).trans h.baseSize)
  · rw [hfrees]
    exact h.cycle.congr fun x _ => hptrs x
  · rw [hfrees]
    exact h.freep

theorem Arena.grow (h : Arena base start s segs) (hk : 0 < k) (hsmall : k < 268435456) :
    Arena base start (s.grow k) (segs ++ [⟨k, some 0⟩]) := by
  rw [Heap.grow, moved_units s.brk hsmall]
  exact h.extend hk

theorem coreUnits_bounds (hnu : nu < 268435456) :
    nu ≤ Heap.coreUnits nu ∧ 0 < Heap.coreUnits nu ∧ Heap.coreUnits nu < 268435456 := by
  unfold Heap.coreUnits
  split <;> omega

theorem int32_coreUnits_pos (hnu : nu < 268435456) : 0 < int32 (Heap.coreUnits nu * 8) := by
  have hcore := coreUnits_bounds hnu
  rw [int32_of_bounds (by omega) (by omega)]
  omega

/-- `morecore` leaves a free block that is large enough. -/
theorem Arena.morecore (h : Arena base start s segs) (hnu : nu < 268435456) :
    ∃ t segs', s.morecore true nu = some (some t) ∧ Arena base start t segs' ∧
      t.live = s.live ∧ lives start segs' = lives start segs ∧
      ∃ x ∈ frees start segs', nu ≤ t.size x := by
  obtain ⟨hle, hpos, hsmall⟩ := coreUnits_bounds hnu
  obtain ⟨t, segs', hfree, harena, hlives, x, hx, hroom⟩ := (h.grow hpos hsmall).free rfl h.brk
  have hlive : t.live = (s.grow (Heap.coreUnits nu)).live := Heap.free_live hfree
  refine ⟨t, segs', ?_, harena, hlive, hlives.trans ?_, x, hx, hle.trans hroom⟩
  · have hmapped : (s.grow (Heap.coreUnits nu)).Mapped s.brk := by
      rw [Heap.Mapped, Heap.grow_brk, moved_units s.brk hsmall]
      omega
    rw [Heap.morecore, if_neg (by simp), if_pos hmapped, hfree]
    rfl
  · simp [lives]

/-! ## The search -/

/-- The whole list is searched at most once before the loop of `malloc` stops. -/
theorem Arena.walk_last (h : Arena base start s segs) (hk : s.brk < k) (nu : ℕ) :
    ∃ q ∈ base :: frees start segs,
      Cycle.walk s.ptr (s.Last nu) k s.freep = some q ∧
      ((∃ x ∈ frees start segs, nu ≤ s.size x) → nu ≤ s.size (s.ptr q)) := by
  have hprev : ∀ x ∈ base :: frees start segs, ∃ r ∈ base :: frees start segs, s.ptr r = x := by
    intro x hx
    refine h.cycle.exists_prev ?_
    rcases List.mem_cons.mp hx with rfl | hx
    · simp
    · exact List.mem_append_left _ hx
  have hstop : ∃ r ∈ base :: frees start segs, s.Last nu r := by
    obtain ⟨r, hr, hptr⟩ := hprev s.freep h.freep
    exact ⟨r, hr, Or.inr hptr⟩
  obtain ⟨ys, u, q, v, hpath, hperm, hsplit, hfirst, hlast, hwalk⟩ := h.walk hk h.freep hstop
  have hq : q ∈ base :: frees start segs := by
    refine hperm.mem_iff.mp ?_
    rw [hsplit]
    simp
  refine ⟨q, hq, hwalk, ?_⟩
  rintro ⟨x, hx, hfit⟩
  rcases hlast with hlast | hlast
  · exact hlast
  -- the walk has come to its end, so it has seen what is before `x`
  have hnodup : (s.freep :: ys).Nodup :=
    hperm.nodup_iff.mpr ((nodes_pairwise h.below h.tidy.pos).imp fun hlt => Nat.ne_of_lt hlt)
  have hv : v = [] := by
    cases v with
    | nil => rfl
    | cons y v =>
        have hy : s.ptr q = y := (hpath.suffix hsplit).1
        have hmem : s.freep ∈ ys := by
          have htail : y ∈ (s.freep :: ys).tail := by
            rw [hsplit]
            cases u with
            | nil => simp
            | cons z u => simp
          rw [← hlast, hy]
          exact htail
        exact absurd hmem (List.nodup_cons.mp hnodup).1
  obtain ⟨r, hr, hptr⟩ := hprev x (List.mem_cons_of_mem _ hx)
  have hmem : r ∈ u ++ q :: v := by
    rw [← hsplit]
    exact hperm.mem_iff.mpr hr
  rw [hv] at hmem
  rcases List.mem_append.mp hmem with hmem | hmem
  · exact absurd (Or.inl (by rwa [hptr])) (hfirst r hmem)
  · obtain rfl : r = q := by simpa using hmem
    rwa [hptr]

/-- What `malloc` returns: nothing, or a new block of the row. -/
structure Result (base start n : ℕ) (s : Heap) (segs : List Seg) (r : Heap × Option ℕ)
    (segs' : List Seg) : Prop where
  arena : Arena base start r.1 segs'
  live : r.1.live = s.live
  lives : match r.2 with
    | none => lives start segs' = lives start segs
    | some bp => (Umalloc.lives start segs').Perm ((bp, n) :: Umalloc.lives start segs)

/-- If the free list has a block that is large enough, `malloc` takes one. -/
theorem Arena.search_found (h : Arena base start s segs)
    (hroom : ∃ x ∈ frees start segs, nu ≤ s.size x) (grant : Bool) (rounds : ℕ) :
    ∃ q ∈ base :: frees start segs, nu ≤ s.size (s.ptr q) ∧
      Heap.search grant nu (rounds + 1) s s.freep =
        some ((s.carve nu q).1, some (s.carve nu q).2) := by
  obtain ⟨q, hq, hwalk, hfound⟩ := h.walk_last s.brk_lt_bound nu
  have hfit := hfound hroom
  refine ⟨q, hq, hfit, ?_⟩
  rw [Heap.search, hwalk]
  exact if_pos hfit

/-- Otherwise it calls `morecore`. -/
theorem Arena.search_more (h : Arena base start s segs) (hnu : 0 < nu)
    (hnone : ¬∃ x ∈ frees start segs, nu ≤ s.size x) (grant : Bool) (rounds : ℕ) :
    Heap.search grant nu (rounds + 1) s s.freep =
      match s.morecore grant nu with
      | none => none
      | some none => some (s, none)
      | some (some t) => Heap.search grant nu rounds t t.freep := by
  obtain ⟨q, hq, hwalk, -⟩ := h.walk_last s.brk_lt_bound nu
  have hfit : ¬nu ≤ s.size (s.ptr q) := by
    intro hfit
    obtain ⟨pre, seg, post, u, rfl, hfree, hptr, -⟩ := h.next hq (by omega)
    refine hnone ⟨s.ptr q, ?_, hfit⟩
    rw [frees_append, frees_cons_free hfree, ← hptr]
    simp
  rw [Heap.search, hwalk]
  exact if_neg hfit

theorem Arena.search (h : Arena base start s segs) (grant : Bool) (hnu : 0 < nu)
    (hsmall : nu < 268435456) (hn : n ≤ 8 * (nu - 1)) :
    ∃ r segs', Heap.search grant nu 2 s s.freep = some r ∧
      Result base start n s segs r segs' := by
  by_cases hroom : ∃ x ∈ frees start segs, nu ≤ s.size x
  · obtain ⟨q, hq, hfit, hsearch⟩ := h.search_found hroom grant 1
    obtain ⟨segs', harena, hlive, hperm⟩ := h.carve hq hnu hfit hn
    exact ⟨_, segs', hsearch, harena, hlive, hperm⟩
  · rw [h.search_more hnu hroom]
    cases grant with
    | false =>
        have hrefuse : s.morecore false nu = some none := by
          rw [Heap.morecore, if_pos ⟨rfl, int32_coreUnits_pos hsmall⟩]
        rw [hrefuse]
        exact ⟨_, segs, rfl, h, rfl, rfl⟩
    | true =>
        obtain ⟨t, segs₁, hmore, harena, hlive, hlives, hroom'⟩ := h.morecore hsmall
        rw [hmore]
        -- the second time around
        obtain ⟨q, hq, hfit, hsearch⟩ := harena.search_found hroom' true 0
        obtain ⟨segs₂, harena', hlive', hperm⟩ := harena.carve hq hnu hfit hn
        refine ⟨_, segs₂, hsearch, harena', hlive'.trans hlive, ?_⟩
        rw [← hlives]
        exact hperm

/-! ## Calls -/

/-- The memory is a row of blocks, and those in use are those handed out. -/
def Row (base start : ℕ) (s : Heap) : Prop :=
  ∃ segs, Arena base start s segs ∧ s.live.Perm (lives start segs)

theorem Arena.relive (h : Arena base start s segs) (live : List (ℕ × ℕ)) :
    Arena base start { s with live } segs :=
  ⟨h.nonnull, h.below, h.brk, h.tidy, h.headers, h.baseSize, h.cycle, h.freep⟩

theorem Fresh.ready (h : Fresh start s) (hnonnull : 0 < base) (hbelow : base < start) :
    Arena base start (s.ready base) [] := by
  rw [Heap.ready, if_pos h.freep]
  refine ⟨hnonnull, hbelow, ?_, ⟨by simp, .nil, by simp⟩, trivial, ?_, ?_, by simp⟩
  · exact h.brk
  · simp [Heap.size]
  · change Heap.ptr _ base = base
    simp [Heap.ptr]

theorem Arena.ready (h : Arena base start s segs) : s.ready base = s := by
  have hfreep : s.freep ≠ 0 := by
    have hnonnull := h.nonnull
    have hbelow := h.below
    rcases List.mem_cons.mp h.freep with hp | hp
    · omega
    · have := mem_frees h.tidy.pos hp
      omega
  exact if_neg hfreep

theorem nunits_of_le (hn : n ≤ 2147483632) :
    0 < Heap.nunits n ∧ Heap.nunits n < 268435456 ∧ n ≤ 8 * (Heap.nunits n - 1) := by
  unfold Heap.nunits
  rw [wrap32_of_lt (by omega)]
  omega

/-- `malloc` returns. -/
theorem malloc_row (hn : n ≤ 2147483632) (grant : Bool)
    (h : Arena base start (s.ready base) segs) (hperm : s.live.Perm (lives start segs)) :
    ∃ t, s.step base (.malloc n grant) = some t ∧ Row base start t := by
  obtain ⟨hpos, hsmall, hroom⟩ := nunits_of_le hn
  have hlive : (s.ready base).live = s.live := by
    unfold Heap.ready
    split <;> rfl
  obtain ⟨⟨t, r⟩, segs', hsearch, harena, hlive', hlives⟩ := h.search grant hpos hsmall hroom
  have hmalloc : s.malloc base n grant = some (t, r) := hsearch
  have hkept : t.live = s.live := hlive'.trans hlive
  cases r with
  | none =>
      refine ⟨t, ?_, segs', harena, ?_⟩
      · rw [Heap.step, hmalloc]
      · rw [hkept, hlives]
        exact hperm
  | some bp =>
      refine ⟨{ t with live := (bp, n) :: t.live }, ?_, segs', harena.relive _, ?_⟩
      · rw [Heap.step, hmalloc]
      · refine List.Perm.trans ?_ hlives.symm
        rw [hkept]
        exact hperm.cons _

/-- The block in use with a given address. -/
theorem Arena.block (h : Arena base start s segs) (hperm : s.live.Perm (lives start segs))
    (hbp : (bp, n) ∈ s.live) :
    ∃ pre seg post, segs = pre ++ seg :: post ∧ seg.used = some n ∧ bp = start + total pre ∧
      s.size bp = seg.size := by
  obtain ⟨pre, seg, post, rfl, hused, haddr⟩ := exists_of_mem_lives (hperm.mem_iff.mp hbp)
  refine ⟨pre, seg, post, rfl, hused, haddr, ?_⟩
  rw [haddr]
  exact h.header.1

/-- `free` of a block returns. -/
theorem free_row (h : Row base start s) (hbp : (bp, n) ∈ s.live) :
    ∃ t, s.step base (.free bp) = some t ∧ Row base start t := by
  obtain ⟨segs, harena, hperm⟩ := h
  obtain ⟨pre, seg, post, rfl, hused, haddr, -⟩ := harena.block hperm hbp
  obtain ⟨t, segs', hfree, harena', hlives, -⟩ := harena.free hused haddr
  refine ⟨{ t with live := t.live.eraseP fun b => b.1 = bp }, ?_, segs', harena'.relive _, ?_⟩
  · rw [Heap.step, hfree]
    rfl
  · -- no other block has this address
    rw [hlives]
    change (t.live.eraseP fun b => b.1 = bp).Perm _
    rw [Heap.free_live hfree]
    have hlives' := lives_pairwise (a := start) harena.tidy.pos
    rw [lives_append, lives_cons_used hused, ← haddr] at hperm hlives'
    have hfirst : ∀ b ∈ lives start pre, ¬(b.1 = bp) := by
      intro b hb
      have hlt := (List.pairwise_append.mp hlives').2.2 b hb (bp, n) (by simp)
      exact Nat.ne_of_lt hlt
    have honce : (lives start pre ++ (bp, n) :: lives (bp + seg.size) post).Pairwise
        fun b c => b.1 = bp → ¬(c.1 = bp) :=
      hlives'.imp fun hlt hb hc => Nat.ne_of_lt hlt (hb.trans hc.symm)
    have herase := List.Perm.eraseP (fun b => decide (b.1 = bp)) (by simpa using honce) hperm.symm
    rw [List.eraseP_append_right _ (by simpa using hfirst), List.eraseP_cons_of_pos (by simp)]
      at herase
    exact herase.symm

/-- What a program stores in its blocks is not read by the allocator. -/
theorem store_row (h : Row base start s) (hbp : (bp, n) ∈ s.live) {a : ℕ} (w : Header)
    (hlow : bp < a) (hhigh : a < bp + s.size bp) :
    Row base start { s with mem := Function.update s.mem a w } := by
  obtain ⟨segs, harena, hperm⟩ := h
  obtain ⟨pre, seg, post, rfl, hused, haddr, hsize⟩ := harena.block hperm hbp
  obtain ⟨hpre, hpost⟩ := harena.tidy.around
  obtain ⟨hheadPre, hheader, hheadPost⟩ := headers_append.mp harena.headers
  have hbelow := harena.below
  have hother : ∀ x, x ≠ a → Function.update s.mem a w x = s.mem x := fun x hx =>
    Function.update_of_ne hx w s.mem
  rw [hsize] at hhigh
  refine ⟨pre ++ seg :: post, ⟨harena.nonnull, hbelow, harena.brk, harena.tidy, ?_, ?_, ?_,
    harena.freep⟩, hperm⟩
  · refine headers_append.mpr ⟨hheadPre.congr hpre.pos fun x _ hx => ?_, ?_, ?_⟩
    · change (Function.update s.mem a w x).size = _
      rw [hother x (by omega)]
    · change (Function.update s.mem a w _).size = _
      rw [hother _ (by omega)]
      exact hheader
    · refine hheadPost.congr hpost.pos fun x hx _ => ?_
      change (Function.update s.mem a w x).size = _
      rw [hother x (by omega)]
  · change (Function.update s.mem a w base).size = 0
    rw [hother base (by omega)]
    exact harena.baseSize
  · refine harena.cycle.congr fun x hx => ?_
    change (Function.update s.mem a w x).ptr = _
    rw [hother x ?_]
    rw [frees_append, frees_cons_used hused] at hx
    rcases List.mem_cons.mp hx with rfl | hx
    · omega
    · rcases List.mem_append.mp hx with hx | hx
      · have := mem_frees hpre.pos hx
        omega
      · have := mem_frees hpost.pos hx
        omega

/-! ## Runs -/

/-- Before and after its first call the heap is ready for one. -/
theorem exists_ready (hnonnull : 0 < base) (hbelow : base < start)
    (h : Fresh start s ∨ Row base start s) :
    ∃ segs, Arena base start (s.ready base) segs ∧ s.live.Perm (lives start segs) := by
  rcases h with hfresh | ⟨segs, harena, hperm⟩
  · refine ⟨[], hfresh.ready hnonnull hbelow, ?_⟩
    rw [hfresh.live]
    exact .refl _
  · refine ⟨segs, ?_, hperm⟩
    rw [harena.ready]
    exact harena

/-- A heap with a block in use has had its first call. -/
theorem row_of_mem_live (h : Fresh start s ∨ Row base start s) (hbp : (bp, n) ∈ s.live) :
    Row base start s := by
  rcases h with hfresh | hrow
  · rw [hfresh.live] at hbp
    simp at hbp
  · exact hrow

/-- Every call that the program may make returns, and leaves a row of blocks. -/
theorem step_row {op : Op} (hnonnull : 0 < base) (hbelow : base < start)
    (h : Fresh start s ∨ Row base start s) (hop : op.Allowed s) :
    ∃ t, s.step base op = some t ∧ Row base start t := by
  cases op with
  | malloc n grant =>
      have hn : n ≤ 2147483632 := le_of_lt (lt_trans hop (by decide))
      obtain ⟨segs, harena, hperm⟩ := exists_ready hnonnull hbelow h
      exact malloc_row hn grant harena hperm
  | free bp =>
      obtain ⟨n, hbp⟩ := hop
      exact free_row (row_of_mem_live h hbp) hbp
  | store a w =>
      obtain ⟨bp, n, hbp, hlow, hhigh⟩ := hop
      exact ⟨_, rfl, store_row (row_of_mem_live h hbp) hbp w hlow hhigh⟩

/-- What the free list `list` and the blocks handed out are to each other: the list is a
cycle through `base` in the order of the addresses, with no two blocks touching; no two
blocks of either kind overlap; and together they are the memory between the first
break and the current one.  A block of `k` units has `8 * (k - 1)` bytes for the program
above its header. -/
structure Integrity (base start : ℕ) (s : Heap) (list : List ℕ) : Prop where
  cycle : Cycle.Path s.ptr base list base
  freep : s.freep ∈ base :: list
  increasing : (base :: list).Pairwise (· < ·)
  apart : list.Pairwise fun x y => x + s.size x < y
  disjoint : (list ++ s.live.map Prod.fst).Pairwise fun x y =>
    x + s.size x ≤ y ∨ y + s.size y ≤ x
  room : ∀ b ∈ s.live, 0 < s.size b.1 ∧ b.2 ≤ 8 * (s.size b.1 - 1)
  tiles : ∀ x, (start ≤ x ∧ x < s.brk) ↔
    ∃ b ∈ list ++ s.live.map Prod.fst, b ≤ x ∧ x < b + s.size b

theorem Row.integrity (h : Row base start s) : ∃ list, Integrity base start s list := by
  obtain ⟨segs, harena, hperm⟩ := h
  have hstarts : (frees start segs ++ s.live.map Prod.fst).Perm (starts start segs) :=
    ((hperm.map Prod.fst).append_left _).trans starts_perm
  refine ⟨frees start segs, harena.cycle, harena.freep,
    nodes_pairwise harena.below harena.tidy.pos, frees_apart harena.tidy harena.headers, ?_, ?_, ?_⟩
  · refine (hstarts.pairwise_iff fun hxy => ?_).mpr
      ((starts_pairwise harena.headers).imp fun hle => Or.inl hle)
    exact hxy.symm
  · rintro ⟨bp, n⟩ hb
    obtain ⟨pre, seg, post, rfl, hused, -, hsize⟩ := harena.block hperm hb
    change 0 < s.size bp ∧ n ≤ 8 * (s.size bp - 1)
    rw [hsize]
    exact ⟨harena.tidy.pos seg (by simp), harena.tidy.fits seg (by simp) n hused⟩
  · intro x
    rw [harena.brk, mem_row_iff harena.headers]
    simp only [hstarts.mem_iff]

/-- From its first call on, a program that asks for less than 2 to the 28 bytes at a time
and keeps to its blocks finds the heap in order after every call, and every call returns. -/
theorem heap_integrity {ops : List Op} (hnonnull : 0 < base) (hbelow : base < start)
    (hfresh : Fresh start s) (hrun : Run (Step base) (fun _ => True) s ops t) :
    (ops ≠ [] → ∃ list, Integrity base start t list) ∧
      ∀ op, op.Allowed t → ∃ t', t.step base op = some t' := by
  have hstate : (ops = [] ∧ Fresh start t) ∨ Row base start t := by
    refine hrun.history (J := fun es x => (es = [] ∧ Fresh start x) ∨ Row base start x) ?_
      (Or.inl ⟨rfl, hfresh⟩)
    rintro gs x op y - - hx ⟨hop, hstep⟩
    obtain ⟨y', hstep', hrow⟩ := step_row hnonnull hbelow (hx.imp And.right id) hop
    obtain rfl : y' = y := Option.some.inj (hstep'.symm.trans hstep)
    exact Or.inr hrow
  constructor
  · intro hops
    rcases hstate with ⟨rfl, -⟩ | hrow
    · exact absurd rfl hops
    · exact hrow.integrity
  · intro op hop
    obtain ⟨t', hstep, -⟩ := step_row hnonnull hbelow (hstate.imp And.right id) hop
    exact ⟨t', hstep⟩

/-- A heap before its first call. -/
def newHeap : Heap :=
  { mem := fun _ => ⟨0, 0⟩, freep := 0, brk := 4, live := [] }

/-- The heap after a request for 100 bytes. -/
def usedHeap : Heap :=
  (newHeap.step 1 (.malloc 100 true)).getD newHeap

theorem heap_integrity_usedHeap :
    Run (Step 1) (fun _ => True) newHeap [.malloc 100 true] usedHeap ∧
      usedHeap.live = [(4086, 100)] ∧ (∃ list, Integrity 1 4 usedHeap list) ∧
      ∃ t, usedHeap.step 1 (.free 4086) = some t := by
  have hstep : newHeap.step 1 (.malloc 100 true) = some usedHeap := by
    unfold usedHeap
    cases hcall : newHeap.step 1 (.malloc 100 true) with
    | none =>
        have hreturns : (newHeap.step 1 (.malloc 100 true)).isSome = true := by decide +kernel
        rw [hcall] at hreturns
        cases hreturns
    | some t => rfl
  have hlive : usedHeap.live = [(4086, 100)] := by decide +kernel
  have hrun : Run (Step 1) (fun _ => True) newHeap [.malloc 100 true] usedHeap :=
    Run.single trivial ⟨show 100 < 268435456 by decide, hstep⟩ trivial
  have hfresh : Fresh 4 newHeap := ⟨rfl, rfl, rfl⟩
  obtain ⟨hlist, hreturns⟩ := heap_integrity (by decide) (by decide) hfresh hrun
  refine ⟨hrun, hlive, hlist (by simp), hreturns (.free 4086) ⟨100, ?_⟩⟩
  rw [hlive]
  simp

end Umalloc

end Xv6
