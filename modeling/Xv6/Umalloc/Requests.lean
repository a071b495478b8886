import Xv6.Umalloc.Integrity

/-!
# Requests of any size

What `malloc` does with the whole range of its argument, a `uint`.  From 2147483633 bytes
on, the product that `morecore` passes to `sbrk` is not positive as an `int`: the break does
not move up, but the header at the old break gets the size of the request.  From 4294967289
bytes on, the rounding in `malloc` wraps, and the request is for a header only.
-/

namespace Xv6

namespace Umalloc

open Support

variable {base start bp p nu n k b : ℕ} {s t : Heap} {seg : Seg} {segs pre post : List Seg}
  {grant : Bool} {r : Option ℕ}

/-- The free list has a block of at least `nu` units. -/
def Heap.Offers (base : ℕ) (s : Heap) (nu : ℕ) : Prop :=
  ∃ list, Cycle.Path s.ptr base list base ∧ ∃ x ∈ list, nu ≤ s.size x

theorem Arena.offers_iff (h : Arena base start s segs) (hnu : 0 < nu) :
    s.Offers base nu ↔ ∃ x ∈ frees start segs, nu ≤ s.size x := by
  constructor
  · rintro ⟨list, hpath, x, hx, hfit⟩
    have hmem : x ∈ base :: frees start segs :=
      hpath.subset (fun p hp => h.cycle.closed hp) List.mem_cons_self hx
    rcases List.mem_cons.mp hmem with rfl | hmem
    · rw [h.baseSize] at hfit
      omega
    · exact ⟨x, hmem, hfit⟩
  · intro hroom
    exact ⟨_, h.cycle, hroom⟩

/-! ## The break -/

theorem Heap.free_brk (h : s.free bp = some t) : t.brk = s.brk := by
  unfold Heap.free at h
  split at h
  · cases h
  · cases h
    unfold Heap.joinLower Heap.joinUpper
    split <;> split <;> rfl

theorem Heap.carve_brk (s : Heap) (nu q : ℕ) : (s.carve nu q).1.brk = s.brk := by
  unfold Heap.carve
  by_cases hexact : s.size (s.ptr q) = nu
  · rw [if_pos hexact]
    rfl
  · rw [if_neg hexact]
    rfl

/-- The block handed out has as many units as were asked for. -/
theorem Heap.size_carve (s : Heap) (nu q : ℕ) :
    (s.carve nu q).1.size (s.carve nu q).2 = nu := by
  unfold Heap.carve
  by_cases hexact : s.size (s.ptr q) = nu
  · rw [if_pos hexact]
    exact (s.size_setPtr q _ _).trans hexact
  · rw [if_neg hexact]
    exact (Heap.size_setSize _ _ _ _).trans (if_pos rfl)

theorem Heap.morecore_brk (h : s.morecore grant nu = some (some t)) :
    t.brk = Heap.moved s.brk (int32 (Heap.coreUnits nu * 8)) ∧
      (0 < int32 (Heap.coreUnits nu * 8) → grant = true) := by
  unfold Heap.morecore at h
  split at h
  · cases h
  · next hgrant =>
    split at h
    · obtain ⟨u, hu, hut⟩ := Option.map_eq_some_iff.mp h
      obtain rfl : u = t := Option.some.inj hut
      refine ⟨(Heap.free_brk hu).trans (s.grow_brk _), fun hpos => ?_⟩
      cases grant with
      | false => exact absurd ⟨rfl, hpos⟩ hgrant
      | true => rfl
    · cases h

/-- One round of the loop of `malloc` leaves the break alone, unless it goes on after
`morecore`. -/
theorem Heap.search_brk {rounds : ℕ}
    (h : Heap.search grant nu (rounds + 1) s p = some (t, r)) :
    t.brk = s.brk ∨ ∃ u, s.morecore grant nu = some (some u) ∧
      Heap.search grant nu rounds u u.freep = some (t, r) := by
  rw [Heap.search] at h
  split at h
  · cases h
  · next q _ =>
    split at h
    · obtain ⟨rfl, -⟩ := Prod.mk.inj (Option.some.inj h)
      exact Or.inl (s.carve_brk nu q)
    · split at h
      · cases h
      · obtain ⟨rfl, -⟩ := Prod.mk.inj (Option.some.inj h)
        exact Or.inl rfl
      · next u hmore => exact Or.inr ⟨u, hmore, h⟩

/-- The break of a heap that serves a request that is not too large stays below the end
of user memory, as `allocuvm` sees to. -/
theorem Heap.search_brk_lt (hsmall : nu < 268435456) (hbrk : s.brk < 268435456)
    (hgrant : grant = true → 8 * (s.brk + Heap.coreUnits nu) < 2147483648)
    (h : Heap.search grant nu 2 s p = some (t, r)) : t.brk < 268435456 := by
  obtain ⟨-, -, hcore⟩ := coreUnits_bounds hsmall
  rcases Heap.search_brk h with hsame | ⟨u, hmore, hrest⟩
  · rwa [hsame]
  · obtain ⟨hu, htrue⟩ := Heap.morecore_brk hmore
    have hlimit := hgrant (htrue (int32_coreUnits_pos hsmall))
    rw [moved_units s.brk hcore] at hu
    rcases Heap.search_brk hrest with hsame | ⟨v, -, hend⟩
    · omega
    · cases hend

/-! ## Products that are not positive -/

theorem int32_of_high {x : ℤ} (hlow : 2147483648 ≤ x) (hhigh : x < 6442450944) :
    int32 x = x - 4294967296 := by
  have hshift : int32 x = int32 (x - 4294967296) := (Int.sub_bmod_right x 4294967296).symm
  rw [hshift, int32_of_bounds (by omega) (by omega)]

/-- `sbrk(-u)` leaves the old break on a page that is not mapped: the break is the start of a
page, or it moves to another page. -/
def Faults (brk u : ℕ) : Prop :=
  8 * brk % 4096 = 0 ∨ (8 * brk % 4096 ≤ u ∧ u ≤ 8 * brk)

theorem moved_of_large (hbrk : s.brk < 268435456) (hlow : 268435456 ≤ nu)
    (hhigh : nu ≤ 536870912) :
    (s.grow nu).brk ≤ s.brk ∧
      ((s.grow nu).Mapped s.brk ↔ ¬Faults s.brk (4294967296 - 8 * nu)) := by
  have hint : int32 (nu * 8) = nu * 8 - 4294967296 := int32_of_high (by omega) (by omega)
  rw [Heap.Mapped, Faults, s.grow_brk, hint, Heap.moved]
  split
  · next hneg =>
    split
    · next hwrap =>
      rw [uint32] at hwrap
      omega
    · next hdown =>
      rw [uint32] at hdown ⊢
      omega
  · omega

theorem Heap.joinUpper_with (s : Heap) (b bp nx : ℕ) :
    Heap.joinUpper { s with brk := b } bp nx = { s.joinUpper bp nx with brk := b } := by
  by_cases hjoin : bp + s.size bp = nx
  · rw [Heap.joinUpper, Heap.joinUpper, if_pos hjoin, if_pos hjoin]
    rfl
  · rw [Heap.joinUpper, Heap.joinUpper, if_neg hjoin, if_neg hjoin]
    rfl

theorem Heap.joinLower_with (s : Heap) (b bp p : ℕ) :
    Heap.joinLower { s with brk := b } bp p = { s.joinLower bp p with brk := b } := by
  by_cases hjoin : p + s.size p = bp
  · rw [Heap.joinLower, Heap.joinLower, if_pos hjoin, if_pos hjoin]
    rfl
  · rw [Heap.joinLower, Heap.joinLower, if_neg hjoin, if_neg hjoin]
    rfl

/-- `free` on a heap whose break is not at the end of the row. -/
theorem Arena.free_of_brk (h : Arena base start s (pre ++ seg :: post))
    (hused : seg.used = some n) (hbp : bp = start + total pre) (hlow : s.brk < 1073741824 + b)
    (hhigh : b ≤ s.brk) :
    Heap.free { s with brk := b } bp = (s.free bp).map fun t => { t with brk := b } := by
  obtain ⟨_, p, -, -, hwalk⟩ := h.walk_around hlow hused hbp
  have hwalk' : Cycle.walk s.ptr (s.Around bp) s.bound s.freep = some p := by
    refine Cycle.walk_mono hwalk ?_
    rw [Heap.bound]
    omega
  have hleft : Heap.free { s with brk := b } bp =
      some { (Heap.joinUpper { s with brk := b } bp (s.ptr p)).joinLower bp p with
        freep := p } := by
    have hwalk₁ : Cycle.walk (Heap.ptr { s with brk := b }) (Heap.Around { s with brk := b } bp)
        (Heap.bound { s with brk := b }) s.freep = some p := hwalk
    rw [Heap.free, hwalk₁]
  have hjoin : (Heap.joinUpper { s with brk := b } bp (s.ptr p)).joinLower bp p =
      { (s.joinUpper bp (s.ptr p)).joinLower bp p with brk := b } := by
    rw [Heap.joinUpper_with, Heap.joinLower_with]
  rw [hleft, Heap.free, hwalk']
  exact congrArg (fun t : Heap => some { t with freep := p }) hjoin

/-- A request of 2 to the 28 units is for more than all memory.  `sbrk` does not refuse it, and
unless the process is killed for storing the header, a block of that size is handed out. -/
theorem Arena.search_large (h : Arena base start s segs) (hbrk : s.brk < 268435456)
    (hlow : 268435456 ≤ nu) (hhigh : nu ≤ 536870912) (grant : Bool) :
    (Faults s.brk (4294967296 - 8 * nu) → Heap.search grant nu 2 s s.freep = none) ∧
      (¬Faults s.brk (4294967296 - 8 * nu) →
        ∃ t bp, Heap.search grant nu 2 s s.freep = some (t, some bp) ∧ t.brk < t.size bp) := by
  obtain ⟨hdown, hmapped⟩ := moved_of_large (s := s) hbrk hlow hhigh
  have hcore : Heap.coreUnits nu = nu := by
    unfold Heap.coreUnits
    exact if_neg (by omega)
  have hrefuse : ¬(grant = false ∧ 0 < int32 (Heap.coreUnits nu * 8)) := by
    rw [hcore, int32_of_high (by omega) (by omega)]
    omega
  have hnone : ¬∃ x ∈ frees start segs, nu ≤ s.size x := by
    rintro ⟨x, hx, hfit⟩
    obtain ⟨pre, seg, post, rfl, -, rfl⟩ := exists_of_mem_frees hx
    have hsize := h.header.1
    have hend := h.brk
    rw [total_append, total_cons] at hend
    omega
  rw [h.search_more (by omega) hnone, Heap.morecore, if_neg hrefuse, hcore]
  constructor
  · intro hfaults
    rw [if_neg (fun hm => hmapped.mp hm hfaults)]
  · intro hfaults
    rw [if_pos (hmapped.mpr hfaults)]
    -- the row as if the break had moved up with the block
    have hrow := h.extend (k := nu) (by omega)
    obtain ⟨t, segs', hfree, harena, -, x, hx, hroom⟩ := hrow.free rfl h.brk
    obtain ⟨b, hb, hgrow⟩ : ∃ b, (s.grow nu).brk = b ∧ s.grow nu =
        { ({ s.setSize s.brk nu with brk := s.brk + nu } : Heap) with brk := b } :=
      ⟨_, s.grow_brk nu, by rw [Heap.grow]⟩
    rw [hb] at hdown
    have hfree' : (s.grow nu).free s.brk = some { t with brk := b } := by
      rw [hgrow, hrow.free_of_brk rfl h.brk ?_ ?_, hfree]
      · rfl
      · change s.brk + nu < 1073741824 + b
        omega
      · change b ≤ s.brk + nu
        omega
    have hsize : t.brk = s.brk + nu := Heap.free_brk hfree
    obtain ⟨q, -, hwalk, hfound⟩ :=
      harena.walk_last (k := 1073741824 + b) (by rw [hsize]; omega) nu
    have hfit := hfound ⟨x, hx, hroom⟩
    let u : Heap := { t with brk := b }
    refine ⟨(u.carve nu q).1, (u.carve nu q).2, ?_, ?_⟩
    · have hmore : ((s.grow nu).free s.brk).map some = some (some u) := by
        rw [hfree']
        rfl
      have hwalk' : Cycle.walk u.ptr (u.Last nu) u.bound u.freep = some q := hwalk
      rw [hmore]
      change Heap.search grant nu 1 u u.freep = _
      rw [Heap.search, hwalk']
      exact if_pos hfit
    · rw [Heap.carve_brk, Heap.size_carve]
      change b < nu
      omega

/-! ## What a request gets -/

/-- The block at `bp` has `nbytes` bytes for the program, and is memory from `sbrk`. -/
structure Sufficient (start nbytes : ℕ) (s : Heap) (bp : ℕ) : Prop where
  room : nbytes ≤ 8 * (s.size bp - 1)
  above : start ≤ bp
  below : bp + s.size bp ≤ s.brk

theorem Row.sufficient (h : Row base start s) (hbp : (bp, n) ∈ s.live) :
    Sufficient start n s bp := by
  obtain ⟨segs, harena, hperm⟩ := h
  obtain ⟨pre, seg, post, rfl, hused, haddr, hsize⟩ := harena.block hperm hbp
  have hbrk := harena.brk
  rw [total_append, total_cons] at hbrk
  constructor
  · rw [hsize]
    exact harena.tidy.fits seg (by simp) n hused
  · omega
  · omega

/-- A request that `malloc` grants gets a block of sufficient size, and none of the
computations on the way wraps. -/
def Right (base start : ℕ) (s : Heap) (nbytes : ℕ) (grant : Bool) : Prop :=
  ∀ t bp, s.malloc base nbytes grant = some (t, some bp) →
    Sufficient start nbytes t bp ∧ nbytes + 8 - 1 < 4294967296 ∧
      ((s.ready base).Offers base (Heap.nunits nbytes) ∨
        Heap.coreUnits (Heap.nunits nbytes) * 8 < 2147483648)

/-- When a request is served as it should be: it is not too large; or its size in bytes is
not positive as an `int`, and the process does not survive that `sbrk`; or the rounding wraps,
and there is not even memory for a header. -/
def Served (base : ℕ) (s : Heap) (nbytes : ℕ) (grant : Bool) : Prop :=
  nbytes ≤ 2147483632 ∨
    (2147483632 < nbytes ∧ nbytes ≤ 4294967288 ∧
      Faults s.brk (4294967288 - (nbytes + 7) / 8 * 8)) ∨
    (4294967288 < nbytes ∧ ¬(s.ready base).Offers base 1 ∧ grant = false)

theorem Heap.ready_brk (base : ℕ) (s : Heap) : (s.ready base).brk = s.brk := by
  unfold Heap.ready
  split <;> rfl

theorem Heap.ready_live (base : ℕ) (s : Heap) : (s.ready base).live = s.live := by
  unfold Heap.ready
  split <;> rfl

theorem nunits_of_middle (hlow : 2147483632 < n) (hhigh : n ≤ 4294967288) :
    268435456 ≤ Heap.nunits n ∧ Heap.nunits n ≤ 536870912 ∧
      4294967296 - 8 * Heap.nunits n = 4294967288 - (n + 7) / 8 * 8 := by
  unfold Heap.nunits
  rw [wrap32_of_lt (by omega)]
  omega

theorem nunits_of_wrap (hlow : 4294967288 < n) (hhigh : n < 4294967296) :
    Heap.nunits n = 1 := by
  unfold Heap.nunits wrap32
  omega

/-- A heap in order, before or after its first call, below the end of user memory. -/
structure Sized (base start : ℕ) (s : Heap) : Prop where
  nonnull : 0 < base
  below : base < start
  row : Fresh start s ∨ Row base start s
  brk : s.brk < 268435456

theorem Sized.ready (h : Sized base start s) :
    ∃ segs, Arena base start (s.ready base) segs ∧ s.live.Perm (lives start segs) :=
  exists_ready h.nonnull h.below h.row

/-- A request that is not too large is served as it should be. -/
theorem Sized.right_of_le (h : Sized base start s) (hn : n ≤ 2147483632) (grant : Bool) :
    Right base start s n grant := by
  obtain ⟨segs, harena, hperm⟩ := h.ready
  obtain ⟨hpos, hsmall, -⟩ := nunits_of_le hn
  obtain ⟨-, -, hcore⟩ := coreUnits_bounds hsmall
  intro t bp hmalloc
  obtain ⟨u, hstep, hrow⟩ := malloc_row hn grant harena hperm
  rw [Heap.step, hmalloc] at hstep
  obtain rfl : { t with live := (bp, n) :: t.live } = u := Option.some.inj hstep
  have hsufficient := hrow.sufficient List.mem_cons_self
  refine ⟨⟨hsufficient.room, hsufficient.above, hsufficient.below⟩, by omega, Or.inr ?_⟩
  omega

/-- In the middle range no block is large enough, and what is handed out is more than all
memory. -/
theorem Sized.middle (h : Sized base start s) (hlow : 2147483632 < n) (hhigh : n ≤ 4294967288)
    (grant : Bool) :
    (Faults s.brk (4294967288 - (n + 7) / 8 * 8) → s.malloc base n grant = none) ∧
      (¬Faults s.brk (4294967288 - (n + 7) / 8 * 8) →
        ∃ t bp, s.malloc base n grant = some (t, some bp) ∧ t.brk < t.size bp) := by
  obtain ⟨segs, harena, -⟩ := h.ready
  obtain ⟨hnulow, hnuhigh, hdown⟩ := nunits_of_middle hlow hhigh
  have hbrk : (s.ready base).brk < 268435456 := by
    rw [s.ready_brk]
    exact h.brk
  have hsearch := harena.search_large hbrk hnulow hnuhigh grant
  rw [hdown, s.ready_brk] at hsearch
  exact hsearch

/-- At the end of the range a block of one unit is handed out, if there is any. -/
theorem Sized.wrap (h : Sized base start s) (hlow : 4294967288 < n) (hhigh : n < 4294967296)
    (grant : Bool) :
    (¬(s.ready base).Offers base 1 ∧ grant = false →
        s.malloc base n grant = some (s.ready base, none)) ∧
      (¬(¬(s.ready base).Offers base 1 ∧ grant = false) →
        ∃ t bp, s.malloc base n grant = some (t, some bp) ∧ t.size bp = 1) := by
  obtain ⟨segs, harena, -⟩ := h.ready
  rw [Heap.malloc, nunits_of_wrap hlow hhigh, harena.offers_iff Nat.one_pos]
  constructor
  · rintro ⟨hnone, rfl⟩
    rw [harena.search_more Nat.one_pos hnone, Heap.morecore,
      if_pos ⟨rfl, int32_coreUnits_pos (by decide)⟩]
  · intro hany
    by_cases hroom : ∃ x ∈ frees start segs, 1 ≤ (s.ready base).size x
    · obtain ⟨q, -, -, hsearch⟩ := harena.search_found hroom grant 1
      exact ⟨_, _, hsearch, Heap.size_carve _ 1 q⟩
    · have htrue : grant = true := by
        cases grant with
        | false => exact absurd ⟨hroom, rfl⟩ hany
        | true => rfl
      subst htrue
      obtain ⟨t, segs₁, hmore, harena', -, -, hroom'⟩ := harena.morecore (by decide : 1 < 268435456)
      rw [harena.search_more Nat.one_pos hroom, hmore]
      obtain ⟨q, -, -, hsearch⟩ := harena'.search_found hroom' true 0
      exact ⟨_, _, hsearch, Heap.size_carve _ 1 q⟩

theorem Sized.right_iff (h : Sized base start s) (hn : n < 4294967296) (grant : Bool) :
    Right base start s n grant ↔ Served base s n grant := by
  by_cases hsmall : n ≤ 2147483632
  · exact iff_of_true (h.right_of_le hsmall grant) (Or.inl hsmall)
  by_cases hmiddle : n ≤ 4294967288
  · obtain ⟨hfaults, hreturns⟩ := h.middle (by omega) hmiddle grant
    constructor
    · intro hright
      refine Or.inr (Or.inl ⟨by omega, hmiddle, ?_⟩)
      by_contra hno
      obtain ⟨t, bp, hmalloc, hsize⟩ := hreturns hno
      have hbelow := (hright t bp hmalloc).1.below
      omega
    · intro hserved t bp hmalloc
      rcases hserved with hle | ⟨-, -, hf⟩ | ⟨hgt, -⟩
      · exact absurd hle hsmall
      · rw [hfaults hf] at hmalloc
        cases hmalloc
      · exact absurd hmiddle (not_le.mpr hgt)
  · obtain ⟨hfails, hreturns⟩ := h.wrap (by omega) hn grant
    constructor
    · intro hright
      refine Or.inr (Or.inr ⟨by omega, ?_⟩)
      by_contra hany
      obtain ⟨t, bp, hmalloc, hsize⟩ := hreturns hany
      have hwrap := (hright t bp hmalloc).2.1
      omega
    · intro hserved t bp hmalloc
      rcases hserved with hle | ⟨-, hle, -⟩ | ⟨-, hnone⟩
      · exact absurd hle hsmall
      · exact absurd hle hmiddle
      · rw [hfails hnone] at hmalloc
        cases hmalloc

/-! ## Runs -/

/-- What the program may do, and when `sbrk` can grant memory: free what it has, store to
what it has, and ask for anything that is served as it should be. -/
def Op.Fitting (base : ℕ) (s : Heap) : Op → Prop
  | .malloc n grant =>
      n < 4294967296 ∧ Served base s n grant ∧
        (grant = true → 8 * (s.brk + Heap.coreUnits (Heap.nunits n)) < 2147483648)
  | op => op.Allowed s

/-- The steps of a program whose requests are served. -/
def ServedStep (base : ℕ) (s : Heap) (op : Op) (t : Heap) : Prop :=
  op.Fitting base s ∧ s.step base op = some t

theorem Sized.malloc (h : Sized base start s) (hn : n < 4294967296)
    (hserved : Served base s n grant)
    (hgrant : grant = true → 8 * (s.brk + Heap.coreUnits (Heap.nunits n)) < 2147483648)
    (hstep : s.step base (.malloc n grant) = some t) : Sized base start t := by
  obtain ⟨segs, harena, hperm⟩ := h.ready
  rcases hserved with hle | ⟨hlow, hle, hfaults⟩ | ⟨hlow, hnone⟩
  · obtain ⟨-, hsmall, -⟩ := nunits_of_le hle
    obtain ⟨u, hstep', hrow⟩ := malloc_row hle grant harena hperm
    obtain rfl : u = t := Option.some.inj (hstep'.symm.trans hstep)
    refine ⟨h.nonnull, h.below, Or.inr hrow, ?_⟩
    have hbrk : ∀ v r, s.malloc base n grant = some (v, r) → v.brk < 268435456 := by
      intro v r hmalloc
      refine Heap.search_brk_lt (s := s.ready base) hsmall ?_ ?_ hmalloc
      · rw [s.ready_brk]
        exact h.brk
      · rw [s.ready_brk]
        exact hgrant
    cases hmalloc : s.malloc base n grant with
    | none =>
        rw [Heap.step, hmalloc] at hstep
        cases hstep
    | some result =>
        obtain ⟨v, r⟩ := result
        have hv := hbrk v r hmalloc
        rw [Heap.step, hmalloc] at hstep
        cases r with
        | none =>
            obtain rfl : v = u := Option.some.inj hstep
            exact hv
        | some bp =>
            obtain rfl : { v with live := (bp, n) :: v.live } = u := Option.some.inj hstep
            exact hv
  · rw [Heap.step, (h.middle hlow hle grant).1 hfaults] at hstep
    cases hstep
  · rw [Heap.step, (h.wrap hlow hn grant).1 hnone] at hstep
    obtain rfl : s.ready base = t := Option.some.inj hstep
    refine ⟨h.nonnull, h.below, Or.inr ⟨segs, harena, ?_⟩, ?_⟩
    · rw [s.ready_live]
      exact hperm
    · rw [s.ready_brk]
      exact h.brk

theorem Sized.step {op : Op} (h : Sized base start s) (hop : op.Fitting base s)
    (hstep : s.step base op = some t) : Sized base start t := by
  cases op with
  | malloc n grant =>
      obtain ⟨hn, hserved, hgrant⟩ := hop
      exact h.malloc hn hserved hgrant hstep
  | free bp =>
      obtain ⟨n, hbp⟩ := hop
      obtain ⟨u, hfree, hrow⟩ := free_row (row_of_mem_live h.row hbp) hbp
      obtain rfl : u = t := Option.some.inj (hfree.symm.trans hstep)
      obtain ⟨v, hv, rfl⟩ := Option.map_eq_some_iff.mp hstep
      refine ⟨h.nonnull, h.below, Or.inr hrow, ?_⟩
      have hbrk : v.brk = s.brk := Heap.free_brk hv
      exact lt_of_eq_of_lt hbrk h.brk
  | store a w =>
      obtain ⟨bp, n, hbp, hlow, hhigh⟩ := hop
      obtain rfl : { s with mem := Function.update s.mem a w } = t := Option.some.inj hstep
      have hrow := store_row (row_of_mem_live h.row hbp) hbp w hlow hhigh
      exact ⟨h.nonnull, h.below, Or.inr hrow, h.brk⟩

/-- In a state that a program has reached with requests that were served, `malloc` treats a
request as it should exactly if it is `Served`. -/
theorem malloc_right_iff {ops : List Op} (hnonnull : 0 < base) (hbelow : base < start)
    (hstart : start < 268435456) (hfresh : Fresh start s)
    (hrun : Run (ServedStep base) (fun _ => True) s ops t) (hn : n < 4294967296)
    (grant : Bool) :
    Right base start t n grant ↔ Served base t n grant := by
  have hsized : Sized base start t := by
    refine hrun.invariant (I := Sized base start) ?_ ?_
    · rintro x op y - - hx ⟨hop, hstep⟩
      exact hx.step hop hstep
    · refine ⟨hnonnull, hbelow, Or.inl hfresh, ?_⟩
      rw [hfresh.brk]
      exact hstart
  exact hsized.right_iff hn grant

/-- The heap of a program of three pages. -/
def smallHeap : Heap :=
  { mem := fun _ => ⟨0, 0⟩, freep := 0, brk := 1536, live := [] }

/-- The heap of that program after the operations that return. -/
def heapAfter (ops : List Op) : Heap :=
  ops.foldl (fun s op => (s.step 1 op).getD s) smallHeap

theorem served_heapAfter (ops : List Op) {op : Op} (hop : op.Fitting 1 (heapAfter ops))
    (hreturns : ((heapAfter ops).step 1 op).isSome = true) :
    ServedStep 1 (heapAfter ops) op (heapAfter (ops ++ [op])) := by
  obtain ⟨t, hstep⟩ := Option.isSome_iff_exists.mp hreturns
  have happ : heapAfter (ops ++ [op]) = ((heapAfter ops).step 1 op).getD (heapAfter ops) := by
    simp only [heapAfter, List.foldl_append, List.foldl_cons, List.foldl_nil]
  refine ⟨hop, ?_⟩
  rw [happ, hstep, Option.getD_some]

/-- A request gets the block that another one has freed; a request for all but one byte of a
32-bit address space is not served as it should be. -/
theorem malloc_right_iff_freed :
    ∃ t u, Run (ServedStep 1) (fun _ => True) smallHeap
        [.malloc 100 true, .malloc 200 false, .free 5618] t ∧
      (t.malloc 1 100 false = some (u, some 5618) ∧ Sufficient 1536 100 u 5618) ∧
      ¬Right 1 1536 t 4294967295 true := by
  have hrun : Run (ServedStep 1) (fun _ => True) smallHeap
      [.malloc 100 true, .malloc 200 false, .free 5618]
      (heapAfter [.malloc 100 true, .malloc 200 false, .free 5618]) := by
    refine .snoc (.snoc (.single trivial (served_heapAfter [] ?_ ?_) trivial)
      (served_heapAfter [.malloc 100 true] ?_ ?_) trivial)
      (served_heapAfter [.malloc 100 true, .malloc 200 false] ?_ ?_) trivial
    · exact ⟨by decide, Or.inl (by decide), fun _ => by decide⟩
    · decide +kernel
    · exact ⟨by decide, Or.inl (by decide), fun h => absurd h (by decide)⟩
    · decide +kernel
    · exact ⟨100, by decide +kernel⟩
    · decide +kernel
  have hfits : ((heapAfter [.malloc 100 true, .malloc 200 false, .free 5618]).malloc 1 100
      false).map Prod.snd = some (some 5618) := by
    decide +kernel
  obtain ⟨⟨u, _⟩, hmalloc, rfl⟩ := Option.map_eq_some_iff.mp hfits
  have hfresh : Fresh 1536 smallHeap := ⟨rfl, rfl, rfl⟩
  refine ⟨_, u, hrun, ⟨hmalloc, ?_⟩, ?_⟩
  · have hright := (malloc_right_iff (n := 100) (by decide) (by decide) (by decide) hfresh hrun
      (by decide) false).mpr (Or.inl (by decide))
    exact (hright u 5618 hmalloc).1
  · rw [malloc_right_iff (by decide) (by decide) (by decide) hfresh hrun (by decide) true]
    rintro (hle | ⟨-, hle, -⟩ | ⟨-, -, hgrant⟩)
    · exact absurd hle (by decide)
    · exact absurd hle (by decide)
    · exact absurd hgrant (by decide)

/-- A request for all but one byte of a 32-bit address space gets a header. -/
theorem malloc_too_small :
    ¬∀ (base start : ℕ) (s t : Heap) (ops : List Op) (n : ℕ) (grant : Bool), 0 < base →
      base < start → start < 268435456 → Fresh start s →
      Run (ServedStep base) (fun _ => True) s ops t → n < 4294967296 →
      Right base start t n grant := by
  intro hclaim
  have hright := hclaim 1 1536 smallHeap smallHeap [] 4294967295 true (by decide) (by decide)
    (by decide) ⟨rfl, rfl, rfl⟩ (.nil trivial) (by decide)
  have hsize : ((smallHeap.malloc 1 4294967295 true).any fun r =>
      r.2.any fun bp => decide (r.1.size bp = 1)) = true := by
    decide +kernel
  cases hmalloc : smallHeap.malloc 1 4294967295 true with
  | none => simp [hmalloc] at hsize
  | some result =>
      obtain ⟨t, r⟩ := result
      cases r with
      | none => simp [hmalloc] at hsize
      | some bp =>
          have hone : t.size bp = 1 := by simpa [hmalloc] using hsize
          have hroom := (hright t bp hmalloc).1.room
          omega

end Umalloc

end Xv6
