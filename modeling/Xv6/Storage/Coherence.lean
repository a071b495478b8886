import Mathlib.Data.List.Perm.Subperm
import Xv6.Storage.Buffer

/-!
# Coherence of the buffer cache

The specifications of `bread`, `bwrite` and `brelse`.  A coherent cache holds
each sector at most once, and a buffer that is not dirty agrees with the disk.
Callers see the cache only through `Store.view` and through which sectors are
busy and dirty; which buffer was recycled is invisible to them.
-/

namespace Xv6

open Support

namespace Store

/-- Some buffer caching sector `s` is locked. -/
def IsBusy (st : Store) (s : ℕ) : Prop :=
  ∃ b, st.lookup s = some b ∧ b.busy = true

/-- Some buffer caching sector `s` has data the disk may not have. -/
def IsDirty (st : Store) (s : ℕ) : Prop :=
  ∃ b, st.lookup s = some b ∧ b.dirty = true

/-- The cache invariant between calls of the buffer functions. -/
structure Coherent (st : Store) : Prop where
  nodup : (st.bufs.filterMap Buf.sector).Nodup
  valid : ∀ s b, st.lookup s = some b → b.valid = true
  clean : ∀ s b, st.lookup s = some b → b.dirty = false → b.data = st.disk s
  unused : ∀ b ∈ st.bufs, b.sector = none → b.busy = false ∧ b.dirty = false
  length : st.bufs.length = nbuf

/-! ## How the operations change lookups -/

theorem lookup_sector {st : Store} {s : ℕ} {b : Buf} (h : st.lookup s = some b) :
    b ∈ st.bufs ∧ b.sector = some s := by
  refine ⟨List.mem_of_find?_eq_some h, ?_⟩
  simpa using List.find?_some h

theorem lookup_write (st : Store) (s x : ℕ) (d : Block) :
    (st.write s d).lookup x = st.lookup x := rfl

/-- Changing the buffer of sector `s` changes the lookup of `s` alone. -/
theorem lookup_update (st : Store) (s : ℕ) {f : Buf → Buf}
    (hf : ∀ b, (f b).sector = b.sector) (x : ℕ) :
    (st.update s f).lookup x =
      if x = s then (st.lookup x).map f else st.lookup x := by
  have hsec : ∀ b : Buf,
      (if b.sector = some s then f b else b).sector = b.sector := by
    intro b
    split
    · exact hf b
    · rfl
  unfold lookup update
  rw [List.find?_map]
  have hcomp : ((fun b : Buf => decide (b.sector = some x)) ∘
      fun b => if b.sector = some s then f b else b) =
      fun b : Buf => decide (b.sector = some x) := by
    funext b
    simp only [Function.comp_apply, hsec]
  rw [hcomp]
  cases h : st.bufs.find? fun b => decide (b.sector = some x) with
  | none => simp
  | some b =>
      have hb : b.sector = some x := by simpa using List.find?_some h
      by_cases hxs : x = s
      · simp [hb, hxs]
      · simp [hb, hxs]

theorem sectors_update (st : Store) (s : ℕ) {f : Buf → Buf}
    (hf : ∀ b, (f b).sector = b.sector) :
    (st.update s f).bufs.filterMap Buf.sector = st.bufs.filterMap Buf.sector := by
  unfold update
  rw [List.filterMap_map]
  congr 1
  funext b
  simp only [Function.comp_apply]
  split
  · exact hf b
  · rfl

/-- Moving the buffer of sector `s` to the front changes no other lookup. -/
theorem lookup_toFront (st : Store) {s : ℕ} {b : Buf} (hb : b.sector = some s)
    (x : ℕ) :
    { st with bufs := b :: st.bufs.filter fun b' => b'.sector ≠ some s }.lookup x =
      if x = s then some b else st.lookup x := by
  unfold lookup
  by_cases hxs : x = s
  · subst hxs
    simp [hb]
  · have hne : ¬ (b.sector = some x) := by
      rw [hb]
      simpa using fun h => hxs h.symm
    rw [List.find?_cons_of_neg (by simpa using hne), List.find?_filter, if_neg hxs]
    congr 1
    funext b'
    by_cases hx : b'.sector = some x
    · simp [hx, hxs]
    · simp [hx]

end Store

/-- The recycled buffer was neither busy nor dirty; the others stay. -/
theorem recycle_eq_some {s : ℕ} {bufs bufs' : List Buf}
    (h : recycle s bufs = some bufs') :
    ∃ l b r, bufs = l ++ b :: r ∧ b.busy = false ∧ b.dirty = false ∧
      bufs' = l ++ ⟨some s, true, false, false, b.data⟩ :: r := by
  induction bufs generalizing bufs' with
  | nil => simp [recycle] at h
  | cons b bs ih =>
      rw [recycle] at h
      cases hr : recycle s bs with
      | some bs' =>
          rw [hr] at h
          obtain ⟨l, b₁, r, rfl, hbusy, hdirty, hbs'⟩ := ih hr
          refine ⟨b :: l, b₁, r, rfl, hbusy, hdirty, ?_⟩
          rw [← Option.some.inj h, hbs']
          rfl
      | none =>
          rw [hr] at h
          by_cases hfree : (!b.busy && !b.dirty) = true
          · simp only [hfree, if_true, Option.some.injEq] at h
            simp only [Bool.and_eq_true, Bool.not_eq_true'] at hfree
            exact ⟨[], b, bs, rfl, hfree.1, hfree.2, h.symm⟩
          · simp [hfree] at h

/-- Nothing can be recycled only when every buffer is busy or dirty. -/
theorem recycle_eq_none {s : ℕ} {bufs : List Buf} (h : recycle s bufs = none) :
    ∀ b ∈ bufs, b.busy = true ∨ b.dirty = true := by
  induction bufs with
  | nil => simp
  | cons b bs ih =>
      rw [recycle] at h
      cases hr : recycle s bs with
      | some bs' =>
          rw [hr] at h
          cases h
      | none =>
          rw [hr] at h
          intro b' hb'
          rcases List.mem_cons.mp hb' with rfl | hmem
          · by_contra hfree
            simp only [not_or, Bool.not_eq_true] at hfree
            simp [hfree.1, hfree.2] at h
          · exact ih hr b' hmem

namespace Store

/-- Recycling a buffer for a sector that is not cached: the other lookups stay,
except that a clean idle buffer may be gone. -/
theorem lookup_recycle {st : Store} (hst : st.Coherent) {s : ℕ} {bufs : List Buf}
    (hs : st.lookup s = none) (h : recycle s st.bufs = some bufs) (x : ℕ) :
    (x = s ∧ ∃ d, { st with bufs := bufs }.lookup x = some ⟨some s, true, false, false, d⟩) ∨
    (x ≠ s ∧ { st with bufs := bufs }.lookup x = st.lookup x) ∨
    (x ≠ s ∧ { st with bufs := bufs }.lookup x = none ∧
      ∃ b, st.lookup x = some b ∧ b.busy = false ∧ b.dirty = false) := by
  obtain ⟨l, b, r, hbufs, hbusy, hdirty, rfl⟩ := recycle_eq_some h
  have hnodup := hst.nodup
  unfold lookup at hs ⊢
  rw [hbufs] at hs hnodup ⊢
  simp only
  rw [List.find?_append] at hs ⊢
  by_cases hxs : x = s
  · subst hxs
    left
    have hnone : l.find? (fun b => decide (b.sector = some x)) = none := by
      cases hfind : l.find? fun b => decide (b.sector = some x) with
      | none => rfl
      | some b' => simp [hfind] at hs
    exact ⟨rfl, b.data, by simp [hnone]⟩
  · right
    cases hfind : l.find? fun b => decide (b.sector = some x) with
    | some b' => exact Or.inl ⟨hxs, by simp [List.find?_append, hfind]⟩
    | none =>
        by_cases hbx : b.sector = some x
        · right
          have hr : r.find? (fun b => decide (b.sector = some x)) = none := by
            rw [List.find?_eq_none]
            intro b' hb'r hb'
            rw [List.filterMap_append, List.nodup_append,
              List.filterMap_cons_some hbx, List.nodup_cons] at hnodup
            exact hnodup.2.1.1 (List.mem_filterMap.mpr ⟨b', hb'r, by simpa using hb'⟩)
          refine ⟨hxs, ?_, b, ?_, hbusy, hdirty⟩
          · simp [hr, Ne.symm hxs]
          · simp [List.find?_append, hfind, hbx]
        · left
          exact ⟨hxs, by simp [List.find?_append, hfind, hbx, Ne.symm hxs]⟩

/-- The buffer of a sector is the only entry for it. -/
theorem split_of_lookup {st : Store} (hst : st.Coherent) {s : ℕ} {b : Buf}
    (h : st.lookup s = some b) :
    ∃ l r, st.bufs = l ++ b :: r ∧
      (st.bufs.filter fun b' => b'.sector ≠ some s) = l ++ r := by
  obtain ⟨hb, l, r, hbufs, hl⟩ := List.find?_eq_some_iff_append.mp h
  have hsec : b.sector = some s := by simpa using hb
  refine ⟨l, r, hbufs, ?_⟩
  have hr : ∀ b' ∈ r, b'.sector ≠ some s := by
    intro b' hb'r hb'
    have hnodup := hst.nodup
    rw [hbufs, List.filterMap_append, List.nodup_append,
      List.filterMap_cons_some hsec, List.nodup_cons] at hnodup
    exact hnodup.2.1.1 (List.mem_filterMap.mpr ⟨b', hb'r, hb'⟩)
  have hl' : ∀ b' ∈ l, b'.sector ≠ some s := by
    intro b' hb'l
    simpa using hl b' hb'l
  rw [hbufs, List.filter_append, List.filter_cons_of_neg (by simp [hsec]),
    List.filter_eq_self.mpr (by simpa using hl'),
    List.filter_eq_self.mpr (by simpa using hr)]

theorem lookup_of_mem {st : Store} (hst : st.Coherent) {s : ℕ} {b : Buf}
    (hb : b ∈ st.bufs) (hs : b.sector = some s) : st.lookup s = some b := by
  cases hl : st.lookup s with
  | none =>
      have := List.find?_eq_none.mp hl b hb
      simp [hs] at this
  | some b' =>
      obtain ⟨l, r, hbufs, hfilter⟩ := split_of_lookup hst hl
      have hnot : b ∉ l ++ r := by
        rw [← hfilter]
        simp [hs]
      rw [hbufs] at hb
      simp only [List.mem_append, List.mem_cons] at hb hnot
      have hbb' : b = b' := by tauto
      rw [hbb']

/-- While fewer than `NBUF` sectors are busy or dirty, some buffer is idle. -/
theorem exists_idle {st : Store} (hst : st.Coherent) (pinned : List ℕ)
    (hpin : ∀ s, st.IsBusy s ∨ st.IsDirty s → s ∈ pinned)
    (hlen : pinned.length < nbuf) :
    ¬ ∀ b ∈ st.bufs, b.busy = true ∨ b.dirty = true := by
  intro hall
  have hsome : ∀ b ∈ st.bufs, ∃ s, b.sector = some s ∧ s ∈ pinned := by
    intro b hb
    cases hs : b.sector with
    | none =>
        obtain ⟨hbusy, hdirty⟩ := hst.unused b hb hs
        rcases hall b hb with h | h
        · rw [hbusy] at h
          cases h
        · rw [hdirty] at h
          cases h
    | some s =>
        have hl := lookup_of_mem hst hb hs
        refine ⟨s, rfl, hpin s ?_⟩
        exact (hall b hb).imp (fun h => ⟨b, hl, h⟩) (fun h => ⟨b, hl, h⟩)
  have hsub : st.bufs.filterMap Buf.sector ⊆ pinned := by
    intro s hs
    obtain ⟨b, hb, hbs⟩ := List.mem_filterMap.mp hs
    obtain ⟨s', hs', hpinned⟩ := hsome b hb
    rw [hbs] at hs'
    exact Option.some.inj hs' ▸ hpinned
  have hcount : (st.bufs.filterMap Buf.sector).length = st.bufs.length := by
    rw [List.length_filterMap_eq_countP, List.countP_eq_length]
    intro b hb
    obtain ⟨s, hs, -⟩ := hsome b hb
    simp [hs]
  have hle := (hst.nodup.subperm hsub).length_le
  rw [hcount, hst.length] at hle
  omega

/-- What a buffer operation that writes nothing leaves alone. -/
structure Kept (st st' : Store) : Prop where
  base : st'.base = st.base
  writes : st'.writes = st.writes
  log : st'.log = st.log
  view : ∀ x, st'.view x = st.view x
  dirty : ∀ x, st'.IsDirty x ↔ st.IsDirty x

theorem view_of_lookup {st : Store} {s : ℕ} {b : Buf} (h : st.lookup s = some b) :
    st.view s = b.data := by
  unfold view
  rw [h]

theorem view_of_lookup_none {st : Store} {s : ℕ} (h : st.lookup s = none) :
    st.view s = st.disk s := by
  unfold view
  rw [h]

/-- Cached or not, a sector that is not dirty reads as on disk. -/
theorem view_eq_disk {st : Store} (hst : st.Coherent) {s : ℕ}
    (h : ¬ st.IsDirty s) : st.view s = st.disk s := by
  cases hl : st.lookup s with
  | none => exact view_of_lookup_none hl
  | some b =>
      rw [view_of_lookup hl]
      apply hst.clean s b hl
      cases hd : b.dirty with
      | false => rfl
      | true => exact absurd ⟨b, hl, hd⟩ h

/-! ## Changing one cached buffer -/

/-- A change of one cached buffer that keeps it valid, and in agreement with
the disk unless dirty, keeps the cache coherent. -/
theorem Coherent.update {st : Store} (hst : st.Coherent) {s : ℕ} {f : Buf → Buf}
    (hsec : ∀ b, (f b).sector = b.sector)
    (hvalid : ∀ b, st.lookup s = some b → (f b).valid = true)
    (hclean : ∀ b, st.lookup s = some b → (f b).dirty = false →
      (f b).data = st.disk s) : (st.update s f).Coherent where
  nodup := by
    rw [sectors_update st s hsec]
    exact hst.nodup
  valid := by
    intro x b h
    rw [lookup_update st s hsec] at h
    split at h
    · rename_i hxs
      subst hxs
      obtain ⟨b₀, hb₀, rfl⟩ := Option.map_eq_some_iff.mp h
      exact hvalid b₀ hb₀
    · exact hst.valid x b h
  clean := by
    intro x b h hdirty
    rw [lookup_update st s hsec] at h
    split at h
    · rename_i hxs
      subst hxs
      obtain ⟨b₀, hb₀, rfl⟩ := Option.map_eq_some_iff.mp h
      exact hclean b₀ hb₀ hdirty
    · exact hst.clean x b h hdirty
  unused := by
    intro b hb hnone
    obtain ⟨b₀, hb₀, rfl⟩ := List.mem_map.mp hb
    by_cases hs : b₀.sector = some s
    · rw [if_pos hs, hsec, hs] at hnone
      cases hnone
    · rw [if_neg hs] at hnone ⊢
      exact hst.unused b₀ hb₀ hnone
  length := by
    unfold Store.update
    rw [List.length_map]
    exact hst.length

theorem isBusy_update {st : Store} {s : ℕ} {f : Buf → Buf}
    (hsec : ∀ b, (f b).sector = b.sector) (x : ℕ) :
    (st.update s f).IsBusy x ↔
      (x = s ∧ ∃ b, st.lookup s = some b ∧ (f b).busy = true) ∨
        (x ≠ s ∧ st.IsBusy x) := by
  unfold IsBusy
  rw [lookup_update st s hsec]
  by_cases hxs : x = s
  · subst hxs
    simp [Option.map_eq_some_iff]
  · simp [hxs]

theorem isDirty_update {st : Store} {s : ℕ} {f : Buf → Buf}
    (hsec : ∀ b, (f b).sector = b.sector) (x : ℕ) :
    (st.update s f).IsDirty x ↔
      (x = s ∧ ∃ b, st.lookup s = some b ∧ (f b).dirty = true) ∨
        (x ≠ s ∧ st.IsDirty x) := by
  unfold IsDirty
  rw [lookup_update st s hsec]
  by_cases hxs : x = s
  · subst hxs
    simp [Option.map_eq_some_iff]
  · simp [hxs]

theorem view_update {st : Store} {s : ℕ} {f : Buf → Buf}
    (hsec : ∀ b, (f b).sector = b.sector) {b : Buf} (hb : st.lookup s = some b)
    (x : ℕ) : (st.update s f).view x = if x = s then (f b).data else st.view x := by
  have hdisk : (st.update s f).disk = st.disk := rfl
  unfold view
  rw [lookup_update st s hsec]
  by_cases hxs : x = s
  · subst hxs
    simp [hb]
  · simp [hxs, hdisk]

/-! ## Specifications of the buffer functions -/

/-- Locking a cached, idle buffer and finding it valid. -/
theorem bread_hit {st : Store} (hst : st.Coherent) {s : ℕ} {b : Buf}
    (hb : st.lookup s = some b) :
    let st' := (st.update s fun b => { b with busy := true }).update s fun b =>
      if b.valid then b else { b with valid := true, data := st.disk s }
    st'.Coherent ∧ Kept st st' ∧ ∀ x, st'.IsBusy x ↔ x = s ∨ st.IsBusy x := by
  intro st'
  have hvalid := hst.valid s b hb
  set st₁ := st.update s fun b => { b with busy := true } with hst₁
  have hsec₁ : ∀ b : Buf, ({ b with busy := true } : Buf).sector = b.sector :=
    fun _ => rfl
  have hsec₂ : ∀ b : Buf, (if b.valid then b else
      { b with valid := true, data := st.disk s }).sector = b.sector := by
    intro b
    split <;> rfl
  have hb₁ : st₁.lookup s = some { b with busy := true } := by
    rw [hst₁, lookup_update st s hsec₁]
    simp [hb]
  have hcoh₁ : st₁.Coherent := by
    apply hst.update hsec₁
    · intro b' hb'
      exact hst.valid s b' hb'
    · intro b' hb' hdirty
      exact hst.clean s b' hb' hdirty
  refine ⟨?_, ⟨rfl, rfl, rfl, ?_, ?_⟩, ?_⟩
  · apply hcoh₁.update hsec₂
    · intro b' hb'
      split
      · assumption
      · rfl
    · intro b' hb' hdirty
      rw [hb₁] at hb'
      obtain rfl := Option.some.inj hb'
      simp only [hvalid, if_true] at hdirty ⊢
      exact hst.clean s b hb hdirty
  · intro x
    rw [view_update hsec₂ hb₁, view_update hsec₁ hb]
    by_cases hxs : x = s
    · subst hxs
      simp [hvalid, view_of_lookup hb]
    · simp [hxs]
  · intro x
    rw [isDirty_update hsec₂, isDirty_update hsec₁, hb₁]
    by_cases hxs : x = s
    · subst hxs
      simp [hvalid, IsDirty, hb]
    · simp [hxs]
  · intro x
    rw [isBusy_update hsec₂, isBusy_update hsec₁, hb₁]
    by_cases hxs : x = s
    · subst hxs
      simp [hvalid]
    · simp [hxs]

/-- Recycling a buffer and reading the sector into it. -/
theorem bread_miss {st : Store} (hst : st.Coherent) {s : ℕ} {bufs : List Buf}
    (hs : st.lookup s = none) (h : recycle s st.bufs = some bufs) :
    let st' := { st with bufs := bufs }.update s fun b =>
      if b.valid then b else { b with valid := true, data := st.disk s }
    st'.Coherent ∧ Kept st st' ∧ ∀ x, st'.IsBusy x ↔ x = s ∨ st.IsBusy x := by
  intro st'
  set st₁ : Store := { st with bufs := bufs } with hst₁
  have hsec : ∀ b : Buf, (if b.valid then b else
      { b with valid := true, data := st.disk s }).sector = b.sector := by
    intro b
    split <;> rfl
  have hlookup := lookup_recycle hst hs h
  obtain ⟨d, hself⟩ : ∃ d, st₁.lookup s = some ⟨some s, true, false, false, d⟩ := by
    rcases hlookup s with ⟨-, hd⟩ | ⟨hne, -⟩ | ⟨hne, -⟩
    · exact hd
    · exact absurd rfl hne
    · exact absurd rfl hne
  have hother : ∀ x, x ≠ s → st₁.lookup x = st.lookup x ∨
      (st₁.lookup x = none ∧
        ∃ b, st.lookup x = some b ∧ b.busy = false ∧ b.dirty = false) := by
    intro x hx
    rcases hlookup x with ⟨heq, -⟩ | ⟨-, hl⟩ | ⟨-, hn, hb⟩
    · exact absurd heq hx
    · exact Or.inl hl
    · exact Or.inr ⟨hn, hb⟩
  have hself' : st'.lookup s = some ⟨some s, true, true, false, st.disk s⟩ := by
    rw [lookup_update st₁ s hsec, if_pos rfl, hself]
    simp
  have hother' : ∀ x, x ≠ s → st'.lookup x = st₁.lookup x := by
    intro x hx
    rw [lookup_update st₁ s hsec, if_neg hx]
  obtain ⟨l, b, r, hbufs, hbusy, hdirty, hbufs'⟩ := recycle_eq_some h
  refine ⟨⟨?_, ?_, ?_, ?_, ?_⟩, ⟨rfl, rfl, rfl, ?_, ?_⟩, ?_⟩
  · rw [sectors_update st₁ s hsec]
    have hnodup := hst.nodup
    have hnotin : s ∉ st.bufs.filterMap Buf.sector := by
      intro hmem
      obtain ⟨b', hb', hb's⟩ := List.mem_filterMap.mp hmem
      have := List.find?_eq_none.mp hs b' hb'
      simp [hb's] at this
    rw [hbufs] at hnodup hnotin
    rw [hst₁, hbufs']
    simp only [List.filterMap_append, List.filterMap_cons] at hnodup hnotin ⊢
    rw [List.nodup_middle]
    cases hbs : b.sector with
    | none =>
        rw [hbs] at hnodup hnotin
        exact List.nodup_cons.mpr ⟨hnotin, hnodup⟩
    | some y =>
        rw [hbs] at hnodup hnotin
        rw [List.nodup_middle] at hnodup
        refine List.nodup_cons.mpr ⟨?_, (List.nodup_cons.mp hnodup).2⟩
        intro hmem
        apply hnotin
        simp only [List.mem_append, List.mem_cons] at hmem ⊢
        tauto
  · intro x b' hb'
    by_cases hxs : x = s
    · subst hxs
      rw [hself'] at hb'
      rw [← Option.some.inj hb']
    · rw [hother' x hxs] at hb'
      rcases hother x hxs with heq | ⟨hn, -⟩
      · exact hst.valid x b' (heq ▸ hb')
      · rw [hn] at hb'
        cases hb'
  · intro x b' hb' hd
    by_cases hxs : x = s
    · subst hxs
      rw [hself'] at hb'
      rw [← Option.some.inj hb']
      rfl
    · rw [hother' x hxs] at hb'
      rcases hother x hxs with heq | ⟨hn, -⟩
      · exact hst.clean x b' (heq ▸ hb') hd
      · rw [hn] at hb'
        cases hb'
  · intro b' hb' hnone
    obtain ⟨b₀, hb₀, rfl⟩ := List.mem_map.mp hb'
    by_cases hs₀ : b₀.sector = some s
    · rw [if_pos hs₀, hsec, hs₀] at hnone
      cases hnone
    · rw [if_neg hs₀] at hnone ⊢
      change b₀ ∈ bufs at hb₀
      rw [hbufs'] at hb₀
      apply hst.unused b₀ _ hnone
      rw [hbufs]
      simp only [List.mem_append, List.mem_cons] at hb₀ ⊢
      rcases hb₀ with hl | rfl | hr
      · exact Or.inl hl
      · cases hnone
      · exact Or.inr (Or.inr hr)
  · have hlen := hst.length
    rw [hbufs] at hlen
    have hmap : st'.bufs.length = bufs.length := List.length_map _
    rw [hmap, hbufs']
    simpa using hlen
  · intro x
    by_cases hxs : x = s
    · subst hxs
      rw [view_of_lookup hself', view_of_lookup_none hs]
    · have hx' := hother' x hxs
      rcases hother x hxs with heq | ⟨hn, b', hb', -, hd⟩
      · unfold view
        rw [hx', heq]
        rfl
      · rw [view_of_lookup_none (hx'.trans hn), view_of_lookup hb']
        exact (hst.clean x b' hb' hd).symm
  · intro x
    unfold IsDirty
    by_cases hxs : x = s
    · subst hxs
      rw [hself', hs]
      simp
    · rw [hother' x hxs]
      rcases hother x hxs with heq | ⟨hn, b', hb', -, hd⟩
      · rw [heq]
      · rw [hn, hb']
        simp [hd]
  · intro x
    unfold IsBusy
    by_cases hxs : x = s
    · subst hxs
      rw [hself']
      simp
    · rw [hother' x hxs]
      rcases hother x hxs with heq | ⟨hn, b', hb', hbz, -⟩
      · simp [heq, hxs]
      · rw [hn, hb']
        simp [hbz, hxs]

end Store

open Store

/-- `bread` returns the latest data of the sector and changes nothing a caller
can see except that the sector is now busy.  It stops only on a busy sector or
when every buffer is busy or dirty. -/
theorem bread_spec {st : Store} (hst : st.Coherent) (s : ℕ) :
    Exec.wp (bread s)
      (fun d st' => d = st.view s ∧ ¬ st.IsBusy s ∧ st'.Coherent ∧ Kept st st' ∧
        ∀ x, st'.IsBusy x ↔ x = s ∨ st.IsBusy x)
      (fun e st' => st' = st ∧
        ((e = .asleep ∧ st.IsBusy s) ∨
          (e = .bgetNoBuffers ∧ ∀ b ∈ st.bufs, b.busy = true ∨ b.dirty = true))) st := by
  unfold bread bget
  simp only [Exec.wp_bind, Exec.wp_gets]
  cases hl : st.lookup s with
  | some b =>
      cases hbusy : b.busy with
      | true =>
          simp only [hbusy, if_true, Exec.wp_throw]
          exact ⟨trivial, Or.inl ⟨trivial, b, hl, hbusy⟩⟩
      | false =>
          simp only [hbusy, Bool.false_eq_true, if_false, Exec.wp_modify]
          obtain ⟨hcoh, hkept, hbusy'⟩ := bread_hit hst hl
          exact ⟨hkept.view s, by simp [IsBusy, hl, hbusy], hcoh, hkept, hbusy'⟩
  | none =>
      simp only [Exec.wp_bind, Exec.wp_gets]
      cases hr : recycle s st.bufs with
      | some bufs =>
          simp only [Exec.wp_modify]
          obtain ⟨hcoh, hkept, hbusy'⟩ := bread_miss hst hl hr
          exact ⟨hkept.view s, by simp [IsBusy, hl], hcoh, hkept, hbusy'⟩
      | none =>
          simp only [Exec.wp_throw]
          exact ⟨trivial, Or.inr ⟨trivial, recycle_eq_none hr⟩⟩

/-- `bwrite` puts the data on the disk and in the cache; the sector is clean
afterwards. -/
theorem bwrite_spec {st : Store} (hst : st.Coherent) (s : ℕ) (d : Block) :
    Exec.wp (bwrite s d)
      (fun _ st' => st'.Coherent ∧ st'.base = st.base ∧
        st'.writes = (s, d) :: st.writes ∧ st'.log = st.log ∧
        (∀ x, st'.view x = if x = s then d else st.view x) ∧
        (∀ x, st'.IsDirty x ↔ x ≠ s ∧ st.IsDirty x) ∧
        ∀ x, st'.IsBusy x ↔ st.IsBusy x)
      (fun e st' => st' = st ∧ e = .bwrite ∧ ¬ st.IsBusy s) st := by
  unfold bwrite
  simp only [Exec.wp_bind, Exec.wp_gets]
  cases hl : st.lookup s with
  | none =>
      simp only [Exec.wp_throw]
      exact ⟨trivial, trivial, by simp [IsBusy, hl]⟩
  | some b =>
      cases hbusy : b.busy with
      | false =>
          simp only [hbusy, Bool.false_eq_true, if_false, Exec.wp_throw]
          exact ⟨trivial, trivial, by simp [IsBusy, hl, hbusy]⟩
      | true =>
          simp only [hbusy, if_true, Exec.wp_modify]
          have hsec : ∀ b : Buf, ({ b with
              valid := true, dirty := false, data := d } : Buf).sector = b.sector :=
            fun _ => rfl
          have hl' : (st.write s d).lookup s = some b := hl
          refine ⟨⟨?_, ?_, ?_, ?_, ?_⟩, rfl, rfl, rfl, ?_, ?_, ?_⟩
          · rw [sectors_update _ s hsec]
            exact hst.nodup
          · intro x b' hb'
            rw [lookup_update _ s hsec] at hb'
            split at hb'
            · obtain ⟨b₀, -, rfl⟩ := Option.map_eq_some_iff.mp hb'
              rfl
            · exact hst.valid x b' hb'
          · intro x b' hb' hd
            rw [lookup_update _ s hsec] at hb'
            split at hb'
            · rename_i hxs
              subst hxs
              obtain ⟨b₀, -, rfl⟩ := Option.map_eq_some_iff.mp hb'
              exact (contents_cons_self st.base x d st.writes).symm
            · rename_i hxs
              rw [hst.clean x b' hb' hd]
              exact (contents_cons_of_ne st.base hxs d st.writes).symm
          · intro b' hb' hnone
            obtain ⟨b₀, hb₀, rfl⟩ := List.mem_map.mp hb'
            by_cases hs₀ : b₀.sector = some s
            · rw [if_pos hs₀, hsec, hs₀] at hnone
              cases hnone
            · rw [if_neg hs₀] at hnone ⊢
              exact hst.unused b₀ hb₀ hnone
          · exact (List.length_map _).trans hst.length
          · intro x
            rw [view_update hsec hl']
            by_cases hxs : x = s
            · simp [hxs]
            · have hdisk : (st.write s d).disk x = st.disk x :=
                contents_cons_of_ne st.base hxs d st.writes
              simp only [hxs, if_false]
              unfold Store.view
              rw [lookup_write, hdisk]
          · intro x
            rw [isDirty_update hsec]
            simp [IsDirty, lookup_write]
          · intro x
            rw [isBusy_update hsec]
            by_cases hxs : x = s
            · subst hxs
              simp [IsBusy, hl, hl', hbusy]
            · simp [hxs, IsBusy, lookup_write]

/-- `brelse` unlocks the buffer and changes nothing else a caller can see. -/
theorem brelse_spec {st : Store} (hst : st.Coherent) (s : ℕ) :
    Exec.wp (brelse s)
      (fun _ st' => st'.Coherent ∧ Kept st st' ∧
        ∀ x, st'.IsBusy x ↔ x ≠ s ∧ st.IsBusy x)
      (fun e st' => st' = st ∧ e = .brelse ∧ ¬ st.IsBusy s) st := by
  unfold brelse
  simp only [Exec.wp_bind, Exec.wp_gets]
  cases hl : st.lookup s with
  | none =>
      simp only [Exec.wp_throw]
      exact ⟨trivial, trivial, by simp [IsBusy, hl]⟩
  | some b =>
      cases hbusy : b.busy with
      | false =>
          simp only [hbusy, Bool.false_eq_true, if_false, Exec.wp_throw]
          exact ⟨trivial, trivial, by simp [IsBusy, hl, hbusy]⟩
      | true =>
          simp only [hbusy, if_true, Exec.wp_modify]
          obtain ⟨hmem, hsec⟩ := lookup_sector hl
          have hsec' : ({ b with busy := false } : Buf).sector = some s := hsec
          have hlookup := lookup_toFront st hsec'
          obtain ⟨l, r, hbufs, hfilter⟩ := split_of_lookup hst hl
          rw [hfilter] at hlookup ⊢
          refine ⟨⟨?_, ?_, ?_, ?_, ?_⟩, ⟨rfl, rfl, rfl, ?_, ?_⟩, ?_⟩
          · have hnodup := hst.nodup
            rw [hbufs] at hnodup
            simpa [List.filterMap_append, hsec, List.nodup_middle] using hnodup
          · intro x b' hb'
            rw [hlookup] at hb'
            split at hb'
            · rw [← Option.some.inj hb']
              exact hst.valid s b hl
            · exact hst.valid x b' hb'
          · intro x b' hb' hd
            rw [hlookup] at hb'
            split at hb'
            · rename_i hxs
              subst hxs
              obtain rfl := Option.some.inj hb'
              exact hst.clean x b hl hd
            · exact hst.clean x b' hb' hd
          · intro b' hb' hnone
            rcases List.mem_cons.mp hb' with rfl | hb'
            · rw [hsec'] at hnone
              cases hnone
            · apply hst.unused b' _ hnone
              rw [hbufs]
              simp only [List.mem_append, List.mem_cons] at hb' ⊢
              tauto
          · have hlen := hst.length
            rw [hbufs] at hlen
            simp only [List.length_append, List.length_cons] at hlen ⊢
            omega
          · intro x
            unfold Store.view
            rw [hlookup]
            by_cases hxs : x = s
            · simp [hxs, hl]
            · simp only [hxs, if_false]
              rfl
          · intro x
            unfold IsDirty
            rw [hlookup]
            split
            · rename_i hxs
              simp [hxs, hl]
            · rfl
          · intro x
            unfold IsBusy
            rw [hlookup]
            split
            · rename_i hxs
              simp [hxs]
            · rename_i hxs
              simp [hxs]

end Xv6
