import Xv6.Vm.Frames

/-!
# What `deallocuvm` removes

The loop of `deallocuvm` goes through the pages of a range.  Where the page directory has
no table, it goes on by the size of a table; from a page in the middle of a table it then
comes to the middle of the next one, and the pages before that are left out.  `Examined`
describes which pages the loop looks at.
-/

namespace Xv6

namespace Vm

open Support

variable {L : Link} {s s' : Memory} {plain rest : Multiset ℕ} {d u v t j k last : ℕ}

/-- From the virtual page `v` on, the loop looks at the entry for the page `u`; `dir` is the
page directory.  Either no table before that of `u` changes the index within a table, or one
of them is there and the loop has gone through it to its end. -/
def Examined (dir : ℕ → ℕ) (v u : ℕ) : Prop :=
  v ≤ u ∧ Present (dir (u / npentries)) ∧
    (v % npentries ≤ u % npentries ∨ ∃ i < u / npentries, v / npentries ≤ i ∧ Present (dir i))

instance (dir : ℕ → ℕ) (v u : ℕ) : Decidable (Examined dir v u) :=
  inferInstanceAs (Decidable (_ ∧ _ ∧ (_ ∨ ∃ i < _, _ ∧ _)))

theorem examined_of_absent {dir : ℕ → ℕ} (h : ¬Present (dir (v / npentries))) :
    Examined dir v u ↔ Examined dir (v + npentries) u := by
  have hn : npentries = 1024 := by
    unfold npentries
    rfl
  have hother : ∀ {i}, v / npentries ≤ i → Present (dir i) → v / npentries < i := by
    intro i hle hp
    refine lt_of_le_of_ne hle ?_
    rintro rfl
    exact h hp
  unfold Examined
  rw [hn] at hother ⊢
  constructor
  · rintro ⟨hle, hp, hidx⟩
    have htable := hother (Nat.div_le_div_right hle) hp
    rcases hidx with hidx | ⟨i, hi, hlow, hpi⟩
    · exact ⟨by omega, hp, Or.inl (by omega)⟩
    · have hlow' := hother hlow hpi
      exact ⟨by omega, hp, Or.inr ⟨i, hi, by omega, hpi⟩⟩
  · rintro ⟨hle, hp, hidx⟩
    refine ⟨by omega, hp, ?_⟩
    rcases hidx with hidx | ⟨i, hi, hlow, hpi⟩
    · exact Or.inl (by omega)
    · exact Or.inr ⟨i, hi, by omega, hpi⟩

theorem examined_of_present {dir : ℕ → ℕ} (h : Present (dir (v / npentries))) :
    Examined dir v u ↔ u = v ∨ Examined dir (v + 1) u := by
  have hn : npentries = 1024 := by
    unfold npentries
    rfl
  unfold Examined
  rw [hn] at h ⊢
  constructor
  · rintro ⟨hle, hp, hidx⟩
    rcases eq_or_ne u v with rfl | hne
    · exact Or.inl rfl
    · refine Or.inr ⟨by omega, hp, ?_⟩
      by_cases hlast : (v + 1) % 1024 ≤ u % 1024
      · exact Or.inl hlast
      · -- the loop has come to the end of the table of `v`
        right
        rcases hidx with hidx | ⟨i, hi, hlow, hpi⟩
        · exact ⟨v / 1024, by omega, by omega, h⟩
        · exact ⟨i, hi, by omega, hpi⟩
  · rintro (rfl | ⟨hle, hp, hidx⟩)
    · exact ⟨le_rfl, h, Or.inl le_rfl⟩
    · refine ⟨by omega, hp, ?_⟩
      by_cases hsame : u / 1024 = v / 1024
      · exact Or.inl (by omega)
      · exact Or.inr ⟨v / 1024, by omega, le_rfl, h⟩

/-- The pages that the loop frees. -/
def freed (word : ℕ → ℕ → ℕ) (d v last : ℕ) : Multiset ℕ :=
  ∑ u ∈ Finset.range last, if Examined (word d) v u then entry (pteAt word d u) else 0

theorem freed_of_absent (word : ℕ → ℕ → ℕ) (h : ¬Present (word d (v / npentries))) :
    freed word d v last = freed word d (v + npentries) last := by
  unfold freed
  refine Finset.sum_congr rfl fun u _ => ?_
  exact if_congr (examined_of_absent h) rfl rfl

theorem freed_of_present {word word' : ℕ → ℕ → ℕ} (h : Present (word d (v / npentries)))
    (hv : v < last) (hdir : word' d = word d)
    (hpte : ∀ u < last, u ≠ v → pteAt word' d u = pteAt word d u) :
    freed word d v last = freed word' d (v + 1) last + entry (pteAt word d v) := by
  have hself : Examined (word d) v v := ⟨le_rfl, h, Or.inl le_rfl⟩
  have hnext : ¬Examined (word d) (v + 1) v := fun hh => absurd hh.1 (by omega)
  have hsum := sum_exchange (f := fun u => if Examined (word d) v u then entry (pteAt word d u) else 0)
    (g := fun u => if Examined (word' d) (v + 1) u then entry (pteAt word' d u) else 0)
    (Finset.mem_range.mpr hv) fun u hu hne => by
      have hiff : Examined (word d) (v + 1) u ↔ Examined (word d) v u := by
        rw [examined_of_present h, or_iff_right hne]
      rw [hdir, hpte u (Finset.mem_range.mp hu) hne]
      exact if_congr hiff rfl rfl
  rw [if_pos hself, hdir, if_neg hnext, add_zero] at hsum
  unfold freed
  rw [hdir]
  exact hsum.symm

/-- One page is freed and its entry cleared. -/
theorem unmap_range (h : Owns L s plain (d ::ₘ rest)) (hv : v < kernbasePage)
    (hat : EntryAt s.word d v t j) (hp : Present (s.word t j)) :
    Exec.total (kfree L (ptePage (s.word t j)) >>= fun _ => setWord t j 0) (fun _ s' =>
      (Owns L s' plain (d ::ₘ rest) ∧ s'.word d = s.word d ∧ ∀ m ∈ plain, s'.word m = s.word m) ∧
      (∀ u < topPage, pteAt s'.word d u = if u = v then 0 else pteAt s.word d u) ∧
      s'.freelist = ptePage (s.word t j) :: s.freelist) s := by
  have htop := kernbase_lt_top hv
  have hnd := h.skeleton_nodup (Multiset.mem_cons_self d rest)
  have hfree : Exec.wlp (kfree L (ptePage (s.word t j)) >>= fun _ => setWord t j 0)
      (fun _ s' => s'.freelist = ptePage (s.word t j) :: s.freelist) s := by
    unfold kfree
    refine Exec.wp_bind.mpr ?_
    split
    · exact Exec.wlp_throw
    · exact Exec.wp_modify.mpr (Exec.wp_modify.mpr rfl)
  refine Exec.total_mono (total_and (unmap_spec h hv hat hp) hfree) ?_
  rintro - s' ⟨⟨howns, -, hkeep, hword⟩, hlist⟩
  have hdir : s'.word d = s.word d := by
    rw [hword d (mem_skeleton_self _ _), putWord_other_page]
    rintro rfl
    exact table_ne_dir hnd (dirIndex_lt htop) hat.present hat.table
  have hsame : SameTables (putWord s.word t j 0) s'.word d := by
    intro m hm
    refine hword m ?_
    unfold skeleton tables at hm ⊢
    rwa [hat.dir_eq hnd htop] at hm
  refine ⟨⟨howns, hdir, hkeep⟩, fun u hu => ?_, hlist⟩
  rw [hsame.pteAt_eq hu]
  split
  · rename_i heq
    rw [heq, (hat.putWord hnd htop).pteAt_eq]
    exact putWord_same
  · rename_i hne
    exact hat.pteAt_putWord hnd htop hu hne

/-- The state after the loop: the entries it has looked at are empty, and their pages free. -/
structure Removed (L : Link) (s s' : Memory) (plain rest : Multiset ℕ) (d v last : ℕ) : Prop where
  owns : Owns L s' plain (d ::ₘ rest)
  dir : s'.word d = s.word d
  frame : ∀ m ∈ plain, s'.word m = s.word m
  entries : ∀ u < topPage, pteAt s'.word d u =
    if u < last ∧ Examined (s.word d) v u then 0 else pteAt s.word d u
  free : (s'.freelist : Multiset ℕ) = freed s.word d v last + s.freelist

theorem Removed.refl (h : Owns L s plain (d ::ₘ rest)) (hle : last ≤ v) :
    Removed L s s plain rest d v last := by
  have hnot : ∀ u < last, ¬Examined (s.word d) v u := fun u hu hh => absurd hh.1 (by omega)
  refine ⟨h, rfl, fun _ _ => rfl, fun u _ => (if_neg fun hh => hnot u hh.1 hh.2).symm, ?_⟩
  unfold freed
  rw [Finset.sum_congr rfl fun u hu => if_neg (hnot u (Finset.mem_range.mp hu)),
    Finset.sum_const_zero, zero_add]

theorem Removed.of_absent (h : Removed L s s' plain rest d (v + npentries) last)
    (hp : ¬Present (s.word d (v / npentries))) : Removed L s s' plain rest d v last := by
  refine ⟨h.owns, h.dir, h.frame, fun u hu => ?_, ?_⟩
  · rw [h.entries u hu]
    exact if_congr (and_congr_right fun _ => (examined_of_absent hp).symm) rfl rfl
  · rw [h.free, freed_of_absent s.word hp]

/-- The rounds after the one for the page `v`. -/
theorem Removed.of_present {s₁ : Memory} (h : Removed L s₁ s' plain rest d (v + 1) last)
    (hp : Present (s.word d (v / npentries))) (hv : v < last) (hlast : last ≤ topPage)
    (hdir : s₁.word d = s.word d) (hframe : ∀ m ∈ plain, s₁.word m = s.word m)
    (hpte : ∀ u < topPage, pteAt s₁.word d u = if u = v then 0 else pteAt s.word d u)
    (hfree : (s₁.freelist : Multiset ℕ) = entry (pteAt s.word d v) + s.freelist) :
    Removed L s s' plain rest d v last := by
  refine ⟨h.owns, h.dir.trans hdir, fun m hm => (h.frame m hm).trans (hframe m hm), ?_, ?_⟩
  · intro u hu
    rw [h.entries u hu, hdir, hpte u hu]
    by_cases huv : u = v
    · subst huv
      rw [if_pos rfl, ite_self, if_pos ⟨hv, le_rfl, hp, Or.inl le_rfl⟩]
    · rw [if_neg huv]
      refine if_congr (and_congr_right fun _ => ?_) rfl rfl
      rw [examined_of_present hp, or_iff_right huv]
  · rw [h.free, hfree, ← add_assoc, freed_of_present hp hv hdir]
    intro u hu hne
    rw [hpte u (by omega), if_neg hne]

theorem deallocFrom_range (h : Owns L s plain (d ::ₘ rest)) (hlast : last ≤ kernbasePage)
    (hk : last ≤ v + k) :
    Exec.total (deallocFrom L d k v last) (fun _ s' => Removed L s s' plain rest d v last) s := by
  have htop : last ≤ topPage := hlast.trans (by decide)
  induction k generalizing s v with
  | zero => exact Exec.wp_pure.mpr (Removed.refl h hk)
  | succ k ih =>
      unfold deallocFrom
      by_cases hvl : v < last
      · rw [if_pos hvl]
        refine Exec.total_seq (walkpgdir_false_spec d v s) ?_
        rintro (_ | ⟨t, j⟩) s1 ⟨rfl, hat⟩
        · have hskip : v + (npentries - 1) + 1 = v + npentries := by
            unfold npentries
            rfl
          simp only [hskip]
          refine Exec.total_mono (ih h (by unfold npentries; omega)) ?_
          intro _ s' hs'
          exact hs'.of_absent hat
        · refine Exec.wp_bind.mpr (Exec.wp_gets.mpr ?_)
          split
          · rename_i hp
            have hpage := mem_allPages.mp (h.mem_allPages_of_footprint
              (Multiset.mem_cons_self d rest) (mem_footprint_user (by omega) hat hp))
            have htext := L.text_lt
            have hdata := L.data_le
            rw [if_neg (by omega)]
            refine Exec.total_seq (Exec.wp_bind.mp (unmap_range h (by omega) hat hp)) ?_
            intro _ s2 hset
            refine Exec.total_seq hset ?_
            rintro - s3 ⟨⟨h3, hdir, hkeep⟩, hpte, hfree⟩
            refine Exec.total_mono (ih h3 (by omega)) ?_
            intro _ s' hs'
            refine hs'.of_present hat.present hvl htop hdir hkeep hpte ?_
            rw [hfree, hat.pteAt_eq, entry_of_present hp, Multiset.singleton_add,
              Multiset.cons_coe]
          · rename_i hp
            refine Exec.total_mono (ih h (by omega)) ?_
            intro _ s' hs'
            have hzero : pteAt s1.word d v = 0 := by
              have hclean := (h.wellFormed d (Multiset.mem_cons_self d rest)).clean _
                (dirIndex_lt (by omega)) hat.present (v % npentries) (index_lt v)
              rw [hat.table, ← hat.index] at hclean
              rw [hat.pteAt_eq]
              exact hclean.resolve_left hp
            refine hs'.of_present hat.present hvl htop rfl (fun _ _ => rfl) ?_ ?_
            · intro u _
              split
              · rename_i heq
                rw [heq, hzero]
              · rfl
            · rw [hzero, entry_zero, zero_add]
      · rw [if_neg hvl]
        exact Exec.wp_pure.mpr (Removed.refl h (by omega))

/-! ## Exactly the requested range -/

/-- `deallocuvm` returns the new size, and of the range it was asked for nothing is left: no
page is present, each page that was there is on the free list once more, and no entry outside
of the range has changed. -/
def RemovesRange (L : Link) (d oldsz newsz : ℕ) (s : Memory) : Prop :=
  ∃ s', deallocuvm L d oldsz newsz s = (.ok newsz, s') ∧
    (∀ u, pagesOf newsz ≤ u → u < pagesOf oldsz → ¬Present (pteAt s'.word d u)) ∧
    (s'.freelist : Multiset ℕ) =
      ∑ u ∈ Finset.Ico (pagesOf newsz) (pagesOf oldsz), entry (pteAt s.word d u) + s.freelist ∧
    ∀ u < topPage, u < pagesOf newsz ∨ pagesOf oldsz ≤ u →
      pteAt s'.word d u = pteAt s.word d u

/-- No page of the range is present at a smaller index of its table than that of the first page
of the range, unless there is a table before that the loop goes through. -/
def NoneSkipped (word : ℕ → ℕ → ℕ) (d v last : ℕ) : Prop :=
  ∀ u, v ≤ u → u < last → Present (pteAt word d u) → u % npentries < v % npentries →
    ∃ i < u / npentries, v / npentries ≤ i ∧ Present (word d i)

theorem noneSkipped_iff {word : ℕ → ℕ → ℕ} : NoneSkipped word d v last ↔
    ∀ u, v ≤ u → u < last → Present (pteAt word d u) → Examined (word d) v u := by
  constructor
  · intro h u hlow hhigh hp
    have htable : Present (word d (u / npentries)) := by
      by_contra hno
      rw [pteAt, if_neg hno] at hp
      simp [Present] at hp
    refine ⟨hlow, htable, ?_⟩
    by_cases hidx : v % npentries ≤ u % npentries
    · exact Or.inl hidx
    · exact Or.inr (h u hlow hhigh hp (by omega))
  · intro h u hlow hhigh hp hidx
    exact (h u hlow hhigh hp).2.2.resolve_left (by omega)

theorem Removed.freed_eq (hskip : NoneSkipped s.word d v last) :
    freed s.word d v last = ∑ u ∈ Finset.Ico v last, entry (pteAt s.word d u) := by
  have hexam := noneSkipped_iff.mp hskip
  unfold freed
  rw [Finset.range_eq_Ico]
  symm
  refine Finset.sum_subset_zero_on_sdiff (Finset.Ico_subset_Ico_left (Nat.zero_le v)) ?_ ?_
  · intro u hu
    rw [Finset.mem_sdiff, Finset.mem_Ico, Finset.mem_Ico] at hu
    exact if_neg fun hh => hu.2 ⟨hh.1, hu.1.2⟩
  · intro u hu
    obtain ⟨hlow, hhigh⟩ := Finset.mem_Ico.mp hu
    by_cases hp : Present (pteAt s.word d u)
    · rw [if_pos (hexam u hlow hhigh hp)]
    · rw [entry_of_not_present hp, ite_self]

theorem deallocuvm_removed {oldsz newsz : ℕ} (h : Owns L s plain (d ::ₘ rest))
    (hsz : newsz < oldsz) (hold : oldsz ≤ kernbase) :
    Exec.total (deallocuvm L d oldsz newsz) (fun r s' => r = newsz ∧
      Removed L s s' plain rest d (pagesOf newsz) (pagesOf oldsz)) s := by
  unfold deallocuvm
  rw [if_neg (by omega)]
  refine Exec.total_seq (deallocFrom_range h (pagesOf_le hold) (Nat.le_add_left _ _)) ?_
  intro _ s' hs'
  exact Exec.wp_pure.mpr ⟨rfl, hs'⟩

theorem page_lt_top {oldsz : ℕ} (hold : oldsz ≤ kernbase) (hu : u < pagesOf oldsz) :
    u < topPage :=
  kernbase_lt_top (hu.trans_le (pagesOf_le hold))

/-- `deallocuvm` removes the range it is asked for if and only if its loop skips no page. -/
theorem deallocuvm_removes_range_iff {oldsz newsz : ℕ} (h : Owns L s plain (d ::ₘ rest))
    (hsz : newsz < oldsz) (hold : oldsz ≤ kernbase) :
    RemovesRange L d oldsz newsz s ↔
      NoneSkipped s.word d (pagesOf newsz) (pagesOf oldsz) := by
  obtain ⟨r, s', hret, rfl, hs'⟩ := Exec.wp_total (deallocuvm_removed h hsz hold)
  constructor
  · rintro ⟨s₁, hret₁, hgone, -⟩
    rw [hret] at hret₁
    obtain ⟨-, rfl⟩ := Prod.mk.inj hret₁
    refine noneSkipped_iff.mpr fun u hlow hhigh hp => ?_
    by_contra hnot
    have hpte := hs'.entries u (page_lt_top hold hhigh)
    rw [if_neg fun hh => hnot hh.2] at hpte
    exact hgone u hlow hhigh (hpte ▸ hp)
  · intro hskip
    have hexam := noneSkipped_iff.mp hskip
    refine ⟨s', hret, ?_, ?_, ?_⟩
    · intro u hlow hhigh hp
      have hpte := hs'.entries u (page_lt_top hold hhigh)
      split at hpte
      · rw [hpte] at hp
        simp [Present] at hp
      · rename_i hnot
        rw [hpte] at hp
        exact hnot ⟨hhigh, hexam u hlow hhigh hp⟩
    · rw [hs'.free, Removed.freed_eq hskip]
    · intro u hu hout
      rw [hs'.entries u hu, if_neg]
      rintro ⟨hlt, hlow, -⟩
      omega

/-! ## An address space of one page -/

/-- The first page of the allocator is a directory, the next one its only table, at the index
`i`, and the one after that the only page of the program, at the index `j` of the table. -/
def loneWord (i j : ℕ) : ℕ → ℕ → ℕ := fun m x =>
  if m = 276 ∧ x = i then mkPte 277 pteWU else if m = 277 ∧ x = j then mkPte 278 pteWU else 0

def loneMemory (i j : ℕ) : Memory where
  freelist := List.range' 279 57065
  word := loneWord i j
  fails := []
  starved := false
  hole := false
  trace := []
  hole_starved := not_recorded false

theorem loneWord_dir {i j x : ℕ} : Present (loneWord i j 276 x) ↔ x = i := by
  unfold loneWord
  by_cases hx : x = i
  · rw [if_pos ⟨rfl, hx⟩]
    exact iff_of_true (mkPte_present _ _) hx
  · rw [if_neg fun hh => hx hh.2, if_neg (by simp)]
    exact iff_of_false (by simp [Present]) hx

theorem loneWord_table {i j x : ℕ} : Present (loneWord i j 277 x) ↔ x = j := by
  unfold loneWord
  rw [if_neg (by simp)]
  by_cases hx : x = j
  · rw [if_pos ⟨rfl, hx⟩]
    exact iff_of_true (mkPte_present _ _) hx
  · rw [if_neg fun hh => hx hh.2]
    exact iff_of_false (by simp [Present]) hx

theorem loneWord_page {i j : ℕ} : ptePage (loneWord i j 276 i) = 277 ∧
    ptePage (loneWord i j 277 j) = 278 := by
  unfold loneWord
  rw [if_pos ⟨rfl, rfl⟩, if_neg (by simp), if_pos ⟨rfl, rfl⟩]
  exact ⟨mkPte_page (by decide), mkPte_page (by decide)⟩

theorem loneWord_pteAt {i j : ℕ} (hi : u / npentries = i) (hj : u % npentries = j) :
    Present (pteAt (loneWord i j) 276 u) := by
  rw [pteAt, hi, hj, if_pos (loneWord_dir.mpr rfl), loneWord_page.1]
  exact loneWord_table.mpr rfl

theorem loneWord_skeleton {i j : ℕ} (hi : i < userEntries) :
    skeleton (loneWord i j) 276 = {276} + {277} := by
  unfold skeleton tables
  rw [Finset.sum_eq_single i]
  · rw [entry_of_present (loneWord_dir.mpr rfl), loneWord_page.1]
  · intro x _ hne
    exact entry_of_not_present fun hp => hne (loneWord_dir.mp hp)
  · intro hnot
    exact absurd (Finset.mem_range.mpr (hi.trans_le userEntries_le)) hnot

theorem loneWord_footprint {i j : ℕ} (hi : i < userEntries) (hj : j < npentries) :
    footprint (loneWord i j) 276 = {276} + {277} + {278} := by
  have hmapped : mapped (loneWord i j) 277 = {278} := by
    unfold mapped
    rw [Finset.sum_eq_single j]
    · rw [entry_of_present (loneWord_table.mpr rfl), loneWord_page.2]
    · intro x _ hne
      exact entry_of_not_present fun hp => hne (loneWord_table.mp hp)
    · intro hnot
      exact absurd (Finset.mem_range.mpr hj) hnot
  have huser : userPages (loneWord i j) 276 = {278} := by
    unfold userPages
    rw [Finset.sum_eq_single i]
    · unfold mappedBy
      rw [if_pos (loneWord_dir.mpr rfl), loneWord_page.1, hmapped]
    · intro x _ hne
      unfold mappedBy
      exact if_neg fun hp => hne (loneWord_dir.mp hp)
    · intro hnot
      exact absurd (Finset.mem_range.mpr hi) hnot
  unfold footprint
  rw [loneWord_skeleton hi, huser]

theorem loneMemory_owns {i j : ℕ} (hi : i < userEntries) (hj : j < npentries) :
    Owns smallLink (loneMemory i j) 0 (276 ::ₘ 0) := by
  refine ⟨⟨0, fun _ => rfl, ?_⟩, ?_⟩
  · rw [Multiset.map_cons, Multiset.map_zero, Multiset.sum_cons, Multiset.sum_zero]
    change (List.range' 279 57065 : Multiset ℕ) + 0 + (footprint (loneWord i j) 276 + 0) + 0 = _
    rw [loneWord_footprint hi hj]
    have hall : allPages smallLink =
        ((276 :: 277 :: 278 :: List.range' 279 57065 : List ℕ) : Multiset ℕ) := by
      unfold allPages phystopPage
      rfl
    rw [hall]
    generalize List.range' 279 57065 = l
    simp only [← Multiset.cons_coe, ← Multiset.singleton_add]
    abel
  · intro d' hd'
    obtain rfl : d' = 276 := by simpa using hd'
    constructor
    · intro x _ hp y _
      obtain rfl := loneWord_dir.mp hp
      change Present (loneWord x j (ptePage (loneWord x j 276 x)) y) ∨
        loneWord x j (ptePage (loneWord x j 276 x)) y = 0
      rw [loneWord_page.1]
      by_cases hy : y = j
      · exact Or.inl (loneWord_table.mpr hy)
      · right
        unfold loneWord
        rw [if_neg (by simp), if_neg fun hh => hy hh.2]
    · intro x _ hx hp
      obtain rfl := loneWord_dir.mp hp
      omega

/-- A second page can be mapped, with any permissions and any contents. -/
theorem exists_pair {i j : ℕ} (v perm : ℕ) (ws : ℕ → ℕ) (hi : i < userEntries) (hj : j < npentries)
    (hv : v < kernbasePage) (hperm : perm < pgsize) (hzero : pteAt (loneWord i j) 276 v = 0) :
    ∃ s, Owns smallLink s 0 (276 ::ₘ 0) ∧ s.hole = false ∧ 57000 ≤ s.freelist.length ∧
      (∀ u < topPage, pteAt s.word 276 u =
        if u = v then mkPte 279 perm else pteAt (loneWord i j) 276 u) ∧
      s.word 279 = ws ∧ s.word 278 = loneWord i j 278 ∧
      ∀ x, Present (s.word 276 x) ↔ x = i ∨ x = v / npentries := by
  have htop := kernbase_lt_top hv
  have howns := loneMemory_owns hi hj
  have htaken := howns.take (show (loneMemory i j).freelist = 279 :: List.range' 280 57064 from rfl)
  have hout : 279 ∉ skeleton (loneWord i j) 276 :=
    Owns.notMem_skeleton (htaken.plain_notMem (Multiset.mem_cons_self 279 0)
      (Multiset.mem_cons_self 276 0))
  have hsame : SameTables (loneWord i j) (fillPage (loneWord i j) 279 ws) 276 :=
    SameTables.of_page hout fun m hm => fillPage_other hm
  have hfilled : Owns smallLink { loneMemory i j with
      freelist := List.range' 280 57064
      word := fillPage (loneWord i j) 279 ws } (279 ::ₘ 0) (276 ::ₘ 0) := by
    refine htaken.move (fun d hd => ?_) rfl rfl
    obtain rfl : d = 276 := by simpa using hd
    exact hsame
  obtain ⟨ok, s, -, ⟨hext, ⟨⟨-, hres⟩, hpte⟩, htab⟩, hmarks⟩ := Exec.wp_total (Exec.wp_keeps
    (total_and (mapOne_extends hfilled htop ((hsame.pteAt_eq htop).trans hzero))
      (Exec.wlp_and (Exec.wlp_and (mapOne_user hfilled hv hperm) (mapOne_pteAt hfilled htop))
        (mapOne_tabled hfilled htop))) (keeps_mappages 276 1 v 279 perm))
  have hdir : fillPage (loneWord i j) 279 ws 276 = loneWord i j 276 := hsame.dir
  have hlen : (List.range' 280 57064).length = 57064 := List.length_range'
  obtain ⟨rfl, hroom, htables⟩ : ok = true ∧ 57000 ≤ s.freelist.length ∧
      ∀ x, Present (s.word 276 x) ↔ x = i ∨ x = v / npentries := by
    cases htab with
    | found hp hfree _ hdir' =>
        simp only [hdir] at hp hdir'
        refine ⟨rfl, by rw [hfree]; simp only; omega, fun x => ?_⟩
        rw [hdir', loneWord_dir, loneWord_dir.mp hp, or_self]
    | made t hp _ hfree _ hdir' =>
        simp only [hdir] at hp hdir'
        have hlist := congrArg List.length hfree
        simp only [List.length_cons] at hlist
        refine ⟨rfl, by omega, fun x => ?_⟩
        rw [hdir']
        rcases eq_or_ne x (v / npentries) with rfl | hne
        · rw [Function.update_self]
          exact iff_of_true (mkPte_present _ _) (Or.inr rfl)
        · rw [Function.update_of_ne hne, loneWord_dir]
          exact (or_iff_left hne).symm
    | denied _ hrefusal => simp [refused, hlen, loneMemory] at hrefusal
  rw [if_pos rfl] at hres
  refine ⟨s, hres.1, Memory.hole_of_marks hmarks, hroom, fun u hu => ?_, ?_, ?_, htables⟩
  · rw [hpte u hu, hsame.pteAt_eq hu]
    simp only [and_true]
  · have hfull : fillPage (loneWord i j) 279 ws 279 = ws := fillPage_same
    exact (hext.frame hfilled (Multiset.mem_cons_self 279 0)).trans hfull
  · have hkept : fillPage (loneWord i j) 279 ws 278 = loneWord i j 278 :=
      fillPage_other (by decide)
    refine (hext.words 278 ?_ fun hmem => ?_).trans hkept
    · simp only [List.mem_range'_1]
      omega
    · unfold skeleton at hmem
      rw [hsame.tables_eq] at hmem
      change 278 ∈ skeleton (loneWord i j) 276 at hmem
      rw [loneWord_skeleton hi] at hmem
      simp at hmem

/-- The pages `0` and `2048` of an address space without a table for those in between. -/
theorem deallocuvm_removes_range_lone : ∃ s,
    Owns smallLink s 0 (276 ::ₘ 0) ∧ Present (pteAt s.word 276 0) ∧ ¬Present (s.word 276 1) ∧
      Present (pteAt s.word 276 2048) ∧ RemovesRange smallLink 276 (2049 * pgsize) 0 s := by
  have hdiv : 2048 / npentries = 2 := by simp [npentries]
  have hzero : pteAt (loneWord 0 0) 276 2048 = 0 := by
    rw [pteAt, hdiv, if_neg]
    rw [loneWord_dir]
    decide
  obtain ⟨s, howns, -, -, hpte, -, -, htables⟩ := exists_pair 2048 pteWU (fun _ => 0)
    (by simp [userEntries]) (by simp [npentries]) (by decide) (by decide) hzero
  refine ⟨s, howns, ?_, ?_, ?_, (deallocuvm_removes_range_iff howns (by decide)
    (by decide)).mpr ?_⟩
  · rw [hpte 0 (by decide), if_neg (by decide)]
    exact loneWord_pteAt (Nat.zero_div npentries) (Nat.zero_mod npentries)
  · rw [htables, hdiv]
    decide
  · rw [hpte 2048 (by decide), if_pos rfl]
    exact mkPte_present _ _
  · intro u _ _ _ hidx
    have hzero : pagesOf 0 % npentries = 0 := Nat.zero_mod npentries
    rw [hzero] at hidx
    exact absurd hidx (Nat.not_lt_zero _)

/-- The directory has no table at the index `0`, and the loop that starts at the page `1` goes
on at the page `1025`.  The page `1024`, the last of the address space, stays. -/
theorem deallocuvm_skips_page :
    ¬RemovesRange smallLink 276 (1025 * pgsize) pgsize (loneMemory 1 0) := by
  rintro ⟨s', hret, hgone, -⟩
  have howns := loneMemory_owns (i := 1) (j := 0) (by simp [userEntries]) (by simp [npentries])
  obtain ⟨r, s₁, hret₁, -, hs₁⟩ := Exec.wp_total
    (deallocuvm_removed howns (show pgsize < 1025 * pgsize by decide) (by decide))
  rw [hret] at hret₁
  obtain ⟨-, rfl⟩ := Prod.mk.inj hret₁
  have hold : pagesOf (1025 * pgsize) = 1025 := by decide
  have hnew : pagesOf pgsize = 1 := by decide
  rw [hold, hnew] at hs₁ hgone
  have hdiv : 1024 / npentries = 1 := by simp [npentries]
  have hmod : 1024 % npentries = 0 := by simp [npentries]
  have hskipped : ¬Examined (loneWord 1 0 276) 1 1024 := by
    rintro ⟨-, -, hidx | ⟨i, hi, -, hp⟩⟩
    · rw [hmod] at hidx
      simp [npentries] at hidx
    · rw [loneWord_dir.mp hp, hdiv] at hi
      exact absurd hi (lt_irrefl 1)
  have hpte := hs₁.entries 1024 (by decide)
  rw [if_neg fun hh => hskipped hh.2] at hpte
  apply hgone 1024 (by decide) (by decide)
  rw [hpte]
  exact loneWord_pteAt hdiv hmod

end Vm

end Xv6
