import Xv6.Support.Choice
import Xv6.Vm.Entries
import Xv6.Vm.Ownership

/-!
# What can happen

The specifications of `Xv6.Vm.PageSpec` say what holds if a function returns.
Here it is shown that the functions do return when pages are left, with `kalloc`
failing only where it is meant to.  `Building` describes an address space that is
being filled: the entries still to be set are vacant, so that `mappages` does not
find a page mapped already, and there are enough free pages for the tables that
are missing.
-/

namespace Xv6

namespace Vm

open Support

variable {L : Link} {s : Memory} {plain rest : Multiset ℕ} {d n v t j lo spare : ℕ}

/-- With some failures of `kalloc` the function returns. -/
abbrev Can {α : Type} (m : PageM α) (Q : α → Memory → Prop) (s : Memory) : Prop :=
  Exec.can Memory.withFails m Q s

theorem can_kalloc {α : Type} {ns : List ℕ} {f : Option ℕ → PageM α} {R : α → Memory → Prop}
    (h : s.freelist = n :: ns) (hf : Can (f (some n)) R { s with freelist := ns }) :
    Can (kalloc >>= f) R s := by
  refine Exec.can_bind (Q := fun r s' => r = some n ∧ s' = { s with freelist := ns })
    ⟨[false], some n, _, fun rest => ?_, rfl, rfl⟩ ?_
  · simp [kalloc, Memory.withFails, h]
  · rintro r s' ⟨hr, hs⟩
    rw [hr, hs]
    exact hf

/-- `kalloc` may also fail although there are pages. -/
theorem can_kalloc_none {α : Type} {ns : List ℕ} {f : Option ℕ → PageM α}
    {R : α → Memory → Prop} (h : s.freelist = n :: ns) (hf : Can (f none) R s) :
    Can (kalloc >>= f) R s := by
  refine Exec.can_bind (Q := fun r s' => r = none ∧ s' = s)
    ⟨[true], none, s, fun rest => ?_, rfl, rfl⟩ ?_
  · simp [kalloc, Memory.withFails, h]
  · rintro r s' ⟨hr, hs⟩
    rw [hr, hs]
    exact hf

theorem Owns.withFails {dirs : Multiset ℕ} (h : Owns L s plain dirs) (fails : List Bool) :
    Owns L (s.withFails fails) plain dirs :=
  ⟨h.balance, h.wellFormed⟩

theorem Owns.of_withFails {dirs : Multiset ℕ} {fails : List Bool}
    (h : Owns L (s.withFails fails) plain dirs) : Owns L s plain dirs :=
  ⟨h.balance, h.wellFormed⟩

theorem EntryAt.congr {word word' : ℕ → ℕ → ℕ} (h : EntryAt word d v t j)
    (hdir : word' d = word d) : EntryAt word' d v t j := by
  refine ⟨?_, ?_, h.index⟩
  · rw [hdir]
    exact h.present
  · rw [hdir]
    exact h.table

/-! ## Address spaces under construction -/

/-- Nothing is mapped at the virtual page `v`. -/
def Vacant (word : ℕ → ℕ → ℕ) (d v : ℕ) : Prop :=
  Present (word d (v / npentries)) →
    ¬Present (word (ptePage (word d (v / npentries))) (v % npentries))

/-- The number of tables missing from entry `lo` of the directory on. -/
def missing (word : ℕ → ℕ → ℕ) (d lo : ℕ) : ℕ :=
  ((Finset.Ico lo npentries).filter fun i => ¬Present (word d i)).card

theorem missing_congr {word word' : ℕ → ℕ → ℕ} (h : word' d = word d) :
    missing word' d lo = missing word d lo := by
  unfold missing
  rw [h]

theorem missing_le (word : ℕ → ℕ → ℕ) (d lo : ℕ) : missing word d lo ≤ npentries - lo := by
  unfold missing
  refine (Finset.card_filter_le _ _).trans ?_
  simp

/-- Adding a table. -/
theorem missing_putWord {word : ℕ → ℕ → ℕ} {i w : ℕ} (hlo : lo ≤ i) (hi : i < npentries)
    (hp : ¬Present (word d i)) (hw : Present w) :
    missing (putWord word d i w) d lo + 1 = missing word d lo := by
  have hmem : i ∈ (Finset.Ico lo npentries).filter fun i => ¬Present (word d i) := by
    simp only [Finset.mem_filter, Finset.mem_Ico]
    exact ⟨⟨hlo, hi⟩, hp⟩
  have herase : ((Finset.Ico lo npentries).filter fun k => ¬Present (putWord word d i w d k)) =
      ((Finset.Ico lo npentries).filter fun k => ¬Present (word d k)).erase i := by
    ext k
    simp only [Finset.mem_filter, Finset.mem_erase]
    rcases eq_or_ne k i with rfl | hne
    · rw [putWord_same]
      simp [hw]
    · rw [putWord_other_index hne]
      simp [hne]
  unfold missing
  rw [herase, Finset.card_erase_of_mem hmem]
  have := Finset.card_pos.mpr ⟨i, hmem⟩
  omega

theorem mem_skeleton {word : ℕ → ℕ → ℕ} {x : ℕ} : x ∈ skeleton word d ↔
    x = d ∨ ∃ i < npentries, Present (word d i) ∧ ptePage (word d i) = x := by
  unfold skeleton tables
  rw [Multiset.mem_add, Multiset.mem_singleton, Multiset.mem_sum]
  refine or_congr_right ?_
  constructor
  · rintro ⟨i, hi, hx⟩
    by_cases hp : Present (word d i)
    · rw [entry_of_present hp, Multiset.mem_singleton] at hx
      exact ⟨i, Finset.mem_range.mp hi, hp, hx.symm⟩
    · rw [entry_of_not_present hp] at hx
      simp at hx
  · rintro ⟨i, hi, hp, rfl⟩
    refine ⟨i, Finset.mem_range.mpr hi, ?_⟩
    rw [entry_of_present hp, Multiset.mem_singleton]

/-- The address space of `d` while it is filled: vacant where `P` says so and
without the tables that `B` names, with `spare` free pages besides those for the
missing tables.  The pages in `keep` hold `held`. -/
structure Building (L : Link) (s : Memory) (plain rest : Multiset ℕ) (d lo spare : ℕ)
    (P B keep : ℕ → Prop) (held : ℕ → ℕ → ℕ) : Prop where
  owns : Owns L s plain (d ::ₘ rest)
  vacant : ∀ u < topPage, P u → Vacant s.word d u
  bare : ∀ i < npentries, B i → ¬Present (s.word d i)
  room : missing s.word d lo + spare ≤ s.freelist.length
  apart : ∀ x, keep x → x ∉ s.freelist ∧ x ∉ skeleton s.word d ∧ s.word x = held x

variable {P B keep : ℕ → Prop} {held : ℕ → ℕ → ℕ}

/-- Storing one entry. -/
theorem Building.setEntry {plain' : Multiset ℕ} {w : ℕ}
    (h : Building L s plain rest d lo spare P B keep held) (hv : v < topPage)
    (hat : EntryAt s.word d v t j)
    (howns : Owns L { s with word := putWord s.word t j w } plain' (d ::ₘ rest)) :
    Building L { s with word := putWord s.word t j w } plain' rest d lo spare
      (fun u => P u ∧ u ≠ v) B keep held := by
  have hnd := h.owns.skeleton_nodup (Multiset.mem_cons_self d rest)
  have hdir := hat.dir_eq (w := w) hnd hv
  have ht : t ∈ skeleton s.word d := by
    rw [← hat.table]
    exact mem_skeleton_table (dirIndex_lt hv) hat.present
  refine ⟨howns, ?_, ?_, ?_, ?_⟩
  · rintro u hu ⟨hP, hne⟩
    have hvac := h.vacant u hu hP
    unfold Vacant
    simp only [hdir]
    intro hp
    have hkey : ¬(ptePage (s.word d (u / npentries)) = t ∧ u % npentries = j) := by
      rintro ⟨htab, hidx⟩
      have hsame : u / npentries = v / npentries := by
        refine table_inj (Multiset.nodup_add.mp hnd).2.1 (dirIndex_lt hu) (dirIndex_lt hv) hp
          hat.present ?_
        rw [htab, hat.table]
      rw [hat.index] at hidx
      apply hne
      rw [← Nat.div_add_mod u npentries, ← Nat.div_add_mod v npentries, hsame, hidx]
    rw [putWord, if_neg hkey]
    exact hvac hp
  · intro i hi hB
    simp only [hdir]
    exact h.bare i hi hB
  · rw [show missing _ d lo = missing s.word d lo from missing_congr hdir]
    exact h.room
  · intro x hx
    obtain ⟨hfree, hskel, hheld⟩ := h.apart x hx
    refine ⟨hfree, ?_, ?_⟩
    · rw [mem_skeleton] at hskel ⊢
      simp only [hdir]
      exact hskel
    · rw [← hheld]
      apply putWord_other_page
      rintro rfl
      exact hskel ht

/-- Adding a table. -/
theorem Building.addTable {ns : List ℕ} (h : Building L s plain rest d lo spare P B keep held)
    (hv : v < topPage) (hlo : lo ≤ v / npentries) (hB : ¬B (v / npentries))
    (hp : ¬Present (s.word d (v / npentries))) (hfree : s.freelist = t :: ns)
    (howns : Owns L { s with
      freelist := ns
      word := putWord (fillPage s.word t fun _ => 0) d (v / npentries)
        (mkPte t pteWU) } plain (d ::ₘ rest)) :
    Building L { s with
      freelist := ns
      word := putWord (fillPage s.word t fun _ => 0) d (v / npentries)
        (mkPte t pteWU) } plain rest d lo spare P B keep held := by
  have hnotin : ∀ x ∈ skeleton s.word d, x ≠ t := by
    rintro x hx rfl
    have hnd := h.owns.nodup
    rw [hfree, add_assoc] at hnd
    have hdisj := (Multiset.nodup_add.mp hnd).2.2
    have hhead : x ∈ ((x :: ns : List ℕ) : Multiset ℕ) := by simp
    refine Multiset.disjoint_left.mp hdisj hhead ?_
    refine Multiset.mem_add.mpr (Or.inr (Multiset.mem_of_le
      (Owns.footprint_le s.word (Multiset.mem_cons_self d rest)) ?_))
    unfold footprint
    exact Multiset.mem_add.mpr (Or.inl hx)
  have htd : d ≠ t := hnotin d (mem_skeleton_self s.word d)
  have hdir : ∀ i, i ≠ v / npentries → putWord (fillPage s.word t fun _ => 0)
      d (v / npentries) (mkPte t pteWU) d i = s.word d i := by
    intro i hi
    rw [putWord_other_index hi, fillPage_other htd]
  refine ⟨howns, ?_, ?_, ?_, ?_⟩
  · intro u hu hP hpres
    simp only at hpres ⊢
    rcases eq_or_ne (u / npentries) (v / npentries) with heq | hne
    · rw [heq, putWord_same, mkPte_page (by decide), putWord_other_page htd.symm, fillPage_same]
      simp [Present]
    · rw [hdir _ hne] at hpres ⊢
      have hmem := mem_skeleton_table (dirIndex_lt hu) hpres
      have hnd := h.owns.skeleton_nodup (Multiset.mem_cons_self d rest)
      have htab := table_ne_dir hnd (dirIndex_lt hu) hpres
      rw [putWord_other_page htab, fillPage_other (hnotin _ hmem)]
      exact h.vacant u hu hP hpres
  · intro i hi hBi
    have hne : i ≠ v / npentries := by
      rintro rfl
      exact hB hBi
    simp only
    rw [hdir i hne]
    exact h.bare i hi hBi
  · have hroom := h.room
    rw [hfree, List.length_cons] at hroom
    have habsent : ¬Present (fillPage s.word t (fun _ => 0) d (v / npentries)) := by
      rw [fillPage_other htd]
      exact hp
    have hmiss := missing_putWord hlo (dirIndex_lt hv) habsent (mkPte_present t pteWU)
    have hbase : missing (fillPage s.word t fun _ => 0) d lo = missing s.word d lo :=
      missing_congr (fillPage_other htd)
    simp only
    omega
  · intro x hx
    obtain ⟨hxfree, hskel, hheld⟩ := h.apart x hx
    rw [hfree] at hxfree
    have hxt : x ≠ t := fun heq => hxfree (by simp [heq])
    refine ⟨fun hmem => hxfree (by simp [hmem]), ?_, ?_⟩
    · intro hmem
      rcases mem_skeleton.mp hmem with rfl | ⟨i, hi, hpres, hpage⟩
      · exact hskel (mem_skeleton_self s.word _)
      · simp only at hpres hpage
        rcases eq_or_ne i (v / npentries) with rfl | hne
        · rw [putWord_same, mkPte_page (by decide)] at hpage
          exact hxt hpage.symm
        · rw [hdir i hne] at hpres hpage
          exact hskel (mem_skeleton.mpr (Or.inr ⟨i, hi, hpres, hpage⟩))
    · have hxd : x ≠ d := by
        rintro rfl
        exact hskel (mem_skeleton_self s.word _)
      simp only
      rw [putWord_other_page hxd, fillPage_other hxt]
      exact hheld

/-- `walkpgdir` finds or makes the table for `v`. -/
theorem can_walk (h : Building L s plain rest d lo spare P B keep held) (hv : v < topPage)
    (hlo : lo ≤ v / npentries) (hB : ¬B (v / npentries)) :
    Can (walkpgdir d v true) (fun r s' => ∃ t j, r = some (t, j) ∧ EntryAt s'.word d v t j ∧
      Building L s' plain rest d lo spare P B keep held ∧ s'.record = s.record) s := by
  by_cases hp : Present (s.word d (v / npentries))
  · refine Exec.can_gets (fun _ => rfl) ?_
    rw [if_pos hp]
    exact Exec.can_pure ⟨_, _, rfl, ⟨hp, rfl, rfl⟩, h, rfl⟩
  · -- a table is missing, so there is a free page
    have hpos : 0 < missing s.word d lo := by
      unfold missing
      rw [Finset.card_pos]
      refine ⟨v / npentries, ?_⟩
      rw [Finset.mem_filter, Finset.mem_Ico]
      exact ⟨⟨hlo, dirIndex_lt hv⟩, hp⟩
    obtain ⟨t, ns, hfree⟩ : ∃ t ns, s.freelist = t :: ns := by
      cases hlist : s.freelist with
      | nil =>
          have hroom := h.room
          rw [hlist, List.length_nil] at hroom
          omega
      | cons t ns => exact ⟨t, ns, rfl⟩
    have hrun : Can (walkpgdir d v true) (fun r s' => r = some (t, v % npentries) ∧
        s' = { s with
          freelist := ns
          word := putWord (fillPage s.word t fun _ => 0) d (v / npentries) (mkPte t pteWU) }) s := by
      refine Exec.can_gets (fun _ => rfl) ?_
      rw [if_neg hp, if_neg (by simp)]
      refine can_kalloc hfree ?_
      refine Exec.can_modify (fun _ => rfl) (Exec.can_modify (fun _ => rfl) ?_)
      exact Exec.can_pure ⟨rfl, rfl⟩
    refine Exec.can_mono (Exec.can_wlp hrun
      fun cs => walkpgdir_true_spec (h.owns.withFails cs) hv) ?_
    rintro r s' ⟨⟨rfl, rfl⟩, cs, ds, howns, -, hat, -⟩
    exact ⟨t, _, rfl, hat, h.addTable hv hlo hB hp hfree howns.of_withFails, rfl⟩

/-- The page for a missing table may be refused. -/
theorem can_walk_refused {ns : List ℕ} (hp : ¬Present (s.word d (v / npentries)))
    (hfree : s.freelist = n :: ns) :
    Can (walkpgdir d v true) (fun r s' => r = none ∧ s'.word = s.word ∧
      s'.freelist = s.freelist ∧ s'.starved = true) s := by
  refine Exec.can_gets (fun _ => rfl) ?_
  rw [if_neg hp, if_neg (by simp)]
  refine can_kalloc_none hfree ?_
  exact Exec.can_modify (fun _ => rfl) (Exec.can_pure ⟨rfl, rfl, rfl, rfl⟩)

theorem Building.mono {P' : ℕ → Prop} (h : Building L s plain rest d lo spare P B keep held)
    (hP : ∀ u, P' u → P u) : Building L s plain rest d lo spare P' B keep held :=
  ⟨h.owns, fun u hu hPu => h.vacant u hu (hP u hPu), h.bare, h.room, h.apart⟩

theorem Building.bare_mono {B' : ℕ → Prop}
    (h : Building L s plain rest d lo spare P B keep held) (hB : ∀ i, B' i → B i) :
    Building L s plain rest d lo spare P B' keep held :=
  ⟨h.owns, h.vacant, fun i hi hBi => h.bare i hi (hB i hBi), h.room, h.apart⟩

theorem Building.entry_vacant (h : Building L s plain rest d lo spare P B keep held)
    (hv : v < topPage) (hP : P v) (hat : EntryAt s.word d v t j) : ¬Present (s.word t j) := by
  have hvac := h.vacant v hv hP hat.present
  rw [hat.table, ← hat.index] at hvac
  exact hvac

/-- A page below `KERNBASE` can be mapped. -/
theorem can_mapOne {perm : ℕ} (h : Building L s (n ::ₘ plain) rest d lo spare P B keep held)
    (hv : v < kernbasePage) (hlo : lo ≤ v / npentries) (hB : ¬B (v / npentries)) (hP : P v)
    (hperm : perm < pgsize) :
    Can (mappages d 1 v n perm) (fun r s' => r = true ∧
      Building L s' plain rest d lo spare (fun u => P u ∧ u ≠ v) B keep held ∧
      s'.record = s.record ∧ ∃ t j, EntryAt s'.word d v t j ∧
        s'.word t j = mkPte n perm) s := by
  have htop : v < topPage := by
    unfold kernbasePage topPage at *
    omega
  refine Exec.can_bind (can_walk h htop hlo hB) ?_
  rintro _ s1 ⟨t, j, rfl, hat, h1, hrec⟩
  have hp := h1.entry_vacant htop hP hat
  have hnd := h1.owns.skeleton_nodup (Multiset.mem_cons_self d rest)
  refine Exec.can_gets (fun _ => rfl) ?_
  rw [if_neg hp]
  refine Exec.can_modify (fun _ => rfl) (Exec.can_pure
    ⟨rfl, ?_, hrec, t, j, ?_, putWord_same⟩)
  · refine h1.setEntry htop hat ?_
    refine h1.owns.setEntry htop hat (Or.inl (mkPte_present n perm)) (fun hge => by omega) ?_
    have huser := (user_iff htop).mpr hv
    rw [userEntry, userEntry, if_pos huser, if_pos huser, entry_of_not_present hp,
      entry_of_present (mkPte_present n perm), mkPte_page hperm, add_zero,
      ← Multiset.singleton_add, add_comm]
  · exact hat.putWord hnd htop

/-- The kernel can be mapped. -/
theorem can_mappages_kernel {k perm : ℕ} (hperm : perm = 0 ∨ perm = pteW)
    (h : Building L s plain rest d lo spare P B keep held) (hlow : kernbasePage ≤ v)
    (hhigh : v + k ≤ topPage) (hlo : lo ≤ v / npentries)
    (hbare : ∀ i, B i → i < userEntries) (hP : ∀ u, v ≤ u → u < v + k → P u) :
    Can (mappages d k v n perm) (fun r s' => r = true ∧
      Building L s' plain rest d lo spare (fun u => P u ∧ ¬(v ≤ u ∧ u < v + k)) B keep held ∧
      s'.starved = s.starved) s := by
  induction k generalizing s v n P with
  | zero => exact Exec.can_pure ⟨rfl, h.mono fun u hu => hu.1, rfl⟩
  | succ k ih =>
      have htop : v < topPage := by omega
      have hB : ¬B (v / npentries) := by
        intro hBi
        have := (user_iff htop).mp (hbare _ hBi)
        omega
      refine Exec.can_bind (can_walk h htop hlo hB) ?_
      rintro _ s1 ⟨t, j, rfl, hat, h1, hrec⟩
      have hp := h1.entry_vacant htop (hP v le_rfl (by omega)) hat
      refine Exec.can_gets (fun _ => rfl) ?_
      rw [if_neg hp]
      refine Exec.can_modify (fun _ => rfl) ?_
      have h2 := h1.setEntry htop hat (h1.owns.setKernelEntry (n := n) hperm hlow htop hat)
      refine Exec.can_mono (ih (v := v + 1) h2 (by omega) (by omega) ?_ ?_) ?_
      · exact hlo.trans (Nat.div_le_div_right (by omega))
      · intro u hlo hhi
        exact ⟨hP u (by omega) (by omega), by omega⟩
      · rintro r s3 ⟨hr, h3, hstarved3⟩
        exact ⟨hr, h3.mono fun u hu => ⟨⟨hu.1, by omega⟩, by omega⟩, hstarved3.trans (Memory.starved_of_record hrec)⟩

/-- The ranges of `kmap` follow one another. -/
def Ascending : ℕ → List (ℕ × ℕ × ℕ × ℕ) → Prop
  | _, [] => True
  | v, k :: ks => v ≤ k.1 ∧ k.1 + (k.2.2.1 - k.2.1) ≤ topPage ∧
      (k.2.2.2 = 0 ∨ k.2.2.2 = pteW) ∧ Ascending (k.1 + (k.2.2.1 - k.2.1)) ks

theorem ascending_kmap (L : Link) : Ascending kernbasePage (kmap L) := by
  have h1 := L.text_lt
  have h2 := L.data_le
  have h3 := L.kend_le
  unfold extmemPage at h1
  simp only [kmap, Ascending, phystopPage, kernbasePage, extmemPage, devspacePage, topPage, pteW]
  refine ⟨by omega, by omega, by simp, by omega, by omega, by simp, by omega, by omega, by simp,
    by omega, by omega, by simp, trivial⟩

theorem can_mapKernel {ks : List (ℕ × ℕ × ℕ × ℕ)} (hks : Ascending v ks)
    (hlow : kernbasePage ≤ v) (hlo : lo ≤ v / npentries) (hbare : ∀ i, B i → i < userEntries)
    (h : Building L s plain rest d lo spare (fun u => v ≤ u ∨ u < kernbasePage) B keep held) :
    Can (mapKernel d ks) (fun r s' => r = true ∧
      Building L s' plain rest d lo spare (fun u => u < kernbasePage) B keep held ∧
      s'.starved = s.starved) s := by
  induction ks generalizing s v with
  | nil => exact Exec.can_pure ⟨rfl, h.mono fun u hu => Or.inr hu, rfl⟩
  | cons k ks ih =>
      obtain ⟨virt, physStart, physEnd, perm⟩ := k
      obtain ⟨hle, htop, hperm, hrest⟩ := hks
      simp only at hle htop hperm hrest
      have hdiv : lo ≤ virt / npentries := hlo.trans (Nat.div_le_div_right hle)
      refine Exec.can_bind (can_mappages_kernel hperm h (by omega) htop hdiv hbare
        fun u hu _ => Or.inl (by omega)) ?_
      rintro _ s1 ⟨rfl, h1, hstarved⟩
      rw [if_pos rfl]
      refine Exec.can_mono (ih hrest (by omega) (hdiv.trans (Nat.div_le_div_right (by omega)))
        (h1.mono ?_)) ?_
      · intro u hu
        rcases hu with hu | hu
        · exact ⟨Or.inl (by omega), by omega⟩
        · exact ⟨Or.inr hu, by omega⟩
      · rintro r s2 ⟨hr, h2, hstarved2⟩
        exact ⟨hr, h2, hstarved2.trans hstarved⟩

theorem Owns.take {ns : List ℕ} {dirs : Multiset ℕ} (h : Owns L s plain dirs)
    (hfree : s.freelist = n :: ns) : Owns L { s with freelist := ns } (n ::ₘ plain) dirs := by
  refine h.move (fun _ _ _ _ => rfl) ?_ rfl
  rw [hfree, ← Multiset.cons_coe, Multiset.cons_add, Multiset.add_cons]

/-- With enough free pages a new address space can be made. -/
theorem can_setupkvm {ns : List ℕ} (lo spare : ℕ) (keep : ℕ → Prop) (held : ℕ → ℕ → ℕ)
    (h : Owns L s plain rest) (hfree : s.freelist = d :: ns)
    (hlo : lo ≤ userEntries) (hroom : npentries - lo + spare ≤ ns.length)
    (hkeep : ∀ x, keep x → x ∉ s.freelist ∧ s.word x = held x) :
    Can (setupkvm L) (fun r s' => r = some d ∧
      Building L s' plain rest d lo spare (fun u => u < kernbasePage)
        (fun i => i < userEntries) keep held ∧ s'.starved = s.starved) s := by
  refine can_kalloc hfree (Exec.can_modify (fun _ => rfl) ?_)
  have h1 := h.take hfree
  have h2 : Owns L { s with freelist := ns, word := fillPage s.word d fun _ => 0 }
      (d ::ₘ plain) rest := by
    refine h1.move (fun d' hd' => ?_) rfl rfl
    refine SameTables.of_page (n := d) ?_ fun m hm => fillPage_other hm
    exact Owns.notMem_skeleton (h1.plain_notMem (Multiset.mem_cons_self d plain) hd')
  have hzero : fillPage s.word d (fun _ => 0) d = fun _ => 0 := fillPage_same
  have h3 : Building L { s with freelist := ns, word := fillPage s.word d fun _ => 0 } plain rest d
      lo spare (fun u => kernbasePage ≤ u ∨ u < kernbasePage)
      (fun i => i < userEntries) keep held := by
    refine ⟨h2.newDir hzero, ?_, ?_, ?_, ?_⟩
    · intro u _ _ hp
      simp only [hzero] at hp
      simp [Present] at hp
    · intro i _ _
      simp only [hzero]
      simp [Present]
    · have := missing_le (fillPage s.word d fun _ => 0) d lo
      simp only
      omega
    · intro x hx
      obtain ⟨hxfree, hheld⟩ := hkeep x hx
      rw [hfree] at hxfree
      have hxd : x ≠ d := fun heq => hxfree (by simp [heq])
      refine ⟨fun hmem => hxfree (by simp [hmem]), ?_, ?_⟩
      · intro hmem
        rcases mem_skeleton.mp hmem with rfl | ⟨i, -, hp, -⟩
        · exact hxd rfl
        · simp only [hzero] at hp
          simp [Present] at hp
      · simp only
        rw [fillPage_other hxd]
        exact hheld
  have hlo' : lo ≤ kernbasePage / npentries := by
    unfold userEntries at hlo
    unfold kernbasePage npentries
    omega
  refine Exec.can_bind (can_mapKernel (ascending_kmap L) le_rfl hlo' (fun _ hi => hi) h3) ?_
  rintro _ s4 ⟨rfl, h4, hstarved⟩
  rw [if_pos rfl]
  exact Exec.can_pure ⟨rfl, h4, hstarved⟩

/-! ## User pages -/

/-- Only the record changes. -/
theorem Building.congr {s' : Memory} (h : Building L s plain rest d lo spare P B keep held)
    (hword : s'.word = s.word) (hfree : s'.freelist = s.freelist)
    (hstarved : s'.starved = s.starved) :
    Building L s' plain rest d lo spare P B keep held := by
  refine ⟨h.owns.move (fun d' _ m _ => congrFun hword m) ?_ hstarved, ?_, ?_, ?_, ?_⟩
  · rw [hfree]
  · rw [hword]
    exact h.vacant
  · rw [hword]
    exact h.bare
  · rw [hword, hfree]
    exact h.room
  · rw [hword, hfree]
    exact h.apart

/-- Taking a free page and filling it. -/
theorem Building.take {ns : List ℕ}
    (h : Building L s plain rest d lo (spare + 1) P B keep held) (hfree : s.freelist = n :: ns)
    (ws : ℕ → ℕ) :
    Building L { s with freelist := ns, word := fillPage s.word n ws } (n ::ₘ plain) rest d lo spare
      P B keep held := by
  have h1 := h.owns.take hfree
  have hout : ∀ d' ∈ d ::ₘ rest, n ∉ skeleton s.word d' := fun d' hd' =>
    Owns.notMem_skeleton (h1.plain_notMem (Multiset.mem_cons_self n plain) hd')
  have hsame : SameTables s.word (fillPage s.word n ws) d :=
    SameTables.of_page (hout d (Multiset.mem_cons_self d rest)) fun m hm => fillPage_other hm
  refine ⟨h1.move (fun d' hd' => ?_) rfl rfl, ?_, ?_, ?_, ?_⟩
  · exact SameTables.of_page (hout d' hd') fun m hm => fillPage_other hm
  · intro u hu hP hp
    simp only [hsame.dir] at hp ⊢
    rw [hsame.table (dirIndex_lt hu) hp]
    exact h.vacant u hu hP hp
  · intro i hi hB
    simp only [hsame.dir]
    exact h.bare i hi hB
  · have hroom := h.room
    rw [hfree, List.length_cons] at hroom
    rw [show missing _ d lo = missing s.word d lo from missing_congr hsame.dir]
    simp only
    omega
  · intro x hx
    obtain ⟨hxfree, hskel, hheld⟩ := h.apart x hx
    rw [hfree] at hxfree
    have hxn : x ≠ n := fun heq => hxfree (by simp [heq])
    refine ⟨fun hmem => hxfree (by simp [hmem]), ?_, ?_⟩
    · rw [mem_skeleton] at hskel ⊢
      simp only [hsame.dir]
      exact hskel
    · simp only
      rw [fillPage_other hxn]
      exact hheld

theorem Building.exists_free (h : Building L s plain rest d lo (spare + 1) P B keep held) :
    ∃ n ns, s.freelist = n :: ns := by
  cases hlist : s.freelist with
  | nil =>
      have hroom := h.room
      rw [hlist, List.length_nil] at hroom
      omega
  | cons n ns => exact ⟨n, ns, rfl⟩

/-- One page more for `allocuvm`. -/
theorem can_allocOne {k : ℕ} {R : Bool → Memory → Prop}
    (h : Building L s plain rest d 0 (spare + 1) (fun u => v ≤ u ∧ u < kernbasePage) B keep held)
    (hv : v < kernbasePage) (hB : ¬B (v / npentries))
    (hrest : ∀ s' n, n ∈ allPages L →
      Building L s' plain rest d 0 spare (fun u => v + 1 ≤ u ∧ u < kernbasePage) B keep held →
      s'.trace = .grant n :: s.trace → s'.hole = s.hole →
      Present (s'.word d (v / npentries)) → (∀ u < topPage, pteAt s'.word d u =
        if u = v then mkPte n pteWU else pteAt s.word d u) → Can (allocFrom d k (v + 1)) R s') :
    Can (allocFrom d (k + 1) v) R s := by
  obtain ⟨n, ns, hfree⟩ := h.exists_free
  refine can_kalloc hfree ?_
  refine Exec.can_modify (fun _ => rfl) (Exec.can_modify (fun _ => rfl) ?_)
  have h1 := h.take hfree fun _ => 0
  have hn : n ∈ allPages L := h1.owns.mem_allPages_of_plain (Multiset.mem_cons_self n plain)
  have h2 : Building L { s with
      freelist := ns
      word := fillPage s.word n fun _ => 0
      trace := .grant n :: s.trace } (n ::ₘ plain) rest d 0 spare
      (fun u => v ≤ u ∧ u < kernbasePage) B keep held := h1.congr rfl rfl rfl
  have hsame : SameTables s.word (fillPage s.word n fun _ => 0) d := by
    refine SameTables.of_page ?_ fun m hm => fillPage_other hm
    exact Owns.notMem_skeleton ((h.owns.take hfree).plain_notMem
      (Multiset.mem_cons_self n plain) (Multiset.mem_cons_self d rest))
  refine Exec.can_bind (Exec.can_wlp (can_mapOne h2 hv (Nat.zero_le _) hB ⟨le_rfl, hv⟩ (by decide))
    fun cs => mapOne_pteAt (h2.owns.withFails cs) (kernbase_lt_top hv)) ?_
  rintro _ s3 ⟨⟨rfl, h3, hrec, t, j, hat, -⟩, _, _, hpte⟩
  refine Exec.can_modify (fun _ => rfl) ?_
  have hhole : (s3.noteMapped true).hole = s.hole := by
    have hrec3 := Memory.hole_of_record hrec
    simp only [Memory.noteMapped, Bool.not_true, Bool.false_and, Bool.or_false]
    exact hrec3
  refine hrest _ n hn ?_ (Memory.trace_of_record hrec) hhole hat.present fun u hu => ?_
  · exact Building.congr (h3.mono fun u hu => ⟨⟨by omega, hu.2⟩, by omega⟩) rfl rfl rfl
  · refine (hpte u hu).trans ?_
    simp only [and_true]
    refine if_congr Iff.rfl rfl (hsame.pteAt_eq hu)

/-- With enough free pages the loop of `allocuvm` maps all of them. -/
theorem can_allocFrom {k : ℕ}
    (h : Building L s plain rest d 0 (k + spare) (fun u => v ≤ u ∧ u < kernbasePage) B keep held)
    (hv : v + k ≤ kernbasePage) (hB : ∀ u, v ≤ u → u < v + k → ¬B (u / npentries)) :
    Can (allocFrom d k v) (fun r s' => r = true ∧
      Building L s' plain rest d 0 spare (fun u => v + k ≤ u ∧ u < kernbasePage) B keep held ∧
      (∀ e ∈ s'.trace, e ∈ s.trace ∨ ∃ n ∈ allPages L, e = .grant n)) s := by
  induction k generalizing s v with
  | zero =>
      rw [Nat.zero_add] at h
      exact Exec.can_pure ⟨rfl, h, fun e he => Or.inl he⟩
  | succ k ih =>
      rw [show k + 1 + spare = k + spare + 1 by omega] at h
      refine can_allocOne h (by omega) (hB v le_rfl (by omega)) ?_
      intro s1 n hn h1 htrace1 _ _ _
      refine Exec.can_mono (ih h1 (by omega) fun u hlo hhi => hB u (by omega) (by omega)) ?_
      rintro r s2 ⟨hr, h2, htrace⟩
      refine ⟨hr, h2.mono fun u hu => ⟨by omega, hu.2⟩, fun e he => ?_⟩
      rcases htrace e he with hold | hnew
      · rw [htrace1] at hold
        rcases List.mem_cons.mp hold with rfl | hold
        · exact Or.inr ⟨n, hn, rfl⟩
        · exact Or.inl hold
      · exact Or.inr hnew

/-- The last page of `allocuvm` is left unmapped when the page for its table is
refused. -/
theorem can_allocHole (h : Building L s plain rest d 0 (spare + 2) P B keep held)
    (hv : v < topPage) (hB : B (v / npentries)) :
    Can (allocFrom d 1 v) (fun r s' => r = true ∧ s'.starved = true ∧
      Building L s' plain rest d 0 spare P B keep held ∧ s'.word d = s.word d) s := by
  obtain ⟨n, ns, hfree⟩ := h.exists_free
  refine can_kalloc hfree ?_
  refine Exec.can_modify (fun _ => rfl) (Exec.can_modify (fun _ => rfl) ?_)
  have h1 := h.take hfree fun _ => 0
  have hp := h1.bare _ (dirIndex_lt hv) hB
  have hdn : d ≠ n := by
    rintro rfl
    exact Owns.notMem_skeleton (h1.owns.plain_notMem (Multiset.mem_cons_self d plain)
      (Multiset.mem_cons_self d rest)) (mem_skeleton_self _ d)
  have hlast : ∀ {s' : Memory}, s'.word = fillPage s.word n (fun _ => 0) → s'.freelist = ns →
      s'.starved = true → Building L s' plain rest d 0 spare P B keep held := by
    intro s' hword hlist hstarved
    obtain ⟨lost, -, hbal⟩ := h1.owns.balance
    refine ⟨⟨⟨n ::ₘ lost, by simp [hstarved], ?_⟩, ?_⟩, ?_, ?_, ?_, ?_⟩
    · rw [hword, hlist, ← hbal]
      simp only [Multiset.add_cons, Multiset.cons_add]
    · rw [hword]
      exact h1.owns.wellFormed
    · rw [hword]
      exact h1.vacant
    · rw [hword]
      exact h1.bare
    · rw [hword, hlist]
      exact (Nat.le_succ _).trans h1.room
    · rw [hword, hlist]
      exact h1.apart
  obtain ⟨m, ms, hfree'⟩ := h1.exists_free
  refine Exec.can_bind (Q := fun r s' => r = false ∧ s'.word = fillPage s.word n (fun _ => 0) ∧
    s'.freelist = ns ∧ s'.starved = true) ?_ ?_
  · refine Exec.can_bind (can_walk_refused hp hfree') ?_
    rintro _ s2 ⟨rfl, hs2⟩
    exact Exec.can_pure ⟨rfl, hs2⟩
  · rintro _ s2 ⟨rfl, hword, hlist, hstarved⟩
    refine Exec.can_modify (fun _ => rfl) (Exec.can_pure ⟨rfl, hstarved,
      hlast hword hlist hstarved, ?_⟩)
    change s2.word d = s.word d
    rw [hword, fillPage_other hdn]

/-! ## Boot -/

theorem can_freerange {k : ℕ} (hlow : L.kend ≤ n) (hhigh : n + k ≤ phystopPage) :
    Can (freerange L k n) (fun _ s' => s'.freelist.length = s.freelist.length + k ∧
      s'.starved = s.starved) s := by
  induction k generalizing s n with
  | zero => exact Exec.can_pure ⟨rfl, rfl⟩
  | succ k ih =>
      unfold freerange kfree
      rw [if_neg (by omega)]
      refine Exec.can_modify (fun _ => rfl) ?_
      refine Exec.can_mono (ih (by omega) (by omega)) ?_
      rintro - s' ⟨hlen, hstarved⟩
      refine ⟨?_, hstarved⟩
      rw [hlen, List.length_cons]
      omega

/-- With some failures of `kalloc` the call returns. -/
abbrev CanCall {α : Type} (m : KernelM α) (Q : α → Kernel → Prop) (k : Kernel) : Prop :=
  Exec.can Kernel.withFails m Q k

theorem can_onMemory {α β : Type} {m : PageM α} {f : α → KernelM β} {P : α → Memory → Prop}
    {R : β → Kernel → Prop} {k : Kernel} (hm : Can m P k.mem)
    (hf : ∀ a s, P a s → CanCall (f a) R { k with mem := s }) :
    CanCall (onMemory m >>= f) R k := by
  refine Exec.can_bind (Q := fun a k' => ∃ s, P a s ∧ k' = { k with mem := s }) ?_ ?_
  · refine Exec.can_zoom (fun _ => rfl) (fun _ _ _ => rfl) (Exec.can_mono hm ?_)
    exact fun a s hs => ⟨s, hs, rfl⟩
  · rintro a _ ⟨s, hs, rfl⟩
    exact hf a s hs

/-- A kernel with one process, whose program has one page, at address 0, without open
files and with many free pages. -/
structure Ready (k : Kernel) (p : Slot) : Prop where
  init : k.initproc = p
  alive : (k.task p).state = .runnable
  others : ∀ q, q ≠ p → (k.task q).state = .unused
  closed : ∀ q fd, (k.task q).ofile fd = none
  size : (k.task p).sz = pgsize
  entry : ∃ t j n, EntryAt k.mem.word (k.task p).pgdir 0 t j ∧ k.mem.word t j = mkPte n pteWU
  room : 50000 ≤ k.mem.freelist.length
  fed : k.mem.starved = false

/-- A slot is found as long as one is free. -/
theorem can_allocproc {k : Kernel} {ns : List ℕ} {p : Slot} {Q : Option Slot → Kernel → Prop}
    (hp : (k.task p).state = .unused) (hfree : k.mem.freelist = n :: ns)
    (hQ : ∀ np, (k.task np).state = .unused → Q (some np) { k with
      mem := { k.mem with freelist := ns }
      task := Function.update k.task np { k.task np with state := .embryo, kstack := n } }) :
    CanCall allocproc Q k := by
  refine Exec.can_gets (fun _ => rfl) ?_
  cases hfind : (List.finRange nproc).find? fun p => (k.task p).state = .unused with
  | none =>
      have := List.find?_eq_none.mp hfind p (List.mem_finRange p)
      simp [hp] at this
  | some np =>
      have hnp : (k.task np).state = .unused := by simpa using List.find?_some hfind
      refine Exec.can_modify (fun _ => rfl) ?_
      refine can_onMemory (P := fun r s => r = some n ∧ s = { k.mem with freelist := ns })
        ⟨[false], some n, { k.mem with freelist := ns }, fun rest => ?_, rfl, rfl⟩ ?_
      · simp [kalloc, Memory.withFails, hfree]
      · rintro _ _ ⟨rfl, rfl⟩
        refine Exec.can_modify (fun _ => rfl) (Exec.can_pure ?_)
        simpa using hQ np hnp

theorem can_inituvm {init : ℕ → ℕ}
    (h : Building L s plain rest d 0 (spare + 1) (fun u => u < kernbasePage) B keep held)
    (hB : ¬B 0) :
    Can (inituvm d init) (fun _ s' => spare ≤ s'.freelist.length ∧ s'.starved = s.starved ∧
      ∃ t j n, EntryAt s'.word d 0 t j ∧ s'.word t j = mkPte n pteWU) s := by
  obtain ⟨n, ns, hfree⟩ := h.exists_free
  refine can_kalloc hfree (Exec.can_modify (fun _ => rfl) ?_)
  have hdiv : 0 / npentries = 0 := Nat.zero_div npentries
  refine Exec.can_bind (can_mapOne (v := 0) (h.take hfree fun _ => 0) (by decide)
    (Nat.zero_le _) (by rwa [hdiv]) (by decide) (by decide)) ?_
  rintro _ s1 ⟨-, h1, hrec, t, j, hat, hpte⟩
  have hout := h1.owns.user_notMem (by decide) hat (hpte ▸ mkPte_present n pteWU) d
    (Multiset.mem_cons_self d rest)
  rw [hpte, mkPte_page (by decide)] at hout
  have hsame : SameTables s1.word (fillPage s1.word n init) d :=
    SameTables.of_page hout fun m hm => fillPage_other hm
  have hroom := h1.room
  have htable := hsame.table (dirIndex_lt (by decide)) hat.present
  rw [hat.table] at htable
  refine Exec.can_modify_last (fun _ => rfl)
    ⟨Nat.le_of_add_left_le hroom, Memory.starved_of_record hrec, t, j, n, ?_, ?_⟩
  · exact hat.congr hsame.dir
  · exact (congrFun htable j).trans hpte

/-- Where the linker puts a kernel of 80 KB. -/
def smallLink : Link := ⟨264, 276, by decide, by decide, by decide⟩

/-- The kernel can boot. -/
theorem exists_ready : ∃ k p, Booted smallLink k ∧ Ready k p := by
  have hcan : CanCall (main smallLink 1 fun _ => 0) (fun _ k => ∃ p, Ready k p)
      (powerOn (fun _ _ => 0) []) := by
    have h0 : Owns smallLink (powerOn (fun _ _ => 0) []).mem (allPages smallLink) 0 := by
      refine ⟨⟨0, fun _ => rfl, ?_⟩, by simp⟩
      simp [powerOn]
    rw [allPages_eq] at h0
    have hphys : phystopPage = 57344 := by
      unfold phystopPage
      rfl
    have hentries : npentries = 1024 := by
      unfold npentries
      rfl
    refine can_onMemory (Exec.can_wlp (can_freerange le_rfl (by rw [hphys]; decide))
      fun cs => freerange_spec (h0.withFails cs)) ?_
    rintro - s1 ⟨⟨hlen1, hfed1⟩, _, _, howns1⟩
    have hlen1 : s1.freelist.length = 748 := hlen1
    obtain ⟨d, ns, hfree⟩ := List.exists_cons_of_length_eq_add_one hlen1
    rw [hfree, List.length_cons] at hlen1
    refine can_onMemory (can_setupkvm _ 0 (fun _ => False) (fun _ _ => 0) howns1.of_withFails
      hfree le_rfl ?_ (by simp)) ?_
    · unfold userEntries
      omega
    rintro _ s2 ⟨rfl, h2, hfed2⟩
    refine Exec.can_modify (fun _ => rfl) ?_
    refine Exec.can_bind (Q := fun _ k => k = { powerOn (fun _ _ => 0) [] with
      mem := s2, kpgdir := d }) (Exec.can_pure rfl) ?_
    rintro _ _ rfl
    have h3 : Owns smallLink s2 (pagesFrom 1024 (phystopPage - 1024) + 0) {d} := by
      rw [add_zero]
      exact h2.owns
    refine can_onMemory (Exec.can_wlp (can_freerange (by decide) (by rw [hphys]))
      fun cs => freerange_spec (h3.withFails cs)) ?_
    rintro - s4 ⟨⟨hlen4, hfed4⟩, _, _, howns4⟩
    have hlen4 : 56320 ≤ s4.freelist.length := by
      rw [hlen4, hphys]
      omega
    obtain ⟨n, ns4, hfree4⟩ := List.exists_cons_of_length_pos (l := s4.freelist) (by omega)
    rw [hfree4, List.length_cons] at hlen4
    refine Exec.can_bind (can_allocproc (p := ⟨0, by decide⟩) rfl hfree4
      (Q := fun r k => ∃ p, r = some p ∧ k = { powerOn (fun _ _ => 0) [] with
        mem := { s4 with freelist := ns4 }
        kpgdir := d
        task := Function.update (powerOn (fun _ _ => 0) []).task p
          ⟨.embryo, none, n, 0, 0, fun _ => none⟩ }) ?_) ?_
    · exact fun p _ => ⟨p, rfl, rfl⟩
    rintro _ _ ⟨p, rfl, rfl⟩
    refine Exec.can_modify (fun _ => rfl) ?_
    have h5 : Owns smallLink { s4 with freelist := ns4 } {n} {d} := by
      refine howns4.of_withFails.move (fun _ _ _ _ => rfl) ?_ rfl
      rw [hfree4, ← Multiset.cons_coe, add_zero, add_comm, Multiset.singleton_add]
    obtain ⟨e, ns5, hfree5⟩ := List.exists_cons_of_length_pos (l := ns4) (by omega)
    rw [hfree5, List.length_cons] at hlen4
    refine can_onMemory (can_setupkvm 0 50001 (fun _ => False) (fun _ _ => 0) h5 hfree5
      (Nat.zero_le _) (by rw [hentries]; omega) (by simp)) ?_
    rintro _ s6 ⟨rfl, h6, hfed6⟩
    refine can_onMemory (can_inituvm (h6.bare_mono fun i (hi : 1 ≤ i ∧ i < userEntries) => hi.2)
      (by omega)) ?_
    rintro - s7 ⟨hroom, hfed7, hentry⟩
    refine Exec.can_modify_last (fun _ => rfl) ⟨p, rfl, ?_, ?_, ?_, ?_, ?_, hroom, ?_⟩
    · simp
    · intro q hq
      simp [hq, powerOn]
    · intro q fd
      rcases eq_or_ne q p with rfl | hq
      · simp
      · simp [hq, powerOn]
    · simp
    · simpa using hentry
    · exact hfed7.trans (hfed6.trans (hfed4.trans (hfed2.trans hfed1)))
  obtain ⟨cs, _, k, hrun, p, hready⟩ := hcan
  refine ⟨k.withFails [], p, ⟨fun _ _ => 0, cs ++ [], 1, fun _ => 0, hrun []⟩, ?_⟩
  exact ⟨hready.init, hready.alive, hready.others, hready.closed, hready.size, hready.entry,
    hready.room, hready.fed⟩

end Vm

end Xv6
