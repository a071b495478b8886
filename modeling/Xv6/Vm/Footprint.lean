import Mathlib.Algebra.BigOperators.Group.Finset.Basic
import Mathlib.Algebra.Order.Group.Multiset
import Mathlib.Tactic.Abel
import Xv6.Vm.Memory

/-!
# The pages behind a page directory

A page directory owns itself, its page tables and the user pages its tables map
below `KERNBASE`; what it maps above is the kernel's own memory.  The pages are
counted with multiplicity, so that "no page has two owners" and "no page is
lost" are both read off one equation between multisets.

The footprint of a directory depends only on the words of the directory and of
its tables.  The lemmas below say how it changes when one of these words does.
-/

namespace Xv6

namespace Vm

open Finset

/-- The directory entries below `KERNBASE`. -/
@[irreducible] def userEntries : ℕ := 512

/-- The page an entry refers to, if it is present. -/
def entry (w : ℕ) : Multiset ℕ :=
  if Present w then {ptePage w} else 0

/-- The page tables of a directory. -/
def tables (word : ℕ → ℕ → ℕ) (d : ℕ) : Multiset ℕ :=
  ∑ i ∈ range npentries, entry (word d i)

/-- The pages a page table refers to. -/
def mapped (word : ℕ → ℕ → ℕ) (t : ℕ) : Multiset ℕ :=
  ∑ j ∈ range npentries, entry (word t j)

/-- The pages mapped through one entry of a directory. -/
def mappedBy (word : ℕ → ℕ → ℕ) (pde : ℕ) : Multiset ℕ :=
  if Present pde then mapped word (ptePage pde) else 0

/-- The pages a directory maps below `KERNBASE`. -/
def userPages (word : ℕ → ℕ → ℕ) (d : ℕ) : Multiset ℕ :=
  ∑ i ∈ range userEntries, mappedBy word (word d i)

/-- The directory and its tables. -/
def skeleton (word : ℕ → ℕ → ℕ) (d : ℕ) : Multiset ℕ :=
  {d} + tables word d

/-- All pages of an address space. -/
def footprint (word : ℕ → ℕ → ℕ) (d : ℕ) : Multiset ℕ :=
  skeleton word d + userPages word d

/-- What the tables of a directory satisfy: an entry that is not present is zero,
and nothing above `KERNBASE` is accessible to user code. -/
structure WellFormed (word : ℕ → ℕ → ℕ) (d : ℕ) : Prop where
  clean : ∀ i < npentries, Present (word d i) → ∀ j < npentries,
    Present (word (ptePage (word d i)) j) ∨ word (ptePage (word d i)) j = 0
  kernel : ∀ i < npentries, userEntries ≤ i → Present (word d i) → ∀ j < npentries,
    ¬UserBit (word (ptePage (word d i)) j)

section Sums

variable {M : Type} [AddCommMonoid M] {ι : Type} [DecidableEq ι] {s : Finset ι} {f g : ι → M}
  {a : ι}

/-- Exchange one term of a sum. -/
theorem sum_exchange (ha : a ∈ s) (h : ∀ b ∈ s, b ≠ a → g b = f b) :
    ∑ b ∈ s, g b + f a = ∑ b ∈ s, f b + g a := by
  have hrest : ∑ b ∈ s.erase a, g b = ∑ b ∈ s.erase a, f b := by
    refine sum_congr rfl fun b hb => ?_
    exact h b (mem_of_mem_erase hb) (ne_of_mem_erase hb)
  rw [← add_sum_erase s g ha, ← add_sum_erase s f ha, hrest]
  abel

end Sums

@[simp] theorem entry_zero : entry 0 = 0 := by
  simp [entry]

theorem entry_of_present {w : ℕ} (h : Present w) : entry w = {ptePage w} := by
  simp [entry, h]

theorem entry_of_not_present {w : ℕ} (h : ¬Present w) : entry w = 0 := by
  simp [entry, h]

theorem userEntries_le : userEntries ≤ npentries := by
  unfold userEntries npentries
  omega

theorem mem_tables {word : ℕ → ℕ → ℕ} {d i : ℕ} (hi : i < npentries)
    (h : Present (word d i)) : ptePage (word d i) ∈ tables word d := by
  unfold tables
  rw [Multiset.mem_sum]
  refine ⟨i, mem_range.mpr hi, ?_⟩
  rw [entry_of_present h]
  exact Multiset.mem_singleton_self _

theorem mem_userPages {word : ℕ → ℕ → ℕ} {d i j : ℕ} (hi : i < userEntries)
    (hj : j < npentries) (h : Present (word d i))
    (h' : Present (word (ptePage (word d i)) j)) :
    ptePage (word (ptePage (word d i)) j) ∈ userPages word d := by
  unfold userPages
  rw [Multiset.mem_sum]
  refine ⟨i, mem_range.mpr hi, ?_⟩
  rw [mappedBy, if_pos h, mapped, Multiset.mem_sum]
  refine ⟨j, mem_range.mpr hj, ?_⟩
  rw [entry_of_present h']
  exact Multiset.mem_singleton_self _

theorem mem_skeleton_self (word : ℕ → ℕ → ℕ) (d : ℕ) : d ∈ skeleton word d := by
  unfold skeleton
  exact Multiset.mem_add.mpr (Or.inl (Multiset.mem_singleton_self d))

theorem mem_skeleton_table {word : ℕ → ℕ → ℕ} {d i : ℕ} (hi : i < npentries)
    (h : Present (word d i)) : ptePage (word d i) ∈ skeleton word d := by
  unfold skeleton
  exact Multiset.mem_add.mpr (Or.inr (mem_tables hi h))

/-- A directory without repeated pages is none of its own tables. -/
theorem table_ne_dir {word : ℕ → ℕ → ℕ} {d i : ℕ} (hnd : (skeleton word d).Nodup)
    (hi : i < npentries) (h : Present (word d i)) : ptePage (word d i) ≠ d := by
  intro heq
  unfold skeleton at hnd
  have hdisj := (Multiset.nodup_add.mp hnd).2.2
  have hmem := mem_tables hi h
  rw [heq] at hmem
  exact Multiset.disjoint_left.mp hdisj (Multiset.mem_singleton_self d) hmem

/-- Distinct entries of a directory name distinct tables. -/
theorem table_inj {word : ℕ → ℕ → ℕ} {d i i' : ℕ} (hnd : (tables word d).Nodup)
    (hi : i < npentries) (hi' : i' < npentries) (h : Present (word d i))
    (h' : Present (word d i')) (heq : ptePage (word d i) = ptePage (word d i')) :
    i = i' := by
  by_contra hne
  have hsum : tables word d =
      entry (word d i) + (entry (word d i') + ∑ b ∈ ((range npentries).erase i).erase i',
        entry (word d b)) := by
    unfold tables
    rw [← add_sum_erase _ _ (mem_range.mpr hi), ← add_sum_erase ((range npentries).erase i) _
      (mem_erase.mpr ⟨Ne.symm hne, mem_range.mpr hi'⟩)]
  rw [hsum, entry_of_present h, entry_of_present h', heq] at hnd
  have hdisj := (Multiset.nodup_add.mp hnd).2.2
  exact Multiset.disjoint_left.mp hdisj (Multiset.mem_singleton_self _)
    (Multiset.mem_add.mpr (Or.inl (Multiset.mem_singleton_self _)))

/-! ## Changes that leave a directory alone -/

section Frame

variable {word word' : ℕ → ℕ → ℕ} {d : ℕ}

/-- The directory and its tables hold the same words. -/
def SameTables (word word' : ℕ → ℕ → ℕ) (d : ℕ) : Prop :=
  ∀ n ∈ skeleton word d, word' n = word n

theorem SameTables.dir (h : SameTables word word' d) : word' d = word d :=
  h d (mem_skeleton_self word d)

theorem SameTables.table (h : SameTables word word' d) {i : ℕ} (hi : i < npentries)
    (hp : Present (word d i)) : word' (ptePage (word d i)) = word (ptePage (word d i)) :=
  h _ (mem_skeleton_table hi hp)

theorem SameTables.tables_eq (h : SameTables word word' d) :
    tables word' d = tables word d := by
  unfold tables
  rw [h.dir]

theorem SameTables.userPages_eq (h : SameTables word word' d) :
    userPages word' d = userPages word d := by
  unfold userPages
  refine sum_congr rfl fun i hi => ?_
  have hlt : i < npentries := (mem_range.mp hi).trans_le userEntries_le
  rw [h.dir]
  unfold mappedBy
  split
  · rename_i hp
    unfold mapped
    rw [h.table hlt hp]
  · rfl

theorem SameTables.footprint_eq (h : SameTables word word' d) :
    footprint word' d = footprint word d := by
  unfold footprint skeleton
  rw [h.tables_eq, h.userPages_eq]

theorem SameTables.wellFormed (h : SameTables word word' d) (hwf : WellFormed word d) :
    WellFormed word' d := by
  constructor
  · intro i hi hp j hj
    rw [h.dir] at hp ⊢
    rw [h.table hi hp]
    exact hwf.clean i hi hp j hj
  · intro i hi hu hp j hj
    rw [h.dir] at hp ⊢
    rw [h.table hi hp]
    exact hwf.kernel i hi hu hp j hj

/-- A page that is neither the directory nor one of its tables may change. -/
theorem SameTables.of_page {n : ℕ} (hn : n ∉ skeleton word d)
    (h : ∀ m, m ≠ n → word' m = word m) : SameTables word word' d := by
  intro m hm
  apply h
  rintro rfl
  exact hn hm

end Frame

/-! ## Changes of one word -/

section Change

variable {word : ℕ → ℕ → ℕ} {d i j t w : ℕ}

/-- The memory after storing one word. -/
def putWord (word : ℕ → ℕ → ℕ) (n i w : ℕ) : ℕ → ℕ → ℕ := fun m j =>
  if m = n ∧ j = i then w else word m j

theorem putWord_same : putWord word t j w t j = w := by
  simp [putWord]

theorem putWord_other_page {m : ℕ} (h : m ≠ t) : putWord word t j w m = word m := by
  funext k
  simp [putWord, h]

theorem putWord_other_index {k : ℕ} (h : k ≠ j) : putWord word t j w t k = word t k := by
  simp [putWord, h]

/-- The page an entry of a user table refers to; entries of the kernel's tables
do not count. -/
def userEntry (i w : ℕ) : Multiset ℕ :=
  if i < userEntries then entry w else 0

/-- Storing an entry of one of the tables exchanges the page it refers to. -/
theorem footprint_putWord_table (hnd : (skeleton word d).Nodup) (hi : i < npentries)
    (hj : j < npentries) (hp : Present (word d i)) (ht : ptePage (word d i) = t) :
    footprint (putWord word t j w) d + userEntry i (word t j) =
      footprint word d + userEntry i w := by
  have htab : (tables word d).Nodup := by
    have h := hnd
    unfold skeleton at h
    exact (Multiset.nodup_add.mp h).2.1
  have htd : d ≠ t := by
    intro heq
    exact table_ne_dir hnd hi hp (ht.trans heq.symm)
  have hdir : putWord word t j w d = word d := putWord_other_page htd
  have hskel : skeleton (putWord word t j w) d = skeleton word d := by
    unfold skeleton tables
    rw [hdir]
  have hother : ∀ b ∈ range userEntries, b ≠ i →
      mappedBy (putWord word t j w) (putWord word t j w d b) = mappedBy word (word d b) := by
    intro b hb hne
    rw [hdir]
    unfold mappedBy
    split
    · rename_i hpb
      have hb' : b < npentries := (mem_range.mp hb).trans_le userEntries_le
      unfold mapped
      rw [putWord_other_page]
      intro heq
      exact hne (table_inj htab hb' hi hpb hp (heq.trans ht.symm))
    · rfl
  have hmapped : mapped (putWord word t j w) t + entry (word t j) = mapped word t + entry w := by
    have h := sum_exchange (f := fun k => entry (word t k))
      (g := fun k => entry (putWord word t j w t k)) (mem_range.mpr hj)
      (fun k _ hk => by rw [putWord_other_index hk])
    rwa [putWord_same] at h
  have huser : userPages (putWord word t j w) d + userEntry i (word t j) =
      userPages word d + userEntry i w := by
    unfold userEntry
    by_cases hiu : i < userEntries
    · rw [if_pos hiu, if_pos hiu]
      have h := sum_exchange (f := fun b => mappedBy word (word d b))
        (g := fun b => mappedBy (putWord word t j w) (putWord word t j w d b))
        (mem_range.mpr hiu) hother
      have hnew : mappedBy (putWord word t j w) (putWord word t j w d i) =
          mapped (putWord word t j w) t := by
        rw [hdir, mappedBy, if_pos hp, ht]
      have hold : mappedBy word (word d i) = mapped word t := by
        rw [mappedBy, if_pos hp, ht]
      rw [hnew, hold] at h
      unfold userPages
      -- both sides count the old contents of the table once
      apply add_right_cancel (b := mapped word t)
      calc _ = (∑ b ∈ range userEntries,
                mappedBy (putWord word t j w) (putWord word t j w d b) + mapped word t) +
              entry (word t j) := by abel
        _ = ∑ b ∈ range userEntries, mappedBy word (word d b) +
              (mapped (putWord word t j w) t + entry (word t j)) := by rw [h]; abel
        _ = _ := by rw [hmapped]; abel
    · rw [if_neg hiu, if_neg hiu]
      congr 1
      refine sum_congr rfl fun b hb => hother b hb ?_
      have := mem_range.mp hb
      omega
  unfold footprint
  rw [hskel, add_assoc, huser, add_assoc]

/-- Storing a directory entry for an empty table adds the table. -/
theorem footprint_putWord_dir (hnd : (skeleton word d).Nodup) (hi : i < npentries) (hp : ¬Present (word d i))
    (ht : t ∉ skeleton word d) (hzero : ∀ j, word t j = 0) (hw : Present w)
    (hwt : ptePage w = t) :
    footprint (putWord word d i w) d = {t} + footprint word d := by
  have htd : t ≠ d := by
    rintro rfl
    exact ht (mem_skeleton_self word t)
  have htab : tables (putWord word d i w) d = {t} + tables word d := by
    have h := sum_exchange (f := fun b => entry (word d b))
      (g := fun b => entry (putWord word d i w d b)) (mem_range.mpr hi)
      (fun b _ hb => by rw [putWord_other_index hb])
    rw [entry_of_not_present hp, putWord_same, entry_of_present hw, hwt, add_zero] at h
    unfold tables
    rw [h, add_comm]
  have hempty : mapped (putWord word d i w) t = 0 := by
    unfold mapped
    rw [putWord_other_page htd]
    exact sum_eq_zero fun k _ => by rw [hzero k, entry_zero]
  have huser : userPages (putWord word d i w) d = userPages word d := by
    refine sum_congr rfl fun b hb => ?_
    by_cases hbi : b = i
    · subst hbi
      rw [putWord_same, mappedBy, if_pos hw, hwt, hempty, mappedBy, if_neg hp]
    · rw [putWord_other_index hbi]
      unfold mappedBy
      split
      · rename_i hpb
        have hb' : b < npentries := (mem_range.mp hb).trans_le userEntries_le
        unfold mapped
        rw [putWord_other_page (table_ne_dir hnd hb' hpb)]
      · rfl
  unfold footprint skeleton
  rw [htab, huser]
  abel

/-- Storing an entry of a table keeps the tables well formed. -/
theorem WellFormed.putWord_table (hwf : WellFormed word d) (hnd : (skeleton word d).Nodup)
    (hi : i < npentries) (hp : Present (word d i)) (ht : ptePage (word d i) = t)
    (hw : Present w ∨ w = 0) (hk : userEntries ≤ i → ¬UserBit w) :
    WellFormed (putWord word t j w) d := by
  have htab : (tables word d).Nodup := by
    have h := hnd
    unfold skeleton at h
    exact (Multiset.nodup_add.mp h).2.1
  have hdir : putWord word t j w d = word d := by
    apply putWord_other_page
    intro heq
    exact table_ne_dir hnd hi hp (ht.trans heq.symm)
  constructor
  · intro b hb hpb k hk
    rw [hdir] at hpb ⊢
    by_cases hkey : ptePage (word d b) = t ∧ k = j
    · rw [hkey.1, hkey.2, putWord_same]
      exact hw
    · rw [Vm.putWord, if_neg hkey]
      exact hwf.clean b hb hpb k hk
  · intro b hb hub hpb k hkb
    rw [hdir] at hpb ⊢
    by_cases hkey : ptePage (word d b) = t ∧ k = j
    · rw [hkey.1, hkey.2, putWord_same]
      apply hk
      rw [← table_inj htab hb hi hpb hp (hkey.1.trans ht.symm)]
      exact hub
    · rw [Vm.putWord, if_neg hkey]
      exact hwf.kernel b hb hub hpb k hkb

/-- Storing a directory entry for an empty table keeps them well formed. -/
theorem WellFormed.putWord_dir (hwf : WellFormed word d) (hnd : (skeleton word d).Nodup)
    (ht : t ≠ d) (hzero : ∀ j, word t j = 0) (hwt : ptePage w = t) :
    WellFormed (putWord word d i w) d := by
  have htable : ∀ b < npentries, Present (putWord word d i w d b) →
      (∀ k, putWord word d i w (ptePage (putWord word d i w d b)) k = 0) ∨
      (Present (word d b) ∧ putWord word d i w d b = word d b ∧
        putWord word d i w (ptePage (word d b)) = word (ptePage (word d b))) := by
    intro b hb hpb
    by_cases hbi : b = i
    · left
      intro k
      rw [hbi, putWord_same, hwt, putWord_other_page ht]
      exact hzero k
    · rw [putWord_other_index hbi] at hpb ⊢
      exact Or.inr ⟨hpb, rfl, putWord_other_page (table_ne_dir hnd hb hpb)⟩
  constructor
  · intro b hb hpb k hk
    rcases htable b hb hpb with hz | ⟨hp, hsame, hpage⟩
    · exact Or.inr (hz k)
    · rw [hsame, hpage]
      exact hwf.clean b hb hp k hk
  · intro b hb hub hpb k hk
    rcases htable b hb hpb with hz | ⟨hp, hsame, hpage⟩
    · rw [hz k]
      simp [UserBit]
    · rw [hsame, hpage]
      exact hwf.kernel b hb hub hp k hk

end Change

end Vm

end Xv6
