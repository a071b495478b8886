import Mathlib.Algebra.Order.BigOperators.Group.Multiset
import Mathlib.Data.Multiset.OrderedMonoid
import Mathlib.Order.Interval.Finset.Nat
import Xv6.Vm.Footprint

/-!
# Every page has one place

`Owns s plain dirs` says where the pages of the allocator are: on the free list,
in `plain` (kernel stacks, pipes and pages held in local variables), in the
address space of a directory in `dirs`, or lost.  Pages are lost only once a page
table page has been refused.  The equation is between multisets and the pages
are distinct, so no page is in two of these places.

The rules of this module say how a page moves from one place to another.
-/

namespace Xv6

namespace Vm

open Support

/-- The pages handed to the allocator by `kinit1` and `kinit2`. -/
def allPages (L : Link) : Multiset ℕ :=
  (Finset.Ico L.kend phystopPage).val

theorem nodup_allPages (L : Link) : (allPages L).Nodup :=
  (Finset.Ico L.kend phystopPage).nodup

theorem mem_allPages {L : Link} {n : ℕ} : n ∈ allPages L ↔ L.kend ≤ n ∧ n < phystopPage := by
  unfold allPages
  rw [Finset.mem_val, Finset.mem_Ico]

/-- Where the pages are. -/
structure Owns (L : Link) (s : Memory) (plain dirs : Multiset ℕ) : Prop where
  balance : ∃ lost : Multiset ℕ, (s.starved = false → lost = 0) ∧
    (s.freelist : Multiset ℕ) + plain + (dirs.map (footprint s.word)).sum + lost = allPages L
  wellFormed : ∀ d ∈ dirs, WellFormed s.word d

namespace Owns

variable {L : Link} {s s' : Memory} {plain plain' dirs dirs' rest : Multiset ℕ} {d d' n : ℕ}

theorem nodup (h : Owns L s plain dirs) :
    ((s.freelist : Multiset ℕ) + plain + (dirs.map (footprint s.word)).sum).Nodup := by
  obtain ⟨lost, -, hbal⟩ := h.balance
  have hall := nodup_allPages L
  rw [← hbal] at hall
  exact (Multiset.nodup_add.mp hall).1

theorem footprint_le (word : ℕ → ℕ → ℕ) (hd : d ∈ dirs) :
    footprint word d ≤ (dirs.map (footprint word)).sum :=
  Multiset.le_sum_of_mem (Multiset.mem_map_of_mem _ hd)

theorem footprint_nodup (h : Owns L s plain dirs) (hd : d ∈ dirs) :
    (footprint s.word d).Nodup :=
  Multiset.nodup_of_le (footprint_le s.word hd) (Multiset.nodup_add.mp h.nodup).2.1

theorem skeleton_nodup (h : Owns L s plain dirs) (hd : d ∈ dirs) :
    (skeleton s.word d).Nodup := by
  have hfoot := h.footprint_nodup hd
  unfold footprint at hfoot
  exact (Multiset.nodup_add.mp hfoot).1

/-- A page held outside of the address spaces is in none of them. -/
theorem plain_notMem (h : Owns L s plain dirs) (hn : n ∈ plain) (hd : d ∈ dirs) :
    n ∉ footprint s.word d := by
  have hdisj := (Multiset.nodup_add.mp h.nodup).2.2
  intro hmem
  exact Multiset.disjoint_left.mp hdisj (Multiset.mem_add.mpr (Or.inr hn))
    (Multiset.mem_of_le (footprint_le s.word hd) hmem)

/-- A page of one address space is in no other. -/
theorem footprint_notMem (h : Owns L s plain (d ::ₘ rest)) (hn : n ∈ footprint s.word d)
    (hd : d' ∈ rest) : n ∉ footprint s.word d' := by
  have hdirs := (Multiset.nodup_add.mp h.nodup).2.1
  rw [Multiset.map_cons, Multiset.sum_cons] at hdirs
  have hdisj := (Multiset.nodup_add.mp hdirs).2.2
  intro hmem
  exact Multiset.disjoint_left.mp hdisj hn (Multiset.mem_of_le (footprint_le s.word hd) hmem)

theorem notMem_skeleton {word : ℕ → ℕ → ℕ} (h : n ∉ footprint word d) :
    n ∉ skeleton word d := by
  intro hmem
  apply h
  unfold footprint
  exact Multiset.mem_add.mpr (Or.inl hmem)

theorem mem_allPages_of_plain (h : Owns L s plain dirs) (hn : n ∈ plain) :
    n ∈ allPages L := by
  obtain ⟨lost, -, hbal⟩ := h.balance
  rw [← hbal]
  simp [hn]

theorem mem_allPages_of_footprint (h : Owns L s plain dirs) (hd : d ∈ dirs)
    (hn : n ∈ footprint s.word d) : n ∈ allPages L := by
  obtain ⟨lost, -, hbal⟩ := h.balance
  rw [← hbal]
  have hmem := Multiset.mem_of_le (footprint_le s.word hd) hn
  simp [hmem]

/-- A step that leaves the address spaces alone and moves pages only between the
free list and `plain`. -/
theorem move (h : Owns L s plain dirs) (hsame : ∀ d ∈ dirs, SameTables s.word s'.word d)
    (hpages : (s'.freelist : Multiset ℕ) + plain' = s.freelist + plain)
    (hstarved : s'.starved = s.starved) : Owns L s' plain' dirs := by
  obtain ⟨lost, hlost, hbal⟩ := h.balance
  have hsum : dirs.map (footprint s'.word) = dirs.map (footprint s.word) :=
    Multiset.map_congr rfl fun d hd => (hsame d hd).footprint_eq
  refine ⟨⟨lost, ?_, ?_⟩, fun d hd => (hsame d hd).wellFormed (h.wellFormed d hd)⟩
  · rw [hstarved]
    exact hlost
  · rw [hpages, hsum, hbal]

/-- A step that also changes the address space of `d`, by the pages that leave
or enter `plain`. -/
theorem exchange (h : Owns L s plain (d ::ₘ rest))
    (hsame : ∀ d' ∈ rest, SameTables s.word s'.word d')
    (hpages : plain' + footprint s'.word d = plain + footprint s.word d)
    (hfree : s'.freelist = s.freelist) (hstarved : s'.starved = s.starved)
    (hwf : WellFormed s'.word d) : Owns L s' plain' (d ::ₘ rest) := by
  obtain ⟨lost, hlost, hbal⟩ := h.balance
  have hsum : rest.map (footprint s'.word) = rest.map (footprint s.word) :=
    Multiset.map_congr rfl fun d hd => (hsame d hd).footprint_eq
  refine ⟨⟨lost, ?_, ?_⟩, ?_⟩
  · rw [hstarved]
    exact hlost
  · rw [Multiset.map_cons, Multiset.sum_cons] at hbal ⊢
    rw [hsum, hfree, ← hbal]
    calc _ = (s.freelist : Multiset ℕ) + (plain' + footprint s'.word d) +
            (rest.map (footprint s.word)).sum + lost := by abel
      _ = _ := by rw [hpages]; abel
  · intro d' hd'
    rcases Multiset.mem_cons.mp hd' with rfl | hd'
    · exact hwf
    · exact (hsame d' hd').wellFormed (h.wellFormed d' (Multiset.mem_cons_of_mem hd'))

/-- Address spaces that nothing is done with count as plain pages. -/
theorem shelve (h : Owns L s plain (dirs + rest)) :
    Owns L s (plain + (rest.map (footprint s.word)).sum) dirs := by
  obtain ⟨lost, hlost, hbal⟩ := h.balance
  refine ⟨⟨lost, hlost, ?_⟩, fun d hd => h.wellFormed d (Multiset.mem_add.mpr (Or.inl hd))⟩
  rw [← hbal, Multiset.map_add, Multiset.sum_add]
  abel

theorem mem_shelf {word : ℕ → ℕ → ℕ} (hd : d ∈ rest) (hn : n ∈ footprint word d) :
    n ∈ plain + (rest.map (footprint word)).sum :=
  Multiset.mem_add.mpr (Or.inr (Multiset.mem_of_le (footprint_le word hd) hn))

/-- And they are address spaces again, if none of their pages has changed. -/
theorem unshelve (h : Owns L s plain (dirs' + rest))
    (h' : Owns L s' (plain + (rest.map (footprint s.word)).sum) dirs)
    (hsame : ∀ n ∈ plain + (rest.map (footprint s.word)).sum, s'.word n = s.word n) :
    Owns L s' plain (dirs + rest) := by
  have htables : ∀ d ∈ rest, SameTables s.word s'.word d := by
    intro d hd n hn
    refine hsame n (mem_shelf hd ?_)
    unfold footprint
    exact Multiset.mem_add.mpr (Or.inl hn)
  have hsum : rest.map (footprint s'.word) = rest.map (footprint s.word) :=
    Multiset.map_congr rfl fun d hd => (htables d hd).footprint_eq
  obtain ⟨lost, hlost, hbal⟩ := h'.balance
  refine ⟨⟨lost, hlost, ?_⟩, ?_⟩
  · rw [← hbal, Multiset.map_add, Multiset.sum_add, hsum]
    abel
  · intro d hd
    rcases Multiset.mem_add.mp hd with hd | hd
    · exact h'.wellFormed d hd
    · exact (htables d hd).wellFormed (h.wellFormed d (Multiset.mem_add.mpr (Or.inr hd)))

/-- Once a page table page has been refused, a page may be forgotten. -/
theorem lose (h : Owns L s (n ::ₘ plain) dirs) (hstarved : s.starved = true) :
    Owns L s plain dirs := by
  obtain ⟨lost, -, hbal⟩ := h.balance
  refine ⟨⟨n ::ₘ lost, by simp [hstarved], ?_⟩, h.wellFormed⟩
  rw [← hbal, ← Multiset.singleton_add, ← Multiset.singleton_add]
  abel

/-- And so may a whole address space. -/
theorem lose_dir (h : Owns L s plain (d ::ₘ rest)) (hstarved : s.starved = true) :
    Owns L s plain rest := by
  obtain ⟨lost, -, hbal⟩ := h.balance
  refine ⟨⟨footprint s.word d + lost, by simp [hstarved], ?_⟩, ?_⟩
  · rw [← hbal, Multiset.map_cons, Multiset.sum_cons]
    abel
  · intro d' hd'
    exact h.wellFormed d' (Multiset.mem_cons_of_mem hd')

end Owns

end Vm

end Xv6
