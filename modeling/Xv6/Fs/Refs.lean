import Xv6.Fs.Blocks

/-!
# References to entries of the inode cache

`iget` and `iput` as the callers that look up names use them: a reference is taken
and given back, and nothing is written to disk on the way.
-/

namespace Xv6.Fs

open Support

theorem Volume.inode_setInode (s : Volume) (k : Fin ninode) (ip : Inode) :
    (s.setInode k ip).inode k = ip :=
  Function.update_self _ _ _

/-- An entry of the inode cache is free, or in use for inode `i` already. -/
def Volume.Vacant (s : Volume) (i : ℕ) : Prop :=
  ∃ j, (s.inode j).ref = 0 ∨ (s.inode j).inum = i

/-- What `iget` of inode `i` leaves in the entry that it returns. -/
def Inode.got (ip : Inode) (i : ℕ) : Inode :=
  if 0 < ip.ref then { ip with ref := ip.ref + 1 }
  else { ip with inum := i, ref := 1, busy := false, valid := false }

/-- `iget` of inode `i` has returned entry `j`. -/
structure Got (i : ℕ) (s : Volume) (j : Fin ninode) (s' : Volume) : Prop where
  eq : s' = s.setInode j ((s.inode j).got i)
  inum : 0 < (s.inode j).ref → (s.inode j).inum = i
  only : (s.inode j).ref = 0 → ∀ j', 0 < (s.inode j').ref → (s.inode j').inum ≠ i

section

variable {R : Stop → Prop} {s s' : Volume} {i : ℕ} {j k : Fin ninode}

theorem findInode_eq_some (h : findInode s.inode i = some j) :
    0 < (s.inode j).ref ∧ (s.inode j).inum = i := by
  simpa using List.find?_some h

theorem findInode_eq_none (h : findInode s.inode i = none) :
    0 < (s.inode j).ref → (s.inode j).inum ≠ i := by
  intro href hinum
  have hnot := List.find?_eq_none.mp h j (List.mem_finRange j)
  simp [href, hinum] at hnot

theorem emptyInode_eq_some (h : emptyInode s.inode = some j) : (s.inode j).ref = 0 := by
  simpa using List.find?_some h

theorem emptyInode_eq_none (h : emptyInode s.inode = none) : 0 < (s.inode j).ref := by
  have hnot := List.find?_eq_none.mp h j (List.mem_finRange j)
  exact Nat.pos_of_ne_zero (by simpa using hnot)

theorem iget_spec (hR : R .igetNoInodes → s.Vacant i) :
    given R (iget i) (fun j s' => Got i s j s') s := by
  unfold iget
  apply Exec.wp_bind.mpr
  apply Exec.wp_gets.mpr
  cases hfind : findInode s.inode i with
  | some j =>
      obtain ⟨href, hinum⟩ := findInode_eq_some hfind
      apply Exec.wp_bind.mpr
      apply Exec.wp_modify.mpr
      apply Exec.wp_pure.mpr
      refine ⟨?_, fun _ => hinum, fun h => by omega⟩
      rw [Inode.got, if_pos href]
  | none =>
      cases hempty : emptyInode s.inode with
      | none =>
          refine Exec.wp_throw.mpr ⟨by simp [Scarce], fun hr => ?_⟩
          obtain ⟨j, h0 | hi⟩ := hR hr
          · exact absurd h0 (emptyInode_eq_none hempty).ne'
          · exact findInode_eq_none hfind (emptyInode_eq_none hempty) hi
      | some j =>
          have h0 := emptyInode_eq_some hempty
          apply Exec.wp_bind.mpr
          apply Exec.wp_modify.mpr
          apply Exec.wp_pure.mpr
          refine ⟨?_, fun h => by omega, fun _ j' => findInode_eq_none hfind⟩
          rw [Inode.got, if_neg (by omega)]

/-- `iget` of an inode that is not cached, with every entry in use. -/
theorem iget_full (h : ¬s.Vacant i) : iget i s = (.error .igetNoInodes, s) := by
  have hused : ∀ j, (s.inode j).ref ≠ 0 ∧ (s.inode j).inum ≠ i :=
    fun j => ⟨fun h0 => h ⟨j, Or.inl h0⟩, fun hi => h ⟨j, Or.inr hi⟩⟩
  have hfind : findInode s.inode i = none := by
    cases hf : findInode s.inode i with
    | none => rfl
    | some j => exact absurd (findInode_eq_some hf).2 (hused j).2
  have hempty : emptyInode s.inode = none := by
    cases he : emptyInode s.inode with
    | none => rfl
    | some j => exact absurd (emptyInode_eq_some he) (hused j).1
  unfold iget
  rw [Exec.bind_run_ok (Exec.gets_run _ _)]
  simp only [hfind, hempty]
  rfl

namespace Got

theorem self (h : Got i s j s') : s'.inode j = (s.inode j).got i := by
  rw [h.eq]
  exact Function.update_self _ _ _

theorem other (h : Got i s j s') {j' : Fin ninode} (hne : j' ≠ j) : s'.inode j' = s.inode j' := by
  rw [h.eq]
  exact Function.update_of_ne hne _ _

theorem inum_self (h : Got i s j s') : (s'.inode j).inum = i := by
  rw [h.self]
  unfold Inode.got
  split
  · rename_i href
    exact h.inum href
  · rfl

/-- The entries in use keep all but their reference counts. -/
theorem kept (h : Got i s j s') {j' : Fin ninode} (href : 0 < (s.inode j').ref) :
    s'.inode j' = { s.inode j' with ref := (s.inode j').ref + if j' = j then 1 else 0 } := by
  by_cases hj : j' = j
  · subst hj
    rw [h.self, Inode.got, if_pos href, if_pos rfl]
  · rw [h.other hj, if_neg hj, Nat.add_zero]

end Got

/-- Nothing has changed but entries of the inode cache that are not in use. -/
structure Quiet (s s' : Volume) : Prop where
  same : s' = { s with inode := s'.inode }
  kept : ∀ j, 0 < (s.inode j).ref → s'.inode j = s.inode j
  unused : ∀ j, (s.inode j).ref = 0 → (s'.inode j).ref = 0

end

end Xv6.Fs
