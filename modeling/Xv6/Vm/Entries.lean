import Xv6.Vm.PageSpec

/-!
# The entries of an address space

`pteAt` is the entry that an address space has for a virtual page.  The functions that
build an address space change the entries that they are meant to change, and no others.
-/

namespace Xv6

namespace Vm

open Support

variable {L : Link} {s : Memory} {plain rest : Multiset ℕ} {d n v t j : ℕ}

theorem kernbase_lt_top {u : ℕ} (hu : u < kernbasePage) : u < topPage := by
  unfold kernbasePage topPage at *
  omega

/-- The entry for the virtual page `v`, 0 if its table is missing. -/
def pteAt (word : ℕ → ℕ → ℕ) (d v : ℕ) : ℕ :=
  if Present (word d (v / npentries)) then
    word (ptePage (word d (v / npentries))) (v % npentries)
  else 0

theorem EntryAt.pteAt_eq {word : ℕ → ℕ → ℕ} (h : EntryAt word d v t j) :
    pteAt word d v = word t j := by
  rw [pteAt, if_pos h.present, h.table, ← h.index]

theorem SameTables.pteAt_eq {word word' : ℕ → ℕ → ℕ} (h : SameTables word word' d)
    (hv : v < topPage) : pteAt word' d v = pteAt word d v := by
  unfold pteAt
  rw [h.dir]
  split
  · rename_i hp
    rw [h.table (dirIndex_lt hv) hp]
  · rfl

/-- Memory after a page has been filled. -/
def fillPage (word : ℕ → ℕ → ℕ) (n : ℕ) (ws : ℕ → ℕ) : ℕ → ℕ → ℕ :=
  fun m => if m = n then ws else word m

theorem fillPage_same {word : ℕ → ℕ → ℕ} {ws : ℕ → ℕ} : fillPage word n ws n = ws :=
  if_pos rfl

theorem fillPage_other {word : ℕ → ℕ → ℕ} {ws : ℕ → ℕ} {m : ℕ} (h : m ≠ n) :
    fillPage word n ws m = word m :=
  if_neg h

/-- Finding or making a table changes no entry. -/
theorem walkpgdir_pteAt (h : Owns L s plain (d ::ₘ rest)) :
    Exec.wlp (walkpgdir d v true) (fun _ s' => ∀ u < topPage,
      pteAt s'.word d u = pteAt s.word d u) s := by
  unfold walkpgdir
  refine Exec.wp_bind.mpr (Exec.wp_gets.mpr ?_)
  split
  · exact Exec.wp_pure.mpr fun _ _ => rfl
  · rename_i hp
    rw [if_neg (by simp)]
    refine Exec.wlp_seq (kalloc_spec h) ?_
    rintro (_ | t) s1 ⟨h1, hword1, -⟩
    · refine Exec.wp_bind.mpr (Exec.wp_modify.mpr (Exec.wp_pure.mpr fun u _ => ?_))
      simp only [hword1]
    · rw [handed, Multiset.singleton_add] at h1
      have hout := Owns.notMem_skeleton (h1.plain_notMem (Multiset.mem_cons_self t plain)
        (Multiset.mem_cons_self d rest))
      have htd : d ≠ t := by
        rintro rfl
        exact hout (mem_skeleton_self s1.word d)
      have hnd := h.skeleton_nodup (Multiset.mem_cons_self d rest)
      refine Exec.wp_bind.mpr (Exec.wp_modify.mpr (Exec.wp_bind.mpr (Exec.wp_modify.mpr
        (Exec.wp_pure.mpr fun u hu => ?_))))
      change pteAt (putWord (fillPage s1.word t fun _ => 0) d (v / npentries) (mkPte t pteWU)) d u =
        pteAt s.word d u
      rw [hword1] at hout ⊢
      unfold pteAt
      rcases eq_or_ne (u / npentries) (v / npentries) with heq | hne
      · rw [heq, putWord_same, if_pos (mkPte_present t pteWU), mkPte_page (by decide),
          putWord_other_page htd.symm, fillPage_same, if_neg hp]
      · rw [putWord_other_index hne, fillPage_other htd]
        split
        · rename_i hpu
          rw [putWord_other_page (table_ne_dir hnd (dirIndex_lt hu) hpu), fillPage_other]
          intro heq
          rw [← heq] at hout
          exact hout (mem_skeleton_table (dirIndex_lt hu) hpu)
        · rfl

/-- Storing one entry changes no other. -/
theorem EntryAt.pteAt_putWord {u w : ℕ} (hat : EntryAt s.word d v t j)
    (hnd : (skeleton s.word d).Nodup) (hv : v < topPage) (hu : u < topPage) (hne : u ≠ v) :
    pteAt (Vm.putWord s.word t j w) d u = pteAt s.word d u := by
  unfold pteAt
  rw [hat.dir_eq hnd hv]
  split
  · rename_i hp
    have hkey : ¬(ptePage (s.word d (u / npentries)) = t ∧ u % npentries = j) := by
      rintro ⟨htab, hidx⟩
      have hsame : u / npentries = v / npentries := by
        refine table_inj (Multiset.nodup_add.mp hnd).2.1 (dirIndex_lt hu) (dirIndex_lt hv) hp
          hat.present ?_
        rw [htab, hat.table]
      rw [hat.index] at hidx
      apply hne
      rw [← Nat.div_add_mod u npentries, ← Nat.div_add_mod v npentries, hsame, hidx]
    rw [Vm.putWord, if_neg hkey]
  · rfl

/-- What mapping one page does to the entries. -/
theorem mapOne_pteAt {perm : ℕ} (h : Owns L s plain (d ::ₘ rest)) (hv : v < topPage) :
    Exec.wlp (mappages d 1 v n perm) (fun r s' => ∀ u < topPage,
      pteAt s'.word d u = if u = v ∧ r = true then mkPte n perm else pteAt s.word d u) s := by
  unfold mappages
  refine Exec.wlp_seq (Exec.wlp_and (walkpgdir_true_spec h hv) (walkpgdir_pteAt h)) ?_
  rintro (_ | ⟨t, j⟩) s1 ⟨⟨h1, -, hres⟩, hsame⟩
  · refine Exec.wp_pure.mpr fun u hu => ?_
    rw [if_neg (by simp)]
    exact hsame u hu
  · obtain ⟨hat, -⟩ := hres
    have hnd := h1.skeleton_nodup (Multiset.mem_cons_self d rest)
    refine Exec.wp_bind.mpr (Exec.wp_gets.mpr ?_)
    split
    · exact Exec.wlp_throw
    · refine Exec.wp_bind.mpr (Exec.wp_modify.mpr ?_)
      unfold mappages
      refine Exec.wp_pure.mpr fun u hu => ?_
      change pteAt (Vm.putWord s1.word t j (mkPte n perm)) d u = _
      rcases eq_or_ne u v with rfl | hne
      · rw [if_pos ⟨rfl, rfl⟩, (hat.putWord hnd hv).pteAt_eq, putWord_same]
      · rw [if_neg (fun hh => hne hh.1), hat.pteAt_putWord hnd hv hu hne]
        exact hsame u hu

/-- Mapping the kernel changes no entry of the program. -/
theorem mappages_pteAt {k perm : ℕ} (hperm : perm = 0 ∨ perm = pteW)
    (h : Owns L s plain (d ::ₘ rest)) (hlow : kernbasePage ≤ v) (hhigh : v + k ≤ topPage) :
    Exec.wlp (mappages d k v n perm) (fun _ s' => ∀ u < kernbasePage,
      pteAt s'.word d u = pteAt s.word d u) s := by
  induction k generalizing s v n with
  | zero => exact Exec.wp_pure.mpr fun _ _ => rfl
  | succ k ih =>
      have htop : v < topPage := by omega
      unfold mappages
      refine Exec.wlp_seq (Exec.wlp_and (walkpgdir_true_spec h htop) (walkpgdir_pteAt h)) ?_
      rintro (_ | ⟨t, j⟩) s1 ⟨⟨h1, -, hres⟩, hsame⟩
      · exact Exec.wp_pure.mpr fun u hu => hsame u (kernbase_lt_top hu)
      · obtain ⟨hat, -⟩ := hres
        have hnd := h1.skeleton_nodup (Multiset.mem_cons_self d rest)
        refine Exec.wp_bind.mpr (Exec.wp_gets.mpr ?_)
        split
        · exact Exec.wlp_throw
        · refine Exec.wp_bind.mpr (Exec.wp_modify.mpr ?_)
          refine Exec.wlp_mono (ih (h1.setKernelEntry hperm hlow htop hat) (by omega)
            (by omega)) ?_
          intro _ s2 h2 u hu
          rw [h2 u hu]
          refine (hat.pteAt_putWord hnd htop (kernbase_lt_top hu) (by omega)).trans ?_
          exact hsame u (kernbase_lt_top hu)

theorem mapKernel_pteAt {ks : List (ℕ × ℕ × ℕ × ℕ)} (h : Owns L s plain (d ::ₘ rest))
    (hks : ∀ k ∈ ks, kernbasePage ≤ k.1 ∧ k.1 + (k.2.2.1 - k.2.1) ≤ topPage ∧
      (k.2.2.2 = 0 ∨ k.2.2.2 = pteW)) :
    Exec.wlp (mapKernel d ks) (fun _ s' => ∀ u < kernbasePage,
      pteAt s'.word d u = pteAt s.word d u) s := by
  induction ks generalizing s with
  | nil => exact Exec.wp_pure.mpr fun _ _ => rfl
  | cons k ks ih =>
      obtain ⟨hlow, hhigh, hperm⟩ := hks k (by simp)
      refine Exec.wlp_seq (Exec.wlp_and (mappages_kernel hperm h hlow hhigh)
        (mappages_pteAt hperm h hlow hhigh)) ?_
      rintro (_ | _) s1 ⟨⟨h1, -⟩, hsame⟩
      · exact Exec.wp_pure.mpr hsame
      · refine Exec.wlp_mono (ih h1 fun k hk => hks k (by simp [hk])) ?_
        intro _ s2 h2 u hu
        exact (h2 u hu).trans (hsame u hu)

/-- A new address space maps nothing for the program. -/
theorem setupkvm_pteAt (h : Owns L s plain rest) :
    Exec.wlp (setupkvm L) (fun r s' => ∀ d, r = some d → ∀ u < kernbasePage,
      pteAt s'.word d u = 0) s := by
  unfold setupkvm
  refine Exec.wlp_seq (kalloc_spec h) ?_
  rintro (_ | d) s1 ⟨h1, -⟩
  · exact Exec.wp_pure.mpr (by simp)
  · rw [handed, Multiset.singleton_add] at h1
    refine Exec.wlp_seq (setPage_spec h1 fun d' hd' =>
      Owns.notMem_skeleton (h1.plain_notMem (Multiset.mem_cons_self d plain) hd')) ?_
    rintro - s2 ⟨h2, hzero, -⟩
    refine Exec.wlp_seq (mapKernel_pteAt (h2.newDir hzero) (kmap_fits L)) ?_
    rintro (_ | _) s3 h3
    · exact Exec.wp_pure.mpr (by simp)
    · refine Exec.wp_pure.mpr ?_
      rintro _ ⟨⟩ u hu
      rw [h3 u hu, pteAt, hzero]
      exact if_neg (by simp [Present])

end Vm

end Xv6
