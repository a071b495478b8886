import Xv6.Vm.Owns

/-!
# What the functions of `kalloc.c` and `vm.c` do with pages

One specification for each function, in terms of where the pages are before and
after.  A function that returns normally keeps every page in one place; it loses
pages only if a page table page has been refused.
-/

namespace Xv6

namespace Vm

open Support

variable {L : Link} {s : Memory} {plain dirs rest : Multiset ℕ} {d n v t j : ℕ}

/-! ## Entries -/

theorem mkPte_present (n perm : ℕ) : Present (mkPte n perm) := by
  have hbit : (perm ||| 1) % 2 = 1 := Nat.or_mod_two_eq_one.mpr (Or.inr rfl)
  unfold Present mkPte pgsize
  omega

theorem mkPte_page {n perm : ℕ} (h : perm < pgsize) : ptePage (mkPte n perm) = n := by
  have hlt : perm ||| 1 < 2 ^ 12 := Nat.or_lt_two_pow (by unfold pgsize at h; omega) (by omega)
  unfold ptePage mkPte pgsize
  omega

theorem not_userBit_mkPte {n perm : ℕ} (h : perm = 0 ∨ perm = pteW) :
    ¬UserBit (mkPte n perm) := by
  have hbits : (perm ||| 1) = 1 ∨ (perm ||| 1) = 3 := by
    rcases h with rfl | rfl
    · exact Or.inl rfl
    · exact Or.inr rfl
  unfold UserBit mkPte pgsize
  omega

/-! ## The allocator -/

/-- The page that a call of `kalloc` hands out. -/
def handed : Option ℕ → Multiset ℕ
  | none => 0
  | some n => {n}

theorem kalloc_spec (h : Owns L s plain dirs) :
    Exec.wlp kalloc (fun r s' => Owns L s' (handed r + plain) dirs ∧ s'.word = s.word ∧
      s'.starved = s.starved) s := by
  have hsame : ∀ d ∈ dirs, SameTables s.word s.word d := fun _ _ _ _ => rfl
  unfold Exec.wlp Exec.wp kalloc
  split
  · refine ⟨h.move hsame ?_ rfl, rfl, rfl⟩
    rename_i heq _
    rw [heq, handed, zero_add]
  · refine ⟨h.move hsame ?_ rfl, rfl, rfl⟩
    rename_i heq _
    rw [heq, handed, ← Multiset.cons_coe, ← Multiset.singleton_add]
    abel
  · refine ⟨h.move hsame ?_ rfl, rfl, rfl⟩
    rw [handed, zero_add]

theorem kfree_spec (h : Owns L s (n ::ₘ plain) dirs) :
    Exec.total (kfree L n) (fun _ s' => Owns L s' plain dirs ∧
      (∀ m, m ≠ n → s'.word m = s.word m) ∧ s'.starved = s.starved) s := by
  have hn := mem_allPages.mp (h.mem_allPages_of_plain (Multiset.mem_cons_self n plain))
  unfold kfree
  split
  · omega
  · refine Exec.wp_modify.mpr ⟨h.move ?_ ?_ rfl, fun m hm => if_neg hm, rfl⟩
    · intro d hd
      refine SameTables.of_page (n := n) ?_ fun m hm => if_neg hm
      exact Owns.notMem_skeleton (h.plain_notMem (Multiset.mem_cons_self n plain) hd)
    · rw [← Multiset.cons_coe, Multiset.cons_add, Multiset.add_cons]

/-- Filling a page that is in no address space. -/
theorem setPage_spec {ws : ℕ → ℕ} (h : Owns L s plain dirs) (hn : ∀ d ∈ dirs, n ∉ skeleton s.word d) :
    Exec.wlp (setPage n ws) (fun _ s' => Owns L s' plain dirs ∧ s'.word n = ws ∧
      (∀ m, m ≠ n → s'.word m = s.word m) ∧ s'.starved = s.starved) s := by
  refine Exec.wp_modify.mpr ⟨h.move ?_ rfl rfl, if_pos rfl, fun m hm => if_neg hm, rfl⟩
  intro d hd
  exact SameTables.of_page (n := n) (hn d hd) fun m hm => if_neg hm

/-! ## Walking and mapping -/

/-- The entry for the virtual page `v` is word `j` of the table `t`. -/
structure EntryAt (word : ℕ → ℕ → ℕ) (d v t j : ℕ) : Prop where
  present : Present (word d (v / npentries))
  table : ptePage (word d (v / npentries)) = t
  index : j = v % npentries

theorem index_lt (v : ℕ) : v % npentries < npentries := by
  unfold npentries
  omega

theorem dirIndex_lt (hv : v < topPage) : v / npentries < npentries := by
  unfold npentries topPage at *
  omega

/-- The directory entries present before are still the same. -/
def Grows (word word' : ℕ → ℕ → ℕ) (d : ℕ) : Prop :=
  ∀ i, Present (word d i) → word' d i = word d i

theorem Grows.of_eq {word word' : ℕ → ℕ → ℕ} (h : word' d = word d) : Grows word word' d :=
  fun i _ => congrFun h i

theorem Grows.trans {word word' word'' : ℕ → ℕ → ℕ} (h : Grows word word' d)
    (h' : Grows word' word'' d) : Grows word word'' d := by
  intro i hp
  rw [h' i (by rw [h i hp]; exact hp), h i hp]

theorem Grows.present {word word' : ℕ → ℕ → ℕ} (h : Grows word word' d) {i : ℕ}
    (hp : Present (word d i)) : Present (word' d i) := by
  rw [h i hp]
  exact hp

/-- Without allocation `walkpgdir` only looks. -/
theorem walkpgdir_false (d v : ℕ) (s : Memory) :
    walkpgdir d v false s =
      (.ok (if Present (s.word d (v / npentries)) then
        some (ptePage (s.word d (v / npentries)), v % npentries) else none), s) := by
  unfold walkpgdir
  rw [Exec.bind_run_ok (Exec.gets_run _ s)]
  split <;> rfl

theorem walkpgdir_false_spec (d v : ℕ) (s : Memory) :
    Exec.total (walkpgdir d v false) (fun r s' => s' = s ∧
      match r with
      | none => ¬Present (s.word d (v / npentries))
      | some (t, j) => EntryAt s.word d v t j) s := by
  unfold Exec.total Exec.wp
  rw [walkpgdir_false]
  split
  · rename_i hp
    exact ⟨rfl, hp, rfl, rfl⟩
  · rename_i hp
    exact ⟨rfl, hp⟩

/-- With allocation a missing table is added to the address space. -/
theorem walkpgdir_true_spec (h : Owns L s plain (d ::ₘ rest)) (hv : v < topPage) :
    Exec.wlp (walkpgdir d v true) (fun r s' => Owns L s' plain (d ::ₘ rest) ∧
      Grows s.word s'.word d ∧
      match r with
      | none => s'.starved = true
      | some (t, j) => EntryAt s'.word d v t j ∧ s'.starved = s.starved) s := by
  unfold walkpgdir
  refine Exec.wp_bind.mpr (Exec.wp_gets.mpr ?_)
  split
  · rename_i hp
    exact Exec.wp_pure.mpr ⟨h, Grows.of_eq rfl, ⟨hp, rfl, rfl⟩, rfl⟩
  · rename_i hp
    rw [if_neg (by simp)]
    refine Exec.wlp_seq (kalloc_spec h) ?_
    rintro (_ | t) s1 ⟨h1, hword1, hstarved1⟩
    · rw [handed, zero_add] at h1
      refine Exec.wp_bind.mpr (Exec.wp_modify.mpr (Exec.wp_pure.mpr
        ⟨?_, Grows.of_eq (congrFun hword1 d), rfl⟩))
      obtain ⟨lost, -, hbal⟩ := h1.balance
      exact ⟨⟨lost, by simp, hbal⟩, h1.wellFormed⟩
    · rw [handed, Multiset.singleton_add] at h1
      have hfresh : ∀ d' ∈ d ::ₘ rest, t ∉ skeleton s1.word d' := fun d' hd' =>
        Owns.notMem_skeleton (h1.plain_notMem (Multiset.mem_cons_self t plain) hd')
      refine Exec.wlp_seq (setPage_spec h1 hfresh) ?_
      rintro - s2 ⟨h2, hzero, hother, hstarved2⟩
      have htd : t ≠ d := by
        rintro rfl
        exact hfresh t (Multiset.mem_cons_self t rest) (mem_skeleton_self s1.word t)
      have hfresh2 : ∀ d' ∈ d ::ₘ rest, t ∉ skeleton s2.word d' := fun d' hd' =>
        Owns.notMem_skeleton (h2.plain_notMem (Multiset.mem_cons_self t plain) hd')
      have hdself := Multiset.mem_cons_self d rest
      have hnd := h2.skeleton_nodup hdself
      have hp2 : ¬Present (s2.word d (v / npentries)) := by
        rw [hother d htd.symm, hword1]
        exact hp
      have hpte : ptePage (mkPte t pteWU) = t := mkPte_page (by decide)
      refine Exec.wp_bind.mpr (Exec.wp_modify.mpr (Exec.wp_pure.mpr
        ⟨?_, ?_, ⟨?_, ?_, rfl⟩, ?_⟩))
      · refine h2.exchange ?_ ?_ rfl rfl ?_
        · intro d' hd'
          refine SameTables.of_page (n := d) ?_ fun m hm => putWord_other_page hm
          apply Owns.notMem_skeleton
          refine h2.footprint_notMem ?_ hd'
          unfold footprint
          exact Multiset.mem_add.mpr (Or.inl (mem_skeleton_self s2.word d))
        · have hfoot := footprint_putWord_dir hnd (dirIndex_lt hv) hp2 (hfresh2 d hdself)
            (fun k => congrFun hzero k) (mkPte_present t pteWU) hpte
          change plain + footprint (putWord s2.word d (v / npentries) (mkPte t pteWU)) d = _
          rw [hfoot, ← Multiset.singleton_add]
          abel
        · exact (h2.wellFormed d hdself).putWord_dir hnd htd (fun k => congrFun hzero k) hpte
      · intro i hpi
        have hne : i ≠ v / npentries := by
          rintro rfl
          exact hp hpi
        change putWord s2.word d (v / npentries) (mkPte t pteWU) d i = _
        rw [putWord_other_index hne, hother d htd.symm, hword1]
      · simpa using mkPte_present t pteWU
      · simpa using hpte
      · exact hstarved2.trans hstarved1

theorem user_iff (hv : v < topPage) : v / npentries < userEntries ↔ v < kernbasePage := by
  unfold npentries userEntries kernbasePage topPage at *
  omega

/-- Storing a table entry moves the page it referred to out of the address space
and the page it refers to now into it. -/
theorem Owns.setEntry {plain' : Multiset ℕ} {w : ℕ} (h : Owns L s plain (d ::ₘ rest))
    (hv : v < topPage) (hat : EntryAt s.word d v t j) (hw : Present w ∨ w = 0)
    (hk : kernbasePage ≤ v → ¬UserBit w)
    (hpages : plain' + userEntry (v / npentries) w =
      plain + userEntry (v / npentries) (s.word t j)) :
    Owns L { s with word := putWord s.word t j w } plain' (d ::ₘ rest) := by
  have hdself := Multiset.mem_cons_self d rest
  have hnd := h.skeleton_nodup hdself
  have hi := dirIndex_lt hv
  have hj : j < npentries := by
    rw [hat.index]
    exact index_lt v
  refine h.exchange ?_ ?_ rfl rfl ?_
  · intro d' hd'
    refine SameTables.of_page (n := t) ?_ fun m hm => putWord_other_page hm
    apply Owns.notMem_skeleton
    refine h.footprint_notMem ?_ hd'
    unfold footprint
    rw [← hat.table]
    exact Multiset.mem_add.mpr (Or.inl (mem_skeleton_table hi hat.present))
  · have hfoot := footprint_putWord_table (w := w) hnd hi hj hat.present hat.table
    apply add_right_cancel (b := userEntry (v / npentries) (s.word t j))
    calc _ = plain' + (footprint (putWord s.word t j w) d +
            userEntry (v / npentries) (s.word t j)) := by abel
      _ = (plain' + userEntry (v / npentries) w) + footprint s.word d := by rw [hfoot]; abel
      _ = _ := by rw [hpages]; abel
  · refine (h.wellFormed d hdself).putWord_table hnd hi hat.present hat.table hw ?_
    intro hu
    apply hk
    by_contra hlt
    have := (user_iff hv).mpr (by omega)
    omega

/-- Storing a table entry leaves the directory alone. -/
theorem EntryAt.dir_eq {w : ℕ} (hat : EntryAt s.word d v t j)
    (hnd : (skeleton s.word d).Nodup) (hv : v < topPage) :
    putWord s.word t j w d = s.word d := by
  apply putWord_other_page
  rw [← hat.table]
  exact (table_ne_dir hnd (dirIndex_lt hv) hat.present).symm

theorem EntryAt.putWord {w : ℕ} (hat : EntryAt s.word d v t j)
    (hnd : (skeleton s.word d).Nodup) (hv : v < topPage) :
    EntryAt (Vm.putWord s.word t j w) d v t j := by
  have hdir := hat.dir_eq (w := w) hnd hv
  refine ⟨?_, ?_, hat.index⟩
  · rw [hdir]
    exact hat.present
  · rw [hdir]
    exact hat.table

/-- Mapping a page that has been taken from the allocator below `KERNBASE`. -/
theorem mapOne_user {perm : ℕ} (h : Owns L s (n ::ₘ plain) (d ::ₘ rest))
    (hv : v < kernbasePage) (hperm : perm < pgsize) :
    Exec.wlp (mappages d 1 v n perm) (fun r s' => Grows s.word s'.word d ∧
      if r = true then Owns L s' plain (d ::ₘ rest) ∧
        ∃ t j, EntryAt s'.word d v t j ∧ s'.word t j = mkPte n perm
      else Owns L s' (n ::ₘ plain) (d ::ₘ rest) ∧ s'.starved = true) s := by
  have htop : v < topPage := by
    unfold kernbasePage topPage at *
    omega
  unfold mappages
  refine Exec.wlp_seq (walkpgdir_true_spec h htop) ?_
  rintro (_ | ⟨t, j⟩) s1 ⟨h1, hgrow, hres⟩
  · exact Exec.wp_pure.mpr ⟨hgrow, h1, hres⟩
  · obtain ⟨hat, -⟩ := hres
    have hnd := h1.skeleton_nodup (Multiset.mem_cons_self d rest)
    refine Exec.wp_bind.mpr (Exec.wp_gets.mpr ?_)
    split
    · exact Exec.wlp_throw
    · rename_i hp
      refine Exec.wp_bind.mpr (Exec.wp_modify.mpr ?_)
      unfold mappages
      refine Exec.wp_pure.mpr ⟨hgrow.trans (Grows.of_eq (hat.dir_eq hnd htop)), ?_, t, j, ?_,
        putWord_same⟩
      · refine h1.setEntry htop hat (Or.inl (mkPte_present n perm)) (fun hge => by omega) ?_
        have huser := (user_iff htop).mpr hv
        rw [userEntry, userEntry, if_pos huser, if_pos huser, entry_of_not_present hp,
          entry_of_present (mkPte_present n perm), mkPte_page hperm, add_zero,
          ← Multiset.singleton_add, add_comm]
      · exact hat.putWord hnd htop

/-- A page mapped below `KERNBASE` belongs to the address space. -/
theorem mem_footprint_user (hv : v < kernbasePage) (hat : EntryAt s.word d v t j)
    (hp : Present (s.word t j)) : ptePage (s.word t j) ∈ footprint s.word d := by
  have htop : v < topPage := by
    unfold kernbasePage topPage at *
    omega
  have hj : j < npentries := by
    rw [hat.index]
    exact index_lt v
  unfold footprint
  rw [← hat.table] at hp ⊢
  exact Multiset.mem_add.mpr (Or.inr
    (mem_userPages ((user_iff htop).mpr hv) hj hat.present hp))

/-- A page mapped below `KERNBASE` is neither a directory nor a table. -/
theorem Owns.user_notMem (h : Owns L s plain (d ::ₘ rest)) (hv : v < kernbasePage)
    (hat : EntryAt s.word d v t j) (hp : Present (s.word t j)) :
    ∀ d' ∈ d ::ₘ rest, ptePage (s.word t j) ∉ skeleton s.word d' := by
  have htop : v < topPage := by
    unfold kernbasePage topPage at *
    omega
  have hj : j < npentries := by
    rw [hat.index]
    exact index_lt v
  have huser : ptePage (s.word t j) ∈ userPages s.word d := by
    rw [← hat.table] at hp ⊢
    exact mem_userPages ((user_iff htop).mpr hv) hj hat.present hp
  intro d' hd'
  rcases Multiset.mem_cons.mp hd' with rfl | hd'
  · have hfoot := h.footprint_nodup (Multiset.mem_cons_self d' rest)
    unfold footprint at hfoot
    intro hmem
    exact Multiset.disjoint_left.mp (Multiset.nodup_add.mp hfoot).2.2 hmem huser
  · apply Owns.notMem_skeleton
    refine h.footprint_notMem ?_ hd'
    unfold footprint
    exact Multiset.mem_add.mpr (Or.inr huser)

/-- An entry for the kernel counts for no address space. -/
theorem Owns.setKernelEntry {perm : ℕ} (hperm : perm = 0 ∨ perm = pteW)
    (h : Owns L s plain (d ::ₘ rest)) (hlow : kernbasePage ≤ v) (hv : v < topPage)
    (hat : EntryAt s.word d v t j) :
    Owns L { s with word := Vm.putWord s.word t j (mkPte n perm) } plain (d ::ₘ rest) := by
  refine h.setEntry hv hat (Or.inl (mkPte_present n perm)) (fun _ => not_userBit_mkPte hperm) ?_
  have huser : ¬v / npentries < userEntries := by
    rw [user_iff hv]
    omega
  rw [userEntry, userEntry, if_neg huser, if_neg huser]

/-- Mapping pages of the kernel, which belong to no address space. -/
theorem mappages_kernel {k perm : ℕ} (hperm : perm = 0 ∨ perm = pteW)
    (h : Owns L s plain (d ::ₘ rest)) (hlow : kernbasePage ≤ v) (hhigh : v + k ≤ topPage) :
    Exec.wlp (mappages d k v n perm) (fun r s' => Owns L s' plain (d ::ₘ rest) ∧
      Grows s.word s'.word d ∧
      if r = true then ∀ u, v ≤ u → u < v + k → Present (s'.word d (u / npentries))
      else s'.starved = true) s := by
  induction k generalizing s v n with
  | zero => exact Exec.wp_pure.mpr ⟨h, Grows.of_eq rfl, fun u _ _ => by omega⟩
  | succ k ih =>
      have htop : v < topPage := by omega
      unfold mappages
      refine Exec.wlp_seq (walkpgdir_true_spec h htop) ?_
      rintro (_ | ⟨t, j⟩) s1 ⟨h1, hgrow, hres⟩
      · exact Exec.wp_pure.mpr ⟨h1, hgrow, hres⟩
      · obtain ⟨hat, -⟩ := hres
        have hnd := h1.skeleton_nodup (Multiset.mem_cons_self d rest)
        refine Exec.wp_bind.mpr (Exec.wp_gets.mpr ?_)
        split
        · exact Exec.wlp_throw
        · refine Exec.wp_bind.mpr (Exec.wp_modify.mpr ?_)
          have hdir := hat.dir_eq (w := mkPte n perm) hnd htop
          refine Exec.wlp_mono (ih (h1.setKernelEntry hperm hlow htop hat) (by omega)
            (by omega)) ?_
          rintro r s2 ⟨h2, hgrow2, hres2⟩
          have hsame : Grows s1.word s2.word d := (Grows.of_eq hdir).trans hgrow2
          refine ⟨h2, hgrow.trans hsame, ?_⟩
          split
          · rename_i hr
            rw [if_pos hr] at hres2
            intro u hlo hhi
            rcases Nat.eq_or_lt_of_le hlo with rfl | hlt
            · exact hsame.present hat.present
            · exact hres2 u (by omega) (by omega)
          · rename_i hr
            rw [if_neg hr] at hres2
            exact hres2

theorem mapKernel_spec {ks : List (ℕ × ℕ × ℕ × ℕ)} (h : Owns L s plain (d ::ₘ rest))
    (hks : ∀ k ∈ ks, kernbasePage ≤ k.1 ∧ k.1 + (k.2.2.1 - k.2.1) ≤ topPage ∧
      (k.2.2.2 = 0 ∨ k.2.2.2 = pteW)) :
    Exec.wlp (mapKernel d ks) (fun r s' => Owns L s' plain (d ::ₘ rest) ∧
      Grows s.word s'.word d ∧
      if r = true then ∀ k ∈ ks, ∀ u, k.1 ≤ u → u < k.1 + (k.2.2.1 - k.2.1) →
        Present (s'.word d (u / npentries))
      else s'.starved = true) s := by
  induction ks generalizing s with
  | nil => exact Exec.wp_pure.mpr ⟨h, Grows.of_eq rfl, by simp⟩
  | cons k ks ih =>
      obtain ⟨hlow, hhigh, hperm⟩ := hks k (by simp)
      refine Exec.wlp_seq (mappages_kernel hperm h hlow hhigh) ?_
      rintro (_ | _) s1 ⟨h1, hgrow, hres⟩
      · exact Exec.wp_pure.mpr ⟨h1, hgrow, hres⟩
      · refine Exec.wlp_mono (ih h1 fun k hk => hks k (by simp [hk])) ?_
        rintro r s2 ⟨h2, hgrow2, hres2⟩
        refine ⟨h2, hgrow.trans hgrow2, ?_⟩
        split
        · rename_i hr
          rw [if_pos hr] at hres2
          intro k' hk' u hlo hhi
          rcases List.mem_cons.mp hk' with rfl | hk'
          · exact hgrow2.present (hres u hlo hhi)
          · exact hres2 k' hk' u hlo hhi
        · rename_i hr
          rw [if_neg hr] at hres2
          exact hres2

theorem kmap_fits (L : Link) : ∀ k ∈ kmap L, kernbasePage ≤ k.1 ∧
    k.1 + (k.2.2.1 - k.2.1) ≤ topPage ∧ (k.2.2.2 = 0 ∨ k.2.2.2 = pteW) := by
  intro k hk
  have h1 := L.text_lt
  have h2 := L.data_le
  have h3 := L.kend_le
  unfold kmap at hk
  unfold kernbasePage extmemPage phystopPage devspacePage topPage at *
  simp only [List.mem_cons, List.not_mem_nil, or_false] at hk
  rcases hk with rfl | rfl | rfl | rfl
  · exact ⟨by simp only; omega, by simp only; omega, Or.inr rfl⟩
  · exact ⟨by simp only; omega, by simp only; omega, Or.inl rfl⟩
  · exact ⟨by simp only; omega, by simp only; omega, Or.inr rfl⟩
  · exact ⟨by simp only; omega, by simp only; omega, Or.inr rfl⟩

/-! ## Address spaces -/

/-- A zeroed page becomes a directory without tables. -/
theorem Owns.newDir (h : Owns L s (d ::ₘ plain) rest) (hzero : s.word d = fun _ => 0) :
    Owns L s plain (d ::ₘ rest) := by
  have hnone : ∀ i, ¬Present (s.word d i) := by
    intro i
    rw [hzero]
    simp [Present]
  have hfoot : footprint s.word d = {d} := by
    unfold footprint skeleton tables userPages
    rw [Finset.sum_eq_zero fun i _ => entry_of_not_present (hnone i),
      Finset.sum_eq_zero fun i _ => by rw [mappedBy, if_neg (hnone i)]]
    simp
  obtain ⟨lost, hlost, hbal⟩ := h.balance
  refine ⟨⟨lost, hlost, ?_⟩, ?_⟩
  · rw [← hbal, Multiset.map_cons, Multiset.sum_cons, hfoot, ← Multiset.singleton_add]
    abel
  · intro d' hd'
    rcases Multiset.mem_cons.mp hd' with rfl | hd'
    · exact ⟨fun i _ hp => absurd hp (hnone i), fun i _ _ hp => absurd hp (hnone i)⟩
    · exact h.wellFormed d' hd'

/-- The tables for the virtual pages below `n` and for the devices at the top of
the address space are there. -/
def Reach (word : ℕ → ℕ → ℕ) (d n : ℕ) : Prop :=
  ∀ u, u < n ∨ devspacePage ≤ u ∧ u < topPage → Present (word d (u / npentries))

theorem Reach.grows {word word' : ℕ → ℕ → ℕ} (h : Reach word d n)
    (hgrow : Grows word word' d) : Reach word' d n :=
  fun u hu => hgrow.present (h u hu)

theorem setupkvm_spec (h : Owns L s plain rest) :
    Exec.wlp (setupkvm L) (fun r s' =>
      match r with
      | none => Owns L s' plain rest
      | some d => Owns L s' plain (d ::ₘ rest) ∧ Reach s'.word d 0) s := by
  unfold setupkvm
  refine Exec.wlp_seq (kalloc_spec h) ?_
  rintro (_ | d) s1 ⟨h1, -⟩
  · rw [handed, zero_add] at h1
    exact Exec.wp_pure.mpr h1
  · rw [handed, Multiset.singleton_add] at h1
    refine Exec.wlp_seq (setPage_spec h1 fun d' hd' =>
      Owns.notMem_skeleton (h1.plain_notMem (Multiset.mem_cons_self d plain) hd')) ?_
    rintro - s2 ⟨h2, hzero, -⟩
    refine Exec.wlp_seq (mapKernel_spec (h2.newDir hzero) (kmap_fits L)) ?_
    rintro (_ | _) s3 ⟨h3, -, hres⟩
    · exact Exec.wp_pure.mpr (h3.lose_dir hres)
    · refine Exec.wp_pure.mpr ⟨h3, fun u hu => ?_⟩
      refine hres (devspacePage, devspacePage, topPage, pteW) (by simp [kmap]) u ?_ ?_
      · simp only
        omega
      · simp only
        unfold devspacePage topPage at *
        omega

theorem allocFrom_spec {k : ℕ} (h : Owns L s plain (d ::ₘ rest)) (hv : v + k ≤ kernbasePage) :
    Exec.wlp (allocFrom d k v) (fun r s' => Owns L s' plain (d ::ₘ rest) ∧
      Grows s.word s'.word d ∧ (s.hole = true → s'.hole = true) ∧
      (r = true → s'.hole = false → Reach s.word d v → Reach s'.word d (v + k))) s := by
  induction k generalizing s v with
  | zero => exact Exec.wp_pure.mpr ⟨h, Grows.of_eq rfl, fun hh => hh, fun _ _ hr => hr⟩
  | succ k ih =>
      unfold allocFrom
      refine Exec.wlp_seq (Exec.wp_keeps (kalloc_spec h) keeps_kalloc) ?_
      rintro (_ | n) s1 ⟨⟨h1, hword1, -⟩, hrec1⟩
      · rw [handed, zero_add] at h1
        refine Exec.wp_pure.mpr ⟨h1, Grows.of_eq (congrFun hword1 d), ?_, by simp⟩
        intro hh
        exact (Memory.hole_of_record hrec1).trans hh
      · rw [handed, Multiset.singleton_add] at h1
        refine Exec.wp_bind.mpr (Exec.wp_modify.mpr ?_)
        have h2 : Owns L { s1 with trace := .grant n :: s1.trace } (n ::ₘ plain) (d ::ₘ rest) :=
          h1.move (fun _ _ _ _ => rfl) rfl rfl
        have hfresh : ∀ d' ∈ d ::ₘ rest, n ∉ skeleton s1.word d' := fun d' hd' =>
          Owns.notMem_skeleton (h2.plain_notMem (Multiset.mem_cons_self n plain) hd')
        have hdn : d ≠ n := by
          rintro rfl
          exact hfresh d (Multiset.mem_cons_self d rest) (mem_skeleton_self s1.word d)
        refine Exec.wlp_seq (Exec.wp_keeps (setPage_spec h2 hfresh) (keeps_setPage _ _)) ?_
        rintro - s3 ⟨⟨h3, -, hother, -⟩, hrec3⟩
        have hgrow3 : Grows s.word s3.word d := Grows.of_eq ((hother d hdn).trans
          (congrFun hword1 d))
        refine Exec.wlp_seq (Exec.wp_keeps (mapOne_user h3 (by omega) (by decide))
          (keeps_mappages _ _ _ _ _)) ?_
        rintro r s4 ⟨⟨hgrow4, h4⟩, hrec4⟩
        have hhole4 : s4.hole = s.hole := by
          have hhole1 := Memory.hole_of_record hrec1
          have hhole3 := Memory.hole_of_record hrec3
          exact (Memory.hole_of_marks hrec4).trans (hhole3.trans hhole1)
        have howns : Owns L s4 plain (d ::ₘ rest) := by
          split at h4
          · exact h4.1
          · exact h4.1.lose h4.2
        refine Exec.wp_bind.mpr (Exec.wp_modify.mpr ?_)
        have h5 : Owns L (s4.noteMapped r) plain (d ::ₘ rest) :=
          howns.move (fun _ _ _ _ => rfl) rfl rfl
        refine Exec.wlp_mono (ih h5 (by omega)) ?_
        rintro r' s6 ⟨h6, hgrow6, hhole6, hreach6⟩
        refine ⟨h6, (hgrow3.trans hgrow4).trans hgrow6, ?_, ?_⟩
        · intro hh
          apply hhole6
          simp [Memory.noteMapped, hhole4, hh]
        · intro hr' hh hreach
          have hrtrue : r = true := by
            by_contra hr
            rw [if_neg hr] at h4
            have := hhole6 (by simp [Memory.noteMapped, hr, h4.2])
            simp [this] at hh
          rw [if_pos hrtrue] at h4
          obtain ⟨-, t, j, hat, -⟩ := h4
          have hstep : Reach s4.word d (v + 1) := by
            intro u hu
            by_cases huv : u = v
            · rw [huv]
              exact hat.present
            · exact (hgrow3.trans hgrow4).present (hreach u (by omega))
          rw [show v + (k + 1) = v + 1 + k by omega]
          exact hreach6 hr' hh hstep

/-! ## Freeing an address space -/

/-- The virtual pages below `v` are not mapped. -/
def Unmapped (word : ℕ → ℕ → ℕ) (d v : ℕ) : Prop :=
  ∀ u < v, Present (word d (u / npentries)) →
    ¬Present (word (ptePage (word d (u / npentries))) (u % npentries))

theorem Unmapped.mono {word : ℕ → ℕ → ℕ} {v' : ℕ} (h : Unmapped word d v) (hle : v' ≤ v) :
    Unmapped word d v' :=
  fun u hu => h u (by omega)

/-- One round of the loop of `deallocuvm` that finds a page: the page goes back
to the free list and its entry is cleared. -/
theorem unmap_spec (h : Owns L s plain (d ::ₘ rest)) (hv : v < kernbasePage)
    (hat : EntryAt s.word d v t j) (hp : Present (s.word t j)) :
    Exec.total (kfree L (ptePage (s.word t j)) >>= fun _ => setWord t j 0) (fun _ s' =>
      Owns L s' plain (d ::ₘ rest) ∧ s'.starved = s.starved ∧
      (∀ m ∈ plain, s'.word m = s.word m) ∧
      ∀ m ∈ skeleton s.word d, s'.word m = putWord s.word t j 0 m) s := by
  have htop : v < topPage := by
    unfold kernbasePage topPage at *
    omega
  have hi := dirIndex_lt htop
  have hu := (user_iff htop).mpr hv
  have hout := h.user_notMem hv hat hp d (Multiset.mem_cons_self d rest)
  have htskel : t ∈ skeleton s.word d := by
    rw [← hat.table]
    exact mem_skeleton_table hi hat.present
  have htn : ptePage (s.word t j) ≠ t := by
    intro heq
    rw [heq] at hout
    exact hout htskel
  -- clear the entry first: the page is then outside of the address space
  have hcleared : Owns L { s with word := putWord s.word t j 0 }
      (ptePage (s.word t j) ::ₘ plain) (d ::ₘ rest) := by
    refine h.setEntry htop hat (Or.inr rfl) (fun _ => by simp [UserBit]) ?_
    rw [userEntry, userEntry, if_pos hu, if_pos hu, entry_zero, entry_of_present hp, add_zero,
      ← Multiset.singleton_add, add_comm]
  have hspec := kfree_spec hcleared
  unfold kfree at hspec ⊢
  split at hspec
  · exact (Exec.wp_throw.mp hspec).elim
  · rename_i hok
    rw [if_neg hok]
    obtain ⟨hfreed, hword, -⟩ := Exec.wp_modify.mp hspec
    refine Exec.wp_bind.mpr (Exec.wp_modify.mpr (Exec.wp_modify.mpr ?_))
    refine ⟨?_, rfl, ?_, ?_⟩
    · refine hfreed.move ?_ rfl rfl
      intro d' hd' m hm
      funext k
      by_cases hmn : m = ptePage (s.word t j)
      · subst hmn
        simp [htn]
      · simp [hmn, putWord]
    · intro m hm
      have hmt : m ≠ t := by
        rintro rfl
        exact Owns.notMem_skeleton (h.plain_notMem hm (Multiset.mem_cons_self d rest)) htskel
      have hmn : m ≠ ptePage (s.word t j) := by
        rintro rfl
        have hnd := (Multiset.nodup_add.mp (Multiset.nodup_add.mp hcleared.nodup).1).2.1
        exact (Multiset.nodup_cons.mp hnd).1 hm
      funext k
      simp [hmn, hmt]
    · intro m hm
      have hmn : m ≠ ptePage (s.word t j) := by
        rintro rfl
        exact hout hm
      funext k
      simp [hmn, putWord]

theorem Unmapped.step {word word' : ℕ → ℕ → ℕ} (h : Unmapped word d v)
    (hnd : (skeleton word d).Nodup) (hv : v < topPage) (hat : EntryAt word d v t j)
    (hword : ∀ m ∈ skeleton word d, word' m = putWord word t j 0 m) :
    word' d = word d ∧ Unmapped word' d (v + 1) := by
  have htd : d ≠ t := by
    rw [← hat.table]
    exact (table_ne_dir hnd (dirIndex_lt hv) hat.present).symm
  have hdir : word' d = word d := by
    rw [hword d (mem_skeleton_self word d), putWord_other_page htd]
  refine ⟨hdir, ?_⟩
  intro u hu hp
  rw [hdir] at hp ⊢
  rw [hword _ (mem_skeleton_table (dirIndex_lt (by omega)) hp)]
  by_cases hkey : ptePage (word d (u / npentries)) = t ∧ u % npentries = j
  · rw [hkey.1, hkey.2, putWord_same]
    simp [Present]
  · rw [putWord, if_neg hkey]
    rcases Nat.lt_succ_iff_lt_or_eq.mp hu with hlt | rfl
    · exact h u hlt hp
    · exact absurd ⟨hat.table, hat.index.symm⟩ hkey

theorem deallocFrom_spec {k last : ℕ} (h : Owns L s plain (d ::ₘ rest))
    (hlast : last ≤ kernbasePage) :
    Exec.total (deallocFrom L d k v last) (fun _ s' => Owns L s' plain (d ::ₘ rest) ∧
      s'.starved = s.starved ∧ (∀ m ∈ plain, s'.word m = s.word m) ∧
      -- started at a table boundary, the loop leaves nothing mapped
      (last ≤ v + k → Unmapped s.word d v →
        (v % npentries ≠ 0 → Present (s.word d (v / npentries))) →
        Unmapped s'.word d last)) s := by
  induction k generalizing s v with
  | zero => exact Exec.wp_pure.mpr ⟨h, rfl, fun _ _ => rfl, fun hle hun _ => hun.mono hle⟩
  | succ k ih =>
      unfold deallocFrom
      by_cases hvl : v < last
      · rw [if_pos hvl]
        have htop : v < topPage := by
          unfold kernbasePage topPage at *
          omega
        have hnd := h.skeleton_nodup (Multiset.mem_cons_self d rest)
        -- the entry for the next page lies in the same table or at the start of one
        have hnext : ∀ {word' : ℕ → ℕ → ℕ}, word' d = s.word d →
            Present (s.word d (v / npentries)) →
            (v + 1) % npentries ≠ 0 → Present (word' d ((v + 1) / npentries)) := by
          intro word' hdir hp hmod
          have hdiv : (v + 1) / npentries = v / npentries := by
            unfold npentries at *
            omega
          rw [hdir, hdiv]
          exact hp
        refine Exec.total_seq (walkpgdir_false_spec d v s) ?_
        rintro (_ | ⟨t, j⟩) s1 ⟨rfl, hres⟩
        · refine Exec.total_mono (ih h) ?_
          rintro - s2 ⟨h2, hst, hkeep, himp⟩
          refine ⟨h2, hst, hkeep, fun hle hun halign => himp ?_ ?_ ?_⟩
          · unfold npentries
            omega
          · intro u hu hp
            rcases Nat.lt_or_ge u v with hlt | hge
            · exact hun u hlt hp
            · have hzero : v % npentries = 0 := by
                by_contra hne
                exact hres (halign hne)
              have hdiv : u / npentries = v / npentries := by
                unfold npentries at *
                omega
              rw [hdiv] at hp
              exact absurd hp hres
          · intro hne
            have hzero : v % npentries = 0 := by
              by_contra hne'
              exact hres (halign hne')
            unfold npentries at *
            omega
        · refine Exec.wp_bind.mpr (Exec.wp_gets.mpr ?_)
          split
          · rename_i hp
            have hpage := mem_allPages.mp (h.mem_allPages_of_footprint
              (Multiset.mem_cons_self d rest) (mem_footprint_user (by omega) hres hp))
            have hend := L.text_lt
            have hdata := L.data_le
            split
            · rename_i hzero
              rw [hzero] at hpage
              omega
            · have hspec := unmap_spec h (by omega) hres hp
              refine Exec.total_seq (Exec.wp_bind.mp hspec) ?_
              intro _ s2 hset
              refine Exec.total_seq hset ?_
              rintro - s3 ⟨h3, hst3, hkeep3, hword⟩
              refine Exec.total_mono (ih h3) ?_
              rintro - s4 ⟨h4, hst, hkeep, himp⟩
              refine ⟨h4, hst.trans hst3, fun m hm => (hkeep m hm).trans (hkeep3 m hm),
                fun hle hun _ => ?_⟩
              obtain ⟨hdir, hun'⟩ := hun.step hnd htop hres hword
              exact himp (by omega) hun' (hnext hdir hres.present)
          · rename_i hp
            refine Exec.total_mono (ih h) ?_
            rintro - s4 ⟨h4, hst, hkeep, himp⟩
            refine ⟨h4, hst, hkeep, fun hle hun _ => himp (by omega) ?_ (hnext rfl hres.present)⟩
            intro u hu hpu
            rcases Nat.lt_succ_iff_lt_or_eq.mp hu with hlt | rfl
            · exact hun u hlt hpu
            · rw [hres.table, ← hres.index]
              exact hp
      · rw [if_neg hvl]
        exact Exec.wp_pure.mpr ⟨h, rfl, fun _ _ => rfl, fun _ hun _ => hun.mono (by omega)⟩

theorem pagesOf_mono {oldsz newsz : ℕ} (h : oldsz ≤ newsz) : pagesOf oldsz ≤ pagesOf newsz :=
  Nat.div_le_div_right (Nat.add_le_add_right h _)

theorem pagesOf_le {sz : ℕ} (h : sz ≤ kernbase) : pagesOf sz ≤ kernbasePage := by
  unfold pagesOf kernbasePage kernbase pgsize at *
  omega

theorem deallocuvm_spec {oldsz newsz : ℕ} (h : Owns L s plain (d ::ₘ rest))
    (hold : oldsz ≤ kernbase) :
    Exec.total (deallocuvm L d oldsz newsz) (fun r s' => Owns L s' plain (d ::ₘ rest) ∧
      r ≤ oldsz) s := by
  unfold deallocuvm
  split
  · exact Exec.wp_pure.mpr ⟨h, le_rfl⟩
  · refine Exec.total_seq (deallocFrom_spec h (pagesOf_le hold)) ?_
    rintro - s1 ⟨h1, -⟩
    exact Exec.wp_pure.mpr ⟨h1, by omega⟩

theorem keeps_deallocFrom (L : Link) (d k v last : ℕ) :
    Exec.Keeps Memory.record (deallocFrom L d k v last) := by
  induction k generalizing v with
  | zero => exact Exec.Keeps.pure
  | succ k ih =>
      unfold deallocFrom
      split
      · refine Exec.Keeps.bind (keeps_lookup _ _) fun r => ?_
        cases r with
        | none => exact ih _
        | some e =>
            refine Exec.Keeps.bind Exec.Keeps.gets fun pte => ?_
            split
            · split
              · exact Exec.Keeps.throw
              · refine Exec.Keeps.bind (keeps_kfree _ _) fun _ => ?_
                exact Exec.Keeps.bind (keeps_setWord _ _ _) fun _ => ih _
            · exact ih _
      · exact Exec.Keeps.pure

theorem keeps_deallocuvm (L : Link) (d oldsz newsz : ℕ) :
    Exec.Keeps Memory.record (deallocuvm L d oldsz newsz) := by
  unfold deallocuvm
  split
  · exact Exec.Keeps.pure
  · exact Exec.Keeps.bind (keeps_deallocFrom _ _ _ _ _) fun _ => Exec.Keeps.pure

theorem keeps_freeTables (L : Link) (d k i : ℕ) :
    Exec.Keeps Memory.record (freeTables L d k i) := by
  induction k generalizing i with
  | zero => exact Exec.Keeps.pure
  | succ k ih =>
      refine Exec.Keeps.bind Exec.Keeps.gets fun pde => ?_
      split
      · exact Exec.Keeps.bind (keeps_kfree _ _) fun _ => ih _
      · exact ih _

theorem keeps_freevm (L : Link) (d : ℕ) : Exec.Keeps Memory.record (freevm L d) :=
  Exec.Keeps.bind (keeps_deallocuvm _ _ _ _) fun _ =>
    Exec.Keeps.bind (keeps_freeTables _ _ _ _) fun _ => keeps_kfree _ _

theorem allocuvm_spec {oldsz newsz : ℕ} (h : Owns L s plain (d ::ₘ rest)) :
    Exec.wlp (allocuvm L d oldsz newsz) (fun r s' => Owns L s' plain (d ::ₘ rest) ∧
      (oldsz < kernbase → r < kernbase) ∧ (s.hole = true → s'.hole = true) ∧
      (r ≠ 0 → r = max oldsz newsz ∧ newsz < kernbase ∧ Grows s.word s'.word d ∧
        (s'.hole = false → Reach s.word d (pagesOf oldsz) → Reach s'.word d (pagesOf r)))) s := by
  unfold allocuvm
  split
  · exact Exec.wp_pure.mpr ⟨h, fun hlt => by unfold kernbase at *; omega, fun hh => hh, by simp⟩
  · split
    · refine Exec.wp_pure.mpr ⟨h, fun hlt => hlt, fun hh => hh,
        fun _ => ⟨?_, by omega, Grows.of_eq rfl, ?_⟩⟩
      · omega
      · exact fun _ hr => hr
    · have hpages : pagesOf oldsz + (pagesOf newsz - pagesOf oldsz) ≤ kernbasePage := by
        unfold pagesOf kernbasePage pgsize
        unfold kernbase at *
        omega
      refine Exec.wlp_seq (allocFrom_spec h hpages) ?_
      rintro (_ | _) s1 ⟨h1, hgrow, hhole, hreach⟩
      · refine Exec.wlp_seq (Exec.wp_keeps (deallocuvm_spec h1 (by omega)).wlp
          (keeps_deallocuvm L d newsz oldsz)) ?_
        rintro _ s2 ⟨⟨h2, -⟩, hrec⟩
        refine Exec.wp_pure.mpr ⟨h2, fun _ => by unfold kernbase; omega, ?_, by simp⟩
        intro hh
        exact (Memory.hole_of_record hrec).trans (hhole hh)
      · refine Exec.wp_pure.mpr ⟨h1, fun _ => by omega, hhole,
          fun _ => ⟨by omega, by omega, hgrow, ?_⟩⟩
        intro hh hr
        have := hreach rfl hh hr
        rwa [show pagesOf oldsz + (pagesOf newsz - pagesOf oldsz) = pagesOf newsz by
          unfold pagesOf pgsize at *; omega] at this

/-- An address space without user pages is its directory and its tables. -/
theorem Owns.dismantle (h : Owns L s plain (d ::ₘ rest))
    (hempty : Unmapped s.word d kernbasePage) :
    Owns L s ({d} + tables s.word d + plain) rest := by
  have huser : userPages s.word d = 0 := by
    unfold userPages
    refine Finset.sum_eq_zero fun i hi => ?_
    have hi := Finset.mem_range.mp hi
    unfold mappedBy
    split
    · rename_i hp
      unfold mapped
      refine Finset.sum_eq_zero fun k hk => ?_
      have hk := Finset.mem_range.mp hk
      have hdiv : (i * npentries + k) / npentries = i := by
        unfold npentries at *
        omega
      have hmod : (i * npentries + k) % npentries = k := by
        unfold npentries at *
        omega
      have hun := hempty (i * npentries + k) (by
        unfold userEntries npentries kernbasePage at *
        omega)
      rw [hdiv, hmod] at hun
      exact entry_of_not_present (hun hp)
    · rfl
  obtain ⟨lost, hlost, hbal⟩ := h.balance
  refine ⟨⟨lost, hlost, ?_⟩, fun d' hd' => h.wellFormed d' (Multiset.mem_cons_of_mem hd')⟩
  rw [← hbal, Multiset.map_cons, Multiset.sum_cons, footprint, skeleton, huser]
  abel

theorem freeTables_spec {k i : ℕ} {row : ℕ → ℕ}
    (h : Owns L s ({d} + ∑ b ∈ Finset.range k, entry (row (i + b)) + plain) rest)
    (hrow : s.word d = row) :
    Exec.total (freeTables L d k i) (fun _ s' => Owns L s' ({d} + plain) rest ∧
      s'.starved = s.starved ∧ ∀ m ∈ plain, s'.word m = s.word m) s := by
  induction k generalizing s i with
  | zero =>
      rw [Finset.range_zero, Finset.sum_empty, add_zero] at h
      exact Exec.wp_pure.mpr ⟨h, rfl, fun _ _ => rfl⟩
  | succ k ih =>
      have hsum : ∑ b ∈ Finset.range (k + 1), entry (row (i + b)) =
          entry (row i) + ∑ b ∈ Finset.range k, entry (row (i + 1 + b)) := by
        rw [Finset.sum_range_succ', add_zero, add_comm]
        congr 1
        refine Finset.sum_congr rfl fun b _ => ?_
        rw [show i + (b + 1) = i + 1 + b by omega]
      rw [hsum] at h
      unfold freeTables
      refine Exec.wp_bind.mpr (Exec.wp_gets.mpr ?_)
      split
      · rename_i hp
        rw [hrow] at hp ⊢
        rw [entry_of_present hp] at h
        have h' : Owns L s (ptePage (row i) ::ₘ
            ({d} + ∑ b ∈ Finset.range k, entry (row (i + 1 + b)) + plain)) rest := by
          convert h using 1
          rw [← Multiset.singleton_add]
          abel
        have hnot : ptePage (row i) ∉
            {d} + ∑ b ∈ Finset.range k, entry (row (i + 1 + b)) + plain := by
          have hnd := (Multiset.nodup_add.mp h'.nodup).1
          have hplain := (Multiset.nodup_add.mp hnd).2.1
          exact (Multiset.nodup_cons.mp hplain).1
        have hne : d ≠ ptePage (row i) := by
          intro heq
          apply hnot
          rw [← heq]
          simp
        refine Exec.total_seq (kfree_spec h') ?_
        rintro - s1 ⟨h1, hword, hst⟩
        refine Exec.total_mono (ih h1 ((hword d hne).trans hrow)) ?_
        rintro - s2 ⟨h2, hst2, hkeep⟩
        refine ⟨h2, hst2.trans hst, fun m hm => (hkeep m hm).trans (hword m ?_)⟩
        rintro rfl
        exact hnot (Multiset.mem_add.mpr (Or.inr hm))
      · rename_i hp
        rw [hrow] at hp
        rw [entry_of_not_present hp, zero_add] at h
        exact ih h hrow

/-- `freevm` gives back every page of the address space. -/
theorem freevm_spec (h : Owns L s plain (d ::ₘ rest)) :
    Exec.total (freevm L d) (fun _ s' => Owns L s' plain rest ∧
      ∀ m ∈ plain, s'.word m = s.word m) s := by
  unfold freevm deallocuvm
  rw [if_neg (by unfold kernbase; omega)]
  have hzero : pagesOf 0 = 0 := by
    unfold pagesOf pgsize
    omega
  have hall : pagesOf kernbase = kernbasePage := by
    unfold pagesOf kernbase kernbasePage pgsize
    omega
  rw [hzero, hall]
  refine Exec.wp_bind.mpr ?_
  refine Exec.total_seq (deallocFrom_spec h le_rfl) ?_
  rintro - s1 ⟨h1, -, hkeep1, himp⟩
  have hun := himp (by omega) (fun u hu => absurd hu (by omega))
    (fun hne => absurd (Nat.zero_mod npentries) hne)
  refine Exec.wp_pure.mpr ?_
  have h2 : Owns L s1 ({d} + ∑ b ∈ Finset.range npentries, entry (s1.word d (0 + b)) + plain)
      rest := by
    simpa only [zero_add, tables] using h1.dismantle hun
  refine Exec.total_seq (freeTables_spec h2 rfl) ?_
  rintro - s3 ⟨h3, -, hkeep3⟩
  rw [Multiset.singleton_add] at h3
  refine Exec.total_mono (kfree_spec h3) ?_
  rintro - s4 ⟨h4, hword4, -⟩
  refine ⟨h4, fun m hm => (hword4 m ?_).trans ((hkeep3 m hm).trans (hkeep1 m hm))⟩
  rintro rfl
  have hnd := (Multiset.nodup_add.mp (Multiset.nodup_add.mp h3.nodup).1).2.1
  exact (Multiset.nodup_cons.mp hnd).1 hm

/-! ## The remaining functions -/

theorem clearpteu_spec (h : Owns L s plain (d ::ₘ rest)) (hv : v < topPage) :
    Exec.wlp (clearpteu d v) (fun _ s' => Owns L s' plain (d ::ₘ rest) ∧
      Grows s.word s'.word d ∧ s'.hole = s.hole) s := by
  unfold clearpteu
  refine Exec.wlp_seq (walkpgdir_false_spec d v s).wlp ?_
  rintro (_ | ⟨t, j⟩) s1 ⟨rfl, hres⟩
  · exact Exec.wlp_throw
  · refine Exec.wp_bind.mpr (Exec.wp_gets.mpr (Exec.wp_modify.mpr ?_))
    have hi := dirIndex_lt hv
    have hwf := h.wellFormed d (Multiset.mem_cons_self d rest)
    have hclean := hwf.clean _ hi hres.present (v % npentries) (index_lt v)
    have hkernel := hwf.kernel _ hi
    rw [hres.table, ← hres.index] at hclean
    -- clearing the bit changes neither the page nor the presence of the entry
    have hentry : entry (if UserBit (s1.word t j) then s1.word t j - 4 else s1.word t j) =
        entry (s1.word t j) := by
      unfold entry Present ptePage UserBit pgsize
      split
      · rename_i hbit
        have hpage : (s1.word t j - 4) / 4096 = s1.word t j / 4096 := by omega
        have hpres : (s1.word t j - 4) % 2 = s1.word t j % 2 := by omega
        rw [hpage, hpres]
      · rfl
    refine ⟨h.setEntry hv hres ?_ ?_ ?_, Grows.of_eq ?_, rfl⟩
    · split
      · rename_i hbit
        rcases hclean with hp | hz
        · left
          unfold Present UserBit at *
          omega
        · unfold UserBit at hbit
          omega
      · exact hclean
    · intro hge
      have hu : userEntries ≤ v / npentries := by
        by_contra hlt
        have := (user_iff hv).mp (by omega)
        omega
      have hnot := hkernel hu hres.present (v % npentries) (index_lt v)
      rw [hres.table, ← hres.index] at hnot
      rw [if_neg hnot]
      exact hnot
    · unfold userEntry
      rw [hentry]
    · exact hres.dir_eq (h.skeleton_nodup (Multiset.mem_cons_self d rest)) hv

theorem copyFrom_spec {k src : ℕ} (h : Owns L s plain (d ::ₘ rest)) (hv : v + k ≤ kernbasePage) :
    Exec.wlp (copyFrom src d k v) (fun _ s' => Owns L s' plain (d ::ₘ rest)) s := by
  induction k generalizing s v with
  | zero => exact Exec.wp_pure.mpr h
  | succ k ih =>
      unfold copyFrom
      refine Exec.wlp_seq (walkpgdir_false_spec src v s).wlp ?_
      rintro (_ | ⟨t, j⟩) s1 ⟨rfl, -⟩
      · exact Exec.wlp_throw
      · refine Exec.wp_bind.mpr (Exec.wp_gets.mpr ?_)
        split
        · exact Exec.wlp_throw
        · refine Exec.wlp_seq (kalloc_spec h) ?_
          rintro (_ | n) s2 ⟨h2, -⟩
          · rw [handed, zero_add] at h2
            exact Exec.wp_pure.mpr h2
          · rw [handed, Multiset.singleton_add] at h2
            refine Exec.wp_bind.mpr (Exec.wp_gets.mpr ?_)
            refine Exec.wlp_seq (setPage_spec h2 fun d' hd' =>
              Owns.notMem_skeleton (h2.plain_notMem (Multiset.mem_cons_self n plain) hd')) ?_
            rintro - s3 ⟨h3, -⟩
            refine Exec.wlp_seq (mapOne_user h3 (by omega) (Nat.mod_lt _ (by decide))) ?_
            rintro (_ | _) s4 ⟨-, h4⟩
            · exact Exec.wp_pure.mpr (h4.1.lose h4.2)
            · exact ih h4.1 (by omega)

theorem copyuvm_spec {sz : ℕ} (h : Owns L s plain rest) (hsz : sz ≤ kernbase) :
    Exec.wlp (copyuvm L d sz) (fun r s' =>
      match r with
      | none => Owns L s' plain rest
      | some d' => Owns L s' plain (d' ::ₘ rest)) s := by
  unfold copyuvm
  refine Exec.wlp_seq (setupkvm_spec h) ?_
  rintro (_ | d') s1 h1
  · exact Exec.wp_pure.mpr h1
  · refine Exec.wlp_seq (copyFrom_spec h1.1 (by have := pagesOf_le hsz; omega)) ?_
    rintro (_ | _) s2 h2
    · refine Exec.wlp_seq (freevm_spec h2).wlp ?_
      rintro - s3 ⟨h3, -⟩
      exact Exec.wp_pure.mpr h3
    · exact Exec.wp_pure.mpr h2

theorem inituvm_spec {init : ℕ → ℕ} (h : Owns L s plain (d ::ₘ rest)) :
    Exec.wlp (inituvm d init) (fun _ s' => Owns L s' plain (d ::ₘ rest)) s := by
  unfold inituvm
  refine Exec.wlp_seq (kalloc_spec h) ?_
  rintro (_ | n) s1 ⟨h1, -⟩
  · exact Exec.wlp_throw
  · rw [handed, Multiset.singleton_add] at h1
    refine Exec.wlp_seq (setPage_spec h1 fun d' hd' =>
      Owns.notMem_skeleton (h1.plain_notMem (Multiset.mem_cons_self n plain) hd')) ?_
    rintro - s2 ⟨h2, -⟩
    refine Exec.wlp_seq (mapOne_user h2 (by decide) (by decide)) ?_
    rintro (_ | _) s3 ⟨-, h3⟩
    · have hout : ∀ d' ∈ d ::ₘ rest, n ∉ skeleton s3.word d' := fun d' hd' =>
        Owns.notMem_skeleton (h3.1.plain_notMem (Multiset.mem_cons_self n plain) hd')
      refine Exec.wlp_mono (setPage_spec (h3.1.lose h3.2) hout) ?_
      rintro - s4 ⟨h4, -⟩
      exact h4
    · obtain ⟨h3, t, j, hat, hpte⟩ := h3
      have hout := h3.user_notMem (by decide) hat (hpte ▸ mkPte_present n pteWU)
      rw [hpte, mkPte_page (by decide)] at hout
      refine Exec.wlp_mono (setPage_spec h3 hout) ?_
      rintro - s4 ⟨h4, -⟩
      exact h4

end Vm

end Xv6
