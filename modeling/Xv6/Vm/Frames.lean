import Xv6.Vm.Aliasing

/-!
# Mapping pages without panic

The functions that build an address space panic when an entry is present already or a
table is missing.  Here are specifications without panic: an entry is known to be empty
before it is mapped.  They also say which pages are left alone: whatever is neither free
nor part of the address space that is being built.
-/

namespace Xv6

namespace Vm

open Support

variable {α β : Type} {L : Link} {s s' : Memory} {plain rest : Multiset ℕ} {d n v t j k perm : ℕ}

/-! ## Unless a page was left unmapped -/

/-- The computation returns in `Q`, unless `allocuvm` has left a page unmapped. -/
abbrev Sure (m : PageM α) (Q : α → Memory → Prop) (s : Memory) : Prop :=
  Exec.Sure (fun s : Memory => s.hole = true) m Q s

/-- A specification for every run that returns, of a computation that does. -/
theorem total_and {σ ε : Type} {m : Exec σ ε α} {Q R : α → σ → Prop} {s : σ}
    (h : Exec.total m Q s) (h' : Exec.wlp m R s) : Exec.total m (fun a s' => Q a s' ∧ R a s') s :=
  Exec.wp_mono (Exec.wp_and h h') (fun _ _ hh => hh) fun _ _ hh => hh.1

/-! ## What is left alone -/

/-- From `s` to `s'` only free pages and the directory and the tables of `d` have changed,
and only free pages have become tables of it. -/
structure Extends (s s' : Memory) (d : ℕ) : Prop where
  words : ∀ n, n ∉ s.freelist → n ∉ skeleton s.word d → s'.word n = s.word n
  free : ∀ n ∈ s'.freelist, n ∈ s.freelist
  tables : ∀ n ∈ skeleton s'.word d, n ∈ skeleton s.word d ∨ n ∈ s.freelist

theorem Extends.refl (s : Memory) (d : ℕ) : Extends s s d :=
  ⟨fun _ _ _ => rfl, fun _ h => h, fun _ h => Or.inl h⟩

theorem Extends.trans {s'' : Memory} (h : Extends s s' d) (h' : Extends s' s'' d) :
    Extends s s'' d := by
  refine ⟨fun n hfree hskel => ?_, fun n hn => h.free n (h'.free n hn), fun n hn => ?_⟩
  · have hfree' : n ∉ s'.freelist := fun hn => hfree (h.free n hn)
    have hskel' : n ∉ skeleton s'.word d := by
      intro hn
      rcases h.tables n hn with hbad | hbad
      · exact hskel hbad
      · exact hfree hbad
    rw [h'.words n hfree' hskel', h.words n hfree hskel]
  · rcases h'.tables n hn with hn | hn
    · exact h.tables n hn
    · exact Or.inr (h.free n hn)

/-- A change of the record or of the choices does not matter. -/
theorem Extends.of_eq (hword : s'.word = s.word) (hfree : s'.freelist = s.freelist) :
    Extends s s' d := by
  refine ⟨fun _ _ _ => by rw [hword], fun _ hn => hfree ▸ hn, fun _ hn => Or.inl ?_⟩
  rwa [hword] at hn

/-- Storing into the directory or one of its tables. -/
theorem Extends.putWord {w : ℕ} (hat : EntryAt s.word d v t j)
    (hnd : (skeleton s.word d).Nodup) (hv : v < topPage) :
    Extends s { s with word := Vm.putWord s.word t j w } d := by
  have htable : t ∈ skeleton s.word d := by
    rw [← hat.table]
    exact mem_skeleton_table (dirIndex_lt hv) hat.present
  refine ⟨fun n _ hn => ?_, fun _ hn => hn, fun n hn => Or.inl ?_⟩
  · refine putWord_other_page ?_
    rintro rfl
    exact hn htable
  · have hdir := hat.dir_eq (w := w) hnd hv
    change n ∈ skeleton (Vm.putWord s.word t j w) d at hn
    unfold skeleton Vm.tables at hn ⊢
    rwa [hdir] at hn

/-! ## `kalloc` and `walkpgdir` -/

theorem kalloc_extends {dirs : Multiset ℕ} (h : Owns L s plain dirs) :
    Exec.total kalloc (fun r s' => (Owns L s' (handed r + plain) dirs ∧ s'.word = s.word ∧
      s'.record = s.record) ∧ (∀ n ∈ s'.freelist, n ∈ s.freelist) ∧
      ∀ n, r = some n → n ∈ s.freelist) s := by
  have hreturns : Exec.total kalloc (fun r s' => (∀ n ∈ s'.freelist, n ∈ s.freelist) ∧
      ∀ n, r = some n → n ∈ s.freelist) s := by
    unfold Exec.total Exec.wp kalloc
    split
    · rename_i heq _
      exact ⟨fun n hn => heq ▸ hn, by simp⟩
    · rename_i heq _
      refine ⟨fun n hn => heq ▸ List.mem_cons_of_mem _ hn, ?_⟩
      rintro n ⟨⟩
      rw [heq]
      exact List.mem_cons_self
    · rename_i heq
      exact ⟨fun n hn => hn, by simp⟩
  refine Exec.total_mono (total_and hreturns (Exec.wp_keeps (kalloc_spec h) keeps_kalloc)) ?_
  rintro r s' ⟨hfree, ⟨howns, hword, -⟩, hrec⟩
  exact ⟨⟨howns, hword, hrec⟩, hfree⟩

/-- Finding or making a table. -/
theorem walkpgdir_extends (h : Owns L s plain (d ::ₘ rest)) (hv : v < topPage) :
    Exec.total (walkpgdir d v true) (fun r s' => Extends s s' d ∧
      (Owns L s' plain (d ::ₘ rest) ∧ ∀ t j, r = some (t, j) → EntryAt s'.word d v t j) ∧
      ∀ u < topPage, pteAt s'.word d u = pteAt s.word d u) s := by
  have hext : Exec.total (walkpgdir d v true) (fun _ s' => Extends s s' d) s := by
    unfold walkpgdir
    refine Exec.wp_bind.mpr (Exec.wp_gets.mpr ?_)
    split
    · exact Exec.wp_pure.mpr (Extends.refl s d)
    · rw [if_neg (by simp)]
      refine Exec.total_seq (kalloc_extends h) ?_
      rintro (_ | t) s1 ⟨⟨-, hword, -⟩, hfree, htake⟩
      · refine Exec.wp_bind.mpr (Exec.wp_modify.mpr (Exec.wp_pure.mpr ?_))
        refine ⟨fun n _ _ => by rw [hword], hfree, fun n hn => Or.inl ?_⟩
        change n ∈ skeleton s1.word d at hn
        rwa [hword] at hn
      · have ht := htake t rfl
        refine Exec.wp_bind.mpr (Exec.wp_modify.mpr (Exec.wp_bind.mpr (Exec.wp_modify.mpr
          (Exec.wp_pure.mpr ?_))))
        have hdir : ∀ i, i ≠ v / npentries →
            putWord (fillPage s1.word t fun _ => 0) d (v / npentries) (mkPte t pteWU) d i =
              if d = t then 0 else s.word d i := by
          intro i hi
          rw [putWord_other_index hi]
          unfold fillPage
          split
          · rfl
          · rw [hword]
        refine ⟨fun n hn hskel => ?_, hfree, fun n hn => ?_⟩
        · have hnd : n ≠ d := by
            rintro rfl
            exact hskel (mem_skeleton_self _ _)
          have hnt : n ≠ t := by
            rintro rfl
            exact hn ht
          change putWord (fillPage s1.word t fun _ => 0) d (v / npentries) (mkPte t pteWU) n = _
          rw [putWord_other_page hnd, fillPage_other hnt, hword]
        · change n ∈ skeleton (putWord (fillPage s1.word t fun _ => 0) d (v / npentries)
            (mkPte t pteWU)) d at hn
          rcases mem_skeleton.mp hn with rfl | ⟨i, hi, hp, rfl⟩
          · exact Or.inl (mem_skeleton_self _ _)
          · by_cases hiv : i = v / npentries
            · subst hiv
              rw [putWord_same, mkPte_page (by decide)]
              exact Or.inr ht
            · rw [hdir i hiv] at hp ⊢
              split at hp
              · simp [Present] at hp
              · rename_i hdt
                rw [if_neg hdt]
                exact Or.inl (mem_skeleton_table hi hp)
  refine Exec.total_mono (total_and hext (Exec.wlp_and (walkpgdir_true_spec h hv)
    (walkpgdir_pteAt h))) ?_
  rintro r s' ⟨hext', ⟨howns, -, hres⟩, hpte⟩
  refine ⟨hext', ⟨howns, ?_⟩, hpte⟩
  rintro t j rfl
  exact hres.1

/-! ## `mappages` and `setupkvm` -/

theorem not_present_of_pteAt (h : EntryAt s.word d v t j) (hzero : pteAt s.word d v = 0) :
    ¬Present (s.word t j) := by
  rw [← h.pteAt_eq, hzero]
  simp [Present]

/-- Mapping one page at an empty entry. -/
theorem mapOne_extends (h : Owns L s plain (d ::ₘ rest)) (hv : v < topPage)
    (hzero : pteAt s.word d v = 0) :
    Exec.total (mappages d 1 v n perm) (fun _ s' => Extends s s' d) s := by
  unfold mappages
  refine Exec.total_seq (walkpgdir_extends h hv) ?_
  rintro (_ | ⟨t, j⟩) s1 ⟨hext, ⟨h1, hat⟩, hpte⟩
  · exact Exec.wp_pure.mpr hext
  · have hat1 := hat t j rfl
    refine Exec.wp_bind.mpr (Exec.wp_gets.mpr ?_)
    rw [if_neg (not_present_of_pteAt hat1 ((hpte v hv).trans hzero))]
    refine Exec.wp_bind.mpr (Exec.wp_modify.mpr ?_)
    unfold mappages
    refine Exec.wp_pure.mpr (hext.trans ?_)
    exact Extends.putWord hat1 (h1.skeleton_nodup (Multiset.mem_cons_self d rest)) hv

/-- Mapping a range of the kernel at empty entries. -/
theorem mappages_extends (hperm : perm = 0 ∨ perm = pteW) (h : Owns L s plain (d ::ₘ rest))
    (hlow : kernbasePage ≤ v) (hhigh : v + k ≤ topPage)
    (hzero : ∀ u, v ≤ u → u < topPage → pteAt s.word d u = 0) :
    Exec.total (mappages d k v n perm) (fun _ s' => Extends s s' d ∧
      ∀ u, v + k ≤ u → u < topPage → pteAt s'.word d u = 0) s := by
  induction k generalizing s v n with
  | zero => exact Exec.wp_pure.mpr ⟨Extends.refl s d, hzero⟩
  | succ k ih =>
      have hv : v < topPage := by omega
      unfold mappages
      refine Exec.total_seq (walkpgdir_extends h hv) ?_
      rintro (_ | ⟨t, j⟩) s1 ⟨hext, ⟨h1, hat⟩, hpte⟩
      · refine Exec.wp_pure.mpr ⟨hext, fun u hu hutop => ?_⟩
        rw [hpte u hutop]
        exact hzero u (by omega) hutop
      · have hat1 := hat t j rfl
        have hnd := h1.skeleton_nodup (Multiset.mem_cons_self d rest)
        refine Exec.wp_bind.mpr (Exec.wp_gets.mpr ?_)
        rw [if_neg (not_present_of_pteAt hat1 ((hpte v hv).trans (hzero v le_rfl hv)))]
        refine Exec.wp_bind.mpr (Exec.wp_modify.mpr ?_)
        have hzero1 : ∀ u, v + 1 ≤ u → u < topPage →
            pteAt (Vm.putWord s1.word t j (mkPte n perm)) d u = 0 := by
          intro u hu hutop
          rw [hat1.pteAt_putWord hnd hv hutop (by omega), hpte u hutop]
          exact hzero u (by omega) hutop
        refine Exec.total_mono (ih (h1.setKernelEntry hperm hlow hv hat1) (by omega) (by omega)
          hzero1) ?_
        rintro - s2 ⟨hext2, hzero2⟩
        refine ⟨(hext.trans (Extends.putWord hat1 hnd hv)).trans hext2, fun u hu hutop => ?_⟩
        exact hzero2 u (by omega) hutop

theorem mapKernel_extends {ks : List (ℕ × ℕ × ℕ × ℕ)} (hks : Ascending v ks)
    (h : Owns L s plain (d ::ₘ rest)) (hlow : kernbasePage ≤ v)
    (hzero : ∀ u, v ≤ u → u < topPage → pteAt s.word d u = 0) :
    Exec.total (mapKernel d ks) (fun _ s' => Extends s s' d) s := by
  induction ks generalizing s v with
  | nil => exact Exec.wp_pure.mpr (Extends.refl s d)
  | cons r ks ih =>
      obtain ⟨virt, physStart, physEnd, perm⟩ := r
      obtain ⟨hle, htop, hperm, hrest⟩ := hks
      simp only at hle htop hperm hrest
      have hmap := total_and (mappages_extends (n := physStart) hperm h (by omega) htop
        fun u hu hutop => hzero u (by omega) hutop) (mappages_kernel hperm h (by omega) htop)
      refine Exec.total_seq hmap ?_
      rintro (_ | _) s1 ⟨⟨hext, hzero1⟩, h1, -⟩
      · exact Exec.wp_pure.mpr hext
      · refine Exec.total_mono (ih hrest h1 (by omega) hzero1) ?_
        intro _ s2 hext2
        exact hext.trans hext2

theorem inKernel_kmap (L : Link) {u : ℕ} (h : InKernel u) :
    ∃ r ∈ kmap L, r.1 ≤ u ∧ u < r.1 + (r.2.2.1 - r.2.1) := by
  have h1 := L.text_lt
  have h2 := L.data_le
  have h3 := L.kend_le
  unfold InKernel phystopPage at h
  simp only [kmap, List.mem_cons, List.not_mem_nil, or_false, exists_eq_or_imp, exists_eq_left,
    phystopPage]
  unfold extmemPage kernbasePage devspacePage topPage at *
  omega

/-- A page outside of an address space and not free is left alone. -/
theorem Extends.frame (hext : Extends s s' d) (h : Owns L s plain (d ::ₘ rest)) (hn : n ∈ plain) :
    s'.word n = s.word n := by
  have hnd := (Multiset.nodup_add.mp (Multiset.nodup_add.mp h.nodup).1).2.2
  refine hext.words n (fun hfree => ?_)
    (Owns.notMem_skeleton (h.plain_notMem hn (Multiset.mem_cons_self d rest)))
  exact Multiset.disjoint_left.mp hnd (Multiset.mem_coe.mpr hfree) hn

/-- What `setupkvm` returns. -/
structure Kvm (L : Link) (s : Memory) (plain rest : Multiset ℕ) (d : ℕ) : Prop where
  owns : Owns L s plain (d ::ₘ rest)
  kernel : ∀ u, InKernel u → Present (s.word d (u / npentries))
  empty : ∀ u < kernbasePage, pteAt s.word d u = 0

theorem setupkvm_extends (h : Owns L s plain rest) :
    Exec.total (setupkvm L) (fun r s' => ((∀ n ∈ plain, s'.word n = s.word n) ∧
      s'.marks = s.marks) ∧ (r = none → Owns L s' plain rest) ∧
      ∀ d, r = some d → Kvm L s' plain rest d) s := by
  have hframe : Exec.total (setupkvm L) (fun r s' => (∀ n ∈ plain, s'.word n = s.word n) ∧
      ∀ d, r = some d → ∀ u, InKernel u → Present (s'.word d (u / npentries))) s := by
    unfold setupkvm
    refine Exec.total_seq (kalloc_extends h) ?_
    rintro (_ | d) s1 ⟨⟨h1, hword, -⟩, -⟩
    · exact Exec.wp_pure.mpr ⟨fun n _ => by rw [hword], by simp⟩
    · rw [handed, Multiset.singleton_add] at h1
      have hnd := (Multiset.nodup_add.mp (Multiset.nodup_add.mp h1.nodup).1).2.1
      have hfresh : ∀ d' ∈ rest, d ∉ skeleton s1.word d' := fun d' hd' =>
        Owns.notMem_skeleton (h1.plain_notMem (Multiset.mem_cons_self d plain) hd')
      refine Exec.wp_bind.mpr (Exec.wp_modify.mpr ?_)
      have h2 : Owns L { s1 with word := fillPage s1.word d fun _ => 0 } plain (d ::ₘ rest) := by
        refine Owns.newDir (h1.move (fun d' hd' => ?_) rfl rfl) fillPage_same
        exact SameTables.of_page (n := d) (hfresh d' hd') fun m hm => fillPage_other hm
      have hzero : ∀ u, pteAt (fillPage s1.word d fun _ => 0) d u = 0 := by
        intro u
        rw [pteAt, fillPage_same]
        exact if_neg (by simp [Present])
      have hmap := total_and (mapKernel_extends (ascending_kmap L) h2 le_rfl
        fun u _ _ => hzero u) (mapKernel_spec h2 (kmap_fits L))
      have hkeep : ∀ s2 : Memory,
          Extends { s1 with word := fillPage s1.word d fun _ => 0 } s2 d →
          ∀ n ∈ plain, s2.word n = s.word n := by
        intro s2 hext n hn
        rw [hext.frame h2 hn]
        change fillPage s1.word d (fun _ => 0) n = s.word n
        rw [fillPage_other, hword]
        rintro rfl
        exact (Multiset.nodup_cons.mp hnd).1 hn
      refine Exec.total_seq hmap ?_
      rintro (_ | _) s2 ⟨hext, -, -, hkernel⟩
      · exact Exec.wp_pure.mpr ⟨hkeep s2 hext, by simp⟩
      · refine Exec.wp_pure.mpr ⟨hkeep s2 hext, ?_⟩
        rintro _ ⟨⟩ u hu
        obtain ⟨r, hr, hlow, hhigh⟩ := inKernel_kmap L hu
        exact hkernel r hr u hlow hhigh
  refine Exec.total_mono (total_and hframe (Exec.wp_keeps (Exec.wlp_and (setupkvm_spec h)
    (setupkvm_pteAt h)) (keeps_setupkvm L))) ?_
  rintro r s' ⟨⟨hkeep, hkernel⟩, ⟨howns, hempty⟩, hrec⟩
  refine ⟨⟨hkeep, hrec⟩, ?_, ?_⟩
  · rintro rfl
    exact howns
  · rintro d rfl
    exact ⟨howns.1, hkernel d rfl, hempty d rfl⟩

end Vm

end Xv6
