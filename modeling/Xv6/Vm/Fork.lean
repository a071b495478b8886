import Xv6.Vm.Alloc

/-!
# What `copyuvm` copies

The address space of a parent is only read while the one of the child is built.  Its pages
count as plain pages meanwhile, and none of them changes; every page of the child comes from
the free list.  `Forked` is the invariant of the loop of `copyuvm`.
-/

namespace Xv6

namespace Vm

open Support

variable {α : Type} {L : Link} {s s₁ s' : Memory} {w₀ : ℕ → ℕ → ℕ} {plain rest : Multiset ℕ}
  {d d' n u v k : ℕ} {free₀ : List ℕ} {K : ℕ → ℕ}

/-! ## Pages only leave the free list -/

/-- The pages on the free list are among `free₀`. -/
def Within (free₀ : List ℕ) (s : Memory) : Prop :=
  ∀ n ∈ s.freelist, n ∈ free₀

theorem within_kalloc : Exec.Preserves (Within free₀) kalloc := by
  intro s hs
  unfold kalloc
  split
  · rename_i heq _
    rw [Within, heq] at hs
    exact hs
  · rename_i heq _
    intro n hn
    exact hs n (heq ▸ List.mem_cons_of_mem _ hn)
  · exact hs

theorem within_walkpgdir (d v : ℕ) (alloc : Bool) :
    Exec.Preserves (Within free₀) (walkpgdir d v alloc) := by
  refine Exec.Preserves.bind Exec.Preserves.gets fun pde => ?_
  split
  · exact Exec.Preserves.pure
  · split
    · exact Exec.Preserves.pure
    · refine Exec.Preserves.bind within_kalloc fun r => ?_
      cases r with
      | none =>
          exact Exec.Preserves.bind (Exec.Preserves.modify fun _ hs => hs) fun _ =>
            Exec.Preserves.pure
      | some t =>
          refine Exec.Preserves.bind (Exec.Preserves.modify fun _ hs => hs) fun _ => ?_
          exact Exec.Preserves.bind (Exec.Preserves.modify fun _ hs => hs) fun _ =>
            Exec.Preserves.pure

theorem within_mappages (d k v n perm : ℕ) :
    Exec.Preserves (Within free₀) (mappages d k v n perm) := by
  induction k generalizing v n with
  | zero => exact Exec.Preserves.pure
  | succ k ih =>
      refine Exec.Preserves.bind (within_walkpgdir _ _ _) fun r => ?_
      cases r with
      | none => exact Exec.Preserves.pure
      | some e =>
          refine Exec.Preserves.bind Exec.Preserves.gets fun pte => ?_
          split
          · exact Exec.Preserves.throw
          · exact Exec.Preserves.bind (Exec.Preserves.modify fun _ hs => hs) fun _ => ih _ _

theorem within_mapKernel (d : ℕ) (ks : List (ℕ × ℕ × ℕ × ℕ)) :
    Exec.Preserves (Within free₀) (mapKernel d ks) := by
  induction ks with
  | nil => exact Exec.Preserves.pure
  | cons k ks ih =>
      refine Exec.Preserves.bind (within_mappages _ _ _ _ _) fun ok => ?_
      cases ok with
      | false => exact Exec.Preserves.pure
      | true => exact ih

theorem within_setupkvm (L : Link) : Exec.Preserves (Within free₀) (setupkvm L) := by
  refine Exec.Preserves.bind within_kalloc fun r => ?_
  cases r with
  | none => exact Exec.Preserves.pure
  | some d =>
      refine Exec.Preserves.bind (Exec.Preserves.modify fun _ hs => hs) fun _ => ?_
      refine Exec.Preserves.bind (within_mapKernel _ _) fun ok => ?_
      cases ok with
      | false => exact Exec.Preserves.pure
      | true => exact Exec.Preserves.pure

/-! ## The loop -/

/-- The first `m` pages of the parent `d` have been copied to the child `d'`; `w₀` is the memory
before, `free₀` its free list and `K` the entries that `setupkvm` has made for the kernel. -/
structure Forked (L : Link) (w₀ : ℕ → ℕ → ℕ) (free₀ : List ℕ) (K : ℕ → ℕ) (plain : Multiset ℕ)
    (d d' m : ℕ) (s : Memory) : Prop where
  owns : Owns L s plain (d' ::ₘ 0)
  frame : ∀ n ∈ plain, s.word n = w₀ n
  free : Within free₀ s
  kernel : ∀ u, kernbasePage ≤ u → u < topPage → pteAt s.word d' u = K u
  below : ∀ u < m, ∃ n ∈ free₀, pteAt s.word d' u = mkPte n (pteFlags (pteAt w₀ d u)) ∧
    s.word n = w₀ (ptePage (pteAt w₀ d u))
  above : ∀ u, m ≤ u → u < kernbasePage → pteAt s.word d' u = 0

/-- The parent is as it was. -/
theorem Forked.parent {m : ℕ} (h : Forked L w₀ free₀ K plain d d' m s)
    (hparent : ∀ m ∈ footprint w₀ d, m ∈ plain) : SameTables w₀ s.word d := by
  intro n hn
  refine h.frame n (hparent n ?_)
  unfold footprint
  exact Multiset.mem_add.mpr (Or.inl hn)

/-- One more page. -/
theorem Forked.round (h : Forked L w₀ free₀ K plain d d' v s) (hv : v < kernbasePage)
    (hround : Round L s s' plain 0 d' v n (pteFlags (pteAt w₀ d v))
      (w₀ (ptePage (pteAt w₀ d v))) true) : Forked L w₀ free₀ K plain d d' (v + 1) s' := by
  have howns : Owns L s' plain (d' ::ₘ 0) := by
    have h' := hround.owns
    rwa [unmapped, zero_add] at h'
  obtain ⟨s₁, hlist, -⟩ := hround.taken
  have hfree : n ∈ free₀ := h.free n (hlist ▸ List.mem_cons_self)
  refine ⟨howns, fun m hm => ?_, fun m hm => h.free m (hround.ext.free m hm), ?_, ?_, ?_⟩
  · rw [hround.ext.frame h.owns hm, h.frame m hm]
  · intro u hlow hu
    rw [hround.entries u hu, if_neg fun hh => absurd hh.1 (by omega)]
    exact h.kernel u hlow hu
  · intro u hu
    rcases eq_or_ne u v with rfl | hne
    · refine ⟨n, hfree, ?_, hround.content⟩
      rw [hround.entries u (kernbase_lt_top hv), if_pos ⟨rfl, rfl⟩]
    · obtain ⟨m, hm, hpte, hword⟩ := h.below u (by omega)
      have hu' : u < kernbasePage := by omega
      refine ⟨m, hm, ?_, ?_⟩
      · rw [hround.entries u (kernbase_lt_top hu'), if_neg fun hh => hne hh.1, hpte]
      · have huser := h.owns.user_page hu' (hpte ▸ mkPte_present m _)
        rw [hpte, mkPte_page (Nat.mod_lt _ (by decide))] at huser
        rw [hround.ext.words m huser.1 huser.2.1, hword]
  · intro u hlow hu
    rw [hround.entries u (kernbase_lt_top hu), if_neg fun hh => absurd hh.1 (by omega)]
    exact h.above u (by omega) hu

/-- It needs no more than it is given. -/
theorem Round.supplied {perm : ℕ} {ws : ℕ → ℕ} {ok : Bool}
    (h : Round L s s' plain rest d v n perm ws ok) (hs : Supplied s₀ d v s)
    (hv : v < kernbasePage) (hgrants : s₀.Grants (requests (v + 1)))
    (hmarks : s'.marks = s.marks) : ok = true ∧ Supplied s₀ d (v + 1) s' := by
  obtain ⟨s₁, hfree, hfails, hdir, htab⟩ := h.taken
  have hgranted : refused s.freelist.length s.fails = false := by
    rw [hs.asked.refused_eq, hgrants _ (requests_lt (Nat.lt_succ_self v))]
    rfl
  obtain ⟨hgood, hbad⟩ := hs.round hv htab hgranted hfree hfails hdir
    (Memory.hole_of_marks hmarks)
  cases ok with
  | true => exact ⟨rfl, hgood rfl⟩
  | false => exact absurd (hbad rfl) (hgrants.tables le_rfl)

theorem copyFrom_forked (h : Forked L w₀ free₀ K plain d d' v s) (hv : v + k ≤ kernbasePage)
    (hparent : ∀ m ∈ footprint w₀ d, m ∈ plain)
    (hpresent : ∀ u, v ≤ u → u < v + k → Present (pteAt w₀ d u)) :
    Exec.total (copyFrom d d' k v) (fun r s' =>
      (r = true → Forked L w₀ free₀ K plain d d' (v + k) s') ∧
      (r = false → Failed L w₀ plain d' s') ∧
      ∀ s₀, Supplied s₀ d' v s → s₀.Grants (requests (v + k)) →
        r = true ∧ Supplied s₀ d' (v + k) s') s := by
  induction k generalizing s v with
  | zero => exact Exec.wp_pure.mpr ⟨fun _ => h, by simp, fun _ hs _ => ⟨rfl, hs⟩⟩
  | succ k ih =>
      have hv' : v < kernbasePage := by omega
      have hsame := h.parent hparent
      have hpte : pteAt s.word d v = pteAt w₀ d v := hsame.pteAt_eq (kernbase_lt_top hv')
      have hp : Present (pteAt s.word d v) := hpte ▸ hpresent v le_rfl (by omega)
      unfold copyFrom
      refine Exec.total_seq (walkpgdir_false_spec d v s) ?_
      rintro (_ | ⟨t, j⟩) s1 ⟨rfl, hat⟩
      · rw [pteAt, if_neg hat] at hp
        simp [Present] at hp
      · refine Exec.wp_bind.mpr (Exec.wp_gets.mpr ?_)
        have hentry : s1.word t j = pteAt w₀ d v := hat.pteAt_eq.symm.trans hpte
        have hmem := mem_footprint_user hv' hat (hat.pteAt_eq ▸ hp)
        rw [hsame.footprint_eq, hentry] at hmem
        have hcontent : s1.word (ptePage (pteAt w₀ d v)) = w₀ (ptePage (pteAt w₀ d v)) :=
          h.frame _ (hparent _ hmem)
        rw [hentry, if_neg (not_not.mpr (hpte ▸ hp))]
        refine Exec.total_seq (total_and (kalloc_extends h.owns) (kalloc_exact s1).wlp) ?_
        rintro (_ | n) s2 ⟨⟨⟨h2, hword, hrec⟩, -⟩, hfails, -, hrefused, hfree⟩
        · rw [handed, zero_add] at h2
          refine Exec.wp_pure.mpr ⟨by simp, fun _ => ⟨h2, fun m hm => ?_⟩, fun s₀ hs hgrants => ?_⟩
          · rw [hword]
            exact h.frame m hm
          · rw [hs.asked.refused_eq, hgrants _ (requests_lt (by omega))] at hrefused
            cases hrefused
        · rw [handed, Multiset.singleton_add] at h2
          refine Exec.wp_bind.mpr (Exec.wp_gets.mpr (Exec.wp_bind.mpr (Exec.wp_modify.mpr ?_)))
          rw [← hword] at hcontent
          rw [hcontent]
          refine Exec.total_seq (Exec.wp_keeps (mapOne_round h2 hv' (Nat.mod_lt _ (by decide))
            (h.above v le_rfl hv') hfree hfails hword rfl rfl rfl rfl)
            (keeps_mappages _ _ _ _ _)) ?_
          rintro ok s3 ⟨hround, hmarks⟩
          have hsupplied : ∀ s₀, Supplied s₀ d' v s1 → s₀.Grants (requests (v + (k + 1))) →
              ok = true ∧ Supplied s₀ d' (v + 1) s3 := fun s₀ hs hgrants =>
            hround.supplied hs hv' (hgrants.mono (requests_mono (by omega)))
              (hmarks.trans (Memory.marks_of_record hrec))
          cases ok with
          | false =>
              refine Exec.wp_pure.mpr ⟨by simp, fun _ => ⟨?_, fun m hm => ?_⟩, fun s₀ hs hgrants =>
                absurd (hsupplied s₀ hs hgrants).1 (by simp)⟩
              · have howns := hround.owns
                rw [unmapped, Multiset.singleton_add] at howns
                exact howns.lose (hround.starved rfl)
              · rw [hround.ext.frame h.owns hm, h.frame m hm]
          | true =>
              refine Exec.total_mono (ih (h.round hv' hround) (by omega) fun u hlow hhigh =>
                hpresent u (by omega) (by omega)) ?_
              rintro r s' ⟨htrue, hfalse, hgets⟩
              rw [show v + (k + 1) = v + 1 + k by omega] at hsupplied ⊢
              exact ⟨htrue, hfalse, fun s₀ hs hgrants =>
                hgets s₀ (hsupplied s₀ hs hgrants).2 hgrants⟩

/-- If the copy is complete, no table was refused. -/
theorem copyFrom_record (d d' k v : ℕ) (s : Memory) :
    Exec.wlp (copyFrom d d' k v) (fun r s' => r = true → s'.record = s.record) s := by
  induction k generalizing v s with
  | zero => exact Exec.wp_pure.mpr fun _ => rfl
  | succ k ih =>
      unfold copyFrom
      refine Exec.wlp_seq (keeps_lookup _ _).wlp ?_
      rintro (_ | ⟨t, j⟩) s₁ hrec₁
      · exact Exec.wlp_throw
      · refine Exec.wp_bind.mpr (Exec.wp_gets.mpr ?_)
        split
        · exact Exec.wlp_throw
        · refine Exec.wlp_seq keeps_kalloc.wlp ?_
          rintro (_ | n) s₂ hrec₂
          · exact Exec.wp_pure.mpr (by simp)
          · refine Exec.wp_bind.mpr (Exec.wp_gets.mpr (Exec.wp_bind.mpr (Exec.wp_modify.mpr ?_)))
            refine Exec.wp_seq (mappages_record _ _ _ _ _ _) ?_ fun _ _ _ => trivial
            rintro (_ | _) s₃ ⟨hmarks, hstarved⟩
            · exact Exec.wp_pure.mpr (by simp)
            · have hrec₃ : s₃.record = s₂.record :=
                Prod.ext (hstarved.trans (Bool.or_false _)) hmarks
              refine Exec.wlp_mono (ih (v + 1) s₃) fun r s' hrec hr => ?_
              exact (hrec hr).trans (hrec₃.trans (hrec₂.trans hrec₁))

theorem copyuvm_record (L : Link) (d sz : ℕ) (s : Memory) :
    Exec.wlp (copyuvm L d sz) (fun r s' => r ≠ none → s'.record = s.record) s := by
  unfold copyuvm
  refine Exec.wlp_seq (setupkvm_record L s) ?_
  rintro (_ | d') s₁ hrec₁
  · exact Exec.wp_pure.mpr (by simp)
  · refine Exec.wlp_seq (copyFrom_record _ _ _ _ _) ?_
    rintro (_ | _) s₂ hrec₂
    · exact Exec.wlp_seq (keeps_freevm L d').wlp fun _ _ _ => Exec.wp_pure.mpr (by simp)
    · exact Exec.wp_pure.mpr fun _ => (hrec₂ rfl).trans (hrec₁ (by simp))

/-! ## The child -/

/-- The program that runs in `d` does not notice what is written to the pages of `other`. -/
def Unseen (word : ℕ → ℕ → ℕ) (other d : ℕ) : Prop :=
  ∀ word' : ℕ → ℕ → ℕ, (∀ n, n ∉ footprint word other → word' n = word n) →
    ∀ a < kernbase, pteAt word' d (a / pgsize) = pteAt word d (a / pgsize) ∧
      (Present (pteAt word d (a / pgsize)) → userByte word' d a = userByte word d a)

theorem Owns.unseen {other : ℕ} (h : Owns L s plain (d ::ₘ rest)) (hother : other ∈ rest) :
    Unseen s.word other d := by
  intro word' hword a ha
  have hpage : a / pgsize < kernbasePage := by
    unfold kernbase at ha
    unfold pgsize kernbasePage
    omega
  have hsame : SameTables s.word word' d := by
    intro n hn
    refine hword n (h.footprint_notMem ?_ hother)
    unfold footprint
    exact Multiset.mem_add.mpr (Or.inl hn)
  have hpte := hsame.pteAt_eq (kernbase_lt_top hpage)
  refine ⟨hpte, fun hp => ?_⟩
  obtain ⟨t, j, hat, hval⟩ := exists_entryAt hp
  have hmem := mem_footprint_user hpage hat (hval ▸ hp)
  rw [← hval] at hmem
  unfold userByte
  rw [hpte, hword _ (h.footprint_notMem hmem hother)]

/-- The child `d'` sees the bytes and the permissions of the parent `d` in pages of its own,
and nothing else; the parent is as it was.  Whatever is written to the pages of one of the two
afterwards, the other does not notice. -/
structure Copy (L : Link) (s s' : Memory) (d d' sz : ℕ) : Prop where
  bytes : ∀ a < pagesOf sz * pgsize, userByte s'.word d' a = userByte s.word d a
  flags : ∀ u < pagesOf sz, pteFlags (pteAt s'.word d' u) = pteFlags (pteAt s.word d u)
  fresh : ∀ u < pagesOf sz, ptePage (pteAt s'.word d' u) ∈ s.freelist ∧
    ptePage (pteAt s'.word d' u) ∉ footprint s.word d
  distinct : ∀ u < pagesOf sz, ∀ v < pagesOf sz,
    ptePage (pteAt s'.word d' u) = ptePage (pteAt s'.word d' v) → u = v
  above : ∀ u, pagesOf sz ≤ u → u < kernbasePage → ¬Present (pteAt s'.word d' u)
  kernel : ∃ s₁, setupkvm L s = (.ok (some d'), s₁) ∧
    ∀ u, kernbasePage ≤ u → u < topPage → pteAt s'.word d' u = pteAt s₁.word d' u
  parent : ∀ n ∈ footprint s.word d, s'.word n = s.word n
  apart : Unseen s'.word d d' ∧ Unseen s'.word d' d

theorem pteFlags_mkPte {w : ℕ} (h : Present w) (n : ℕ) :
    pteFlags (mkPte n (pteFlags w)) = pteFlags w := by
  have hodd : pteFlags w % 2 = 1 := by
    unfold Present at h
    unfold pteFlags pgsize
    omega
  have hor : pteFlags w ||| 1 = pteFlags w := by
    refine Nat.eq_of_testBit_eq fun i => ?_
    rw [Nat.testBit_or]
    cases i with
    | zero => rw [Nat.testBit_zero, decide_eq_true hodd, Bool.true_or]
    | succ i => simp [Nat.testBit_succ]
  unfold mkPte
  rw [hor]
  unfold pteFlags
  rw [Nat.mul_add_mod_self_right, Nat.mod_mod]

theorem Forked.copy {sz : ℕ} (h₀ : Owns L s plain (0 + d ::ₘ rest))
    (hsetup : setupkvm L s = (.ok (some d'), s₁)) (hsz : sz < kernbase)
    (hpresent : ∀ u < pagesOf sz, Present (pteAt s.word d u))
    (h : Forked L s.word s.freelist (fun u => pteAt s₁.word d' u)
      (plain + ((d ::ₘ rest).map (footprint s.word)).sum) d d' (pagesOf sz) s') :
    Copy L s s' d d' sz := by
  have htop : pagesOf sz ≤ kernbasePage := pagesOf_le hsz.le
  have hpte : ∀ u < pagesOf sz, Present (pteAt s'.word d' u) := by
    intro u hu
    obtain ⟨n, -, hpte, -⟩ := h.below u hu
    exact hpte ▸ mkPte_present n _
  have howns := Owns.unshelve h₀ h.owns h.frame
  have hparent : ∀ n ∈ footprint s.word d, s'.word n = s.word n := fun n hn =>
    h.frame n (Owns.mem_shelf (Multiset.mem_cons_self d rest) hn)
  have hflags : ∀ u, pteFlags (pteAt s.word d u) < pgsize := fun u => Nat.mod_lt _ (by decide)
  refine ⟨fun a ha => ?_, fun u hu => ?_, fun u hu => ?_, fun u hu v hv heq => ?_,
    fun u hlow hu => ?_, ⟨s₁, hsetup, h.kernel⟩, hparent, ?_, ?_⟩
  · have hu : a / pgsize < pagesOf sz := Nat.div_lt_of_lt_mul (by rwa [mul_comm])
    obtain ⟨n, -, hpte, hword⟩ := h.below _ hu
    unfold userByte
    rw [hpte, mkPte_page (hflags _), hword]
  · obtain ⟨n, -, hpte, -⟩ := h.below u hu
    rw [hpte, pteFlags_mkPte (hpresent u hu)]
  · obtain ⟨n, hn, hpte, -⟩ := h.below u hu
    rw [hpte, mkPte_page (hflags u)]
    refine ⟨hn, fun hmem => ?_⟩
    have hdisj := (Multiset.nodup_add.mp h₀.nodup).2.2
    refine Multiset.disjoint_left.mp hdisj (Multiset.mem_add.mpr (Or.inl hn)) ?_
    exact Multiset.mem_of_le (Owns.footprint_le s.word (by simp)) hmem
  · exact h.owns.user_page_inj (by omega) (by omega) (hpte u hu) (hpte v hv) heq
  · rw [h.above u hlow hu]
    simp [Present]
  · rw [Multiset.cons_add, zero_add] at howns
    exact howns.unseen (Multiset.mem_cons_self d rest)
  · rw [Multiset.cons_add, zero_add, Multiset.cons_swap] at howns
    exact howns.unseen (Multiset.mem_cons_self d' rest)

theorem copyuvm_copied {sz : ℕ} (h₀ : Owns L s plain (0 + d ::ₘ rest)) (hsz : sz < kernbase)
    (hpresent : ∀ u < pagesOf sz, Present (pteAt s.word d u)) :
    Exec.total (copyuvm L d sz) (fun r s' =>
      (∀ n ∈ plain + ((d ::ₘ rest).map (footprint s.word)).sum, s'.word n = s.word n) ∧
      (r = none → Owns L s' plain (0 + d ::ₘ rest)) ∧
      (∀ d', r = some d' → Owns L s' plain (d' ::ₘ d ::ₘ rest) ∧ Copy L s s' d d' sz) ∧
      (s.hole = false → s.Grants (requests (pagesOf sz)) →
        r ≠ none ∧ Asked s (requests (pagesOf sz)) s')) s := by
  have hwithin : Exec.wlp (setupkvm L) (fun _ s₁ => Within s.freelist s₁) s :=
    Exec.wp_mono ((within_setupkvm L).wp fun n hn => hn) (fun _ _ hh => hh) fun _ _ _ => trivial
  have htop : 0 + pagesOf sz ≤ kernbasePage := by
    rw [zero_add]
    exact pagesOf_le hsz.le
  unfold copyuvm
  refine Exec.total_seq (total_and (setupkvm_extends h₀.shelve).run (Exec.wlp_and hwithin
    (setupkvm_counted h₀.shelve (Asked.refl s)))) ?_
  rintro (_ | d') s₁ ⟨⟨hsetup, ⟨hframe, hmarks⟩, hnone, hsome⟩, hfree, hcounted, hrefused⟩
  · refine Exec.wp_pure.mpr ⟨hframe, fun _ => ?_, by simp, fun _ hgrants => ?_⟩
    · exact Owns.unshelve h₀ (hnone rfl) hframe
    · refine absurd (hgrants.mono ?_) (hrefused rfl)
      unfold requests
      omega
  · have hkvm := hsome d' rfl
    have hstart : Forked L s.word s.freelist (fun u => pteAt s₁.word d' u)
        (plain + ((d ::ₘ rest).map (footprint s.word)).sum) d d' 0 s₁ :=
      ⟨hkvm.owns, hframe, hfree, fun u _ _ => rfl, fun u hu => absurd hu (Nat.not_lt_zero u),
        fun u _ hu => hkvm.empty u hu⟩
    refine Exec.total_seq (copyFrom_forked hstart htop
      (fun m hm => Owns.mem_shelf (Multiset.mem_cons_self d rest) hm)
      fun u _ hu => hpresent u (by omega)) ?_
    rintro ok s₂ ⟨htrue, hfalse, hgets⟩
    have hmore : s.hole = false → s.Grants (requests (pagesOf sz)) →
        ok = true ∧ Supplied s d' (pagesOf sz) s₂ := by
      rw [zero_add] at hgets
      exact fun hhole => hgets s
        ((hcounted d' rfl).supplied ((Memory.hole_of_marks hmarks).trans hhole))
    cases ok with
    | false =>
        have hfailed := hfalse rfl
        refine Exec.total_seq (freevm_spec hfailed.owns) ?_
        rintro - s₃ ⟨h₃, hkeep⟩
        have hframe₃ : ∀ n ∈ plain + ((d ::ₘ rest).map (footprint s.word)).sum,
            s₃.word n = s.word n := fun n hn => (hkeep n hn).trans (hfailed.frame n hn)
        refine Exec.wp_pure.mpr ⟨hframe₃, fun _ => ?_, by simp, fun hhole hgrants => ?_⟩
        · exact Owns.unshelve h₀ h₃ hframe₃
        · exact absurd (hmore hhole hgrants).1 (by simp)
    | true =>
        have hforked := htrue rfl
        rw [zero_add] at hforked
        refine Exec.wp_pure.mpr ⟨hforked.frame, by simp, ?_, fun hhole hgrants =>
          ⟨by simp, (hmore hhole hgrants).2.asked⟩⟩
        rintro _ ⟨⟩
        have howns := Owns.unshelve h₀ hforked.owns hforked.frame
        rw [Multiset.cons_add, zero_add] at howns
        exact ⟨howns, hforked.copy h₀ hsetup hsz hpresent⟩

/-- `copyuvm` returns without a panic, and a directory it returns is a copy. -/
theorem copyuvm_copies {sz : ℕ} (h : Owns L s plain (d ::ₘ rest)) (hsz : sz < kernbase)
    (hpresent : ∀ u < pagesOf sz, Present (pteAt s.word d u)) :
    ∃ r s', copyuvm L d sz s = (.ok r, s') ∧ ∀ d', r = some d' → Copy L s s' d d' sz := by
  rw [← zero_add (d ::ₘ rest)] at h
  obtain ⟨r, s', hret, -, -, hcopy, -⟩ := Exec.wp_total (copyuvm_copied h hsz hpresent)
  exact ⟨r, s', hret, fun d' hr => (hcopy d' hr).2⟩

/-- A program of two pages with different permissions and contents. -/
theorem copyuvm_copies_lone : ∃ s d' s', Owns smallLink s 0 (276 ::ₘ 0) ∧
    pteFlags (pteAt s.word 276 0) ≠ pteFlags (pteAt s.word 276 1) ∧
    userByte s.word 276 0 ≠ userByte s.word 276 pgsize ∧
    copyuvm smallLink 276 (2 * pgsize) s = (.ok (some d'), s') ∧
      Copy smallLink s s' 276 d' (2 * pgsize) := by
  have hdiv : 1 / npentries = 0 := by simp [npentries]
  have hmod : 1 % npentries = 1 := by simp [npentries]
  have hzero : pteAt (loneWord 0 0) 276 1 = 0 := by
    rw [pteAt, hdiv, hmod, if_pos (loneWord_dir.mpr rfl), loneWord_page.1]
    rfl
  -- the second page cannot be written to, and is full of sevens
  obtain ⟨s, howns, hhole, hroom, hpte, hseven, hblank, -⟩ := exists_pair 1 5 (fun _ => 7)
    (by simp [userEntries]) (by simp [npentries]) (by decide) (by decide) hzero
  have hpages : pagesOf (2 * pgsize) = 2 := by decide
  have hfirst : pteAt s.word 276 0 = mkPte 278 pteWU := by
    rw [hpte 0 (by decide), if_neg (by decide), pteAt, Nat.zero_div, Nat.zero_mod,
      if_pos (loneWord_dir.mpr rfl), loneWord_page.1]
    rfl
  have hsecond : pteAt s.word 276 1 = mkPte 279 5 := by
    rw [hpte 1 (by decide), if_pos rfl]
  have hpresent : ∀ u < pagesOf (2 * pgsize), Present (pteAt s.word 276 u) := by
    intro u hu
    rw [hpages] at hu
    rcases Nat.lt_succ_iff_lt_or_eq.mp hu with hu | rfl
    · rw [Nat.lt_one_iff.mp hu, hfirst]
      exact mkPte_present _ _
    · rw [hsecond]
      exact mkPte_present _ _
  have hgrants : (s.withFails []).Grants (requests (pagesOf (2 * pgsize))) := by
    refine Memory.grants_of_length ?_
    rw [hpages, show requests 2 = 68 by decide]
    omega
  have h₀ : Owns smallLink (s.withFails []) 0 (0 + 276 ::ₘ 0) := by
    rw [zero_add]
    exact howns.withFails []
  obtain ⟨r, s₁, hret, -, -, -, hsome⟩ :=
    Exec.wp_total (copyuvm_copied h₀ (by decide) hpresent)
  obtain ⟨d', rfl⟩ := Option.ne_none_iff_exists'.mp (hsome hhole hgrants).1
  obtain ⟨r, s', hret', hcopy⟩ := copyuvm_copies (howns.withFails []) (by decide) hpresent
  rw [hret] at hret'
  obtain ⟨hr, rfl⟩ := Prod.mk.inj hret'
  refine ⟨s.withFails [], d', s₁, howns.withFails [], ?_, ?_, hret, hcopy d' ?_⟩
  · change pteFlags (pteAt s.word 276 0) ≠ pteFlags (pteAt s.word 276 1)
    rw [hfirst, hsecond]
    decide
  · change userByte s.word 276 0 ≠ userByte s.word 276 pgsize
    unfold userByte
    rw [Nat.zero_div, Nat.div_self (by decide), hfirst, hsecond, mkPte_page (by decide),
      mkPte_page (by decide), hseven, hblank]
    decide
  · exact (Except.ok.inj hr).symm

end Vm

end Xv6
