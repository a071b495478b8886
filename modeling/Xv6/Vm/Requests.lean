import Xv6.Vm.Entries

/-!
# Requests for pages

What a call asks of the allocator is a sequence of requests.  Which of them `kalloc` grants
follows from the length of the free list and the failures ahead, as long as nothing has been
refused, so it can be said of the state before the call.

`exec` asks for a directory, for the 64 tables of the kernel, and then for the pages of the
program, each 1024th of which needs a table first.
-/

namespace Xv6

namespace Vm

open Support

variable {α : Type} {L : Link} {s s' s₀ : Memory} {plain rest : Multiset ℕ} {d m n u v t j k perm : ℕ}

/-! ## One request -/

/-- The next call of `kalloc` fails, with `free` pages on the list. -/
def refused (free : ℕ) (fails : List Bool) : Bool :=
  free == 0 || fails.headD false

/-- `kalloc` has failed, or taken the first page of the list. -/
theorem kalloc_exact (s : Memory) :
    Exec.total kalloc (fun r s' => s'.fails = s.fails.tail ∧ s'.word = s.word ∧
      match r with
      | none => refused s.freelist.length s.fails = true ∧ s'.freelist = s.freelist
      | some n => refused s.freelist.length s.fails = false ∧ s.freelist = n :: s'.freelist) s := by
  unfold Exec.total Exec.wp kalloc
  split
  · rename_i hlist hfails
    refine ⟨?_, rfl, ?_, hlist.symm⟩
    · rw [hfails]
      rfl
    · rw [hfails]
      simp [refused]
  · rename_i hlist hnot
    refine ⟨rfl, rfl, ?_, hlist⟩
    rw [hlist]
    have hhead : s.fails.headD false = false := by
      cases hfails : s.fails with
      | nil => rfl
      | cons b fs =>
          cases b with
          | false => rfl
          | true => exact absurd hfails (hnot fs)
    rw [refused, hhead]
    rfl
  · rename_i hlist
    refine ⟨rfl, rfl, ?_, rfl⟩
    rw [hlist]
    rfl

/-- The table for the virtual page `v` was there, was made, or could not be made. -/
inductive Tabled (s s' : Memory) (d v : ℕ) : Bool → Prop
  | found (present : Present (s.word d (v / npentries))) (free : s'.freelist = s.freelist)
      (fails : s'.fails = s.fails) (dir : s'.word d = s.word d) : Tabled s s' d v true
  | made (t : ℕ) (absent : ¬Present (s.word d (v / npentries)))
      (granted : refused s.freelist.length s.fails = false) (free : s.freelist = t :: s'.freelist)
      (fails : s'.fails = s.fails.tail)
      (dir : s'.word d = Function.update (s.word d) (v / npentries) (mkPte t pteWU)) :
      Tabled s s' d v true
  | denied (absent : ¬Present (s.word d (v / npentries)))
      (refusal : refused s.freelist.length s.fails = true) (free : s'.freelist = s.freelist)
      (fails : s'.fails = s.fails.tail) (dir : s'.word d = s.word d) : Tabled s s' d v false

/-- Stores outside of the directory do not matter. -/
theorem Tabled.of_dir {s₁ : Memory} {r : Bool} (h : Tabled s s₁ d v r)
    (hfree : s'.freelist = s₁.freelist) (hfails : s'.fails = s₁.fails)
    (hdir : s'.word d = s₁.word d) : Tabled s s' d v r := by
  cases h with
  | found hp hf hfs hd => exact .found hp (hfree.trans hf) (hfails.trans hfs) (hdir.trans hd)
  | made t hp hg hf hfs hd =>
      exact .made t hp hg (by rw [hf, hfree]) (hfails.trans hfs) (hdir.trans hd)
  | denied hp hr hf hfs hd =>
      exact .denied hp hr (hfree.trans hf) (hfails.trans hfs) (hdir.trans hd)

theorem Owns.free_ne (h : Owns L s plain (d ::ₘ rest)) (hn : n ∈ s.freelist) : n ≠ d := by
  rintro rfl
  have hdisj := (Multiset.nodup_add.mp h.nodup).2.2
  refine Multiset.disjoint_left.mp hdisj (Multiset.mem_add.mpr (Or.inl hn)) ?_
  refine Multiset.mem_of_le (Owns.footprint_le s.word (Multiset.mem_cons_self n rest)) ?_
  unfold footprint
  exact Multiset.mem_add.mpr (Or.inl (mem_skeleton_self s.word n))

theorem walkpgdir_tabled (h : Owns L s plain (d ::ₘ rest)) :
    Exec.wlp (walkpgdir d v true) (fun r s' => Tabled s s' d v r.isSome) s := by
  unfold walkpgdir
  refine Exec.wp_bind.mpr (Exec.wp_gets.mpr ?_)
  split
  · rename_i hp
    exact Exec.wp_pure.mpr (.found hp rfl rfl rfl)
  · rename_i hp
    rw [if_neg (by simp)]
    refine Exec.wlp_seq (kalloc_exact s).wlp ?_
    rintro (_ | t) s1 ⟨hfails, hword, hres, hfree⟩
    · refine Exec.wp_bind.mpr (Exec.wp_modify.mpr (Exec.wp_pure.mpr ?_))
      exact .denied hp hres hfree hfails (congrFun hword d)
    · refine Exec.wp_bind.mpr (Exec.wp_modify.mpr (Exec.wp_bind.mpr (Exec.wp_modify.mpr
        (Exec.wp_pure.mpr ?_))))
      refine .made t hp hres hfree hfails ?_
      have htd : d ≠ t := (h.free_ne (hfree ▸ List.mem_cons_self)).symm
      funext i
      change putWord (fillPage s1.word t fun _ => 0) d (v / npentries) (mkPte t pteWU) d i = _
      by_cases hi : i = v / npentries
      · subst hi
        rw [putWord_same, Function.update_self]
      · rw [putWord_other_index hi, Function.update_of_ne hi, fillPage_other htd, hword]

theorem mapOne_tabled (h : Owns L s plain (d ::ₘ rest)) (hv : v < topPage) :
    Exec.wlp (mappages d 1 v n perm) (fun r s' => Tabled s s' d v r) s := by
  unfold mappages
  refine Exec.wlp_seq (Exec.wlp_and (walkpgdir_true_spec h hv) (walkpgdir_tabled h)) ?_
  rintro (_ | ⟨t, j⟩) s1 ⟨⟨h1, -, hres⟩, htab⟩
  · exact Exec.wp_pure.mpr htab
  · have hnd := h1.skeleton_nodup (Multiset.mem_cons_self d rest)
    refine Exec.wp_bind.mpr (Exec.wp_gets.mpr ?_)
    split
    · exact Exec.wlp_throw
    · refine Exec.wp_bind.mpr (Exec.wp_modify.mpr ?_)
      unfold mappages
      refine Exec.wp_pure.mpr ?_
      exact htab.of_dir rfl rfl (hres.1.dir_eq hnd hv)

/-- The tables of the directory `dir`. -/
def tableAt (dir : ℕ → ℕ) (i : ℕ) : Bool :=
  decide (Present (dir i))

theorem Tabled.tableAt_eq {r : Bool} (h : Tabled s s' d v r) :
    tableAt (s'.word d) = fun i => tableAt (s.word d) i || (r && i == v / npentries) := by
  unfold tableAt
  funext i
  cases h with
  | found hp _ _ hdir =>
      rw [hdir]
      by_cases hi : i = v / npentries
      · subst hi
        rw [decide_eq_true hp]
        rfl
      · simp [hi]
  | denied _ _ _ _ hdir =>
      rw [hdir]
      simp
  | made t _ _ _ _ hdir =>
      rw [hdir]
      by_cases hi : i = v / npentries
      · subst hi
        rw [Function.update_self, decide_eq_true (mkPte_present t pteWU)]
        simp
      · rw [Function.update_of_ne hi]
        simp [hi]

/-! ## Requests that are granted -/

/-- The request number `r` from the state `s` on is granted, if all before it are. -/
def Memory.grants (s : Memory) (r : ℕ) : Bool :=
  decide (r < s.freelist.length) && !s.fails.getD r false

/-- The first `n` requests from the state `s` on are granted. -/
def Memory.Grants (s : Memory) (n : ℕ) : Prop :=
  ∀ r < n, s.grants r = true

theorem Memory.Grants.mono (h : s.Grants n) (hle : m ≤ n) : s.Grants m :=
  fun r hr => h r (hr.trans_le hle)

/-- Nothing is refused as long as there are free pages. -/
theorem Memory.grants_of_length {s : Memory} {n : ℕ} (h : n ≤ s.freelist.length) :
    (s.withFails []).Grants n := by
  intro r hr
  simp [Memory.grants, Memory.withFails, hr.trans_le h]

/-- From `s₀` on, `n` requests have been granted. -/
structure Asked (s₀ : Memory) (n : ℕ) (s : Memory) : Prop where
  granted : s₀.Grants n
  free : s.freelist = s₀.freelist.drop n
  fails : s.fails = s₀.fails.drop n

theorem Asked.refl (s : Memory) : Asked s 0 s :=
  ⟨fun _ hr => absurd hr (Nat.not_lt_zero _), rfl, rfl⟩

theorem Asked.congr (h : Asked s₀ n s) (hfree : s'.freelist = s.freelist)
    (hfails : s'.fails = s.fails) : Asked s₀ n s' :=
  ⟨h.granted, hfree.trans h.free, hfails.trans h.fails⟩

theorem Asked.refused_eq (h : Asked s₀ n s) :
    refused s.freelist.length s.fails = !s₀.grants n := by
  have hhead : s.fails.headD false = s₀.fails.getD n false := by
    rw [h.fails, List.headD_eq_head?_getD, List.head?_drop, List.getD_eq_getElem?_getD]
  unfold refused Memory.grants
  rw [hhead, h.free, List.length_drop, Bool.not_and, Bool.not_not]
  congr 1
  rw [Bool.eq_iff_iff]
  simp only [beq_iff_eq, Bool.not_eq_true', decide_eq_false_iff_not]
  omega

/-- The next request is granted. -/
theorem Asked.next (h : Asked s₀ n s) (hgranted : refused s.freelist.length s.fails = false)
    (hfree : s.freelist = t :: s'.freelist) (hfails : s'.fails = s.fails.tail) :
    Asked s₀ (n + 1) s' := by
  refine ⟨fun r hr => ?_, ?_, ?_⟩
  · rcases Nat.lt_succ_iff_lt_or_eq.mp hr with hlt | rfl
    · exact h.granted r hlt
    · rw [h.refused_eq] at hgranted
      simpa using hgranted
  · rw [← List.drop_drop, ← h.free, hfree, List.drop_succ_cons, List.drop_zero]
  · rw [hfails, h.fails, List.tail_drop]

/-! ## Page tables -/

/-- From `s₀` on, `n` requests have been granted, and `has` are the tables of the directory
`d` now. -/
structure Counted (s₀ : Memory) (d n : ℕ) (has : ℕ → Prop) (s : Memory) : Prop where
  asked : Asked s₀ n s
  tables : ∀ i, Present (s.word d i) ↔ has i

theorem Counted.congr {has : ℕ → Prop} (h : Counted s₀ d n has s)
    (hfree : s'.freelist = s.freelist) (hfails : s'.fails = s.fails)
    (hdir : s'.word d = s.word d) : Counted s₀ d n has s' :=
  ⟨h.asked.congr hfree hfails, fun i => by rw [hdir]; exact h.tables i⟩

/-- A table costs a request if it is not there yet. -/
theorem Counted.tabled {has : ℕ → Prop} (h : Counted s₀ d n has s) (htab : Tabled s s' d v true) :
    has (v / npentries) ∧ Counted s₀ d n has s' ∨
      ¬has (v / npentries) ∧ Counted s₀ d (n + 1) (fun i => has i ∨ i = v / npentries) s' := by
  cases htab with
  | found hp hfree hfails hdir =>
      exact Or.inl ⟨(h.tables _).mp hp, h.congr hfree hfails hdir⟩
  | made t hp hgranted hfree hfails hdir =>
      refine Or.inr ⟨fun hh => hp ((h.tables _).mpr hh), h.asked.next hgranted hfree hfails,
        fun i => ?_⟩
      rw [hdir]
      by_cases hi : i = v / npentries
      · subst hi
        rw [Function.update_self]
        exact iff_of_true (mkPte_present t pteWU) (Or.inr rfl)
      · rw [Function.update_of_ne hi, h.tables i]
        exact (or_iff_left hi).symm

/-- A table is refused only if it is not there yet, and then a request has been. -/
theorem Counted.denied {has : ℕ → Prop} (h : Counted s₀ d n has s)
    (htab : Tabled s s' d v false) : ¬has (v / npentries) ∧ s₀.grants n = false := by
  cases htab with
  | denied hp hrefused _ _ _ =>
      refine ⟨fun hh => hp ((h.tables _).mpr hh), ?_⟩
      rw [h.asked.refused_eq] at hrefused
      simpa using hrefused

/-- The number of tables for the pages below the virtual page `v`. -/
def span (v : ℕ) : ℕ :=
  (v + 1023) / 1024

/-- The next page needs a table exactly if it is the first one of its table. -/
theorem span_succ (v : ℕ) : span (v + 1) = span v + if v % 1024 = 0 then 1 else 0 := by
  unfold span
  split <;> omega

/-- The page `v` is in the last table counted, unless it is the first one of its table. -/
theorem span_pred (v : ℕ) : v / 1024 + (if v % 1024 = 0 then 0 else 1) = span v := by
  unfold span
  split <;> omega

/-- Mapping pages of the kernel one after another, with the tables `P` besides. -/
theorem mappages_counted {P : ℕ → Prop} {lo : ℕ} (hperm : perm = 0 ∨ perm = pteW)
    (h : Owns L s plain (d ::ₘ rest)) (hlow : kernbasePage ≤ v) (hhigh : v + k ≤ topPage)
    (hlo : lo ≤ v / 1024) (hnew : ∀ i, span v ≤ i → i < span (v + k) → ¬P i)
    (hc : Counted s₀ d m (fun i => P i ∨ lo ≤ i ∧ i < span v) s) :
    Exec.wlp (mappages d k v n perm) (fun r s' =>
      (r = true → Owns L s' plain (d ::ₘ rest) ∧ Counted s₀ d (m + (span (v + k) - span v))
        (fun i => P i ∨ lo ≤ i ∧ i < span (v + k)) s') ∧
      (r = false → ¬s₀.Grants (m + (span (v + k) - span v)))) s := by
  induction k generalizing s v m n with
  | zero =>
      refine Exec.wp_pure.mpr ⟨fun _ => ⟨h, ?_⟩, by simp⟩
      rwa [Nat.add_zero, Nat.sub_self, Nat.add_zero]
  | succ k ih =>
      have htop : v < topPage := by omega
      have hentries : v / npentries = v / 1024 := by
        unfold npentries
        rfl
      have hpred := span_pred v
      have hsucc := span_succ v
      have hmono : span (v + 1) ≤ span (v + (k + 1)) :=
        Nat.div_le_div_right (by omega)
      unfold mappages
      refine Exec.wlp_seq (Exec.wlp_and (walkpgdir_true_spec h htop) (walkpgdir_tabled h)) ?_
      rintro (_ | ⟨t, j⟩) s1 ⟨⟨h1, -, hres⟩, htab⟩
      · obtain ⟨hhas, hrefused⟩ := hc.denied htab
        rw [hentries] at hhas
        have hfirst : v % 1024 = 0 := by
          by_contra hin
          rw [if_neg hin] at hpred
          exact hhas (Or.inr ⟨hlo, by omega⟩)
        rw [if_pos hfirst] at hsucc
        refine Exec.wp_pure.mpr ⟨by simp, fun _ hall => ?_⟩
        rw [hall m (by omega)] at hrefused
        cases hrefused
      · obtain ⟨hat, -⟩ := hres
        have hnd := h1.skeleton_nodup (Multiset.mem_cons_self d rest)
        refine Exec.wp_bind.mpr (Exec.wp_gets.mpr ?_)
        split
        · exact Exec.wlp_throw
        · refine Exec.wp_bind.mpr (Exec.wp_modify.mpr ?_)
          have hdir := hat.dir_eq (w := mkPte n perm) hnd htop
          -- the table is new exactly if the page is the first one of its table
          have hstep : Counted s₀ d (m + (span (v + 1) - span v))
              (fun i => P i ∨ lo ≤ i ∧ i < span (v + 1)) s1 := by
            rcases hc.tabled htab with ⟨hhas, hc1⟩ | ⟨hhas, hc1⟩
            · rw [hentries] at hhas
              have hin : v % 1024 ≠ 0 := by
                intro hfirst
                rw [if_pos hfirst] at hpred hsucc
                rcases hhas with hhas | hhas
                · exact hnew (v / 1024) (by omega) (by omega) hhas
                · omega
              rw [if_neg hin] at hsucc
              rwa [hsucc, Nat.add_zero, Nat.sub_self, Nat.add_zero]
            · rw [hentries] at hhas hc1
              have hfirst : v % 1024 = 0 := by
                by_contra hin
                rw [if_neg hin] at hpred
                exact hhas (Or.inr ⟨hlo, by omega⟩)
              rw [if_pos hfirst] at hpred hsucc
              rw [hsucc, Nat.add_sub_cancel_left]
              refine ⟨hc1.asked, fun i => (hc1.tables i).trans ?_⟩
              constructor
              · rintro ((hi | hi) | rfl)
                · exact Or.inl hi
                · exact Or.inr ⟨hi.1, by omega⟩
                · exact Or.inr ⟨hlo, by omega⟩
              · rintro (hi | hi)
                · exact Or.inl (Or.inl hi)
                · by_cases hlast : i = v / 1024
                  · exact Or.inr hlast
                  · exact Or.inl (Or.inr ⟨hi.1, by omega⟩)
          refine Exec.wlp_mono (ih (h1.setKernelEntry hperm hlow htop hat) (by omega) (by omega)
            (hlo.trans (Nat.div_le_div_right (Nat.le_succ v))) (fun i hi hi' =>
              hnew i (by omega) (by rwa [show v + 1 + k = v + (k + 1) by omega] at hi'))
            (hstep.congr rfl rfl hdir)) ?_
          intro r s2 hres2
          rwa [show v + 1 + k = v + (k + 1) by omega,
            show m + (span (v + 1) - span v) + (span (v + (k + 1)) - span (v + 1)) =
              m + (span (v + (k + 1)) - span v) by omega] at hres2

/-- The tables of the kernel. -/
def kernelTables (i : ℕ) : Prop :=
  512 ≤ i ∧ i < 568 ∨ 1016 ≤ i ∧ i < 1024

theorem kmap_eq (L : Link) : kmap L = [(524288, 0, 256, pteW), (524544, 256, L.data, 0),
    (524288 + L.data, L.data, 57344, pteW), (1040384, 1040384, 1048576, pteW)] := by
  have hphys : phystopPage = 57344 := by
    unfold phystopPage
    rfl
  unfold kmap
  rw [hphys]
  rfl

theorem span_of_start (i : ℕ) : span (i * 1024) = i := by
  unfold span
  omega

/-- The mappings of the kernel need 64 tables. -/
theorem mapKernel_counted (h : Owns L s plain (d ::ₘ rest))
    (hc : Counted s₀ d m (fun _ => False) s) :
    Exec.wlp (mapKernel d (kmap L)) (fun r s' =>
      (r = true → Counted s₀ d (m + 64) kernelTables s') ∧
      (r = false → ¬s₀.Grants (m + 64))) s := by
  have htext : 256 < L.data := L.text_lt
  have hdata := L.data_le
  have hkend := L.kend_le
  have hfirst : span 524288 = 512 := span_of_start 512
  have hlast : span 581632 = 568 := span_of_start 568
  have hdevices : span 1040384 = 1016 := span_of_start 1016
  have htop : span 1048576 = 1024 := span_of_start 1024
  have hmono : ∀ v w, v ≤ w → span v ≤ span w := fun v w hvw =>
    Nat.div_le_div_right (Nat.add_le_add_right hvw _)
  have hinside := hmono 524288 524544 (by omega)
  have hinside' := hmono 524544 (524288 + L.data) (by omega)
  have hinside'' := hmono (524288 + L.data) 581632 (by omega)
  rw [kmap_eq]
  unfold mapKernel
  have hc1 : Counted s₀ d m (fun i => False ∨ 512 ≤ i ∧ i < span 524288) s := by
    refine ⟨hc.asked, fun i => (hc.tables i).trans (iff_of_false (fun hf => hf) ?_)⟩
    rintro (hf | hi)
    · exact hf
    · omega
  refine Exec.wlp_seq (mappages_counted (Or.inr rfl) h le_rfl (by decide) (by decide)
    (fun _ _ _ hf => hf) hc1) ?_
  rintro (_ | _) s2 ⟨h2, hno2⟩
  · rw [show 524288 + (256 - 0) = 524544 by rfl] at hno2
    exact Exec.wp_pure.mpr ⟨by simp, fun _ hall => hno2 rfl (hall.mono (by omega))⟩
  obtain ⟨h2, hc2⟩ := h2 rfl
  rw [show 524288 + (256 - 0) = 524544 by rfl] at hc2
  unfold mapKernel
  refine Exec.wlp_seq (mappages_counted (v := 524544) (k := L.data - 256) (Or.inl rfl) h2
    (by decide) (show 524544 + (L.data - 256) ≤ 1048576 by omega) (by decide)
    (fun _ _ _ hf => hf) hc2) ?_
  rintro (_ | _) s3 ⟨h3, hno3⟩
  · rw [show 524544 + (L.data - 256) = 524288 + L.data by omega] at hno3
    exact Exec.wp_pure.mpr ⟨by simp, fun _ hall => hno3 rfl (hall.mono (by omega))⟩
  obtain ⟨h3, hc3⟩ := h3 rfl
  rw [show 524544 + (L.data - 256) = 524288 + L.data by omega] at hc3
  unfold mapKernel
  refine Exec.wlp_seq (mappages_counted (Or.inr rfl) h3 (show 524288 ≤ 524288 + L.data by omega)
    (show 524288 + L.data + (57344 - L.data) ≤ 1048576 by omega) (by omega)
    (fun _ _ _ hf => hf) hc3) ?_
  rintro (_ | _) s4 ⟨h4, hno4⟩
  · rw [show 524288 + L.data + (57344 - L.data) = 581632 by omega] at hno4
    exact Exec.wp_pure.mpr ⟨by simp, fun _ hall => hno4 rfl (hall.mono (by omega))⟩
  obtain ⟨h4, hc4⟩ := h4 rfl
  rw [show 524288 + L.data + (57344 - L.data) = 581632 by omega] at hc4
  -- the devices have tables of their own
  have hc4 : Counted s₀ d (m + 56) (fun i => (512 ≤ i ∧ i < 568) ∨
      1016 ≤ i ∧ i < span 1040384) s4 := by
    have hnumber : m + (span 524544 - span 524288) + (span (524288 + L.data) - span 524544) +
        (span 581632 - span (524288 + L.data)) = m + 56 := by omega
    rw [hnumber] at hc4
    refine ⟨hc4.asked, fun i => (hc4.tables i).trans ?_⟩
    rw [hlast, hdevices]
    constructor
    · rintro (hf | hi)
      · exact hf.elim
      · exact Or.inl hi
    · rintro (hi | hi)
      · exact Or.inr hi
      · omega
  unfold mapKernel
  refine Exec.wlp_seq (mappages_counted (Or.inr rfl) h4 (by decide) (by decide) (by decide)
    (fun i hi _ hP => by omega) hc4) ?_
  rintro (_ | _) s5 ⟨h5, hno5⟩
  · rw [show 1040384 + (1048576 - 1040384) = 1048576 by rfl] at hno5
    exact Exec.wp_pure.mpr ⟨by simp, fun _ hall => hno5 rfl (hall.mono (by omega))⟩
  obtain ⟨-, hc5⟩ := h5 rfl
  rw [show 1040384 + (1048576 - 1040384) = 1048576 by rfl, htop, hdevices] at hc5
  unfold mapKernel
  exact Exec.wp_pure.mpr ⟨fun _ => hc5, by simp⟩

/-- `setupkvm` asks for a directory and for these tables. -/
theorem setupkvm_counted (h : Owns L s plain rest) (hfirst : Asked s₀ 0 s) :
    Exec.wlp (setupkvm L) (fun r s' => (∀ d, r = some d → Counted s₀ d 65 kernelTables s') ∧
      (r = none → ¬s₀.Grants 65)) s := by
  unfold setupkvm
  refine Exec.wlp_seq (Exec.wlp_and (kalloc_spec h) (kalloc_exact s).wlp) ?_
  rintro (_ | d) s1 ⟨⟨h1, -⟩, hfails, -, hgranted, hfree⟩
  · refine Exec.wp_pure.mpr ⟨by simp, fun _ hall => ?_⟩
    rw [hfirst.refused_eq, hall 0 (by omega)] at hgranted
    cases hgranted
  · rw [handed, Multiset.singleton_add] at h1
    have hasked : Asked s₀ 1 s1 := hfirst.next hgranted hfree hfails
    have hout : ∀ d' ∈ rest, d ∉ skeleton s1.word d' := fun d' hd' =>
      Owns.notMem_skeleton (h1.plain_notMem (Multiset.mem_cons_self d plain) hd')
    have hdir : Owns L { s1 with word := fillPage s1.word d fun _ => 0 } (d ::ₘ plain) rest :=
      h1.move (fun d' hd' => SameTables.of_page (hout d' hd') fun m hm => fillPage_other hm)
        rfl rfl
    have hempty : Counted s₀ d 1 (fun _ => False)
        { s1 with word := fillPage s1.word d fun _ => 0 } := by
      refine ⟨hasked.congr rfl rfl, fun i => ?_⟩
      simp only [fillPage_same]
      exact iff_of_false (by simp [Present]) fun hf => hf
    refine Exec.wp_bind.mpr (Exec.wp_modify.mpr ?_)
    refine Exec.wlp_seq (mapKernel_counted (hdir.newDir fillPage_same) hempty) ?_
    rintro (_ | _) s2 ⟨h2, hno2⟩
    · exact Exec.wp_pure.mpr ⟨by simp, fun _ => hno2 rfl⟩
    · refine Exec.wp_pure.mpr ⟨?_, by simp⟩
      rintro _ ⟨⟩
      exact h2 rfl

/-! ## Unmapped pages are recorded -/

/-- A table is refused only with a page left unmapped, which is not forgotten: both flags stay as
they are, unless a page is unmapped in the end. -/
def Stays (m : PageM α) : Prop :=
  ∀ a b, Exec.Preserves (fun s : Memory => s.hole = true ∨ s.starved = a ∧ s.hole = b) m

theorem Stays.pure {a : α} : Stays (Pure.pure a : PageM α) :=
  fun _ _ => Exec.Preserves.pure

theorem Stays.throw {e : Panic} : Stays (Exec.throw e : PageM α) :=
  fun _ _ => Exec.Preserves.throw

theorem Stays.bind {β : Type} {m : PageM α} {f : α → PageM β} (hm : Stays m)
    (hf : ∀ a, Stays (f a)) : Stays (m >>= f) :=
  fun a b => Exec.Preserves.bind (hm a b) fun r => hf r a b

theorem Stays.of_keeps {m : PageM α} (h : Exec.Keeps Memory.record m) : Stays m := by
  intro a b
  refine h.preserves fun s s' hrec hs => ?_
  rw [Memory.hole_of_record hrec, Memory.starved_of_record hrec]
  exact hs

/-- Once a page was left unmapped, this is not forgotten. -/
theorem Stays.hole {m : PageM α} (h : Stays m) :
    Exec.Preserves (fun s : Memory => s.hole = true) m :=
  fun s hs => (h true true s (Or.inl hs)).elim id And.right

/-- If all pages are mapped in the end, no table was refused. -/
theorem Stays.fed {m : PageM α} (h : Stays m) (hhole : s.hole = false) :
    Exec.wlp m (fun _ s' => s'.hole = false → s'.starved = s.starved) s := by
  refine Exec.wp_mono ((h s.starved false).wp (Or.inr ⟨rfl, hhole⟩)) (fun _ s' hs hhole' => ?_)
    fun _ _ _ => trivial
  rw [hhole'] at hs
  exact (hs.resolve_left Bool.false_ne_true).1

theorem stays_mapOne (d v n perm : ℕ) :
    Stays (mappages d 1 v n perm >>= fun ok => Exec.modify fun s => s.noteMapped ok) := by
  intro a b s hs
  refine Exec.wp_end (P := fun s : Memory => s.hole = true ∨ s.starved = a ∧ s.hole = b)
    (Exec.wp_seq (mappages_record d 1 v n perm s) ?_ ?_)
  · rintro ok s₁ ⟨hmarks, hstarved⟩
    have hhole := Memory.hole_of_marks hmarks
    refine Exec.wp_modify.mpr ?_
    cases ok with
    | true =>
        simpa [Memory.noteMapped, hhole, hstarved] using hs
    | false =>
        left
        simp [Memory.noteMapped, hstarved]
  · intro _ s₁ hrec
    rw [Memory.hole_of_record hrec, Memory.starved_of_record hrec]
    exact hs

theorem stays_allocFrom (d k v : ℕ) : Stays (allocFrom d k v) := by
  induction k generalizing v with
  | zero => exact Stays.pure
  | succ k ih =>
      refine (Stays.of_keeps keeps_kalloc).bind fun r => ?_
      cases r with
      | none => exact Stays.pure
      | some n =>
          refine Stays.bind (fun _ _ => Exec.Preserves.modify fun s hs => hs) fun _ => ?_
          refine (Stays.of_keeps (keeps_setPage _ _)).bind fun _ => ?_
          rw [← Exec.bind_assoc]
          exact (stays_mapOne d v n pteWU).bind fun _ => ih _

theorem stays_allocuvm (L : Link) (d oldsz newsz : ℕ) : Stays (allocuvm L d oldsz newsz) := by
  unfold allocuvm
  split
  · exact Stays.pure
  · split
    · exact Stays.pure
    · refine (stays_allocFrom _ _ _).bind fun ok => ?_
      cases ok with
      | true => exact Stays.pure
      | false => exact (Stays.of_keeps (keeps_deallocuvm _ _ _ _)).bind fun _ => Stays.pure

/-! ## The pages of a program -/

/-- The requests of `exec` for the kernel's part of an address space and for a program of `m`
pages with its tables. -/
def requests (m : ℕ) : ℕ :=
  65 + m + span m

theorem requests_lt (h : m < n) : requests m < requests n := by
  unfold requests span
  omega

theorem requests_mono (h : m ≤ n) : requests m ≤ requests n := by
  unfold requests span
  omega

/-- In the new address space `d` the first `m` pages of the program have got all that they need,
and nothing has been refused. -/
structure Supplied (s₀ : Memory) (d m : ℕ) (s : Memory) : Prop where
  asked : Asked s₀ (requests m) s
  tables : ∀ i, Present (s.word d i) ↔ i < span m ∨ kernelTables i
  mapped : s.hole = false

/-- The first request that is refused is one for the page table of some page `1024 * t` in the
range. -/
def TableRefused (s₀ : Memory) (lo hi : ℕ) : Prop :=
  ∃ t, lo ≤ 1024 * t ∧ 1024 * t < hi ∧ s₀.Grants (requests (1024 * t) + 1) ∧
    s₀.grants (requests (1024 * t) + 1) = false

theorem Supplied.congr (h : Supplied s₀ d m s) (hfree : s'.freelist = s.freelist)
    (hfails : s'.fails = s.fails) (hdir : s'.word d = s.word d) (hhole : s'.hole = s.hole) :
    Supplied s₀ d m s' :=
  ⟨h.asked.congr hfree hfails, fun i => by rw [hdir]; exact h.tables i, hhole.trans h.mapped⟩

/-- The new address space before anything is allocated. -/
theorem Counted.supplied (h : Counted s₀ d 65 kernelTables s) (hhole : s.hole = false) :
    Supplied s₀ d 0 s :=
  ⟨h.asked, fun i => (h.tables i).trans (or_iff_right (Nat.not_lt_zero i)).symm, hhole⟩

/-- The next page is granted and mapped, or its table is refused. -/
theorem Supplied.round {s₁ s₂ : Memory} {ok : Bool} (h : Supplied s₀ d v s) (hv : v < kernbasePage)
    (htab : Tabled s₁ s₂ d v ok) (hgranted : refused s.freelist.length s.fails = false)
    (hfree : s.freelist = n :: s₁.freelist) (hfails : s₁.fails = s.fails.tail)
    (hdir : s₁.word d = s.word d) (hhole : s₂.hole = s.hole) :
    (ok = true → Supplied s₀ d (v + 1) s₂) ∧ (ok = false → TableRefused s₀ v (v + 1)) := by
  have hentries : v / npentries = v / 1024 := by
    unfold npentries
    rfl
  have huser : v / npentries < userEntries := (user_iff (kernbase_lt_top hv)).mpr hv
  have hpred := span_pred v
  have hsucc := span_succ v
  have hasked : Asked s₀ (requests v + 1) s₁ := h.asked.next hgranted hfree hfails
  have hkernel : ¬kernelTables (v / 1024) := by
    rw [hentries] at huser
    unfold userEntries at huser
    unfold kernelTables
    omega
  have hat : Present (s₁.word d (v / 1024)) ↔ v / 1024 < span v := by
    rw [hdir]
    exact (h.tables _).trans (or_iff_left hkernel)
  cases htab with
  | found hp hfree₂ hfails₂ hdir₂ =>
      rw [hentries] at hp
      have hin := hat.mp hp
      have hnot : v % 1024 ≠ 0 := by
        intro hfirst
        rw [if_pos hfirst] at hpred
        omega
      rw [if_neg hnot, Nat.add_zero] at hsucc
      refine ⟨fun _ => ⟨?_, fun i => ?_, hhole.trans h.mapped⟩, by simp⟩
      · have hrequests : requests (v + 1) = requests v + 1 := by
          unfold requests
          omega
        rw [hrequests]
        exact hasked.congr hfree₂ hfails₂
      · rw [hdir₂, hdir, hsucc]
        exact h.tables i
  | made t hp hgranted₂ hfree₂ hfails₂ hdir₂ =>
      rw [hentries] at hp hdir₂
      have hout := fun hin => hp (hat.mpr hin)
      have hfirst : v % 1024 = 0 := by
        by_contra hnot
        rw [if_neg hnot] at hpred
        exact hout (by omega)
      rw [if_pos hfirst] at hpred hsucc
      refine ⟨fun _ => ⟨?_, fun i => ?_, hhole.trans h.mapped⟩, by simp⟩
      · have hrequests : requests (v + 1) = requests v + 1 + 1 := by
          unfold requests
          omega
        rw [hrequests]
        exact hasked.next hgranted₂ hfree₂ hfails₂
      · rw [hdir₂, hsucc]
        by_cases hi' : i = v / 1024
        · subst hi'
          rw [Function.update_self]
          exact iff_of_true (mkPte_present t pteWU) (Or.inl (by omega))
        · rw [Function.update_of_ne hi', hdir, h.tables i]
          exact or_congr_left (by omega)
  | denied hp hrefusal _ _ _ =>
      rw [hentries] at hp
      have hout := fun hin => hp (hat.mpr hin)
      have hfirst : v % 1024 = 0 := by
        by_contra hnot
        rw [if_neg hnot] at hpred
        exact hout (by omega)
      have hpage : 1024 * (v / 1024) = v := by omega
      refine ⟨by simp, fun _ => ⟨v / 1024, by omega, by omega, ?_, ?_⟩⟩
      · rw [hpage]
        exact hasked.granted
      · rw [hpage]
        rw [hasked.refused_eq] at hrefusal
        simpa using hrefusal

theorem TableRefused.mono {lo hi lo' hi' : ℕ} (h : TableRefused s₀ lo hi) (hlo : lo' ≤ lo)
    (hhi : hi ≤ hi') : TableRefused s₀ lo' hi' := by
  obtain ⟨t, hlow, hhigh, ht⟩ := h
  exact ⟨t, hlo.trans hlow, hhigh.trans_le hhi, ht⟩

/-- A page has been left unmapped, since a table was refused before any page of the program. -/
def Missed (s₀ : Memory) (lo hi : ℕ) (s : Memory) : Prop :=
  s.hole = true ∧ TableRefused s₀ lo hi

theorem Memory.Grants.tables {hi : ℕ} (h : s₀.Grants (requests m)) (hhi : hi ≤ m) :
    ¬TableRefused s₀ v hi := by
  rintro ⟨t, -, hhigh, -, hrefused⟩
  rw [h _ ?_] at hrefused
  · cases hrefused
  · unfold requests span
    omega

theorem Supplied.granted {hi : ℕ} (h : Supplied s₀ d m s) (hhi : hi ≤ m) :
    ¬TableRefused s₀ v hi :=
  h.asked.granted.tables hhi

/-- The loop of `allocuvm` maps all that it gets, or a table is refused to it first. -/
theorem allocFrom_supplied (h : Owns L s plain (d ::ₘ rest)) (hs : Supplied s₀ d v s)
    (hv : v + k ≤ kernbasePage) :
    Exec.wp (allocFrom d k v) (fun r s' => Missed s₀ v (v + k) s' ∨
        s'.hole = false ∧ ¬TableRefused s₀ v (v + k) ∧ (r = true → Supplied s₀ d (v + k) s') ∧
          (r = false → ¬s₀.Grants (requests (v + k))))
      (fun _ s' => Missed s₀ v (v + k) s' ∨ s'.hole = false) s := by
  induction k generalizing s v with
  | zero => exact Exec.wp_pure.mpr (Or.inr ⟨hs.mapped, hs.granted le_rfl, fun _ => hs, by simp⟩)
  | succ k ih =>
      have hmapped : ∀ s s' : Memory, s'.marks = s.marks → s.hole = false → s'.hole = false :=
        fun _ _ hmarks hh => (Memory.hole_of_marks hmarks).trans hh
      unfold allocFrom
      refine Exec.wp_seq (Exec.wlp_preserves (Exec.wlp_and (kalloc_spec h) (kalloc_exact s).wlp)
        ((marks_of_keeps keeps_kalloc).preserves hmapped) hs.mapped) ?_ fun _ _ hh => Or.inr hh
      rintro (_ | n) s1 ⟨⟨⟨h1, hword1, -⟩, hfails, -, hgranted, hfree⟩, hhole1⟩
      · rw [hs.asked.refused_eq] at hgranted
        have hno : ∀ r, requests v < r → ¬s₀.Grants r := by
          intro r hr hall
          rw [hall _ hr] at hgranted
          cases hgranted
        refine Exec.wp_pure.mpr (Or.inr ⟨hhole1, ?_, by simp,
          fun _ => hno _ (requests_lt (by omega))⟩)
        rintro ⟨t, hlow, -, hall, -⟩
        refine hno _ ?_ hall
        rcases eq_or_lt_of_le hlow with rfl | hlt
        · exact Nat.lt_succ_self _
        · exact (requests_lt hlt).trans (Nat.lt_succ_self _)
      · rw [handed, Multiset.singleton_add] at h1
        refine Exec.wp_bind.mpr (Exec.wp_modify.mpr (Exec.wp_bind.mpr (Exec.wp_modify.mpr ?_)))
        have hout : ∀ d' ∈ d ::ₘ rest, n ∉ skeleton s1.word d' := fun d' hd' =>
          Owns.notMem_skeleton (h1.plain_notMem (Multiset.mem_cons_self n plain) hd')
        have hdn : d ≠ n := by
          rintro rfl
          exact hout d (Multiset.mem_cons_self d rest) (mem_skeleton_self s1.word d)
        have h3 : Owns L { s1 with
            trace := .grant n :: s1.trace
            word := fillPage s1.word n fun _ => 0 } (n ::ₘ plain) (d ::ₘ rest) :=
          h1.move (fun d' hd' => SameTables.of_page (hout d' hd') fun m hm => fillPage_other hm)
            rfl rfl
        have hvtop : v < topPage := kernbase_lt_top (by omega)
        refine Exec.wp_seq (Exec.wlp_preserves (Exec.wlp_and
          (mapOne_user h3 (by omega) (by decide)) (mapOne_tabled h3 hvtop))
          ((keeps_mappages _ _ _ _ _).preserves hmapped) hhole1) ?_ fun _ _ hh => Or.inr hh
        rintro ok s4 ⟨⟨⟨-, h4⟩, htab⟩, hhole4⟩
        have hdir : fillPage s1.word n (fun _ => 0) d = s.word d := by
          rw [fillPage_other hdn, hword1]
        obtain ⟨hgood, hbad⟩ := hs.round (by omega) htab hgranted hfree hfails hdir
          (hhole4.trans hs.mapped.symm)
        have howns : Owns L s4 plain (d ::ₘ rest) := by
          split at h4
          · exact h4.1
          · exact h4.1.lose h4.2
        refine Exec.wp_bind.mpr (Exec.wp_modify.mpr ?_)
        have h5 : Owns L (s4.noteMapped ok) plain (d ::ₘ rest) :=
          howns.move (fun _ _ _ _ => rfl) rfl rfl
        rw [show v + (k + 1) = v + 1 + k by omega]
        have hlater : ∀ s', Missed s₀ (v + 1) (v + 1 + k) s' → Missed s₀ v (v + 1 + k) s' :=
          fun _ hh => ⟨hh.1, hh.2.mono (Nat.le_succ v) le_rfl⟩
        cases ok with
        | true =>
            have hs5 : Supplied s₀ d (v + 1) (s4.noteMapped true) := by
              refine (hgood rfl).congr rfl rfl rfl ?_
              simp [Memory.noteMapped]
            refine Exec.wp_mono (ih h5 hs5 (by omega)) (fun _ s' => Or.imp (hlater s') ?_)
              fun _ s' => Or.imp_left (hlater s')
            rintro ⟨hhole, hlast, hres⟩
            refine ⟨hhole, ?_, hres⟩
            rintro ⟨t, hlow, hhigh, ht⟩
            rcases eq_or_lt_of_le hlow with rfl | hlt
            · exact hs5.granted le_rfl ⟨t, le_rfl, Nat.lt_succ_self _, ht⟩
            · exact hlast ⟨t, hlt, hhigh, ht⟩
        | false =>
            -- the page is not mapped, and this stays recorded
            rw [if_neg (by simp)] at h4
            have hhole5 : (s4.noteMapped false).hole = true := by
              simp [Memory.noteMapped, h4.2]
            have href : TableRefused s₀ v (v + 1 + k) := (hbad rfl).mono le_rfl (by omega)
            exact Exec.wp_mono ((stays_allocFrom d k (v + 1)).hole.wp hhole5)
              (fun _ _ hh => Or.inl ⟨hh, href⟩) fun _ _ hh => Or.inl ⟨hh, href⟩

/-- Unless a table is refused before any page of the program, `allocuvm` maps the pages up to
the size that it returns, and does not get them if it returns 0. -/
theorem allocuvm_supplied {oldsz newsz : ℕ} (h : Owns L s plain (d ::ₘ rest))
    (hs : Supplied s₀ d (pagesOf oldsz) s) :
    Exec.wp (allocuvm L d oldsz newsz)
      (fun r s' => newsz < kernbase ∧ Missed s₀ (pagesOf oldsz) (pagesOf newsz) s' ∨
        s'.hole = false ∧ (newsz < kernbase → ¬TableRefused s₀ (pagesOf oldsz) (pagesOf newsz)) ∧
        (r ≠ 0 → Supplied s₀ d (pagesOf r) s') ∧
        (r = 0 → newsz < kernbase → max oldsz newsz ≠ 0 →
          ¬s₀.Grants (requests (pagesOf (max oldsz newsz)))))
      (fun _ s' => newsz < kernbase ∧ Missed s₀ (pagesOf oldsz) (pagesOf newsz) s' ∨
        s'.hole = false) s := by
  unfold allocuvm
  split
  · exact Exec.wp_pure.mpr (Or.inr ⟨hs.mapped, fun _ => by omega, by simp, fun _ _ => by omega⟩)
  · split
    · rename_i hlt
      refine Exec.wp_pure.mpr (Or.inr ⟨hs.mapped, fun _ => hs.granted ?_, fun _ => hs,
        fun _ _ => by omega⟩)
      exact pagesOf_mono (Nat.le_of_lt hlt)
    · have hpages : pagesOf oldsz + (pagesOf newsz - pagesOf oldsz) = pagesOf newsz := by
        unfold pagesOf pgsize
        omega
      have hlow : newsz < kernbase := by omega
      have hall := allocFrom_supplied (k := pagesOf newsz - pagesOf oldsz) h hs (by
        rw [hpages]
        exact pagesOf_le hlow.le)
      rw [hpages] at hall
      refine Exec.wp_seq hall ?_ fun _ s' hh => hh.imp_left (And.intro hlow)
      rintro r s1 (⟨hhole, href⟩ | ⟨hhole, hnot, hok, hno⟩)
      · cases r with
        | false =>
            refine Exec.wp_seq (((keeps_deallocuvm L d newsz oldsz).preserves fun _ _ hrec hh =>
              (Memory.hole_of_record hrec).trans hh).wp hhole) ?_
              fun _ _ hh => Or.inl ⟨hlow, hh, href⟩
            exact fun _ s2 hhole2 => Exec.wp_pure.mpr (Or.inl ⟨hlow, hhole2, href⟩)
        | true => exact Exec.wp_pure.mpr (Or.inl ⟨hlow, hhole, href⟩)
      · cases r with
        | false =>
            refine Exec.wp_seq (((keeps_deallocuvm L d newsz oldsz).preserves fun _ _ hrec hh =>
              (Memory.hole_of_record hrec).trans hh).wp hhole) ?_ fun _ _ hh => Or.inr hh
            intro _ s2 hhole2
            refine Exec.wp_pure.mpr (Or.inr ⟨hhole2, fun _ => hnot, by simp, fun _ _ _ => ?_⟩)
            rw [max_eq_right (by omega)]
            exact hno rfl
        | true =>
            exact Exec.wp_pure.mpr (Or.inr ⟨hhole, fun _ => hnot, fun _ => hok rfl,
              fun _ _ => by omega⟩)

end Vm

end Xv6
