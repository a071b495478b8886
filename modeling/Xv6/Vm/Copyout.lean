import Xv6.Vm.Alloc

/-!
# What `copyout` writes

`copyout` goes through the pages of a range and stops at the first one that user code has no
access to.  It looks at an entry through the pointer that `walkpgdir` returns without a check
that there is one, so it is exact as long as it comes to no page without a table: the first
page without access has one.
-/

namespace Xv6

namespace Vm

open Support

variable {L : Link} {s s₁ s' : Memory} {word : ℕ → ℕ → ℕ} {plain rest : Multiset ℕ}
  {cur d u v va k m n : ℕ} {cs : List UInt8}

/-! ## The pages of a range -/

/-- Some of the `n` bytes from the address `va` on lie in the virtual page `u`. -/
def Overlaps (va n u : ℕ) : Prop :=
  ∃ a, va ≤ a ∧ a < va + n ∧ a / pgsize = u

theorem overlaps_iff : Overlaps va n u ↔ 0 < n ∧ va / pgsize ≤ u ∧ u * pgsize < va + n := by
  unfold Overlaps pgsize
  constructor
  · rintro ⟨a, hlow, hhigh, rfl⟩
    omega
  · rintro ⟨hn, hlow, hhigh⟩
    by_cases hfirst : va / 4096 = u
    · exact ⟨va, le_rfl, by omega, hfirst⟩
    · exact ⟨u * 4096, by omega, hhigh, by omega⟩

/-- The first page of a range and the others. -/
theorem overlaps_succ (hn : 0 < n) : Overlaps va n u ↔ u = va / pgsize ∨
    Overlaps ((va / pgsize + 1) * pgsize) (va + n - (va / pgsize + 1) * pgsize) u := by
  rw [overlaps_iff, overlaps_iff]
  unfold pgsize
  omega

theorem not_overlaps_zero : ¬Overlaps va 0 u := by
  rintro ⟨a, hlow, hhigh, -⟩
  omega

/-- User code has access to the virtual page `v`. -/
def Accessible (word : ℕ → ℕ → ℕ) (d v : ℕ) : Prop :=
  Present (pteAt word d v) ∧ UserBit (pteAt word d v)

instance (word : ℕ → ℕ → ℕ) (d v : ℕ) : Decidable (Accessible word d v) :=
  inferInstanceAs (Decidable (_ ∧ _))

/-- A page of the range that has no table comes after one that user code has no access to. -/
def FirstHasTable (word : ℕ → ℕ → ℕ) (d va n : ℕ) : Prop :=
  ∀ u, Overlaps va n u → ¬Present (word d (u / npentries)) →
    ∃ u' < u, Overlaps va n u' ∧ ¬Accessible word d u'

theorem accessible_table (h : Accessible word d v) : Present (word d (v / npentries)) := by
  by_contra hno
  have hp := h.1
  rw [pteAt, if_neg hno] at hp
  simp [Present] at hp

theorem firstHasTable_iff (hn : 0 < n) : FirstHasTable word d va n ↔
    Present (word d (va / pgsize / npentries)) ∧ (Accessible word d (va / pgsize) →
      FirstHasTable word d ((va / pgsize + 1) * pgsize) (va + n - (va / pgsize + 1) * pgsize)) := by
  have hself : Overlaps va n (va / pgsize) := (overlaps_succ hn).mpr (Or.inl rfl)
  have hafter : ∀ {u}, Overlaps ((va / pgsize + 1) * pgsize)
      (va + n - (va / pgsize + 1) * pgsize) u → va / pgsize < u := by
    intro u hu
    rw [overlaps_iff] at hu
    unfold pgsize at *
    omega
  constructor
  · intro h
    constructor
    · by_contra hno
      obtain ⟨u, hlt, hu, -⟩ := h _ hself hno
      rw [overlaps_iff] at hu
      omega
    · intro hacc u hu hno
      obtain ⟨u', hlt, hu', hnot⟩ := h u ((overlaps_succ hn).mpr (Or.inr hu)) hno
      rcases (overlaps_succ hn).mp hu' with rfl | hu'
      · exact absurd hacc hnot
      · exact ⟨u', hlt, hu', hnot⟩
  · rintro ⟨htable, hrest⟩ u hu hno
    rcases (overlaps_succ hn).mp hu with rfl | hu
    · exact absurd htable hno
    · by_cases hacc : Accessible word d (va / pgsize)
      · obtain ⟨u', hlt, hu', hnot⟩ := hrest hacc u hu hno
        exact ⟨u', hlt, (overlaps_succ hn).mpr (Or.inr hu'), hnot⟩
      · exact ⟨va / pgsize, hafter hu, hself, hacc⟩

/-! ## Where the entries come from -/

/-- `*pte` in `uva2ka`, where it is an error if there is none. -/
def tableEntry (d v : ℕ) : PageM ℕ := do
  match ← walkpgdir d v false with
  | none => Exec.throw .trap
  | some (t, j) => Exec.gets fun s => s.word t j

/-- The loop of `copyout` with the entries that `pteOf` reads. -/
def copyoutWith (pteOf : ℕ → PageM ℕ) : ℕ → ℕ → List UInt8 → PageM Bool
  | 0, _, _ => pure true
  | k + 1, va, cs =>
      if cs = [] then pure true
      else do
        let pte ← pteOf (va / pgsize)
        if ¬Present pte then pure false
        else if ¬UserBit pte then pure false
        else do
          let m := pgsize - va % pgsize
          copyTo (ptePage pte) (va % pgsize) (cs.take m)
          copyoutWith pteOf k (wrap32 (pgrounddown va + pgsize)) (cs.drop m)

/-- `copyout` if it never looks for an entry where there is none. -/
def strictCopyout (d va : ℕ) (cs : List UInt8) : PageM Bool :=
  copyoutWith (tableEntry d) cs.length va cs

theorem copyoutFrom_eq_with (cur d k va : ℕ) (cs : List UInt8) :
    copyoutFrom cur d k va cs = copyoutWith (entryOf cur d) k va cs := by
  induction k generalizing va cs with
  | zero => rfl
  | succ k ih =>
      unfold copyoutFrom copyoutWith uva2ka
      split
      · rfl
      · funext s
        rw [Exec.bind_run, Exec.bind_run, Exec.bind_run]
        rcases entryOf cur d (va / pgsize) s with ⟨_ | pte, s₁⟩
        · rfl
        · dsimp only
          by_cases hp : Present pte
          · by_cases hu : UserBit pte
            · rw [if_neg (not_not.mpr hp), if_neg (not_not.mpr hp), if_neg (not_not.mpr hu),
                if_neg (not_not.mpr hu), ← ih]
              rfl
            · rw [if_neg (not_not.mpr hp), if_neg (not_not.mpr hp), if_pos hu, if_pos hu]
              rfl
          · rw [if_pos hp, if_pos hp]
            rfl

theorem tableEntry_run (d v : ℕ) (s : Memory) : tableEntry d v s =
    if Present (s.word d (v / npentries)) then (.ok (pteAt s.word d v), s)
    else (.error .trap, s) := by
  unfold tableEntry pteAt
  rw [Exec.bind_run_ok (walkpgdir_false d v s)]
  split <;> rfl

theorem wp_tableEntry {Q : ℕ → Memory → Prop} {E : Panic → Memory → Prop}
    (hQ : Present (s.word d (v / npentries)) → Q (pteAt s.word d v) s)
    (hE : ¬Present (s.word d (v / npentries)) → E .trap s) : Exec.wp (tableEntry d v) Q E s := by
  unfold Exec.wp
  rw [tableEntry_run]
  split
  · exact hQ ‹_›
  · exact hE ‹_›

/-- Where there is a table, `uva2ka` reads the same entry. -/
theorem entryOf_of_tableEntry {r : ℕ} (h : tableEntry d v s = (.ok r, s')) :
    entryOf cur d v s = (.ok r, s') := by
  rw [tableEntry_run] at h
  split at h
  · rename_i hp
    rw [← h]
    unfold entryOf pteAt
    rw [Exec.bind_run_ok (walkpgdir_false d v s), if_pos hp, if_pos hp]
    rfl
  · simp at h

/-- If it never looks for an entry where there is none, `copyout` is as the strict one. -/
theorem copyoutWith_of_strict {r : Bool}
    (h : copyoutWith (tableEntry d) k va cs s = (.ok r, s')) :
    copyoutWith (entryOf cur d) k va cs s = (.ok r, s') := by
  induction k generalizing va cs s with
  | zero => exact h
  | succ k ih =>
      unfold copyoutWith at h ⊢
      split
      · rename_i hnil
        rwa [if_pos hnil] at h
      · rename_i hne
        rw [if_neg hne] at h
        cases hentry : tableEntry d (va / pgsize) s with
        | mk r₁ s₁ =>
            cases r₁ with
            | error e =>
                rw [Exec.bind_run, hentry] at h
                simp at h
            | ok pte =>
                rw [Exec.bind_run_ok hentry] at h
                rw [Exec.bind_run_ok (entryOf_of_tableEntry hentry)]
                split
                · rename_i hp
                  rwa [if_pos hp] at h
                · rename_i hp
                  rw [if_neg hp] at h
                  split
                  · rename_i hu
                    rwa [if_pos hu] at h
                  · rename_i hu
                    rw [if_neg hu] at h
                    exact ih h

/-! ## The bytes -/

/-- The first `m` bytes of `cs` were written from the address `va` on, and nothing else. -/
structure Written (s s' : Memory) (d va m : ℕ) (cs : List UInt8) : Prop where
  bytes : ∀ a < 4294967296, Accessible s.word d (a / pgsize) → userByte s'.word d a =
    if va ≤ a ∧ a < va + m then cs.getD (a - va) 0 else userByte s.word d a
  others : ∀ n, (∀ u, Overlaps va m u → n ≠ ptePage (pteAt s.word d u)) → s'.word n = s.word n
  free : s'.freelist = s.freelist ∧ s'.fails = s.fails

theorem Written.refl (s : Memory) (d va : ℕ) (cs : List UInt8) : Written s s d va 0 cs := by
  refine ⟨fun a _ _ => (if_neg ?_).symm, fun _ _ => rfl, rfl, rfl⟩
  omega

theorem Overlaps.lt_top (h : Overlaps va n u) (hwrap : va + n ≤ 4294967296) : u < topPage := by
  rw [overlaps_iff] at h
  unfold pgsize at h
  unfold topPage
  omega

theorem Written.trans {m' : ℕ} (h : Written s s₁ d va m cs) (hwrap : va + m + m' ≤ 4294967296)
    (hpte : ∀ u < topPage, pteAt s₁.word d u = pteAt s.word d u)
    (h' : Written s₁ s' d (va + m) m' (cs.drop m)) : Written s s' d va (m + m') cs := by
  refine ⟨fun a ha hacc => ?_, fun n hn => ?_, h'.free.1.trans h.free.1, h'.free.2.trans h.free.2⟩
  · have hu : a / pgsize < topPage := by
      unfold pgsize topPage
      omega
    have hacc₁ : Accessible s₁.word d (a / pgsize) := by
      unfold Accessible
      rw [hpte _ hu]
      exact hacc
    rw [h'.bytes a ha hacc₁, h.bytes a ha hacc]
    by_cases hsecond : va + m ≤ a ∧ a < va + m + m'
    · rw [if_pos hsecond, if_pos (by omega), List.getD_eq_getElem?_getD, List.getElem?_drop,
        ← List.getD_eq_getElem?_getD]
      congr 1
      omega
    · rw [if_neg hsecond]
      refine if_congr ?_ rfl rfl
      omega
  · rw [h'.others n, h.others n]
    · rintro u ⟨a, hlow, hhigh, hu⟩
      exact hn u ⟨a, hlow, by omega, hu⟩
    · intro u hu
      rw [hpte u (hu.lt_top hwrap)]
      obtain ⟨a, hlow, hhigh, hau⟩ := hu
      exact hn u ⟨a, by omega, by omega, hau⟩

theorem Owns.accessible_lt (h : Owns L s plain (d ::ₘ rest)) (hu : u < topPage)
    (hacc : Accessible s.word d u) : u < kernbasePage := by
  have hat : EntryAt s.word d u (ptePage (s.word d (u / npentries))) (u % npentries) :=
    ⟨accessible_table hacc, rfl, rfl⟩
  exact h.user_lt hu hat (hat.pteAt_eq ▸ hacc.2)

/-- Storing bytes up to the end of a page. -/
theorem Owns.written (h : Owns L s plain (d ::ₘ 0)) (hv : va / pgsize < kernbasePage)
    (hacc : Accessible s.word d (va / pgsize)) (hcs : cs ≠ [])
    (hword : s'.word = fillPage s.word (ptePage (pteAt s.word d (va / pgsize)))
      (overlay (s.word (ptePage (pteAt s.word d (va / pgsize)))) (va % pgsize)
        (cs.take (pgsize - va % pgsize))))
    (hfree : s'.freelist = s.freelist ∧ s'.fails = s.fails) :
    Written s s' d va (min (pgsize - va % pgsize) cs.length) cs := by
  have hstore := h.storedAt hv hacc.1 hword
  have hpos := List.length_pos_iff.mpr hcs
  have hlen : (cs.take (pgsize - va % pgsize)).length = min (pgsize - va % pgsize) cs.length :=
    List.length_take
  refine ⟨fun a ha hacc' => ?_, fun n hn => ?_, hfree⟩
  · have hu : a / pgsize < kernbasePage := by
      refine h.accessible_lt ?_ hacc'
      unfold pgsize topPage
      omega
    by_cases hpage : a / pgsize = va / pgsize
    · unfold userByte
      rw [hstore.pteAt_eq hu, hpage, hword, fillPage_same, pageByte_overlay, hlen]
      have hin : va % pgsize ≤ a % pgsize ∧
          a % pgsize < va % pgsize + min (pgsize - va % pgsize) cs.length ↔
          va ≤ a ∧ a < va + min (pgsize - va % pgsize) cs.length := by
        unfold pgsize at *
        omega
      rw [if_congr hin rfl rfl]
      split
      · rename_i hrange
        have hidx : a % pgsize - va % pgsize = a - va := by
          unfold pgsize at *
          omega
        rw [hidx, List.getD_eq_getElem?_getD, List.getElem?_take_of_lt (by omega),
          ← List.getD_eq_getElem?_getD]
      · rfl
    · rw [hstore.userByte_eq hu hpage hacc'.1, if_neg]
      unfold pgsize at *
      omega
  · rw [hword, fillPage_other]
    refine hn _ ⟨va, le_rfl, ?_, rfl⟩
    unfold pgsize at *
    omega

/-- From `s` to `s'` only pages that user code has access to have changed. -/
structure Kept (L : Link) (s s' : Memory) (plain : Multiset ℕ) (d : ℕ) : Prop where
  owns : Owns L s' plain (d ::ₘ 0)
  tables : SameTables s.word s'.word d
  frame : ∀ n ∈ plain, s'.word n = s.word n

theorem Kept.refl (h : Owns L s plain (d ::ₘ 0)) : Kept L s s plain d :=
  ⟨h, fun _ _ => rfl, fun _ _ => rfl⟩

theorem Kept.trans (h : Kept L s s₁ plain d) (h' : Kept L s₁ s' plain d) :
    Kept L s s' plain d := by
  refine ⟨h'.owns, fun n hn => ?_, fun n hn => (h'.frame n hn).trans (h.frame n hn)⟩
  rw [h'.tables n, h.tables n hn]
  unfold skeleton at hn ⊢
  rwa [h.tables.tables_eq]

theorem Owns.copyTo_written (h : Owns L s plain (d ::ₘ 0)) (hv : va / pgsize < kernbasePage)
    (hacc : Accessible s.word d (va / pgsize)) (hcs : cs ≠ []) :
    Exec.total (copyTo (ptePage (pteAt s.word d (va / pgsize))) (va % pgsize)
      (cs.take (pgsize - va % pgsize))) (fun _ s₁ => Kept L s s₁ plain d ∧
        Written s s₁ d va (min (pgsize - va % pgsize) cs.length) cs) s := by
  refine Exec.wp_bind.mpr (Exec.wp_gets.mpr (Exec.wp_modify.mpr ?_))
  have hstore : StoredAt s { s with
      word := fillPage s.word (ptePage (pteAt s.word d (va / pgsize)))
        (overlay (s.word (ptePage (pteAt s.word d (va / pgsize)))) (va % pgsize)
          (cs.take (pgsize - va % pgsize))) } plain d (va / pgsize) :=
    h.storedAt hv hacc.1 rfl
  exact ⟨⟨h.stored hstore rfl rfl, hstore.tables, hstore.plain⟩,
    h.written hv hacc hcs rfl ⟨rfl, rfl⟩⟩

/-- What `copyout` has done when it returns: everything was written, or all that lies below
the first page that user code has no access to. -/
structure CopiedOut (s s' : Memory) (d va : ℕ) (cs : List UInt8) (r : Bool) : Prop where
  all : r = true → (∀ u, Overlaps va cs.length u → Accessible s.word d u) ∧
    Written s s' d va cs.length cs
  some : r = false → ∃ u, Overlaps va cs.length u ∧ ¬Accessible s.word d u ∧
    (∀ u' < u, Overlaps va cs.length u' → Accessible s.word d u') ∧
    Written s s' d va (u * pgsize - va) cs

theorem CopiedOut.nil (s : Memory) (d va : ℕ) : CopiedOut s s d va [] true :=
  ⟨fun _ => ⟨fun _ hu => absurd hu not_overlaps_zero, Written.refl s d va []⟩, by simp⟩

theorem CopiedOut.stop (hacc : ¬Accessible s.word d (va / pgsize)) (hcs : cs ≠ []) :
    CopiedOut s s d va cs false := by
  have hpos := List.length_pos_iff.mpr hcs
  refine ⟨by simp, fun _ => ⟨va / pgsize, (overlaps_succ hpos).mpr (Or.inl rfl), hacc, ?_, ?_⟩⟩
  · intro u hlt hu
    rw [overlaps_iff] at hu
    omega
  · have hnone : va / pgsize * pgsize - va = 0 := by
      have hle := Nat.div_mul_le_self va pgsize
      omega
    rw [hnone]
    exact Written.refl s d va cs

/-- The range ends in its first page. -/
theorem CopiedOut.last (hacc : Accessible s.word d (va / pgsize)) (hcs : cs ≠ [])
    (hshort : cs.length ≤ pgsize - va % pgsize) (h : Written s s' d va cs.length cs) :
    FirstHasTable s.word d va cs.length ∧ CopiedOut s s' d va cs true := by
  have hpos := List.length_pos_iff.mpr hcs
  have hend : va + cs.length - (va / pgsize + 1) * pgsize = 0 := by
    unfold pgsize at *
    omega
  refine ⟨(firstHasTable_iff hpos).mpr ⟨accessible_table hacc, fun _ => ?_⟩, fun _ => ⟨?_, h⟩,
    by simp⟩
  · rw [hend]
    exact fun _ hu => absurd hu not_overlaps_zero
  · intro u hu
    rw [overlaps_succ hpos, hend] at hu
    rcases hu with rfl | hu
    · exact hacc
    · exact absurd hu not_overlaps_zero

/-- The first page, and the others. -/
theorem CopiedOut.cons {r : Bool} (hacc : Accessible s.word d (va / pgsize))
    (hwrap : va + cs.length ≤ 4294967296) (hlong : pgsize - va % pgsize < cs.length)
    (hpte : ∀ u < topPage, pteAt s₁.word d u = pteAt s.word d u)
    (hpage : Written s s₁ d va (pgsize - va % pgsize) cs)
    (h : CopiedOut s₁ s' d (va + (pgsize - va % pgsize)) (cs.drop (pgsize - va % pgsize)) r) :
    CopiedOut s s' d va cs r := by
  have hlen : (cs.drop (pgsize - va % pgsize)).length = cs.length - (pgsize - va % pgsize) :=
    List.length_drop
  have hnext : va + (pgsize - va % pgsize) = (va / pgsize + 1) * pgsize := by
    unfold pgsize
    omega
  have hover : ∀ u, Overlaps va cs.length u ↔ u = va / pgsize ∨
      Overlaps (va + (pgsize - va % pgsize)) (cs.drop (pgsize - va % pgsize)).length u := by
    intro u
    rw [overlaps_succ (by omega), hlen, hnext]
    have hsub : va + cs.length - (va / pgsize + 1) * pgsize =
        cs.length - (pgsize - va % pgsize) := by
      rw [← hnext]
      omega
    rw [hsub]
  have hsame : ∀ u, Overlaps (va + (pgsize - va % pgsize))
      (cs.drop (pgsize - va % pgsize)).length u →
      (Accessible s₁.word d u ↔ Accessible s.word d u) := by
    intro u hu
    have htop := hu.lt_top (by rw [hlen]; omega)
    unfold Accessible
    rw [hpte u htop]
  constructor
  · intro hr
    obtain ⟨hall, hwritten⟩ := h.all hr
    constructor
    · intro u hu
      rcases (hover u).mp hu with rfl | hu
      · exact hacc
      · exact (hsame u hu).mp (hall u hu)
    · have hwhole := hpage.trans (by rw [hlen]; omega) hpte hwritten
      rwa [hlen, show pgsize - va % pgsize + (cs.length - (pgsize - va % pgsize)) = cs.length by
        omega] at hwhole
  · intro hr
    obtain ⟨u, hu, hnot, hbefore, hwritten⟩ := h.some hr
    refine ⟨u, (hover u).mpr (Or.inr hu), fun hh => hnot ((hsame u hu).mpr hh), ?_, ?_⟩
    · intro u' hlt hu'
      rcases (hover u').mp hu' with rfl | hu'
      · exact hacc
      · exact (hsame u' hu').mp (hbefore u' hlt hu')
    · have hpos := overlaps_iff.mp hu
      rw [hlen] at hpos
      have hfirst : va + (pgsize - va % pgsize) ≤ u * pgsize := by
        rw [hnext] at hpos ⊢
        rw [Nat.mul_div_cancel _ (by decide)] at hpos
        exact Nat.mul_le_mul_right pgsize hpos.2.1
      have hwhole := hpage.trans (by omega) hpte hwritten
      rwa [show pgsize - va % pgsize + (u * pgsize - (va + (pgsize - va % pgsize))) =
        u * pgsize - va by omega] at hwhole

theorem FirstHasTable.congr {word' : ℕ → ℕ → ℕ} (hdir : word' d = word d)
    (hpte : ∀ u < topPage, pteAt word' d u = pteAt word d u) (hwrap : va + n ≤ 4294967296) :
    FirstHasTable word' d va n ↔ FirstHasTable word d va n := by
  unfold FirstHasTable
  rw [hdir]
  refine forall_congr' fun u => imp_congr_right fun hu => imp_congr_right fun _ => ?_
  refine exists_congr fun u' => and_congr_right fun _ => and_congr_right fun hu' => ?_
  unfold Accessible
  rw [hpte u' (hu'.lt_top hwrap)]

theorem copyoutWith_nil (pteOf : ℕ → PageM ℕ) (k va : ℕ) :
    copyoutWith pteOf k va [] = pure true := by
  cases k with
  | zero => rfl
  | succ k =>
      unfold copyoutWith
      rw [if_pos rfl]

theorem firstHasTable_zero : FirstHasTable word d va 0 :=
  fun _ hu => absurd hu not_overlaps_zero

/-- Every run of the strict `copyout`: it fails if it comes to a page without a table. -/
theorem copyoutWith_spec (h : Owns L s plain (d ::ₘ 0)) (hk : cs.length ≤ k)
    (hwrap : va + cs.length ≤ 4294967296) :
    Exec.wp (copyoutWith (tableEntry d) k va cs)
      (fun r s' => Kept L s s' plain d ∧ FirstHasTable s.word d va cs.length ∧
        CopiedOut s s' d va cs r)
      (fun _ _ => ¬FirstHasTable s.word d va cs.length) s := by
  induction k generalizing s va cs with
  | zero =>
      obtain rfl : cs = [] := List.length_eq_zero_iff.mp (by omega)
      exact Exec.wp_pure.mpr ⟨Kept.refl h, firstHasTable_zero, CopiedOut.nil s d va⟩
  | succ k ih =>
      rcases eq_or_ne cs [] with rfl | hcs
      · rw [copyoutWith_nil]
        exact Exec.wp_pure.mpr ⟨Kept.refl h, firstHasTable_zero, CopiedOut.nil s d va⟩
      have hpos := List.length_pos_iff.mpr hcs
      have hiff := @firstHasTable_iff s.word d va cs.length hpos
      have htop : va / pgsize < topPage := by
        unfold pgsize topPage
        omega
      unfold copyoutWith
      rw [if_neg hcs]
      refine Exec.wp_bind.mpr (wp_tableEntry (fun htable => ?_)
        fun htable hh => htable (hiff.mp hh).1)
      by_cases hacc : Accessible s.word d (va / pgsize)
      · rw [if_neg (not_not.mpr hacc.1), if_neg (not_not.mpr hacc.2)]
        have hv := h.accessible_lt htop hacc
        refine Exec.wp_seq (h.copyTo_written hv hacc hcs) ?_ fun _ _ hf => hf.elim
        rintro - s₁ ⟨hkept, hwritten⟩
        have hpte : ∀ u < topPage, pteAt s₁.word d u = pteAt s.word d u :=
          fun u hu => hkept.tables.pteAt_eq hu
        by_cases hlong : pgsize - va % pgsize < cs.length
        · have hnext : va + (pgsize - va % pgsize) = (va / pgsize + 1) * pgsize := by
            unfold pgsize
            omega
          have hwrap₁ : wrap32 (pgrounddown va + pgsize) = va + (pgsize - va % pgsize) := by
            rw [hnext, Nat.succ_mul]
            refine wrap32_of_lt ?_
            change va / pgsize * pgsize + pgsize < _
            rw [← Nat.succ_mul, ← hnext]
            omega
          have hlen : (cs.drop (pgsize - va % pgsize)).length =
              cs.length - (pgsize - va % pgsize) := List.length_drop
          have hrest : va + cs.length - (va / pgsize + 1) * pgsize =
              (cs.drop (pgsize - va % pgsize)).length := by
            rw [← hnext, hlen]
            omega
          have hfits : va + (pgsize - va % pgsize) + (cs.drop (pgsize - va % pgsize)).length ≤
              4294967296 := by
            rw [hlen]
            omega
          have hiff₁ : FirstHasTable s₁.word d (va + (pgsize - va % pgsize))
              (cs.drop (pgsize - va % pgsize)).length ↔ FirstHasTable s.word d va cs.length := by
            rw [FirstHasTable.congr hkept.tables.dir hpte hfits, hiff, hrest, hnext]
            exact ⟨fun hh => ⟨htable, fun _ => hh⟩, fun hh => hh.2 hacc⟩
          rw [min_eq_left hlong.le] at hwritten
          rw [hwrap₁]
          refine Exec.wp_mono (ih hkept.owns (by rw [hlen]; unfold pgsize at *; omega) hfits) ?_ ?_
          · rintro r s' ⟨hkept', hfirst, hcopied⟩
            exact ⟨hkept.trans hkept', hiff₁.mp hfirst,
              hcopied.cons hacc hwrap hlong hpte hwritten⟩
          · intro _ _ hnot hfirst
            exact hnot (hiff₁.mpr hfirst)
        · rw [List.drop_eq_nil_iff.mpr (by omega), copyoutWith_nil]
          rw [min_eq_right (by omega)] at hwritten
          exact Exec.wp_pure.mpr ⟨hkept, CopiedOut.last hacc hcs (by omega) hwritten⟩
      · have hfirst : FirstHasTable s.word d va cs.length :=
          hiff.mpr ⟨htable, fun hh => absurd hh hacc⟩
        have hstop : CopiedOut s s d va cs false := CopiedOut.stop hacc hcs
        split
        · exact Exec.wp_pure.mpr ⟨Kept.refl h, hfirst, hstop⟩
        · rename_i hp
          rw [if_pos fun hu => hacc ⟨not_not.mp hp, hu⟩]
          exact Exec.wp_pure.mpr ⟨Kept.refl h, hfirst, hstop⟩

/-- `copyout` if it never comes to a page without a table. -/
theorem copyout_total (h : Owns L s plain (d ::ₘ 0)) (hwrap : va + cs.length ≤ 4294967296)
    (hfirst : FirstHasTable s.word d va cs.length) :
    Exec.total (copyout cur d va cs) (fun r s' => Kept L s s' plain d ∧
      CopiedOut s s' d va cs r) s := by
  have hstrict : Exec.total (strictCopyout d va cs) (fun r s' => Kept L s s' plain d ∧
      CopiedOut s s' d va cs r) s :=
    Exec.wp_mono (copyoutWith_spec h le_rfl hwrap) (fun _ _ hh => ⟨hh.1, hh.2.2⟩)
      fun _ _ hnot => hnot hfirst
  obtain ⟨r, s', hret, hend⟩ := Exec.wp_total hstrict
  unfold copyout Exec.total Exec.wp
  rw [copyoutFrom_eq_with, copyoutWith_of_strict hret]
  exact hend

/-! ## Exactly the requested bytes -/

/-- `copyout` never looks at an entry that is not there; it succeeds if user code has access to
every page of the range, and then the bytes of the range are those of `cs` and no others have
changed; else it has written what lies below the first page without access. -/
def CopyoutExact (cur d va : ℕ) (cs : List UInt8) (s : Memory) : Prop :=
  ∃ r s', copyout cur d va cs s = (.ok r, s') ∧ strictCopyout d va cs s = (.ok r, s') ∧
    (r = true ↔ ∀ u, Overlaps va cs.length u → Accessible s.word d u) ∧
    (r = true → Written s s' d va cs.length cs) ∧
    (r = false → ∃ u, Overlaps va cs.length u ∧ ¬Accessible s.word d u ∧
      (∀ u' < u, Overlaps va cs.length u' → Accessible s.word d u') ∧
      Written s s' d va (u * pgsize - va) cs)

theorem strictCopyout_spec (h : Owns L s plain (d ::ₘ rest)) (hwrap : va + cs.length ≤ 4294967296) :
    Exec.wp (strictCopyout d va cs)
      (fun r s' => FirstHasTable s.word d va cs.length ∧ CopiedOut s s' d va cs r)
      (fun _ _ => ¬FirstHasTable s.word d va cs.length) s := by
  have hshelf : Owns L s plain (d ::ₘ 0 + rest) := by
    rw [Multiset.cons_add, zero_add]
    exact h
  exact Exec.wp_mono (copyoutWith_spec hshelf.shelve le_rfl hwrap) (fun _ _ hh => hh.2)
    fun _ _ hnot => hnot

/-- `copyout` is exact if and only if the first page of the range that user code has no access
to has a page table. -/
theorem copyout_exact_iff (h : Owns L s plain (d ::ₘ rest)) (hwrap : va + cs.length ≤ 4294967296) :
    CopyoutExact cur d va cs s ↔ FirstHasTable s.word d va cs.length := by
  have hspec := strictCopyout_spec h hwrap
  constructor
  · rintro ⟨r, s', -, hstrict, -⟩
    exact (Exec.wp_ok hspec hstrict).1
  · intro hfirst
    have hreturns : Exec.total (strictCopyout d va cs)
        (fun r s' => CopiedOut s s' d va cs r) s :=
      Exec.wp_mono hspec (fun _ _ hh => hh.2) fun _ _ hnot => hnot hfirst
    obtain ⟨r, s', hstrict, hcopied⟩ := Exec.wp_total hreturns
    refine ⟨r, s', ?_, hstrict, ⟨fun hr => (hcopied.all hr).1, fun hall => ?_⟩,
      fun hr => (hcopied.all hr).2, hcopied.some⟩
    · unfold copyout
      rw [copyoutFrom_eq_with]
      exact copyoutWith_of_strict hstrict
    · by_contra hr
      obtain ⟨u, hu, hnot, -⟩ := hcopied.some (Bool.eq_false_iff.mpr hr)
      exact hnot (hall u hu)

theorem copyout_exact_lone :
    Owns smallLink (loneMemory 0 0) 0 (276 ::ₘ 0) ∧
      CopyoutExact 276 276 8 [1, 2, 3] (loneMemory 0 0) := by
  have howns := loneMemory_owns (i := 0) (j := 0) (by simp [userEntries]) (by simp [npentries])
  refine ⟨howns, (copyout_exact_iff howns (by decide)).mpr ?_⟩
  intro u hu hno
  have hu0 : u = 0 := by
    rw [overlaps_iff] at hu
    unfold pgsize at hu
    simp only [List.length_cons, List.length_nil] at hu
    omega
  rw [hu0, Nat.zero_div] at hno
  have htable : Present (loneWord 0 0 276 0) := loneWord_dir.mpr rfl
  exact absurd htable hno

/-- There is no table for the page at address 0, and `copyout` faults. -/
theorem copyout_reads_missing : ¬CopyoutExact 276 276 0 [1] (bareMemory []) := by
  rintro ⟨r, s', -, hstrict, -⟩
  have hfirst := (Exec.wp_ok (strictCopyout_spec (bareMemory_owns []) (by decide)) hstrict).1
  have hover : Overlaps 0 1 0 := ⟨0, le_rfl, Nat.zero_lt_one, Nat.zero_div pgsize⟩
  obtain ⟨u, hlt, -⟩ := hfirst 0 hover (by simp [bareMemory, Present])
  exact absurd hlt (Nat.not_lt_zero u)

end Vm

end Xv6
