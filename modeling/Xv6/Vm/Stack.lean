import Xv6.Vm.Copyout

/-!
# The stack of a new program

Two pages above the program: the lower one is made inaccessible for user code, and the
arguments are copied onto the upper one.  `copyout` works page by page upwards, so it
gives up when it comes to the inaccessible page, possibly after it has overwritten pages
of the program below.  Arguments so long that the stack pointer wraps lie in the part of
the address space of the devices, which user code has no access to, unless they reach
still further down: there is no page table then, and `uva2ka` looks at address 0.
-/

namespace Xv6

namespace Vm

open Support

variable {L : Link} {s s' s₀ : Memory} {plain : Multiset ℕ} {w₀ : ℕ → ℕ → ℕ} {cur d g v va k : ℕ}
  {c : ℕ → UInt8} {cs : List UInt8}

/-- An address space with `g` pages of program, an inaccessible page and a page of stack. -/
structure Guarded (L : Link) (w₀ : ℕ → ℕ → ℕ) (plain : Multiset ℕ) (d g : ℕ) (s : Memory) :
    Prop where
  owns : Owns L s plain (d ::ₘ 0)
  frame : ∀ n ∈ plain, s.word n = w₀ n
  kernel : ∀ u, InKernel u → Present (s.word d (u / npentries))
  below : ∀ u < g, ∃ n, pteAt s.word d u = mkPte n pteWU
  guard : ∃ n, pteAt s.word d g = mkPte n pteW
  stack : ∃ n, pteAt s.word d (g + 1) = mkPte n pteWU

/-- The program holds the bytes of `c`. -/
structure Stacked (L : Link) (w₀ : ℕ → ℕ → ℕ) (plain : Multiset ℕ) (d g : ℕ) (c : ℕ → UInt8)
    (s : Memory) : Prop extends Guarded L w₀ plain d g s where
  content : ∀ a < g * pgsize, userByte s.word d a = c a

theorem Guarded.failed (h : Guarded L w₀ plain d g s) : Failed L w₀ plain d s :=
  ⟨h.owns, h.frame⟩

theorem Guarded.present (h : Guarded L w₀ plain d g s) (hv : v < g + 2) :
    Present (pteAt s.word d v) := by
  have hcases : v < g ∨ v = g ∨ v = g + 1 := by omega
  rcases hcases with hlow | rfl | rfl
  · obtain ⟨n, hn⟩ := h.below v hlow
    rw [hn]
    exact mkPte_present n pteWU
  · obtain ⟨n, hn⟩ := h.guard
    rw [hn]
    exact mkPte_present n pteW
  · obtain ⟨n, hn⟩ := h.stack
    rw [hn]
    exact mkPte_present n pteWU

theorem Guarded.kept (h : Guarded L w₀ plain d g s) (hg : g + 2 ≤ kernbasePage)
    (hk : Kept L s s' plain d) : Guarded L w₀ plain d g s' := by
  have hpte : ∀ u < kernbasePage, pteAt s'.word d u = pteAt s.word d u := fun u hu =>
    hk.tables.pteAt_eq (kernbase_lt_top hu)
  refine ⟨hk.owns, fun x hx => (hk.frame x hx).trans (h.frame x hx), ?_, ?_, ?_, ?_⟩
  · intro u hu
    rw [hk.tables.dir]
    exact h.kernel u hu
  · intro u hu
    rw [hpte u (by omega)]
    exact h.below u hu
  · rw [hpte g (by omega)]
    exact h.guard
  · rw [hpte (g + 1) (by omega)]
    exact h.stack

/-- All pages up to the end of the stack hold the bytes of `c`, and there are no others. -/
structure Laid (L : Link) (w₀ : ℕ → ℕ → ℕ) (plain : Multiset ℕ) (d g : ℕ) (c : ℕ → UInt8)
    (s : Memory) : Prop extends Guarded L w₀ plain d g s where
  above : ∀ u, g + 2 ≤ u → u < kernbasePage → pteAt s.word d u = 0
  bytes : ∀ a < (g + 2) * pgsize, userByte s.word d a = c a

theorem Laid.stacked {c' : ℕ → UInt8} (h : Laid L w₀ plain d g c' s)
    (hc : ∀ a < (g + 1) * pgsize, c' a = c a) : Stacked L w₀ plain d g c s := by
  refine ⟨h.toGuarded, fun a ha => ?_⟩
  have hlt : a < (g + 1) * pgsize := ha.trans_le (Nat.mul_le_mul_right _ (Nat.le_succ g))
  rw [h.bytes a (hlt.trans_le (Nat.mul_le_mul_right _ (Nat.le_succ (g + 1)))), hc a hlt]

/-! ## `clearpteu` -/

/-- `clearpteu` changes one entry, which is there. -/
theorem clearpteu_entry {rest : Multiset ℕ} (h : Owns L s plain (d ::ₘ rest)) (hv : v < topPage)
    (hp : Present (pteAt s.word d v)) :
    Exec.total (clearpteu d v) (fun _ s' => (Owns L s' plain (d ::ₘ rest) ∧
      Grows s.word s'.word d ∧ Extends s s' d) ∧
      (∀ u < topPage, u ≠ v → pteAt s'.word d u = pteAt s.word d u) ∧
      ∀ n, pteAt s.word d v = mkPte n pteWU → pteAt s'.word d v = mkPte n pteW) s := by
  have hnd := h.skeleton_nodup (Multiset.mem_cons_self d rest)
  have hentry : Exec.total (clearpteu d v) (fun _ s' => Extends s s' d ∧
      (∀ u < topPage, u ≠ v → pteAt s'.word d u = pteAt s.word d u) ∧
      ∀ n, pteAt s.word d v = mkPte n pteWU → pteAt s'.word d v = mkPte n pteW) s := by
    refine Exec.total_seq (walkpgdir_false_spec d v s) ?_
    rintro (_ | ⟨t, j⟩) s1 ⟨rfl, hat⟩
    · obtain ⟨t, j, hat', -⟩ := exists_entryAt hp
      exact absurd hat'.present hat
    · refine Exec.wp_bind.mpr (Exec.wp_gets.mpr (Exec.wp_modify.mpr
        ⟨Extends.putWord hat hnd hv, fun u hu hne => ?_, fun n hn => ?_⟩))
      · exact hat.pteAt_putWord hnd hv hu hne
      · refine ((hat.putWord hnd hv).pteAt_eq.trans putWord_same).trans ?_
        rw [hat.pteAt_eq] at hn
        rw [hn, if_pos (userBit_mkPte n)]
        rfl
  refine Exec.total_mono (total_and hentry (clearpteu_spec h hv)) ?_
  rintro - s' ⟨⟨hext, hothers, hclear⟩, howns, hgrow, -⟩
  exact ⟨⟨howns, hgrow, hext⟩, hothers, hclear⟩

theorem clearpteu_laid (h : Built L w₀ plain d (g + 2) c s) (hg : g + 2 ≤ kernbasePage) :
    Exec.total (clearpteu d g) (fun _ s' => Laid L w₀ plain d g c s') s := by
  refine Exec.total_mono (clearpteu_entry h.owns (kernbase_lt_top (by omega))
    (h.present (by omega))) ?_
  rintro - s' ⟨⟨howns, hgrow, hext⟩, hothers, hclear⟩
  have hold : ∀ u < kernbasePage, u ≠ g → pteAt s'.word d u = pteAt s.word d u := fun u hu =>
    hothers u (kernbase_lt_top hu)
  obtain ⟨n, hn⟩ := h.below g (by omega)
  -- the inaccessible page is the same one
  have hframe : ∀ u < g + 2, ptePage (pteAt s'.word d u) = ptePage (pteAt s.word d u) := by
    intro u hu
    rcases eq_or_ne u g with rfl | hne
    · rw [hclear n hn, hn, mkPte_page (by decide), mkPte_page (by decide)]
    · rw [hold u (by omega) hne]
  refine ⟨⟨howns, ?_, fun u hu => hgrow.present (h.kernel u hu), ?_, ⟨n, hclear n hn⟩, ?_⟩, ?_, ?_⟩
  · intro x hx
    exact (hext.frame h.owns hx).trans (h.frame x hx)
  · intro u hu
    rw [hold u (by omega) (by omega)]
    exact h.below u (by omega)
  · rw [hold _ (by omega) (by omega)]
    exact h.below _ (by omega)
  · intro u hlow hu
    rw [hold u hu (by omega)]
    exact h.above u hlow hu
  · intro a ha
    have hu : a / pgsize < g + 2 := (Nat.div_lt_iff_lt_mul (by decide)).mpr ha
    have hpage := h.owns.user_page (v := a / pgsize) (by omega) (h.present hu)
    rw [← h.content a ha]
    unfold userByte
    rw [hframe _ hu, hext.words _ hpage.1 hpage.2.1]

/-! ## `copyout` -/

/-- `uva2ka` finds its entry if there is a table for it. -/
theorem uva2ka_table (htable : Present (s.word d (v / npentries))) :
    Exec.total (uva2ka cur d v) (fun r s' => s' = s ∧
      r = if Present (pteAt s.word d v) ∧ UserBit (pteAt s.word d v) then
        some (ptePage (pteAt s.word d v)) else none) s := by
  unfold uva2ka entryOf
  refine Exec.wp_bind.mpr (Exec.wp_seq (walkpgdir_false_spec d v s) ?_ fun _ _ hf => hf.elim)
  rintro (_ | ⟨t, j⟩) s1 ⟨rfl, hat⟩
  · exact absurd htable hat
  · refine Exec.wp_gets.mpr ?_
    rw [hat.pteAt_eq]
    by_cases hp : Present (s1.word t j)
    · rw [if_neg (not_not.mpr hp)]
      by_cases hu : UserBit (s1.word t j)
      · rw [if_neg (not_not.mpr hu)]
        exact Exec.wp_pure.mpr ⟨rfl, (if_pos ⟨hp, hu⟩).symm⟩
      · rw [if_pos hu]
        exact Exec.wp_pure.mpr ⟨rfl, (if_neg fun hh => hu hh.2).symm⟩
    · rw [if_pos hp]
      exact Exec.wp_pure.mpr ⟨rfl, (if_neg fun hh => hp hh.1).symm⟩

theorem Guarded.table (h : Guarded L w₀ plain d g s) (hv : v < g + 2) :
    Present (s.word d (v / npentries)) := by
  obtain ⟨t, j, hat, -⟩ := exists_entryAt (h.present hv)
  exact hat.present

/-- `uva2ka` for a page that user code has access to. -/
theorem uva2ka_user {n : ℕ} (hn : pteAt s.word d v = mkPte n pteWU) :
    Exec.total (uva2ka cur d v) (fun r s' => s' = s ∧ r = some (ptePage (pteAt s.word d v))) s := by
  have hp : Present (pteAt s.word d v) := by
    rw [hn]
    exact mkPte_present n pteWU
  obtain ⟨t, j, hat, -⟩ := exists_entryAt hp
  refine Exec.total_mono (uva2ka_table hat.present) ?_
  rintro r s' ⟨rfl, hr⟩
  refine ⟨rfl, hr.trans (if_pos ⟨hp, ?_⟩)⟩
  rw [hn]
  exact userBit_mkPte n

/-- `uva2ka` for a page of the devices. -/
theorem Guarded.uva2ka_devices (h : Guarded L w₀ plain d g s) (hlow : devspacePage ≤ v)
    (hhigh : v < topPage) : Exec.total (uva2ka cur d v) (fun r s' => s' = s ∧ r = none) s := by
  have htable := h.kernel v (Or.inr ⟨hlow, hhigh⟩)
  refine Exec.total_mono (uva2ka_table htable) ?_
  rintro r s' ⟨rfl, hr⟩
  refine ⟨rfl, hr.trans (if_neg fun hh => ?_)⟩
  have hat : EntryAt s'.word d v (ptePage (s'.word d (v / npentries))) (v % npentries) :=
    ⟨htable, rfl, rfl⟩
  have hlt := h.owns.user_lt hhigh hat (hat.pteAt_eq ▸ hh.2)
  unfold kernbasePage devspacePage at *
  omega

/-- Copying to one page that user code has access to. -/
theorem copyout_page {n : ℕ} (h : Owns L s plain (d ::ₘ 0)) (hv : v < kernbasePage)
    (hn : pteAt s.word d v = mkPte n pteWU) (hlow : v * pgsize ≤ va)
    (hhigh : va + cs.length ≤ (v + 1) * pgsize) :
    Exec.total (Vm.copyout cur d va cs) (fun r s' => r = true ∧ StoredAt s s' plain d v ∧
      s'.freelist = s.freelist ∧ s'.starved = s.starved) s := by
  unfold Vm.copyout
  rcases cs with _ | ⟨b, cs⟩
  · exact Exec.wp_pure.mpr ⟨rfl, StoredAt.refl s plain d v, rfl, rfl⟩
  · have hpage : va / pgsize = v := by
      rw [List.length_cons] at hhigh
      unfold pgsize at *
      omega
    have hdrop : (b :: cs).drop (pgsize - va % pgsize) = [] := by
      rw [List.drop_eq_nil_iff]
      unfold pgsize at *
      omega
    have hp : Present (pteAt s.word d v) := by
      rw [hn]
      exact mkPte_present n pteWU
    rw [List.length_cons]
    unfold copyoutFrom
    rw [if_neg (by simp), hpage]
    refine Exec.total_seq (uva2ka_user hn) ?_
    rintro r s1 ⟨rfl, rfl⟩
    refine Exec.wp_bind.mpr (Exec.wp_bind.mpr (Exec.wp_gets.mpr (Exec.wp_modify.mpr ?_)))
    rw [hdrop, copyoutFrom_nil]
    exact Exec.wp_pure.mpr ⟨rfl, h.storedAt hv hp rfl, rfl, rfl⟩

theorem Guarded.copyout_devices (h : Guarded L w₀ plain d g s)
    (hlow : devspacePage * pgsize ≤ va) (hhigh : va < 4294967296) (hcs : cs ≠ []) :
    Exec.total (Vm.copyout cur d va cs) (fun r s' => r = false ∧ Failed L w₀ plain d s') s := by
  obtain ⟨k, hk⟩ := Nat.exists_eq_succ_of_ne_zero (List.length_pos_iff.mpr hcs).ne'
  unfold Vm.copyout
  rw [hk]
  unfold Vm.copyoutFrom
  rw [if_neg hcs]
  refine Exec.total_seq (h.uva2ka_devices (v := va / pgsize) ?_ ?_) ?_
  · unfold devspacePage pgsize at *
    omega
  · unfold topPage pgsize at *
    omega
  · rintro r s1 ⟨rfl, rfl⟩
    exact Exec.wp_pure.mpr ⟨rfl, h.failed⟩

/-! ## The arguments -/

/-- With `n` arguments pushed down to `sp` on a stack that begins at `base`, the others can
be pushed without a stack pointer that wraps to below the devices. -/
def Pushable (base : ℕ) : List (List UInt8) → ℕ → ℕ → Prop
  | [], _, _ => True
  | arg :: args, n, sp =>
      n < maxarg → arg.length + 1 ≤ sp + 33554432 ∧
        (base ≤ pushed sp (arg.length + 1) → pushed sp (arg.length + 1) < sp →
          Pushable base args (n + 1) (pushed sp (arg.length + 1)))

/-- With `n` arguments pushed down to `sp` on a stack that begins at `base`, the others fit on it
with the words of `ustack`. -/
def FitsStack (base : ℕ) : List (List UInt8) → ℕ → ℕ → Prop
  | [], n, sp => base + (n + 4) * 4 ≤ sp
  | arg :: args, n, sp =>
      n < maxarg ∧ base ≤ pushed sp (arg.length + 1) ∧ pushed sp (arg.length + 1) < sp ∧
        FitsStack base args (n + 1) (pushed sp (arg.length + 1))

/-- The bytes `c` of memory after `cs` has been written from the address `va` on. -/
def written (va : ℕ) (cs : List UInt8) (c : ℕ → UInt8) : ℕ → UInt8 := fun a =>
  if va ≤ a ∧ a < va + cs.length then cs.getD (a - va) 0 else c a

theorem Guarded.not_accessible (h : Guarded L w₀ plain d g s) : ¬Accessible s.word d g := by
  obtain ⟨n, hn⟩ := h.guard
  rintro ⟨-, hu⟩
  rw [hn] at hu
  exact not_userBit_mkPte (Or.inr rfl) hu

theorem Guarded.accessible (h : Guarded L w₀ plain d g s) (hv : v < g + 2) (hne : v ≠ g) :
    Accessible s.word d v := by
  have hcases : v < g ∨ v = g + 1 := by omega
  have hn : ∃ n, pteAt s.word d v = mkPte n pteWU := by
    rcases hcases with hlow | rfl
    · exact h.below v hlow
    · exact h.stack
  obtain ⟨n, hn⟩ := hn
  unfold Accessible
  rw [hn]
  exact ⟨mkPte_present n pteWU, userBit_mkPte n⟩

/-- Bytes written onto the stack. -/
theorem Laid.written (h : Laid L w₀ plain d g c s) (hg : g + 2 ≤ kernbasePage)
    (hlow : (g + 1) * pgsize ≤ va) (hhigh : va + cs.length ≤ (g + 2) * pgsize)
    (hk : Kept L s s' plain d) (hw : Written s s' d va cs.length cs) :
    Laid L w₀ plain d g (Vm.written va cs c) s' := by
  have hpte : ∀ u < kernbasePage, pteAt s'.word d u = pteAt s.word d u := fun u hu =>
    hk.tables.pteAt_eq (kernbase_lt_top hu)
  refine ⟨h.toGuarded.kept hg hk, fun u hl hu => ?_, fun a ha => ?_⟩
  · rw [hpte u hu]
    exact h.above u hl hu
  · have hu : a / pgsize < g + 2 := (Nat.div_lt_iff_lt_mul (by decide)).mpr ha
    have hsmall : a < 4294967296 := by
      unfold kernbasePage at hg
      unfold pgsize at ha
      omega
    unfold Vm.written
    rw [← h.bytes a ha]
    by_cases hpage : a / pgsize = g
    · -- the inaccessible page is none of those written to
      have hother : s'.word (ptePage (pteAt s.word d (a / pgsize))) =
          s.word (ptePage (pteAt s.word d (a / pgsize))) := by
        refine hw.others _ fun u hover heq => ?_
        have hover := overlaps_iff.mp hover
        have hug : g < u ∧ u < g + 2 := by
          unfold pgsize at *
          omega
        have hsame := h.owns.user_page_inj (by omega) (by omega) (h.present hu)
          (h.present hug.2) heq
        omega
      rw [if_neg (by unfold pgsize at *; omega)]
      unfold userByte
      rw [hpte _ (by omega), hother]
    · rw [hw.bytes a hsmall (h.accessible hu hpage)]

/-- Pushing bytes onto the stack: they fit on the page, or else `copyout` gives up. -/
theorem Laid.push {sp : ℕ} (h : Laid L w₀ plain d g c s) (hg : g + 2 ≤ kernbasePage)
    (hlow : (g + 1) * pgsize ≤ sp) (hhigh : sp ≤ (g + 2) * pgsize) (hcs : cs ≠ [])
    (hva : va + cs.length ≤ sp ∧ sp < va + cs.length + 4 ∨
      sp < cs.length ∧ devspacePage * pgsize ≤ va ∧ va < 4294967296) :
    Exec.total (Vm.copyout cur d va cs) (fun r s' =>
      (r = true → ((g + 1) * pgsize ≤ va ∧ va + cs.length ≤ sp) ∧
        Laid L w₀ plain d g (Vm.written va cs c) s') ∧
      (r = false → Failed L w₀ plain d s' ∧ ¬((g + 1) * pgsize ≤ va ∧ va < sp))) s := by
  have hpos := List.length_pos_iff.mpr hcs
  rcases hva with ⟨hle, hlt⟩ | ⟨-, hdev, htop⟩
  · have hwrap : va + cs.length ≤ 4294967296 := by
      unfold kernbasePage pgsize at *
      omega
    have hfirst : FirstHasTable s.word d va cs.length := by
      intro u hu hno
      have hover := overlaps_iff.mp hu
      have hug : u < g + 2 := by
        unfold pgsize at *
        omega
      exact absurd (h.table hug) hno
    have hall : Exec.total (Vm.copyout cur d va cs)
        (fun r _ => r = false → ¬((g + 1) * pgsize ≤ va ∧ va < sp)) s := by
      by_cases hbase : (g + 1) * pgsize ≤ va
      · obtain ⟨n, hn⟩ := h.stack
        refine Exec.total_mono (copyout_page h.owns (by omega) hn hbase (hle.trans hhigh)) ?_
        rintro _ _ ⟨rfl, -⟩
        simp
      · exact Exec.total_mono (copyout_total h.owns hwrap hfirst) fun _ _ _ _ hin => hbase hin.1
    refine Exec.total_mono (total_and hall (copyout_total h.owns hwrap hfirst).wlp) ?_
    rintro r s' ⟨hgives, hkept, hcopied⟩
    refine ⟨fun hr => ?_, fun hr =>
      ⟨⟨hkept.owns, fun x hx => (hkept.frame x hx).trans (h.frame x hx)⟩, hgives hr⟩⟩
    obtain ⟨hall, hwritten⟩ := hcopied.all hr
    have hbase : (g + 1) * pgsize ≤ va := by
      by_contra hnot
      refine h.not_accessible (hall g (overlaps_iff.mpr ⟨hpos, ?_, ?_⟩))
      · unfold pgsize at *
        omega
      · unfold pgsize at *
        omega
    exact ⟨⟨hbase, hle⟩, h.written hg hbase (by omega) hkept hwritten⟩
  · refine Exec.total_mono (h.toGuarded.copyout_devices hdev htop hcs) ?_
    rintro r s' ⟨rfl, h'⟩
    refine ⟨by simp, fun _ => ⟨h', fun hin => ?_⟩⟩
    unfold kernbasePage devspacePage pgsize at *
    omega

/-- Where a string goes that is not too long. -/
theorem pushed_cases {sp n : ℕ} (hsp : sp < 4294967296) (hn : n ≤ sp + 33554432) :
    pushed sp n + n ≤ sp ∧ sp < pushed sp n + n + 4 ∨
      sp < n ∧ devspacePage * pgsize ≤ pushed sp n ∧ pushed sp n < 4294967296 := by
  unfold pushed wrap32 devspacePage pgsize
  omega

/-- The strings `argv` are pushed below `sp` one after the other, to `addrs`, down to `sp'`; the
bytes of memory change from `c` to `c'`. -/
inductive Pushes : (ℕ → UInt8) → ℕ → List (List UInt8) → List ℕ → ℕ → (ℕ → UInt8) → Prop
  | nil (c : ℕ → UInt8) (sp : ℕ) : Pushes c sp [] [] sp c
  | cons {c c' : ℕ → UInt8} {sp sp' : ℕ} {arg : List UInt8} {argv : List (List UInt8)}
      {addrs : List ℕ} (below : pushed sp (arg.length + 1) + (arg.length + 1) ≤ sp)
      (rest : Pushes (written (pushed sp (arg.length + 1)) (arg ++ [0]) c)
        (pushed sp (arg.length + 1)) argv addrs sp' c') :
      Pushes c sp (arg :: argv) (pushed sp (arg.length + 1) :: addrs) sp' c'

theorem Pushes.le {sp sp' : ℕ} {argv : List (List UInt8)} {addrs : List ℕ} {c' : ℕ → UInt8}
    (h : Pushes c sp argv addrs sp' c') : sp' ≤ sp := by
  induction h with
  | nil => exact le_rfl
  | cons hbelow _ ih => omega

/-- Outside of the strings nothing changes. -/
theorem Pushes.unchanged {sp sp' a : ℕ} {argv : List (List UInt8)} {addrs : List ℕ}
    {c' : ℕ → UInt8} (h : Pushes c sp argv addrs sp' c') (ha : a < sp' ∨ sp ≤ a) :
    c' a = c a := by
  induction h with
  | nil => rfl
  | cons hbelow hrest ih =>
      have hle := hrest.le
      rw [ih (by omega)]
      unfold written
      rw [List.length_append, List.length_singleton, if_neg (by omega)]

theorem pushArgs_laid {sp : ℕ} {argv : List (List UInt8)} {ptrs : List ℕ}
    (h : Laid L w₀ plain d g c s) (hg : g + 2 ≤ kernbasePage) (hlow : (g + 1) * pgsize ≤ sp)
    (hhigh : sp ≤ (g + 2) * pgsize) (hptrs : ptrs.length ≤ maxarg)
    (hargs : Pushable ((g + 1) * pgsize) argv ptrs.length sp) :
    Exec.total (pushArgs cur d argv sp ptrs) (fun r s' =>
      (r = none → Failed L w₀ plain d s' ∧ ¬FitsStack ((g + 1) * pgsize) argv ptrs.length sp) ∧
      ∀ sp' ptrs', r = some (sp', ptrs') → ∃ addrs c', ptrs' = ptrs ++ addrs ∧
        Pushes c sp argv addrs sp' c' ∧ Laid L w₀ plain d g c' s' ∧
        (g + 1) * pgsize ≤ sp' ∧ sp' ≤ (g + 2) * pgsize ∧ ptrs'.length ≤ maxarg ∧
        (FitsStack ((g + 1) * pgsize) argv ptrs.length sp ↔
          (g + 1) * pgsize + (ptrs'.length + 4) * 4 ≤ sp')) s := by
  induction argv generalizing s sp ptrs c with
  | nil =>
      refine Exec.wp_pure.mpr ⟨by simp, ?_⟩
      rintro _ _ ⟨⟩
      exact ⟨[], c, (List.append_nil _).symm, .nil c sp, h, hlow, hhigh, hptrs, Iff.rfl⟩
  | cons arg argv ih =>
      unfold pushArgs
      split
      · exact Exec.wp_pure.mpr ⟨fun _ => ⟨h.failed, fun hfits => by
          have hmax := hfits.1
          omega⟩, by simp⟩
      · rename_i hmax
        obtain ⟨hlong, hrest⟩ := hargs (by omega)
        have hlen : (arg ++ [0]).length = arg.length + 1 := by simp
        have hsp : sp < 4294967296 := by
          unfold kernbasePage pgsize at *
          omega
        refine Exec.total_seq (h.push hg hlow hhigh (by simp) ?_) ?_
        · rw [hlen]
          exact pushed_cases hsp hlong
        rintro (_ | _) s1 ⟨htrue, hfalse⟩
        · obtain ⟨hfailed, hout⟩ := hfalse rfl
          exact Exec.wp_pure.mpr ⟨fun _ => ⟨hfailed, fun hfits => hout ⟨hfits.2.1, hfits.2.2.1⟩⟩,
            by simp⟩
        · obtain ⟨⟨hbase, hle⟩, h1⟩ := htrue rfl
          rw [hlen] at hle
          refine Exec.total_mono (ih h1 hbase (by omega) (by simp; omega) ?_) ?_
          · rw [List.length_append, List.length_singleton]
            exact hrest hbase (by omega)
          · rw [List.length_append, List.length_singleton]
            rintro r s' ⟨hnone, hsome⟩
            refine ⟨fun hr => ⟨(hnone hr).1, fun hfits => (hnone hr).2 hfits.2.2.2⟩,
              fun sp' ptrs' hr => ?_⟩
            obtain ⟨addrs, c', rfl, hpush, h', hlow', hhigh', hptrs', hroom⟩ := hsome sp' ptrs' hr
            exact ⟨_ :: addrs, c', by simp, .cons hle hpush, h', hlow', hhigh', hptrs',
              fun hfits => hroom.mp hfits.2.2.2, fun hin =>
                ⟨by omega, hbase, by omega, hroom.mpr hin⟩⟩

/-- What `exec` needs to make the stack: pages for it, and arguments that fit. -/
structure Stackable (s : Memory) (g : ℕ) (argv : List (List UInt8)) : Prop where
  room : (g + 2) * pgsize < kernbase
  granted : s.Grants (requests (g + 2))
  fits : FitsStack ((g + 1) * pgsize) argv 0 ((g + 2) * pgsize)

/-- The arguments are on the stack, or else `exec` gives up. -/
theorem makeStack_laid (cur : ℕ) {sz : ℕ} {argv : List (List UInt8)}
    (h : Built L w₀ plain d (pagesOf sz) c s) (hs : Supplied s₀ d (pagesOf sz) s)
    (hsz : sz < kernbase) (hc : ∀ a, pagesOf sz ≤ a / pgsize → c a = 0)
    (hgets : (pagesOf sz + 2) * pgsize < kernbase →
      ¬TableRefused s₀ (pagesOf sz) (pagesOf sz + 2))
    (hargs : (pagesOf sz + 2) * pgsize < kernbase → s₀.Grants (requests (pagesOf sz + 2)) →
      Pushable ((pagesOf sz + 1) * pgsize) argv 0 ((pagesOf sz + 2) * pgsize)) :
    Exec.total (makeStack L cur d sz argv) (fun r s' =>
      (r = none → Failed L w₀ plain d s' ∧ ¬Stackable s₀ (pagesOf sz) argv) ∧
      ∀ top, r = some top → Stackable s₀ (pagesOf sz) argv ∧ top = (pagesOf sz + 2) * pgsize ∧
        ∃ addrs sp esp c', Pushes c top argv addrs sp c' ∧ sp ≤ top ∧
          (pagesOf sz + 1) * pgsize ≤ esp ∧ esp + (ustack sp addrs).length = sp ∧
          Laid L w₀ plain d (pagesOf sz) (written esp (ustack sp addrs) c') s') s := by
  unfold makeStack
  rw [pgroundup_eq hsz]
  generalize hg : pagesOf sz = g at *
  have htop : g * pgsize + 2 * pgsize = (g + 2) * pgsize := (Nat.add_mul g 2 pgsize).symm
  rw [htop]
  by_cases hfits : (g + 2) * pgsize < kernbase
  · have hkern : g + 2 ≤ kernbasePage := by
      unfold kernbase kernbasePage pgsize at *
      omega
    have hold : g * pgsize < kernbase :=
      (Nat.mul_le_mul_right pgsize (Nat.le_add_right g 2)).trans_lt hfits
    have hbuilt : Sure (allocuvm L d (g * pgsize) ((g + 2) * pgsize)) _ s :=
      allocuvm_built (by rw [pagesOf_mul]; exact h) hold
        fun a ha => hc a (by rwa [pagesOf_mul] at ha)
    have hsupplied : Exec.wp (allocuvm L d (g * pgsize) ((g + 2) * pgsize)) _ _ s :=
      allocuvm_supplied h.owns (by rwa [pagesOf_mul])
    rw [pagesOf_mul, pagesOf_mul] at hsupplied
    have hmapped : ∀ {s' : Memory}, (g + 2) * pgsize < kernbase ∧ Missed s₀ g (g + 2) s' → False :=
      fun hmiss => hgets hfits hmiss.2.2
    refine Exec.wp_seq (Exec.wp_and hbuilt hsupplied) ?_ ?_
    · rintro top s1 ⟨hall, hmiss | ⟨hhole, -, hmore, hnone⟩⟩
      · exact (hmapped hmiss).elim
      obtain ⟨hzero, hres⟩ := hall.resolve_left (by simp [hhole])
      split
      · rename_i htop0
        refine Exec.wp_pure.mpr ⟨fun _ => ⟨hzero htop0, fun hstack => ?_⟩, by simp⟩
        have hno := hnone htop0 hfits
        rw [max_eq_right (Nat.mul_le_mul_right pgsize (Nat.le_add_right g 2)), pagesOf_mul] at hno
        exact hno (Nat.mul_ne_zero (Nat.succ_ne_zero _) (by decide)) hstack.granted
      · rename_i hne
        obtain ⟨hmax, -, h1⟩ := hres hne
        have htopeq : top = (g + 2) * pgsize := by
          rw [hmax, max_eq_right (Nat.mul_le_mul_right pgsize (Nat.le_add_right g 2))]
        have hgrants := (hmore hne).asked.granted
        rw [htopeq, pagesOf_mul] at h1 hgrants
        rw [htopeq]
        have hguard : ((g + 2) * pgsize - 2 * pgsize) / pgsize = g := by
          unfold pgsize
          omega
        rw [hguard]
        refine Exec.total_seq (clearpteu_laid h1 hkern) ?_
        rintro - s2 h2
        refine Exec.total_seq (pushArgs_laid h2 hkern ?_ le_rfl (by simp) (hargs hfits hgrants)) ?_
        · exact Nat.mul_le_mul_right pgsize (by omega)
        rintro (_ | ⟨sp, ptrs⟩) s3 ⟨hnone, hsome⟩
        · obtain ⟨hfailed, hnofit⟩ := hnone rfl
          exact Exec.wp_pure.mpr ⟨fun _ => ⟨hfailed, fun hstack => hnofit hstack.fits⟩, by simp⟩
        · obtain ⟨_, c', rfl, hpush, h3, hsplow, hsphigh, hptrs, hroom⟩ := hsome sp ptrs rfl
          have hulen := ustack_length sp ptrs
          have hne : ustack sp ptrs ≠ [] := by
            intro hnil
            rw [hnil, List.length_nil] at hulen
            omega
          have hva : wrap32 (sp + 4294967296 - (ustack sp ptrs).length) +
              (ustack sp ptrs).length = sp := by
            unfold wrap32 kernbasePage maxarg pgsize at *
            omega
          refine Exec.total_seq (h3.push hkern hsplow hsphigh hne (Or.inl (by omega))) ?_
          rintro (_ | _) s4 ⟨htrue, hfalse⟩
          · obtain ⟨hfailed, hout⟩ := hfalse rfl
            refine Exec.wp_pure.mpr ⟨fun _ => ⟨hfailed, fun hstack => hout ?_⟩, by simp⟩
            have hbelow := hroom.mp hstack.fits
            omega
          · refine Exec.wp_pure.mpr ⟨by simp, ?_⟩
            rintro _ ⟨⟩
            obtain ⟨⟨hbase, -⟩, h4⟩ := htrue rfl
            have hend := Nat.add_le_add_right hbase (ustack sp ptrs).length
            rw [hva, hulen, Nat.mul_comm 4] at hend
            exact ⟨⟨hfits, hgrants, hroom.mpr hend⟩, rfl, ptrs, sp, _, c', hpush, hsphigh, hbase,
              hva, h4⟩
    · rintro _ s1 ⟨hhole, hmiss | hmapped'⟩
      · exact hmapped hmiss
      · rw [hhole] at hmapped'
        cases hmapped'
  · -- there is no room for the stack below the kernel
    unfold allocuvm
    rw [if_pos (by omega)]
    refine Exec.wp_bind.mpr (Exec.wp_pure.mpr ?_)
    rw [if_pos rfl]
    exact Exec.wp_pure.mpr ⟨fun _ => ⟨h.failed, fun hstack => hfits hstack.room⟩, by simp⟩

end Vm

end Xv6
