import Xv6.Vm.Headers
import Xv6.Vm.Leak

/-!
# Pages with two owners

If every `exec` maps the pages it asks for, no page ever has two owners, whatever
calls of `kalloc` fail.  `allocuvm` does not look at the result of `mappages`,
though.  When the page for a page table is refused there, the top page of the new
stack has no entry, and `uva2ka` takes the first word of the old program for it.
That program can make `exec` write its arguments over the new page directory.
-/

namespace Xv6

namespace Vm

open Support

variable {L : Link} {k : Kernel} {s : Memory} {plain rest : Multiset ℕ} {c e n t j : ℕ}

/-- If the call is an `exec`, `allocuvm` gets the page tables that it asks for from the
state `s` on. -/
def Op.GetsTables (s : Memory) : Op → Prop
  | .exec _ f _ => f.TablesGranted s
  | _ => True

/-- A call that does not panic, by a file and with arguments that keep within the address space,
in which `kalloc` may fail anywhere but for the page tables of a new program. -/
structure MappedStep (L : Link) (k : Kernel) (op : Op) (k' : Kernel) : Prop where
  alive : (k.task op.proc).state ≠ .unused ∧ (k.task op.proc).state ≠ .zombie
  tame : op.Tame
  returns : ∃ fails, perform L op (k.withFails fails) = (.ok (), k') ∧
    op.GetsTables (k.withFails fails).mem

theorem TameStep.mapped {op : Op} {k' : Kernel} (h : TameStep L k op k') (hop : ¬op.IsExec) :
    MappedStep L k op k' := by
  obtain ⟨⟨halive, fails, hrun⟩, htame⟩ := h
  refine ⟨halive, htame, fails, hrun, ?_⟩
  cases op with
  | exec => exact absurd trivial hop
  | _ => trivial

/-- An `exec` leaves a page of the new program unmapped exactly if `allocuvm` is refused a page
table. -/
theorem exec_mapped {p : Slot} {f : ExecFile} {argv : List (List UInt8)} (h : Sound L k)
    (hp : (k.task p).state ≠ .unused)
    (hlow : ∀ elf, f.elfhdr = some elf → elf.magic = elfMagic → f.StoresLow elf k.mem) :
    Exec.wlp (exec L p f argv) (fun _ k' => k'.mem.hole = false ↔ f.TablesGranted k.mem) k := by
  unfold exec
  refine Exec.wp_bind.mpr (Exec.wp_gets.mpr ?_)
  refine Exec.wp_bind.mpr (wlp_onMemory.mpr (Exec.wp_mono (execImage_mapped (h.live hp).owns
    hlow) ?_ fun _ _ _ => trivial))
  rintro (_ | ⟨d, sz⟩) s hhole
  · exact Exec.wp_pure.mpr hhole
  · refine Exec.wp_bind.mpr (Exec.wp_modify.mpr (wlp_onMemory.mpr
      (Exec.wlp_mono (keeps_freevm L _).wlp ?_)))
    intro _ s' hrec
    change s'.hole = false ↔ _
    rwa [Memory.hole_of_record hrec]

theorem MappedStep.sound {op : Op} {k' : Kernel} (hstep : MappedStep L k op k') (h : Sound L k) :
    Sound L k' := by
  obtain ⟨halive, htame, fails, hrun, htables⟩ := hstep
  refine h.step ⟨halive, fails, hrun⟩ htame fun hexec => ?_
  cases op with
  | exec p f argv =>
      have hmapped : Exec.wlp (exec L p f argv) _ _ :=
        exec_mapped (h.withFails fails) halive.1 fun _ helf _ => htame.1.storesLow helf
      exact (Exec.wp_ok hmapped hrun).mpr htables
  | _ => exact hexec.elim

theorem sound_of_mapped_run {k₀ : Kernel} {ops : List Op} (hboot : Booted L k₀)
    (hrun : Run (MappedStep L) (fun _ => True) k₀ ops k) : Sound L k :=
  hrun.invariant (fun _ _ _ _ _ h hstep => hstep.sound h) (booted_sound hboot)

/-! ## The program -/

/-- The bytes of an executable with one segment, given by the bytes of its address and of its
sizes in the file and in memory, whose data begins with this header. -/
def segmentBytes (vaddr filesz memsz : List UInt8) : List UInt8 :=
  [127, 69, 76, 70] ++ List.replicate 24 0 ++ [52, 0, 0, 0] ++ List.replicate 12 0 ++ [1, 0] ++
    List.replicate 6 0 ++ [1, 0, 0, 0, 0, 0, 0, 0] ++ vaddr ++ [0, 0, 0, 0] ++ filesz ++ memsz ++
    List.replicate 8 0

/-- The file of such an executable. -/
def segmentFile (vaddr filesz memsz : List UInt8) : ExecFile where
  size := 84
  size_le := by decide
  byte i := (segmentBytes vaddr filesz memsz).getD i 0

/-- A segment of 1023 pages, without data. -/
def hugeFile : ExecFile := segmentFile [0, 0, 0, 0] [0, 0, 0, 0] [0, 240, 63, 0]

theorem hugeFile_elfhdr : hugeFile.elfhdr = some ⟨elfMagic, 52, 1⟩ := by
  decide +kernel

theorem hugeFile_proghdr : hugeFile.proghdr 52 = some ⟨1, 0, 0, 0, 4190208⟩ := by
  decide +kernel

/-- The argument: eight bytes that make two words of a page directory present. -/
def twinArg : List UInt8 := List.replicate 8 1

/-! ## What `copyout` does -/

theorem can_walk_false {α : Type} {v : ℕ} {f : Option (ℕ × ℕ) → PageM α}
    {R : α → Memory → Prop} {d : ℕ}
    (h : Can (f (if Present (s.word d (v / npentries)) then
      some (ptePage (s.word d (v / npentries)), v % npentries) else none)) R s) :
    Can (walkpgdir d v false >>= f) R s := by
  refine Exec.can_bind (Q := fun r s' => r = (if Present (s.word d (v / npentries)) then
    some (ptePage (s.word d (v / npentries)), v % npentries) else none) ∧ s' = s)
    ⟨[], _, s, fun _ => walkpgdir_false d v _, rfl, rfl⟩ ?_
  rintro _ s' ⟨rfl, hs⟩
  rw [hs]
  exact h

/-- The state of an `exec` by the program `c` into the directory `e`, with no table
for the top of the stack: the first word of the old program looks like an entry
for the page `e`. -/
structure Lured (L : Link) (s : Memory) (plain rest : Multiset ℕ) (c e n t j : ℕ) : Prop where
  owns : Owns L s (e ::ₘ plain) rest
  bare : ¬Present (s.word e 1)
  at0 : EntryAt s.word c 0 t j
  pte : s.word t j = mkPte n pteWU
  word : s.word n 0 = mkPte e pteWU
  apart : c ≠ e ∧ t ≠ e ∧ n ≠ e

theorem userBit_mkPte (n : ℕ) : UserBit (mkPte n pteWU) := by
  unfold UserBit mkPte pteWU pgsize
  have : (6 : ℕ) ||| 1 = 7 := by decide
  omega

theorem Lured.can_uva2ka {α : Type} {f : Option ℕ → PageM α} {R : α → Memory → Prop}
    (h : Lured L s plain rest c e n t j) (hf : Can (f (some e)) R s) :
    Can (uva2ka c e 1024 >>= f) R s := by
  have hdiv : 1024 / npentries = 1 := by
    unfold npentries
    rfl
  refine Exec.can_bind (Q := fun r s' => r = some e ∧ s' = s) ?_ ?_
  · refine Exec.can_bind (Q := fun r s' => r = mkPte e pteWU ∧ s' = s) ?_ ?_
    · refine can_walk_false ?_
      rw [hdiv, if_neg h.bare]
      refine can_walk_false ?_
      rw [if_pos h.at0.present, h.at0.table, ← h.at0.index]
      refine Exec.can_gets (fun _ => rfl) ?_
      rw [h.pte, if_pos (mkPte_present n pteWU), mkPte_page (by decide)]
      exact ⟨[], _, s, fun _ => rfl, h.word, rfl⟩
    · rintro _ s' ⟨rfl, rfl⟩
      rw [if_neg (not_not.mpr (mkPte_present e pteWU)), if_neg (not_not.mpr (userBit_mkPte e)),
        mkPte_page (by decide)]
      exact Exec.can_pure ⟨rfl, rfl⟩
  · rintro _ s' ⟨rfl, hs⟩
    rw [hs]
    exact hf

theorem copyoutFrom_nil (cur d m va : ℕ) : copyoutFrom cur d m va [] = pure true := by
  cases m with
  | zero => rfl
  | succ m =>
      unfold copyoutFrom
      rw [if_pos rfl]

/-- The bytes go into the new page directory. -/
theorem Lured.can_copyout {α : Type} {f : Bool → PageM α} {R : α → Memory → Prop} {va : ℕ}
    {b : UInt8} {cs : List UInt8} (h : Lured L s plain rest c e n t j) (hva : va / pgsize = 1024)
    (hlen : va % pgsize + cs.length + 1 ≤ pgsize)
    (hf : Can (f true) R { s with
      word := fillPage s.word e (overlay (s.word e) (va % pgsize) (b :: cs)) }) :
    Can (copyout c e va (b :: cs) >>= f) R s := by
  refine Exec.can_bind (Q := fun r s' => r = true ∧ s' = { s with
    word := fillPage s.word e (overlay (s.word e) (va % pgsize) (b :: cs)) }) ?_ ?_
  · unfold copyout
    rw [List.length_cons]
    unfold copyoutFrom
    rw [if_neg (by simp), hva]
    refine h.can_uva2ka ?_
    have htake : (b :: cs).take (pgsize - va % pgsize) = b :: cs := by
      apply List.take_of_length_le
      rw [List.length_cons]
      omega
    have hdrop : (b :: cs).drop (pgsize - va % pgsize) = [] := by
      apply List.drop_of_length_le
      rw [List.length_cons]
      omega
    simp only [htake, hdrop, copyoutFrom_nil]
    exact Exec.can_bind (Q := fun _ s' => s' = { s with
      word := fillPage s.word e (overlay (s.word e) (va % pgsize) (b :: cs)) })
      (Exec.can_gets (fun _ => rfl) (Exec.can_modify_last (fun _ => rfl) rfl))
      fun _ s' hs' => Exec.can_pure ⟨rfl, hs'⟩
  · rintro _ _ ⟨rfl, rfl⟩
    exact hf

/-- Bytes copied above a word leave its lowest bit alone. -/
theorem overlay_parity {ws : ℕ → ℕ} {start i : ℕ} {cs : List UInt8} (h : 4 * i < start) :
    Vm.overlay ws start cs i % 2 = ws i % 2 := by
  have hfirst : ¬(start ≤ 4 * i + 0 ∧ 4 * i + 0 < start + cs.length) := by omega
  have hcons : ∀ (b : UInt8) (bs : List UInt8), ofBytes (b :: bs) % 2 = b.toNat % 2 := by
    intro b bs
    have heq : ofBytes (b :: bs) = b.toNat + 256 * ofBytes bs := rfl
    omega
  unfold Vm.overlay
  rw [show List.range 4 = [0, 1, 2, 3] from rfl, List.map_cons, hcons, if_neg hfirst]
  simp only [pow_zero, Nat.div_one, UInt8.toNat_ofNat']
  omega

/-- Bytes above the second word of the directory leave it as it is. -/
theorem Lured.overlay (h : Lured L s plain rest c e n t j) (start : ℕ) (cs : List UInt8)
    (hstart : 8 ≤ start) :
    Lured L { s with word := fillPage s.word e (Vm.overlay (s.word e) start cs) }
      plain rest c e n t j := by
  obtain ⟨hc, ht, hn⟩ := h.apart
  refine ⟨?_, ?_, h.at0.congr (fillPage_other hc), ?_, ?_, h.apart⟩
  · refine h.owns.move (fun d' hd' => ?_) rfl rfl
    refine SameTables.of_page (n := e) ?_ fun m hm => fillPage_other hm
    exact Owns.notMem_skeleton (h.owns.plain_notMem (Multiset.mem_cons_self e plain) hd')
  · simp only [fillPage_same]
    unfold Present
    rw [overlay_parity (by omega)]
    exact h.bare
  · simp only [fillPage_other ht]
    exact h.pte
  · simp only [fillPage_other hn]
    exact h.word

/-! ## The run -/

/-- The whole stack of the new program goes into its page directory. -/
theorem Lured.can_pushArgs (h : Lured L s plain rest c e n t j) :
    Can (do
      match ← pushArgs c e [twinArg] 4198400 [] with
      | none => pure none
      | some (sp, ptrs) =>
          if ← copyout c e (wrap32 (sp + 4294967296 - (ustack sp ptrs).length)) (ustack sp ptrs)
          then pure (some 4198400)
          else pure none) (fun r s' => r = some 4198400 ∧ Lured L s' plain rest c e n t j ∧
        s'.word e 1021 = 16843009 ∧ s'.word e 1022 = 16843009) s := by
  have hpush : pushed 4198400 (twinArg.length + 1) = 4198388 := by decide
  have hcs : twinArg ++ [0] = 1 :: [1, 1, 1, 1, 1, 1, 1, 0] := by decide
  have hustack : ustack 4198388 [4198388] =
      255 :: [255, 255, 255, 1, 0, 0, 0, 236, 15, 64, 0, 244, 15, 64, 0, 0, 0, 0, 0] := by
    decide +kernel
  have hsp : wrap32 (4198388 + 4294967296 - (ustack 4198388 [4198388]).length) = 4198368 := by
    rw [hustack]
    decide
  refine Exec.can_bind (Q := fun r s' => r = some (4198388, [4198388]) ∧ s' = { s with
    word := fillPage s.word e (Vm.overlay (s.word e) 4084 (1 :: [1, 1, 1, 1, 1, 1, 1, 0])) }) ?_ ?_
  · unfold pushArgs
    rw [if_neg (by decide)]
    simp only [hpush, hcs]
    refine h.can_copyout (by decide) (by decide) ?_
    exact Exec.can_pure ⟨rfl, rfl⟩
  · rintro _ _ ⟨rfl, rfl⟩
    simp only [hsp]
    rw [hustack]
    have h1 := h.overlay 4084 (1 :: [1, 1, 1, 1, 1, 1, 1, 0]) (by decide)
    refine h1.can_copyout (by decide) (by decide) ?_
    refine Exec.can_pure ⟨rfl, h1.overlay _ _ (by decide), ?_, ?_⟩
    · simp only [fillPage_same]
      simp [Vm.overlay, ofBytes, List.range_succ, pgsize]
    · simp only [fillPage_same]
      simp [Vm.overlay, ofBytes, List.range_succ, pgsize]

/-- With a refused table for the top page, the two pages of the stack still count
as allocated. -/
theorem can_allocStack {keep : ℕ → Prop} {held : ℕ → ℕ → ℕ}
    (h : Building L s plain rest e 0 3 (fun u => 1023 ≤ u ∧ u < kernbasePage)
      (fun i => 1 ≤ i ∧ i < userEntries) keep held) :
    Can (allocuvm L e 4190208 4198400) (fun r s' => r = 4198400 ∧ s'.starved = true ∧
      Present (s'.word e 0) ∧ Building L s' plain rest e 0 0 (fun _ => False)
        (fun i => 1 ≤ i ∧ i < userEntries) keep held) s := by
  have hentries : npentries = 1024 := by
    unfold npentries
    rfl
  unfold allocuvm
  rw [if_neg (by decide), if_neg (by decide)]
  refine Exec.can_bind (Q := fun r s' => r = true ∧ s'.starved = true ∧
    Present (s'.word e 0) ∧ Building L s' plain rest e 0 0 (fun _ => False)
      (fun i => 1 ≤ i ∧ i < userEntries) keep held) ?_ ?_
  · refine can_allocOne (k := 1) (v := 1023) h (by decide) ?_ ?_
    · rw [hentries]
      decide
    · intro s1 m _ h1 _ _ hp _
      rw [hentries] at hp
      refine Exec.can_mono (can_allocHole (v := 1024) h1 (by decide) ?_) ?_
      · rw [hentries]
        unfold userEntries
        decide
      · rintro r s2 ⟨hr, hstarved, h2, hdir⟩
        refine ⟨hr, hstarved, ?_, h2.mono fun _ hf => hf.elim⟩
        rw [hdir]
        exact hp
  · rintro _ s1 ⟨rfl, hs1⟩
    exact Exec.can_pure ⟨rfl, hs1⟩

/-- `clearpteu` changes a table only. -/
theorem can_clearpteu {d v lo spare : ℕ} {P B keep : ℕ → Prop} {held : ℕ → ℕ → ℕ}
    (h : Building L s plain rest d lo spare P B keep held) (hv : v < topPage)
    (hp : Present (s.word d (v / npentries))) :
    Can (clearpteu d v) (fun _ s' => Owns L s' plain (d ::ₘ rest) ∧ s'.word d = s.word d ∧
      (∀ x, keep x → s'.word x = held x) ∧ s'.starved = s.starved) s := by
  have hnd := h.owns.skeleton_nodup (Multiset.mem_cons_self d rest)
  have hrun : Can (clearpteu d v) (fun _ s' => s'.word d = s.word d ∧
      (∀ x, keep x → s'.word x = held x) ∧ s'.starved = s.starved) s := by
    refine can_walk_false ?_
    rw [if_pos hp]
    refine Exec.can_gets (fun _ => rfl) (Exec.can_modify_last (fun _ => rfl) ⟨?_, ?_, rfl⟩)
    · exact putWord_other_page (table_ne_dir hnd (dirIndex_lt hv) hp).symm
    · intro x hx
      obtain ⟨-, hskel, hheld⟩ := h.apart x hx
      refine (putWord_other_page ?_).trans hheld
      rintro rfl
      exact hskel (mem_skeleton_table (dirIndex_lt hv) hp)
  refine Exec.can_mono (Exec.can_wlp hrun fun cs => clearpteu_spec (h.owns.withFails cs) hv) ?_
  rintro _ s' ⟨⟨hdir, hheld, hstarved⟩, _, _, howns, -⟩
  exact ⟨howns.of_withFails, hdir, hheld, hstarved⟩

/-- An address space may be forgotten but for its directory. -/
theorem Owns.orphan {d : ℕ} (h : Owns L s plain (d ::ₘ rest)) (hstarved : s.starved = true) :
    Owns L s (d ::ₘ plain) rest := by
  obtain ⟨lost, -, hbal⟩ := h.balance
  refine ⟨⟨tables s.word d + userPages s.word d + lost, by simp [hstarved], ?_⟩,
    fun d' hd' => h.wellFormed d' (Multiset.mem_cons_of_mem hd')⟩
  rw [← hbal, Multiset.map_cons, Multiset.sum_cons, footprint, skeleton, ← Multiset.singleton_add]
  abel

/-- The image of the program is made, and its page directory is overwritten. -/
theorem can_execImage {ns : List ℕ} (h : Owns L s plain rest) (hc : c ∈ rest)
    (hat : EntryAt s.word c 0 t j) (hpte : s.word t j = mkPte n pteWU)
    (hword : s.word n 0 = mkPte e pteWU) (hfree : s.freelist = e :: ns) (hroom : 3000 ≤ ns.length) :
    Can (execImage L c hugeFile [twinArg]) (fun r s' => r = some (e, 4198400) ∧
      Owns L s' (e ::ₘ plain) rest ∧ ¬Present (s'.word e 1) ∧ s'.word e 1021 = 16843009 ∧
      s'.word e 1022 = 16843009) s := by
  have hentries : npentries = 1024 := by
    unfold npentries
    rfl
  -- the pages of the old program are neither free nor part of the new one
  have hfoot : ∀ x, x = c ∨ x = t ∨ x = n → x ∈ footprint s.word c := by
    rintro x (rfl | rfl | rfl)
    · unfold footprint
      exact Multiset.mem_add.mpr (Or.inl (mem_skeleton_self _ _))
    · unfold footprint
      rw [← hat.table]
      exact Multiset.mem_add.mpr (Or.inl (mem_skeleton_table (dirIndex_lt (by decide)) hat.present))
    · have hmem := mem_footprint_user (by decide) hat (hpte ▸ mkPte_present x pteWU)
      rwa [hpte, mkPte_page (by decide)] at hmem
  have hkeep : ∀ x, x = c ∨ x = t ∨ x = n → x ∉ s.freelist ∧ s.word x = s.word x := by
    intro x hx
    refine ⟨fun hmem => ?_, rfl⟩
    have hnd := h.nodup
    rw [add_assoc] at hnd
    exact Multiset.disjoint_left.mp (Multiset.nodup_add.mp hnd).2.2 (Multiset.mem_coe.mpr hmem)
      (Multiset.mem_add.mpr (Or.inr (Multiset.mem_of_le (Owns.footprint_le s.word hc)
        (hfoot x hx))))
  have h0 : Owns L { s with hole := false, trace := [], hole_starved := by simp } plain rest :=
    h.move (fun _ _ _ _ => rfl) rfl rfl
  unfold execImage
  refine Exec.can_modify (fun _ => rfl) ?_
  rw [hugeFile_elfhdr]
  simp only [ne_eq, not_true_eq_false, if_false]
  refine Exec.can_bind (can_setupkvm 0 1026 (fun x => x = c ∨ x = t ∨ x = n) s.word
    h0 hfree (Nat.zero_le _) (by rw [hentries]; omega) hkeep) ?_
  rintro _ s1 ⟨rfl, h1, -⟩
  have hsegs : Can (loadSegments L e hugeFile 1 52 0) (fun r s' => r = some 4190208 ∧
      Building L s' plain rest e 0 3 (fun u => 1023 ≤ u ∧ u < kernbasePage)
        (fun i => 1 ≤ i ∧ i < userEntries) (fun x => x = c ∨ x = t ∨ x = n) s.word) s1 := by
    unfold loadSegments
    rw [hugeFile_proghdr]
    simp only [ne_eq, not_true_eq_false, if_false]
    rw [if_neg (by decide), show wrap32 (0 + 4190208) = 4190208 by decide]
    unfold allocuvm
    rw [if_neg (by decide), if_neg (by decide)]
    have h1' : Building L s1 plain rest e 0 (1023 + 3) (fun u => 0 ≤ u ∧ u < kernbasePage)
        (fun i => 1 ≤ i ∧ i < userEntries) (fun x => x = c ∨ x = t ∨ x = n) s.word :=
      (h1.mono fun u hu => hu.2).bare_mono fun i hi => hi.2
    refine Exec.can_bind (Q := fun r s' => r = 4190208 ∧
      Building L s' plain rest e 0 3 (fun u => 1023 ≤ u ∧ u < kernbasePage)
        (fun i => 1 ≤ i ∧ i < userEntries) (fun x => x = c ∨ x = t ∨ x = n) s.word) ?_ ?_
    · refine Exec.can_bind (can_allocFrom (k := 1023) (v := 0) h1' (by decide) ?_) ?_
      · intro u _ hu
        rw [hentries]
        omega
      · rintro _ s2 ⟨rfl, h2, -⟩
        exact Exec.can_pure ⟨rfl, h2⟩
    · rintro _ s2 ⟨rfl, h2⟩
      rw [if_neg (by decide)]
      exact Exec.can_bind (Q := fun r s' => r = true ∧ s' = s2) (Exec.can_pure ⟨rfl, rfl⟩)
        fun _ s3 hs3 => by
          rw [hs3.1, hs3.2]
          exact Exec.can_pure ⟨rfl, h2⟩
  have hstack : ∀ {s2 : Memory}, Building L s2 plain rest e 0 3
      (fun u => 1023 ≤ u ∧ u < kernbasePage) (fun i => 1 ≤ i ∧ i < userEntries)
      (fun x => x = c ∨ x = t ∨ x = n) s.word →
      Can (makeStack L c e 4190208 [twinArg]) (fun r s' => r = some 4198400 ∧
        Lured L s' plain rest c e n t j ∧ s'.word e 1021 = 16843009 ∧
        s'.word e 1022 = 16843009) s2 := by
    intro s2 h2
    unfold makeStack
    rw [show pgroundup 4190208 = 4190208 by decide, show 4190208 + 2 * pgsize = 4198400 by decide]
    refine Exec.can_bind (can_allocStack h2) ?_
    rintro _ s3 ⟨rfl, hstarved, hp, h3⟩
    rw [if_neg (by decide), show (4198400 - 2 * pgsize) / pgsize = 1023 by decide]
    refine Exec.can_bind (can_clearpteu (v := 1023) h3 (by decide) (by rw [hentries]; exact hp)) ?_
    rintro - s4 ⟨howns, hdir, hheld, hst⟩
    have hlured : Lured L s4 plain rest c e n t j := by
      have hapart : ∀ x, x = c ∨ x = t ∨ x = n → x ≠ e := by
        rintro x hx rfl
        exact (h3.apart x hx).2.1 (mem_skeleton_self _ x)
      refine ⟨howns.orphan (hst.trans hstarved), ?_, hat.congr (hheld c (Or.inl rfl)), ?_, ?_,
        hapart c (Or.inl rfl), hapart t (Or.inr (Or.inl rfl)), hapart n (Or.inr (Or.inr rfl))⟩
      · rw [hdir]
        refine h3.bare 1 (by rw [hentries]; decide) ?_
        unfold userEntries
        decide
      · rw [hheld t (Or.inr (Or.inl rfl))]
        exact hpte
      · rw [hheld n (Or.inr (Or.inr rfl))]
        exact hword
    exact hlured.can_pushArgs
  refine Exec.can_bind (Q := fun r s' => r = some 4198400 ∧ Lured L s' plain rest c e n t j ∧
    s'.word e 1021 = 16843009 ∧ s'.word e 1022 = 16843009) ?_ ?_
  · refine Exec.can_bind hsegs ?_
    rintro _ s2 ⟨rfl, h2⟩
    exact hstack h2
  · rintro _ s2 ⟨rfl, h2, hfirst, hsecond⟩
    exact Exec.can_pure ⟨rfl, h2.owns, h2.bare, hfirst, hsecond⟩

/-- A store to a page that the program has access to. -/
theorem store_run {p : Slot} {v i w : ℕ} (hv : v < topPage)
    (hat : EntryAt k.mem.word (k.task p).pgdir v t j) (hp : Present (k.mem.word t j))
    (hu : UserBit (k.mem.word t j)) :
    store p v i w k = (.ok (), { k with mem := { k.mem with
      word := putWord k.mem.word (ptePage (k.mem.word t j)) i w } }) := by
  have hwalk : onMemory (walkpgdir (k.task p).pgdir v false) k = (.ok (some (t, j)), k) := by
    unfold onMemory Exec.zoom
    rw [walkpgdir_false, if_pos hat.present, hat.table, ← hat.index]
  unfold store
  rw [Exec.bind_run_ok (Exec.gets_run _ k), Exec.bind_run_ok hwalk]
  simp only
  rw [Exec.bind_run_ok (Exec.gets_run _ k), if_pos ⟨hv, hp, hu⟩]
  rfl

/-- The `exec` returns, and its page directory has two entries for one page. -/
theorem exec_twins {p : Slot} {ns : List ℕ} (h : Sound L k) (hp : (k.task p).state ≠ .unused)
    (hat : EntryAt k.mem.word (k.task p).pgdir 0 t j) (hpte : k.mem.word t j = mkPte n pteWU)
    (hword : k.mem.word n 0 = mkPte e pteWU) (hfree : k.mem.freelist = e :: ns)
    (hroom : 3000 ≤ ns.length) :
    ∃ fails k', exec L p hugeFile [twinArg] (k.withFails fails) = (.ok (), k') ∧
      (k'.task p).state = (k.task p).state ∧ (k'.task p).pgdir = e ∧
      k'.mem.word e 1021 = 16843009 ∧ k'.mem.word e 1022 = 16843009 := by
  have hmem := can_execImage (h.live hp).owns (Multiset.mem_cons_self _ _) hat hpte hword hfree
    hroom
  have hcan : CanCall (onMemory (execImage L (k.task p).pgdir hugeFile [twinArg]))
      (fun r k' => r = some (e, 4198400) ∧ k'.task = k.task ∧
        Owns L k'.mem (e ::ₘ ((k.task p).kstack ::ₘ k.kstacksBut p + (openPipes k.file).val))
          ((k.task p).pgdir ::ₘ k.pgdirsBut p) ∧
        k'.mem.word e 1021 = 16843009 ∧ k'.mem.word e 1022 = 16843009) k := by
    refine Exec.can_zoom (fun _ => rfl) (fun _ _ _ => rfl) (Exec.can_mono hmem ?_)
    rintro r s ⟨hr, hs, -, hwords⟩
    exact ⟨hr, rfl, hs, hwords⟩
  obtain ⟨cs, _, k1, hrun, rfl, htask, howns, hfirst, hsecond⟩ := hcan
  have hlast : Exec.total (do
      setTask p fun t => { t with pgdir := e, sz := 4198400 }
      onMemory (freevm L (k.task p).pgdir))
      (fun _ k' => (k'.task p).state = (k.task p).state ∧ (k'.task p).pgdir = e ∧
        k'.mem.word e 1021 = 16843009 ∧ k'.mem.word e 1022 = 16843009) (k1.withFails []) := by
    refine Exec.wp_bind.mpr (Exec.wp_modify.mpr (Exec.wp_zoom.mpr ?_))
    refine Exec.wp_mono (freevm_spec (howns.withFails [])) ?_ fun _ _ hf => hf
    rintro - s2 ⟨-, hkeep⟩
    have he := hkeep e (Multiset.mem_cons_self e _)
    refine ⟨?_, ?_, ?_, ?_⟩
    · simp [Kernel.withFails, htask]
    · simp
    · exact (congrFun he 1021).trans hfirst
    · exact (congrFun he 1022).trans hsecond
  obtain ⟨_, k', hrun', hk'⟩ := Exec.wp_total hlast
  refine ⟨cs ++ [], k', ?_, hk'⟩
  unfold exec
  rw [Exec.bind_run_ok (Exec.gets_run _ _)]
  exact (Exec.bind_run_ok (hrun [])).trans hrun'

/-- The file's loadable segments start at page boundaries. -/
def ExecFile.Aligned (f : ExecFile) : Prop :=
  ∀ elf, f.elfhdr = some elf → ∀ i < elf.phnum, ∀ ph,
    f.proghdr (wrap32 (elf.phoff + 32 * i)) = some ph → ph.type = 1 → ph.vaddr % pgsize = 0

theorem hugeFile_segments {elf : Elfhdr} (helf : hugeFile.elfhdr = some elf) {i : ℕ}
    (hi : i < elf.phnum) {ph : Proghdr}
    (hph : hugeFile.proghdr (wrap32 (elf.phoff + 32 * i)) = some ph) :
    ph = ⟨1, 0, 0, 0, 4190208⟩ := by
  rw [hugeFile_elfhdr] at helf
  obtain rfl := Option.some.inj helf
  obtain rfl : i = 0 := by
    have : i < 1 := hi
    omega
  rw [show wrap32 (52 + 32 * 0) = 52 by decide, hugeFile_proghdr] at hph
  exact (Option.some.inj hph).symm

/-- The program can make its first word an entry for the page `e`. -/
theorem store_primes {p : Slot} (hsound : Sound L k) (hready : Ready k p) :
    ∃ k', store p 0 0 (mkPte e pteWU) (k.withFails []) = (.ok (), k') ∧ k'.task = k.task ∧
      k'.mem.freelist = k.mem.freelist ∧ ∃ t j n, EntryAt k'.mem.word (k.task p).pgdir 0 t j ∧
      k'.mem.word t j = mkPte n pteWU ∧ k'.mem.word n 0 = mkPte e pteWU := by
  obtain ⟨t, j, n, hat, hpte⟩ := hready.entry
  have hp : Present (k.mem.word t j) := hpte ▸ mkPte_present n pteWU
  have hpage : ptePage (k.mem.word t j) = n := by rw [hpte, mkPte_page (by decide)]
  have halive : (k.task p).state ≠ .unused := by
    rw [hready.alive]
    decide
  have hout := (hsound.live halive).owns.user_notMem (by decide) hat hp _
    (Multiset.mem_cons_self _ _)
  rw [hpage] at hout
  have hcn : (k.task p).pgdir ≠ n := by
    intro heq
    rw [← heq] at hout
    exact hout (mem_skeleton_self _ _)
  have htn : t ≠ n := by
    intro heq
    rw [← heq, ← hat.table] at hout
    exact hout (mem_skeleton_table (dirIndex_lt (by decide)) hat.present)
  refine ⟨_, store_run (k := k.withFails []) (by decide) hat hp (hpte ▸ userBit_mkPte n), rfl, rfl,
    t, j, n, ?_, ?_, ?_⟩
  · refine hat.congr (putWord_other_page ?_)
    change (k.task p).pgdir ≠ ptePage (k.mem.word t j)
    rw [hpage]
    exact hcn
  · change putWord k.mem.word (ptePage (k.mem.word t j)) 0 (mkPte e pteWU) t j = _
    rw [hpage, putWord_other_page htn]
    exact hpte
  · change putWord k.mem.word (ptePage (k.mem.word t j)) 0 (mkPte e pteWU) n 0 = _
    rw [hpage, putWord_same]

/-- A process whose first word is an entry for the first free page. -/
structure Primed (k : Kernel) (p : Slot) (e n t j : ℕ) (ns : List ℕ) : Prop where
  alive : (k.task p).state ≠ .unused ∧ (k.task p).state ≠ .zombie
  at0 : EntryAt k.mem.word (k.task p).pgdir 0 t j
  pte : k.mem.word t j = mkPte n pteWU
  word : k.mem.word n 0 = mkPte e pteWU
  free : k.mem.freelist = e :: ns
  room : 3000 ≤ ns.length

/-- After boot, one store leads to such a state. -/
theorem exists_primed : ∃ k₀ k p w e n t j ns, Booted smallLink k₀ ∧
    TameStep smallLink k₀ (.store p 0 0 w) k ∧ Sound smallLink k ∧ Primed k p e n t j ns := by
  obtain ⟨k₀, p, hboot, hready⟩ := exists_ready
  have hsound₀ := booted_sound hboot
  have halive : (k₀.task p).state ≠ .unused ∧ (k₀.task p).state ≠ .zombie := by
    rw [hready.alive]
    decide
  have hlen := hready.room
  obtain ⟨e, ns, hfree⟩ := List.exists_cons_of_length_pos (l := k₀.mem.freelist) (by omega)
  rw [hfree, List.length_cons] at hlen
  obtain ⟨k₁, hstore, htask₁, hlist₁, t, j, n, hat, hpte, hword⟩ :=
    store_primes (e := e) hsound₀ hready
  have hstep₁ : TameStep smallLink k₀ (.store p 0 0 (mkPte e pteWU)) k₁ :=
    ⟨⟨halive, [], hstore⟩, trivial⟩
  have hsound₁ := hsound₀.step hstep₁.1 trivial fun hexec => hexec.elim
  rw [← htask₁] at halive hat
  exact ⟨k₀, k₁, p, mkPte e pteWU, e, n, t, j, ns, hboot, hstep₁, hsound₁, halive, hat, hpte, hword,
    hlist₁.trans hfree, by omega⟩

/-- After boot, a store and an `exec` lead to a page with two owners. -/
theorem exec_aliases : ∃ k₀ k p w, Booted smallLink k₀ ∧
    Run (TameStep smallLink) (fun _ => True) k₀ [.store p 0 0 w, .exec p hugeFile [twinArg]] k ∧
    hugeFile.Aligned ∧ ¬SingleOwner k := by
  obtain ⟨k₀, k₁, p, w, e, n, t, j, ns, hboot, hstep₁, hsound₁, hprimed⟩ := exists_primed
  have halive := hprimed.alive
  obtain ⟨fails, k, hrun, hstate, hpgdir, hfirst, hsecond⟩ := exec_twins hsound₁ halive.1
    hprimed.at0 hprimed.pte hprimed.word hprimed.free hprimed.room
  have hargs : ShortArgs [twinArg] := by
    intro arg harg
    obtain rfl := List.mem_singleton.mp harg
    decide
  have hwraps : hugeFile.NoWrap := by
    intro elf helf i hi ph hph _
    rw [hugeFile_segments helf hi hph]
    decide
  have hstep₂ : TameStep smallLink k₁ (.exec p hugeFile [twinArg]) k :=
    ⟨⟨halive, fails, hrun⟩, hwraps, hargs⟩
  refine ⟨k₀, k, p, w, hboot,
    .snoc (.snoc (.nil trivial) hstep₁ trivial) hstep₂ trivial, ?_, ?_⟩
  · intro elf helf i hi ph hph _
    rw [hugeFile_segments helf hi hph]
    decide
  · intro hsingle
    -- two entries of the directory would have to name different tables
    have hdir : e ∈ ∑ q, (k.task q).dir := by
      rw [Multiset.mem_sum]
      refine ⟨p, Finset.mem_univ p, ?_⟩
      rw [Task.dir, if_neg (by rw [hstate]; exact halive.1), hpgdir]
      exact Multiset.mem_singleton_self e
    have hnd := (Multiset.nodup_add.mp hsingle.nodup).2.1
    unfold Kernel.uses at hnd
    have hfoot := Multiset.nodup_of_le (Owns.footprint_le k.mem.word hdir)
      (Multiset.nodup_add.mp (Multiset.nodup_add.mp hnd).1).2.1
    unfold footprint skeleton at hfoot
    have htables := (Multiset.nodup_add.mp (Multiset.nodup_add.mp hfoot).1).2.1
    have htwin : 1021 = 1022 := table_inj htables (by unfold npentries; decide)
      (by unfold npentries; decide) (by rw [hfirst]) (by rw [hsecond])
      (by rw [hfirst, hsecond])
    cases htwin

end Vm

end Xv6
