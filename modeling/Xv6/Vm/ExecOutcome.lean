import Xv6.Vm.ExecCall
import Xv6.Vm.Loading

/-!
# Calls of `exec` after any run

In every state of a run of the kernel in which `exec` has mapped its pages, a call of `exec`
returns with the new image or with nothing changed, and the image is the one that the
segments of the file describe.  Both need that `allocuvm` gets its page tables: it ignores
that `mappages` has failed for want of one, and `exec` then returns 0 with a page of the
program missing.  The first one also needs segments that start at page boundaries, since
`exec` does not check this and `loaduvm` panics.
-/

namespace Xv6

namespace Vm

open Support

variable {L : Link} {plain rest : Multiset ℕ} {f : ExecFile} {elf : Elfhdr}
  {path : List UInt8} {argv : List (List UInt8)}

/-- The process `p` when it calls `exec`, with its registers and its name, and the inode
that `namei` will find. -/
def Kernel.caller (k : Kernel) (p : Slot) (eip esp : ℕ) (name : List UInt8) (ref : ℕ) : Caller where
  mem := k.mem
  pgdir := (k.task p).pgdir
  sz := (k.task p).sz
  eip := eip
  esp := esp
  name := name
  ref := ref
  locked := false

/-! ## Files with proper segments -/

/-- The loadable segments start at page boundaries and end below the kernel, and the file
holds the bytes that it is said to hold for them. -/
def ExecFile.Proper (f : ExecFile) (elf : Elfhdr) : Prop :=
  ∀ i < elf.phnum, ∀ ph, f.proghdr (wrap32 (elf.phoff + 32 * i)) = some ph → ph.type = 1 →
    ph.vaddr % pgsize = 0 ∧ ph.filesz ≤ ph.memsz ∧ ph.vaddr + ph.memsz < kernbase ∧
      ph.off + ph.filesz ≤ f.size

/-- The data of a proper segment goes to pages of the program. -/
theorem ExecFile.Proper.page_lt (h : f.Proper elf) {i : ℕ} {ph : Proghdr} (hi : i < elf.phnum)
    (hph : f.proghdr (wrap32 (elf.phoff + 32 * i)) = some ph) (htype : ph.type = 1) {u : ℕ}
    (hu : u < ph.filesz) : (ph.vaddr + u) / pgsize < pagesOf (f.reached elf (i + 1)) ∧
      wrap32 (ph.vaddr + u) = ph.vaddr + u := by
  obtain ⟨-, hfile, hend, -⟩ := h i hi ph hph htype
  have hsmall : ∀ a ≤ ph.vaddr + ph.memsz, wrap32 a = a := by
    intro a ha
    refine wrap32_of_lt ?_
    unfold kernbase at hend
    omega
  refine ⟨?_, hsmall _ (by omega)⟩
  rw [reached_of_loaded hph htype, hsmall _ le_rfl]
  unfold pagesOf pgsize
  omega

theorem ExecFile.Proper.storesInside (h : f.Proper elf) (s : Memory) : f.StoresInside elf s :=
  fun _ _ hloads _ _ hu _ _ => (h.page_lt hloads.lt hloads.header hloads.loadable hu).1

theorem ExecFile.Proper.walked (h : f.Proper elf) {i : ℕ} {ph : Proghdr} (hi : i < elf.phnum)
    (hph : f.proghdr (wrap32 (elf.phoff + 32 * i)) = some ph) (htype : ph.type = 1) :
    f.Walked (pagesOf (f.reached elf (i + 1))) ph := by
  refine ⟨(h i hi ph hph htype).1, fun u hu _ => Or.inl ⟨_, ?_, rfl⟩⟩
  obtain ⟨hpage, hwrap⟩ := h.page_lt hi hph htype hu
  rwa [hwrap]

theorem ExecFile.Proper.passes (h : f.Proper elf) {i : ℕ} {ph : Proghdr} (hi : i < elf.phnum)
    (hph : f.proghdr (wrap32 (elf.phoff + 32 * i)) = some ph)
    (hnonempty : f.reached elf (i + 1) ≠ 0) : f.Passes elf i := by
  refine ⟨ph, hph, fun htype => ?_⟩
  obtain ⟨-, hfile, hend, hsize⟩ := h i hi ph hph htype
  refine ⟨⟨hfile, ?_, hnonempty⟩, h.walked hi hph htype, Or.inr hsize⟩
  exact (Nat.mod_le _ _).trans_lt hend

/-- An accepted program gets its page tables. -/
theorem ExecFile.Stacks.getsTables {s : Memory} (h : f.Stacks elf s) : f.GetsTables elf s := by
  intro t hasks _
  have hlt : 1024 * t < pagesOf (f.reached elf elf.phnum) + 2 := by
    rcases hasks with ⟨i, ph, hcomes, -, -, ht⟩ | ⟨-, ht⟩
    · have hpages := hcomes.pages_le hcomes.lt
      omega
    · exact ht
  refine h.granted _ ?_
  unfold requests span
  omega

/-! ## A program with data -/

/-- A page that begins with the bytes of the file. -/
def dataFile : ExecFile := segmentFile [0, 0, 0, 0] [84, 0, 0, 0] [0, 16, 0, 0]

theorem dataFile_elfhdr : dataFile.elfhdr = some ⟨elfMagic, 52, 1⟩ := by
  decide +kernel

theorem dataFile_proghdr : dataFile.proghdr 52 = some ⟨1, 0, 0, 84, 4096⟩ := by
  decide +kernel

theorem dataFile_only (helf : dataFile.elfhdr = some elf) : elf = ⟨elfMagic, 52, 1⟩ :=
  (Option.some.inj (dataFile_elfhdr.symm.trans helf)).symm

theorem dataFile_header {i : ℕ} (hi : i < 1) :
    dataFile.proghdr (wrap32 (52 + 32 * i)) = some ⟨1, 0, 0, 84, 4096⟩ := by
  obtain rfl : i = 0 := by omega
  exact dataFile_proghdr

theorem dataFile_proper : dataFile.Proper ⟨elfMagic, 52, 1⟩ := by
  intro i hi ph hph _
  obtain rfl := Option.some.inj ((dataFile_header hi).symm.trans hph)
  refine ⟨by decide, by decide, by decide, ?_⟩
  change 0 + 84 ≤ 84
  omega

theorem dataFile_reached : dataFile.reached ⟨elfMagic, 52, 1⟩ 1 = 4096 := by
  rw [reached_of_loaded (dataFile_header (Nat.zero_lt_one)) rfl, ExecFile.reached]
  decide

/-- With one argument of two bytes it is accepted if there is memory for three pages. -/
theorem dataFile_accepted {s : Memory} (h : s.Grants (requests 3)) :
    dataFile.Accepted [[104, 105]] s := by
  have hpages : pagesOf (dataFile.reached ⟨elfMagic, 52, 1⟩ 1) = 1 := by
    rw [dataFile_reached]
    decide
  refine ⟨_, dataFile_elfhdr, rfl, ⟨⟨fun i hi => ?_, ?_⟩, ?_⟩, ?_⟩
  · refine dataFile_proper.passes hi (dataFile_header hi) ?_
    obtain rfl : i = 0 := Nat.lt_one_iff.mp hi
    rw [dataFile_reached]
    decide
  · change (pagesOf (dataFile.reached _ 1) + 2) * pgsize < kernbase
    rw [hpages]
    decide
  · change s.Grants (requests (pagesOf (dataFile.reached _ 1) + 2))
    rwa [hpages]
  · change FitsStack ((pagesOf (dataFile.reached _ 1) + 1) * pgsize) _ 0
      ((pagesOf (dataFile.reached _ 1) + 2) * pgsize)
    rw [hpages]
    refine ⟨by decide, by decide, by decide, ?_⟩
    change 2 * pgsize + (1 + 4) * 4 ≤ pushed (3 * pgsize) 3
    decide

theorem dataFile_contained {s : Memory} (h : s.Grants (requests 3)) :
    Contained dataFile [[104, 105]] s := by
  obtain ⟨elf, helf, -, hstacks, -⟩ := dataFile_accepted h
  obtain rfl := dataFile_only helf
  refine ⟨fun elf helf _ => ?_, fun elf helf _ _ => ?_, fun elf helf _ => ?_⟩
  · rw [dataFile_only helf]
    exact dataFile_proper.storesInside s
  · rw [dataFile_only helf]
    refine fun _ => ⟨?_, fun _ _ => trivial⟩
    change 3 ≤ _ + 33554432
    omega
  · rw [dataFile_only helf]
    exact hstacks.getsTables

theorem dataFile_placed (s : Memory) : dataFile.Placed s := by
  rintro elf helf - ⟨i, ph, hloads, hbad⟩
  rw [dataFile_only helf] at hloads hbad
  exact hbad (dataFile_proper.walked hloads.lt hloads.header hloads.loadable)

/-! ## Programs without data -/

/-- A page of zeros at the address 0. -/
def zeroFile : ExecFile := segmentFile [0, 0, 0, 0] [0, 0, 0, 0] [0, 16, 0, 0]

/-- The same page but for its first word. -/
def skewFile : ExecFile := segmentFile [4, 0, 0, 0] [0, 0, 0, 0] [252, 15, 0, 0]

/-- What the two files have in common. -/
structure Blank (f : ExecFile) (vaddr memsz : ℕ) : Prop where
  header : f.elfhdr = some ⟨elfMagic, 52, 1⟩
  segment : f.proghdr 52 = some ⟨1, 0, vaddr, 0, memsz⟩
  ends : vaddr + memsz = 4096

theorem zeroFile_blank : Blank zeroFile 0 4096 :=
  ⟨by decide +kernel, by decide +kernel, rfl⟩

theorem skewFile_blank : Blank skewFile 4 4092 :=
  ⟨by decide +kernel, by decide +kernel, rfl⟩

/-- The new address space when its first page has been allocated, mapped or not. -/
abbrev Begun (L : Link) (s : Memory) (plain rest : Multiset ℕ) (d : ℕ) : Prop :=
  Building L s plain rest d 0 2 (fun u => 1 ≤ u ∧ u < kernbasePage)
    (fun i => 1 ≤ i ∧ i < userEntries) (fun _ => False) fun _ _ => 0

section Runs

variable {s : Memory} {d cur vaddr memsz : ℕ}

theorem can_allocuvm {oldsz newsz : ℕ} {Q : Memory → Prop} (hnew : newsz < kernbase)
    (hold : oldsz ≤ newsz)
    (h : Can (allocFrom d (pagesOf newsz - pagesOf oldsz) (pagesOf oldsz))
      (fun r s' => r = true ∧ Q s') s) :
    Can (allocuvm L d oldsz newsz) (fun r s' => r = newsz ∧ Q s') s := by
  unfold allocuvm
  rw [if_neg (by omega), if_neg (by omega)]
  refine Exec.can_bind h ?_
  rintro _ s' ⟨rfl, hs'⟩
  exact Exec.can_pure ⟨rfl, hs'⟩

/-- The first page is mapped. -/
theorem can_begin (h : Building L s plain rest d 0 4 (fun u => u < kernbasePage)
      (fun i => i < userEntries) (fun _ => False) fun _ _ => 0) :
    Can (allocuvm L d 0 4096) (fun r s' => r = 4096 ∧ Begun L s' plain rest d) s := by
  have h0 : Building L s plain rest d 0 (3 + 1) (fun u => 0 ≤ u ∧ u < kernbasePage)
      (fun i => 1 ≤ i ∧ i < userEntries) (fun _ => False) fun _ _ => 0 :=
    (h.mono fun u hu => hu.2).bare_mono fun i hi => hi.2
  refine can_allocuvm (by decide) (by decide) (can_allocOne (k := 0) h0 (by decide) ?_ ?_)
  · rw [show pagesOf 0 = 0 by decide, Nat.zero_div]
    simp
  · intro s' n _ h' _ _ _ _
    exact Exec.can_pure ⟨rfl, h'.owns, h'.vacant, h'.bare, by have := h'.room; omega, h'.apart⟩

/-- The first page is left unmapped, when the page for its table is refused. -/
theorem can_begin_unmapped (h : Building L s plain rest d 0 4 (fun u => u < kernbasePage)
      (fun i => i < userEntries) (fun _ => False) fun _ _ => 0) :
    Can (allocuvm L d 0 4096) (fun r s' => r = 4096 ∧ Begun L s' plain rest d ∧
      pteAt s'.word d 0 = 0) s := by
  have huser : 0 / npentries < userEntries := by
    rw [Nat.zero_div]
    unfold userEntries
    decide
  refine can_allocuvm (by decide) (by decide)
    (Exec.can_mono (can_allocHole (v := 0) h (by decide) huser) ?_)
  rintro r s' ⟨hr, -, h', -⟩
  refine ⟨hr, (h'.mono fun u hu => hu.2).bare_mono fun i hi => hi.2, ?_⟩
  rw [pteAt, if_neg (h'.bare _ (dirIndex_lt (by decide)) huser)]

/-- The two pages above are mapped. -/
theorem can_stack (h : Begun L s plain rest d) :
    Can (allocuvm L d 4096 12288) (fun r s' => r = 12288 ∧ Owns L s' plain (d ::ₘ rest) ∧
      pteAt s'.word d 0 = pteAt s.word d 0 ∧
      (∃ n, pteAt s'.word d 1 = mkPte n pteWU) ∧ ∃ n, pteAt s'.word d 2 = mkPte n pteWU) s := by
  have hentries : npentries = 1024 := by
    unfold npentries
    rfl
  refine can_allocuvm (by decide) (by decide) ?_
  refine can_allocOne (k := 1) (v := 1) h (by decide) (by rw [hentries]; decide) ?_
  intro s₁ n₁ _ h₁ _ _ _ hpte₁
  refine can_allocOne (k := 0) (v := 2) h₁ (by decide) (by rw [hentries]; decide) ?_
  intro s₂ n₂ _ h₂ _ _ _ hpte₂
  refine Exec.can_pure ⟨rfl, h₂.owns, ?_, ⟨n₁, ?_⟩, n₂, ?_⟩
  · rw [hpte₂ 0 (by decide), if_neg (by decide), hpte₁ 0 (by decide), if_neg (by decide)]
  · rw [hpte₂ 1 (by decide), if_neg (by decide), hpte₁ 1 (by decide), if_pos rfl]
  · rw [hpte₂ 2 (by decide), if_pos rfl]

/-- Then the stack can be made, for a program without arguments. -/
theorem may_makeStack (h : Begun L s plain rest d) :
    Exec.may Memory.withFails (makeStack L cur d 4096 []) (fun r s' => r = some 12288 ∧
      Owns L s' plain (d ::ₘ rest) ∧ pteAt s'.word d 0 = pteAt s.word d 0)
      (fun _ _ => False) s := by
  unfold makeStack
  rw [show pgroundup 4096 = 4096 by decide, show 4096 + 2 * pgsize = 12288 by decide]
  refine Exec.may_bind (can_stack h) ?_
  rintro _ s₁ ⟨rfl, h₁, hzero₁, ⟨n₁, hn₁⟩, n₂, hn₂⟩
  rw [if_neg (by decide), show (12288 - 2 * pgsize) / pgsize = 1 by decide]
  refine ⟨[], ?_⟩
  have hp : Present (pteAt s₁.word d 1) := by
    rw [hn₁]
    exact mkPte_present n₁ pteWU
  refine Exec.wp_seq (clearpteu_entry (v := 1) (h₁.withFails []) (by decide) hp) ?_
    fun _ _ hf => hf
  rintro - s₂ ⟨⟨h₂, -, -⟩, hothers, -⟩
  have hstack : pteAt s₂.word d 2 = mkPte n₂ pteWU :=
    (hothers 2 (by decide) (by decide)).trans hn₂
  have hlen := ustack_length 12288 []
  unfold pushArgs
  refine Exec.wp_bind.mpr (Exec.wp_pure.mpr ?_)
  have hshelf : Owns L s₂ (plain + (rest.map (footprint s₂.word)).sum) (d ::ₘ 0) := by
    refine Owns.shelve ?_
    rw [← Multiset.singleton_add] at h₂
    simpa using h₂
  refine Exec.wp_seq (copyout_page hshelf (by decide) hstack
    (by rw [hlen]; decide) (by rw [hlen]; decide)) ?_ fun _ _ hf => hf
  rintro _ s₃ ⟨rfl, hstore, hfree, hstarved⟩
  refine Exec.wp_pure.mpr ⟨rfl, ?_, ?_⟩
  · refine h₂.move (fun d' hd' => ?_) (by rw [hfree]) hstarved
    rcases Multiset.mem_cons.mp hd' with rfl | hd'
    · exact hstore.tables
    · intro n hn
      refine hstore.plain n (Owns.mem_shelf hd' ?_)
      unfold footprint
      exact Multiset.mem_add.mpr (Or.inl hn)
  · rw [hstore.pteAt_eq (by decide)]
    exact (hothers 0 (by decide) (by decide)).trans hzero₁

/-- Whatever comes of the first page, the program is loaded. -/
theorem Blank.can_loadSegments {Q : Memory → Prop} (hf : Blank f 0 memsz)
    (h : Can (allocuvm L d 0 4096) (fun r s' => r = 4096 ∧ Q s') s) :
    Can (loadSegments L d f 1 52 0) (fun r s' => r = some 4096 ∧ Q s') s := by
  have hends : wrap32 (0 + memsz) = 4096 := by
    rw [hf.ends]
    decide
  unfold loadSegments
  rw [hf.segment]
  simp only [ne_eq, not_true_eq_false, if_false, Nat.not_lt_zero, hends]
  refine Exec.can_bind h ?_
  rintro _ s' ⟨rfl, hs'⟩
  rw [if_neg (by decide)]
  unfold loaduvm
  rw [if_neg (by decide), show pagesOf 0 = 0 by decide]
  unfold loadFrom loadSegments
  exact Exec.can_bind (Q := fun ok s'' => ok = true ∧ Q s'') (Exec.can_pure ⟨rfl, hs'⟩) (by
    rintro _ s'' ⟨rfl, hs''⟩
    exact Exec.can_pure ⟨rfl, hs''⟩)

/-- A segment that does not start at a page boundary makes `loaduvm` panic. -/
theorem Blank.may_panic (hf : Blank f vaddr memsz) (haddr : vaddr % pgsize ≠ 0)
    (h : Can (allocuvm L d 0 4096) (fun r _ => r = 4096) s) :
    Exec.may Memory.withFails (loadSegments L d f 1 52 0) (fun _ _ => False)
      (fun e _ => e = .loaduvmAligned) s := by
  have hends : wrap32 (vaddr + memsz) = 4096 := by
    rw [hf.ends]
    decide
  unfold loadSegments
  rw [hf.segment]
  simp only [ne_eq, not_true_eq_false, if_false, Nat.not_lt_zero, hends]
  refine Exec.may_bind h ?_
  rintro _ s' rfl
  rw [if_neg (by decide)]
  unfold loaduvm
  rw [if_pos haddr]
  exact ⟨[], Exec.wp_bind.mpr (Exec.wp_throw.mpr rfl)⟩

/-- The run up to the segments. -/
theorem Blank.may_execImage {Q : Option (ℕ × ℕ) → Memory → Prop} {E : Panic → Memory → Prop}
    {ns : List ℕ} (hf : Blank f vaddr memsz) (h : Owns L s plain rest)
    (hfree : s.freelist = d :: ns) (hroom : 2000 ≤ ns.length)
    (hfill : ∀ s', Building L s' plain rest d 0 4 (fun u => u < kernbasePage)
      (fun i => i < userEntries) (fun _ => False) (fun _ _ => 0) → s'.hole = false →
      Exec.may Memory.withFails (fillImage L cur d f ⟨elfMagic, 52, 1⟩ [])
        (fun r s'' => ∃ sz, r = some sz ∧ Q (some (d, sz)) s'') E s') :
    Exec.may Memory.withFails (execImage L cur f []) Q E s := by
  have h0 : Owns L { s with hole := false, trace := [], hole_starved := by simp } plain rest :=
    h.move (fun _ _ _ _ => rfl) rfl rfl
  unfold execImage
  refine Exec.may_modify (fun _ => rfl) ?_
  rw [hf.header]
  simp only [ne_eq, not_true_eq_false, if_false]
  have hsetup : Can (setupkvm L) (fun r s' => r = some d ∧
      Building L s' plain rest d 0 4 (fun u => u < kernbasePage) (fun i => i < userEntries)
        (fun _ => False) (fun _ _ => 0) ∧ s'.starved = s.starved)
      { s with hole := false, trace := [], hole_starved := by simp } :=
    can_setupkvm 0 4 _ _ h0 hfree (Nat.zero_le _) (by unfold npentries; omega) fun x hx => hx.elim
  refine Exec.may_bind (Exec.can_wlp hsetup fun cs => (keeps_setupkvm L).wlp) ?_
  rintro _ s₁ ⟨⟨rfl, h₁, -⟩, _, _, hrec⟩
  refine Exec.may_then (hfill s₁ h₁ (Memory.hole_of_marks hrec)) ?_
  rintro _ s₂ ⟨sz, rfl, hQ⟩
  exact Exec.wp_pure.mpr hQ

/-- The whole image of such a program can be made, with its page unmapped. -/
theorem Blank.may_image {ns : List ℕ} (cur : ℕ) (hf : Blank f 0 memsz)
    (h : Owns L s plain rest) (hfree : s.freelist = d :: ns) (hroom : 2000 ≤ ns.length) :
    Exec.may Memory.withFails (execImage L cur f []) (fun r s' => r = some (d, 12288) ∧
      Owns L s' plain (d ::ₘ rest) ∧ pteAt s'.word d 0 = 0) (fun _ _ => False) s := by
  refine hf.may_execImage h hfree hroom fun s₁ h₁ _ => ?_
  unfold fillImage
  refine Exec.may_bind (hf.can_loadSegments (can_begin_unmapped h₁)) ?_
  rintro _ s₂ ⟨rfl, h₂, hzero⟩
  refine Exec.may_mono (may_makeStack h₂) ?_
  rintro _ s₃ ⟨rfl, h₃, hpte₃⟩
  exact ⟨12288, rfl, rfl, h₃, hpte₃.trans hzero⟩

/-- After boot `exec` of such a program can return 0 with its page unmapped. -/
theorem Blank.exists_exec (path : List UInt8) (hf : Blank f 0 memsz) :
    ∃ k p fails c', Booted smallLink k ∧
      ((k.task p).state ≠ .unused ∧ (k.task p).state ≠ .zombie) ∧
      Caller.exec smallLink (some f) path [] ((k.withFails fails).caller p 0 0 [] 1) =
        (.ok true, c') ∧ pteAt c'.mem.word c'.pgdir 0 = 0 := by
  obtain ⟨k, p, hboot, hready⟩ := exists_ready
  have halive : (k.task p).state ≠ .unused ∧ (k.task p).state ≠ .zombie := by
    rw [hready.alive]
    decide
  have hlen := hready.room
  obtain ⟨e, ns, hfree⟩ := List.exists_cons_of_length_pos (l := k.mem.freelist) (by omega)
  rw [hfree, List.length_cons] at hlen
  obtain ⟨fails, himage⟩ := hf.may_image (k.task p).pgdir
    ((booted_sound hboot).live halive.1).owns hfree (by omega)
  have hrun : Exec.total (Caller.exec smallLink (some f) path []) (fun ok c' => ok = true ∧
      pteAt c'.mem.word c'.pgdir 0 = 0) ((k.withFails fails).caller p 0 0 [] 1) := by
    refine Caller.exec_of_image (E := fun _ _ => False) (Exec.wp_mono himage ?_ fun _ _ hf => hf)
    rintro _ s ⟨rfl, hs, hzero⟩
    refine ⟨by simp, ?_⟩
    rintro _ _ ⟨⟩
    rw [Multiset.cons_swap] at hs
    refine Exec.total_mono (freevm_apart hs) ?_
    rintro - s' hkeep
    refine ⟨rfl, ?_⟩
    refine (SameTables.pteAt_eq (fun n hn => hkeep n ?_) (by decide)).trans hzero
    unfold footprint
    exact Multiset.mem_add.mpr (Or.inl hn)
  obtain ⟨ok, c', hret, hok, hzero⟩ := Exec.wp_total hrun
  rw [hok] at hret
  exact ⟨k, p, fails, c', hboot, halive, hret, hzero⟩

end Runs

theorem zeroFile_proper : zeroFile.Proper ⟨elfMagic, 52, 1⟩ := by
  intro i hi ph hph _
  obtain rfl : i = 0 := Nat.lt_one_iff.mp hi
  rw [show wrap32 (52 + 32 * 0) = 52 by decide, zeroFile_blank.segment] at hph
  obtain rfl := Option.some.inj hph
  decide

theorem zeroFile_reached : zeroFile.reached ⟨elfMagic, 52, 1⟩ 1 = 4096 := by
  rw [ExecFile.reached, show wrap32 (52 + 32 * 0) = 52 by decide, zeroFile_blank.segment,
    ExecFile.reached]
  decide

/-! ## Calls of `exec` after any run -/

/-- In every state of a run in which `exec` gets its page tables, a call of `exec` that keeps within
the new program returns, with the new image installed or with nothing changed, if and only if
`loaduvm` does not have to panic. -/
theorem exec_fails_cleanly {k₀ k : Kernel} {ops : List Op} {p : Slot} {file : Option ExecFile}
    {fails : List Bool} {eip esp ref : ℕ} {name : List UInt8} (hboot : Booted L k₀)
    (hrun : Run (MappedStep L) (fun _ => True) k₀ ops k)
    (hp : (k.task p).state ≠ .unused ∧ (k.task p).state ≠ .zombie)
    (hexec : ∀ f, file = some f → Contained f argv (k.withFails fails).mem) :
    (∃ ok c', Caller.exec L file path argv ((k.withFails fails).caller p eip esp name ref) =
        (.ok ok, c') ∧
      (ok = true → ∃ f elf, file = some f ∧ f.elfhdr = some elf ∧
        Installed f elf path argv ((k.withFails fails).caller p eip esp name ref) c') ∧
      (ok = false → Unchanged ((k.withFails fails).caller p eip esp name ref) c')) ↔
    ∀ f, file = some f → f.Placed (k.withFails fails).mem := by
  cases file with
  | none =>
      refine iff_of_true ⟨false, _, rfl, by simp, fun _ => ?_⟩ (by simp)
      exact ⟨⟨rfl, rfl, rfl, rfl, rfl⟩, fun _ _ => rfl, rfl, rfl⟩
  | some f =>
      have howns := ((sound_of_mapped_run hboot hrun).live hp.1).owns.withFails fails
      have hspec := Caller.exec_spec path
        (c := (k.withFails fails).caller p eip esp name ref) howns (hexec f rfl)
      constructor
      · rintro ⟨ok, c', hret, -⟩ _ ⟨⟩
        exact (Exec.wp_ok hspec hret).1
      · intro hplaced
        have htotal : Exec.total (Caller.exec L (some f) path argv) _
            ((k.withFails fails).caller p eip esp name ref) :=
          Exec.wp_mono hspec (fun _ _ hs => hs) fun _ _ hs => hs (hplaced f rfl)
        obtain ⟨ok, c', hret, -, -, hinst, hsame⟩ := Exec.wp_total htotal
        refine ⟨ok, c', hret, fun hok => ?_, hsame⟩
        obtain ⟨elf, helf, hi⟩ := hinst hok
        exact ⟨f, elf, rfl, helf, hi⟩

/-- After boot there is memory for the program with data and its argument. -/
theorem exists_roomy : ∃ k p, Booted smallLink k ∧
    ((k.task p).state ≠ .unused ∧ (k.task p).state ≠ .zombie) ∧
    (k.withFails []).mem.Grants (requests 3) := by
  obtain ⟨k, p, hboot, hready⟩ := exists_ready
  refine ⟨k, p, hboot, by rw [hready.alive]; decide, Memory.grants_of_length ?_⟩
  have hroom := hready.room
  rw [show requests 3 = 69 by decide]
  omega

theorem exec_fails_cleanly_dataFile : ∃ k p, Booted smallLink k ∧
    ((k.task p).state ≠ .unused ∧ (k.task p).state ≠ .zombie) ∧
    Contained dataFile [[104, 105]] (k.withFails []).mem ∧
    ∃ ok c', Caller.exec smallLink (some dataFile) [122] [[104, 105]]
        ((k.withFails []).caller p 0 0 [] 1) = (.ok ok, c') ∧
      (ok = true → ∃ f elf, some dataFile = some f ∧ f.elfhdr = some elf ∧
        Installed f elf [122] [[104, 105]] ((k.withFails []).caller p 0 0 [] 1) c') ∧
      (ok = false → Unchanged ((k.withFails []).caller p 0 0 [] 1) c') := by
  obtain ⟨k, p, hboot, halive, hgrants⟩ := exists_roomy
  refine ⟨k, p, hboot, halive, dataFile_contained hgrants, ?_⟩
  refine (exec_fails_cleanly hboot (.nil trivial) halive ?_).mpr ?_
  · rintro _ ⟨⟩
    exact dataFile_contained hgrants
  · rintro _ ⟨⟩
    exact dataFile_placed _

/-- After boot, an `exec` of a file whose segment does not start at a page boundary
panics. -/
theorem exec_panics : ∃ k p fails, Booted smallLink k ∧
    ((k.task p).state ≠ .unused ∧ (k.task p).state ≠ .zombie) ∧
    (Caller.exec smallLink (some skewFile) [122] []
      ((k.withFails fails).caller p 0 0 [] 1)).1 = .error .loaduvmAligned := by
  obtain ⟨k, p, hboot, hready⟩ := exists_ready
  have halive : (k.task p).state ≠ .unused ∧ (k.task p).state ≠ .zombie := by
    rw [hready.alive]
    decide
  have hlen := hready.room
  obtain ⟨e, ns, hfree⟩ := List.exists_cons_of_length_pos (l := k.mem.freelist) (by omega)
  rw [hfree, List.length_cons] at hlen
  obtain ⟨fails, himage⟩ : Exec.may Memory.withFails
      (execImage smallLink (k.task p).pgdir skewFile []) (fun _ _ => False)
      (fun e _ => e = .loaduvmAligned) k.mem := by
    refine skewFile_blank.may_execImage ((booted_sound hboot).live halive.1).owns hfree (by omega)
      fun s₁ h₁ _ => ?_
    have hbegin := Exec.can_mono (can_begin h₁) fun _ _ hs => hs.1
    unfold fillImage
    exact Exec.may_then (skewFile_blank.may_panic (by decide) hbegin) fun _ _ hf => hf.elim
  refine ⟨k, p, fails, hboot, halive,
    Exec.wp_stops (Caller.exec_of_image (E := fun e _ => e = .loaduvmAligned) ?_)⟩
  exact Exec.wp_mono himage (fun _ _ hf => hf.elim) fun _ _ he => he

/-- In every state of such a run, when `exec` of a file with proper segments gets its page tables
and returns 0, the program is the one that the file describes. -/
theorem exec_builds_image {k₀ k : Kernel} {ops : List Op} {p : Slot} {fails : List Bool}
    {eip esp ref : ℕ} {name : List UInt8} {c' : Caller} (hboot : Booted L k₀)
    (hrun : Run (MappedStep L) (fun _ => True) k₀ ops k)
    (hp : (k.task p).state ≠ .unused ∧ (k.task p).state ≠ .zombie)
    (helf : f.elfhdr = some elf) (hproper : f.Proper elf)
    (hargs : f.ArgsFit argv (k.withFails fails).mem)
    (htables : f.TablesGranted (k.withFails fails).mem)
    (hret : Caller.exec L (some f) path argv ((k.withFails fails).caller p eip esp name ref) =
      (.ok true, c')) :
    (∀ a < f.reached elf elf.phnum,
        userByte c'.mem.word c'.pgdir a = f.image elf elf.phnum a) ∧
      c'.eip = f.entry ∧
      (∀ u < pagesOf (f.reached elf elf.phnum), Present (pteAt c'.mem.word c'.pgdir u) ∧
        WriteBit (pteAt c'.mem.word c'.pgdir u) ∧ UserBit (pteAt c'.mem.word c'.pgdir u)) ∧
      ¬UserBit (pteAt c'.mem.word c'.pgdir (c'.sz / pgsize - 2)) := by
  have howns := ((sound_of_mapped_run hboot hrun).live hp.1).owns.withFails fails
  have hcov : f.Covered (k.withFails fails).mem := by
    intro elf' helf' _
    obtain rfl := Option.some.inj (helf'.symm.trans helf)
    exact hproper.storesInside _
  have hspec := Caller.exec_spec path (c := (k.withFails fails).caller p eip esp name ref) howns
    ⟨hcov, hargs, htables⟩
  obtain ⟨elf', helf', hi⟩ := (Exec.wp_ok hspec hret).2.2.1 rfl
  obtain rfl := Option.some.inj (helf'.symm.trans helf)
  refine ⟨hi.image.content, hi.eip, hi.image.writable, ?_⟩
  have hpage : c'.sz / pgsize - 2 = pagesOf (f.reached elf' elf'.phnum) := by
    rw [hi.sz]
    unfold pgsize
    omega
  rw [hpage]
  exact hi.image.guard

/-- After boot `exec` of the program with data returns 0. -/
theorem exists_exec_dataFile : ∃ k p c', Booted smallLink k ∧
    ((k.task p).state ≠ .unused ∧ (k.task p).state ≠ .zombie) ∧
    Contained dataFile [[104, 105]] (k.withFails []).mem ∧
    Caller.exec smallLink (some dataFile) [122] [[104, 105]]
      ((k.withFails []).caller p 0 0 [] 1) = (.ok true, c') := by
  obtain ⟨k, p, hboot, halive, hgrants⟩ := exists_roomy
  have hcontained := dataFile_contained hgrants
  have hspec := Caller.exec_spec [122] (c := (k.withFails []).caller p 0 0 [] 1)
    (((booted_sound hboot).live halive.1).owns.withFails []) hcontained
  have htotal : Exec.total (Caller.exec smallLink (some dataFile) [122] [[104, 105]]) _
      ((k.withFails []).caller p 0 0 [] 1) :=
    Exec.wp_mono hspec (fun _ _ hs => hs) fun _ _ hs => hs (dataFile_placed _)
  obtain ⟨ok, c', hret, -, hok, -⟩ := Exec.wp_total htotal
  rw [hok.mpr (dataFile_accepted hgrants)] at hret
  exact ⟨k, p, c', hboot, halive, hcontained, hret⟩

theorem exec_builds_image_dataFile : ∃ k p c', Booted smallLink k ∧
    ((k.task p).state ≠ .unused ∧ (k.task p).state ≠ .zombie) ∧
    Caller.exec smallLink (some dataFile) [122] [[104, 105]]
      ((k.withFails []).caller p 0 0 [] 1) = (.ok true, c') ∧
    (∀ a < dataFile.reached ⟨elfMagic, 52, 1⟩ 1,
        userByte c'.mem.word c'.pgdir a = dataFile.image ⟨elfMagic, 52, 1⟩ 1 a) ∧
      c'.eip = dataFile.entry ∧
      (∀ u < pagesOf (dataFile.reached ⟨elfMagic, 52, 1⟩ 1),
        Present (pteAt c'.mem.word c'.pgdir u) ∧ WriteBit (pteAt c'.mem.word c'.pgdir u) ∧
          UserBit (pteAt c'.mem.word c'.pgdir u)) ∧
      ¬UserBit (pteAt c'.mem.word c'.pgdir (c'.sz / pgsize - 2)) := by
  obtain ⟨k, p, c', hboot, halive, hcontained, hret⟩ := exists_exec_dataFile
  refine ⟨k, p, c', hboot, halive, hret, ?_⟩
  exact exec_builds_image hboot (.nil trivial) halive dataFile_elfhdr dataFile_proper
    hcontained.fits hcontained.tables hret

/-- After boot, an `exec` returns 0 although the only page of the program is not mapped. -/
theorem exec_leaves_page_unmapped : ∃ k p fails c', Booted smallLink k ∧
    ((k.task p).state ≠ .unused ∧ (k.task p).state ≠ .zombie) ∧
    zeroFile.elfhdr = some ⟨elfMagic, 52, 1⟩ ∧ zeroFile.Proper ⟨elfMagic, 52, 1⟩ ∧
    Caller.exec smallLink (some zeroFile) [122] [] ((k.withFails fails).caller p 0 0 [] 1) =
      (.ok true, c') ∧
    0 < pagesOf (zeroFile.reached ⟨elfMagic, 52, 1⟩ 1) ∧
    ¬Present (pteAt c'.mem.word c'.pgdir 0) := by
  obtain ⟨k, p, fails, c', hboot, halive, hret, hzero⟩ := zeroFile_blank.exists_exec [122]
  refine ⟨k, p, fails, c', hboot, halive, zeroFile_blank.header, zeroFile_proper, hret, ?_, ?_⟩
  · rw [zeroFile_reached]
    decide
  · rw [hzero]
    decide

end Vm

end Xv6
