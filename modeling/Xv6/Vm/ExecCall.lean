import Xv6.Vm.Segments
import Xv6.Vm.Stack

/-!
# The whole of `exec`

`exec` as the process that calls it sees it: besides the address space it changes the
registers and the name in the entry of the process, and it takes and releases the inode
of the file.  If it gives up, at any of its jumps to `bad`, all of this is as before.

What can go wrong is that the headers of the file make `loaduvm` panic or store outside of
the program, that an argument is longer than the address space, and that `allocuvm`, which
does not look at the result of `mappages`, is refused a page table.  Unless one of the last
three happens, the call of `exec` returns exactly if `loaduvm` does not have to panic.
-/

namespace Xv6

namespace Vm

open Support

variable {L : Link} {plain rest : Multiset ℕ} {f : ExecFile} {elf : Elfhdr}
  {path : List UInt8} {argv : List (List UInt8)}

/-- The process that calls `exec`, with the memory and the inode of the file. -/
structure Caller where
  mem : Memory
  pgdir : ℕ
  sz : ℕ
  /-- `tf->eip`. -/
  eip : ℕ
  /-- `tf->esp`. -/
  esp : ℕ
  name : List UInt8
  /-- `ip->ref`. -/
  ref : ℕ
  /-- The process has locked the inode. -/
  locked : Bool

abbrev CallerM := Exec Caller Panic

/-- Run a function of `kalloc.c` or `vm.c`. -/
def inMemory {α : Type} (m : PageM α) : CallerM α :=
  Exec.zoom Caller.mem (fun s c => { c with mem := s }) m

/-- `namei`, which has found the file: the process gets a reference to the inode. -/
def namei : CallerM Unit :=
  Exec.modify fun c => { c with ref := c.ref + 1 }

/-- `ilock`, when nobody else has the inode locked any more. -/
def ilock : CallerM Unit := do
  let ref ← Exec.gets Caller.ref
  if ref < 1 then Exec.throw .ilock
  else Exec.modify fun c => { c with locked := true }

/-- `iunlockput`, for an inode that has other references or links. -/
def iunlockput : CallerM Unit := do
  let c ← Exec.gets fun c => c
  if ¬c.locked ∨ c.ref < 1 then Exec.throw .iunlock
  else Exec.modify fun c => { c with locked := false, ref := c.ref - 1 }

theorem Memory.starved_of_unrecorded (s : Memory) : false = true → s.starved = true :=
  not_recorded s.starved

/-- Nothing has been recorded yet. -/
def Memory.unrecorded (s : Memory) : Memory :=
  { s with hole := false, trace := [], hole_starved := s.starved_of_unrecorded }

/-- `elf.entry`. -/
def ExecFile.entry (f : ExecFile) : ℕ :=
  f.num 24 4

/-- The loop over the path that sets `last`. -/
def lastElement : List UInt8 → List UInt8 → List UInt8
  | last, [] => last
  | last, b :: s => lastElement (if b = 47 then s else last) s

/-- `proc->name`, which has room for 16 characters. -/
def processName (path : List UInt8) : List UInt8 :=
  (lastElement path path).take 15

/-- The stack pointer of the new program. -/
def stackPointer (top : ℕ) (argv : List (List UInt8)) : ℕ :=
  let sp := argv.foldl (fun sp arg => pushed sp (arg.length + 1)) top
  wrap32 (sp + 4294967296 - (3 + argv.length + 1) * 4)

/-- `exec` from the stack on, when the segments are loaded and the file is released. -/
def Caller.finish (L : Link) (f : ExecFile) (path : List UInt8) (argv : List (List UInt8))
    (d sz : ℕ) : CallerM Bool := do
  let oldpgdir ← Exec.gets Caller.pgdir
  match ← inMemory (makeStack L oldpgdir d sz argv) with
  | none => do
      inMemory (freevm L d)
      pure false
  | some top => do
      Exec.modify fun c => { c with
        name := processName path
        pgdir := d
        sz := top
        eip := f.entry
        esp := stackPointer top argv }
      inMemory (freevm L oldpgdir)
      pure true

/-- `exec` with the file locked and the header `elf` read. -/
def Caller.load (L : Link) (f : ExecFile) (elf : Elfhdr) (path : List UInt8)
    (argv : List (List UInt8)) : CallerM Bool := do
  match ← inMemory (setupkvm L) with
  | none => do
      iunlockput
      pure false
  | some d => do
      match ← inMemory (loadSegments L d f elf.phnum elf.phoff 0) with
      | none => do
          inMemory (freevm L d)
          iunlockput
          pure false
      | some sz => do
          iunlockput
          Caller.finish L f path argv d sz

/-- `exec`, where `file` is what `namei` finds; the result is whether it returns 0. -/
def Caller.exec (L : Link) (file : Option ExecFile) (path : List UInt8)
    (argv : List (List UInt8)) : CallerM Bool :=
  match file with
  | none => pure false
  | some f => do
      namei
      ilock
      inMemory (Exec.modify Memory.unrecorded)
      match f.elfhdr with
      | none => do
          iunlockput
          pure false
      | some elf =>
          if elf.magic ≠ elfMagic then do
            iunlockput
            pure false
          else Caller.load L f elf path argv

/-! ## What it leaves behind -/

/-- `*pte & PTE_W`. -/
abbrev WriteBit (w : ℕ) : Prop := w / 2 % 2 = 1

/-- A program of size `sz` with the bytes `b`, below an inaccessible page and its stack. -/
structure ImageAt (word : ℕ → ℕ → ℕ) (d sz : ℕ) (b : ℕ → UInt8) : Prop where
  content : ∀ a < sz, userByte word d a = b a
  writable : ∀ u < pagesOf sz, Present (pteAt word d u) ∧ WriteBit (pteAt word d u) ∧
    UserBit (pteAt word d u)
  guard : ¬UserBit (pteAt word d (pagesOf sz))
  stack : Present (pteAt word d (pagesOf sz + 1)) ∧ WriteBit (pteAt word d (pagesOf sz + 1)) ∧
    UserBit (pteAt word d (pagesOf sz + 1))

/-- The new image is installed, and the inode is released. -/
structure Installed (f : ExecFile) (elf : Elfhdr) (path : List UInt8) (argv : List (List UInt8))
    (c c' : Caller) : Prop where
  image : ImageAt c'.mem.word c'.pgdir (f.reached elf elf.phnum) (f.image elf elf.phnum)
  sz : c'.sz = (pagesOf (f.reached elf elf.phnum) + 2) * pgsize
  eip : c'.eip = f.entry
  esp : c'.esp = stackPointer c'.sz argv
  name : c'.name = processName path
  inode : c'.ref = c.ref ∧ c'.locked = false

/-- Nothing has changed for the caller, and the inode is released. -/
structure Unchanged (c c' : Caller) : Prop where
  proc : c'.pgdir = c.pgdir ∧ c'.sz = c.sz ∧ c'.eip = c.eip ∧ c'.esp = c.esp ∧ c'.name = c.name
  memory : ∀ n ∈ footprint c.mem.word c.pgdir, c'.mem.word n = c.mem.word n
  inode : c'.ref = c.ref ∧ c'.locked = false

/-- An address space whose pages have not changed has the same entries. -/
theorem pteAt_of_footprint {word word' : ℕ → ℕ → ℕ} {d v : ℕ} (hv : v < kernbasePage)
    (hsame : ∀ n ∈ footprint word d, word' n = word n) : pteAt word' d v = pteAt word d v := by
  refine SameTables.pteAt_eq (fun n hn => hsame n ?_) (kernbase_lt_top hv)
  unfold footprint
  exact Multiset.mem_add.mpr (Or.inl hn)

/-- An address space whose pages have not changed has the same bytes. -/
theorem userByte_of_footprint {word word' : ℕ → ℕ → ℕ} {d a : ℕ} (hlt : a / pgsize < kernbasePage)
    (hp : Present (pteAt word d (a / pgsize)))
    (hsame : ∀ n ∈ footprint word d, word' n = word n) :
    userByte word' d a = userByte word d a := by
  obtain ⟨t, j, hat, -⟩ := exists_entryAt (s := ⟨[], word, [], false, false, [], by simp⟩) hp
  have hmem := mem_footprint_user (s := ⟨[], word, [], false, false, [], by simp⟩) hlt hat
    (hat.pteAt_eq ▸ hp)
  unfold userByte
  rw [pteAt_of_footprint hlt hsame, hsame _ (by rw [hat.pteAt_eq]; exact hmem)]

/-- An address space none of whose pages has changed. -/
theorem ImageAt.congr {word word' : ℕ → ℕ → ℕ} {d sz : ℕ} {b : ℕ → UInt8}
    (h : ImageAt word d sz b) (hsz : pagesOf sz + 2 ≤ kernbasePage)
    (hsame : ∀ n ∈ footprint word d, word' n = word n) : ImageAt word' d sz b := by
  refine ⟨fun a ha => ?_, fun u hu => ?_, ?_, ?_⟩
  · have hu : a / pgsize < pagesOf sz := by
      unfold pagesOf pgsize
      omega
    rw [← h.content a ha]
    exact userByte_of_footprint (by omega) (h.writable _ hu).1 hsame
  · rw [pteAt_of_footprint (by omega) hsame]
    exact h.writable u hu
  · rw [pteAt_of_footprint (by omega) hsame]
    exact h.guard
  · rw [pteAt_of_footprint (by omega) hsame]
    exact h.stack

theorem mkPte_writable (n : ℕ) : Present (mkPte n pteWU) ∧ WriteBit (mkPte n pteWU) ∧
    UserBit (mkPte n pteWU) := by
  refine ⟨mkPte_present n pteWU, ?_, userBit_mkPte n⟩
  change (n * 4096 + 7) / 2 % 2 = 1
  omega

theorem Stacked.imageAt {s : Memory} {w₀ : ℕ → ℕ → ℕ} {d sz : ℕ} {b : ℕ → UInt8}
    (h : Stacked L w₀ plain d (pagesOf sz) b s) : ImageAt s.word d sz b := by
  refine ⟨fun a ha => ?_, fun u hu => ?_, ?_, ?_⟩
  · refine h.content a (ha.trans_le ?_)
    unfold pagesOf pgsize
    omega
  · obtain ⟨n, hn⟩ := h.below u hu
    rw [hn]
    exact mkPte_writable n
  · obtain ⟨n, hn⟩ := h.guard
    rw [hn]
    exact not_userBit_mkPte (Or.inr rfl)
  · obtain ⟨n, hn⟩ := h.stack
    rw [hn]
    exact mkPte_writable n

/-! ## Every call returns -/

theorem iunlockput_spec {c : Caller} {Q : Unit → Caller → Prop} (hlocked : c.locked = true)
    (href : 0 < c.ref) (hQ : Q () { c with locked := false, ref := c.ref - 1 }) :
    Exec.total iunlockput Q c := by
  unfold iunlockput
  refine Exec.wp_bind.mpr (Exec.wp_gets.mpr ?_)
  rw [if_neg (by simp [hlocked]; omega)]
  exact Exec.wp_modify.mpr hQ

/-- The new address space before anything is allocated. -/
theorem Kvm.built {s : Memory} {w₀ : ℕ → ℕ → ℕ} {d : ℕ} (h : Kvm L s plain 0 d)
    (hframe : ∀ n ∈ plain, s.word n = w₀ n) :
    Built L w₀ plain d (pagesOf (f.reached elf 0)) (f.image elf 0) s := by
  have hzero : pagesOf (f.reached elf 0) = 0 := by
    rw [ExecFile.reached]
    decide
  rw [hzero]
  refine ⟨h.owns, hframe, h.kernel, ?_, fun u _ hu => h.empty u hu, ?_⟩
  · intro u hu
    exact absurd hu (Nat.not_lt_zero u)
  · intro a ha
    rw [Nat.zero_mul] at ha
    exact absurd ha (Nat.not_lt_zero a)

/-- Giving up the old address space does not touch the new one. -/
theorem freevm_apart {s : Memory} {d old : ℕ} (h : Owns L s plain (old ::ₘ d ::ₘ rest)) :
    Exec.total (Vm.freevm L old) (fun _ s' => ∀ n ∈ footprint s.word d, s'.word n = s.word n)
      s := by
  rw [← Multiset.singleton_add] at h
  refine Exec.total_mono (freevm_spec h.shelve) ?_
  rintro - s' ⟨-, hkeep⟩ n hn
  exact hkeep n (Owns.mem_shelf (Multiset.mem_cons_self d rest) hn)

theorem Stacked.freevm_old {s s₀ : Memory} {d old sz : ℕ} {b : ℕ → UInt8}
    (h₀ : Owns L s₀ plain (0 + old ::ₘ rest))
    (h : Stacked L s₀.word (plain + ((old ::ₘ rest).map (footprint s₀.word)).sum) d (pagesOf sz) b
      s) (hsz : pagesOf sz + 2 ≤ kernbasePage) :
    Exec.total (Vm.freevm L old) (fun _ s' => ImageAt s'.word d sz b) s := by
  have howns := Owns.unshelve h₀ h.owns h.frame
  have hswap : (d ::ₘ 0) + old ::ₘ rest = old ::ₘ d ::ₘ rest := by
    simp only [← Multiset.singleton_add]
    abel
  rw [hswap] at howns
  refine Exec.total_mono (freevm_apart howns) ?_
  intro _ s' hkeep
  exact h.imageAt.congr hsz hkeep

/-- When `exec` comes to the arguments, it can push them onto the stack. -/
def ExecFile.ArgsFit (f : ExecFile) (argv : List (List UInt8)) (s : Memory) : Prop :=
  ∀ elf, f.elfhdr = some elf → elf.magic = elfMagic → f.Stacks elf s →
    Pushable ((pagesOf (f.reached elf elf.phnum) + 1) * pgsize) argv 0
      ((pagesOf (f.reached elf elf.phnum) + 2) * pgsize)

/-- From the state `s` on, `exec` keeps within the new program: `loaduvm` stores into its pages,
the arguments go to its stack, and `allocuvm` gets the page tables that it asks for. -/
structure Contained (f : ExecFile) (argv : List (List UInt8)) (s : Memory) : Prop where
  covered : f.Covered s
  fits : f.ArgsFit argv s
  tables : f.TablesGranted s

/-- With the arguments `argv` the file is a program that `exec` has enough memory for. -/
def ExecFile.Accepted (f : ExecFile) (argv : List (List UInt8)) (s : Memory) : Prop :=
  ∃ elf, f.elfhdr = some elf ∧ elf.magic = elfMagic ∧ f.Stacks elf s ∧
    FitsStack ((pagesOf (f.reached elf elf.phnum) + 1) * pgsize) argv 0
      ((pagesOf (f.reached elf elf.phnum) + 2) * pgsize)

/-- The pages that are not to be touched, those of the old address space among them. -/
abbrev others (plain dirs : Multiset ℕ) (word : ℕ → ℕ → ℕ) : Multiset ℕ :=
  plain + (dirs.map (footprint word)).sum

/-- What a call of `exec` from the state `c` comes to. -/
def Outcome (f : ExecFile) (path : List UInt8) (argv : List (List UInt8)) (c : Caller) (ok : Bool)
    (c' : Caller) : Prop :=
  (ok = true → ∃ elf, f.elfhdr = some elf ∧ Installed f elf path argv c c') ∧
    (ok = false → Unchanged c c')

theorem Unchanged.outcome {c c' : Caller} (h : Unchanged c c') :
    Outcome f path argv c false c' :=
  ⟨by simp, fun _ => h⟩

/-! ## The image that `exec` makes -/

/-- The program of size `sz` with the bytes `c` in the new address space `d`, which ends at
`top`, with the arguments `argv` on its stack. -/
structure LaidOut (L : Link) (w₀ : ℕ → ℕ → ℕ) (plain : Multiset ℕ) (d sz : ℕ) (c : ℕ → UInt8)
    (argv : List (List UInt8)) (top : ℕ) (s : Memory) : Prop where
  top_eq : top = (pagesOf sz + 2) * pgsize
  top_lt : top < kernbase
  stack : ∃ addrs sp esp c', Pushes c top argv addrs sp c' ∧ sp ≤ top ∧
    (pagesOf sz + 1) * pgsize ≤ esp ∧ esp + (ustack sp addrs).length = sp ∧
    Laid L w₀ plain d (pagesOf sz) (written esp (ustack sp addrs) c') s

theorem LaidOut.stacked {w₀ : ℕ → ℕ → ℕ} {d sz top : ℕ} {c : ℕ → UInt8} {s : Memory}
    (h : LaidOut L w₀ plain d sz c argv top s) : Stacked L w₀ plain d (pagesOf sz) c s := by
  obtain ⟨addrs, sp, esp, c', hpush, -, hbase, hesp, hlaid⟩ := h.stack
  refine hlaid.stacked fun a ha => ?_
  unfold written
  rw [if_neg (by omega)]
  exact hpush.unchanged (Or.inl (by omega))

/-- The program and its stack are made, or `exec` gives up, or `loaduvm` panics. -/
theorem fillImage_laid {cur d : ℕ} {w₀ : ℕ → ℕ → ℕ} {s s₀ : Memory} (helf : f.elfhdr = some elf)
    (hmagic : elf.magic = elfMagic) (hexec : Contained f argv s₀)
    (hu : Underway L s₀ plain 0 d f elf 0 s)
    (h : Built L w₀ plain d (pagesOf (f.reached elf 0)) (f.image elf 0) s) :
    Exec.wp (fillImage L cur d f elf argv) (fun r s' => ¬f.Breaks elf s₀ ∧
      (r = none → Failed L w₀ plain d s' ∧ ¬f.Accepted argv s₀) ∧
      ∀ top, r = some top → f.Accepted argv s₀ ∧ LaidOut L w₀ plain d (f.reached elf elf.phnum)
        (f.image elf elf.phnum) argv top s') (fun _ _ => f.Breaks elf s₀) s := by
  have hin := hexec.covered elf helf hmagic
  have hgets := hexec.tables elf helf hmagic
  have hoff : wrap32 (elf.phoff + 32 * 0) = elf.phoff := by
    have hlt := f.phoff_lt helf
    exact wrap32_of_lt (by omega)
  have hload := loadSegments_built hgets hin (Nat.zero_add elf.phnum) hu h
  rw [hoff, show f.reached elf 0 = 0 by rw [ExecFile.reached]] at hload
  unfold fillImage
  refine Exec.wp_seq hload ?_ fun _ _ hbreaks => hbreaks
  rintro (_ | sz) s₁ ⟨hnone, hsome⟩
  · obtain ⟨hfailed, hstops⟩ := hnone rfl
    refine Exec.wp_pure.mpr ⟨hstops.not_breaks, fun _ => ⟨hfailed, ?_⟩, by simp⟩
    rintro ⟨elf', helf', -, hstacks, -⟩
    obtain rfl := Option.some.inj (helf'.symm.trans helf)
    exact hstops.not_stacks hstacks
  · obtain ⟨rfl, hu₁, h₁⟩ := hsome sz rfl
    have hgets₁ := (ExecFile.getsTables_iff hu₁.passed (hu₁.supplied.granted le_rfl)).mp hgets
    refine Exec.wp_mono (makeStack_laid cur h₁ hu₁.supplied hu₁.size_lt (fun a ha =>
      hin.image_above le_rfl hu₁.passed hu₁.supplied.asked.granted ha) hgets₁
        fun hroom hgrants => hexec.fits elf helf hmagic ⟨⟨hu₁.passed, hroom⟩, hgrants⟩) ?_
          fun _ _ hf => hf.elim
    rintro r s' ⟨hnone', hsome'⟩
    refine ⟨ExecFile.Whole.not_breaks hu₁.passed, fun hr => ?_, fun top hr => ?_⟩
    · obtain ⟨hfailed, hno⟩ := hnone' hr
      refine ⟨hfailed, ?_⟩
      rintro ⟨elf', helf', -, hstacks, hfits⟩
      obtain rfl := Option.some.inj (helf'.symm.trans helf)
      exact hno ⟨hstacks.room, hstacks.granted, hfits⟩
    · obtain ⟨hstackable, htop, hstack⟩ := hsome' top hr
      refine ⟨⟨elf, helf, hmagic, ⟨⟨hu₁.passed, hstackable.room⟩, hstackable.granted⟩,
        hstackable.fits⟩, htop, ?_, hstack⟩
      rw [htop]
      exact hstackable.room

/-- The address spaces in `dirs` are left alone, the new one is filled or given back. -/
theorem execImage_laid {cur : ℕ} {dirs : Multiset ℕ} {s : Memory} (h : Owns L s plain (0 + dirs))
    (hexec : Contained f argv s) :
    Exec.wp (execImage L cur f argv) (fun r s' => f.Placed s ∧
      (r = none → ¬f.Accepted argv s ∧ Owns L s' (others plain dirs s.word) 0 ∧
        ∀ n ∈ others plain dirs s.word, s'.word n = s.word n) ∧
      ∀ d top, r = some (d, top) → f.Accepted argv s ∧ ∃ elf, f.elfhdr = some elf ∧
        LaidOut L s.word (others plain dirs s.word) d (f.reached elf elf.phnum)
          (f.image elf elf.phnum) argv top s') (fun _ _ => ¬f.Placed s) s := by
  have h₁ : Owns L { s with hole := false, trace := [], hole_starved := by simp }
      (others plain dirs s.word) 0 := h.shelve.move (fun _ _ _ _ => rfl) rfl rfl
  unfold execImage
  refine Exec.wp_bind.mpr (Exec.wp_modify.mpr ?_)
  cases helf : f.elfhdr with
  | none =>
      have hno : ∀ elf, f.elfhdr ≠ some elf := by
        rw [helf]
        simp
      refine Exec.wp_pure.mpr ⟨fun elf helf' => absurd helf' (hno elf), fun _ => ⟨?_, h₁,
        fun _ _ => rfl⟩, by simp⟩
      rintro ⟨elf, helf', -⟩
      exact hno elf helf'
  | some elf =>
      have hplaced : f.Placed s ↔ (elf.magic = elfMagic → ¬f.Breaks elf s) := by
        unfold ExecFile.Placed
        rw [helf]
        simp
      rw [hplaced]
      simp only
      split
      · rename_i hmagic
        refine Exec.wp_pure.mpr ⟨fun hm => absurd hm hmagic, fun _ => ⟨?_, h₁, fun _ _ => rfl⟩,
          by simp⟩
        rintro ⟨elf', helf', hm, -⟩
        obtain rfl := Option.some.inj (helf'.symm.trans helf)
        exact hmagic hm
      · rename_i hmagic
        rw [not_not] at hmagic
        refine Exec.wp_seq (Exec.wp_and (setupkvm_extends h₁) (setupkvm_underway f elf h₁
          ((Asked.refl s).congr rfl rfl) rfl)) ?_ fun _ _ hf => hf.1.elim
        rintro (_ | d) s₂ ⟨⟨⟨hkeep, -⟩, hnone, hsome⟩, -, hrefused, hunder⟩
        · have hno : ∀ m, ¬s.Grants (requests m) := by
            intro m hgrants
            refine hrefused rfl (hgrants.mono ?_)
            unfold requests
            omega
          refine Exec.wp_pure.mpr ⟨fun _ => ?_, fun _ => ⟨?_, hnone rfl, hkeep⟩, by simp⟩
          · rintro ⟨i, ph, hloads, -⟩
            exact hno _ hloads.granted
          · rintro ⟨elf', -, -, hstacks, -⟩
            exact hno _ hstacks.granted
        · refine Exec.wp_seq (fillImage_laid helf hmagic hexec (hunder d rfl)
            ((hsome d rfl).built hkeep)) ?_ fun _ _ hbreaks hp => hp hmagic hbreaks
          rintro (_ | top) s₃ ⟨hbreaks, hnone, hsome⟩
          · obtain ⟨hfailed, hno⟩ := hnone rfl
            refine Exec.wp_seq (freevm_spec hfailed.owns) ?_ fun _ _ hf => hf.elim
            rintro - s₄ ⟨h₄, hkeep₄⟩
            refine Exec.wp_pure.mpr ⟨fun _ => hbreaks, fun _ => ⟨hno, h₄, fun n hn => ?_⟩, by simp⟩
            exact (hkeep₄ n hn).trans (hfailed.frame n hn)
          · refine Exec.wp_pure.mpr ⟨fun _ => hbreaks, by simp, ?_⟩
            rintro _ _ ⟨⟩
            obtain ⟨haccepted, hlaid⟩ := hsome top rfl
            exact ⟨haccepted, elf, rfl, hlaid⟩

/-! ## The image is that of `execImage` -/

/-- The caller after `exec` has committed to the image. -/
def Caller.committed (c : Caller) (f : ExecFile) (path : List UInt8) (argv : List (List UInt8))
    (d top : ℕ) (s : Memory) : Caller :=
  { c with
    mem := s
    name := processName path
    pgdir := d
    sz := top
    eip := f.entry
    esp := stackPointer top argv
    locked := false }

/-- `exec` does to memory what `execImage` does, followed by `freevm` for the old address
space if there is a new one. -/
theorem Caller.exec_of_image {c : Caller} {Q : Bool → Caller → Prop} {E : Panic → Memory → Prop}
    (h : Exec.wp (execImage L c.pgdir f argv) (fun r s =>
      (r = none → Q false { c with mem := s, locked := false }) ∧
      ∀ d top, r = some (d, top) → Exec.wp (freevm L c.pgdir)
        (fun _ s' => Q true (c.committed f path argv d top s')) E s) E c.mem) :
    Exec.wp (Caller.exec L (some f) path argv) Q (fun e c' => E e c'.mem) c := by
  have hput : ∀ {c₁ : Caller} {k : Unit → CallerM Bool}, c₁.locked = true → c₁.ref = c.ref + 1 →
      Exec.wp (k ()) Q (fun e c' => E e c'.mem) { c₁ with locked := false, ref := c.ref } →
      Exec.wp (iunlockput >>= k) Q (fun e c' => E e c'.mem) c₁ := by
    intro c₁ k hlocked href hk
    refine Exec.wp_seq (iunlockput_spec (Q := fun _ c' => c' = { c₁ with
      locked := false
      ref := c.ref }) hlocked (by omega) ?_) ?_ fun _ _ hf => hf.elim
    · rw [href, Nat.add_sub_cancel]
    · rintro - _ rfl
      exact hk
  unfold execImage at h
  have h := Exec.wp_modify.mp (Exec.wp_bind.mp h)
  unfold Caller.exec namei ilock
  refine Exec.wp_bind.mpr (Exec.wp_modify.mpr (Exec.wp_bind.mpr (Exec.wp_bind.mpr
    (Exec.wp_gets.mpr ?_))))
  rw [if_neg (by simp)]
  refine Exec.wp_modify.mpr (Exec.wp_bind.mpr (Exec.wp_zoom.mpr (Exec.wp_modify.mpr ?_)))
  cases helf : f.elfhdr with
  | none =>
      rw [helf] at h
      exact hput rfl rfl (Exec.wp_pure.mpr ((Exec.wp_pure.mp h).1 rfl))
  | some elf =>
      rw [helf] at h
      simp only at h ⊢
      split
      · rename_i hmagic
        rw [if_pos hmagic] at h
        exact hput rfl rfl (Exec.wp_pure.mpr ((Exec.wp_pure.mp h).1 rfl))
      · rename_i hmagic
        rw [if_neg hmagic] at h
        unfold Caller.load
        refine Exec.wp_bind.mpr (Exec.wp_zoom.mpr (Exec.wp_mono (Exec.wp_bind.mp h) ?_
          fun _ _ hE => hE))
        rintro (_ | d) s₁ h₁
        · exact hput rfl rfl (Exec.wp_pure.mpr ((Exec.wp_pure.mp h₁).1 rfl))
        · unfold fillImage at h₁
          refine Exec.wp_bind.mpr (Exec.wp_zoom.mpr (Exec.wp_mono
            (Exec.wp_bind.mp (Exec.wp_bind.mp h₁)) ?_ fun _ _ hE => hE))
          rintro (_ | sz) s₂ h₂
          · have hfree := Exec.wp_pure.mp h₂
            have h₂ := Exec.wp_bind.mp hfree
            refine Exec.wp_bind.mpr (Exec.wp_zoom.mpr (Exec.wp_mono h₂ ?_ fun _ _ hE => hE))
            intro _ s₃ h₃
            exact hput rfl rfl (Exec.wp_pure.mpr ((Exec.wp_pure.mp h₃).1 rfl))
          · refine hput rfl rfl ?_
            unfold Caller.finish
            refine Exec.wp_bind.mpr (Exec.wp_gets.mpr (Exec.wp_bind.mpr (Exec.wp_zoom.mpr
              (Exec.wp_mono h₂ ?_ fun _ _ hE => hE))))
            rintro (_ | top) s₃ h₃
            · have h₃ := Exec.wp_bind.mp h₃
              refine Exec.wp_bind.mpr (Exec.wp_zoom.mpr (Exec.wp_mono h₃ ?_ fun _ _ hE => hE))
              intro _ s₄ h₄
              exact Exec.wp_pure.mpr ((Exec.wp_pure.mp h₄).1 rfl)
            · have h₃ := (Exec.wp_pure.mp h₃).2 d top rfl
              refine Exec.wp_bind.mpr (Exec.wp_modify.mpr (Exec.wp_bind.mpr (Exec.wp_zoom.mpr
                (Exec.wp_mono h₃ ?_ fun _ _ hE => hE))))
              intro _ s₄ h₄
              exact Exec.wp_pure.mpr h₄

/-- `exec` returns, with the new image or with everything as before, exactly if `loaduvm` does not
have to panic; and it returns 0 exactly if the program is accepted. -/
theorem Caller.exec_spec (path : List UInt8) {c : Caller} (h : Owns L c.mem plain (c.pgdir ::ₘ rest))
    (hexec : Contained f argv c.mem) :
    Exec.wp (Caller.exec L (some f) path argv)
      (fun ok c' => f.Placed c.mem ∧ (ok = true ↔ f.Accepted argv c.mem) ∧
        Outcome f path argv c ok c')
      (fun _ _ => ¬f.Placed c.mem) c := by
  have h₀ : Owns L c.mem plain (0 + c.pgdir ::ₘ rest) := by
    rw [zero_add]
    exact h
  refine Caller.exec_of_image (E := fun _ _ => ¬f.Placed c.mem)
    (Exec.wp_mono (execImage_laid h₀ hexec) ?_ fun _ _ hs => hs)
  rintro r s ⟨hplaced, hnone, hsome⟩
  refine ⟨fun hr => ?_, fun d top hr => ?_⟩
  · obtain ⟨hno, -, hkeep⟩ := hnone hr
    refine ⟨hplaced, iff_of_false (by simp) hno, Unchanged.outcome ⟨⟨rfl, rfl, rfl, rfl, rfl⟩,
      fun n hn => ?_, rfl, rfl⟩⟩
    exact hkeep n (Owns.mem_shelf (Multiset.mem_cons_self _ _) hn)
  · obtain ⟨haccepted, elf, helf, hlaid⟩ := hsome d top hr
    have hfits : pagesOf (f.reached elf elf.phnum) + 2 ≤ kernbasePage := by
      have hlt := hlaid.top_lt
      rw [hlaid.top_eq] at hlt
      unfold kernbase kernbasePage pgsize at *
      omega
    refine Exec.wp_mono (hlaid.stacked.freevm_old h₀ hfits) ?_ fun _ _ hf => hf.elim
    intro _ s' himage
    refine ⟨hplaced, iff_of_true rfl haccepted, fun _ => ⟨elf, helf, ?_⟩, by simp⟩
    exact ⟨himage, hlaid.top_eq, rfl, rfl, rfl, rfl, rfl⟩

end Vm

end Xv6
