import Xv6.Proc.Table
import Xv6.Vm.Exec

/-!
# Processes and pipes as owners of pages

The calls that obtain and give back pages: `fork`, `exit`, `wait` and `growproc`
of `proc.c`, the end of `exec`, `pipealloc` and `pipeclose` of `pipe.c` with the
file table above them, and `main` up to the first process.

Of a process only what these calls read is kept, and of the file table only
pipes, since no other file owns a page.  What a kernel stack or a pipe holds is
left out apart from the two flags of the pipe.  A store of a program into its own
memory is a step like the others, since `exec` may read what it has stored.
-/

namespace Xv6

namespace Vm

open Support

/-- `NFILE`, the size of the file table. -/
abbrev nfile : ℕ := 100

/-- `struct proc` -/
structure Task where
  state : ProcState
  parent : Option Slot
  kstack : ℕ
  pgdir : ℕ
  sz : ℕ
  ofile : Fin nofile → Option (Fin nfile)

/-- `struct file`: the type is `FD_NONE` or `FD_PIPE`. -/
structure File where
  ref : ℕ
  pipe : Option ℕ
  writable : Bool

/-- The parts of the kernel that hold pages. -/
structure Kernel where
  mem : Memory
  /-- `ptable.proc`. -/
  task : Slot → Task
  initproc : Slot
  /-- `ftable.file`. -/
  file : Fin nfile → File
  /-- `writeopen` (for `true`) and `readopen` of the pipe in a page. -/
  endOpen : ℕ → Bool → Bool
  kpgdir : ℕ
  /-- The stacks that `startothers` gives to the other processors. -/
  cpuStacks : List ℕ

/-- Kernel code above physical memory. -/
abbrev KernelM := Exec Kernel Panic

/-- Run a function of `kalloc.c` or `vm.c`. -/
def onMemory {α : Type} (m : PageM α) : KernelM α :=
  Exec.zoom Kernel.mem (fun s k => { k with mem := s }) m

/-- Change one entry of the process table. -/
def setTask (p : Slot) (f : Task → Task) : KernelM Unit :=
  Exec.modify fun k => { k with task := Function.update k.task p (f (k.task p)) }

/-- Change one entry of the file table. -/
def setFile (i : Fin nfile) (f : File → File) : KernelM Unit :=
  Exec.modify fun k => { k with file := Function.update k.file i (f (k.file i)) }

/-! ## Files and pipes -/

/-- `filealloc`. -/
def filealloc : KernelM (Option (Fin nfile)) := do
  match ← Exec.gets fun k => (List.finRange nfile).find? fun i => (k.file i).ref = 0 with
  | none => pure none
  | some i => do
      setFile i fun f => { f with ref := 1 }
      pure (some i)

/-- `filedup`. -/
def filedup (i : Fin nfile) : KernelM Unit := do
  let f ← Exec.gets fun k => k.file i
  if f.ref < 1 then Exec.throw .filedup
  else setFile i fun f => { f with ref := f.ref + 1 }

/-- Set the flags of the pipe in the page `p`. -/
def setEnds (p : ℕ) (f : (Bool → Bool) → Bool → Bool) : KernelM Unit :=
  Exec.modify fun k => { k with endOpen := Function.update k.endOpen p (f (k.endOpen p)) }

/-- `pipeclose`. -/
def pipeclose (L : Link) (p : ℕ) (writable : Bool) : KernelM Unit := do
  setEnds p fun ends => Function.update ends writable false
  let ends ← Exec.gets fun k => k.endOpen p
  if ends false = false ∧ ends true = false then onMemory (kfree L p) else pure ()

/-- `fileclose`. -/
def fileclose (L : Link) (i : Fin nfile) : KernelM Unit := do
  let ff ← Exec.gets fun k => k.file i
  if ff.ref < 1 then Exec.throw .fileclose
  else do
    setFile i fun f => { f with ref := f.ref - 1 }
    if 0 < ff.ref - 1 then pure ()
    else do
      setFile i fun f => { f with ref := 0, pipe := none }
      match ff.pipe with
      | none => pure ()
      | some p => pipeclose L p ff.writable

/-- `pipealloc`: the reading and the writing end. -/
def pipealloc (L : Link) : KernelM (Option (Fin nfile × Fin nfile)) := do
  match ← filealloc with
  | none => pure none
  | some f0 => do
      match ← filealloc with
      | none => do
          fileclose L f0
          pure none
      | some f1 => do
          match ← onMemory kalloc with
          | none => do
              fileclose L f0
              fileclose L f1
              pure none
          | some p => do
              setEnds p fun _ _ => true
              setFile f0 fun f => { f with pipe := some p, writable := false }
              setFile f1 fun f => { f with pipe := some p, writable := true }
              pure (some (f0, f1))

/-- `fdalloc` in the process `p`. -/
def fdalloc (p : Slot) (i : Fin nfile) : KernelM (Option (Fin nofile)) := do
  match ← Exec.gets fun k => (List.finRange nofile).find? fun fd => (k.task p).ofile fd = none with
  | none => pure none
  | some fd => do
      setTask p fun t => { t with ofile := Function.update t.ofile fd (some i) }
      pure (some fd)

/-- `sys_pipe`. -/
def sysPipe (L : Link) (p : Slot) : KernelM Unit := do
  match ← pipealloc L with
  | none => pure ()
  | some (rf, wf) => do
      match ← fdalloc p rf with
      | none => do
          fileclose L rf
          fileclose L wf
      | some fd0 => do
          match ← fdalloc p wf with
          | none => do
              setTask p fun t => { t with ofile := Function.update t.ofile fd0 none }
              fileclose L rf
              fileclose L wf
          | some _ => pure ()

/-- `sys_close`. -/
def sysClose (L : Link) (p : Slot) (fd : Fin nofile) : KernelM Unit := do
  match ← Exec.gets fun k => (k.task p).ofile fd with
  | none => pure ()
  | some i => do
      setTask p fun t => { t with ofile := Function.update t.ofile fd none }
      fileclose L i

/-- `sys_dup`. -/
def sysDup (p : Slot) (fd : Fin nofile) : KernelM Unit := do
  match ← Exec.gets fun k => (k.task p).ofile fd with
  | none => pure ()
  | some i => do
      match ← fdalloc p i with
      | none => pure ()
      | some _ => filedup i

/-! ## Processes -/

/-- `allocproc`. -/
def allocproc : KernelM (Option Slot) := do
  match ← Exec.gets fun k => (List.finRange nproc).find? fun p => (k.task p).state = .unused with
  | none => pure none
  | some p => do
      setTask p fun t => { t with state := .embryo }
      match ← onMemory kalloc with
      | none => do
          setTask p fun t => { t with state := .unused }
          pure none
      | some n => do
          setTask p fun t => { t with kstack := n }
          pure (some p)

/-- `fork` by the process `p`. -/
def fork (L : Link) (p : Slot) : KernelM Unit := do
  match ← allocproc with
  | none => pure ()
  | some np => do
      let parent ← Exec.gets fun k => k.task p
      match ← onMemory (copyuvm L parent.pgdir parent.sz) with
      | none => do
          setTask np fun t => { t with pgdir := 0 }
          let child ← Exec.gets fun k => k.task np
          onMemory (kfree L child.kstack)
          setTask np fun t => { t with kstack := 0, state := .unused }
      | some d => do
          setTask np fun t => { t with pgdir := d, sz := parent.sz, parent := some p }
          Exec.each (fun fd =>
            match parent.ofile fd with
            | none => pure ()
            | some i => do
                filedup i
                setTask np fun t => { t with ofile := Function.update t.ofile fd (some i) })
            (List.finRange nofile)
          setTask np fun t => { t with state := .runnable }

/-- Pass a child of `p` on to `init`. -/
def Task.reparent (p init : Slot) (t : Task) : Task :=
  if t.parent = some p then { t with parent := some init } else t

/-- `exit` by the process `p`. -/
def exit (L : Link) (p : Slot) : KernelM Unit := do
  let init ← Exec.gets fun k => k.initproc
  if p = init then Exec.throw .initExiting
  else do
    Exec.each (fun fd => do
      match ← Exec.gets fun k => (k.task p).ofile fd with
      | none => pure ()
      | some i => do
          fileclose L i
          setTask p fun t => { t with ofile := Function.update t.ofile fd none })
      (List.finRange nofile)
    Exec.modify fun k => { k with task := fun q => (k.task q).reparent p init }
    setTask p fun t => { t with state := .zombie }

/-- `wait` by the process `p`, up to the point where it returns or sleeps. -/
def wait (L : Link) (p : Slot) : KernelM Unit := do
  match ← Exec.gets fun k => (List.finRange nproc).find? fun q =>
      (k.task q).parent = some p ∧ (k.task q).state = .zombie with
  | none => pure ()
  | some q => do
      let child ← Exec.gets fun k => k.task q
      onMemory (kfree L child.kstack)
      onMemory (freevm L child.pgdir)
      setTask q fun t => { t with kstack := 0, state := .unused, parent := none }

/-- `growproc` by the process `p`. -/
def growproc (L : Link) (p : Slot) (n : ℤ) : KernelM ℤ := do
  let t ← Exec.gets fun k => k.task p
  if 0 < n then do
    let sz ← onMemory (allocuvm L t.pgdir t.sz (uint32 (t.sz + n)))
    if sz = 0 then pure (-1)
    else do
      setTask p fun t => { t with sz := sz }
      pure 0
  else if n < 0 then do
    let sz ← onMemory (deallocuvm L t.pgdir t.sz (uint32 (t.sz + n)))
    if sz = 0 then pure (-1)
    else do
      setTask p fun t => { t with sz := sz }
      pure 0
  else pure 0

/-- `exec` by the process `p`. -/
def exec (L : Link) (p : Slot) (f : ExecFile) (argv : List (List UInt8)) : KernelM Unit := do
  let t ← Exec.gets fun k => k.task p
  match ← onMemory (execImage L t.pgdir f argv) with
  | none => pure ()
  | some (d, sz) => do
      setTask p fun t => { t with pgdir := d, sz := sz }
      onMemory (freevm L t.pgdir)

/-- The program of the process `p` stores the word `w` at word `i` of its virtual
page `v`. -/
def store (p : Slot) (v i w : ℕ) : KernelM Unit := do
  let t ← Exec.gets fun k => k.task p
  match ← onMemory (walkpgdir t.pgdir v false) with
  | none => pure ()
  | some (n, j) => do
      let pte ← Exec.gets fun k => k.mem.word n j
      if v < topPage ∧ Present pte ∧ UserBit pte then onMemory (setWord (ptePage pte) i w)
      else pure ()

/-! ## Boot -/

/-- `freerange` over `k` pages from `n` on. -/
def freerange (L : Link) : ℕ → ℕ → PageM Unit
  | 0, _ => pure ()
  | k + 1, n => do
      kfree L n
      freerange L k (n + 1)

/-- `startothers`, for the `k` processors other than the first. -/
def startothers : ℕ → KernelM Unit
  | 0 => pure ()
  | k + 1 => do
      match ← onMemory kalloc with
      | none => startothers k
      | some n => do
          Exec.modify fun s => { s with cpuStacks := n :: s.cpuStacks }
          startothers k

/-- `userinit`, with the contents `init` of the first page of `initcode`. -/
def userinit (L : Link) (init : ℕ → ℕ) : KernelM Unit := do
  match ← allocproc with
  | none => Exec.throw .trap
  | some p => do
      Exec.modify fun k => { k with initproc := p }
      match ← onMemory (setupkvm L) with
      | none => Exec.throw .userinit
      | some d => do
          onMemory (inituvm d init)
          setTask p fun t => { t with pgdir := d, sz := pgsize, state := .runnable }

/-- `main` up to the start of the scheduler: `kinit1`, `kvmalloc`, `startothers`,
`kinit2` and `userinit`. -/
def main (L : Link) (ncpu : ℕ) (init : ℕ → ℕ) : KernelM Unit := do
  onMemory (freerange L (1024 - L.kend) L.kend)
  match ← onMemory (setupkvm L) with
  | none => Exec.throw .trap
  | some d => do
      Exec.modify fun k => { k with kpgdir := d }
      startothers (ncpu - 1)
      onMemory (freerange L (phystopPage - 1024) 1024)
      userinit L init

/-- The kernel before `main`, with memory as it happens to be. -/
def powerOn (word : ℕ → ℕ → ℕ) (fails : List Bool) : Kernel where
  mem := ⟨[], word, fails, false, false, [], by simp⟩
  task := fun _ => ⟨.unused, none, 0, 0, 0, fun _ => none⟩
  initproc := ⟨0, by decide⟩
  file := fun _ => ⟨0, none, false⟩
  endOpen := fun _ _ => false
  kpgdir := 0
  cpuStacks := []

/-- The states after boot. -/
def Booted (L : Link) (k : Kernel) : Prop :=
  ∃ word fails ncpu init, main L ncpu init (powerOn word fails) = (.ok (), k)

/-! ## Runs -/

/-- A call by a process, or a store by its program. -/
inductive Op where
  | fork (p : Slot)
  | exec (p : Slot) (f : ExecFile) (argv : List (List UInt8))
  | growproc (p : Slot) (n : ℤ)
  | exit (p : Slot)
  | wait (p : Slot)
  | pipe (p : Slot)
  | close (p : Slot) (fd : Fin nofile)
  | dup (p : Slot) (fd : Fin nofile)
  | store (p : Slot) (v i w : ℕ)

/-- Who makes the call. -/
def Op.proc : Op → Slot
  | .fork p | .exec p _ _ | .growproc p _ | .exit p | .wait p | .pipe p | .close p _
  | .dup p _ | .store p _ _ _ => p

/-- What the call does. -/
def perform (L : Link) : Op → KernelM Unit
  | .fork p => fork L p
  | .exec p f argv => exec L p f argv
  | .growproc p n => do
      let _ ← growproc L p n
      pure ()
  | .exit p => exit L p
  | .wait p => wait L p
  | .pipe p => sysPipe L p
  | .close p fd => sysClose L p fd
  | .dup p fd => sysDup p fd
  | .store p v i w => store p v i w

/-- The same kernel with other failures of `kalloc` ahead. -/
def Kernel.withFails (fails : List Bool) (k : Kernel) : Kernel :=
  { k with mem := k.mem.withFails fails }

/-- A call that does not panic, with failures of `kalloc` anywhere. -/
structure Step (L : Link) (k : Kernel) (op : Op) (k' : Kernel) : Prop where
  alive : (k.task op.proc).state ≠ .unused ∧ (k.task op.proc).state ≠ .zombie
  returns : ∃ fails, perform L op (k.withFails fails) = (.ok (), k')

end Vm

end Xv6
