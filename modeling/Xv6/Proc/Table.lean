import Xv6.Param
import Xv6.Support.Scan
import Mathlib.Data.List.FinRange
import Mathlib.Logic.Function.Basic

/-!
# The process table

`struct proc` and the operations of `proc.c` on the table, one definition for
each piece of code that runs with `ptable.lock` held or on a slot that only its
forking process knows.  Nothing here says which processor runs them or in which
order; that is the subject of `Xv6.Proc.Machine`.

The fields no modelled function reads (`sz`, `tf`, `name`, the open files and
the current directory) are left out.  A saved context is represented by the
place its `eip` points to, and a sleep channel by what its address belongs to:
`wait` sleeps on the address of a `struct proc`, every other sleeper on an
address outside of the table.
-/

namespace Xv6

open Support

/-- An index into `ptable.proc`, standing for the pointer to that entry. -/
abbrev Slot := Fin nproc

/-- The address of a physical page. -/
abbrev Page := ℕ

/-- `enum procstate` -/
inductive ProcState where
  | unused
  | embryo
  | sleeping
  | runnable
  | running
  | zombie
  deriving DecidableEq, Repr

/-- What a sleep channel is the address of. -/
inductive Chan where
  /-- An entry of the process table. -/
  | proc (p : Slot)
  /-- Anything else. -/
  | other (addr : ℕ)
  deriving DecidableEq, Repr

/-- Where a saved context continues. -/
inductive Context where
  /-- At the start of `forkret`. -/
  | forkret
  /-- After the `sched` of `yield`. -/
  | yield
  /-- After the `sched` of a `sleep` with a lock other than `ptable.lock`. -/
  | sleep
  /-- After the `sched` of the `sleep` in `wait`. -/
  | wait
  /-- After the `sched` of `exit`, at `panic("zombie exit")`. -/
  | exit
  deriving DecidableEq, Repr

/-- `struct proc` -/
structure Proc where
  /-- Page table. -/
  pgdir : Option Page
  /-- Bottom of the kernel stack. -/
  kstack : Option Page
  state : ProcState
  pid : ℤ
  parent : Option Slot
  /-- `swtch` here to run the process. -/
  context : Context
  /-- If not null, sleeping on it. -/
  chan : Option Chan
  /-- If set, has been killed. -/
  killed : Bool
  /-- The pass of stride scheduling. -/
  step : ℤ
  /-- Its increment at each dispatch. -/
  sizeStep : ℤ
  deriving DecidableEq, Repr

/-- An entry of the table as the kernel's zeroed memory has it. -/
def Proc.zero : Proc where
  pgdir := none
  kstack := none
  state := .unused
  pid := 0
  parent := none
  context := .forkret
  chan := none
  killed := false
  step := 0
  sizeStep := 0

/-- `ptable.proc` -/
abbrev Ptable := Slot → Proc

/-- The entries in the order of the loops over the table. -/
def slots : List Slot :=
  List.finRange nproc

@[simp] theorem mem_slots (p : Slot) : p ∈ slots :=
  List.mem_finRange p

theorem slots_sorted : slots.Pairwise (· < ·) :=
  List.pairwise_lt_finRange nproc

/-! ## Creating a process -/

/-- The `sizeStep` that `allocproc` computes from its tickets. -/
def stride (tickets : ℤ) : ℤ :=
  if tickets = 0 then 10000 / 500
  else if tickets ≤ 50 then 10000 / 50
  else if 1000 ≤ tickets then 10000 / 1000
  else 10000 / tickets

/-- The search of `allocproc` for an `UNUSED` entry. -/
def findUnused (t : Ptable) : Option Slot :=
  slots.find? fun p => (t p).state = .unused

/-- What `allocproc` does with the entry it found before it drops the lock. -/
def Proc.claim (pid : ℤ) (p : Proc) : Proc :=
  { p with state := .embryo, pid := pid }

/-- The rest of `allocproc` after `kalloc` returned a page. -/
def Proc.prepare (tickets : ℤ) (kstack : Page) (p : Proc) : Proc :=
  { p with kstack := some kstack, context := .forkret, sizeStep := stride tickets, step := 0 }

/-- The failure exit of `allocproc`, where `kalloc` has returned 0. -/
def Proc.giveUp (p : Proc) : Proc :=
  { p with kstack := none, state := .unused }

/-- The failure exit of `fork`, where `copyuvm` has returned 0. -/
def Proc.discard (p : Proc) : Proc :=
  { p with pgdir := none, kstack := none, state := .unused }

/-- What `fork` copies into the child. -/
def Proc.inherit (parent : Slot) (pgdir : Page) (p : Proc) : Proc :=
  { p with pgdir := some pgdir, parent := some parent }

/-- `p->state = RUNNABLE`, in `fork`, `userinit`, `wakeup1` and `kill`. -/
def Proc.ready (p : Proc) : Proc :=
  { p with state := .runnable }

/-! ## Sleeping and waking -/

/-- `wakeup1` -/
def wakeup1 (chan : Option Chan) (t : Ptable) : Ptable := fun p =>
  if (t p).state = .sleeping ∧ (t p).chan = chan then (t p).ready else t p

/-- The end of `sleep`. -/
def Proc.tidyUp (p : Proc) : Proc :=
  { p with chan := none }

/-- The flag that `kill` and an exception in user space set. -/
def Proc.markKilled (p : Proc) : Proc :=
  { p with killed := true }

/-- `kill`, without the lock. -/
def kill (pid : ℤ) (t : Ptable) : ℤ × Ptable :=
  match slots.find? fun p => (t p).pid = pid with
  | none => (-1, t)
  | some p =>
      let pr := (t p).markKilled
      (0, Function.update t p (if pr.state = .sleeping then pr.ready else pr))

/-! ## Exiting and waiting -/

/-- One turn of the loop of `exit` over its children. -/
def passChild (init me : Slot) (t : Ptable) (p : Slot) : Ptable :=
  if (t p).parent = some me then
    let t := Function.update t p { t p with parent := some init }
    if (t p).state = .zombie then wakeup1 (some (.proc init)) t else t
  else t

/-- What `exit` does to the table before it calls `sched`. -/
def exitTable (init me : Slot) (t : Ptable) : Ptable :=
  let t := wakeup1 ((t me).parent.map .proc) t
  let t := slots.foldl (passChild init me) t
  Function.update t me { t me with state := .zombie, context := .exit }

/-- The search of `wait` for a `ZOMBIE` child. -/
def findZombie (me : Slot) (t : Ptable) : Option Slot :=
  slots.find? fun p => (t p).parent = some me ∧ (t p).state = .zombie

/-- `havekids` at the end of the search. -/
def havekids (me : Slot) (t : Ptable) : Bool :=
  slots.any fun p => (t p).parent = some me

/-- What `wait` does with the child it found: stack and page table are freed,
the entry is recycled. -/
def Proc.reap (p : Proc) : Proc :=
  { p with kstack := none, state := .unused, pid := 0, parent := none, killed := false }

/-! ## Choosing a process -/

/-- The `min` that the stride branch of `scheduler` starts from. -/
def maxStep : ℤ := 5000000

/-- The search of the stride branch of `scheduler`. -/
def minP (t : Ptable) : Option Slot :=
  leastBelow (fun p => (t p).state = .runnable) (fun p => (t p).step) slots maxStep none

/-- What the scheduler does to the entry it chose. -/
def Proc.dispatch (p : Proc) : Proc :=
  { p with step := int32 (p.step + p.sizeStep), state := .running }

/-- What `yield`, `sleep` and `exit` do to the running process before `sched`;
the context is saved by its `swtch`. -/
def Proc.park (state : ProcState) (context : Context) (p : Proc) : Proc :=
  { p with state := state, context := context }

end Xv6
