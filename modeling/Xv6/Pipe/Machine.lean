import Mathlib.Data.List.Range
import Mathlib.Logic.Function.Basic
import Xv6.Param
import Xv6.Support.Ring
import Xv6.Support.Run

/-!
# Pipes

`pipe.c` with `sleep`, `wakeup` and `kill` of `proc.c`, for any number of processes
that share one pipe.  The code is cut into the steps between which something else
can happen: another process can set `killed` at any time, and whoever finds a lock
taken waits for it.  Both locks are part of the state, `p->lock` and `ptable.lock`.

The processes decide which function they call next; `call` is that choice.  Nothing
is assumed of it: a call may be made while others are on their way, and on a pipe
whose ends are closed.  Each process has a memory of its own, from which `pipewrite`
takes its bytes and to which `piperead` brings them.

Three fields keep a record that no code reads: the bytes that `pipewrite` has stored
and those that `piperead` has delivered, in the order in which it happened and with
the process, and the calls that have returned.
-/

namespace Xv6

namespace Pipe

open Support

/-- The range of the counters. -/
abbrev counterRange : ℕ := 4294967296

/-- What processes sleep on. -/
inductive Channel where
  /-- `&p->nread` -/
  | nread
  /-- `&p->nwrite` -/
  | nwrite
  deriving DecidableEq, Repr

/-- The arguments `addr` and `n` of `pipewrite` and `piperead`. -/
structure Args where
  addr : ℕ
  n : ℤ
  deriving DecidableEq, Repr

/-- A process that sleeps, with what it has still to do. -/
inductive Sleeper where
  /-- `pipewrite`, which has stored `i` bytes. -/
  | writer (a : Args) (i : ℕ)
  /-- `piperead`. -/
  | reader (a : Args)
  deriving DecidableEq, Repr

/-- The address passed to `sleep`. -/
def Sleeper.chan : Sleeper → Channel
  | .writer _ _ => .nwrite
  | .reader _ => .nread

/-- The functions with their arguments. -/
inductive Call where
  | write (a : Args)
  | read (a : Args)
  | close (writable : Bool)
  deriving DecidableEq, Repr

/-- Where a process is; `i` is the variable of the loop.  The flag `owed` of a writer
says whether it has stored a byte since it last woke the readers. -/
inductive Pc where
  /-- Not in one of the functions. -/
  | idle
  /-- `pipewrite`, before `acquire`. -/
  | writeEnter (a : Args)
  /-- `pipewrite`, before the tests of its loops. -/
  | writeTest (a : Args) (i : ℕ) (owed : Bool)
  /-- `pipewrite`, in the loop for a full pipe. -/
  | writeFull (a : Args) (i : ℕ) (owed : Bool)
  /-- `pipewrite`, before `wakeup` in that loop. -/
  | writeWake (a : Args) (i : ℕ)
  /-- `pipewrite`, before `sleep`. -/
  | writeSleep (a : Args) (i : ℕ)
  /-- `pipewrite`, before the last `wakeup`. -/
  | writeDone (a : Args) (i : ℕ)
  /-- `pipewrite`, before the `release` that returns -1. -/
  | abandon (a : Args) (i : ℕ)
  /-- `piperead`, before `acquire`. -/
  | readEnter (a : Args)
  /-- `piperead`, before the test for an empty pipe. -/
  | readTest (a : Args)
  /-- `piperead`, in the loop for an empty pipe. -/
  | readEmpty (a : Args)
  /-- `piperead`, before `sleep`. -/
  | readSleep (a : Args)
  /-- `piperead`, before the tests of the loop that copies. -/
  | readCopy (a : Args) (i : ℕ)
  /-- `piperead`, before `wakeup`. -/
  | readWake (a : Args) (i : ℕ)
  /-- `pipeclose`, before `acquire`. -/
  | closeEnter (writable : Bool)
  /-- `pipeclose`, before it closes the end. -/
  | close (writable : Bool)
  /-- `pipeclose`, before `wakeup`. -/
  | closeWake (writable : Bool)
  /-- Before the last `release` of the call, which returns `value` and has moved `i` bytes. -/
  | leave (c : Call) (value : ℤ) (i : ℕ)
  /-- `sleep`, with `ptable.lock` and no longer with `p->lock`. -/
  | falling (w : Sleeper)
  /-- `SLEEPING`. -/
  | asleep (w : Sleeper)
  /-- `sleep`, after `sched` has returned, before `acquire(lk)`. -/
  | woken (w : Sleeper)
  deriving DecidableEq, Repr

/-- Where a call of one of the functions starts. -/
def Call.enter : Call → Pc
  | .write a => .writeEnter a
  | .read a => .readEnter a
  | .close writable => .closeEnter writable

/-- A call that has returned. -/
structure Return where
  call : Call
  value : ℤ
  /-- The bytes at `addr` of which the call has moved each. -/
  bytes : List UInt8
  deriving DecidableEq, Repr

/-- The pipe and the processes `ι`. -/
structure State (ι : Type) where
  data : ℕ → UInt8
  nread : ℕ
  nwrite : ℕ
  readopen : Bool
  writeopen : Bool
  /-- The process that holds `p->lock`. -/
  lock : Option ι
  /-- The process that holds `ptable.lock` while it goes to sleep. -/
  ptable : Option ι
  pc : ι → Pc
  killed : ι → Bool
  /-- The memory of each process. -/
  mem : ι → ℕ → UInt8
  /-- The bytes stored so far, and by whom. -/
  stored : List (ι × UInt8)
  /-- The bytes delivered so far, and to whom. -/
  delivered : List (ι × UInt8)
  /-- The calls of each process that have returned. -/
  returned : ι → List Return

/-- What happens next. -/
inductive Act (ι : Type) where
  /-- The process calls a function. -/
  | call (q : ι) (c : Call)
  /-- The process goes on. -/
  | run (q : ι)
  /-- Someone calls `kill` for the process. -/
  | kill (q : ι)

variable {ι : Type} [DecidableEq ι]

/-- The state in which process `q` has come to `c`. -/
def State.goto (s : State ι) (q : ι) (c : Pc) : State ι :=
  { s with pc := Function.update s.pc q c }

/-- `p->nread == p->nwrite` -/
abbrev State.Empty (s : State ι) : Prop :=
  s.nread = s.nwrite

/-- `p->nwrite == p->nread + PIPESIZE` -/
abbrev State.Full (s : State ι) : Prop :=
  s.nwrite = wrap32 (s.nread + pipesize)

/-- `wakeup1` at one process. -/
def wakePc (chan : Channel) : Pc → Pc
  | .asleep w => if w.chan = chan then .woken w else .asleep w
  | c => c

/-- `wakeup`.  It needs `ptable.lock`. -/
def State.wakeup (s : State ι) (chan : Channel) : State ι :=
  { s with pc := fun q => wakePc chan (s.pc q) }

/-- `p->data[p->nwrite++ % PIPESIZE] = *x`, where `x` is an address of the process `q`. -/
def State.store (s : State ι) (q : ι) (x : ℕ) : State ι :=
  { s with
    data := Ring.put pipesize s.data s.nwrite (s.mem q x)
    nwrite := wrap32 (s.nwrite + 1)
    stored := s.stored ++ [(q, s.mem q x)] }

/-- `*x = p->data[p->nread++ % PIPESIZE]`, where `x` is an address of the process `q`. -/
def State.deliver (s : State ι) (q : ι) (x : ℕ) : State ι :=
  let b := s.data (s.nread % pipesize)
  { s with
    nread := wrap32 (s.nread + 1)
    mem := Function.update s.mem q (Function.update (s.mem q) x b)
    delivered := s.delivered ++ [(q, b)] }

/-- `acquire(&p->lock)` by `q`, which goes on at `c`. -/
def State.acquire (s : State ι) (q : ι) (c : Pc) : Option (State ι) :=
  if s.lock = none then some { s.goto q c with lock := some q } else none

/-- `wakeup(chan)` by `q`, which goes on at `c`. -/
def State.signal (s : State ι) (q : ι) (chan : Channel) (c : Pc) : Option (State ι) :=
  if s.ptable = none then some ((s.wakeup chan).goto q c) else none

/-- The first part of `sleep` by `q`: it takes `ptable.lock` and releases `p->lock`. -/
def State.park (s : State ι) (q : ι) (w : Sleeper) : Option (State ι) :=
  if s.ptable = none then some { s.goto q (.falling w) with lock := none, ptable := some q }
  else none

/-- The address of which `pipewrite` and `piperead` move the first `i` bytes. -/
def Call.addr : Call → ℕ
  | .write a => a.addr
  | .read a => a.addr
  | .close _ => 0

/-- The `i` bytes of a memory from the address `x` on. -/
def window (mem : ℕ → UInt8) (x i : ℕ) : List UInt8 :=
  (List.range i).map fun j => mem (x + j)

/-- `release(&p->lock)` by `q`, whose call `c` returns `value`. -/
def State.finish (s : State ι) (q : ι) (c : Call) (value : ℤ) (i : ℕ) : State ι :=
  { s.goto q .idle with
    lock := none
    returned := Function.update s.returned q
      (s.returned q ++ [⟨c, value, window (s.mem q) c.addr i⟩]) }

/-- The next step of the process `q`, if it is not waiting. -/
def State.advance (s : State ι) (q : ι) : Option (State ι) :=
  match s.pc q with
  | .idle => none
  -- pipewrite
  | .writeEnter a => s.acquire q (.writeTest a 0 false)
  | .writeTest a i owed =>
      if (i : ℤ) < a.n then
        if s.Full then some (s.goto q (.writeFull a i owed))
        else some ((s.store q (a.addr + i)).goto q (.writeTest a (i + 1) true))
      else some (s.goto q (.writeDone a i))
  | .writeFull a i _ =>
      if s.readopen = false ∨ s.killed q = true then some (s.goto q (.abandon a i))
      else some (s.goto q (.writeWake a i))
  | .writeWake a i => s.signal q .nread (.writeSleep a i)
  | .writeSleep a i => s.park q (.writer a i)
  | .writeDone a i => s.signal q .nread (.leave (.write a) a.n i)
  | .abandon a i => some (s.finish q (.write a) (-1) i)
  -- piperead
  | .readEnter a => s.acquire q (.readTest a)
  | .readTest a =>
      if s.Empty ∧ s.writeopen = true then some (s.goto q (.readEmpty a))
      else some (s.goto q (.readCopy a 0))
  | .readEmpty a =>
      if s.killed q = true then some (s.goto q (.leave (.read a) (-1) 0))
      else some (s.goto q (.readSleep a))
  | .readSleep a => s.park q (.reader a)
  | .readCopy a i =>
      if (i : ℤ) < a.n then
        if s.Empty then some (s.goto q (.readWake a i))
        else some ((s.deliver q (a.addr + i)).goto q (.readCopy a (i + 1)))
      else some (s.goto q (.readWake a i))
  | .readWake a i => s.signal q .nwrite (.leave (.read a) i i)
  -- pipeclose; the page is given back when both ends are closed
  | .closeEnter writable => s.acquire q (.close writable)
  | .close true => some { s.goto q (.closeWake true) with writeopen := false }
  | .close false => some { s.goto q (.closeWake false) with readopen := false }
  | .closeWake true => s.signal q .nread (.leave (.close true) 0 0)
  | .closeWake false => s.signal q .nwrite (.leave (.close false) 0 0)
  | .leave c value i => some (s.finish q c value i)
  -- sleep
  | .falling w => some { s.goto q (.asleep w) with ptable := none }
  | .asleep _ => none
  | .woken (.writer a i) => s.acquire q (.writeTest a i false)
  | .woken (.reader a) => s.acquire q (.readTest a)

/-- Wake a process from sleep if necessary. -/
def rousePc : Pc → Pc
  | .asleep w => .woken w
  | c => c

/-- `kill`. -/
def State.kill (s : State ι) (q : ι) : State ι :=
  { s.goto q (rousePc (s.pc q)) with killed := Function.update s.killed q true }

/-- One step of the system. -/
def State.step (s : State ι) : Act ι → Option (State ι)
  | .call q c => if s.pc q = .idle then some (s.goto q c.enter) else none
  | .run q => s.advance q
  | .kill q => if s.ptable = none then some (s.kill q) else none

/-- The process stays where it is, or it is woken from sleep. -/
def Roused (c c' : Pc) : Prop :=
  c' = c ∨ ∃ w, c = .asleep w ∧ c' = .woken w

theorem roused_rousePc (c : Pc) : Roused c (rousePc c) := by
  cases c with
  | asleep w => exact Or.inr ⟨w, rfl, rfl⟩
  | _ => exact Or.inl rfl

theorem roused_wakePc (chan : Channel) (c : Pc) : Roused c (wakePc chan c) := by
  cases c with
  | asleep w =>
      change Roused _ (if w.chan = chan then .woken w else .asleep w)
      split
      · exact Or.inr ⟨w, rfl, rfl⟩
      · exact Or.inl rfl
  | _ => exact Or.inl rfl

/-- A pipe after `pipealloc`, with any memory of the processes. -/
structure Fresh (s : State ι) : Prop where
  nread : s.nread = 0
  nwrite : s.nwrite = 0
  readopen : s.readopen = true
  writeopen : s.writeopen = true
  lock : s.lock = none
  ptable : s.ptable = none
  idle : ∀ q, s.pc q = .idle
  stored : s.stored = []
  delivered : s.delivered = []
  returned : ∀ q, s.returned q = []

/-- A new pipe and two processes, in whose memory each byte is its address. -/
def newPipe : State Bool where
  data := fun _ => 0
  nread := 0
  nwrite := 0
  readopen := true
  writeopen := true
  lock := none
  ptable := none
  pc := fun _ => .idle
  killed := fun _ => false
  mem := fun _ x => UInt8.ofNat x
  stored := []
  delivered := []
  returned := fun _ => []

theorem newPipe_fresh : Fresh newPipe :=
  ⟨rfl, rfl, rfl, rfl, rfl, rfl, fun _ => rfl, rfl, rfl, fun _ => rfl⟩

/-- The steps of the system as a relation. -/
def Step (s : State ι) (a : Act ι) (s' : State ι) : Prop :=
  s.step a = some s'

end Pipe

end Xv6
