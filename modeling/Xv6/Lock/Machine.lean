import Xv6.Proc.Table
import Xv6.Support.Run

/-!
# Locks, interrupts and context switches

`spinlock.c`, and what `proc.c` does to the fields `ncli` and `intena` of a processor when
it switches between processes.  Any number of processors run `scheduler()` and any number
of processes.  In the kernel a process does whatever it likes with locks, as long as it
releases only what it has acquired, and calls `sched` with nothing but `ptable.lock` held;
interrupt handlers run on top of whatever they interrupt, also on top of the scheduler, and
do the same.  Everything else that the kernel does is left out.

A step is made by one processor.  `acquire` is two steps, since others go on while it
spins.  In `pushcli` an interrupt between `readeflags` and `cli` changes nothing, so that
it is one step; with interrupts off, `release` is one as well.
-/

namespace Xv6

namespace Lock

/-- The locks. -/
inductive LockId where
  /-- `ptable.lock` -/
  | ptable
  /-- Any other. -/
  | other (k : ℕ)
  deriving DecidableEq, Repr

/-- `struct spinlock` -/
structure Spinlock (n : ℕ) where
  locked : Bool
  /-- The processor that holds the lock. -/
  cpu : Option (Fin n)

/-- Where the scheduler of a processor is. -/
inductive Pc where
  /-- At the top of its loop, before `sti`. -/
  | top
  /-- Before `acquire(&ptable.lock)`. -/
  | lock
  /-- With the lock, before or after a switch to a process. -/
  | scan
  deriving DecidableEq, Repr

/-- The part of `struct cpu` that matters here, with the interrupt flag and the place in
`scheduler`. -/
structure Cpu where
  /-- Depth of `pushcli` nesting. -/
  ncli : ℤ
  /-- Were interrupts enabled before `pushcli`? -/
  intena : Bool
  /-- `FL_IF` in `eflags`. -/
  flag : Bool
  /-- The process that runs, if it is not the scheduler. -/
  proc : Option ℕ
  pc : Pc

/-- Where a process continues when it is switched to. -/
inductive Place where
  /-- At the start of `forkret`. -/
  | forkret
  /-- In `sched`, after `swtch`. -/
  | sched
  /-- It has continued. -/
  | gone
  deriving DecidableEq, Repr

/-- What is on the stack of a kernel thread. -/
structure Thread where
  /-- The calls of `pushcli` without their `popcli`, each with the lock it was for. -/
  held : List (Option LockId)
  /-- The lock that `acquire` waits for. -/
  spin : Option LockId
  /-- What was entered by interrupts and system calls: the depth then, and the interrupt flag
  that `iret` restores.  The kernel stack of a process in user space has none. -/
  frames : List (ℕ × Bool)
  /-- Whether interrupts were enabled at the outermost `pushcli`; nothing reads this. -/
  outer : Option Bool

/-- How often a thread has called `pushcli` without `popcli`. -/
def Thread.depth (t : Thread) : ℕ :=
  t.held.length + t.spin.toList.length

/-- A process. -/
structure Process where
  state : ProcState
  place : Place
  /-- The local variable `intena` of `sched`. -/
  intena : Bool

/-- A kernel thread: the scheduler of a processor, or a process. -/
inductive ThreadId (n : ℕ) where
  | scheduler (c : Fin n)
  | process (p : ℕ)
  deriving DecidableEq

/-- The state of the machine. -/
structure State (n : ℕ) where
  cpu : Fin n → Cpu
  lock : LockId → Spinlock n
  thread : ThreadId n → Thread
  process : ℕ → Process

/-- The calls of `panic` in the modelled code. -/
inductive Panic where
  | acquire
  | release
  | popcliInterruptible
  | popcli
  | schedPtableLock
  | schedLocks
  | schedRunning
  | schedInterruptible
  deriving DecidableEq, Repr

/-- What a processor does next. -/
inductive Action where
  /-- Code in a process or a handler calls `acquire`. -/
  | acquire (lk : LockId)
  /-- The loop in `acquire` ends. -/
  | take
  /-- Code in a process or a handler calls `release`. -/
  | release (lk : LockId)
  /-- Code in a process or a handler calls `pushcli`. -/
  | pushcli
  /-- Code in a process or a handler calls `popcli`. -/
  | popcli
  /-- The process sets its state and calls `sched`. -/
  | sched (state : ProcState)
  /-- The process goes on after it has been switched to. -/
  | resume
  /-- An interrupt. -/
  | interrupt
  /-- The process in user space enters the kernel by itself. -/
  | trap
  /-- A handler or a system call returns. -/
  | iret
  /-- The scheduler calls `sti`. -/
  | sti
  /-- The scheduler acquires `ptable.lock`. -/
  | lock
  /-- The scheduler switches to a process. -/
  | dispatch (p : ℕ)
  /-- The scheduler releases `ptable.lock`. -/
  | unlock
  /-- Someone makes a sleeping process `RUNNABLE`. -/
  | wakeup (p : ℕ)
  /-- Someone reaps a zombie. -/
  | reap (p : ℕ)
  /-- Someone fills an entry of the table with a new process. -/
  | create (p : ℕ)

namespace State

variable {n : ℕ}

/-- The thread that processor `c` runs. -/
def current (s : State n) (c : Fin n) : ThreadId n :=
  match (s.cpu c).proc with
  | none => .scheduler c
  | some p => .process p

/-- Assign to a processor. -/
def setCpu (s : State n) (c : Fin n) (x : Cpu) : State n :=
  { s with cpu := Function.update s.cpu c x }

/-- Assign to a lock. -/
def setLock (s : State n) (lk : LockId) (x : Spinlock n) : State n :=
  { s with lock := Function.update s.lock lk x }

/-- Change the stack of a thread. -/
def setThread (s : State n) (t : ThreadId n) (x : Thread) : State n :=
  { s with thread := Function.update s.thread t x }

/-- Assign to a process. -/
def setProcess (s : State n) (p : ℕ) (x : Process) : State n :=
  { s with process := Function.update s.process p x }

section

variable (s : State n) (c : Fin n) (x : Cpu)

@[simp] theorem setCpu_cpu : (s.setCpu c x).cpu = Function.update s.cpu c x := rfl
@[simp] theorem setCpu_lock : (s.setCpu c x).lock = s.lock := rfl
@[simp] theorem setCpu_thread : (s.setCpu c x).thread = s.thread := rfl
@[simp] theorem setCpu_process : (s.setCpu c x).process = s.process := rfl

end

section

variable (s : State n) (lk : LockId) (x : Spinlock n)

@[simp] theorem setLock_cpu : (s.setLock lk x).cpu = s.cpu := rfl
@[simp] theorem setLock_lock : (s.setLock lk x).lock = Function.update s.lock lk x := rfl
@[simp] theorem setLock_thread : (s.setLock lk x).thread = s.thread := rfl
@[simp] theorem setLock_process : (s.setLock lk x).process = s.process := rfl

end

section

variable (s : State n) (t : ThreadId n) (x : Thread)

@[simp] theorem setThread_cpu : (s.setThread t x).cpu = s.cpu := rfl
@[simp] theorem setThread_lock : (s.setThread t x).lock = s.lock := rfl
@[simp] theorem setThread_thread : (s.setThread t x).thread = Function.update s.thread t x := rfl
@[simp] theorem setThread_process : (s.setThread t x).process = s.process := rfl

end

section

variable (s : State n) (p : ℕ) (x : Process)

@[simp] theorem setProcess_cpu : (s.setProcess p x).cpu = s.cpu := rfl
@[simp] theorem setProcess_lock : (s.setProcess p x).lock = s.lock := rfl
@[simp] theorem setProcess_thread : (s.setProcess p x).thread = s.thread := rfl
@[simp] theorem setProcess_process : (s.setProcess p x).process = Function.update s.process p x := rfl

end

/-- `holding` -/
def holding (s : State n) (c : Fin n) (lk : LockId) : Bool :=
  (s.lock lk).locked && (s.lock lk).cpu = some c

/-- What `pushcli` does to its processor. -/
def cpuPushcli (x : Cpu) : Cpu :=
  { x with
    flag := false
    ncli := x.ncli + 1
    intena := if x.ncli = 0 then x.flag else x.intena }

/-- What `popcli` does to its processor. -/
def cpuPopcli (x : Cpu) : Except Panic Cpu :=
  if x.flag then .error .popcliInterruptible
  else if x.ncli - 1 < 0 then .error .popcli
  else .ok { x with ncli := x.ncli - 1, flag := x.ncli - 1 = 0 && x.intena }

/-- `pushcli` by thread `t` on processor `c`. -/
def pushcli (s : State n) (c : Fin n) (t : ThreadId n) : State n :=
  let th := s.thread t
  (s.setCpu c (cpuPushcli (s.cpu c))).setThread t
    { th with outer := if th.depth = 0 then some (s.cpu c).flag else th.outer }

/-- `popcli` on processor `c`. -/
def popcli (s : State n) (c : Fin n) : Except Panic (State n) :=
  (cpuPopcli (s.cpu c)).map (s.setCpu c)

/-- `acquire`, up to its loop. -/
def acquire (s : State n) (c : Fin n) (t : ThreadId n) (lk : LockId) : Except Panic (State n) :=
  let s := s.pushcli c t
  if s.holding c lk then .error .acquire
  else .ok (s.setThread t { s.thread t with spin := some lk })

/-- The end of `acquire`. -/
def take (s : State n) (c : Fin n) (t : ThreadId n) (lk : LockId) : State n :=
  let th := s.thread t
  (s.setLock lk ⟨true, some c⟩).setThread t { th with spin := none, held := some lk :: th.held }

/-- `release` -/
def release (s : State n) (c : Fin n) (t : ThreadId n) (lk : LockId) : Except Panic (State n) :=
  if s.holding c lk then
    let th := s.thread t
    ((s.setLock lk ⟨false, none⟩).setThread t { th with held := th.held.erase (some lk) }).popcli c
  else .error .release

/-- `sched` of process `p`, which has set its state, up to its `swtch`. -/
def sched (s : State n) (c : Fin n) (p : ℕ) : Except Panic (State n) :=
  if s.holding c .ptable = false then .error .schedPtableLock
  else if (s.cpu c).ncli ≠ 1 then .error .schedLocks
  else if (s.process p).state = .running then .error .schedRunning
  else if (s.cpu c).flag then .error .schedInterruptible
  else
    let s := s.setProcess p { s.process p with place := .sched, intena := (s.cpu c).intena }
    .ok (s.setCpu c { s.cpu c with proc := none })

/-- What a process does first when it is switched to. -/
def resume (s : State n) (c : Fin n) (p : ℕ) : State n :=
  let s' := s.setProcess p { s.process p with place := .gone }
  match (s.process p).place with
  | .sched => s'.setCpu c { s.cpu c with intena := (s.process p).intena }
  | _ => s'

/-- The scheduler switches to process `p`.  `switchuvm` pushes and pops. -/
def dispatch (s : State n) (c : Fin n) (p : ℕ) : Except Panic (State n) :=
  let s := s.setProcess p { s.process p with state := .running }
  ((s.pushcli c (.scheduler c)).popcli c).map fun s =>
    s.setCpu c { s.cpu c with proc := some p }

/-- Whether the thread runs code of its own choice: a process in the kernel, or a handler. -/
def free (s : State n) (c : Fin n) : Bool :=
  (s.thread (s.current c)).spin.isNone && !(s.thread (s.current c)).frames.isEmpty &&
    match (s.cpu c).proc with
    | none => true
    | some p => (s.process p).place = .gone

/-- One step of processor `c`; nothing if it cannot make it. -/
def step (s : State n) (c : Fin n) (a : Action) : Option (Except Panic (State n)) :=
  let t := s.current c
  let th := s.thread t
  let x := s.cpu c
  match a with
  | .acquire lk => if s.free c then some (s.acquire c t lk) else none
  | .take =>
      match th.spin with
      | some lk =>
          if (s.lock lk).locked then none
          else
            let s := s.take c t lk
            -- the scheduler goes on in its loop
            if th.frames.isEmpty then some (.ok (s.setCpu c { x with pc := .scan }))
            else some (.ok s)
      | none => none
  | .release lk => if s.free c ∧ some lk ∈ th.held then some (s.release c t lk) else none
  | .pushcli =>
      if s.free c then
        let s := s.pushcli c t
        some (.ok (s.setThread t { s.thread t with held := none :: th.held }))
      else none
  | .popcli =>
      if s.free c ∧ none ∈ th.held then
        some ((s.setThread t { th with held := th.held.erase none }).popcli c)
      else none
  | .sched state =>
      match x.proc with
      | some p =>
          if s.free c ∧ th.held = [some .ptable] ∧ state ∈ [.runnable, .sleeping, .zombie] then
            some ((s.setProcess p { s.process p with state }).sched c p)
          else none
      | none => none
  | .resume =>
      match x.proc with
      | some p => if (s.process p).place = .gone then none else some (.ok (s.resume c p))
      | none => none
  | .interrupt =>
      if x.flag then
        some (.ok ((s.setCpu c { x with flag := false }).setThread t
          { th with frames := (th.depth, true) :: th.frames }))
      else none
  | .trap =>
      if x.proc.isSome ∧ th.frames = [] then
        some (.ok (s.setThread t { th with frames := [(th.depth, x.flag)] }))
      else none
  | .iret =>
      match th.frames with
      | (depth, flag) :: frames =>
          if s.free c ∧ th.depth = depth then
            some (.ok ((s.setCpu c { x with flag }).setThread t { th with frames }))
          else none
      | [] => none
  | .sti =>
      if x.proc = none ∧ th.frames = [] ∧ x.pc = .top then
        some (.ok (s.setCpu c { x with flag := true, pc := .lock }))
      else none
  | .lock =>
      if x.proc = none ∧ th.frames = [] ∧ x.pc = .lock ∧ th.spin = none then
        some (s.acquire c t .ptable)
      else none
  | .dispatch p =>
      if x.proc = none ∧ th.frames = [] ∧ x.pc = .scan ∧ (s.process p).state = .runnable then
        some (s.dispatch c p)
      else none
  | .unlock =>
      if x.proc = none ∧ th.frames = [] ∧ x.pc = .scan then
        some ((s.setCpu c { x with pc := .top }).release c t .ptable)
      else none
  | .wakeup p =>
      if some .ptable ∈ th.held ∧ (s.process p).state = .sleeping then
        some (.ok (s.setProcess p { s.process p with state := .runnable }))
      else none
  | .reap p =>
      if some .ptable ∈ th.held ∧ (s.process p).state = .zombie then
        some (.ok (s.setProcess p { s.process p with state := .unused }))
      else none
  | .create p =>
      if (s.process p).state = .unused then
        -- as if it had been entered from user space, and switched from with the lock held
        some (.ok ((s.setProcess p ⟨.runnable, .forkret, false⟩).setThread (.process p)
          ⟨[some .ptable], none, [(0, true)], none⟩))
      else none

end State

/-- The steps of the machine that do not panic. -/
def Step {n : ℕ} (s : State n) (e : Fin n × Action) (s' : State n) : Prop :=
  s.step e.1 e.2 = some (.ok s')

/-- The machine when the processors come to their schedulers: no lock is held, interrupts
are off, and there are no processes. -/
def boot (n : ℕ) : State n where
  cpu := fun _ => ⟨0, false, false, none, .top⟩
  lock := fun _ => ⟨false, none⟩
  thread := fun _ => ⟨[], none, [], none⟩
  process := fun _ => ⟨.unused, .gone, false⟩

/-- The machine can get from `boot` to `s`. -/
def Reachable {n : ℕ} (s : State n) : Prop :=
  ∃ es, Support.Run Step (fun _ => True) (boot n) es s

end Lock

end Xv6
