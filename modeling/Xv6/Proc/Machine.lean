import Xv6.Proc.Table
import Xv6.Support.Run

/-!
# The machine that runs the processes

A step function for any number of processors that execute `scheduler()` (its
stride branch, `s == 0`) and the processes it dispatches.  The lock of the
process table is explicit: a step that acquires it needs it free, the owner
keeps it across the context switch, and whoever runs after the switch releases
it, as in the source.  Code that runs with the lock held is cut at the points
where control changes hands (`swtch`, `release`), so that every state in
between is a state of the machine; a loop over the table inside such a section
is one step.

What runs without the lock is interleaved in any way: the rest of `allocproc`
and `fork` on the new entry, interrupt handlers that call `wakeup`, and page
faults.  The environment's choices (which processor moves, which system call is
made, whether memory is available) are the arguments of `step`; what a caller
can observe is the event it returns.
-/

namespace Xv6

open Support

/-- The sections of kernel code that acquire `ptable.lock`. -/
inductive Section where
  | yield
  /-- `sleep` on an address outside of the process table. -/
  | sleep (addr : ℕ)
  | exit
  | wait
  /-- `fork`, up to the `release` in `allocproc`. -/
  | fork (tickets : ℤ)
  | kill (pid : ℤ)
  | wakeup (chan : Option Chan)
  deriving DecidableEq, Repr

/-- What a processor does next. -/
inductive Pc where
  /-- `scheduler`, at the top of its loop. -/
  | loop
  /-- `scheduler`, with the lock, before the search. -/
  | scan
  /-- `scheduler`, before `swtch` to the process it chose. -/
  | switchIn
  /-- In the context of the process, right after a `swtch`. -/
  | resume
  /-- In the process, without the lock. -/
  | running
  /-- In the process or in a handler, at the start of a section. -/
  | inside (k : Section)
  /-- In the process or in a handler, before `release`. -/
  | leave
  /-- In `sched`, before `swtch` to the scheduler. -/
  | parked
  /-- `scheduler`, right after its `swtch` returned. -/
  | back
  /-- `scheduler`, before `release`. -/
  | finish
  deriving DecidableEq, Repr

/-- Whether the code at this place runs with `ptable.lock` held. -/
def Pc.holds : Pc → Bool
  | .loop | .running => false
  | _ => true

/-- The part of `struct cpu` that matters here. -/
structure Cpu where
  /-- The currently running process. -/
  proc : Option Slot
  pc : Pc
  deriving DecidableEq, Repr

/-- How far a `fork` has come after the `release` in `allocproc`. -/
inductive ForkPhase where
  /-- Before `kalloc` of the kernel stack. -/
  | stack
  /-- Before `copyuvm`. -/
  | memory
  /-- Before the child becomes `RUNNABLE`. -/
  | files
  deriving DecidableEq, Repr

/-- The local variables of `fork` on the kernel stack of a process. -/
structure ForkFrame where
  /-- `np` -/
  child : Slot
  tickets : ℤ
  phase : ForkPhase
  deriving DecidableEq, Repr

/-- The state of the machine. -/
structure Machine (n : ℕ) where
  ptable : Ptable
  nextpid : ℤ
  initproc : Slot
  /-- The processor that holds `ptable.lock`. -/
  lock : Option (Fin n)
  cpu : Fin n → Cpu
  /-- The frame of `fork` of each process that is in the middle of it. -/
  frame : Slot → Option ForkFrame

/-- What can be observed of a step. -/
inductive Event where
  | tau
  /-- The scheduler found no process. -/
  | idle
  /-- The scheduler chose `p`. -/
  | dispatch (p : Slot)
  /-- `allocproc`, called by `p`, took the entry `child`. -/
  | alloc (p child : Slot) (pid : ℤ)
  /-- `fork` returned -1. -/
  | forkFailed (p : Slot)
  /-- `fork` returned `pid`. -/
  | forked (p child : Slot) (pid : ℤ)
  /-- `p` became a `ZOMBIE`. -/
  | exited (p : Slot) (pid : ℤ)
  /-- `wait` returned `pid`. -/
  | reaped (p child : Slot) (pid : ℤ)
  /-- `wait` returned -1. -/
  | waitFailed (p : Slot)
  /-- `kill(pid)` returned `ret`. -/
  | kill (pid ret : ℤ)
  deriving DecidableEq, Repr

namespace Machine

variable {n : ℕ}

/-- Processor `c` goes on at `pc`. -/
def goto (m : Machine n) (c : Fin n) (pc : Pc) : Machine n :=
  { m with cpu := Function.update m.cpu c { m.cpu c with pc := pc } }

/-- `acquire(&ptable.lock)` by processor `c`, which goes on at `pc`. -/
def acquire (m : Machine n) (c : Fin n) (pc : Pc) : Machine n :=
  { m.goto c pc with lock := some c }

/-- `release(&ptable.lock)` by processor `c`, which goes on at `pc`. -/
def release (m : Machine n) (c : Fin n) (pc : Pc) : Machine n :=
  { m.goto c pc with lock := none }

/-- Assign the `proc` of processor `c`. -/
def setProc (m : Machine n) (c : Fin n) (p : Option Slot) : Machine n :=
  { m with cpu := Function.update m.cpu c { m.cpu c with proc := p } }

/-- Overwrite one entry of the table. -/
def write (m : Machine n) (p : Slot) (pr : Proc) : Machine n :=
  { m with ptable := Function.update m.ptable p pr }

/-- Replace the whole table. -/
def setTable (m : Machine n) (t : Ptable) : Machine n :=
  { m with ptable := t }

/-- Set or drop the frame of `fork` of `p`. -/
def setFrame (m : Machine n) (p : Slot) (f : Option ForkFrame) : Machine n :=
  { m with frame := Function.update m.frame p f }

/-! ## System calls that enter a section -/

/-- `sys_fork`.  The argument of the user's call is not looked at. -/
def sysFork (_arg : ℕ → Option ℤ) : Option Section :=
  some (.fork 500)

/-- `sys_kill`, with `argint` as given. -/
def sysKill (arg : ℕ → Option ℤ) : Option Section :=
  (arg 0).map .kill

/-- `syscall`: the sections entered by the calls numbered in `syscall.h`.  The
other calls run without the lock or reach it through `sleep` and `wakeup`. -/
def syscall (num : ℕ) (arg : ℕ → Option ℤ) : Option Section :=
  match num with
  | 1 => sysFork arg
  | 2 => some .exit
  | 3 => some .wait
  | 6 => sysKill arg
  | _ => none

/-- Whether process `p` can come to the start of section `k`.  Timer interrupts
and handlers strike anywhere; the other sections are entered on behalf of a
system call (or on the way out of the kernel), not in the middle of `fork`.
`exit` of `initproc` panics. -/
def canEnter (m : Machine n) (p : Slot) : Section → Bool
  | .yield => true
  | .wakeup _ => true
  | .exit => (m.frame p).isNone && decide (p ≠ m.initproc)
  | .sleep _ | .wait | .fork _ | .kill _ => (m.frame p).isNone

/-- Acquire the lock at the start of section `k`.  An idle processor only gets
there from an interrupt handler that calls `wakeup`. -/
def enter (m : Machine n) (c : Fin n) (k : Section) : Option (Machine n) :=
  match (m.cpu c).pc, (m.cpu c).proc, k with
  | .running, some p, k =>
      if m.lock = none ∧ m.canEnter p k = true then some (m.acquire c (.inside k)) else none
  | .loop, none, .wakeup chan =>
      if m.lock = none then some (m.acquire c (.inside (.wakeup chan))) else none
  | _, _, _ => none

/-- `trap` for a system call of a process that has not been killed. -/
def trap (m : Machine n) (c : Fin n) (num : ℕ) (arg : ℕ → Option ℤ) : Option (Machine n) :=
  match (m.cpu c).proc, syscall num arg with
  | some p, some k =>
      if (m.ptable p).killed = false ∧ m.frame p = none then m.enter c k else none
  | _, _ => none

/-! ## The sections -/

/-- `sleep` from its assignment to `chan` on, called with the lock held. -/
def sleepOn (m : Machine n) (c : Fin n) (p : Slot) (chan : Chan) (context : Context) :
    Machine n :=
  (m.write p ({ m.ptable p with chan := some chan }.park .sleeping context)).goto c .parked

/-- One round of the loop of `wait`. -/
def waitBody (m : Machine n) (c : Fin n) (p : Slot) : Machine n × Event :=
  match findZombie p m.ptable with
  | some q =>
      ((m.write q (m.ptable q).reap).goto c .leave, .reaped p q (m.ptable q).pid)
  | none =>
      if havekids p m.ptable = false ∨ (m.ptable p).killed = true then
        (m.goto c .leave, .waitFailed p)
      else (m.sleepOn c p (.proc p) .wait, .tau)

/-- The section of `allocproc`, called from `fork`. -/
def forkBody (m : Machine n) (c : Fin n) (p : Slot) (tickets : ℤ) : Machine n × Event :=
  match findUnused m.ptable with
  | none => (m.goto c .leave, .forkFailed p)
  | some q =>
      ({ ((m.write q ((m.ptable q).claim m.nextpid)).setFrame p
          (some ⟨q, tickets, .stack⟩)).goto c .leave with
          nextpid := int32 (m.nextpid + 1) }, .alloc p q m.nextpid)

/-- The code of a section, from after `acquire` to before `release` or `swtch`. -/
def body (m : Machine n) (c : Fin n) : Section → Option Slot → Option (Machine n × Event)
  | .wakeup chan, _ => some ((m.setTable (wakeup1 chan m.ptable)).goto c .leave, .tau)
  | .yield, some p =>
      some ((m.write p ((m.ptable p).park .runnable .yield)).goto c .parked, .tau)
  | .sleep addr, some p => some (m.sleepOn c p (.other addr) .sleep, .tau)
  | .exit, some p =>
      some ((m.setTable (exitTable m.initproc p m.ptable)).goto c .parked,
        .exited p (m.ptable p).pid)
  | .wait, some p => some (m.waitBody c p)
  | .fork tickets, some p => some (m.forkBody c p tickets)
  | .kill pid, some _ =>
      some ((m.setTable (kill pid m.ptable).2).goto c .leave, .kill pid (kill pid m.ptable).1)
  | _, none => none

/-! ## The context switch -/

/-- The search of the scheduler and, if it finds a process, the assignments up
to `swtch`. -/
def schedule (m : Machine n) (c : Fin n) : Machine n × Event :=
  match minP m.ptable with
  | none => (m.goto c .finish, .idle)
  | some p =>
      (((m.setProc c (some p)).write p (m.ptable p).dispatch).goto c .switchIn, .dispatch p)

/-- What a process does first when it is switched to. -/
def continueFrom (m : Machine n) (c : Fin n) (p : Slot) : Context → Option (Machine n)
  | .forkret | .yield => some (m.goto c .leave)
  | .sleep => some ((m.write p (m.ptable p).tidyUp).goto c .leave)
  | .wait => some ((m.write p (m.ptable p).tidyUp).goto c (.inside .wait))
  | .exit => none

/-! ## The part of `fork` without the lock -/

/-- `allocproc` from its `kalloc` on. -/
def forkStack (m : Machine n) (p : Slot) (f : ForkFrame) : Option Page → Machine n × Event
  | none => ((m.write f.child (m.ptable f.child).giveUp).setFrame p none, .forkFailed p)
  | some kstack =>
      ((m.write f.child ((m.ptable f.child).prepare f.tickets kstack)).setFrame p
        (some { f with phase := .memory }), .tau)

/-- `fork` from its `copyuvm` on. -/
def forkMemory (m : Machine n) (p : Slot) (f : ForkFrame) : Option Page → Machine n × Event
  | none => ((m.write f.child (m.ptable f.child).discard).setFrame p none, .forkFailed p)
  | some pgdir =>
      ((m.write f.child ((m.ptable f.child).inherit p pgdir)).setFrame p
        (some { f with phase := .files }), .tau)

/-- `fork` from its last assignment on. -/
def forkDone (m : Machine n) (p : Slot) (f : ForkFrame) : Machine n × Event :=
  ((m.write f.child (m.ptable f.child).ready).setFrame p none,
    .forked p f.child (m.ptable f.child).pid)

/-- The next unlocked step of the `fork` of `p`; `page` is what the allocator
returns to it. -/
def forkStep (m : Machine n) (p : Slot) (page : Option Page) : Option (Machine n × Event) :=
  (m.frame p).map fun f =>
    match f.phase with
    | .stack => m.forkStack p f page
    | .memory => m.forkMemory p f page
    | .files => m.forkDone p f

end Machine

/-! ## Steps and runs -/

/-- The choices of the environment. -/
inductive Action where
  /-- The next instruction of `scheduler`, of `sched`, or of a section, up to the
  next point where control changes hands. -/
  | go
  /-- The process (or a handler) comes to the start of a section. -/
  | enter (k : Section)
  /-- The process makes a system call. -/
  | syscall (num : ℕ) (arg : ℕ → Option ℤ)
  /-- The process goes on in the middle of `fork`. -/
  | fork (page : Option Page)
  /-- The process causes an exception in user space. -/
  | fault

namespace Machine

variable {n : ℕ}

/-- The step that processor `c` takes by itself. -/
def go (m : Machine n) (c : Fin n) : Option (Machine n × Event) :=
  match (m.cpu c).pc, (m.cpu c).proc with
  | .loop, none => if m.lock = none then some (m.acquire c .scan, .tau) else none
  | .scan, none => some (m.schedule c)
  | .switchIn, some _ => some (m.goto c .resume, .tau)
  | .resume, some p => (m.continueFrom c p (m.ptable p).context).map (·, .tau)
  | .inside k, proc => m.body c k proc
  | .leave, proc => some (m.release c (if proc.isNone then .loop else .running), .tau)
  | .parked, some _ => some (m.goto c .back, .tau)
  | .back, some _ => some ((m.setProc c none).goto c .finish, .tau)
  | .finish, none => some (m.release c .loop, .tau)
  | _, _ => none

/-- One step of the machine, made by processor `c`. -/
def step (m : Machine n) (c : Fin n) : Action → Option (Machine n × Event)
  | .go => m.go c
  | .enter k => (m.enter c k).map (·, .tau)
  | .syscall num arg => (m.trap c num arg).map (·, .tau)
  | .fork page =>
      match (m.cpu c).pc, (m.cpu c).proc with
      | .running, some p => m.forkStep p page
      | _, _ => none
  | .fault =>
      match (m.cpu c).pc, (m.cpu c).proc with
      | .running, some p =>
          if m.frame p = none then some (m.write p (m.ptable p).markKilled, .tau)
          else none
      | _, _ => none

/-- The steps of the machine with their events. -/
def Steps (m : Machine n) (e : Event) (m' : Machine n) : Prop :=
  ∃ c a, m.step c a = some (m', e)

/-- `userinit` on the zeroed table, where `allocproc` finds the first entry; the
two pages are what the allocator gives it. -/
def userinit (kstack pgdir : Page) : Ptable :=
  Function.update (fun _ => Proc.zero) 0
    ({ (Proc.zero.claim 1).prepare 500 kstack with pgdir := some pgdir }.ready)

/-- The machine after `userinit`.  The other processors have found nothing to
run so far. -/
def boot (n : ℕ) (kstack pgdir : Page) : Machine n where
  ptable := userinit kstack pgdir
  nextpid := 2
  initproc := 0
  lock := none
  cpu := fun _ => ⟨none, .loop⟩
  frame := fun _ => none

/-- The processor of a machine that has only one. -/
def cpu0 : Fin 1 :=
  ⟨0, Nat.one_pos⟩

/-- The machine can get from `boot` to `m`. -/
def Reachable (m : Machine n) : Prop :=
  ∃ kstack pgdir es, Run Steps (fun _ => True) (boot n kstack pgdir) es m

theorem Reachable.run {m m' : Machine n} {es : List Event} {P : Machine n → Prop}
    (h : Reachable m) (hrun : Run Steps P m es m') : Reachable m' := by
  obtain ⟨kstack, pgdir, fs, hfs⟩ := h
  exact ⟨kstack, pgdir, fs ++ es, hfs.append (hrun.mono fun _ _ => trivial)⟩

theorem boot_reachable (n : ℕ) (kstack pgdir : Page) : Reachable (boot n kstack pgdir) :=
  ⟨kstack, pgdir, [], .nil trivial⟩

/-- Execute a list of steps, each given by the processor and the choice made, as
long as the states satisfy `P`. -/
def exec (P : Machine n → Bool) (m : Machine n) :
    List (Fin n × Action) → Option (Machine n × List Event)
  | [] => if P m then some (m, []) else none
  | (c, a) :: as =>
      if P m then
        match m.step c a with
        | none => none
        | some (m', e) => (m'.exec P as).map fun r => (r.1, e :: r.2)
      else none

theorem exec_run {P : Machine n → Bool} {m m' : Machine n} {as : List (Fin n × Action)}
    {es : List Event} (h : m.exec P as = some (m', es)) :
    Run Steps (fun x => P x = true) m es m' := by
  induction as generalizing m es with
  | nil =>
      by_cases hP : P m = true
      · obtain ⟨rfl, rfl⟩ : m = m' ∧ [] = es := by simpa [exec, hP] using h
        exact .nil hP
      · simp [exec, hP] at h
  | cons ca as ih =>
      obtain ⟨c, a⟩ := ca
      by_cases hP : P m = true
      · cases hstep : m.step c a with
        | none => simp [exec, hstep] at h
        | some r =>
            simp only [exec, hP, if_true, hstep, Option.map_eq_some_iff] at h
            obtain ⟨⟨m₂, fs⟩, hrest, heq⟩ := h
            obtain ⟨rfl, rfl⟩ := Prod.mk.inj heq
            have hrun := ih hrest
            have hone : Run Steps (fun x => P x = true) m [r.2] r.1 :=
              .single hP ⟨c, a, hstep⟩ hrun.first
            exact hone.append hrun
      · simp [exec, hP] at h

/-- What an execution shows of its last state and events holds of some run. -/
theorem exists_run (P : Machine n → Bool) (m : Machine n) (Q : Machine n → List Event → Bool)
    (as : List (Fin n × Action))
    (h : (m.exec P as).any (fun r => Q r.1 r.2) = true) :
    ∃ m' es, Run Steps (fun x => P x = true) m es m' ∧ Q m' es = true := by
  cases hexec : m.exec P as with
  | none => simp [hexec] at h
  | some r => exact ⟨r.1, r.2, exec_run hexec, by simpa [hexec] using h⟩

/-- A state found by execution is reachable. -/
theorem exists_reachable (kstack pgdir : Page) (as : List (Fin n × Action))
    (Q : Machine n → Bool)
    (h : ((boot n kstack pgdir).exec (fun _ => true) as).any (fun r => Q r.1) = true) :
    ∃ m, Reachable m ∧ Q m = true := by
  obtain ⟨m, es, hrun, hQ⟩ := exists_run _ _ (fun m _ => Q m) as h
  exact ⟨m, ⟨kstack, pgdir, es, hrun.mono fun _ _ => trivial⟩, hQ⟩

end Machine

end Xv6
