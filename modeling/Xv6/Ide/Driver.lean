import Mathlib.Data.Fintype.Card
import Xv6.Storage.Block
import Xv6.Support.Linked
import Xv6.Support.Run

/-!
# The IDE driver

`ide.c`: requests wait in a list that is linked through the buffers, and the disk works on
the first of them.  Buffers are the elements of a finite type.  All of the driver's code
runs with `idelock` held, which `iderw` gives up only when it sleeps, so that the steps are
the stretches of `iderw` and the interrupts; in between the disk completes commands, and
buffers that no `iderw` is working on are changed by whoever holds them.

The disk takes one command at a time and raises one interrupt for each.  When it has
completed a read, the sector is in its data register, unless the command ended with an
error.
-/

namespace Xv6

namespace Ide

open Support

/-- `struct buf`, as far as the driver uses it. -/
structure Buf (ι : Type) where
  /-- `B_BUSY` -/
  busy : Bool
  /-- `B_VALID` -/
  valid : Bool
  /-- `B_DIRTY` -/
  dirty : Bool
  dev : ℕ
  sector : ℕ
  /-- Disk queue. -/
  qnext : Option ι
  data : Block

/-- Drive and sector, as they are written to the registers of the disk. -/
structure Place where
  drive : ℕ
  lba : ℕ
  deriving DecidableEq, Repr

/-- What `idestart` writes for `dev` and `sector`: one bit and 28 bits. -/
def Buf.place {ι : Type} (b : Buf ι) : Place where
  drive := b.dev % 2
  lba := b.sector % 256 + b.sector / 256 % 256 * 256 + b.sector / 65536 % 256 * 65536 +
    b.sector / 16777216 % 16 * 16777216

/-- `IDE_CMD_READ`, or `IDE_CMD_WRITE` with the data. -/
structure Command where
  place : Place
  write : Option Block

/-- The command that `idestart` gives for a buffer. -/
def Buf.command {ι : Type} (b : Buf ι) : Command where
  place := b.place
  write := if b.dirty then some b.data else none

/-- The disks and their controller. -/
structure Disk where
  content : Place → Block
  /-- The command that has been started. -/
  active : Option Command
  /-- An interrupt, with whether the status shows no error. -/
  pending : Option Bool
  /-- The data register. -/
  out : Block

/-- The disk completes its command. -/
def Disk.complete (d : Disk) (ok : Bool) : Option Disk :=
  d.active.map fun cmd =>
    { content :=
        match cmd.write with
        | some x => if ok then Function.update d.content cmd.place x else d.content
        | none => d.content
      active := none
      pending := some ok
      out := if ok ∧ cmd.write = none then d.content cmd.place else d.out }

/-- How a command ended, and what the sector held then. -/
structure Result where
  ok : Bool
  content : Block

/-- An `iderw` in progress.  Only `asleep` is seen by any code. -/
structure Call where
  asleep : Bool
  /-- Whether it is for a read. -/
  reading : Bool
  /-- The data of the buffer when it was called. -/
  before : Block
  result : Option Result

/-- The driver, the buffers and the disk. -/
structure State (ι : Type) where
  buf : ι → Buf ι
  idequeue : Option ι
  call : ι → Option Call
  havedisk1 : Bool
  disk : Disk

/-- What happens to a request. -/
inductive Event (ι : Type) where
  /-- `iderw` has put it into the queue. -/
  | call (b : ι)
  /-- `idestart` has started its command. -/
  | start (b : ι)
  /-- `ideintr` has dealt with the end of its command. -/
  | done (b : ι)
  /-- Its `iderw` has returned. -/
  | ret (b : ι)
  deriving DecidableEq, Repr

/-- What happens next. -/
inductive Action (ι : Type) where
  /-- A process calls `iderw(b)`. -/
  | iderw (b : ι)
  /-- The process in `iderw(b)` goes on after it has been woken. -/
  | resume (b : ι)
  /-- The process in `iderw(b)` is woken by `kill`. -/
  | kill (b : ι)
  /-- The holder of a buffer changes it. -/
  | edit (b : ι) (x : Buf ι)
  /-- The disk completes its command. -/
  | complete (ok : Bool)
  /-- `ideintr`, spurious if nothing is pending. -/
  | intr

namespace State

variable {ι : Type} [DecidableEq ι]

/-- Assign to a buffer. -/
def setBuf (s : State ι) (b : ι) (x : Buf ι) : State ι :=
  { s with buf := Function.update s.buf b x }

/-- Assign `b->qnext`. -/
def setNext (s : State ι) (b : ι) (p : Option ι) : State ι :=
  s.setBuf b { s.buf b with qnext := p }

/-- Start or end the call of `iderw` on a buffer, or let it sleep. -/
def setCall (s : State ι) (b : ι) (c : Option Call) : State ι :=
  { s with call := Function.update s.call b c }

/-- `idestart`.  `idewait` lets it go on when the disk is ready. -/
def idestart (s : State ι) (b : ι) : Option (State ι) :=
  if s.disk.active.isNone then
    some { s with disk := { s.disk with active := some (s.buf b).command } }
  else none

/-- The insertion into the queue.  The walk does not end if it is longer than there are
buffers. -/
def insert [Fintype ι] (s : State ι) (b : ι) : Option (State ι) :=
  let s := s.setNext b none
  match s.idequeue with
  | none => some { s with idequeue := some b }
  | some a =>
      (Linked.last (fun x => (s.buf x).qnext) (Fintype.card ι) a).map fun p => s.setNext p (some b)

/-- The loop at the end of `iderw`. -/
def wait (s : State ι) (b : ι) (c : Call) : State ι × List (Event ι) :=
  if (s.buf b).valid = true ∧ (s.buf b).dirty = false then (s.setCall b none, [.ret b])
  else (s.setCall b (some { c with asleep := true }), [])

/-- `iderw`, from its checks up to its sleep.  It panics if they fail. -/
def iderw [Fintype ι] (s : State ι) (b : ι) : Option (State ι × List (Event ι)) :=
  if s.call b = none ∧ (s.buf b).busy = true ∧
      ¬((s.buf b).valid = true ∧ (s.buf b).dirty = false) ∧
      ((s.buf b).dev = 0 ∨ s.havedisk1 = true) then
    let c : Call := ⟨false, !(s.buf b).dirty, (s.buf b).data, none⟩
    match s.insert b with
    | none => none
    | some t =>
        if t.idequeue = some b then
          (t.idestart b).map fun u => ((u.wait b c).1, .call b :: .start b :: (u.wait b c).2)
        else some ((t.wait b c).1, .call b :: (t.wait b c).2)
  else none

/-- `wakeup(b)` or `kill`. -/
def wake (s : State ι) (b : ι) : State ι :=
  s.setCall b ((s.call b).map fun c => { c with asleep := false })

/-- The end of the command of `b`, which `ideintr` has taken from the queue. -/
def finish (s : State ι) (b : ι) (ok : Bool) : State ι :=
  let x := s.buf b
  let data := if x.dirty = false ∧ ok = true then s.disk.out else x.data
  let result : Result := ⟨ok, s.disk.content x.place⟩
  let s := { s with idequeue := x.qnext }
  let s := s.setBuf b { x with data := data, valid := true, dirty := false }
  (s.setCall b ((s.call b).map fun c => { c with result := some result })).wake b

/-- `ideintr`, with the status of the disk. -/
def ideintr (s : State ι) (ok : Bool) : Option (State ι × List (Event ι)) :=
  match s.idequeue with
  | none => some (s, [])
  | some b =>
      match (s.finish b ok).idequeue with
      | none => some (s.finish b ok, [.done b])
      | some a => ((s.finish b ok).idestart a).map fun t => (t, [.done b, .start a])

/-- One step. -/
def step [Fintype ι] (s : State ι) : Action ι → Option (State ι × List (Event ι))
  | .iderw b => s.iderw b
  | .resume b =>
      match s.call b with
      | none => none
      | some c => if c.asleep then none else some (s.wait b c)
  | .kill b => some (s.wake b, [])
  | .edit b x =>
      if s.call b = none then some (s.setBuf b { x with qnext := (s.buf b).qnext }, []) else none
  | .complete ok => (s.disk.complete ok).map fun d => ({ s with disk := d }, [])
  | .intr =>
      match s.disk.pending with
      | some ok => { s with disk := { s.disk with pending := none } }.ideintr ok
      -- spurious interrupts come only when nothing is queued
      | none => if s.idequeue = none then s.ideintr true else none

end State

/-- The steps of the system with what happens to the requests. -/
def Step {ι : Type} [DecidableEq ι] [Fintype ι] (s : State ι) (es : List (Event ι))
    (s' : State ι) : Prop :=
  ∃ a, s.step a = some (s', es)

/-- No request, and the disk is idle. -/
structure Quiet {ι : Type} (s : State ι) : Prop where
  idequeue : s.idequeue = none
  call : ∀ b, s.call b = none
  active : s.disk.active = none
  pending : s.disk.pending = none

end Ide

end Xv6
