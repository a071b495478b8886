import Mathlib.Data.Finset.Erase
import Mathlib.Data.Finset.Insert
import Mathlib.Data.List.FinRange
import Xv6.Param
import Xv6.Storage.Block
import Xv6.Support.Circle
import Xv6.Support.Run

/-!
# The buffer cache among processes

`bio.c` for any number of processes, with the disk queue of `ide.c` below it.  What is done
under `bcache.lock` or `idelock` is one step, and between two steps other processes and the
disk may take any number of theirs.

The disk may report an error for a request; `ideintr` does not look at it when it has
written, and leaves the data of the buffer as it was when it has read.

A process that holds a buffer may change its data.  As `bio.c` asks of its callers, a
process uses a buffer only between `bread` and `brelse`, and it releases one that it has
changed only after `bwrite` or `log_write`.
-/

namespace Xv6.Cache

open Support

/-- A device and a sector. -/
abbrev Key := ℕ × ℕ

/-- `struct buf`, less the links; a buffer that has not been used yet has no key. -/
structure Buf where
  key : Option Key
  busy : Bool
  valid : Bool
  dirty : Bool
  data : Block

/-- How far a process is in a function of `bio.c`. -/
inductive Pc where
  /-- In none of them. -/
  | out
  /-- `bget`, before the loop. -/
  | bget (k : Key)
  /-- `bget`, in `sleep` on the buffer. -/
  | asleep (b : Fin nbuf) (k : Key)
  /-- `bread`, after `bget` has returned. -/
  | got (b : Fin nbuf) (k : Key)
  /-- `bread`, in the loop of `iderw`. -/
  | reading (b : Fin nbuf) (k : Key)
  /-- `bwrite`, in the loop of `iderw`. -/
  | writing (b : Fin nbuf)

def Pc.isOut : Pc → Bool
  | .out => true
  | _ => false

/-- A process that sleeps on the buffer goes back to the loop of `bget`. -/
def Pc.wakenBy (b : Fin nbuf) : Pc → Pc
  | .asleep b' k => if b' = b then .bget k else .asleep b' k
  | c => c

/-- The cache, the disk and the processes `ι`. -/
structure State (ι : Type) where
  buf : Fin nbuf → Buf
  /-- `prev` and `next` of the buffers and of `bcache.head`. -/
  links : Links (Fin nbuf)
  /-- The buffers from `idequeue` on. -/
  queue : List (Fin nbuf)
  disk : Key → Block
  pc : ι → Pc
  /-- The buffers that `bread` has returned and that have not been released. -/
  held : ι → Finset (Fin nbuf)
  /-- Those that have been changed and not yet been written or logged. -/
  changed : Finset (Fin nbuf)

/-- The panics of `bio.c` and `iderw`. -/
inductive Panic where
  | bgetNoBuffers
  | bwrite
  | brelse
  | iderwNotBusy
  | iderwNothingToDo
  deriving DecidableEq

/-- What can be seen of a step. -/
inductive Event where
  /-- `bread` returns the data of a sector. -/
  | got (k : Key) (d : Block)
  /-- `bwrite` or `log_write` is called for the data of a sector. -/
  | put (k : Option Key) (d : Block)
  /-- `bget` has taken a buffer for another sector. -/
  | recycled (b : Fin nbuf)
  /-- `brelse` has been called. -/
  | released (b : Fin nbuf)
  /-- The disk has reported an error for the sector. -/
  | failed (k : Option Key)
  | silent

/-- What happens next. -/
inductive Action (ι : Type) where
  /-- The process calls `bread`. -/
  | bread (p : ι) (k : Key)
  /-- The process goes on. -/
  | run (p : ι)
  /-- The process is woken in `bget`, by `wakeup` or by `kill`. -/
  | wake (p : ι)
  /-- The process changes the data of a buffer. -/
  | modify (p : ι) (b : Fin nbuf) (d : Block)
  | bwrite (p : ι) (b : Fin nbuf)
  /-- The last line of `log_write`. -/
  | logWrite (p : ι) (b : Fin nbuf)
  | brelse (p : ι) (b : Fin nbuf)
  /-- The disk has completed the first request, with an error if not `ok`. -/
  | ideintr (ok : Bool)

/-- A step that cannot be taken, one that ends in a panic, and one that leads on. -/
inductive Outcome (ι : Type) where
  | stuck
  | panic (e : Panic)
  | next (e : Event) (s : State ι)

variable {ι : Type} [DecidableEq ι]

namespace State

/-- The state with one buffer assigned. -/
def setBuf (s : State ι) (b : Fin nbuf) (x : Buf) : State ι :=
  { s with buf := Function.update s.buf b x }

/-- The state in which process `p` has come to `c`. -/
def goto (s : State ι) (p : ι) (c : Pc) : State ι :=
  { s with pc := Function.update s.pc p c }

/-- `for(b = bcache.head.next; b != &bcache.head; b = b->next)` up to a cached sector. -/
def cached (s : State ι) (k : Key) : Option (Fin nbuf) :=
  Links.search s.links.next (fun b => (s.buf b).key = some k) nbuf (s.links.next none)

/-- `for(b = bcache.head.prev; b != &bcache.head; b = b->prev)` up to a clean buffer that
nobody holds. -/
def victim (s : State ι) : Option (Fin nbuf) :=
  Links.search s.links.prev (fun b => !(s.buf b).busy && !(s.buf b).dirty) nbuf
    (s.links.prev none)

/-- A buffer of the sector is taken. -/
def take (s : State ι) (p : ι) (k : Key) (b : Fin nbuf) : State ι :=
  (s.setBuf b { s.buf b with busy := true }).goto p (.got b k)

/-- Another buffer is taken for the sector. -/
def recycle (s : State ι) (p : ι) (k : Key) (b : Fin nbuf) : State ι :=
  (s.setBuf b { s.buf b with key := some k, busy := true, valid := false, dirty := false }).goto
    p (.got b k)

/-- The loop of `bget`, until it returns, sleeps or panics. -/
def bget (s : State ι) (p : ι) (k : Key) : Outcome ι :=
  match s.cached k with
  | some b =>
      if (s.buf b).busy then .next .silent (s.goto p (.asleep b k))
      else .next .silent (s.take p k b)
  | none =>
      match s.victim with
      | some b => .next (.recycled b) (s.recycle p k b)
      | none => .panic .bgetNoBuffers

/-- A request is appended to the queue. -/
def enqueue (s : State ι) (b : Fin nbuf) : State ι :=
  { s with queue := s.queue ++ [b] }

/-- `iderw`, up to its loop. -/
def iderw (s : State ι) (p : ι) (b : Fin nbuf) (c : Pc) (e : Event) : Outcome ι :=
  if (s.buf b).busy = false then .panic .iderwNotBusy
  else if (s.buf b).valid ∧ (s.buf b).dirty = false then .panic .iderwNothingToDo
  else .next e ((s.enqueue b).goto p c)

/-- `bread` returns buffer `b`. -/
def deliver (s : State ι) (p : ι) (b : Fin nbuf) : State ι :=
  { s with held := Function.update s.held p (insert b (s.held p)) }.goto p .out

/-- The process goes on. -/
def run (s : State ι) (p : ι) : Outcome ι :=
  match s.pc p with
  | .bget k => s.bget p k
  | .got b k =>
      if (s.buf b).valid then .next (.got k (s.buf b).data) (s.deliver p b)
      else s.iderw p b (.reading b k) .silent
  | .reading b k =>
      if (s.buf b).valid ∧ (s.buf b).dirty = false then
        .next (.got k (s.buf b).data) (s.deliver p b)
      else .stuck
  | .writing b =>
      if (s.buf b).valid ∧ (s.buf b).dirty = false then .next .silent (s.goto p .out)
      else .stuck
  | _ => .stuck

/-- `wakeup(b)`, for those that sleep in `bget`. -/
def wakeup (s : State ι) (b : Fin nbuf) : State ι :=
  { s with pc := fun p => (s.pc p).wakenBy b }

/-- The data of a buffer is changed. -/
def modify (s : State ι) (b : Fin nbuf) (d : Block) : State ι :=
  { s.setBuf b { s.buf b with data := d } with changed := insert b s.changed }

/-- `b->flags |= B_DIRTY`. -/
def mark (s : State ι) (b : Fin nbuf) : State ι :=
  { s.setBuf b { s.buf b with dirty := true } with changed := s.changed.erase b }

/-- `brelse`. -/
def release (s : State ι) (p : ι) (b : Fin nbuf) : State ι :=
  { s.setBuf b { s.buf b with busy := false } with
    links := (s.links.unlink b).push b
    held := Function.update s.held p ((s.held p).erase b) }.wakeup b

/-- `ideintr`, for the first request: the data has gone to the disk or come from it, unless
there was an error; the flags are set in any case. -/
def complete (s : State ι) (b : Fin nbuf) (queue : List (Fin nbuf)) (ok : Bool) : State ι :=
  if (s.buf b).dirty then
    { s.setBuf b { s.buf b with valid := true, dirty := false } with
      queue := queue
      disk :=
        if ok then (s.buf b).key.elim s.disk fun k => Function.update s.disk k (s.buf b).data
        else s.disk }
  else
    { s.setBuf b { s.buf b with
        valid := true
        data := if ok then (s.buf b).key.elim (s.buf b).data s.disk else (s.buf b).data } with
      queue := queue }

/-- The process holds the buffer and is not in a function of `bio.c`. -/
def Uses (s : State ι) (p : ι) (b : Fin nbuf) : Prop :=
  (s.pc p).isOut = true ∧ b ∈ s.held p

instance (s : State ι) (p : ι) (b : Fin nbuf) : Decidable (s.Uses p b) :=
  inferInstanceAs (Decidable (_ ∧ _))

/-- One step. -/
def step (s : State ι) : Action ι → Outcome ι
  | .bread p k =>
      match s.pc p with
      | .out => .next .silent (s.goto p (.bget k))
      | _ => .stuck
  | .run p => s.run p
  | .wake p =>
      match s.pc p with
      | .asleep _ k => .next .silent (s.goto p (.bget k))
      | _ => .stuck
  | .modify p b d =>
      if s.Uses p b then .next .silent (s.modify b d) else .stuck
  | .bwrite p b =>
      if s.Uses p b then
        if (s.buf b).busy = false then .panic .bwrite
        else (s.mark b).iderw p b (.writing b) (.put (s.buf b).key (s.buf b).data)
      else .stuck
  | .logWrite p b =>
      if s.Uses p b then .next (.put (s.buf b).key (s.buf b).data) (s.mark b) else .stuck
  | .brelse p b =>
      if s.Uses p b ∧ b ∉ s.changed then
        if (s.buf b).busy = false then .panic .brelse
        else .next (.released b) (s.release p b)
      else .stuck
  | .ideintr ok =>
      match s.queue with
      | [] => .stuck
      | b :: queue =>
          .next (if ok then .silent else .failed (s.buf b).key) (s.complete b queue ok)

/-- The events of a list of actions, and the state after them. -/
def play (s : State ι) : List (Action ι) → Option (List Event × State ι)
  | [] => some ([], s)
  | a :: as =>
      match s.step a with
      | .next e t => (t.play as).map fun r => (e :: r.1, r.2)
      | _ => none

end State

/-- The steps, with what can be seen of them. -/
def Step (s : State ι) (e : Event) (s' : State ι) : Prop :=
  ∃ a, s.step a = .next e s'

theorem run_of_play {s s' : State ι} {as : List (Action ι)} {es : List Event}
    (h : s.play as = some (es, s')) : Run Step (fun _ => True) s es s' := by
  induction as generalizing s es with
  | nil =>
      cases h
      exact .nil trivial
  | cons a as ih =>
      rw [State.play] at h
      cases hstep : s.step a with
      | stuck | panic x =>
          rw [hstep] at h
          cases h
      | next e t =>
          rw [hstep] at h
          obtain ⟨⟨es', u⟩, hrest, heq⟩ := Option.map_eq_some_iff.mp h
          cases heq
          exact (Run.single trivial ⟨a, hstep⟩ trivial).append (ih hrest)

/-- `binit`, with a disk. -/
def boot (disk : Key → Block) : State ι where
  buf _ := ⟨none, false, false, false, Block.zero⟩
  links := (List.finRange nbuf).foldl Links.push ⟨fun _ => none, fun _ => none⟩
  queue := []
  disk := disk
  pc _ := .out
  held _ := ∅
  changed := ∅

end Xv6.Cache
