import Xv6.Param
import Xv6.Support.Ring
import Xv6.Support.Run

/-!
# The input of the console

The interrupt handler `consoleintr` puts the characters that are typed into a buffer and
lets the user edit the last line; `consoleread` takes committed characters from it.  Both
hold `input.lock`, which `consoleread` only gives up when it sleeps, so that the steps of
the system are the calls of the handler and the stretches of a `consoleread` between two
sleeps.

The processes that read, sleep and are woken are described for any pair of operations on
the input, `Terminal`, so that they are the same over the buffer and over a model of it.
What the handler prints is left out.
-/

namespace Xv6

namespace Console

open Support

/-- `INPUT_BUF` -/
abbrev inputBuf : ℕ := 128

/-- `C('P')`, process listing. -/
abbrev ctrlP : UInt8 := 16

/-- `C('U')`, kill line. -/
abbrev ctrlU : UInt8 := 21

/-- `C('H')`, backspace. -/
abbrev ctrlH : UInt8 := 8

/-- `'\x7f'`, the same. -/
abbrev del : UInt8 := 127

/-- `C('D')`, end of file. -/
abbrev ctrlD : UInt8 := 4

/-- `'\r'` -/
abbrev cr : UInt8 := 13

/-- `'\n'` -/
abbrev lf : UInt8 := 10

/-! ## Processes that read -/

/-- How a stretch of `consoleread` ends. -/
inductive Outcome where
  /-- It returns -1. -/
  | killed
  /-- It sleeps, with `n` bytes still to be read. -/
  | asleep (n : ℕ)
  /-- It leaves its loop, with `n` bytes not read. -/
  | done (n : ℕ)
  deriving DecidableEq, Repr

/-- What a stretch of `consoleread` does. -/
structure Reading (σ : Type) where
  input : σ
  /-- The bytes stored at `dst`. -/
  out : List UInt8
  /-- Whether an end of file has been consumed. -/
  eof : Bool
  outcome : Outcome

/-- A stretch that begins with storing `c`. -/
def Reading.cons {σ : Type} (c : UInt8) (res : Reading σ) : Reading σ :=
  { res with out := c :: res.out }

/-- The operations on the input. -/
structure Terminal (σ : Type) where
  /-- One turn of the loop of `consoleintr`, with whether it calls `wakeup`. -/
  intr : UInt8 → σ → σ × Bool
  /-- `consoleread` with the flag `killed`, `target` and `n`, up to its end or its sleep. -/
  read : Bool → ℕ → ℕ → σ → Reading σ

/-- The local variables of a `consoleread`, and whether it is asleep. -/
structure Reader where
  target : ℕ
  n : ℕ
  asleep : Bool
  deriving DecidableEq, Repr

/-- The input and the processes. -/
structure System (σ : Type) where
  input : σ
  reader : ℕ → Option Reader
  killed : ℕ → Bool

/-- What happens next. -/
inductive Action where
  /-- `consoleintr`, with what `getc` returns until it has nothing more. -/
  | intr (cs : List UInt8)
  /-- Process `p` calls `consoleread` with `n`. -/
  | read (p : ℕ) (n : ℤ)
  /-- Process `p` goes on after it has been woken. -/
  | resume (p : ℕ)
  /-- Process `p` is killed. -/
  | kill (p : ℕ)
  deriving DecidableEq, Repr

/-- What a reader does in a step. -/
structure Effect where
  out : List UInt8
  eof : Bool
  /-- What `consoleread` returns, if it does. -/
  ret : Option ℤ
  deriving DecidableEq, Repr

/-- Nothing. -/
def Effect.none : Effect where
  out := []
  eof := false
  ret := Option.none

namespace System

variable {σ : Type}

/-- `wakeup(&input.r)` -/
def wakeup (s : System σ) : System σ :=
  { s with reader := fun p => (s.reader p).map fun rd => { rd with asleep := false } }

/-- One turn of the loop of `consoleintr`. -/
def type (T : Terminal σ) (s : System σ) (c : UInt8) : System σ :=
  let s' := { s with input := (T.intr c s.input).1 }
  if (T.intr c s.input).2 then s'.wakeup else s'

/-- `consoleintr` -/
def consoleintr (T : Terminal σ) (s : System σ) (cs : List UInt8) : System σ :=
  cs.foldl (type T) s

/-- The end of a stretch of the `consoleread` of `p`: it returns or sleeps. -/
def conclude (s : System σ) (p target : ℕ) (res : Reading σ) : System σ × Effect :=
  match res.outcome with
  | .killed =>
      ({ s with input := res.input, reader := Function.update s.reader p none },
        ⟨res.out, res.eof, some (-1)⟩)
  | .asleep n =>
      ({ s with
        input := res.input
        reader := Function.update s.reader p (some ⟨target, n, true⟩) },
        ⟨res.out, res.eof, none⟩)
  | .done n =>
      ({ s with input := res.input, reader := Function.update s.reader p none },
        ⟨res.out, res.eof, some (target - n)⟩)

/-- A stretch of the `consoleread` of `p`. -/
def proceed (T : Terminal σ) (s : System σ) (p target n : ℕ) : System σ × Effect :=
  s.conclude p target (T.read (s.killed p) target n s.input)

/-- One step of the system. -/
def step (T : Terminal σ) (s : System σ) : Action → Option (System σ × Effect)
  | .intr cs => some (s.consoleintr T cs, .none)
  -- without anything to read the loop is not entered
  | .read p n => if s.reader p = none then some (s.proceed T p n.toNat n.toNat) else none
  | .resume p =>
      match s.reader p with
      | some ⟨target, n, false⟩ => some (s.proceed T p target n)
      | _ => none
  | .kill p =>
      some ({ s with
        killed := Function.update s.killed p true
        reader := Function.update s.reader p
          ((s.reader p).map fun rd => { rd with asleep := false }) }, .none)

end System

/-- The steps of the system, with what they are and do. -/
def Step {σ : Type} (T : Terminal σ) (s : System σ) (e : Action × Effect) (s' : System σ) : Prop :=
  s.step T e.1 = some (s', e.2)

/-- The bytes that a step takes from the committed input. -/
def taken (e : Action × Effect) : List UInt8 :=
  e.2.out ++ if e.2.eof then [ctrlD] else []

/-! ## The buffer -/

/-- `input` -/
structure Input where
  buf : ℕ → UInt8
  /-- Read index. -/
  r : ℕ
  /-- Write index. -/
  w : ℕ
  /-- Edit index. -/
  e : ℕ

namespace Input

/-- `input.e--` -/
def back (s : Input) : Input :=
  { s with e := wrap32 (s.e + 4294967295) }

/-- The loop that kills a line, which goes back to `input.w` at most. -/
def killLine : ℕ → Input → Input
  | 0, s => s
  | k + 1, s =>
      if s.e ≠ s.w ∧ s.buf (s.back.e % inputBuf) ≠ lf then killLine k s.back else s

/-- `input.buf[input.e++ % INPUT_BUF] = c` -/
def store (s : Input) (c : UInt8) : Input :=
  { s with
    buf := Ring.put inputBuf s.buf s.e c
    e := wrap32 (s.e + 1) }

/-- The body of the loop of `consoleintr`. -/
def intr (c : UInt8) (s : Input) : Input × Bool :=
  if c = ctrlP then (s, false)
  else if c = ctrlU then (s.killLine (Ring.gap 4294967296 s.w s.e), false)
  else if c = ctrlH ∨ c = del then (if s.e ≠ s.w then s.back else s, false)
  else if c ≠ 0 ∧ Ring.gap 4294967296 s.r s.e < inputBuf then
    let c := if c = cr then lf else c
    let s := s.store c
    if c = lf ∨ c = ctrlD ∨ s.e = wrap32 (s.r + inputBuf) then ({ s with w := s.e }, true)
    else (s, false)
  else (s, false)

/-- The loop of `consoleread`. -/
def read (killed : Bool) (target : ℕ) : ℕ → Input → Reading Input
  | 0, s => ⟨s, [], false, .done 0⟩
  | n + 1, s =>
      if s.r = s.w then ⟨s, [], false, if killed then .killed else .asleep (n + 1)⟩
      else
        let c := s.buf (s.r % inputBuf)
        let s := { s with r := wrap32 (s.r + 1) }
        if c = ctrlD then
          -- save it for next time
          if n + 1 < target then
            ⟨{ s with r := wrap32 (s.r + 4294967295) }, [], false, .done (n + 1)⟩
          else ⟨s, [], true, .done (n + 1)⟩
        else if c = lf then ⟨s, [c], false, .done n⟩
        else (read killed target n s).cons c

end Input

/-- The operations on the buffer. -/
def console : Terminal Input where
  intr := Input.intr
  read := Input.read

/-- The console as the kernel's zeroed memory has it. -/
def boot : System Input where
  input := ⟨fun _ => 0, 0, 0, 0⟩
  reader := fun _ => none
  killed := fun _ => false

end Console

end Xv6
