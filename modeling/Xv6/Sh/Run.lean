import Mathlib.Data.List.FinRange
import Mathlib.Logic.Function.Basic
import Xv6.Sh.Parse
import Xv6.Sh.Grammar

/-!
# The shell at work

`main` and `runcmd` of `sh.c`, among all the processes that they fork.  A process has a
place in the code, a table of descriptors and its children; between two system calls of a
process the others may take any number of steps.  A system call that may fail does so when
it is told to.

Pipes are named after the places of the command at which they are made, lines after their
numbers.  What the programs do is left out, except that they exit at some time; and a line
that begins with `cd` has no effect here.
-/

namespace Xv6

namespace Sh

/-- A command as `runcmd` reads it. -/
abbrev Command := Cmd (List UInt8)

/-- A place in the command of a line, and whether it is in the background. -/
structure Place where
  path : List ℕ
  back : Bool
  deriving DecidableEq, Repr

namespace Place

def left (p : Place) : Place := ⟨p.path ++ [0], p.back⟩

def right (p : Place) : Place := ⟨p.path ++ [1], p.back⟩

def behind (p : Place) : Place := ⟨p.path, true⟩

end Place

/-- What a descriptor stands for. -/
inductive Handle where
  | console
  | file (name : List UInt8) (mode : ℕ)
  /-- The end of a pipe from which one reads. -/
  | reading (path : List ℕ)
  /-- The end of a pipe to which one writes. -/
  | writing (path : List ℕ)
  deriving DecidableEq, Repr

/-- `ofile` of a process. -/
abbrev Fds := Fin nofile → Option Handle

namespace Fds

/-- `close(fd)` -/
def close (f : Fds) (fd : ℕ) : Fds := fun i => if i.val = fd then none else f i

/-- `fdalloc` -/
def install (f : Fds) (h : Handle) : Option (ℕ × Fds) :=
  ((List.finRange nofile).find? fun i => (f i).isNone).map fun i =>
    (i.val, Function.update f i (some h))

/-- `open(file, mode)` -/
def openFile (f : Fds) (file : List UInt8) (mode : ℕ) : Option (ℕ × Fds) :=
  f.install (.file file mode)

/-- `dup(fd)`, with the table afterwards. -/
def dup (f : Fds) (fd : ℕ) : Fds :=
  if h : fd < nofile then
    match f ⟨fd, h⟩ with
    | some x => ((f.install x).map Prod.snd).getD f
    | none => f
  else f

/-- `pipe(p)` -/
def pipe (f : Fds) (path : List ℕ) : Option ((ℕ × ℕ) × Fds) :=
  (f.install (.reading path)).bind fun r =>
    (r.2.install (.writing path)).map fun w => ((r.1, w.1), w.2)

/-- What a child of a pipe does before it calls `runcmd`: it has descriptor `fd` for the end
`p` of the pipe, and closes the two others. -/
def plug (f : Fds) (fd p p₀ p₁ : ℕ) : Fds :=
  (((f.close fd).dup p).close p₀).close p₁

end Fds

/-- A program has been started. -/
structure Launch where
  place : Place
  argv : List (List UInt8)
  fds : Fds

/-- What a process does next. -/
inductive Code where
  /-- `main`, in `getcmd`. -/
  | prompt (n : ℕ)
  /-- `main`, in `wait`. -/
  | busy (n : ℕ)
  /-- `runcmd(cmd)` -/
  | run (place : Place) (cmd : Command)
  /-- `LIST`, in `wait`. -/
  | list (place : Place) (right : Command)
  /-- `PIPE`, after `pipe`. -/
  | first (place : Place) (left right : Command) (p₀ p₁ : ℕ)
  /-- `PIPE`, after the first `fork1`. -/
  | second (place : Place) (right : Command) (p₀ p₁ : ℕ)
  /-- `PIPE`, before the last calls of `wait`. -/
  | waits (n : ℕ)
  /-- `exit()` -/
  | leaving
  /-- `exec` has succeeded. -/
  | program (place : Place)
  | zombie

/-- A process with its children. -/
inductive Proc where
  | mk (code : Code) (fds : Fds) (kids : List Proc)

/-- What can be seen of a step. -/
inductive Event where
  /-- The shell has read a line. -/
  | read (n : ℕ) (cmd : Option Command)
  | launch (l : Launch)
  /-- A system call has failed. -/
  | failed
  | silent

/-- What decides about a step: whether the system call succeeds, which child `wait` finds,
and the line that is typed. -/
structure Choice where
  ok : Bool
  index : ℕ
  line : List UInt8

/-- The command of a line. -/
def command (s : List UInt8) : Option Command :=
  match parsecmd s with
  | .ok (cmd, buf) => some (cmd.strings buf)
  | .error _ => none

/-- `buf[0] == 'c' && buf[1] == 'd' && buf[2] == ' '` -/
def isCd (s : List UInt8) : Bool :=
  s.take 3 == [99, 100, 32]

namespace Proc

/-- It is the process of `main`. -/
def isShell : Proc → Bool
  | ⟨.prompt _, _, _⟩ | ⟨.busy _, _, _⟩ => true
  | _ => false

def isZombie : Proc → Bool
  | ⟨.zombie, _, _⟩ => true
  | _ => false

/-- `exit()`: the children are left to another process. -/
def exit (e : Event) (kids : List Proc) : Option (Event × Proc × List Proc) :=
  some (e, ⟨.zombie, fun _ => none, []⟩, kids)

/-- `wait()`: the children that are left, if it returns. -/
def reap (i : ℕ) (kids : List Proc) : Option (List Proc) :=
  if kids.isEmpty then some []
  else
    match kids[i]? with
    | some q => if q.isZombie then some (kids.eraseIdx i) else none
    | none => none

/-- The process goes on, with the same children. -/
def next (c : Code) (f : Fds) (kids : List Proc) : Option (Event × Proc × List Proc) :=
  some (.silent, ⟨c, f, kids⟩, [])

/-- `fork1()`, or the end of the process. -/
def fork1 (ok : Bool) (c : Code) (f : Fds) (kids : List Proc) (kid : Proc) :
    Option (Event × Proc × List Proc) :=
  if ok then next c f (kids ++ [kid]) else exit .failed kids

/-- `runcmd(parsecmd(buf))`; without a command the parser has called `exit`. -/
def parsed (n : ℕ) (f : Fds) : Option Command → Proc
  | some cmd => ⟨.run ⟨[n], false⟩ cmd, f, []⟩
  | none => ⟨.leaving, f, []⟩

/-- One step of a process: the process afterwards, and the children that it has left. -/
def act (x : Choice) : Proc → Option (Event × Proc × List Proc)
  | ⟨.prompt n, f, kids⟩ =>
      if 0 ∈ x.line then none
      else if x.line = [] then exit .silent kids
      else if isCd x.line then next (.prompt (n + 1)) f kids
      else if x.ok then
        some (.read n (command x.line), ⟨.busy n, f, kids ++ [parsed n f (command x.line)]⟩, [])
      else exit .failed kids
  | ⟨.busy n, f, kids⟩ => (reap x.index kids).bind fun kids => next (.prompt (n + 1)) f kids
  | ⟨.run _ (.exec []), _, kids⟩ => exit .silent kids
  | ⟨.run place (.exec argv), f, kids⟩ =>
      if x.ok then some (.launch ⟨place, argv, f⟩, ⟨.program place, f, kids⟩, [])
      else exit .failed kids
  | ⟨.run place (.redir cmd file mode fd), f, kids⟩ =>
      match if x.ok then (f.close fd).openFile file mode else none with
      | some (_, f) => next (.run place cmd) f kids
      | none => exit .failed kids
  | ⟨.run place (.list left right), f, kids⟩ =>
      fork1 x.ok (.list place right) f kids ⟨.run place.left left, f, []⟩
  | ⟨.run place (.pipe left right), f, kids⟩ =>
      match if x.ok then f.pipe place.path else none with
      | some ((p₀, p₁), f) => next (.first place left right p₀ p₁) f kids
      | none => exit .failed kids
  | ⟨.run place (.back cmd), f, kids⟩ =>
      fork1 x.ok .leaving f kids ⟨.run place.behind cmd, f, []⟩
  | ⟨.list place right, f, kids⟩ =>
      (reap x.index kids).bind fun kids => next (.run place.right right) f kids
  | ⟨.first place left right p₀ p₁, f, kids⟩ =>
      fork1 x.ok (.second place right p₀ p₁) f kids
        ⟨.run place.left left, f.plug 1 p₁ p₀ p₁, []⟩
  | ⟨.second place right p₀ p₁, f, kids⟩ =>
      if x.ok then
        next (.waits 2) ((f.close p₀).close p₁)
          (kids ++ [⟨.run place.right right, f.plug 0 p₀ p₀ p₁, []⟩])
      else exit .failed kids
  | ⟨.waits 0, _, kids⟩ => exit .silent kids
  | ⟨.waits (n + 1), f, kids⟩ =>
      (reap x.index kids).bind fun kids => next (.waits n) f kids
  | ⟨.leaving, _, kids⟩ => exit .silent kids
  | ⟨.program _, _, kids⟩ => exit .silent kids
  | ⟨.zombie, _, _⟩ => none

/-- A step of a process or of one of those below it. -/
inductive Step : Proc → Event → Proc → List Proc → Prop
  | self {p p' : Proc} {e : Event} {os : List Proc} (x : Choice) (h : p.act x = some (e, p', os)) :
      Step p e p' os
  | kid {c : Code} {f : Fds} {l r : List Proc} {q q' : Proc} {e : Event} {os : List Proc}
      (h : Step q e q' os) : Step ⟨c, f, l ++ q :: r⟩ e ⟨c, f, l ++ q' :: r⟩ os

end Proc

/-- The second process is the first or below it. -/
inductive Proc.Within : Proc → Proc → Prop
  | self (p : Proc) : Within p p
  | kid {c : Code} {f : Fds} {kids : List Proc} {q p : Proc} (hq : q ∈ kids) (h : Within q p) :
      Within ⟨c, f, kids⟩ p

/-- The steps of all processes.  Those that have been left are waited for by `init`. -/
inductive Step : List Proc → Event → List Proc → Prop
  | act {l r : List Proc} {q q' : Proc} {e : Event} {os : List Proc} (h : q.Step e q' os) :
      Step (l ++ q :: r) e (l ++ q' :: r ++ os)
  | reap {l r : List Proc} {q : Proc} (h : q.isZombie = true) :
      Step (l ++ q :: r) .silent (l ++ r)

end Sh

end Xv6
