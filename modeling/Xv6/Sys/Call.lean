import Xv6.Fs.Transfer
import Xv6.Sys.User

/-!
# System calls and the data they move

The functions of `sysfile.c`, `sysproc.c`, `file.c` and `pipe.c` as far as they
fetch arguments from user memory or copy data from and to it.  The kernel
objects behind a descriptor appear as what these functions see of them: an inode
as its fields and the data of its blocks, a pipe as its ring buffer together
with its state each time a sleeping call runs again, the console as the
characters it delivers.

A call whose work needs no user memory once its arguments are fetched ends in a
`Request`; its result is left to the rest of the kernel.
-/

namespace Xv6

open Support

/-! ## Kernel objects -/

/-- What `readi`, `writei` and `stati` see of an inode; `block bn` is the data
that `bread(ip->dev, bmap(ip, bn))` returns. -/
structure InodeView where
  dev : ℕ
  inum : ℕ
  type : ℤ
  major : ℤ
  nlink : ℤ
  size : ℕ
  block : ℕ → Block
  /-- The characters `consoleread` takes from the input buffer one after the
  other, `none` for finding the process killed instead. -/
  input : List (Option UInt8)

/-- `struct pipe`, less its lock. -/
structure Pipe where
  data : ℕ → UInt8
  nread : ℕ
  nwrite : ℕ
  readopen : Bool
  writeopen : Bool

/-- A pipe during a call: its state now and `proc->killed`, and both again each
time the call wakes from a sleep. -/
structure PipeView where
  pipe : Pipe
  killed : Bool
  wakes : List (Pipe × Bool)

/-- The `type` of a `struct file`. -/
inductive FileType where
  | none
  | pipe
  | inode
  deriving DecidableEq, Repr

/-- `struct file`, less its reference count. -/
structure FileView where
  type : FileType
  readable : Bool
  writable : Bool
  pipe : PipeView
  ip : InodeView
  off : ℕ

/-! ## Pipes -/

/-- The loop at the start of `piperead`: sleep until there is data or no writer.
`none` if the process was killed. -/
def awaitData : List (Pipe × Bool) → Pipe → Bool → UserM (Option Pipe)
  | wakes, p, killed =>
      if p.nread = p.nwrite ∧ p.writeopen = true then
        if killed then pure none
        else
          match wakes with
          | [] => Exec.throw .asleep
          | (p', killed') :: wakes => awaitData wakes p' killed'
      else pure (some p)

/-- The copying loop of `piperead`, with at most `k` bytes to go. -/
def pipereadFrom : ℕ → ℕ → Pipe → UserM ℕ
  | 0, _, _ => pure 0
  | k + 1, addr, p =>
      if p.nread = p.nwrite then pure 0
      else do
        storeByte addr (p.data (p.nread % pipesize))
        let i ← pipereadFrom k (addr + 1) { p with nread := wrap32 (p.nread + 1) }
        pure (i + 1)

/-- `piperead`. -/
def piperead (v : PipeView) (addr : ℕ) (n : ℤ) : UserM ℤ := do
  match ← awaitData v.wakes v.pipe v.killed with
  | none => pure (-1)
  | some p => do
      let i ← pipereadFrom n.toNat addr p
      pure i

/-- The inner loop of `pipewrite`: sleep until there is room.  `none` if no
reader is left or the process was killed. -/
def awaitRoom : List (Pipe × Bool) → Pipe → Bool → Option (Option PipeView)
  | wakes, p, killed =>
      if p.nwrite = wrap32 (p.nread + pipesize) then
        if p.readopen = false ∨ killed = true then some none
        else
          match wakes with
          | [] => none
          | (p', killed') :: wakes => awaitRoom wakes p' killed'
      else some (some ⟨p, killed, wakes⟩)

/-- Append a byte to the ring buffer. -/
def Pipe.push (p : Pipe) (c : UInt8) : Pipe :=
  { p with
    data := fun i => if i = p.nwrite % pipesize then c else p.data i
    nwrite := wrap32 (p.nwrite + 1) }

/-- The loop of `pipewrite` with `k` bytes to go; `false` if it gave up. -/
def pipewriteFrom : ℕ → ℕ → PipeView → UserM Bool
  | 0, _, _ => pure true
  | k + 1, addr, v =>
      match awaitRoom v.wakes v.pipe v.killed with
      | none => Exec.throw .asleep
      | some none => pure false
      | some (some v) => do
          let c ← loadByte addr
          pipewriteFrom k (addr + 1) { v with pipe := v.pipe.push c }

/-- `pipewrite`. -/
def pipewrite (v : PipeView) (addr : ℕ) (n : ℤ) : UserM ℤ := do
  let done ← pipewriteFrom n.toNat addr v
  pure (if done then n else -1)

/-! ## Inodes -/

/-- The loop of `consoleread` with `k` bytes to go: the number of bytes it stores,
`none` if the process was killed.  It ends early at an end of file (`C('D')`) and
after a newline. -/
def consolereadFrom : ℕ → ℕ → List (Option UInt8) → UserM (Option ℕ)
  | 0, _, _ => pure (some 0)
  | _ + 1, _, [] => Exec.throw .asleep
  | _ + 1, _, none :: _ => pure none
  | k + 1, dst, some c :: input =>
      if c = 4 then pure (some 0)
      else do
        storeByte dst c
        if c = 10 then pure (some 1)
        else do
          let i ← consolereadFrom k (dst + 1) input
          pure (i.map (· + 1))

/-- `consoleread`. -/
def consoleread (ip : InodeView) (dst : ℕ) (n : ℤ) : UserM ℤ := do
  match ← consolereadFrom n.toNat dst ip.input with
  | none => pure (-1)
  | some i => pure i

/-- `consolewrite`; the characters go to the screen. -/
def consolewrite (buf : ℕ) (n : ℤ) : UserM ℤ := do
  let _ ← loadBytes buf n.toNat
  pure n

/-- `ip->major` has functions in `devsw`. -/
def HasDriver (ip : InodeView) : Prop :=
  ¬(ip.major < 0 ∨ ndev ≤ ip.major ∨ ip.major ≠ console)

instance (ip : InodeView) : Decidable (HasDriver ip) :=
  inferInstanceAs (Decidable (¬_))

/-- One round of the loop of `readi`: copy a piece of a block to `dst`. -/
def readPiece (ip : InodeView) (dst : ℕ) (p : Piece) : UserM Unit :=
  storeBytes (dst + p.tot)
    ((List.range p.m).map fun i => UInt8.ofNat ((ip.block p.bn).byte (p.start + i)))

/-- `readi` into user memory. -/
def readi (ip : InodeView) (dst off n : ℕ) : UserM ℤ :=
  if ip.type = tDev then
    if HasDriver ip then consoleread ip dst (int32 n) else pure (-1)
  else
    match readCount ip.size off n with
    | none => pure (-1)
    | some n => do
        Exec.each (readPiece ip dst) (pieces off n)
        pure (int32 n)

/-- One round of the loop of `writei`: copy a piece from `src` to a block. -/
def writePiece (src : ℕ) (block : ℕ → Block) (p : Piece) : UserM (ℕ → Block) := do
  let cs ← loadBytes (src + p.tot) p.m
  pure fun bn =>
    if bn = p.bn then
      fun i => if p.start ≤ i ∧ i < p.start + p.m then cs.getD (i - p.start) 0 else block bn i
    else block bn

/-- The loop of `writei`. -/
def writePieces (src : ℕ) : (ℕ → Block) → List Piece → UserM (ℕ → Block)
  | block, [] => pure block
  | block, p :: ps => do
      let block ← writePiece src block p
      writePieces src block ps

/-- `writei` from user memory: the result and the inode afterwards. -/
def writei (ip : InodeView) (src off n : ℕ) : UserM (ℤ × InodeView) :=
  if ip.type = tDev then
    if HasDriver ip then do
      let r ← consolewrite src (int32 n)
      pure (r, ip)
    else pure (-1, ip)
  else if WriteFits ip.size off n then do
    let block ← writePieces src ip.block (pieces off n)
    pure (n, { ip with
      block := block
      size := if 0 < n ∧ ip.size < off + n then off + n else ip.size })
  else pure (-1, ip)

/-- `stati`, into the `struct stat` at `st`. -/
def stati (ip : InodeView) (st : ℕ) : UserM Unit := do
  storeBytes (st + 4) (toBytes 4 ip.dev)
  storeBytes (st + 8) (toBytes 4 ip.inum)
  storeBytes st (toBytes 2 ip.type)
  storeBytes (st + 12) (toBytes 2 ip.nlink)
  storeBytes (st + 16) (toBytes 4 ip.size)

/-! ## Files -/

/-- `fileread`: the result and the offset afterwards. -/
def fileread (f : FileView) (addr : ℕ) (n : ℤ) : UserM (ℤ × ℕ) :=
  if f.readable = false then pure (-1, f.off)
  else
    match f.type with
    | .pipe => do
        let r ← piperead f.pipe addr n
        pure (r, f.off)
    | .inode => do
        let r ← readi f.ip addr f.off (uint32 n)
        pure (r, if 0 < r then wrap32 (f.off + r.toNat) else f.off)
    | .none => Exec.throw .fileread

/-- The bound `max` on one transaction of `filewrite`. -/
abbrev maxChunk : ℕ := ((logsize - 1 - 1 - 2) / 2) * 512

/-- The loop of `filewrite`, `i` bytes written and `left` to go; each round
writes at least one byte, and the first argument counts the rounds. -/
def filewriteFrom (addr n : ℕ) : ℕ → InodeView → ℕ → ℕ → ℕ → UserM (ℤ × ℕ)
  | 0, _, off, _, _ => pure (n, off)
  | k + 1, ip, off, i, left =>
      if left = 0 then pure (n, off)
      else do
        let n1 := min left maxChunk
        let (r, ip) ← writei ip (addr + i) off n1
        let off := if 0 < r then wrap32 (off + r.toNat) else off
        if r < 0 then pure (-1, off)
        else if r ≠ n1 then Exec.throw .shortFilewrite
        else filewriteFrom addr n k ip off (i + n1) (left - n1)

/-- `filewrite`: the result and the offset afterwards. -/
def filewrite (f : FileView) (addr : ℕ) (n : ℤ) : UserM (ℤ × ℕ) :=
  if f.writable = false then pure (-1, f.off)
  else
    match f.type with
    | .pipe => do
        let r ← pipewrite f.pipe addr n
        pure (r, f.off)
    | .inode =>
        -- with `n < 0` the loop is not entered and `i == n` fails
        if n < 0 then pure (-1, f.off)
        else filewriteFrom addr n.toNat n.toNat f.ip f.off 0 n.toNat
    | .none => Exec.throw .filewrite

/-- `filestat`. -/
def filestat (f : FileView) (st : ℕ) : UserM ℤ :=
  match f.type with
  | .inode => do
      stati f.ip st
      pure 0
  | _ => pure (-1)

/-! ## The system calls -/

/-- A call whose arguments have been fetched and whose work moves no user data. -/
inductive Request where
  | fork
  | exit
  | wait
  | kill (pid : ℤ)
  | exec (path : List UInt8) (argv : List (List UInt8))
  | chdir (path : List UInt8)
  | dup (fd : Fin nofile)
  | getpid
  | sbrk (n : ℤ)
  | sleep (n : ℤ)
  | uptime
  | open (path : List UInt8) (omode : ℤ)
  | mknod (path : List UInt8) (major minor : ℤ)
  | unlink (path : List UInt8)
  | link (old new : List UInt8)
  | mkdir (path : List UInt8)
  | close (fd : Fin nofile)

/-- The calling process: `proc->sz`, which `allocuvm` keeps below `KERNBASE`, the
saved `esp` and `eax`, and its open files. -/
structure Caller where
  sz : ℕ
  sz_lt : sz < kernbase
  esp : ℕ
  eax : ℤ
  ofile : Fin nofile → Option FileView

/-- The rest of the kernel as a system call meets it. -/
structure Rest where
  /-- The result of a request. -/
  serve : Request → ℤ
  /-- The descriptors that `pipealloc` and `fdalloc` give to `sys_pipe`, if they
  succeed. -/
  pipe : Option (ℤ × ℤ)

section Calls

variable (rest : Rest) (u : Caller)

/-- `ofile[fd]`, if `fd` is a descriptor in use. -/
def Caller.file (fd : ℤ) : Option (Fin nofile × FileView) :=
  if h : 0 ≤ fd ∧ fd.toNat < nofile then
    (u.ofile ⟨fd.toNat, h.2⟩).map fun f => (⟨fd.toNat, h.2⟩, f)
  else none

/-- `argfd`. -/
def argfd (n : ℕ) : UserM (Option (Fin nofile × FileView)) := do
  match ← argint u.sz u.esp n with
  | none => pure none
  | some fd => pure (u.file fd)

/-- Fetch an `int` and go on, or return -1. -/
def withInt (n : ℕ) (f : ℤ → UserM ℤ) : UserM ℤ := do
  match ← argint u.sz u.esp n with
  | none => pure (-1)
  | some v => f v

/-- Fetch a string and go on, or return -1. -/
def withStr (n : ℕ) (f : List UInt8 → UserM ℤ) : UserM ℤ := do
  match ← argstr u.sz u.esp n with
  | none => pure (-1)
  | some v => f v

/-- Fetch a pointer and go on, or return -1. -/
def withPtr (n : ℕ) (size : ℤ) (f : ℕ → UserM ℤ) : UserM ℤ := do
  match ← argptr u.sz u.esp n size with
  | none => pure (-1)
  | some v => f v

/-- Fetch a descriptor and go on, or return -1. -/
def withFd (n : ℕ) (f : Fin nofile → FileView → UserM ℤ) : UserM ℤ := do
  match ← argfd u n with
  | none => pure (-1)
  | some (fd, file) => f fd file

/-- `sys_read`. -/
def sysRead : UserM ℤ :=
  withFd u 0 fun _ f => withInt u 2 fun n => withPtr u 1 n fun p => do
    let (r, _) ← fileread f p n
    pure r

/-- `sys_write`. -/
def sysWrite : UserM ℤ :=
  withFd u 0 fun _ f => withInt u 2 fun n => withPtr u 1 n fun p => do
    let (r, _) ← filewrite f p n
    pure r

/-- `sys_fstat`; a `struct stat` has 20 bytes. -/
def sysFstat : UserM ℤ :=
  withFd u 0 fun _ f => withPtr u 1 20 fun st => filestat f st

/-- `sys_pipe`. -/
def sysPipe : UserM ℤ :=
  withPtr u 0 8 fun fd =>
    match rest.pipe with
    | none => pure (-1)
    | some (fd0, fd1) => do
        storeBytes fd (toBytes 4 fd0)
        storeBytes (fd + 4) (toBytes 4 fd1)
        pure 0

/-- The loop of `sys_exec` from index `i` on, with `k` entries of `argv` left. -/
def execArgs (uargv : ℕ) : ℕ → ℕ → UserM (Option (List (List UInt8)))
  | 0, _ => pure none
  | k + 1, i => do
      match ← fetchint u.sz (wrap32 (uargv + 4 * i)) with
      | none => pure none
      | some uarg =>
          if uarg = 0 then pure (some [])
          else do
            match ← fetchstr u.sz (uint32 uarg) with
            | none => pure none
            | some arg => do
                let args ← execArgs uargv k (i + 1)
                pure (args.map (arg :: ·))

/-- `sys_exec`. -/
def sysExec : UserM ℤ :=
  withStr u 0 fun path => withInt u 1 fun uargv => do
    match ← execArgs u (uint32 uargv) maxarg 0 with
    | none => pure (-1)
    | some argv => pure (rest.serve (.exec path argv))

/-- The table `syscalls`, by system call number. -/
def syscalls : ℤ → Option (UserM ℤ)
  | 1 => some (pure (rest.serve .fork))
  | 2 => some (pure (rest.serve .exit))
  | 3 => some (pure (rest.serve .wait))
  | 4 => some (sysPipe rest u)
  | 5 => some (sysRead u)
  | 6 => some (withInt u 0 fun pid => pure (rest.serve (.kill pid)))
  | 7 => some (sysExec rest u)
  | 8 => some (sysFstat u)
  | 9 => some (withStr u 0 fun path => pure (rest.serve (.chdir path)))
  | 10 => some (withFd u 0 fun fd _ => pure (rest.serve (.dup fd)))
  | 11 => some (pure (rest.serve .getpid))
  | 12 => some (withInt u 0 fun n => pure (rest.serve (.sbrk n)))
  | 13 => some (withInt u 0 fun n => pure (rest.serve (.sleep n)))
  | 14 => some (pure (rest.serve .uptime))
  | 15 => some (withStr u 0 fun path => withInt u 1 fun omode =>
      pure (rest.serve (.open path omode)))
  | 16 => some (sysWrite u)
  | 17 => some (withStr u 0 fun path => withInt u 1 fun major => withInt u 2 fun minor =>
      pure (rest.serve (.mknod path major minor)))
  | 18 => some (withStr u 0 fun path => pure (rest.serve (.unlink path)))
  | 19 => some (withStr u 0 fun old => withStr u 1 fun new =>
      pure (rest.serve (.link old new)))
  | 20 => some (withStr u 0 fun path => pure (rest.serve (.mkdir path)))
  | 21 => some (withFd u 0 fun fd _ => pure (rest.serve (.close fd)))
  | _ => none

/-- `syscall`: the value it leaves in `eax`. -/
def syscall : UserM ℤ :=
  match syscalls rest u u.eax with
  | some call => call
  | none => pure (-1)

/-- The user addresses a system call touches, from user memory `mem` on. -/
def accesses (mem : ℕ → UInt8) : List Access :=
  (syscall rest u ⟨mem, []⟩).2.accesses

end Calls

end Xv6
