import Xv6.Fs.Calls
import Xv6.Proc.Table
import Xv6.Sys.Call

/-!
# Files and processes

The tables above the inode cache: `ftable` of `file.c` and, of every process, its open
files and its current directory; and the system calls that work on them, executed one at a
time.  Of a pipe only its address is kept, since what it holds does not matter to files.

The results of `kalloc`, of `piperead` and `pipewrite`, and of the functions that fetch
arguments are inputs of a call.
-/

namespace Xv6.Fs

open Support

/-- `NFILE`, the size of the file table. -/
abbrev nfile : ℕ := 100

/-- `struct file` -/
structure File where
  type : FileType
  ref : ℕ
  readable : Bool
  writable : Bool
  pipe : ℕ
  ip : Fin ninode
  off : ℕ

/-- `struct proc`, the fields for files. -/
structure Task where
  state : ProcState
  pid : ℤ
  parent : Option Slot
  ofile : Fin nofile → Option (Fin nfile)
  cwd : Option (Fin ninode)

/-- The file system with its users. -/
structure System where
  vol : Volume
  /-- `ftable.file`. -/
  file : Fin nfile → File
  /-- `ptable.proc`. -/
  task : Slot → Task
  nextpid : ℤ
  initproc : Slot

/-- System-call code. -/
abbrev SystemM := Exec System Stop

/-- Run code of the file system proper. -/
def onVolume {α : Type} (m : FsM α) : SystemM α :=
  Exec.zoom System.vol (fun v s => { s with vol := v }) m

/-- The state with entry `i` of the file table replaced. -/
def System.setFile (s : System) (i : Fin nfile) (f : File) : System :=
  { s with file := Function.update s.file i f }

/-- The state with entry `p` of the process table replaced. -/
def System.setTask (s : System) (p : Slot) (t : Task) : System :=
  { s with task := Function.update s.task p t }

/-- Change one entry of the file table. -/
def modifyFile (i : Fin nfile) (f : File → File) : SystemM Unit :=
  Exec.modify fun s => s.setFile i (f (s.file i))

/-- Change one entry of the process table. -/
def modifyTask (p : Slot) (f : Task → Task) : SystemM Unit :=
  Exec.modify fun s => s.setTask p (f (s.task p))

/-- `proc->cwd`; a process that runs always has one. -/
def getCwd (p : Slot) : SystemM (Fin ninode) := do
  let t ← Exec.gets fun s => s.task p
  match t.cwd with
  | none => Exec.throw .ilock
  | some cwd => pure cwd

/-! ## The file table -/

/-- The first entry of the file table that is not in use. -/
def emptyFile (file : Fin nfile → File) : Option (Fin nfile) :=
  (List.finRange nfile).find? fun i => (file i).ref = 0

/-- `filealloc`. -/
def filealloc : SystemM (Option (Fin nfile)) := do
  let file ← Exec.gets System.file
  match emptyFile file with
  | none => pure none
  | some i => do
      modifyFile i fun f => { f with ref := 1 }
      pure (some i)

/-- `filedup`. -/
def filedup (i : Fin nfile) : SystemM Unit := do
  let f ← Exec.gets fun s => s.file i
  if f.ref < 1 then Exec.throw .filedup
  else modifyFile i fun f => { f with ref := f.ref + 1 }

/-- The part of `fileclose` that releases what the file was open for. -/
def closeInode (ff : File) : SystemM Unit :=
  if ff.type = .inode then onVolume do
    beginTrans
    iput ff.ip
    commitTrans
  else pure ()

/-- `fileclose`. -/
def fileclose (i : Fin nfile) : SystemM Unit := do
  let ff ← Exec.gets fun s => s.file i
  if ff.ref < 1 then Exec.throw .fileclose
  else if 0 < ff.ref - 1 then modifyFile i fun f => { f with ref := f.ref - 1 }
  else do
    modifyFile i fun f => { f with ref := 0, type := .none }
    closeInode ff

/-- `fileread`: the bytes read, or `none` for -1; `piped` is what `piperead` returns. -/
def fileread (i : Fin nfile) (n : ℤ) (piped : Option (List UInt8)) :
    SystemM (Option (List UInt8)) := do
  let f ← Exec.gets fun s => s.file i
  if f.readable = false then pure none
  else
    match f.type with
    | .pipe => pure piped
    | .inode => do
        let r ← onVolume do
          ilock f.ip
          let r ← readi f.ip f.off (uint32 n)
          iunlock f.ip
          pure r
        modifyFile i fun f => { f with off := wrap32 (f.off + (r.getD []).length) }
        pure r
    | .none => Exec.throw .fileread

/-- The loop of `filewrite` with at most `k` rounds, from byte `j` of `n` on. -/
def filewriteFrom (i : Fin nfile) (src : Chars) (n : ℕ) : ℕ → ℕ → SystemM (Option ℕ)
  | 0, _ => pure (some n)
  | k + 1, j =>
      if j < n then do
        let n1 := min (n - j) maxChunk
        let f ← Exec.gets fun s => s.file i
        let r ← onVolume do
          beginTrans
          ilock f.ip
          let r ← writei f.ip (fun x => src (j + x)) f.off n1
          iunlock f.ip
          commitTrans
          pure r
        match r with
        | none => pure none
        | some r => do
            modifyFile i fun f => { f with off := wrap32 (f.off + r) }
            if r ≠ n1 then Exec.throw .shortFilewrite
            else filewriteFrom i src n k (j + r)
      else pure (some n)

/-- `filewrite`: the number of bytes written, or `none` for -1; `piped` is what `pipewrite`
returns.  With `n < 0` the loop is not entered and `i == n` fails. -/
def filewrite (i : Fin nfile) (src : Chars) (n : ℤ) (piped : Option ℕ) :
    SystemM (Option ℕ) := do
  let f ← Exec.gets fun s => s.file i
  if f.writable = false then pure none
  else
    match f.type with
    | .pipe => pure piped
    | .inode => if n < 0 then pure none else filewriteFrom i src n.toNat n.toNat 0
    | .none => Exec.throw .filewrite

/-- `struct stat`, less the device. -/
structure Stat where
  ino : ℕ
  type : ℤ
  nlink : ℤ
  size : ℕ
  deriving DecidableEq

/-- `stati`. -/
def stati (ip : Inode) : Stat where
  ino := ip.inum
  type := ip.type
  nlink := ip.nlink
  size := ip.size

/-- `filestat`: what it stores, or `none` for -1. -/
def filestat (i : Fin nfile) : SystemM (Option Stat) := do
  let f ← Exec.gets fun s => s.file i
  if f.type = .inode then onVolume do
    ilock f.ip
    let ip ← getInode f.ip
    iunlock f.ip
    pure (some (stati ip))
  else pure none

/-- `pipealloc`: the reading and the writing end; `page` is what `kalloc` returns. -/
def pipealloc (page : Option ℕ) : SystemM (Option (Fin nfile × Fin nfile)) := do
  let f0 ← filealloc
  match f0 with
  | none => pure none
  | some f0 => do
      let f1 ← filealloc
      match f1 with
      | none => do
          fileclose f0
          pure none
      | some f1 =>
          match page with
          | none => do
              fileclose f0
              fileclose f1
              pure none
          | some pipe => do
              modifyFile f0 fun f =>
                { f with type := .pipe, readable := true, writable := false, pipe := pipe }
              modifyFile f1 fun f =>
                { f with type := .pipe, readable := false, writable := true, pipe := pipe }
              pure (some (f0, f1))

/-! ## Descriptors -/

theorem toNat_lt_nofile {fd : ℤ} (h : 0 ≤ fd ∧ fd < nofile) : fd.toNat < nofile := by
  omega

/-- `argfd`: the descriptor and the file; `fd` is `none` if `argint` fails. -/
def argfd (p : Slot) (fd : Option ℤ) : SystemM (Option (Fin nofile × Fin nfile)) := do
  let t ← Exec.gets fun s => s.task p
  pure (fd.bind fun fd =>
    if h : 0 ≤ fd ∧ fd < nofile then
      (t.ofile ⟨fd.toNat, toNat_lt_nofile h⟩).map fun i => (⟨fd.toNat, toNat_lt_nofile h⟩, i)
    else none)

/-- `proc->ofile[fd] = f` -/
def setOfile (p : Slot) (fd : Fin nofile) (f : Option (Fin nfile)) : SystemM Unit :=
  modifyTask p fun t => { t with ofile := Function.update t.ofile fd f }

/-- The first descriptor that is not in use. -/
def emptyOfile (ofile : Fin nofile → Option (Fin nfile)) : Option (Fin nofile) :=
  (List.finRange nofile).find? fun fd => ofile fd = none

/-- `fdalloc`. -/
def fdalloc (p : Slot) (f : Fin nfile) : SystemM (Option (Fin nofile)) := do
  let t ← Exec.gets fun s => s.task p
  match emptyOfile t.ofile with
  | none => pure none
  | some fd => do
      setOfile p fd (some f)
      pure (some fd)

/-- `sys_dup`: the new descriptor, or `none` for -1. -/
def sysDup (p : Slot) (fd : Option ℤ) : SystemM (Option (Fin nofile)) := do
  let a ← argfd p fd
  match a with
  | none => pure none
  | some (_, f) => do
      let r ← fdalloc p f
      match r with
      | none => pure none
      | some fd => do
          filedup f
          pure (some fd)

/-- `sys_read`; `n` is `none` if `argint` or `argptr` fails. -/
def sysRead (p : Slot) (fd n : Option ℤ) (piped : Option (List UInt8)) :
    SystemM (Option (List UInt8)) := do
  let a ← argfd p fd
  match a, n with
  | some (_, f), some n => fileread f n piped
  | _, _ => pure none

/-- `sys_write`. -/
def sysWrite (p : Slot) (fd : Option ℤ) (src : Chars) (n : Option ℤ) (piped : Option ℕ) :
    SystemM (Option ℕ) := do
  let a ← argfd p fd
  match a, n with
  | some (_, f), some n => filewrite f src n piped
  | _, _ => pure none

/-- `sys_close`: whether there was such a descriptor. -/
def sysClose (p : Slot) (fd : Option ℤ) : SystemM Bool := do
  let a ← argfd p fd
  match a with
  | none => pure false
  | some (fd, f) => do
      setOfile p fd none
      fileclose f
      pure true

/-- `sys_fstat`; `st` is false if `argptr` fails. -/
def sysFstat (p : Slot) (fd : Option ℤ) (st : Bool) : SystemM (Option Stat) := do
  let a ← argfd p fd
  match a with
  | none => pure none
  | some (_, f) => if st then filestat f else pure none

/-- The part of `sys_open` after the inode `ip` has been locked. -/
def openFile (p : Slot) (ip : Fin ninode) (omode : ℕ) : SystemM (Option (Fin nofile)) := do
  let f ← filealloc
  match f with
  | none => do
      onVolume (iunlockput ip)
      pure none
  | some f => do
      let fd ← fdalloc p f
      match fd with
      | none => do
          fileclose f
          onVolume (iunlockput ip)
          pure none
      | some fd => do
          onVolume (iunlock ip)
          modifyFile f fun f => { f with
            type := .inode
            ip := ip
            off := 0
            readable := omode &&& oWronly = 0
            writable := omode &&& oWronly ≠ 0 ∨ omode &&& oRdwr ≠ 0 }
          pure (some fd)

/-- `sys_open`: the descriptor, or `none` for -1. -/
def sysOpen (p : Slot) (path : Option (List UInt8)) (omode : Option ℕ) (junk : Chars) :
    SystemM (Option (Fin nofile)) :=
  match path, omode with
  | some path, some omode => do
      let cwd ← getCwd p
      let ip ← onVolume (openInode cwd path omode junk)
      match ip with
      | none => pure none
      | some ip => openFile p ip omode
  | _, _ => pure none

/-- `sys_pipe`: the two descriptors, or `none` for -1; `fd` is false if `argptr` fails. -/
def sysPipe (p : Slot) (fd : Bool) (page : Option ℕ) :
    SystemM (Option (Fin nofile × Fin nofile)) :=
  if fd then do
    let r ← pipealloc page
    match r with
    | none => pure none
    | some (rf, wf) => do
        let fd0 ← fdalloc p rf
        match fd0 with
        | none => do
            fileclose rf
            fileclose wf
            pure none
        | some fd0 => do
            let fd1 ← fdalloc p wf
            match fd1 with
            | none => do
                setOfile p fd0 none
                fileclose rf
                fileclose wf
                pure none
            | some fd1 => pure (some (fd0, fd1))
  else pure none

/-! ## Processes -/

/-- The first entry of the process table that is not in use. -/
def emptyTask (task : Slot → Task) : Option Slot :=
  (List.finRange nproc).find? fun p => (task p).state = .unused

/-- `allocproc`; `kstack` tells whether there is memory for the kernel stack. -/
def allocproc (kstack : Bool) : SystemM (Option Slot) := do
  let s ← Exec.gets id
  match emptyTask s.task with
  | none => pure none
  | some p => do
      modifyTask p fun t => { t with state := .embryo, pid := s.nextpid }
      Exec.modify fun s => { s with nextpid := int32 (s.nextpid + 1) }
      if kstack then pure (some p)
      else do
        modifyTask p fun t => { t with state := .unused }
        pure none

/-- One round of the loop of `fork` over the open files. -/
def forkFile (np : Slot) (parent : Task) (fd : Fin nofile) : SystemM Unit :=
  match parent.ofile fd with
  | none => pure ()
  | some i => do
      filedup i
      setOfile np fd (some i)

/-- `fork`: the new process, or `none` for -1; `copied` tells whether `copyuvm` succeeds. -/
def fork (p : Slot) (kstack copied : Bool) : SystemM (Option ℤ) := do
  let np ← allocproc kstack
  match np with
  | none => pure none
  | some np =>
      if copied then do
        modifyTask np fun t => { t with parent := some p }
        let parent ← Exec.gets fun s => s.task p
        Exec.each (forkFile np parent) (List.finRange nofile)
        let cwd ← getCwd p
        let ip ← onVolume (idup cwd)
        let child ← Exec.gets fun s => s.task np
        modifyTask np fun t => { t with cwd := some ip, state := .runnable }
        pure (some child.pid)
      else do
        modifyTask np fun t => { t with state := .unused }
        pure none

/-- One round of the loop of `exit` over the open files. -/
def exitFile (p : Slot) (fd : Fin nofile) : SystemM Unit := do
  let t ← Exec.gets fun s => s.task p
  match t.ofile fd with
  | none => pure ()
  | some i => do
      fileclose i
      setOfile p fd none

/-- Pass a child of `p` on to `init`. -/
def Task.reparent (p init : Slot) (t : Task) : Task :=
  if t.parent = some p then { t with parent := some init } else t

/-- `exit`. -/
def exit (p : Slot) : SystemM Unit := do
  let init ← Exec.gets System.initproc
  if p = init then Exec.throw .initExiting
  else do
    Exec.each (exitFile p) (List.finRange nofile)
    let cwd ← getCwd p
    onVolume (iput cwd)
    modifyTask p fun t => { t with cwd := none }
    Exec.modify fun s => { s with task := fun q => (s.task q).reparent p init }
    modifyTask p fun t => { t with state := .zombie }

/-- The first child of `p` that has exited. -/
def zombieChild (p : Slot) (task : Slot → Task) : Option Slot :=
  (List.finRange nproc).find? fun q => (task q).parent = some p ∧ (task q).state = .zombie

/-- `wait`: the child that has exited, or `none` for -1.  With children none of which has
exited the process sleeps, and no other process runs. -/
def wait (p : Slot) : SystemM (Option ℤ) := do
  let task ← Exec.gets System.task
  match zombieChild p task with
  | none => if ∃ q, (task q).parent = some p then Exec.throw .asleep else pure none
  | some q => do
      modifyTask q fun t => { t with state := .unused, pid := 0, parent := none }
      pure (some (task q).pid)

/-- `sys_exec`, whether it succeeds; `path` is `none` if the arguments cannot be fetched. -/
def sysExec (p : Slot) (path : Option (List UInt8)) (mem : ExecMemory) (junk : Chars) :
    SystemM Bool :=
  match path with
  | none => pure false
  | some path => do
      let cwd ← getCwd p
      onVolume (exec mem cwd path junk)

/-- A call of the file system with the current directory of the process. -/
def withCwd (p : Slot) (call : Fin ninode → FsM ℤ) : SystemM ℤ := do
  let cwd ← getCwd p
  onVolume (call cwd)

/-- `sys_chdir`, with the current directory that it leaves; whether it succeeds. -/
def changeDir (p : Slot) (path : Option (List UInt8)) (junk : Chars) : SystemM Bool := do
  let cwd ← getCwd p
  let r ← onVolume (sysChdir cwd path junk)
  match r with
  | none => pure false
  | some ip => do
      modifyTask p fun t => { t with cwd := some ip }
      pure true

/-! ## Runs -/

/-- A system call with what it fetches from user memory. -/
inductive SysCall where
  | open (path : Option (List UInt8)) (omode : Option ℕ)
  | dup (fd : Option ℤ)
  | read (fd n : Option ℤ) (piped : Option (List UInt8))
  | write (fd : Option ℤ) (src : Chars) (n : Option ℤ) (piped : Option ℕ)
  | close (fd : Option ℤ)
  | fstat (fd : Option ℤ) (st : Bool)
  | pipe (fd : Bool) (page : Option ℕ)
  | fork (kstack copied : Bool)
  | chdir (path : Option (List UInt8))
  | link (old new : Option (List UInt8))
  | unlink (path : Option (List UInt8))
  | mkdir (path : Option (List UInt8))
  | mknod (path : Option (List UInt8)) (major minor : ℤ)
  | exec (path : Option (List UInt8)) (mem : ExecMemory)
  | exit
  | wait

/-- What a call returns. -/
inductive Reply where
  /-- The result of a call that returns 0 or -1. -/
  | done (r : ℤ)
  | fd (fd : Option (Fin nofile))
  | bytes (cs : Option (List UInt8))
  | count (n : Option ℕ)
  | stat (st : Option Stat)
  | ends (fds : Option (Fin nofile × Fin nofile))
  | pid (pid : Option ℤ)
  /-- `exit` does not return. -/
  | gone
  deriving DecidableEq

/-- The result 0 for success, and -1. -/
def Reply.ofBool (ok : Bool) : Reply :=
  .done (if ok then 0 else -1)

/-- Make a reply of what a call returns. -/
def reply {α : Type} (f : α → Reply) (m : SystemM α) : SystemM Reply := do
  let r ← m
  pure (f r)

/-- What a call of process `p` does. -/
def perform (p : Slot) (junk : Chars) : SysCall → SystemM Reply
  | .open path omode => reply .fd (sysOpen p path omode junk)
  | .dup fd => reply .fd (sysDup p fd)
  | .read fd n piped => reply .bytes (sysRead p fd n piped)
  | .write fd src n piped => reply .count (sysWrite p fd src n piped)
  | .close fd => reply Reply.ofBool (sysClose p fd)
  | .fstat fd st => reply .stat (sysFstat p fd st)
  | .pipe fd page => reply .ends (sysPipe p fd page)
  | .fork kstack copied => reply .pid (fork p kstack copied)
  | .chdir path => reply Reply.ofBool (changeDir p path junk)
  | .link old new => reply .done (withCwd p fun cwd => sysLink cwd old new junk)
  | .unlink path => reply .done (withCwd p fun cwd => sysUnlink cwd path junk)
  | .mkdir path => reply .done (withCwd p fun cwd => sysMkdir cwd path junk)
  | .mknod path major minor => reply .done (withCwd p fun cwd => sysMknod cwd path major minor junk)
  | .exec path mem => reply Reply.ofBool (sysExec p path mem junk)
  | .exit => reply (fun _ => .gone) (exit p)
  | .wait => reply .pid (wait p)

/-- A call by a process that has not exited, with its reply. -/
structure CallStep (s : System) (op : Slot × Chars × SysCall × Reply) (s' : System) : Prop where
  alive : (s.task op.1).state = .runnable
  returns : perform op.1 op.2.1 op.2.2.1 s = (.ok op.2.2.2, s')

/-! ## Boot -/

/-- The tables before the first process, with a disk; `k` and `p` are what the null
pointers in them are taken for. -/
def powerOn (v : Volume) (k : Fin ninode) (p : Slot) : System where
  vol := { v with
    inode := fun _ => ⟨Dinode.zero, 0, 0, false, false⟩
    log := ⟨false, [], v.log.size⟩ }
  file _ := ⟨.none, 0, false, false, 0, k, 0⟩
  task _ := ⟨.unused, 0, none, fun _ => none, none⟩
  nextpid := 1
  initproc := p

/-- The part of `userinit` for the current directory of the first process; there is no
current directory yet that `namei` could start from, and the path does not ask for one. -/
def userinit (k : Fin ninode) (junk : Chars) : SystemM Unit := do
  let p ← allocproc true
  match p with
  | none => pure ()
  | some p => do
      Exec.modify fun s => { s with initproc := p }
      let ip ← onVolume (namei k [slash] junk)
      modifyTask p fun t => { t with cwd := ip, state := .runnable }

/-- The states after boot, whatever the disk holds. -/
def Booted (s : System) : Prop :=
  ∃ v k p junk, userinit k junk (powerOn v k p) = (.ok (), s)

end Xv6.Fs
