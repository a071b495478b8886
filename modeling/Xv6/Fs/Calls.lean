import Xv6.Fs.Dir

/-!
# System calls on the file system

The parts of `sysfile.c`, `file.c` and `exec.c` that work on inodes, for a process with
current directory `cwd`.  A path that `argstr` does not accept is `none`, and `junk` is
what the stack holds in place of the buffers for names.
-/

namespace Xv6.Fs

open Support

/-- `O_WRONLY`. -/
abbrev oWronly : ℕ := 1

/-- `O_RDWR`. -/
abbrev oRdwr : ℕ := 2

/-- `O_CREATE`. -/
abbrev oCreate : ℕ := 512

/-! ## Links -/

/-- The part of `sys_link` after `bad`. -/
def linkBad (ip : Fin ninode) : FsM ℤ := do
  ilock ip
  modifyInode ip fun i => { i with nlink := int16 (i.nlink - 1) }
  iupdate ip
  iunlockput ip
  commitTrans
  pure (-1)

/-- `sys_link`. -/
def sysLink (cwd : Fin ninode) (old new : Option (List UInt8)) (junk : Chars) : FsM ℤ :=
  match old, new with
  | some old, some new => do
      let found ← namei cwd old junk
      match found with
      | none => pure (-1)
      | some ip => do
          beginTrans
          ilock ip
          let i ← getInode ip
          if i.type = tDir then do
            iunlockput ip
            commitTrans
            pure (-1)
          else do
            modifyInode ip fun i => { i with nlink := int16 (i.nlink + 1) }
            iupdate ip
            iunlock ip
            let parent ← nameiparent cwd new junk
            match parent with
            | (none, _) => linkBad ip
            | (some dp, name) => do
                ilock dp
                let i ← getInode ip
                let r ← dirlink dp name i.inum
                if r < 0 then do
                  iunlockput dp
                  linkBad ip
                else do
                  iunlockput dp
                  iput ip
                  commitTrans
                  pure 0
  | _, _ => pure (-1)

/-- The loop of `isdirempty`. -/
def isdiremptyFrom (dp : Fin ninode) : List ℕ → FsM Bool
  | [] => pure true
  | off :: offs => do
      let de ← readDirent dp off .isdiremptyReadi
      if de.inum ≠ 0 then pure false else isdiremptyFrom dp offs

/-- `isdirempty`. -/
def isdirempty (dp : Fin ninode) : FsM Bool := do
  let i ← getInode dp
  isdiremptyFrom dp ((offsets i.size).drop 2)

/-- The part of `sys_unlink` after `bad`. -/
def unlinkBad (dp : Fin ninode) : FsM ℤ := do
  iunlockput dp
  commitTrans
  pure (-1)

/-- `ip->type == T_DIR && !isdirempty(ip)` -/
def isFullDir (ip : Fin ninode) : FsM Bool := do
  let i ← getInode ip
  if i.type = tDir then do
    let empty ← isdirempty ip
    pure (!empty)
  else pure false

/-- The part of `sys_unlink` that takes back the link of `..`. -/
def unlinkDots (dp : Fin ninode) (type : ℤ) : FsM Unit :=
  if type = tDir then do
    modifyInode dp fun d => { d with nlink := int16 (d.nlink - 1) }
    iupdate dp
  else pure ()

/-- The part of `sys_unlink` with the entry at `off` found and its inode locked. -/
def unlinkEntry (dp ip : Fin ninode) (off : ℕ) : FsM ℤ := do
  let i ← getInode ip
  if i.nlink < 1 then Exec.throw .unlinkNlink
  else do
    let full ← isFullDir ip
    if full then do
      iunlockput ip
      unlinkBad dp
    else do
      clearDirent dp off
      unlinkDots dp i.type
      iunlockput dp
      modifyInode ip fun i => { i with nlink := int16 (i.nlink - 1) }
      iupdate ip
      iunlockput ip
      commitTrans
      pure 0

/-- `sys_unlink`. -/
def sysUnlink (cwd : Fin ninode) (path : Option (List UInt8)) (junk : Chars) : FsM ℤ :=
  match path with
  | none => pure (-1)
  | some path => do
      let parent ← nameiparent cwd path junk
      match parent with
      | (none, _) => pure (-1)
      | (some dp, name) => do
          beginTrans
          ilock dp
          if namecmp name (Chars.ofList [46]) = 0 ∨ namecmp name (Chars.ofList [46, 46]) = 0 then
            unlinkBad dp
          else do
            let found ← dirlookup dp name
            match found with
            | none => unlinkBad dp
            | some (ip, off) => do
                ilock ip
                unlinkEntry dp ip off

/-! ## New files -/

/-- A call of `dirlink` that must not fail. -/
def mustLink (dp : Fin ninode) (name : Chars) (inum : ℕ) (e : Stop) : FsM Unit := do
  let r ← dirlink dp name inum
  if r < 0 then Exec.throw e else pure ()

/-- The part of `create` that makes the entries `.` and `..` of a directory. -/
def createDots (dp ip : Fin ninode) (type : ℤ) : FsM Unit :=
  if type = tDir then do
    modifyInode dp fun d => { d with nlink := int16 (d.nlink + 1) }
    iupdate dp
    let i ← getInode ip
    mustLink ip (Chars.ofList [46]) i.inum .createDots
    let d ← getInode dp
    mustLink ip (Chars.ofList [46, 46]) d.inum .createDots
  else pure ()

/-- The part of `create` that makes a new inode for the name. -/
def createNew (dp : Fin ninode) (name : Chars) (type major minor : ℤ) :
    FsM (Option (Fin ninode)) := do
  let ip ← ialloc type
  ilock ip
  modifyInode ip fun i => { i with major := major, minor := minor, nlink := 1 }
  iupdate ip
  createDots dp ip type
  let i ← getInode ip
  mustLink dp name i.inum .createDirlink
  iunlockput dp
  pure (some ip)

/-- `create`: the inode, locked, or `none` for 0. -/
def create (cwd : Fin ninode) (path : List UInt8) (type major minor : ℤ) (junk : Chars) :
    FsM (Option (Fin ninode)) := do
  let parent ← nameiparent cwd path junk
  match parent with
  | (none, _) => pure none
  | (some dp, name) => do
      ilock dp
      let found ← dirlookup dp name
      match found with
      | some (ip, _) => do
          iunlockput dp
          ilock ip
          let i ← getInode ip
          if type = tFile ∧ i.type = tFile then pure (some ip)
          else do
            iunlockput ip
            pure none
      | none => createNew dp name type major minor

/-- What `sys_mkdir` and `sys_mknod` do between `begin_trans` and `commit_trans`. -/
def make (cwd : Fin ninode) (path : Option (List UInt8)) (type major minor : ℤ)
    (junk : Chars) : FsM ℤ :=
  match path with
  | none => pure (-1)
  | some path => do
      let made ← create cwd path type major minor junk
      match made with
      | none => pure (-1)
      | some ip => do
          iunlockput ip
          pure 0

/-- `sys_mkdir`. -/
def sysMkdir (cwd : Fin ninode) (path : Option (List UInt8)) (junk : Chars) : FsM ℤ := do
  beginTrans
  let r ← make cwd path tDir 0 0 junk
  commitTrans
  pure r

/-- `sys_mknod`; the numbers are those that `create` stores in a `short`. -/
def sysMknod (cwd : Fin ninode) (path : Option (List UInt8)) (major minor : ℤ) (junk : Chars) :
    FsM ℤ := do
  beginTrans
  let r ← make cwd path tDev (int16 major) (int16 minor) junk
  commitTrans
  pure r

/-- The part of `sys_open` that finds or makes the inode, and locks it. -/
def openInode (cwd : Fin ninode) (path : List UInt8) (omode : ℕ) (junk : Chars) :
    FsM (Option (Fin ninode)) :=
  if omode &&& oCreate ≠ 0 then do
    beginTrans
    let ip ← create cwd path tFile 0 0 junk
    commitTrans
    pure ip
  else do
    let found ← namei cwd path junk
    match found with
    | none => pure none
    | some ip => do
        ilock ip
        let i ← getInode ip
        if i.type = tDir ∧ omode ≠ 0 then do
          iunlockput ip
          pure none
        else pure (some ip)

/-- `sys_chdir`: the new current directory, or `none` for -1. -/
def sysChdir (cwd : Fin ninode) (path : Option (List UInt8)) (junk : Chars) :
    FsM (Option (Fin ninode)) :=
  match path with
  | none => pure none
  | some path => do
      let found ← namei cwd path junk
      match found with
      | none => pure none
      | some ip => do
          ilock ip
          let i ← getInode ip
          if i.type ≠ tDir then do
            iunlockput ip
            pure none
          else do
            iunlock ip
            iput cwd
            pure (some ip)

/-! ## Programs -/

/-- What `exec` finds in memory and what the functions of `vm.c` return: the bytes on the
stack in place of `elf`, whether there is a page table, whether `allocuvm` succeeds for the
segment with a given number, and whether the rest succeeds after the segments are loaded. -/
structure ExecMemory where
  elf : List UInt8
  setupkvm : Bool
  allocuvm : ℕ → Bool
  rest : Bool

/-- The little-endian number in the `n` bytes from `i` on. -/
def numAt (cs : List UInt8) (i : ℕ) : ℕ → ℕ
  | 0 => 0
  | n + 1 => (cs.getD i 0).toNat + 256 * numAt cs (i + 1) n

/-- The loop of `loaduvm` with at most `n` pages to go, at byte `i` of `sz`. -/
def loaduvmFrom (ip : Fin ninode) (offset sz : ℕ) : ℕ → ℕ → FsM Bool
  | 0, _ => pure true
  | n + 1, i =>
      if i < sz then do
        let m := min 4096 (sz - i)
        let r ← readi ip (wrap32 (offset + i)) m
        if (r.map List.length) ≠ some m then pure false
        else loaduvmFrom ip offset sz n (i + 4096)
      else pure true

/-- The loop of `exec` over the program headers, from header `i` at `off` on. -/
def loadSegments (mem : ExecMemory) (ip : Fin ninode) : ℕ → ℕ → ℕ → FsM Bool
  | 0, _, _ => pure true
  | n + 1, i, off => do
      let r ← readi ip off 32
      match r with
      | none => pure false
      | some ph =>
          if ph.length ≠ 32 then pure false
          else if numAt ph 0 4 ≠ 1 then loadSegments mem ip n (i + 1) (wrap32 (off + 32))
          else if numAt ph 20 4 < numAt ph 16 4 then pure false
          else if mem.allocuvm i = false then pure false
          else do
            let loaded ← loaduvmFrom ip (numAt ph 4 4) (numAt ph 16 4) (numAt ph 16 4) 0
            if loaded = false then pure false
            else loadSegments mem ip n (i + 1) (wrap32 (off + 32))

/-- The part of `exec` that reads the file.  The result -1 of `readi` is not less than
`sizeof(elf)`, which is unsigned. -/
def execLoad (mem : ExecMemory) (ip : Fin ninode) : FsM Bool := do
  let r ← readi ip 0 52
  let elf := r.getD mem.elf
  if (r.map fun cs => decide (cs.length < 52)) = some true then pure false
  else if numAt elf 0 4 ≠ 0x464C457F then pure false
  else if mem.setupkvm = false then pure false
  else loadSegments mem ip (numAt elf 44 2) 0 (numAt elf 28 4)

/-- `exec`, as far as it deals with the file; whether it succeeds. -/
def exec (mem : ExecMemory) (cwd : Fin ninode) (path : List UInt8) (junk : Chars) : FsM Bool := do
  let found ← namei cwd path junk
  match found with
  | none => pure false
  | some ip => do
      ilock ip
      let loaded ← execLoad mem ip
      iunlockput ip
      pure (loaded && mem.rest)

end Xv6.Fs
