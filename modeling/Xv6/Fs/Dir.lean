import Xv6.Fs.Inode

/-!
# Directories and path names

The rest of `fs.c`: directories as files of `struct dirent`s, and the resolution
of path names.
-/

namespace Xv6.Fs

open Support

/-- `struct dirent`. -/
structure Dirent where
  inum : ℕ
  name : Chars

/-- `sizeof(struct dirent)`. -/
abbrev dirsize : ℕ := 16

/-- The directory entry that a buffer of 16 bytes holds. -/
def Dirent.ofBytes (cs : List UInt8) : Dirent where
  inum := (cs.getD 0 0).toNat + 256 * (cs.getD 1 0).toNat
  name := fun i => cs.getD (i + 2) 0

/-- The bytes of a directory entry. -/
def Dirent.bytes (de : Dirent) : Chars := fun i =>
  match i with
  | 0 => UInt8.ofNat de.inum
  | 1 => UInt8.ofNat (de.inum / 256)
  | i + 2 => de.name i

/-- `namecmp`. -/
def namecmp (s t : Chars) : ℤ :=
  strncmp s t dirsiz

/-- Read the directory entry at `off`, or `panic` if there are not 16 bytes. -/
def readDirent (k : Fin ninode) (off : ℕ) (e : Stop) : FsM Dirent := do
  let r ← readi k off dirsize
  match r with
  | none => Exec.throw e
  | some cs => if cs.length ≠ dirsize then Exec.throw e else pure (Dirent.ofBytes cs)

/-- The offsets that a loop over the entries of a directory of the given size
runs through. -/
def offsets (size : ℕ) : List ℕ :=
  (List.range ((size + 15) / dirsize)).map (dirsize * ·)

/-- The loop of `dirlookup`. -/
def dirlookupFrom (k : Fin ninode) (name : Chars) : List ℕ → FsM (Option (Fin ninode × ℕ))
  | [] => pure none
  | off :: offs => do
      let de ← readDirent k off .dirlinkRead
      if de.inum = 0 then dirlookupFrom k name offs
      else if namecmp name de.name = 0 then do
        let ip ← iget de.inum
        pure (some (ip, off))
      else dirlookupFrom k name offs

/-- `dirlookup`: the inode and the offset of its entry, or `none` for 0. -/
def dirlookup (k : Fin ninode) (name : Chars) : FsM (Option (Fin ninode × ℕ)) := do
  let dp ← getInode k
  if dp.type ≠ tDir then Exec.throw .dirlookupNotDir
  else dirlookupFrom k name (offsets dp.size)

/-- The loop of `dirlink`: the offset at which it stops. -/
def emptyDirent (k : Fin ninode) (last : ℕ) : List ℕ → FsM ℕ
  | [] => pure last
  | off :: offs => do
      let de ← readDirent k off .dirlinkRead
      if de.inum = 0 then pure off
      else emptyDirent k last offs

/-- The entry that `dirlink` writes; `de.inum` is a `ushort`. -/
def newDirent (name : Chars) (inum : ℕ) : Dirent where
  inum := inum % 65536
  name := Chars.ofList (strncpy name dirsiz)

/-- `dirlink`. -/
def dirlink (k : Fin ninode) (name : Chars) (inum : ℕ) : FsM ℤ := do
  let found ← dirlookup k name
  match found with
  | some (ip, _) => do
      iput ip
      pure (-1)
  | none => do
      let dp ← getInode k
      let off ← emptyDirent k (dirsize * ((dp.size + 15) / dirsize)) (offsets dp.size)
      let r ← writei k (newDirent name inum).bytes off dirsize
      if r ≠ some dirsize then Exec.throw .dirlink else pure 0

/-- The part of `sys_unlink` that clears the entry at `off`. -/
def clearDirent (k : Fin ninode) (off : ℕ) : FsM Unit := do
  let r ← writei k (Dirent.bytes ⟨0, fun _ => 0⟩) off dirsize
  if r ≠ some dirsize then Exec.throw .unlinkWritei

/-! ## Path names -/

/-- The loop of `namex` with at most `n` elements to go. -/
def namexFrom (nameiparent : Bool) :
    ℕ → Fin ninode → List UInt8 → Chars → FsM (Option (Fin ninode) × Chars)
  | 0, _, _, name => pure (none, name)
  | n + 1, ip, path, name =>
      match skipelem path name with
      | none =>
          if nameiparent then do
            iput ip
            pure (none, name)
          else pure (some ip, name)
      | some (path, name) => do
          ilock ip
          let dp ← getInode ip
          if dp.type ≠ tDir then do
            iunlockput ip
            pure (none, name)
          else if nameiparent ∧ deref path = 0 then do
            iunlock ip
            pure (some ip, name)
          else do
            let found ← dirlookup ip name
            match found with
            | none => do
                iunlockput ip
                pure (none, name)
            | some (next, _) => do
                iunlockput ip
                namexFrom nameiparent n next path name

/-- `namex` in a process with current directory `cwd`: the inode, or `none` for 0,
and the name buffer.  Each element takes a byte of the path, so there are fewer
elements than its length says. -/
def namex (cwd : Fin ninode) (path : List UInt8) (nameiparent : Bool) (name : Chars) :
    FsM (Option (Fin ninode) × Chars) := do
  let ip ← if deref path = slash then iget rootino else idup cwd
  namexFrom nameiparent (path.length + 1) ip path name

/-- `namei`; `name` is what the stack holds in place of its name buffer. -/
def namei (cwd : Fin ninode) (path : List UInt8) (name : Chars) : FsM (Option (Fin ninode)) := do
  let r ← namex cwd path false name
  pure r.1

/-- `nameiparent`. -/
def nameiparent (cwd : Fin ninode) (path : List UInt8) (name : Chars) :
    FsM (Option (Fin ninode) × Chars) :=
  namex cwd path true name

end Xv6.Fs
