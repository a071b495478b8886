import Xv6.Fs.Dir

/-!
# The image that `mkfs` writes

The part of `mkfs.c` that builds the file system.  As in the model of the kernel the
inodes and the bitmap are kept apart from the data blocks; the image starts out with
zeros everywhere.
-/

namespace Xv6.Fs

open Support

namespace Mkfs

/-- The assertions of `mkfs.c` that a list of files can make fail. -/
inductive Abort where
  /-- `index(argv[i], '/') == 0` -/
  | slash
  /-- `fbn < MAXFILE` -/
  | maxfile
  /-- `used < 512*8` -/
  | used
  /-- `rootino == ROOTINO` -/
  | rootino
  deriving DecidableEq, Repr

/-- The image under construction and the counters. -/
structure Image where
  block : ℕ → Block
  bits : ℕ → Block
  dinode : ℕ → Dinode
  freeblock : ℕ
  usedblocks : ℕ
  freeinode : ℕ

/-- Code of `mkfs`. -/
abbrev MkfsM := Exec Image Abort

/-- A file on the host: the name given on the command line, and the bytes that the calls of
`read` return, one after the other. -/
structure HostFile where
  name : List UInt8
  chunks : List (List UInt8)

/-- The state in which `main` starts to write files. -/
def Image.empty : Image where
  block _ := Block.zero
  bits _ := Block.zero
  dinode _ := Dinode.zero
  freeblock := geometry.usedblocks
  usedblocks := geometry.usedblocks
  freeinode := 1

/-- The image with the data `buf` in block `sec`. -/
def Image.setBlock (s : Image) (sec : ℕ) (buf : Block) : Image :=
  { s with block := Function.update s.block sec buf }

/-- The image with `din` as inode `inum`. -/
def Image.setDinode (s : Image) (inum : ℕ) (din : Dinode) : Image :=
  { s with dinode := Function.update s.dinode inum din }

/-- `wsect` of a data block. -/
def wsect (sec : ℕ) (buf : Block) : MkfsM Unit :=
  Exec.modify fun s => s.setBlock sec buf

/-- `winode`. -/
def winode (inum : ℕ) (din : Dinode) : MkfsM Unit :=
  Exec.modify fun s => s.setDinode inum din

/-- `ialloc`. -/
def ialloc (type : ℤ) : MkfsM ℕ := do
  let inum ← Exec.gets Image.freeinode
  Exec.modify fun s => { s with freeinode := s.freeinode + 1 }
  winode inum { Dinode.zero with type := type, nlink := 1 }
  pure inum

/-- `balloc`. -/
def balloc (used : ℕ) : MkfsM Unit :=
  if 512 * 8 ≤ used then Exec.throw .used
  else Exec.modify fun s => { s with bits := bitmap geometry used }

/-- `freeblock++` and `usedblocks++`. -/
def nextBlock : MkfsM ℕ := do
  let b ← Exec.gets Image.freeblock
  Exec.modify fun s => { s with freeblock := s.freeblock + 1, usedblocks := s.usedblocks + 1 }
  pure b

/-- The part of `iappend` that makes sure that there is an indirect block. -/
def appendIndirect (din : Dinode) : MkfsM Dinode :=
  if din.addrs ndirect = 0 then do
    let b ← nextBlock
    pure { din with addrs := Function.update din.addrs ndirect b }
  else pure din

/-- The address of block `fbn` of a file in `iappend`. -/
def appendBlock (din : Dinode) (fbn : ℕ) : MkfsM (Dinode × ℕ) :=
  if fbn < ndirect then
    if din.addrs fbn = 0 then do
      let b ← nextBlock
      pure ({ din with addrs := Function.update din.addrs fbn b }, b)
    else pure (din, din.addrs fbn)
  else do
    let din ← appendIndirect din
    let indirect ← Exec.gets fun s => s.block (din.addrs ndirect)
    if indirect.word (fbn - ndirect) = 0 then do
      let b ← nextBlock
      wsect (din.addrs ndirect) (indirect.setWord (fbn - ndirect) b)
      pure (din, b)
    else pure (din, indirect.word (fbn - ndirect))

/-- The loop of `iappend`, with at most `n` rounds. -/
def iappendFrom : ℕ → Dinode → ℕ → List UInt8 → MkfsM (Dinode × ℕ)
  | 0, din, off, _ => pure (din, off)
  | n + 1, din, off, p =>
      if p = [] then pure (din, off)
      else
        let fbn := off / 512
        if maxfile ≤ fbn then Exec.throw .maxfile
        else do
          let r ← appendBlock din fbn
          let n1 := min p.length ((fbn + 1) * 512 - off)
          let buf ← Exec.gets fun s => s.block r.2
          wsect r.2 (overwrite buf (Chars.ofList p) (off - fbn * 512) n1)
          iappendFrom n r.1 (off + n1) (p.drop n1)

/-- `iappend`; each round takes at least one byte. -/
def iappend (inum : ℕ) (p : List UInt8) : MkfsM Unit := do
  let din ← Exec.gets fun s => s.dinode inum
  let r ← iappendFrom p.length din din.size p
  winode inum { r.1 with size := r.2 }

/-- The bytes of the directory entry for a name. -/
def direntBytes (name : List UInt8) (inum : ℕ) : List UInt8 :=
  (List.range dirsize).map (newDirent (Chars.ofList name) inum).bytes

/-- The name without a leading underscore. -/
def skipUnderscore : List UInt8 → List UInt8
  | 95 :: cs => cs
  | cs => cs

/-- The body of the loop of `main` over the files. -/
def addFile (f : HostFile) : MkfsM Unit :=
  if slash ∈ f.name then Exec.throw .slash
  else do
    let inum ← ialloc tFile
    iappend rootino (direntBytes (skipUnderscore f.name) inum)
    Exec.each (fun buf => iappend inum buf) f.chunks

/-- `main` from the first inode on. -/
def main (files : List HostFile) : MkfsM Unit := do
  let root ← ialloc tDir
  if root ≠ rootino then Exec.throw .rootino
  else do
    iappend root (direntBytes [46] root)
    iappend root (direntBytes [46, 46] root)
    Exec.each addFile files
    let din ← Exec.gets fun s => s.dinode root
    winode root { din with size := (din.size / bsize + 1) * bsize }
    let used ← Exec.gets Image.usedblocks
    balloc used

/-- The disk as the kernel finds it, with nothing in its inode cache. -/
def Image.mount (s : Image) : Volume where
  ninodes := geometry.ninodes
  size := geometry.size
  block := s.block
  used b := (s.bits (bfreePos geometry.ninodes b).1).bit (bfreePos geometry.ninodes b).2
  dinode := s.dinode
  inode _ := ⟨Dinode.zero, 0, 0, false, false⟩
  log := ⟨false, [], geometry.nlog⟩
  devsw _ := none

end Mkfs

end Xv6.Fs
