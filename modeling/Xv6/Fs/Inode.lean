import Mathlib.Data.List.FinRange
import Xv6.Fs.Layout
import Xv6.Fs.Name
import Xv6.Fs.Transfer
import Xv6.Support.Exec

/-!
# Blocks and inodes

The functions of `fs.c` below directories, on the file system as they see it
through the block cache: `bread` hands out the data last put into a block with
`log_write`.  The blocks that hold the bitmap and the inodes appear as the bits
and the `struct dinode`s in them, and the log as the list of the blocks that the
running transaction has recorded.

There is one disk, `ROOTDEV`, so the `dev` of inodes and buffers is left out.
The spin lock of the inode cache is left out as well: no function sleeps or
writes to disk with it held.
-/

namespace Xv6.Fs

open Support

/-- `NDIRECT`. -/
abbrev ndirect : ℕ := 12

/-- `NINDIRECT`. -/
abbrev nindirect : ℕ := 128

/-- `NINODE`, the size of the inode cache. -/
abbrev ninode : ℕ := 50

/-- `ROOTINO`. -/
abbrev rootino : ℕ := 1

/-- The value a 16-bit `short` holds after an operation with the result `x`. -/
def int16 (x : ℤ) : ℤ :=
  Int.bmod x 65536

/-- `struct dinode`, the fields that an inode has on disk. -/
structure Dinode where
  type : ℤ
  major : ℤ
  minor : ℤ
  nlink : ℤ
  size : ℕ
  addrs : ℕ → ℕ

/-- An inode cleared by `memset`. -/
def Dinode.zero : Dinode := ⟨0, 0, 0, 0, 0, fun _ => 0⟩

/-- `struct inode`; `busy` and `valid` are the two bits of `flags`. -/
structure Inode extends Dinode where
  inum : ℕ
  ref : ℕ
  busy : Bool
  valid : Bool

/-- The log of the running transaction: `log.busy`, the entries of `log.lh` and
`log.size`. -/
structure Trans where
  busy : Bool
  sector : List ℕ
  size : ℕ

/-- An entry of `devsw`: what its two functions return for a request, `none` for
-1. -/
structure Device where
  read : ℕ → Option (List UInt8)
  write : List UInt8 → Option ℕ

/-- The disk and the inode cache.  `ninodes` and `size` are the fields of the
superblock. -/
structure Volume where
  ninodes : ℕ
  size : ℕ
  block : ℕ → Block
  used : ℕ → Bool
  dinode : ℕ → Dinode
  inode : Fin ninode → Inode
  log : Trans
  devsw : ℤ → Option Device

/-- File-system code. -/
abbrev FsM := Exec Volume Stop

/-! ## Changes of single components -/

namespace Volume

variable (s : Volume)

/-- Store the data of block `b`. -/
def setBlock (b : ℕ) (d : Block) : Volume :=
  { s with block := Function.update s.block b d }

/-- Set the bit of block `b` in the bitmap. -/
def setUsed (b : ℕ) (u : Bool) : Volume :=
  { s with used := Function.update s.used b u }

/-- Store inode `i` on disk. -/
def setDinode (i : ℕ) (d : Dinode) : Volume :=
  { s with dinode := Function.update s.dinode i d }

/-- Store entry `k` of the inode cache. -/
def setInode (k : Fin ninode) (ip : Inode) : Volume :=
  { s with inode := Function.update s.inode k ip }

/-- Replace the recorded blocks of the log. -/
def setSectors (l : List ℕ) : Volume :=
  { s with log := { s.log with sector := l } }

end Volume

/-- Read an entry of the inode cache. -/
def getInode (k : Fin ninode) : FsM Inode :=
  Exec.gets fun s => s.inode k

/-- Assign to fields of an entry of the inode cache. -/
def modifyInode (k : Fin ninode) (f : Inode → Inode) : FsM Unit :=
  Exec.modify fun s => s.setInode k (f (s.inode k))

/-! ## Transactions -/

/-- `begin_trans`. -/
def beginTrans : FsM Unit := do
  let log ← Exec.gets Volume.log
  if log.busy then Exec.throw .asleep
  else Exec.modify fun s => { s with log := { s.log with busy := true } }

/-- `commit_trans`; what it writes to disk is already what `bread` returns. -/
def commitTrans : FsM Unit :=
  Exec.modify fun s => { s with log := { s.log with busy := false, sector := [] } }

/-- The recorded blocks after `log_write` of block `b`. -/
def record (b : ℕ) (l : List ℕ) : List ℕ :=
  if b ∈ l then l else l ++ [b]

/-- `log_write` for the buffer of block `b`. -/
def logWrite (b : ℕ) : FsM Unit := do
  let log ← Exec.gets Volume.log
  if logsize ≤ log.sector.length ∨ log.size ≤ log.sector.length + 1 then
    Exec.throw .tooBigATransaction
  else if log.busy = false then
    Exec.throw .writeOutsideOfTrans
  else
    Exec.modify fun s => s.setSectors (record b s.log.sector)

/-! ## Blocks -/

/-- `bzero`. -/
def bzero (b : ℕ) : FsM Unit := do
  Exec.modify fun s => s.setBlock b Block.zero
  logWrite b

/-- The first block that is free in the bitmap. -/
def firstFree (size : ℕ) (used : ℕ → Bool) : Option ℕ :=
  (List.range size).find? fun b => !used b

/-- `balloc`. -/
def balloc : FsM ℕ := do
  let s ← Exec.gets id
  match firstFree s.size s.used with
  | none => Exec.throw .ballocOutOfBlocks
  | some b => do
      Exec.modify fun s => s.setUsed b true
      logWrite (bblock b s.ninodes)
      bzero b
      pure b

/-- `bfree`. -/
def bfree (b : ℕ) : FsM Unit := do
  let s ← Exec.gets id
  if s.used b = false then Exec.throw .freeingFreeBlock
  else do
    Exec.modify fun s => s.setUsed b false
    logWrite (bblock b s.ninodes)

/-! ## Inodes -/

/-- The entry of the inode cache that is in use for inode `i`. -/
def findInode (inode : Fin ninode → Inode) (i : ℕ) : Option (Fin ninode) :=
  (List.finRange ninode).find? fun k => 0 < (inode k).ref ∧ (inode k).inum = i

/-- The first entry of the inode cache that is not in use. -/
def emptyInode (inode : Fin ninode → Inode) : Option (Fin ninode) :=
  (List.finRange ninode).find? fun k => (inode k).ref = 0

/-- `iget`. -/
def iget (i : ℕ) : FsM (Fin ninode) := do
  let inode ← Exec.gets Volume.inode
  match findInode inode i with
  | some k => do
      modifyInode k fun ip => { ip with ref := ip.ref + 1 }
      pure k
  | none =>
      match emptyInode inode with
      | none => Exec.throw .igetNoInodes
      | some k => do
          modifyInode k fun ip => { ip with inum := i, ref := 1, busy := false, valid := false }
          pure k

/-- The first free inode on disk. -/
def freeDinode (ninodes : ℕ) (dinode : ℕ → Dinode) : Option ℕ :=
  (List.range ninodes).find? fun i => 1 ≤ i ∧ (dinode i).type = 0

/-- `ialloc`. -/
def ialloc (type : ℤ) : FsM (Fin ninode) := do
  let s ← Exec.gets id
  match freeDinode s.ninodes s.dinode with
  | none => Exec.throw .iallocNoInodes
  | some i => do
      Exec.modify fun s => s.setDinode i { Dinode.zero with type := type }
      logWrite (iblock i)
      iget i

/-- `iupdate`. -/
def iupdate (k : Fin ninode) : FsM Unit := do
  let ip ← getInode k
  Exec.modify fun s => s.setDinode ip.inum ip.toDinode
  logWrite (iblock ip.inum)

/-- `idup`. -/
def idup (k : Fin ninode) : FsM (Fin ninode) := do
  modifyInode k fun ip => { ip with ref := ip.ref + 1 }
  pure k

/-- `ilock`.  An inode that is already locked stays so: no other process runs. -/
def ilock (k : Fin ninode) : FsM Unit := do
  let ip ← getInode k
  if ip.ref < 1 then Exec.throw .ilock
  else if ip.busy then Exec.throw .asleep
  else do
    modifyInode k fun ip => { ip with busy := true }
    if ip.valid = false then do
      let dip ← Exec.gets fun s => s.dinode ip.inum
      modifyInode k fun ip => { ip with toDinode := dip, valid := true }
      if dip.type = 0 then Exec.throw .ilockNoType

/-- `iunlock`. -/
def iunlock (k : Fin ninode) : FsM Unit := do
  let ip ← getInode k
  if ip.busy = false ∨ ip.ref < 1 then Exec.throw .iunlock
  else modifyInode k fun ip => { ip with busy := false }

/-- The body of the first loop of `itrunc`. -/
def truncDirect (k : Fin ninode) (i : ℕ) : FsM Unit := do
  let ip ← getInode k
  if ip.addrs i ≠ 0 then do
    bfree (ip.addrs i)
    modifyInode k fun ip => { ip with addrs := Function.update ip.addrs i 0 }

/-- The body of the second loop of `itrunc`, over the words of the indirect block. -/
def truncWord (a : Block) (j : ℕ) : FsM Unit :=
  if a.word j ≠ 0 then bfree (a.word j) else pure ()

/-- `itrunc`. -/
def itrunc (k : Fin ninode) : FsM Unit := do
  Exec.each (truncDirect k) (List.range ndirect)
  let ip ← getInode k
  if ip.addrs ndirect ≠ 0 then do
    let a ← Exec.gets fun s => s.block (ip.addrs ndirect)
    Exec.each (truncWord a) (List.range nindirect)
    bfree (ip.addrs ndirect)
    modifyInode k fun ip => { ip with addrs := Function.update ip.addrs ndirect 0 }
  modifyInode k fun ip => { ip with size := 0 }
  iupdate k

/-- `iput`. -/
def iput (k : Fin ninode) : FsM Unit := do
  let ip ← getInode k
  if ip.ref = 1 ∧ ip.valid = true ∧ ip.nlink = 0 then
    if ip.busy then Exec.throw .iputBusy
    else do
      modifyInode k fun ip => { ip with busy := true }
      itrunc k
      modifyInode k fun ip => { ip with type := 0 }
      iupdate k
      modifyInode k fun ip => { ip with busy := false, valid := false }
  modifyInode k fun ip => { ip with ref := ip.ref - 1 }

/-- `iunlockput`. -/
def iunlockput (k : Fin ninode) : FsM Unit := do
  iunlock k
  iput k

/-! ## Contents -/

/-- The word of an inode or of an indirect block that `bmap` finds, or has
`balloc` fill. -/
def orBalloc (addr : ℕ) (store : ℕ → FsM Unit) : FsM ℕ :=
  if addr = 0 then do
    let addr ← balloc
    store addr
    pure addr
  else pure addr

/-- `ip->addrs[i] = addr`. -/
def storeAddr (k : Fin ninode) (i addr : ℕ) : FsM Unit :=
  modifyInode k fun ip => { ip with addrs := Function.update ip.addrs i addr }

/-- `bmap`. -/
def bmap (k : Fin ninode) (bn : ℕ) : FsM ℕ := do
  let ip ← getInode k
  if bn < ndirect then
    orBalloc (ip.addrs bn) (storeAddr k bn)
  else if bn - ndirect < nindirect then do
    let addr ← orBalloc (ip.addrs ndirect) (storeAddr k ndirect)
    let a ← Exec.gets fun s => s.block addr
    orBalloc (a.word (bn - ndirect)) fun b => do
      Exec.modify fun s => s.setBlock addr (a.setWord (bn - ndirect) b)
      logWrite addr
  else Exec.throw .bmapOutOfRange

/-- The bytes of a block from `start` on. -/
def blockBytes (d : Block) (start m : ℕ) : List UInt8 :=
  (List.range m).map fun i => UInt8.ofNat (d.byte (start + i))

/-- A block with `m` bytes from `start` on overwritten by those of `src`. -/
def overwrite (d : Block) (src : Chars) (start m : ℕ) : Block := fun i =>
  if start ≤ i.val ∧ i.val < start + m then src (i.val - start) else d i

/-- The loop of `readi`. -/
def readPieces (k : Fin ninode) : List Piece → FsM (List UInt8)
  | [] => pure []
  | p :: ps => do
      let b ← bmap k p.bn
      let d ← Exec.gets fun s => s.block b
      let cs ← readPieces k ps
      pure (blockBytes d p.start p.m ++ cs)

/-- The functions of a device inode. -/
def device (ip : Inode) : FsM (Option Device) :=
  Exec.gets fun s => if ip.major < 0 ∨ ndev ≤ ip.major then none else s.devsw ip.major

/-- `readi`: the bytes read, or `none` for -1. -/
def readi (k : Fin ninode) (off n : ℕ) : FsM (Option (List UInt8)) := do
  let ip ← getInode k
  if ip.type = tDev then do
    let dev ← device ip
    pure (dev.bind fun d => d.read n)
  else
    match readCount ip.size off n with
    | none => pure none
    | some n => do
        let cs ← readPieces k (pieces off n)
        pure (some cs)

/-- The loop of `writei`. -/
def writePieces (k : Fin ninode) (src : Chars) : List Piece → FsM Unit
  | [] => pure ()
  | p :: ps => do
      let b ← bmap k p.bn
      Exec.modify fun s =>
        s.setBlock b (overwrite (s.block b) (fun i => src (p.tot + i)) p.start p.m)
      logWrite b
      writePieces k src ps

/-- `writei`: the number of bytes written, or `none` for -1. -/
def writei (k : Fin ninode) (src : Chars) (off n : ℕ) : FsM (Option ℕ) := do
  let ip ← getInode k
  if ip.type = tDev then do
    let dev ← device ip
    pure (dev.bind fun d => d.write ((List.range n).map src))
  else if WriteFits ip.size off n then do
    writePieces k src (pieces off n)
    let ip ← getInode k
    if 0 < n ∧ ip.size < off + n then do
      modifyInode k fun ip => { ip with size := off + n }
      iupdate k
    pure (some n)
  else pure none

end Xv6.Fs
