import Mathlib.Data.Int.Order.Basic

/-!
# Kernel parameters

The limits of `param.h` and the ways in which kernel code can stop.
-/

namespace Xv6

/-- `NBUF`, the size of the block cache. -/
abbrev nbuf : ℕ := 10

/-- `LOGSIZE`, the number of data sectors the on-disk log may hold. -/
abbrev logsize : ℕ := 10

/-- `NPROC`, the size of the process table. -/
abbrev nproc : ℕ := 64

/-- `NOFILE`, the number of open files per process. -/
abbrev nofile : ℕ := 16

/-- `NDEV`, the bound on major device numbers. -/
abbrev ndev : ℕ := 10

/-- `MAXARG`, the bound on the arguments of `exec`. -/
abbrev maxarg : ℕ := 32

/-- `PIPESIZE`. -/
abbrev pipesize : ℕ := 512

/-- `T_DIR`, the type of a directory. -/
abbrev tDir : ℤ := 1

/-- `T_FILE`, the type of a regular file. -/
abbrev tFile : ℤ := 2

/-- `T_DEV`, the type of a device. -/
abbrev tDev : ℤ := 3

/-- `CONSOLE`, the only major number with entries in `devsw`. -/
abbrev console : ℤ := 1

/-- The value a 32-bit `int` holds after an operation with the result `x`. -/
def int32 (x : ℤ) : ℤ :=
  Int.bmod x 4294967296

theorem int32_of_bounds {x : ℤ} (hlow : -2147483648 ≤ x) (hhigh : x < 2147483648) :
    int32 x = x := by
  unfold int32
  rw [Int.bmod_eq_of_le] <;> omega

/-- The value a 32-bit `uint` holds after an operation on `int`s with the result
`x`. -/
def uint32 (x : ℤ) : ℕ :=
  (x % 4294967296).toNat

/-- The value a 32-bit `uint` holds after an operation on `uint`s with the result
`x`. -/
def wrap32 (x : ℕ) : ℕ :=
  x % 4294967296

theorem wrap32_of_lt {x : ℕ} (h : x < 4294967296) : wrap32 x = x :=
  Nat.mod_eq_of_lt h

/-- How kernel code stops short of returning.  `asleep` is a sleep on a
resource that the running call itself holds; all others are calls of `panic`,
named after its argument. -/
inductive Stop where
  /-- A sleep nothing will end, since no other process runs. -/
  | asleep
  /-- `bget: no buffers` -/
  | bgetNoBuffers
  /-- `bwrite` -/
  | bwrite
  /-- `brelse` -/
  | brelse
  /-- `too big a transaction` -/
  | tooBigATransaction
  /-- `write outside of trans` -/
  | writeOutsideOfTrans
  /-- `balloc: out of blocks` -/
  | ballocOutOfBlocks
  /-- `freeing free block` -/
  | freeingFreeBlock
  /-- `ialloc: no inodes` -/
  | iallocNoInodes
  /-- `iget: no inodes` -/
  | igetNoInodes
  /-- `ilock` -/
  | ilock
  /-- `ilock: no type` -/
  | ilockNoType
  /-- `iunlock` -/
  | iunlock
  /-- `iput busy` -/
  | iputBusy
  /-- `bmap: out of range` -/
  | bmapOutOfRange
  /-- `dirlookup not DIR` -/
  | dirlookupNotDir
  /-- `dirlink read` -/
  | dirlinkRead
  /-- `dirlink` -/
  | dirlink
  /-- `isdirempty: readi` -/
  | isdiremptyReadi
  /-- `unlink: nlink < 1` -/
  | unlinkNlink
  /-- `unlink: writei` -/
  | unlinkWritei
  /-- `create dots` -/
  | createDots
  /-- `create: dirlink` -/
  | createDirlink
  /-- `filedup` -/
  | filedup
  /-- `fileclose` -/
  | fileclose
  /-- `fileread` -/
  | fileread
  /-- `filewrite` -/
  | filewrite
  /-- `short filewrite` -/
  | shortFilewrite
  /-- `init exiting` -/
  | initExiting
  deriving DecidableEq, Repr

end Xv6
