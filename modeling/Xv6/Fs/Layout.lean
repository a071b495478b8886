import Mathlib.Data.Nat.Bitwise
import Mathlib.Data.Set.Basic
import Mathlib.Order.CompletePartialOrder
import Mathlib.Tactic.NormNum
import Mathlib.Tactic.IntervalCases
import Xv6.Storage.Block

/-!
# The layout of the disk

`fs.h` and the places of `mkfs.c` and `fs.c` that compute block numbers.  The
kernel and `mkfs` compute the same layout by formulas of their own: the kernel
through the macros `IBLOCK` and `BBLOCK` from the number of inodes in the super
block, `mkfs` from its parameters, and the log lies in the last `nlog` blocks.
The theorem at the end says that they agree for all parameters that `mkfs` accepts.

The parameters are numbers of blocks and inodes; sums of them are taken as such.
-/

namespace Xv6

namespace Block

/-- `(data[bi/8] & (1 << (bi % 8))) != 0` -/
def bit (b : Block) (bi : ℕ) : Bool :=
  (b.byte (bi / 8)).testBit (bi % 8)

/-- `data[bi/8] |= 1 << (bi % 8)` -/
def setBit (b : Block) (bi : ℕ) : Block := fun i =>
  if i.val = bi / 8 then UInt8.ofNat ((b i).toNat ||| 1 <<< (bi % 8)) else b i

theorem byte_setBit {b : Block} {bi i : ℕ} (hi : i < bsize) :
    (b.setBit bi).byte i = if i = bi / 8 then b.byte i ||| 1 <<< (bi % 8) else b.byte i := by
  simp only [byte, setBit, hi, dif_pos]
  split
  · have hlt : (b ⟨i, hi⟩).toNat ||| 1 <<< (bi % 8) < 2 ^ 8 := by
      refine Nat.or_lt_two_pow (UInt8.toNat_lt _) ?_
      rw [Nat.one_shiftLeft]
      exact Nat.pow_lt_pow_right (by omega) (by omega)
    rw [UInt8.toNat_ofNat', Nat.mod_eq_of_lt hlt]
  · rfl

theorem bit_setBit {b : Block} {bi j : ℕ} (hj : j < 4096) :
    (b.setBit bi).bit j = (decide (j = bi) || b.bit j) := by
  have hlt : j / 8 < bsize := by
    unfold bsize
    omega
  unfold bit
  rw [byte_setBit hlt]
  split
  · rename_i hbyte
    rw [Nat.testBit_or, Nat.one_shiftLeft, Nat.testBit_two_pow, Bool.or_comm]
    congr 1
    rw [decide_eq_decide]
    omega
  · rename_i hbyte
    have hne : j ≠ bi := by
      rintro rfl
      exact hbyte rfl
    simp [hne]

@[simp] theorem bit_zero (bi : ℕ) : zero.bit bi = false := by
  unfold bit byte zero
  split <;> simp

end Block

namespace Fs

/-- `IPB`, inodes per block. -/
abbrev ipb : ℕ := 8

/-- `BPB`, bitmap bits per block. -/
abbrev bpb : ℕ := 4096

/-- `IBLOCK(i)`, the block containing inode `i`. -/
def iblock (i : ℕ) : ℕ :=
  i / ipb + 2

/-- `BBLOCK(b, ninodes)`, the block containing the bit for block `b`. -/
def bblock (b ninodes : ℕ) : ℕ :=
  b / bpb + ninodes / ipb + 3

/-- Where `balloc` looks at the bit `bi` of its round that starts with block `b`. -/
def ballocPos (ninodes b bi : ℕ) : ℕ × ℕ :=
  (bblock b ninodes, bi)

/-- Where `bfree` looks for the bit of the block `b`. -/
def bfreePos (ninodes b : ℕ) : ℕ × ℕ :=
  (bblock b ninodes, b % bpb)

namespace Mkfs

/-- The parameters at the top of `mkfs.c`. -/
structure Geometry where
  nblocks : ℕ
  nlog : ℕ
  ninodes : ℕ
  size : ℕ
  deriving DecidableEq, Repr

/-- The parameters that the repository has. -/
def geometry : Geometry := ⟨25000, 10, 200, 25045⟩

variable (g : Geometry)

/-- `bitblocks` -/
def Geometry.bitblocks : ℕ :=
  g.size / (512 * 8) + 1

/-- `usedblocks` before any file is written. -/
def Geometry.usedblocks : ℕ :=
  g.ninodes / ipb + 3 + g.bitblocks

/-- The assertion of `main`. -/
def Geometry.Accepted : Prop :=
  g.nblocks + g.usedblocks + g.nlog = g.size

instance : Decidable g.Accepted :=
  inferInstanceAs (Decidable (_ = _))

/-- `i2b` -/
def i2b (inum : ℕ) : ℕ :=
  inum / ipb + 2

/-- The buffer of `balloc(used)` after its loop. -/
def ballocBuf : ℕ → Block
  | 0 => Block.zero
  | used + 1 => (ballocBuf used).setBit used

/-- The bitmap blocks after `balloc(used)`: `mkfs` has cleared all of them before. -/
def bitmap (used sec : ℕ) : Block :=
  if sec = g.ninodes / ipb + 3 then ballocBuf used else Block.zero

end Mkfs

open Mkfs

variable (g : Geometry)

/-- The blocks that hold inodes. -/
def inodeBlocks : Set ℕ :=
  {n | ∃ i < g.ninodes, iblock i = n}

/-- The blocks that hold bits of the bitmap. -/
def bitmapBlocks : Set ℕ :=
  {n | ∃ b < g.size, bblock b g.ninodes = n}

/-- The blocks for data. -/
def dataBlocks : Set ℕ :=
  Set.Ico g.usedblocks (g.usedblocks + g.nblocks)

/-- The blocks of the log; `initlog` sets `log.start` to `sb.size - sb.nlog`. -/
def logBlocks : Set ℕ :=
  Set.Ico (g.size - g.nlog) g.size

/-- The areas of the disk do not overlap, and they lie inside it. -/
structure Layout : Prop where
  inode_bitmap : Disjoint (inodeBlocks g) (bitmapBlocks g)
  inode_data : Disjoint (inodeBlocks g) (dataBlocks g)
  inode_log : Disjoint (inodeBlocks g) (logBlocks g)
  bitmap_data : Disjoint (bitmapBlocks g) (dataBlocks g)
  bitmap_log : Disjoint (bitmapBlocks g) (logBlocks g)
  data_log : Disjoint (dataBlocks g) (logBlocks g)
  inside : inodeBlocks g ∪ bitmapBlocks g ∪ dataBlocks g ∪ logBlocks g ⊆ Set.Ico 2 g.size

variable {g}

theorem mem_inodeBlocks {n : ℕ} (h : n ∈ inodeBlocks g) : 2 ≤ n ∧ n < g.ninodes / ipb + 3 := by
  obtain ⟨i, hi, rfl⟩ := h
  unfold iblock ipb
  omega

theorem mem_bitmapBlocks {n : ℕ} (h : n ∈ bitmapBlocks g) :
    g.ninodes / ipb + 3 ≤ n ∧ n < g.usedblocks := by
  obtain ⟨b, hb, rfl⟩ := h
  unfold bblock Geometry.usedblocks Geometry.bitblocks ipb bpb
  omega

/-- Two areas that end and start at `k` are disjoint. -/
theorem disjoint_of_bound {s t : Set ℕ} (k : ℕ) (hs : ∀ n ∈ s, n < k) (ht : ∀ n ∈ t, k ≤ n) :
    Disjoint s t := by
  rw [Set.disjoint_left]
  intro n hns hnt
  have hlow := hs n hns
  have hhigh := ht n hnt
  omega

theorem layout_of_accepted (h : g.Accepted) : Layout g := by
  have hused : g.ninodes / ipb + 3 ≤ g.usedblocks := by
    unfold Geometry.usedblocks
    omega
  have hthree : 3 ≤ g.ninodes / ipb + 3 := Nat.le_add_left 3 _
  have hlog : g.usedblocks + g.nblocks = g.size - g.nlog := by
    unfold Geometry.Accepted at h
    omega
  have hend : g.usedblocks + g.nblocks ≤ g.size := by
    unfold Geometry.Accepted at h
    omega
  have hinode : ∀ n ∈ inodeBlocks g, n < g.usedblocks := fun n hn =>
    (mem_inodeBlocks hn).2.trans_le hused
  have hbitmap : ∀ n ∈ bitmapBlocks g, n < g.usedblocks := fun n hn => (mem_bitmapBlocks hn).2
  have hdata : ∀ n ∈ dataBlocks g, g.usedblocks ≤ n := fun n hn => hn.1
  have hlogLow : ∀ n ∈ logBlocks g, g.usedblocks ≤ n := fun n hn => by
    have := hn.1
    omega
  constructor
  · exact disjoint_of_bound (g.ninodes / ipb + 3) (fun n hn => (mem_inodeBlocks hn).2)
      fun n hn => (mem_bitmapBlocks hn).1
  · exact disjoint_of_bound g.usedblocks hinode hdata
  · exact disjoint_of_bound g.usedblocks hinode hlogLow
  · exact disjoint_of_bound g.usedblocks hbitmap hdata
  · exact disjoint_of_bound g.usedblocks hbitmap hlogLow
  · refine disjoint_of_bound (g.size - g.nlog) (fun n hn => ?_) fun n hn => hn.1
    rw [← hlog]
    exact hn.2
  · rintro n (((hn | hn) | hn) | hn)
    · have hlt := hinode n hn
      exact ⟨(mem_inodeBlocks hn).1, by omega⟩
    · have hlt := hbitmap n hn
      have hlow := (mem_bitmapBlocks hn).1
      exact ⟨by omega, by omega⟩
    · have hlow := hn.1
      have hhigh := hn.2
      exact ⟨by omega, by omega⟩
    · have hlow := hlogLow n hn
      exact ⟨by omega, hn.2⟩

/-! ## The bitmap -/

/-- `balloc` and `bfree` look at the same bit. -/
theorem ballocPos_eq (ninodes k bi : ℕ) (hbi : bi < bpb) :
    ballocPos ninodes (bpb * k) bi = bfreePos ninodes (bpb * k + bi) := by
  unfold ballocPos bfreePos bblock
  unfold bpb at *
  rw [Prod.mk.injEq]
  omega

theorem bfreePos_injective (ninodes : ℕ) : Function.Injective (bfreePos ninodes) := by
  intro b c h
  unfold bfreePos bblock bpb at h
  rw [Prod.mk.injEq] at h
  omega

namespace Mkfs

theorem bit_ballocBuf {used b : ℕ} (hb : b < bpb) :
    (ballocBuf used).bit b = decide (b < used) := by
  induction used with
  | zero => simp [ballocBuf]
  | succ used ih =>
      rw [ballocBuf, Block.bit_setBit hb, ih, ← Bool.decide_or, decide_eq_decide]
      omega

/-- The kernel finds the bits that `mkfs` has set, and no others. -/
theorem bit_bitmap {used b : ℕ} (hused : used < bpb) :
    (bitmap g used (bfreePos g.ninodes b).1).bit (bfreePos g.ninodes b).2 =
      decide (b < used) := by
  unfold bitmap bfreePos bblock
  by_cases hfirst : b < bpb
  · have hdiv : b / bpb = 0 := Nat.div_eq_of_lt hfirst
    rw [hdiv, Nat.zero_add, if_pos rfl, Nat.mod_eq_of_lt hfirst, bit_ballocBuf hfirst]
  · have hpos : 0 < b / bpb := Nat.div_pos (by omega) (by decide)
    rw [if_neg (by omega), Block.bit_zero]
    symm
    rw [decide_eq_false_iff_not]
    omega

end Mkfs

/-- `mkfs` and the kernel agree on the layout, for all parameters that `mkfs` accepts:
the areas are disjoint and inside the disk, both look for an inode in the same block,
and the kernel reads the bit of a block where no other block has its bit and where
`mkfs` has written it. -/
theorem layout_agrees (hg : g.Accepted) :
    Layout g ∧ (∀ i, i2b i = iblock i) ∧
    (∀ k, ∀ bi < bpb, ballocPos g.ninodes (bpb * k) bi = bfreePos g.ninodes (bpb * k + bi)) ∧
    Function.Injective (bfreePos g.ninodes) ∧
    ∀ used < bpb, ∀ b < g.size,
      (bitmap g used (bfreePos g.ninodes b).1).bit (bfreePos g.ninodes b).2 =
        decide (b < used) :=
  ⟨layout_of_accepted hg, fun _ => rfl, ballocPos_eq g.ninodes, bfreePos_injective g.ninodes,
    fun _ hused _ _ => bit_bitmap hused⟩

theorem layout_agrees_geometry : geometry.Accepted ∧ Layout geometry := by
  have hg : geometry.Accepted := by decide
  exact ⟨hg, (layout_agrees hg).1⟩

end Fs

end Xv6
