import Mathlib.Tactic.NormNum

/-!
# Sectors as arrays of bytes

Disk sectors and buffers hold 512 untyped bytes.  Kernel code views the bytes
as little-endian 32-bit words (`int` and `uint` fields of the structures cast
over `buf->data`); the accessors below are those views.
-/

namespace Xv6

/-- `BSIZE`, the size of a block and of a disk sector in bytes. -/
abbrev bsize : ℕ := 512

/-- The contents of one sector. -/
def Block : Type := Fin bsize → UInt8

namespace Block

/-- The block of zero bytes. -/
def zero : Block := fun _ => 0

instance : Inhabited Block := ⟨zero⟩

/-- The byte at offset `i`, as a number. -/
def byte (b : Block) (i : ℕ) : ℕ :=
  if h : i < bsize then (b ⟨i, h⟩).toNat else 0

/-- The 32-bit word at word index `k`. -/
def word (b : Block) (k : ℕ) : ℕ :=
  b.byte (4 * k) + 256 * b.byte (4 * k + 1) + 65536 * b.byte (4 * k + 2) +
    16777216 * b.byte (4 * k + 3)

/-- Store a 32-bit word at word index `k`. -/
def setWord (b : Block) (k v : ℕ) : Block := fun i =>
  if i.val / 4 = k then UInt8.ofNat (v / 256 ^ (i.val % 4)) else b i

theorem byte_setWord (b : Block) (k v i : ℕ) (hi : i < bsize) :
    (b.setWord k v).byte i =
      if i / 4 = k then v / 256 ^ (i % 4) % 256 else b.byte i := by
  simp only [byte, setWord, hi, dif_pos]
  split
  · simp
  · rfl

theorem word_setWord_self (b : Block) {k v : ℕ} (hk : k < 128) (hv : v < 2 ^ 32) :
    (b.setWord k v).word k = v := by
  have hlt : ∀ j, j < 4 → 4 * k + j < bsize := by
    intro j hj
    unfold bsize
    omega
  have hbyte : ∀ j, j < 4 →
      (b.setWord k v).byte (4 * k + j) = v / 256 ^ j % 256 := by
    intro j hj
    have hdiv : (4 * k + j) / 4 = k := by omega
    have hmod : (4 * k + j) % 4 = j := by omega
    rw [byte_setWord b k v _ (hlt j hj), if_pos hdiv, hmod]
  have h0 := hbyte 0 (by omega)
  rw [Nat.add_zero] at h0
  unfold word
  rw [h0, hbyte 1 (by omega), hbyte 2 (by omega), hbyte 3 (by omega)]
  norm_num
  omega

theorem word_setWord_of_ne (b : Block) {k j v : ℕ} (hj : j < 128) (hne : j ≠ k) :
    (b.setWord k v).word j = b.word j := by
  have hbyte : ∀ i, i / 4 = j → (b.setWord k v).byte i = b.byte i := by
    intro i hi
    have hlt : i < bsize := by
      unfold bsize
      omega
    rw [byte_setWord b k v i hlt, if_neg (by omega)]
  unfold word
  rw [hbyte _ (by omega), hbyte _ (by omega), hbyte _ (by omega),
    hbyte _ (by omega)]

end Block

end Xv6
