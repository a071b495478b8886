import Mathlib.Data.List.Range
import Xv6.Param
import Xv6.Storage.Block

/-!
# The ranges that `readi` and `writei` transfer

The part of `readi` and `writei` that decides what is copied, without the
copying: the checks on the offset and the length, which are made on 32-bit
values and may wrap, and the pieces into which the loop of either function cuts
the range, one for each block it touches.
-/

namespace Xv6

/-- `MAXFILE`: the blocks a file may have, `NDIRECT` direct and `NINDIRECT`
indirect ones. -/
abbrev maxfile : ℕ := 12 + 128

/-- The number of bytes `readi` reads at offset `off` of an inode of the given
size when asked for `n`: nothing past the end of the file.  `none` stands for
the result -1. -/
def readCount (size off n : ℕ) : Option ℕ :=
  if size < off ∨ wrap32 (off + n) < off then none
  else if size < wrap32 (off + n) then some (size - off)
  else some n

/-- The checks of `writei`. -/
def WriteFits (size off n : ℕ) : Prop :=
  ¬(size < off ∨ wrap32 (off + n) < off) ∧ wrap32 (off + n) ≤ maxfile * bsize

instance (size off n : ℕ) : Decidable (WriteFits size off n) :=
  inferInstanceAs (Decidable (_ ∧ _))

/-- One round of the loop of `readi` or `writei`: `m` bytes from byte `start` of
block `bn` of the file on, `tot` bytes after the start of the whole range. -/
structure Piece where
  bn : ℕ
  start : ℕ
  tot : ℕ
  m : ℕ
  deriving DecidableEq, Repr

/-- The rounds from the state `off`, `tot` of the loop on, with `left` bytes
still to go.  Each round moves at least one byte, so `left` rounds are enough;
the first argument counts the rounds. -/
def piecesFrom : ℕ → ℕ → ℕ → ℕ → List Piece
  | 0, _, _, _ => []
  | k + 1, off, tot, left =>
      if left = 0 then []
      else
        let m := min left (bsize - off % bsize)
        ⟨off / bsize, off % bsize, tot, m⟩ :: piecesFrom k (off + m) (tot + m) (left - m)

/-- The rounds of the loop over the `n` bytes at offset `off`. -/
def pieces (off n : ℕ) : List Piece :=
  piecesFrom n off 0 n

theorem readCount_eq_some_iff {size off n r : ℕ} :
    readCount size off n = some r ↔
      off ≤ size ∧ off ≤ wrap32 (off + n) ∧
        r = if size < wrap32 (off + n) then size - off else n := by
  unfold readCount
  by_cases hbad : size < off ∨ wrap32 (off + n) < off
  · rw [if_pos hbad]
    constructor
    · intro h
      cases h
    · intro h
      omega
  · rw [if_neg hbad]
    push Not at hbad
    split <;> simp [hbad, eq_comm]

/-- A read never moves more than it was asked for. -/
theorem readCount_le {size off n r : ℕ} (hn : n < 4294967296)
    (h : readCount size off n = some r) : r ≤ n := by
  obtain ⟨hoff, hwrap, hr⟩ := readCount_eq_some_iff.mp h
  unfold wrap32 at hwrap hr
  split at hr <;> omega

/-- Every piece lies in one block and inside the range. -/
theorem mem_piecesFrom {k off tot left : ℕ} {p : Piece}
    (hp : p ∈ piecesFrom k off tot left) :
    p.start + p.m ≤ bsize ∧ 0 < p.m ∧ tot ≤ p.tot ∧ p.tot + p.m ≤ tot + left := by
  induction k generalizing off tot left with
  | zero => simp [piecesFrom] at hp
  | succ k ih =>
      unfold piecesFrom at hp
      split at hp
      · simp at hp
      · have hmod : off % bsize < bsize := Nat.mod_lt _ (by unfold bsize; omega)
        rcases List.mem_cons.mp hp with rfl | hp
        · simp only
          omega
        · have := ih hp
          omega

theorem mem_pieces {off n : ℕ} {p : Piece} (hp : p ∈ pieces off n) :
    p.start + p.m ≤ bsize ∧ 0 < p.m ∧ p.tot + p.m ≤ n := by
  have h := mem_piecesFrom hp
  omega

/-- The loop over a range that is not empty starts with a piece that copies the
first byte of the range. -/
theorem pieces_of_pos (off : ℕ) {n : ℕ} (hn : 0 < n) :
    ∃ p rest, pieces off n = p :: rest ∧ p.tot = 0 ∧ 0 < p.m := by
  obtain ⟨k, rfl⟩ : ∃ k, n = k + 1 := ⟨n - 1, by omega⟩
  have hmod : off % bsize < bsize := Nat.mod_lt _ (by unfold bsize; omega)
  refine ⟨_, _, by rw [pieces, piecesFrom, if_neg (by omega)], rfl, ?_⟩
  simp only
  omega

end Xv6
