import Mathlib.Data.List.Basic
import Mathlib.Logic.Function.Basic

/-!
# Sequences read and written at cursors

Any number of finite sequences, and any number of cursors, several of which may stand on
one sequence.  A read returns what follows the cursor and a write replaces it, and either
moves the cursor behind what it has transferred; no other cursor moves.  How much of a
write is accepted, and up to where a read may ask, are parameters.
-/

namespace Xv6.Support

variable {ι κ α : Type}

/-- The list with `bs` written over it from position `off` on. -/
def splice (l : List α) (off : ℕ) (bs : List α) : List α :=
  l.take off ++ bs ++ l.drop (off + bs.length)

theorem splice_nil (l : List α) (off : ℕ) : splice l off [] = l := by
  simp [splice]

/-- Two writes one behind the other are one. -/
theorem splice_splice {l : List α} {off : ℕ} (h : off ≤ l.length) (bs cs : List α) :
    splice (splice l off bs) (off + bs.length) cs = splice l off (bs ++ cs) := by
  have htake : (l.take off ++ bs).length = off + bs.length := by
    rw [List.length_append, List.length_take_of_le h]
  have hfront : (splice l off bs).take (off + bs.length) = l.take off ++ bs := by
    unfold splice
    rw [← htake, List.take_left]
  have hback : (splice l off bs).drop (off + bs.length + cs.length) =
      l.drop (off + bs.length + cs.length) := by
    unfold splice
    rw [← htake, List.drop_append, List.drop_eq_nil_of_le (Nat.le_add_right _ _),
      List.nil_append, Nat.add_sub_cancel_left, List.drop_drop, htake]
  unfold splice at hfront hback ⊢
  rw [hfront, hback, List.length_append, List.append_assoc, Nat.add_assoc]
  simp only [List.append_assoc]

/-- Sequences `content k`, and cursors: the sequence that each is on, and where. -/
@[ext]
structure Streams (ι κ α : Type) where
  content : κ → List α
  cursor : ι → Option (κ × ℕ)

namespace Streams

variable [DecidableEq ι] {st st' : Streams ι κ α} {i : ι} {bs cs : List α}

/-- The streams with cursor `i` moved. -/
def move (st : Streams ι κ α) (i : ι) (k : κ) (off : ℕ) : Streams ι κ α :=
  { st with cursor := Function.update st.cursor i (some (k, off)) }

theorem move_self {k : κ} {off : ℕ} (h : st.cursor i = some (k, off)) :
    st.move i k off = st := by
  ext1
  · rfl
  · unfold move
    rw [← h, Function.update_eq_self]

/-- A read of `n` elements: what it returns, and the streams after it. -/
def read (limit : ℕ) (st : Streams ι κ α) (i : ι) (n : ℕ) : Option (List α) × Streams ι κ α :=
  match st.cursor i with
  | none => (none, st)
  | some (k, off) =>
      if limit ≤ off + n then (none, st)
      else (some (((st.content k).drop off).take n),
        st.move i k (off + (((st.content k).drop off).take n).length))

variable [DecidableEq κ]

/-- The streams after all of `bs` has been written. -/
def put (st : Streams ι κ α) (i : ι) (bs : List α) : Streams ι κ α :=
  match st.cursor i with
  | none => st
  | some (k, off) =>
      { content := Function.update st.content k (splice (st.content k) off bs)
        cursor := Function.update st.cursor i (some (k, off + bs.length)) }

/-- A write of `bs`, of which as much is written as is accepted; it succeeds if that is
all of it. -/
def write (accept : ℕ → ℕ → ℕ) (st : Streams ι κ α) (i : ι) (bs : List α) :
    Option ℕ × Streams ι κ α :=
  match st.cursor i with
  | none => (none, st)
  | some (_, off) =>
      (if accept off bs.length = bs.length then some bs.length else none,
        st.put i (bs.take (accept off bs.length)))

/-- What is asked for at a cursor, and the answer. -/
inductive Transfer (ι α : Type) where
  | read (i : ι) (n : ℕ) (r : Option (List α))
  | write (i : ι) (bs : List α) (r : Option ℕ)
  /-- Nothing is transferred. -/
  | other

/-- The steps of streams.  With no transfer, cursors may still be taken away. -/
def Step (limit : ℕ) (accept : ℕ → ℕ → ℕ) (st : Streams ι κ α) :
    Transfer ι α → Streams ι κ α → Prop
  | .read i n r, st' => st.read limit i n = (r, st')
  | .write i bs r, st' => st.write accept i bs = (r, st')
  | .other, st' => st'.content = st.content ∧ ∀ i, st'.cursor i = st.cursor i ∨ st'.cursor i = none

theorem put_of_cursor {k : κ} {off : ℕ} (h : st.cursor i = some (k, off)) (bs : List α) :
    (st.put i bs).content = Function.update st.content k (splice (st.content k) off bs) ∧
    (st.put i bs).cursor = Function.update st.cursor i (some (k, off + bs.length)) := by
  unfold put
  rw [h]
  exact ⟨rfl, rfl⟩

theorem put_nil (st : Streams ι κ α) (i : ι) : st.put i [] = st := by
  cases h : st.cursor i with
  | none =>
      unfold put
      rw [h]
  | some c =>
      obtain ⟨k, off⟩ := c
      obtain ⟨hcontent, hcursor⟩ := put_of_cursor h []
      ext1
      · rw [hcontent, splice_nil, Function.update_eq_self]
      · rw [hcursor, List.length_nil, Nat.add_zero, ← h, Function.update_eq_self]

/-- Two writes at one cursor are one. -/
theorem put_put {k : κ} {off : ℕ} (h : st.cursor i = some (k, off))
    (hoff : off ≤ (st.content k).length) : (st.put i bs).put i cs = st.put i (bs ++ cs) := by
  obtain ⟨hcontent, hcursor⟩ := put_of_cursor h bs
  obtain ⟨hboth, hmoved⟩ := put_of_cursor h (bs ++ cs)
  have hnext : (st.put i bs).cursor i = some (k, off + bs.length) := by
    rw [hcursor, Function.update_self]
  obtain ⟨hcontent', hcursor'⟩ := put_of_cursor hnext cs
  ext1
  · rw [hcontent', hcontent, hboth, Function.update_self, Function.update_idem,
      splice_splice hoff]
  · rw [hcursor', hcursor, hmoved, Function.update_idem, List.length_append, Nat.add_assoc]

end Streams

end Xv6.Support
