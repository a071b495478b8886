import Mathlib.Data.List.Range
import Mathlib.Data.Nat.ModEq

/-!
# Ring buffers with counters that wrap

A buffer of `cap` cells that is filled and emptied by two counters modulo `M`.
The counters are never reduced modulo `cap`; the cell of a counter is its
remainder.  As long as `cap` divides `M`, a counter that wraps goes on with the
next cell.

`gap M r w` is the number of elements in a buffer whose next element to be taken
has the number `r` and whose next one to be put has the number `w`, and
`contents cap cell r n` are the `n` elements from the number `r` on.
-/

namespace Xv6.Support.Ring

/-! ## The counters -/

section Counters

variable {M r w n : ℕ}

/-- The difference of two counters. -/
def gap (M r w : ℕ) : ℕ :=
  (w + M - r) % M

theorem gap_lt (hM : 0 < M) : gap M r w < M :=
  Nat.mod_lt _ hM

/-- Counting on from `r` leads to `w`. -/
theorem add_gap (hr : r < M) (hw : w < M) : (r + gap M r w) % M = w := by
  unfold gap
  rw [Nat.add_mod_mod, Nat.add_sub_cancel' (by omega), Nat.add_mod_right, Nat.mod_eq_of_lt hw]

theorem gap_eq_iff (hr : r < M) (hw : w < M) (hn : n < M) :
    gap M r w = n ↔ w = (r + n) % M := by
  constructor
  · rintro rfl
    exact (add_gap hr hw).symm
  · rintro rfl
    have hmod : (r + gap M r ((r + n) % M)) % M = (r + n) % M := add_gap hr hw
    have hcancel := Nat.ModEq.add_left_cancel' r hmod
    rwa [Nat.ModEq, Nat.mod_eq_of_lt (gap_lt (by omega)), Nat.mod_eq_of_lt hn] at hcancel

theorem gap_eq_zero_iff (hr : r < M) (hw : w < M) : gap M r w = 0 ↔ r = w := by
  rw [gap_eq_iff hr hw (by omega), Nat.add_zero, Nat.mod_eq_of_lt hr, eq_comm]

/-- Putting an element. -/
theorem gap_put (hr : r < M) (hw : w < M) (h : gap M r w + 1 < M) :
    gap M r ((w + 1) % M) = gap M r w + 1 := by
  have hM : 0 < M := by omega
  rw [gap_eq_iff hr (Nat.mod_lt _ hM) h, ← Nat.add_assoc, Nat.add_mod (r + gap M r w) 1 M,
    add_gap hr hw, Nat.add_mod_mod]

/-- Taking an element. -/
theorem gap_take (hr : r < M) (hw : w < M) (h : gap M r w ≠ 0) :
    gap M ((r + 1) % M) w = gap M r w - 1 := by
  have hM : 0 < M := by omega
  have hlt : gap M r w < M := gap_lt hM
  have hone : r + 1 + (gap M r w - 1) = r + gap M r w := by omega
  rw [gap_eq_iff (Nat.mod_lt _ hM) hw (by omega), Nat.mod_add_mod, hone, add_gap hr hw]

end Counters

/-! ## The cells -/

section Cells

variable {α : Type} {cap : ℕ} {cell : ℕ → α} {r n : ℕ}

/-- The `n` elements from the number `r` on. -/
def contents (cap : ℕ) (cell : ℕ → α) (r n : ℕ) : List α :=
  (List.range n).map fun i => cell ((r + i) % cap)

/-- The cells after putting an element with the number `w`. -/
def put (cap : ℕ) (cell : ℕ → α) (w : ℕ) (a : α) : ℕ → α := fun i =>
  if i = w % cap then a else cell i

@[simp] theorem contents_zero : contents cap cell r 0 = [] := rfl

theorem contents_succ :
    contents cap cell r (n + 1) = cell (r % cap) :: contents cap cell (r + 1) n := by
  unfold contents
  rw [List.range_succ_eq_map, List.map_cons, List.map_map, Nat.add_zero]
  congr 1
  refine List.map_congr_left fun i _ => ?_
  rw [Function.comp_apply, Nat.succ_eq_add_one, Nat.add_assoc r 1 i, Nat.add_comm 1 i]

/-- A counter may be reduced modulo a multiple of the capacity. -/
theorem contents_mod {M : ℕ} (hdvd : cap ∣ M) :
    contents cap cell (r % M) n = contents cap cell r n := by
  unfold contents
  refine List.map_congr_left fun i _ => ?_
  rw [Nat.add_mod, Nat.mod_mod_of_dvd r hdvd, ← Nat.add_mod]

theorem contents_snoc :
    contents cap cell r (n + 1) = contents cap cell r n ++ [cell ((r + n) % cap)] := by
  unfold contents
  rw [List.range_succ, List.map_append, List.map_singleton]

@[simp] theorem length_contents : (contents cap cell r n).length = n := by
  simp [contents]

theorem contents_add {k : ℕ} :
    contents cap cell r (n + k) = contents cap cell r n ++ contents cap cell (r + n) k := by
  induction k with
  | zero => simp
  | succ k ih =>
      rw [← Nat.add_assoc, contents_snoc, ih, contents_snoc, List.append_assoc, Nat.add_assoc]

/-- Putting an element after the last one. -/
theorem contents_put {w : ℕ} {a : α} (hn : n < cap) (hw : w % cap = (r + n) % cap) :
    contents cap (put cap cell w a) r (n + 1) = contents cap cell r n ++ [a] := by
  unfold contents
  rw [List.range_succ, List.map_append, List.map_singleton]
  congr 1
  · refine List.map_congr_left fun i hi => ?_
    have hin : i < n := List.mem_range.mp hi
    unfold put
    rw [if_neg]
    intro heq
    have hmod : (r + i) % cap = (r + n) % cap := heq.trans hw
    have hcancel := Nat.ModEq.add_left_cancel' r hmod
    rw [Nat.ModEq, Nat.mod_eq_of_lt (by omega), Nat.mod_eq_of_lt hn] at hcancel
    omega
  · unfold put
    rw [if_pos hw.symm]

end Cells

end Xv6.Support.Ring
