import Mathlib.Algebra.BigOperators.Fin
import Mathlib.Data.Fintype.Prod

/-!
# Counting the places that hold a value

A table is a function on a finite type of places, some of which hold a value.  The number
of places that hold a given value changes in a known way when one of them is assigned.
-/

namespace Xv6.Support

/-- The count `n` of values with one more of `b`. -/
def extra {β : Type} [DecidableEq β] (n : β → ℕ) (b : β) : β → ℕ := fun x =>
  n x + if x = b then 1 else 0

/-- The number of places of `f` that hold `b`. -/
def occurs {α β : Type} [Fintype α] [DecidableEq β] (f : α → Option β) (b : β) : ℕ :=
  (Finset.univ.filter fun a => f a = some b).card

section

variable {α β : Type} [DecidableEq β] {n : β → ℕ} {b : β}

theorem extra_self : extra n b b = n b + 1 := by
  rw [extra, if_pos rfl]

theorem extra_of_ne {x : β} (h : x ≠ b) : extra n b x = n x := by
  rw [extra, if_neg h, Nat.add_zero]

theorem extra_comm (b' : β) : extra (extra n b) b' = extra (extra n b') b := by
  funext x
  exact Nat.add_right_comm _ _ _

variable [Fintype α] {f : α → Option β} {a : α}

theorem occurs_pos (h : f a = some b) : 0 < occurs f b :=
  Finset.card_pos.mpr ⟨a, by simp [h]⟩

theorem occurs_eq_zero (h : ∀ a, f a = none) : occurs f = fun _ => 0 := by
  funext b
  unfold occurs
  simp [h]

variable [DecidableEq α]

theorem occurs_eq_sum (f : α → Option β) (b : β) :
    occurs f b = (if f a = some b then 1 else 0) +
      ∑ x ∈ Finset.univ.erase a, if f x = some b then 1 else 0 := by
  unfold occurs
  rw [Finset.card_filter]
  exact (Finset.add_sum_erase _ _ (Finset.mem_univ a)).symm

/-- An assignment adds the new value at its place and takes the old one away. -/
theorem occurs_update (v : Option β) :
    occurs (Function.update f a v) b + (if f a = some b then 1 else 0) =
      occurs f b + if v = some b then 1 else 0 := by
  have hrest : (∑ x ∈ Finset.univ.erase a, if Function.update f a v x = some b then 1 else 0) =
      ∑ x ∈ Finset.univ.erase a, if f x = some b then 1 else 0 := by
    apply Finset.sum_congr rfl
    intro x hx
    rw [Function.update_of_ne (Finset.ne_of_mem_erase hx)]
  have hnew := occurs_eq_sum (a := a) (Function.update f a v) b
  have hold := occurs_eq_sum (a := a) f b
  rw [hrest, Function.update_self] at hnew
  omega

/-- Storing a value, compared with emptying the place. -/
theorem occurs_store (f : α → Option β) (a : α) (b : β) :
    occurs (Function.update f a (some b)) = extra (occurs (Function.update f a none)) b := by
  funext x
  have hsome := occurs_update (f := f) (a := a) (b := x) (some b)
  have hnone := occurs_update (f := f) (a := a) (b := x) none
  have hcond : (if some b = some x then 1 else 0) = if x = b then 1 else 0 := by
    simp [eq_comm]
  rw [hcond] at hsome
  rw [if_neg (Option.some_ne_none x).symm] at hnone
  unfold extra
  omega

theorem occurs_fill (h : f a = none) (b : β) :
    occurs (Function.update f a (some b)) = extra (occurs f) b := by
  rw [occurs_store, ← h, Function.update_eq_self]

theorem occurs_clear (h : f a = some b) :
    occurs f = extra (occurs (Function.update f a none)) b := by
  rw [← occurs_store, ← h, Function.update_eq_self]

end

-- the lemmas above say all that proofs need; unfolding would enumerate the places
attribute [irreducible] occurs

end Xv6.Support
