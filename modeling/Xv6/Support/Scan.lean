import Mathlib.Data.List.Basic
import Mathlib.Data.Int.Order.Basic

/-!
# Searching a list for its first minimum

The loop that keeps the best candidate seen so far and replaces it only by a
strictly smaller one, starting from a bound that no candidate may reach.
-/

namespace Xv6.Support

variable {α : Type}

/-- Scan `ps`, keeping the candidate `best` whose key is `min`. -/
def leastBelow (ok : α → Bool) (key : α → ℤ) : List α → ℤ → Option α → Option α
  | [], _, best => best
  | p :: ps, min, best =>
      if ok p && decide (key p < min) then leastBelow ok key ps (key p) (some p)
      else leastBelow ok key ps min best

/-- `p` is the first candidate of `ps` with the smallest key. -/
def IsFirstMin (ok : α → Bool) (key : α → ℤ) (ps : List α) (p : α) : Prop :=
  ok p = true ∧ ∃ before after, ps = before ++ p :: after ∧
    (∀ q ∈ before, ok q = true → key p < key q) ∧
    ∀ q ∈ after, ok q = true → key p ≤ key q

/-- Either some candidate lies below the bound and the first of the smallest
ones is returned, or none does and the search keeps what it had. -/
theorem leastBelow_cases (ok : α → Bool) (key : α → ℤ) (ps : List α) (bound : ℤ) (best : Option α) :
    (∃ p, leastBelow ok key ps bound best = some p ∧ key p < bound ∧
        IsFirstMin ok key ps p) ∨
      (leastBelow ok key ps bound best = best ∧
        ∀ q ∈ ps, ok q = true → bound ≤ key q) := by
  induction ps generalizing bound best with
  | nil => exact Or.inr ⟨rfl, by simp⟩
  | cons a ps ih =>
      by_cases ha : ok a = true ∧ key a < bound
      · have hrun : leastBelow ok key (a :: ps) bound best =
            leastBelow ok key ps (key a) (some a) := by
          simp [leastBelow, ha.1, ha.2]
        rw [hrun]
        rcases ih (key a) (some a) with ⟨p, hp, hlt, hok, before, after, hps, hbefore, hafter⟩ |
            ⟨hkeep, hall⟩
        · refine Or.inl ⟨p, hp, lt_trans hlt ha.2, hok, a :: before, after, by simp [hps], ?_,
            hafter⟩
          intro q hq hokq
          rcases List.mem_cons.mp hq with rfl | hq
          · exact hlt
          · exact hbefore q hq hokq
        · exact Or.inl ⟨a, hkeep, ha.2, ha.1, [], ps, rfl, by simp, hall⟩
      · have hrun : leastBelow ok key (a :: ps) bound best =
            leastBelow ok key ps bound best := by
          simp only [leastBelow]
          rw [if_neg (by simpa using ha)]
        have hbound : ok a = true → bound ≤ key a :=
          fun hok => not_lt.mp (fun hlt => ha ⟨hok, hlt⟩)
        rw [hrun]
        rcases ih bound best with ⟨p, hp, hlt, hok, before, after, hps, hbefore, hafter⟩ |
            ⟨hkeep, hall⟩
        · refine Or.inl ⟨p, hp, hlt, hok, a :: before, after, by simp [hps], ?_, hafter⟩
          intro q hq hokq
          rcases List.mem_cons.mp hq with rfl | hq
          · exact lt_of_lt_of_le hlt (hbound hokq)
          · exact hbefore q hq hokq
        · refine Or.inr ⟨hkeep, ?_⟩
          intro q hq hokq
          rcases List.mem_cons.mp hq with rfl | hq
          · exact hbound hokq
          · exact hall q hq hokq

variable {ok : α → Bool} {key : α → ℤ}

theorem IsFirstMin.le {ps : List α} {p q : α} (h : IsFirstMin ok key ps p)
    (hq : q ∈ ps) (hok : ok q = true) : key p ≤ key q := by
  obtain ⟨_, before, after, rfl, hbefore, hafter⟩ := h
  rcases List.mem_append.mp hq with hq | hq
  · exact le_of_lt (hbefore q hq hok)
  · rcases List.mem_cons.mp hq with rfl | hq
    · exact le_refl _
    · exact hafter q hq hok

/-- In an ordered list a candidate before the first minimum has a larger key. -/
theorem IsFirstMin.lt_of_before {r : α → α → Prop} (hasymm : ∀ a b, r a b → ¬r b a)
    {ps : List α} {p q : α} (h : IsFirstMin ok key ps p) (hsorted : ps.Pairwise r)
    (hq : q ∈ ps) (hok : ok q = true) (hlt : r q p) : key p < key q := by
  obtain ⟨_, before, after, rfl, hbefore, hafter⟩ := h
  have htail := (List.pairwise_append.mp hsorted).2.1
  rcases List.mem_append.mp hq with hq | hq
  · exact hbefore q hq hok
  · rcases List.mem_cons.mp hq with rfl | hq
    · exact absurd hlt (hasymm _ _ hlt)
    · exact absurd hlt (hasymm _ _ ((List.pairwise_cons.mp htail).1 q hq))

end Xv6.Support
