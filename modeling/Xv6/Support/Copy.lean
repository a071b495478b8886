import Mathlib.Data.List.Nodup
import Mathlib.Logic.Function.Basic

/-!
# Copies in one memory

Cells of a memory are assigned from other cells of it, one after the other.  A cell may be
read when it has been assigned already; the rule below says when this does not happen, so
that every cell gets what the other one has held at the beginning.
-/

namespace Xv6.Support

variable {α β : Type} [DecidableEq α] {ps : List (α × α)} {m : α → β}

/-- The assignments `m d := m s`, for the pairs `(d, s)` of a list. -/
def copies : List (α × α) → (α → β) → α → β
  | [], m => m
  | p :: ps, m => copies ps (Function.update m p.1 (m p.2))

/-- A cell that is not assigned keeps its value. -/
theorem copies_of_notMem {a : α} (ha : a ∉ ps.map Prod.fst) : copies ps m a = m a := by
  induction ps generalizing m with
  | nil => rfl
  | cons p ps ih =>
      simp only [List.map_cons, List.mem_cons, not_or] at ha
      rw [copies, ih ha.2, Function.update_of_ne ha.1]

/-- If no cell is assigned twice, and none is read after it has been assigned, then the
copies are as good as simultaneous. -/
theorem copies_of_mem {d s : α} (hnodup : (ps.map Prod.fst).Nodup)
    (hfresh : ps.Pairwise fun p q => q.2 ≠ p.1) (hmem : (d, s) ∈ ps) :
    copies ps m d = m s := by
  induction ps generalizing m with
  | nil => cases hmem
  | cons p ps ih =>
      rw [List.map_cons, List.nodup_cons] at hnodup
      rw [List.pairwise_cons] at hfresh
      rw [copies]
      rcases List.mem_cons.mp hmem with rfl | hmem
      · rw [copies_of_notMem hnodup.1, Function.update_self]
      · rw [ih hnodup.2 hfresh.2 hmem, Function.update_of_ne (hfresh.1 (d, s) hmem)]

end Xv6.Support
