import Mathlib.Data.List.Infix

/-!
# Maps with a history of updates

A device whose cells are overwritten one at a time, each update taking effect
atomically and in the order of issue.  The device is kept as its contents at
some starting point together with the updates issued since, latest first, so
that the contents after any initial part of the updates (a crash point) are
again a device of the same kind.
-/

namespace Xv6.Support

variable {ι α : Type} [DecidableEq ι]

/-- The contents of a device after the updates `ws` (latest first). -/
def contents (base : ι → α) : List (ι × α) → ι → α
  | [], i => base i
  | w :: ws, i => if i = w.1 then w.2 else contents base ws i

@[simp] theorem contents_nil (base : ι → α) : contents base [] = base := rfl

theorem contents_cons (base : ι → α) (w : ι × α) (ws : List (ι × α)) (i : ι) :
    contents base (w :: ws) i = if i = w.1 then w.2 else contents base ws i := rfl

@[simp] theorem contents_cons_self (base : ι → α) (i : ι) (a : α)
    (ws : List (ι × α)) : contents base ((i, a) :: ws) i = a := by
  simp [contents]

theorem contents_cons_of_ne (base : ι → α) {i j : ι} (h : i ≠ j) (a : α)
    (ws : List (ι × α)) :
    contents base ((j, a) :: ws) i = contents base ws i := by
  simp [contents, h]

/-- `P` holds of the contents at every point from the history `start` on to
the history `now`, both ends included. -/
def Throughout (P : (ι → α) → Prop) (base : ι → α)
    (start now : List (ι × α)) : Prop :=
  start <:+ now ∧ ∀ mid, start <:+ mid → mid <:+ now → P (contents base mid)

theorem Throughout.refl {P : (ι → α) → Prop} {base : ι → α}
    {ws : List (ι × α)} (h : P (contents base ws)) : Throughout P base ws ws := by
  refine ⟨List.suffix_refl _, ?_⟩
  intro mid hstart hnow
  have heq : mid = ws := List.IsSuffix.eq_of_length hnow
    (le_antisymm hnow.length_le hstart.length_le)
  exact heq ▸ h

theorem Throughout.start {P : (ι → α) → Prop} {base : ι → α}
    {start now : List (ι × α)} (h : Throughout P base start now) :
    P (contents base start) :=
  h.2 start (List.suffix_refl _) h.1

theorem Throughout.now {P : (ι → α) → Prop} {base : ι → α}
    {start now : List (ι × α)} (h : Throughout P base start now) :
    P (contents base now) :=
  h.2 now h.1 (List.suffix_refl _)

/-- One more update whose result satisfies `P`. -/
theorem Throughout.cons {P : (ι → α) → Prop} {base : ι → α}
    {start now : List (ι × α)} (h : Throughout P base start now) {w : ι × α}
    (hw : P (contents base (w :: now))) : Throughout P base start (w :: now) := by
  refine ⟨h.1.trans (List.suffix_cons w now), ?_⟩
  intro mid hstart hnow
  rcases List.suffix_cons_iff.mp hnow with heq | hmid
  · exact heq ▸ hw
  · exact h.2 mid hstart hmid

theorem Throughout.mono {P P' : (ι → α) → Prop} {base : ι → α}
    {start now : List (ι × α)} (h : Throughout P base start now)
    (himp : ∀ d, P d → P' d) : Throughout P' base start now :=
  ⟨h.1, fun mid hstart hnow => himp _ (h.2 mid hstart hnow)⟩

theorem Throughout.trans {P : (ι → α) → Prop} {base : ι → α}
    {start mid now : List (ι × α)} (h : Throughout P base start mid)
    (h' : Throughout P base mid now) : Throughout P base start now := by
  refine ⟨h.1.trans h'.1, ?_⟩
  intro t hstart hnow
  rcases List.suffix_or_suffix_of_suffix hnow h'.1 with htm | hmt
  · exact h.2 t hstart htm
  · exact h'.2 t hmt hnow

end Xv6.Support
