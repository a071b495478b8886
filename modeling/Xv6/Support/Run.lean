import Mathlib.Data.List.Induction

/-!
# Runs of a labelled transition relation

A run is a finite sequence of labelled steps, kept as the list of its labels in
the order of their occurrence.  Runs are indexed by a predicate that all their
states satisfy, so that a statement about a stretch of a run ("while the
process stays runnable") needs no separate notion of path.

The rules are the two inductions used over runs, for a property of states and
for a property that relates the state to the labels seen so far, and the
operations that cut runs and put them together.
-/

namespace Xv6.Support

variable {σ ε : Type}

/-- The runs of `step` through states satisfying `P`. -/
inductive Run (step : σ → ε → σ → Prop) (P : σ → Prop) : σ → List ε → σ → Prop
  /-- The run without steps. -/
  | nil {s : σ} (h : P s) : Run step P s [] s
  /-- One more step at the end. -/
  | snoc {s t u : σ} {es : List ε} {e : ε} (hrun : Run step P s es t)
      (hstep : step t e u) (h : P u) : Run step P s (es ++ [e]) u

namespace Run

variable {step : σ → ε → σ → Prop} {P P' : σ → Prop} {s t u : σ} {es fs : List ε}

theorem single {e : ε} (hs : P s) (hstep : step s e t) (ht : P t) :
    Run step P s [e] t :=
  .snoc (.nil hs) hstep ht

theorem last (h : Run step P s es t) : P t := by
  cases h with
  | nil h => exact h
  | snoc _ _ h => exact h

theorem first (h : Run step P s es t) : P s := by
  induction h with
  | nil h => exact h
  | snoc _ _ _ ih => exact ih

theorem mono (h : Run step P s es t) (himp : ∀ x, P x → P' x) :
    Run step P' s es t := by
  induction h with
  | nil h => exact .nil (himp _ h)
  | snoc _ hstep h ih => exact .snoc ih hstep (himp _ h)

theorem imp {step' : σ → ε → σ → Prop} (h : Run step P s es t)
    (himp : ∀ x e y, step x e y → step' x e y) : Run step' P s es t := by
  induction h with
  | nil h => exact .nil h
  | snoc _ hstep h ih => exact .snoc ih (himp _ _ _ hstep) h

theorem append (h : Run step P s es t) (h' : Run step P t fs u) :
    Run step P s (es ++ fs) u := by
  induction h' with
  | nil _ => simpa using h
  | snoc _ hstep hP ih =>
      rw [← List.append_assoc]
      exact .snoc ih hstep hP

/-- The last step of a run with at least one label. -/
theorem unsnoc {e : ε} (h : Run step P s (es ++ [e]) u) :
    ∃ t, Run step P s es t ∧ step t e u ∧ P u := by
  generalize hgs : es ++ [e] = gs at h
  cases h with
  | nil _ => simp at hgs
  | snoc hrun hstep hP =>
      obtain ⟨rfl, hlast⟩ := List.append_inj' hgs rfl
      obtain rfl := List.singleton_inj.mp hlast
      exact ⟨_, hrun, hstep, hP⟩

/-- Every cut of the labels is a cut of the run. -/
theorem split (h : Run step P s (es ++ fs) u) :
    ∃ t, Run step P s es t ∧ Run step P t fs u := by
  induction fs using List.reverseRecOn generalizing u with
  | nil => exact ⟨u, by simpa using h, .nil h.last⟩
  | append_singleton fs e ih =>
      rw [← List.append_assoc] at h
      obtain ⟨v, hrun, hstep, hP⟩ := h.unsnoc
      obtain ⟨t, hleft, hright⟩ := ih hrun
      exact ⟨t, hleft, .snoc hright hstep hP⟩

/-- The states around one given label of a run. -/
theorem at_label {e : ε} (h : Run step P s (es ++ e :: fs) u) :
    ∃ t t', Run step P s es t ∧ step t e t' ∧ Run step P t' fs u := by
  have hcut : Run step P s ((es ++ [e]) ++ fs) u := by simpa using h
  obtain ⟨t', hleft, hright⟩ := hcut.split
  obtain ⟨t, hrun, hstep, _⟩ := hleft.unsnoc
  exact ⟨t, t', hrun, hstep, hright⟩

/-- A property that every step preserves holds at the end of a run. -/
theorem invariant {I : σ → Prop} (h : Run step P s es t)
    (hstep : ∀ x e y, P x → P y → I x → step x e y → I y) (hI : I s) : I t := by
  induction h with
  | nil _ => exact hI
  | snoc hrun hlast hP ih => exact hstep _ _ _ hrun.last hP ih hlast

/-- The same for a property that also speaks of the labels seen so far. -/
theorem history {J : List ε → σ → Prop} (h : Run step P s es t)
    (hstep : ∀ gs x e y, P x → P y → J gs x → step x e y → J (gs ++ [e]) y)
    (hJ : J [] s) : J es t := by
  induction h with
  | nil _ => exact hJ
  | snoc hrun hlast hP ih => exact hstep _ _ _ _ hrun.last hP ih hlast

/-- The state after a list of steps of a partial step function. -/
def play (f : σ → ε → Option σ) : σ → List ε → Option σ
  | s, [] => some s
  | s, e :: es => (f s e).bind fun t => play f t es

/-- A function all of whose steps are steps of the relation, and lead to `P`. -/
theorem of_play_of {f : σ → ε → Option σ} (hf : ∀ s e t, f s e = some t → step s e t ∧ P t)
    (hs : P s) (h : play f s es = some t) : Run step P s es t := by
  induction es generalizing s with
  | nil =>
      obtain rfl := Option.some.inj h
      exact .nil hs
  | cons e es ih =>
      obtain ⟨u, hu, hrest⟩ := Option.bind_eq_some_iff.mp h
      obtain ⟨hstep, hP⟩ := hf s e u hu
      exact (single hs hstep hP).append (ih hP hrest)

theorem of_play {f : σ → ε → Option σ} (h : play f s es = some t) :
    Run (fun s e t => f s e = some t) (fun _ => True) s es t :=
  of_play_of (fun _ _ _ hstep => ⟨hstep, trivial⟩) trivial h

end Run

end Xv6.Support
