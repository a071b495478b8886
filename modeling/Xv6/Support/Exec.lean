import Mathlib.Logic.Basic

/-!
# Computations with state and failure

A small program logic for code that threads one global state and may stop
early.  A computation that stops keeps the state it has reached, so that a
statement about what it did before stopping can still be made.

`wp m Q E s` says that running `m` from `s` either returns a value and a state
satisfying `Q`, or stops with an error and a state satisfying `E`.  The rules
below are the ones used to compose the specifications of functions.
-/

namespace Xv6.Support

/-- A computation over states `σ` that returns an `α` or stops with an `ε`. -/
def Exec (σ ε α : Type) : Type :=
  σ → Except ε α × σ

namespace Exec

variable {σ τ ε α β : Type}

/-- Sequencing: an error of the first computation skips the second. -/
def bind (m : Exec σ ε α) (f : α → Exec σ ε β) : Exec σ ε β := fun s =>
  match m s with
  | (.ok a, s') => f a s'
  | (.error e, s') => (.error e, s')

instance : Monad (Exec σ ε) where
  pure a := fun s => (.ok a, s)
  bind := bind

/-- Stop with an error. -/
def throw (e : ε) : Exec σ ε α := fun s => (.error e, s)

/-- Read one component of the state. -/
def gets (f : σ → α) : Exec σ ε α := fun s => (.ok (f s), s)

/-- Apply a function to the state. -/
def modify (f : σ → σ) : Exec σ ε Unit := fun s => (.ok (), f s)

/-- Run a computation on one component of a larger state. -/
def zoom (get : σ → τ) (put : τ → σ → σ) (m : Exec τ ε α) : Exec σ ε α := fun s =>
  match m (get s) with
  | (r, t) => (r, put t s)

@[simp] theorem pure_run (a : α) (s : σ) :
    (pure a : Exec σ ε α) s = (.ok a, s) := rfl

theorem bind_run (m : Exec σ ε α) (f : α → Exec σ ε β) (s : σ) :
    (m >>= f) s =
      match m s with
      | (.ok a, s') => f a s'
      | (.error e, s') => (.error e, s') := rfl

@[simp] theorem throw_run (e : ε) (s : σ) :
    (throw e : Exec σ ε α) s = (.error e, s) := rfl

@[simp] theorem gets_run (f : σ → α) (s : σ) :
    (gets f : Exec σ ε α) s = (.ok (f s), s) := rfl

@[simp] theorem modify_run (f : σ → σ) (s : σ) :
    (modify f : Exec σ ε Unit) s = (.ok (), f s) := rfl

theorem bind_run_ok {m : Exec σ ε α} {f : α → Exec σ ε β} {s s' : σ} {a : α}
    (h : m s = (.ok a, s')) : (m >>= f) s = f a s' := by
  rw [bind_run, h]

theorem run_of_fst {m : Exec σ ε α} {s : σ} {r : Except ε α} (h : (m s).1 = r) :
    m s = (r, (m s).2) :=
  Prod.ext h rfl

theorem bind_assoc {γ : Type} (m : Exec σ ε α) (f : α → Exec σ ε β) (g : β → Exec σ ε γ) :
    (m >>= f) >>= g = m >>= fun a => f a >>= g := by
  funext s
  rw [bind_run, bind_run, bind_run]
  rcases m s with ⟨_ | a, s'⟩ <;> rfl

/-! ## Weakest preconditions -/

/-- `Q` of the value and final state of a returned run, `E` of the error and
final state of a stopped one. -/
def Post (Q : α → σ → Prop) (E : ε → σ → Prop) : Except ε α × σ → Prop
  | (.ok a, s) => Q a s
  | (.error e, s) => E e s

/-- Running `m` from `s` ends in `Q` or stops in `E`. -/
def wp (m : Exec σ ε α) (Q : α → σ → Prop) (E : ε → σ → Prop) (s : σ) : Prop :=
  Post Q E (m s)

variable {Q : α → σ → Prop} {E : ε → σ → Prop} {s : σ}

@[simp] theorem wp_pure {a : α} :
    wp (pure a : Exec σ ε α) Q E s ↔ Q a s := Iff.rfl

@[simp] theorem wp_throw {e : ε} :
    wp (throw e : Exec σ ε α) Q E s ↔ E e s := Iff.rfl

@[simp] theorem wp_gets {f : σ → α} :
    wp (gets f : Exec σ ε α) Q E s ↔ Q (f s) s := Iff.rfl

@[simp] theorem wp_modify {f : σ → σ} {Q : Unit → σ → Prop} :
    wp (modify f : Exec σ ε Unit) Q E s ↔ Q () (f s) := Iff.rfl

theorem wp_bind {m : Exec σ ε α} {f : α → Exec σ ε β} {Q : β → σ → Prop} :
    wp (m >>= f) Q E s ↔ wp m (fun a s' => wp (f a) Q E s') E s := by
  unfold wp
  rw [bind_run]
  cases h : m s with
  | mk r s' => cases r <;> rfl

/-- The rule of consequence. -/
theorem wp_mono {m : Exec σ ε α} {Q' : α → σ → Prop} {E' : ε → σ → Prop}
    (h : wp m Q E s) (hQ : ∀ a s', Q a s' → Q' a s')
    (hE : ∀ e s', E e s' → E' e s') : wp m Q' E' s := by
  unfold wp at h ⊢
  cases hm : m s with
  | mk r s' =>
      rw [hm] at h
      cases r with
      | ok a => exact hQ a s' h
      | error e => exact hE e s' h

/-- Two specifications of one run hold together. -/
theorem wp_and {m : Exec σ ε α} {Q' : α → σ → Prop} {E' : ε → σ → Prop}
    (h : wp m Q E s) (h' : wp m Q' E' s) :
    wp m (fun a s' => Q a s' ∧ Q' a s') (fun e s' => E e s' ∧ E' e s') s := by
  unfold wp at h h' ⊢
  cases hm : m s with
  | mk r s' =>
      rw [hm] at h h'
      cases r with
      | ok a => exact ⟨h, h'⟩
      | error e => exact ⟨h, h'⟩

/-- Compose a specification of the first computation with one of the rest. -/
theorem wp_seq {m : Exec σ ε α} {f : α → Exec σ ε β} {Q' : β → σ → Prop}
    {E' : ε → σ → Prop}
    (h : wp m Q E s) (hf : ∀ a s', Q a s' → wp (f a) Q' E' s')
    (hE : ∀ e s', E e s' → E' e s') : wp (m >>= f) Q' E' s :=
  wp_bind.mpr (wp_mono h hf hE)

/-- A specification with an impossible error branch is a total one. -/
theorem wp_total {m : Exec σ ε α} (h : wp m Q (fun _ _ => False) s) :
    ∃ a s', m s = (.ok a, s') ∧ Q a s' := by
  unfold wp at h
  cases hm : m s with
  | mk r s' =>
      rw [hm] at h
      cases r with
      | ok a => exact ⟨a, s', rfl, h⟩
      | error e => exact h.elim

theorem wp_of_run {m : Exec σ ε α} {a : α} {s' : σ} (h : m s = (.ok a, s')) (hQ : Q a s') :
    wp m Q E s := by
  unfold wp
  rw [h]
  exact hQ

/-- A specification depends only on what the run does. -/
theorem wp_congr {m m' : Exec σ ε α} (h : m s = m' s) (hm : wp m' Q E s) : wp m Q E s := by
  unfold wp at hm ⊢
  rw [h]
  exact hm

/-- Read a specification at a run that is known to return. -/
theorem wp_ok {m : Exec σ ε α} {a : α} {s' : σ} (h : wp m Q E s)
    (hm : m s = (.ok a, s')) : Q a s' := by
  unfold wp at h
  rw [hm] at h
  exact h

/-- Read a specification at a run that is known to stop. -/
theorem wp_error {m : Exec σ ε α} {e : ε} {s' : σ} (h : wp m Q E s)
    (hm : m s = (.error e, s')) : E e s' := by
  unfold wp at h
  rw [hm] at h
  exact h

/-- Whatever `m` returns from `s` satisfies `Q`; nothing is asked of a run that
stops. -/
abbrev wlp (m : Exec σ ε α) (Q : α → σ → Prop) (s : σ) : Prop :=
  wp m Q (fun _ _ => True) s

theorem wlp_seq {m : Exec σ ε α} {f : α → Exec σ ε β} {Q' : β → σ → Prop}
    (h : wlp m Q s) (hf : ∀ a s', Q a s' → wlp (f a) Q' s') : wlp (m >>= f) Q' s :=
  wp_seq h hf fun _ _ _ => trivial

theorem wlp_mono {m : Exec σ ε α} {Q' : α → σ → Prop} (h : wlp m Q s)
    (hQ : ∀ a s', Q a s' → Q' a s') : wlp m Q' s :=
  wp_mono h hQ fun _ _ _ => trivial

theorem wlp_and {m : Exec σ ε α} {Q' : α → σ → Prop} (h : wlp m Q s) (h' : wlp m Q' s) :
    wlp m (fun a s' => Q a s' ∧ Q' a s') s :=
  wp_mono (wp_and h h') (fun _ _ h => h) fun _ _ _ => trivial

theorem wlp_throw {e : ε} : wlp (throw e : Exec σ ε α) Q s :=
  trivial

theorem wlp_of_forall {m : Exec σ ε α} (h : ∀ a s', Q a s') : wlp m Q s := by
  unfold wlp wp
  rcases m s with ⟨_ | a, s'⟩
  · exact trivial
  · exact h a s'

/-- Running `m` from `s` returns, and what it returns satisfies `Q`. -/
abbrev total (m : Exec σ ε α) (Q : α → σ → Prop) (s : σ) : Prop :=
  wp m Q (fun _ _ => False) s

theorem total_seq {m : Exec σ ε α} {f : α → Exec σ ε β} {Q' : β → σ → Prop}
    (h : total m Q s) (hf : ∀ a s', Q a s' → total (f a) Q' s') : total (m >>= f) Q' s :=
  wp_seq h hf fun _ _ h => h

theorem total_mono {m : Exec σ ε α} {Q' : α → σ → Prop} (h : total m Q s)
    (hQ : ∀ a s', Q a s' → Q' a s') : total m Q' s :=
  wp_mono h hQ fun _ _ h => h

theorem total.run {m : Exec σ ε α} (h : total m Q s) :
    total m (fun a s' => m s = (.ok a, s') ∧ Q a s') s := by
  obtain ⟨a, s', hm, hq⟩ := wp_total h
  unfold total wp
  rw [hm]
  exact ⟨rfl, hq⟩

theorem total.wlp {m : Exec σ ε α} (h : total m Q s) : Exec.wlp m Q s :=
  wp_mono h (fun _ _ h => h) fun _ _ _ => trivial

/-- A computation that never changes the part `f` of the state. -/
def Keeps (f : σ → τ) (m : Exec σ ε α) : Prop :=
  ∀ s, f (m s).2 = f s

theorem Keeps.pure {f : σ → τ} {a : α} : Keeps f (Pure.pure a : Exec σ ε α) := fun _ => rfl

theorem Keeps.throw {f : σ → τ} {e : ε} : Keeps f (Exec.throw e : Exec σ ε α) := fun _ => rfl

theorem Keeps.gets {f : σ → τ} {g : σ → α} : Keeps f (Exec.gets g : Exec σ ε α) := fun _ => rfl

theorem Keeps.modify {f : σ → τ} {g : σ → σ} (h : ∀ s, f (g s) = f s) :
    Keeps f (Exec.modify g : Exec σ ε Unit) := h

theorem Keeps.bind {f : σ → τ} {m : Exec σ ε α} {k : α → Exec σ ε β} (hm : Keeps f m)
    (hk : ∀ a, Keeps f (k a)) : Keeps f (m >>= k) := by
  intro s
  have hs := hm s
  rw [bind_run]
  cases h : m s with
  | mk r s' =>
      rw [h] at hs
      cases r with
      | ok a => exact (hk a s').trans hs
      | error e => exact hs

/-- A specification together with what the computation keeps. -/
theorem wp_keeps {m : Exec σ ε α} {f : σ → τ} (h : wp m Q E s) (hk : Keeps f m) :
    wp m (fun a s' => Q a s' ∧ f s' = f s) E s := by
  have hs := hk s
  unfold wp at h ⊢
  cases hm : m s with
  | mk r s' =>
      rw [hm] at h hs
      cases r with
      | ok a => exact ⟨h, hs⟩
      | error e => exact h

/-- The same for a run that stops. -/
theorem Keeps.wp {m : Exec σ ε α} {f : σ → τ} (hk : Keeps f m) :
    Exec.wp m (fun _ s' => f s' = f s) (fun _ s' => f s' = f s) s := by
  have hs := hk s
  unfold Exec.wp
  cases hm : m s with
  | mk r s' =>
      rw [hm] at hs
      cases r with
      | ok a => exact hs
      | error e => exact hs

/-- A property of states that a computation never ends, whether it returns or
stops. -/
def Preserves (P : σ → Prop) (m : Exec σ ε α) : Prop :=
  ∀ s, P s → P (m s).2

theorem Preserves.pure {P : σ → Prop} {a : α} : Preserves P (Pure.pure a : Exec σ ε α) :=
  fun _ h => h

theorem Preserves.throw {P : σ → Prop} {e : ε} : Preserves P (Exec.throw e : Exec σ ε α) :=
  fun _ h => h

theorem Preserves.gets {P : σ → Prop} {g : σ → α} : Preserves P (Exec.gets g : Exec σ ε α) :=
  fun _ h => h

theorem Preserves.modify {P : σ → Prop} {g : σ → σ} (h : ∀ s, P s → P (g s)) :
    Preserves P (Exec.modify g : Exec σ ε Unit) := h

theorem Preserves.bind {P : σ → Prop} {m : Exec σ ε α} {k : α → Exec σ ε β}
    (hm : Preserves P m) (hk : ∀ a, Preserves P (k a)) : Preserves P (m >>= k) := by
  intro s hs
  have hs' := hm s hs
  rw [bind_run]
  cases h : m s with
  | mk r s' =>
      rw [h] at hs'
      cases r with
      | ok a => exact hk a s' hs'
      | error e => exact hs'

/-- A property of something that is kept is preserved. -/
theorem Keeps.preserves {f : σ → τ} {m : Exec σ ε α} {P : σ → Prop} (hk : Keeps f m)
    (hP : ∀ s s', f s' = f s → P s → P s') : Preserves P m :=
  fun s hs => hP s _ (hk s) hs

theorem Preserves.wp {P : σ → Prop} {m : Exec σ ε α} (h : Preserves P m) (hs : P s) :
    Exec.wp m (fun _ s' => P s') (fun _ s' => P s') s := by
  have hs' := h s hs
  unfold Exec.wp
  cases hm : m s with
  | mk r s' =>
      rw [hm] at hs'
      cases r with
      | ok a => exact hs'
      | error e => exact hs'

/-- A run that cannot return. -/
theorem wp_stops {m : Exec σ ε α} {e₀ : ε}
    (h : Exec.wp m (fun _ _ => False) (fun e _ => e = e₀) s) : (m s).1 = .error e₀ := by
  unfold Exec.wp at h
  cases hm : m s with
  | mk r s' =>
      rw [hm] at h
      cases r with
      | ok a => exact h.elim
      | error e => exact congrArg Except.error h

/-- What holds whether the run returns or stops, holds at its end. -/
theorem wp_end {P : σ → Prop} {m : Exec σ ε α}
    (h : Exec.wp m (fun _ s' => P s') (fun _ s' => P s') s) : P (m s).2 := by
  unfold Exec.wp at h
  cases hm : m s with
  | mk r s' =>
      rw [hm] at h
      cases r with
      | ok a => exact h
      | error e => exact h

/-- A specification of the runs that return together with what every run
preserves. -/
theorem wlp_preserves {P : σ → Prop} {m : Exec σ ε α} (h : wlp m Q s) (hp : Preserves P m)
    (hs : P s) : wp m (fun a s' => Q a s' ∧ P s') (fun _ s' => P s') s :=
  wp_mono (wp_and h (hp.wp hs)) (fun _ _ h => h) fun _ _ h => h.2

/-- A specification that is only about what the computation keeps. -/
theorem Keeps.wlp {m : Exec σ ε α} {f : σ → τ} (hk : Keeps f m) :
    Exec.wlp m (fun _ s' => f s' = f s) s := by
  have hs := hk s
  unfold Exec.wlp Exec.wp
  cases hm : m s with
  | mk r s' =>
      rw [hm] at hs
      cases r with
      | ok a => exact hs
      | error e => exact trivial

theorem wp_zoom {get : σ → τ} {put : τ → σ → σ} {m : Exec τ ε α} :
    wp (zoom get put m) Q E s ↔
      wp m (fun a t => Q a (put t s)) (fun e t => E e (put t s)) (get s) := by
  unfold wp zoom
  cases h : m (get s) with
  | mk r t => cases r <;> rfl

-- from here on specifications are composed by the rules above; unfolding `wp`
-- would make Lean run the program
attribute [irreducible] wp

/-! ## Specifications with an exception -/

/-- The computation returns in `Q`, unless it ends in `P`, whether it returns or stops. -/
def Sure (P : σ → Prop) (m : Exec σ ε α) (Q : α → σ → Prop) (s : σ) : Prop :=
  wp m (fun a s' => P s' ∨ Q a s') (fun _ s' => P s') s

namespace Sure

variable {P : σ → Prop}

theorem pure {a : α} (h : Q a s) : Sure P (Pure.pure a : Exec σ ε α) Q s :=
  wp_pure.mpr (Or.inr h)

theorem mono {m : Exec σ ε α} {Q' : α → σ → Prop} (h : Sure P m Q s)
    (hQ : ∀ a s', Q a s' → Q' a s') : Sure P m Q' s :=
  wp_mono h (fun a s' => Or.imp_right (hQ a s')) fun _ _ hP => hP

/-- What comes afterwards must not leave `P`. -/
theorem seq {m : Exec σ ε α} {f : α → Exec σ ε β} {R : β → σ → Prop} (h : Sure P m Q s)
    (hP : ∀ a, Preserves P (f a)) (hf : ∀ a s', Q a s' → Sure P (f a) R s') :
    Sure P (m >>= f) R s := by
  refine wp_seq h ?_ fun _ _ hs => hs
  rintro a s' (hs | hQ)
  · exact wp_mono ((hP a).wp hs) (fun _ _ hs => Or.inl hs) fun _ _ hs => hs
  · exact hf a s' hQ

end Sure

/-! ## Loops over a list -/

/-- Run `f` on the elements of a list in order. -/
def each (f : α → Exec σ ε Unit) : List α → Exec σ ε Unit
  | [] => pure ()
  | a :: as => f a >>= fun _ => each f as

theorem Keeps.each {g : σ → τ} {f : α → Exec σ ε Unit} (hf : ∀ a, Keeps g (f a)) (as : List α) :
    Keeps g (Exec.each f as) := by
  induction as with
  | nil => exact Keeps.pure
  | cons a as ih => exact (hf a).bind fun _ => ih

/-- The invariant rule: `I done` holds before the elements after `done`. -/
theorem wp_each {f : α → Exec σ ε Unit} {I : List α → σ → Prop} {as : List α}
    (hstep : ∀ done a rest s, as = done ++ a :: rest → I done s →
      wp (f a) (fun _ s' => I (done ++ [a]) s') E s)
    (h0 : I [] s) : wp (each f as) (fun _ s' => I as s') E s := by
  suffices aux : ∀ (rest done : List α) (s : σ), as = done ++ rest → I done s →
      wp (each f rest) (fun _ s' => I as s') E s from aux as [] s rfl h0
  intro rest
  induction rest with
  | nil =>
      intro done s has hI
      have hdone : as = done := by simpa using has
      exact wp_pure.mpr (hdone ▸ hI)
  | cons a rest ih =>
      intro done s has hI
      refine wp_seq (hstep done a rest s has hI) ?_ (fun _ _ h => h)
      intro _ s' hI'
      exact ih (done ++ [a]) s' (by simp [has]) hI'

end Exec

end Xv6.Support
