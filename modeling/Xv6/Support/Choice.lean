import Xv6.Support.Exec

/-!
# Computations that depend on choices of their environment

Some states carry the list of the choices that the environment will make; a
computation consumes them from the front.  `put cs s` is the state `s` with the
choices `cs` ahead.

`can put m Q s` says that there are choices with which `m` returns from `s`, uses
up these choices and no others, and ends in `Q`.  It is the counterpart of `wp`
for showing that something can happen: the choices of the parts of a computation
are put together, and the rules below need not know how many there are.
-/

namespace Xv6.Support

namespace Exec

variable {σ τ ε α β γ : Type} {put : List γ → σ → σ} {s : σ}

/-- With some choices of the environment, `m` returns from `s` in `Q`. -/
def can (put : List γ → σ → σ) (m : Exec σ ε α) (Q : α → σ → Prop) (s : σ) : Prop :=
  ∃ cs a s', (∀ rest, m (put (cs ++ rest) s) = (.ok a, put rest s')) ∧ Q a s'

variable {Q : α → σ → Prop}

theorem can_pure {a : α} (h : Q a s) : can put (pure a : Exec σ ε α) Q s :=
  ⟨[], a, s, fun _ => rfl, h⟩

theorem can_bind {m : Exec σ ε α} {f : α → Exec σ ε β} {R : β → σ → Prop}
    (hm : can put m Q s) (hf : ∀ a s', Q a s' → can put (f a) R s') :
    can put (m >>= f) R s := by
  obtain ⟨cs, a, s₁, hrun, hQ⟩ := hm
  obtain ⟨ds, b, s₂, hrun', hR⟩ := hf a s₁ hQ
  refine ⟨cs ++ ds, b, s₂, fun rest => ?_, hR⟩
  rw [List.append_assoc, bind_run_ok (hrun (ds ++ rest)), hrun']

/-- Reading something that is not a choice. -/
theorem can_gets {f : σ → α} {k : α → Exec σ ε β} {R : β → σ → Prop}
    (hf : ∀ cs, f (put cs s) = f s) (h : can put (k (f s)) R s) :
    can put (gets f >>= k) R s := by
  refine can_bind (Q := fun a s' => a = f s ∧ s' = s) ⟨[], f s, s, fun rest => ?_, rfl, rfl⟩ ?_
  · rw [gets_run, List.nil_append, hf]
  · rintro a s' ⟨ha, hs⟩
    rw [ha, hs]
    exact h

/-- Changing something that is not a choice. -/
theorem can_modify {f : σ → σ} {k : Unit → Exec σ ε β} {R : β → σ → Prop}
    (hf : ∀ cs, f (put cs s) = put cs (f s)) (h : can put (k ()) R (f s)) :
    can put (modify f >>= k) R s := by
  refine can_bind (Q := fun _ s' => s' = f s) ⟨[], (), f s, fun rest => ?_, rfl⟩ ?_
  · rw [modify_run, List.nil_append, hf]
  · rintro - s' hs
    rw [hs]
    exact h

/-- The same at the end of a computation. -/
theorem can_modify_last {f : σ → σ} {R : Unit → σ → Prop}
    (hf : ∀ cs, f (put cs s) = put cs (f s)) (h : R () (f s)) :
    can put (modify f : Exec σ ε Unit) R s := by
  refine ⟨[], (), f s, fun rest => ?_, h⟩
  rw [modify_run, List.nil_append, hf]

theorem can_mono {m : Exec σ ε α} {Q' : α → σ → Prop} (h : can put m Q s)
    (hQ : ∀ a s', Q a s' → Q' a s') : can put m Q' s := by
  obtain ⟨cs, a, s', hrun, hend⟩ := h
  exact ⟨cs, a, s', hrun, hQ a s' hend⟩

/-- A run that can happen satisfies the specification that every run has. -/
theorem can_wlp {m : Exec σ ε α} {P : List γ → α → σ → Prop} (h : can put m Q s)
    (hspec : ∀ cs, wlp m (P cs) (put cs s)) :
    can put m (fun a s' => Q a s' ∧ ∃ cs ds, P cs a (put ds s')) s := by
  obtain ⟨cs, a, s', hrun, hend⟩ := h
  exact ⟨cs, a, s', hrun, hend, cs ++ [], [], wp_ok (hspec _) (hrun [])⟩

/-- Running on one component. -/
theorem can_zoom {get : σ → τ} {set : τ → σ → σ} {putIn : List γ → τ → τ} {m : Exec τ ε α}
    (hget : ∀ cs, get (put cs s) = putIn cs (get s))
    (hset : ∀ cs ds t, set (putIn ds t) (put cs s) = put ds (set t s))
    (h : can putIn m (fun a t => Q a (set t s)) (get s)) :
    can put (zoom get set m) Q s := by
  obtain ⟨cs, a, t, hrun, hQ⟩ := h
  refine ⟨cs, a, set t s, fun rest => ?_, hQ⟩
  unfold zoom
  rw [hget, hrun]
  simp only [hset]

/-! ## Specifications that some run satisfies -/

/-- With some choices of the environment, the run of `m` satisfies a specification. -/
def may (put : List γ → σ → σ) (m : Exec σ ε α) (Q : α → σ → Prop) (E : ε → σ → Prop) (s : σ) :
    Prop :=
  ∃ cs, wp m Q E (put cs s)

variable {R : β → σ → Prop} {E : ε → σ → Prop}

theorem may_bind {m : Exec σ ε α} {f : α → Exec σ ε β} (hm : can put m Q s)
    (hf : ∀ a s', Q a s' → may put (f a) R E s') : may put (m >>= f) R E s := by
  obtain ⟨cs, a, s₁, hrun, hQ⟩ := hm
  obtain ⟨ds, hwp⟩ := hf a s₁ hQ
  refine ⟨cs ++ ds, ?_⟩
  unfold wp at hwp ⊢
  rwa [bind_run_ok (hrun ds)]

/-- The choices all lie in the first part. -/
theorem may_then {m : Exec σ ε α} {f : α → Exec σ ε β} (hm : may put m Q E s)
    (hf : ∀ a s', Q a s' → wp (f a) R E s') : may put (m >>= f) R E s := by
  obtain ⟨cs, hwp⟩ := hm
  exact ⟨cs, wp_seq hwp hf fun _ _ hE => hE⟩

theorem may_modify {f : σ → σ} {k : Unit → Exec σ ε β} (hf : ∀ cs, f (put cs s) = put cs (f s))
    (h : may put (k ()) R E (f s)) : may put (modify f >>= k) R E s := by
  obtain ⟨cs, hwp⟩ := h
  refine ⟨cs, wp_bind.mpr (wp_modify.mpr ?_)⟩
  rwa [hf]

theorem may_mono {m : Exec σ ε α} {Q' : α → σ → Prop} (h : may put m Q E s)
    (hQ : ∀ a s', Q a s' → Q' a s') : may put m Q' E s := by
  obtain ⟨cs, hwp⟩ := h
  exact ⟨cs, wp_mono hwp hQ fun _ _ hE => hE⟩

end Exec

end Xv6.Support
