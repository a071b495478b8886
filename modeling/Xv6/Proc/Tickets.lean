import Xv6.Proc.Stride

/-!
# Tickets of a fork

The way of the ticket argument from the user's `fork(int)` to the `sizeStep` of
the child: the stub leaves the argument on the user stack, `sys_fork` does not
fetch it and calls `fork(500)`, and `allocproc` computes the stride.  The child
is therefore given the stride of 500 tickets, whatever was asked for.
-/

namespace Xv6

open Support

/-- The tickets for which `allocproc` computes the stride of 500 tickets. -/
theorem stride_eq_default_iff (t : ℤ) :
    stride t = stride 500 ↔ t = 0 ∨ (477 ≤ t ∧ t ≤ 500) := by
  have hdefault : stride 500 = 20 := by decide
  rw [hdefault]
  unfold stride
  split
  · next h => simp [h]
  · next hzero =>
    split
    · next hlow =>
      constructor
      · intro h
        exact absurd h (by decide)
      · intro h
        omega
    · next hlow =>
      split
      · next hhigh =>
        constructor
        · intro h
          exact absurd h (by decide)
        · intro h
          omega
      · next hhigh =>
        have hpos : 0 < t := by omega
        constructor
        · intro h
          have hle : 20 * t ≤ 10000 := by
            have := (Int.le_ediv_iff_mul_le hpos).mp (le_of_eq h.symm)
            omega
          have hlt : 10000 < 21 * t := by
            have := (Int.ediv_lt_iff_lt_mul hpos).mp (lt_of_eq_of_lt h (by decide : (20 : ℤ) < 21))
            omega
          omega
        · intro h
          have hle : 20 ≤ 10000 / t := (Int.le_ediv_iff_mul_le hpos).mpr (by omega)
          have hlt : 10000 / t < 21 := (Int.ediv_lt_iff_lt_mul hpos).mpr (by omega)
          omega

/-- The event at which a `fork` of `p` is over. -/
def Event.endsFork (p : Slot) : Event → Bool
  | .forked r _ _ => r = p
  | .forkFailed r => r = p
  | _ => false

namespace Machine

variable {n : ℕ} {m m' : Machine n} {c : Fin n} {e : Event} {es : List Event}

/-- Process `p` is in a `fork` that was called with `tickets`. -/
def Forking (p : Slot) (tickets : ℤ) (m : Machine n) : Prop :=
  (∃ c, (m.cpu c).proc = some p ∧ (m.cpu c).pc = .inside (.fork tickets)) ∨
    ∃ f, m.frame p = some f ∧ f.tickets = tickets ∧
      (f.phase ≠ .stack → (m.ptable f.child).sizeStep = stride tickets)

/-- The stride of an entry that is being filled stands still until it is set. -/
theorem Move.filling_stride (h : Sound m) (hmove : Move m c e m') {p : Slot} {f : ForkFrame}
    (hframe : m.frame p = some f) (hphase : f.phase ≠ .stack) :
    (m'.ptable f.child).sizeStep = (m.ptable f.child).sizeStep := by
  cases (hmove.change f.child).stride h with
  | keep _ _ hsize => exact hsize
  | dispatch _ _ hmin _ =>
      have hembryo := (h.forks.frame p f hframe).2
      simp [(minP_runnable hmin).1] at hembryo
  | prepare r g _ _ hg hchild hstack _ _ =>
      obtain rfl : r = p := h.forks.child r p g f hg hframe hchild
      obtain rfl : g = f := Option.some.inj (hg.symm.trans hframe)
      exact absurd hstack hphase

/-- A `fork` goes on with its tickets, or its process returns from it. -/
theorem Move.forking (h : Sound m) (hmove : Move m c e m') {p : Slot} {t : ℤ}
    (hp : Forking p t m) (he : e.endsFork p = false) : Forking p t m' := by
  rcases hp with ⟨d, hproc, hpc⟩ | ⟨f, hframe, rfl, hsize⟩
  · by_cases hd : d = c
    · subst hd
      cases hmove with
      | alloc r q tickets hpc' hproc' hunused =>
          obtain rfl : p = r := Option.some.inj (hproc.symm.trans hproc')
          obtain rfl : t = tickets := by simpa using hpc.symm.trans hpc'
          exact Or.inr ⟨⟨q, t, .stack⟩, by simp, rfl, fun hne => absurd rfl hne⟩
      | jump pc _ hjump =>
          cases hjump with
          | forkFailed r _ _ hproc' =>
              obtain rfl : p = r := Option.some.inj (hproc.symm.trans hproc')
              simp [Event.endsFork] at he
          | _ => simp_all
      | enter k _ hfrom => rcases hfrom with ⟨_, hpc', _⟩ | ⟨hpc', _⟩ <;> simp [hpc] at hpc'
      | awake _ _ hpc' _ _ => simp [hpc] at hpc'
      | _ => simp_all
    · refine Or.inl ⟨d, ?_⟩
      rw [hmove.cpu_of_ne hd]
      exact ⟨hproc, hpc⟩
  · -- the step belongs to this fork, or it leaves the frame and the stride alone
    have hkeep : m'.frame p = some f → Forking p f.tickets m' := by
      intro hframe'
      refine Or.inr ⟨f, hframe', rfl, fun hphase => ?_⟩
      rw [hmove.filling_stride h hframe hphase]
      exact hsize hphase
    by_cases hproc : (m.cpu c).proc = some p
    · cases hmove with
      | alloc r q tickets hpc hproc' _ =>
          have hnone := h.frame_none hpc hproc' (by simp) (by simp)
          obtain rfl : p = r := Option.some.inj (hproc.symm.trans hproc')
          simp [hnone] at hframe
      | giveUp r g _ hproc' _ _ =>
          obtain rfl : p = r := Option.some.inj (hproc.symm.trans hproc')
          simp [Event.endsFork] at he
      | forked r g _ hproc' _ _ =>
          obtain rfl : p = r := Option.some.inj (hproc.symm.trans hproc')
          simp [Event.endsFork] at he
      | prepare r g kstack _ hproc' hg _ =>
          obtain rfl : p = r := Option.some.inj (hproc.symm.trans hproc')
          obtain rfl : g = f := Option.some.inj (hg.symm.trans hframe)
          exact Or.inr ⟨{ g with phase := .memory }, by simp, rfl, fun _ => by simp [Proc.prepare]⟩
      | inherit r g pgdir _ hproc' hg hmemory =>
          obtain rfl : p = r := Option.some.inj (hproc.symm.trans hproc')
          obtain rfl : g = f := Option.some.inj (hg.symm.trans hframe)
          have hstride := hsize (by simp [hmemory])
          exact Or.inr ⟨{ g with phase := .files }, by simp, rfl,
            fun _ => by simpa [Proc.inherit] using hstride⟩
      | _ => exact hkeep hframe
    · exact hkeep ((hmove.frame_of_ne hproc).trans hframe)

/-- The child of a `fork` has the stride of the tickets `fork` was called with. -/
theorem Move.forked_sizeStep (h : Sound m) {p q : Slot} {pid t : ℤ}
    (hmove : Move m c (.forked p q pid) m') (hp : Forking p t m) :
    (m'.ptable q).sizeStep = stride t := by
  cases hmove with
  | jump pc _ hjump => cases hjump
  | forked p f hpc hproc hframe hphase =>
      rcases hp with ⟨d, hproc', hpc'⟩ | ⟨g, hg, rfl, hsize⟩
      · obtain rfl := h.unique c d p hproc hproc'
        simp [hpc] at hpc'
      · obtain rfl : f = g := Option.some.inj (hframe.symm.trans hg)
        simpa [Proc.ready] using hsize (by simp [hphase])

/-- The system call enters `fork(500)`. -/
theorem syscall_forking {p : Slot} {arg : ℕ → Option ℤ} (hproc : (m.cpu c).proc = some p)
    (hcall : m.step c (.syscall 1 arg) = some (m', e)) : Forking p 500 m' := by
  obtain ⟨m₁, hm₁, heq⟩ := Option.map_eq_some_iff.mp hcall
  obtain ⟨rfl, rfl⟩ := Prod.mk.inj heq
  obtain ⟨_, k, _, hk, henter⟩ := trap_enter hm₁
  obtain rfl : Section.fork 500 = k := by simpa [syscall, sysFork] using hk
  rw [(enter_move henter).1]
  exact Or.inl ⟨c, by simp [hproc]⟩

/-- Whatever the user asks for, the child has the stride of 500 tickets. -/
theorem run_fork_sizeStep {m₁ m₂ : Machine n} {p q : Slot} {pid : ℤ}
    {arg : ℕ → Option ℤ} (h : Reachable m) (hproc : (m.cpu c).proc = some p)
    (hcall : m.step c (.syscall 1 arg) = some (m₁, e))
    (hrun : Run Steps (fun _ => True) m₁ (es ++ [.forked p q pid]) m₂)
    (hfirst : ∀ x ∈ es, x.endsFork p = false) : (m₂.ptable q).sizeStep = stride 500 := by
  have hsound : Sound m₁ := (step_move hcall).sound h.sound
  obtain ⟨x, hbefore, ⟨d, a, hstep⟩, _⟩ := hrun.unsnoc
  have hJ := hbefore.history (J := fun es x => (∀ y ∈ es, y.endsFork p = false) →
    Sound x ∧ Forking p 500 x) ?_ (fun _ => ⟨hsound, syscall_forking hproc hcall⟩)
  · obtain ⟨hx, hforking⟩ := hJ hfirst
    exact (step_move hstep).forked_sizeStep hx hforking
  · rintro gs y e z _ _ hgs ⟨d, a, hmove⟩ hall
    have hmove := step_move hmove
    obtain ⟨hy, hforking⟩ := hgs fun w hw => hall w (List.mem_append_left _ hw)
    exact ⟨hmove.sound hy, hmove.forking hy hforking (hall e (by simp))⟩

/-- The child of a successful `fork(t)` of the user has the stride of its tickets
exactly if that is the stride of 500 tickets: for `t = 0` and from 477 to 500. -/
theorem fork_tickets_iff {n : ℕ} {m m₁ m₂ : Machine n} {c : Fin n} {p q : Slot} {t pid : ℤ}
    {arg : ℕ → Option ℤ} {e : Event} {es : List Event} (h : Reachable m)
    (hproc : (m.cpu c).proc = some p) (_harg : arg 0 = some t)
    (hcall : m.step c (.syscall 1 arg) = some (m₁, e))
    (hrun : Run Steps (fun _ => True) m₁ (es ++ [.forked p q pid]) m₂)
    (hfirst : ∀ x ∈ es, x.endsFork p = false) :
    (m₂.ptable q).sizeStep = stride t ↔ t = 0 ∨ (477 ≤ t ∧ t ≤ 500) := by
  rw [run_fork_sizeStep h hproc hcall hrun hfirst, eq_comm]
  exact stride_eq_default_iff t

/-- The first process calls `fork(t)` and goes on until the child is there. -/
def forkCall : List (Fin 1 × Action) :=
  [(cpu0, .go), (cpu0, .go), (cpu0, .fork (some 2)), (cpu0, .fork (some 3)), (cpu0, .fork none)]

/-- A run of `fork(t)` that succeeds. -/
theorem exists_fork (t : ℤ) :
    ∃ (m m₁ m₂ : Machine 1) (e : Event) (es : List Event), Reachable m ∧
      (m.cpu 0).proc = some 0 ∧ m.step 0 (.syscall 1 fun _ => some t) = some (m₁, e) ∧
      Run Steps (fun _ => True) m₁ (es ++ [.forked 0 1 2]) m₂ ∧
      ∀ x ∈ es, x.endsFork 0 = false := by
  have hindep : ∀ m : Machine 1, m.step 0 (.syscall 1 fun _ => some t) =
      m.step 0 (.syscall 1 fun _ => none) := fun _ => rfl
  obtain ⟨m, hm, hQ⟩ := exists_reachable (n := 1) 0 1 (List.replicate 5 (cpu0, .go))
    (fun m => decide ((m.cpu 0).proc = some 0) &&
      (m.step 0 (.syscall 1 fun _ => none)).any fun r =>
        (r.1.exec (fun _ => true) forkCall).any fun s =>
          decide (s.2 = [.alloc 0 1 2, .tau, .tau, .tau] ++ [.forked 0 1 2]))
    (by decide +kernel)
  rw [Bool.and_eq_true, decide_eq_true_eq] at hQ
  obtain ⟨hproc, hcall⟩ := hQ
  cases hstep : m.step 0 (.syscall 1 fun _ => none) with
  | none => simp [hstep] at hcall
  | some r =>
      rw [hstep, Option.any_some] at hcall
      obtain ⟨m₂, fs, hrun, hfs⟩ := exists_run _ r.1
        (fun _ fs => decide (fs = [.alloc 0 1 2, .tau, .tau, .tau] ++ [.forked 0 1 2])) _ hcall
      rw [of_decide_eq_true hfs] at hrun
      refine ⟨m, r.1, m₂, r.2, _, hm, hproc, (hindep m).trans hstep,
        hrun.mono fun _ _ => trivial, by decide⟩

theorem fork_tickets_iff_of_1000 :
    ∃ (m m₁ m₂ : Machine 1) (es : List Event), Reachable m ∧
      Run Steps (fun _ => True) m₁ (es ++ [.forked 0 1 2]) m₂ ∧
        (m.step 0 (.syscall 1 fun _ => some 1000)).isSome = true ∧
        ((m₂.ptable 1).sizeStep = stride 1000 ↔
          ((1000 : ℤ) = 0 ∨ (477 ≤ (1000 : ℤ) ∧ (1000 : ℤ) ≤ 500))) := by
  obtain ⟨m, m₁, m₂, e, es, hm, hproc, hcall, hrun, hfirst⟩ := exists_fork 1000
  exact ⟨m, m₁, m₂, es, hm, hrun, by simp [hcall],
    fork_tickets_iff hm hproc rfl hcall hrun hfirst⟩

/-- `fork(1000)` does not give its child the stride 10. -/
theorem fork_ignores_tickets :
    ¬∀ (m m₁ m₂ : Machine 1) (p q : Slot) (t pid : ℤ) (arg : ℕ → Option ℤ) (e : Event)
      (es : List Event), Reachable m → (m.cpu 0).proc = some p → arg 0 = some t →
      m.step 0 (.syscall 1 arg) = some (m₁, e) →
      Run Steps (fun _ => True) m₁ (es ++ [.forked p q pid]) m₂ →
      (∀ x ∈ es, x.endsFork p = false) → (m₂.ptable q).sizeStep = stride t := by
  intro hclaim
  obtain ⟨m, m₁, m₂, e, es, hm, hproc, hcall, hrun, hfirst⟩ := exists_fork 1000
  have hten := hclaim m m₁ m₂ 0 1 1000 2 _ e es hm hproc rfl hcall hrun hfirst
  rw [run_fork_sizeStep hm hproc hcall hrun hfirst] at hten
  exact absurd hten (by decide)

end Machine

end Xv6
