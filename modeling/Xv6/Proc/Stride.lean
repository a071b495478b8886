import Xv6.Proc.Family
import Mathlib.Tactic.Ring
import Mathlib.Algebra.Order.Group.Abs

/-!
# Stride scheduling

What the search of the scheduler returns, the range of the two stride fields, and
the fairness between two processes that stay runnable on one processor.  The lag
between their passes is bounded because the scheduler only ever advances the
smaller one; this needs that on one processor nothing is `RUNNING` while the
table is searched.
-/

namespace Xv6

open Support

/-- Some process below the limit is chosen, the first one with the smallest pass,
or there is none. -/
theorem minP_cases (t : Ptable) :
    (∃ p, minP t = some p ∧ (t p).state = .runnable ∧ (t p).step < maxStep ∧
        (∀ q, (t q).state = .runnable → (t p).step ≤ (t q).step) ∧
        ∀ q, (t q).state = .runnable → q < p → (t p).step < (t q).step) ∨
      (minP t = none ∧ ∀ q, (t q).state = .runnable → maxStep ≤ (t q).step) := by
  rcases leastBelow_cases (fun p => decide ((t p).state = .runnable))
      (fun p => (t p).step) slots maxStep none with ⟨p, hp, hlt, hmin⟩ | ⟨hnone, hall⟩
  · refine Or.inl ⟨p, hp, by simpa using hmin.1, hlt, ?_, ?_⟩
    · exact fun q hq => hmin.le (mem_slots q) (by simpa using hq)
    · exact fun q hq hlt => hmin.lt_of_before (fun _ _ => lt_asymm) slots_sorted (mem_slots q) (by simpa using hq) hlt
  · exact Or.inr ⟨hnone, fun q hq => hall q (mem_slots q) (by simpa using hq)⟩

theorem stride_bounds (tickets : ℤ) : 10 ≤ stride tickets ∧ stride tickets ≤ 200 := by
  unfold stride
  split
  · decide
  · split
    · decide
    · split
      · decide
      · next hlow hhigh =>
        constructor
        · rw [Int.le_ediv_iff_mul_le (by omega)]
          omega
        · have hle : 10000 / tickets < 201 := by
            rw [Int.ediv_lt_iff_lt_mul (by omega)]
            omega
          omega

/-- The stride fields are in range. -/
structure Proc.Strided (p : Proc) : Prop where
  sizeStep_ge : 10 ≤ p.sizeStep
  sizeStep_le : p.sizeStep ≤ 200
  step_nonneg : 0 ≤ p.step
  step_lt : p.step < maxStep + 200

theorem Proc.Strided.dispatch_step {p : Proc} (h : p.Strided) (hlt : p.step < maxStep) :
    p.dispatch.step = p.step + p.sizeStep := by
  have hmax : maxStep = 5000000 := rfl
  have h₁ := h.sizeStep_ge
  have h₂ := h.sizeStep_le
  have h₃ := h.step_nonneg
  exact int32_of_bounds (by omega) (by omega)

theorem Proc.Strided.dispatch {p : Proc} (h : p.Strided) (hlt : p.step < maxStep) :
    p.dispatch.Strided := by
  have hstep := h.dispatch_step hlt
  have h₁ := h.sizeStep_ge
  have h₂ := h.sizeStep_le
  have h₃ := h.step_nonneg
  exact ⟨h₁, h₂, by omega, by omega⟩

theorem Proc.Strided.congr {p q : Proc} (h : p.Strided) (hstep : q.step = p.step)
    (hsize : q.sizeStep = p.sizeStep) : q.Strided := by
  obtain ⟨h₁, h₂, h₃, h₄⟩ := h
  exact ⟨hsize ▸ h₁, hsize ▸ h₂, hstep ▸ h₃, hstep ▸ h₄⟩

theorem Proc.Strided.fresh {p : Proc} (hstep : p.step = 0) (tickets : ℤ)
    (hsize : p.sizeStep = stride tickets) : p.Strided := by
  obtain ⟨hlow, hhigh⟩ := stride_bounds tickets
  have hmax : maxStep = 5000000 := rfl
  exact ⟨hsize ▸ hlow, hsize ▸ hhigh, by omega, by omega⟩

namespace Machine

variable {n : ℕ} {m m' : Machine n} {c : Fin n} {e : Event}

/-- What a step does to the stride fields of an entry. -/
inductive StrideChange (m : Machine n) (c : Fin n) (q : Slot) (e : Event) (pr : Proc) : Prop
  | keep (he : e ≠ .dispatch q) (hstep : pr.step = (m.ptable q).step)
      (hsize : pr.sizeStep = (m.ptable q).sizeStep)
  | dispatch (he : e = .dispatch q) (hpc : (m.cpu c).pc = .scan)
      (hmin : minP m.ptable = some q) (hpr : pr = (m.ptable q).dispatch)
  | prepare (p : Slot) (f : ForkFrame) (he : e = .tau) (hproc : (m.cpu c).proc = some p)
      (hframe : m.frame p = some f) (hchild : f.child = q) (hphase : f.phase = .stack)
      (hstep : pr.step = 0) (hsize : pr.sizeStep = stride f.tickets)

theorem Change.stride {q : Slot} {pr : Proc} (h : Sound m) (hch : Change m c q e pr) :
    StrideChange m c q e pr := by
  cases hch with
  | keep e he => exact .keep (by rintro rfl; simp [Event.touches] at he) rfl rfl
  | dispatch hpc hmin => exact .dispatch rfl hpc hmin rfl
  | exit hpc hproc =>
      rw [exitTable_self (h.exiting hpc hproc).1]
      exact .keep (by simp) rfl rfl
  | handOver p hpc hproc hne =>
      rw [exitTable_of_ne (h.exiting hpc hproc).1 hne]
      exact .keep (by simp) rfl rfl
  | prepare p f kstack hproc hframe hchild hphase =>
      exact .prepare p f rfl hproc hframe hchild hphase rfl rfl
  | _ => exact .keep (by simp) rfl rfl

/-- The invariant of the stride fields. -/
structure Strides (m : Machine n) : Prop where
  grown : ∀ q, (m.ptable q).state.Grown → (m.ptable q).Strided
  /-- An entry that is being filled has them from `allocproc` on. -/
  filling : ∀ p f, m.frame p = some f → f.phase ≠ .stack →
    (m.ptable f.child).Strided ∧ (m.ptable f.child).step = 0

/-- The stride fields of an entry stay in range unless they are being set up. -/
theorem StrideChange.strided {q : Slot} {pr : Proc} (hch : StrideChange m c q e pr)
    (hq : (m.ptable q).Strided) : pr.Strided := by
  cases hch with
  | keep _ hstep hsize => exact hq.congr hstep hsize
  | dispatch _ _ hmin hpr => exact hpr ▸ hq.dispatch (minP_runnable hmin).2.1
  | prepare p f _ _ _ _ _ hstep hsize => exact .fresh hstep f.tickets hsize

/-- A fork past its first phase was so before the step or has just got there. -/
theorem Move.phase_cases (hmove : Move m c e m') {p : Slot} {f : ForkFrame}
    (hframe' : m'.frame p = some f) (hphase : f.phase ≠ .stack) :
    (∃ g, m.frame p = some g ∧ g.child = f.child ∧ g.phase ≠ .stack) ∨
      ((m'.ptable f.child).step = 0 ∧ ∃ t, (m'.ptable f.child).sizeStep = stride t) := by
  cases hmove with
  | alloc r q tickets _ _ _ =>
      by_cases hp : p = r
      · subst hp
        obtain rfl : (⟨q, tickets, .stack⟩ : ForkFrame) = f := by simpa using hframe'
        exact absurd rfl hphase
      · exact Or.inl ⟨f, by simpa [hp] using hframe', rfl, hphase⟩
  | giveUp r g _ _ _ _ =>
      have hp : p ≠ r := by rintro rfl; simp at hframe'
      exact Or.inl ⟨f, by simpa [hp] using hframe', rfl, hphase⟩
  | forked r g _ _ _ _ =>
      have hp : p ≠ r := by rintro rfl; simp at hframe'
      exact Or.inl ⟨f, by simpa [hp] using hframe', rfl, hphase⟩
  | prepare r g kstack _ _ _ _ =>
      by_cases hp : p = r
      · subst hp
        obtain rfl : { g with phase := .memory } = f := by simpa using hframe'
        exact Or.inr ⟨by simp [Proc.prepare], g.tickets, by simp [Proc.prepare]⟩
      · exact Or.inl ⟨f, by simpa [hp] using hframe', rfl, hphase⟩
  | inherit r g pgdir _ _ hframe hmemory =>
      by_cases hp : p = r
      · subst hp
        obtain rfl : { g with phase := .files } = f := by simpa using hframe'
        exact Or.inl ⟨g, hframe, rfl, by simp [hmemory]⟩
      · exact Or.inl ⟨f, by simpa [hp] using hframe', rfl, hphase⟩
  | _ => exact Or.inl ⟨f, hframe', rfl, hphase⟩

theorem Move.strides (h : Sound m) (hs : Strides m) (hmove : Move m c e m') : Strides m' := by
  have hkeep : ∀ q, (m.ptable q).Strided → (m'.ptable q).Strided :=
    fun q hq => ((hmove.change q).stride h).strided hq
  constructor
  · intro q hq
    rcases (hmove.change q).grown h hq with hgrown | ⟨p, f, hframe, rfl, hphase⟩
    · exact hkeep q (hs.grown q hgrown)
    · exact hkeep _ (hs.filling p f hframe (by simp [hphase])).1
  · intro p f hframe' hphase
    rcases hmove.phase_cases hframe' hphase with ⟨g, hframe, hchild, hg⟩ | ⟨hstep, t, hsize⟩
    · rw [← hchild]
      obtain ⟨hstrided, hzero⟩ := hs.filling p g hframe hg
      refine ⟨hkeep _ hstrided, ?_⟩
      cases (hmove.change g.child).stride h with
      | keep _ hstep _ => rw [hstep, hzero]
      | dispatch _ _ hmin _ =>
          have hembryo := (h.forks.frame p g hframe).2
          simp [(minP_runnable hmin).1] at hembryo
      | prepare _ _ _ _ _ _ _ hstep _ => exact hstep
    · exact ⟨.fresh hstep t hsize, hstep⟩

theorem boot_strides (n : ℕ) (kstack pgdir : Page) : Strides (boot n kstack pgdir) := by
  constructor
  · intro q hq
    by_cases hq0 : q = 0
    · subst hq0
      exact Proc.Strided.fresh rfl 500 rfl
    · simp [boot, userinit, hq0, Proc.zero, ProcState.Grown, ProcState.Alive] at hq
  · intro p f hf
    simp [boot] at hf

/-- What is known of the entries of every reachable state. -/
theorem Reachable.strides (h : Reachable m) : Sound m ∧ Strides m := by
  obtain ⟨kstack, pgdir, es, hrun⟩ := h
  refine hrun.invariant (I := fun x => Sound x ∧ Strides x) ?_
    ⟨boot_sound n kstack pgdir, boot_strides n kstack pgdir⟩
  rintro x e y _ _ ⟨hsound, hstrides⟩ ⟨c, a, hstep⟩
  have hmove := step_move hstep
  exact ⟨hmove.sound hsound, hmove.strides hsound hstrides⟩

/-! ## The range of the passes -/

/-- The passes of all entries are in range, also what a process that is gone left
behind in its entry. -/
def Passes (m : Machine n) : Prop :=
  ∀ q, 0 ≤ (m.ptable q).step ∧ (m.ptable q).step < maxStep + 200

theorem StrideChange.passes {q : Slot} {pr : Proc} (hs : Strides m)
    (hch : StrideChange m c q e pr)
    (hq : 0 ≤ (m.ptable q).step ∧ (m.ptable q).step < maxStep + 200) :
    0 ≤ pr.step ∧ pr.step < maxStep + 200 := by
  cases hch with
  | keep _ hstep _ => rwa [hstep]
  | dispatch _ _ hmin hpr =>
      obtain ⟨hrunnable, hlt, _⟩ := minP_runnable hmin
      have hgrown : (m.ptable q).state.Grown := Or.inl (Or.inr (Or.inl hrunnable))
      have hstrided := (hs.grown q hgrown).dispatch hlt
      rw [hpr]
      exact ⟨hstrided.step_nonneg, hstrided.step_lt⟩
  | prepare _ _ _ _ _ _ _ hstep _ =>
      rw [hstep]
      exact ⟨le_refl 0, by decide⟩

theorem boot_passes (n : ℕ) (kstack pgdir : Page) : Passes (boot n kstack pgdir) := by
  intro q
  have hzero : ((boot n kstack pgdir).ptable q).step = 0 := by
    by_cases hq : q = 0
    · subst hq
      rfl
    · simp [boot, userinit, hq, Proc.zero]
  rw [hzero]
  exact ⟨le_refl 0, by decide⟩

theorem Reachable.passes (h : Reachable m) : Passes m := by
  obtain ⟨kstack, pgdir, es, hrun⟩ := h
  have hI := hrun.invariant (I := fun x => (Sound x ∧ Strides x) ∧ Passes x) ?_
    ⟨⟨boot_sound n kstack pgdir, boot_strides n kstack pgdir⟩, boot_passes n kstack pgdir⟩
  · exact hI.2
  · rintro x e y _ _ ⟨⟨hsound, hstrides⟩, hpasses⟩ ⟨c, a, hstep⟩
    have hmove := step_move hstep
    refine ⟨⟨hmove.sound hsound, hmove.strides hsound hstrides⟩, fun q => ?_⟩
    exact ((hmove.change q).stride hsound).passes hstrides (hpasses q)

/-- A dispatch chooses the first `RUNNABLE` process with the smallest pass, and
writes nothing but its pass and its state. -/
theorem Move.dispatch_spec (hs : Strides m) {p : Slot}
    (hmove : Move m c (.dispatch p) m') :
    ((m.ptable p).state = .runnable ∧ (m.ptable p).step < maxStep ∧
        (∀ q, (m.ptable q).state = .runnable → (m.ptable p).step ≤ (m.ptable q).step) ∧
        ∀ q, (m.ptable q).state = .runnable → q < p →
          (m.ptable p).step < (m.ptable q).step) ∧
      m'.ptable = Function.update m.ptable p
        { m.ptable p with
          step := (m.ptable p).step + (m.ptable p).sizeStep, state := .running } := by
  obtain ⟨_, _, hmin, rfl⟩ := hmove.dispatched
  rcases minP_cases m.ptable with ⟨r, hr, hchosen⟩ | ⟨hnone, _⟩
  · obtain rfl : r = p := Option.some.inj (hr.symm.trans hmin)
    refine ⟨hchosen, ?_⟩
    have hgrown : (m.ptable r).state.Grown := Or.inl (Or.inr (Or.inl hchosen.1))
    have hstep := (hs.grown r hgrown).dispatch_step hchosen.2.1
    rw [← hstep]
    rfl
  · simp [hnone] at hmin

/-- The arithmetic of stride scheduling never overflows: strides and passes stay in
range, whatever tickets `allocproc` is called with and however often entries are
dispatched and reused. -/
theorem stride_in_range (h : Reachable m) :
    (∀ q, (m.ptable q).state ≠ .unused → (m.ptable q).state ≠ .embryo →
        10 ≤ (m.ptable q).sizeStep ∧ (m.ptable q).sizeStep ≤ 200) ∧
      (∀ q, 0 ≤ (m.ptable q).step ∧ (m.ptable q).step ≤ 5000199) ∧
      (∀ c a p m', m.step c a = some (m', .dispatch p) →
        ((m.ptable p).state = .runnable ∧ (m.ptable p).step < 5000000 ∧
          (∀ q, (m.ptable q).state = .runnable → (m.ptable p).step ≤ (m.ptable q).step) ∧
          ∀ q, (m.ptable q).state = .runnable → q < p →
            (m.ptable p).step < (m.ptable q).step) ∧
        (m.ptable p).step + (m.ptable p).sizeStep < 2147483648 ∧
        m'.ptable = Function.update m.ptable p
          { m.ptable p with
            step := (m.ptable p).step + (m.ptable p).sizeStep, state := .running }) ∧
      ∀ c a m', m.step c a = some (m', .idle) →
        ∀ q, (m.ptable q).state = .runnable → 5000000 ≤ (m.ptable q).step := by
  obtain ⟨_, hstrides⟩ := h.strides
  have hmax : maxStep = 5000000 := rfl
  refine ⟨?_, ?_, ?_, ?_⟩
  · intro q hunused hembryo
    have hgrown : (m.ptable q).state.Grown := by
      cases hstate : (m.ptable q).state with
      | unused => exact absurd hstate hunused
      | embryo => exact absurd hstate hembryo
      | sleeping => exact Or.inl (Or.inl rfl)
      | runnable => exact Or.inl (Or.inr (Or.inl rfl))
      | running => exact Or.inl (Or.inr (Or.inr rfl))
      | zombie => exact Or.inr rfl
    have hstrided := hstrides.grown q hgrown
    exact ⟨hstrided.sizeStep_ge, hstrided.sizeStep_le⟩
  · intro q
    obtain ⟨hnonneg, hlt⟩ := h.passes q
    exact ⟨hnonneg, by omega⟩
  · intro c a p m' hstep
    obtain ⟨hchosen, htable⟩ := (step_move hstep).dispatch_spec hstrides
    have hstrided := hstrides.grown p (Or.inl (Or.inr (Or.inl hchosen.1)))
    have hsize := hstrided.sizeStep_le
    have hlt := hchosen.2.1
    exact ⟨hchosen, by omega, htable⟩
  · intro c a m' hstep q hq
    have hmin : minP m.ptable = none := by
      cases step_move hstep with
      | jump _ _ hjump =>
          cases hjump with
          | idle _ _ hmin => exact hmin
    rcases minP_cases m.ptable with ⟨p, hp, _⟩ | ⟨_, hall⟩
    · simp [hmin] at hp
    · exact hall q hq

/-- The first dispatch after `userinit`. -/
theorem stride_in_range_first :
    ∃ m m' : Machine 1, Reachable m ∧ m.step 0 .go = some (m', .dispatch 0) ∧
      (m.ptable 0).step ≤ 5000199 ∧ (m.ptable 0).step + (m.ptable 0).sizeStep < 2147483648 ∧
        m'.ptable = Function.update m.ptable 0
          { m.ptable 0 with
            step := (m.ptable 0).step + (m.ptable 0).sizeStep, state := .running } := by
  obtain ⟨m, hm, hQ⟩ := exists_reachable (n := 1) 0 1 [(cpu0, .go)]
    (fun m => (m.step 0 .go).any fun r => decide (r.2 = Event.dispatch 0)) (by decide +kernel)
  obtain ⟨_, hpass, hdispatch, _⟩ := stride_in_range hm
  cases hstep : m.step 0 .go with
  | none => simp [hstep] at hQ
  | some r =>
      obtain ⟨m', e⟩ := r
      obtain rfl : e = .dispatch 0 := by simpa [hstep] using hQ
      obtain ⟨_, hlt, htable⟩ := hdispatch 0 .go 0 m' hstep
      exact ⟨m, m', hm, hstep, (hpass 0).2, hlt, htable⟩

/-! ## Fairness -/

/-- `p` is `RUNNABLE` or `RUNNING`, with its pass below the limit. -/
def Steady (p : Slot) (m : Machine n) : Prop :=
  ((m.ptable p).state = .runnable ∨ (m.ptable p).state = .running) ∧
    (m.ptable p).step < maxStep

instance (p : Slot) (m : Machine n) : Decidable (Steady p m) :=
  inferInstanceAs (Decidable (_ ∧ _))

theorem Steady.grown {p : Slot} (h : Steady p m) : (m.ptable p).state.Grown := by
  rcases h.1 with hr | hr
  · exact Or.inl (Or.inr (Or.inl hr))
  · exact Or.inl (Or.inr (Or.inr hr))

/-- The pass of a grown process advances by its stride at each dispatch and at no
other step. -/
theorem Move.advance (h : Sound m) (hs : Strides m) (hmove : Move m c e m') {p : Slot}
    (hp : (m.ptable p).state.Grown) :
    (m'.ptable p).step = (m.ptable p).step +
        (if e = .dispatch p then (m.ptable p).sizeStep else 0) ∧
      (m'.ptable p).sizeStep = (m.ptable p).sizeStep := by
  cases (hmove.change p).stride h with
  | keep he hstep hsize => simp [he, hstep, hsize]
  | dispatch he hpc hmin hpr =>
      have hstep := (hs.grown p hp).dispatch_step (minP_runnable hmin).2.1
      rw [hpr, hstep, if_pos he]
      exact ⟨rfl, rfl⟩
  | prepare r f _ _ hframe hchild _ _ _ =>
      have hembryo := (h.forks.frame r f hframe).2
      rw [hchild] at hembryo
      simp [hembryo, ProcState.Grown, ProcState.Alive] at hp

/-- On one processor a steady process is `RUNNABLE` while the table is searched,
so the process that is dispatched has no larger pass. -/
theorem Move.dispatch_le {m m' : Machine 1} {c : Fin 1} {p q : Slot} (h : Sound m)
    (hmove : Move m c (.dispatch p) m') (hq : Steady q m) :
    (m.ptable p).step ≤ (m.ptable q).step := by
  obtain ⟨hpc, hproc, hmin, _⟩ := hmove.dispatched
  have hrunnable : (m.ptable q).state = .runnable := by
    rcases hq.1 with hr | hr
    · exact hr
    · obtain ⟨d, hd⟩ := h.current q hr
      rw [Subsingleton.elim d c, hproc] at hd
      cases hd
  exact (minP_runnable hmin).2.2 q hrunnable

/-- Neither of two processes is more than its own stride ahead of the other. -/
def Close (p q : Slot) (m : Machine n) : Prop :=
  (m.ptable p).step ≤ (m.ptable q).step + (m.ptable p).sizeStep ∧
    (m.ptable q).step ≤ (m.ptable p).step + (m.ptable q).sizeStep

instance (p q : Slot) (m : Machine n) : Decidable (Close p q m) :=
  inferInstanceAs (Decidable (_ ∧ _))

theorem Move.close {m m' : Machine 1} {c : Fin 1} {p q : Slot} (h : Sound m) (hs : Strides m)
    (hmove : Move m c e m') (hp : Steady p m) (hq : Steady q m) (hclose : Close p q m) :
    Close p q m' := by
  obtain ⟨hstepp, hsizep⟩ := hmove.advance h hs hp.grown
  obtain ⟨hstepq, hsizeq⟩ := hmove.advance h hs hq.grown
  have hposp := (hs.grown p hp.grown).sizeStep_ge
  have hposq := (hs.grown q hq.grown).sizeStep_ge
  unfold Close at hclose ⊢
  rw [hstepp, hstepq, hsizep, hsizeq]
  by_cases hep : e = .dispatch p
  · have hle := (hep ▸ hmove).dispatch_le h hq
    by_cases heq : e = .dispatch q
    · rw [if_pos hep, if_pos heq]
      have hpq : p = q := Event.dispatch.inj (hep.symm.trans heq)
      subst hpq
      omega
    · rw [if_pos hep, if_neg heq]
      omega
  · by_cases heq : e = .dispatch q
    · have hle := (heq ▸ hmove).dispatch_le h hp
      rw [if_neg hep, if_pos heq]
      omega
    · rw [if_neg hep, if_neg heq]
      omega

/-- Along a run the pass grows by the stride times the number of dispatches. -/
theorem run_advance {es : List Event} {p : Slot} {P : Machine n → Prop}
    (hP : ∀ x, P x → (x.ptable p).state.Grown) (h : Reachable m)
    (hrun : Run Steps P m es m') :
    (m'.ptable p).step = (m.ptable p).step + es.count (.dispatch p) * (m.ptable p).sizeStep ∧
      (m'.ptable p).sizeStep = (m.ptable p).sizeStep := by
  have hinit := h.strides
  have hJ := hrun.history (J := fun es x => (Sound x ∧ Strides x) ∧
    (x.ptable p).step = (m.ptable p).step + es.count (.dispatch p) * (m.ptable p).sizeStep ∧
      (x.ptable p).sizeStep = (m.ptable p).sizeStep) ?_ ⟨hinit, by simp, rfl⟩
  · exact hJ.2
  · rintro gs x e y hx _ ⟨⟨hsound, hstrides⟩, hstep, hsize⟩ ⟨c, a, hmove⟩
    have hmove := step_move hmove
    obtain ⟨hstep', hsize'⟩ := hmove.advance hsound hstrides (hP x hx)
    refine ⟨⟨hmove.sound hsound, hmove.strides hsound hstrides⟩, ?_, hsize'.trans hsize⟩
    rw [hstep', hstep, hsize, List.count_append, List.count_singleton]
    by_cases he : e = .dispatch p
    · simp [he]
      ring
    · simp [he]

/-- Stride fairness: while `p` and `q` stay `RUNNABLE` or `RUNNING` on one
processor, whatever the other processes do, neither gets more than its own stride
ahead if it was not so at the start, and what they receive, weighted by their
strides, differs by at most twice the larger stride. -/
theorem stride_fairness {m m' : Machine 1} {p q : Slot} {es : List Event} (h : Reachable m)
    (hrun : Run Steps (fun x => Steady p x ∧ Steady q x) m es m') (hclose : Close p q m) :
    Close p q m' ∧
      |(es.count (.dispatch p) : ℤ) * (m.ptable p).sizeStep -
          es.count (.dispatch q) * (m.ptable q).sizeStep| ≤
        2 * max (m.ptable p).sizeStep (m.ptable q).sizeStep := by
  have hclose' : Close p q m' := by
    have hI := hrun.invariant (I := fun x => (Sound x ∧ Strides x) ∧ Close p q x) ?_
      ⟨h.strides, hclose⟩
    · exact hI.2
    · rintro x e y ⟨hp, hq⟩ _ ⟨⟨hsound, hstrides⟩, hx⟩ ⟨c, a, hstep⟩
      have hmove := step_move hstep
      exact ⟨⟨hmove.sound hsound, hmove.strides hsound hstrides⟩,
        hmove.close hsound hstrides hp hq hx⟩
  refine ⟨hclose', ?_⟩
  obtain ⟨hstepp, hsizep⟩ := run_advance (p := p) (fun x hx => hx.1.grown) h hrun
  obtain ⟨hstepq, hsizeq⟩ := run_advance (p := q) (fun x hx => hx.2.grown) h hrun
  unfold Close at hclose hclose'
  rw [hsizep, hsizeq] at hclose'
  rw [abs_le]
  have hmaxp := le_max_left (m.ptable p).sizeStep (m.ptable q).sizeStep
  have hmaxq := le_max_right (m.ptable p).sizeStep (m.ptable q).sizeStep
  constructor <;> omega

/-- One processor dispatches the first process, which forks a child. -/
def forkOnce : List (Fin 1 × Action) :=
  List.replicate 5 (cpu0, .go) ++
    [(cpu0, .syscall 1 fun _ => some 500), (cpu0, .go), (cpu0, .go), (cpu0, .fork (some 2)),
      (cpu0, .fork (some 3)), (cpu0, .fork none)]

/-- The running process yields and the scheduler dispatches the next one. -/
def yieldRound : List (Fin 1 × Action) :=
  (cpu0, .enter .yield) :: List.replicate 9 (cpu0, .go)

theorem stride_fairness_forked :
    ∃ (m m' : Machine 1) (es : List Event), Reachable m ∧
      Run Steps (fun x => Steady 0 x ∧ Steady 1 x) m es m' ∧ es.count (.dispatch 1) = 2 ∧
        Close 0 1 m' ∧
          |(es.count (.dispatch 0) : ℤ) * (m.ptable 0).sizeStep -
              es.count (.dispatch 1) * (m.ptable 1).sizeStep| ≤
            2 * max (m.ptable 0).sizeStep (m.ptable 1).sizeStep := by
  obtain ⟨m, hm, hQ⟩ := exists_reachable 0 1 forkOnce
    (fun m => decide (Close 0 1 m) &&
      (m.exec (fun x => decide (Steady 0 x ∧ Steady 1 x))
        (yieldRound ++ yieldRound ++ yieldRound ++ yieldRound)).any
          fun r => decide (List.count (Event.dispatch 1) r.2 = 2))
    (by decide +kernel)
  rw [Bool.and_eq_true, decide_eq_true_eq] at hQ
  obtain ⟨m', es, hrun, hcount⟩ :=
    exists_run _ m (fun _ es => decide (es.count (.dispatch 1) = 2)) _ hQ.2
  have hrun' : Run Steps (fun x => Steady 0 x ∧ Steady 1 x) m es m' :=
    hrun.mono fun x hx => of_decide_eq_true hx
  exact ⟨m, m', es, hm, hrun', of_decide_eq_true hcount, stride_fairness hm hrun' hQ.1⟩

end Machine

end Xv6
