import Xv6.Proc.Sound

/-!
# Parents, children and `wait`

The invariant that ties the `parent` fields together: every process has a parent
that can still call `wait`, `exit` hands its children over before it becomes a
`ZOMBIE`, and a process that sleeps in `wait` has a child but no `ZOMBIE` child.
The wakeup in `exit` comes before the assignment of `ZOMBIE`; both are in one
section, so no state in between is visible.
-/

namespace Xv6

open Support

/-- A process that can still act. -/
def ProcState.Alive (s : ProcState) : Prop :=
  s = .sleeping ∨ s = .runnable ∨ s = .running

/-- A process whose `fork` has returned. -/
def ProcState.Grown (s : ProcState) : Prop :=
  s.Alive ∨ s = .zombie

namespace Machine

variable {n : ℕ} {m m' : Machine n} {c : Fin n} {e : Event}

/-- The invariant of the `parent` fields. -/
structure Family (m : Machine n) : Prop where
  unused : ∀ q, (m.ptable q).state = .unused → (m.ptable q).parent = none
  /-- The parent of an `EMBRYO` is set together with its memory. -/
  filling : ∀ p f, m.frame p = some f →
    (m.ptable f.child).parent = if f.phase = .files then some p else none
  noself : ∀ q, (m.ptable q).parent ≠ some q
  parent : ∀ q, (m.ptable q).state.Grown → q ≠ m.initproc →
    ∃ r, (m.ptable q).parent = some r ∧ (m.ptable r).state.Alive
  init : (m.ptable m.initproc).state.Alive ∧ (m.ptable m.initproc).parent = none
  waiting : ∀ p, (m.ptable p).state = .sleeping → (m.ptable p).context = .wait →
    (m.ptable p).chan = some (.proc p) ∧ (∃ q, (m.ptable q).parent = some p) ∧
      ∀ q, (m.ptable q).parent = some p → (m.ptable q).state ≠ .zombie

/-! ## Single entries -/

/-- A process stays alive unless it exits. -/
theorem Change.alive {q : Slot} {pr : Proc} (h : Sound m) (hch : Change m c q e pr)
    (halive : (m.ptable q).state.Alive) :
    pr.state.Alive ∨ e = .exited q (m.ptable q).pid := by
  cases hch with
  | keep e he => exact Or.inl halive
  | dispatch _ _ => exact Or.inl (Or.inr (Or.inr rfl))
  | tidyUp _ _ => exact Or.inl halive
  | fault _ _ => exact Or.inl halive
  | wakeup _ => exact Or.inl (Or.inr (Or.inl rfl))
  | kill _ _ _ => exact Or.inl halive
  | killAsleep _ _ _ => exact Or.inl (Or.inr (Or.inl rfl))
  | yield _ _ => exact Or.inl (Or.inr (Or.inl rfl))
  | sleep _ _ _ _ _ _ => exact Or.inl (Or.inl rfl)
  | exit _ _ => exact Or.inr rfl
  | handOver p hpc hproc hne =>
      rcases exitTable_state_cases (h.exiting hpc hproc).1 hne m.ptable with heq | ⟨_, heq⟩
      · exact Or.inl (heq ▸ halive)
      · exact Or.inl (Or.inr (Or.inl heq))
  | reap _ _ _ _ hzombie => simp [ProcState.Alive, hzombie] at halive
  | alloc _ _ hunused => simp [ProcState.Alive, hunused] at halive
  | giveUp p f _ hframe hchild _ =>
      simp [ProcState.Alive, ← hchild, (h.forks.frame p f hframe).2] at halive
  | prepare _ _ _ _ _ _ _ => exact Or.inl halive
  | inherit _ _ _ _ _ _ _ => exact Or.inl halive
  | forked _ _ _ _ _ _ => exact Or.inl (Or.inr (Or.inl rfl))

/-- What a step does to the `parent` field. -/
inductive ParentChange (m : Machine n) (c : Fin n) (q : Slot) (e : Event) (pr : Proc) : Prop
  | keep (hparent : pr.parent = (m.ptable q).parent)
      (hexit : ∀ p pid, e = .exited p pid → (m.ptable q).parent ≠ some p)
  /-- The parent exits. -/
  | handOver (p : Slot) (hpc : (m.cpu c).pc = .inside .exit) (hproc : (m.cpu c).proc = some p)
      (hold : (m.ptable q).parent = some p) (hparent : pr.parent = some m.initproc)
  /-- The parent waits for it. -/
  | reap (p : Slot) (hpc : (m.cpu c).pc = .inside .wait) (hproc : (m.cpu c).proc = some p)
      (hold : (m.ptable q).parent = some p) (hstate : pr.state = .unused)
      (hparent : pr.parent = none)
  /-- It is being forked. -/
  | inherit (p : Slot) (f : ForkFrame) (hproc : (m.cpu c).proc = some p)
      (hframe : m.frame p = some f) (hchild : f.child = q) (hparent : pr.parent = some p)
      (hphase : f.phase = .memory) (hstate : pr.state = .embryo)

theorem Change.parent {q : Slot} {pr : Proc} (h : Sound m) (hch : Change m c q e pr) :
    ParentChange m c q e pr := by
  cases hch with
  | keep e he =>
      refine .keep rfl ?_
      rintro p pid rfl
      simp [Event.touches] at he
  | exit hpc hproc =>
      rw [exitTable_self (h.exiting hpc hproc).1]
      by_cases hself : (m.ptable q).parent = some q
      · exact .handOver q hpc hproc hself (by simp [hself])
      · refine .keep (by simp [hself]) ?_
        intro p pid hp
        obtain ⟨rfl, _⟩ := Event.exited.inj hp
        exact hself
  | handOver p hpc hproc hne =>
      rw [exitTable_of_ne (h.exiting hpc hproc).1 hne]
      by_cases hchild : (m.ptable q).parent = some p
      · exact .handOver p hpc hproc hchild (by simp [hchild])
      · refine .keep (by simp [hchild]) ?_
        intro r pid hr
        obtain ⟨rfl, _⟩ := Event.exited.inj hr
        exact hchild
  | reap p hpc hproc hparent hzombie => exact .reap p hpc hproc hparent rfl rfl
  | inherit p f _ hproc hframe hchild hphase =>
      refine .inherit p f hproc hframe hchild rfl hphase ?_
      exact hchild ▸ (h.forks.frame p f hframe).2
  | _ => exact .keep rfl (by simp)

/-- A process becomes a `ZOMBIE` only in its own `exit`. -/
theorem Change.zombie {q : Slot} {pr : Proc} (h : Sound m) (hch : Change m c q e pr)
    (hzombie : pr.state = .zombie) :
    (m.ptable q).state = .zombie ∨
      ((m.cpu c).pc = .inside .exit ∧ (m.cpu c).proc = some q ∧
        e = .exited q (m.ptable q).pid) := by
  cases hch with
  | keep e he => exact Or.inl hzombie
  | exit hpc hproc => exact Or.inr ⟨hpc, hproc, rfl⟩
  | handOver p hpc hproc hne =>
      rcases exitTable_state_cases (h.exiting hpc hproc).1 hne m.ptable with heq | ⟨_, heq⟩
      · exact Or.inl (heq ▸ hzombie)
      · simp [heq] at hzombie
  | tidyUp _ _ => exact Or.inl hzombie
  | fault _ _ => exact Or.inl hzombie
  | kill _ _ _ => exact Or.inl hzombie
  | prepare _ _ _ _ _ _ _ => exact Or.inl hzombie
  | inherit _ _ _ _ _ _ _ => exact Or.inl hzombie
  | _ => simp_all [Proc.dispatch, Proc.ready, Proc.park, Proc.reap, Proc.claim]

/-- A slot leaves `ZOMBIE` only through a `wait` of its parent. -/
theorem Change.zombie_left {q : Slot} {pr : Proc} (h : Sound m) (hch : Change m c q e pr)
    (hzombie : (m.ptable q).state = .zombie) :
    pr.state = .zombie ∨
      ∃ p, e = .reaped p q (m.ptable q).pid ∧ (m.ptable q).parent = some p := by
  cases hch with
  | reap p _ _ hparent _ => exact Or.inr ⟨p, rfl, hparent⟩
  | yield hpc hproc => simp [h.frame_running hpc hproc] at hzombie
  | sleep _ _ _ hpc hproc _ => simp [h.frame_running hpc hproc] at hzombie
  | exit hpc hproc => simp [h.frame_running hpc hproc] at hzombie
  | handOver p hpc hproc hne =>
      rcases exitTable_state_cases (h.exiting hpc hproc).1 hne m.ptable with heq | ⟨hsleep, _⟩
      · exact Or.inl (heq.trans hzombie)
      · simp [hzombie] at hsleep
  | dispatch _ hmin => simp [(minP_runnable hmin).1] at hzombie
  | giveUp p f _ hframe hchild _ => simp [← hchild, (h.forks.frame p f hframe).2] at hzombie
  | forked p f _ hframe hchild _ => simp [← hchild, (h.forks.frame p f hframe).2] at hzombie
  | wakeup hsleep => simp [hzombie] at hsleep
  | killAsleep _ _ hsleep => simp [hzombie] at hsleep
  | alloc _ _ hunused => simp [hzombie] at hunused
  | _ => exact Or.inl hzombie

/-- A process is grown because it was so before or because its `fork` returns. -/
theorem Change.grown {q : Slot} {pr : Proc} (h : Sound m) (hch : Change m c q e pr)
    (hgrown : pr.state.Grown) :
    (m.ptable q).state.Grown ∨
      ∃ p f, m.frame p = some f ∧ f.child = q ∧ f.phase = .files := by
  cases hch with
  | forked p f hproc hframe hchild hphase => exact Or.inr ⟨p, f, hframe, hchild, hphase⟩
  | handOver p hpc hproc hne =>
      rcases exitTable_state_cases (h.exiting hpc hproc).1 hne m.ptable with heq | ⟨hsleep, _⟩
      · exact Or.inl (heq ▸ hgrown)
      · exact Or.inl (Or.inl (Or.inl hsleep))
  | dispatch _ hmin => exact Or.inl (Or.inl (Or.inr (Or.inl (minP_runnable hmin).1)))
  | wakeup hsleep => exact Or.inl (Or.inl (Or.inl hsleep))
  | killAsleep _ _ hsleep => exact Or.inl (Or.inl (Or.inl hsleep))
  | yield hpc hproc => exact Or.inl (Or.inl (Or.inr (Or.inr (h.frame_running hpc hproc))))
  | sleep _ _ _ hpc hproc _ =>
      exact Or.inl (Or.inl (Or.inr (Or.inr (h.frame_running hpc hproc))))
  | exit hpc hproc => exact Or.inl (Or.inl (Or.inr (Or.inr (h.frame_running hpc hproc))))
  | reap _ _ _ _ _ => simp [ProcState.Grown, ProcState.Alive, Proc.reap] at hgrown
  | alloc _ _ _ => simp [ProcState.Grown, ProcState.Alive, Proc.claim] at hgrown
  | giveUp _ _ _ _ _ _ => simp [ProcState.Grown, ProcState.Alive] at hgrown
  | _ => exact Or.inl hgrown

/-! ## Preservation -/

theorem Move.family_unused (h : Sound m) (hf : Family m) (hmove : Move m c e m') (q : Slot)
    (hq : (m'.ptable q).state = .unused) : (m'.ptable q).parent = none := by
  have hch := hmove.change q
  generalize m'.ptable q = pr at hch hq
  cases hch with
  | keep e he => exact hf.unused q hq
  | tidyUp _ _ => exact hf.unused q hq
  | fault _ _ => exact hf.unused q hq
  | kill _ _ _ => exact hf.unused q hq
  | prepare _ _ _ _ _ _ _ => exact hf.unused q hq
  | handOver p hpc hproc hne =>
      have hinit := (h.exiting hpc hproc).1
      rcases exitTable_state_cases hinit hne m.ptable with heq | ⟨_, heq⟩
      · have hnone := hf.unused q (heq ▸ hq)
        rw [exitTable_of_ne hinit hne]
        simp [hnone]
      · simp [heq] at hq
  | exit hpc hproc => simp [exitTable_self (h.exiting hpc hproc).1] at hq
  | reap _ _ _ _ _ => rfl
  | giveUp p f _ hframe hchild hphase =>
      have hnone := hf.filling p f hframe
      rw [hchild, if_neg hphase] at hnone
      exact hnone
  | inherit p f _ _ hframe hchild _ =>
      have hembryo := (h.forks.frame p f hframe).2
      have hq' : (m.ptable q).state = .unused := hq
      simp [hchild, hq'] at hembryo
  | _ => simp_all [Proc.dispatch, Proc.ready, Proc.park, Proc.claim]

theorem Move.family_noself (h : Sound m) (hf : Family m) (hmove : Move m c e m') (q : Slot) :
    (m'.ptable q).parent ≠ some q := by
  cases (hmove.change q).parent h with
  | keep hparent _ => exact hparent ▸ hf.noself q
  | handOver p hpc hproc hold hparent =>
      rw [hparent]
      intro heq
      obtain rfl : m.initproc = q := Option.some.inj heq
      simp [hf.init.2] at hold
  | reap p hpc hproc hold hstate hparent => simp [hparent]
  | inherit p f hproc hframe hchild hparent _ _ =>
      rw [hparent]
      intro heq
      obtain rfl : p = q := Option.some.inj heq
      have hstate := (h.forks.frame p f hframe).1
      have hembryo := (h.forks.frame p f hframe).2
      rw [hchild] at hembryo
      simp [hembryo] at hstate

theorem Move.family_init (h : Sound m) (hf : Family m) (hmove : Move m c e m') :
    (m'.ptable m'.initproc).state.Alive ∧ (m'.ptable m'.initproc).parent = none := by
  rw [hmove.initproc_eq]
  constructor
  · rcases (hmove.change m.initproc).alive h hf.init.1 with halive | hexit
    · exact halive
    · subst hexit
      cases hmove with
      | jump pc _ hjump => cases hjump
      | exit p hpc hproc => exact absurd rfl (h.exiting hpc hproc).1
  · cases (hmove.change m.initproc).parent h with
    | keep hparent _ => rw [hparent, hf.init.2]
    | handOver p hpc hproc hold _ => simp [hf.init.2] at hold
    | reap p hpc hproc hold _ _ => simp [hf.init.2] at hold
    | inherit p f hproc hframe hchild _ _ _ =>
        have hembryo := (h.forks.frame p f hframe).2
        have halive := hf.init.1
        rw [hchild] at hembryo
        simp [ProcState.Alive, hembryo] at halive

theorem Move.family_parent (h : Sound m) (hf : Family m) (hmove : Move m c e m') (q : Slot)
    (hq : (m'.ptable q).state.Grown) (hinit : q ≠ m'.initproc) :
    ∃ r, (m'.ptable q).parent = some r ∧ (m'.ptable r).state.Alive := by
  have hinit' := hmove.family_init h hf
  rw [hmove.initproc_eq] at hinit hinit'
  -- the old parent, if there was one, is still there unless it exits
  have hkeep : ∀ r, (m.ptable r).state.Alive → (m'.ptable q).parent = some r →
      (∀ p pid, e = .exited p pid → (m.ptable q).parent ≠ some p) →
      (m'.ptable q).parent = (m.ptable q).parent →
      ∃ r, (m'.ptable q).parent = some r ∧ (m'.ptable r).state.Alive := by
    intro r halive hparent hexit hsame
    rcases (hmove.change r).alive h halive with halive' | hr
    · exact ⟨r, hparent, halive'⟩
    · exact absurd (hsame.symm.trans hparent) (hexit r _ hr)
  have hch := (hmove.change q).parent h
  cases hch with
  | keep hparent hexit =>
      by_cases hgrown : (m.ptable q).state.Grown
      · obtain ⟨r, hr, halive⟩ := hf.parent q hgrown hinit
        exact hkeep r halive (hparent.trans hr) hexit hparent
      · -- a fork that ends here has set the parent before
        obtain ⟨p, f, hframe, hchild, hphase⟩ := ((hmove.change q).grown h hq).resolve_left hgrown
        have hp := hf.filling p f hframe
        rw [hchild, if_pos hphase] at hp
        have halive : (m.ptable p).state.Alive := by
          rcases (h.forks.frame p f hframe).1 with hr | hr
          · exact Or.inr (Or.inl hr)
          · exact Or.inr (Or.inr hr)
        exact hkeep p halive (hparent.trans hp) hexit hparent
  | handOver p hpc hproc hold hparent => exact ⟨m.initproc, hparent, hinit'.1⟩
  | reap p hpc hproc hold hstate hparent =>
      simp [hstate, ProcState.Grown, ProcState.Alive] at hq
  | inherit p f hproc hframe hchild hparent _ hstate =>
      simp [hstate, ProcState.Grown, ProcState.Alive] at hq

theorem update_parent {t : Ptable} {p : Slot} {pr : Proc} (h : pr.parent = (t p).parent)
    (q : Slot) : (Function.update t p pr q).parent = (t q).parent := by
  by_cases hq : q = p
  · subst hq
    simpa using h
  · simp [hq]

theorem wakeup1_parent (chan : Option Chan) (t : Ptable) (q : Slot) :
    (wakeup1 chan t q).parent = (t q).parent := by
  rcases wakeup1_cases chan t q with h | ⟨_, h⟩ <;> rw [h]
  rfl

theorem kill_parent (pid : ℤ) (t : Ptable) (q : Slot) :
    ((Xv6.kill pid t).2 q).parent = (t q).parent := by
  rcases kill_cases pid t with ⟨p, _, _, h⟩ | ⟨_, h⟩
  · rw [h]
    refine update_parent ?_ q
    split <;> rfl
  · rw [h]

theorem Move.family_filling (h : Sound m) (hf : Family m) (hmove : Move m c e m') (p : Slot)
    (f : ForkFrame) (hframe' : m'.frame p = some f) :
    (m'.ptable f.child).parent = if f.phase = .files then some p else none := by
  have hembryo' := ((hmove.sound h).forks.frame p f hframe').2
  -- for a step that neither concerns this fork nor the parent of its child
  have hsame : m.frame p = some f → (m'.ptable f.child).parent = (m.ptable f.child).parent →
      (m'.ptable f.child).parent = if f.phase = .files then some p else none :=
    fun hframe hparent => hparent.trans (hf.filling p f hframe)
  cases hmove with
  | jump pc e hjump => exact hf.filling p f hframe'
  | lock _ _ _ => exact hf.filling p f hframe'
  | enter _ _ _ => exact hf.filling p f hframe'
  | leave _ => exact hf.filling p f hframe'
  | unlock _ _ => exact hf.filling p f hframe'
  | clear _ _ _ => exact hf.filling p f hframe'
  | wakeup chan _ => exact hsame hframe' (wakeup1_parent chan _ _)
  | kill r pid _ _ => exact hsame hframe' (kill_parent pid _ _)
  | exit r hpc hproc =>
      have hinit := (h.exiting hpc hproc).1
      have hframe : m.frame p = some f := hframe'
      have hrun := h.frame_running hpc hproc
      have hne : f.child ≠ r := by
        intro hr
        have hembryo := (h.forks.frame p f hframe).2
        simp [hr, hrun] at hembryo
      refine hsame hframe ?_
      simp only [goto_ptable, setTable_ptable, exitTable_of_ne hinit hne]
      split
      · next hparent =>
        -- the process that exits would be the one that forks
        rw [hf.filling p f hframe] at hparent
        split at hparent
        · obtain rfl := Option.some.inj hparent
          simp [(h.exiting hpc hproc).2] at hframe
        · cases hparent
      · rfl
  | reap r q hpc hproc hparent hzombie =>
      refine hsame hframe' ?_
      have hne : f.child ≠ q := by
        rintro rfl
        have hembryo := (h.forks.frame p f hframe').2
        simp [hzombie] at hembryo
      simp [hne]
  | alloc r q tickets hpc hproc hunused =>
      by_cases hp : p = r
      · subst hp
        obtain rfl : (⟨q, tickets, .stack⟩ : ForkFrame) = f := by simpa using hframe'
        simpa [Proc.claim] using hf.unused q hunused
      · have hframe : m.frame p = some f := by simpa [hp] using hframe'
        refine hsame hframe (update_parent ?_ _)
        rfl
  | giveUp r g hpc hproc hframe hphase =>
      have hp : p ≠ r := by rintro rfl; simp at hframe'
      refine hsame (by simpa [hp] using hframe') (update_parent ?_ _)
      rfl
  | forked r g hpc hproc hframe hphase =>
      have hp : p ≠ r := by rintro rfl; simp at hframe'
      refine hsame (by simpa [hp] using hframe') (update_parent ?_ _)
      rfl
  | prepare r g kstack hpc hproc hframe hphase =>
      by_cases hp : p = r
      · subst hp
        obtain rfl : { g with phase := .memory } = f := by simpa using hframe'
        have hnone := hf.filling p g hframe
        rw [if_neg (by simp [hphase])] at hnone
        simpa [Proc.prepare] using hnone
      · refine hsame (by simpa [hp] using hframe') (update_parent ?_ _)
        rfl
  | inherit r g pgdir hpc hproc hframe hphase =>
      by_cases hp : p = r
      · subst hp
        obtain rfl : { g with phase := .files } = f := by simpa using hframe'
        simp [Proc.inherit]
      · have hframe₁ : m.frame p = some f := by simpa [hp] using hframe'
        have hne : f.child ≠ g.child := fun hfg => hp (h.forks.child p r f g hframe₁ hframe hfg)
        exact hsame hframe₁ (by simp [hne])
  | _ =>
      refine hsame hframe' (update_parent ?_ _)
      rfl

/-- A process that sleeps in `wait` after a step either slept there before, or
has just found a child but no `ZOMBIE` child. -/
theorem Move.waiting_cases (h : Sound m) (hmove : Move m c e m') (p : Slot)
    (hsleep : (m'.ptable p).state = .sleeping) (hwait : (m'.ptable p).context = .wait) :
    ((m.ptable p).state = .sleeping ∧ (m.ptable p).context = .wait ∧
        (m'.ptable p).chan = (m.ptable p).chan) ∨
      ((∃ q, (m.ptable q).parent = some p) ∧
        (∀ q, (m.ptable q).parent = some p → (m.ptable q).state ≠ .zombie) ∧
        m' = m.sleepOn c p (.proc p) .wait) := by
  have hch := hmove.change p
  generalize hpr : m'.ptable p = pr at hch hsleep hwait ⊢
  cases hch with
  | keep e he => exact Or.inl ⟨hsleep, hwait, rfl⟩
  | fault _ _ => exact Or.inl ⟨hsleep, hwait, rfl⟩
  | tidyUp hpc hproc =>
      have hrun := h.running hproc (by simp [hpc]) (by simp [hpc])
      simp [Proc.tidyUp, hrun] at hsleep
  | kill _ _ hawake => exact absurd hsleep hawake
  | sleep k chan context hpc hproc hk =>
      rcases hk with ⟨rfl, rfl, rfl⟩ | ⟨addr, rfl, rfl, rfl⟩
      · cases hmove with
        | wait r q _ hproc' hkid hnone =>
            obtain rfl : p = r := Option.some.inj (hproc.symm.trans hproc')
            exact Or.inr ⟨⟨q, hkid⟩, hnone, rfl⟩
        | jump pc _ hjump => cases hjump <;> simp_all
        | enter k' _ hfrom => rcases hfrom with ⟨_, hpc', _⟩ | ⟨hpc', _⟩ <;> simp [hpc] at hpc'
        | _ => simp_all
      · simp [Proc.park] at hwait
  | exit hpc hproc => simp [exitTable_self (h.exiting hpc hproc).1] at hsleep
  | handOver r hpc hproc hne =>
      have hinit := (h.exiting hpc hproc).1
      rcases exitTable_state_cases hinit hne m.ptable with heq | ⟨_, heq⟩
      · rw [heq] at hsleep
        rw [exitTable_of_ne hinit hne] at hwait ⊢
        exact Or.inl ⟨hsleep, hwait, rfl⟩
      · simp [heq] at hsleep
  | prepare r f _ _ hframe hchild _ =>
      have hembryo := (h.forks.frame r f hframe).2
      have hsleep' : (m.ptable p).state = .sleeping := hsleep
      simp [hchild, hsleep'] at hembryo
  | inherit r f _ _ hframe hchild _ =>
      have hembryo := (h.forks.frame r f hframe).2
      have hsleep' : (m.ptable p).state = .sleeping := hsleep
      simp [hchild, hsleep'] at hembryo
  | _ => simp_all [Proc.dispatch, Proc.ready, Proc.park, Proc.reap, Proc.claim]

theorem Move.exit_ptable (hmove : Move m c e m') {r : Slot}
    (hpc : (m.cpu c).pc = .inside .exit) (hproc : (m.cpu c).proc = some r) :
    m'.ptable = exitTable m.initproc r m.ptable := by
  cases hmove with
  | exit p _ hproc' =>
      obtain rfl : r = p := Option.some.inj (hproc.symm.trans hproc')
      rfl
  | jump pc _ hjump => cases hjump <;> simp_all
  | enter k _ hfrom => rcases hfrom with ⟨_, hpc', _⟩ | ⟨hpc', _⟩ <;> simp [hpc] at hpc'
  | awake _ _ hpc' _ _ => simp [hpc] at hpc'
  | _ => simp_all

/-- A process that sleeps in `wait` does not acquire a `ZOMBIE` child: whoever
makes one for it wakes it up in the same section. -/
theorem Move.no_zombie_child (h : Sound m) (hf : Family m) (hmove : Move m c e m')
    {p q : Slot} (hsleep : (m.ptable p).state = .sleeping)
    (hwait : (m.ptable p).context = .wait) (hsleep' : (m'.ptable p).state = .sleeping)
    (hparent' : (m'.ptable q).parent = some p) : (m'.ptable q).state ≠ .zombie := by
  intro hzombie'
  obtain ⟨hchan, _, hnone⟩ := hf.waiting p hsleep hwait
  -- the running process is not the sleeping one
  have hrunning : ∀ r k, (m.cpu c).pc = .inside k → (m.cpu c).proc = some r → p ≠ r := by
    rintro r k hpc hproc rfl
    simp [h.frame_running hpc hproc] at hsleep
  -- a step of `exit` that wakes `p` up leaves it `RUNNABLE`
  have hwoken : ∀ r, (m.cpu c).pc = .inside .exit → (m.cpu c).proc = some r →
      ((m.ptable p).chan = (m.ptable r).parent.map .proc ∨
        (m.ptable p).chan = some (.proc m.initproc) ∧
          ∃ z, (m.ptable z).parent = some r ∧ (m.ptable z).state = .zombie) → False := by
    intro r hpc hproc hwake
    have htable := hmove.exit_ptable hpc hproc
    rw [htable, exitTable_of_ne (h.exiting hpc hproc).1 (hrunning r _ hpc hproc)] at hsleep'
    simp only [hsleep, true_and, if_pos hwake] at hsleep'
    cases hsleep'
  rcases (hmove.change q).zombie h hzombie' with hzombie | ⟨hpc, hproc, _⟩
  · cases (hmove.change q).parent h with
    | keep hparent _ => exact hnone q (hparent ▸ hparent') hzombie
    | handOver r hpc hproc hold hparent =>
        obtain rfl : m.initproc = p := Option.some.inj (hparent.symm.trans hparent')
        exact hwoken r hpc hproc (Or.inr ⟨hchan, q, hold, hzombie⟩)
    | reap r _ _ _ _ hparent => simp [hparent] at hparent'
    | inherit r f _ _ _ _ _ hstate => simp [hstate] at hzombie'
  · have hparent : (m.ptable q).parent = some p := by
      rw [hmove.exit_ptable hpc hproc, exitTable_self (h.exiting hpc hproc).1] at hparent'
      simpa [hf.noself q] using hparent'
    exact hwoken q hpc hproc (Or.inl (by simp [hchan, hparent]))

theorem Move.family_waiting (h : Sound m) (hf : Family m) (hmove : Move m c e m') (p : Slot)
    (hsleep' : (m'.ptable p).state = .sleeping) (hwait' : (m'.ptable p).context = .wait) :
    (m'.ptable p).chan = some (.proc p) ∧ (∃ q, (m'.ptable q).parent = some p) ∧
      ∀ q, (m'.ptable q).parent = some p → (m'.ptable q).state ≠ .zombie := by
  rcases hmove.waiting_cases h p hsleep' hwait' with ⟨hsleep, hwait, hchan⟩ | ⟨⟨q, hq⟩, hnone, rfl⟩
  · obtain ⟨hchan₀, ⟨q, hq⟩, _⟩ := hf.waiting p hsleep hwait
    refine ⟨hchan.trans hchan₀, ⟨q, ?_⟩, fun r => hmove.no_zombie_child h hf hsleep hwait hsleep'⟩
    have hrunning : ∀ r k, (m.cpu c).pc = .inside k → (m.cpu c).proc = some r →
        (m.ptable q).parent = some r → False := by
      intro r k hpc hproc hr
      obtain rfl : p = r := Option.some.inj (hq.symm.trans hr)
      simp [h.frame_running hpc hproc] at hsleep
    cases (hmove.change q).parent h with
    | keep hparent _ => rw [hparent, hq]
    | handOver r hpc hproc hold _ => exact (hrunning r _ hpc hproc hold).elim
    | reap r hpc hproc hold _ _ => exact (hrunning r _ hpc hproc hold).elim
    | inherit r f _ hframe hchild _ hphase _ =>
        have hfill := hf.filling r f hframe
        simp [hchild, hq, hphase] at hfill
  · have hparent : ∀ r, ((m.sleepOn c p (.proc p) .wait).ptable r).parent =
        (m.ptable r).parent := fun r => update_parent (by rfl) r
    refine ⟨by simp [sleepOn, Proc.park], ⟨q, (hparent q).trans hq⟩, ?_⟩
    intro r hr
    rw [hparent r] at hr
    have hne : r ≠ p := by rintro rfl; exact hf.noself r hr
    simpa [sleepOn, hne] using hnone r hr

/-- Every step keeps the invariant of the `parent` fields. -/
theorem Move.family (h : Sound m) (hf : Family m) (hmove : Move m c e m') : Family m' where
  unused := hmove.family_unused h hf
  filling := hmove.family_filling h hf
  noself := hmove.family_noself h hf
  parent := hmove.family_parent h hf
  init := hmove.family_init h hf
  waiting := hmove.family_waiting h hf

theorem boot_family (n : ℕ) (kstack pgdir : Page) : Family (boot n kstack pgdir) := by
  have hparent : ∀ p, ((boot n kstack pgdir).ptable p).parent = none := by
    intro p
    by_cases hp : p = 0
    · subst hp
      rfl
    · simp [boot, userinit, hp, Proc.zero]
  have hstate : ∀ p, p ≠ 0 → ((boot n kstack pgdir).ptable p).state = .unused := by
    intro p hp
    simp [boot, userinit, hp, Proc.zero]
  have hinit : ((boot n kstack pgdir).ptable 0).state = .runnable := rfl
  constructor
  · exact fun q _ => hparent q
  · intro p f hf
    simp [boot] at hf
  · intro q
    simp [hparent]
  · intro q hq hne
    simp [hstate q hne, ProcState.Grown, ProcState.Alive] at hq
  · exact ⟨Or.inr (Or.inl hinit), hparent _⟩
  · intro p hp
    by_cases hp0 : p = 0
    · subst hp0
      simp [hinit] at hp
    · simp [hstate p hp0] at hp

end Machine

end Xv6
