import Xv6.Proc.Stride
import Mathlib.Tactic.Positivity

/-!
# Who is not dispatched

The two ways in which a `RUNNABLE` process may go without the processor: its pass
has reached the limit from which the search starts, after which it is never
chosen again, or other processes have smaller passes, for as long as it takes
them to catch up.  A pass starts at zero in `fork` and stands still during a
sleep, so the second kind of waiting is bounded by the distance to the smaller
pass, not by a constant.

The examples behind these statements are long runs of one processor; they are
put together from rounds in which a process is dispatched and yields.
-/

namespace Xv6

open Support

theorem minP_eq {t : Ptable} {p : Slot} (hp : (t p).state = .runnable)
    (hlt : (t p).step < maxStep)
    (hother : ∀ q, q ≠ p → (t q).state = .runnable → (t p).step < (t q).step) :
    minP t = some p := by
  rcases minP_cases t with ⟨r, hr, hrun, _, hle, _⟩ | ⟨_, hall⟩
  · by_cases hrp : r = p
    · rw [hr, hrp]
    · exact absurd (hle p hp) (not_le.mpr (hother r hrp hrun))
  · exact absurd (hall p hp) (not_le.mpr hlt)

namespace Machine

variable {n : ℕ} {m m' : Machine n} {c : Fin n} {e : Event} {es : List Event}

/-! ## The steps of a round -/

section Steps

variable {p : Slot}

theorem step_lock (hpc : (m.cpu c).pc = .loop) (hproc : (m.cpu c).proc = none)
    (hlock : m.lock = none) : m.step c .go = some (m.acquire c .scan, .tau) := by
  simp [step, go, hpc, hproc, hlock]

theorem step_scan (hpc : (m.cpu c).pc = .scan) (hproc : (m.cpu c).proc = none) :
    m.step c .go = some (m.schedule c) := by
  simp [step, go, hpc, hproc]

theorem step_switchIn (hpc : (m.cpu c).pc = .switchIn) (hproc : (m.cpu c).proc = some p) :
    m.step c .go = some (m.goto c .resume, .tau) := by
  simp [step, go, hpc, hproc]

theorem step_resume (hpc : (m.cpu c).pc = .resume) (hproc : (m.cpu c).proc = some p)
    (hcontext : (m.ptable p).context = .forkret ∨ (m.ptable p).context = .yield) :
    m.step c .go = some (m.goto c .leave, .tau) := by
  rcases hcontext with h | h <;> simp [step, go, hpc, hproc, h, continueFrom]

theorem step_awake (hpc : (m.cpu c).pc = .resume) (hproc : (m.cpu c).proc = some p)
    (hcontext : (m.ptable p).context = .sleep) :
    m.step c .go = some ((m.write p (m.ptable p).tidyUp).goto c .leave, .tau) := by
  simp [step, go, hpc, hproc, hcontext, continueFrom]

theorem step_leave (hpc : (m.cpu c).pc = .leave) :
    m.step c .go =
      some (m.release c (if (m.cpu c).proc.isNone then .loop else .running), .tau) := by
  simp [step, go, hpc]

theorem step_enter_yield (hpc : (m.cpu c).pc = .running) (hproc : (m.cpu c).proc = some p)
    (hlock : m.lock = none) :
    m.step c (.enter .yield) = some (m.acquire c (.inside .yield), .tau) := by
  simp [step, enter, hpc, hproc, hlock, canEnter]

theorem step_yield (hpc : (m.cpu c).pc = .inside .yield) (hproc : (m.cpu c).proc = some p) :
    m.step c .go =
      some ((m.write p ((m.ptable p).park .runnable .yield)).goto c .parked, .tau) := by
  simp [step, go, hpc, hproc, body]

theorem step_switchOut (hpc : (m.cpu c).pc = .parked) (hproc : (m.cpu c).proc = some p) :
    m.step c .go = some (m.goto c .back, .tau) := by
  simp [step, go, hpc, hproc]

theorem step_clear (hpc : (m.cpu c).pc = .back) (hproc : (m.cpu c).proc = some p) :
    m.step c .go = some ((m.setProc c none).goto c .finish, .tau) := by
  simp [step, go, hpc, hproc]

theorem step_unlock (hpc : (m.cpu c).pc = .finish) (hproc : (m.cpu c).proc = none) :
    m.step c .go = some (m.release c .loop, .tau) := by
  simp [step, go, hpc, hproc]

theorem step_enter_wakeup {chan : Option Chan} (hpc : (m.cpu c).pc = .loop)
    (hproc : (m.cpu c).proc = none) (hlock : m.lock = none) :
    m.step c (.enter (.wakeup chan)) = some (m.acquire c (.inside (.wakeup chan)), .tau) := by
  simp [step, enter, hpc, hproc, hlock]

theorem step_wakeup {chan : Option Chan} (hpc : (m.cpu c).pc = .inside (.wakeup chan)) :
    m.step c .go = some ((m.setTable (wakeup1 chan m.ptable)).goto c .leave, .tau) := by
  simp [step, go, hpc, body]

end Steps

/-- A single processor at the top of the scheduler's loop. -/
def AtLoop (m : Machine 1) : Prop :=
  m.lock = none ∧ m.cpu cpu0 = ⟨none, .loop⟩

/-- What a round of `p` leaves behind: its entry with a larger pass, everything
else as it was. -/
structure Served (m : Machine 1) (p : Slot) (m' : Machine 1) : Prop where
  loop : AtLoop m'
  state : (m'.ptable p).state = .runnable
  context : (m'.ptable p).context = .yield
  step : (m'.ptable p).step = int32 ((m.ptable p).step + (m.ptable p).sizeStep)
  sizeStep : (m'.ptable p).sizeStep = (m.ptable p).sizeStep
  other : ∀ q, q ≠ p → m'.ptable q = m.ptable q

/-- The second half of a round: the process is dispatched, yields and the
scheduler is back at the top of its loop. -/
theorem yield_round {m : Machine 1} {p : Slot} {P : Machine 1 → Prop}
    (hpc : m.cpu cpu0 = ⟨some p, .leave⟩)
    (hP : ∀ x : Machine 1, (∀ q, q ≠ p → x.ptable q = m.ptable q) → P x) :
    ∃ m', Run Steps P m (List.replicate 6 .tau) m' ∧ AtLoop m' ∧
      m'.ptable = Function.update m.ptable p ((m.ptable p).park .runnable .yield) := by
  have hsame : ∀ q, q ≠ p → Function.update m.ptable p ((m.ptable p).park .runnable .yield) q =
      m.ptable q := fun q hq => Function.update_of_ne hq _ _
  let m₁ := m.release cpu0 .running
  let m₂ := m₁.acquire cpu0 (.inside .yield)
  let m₃ := (m₂.write p ((m.ptable p).park .runnable .yield)).goto cpu0 .parked
  let m₄ := m₃.goto cpu0 .back
  let m₅ := (m₄.setProc cpu0 none).goto cpu0 .finish
  have h₁ : Steps m .tau m₁ := ⟨cpu0, .go, by simp [step_leave (m := m) (c := cpu0), hpc, m₁]⟩
  have h₂ : Steps m₁ .tau m₂ :=
    ⟨cpu0, .enter .yield, step_enter_yield (p := p) (by simp [m₁]) (by simp [m₁, hpc]) rfl⟩
  have h₃ : Steps m₂ .tau m₃ := ⟨cpu0, .go, step_yield (by simp [m₂]) (by simp [m₂, m₁, hpc])⟩
  have h₄ : Steps m₃ .tau m₄ :=
    ⟨cpu0, .go, step_switchOut (p := p) (by simp [m₃]) (by simp [m₃, m₂, m₁, hpc])⟩
  have h₅ : Steps m₄ .tau m₅ :=
    ⟨cpu0, .go, step_clear (p := p) (by simp [m₄]) (by simp [m₄, m₃, m₂, m₁, hpc])⟩
  have h₆ : Steps m₅ .tau (m₅.release cpu0 .loop) :=
    ⟨cpu0, .go, step_unlock (by simp [m₅]) (by simp [m₅])⟩
  refine ⟨m₅.release cpu0 .loop, ?_, ⟨rfl, by simp [m₅]⟩, rfl⟩
  have hrun : Run Steps P m [] m := .nil (hP m fun _ _ => rfl)
  have hrun := hrun.snoc h₁ (hP m₁ fun _ _ => rfl)
  have hrun := hrun.snoc h₂ (hP m₂ fun _ _ => rfl)
  have hrun := hrun.snoc h₃ (hP m₃ hsame)
  have hrun := hrun.snoc h₄ (hP m₄ hsame)
  have hrun := hrun.snoc h₅ (hP m₅ hsame)
  exact hrun.snoc h₆ (hP _ hsame)

/-- A process that the scheduler chooses runs and yields. -/
theorem round {m : Machine 1} {p : Slot} {P : Machine 1 → Prop} (hloop : AtLoop m)
    (hmin : minP m.ptable = some p)
    (hcontext : (m.ptable p).context = .forkret ∨ (m.ptable p).context = .yield ∨
      (m.ptable p).context = .sleep)
    (hP : ∀ x : Machine 1, (∀ q, q ≠ p → x.ptable q = m.ptable q) → P x) :
    ∃ m' es, Run Steps P m es m' ∧
      (es.count (.dispatch p) = 1 ∧ ∀ e ∈ es, e = .tau ∨ e = .dispatch p) ∧ Served m p m' := by
  obtain ⟨hlock, hcpu⟩ := hloop
  let m₁ := m.acquire cpu0 .scan
  let m₂ := ((m₁.setProc cpu0 (some p)).write p (m.ptable p).dispatch).goto cpu0 .switchIn
  let m₃ := m₂.goto cpu0 .resume
  have hsame : ∀ q, q ≠ p → m₂.ptable q = m.ptable q :=
    fun q hq => Function.update_of_ne hq _ _
  have h₁ : Steps m .tau m₁ := ⟨cpu0, .go, step_lock (by simp [hcpu]) (by simp [hcpu]) hlock⟩
  have h₂ : Steps m₁ (.dispatch p) m₂ := by
    refine ⟨cpu0, .go, ?_⟩
    rw [step_scan (by simp [m₁]) (by simp [m₁, hcpu])]
    simp only [schedule, m₁, acquire_ptable, hmin]
    rfl
  have h₃ : Steps m₂ .tau m₃ :=
    ⟨cpu0, .go, step_switchIn (p := p) (by simp [m₂]) (by simp [m₂])⟩
  -- back in `forkret`, `yield` or `sleep`, the process comes to its `release`
  obtain ⟨m₄, h₄, hcpu₄, htable₄⟩ : ∃ m₄, Steps m₃ .tau m₄ ∧ m₄.cpu cpu0 = ⟨some p, .leave⟩ ∧
      ∃ chan, m₄.ptable =
        Function.update m.ptable p { (m.ptable p).dispatch with chan := chan } := by
    have hself : m₃.ptable p = (m.ptable p).dispatch := by simp [m₃, m₂]
    have htable : m₃.ptable = Function.update m.ptable p (m.ptable p).dispatch := rfl
    by_cases hsleep : (m.ptable p).context = .sleep
    · refine ⟨(m₃.write p (m₃.ptable p).tidyUp).goto cpu0 .leave, ⟨cpu0, .go, ?_⟩, by simp [m₃, m₂],
        none, ?_⟩
      · exact step_awake (by simp [m₃]) (by simp [m₃, m₂]) (by rw [hself]; exact hsleep)
      · rw [goto_ptable, write_ptable, htable, Function.update_self, Function.update_idem]
        rfl
    · refine ⟨m₃.goto cpu0 .leave, ⟨cpu0, .go, ?_⟩, by simp [m₃, m₂], (m.ptable p).chan, rfl⟩
      refine step_resume (p := p) (by simp [m₃]) (by simp [m₃, m₂]) ?_
      rw [hself]
      rcases hcontext with h | h | h
      · exact Or.inl h
      · exact Or.inr h
      · exact absurd h hsleep
  obtain ⟨chan, htable₄⟩ := htable₄
  have hsame₄ : ∀ q, q ≠ p → m₄.ptable q = m.ptable q := by
    intro q hq
    rw [htable₄, Function.update_of_ne hq]
  obtain ⟨m', hrest, hloop', htable'⟩ := yield_round (P := P) hcpu₄ (fun x hx =>
    hP x fun q hq => (hx q hq).trans (hsame₄ q hq))
  have hrun : Run Steps P m [] m := .nil (hP m fun _ _ => rfl)
  have hrun := hrun.snoc h₁ (hP m₁ fun _ _ => rfl)
  have hrun := hrun.snoc h₂ (hP m₂ hsame)
  have hrun := hrun.snoc h₃ (hP m₃ hsame)
  have hrun := hrun.snoc h₄ (hP m₄ hsame₄)
  have hentry : m'.ptable p =
      ({ (m.ptable p).dispatch with chan := chan } : Proc).park .runnable .yield := by
    rw [htable', htable₄, Function.update_self, Function.update_self]
  refine ⟨m', _, hrun.append hrest, ⟨by simp, by simp⟩, hloop', ?_, ?_, ?_, ?_, ?_⟩
  · rw [hentry, Proc.park]
  · rw [hentry, Proc.park]
  · rw [hentry, Proc.park, Proc.dispatch]
  · rw [hentry, Proc.park, Proc.dispatch]
  · intro q hq
    rw [htable', Function.update_of_ne hq, hsame₄ q hq]

/-- A process whose pass is small enough is served any number of times in a row. -/
theorem rounds {m : Machine 1} {p : Slot} {P : Machine 1 → Prop} (k : ℕ) (hloop : AtLoop m)
    (hstate : (m.ptable p).state = .runnable)
    (hcontext : (m.ptable p).context = .forkret ∨ (m.ptable p).context = .yield ∨
      (m.ptable p).context = .sleep)
    (hstep : 0 ≤ (m.ptable p).step) (hsize : 0 < (m.ptable p).sizeStep)
    (hmax : (m.ptable p).step + k * (m.ptable p).sizeStep ≤ maxStep)
    (hother : ∀ q, q ≠ p → (m.ptable q).state = .runnable →
      (m.ptable p).step + k * (m.ptable p).sizeStep ≤ (m.ptable q).step)
    (hP : ∀ x : Machine 1, (∀ q, q ≠ p → x.ptable q = m.ptable q) → P x) :
    ∃ m' es, Run Steps P m es m' ∧
      (es.count (.dispatch p) = k ∧ ∀ e ∈ es, e = .tau ∨ e = .dispatch p) ∧ AtLoop m' ∧
      (m'.ptable p).state = .runnable ∧
      (m'.ptable p).step = (m.ptable p).step + k * (m.ptable p).sizeStep ∧
      ∀ q, q ≠ p → m'.ptable q = m.ptable q := by
  induction k generalizing m with
  | zero =>
      exact ⟨m, [], .nil (hP m fun _ _ => rfl), ⟨rfl, by simp⟩, hloop, hstate, by simp,
        fun _ _ => rfl⟩
  | succ k ih =>
      have hsplit : (m.ptable p).step + ((k + 1 : ℕ) : ℤ) * (m.ptable p).sizeStep =
          ((m.ptable p).step + (m.ptable p).sizeStep) + k * (m.ptable p).sizeStep := by
        push_cast
        ring
      have hnonneg : 0 ≤ (k : ℤ) * (m.ptable p).sizeStep := by positivity
      have hlim : maxStep = 5000000 := rfl
      rw [hsplit] at hmax hother ⊢
      have hmin : minP m.ptable = some p := by
        refine minP_eq hstate (by omega) ?_
        intro q hq hrun
        have hle := hother q hq hrun
        omega
      obtain ⟨m₁, es, hrun, ⟨hcount, hes⟩, hserved⟩ := round hloop hmin hcontext hP
      have hstep₁ : (m₁.ptable p).step = (m.ptable p).step + (m.ptable p).sizeStep := by
        rw [hserved.step]
        exact int32_of_bounds (by omega) (by omega)
      have hsize₁ := hserved.sizeStep
      obtain ⟨m', fs, hrun', ⟨hcount', hfs⟩, hloop', hstate', hstep', hother'⟩ :=
        ih hserved.loop hserved.state (Or.inr (Or.inl hserved.context)) (by omega)
          (by omega) (by rw [hstep₁, hsize₁]; exact hmax)
          (fun q hq hq' => by
            rw [hserved.other q hq] at hq' ⊢
            rw [hstep₁, hsize₁]
            exact hother q hq hq')
          (fun x hx => hP x fun q hq => (hx q hq).trans (hserved.other q hq))
      refine ⟨m', es ++ fs, hrun.append hrun', ⟨?_, fun e he => ?_⟩, hloop', hstate', ?_, ?_⟩
      · rw [List.count_append, hcount, hcount']
        omega
      · exact (List.mem_append.mp he).elim (hes e) (hfs e)
      · rw [hstep', hstep₁, hsize₁]
      · intro q hq
        rw [hother' q hq, hserved.other q hq]

/-- An interrupt on the idle processor wakes up the sleepers of a channel. -/
theorem wakeup_at_loop {m : Machine 1} (hloop : AtLoop m) (chan : Option Chan) :
    ∃ m' es, Run Steps (fun _ => True) m es m' ∧ AtLoop m' ∧
      m'.ptable = wakeup1 chan m.ptable := by
  obtain ⟨hlock, hcpu⟩ := hloop
  let m₁ := m.acquire cpu0 (.inside (.wakeup chan))
  let m₂ := (m₁.setTable (wakeup1 chan m.ptable)).goto cpu0 .leave
  have h₁ : Steps m .tau m₁ :=
    ⟨cpu0, .enter (.wakeup chan), step_enter_wakeup (by simp [hcpu]) (by simp [hcpu]) hlock⟩
  have h₂ : Steps m₁ .tau m₂ := ⟨cpu0, .go, step_wakeup (by simp [m₁])⟩
  have h₃ : Steps m₂ .tau (m₂.release cpu0 .loop) :=
    ⟨cpu0, .go, by simp [step_leave (m := m₂) (c := cpu0), m₂, m₁, hcpu]⟩
  have hrun : Run Steps (fun _ => True) m [] m := .nil trivial
  have hrun := ((hrun.snoc h₁ trivial).snoc h₂ trivial).snoc h₃ trivial
  exact ⟨_, _, hrun, ⟨rfl, by simp [m₂, m₁, hcpu]⟩, rfl⟩

/-! ## Passes at the limit -/

/-- A `RUNNABLE` process that is not dispatched stays as it is. -/
theorem Change.runnable_kept {p : Slot} {pr : Proc} (h : Sound m) (hch : Change m c p e pr)
    (hp : (m.ptable p).state = .runnable) (he : e ≠ .dispatch p) :
    pr.state = .runnable ∧ pr.step = (m.ptable p).step := by
  cases hch with
  | dispatch _ _ => exact absurd rfl he
  | sleep _ _ _ hpc hproc _ => simp [h.frame_running hpc hproc] at hp
  | exit hpc hproc => simp [h.frame_running hpc hproc] at hp
  | handOver r hpc hproc hne =>
      have hinit := (h.exiting hpc hproc).1
      have hstep : (exitTable m.initproc r m.ptable p).step = (m.ptable p).step := by
        rw [exitTable_of_ne hinit hne]
      rcases exitTable_state_cases hinit hne m.ptable with heq | ⟨_, heq⟩
      · exact ⟨heq.trans hp, hstep⟩
      · exact ⟨heq, hstep⟩
  | reap _ _ _ _ hzombie => simp [hp] at hzombie
  | alloc _ _ hunused => simp [hp] at hunused
  | giveUp r f _ hframe hchild _ =>
      have hembryo := (h.forks.frame r f hframe).2
      simp [hchild, hp] at hembryo
  | prepare r f _ _ hframe hchild _ =>
      have hembryo := (h.forks.frame r f hframe).2
      simp [hchild, hp] at hembryo
  | keep _ _ => exact ⟨hp, rfl⟩
  | tidyUp _ _ => exact ⟨hp, rfl⟩
  | fault _ _ => exact ⟨hp, rfl⟩
  | kill _ _ _ => exact ⟨hp, rfl⟩
  | inherit _ _ _ _ _ _ _ => exact ⟨hp, rfl⟩
  | wakeup _ => exact ⟨rfl, rfl⟩
  | killAsleep _ _ _ => exact ⟨rfl, rfl⟩
  | yield _ _ => exact ⟨rfl, rfl⟩
  | forked _ _ _ _ _ _ => exact ⟨rfl, rfl⟩

/-- From the limit on a `RUNNABLE` process is left alone for ever. -/
theorem run_stuck {p : Slot} (h : Reachable m) (hp : (m.ptable p).state = .runnable)
    (hmax : maxStep ≤ (m.ptable p).step) (hrun : Run Steps (fun _ => True) m es m') :
    .dispatch p ∉ es ∧ (m'.ptable p).state = .runnable ∧
      (m'.ptable p).step = (m.ptable p).step := by
  have hJ := hrun.history (J := fun es x => Sound x ∧ .dispatch p ∉ es ∧
    (x.ptable p).state = .runnable ∧ (x.ptable p).step = (m.ptable p).step) ?_
    ⟨h.sound, by simp, hp, rfl⟩
  · exact hJ.2
  · rintro gs x e y _ _ ⟨hsound, hnot, hstate, hstep⟩ ⟨c, a, hmove⟩
    have hmove := step_move hmove
    have hne : e ≠ .dispatch p := by
      rintro rfl
      obtain ⟨_, _, hmin, _⟩ := hmove.dispatched
      have hlt := (minP_runnable hmin).2.1
      omega
    obtain ⟨hstate', hstep'⟩ := (hmove.change p).runnable_kept hsound hstate hne
    refine ⟨hmove.sound hsound, ?_, hstate', hstep'.trans hstep⟩
    simp [hnot, Ne.symm hne]

/-- Work conservation below the limit: whenever the stride branch searches the
table and some `RUNNABLE` process has a pass below 5000000, the first one with the
smallest pass is dispatched.  A `RUNNABLE` process whose pass has reached the
limit is never chosen again. -/
theorem work_conserving_below_limit {n : ℕ} {m : Machine n} (h : Reachable m) :
    (∀ c, (m.cpu c).pc = .scan →
      (∃ p, (m.ptable p).state = .runnable ∧ (m.ptable p).step < maxStep) →
      ∃ q m', m.step c .go = some (m', .dispatch q) ∧ (m.ptable q).state = .runnable ∧
        (m'.ptable q).state = .running ∧ (m'.cpu c).proc = some q ∧
        (∀ r, (m.ptable r).state = .runnable → (m.ptable q).step ≤ (m.ptable r).step) ∧
        ∀ r, (m.ptable r).state = .runnable → r < q → (m.ptable q).step < (m.ptable r).step) ∧
      ∀ p, (m.ptable p).state = .runnable → maxStep ≤ (m.ptable p).step →
        ∀ es m', Run Steps (fun _ => True) m es m' →
          .dispatch p ∉ es ∧ (m'.ptable p).state = .runnable := by
  constructor
  · rintro c hpc ⟨p, hp, hlt⟩
    have hproc : (m.cpu c).proc = none := by
      have hcpu := h.sound.cpu c
      simpa [CpuSound, hpc] using hcpu
    rcases minP_cases m.ptable with ⟨q, hq, hrun, _, hle, hfirst⟩ | ⟨_, hall⟩
    · refine ⟨q, ((m.setProc c (some q)).write q (m.ptable q).dispatch).goto c .switchIn, ?_,
        hrun, by simp [Proc.dispatch], by simp, hle, hfirst⟩
      rw [step_scan hpc hproc, schedule, hq]
    · exact absurd (hall p hp) (not_le.mpr hlt)
  · intro p hp hmax es m' hrun
    obtain ⟨hnot, hstate, _⟩ := run_stuck h hp hmax hrun
    exact ⟨hnot, hstate⟩

/-- The first process has forked a child and yields: the child has the smaller pass. -/
theorem work_conserving_below_limit_child :
    ∃ m m' : Machine 1, Reachable m ∧ (m.cpu 0).pc = .scan ∧ (m.ptable 0).state = .runnable ∧
      (m.ptable 1).state = .runnable ∧ m.step 0 .go = some (m', .dispatch 1) := by
  obtain ⟨m, hm, hQ⟩ := exists_reachable (n := 1) 0 1
    (forkOnce ++ (cpu0, .enter .yield) :: List.replicate 5 (cpu0, .go))
    (fun m => decide ((m.cpu 0).pc = .scan ∧ ((m.ptable 0).state = .runnable ∧
      (m.ptable 1).state = .runnable) ∧ (m.ptable 1).step < maxStep ∧
      (m.ptable 1).step < (m.ptable 0).step ∧
      ∀ q, q ≠ 0 → q ≠ 1 → (m.ptable q).state = .unused)) (by decide +kernel)
  obtain ⟨hpc, ⟨hstate₀, hstate₁⟩, hlt, hless, hunused⟩ := of_decide_eq_true hQ
  obtain ⟨q, m', hstep, hq, _, _, hmin, _⟩ :=
    (work_conserving_below_limit hm).1 0 hpc ⟨1, hstate₁, hlt⟩
  have hle := hmin 1 hstate₁
  obtain rfl : q = 1 := by
    by_contra hq1
    by_cases hq0 : q = 0
    · subst hq0
      omega
    · simp [hunused q hq0 hq1] at hq
  exact ⟨m, m', hm, hpc, hstate₀, hstate₁, hstep⟩

theorem boot_atLoop (kstack pgdir : Page) : AtLoop (boot 1 kstack pgdir) :=
  ⟨rfl, rfl⟩

/-- The first process, alone and yielding at every tick, reaches the limit after
250000 dispatches; then the search finds nothing although it is `RUNNABLE`. -/
theorem not_work_conserving :
    ¬∀ m : Machine 1, Reachable m → ∀ c, (m.cpu c).pc = .scan →
      (∃ p, (m.ptable p).state = .runnable) →
      ∃ q m', m.step c .go = some (m', .dispatch q) := by
  intro hclaim
  obtain ⟨m, es, hrun, _, ⟨hlock, hcpu⟩, hstate, hstep, hother⟩ :=
    rounds (P := fun _ => True) (m := boot 1 0 1) (p := 0) 250000 (boot_atLoop 0 1) rfl
      (Or.inl rfl) (by decide) (by decide) (by decide)
      (fun q hq hstate => by simp [boot, userinit, hq, Proc.zero] at hstate)
      (fun _ _ => trivial)
  have hreach : Reachable m := ⟨0, 1, es, hrun⟩
  have hnone : minP m.ptable = none := by
    rcases minP_cases m.ptable with ⟨q, _, hq, hlt, _⟩ | ⟨hnone, _⟩
    · by_cases hq0 : q = 0
      · subst hq0
        rw [hstep] at hlt
        exact absurd hlt (by decide)
      · rw [hother q hq0] at hq
        simp [boot, userinit, hq0, Proc.zero] at hq
    · exact hnone
  have hlocked : Steps m .tau (m.acquire cpu0 .scan) :=
    ⟨cpu0, .go, step_lock (by simp [hcpu]) (by simp [hcpu]) hlock⟩
  have hreach' : Reachable (m.acquire cpu0 .scan) :=
    hreach.run (Run.single (P := fun _ => True) trivial hlocked trivial)
  obtain ⟨q, m', hdispatch⟩ := hclaim _ hreach' cpu0 (by simp) ⟨0, hstate⟩
  rw [step_scan (by simp) (by simp [hcpu]), schedule, acquire_ptable, hnone] at hdispatch
  simp at hdispatch

/-! ## Waiting for smaller passes -/

/-- A process is there until its parent has waited for it. -/
theorem Change.grown_kept {q : Slot} {pr : Proc} (h : Sound m) (hch : Change m c q e pr)
    (hq : (m.ptable q).state.Grown) (he : ∀ r pid, e ≠ .reaped r q pid) : pr.state.Grown := by
  rcases hq with halive | hzombie
  · rcases hch.alive h halive with halive' | hexit
    · exact Or.inl halive'
    · subst hexit
      cases hch with
      | keep _ he => simp [Event.touches] at he
      | exit hpc hproc =>
          rw [exitTable_self (h.exiting hpc hproc).1]
          exact Or.inr rfl
      | handOver _ _ _ hne => exact absurd rfl hne
  · rcases hch.zombie_left h hzombie with hzombie' | ⟨p, hreap, _⟩
    · exact Or.inr hzombie'
    · exact absurd hreap (he p _)

/-- The states in which `p` waits for the processor. -/
def Waits (p : Slot) (m : Machine n) : Prop :=
  (m.ptable p).state = .runnable ∧ (m.ptable p).step < maxStep

instance (p : Slot) (m : Machine n) : Decidable (Waits p m) :=
  inferInstanceAs (Decidable (_ ∧ _))

theorem Move.not_dispatched (hmove : Move m c e m') {p : Slot} (hp : Waits p m') :
    e ≠ .dispatch p := by
  rintro rfl
  obtain ⟨_, _, _, rfl⟩ := hmove.dispatched
  simp [Waits, Proc.dispatch] at hp

/-- While `p` waits, its pass stands still. -/
theorem run_waits_pass {p : Slot} (h : Reachable m) (hrun : Run Steps (Waits p) m es m') :
    (m'.ptable p).step = (m.ptable p).step := by
  have hI := hrun.invariant (I := fun x => Sound x ∧ (x.ptable p).step = (m.ptable p).step) ?_
    ⟨h.sound, rfl⟩
  · exact hI.2
  · rintro x e y hx hy ⟨hsound, hstep⟩ ⟨c, a, hmove⟩
    have hmove := step_move hmove
    have hkept := (hmove.change p).runnable_kept hsound hx.1 (hmove.not_dispatched hy)
    exact ⟨hmove.sound hsound, hkept.2.trans hstep⟩

/-- While `p` waits, its pass stands still, and `q` is only dispatched with a pass
that is not larger. -/
theorem run_waits {p q : Slot} (h : Reachable m) (hrun : Run Steps (Waits p) m es m')
    (hq : (m.ptable q).state.Grown) (hreap : ∀ r pid, .reaped r q pid ∉ es) :
    (m'.ptable p).step = (m.ptable p).step ∧ (m'.ptable q).state.Grown ∧
      (m'.ptable q).sizeStep = (m.ptable q).sizeStep ∧
      (m'.ptable q).step =
        (m.ptable q).step + es.count (.dispatch q) * (m.ptable q).sizeStep ∧
      (es.count (.dispatch q) = 0 ∨
        (m'.ptable q).step ≤ (m.ptable p).step + (m.ptable q).sizeStep) := by
  obtain ⟨hsound, hstrides⟩ := h.strides
  have hJ := hrun.history (J := fun es x => (∀ r pid, .reaped r q pid ∉ es) →
    (Sound x ∧ Strides x) ∧ (x.ptable p).step = (m.ptable p).step ∧
      (x.ptable q).state.Grown ∧ (x.ptable q).sizeStep = (m.ptable q).sizeStep ∧
      (x.ptable q).step = (m.ptable q).step + es.count (.dispatch q) * (m.ptable q).sizeStep ∧
      (es.count (.dispatch q) = 0 ∨
        (x.ptable q).step ≤ (m.ptable p).step + (m.ptable q).sizeStep)) ?_
    (fun _ => ⟨⟨hsound, hstrides⟩, rfl, hq, rfl, by simp, by simp⟩)
  · exact (hJ hreap).2
  · rintro gs x e y hx hy hgs ⟨c, a, hmove⟩ hnot
    have hmove := step_move hmove
    obtain ⟨⟨hsx, htx⟩, hstepp, hgrown, hsize, hstepq, hbound⟩ :=
      hgs fun r pid hmem => hnot r pid (List.mem_append_left _ hmem)
    obtain ⟨_, hstepp'⟩ :=
      (hmove.change p).runnable_kept hsx hx.1 (hmove.not_dispatched hy)
    have hgrown' := (hmove.change q).grown_kept hsx hgrown fun r pid he =>
      hnot r pid (by simp [he])
    obtain ⟨hstepq', hsize'⟩ := hmove.advance hsx htx hgrown
    refine ⟨⟨hmove.sound hsx, hmove.strides hsx htx⟩, hstepp'.trans hstepp, hgrown',
      hsize'.trans hsize, ?_, ?_⟩
    · rw [hstepq', hstepq, hsize, List.count_append, List.count_singleton]
      by_cases he : e = .dispatch q
      · simp [he]
        ring
      · simp [he]
    · rw [List.count_append, List.count_singleton]
      by_cases he : e = .dispatch q
      · -- the search compared `q` with `p`
        subst he
        obtain ⟨_, _, hmin, _⟩ := hmove.dispatched
        have hle := (minP_runnable hmin).2.2 p hx.1
        refine Or.inr ?_
        rw [hstepq', if_pos rfl, hsize]
        omega
      · rw [hstepq', if_neg he]
        simpa [he] using hbound

/-- While `p` waits, a process that was there from the start is dispatched once
more than its stride fits into the distance between the passes, and at most 21
times if that is no more than 200. -/
theorem run_waits_count {p q : Slot} (h : Reachable m) (hrun : Run Steps (Waits p) m es m')
    (hq : (m.ptable q).state.Grown) (hreap : ∀ r pid, .reaped r q pid ∉ es) :
    (es.count (.dispatch q) : ℤ) ≤
        max 0 (((m.ptable p).step - (m.ptable q).step) / (m.ptable q).sizeStep + 1) ∧
      ((m.ptable p).step ≤ (m.ptable q).step + 200 → es.count (.dispatch q) ≤ 21) := by
  obtain ⟨_, _, _, hstep, hbound⟩ := run_waits h hrun hq hreap
  have hstrided := h.strides.2.grown q hq
  have hpos : 0 < (m.ptable q).sizeStep := by
    have hge := hstrided.sizeStep_ge
    omega
  generalize es.count (.dispatch q) = k at hstep hbound ⊢
  rcases hbound with rfl | hbound
  · exact ⟨by simp, by simp⟩
  · have hdist : ((k : ℤ) - 1) * (m.ptable q).sizeStep ≤
        (m.ptable p).step - (m.ptable q).step := by
      rw [Int.sub_mul]
      omega
    constructor
    · have hdiv := (Int.le_ediv_iff_mul_le hpos).mpr hdist
      exact le_trans (by omega) (le_max_right _ _)
    · intro hnear
      by_contra hmany
      have hk : (21 : ℤ) ≤ (k : ℤ) - 1 := by omega
      have hge := hstrided.sizeStep_ge
      have hmul : (21 : ℤ) * 10 ≤ ((k : ℤ) - 1) * (m.ptable q).sizeStep :=
        mul_le_mul hk hge (by decide) (by omega)
      omega

/-- A forked process starts with its pass at zero. -/
theorem Move.forked_stride {p q : Slot} {pid : ℤ} (hs : Strides m)
    (hmove : Move m c (.forked p q pid) m') :
    (m'.ptable q).state = .runnable ∧ (m'.ptable q).step = 0 := by
  cases hmove with
  | jump pc _ hjump => cases hjump
  | forked p f hpc hproc hframe hphase =>
      have hzero := (hs.filling p f hframe (by simp [hphase])).2
      exact ⟨by simp [Proc.ready], by simpa [Proc.ready] using hzero⟩

/-- No process is dispatched more often while another one waits than the distance
between their passes allows, counted from the start of the wait or, for a process
forked meanwhile, from zero. -/
theorem dispatches_while_waiting {n : ℕ} {m m' : Machine n} {p : Slot} {es : List Event}
    (h : Reachable m) (hrun : Run Steps (Waits p) m es m') :
    (∀ q, (m.ptable q).state.Grown → (∀ r pid, .reaped r q pid ∉ es) →
      (es.count (.dispatch q) : ℤ) ≤
          max 0 (((m.ptable p).step - (m.ptable q).step) / (m.ptable q).sizeStep + 1) ∧
        ((m.ptable p).step ≤ (m.ptable q).step + 200 → es.count (.dispatch q) ≤ 21)) ∧
      ∀ q r pid before after, es = before ++ .forked r q pid :: after →
        (∀ s x, .reaped s q x ∉ after) →
        (after.count (.dispatch q) : ℤ) ≤
            max 0 ((m.ptable p).step / (m'.ptable q).sizeStep + 1) ∧
          ((m.ptable p).step ≤ 200 → after.count (.dispatch q) ≤ 21) := by
  constructor
  · intro q hq hreap
    exact run_waits_count h hrun hq hreap
  · rintro q r pid before after rfl hreap
    obtain ⟨x, y, hbefore, ⟨c, a, hstep⟩, hafter⟩ := hrun.at_label
    have hreach : Reachable x := h.run hbefore
    obtain ⟨hsound, hstrides⟩ := hreach.strides
    have hmove := step_move hstep
    obtain ⟨hstate, hzero⟩ := hmove.forked_stride hstrides
    have hreach' : Reachable y :=
      hreach.run (Run.single (P := fun _ => True) trivial ⟨c, a, hstep⟩ trivial)
    -- the pass of `p` is the same when the fork returns
    have hpass : (y.ptable p).step = (m.ptable p).step :=
      run_waits_pass h (hbefore.snoc ⟨c, a, hstep⟩ hafter.first)
    have hgrown : (y.ptable q).state.Grown := Or.inl (Or.inr (Or.inl hstate))
    obtain ⟨_, _, hsize, _⟩ := run_waits hreach' hafter hgrown hreap
    have hcount := run_waits_count hreach' hafter hgrown hreap
    rw [hpass, hzero, sub_zero, zero_add] at hcount
    rw [hsize]
    exact hcount

/-- One processor: the first process has forked a child, which sleeps. -/
def forkSleep : List (Fin 1 × Action) :=
  forkOnce ++ yieldRound ++ (cpu0, .enter (.sleep 7)) :: List.replicate 4 (cpu0, .go)

/-- After a long sleep of its child, the first process waits while the child is
dispatched 22 times in a row. -/
theorem sleeper_dispatched_22 :
    ∃ (m m' : Machine 1) (es : List Event), Reachable m ∧ Run Steps (Waits 0) m es m' ∧
      (es.count (.dispatch 1) = 22 ∧ ∀ r pid, .reaped r 1 pid ∉ es) ∧
      (m.ptable 0).step = 620 ∧ (m.ptable 1).step = 20 ∧ (m.ptable 1).sizeStep = 20 ∧
      (m.ptable 1).state = .runnable := by
  obtain ⟨m, hm, hQ⟩ := exists_reachable 0 1 forkSleep
    (fun m => decide (m.lock = none ∧ m.cpu cpu0 = ⟨none, .loop⟩ ∧
      ((m.ptable 0).state = .runnable ∧ (m.ptable 0).context = .yield ∧
        (m.ptable 0).step = 20 ∧ (m.ptable 0).sizeStep = 20) ∧
      ((m.ptable 1).state = .sleeping ∧ (m.ptable 1).chan = some (.other 7) ∧
        (m.ptable 1).context = .sleep ∧ (m.ptable 1).step = 20 ∧ (m.ptable 1).sizeStep = 20) ∧
      ∀ q, q ≠ 0 → q ≠ 1 → (m.ptable q).state = .unused)) (by decide +kernel)
  obtain ⟨hlock, hcpu, ⟨hstate₀, hcontext₀, hstep₀, hsize₀⟩,
    ⟨hstate₁, hchan₁, hcontext₁, hstep₁, hsize₁⟩, hunused⟩ := of_decide_eq_true hQ
  have hlim : maxStep = 5000000 := rfl
  -- the first process runs alone for 30 rounds
  obtain ⟨x, es, hrun, _, hloop, hstate, hstep, hother⟩ :=
    rounds (P := fun _ => True) (p := 0) 30 ⟨hlock, hcpu⟩ hstate₀ (Or.inr (Or.inl hcontext₀))
      (by omega) (by omega) (by rw [hstep₀, hsize₀]; decide)
      (fun q hq hq' => by
        by_cases hq1 : q = 1
        · subst hq1
          simp [hstate₁] at hq'
        · simp [hunused q hq hq1] at hq')
      (fun _ _ => trivial)
  obtain ⟨y, fs, hrun', hloop', htable⟩ := wakeup_at_loop hloop (some (.other 7))
  have hreach : Reachable y := (hm.run hrun).run hrun'
  have hx₁ : x.ptable 1 = m.ptable 1 := hother 1 (by decide)
  have hy₁ : y.ptable 1 = (m.ptable 1).ready := by
    simp [htable, wakeup1, hx₁, hstate₁, hchan₁]
  have hy₀ : y.ptable 0 = x.ptable 0 := by
    simp [htable, wakeup1, hstate]
  have hpass : (y.ptable 0).step = 620 := by
    rw [hy₀, hstep, hstep₀, hsize₀]
    decide
  have hwaits : Waits 0 y := ⟨by rw [hy₀, hstate], by omega⟩
  have hready : (y.ptable 1).step = 20 ∧ (y.ptable 1).sizeStep = 20 ∧
      (y.ptable 1).context = .sleep ∧ (y.ptable 1).state = .runnable := by
    rw [hy₁]
    exact ⟨hstep₁, hsize₁, hcontext₁, rfl⟩
  obtain ⟨hstepy, hsizey, hcontexty, hstatey⟩ := hready
  -- the child catches up
  obtain ⟨z, gs, hrun'', ⟨hcount, hgs⟩, _⟩ :=
    rounds (P := Waits 0) (p := 1) 22 hloop' hstatey (Or.inr (Or.inr hcontexty))
      (by omega) (by omega) (by rw [hstepy, hsizey]; decide)
      (fun q hq hq' => by
        by_cases hq0 : q = 0
        · subst hq0
          rw [hstepy, hsizey, hpass]
          decide
        · have hxq : x.ptable q = m.ptable q := hother q hq0
          simp [htable, wakeup1, hxq, hunused q hq0 hq] at hq')
      (fun u hu => by
        have hu₀ := hu 0 (by decide)
        unfold Waits
        rw [hu₀]
        exact hwaits)
  refine ⟨y, z, gs, hreach, hrun'', ⟨hcount, fun r pid hmem => ?_⟩, hpass, hstepy, hsizey, hstatey⟩
  rcases hgs _ hmem with h | h
  · cases h
  · cases h

theorem not_dispatched_at_most_21 :
    ¬∀ (m m' : Machine 1) (p q : Slot) (es : List Event), Reachable m → q ≠ p →
      Run Steps (Waits p) m es m' → es.count (.dispatch q) ≤ 21 := by
  intro hclaim
  obtain ⟨m, m', es, hm, hrun, ⟨hcount, _⟩, _⟩ := sleeper_dispatched_22
  have hle := hclaim m m' 0 1 es hm (by decide) hrun
  omega

theorem dispatches_while_waiting_sleeper :
    ∃ (m m' : Machine 1) (es : List Event), Reachable m ∧ Run Steps (Waits 0) m es m' ∧
      es.count (.dispatch 1) = 22 ∧ (es.count (.dispatch 1) : ℤ) ≤ 31 := by
  obtain ⟨m, m', es, hm, hrun, ⟨hcount, hreap⟩, hpass, hstep, hsize, hstate⟩ := sleeper_dispatched_22
  refine ⟨m, m', es, hm, hrun, hcount, ?_⟩
  have hgrown : (m.ptable 1).state.Grown := Or.inl (Or.inr (Or.inl hstate))
  have hle := ((dispatches_while_waiting hm hrun).1 1 hgrown hreap).1
  rw [hpass, hstep, hsize] at hle
  exact le_trans hle (by decide)

end Machine

end Xv6
