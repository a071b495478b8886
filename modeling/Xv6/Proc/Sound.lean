import Xv6.Proc.Moves
import Mathlib.Tactic.Common

/-!
# The lock, the processors and the forks in progress

The invariant behind everything that is said about processes: which processor
holds `ptable.lock`, what each processor does with its current process at each
place of the code, and which entries of the table are being filled by a `fork`
that has dropped the lock.  It holds after every step of every processor, also
in the states between a change of `p->state` and the context switch.

From it follows that a process never runs on two processors, although the lock
is acquired by one context and released by another.
-/

namespace Xv6

open Support

/-- A process that can give up the processor is in one of these states. -/
def Proc.Parked (p : Proc) : Prop :=
  p.state = .runnable ∨ p.state = .sleeping ∨ p.state = .zombie

namespace Machine

variable {n : ℕ} {m m' : Machine n} {c : Fin n} {e : Event}

/-- What holds of processor `c` at each place of the code. -/
def CpuSound (m : Machine n) (c : Fin n) : Prop :=
  match (m.cpu c).pc with
  | .loop | .scan | .finish => (m.cpu c).proc = none
  | .switchIn | .resume =>
      ∃ p, (m.cpu c).proc = some p ∧ (m.ptable p).state = .running ∧
        ((m.ptable p).context ≠ .yield → m.frame p = none)
  | .running => ∃ p, (m.cpu c).proc = some p ∧ (m.ptable p).state = .running
  | .inside k =>
      ((m.cpu c).proc = none ∧ ∃ chan, k = .wakeup chan) ∨
        ∃ p, (m.cpu c).proc = some p ∧ (m.ptable p).state = .running ∧ m.canEnter p k = true
  | .leave =>
      (m.cpu c).proc = none ∨ ∃ p, (m.cpu c).proc = some p ∧ (m.ptable p).state = .running
  | .parked | .back => ∃ p, (m.cpu c).proc = some p ∧ (m.ptable p).Parked

/-- The forks in progress, by the process that executes `fork`. -/
structure Forks (t : Ptable) (frames : Slot → Option ForkFrame) : Prop where
  /-- A process in the middle of `fork` does not sleep, and nobody else uses the
  entry it fills. -/
  frame : ∀ p f, frames p = some f →
    ((t p).state = .runnable ∨ (t p).state = .running) ∧ (t f.child).state = .embryo
  /-- No entry is filled by two processes. -/
  child : ∀ p q f g, frames p = some f → frames q = some g → f.child = g.child → p = q
  /-- Every `EMBRYO` is being filled. -/
  embryo : ∀ q, (t q).state = .embryo → ∃ p f, frames p = some f ∧ f.child = q
  /-- In the middle of `fork` a process only gives up the processor in `yield`. -/
  context : ∀ p, (t p).state = .runnable ∨ (t p).state = .sleeping →
    (t p).context ≠ .yield → frames p = none

/-- The invariant of the machine: who holds the lock, which process runs where
and which entries are being filled. -/
structure Sound (m : Machine n) : Prop where
  holds : ∀ c, (m.cpu c).pc.holds = true ↔ m.lock = some c
  cpu : ∀ c, m.CpuSound c
  unique : ∀ c d p, (m.cpu c).proc = some p → (m.cpu d).proc = some p → c = d
  current : ∀ p, (m.ptable p).state = .running → ∃ c, (m.cpu c).proc = some p
  forks : Forks m.ptable m.frame

/-- A step of one processor leaves the others where they are. -/
theorem Move.cpu_of_ne (hmove : Move m c e m') {d : Fin n} (hd : d ≠ c) :
    m'.cpu d = m.cpu d := by
  cases hmove <;> simp [sleepOn, hd]

theorem Move.initproc_eq (hmove : Move m c e m') : m'.initproc = m.initproc := by
  cases hmove <;> simp [sleepOn]

theorem Sound.lock_of_holds (h : Sound m) {pc : Pc} (hpc : (m.cpu c).pc = pc)
    (hholds : pc.holds = true) : m.lock = some c :=
  (h.holds c).mp (hpc ▸ hholds)

theorem Move.holds_self (h : Sound m) (hmove : Move m c e m') :
    (m'.cpu c).pc.holds = true ↔ m'.lock = some c := by
  cases hmove with
  | jump pc e hjump =>
      cases hjump with
      | idle hpc _ _ => simpa [Pc.holds] using h.lock_of_holds hpc rfl
      | switchIn _ hpc _ => simpa [Pc.holds] using h.lock_of_holds hpc rfl
      | resume _ hpc _ _ => simpa [Pc.holds] using h.lock_of_holds hpc rfl
      | waitFailed _ hpc _ => simpa [Pc.holds] using h.lock_of_holds hpc rfl
      | forkFailed _ _ hpc _ => simpa [Pc.holds] using h.lock_of_holds hpc rfl
      | switchOut _ hpc _ => simpa [Pc.holds] using h.lock_of_holds hpc rfl
  | lock hpc hproc hlock => simp [Pc.holds]
  | enter k hlock hfrom => simp [Pc.holds]
  | leave hpc =>
      simp only [release_cpu, release_lock, Function.update_self]
      split <;> simp [Pc.holds]
  | unlock hpc hproc => simp [Pc.holds]
  | awake p pc hpc hproc hcontext =>
      have hlock := h.lock_of_holds hpc rfl
      rcases hcontext with ⟨_, rfl⟩ | ⟨_, rfl⟩ <;> simpa [Pc.holds] using hlock
  | dispatch p hpc _ _ => simpa [Pc.holds] using h.lock_of_holds hpc rfl
  | clear p hpc _ => simpa [Pc.holds] using h.lock_of_holds hpc rfl
  | wakeup chan hpc => simpa [Pc.holds] using h.lock_of_holds hpc rfl
  | yield p hpc _ => simpa [Pc.holds] using h.lock_of_holds hpc rfl
  | sleep p addr hpc _ => simpa [Pc.holds, sleepOn] using h.lock_of_holds hpc rfl
  | exit p hpc _ => simpa [Pc.holds] using h.lock_of_holds hpc rfl
  | reap p q hpc _ _ _ => simpa [Pc.holds] using h.lock_of_holds hpc rfl
  | wait p q hpc _ _ _ => simpa [Pc.holds, sleepOn] using h.lock_of_holds hpc rfl
  | alloc p q tickets hpc _ _ => simpa [Pc.holds] using h.lock_of_holds hpc rfl
  | kill p pid hpc _ => simpa [Pc.holds] using h.lock_of_holds hpc rfl
  | giveUp p f hpc _ _ _ => simpa using h.holds c
  | prepare p f kstack hpc _ _ _ => simpa using h.holds c
  | inherit p f pgdir hpc _ _ _ => simpa using h.holds c
  | forked p f hpc _ _ _ => simpa using h.holds c
  | fault p hpc _ _ => simpa using h.holds c

/-- Acquiring and releasing does not concern the other processors. -/
theorem Move.lock_of_ne (h : Sound m) (hmove : Move m c e m') {d : Fin n} (hd : d ≠ c) :
    m'.lock = some d ↔ m.lock = some d := by
  have hne : ∀ x : Option (Fin n), x = some c → x ≠ some d := by
    intro x hx hxd
    exact hd (Option.some.inj (hxd.symm.trans hx))
  cases hmove with
  | lock hpc hproc hlock => simp [hlock, Ne.symm hd]
  | enter k hlock hfrom => simp [hlock, Ne.symm hd]
  | leave hpc => simpa using hne _ (h.lock_of_holds hpc rfl)
  | unlock hpc hproc => simpa using hne _ (h.lock_of_holds hpc rfl)
  | _ => simp [sleepOn]

theorem Move.holds (h : Sound m) (hmove : Move m c e m') (d : Fin n) :
    (m'.cpu d).pc.holds = true ↔ m'.lock = some d := by
  by_cases hd : d = c
  · subst hd
    exact hmove.holds_self h
  · rw [hmove.cpu_of_ne hd, hmove.lock_of_ne h hd]
    exact h.holds d

/-- Only a process that may exit reaches the section of `exit`. -/
theorem Sound.exiting (h : Sound m) {p : Slot} (hpc : (m.cpu c).pc = .inside .exit)
    (hproc : (m.cpu c).proc = some p) : p ≠ m.initproc ∧ m.frame p = none := by
  have hcpu := h.cpu c
  simp only [CpuSound, hpc, hproc, canEnter] at hcpu
  simp_all

theorem Change.running_of_ne {q : Slot} {pr : Proc} (h : Sound m) (hch : Change m c q e pr)
    (hproc : (m.cpu c).proc ≠ some q) (hrun : (m.ptable q).state = .running) :
    pr.state = .running := by
  cases hch with
  | handOver p hpc hp hne =>
      have hinit := (h.exiting hpc hp).1
      rcases exitTable_state_cases hinit hne m.ptable with heq | ⟨hsleep, _⟩
      · rw [heq, hrun]
      · simp [hrun] at hsleep
  | giveUp p f hp hframe hchild _ => have := (h.forks.frame p f hframe).2; simp_all
  | forked p f hp hframe hchild _ => have := (h.forks.frame p f hframe).2; simp_all
  | _ => simp_all [Proc.dispatch, Proc.markKilled, Proc.prepare, Proc.inherit]

/-- A step changes no frame but that of the process it belongs to. -/
theorem Move.frame_of_ne (hmove : Move m c e m') {p : Slot}
    (hp : (m.cpu c).proc ≠ some p) : m'.frame p = m.frame p := by
  cases hmove with
  | alloc r q tickets hpc hproc _ => simp [show p ≠ r by rintro rfl; exact hp hproc]
  | giveUp r f hpc hproc _ _ => simp [show p ≠ r by rintro rfl; exact hp hproc]
  | prepare r f _ hpc hproc _ _ => simp [show p ≠ r by rintro rfl; exact hp hproc]
  | inherit r f _ hpc hproc _ _ => simp [show p ≠ r by rintro rfl; exact hp hproc]
  | forked r f hpc hproc _ _ => simp [show p ≠ r by rintro rfl; exact hp hproc]
  | _ => simp [sleepOn]

/-- While another processor holds the lock, a step changes only the entry of its
own process or the one it is about to fill. -/
theorem Move.entry_of_locked (h : Sound m) (hmove : Move m c e m') {d : Fin n} {p : Slot}
    (hd : d ≠ c) (hlock : m.lock = some d) (hp : (m.cpu c).proc ≠ some p)
    (hembryo : (m.ptable p).state ≠ .embryo) : m'.ptable p = m.ptable p := by
  have hfree : ∀ pc, (m.cpu c).pc = pc → pc.holds = true → False := by
    intro pc hpc hholds
    have hc := h.lock_of_holds hpc hholds
    exact hd (Option.some.inj (hlock.symm.trans hc))
  have hchild : ∀ r f, m.frame r = some f → p ≠ f.child := by
    rintro r f hframe rfl
    exact hembryo (h.forks.frame r f hframe).2
  cases hmove with
  | jump pc e hjump => rfl
  | lock _ _ _ => rfl
  | enter _ _ _ => rfl
  | leave _ => rfl
  | unlock _ _ => rfl
  | clear _ _ _ => rfl
  | dispatch _ hpc _ _ => exact (hfree _ hpc rfl).elim
  | awake _ _ hpc _ _ => exact (hfree _ hpc rfl).elim
  | wakeup _ hpc => exact (hfree _ hpc rfl).elim
  | yield _ hpc _ => exact (hfree _ hpc rfl).elim
  | sleep _ _ hpc _ => exact (hfree _ hpc rfl).elim
  | exit _ hpc _ => exact (hfree _ hpc rfl).elim
  | reap _ _ hpc _ _ _ => exact (hfree _ hpc rfl).elim
  | wait _ _ hpc _ _ _ => exact (hfree _ hpc rfl).elim
  | alloc _ _ _ hpc _ _ => exact (hfree _ hpc rfl).elim
  | kill _ _ hpc _ => exact (hfree _ hpc rfl).elim
  | giveUp r f _ _ hframe _ => simp [hchild r f hframe]
  | prepare r f _ _ _ hframe _ => simp [hchild r f hframe]
  | inherit r f _ _ _ hframe _ => simp [hchild r f hframe]
  | forked r f _ _ hframe _ => simp [hchild r f hframe]
  | fault r _ hproc _ => simp [show p ≠ r by rintro rfl; exact hp hproc]

theorem canEnter_congr {m m' : Machine n} {p : Slot} (hframe : m'.frame p = m.frame p)
    (hinit : m'.initproc = m.initproc) (k : Section) : m'.canEnter p k = m.canEnter p k := by
  cases k <;> simp [canEnter, hframe, hinit]

/-- The processors that do not move stay sound. -/
theorem Move.cpuSound_of_ne (h : Sound m) (hmove : Move m c e m') {d : Fin n} (hd : d ≠ c) :
    m'.CpuSound d := by
  have hcpu := h.cpu d
  have hsame := hmove.cpu_of_ne hd
  have hother : ∀ p, (m.cpu d).proc = some p → (m.cpu c).proc ≠ some p :=
    fun p hp hc => hd (h.unique d c p hp hc)
  have hframe : ∀ p, (m.cpu d).proc = some p → m'.frame p = m.frame p :=
    fun p hp => hmove.frame_of_ne (hother p hp)
  -- the entry of a process whose processor holds the lock
  have hentry : ∀ pc p, (m.cpu d).pc = pc → pc.holds = true → (m.cpu d).proc = some p →
      (m.ptable p).state ≠ .embryo → m'.ptable p = m.ptable p := by
    intro pc p hpc hholds hp hembryo
    exact hmove.entry_of_locked h hd (h.lock_of_holds hpc hholds) (hother p hp) hembryo
  unfold CpuSound at hcpu ⊢
  rw [hsame]
  cases hpc : (m.cpu d).pc with
  | loop => simpa [hpc] using hcpu
  | scan => simpa [hpc] using hcpu
  | finish => simpa [hpc] using hcpu
  | switchIn =>
      simp only [hpc] at hcpu ⊢
      obtain ⟨p, hp, hrun, hcontext⟩ := hcpu
      refine ⟨p, hp, ?_⟩
      rw [hentry _ p hpc rfl hp (by simp [hrun]), hframe p hp]
      exact ⟨hrun, hcontext⟩
  | resume =>
      simp only [hpc] at hcpu ⊢
      obtain ⟨p, hp, hrun, hcontext⟩ := hcpu
      refine ⟨p, hp, ?_⟩
      rw [hentry _ p hpc rfl hp (by simp [hrun]), hframe p hp]
      exact ⟨hrun, hcontext⟩
  | running =>
      simp only [hpc] at hcpu ⊢
      obtain ⟨p, hp, hrun⟩ := hcpu
      exact ⟨p, hp, (hmove.change p).running_of_ne h (hother p hp) hrun⟩
  | inside k =>
      simp only [hpc] at hcpu ⊢
      rcases hcpu with hnone | ⟨p, hp, hrun, hcan⟩
      · exact Or.inl hnone
      · refine Or.inr ⟨p, hp, ?_⟩
        rw [hentry _ p hpc rfl hp (by simp [hrun]),
          canEnter_congr (hframe p hp) hmove.initproc_eq]
        exact ⟨hrun, hcan⟩
  | leave =>
      simp only [hpc] at hcpu ⊢
      rcases hcpu with hnone | ⟨p, hp, hrun⟩
      · exact Or.inl hnone
      · refine Or.inr ⟨p, hp, ?_⟩
        rw [hentry _ p hpc rfl hp (by simp [hrun])]
        exact hrun
  | parked =>
      simp only [hpc] at hcpu ⊢
      obtain ⟨p, hp, hparked⟩ := hcpu
      refine ⟨p, hp, ?_⟩
      rw [hentry _ p hpc rfl hp (by rcases hparked with h | h | h <;> simp [h])]
      exact hparked
  | back =>
      simp only [hpc] at hcpu ⊢
      obtain ⟨p, hp, hparked⟩ := hcpu
      refine ⟨p, hp, ?_⟩
      rw [hentry _ p hpc rfl hp (by rcases hparked with h | h | h <;> simp [h])]
      exact hparked

/-- The process of a processor that is neither in the scheduler nor on its way
into it is `RUNNING`. -/
theorem Sound.running (h : Sound m) {p : Slot} (hproc : (m.cpu c).proc = some p)
    (hparked : (m.cpu c).pc ≠ .parked) (hback : (m.cpu c).pc ≠ .back) :
    (m.ptable p).state = .running := by
  have hcpu := h.cpu c
  unfold CpuSound at hcpu
  cases hpc : (m.cpu c).pc <;> simp_all

theorem Sound.frame_running (h : Sound m) {p : Slot} {k : Section}
    (hpc : (m.cpu c).pc = .inside k) (hproc : (m.cpu c).proc = some p) :
    (m.ptable p).state = .running :=
  h.running hproc (by simp [hpc]) (by simp [hpc])

theorem minP_runnable {t : Ptable} {p : Slot} (h : minP t = some p) :
    (t p).state = .runnable ∧ (t p).step < maxStep ∧
      ∀ q, (t q).state = .runnable → (t p).step ≤ (t q).step := by
  rcases leastBelow_cases (fun p => decide ((t p).state = .runnable))
      (fun p => (t p).step) slots maxStep none with ⟨q, hq, hlt, hmin⟩ | ⟨hnone, _⟩
  · obtain rfl : q = p := Option.some.inj (hq.symm.trans h)
    exact ⟨by simpa using hmin.1, hlt, fun r hr => hmin.le (mem_slots r) (by simpa using hr)⟩
  · exact absurd (hnone.symm.trans h) (by simp)

theorem Move.cpuSound_self (h : Sound m) (hmove : Move m c e m') : m'.CpuSound c := by
  have hcpu := h.cpu c
  cases hmove with
  | jump pc e hjump =>
      cases hjump with
      | idle hpc hproc _ => simp [CpuSound, hproc]
      | switchIn p hpc hproc =>
          simp only [CpuSound, hpc] at hcpu
          simpa [CpuSound] using hcpu
      | resume p hpc hproc _ =>
          have hrun := h.running hproc (by simp [hpc]) (by simp [hpc])
          simp [CpuSound, hproc, hrun]
      | waitFailed p hpc hproc =>
          have hrun := h.running hproc (by simp [hpc]) (by simp [hpc])
          simp [CpuSound, hproc, hrun]
      | forkFailed p tickets hpc hproc =>
          have hrun := h.running hproc (by simp [hpc]) (by simp [hpc])
          simp [CpuSound, hproc, hrun]
      | switchOut p hpc hproc =>
          simp only [CpuSound, hpc] at hcpu
          simpa [CpuSound] using hcpu
  | lock hpc hproc hlock => simp [CpuSound, hproc]
  | enter k hlock hfrom =>
      rcases hfrom with ⟨p, hpc, hproc, hcan⟩ | ⟨hpc, hproc, chan, rfl⟩
      · have hrun := h.running hproc (by simp [hpc]) (by simp [hpc])
        have hcan' : (m.acquire c (.inside k)).canEnter p k = true :=
          (canEnter_congr rfl rfl k).trans hcan
        simp [CpuSound, hproc, hrun, hcan']
      · simp [CpuSound, hproc]
  | leave hpc =>
      cases hproc : (m.cpu c).proc with
      | none => simp [CpuSound, hproc]
      | some p =>
          have hrun := h.running hproc (by simp [hpc]) (by simp [hpc])
          simp [CpuSound, hproc, hrun]
  | unlock hpc hproc => simp [CpuSound, hproc]
  | clear p hpc hproc => simp [CpuSound]
  | dispatch p hpc hproc hmin =>
      have hcontext := h.forks.context p (Or.inl (minP_runnable hmin).1)
      simpa [CpuSound, Proc.dispatch] using hcontext
  | awake p pc hpc hproc hcontext =>
      have hrun := h.running hproc (by simp [hpc]) (by simp [hpc])
      simp only [CpuSound, hpc] at hcpu
      obtain ⟨r, hr, _, hframe⟩ := hcpu
      obtain rfl : r = p := Option.some.inj (hr.symm.trans hproc)
      rcases hcontext with ⟨_, rfl⟩ | ⟨hwait, rfl⟩
      · simp [CpuSound, hproc, Proc.tidyUp, hrun]
      · have hnone := hframe (by simp [hwait])
        simp [CpuSound, hproc, Proc.tidyUp, hrun, canEnter, hnone]
  | wakeup chan hpc =>
      cases hproc : (m.cpu c).proc with
      | none => simp [CpuSound, hproc]
      | some p =>
          have hrun := h.running hproc (by simp [hpc]) (by simp [hpc])
          simp [CpuSound, hproc, wakeup1, hrun]
  | yield p hpc hproc => simp [CpuSound, hproc, Proc.Parked, Proc.park]
  | sleep p addr hpc hproc => simp [CpuSound, sleepOn, hproc, Proc.Parked, Proc.park]
  | wait p q hpc hproc _ _ => simp [CpuSound, sleepOn, hproc, Proc.Parked, Proc.park]
  | exit p hpc hproc =>
      have hinit := (h.exiting hpc hproc).1
      simp [CpuSound, hproc, Proc.Parked, exitTable_self hinit]
  | reap p q hpc hproc hparent hzombie =>
      have hrun := h.running hproc (by simp [hpc]) (by simp [hpc])
      have hne : p ≠ q := by rintro rfl; simp [hrun] at hzombie
      simp [CpuSound, hproc, hne, hrun]
  | alloc p q tickets hpc hproc hunused =>
      have hrun := h.running hproc (by simp [hpc]) (by simp [hpc])
      have hne : p ≠ q := by rintro rfl; simp [hrun] at hunused
      simp [CpuSound, hproc, hne, hrun]
  | kill p pid hpc hproc =>
      have hrun := h.running hproc (by simp [hpc]) (by simp [hpc])
      have hrun' : ((Xv6.kill pid m.ptable).2 p).state = .running := by
        rcases kill_cases pid m.ptable with ⟨r, _, _, hkill⟩ | ⟨_, hkill⟩
        · by_cases hp : p = r
          · subst hp
            simp [hkill, hrun, Proc.markKilled]
          · simp [hkill, hp, hrun]
        · simp [hkill, hrun]
      simp [CpuSound, hproc, hrun']
  | giveUp p f hpc hproc hframe hphase =>
      have hrun := h.running hproc (by simp [hpc]) (by simp [hpc])
      have hne : p ≠ f.child := by
        intro hp
        have hembryo := (h.forks.frame p f hframe).2
        simp [← hp, hrun] at hembryo
      simp [CpuSound, hpc, hproc, hne, hrun]
  | prepare p f kstack hpc hproc hframe hphase =>
      have hrun := h.running hproc (by simp [hpc]) (by simp [hpc])
      have hne : p ≠ f.child := by
        intro hp
        have hembryo := (h.forks.frame p f hframe).2
        simp [← hp, hrun] at hembryo
      simp [CpuSound, hpc, hproc, hne, hrun]
  | inherit p f pgdir hpc hproc hframe hphase =>
      have hrun := h.running hproc (by simp [hpc]) (by simp [hpc])
      have hne : p ≠ f.child := by
        intro hp
        have hembryo := (h.forks.frame p f hframe).2
        simp [← hp, hrun] at hembryo
      simp [CpuSound, hpc, hproc, hne, hrun]
  | forked p f hpc hproc hframe hphase =>
      have hrun := h.running hproc (by simp [hpc]) (by simp [hpc])
      have hne : p ≠ f.child := by
        intro hp
        have hembryo := (h.forks.frame p f hframe).2
        simp [← hp, hrun] at hembryo
      simp [CpuSound, hpc, hproc, hne, hrun]
  | fault p hpc hproc hframe =>
      have hrun := h.running hproc (by simp [hpc]) (by simp [hpc])
      simp [CpuSound, hpc, hproc, Proc.markKilled, hrun]

/-! ## Who runs where -/

/-- The process a processor works on after a step. -/
theorem Move.proc_cases (hmove : Move m c e m') :
    (m'.cpu c).proc = (m.cpu c).proc ∨
      (∃ p, e = .dispatch p ∧ minP m.ptable = some p ∧ (m.cpu c).proc = none ∧
        (m.cpu c).pc = .scan ∧ (m'.cpu c).proc = some p) ∨
      ((m.cpu c).pc = .back ∧ (m'.cpu c).proc = none) := by
  cases hmove with
  | dispatch p hpc hproc hmin => exact Or.inr (Or.inl ⟨p, rfl, hmin, hproc, hpc, by simp⟩)
  | clear p hpc hproc => exact Or.inr (Or.inr ⟨hpc, by simp⟩)
  | _ => exact Or.inl (by simp [sleepOn])

/-- A `RUNNABLE` process is the current process of no processor while the
scheduler searches the table. -/
theorem Sound.not_current_of_scan (h : Sound m) (hpc : (m.cpu c).pc = .scan) {p : Slot}
    (hp : (m.ptable p).state ≠ .running) (d : Fin n) : (m.cpu d).proc ≠ some p := by
  intro hproc
  have hlock := h.lock_of_holds hpc rfl
  refine hp (h.running hproc ?_ ?_)
  · intro hd
    obtain rfl : c = d := Option.some.inj (hlock.symm.trans (h.lock_of_holds hd rfl))
    simp [hpc] at hd
  · intro hd
    obtain rfl : c = d := Option.some.inj (hlock.symm.trans (h.lock_of_holds hd rfl))
    simp [hpc] at hd

theorem Move.unique (h : Sound m) (hmove : Move m c e m') (a b : Fin n) (p : Slot)
    (ha : (m'.cpu a).proc = some p) (hb : (m'.cpu b).proc = some p) : a = b := by
  -- a processor other than `c` works on `p` already before the step
  have hother : ∀ d, d ≠ c → (m'.cpu d).proc = some p → (m'.cpu c).proc = some p → d = c := by
    intro d hd hdp hcp
    rw [hmove.cpu_of_ne hd] at hdp
    rcases hmove.proc_cases with hsame | ⟨q, _, hmin, _, hpc, hq⟩ | ⟨_, hnone⟩
    · exact h.unique d c p hdp (hsame ▸ hcp)
    · obtain rfl : q = p := Option.some.inj (hq.symm.trans hcp)
      have hne : (m.ptable q).state ≠ .running := by simp [(minP_runnable hmin).1]
      exact absurd hdp (h.not_current_of_scan hpc hne d)
    · simp [hnone] at hcp
  by_cases hac : a = c
  · by_cases hbc : b = c
    · rw [hac, hbc]
    · rw [hac]
      exact (hother b hbc hb (hac ▸ ha)).symm
  · by_cases hbc : b = c
    · rw [hbc]
      exact hother a hac ha (hbc ▸ hb)
    · rw [hmove.cpu_of_ne hac] at ha
      rw [hmove.cpu_of_ne hbc] at hb
      exact h.unique a b p ha hb

/-- A process that is `RUNNING` after a step was so before or has been
dispatched by it. -/
theorem Change.running_inv {q : Slot} {pr : Proc} (h : Sound m) (hch : Change m c q e pr)
    (hrun : pr.state = .running) : (m.ptable q).state = .running ∨ e = .dispatch q := by
  cases hch with
  | keep e he => exact Or.inl hrun
  | dispatch _ _ => exact Or.inr rfl
  | tidyUp _ _ => exact Or.inl hrun
  | fault _ _ => exact Or.inl hrun
  | wakeup _ => simp [Proc.ready] at hrun
  | kill _ _ _ => exact Or.inl hrun
  | killAsleep _ _ _ => simp [Proc.ready] at hrun
  | yield _ _ => simp [Proc.park] at hrun
  | sleep _ _ _ _ _ _ => simp [Proc.park] at hrun
  | exit hpc hproc => simp [exitTable_self (h.exiting hpc hproc).1] at hrun
  | handOver p hpc hproc hne =>
      rcases exitTable_state_cases (h.exiting hpc hproc).1 hne m.ptable with heq | ⟨_, heq⟩
      · exact Or.inl (heq ▸ hrun)
      · simp [heq] at hrun
  | reap _ _ _ _ _ => simp [Proc.reap] at hrun
  | alloc _ _ _ => simp [Proc.claim] at hrun
  | giveUp _ _ _ _ _ _ => simp at hrun
  | prepare _ _ _ _ _ _ _ => exact Or.inl hrun
  | inherit _ _ _ _ _ _ _ => exact Or.inl hrun
  | forked _ _ _ _ _ _ => simp [Proc.ready] at hrun

theorem Move.dispatched {p : Slot} (hmove : Move m c (.dispatch p) m') :
    (m.cpu c).pc = .scan ∧ (m.cpu c).proc = none ∧ minP m.ptable = some p ∧
      m' = ((m.setProc c (some p)).write p (m.ptable p).dispatch).goto c .switchIn := by
  cases hmove with
  | jump pc _ hjump => cases hjump
  | dispatch p hpc hproc hmin => exact ⟨hpc, hproc, hmin, rfl⟩

theorem Move.current (h : Sound m) (hmove : Move m c e m') (p : Slot)
    (hrun : (m'.ptable p).state = .running) : ∃ d, (m'.cpu d).proc = some p := by
  rcases (hmove.change p).running_inv h hrun with hbefore | rfl
  · obtain ⟨d, hd⟩ := h.current p hbefore
    by_cases hdc : d = c
    · subst hdc
      rcases hmove.proc_cases with hsame | ⟨q, _, _, hnone, _, _⟩ | ⟨hback, _⟩
      · exact ⟨d, hsame.trans hd⟩
      · simp [hnone] at hd
      · -- back in the scheduler the process is no longer `RUNNING`
        have hcpu := h.cpu d
        simp only [CpuSound, hback] at hcpu
        obtain ⟨q, hq, hparked⟩ := hcpu
        obtain rfl : q = p := Option.some.inj (hq.symm.trans hd)
        simp [Proc.Parked, hbefore] at hparked
    · exact ⟨d, (hmove.cpu_of_ne hdc) ▸ hd⟩
  · obtain ⟨_, _, _, rfl⟩ := hmove.dispatched
    exact ⟨c, by simp⟩

/-! ## Forks in progress -/

/-- A process at the start of a section that needs it is not in the middle of
`fork`. -/
theorem Sound.frame_none (h : Sound m) {p : Slot} {k : Section}
    (hpc : (m.cpu c).pc = .inside k) (hproc : (m.cpu c).proc = some p)
    (hyield : k ≠ .yield) (hwakeup : ∀ chan, k ≠ .wakeup chan) : m.frame p = none := by
  have hcpu := h.cpu c
  simp only [CpuSound, hpc, hproc] at hcpu
  cases k <;> simp_all [canEnter]

theorem Sound.child_not_forking (h : Sound m) {p : Slot} {f : ForkFrame}
    (hframe : m.frame p = some f) : m.frame f.child = none := by
  cases hchild : m.frame f.child with
  | none => rfl
  | some g =>
      have hstate := (h.forks.frame _ g hchild).1
      rw [(h.forks.frame p f hframe).2] at hstate
      simp at hstate

theorem Change.forking {q : Slot} {pr : Proc} {f : ForkFrame} (h : Sound m)
    (hch : Change m c q e pr) (hf : m.frame q = some f) :
    pr.state = .runnable ∨ pr.state = .running := by
  have hq := (h.forks.frame q f hf).1
  cases hch with
  | keep e he => exact hq
  | dispatch _ _ => exact Or.inr rfl
  | tidyUp _ _ => exact hq
  | fault _ _ => exact hq
  | wakeup _ => exact Or.inl rfl
  | kill _ _ _ => exact hq
  | killAsleep _ _ _ => exact Or.inl rfl
  | yield _ _ => exact Or.inl rfl
  | sleep k _ _ hpc hproc hk =>
      have hnone := h.frame_none hpc hproc (by rintro rfl; simp at hk) (by rintro _ rfl; simp at hk)
      simp [hf] at hnone
  | exit hpc hproc =>
      have hnone := (h.exiting hpc hproc).2
      simp [hf] at hnone
  | handOver p hpc hproc hne =>
      rcases exitTable_state_cases (h.exiting hpc hproc).1 hne m.ptable with heq | ⟨_, heq⟩
      · rwa [heq]
      · exact Or.inl heq
  | reap _ _ _ _ hzombie => simp [hzombie] at hq
  | alloc _ _ hunused => simp [hunused] at hq
  | giveUp p g _ hframe hchild _ => simp [← hchild, (h.forks.frame p g hframe).2] at hq
  | prepare _ _ _ _ _ _ _ => exact hq
  | inherit _ _ _ _ _ _ _ => exact hq
  | forked _ _ _ _ _ _ => exact Or.inl rfl

theorem Change.context {q : Slot} {pr : Proc} (h : Sound m) (hch : Change m c q e pr)
    (hstate : pr.state = .runnable ∨ pr.state = .sleeping) (hyield : pr.context ≠ .yield) :
    m.frame q = none := by
  cases hch with
  | keep e he => exact h.forks.context q hstate hyield
  | dispatch _ _ => simp [Proc.dispatch] at hstate
  | tidyUp _ _ => exact h.forks.context q hstate hyield
  | fault _ _ => exact h.forks.context q hstate hyield
  | wakeup hsleep => exact h.forks.context q (Or.inr hsleep) hyield
  | kill _ _ _ => exact h.forks.context q hstate hyield
  | killAsleep _ _ hsleep => exact h.forks.context q (Or.inr hsleep) hyield
  | yield _ _ => simp [Proc.park] at hyield
  | sleep k _ _ hpc hproc hk =>
      exact h.frame_none hpc hproc (by rintro rfl; simp at hk) (by rintro _ rfl; simp at hk)
  | exit hpc hproc => exact (h.exiting hpc hproc).2
  | handOver p hpc hproc hne =>
      have hinit := (h.exiting hpc hproc).1
      have hcontext : (exitTable m.initproc p m.ptable q).context = (m.ptable q).context := by
        rw [exitTable_of_ne hinit hne]
      rw [hcontext] at hyield
      rcases exitTable_state_cases hinit hne m.ptable with heq | ⟨hsleep, _⟩
      · exact h.forks.context q (heq ▸ hstate) hyield
      · exact h.forks.context q (Or.inr hsleep) hyield
  | reap _ _ _ _ _ => simp [Proc.reap] at hstate
  | alloc _ _ _ => simp [Proc.claim] at hstate
  | giveUp _ _ _ _ _ _ => simp at hstate
  | prepare p f _ _ hframe hchild _ => exact hchild ▸ h.child_not_forking hframe
  | inherit p f _ _ hframe hchild _ => exact hchild ▸ h.child_not_forking hframe
  | forked p f _ hframe hchild _ => exact hchild ▸ h.child_not_forking hframe

theorem Change.embryo_iff {q : Slot} {pr : Proc} (h : Sound m) (hch : Change m c q e pr)
    (halloc : ∀ p pid, e ≠ .alloc p q pid) (hfailed : ∀ p, e ≠ .forkFailed p)
    (hforked : ∀ p pid, e ≠ .forked p q pid) :
    pr.state = .embryo ↔ (m.ptable q).state = .embryo := by
  cases hch with
  | keep e he => exact Iff.rfl
  | dispatch _ hmin => simp [Proc.dispatch, (minP_runnable hmin).1]
  | tidyUp _ _ => exact Iff.rfl
  | fault _ _ => exact Iff.rfl
  | wakeup hsleep => simp [Proc.ready, hsleep]
  | kill _ _ _ => exact Iff.rfl
  | killAsleep _ _ hsleep => simp [Proc.ready, hsleep]
  | yield hpc hproc =>
      have hrun := h.running hproc (by simp [hpc]) (by simp [hpc])
      simp [Proc.park, hrun]
  | sleep k _ _ hpc hproc hk =>
      have hrun := h.running hproc (by simp [hpc]) (by simp [hpc])
      simp [Proc.park, hrun]
  | exit hpc hproc =>
      have hrun := h.running hproc (by simp [hpc]) (by simp [hpc])
      simp [exitTable_self (h.exiting hpc hproc).1, hrun]
  | handOver p hpc hproc hne =>
      rcases exitTable_state_cases (h.exiting hpc hproc).1 hne m.ptable with heq | ⟨hsleep, heq⟩
      · rw [heq]
      · simp [heq, hsleep]
  | reap _ _ _ _ hzombie => simp [Proc.reap, hzombie]
  | alloc p _ _ => exact absurd rfl (halloc p m.nextpid)
  | giveUp p _ _ _ _ _ => exact absurd rfl (hfailed p)
  | prepare _ _ _ _ _ _ _ => exact Iff.rfl
  | inherit _ _ _ _ _ _ _ => exact Iff.rfl
  | forked p _ _ _ _ _ => exact absurd rfl (hforked p _)

/-- A step that neither starts nor ends a fork. -/
theorem Sound.forks_of_same (h : Sound m) (hch : ∀ q, Change m c q e (m'.ptable q))
    (hframe : m'.frame = m.frame)
    (hembryo : ∀ q, (m'.ptable q).state = .embryo ↔ (m.ptable q).state = .embryo) :
    Forks m'.ptable m'.frame where
  frame p f hf := by
    rw [hframe] at hf
    exact ⟨(hch p).forking h hf, (hembryo f.child).mpr (h.forks.frame p f hf).2⟩
  child p q f g hf hg := by
    rw [hframe] at hf hg
    exact h.forks.child p q f g hf hg
  embryo q hq := by
    rw [hframe]
    exact h.forks.embryo q ((hembryo q).mp hq)
  context p hstate hyield := by
    rw [hframe]
    exact (hch p).context h hstate hyield

/-- A step in which a fork goes on to its next phase. -/
theorem Sound.forks_of_phase (h : Sound m) (hch : ∀ q, Change m c q e (m'.ptable q))
    {p : Slot} {f g : ForkFrame} (hf : m.frame p = some f) (hchild : g.child = f.child)
    (hframe : m'.frame = Function.update m.frame p (some g))
    (hrun : (m'.ptable p).state = .running)
    (hembryo : ∀ q, (m'.ptable q).state = .embryo ↔ (m.ptable q).state = .embryo) :
    Forks m'.ptable m'.frame := by
  -- a frame after the step has the child of the frame before it
  have hback : ∀ r x, m'.frame r = some x → ∃ y, m.frame r = some y ∧ y.child = x.child := by
    intro r x hx
    rw [hframe] at hx
    by_cases hr : r = p
    · subst hr
      obtain rfl : g = x := by simpa using hx
      exact ⟨f, hf, hchild.symm⟩
    · exact ⟨x, by simpa [hr] using hx, rfl⟩
  constructor
  · intro r x hx
    obtain ⟨y, hy, hyx⟩ := hback r x hx
    exact ⟨(hch r).forking h hy, (hembryo _).mpr (hyx ▸ (h.forks.frame r y hy).2)⟩
  · intro r s x y hx hy hxy
    obtain ⟨x', hx', hxc⟩ := hback r x hx
    obtain ⟨y', hy', hyc⟩ := hback s y hy
    exact h.forks.child r s x' y' hx' hy' (by rw [hxc, hyc, hxy])
  · intro q hq
    obtain ⟨r, x, hx, hxq⟩ := h.forks.embryo q ((hembryo q).mp hq)
    rw [hframe]
    by_cases hr : r = p
    · subst hr
      obtain rfl : f = x := Option.some.inj (hf.symm.trans hx)
      exact ⟨r, g, by simp, hchild.trans hxq⟩
    · exact ⟨r, x, by simpa [hr] using hx, hxq⟩
  · intro r hstate hyield
    by_cases hr : r = p
    · subst hr
      simp [hrun] at hstate
    · rw [hframe, Function.update_of_ne hr]
      exact (hch r).context h hstate hyield

/-- A step in which a fork ends, with or without success. -/
theorem Sound.forks_of_end (h : Sound m) (hch : ∀ q, Change m c q e (m'.ptable q))
    {p : Slot} {f : ForkFrame} (hf : m.frame p = some f)
    (hframe : m'.frame = Function.update m.frame p none)
    (hchild : (m'.ptable f.child).state ≠ .embryo)
    (hembryo : ∀ q, q ≠ f.child →
      ((m'.ptable q).state = .embryo ↔ (m.ptable q).state = .embryo)) :
    Forks m'.ptable m'.frame := by
  have hback : ∀ r x, m'.frame r = some x → r ≠ p ∧ m.frame r = some x := by
    intro r x hx
    rw [hframe] at hx
    by_cases hr : r = p
    · simp [hr] at hx
    · exact ⟨hr, by simpa [hr] using hx⟩
  constructor
  · intro r x hx
    obtain ⟨hr, hx⟩ := hback r x hx
    have hne : x.child ≠ f.child := fun hxf => hr (h.forks.child r p x f hx hf hxf)
    exact ⟨(hch r).forking h hx, (hembryo _ hne).mpr (h.forks.frame r x hx).2⟩
  · intro r s x y hx hy
    exact h.forks.child r s x y (hback r x hx).2 (hback s y hy).2
  · intro q hq
    have hne : q ≠ f.child := fun hqf => hchild (hqf ▸ hq)
    obtain ⟨r, x, hx, hxq⟩ := h.forks.embryo q ((hembryo q hne).mp hq)
    have hr : r ≠ p := by
      rintro rfl
      obtain rfl : f = x := Option.some.inj (hf.symm.trans hx)
      exact hne hxq.symm
    exact ⟨r, x, by rw [hframe, Function.update_of_ne hr, hx], hxq⟩
  · intro r hstate hyield
    rw [hframe]
    by_cases hr : r = p
    · simp [hr]
    · rw [Function.update_of_ne hr]
      exact (hch r).context h hstate hyield

theorem Move.forks (h : Sound m) (hmove : Move m c e m') : Forks m'.ptable m'.frame := by
  have hch := hmove.change
  cases hmove with
  | jump pc e hjump => exact h.forks
  | lock _ _ _ => exact h.forks
  | enter _ _ _ => exact h.forks
  | leave _ => exact h.forks
  | unlock _ _ => exact h.forks
  | clear _ _ _ => exact h.forks
  | alloc p q tickets hpc hproc hunused =>
      have hrun := h.running hproc (by simp [hpc]) (by simp [hpc])
      have hne : p ≠ q := by rintro rfl; simp [hrun] at hunused
      have hnone : m.frame p = none := h.frame_none hpc hproc (by simp) (by simp)
      constructor
      · intro r x hx
        by_cases hr : r = p
        · subst hr
          obtain rfl : (⟨q, tickets, .stack⟩ : ForkFrame) = x := by simpa using hx
          simp [hne, hrun, Proc.claim]
        · have hx' : m.frame r = some x := by simpa [hr] using hx
          have hxq : x.child ≠ q := by
            intro hxq
            have hembryo := (h.forks.frame r x hx').2
            simp [hxq, hunused] at hembryo
          exact ⟨(hch r).forking h hx', by simpa [hxq] using (h.forks.frame r x hx').2⟩
      · -- an older fork does not fill the entry that was `UNUSED`
        have hold : ∀ r x, r ≠ p → m.frame r = some x → x.child ≠ q := by
          intro r x _ hx hxq
          have hembryo := (h.forks.frame r x hx).2
          simp [hxq, hunused] at hembryo
        intro r s x y hx hy hxy
        by_cases hr : r = p <;> by_cases hs : s = p
        · rw [hr, hs]
        · have hy' : m.frame s = some y := by simpa [hs] using hy
          have hxq : q = x.child := by simpa [hr] using congrArg (Option.map ForkFrame.child) hx
          exact absurd (hxy.symm.trans hxq.symm) (hold s y hs hy')
        · have hx' : m.frame r = some x := by simpa [hr] using hx
          have hyq : q = y.child := by simpa [hs] using congrArg (Option.map ForkFrame.child) hy
          exact absurd (hxy.trans hyq.symm) (hold r x hr hx')
        · exact h.forks.child r s x y (by simpa [hr] using hx) (by simpa [hs] using hy) hxy
      · intro s hs
        by_cases hsq : s = q
        · exact ⟨p, ⟨q, tickets, .stack⟩, by simp, hsq.symm⟩
        · obtain ⟨r, x, hx, hxs⟩ := h.forks.embryo s (by simpa [hsq] using hs)
          have hr : r ≠ p := by rintro rfl; simp [hnone] at hx
          exact ⟨r, x, by simpa [hr] using hx, hxs⟩
      · intro r hstate hyield
        by_cases hr : r = p
        · subst hr
          simp [hne, hrun] at hstate
        · have := (hch r).context h hstate hyield
          simpa [hr] using this
  | giveUp p f hpc hproc hframe hphase =>
      refine h.forks_of_end hch hframe rfl (by simp) ?_
      intro q hq
      simp [hq]
  | forked p f hpc hproc hframe hphase =>
      refine h.forks_of_end hch hframe rfl (by simp [Proc.ready]) ?_
      intro q hq
      simp [hq]
  | prepare p f kstack hpc hproc hframe hphase =>
      have hrun := h.running hproc (by simp [hpc]) (by simp [hpc])
      have hembryo := (h.forks.frame p f hframe).2
      have hne : p ≠ f.child := by intro hp; simp [← hp, hrun] at hembryo
      refine h.forks_of_phase (g := { f with phase := .memory }) hch hframe rfl rfl
        (by simp [hne, hrun]) ?_
      intro q
      by_cases hq : q = f.child
      · simp [hq, hembryo, Proc.prepare]
      · simp [hq]
  | inherit p f pgdir hpc hproc hframe hphase =>
      have hrun := h.running hproc (by simp [hpc]) (by simp [hpc])
      have hembryo := (h.forks.frame p f hframe).2
      have hne : p ≠ f.child := by intro hp; simp [← hp, hrun] at hembryo
      refine h.forks_of_phase (g := { f with phase := .files }) hch hframe rfl rfl
        (by simp [hne, hrun]) ?_
      intro q
      by_cases hq : q = f.child
      · simp [hq, hembryo, Proc.inherit]
      · simp [hq]
  | _ =>
      refine h.forks_of_same hch rfl fun q => (hch q).embryo_iff h ?_ ?_ ?_ <;> simp

/-- Every step keeps the invariant. -/
theorem Move.sound (h : Sound m) (hmove : Move m c e m') : Sound m' where
  holds := hmove.holds h
  cpu d := by
    by_cases hd : d = c
    · exact hd ▸ hmove.cpuSound_self h
    · exact hmove.cpuSound_of_ne h hd
  unique := hmove.unique h
  current := hmove.current h
  forks := hmove.forks h

theorem boot_sound (n : ℕ) (kstack pgdir : Page) : Sound (boot n kstack pgdir) := by
  have hstate : ∀ p, ((boot n kstack pgdir).ptable p).state = .unused ∨
      ((boot n kstack pgdir).ptable p).state = .runnable := by
    intro p
    by_cases hp : p = 0
    · subst hp
      exact Or.inr rfl
    · exact Or.inl (by simp [boot, userinit, hp, Proc.zero])
  constructor
  · intro c
    simp [boot, Pc.holds]
  · intro c
    simp [CpuSound, boot]
  · intro c d p hc
    simp [boot] at hc
  · intro p hp
    rcases hstate p with h | h <;> simp [h] at hp
  · constructor
    · intro p f hf
      simp [boot] at hf
    · intro p q f g hf
      simp [boot] at hf
    · intro q hq
      rcases hstate q with h | h <;> simp [h] at hq
    · intro p _ _
      rfl

theorem Steps.sound (h : Sound m) (hstep : Steps m e m') : Sound m' := by
  obtain ⟨c, a, hstep⟩ := hstep
  exact (step_move hstep).sound h

/-- The invariant holds of every state the machine can reach. -/
theorem Reachable.sound (h : Reachable m) : Sound m := by
  obtain ⟨kstack, pgdir, es, hrun⟩ := h
  exact hrun.invariant (fun _ _ _ _ _ hx hstep => hstep.sound hx) (boot_sound n kstack pgdir)

/-! ## A process runs on at most one processor -/

/-- While the lock is free the current process of a processor is `RUNNING`. -/
theorem Sound.running_of_free (h : Sound m) (hfree : m.lock = none) {p : Slot}
    (hproc : (m.cpu c).proc = some p) : (m.ptable p).state = .running := by
  refine h.running hproc ?_ ?_
  · intro hpc
    exact absurd (h.lock_of_holds hpc rfl) (by simp [hfree])
  · intro hpc
    exact absurd (h.lock_of_holds hpc rfl) (by simp [hfree])

/-- A `ZOMBIE` that another process can see in its section has left its
processor. -/
theorem Sound.not_current_of_zombie (h : Sound m) {k : Section}
    (hpc : (m.cpu c).pc = .inside k) {q : Slot} (hzombie : (m.ptable q).state = .zombie)
    (d : Fin n) : (m.cpu d).proc ≠ some q := by
  intro hproc
  have hlock := h.lock_of_holds hpc rfl
  have hsame : ∀ pc, (m.cpu d).pc = pc → pc.holds = true → c = d :=
    fun pc hd hholds => Option.some.inj (hlock.symm.trans (h.lock_of_holds hd hholds))
  have hrun : (m.ptable q).state = .running := by
    refine h.running hproc ?_ ?_
    · intro hd
      obtain rfl := hsame _ hd rfl
      simp [hpc] at hd
    · intro hd
      obtain rfl := hsame _ hd rfl
      simp [hpc] at hd
  simp [hrun] at hzombie

/-- In every reachable state in which `ptable.lock` is free, a process is
`RUNNING` exactly if it is the current process of exactly one processor, and the
current process of a processor is `RUNNING`; and `wait` never frees the stack and
page table of a process that is current on some processor. -/
theorem runs_on_one_cpu {n : ℕ} {m : Machine n} (h : Reachable m) :
    (m.lock = none →
      (∀ p, (m.ptable p).state = .running ↔ ∃! c, (m.cpu c).proc = some p) ∧
        ∀ c p, (m.cpu c).proc = some p → (m.ptable p).state = .running) ∧
      ∀ c a p q pid m', m.step c a = some (m', .reaped p q pid) →
        ∀ d, (m.cpu d).proc ≠ some q := by
  have hsound := h.sound
  constructor
  · intro hfree
    constructor
    · intro p
      constructor
      · intro hrun
        obtain ⟨c, hc⟩ := hsound.current p hrun
        exact ⟨c, hc, fun d hd => hsound.unique d c p hd hc⟩
      · rintro ⟨c, hc, _⟩
        exact hsound.running_of_free hfree hc
    · intro c p hc
      exact hsound.running_of_free hfree hc
  · intro c a p q pid m' hstep d
    cases step_move hstep with
    | jump pc _ hjump => cases hjump
    | reap _ _ hpc hproc hparent hzombie => exact hsound.not_current_of_zombie hpc hzombie d

/-- Two processors, the first of which has dispatched the first process. -/
theorem runs_on_one_cpu_dispatched :
    ∃ m : Machine 2, Reachable m ∧ m.lock = none ∧ (m.cpu 0).proc = some 0 ∧
      ∃! c, (m.cpu c).proc = some 0 := by
  obtain ⟨m, hm, hP⟩ := exists_reachable (n := 2) 0 1 (List.replicate 5 (0, .go))
    (fun m => decide (m.lock = none ∧ (m.cpu 0).proc = some 0)) (by decide +kernel)
  obtain ⟨hfree, hproc⟩ : m.lock = none ∧ (m.cpu 0).proc = some 0 := by simpa using hP
  obtain ⟨hiff, hrun⟩ := (runs_on_one_cpu hm).1 hfree
  exact ⟨m, hm, hfree, hproc, (hiff 0).mp (hrun 0 0 hproc)⟩

end Machine

end Xv6
