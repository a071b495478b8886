import Xv6.Lock.Machine

/-!
# Interrupts and nested locks

`pushcli` and `popcli` keep their count in the processor, and with it whether interrupts
were enabled before.  The count is one of the thread that runs, and survives a switch
because both sides of it hold `ptable.lock` and nothing else; the flag is one of the
process, and `sched` carries it over the switch in a variable of its own.
-/

namespace Xv6

namespace Lock

open State Support

variable {n : ℕ} {s : State n} {c : Fin n} {x x' : Cpu} {th th' : Thread} {lk : LockId}
  {L L' : LockId → Spinlock n} {p : ℕ} {e : Option LockId}

/-! ## The invariant -/

/-- A processor and the locks agree with the thread that runs. -/
structure Agrees (L : LockId → Spinlock n) (c : Fin n) (x : Cpu) (th : Thread) : Prop where
  ncli : x.ncli = th.depth
  off : 0 < th.depth → x.flag = false
  holds : ∀ lk, some lk ∈ th.held → L lk = ⟨true, some c⟩
  once : ∀ lk, th.held.count (some lk) ≤ 1
  waits : ∀ lk, th.spin = some lk → some lk ∉ th.held
  /-- Nothing is interrupted inside `acquire` and `release`. -/
  frames : ∀ f ∈ th.frames, f.1 = 0

/-- What the scheduler of a processor holds. -/
structure Loop (pc : Pc) (th : Thread) : Prop where
  top : pc = .top → th.frames = [] → th.depth = 0
  lock : pc = .lock → th.frames = [] → th.held = [] ∧ ∀ lk, th.spin = some lk → lk = .ptable
  scan : pc = .scan → th.frames = [] ∧ th.held = [some .ptable] ∧ th.spin = none

/-- A processor has the flag of the process that runs. -/
structure Owns (x : Cpu) (th : Thread) : Prop where
  user : th.frames = [] → th.depth = 0
  intena : 0 < th.depth → ∀ b, th.outer = some b → x.intena = b

/-- A process that has to continue after `swtch`. -/
structure Parked (q : Process) (th : Thread) : Prop where
  held : th.held = [some .ptable]
  spin : th.spin = none
  entered : th.frames ≠ []
  frames : ∀ f ∈ th.frames, f.1 = 0
  saved : q.place = .sched → ∀ b, th.outer = some b → q.intena = b
  fresh : q.place = .forkret → th.outer = none

/-- The invariant of the machine. -/
structure Sound (s : State n) : Prop where
  agrees : ∀ c, Agrees s.lock c (s.cpu c) (s.thread (s.current c))
  loop : ∀ c, Loop (s.cpu c).pc (s.thread (.scheduler c))
  away : ∀ c p, (s.cpu c).proc = some p → (s.cpu c).pc = .scan
  running : ∀ c p, (s.cpu c).proc = some p → (s.process p).state = .running
  alone : ∀ c c' p, (s.cpu c).proc = some p → (s.cpu c').proc = some p → c = c'
  owns : ∀ c p, (s.cpu c).proc = some p → (s.process p).place = .gone →
    Owns (s.cpu c) (s.thread (.process p))
  parked : ∀ p, (s.process p).state ≠ .unused → (s.process p).place ≠ .gone →
    Parked (s.process p) (s.thread (.process p))
  onCpu : ∀ p, (s.process p).state ≠ .unused → (s.process p).place = .gone →
    ∃ c, (s.cpu c).proc = some p

theorem sound_boot : Sound (boot n) where
  agrees c := by
    constructor <;> simp [boot, current, Thread.depth]
  loop c := by
    constructor <;> simp [boot, Thread.depth]
  away c p h := by simp [boot] at h
  running c p h := by simp [boot] at h
  alone c c' p h := by simp [boot] at h
  owns c p h := by simp [boot] at h
  parked p h := by simp [boot] at h
  onCpu p h := by simp [boot] at h

/-! ## Who runs -/

theorem current_none (h : (s.cpu c).proc = none) : s.current c = .scheduler c := by
  simp [current, h]

theorem current_some (h : (s.cpu c).proc = some p) : s.current c = .process p := by
  simp [current, h]

theorem current_eq_process : s.current c = .process p ↔ (s.cpu c).proc = some p := by
  cases h : (s.cpu c).proc <;> simp [current, h]

theorem current_eq_scheduler {c' : Fin n} :
    s.current c = .scheduler c' ↔ (s.cpu c).proc = none ∧ c = c' := by
  cases h : (s.cpu c).proc <;> simp [current, h]

/-- No thread runs on two processors. -/
theorem Sound.current_inj (hs : Sound s) {c' : Fin n} (h : s.current c = s.current c') :
    c = c' := by
  cases hproc : (s.cpu c').proc with
  | none =>
      rw [current_none hproc] at h
      exact (current_eq_scheduler.mp h).2
  | some p =>
      rw [current_some hproc] at h
      exact hs.alone c c' p (current_eq_process.mp h) hproc

theorem Sound.not_unused (hs : Sound s) (h : (s.cpu c).proc = some p) :
    (s.process p).state ≠ .unused := by
  rw [hs.running c p h]
  decide

/-- A process that runs and does not hold `ptable.lock` alone has continued. -/
theorem Sound.gone (hs : Sound s) (h : (s.cpu c).proc = some p)
    (hth : ¬ ((s.thread (s.current c)).held = [some .ptable] ∧
      (s.thread (s.current c)).spin = none ∧ (s.thread (s.current c)).frames ≠ [])) :
    (s.process p).place = .gone := by
  by_contra hplace
  have hparked := hs.parked p (hs.not_unused h) hplace
  rw [current_some h] at hth
  exact hth ⟨hparked.held, hparked.spin, hparked.entered⟩

/-! ## Steps that change one thread -/

/-- The state in which processor `c`, the thread that it runs, and the locks have changed. -/
def changed (s : State n) (c : Fin n) (L : LockId → Spinlock n) (x : Cpu) (th : Thread) :
    State n :=
  { s with
    lock := L
    cpu := Function.update s.cpu c x
    thread := Function.update s.thread (s.current c) th }

/-- Such a change, if it keeps the invariant. -/
structure Change (s : State n) (c : Fin n) (L : LockId → Spinlock n) (x : Cpu) (th : Thread) :
    Prop where
  proc : x.proc = (s.cpu c).proc
  lock : ∀ lk c', c' ≠ c → s.lock lk = ⟨true, some c'⟩ → L lk = ⟨true, some c'⟩
  agrees : Agrees L c x th
  loop : x.proc = none → Loop x.pc th
  owns : ∀ p, x.proc = some p →
    (s.process p).place = .gone ∧ x.pc = (s.cpu c).pc ∧ Owns x th

section Change

variable (h : Change s c L x th)
include h

theorem Change.cpu_proc (c' : Fin n) :
    ((changed s c L x th).cpu c').proc = (s.cpu c').proc := by
  by_cases hc : c' = c
  · subst hc
    simp [changed, h.proc]
  · simp [changed, hc]

theorem Change.current (c' : Fin n) : (changed s c L x th).current c' = s.current c' := by
  simp [State.current, h.cpu_proc]

theorem Change.agrees_all (hs : Sound s) (c' : Fin n) :
    Agrees L c' ((changed s c L x th).cpu c')
      ((changed s c L x th).thread (s.current c')) := by
  by_cases hc : c' = c
  · subst hc
    simpa [changed] using h.agrees
  · have hne : s.current c' ≠ s.current c := fun heq => hc (hs.current_inj heq)
    have hagrees := hs.agrees c'
    simp only [changed, Function.update_of_ne hc, Function.update_of_ne hne]
    exact { hagrees with holds := fun lk hlk => h.lock lk c' hc (hagrees.holds lk hlk) }

theorem Change.loop_all (hs : Sound s) (c' : Fin n) :
    Loop ((changed s c L x th).cpu c').pc ((changed s c L x th).thread (.scheduler c')) := by
  by_cases hc : c' = c
  · subst hc
    cases hproc : x.proc with
    | none =>
        have hcurrent := current_none (h.proc ▸ hproc)
        simpa [changed, hcurrent] using h.loop hproc
    | some p =>
        have hcurrent := current_some (h.proc ▸ hproc)
        simpa [changed, hcurrent, (h.owns p hproc).2.1] using hs.loop c'
  · have hne : ThreadId.scheduler c' ≠ s.current c :=
      fun heq => hc (current_eq_scheduler.mp heq.symm).2.symm
    simpa [changed, hc, hne] using hs.loop c'

theorem Change.sound (hs : Sound s) : Sound (changed s c L x th) where
  agrees c' := by
    rw [h.current]
    exact h.agrees_all hs c'
  loop := h.loop_all hs
  away c' p hp := by
    rw [h.cpu_proc] at hp
    by_cases hc : c' = c
    · subst hc
      simpa [changed, (h.owns p (h.proc ▸ hp)).2.1] using hs.away c' p hp
    · simpa [changed, hc] using hs.away c' p hp
  running c' p hp := hs.running c' p (h.cpu_proc c' ▸ hp)
  alone c₁ c₂ p h₁ h₂ := hs.alone c₁ c₂ p (h.cpu_proc c₁ ▸ h₁) (h.cpu_proc c₂ ▸ h₂)
  owns c' p hp hplace := by
    rw [h.cpu_proc] at hp
    by_cases hc : c' = c
    · subst hc
      simpa [changed, current_some hp] using (h.owns p (h.proc ▸ hp)).2.2
    · have hne : ThreadId.process p ≠ s.current c :=
        fun heq => hc (hs.alone c' c p hp (current_eq_process.mp heq.symm))
      simpa [changed, hc, hne] using hs.owns c' p hp hplace
  parked p hstate hplace := by
    have hne : ThreadId.process p ≠ s.current c := fun heq =>
      hplace (h.owns p (h.proc.trans (current_eq_process.mp heq.symm))).1
    simpa [changed, hne] using hs.parked p hstate hplace
  onCpu p hstate hplace := by
    obtain ⟨c', hc'⟩ := hs.onCpu p hstate hplace
    exact ⟨c', (h.cpu_proc c').trans hc'⟩

end Change

/-! ## Nesting -/

theorem depth_eq_zero : th.depth = 0 ↔ th.held = [] ∧ th.spin = none := by
  cases h : th.spin <;> simp [Thread.depth, h]

theorem depth_of_parked (hheld : th.held = [some .ptable]) (hspin : th.spin = none) :
    th.depth = 1 := by
  simp [Thread.depth, hheld, hspin]

theorem Agrees.interruptible (h : Agrees L c x th) (hflag : x.flag = true) : th.depth = 0 := by
  by_contra hdepth
  have hoff := h.off (Nat.pos_of_ne_zero hdepth)
  simp [hflag] at hoff

theorem Agrees.holding (h : Agrees s.lock c x th) (hlk : some lk ∈ th.held) :
    s.holding c lk = true := by
  simp [State.holding, h.holds lk hlk]

/-- One more level, for a lock to wait for. -/
theorem Agrees.acquire (h : Agrees s.lock c x th) (hspin : th.spin = none)
    (hlk : s.holding c lk = false) (outer : Option Bool) :
    Agrees s.lock c (cpuPushcli x) { th with outer, spin := some lk } where
  ncli := by
    simp [cpuPushcli, h.ncli, Thread.depth, hspin]
  off _ := rfl
  holds := h.holds
  once := h.once
  waits lk' hlk' := by
    obtain rfl := Option.some.inj hlk'
    intro hmem
    rw [h.holding hmem] at hlk
    exact Bool.noConfusion hlk
  frames := h.frames

/-- One more level, for no lock. -/
theorem Agrees.pushcli (h : Agrees L c x th) (hspin : th.spin = none) (outer : Option Bool) :
    Agrees L c (cpuPushcli x) { th with outer, held := none :: th.held } where
  ncli := by
    simp [cpuPushcli, h.ncli, Thread.depth, hspin]
  off _ := rfl
  holds lk hlk := h.holds lk (by simpa using hlk)
  once lk := by simpa using h.once lk
  waits lk hlk := by simp [hspin] at hlk
  frames := h.frames

/-- The wait for a lock is over. -/
theorem Agrees.take (h : Agrees L c x th) (hspin : th.spin = some lk) :
    Agrees (Function.update L lk ⟨true, some c⟩) c x
      { th with spin := none, held := some lk :: th.held } where
  ncli := by
    simp [h.ncli, Thread.depth, hspin]
  off _ := h.off (by simp [Thread.depth, hspin])
  holds lk' hlk' := by
    by_cases heq : lk' = lk
    · simp [heq]
    · have hmem : some lk' ∈ th.held := by simpa [heq] using hlk'
      simpa [heq] using h.holds lk' hmem
  once lk' := by
    by_cases heq : lk' = lk
    · subst heq
      simp [List.count_eq_zero_of_not_mem (h.waits lk' hspin)]
    · have hne : ¬ lk = lk' := fun h' => heq h'.symm
      simpa [List.count_cons, hne] using h.once lk'
  waits lk' hlk' := by simp at hlk'
  frames := h.frames

/-- The locks without one that is released. -/
def freed (L : LockId → Spinlock n) : Option LockId → LockId → Spinlock n
  | some lk => Function.update L lk ⟨false, none⟩
  | none => L

/-- A processor after `popcli`. -/
def popped (x : Cpu) : Cpu :=
  { x with ncli := x.ncli - 1, flag := x.ncli - 1 = 0 && x.intena }

theorem freed_of_ne {lk' : LockId} (h : e ≠ some lk') : freed L e lk' = L lk' := by
  cases e with
  | none => rfl
  | some lk =>
      have hne : lk' ≠ lk := fun heq => h (congrArg some heq.symm)
      exact Function.update_of_ne hne _ _

theorem Agrees.depth_erase (hspin : th.spin = none) (hmem : e ∈ th.held) :
    Thread.depth { th with held := th.held.erase e } + 1 = th.depth := by
  have hpos := List.length_pos_of_mem hmem
  simp only [Thread.depth, hspin, List.length_erase_of_mem hmem, Option.toList_none,
    List.length_nil]
  omega

/-- One level less. -/
theorem Agrees.popcli (h : Agrees L c x th) (hspin : th.spin = none) (hmem : e ∈ th.held) :
    Agrees (freed L e) c (popped x) { th with held := th.held.erase e } where
  ncli := by
    have hdepth := Agrees.depth_erase hspin hmem
    simp only [popped, h.ncli]
    omega
  off hpos := by
    have hdepth := Agrees.depth_erase hspin hmem
    have hne : ¬ (th.depth : ℤ) - 1 = 0 := by omega
    simp [popped, h.ncli, hne]
  holds lk hlk := by
    have hheld : some lk ∈ th.held := List.mem_of_mem_erase hlk
    have hne : e ≠ some lk := by
      rintro rfl
      have hcount := List.count_pos_iff.mpr hlk
      have honce := h.once lk
      rw [List.count_erase_self] at hcount
      omega
    rw [freed_of_ne hne]
    exact h.holds lk hheld
  once lk := (List.Sublist.count_le _ List.erase_sublist).trans (h.once lk)
  waits lk hlk := by simp [hspin] at hlk
  frames := h.frames

/-- `popcli` does not panic in a thread that is inside `pushcli`. -/
theorem Agrees.cpuPopcli (h : Agrees L c x th) (hmem : e ∈ th.held) :
    State.cpuPopcli x = .ok (popped x) := by
  have hpos := List.length_pos_of_mem hmem
  have hdepth : 0 < th.depth := by
    simp only [Thread.depth]
    omega
  have hncli : ¬ x.ncli - 1 < 0 := by
    have := h.ncli
    omega
  simp [State.cpuPopcli, h.off hdepth, hncli, popped]

/-! ## Code that is free to use locks -/

theorem Loop.handler {pc : Pc} (h : Loop pc th) (hth : th.frames ≠ [])
    (hth' : th'.frames ≠ []) : Loop pc th' where
  top _ hframes := absurd hframes hth'
  lock _ hframes := absurd hframes hth'
  scan hpc := absurd (h.scan hpc).1 hth

/-- Code of a process or of a handler may run. -/
structure Free (s : State n) (c : Fin n) : Prop where
  spin : (s.thread (s.current c)).spin = none
  entered : (s.thread (s.current c)).frames ≠ []
  gone : ∀ p, (s.cpu c).proc = some p → (s.process p).place = .gone

theorem free_iff : s.free c = true ↔ Free s c := by
  constructor
  · intro h
    simp only [State.free, Bool.and_eq_true, Option.isNone_iff_eq_none, Bool.not_eq_true',
      List.isEmpty_eq_false_iff] at h
    refine ⟨h.1.1, h.1.2, fun p hp => ?_⟩
    simpa [hp] using h.2
  · intro h
    cases hproc : (s.cpu c).proc with
    | none => simp [State.free, h.spin, h.entered, hproc]
    | some p => simp [State.free, h.spin, h.entered, hproc, h.gone p hproc]

/-- Free code changes its thread; it stays on its processor. -/
theorem Free.change (h : Free s c) (hs : Sound s) (hagrees : Agrees L c x th)
    (hproc : x.proc = (s.cpu c).proc) (hpc : x.pc = (s.cpu c).pc)
    (hframes : th.frames = (s.thread (s.current c)).frames)
    (hlock : ∀ lk c', c' ≠ c → s.lock lk = ⟨true, some c'⟩ → L lk = ⟨true, some c'⟩)
    (hintena : 0 < th.depth → ∀ b, th.outer = some b →
      Owns (s.cpu c) (s.thread (s.current c)) → x.intena = b) :
    Change s c L x th where
  proc := hproc
  lock := hlock
  agrees := hagrees
  loop hnone := by
    have hloop := hs.loop c
    rw [← current_none (hproc ▸ hnone)] at hloop
    rw [hpc]
    exact hloop.handler h.entered (hframes ▸ h.entered)
  owns p hp := by
    have hp' := hproc ▸ hp
    have howns := hs.owns c p hp' (h.gone p hp')
    rw [← current_some hp'] at howns
    refine ⟨h.gone p hp', hpc, fun hnil => ?_, fun hdepth b hb => hintena hdepth b hb howns⟩
    exact absurd (hframes.symm.trans hnil) h.entered

/-! ## The steps -/

/-- A step that keeps the invariant, or the panic of a thread that waits for itself. -/
def Fine : Except Panic (State n) → Prop
  | .ok s' => Sound s'
  | .error e => e = .acquire

/-- What a thread knows of its outermost `pushcli` after one more. -/
def outermost (x : Cpu) (th : Thread) : Option Bool :=
  if th.depth = 0 then some x.flag else th.outer

theorem Owns.pushcli (h : Owns x th) (hncli : x.ncli = th.depth) {b : Bool}
    (hb : outermost x th = some b) : (cpuPushcli x).intena = b := by
  unfold outermost at hb
  split at hb
  · next hdepth =>
      have hzero : x.ncli = 0 := by simp [hncli, hdepth]
      simpa [cpuPushcli, hzero] using hb
  · next hdepth =>
      have hne : ¬ x.ncli = 0 := by
        rw [hncli]
        exact_mod_cast hdepth
      simpa [cpuPushcli, hne] using h.intena (Nat.pos_of_ne_zero hdepth) b hb

theorem acquire_eq : s.acquire c (s.current c) lk =
    if s.holding c lk then .error .acquire
    else .ok (changed s c s.lock (cpuPushcli (s.cpu c))
      { s.thread (s.current c) with
        outer := outermost (s.cpu c) (s.thread (s.current c)), spin := some lk }) := by
  have hholding : (s.pushcli c (s.current c)).holding c lk = s.holding c lk := rfl
  unfold State.acquire
  simp only [hholding]
  simp [State.pushcli, changed, setCpu, setThread, outermost]

theorem Sound.acquire (hs : Sound s) (hspin : (s.thread (s.current c)).spin = none)
    (h : ∀ th, Agrees s.lock c (cpuPushcli (s.cpu c)) th →
      th = { s.thread (s.current c) with
        outer := outermost (s.cpu c) (s.thread (s.current c)), spin := some lk } →
      Change s c s.lock (cpuPushcli (s.cpu c)) th) :
    Fine (s.acquire c (s.current c) lk) := by
  rw [acquire_eq]
  split
  · rfl
  · next hholding =>
      have hagrees := (hs.agrees c).acquire hspin (Bool.eq_false_of_not_eq_true hholding)
        (outermost (s.cpu c) (s.thread (s.current c)))
      exact (h _ hagrees rfl).sound hs

theorem Free.acquire (h : Free s c) (hs : Sound s) :
    Fine (s.acquire c (s.current c) lk) := by
  apply hs.acquire h.spin
  rintro _ hagrees rfl
  apply h.change hs hagrees rfl rfl rfl fun _ _ _ hlk => hlk
  intro _ b hb howns
  exact howns.pushcli (hs.agrees c).ncli hb

theorem Sound.lock (hs : Sound s) (hproc : (s.cpu c).proc = none)
    (hframes : (s.thread (s.current c)).frames = []) (hpc : (s.cpu c).pc = .lock)
    (hspin : (s.thread (s.current c)).spin = none) :
    Fine (s.acquire c (s.current c) .ptable) := by
  apply hs.acquire hspin
  rintro _ hagrees rfl
  have hloop := hs.loop c
  rw [← current_none hproc, hpc] at hloop
  have hheld := (hloop.lock rfl hframes).1
  refine ⟨rfl, fun _ _ _ hlk => hlk, hagrees, fun _ => ?_, fun p hp => ?_⟩
  · refine ⟨fun htop => ?_, fun _ _ => ⟨hheld, fun lk hlk => ?_⟩, fun hscan => ?_⟩
    · simp [cpuPushcli, hpc] at htop
    · exact (Option.some.inj hlk).symm
    · simp [cpuPushcli, hpc] at hscan
  · simp [cpuPushcli, hproc] at hp

theorem pushcli_eq :
    (s.pushcli c (s.current c)).setThread (s.current c)
      { (s.pushcli c (s.current c)).thread (s.current c) with
        held := none :: (s.thread (s.current c)).held } =
    changed s c s.lock (cpuPushcli (s.cpu c)) { s.thread (s.current c) with
      outer := outermost (s.cpu c) (s.thread (s.current c)),
      held := none :: (s.thread (s.current c)).held } := by
  simp [State.pushcli, changed, setCpu, setThread, outermost]

theorem Free.pushcli (h : Free s c) (hs : Sound s) :
    Sound ((s.pushcli c (s.current c)).setThread (s.current c)
      { (s.pushcli c (s.current c)).thread (s.current c) with
        held := none :: (s.thread (s.current c)).held }) := by
  have hagrees := (hs.agrees c).pushcli h.spin
    (outermost (s.cpu c) (s.thread (s.current c)))
  have hchange := h.change hs hagrees rfl rfl rfl (fun _ _ _ hlk => hlk)
    fun _ b hb howns => howns.pushcli (hs.agrees c).ncli hb
  rw [pushcli_eq]
  exact hchange.sound hs

/-! ### The loop in `acquire` -/

theorem Sound.take (hs : Sound s) (hspin : (s.thread (s.current c)).spin = some lk)
    (hlocked : (s.lock lk).locked = false) (pc : Pc)
    (hpc : pc = if (s.thread (s.current c)).frames = [] then .scan else (s.cpu c).pc) :
    Change s c (Function.update s.lock lk ⟨true, some c⟩) { s.cpu c with pc }
      { s.thread (s.current c) with
        spin := none, held := some lk :: (s.thread (s.current c)).held } := by
  have hagrees := hs.agrees c
  have hdepth : (s.thread (s.current c)).depth ≠ 0 := by
    simp [Thread.depth, hspin]
  refine ⟨rfl, fun lk' c' _ hlk' => ?_, { hagrees.take hspin with }, fun hnone => ?_,
    fun p hp => ?_⟩
  · have hne : lk' ≠ lk := by
      rintro rfl
      simp [hlk'] at hlocked
    simpa [hne] using hlk'
  · have hloop := hs.loop c
    rw [← current_none hnone] at hloop
    by_cases hframes : (s.thread (s.current c)).frames = []
    · rw [if_pos hframes] at hpc
      have hbefore : (s.cpu c).pc = .lock := by
        cases hcase : (s.cpu c).pc with
        | top => exact absurd (hloop.top hcase hframes) hdepth
        | lock => rfl
        | scan => simp [(hloop.scan hcase).2.2] at hspin
      obtain ⟨hheld, hlk⟩ := hloop.lock hbefore hframes
      subst hpc
      refine ⟨fun h => Pc.noConfusion h, fun h => Pc.noConfusion h, fun _ => ?_⟩
      simp [hframes, hheld, hlk lk hspin]
    · rw [if_neg hframes] at hpc
      subst hpc
      exact hloop.handler hframes hframes
  · have hplace := hs.gone hp fun h => by simp [h.2.1] at hspin
    have howns := hs.owns c p hp hplace
    rw [← current_some hp] at howns
    have hframes : (s.thread (s.current c)).frames ≠ [] := fun h => hdepth (howns.user h)
    refine ⟨hplace, by simp [hpc, hframes], fun h => absurd h hframes, fun _ b hb => ?_⟩
    exact howns.intena (Nat.pos_of_ne_zero hdepth) b hb

/-! ### `popcli` and `release` -/

theorem freed_of_other {lk' : LockId} {c' : Fin n} (hs : Sound s)
    (hmem : e ∈ (s.thread (s.current c)).held) (hc : c' ≠ c)
    (hlk : s.lock lk' = ⟨true, some c'⟩) : freed s.lock e lk' = ⟨true, some c'⟩ := by
  have hne : e ≠ some lk' := by
    rintro rfl
    have hown := (hs.agrees c).holds lk' hmem
    rw [hlk] at hown
    exact hc (Option.some.inj (Spinlock.mk.inj hown).2)
  rw [freed_of_ne hne, hlk]

theorem Free.popped (h : Free s c) (hs : Sound s)
    (hmem : e ∈ (s.thread (s.current c)).held) :
    Change s c (freed s.lock e) (popped (s.cpu c))
      { s.thread (s.current c) with held := (s.thread (s.current c)).held.erase e } := by
  have hagrees := (hs.agrees c).popcli h.spin hmem
  apply h.change hs hagrees rfl rfl rfl fun _ _ hc hlk => freed_of_other hs hmem hc hlk
  intro _ b hb howns
  have hdepth := Agrees.depth_erase h.spin hmem
  exact howns.intena (by omega) b hb

theorem setCpu_self : s.setCpu c (s.cpu c) = s := by
  simp [setCpu]

theorem release_eq (hs : Sound s) (hmem : some lk ∈ (s.thread (s.current c)).held) (pc : Pc) :
    (s.setCpu c { s.cpu c with pc }).release c (s.current c) lk =
      .ok (changed s c (freed s.lock (some lk)) { popped (s.cpu c) with pc }
        { s.thread (s.current c) with
          held := (s.thread (s.current c)).held.erase (some lk) }) := by
  have hholding : (s.setCpu c { s.cpu c with pc }).holding c lk = true :=
    (hs.agrees c).holding hmem
  have hpop : State.cpuPopcli { s.cpu c with pc } = .ok { popped (s.cpu c) with pc } :=
    Agrees.cpuPopcli { hs.agrees c with } hmem
  rw [State.release, if_pos hholding]
  simp [State.popcli, setLock, setThread, setCpu, hpop, changed, freed, Except.map]

theorem popcli_eq (hs : Sound s) (hmem : none ∈ (s.thread (s.current c)).held) :
    (s.setThread (s.current c) { s.thread (s.current c) with
      held := (s.thread (s.current c)).held.erase none }).popcli c =
    .ok (changed s c (freed s.lock none) (popped (s.cpu c))
      { s.thread (s.current c) with held := (s.thread (s.current c)).held.erase none }) := by
  have hpop := (hs.agrees c).cpuPopcli hmem
  simp [State.popcli, setThread, setCpu, hpop, changed, freed, Except.map]

theorem Free.release (h : Free s c) (hs : Sound s)
    (hmem : some lk ∈ (s.thread (s.current c)).held) :
    Fine (s.release c (s.current c) lk) := by
  have heq := release_eq hs hmem (s.cpu c).pc
  rw [setCpu_self] at heq
  rw [heq]
  exact (h.popped hs hmem).sound hs

theorem Free.popcli (h : Free s c) (hs : Sound s)
    (hmem : none ∈ (s.thread (s.current c)).held) :
    Fine ((s.setThread (s.current c) { s.thread (s.current c) with
      held := (s.thread (s.current c)).held.erase none }).popcli c) := by
  rw [popcli_eq hs hmem]
  exact (h.popped hs hmem).sound hs

/-! ### Interrupts and traps -/

theorem Sound.interrupt (hs : Sound s) (hflag : (s.cpu c).flag = true) :
    Change s c s.lock { s.cpu c with flag := false }
      { s.thread (s.current c) with
        frames := ((s.thread (s.current c)).depth, true) :: (s.thread (s.current c)).frames } := by
  have hagrees := hs.agrees c
  have hdepth := hagrees.interruptible hflag
  have hheld := (depth_eq_zero.mp hdepth).1
  refine ⟨rfl, fun _ _ _ hlk => hlk, { hagrees with
    off := fun _ => rfl, frames := ?_ }, fun hnone => ?_, fun p hp => ?_⟩
  · intro f hf
    rcases List.mem_cons.mp hf with rfl | hf
    · exact hdepth
    · exact hagrees.frames f hf
  · have hloop := hs.loop c
    rw [← current_none hnone] at hloop
    refine ⟨fun _ h => ?_, fun _ h => ?_, fun hscan => ?_⟩
    · exact absurd h (List.cons_ne_nil _ _)
    · exact absurd h (List.cons_ne_nil _ _)
    · simp [(hloop.scan hscan).2.1] at hheld
  · refine ⟨hs.gone hp fun h => ?_, rfl, fun h => absurd h (List.cons_ne_nil _ _),
      fun hpos => ?_⟩
    · simp [h.1] at hheld
    · exact absurd hdepth hpos.ne'

theorem Sound.trap (hs : Sound s) (hproc : (s.cpu c).proc = some p)
    (hframes : (s.thread (s.current c)).frames = []) :
    Change s c s.lock (s.cpu c)
      { s.thread (s.current c) with
        frames := [((s.thread (s.current c)).depth, (s.cpu c).flag)] } := by
  have hagrees := hs.agrees c
  have hplace := hs.gone hproc fun h => h.2.2 hframes
  have howns := hs.owns c p hproc hplace
  rw [← current_some hproc] at howns
  have hdepth := howns.user hframes
  refine ⟨rfl, fun _ _ _ hlk => hlk, { hagrees with frames := ?_ }, fun hnone => ?_,
    fun p' hp => ?_⟩
  · intro f hf
    rw [List.mem_singleton.mp hf]
    exact hdepth
  · simp [hproc] at hnone
  · obtain rfl := Option.some.inj (hproc.symm.trans hp)
    refine ⟨hplace, rfl, fun h => absurd h (List.cons_ne_nil _ _), fun hpos => ?_⟩
    exact absurd hdepth hpos.ne'

theorem Free.iret (h : Free s c) (hs : Sound s) {depth : ℕ} {flag : Bool}
    {frames : List (ℕ × Bool)}
    (hframes : (s.thread (s.current c)).frames = (depth, flag) :: frames)
    (hdepth : (s.thread (s.current c)).depth = depth) :
    Change s c s.lock { s.cpu c with flag } { s.thread (s.current c) with frames } := by
  have hagrees := hs.agrees c
  have hzero : (s.thread (s.current c)).depth = 0 := by
    rw [hdepth]
    exact hagrees.frames (depth, flag) (by simp [hframes])
  refine ⟨rfl, fun _ _ _ hlk => hlk, { hagrees with off := ?_, frames := ?_ },
    fun hnone => ?_, fun p hp => ?_⟩
  · intro hpos
    exact absurd hzero hpos.ne'
  · intro f hf
    exact hagrees.frames f (by simp [hframes, hf])
  · have hloop := hs.loop c
    rw [← current_none hnone] at hloop
    refine ⟨fun _ _ => hzero, fun _ _ => ⟨(depth_eq_zero.mp hzero).1, ?_⟩, fun hscan => ?_⟩
    · intro lk hlk
      simp [h.spin] at hlk
    · exact absurd (hloop.scan hscan).1 h.entered
  · refine ⟨h.gone p hp, rfl, fun _ => hzero, fun hpos => ?_⟩
    exact absurd hzero hpos.ne'

/-! ### The scheduler -/

theorem Sound.sti (hs : Sound s) (hproc : (s.cpu c).proc = none)
    (hframes : (s.thread (s.current c)).frames = []) (hpc : (s.cpu c).pc = .top) :
    Change s c s.lock { s.cpu c with flag := true, pc := .lock } (s.thread (s.current c)) := by
  have hloop := hs.loop c
  rw [← current_none hproc] at hloop
  have hzero := hloop.top hpc hframes
  obtain ⟨hheld, hspin⟩ := depth_eq_zero.mp hzero
  refine ⟨rfl, fun _ _ _ hlk => hlk, { hs.agrees c with off := ?_ }, fun _ => ?_,
    fun p hp => ?_⟩
  · intro hpos
    exact absurd hzero hpos.ne'
  · refine ⟨fun h => Pc.noConfusion h, fun _ _ => ⟨hheld, ?_⟩, fun h => Pc.noConfusion h⟩
    simp [hspin]
  · simp [hproc] at hp

theorem Sound.unlock (hs : Sound s) (hproc : (s.cpu c).proc = none)
    (hpc : (s.cpu c).pc = .scan) :
    Fine ((s.setCpu c { s.cpu c with pc := .top }).release c (s.current c) .ptable) := by
  have hloop := hs.loop c
  rw [← current_none hproc] at hloop
  obtain ⟨hframes, hheld, hspin⟩ := hloop.scan hpc
  have hmem : some .ptable ∈ (s.thread (s.current c)).held := by simp [hheld]
  have hagrees := (hs.agrees c).popcli hspin hmem
  have hdepth := Agrees.depth_erase hspin hmem
  rw [depth_of_parked hheld hspin] at hdepth
  have hchange : Change s c (freed s.lock (some .ptable))
      { popped (s.cpu c) with pc := .top }
      { s.thread (s.current c) with
        held := (s.thread (s.current c)).held.erase (some .ptable) } := by
    refine ⟨rfl, fun _ _ hc hlk => freed_of_other hs hmem hc hlk, { hagrees with },
      fun _ => ?_, fun p hp => ?_⟩
    · refine ⟨fun _ _ => ?_, fun h => Pc.noConfusion h, fun h => Pc.noConfusion h⟩
      exact Nat.succ.inj hdepth
    · simp [popped, hproc] at hp
  rw [release_eq hs hmem]
  exact hchange.sound hs

/-! ### Context switches -/

/-- Both sides of a switch hold `ptable.lock` and nothing else. -/
theorem Agrees.switch (h : Agrees L c x th) (hheld : th.held = [some .ptable])
    (hspin : th.spin = none) (hheld' : th'.held = [some .ptable]) (hspin' : th'.spin = none)
    (hframes : ∀ f ∈ th'.frames, f.1 = 0) (hncli : x'.ncli = x.ncli)
    (hflag : x'.flag = x.flag) : Agrees L c x' th' where
  ncli := by
    rw [hncli, h.ncli, depth_of_parked hheld hspin, depth_of_parked hheld' hspin']
  off _ := by
    rw [hflag]
    exact h.off (by simp [depth_of_parked hheld hspin])
  holds lk hlk := h.holds lk (by rwa [hheld, ← hheld'])
  once lk := by
    have honce := h.once lk
    rwa [hheld, ← hheld'] at honce
  waits lk hlk := by simp [hspin'] at hlk
  frames := hframes

/-- A process changes its own entry only. -/
theorem Sound.parked_update (hs : Sound s) {q : Process}
    (hq : q.state ≠ .unused → q.place ≠ .gone → Parked q (s.thread (.process p))) (p' : ℕ)
    (hstate : (Function.update s.process p q p').state ≠ .unused)
    (hplace : (Function.update s.process p q p').place ≠ .gone) :
    Parked (Function.update s.process p q p') (s.thread (.process p')) := by
  by_cases hp : p' = p
  · subst hp
    rw [Function.update_self] at hstate hplace ⊢
    exact hq hstate hplace
  · rw [Function.update_of_ne hp] at hstate hplace ⊢
    exact hs.parked p' hstate hplace

/-- `sched` does not panic, and the scheduler goes on with the count of the process. -/
theorem Free.sched_eq (h : Free s c) (hs : Sound s)
    (hheld : (s.thread (s.current c)).held = [some .ptable]) {state : ProcState}
    (hstate : state ≠ .running) :
    (s.setProcess p { s.process p with state }).sched c p =
      .ok ((s.setProcess p ⟨state, .sched, (s.cpu c).intena⟩).setCpu c
        { s.cpu c with proc := none }) := by
  have hagrees := hs.agrees c
  have hdepth := depth_of_parked hheld h.spin
  have hholding : s.holding c .ptable = true := hagrees.holding (by simp [hheld])
  have hncli : (s.cpu c).ncli = 1 := by
    simp [hagrees.ncli, hdepth]
  have hflag : (s.cpu c).flag = false := hagrees.off (by simp [hdepth])
  have hsame : (s.setProcess p { s.process p with state }).holding c .ptable = true := hholding
  rw [State.sched, if_neg (by simp [hsame]), if_neg (by simp [hncli]),
    if_neg (by simpa using hstate), if_neg (by simp [hflag])]
  simp [setProcess, setCpu]

/-- Who runs after the process `p` of processor `c` has gone. -/
theorem Sound.others (hs : Sound s) (hproc : (s.cpu c).proc = some p) {c' : Fin n} {p' : ℕ}
    (h : (Function.update s.cpu c { s.cpu c with proc := none } c').proc = some p') :
    c' ≠ c ∧ (s.cpu c').proc = some p' ∧ p' ≠ p := by
  by_cases hc : c' = c
  · simp [hc] at h
  · rw [Function.update_of_ne hc] at h
    refine ⟨hc, h, ?_⟩
    rintro rfl
    exact hc (hs.alone c' c p' h hproc)

theorem Free.sched (h : Free s c) (hs : Sound s) (hproc : (s.cpu c).proc = some p)
    (hheld : (s.thread (s.current c)).held = [some .ptable]) (state : ProcState) :
    Sound ((s.setProcess p ⟨state, .sched, (s.cpu c).intena⟩).setCpu c
      { s.cpu c with proc := none }) := by
  have hagrees := hs.agrees c
  have hloop := hs.loop c
  have howns := hs.owns c p hproc (h.gone p hproc)
  have hspin := h.spin
  have hentered := h.entered
  obtain ⟨hframes', hheld', hspin'⟩ := hloop.scan (hs.away c p hproc)
  rw [current_some hproc] at hagrees hheld hspin hentered
  constructor
  case agrees =>
    intro c'
    by_cases hc : c' = c
    · subst hc
      have hswitch : Agrees s.lock c' { s.cpu c' with proc := none } (s.thread (.scheduler c')) :=
        hagrees.switch hheld hspin hheld' hspin' (by simp [hframes']) rfl rfl
      simpa [State.current] using hswitch
    · simpa [State.current, hc] using hs.agrees c'
  case loop =>
    intro c'
    by_cases hc : c' = c
    · subst hc
      simpa using hloop
    · simpa [hc] using hs.loop c'
  case away =>
    intro c' p' hp'
    obtain ⟨hc, hp, -⟩ := hs.others hproc hp'
    simpa [hc] using hs.away c' p' hp
  case running =>
    intro c' p' hp'
    obtain ⟨-, hp, hne⟩ := hs.others hproc hp'
    simpa [hne] using hs.running c' p' hp
  case alone =>
    intro c₁ c₂ p' h₁ h₂
    exact hs.alone c₁ c₂ p' (hs.others hproc h₁).2.1 (hs.others hproc h₂).2.1
  case owns =>
    intro c' p' hp' hplace
    obtain ⟨hc, hp, hne⟩ := hs.others hproc hp'
    simpa [hc] using hs.owns c' p' hp (by simpa [hne] using hplace)
  case parked =>
    refine hs.parked_update fun _ _ => ⟨hheld, hspin, hentered, hagrees.frames, fun _ => ?_, ?_⟩
    · exact howns.intena (by simp [depth_of_parked hheld hspin])
    · exact fun h => Place.noConfusion h
  case onCpu =>
    intro p' hstate hplace
    by_cases hp : p' = p
    · simp [hp] at hplace
    · obtain ⟨c', hc'⟩ := hs.onCpu p' (by simpa [hp] using hstate)
        (by simpa [hp] using hplace)
      have hc : c' ≠ c := by
        rintro rfl
        exact hp (Option.some.inj (hc'.symm.trans hproc))
      exact ⟨c', by simpa [hc] using hc'⟩

/-- `switchuvm` changes nothing, since `ptable.lock` is held. -/
theorem Sound.dispatch_eq (hs : Sound s) (hproc : (s.cpu c).proc = none)
    (hpc : (s.cpu c).pc = .scan) :
    s.dispatch c p = .ok ((s.setProcess p { s.process p with state := .running }).setCpu c
      { s.cpu c with proc := some p }) := by
  have hagrees := hs.agrees c
  rw [current_none hproc] at hagrees
  obtain ⟨-, hheld, hspin⟩ := (hs.loop c).scan hpc
  have hdepth := depth_of_parked hheld hspin
  have hncli : (s.cpu c).ncli = 1 := by
    simp [hagrees.ncli, hdepth]
  have hflag : (s.cpu c).flag = false := hagrees.off (by simp [hdepth])
  have hpop : State.cpuPopcli (cpuPushcli (s.cpu c)) = .ok (s.cpu c) := by
    cases hx : s.cpu c with
    | mk ncli intena flag proc pc =>
        simp only [hx] at hncli hflag
        subst hncli hflag
        rfl
  simp [State.dispatch, State.pushcli, State.popcli, hpop, Except.map, hdepth, setCpu,
    setProcess, setThread]

theorem Sound.dispatch (hs : Sound s) (hproc : (s.cpu c).proc = none)
    (hpc : (s.cpu c).pc = .scan) (hstate : (s.process p).state = .runnable) :
    Sound ((s.setProcess p { s.process p with state := .running }).setCpu c
      { s.cpu c with proc := some p }) := by
  have hagrees := hs.agrees c
  have hloop := hs.loop c
  rw [current_none hproc] at hagrees
  obtain ⟨-, hheld, hspin⟩ := hloop.scan hpc
  have hoff : ∀ c', (s.cpu c').proc ≠ some p := by
    intro c' hc'
    simp [hs.running c' p hc'] at hstate
  have hplace : (s.process p).place ≠ .gone := by
    intro h
    obtain ⟨c', hc'⟩ := hs.onCpu p (by simp [hstate]) h
    exact hoff c' hc'
  have hparked := hs.parked p (by simp [hstate]) hplace
  have hother : ∀ c' p', (s.cpu c').proc = some p' → p' ≠ p := by
    rintro c' _ hc' rfl
    exact hoff c' hc'
  constructor
  case agrees =>
    intro c'
    by_cases hc : c' = c
    · subst hc
      have hswitch : Agrees s.lock c' { s.cpu c' with proc := some p }
          (s.thread (.process p)) :=
        hagrees.switch hheld hspin hparked.held hparked.spin hparked.frames rfl rfl
      simpa [State.current] using hswitch
    · simpa [State.current, hc] using hs.agrees c'
  case loop =>
    intro c'
    by_cases hc : c' = c
    · subst hc
      simpa using hloop
    · simpa [hc] using hs.loop c'
  case away =>
    intro c' p' hp'
    by_cases hc : c' = c
    · simpa [hc] using hpc
    · simpa [hc] using hs.away c' p' (by simpa [hc] using hp')
  case running =>
    intro c' p' hp'
    by_cases hp : p' = p
    · simp [hp]
    · have hc : c' ≠ c := by
        rintro rfl
        exact hp (by simpa using hp'.symm)
      simpa [hp] using hs.running c' p' (by simpa [hc] using hp')
  case alone =>
    intro c₁ c₂ p' h₁ h₂
    by_cases hc₁ : c₁ = c
    · by_cases hc₂ : c₂ = c
      · exact hc₁.trans hc₂.symm
      · have hp : p = p' := by simpa [hc₁] using h₁
        exact absurd (by simpa [hc₂, ← hp] using h₂) (hoff c₂)
    · by_cases hc₂ : c₂ = c
      · have hp : p = p' := by simpa [hc₂] using h₂
        exact absurd (by simpa [hc₁, ← hp] using h₁) (hoff c₁)
      · exact hs.alone c₁ c₂ p' (by simpa [hc₁] using h₁) (by simpa [hc₂] using h₂)
  case owns =>
    intro c' p' hp' hplace'
    have hp : p' ≠ p := by
      rintro rfl
      exact hplace (by simpa using hplace')
    have hc : c' ≠ c := by
      rintro rfl
      exact hp (by simpa using hp'.symm)
    simpa [hc] using hs.owns c' p' (by simpa [hc] using hp') (by simpa [hp] using hplace')
  case parked => exact hs.parked_update fun _ _ => { hparked with }
  case onCpu =>
    intro p' hstate' hplace'
    by_cases hp : p' = p
    · exact absurd (by simpa [hp] using hplace') hplace
    · obtain ⟨c', hc'⟩ := hs.onCpu p' (by simpa [hp] using hstate')
        (by simpa [hp] using hplace')
      have hc : c' ≠ c := by
        rintro rfl
        simp [hproc] at hc'
      exact ⟨c', by simpa [hc] using hc'⟩

theorem Sound.resume (hs : Sound s) (hproc : (s.cpu c).proc = some p)
    (hplace : (s.process p).place ≠ .gone) : Sound (s.resume c p) := by
  have hparked := hs.parked p (hs.not_unused hproc) hplace
  obtain ⟨b, hb, hresume⟩ : ∃ b, (∀ b', (s.thread (.process p)).outer = some b' → b = b') ∧
      s.resume c p = (s.setProcess p { s.process p with place := .gone }).setCpu c
        { s.cpu c with intena := b } := by
    cases h : (s.process p).place with
    | sched => exact ⟨(s.process p).intena, hparked.saved h, by simp [State.resume, h]⟩
    | forkret =>
        refine ⟨(s.cpu c).intena, fun b' hb' => ?_, ?_⟩
        · simp [hparked.fresh h] at hb'
        · simp [State.resume, h, setCpu, setProcess]
    | gone => exact absurd h hplace
  have hcpu : ∀ c', (Function.update s.cpu c { s.cpu c with intena := b } c').proc =
      (s.cpu c').proc := by
    intro c'
    by_cases hc : c' = c <;> simp [hc]
  rw [hresume]
  constructor
  case agrees =>
    intro c'
    by_cases hc : c' = c
    · subst hc
      have hagrees := hs.agrees c'
      simpa [State.current] using
        ({ hagrees with } : Agrees s.lock c' { s.cpu c' with intena := b } _)
    · simpa [State.current, hc] using hs.agrees c'
  case loop =>
    intro c'
    by_cases hc : c' = c
    · subst hc
      simpa using hs.loop c'
    · simpa [hc] using hs.loop c'
  case away =>
    intro c' p' hp'
    have haway := hs.away c' p' ((hcpu c').symm.trans hp')
    by_cases hc : c' = c
    · subst hc
      simpa using haway
    · simpa [hc] using haway
  case running =>
    intro c' p' hp'
    have hrunning := hs.running c' p' ((hcpu c').symm.trans hp')
    by_cases hp : p' = p
    · subst hp
      simpa using hrunning
    · simpa [hp] using hrunning
  case alone =>
    intro c₁ c₂ p' h₁ h₂
    exact hs.alone c₁ c₂ p' ((hcpu c₁).symm.trans h₁) ((hcpu c₂).symm.trans h₂)
  case owns =>
    intro c' p' hp' hplace'
    have hp'' := (hcpu c').symm.trans hp'
    by_cases hp : p' = p
    · subst hp
      obtain rfl := hs.alone c' c p' hp'' hproc
      refine ⟨fun h => absurd h hparked.entered, fun _ b' hb' => ?_⟩
      simpa using hb b' hb'
    · have hc : c' ≠ c := by
        rintro rfl
        exact hp (Option.some.inj (hp''.symm.trans hproc))
      simpa [hc] using hs.owns c' p' hp'' (by simpa [hp] using hplace')
  case parked => exact hs.parked_update fun _ hgone => absurd rfl hgone
  case onCpu =>
    intro p' hstate' hplace'
    by_cases hp : p' = p
    · subst hp
      exact ⟨c, (hcpu c).trans hproc⟩
    · obtain ⟨c', hc'⟩ := hs.onCpu p' (by simpa [hp] using hstate')
        (by simpa [hp] using hplace')
      exact ⟨c', (hcpu c').trans hc'⟩

/-! ### The table of processes -/

/-- What others may do to a process that no processor runs. -/
theorem Sound.setProcess (hs : Sound s) (hoff : ∀ c, (s.cpu c).proc ≠ some p) (q : Process)
    (hq : q.state ≠ .unused → q.place ≠ .gone ∧ Parked q th) :
    Sound ((s.setProcess p q).setThread (.process p) th) := by
  have hcurrent : ∀ c, s.current c ≠ .process p := fun c h => hoff c (current_eq_process.mp h)
  have hother : ∀ c' p', (s.cpu c').proc = some p' → p' ≠ p := by
    rintro c' _ hc' rfl
    exact hoff c' hc'
  constructor
  case agrees =>
    intro c'
    have hne : ((s.setProcess p q).setThread (.process p) th).current c' ≠ .process p :=
      hcurrent c'
    simp only [setThread_thread, Function.update_of_ne hne]
    exact hs.agrees c'
  case loop =>
    intro c'
    simpa using hs.loop c'
  case away =>
    intro c' p' hp'
    exact hs.away c' p' hp'
  case running =>
    intro c' p' hp'
    simpa [hother c' p' hp'] using hs.running c' p' hp'
  case alone =>
    intro c₁ c₂ p' h₁ h₂
    exact hs.alone c₁ c₂ p' h₁ h₂
  case owns =>
    intro c' p' hp' hplace
    have hne := hother c' p' hp'
    simpa [hne] using hs.owns c' p' hp' (by simpa [hne] using hplace)
  case parked =>
    intro p' hstate hplace
    by_cases hp : p' = p
    · subst hp
      simpa using (hq (by simpa using hstate)).2
    · simpa [hp] using hs.parked p' (by simpa [hp] using hstate) (by simpa [hp] using hplace)
  case onCpu =>
    intro p' hstate hplace
    by_cases hp : p' = p
    · subst hp
      exact absurd (by simpa using hplace) (hq (by simpa using hstate)).1
    · exact hs.onCpu p' (by simpa [hp] using hstate) (by simpa [hp] using hplace)

/-- A process that is not `RUNNING` is not on a processor. -/
theorem Sound.offCpu (hs : Sound s) (hstate : (s.process p).state ≠ .running) (c : Fin n) :
    (s.cpu c).proc ≠ some p :=
  fun hc => hstate (hs.running c p hc)

/-- The state of a process that waits in the table may change. -/
theorem Sound.setState (hs : Sound s) (hrunning : (s.process p).state ≠ .running)
    (hunused : (s.process p).state ≠ .unused) (state : ProcState) :
    Sound (s.setProcess p { s.process p with state }) := by
  have hplace : (s.process p).place ≠ .gone := by
    intro h
    obtain ⟨c, hc⟩ := hs.onCpu p hunused h
    exact hs.offCpu hrunning c hc
  have hparked := hs.parked p hunused hplace
  have hsound := hs.setProcess (hs.offCpu hrunning) { s.process p with state }
    fun _ => ⟨hplace, { hparked with }⟩
  simpa [State.setThread, State.setProcess] using hsound

theorem Sound.create (hs : Sound s) (hstate : (s.process p).state = .unused) :
    Sound ((s.setProcess p ⟨.runnable, .forkret, false⟩).setThread (.process p)
      ⟨[some .ptable], none, [(0, true)], none⟩) := by
  apply hs.setProcess (hs.offCpu (by simp [hstate])) _
  refine fun _ => ⟨by decide, ⟨rfl, rfl, List.cons_ne_nil _ _, ?_, ?_, fun _ => rfl⟩⟩
  · intro f hf
    rw [List.mem_singleton.mp hf]
  · intro h
    exact Place.noConfusion h

/-- No step breaks the invariant, and none panics but an `acquire` of a lock that the
processor holds. -/
theorem Sound.step (hs : Sound s) {a : Action} {r : Except Panic (State n)}
    (hstep : s.step c a = some r) : Fine r := by
  cases a with
  | acquire lk =>
      obtain ⟨hfree, hr⟩ := Option.ite_none_right_eq_some.mp hstep
      obtain rfl := Option.some.inj hr
      exact (free_iff.mp hfree).acquire hs
  | take =>
      simp only [State.step] at hstep
      split at hstep
      · next lk hspin =>
          split at hstep
          · contradiction
          · next hlocked =>
              have hlocked' := Bool.eq_false_of_not_eq_true hlocked
              split at hstep
              · next hframes =>
                  obtain rfl := Option.some.inj hstep
                  have hchange := hs.take hspin hlocked' .scan
                    (by simp [List.isEmpty_iff.mp hframes])
                  simpa [Fine, State.take, changed, setCpu, setLock, setThread] using
                    hchange.sound hs
              · next hframes =>
                  obtain rfl := Option.some.inj hstep
                  have hne : (s.thread (s.current c)).frames ≠ [] := by
                    simpa using hframes
                  have hchange := hs.take hspin hlocked' (s.cpu c).pc (by simp [hne])
                  simpa [Fine, State.take, changed, setCpu, setLock, setThread] using
                    hchange.sound hs
      · contradiction
  | release lk =>
      obtain ⟨h, hr⟩ := Option.ite_none_right_eq_some.mp hstep
      obtain rfl := Option.some.inj hr
      exact (free_iff.mp h.1).release hs h.2
  | pushcli =>
      obtain ⟨hfree, hr⟩ := Option.ite_none_right_eq_some.mp hstep
      obtain rfl := Option.some.inj hr
      exact (free_iff.mp hfree).pushcli hs
  | popcli =>
      obtain ⟨h, hr⟩ := Option.ite_none_right_eq_some.mp hstep
      obtain rfl := Option.some.inj hr
      exact (free_iff.mp h.1).popcli hs h.2
  | sched state =>
      simp only [State.step] at hstep
      split at hstep
      · next p hproc =>
          split at hstep
          · next h =>
              obtain ⟨hfree, hheld, hstate⟩ := h
              have hfree' := free_iff.mp hfree
              obtain rfl := Option.some.inj hstep
              have hne : state ≠ .running := by
                rintro rfl
                simp at hstate
              rw [hfree'.sched_eq hs hheld hne]
              exact hfree'.sched hs hproc hheld state
          · contradiction
      · contradiction
  | resume =>
      simp only [State.step] at hstep
      split at hstep
      · next p hproc =>
          split at hstep
          · contradiction
          · next hplace =>
              obtain rfl := Option.some.inj hstep
              exact hs.resume hproc hplace
      · contradiction
  | interrupt =>
      obtain ⟨hflag, hr⟩ := Option.ite_none_right_eq_some.mp hstep
      obtain rfl := Option.some.inj hr
      exact (hs.interrupt hflag).sound hs
  | trap =>
      obtain ⟨h, hr⟩ := Option.ite_none_right_eq_some.mp hstep
      obtain ⟨p, hproc⟩ := Option.isSome_iff_exists.mp h.1
      obtain rfl := Option.some.inj hr
      have hsound := (hs.trap hproc h.2).sound hs
      simpa [Fine, changed, setThread] using hsound
  | iret =>
      simp only [State.step] at hstep
      split at hstep
      · next depth flag frames hframes =>
          split at hstep
          · next h =>
              obtain rfl := Option.some.inj hstep
              exact ((free_iff.mp h.1).iret hs hframes h.2).sound hs
          · contradiction
      · contradiction
  | sti =>
      obtain ⟨h, hr⟩ := Option.ite_none_right_eq_some.mp hstep
      obtain rfl := Option.some.inj hr
      have hsound := (hs.sti h.1 h.2.1 h.2.2).sound hs
      simpa [Fine, changed, setCpu] using hsound
  | lock =>
      obtain ⟨h, hr⟩ := Option.ite_none_right_eq_some.mp hstep
      obtain rfl := Option.some.inj hr
      exact hs.lock h.1 h.2.1 h.2.2.1 h.2.2.2
  | dispatch p =>
      obtain ⟨h, hr⟩ := Option.ite_none_right_eq_some.mp hstep
      obtain rfl := Option.some.inj hr
      rw [hs.dispatch_eq h.1 h.2.2.1]
      exact hs.dispatch h.1 h.2.2.1 h.2.2.2
  | unlock =>
      obtain ⟨h, hr⟩ := Option.ite_none_right_eq_some.mp hstep
      obtain rfl := Option.some.inj hr
      exact hs.unlock h.1 h.2.2
  | wakeup p =>
      obtain ⟨h, hr⟩ := Option.ite_none_right_eq_some.mp hstep
      obtain rfl := Option.some.inj hr
      exact hs.setState (by simp [h.2]) (by simp [h.2]) .runnable
  | reap p =>
      obtain ⟨h, hr⟩ := Option.ite_none_right_eq_some.mp hstep
      obtain rfl := Option.some.inj hr
      exact hs.setState (by simp [h.2]) (by simp [h.2]) .unused
  | create p =>
      obtain ⟨h, hr⟩ := Option.ite_none_right_eq_some.mp hstep
      obtain rfl := Option.some.inj hr
      exact hs.create h

theorem Reachable.sound (hs : Reachable s) : Sound s := by
  obtain ⟨es, hrun⟩ := hs
  apply hrun.invariant (I := Sound) _ sound_boot
  intro _ _ _ _ _ hsound hstep
  exact hsound.step hstep

/-! ## The outermost `pushcli` of a process -/

/-- The calls of `pushcli` that a process makes. -/
def Action.pushes : Action → Bool
  | .acquire _ | .pushcli => true
  | _ => false

/-- The calls of `popcli` that a process makes. -/
def Action.pops : Action → Bool
  | .release _ | .popcli => true
  | _ => false

theorem popcli_thread {s s' : State n} (h : s.popcli c = .ok s') : s'.thread = s.thread := by
  unfold State.popcli at h
  cases hpop : State.cpuPopcli (s.cpu c) with
  | error e => simp [hpop, Except.map] at h
  | ok x =>
      rw [hpop] at h
      obtain rfl := Except.ok.inj h
      rfl

theorem setThread_outer {t t' : ThreadId n} (h : th.outer = (s.thread t).outer) :
    ((s.setThread t th).thread t').outer = (s.thread t').outer := by
  by_cases ht : t' = t
  · subst ht
    simpa using h
  · simp [ht]

theorem pushcli_outer {t t' : ThreadId n} (h : 0 < (s.thread t').depth) :
    ((s.pushcli c t).thread t').outer = (s.thread t').outer := by
  by_cases ht : t' = t
  · subst ht
    simp [State.pushcli, h.ne']
  · simp [State.pushcli, ht]

theorem acquire_outer {s' : State n} {t t' : ThreadId n} (h : s.acquire c t lk = .ok s')
    (hdepth : 0 < (s.thread t').depth) : (s'.thread t').outer = (s.thread t').outer := by
  simp only [State.acquire] at h
  split at h
  · contradiction
  · obtain rfl := Except.ok.inj h
    exact (setThread_outer (by rfl)).trans (pushcli_outer hdepth)

theorem release_outer {s' : State n} {t t' : ThreadId n} (h : s.release c t lk = .ok s') :
    (s'.thread t').outer = (s.thread t').outer := by
  simp only [State.release] at h
  split at h
  · rw [popcli_thread h]
    exact setThread_outer rfl
  · contradiction

theorem sched_thread {s' : State n} (h : s.sched c p = .ok s') : s'.thread = s.thread := by
  simp only [State.sched] at h
  split_ifs at h
  obtain rfl := Except.ok.inj h
  rfl

theorem resume_thread : (s.resume c p).thread = s.thread := by
  unfold State.resume
  cases (s.process p).place <;> rfl

theorem dispatch_outer {s' : State n} {t : ThreadId n} (h : s.dispatch c p = .ok s')
    (hdepth : 0 < (s.thread t).depth) : (s'.thread t).outer = (s.thread t).outer := by
  simp only [State.dispatch] at h
  cases hpop : ((s.setProcess p { s.process p with state := .running }).pushcli c
      (.scheduler c)).popcli c with
  | error e => simp [hpop, Except.map] at h
  | ok s₁ =>
      rw [hpop] at h
      obtain rfl := Except.ok.inj h
      simp only [setCpu_thread, popcli_thread hpop]
      exact pushcli_outer hdepth

/-- Nothing but a new process in its place makes a process that is inside `pushcli` forget
its outermost one. -/
theorem Step.outer {s' : State n} {a : Action} (hstep : s.step c a = some (.ok s'))
    (hdepth : 0 < (s.thread (.process p)).depth) (ha : a ≠ .create p) :
    (s'.thread (.process p)).outer = (s.thread (.process p)).outer := by
  cases a with
  | acquire lk =>
      obtain ⟨-, hr⟩ := Option.ite_none_right_eq_some.mp hstep
      exact acquire_outer (Option.some.inj hr) hdepth
  | take =>
      simp only [State.step] at hstep
      split at hstep
      · split_ifs at hstep
        · obtain rfl := Except.ok.inj (Option.some.inj hstep)
          exact setThread_outer rfl
        · obtain rfl := Except.ok.inj (Option.some.inj hstep)
          exact setThread_outer rfl
      · contradiction
  | release lk =>
      obtain ⟨-, hr⟩ := Option.ite_none_right_eq_some.mp hstep
      exact release_outer (Option.some.inj hr)
  | pushcli =>
      obtain ⟨-, hr⟩ := Option.ite_none_right_eq_some.mp hstep
      obtain rfl := Except.ok.inj (Option.some.inj hr)
      exact (setThread_outer (by rfl)).trans (pushcli_outer hdepth)
  | popcli =>
      obtain ⟨-, hr⟩ := Option.ite_none_right_eq_some.mp hstep
      rw [popcli_thread (Option.some.inj hr)]
      exact setThread_outer rfl
  | sched state =>
      simp only [State.step] at hstep
      split at hstep
      · split at hstep
        · rw [sched_thread (Option.some.inj hstep)]
          rfl
        · contradiction
      · contradiction
  | resume =>
      simp only [State.step] at hstep
      split at hstep
      · split at hstep
        · contradiction
        · obtain rfl := Except.ok.inj (Option.some.inj hstep)
          rw [resume_thread]
      · contradiction
  | interrupt =>
      obtain ⟨-, hr⟩ := Option.ite_none_right_eq_some.mp hstep
      obtain rfl := Except.ok.inj (Option.some.inj hr)
      exact setThread_outer rfl
  | trap =>
      obtain ⟨-, hr⟩ := Option.ite_none_right_eq_some.mp hstep
      obtain rfl := Except.ok.inj (Option.some.inj hr)
      exact setThread_outer rfl
  | iret =>
      simp only [State.step] at hstep
      split at hstep
      · split at hstep
        · obtain rfl := Except.ok.inj (Option.some.inj hstep)
          exact setThread_outer rfl
        · contradiction
      · contradiction
  | sti =>
      obtain ⟨-, hr⟩ := Option.ite_none_right_eq_some.mp hstep
      obtain rfl := Except.ok.inj (Option.some.inj hr)
      rfl
  | lock =>
      obtain ⟨-, hr⟩ := Option.ite_none_right_eq_some.mp hstep
      exact acquire_outer (Option.some.inj hr) hdepth
  | dispatch p' =>
      obtain ⟨-, hr⟩ := Option.ite_none_right_eq_some.mp hstep
      exact dispatch_outer (Option.some.inj hr) hdepth
  | unlock =>
      obtain ⟨-, hr⟩ := Option.ite_none_right_eq_some.mp hstep
      exact (release_outer (Option.some.inj hr) :)
  | wakeup p' =>
      obtain ⟨-, hr⟩ := Option.ite_none_right_eq_some.mp hstep
      obtain rfl := Except.ok.inj (Option.some.inj hr)
      rfl
  | reap p' =>
      obtain ⟨-, hr⟩ := Option.ite_none_right_eq_some.mp hstep
      obtain rfl := Except.ok.inj (Option.some.inj hr)
      rfl
  | create p' =>
      obtain ⟨-, hr⟩ := Option.ite_none_right_eq_some.mp hstep
      obtain rfl := Except.ok.inj (Option.some.inj hr)
      have hne : p ≠ p' := by
        rintro rfl
        exact ha rfl
      simp [hne]

/-- The outermost `pushcli` of a process remembers the interrupt flag. -/
theorem outer_of_pushes {s' : State n} {a : Action} (hstep : s.step c a = some (.ok s'))
    (ha : a.pushes = true) (hproc : (s.cpu c).proc = some p)
    (hdepth : (s.thread (.process p)).depth = 0) :
    (s'.thread (.process p)).outer = some (s.cpu c).flag := by
  have hcurrent := current_some hproc
  cases a with
  | acquire lk =>
      simp only [State.step] at hstep
      split at hstep
      · have h := Option.some.inj hstep
        simp only [State.acquire] at h
        split at h
        · contradiction
        · obtain rfl := Except.ok.inj h
          simp [hcurrent, State.pushcli, hdepth]
      · contradiction
  | pushcli =>
      obtain ⟨-, hr⟩ := Option.ite_none_right_eq_some.mp hstep
      obtain rfl := Except.ok.inj (Option.some.inj hr)
      simp [hcurrent, State.pushcli, hdepth]
  | _ => contradiction

/-- The outermost `popcli` of a process restores it. -/
theorem Sound.flag_of_pops (hs : Sound s) {s' : State n} {a : Action}
    (hstep : s.step c a = some (.ok s')) (ha : a.pops = true)
    (hproc : (s.cpu c).proc = some p) (hdepth : (s.thread (.process p)).depth = 1) {b : Bool}
    (hb : (s.thread (.process p)).outer = some b) : (s'.cpu c).flag = b := by
  have hagrees := hs.agrees c
  rw [current_some hproc] at hagrees
  have hpopped (hfree : Free s c) : (popped (s.cpu c)).flag = b := by
    have howns := hs.owns c p hproc (hfree.gone p hproc)
    have hintena := howns.intena (by simp [hdepth]) b hb
    simp [popped, hagrees.ncli, hdepth, hintena]
  cases a with
  | release lk =>
      obtain ⟨h, hr⟩ := Option.ite_none_right_eq_some.mp hstep
      have heq := release_eq hs h.2 (s.cpu c).pc
      rw [setCpu_self, Option.some.inj hr] at heq
      obtain rfl := Except.ok.inj heq
      simpa [changed] using hpopped (free_iff.mp h.1)
  | popcli =>
      obtain ⟨h, hr⟩ := Option.ite_none_right_eq_some.mp hstep
      have heq := popcli_eq hs h.2
      rw [Option.some.inj hr] at heq
      obtain rfl := Except.ok.inj heq
      simpa [changed] using hpopped (free_iff.mp h.1)
  | _ => contradiction

/-- Process 0 is created, continues on processor 0, and is interrupted. -/
def interrupted : List (Fin 2 × Action) :=
  [(0, .create 0), (0, .sti), (0, .lock), (0, .take), (0, .dispatch 0), (0, .resume),
    (0, .release .ptable), (0, .interrupt)]

/-- The handler calls `yield`; the process continues on processor 1. -/
def yielded : List (Fin 2 × Action) :=
  [(0, .take), (0, .sched .runnable), (0, .unlock), (1, .sti), (1, .lock), (1, .take),
    (1, .dispatch 0), (1, .resume)]

/-- A step that does not panic and leaves process 0 inside `pushcli`, if asked to. -/
def stepInside (inside : Bool) (s : State 2) (e : Fin 2 × Action) : Option (State 2) :=
  match s.step e.1 e.2 with
  | some (.ok s') =>
      if inside = true → 0 < (s'.thread (.process 0)).depth then some s' else none
  | _ => none

theorem stepInside_spec {inside : Bool} {s t : State 2} {e : Fin 2 × Action}
    (h : stepInside inside s e = some t) :
    Step s e t ∧ (inside = true → 0 < (t.thread (.process 0)).depth) := by
  unfold stepInside at h
  split at h
  · next s' hstep =>
      split at h
      · next hdepth =>
          obtain rfl := Option.some.inj h
          exact ⟨hstep, hdepth⟩
      · contradiction
  · contradiction

/-- Interrupts are off wherever `ncli` counts, no check fails but that of `acquire`, and the
outermost `popcli` of a process leaves the interrupt flag as its own outermost `pushcli` has
found it, whatever the processors have done in the meantime. -/
theorem interrupts_survive (hs : Reachable s) :
    (∀ c, 0 < (s.cpu c).ncli → (s.cpu c).flag = false) ∧
    (∀ c a e, s.step c a = some (.error e) → e = .acquire) ∧
    ∀ c a s₁ p es s₂ c' a' s₃,
      (s.cpu c).proc = some p → (s.thread (.process p)).depth = 0 → a.pushes = true →
      s.step c a = some (.ok s₁) →
      -- it is the same process and has not come to its outermost `popcli`
      Run Step (fun t => 0 < (t.thread (.process p)).depth) s₁ es s₂ →
      (∀ e ∈ es, e.2 ≠ .create p) →
      (s₂.cpu c').proc = some p → (s₂.thread (.process p)).depth = 1 → a'.pops = true →
      s₂.step c' a' = some (.ok s₃) →
      (s₃.cpu c').flag = (s.cpu c).flag := by
  have hsound := hs.sound
  refine ⟨fun c hncli => ?_, fun c a e hstep => hsound.step hstep, ?_⟩
  · have hagrees := hsound.agrees c
    apply hagrees.off
    rw [hagrees.ncli] at hncli
    exact_mod_cast hncli
  · intro c a s₁ p es s₂ c' a' s₃ hproc hdepth ha hstep hrun hes hproc' hdepth' ha' hstep'
    have hfirst := outer_of_pushes hstep ha hproc hdepth
    have hkept : Sound s₂ ∧ ((∀ e ∈ es, e.2 ≠ .create p) →
        (s₂.thread (.process p)).outer = some (s.cpu c).flag) := by
      apply hrun.history (J := fun es t => Sound t ∧ ((∀ e ∈ es, e.2 ≠ .create p) →
        (t.thread (.process p)).outer = some (s.cpu c).flag)) _ ⟨hsound.step hstep, fun _ => hfirst⟩
      rintro gs t e t' ht - ⟨hI, houter⟩ he
      refine ⟨hI.step he, fun hgs => ?_⟩
      rw [Step.outer he ht (hgs e (by simp))]
      exact houter fun e' he' => hgs e' (by simp [he'])
    exact hkept.1.flag_of_pops hstep' ha' hproc' hdepth' (hkept.2 hes)

/-- The scheduler of processor 1 has found interrupts enabled; they are off again after
`yield`, as in the handler on processor 0. -/
theorem interrupts_survive_yield : ∃ s s₁ s₂ s₃ : State 2, Reachable s ∧
    s.step 0 (.acquire .ptable) = some (.ok s₁) ∧
    Run Step (fun t => 0 < (t.thread (.process 0)).depth) s₁ yielded s₂ ∧
    s₂.step 1 (.release .ptable) = some (.ok s₃) ∧ (s.cpu 0).flag = false ∧
    (s₃.cpu 1).flag = false := by
  obtain ⟨s, s₁, s₂, s₃, hs, hstep, hs₂, hstep', hproc, hdepth, hdepth₁, hproc', hdepth', hflag⟩ :
      ∃ s s₁ s₂ s₃, Run.play (stepInside false) (boot 2) interrupted = some s ∧
        s.step 0 (.acquire .ptable) = some (.ok s₁) ∧
        Run.play (stepInside true) s₁ yielded = some s₂ ∧
        s₂.step 1 (.release .ptable) = some (.ok s₃) ∧
        (s.cpu 0).proc = some 0 ∧ (s.thread (.process 0)).depth = 0 ∧
        0 < (s₁.thread (.process 0)).depth ∧
        (s₂.cpu 1).proc = some 0 ∧ (s₂.thread (.process 0)).depth = 1 ∧
        (s.cpu 0).flag = false :=
    ⟨_, _, _, _, rfl, rfl, rfl, rfl, rfl, rfl, by decide, rfl, rfl, rfl⟩
  have hreach : Reachable s := ⟨interrupted, Run.of_play_of
    (fun _ _ _ h => ⟨(stepInside_spec h).1, trivial⟩) trivial hs⟩
  have hrun : Run Step (fun t => 0 < (t.thread (.process 0)).depth) s₁ yielded s₂ :=
    Run.of_play_of (fun _ _ _ h => ⟨(stepInside_spec h).1, (stepInside_spec h).2 rfl⟩) hdepth₁ hs₂
  refine ⟨s, s₁, s₂, s₃, hreach, hstep, hrun, hstep', hflag, ?_⟩
  rw [← hflag]
  exact (interrupts_survive hreach).2.2 0 (.acquire .ptable) s₁ 0 yielded s₂ 1 (.release .ptable)
    s₃ hproc hdepth rfl hstep hrun (by simp [yielded]) hproc' hdepth' rfl hstep'

end Lock

end Xv6
