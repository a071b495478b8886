import Xv6.Proc.Machine

/-!
# What a step of the machine can do

The step function is inverted once: `Move` lists, for a step of processor `c`,
what it needs and what the machine looks like afterwards.  All invariants are
proved by cases on it, and the step function is not unfolded again.

The second half says what the loops over the table do to a single entry.
-/

namespace Xv6

open Support

/-- The failure exit of a phase of `fork`. -/
def Proc.undo (phase : ForkPhase) (p : Proc) : Proc :=
  { p with pgdir := if phase = .stack then p.pgdir else none, kstack := none, state := .unused }

@[simp] theorem Proc.undo_state (phase : ForkPhase) (p : Proc) :
    (p.undo phase).state = .unused :=
  rfl

@[simp] theorem Proc.undo_stack (p : Proc) : p.undo .stack = p.giveUp :=
  rfl

@[simp] theorem Proc.undo_memory (p : Proc) : p.undo .memory = p.discard :=
  rfl

namespace Machine

variable {n : ℕ} {m m' : Machine n} {c : Fin n} {e : Event}

/-! ## Components of the state after an elementary change -/

section Components

variable (m : Machine n) (c d : Fin n) (pc : Pc) (p q : Slot)

@[simp] theorem goto_ptable : (m.goto c pc).ptable = m.ptable := rfl
@[simp] theorem goto_nextpid : (m.goto c pc).nextpid = m.nextpid := rfl
@[simp] theorem goto_initproc : (m.goto c pc).initproc = m.initproc := rfl
@[simp] theorem goto_lock : (m.goto c pc).lock = m.lock := rfl
@[simp] theorem goto_frame : (m.goto c pc).frame = m.frame := rfl
@[simp] theorem goto_cpu :
    (m.goto c pc).cpu = Function.update m.cpu c { m.cpu c with pc := pc } := rfl
@[simp] theorem acquire_ptable : (m.acquire c pc).ptable = m.ptable := rfl
@[simp] theorem acquire_nextpid : (m.acquire c pc).nextpid = m.nextpid := rfl
@[simp] theorem acquire_initproc : (m.acquire c pc).initproc = m.initproc := rfl
@[simp] theorem acquire_lock : (m.acquire c pc).lock = some c := rfl
@[simp] theorem acquire_frame : (m.acquire c pc).frame = m.frame := rfl
@[simp] theorem acquire_cpu :
    (m.acquire c pc).cpu = Function.update m.cpu c { m.cpu c with pc := pc } := rfl
@[simp] theorem release_ptable : (m.release c pc).ptable = m.ptable := rfl
@[simp] theorem release_nextpid : (m.release c pc).nextpid = m.nextpid := rfl
@[simp] theorem release_initproc : (m.release c pc).initproc = m.initproc := rfl
@[simp] theorem release_lock : (m.release c pc).lock = none := rfl
@[simp] theorem release_frame : (m.release c pc).frame = m.frame := rfl
@[simp] theorem release_cpu :
    (m.release c pc).cpu = Function.update m.cpu c { m.cpu c with pc := pc } := rfl
@[simp] theorem setProc_ptable (x : Option Slot) : (m.setProc c x).ptable = m.ptable := rfl
@[simp] theorem setProc_nextpid (x : Option Slot) : (m.setProc c x).nextpid = m.nextpid := rfl
@[simp] theorem setProc_initproc (x : Option Slot) :
    (m.setProc c x).initproc = m.initproc := rfl
@[simp] theorem setProc_lock (x : Option Slot) : (m.setProc c x).lock = m.lock := rfl
@[simp] theorem setProc_frame (x : Option Slot) : (m.setProc c x).frame = m.frame := rfl
@[simp] theorem setProc_cpu (x : Option Slot) :
    (m.setProc c x).cpu = Function.update m.cpu c { m.cpu c with proc := x } := rfl
@[simp] theorem write_ptable (pr : Proc) :
    (m.write p pr).ptable = Function.update m.ptable p pr := rfl
@[simp] theorem write_nextpid (pr : Proc) : (m.write p pr).nextpid = m.nextpid := rfl
@[simp] theorem write_initproc (pr : Proc) : (m.write p pr).initproc = m.initproc := rfl
@[simp] theorem write_lock (pr : Proc) : (m.write p pr).lock = m.lock := rfl
@[simp] theorem write_cpu (pr : Proc) : (m.write p pr).cpu = m.cpu := rfl
@[simp] theorem write_frame (pr : Proc) : (m.write p pr).frame = m.frame := rfl
@[simp] theorem setTable_ptable (t : Ptable) : (m.setTable t).ptable = t := rfl
@[simp] theorem setTable_nextpid (t : Ptable) : (m.setTable t).nextpid = m.nextpid := rfl
@[simp] theorem setTable_initproc (t : Ptable) : (m.setTable t).initproc = m.initproc := rfl
@[simp] theorem setTable_lock (t : Ptable) : (m.setTable t).lock = m.lock := rfl
@[simp] theorem setTable_cpu (t : Ptable) : (m.setTable t).cpu = m.cpu := rfl
@[simp] theorem setTable_frame (t : Ptable) : (m.setTable t).frame = m.frame := rfl
@[simp] theorem setFrame_ptable (f : Option ForkFrame) :
    (m.setFrame p f).ptable = m.ptable := rfl
@[simp] theorem setFrame_nextpid (f : Option ForkFrame) :
    (m.setFrame p f).nextpid = m.nextpid := rfl
@[simp] theorem setFrame_initproc (f : Option ForkFrame) :
    (m.setFrame p f).initproc = m.initproc := rfl
@[simp] theorem setFrame_lock (f : Option ForkFrame) : (m.setFrame p f).lock = m.lock := rfl
@[simp] theorem setFrame_cpu (f : Option ForkFrame) : (m.setFrame p f).cpu = m.cpu := rfl
@[simp] theorem setFrame_frame (f : Option ForkFrame) :
    (m.setFrame p f).frame = Function.update m.frame p f := rfl

end Components

/-! ## The steps -/

/-- The steps of processor `c` that only move it on. -/
inductive Jump (m : Machine n) (c : Fin n) : Pc → Event → Prop
  /-- The scheduler found nothing. -/
  | idle (hpc : (m.cpu c).pc = .scan) (hproc : (m.cpu c).proc = none)
      (hmin : minP m.ptable = none) : Jump m c .finish .idle
  | switchIn (p : Slot) (hpc : (m.cpu c).pc = .switchIn) (hproc : (m.cpu c).proc = some p) :
      Jump m c .resume .tau
  /-- Into `forkret` or back into `yield`. -/
  | resume (p : Slot) (hpc : (m.cpu c).pc = .resume) (hproc : (m.cpu c).proc = some p)
      (hcontext : (m.ptable p).context = .forkret ∨ (m.ptable p).context = .yield) :
      Jump m c .leave .tau
  | waitFailed (p : Slot) (hpc : (m.cpu c).pc = .inside .wait)
      (hproc : (m.cpu c).proc = some p) : Jump m c .leave (.waitFailed p)
  | forkFailed (p : Slot) (tickets : ℤ) (hpc : (m.cpu c).pc = .inside (.fork tickets))
      (hproc : (m.cpu c).proc = some p) : Jump m c .leave (.forkFailed p)
  | switchOut (p : Slot) (hpc : (m.cpu c).pc = .parked) (hproc : (m.cpu c).proc = some p) :
      Jump m c .back .tau

/-- A step of processor `c` with its event and the machine after it. -/
inductive Move (m : Machine n) (c : Fin n) : Event → Machine n → Prop
  | jump (pc : Pc) (e : Event) (h : Jump m c pc e) : Move m c e (m.goto c pc)
  /-- The scheduler acquires the lock. -/
  | lock (hpc : (m.cpu c).pc = .loop) (hproc : (m.cpu c).proc = none)
      (hlock : m.lock = none) : Move m c .tau (m.acquire c .scan)
  /-- A process or a handler acquires the lock. -/
  | enter (k : Section) (hlock : m.lock = none)
      (hfrom : (∃ p, (m.cpu c).pc = .running ∧ (m.cpu c).proc = some p ∧
          m.canEnter p k = true) ∨
        ((m.cpu c).pc = .loop ∧ (m.cpu c).proc = none ∧ ∃ chan, k = .wakeup chan)) :
      Move m c .tau (m.acquire c (.inside k))
  /-- A process or a handler releases the lock. -/
  | leave (hpc : (m.cpu c).pc = .leave) :
      Move m c .tau (m.release c (if (m.cpu c).proc.isNone then .loop else .running))
  /-- The scheduler releases the lock. -/
  | unlock (hpc : (m.cpu c).pc = .finish) (hproc : (m.cpu c).proc = none) :
      Move m c .tau (m.release c .loop)
  | dispatch (p : Slot) (hpc : (m.cpu c).pc = .scan) (hproc : (m.cpu c).proc = none)
      (hmin : minP m.ptable = some p) :
      Move m c (.dispatch p)
        (((m.setProc c (some p)).write p (m.ptable p).dispatch).goto c .switchIn)
  /-- `proc = 0` in the scheduler. -/
  | clear (p : Slot) (hpc : (m.cpu c).pc = .back) (hproc : (m.cpu c).proc = some p) :
      Move m c .tau ((m.setProc c none).goto c .finish)
  /-- Back in `sleep`, called from `wait` or not. -/
  | awake (p : Slot) (pc : Pc) (hpc : (m.cpu c).pc = .resume)
      (hproc : (m.cpu c).proc = some p)
      (hcontext : ((m.ptable p).context = .sleep ∧ pc = .leave) ∨
        ((m.ptable p).context = .wait ∧ pc = .inside .wait)) :
      Move m c .tau ((m.write p (m.ptable p).tidyUp).goto c pc)
  | wakeup (chan : Option Chan) (hpc : (m.cpu c).pc = .inside (.wakeup chan)) :
      Move m c .tau ((m.setTable (wakeup1 chan m.ptable)).goto c .leave)
  | yield (p : Slot) (hpc : (m.cpu c).pc = .inside .yield) (hproc : (m.cpu c).proc = some p) :
      Move m c .tau ((m.write p ((m.ptable p).park .runnable .yield)).goto c .parked)
  | sleep (p : Slot) (addr : ℕ) (hpc : (m.cpu c).pc = .inside (.sleep addr))
      (hproc : (m.cpu c).proc = some p) :
      Move m c .tau (m.sleepOn c p (.other addr) .sleep)
  | exit (p : Slot) (hpc : (m.cpu c).pc = .inside .exit) (hproc : (m.cpu c).proc = some p) :
      Move m c (.exited p (m.ptable p).pid)
        ((m.setTable (exitTable m.initproc p m.ptable)).goto c .parked)
  | reap (p q : Slot) (hpc : (m.cpu c).pc = .inside .wait)
      (hproc : (m.cpu c).proc = some p) (hparent : (m.ptable q).parent = some p)
      (hzombie : (m.ptable q).state = .zombie) :
      Move m c (.reaped p q (m.ptable q).pid) ((m.write q (m.ptable q).reap).goto c .leave)
  /-- `wait` goes to sleep. -/
  | wait (p q : Slot) (hpc : (m.cpu c).pc = .inside .wait) (hproc : (m.cpu c).proc = some p)
      (hkid : (m.ptable q).parent = some p)
      (hnone : ∀ r, (m.ptable r).parent = some p → (m.ptable r).state ≠ .zombie) :
      Move m c .tau (m.sleepOn c p (.proc p) .wait)
  /-- `allocproc` takes the entry `q`. -/
  | alloc (p q : Slot) (tickets : ℤ) (hpc : (m.cpu c).pc = .inside (.fork tickets))
      (hproc : (m.cpu c).proc = some p) (hunused : (m.ptable q).state = .unused) :
      Move m c (.alloc p q m.nextpid)
        { ((m.write q ((m.ptable q).claim m.nextpid)).setFrame p
            (some ⟨q, tickets, .stack⟩)).goto c .leave with nextpid := int32 (m.nextpid + 1) }
  | kill (p : Slot) (pid : ℤ) (hpc : (m.cpu c).pc = .inside (.kill pid))
      (hproc : (m.cpu c).proc = some p) :
      Move m c (.kill pid (kill pid m.ptable).1)
        ((m.setTable (kill pid m.ptable).2).goto c .leave)
  /-- `allocproc` or `fork` runs out of memory. -/
  | giveUp (p : Slot) (f : ForkFrame) (hpc : (m.cpu c).pc = .running)
      (hproc : (m.cpu c).proc = some p) (hframe : m.frame p = some f)
      (hphase : f.phase = .stack ∨ f.phase = .memory) :
      Move m c (.forkFailed p)
        ((m.write f.child ((m.ptable f.child).undo f.phase)).setFrame p none)
  | prepare (p : Slot) (f : ForkFrame) (kstack : Page) (hpc : (m.cpu c).pc = .running)
      (hproc : (m.cpu c).proc = some p) (hframe : m.frame p = some f)
      (hphase : f.phase = .stack) :
      Move m c .tau
        ((m.write f.child ((m.ptable f.child).prepare f.tickets kstack)).setFrame p
          (some { f with phase := .memory }))
  | inherit (p : Slot) (f : ForkFrame) (pgdir : Page) (hpc : (m.cpu c).pc = .running)
      (hproc : (m.cpu c).proc = some p) (hframe : m.frame p = some f)
      (hphase : f.phase = .memory) :
      Move m c .tau
        ((m.write f.child ((m.ptable f.child).inherit p pgdir)).setFrame p
          (some { f with phase := .files }))
  | forked (p : Slot) (f : ForkFrame) (hpc : (m.cpu c).pc = .running)
      (hproc : (m.cpu c).proc = some p) (hframe : m.frame p = some f)
      (hphase : f.phase = .files) :
      Move m c (.forked p f.child (m.ptable f.child).pid)
        ((m.write f.child (m.ptable f.child).ready).setFrame p none)
  | fault (p : Slot) (hpc : (m.cpu c).pc = .running) (hproc : (m.cpu c).proc = some p)
      (hframe : m.frame p = none) :
      Move m c .tau (m.write p (m.ptable p).markKilled)

theorem findZombie_some {t : Ptable} {p q : Slot} (h : findZombie p t = some q) :
    (t q).parent = some p ∧ (t q).state = .zombie := by
  have hq := List.find?_some h
  simpa using hq

theorem findZombie_none {t : Ptable} {p : Slot} (h : findZombie p t = none) (q : Slot)
    (hq : (t q).parent = some p) : (t q).state ≠ .zombie := by
  have hall := List.find?_eq_none.mp h q (mem_slots q)
  simp only [decide_eq_true_eq, not_and] at hall
  exact hall hq

theorem havekids_iff {t : Ptable} {p : Slot} :
    havekids p t = true ↔ ∃ q, (t q).parent = some p := by
  simp [havekids]

theorem findUnused_some {t : Ptable} {q : Slot} (h : findUnused t = some q) :
    (t q).state = .unused := by
  have hq := List.find?_some h
  simpa using hq

theorem body_move {k : Section} (hpc : (m.cpu c).pc = .inside k)
    (h : m.body c k (m.cpu c).proc = some (m', e)) : Move m c e m' := by
  cases k with
  | wakeup chan =>
      simp only [body, Option.some.injEq, Prod.mk.injEq] at h
      obtain ⟨rfl, rfl⟩ := h
      exact .wakeup chan hpc
  | yield =>
      cases hproc : (m.cpu c).proc with
      | none => simp [body, hproc] at h
      | some p =>
          simp only [body, hproc, Option.some.injEq, Prod.mk.injEq] at h
          obtain ⟨rfl, rfl⟩ := h
          exact .yield p hpc hproc
  | sleep addr =>
      cases hproc : (m.cpu c).proc with
      | none => simp [body, hproc] at h
      | some p =>
          simp only [body, hproc, Option.some.injEq, Prod.mk.injEq] at h
          obtain ⟨rfl, rfl⟩ := h
          exact .sleep p addr hpc hproc
  | exit =>
      cases hproc : (m.cpu c).proc with
      | none => simp [body, hproc] at h
      | some p =>
          simp only [body, hproc, Option.some.injEq, Prod.mk.injEq] at h
          obtain ⟨rfl, rfl⟩ := h
          exact .exit p hpc hproc
  | kill pid =>
      cases hproc : (m.cpu c).proc with
      | none => simp [body, hproc] at h
      | some p =>
          simp only [body, hproc, Option.some.injEq, Prod.mk.injEq] at h
          obtain ⟨rfl, rfl⟩ := h
          exact .kill p pid hpc hproc
  | wait =>
      cases hproc : (m.cpu c).proc with
      | none => simp [body, hproc] at h
      | some p =>
          simp only [body, hproc, Option.some.injEq, waitBody] at h
          cases hfind : findZombie p m.ptable with
          | some q =>
              simp only [hfind, Prod.mk.injEq] at h
              obtain ⟨rfl, rfl⟩ := h
              obtain ⟨hparent, hzombie⟩ := findZombie_some hfind
              exact .reap p q hpc hproc hparent hzombie
          | none =>
              simp only [hfind] at h
              split at h
              · obtain ⟨rfl, rfl⟩ := Prod.mk.inj h
                exact .jump _ _ (.waitFailed p hpc hproc)
              · next hkids =>
                obtain ⟨rfl, rfl⟩ := Prod.mk.inj h
                obtain ⟨q, hq⟩ : ∃ q, (m.ptable q).parent = some p := by
                  rw [← havekids_iff]
                  simpa using fun hk => hkids (Or.inl hk)
                exact .wait p q hpc hproc hq (findZombie_none hfind)
  | fork tickets =>
      cases hproc : (m.cpu c).proc with
      | none => simp [body, hproc] at h
      | some p =>
          simp only [body, hproc, Option.some.injEq, forkBody] at h
          cases hfind : findUnused m.ptable with
          | none =>
              simp only [hfind, Prod.mk.injEq] at h
              obtain ⟨rfl, rfl⟩ := h
              exact .jump _ _ (.forkFailed p tickets hpc hproc)
          | some q =>
              simp only [hfind, Prod.mk.injEq] at h
              obtain ⟨rfl, rfl⟩ := h
              exact .alloc p q tickets hpc hproc (findUnused_some hfind)

theorem schedule_move (hpc : (m.cpu c).pc = .scan) (hproc : (m.cpu c).proc = none)
    (h : m.schedule c = (m', e)) : Move m c e m' := by
  unfold schedule at h
  cases hmin : minP m.ptable with
  | none =>
      simp only [hmin, Prod.mk.injEq] at h
      obtain ⟨rfl, rfl⟩ := h
      exact .jump _ _ (.idle hpc hproc hmin)
  | some p =>
      simp only [hmin, Prod.mk.injEq] at h
      obtain ⟨rfl, rfl⟩ := h
      exact .dispatch p hpc hproc hmin

theorem continueFrom_move {p : Slot} {context : Context} (hpc : (m.cpu c).pc = .resume)
    (hproc : (m.cpu c).proc = some p) (hcontext : (m.ptable p).context = context)
    (h : m.continueFrom c p context = some m') : Move m c .tau m' := by
  cases context with
  | forkret =>
      simp only [continueFrom, Option.some.injEq] at h
      subst h
      exact .jump _ _ (.resume p hpc hproc (Or.inl hcontext))
  | yield =>
      simp only [continueFrom, Option.some.injEq] at h
      subst h
      exact .jump _ _ (.resume p hpc hproc (Or.inr hcontext))
  | sleep =>
      simp only [continueFrom, Option.some.injEq] at h
      subst h
      exact .awake p .leave hpc hproc (Or.inl ⟨hcontext, rfl⟩)
  | wait =>
      simp only [continueFrom, Option.some.injEq] at h
      subst h
      exact .awake p (.inside .wait) hpc hproc (Or.inr ⟨hcontext, rfl⟩)
  | exit => simp [continueFrom] at h

theorem go_move (h : m.go c = some (m', e)) : Move m c e m' := by
  unfold go at h
  split at h
  · next hpc hproc =>
    split at h
    · next hlock =>
      obtain ⟨rfl, rfl⟩ := Prod.mk.inj (Option.some.inj h)
      exact .lock hpc hproc hlock
    · cases h
  · next hpc hproc => exact schedule_move hpc hproc (Option.some.inj h)
  · next hpc hproc =>
    obtain ⟨rfl, rfl⟩ := Prod.mk.inj (Option.some.inj h)
    exact .jump _ _ (.switchIn _ hpc hproc)
  · next p hpc hproc =>
    obtain ⟨m₁, hm₁, heq⟩ := Option.map_eq_some_iff.mp h
    obtain ⟨rfl, rfl⟩ := Prod.mk.inj heq
    exact continueFrom_move hpc hproc rfl hm₁
  · next k hpc => exact body_move hpc h
  · next hpc =>
    obtain ⟨rfl, rfl⟩ := Prod.mk.inj (Option.some.inj h)
    exact .leave hpc
  · next hpc hproc =>
    obtain ⟨rfl, rfl⟩ := Prod.mk.inj (Option.some.inj h)
    exact .jump _ _ (.switchOut _ hpc hproc)
  · next hpc hproc =>
    obtain ⟨rfl, rfl⟩ := Prod.mk.inj (Option.some.inj h)
    exact .clear _ hpc hproc
  · next hpc hproc =>
    obtain ⟨rfl, rfl⟩ := Prod.mk.inj (Option.some.inj h)
    exact .unlock hpc hproc
  · cases h

theorem enter_move {k : Section} (h : m.enter c k = some m') :
    m' = m.acquire c (.inside k) ∧ Move m c .tau m' := by
  unfold enter at h
  split at h
  · next p hpc hproc =>
    split at h
    · next hguard =>
      obtain rfl := Option.some.inj h
      exact ⟨rfl, .enter _ hguard.1 (Or.inl ⟨p, hpc, hproc, hguard.2⟩)⟩
    · cases h
  · next chan hpc hproc =>
    split at h
    · next hlock =>
      obtain rfl := Option.some.inj h
      exact ⟨rfl, .enter _ hlock (Or.inr ⟨hpc, hproc, chan, rfl⟩)⟩
    · cases h
  · cases h

theorem trap_enter {num : ℕ} {arg : ℕ → Option ℤ} (h : m.trap c num arg = some m') :
    ∃ p k, (m.cpu c).proc = some p ∧ syscall num arg = some k ∧ m.enter c k = some m' := by
  unfold trap at h
  split at h
  · next p k hproc hk =>
    split at h
    · exact ⟨p, k, hproc, hk, h⟩
    · cases h
  · cases h

theorem forkStep_move {p : Slot} {page : Option Page} (hpc : (m.cpu c).pc = .running)
    (hproc : (m.cpu c).proc = some p) (h : m.forkStep p page = some (m', e)) :
    Move m c e m' := by
  obtain ⟨f, hframe, heq⟩ := Option.map_eq_some_iff.mp h
  cases hphase : f.phase with
  | stack =>
      cases page with
      | none =>
          simp only [hphase, forkStack, Prod.mk.injEq] at heq
          obtain ⟨rfl, rfl⟩ := heq
          simpa [hphase] using Move.giveUp p f hpc hproc hframe (Or.inl hphase)
      | some kstack =>
          simp only [hphase, forkStack, Prod.mk.injEq] at heq
          obtain ⟨rfl, rfl⟩ := heq
          exact .prepare p f kstack hpc hproc hframe hphase
  | memory =>
      cases page with
      | none =>
          simp only [hphase, forkMemory, Prod.mk.injEq] at heq
          obtain ⟨rfl, rfl⟩ := heq
          simpa [hphase] using Move.giveUp p f hpc hproc hframe (Or.inr hphase)
      | some pgdir =>
          simp only [hphase, forkMemory, Prod.mk.injEq] at heq
          obtain ⟨rfl, rfl⟩ := heq
          exact .inherit p f pgdir hpc hproc hframe hphase
  | files =>
      simp only [hphase, forkDone, Prod.mk.injEq] at heq
      obtain ⟨rfl, rfl⟩ := heq
      exact .forked p f hpc hproc hframe hphase

/-- Every step is one of the listed moves. -/
theorem step_move {a : Action} (h : m.step c a = some (m', e)) : Move m c e m' := by
  cases a with
  | go => exact go_move h
  | enter k =>
      obtain ⟨m₁, hm₁, heq⟩ := Option.map_eq_some_iff.mp h
      obtain ⟨rfl, rfl⟩ := Prod.mk.inj heq
      exact (enter_move hm₁).2
  | syscall num arg =>
      obtain ⟨m₁, hm₁, heq⟩ := Option.map_eq_some_iff.mp h
      obtain ⟨rfl, rfl⟩ := Prod.mk.inj heq
      obtain ⟨p, k, _, _, henter⟩ := trap_enter hm₁
      exact (enter_move henter).2
  | fork page =>
      simp only [step] at h
      split at h
      · next p hpc hproc => exact forkStep_move hpc hproc h
      · cases h
  | fault =>
      simp only [step] at h
      split at h
      · next p hpc hproc =>
        split at h
        · next hframe =>
          obtain ⟨rfl, rfl⟩ := Prod.mk.inj (Option.some.inj h)
          exact .fault p hpc hproc hframe
        · cases h
      · cases h

end Machine

/-! ## The loops over the table, entry by entry -/

theorem wakeup1_cases (chan : Option Chan) (t : Ptable) (p : Slot) :
    wakeup1 chan t p = t p ∨
      ((t p).state = .sleeping ∧ wakeup1 chan t p = (t p).ready) := by
  unfold wakeup1
  split
  · next h => exact Or.inr ⟨h.1, rfl⟩
  · exact Or.inl rfl

/-- `kill` finds the first entry with the pid and marks it, or finds none. -/
theorem kill_cases (pid : ℤ) (t : Ptable) :
    (∃ p, (t p).pid = pid ∧ (∀ q, q < p → (t q).pid ≠ pid) ∧
        kill pid t = (0, Function.update t p
          (if (t p).state = .sleeping then (t p).markKilled.ready else (t p).markKilled))) ∨
      ((∀ q, (t q).pid ≠ pid) ∧ kill pid t = (-1, t)) := by
  unfold kill
  cases hfind : slots.find? fun p => (t p).pid = pid with
  | none =>
      have hall := List.find?_eq_none.mp hfind
      exact Or.inr ⟨fun q => by simpa using hall q (mem_slots q), rfl⟩
  | some p =>
      obtain ⟨hp, before, after, hsplit, hbefore⟩ := List.find?_eq_some_iff_append.mp hfind
      refine Or.inl ⟨p, by simpa using hp, ?_, rfl⟩
      intro q hq
      have hmem : q ∈ before ++ p :: after := hsplit ▸ mem_slots q
      have hsorted := hsplit ▸ slots_sorted
      rcases List.mem_append.mp hmem with hq' | hq'
      · simpa using hbefore q hq'
      · rcases List.mem_cons.mp hq' with rfl | hq'
        · exact absurd hq (lt_irrefl _)
        · have hlater := (List.pairwise_cons.mp (List.pairwise_append.mp hsorted).2.1).1 q hq'
          exact absurd hq (lt_asymm hlater)

/-- An entry after the loop of `exit` has passed the children among `ps`. -/
def passed (init me : Slot) (ps : List Slot) (t : Ptable) (p : Slot) : Proc :=
  { t p with
    parent := if p ∈ ps ∧ (t p).parent = some me then some init else (t p).parent
    state :=
      if (t p).state = .sleeping ∧ (t p).chan = some (.proc init) ∧
        ∃ z ∈ ps, (t z).parent = some me ∧ (t z).state = .zombie then .runnable
      else (t p).state }

theorem foldl_passChild {init me : Slot} (hinit : me ≠ init) (ps : List Slot) (t : Ptable) :
    ps.foldl (passChild init me) t = passed init me ps t := by
  induction ps using List.reverseRecOn with
  | nil =>
      funext p
      simp [passed]
  | append_singleton ps a ih =>
      rw [List.foldl_append, ih, List.foldl_cons, List.foldl_nil]
      have hzombie : (passed init me ps t a).state = .zombie ↔ (t a).state = .zombie := by
        simp only [passed]
        split <;> simp_all
      -- the entry is a child that the loop has not come to yet, or nothing happens
      by_cases hchild : (t a).parent = some me ∧ a ∉ ps
      · have hparent : (passed init me ps t a).parent = some me := by
          simp [passed, hchild]
        funext p
        rw [passChild, if_pos hparent]
        by_cases hz : (t a).state = .zombie
        · simp only [Function.update_self]
          rw [if_pos (hzombie.mpr hz)]
          by_cases hp : p = a
          · subst hp
            simp [wakeup1, passed, hz, hchild]
          · have hex : ∃ z ∈ ps ++ [a], (t z).parent = some me ∧ (t z).state = .zombie :=
              ⟨a, by simp, hchild.1, hz⟩
            have hmem : p ∈ ps ++ [a] ↔ p ∈ ps := by simp [hp]
            simp only [wakeup1, Function.update_of_ne hp, passed, hmem, hex, and_true]
            by_cases hsleep : (t p).state = .sleeping ∧ (t p).chan = some (.proc init)
            · simp only [hsleep.1, hsleep.2, true_and, and_true, if_true, Proc.ready]
              split <;> simp
            · have hawake : ¬((t p).state = .sleeping ∧ (t p).chan = some (.proc init) ∧
                  ∃ z ∈ ps, (t z).parent = some me ∧ (t z).state = .zombie) :=
                fun h => hsleep ⟨h.1, h.2.1⟩
              simp only [if_neg hsleep, if_neg hawake]
        · simp only [Function.update_self]
          rw [if_neg (fun h => hz (hzombie.mp h))]
          have hex : (∃ z ∈ ps ++ [a], (t z).parent = some me ∧ (t z).state = .zombie) ↔
              ∃ z ∈ ps, (t z).parent = some me ∧ (t z).state = .zombie := by
            simp [or_and_right, exists_or, hz]
          by_cases hp : p = a
          · subst hp
            simp only [Function.update_self, passed, hex]
            simp [hchild]
          · have hmem : p ∈ ps ++ [a] ↔ p ∈ ps := by simp [hp]
            simp only [Function.update_of_ne hp, passed, hex, hmem]
      · have hparent : (passed init me ps t a).parent ≠ some me := by
          by_cases ha : a ∈ ps
          · by_cases hme : (t a).parent = some me
            · simp [passed, ha, hme, Ne.symm hinit]
            · simp [passed, hme]
          · have hme : (t a).parent ≠ some me := fun h => hchild ⟨h, ha⟩
            simp [passed, hme]
        have hex : (∃ z ∈ ps ++ [a], (t z).parent = some me ∧ (t z).state = .zombie) ↔
            ∃ z ∈ ps, (t z).parent = some me ∧ (t z).state = .zombie := by
          simp only [List.mem_append, List.mem_singleton]
          grind
        have hmem : ∀ p, (p ∈ ps ++ [a] ∧ (t p).parent = some me) ↔
            (p ∈ ps ∧ (t p).parent = some me) := by
          intro p
          simp only [List.mem_append, List.mem_singleton]
          grind
        funext p
        rw [passChild, if_neg hparent]
        simp only [passed, hex, hmem]

theorem exitTable_self {init me : Slot} (hinit : me ≠ init) (t : Ptable) :
    exitTable init me t me =
      { t me with
        parent := if (t me).parent = some me then some init else (t me).parent
        state := .zombie
        context := .exit } := by
  simp only [exitTable, foldl_passChild hinit, Function.update_self, passed, wakeup1]
  split <;> simp [Proc.ready]

/-- An entry other than that of the process that exits: its children go to
`initproc`; its parent wakes up if it sleeps in `wait`, and so does `initproc` if
it inherits a `ZOMBIE`. -/
theorem exitTable_of_ne {init me p : Slot} (hinit : me ≠ init) (hp : p ≠ me) (t : Ptable) :
    exitTable init me t p =
      { t p with
        parent := if (t p).parent = some me then some init else (t p).parent
        state :=
          if (t p).state = .sleeping ∧ ((t p).chan = (t me).parent.map .proc ∨
            (t p).chan = some (.proc init) ∧
              ∃ z, (t z).parent = some me ∧ (t z).state = .zombie) then .runnable
          else (t p).state } := by
  have hz : (∃ z, (t z).parent = some me ∧ (t z).state = .zombie) ↔
      ∃ z ∈ slots, (wakeup1 ((t me).parent.map .proc) t z).parent = some me ∧
        (wakeup1 ((t me).parent.map .proc) t z).state = .zombie := by
    simp only [mem_slots, true_and, wakeup1]
    refine exists_congr fun z => ?_
    split
    · next h => simp [Proc.ready, h.1]
    · exact Iff.rfl
  simp only [exitTable, foldl_passChild hinit, Function.update_of_ne hp, passed, ← hz]
  simp only [mem_slots, true_and, wakeup1]
  by_cases hs : (t p).state = .sleeping ∧ (t p).chan = (t me).parent.map .proc
  · simp [hs, Proc.ready]
  · by_cases hs' : (t p).state = .sleeping
    · have hne : (t p).chan ≠ (t me).parent.map .proc := fun h => hs ⟨hs', h⟩
      simp [hs', hne]
    · simp [hs']

theorem exitTable_state_cases {init me p : Slot} (hinit : me ≠ init) (hp : p ≠ me)
    (t : Ptable) :
    (exitTable init me t p).state = (t p).state ∨
      ((t p).state = .sleeping ∧ (exitTable init me t p).state = .runnable) := by
  rw [exitTable_of_ne hinit hp]
  simp only
  split
  · next h => exact Or.inr ⟨h.1, rfl⟩
  · exact Or.inl rfl

/-! ## One entry in a step -/

/-- Whether an event always comes with a change of the entry `q`. -/
def Event.touches (q : Slot) : Event → Bool
  | .dispatch p => p = q
  | .alloc _ p _ => p = q
  | .forked _ p _ => p = q
  | .reaped _ p _ => p = q
  | .exited _ _ => true
  | _ => false

namespace Machine

variable {n : ℕ} {m m' : Machine n} {c : Fin n} {e : Event}

/-- What a step of processor `c` can do to the entry `q`. -/
inductive Change (m : Machine n) (c : Fin n) (q : Slot) : Event → Proc → Prop
  | keep (e : Event) (he : e.touches q = false) : Change m c q e (m.ptable q)
  | dispatch (hpc : (m.cpu c).pc = .scan) (hmin : minP m.ptable = some q) :
      Change m c q (.dispatch q) (m.ptable q).dispatch
  | tidyUp (hpc : (m.cpu c).pc = .resume) (hproc : (m.cpu c).proc = some q) :
      Change m c q .tau (m.ptable q).tidyUp
  | fault (hpc : (m.cpu c).pc = .running) (hproc : (m.cpu c).proc = some q) :
      Change m c q .tau (m.ptable q).markKilled
  | wakeup (hsleep : (m.ptable q).state = .sleeping) : Change m c q .tau (m.ptable q).ready
  | kill (pid : ℤ) (hpid : (m.ptable q).pid = pid) (hawake : (m.ptable q).state ≠ .sleeping) :
      Change m c q (.kill pid 0) (m.ptable q).markKilled
  | killAsleep (pid : ℤ) (hpid : (m.ptable q).pid = pid)
      (hsleep : (m.ptable q).state = .sleeping) :
      Change m c q (.kill pid 0) (m.ptable q).markKilled.ready
  | yield (hpc : (m.cpu c).pc = .inside .yield) (hproc : (m.cpu c).proc = some q) :
      Change m c q .tau ((m.ptable q).park .runnable .yield)
  | sleep (k : Section) (chan : Chan) (context : Context) (hpc : (m.cpu c).pc = .inside k)
      (hproc : (m.cpu c).proc = some q)
      (hk : (k = .wait ∧ context = .wait ∧ chan = .proc q) ∨
        ∃ addr, k = .sleep addr ∧ context = .sleep ∧ chan = .other addr) :
      Change m c q .tau ({ m.ptable q with chan := some chan }.park .sleeping context)
  | exit (hpc : (m.cpu c).pc = .inside .exit) (hproc : (m.cpu c).proc = some q) :
      Change m c q (.exited q (m.ptable q).pid) (exitTable m.initproc q m.ptable q)
  | handOver (p : Slot) (hpc : (m.cpu c).pc = .inside .exit) (hproc : (m.cpu c).proc = some p)
      (hne : q ≠ p) :
      Change m c q (.exited p (m.ptable p).pid) (exitTable m.initproc p m.ptable q)
  | reap (p : Slot) (hpc : (m.cpu c).pc = .inside .wait) (hproc : (m.cpu c).proc = some p)
      (hparent : (m.ptable q).parent = some p) (hzombie : (m.ptable q).state = .zombie) :
      Change m c q (.reaped p q (m.ptable q).pid) (m.ptable q).reap
  | alloc (p : Slot) (hproc : (m.cpu c).proc = some p)
      (hunused : (m.ptable q).state = .unused) :
      Change m c q (.alloc p q m.nextpid) ((m.ptable q).claim m.nextpid)
  | giveUp (p : Slot) (f : ForkFrame) (hproc : (m.cpu c).proc = some p)
      (hframe : m.frame p = some f) (hchild : f.child = q) (hphase : f.phase ≠ .files) :
      Change m c q (.forkFailed p) ((m.ptable q).undo f.phase)
  | prepare (p : Slot) (f : ForkFrame) (kstack : Page) (hproc : (m.cpu c).proc = some p)
      (hframe : m.frame p = some f) (hchild : f.child = q) (hphase : f.phase = .stack) :
      Change m c q .tau ((m.ptable q).prepare f.tickets kstack)
  | inherit (p : Slot) (f : ForkFrame) (pgdir : Page) (hproc : (m.cpu c).proc = some p)
      (hframe : m.frame p = some f) (hchild : f.child = q) (hphase : f.phase = .memory) :
      Change m c q .tau ((m.ptable q).inherit p pgdir)
  | forked (p : Slot) (f : ForkFrame) (hproc : (m.cpu c).proc = some p)
      (hframe : m.frame p = some f) (hchild : f.child = q) (hphase : f.phase = .files) :
      Change m c q (.forked p q (m.ptable q).pid) (m.ptable q).ready

theorem Move.change (hmove : Move m c e m') (q : Slot) : Change m c q e (m'.ptable q) := by
  cases hmove with
  | jump pc e hjump => exact .keep e (by cases hjump <;> rfl)
  | lock hpc hproc hlock => exact .keep _ rfl
  | enter k hlock hfrom => exact .keep _ rfl
  | leave hpc => exact .keep _ rfl
  | unlock hpc hproc => exact .keep _ rfl
  | clear p hpc hproc => exact .keep _ rfl
  | dispatch p hpc hproc hmin =>
      by_cases hq : q = p
      · subst hq
        simpa using Change.dispatch hpc hmin
      · simpa [hq] using Change.keep (m := m) (c := c) (.dispatch p)
          (by simpa [Event.touches] using Ne.symm hq)
  | awake p pc hpc hproc hcontext =>
      by_cases hq : q = p
      · subst hq
        simpa using Change.tidyUp hpc hproc
      · simpa [hq] using Change.keep (m := m) (c := c) (q := q) .tau rfl
  | wakeup chan hpc =>
      rcases wakeup1_cases chan m.ptable q with hq | ⟨hsleep, hq⟩
      · simpa [hq] using Change.keep (m := m) (c := c) (q := q) .tau rfl
      · simpa [hq] using Change.wakeup (c := c) hsleep
  | yield p hpc hproc =>
      by_cases hq : q = p
      · subst hq
        simpa using Change.yield hpc hproc
      · simpa [hq] using Change.keep (m := m) (c := c) (q := q) .tau rfl
  | sleep p addr hpc hproc =>
      by_cases hq : q = p
      · subst hq
        simpa [sleepOn] using Change.sleep (.sleep addr) (.other addr) .sleep hpc hproc
          (Or.inr ⟨addr, rfl, rfl, rfl⟩)
      · simpa [sleepOn, hq] using Change.keep (m := m) (c := c) (q := q) .tau rfl
  | wait p r hpc hproc hkid hnone =>
      by_cases hq : q = p
      · subst hq
        simpa [sleepOn] using Change.sleep .wait (.proc q) .wait hpc hproc (Or.inl ⟨rfl, rfl, rfl⟩)
      · simpa [sleepOn, hq] using Change.keep (m := m) (c := c) (q := q) .tau rfl
  | exit p hpc hproc =>
      by_cases hq : q = p
      · subst hq
        exact .exit hpc hproc
      · exact .handOver p hpc hproc hq
  | reap p r hpc hproc hparent hzombie =>
      by_cases hq : q = r
      · subst hq
        simpa using Change.reap p hpc hproc hparent hzombie
      · simpa [hq] using Change.keep (m := m) (c := c) (q := q)
          (.reaped p r (m.ptable r).pid) (by simpa [Event.touches] using Ne.symm hq)
  | alloc p r tickets hpc hproc hunused =>
      by_cases hq : q = r
      · subst hq
        simpa using Change.alloc p hproc hunused
      · simpa [hq] using Change.keep (m := m) (c := c) (q := q) (.alloc p r m.nextpid)
          (by simpa [Event.touches] using Ne.symm hq)
  | kill p pid hpc hproc =>
      rcases kill_cases pid m.ptable with ⟨r, hpid, _, hkill⟩ | ⟨_, hkill⟩
      · by_cases hq : q = r
        · subst hq
          by_cases hsleep : (m.ptable q).state = .sleeping
          · simpa [hkill, hsleep] using Change.killAsleep (c := c) pid hpid hsleep
          · simpa [hkill, hsleep] using Change.kill (c := c) pid hpid hsleep
        · simpa [hkill, hq] using Change.keep (m := m) (c := c) (q := q) (.kill pid 0) rfl
      · simpa [hkill] using Change.keep (m := m) (c := c) (q := q) (.kill pid (-1)) rfl
  | giveUp p f hpc hproc hframe hphase =>
      by_cases hq : q = f.child
      · subst hq
        have hfiles : f.phase ≠ .files := by rcases hphase with h | h <;> simp [h]
        simpa using Change.giveUp p f hproc hframe rfl hfiles
      · simpa [hq] using Change.keep (m := m) (c := c) (q := q) (.forkFailed p) rfl
  | prepare p f kstack hpc hproc hframe hphase =>
      by_cases hq : q = f.child
      · subst hq
        simpa using Change.prepare p f kstack hproc hframe rfl hphase
      · simpa [hq] using Change.keep (m := m) (c := c) (q := q) .tau rfl
  | inherit p f pgdir hpc hproc hframe hphase =>
      by_cases hq : q = f.child
      · subst hq
        simpa using Change.inherit p f pgdir hproc hframe rfl hphase
      · simpa [hq] using Change.keep (m := m) (c := c) (q := q) .tau rfl
  | forked p f hpc hproc hframe hphase =>
      by_cases hq : q = f.child
      · subst hq
        simpa using Change.forked p f hproc hframe rfl hphase
      · simpa [hq] using Change.keep (m := m) (c := c) (q := q)
          (.forked p f.child (m.ptable f.child).pid) (by simpa [Event.touches] using Ne.symm hq)
  | fault p hpc hproc hframe =>
      by_cases hq : q = p
      · subst hq
        simpa using Change.fault hpc hproc
      · simpa [hq] using Change.keep (m := m) (c := c) (q := q) .tau rfl

end Machine

end Xv6
