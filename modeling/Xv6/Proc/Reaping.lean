import Xv6.Proc.Family

/-!
# Every process is waited for once

Process identifiers over whole runs.  As long as `nextpid` has not wrapped
around, the identifiers in use are distinct and an identifier that `wait` has
returned is never in use again; so `wait` returns each of them at most once.
The history of a run enters only through its events.
-/

namespace Xv6

open Support

/-- `allocproc` found an entry. -/
def Event.isAlloc : Event → Bool
  | .alloc _ _ _ => true
  | _ => false

/-- `wait` returned `pid`. -/
def Event.isReap (pid : ℤ) : Event → Bool
  | .reaped _ _ x => x = pid
  | _ => false

/-- The number of processes allocated in a run, after the first one. -/
def allocs (es : List Event) : ℕ :=
  es.countP Event.isAlloc

namespace Machine

variable {n : ℕ} {m m' : Machine n} {c : Fin n} {e : Event} {es : List Event}

/-- The invariant of the identifiers after the events `es`. -/
structure Pids (es : List Event) (m : Machine n) : Prop where
  next : m.nextpid = 2 + allocs es
  range : ∀ q, (m.ptable q).state ≠ .unused → (m.ptable q).pid < m.nextpid
  distinct : ∀ p q, (m.ptable p).state ≠ .unused → (m.ptable q).state ≠ .unused →
    (m.ptable p).pid = (m.ptable q).pid → p = q
  zombie : ∀ q, (m.ptable q).state = .zombie → .exited q (m.ptable q).pid ∈ es
  reaped : ∀ p q pid, .reaped p q pid ∈ es →
    pid < m.nextpid ∧ ∀ r, (m.ptable r).state ≠ .unused → (m.ptable r).pid ≠ pid
  forked : ∀ p q pid, .forked p q pid ∈ es →
    pid < m.nextpid ∧ ∀ r, (m.ptable r).state ≠ .unused → (m.ptable r).pid = pid → r = q
  once : ∀ pid, es.countP (Event.isReap pid) ≤ 1

/-! ## Steps -/

/-- An entry in use keeps its identifier. -/
theorem Change.pid {q : Slot} {pr : Proc} (h : Sound m) (hch : Change m c q e pr)
    (hused : pr.state ≠ .unused) :
    ((m.ptable q).state ≠ .unused ∧ pr.pid = (m.ptable q).pid ∧
        ∀ p pid, e ≠ .reaped p q pid) ∨
      (∃ p, e = .alloc p q m.nextpid ∧ (m.ptable q).state = .unused ∧ pr.pid = m.nextpid) := by
  cases hch with
  | keep e he =>
      refine Or.inl ⟨hused, rfl, ?_⟩
      rintro p pid rfl
      simp [Event.touches] at he
  | alloc p hproc hunused => exact Or.inr ⟨p, rfl, hunused, rfl⟩
  | reap _ _ _ _ _ => simp [Proc.reap] at hused
  | giveUp _ _ _ _ _ _ => simp at hused
  | yield hpc hproc => exact Or.inl ⟨by simp [h.frame_running hpc hproc], rfl, by simp⟩
  | sleep _ _ _ hpc hproc _ => exact Or.inl ⟨by simp [h.frame_running hpc hproc], rfl, by simp⟩
  | exit hpc hproc =>
      refine Or.inl ⟨by simp [h.frame_running hpc hproc], ?_, by simp⟩
      rw [exitTable_self (h.exiting hpc hproc).1]
  | handOver p hpc hproc hne =>
      have hinit := (h.exiting hpc hproc).1
      refine Or.inl ⟨?_, by rw [exitTable_of_ne hinit hne], by simp⟩
      rcases exitTable_state_cases hinit hne m.ptable with heq | ⟨hsleep, _⟩
      · exact heq ▸ hused
      · simp [hsleep]
  | forked p f _ hframe hchild _ =>
      have hembryo := (h.forks.frame p f hframe).2
      exact Or.inl ⟨by simp [← hchild, hembryo], rfl, by simp⟩
  | dispatch _ hmin => exact Or.inl ⟨by simp [(minP_runnable hmin).1], rfl, by simp⟩
  | wakeup hsleep => exact Or.inl ⟨by simp [hsleep], rfl, by simp⟩
  | killAsleep _ _ hsleep => exact Or.inl ⟨by simp [hsleep], rfl, by simp⟩
  | _ => exact Or.inl ⟨hused, rfl, by simp⟩

theorem Move.nextpid_cases (hmove : Move m c e m') :
    (m'.nextpid = m.nextpid ∧ e.isAlloc = false) ∨
      (∃ p q, e = .alloc p q m.nextpid ∧ m'.nextpid = int32 (m.nextpid + 1)) := by
  cases hmove with
  | alloc p q tickets _ _ _ => exact Or.inr ⟨p, q, rfl, rfl⟩
  | jump pc _ hjump => cases hjump <;> exact Or.inl ⟨rfl, rfl⟩
  | _ => exact Or.inl ⟨rfl, rfl⟩

theorem Move.reaped {p q : Slot} {pid : ℤ} (hmove : Move m c (.reaped p q pid) m') :
    (m.ptable q).parent = some p ∧ (m.ptable q).state = .zombie ∧ (m.ptable q).pid = pid ∧
      (m'.ptable q).state = .unused := by
  cases hmove with
  | jump pc _ hjump => cases hjump
  | reap _ _ hpc hproc hparent hzombie => exact ⟨hparent, hzombie, rfl, by simp [Proc.reap]⟩

theorem Move.forked_pid {p q : Slot} {pid : ℤ} (h : Sound m)
    (hmove : Move m c (.forked p q pid) m') :
    (m.ptable q).pid = pid ∧ (m.ptable q).state = .embryo := by
  cases hmove with
  | jump pc _ hjump => cases hjump
  | forked p f hpc hproc hframe hphase => exact ⟨rfl, (h.forks.frame p f hframe).2⟩

theorem allocs_snoc (es : List Event) (e : Event) :
    allocs (es ++ [e]) = allocs es + if e.isAlloc = true then 1 else 0 := by
  simp [allocs, List.countP_append, List.countP_singleton]

/-- Every step keeps the invariant of the identifiers while `nextpid` does not
wrap around. -/
theorem Move.pids (h : Sound m) (hp : Pids es m) (hmove : Move m c e m')
    (hbound : allocs (es ++ [e]) + 1 < 2147483647) : Pids (es ++ [e]) m' := by
  have hcount := allocs_snoc es e
  -- `nextpid` counts the allocations
  have hnext : m'.nextpid = 2 + allocs (es ++ [e]) ∧ m.nextpid ≤ m'.nextpid ∧
      (e.isAlloc = true → m.nextpid < m'.nextpid) := by
    rcases hmove.nextpid_cases with ⟨hsame, he⟩ | ⟨p, q, rfl, hsucc⟩
    · rw [he] at hcount
      refine ⟨by rw [hsame, hp.next, hcount]; simp, le_of_eq hsame.symm, by simp [he]⟩
    · have hplus : allocs (es ++ [.alloc p q m.nextpid]) = allocs es + 1 := by
        simpa [Event.isAlloc] using hcount
      have hpre := hp.next
      have hval : m'.nextpid = m.nextpid + 1 := by
        rw [hsucc]
        refine int32_of_bounds ?_ ?_ <;> omega
      refine ⟨by omega, by omega, fun _ => by omega⟩
  -- an entry in use has its old identifier or the new one
  have hpid : ∀ q, (m'.ptable q).state ≠ .unused →
      ((m.ptable q).state ≠ .unused ∧ (m'.ptable q).pid = (m.ptable q).pid) ∨
        (∃ p, e = .alloc p q m.nextpid ∧ (m'.ptable q).pid = m.nextpid) := by
    intro q hq
    rcases (hmove.change q).pid h hq with ⟨hused, heq, _⟩ | ⟨p, he, _, heq⟩
    · exact Or.inl ⟨hused, heq⟩
    · exact Or.inr ⟨p, he, heq⟩
  constructor
  · exact hnext.1
  · intro q hq
    rcases hpid q hq with ⟨hused, heq⟩ | ⟨p, rfl, heq⟩
    · exact heq ▸ lt_of_lt_of_le (hp.range q hused) hnext.2.1
    · exact heq ▸ hnext.2.2 rfl
  · intro p q hp' hq' heq
    rcases hpid p hp' with ⟨hpu, hpp⟩ | ⟨r, hr, hpp⟩ <;>
      rcases hpid q hq' with ⟨hqu, hqp⟩ | ⟨s, hs, hqp⟩
    · exact hp.distinct p q hpu hqu (by rw [← hpp, ← hqp, heq])
    · exact absurd (hp.range p hpu) (by rw [← hpp, heq, hqp]; exact lt_irrefl _)
    · exact absurd (hp.range q hqu) (by rw [← hqp, ← heq, hpp]; exact lt_irrefl _)
    · rw [hr] at hs
      exact (Event.alloc.inj hs).2.1
  · intro q hq
    rcases (hmove.change q).zombie h hq with hzombie | ⟨hpc, hproc, rfl⟩
    · have hmem := hp.zombie q hzombie
      rcases hpid q (by simp [hq]) with ⟨_, heq⟩ | ⟨p, he, heq⟩
      · exact List.mem_append_left _ (heq ▸ hmem)
      · rcases (hmove.change q).pid h (by simp [hq]) with ⟨_, heq', _⟩ | ⟨_, _, hunused, _⟩
        · exact List.mem_append_left _ (heq' ▸ hmem)
        · simp [hzombie] at hunused
    · rcases hpid q (by simp [hq]) with ⟨_, heq⟩ | ⟨p, he, _⟩
      · simp [heq]
      · cases he
  · intro p q pid hmem
    rcases List.mem_append.mp hmem with hmem | hmem
    · obtain ⟨hlt, hnot⟩ := hp.reaped p q pid hmem
      refine ⟨lt_of_lt_of_le hlt hnext.2.1, ?_⟩
      intro r hr
      rcases hpid r hr with ⟨hused, heq⟩ | ⟨s, _, heq⟩
      · exact heq ▸ hnot r hused
      · exact heq ▸ (ne_of_gt hlt)
    · obtain rfl : e = .reaped p q pid := (List.mem_singleton.mp hmem).symm
      obtain ⟨_, hzombie, hqpid, hunused⟩ := hmove.reaped
      have hused : (m.ptable q).state ≠ .unused := by simp [hzombie]
      refine ⟨hqpid ▸ lt_of_lt_of_le (hp.range q hused) hnext.2.1, ?_⟩
      intro r hr heq
      rcases hpid r hr with ⟨hrused, hrpid⟩ | ⟨s, hs, _⟩
      · obtain rfl : r = q := hp.distinct r q hrused hused (by rw [← hrpid, heq, hqpid])
        exact hr hunused
      · cases hs
  · intro p q pid hmem
    rcases List.mem_append.mp hmem with hmem | hmem
    · obtain ⟨hlt, hsame⟩ := hp.forked p q pid hmem
      refine ⟨lt_of_lt_of_le hlt hnext.2.1, ?_⟩
      intro r hr hrpid
      rcases hpid r hr with ⟨hused, heq⟩ | ⟨s, _, heq⟩
      · exact hsame r hused (heq ▸ hrpid)
      · exact absurd hlt (by rw [← hrpid, heq]; exact lt_irrefl _)
    · obtain rfl : e = .forked p q pid := (List.mem_singleton.mp hmem).symm
      obtain ⟨hqpid, hembryo⟩ := hmove.forked_pid h
      have hused : (m.ptable q).state ≠ .unused := by simp [hembryo]
      refine ⟨hqpid ▸ lt_of_lt_of_le (hp.range q hused) hnext.2.1, ?_⟩
      intro r hr hrpid
      rcases hpid r hr with ⟨hrused, heq⟩ | ⟨s, hs, _⟩
      · exact hp.distinct r q hrused hused (by rw [← heq, hrpid, hqpid])
      · cases hs
  · intro pid
    rw [List.countP_append, List.countP_singleton]
    split
    · next hreap =>
      -- the identifier has not been returned before, since its process is still there
      obtain ⟨p, q, rfl⟩ : ∃ p q, e = .reaped p q pid := by
        cases e with
        | reaped p q x => exact ⟨p, q, by simpa [Event.isReap] using hreap⟩
        | _ => cases hreap
      obtain ⟨_, hzombie, hqpid, _⟩ := hmove.reaped
      have hzero : es.countP (Event.isReap pid) = 0 := by
        rw [List.countP_eq_zero]
        intro x hx hxreap
        obtain ⟨r, s, rfl⟩ : ∃ r s, x = .reaped r s pid := by
          cases x with
          | reaped r s y => exact ⟨r, s, by simpa [Event.isReap] using hxreap⟩
          | _ => cases hxreap
        exact (hp.reaped r s pid hx).2 q (by simp [hzombie]) hqpid
      omega
    · exact hp.once pid

theorem boot_pids (n : ℕ) (kstack pgdir : Page) : Pids [] (boot n kstack pgdir) := by
  have hused : ∀ q, ((boot n kstack pgdir).ptable q).state ≠ .unused → q = 0 := by
    intro q hq
    by_contra hne
    exact hq (by simp [boot, userinit, hne, Proc.zero])
  constructor
  · rfl
  · intro q hq
    rw [hused q hq]
    exact (by decide : (1 : ℤ) < 2)
  · intro p q hp hq _
    rw [hused p hp, hused q hq]
  · intro q hq
    have hq0 := hused q (by simp [hq])
    subst hq0
    cases hq
  · intro p q pid hmem
    cases hmem
  · intro p q pid hmem
    cases hmem
  · intro pid
    simp

/-- What a run maintains as long as `nextpid` does not wrap around. -/
theorem run_pids {kstack pgdir : Page}
    (hrun : Run Steps (fun _ => True) (boot n kstack pgdir) es m)
    (hbound : allocs es + 1 < 2147483647) : Sound m ∧ Family m ∧ Pids es m := by
  have hJ : Sound m ∧ Family m ∧ (allocs es + 1 < 2147483647 → Pids es m) := by
    refine hrun.history (J := fun es m => Sound m ∧ Family m ∧
      (allocs es + 1 < 2147483647 → Pids es m)) ?_ ⟨boot_sound n kstack pgdir,
      boot_family n kstack pgdir, fun _ => boot_pids n kstack pgdir⟩
    rintro gs x e y _ _ ⟨hs, hf, hp⟩ ⟨c, a, hstep⟩
    have hmove := step_move hstep
    refine ⟨hmove.sound hs, hmove.family hs hf, fun hlt => hmove.pids hs (hp ?_) hlt⟩
    have hcount := allocs_snoc gs e
    omega
  exact ⟨hJ.1, hJ.2.1, hJ.2.2 hbound⟩

/-- What holds of `fork`, `exit` and `wait` in the state `m` after a run with the
events `es`, and of any step taken there. -/
structure ReapedOnce (es : List Event) (m : Machine n) : Prop where
  /-- The identifiers in use are distinct. -/
  distinct : ∀ p q, (m.ptable p).state ≠ .unused → (m.ptable q).state ≠ .unused →
    (m.ptable p).pid = (m.ptable q).pid → p = q
  /-- Every forked process but the first has a parent that may still wait. -/
  parent : ∀ q, (m.ptable q).state ≠ .unused → (m.ptable q).state ≠ .embryo →
    q ≠ m.initproc → ∃ r, (m.ptable q).parent = some r ∧
      (m.ptable r).state ≠ .unused ∧ (m.ptable r).state ≠ .zombie
  /-- `wait` has returned no identifier twice. -/
  once : ∀ pid, es.countP (Event.isReap pid) ≤ 1
  /-- A `wait` that returns `pid` is made by the parent of the process with that
  identifier, the one `fork` returned it for, and after its `exit`. -/
  reaped : ∀ p q pid m', Steps m (.reaped p q pid) m' →
    (m.ptable q).pid = pid ∧ (m.ptable q).parent = some p ∧ .exited q pid ∈ es ∧
      ∀ r s, .forked r s pid ∈ es → s = q
  /-- A slot leaves `ZOMBIE` only through such a `wait`. -/
  left : ∀ q e m', Steps m e m' → (m.ptable q).state = .zombie →
    (m'.ptable q).state ≠ .zombie →
    ∃ p, e = .reaped p q (m.ptable q).pid ∧ (m.ptable q).parent = some p
  /-- While the lock is free, a process asleep in `wait` has a child and no
  `ZOMBIE` child. -/
  waiting : m.lock = none → ∀ p, (m.ptable p).state = .sleeping →
    (m.ptable p).context = .wait →
    (∃ q, (m.ptable q).state ≠ .unused ∧ (m.ptable q).parent = some p) ∧
      ∀ q, (m.ptable q).parent = some p → (m.ptable q).state ≠ .zombie

/-- Over every interleaving in which fewer than `2 ^ 31 - 1` processes are
allocated, every process is waited for at most once and no wakeup between `exit`
and `wait` is lost. -/
theorem exactly_once_reaping {n : ℕ} {kstack pgdir : Page} {es : List Event} {m : Machine n}
    (hrun : Run Steps (fun _ => True) (boot n kstack pgdir) es m)
    (hbound : allocs es + 1 < 2147483647) : ReapedOnce es m := by
  obtain ⟨hsound, hfamily, hpids⟩ := run_pids hrun hbound
  constructor
  · exact hpids.distinct
  · intro q hunused hembryo hinit
    have hgrown : (m.ptable q).state.Grown := by
      cases hq : (m.ptable q).state <;> simp_all [ProcState.Grown, ProcState.Alive]
    obtain ⟨r, hr, halive⟩ := hfamily.parent q hgrown hinit
    refine ⟨r, hr, ?_⟩
    rcases halive with h | h | h <;> simp [h]
  · exact hpids.once
  · rintro p q pid m' ⟨c, a, hstep⟩
    obtain ⟨hparent, hzombie, hpid, _⟩ := (step_move hstep).reaped
    refine ⟨hpid, hparent, hpid ▸ hpids.zombie q hzombie, ?_⟩
    intro r s hforked
    exact ((hpids.forked r s pid hforked).2 q (by simp [hzombie]) hpid).symm
  · rintro q e m' ⟨c, a, hstep⟩ hzombie hleft
    rcases ((step_move hstep).change q).zombie_left hsound hzombie with hstay | hreap
    · exact absurd hstay hleft
    · exact hreap
  · intro _ p hsleep hwait
    obtain ⟨_, ⟨q, hq⟩, hnone⟩ := hfamily.waiting p hsleep hwait
    refine ⟨⟨q, ?_, hq⟩, hnone⟩
    intro hunused
    simp [hfamily.unused q hunused] at hq

/-- One processor dispatches the first process, which forks a child and waits;
the child exits; the first process is dispatched again and finds it. -/
def forkWait : List (Fin 1 × Action) :=
  List.replicate 5 (cpu0, .go) ++
    [(cpu0, .syscall 1 fun _ => some 0), (cpu0, .go), (cpu0, .go), (cpu0, .fork (some 2)),
      (cpu0, .fork (some 3)), (cpu0, .fork none), (cpu0, .syscall 3 fun _ => none)] ++
    List.replicate 9 (cpu0, .go) ++ [(cpu0, .syscall 2 fun _ => none)] ++ List.replicate 9 (cpu0, .go)

theorem exactly_once_reaping_forkWait :
    ∃ (es : List Event) (m : Machine 1),
      Event.forked 0 1 2 ∈ es ∧ Event.exited 1 2 ∈ es ∧ Event.reaped 0 1 2 ∈ es ∧
        ReapedOnce es m := by
  obtain ⟨m, es, hrun, hcheck⟩ := exists_run (fun _ => true) (boot 1 0 1)
    (fun _ es => decide (Event.forked 0 1 2 ∈ es ∧ Event.exited 1 2 ∈ es ∧
      Event.reaped 0 1 2 ∈ es ∧ allocs es + 1 < 2147483647)) forkWait (by decide +kernel)
  obtain ⟨hforked, hexited, hreaped, hbound⟩ := of_decide_eq_true hcheck
  exact ⟨es, m, hforked, hexited, hreaped,
    exactly_once_reaping (hrun.mono fun _ _ => trivial) hbound⟩

end Machine

end Xv6
