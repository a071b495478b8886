import Xv6.Proc.Family

/-!
# Killing entries that are not in use

`kill` compares the pid of every entry, whatever its state.  An `UNUSED` entry
has the pid 0, or the pid of a `fork` that failed, so `kill` may succeed on it;
the mark stays in the entry and the next process that is given it starts out
killed.  `wait` clears the mark of the entries it recycles and `allocproc` does
not look at it.
-/

namespace Xv6

open Support

/-- `kill` returns 0 exactly if some entry has the pid, and changes nothing
otherwise. -/
theorem kill_ret (pid : ℤ) (t : Ptable) :
    ((kill pid t).1 = 0 ↔ ∃ p, (t p).pid = pid) ∧ ((kill pid t).1 = -1 → (kill pid t).2 = t) := by
  rcases kill_cases pid t with ⟨p, hp, _, hkill⟩ | ⟨hnone, hkill⟩
  · rw [hkill]
    exact ⟨⟨fun _ => ⟨p, hp⟩, fun _ => rfl⟩, by simp⟩
  · rw [hkill]
    refine ⟨⟨by simp, ?_⟩, fun _ => rfl⟩
    rintro ⟨p, hp⟩
    exact absurd hp (hnone p)

namespace Machine

variable {n : ℕ} {m m' : Machine n} {c : Fin n} {e : Event} {es : List Event}

/-- Entries without a process carry no mark. -/
def Unmarked (m : Machine n) : Prop :=
  ∀ q, (m.ptable q).state = .unused ∨ (m.ptable q).state = .embryo →
    (m.ptable q).killed = false

/-- A step that does not kill an entry without a process. -/
def KillsLive (m : Machine n) (e : Event) (m' : Machine n) : Prop :=
  Steps m e m' ∧ ∀ pid ret, e = .kill pid ret → ∀ q, (m.ptable q).pid = pid →
    (m.ptable q).state ≠ .unused ∧ (m.ptable q).state ≠ .embryo

theorem Change.unmarked {q : Slot} {pr : Proc} (h : Sound m) (hm : Unmarked m)
    (hch : Change m c q e pr)
    (hkill : ∀ pid ret, e = .kill pid ret → ∀ q, (m.ptable q).pid = pid →
      (m.ptable q).state ≠ .unused ∧ (m.ptable q).state ≠ .embryo)
    (hstate : pr.state = .unused ∨ pr.state = .embryo) : pr.killed = false := by
  cases hch with
  | keep _ _ => exact hm q hstate
  | dispatch _ _ => simp [Proc.dispatch] at hstate
  | tidyUp _ _ => exact hm q hstate
  | fault hpc hproc =>
      have hrun := h.running hproc (by simp [hpc]) (by simp [hpc])
      simp [Proc.markKilled, hrun] at hstate
  | wakeup _ => simp [Proc.ready] at hstate
  | kill pid hpid _ =>
      have hlive := hkill pid 0 rfl q hpid
      rcases hstate with h' | h'
      · exact absurd h' hlive.1
      · exact absurd h' hlive.2
  | killAsleep _ _ _ => simp [Proc.ready] at hstate
  | yield _ _ => simp [Proc.park] at hstate
  | sleep _ _ _ _ _ _ => simp [Proc.park] at hstate
  | exit hpc hproc => simp [exitTable_self (h.exiting hpc hproc).1] at hstate
  | handOver p hpc hproc hne =>
      have hinit := (h.exiting hpc hproc).1
      have hkilled : (exitTable m.initproc p m.ptable q).killed = (m.ptable q).killed := by
        rw [exitTable_of_ne hinit hne]
      rcases exitTable_state_cases hinit hne m.ptable with heq | ⟨_, heq⟩
      · rw [hkilled]
        exact hm q (heq ▸ hstate)
      · simp [heq] at hstate
  | reap _ _ _ _ _ => rfl
  | alloc _ _ hunused => exact hm q (Or.inl hunused)
  | giveUp p f _ hframe hchild _ => exact hm q (Or.inr (hchild ▸ (h.forks.frame p f hframe).2))
  | prepare _ _ _ _ _ _ _ => exact hm q hstate
  | inherit _ _ _ _ _ _ _ => exact hm q hstate
  | forked _ _ _ _ _ _ => simp [Proc.ready] at hstate

theorem boot_unmarked (n : ℕ) (kstack pgdir : Page) : Unmarked (boot n kstack pgdir) := by
  intro q _
  by_cases hq : q = 0
  · subst hq
    rfl
  · simp [boot, userinit, hq, Proc.zero]

/-- As long as nothing but processes is killed, no entry without a process is
marked. -/
theorem run_unmarked {kstack pgdir : Page}
    (hrun : Run KillsLive (fun _ => True) (boot n kstack pgdir) es m) :
    Sound m ∧ Unmarked m := by
  refine hrun.invariant (I := fun x => Sound x ∧ Unmarked x) ?_
    ⟨boot_sound n kstack pgdir, boot_unmarked n kstack pgdir⟩
  rintro x e y _ _ ⟨hsound, hun⟩ ⟨⟨c, a, hstep⟩, hkill⟩
  have hmove := step_move hstep
  exact ⟨hmove.sound hsound, fun q hq => (hmove.change q).unmarked hsound hun hkill hq⟩

theorem Move.forked_killed {p q : Slot} {pid : ℤ} (h : Sound m) (hm : Unmarked m)
    (hmove : Move m c (.forked p q pid) m') : (m'.ptable q).killed = false := by
  cases hmove with
  | jump pc _ hjump => cases hjump
  | forked p f hpc hproc hframe hphase =>
      have hkilled := hm f.child (Or.inr (h.forks.frame p f hframe).2)
      simpa [Proc.ready] using hkilled

/-- `kill` answers for the processes alone exactly when no `UNUSED` entry has a pid
that no process has, and it leaves the table alone when it fails; and in a run that
kills only pids of processes, not of entries that are `UNUSED` or being filled,
every forked process starts without a mark. -/
theorem kill_only_live (n : ℕ) :
    (∀ m : Machine n, Reachable m → ∀ pid,
      (((kill pid m.ptable).1 = 0 ↔
            ∃ q, (m.ptable q).state ≠ .unused ∧ (m.ptable q).pid = pid) ∧
          ((kill pid m.ptable).1 = -1 → (kill pid m.ptable).2 = m.ptable)) ↔
        ((∃ q, (m.ptable q).state = .unused ∧ (m.ptable q).pid = pid) →
          ∃ q, (m.ptable q).state ≠ .unused ∧ (m.ptable q).pid = pid)) ∧
      ∀ kstack pgdir es (m m' : Machine n) p q pid,
        Run KillsLive (fun _ => True) (boot n kstack pgdir) es m →
        KillsLive m (.forked p q pid) m' → (m'.ptable q).killed = false := by
  constructor
  · intro m _ pid
    obtain ⟨hret, hfail⟩ := kill_ret pid m.ptable
    rw [hret]
    constructor
    · rintro ⟨hiff, _⟩ ⟨q, _, hq⟩
      exact hiff.mp ⟨q, hq⟩
    · intro hlive
      refine ⟨⟨?_, fun ⟨q, _, hq⟩ => ⟨q, hq⟩⟩, hfail⟩
      rintro ⟨q, hq⟩
      by_cases hunused : (m.ptable q).state = .unused
      · exact hlive ⟨q, hunused, hq⟩
      · exact ⟨q, hunused, hq⟩
  · rintro kstack pgdir es m m' p q pid hrun ⟨⟨c, a, hstep⟩, _⟩
    obtain ⟨hsound, hun⟩ := run_unmarked hrun
    exact (step_move hstep).forked_killed hsound hun

/-- Steps that are not calls of `kill`. -/
def Quiet (es : List Event) : Bool :=
  es.all fun e => match e with
    | .kill _ _ => false
    | _ => true

theorem killsLive_of_quiet {P : Machine n → Prop} (hquiet : Quiet es = true)
    (hrun : Run Steps P m es m') : Run KillsLive (fun _ => True) m es m' := by
  induction hrun with
  | nil _ => exact .nil trivial
  | snoc _ hstep _ ih =>
      unfold Quiet at hquiet ih
      rw [List.all_append, Bool.and_eq_true] at hquiet
      refine (ih hquiet.1).snoc ⟨hstep, ?_⟩ trivial
      rintro pid ret rfl
      simp at hquiet

/-- The first process forks a child and comes to `kill(2)`. -/
def comesToKill : List (Fin 1 × Action) :=
  List.replicate 5 (cpu0, .go) ++
    [(cpu0, .syscall 1 fun _ => none), (cpu0, .go), (cpu0, .go), (cpu0, .fork (some 2)),
      (cpu0, .fork (some 3)), (cpu0, .fork none), (cpu0, .syscall 6 fun _ => some 2)]

/-- Then it forks once more, up to the last step. -/
def forksAgain : List (Fin 1 × Action) :=
  [(cpu0, .go), (cpu0, .syscall 1 fun _ => none), (cpu0, .go), (cpu0, .go), (cpu0, .fork (some 4)),
    (cpu0, .fork (some 5))]

/-- A run in which the first process forks, kills its child and forks again. -/
theorem exists_killChild : ∃ (es : List Event) (m m' : Machine 1),
    Run KillsLive (fun _ => True) (boot 1 0 1) es m ∧ Event.kill 2 0 ∈ es ∧
      KillsLive m (.forked 0 2 3) m' := by
  obtain ⟨m₁, es₁, hrun₁, hQ⟩ := exists_run (fun _ => true) (boot 1 0 1)
    (fun (m : Machine 1) es => Quiet es &&
      (decide (∀ q, (m.ptable q).pid = 2 →
        (m.ptable q).state ≠ .unused ∧ (m.ptable q).state ≠ .embryo) &&
      (m.step 0 .go).any fun r : Machine 1 × Event => decide (r.2 = .kill 2 0) &&
        (r.1.exec (fun _ => true) forksAgain).any fun s : Machine 1 × List Event => Quiet s.2 &&
          (s.1.step 0 (.fork none)).any fun t : Machine 1 × Event =>
            decide (t.2 = .forked 0 2 3)))
    comesToKill (by decide +kernel)
  simp only [Bool.and_eq_true, Option.any_eq_true, decide_eq_true_eq] at hQ
  obtain ⟨hquiet₁, hlive, ⟨m₂, e⟩, hkill, rfl, ⟨m, es₂⟩, hexec, hquiet₂, ⟨m', e'⟩, hfork, rfl⟩ := hQ
  have hstep : KillsLive m₁ (.kill 2 0) m₂ := by
    refine ⟨⟨0, .go, hkill⟩, ?_⟩
    rintro pid ret heq q rfl
    exact hlive q (Event.kill.inj heq).1.symm
  refine ⟨es₁ ++ [.kill 2 0] ++ es₂, m, m', ?_, by simp, ⟨0, .fork none, hfork⟩, ?_⟩
  · exact ((killsLive_of_quiet hquiet₁ hrun₁).snoc hstep trivial).append
      (killsLive_of_quiet hquiet₂ (exec_run hexec))
  · rintro pid ret ⟨⟩

/-- The mark of the first child is not passed on to the second. -/
theorem kill_only_live_killChild : ∃ (es : List Event) (m m' : Machine 1),
    Run KillsLive (fun _ => True) (boot 1 0 1) es m ∧ Event.kill 2 0 ∈ es ∧
      KillsLive m (.forked 0 2 3) m' ∧ (m'.ptable 2).killed = false := by
  obtain ⟨es, m, m', hrun, hkill, hfork⟩ := exists_killChild
  exact ⟨es, m, m', hrun, hkill, hfork, (kill_only_live 1).2 0 1 es m m' 0 2 3 hrun hfork⟩

/-- After boot, `kill(0)` succeeds although no process has the pid 0. -/
theorem kill_unused_entry :
    ¬∀ m : Machine 1, Reachable m → ∀ pid,
      ((kill pid m.ptable).1 = 0 ↔
        ∃ q, (m.ptable q).state ≠ .unused ∧ (m.ptable q).pid = pid) := by
  intro hclaim
  have hiff := hclaim (boot 1 0 1) (boot_reachable 1 0 1) 0
  rw [(kill_ret 0 _).1] at hiff
  obtain ⟨q, hused, hpid⟩ := hiff.mp ⟨1, rfl⟩
  by_cases hq : q = 0
  · subst hq
    exact absurd hpid (by decide)
  · exact hused (by simp [boot, userinit, hq, Proc.zero])

end Machine

end Xv6
