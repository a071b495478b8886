import Xv6.Pipe.Machine

/-!
# Wakeups of a pipe

A process that sleeps on a pipe has found it empty or full.  Whoever changes that
holds `p->lock` and has to call `wakeup` before it lets go of the lock; until then
it owes a wakeup.  The invariant says that a process that sleeps either still has
reason to, or is owed a wakeup by the holder of the lock.

All paths through `pipe.c` pay what they owe but one: a writer that is killed while
the pipe is full, or finds its reading end closed, returns without waking the
readers for the bytes that it has stored.
-/

namespace Xv6

namespace Pipe

open Support

variable {ι : Type} {s s' : State ι} {q r : ι} {chan : Channel} {c : Pc}

/-- The process is `SLEEPING` on `chan`. -/
def State.Sleeping (s : State ι) (q : ι) (chan : Channel) : Prop :=
  ∃ w : Sleeper, w.chan = chan ∧ s.pc q = .asleep w

/-- While nobody holds the lock of the pipe, nobody sleeps without a reason. -/
def NoLostWakeup (s : State ι) : Prop :=
  s.lock = none →
    (¬s.Empty ∨ s.writeopen = false → ∀ q, ¬s.Sleeping q .nread) ∧
    (¬s.Full ∨ s.readopen = false → ∀ q, ¬s.Sleeping q .nwrite)

/-! ## The invariant -/

/-- The process sleeps on `chan` or is about to. -/
def Pc.Waiting (c : Pc) (chan : Channel) : Prop :=
  ∃ w : Sleeper, w.chan = chan ∧ (c = .falling w ∨ c = .asleep w)

/-- The process holds `p->lock`. -/
def Pc.inside : Pc → Bool
  | .writeTest _ _ _ | .writeFull _ _ _ | .writeWake _ _ | .writeSleep _ _ => true
  | .writeDone _ _ | .abandon _ _ => true
  | .readTest _ | .readEmpty _ | .readSleep _ | .readCopy _ _ | .readWake _ _ => true
  | .close _ | .closeWake _ | .leave _ _ _ => true
  | _ => false

/-- The process calls `wakeup(chan)` before it releases the lock. -/
def Pc.owes : Pc → Channel → Bool
  | .writeTest _ _ owed, .nread => owed
  | .writeFull _ _ owed, .nread => owed
  | .writeWake _ _, .nread => true
  | .writeDone _ _, .nread => true
  | .closeWake true, .nread => true
  | .readCopy _ _, .nwrite => true
  | .readWake _ _, .nwrite => true
  | .closeWake false, .nwrite => true
  | _, _ => false

/-- The reason to sleep on `chan`. -/
def State.Blocked (s : State ι) : Channel → Prop
  | .nread => s.Empty ∧ s.writeopen = true
  | .nwrite => s.Full ∧ s.readopen = true

/-- What the holder of the lock has found out. -/
def State.Found (s : State ι) : Pc → Prop
  | .writeFull _ _ _ => s.Full
  | .writeWake _ _ | .writeSleep _ _ => s.Blocked .nwrite
  | .readEmpty _ | .readSleep _ => s.Blocked .nread
  | _ => True

/-- Every process that sleeps has a reason to or is owed a wakeup. -/
structure Inv (s : State ι) : Prop where
  inside : ∀ q, (s.pc q).inside = true → s.lock = some q
  falling : ∀ q w, s.pc q = .falling w → s.ptable = some q
  found : ∀ q, s.Found (s.pc q)
  paid : ∀ chan q, (s.pc q).Waiting chan →
    s.Blocked chan ∨ ∃ h, s.lock = some h ∧ (s.pc h).owes chan = true

/-- What the reasons to sleep depend on. -/
def State.gauge (s : State ι) : ℕ × ℕ × Bool × Bool :=
  (s.nread, s.nwrite, s.readopen, s.writeopen)

theorem State.Blocked.of_gauge (hs : s.Blocked chan) (h : s'.gauge = s.gauge) :
    s'.Blocked chan := by
  unfold gauge at h
  simp only [Prod.mk.injEq] at h
  obtain ⟨hread, hwrite, hropen, hwopen⟩ := h
  cases chan with
  | nread => exact ⟨by rw [Empty, hread, hwrite]; exact hs.1, hwopen.trans hs.2⟩
  | nwrite => exact ⟨by rw [Full, hread, hwrite]; exact hs.1, hropen.trans hs.2⟩

theorem State.Found.of_gauge (hs : s.Found c) (h : s'.gauge = s.gauge) : s'.Found c := by
  cases c with
  | writeFull a i owed =>
      unfold gauge at h
      simp only [Prod.mk.injEq] at h
      rw [Found, Full, h.1, h.2.1]
      exact hs
  | writeWake a i | writeSleep a i =>
      have hblocked : s.Blocked .nwrite := hs
      exact hblocked.of_gauge h
  | readEmpty a | readSleep a =>
      have hblocked : s.Blocked .nread := hs
      exact hblocked.of_gauge h
  | _ => exact trivial

theorem Pc.not_waiting_of_inside (h : c.inside = true) : ¬c.Waiting chan := by
  rintro ⟨w, -, rfl | rfl⟩
  · cases h
  · cases h

theorem State.found_of_outside (h : c.inside = false) : s.Found c := by
  cases c with
  | writeFull a i owed => cases h
  | writeWake a i => cases h
  | writeSleep a i => cases h
  | readEmpty a => cases h
  | readSleep a => cases h
  | _ => exact trivial

theorem Pc.owes_of_outside (h : c.inside = false) : c.owes chan = false := by
  cases c with
  | writeTest a i owed => cases h
  | writeFull a i owed => cases h
  | writeWake a i => cases h
  | writeDone a i => cases h
  | readCopy a i => cases h
  | readWake a i => cases h
  | closeWake writable => cases h
  | _ => cases chan <;> rfl

theorem Inv.outside (h : Inv s) (hlock : s.lock = some q) (hne : r ≠ q) :
    (s.pc r).inside = false := by
  cases hr : (s.pc r).inside with
  | false => rfl
  | true =>
      have hheld := h.inside r hr
      rw [hlock] at hheld
      exact absurd (Option.some.inj hheld).symm hne

theorem Inv.free (h : Inv s) (hlock : s.lock = none) (r : ι) : (s.pc r).inside = false := by
  cases hr : (s.pc r).inside with
  | false => rfl
  | true =>
      have hheld := h.inside r hr
      rw [hlock] at hheld
      cases hheld

theorem Inv.noLostWakeup (h : Inv s) : NoLostWakeup s := by
  intro hlock
  have hpaid : ∀ chan q, s.Sleeping q chan → s.Blocked chan := by
    rintro chan q ⟨w, hw, hpc⟩
    rcases h.paid chan q ⟨w, hw, Or.inr hpc⟩ with hblocked | ⟨g, hg, -⟩
    · exact hblocked
    · rw [hlock] at hg
      cases hg
  constructor
  · rintro hready q hsleep
    obtain ⟨hempty, hopen⟩ := hpaid .nread q hsleep
    rcases hready with hne | hclosed
    · exact hne hempty
    · rw [hopen] at hclosed
      cases hclosed
  · rintro hready q hsleep
    obtain ⟨hfull, hopen⟩ := hpaid .nwrite q hsleep
    rcases hready with hne | hclosed
    · exact hne hfull
    · rw [hopen] at hclosed
      cases hclosed

theorem Fresh.inv (h : Fresh s) : Inv s := by
  constructor
  · intro r hr
    rw [h.idle r] at hr
    cases hr
  · intro r w hr
    rw [h.idle r] at hr
    cases hr
  · intro r
    rw [h.idle r]
    exact trivial
  · rintro chan r ⟨w, -, hr | hr⟩
    · rw [h.idle r] at hr
      cases hr
    · rw [h.idle r] at hr
      cases hr

/-! ## Waking up -/

theorem Roused.inside {c' : Pc} (h : Roused c c') : c'.inside = c.inside := by
  rcases h with rfl | ⟨w, rfl, rfl⟩
  · rfl
  · rfl

theorem Roused.owes {c' : Pc} (h : Roused c c') : c'.owes chan = c.owes chan := by
  rcases h with rfl | ⟨w, rfl, rfl⟩
  · rfl
  · cases chan <;> rfl

theorem Roused.waiting {c' : Pc} (h : Roused c c') (hc : c'.Waiting chan) : c.Waiting chan := by
  rcases h with rfl | ⟨w, rfl, rfl⟩
  · exact hc
  · obtain ⟨v, -, hv | hv⟩ := hc
    · cases hv
    · cases hv

/-- Processes are woken, and nothing else happens. -/
theorem Inv.rouse (h : Inv s) (hpc : ∀ r, Roused (s.pc r) (s'.pc r)) (hlock : s'.lock = s.lock)
    (hptable : s'.ptable = s.ptable) (hgauge : s'.gauge = s.gauge) : Inv s' := by
  constructor
  · intro r hr
    rw [hlock]
    exact h.inside r ((hpc r).inside.symm.trans hr)
  · intro r w hr
    rw [hptable]
    rcases hpc r with hsame | ⟨v, -, hv⟩
    · exact h.falling r w (hsame.symm.trans hr)
    · rw [hv] at hr
      cases hr
  · intro r
    rcases hpc r with hsame | ⟨v, -, hv⟩
    · rw [hsame]
      exact (h.found r).of_gauge hgauge
    · rw [hv]
      exact trivial
  · intro chan r hr
    rcases h.paid chan r ((hpc r).waiting hr) with hblock | ⟨g, hg, how⟩
    · exact Or.inl (hblock.of_gauge hgauge)
    · exact Or.inr ⟨g, hlock.trans hg, (hpc g).owes.trans how⟩

/-- Who still waits after `wakeup` was only about to sleep. -/
theorem falling_of_wakePc (h : (wakePc chan c).Waiting chan) : ∃ w, c = .falling w := by
  cases c with
  | asleep w =>
      change (if w.chan = chan then Pc.woken w else Pc.asleep w).Waiting chan at h
      split at h
      · obtain ⟨v, -, hv | hv⟩ := h
        · cases hv
        · cases hv
      · rename_i hne
        obtain ⟨v, hchan, hv | hv⟩ := h
        · cases hv
        · obtain rfl := Pc.asleep.inj hv
          exact absurd hchan hne
  | falling w => exact ⟨w, rfl⟩
  | _ =>
      obtain ⟨v, -, hv | hv⟩ := h
      · cases hv
      · cases hv

theorem Inv.no_waiting_wakeup (h : Inv s) (hptable : s.ptable = none) (r : ι) :
    ¬((s.wakeup chan).pc r).Waiting chan := by
  intro hr
  obtain ⟨w, hw⟩ := falling_of_wakePc hr
  have hheld := h.falling r w hw
  rw [hptable] at hheld
  cases hheld

/-! ## What the kinds of steps preserve -/

variable [DecidableEq ι]

/-- The holder of the lock does something to the pipe and keeps the lock. -/
theorem Inv.work (h : Inv s) (hpc : (s.pc q).inside = true)
    (hmove : s'.pc = Function.update s.pc q c) (hlock : s'.lock = s.lock)
    (hptable : s'.ptable = s.ptable) (hc : c.inside = true) (hfound : s'.Found c)
    (hblocked : ∀ chan, s.Blocked chan → s'.Blocked chan ∨ c.owes chan = true)
    (howes : ∀ chan, (s.pc q).owes chan = true →
      c.owes chan = true ∨ ∀ r, ¬(s.pc r).Waiting chan) : Inv s' := by
  have hheld := h.inside q hpc
  have hself : s'.pc q = c := by rw [hmove, Function.update_self]
  have hother : ∀ r, r ≠ q → s'.pc r = s.pc r := by
    intro r hne
    rw [hmove, Function.update_of_ne hne]
  constructor
  · intro r hr
    rw [hlock]
    rcases eq_or_ne r q with rfl | hne
    · exact hheld
    · rw [hother r hne] at hr
      exact h.inside r hr
  · intro r w hr
    rw [hptable]
    rcases eq_or_ne r q with rfl | hne
    · rw [hself] at hr
      rw [hr] at hc
      cases hc
    · rw [hother r hne] at hr
      exact h.falling r w hr
  · intro r
    rcases eq_or_ne r q with rfl | hne
    · rw [hself]
      exact hfound
    · rw [hother r hne]
      exact State.found_of_outside (h.outside hheld hne)
  · intro chan r hr
    have hpay : c.owes chan = true → ∃ g, s'.lock = some g ∧ (s'.pc g).owes chan = true := by
      intro how
      refine ⟨q, hlock.trans hheld, ?_⟩
      rw [hself]
      exact how
    rcases eq_or_ne r q with rfl | hne
    · rw [hself] at hr
      exact absurd hr (Pc.not_waiting_of_inside hc)
    · rw [hother r hne] at hr
      rcases h.paid chan r hr with hblock | ⟨g, hg, how⟩
      · rcases hblocked chan hblock with hblock' | how
        · exact Or.inl hblock'
        · exact Or.inr (hpay how)
      · -- the one who owes the wakeup is the one who moves
        rw [hheld] at hg
        obtain rfl := Option.some.inj hg
        rcases howes chan how with how' | hnone
        · exact Or.inr (hpay how')
        · exact absurd hr (hnone r)

/-- The holder of the lock goes on to another place. -/
theorem Inv.goto (h : Inv s) (hpc : (s.pc q).inside = true) (hc : c.inside = true)
    (hfound : s.Found c)
    (howes : ∀ chan, (s.pc q).owes chan = true →
      c.owes chan = true ∨ ∀ r, ¬(s.pc r).Waiting chan) : Inv (s.goto q c) :=
  h.work hpc rfl rfl rfl hc (hfound.of_gauge rfl) (fun _ hb => Or.inl (hb.of_gauge rfl)) howes

/-- Someone who does not hold the lock takes it. -/
theorem Inv.acquire (h : Inv s) (hrun : s.acquire q c = some s')
    (hc : c.inside = true) (hfound : s.Found c) : Inv s' := by
  unfold State.acquire at hrun
  split at hrun
  · rename_i hlock
    obtain rfl := Option.some.inj hrun
    have hself : (s.goto q c).pc q = c := Function.update_self ..
    have hother : ∀ r, r ≠ q → (s.goto q c).pc r = s.pc r := fun r hne =>
      Function.update_of_ne hne ..
    constructor
    · intro r hr
      rcases eq_or_ne r q with rfl | hne
      · rfl
      · have hout := h.free hlock r
        simp only [hother r hne] at hr
        rw [hout] at hr
        cases hr
    · intro r w hr
      rcases eq_or_ne r q with rfl | hne
      · simp only [hself] at hr
        rw [hr] at hc
        cases hc
      · simp only [hother r hne] at hr
        exact h.falling r w hr
    · intro r
      rcases eq_or_ne r q with rfl | hne
      · simp only [hself]
        exact hfound.of_gauge rfl
      · simp only [hother r hne]
        exact State.found_of_outside (h.free hlock r)
    · intro chan r hr
      rcases eq_or_ne r q with rfl | hne
      · simp only [hself] at hr
        exact absurd hr (Pc.not_waiting_of_inside hc)
      · simp only [hother r hne] at hr
        rcases h.paid chan r hr with hblock | ⟨g, hg, -⟩
        · exact Or.inl (hblock.of_gauge rfl)
        · rw [hlock] at hg
          cases hg
  · cases hrun

/-- The holder of the lock lets go of it and owes nothing. -/
theorem Inv.release {k : Call} {value : ℤ} {i : ℕ} (h : Inv s)
    (hpc : (s.pc q).inside = true) (howes : ∀ chan, (s.pc q).owes chan = false) :
    Inv (s.finish q k value i) := by
  have hheld := h.inside q hpc
  have hself : (s.finish q k value i).pc q = .idle := Function.update_self ..
  have hother : ∀ r, r ≠ q → (s.finish q k value i).pc r = s.pc r := fun r hne =>
    Function.update_of_ne hne ..
  have hout : ∀ r, ((s.finish q k value i).pc r).inside = false := by
    intro r
    rcases eq_or_ne r q with rfl | hne
    · rw [hself]
      rfl
    · rw [hother r hne]
      exact h.outside hheld hne
  constructor
  · intro r hr
    simp only [hout r] at hr
    cases hr
  · intro r w hr
    rcases eq_or_ne r q with rfl | hne
    · simp only [hself] at hr
      cases hr
    · simp only [hother r hne] at hr
      exact h.falling r w hr
  · intro r
    exact State.found_of_outside (hout r)
  · intro chan r hr
    rcases eq_or_ne r q with rfl | hne
    · simp only [hself] at hr
      obtain ⟨w, -, hw | hw⟩ := hr
      · cases hw
      · cases hw
    · simp only [hother r hne] at hr
      rcases h.paid chan r hr with hblock | ⟨g, hg, how⟩
      · exact Or.inl (hblock.of_gauge rfl)
      · rw [hheld] at hg
        obtain rfl := Option.some.inj hg
        rw [howes chan] at how
        cases how

/-- Going to sleep: the process has a reason to and owes nothing. -/
theorem Inv.park {w : Sleeper} (h : Inv s) (hrun : s.park q w = some s')
    (hpc : (s.pc q).inside = true) (howes : ∀ chan, (s.pc q).owes chan = false)
    (hblocked : s.Blocked w.chan) : Inv s' := by
  unfold State.park at hrun
  split at hrun
  · rename_i hptable
    obtain rfl := Option.some.inj hrun
    have hheld := h.inside q hpc
    have hself : (s.goto q (.falling w)).pc q = .falling w := Function.update_self ..
    have hother : ∀ r, r ≠ q → (s.goto q (.falling w)).pc r = s.pc r := fun r hne =>
      Function.update_of_ne hne ..
    have hout : ∀ r, ((s.goto q (.falling w)).pc r).inside = false := by
      intro r
      rcases eq_or_ne r q with rfl | hne
      · rw [hself]
        rfl
      · rw [hother r hne]
        exact h.outside hheld hne
    constructor
    · intro r hr
      simp only [hout r] at hr
      cases hr
    · intro r v hr
      rcases eq_or_ne r q with rfl | hne
      · rfl
      · simp only [hother r hne] at hr
        have hbad := h.falling r v hr
        rw [hptable] at hbad
        cases hbad
    · intro r
      exact State.found_of_outside (hout r)
    · intro chan r hr
      rcases eq_or_ne r q with rfl | hne
      · simp only [hself] at hr
        obtain ⟨v, hv, hw | hw⟩ := hr
        · obtain rfl := Pc.falling.inj hw
          rw [← hv]
          exact Or.inl (hblocked.of_gauge rfl)
        · cases hw
      · simp only [hother r hne] at hr
        rcases h.paid chan r hr with hblock | ⟨g, hg, how⟩
        · exact Or.inl (hblock.of_gauge rfl)
        · rw [hheld] at hg
          obtain rfl := Option.some.inj hg
          rw [howes chan] at how
          cases how
  · cases hrun

/-- A process outside changes its place without falling asleep on anything new. -/
theorem Inv.shift {t : Option ι} (h : Inv s) (hpc : (s.pc q).inside = false)
    (hc : c.inside = false) (hwait : ∀ chan, c.Waiting chan → (s.pc q).Waiting chan)
    (hfalling : ∀ w, c ≠ .falling w) (hptable : ∀ r w, r ≠ q → s.pc r = .falling w → t = some r)
    (hmove : s'.pc = Function.update s.pc q c) (hlock : s'.lock = s.lock)
    (ht : s'.ptable = t) (hgauge : s'.gauge = s.gauge) : Inv s' := by
  have hself : s'.pc q = c := by rw [hmove, Function.update_self]
  have hother : ∀ r, r ≠ q → s'.pc r = s.pc r := by
    intro r hne
    rw [hmove, Function.update_of_ne hne]
  constructor
  · intro r hr
    rw [hlock]
    rcases eq_or_ne r q with rfl | hne
    · rw [hself, hc] at hr
      cases hr
    · rw [hother r hne] at hr
      exact h.inside r hr
  · intro r w hr
    rcases eq_or_ne r q with rfl | hne
    · rw [hself] at hr
      exact absurd hr (hfalling w)
    · rw [hother r hne] at hr
      rw [ht]
      exact hptable r w hne hr
  · intro r
    rcases eq_or_ne r q with rfl | hne
    · rw [hself]
      exact State.found_of_outside hc
    · rw [hother r hne]
      exact (h.found r).of_gauge hgauge
  · intro chan r hr
    have hold : (s.pc r).Waiting chan := by
      rcases eq_or_ne r q with rfl | hne
      · rw [hself] at hr
        exact hwait chan hr
      · rwa [hother r hne] at hr
    rcases h.paid chan r hold with hblock | ⟨g, hg, how⟩
    · exact Or.inl (hblock.of_gauge hgauge)
    · have hne : g ≠ q := by
        rintro rfl
        have hnot : (s.pc g).owes chan = false := Pc.owes_of_outside hpc
        rw [hnot] at how
        cases how
      refine Or.inr ⟨g, hlock.trans hg, ?_⟩
      rw [hother g hne]
      exact how

/-- The holder of the lock wakes the processes on `chan` and owes nothing else. -/
theorem Inv.signal (h : Inv s) (hrun : s.signal q chan c = some s')
    (hpc : (s.pc q).inside = true) (hc : c.inside = true) (hfound : s.Found c)
    (howes : ∀ chan', (s.pc q).owes chan' = true → chan' = chan) : Inv s' := by
  unfold State.signal at hrun
  split at hrun
  · rename_i hptable
    obtain rfl := Option.some.inj hrun
    have hroused := fun r => roused_wakePc chan (s.pc r)
    have hwake : Inv (s.wakeup chan) := h.rouse hroused rfl rfl rfl
    refine hwake.goto ((hroused q).inside.trans hpc) hc (hfound.of_gauge rfl) fun chan' how => ?_
    obtain rfl := howes chan' ((hroused q).owes.symm.trans how)
    exact Or.inr (h.no_waiting_wakeup hptable)
  · cases hrun

/-! ## Runs -/

/-- Someone is owed a wakeup that the step skips: a writer gives up after it has stored
bytes, while a reader sleeps. -/
def Deserts (s : State ι) : Act ι → Prop
  | .run q => (∃ a i, s.pc q = .writeFull a i true) ∧
      (s.readopen = false ∨ s.killed q = true) ∧ ∃ r, (s.pc r).Waiting .nread
  | _ => False

theorem Inv.advance (h : Inv s) (hrun : s.advance q = some s') (hpays : ¬Deserts s (.run q)) :
    Inv s' := by
  have hfound := h.found q
  unfold State.advance at hrun
  cases hpc : s.pc q with
  | idle =>
      rw [hpc] at hrun
      cases hrun
  | writeEnter a =>
      rw [hpc] at hrun
      exact h.acquire hrun rfl trivial
  | writeTest a i owed =>
      have hin : (s.pc q).inside = true := by rw [hpc]; rfl
      rw [hpc] at hrun
      simp only at hrun
      split at hrun
      · split at hrun
        · rename_i hfull
          obtain rfl := Option.some.inj hrun
          refine h.goto hin rfl hfull fun chan how => Or.inl ?_
          rw [hpc] at how
          cases chan with
          | nread => exact how
          | nwrite => cases how
        · rename_i hroom
          obtain rfl := Option.some.inj hrun
          refine h.work hin rfl rfl rfl rfl trivial (fun chan hb => ?_) fun chan how => Or.inl ?_
          · cases chan with
            | nread => exact Or.inr rfl
            | nwrite => exact absurd hb.1 hroom
          · rw [hpc] at how
            cases chan with
            | nread => rfl
            | nwrite => cases how
      · obtain rfl := Option.some.inj hrun
        refine h.goto hin rfl trivial fun chan how => Or.inl ?_
        rw [hpc] at how
        cases chan with
        | nread => rfl
        | nwrite => cases how
  | writeFull a i owed =>
      have hin : (s.pc q).inside = true := by rw [hpc]; rfl
      rw [hpc] at hrun hfound
      simp only at hrun
      split at hrun
      · rename_i hstop
        obtain rfl := Option.some.inj hrun
        refine h.goto hin rfl trivial fun chan how => Or.inr ?_
        rw [hpc] at how
        cases chan with
        | nread =>
            intro r hr
            have howed : owed = true := how
            rw [howed] at hpc
            exact hpays ⟨⟨a, i, hpc⟩, hstop, r, hr⟩
        | nwrite => cases how
      · rename_i hgo
        rw [not_or, Bool.not_eq_false] at hgo
        obtain rfl := Option.some.inj hrun
        refine h.goto hin rfl ⟨hfound, hgo.1⟩ fun chan how => Or.inl ?_
        rw [hpc] at how
        cases chan with
        | nread => rfl
        | nwrite => cases how
  | writeWake a i =>
      have hin : (s.pc q).inside = true := by rw [hpc]; rfl
      rw [hpc] at hrun hfound
      refine h.signal hrun hin rfl hfound fun chan how => ?_
      rw [hpc] at how
      cases chan with
      | nread => rfl
      | nwrite => cases how
  | writeSleep a i =>
      have hin : (s.pc q).inside = true := by rw [hpc]; rfl
      rw [hpc] at hrun hfound
      refine h.park hrun hin (fun chan => ?_) hfound
      rw [hpc]
      cases chan <;> rfl
  | writeDone a i =>
      have hin : (s.pc q).inside = true := by rw [hpc]; rfl
      rw [hpc] at hrun
      refine h.signal hrun hin rfl trivial fun chan how => ?_
      rw [hpc] at how
      cases chan with
      | nread => rfl
      | nwrite => cases how
  | abandon a i =>
      have hin : (s.pc q).inside = true := by rw [hpc]; rfl
      rw [hpc] at hrun
      obtain rfl := Option.some.inj hrun
      refine h.release hin fun chan => ?_
      rw [hpc]
      cases chan <;> rfl
  | readEnter a =>
      rw [hpc] at hrun
      exact h.acquire hrun rfl trivial
  | readTest a =>
      have hin : (s.pc q).inside = true := by rw [hpc]; rfl
      rw [hpc] at hrun
      simp only at hrun
      split at hrun
      · rename_i hempty
        obtain rfl := Option.some.inj hrun
        refine h.goto hin rfl hempty fun chan how => ?_
        rw [hpc] at how
        cases chan <;> cases how
      · obtain rfl := Option.some.inj hrun
        refine h.goto hin rfl trivial fun chan how => ?_
        rw [hpc] at how
        cases chan <;> cases how
  | readEmpty a =>
      have hin : (s.pc q).inside = true := by rw [hpc]; rfl
      rw [hpc] at hrun hfound
      simp only at hrun
      split at hrun
      · obtain rfl := Option.some.inj hrun
        refine h.goto hin rfl trivial fun chan how => ?_
        rw [hpc] at how
        cases chan <;> cases how
      · obtain rfl := Option.some.inj hrun
        refine h.goto hin rfl hfound fun chan how => ?_
        rw [hpc] at how
        cases chan <;> cases how
  | readSleep a =>
      have hin : (s.pc q).inside = true := by rw [hpc]; rfl
      rw [hpc] at hrun hfound
      refine h.park hrun hin (fun chan => ?_) hfound
      rw [hpc]
      cases chan <;> rfl
  | readCopy a i =>
      have hin : (s.pc q).inside = true := by rw [hpc]; rfl
      have hgo : ∀ chan, (s.pc q).owes chan = true → (Pc.readWake a i).owes chan = true := by
        intro chan how
        rw [hpc] at how
        cases chan with
        | nread => cases how
        | nwrite => rfl
      rw [hpc] at hrun
      simp only at hrun
      split at hrun
      · split at hrun
        · obtain rfl := Option.some.inj hrun
          exact h.goto hin rfl trivial fun chan how => Or.inl (hgo chan how)
        · rename_i hsome
          obtain rfl := Option.some.inj hrun
          refine h.work hin rfl rfl rfl rfl trivial (fun chan hb => ?_) fun chan how => Or.inl ?_
          · cases chan with
            | nread => exact absurd hb.1 hsome
            | nwrite => exact Or.inr rfl
          · rw [hpc] at how
            cases chan with
            | nread => cases how
            | nwrite => rfl
      · obtain rfl := Option.some.inj hrun
        exact h.goto hin rfl trivial fun chan how => Or.inl (hgo chan how)
  | readWake a i =>
      have hin : (s.pc q).inside = true := by rw [hpc]; rfl
      rw [hpc] at hrun
      refine h.signal hrun hin rfl trivial fun chan how => ?_
      rw [hpc] at how
      cases chan with
      | nread => cases how
      | nwrite => rfl
  | closeEnter writable =>
      rw [hpc] at hrun
      exact h.acquire hrun rfl trivial
  | close writable =>
      have hin : (s.pc q).inside = true := by rw [hpc]; rfl
      have hnone : ∀ chan, (s.pc q).owes chan = false := by
        intro chan
        rw [hpc]
        cases chan <;> rfl
      rw [hpc] at hrun
      cases writable with
      | true =>
          obtain rfl := Option.some.inj hrun
          refine h.work hin rfl rfl rfl rfl trivial (fun chan hb => ?_) fun chan how => ?_
          · cases chan with
            | nread => exact Or.inr rfl
            | nwrite => exact Or.inl hb
          · rw [hnone chan] at how
            cases how
      | false =>
          obtain rfl := Option.some.inj hrun
          refine h.work hin rfl rfl rfl rfl trivial (fun chan hb => ?_) fun chan how => ?_
          · cases chan with
            | nread => exact Or.inl hb
            | nwrite => exact Or.inr rfl
          · rw [hnone chan] at how
            cases how
  | closeWake writable =>
      have hin : (s.pc q).inside = true := by rw [hpc]; rfl
      rw [hpc] at hrun
      cases writable with
      | true =>
          refine h.signal hrun hin rfl trivial fun chan how => ?_
          rw [hpc] at how
          cases chan with
          | nread => rfl
          | nwrite => cases how
      | false =>
          refine h.signal hrun hin rfl trivial fun chan how => ?_
          rw [hpc] at how
          cases chan with
          | nread => cases how
          | nwrite => rfl
  | leave k value i =>
      have hin : (s.pc q).inside = true := by rw [hpc]; rfl
      rw [hpc] at hrun
      obtain rfl := Option.some.inj hrun
      refine h.release hin fun chan => ?_
      rw [hpc]
      cases chan <;> rfl
  | falling w =>
      have hheld := h.falling q w hpc
      have hout : (s.pc q).inside = false := by rw [hpc]; rfl
      rw [hpc] at hrun
      obtain rfl := Option.some.inj hrun
      refine h.shift hout (c := .asleep w) rfl ?_ (fun _ hw => by cases hw) ?_ rfl rfl rfl rfl
      · rintro chan ⟨v, hv, hw | hw⟩
        · cases hw
        · obtain rfl := Pc.asleep.inj hw
          exact ⟨w, hv, Or.inl hpc⟩
      · intro r v hne hr
        have hbad := h.falling r v hr
        rw [hheld] at hbad
        exact absurd (Option.some.inj hbad).symm hne
  | asleep w =>
      rw [hpc] at hrun
      cases hrun
  | woken w =>
      rw [hpc] at hrun
      cases w with
      | writer a i => exact h.acquire hrun rfl trivial
      | reader a => exact h.acquire hrun rfl trivial

theorem Call.enter_inside (k : Call) : k.enter.inside = false := by
  cases k <;> rfl

theorem Inv.step {a : Act ι} (h : Inv s) (hstep : Step s a s') (hpays : ¬Deserts s a) :
    Inv s' := by
  unfold Step State.step at hstep
  cases a with
  | call q k =>
      simp only at hstep
      split at hstep
      · rename_i hidle
        obtain rfl := Option.some.inj hstep
        have hout : (s.pc q).inside = false := by rw [hidle]; rfl
        refine h.shift hout k.enter_inside ?_ ?_ (fun r w _ hr => h.falling r w hr) rfl rfl rfl rfl
        · rintro chan ⟨w, -, hw | hw⟩
          · cases k <;> cases hw
          · cases k <;> cases hw
        · intro w hw
          cases k <;> cases hw
      · cases hstep
  | run q => exact h.advance hstep hpays
  | kill q =>
      simp only at hstep
      split at hstep
      · obtain rfl := Option.some.inj hstep
        refine h.rouse (fun r => ?_) rfl rfl rfl
        change Roused (s.pc r) (Function.update s.pc q (rousePc (s.pc q)) r)
        rcases eq_or_ne r q with rfl | hne
        · rw [Function.update_self]
          exact roused_rousePc (s.pc r)
        · rw [Function.update_of_ne hne]
          exact Or.inl rfl
      · cases hstep

/-- A step in which no writer deserts the readers. -/
def PayingStep (s : State ι) (a : Act ι) (s' : State ι) : Prop :=
  Step s a s' ∧ ¬Deserts s a

/-- In every run in which no writer deserts the readers, no wakeup is lost. -/
theorem no_lost_wakeup_of_paying_run {acts : List (Act ι)} {s₀ : State ι} (hfresh : Fresh s₀)
    (hrun : Run PayingStep (fun _ => True) s₀ acts s) : NoLostWakeup s := by
  have hinv : Inv s := by
    refine hrun.invariant ?_ hfresh.inv
    rintro t a u - - ht ⟨hstep, hpays⟩
    exact ht.step hstep hpays
  exact hinv.noLostWakeup

/-- A step of two processes while neither has been killed and the reading end is open. -/
def peacefulStep (s : State Bool) (a : Act Bool) : Option (State Bool) :=
  if s.readopen = true ∧ s.killed true = false ∧ s.killed false = false then s.step a else none

theorem paying_of_peaceful (s : State Bool) (a : Act Bool) (t : State Bool)
    (h : peacefulStep s a = some t) : PayingStep s a t ∧ True := by
  unfold peacefulStep at h
  split at h
  · rename_i hcalm
    obtain ⟨hopen, htrue, hfalse⟩ := hcalm
    refine ⟨⟨h, ?_⟩, trivial⟩
    cases a with
    | call q k => exact fun hd => hd
    | kill q => exact fun hd => hd
    | run q =>
        rintro ⟨-, hclosed | hkilled, -⟩
        · rw [hopen] at hclosed
          cases hclosed
        · cases q with
          | true =>
              rw [htrue] at hkilled
              cases hkilled
          | false =>
              rw [hfalse] at hkilled
              cases hkilled
  · cases h

/-- A reader goes to sleep on the empty pipe, and a writer stores a byte and returns. -/
theorem no_lost_wakeup_of_paying_run_newPipe : ∃ s t : State Bool,
    Run PayingStep (fun _ => True) newPipe
      (.call false (.read ⟨100, 1⟩) :: List.replicate 5 (.run false)) s ∧
    s.lock = none ∧ s.Sleeping false .nread ∧ NoLostWakeup s ∧
    Run PayingStep (fun _ => True) s
      (.call true (.write ⟨7, 1⟩) :: List.replicate 5 (.run true)) t ∧
    t.lock = none ∧ ¬t.Empty ∧ NoLostWakeup t := by
  obtain ⟨s, t, hs, ht, hlock, hsleep, hfree, hsome⟩ : ∃ s t, Run.play peacefulStep newPipe
      (.call false (.read ⟨100, 1⟩) :: List.replicate 5 (.run false)) = some s ∧
      Run.play peacefulStep s
        (.call true (.write ⟨7, 1⟩) :: List.replicate 5 (.run true)) = some t ∧
      s.lock = none ∧ s.pc false = .asleep (.reader ⟨100, 1⟩) ∧ t.lock = none ∧ ¬t.Empty :=
    ⟨_, _, rfl, rfl, rfl, rfl, rfl, by decide⟩
  have hruns := Run.of_play_of paying_of_peaceful trivial hs
  have hrunt := Run.of_play_of paying_of_peaceful trivial ht
  refine ⟨s, t, hruns, hlock, ⟨_, rfl, hsleep⟩, ?_, hrunt, hfree, hsome, ?_⟩
  · exact no_lost_wakeup_of_paying_run newPipe_fresh hruns
  · exact no_lost_wakeup_of_paying_run newPipe_fresh (hruns.append hrunt)

/-- A reader sleeps on the empty pipe; a writer that has been killed stores 512 bytes,
finds the pipe full and returns. -/
def desertion : List (Act Bool) :=
  [.call false (.read ⟨0, 1⟩), .run false, .run false, .run false, .run false, .run false,
    .kill true, .call true (.write ⟨0, 513⟩), .run true] ++
    List.replicate 512 (.run true) ++ [.run true, .run true, .run true]

/-- The reader is left asleep with 512 bytes in the pipe. -/
theorem writer_deserts : ∃ s : State Bool,
    Run Step (fun _ => True) newPipe desertion s ∧ ¬NoLostWakeup s := by
  obtain ⟨s, hplay, hlock, hne, hpc⟩ : ∃ s, Run.play State.step newPipe desertion = some s ∧
      s.lock = none ∧ ¬s.Empty ∧ s.pc false = .asleep (.reader ⟨0, 1⟩) := by
    have hend : (Run.play State.step newPipe desertion).any (fun s =>
        decide (s.lock = none ∧ ¬s.Empty ∧ s.pc false = .asleep (.reader ⟨0, 1⟩))) = true := by
      decide +kernel
    cases hplay : Run.play State.step newPipe desertion with
    | none =>
        rw [hplay] at hend
        cases hend
    | some s =>
        rw [hplay] at hend
        exact ⟨s, rfl, of_decide_eq_true hend⟩
  refine ⟨s, Run.of_play hplay, fun hgood => ?_⟩
  exact (hgood hlock).1 (Or.inl hne) false ⟨.reader ⟨0, 1⟩, rfl, hpc⟩

end Pipe

end Xv6
