import Xv6.Pipe.Machine

/-!
# A pipe is a queue

What the processes do to the buffer of a pipe comes down to two operations, storing
a byte if the pipe is not full and delivering one if it is not empty.  Both keep the
bytes between the two counters in order, also when a counter wraps, since 512
divides the range of the counters.
-/

namespace Xv6

namespace Pipe

open Support

variable {ι : Type} {s s' : State ι}

/-- The number of bytes in the pipe, `p->nwrite - p->nread`. -/
def State.count (s : State ι) : ℕ :=
  Ring.gap counterRange s.nread s.nwrite

/-- The bytes in the pipe, the next one to be delivered first. -/
def State.buffered (s : State ι) : List UInt8 :=
  Ring.contents pipesize s.data s.nread s.count

/-- The part of the state that belongs to the buffer. -/
def State.traffic (s : State ι) : (ℕ → UInt8) × ℕ × ℕ × List (ι × UInt8) × List (ι × UInt8) :=
  (s.data, s.nread, s.nwrite, s.stored, s.delivered)

/-- The bytes stored so far. -/
def State.input (s : State ι) : List UInt8 :=
  s.stored.map Prod.snd

/-- The bytes delivered so far. -/
def State.output (s : State ι) : List UInt8 :=
  s.delivered.map Prod.snd

/-! ## The invariant -/

/-- The bytes stored are the bytes delivered followed by those in the pipe. -/
structure Fifo (s : State ι) : Prop where
  nread_lt : s.nread < counterRange
  nwrite_lt : s.nwrite < counterRange
  count_le : s.count ≤ pipesize
  order : s.input = s.output ++ s.buffered

theorem Fifo.of_traffic (hs : Fifo s) (h : s'.traffic = s.traffic) : Fifo s' := by
  unfold State.traffic at h
  simp only [Prod.mk.injEq] at h
  obtain ⟨hdata, hnread, hnwrite, hstored, hdelivered⟩ := h
  have hcount : s'.count = s.count := by
    unfold State.count
    rw [hnread, hnwrite]
  have hbuffered : s'.buffered = s.buffered := by
    unfold State.buffered
    rw [hdata, hnread, hcount]
  constructor
  · rw [hnread]
    exact hs.nread_lt
  · rw [hnwrite]
    exact hs.nwrite_lt
  · rw [hcount]
    exact hs.count_le
  · unfold State.input State.output
    rw [hstored, hdelivered, hbuffered]
    exact hs.order

theorem Fifo.full_iff (hs : Fifo s) : s.Full ↔ s.count = pipesize := by
  unfold State.Full State.count wrap32
  rw [Ring.gap_eq_iff hs.nread_lt hs.nwrite_lt (by decide)]

theorem Fifo.empty_iff (hs : Fifo s) : s.Empty ↔ s.count = 0 :=
  (Ring.gap_eq_zero_iff hs.nread_lt hs.nwrite_lt).symm

theorem Fifo.store (hs : Fifo s) (hroom : ¬s.Full) (q : ι) (x : ℕ) : Fifo (s.store q x) := by
  have hlt : s.count < pipesize := by
    have hle := hs.count_le
    have hne : s.count ≠ pipesize := fun heq => hroom (hs.full_iff.mpr heq)
    omega
  have hcount : (s.store q x).count = s.count + 1 := by
    refine Ring.gap_put hs.nread_lt hs.nwrite_lt ?_
    change s.count + 1 < counterRange
    unfold pipesize at hlt
    unfold counterRange
    omega
  refine ⟨hs.nread_lt, Nat.mod_lt _ (by decide), by omega, ?_⟩
  -- the new byte goes to the cell after the last byte in the pipe
  have hcell : s.nwrite % pipesize = (s.nread + s.count) % pipesize := by
    have hadd : (s.nread + s.count) % counterRange = s.nwrite :=
      Ring.add_gap hs.nread_lt hs.nwrite_lt
    rw [← hadd, Nat.mod_mod_of_dvd _ (by decide)]
  have hbuffered : (s.store q x).buffered = s.buffered ++ [s.mem q x] := by
    unfold State.buffered
    rw [hcount]
    exact Ring.contents_put hlt hcell
  have hinput : (s.store q x).input = s.input ++ [s.mem q x] := List.map_append
  rw [hbuffered, hinput, ← List.append_assoc]
  exact congrArg (· ++ [s.mem q x]) hs.order

theorem Fifo.deliver [DecidableEq ι] (hs : Fifo s) (hsome : ¬s.Empty) (q : ι) (x : ℕ) :
    Fifo (s.deliver q x) := by
  have hne : s.count ≠ 0 := fun heq => hsome (hs.empty_iff.mpr heq)
  have hcount : (s.deliver q x).count = s.count - 1 :=
    Ring.gap_take hs.nread_lt hs.nwrite_lt hne
  have hle := hs.count_le
  refine ⟨Nat.mod_lt _ (by decide), hs.nwrite_lt, by omega, ?_⟩
  have hbuffered : s.buffered = s.data (s.nread % pipesize) :: (s.deliver q x).buffered := by
    obtain ⟨n, hn⟩ := Nat.exists_eq_succ_of_ne_zero hne
    have hwrap : (s.deliver q x).buffered = Ring.contents pipesize s.data (s.nread + 1) n := by
      unfold State.buffered
      rw [hcount, hn]
      exact Ring.contents_mod (by decide)
    rw [hwrap]
    unfold State.buffered
    rw [hn]
    exact Ring.contents_succ
  have houtput : (s.deliver q x).output = s.output ++ [s.data (s.nread % pipesize)] :=
    List.map_append
  have horder := hs.order
  rw [hbuffered, List.append_cons] at horder
  rw [houtput]
  exact horder

theorem Fresh.fifo (hs : Fresh s) : Fifo s := by
  have hcount : s.count = 0 := by
    unfold State.count
    rw [hs.nread, hs.nwrite]
    decide
  have hrange : 0 < counterRange := by decide
  constructor
  · rw [hs.nread]
    exact hrange
  · rw [hs.nwrite]
    exact hrange
  · rw [hcount]
    exact Nat.zero_le _
  · unfold State.input State.output State.buffered
    rw [hcount, hs.stored, hs.delivered]
    rfl

variable [DecidableEq ι] {q : ι} {a : Act ι}

/-! ## What a step does to the buffer -/

/-- A step leaves the buffer alone, stores a byte or delivers one. -/
inductive Transfer (s s' : State ι) : Prop where
  | none (h : s'.traffic = s.traffic)
  | store (q : ι) (x : ℕ) (hroom : ¬s.Full) (h : s'.traffic = (s.store q x).traffic)
  | deliver (q : ι) (x : ℕ) (hsome : ¬s.Empty) (h : s'.traffic = (s.deliver q x).traffic)

theorem acquire_transfer {c : Pc} (h : s.acquire q c = some s') : Transfer s s' := by
  unfold State.acquire at h
  split at h
  · obtain rfl := Option.some.inj h
    exact .none rfl
  · cases h

theorem signal_transfer {chan : Channel} {c : Pc} (h : s.signal q chan c = some s') :
    Transfer s s' := by
  unfold State.signal at h
  split at h
  · obtain rfl := Option.some.inj h
    exact .none rfl
  · cases h

theorem park_transfer {w : Sleeper} (h : s.park q w = some s') : Transfer s s' := by
  unfold State.park at h
  split at h
  · obtain rfl := Option.some.inj h
    exact .none rfl
  · cases h

theorem advance_transfer (h : s.advance q = some s') : Transfer s s' := by
  -- the steps that only move the process, and those that only take or give a lock
  have hmove : ∀ {t : State ι}, some t = some s' → t.traffic = s.traffic → Transfer s s' := by
    intro t heq ht
    obtain rfl := Option.some.inj heq
    exact .none ht
  unfold State.advance at h
  generalize s.pc q = c at h
  cases c with
  | idle => cases h
  | writeEnter a => exact acquire_transfer h
  | writeTest a i owed =>
      simp only at h
      split at h
      · split at h
        · exact hmove h rfl
        · rename_i hroom
          obtain rfl := Option.some.inj h
          exact .store q (a.addr + i) hroom rfl
      · exact hmove h rfl
  | writeFull a i owed =>
      simp only at h
      split at h
      · exact hmove h rfl
      · exact hmove h rfl
  | writeWake a i => exact signal_transfer h
  | writeSleep a i => exact park_transfer h
  | writeDone a i => exact signal_transfer h
  | abandon a i => exact hmove h rfl
  | readEnter a => exact acquire_transfer h
  | readTest a =>
      simp only at h
      split at h
      · exact hmove h rfl
      · exact hmove h rfl
  | readEmpty a =>
      simp only at h
      split at h
      · exact hmove h rfl
      · exact hmove h rfl
  | readSleep a => exact park_transfer h
  | readCopy a i =>
      simp only at h
      split at h
      · split at h
        · exact hmove h rfl
        · rename_i hsome
          obtain rfl := Option.some.inj h
          exact .deliver q (a.addr + i) hsome rfl
      · exact hmove h rfl
  | readWake a i => exact signal_transfer h
  | closeEnter writable => exact acquire_transfer h
  | close writable =>
      cases writable with
      | true => exact hmove h rfl
      | false => exact hmove h rfl
  | closeWake writable =>
      cases writable with
      | true => exact signal_transfer h
      | false => exact signal_transfer h
  | leave c value i => exact hmove h rfl
  | falling w => exact hmove h rfl
  | asleep w => cases h
  | woken w =>
      cases w with
      | writer a i => exact acquire_transfer h
      | reader a => exact acquire_transfer h

theorem step_transfer (h : Step s a s') : Transfer s s' := by
  unfold Step State.step at h
  cases a with
  | call q c =>
      simp only at h
      split at h
      · obtain rfl := Option.some.inj h
        exact .none rfl
      · cases h
  | run q => exact advance_transfer h
  | kill q =>
      simp only at h
      split at h
      · obtain rfl := Option.some.inj h
        exact .none rfl
      · cases h

theorem Fifo.step (hs : Fifo s) (h : Step s a s') : Fifo s' := by
  cases step_transfer h with
  | none hsame => exact hs.of_traffic hsame
  | store q x hroom hsame => exact (hs.store hroom q x).of_traffic hsame
  | deliver q x hsome hsame => exact (hs.deliver hsome q x).of_traffic hsame

/-- The pipe is a queue in every state that the processes can reach. -/
theorem fifo_of_run {acts : List (Act ι)} {s₀ : State ι} (hfresh : Fresh s₀)
    (hrun : Run Step (fun _ => True) s₀ acts s) : Fifo s :=
  hrun.invariant (fun _ _ _ _ _ hs h => hs.step h) hfresh.fifo

end Pipe

end Xv6
