import Xv6.Pipe.Fifo

/-!
# What the calls on a pipe return

The bytes that a process has had stored or delivered are those of its calls, one call
after the other: of each call that has returned, the bytes at `addr` that it has moved,
and of the call under way those that it has moved so far.  With the order of the bytes
in the pipe this says that what the readers find in their memory is what the writers
had in theirs.
-/

namespace Xv6

namespace Pipe

open Support

variable {ι : Type} {s s' : State ι} {q r : ι} {c : Pc}

/-! ## The account of a process -/

/-- Address and number of the bytes that the call of `pipewrite` under way has stored. -/
def Pc.written : Pc → ℕ × ℕ
  | .writeTest a i _ | .writeFull a i _ => (a.addr, i)
  | .writeWake a i | .writeSleep a i | .writeDone a i | .abandon a i => (a.addr, i)
  | .falling (.writer a i) | .asleep (.writer a i) | .woken (.writer a i) => (a.addr, i)
  | .leave (.write a) _ i => (a.addr, i)
  | _ => (0, 0)

/-- Address and number of the bytes that the call of `piperead` under way has delivered. -/
def Pc.fetched : Pc → ℕ × ℕ
  | .readCopy a i | .readWake a i => (a.addr, i)
  | .leave (.read a) _ i => (a.addr, i)
  | _ => (0, 0)

/-- How far the call under way has come, and what it is going to return. -/
def Pc.Steady : Pc → Prop
  | .writeTest a i _ => i ≤ a.n.toNat
  | .writeFull a i _ | .writeWake a i | .writeSleep a i | .abandon a i => (i : ℤ) < a.n
  | .falling (.writer a i) | .asleep (.writer a i) | .woken (.writer a i) => (i : ℤ) < a.n
  | .writeDone a i => i = a.n.toNat
  | .readCopy a i | .readWake a i => i ≤ a.n.toNat
  | .leave (.write a) value i => value = a.n ∧ i = a.n.toNat
  | .leave (.read a) value i => value = i ∧ i ≤ a.n.toNat ∨ value = -1 ∧ i = 0
  | .leave (.close _) _ i => i = 0
  | _ => True

/-- The bytes that a call of `pipewrite` has stored. -/
def Return.stored : Return → List UInt8
  | ⟨.write _, _, bytes⟩ => bytes
  | _ => []

/-- The bytes that a call of `piperead` has delivered. -/
def Return.delivered : Return → List UInt8
  | ⟨.read _, _, bytes⟩ => bytes
  | _ => []

/-- The value is -1, or it counts the bytes: for `pipewrite` all that it was called with,
for `piperead` at most as many. -/
def Return.Right : Return → Prop
  | ⟨.write a, value, bytes⟩ =>
      value = a.n ∧ bytes.length = a.n.toNat ∨ value = -1 ∧ (bytes.length : ℤ) < a.n
  | ⟨.read a, value, bytes⟩ =>
      value = bytes.length ∧ bytes.length ≤ a.n.toNat ∨ value = -1 ∧ bytes = []
  | ⟨.close _, _, bytes⟩ => bytes = []

theorem length_window (mem : ℕ → UInt8) (x i : ℕ) : (window mem x i).length = i := by
  rw [window, List.length_map, List.length_range]

theorem window_succ (mem : ℕ → UInt8) (x i : ℕ) :
    window mem x (i + 1) = window mem x i ++ [mem (x + i)] := by
  rw [window, List.range_succ, List.map_append]
  rfl

theorem window_update (mem : ℕ → UInt8) (x i : ℕ) (b : UInt8) :
    window (Function.update mem (x + i) b) x i = window mem x i := by
  refine List.map_congr_left fun j hj => ?_
  have hlt := List.mem_range.mp hj
  exact Function.update_of_ne (show x + j ≠ x + i by omega) b mem

theorem Roused.written {c' : Pc} (h : Roused c c') : c'.written = c.written := by
  rcases h with rfl | ⟨w, rfl, rfl⟩
  · rfl
  · cases w <;> rfl

theorem Roused.fetched {c' : Pc} (h : Roused c c') : c'.fetched = c.fetched := by
  rcases h with rfl | ⟨w, rfl, rfl⟩
  · rfl
  · rfl

theorem Roused.steady {c' : Pc} (h : Roused c c') (hc : c.Steady) : c'.Steady := by
  rcases h with rfl | ⟨w, rfl, rfl⟩
  · exact hc
  · cases w with
    | writer a i => exact hc
    | reader a => exact trivial

variable [DecidableEq ι]

/-- The bytes that the process has stored. -/
def State.storedBy (s : State ι) (q : ι) : List UInt8 :=
  (s.stored.filter fun e => e.1 = q).map Prod.snd

/-- The bytes that have been delivered to the process. -/
def State.deliveredTo (s : State ι) (q : ι) : List UInt8 :=
  (s.delivered.filter fun e => e.1 = q).map Prod.snd

/-- The bytes of a process are those of its calls. -/
structure Account (s : State ι) (q : ι) : Prop where
  stored : s.storedBy q = (s.returned q).flatMap Return.stored ++
    window (s.mem q) (s.pc q).written.1 (s.pc q).written.2
  delivered : s.deliveredTo q = (s.returned q).flatMap Return.delivered ++
    window (s.mem q) (s.pc q).fetched.1 (s.pc q).fetched.2
  steady : (s.pc q).Steady
  right : ∀ e ∈ s.returned q, e.Right

/-- The part of the state that the account depends on, but for the place of the process. -/
def State.books (s : State ι) :
    (ι → ℕ → UInt8) × List (ι × UInt8) × List (ι × UInt8) × (ι → List Return) :=
  (s.mem, s.stored, s.delivered, s.returned)

/-- The account of a process is the same if its place and its books are. -/
theorem Account.congr (h : Account s q) (hwritten : (s'.pc q).written = (s.pc q).written)
    (hfetched : (s'.pc q).fetched = (s.pc q).fetched) (hsteady : (s'.pc q).Steady)
    (hmem : s'.mem q = s.mem q) (hstored : s'.storedBy q = s.storedBy q)
    (hdelivered : s'.deliveredTo q = s.deliveredTo q) (hreturned : s'.returned q = s.returned q) :
    Account s' q := by
  refine ⟨?_, ?_, hsteady, ?_⟩
  · rw [hstored, hreturned, hmem, hwritten]
    exact h.stored
  · rw [hdelivered, hreturned, hmem, hfetched]
    exact h.delivered
  · rw [hreturned]
    exact h.right

theorem Fresh.account (h : Fresh s) (q : ι) : Account s q := by
  refine ⟨?_, ?_, ?_, ?_⟩
  · rw [State.storedBy, h.stored, h.returned, h.idle]
    rfl
  · rw [State.deliveredTo, h.delivered, h.returned, h.idle]
    rfl
  · rw [h.idle]
    exact trivial
  · rw [h.returned]
    exact fun _ he => absurd he List.not_mem_nil

/-! ## Steps that move no byte -/

/-- The process goes on at `c`, and others may be woken. -/
structure Moved (s : State ι) (q : ι) (c : Pc) (s' : State ι) : Prop where
  self : s'.pc q = c
  other : ∀ r, r ≠ q → Roused (s.pc r) (s'.pc r)
  books : s'.books = s.books

theorem Moved.of_update (hpc : s'.pc = Function.update s.pc q c) (hbooks : s'.books = s.books) :
    Moved s q c s' := by
  refine ⟨?_, fun r hne => Or.inl ?_, hbooks⟩
  · rw [hpc, Function.update_self]
  · rw [hpc, Function.update_of_ne hne]

theorem acquire_moved (h : s.acquire q c = some s') : Moved s q c s' := by
  unfold State.acquire at h
  split at h
  · obtain rfl := Option.some.inj h
    exact .of_update rfl rfl
  · cases h

theorem signal_moved {chan : Channel} (h : s.signal q chan c = some s') : Moved s q c s' := by
  unfold State.signal at h
  split at h
  · obtain rfl := Option.some.inj h
    refine ⟨Function.update_self .., fun r hne => ?_, rfl⟩
    change Roused (s.pc r) (Function.update (s.wakeup chan).pc q c r)
    rw [Function.update_of_ne hne]
    exact roused_wakePc chan (s.pc r)
  · cases h

theorem park_moved {w : Sleeper} (h : s.park q w = some s') : Moved s q (.falling w) s' := by
  unfold State.park at h
  split at h
  · obtain rfl := Option.some.inj h
    exact .of_update rfl rfl
  · cases h

theorem Moved.accounts (hm : Moved s q c s') (h : ∀ r, Account s r)
    (hwritten : window (s.mem q) c.written.1 c.written.2 =
      window (s.mem q) (s.pc q).written.1 (s.pc q).written.2)
    (hfetched : window (s.mem q) c.fetched.1 c.fetched.2 =
      window (s.mem q) (s.pc q).fetched.1 (s.pc q).fetched.2)
    (hsteady : c.Steady) (r : ι) : Account s' r := by
  have hbooks := hm.books
  unfold State.books at hbooks
  simp only [Prod.mk.injEq] at hbooks
  obtain ⟨hmem, hstored, hdelivered, hreturned⟩ := hbooks
  rcases eq_or_ne r q with rfl | hne
  · refine ⟨?_, ?_, ?_, ?_⟩
    · rw [State.storedBy, hstored, hreturned, hmem, hm.self, hwritten]
      exact (h r).stored
    · rw [State.deliveredTo, hdelivered, hreturned, hmem, hm.self, hfetched]
      exact (h r).delivered
    · rw [hm.self]
      exact hsteady
    · rw [hreturned]
      exact (h r).right
  · have hroused := hm.other r hne
    refine (h r).congr hroused.written hroused.fetched (hroused.steady (h r).steady) ?_ ?_ ?_ ?_
    · rw [hmem]
    · rw [State.storedBy, hstored]
      rfl
    · rw [State.deliveredTo, hdelivered]
      rfl
    · rw [hreturned]

/-! ## Steps that move a byte, and returns -/

theorem accounts_store {a : Args} {i : ℕ} {owed : Bool} (h : ∀ r, Account s r)
    (hpc : s.pc q = .writeTest a i owed) (hi : (i : ℤ) < a.n) (r : ι) :
    Account ((s.store q (a.addr + i)).goto q (.writeTest a (i + 1) true)) r := by
  have hself : ((s.store q (a.addr + i)).goto q (.writeTest a (i + 1) true)).pc q =
      .writeTest a (i + 1) true := Function.update_self ..
  rcases eq_or_ne r q with rfl | hne
  · have hold := h r
    refine ⟨?_, ?_, ?_, hold.right⟩
    · have hstored : ((s.store r (a.addr + i)).goto r (.writeTest a (i + 1) true)).storedBy r =
          s.storedBy r ++ [s.mem r (a.addr + i)] := by
        simp [State.storedBy, State.goto, State.store]
      rw [hstored, hold.stored, hself, hpc]
      change _ = (s.returned r).flatMap Return.stored ++ window (s.mem r) a.addr (i + 1)
      rw [window_succ, ← List.append_assoc]
      rfl
    · rw [hself]
      have hdelivered := hold.delivered
      rw [hpc] at hdelivered
      exact hdelivered
    · rw [hself]
      change i + 1 ≤ a.n.toNat
      omega
  · have hother : ((s.store q (a.addr + i)).goto q (.writeTest a (i + 1) true)).pc r = s.pc r :=
      Function.update_of_ne hne ..
    refine (h r).congr (by rw [hother]) (by rw [hother]) (by rw [hother]; exact (h r).steady) rfl
      ?_ rfl rfl
    simp [State.storedBy, State.goto, State.store, hne.symm]

theorem accounts_deliver {a : Args} {i : ℕ} (h : ∀ r, Account s r)
    (hpc : s.pc q = .readCopy a i) (hi : (i : ℤ) < a.n) (r : ι) :
    Account ((s.deliver q (a.addr + i)).goto q (.readCopy a (i + 1))) r := by
  have hself : ((s.deliver q (a.addr + i)).goto q (.readCopy a (i + 1))).pc q =
      .readCopy a (i + 1) := Function.update_self ..
  rcases eq_or_ne r q with rfl | hne
  · have hold := h r
    have hmem : ((s.deliver r (a.addr + i)).goto r (.readCopy a (i + 1))).mem r =
        Function.update (s.mem r) (a.addr + i) (s.data (s.nread % pipesize)) :=
      Function.update_self ..
    refine ⟨?_, ?_, ?_, hold.right⟩
    · rw [hself]
      have hstored := hold.stored
      rw [hpc] at hstored
      exact hstored
    · have hdelivered : ((s.deliver r (a.addr + i)).goto r (.readCopy a (i + 1))).deliveredTo r =
          s.deliveredTo r ++ [s.data (s.nread % pipesize)] := by
        simp [State.deliveredTo, State.goto, State.deliver]
      rw [hdelivered, hold.delivered, hself, hmem, hpc]
      change _ = (s.returned r).flatMap Return.delivered ++ window _ a.addr (i + 1)
      rw [window_succ, window_update, Function.update_self, ← List.append_assoc]
      rfl
    · rw [hself]
      change i + 1 ≤ a.n.toNat
      omega
  · have hother : ((s.deliver q (a.addr + i)).goto q (.readCopy a (i + 1))).pc r = s.pc r :=
      Function.update_of_ne hne ..
    refine (h r).congr (by rw [hother]) (by rw [hother]) (by rw [hother]; exact (h r).steady) ?_
      rfl ?_ rfl
    · exact Function.update_of_ne hne ..
    · simp [State.deliveredTo, State.goto, State.deliver, hne.symm]

/-- A call returns: its bytes go from the call under way to those that have returned. -/
theorem accounts_finish {k : Call} {value : ℤ} {i : ℕ} (h : ∀ r, Account s r)
    (hwritten : window (s.mem q) (s.pc q).written.1 (s.pc q).written.2 =
      Return.stored ⟨k, value, window (s.mem q) k.addr i⟩)
    (hfetched : window (s.mem q) (s.pc q).fetched.1 (s.pc q).fetched.2 =
      Return.delivered ⟨k, value, window (s.mem q) k.addr i⟩)
    (hright : Return.Right ⟨k, value, window (s.mem q) k.addr i⟩) (r : ι) :
    Account (s.finish q k value i) r := by
  rcases eq_or_ne r q with rfl | hne
  · have hold := h r
    have hself : (s.finish r k value i).pc r = .idle := Function.update_self ..
    have hreturned : (s.finish r k value i).returned r =
        s.returned r ++ [⟨k, value, window (s.mem r) k.addr i⟩] := Function.update_self ..
    refine ⟨?_, ?_, ?_, ?_⟩
    · rw [hself, hreturned, List.flatMap_append, List.flatMap_singleton, ← hwritten]
      exact hold.stored.trans (List.append_nil _).symm
    · rw [hself, hreturned, List.flatMap_append, List.flatMap_singleton, ← hfetched]
      exact hold.delivered.trans (List.append_nil _).symm
    · rw [hself]
      exact trivial
    · rw [hreturned]
      intro e he
      rcases List.mem_append.mp he with hin | hlast
      · exact hold.right e hin
      · obtain rfl := List.mem_singleton.mp hlast
        exact hright
  · have hother : (s.finish q k value i).pc r = s.pc r := Function.update_of_ne hne ..
    refine (h r).congr (by rw [hother]) (by rw [hother]) (by rw [hother]; exact (h r).steady) rfl
      rfl rfl ?_
    exact Function.update_of_ne hne ..

/-! ## Runs -/

theorem accounts_advance (h : ∀ r, Account s r) (hrun : s.advance q = some s') (r : ι) :
    Account s' r := by
  have hsteady := (h q).steady
  -- a step that only moves the process
  have hmove : ∀ {c : Pc}, Moved s q c s' →
      window (s.mem q) c.written.1 c.written.2 =
        window (s.mem q) (s.pc q).written.1 (s.pc q).written.2 →
      window (s.mem q) c.fetched.1 c.fetched.2 =
        window (s.mem q) (s.pc q).fetched.1 (s.pc q).fetched.2 →
      c.Steady → Account s' r :=
    fun hm hw hf hc => hm.accounts h hw hf hc r
  unfold State.advance at hrun
  cases hpc : s.pc q with
  | idle =>
      rw [hpc] at hrun
      cases hrun
  | writeEnter a =>
      rw [hpc] at hrun hmove
      exact hmove (acquire_moved hrun) rfl rfl (Nat.zero_le _)
  | writeTest a i owed =>
      have hstore := fun hi => accounts_store h hpc hi r
      rw [hpc] at hrun hmove hsteady
      simp only at hrun
      split at hrun
      · rename_i hi
        split at hrun
        · obtain rfl := Option.some.inj hrun
          exact hmove (.of_update rfl rfl) rfl rfl hi
        · obtain rfl := Option.some.inj hrun
          exact hstore hi
      · rename_i hi
        obtain rfl := Option.some.inj hrun
        have hle : i ≤ a.n.toNat := hsteady
        exact hmove (.of_update rfl rfl) rfl rfl (show i = a.n.toNat by omega)
  | writeFull a i owed =>
      rw [hpc] at hrun hmove hsteady
      simp only at hrun
      split at hrun
      · obtain rfl := Option.some.inj hrun
        exact hmove (.of_update rfl rfl) rfl rfl hsteady
      · obtain rfl := Option.some.inj hrun
        exact hmove (.of_update rfl rfl) rfl rfl hsteady
  | writeWake a i =>
      rw [hpc] at hrun hmove hsteady
      exact hmove (signal_moved hrun) rfl rfl hsteady
  | writeSleep a i =>
      rw [hpc] at hrun hmove hsteady
      exact hmove (park_moved hrun) rfl rfl hsteady
  | writeDone a i =>
      rw [hpc] at hrun hmove hsteady
      exact hmove (signal_moved hrun) rfl rfl ⟨rfl, hsteady⟩
  | abandon a i =>
      rw [hpc] at hrun hsteady
      obtain rfl := Option.some.inj hrun
      refine accounts_finish h ?_ ?_ ?_ r
      · rw [hpc]
        rfl
      · rw [hpc]
        rfl
      · refine Or.inr ⟨rfl, ?_⟩
        rw [length_window]
        exact hsteady
  | readEnter a =>
      rw [hpc] at hrun hmove
      exact hmove (acquire_moved hrun) rfl rfl trivial
  | readTest a =>
      rw [hpc] at hrun hmove
      simp only at hrun
      split at hrun
      · obtain rfl := Option.some.inj hrun
        exact hmove (.of_update rfl rfl) rfl rfl trivial
      · obtain rfl := Option.some.inj hrun
        exact hmove (.of_update rfl rfl) rfl rfl (Nat.zero_le _)
  | readEmpty a =>
      rw [hpc] at hrun hmove
      simp only at hrun
      split at hrun
      · obtain rfl := Option.some.inj hrun
        exact hmove (.of_update rfl rfl) rfl rfl (Or.inr ⟨rfl, rfl⟩)
      · obtain rfl := Option.some.inj hrun
        exact hmove (.of_update rfl rfl) rfl rfl trivial
  | readSleep a =>
      rw [hpc] at hrun hmove
      exact hmove (park_moved hrun) rfl rfl trivial
  | readCopy a i =>
      have hdeliver := fun hi => accounts_deliver h hpc hi r
      rw [hpc] at hrun hmove hsteady
      simp only at hrun
      split at hrun
      · rename_i hi
        split at hrun
        · obtain rfl := Option.some.inj hrun
          exact hmove (.of_update rfl rfl) rfl rfl hsteady
        · obtain rfl := Option.some.inj hrun
          exact hdeliver hi
      · obtain rfl := Option.some.inj hrun
        exact hmove (.of_update rfl rfl) rfl rfl hsteady
  | readWake a i =>
      rw [hpc] at hrun hmove hsteady
      exact hmove (signal_moved hrun) rfl rfl (Or.inl ⟨rfl, hsteady⟩)
  | closeEnter writable =>
      rw [hpc] at hrun hmove
      exact hmove (acquire_moved hrun) rfl rfl trivial
  | close writable =>
      rw [hpc] at hrun hmove
      cases writable with
      | true =>
          obtain rfl := Option.some.inj hrun
          exact hmove (.of_update rfl rfl) rfl rfl trivial
      | false =>
          obtain rfl := Option.some.inj hrun
          exact hmove (.of_update rfl rfl) rfl rfl trivial
  | closeWake writable =>
      rw [hpc] at hrun hmove
      cases writable with
      | true => exact hmove (signal_moved hrun) rfl rfl rfl
      | false => exact hmove (signal_moved hrun) rfl rfl rfl
  | leave c value i =>
      rw [hpc] at hrun hsteady
      obtain rfl := Option.some.inj hrun
      refine accounts_finish h ?_ ?_ ?_ r
      · rw [hpc]
        cases c <;> rfl
      · rw [hpc]
        cases c <;> rfl
      · cases c with
        | write a =>
            obtain ⟨hvalue, hi⟩ := hsteady
            exact Or.inl ⟨hvalue, (length_window _ _ _).trans hi⟩
        | read a =>
            rcases hsteady with ⟨hvalue, hi⟩ | ⟨hvalue, rfl⟩
            · refine Or.inl ⟨?_, ?_⟩
              · rw [length_window]
                exact hvalue
              · rw [length_window]
                exact hi
            · exact Or.inr ⟨hvalue, rfl⟩
        | close writable =>
            obtain rfl : i = 0 := hsteady
            rfl
  | falling w =>
      rw [hpc] at hrun hmove hsteady
      obtain rfl := Option.some.inj hrun
      cases w with
      | writer a i => exact hmove (.of_update rfl rfl) rfl rfl hsteady
      | reader a => exact hmove (.of_update rfl rfl) rfl rfl trivial
  | asleep w =>
      rw [hpc] at hrun
      cases hrun
  | woken w =>
      rw [hpc] at hrun hmove hsteady
      cases w with
      | writer a i =>
          have hi : (i : ℤ) < a.n := hsteady
          exact hmove (acquire_moved hrun) rfl rfl (show i ≤ a.n.toNat by omega)
      | reader a => exact hmove (acquire_moved hrun) rfl rfl trivial

theorem accounts_step {a : Act ι} (h : ∀ r, Account s r) (hstep : Step s a s') (r : ι) :
    Account s' r := by
  unfold Step State.step at hstep
  cases a with
  | call q k =>
      simp only at hstep
      split at hstep
      · rename_i hidle
        obtain rfl := Option.some.inj hstep
        have hm : Moved s q k.enter (s.goto q k.enter) := .of_update rfl rfl
        refine hm.accounts h ?_ ?_ ?_ r
        · rw [hidle]
          cases k <;> rfl
        · rw [hidle]
          cases k <;> rfl
        · cases k <;> exact trivial
      · cases hstep
  | run q => exact accounts_advance h hstep r
  | kill q =>
      simp only at hstep
      split at hstep
      · obtain rfl := Option.some.inj hstep
        have hroused := roused_rousePc (s.pc q)
        have hm : Moved s q (rousePc (s.pc q)) (s.kill q) := .of_update rfl rfl
        refine hm.accounts h ?_ ?_ (hroused.steady (h q).steady) r
        · rw [hroused.written]
        · rw [hroused.fetched]
      · cases hstep

/-- In every state that the processes can reach, the pipe holds at most 512 bytes; the bytes
stored are, in this order, those delivered and those in the pipe; and for each process the
bytes that it has stored or that were delivered to it are those of its calls, in their order:
of a call that has returned those at `addr`, as many as its value says, unless it is -1. -/
theorem pipe_fifo {acts : List (Act ι)} {s₀ : State ι} (hfresh : Fresh s₀)
    (hrun : Run Step (fun _ => True) s₀ acts s) :
    s.count ≤ pipesize ∧ s.input = s.output ++ s.buffered ∧ ∀ q, Account s q := by
  have hfifo := fifo_of_run hfresh hrun
  have haccounts : ∀ q, Account s q :=
    hrun.invariant (I := fun s => ∀ q, Account s q)
      (fun _ _ _ _ _ hs h => accounts_step hs h) fun q => hfresh.account q
  exact ⟨hfifo.count_le, hfifo.order, haccounts⟩

/-- One process writes the three bytes at its address 7, the other calls `piperead` twice for
two bytes, first before the bytes are there. -/
def exchange : List (Act Bool) :=
  [.call false (.read ⟨100, 2⟩), .run false, .run false, .run false, .run false, .run false,
    .call true (.write ⟨7, 3⟩)] ++ List.replicate 7 (.run true) ++
    List.replicate 7 (.run false) ++
    [.call false (.read ⟨200, 2⟩)] ++ List.replicate 6 (.run false)

theorem pipe_fifo_exchange : ∃ s : State Bool, Run Step (fun _ => True) newPipe exchange s ∧
    s.returned true = [⟨.write ⟨7, 3⟩, 3, [7, 8, 9]⟩] ∧
    s.returned false = [⟨.read ⟨100, 2⟩, 2, [7, 8]⟩, ⟨.read ⟨200, 2⟩, 1, [9]⟩] ∧
    s.count ≤ pipesize ∧ s.input = s.output ++ s.buffered ∧ ∀ q, Account s q := by
  obtain ⟨s, hplay, htrue, hfalse⟩ : ∃ s, Run.play State.step newPipe exchange = some s ∧
      s.returned true = [⟨.write ⟨7, 3⟩, 3, [7, 8, 9]⟩] ∧
      s.returned false = [⟨.read ⟨100, 2⟩, 2, [7, 8]⟩, ⟨.read ⟨200, 2⟩, 1, [9]⟩] :=
    ⟨_, rfl, rfl, rfl⟩
  have hrun := Run.of_play hplay
  exact ⟨s, hrun, htrue, hfalse, pipe_fifo newPipe_fresh hrun⟩

end Pipe

end Xv6
