import Xv6.Ide.Driver

/-!
# The queue of the IDE driver

The queue holds the buffers whose `iderw` has put them there and whose command has not
completed, in the order of their arrival, and the disk works on the first one.  A call of
`iderw` returns after the command for its buffer has completed.  What it does not tell its
caller is whether that command succeeded: after an error the data of the buffer is what it
was before, but the buffer counts as read.
-/

namespace Xv6

namespace Ide

open Support

section Requests

variable {ι : Type} [DecidableEq ι]

/-- The requests that wait after one more event. -/
def Event.queue (l : List ι) : Event ι → List ι
  | .call b => l ++ [b]
  | .done b => l.erase b
  | _ => l

/-- The requests that have been put into the queue and have not completed, in the order of
their arrival. -/
def waiting (es : List (Event ι)) : List ι :=
  es.foldl Event.queue []

/-- The requests that the disk works on after one more event. -/
def Event.work (l : List ι) : Event ι → List ι
  | .start b => l ++ [b]
  | .done b => l.erase b
  | _ => l

/-- The requests for which a command has been started that has not completed. -/
def started (es : List (Event ι)) : List ι :=
  es.foldl Event.work []

end Requests

/-! ## The invariant -/

/-- A buffer whose command has not completed is as it was when `iderw` was called. -/
structure Asking {ι : Type} (x : Buf ι) (c : Call) : Prop where
  unserved : ¬(x.valid = true ∧ x.dirty = false)
  reading : c.reading = !x.dirty
  data : x.data = c.before

/-- A buffer whose command has completed. -/
structure Answered {ι : Type} (x : Buf ι) (c : Call) (r : Result) : Prop where
  valid : x.valid = true
  clean : x.dirty = false
  data : c.reading = true → x.data = if r.ok then r.content else c.before

/-- The disk works on the command of the first request, or has completed it and its
interrupt is pending. -/
def Working {ι : Type} (d : Disk) (x : Buf ι) : Prop :=
  (d.active = some x.command ∧ d.pending = none) ∨
    (d.active = none ∧ ∃ ok, d.pending = some ok ∧
      (ok = true → x.dirty = false → d.out = d.content x.place))

/-- What the disk does for the queue `l`. -/
def Busy {ι : Type} (d : Disk) (buf : ι → Buf ι) : List ι → Prop
  | [] => d.active = none ∧ d.pending = none
  | b :: _ => Working d (buf b)

/-- The requests `l` wait in this order. -/
structure Inv {ι : Type} (s : State ι) (l : List ι) : Prop where
  chain : Linked.Chain (fun b => (s.buf b).qnext) s.idequeue l
  nodup : l.Nodup
  calls : ∀ b, b ∈ l ↔ ∃ c, s.call b = some c ∧ c.result = none
  asking : ∀ b c, s.call b = some c → c.result = none → Asking (s.buf b) c
  answered : ∀ b c r, s.call b = some c → c.result = some r → Answered (s.buf b) c r
  busy : Busy s.disk s.buf l

section Steps

variable {ι : Type} {s s' t : State ι} {l : List ι} {b : ι}

theorem Quiet.inv (h : Quiet s) : Inv s [] := by
  refine ⟨h.idequeue, .nil, ?_, ?_, ?_, h.active, h.pending⟩
  · intro b
    simp [h.call b]
  · intro b c hc
    simp [h.call b] at hc
  · intro b c r hc
    simp [h.call b] at hc

theorem Inv.not_mem (h : Inv s l) (hb : s.call b = none) : b ∉ l := by
  intro hmem
  obtain ⟨c, hc, -⟩ := (h.calls b).mp hmem
  simp [hb] at hc

/-- What a buffer is for the disk does not depend on its link. -/
theorem Busy.congr {d : Disk} {buf buf' : ι → Buf ι} (h : Busy d buf l)
    (hbuf : ∀ x ∈ l, ∃ p, buf' x = { buf x with qnext := p }) : Busy d buf' l := by
  cases l with
  | nil => exact h
  | cons a l =>
      obtain ⟨p, hp⟩ := hbuf a List.mem_cons_self
      change Working d (buf' a)
      rw [hp]
      exact h

/-- The disk completes a command. -/
theorem Inv.complete {ok : Bool} {d : Disk} (h : Inv s l) (hd : s.disk.complete ok = some d) :
    Inv { s with disk := d } l := by
  obtain ⟨cmd, hactive, rfl⟩ := Option.map_eq_some_iff.mp hd
  cases l with
  | nil =>
      have hidle := h.busy.1
      simp [hactive] at hidle
  | cons b l =>
      refine ⟨h.chain, h.nodup, h.calls, h.asking, h.answered, ?_⟩
      rcases h.busy with ⟨hcmd, -⟩ | ⟨hidle, -⟩
      · obtain rfl : cmd = (s.buf b).command := Option.some.inj (hactive.symm.trans hcmd)
        refine Or.inr ⟨rfl, ok, rfl, fun hok hclean => ?_⟩
        have hclean' : (s.buf b).dirty = false := hclean
        have hwrite : (s.buf b).command.write = none := by simp [Buf.command, hclean']
        dsimp only
        rw [if_pos ⟨hok, hwrite⟩, hwrite]
        rfl
      · simp [hactive] at hidle

variable [DecidableEq ι]

/-- Letting the process of a call sleep, or waking it. -/
theorem Inv.setAsleep (h : Inv s l) (b : ι) (v : Bool) :
    Inv (s.setCall b ((s.call b).map fun c => { c with asleep := v })) l := by
  have hcall : ∀ x c, (s.setCall b ((s.call b).map fun c => { c with asleep := v })).call x =
      some c → ∃ c', s.call x = some c' ∧ c.result = c'.result ∧ c.reading = c'.reading ∧
        c.before = c'.before := by
    intro x c hc
    by_cases hx : x = b
    · subst hx
      obtain ⟨c', hc', rfl⟩ := Option.map_eq_some_iff.mp (by simpa [State.setCall] using hc)
      exact ⟨c', hc', rfl, rfl, rfl⟩
    · exact ⟨c, by simpa [State.setCall, hx] using hc, rfl, rfl, rfl⟩
  refine ⟨h.chain, h.nodup, ?_, ?_, ?_, h.busy⟩
  · intro x
    rw [h.calls x]
    constructor
    · rintro ⟨c, hc, hresult⟩
      by_cases hx : x = b
      · subst hx
        exact ⟨{ c with asleep := v }, by simp [State.setCall, hc], hresult⟩
      · exact ⟨c, by simpa [State.setCall, hx] using hc, hresult⟩
    · rintro ⟨c, hc, hresult⟩
      obtain ⟨c', hc', heq, -⟩ := hcall x c hc
      exact ⟨c', hc', heq ▸ hresult⟩
  · intro x c hc hresult
    obtain ⟨c', hc', hres, hreading, hbefore⟩ := hcall x c hc
    obtain ⟨hunserved, hr, hdata⟩ := h.asking x c' hc' (hres ▸ hresult)
    exact ⟨hunserved, hreading.trans hr, hdata.trans hbefore.symm⟩
  · intro x c r hc hresult
    obtain ⟨c', hc', hres, hreading, hbefore⟩ := hcall x c hc
    obtain ⟨hvalid, hclean, hdata⟩ := h.answered x c' r hc' (hres ▸ hresult)
    refine ⟨hvalid, hclean, fun hr => ?_⟩
    rw [hbefore]
    exact hdata (hreading ▸ hr)

/-- A call ends. -/
theorem Inv.endCall (h : Inv s l) (hb : b ∉ l) : Inv (s.setCall b none) l := by
  have hcall : ∀ x c, (s.setCall b none).call x = some c → s.call x = some c := by
    intro x c hc
    by_cases hx : x = b
    · subst hx
      simp [State.setCall] at hc
    · simpa [State.setCall, hx] using hc
  refine ⟨h.chain, h.nodup, ?_, fun x c hc => h.asking x c (hcall x c hc),
    fun x c r hc => h.answered x c r (hcall x c hc), h.busy⟩
  intro x
  rw [h.calls x]
  constructor
  · rintro ⟨c, hc, hresult⟩
    have hx : x ≠ b := by
      rintro rfl
      exact hb ((h.calls x).mpr ⟨c, hc, hresult⟩)
    exact ⟨c, by simpa [State.setCall, hx] using hc, hresult⟩
  · rintro ⟨c, hc, hresult⟩
    exact ⟨c, hcall x c hc, hresult⟩

/-- The loop at the end of `iderw`. -/
theorem Inv.wait (h : Inv s l) {c : Call} (hc : s.call b = some c) :
    Inv (s.wait b c).1 l ∧
      ((s.buf b).valid = true ∧ (s.buf b).dirty = false → (s.wait b c).2 = [.ret b]) ∧
      (¬((s.buf b).valid = true ∧ (s.buf b).dirty = false) → (s.wait b c).2 = []) := by
  unfold State.wait
  by_cases hdone : (s.buf b).valid = true ∧ (s.buf b).dirty = false
  · rw [if_pos hdone]
    have hnot : b ∉ l := by
      intro hmem
      obtain ⟨c', hc', hresult⟩ := (h.calls b).mp hmem
      exact (h.asking b c' hc' hresult).unserved hdone
    exact ⟨h.endCall hnot, fun _ => rfl, fun hno => absurd hdone hno⟩
  · rw [if_neg hdone]
    have hset := h.setAsleep b true
    rw [hc] at hset
    exact ⟨hset, fun hd => absurd hd hdone, fun _ => rfl⟩

/-! ## Requests arrive -/

/-- The queue after the insertion, in which nothing but links has changed. -/
structure Inserted (s t : State ι) (l : List ι) : Prop where
  chain : Linked.Chain (fun x => (t.buf x).qnext) t.idequeue l
  buf : ∀ x, ∃ p, t.buf x = { s.buf x with qnext := p }
  call : t.call = s.call
  disk : t.disk = s.disk

theorem setNext_buf (s : State ι) (b x : ι) (p : Option ι) :
    ∃ q, (s.setNext b p).buf x = { s.buf x with qnext := q } := by
  by_cases hx : x = b
  · subst hx
    exact ⟨p, by simp [State.setNext, State.setBuf]⟩
  · exact ⟨(s.buf x).qnext, by simp [State.setNext, State.setBuf, hx]⟩

theorem setNext_self (s : State ι) (b : ι) (p : Option ι) :
    ((s.setNext b p).buf b).qnext = p := by
  simp [State.setNext, State.setBuf]

theorem setNext_other (s : State ι) {b x : ι} (p : Option ι) (hx : x ≠ b) :
    (s.setNext b p).buf x = s.buf x := by
  simp [State.setNext, State.setBuf, hx]

theorem insert_spec [Fintype ι] (h : Inv s l) (hb : b ∉ l) :
    ∃ t, s.insert b = some t ∧ Inserted s t (l ++ [b]) := by
  rcases List.eq_nil_or_concat' l with rfl | ⟨init, a, rfl⟩
  · have hempty : (s.setNext b none).idequeue = none := h.chain
    refine ⟨{ s.setNext b none with idequeue := some b }, ?_,
      ⟨rfl, setNext_self s b none⟩, fun x => setNext_buf s b x none, rfl, rfl⟩
    rw [State.insert]
    dsimp only
    rw [hempty]
  · have hne : ∀ x ∈ init ++ [a], x ≠ b := by
      rintro x hx rfl
      exact hb hx
    have hchain : Linked.Chain (fun x => ((s.setNext b none).buf x).qnext) s.idequeue
        (init ++ [a]) := by
      refine h.chain.congr fun x hx => ?_
      rw [setNext_other s none (hne x hx)]
    obtain ⟨d, hd⟩ : ∃ d, (s.setNext b none).idequeue = some d := by
      cases hq : s.idequeue with
      | none =>
          have hhead := h.chain.head_eq
          rw [hq] at hhead
          cases init <;> simp at hhead
      | some d => exact ⟨d, hq⟩
    have hlen : init.length < Fintype.card ι := by
      have hle := h.nodup.length_le_card
      rw [List.length_append, List.length_singleton] at hle
      omega
    have hd' : s.idequeue = some d := hd
    rw [hd'] at hchain
    have hlast := hchain.last_eq hlen
    have hab : a ≠ b := hne a (by simp)
    refine ⟨(s.setNext b none).setNext a (some b), ?_, ?_, ?_, rfl, rfl⟩
    · rw [State.insert, hd]
      dsimp only
      rw [hlast]
      rfl
    · have hqueue : ((s.setNext b none).setNext a (some b)).idequeue = some d := hd
      rw [hqueue]
      refine hchain.snoc (fun x hx => ?_) (setNext_self _ a _) ?_
      · have hxa : x ≠ a := by
          rintro rfl
          have hdisjoint := (List.nodup_append.mp h.nodup).2.2
          exact hdisjoint x hx x (by simp) rfl
        rw [setNext_other _ _ hxa]
      · rw [setNext_other _ _ hab.symm]
        exact setNext_self s b none
    · intro x
      obtain ⟨q, hq⟩ := setNext_buf s b x none
      obtain ⟨r, hr⟩ := setNext_buf (s.setNext b none) a x (some b)
      exact ⟨r, by rw [hr, hq]⟩

/-- A request that has been put into the queue. -/
theorem Inv.arrive (h : Inv s l) (hcall : s.call b = none) (ht : Inserted s t (l ++ [b]))
    (hunserved : ¬((s.buf b).valid = true ∧ (s.buf b).dirty = false)) {d : Disk} {c : Call}
    (hbusy : Busy d t.buf (l ++ [b])) (hresult : c.result = none)
    (hreading : c.reading = !(s.buf b).dirty) (hbefore : (s.buf b).data = c.before) :
    Inv ({ t with disk := d }.setCall b (some c)) (l ++ [b]) := by
  have hb := h.not_mem hcall
  have hself : ({ t with disk := d }.setCall b (some c)).call b = some c := by
    simp [State.setCall]
  have hother : ∀ x ≠ b, ({ t with disk := d }.setCall b (some c)).call x = s.call x := by
    intro x hx
    simp [State.setCall, hx, ht.call]
  refine ⟨ht.chain, ?_, ?_, ?_, ?_, hbusy⟩
  · rw [List.nodup_append]
    refine ⟨h.nodup, List.nodup_singleton b, ?_⟩
    rintro x hx y hy rfl
    exact hb (List.mem_singleton.mp hy ▸ hx)
  · intro x
    by_cases hx : x = b
    · subst hx
      exact iff_of_true (by simp) ⟨c, hself, hresult⟩
    · rw [hother x hx, ← h.calls x]
      simp [hx]
  · intro x c' hc' hresult'
    obtain ⟨q, hq⟩ := ht.buf x
    change Asking (t.buf x) c'
    rw [hq]
    by_cases hx : x = b
    · subst hx
      obtain rfl : c = c' := Option.some.inj (hself.symm.trans hc')
      exact ⟨hunserved, hreading, hbefore⟩
    · obtain ⟨hu, hr, hdata⟩ := h.asking x c' (hother x hx ▸ hc') hresult'
      exact ⟨hu, hr, hdata⟩
  · intro x c' r hc' hresult'
    obtain ⟨q, hq⟩ := ht.buf x
    change Answered (t.buf x) c' r
    rw [hq]
    by_cases hx : x = b
    · subst hx
      obtain rfl : c = c' := Option.some.inj (hself.symm.trans hc')
      simp [hresult] at hresult'
    · obtain ⟨hvalid, hclean, hdata⟩ := h.answered x c' r (hother x hx ▸ hc') hresult'
      exact ⟨hvalid, hclean, hdata⟩

theorem wait_unserved {c : Call}
    (h : ¬((s.buf b).valid = true ∧ (s.buf b).dirty = false)) :
    s.wait b c = (s.setCall b (some { c with asleep := true }), []) :=
  if_neg h

/-- What a step is to do to the queue `l`. -/
def Advances (s' : State ι) (l : List ι) (es : List (Event ι)) : Prop :=
  Inv s' (es.foldl Event.queue l) ∧
    es.foldl Event.work l.head?.toList = (es.foldl Event.queue l).head?.toList

theorem Inv.iderw [Fintype ι] {es : List (Event ι)} (h : Inv s l)
    (hstep : s.iderw b = some (s', es)) : Advances s' l es ∧ ∀ x, .ret x ∉ es := by
  unfold State.iderw at hstep
  obtain ⟨⟨hcall, -, hunserved, -⟩, hstep⟩ := Option.ite_none_right_eq_some.mp hstep
  have hb := h.not_mem hcall
  obtain ⟨t, hinsert, ht⟩ := insert_spec h hb
  obtain ⟨q, hq⟩ := ht.buf b
  have hunserved' : ¬((t.buf b).valid = true ∧ (t.buf b).dirty = false) := by
    rw [hq]
    exact hunserved
  rw [hinsert] at hstep
  dsimp only at hstep
  cases l with
  | nil =>
      have hhead : t.idequeue = some b := ht.chain.head_eq
      have hidle : t.disk.active.isNone = true := by
        rw [ht.disk, h.busy.1]
        rfl
      rw [if_pos hhead, State.idestart, if_pos hidle] at hstep
      obtain ⟨rfl, rfl⟩ := Prod.mk.inj (Option.some.inj hstep)
      rw [wait_unserved
        (s := { t with disk := { t.disk with active := some (t.buf b).command } }) hunserved']
      refine ⟨⟨?_, ?_⟩, by simp⟩
      · have hbusy : Busy { t.disk with active := some (t.buf b).command } t.buf [b] := by
          refine Or.inl ⟨rfl, ?_⟩
          change t.disk.pending = none
          rw [ht.disk]
          exact h.busy.2
        exact h.arrive hcall ht hunserved hbusy rfl rfl rfl
      · simp [Event.work, Event.queue]
  | cons a l =>
      have hhead : t.idequeue ≠ some b := by
        rw [ht.chain.head_eq]
        rintro heq
        exact hb (by simp [Option.some.inj heq])
      rw [if_neg hhead] at hstep
      obtain ⟨rfl, rfl⟩ := Prod.mk.inj (Option.some.inj hstep)
      rw [wait_unserved hunserved']
      refine ⟨⟨?_, ?_⟩, by simp⟩
      · have hbusy : Busy t.disk t.buf (a :: l ++ [b]) := by
          rw [ht.disk]
          exact Busy.congr (l := a :: l ++ [b]) h.busy fun x _ => ht.buf x
        exact h.arrive hcall ht hunserved hbusy rfl rfl rfl
      · simp [Event.work, Event.queue]

/-! ## Commands end -/

/-- The queue after the end of the command of its head. -/
theorem Inv.finish {ok : Bool} (h : Inv s (b :: l))
    (hout : ok = true → (s.buf b).dirty = false → s.disk.out = s.disk.content (s.buf b).place)
    {d : Disk} (hbusy : Busy d (s.finish b ok).buf l) :
    Inv { s.finish b ok with disk := d } l := by
  obtain ⟨hb, hnodup⟩ := List.nodup_cons.mp h.nodup
  obtain ⟨c, hc, hresult⟩ := (h.calls b).mp List.mem_cons_self
  have hasking := h.asking b c hc hresult
  have hbufb : (s.finish b ok).buf b =
      { s.buf b with
        data := if (s.buf b).dirty = false ∧ ok = true then s.disk.out else (s.buf b).data
        valid := true
        dirty := false } := by
    simp [State.finish, State.wake, State.setCall, State.setBuf]
  have hbuf : ∀ x ≠ b, (s.finish b ok).buf x = s.buf x := by
    intro x hx
    simp [State.finish, State.wake, State.setCall, State.setBuf, hx]
  have hcall : ∀ x ≠ b, (s.finish b ok).call x = s.call x := by
    intro x hx
    simp [State.finish, State.wake, State.setCall, State.setBuf, hx]
  have hself : (s.finish b ok).call b =
      some { c with
        asleep := false
        result := some ⟨ok, s.disk.content (s.buf b).place⟩ } := by
    simp [State.finish, State.wake, State.setCall, State.setBuf, hc]
  refine ⟨?_, hnodup, ?_, ?_, ?_, hbusy⟩
  · have hlink : (s.finish b ok).idequeue = (s.buf b).qnext := rfl
    change Linked.Chain (fun x => ((s.finish b ok).buf x).qnext) (s.finish b ok).idequeue l
    rw [hlink]
    refine h.chain.2.congr fun x hx => ?_
    rw [hbuf x (by rintro rfl; exact hb hx)]
  · intro x
    by_cases hx : x = b
    · subst hx
      refine iff_of_false hb ?_
      rintro ⟨c', hc', hnone⟩
      obtain rfl := Option.some.inj (hself.symm.trans hc')
      cases hnone
    · have hmem : x ∈ l ↔ x ∈ b :: l := by simp [hx]
      rw [hmem, h.calls x]
      change _ ↔ ∃ c, (s.finish b ok).call x = some c ∧ c.result = none
      rw [hcall x hx]
  · intro x c' hc' hnone
    have hx : x ≠ b := by
      rintro rfl
      obtain rfl := Option.some.inj (hself.symm.trans hc')
      cases hnone
    change Asking ((s.finish b ok).buf x) c'
    rw [hbuf x hx]
    exact h.asking x c' ((hcall x hx).symm.trans hc') hnone
  · intro x c' r hc' hres
    change Answered ((s.finish b ok).buf x) c' r
    by_cases hx : x = b
    · subst hx
      obtain rfl := Option.some.inj (hself.symm.trans hc')
      obtain rfl := Option.some.inj hres
      rw [hbufb]
      refine ⟨rfl, rfl, fun hreading => ?_⟩
      have hclean : (s.buf x).dirty = false := by
        have hboth : c.reading = !(s.buf x).dirty := hasking.reading
        simpa [show c.reading = true from hreading] using hboth
      cases ok with
      | false =>
          dsimp only
          rw [if_neg (by simp), if_neg (by simp)]
          exact hasking.data
      | true =>
          dsimp only
          rw [if_pos ⟨hclean, rfl⟩, if_pos rfl]
          exact hout rfl hclean
    · rw [hbuf x hx]
      exact h.answered x c' r ((hcall x hx).symm.trans hc') hres

/-- `ideintr` for the last buffer of the queue. -/
theorem ideintr_last {ok : Bool} (hhead : s.idequeue = some b)
    (hnext : (s.finish b ok).idequeue = none) :
    s.ideintr ok = some (s.finish b ok, [.done b]) := by
  rw [State.ideintr, hhead]
  dsimp only
  rw [hnext]

/-- `ideintr` with another buffer in the queue. -/
theorem ideintr_next {ok : Bool} {a : ι} (hhead : s.idequeue = some b)
    (hnext : (s.finish b ok).idequeue = some a) :
    s.ideintr ok = ((s.finish b ok).idestart a).map fun t => (t, [.done b, .start a]) := by
  rw [State.ideintr, hhead]
  dsimp only
  rw [hnext]

/-- An interrupt at the end of a command. -/
theorem Inv.ideintr {ok : Bool} {es : List (Event ι)} (h : Inv s (b :: l))
    (hactive : s.disk.active = none)
    (hout : ok = true → (s.buf b).dirty = false → s.disk.out = s.disk.content (s.buf b).place)
    (hstep : { s with disk := { s.disk with pending := none } }.ideintr ok = some (s', es)) :
    Advances s' (b :: l) es := by
  have hhead : State.idequeue { s with disk := { s.disk with pending := none } } = some b :=
    h.chain.1
  have hnext : (State.finish { s with disk := { s.disk with pending := none } } b ok).idequeue =
      l.head? := h.chain.2.head_eq
  cases l with
  | nil =>
      rw [ideintr_last hhead hnext] at hstep
      obtain ⟨rfl, rfl⟩ := Prod.mk.inj (Option.some.inj hstep)
      refine ⟨?_, by simp [Event.work, Event.queue]⟩
      have hqueue : [Event.done b].foldl Event.queue [b] = [] := by simp [Event.queue]
      rw [hqueue]
      exact h.finish hout ⟨hactive, rfl⟩
  | cons a l =>
      have hidle : s.disk.active.isNone = true := by
        rw [hactive]
        rfl
      have hidle' : (State.finish { s with disk := { s.disk with pending := none } } b
          ok).disk.active.isNone = true := hidle
      rw [ideintr_next hhead hnext, State.idestart, if_pos hidle'] at hstep
      obtain ⟨rfl, rfl⟩ := Prod.mk.inj (Option.some.inj hstep)
      refine ⟨?_, by simp [Event.work, Event.queue]⟩
      have hqueue : [Event.done b, Event.start a].foldl Event.queue (b :: a :: l) = a :: l := by
        simp [Event.queue]
      rw [hqueue]
      exact h.finish hout (Or.inl ⟨rfl, rfl⟩)

/-- The holder of a buffer changes it. -/
theorem Inv.edit (h : Inv s l) (hcall : s.call b = none) (x : Buf ι) :
    Inv (s.setBuf b { x with qnext := (s.buf b).qnext }) l := by
  have hb := h.not_mem hcall
  have hbuf : ∀ y ≠ b, (s.setBuf b { x with qnext := (s.buf b).qnext }).buf y = s.buf y := by
    intro y hy
    simp [State.setBuf, hy]
  have hne : ∀ y c, s.call y = some c → y ≠ b := by
    rintro y c hc rfl
    simp [hcall] at hc
  refine ⟨?_, h.nodup, h.calls, ?_, ?_, ?_⟩
  · refine h.chain.congr fun y hy => ?_
    rw [hbuf y (by rintro rfl; exact hb hy)]
  · intro y c hc hresult
    rw [hbuf y (hne y c hc)]
    exact h.asking y c hc hresult
  · intro y c r hc hresult
    rw [hbuf y (hne y c hc)]
    exact h.answered y c r hc hresult
  · refine Busy.congr h.busy fun y hy => ⟨(s.buf y).qnext, ?_⟩
    rw [hbuf y (by rintro rfl; exact hb hy)]

/-- Every step. -/
theorem Inv.step [Fintype ι] {a : Action ι} {es : List (Event ι)} (h : Inv s l)
    (hstep : s.step a = some (s', es)) : Advances s' l es := by
  cases a with
  | iderw b => exact (h.iderw hstep).1
  | resume b =>
      cases hc : s.call b with
      | none => simp [State.step, hc] at hstep
      | some c =>
          cases hasleep : c.asleep with
          | true => simp [State.step, hc, hasleep] at hstep
          | false =>
              have hwait : s.wait b c = (s', es) := by simpa [State.step, hc, hasleep] using hstep
              obtain ⟨hinv, hret, hsleep⟩ := h.wait hc
              rw [hwait] at hinv hret hsleep
              by_cases hdone : (s.buf b).valid = true ∧ (s.buf b).dirty = false
              · obtain rfl : es = [.ret b] := hret hdone
                exact ⟨hinv, rfl⟩
              · obtain rfl : es = [] := hsleep hdone
                exact ⟨hinv, rfl⟩
  | kill b =>
      obtain ⟨rfl, rfl⟩ := Prod.mk.inj (Option.some.inj hstep)
      exact ⟨h.setAsleep b false, rfl⟩
  | edit b x =>
      obtain ⟨hcall, hres⟩ := Option.ite_none_right_eq_some.mp hstep
      obtain ⟨rfl, rfl⟩ := Prod.mk.inj (Option.some.inj hres)
      exact ⟨h.edit hcall x, rfl⟩
  | complete ok =>
      obtain ⟨d, hd, hres⟩ := Option.map_eq_some_iff.mp hstep
      obtain ⟨rfl, rfl⟩ := Prod.mk.inj hres
      exact ⟨h.complete hd, rfl⟩
  | intr =>
      unfold State.step at hstep
      cases hpending : s.disk.pending with
      | none =>
          rw [hpending] at hstep
          obtain ⟨hempty, hres⟩ := Option.ite_none_right_eq_some.mp hstep
          rw [State.ideintr, hempty] at hres
          obtain ⟨rfl, rfl⟩ := Prod.mk.inj (Option.some.inj hres)
          exact ⟨h, rfl⟩
      | some ok =>
          rw [hpending] at hstep
          cases l with
          | nil =>
              have hnone := h.busy.2
              simp [hpending] at hnone
          | cons b l =>
              rcases h.busy with ⟨-, hnone⟩ | ⟨hactive, ok', hok', hout⟩
              · simp [hpending] at hnone
              · obtain rfl : ok = ok' := Option.some.inj (hpending.symm.trans hok')
                exact h.ideintr hactive hout hstep

/-! ## Runs -/

/-- In every state that is reached, the requests wait that have been put into the queue and
not completed. -/
theorem run_inv [Fintype ι] {s₀ : State ι} {es : List (List (Event ι))} (h₀ : Quiet s₀)
    (hrun : Run Step (fun _ => True) s₀ es s) :
    Inv s (waiting es.flatten) ∧ started es.flatten = (waiting es.flatten).head?.toList := by
  refine hrun.history (J := fun gs x => Inv x (waiting gs.flatten) ∧
    started gs.flatten = (waiting gs.flatten).head?.toList) ?_ ⟨h₀.inv, rfl⟩
  rintro gs x e y - - ⟨hinv, hstarted⟩ ⟨a, hstep⟩
  obtain ⟨hinv', hstarted'⟩ := hinv.step hstep
  have hflat : (gs ++ [e]).flatten = gs.flatten ++ e := by simp
  rw [hflat, waiting, started, List.foldl_append, List.foldl_append]
  change Inv y (e.foldl Event.queue (waiting gs.flatten)) ∧
    e.foldl Event.work (started gs.flatten) = _
  rw [hstarted]
  exact ⟨hinv', hstarted'⟩

theorem ideintr_events {ok : Bool} {e : List (Event ι)}
    (hstep : s.ideintr ok = some (s', e)) : .ret b ∉ e := by
  unfold State.ideintr at hstep
  split at hstep
  · obtain ⟨rfl, rfl⟩ := Prod.mk.inj (Option.some.inj hstep)
    simp
  · split at hstep
    · obtain ⟨rfl, rfl⟩ := Prod.mk.inj (Option.some.inj hstep)
      simp
    · obtain ⟨t, -, ht⟩ := Option.map_eq_some_iff.mp hstep
      obtain ⟨rfl, rfl⟩ := Prod.mk.inj ht
      simp

/-- A call returns when its process has been woken and finds the flags right. -/
theorem Inv.ret [Fintype ι] {a : Action ι} {e : List (Event ι)} (h : Inv s l)
    (hstep : s.step a = some (s', e)) (hret : .ret b ∈ e) :
    ∃ c, s.call b = some c ∧ (s.buf b).valid = true ∧ (s.buf b).dirty = false ∧
      s'.buf = s.buf := by
  cases a with
  | iderw x => exact absurd hret ((h.iderw hstep).2 b)
  | resume x =>
      cases hc : s.call x with
      | none => simp [State.step, hc] at hstep
      | some c =>
          cases hasleep : c.asleep with
          | true => simp [State.step, hc, hasleep] at hstep
          | false =>
              have hwait : s.wait x c = (s', e) := by simpa [State.step, hc, hasleep] using hstep
              unfold State.wait at hwait
              split at hwait
              · next hdone =>
                obtain ⟨rfl, rfl⟩ := Prod.mk.inj hwait
                obtain rfl : b = x := by simpa using hret
                exact ⟨c, hc, hdone.1, hdone.2, rfl⟩
              · obtain ⟨rfl, rfl⟩ := Prod.mk.inj hwait
                simp at hret
  | kill x =>
      obtain ⟨rfl, rfl⟩ := Prod.mk.inj (Option.some.inj hstep)
      simp at hret
  | edit x y =>
      obtain ⟨-, hres⟩ := Option.ite_none_right_eq_some.mp hstep
      obtain ⟨rfl, rfl⟩ := Prod.mk.inj (Option.some.inj hres)
      simp at hret
  | complete ok =>
      obtain ⟨d, -, hres⟩ := Option.map_eq_some_iff.mp hstep
      obtain ⟨rfl, rfl⟩ := Prod.mk.inj hres
      simp at hret
  | intr =>
      unfold State.step at hstep
      cases hpending : s.disk.pending with
      | none =>
          rw [hpending] at hstep
          obtain ⟨-, hres⟩ := Option.ite_none_right_eq_some.mp hstep
          exact absurd hret (ideintr_events hres)
      | some ok =>
          rw [hpending] at hstep
          exact absurd hret (ideintr_events hstep)

/-- What the caller of `iderw(b)` may expect when it returns: its own command has completed,
and if that was a read, the buffer has what the sector held then. -/
def Served (s s' : State ι) (b : ι) : Prop :=
  ∃ c r, s.call b = some c ∧ c.result = some r ∧ (s'.buf b).valid = true ∧
    (s'.buf b).dirty = false ∧ (c.reading = true → (s'.buf b).data = r.content)

/-- The command of `b` was not a read that failed, unless the buffer had the content of the
sector anyway. -/
def Readable (s : State ι) (b : ι) : Prop :=
  ∀ c r, s.call b = some c → c.result = some r → c.reading = true →
    r.ok = true ∨ c.before = r.content

/-- Whatever requests and interrupts do in which order: the queue is a list without
repetition of the buffers whose `iderw` has put them there and whose command has not
completed, in the order of their arrival, and a command has been started for the head of
it only.  An `iderw` returns as it should exactly if the disk could read the sector. -/
theorem idequeue_in_order [Fintype ι] {s₀ : State ι} {es : List (List (Event ι))} (h₀ : Quiet s₀)
    (hrun : Run Step (fun _ => True) s₀ es s) :
    Linked.Chain (fun b => (s.buf b).qnext) s.idequeue (waiting es.flatten) ∧
      (waiting es.flatten).Nodup ∧
      started es.flatten = (waiting es.flatten).head?.toList ∧
      ∀ a s' e b, s.step a = some (s', e) → Event.ret b ∈ e →
        b ∉ waiting es.flatten ∧ (Served s s' b ↔ Readable s b) := by
  obtain ⟨hinv, hstarted⟩ := run_inv h₀ hrun
  refine ⟨hinv.chain, hinv.nodup, hstarted, ?_⟩
  intro a s' e b hstep hret
  obtain ⟨c, hc, hvalid, hclean, hbuf⟩ := hinv.ret hstep hret
  obtain ⟨r, hr⟩ : ∃ r, c.result = some r := by
    cases hresult : c.result with
    | none => exact absurd ⟨hvalid, hclean⟩ (hinv.asking b c hc hresult).unserved
    | some r => exact ⟨r, rfl⟩
  have hanswered := hinv.answered b c r hc hr
  constructor
  · intro hmem
    obtain ⟨c', hc', hnone⟩ := (hinv.calls b).mp hmem
    obtain rfl := Option.some.inj (hc.symm.trans hc')
    simp [hr] at hnone
  · constructor
    · rintro ⟨c₁, r₁, hc₁, hr₁, -, -, hdata⟩ c₂ r₂ hc₂ hr₂ hreading
      obtain rfl := Option.some.inj (hc₁.symm.trans hc₂)
      obtain rfl := Option.some.inj (hr₁.symm.trans hr₂)
      obtain rfl := Option.some.inj (hc.symm.trans hc₁)
      obtain rfl := Option.some.inj (hr.symm.trans hr₁)
      have hgot := hdata hreading
      rw [hbuf, hanswered.data hreading] at hgot
      cases hok : r.ok with
      | true => exact Or.inl rfl
      | false =>
          rw [hok, if_neg (by decide)] at hgot
          exact Or.inr hgot
    · intro hreadable
      refine ⟨c, r, hc, hr, ?_, ?_, fun hreading => ?_⟩
      · rw [hbuf]
        exact hvalid
      · rw [hbuf]
        exact hclean
      · rw [hbuf, hanswered.data hreading]
        rcases hreadable c r hc hr hreading with hok | hsame
        · rw [if_pos hok]
        · rw [hsame, ite_self]

end Steps

/-- A buffer that is to be read, one that is to be written, and a disk full of ones. -/
def twoBufs : State (Fin 2) where
  buf := fun b =>
    if b.val = 0 then ⟨true, false, false, 0, 0, none, fun _ => 0⟩
    else ⟨true, false, true, 0, 1, none, fun _ => 2⟩
  idequeue := none
  call := fun _ => none
  havedisk1 := false
  disk := ⟨fun _ _ => 1, none, none, fun _ => 0⟩

theorem twoBufs_quiet : Quiet twoBufs :=
  ⟨rfl, fun _ => rfl, rfl, rfl⟩

/-- The second request waits until the first one is done, which returns while the second one
is under way. -/
theorem exists_two_requests :
    ∃ s₁ s s' : State (Fin 2),
      Run Step (fun _ => True) twoBufs [[.call 0, .start 0], [.call 1]] s₁ ∧
        Run Step (fun _ => True) s₁ [[], [.done 0, .start 1]] s ∧
        s.step (.resume 0) = some (s', [.ret 0]) ∧
        ∃ c r, s.call 0 = some c ∧ c.result = some r ∧ r.ok = true :=
  ⟨_, _, _, .snoc (.single trivial ⟨.iderw 0, rfl⟩ trivial) ⟨.iderw 1, rfl⟩ trivial,
    .snoc (.single trivial ⟨.complete true, rfl⟩ trivial) ⟨.intr, rfl⟩ trivial, rfl,
    _, _, rfl, rfl, rfl⟩

theorem idequeue_in_order_read :
    ∃ s₁ s s' : State (Fin 2),
      Run Step (fun _ => True) twoBufs [[.call 0, .start 0], [.call 1]] s₁ ∧
        Linked.Chain (fun b => (s₁.buf b).qnext) s₁.idequeue [0, 1] ∧
        Run Step (fun _ => True) s₁ [[], [.done 0, .start 1]] s ∧
        Linked.Chain (fun b => (s.buf b).qnext) s.idequeue [1] ∧
        s.step (.resume 0) = some (s', [.ret 0]) ∧ Served s s' 0 := by
  obtain ⟨s₁, s, s', hrun₁, hrun, hstep, c, r, hc, hr, hok⟩ := exists_two_requests
  obtain ⟨hchain₁, -⟩ := idequeue_in_order twoBufs_quiet hrun₁
  obtain ⟨hchain, -, -, hret⟩ := idequeue_in_order twoBufs_quiet (hrun₁.append hrun)
  refine ⟨s₁, s, s', hrun₁, hchain₁, hrun, hchain, hstep, (hret _ _ _ 0 hstep (by simp)).2.mpr ?_⟩
  intro c' r' hc' hr' _
  obtain rfl := Option.some.inj (hc.symm.trans hc')
  obtain rfl := Option.some.inj (hr.symm.trans hr')
  exact Or.inl hok

/-- One buffer that is to be read, and a disk full of ones. -/
def oneBuf : State (Fin 1) where
  buf := fun _ => ⟨true, false, false, 0, 0, none, fun _ => 0⟩
  idequeue := none
  call := fun _ => none
  havedisk1 := false
  disk := ⟨fun _ _ => 1, none, none, fun _ => 0⟩

theorem oneBuf_quiet : Quiet oneBuf :=
  ⟨rfl, fun _ => rfl, rfl, rfl⟩

/-- The buffer is read, but the status of the disk shows an error. -/
theorem exists_failed_read :
    ∃ s s' : State (Fin 1),
      Run Step (fun _ => True) oneBuf [[.call 0, .start 0], [], [.done 0]] s ∧
        s.step (.resume 0) = some (s', [.ret 0]) ∧
        ∃ c r, s.call 0 = some c ∧ c.reading = true ∧ c.before = (fun _ => 0) ∧
          c.result = some r ∧ r.ok = false ∧ r.content = fun _ => 1 :=
  ⟨_, _, .snoc (.snoc (.single trivial ⟨.iderw 0, rfl⟩ trivial) ⟨.complete false, rfl⟩ trivial)
    ⟨.intr, rfl⟩ trivial, rfl, _, _, rfl, rfl, rfl, rfl, rfl, rfl⟩

/-- A buffer counts as read after an error, but its data is not that of the sector. -/
theorem iderw_read_error :
    ¬∀ (s₀ s s' : State (Fin 1)) (es : List (List (Event (Fin 1)))) (a : Action (Fin 1))
      (e : List (Event (Fin 1))) (b : Fin 1), Quiet s₀ → Run Step (fun _ => True) s₀ es s →
      s.step a = some (s', e) → Event.ret b ∈ e → Served s s' b := by
  intro hclaim
  obtain ⟨s, s', hrun, hstep, c, r, hc, hreading, hbefore, hr, hok, hcontent⟩ := exists_failed_read
  have hserved := hclaim oneBuf s s' _ _ _ 0 oneBuf_quiet hrun hstep (by simp)
  obtain ⟨hinv, -⟩ := run_inv oneBuf_quiet hrun
  obtain ⟨c', hc', -, -, hbuf⟩ := hinv.ret hstep (b := 0) (by simp)
  obtain ⟨c₁, r₁, hc₁, hr₁, -, -, hdata⟩ := hserved
  obtain rfl := Option.some.inj (hc.symm.trans hc₁)
  obtain rfl := Option.some.inj (hr.symm.trans hr₁)
  have hgot := hdata hreading
  rw [hbuf, (hinv.answered 0 c r hc hr).data hreading, hok, if_neg (by decide), hbefore,
    hcontent] at hgot
  exact absurd (congrFun hgot 0) (by decide)

end Ide

end Xv6
