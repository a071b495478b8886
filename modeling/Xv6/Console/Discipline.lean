import Xv6.Console.Input

/-!
# The line discipline

What the input of the console is for: a queue of committed bytes and a line that is still
being edited, with room for 128 bytes together.  A character is added to the line, or it
edits the line; the line is committed by a line feed, by an end of file, or when there is
no more room.  Readers take bytes from the front of the queue.

The buffer of `console.c` with its three indices refines this model, for every sequence of
characters and reads.
-/

namespace Xv6

namespace Console

open Support

/-! ## Simulations -/

section Simulation

variable {σ τ : Type} {T : Terminal σ} {T' : Terminal τ} {R : σ → τ → Prop}

/-- Two stretches of `consoleread` do the same, and lead to related inputs. -/
structure SameReading (R : σ → τ → Prop) (a : Reading σ) (b : Reading τ) : Prop where
  input : R a.input b.input
  out : a.out = b.out
  eof : a.eof = b.eof
  outcome : a.outcome = b.outcome

/-- The operations of `T'` do what those of `T` do. -/
structure Simulates (T : Terminal σ) (T' : Terminal τ) (R : σ → τ → Prop) : Prop where
  intr : ∀ c i j, R i j →
    R (T.intr c i).1 (T'.intr c j).1 ∧ (T.intr c i).2 = (T'.intr c j).2
  read : ∀ killed target n i j, R i j → n ≤ target →
    SameReading R (T.read killed target n i) (T'.read killed target n j)
  left : ∀ killed target n i m, (T.read killed target n i).outcome = .asleep m → m ≤ n

/-- Two systems with the same processes and related inputs. -/
structure Alike (R : σ → τ → Prop) (s : System σ) (t : System τ) : Prop where
  input : R s.input t.input
  reader : s.reader = t.reader
  killed : s.killed = t.killed
  bound : ∀ p rd, s.reader p = some rd → rd.n ≤ rd.target

variable {s s' : System σ} {t : System τ}

theorem Alike.wakeup (h : Alike R s t) : Alike R s.wakeup t.wakeup := by
  refine ⟨h.input, ?_, h.killed, ?_⟩
  · unfold System.wakeup
    rw [h.reader]
  · intro p rd hrd
    obtain ⟨rd', hrd', rfl⟩ := Option.map_eq_some_iff.mp hrd
    exact h.bound p rd' hrd'

theorem Simulates.type (hT : Simulates T T' R) (h : Alike R s t) (c : UInt8) :
    Alike R (s.type T c) (t.type T' c) := by
  obtain ⟨hinput, hwake⟩ := hT.intr c s.input t.input h.input
  have hnext : Alike R { s with input := (T.intr c s.input).1 }
      { t with input := (T'.intr c t.input).1 } :=
    ⟨hinput, h.reader, h.killed, h.bound⟩
  unfold System.type
  rw [hwake]
  split
  · exact hnext.wakeup
  · exact hnext

theorem Simulates.consoleintr (hT : Simulates T T' R) (h : Alike R s t) (cs : List UInt8) :
    Alike R (s.consoleintr T cs) (t.consoleintr T' cs) := by
  induction cs generalizing s t with
  | nil => exact h
  | cons c cs ih => exact ih (hT.type h c)

/-- A process changes its own reader only. -/
theorem Alike.update (h : Alike R s t) {i : σ} {j : τ} (hij : R i j) (p : ℕ)
    {rd : Option Reader} (hrd : ∀ x, rd = some x → x.n ≤ x.target) :
    Alike R { s with input := i, reader := Function.update s.reader p rd }
      { t with input := j, reader := Function.update t.reader p rd } := by
  refine ⟨hij, ?_, h.killed, ?_⟩
  · change Function.update s.reader p rd = Function.update t.reader p rd
    rw [h.reader]
  · intro q x hx
    by_cases hq : q = p
    · subst hq
      exact hrd x (by simpa using hx)
    · exact h.bound q x (by simpa [hq] using hx)

theorem Alike.conclude (h : Alike R s t) (p : ℕ) {target : ℕ} {a : Reading σ} {b : Reading τ}
    (hab : SameReading R a b) (hleft : ∀ m, a.outcome = .asleep m → m ≤ target) :
    Alike R (s.conclude p target a).1 (t.conclude p target b).1 ∧
      (s.conclude p target a).2 = (t.conclude p target b).2 := by
  unfold System.conclude
  rw [← hab.out, ← hab.eof, ← hab.outcome]
  cases houtcome : a.outcome with
  | killed => exact ⟨h.update hab.input p (by simp), rfl⟩
  | asleep m =>
      refine ⟨h.update hab.input p ?_, rfl⟩
      rintro x hx
      obtain rfl : (⟨target, m, true⟩ : Reader) = x := Option.some.inj hx
      exact hleft m houtcome
  | done m => exact ⟨h.update hab.input p (by simp), rfl⟩

theorem Simulates.proceed (hT : Simulates T T' R) (h : Alike R s t) (p : ℕ) {target n : ℕ}
    (hn : n ≤ target) :
    Alike R (s.proceed T p target n).1 (t.proceed T' p target n).1 ∧
      (s.proceed T p target n).2 = (t.proceed T' p target n).2 := by
  have hread := hT.read (s.killed p) target n s.input t.input h.input hn
  unfold System.proceed
  rw [← h.killed]
  exact h.conclude p hread fun m hm => (hT.left _ _ _ _ m hm).trans hn

theorem Simulates.step (hT : Simulates T T' R) (h : Alike R s t) {e : Action × Effect}
    (hstep : Step T s e s') : ∃ t', Step T' t e t' ∧ Alike R s' t' := by
  obtain ⟨a, o⟩ := e
  unfold Step System.step at hstep ⊢
  cases a with
  | intr cs =>
      obtain ⟨rfl, rfl⟩ := Prod.mk.inj (Option.some.inj hstep)
      exact ⟨_, rfl, hT.consoleintr h cs⟩
  | read p n =>
      obtain ⟨hfree, hres⟩ := Option.ite_none_right_eq_some.mp hstep
      obtain ⟨halike, heffect⟩ := hT.proceed h p (le_refl n.toNat)
      refine ⟨(t.proceed T' p n.toNat n.toNat).1, ?_, ?_⟩
      · rw [h.reader] at hfree
        have ho : (t.proceed T' p n.toNat n.toNat).2 = o := by
          rw [← heffect, Option.some.inj hres]
        rw [← ho]
        exact if_pos hfree
      · rwa [Option.some.inj hres] at halike
  | resume p =>
      cases hrd : s.reader p with
      | none => simp [hrd] at hstep
      | some rd =>
          obtain ⟨target, n, asleep⟩ := rd
          cases asleep with
          | true => simp [hrd] at hstep
          | false =>
              have hn : n ≤ target := h.bound p _ hrd
              obtain ⟨halike, heffect⟩ := hT.proceed h p hn
              have hres : s.proceed T p target n = (s', o) := by simpa [hrd] using hstep
              have hrd' : t.reader p = some ⟨target, n, false⟩ := by rw [← h.reader, hrd]
              refine ⟨(t.proceed T' p target n).1, ?_, ?_⟩
              · have ho : (t.proceed T' p target n).2 = o := by rw [← heffect, hres]
                rw [← ho]
                simp only [hrd']
              · rwa [hres] at halike
  | kill p =>
      obtain ⟨rfl, rfl⟩ := Prod.mk.inj (Option.some.inj hstep)
      refine ⟨_, rfl, ?_⟩
      rw [← h.reader, ← h.killed]
      refine ⟨h.input, rfl, rfl, ?_⟩
      intro q x hx
      by_cases hq : q = p
      · subst hq
        obtain ⟨rd, hrd, rfl⟩ := Option.map_eq_some_iff.mp (by simpa using hx)
        exact h.bound q rd hrd
      · exact h.bound q x (by simpa [hq] using hx)

/-- Every run of the one system is a run of the other. -/
theorem Simulates.run (hT : Simulates T T' R) (h : Alike R s t) {es : List (Action × Effect)}
    (hrun : Run (Step T) (fun _ => True) s es s') :
    ∃ t', Run (Step T') (fun _ => True) t es t' ∧ Alike R s' t' := by
  refine hrun.history
    (J := fun gs x => ∃ y, Run (Step T') (fun _ => True) t gs y ∧ Alike R x y) ?_
    ⟨t, .nil trivial, h⟩
  rintro gs x e x' - - ⟨y, hy, hxy⟩ hstep
  obtain ⟨y', hstep', halike⟩ := hT.step hxy hstep
  exact ⟨y', hy.snoc hstep' trivial, halike⟩

end Simulation

/-! ## The model -/

/-- The committed bytes, the line that is being edited, and all bytes ever committed. -/
structure Line where
  queue : List UInt8
  edit : List UInt8
  history : List UInt8
  le : queue.length + edit.length ≤ inputBuf

namespace Line

variable {l : Line} {c : UInt8} {k n : ℕ}

theorem drop_le (l : Line) (k : ℕ) : (l.queue.drop k).length + l.edit.length ≤ inputBuf := by
  have hle := l.le
  rw [List.length_drop]
  omega

/-- Without the first `k` committed bytes. -/
def drop (l : Line) (k : ℕ) : Line :=
  { l with queue := l.queue.drop k, le := drop_le l k }

theorem erase_le (l : Line) (k : ℕ) : l.queue.length + (l.edit.take k).length ≤ inputBuf := by
  have hle := l.le
  rw [List.length_take]
  omega

/-- With the first `k` bytes of the edited line only. -/
def erase (l : Line) (k : ℕ) : Line :=
  { l with edit := l.edit.take k, le := erase_le l k }

theorem append_le (l : Line) (c : UInt8) (h : l.queue.length + l.edit.length < inputBuf) :
    l.queue.length + (l.edit ++ [c]).length ≤ inputBuf := by
  rw [List.length_append, List.length_singleton, ← Nat.add_assoc]
  exact h

/-- With one more byte in the edited line. -/
def append (l : Line) (c : UInt8) (h : l.queue.length + l.edit.length < inputBuf) : Line :=
  { l with edit := l.edit ++ [c], le := append_le l c h }

theorem commit_le (l : Line) :
    (l.queue ++ l.edit).length + ([] : List UInt8).length ≤ inputBuf := by
  rw [List.length_append]
  exact l.le

/-- The edited line moves to the end of the queue. -/
def commit (l : Line) : Line where
  queue := l.queue ++ l.edit
  edit := []
  history := l.history ++ l.edit
  le := commit_le l

/-- A character is typed. -/
def intr (c : UInt8) (l : Line) : Line × Bool :=
  if c = 0 ∨ c = ctrlP then (l, false)
  else if c = ctrlU then (l.erase 0, false)
  else if c = ctrlH ∨ c = del then (l.erase (l.edit.length - 1), false)
  else if h : l.queue.length + l.edit.length < inputBuf then
    let c := if c = cr then lf else c
    let l := l.append c h
    if c = lf ∨ c = ctrlD ∨ l.queue.length + l.edit.length = inputBuf then (l.commit, true)
    else (l, false)
  else (l, false)

/-- A byte at which a read does not stop. -/
def plain (c : UInt8) : Bool := c ≠ lf ∧ c ≠ ctrlD

/-- The bytes before the first at which a read stops. -/
def plains (l : Line) : List UInt8 :=
  l.queue.takeWhile plain

/-- A read of `n` bytes: until there are enough, after a line feed, or at an end of file,
which is consumed if it is the first byte of a call.  `target` is what was asked for. -/
def read (killed : Bool) (target n : ℕ) (l : Line) : Reading Line :=
  if n ≤ l.plains.length then ⟨l.drop n, l.plains.take n, false, .done 0⟩
  else
    match l.queue.drop l.plains.length with
    | [] =>
        ⟨l.drop l.plains.length, l.plains, false,
          if killed then .killed else .asleep (n - l.plains.length)⟩
    | c :: _ =>
        if c = lf then
          ⟨l.drop (l.plains.length + 1), l.plains ++ [lf], false, .done (n - l.plains.length - 1)⟩
        else if l.plains = [] ∧ n = target then ⟨l.drop 1, [], true, .done n⟩
        else ⟨l.drop l.plains.length, l.plains, false, .done (n - l.plains.length)⟩

end Line

/-- The operations on the model. -/
def discipline : Terminal Line where
  intr := Line.intr
  read := Line.read

/-- The model of a console without input. -/
def start : System Line where
  input := ⟨[], [], [], Nat.zero_le _⟩
  reader := fun _ => none
  killed := fun _ => false

/-! ## What the buffer holds -/

theorem wrap32_add (a b : ℕ) : wrap32 (wrap32 a + b) = wrap32 (a + b) :=
  Nat.mod_add_mod a 4294967296 b

/-- The buffer holds the queue from the read index to the write index, and the edited line
from there to the edit index. -/
structure Holds (s : Input) (l : Line) : Prop where
  r_lt : s.r < 4294967296
  w : s.w = wrap32 (s.r + l.queue.length)
  e : s.e = wrap32 (s.w + l.edit.length)
  queue : Ring.contents inputBuf s.buf s.r l.queue.length = l.queue
  edit : Ring.contents inputBuf s.buf s.w l.edit.length = l.edit
  clean : lf ∉ l.edit

namespace Holds

variable {s : Input} {l : Line} {c : UInt8}

theorem boot : Holds Console.boot.input start.input := by
  refine ⟨by decide, by decide, by decide, rfl, rfl, by simp [start]⟩

theorem w_lt (h : Holds s l) : s.w < 4294967296 := by
  rw [h.w]
  exact Nat.mod_lt _ (by decide)

theorem e_lt (h : Holds s l) : s.e < 4294967296 := by
  rw [h.e]
  exact Nat.mod_lt _ (by decide)

theorem e_eq (h : Holds s l) : s.e = wrap32 (s.r + (l.queue.length + l.edit.length)) := by
  rw [h.e, h.w, wrap32_add, Nat.add_assoc]

theorem small (l : Line) : l.queue.length ≤ 128 ∧ l.edit.length ≤ 128 ∧
    l.queue.length + l.edit.length ≤ 128 := by
  have hle : l.queue.length + l.edit.length ≤ 128 := l.le
  omega

/-- The differences of the indices are the lengths. -/
theorem gap_r_w (h : Holds s l) : Ring.gap 4294967296 s.r s.w = l.queue.length := by
  have hsmall := small l
  exact (Ring.gap_eq_iff h.r_lt h.w_lt (by omega)).mpr h.w

theorem gap_w_e (h : Holds s l) : Ring.gap 4294967296 s.w s.e = l.edit.length := by
  have hsmall := small l
  exact (Ring.gap_eq_iff h.w_lt h.e_lt (by omega)).mpr h.e

theorem gap_r_e (h : Holds s l) :
    Ring.gap 4294967296 s.r s.e = l.queue.length + l.edit.length := by
  have hsmall := small l
  exact (Ring.gap_eq_iff h.r_lt h.e_lt (by omega)).mpr h.e_eq

theorem r_eq_w_iff (h : Holds s l) : s.r = s.w ↔ l.queue = [] := by
  rw [← Ring.gap_eq_zero_iff h.r_lt h.w_lt, h.gap_r_w, List.length_eq_zero_iff]

theorem e_eq_w_iff (h : Holds s l) : s.e = s.w ↔ l.edit = [] := by
  rw [eq_comm, ← Ring.gap_eq_zero_iff h.w_lt h.e_lt, h.gap_w_e, List.length_eq_zero_iff]

/-- Everything in the buffer. -/
theorem all (h : Holds s l) :
    Ring.contents inputBuf s.buf s.r (l.queue.length + l.edit.length) = l.queue ++ l.edit := by
  have hw : Ring.contents inputBuf s.buf (s.r + l.queue.length) l.edit.length = l.edit := by
    rw [← Ring.contents_mod (M := 4294967296) (by decide)]
    have hedit := h.edit
    rwa [h.w] at hedit
  rw [Ring.contents_add, h.queue, hw]

/-- A row of cells is cut where its elements are. -/
theorem cut {buf : ℕ → UInt8} {r a b : ℕ} {x y : List UInt8}
    (h : Ring.contents inputBuf buf r (a + b) = x ++ y) (hx : x.length = a) :
    Ring.contents inputBuf buf r a = x ∧ Ring.contents inputBuf buf (wrap32 (r + a)) b = y := by
  rw [Ring.contents_add] at h
  obtain ⟨hleft, hright⟩ := List.append_inj h (by rw [Ring.length_contents, hx])
  refine ⟨hleft, ?_⟩
  unfold wrap32
  rwa [Ring.contents_mod (by decide)]

/-! ### Editing -/

theorem erase (h : Holds s l) {k : ℕ} (hk : k ≤ l.edit.length) :
    Holds { s with e := wrap32 (s.w + k) } (l.erase k) := by
  have hlen : (l.edit.take k).length = k := List.length_take_of_le hk
  obtain ⟨m, hm⟩ := Nat.exists_eq_add_of_le hk
  have hcut : Ring.contents inputBuf s.buf s.w (k + m) = l.edit.take k ++ l.edit.drop k := by
    rw [List.take_append_drop, ← hm]
    exact h.edit
  refine ⟨h.r_lt, h.w, ?_, h.queue, ?_, fun hmem => h.clean (List.mem_of_mem_take hmem)⟩
  · change wrap32 (s.w + k) = wrap32 (s.w + (l.edit.take k).length)
    rw [hlen]
  · change Ring.contents inputBuf s.buf s.w (l.edit.take k).length = l.edit.take k
    rw [hlen]
    exact (cut hcut hlen).1

/-- Going back one byte, which is the last one of the edited line. -/
theorem back (h : Holds s l) {x : List UInt8} (hedit : l.edit = x ++ [c]) :
    Holds s.back (l.erase x.length) ∧ s.buf (s.back.e % inputBuf) = c := by
  have hlen : l.edit.length = x.length + 1 := by
    rw [hedit, List.length_append, List.length_singleton]
  have he : s.back.e = wrap32 (s.w + x.length) := by
    have hs := h.e
    rw [hlen] at hs
    change wrap32 (s.e + 4294967295) = _
    rw [hs]
    unfold wrap32
    omega
  constructor
  · have hback : s.back = { s with e := wrap32 (s.w + x.length) } := by
      rw [← he]
      rfl
    rw [hback]
    exact h.erase (by omega)
  · have hcontents := h.edit
    rw [hlen, Ring.contents_snoc, hedit] at hcontents
    have hlast := (List.append_inj' hcontents rfl).2
    rw [he, wrap32, Nat.mod_mod_of_dvd _ (by decide)]
    exact List.singleton_inj.mp hlast

theorem killLine (h : Holds s l) {k : ℕ} (hk : l.edit.length = k) :
    Holds (s.killLine k) (l.erase 0) := by
  induction k generalizing s l with
  | zero =>
      have hnil : l.edit = [] := List.length_eq_zero_iff.mp hk
      have hsame : l.erase 0 = l := by
        cases l
        simp only at hnil
        subst hnil
        rfl
      rw [hsame]
      exact h
  | succ k ih =>
      have hne : l.edit ≠ [] := by
        rintro hnil
        simp [hnil] at hk
      obtain ⟨x, c, hedit⟩ : ∃ x c, l.edit = x ++ [c] :=
        ⟨_, _, (List.dropLast_append_getLast hne).symm⟩
      obtain ⟨hback, hlast⟩ := h.back hedit
      have hx : x.length = k := by
        rw [hedit, List.length_append, List.length_singleton] at hk
        exact Nat.succ.inj hk
      have hloop : s.e ≠ s.w ∧ s.buf (s.back.e % inputBuf) ≠ lf := by
        refine ⟨fun he => hne (h.e_eq_w_iff.mp he), ?_⟩
        rw [hlast]
        rintro rfl
        exact h.clean (by simp [hedit])
      rw [Input.killLine, if_pos hloop]
      have hlen : (l.erase x.length).edit.length = k := by
        rw [← hx]
        exact List.length_take_of_le (by omega)
      exact ih (l := l.erase x.length) hback hlen

/-! ### Adding a byte -/

theorem store (h : Holds s l) (hroom : l.queue.length + l.edit.length < inputBuf) (c : UInt8) :
    (s.store c).e = wrap32 (s.r + (l.queue.length + (l.edit.length + 1))) ∧
      Ring.contents inputBuf (s.store c).buf s.r (l.queue.length + (l.edit.length + 1)) =
        l.queue ++ (l.edit ++ [c]) := by
  have hcell : s.e % inputBuf = (s.r + (l.queue.length + l.edit.length)) % inputBuf := by
    rw [h.e_eq, wrap32, Nat.mod_mod_of_dvd _ (by decide)]
  constructor
  · change wrap32 (s.e + 1) = _
    rw [h.e_eq, wrap32_add, Nat.add_assoc, Nat.add_assoc]
  · rw [← Nat.add_assoc, ← List.append_assoc, ← h.all]
    exact Ring.contents_put hroom hcell

theorem append (h : Holds s l) (hroom : l.queue.length + l.edit.length < inputBuf)
    (hc : c ≠ lf) : Holds (s.store c) (l.append c hroom) := by
  obtain ⟨he, hall⟩ := h.store hroom c
  obtain ⟨hqueue, hedit⟩ := cut hall rfl
  have hlen : (l.append c hroom).edit.length = l.edit.length + 1 := by
    rw [Line.append, List.length_append, List.length_singleton]
  refine ⟨h.r_lt, h.w, ?_, hqueue, ?_, ?_⟩
  · rw [hlen, he]
    change _ = wrap32 (s.w + (l.edit.length + 1))
    rw [h.w, wrap32_add, Nat.add_assoc]
  · rw [hlen]
    change Ring.contents inputBuf (s.store c).buf s.w _ = _
    rw [h.w]
    exact hedit
  · intro hmem
    rcases List.mem_append.mp hmem with hmem | hmem
    · exact h.clean hmem
    · exact hc (List.mem_singleton.mp hmem).symm

/-- Adding a byte that commits the line. -/
theorem commit (h : Holds s l) (hroom : l.queue.length + l.edit.length < inputBuf) (c : UInt8) :
    Holds { s.store c with w := (s.store c).e } (l.append c hroom).commit := by
  obtain ⟨he, hall⟩ := h.store hroom c
  have hlen : (l.append c hroom).commit.queue.length = l.queue.length + (l.edit.length + 1) := by
    rw [Line.commit, Line.append, List.length_append, List.length_append, List.length_singleton]
  refine ⟨h.r_lt, ?_, ?_, ?_, rfl, List.not_mem_nil⟩
  · rw [hlen]
    exact he
  · change (s.store c).e = wrap32 ((s.store c).e + 0)
    rw [he, wrap32_add]
    rfl
  · rw [hlen]
    exact hall

/-- The test for a full buffer. -/
theorem full_iff (h : Holds s l) (hroom : l.queue.length + l.edit.length < inputBuf)
    (c : UInt8) :
    (s.store c).e = wrap32 ((s.store c).r + inputBuf) ↔
      (l.append c hroom).queue.length + (l.append c hroom).edit.length = inputBuf := by
  obtain ⟨he, -⟩ := h.store hroom c
  have hr := h.r_lt
  have hroom' : l.queue.length + l.edit.length < 128 := hroom
  have hlen : (l.append c hroom).edit.length = l.edit.length + 1 := by
    rw [Line.append, List.length_append, List.length_singleton]
  rw [he, hlen]
  change wrap32 _ = wrap32 (s.r + 128) ↔ l.queue.length + (l.edit.length + 1) = 128
  unfold wrap32
  omega

theorem backspace (h : Holds s l) :
    Holds (if s.e ≠ s.w then s.back else s) (l.erase (l.edit.length - 1)) := by
  by_cases hnil : l.edit = []
  · rw [if_neg (not_not.mpr (h.e_eq_w_iff.mpr hnil))]
    have hsame : l.erase (l.edit.length - 1) = l := by
      cases l
      simp only at hnil
      subst hnil
      rfl
    rw [hsame]
    exact h
  · rw [if_pos (fun he => hnil (h.e_eq_w_iff.mp he))]
    have hedit := (List.dropLast_append_getLast hnil).symm
    have hback := (h.back hedit).1
    rwa [List.length_dropLast] at hback

/-- One character. -/
theorem intr (h : Holds s l) (c : UInt8) :
    Holds (s.intr c).1 (l.intr c).1 ∧ (s.intr c).2 = (l.intr c).2 := by
  by_cases hP : c = ctrlP
  · rw [Input.intr, Line.intr, if_pos hP, if_pos (Or.inr hP)]
    exact ⟨h, rfl⟩
  by_cases h0 : c = 0
  · subst h0
    rw [Input.intr, Line.intr, if_neg hP, if_neg (by decide), if_neg (by decide),
      if_neg (fun hc => hc.1 rfl), if_pos (Or.inl rfl)]
    exact ⟨h, rfl⟩
  rw [Input.intr, Line.intr, if_neg hP, if_neg (not_or.mpr ⟨h0, hP⟩)]
  by_cases hU : c = ctrlU
  · rw [if_pos hU, if_pos hU, h.gap_w_e]
    exact ⟨h.killLine rfl, rfl⟩
  rw [if_neg hU, if_neg hU]
  by_cases hH : c = ctrlH ∨ c = del
  · rw [if_pos hH, if_pos hH]
    exact ⟨h.backspace, rfl⟩
  rw [if_neg hH, if_neg hH, h.gap_r_e]
  by_cases hroom : l.queue.length + l.edit.length < inputBuf
  · rw [if_pos ⟨h0, hroom⟩, dif_pos hroom]
    generalize (if c = cr then lf else c) = d
    dsimp only
    by_cases hcommit : d = lf ∨ d = ctrlD ∨ (s.store d).e = wrap32 ((s.store d).r + inputBuf)
    · rw [if_pos hcommit, if_pos ((or_congr_right (or_congr_right (h.full_iff hroom d))).mp hcommit)]
      exact ⟨h.commit hroom d, rfl⟩
    · rw [if_neg hcommit,
        if_neg fun hc => hcommit ((or_congr_right (or_congr_right (h.full_iff hroom d))).mpr hc)]
      exact ⟨h.append hroom fun hd => hcommit (Or.inl hd), rfl⟩
  · rw [if_neg fun hc => hroom hc.2, dif_neg hroom]
    exact ⟨h, rfl⟩

/-! ### Taking a byte -/

theorem take (h : Holds s l) {x : List UInt8} (hqueue : l.queue = c :: x) :
    s.buf (s.r % inputBuf) = c ∧ Holds { s with r := wrap32 (s.r + 1) } (l.drop 1) := by
  have hlen : l.queue.length = x.length + 1 := by
    rw [hqueue, List.length_cons]
  have hcontents := h.queue
  rw [hlen, Ring.contents_succ, hqueue] at hcontents
  obtain ⟨hfirst, hrest⟩ := List.cons.inj hcontents
  have hdrop : (l.drop 1).queue = x := by
    change l.queue.drop 1 = x
    rw [hqueue]
    rfl
  refine ⟨hfirst, ⟨Nat.mod_lt _ (by decide), ?_, h.e, ?_, h.edit, h.clean⟩⟩
  · have hw := h.w
    rw [hlen] at hw
    rw [hdrop]
    change s.w = wrap32 (wrap32 (s.r + 1) + x.length)
    rw [hw]
    unfold wrap32
    omega
  · rw [hdrop]
    change Ring.contents inputBuf s.buf (wrap32 (s.r + 1)) x.length = x
    unfold wrap32
    rwa [Ring.contents_mod (by decide)]

end Holds

/-! ## Reading -/

section Read

variable {s : Input} {l : Line} {c : UInt8} {x : List UInt8} {killed : Bool} {target n : ℕ}

/-- A read of an empty queue. -/
theorem Line.read_nil (hqueue : l.queue = []) :
    l.read killed target (n + 1) =
      ⟨l, [], false, if killed then .killed else .asleep (n + 1)⟩ := by
  obtain ⟨queue, edit, history, hle⟩ := l
  simp only at hqueue
  subst hqueue
  rfl

/-- A read that takes a byte and goes on. -/
theorem Line.read_plain (hqueue : l.queue = c :: x) (hc : Line.plain c = true)
    (hn : n + 1 ≤ target) :
    l.read killed target (n + 1) = ((l.drop 1).read killed target n).cons c := by
  obtain ⟨queue, edit, history, hle⟩ := l
  simp only at hqueue
  subst hqueue
  have hplains : Line.plains ⟨c :: x, edit, history, hle⟩ = c :: x.takeWhile Line.plain :=
    List.takeWhile_cons_of_pos hc
  have hrest : (Line.drop ⟨c :: x, edit, history, hle⟩ 1).plains = x.takeWhile Line.plain := rfl
  have hqueue : (Line.drop ⟨c :: x, edit, history, hle⟩ 1).queue = x := rfl
  unfold Line.read
  rw [hplains, hrest, hqueue, List.length_cons, List.drop_succ_cons]
  by_cases henough : n ≤ (x.takeWhile Line.plain).length
  · rw [if_pos henough, if_pos (Nat.add_le_add_right henough 1)]
    rfl
  rw [if_neg henough, if_neg fun hle => henough (Nat.le_of_add_le_add_right hle),
    Nat.add_sub_add_right]
  cases x.drop (x.takeWhile Line.plain).length with
  | nil => rfl
  | cons b y =>
      dsimp only
      by_cases hb : b = lf
      · rw [if_pos hb, if_pos hb]
        rfl
      · -- neither of the two reads is at its first byte
        rw [if_neg hb, if_neg hb, if_neg fun hd => List.cons_ne_nil _ _ hd.1,
          if_neg fun hd => by omega]
        rfl

theorem Line.read_lf (hqueue : l.queue = lf :: x) :
    l.read killed target (n + 1) = ⟨l.drop 1, [lf], false, .done n⟩ := by
  obtain ⟨queue, edit, history, hle⟩ := l
  simp only at hqueue
  subst hqueue
  rfl

theorem Line.read_ctrlD (hqueue : l.queue = ctrlD :: x) :
    l.read killed target (n + 1) =
      if n + 1 = target then ⟨l.drop 1, [], true, .done (n + 1)⟩
      else ⟨l, [], false, .done (n + 1)⟩ := by
  obtain ⟨queue, edit, history, hle⟩ := l
  simp only at hqueue
  subst hqueue
  have hread : Line.read killed target (n + 1) ⟨ctrlD :: x, edit, history, hle⟩ =
      if ([] : List UInt8) = [] ∧ n + 1 = target then
        ⟨Line.drop ⟨ctrlD :: x, edit, history, hle⟩ 1, [], true, .done (n + 1)⟩
      else ⟨⟨ctrlD :: x, edit, history, hle⟩, [], false, .done (n + 1)⟩ := rfl
  rw [hread]
  by_cases htarget : n + 1 = target
  · rw [if_pos htarget, if_pos ⟨rfl, htarget⟩]
  · rw [if_neg htarget, if_neg fun hc => htarget hc.2]

/-- A stretch of `consoleread` does what the model does. -/
theorem Holds.read (h : Holds s l) (hn : n ≤ target) :
    SameReading Holds (s.read killed target n) (l.read killed target n) := by
  induction n generalizing s l with
  | zero => exact ⟨h, rfl, rfl, rfl⟩
  | succ n ih =>
      rw [Input.read]
      cases hqueue : l.queue with
      | nil =>
          rw [if_pos (h.r_eq_w_iff.mpr hqueue), Line.read_nil hqueue]
          exact ⟨h, rfl, rfl, rfl⟩
      | cons c x =>
          have hne : s.r ≠ s.w := fun heq => by simp [h.r_eq_w_iff.mp heq] at hqueue
          obtain ⟨hcell, htake⟩ := h.take hqueue
          rw [if_neg hne, hcell]
          dsimp only
          by_cases hD : c = ctrlD
          · subst hD
            rw [if_pos rfl, Line.read_ctrlD hqueue]
            by_cases htarget : n + 1 = target
            · rw [if_neg (by omega), if_pos htarget]
              exact ⟨htake, rfl, rfl, rfl⟩
            · -- the read index goes back to where it was
              have hback : wrap32 (wrap32 (s.r + 1) + 4294967295) = s.r := by
                have hr := h.r_lt
                unfold wrap32
                omega
              rw [if_pos (by omega), if_neg htarget, hback]
              exact ⟨h, rfl, rfl, rfl⟩
          · rw [if_neg hD]
            by_cases hlf : c = lf
            · subst hlf
              rw [if_pos rfl, Line.read_lf hqueue]
              exact ⟨htake, rfl, rfl, rfl⟩
            · have hplain : Line.plain c = true := by simp [Line.plain, hD, hlf]
              rw [if_neg hlf, Line.read_plain hqueue hplain hn]
              obtain ⟨hinput, hout, heof, houtcome⟩ := ih htake (by omega)
              exact ⟨hinput, congrArg (c :: ·) hout, heof, houtcome⟩

/-- A reader that sleeps has no more to read than before. -/
theorem Input.read_left {m : ℕ} (h : (s.read killed target n).outcome = .asleep m) : m ≤ n := by
  induction n generalizing s with
  | zero => cases h
  | succ n ih =>
      rw [Input.read] at h
      by_cases hempty : s.r = s.w
      · rw [if_pos hempty] at h
        cases killed with
        | true => cases h
        | false => cases h; exact le_refl _
      · rw [if_neg hempty] at h
        dsimp only at h
        split at h
        · split at h <;> cases h
        · split at h
          · cases h
          · exact (ih h).trans (Nat.le_succ n)

end Read

/-- The buffer of the console refines the model. -/
theorem console_simulates : Simulates console discipline Holds where
  intr _ _ _ h := h.intr _
  read _ _ _ _ _ h hn := h.read hn
  left _ _ _ _ _ h := Input.read_left h

/-! ## Runs -/

section Runs

variable {m m' : System Line} {e : Action × Effect}

theorem Line.intr_history (l : Line) (c : UInt8) :
    ∃ x, (l.intr c).1.history = l.history ++ x ∧ (l.intr c).1.queue = l.queue ++ x := by
  have hnothing : ∃ x : List UInt8, l.history = l.history ++ x ∧ l.queue = l.queue ++ x :=
    ⟨[], (List.append_nil _).symm, (List.append_nil _).symm⟩
  unfold Line.intr
  split
  · exact hnothing
  · split
    · exact hnothing
    · split
      · exact hnothing
      · split
        · generalize (if c = cr then lf else c) = d
          dsimp only
          split
          · exact ⟨_, rfl, rfl⟩
          · exact hnothing
        · exact hnothing

theorem consoleintr_history (m : System Line) (cs : List UInt8) :
    ∃ x, (m.consoleintr discipline cs).input.history = m.input.history ++ x ∧
      (m.consoleintr discipline cs).input.queue = m.input.queue ++ x := by
  induction cs generalizing m with
  | nil => exact ⟨[], (List.append_nil _).symm, (List.append_nil _).symm⟩
  | cons c cs ih =>
      obtain ⟨x, hhistory, hqueue⟩ := m.input.intr_history c
      obtain ⟨y, hhistory', hqueue'⟩ := ih (m.type discipline c)
      have htype : (m.type discipline c).input = (m.input.intr c).1 := by
        unfold System.type
        split <;> rfl
      rw [htype, hhistory, List.append_assoc] at hhistory'
      rw [htype, hqueue, List.append_assoc] at hqueue'
      exact ⟨x ++ y, hhistory', hqueue'⟩

/-- A read takes what it delivers, and the end of file it consumes, from the front of the
queue. -/
theorem Line.read_taken (l : Line) (killed : Bool) (target n : ℕ) :
    (l.read killed target n).input.history = l.history ∧
      (l.read killed target n).out ++ (if (l.read killed target n).eof then [ctrlD] else []) ++
        (l.read killed target n).input.queue = l.queue := by
  have hsplit : l.plains ++ l.queue.dropWhile Line.plain = l.queue :=
    List.takeWhile_append_dropWhile
  have hdrop : l.queue.drop l.plains.length = l.queue.dropWhile Line.plain := by
    conv_lhs => rw [← hsplit]
    exact List.drop_left
  unfold Line.read
  rw [hdrop]
  split
  · next hle =>
    refine ⟨rfl, ?_⟩
    change l.plains.take n ++ [] ++ l.queue.drop n = l.queue
    rw [List.append_nil]
    conv_lhs => rw [← hsplit]
    rw [List.drop_append_of_le_length hle, ← List.append_assoc, List.take_append_drop]
    exact hsplit
  · cases hrest : l.queue.dropWhile Line.plain with
    | nil =>
        refine ⟨rfl, ?_⟩
        change l.plains ++ [] ++ l.queue.drop l.plains.length = l.queue
        rw [List.append_nil, hdrop]
        exact hsplit
    | cons c x =>
        have hstop : Line.plain c = false := by
          have hhead := List.head?_dropWhile_not Line.plain l.queue
          rw [hrest] at hhead
          exact hhead
        have hnext : l.queue.drop (l.plains.length + 1) = x := by
          rw [← List.drop_drop, hdrop, hrest]
          rfl
        rw [hrest] at hsplit hdrop
        dsimp only
        split
        · next hlf =>
          subst hlf
          refine ⟨rfl, ?_⟩
          change l.plains ++ [lf] ++ [] ++ l.queue.drop (l.plains.length + 1) = l.queue
          rw [hnext, List.append_nil, List.append_assoc]
          exact hsplit
        · next hlf =>
          split
          · next hfirst =>
            have hD : c = ctrlD := by simpa [Line.plain, hlf] using hstop
            refine ⟨rfl, ?_⟩
            rw [hfirst.1] at hnext hsplit
            change [] ++ [ctrlD] ++ l.queue.drop 1 = l.queue
            have hdrop1 : l.queue.drop 1 = x := hnext
            rw [hdrop1, ← hD]
            exact hsplit
          · refine ⟨rfl, ?_⟩
            change l.plains ++ [] ++ l.queue.drop l.plains.length = l.queue
            rw [List.append_nil, hdrop]
            exact hsplit

theorem System.conclude_spec {σ : Type} (s : System σ) (p target : ℕ) (res : Reading σ) :
    (s.conclude p target res).1.input = res.input ∧
      (s.conclude p target res).2.out = res.out ∧ (s.conclude p target res).2.eof = res.eof := by
  unfold System.conclude
  split <;> exact ⟨rfl, rfl, rfl⟩

/-- Every step of the model takes its bytes from the front of the queue, and appends what it
commits to the history and to the end of the queue. -/
theorem history_step (hstep : Step discipline m e m') :
    ∃ x, m'.input.history = m.input.history ++ x ∧
      taken e ++ m'.input.queue = m.input.queue ++ x := by
  obtain ⟨a, o⟩ := e
  have hproceed : ∀ p target n, m.proceed discipline p target n = (m', o) →
      ∃ x, m'.input.history = m.input.history ++ x ∧
        taken (a, o) ++ m'.input.queue = m.input.queue ++ x := by
    intro p target n hres
    obtain ⟨hhistory, htaken⟩ := m.input.read_taken (m.killed p) target n
    obtain ⟨hinput, hout, heof⟩ :=
      m.conclude_spec p target (m.input.read (m.killed p) target n)
    have hres' : m.conclude p target (m.input.read (m.killed p) target n) = (m', o) := hres
    rw [hres'] at hinput hout heof
    refine ⟨[], ?_⟩
    rw [List.append_nil, List.append_nil, hinput, taken, hout, heof]
    exact ⟨hhistory, htaken⟩
  unfold Step System.step at hstep
  cases a with
  | intr cs =>
      obtain ⟨rfl, rfl⟩ := Prod.mk.inj (Option.some.inj hstep)
      exact consoleintr_history m cs
  | read p n =>
      obtain ⟨-, hres⟩ := Option.ite_none_right_eq_some.mp hstep
      exact hproceed p _ _ (Option.some.inj hres)
  | resume p =>
      dsimp only at hstep
      split at hstep
      · exact hproceed p _ _ (Option.some.inj hstep)
      · cases hstep
  | kill p =>
      obtain ⟨rfl, rfl⟩ := Prod.mk.inj (Option.some.inj hstep)
      exact ⟨[], (List.append_nil _).symm, (List.append_nil _).symm⟩

theorem history_run {es : List (Action × Effect)}
    (hrun : Run (Step discipline) (fun _ => True) start es m) :
    m.input.history = es.flatMap taken ++ m.input.queue := by
  refine hrun.history (J := fun gs x => x.input.history = gs.flatMap taken ++ x.input.queue) ?_ rfl
  rintro gs x e y - - hx hstep
  obtain ⟨z, hhistory, hqueue⟩ := history_step hstep
  rw [hhistory, hx, List.flatMap_append, List.flatMap_singleton, List.append_assoc, hqueue.symm,
    List.append_assoc]

end Runs

/-- For any sequence of characters and reads, the input of the console behaves as a queue of
committed bytes and a line that is being edited, together at most 128 bytes.  What the readers
take is what has been committed, byte for byte, less what is still in the queue. -/
theorem console_refines {s : System Input} {es : List (Action × Effect)}
    (hrun : Run (Step console) (fun _ => True) boot es s) :
    ∃ m : System Line, Run (Step discipline) (fun _ => True) start es m ∧
      Holds s.input m.input ∧ s.reader = m.reader ∧ s.killed = m.killed ∧
      m.input.queue.length + m.input.edit.length ≤ 128 ∧
      m.input.history = es.flatMap taken ++ m.input.queue := by
  have hboot : Alike Holds boot start := ⟨Holds.boot, rfl, rfl, by simp [boot]⟩
  obtain ⟨m, hm, halike⟩ := console_simulates.run hboot hrun
  exact ⟨m, hm, halike.input, halike.reader, halike.killed, m.input.le, history_run hm⟩

/-- A line of one character is typed, and a process asks for ten bytes. -/
theorem console_refines_line :
    ∃ m : System Line, Run (Step discipline) (fun _ => True) start
        [(.intr [97, cr], .none), (.read 0 10, ⟨[97, lf], false, some 2⟩)] m ∧
      m.input.history = [97, lf] ++ m.input.queue := by
  have htyped : Step console boot (.intr [97, cr], .none) (boot.consoleintr console [97, cr]) := rfl
  have hread : Step console (boot.consoleintr console [97, cr])
      (.read 0 10, ⟨[97, lf], false, some 2⟩)
      ((boot.consoleintr console [97, cr]).proceed console 0 10 10).1 := rfl
  have hrun := (Run.single (P := fun _ => True) trivial htyped trivial).snoc hread trivial
  obtain ⟨m, hm, -, -, -, -, hhistory⟩ := console_refines hrun
  exact ⟨m, hm, hhistory⟩

end Console

end Xv6
