import Mathlib.Algebra.BigOperators.Group.Multiset.Defs
import Mathlib.Algebra.Order.Group.Multiset
import Mathlib.Data.Fintype.Card
import Mathlib.Tactic.Abel
import Mathlib.Tactic.FinCases
import Xv6.Sh.Language
import Xv6.Sh.Run
import Xv6.Support.Run

/-!
# What the shell starts

The meaning of a command is the set of programs that it names, each with what its standard
descriptors stand for: the ends of the pipes next to it, the innermost files that it is
redirected to, and else what the shell has.  The processes of the shell start these
programs and no others, each once and with no other descriptor open, in whatever order they
take their steps.  When the shell prompts again, only programs in the background run.
-/

namespace Xv6

namespace Sh

open Support

/-- What the three standard descriptors stand for. -/
structure Wires where
  input : Handle
  output : Handle
  errors : Handle

namespace Wires

/-- The table in which nothing else is open. -/
def table (w : Wires) : Fds := fun i =>
  match i.val with
  | 0 => some w.input
  | 1 => some w.output
  | 2 => some w.errors
  | _ => none

def set (w : Wires) (fd : ℕ) (h : Handle) : Wires :=
  match fd with
  | 0 => { w with input := h }
  | 1 => { w with output := h }
  | _ => w

/-- The table after `pipe`. -/
def piped (w : Wires) (path : List ℕ) : Fds := fun i =>
  match i.val with
  | 3 => some (.reading path)
  | 4 => some (.writing path)
  | _ => w.table i

end Wires

/-- The programs of a command, with their descriptors. -/
def wiring : Place → Command → Wires → Multiset Launch
  | _, .exec [], _ => 0
  | place, .exec argv, w => {⟨place, argv, w.table⟩}
  | place, .redir cmd file mode fd, w => wiring place cmd (w.set fd (.file file mode))
  | place, .list left right, w => wiring place.left left w + wiring place.right right w
  | place, .pipe left right, w =>
      wiring place.left left { w with output := .writing place.path } +
        wiring place.right right { w with input := .reading place.path }
  | place, .back cmd, w => wiring place.behind cmd w

/-- The redirections are of the standard input or output. -/
def Cmd.Plain {ω : Type} : Cmd ω → Prop
  | .exec _ => True
  | .redir cmd _ _ fd => cmd.Plain ∧ (fd = 0 ∨ fd = 1)
  | .pipe left right => left.Plain ∧ right.Plain
  | .list left right => left.Plain ∧ right.Plain
  | .back cmd => cmd.Plain

theorem plain_wrap {cmd : Command} {rs : List Redir} (h : cmd.Plain)
    (hrs : ∀ r ∈ rs, r.fd = 0 ∨ r.fd = 1) : (wrap cmd rs).Plain := by
  induction rs generalizing cmd with
  | nil => exact h
  | cons r rs ih =>
      exact ih ⟨h, hrs r (List.mem_cons_self ..)⟩ fun r' hr' => hrs r' (List.mem_cons_of_mem r hr')

theorem plain_backs {cmd : Command} (h : cmd.Plain) (n : ℕ) : (backs cmd n).Plain := by
  induction n generalizing cmd with
  | zero => exact h
  | succ n ih =>
      have hback : Cmd.Plain (.back cmd) := h
      exact ih hback

theorem Redirs.fd {xs : List Tok} {rs : List Redir} (h : Redirs xs rs) :
    ∀ r ∈ rs, r.fd = 0 ∨ r.fd = 1 := by
  induction h with
  | nil => exact fun r hr => absurd hr List.not_mem_nil
  | cons hr _ ih =>
      intro r hmem
      rcases List.mem_cons.mp hmem with rfl | hmem
      · cases hr with
        | input file => exact .inl rfl
        | output file | append file => exact .inr rfl
      · exact ih r hmem

theorem Args.fd {xs : List Tok} {texts : List (List UInt8)} {rs : List Redir}
    (h : Args xs texts rs) : ∀ r ∈ rs, r.fd = 0 ∨ r.fd = 1 := by
  induction h with
  | nil => exact fun r hr => absurd hr List.not_mem_nil
  | cons hrs _ ih =>
      intro r hmem
      rcases List.mem_append.mp hmem with hmem | hmem
      · exact hrs.fd r hmem
      · exact ih r hmem

theorem Derives.plain {nt : Nonterminal} {xs : List Tok} {cmd : Command} (h : Derives nt xs cmd) :
    cmd.Plain := by
  induction h with
  | block _ hrs ih => exact plain_wrap ih hrs.fd
  | simple hrs hargs _ =>
      refine plain_wrap trivial fun r hr => ?_
      rcases List.mem_append.mp hr with hr | hr
      · exact hrs.fd r hr
      · exact hargs.fd r hr
  | last _ ih => exact ih
  | pipe _ _ ih ih' => exact ⟨ih, ih'⟩
  | alone _ ih => exact plain_backs ih _
  | list _ _ ih ih' => exact ⟨plain_backs ih _, ih'⟩

/-- What the parser returns redirects nothing but the standard input and output. -/
theorem plain_of_command {s : List UInt8} {cmd : Command} (hs : 0 ∉ s)
    (h : command s = some cmd) : cmd.Plain := by
  cases hparse : parsecmd s with
  | error e => simp [command, hparse] at h
  | ok r =>
      obtain ⟨span, buf⟩ := r
      simp only [command, hparse, Option.some.injEq] at h
      obtain ⟨ps, hline, hend, rfl⟩ := parsecmd_eq_ok_iff.mp hparse
      have hat : At s 0 (tokens s) := ⟨Nat.zero_le _, rfl⟩
      have hdepth : 4 * (tokens s).length + 5 ≤ 4 * s.length + 5 := by
        have := tokens_length s
        omega
      have hsound := (sound hs (4 * s.length + 5)).line 0 (tokens s) hat hdepth
      rw [hline] at hsound
      obtain ⟨xs, rest, -, -, c, hderives, hspells⟩ := hsound
      have hstart := kept_start s
      rw [hspells.strings hs hstart ⟨(hspells.later hstart).kept, fun _ hi => hi⟩] at h
      exact h ▸ hderives.plain

/-! ## The descriptors -/

section

variable (w : Wires) (path : List ℕ) (h : Handle) (file : List UInt8) (mode : ℕ)

/-- A redirection. -/
theorem openFile_close {fd : ℕ} (hfd : fd = 0 ∨ fd = 1) :
    (w.table.close fd).openFile file mode = some (fd, (w.set fd (.file file mode)).table) := by
  rcases hfd with rfl | rfl
  · have hopen : (w.table.close 0).openFile file mode =
        some (0, Function.update (w.table.close 0) 0 (some (.file file mode))) := rfl
    rw [hopen]
    congr 2
    funext i
    fin_cases i <;> rfl
  · have hopen : (w.table.close 1).openFile file mode =
        some (1, Function.update (w.table.close 1) 1 (some (.file file mode))) := rfl
    rw [hopen]
    congr 2
    funext i
    fin_cases i <;> rfl

theorem pipe_table : w.table.pipe path = some ((3, 4), w.piped path) := by
  have hpipe : w.table.pipe path = some ((3, 4), Function.update
      (Function.update w.table 3 (some (.reading path))) 4 (some (.writing path))) := rfl
  rw [hpipe]
  congr 2
  funext i
  fin_cases i <;> rfl

theorem plug_output : (w.piped path).plug 1 4 3 4 = ({ w with output := .writing path }).table := by
  funext i
  fin_cases i <;> rfl

theorem plug_input : (w.piped path).plug 0 3 3 4 = ({ w with input := .reading path }).table := by
  funext i
  fin_cases i <;> rfl

theorem unplug : ((w.piped path).close 3).close 4 = w.table := by
  funext i
  fin_cases i <;> rfl

end

/-! ## What is left to be started -/

/-- The programs that a step has started. -/
def Event.launched : Event → Multiset Launch
  | .launch l => {l}
  | _ => 0

/-- The programs that a step asks for, in a shell with these standard descriptors. -/
def Event.asked (w : Wires) : Event → Multiset Launch
  | .read n (some cmd) => wiring ⟨[n], false⟩ cmd w
  | _ => 0

/-- The process and those below it are in order, and these programs are still to be started
by them; `back` says whether they are in the background. -/
inductive Due (w₀ : Wires) : Bool → Proc → Multiset Launch → Prop
  | prompt {n : ℕ} : Due w₀ false ⟨.prompt n, w₀.table, []⟩ 0
  | busy {n : ℕ} {q : Proc} {m : Multiset Launch} (h : Due w₀ false q m) :
      Due w₀ false ⟨.busy n, w₀.table, [q]⟩ m
  | run {back : Bool} {place : Place} {cmd : Command} {w : Wires} (hb : place.back = back)
      (h : cmd.Plain) : Due w₀ back ⟨.run place cmd, w.table, []⟩ (wiring place cmd w)
  | list {back : Bool} {place : Place} {right : Command} {w : Wires} {q : Proc}
      {m : Multiset Launch} (hb : place.back = back) (h : right.Plain) (hq : Due w₀ back q m) :
      Due w₀ back ⟨.list place right, w.table, [q]⟩ (m + wiring place.right right w)
  | first {back : Bool} {place : Place} {left right : Command} {w : Wires}
      (hb : place.back = back) (hl : left.Plain) (hr : right.Plain) :
      Due w₀ back ⟨.first place left right 3 4, w.piped place.path, []⟩
        (wiring place (.pipe left right) w)
  | second {back : Bool} {place : Place} {right : Command} {w : Wires} {q : Proc}
      {m : Multiset Launch} (hb : place.back = back) (h : right.Plain) (hq : Due w₀ back q m) :
      Due w₀ back ⟨.second place right 3 4, w.piped place.path, [q]⟩
        (m + wiring place.right right { w with input := .reading place.path })
  | waitsTwo {back : Bool} {w : Wires} {q q' : Proc} {m m' : Multiset Launch}
      (hq : Due w₀ back q m) (hq' : Due w₀ back q' m') :
      Due w₀ back ⟨.waits 2, w.table, [q, q']⟩ (m + m')
  | waitsOne {back : Bool} {w : Wires} {q : Proc} {m : Multiset Launch} (hq : Due w₀ back q m) :
      Due w₀ back ⟨.waits 1, w.table, [q]⟩ m
  | waitsNone {back : Bool} {w : Wires} : Due w₀ back ⟨.waits 0, w.table, []⟩ 0
  | leaving {back : Bool} {w : Wires} : Due w₀ back ⟨.leaving, w.table, []⟩ 0
  | background {back : Bool} {w : Wires} {q : Proc} {m : Multiset Launch}
      (hq : Due w₀ true q m) : Due w₀ back ⟨.leaving, w.table, [q]⟩ m
  | program {back : Bool} {place : Place} {w : Wires} (hb : place.back = back) :
      Due w₀ back ⟨.program place, w.table, []⟩ 0
  | zombie {back : Bool} : Due w₀ back ⟨.zombie, fun _ => none, []⟩ 0

variable {w₀ : Wires} {back : Bool} {p p' q q' : Proc} {m : Multiset Launch} {e : Event}
  {os kids : List Proc}

theorem Due.of_zombie (h : Due w₀ back q m) (hq : q.isZombie = true) : m = 0 := by
  cases h <;> first | rfl | cases hq

/-- The same of some processes, all of which are in the foreground or background as `ok` allows. -/
def Dues (w₀ : Wires) (ok : Bool → Prop) : List Proc → Multiset Launch → Prop
  | [], m => m = 0
  | q :: ps, m => ∃ m₁ m₂, (∃ b, ok b ∧ Due w₀ b q m₁) ∧ Dues w₀ ok ps m₂ ∧ m = m₁ + m₂

section

variable {ok ok' : Bool → Prop} {ps qs : List Proc} {m₁ m₂ : Multiset Launch}

theorem dues_append : Dues w₀ ok (ps ++ qs) m ↔
    ∃ m₁ m₂, Dues w₀ ok ps m₁ ∧ Dues w₀ ok qs m₂ ∧ m = m₁ + m₂ := by
  induction ps generalizing m with
  | nil => simp [Dues]
  | cons p ps ih =>
      constructor
      · rintro ⟨m₁, m', hp, hrest, rfl⟩
        obtain ⟨m₂, m₃, hps, hqs, rfl⟩ := ih.mp hrest
        exact ⟨m₁ + m₂, m₃, ⟨m₁, m₂, hp, hps, rfl⟩, hqs, (add_assoc ..).symm⟩
      · rintro ⟨m', m₃, ⟨m₁, m₂, hp, hps, rfl⟩, hqs, rfl⟩
        exact ⟨m₁, m₂ + m₃, hp, ih.mpr ⟨m₂, m₃, hps, hqs, rfl⟩, add_assoc ..⟩

theorem Dues.one {b : Bool} (hb : ok b) (h : Due w₀ b q m) : Dues w₀ ok [q] m :=
  ⟨m, 0, ⟨b, hb, h⟩, rfl, (add_zero m).symm⟩

theorem Dues.mono (h : Dues w₀ ok ps m) (himp : ∀ b, ok b → ok' b) : Dues w₀ ok' ps m := by
  induction ps generalizing m with
  | nil => exact h
  | cons p ps ih =>
      obtain ⟨m₁, m₂, ⟨b, hb, hp⟩, hps, rfl⟩ := h
      exact ⟨m₁, m₂, ⟨b, himp b hb, hp⟩, ih hps, rfl⟩

end

/-- A step keeps the account: what it starts and what is still to be started is what was to be
started before and what the step asks for.  Where a system call fails, something is left out,
and processes of the foreground may be left behind. -/
def Accounted (w₀ : Wires) (back : Bool) (m : Multiset Launch) (e : Event) (p : Proc)
    (os : List Proc) : Prop :=
  ∃ m' n, Due w₀ back p m' ∧ Dues w₀ (fun b => e ≠ .failed → b = true) os n ∧
    e.launched + (m' + n) ≤ m + e.asked w₀ ∧
    (e ≠ .failed → e.launched + (m' + n) = m + e.asked w₀)

theorem Accounted.of_eq {m' : Multiset Launch} (h : Due w₀ back p m')
    (hsum : e.launched + m' = m + e.asked w₀) : Accounted w₀ back m e p [] :=
  ⟨m', 0, h, rfl, by rw [add_zero]; exact hsum.le, fun _ => by rw [add_zero]; exact hsum⟩

theorem Accounted.next (h : Due w₀ back p m) : Accounted w₀ back m .silent p [] :=
  .of_eq h (by simp [Event.launched, Event.asked])

/-- `exit` in the normal course. -/
theorem Accounted.exit (hos : Dues w₀ (fun b => b = true) os m) :
    Accounted w₀ back m .silent ⟨.zombie, fun _ => none, []⟩ os :=
  ⟨0, m, .zombie, hos.mono fun _ hb _ => hb, by simp [Event.launched, Event.asked],
    fun _ => by simp [Event.launched, Event.asked]⟩

/-- `exit` after a system call has failed. -/
theorem Accounted.failed {n : Multiset Launch} (hos : Dues w₀ (fun _ => True) os n)
    (hle : n ≤ m) : Accounted w₀ back m .failed ⟨.zombie, fun _ => none, []⟩ os :=
  ⟨0, n, .zombie, hos.mono fun _ _ hne => absurd rfl hne,
    by simpa [Event.launched, Event.asked] using hle, fun hne => absurd rfl hne⟩

/-- The same of a process that has no children: all that it was to start is left out. -/
theorem Accounted.lost :
    Accounted w₀ back m .failed ⟨.zombie, fun _ => none, []⟩ [] :=
  .failed rfl (Multiset.zero_le m)

/-! ## The steps -/

theorem reap_one {i : ℕ} (h : Proc.reap i [q] = some kids) : q.isZombie = true ∧ kids = [] := by
  cases i with
  | zero =>
      cases hq : q.isZombie with
      | true => exact ⟨rfl, by simpa [Proc.reap, hq] using h.symm⟩
      | false => simp [Proc.reap, hq] at h
  | succ i => simp [Proc.reap] at h

theorem reap_two {i : ℕ} (h : Proc.reap i [q, q'] = some kids) :
    q.isZombie = true ∧ kids = [q'] ∨ q'.isZombie = true ∧ kids = [q] := by
  match i with
  | 0 =>
      cases hq : q.isZombie with
      | true => exact .inl ⟨rfl, by simpa [Proc.reap, hq] using h.symm⟩
      | false => simp [Proc.reap, hq] at h
  | 1 =>
      cases hq : q'.isZombie with
      | true => exact .inr ⟨rfl, by simpa [Proc.reap, hq] using h.symm⟩
      | false => simp [Proc.reap, hq] at h
  | i + 2 => simp [Proc.reap] at h

theorem accounted_fork1 {ok : Bool} {c : Code} {f : Fds} {n : Multiset Launch}
    (h : Proc.fork1 ok c f kids q = some (e, p', os)) (hkids : Dues w₀ (fun _ => True) kids n)
    (hsum : n ≤ m) (hdue : Due w₀ back ⟨c, f, kids ++ [q]⟩ m) : Accounted w₀ back m e p' os := by
  cases ok with
  | true =>
      cases h
      exact .next hdue
  | false =>
      cases h
      exact .failed hkids hsum

theorem accounted_run {x : Choice} {place : Place} {cmd : Command} {w : Wires}
    (hb : place.back = back) (hcmd : cmd.Plain)
    (h : (Proc.mk (.run place cmd) w.table []).act x = some (e, p', os)) :
    Accounted w₀ back (wiring place cmd w) e p' os := by
  cases cmd with
  | exec argv =>
      cases argv with
      | nil =>
          cases h
          exact .exit rfl
      | cons a argv =>
          cases hok : x.ok with
          | true =>
              simp only [Proc.act, hok] at h
              cases h
              exact .of_eq (.program hb) (by simp [Event.launched, Event.asked, wiring])
          | false =>
              simp only [Proc.act, hok] at h
              cases h
              exact .lost
  | redir cmd file mode fd =>
      cases hok : x.ok with
      | true =>
          simp only [Proc.act, hok, if_true, openFile_close w file mode hcmd.2] at h
          cases h
          exact .next (.run hb hcmd.1)
      | false =>
          simp only [Proc.act, hok] at h
          cases h
          exact .lost
  | pipe left right =>
      cases hok : x.ok with
      | true =>
          simp only [Proc.act, hok, if_true, pipe_table] at h
          cases h
          exact .next (.first hb hcmd.1 hcmd.2)
      | false =>
          simp only [Proc.act, hok] at h
          cases h
          exact .lost
  | list left right =>
      exact accounted_fork1 h rfl (Multiset.zero_le _) (.list hb hcmd.2 (.run hb hcmd.1))
  | back cmd =>
      exact accounted_fork1 h rfl (Multiset.zero_le _) (.background (.run rfl hcmd))

/-- The shell has read a line. -/
theorem accounted_line {n : ℕ} {s : List UInt8} (hs : 0 ∉ s) :
    Accounted w₀ false 0 (.read n (command s))
      ⟨.busy n, w₀.table, [Proc.parsed n w₀.table (command s)]⟩ [] := by
  cases hcmd : command s with
  | none => exact .of_eq (.busy .leaving) (by simp [Event.launched, Event.asked])
  | some cmd =>
      have hplain := plain_of_command hs hcmd
      refine .of_eq (.busy (.run rfl hplain)) ?_
      simp [Event.launched, Event.asked]

/-- `wait`, with one child. -/
theorem accounted_wait {i : ℕ} {c : Code} {f : Fds} {m₁ : Multiset Launch}
    (h : ((Proc.reap i [q]).bind fun kids => Proc.next c f kids) = some (e, p', os))
    (hq : Due w₀ back q m₁) (hdue : Due w₀ back ⟨c, f, []⟩ m) :
    Accounted w₀ back (m₁ + m) e p' os := by
  obtain ⟨kids, hreap, hnext⟩ := Option.bind_eq_some_iff.mp h
  obtain ⟨hzombie, rfl⟩ := reap_one hreap
  cases hnext
  rw [hq.of_zombie hzombie, zero_add]
  exact .next hdue

/-- One step of a process. -/
theorem Due.act {x : Choice} (h : Due w₀ back p m) (hact : p.act x = some (e, p', os)) :
    Accounted w₀ back m e p' os := by
  cases h with
  | @prompt n =>
      simp only [Proc.act] at hact
      split at hact
      · cases hact
      · rename_i hzero
        split at hact
        · cases hact
          exact .exit rfl
        · split at hact
          · cases hact
            exact .next .prompt
          · split at hact
            · cases hact
              exact accounted_line hzero
            · cases hact
              exact .lost
  | busy hq =>
      have hwait := accounted_wait hact hq .prompt
      rwa [add_zero] at hwait
  | run hb hcmd => exact accounted_run hb hcmd hact
  | list hb hcmd hq => exact accounted_wait hact hq (.run hb hcmd)
  | @first _ place left right w hb hl hr =>
      have hkid : Due w₀ back ⟨.run place.left left, (w.piped place.path).plug 1 4 3 4, []⟩
          (wiring place.left left { w with output := .writing place.path }) := by
        rw [plug_output]
        exact .run hb hl
      exact accounted_fork1 hact rfl (Multiset.zero_le _) (.second hb hr hkid)
  | @second _ place right w q m hb hr hq =>
      have hkid : Due w₀ back ⟨.run place.right right, (w.piped place.path).plug 0 3 3 4, []⟩
          (wiring place.right right { w with input := .reading place.path }) := by
        rw [plug_input]
        exact .run hb hr
      cases hok : x.ok with
      | true =>
          simp only [Proc.act, hok, if_true, unplug] at hact
          cases hact
          exact .next (.waitsTwo hq hkid)
      | false =>
          simp only [Proc.act, hok] at hact
          cases hact
          exact .failed (.one trivial hq) (Multiset.le_add_right _ _)
  | @waitsTwo _ w q q' m m' hq hq' =>
      obtain ⟨kids, hreap, hnext⟩ := Option.bind_eq_some_iff.mp hact
      cases hnext
      rcases reap_two hreap with ⟨hzombie, rfl⟩ | ⟨hzombie, rfl⟩
      · rw [hq.of_zombie hzombie, zero_add]
        exact .next (.waitsOne hq')
      · rw [hq'.of_zombie hzombie, add_zero]
        exact .next (.waitsOne hq)
  | waitsOne hq =>
      have hwait := accounted_wait hact hq .waitsNone
      rwa [add_zero] at hwait
  | waitsNone | leaving | program hb =>
      cases hact
      exact .exit rfl
  | background hq =>
      cases hact
      exact .exit (.one rfl hq)
  | zombie => cases hact

/-- A step of a child. -/
theorem Accounted.lift {b : Bool} {rest : Multiset Launch} (h : Accounted w₀ b m e q os)
    (hdue : ∀ m', Due w₀ b q m' → Due w₀ back p (m' + rest)) :
    Accounted w₀ back (m + rest) e p os := by
  obtain ⟨m', n, hq, hos, hle, heq⟩ := h
  have hleft : e.launched + (m' + rest + n) = e.launched + (m' + n) + rest := by abel
  have hright : m + rest + e.asked w₀ = m + e.asked w₀ + rest := by abel
  refine ⟨m' + rest, n, hdue m' hq, hos, ?_, fun hne => ?_⟩
  · rw [hleft, hright]
    exact add_le_add_left hle rest
  · rw [hleft, hright, heq hne]

theorem Accounted.lift_alone {b : Bool} (h : Accounted w₀ b m e q os)
    (hdue : ∀ m', Due w₀ b q m' → Due w₀ back p m') : Accounted w₀ back m e p os := by
  have hlift : Accounted w₀ back (m + 0) e p os := by
    apply h.lift
    intro m' hq
    rw [add_zero]
    exact hdue m' hq
  rwa [add_zero] at hlift

theorem only_kid {l r : List Proc} (h : l ++ q :: r = [q']) : l = [] ∧ q = q' ∧ r = [] := by
  cases l with
  | nil => simpa using h
  | cons a l => simp at h

theorem Due.step (h : Due w₀ back p m) (hstep : p.Step e p' os) : Accounted w₀ back m e p' os := by
  induction hstep generalizing back m with
  | self x hact => exact h.act hact
  | @kid c f l r q q' e os _ ih =>
      generalize hkids : l ++ q :: r = kids at h
      cases h with
      | prompt | run | first | waitsNone | leaving | program | zombie => simp at hkids
      | busy hq =>
          obtain ⟨rfl, rfl, rfl⟩ := only_kid hkids
          exact (ih hq).lift_alone fun m' hq' => .busy hq'
      | list hb hr hq =>
          obtain ⟨rfl, rfl, rfl⟩ := only_kid hkids
          exact (ih hq).lift fun m' hq' => .list hb hr hq'
      | second hb hr hq =>
          obtain ⟨rfl, rfl, rfl⟩ := only_kid hkids
          exact (ih hq).lift fun m' hq' => .second hb hr hq'
      | waitsOne hq =>
          obtain ⟨rfl, rfl, rfl⟩ := only_kid hkids
          exact (ih hq).lift_alone fun m' hq' => .waitsOne hq'
      | background hq =>
          obtain ⟨rfl, rfl, rfl⟩ := only_kid hkids
          exact (ih hq).lift_alone fun m' hq' => .background hq'
      | @waitsTwo _ w q₁ q₂ m₁ m₂ h₁ h₂ =>
          cases l with
          | nil =>
              obtain ⟨rfl, rfl⟩ : q = q₁ ∧ r = [q₂] := by simpa using hkids
              exact (ih h₁).lift fun m' hq' => .waitsTwo hq' h₂
          | cons a l =>
              obtain ⟨rfl, hrest⟩ : a = q₁ ∧ l ++ q :: r = [q₂] := by simpa using hkids
              obtain ⟨rfl, rfl, rfl⟩ := only_kid hrest
              rw [add_comm]
              refine (ih h₂).lift fun m' hq' => ?_
              rw [add_comm]
              exact .waitsTwo h₁ hq'

/-! ## Runs -/

/-- The programs that have been started. -/
def launched (es : List Event) : Multiset Launch :=
  (es.map Event.launched).sum

/-- The programs of the lines that have been read. -/
def asked (w : Wires) (es : List Event) : Multiset Launch :=
  (es.map (Event.asked w)).sum

/-- All processes are in order, and this is what is still due. -/
def Balanced (w₀ : Wires) (es : List Event) (ps : List Proc) : Prop :=
  ∃ m, Dues w₀ (fun _ => True) ps m ∧ launched es + m ≤ asked w₀ es ∧
    (Event.failed ∉ es → launched es + m = asked w₀ es)

theorem Balanced.step {es : List Event} {ps ps' : List Proc} (h : Balanced w₀ es ps)
    (hstep : Step ps e ps') : Balanced w₀ (es ++ [e]) ps' := by
  obtain ⟨m, hps, hle, heq⟩ := h
  have hlaunched : launched (es ++ [e]) = launched es + e.launched := by simp [launched]
  have hasked : asked w₀ (es ++ [e]) = asked w₀ es + e.asked w₀ := by simp [asked]
  cases hstep with
  | @act l r q q' e os hq =>
      obtain ⟨m₁, -, hl, ⟨m₂, m₃, ⟨b, -, hdue⟩, hr, rfl⟩, rfl⟩ := dues_append.mp hps
      obtain ⟨m', n, hdue', hos, hle', heq'⟩ := hdue.step hq
      have hafter : launched es + e.launched + (m₁ + (m' + m₃) + n) =
          launched es + m₁ + m₃ + (e.launched + (m' + n)) := by abel
      have hbefore : launched es + m₁ + m₃ + (m₂ + e.asked w₀) =
          launched es + (m₁ + (m₂ + m₃)) + e.asked w₀ := by abel
      refine ⟨m₁ + (m' + m₃) + n, ?_, ?_, fun hno => ?_⟩
      · exact dues_append.mpr ⟨_, n, dues_append.mpr ⟨m₁, _, hl, ⟨m', m₃, ⟨b, trivial, hdue'⟩, hr,
          rfl⟩, rfl⟩, hos.mono fun _ _ => trivial, rfl⟩
      · rw [hlaunched, hasked, hafter]
        exact (add_le_add_right hle' _).trans (hbefore.le.trans (add_le_add_left hle _))
      · rw [List.mem_append, List.mem_singleton, not_or] at hno
        rw [hlaunched, hasked, hafter, heq' (Ne.symm hno.2), hbefore, heq hno.1]
  | @reap l r q hq =>
      obtain ⟨m₁, -, hl, ⟨m₂, m₃, ⟨b, -, hdue⟩, hr, rfl⟩, rfl⟩ := dues_append.mp hps
      rw [hdue.of_zombie hq, zero_add] at hle heq
      have hsilent : Event.launched .silent = 0 ∧ Event.asked w₀ .silent = 0 := ⟨rfl, rfl⟩
      refine ⟨m₁ + m₃, dues_append.mpr ⟨m₁, m₃, hl, hr, rfl⟩, ?_, fun hno => ?_⟩
      · rw [hlaunched, hasked, hsilent.1, hsilent.2, add_zero, add_zero]
        exact hle
      · rw [List.mem_append, not_or] at hno
        rw [hlaunched, hasked, hsilent.1, hsilent.2, add_zero, add_zero]
        exact heq hno.1

theorem balanced_run {n : ℕ} {es : List Event} {ps : List Proc}
    (hrun : Run Step (fun _ => True) [⟨.prompt n, w₀.table, []⟩] es ps) : Balanced w₀ es ps := by
  apply hrun.history (J := Balanced w₀)
  · exact fun _ _ _ _ _ _ h hstep => h.step hstep
  · exact ⟨0, .one trivial .prompt, by simp [launched, asked], fun _ => by simp [launched, asked]⟩

/-- Nothing is left to be started by a process that is at its prompt, runs a program or has
exited. -/
def Proc.Quiet : Proc → Prop
  | ⟨.prompt _, _, []⟩ | ⟨.program _, _, []⟩ | ⟨.zombie, _, []⟩ => True
  | _ => False

theorem Due.of_quiet {b : Bool} (h : Due w₀ b q m) (hq : q.Quiet) : m = 0 := by
  cases h <;> first | rfl | exact absurd hq not_false

theorem Dues.of_quiet {ok : Bool → Prop} {ps : List Proc} (h : Dues w₀ ok ps m)
    (hps : ∀ q ∈ ps, q.Quiet) : m = 0 := by
  induction ps generalizing m with
  | nil => exact h
  | cons p ps ih =>
      obtain ⟨m₁, m₂, ⟨b, -, hp⟩, hrest, rfl⟩ := h
      rw [hp.of_quiet (hps p (List.mem_cons_self ..)),
        ih hrest fun q hq => hps q (List.mem_cons_of_mem p hq), add_zero]

/-! ## One run -/

theorem command_background :
    command [108, 115, 32, 38] = some (.back (.exec [[108, 115]])) := by
  decide +kernel

/-- The shell reads `ls &`, and prompts while the program runs. -/
theorem run_background (w : Wires) : ∃ es, Run Step (fun _ => True) [⟨.prompt 0, w.table, []⟩] es
    [⟨.prompt 1, w.table, []⟩, ⟨.program ⟨[0], true⟩, w.table, []⟩] ∧ Event.failed ∉ es := by
  have hread : Step [⟨.prompt 0, w.table, []⟩] (.read 0 (some (.back (.exec [[108, 115]]))))
      [⟨.busy 0, w.table, [⟨.run ⟨[0], false⟩ (.back (.exec [[108, 115]])), w.table, []⟩]⟩] := by
    refine .act (l := []) (r := []) (.self ⟨true, 0, [108, 115, 32, 38]⟩ ?_)
    simp [Proc.act, command_background, isCd, Proc.parsed]
  have hfork : Step
      [⟨.busy 0, w.table, [⟨.run ⟨[0], false⟩ (.back (.exec [[108, 115]])), w.table, []⟩]⟩] .silent
      [⟨.busy 0, w.table, [⟨.leaving, w.table,
        [⟨.run ⟨[0], true⟩ (.exec [[108, 115]]), w.table, []⟩]⟩]⟩] :=
    .act (l := []) (r := []) (.kid (l := []) (r := []) (.self ⟨true, 0, []⟩ rfl))
  have hexit : Step
      [⟨.busy 0, w.table, [⟨.leaving, w.table,
        [⟨.run ⟨[0], true⟩ (.exec [[108, 115]]), w.table, []⟩]⟩]⟩] .silent
      [⟨.busy 0, w.table, [⟨.zombie, fun _ => none, []⟩]⟩,
        ⟨.run ⟨[0], true⟩ (.exec [[108, 115]]), w.table, []⟩] :=
    .act (l := []) (r := []) (.kid (l := []) (r := []) (.self ⟨true, 0, []⟩ rfl))
  have hwait : Step
      [⟨.busy 0, w.table, [⟨.zombie, fun _ => none, []⟩]⟩,
        ⟨.run ⟨[0], true⟩ (.exec [[108, 115]]), w.table, []⟩] .silent
      [⟨.prompt 1, w.table, []⟩, ⟨.run ⟨[0], true⟩ (.exec [[108, 115]]), w.table, []⟩] :=
    .act (l := []) (.self ⟨true, 0, []⟩ rfl)
  have hexec : Step
      [⟨.prompt 1, w.table, []⟩, ⟨.run ⟨[0], true⟩ (.exec [[108, 115]]), w.table, []⟩]
      (.launch ⟨⟨[0], true⟩, [[108, 115]], w.table⟩)
      [⟨.prompt 1, w.table, []⟩, ⟨.program ⟨[0], true⟩, w.table, []⟩] :=
    .act (l := [⟨.prompt 1, w.table, []⟩]) (r := []) (.self ⟨true, 0, []⟩ rfl)
  have hstart : Run Step (fun _ => True) [⟨.prompt 0, w.table, []⟩] [] _ := .nil trivial
  refine ⟨_, ((((hstart.snoc hread trivial).snoc hfork trivial).snoc hexit trivial).snoc hwait
    trivial).snoc hexec trivial, ?_⟩
  simp

/-! ## What holds of every run -/

/-- In whatever order the processes take their steps, the programs that are started are among
those of the lines that have been read, each with the descriptors that the command says, and
unless a system call fails all of them are started, each once, by the time at which the
shell prompts and its children do nothing but run programs. -/
theorem lines_started_once {n : ℕ} {es : List Event} {ps : List Proc}
    (hrun : Run Step (fun _ => True) [⟨.prompt n, w₀.table, []⟩] es ps) :
    launched es ≤ asked w₀ es ∧
      (Event.failed ∉ es → (∀ q ∈ ps, q.Quiet) → launched es = asked w₀ es) := by
  obtain ⟨m, hps, hle, heq⟩ := balanced_run hrun
  refine ⟨(Multiset.le_add_right _ _).trans hle, fun hno hquiet => ?_⟩
  rw [← heq hno, hps.of_quiet hquiet, add_zero]

theorem lines_started_once_background : ∃ (w : Wires) (es : List Event) (ps : List Proc),
    Run Step (fun _ => True) [⟨.prompt 0, w.table, []⟩] es ps ∧
      launched es = asked w es ∧ ps.length = 2 := by
  obtain ⟨es, hrun, hno⟩ := run_background ⟨.console, .console, .console⟩
  refine ⟨_, es, _, hrun, (lines_started_once hrun).2 hno ?_, rfl⟩
  simp [Proc.Quiet]

/-- The children of a process in the background are in the background. -/
theorem Due.mem {b : Bool} {c : Code} {f : Fds} (h : Due w₀ b ⟨c, f, kids⟩ m) (hq : q ∈ kids) :
    ∃ b' m', Due w₀ b' q m' ∧ (b = true → b' = true) := by
  cases h with
  | prompt | run | first | waitsNone | leaving | program | zombie => cases hq
  | busy hkid | list _ _ hkid | second _ _ hkid | waitsOne hkid =>
      obtain rfl := List.mem_singleton.mp hq
      exact ⟨_, _, hkid, id⟩
  | background hkid =>
      obtain rfl := List.mem_singleton.mp hq
      exact ⟨_, _, hkid, fun _ => rfl⟩
  | waitsTwo h₁ h₂ =>
      rcases List.mem_cons.mp hq with rfl | hq
      · exact ⟨_, _, h₁, id⟩
      · obtain rfl := List.mem_singleton.mp hq
        exact ⟨_, _, h₂, id⟩

theorem Due.within {b : Bool} (h : Due w₀ b p m) (hq : p.Within q) :
    ∃ b' m', Due w₀ b' q m' ∧ (b = true → b' = true) := by
  induction hq generalizing b m with
  | self p => exact ⟨b, m, h, id⟩
  | kid hmem _ ih =>
      obtain ⟨b₁, m₁, hkid, hback⟩ := h.mem hmem
      obtain ⟨b₂, m₂, hq, hback'⟩ := ih hkid
      exact ⟨b₂, m₂, hq, fun hb => hback' (hback hb)⟩

theorem Dues.mem {ok : Bool → Prop} {ps : List Proc} (h : Dues w₀ ok ps m) (hq : q ∈ ps) :
    ∃ b m, ok b ∧ Due w₀ b q m := by
  induction ps generalizing m with
  | nil => cases hq
  | cons p ps ih =>
      obtain ⟨m₁, m₂, ⟨b, hb, hp⟩, hrest, rfl⟩ := h
      rcases List.mem_cons.mp hq with rfl | hq
      · exact ⟨b, m₁, hb, hp⟩
      · exact ih hrest hq

/-- `PIPE`, before the shell has closed both ends. -/
def Code.inPipe : Code → Bool
  | .first .. | .second .. => true
  | _ => false

theorem table_high (w : Wires) {i : Fin nofile} (hi : 3 ≤ i.val) : w.table i = none := by
  obtain ⟨i, hlt⟩ := i
  obtain ⟨j, rfl⟩ : ∃ j, i = j + 3 := ⟨i - 3, (Nat.sub_add_cancel hi).symm⟩
  rfl

/-- No process but one that is just making a pipe has other descriptors than the three
standard ones: whoever has an end of a pipe has it as a standard descriptor. -/
theorem standard_descriptors_only {n : ℕ} {es : List Event} {ps : List Proc}
    (hrun : Run Step (fun _ => True) [⟨.prompt n, w₀.table, []⟩] es ps) {c : Code} {f : Fds}
    (hq : q ∈ ps) (hp : q.Within ⟨c, f, kids⟩) (hc : c.inPipe = false) (i : Fin nofile)
    (hi : 3 ≤ i.val) : f i = none := by
  obtain ⟨m, hps, -, -⟩ := balanced_run hrun
  obtain ⟨b, m', -, hdue⟩ := hps.mem hq
  obtain ⟨b', m'', hdue', -⟩ := hdue.within hp
  cases hdue' with
  | first | second => cases hc
  | zombie => rfl
  | _ => exact table_high _ hi

theorem standard_descriptors_only_background : ∃ (w : Wires) (es : List Event) (q : Proc),
    Run Step (fun _ => True) [⟨.prompt 0, w.table, []⟩] es [⟨.prompt 1, w.table, []⟩, q] ∧
      ∀ i : Fin nofile, 3 ≤ i.val → w.table i = none := by
  obtain ⟨es, hrun, -⟩ := run_background ⟨.console, .console, .console⟩
  refine ⟨_, es, _, hrun, fun i hi => ?_⟩
  exact standard_descriptors_only hrun (List.mem_cons_of_mem _ (List.mem_singleton_self _))
    (.self _) rfl i hi

/-! ## The prompt -/

/-- The shell is the first process, and all others are in the background. -/
def Manned (w₀ : Wires) (ps : List Proc) : Prop :=
  (∃ p others m, ps = p :: others ∧ p.isShell = true ∧ Due w₀ false p m ∧
    ∀ q ∈ others, ∃ m, Due w₀ true q m) ∨ ∀ q ∈ ps, ∃ m, Due w₀ true q m

theorem isShell_kids {c : Code} {f : Fds} (kids' : List Proc) :
    (Proc.mk c f kids').isShell = (Proc.mk c f kids).isShell := by
  cases c <;> rfl

/-- `main` stays in its loop until it exits. -/
theorem shell_step (hp : p.isShell = true) (h : p.Step e p' os) :
    p'.isShell = true ∨ p' = ⟨.zombie, fun _ => none, []⟩ := by
  cases h with
  | kid h => exact .inl ((isShell_kids _).trans hp)
  | self x hact =>
      obtain ⟨c, f, kids⟩ := p
      cases c with
      | prompt n =>
          simp only [Proc.act] at hact
          split at hact
          · cases hact
          · split at hact
            · cases hact
              exact .inr rfl
            · split at hact
              · cases hact
                exact .inl rfl
              · split at hact
                · cases hact
                  exact .inl rfl
                · cases hact
                  exact .inr rfl
      | busy n =>
          obtain ⟨kids', -, hnext⟩ := Option.bind_eq_some_iff.mp hact
          cases hnext
          exact .inl rfl
      | _ => cases hp

theorem Accounted.orphans (h : Accounted w₀ back m e p os) (he : e ≠ .failed) :
    (∃ m, Due w₀ back p m) ∧ ∀ q ∈ os, ∃ m, Due w₀ true q m := by
  obtain ⟨m', n, hdue, hos, -, -⟩ := h
  refine ⟨⟨m', hdue⟩, fun q hq => ?_⟩
  obtain ⟨b, m, hb, hdue⟩ := hos.mem hq
  exact ⟨m, hb he ▸ hdue⟩

/-- A step of a process in the background. -/
theorem background_step {l r : List Proc} (h : ∀ x ∈ l ++ q :: r, ∃ m, Due w₀ true x m)
    (hstep : q.Step e q' os) (he : e ≠ .failed) :
    ∀ x ∈ l ++ q' :: r ++ os, ∃ m, Due w₀ true x m := by
  obtain ⟨m, hdue⟩ := h q (by simp)
  obtain ⟨hnew, hos⟩ := (hdue.step hstep).orphans he
  intro x hx
  simp only [List.mem_append, List.mem_cons] at hx
  rcases hx with (hx | rfl | hx) | hx
  · exact h x (by simp [hx])
  · exact hnew
  · exact h x (by simp [hx])
  · exact hos x hx

theorem Manned.step {ps ps' : List Proc} (h : Manned w₀ ps) (hstep : Step ps e ps')
    (he : e ≠ .failed) : Manned w₀ ps' := by
  rcases h with ⟨p, others, m, hps, hshell, hdue, hothers⟩ | hall
  · cases hstep with
    | @act l r q q' e os hq =>
        cases l with
        | nil =>
            obtain ⟨rfl, rfl⟩ : q = p ∧ r = others := by simpa using hps
            obtain ⟨⟨m', hdue'⟩, hos⟩ := (hdue.step hq).orphans he
            have hrest : ∀ x ∈ r ++ os, ∃ m, Due w₀ true x m := fun x hx =>
              (List.mem_append.mp hx).elim (hothers x) (hos x)
            rcases shell_step hshell hq with hshell' | rfl
            · exact .inl ⟨q', r ++ os, m', rfl, hshell', hdue', hrest⟩
            · refine .inr fun x hx => ?_
              rcases List.mem_cons.mp hx with rfl | hx
              · exact ⟨0, .zombie⟩
              · exact hrest x hx
        | cons a l =>
            obtain ⟨rfl, rfl⟩ : a = p ∧ l ++ q :: r = others := by simpa using hps
            exact .inl ⟨a, l ++ q' :: r ++ os, m, rfl, hshell, hdue, background_step hothers hq he⟩
    | @reap l r q hq =>
        cases l with
        | nil =>
            obtain ⟨rfl, rfl⟩ : q = p ∧ r = others := by simpa using hps
            obtain ⟨c, f, kids⟩ := q
            cases c with
            | prompt n | busy n => cases hq
            | _ => cases hshell
        | cons a l =>
            obtain ⟨rfl, rfl⟩ : a = p ∧ l ++ q :: r = others := by simpa using hps
            refine .inl ⟨a, l ++ r, m, rfl, hshell, hdue, fun x hx => hothers x ?_⟩
            rcases List.mem_append.mp hx with hx | hx
            · exact List.mem_append_left _ hx
            · exact List.mem_append_right l (List.mem_cons_of_mem q hx)
  · right
    cases hstep with
    | act hq => exact background_step hall hq he
    | @reap l r q hq =>
        intro x hx
        apply hall x
        rcases List.mem_append.mp hx with hx | hx
        · exact List.mem_append_left _ hx
        · exact List.mem_append_right l (List.mem_cons_of_mem q hx)

/-- When the shell prompts, and no system call has failed, it has no child, and each program
that still runs is one of the background. -/
theorem prompt_after_foreground {n n' : ℕ} {es : List Event} {f : Fds} {others : List Proc}
    (hrun : Run Step (fun _ => True) [⟨.prompt n, w₀.table, []⟩] es
      (⟨.prompt n', f, kids⟩ :: others)) (hno : Event.failed ∉ es) :
    kids = [] ∧ ∀ q ∈ others, ∀ place f' kids', q.Within ⟨.program place, f', kids'⟩ →
      place.back = true := by
  have hmanned : Manned w₀ (⟨.prompt n', f, kids⟩ :: others) := by
    have hhistory := hrun.history (J := fun es ps => Event.failed ∉ es → Manned w₀ ps) ?_ ?_
    · exact hhistory hno
    · intro gs ps e ps' _ _ h hstep hno
      rw [List.mem_append, List.mem_singleton, not_or] at hno
      exact (h hno.1).step hstep (Ne.symm hno.2)
    · intro _
      exact .inl ⟨_, [], 0, rfl, rfl, .prompt, fun q hq => by cases hq⟩
  rcases hmanned with ⟨p, rest, m, hps, -, hdue, hothers⟩ | hall
  · obtain ⟨rfl, rfl⟩ := List.cons.inj hps
    refine ⟨by cases hdue; rfl, fun q hq place f' kids' hwithin => ?_⟩
    obtain ⟨m', hq⟩ := hothers q hq
    obtain ⟨b, m'', hprogram, hb⟩ := hq.within hwithin
    obtain rfl := hb rfl
    cases hprogram with
    | program hplace => exact hplace
  · obtain ⟨m, hdue⟩ := hall _ (List.mem_cons_self ..)
    cases hdue

theorem prompt_after_foreground_background : ∃ (w : Wires) (es : List Event) (place : Place),
    Run Step (fun _ => True) [⟨.prompt 0, w.table, []⟩] es
      [⟨.prompt 1, w.table, []⟩, ⟨.program place, w.table, []⟩] ∧ place.back = true := by
  obtain ⟨es, hrun, hno⟩ := run_background ⟨.console, .console, .console⟩
  refine ⟨_, es, _, hrun, ?_⟩
  exact (prompt_after_foreground hrun hno).2 _ (List.mem_singleton_self _) _ _ _ (.self _)

end Sh

end Xv6
