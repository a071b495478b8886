import Mathlib.Data.List.Forall2
import Xv6.Sh.Lexing

/-!
# The parser accepts its grammar

Each function of the parser takes a first part of the tokens and returns the command
that this part stands for.  What it returns is derivable, and what is derivable is
returned, if what follows the part cannot be taken for a continuation of it: a line is
followed by a closing parenthesis or nothing, a pipe also by `&` or `;`, and so on.
-/

namespace Xv6

namespace Sh

variable {s : List UInt8} {ps k : ℕ} {toks rest xs : List Tok} {t : Tok}

/-! ## Commands and their texts -/

/-- The words of a command are at the right places of the line. -/
inductive Spells (s : List UInt8) : Cmd Span → Cmd (List UInt8) → Prop
  | exec {argv : List Span} {texts : List (List UInt8)}
      (h : List.Forall₂ (WordAt s) argv texts) : Spells s (.exec argv) (.exec texts)
  | redir {cmd : Cmd Span} {cmd' : Cmd (List UInt8)} {w : Span} {text : List UInt8} {mode fd : ℕ}
      (h : Spells s cmd cmd') (hfile : WordAt s w text) :
      Spells s (.redir cmd w mode fd) (.redir cmd' text mode fd)
  | pipe {left right : Cmd Span} {left' right' : Cmd (List UInt8)} (hleft : Spells s left left')
      (hright : Spells s right right') : Spells s (.pipe left right) (.pipe left' right')
  | list {left right : Cmd Span} {left' right' : Cmd (List UInt8)} (hleft : Spells s left left')
      (hright : Spells s right right') : Spells s (.list left right) (.list left' right')
  | back {cmd : Cmd Span} {cmd' : Cmd (List UInt8)} (h : Spells s cmd cmd') :
      Spells s (.back cmd) (.back cmd')

theorem Spells.addArg {cmd : Cmd Span} {cmd' : Cmd (List UInt8)} {w : Span} {text : List UInt8}
    (h : Spells s cmd cmd') (hw : WordAt s w text) :
    Spells s (cmd.addArg w) (cmd'.addArg text) := by
  induction h with
  | exec h => exact .exec (List.rel_append h (.cons hw .nil))
  | redir _ hfile ih => exact .redir ih hfile
  | pipe hleft hright => exact .pipe hleft hright
  | list hleft hright => exact .list hleft hright
  | back h => exact .back h

/-- A word goes to the command below the redirections. -/
theorem addArg_wrap (cmd : Cmd (List UInt8)) (rs : List Redir) (text : List UInt8) :
    (wrap cmd rs).addArg text = wrap (cmd.addArg text) rs := by
  induction rs generalizing cmd with
  | nil => rfl
  | cons r rs ih => exact ih _

theorem wrap_append (cmd : Cmd (List UInt8)) (rs rs' : List Redir) :
    wrap cmd (rs ++ rs') = wrap (wrap cmd rs) rs' :=
  List.foldl_append

/-- The function ends, and if it returns then it has taken a first part of the tokens for
a command as in `P`. -/
def Takes (s : List UInt8) (toks : List Tok) (P : List Tok → Cmd Span → Prop) :
    Except Error (Cmd Span × ℕ) → Prop
  | .error e => e ≠ .deep
  | .ok (cmd, ps) => ∃ xs rest, toks = xs ++ rest ∧ At s ps rest ∧ P xs cmd

/-- The function returns, having taken the tokens before `rest` for a command as in `Q`. -/
def Returns (s : List UInt8) (rest : List Tok) (Q : Cmd Span → Prop)
    (r : Except Error (Cmd Span × ℕ)) : Prop :=
  ∃ cmd ps, r = .ok (cmd, ps) ∧ At s ps rest ∧ Q cmd

/-- More tokens before those that were taken. -/
theorem Takes.prepend {P P' : List Tok → Cmd Span → Prop} {r : Except Error (Cmd Span × ℕ)}
    (h : Takes s rest P r) (ys : List Tok) (hP : ∀ zs cmd, P zs cmd → P' (ys ++ zs) cmd) :
    Takes s (ys ++ rest) P' r := by
  cases r with
  | error e => exact h
  | ok r =>
      obtain ⟨zs, rest', rfl, hat, hcmd⟩ := h
      exact ⟨ys ++ zs, rest', (List.append_assoc _ _ _).symm, hat, hP zs r.1 hcmd⟩

/-! ## Redirections -/

/-- One round of `parseredirs`. -/
theorem parseredirs_step (hs : 0 ∉ s) {op : Tok} {ts : List Tok} (cmd : Cmd Span)
    (h : At s ps (op :: ts)) (hop : leads [60, 62] (op :: ts) = true) :
    (∃ text ts' w r, ts = .word text :: ts' ∧ WordAt s w text ∧
        IsRedir [op, .word text] r ∧ r.file = text ∧ ∃ ps', At s ps' ts' ∧
        parseredirs (s ++ [0]) s.length (k + 1) cmd ps =
          parseredirs (s ++ [0]) s.length k (.redir cmd w r.mode r.fd) ps') ∨
      (∀ text ts', ts ≠ .word text :: ts') ∧
        parseredirs (s ++ [0]) s.length (k + 1) cmd ps = .error .file := by
  obtain ⟨ps₁, hpeek, hat₁, -⟩ := h.peek hs [60, 62] (by decide)
  rw [hop] at hpeek
  obtain ⟨hcode, hat₂, -⟩ := hat₁.gettoken_cons hs
  rw [parseredirs, hpeek]
  dsimp only
  by_cases hfile : ∃ text ts', ts = .word text :: ts'
  · obtain ⟨text, ts', rfl⟩ := hfile
    obtain ⟨hword, hat₃, hat⟩ := hat₂.gettoken_cons hs
    left
    rw [if_neg (by simp [hword, Tok.code]), hcode]
    have hops : op = .input ∨ op = .output ∨ op = .append := by
      cases op with
      | input => exact Or.inl rfl
      | output => exact Or.inr (Or.inl rfl)
      | append => exact Or.inr (Or.inr rfl)
      | _ => simp [leads, Tok.lead, Tok.code] at hop
    rcases hops with rfl | rfl | rfl
    · exact ⟨text, ts', _, _, rfl, hat text rfl, .input text, rfl, _, hat₃, rfl⟩
    · exact ⟨text, ts', _, _, rfl, hat text rfl, .output text, rfl, _, hat₃, rfl⟩
    · exact ⟨text, ts', _, _, rfl, hat text rfl, .append text, rfl, _, hat₃, rfl⟩
  · right
    refine ⟨fun text ts' hts => hfile ⟨text, ts', hts⟩, if_pos ?_⟩
    cases ts with
    | nil =>
        rw [hat₂.gettoken_nil.1]
        decide
    | cons t ts' =>
        rw [(hat₂.gettoken_cons hs).1]
        cases t with
        | word text => exact absurd ⟨text, ts', rfl⟩ hfile
        | _ => decide

theorem parseredirs_stop (hs : 0 ∉ s) (cmd : Cmd Span) (h : At s ps toks)
    (hstop : leads [60, 62] toks = false) :
    ∃ ps', At s ps' toks ∧
      parseredirs (s ++ [0]) s.length (k + 1) cmd ps = .ok (cmd, ps') := by
  obtain ⟨ps', hpeek, hat, -⟩ := h.peek hs [60, 62] (by decide)
  rw [hstop] at hpeek
  refine ⟨ps', hat, ?_⟩
  rw [parseredirs, hpeek]

theorem parseredirs_sound (hs : 0 ∉ s) (cmd : Cmd Span) (h : At s ps toks)
    (hk : toks.length < k) :
    Takes s toks (fun xs cmd' => ∃ rs, Redirs xs rs ∧
      ∀ c, Spells s cmd c → Spells s cmd' (wrap c rs))
      (parseredirs (s ++ [0]) s.length k cmd ps) := by
  induction k generalizing ps toks cmd with
  | zero => omega
  | succ k ih =>
      cases hlead : leads [60, 62] toks with
      | false =>
          obtain ⟨ps', hat, hret⟩ := parseredirs_stop (k := k) hs cmd h hlead
          rw [hret]
          exact ⟨[], toks, rfl, hat, [], .nil, fun c hc => hc⟩
      | true =>
          cases toks with
          | nil => cases hlead
          | cons op ts =>
              rcases parseredirs_step (k := k) hs cmd h hlead with
                ⟨text, ts', w, r, rfl, hword, hredir, htext, ps', hat, hret⟩ | ⟨-, hret⟩
              · rw [hret]
                have hlen : ts'.length < k := by
                  simp only [List.length_cons] at hk
                  omega
                refine (ih _ hat hlen).prepend [op, .word text] ?_
                rintro zs cmd' ⟨rs, hrs, hspells⟩
                refine ⟨r :: rs, .cons hredir hrs, fun c hc => hspells _ (.redir hc ?_)⟩
                rw [htext]
                exact hword
              · rw [hret]
                exact nofun

theorem isRedir_leads {r : Redir} (h : IsRedir xs r) :
    ∃ op text, xs = [op, .word text] ∧ ∀ ts, leads [60, 62] (op :: ts) = true := by
  cases h with
  | input text => exact ⟨_, text, rfl, fun _ => rfl⟩
  | output text => exact ⟨_, text, rfl, fun _ => rfl⟩
  | append text => exact ⟨_, text, rfl, fun _ => rfl⟩

/-- A redirection is only one thing. -/
theorem isRedir_unique {r r' : Redir} (h : IsRedir xs r) (h' : IsRedir xs r') : r = r' := by
  cases h with
  | input text => cases h'; rfl
  | output text => cases h'; rfl
  | append text => cases h'; rfl

theorem parseredirs_complete (hs : 0 ∉ s) (cmd : Cmd Span) {rs : List Redir} (hrs : Redirs xs rs)
    (h : At s ps (xs ++ rest)) (hrest : leads [60, 62] rest = false)
    (hk : (xs ++ rest).length < k) :
    Returns s rest (fun cmd' => ∀ c, Spells s cmd c → Spells s cmd' (wrap c rs))
      (parseredirs (s ++ [0]) s.length k cmd ps) := by
  induction hrs generalizing k ps cmd with
  | nil =>
      obtain ⟨k, rfl⟩ : ∃ m, k = m + 1 := ⟨k - 1, by omega⟩
      obtain ⟨ps', hat, hret⟩ := parseredirs_stop (k := k) hs cmd h hrest
      exact ⟨cmd, ps', hret, hat, fun c hc => hc⟩
  | @cons xs ys r rs hredir hrs ih =>
      obtain ⟨k, rfl⟩ : ∃ m, k = m + 1 := ⟨k - 1, by omega⟩
      obtain ⟨op, text, rfl, hlead⟩ := isRedir_leads hredir
      rw [List.append_assoc] at h hk
      rcases parseredirs_step (k := k) hs cmd h (hlead _) with
        ⟨text', ts', w, r', hts, hword, hredir', htext, ps', hat, hret⟩ | ⟨hbad, -⟩
      · obtain ⟨hword', rfl⟩ := List.cons.inj hts
        obtain rfl := Tok.word.inj hword'
        obtain rfl := isRedir_unique hredir hredir'
        have hlen : (ys ++ rest).length < k := by
          simp only [List.cons_append, List.length_cons] at hk
          change (ys ++ rest).length + 1 + 1 < k + 1 at hk
          omega
        obtain ⟨cmd', ps'', hret', hat', hspells⟩ := ih _ hat hlen
        refine ⟨cmd', ps'', hret.trans hret', hat', fun c hc => hspells _ (.redir hc ?_)⟩
        rw [htext]
        exact hword
      · exact absurd rfl (hbad text (ys ++ rest))

/-! ## Words -/

/-- The tokens that end a simple command. -/
def ends (toks : List Tok) : Bool :=
  toks.isEmpty || leads [124, 41, 38, 59] toks

theorem parseargs_stop (hs : 0 ∉ s) (ret : Cmd Span) (argc : ℕ) (h : At s ps toks)
    (hends : ends toks = true) :
    ∃ ps', At s ps' toks ∧
      parseargs (s ++ [0]) s.length (k + 1) ret argc ps = .ok (ret, ps') := by
  obtain ⟨ps', hpeek, hat, -⟩ := h.peek hs [124, 41, 38, 59] (by decide)
  rw [parseargs, hpeek]
  cases toks with
  | nil =>
      obtain ⟨hret, hnext⟩ := hat.gettoken_nil
      refine ⟨_, hnext, ?_⟩
      dsimp only [leads]
      rw [if_pos hret]
  | cons t ts =>
      have hleads : leads [124, 41, 38, 59] (t :: ts) = true := by simpa [ends] using hends
      rw [hleads]
      exact ⟨ps', hat, rfl⟩

/-- One round of the loop of `parseexec`. -/
theorem parseargs_step (hs : 0 ∉ s) (ret : Cmd Span) (argc : ℕ) {ts : List Tok}
    (h : At s ps (t :: ts)) (hends : ends (t :: ts) = false) :
    (∃ text w, t = .word text ∧ WordAt s w text ∧ ∃ ps', At s ps' ts ∧
        (9 ≤ argc → parseargs (s ++ [0]) s.length (k + 1) ret argc ps = .error .args) ∧
        (argc < 9 → ∀ e, parseredirs (s ++ [0]) s.length k (ret.addArg w) ps' = .error e →
          parseargs (s ++ [0]) s.length (k + 1) ret argc ps = .error e) ∧
        (argc < 9 → ∀ ret' ps'',
          parseredirs (s ++ [0]) s.length k (ret.addArg w) ps' = .ok (ret', ps'') →
          parseargs (s ++ [0]) s.length (k + 1) ret argc ps =
            parseargs (s ++ [0]) s.length k ret' (argc + 1) ps'')) ∨
      (∀ text, t ≠ .word text) ∧
        parseargs (s ++ [0]) s.length (k + 1) ret argc ps = .error .syn := by
  obtain ⟨ps', hpeek, hat, -⟩ := h.peek hs [124, 41, 38, 59] (by decide)
  have hleads : leads [124, 41, 38, 59] (t :: ts) = false := by simpa [ends] using hends
  rw [hleads] at hpeek
  obtain ⟨hcode, hnext, hword⟩ := hat.gettoken_cons hs
  rw [parseargs, hpeek]
  dsimp only
  rw [hcode]
  cases t with
  | word text =>
      left
      refine ⟨text, _, rfl, hword text rfl, _, hnext, ?_⟩
      have hword97 : (Tok.word text).code = 97 := rfl
      rw [hword97, if_neg (by decide), if_neg (by decide)]
      refine ⟨fun hmany => if_pos (Nat.succ_le_succ hmany), fun hfew e he => ?_,
        fun hfew ret' ps'' hret => ?_⟩
      · rw [if_neg (by unfold maxargs; omega), he]
      · rw [if_neg (by unfold maxargs; omega), hret]
  | _ =>
      right
      exact ⟨nofun, rfl⟩

theorem parseargs_sound (hs : 0 ∉ s) {ret : Cmd Span} {texts : List (List UInt8)}
    {rs : List Redir} (h : At s ps toks) (hk : toks.length + 1 < k)
    (hret : Spells s ret (wrap (.exec texts) rs)) (hfew : texts.length ≤ 9) :
    Takes s toks (fun xs cmd => ∃ texts' rs', Args xs texts' rs' ∧
      (texts ++ texts').length ≤ 9 ∧
      Spells s cmd (wrap (.exec (texts ++ texts')) (rs ++ rs')))
      (parseargs (s ++ [0]) s.length k ret texts.length ps) := by
  induction k generalizing ps toks ret texts rs with
  | zero => omega
  | succ k ih =>
      cases hends : ends toks with
      | true =>
          obtain ⟨ps', hat, hstop⟩ := parseargs_stop (k := k) hs ret texts.length h hends
          rw [hstop]
          refine ⟨[], toks, rfl, hat, [], [], .nil, ?_, ?_⟩
          · rwa [List.append_nil]
          · rwa [List.append_nil, List.append_nil]
      | false =>
          cases toks with
          | nil => cases hends
          | cons t ts =>
              rw [List.length_cons] at hk
              rcases parseargs_step (k := k) hs ret texts.length h hends with
                ⟨text, w, rfl, hw, ps', hat, hmany, herr, hok⟩ | ⟨-, hsyn⟩
              · by_cases hlimit : texts.length < 9
                · have hadd : Spells s (ret.addArg w) (wrap (.exec (texts ++ [text])) rs) := by
                    have hspells := hret.addArg hw
                    rwa [addArg_wrap] at hspells
                  have hredirs := parseredirs_sound (k := k) hs (ret.addArg w) hat (by omega)
                  cases hres : parseredirs (s ++ [0]) s.length k (ret.addArg w) ps' with
                  | error e =>
                      rw [herr hlimit e hres]
                      rw [hres] at hredirs
                      exact hredirs
                  | ok r =>
                      obtain ⟨ret', ps''⟩ := r
                      rw [hok hlimit ret' ps'' hres]
                      rw [hres] at hredirs
                      obtain ⟨ys, rest, rfl, hat', rs₁, hrs₁, hwrap⟩ := hredirs
                      have hspells := hwrap _ hadd
                      rw [← wrap_append] at hspells
                      have hlen : rest.length + 1 < k := by
                        rw [List.length_append] at hk
                        omega
                      have hone : (texts ++ [text]).length ≤ 9 := by
                        rw [List.length_append, List.length_singleton]
                        omega
                      have hmore := ih hat' hlen hspells hone
                      rw [List.length_append, List.length_singleton] at hmore
                      refine hmore.prepend (.word text :: ys) ?_
                      rintro zs cmd ⟨texts', rs', hargs, hsum, hcmd⟩
                      refine ⟨text :: texts', rs₁ ++ rs', .cons hrs₁ hargs, ?_, ?_⟩
                      · rwa [List.append_assoc] at hsum
                      · rwa [List.append_assoc, List.append_assoc] at hcmd
                · rw [hmany (by omega)]
                  exact nofun
              · rw [hsyn]
                exact nofun

theorem leads_of_ends (h : ends toks = true) : leads [60, 62] toks = false := by
  cases toks with
  | nil => rfl
  | cons t ts =>
      cases t with
      | input | output | append => cases h
      | _ => rfl

theorem Args.leads {texts : List (List UInt8)} {rs : List Redir} (h : Args xs texts rs)
    (hrest : Sh.leads [60, 62] rest = false) : Sh.leads [60, 62] (xs ++ rest) = false := by
  cases h with
  | nil => exact hrest
  | cons => rfl

theorem parseargs_complete (hs : 0 ∉ s) {ret : Cmd Span} {texts texts' : List (List UInt8)}
    {rs rs' : List Redir} (hargs : Args xs texts' rs') (h : At s ps (xs ++ rest))
    (hrest : ends rest = true) (hk : (xs ++ rest).length + 1 < k)
    (hret : Spells s ret (wrap (.exec texts) rs)) (hfew : (texts ++ texts').length ≤ 9) :
    Returns s rest (fun cmd => Spells s cmd (wrap (.exec (texts ++ texts')) (rs ++ rs')))
      (parseargs (s ++ [0]) s.length k ret texts.length ps) := by
  induction hargs generalizing k ps ret texts rs with
  | nil =>
      obtain ⟨k, rfl⟩ : ∃ m, k = m + 1 := ⟨k - 1, by omega⟩
      obtain ⟨ps', hat, hstop⟩ := parseargs_stop (k := k) hs ret texts.length h hrest
      refine ⟨ret, ps', hstop, hat, ?_⟩
      rwa [List.append_nil, List.append_nil]
  | @cons xs ys text texts' rs₁ rs' hrs hargs ih =>
      obtain ⟨k, rfl⟩ : ∃ m, k = m + 1 := ⟨k - 1, by omega⟩
      rw [List.cons_append, List.append_assoc] at h hk
      rw [List.length_cons] at hk
      have hlimit : texts.length < 9 := by
        simp only [List.length_append, List.length_cons] at hfew
        omega
      rcases parseargs_step (k := k) hs ret texts.length h rfl with
        ⟨text', w, htext, hw, ps', hat, -, -, hok⟩ | ⟨hbad, -⟩
      · obtain rfl := Tok.word.inj htext
        have hadd : Spells s (ret.addArg w) (wrap (.exec (texts ++ [text])) rs) := by
          have hspells := hret.addArg hw
          rwa [addArg_wrap] at hspells
        obtain ⟨ret', ps'', hres, hat', hwrap⟩ := parseredirs_complete (k := k) hs (ret.addArg w)
          hrs hat (hargs.leads (leads_of_ends hrest)) (by omega)
        have hspells := hwrap _ hadd
        rw [← wrap_append] at hspells
        have hlen : (ys ++ rest).length + 1 < k := by
          rw [List.length_append] at hk
          omega
        have hsum : (texts ++ [text] ++ texts').length ≤ 9 := by
          rw [List.append_assoc]
          exact hfew
        obtain ⟨cmd, ps₁, hcmd, hat₁, hdone⟩ := ih hat' hlen hspells hsum
        rw [List.length_append, List.length_singleton] at hcmd
        refine ⟨cmd, ps₁, (hok hlimit ret' ps'' hres).trans hcmd, hat₁, ?_⟩
        rwa [List.append_assoc, List.append_assoc] at hdone
      · exact absurd rfl (hbad text)

/-! ## The background -/

theorem parsebacks_sound (hs : 0 ∉ s) (cmd : Cmd Span) (h : At s ps toks)
    (hk : toks.length < k) :
    Takes s toks (fun xs cmd' => ∃ n, xs = List.replicate n .amp ∧
      ∀ c, Spells s cmd c → Spells s cmd' (backs c n))
      (parsebacks (s ++ [0]) s.length k cmd ps) := by
  induction k generalizing ps toks cmd with
  | zero => omega
  | succ k ih =>
      obtain ⟨ps', hpeek, hat, -⟩ := h.peek hs [38] (by decide)
      rw [parsebacks, hpeek]
      cases hlead : leads [38] toks with
      | false => exact ⟨[], toks, rfl, hat, 0, rfl, fun c hc => hc⟩
      | true =>
          cases toks with
          | nil => cases hlead
          | cons t ts =>
              obtain rfl : t = .amp := by
                cases t with
                | amp => rfl
                | _ => cases hlead
              rw [List.length_cons] at hk
              obtain ⟨-, hnext, -⟩ := hat.gettoken_cons hs
              refine (ih (.back cmd) hnext (by omega)).prepend [.amp] ?_
              rintro zs cmd' ⟨n, rfl, hspells⟩
              exact ⟨n + 1, rfl, fun c hc => hspells _ (.back hc)⟩

theorem parsebacks_complete (hs : 0 ∉ s) (cmd : Cmd Span) (n : ℕ)
    (h : At s ps (List.replicate n .amp ++ rest)) (hrest : leads [38] rest = false)
    (hk : (List.replicate n Tok.amp ++ rest).length < k) :
    Returns s rest (fun cmd' => ∀ c, Spells s cmd c → Spells s cmd' (backs c n))
      (parsebacks (s ++ [0]) s.length k cmd ps) := by
  induction n generalizing k ps cmd with
  | zero =>
      obtain ⟨k, rfl⟩ : ∃ m, k = m + 1 := ⟨k - 1, by omega⟩
      obtain ⟨ps', hpeek, hat, -⟩ := h.peek hs [38] (by decide)
      rw [List.replicate_zero, List.nil_append] at hpeek hat
      refine ⟨cmd, ps', ?_, hat, fun c hc => hc⟩
      rw [parsebacks, hpeek, hrest]
  | succ n ih =>
      obtain ⟨k, rfl⟩ : ∃ m, k = m + 1 := ⟨k - 1, by omega⟩
      rw [List.replicate_succ, List.cons_append] at h hk
      obtain ⟨ps', hpeek, hat, -⟩ := h.peek hs [38] (by decide)
      obtain ⟨-, hnext, -⟩ := hat.gettoken_cons hs
      rw [List.length_cons] at hk
      obtain ⟨cmd', ps'', hret, hat', hspells⟩ := ih (k := k) (.back cmd) hnext (by omega)
      refine ⟨cmd', ps'', ?_, hat', fun c hc => hspells _ (.back hc)⟩
      rw [parsebacks, hpeek]
      exact hret

/-! ## Commands -/

/-- What `parseline`, `parsepipe` and `parseexec` take. -/
def Takes.Derived (s : List UInt8) (nt : Nonterminal) (toks : List Tok)
    (r : Except Error (Cmd Span × ℕ)) : Prop :=
  Takes s toks (fun xs cmd => ∃ c, Derives nt xs c ∧ Spells s cmd c) r

/-- With enough depth for the tokens, each of the functions ends with a derivation. -/
structure Sound (s : List UInt8) (k : ℕ) : Prop where
  line : ∀ ps toks, At s ps toks → 4 * toks.length + 5 ≤ k →
    Takes.Derived s .line toks (parseline (s ++ [0]) s.length k ps)
  pipe : ∀ ps toks, At s ps toks → 4 * toks.length + 4 ≤ k →
    Takes.Derived s .pipe toks (parsepipe (s ++ [0]) s.length k ps)
  exec : ∀ ps toks, At s ps toks → 4 * toks.length + 3 ≤ k →
    Takes.Derived s .exec toks (parseexec (s ++ [0]) s.length k ps)
  block : ∀ ps ts, At s ps (.opening :: ts) → 4 * ts.length + 6 ≤ k →
    Takes.Derived s .exec (.opening :: ts) (parseblock (s ++ [0]) s.length k ps)

theorem Sound.parseline_succ (hs : 0 ∉ s) (h : Sound s k) (hat : At s ps toks)
    (hk : 4 * toks.length + 5 ≤ k + 1) :
    Takes.Derived s .line toks (parseline (s ++ [0]) s.length (k + 1) ps) := by
  have hpipe := h.pipe ps toks hat (by omega)
  rw [parseline]
  cases hres : parsepipe (s ++ [0]) s.length k ps with
  | error e =>
      rw [hres] at hpipe
      exact hpipe
  | ok r =>
      obtain ⟨cmd, ps₁⟩ := r
      rw [hres] at hpipe
      obtain ⟨xs, toks₁, rfl, hat₁, c, hderives, hspells⟩ := hpipe
      rw [List.length_append] at hk
      have hbacks := parsebacks_sound (k := k) hs cmd hat₁ (by omega)
      dsimp only
      cases hres₁ : parsebacks (s ++ [0]) s.length k cmd ps₁ with
      | error e =>
          rw [hres₁] at hbacks
          exact hbacks
      | ok r =>
          obtain ⟨cmd₂, ps₂⟩ := r
          rw [hres₁] at hbacks
          obtain ⟨_, toks₂, rfl, hat₂, n, rfl, hspells₂⟩ := hbacks
          rw [List.length_append] at hk
          obtain ⟨ps₃, hpeek, hat₃, -⟩ := hat₂.peek hs [59] (by decide)
          dsimp only
          rw [hpeek]
          cases hlead : leads [59] toks₂ with
          | false =>
              refine ⟨xs ++ List.replicate n .amp, toks₂, ?_, hat₃, backs c n, .alone hderives,
                hspells₂ c hspells⟩
              rw [List.append_assoc]
          | true =>
              cases toks₂ with
              | nil => cases hlead
              | cons t ts =>
                  obtain rfl : t = .semi := by
                    cases t with
                    | semi => rfl
                    | _ => cases hlead
                  obtain ⟨-, hnext, -⟩ := hat₃.gettoken_cons hs
                  rw [List.length_cons] at hk
                  have hline := h.line _ ts hnext (by omega)
                  dsimp only
                  cases hres₂ : parseline (s ++ [0]) s.length k
                      (gettoken (s ++ [0]) s.length ps₃).next with
                  | error e =>
                      rw [hres₂] at hline
                      exact hline
                  | ok r =>
                      obtain ⟨right, ps₄⟩ := r
                      rw [hres₂] at hline
                      obtain ⟨ys, rest, rfl, hat₄, c', hderives', hspells'⟩ := hline
                      refine ⟨xs ++ (List.replicate n .amp ++ .semi :: ys), rest, ?_, hat₄,
                        .list (backs c n) c', .list hderives hderives',
                        .list (hspells₂ c hspells) hspells'⟩
                      simp

theorem Sound.parsepipe_succ (hs : 0 ∉ s) (h : Sound s k) (hat : At s ps toks)
    (hk : 4 * toks.length + 4 ≤ k + 1) :
    Takes.Derived s .pipe toks (parsepipe (s ++ [0]) s.length (k + 1) ps) := by
  have hexec := h.exec ps toks hat (by omega)
  rw [parsepipe]
  cases hres : parseexec (s ++ [0]) s.length k ps with
  | error e =>
      rw [hres] at hexec
      exact hexec
  | ok r =>
      obtain ⟨cmd, ps₁⟩ := r
      rw [hres] at hexec
      obtain ⟨xs, toks₁, rfl, hat₁, c, hderives, hspells⟩ := hexec
      rw [List.length_append] at hk
      obtain ⟨ps₂, hpeek, hat₂, -⟩ := hat₁.peek hs [124] (by decide)
      dsimp only
      rw [hpeek]
      cases hlead : leads [124] toks₁ with
      | false => exact ⟨xs, toks₁, rfl, hat₂, c, .last hderives, hspells⟩
      | true =>
          cases toks₁ with
          | nil => cases hlead
          | cons t ts =>
              obtain rfl : t = .bar := by
                cases t with
                | bar => rfl
                | _ => cases hlead
              obtain ⟨-, hnext, -⟩ := hat₂.gettoken_cons hs
              rw [List.length_cons] at hk
              have hpipe := h.pipe _ ts hnext (by omega)
              dsimp only
              cases hres₂ : parsepipe (s ++ [0]) s.length k
                  (gettoken (s ++ [0]) s.length ps₂).next with
              | error e =>
                  rw [hres₂] at hpipe
                  exact hpipe
              | ok r =>
                  obtain ⟨right, ps₃⟩ := r
                  rw [hres₂] at hpipe
                  obtain ⟨ys, rest, rfl, hat₃, c', hderives', hspells'⟩ := hpipe
                  refine ⟨xs ++ .bar :: ys, rest, ?_, hat₃, .pipe c c',
                    .pipe hderives hderives', .pipe hspells hspells'⟩
                  simp

theorem Sound.parseexec_succ (hs : 0 ∉ s) (h : Sound s k) (hat : At s ps toks)
    (hk : 4 * toks.length + 3 ≤ k + 1) :
    Takes.Derived s .exec toks (parseexec (s ++ [0]) s.length (k + 1) ps) := by
  obtain ⟨ps₁, hpeek, hat₁, -⟩ := hat.peek hs [40] (by decide)
  rw [parseexec, hpeek]
  cases hlead : leads [40] toks with
  | true =>
      cases toks with
      | nil => cases hlead
      | cons t ts =>
          obtain rfl : t = .opening := by
            cases t with
            | opening => rfl
            | _ => cases hlead
          rw [List.length_cons] at hk
          exact h.block ps₁ ts hat₁ (by omega)
  | false =>
      have hredirs := parseredirs_sound (k := k) hs (.exec []) hat₁ (by omega)
      dsimp only
      cases hres : parseredirs (s ++ [0]) s.length k (.exec []) ps₁ with
      | error e =>
          rw [hres] at hredirs
          exact hredirs
      | ok r =>
          obtain ⟨ret, ps₂⟩ := r
          rw [hres] at hredirs
          obtain ⟨xs, toks₂, rfl, hat₂, rs, hrs, hspells⟩ := hredirs
          rw [List.length_append] at hk
          have hnone : Spells s ret (wrap (.exec []) rs) := hspells _ (.exec .nil)
          have hargs := parseargs_sound (k := k) hs hat₂ (by omega) hnone (Nat.zero_le 9)
          refine hargs.prepend xs ?_
          rintro zs cmd ⟨texts, rs', hargs', hfew, hcmd⟩
          exact ⟨_, .simple hrs hargs' hfew, hcmd⟩

theorem Sound.parseblock_succ (hs : 0 ∉ s) (h : Sound s k) {ts : List Tok}
    (hat : At s ps (.opening :: ts)) (hk : 4 * ts.length + 6 ≤ k + 1) :
    Takes.Derived s .exec (.opening :: ts) (parseblock (s ++ [0]) s.length (k + 1) ps) := by
  obtain ⟨ps₁, hpeek, hat₁, -⟩ := hat.peek hs [40] (by decide)
  obtain ⟨-, hnext, -⟩ := hat₁.gettoken_cons hs
  have hline := h.line _ ts hnext (by omega)
  have hlead₁ : leads [40] (.opening :: ts) = true := rfl
  rw [parseblock, hpeek, hlead₁]
  dsimp only
  cases hres : parseline (s ++ [0]) s.length k (gettoken (s ++ [0]) s.length ps₁).next with
  | error e =>
      rw [hres] at hline
      exact hline
  | ok r =>
      obtain ⟨cmd, ps₂⟩ := r
      rw [hres] at hline
      obtain ⟨xs, toks₂, rfl, hat₂, c, hderives, hspells⟩ := hline
      rw [List.length_append] at hk
      obtain ⟨ps₃, hpeek₂, hat₃, -⟩ := hat₂.peek hs [41] (by decide)
      dsimp only
      rw [hpeek₂]
      cases hlead : leads [41] toks₂ with
      | false =>
          intro hcontra
          cases hcontra
      | true =>
          cases toks₂ with
          | nil => cases hlead
          | cons t ts =>
              obtain rfl : t = .closing := by
                cases t with
                | closing => rfl
                | _ => cases hlead
              obtain ⟨-, hnext₂, -⟩ := hat₃.gettoken_cons hs
              rw [List.length_cons] at hk
              have hredirs := parseredirs_sound (k := k) hs cmd hnext₂ (by omega)
              have hsplit : Tok.opening :: (xs ++ .closing :: ts) =
                  (.opening :: (xs ++ [.closing])) ++ ts := by simp
              rw [hsplit]
              refine hredirs.prepend (.opening :: (xs ++ [.closing])) ?_
              rintro zs cmd' ⟨rs, hrs, hwrap⟩
              refine ⟨wrap c rs, ?_, hwrap c hspells⟩
              have hblock : Derives .exec (.opening :: (xs ++ .closing :: zs)) (wrap c rs) :=
                .block hderives hrs
              simpa using hblock

theorem sound (hs : 0 ∉ s) (k : ℕ) : Sound s k := by
  induction k with
  | zero => exact ⟨by omega, by omega, by omega, by omega⟩
  | succ k ih =>
      exact ⟨fun _ _ hat hk => ih.parseline_succ hs hat hk,
        fun _ _ hat hk => ih.parsepipe_succ hs hat hk,
        fun _ _ hat hk => ih.parseexec_succ hs hat hk,
        fun _ _ hat hk => ih.parseblock_succ hs hat hk⟩

/-! ## Derivable commands are returned -/

/-- What follows a part of the tokens that is derived from the nonterminal. -/
def follows : Nonterminal → List Tok → Bool
  | .line, toks => toks.isEmpty || leads [41] toks
  | .pipe, toks => toks.isEmpty || leads [41, 38, 59] toks
  | .exec, toks => ends toks

/-- The depth that is enough for a number of tokens. -/
def depth : Nonterminal → ℕ → ℕ
  | .line, n => 4 * n + 5
  | .pipe, n => 4 * n + 4
  | .exec, n => 4 * n + 3

/-- The function for a nonterminal. -/
def parse (buf : List UInt8) (es : ℕ) : Nonterminal → ℕ → ℕ → Except Error (Cmd Span × ℕ)
  | .line => parseline buf es
  | .pipe => parsepipe buf es
  | .exec => parseexec buf es

theorem follows_line (h : follows .line rest = true) :
    follows .pipe rest = true ∧ leads [38] rest = false ∧ leads [59] rest = false := by
  cases rest with
  | nil => exact ⟨rfl, rfl, rfl⟩
  | cons t ts =>
      cases t with
      | closing => exact ⟨rfl, rfl, rfl⟩
      | _ => cases h

theorem follows_pipe (h : follows .pipe rest = true) :
    follows .exec rest = true ∧ leads [124] rest = false := by
  cases rest with
  | nil => exact ⟨rfl, rfl⟩
  | cons t ts =>
      cases t with
      | closing | amp | semi => exact ⟨rfl, rfl⟩
      | _ => cases h

theorem follows_amps {n : ℕ} (h : follows .pipe rest = true) :
    follows .pipe (List.replicate n .amp ++ rest) = true := by
  cases n with
  | zero => exact h
  | succ n => rfl

/-- The tokens from `ps` on are taken for the command, up to any rest that can follow. -/
def Complete (s : List UInt8) (nt : Nonterminal) (xs : List Tok) (c : Cmd (List UInt8)) : Prop :=
  ∀ ps rest k, At s ps (xs ++ rest) → follows nt rest = true →
    depth nt (xs ++ rest).length ≤ k →
    Returns s rest (fun cmd => Spells s cmd c) (parse (s ++ [0]) s.length nt k ps)

theorem complete_block (hs : 0 ∉ s) {ys : List Tok} {c : Cmd (List UInt8)} {rs : List Redir}
    (h : Complete s .line xs c) (hrs : Redirs ys rs) :
    Complete s .exec (.opening :: (xs ++ .closing :: ys)) (wrap c rs) := by
  intro ps rest k hat hrest hk
  have hlen : (.opening :: (xs ++ .closing :: ys) ++ rest).length =
      (xs ++ .closing :: (ys ++ rest)).length + 1 := by simp
  simp only [depth, hlen] at hk
  obtain ⟨k, rfl⟩ : ∃ m, k = m + 2 := ⟨k - 2, by omega⟩
  rw [List.cons_append, List.append_assoc, List.cons_append] at hat
  obtain ⟨ps₁, hpeek₁, hat₁, -⟩ := hat.peek hs [40] (by decide)
  obtain ⟨ps₂, hpeek₂, hat₂, -⟩ := hat₁.peek hs [40] (by decide)
  have hopen : leads [40] (.opening :: (xs ++ .closing :: (ys ++ rest))) = true := rfl
  rw [hopen] at hpeek₁ hpeek₂
  obtain ⟨-, hnext₂, -⟩ := hat₂.gettoken_cons hs
  obtain ⟨cmd, ps₃, hline, hat₃, hspells⟩ := h _ _ k hnext₂ rfl (by simp only [depth]; omega)
  obtain ⟨ps₄, hpeek₄, hat₄, -⟩ := hat₃.peek hs [41] (by decide)
  have hclose : leads [41] (.closing :: (ys ++ rest)) = true := rfl
  rw [hclose] at hpeek₄
  obtain ⟨-, hnext₄, -⟩ := hat₄.gettoken_cons hs
  have hroom : (ys ++ rest).length < k := by
    rw [List.length_append, List.length_cons] at hk
    omega
  obtain ⟨cmd', ps₅, hredirs, hat₅, hwrap⟩ :=
    parseredirs_complete hs cmd hrs hnext₄ (leads_of_ends hrest) hroom
  refine ⟨cmd', ps₅, ?_, hat₅, hwrap c hspells⟩
  have hline' : parseline (s ++ [0]) s.length k (gettoken (s ++ [0]) s.length ps₂).next =
      .ok (cmd, ps₃) := hline
  rw [parse, parseexec, hpeek₁]
  dsimp only
  rw [parseblock, hpeek₂]
  dsimp only
  rw [hline']
  dsimp only
  rw [hpeek₄]
  exact hredirs

/-- A simple command does not start with a parenthesis. -/
theorem leads_simple {ys : List Tok} {texts : List (List UInt8)} {rs rs' : List Redir}
    (hrs : Redirs xs rs) (hargs : Args ys texts rs') (hrest : ends rest = true) :
    leads [40] (xs ++ ys ++ rest) = false := by
  cases hrs with
  | nil =>
      cases hargs with
      | nil =>
          cases rest with
          | nil => rfl
          | cons t ts =>
              cases t with
              | opening => cases hrest
              | _ => rfl
      | cons => rfl
  | cons hredir =>
      cases hredir with
      | input => rfl
      | output => rfl
      | append => rfl

theorem complete_simple (hs : 0 ∉ s) {ys : List Tok} {texts : List (List UInt8)}
    {rs rs' : List Redir} (hrs : Redirs xs rs) (hargs : Args ys texts rs')
    (hfew : texts.length ≤ 9) :
    Complete s .exec (xs ++ ys) (wrap (.exec texts) (rs ++ rs')) := by
  intro ps rest k hat hrest hk
  simp only [depth] at hk
  obtain ⟨k, rfl⟩ : ∃ m, k = m + 1 := ⟨k - 1, by omega⟩
  obtain ⟨ps₁, hpeek, hat₁, -⟩ := hat.peek hs [40] (by decide)
  rw [leads_simple hrs hargs hrest] at hpeek
  rw [List.append_assoc] at hat₁ hk
  obtain ⟨ret, ps₂, hredirs, hat₂, hwrap⟩ := parseredirs_complete (k := k) hs (.exec []) hrs hat₁
    (hargs.leads (leads_of_ends hrest)) (by omega)
  have hnone : Spells s ret (wrap (.exec []) rs) := hwrap _ (.exec .nil)
  have hroom : (ys ++ rest).length + 1 < k := by
    rw [List.length_append] at hk
    omega
  obtain ⟨cmd, ps₃, hret, hat₃, hspells⟩ :=
    parseargs_complete hs hargs hat₂ hrest hroom hnone (by simpa using hfew)
  refine ⟨cmd, ps₃, ?_, hat₃, hspells⟩
  rw [parse, parseexec, hpeek]
  dsimp only
  rw [hredirs]
  exact hret

theorem complete_last (hs : 0 ∉ s) {c : Cmd (List UInt8)} (h : Complete s .exec xs c) :
    Complete s .pipe xs c := by
  intro ps rest k hat hrest hk
  simp only [depth] at hk
  obtain ⟨k, rfl⟩ : ∃ m, k = m + 1 := ⟨k - 1, by omega⟩
  obtain ⟨hfollow, hlead⟩ := follows_pipe hrest
  obtain ⟨cmd, ps₁, hexec, hat₁, hspells⟩ := h ps rest k hat hfollow (by simp only [depth]; omega)
  obtain ⟨ps₂, hpeek, hat₂, -⟩ := hat₁.peek hs [124] (by decide)
  rw [hlead] at hpeek
  refine ⟨cmd, ps₂, ?_, hat₂, hspells⟩
  have hexec' : parseexec (s ++ [0]) s.length k ps = .ok (cmd, ps₁) := hexec
  rw [parse, parsepipe, hexec']
  dsimp only
  rw [hpeek]

theorem complete_pipe (hs : 0 ∉ s) {ys : List Tok} {c c' : Cmd (List UInt8)}
    (h : Complete s .exec xs c) (h' : Complete s .pipe ys c') :
    Complete s .pipe (xs ++ .bar :: ys) (.pipe c c') := by
  intro ps rest k hat hrest hk
  rw [List.append_assoc, List.cons_append] at hat hk
  simp only [depth] at hk
  obtain ⟨k, rfl⟩ : ∃ m, k = m + 1 := ⟨k - 1, by omega⟩
  obtain ⟨cmd, ps₁, hexec, hat₁, hspells⟩ := h ps _ k hat rfl (by simp only [depth]; omega)
  obtain ⟨ps₂, hpeek, hat₂, -⟩ := hat₁.peek hs [124] (by decide)
  have hbar : leads [124] (.bar :: (ys ++ rest)) = true := rfl
  rw [hbar] at hpeek
  obtain ⟨-, hnext, -⟩ := hat₂.gettoken_cons hs
  rw [List.length_append, List.length_cons] at hk
  obtain ⟨right, ps₃, hpipe, hat₃, hspells'⟩ :=
    h' _ rest k hnext hrest (by simp only [depth]; omega)
  refine ⟨.pipe cmd right, ps₃, ?_, hat₃, .pipe hspells hspells'⟩
  have hexec' : parseexec (s ++ [0]) s.length k ps = .ok (cmd, ps₁) := hexec
  have hpipe' : parsepipe (s ++ [0]) s.length k (gettoken (s ++ [0]) s.length ps₂).next =
      .ok (right, ps₃) := hpipe
  rw [parse, parsepipe, hexec']
  dsimp only
  rw [hpeek]
  dsimp only
  rw [hpipe']

theorem complete_alone (hs : 0 ∉ s) {c : Cmd (List UInt8)} (n : ℕ) (h : Complete s .pipe xs c) :
    Complete s .line (xs ++ List.replicate n .amp) (backs c n) := by
  intro ps rest k hat hrest hk
  rw [List.append_assoc] at hat hk
  simp only [depth] at hk
  obtain ⟨k, rfl⟩ : ∃ m, k = m + 1 := ⟨k - 1, by omega⟩
  obtain ⟨hfollow, hamp, hsemi⟩ := follows_line hrest
  obtain ⟨cmd, ps₁, hpipe, hat₁, hspells⟩ :=
    h ps _ k hat (follows_amps hfollow) (by simp only [depth]; omega)
  have hroom : (List.replicate n Tok.amp ++ rest).length < k := by
    rw [List.length_append] at hk
    omega
  obtain ⟨cmd₂, ps₂, hbacks, hat₂, hspells₂⟩ := parsebacks_complete hs cmd n hat₁ hamp hroom
  obtain ⟨ps₃, hpeek, hat₃, -⟩ := hat₂.peek hs [59] (by decide)
  rw [hsemi] at hpeek
  refine ⟨cmd₂, ps₃, ?_, hat₃, hspells₂ c hspells⟩
  have hpipe' : parsepipe (s ++ [0]) s.length k ps = .ok (cmd, ps₁) := hpipe
  rw [parse, parseline, hpipe']
  dsimp only
  rw [hbacks]
  dsimp only
  rw [hpeek]

theorem complete_list (hs : 0 ∉ s) {ys : List Tok} {c c' : Cmd (List UInt8)} (n : ℕ)
    (h : Complete s .pipe xs c) (h' : Complete s .line ys c') :
    Complete s .line (xs ++ (List.replicate n .amp ++ .semi :: ys)) (.list (backs c n) c') := by
  intro ps rest k hat hrest hk
  rw [List.append_assoc, List.append_assoc, List.cons_append] at hat hk
  simp only [depth] at hk
  obtain ⟨k, rfl⟩ : ∃ m, k = m + 1 := ⟨k - 1, by omega⟩
  obtain ⟨cmd, ps₁, hpipe, hat₁, hspells⟩ :=
    h ps _ k hat (follows_amps rfl) (by simp only [depth]; omega)
  rw [List.length_append] at hk
  obtain ⟨cmd₂, ps₂, hbacks, hat₂, hspells₂⟩ :=
    parsebacks_complete (k := k) hs cmd n hat₁ rfl (by omega)
  obtain ⟨ps₃, hpeek, hat₃, -⟩ := hat₂.peek hs [59] (by decide)
  have hsemi : leads [59] (.semi :: (ys ++ rest)) = true := rfl
  rw [hsemi] at hpeek
  obtain ⟨-, hnext, -⟩ := hat₃.gettoken_cons hs
  rw [List.length_append, List.length_cons] at hk
  obtain ⟨right, ps₄, hline, hat₄, hspells'⟩ :=
    h' _ rest k hnext hrest (by simp only [depth]; omega)
  refine ⟨.list cmd₂ right, ps₄, ?_, hat₄, .list (hspells₂ c hspells) hspells'⟩
  have hpipe' : parsepipe (s ++ [0]) s.length k ps = .ok (cmd, ps₁) := hpipe
  have hline' : parseline (s ++ [0]) s.length k (gettoken (s ++ [0]) s.length ps₃).next =
      .ok (right, ps₄) := hline
  rw [parse, parseline, hpipe']
  dsimp only
  rw [hbacks]
  dsimp only
  rw [hpeek]
  dsimp only
  rw [hline']

theorem complete (hs : 0 ∉ s) {nt : Nonterminal} {c : Cmd (List UInt8)} (h : Derives nt xs c) :
    Complete s nt xs c := by
  induction h with
  | block _ hrs ih => exact complete_block hs ih hrs
  | simple hrs hargs hfew => exact complete_simple hs hrs hargs hfew
  | last _ ih => exact complete_last hs ih
  | pipe _ _ ih ih' => exact complete_pipe hs ih ih'
  | alone _ ih => exact complete_alone hs _ ih
  | list _ _ ih ih' => exact complete_list hs _ ih ih'

end Sh

end Xv6
