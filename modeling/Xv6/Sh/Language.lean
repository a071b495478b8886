import Xv6.Sh.Parsing

/-!
# The language that the shell understands

`nulterminate` stores zero bytes behind the words of a command.  There is never a
character of a word there, so no word is cut short, and each can be read as a C string
afterwards.  Together with the two halves of the parser this gives the language of
`parsecmd`.
-/

namespace Xv6

namespace Sh

variable {s buf : List UInt8} {cmd : Cmd Span} {c : Cmd (List UInt8)} {w : Span}
  {text : List UInt8} {i : ℕ}

/-- The buffer still has all the characters of words. -/
structure Kept (s buf : List UInt8) : Prop where
  length : buf.length = s.length + 1
  chars : ∀ (i : ℕ) (c : UInt8), s[i]? = some c → inWord c = true → buf[i]? = some c

theorem kept_start (s : List UInt8) : Kept s (s ++ [0]) := by
  refine ⟨by simp, fun i c hc _ => ?_⟩
  obtain ⟨hi, -⟩ := List.getElem?_eq_some_iff.mp hc
  rw [List.getElem?_append_left hi]
  exact hc

/-- A zero byte behind a word. -/
theorem Kept.set (h : Kept s buf) (hw : WordAt s w text) :
    Kept s (buf.set w.2 0) ∧ (buf.set w.2 0)[w.2]? = some 0 := by
  have hle := hw.le
  have hlen := h.length
  refine ⟨⟨by rw [List.length_set, hlen], fun i c hc hin => ?_⟩, ?_⟩
  · have hi : w.2 ≠ i := by
      rintro rfl
      have hstop := hw.stop c (by rw [List.head?_drop]; exact hc)
      rw [hstop] at hin
      cases hin
    rw [List.getElem?_set_ne hi]
    exact h.chars i c hc hin
  · rw [List.getElem?_set_self (by omega)]

/-- Zero bytes stay. -/
theorem zero_set (h : buf[i]? = some 0) (j : ℕ) : (buf.set j 0)[i]? = some 0 := by
  by_cases hij : j = i
  · subst hij
    obtain ⟨hi, -⟩ := List.getElem?_eq_some_iff.mp h
    rw [List.getElem?_set_self hi]
  · rw [List.getElem?_set_ne hij]
    exact h

/-- A word that ends in a zero byte is a C string. -/
theorem Kept.cstring (hs : 0 ∉ s) (h : Kept s buf) (hw : WordAt s w text)
    (hzero : buf[w.2]? = some 0) : Sh.cstring buf w.1 = text := by
  have hlen := hw.length
  have hcut : buf.drop w.1 = text ++ 0 :: buf.drop (w.2 + 1) := by
    refine List.ext_getElem? fun j => ?_
    rw [List.getElem?_drop]
    rcases Nat.lt_trichotomy j text.length with hj | hj | hj
    · rw [List.getElem?_append_left hj]
      have hchar : s[w.1 + j]? = some text[j] := by
        rw [← List.getElem?_drop, hw.cut, List.getElem?_append_left hj,
          List.getElem?_eq_getElem hj]
      rw [List.getElem?_eq_getElem hj]
      exact h.chars _ _ hchar (hw.chars _ (List.getElem_mem hj))
    · rw [hj, hlen, hzero, List.getElem?_append_right (Nat.le_refl _), Nat.sub_self]
      rfl
    · rw [List.getElem?_append_right (Nat.le_of_lt hj)]
      obtain ⟨m, hm⟩ : ∃ m, j - text.length = m + 1 := ⟨j - text.length - 1, by omega⟩
      rw [hm, List.getElem?_cons_succ, List.getElem?_drop]
      congr 1
      omega
  have hnonzero : ∀ c ∈ text, (decide (c ≠ 0)) = true := by
    intro c hc
    refine decide_eq_true fun hbad => hs ?_
    rw [← hbad]
    refine List.mem_of_mem_drop (i := w.1) ?_
    rw [hw.cut]
    exact List.mem_append_left _ hc
  unfold Sh.cstring
  rw [hcut, List.takeWhile_append_of_pos hnonzero, List.takeWhile_cons_of_neg (by simp),
    List.append_nil]

/-- What `nulterminate` does to a part of the buffer stays, whatever it does later. -/
structure Later (s buf buf' : List UInt8) : Prop where
  kept : Kept s buf'
  zeros : ∀ i : ℕ, buf[i]? = some 0 → buf'[i]? = some 0

theorem foldl_set {argv : List Span} {texts : List (List UInt8)} (h : Kept s buf)
    (hargv : List.Forall₂ (WordAt s) argv texts) :
    Later s buf (argv.foldl (fun buf w => buf.set w.2 0) buf) ∧
      ∀ w ∈ argv, (argv.foldl (fun buf w => buf.set w.2 0) buf)[w.2]? = some 0 := by
  induction hargv generalizing buf with
  | nil => exact ⟨⟨h, fun _ hi => hi⟩, by simp⟩
  | @cons w text argv texts hw hargv ih =>
      obtain ⟨hkept, hzero⟩ := h.set hw
      obtain ⟨hlater, hall⟩ := ih hkept
      refine ⟨⟨hlater.kept, fun i hi => hlater.zeros i (zero_set hi w.2)⟩, fun v hv => ?_⟩
      rcases List.mem_cons.mp hv with rfl | hv
      · exact hlater.zeros v.2 hzero
      · exact hall v hv

theorem Spells.later (hc : Spells s cmd c) (h : Kept s buf) :
    Later s buf (nulterminate cmd buf) := by
  induction hc generalizing buf with
  | exec hargv => exact (foldl_set h hargv).1
  | redir _ hfile ih =>
      have hcmd := ih h
      exact ⟨(hcmd.kept.set hfile).1, fun i hi => zero_set (hcmd.zeros i hi) _⟩
  | pipe _ _ ihl ihr | list _ _ ihl ihr =>
      have hleft := ihl h
      have hright := ihr hleft.kept
      exact ⟨hright.kept, fun i hi => hright.zeros i (hleft.zeros i hi)⟩
  | back _ ih => exact ih h

/-- All words of the command can be read as C strings, also after later changes. -/
theorem Spells.strings (hs : 0 ∉ s) (hc : Spells s cmd c) (h : Kept s buf)
    {buf' : List UInt8} (hlater : Later s (nulterminate cmd buf) buf') :
    cmd.strings buf' = c := by
  unfold Cmd.strings
  induction hc generalizing buf with
  | @exec argv texts hargv =>
      rw [Cmd.map]
      congr 1
      have hzeros := (foldl_set h hargv).2
      have hends : ∀ w ∈ argv, buf'[w.2]? = some 0 := fun w hw =>
        hlater.zeros w.2 (hzeros w hw)
      have hkept := hlater.kept
      clear hzeros hlater h
      induction hargv with
      | nil => rfl
      | cons hw hargv ih =>
          rw [List.map_cons, hkept.cstring hs hw (hends _ (by simp))]
          rw [ih fun w hw => hends w (by simp [hw])]
  | redir hcmd hfile ih =>
      have hkept := (hcmd.later h).kept
      rw [Cmd.map, hlater.kept.cstring hs hfile (hlater.zeros _ (hkept.set hfile).2)]
      rw [ih h ⟨hlater.kept, fun i hi => hlater.zeros i (zero_set hi _)⟩]
  | pipe hl hr ihl ihr | list hl hr ihl ihr =>
      have hleft := hl.later h
      have hright := hr.later hleft.kept
      rw [Cmd.map, ihl h ⟨hlater.kept, fun i hi => hlater.zeros i (hright.zeros i hi)⟩,
        ihr hleft.kept hlater]
  | back _ ih =>
      rw [Cmd.map, ih h hlater]

/-- There are not more tokens than characters. -/
theorem tokens_length (s : List UInt8) : (tokens s).length ≤ s.length := by
  induction hn : s.length using Nat.strongRecOn generalizing s with
  | _ n ih =>
      cases s with
      | nil => simp [tokens_nil]
      | cons c cs =>
          rw [List.length_cons] at hn
          have hrest : ∀ ds : List UInt8, ds.length ≤ cs.length → (tokens ds).length < n := by
            intro ds hds
            have := ih ds.length (by omega) ds rfl
            omega
          have hsame := hrest cs (Nat.le_refl _)
          have htail := hrest cs.tail (by rw [List.length_tail]; omega)
          have hdrop := hrest (cs.dropWhile inWord) (List.dropWhile_sublist _).length_le
          rw [tokens]
          split
          · omega
          · split
            · split
              · rw [List.length_cons]
                omega
              · rw [List.length_cons]
                omega
            · split
              · rw [List.length_cons]
                omega
              · rw [List.length_cons]
                omega

/-- What `parsecmd` returns is the line, if nothing is left over. -/
theorem parsecmd_eq_ok_iff {s buf : List UInt8} : parsecmd s = .ok (cmd, buf) ↔
    ∃ ps, parseline (s ++ [0]) s.length (4 * s.length + 5) 0 = .ok (cmd, ps) ∧
      (peek (s ++ [0]) s.length ps []).2 = s.length ∧ nulterminate cmd (s ++ [0]) = buf := by
  cases hres : parseline (s ++ [0]) s.length (4 * s.length + 5) 0 with
  | error e => simp [parsecmd, hres]
  | ok r =>
      obtain ⟨cmd', ps⟩ := r
      simp only [parsecmd, hres, Except.ok.injEq, Prod.mk.injEq]
      by_cases hend : (peek (s ++ [0]) s.length ps []).2 = s.length
      · rw [if_neg (not_not.mpr hend)]
        constructor
        · intro hok
          obtain ⟨rfl, rfl⟩ := Prod.mk.inj (Except.ok.inj hok)
          exact ⟨ps, ⟨rfl, rfl⟩, hend, rfl⟩
        · rintro ⟨_, ⟨rfl, rfl⟩, -, rfl⟩
          rfl
      · rw [if_pos hend]
        constructor
        · intro hok
          cases hok
        · rintro ⟨_, ⟨-, rfl⟩, hend', -⟩
          exact absurd hend' hend

theorem parsecmd_ne_deep {s : List UInt8}
    (h : parseline (s ++ [0]) s.length (4 * s.length + 5) 0 ≠ .error .deep) :
    parsecmd s ≠ .error .deep := by
  cases hres : parseline (s ++ [0]) s.length (4 * s.length + 5) 0 with
  | error e =>
      simp only [parsecmd, hres]
      rintro hbad
      cases hbad
      exact h hres
  | ok r =>
      simp only [parsecmd, hres]
      split
      · intro hbad
        cases hbad
      · intro hbad
        cases hbad

/-- Nothing is left over when there is no token left. -/
theorem At.leftover {ps : ℕ} {rest : List Tok} (hs : 0 ∉ s) (h : At s ps rest) :
    rest = [] ↔ (Sh.peek (s ++ [0]) s.length ps []).2 = s.length := by
  obtain ⟨ps', hpeek, hat, hnil⟩ := h.peek hs [] (by simp)
  rw [hpeek]
  refine ⟨hnil, fun hend => ?_⟩
  have htok := hat.tokens
  change ps' = s.length at hend
  rw [hend, List.drop_length, tokens_nil] at htok
  exact htok.symm

/-- For every string, the parser ends, and it returns a command with exactly the C strings
of the derivation of the tokens, if there is one. -/
theorem parsecmd_language (s : List UInt8) (hs : 0 ∉ s) :
    parsecmd s ≠ .error .deep ∧
      ∀ c, Derives .line (tokens s) c ↔
        ∃ cmd buf, parsecmd s = .ok (cmd, buf) ∧ cmd.strings buf = c := by
  have hat : At s 0 (tokens s) := ⟨Nat.zero_le _, rfl⟩
  have hdepth : 4 * (tokens s).length + 5 ≤ 4 * s.length + 5 := by
    have := tokens_length s
    omega
  have hstart := kept_start s
  have hsound := (sound hs (4 * s.length + 5)).line 0 (tokens s) hat hdepth
  constructor
  · refine parsecmd_ne_deep fun hbad => ?_
    rw [hbad] at hsound
    exact hsound rfl
  · intro c
    constructor
    · intro hderives
      have hat' : At s 0 (tokens s ++ []) := by rwa [List.append_nil]
      obtain ⟨cmd, ps, hret, hrest, hspells⟩ := complete hs hderives 0 [] (4 * s.length + 5) hat'
        rfl (by rw [List.append_nil]; exact hdepth)
      refine ⟨cmd, nulterminate cmd (s ++ [0]), ?_, ?_⟩
      · exact parsecmd_eq_ok_iff.mpr ⟨ps, hret, (hrest.leftover hs).mp rfl, rfl⟩
      · exact hspells.strings hs hstart ⟨(hspells.later hstart).kept, fun _ hi => hi⟩
    · rintro ⟨cmd, buf, hret, rfl⟩
      obtain ⟨ps, hline, hend, rfl⟩ := parsecmd_eq_ok_iff.mp hret
      rw [hline] at hsound
      obtain ⟨xs, rest, htoks, hrest, c, hderives, hspells⟩ := hsound
      obtain rfl : rest = [] := (hrest.leftover hs).mpr hend
      rw [hspells.strings hs hstart ⟨(hspells.later hstart).kept, fun _ hi => hi⟩, htoks,
        List.append_nil]
      exact hderives

/-- The bytes of a text. -/
def ascii (text : String) : List UInt8 :=
  text.toList.map fun c => c.toNat.toUInt8

theorem parsecmd_language_sort :
    ∃ c, Derives .line (tokens (ascii "sort<f|(a;b)>>c &")) c ∧
      c = .back (.pipe (.redir (.exec [ascii "sort"]) (ascii "f") 0 0)
        (.redir (.list (.exec [ascii "a"]) (.exec [ascii "b"])) (ascii "c") 513 1)) := by
  refine ⟨_, ((parsecmd_language (ascii "sort<f|(a;b)>>c &") (by decide)).2 _).mpr ?_, rfl⟩
  have hparse : (parsecmd (ascii "sort<f|(a;b)>>c &")).map (fun r => r.1.strings r.2) =
      .ok (.back (.pipe (.redir (.exec [ascii "sort"]) (ascii "f") 0 0)
        (.redir (.list (.exec [ascii "a"]) (.exec [ascii "b"])) (ascii "c") 513 1))) := by
    decide +kernel
  cases hres : parsecmd (ascii "sort<f|(a;b)>>c &") with
  | error e =>
      rw [hres] at hparse
      cases hparse
  | ok r =>
      rw [hres] at hparse
      exact ⟨r.1, r.2, rfl, Except.ok.inj hparse⟩

end Sh

end Xv6
