import Xv6.Sh.Grammar

/-!
# Reading tokens off the buffer

`At s ps toks` says that `toks` are the tokens of the line from the offset `ps` on.
This is all that the parser needs to know of an offset: `peek` looks at the first of
the tokens, and `gettoken` takes it.
-/

namespace Xv6

namespace Sh

variable {s : List UInt8} {ps n : ℕ} {toks : List Tok} {t : Tok} {c : UInt8}

/-! ## Offsets and rests of the line -/

theorem byteAt_of_drop {cs : List UInt8} (h : s.drop ps = c :: cs) :
    byteAt (s ++ [0]) ps = c ∧ ps < s.length ∧ s.drop (ps + 1) = cs := by
  have hlt : ps < s.length := by
    by_contra hge
    rw [List.drop_eq_nil_of_le (by omega)] at h
    cases h
  rw [List.drop_eq_getElem_cons hlt] at h
  obtain ⟨hc, hcs⟩ := List.cons.inj h
  refine ⟨?_, hlt, hcs⟩
  unfold byteAt
  rw [List.getD_eq_getElem?_getD, List.getElem?_append_left hlt, List.getElem?_eq_getElem hlt]
  exact hc

theorem byteAt_end (h : s.drop ps = []) : byteAt (s ++ [0]) ps = 0 := by
  have hge : s.length ≤ ps := List.drop_eq_nil_iff.mp h
  unfold byteAt
  rw [List.getD_eq_getElem?_getD, List.getElem?_append_right hge]
  cases hsub : ps - s.length with
  | zero => rfl
  | succ k => rfl

/-- A scan passes over the characters that satisfy `p`. -/
theorem scan_spec (p : UInt8 → Bool) (hps : ps ≤ s.length) (hn : n = s.length - ps) :
    ps + ((s.drop ps).takeWhile p).length = scan p (s ++ [0]) n ps ∧
      scan p (s ++ [0]) n ps ≤ s.length ∧
      s.drop (scan p (s ++ [0]) n ps) = (s.drop ps).dropWhile p := by
  induction n generalizing ps with
  | zero =>
      have hend : s.drop ps = [] := List.drop_eq_nil_of_le (by omega)
      rw [hend]
      exact ⟨rfl, hps, hend⟩
  | succ n ih =>
      cases hdrop : s.drop ps with
      | nil =>
          have := List.drop_eq_nil_iff.mp hdrop
          omega
      | cons c cs =>
          obtain ⟨hbyte, hlt, hcs⟩ := byteAt_of_drop hdrop
          rw [scan, hbyte, List.takeWhile_cons, List.dropWhile_cons]
          cases hp : p c with
          | false => exact ⟨rfl, hps, hdrop⟩
          | true =>
              have hnext : n = s.length - (ps + 1) := by omega
              obtain ⟨hlen, hle, hrest⟩ := ih (by omega) hnext
              rw [hcs] at hlen hrest
              simp only [if_true, List.length_cons]
              exact ⟨by omega, hle, hrest⟩

/-! ## Tokens -/

theorem tokens_nil : tokens [] = [] := by
  rw [tokens]

theorem tokens_space {cs : List UInt8} (h : isSpace c = true) : tokens (c :: cs) = tokens cs := by
  rw [tokens, if_pos h]

theorem tokens_dropWhile (cs : List UInt8) : tokens (cs.dropWhile isSpace) = tokens cs := by
  induction cs with
  | nil => rfl
  | cons c cs ih =>
      rw [List.dropWhile_cons]
      split
      · rename_i h
        rw [tokens_space h]
        exact ih
      · rfl

/-- The tokens of the line from `ps` on are `toks`. -/
structure At (s : List UInt8) (ps : ℕ) (toks : List Tok) : Prop where
  le : ps ≤ s.length
  tokens : tokens (s.drop ps) = toks

/-- The word of the line between two offsets, with nothing of a word after it. -/
structure WordAt (s : List UInt8) (w : Span) (text : List UInt8) : Prop where
  le : w.2 ≤ s.length
  length : w.1 + text.length = w.2
  cut : s.drop w.1 = text ++ s.drop w.2
  chars : ∀ c ∈ text, inWord c = true
  stop : ∀ c ∈ (s.drop w.2).head?, inWord c = false

/-- What `gettoken` returns for a token. -/
def Tok.code : Tok → UInt8
  | .input => 60
  | .output => 62
  | .append => 43
  | .bar => 124
  | .amp => 38
  | .semi => 59
  | .opening => 40
  | .closing => 41
  | .word _ => 97

/-- The symbol a token starts with, if it is not a word. -/
def Tok.lead : Tok → UInt8
  | .append => 62
  | t => t.code

/-- The tokens start with one of the symbols. -/
def leads (symbols : List UInt8) : List Tok → Bool
  | [] => false
  | t :: _ => t.lead ∈ symbols

/-- After the white space there is a token or the end of the line. -/
theorem At.skip (h : At s ps toks) :
    At s (scan isSpace (s ++ [0]) (s.length - ps) ps) toks ∧
      ∀ c ∈ (s.drop (scan isSpace (s ++ [0]) (s.length - ps) ps)).head?, isSpace c = false := by
  obtain ⟨-, hle, hdrop⟩ := scan_spec isSpace h.le rfl
  refine ⟨⟨hle, ?_⟩, ?_⟩
  · rw [hdrop, tokens_dropWhile]
    exact h.tokens
  · rw [hdrop]
    intro c hc
    have hnot := List.head?_dropWhile_not isSpace (s.drop ps)
    rw [Option.mem_def.mp hc] at hnot
    exact hnot

theorem symbolTok_code (h : isSymbol c = true) (hc : c ≠ 62) : (symbolTok c).code = c := by
  simp only [isSymbol, decide_eq_true_eq] at h
  rcases h with rfl | rfl | rfl | rfl | rfl | rfl | rfl
  all_goals first
    | rfl
    | exact absurd rfl hc

/-- The first token is read off the first character that is not white space. -/
theorem token_spec {q : ℕ} {ts : List Tok} (hs : 0 ∉ s) (h : At s q (t :: ts))
    (hhead : ∀ c ∈ (s.drop q).head?, isSpace c = false) :
    ∃ eq, token (s ++ [0]) s.length q = (t.code, eq) ∧ At s eq ts ∧
      (∀ text, t = .word text → WordAt s (q, eq) text) ∧
      ∀ c, isSymbol c = true → (byteAt (s ++ [0]) q = c ↔ t.lead = c) := by
  have htok := h.tokens
  cases hdrop : s.drop q with
  | nil =>
      rw [hdrop, tokens_nil] at htok
      cases htok
  | cons c cs =>
      obtain ⟨hbyte, hlt, hcs⟩ := byteAt_of_drop hdrop
      have hspace : isSpace c = false := hhead c (by rw [hdrop]; rfl)
      have hzero : c ≠ 0 := by
        rintro rfl
        exact hs (List.mem_of_mem_drop (by rw [hdrop]; simp))
      rw [hdrop, tokens, if_neg (by simp [hspace])] at htok
      unfold token
      simp only [hbyte, if_neg hzero]
      by_cases hgt : c = 62
      · rw [if_pos hgt] at htok ⊢
        have hnext : byteAt (s ++ [0]) (q + 1) = 62 ↔ cs.head? = some 62 := by
          cases cs with
          | nil =>
              rw [byteAt_end hcs]
              decide
          | cons d ds =>
              rw [(byteAt_of_drop hcs).1]
              simp
        by_cases hgtgt : cs.head? = some 62
        · rw [if_pos hgtgt] at htok
          rw [if_pos (hnext.mpr hgtgt)]
          obtain ⟨rfl, rfl⟩ := List.cons.inj htok
          cases cs with
          | nil => cases hgtgt
          | cons d ds =>
              obtain ⟨-, hlt', hds⟩ := byteAt_of_drop hcs
              refine ⟨q + 2, rfl, ⟨by omega, by rw [hds]; rfl⟩, ?_, fun x _ => ?_⟩
              · intro text htext
                cases htext
              · rw [hgt]
                rfl
        · rw [if_neg hgtgt] at htok
          rw [if_neg fun hbad => hgtgt (hnext.mp hbad)]
          obtain ⟨rfl, rfl⟩ := List.cons.inj htok
          refine ⟨q + 1, by rw [hgt]; rfl, ⟨by omega, by rw [hcs]⟩, ?_, fun x _ => ?_⟩
          · intro text htext
            cases htext
          · rw [hgt]
            rfl
      · rw [if_neg hgt] at htok ⊢
        by_cases hsym : isSymbol c = true
        · rw [if_pos hsym] at htok ⊢
          obtain ⟨rfl, rfl⟩ := List.cons.inj htok
          have hcode := symbolTok_code hsym hgt
          refine ⟨q + 1, by rw [hcode], ⟨by omega, by rw [hcs]⟩, ?_, fun x _ => ?_⟩
          · intro text htext
            simp only [symbolTok] at htext
            repeat' split at htext
            all_goals cases htext
          · have hlead : (symbolTok c).lead = (symbolTok c).code := by
              unfold symbolTok
              repeat' split
              all_goals rfl
            rw [hlead, hcode]
        · rw [if_neg hsym] at htok ⊢
          obtain ⟨rfl, rfl⟩ := List.cons.inj htok
          have hword : inWord c = true := by
            simp only [inWord, hspace, Bool.eq_false_iff.mpr hsym]
            rfl
          obtain ⟨hlen, hle, hrest⟩ := scan_spec inWord h.le rfl
          rw [hdrop, List.takeWhile_cons_of_pos hword] at hlen
          rw [hdrop, List.dropWhile_cons_of_pos hword] at hrest
          refine ⟨_, rfl, ⟨hle, by rw [hrest]⟩, ?_, fun x hx => ?_⟩
          · intro text htext
            obtain rfl := Tok.word.inj htext
            refine ⟨hle, hlen, ?_, ?_, ?_⟩
            · change s.drop q = _ ++ s.drop (scan _ _ _ _)
              rw [hrest, hdrop, List.cons_append, List.takeWhile_append_dropWhile]
            · intro d hd
              rcases List.mem_cons.mp hd with rfl | hd
              · exact hword
              · exact List.all_eq_true.mp List.all_takeWhile d hd
            · change ∀ d ∈ (s.drop (scan _ _ _ _)).head?, _
              rw [hrest]
              intro d hd
              have hnot := List.head?_dropWhile_not inWord cs
              rw [Option.mem_def.mp hd] at hnot
              exact hnot
          · constructor
            · rintro rfl
              exact absurd hx hsym
            · intro hlead
              obtain rfl : 97 = x := hlead
              exact absurd hx (by decide)

/-! ## `gettoken` and `peek` -/

theorem At.drop_nil {q : ℕ} (h : At s q [])
    (hhead : ∀ c ∈ (s.drop q).head?, isSpace c = false) : s.drop q = [] := by
  have htok := h.tokens
  cases hdrop : s.drop q with
  | nil => rfl
  | cons c cs =>
      rw [hdrop, Sh.tokens, if_neg (by simp [hhead c (by rw [hdrop]; rfl)])] at htok
      repeat' split at htok
      all_goals cases htok

theorem At.gettoken_nil (h : At s ps []) :
    (gettoken (s ++ [0]) s.length ps).ret = 0 ∧
      At s (gettoken (s ++ [0]) s.length ps).next [] := by
  obtain ⟨hat, hhead⟩ := h.skip
  have hbyte := byteAt_end (hat.drop_nil hhead)
  unfold gettoken token
  simp only [hbyte, if_true]
  exact ⟨trivial, hat.skip.1⟩

theorem At.gettoken_cons {ts : List Tok} (hs : 0 ∉ s) (h : At s ps (t :: ts)) :
    (gettoken (s ++ [0]) s.length ps).ret = t.code ∧
      At s (gettoken (s ++ [0]) s.length ps).next ts ∧
      ∀ text, t = .word text → WordAt s ((gettoken (s ++ [0]) s.length ps).q,
        (gettoken (s ++ [0]) s.length ps).eq) text := by
  obtain ⟨hat, hhead⟩ := h.skip
  obtain ⟨eq, htoken, hrest, hword, -⟩ := token_spec hs hat hhead
  unfold gettoken
  simp only [htoken]
  exact ⟨trivial, hrest.skip.1, hword⟩

theorem At.peek (hs : 0 ∉ s) (h : At s ps toks) (symbols : List UInt8)
    (hall : symbols.all isSymbol = true) :
    ∃ ps', Sh.peek (s ++ [0]) s.length ps symbols = (leads symbols toks, ps') ∧
      At s ps' toks ∧ (toks = [] → ps' = s.length) := by
  have hsymbols : ∀ c ∈ symbols, isSymbol c = true := List.all_eq_true.mp hall
  obtain ⟨hat, hhead⟩ := h.skip
  refine ⟨_, ?_, hat, ?_⟩
  · unfold Sh.peek
    refine Prod.ext ?_ rfl
    cases toks with
    | nil =>
        simp [byteAt_end (hat.drop_nil hhead), leads]
    | cons t ts =>
        obtain ⟨_, -, -, -, hlead⟩ := token_spec hs hat hhead
        simp only [leads, decide_eq_decide]
        constructor
        · rintro ⟨-, hmem⟩
          rwa [(hlead _ (hsymbols _ hmem)).mp rfl]
        · intro hmem
          have hbyte := (hlead _ (hsymbols _ hmem)).mpr rfl
          rw [hbyte]
          refine ⟨fun hzero => ?_, hmem⟩
          have := hsymbols _ hmem
          rw [hzero] at this
          exact absurd this (by decide)
  · rintro rfl
    have hge := List.drop_eq_nil_iff.mp (hat.drop_nil hhead)
    exact Nat.le_antisymm hat.le hge

end Sh

end Xv6
