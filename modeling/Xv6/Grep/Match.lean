import Mathlib.Computability.Language

/-!
# The matcher of `grep`

`match`, `matchhere` and `matchstar` of `grep.c`, and what a pattern means.

A `char *` is the list of the bytes from it to the end of the array it points
into, and reading a byte behind the end gives `none`.  So a call that returns
`some` result on a string that ends with its nul has not read past the nul.
-/

namespace Xv6.Grep

/-- The byte `'*'`. -/
abbrev star : UInt8 := 42

/-- The byte `'.'`. -/
abbrev dot : UInt8 := 46

/-- The byte `'$'`. -/
abbrev dollar : UInt8 := 36

/-- The byte `'^'`. -/
abbrev caret : UInt8 := 94

/-- `matchstar`, where `here` is `matchhere` on the rest of the pattern. -/
def matchstar (here : List UInt8 → Option Bool) (c : UInt8) : List UInt8 → Option Bool
  | [] => (here []).bind fun found => if found then some true else none
  | t :: text =>
      (here (t :: text)).bind fun found =>
        if found then some true
        else if t ≠ 0 ∧ (t = c ∨ c = dot) then matchstar here c text
        else some false

/-- `matchhere`. -/
def matchhere : List UInt8 → List UInt8 → Option Bool
  | [], _ => none
  | [c], _ => if c = 0 then some true else none
  | c :: d :: re, text =>
      if c = 0 then some true
      else if d = star then matchstar (matchhere re) c text
      else if c = dollar ∧ d = 0 then text.head?.map (· = 0)
      else
        match text with
        | [] => none
        | t :: text =>
            if t ≠ 0 ∧ (c = dot ∨ c = t) then matchhere (d :: re) text else some false

/-- The loop of `match` over the suffixes of the text. -/
def matchany (here : List UInt8 → Option Bool) : List UInt8 → Option Bool
  | [] => (here []).bind fun found => if found then some true else none
  | t :: text =>
      (here (t :: text)).bind fun found =>
        if found then some true
        else if t ≠ 0 then matchany here text
        else some false

/-- `match`. -/
def matchre (re text : List UInt8) : Option Bool :=
  match re with
  | [] => none
  | c :: rest => if c = caret then matchhere rest text else matchany (matchhere re) text

/-! ## The meaning of a pattern -/

/-- An item of a pattern: a byte, or a byte with a star; the byte `'.'` stands for
any. -/
inductive Item where
  | one (c : UInt8)
  | star (c : UInt8)
  deriving DecidableEq, Repr

/-- The byte `c` of a pattern stands for the byte `t` of the text. -/
def Accepts (c t : UInt8) : Prop :=
  c = dot ∨ t = c

instance (c t : UInt8) : Decidable (Accepts c t) :=
  inferInstanceAs (Decidable (_ ∨ _))

/-- The strings that match an item. -/
def Item.lang : Item → Language UInt8
  | .one c => {w | ∃ t, w = [t] ∧ Accepts c t}
  | .star c => {w | ∀ t ∈ w, Accepts c t}

/-- The items of a pattern behind the optional `'^'`, and whether it ends with the
item `'$'`. -/
def items : List UInt8 → List Item × Bool
  | [] => ([], false)
  | [c] => if c = dollar then ([], true) else ([.one c], false)
  | c :: d :: re =>
      if d = star then (.star c :: (items re).1, (items re).2)
      else (.one c :: (items (d :: re)).1, (items (d :: re)).2)

/-- The strings that match a list of items one after the other. -/
def lang (is : List Item) : Language UInt8 :=
  (is.map Item.lang).prod

/-- Some prefix of `text` is in `L`; if `whole`, it is all of `text`. -/
def Begins (L : Language UInt8) (whole : Bool) (text : List UInt8) : Prop :=
  ∃ w ∈ L, w <+: text ∧ (whole = true → w = text)

/-- The pattern matches the text. -/
def Matches (re text : List UInt8) : Prop :=
  if re.head? = some caret then Begins (lang (items re.tail).1) (items re.tail).2 text
  else ∃ s, s <:+ text ∧ Begins (lang (items re).1) (items re).2 s

variable {L M : Language UInt8} {whole : Bool} {text : List UInt8}

theorem begins_one : Begins 1 whole text ↔ (whole = true → text = []) := by
  constructor
  · rintro ⟨w, hw, -, hend⟩ h
    rw [Language.mem_one] at hw
    exact (hend h).symm.trans hw
  · intro h
    exact ⟨[], Language.nil_mem_one, List.nil_prefix, fun hw => (h hw).symm⟩

/-- To begin with a concatenation is to begin with the first part and go on with the
second. -/
theorem begins_mul :
    Begins (L * M) whole text ↔ ∃ u v, text = u ++ v ∧ u ∈ L ∧ Begins M whole v := by
  constructor
  · rintro ⟨w, hw, ⟨rest, rfl⟩, hend⟩
    obtain ⟨u, hu, v, hv, rfl⟩ := Language.mem_mul.mp hw
    refine ⟨u, v ++ rest, by rw [List.append_assoc], hu, v, hv, List.prefix_append _ _, ?_⟩
    intro h
    have heq := hend h
    rw [List.append_assoc, List.append_cancel_left_eq] at heq
    exact heq
  · rintro ⟨u, v, rfl, hu, w, hw, ⟨rest, rfl⟩, hend⟩
    refine ⟨u ++ w, Language.append_mem_mul hu hw, ⟨rest, by rw [List.append_assoc]⟩, ?_⟩
    intro h
    conv_rhs => rw [← hend h]

theorem lang_cons (i : Item) (is : List Item) : lang (i :: is) = i.lang * lang is := rfl

theorem begins_item_one {c : UInt8} {is : List Item} :
    Begins (lang (.one c :: is)) whole text ↔
      ∃ t v, text = t :: v ∧ Accepts c t ∧ Begins (lang is) whole v := by
  rw [lang_cons, begins_mul]
  constructor
  · rintro ⟨u, v, rfl, ⟨t, rfl, ht⟩, hv⟩
    exact ⟨t, v, rfl, ht, hv⟩
  · rintro ⟨t, v, rfl, ht, hv⟩
    exact ⟨[t], v, rfl, ⟨t, rfl, ht⟩, hv⟩

theorem begins_item_star {c : UInt8} {is : List Item} :
    Begins (lang (.star c :: is)) whole text ↔
      ∃ u v, text = u ++ v ∧ (∀ t ∈ u, Accepts c t) ∧ Begins (lang is) whole v := by
  rw [lang_cons, begins_mul]
  exact Iff.rfl

/-! ## The functions compute the meaning -/

/-- A call returns, and its result says whether `P` holds. -/
def Decides (r : Option Bool) (P : Prop) : Prop :=
  ∃ b, r = some b ∧ (b = true ↔ P)

theorem Decides.congr {r : Option Bool} {P Q : Prop} (h : Decides r P) (hPQ : P ↔ Q) :
    Decides r Q := by
  obtain ⟨b, hr, hb⟩ := h
  exact ⟨b, hr, hb.trans hPQ⟩

theorem decides_true {P : Prop} (h : P) : Decides (some true) P :=
  ⟨true, rfl, by simp [h]⟩

theorem decides_false {P : Prop} (h : ¬P) : Decides (some false) P :=
  ⟨false, rfl, by simp [h]⟩

/-- `matchstar` tries the rest of the pattern behind every run of accepted bytes. -/
theorem matchstar_decides {here : List UInt8 → Option Bool} {P : List UInt8 → Prop} {c : UInt8}
    {y : List UInt8} (hnul : 0 ∉ text)
    (hhere : ∀ s, s <:+ text → Decides (here (s ++ 0 :: y)) (P s)) :
    Decides (matchstar here c (text ++ 0 :: y))
      (∃ u v, text = u ++ v ∧ (∀ t ∈ u, Accepts c t) ∧ P v) := by
  induction text with
  | nil =>
      obtain ⟨b, hb, hP⟩ := hhere [] (List.suffix_refl _)
      rw [List.nil_append] at hb ⊢
      rw [matchstar, hb, Option.bind_some]
      cases b with
      | true => exact decides_true ⟨[], [], rfl, by simp, hP.mp rfl⟩
      | false =>
          rw [if_neg Bool.false_ne_true, if_neg (by simp)]
          refine decides_false ?_
          rintro ⟨u, v, huv, -, hv⟩
          obtain ⟨-, rfl⟩ := List.append_eq_nil_iff.mp huv.symm
          exact absurd (hP.mpr hv) Bool.false_ne_true
  | cons t text ih =>
      have ht : t ≠ 0 := fun h => hnul (h ▸ List.mem_cons_self)
      obtain ⟨b, hb, hP⟩ := hhere (t :: text) (List.suffix_refl _)
      have hrest := ih (fun h => hnul (List.mem_cons_of_mem _ h))
        fun s hs => hhere s (hs.trans (List.suffix_cons t text))
      rw [List.cons_append] at hb ⊢
      rw [matchstar, hb, Option.bind_some]
      cases b with
      | true => exact decides_true ⟨[], t :: text, rfl, by simp, hP.mp rfl⟩
      | false =>
          have hnone : ¬P (t :: text) := fun h => Bool.false_ne_true (hP.mpr h)
          rw [if_neg Bool.false_ne_true]
          by_cases hacc : Accepts c t
          · rw [if_pos ⟨ht, Or.symm hacc⟩]
            apply hrest.congr
            constructor
            · rintro ⟨u, v, rfl, hu, hv⟩
              refine ⟨t :: u, v, rfl, ?_, hv⟩
              simpa using ⟨hacc, hu⟩
            · rintro ⟨u, v, huv, hu, hv⟩
              cases u with
              | nil => exact absurd (huv ▸ hv) hnone
              | cons a u =>
                  obtain ⟨rfl, rfl⟩ := List.cons.inj huv
                  exact ⟨u, v, rfl, fun x hx => hu x (List.mem_cons_of_mem _ hx), hv⟩
          · rw [if_neg fun h => hacc (Or.symm h.2)]
            refine decides_false ?_
            rintro ⟨u, v, huv, hu, hv⟩
            cases u with
            | nil => exact hnone (huv ▸ hv)
            | cons a u =>
                obtain ⟨rfl, -⟩ := List.cons.inj huv
                exact hacc (hu t List.mem_cons_self)

theorem matchhere_star {c : UInt8} {re text : List UInt8} (hc : c ≠ 0) :
    matchhere (c :: star :: re) text = matchstar (matchhere re) c text := by
  rw [matchhere.eq_def]
  simp only [if_neg hc, if_true]

theorem matchhere_end (x text : List UInt8) :
    matchhere (dollar :: 0 :: x) text = text.head?.map fun t => decide (t = 0) := by
  rw [matchhere.eq_def]
  simp only [if_neg (show dollar ≠ 0 by decide), if_neg (show (0 : UInt8) ≠ star by decide),
    and_self, if_true]

/-- One byte of the pattern against one byte of the text. -/
theorem matchhere_one {c d : UInt8} {re y : List UInt8} {Q : List UInt8 → Prop} (hc : c ≠ 0)
    (hd : d ≠ star) (hend : ¬(c = dollar ∧ d = 0)) (hnul : 0 ∉ text)
    (hrest : ∀ v, 0 ∉ v → Decides (matchhere (d :: re) (v ++ 0 :: y)) (Q v)) :
    Decides (matchhere (c :: d :: re) (text ++ 0 :: y))
      (∃ t v, text = t :: v ∧ Accepts c t ∧ Q v) := by
  cases text with
  | nil =>
      rw [List.nil_append, matchhere, if_neg hc, if_neg hd, if_neg hend]
      refine (decides_false ?_).congr Iff.rfl
      rintro ⟨t, v, h, -⟩
      cases h
  | cons t v =>
      have ht : t ≠ 0 := fun h => hnul (h ▸ List.mem_cons_self)
      have hv : 0 ∉ v := fun h => hnul (List.mem_cons_of_mem _ h)
      rw [List.cons_append, matchhere, if_neg hc, if_neg hd, if_neg hend]
      by_cases hacc : Accepts c t
      · rw [if_pos ⟨ht, hacc.imp_right Eq.symm⟩]
        apply (hrest v hv).congr
        constructor
        · exact fun h => ⟨t, v, rfl, hacc, h⟩
        · rintro ⟨t', v', heq, -, h⟩
          obtain ⟨-, rfl⟩ := List.cons.inj heq
          exact h
      · rw [if_neg fun h => hacc (h.2.imp_right Eq.symm)]
        refine decides_false ?_
        rintro ⟨t', v', heq, hacc', -⟩
        obtain ⟨rfl, -⟩ := List.cons.inj heq
        exact hacc hacc'

/-- `matchhere` at the nul of the pattern. -/
theorem matchhere_nul (x text : List UInt8) : matchhere (0 :: x) text = some true := by
  cases x <;> simp [matchhere]

/-- `matchhere` decides whether the text begins with what the pattern means. -/
theorem matchhere_decides (re : List UInt8) {x y : List UInt8} (hre : 0 ∉ re) (hnul : 0 ∉ text) :
    Decides (matchhere (re ++ 0 :: x) (text ++ 0 :: y))
      (Begins (lang (items re).1) (items re).2 text) := by
  induction re using items.induct generalizing text with
  | case1 =>
      rw [List.nil_append, matchhere_nul]
      exact decides_true (begins_one.mpr (by simp [items]))
  | case2 =>
      have hitems : items [dollar] = ([], true) := rfl
      rw [hitems]
      have hread : matchhere ([dollar] ++ 0 :: x) (text ++ 0 :: y) =
          some (decide (text = [])) := by
        rw [List.singleton_append, matchhere_end]
        cases text with
        | nil => rfl
        | cons t text =>
            have ht : t ≠ 0 := fun h => hnul (h ▸ List.mem_cons_self)
            simp [ht]
      rw [hread]
      refine ⟨_, rfl, ?_⟩
      rw [decide_eq_true_eq]
      exact (begins_one.trans (by simp)).symm
  | case3 c hdollar =>
      have hc : c ≠ 0 := fun h => hre (h ▸ List.mem_singleton_self c)
      have hitems : items [c] = ([.one c], false) := by
        rw [items, if_neg hdollar]
      rw [hitems]
      refine (matchhere_one (Q := fun v => Begins (lang []) false v) hc (by decide)
        (fun h => hdollar h.1) hnul fun v _ => ?_).congr begins_item_one.symm
      rw [matchhere_nul]
      exact decides_true (begins_one.mpr (by simp))
  | case4 c re ih =>
      have hc : c ≠ 0 := fun h => hre (h ▸ List.mem_cons_self)
      have hre' : 0 ∉ re := fun h => hre (List.mem_cons_of_mem _ (List.mem_cons_of_mem _ h))
      have hitems : items (c :: star :: re) = (.star c :: (items re).1, (items re).2) := by
        rw [items, if_pos rfl]
      rw [hitems, List.cons_append, List.cons_append, matchhere_star hc]
      refine (matchstar_decides hnul fun s hs => ?_).congr begins_item_star.symm
      exact ih hre' fun h => hnul (hs.subset h)
  | case5 c d re hstar ih =>
      have hc : c ≠ 0 := fun h => hre (h ▸ List.mem_cons_self)
      have hre' : 0 ∉ d :: re := fun h => hre (List.mem_cons_of_mem _ h)
      have hd : d ≠ 0 := fun h => hre' (h ▸ List.mem_cons_self)
      have hitems : items (c :: d :: re) = (.one c :: (items (d :: re)).1, (items (d :: re)).2) := by
        rw [items, if_neg hstar]
      rw [hitems]
      refine (matchhere_one hc hstar (fun h => hd h.2) hnul fun v hv => ?_).congr
        begins_item_one.symm
      exact ih hre' hv

/-- The loop of `match` tries every suffix. -/
theorem matchany_decides (here : List UInt8 → Option Bool) {P : List UInt8 → Prop}
    {y : List UInt8} (hnul : 0 ∉ text)
    (hhere : ∀ s, s <:+ text → Decides (here (s ++ 0 :: y)) (P s)) :
    Decides (matchany here (text ++ 0 :: y)) (∃ s, s <:+ text ∧ P s) := by
  induction text with
  | nil =>
      obtain ⟨b, hb, hP⟩ := hhere [] (List.suffix_refl _)
      rw [List.nil_append] at hb ⊢
      rw [matchany, hb, Option.bind_some]
      cases b with
      | true => exact decides_true ⟨[], List.suffix_refl _, hP.mp rfl⟩
      | false =>
          rw [if_neg Bool.false_ne_true, if_neg (by simp)]
          refine decides_false ?_
          rintro ⟨s, hs, h⟩
          rw [List.suffix_nil.mp hs] at h
          exact absurd (hP.mpr h) Bool.false_ne_true
  | cons t text ih =>
      have ht : t ≠ 0 := fun h => hnul (h ▸ List.mem_cons_self)
      obtain ⟨b, hb, hP⟩ := hhere (t :: text) (List.suffix_refl _)
      have hrest := ih (fun h => hnul (List.mem_cons_of_mem _ h))
        fun s hs => hhere s (hs.trans (List.suffix_cons t text))
      rw [List.cons_append] at hb ⊢
      rw [matchany, hb, Option.bind_some]
      cases b with
      | true => exact decides_true ⟨t :: text, List.suffix_refl _, hP.mp rfl⟩
      | false =>
          rw [if_neg Bool.false_ne_true, if_pos ht]
          apply hrest.congr
          constructor
          · rintro ⟨s, hs, h⟩
            exact ⟨s, hs.trans (List.suffix_cons t text), h⟩
          · rintro ⟨s, hs, h⟩
            rcases List.suffix_cons_iff.mp hs with rfl | hs
            · exact absurd (hP.mpr h) Bool.false_ne_true
            · exact ⟨s, hs, h⟩

/-- `match` decides whether the pattern matches, whatever follows the two nuls. -/
theorem matchre_decides {re text : List UInt8} (hre : 0 ∉ re) (htext : 0 ∉ text)
    (x y : List UInt8) :
    Decides (matchre (re ++ 0 :: x) (text ++ 0 :: y)) (Matches re text) := by
  unfold Matches
  cases re with
  | nil =>
      have hany := matchany_decides (matchhere (0 :: x))
        (P := Begins (lang (items []).1) (items []).2) (y := y) htext fun s hs =>
          matchhere_decides [] hre fun h => htext (hs.subset h)
      exact hany
  | cons c rest =>
      have hrest : 0 ∉ rest := fun h => hre (List.mem_cons_of_mem _ h)
      rw [List.cons_append, matchre]
      by_cases hc : c = caret
      · rw [if_pos hc, List.head?_cons, if_pos (congrArg some hc), List.tail_cons]
        exact matchhere_decides rest hrest htext
      · rw [if_neg hc, List.head?_cons, if_neg fun h => hc (Option.some.inj h)]
        exact matchany_decides _ htext fun s hs =>
          matchhere_decides (c :: rest) hre fun h => htext (hs.subset h)

/-- What follows the nul of the text does not matter. -/
theorem matchre_tail {re text : List UInt8} (hre : 0 ∉ re) (htext : 0 ∉ text) (y : List UInt8) :
    matchre (re ++ [0]) (text ++ 0 :: y) = matchre (re ++ [0]) (text ++ [0]) := by
  obtain ⟨b, hb, hP⟩ := matchre_decides hre htext [] y
  obtain ⟨b', hb', hP'⟩ := matchre_decides hre htext [] []
  rw [hb, hb', Option.some.injEq, Bool.eq_iff_iff]
  exact hP.trans hP'.symm

/-- `match` always returns, reads nothing behind the nul of either string, and its result
is 1 exactly on the texts that the pattern matches. -/
theorem matchre_returns_iff {re text : List UInt8} (hre : 0 ∉ re) (htext : 0 ∉ text) :
    ∃ b, matchre (re ++ [0]) (text ++ [0]) = some b ∧ (b = true ↔ Matches re text) :=
  matchre_decides hre htext [] []

/-- The pattern `a*b$` on the text `xaab`. -/
theorem matchre_returns_example :
    ∃ b, matchre ([97, 42, 98, 36] ++ [0]) ([120, 97, 97, 98] ++ [0]) = some b ∧
      (b = true ↔ Matches [97, 42, 98, 36] [120, 97, 97, 98]) :=
  matchre_returns_iff (by decide) (by decide)

example : matchre ([97, 42, 98, 36] ++ [0]) ([120, 97, 97, 98] ++ [0]) = some true := by decide

end Xv6.Grep
