import Mathlib.Data.List.GetD
import Mathlib.Data.List.TakeWhile
import Mathlib.Logic.Function.Basic
import Mathlib.Tactic.NormNum
import Xv6.Param

/-!
# Names and path elements

The C strings of the directory code: `strncmp` and `strncpy` as directory
entries use them, and `skipelem`, which cuts one element off a path.

A name fills an array of `DIRSIZ` bytes.  A shorter name is followed by a nul,
one of exactly `DIRSIZ` bytes is not; `text` reads the name out of the array
either way.  A path is handed on as the list of its bytes before the nul, and a
pointer into it is the rest of that list.
-/

namespace Xv6.Fs

/-- `DIRSIZ`. -/
abbrev dirsiz : ℕ := 14

/-- The byte `'/'`. -/
abbrev slash : UInt8 := 47

/-- The bytes from a `char *` on. -/
abbrev Chars : Type := ℕ → UInt8

/-- The pointer to the next byte. -/
def Chars.next (p : Chars) : Chars := fun i => p (i + 1)

/-- The array that begins with the bytes of a list. -/
def Chars.ofList (cs : List UInt8) : Chars := fun i => cs.getD i 0

/-- `strncmp`. -/
def strncmp (p q : Chars) : ℕ → ℤ
  | 0 => 0
  | n + 1 =>
      if p 0 ≠ 0 ∧ p 0 = q 0 then strncmp p.next q.next n
      else (p 0).toNat - (q 0).toNat

/-- The `n` bytes that `strncpy` stores. -/
def strncpy (t : Chars) : ℕ → List UInt8
  | 0 => []
  | n + 1 => if t 0 ≠ 0 then t 0 :: strncpy t.next n else 0 :: List.replicate n 0

/-- The first `n` bytes of an array, up to a nul. -/
def text (p : Chars) : ℕ → List UInt8
  | 0 => []
  | n + 1 => if p 0 ≠ 0 then p 0 :: text p.next n else []

@[simp] theorem Chars.ofList_nil_apply (i : ℕ) : Chars.ofList [] i = 0 := rfl

@[simp] theorem Chars.ofList_cons_zero (c : UInt8) (cs : List UInt8) :
    Chars.ofList (c :: cs) 0 = c := rfl

@[simp] theorem Chars.next_ofList_cons (c : UInt8) (cs : List UInt8) :
    (Chars.ofList (c :: cs)).next = Chars.ofList cs := rfl

/-- Only the first `n` bytes of an array count. -/
theorem text_congr {p q : Chars} {n : ℕ} (h : ∀ i < n, p i = q i) : text p n = text q n := by
  induction n generalizing p q with
  | zero => rfl
  | succ n ih =>
      have hnext : text p.next n = text q.next n :=
        ih fun i hi => h (i + 1) (by omega)
      simp only [text, h 0 (by omega), hnext]

/-- Names are compared as the texts they hold, whether or not a nul ends them. -/
theorem strncmp_eq_zero_iff (p q : Chars) (n : ℕ) :
    strncmp p q n = 0 ↔ text p n = text q n := by
  induction n generalizing p q with
  | zero => simp [strncmp, text]
  | succ n ih =>
      simp only [strncmp, text]
      by_cases hsame : p 0 = q 0
      · by_cases hnul : q 0 = 0
        · simp [hsame, hnul]
        · simp [hsame, hnul, ih]
      · have hbytes : ((p 0).toNat : ℤ) - (q 0).toNat ≠ 0 := by
          intro h
          exact hsame (UInt8.toNat_inj.mp (by omega))
        rw [if_neg (by simp [hsame])]
        split <;> split <;> simp_all

/-- The stored bytes hold the text that was copied. -/
theorem text_strncpy (t : Chars) (n : ℕ) : text (Chars.ofList (strncpy t n)) n = text t n := by
  induction n generalizing t with
  | zero => rfl
  | succ n ih =>
      simp only [strncpy]
      by_cases hnul : t 0 = 0
      · simp [text, hnul]
      · simp [text, hnul, ih]

/-- An array that begins with given bytes and, where there is room, a nul. -/
theorem text_eq_take {p : Chars} {cs : List UInt8} {n : ℕ}
    (hbytes : ∀ i < n, i < cs.length → p i = cs.getD i 0)
    (hend : cs.length < n → p cs.length = 0) (hnul : 0 ∉ cs) : text p n = cs.take n := by
  induction n generalizing p cs with
  | zero => simp [text]
  | succ n ih =>
      cases cs with
      | nil => simpa [text] using hend
      | cons c cs =>
          have hc : p 0 = c := hbytes 0 (by omega) (by simp)
          simp only [List.mem_cons, not_or] at hnul
          have hrest : text p.next n = cs.take n := by
            refine ih (fun i hi hlen => ?_) (fun hlen => ?_) hnul.2
            · exact hbytes (i + 1) (by omega) (by simpa using hlen)
            · exact hend (by simpa using hlen)
          simp [text, hc, Ne.symm hnul.1, hrest]

/-! ## Path elements -/

/-- The byte a `char *` points to. -/
def deref (p : List UInt8) : UInt8 :=
  p.headD 0

/-- `memmove(name, s, n)`. -/
def memmove (name : Chars) (s : List UInt8) (n : ℕ) : Chars := fun i =>
  if i < n then s.getD i 0 else name i

/-- The loop condition `*path != '/' && *path != 0`. -/
def inElement (c : UInt8) : Bool :=
  c ≠ slash ∧ c ≠ 0

/-- `skipelem`: the rest of the path and the name buffer, or `none` for 0. -/
def skipelem (path : List UInt8) (name : Chars) : Option (List UInt8 × Chars) :=
  let s := path.dropWhile (· = slash)
  if deref s = 0 then none
  else
    let path := s.dropWhile inElement
    let len := s.length - path.length
    let name :=
      if dirsiz ≤ len then memmove name s dirsiz
      else Function.update (memmove name s len) len 0
    some (path.dropWhile (· = slash), name)

/-- The elements of a path: what stands between slashes before the first nul,
cut to `DIRSIZ` bytes. -/
def components (path : List UInt8) : List (List UInt8) :=
  (((path.takeWhile (· ≠ 0)).splitOn slash).filter (· ≠ [])).map (List.take dirsiz)

theorem takeWhile_slash (path : List UInt8) :
    (slash :: path).takeWhile (fun c => decide (c ≠ 0)) =
      slash :: path.takeWhile fun c => decide (c ≠ 0) := rfl

theorem components_slash (path : List UInt8) :
    components (slash :: path) = components path := by
  unfold components
  rw [takeWhile_slash]
  simp [List.splitOn_cons_eq_if_modifyHead]

/-- Slashes in front do not matter. -/
theorem components_dropWhile (path : List UInt8) :
    components (path.dropWhile (· = slash)) = components path := by
  induction path with
  | nil => rfl
  | cons c path ih =>
      by_cases hc : c = slash
      · rw [List.dropWhile_cons_of_pos (by simpa using hc), ih, hc, components_slash]
      · rw [List.dropWhile_cons_of_neg (by simpa using hc)]

theorem components_of_deref_eq_zero {path : List UInt8} (h : deref path = 0) :
    components path = [] := by
  cases path with
  | nil => rfl
  | cons c path =>
      have hc : c = 0 := h
      simp [components, hc]

/-- A path that begins with an element. -/
theorem components_append {s rest : List UInt8} (hne : s ≠ []) (hs : ∀ c ∈ s, c ≠ slash ∧ c ≠ 0)
    (hrest : rest = [] ∨ deref rest = slash ∨ deref rest = 0) :
    components (s ++ rest) = s.take dirsiz :: components rest := by
  have hnul : ∀ c ∈ s, decide (c ≠ 0) = true := fun c hc => by simpa using (hs c hc).2
  have hmem : slash ∉ s := fun h => (hs slash h).1 rfl
  have hbreak : components rest = [] ∧ rest.takeWhile (· ≠ 0) = [] ∨
      ∃ tail, rest = slash :: tail := by
    rcases rest with _ | ⟨c, tail⟩
    · exact Or.inl ⟨rfl, rfl⟩
    · rcases hrest with h | h | h
      · cases h
      · exact Or.inr ⟨tail, by rw [show c = slash from h]⟩
      · refine Or.inl ⟨components_of_deref_eq_zero h, ?_⟩
        rw [show c = 0 from h]
        rfl
  rcases hbreak with ⟨hnone, htake⟩ | ⟨tail, rfl⟩
  · rw [hnone]
    unfold components
    rw [List.takeWhile_append_of_pos hnul, htake, List.append_nil, List.splitOn_eq_singleton hmem]
    simp [hne]
  · rw [components_slash]
    unfold components
    rw [List.takeWhile_append_of_pos hnul, takeWhile_slash,
      List.splitOn_append_cons_self_of_not_mem hmem]
    simp [hne]

theorem deref_dropWhile_ne (path : List UInt8) :
    deref (path.dropWhile (· = slash)) ≠ slash := by
  induction path with
  | nil => decide
  | cons c path ih =>
      by_cases hc : c = slash
      · rwa [List.dropWhile_cons_of_pos (by simpa using hc)]
      · rw [List.dropWhile_cons_of_neg (by simpa using hc)]
        exact hc

theorem of_mem_takeWhile_inElement {s : List UInt8} {c : UInt8} (h : c ∈ s.takeWhile inElement) :
    c ≠ slash ∧ c ≠ 0 := by
  have hc := List.mem_takeWhile_imp h
  simpa [inElement] using hc

/-- A path that starts neither with a slash nor with the nul starts with an element. -/
theorem components_element {s : List UInt8} (hslash : deref s ≠ slash) (hnul : deref s ≠ 0) :
    components s =
      (s.takeWhile inElement).take dirsiz :: components (s.dropWhile inElement) := by
  have hne : s.takeWhile inElement ≠ [] := by
    cases s with
    | nil => exact absurd rfl hnul
    | cons c path =>
        have hc : inElement c = true := by
          simpa [inElement, deref] using And.intro hslash hnul
        rw [List.takeWhile_cons_of_pos hc]
        exact List.cons_ne_nil _ _
  have hbreak : s.dropWhile inElement = [] ∨ deref (s.dropWhile inElement) = slash ∨
      deref (s.dropWhile inElement) = 0 := by
    cases hd : s.dropWhile inElement with
    | nil => exact Or.inl rfl
    | cons c rest =>
        have hc := List.head_dropWhile_not inElement (l := s) (by rw [hd]; exact List.cons_ne_nil _ _)
        simp only [hd, List.head_cons, inElement] at hc
        refine Or.inr ?_
        by_cases hcs : c = slash
        · exact Or.inl hcs
        · exact Or.inr (show c = 0 by simpa [hcs] using hc)
  have happ := components_append hne (fun _ => of_mem_takeWhile_inElement) hbreak
  rwa [List.takeWhile_append_dropWhile] at happ

/-- `skipelem` finds no element exactly when there is none. -/
theorem skipelem_eq_none_iff {path : List UInt8} {name : Chars} :
    skipelem path name = none ↔ components path = [] := by
  rw [← components_dropWhile path]
  unfold skipelem
  by_cases hnul : deref (path.dropWhile (· = slash)) = 0
  · simp [hnul, components_of_deref_eq_zero hnul]
  · simp [hnul, components_element (deref_dropWhile_ne path) hnul]

/-- The name buffer after `skipelem` has copied the element at the start of `s`. -/
theorem text_copied (s : List UInt8) (name : Chars) :
    let e := s.takeWhile inElement
    text (if dirsiz ≤ e.length then memmove name s dirsiz
      else Function.update (memmove name s e.length) e.length 0) dirsiz = e.take dirsiz := by
  intro e
  have hpre : ∀ i < e.length, s.getD i 0 = e.getD i 0 := by
    intro i hi
    have hs : s = e ++ s.dropWhile inElement := List.takeWhile_append_dropWhile.symm
    conv_lhs => rw [hs]
    rw [List.getD_append _ _ _ _ hi]
  have hnul : (0 : UInt8) ∉ e := fun h => (of_mem_takeWhile_inElement h).2 rfl
  apply text_eq_take _ _ hnul
  · intro i hi hlen
    rw [← hpre i hlen]
    split
    · simp [memmove, hi]
    · rw [Function.update_of_ne (by omega)]
      simp [memmove, hlen]
  · intro hlen
    rw [if_neg (by omega), Function.update_self]

/-- What `skipelem` leaves in the name buffer is the first element; the others are
those of the path it returns, which is at its end only if there are none. -/
theorem skipelem_eq_some {path rest : List UInt8} {name name' : Chars}
    (h : skipelem path name = some (rest, name')) :
    components path = text name' dirsiz :: components rest ∧
      (deref rest = 0 ↔ components rest = []) := by
  rw [← components_dropWhile path]
  unfold skipelem at h
  generalize hs : path.dropWhile (· = slash) = s at h
  have hslash : deref s ≠ slash := hs ▸ deref_dropWhile_ne path
  by_cases hnul : deref s = 0
  · simp [hnul] at h
  · have hlen : s.length - (s.dropWhile inElement).length = (s.takeWhile inElement).length := by
      have hsplit := congrArg List.length (List.takeWhile_append_dropWhile (p := inElement) (l := s))
      rw [List.length_append] at hsplit
      omega
    simp only [hnul, if_false, hlen, Option.some.injEq, Prod.mk.injEq] at h
    obtain ⟨rfl, rfl⟩ := h
    refine ⟨?_, ?_⟩
    · rw [text_copied s name, components_dropWhile]
      exact components_element hslash hnul
    · generalize s.dropWhile inElement = rest
      refine ⟨components_of_deref_eq_zero, fun hnil => ?_⟩
      by_contra hend
      rw [components_element (deref_dropWhile_ne rest) hend] at hnil
      cases hnil

theorem length_dropWhile_le {α : Type} (p : α → Bool) (l : List α) :
    (l.dropWhile p).length ≤ l.length :=
  (List.dropWhile_sublist p).length_le

/-- Each element takes a byte of the path. -/
theorem skipelem_length_lt {path rest : List UInt8} {name name' : Chars}
    (h : skipelem path name = some (rest, name')) : rest.length < path.length := by
  have hpath := length_dropWhile_le (· = slash) path
  unfold skipelem at h
  generalize hs : path.dropWhile (· = slash) = s at h hpath
  have hslash : deref s ≠ slash := hs ▸ deref_dropWhile_ne path
  by_cases hnul : deref s = 0
  · simp [hnul] at h
  · cases s with
    | nil => exact absurd rfl hnul
    | cons c s =>
        have hc : inElement c = true := by
          simpa [inElement, deref] using And.intro hslash hnul
        have hrest := length_dropWhile_le inElement s
        simp only [hnul, if_false, Option.some.injEq, Prod.mk.injEq,
          List.dropWhile_cons_of_pos hc] at h
        have hend := length_dropWhile_le (· = slash) (s.dropWhile inElement)
        rw [List.length_cons] at hpath
        rw [← h.1]
        omega

theorem length_components_le (path : List UInt8) : (components path).length ≤ path.length := by
  obtain ⟨n, hn⟩ : ∃ n, n = path.length := ⟨_, rfl⟩
  induction n using Nat.strong_induction_on generalizing path with
  | _ n ih =>
      cases h : skipelem path fun _ => 0 with
      | none =>
          rw [skipelem_eq_none_iff.mp h]
          exact Nat.zero_le _
      | some r =>
          obtain ⟨rest, name⟩ := r
          have hlt := skipelem_length_lt h
          have hrest := ih rest.length (by omega) rest rfl
          rw [(skipelem_eq_some h).1, List.length_cons]
          omega

end Xv6.Fs
