import Mathlib.Data.List.DropRight
import Mathlib.Data.List.GetD
import Mathlib.Data.List.TakeWhile
import Xv6.Grep.Match

/-!
# The buffer of `grep`

The function `grep` of `grep.c`.  It keeps the unfinished line of one `read` at the
front of `buf` for the next, and finds the lines in `buf` with `strchr`, which stops at
a nul and not where the bytes that were read end.

The input is the list of what the calls of `read` return.  A run that would access a
byte outside `buf` ends in `none`.
-/

namespace Xv6.Grep

/-- The byte `'\n'`. -/
abbrev newline : UInt8 := 10

/-- `sizeof(buf)`. -/
abbrev bufsize : ℕ := 1024

/-- `strchr` on the bytes from `s` to the end of the array: the offset of the character
found, or `some none` for 0. -/
def strchr (c : UInt8) : List UInt8 → Option (Option ℕ)
  | [] => none
  | b :: s =>
      if b = 0 then some none
      else if b = c then some (some 0)
      else (strchr c s).map (Option.map (· + 1))

/-- The inner loop of `grep` from `p` on: the pointer at which it stops, the buffer and
the output.  Each round advances `p`, so `n` rounds are enough for a buffer shorter than
`n`. -/
def scanLines (pattern : List UInt8) :
    ℕ → ℕ → List UInt8 → List UInt8 → Option (ℕ × List UInt8 × List UInt8)
  | 0, _, _, _ => none
  | n + 1, p, buf, out =>
      (strchr newline (buf.drop p)).bind fun found =>
        match found with
        | none => some (p, buf, out)
        | some i =>
            let cut := buf.set (p + i) 0
            (matchre pattern (cut.drop p)).bind fun found =>
              if found then
                let buf := cut.set (p + i) newline
                scanLines pattern n (p + i + 1) buf (out ++ (buf.drop p).take (i + 1))
              else scanLines pattern n (p + i + 1) cut out

/-- `read(fd, buf+m, sizeof(buf)-m)`, which stores the bytes `cs`. -/
def readInto (buf : List UInt8) (m : ℤ) (cs : List UInt8) : Option (List UInt8) :=
  if m < 0 ∨ (bufsize : ℤ) < m + cs.length then none
  else some (buf.take m.toNat ++ cs ++ buf.drop (m.toNat + cs.length))

/-- `memmove(buf, buf+p, n)`, one byte after the other. -/
def memmove (buf : List UInt8) (p n : ℕ) : List UInt8 :=
  (List.range n).foldl (fun buf i => buf.set i (buf.getD (p + i) 0)) buf

/-- The outer loop of `grep`: what it leaves in `buf`, and the output. -/
def grepFrom (pattern : List UInt8) :
    List (List UInt8) → ℤ → List UInt8 → List UInt8 → Option (List UInt8 × List UInt8)
  | [], _, buf, out => some (buf, out)
  | cs :: chunks, m, buf, out =>
      if cs = [] then some (buf, out)
      else
        (readInto buf m cs).bind fun buf =>
          (scanLines pattern (bufsize + 1) 0 buf out).bind fun (p, buf, out) =>
            let m := if p = 0 then 0 else m + cs.length
            if 0 < m then grepFrom pattern chunks (m - p) (memmove buf p (m - p).toNat) out
            else grepFrom pattern chunks m buf out

/-- `grep(pattern, fd)`.  The array `buf` is global: `main` calls `grep` for one file after
the other, and each call finds what the one before has left there. -/
def grep (pattern buf : List UInt8) (chunks : List (List UInt8)) :
    Option (List UInt8 × List UInt8) :=
  grepFrom pattern chunks 0 buf []

/-- The lines of the input that the pattern matches, each with its newline. -/
def matching (re input : List UInt8) : List UInt8 :=
  ((input.splitOn newline).dropLast.filter fun l =>
    matchre (re ++ [0]) (l ++ [0]) = some true).flatMap (· ++ [newline])

/-! ## The lines of the input -/

variable {re : List UInt8}

theorem matching_of_notMem {l : List UInt8} (h : newline ∉ l) : matching re l = [] := by
  rw [matching, List.splitOn_eq_singleton h]
  rfl

theorem matching_line {l rest : List UInt8} (h : newline ∉ l) :
    matching re (l ++ newline :: rest) =
      (if matchre (re ++ [0]) (l ++ [0]) = some true then l ++ [newline] else []) ++
        matching re rest := by
  rw [matching, List.splitOn_append_cons_self_of_not_mem h, List.dropLast_cons_of_ne_nil
    (List.splitOn_ne_nil _ _), List.filter_cons]
  split
  · rename_i hm
    rw [if_pos (by simpa using hm)]
    rfl
  · rename_i hm
    rw [if_neg (by simpa using hm)]
    rfl

/-- What comes after the last newline. -/
def unfinished (l : List UInt8) : List UInt8 :=
  l.rtakeWhile fun c => decide (c ≠ newline)

theorem unfinished_of_notMem {l : List UInt8} (h : newline ∉ l) : unfinished l = l := by
  refine List.rtakeWhile_eq_self_iff.mpr fun c hc => ?_
  have hne : c ≠ newline := fun hcn => h (hcn ▸ hc)
  simpa using hne

theorem unfinished_line (l rest : List UInt8) :
    unfinished (l ++ newline :: rest) = unfinished rest := by
  unfold unfinished List.rtakeWhile
  rw [List.reverse_append, List.reverse_cons, List.append_assoc, List.takeWhile_append]
  split
  · rename_i hall
    rw [List.singleton_append, List.takeWhile_cons_of_neg (by decide), List.append_nil,
      List.takeWhile_eq_self_iff.mpr]
    exact List.takeWhile_eq_self_iff.mp (List.takeWhile_prefix _ |>.eq_of_length hall)
  · rfl

theorem notMem_unfinished (l : List UInt8) : newline ∉ unfinished l := by
  intro h
  have := List.mem_rtakeWhile_imp h
  simp at this

/-- Induction on the lines of a text. -/
theorem lines_induction {P : List UInt8 → Prop} (last : ∀ l, newline ∉ l → P l)
    (line : ∀ l rest, newline ∉ l → P rest → P (l ++ newline :: rest)) (input : List UInt8) :
    P input := by
  induction hn : input.length using Nat.strong_induction_on generalizing input with
  | _ n ih =>
      by_cases h : newline ∈ input
      · obtain ⟨l, rest, rfl, hl⟩ := List.eq_append_cons_of_mem h
        refine line l rest hl (ih rest.length ?_ rest rfl)
        rw [← hn, List.length_append, List.length_cons]
        omega
      · exact last input h

/-- A text has only one first line. -/
theorem line_inj {l l' rest rest' : List UInt8} (h : newline ∉ l) (h' : newline ∉ l')
    (heq : l ++ newline :: rest = l' ++ newline :: rest') : l = l' := by
  have hfirst : ∀ (l rest : List UInt8), newline ∉ l →
      (l ++ newline :: rest).takeWhile (fun c => decide (c ≠ newline)) = l := by
    intro l rest hl
    have hall : ∀ c ∈ l, decide (c ≠ newline) = true := by
      intro c hc
      have hne : c ≠ newline := fun hcn => hl (hcn ▸ hc)
      simpa using hne
    rw [List.takeWhile_append_of_pos hall, List.takeWhile_cons_of_neg (by decide),
      List.append_nil]
  rw [← hfirst l rest h, heq, hfirst l' rest' h']

/-! ## Scanning the bytes that were read -/

theorem strchr_newline {l rest : List UInt8} (hnul : 0 ∉ l) (h : newline ∉ l) :
    strchr newline (l ++ newline :: rest) = some (some l.length) := by
  induction l with
  | nil => rfl
  | cons c l ih =>
      simp only [List.mem_cons, not_or] at hnul h
      rw [List.cons_append, strchr, if_neg (Ne.symm hnul.1), if_neg (Ne.symm h.1), ih hnul.2 h.2]
      rfl

/-- The finished lines, with a nul in place of the newline where the pattern does not match. -/
def blotted (re input : List UInt8) : List UInt8 :=
  (input.splitOn newline).dropLast.flatMap fun l =>
    l ++ [if matchre (re ++ [0]) (l ++ [0]) = some true then newline else 0]

theorem blotted_of_notMem {l : List UInt8} (h : newline ∉ l) : blotted re l = [] := by
  rw [blotted, List.splitOn_eq_singleton h]
  rfl

theorem blotted_line {l rest : List UInt8} (h : newline ∉ l) :
    blotted re (l ++ newline :: rest) =
      l ++ (if matchre (re ++ [0]) (l ++ [0]) = some true then newline else 0) ::
        blotted re rest := by
  rw [blotted, List.splitOn_append_cons_self_of_not_mem h, List.dropLast_cons_of_ne_nil
    (List.splitOn_ne_nil _ _), List.flatMap_cons, List.append_assoc, List.singleton_append]
  rfl

/-- A text is its finished lines and an unfinished one. -/
theorem length_blotted (re D : List UInt8) :
    (blotted re D).length + (unfinished D).length = D.length := by
  induction D using lines_induction with
  | last l hl => rw [blotted_of_notMem hl, unfinished_of_notMem hl, List.length_nil, Nat.zero_add]
  | line l rest hl ih =>
      rw [blotted_line hl, unfinished_line]
      simp only [List.length_append, List.length_cons]
      omega

theorem mem_of_mem_unfinished {D : List UInt8} {c : UInt8} (h : c ∈ unfinished D) : c ∈ D := by
  induction D using lines_induction with
  | last l hl => rwa [unfinished_of_notMem hl] at h
  | line l rest hl ih =>
      rw [unfinished_line] at h
      exact List.mem_append_right _ (List.mem_cons_of_mem _ (ih h))

/-- A round of the inner loop that finds a line. -/
theorem scanLines_line (A : List UInt8) {l : List UInt8} (rest : List UInt8) (n : ℕ)
    (out : List UInt8) (hre : 0 ∉ re) (hnul : 0 ∉ l) (hl : newline ∉ l) :
    scanLines (re ++ [0]) (n + 1) A.length (A ++ (l ++ newline :: rest)) out =
      scanLines (re ++ [0]) n (A.length + l.length + 1)
        (A ++ (l ++ (if matchre (re ++ [0]) (l ++ [0]) = some true then newline else 0) :: rest))
        (out ++ if matchre (re ++ [0]) (l ++ [0]) = some true then l ++ [newline] else []) := by
  have hbuf : A ++ (l ++ newline :: rest) = (A ++ l) ++ newline :: rest := by simp
  have hcut : (A ++ (l ++ newline :: rest)).set (A.length + l.length) 0 = A ++ (l ++ 0 :: rest) := by
    rw [hbuf, ← List.length_append, List.set_append_right _ _ le_rfl]
    simp
  have hback : (A ++ (l ++ 0 :: rest)).set (A.length + l.length) newline =
      A ++ (l ++ newline :: rest) := by
    rw [← List.append_assoc, ← List.length_append, List.set_append_right _ _ le_rfl]
    simp
  have htake : (l ++ newline :: rest).take (l.length + 1) = l ++ [newline] := by
    rw [List.take_append, List.take_of_length_le (by omega)]
    simp
  obtain ⟨b, hb, -⟩ := matchre_decides hre hnul [] []
  rw [scanLines, List.drop_left, strchr_newline hnul hl, Option.bind_some]
  simp only
  rw [hcut, List.drop_left, matchre_tail hre hnul, hb, Option.bind_some, hback, List.drop_left,
    htake]
  cases b with
  | true => rw [if_pos rfl, if_pos rfl, if_pos rfl]
  | false => rw [if_neg Bool.false_ne_true, if_neg (by simp), if_neg (by simp), List.append_nil]

/-- The inner loop takes the lines of the bytes that were read, whatever follows them. -/
theorem scanLines_lines {S : List UInt8} (hre : 0 ∉ re) (D : List UInt8) (hnul : 0 ∉ D) (n : ℕ)
    (A out : List UInt8) (hn : D.length < n) :
    ∃ n', 0 < n' ∧ n ≤ n' + (blotted re D).length ∧
      scanLines (re ++ [0]) n A.length (A ++ (D ++ S)) out =
        scanLines (re ++ [0]) n' (A.length + (blotted re D).length)
          (A ++ (blotted re D ++ (unfinished D ++ S))) (out ++ matching re D) := by
  induction D using lines_induction generalizing n A out with
  | last l hl =>
      refine ⟨n, by omega, Nat.le_add_right _ _, ?_⟩
      rw [blotted_of_notMem hl, unfinished_of_notMem hl, matching_of_notMem hl]
      simp
  | line l rest hl ih =>
      have hnl : 0 ∉ l := fun h => hnul (List.mem_append_left _ h)
      have hnrest : 0 ∉ rest := fun h =>
        hnul (List.mem_append_right _ (List.mem_cons_of_mem _ h))
      rw [List.length_append, List.length_cons] at hn
      obtain ⟨k, rfl⟩ : ∃ k, n = k + 1 := ⟨n - 1, by omega⟩
      have hstep := scanLines_line A (rest ++ S) k out hre hnl hl
      rw [blotted_line hl, unfinished_line, matching_line hl, List.append_assoc l,
        List.cons_append]
      generalize (if matchre (re ++ [0]) (l ++ [0]) = some true then newline else 0) = c at *
      generalize (if matchre (re ++ [0]) (l ++ [0]) = some true then l ++ [newline] else []) = w
        at *
      obtain ⟨n', hpos, hle, hrun⟩ := ih hnrest k (A ++ (l ++ [c])) (out ++ w) (by omega)
      refine ⟨n', hpos, ?_, ?_⟩
      · rw [List.length_append, List.length_cons]
        omega
      · have hfront : A ++ (l ++ c :: (rest ++ S)) = A ++ (l ++ [c]) ++ (rest ++ S) := by simp
        have hlen : (A ++ (l ++ [c])).length = A.length + l.length + 1 := by
          simp only [List.length_append, List.length_singleton]
          omega
        rw [hstep, hfront, ← hlen, hrun]
        congr 1
        · simp only [List.length_append, List.length_cons, List.length_nil]
          omega
        · simp
        · simp

/-- What the inner loop has written it keeps, and it never goes back. -/
theorem scanLines_mono {pattern buf out buf' out' : List UInt8} {n p p' : ℕ}
    (h : scanLines pattern n p buf out = some (p', buf', out')) : p ≤ p' ∧ out <+: out' := by
  induction n generalizing p buf out with
  | zero => cases h
  | succ n ih =>
      simp only [scanLines, Option.bind_eq_some_iff] at h
      obtain ⟨found, -, h⟩ := h
      cases found with
      | none =>
          simp only [Option.some.injEq, Prod.mk.injEq] at h
          obtain ⟨rfl, -, rfl⟩ := h
          exact ⟨le_rfl, List.prefix_refl _⟩
      | some i =>
          simp only [Option.bind_eq_some_iff] at h
          obtain ⟨found, -, h⟩ := h
          cases found with
          | true =>
              rw [if_pos rfl] at h
              obtain ⟨hp, hout⟩ := ih h
              exact ⟨by omega, (List.prefix_append _ _).trans hout⟩
          | false =>
              rw [if_neg Bool.false_ne_true] at h
              obtain ⟨hp, hout⟩ := ih h
              exact ⟨by omega, hout⟩

/-- What `grep` has written it keeps. -/
theorem grepFrom_mono {pattern buf buf' out out' : List UInt8} {chunks : List (List UInt8)} {m : ℤ}
    (h : grepFrom pattern chunks m buf out = some (buf', out')) : out <+: out' := by
  induction chunks generalizing m buf out with
  | nil =>
      rw [grepFrom, Option.some.injEq, Prod.mk.injEq] at h
      exact h.2 ▸ List.prefix_refl _
  | cons cs chunks ih =>
      rw [grepFrom] at h
      split at h
      · rw [Option.some.injEq, Prod.mk.injEq] at h
        exact h.2 ▸ List.prefix_refl _
      · simp only [Option.bind_eq_some_iff, Prod.exists] at h
        obtain ⟨buf₁, -, p, buf₂, out₂, hscan, h⟩ := h
        have hout := (scanLines_mono hscan).2
        generalize (if p = 0 then 0 else m + (cs.length : ℤ)) = m' at h
        split at h
        · exact hout.trans (ih h)
        · exact hout.trans (ih h)

/-- `memmove` of bytes from further back to the front. -/
theorem memmove_eq (F L S : List UInt8) :
    memmove (F ++ (L ++ S)) F.length L.length = L ++ (F ++ (L ++ S)).drop L.length := by
  have hsteps : ∀ i ≤ L.length,
      (List.range i).foldl (fun buf i => buf.set i (buf.getD (F.length + i) 0)) (F ++ (L ++ S)) =
        L.take i ++ (F ++ (L ++ S)).drop i := by
    intro i hi
    induction i with
    | zero => simp
    | succ i ih =>
        have hlen : i < (F ++ (L ++ S)).length := by
          simp only [List.length_append]
          omega
        have htake : (L.take i).length = i := by
          rw [List.length_take]
          omega
        have hread : (L.take i ++ (F ++ (L ++ S)).drop i).getD (F.length + i) 0 = L[i] := by
          rw [List.getD_append_right _ _ _ _ (by omega), htake, Nat.add_sub_cancel]
          simp only [List.getD_eq_getElem?_getD, List.getElem?_drop]
          rw [Nat.add_comm, List.getElem?_append_right (by omega), Nat.add_sub_cancel_left,
            List.getElem?_append_left hi, List.getElem?_eq_getElem hi, Option.getD_some]
        rw [List.range_succ, List.foldl_append, ih (by omega), List.foldl_cons, List.foldl_nil,
          hread, List.set_append_right _ _ (by omega), htake, Nat.sub_self,
          List.drop_eq_getElem_cons hlen, List.set_cons_zero, List.take_succ_eq_append_getElem hi,
          List.append_assoc, List.singleton_append]
  rw [memmove, hsteps _ le_rfl, List.take_length]

end Xv6.Grep
