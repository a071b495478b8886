import Xv6.Grep.Scan

/-!
# When `grep` prints the matching lines

`grep` relies on the way the input is split.  A chunk that completes no line is
forgotten, because `m` is set to 0 when no newline is found; what earlier calls of
`read`, for this file or for one before it, have left in `buf` behind the new bytes is
taken for input up to the next nul; and where no nul is left, `strchr` runs out of the
buffer.  A splitting with none of these is `Clean`.  On a clean splitting `grep` works,
and for a pattern that matches every line it works on no other.
-/

namespace Xv6.Grep

/-- After every call of `read` the bytes behind the new ones have a nul before the first
newline, and the call completes a line unless there is no line left to complete.  The
buffer is `buf` before the next call and begins with an unfinished line of `m` bytes. -/
def Clean (re : List UInt8) : List (List UInt8) → ℕ → List UInt8 → Prop
  | [], _, _ => True
  | cs :: chunks, m, buf =>
      let D := buf.take m ++ cs
      let S := buf.drop (m + cs.length)
      strchr newline S = some none ∧
        if newline ∈ D then
          Clean re chunks (unfinished D).length
            (unfinished D ++ (blotted re D ++ (unfinished D ++ S)).drop (unfinished D).length)
        else newline ∉ chunks.flatten ∧ Clean re chunks 0 (D ++ S)

instance decidableClean (re : List UInt8) :
    (chunks : List (List UInt8)) → (m : ℕ) → (buf : List UInt8) → Decidable (Clean re chunks m buf)
  | [], _, _ => isTrue trivial
  | cs :: chunks, m, buf =>
      let _ := decidableClean re chunks (unfinished (buf.take m ++ cs)).length
        (unfinished (buf.take m ++ cs) ++ (blotted re (buf.take m ++ cs) ++
          (unfinished (buf.take m ++ cs) ++ buf.drop (m + cs.length))).drop
            (unfinished (buf.take m ++ cs)).length)
      let _ := decidableClean re chunks 0 (buf.take m ++ cs ++ buf.drop (m + cs.length))
      decidable_of_iff (strchr newline (buf.drop (m + cs.length)) = some none ∧
        if newline ∈ buf.take m ++ cs then
          Clean re chunks (unfinished (buf.take m ++ cs)).length
            (unfinished (buf.take m ++ cs) ++ (blotted re (buf.take m ++ cs) ++
              (unfinished (buf.take m ++ cs) ++ buf.drop (m + cs.length))).drop
                (unfinished (buf.take m ++ cs)).length)
        else newline ∉ chunks.flatten ∧
          Clean re chunks 0 (buf.take m ++ cs ++ buf.drop (m + cs.length))) Iff.rfl

variable {re : List UInt8} {chunks : List (List UInt8)} {cs buf out : List UInt8} {m : ℕ}

/-! ## One round -/

theorem strchr_append {l s : List UInt8} (hnul : 0 ∉ l) (h : newline ∉ l) :
    strchr newline (l ++ s) = (strchr newline s).map (Option.map (· + l.length)) := by
  induction l with
  | nil =>
      rw [List.nil_append]
      rcases strchr newline s with _ | _ | i <;> rfl
  | cons c l ih =>
      simp only [List.mem_cons, not_or] at hnul h
      rw [List.cons_append, strchr, if_neg (Ne.symm hnul.1), if_neg (Ne.symm h.1), ih hnul.2 h.2]
      rcases strchr newline s with _ | _ | i <;> rfl

theorem eq_of_strchr {s : List UInt8} {i : ℕ} (h : strchr newline s = some (some i)) :
    ∃ u v, s = u ++ newline :: v ∧ 0 ∉ u ∧ newline ∉ u := by
  induction s generalizing i with
  | nil => cases h
  | cons c s ih =>
      rw [strchr] at h
      split at h
      · cases h
      · rename_i hnul
        split at h
        · rename_i hnew
          exact ⟨[], s, by rw [hnew, List.nil_append], List.not_mem_nil, List.not_mem_nil⟩
        · rename_i hnew
          rcases hs : strchr newline s with _ | _ | k
          · rw [hs] at h
            cases h
          · rw [hs] at h
            cases h
          · obtain ⟨u, v, rfl, hu, hu'⟩ := ih hs
            refine ⟨c :: u, v, rfl, ?_, ?_⟩
            · rw [List.mem_cons, not_or]
              exact ⟨Ne.symm hnul, hu⟩
            · rw [List.mem_cons, not_or]
              exact ⟨Ne.symm hnew, hu'⟩

theorem zero_notMem_taken (hmnul : 0 ∉ buf.take m) (hnul : 0 ∉ cs) : 0 ∉ buf.take m ++ cs := by
  rw [List.mem_append, not_or]
  exact ⟨hmnul, hnul⟩

theorem length_taken (hbuf : buf.length = bufsize) (hmlen : m ≤ bufsize) :
    (buf.take m ++ cs).length = m + cs.length := by
  simp only [List.length_append, List.length_take, hbuf]
  omega

/-- The inner loop ends where there is no newline before the next nul. -/
theorem scanLines_stop {pattern : List UInt8} (A : List UInt8) {rest : List UInt8} (n : ℕ)
    (out : List UInt8) (h : strchr newline rest = some none) :
    scanLines pattern (n + 1) A.length (A ++ rest) out = some (A.length, A ++ rest, out) := by
  rw [scanLines, List.drop_left, h]
  rfl

/-- `grep` after a call of `read` and the inner loop over the lines that it has completed. -/
theorem grepFrom_scan (hre : 0 ∉ re) (hbuf : buf.length = bufsize) (hmlen : m ≤ bufsize)
    (hmnul : 0 ∉ buf.take m) (hcs : cs ≠ []) (hnul : 0 ∉ cs) (hroom : m + cs.length ≤ bufsize) :
    let D := buf.take m ++ cs
    ∃ n, grepFrom (re ++ [0]) (cs :: chunks) m buf out =
      (scanLines (re ++ [0]) (n + 1) (blotted re D).length
        (blotted re D ++ (unfinished D ++ buf.drop (m + cs.length))) (out ++ matching re D)).bind
        fun (p, buf, out) =>
          let m := if p = 0 then 0 else (m : ℤ) + cs.length
          if 0 < m then
            grepFrom (re ++ [0]) chunks (m - p) (memmove buf p (m - p).toNat) out
          else grepFrom (re ++ [0]) chunks m buf out := by
  intro D
  have hDlen : D.length = m + cs.length := length_taken hbuf hmlen
  obtain ⟨n', hpos, -, hrun⟩ := scanLines_lines (S := buf.drop (m + cs.length)) hre D
    (zero_notMem_taken hmnul hnul) (bufsize + 1) [] out (by omega)
  rw [List.nil_append, List.nil_append, List.length_nil, Nat.zero_add] at hrun
  refine ⟨n' - 1, ?_⟩
  rw [Nat.sub_add_cancel hpos, ← hrun, grepFrom, if_neg hcs, readInto, if_neg (by omega),
    Option.bind_some, Int.toNat_natCast]

/-- One round of `grep` with a nul behind the new bytes. -/
theorem grepFrom_round (hre : 0 ∉ re) (hbuf : buf.length = bufsize) (hmlen : m ≤ bufsize)
    (hmnul : 0 ∉ buf.take m) (hcs : cs ≠ []) (hnul : 0 ∉ cs)
    (hstop : strchr newline (buf.drop (m + cs.length)) = some none) :
    let D := buf.take m ++ cs
    let S := buf.drop (m + cs.length)
    grepFrom (re ++ [0]) (cs :: chunks) m buf out =
      if newline ∈ D then
        grepFrom (re ++ [0]) chunks (unfinished D).length
          (unfinished D ++ (blotted re D ++ (unfinished D ++ S)).drop (unfinished D).length)
          (out ++ matching re D)
      else grepFrom (re ++ [0]) chunks 0 (D ++ S) out := by
  intro D S
  have hDnul : 0 ∉ D := zero_notMem_taken hmnul hnul
  have hDlen : D.length = m + cs.length := length_taken hbuf hmlen
  have hlen := length_blotted re D
  have hroom : m + cs.length ≤ bufsize := by
    by_contra hover
    rw [List.drop_eq_nil_of_le (by omega)] at hstop
    cases hstop
  obtain ⟨n, hscan⟩ := grepFrom_scan hre hbuf hmlen hmnul hcs hnul
    hroom
  have hchr : strchr newline (unfinished D ++ S) = some none := by
    rw [strchr_append (fun h => hDnul (mem_of_mem_unfinished h)) (notMem_unfinished D), hstop]
    rfl
  rw [hscan, scanLines_stop (blotted re D) n (out ++ matching re D) hchr, Option.bind_some]
  simp only
  by_cases hline : newline ∈ D
  · have hsome : (blotted re D).length ≠ 0 := by
      obtain ⟨l, rest, hD, hl⟩ := List.eq_append_cons_of_mem hline
      rw [hD, blotted_line hl]
      simp
    have hleft : (m : ℤ) + cs.length - (blotted re D).length = (unfinished D).length := by omega
    rw [if_pos hline, if_neg hsome, if_pos (by omega), hleft, Int.toNat_natCast, memmove_eq]
  · have hD : unfinished D = D := unfinished_of_notMem hline
    rw [if_neg hline, blotted_of_notMem hline, List.length_nil, if_pos rfl,
      if_neg (lt_irrefl _), matching_of_notMem hline, hD, List.append_nil, List.nil_append]

/-! ## Clean splittings work -/

/-- The lines of the input are those of its finished part and those of the rest. -/
theorem matching_append (re D rest : List UInt8) :
    matching re (D ++ rest) = matching re D ++ matching re (unfinished D ++ rest) := by
  induction D using lines_induction with
  | last l hl => rw [matching_of_notMem hl, unfinished_of_notMem hl, List.nil_append]
  | line l tail hl ih =>
      rw [List.append_assoc, List.cons_append, matching_line hl, matching_line hl, ih,
        unfinished_line, List.append_assoc]

/-- The lines of the input are those up to the end of a chunk and those from there on. -/
theorem matching_flatten_cons (re D cs : List UInt8) (chunks : List (List UInt8)) :
    matching re (D ++ (cs :: chunks).flatten) =
      matching re (D ++ cs) ++ matching re (unfinished (D ++ cs) ++ chunks.flatten) := by
  rw [List.flatten_cons, ← List.append_assoc, matching_append]

/-- The buffer with which the next round starts. -/
theorem length_next (re : List UInt8) (hbuf : buf.length = bufsize) (hmlen : m ≤ bufsize)
    (hroom : m + cs.length ≤ bufsize) :
    (unfinished (buf.take m ++ cs) ++ (blotted re (buf.take m ++ cs) ++
      (unfinished (buf.take m ++ cs) ++ buf.drop (m + cs.length))).drop
        (unfinished (buf.take m ++ cs)).length).length = bufsize ∧
      (unfinished (buf.take m ++ cs)).length ≤ bufsize ∧
      (buf.take m ++ cs ++ buf.drop (m + cs.length)).length = bufsize := by
  have hDlen : (buf.take m ++ cs).length = m + cs.length := length_taken hbuf hmlen
  have hlen := length_blotted re (buf.take m ++ cs)
  simp only [List.length_append, List.length_drop, hbuf] at hDlen hlen ⊢
  omega

theorem room_of_stop (hbuf : buf.length = bufsize)
    (hstop : strchr newline (buf.drop (m + cs.length)) = some none) : m + cs.length ≤ bufsize := by
  by_contra hover
  rw [List.drop_eq_nil_of_le (by omega)] at hstop
  cases hstop

theorem grepFrom_of_clean (out : List UInt8) (hre : 0 ∉ re) (hbuf : buf.length = bufsize)
    (hmlen : m ≤ bufsize) (hm : newline ∉ buf.take m) (hmnul : 0 ∉ buf.take m) (hne : [] ∉ chunks)
    (hnul : 0 ∉ chunks.flatten) (hclean : Clean re chunks m buf) :
    ∃ buf', grepFrom (re ++ [0]) chunks m buf out =
      some (buf', out ++ matching re (buf.take m ++ chunks.flatten)) := by
  induction chunks generalizing m buf out with
  | nil =>
      refine ⟨buf, ?_⟩
      rw [List.flatten_nil, List.append_nil, matching_of_notMem hm, List.append_nil]
      rfl
  | cons cs chunks ih =>
      simp only [List.mem_cons, not_or] at hne
      simp only [List.flatten_cons, List.mem_append, not_or] at hnul
      obtain ⟨hstop, hrest⟩ := hclean
      have hDnul : 0 ∉ buf.take m ++ cs := zero_notMem_taken hmnul hnul.1
      obtain ⟨hnext, hulen, hkept⟩ :=
        length_next re hbuf hmlen (room_of_stop hbuf hstop)
      rw [grepFrom_round hre hbuf hmlen hmnul (Ne.symm hne.1) hnul.1 hstop, matching_flatten_cons]
      by_cases hline : newline ∈ buf.take m ++ cs
      · rw [if_pos hline] at hrest ⊢
        have hu : newline ∉ unfinished (buf.take m ++ cs) := notMem_unfinished _
        have hunul : 0 ∉ unfinished (buf.take m ++ cs) := fun h =>
          hDnul (mem_of_mem_unfinished h)
        generalize unfinished (buf.take m ++ cs) = u at *
        obtain ⟨buf', hrun⟩ := ih (out ++ matching re (buf.take m ++ cs)) hnext hulen
          (by rwa [List.take_left]) (by rwa [List.take_left]) hne.2 hnul.2 hrest
        refine ⟨buf', ?_⟩
        rw [hrun, List.take_left, List.append_assoc]
      · rw [if_neg hline] at hrest ⊢
        have hnone : newline ∉ buf.take m ++ cs ++ chunks.flatten := by
          rw [List.mem_append, not_or]
          exact ⟨hline, hrest.1⟩
        obtain ⟨buf', hrun⟩ := ih (m := 0) out hkept (by omega) (by simp) (by simp) hne.2
          hnul.2 hrest.2
        refine ⟨buf', ?_⟩
        have hrun' : grepFrom (re ++ [0]) chunks 0
            (buf.take m ++ cs ++ buf.drop (m + cs.length)) out = _ := hrun
        rw [hrun', List.take_zero, List.nil_append, matching_of_notMem hrest.1,
          matching_of_notMem hline, unfinished_of_notMem hline, matching_of_notMem hnone,
          List.nil_append]

/-! ## Other splittings do not, for a pattern that matches every line -/

/-- The pattern matches every line. -/
def MatchesAll (re : List UInt8) : Prop :=
  ∀ l, 0 ∉ l → newline ∉ l → matchre (re ++ [0]) (l ++ [0]) = some true

theorem matchesAll_nil : MatchesAll [] := by
  intro l _ _
  change matchany (matchhere [0]) (l ++ [0]) = some true
  cases l <;> rfl

/-- A newline left in the buffer behind the new bytes is taken for the end of a line, and
then `m` is negative: the next call of `read` would store in front of the buffer. -/
theorem grepFrom_stale {buf' r : List UInt8} (hre : 0 ∉ re) (hall : MatchesAll re)
    (hbuf : buf.length = bufsize) (hmlen : m ≤ bufsize) (hmnul : 0 ∉ buf.take m) (hcs : cs ≠ [])
    (hnul : 0 ∉ cs) (hne : [] ∉ chunks)
    (hstop : strchr newline (buf.drop (m + cs.length)) ≠ some none)
    (hgrep : grepFrom (re ++ [0]) (cs :: chunks) m buf out = some (buf', r)) :
    chunks = [] ∧ ∃ u, newline ∉ u ∧
      out ++ matching re (buf.take m ++ cs) ++ (unfinished (buf.take m ++ cs) ++ u ++ [newline])
        <+: r := by
  have hroom : m + cs.length ≤ bufsize := by
    by_contra hover
    rw [grepFrom, if_neg hcs, readInto, if_pos (Or.inr (by omega))] at hgrep
    cases hgrep
  have hDnul : 0 ∉ buf.take m ++ cs := zero_notMem_taken hmnul hnul
  have hDlen : (buf.take m ++ cs).length = m + cs.length := length_taken hbuf hmlen
  have hlen := length_blotted re (buf.take m ++ cs)
  obtain ⟨n, hscan⟩ := grepFrom_scan hre hbuf hmlen hmnul hcs hnul
    hroom
  rw [hscan] at hgrep
  have hunul : 0 ∉ unfinished (buf.take m ++ cs) := fun h => hDnul (mem_of_mem_unfinished h)
  have hunew : newline ∉ unfinished (buf.take m ++ cs) := notMem_unfinished _
  rcases hchr : strchr newline (buf.drop (m + cs.length)) with _ | _ | i
  · -- there is no nul at all
    rw [scanLines, List.drop_left, strchr_append hunul hunew, hchr] at hgrep
    cases hgrep
  · exact absurd hchr hstop
  · -- the bogus line: the unfinished one and what is left up to the old newline
    obtain ⟨u, v, hS, hu, hu'⟩ := eq_of_strchr hchr
    have hlnul : 0 ∉ unfinished (buf.take m ++ cs) ++ u := by
      rw [List.mem_append, not_or]
      exact ⟨hunul, hu⟩
    have hlnew : newline ∉ unfinished (buf.take m ++ cs) ++ u := by
      rw [List.mem_append, not_or]
      exact ⟨hunew, hu'⟩
    have hstep := scanLines_line (blotted re (buf.take m ++ cs)) v n
      (out ++ matching re (buf.take m ++ cs)) hre hlnul hlnew
    rw [if_pos (hall _ hlnul hlnew), if_pos (hall _ hlnul hlnew), List.append_assoc _ u, ← hS]
      at hstep
    rw [hstep] at hgrep
    simp only [Option.bind_eq_some_iff, Prod.exists] at hgrep
    obtain ⟨p, buf₁, out₁, hrest, hgrep⟩ := hgrep
    obtain ⟨hp, hout⟩ := scanLines_mono hrest
    have hcslen : 0 < cs.length := List.length_pos_iff.mpr hcs
    have hp' : m + cs.length < p := by
      simp only [List.length_append] at hp
      omega
    rw [if_neg (show ¬p = 0 by omega), if_pos (show (0 : ℤ) < m + cs.length by omega)] at hgrep
    have hchunks : chunks = [] := by
      cases chunks with
      | nil => rfl
      | cons c chunks =>
          have hc : c ≠ [] := fun h => hne (h ▸ List.mem_cons_self)
          have hneg : (m : ℤ) + cs.length - p < 0 := by omega
          rw [grepFrom, if_neg hc, readInto, if_pos (Or.inl hneg)] at hgrep
          cases hgrep
    exact ⟨hchunks, u, hu', hout.trans (grepFrom_mono hgrep)⟩

/-- After a chunk without a newline has been forgotten, the next line lacks its front. -/
theorem grepFrom_forgotten {buf' r : List UInt8} (hre : 0 ∉ re) (hall : MatchesAll re)
    (hbuf : buf.length = bufsize) (hne : [] ∉ chunks) (hnul : 0 ∉ chunks.flatten)
    (hline : newline ∈ chunks.flatten)
    (hgrep : grepFrom (re ++ [0]) chunks 0 buf out = some (buf', r)) :
    ∃ Y X rest, chunks.flatten = Y ++ (X ++ newline :: rest) ∧ newline ∉ Y ∧ newline ∉ X ∧
      out ++ (X ++ [newline]) <+: r := by
  induction chunks generalizing buf out with
  | nil => simp at hline
  | cons cs chunks ih =>
      simp only [List.mem_cons, not_or] at hne
      simp only [List.flatten_cons, List.mem_append, not_or] at hnul
      by_cases hcs : newline ∈ cs
      · -- the first line of the chunk is printed, whatever comes behind it
        obtain ⟨X, tail, rfl, hX⟩ := List.eq_append_cons_of_mem hcs
        have hXnul : 0 ∉ X := fun h => hnul.1 (List.mem_append_left _ h)
        have hfirst : out ++ (X ++ [newline]) <+: out ++ matching re (X ++ newline :: tail) := by
          rw [matching_line hX, if_pos (hall X hXnul hX)]
          exact (List.prefix_append_right_inj out).mpr (List.prefix_append _ _)
        refine ⟨[], X, tail ++ chunks.flatten, by simp, by simp, hX, hfirst.trans ?_⟩
        by_cases hstop : strchr newline (buf.drop (0 + (X ++ newline :: tail).length)) = some none
        · have hround := (grepFrom_round (m := 0) hre hbuf (by omega) (by simp) (Ne.symm hne.1)
            hnul.1 hstop).symm.trans hgrep
          rw [if_pos (by simp)] at hround
          exact grepFrom_mono hround
        · obtain ⟨-, u, -, hprefix⟩ := grepFrom_stale (m := 0) hre hall hbuf (by omega) (by simp)
            (Ne.symm hne.1) hnul.1 hne.2 hstop hgrep
          exact (List.prefix_append _ _).trans hprefix
      · have hmore : newline ∈ chunks.flatten := by
          rw [List.flatten_cons, List.mem_append] at hline
          exact hline.resolve_left hcs
        have hstop : strchr newline (buf.drop (0 + cs.length)) = some none := by
          by_contra hstop
          obtain ⟨rfl, -⟩ := grepFrom_stale (m := 0) hre hall hbuf (by omega) (by simp)
            (Ne.symm hne.1) hnul.1 hne.2 hstop hgrep
          simp at hmore
        have hkept := (length_next (m := 0) re hbuf (by omega)
          (room_of_stop hbuf hstop)).2.2
        have hround := (grepFrom_round (m := 0) hre hbuf (by omega) (by simp) (Ne.symm hne.1)
          hnul.1 hstop).symm.trans hgrep
        rw [if_neg (by simpa using hcs)] at hround
        obtain ⟨Y, X, tail, hflat, hY, hX, hr⟩ := ih hkept hne.2 hnul.2 hmore hround
        refine ⟨cs ++ Y, X, tail, by simp [hflat], ?_, hX, hr⟩
        rw [List.mem_append, not_or]
        exact ⟨hcs, hY⟩

theorem clean_of_grepFrom {buf' : List UInt8} (out : List UInt8) (hre : 0 ∉ re)
    (hall : MatchesAll re) (hbuf : buf.length = bufsize) (hmlen : m ≤ bufsize)
    (hmnul : 0 ∉ buf.take m) (hne : [] ∉ chunks) (hnul : 0 ∉ chunks.flatten)
    (hgrep : grepFrom (re ++ [0]) chunks m buf out =
      some (buf', out ++ matching re (buf.take m ++ chunks.flatten))) :
    Clean re chunks m buf := by
  induction chunks generalizing m buf out with
  | nil => exact trivial
  | cons cs chunks ih =>
      simp only [List.mem_cons, not_or] at hne
      simp only [List.flatten_cons, List.mem_append, not_or] at hnul
      have hcs : cs ≠ [] := Ne.symm hne.1
      have hDnul : 0 ∉ buf.take m ++ cs := zero_notMem_taken hmnul hnul.1
      have hstop : strchr newline (buf.drop (m + cs.length)) = some none := by
        by_contra hstop
        obtain ⟨rfl, u, -, hprefix⟩ := grepFrom_stale hre hall hbuf hmlen hmnul hcs hnul.1 hne.2
          hstop hgrep
        -- more is printed than the input has
        have hlen := hprefix.length_le
        rw [matching_flatten_cons, List.flatten_nil, List.append_nil,
          matching_of_notMem (notMem_unfinished _)] at hlen
        simp only [List.length_append, List.length_singleton, List.length_nil] at hlen
        omega
      obtain ⟨hnext, hulen, hkept⟩ :=
        length_next re hbuf hmlen (room_of_stop hbuf hstop)
      rw [grepFrom_round hre hbuf hmlen hmnul hcs hnul.1 hstop, matching_flatten_cons] at hgrep
      refine ⟨hstop, ?_⟩
      by_cases hline : newline ∈ buf.take m ++ cs
      · rw [if_pos hline] at hgrep ⊢
        have hunul : 0 ∉ unfinished (buf.take m ++ cs) := fun h =>
          hDnul (mem_of_mem_unfinished h)
        generalize unfinished (buf.take m ++ cs) = u at *
        refine ih (out ++ matching re (buf.take m ++ cs)) hnext hulen (by rwa [List.take_left])
          hne.2 hnul.2 ?_
        rw [List.take_left, List.append_assoc]
        exact hgrep
      · rw [if_neg hline] at hgrep ⊢
        rw [matching_of_notMem hline, List.nil_append, unfinished_of_notMem hline] at hgrep
        have hmore : newline ∉ chunks.flatten := by
          intro hmore
          obtain ⟨Y, X, tail, hflat, hY, hX, hr⟩ :=
            grepFrom_forgotten hre hall hkept hne.2 hnul.2 hmore hgrep
          have hE : newline ∉ buf.take m ++ cs ++ (Y ++ X) := by
            simp only [List.mem_append, not_or] at hline ⊢
            exact ⟨hline, hY, hX⟩
          have hEnul : 0 ∉ buf.take m ++ cs ++ (Y ++ X) := by
            have hrest := hnul.2
            rw [hflat] at hrest
            simp only [List.mem_append, List.mem_cons, not_or] at hrest hDnul ⊢
            exact ⟨hDnul, hrest.1, hrest.2.1⟩
          have hassoc : buf.take m ++ cs ++ (Y ++ (X ++ newline :: tail)) =
              (buf.take m ++ cs ++ (Y ++ X)) ++ newline :: tail := by simp
          rw [hflat, hassoc, matching_line hE, if_pos (hall _ hEnul hE),
            List.prefix_append_right_inj] at hr
          obtain ⟨t, ht⟩ := hr
          have hfirst : X ++ newline :: t =
              (buf.take m ++ cs ++ (Y ++ X)) ++ newline :: matching re tail := by
            simpa using ht
          have hlen := congrArg List.length (line_inj hX hE hfirst)
          simp only [List.length_append] at hlen
          have := List.length_pos_iff.mpr hcs
          omega
        refine ⟨hmore, ih (m := 0) out hkept (by omega) (by simp) hne.2 hnul.2 ?_⟩
        have hnone : newline ∉ buf.take m ++ cs ++ chunks.flatten := by
          rw [List.mem_append, not_or]
          exact ⟨hline, hmore⟩
        rw [matching_of_notMem hnone] at hgrep
        rw [List.take_zero, List.nil_append, matching_of_notMem hmore]
        exact hgrep

/-! ## Calls of `grep` -/

/-- Whatever an earlier call has left in `buf`: `grep` prints exactly the matching lines of the
input and stays inside `buf` if the calls of `read` split the input cleanly, and for a pattern
that matches every line only then. -/
theorem grep_matching_of_clean {re buf : List UInt8} {chunks : List (List UInt8)} (hre : 0 ∉ re)
    (hbuf : buf.length = bufsize) (hne : [] ∉ chunks) (hnul : 0 ∉ chunks.flatten) :
    (Clean re chunks 0 buf →
      ∃ buf', grep (re ++ [0]) buf chunks = some (buf', matching re chunks.flatten)) ∧
    (MatchesAll re →
      (∃ buf', grep (re ++ [0]) buf chunks = some (buf', matching re chunks.flatten)) →
      Clean re chunks 0 buf) := by
  constructor
  · intro hclean
    exact grepFrom_of_clean (m := 0) [] hre hbuf (by omega) (by simp) (by simp) hne hnul hclean
  · rintro hall ⟨buf', hgrep⟩
    exact clean_of_grepFrom (m := 0) [] hre hall hbuf (by omega) (by simp) hne hnul hgrep

/-- What `grep a` leaves in `buf` after the lines `ab` and `c`, read in one chunk. -/
def leftBuf : List UInt8 :=
  [97, 98, 10, 99, 0] ++ List.replicate 1019 0

/-- The lines `ab` and `ca`, and then an unfinished one, in the second file. -/
theorem grep_matching_of_clean_second :
    (grep ([97] ++ [0]) (List.replicate bufsize 0) [[97, 98, 10, 99, 10]]).map Prod.fst =
      some leftBuf ∧
    ∃ buf', grep ([97] ++ [0]) leftBuf [[97, 98, 10, 99], [97, 10, 98]] =
      some (buf', matching [97] [[97, 98, 10, 99], [97, 10, 98]].flatten) :=
  ⟨by decide +kernel,
    (grep_matching_of_clean (by decide) (by decide +kernel) (by decide) (by decide)).1
      (by decide +kernel)⟩

/-- The line `ab` split into `a` and `b` with the newline: the pattern `a` matches the line,
but nothing is printed. -/
theorem grep_loses_line :
    (grep ([97] ++ [0]) (List.replicate bufsize 0) [[97], [98, 10]]).map Prod.snd = some [] ∧
      matching [97] [[97], [98, 10]].flatten = [97, 98, 10] := by
  constructor
  · decide +kernel
  · decide +kernel

end Xv6.Grep
