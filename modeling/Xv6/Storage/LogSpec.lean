import Mathlib.Tactic.NormNum
import Xv6.Storage.Coherence
import Xv6.Storage.Log

/-!
# Specifications of the log functions

The header codec is a round trip, and `write_head`, `log_write` and
`install_trans` change the disk by an explicit list of sector writes.  The
specifications state the writes of returned and of stopped runs alike, which is
what crash arguments need.
-/

namespace Xv6

open Support Store

/-! ## The header codec -/

theorem word_putSectors {lh : List ℕ} (hlt : ∀ s ∈ lh, s < 2 ^ 32) (b : Block)
    (i : ℕ) (hlen : i + lh.length < 128) {j : ℕ} (hj : j < 128) :
    (putSectors b i lh).word j =
      if i < j then (lh[j - 1 - i]?).getD (b.word j) else b.word j := by
  induction lh generalizing b i with
  | nil => simp [putSectors]
  | cons s ss ih =>
      have hlen' : i + 1 + ss.length < 128 := by
        simp only [List.length_cons] at hlen
        omega
      rw [putSectors, ih (fun x hx => hlt x (List.mem_cons_of_mem _ hx)) _ _ hlen']
      by_cases hij : i + 1 < j
      · obtain ⟨m, hm⟩ : ∃ m, j - 1 - i = m + 1 := ⟨j - 2 - i, by omega⟩
        have hm' : j - 1 - (i + 1) = m := by omega
        rw [if_pos hij, if_pos (by omega), hm, hm', List.getElem?_cons_succ,
          Block.word_setWord_of_ne b hj (by omega)]
      · rw [if_neg hij]
        by_cases hij' : i < j
        · have hj' : j = i + 1 := by omega
          subst hj'
          have hzero : i + 1 - 1 - i = 0 := by omega
          rw [if_pos hij', hzero, Block.word_setWord_self b hj (hlt s List.mem_cons_self)]
          rfl
        · rw [if_neg hij', Block.word_setWord_of_ne b hj (by omega)]

theorem headN_putHead {lh : List ℕ} (hlt : ∀ s ∈ lh, s < 2 ^ 32) (b : Block)
    (hlen : lh.length ≤ logsize) : headN (putHead b lh) = lh.length := by
  unfold logsize at hlen
  unfold headN putHead
  rw [word_putSectors hlt _ 0 (by omega) (by omega), if_neg (by omega),
    Block.word_setWord_self b (by omega) (by omega)]
  unfold toInt32
  rw [if_pos (by omega)]

theorem headSectors_putHead {lh : List ℕ} (hlt : ∀ s ∈ lh, s < 2 ^ 32) (b : Block)
    (hlen : lh.length ≤ logsize) : headSectors (putHead b lh) = lh := by
  have hn := headN_putHead hlt b hlen
  unfold logsize at hlen
  unfold headSectors
  rw [hn, Int.toNat_natCast]
  apply List.ext_getElem
  · simp
  · intro i hi hi'
    rw [List.getElem_map, List.getElem_range]
    unfold putHead
    rw [word_putSectors hlt _ 0 (by omega) (by omega), if_pos (by omega)]
    have hidx : i + 1 - 1 - 0 = i := by omega
    rw [hidx, List.getElem?_eq_getElem hi']
    rfl

theorem headSectors_of_headN {b : Block} (h : headN b = 0) : headSectors b = [] := by
  unfold headSectors
  rw [h]
  rfl

/-! ## Sector writes through the cache -/

/-- Why a buffer for sector `s` could not be had. -/
def NoBuffer (st : Store) (s : ℕ) (e : Stop) : Prop :=
  (e = .asleep ∧ st.IsBusy s) ∨
    (e = .bgetNoBuffers ∧ ∀ b ∈ st.bufs, b.busy = true ∨ b.dirty = true)

/-- One sector is written: on disk, in the cache and in no dirty buffer. -/
structure Wrote (s : ℕ) (d : Block) (st st' : Store) : Prop where
  coherent : st'.Coherent
  base : st'.base = st.base
  writes : st'.writes = (s, d) :: st.writes
  log : st'.log = st.log
  view : ∀ x, st'.view x = if x = s then d else st.view x
  dirty : ∀ x, st'.IsDirty x ↔ x ≠ s ∧ st.IsDirty x
  busy : ∀ x, st'.IsBusy x ↔ st.IsBusy x

theorem Wrote.disk {s : ℕ} {d : Block} {st st' : Store} (h : Wrote s d st st')
    (x : ℕ) : st'.disk x = if x = s then d else st.disk x := by
  unfold Store.disk
  rw [h.base, h.writes]
  rfl

theorem rewriteSector_spec {st : Store} (hst : st.Coherent) (s : ℕ)
    (f : Block → Block) :
    Exec.wp (rewriteSector s f) (fun _ st' => Wrote s (f (st.view s)) st st')
      (fun e st' => st' = st ∧ NoBuffer st s e) st := by
  unfold rewriteSector
  refine Exec.wp_seq (bread_spec hst s) ?_ (fun e st' h => h)
  rintro b st₁ ⟨rfl, hidle, hcoh₁, hkept₁, hbusy₁⟩
  have hbusy : st₁.IsBusy s := (hbusy₁ s).mpr (Or.inl rfl)
  refine Exec.wp_seq (bwrite_spec hcoh₁ s _) ?_
    (fun e st' h => absurd hbusy h.2.2)
  rintro - st₂ ⟨hcoh₂, hbase₂, hwrites₂, hlog₂, hview₂, hdirty₂, hbusy₂⟩
  refine Exec.wp_mono (brelse_spec hcoh₂ s) ?_
    (fun e st' h => absurd ((hbusy₂ s).mpr hbusy) h.2.2)
  rintro - st₃ ⟨hcoh₃, hkept₃, hbusy₃⟩
  refine ⟨hcoh₃, ?_, ?_, ?_, ?_, ?_, ?_⟩
  · rw [hkept₃.base, hbase₂, hkept₁.base]
  · rw [hkept₃.writes, hwrites₂, hkept₁.writes]
  · rw [hkept₃.log, hlog₂, hkept₁.log]
  · intro x
    rw [hkept₃.view, hview₂, hkept₁.view]
  · intro x
    rw [hkept₃.dirty, hdirty₂, hkept₁.dirty]
  · intro x
    rw [hbusy₃, hbusy₂, hbusy₁]
    constructor
    · rintro ⟨hne, heq | h⟩
      · exact absurd heq hne
      · exact h
    · intro h
      exact ⟨fun heq => hidle (heq ▸ h), Or.inr h⟩

theorem rewriteSector_idle {st : Store} (hst : st.Coherent) (s : ℕ)
    (f : Block → Block) :
    Exec.wp (rewriteSector s f) (fun _ _ => ¬ st.IsBusy s) (fun _ _ => True) st := by
  unfold rewriteSector
  refine Exec.wp_seq (bread_spec hst s) ?_ (fun _ _ _ => trivial)
  rintro b st₁ ⟨-, hidle, -⟩
  unfold Exec.wp Exec.Post
  split
  · exact hidle
  · trivial

theorem writeHead_spec {st : Store} (hst : st.Coherent) :
    Exec.wp writeHead
      (fun _ st' => Wrote st.log.start (putHead (st.view st.log.start) st.log.lh) st st')
      (fun e st' => st' = st ∧ NoBuffer st st.log.start e) st := by
  unfold writeHead
  simp only [Exec.wp_bind, Exec.wp_gets]
  exact rewriteSector_spec hst _ _

/-! ## `log_write` -/

/-- What a returned `log_write` of data `d` for sector `s` did. -/
structure Logged (s : ℕ) (d : Block) (st st' : Store) : Prop where
  coherent : st'.Coherent
  base : st'.base = st.base
  writes : st'.writes = (logSlot st.log s, d) :: st.writes
  log : st'.log = { st.log with lh := logHead st.log s }
  view : ∀ x, st'.view x = if x = s ∨ x = logSlot st.log s then d else st.view x
  dirty : ∀ x, st'.IsDirty x ↔ x = s ∨ (x ≠ logSlot st.log s ∧ st.IsDirty x)
  busy : ∀ x, st'.IsBusy x ↔ st.IsBusy x
  slot_ne : logSlot st.log s ≠ s
  fits : st.log.lh.length < logsize ∧ st.log.lh.length + 1 < st.log.size
  inTrans : st.log.busy = true

/-- `log_write` of a sector whose buffer the caller holds.  A run that stops
has written nothing; it stops with `write outside of trans` exactly when no
transaction is active. -/
theorem logWrite_spec {st : Store} (hst : st.Coherent) {s : ℕ} (d : Block)
    (hs : st.IsBusy s) :
    Exec.wp (logWrite s d) (fun _ st' => Logged s d st st')
      (fun e st' => st' = st ∧
        (e = .tooBigATransaction ∨
          (e = .writeOutsideOfTrans ∧ st.log.busy = false) ∨
          NoBuffer st (logSlot st.log s) e)) st := by
  unfold logWrite
  simp only [Exec.wp_bind, Exec.wp_gets]
  by_cases hfull : logsize ≤ st.log.lh.length ∨ st.log.size ≤ st.log.lh.length + 1
  · rw [if_pos hfull]
    exact Exec.wp_throw.mpr ⟨rfl, Or.inl rfl⟩
  rw [if_neg hfull]
  by_cases hbusy : st.log.busy = false
  · rw [if_pos hbusy]
    exact Exec.wp_throw.mpr ⟨rfl, Or.inr (Or.inl ⟨rfl, hbusy⟩)⟩
  rw [if_neg hbusy]
  refine Exec.wp_seq
    (Exec.wp_and (rewriteSector_spec hst (logSlot st.log s) fun _ => d)
      (rewriteSector_idle hst (logSlot st.log s) fun _ => d)) ?_
    (fun e st' h => ⟨h.1.1, Or.inr (Or.inr h.1.2)⟩)
  rintro - st₁ ⟨hw, hidle⟩
  rw [setHead, Exec.wp_bind, Exec.wp_modify, Exec.wp_modify]
  have hne : logSlot st.log s ≠ s := by
    intro heq
    rw [heq] at hidle
    exact hidle hs
  have hsec : ∀ b : Buf, ({ b with dirty := true, data := d } : Buf).sector =
      b.sector := fun _ => rfl
  set st₂ : Store := { st₁ with log := { st₁.log with lh := logHead st.log s } }
    with hst₂
  have hcoh₂ : st₂.Coherent :=
    ⟨hw.coherent.nodup, hw.coherent.valid, hw.coherent.clean, hw.coherent.unused,
      hw.coherent.length⟩
  obtain ⟨b, hb, hbb⟩ := (hw.busy s).mpr hs
  have hb₂ : st₂.lookup s = some b := hb
  have hlog₁ := hw.log
  refine ⟨?_, hw.base, hw.writes, ?_, ?_, ?_, ?_, hne, ?_, ?_⟩
  · apply hcoh₂.update hsec
    · intro b' hb'
      exact hcoh₂.valid s b' hb'
    · intro b' hb' hd
      cases hd
  · change { st₁.log with lh := logHead st.log s } = _
    rw [hlog₁]
  · intro x
    rw [view_update hsec hb₂]
    by_cases hxs : x = s
    · simp [hxs]
    · have hv : st₂.view x = st₁.view x := rfl
      simp only [hxs, if_false, false_or]
      rw [hv, hw.view]
  · intro x
    rw [isDirty_update hsec]
    have hd : st₂.IsDirty x ↔ st₁.IsDirty x := Iff.rfl
    rw [hd, hw.dirty, hb₂]
    by_cases hxs : x = s
    · simp [hxs]
    · simp [hxs]
  · intro x
    rw [isBusy_update hsec, hb₂]
    have hd : st₂.IsBusy x ↔ st₁.IsBusy x := Iff.rfl
    rw [hd, hw.busy]
    by_cases hxs : x = s
    · subst hxs
      simp [hbb, hs]
    · simp [hxs]
  · omega
  · simpa using hbusy

/-! ## `install_trans` -/

/-- One round of the install loop writes the logged block to its home sector.
It can stop only if some sector is busy or dirty already. -/
theorem installOne_spec {st : Store} (hst : st.Coherent) {start tail s : ℕ}
    (hne : s ≠ start + tail + 1) :
    Exec.wp (installOne start tail s)
      (fun _ st' => Wrote s (st.view (start + tail + 1)) st st')
      (fun _ st' => st'.base = st.base ∧ st'.writes = st.writes ∧
        ¬ ∀ x, ¬ st.IsBusy x ∧ ¬ st.IsDirty x) st := by
  set slot := start + tail + 1 with hslot
  unfold installOne
  refine Exec.wp_seq (bread_spec hst slot) ?_ ?_
  swap
  · rintro e st' ⟨rfl, hno⟩
    refine ⟨rfl, rfl, fun hfree => ?_⟩
    rcases hno with ⟨-, hb⟩ | ⟨-, hall⟩
    · exact (hfree slot).1 hb
    · refine exists_idle hst [] ?_ (by simp) hall
      rintro x (hb | hd)
      · exact absurd hb (hfree x).1
      · exact absurd hd (hfree x).2
  rintro data st₁ ⟨rfl, hidle, hcoh₁, hkept₁, hbusy₁⟩
  refine Exec.wp_seq (bread_spec hcoh₁ s) ?_ ?_
  swap
  · rintro e st' ⟨rfl, hno⟩
    refine ⟨hkept₁.base, hkept₁.writes, fun hfree => ?_⟩
    rcases hno with ⟨-, hb⟩ | ⟨-, hall⟩
    · rcases (hbusy₁ s).mp hb with heq | hb
      · exact hne heq
      · exact (hfree s).1 hb
    · refine exists_idle hcoh₁ [slot] ?_ (by simp) hall
      rintro x (hb | hd)
      · rcases (hbusy₁ x).mp hb with heq | hb
        · simp [heq]
        · exact absurd hb (hfree x).1
      · exact absurd ((hkept₁.dirty x).mp hd) (hfree x).2
  rintro - st₂ ⟨-, hidle₁, hcoh₂, hkept₂, hbusy₂⟩
  have hb₂ : st₂.IsBusy s := (hbusy₂ s).mpr (Or.inl rfl)
  refine Exec.wp_seq (bwrite_spec hcoh₂ s _) ?_
    (fun e st' h => absurd hb₂ h.2.2)
  rintro - st₃ ⟨hcoh₃, hbase₃, hwrites₃, hlog₃, hview₃, hdirty₃, hbusy₃⟩
  have hb₃ : st₃.IsBusy slot := by
    rw [hbusy₃, hbusy₂, hbusy₁]
    exact Or.inr (Or.inl rfl)
  refine Exec.wp_seq (brelse_spec hcoh₃ slot) ?_
    (fun e st' h => absurd hb₃ h.2.2)
  rintro - st₄ ⟨hcoh₄, hkept₄, hbusy₄⟩
  have hb₄ : st₄.IsBusy s := by
    rw [hbusy₄, hbusy₃]
    exact ⟨hne, hb₂⟩
  refine Exec.wp_mono (brelse_spec hcoh₄ s) ?_
    (fun e st' h => absurd hb₄ h.2.2)
  rintro - st₅ ⟨hcoh₅, hkept₅, hbusy₅⟩
  refine ⟨hcoh₅, ?_, ?_, ?_, ?_, ?_, ?_⟩
  · rw [hkept₅.base, hkept₄.base, hbase₃, hkept₂.base, hkept₁.base]
  · rw [hkept₅.writes, hkept₄.writes, hwrites₃, hkept₂.writes, hkept₁.writes]
  · rw [hkept₅.log, hkept₄.log, hlog₃, hkept₂.log, hkept₁.log]
  · intro x
    rw [hkept₅.view, hkept₄.view, hview₃, hkept₂.view, hkept₁.view]
  · intro x
    rw [hkept₅.dirty, hkept₄.dirty, hdirty₃, hkept₂.dirty, hkept₁.dirty]
  · intro x
    have hs : ¬ st.IsBusy s := fun h => hidle₁ ((hbusy₁ s).mpr (Or.inr h))
    rw [hbusy₅, hbusy₄, hbusy₃, hbusy₂, hbusy₁]
    by_cases hxs : x = s
    · subst hxs
      simp [hs]
    · by_cases hxl : x = slot
      · subst hxl
        simp [hidle]
      · simp [hxs, hxl]

/-- What the install loop has done: the blocks with index from `tail` on are at
home, other sectors are as before. -/
structure Installed (start tail : ℕ) (ss : List ℕ) (st st' : Store) : Prop where
  coherent : st'.Coherent
  base : st'.base = st.base
  log : st'.log = st.log
  home : ∀ i (h : i < ss.length), st'.view ss[i] = st.view (start + (tail + i) + 1)
  homeDisk : ∀ i (h : i < ss.length), st'.disk ss[i] = st.view (start + (tail + i) + 1)
  other : ∀ x, x ∉ ss → st'.view x = st.view x
  otherDisk : ∀ x, x ∉ ss → st'.disk x = st.disk x
  dirty : ∀ x, st'.IsDirty x ↔ x ∉ ss ∧ st.IsDirty x
  busy : ∀ x, st'.IsBusy x ↔ st.IsBusy x

/-- The install loop over distinct home sectors outside the log.  A property of
the disk that every single install keeps holds throughout. -/
theorem installFrom_spec (P : (ℕ → Block) → Prop) (start tail : ℕ)
    {w₀ : List (ℕ × Block)} {ss : List ℕ} (hnodup : ss.Nodup)
    (hout : ∀ s ∈ ss, ∀ i < ss.length, s ≠ start + (tail + i) + 1)
    {st : Store} (hst : st.Coherent)
    (hP : ∀ D i (h : i < ss.length), P D →
      P (fun x => if x = ss[i] then st.view (start + (tail + i) + 1) else D x))
    (hthrough : Throughout P st.base w₀ st.writes) :
    Exec.wp (installFrom start tail ss)
      (fun _ st' => Installed start tail ss st st' ∧
        Throughout P st.base w₀ st'.writes)
      (fun _ st' => st'.base = st.base ∧ Throughout P st.base w₀ st'.writes ∧
        ¬ ∀ x, ¬ st.IsBusy x ∧ ¬ st.IsDirty x) st := by
  induction ss generalizing st tail with
  | nil =>
      refine Exec.wp_pure.mpr ⟨⟨hst, rfl, rfl, ?_, ?_, ?_, ?_, ?_, ?_⟩, hthrough⟩
      · intro i h
        cases h
      · intro i h
        cases h
      all_goals simp
  | cons s ss ih =>
      obtain ⟨hs, hnodup'⟩ := List.nodup_cons.mp hnodup
      rw [installFrom]
      have hne : s ≠ start + tail + 1 := hout s List.mem_cons_self 0 (by simp)
      refine Exec.wp_seq (installOne_spec hst hne) ?_ ?_
      swap
      · rintro e st' ⟨hbase, hwrites, hfree⟩
        exact ⟨hbase, hwrites ▸ hthrough, hfree⟩
      rintro - st₁ hw
      -- the log slots still to be installed are not touched by this install
      have hslot : ∀ i < ss.length,
          st₁.view (start + (tail + 1 + i) + 1) = st.view (start + (tail + (i + 1)) + 1) := by
        intro i hi
        have hne' := hout s List.mem_cons_self (i + 1) (by simpa using hi)
        have hidx : start + (tail + 1 + i) + 1 = start + (tail + (i + 1)) + 1 := by omega
        rw [hw.view, hidx, if_neg (Ne.symm hne')]
      have hthrough₁ : Throughout P st₁.base w₀ st₁.writes := by
        rw [hw.base, hw.writes]
        exact hthrough.cons (hP _ 0 (by simp) hthrough.now)
      have hstep := ih (tail + 1) hnodup' ?_ hw.coherent ?_ hthrough₁
      · refine Exec.wp_mono hstep ?_ ?_
        · rintro - st₂ ⟨hin, hthrough₂⟩
          refine ⟨⟨hin.coherent, hin.base.trans hw.base, hin.log.trans hw.log,
            ?_, ?_, ?_, ?_, ?_, ?_⟩, hw.base ▸ hthrough₂⟩
          · intro i hi
            cases i with
            | zero =>
                rw [List.getElem_cons_zero, hin.other s hs, hw.view, if_pos rfl]
                rfl
            | succ i =>
                have hi' : i < ss.length := by simpa using hi
                rw [List.getElem_cons_succ, hin.home i hi', hslot i hi']
          · intro i hi
            cases i with
            | zero =>
                rw [List.getElem_cons_zero, hin.otherDisk s hs, hw.disk, if_pos rfl]
                rfl
            | succ i =>
                have hi' : i < ss.length := by simpa using hi
                rw [List.getElem_cons_succ, hin.homeDisk i hi', hslot i hi']
          · intro x hx
            simp only [List.mem_cons, not_or] at hx
            rw [hin.other x hx.2, hw.view, if_neg hx.1]
          · intro x hx
            simp only [List.mem_cons, not_or] at hx
            rw [hin.otherDisk x hx.2, hw.disk, if_neg hx.1]
          · intro x
            rw [hin.dirty, hw.dirty]
            simp only [List.mem_cons, not_or]
            tauto
          · intro x
            rw [hin.busy, hw.busy]
        · rintro e st₂ ⟨hbase, hthrough₂, hfree⟩
          refine ⟨hbase.trans hw.base, hw.base ▸ hthrough₂, fun h => hfree ?_⟩
          intro x
          rw [hw.busy, hw.dirty]
          exact ⟨(h x).1, fun hd => (h x).2 hd.2⟩
      · intro s' hs' i hi heq
        apply hout s' (List.mem_cons_of_mem _ hs') (i + 1) (by simpa using hi)
        rw [heq]
        omega
      · intro D i hi hD
        have hP' := hP D (i + 1) (by simpa using hi) hD
        rw [List.getElem_cons_succ] at hP'
        rw [hslot i hi]
        exact hP'

end Xv6
