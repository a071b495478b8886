import Xv6.Storage.LogSpec

/-!
# Crash atomicity of the redo log

A transaction is `begin_trans`, any number of logged sector updates, and
`commit_trans`.  A crash cuts the sequence of sector writes anywhere; recovery
runs on the disk that is left, and may itself be cut and restarted.

Two shapes of the disk carry the argument.  `Clean X` has an empty log and the
contents `X` outside the log.  `Redo X lh` has a log naming the home sectors
`lh`, with the blocks of `X` for them in its slots; outside the log and away
from `lh` the contents are `X`.  Every disk before the commit write is clean
for the old contents; every disk after it can be redone to the new ones.
-/

namespace Xv6

open Support Store

/-- A sector outside the on-disk log, header sector included. -/
def OutsideLog (log : Log) (s : ℕ) : Prop :=
  s < log.start ∨ log.start + log.size ≤ s

/-- The contents after the updates `ws` (in order of issue) of `old`. -/
def lastLogged (ws : List (ℕ × Block)) (old : ℕ → Block) : ℕ → Block :=
  contents old ws.reverse

/-- One update of a transaction: read the sector, modify it, log it. -/
def transWrite (w : ℕ × Block) : StoreM Unit := do
  let _ ← bread w.1
  logWrite w.1 w.2
  brelse w.1

/-- A transaction up to the point where `commit_trans` is called. -/
def transWrites (ws : List (ℕ × Block)) : StoreM Unit := do
  beginTrans
  Exec.each transWrite ws

/-- A whole transaction. -/
def transaction (ws : List (ℕ × Block)) : StoreM Unit := do
  transWrites ws
  commitTrans

/-- The kernel at the call of `recover_from_log` after a crash left `D` on the
disk: an empty cache and an empty in-memory header. -/
def reboot (log : Log) (D : ℕ → Block) : Store where
  base := D
  writes := []
  bufs := binit
  log := { log with busy := false, lh := [] }

/-- The disks that a crash leaving `D`, followed by any number of recoveries
that crash in turn, can leave. -/
inductive AfterCrash (log : Log) (D : ℕ → Block) : (ℕ → Block) → Prop where
  | crash : AfterCrash log D D
  | again {D' : ℕ → Block} {t : List (ℕ × Block)} (h : AfterCrash log D D')
      (ht : t <:+ (recoverFromLog (reboot log D')).2.writes) :
      AfterCrash log D (contents D' t)

/-- The store between two transactions. -/
structure Quiet (st : Store) : Prop where
  coherent : st.Coherent
  idle : st.log.busy = false
  empty : st.log.lh = []
  clean : ∀ s, ¬ st.IsDirty s
  room : 0 < st.log.size
  head : headN (st.disk st.log.start) = 0

/-! ## Shapes of the disk -/

/-- Empty log, contents `X` outside it. -/
structure Clean (log : Log) (X D : ℕ → Block) : Prop where
  head : headN (D log.start) = 0
  home : ∀ s, OutsideLog log s → D s = X s

/-- The log names the home sectors `lh` and holds the blocks of `X` for them. -/
structure Redo (log : Log) (X : ℕ → Block) (lh : List ℕ) (D : ℕ → Block) : Prop where
  head : headSectors (D log.start) = lh
  slot : ∀ i (h : i < lh.length), D (log.start + i + 1) = X lh[i]
  home : ∀ s, OutsideLog log s → s ∉ lh → D s = X s
  nodup : lh.Nodup
  outside : ∀ s ∈ lh, OutsideLog log s
  fits : lh.length < log.size

theorem Clean.redo {log : Log} {X D : ℕ → Block} (hroom : 0 < log.size)
    (h : Clean log X D) : Redo log X [] D where
  head := headSectors_of_headN h.head
  slot := by
    intro i hi
    cases hi
  home := fun s hs _ => h.home s hs
  nodup := List.nodup_nil
  outside := by simp
  fits := hroom

/-- A slot of the log is not a home sector. -/
theorem OutsideLog.ne_slot {log : Log} {s i : ℕ} (h : OutsideLog log s)
    (hi : i < log.size) : s ≠ log.start + i := by
  intro heq
  rcases h with h | h
  · omega
  · omega

/-- Installing one logged block keeps the shape. -/
theorem Redo.install {log : Log} {X D : ℕ → Block} {lh : List ℕ}
    (h : Redo log X lh D) (i : ℕ) (hi : i < lh.length) :
    Redo log X lh (fun x => if x = lh[i] then X lh[i] else D x) where
  head := by
    have hne := (h.outside _ (List.getElem_mem hi)).ne_slot (i := 0) (by
      have := h.fits
      omega)
    rw [if_neg (by simpa using Ne.symm hne)]
    exact h.head
  slot := by
    intro j hj
    have hne := (h.outside _ (List.getElem_mem hi)).ne_slot (i := j + 1) (by
      have := h.fits
      omega)
    rw [if_neg (fun heq => hne (by omega))]
    exact h.slot j hj
  home := by
    intro s hs hmem
    have hne : s ≠ lh[i] := fun heq => hmem (heq ▸ List.getElem_mem hi)
    rw [if_neg hne]
    exact h.home s hs hmem
  nodup := h.nodup
  outside := h.outside
  fits := h.fits

/-- Once all blocks are installed and the header is erased, the disk is clean. -/
theorem Redo.erase {log : Log} {X D D' : ℕ → Block} {lh : List ℕ}
    (hredo : Redo log X lh D)
    (hhead : headN (D' log.start) = 0)
    (hhome : ∀ i (h : i < lh.length), D' lh[i] = X lh[i])
    (hother : ∀ s, OutsideLog log s → s ∉ lh → D' s = D s) : Clean log X D' where
  head := hhead
  home := by
    intro s hs
    by_cases hmem : s ∈ lh
    · obtain ⟨i, hi, rfl⟩ := List.getElem_of_mem hmem
      exact hhome i hi
    · rw [hother s hs hmem]
      exact hredo.home s hs hmem

/-! ## Recovery -/

theorem coherent_reboot (log : Log) (D : ℕ → Block) : (reboot log D).Coherent := by
  have hsec : ∀ b ∈ (reboot log D).bufs, b.sector = none ∧ b.busy = false ∧
      b.dirty = false := by
    intro b hb
    obtain ⟨-, rfl⟩ := List.mem_replicate.mp hb
    exact ⟨rfl, rfl, rfl⟩
  have hnone : ∀ s b, (reboot log D).lookup s ≠ some b := by
    intro s b h
    obtain ⟨hb, hs⟩ := lookup_sector h
    rw [(hsec b hb).1] at hs
    cases hs
  refine ⟨?_, ?_, ?_, ?_, rfl⟩
  · have hnil : (reboot log D).bufs.filterMap Buf.sector = [] := by
      rw [List.filterMap_eq_nil_iff]
      intro b hb
      exact (hsec b hb).1
    rw [hnil]
    exact List.nodup_nil
  · intro s b h
    exact absurd h (hnone s b)
  · intro s b h
    exact absurd h (hnone s b)
  · intro b hb _
    exact (hsec b hb).2

theorem lookup_reboot (log : Log) (D : ℕ → Block) (s : ℕ) :
    (reboot log D).lookup s = none := by
  apply List.find?_eq_none.mpr
  intro b hb
  obtain ⟨-, rfl⟩ := List.mem_replicate.mp hb
  simp

/-- Nothing is locked and nothing waits to be written. -/
def Unpinned (st : Store) : Prop :=
  ∀ x, ¬ st.IsBusy x ∧ ¬ st.IsDirty x

theorem Unpinned.not_noBuffer {st : Store} (hst : st.Coherent) (h : Unpinned st)
    {s : ℕ} {e : Stop} : ¬ NoBuffer st s e := by
  rintro (⟨-, hb⟩ | ⟨-, hall⟩)
  · exact (h s).1 hb
  · refine exists_idle hst [] ?_ (by simp) hall
    rintro x (hb | hd)
    · exact absurd hb (h x).1
    · exact absurd hd (h x).2

/-- `read_head` with nothing pinned loads the header and writes nothing. -/
theorem readHead_spec {st : Store} (hst : st.Coherent) (hfree : Unpinned st) :
    Exec.wp readHead
      (fun _ st' => st'.Coherent ∧ Unpinned st' ∧ st'.base = st.base ∧
        st'.writes = st.writes ∧ st'.view = st.view ∧
        st'.log = { st.log with lh := headSectors (st.view st.log.start) })
      (fun _ _ => False) st := by
  unfold readHead
  simp only [Exec.wp_bind, Exec.wp_gets]
  refine Exec.wp_mono (bread_spec hst _) ?_ ?_
  swap
  · rintro e st' ⟨-, hno⟩
    exact hfree.not_noBuffer hst hno
  rintro b st₁ ⟨rfl, -, hcoh₁, hkept₁, hbusy₁⟩
  simp only [setHead, Exec.wp_modify]
  set st₂ : Store := { st₁ with
    log := { st₁.log with lh := headSectors (st.view st.log.start) } }
  have hcoh₂ : st₂.Coherent :=
    ⟨hcoh₁.nodup, hcoh₁.valid, hcoh₁.clean, hcoh₁.unused, hcoh₁.length⟩
  have hb₂ : st₂.IsBusy st.log.start := (hbusy₁ _).mpr (Or.inl rfl)
  refine Exec.wp_mono (brelse_spec hcoh₂ _) ?_
    (fun e st' h => absurd hb₂ h.2.2)
  rintro - st₃ ⟨hcoh₃, hkept₃, hbusy₃⟩
  refine ⟨hcoh₃, ?_, ?_, ?_, ?_, ?_⟩
  · intro x
    constructor
    · intro hb
      obtain ⟨hne, hb⟩ := (hbusy₃ x).mp hb
      rcases (hbusy₁ x).mp hb with heq | hb
      · exact hne heq
      · exact (hfree x).1 hb
    · intro hd
      exact (hfree x).2 ((hkept₁.dirty x).mp ((hkept₃.dirty x).mp hd))
  · rw [hkept₃.base]
    exact hkept₁.base
  · rw [hkept₃.writes]
    exact hkept₁.writes
  · funext x
    rw [hkept₃.view]
    exact hkept₁.view x
  · rw [hkept₃.log]
    change ({ st₁.log with lh := headSectors (st.view st.log.start) } : Log) = _
    rw [hkept₁.log]

/-- `P` of the text above: the disk can be redone to `X`. -/
def Redoable (log : Log) (X D : ℕ → Block) : Prop :=
  ∃ lh, Redo log X lh D

/-- Installing and erasing a log whose slots hold the blocks of `X`.  The disk
stays redoable to `X` at every write and ends clean; only pinned buffers can
stop the run. -/
theorem installErase_spec {log : Log} {X : ℕ → Block} {lh : List ℕ} {st : Store}
    {w₀ : List (ℕ × Block)} (hst : st.Coherent) (hstart : st.log.start = log.start)
    (hlh : st.log.lh = lh) (hredo : Redo log X lh st.disk)
    (hslot : ∀ i (h : i < lh.length), st.view (log.start + i + 1) = X lh[i])
    (hthrough : Throughout (Redoable log X) st.base w₀ st.writes) :
    Exec.wp installErase
      (fun _ st' => Clean log X st'.disk ∧
        Throughout (Redoable log X) st.base w₀ st'.writes)
      (fun _ st' => Throughout (Redoable log X) st.base w₀ st'.writes ∧
        ¬ Unpinned st) st := by
  have hfits := hredo.fits
  have hroom : 0 < log.size := lt_of_le_of_lt (Nat.zero_le _) hfits
  unfold installErase installTrans
  simp only [Exec.wp_bind, Exec.wp_gets]
  rw [hstart, hlh]
  -- the install loop
  have hinstall := installFrom_spec (Redo log X lh) log.start 0 hredo.nodup ?_ hst ?_
    (Throughout.refl hredo)
  · refine Exec.wp_mono hinstall ?_ ?_
    swap
    · rintro e st₁ ⟨-, hthrough₁, hfree⟩
      exact ⟨hthrough.trans (hthrough₁.mono fun D hD => ⟨lh, hD⟩), hfree⟩
    rintro - st₁ ⟨hin, hthrough₁⟩
    have hthrough₁' := hthrough.trans (hthrough₁.mono fun D hD => ⟨lh, hD⟩)
    -- the erase
    simp only [setHead, Exec.wp_modify]
    set st₂ : Store := { st₁ with log := { st₁.log with lh := [] } } with hst₂
    have hcoh₂ : st₂.Coherent :=
      ⟨hin.coherent.nodup, hin.coherent.valid, hin.coherent.clean,
        hin.coherent.unused, hin.coherent.length⟩
    refine Exec.wp_mono (writeHead_spec hcoh₂) ?_ ?_
    swap
    · rintro e st' ⟨rfl, hno⟩
      refine ⟨hthrough₁', fun hfree => ?_⟩
      have hfree₂ : Unpinned st₂ := by
        intro x
        have hb : st₂.IsBusy x ↔ st₁.IsBusy x := Iff.rfl
        have hd : st₂.IsDirty x ↔ st₁.IsDirty x := Iff.rfl
        rw [hb, hd, hin.busy, hin.dirty]
        exact ⟨(hfree x).1, fun h => (hfree x).2 h.2⟩
      exact hfree₂.not_noBuffer hcoh₂ hno
    rintro - st₃ hw
    have hs₂ : st₂.log.start = log.start := by
      change st₁.log.start = _
      rw [hin.log, hstart]
    have hl₂ : st₂.log.lh = [] := rfl
    rw [hs₂, hl₂] at hw
    have hclean : Clean log X st₃.disk := by
      apply hredo.erase
      · rw [hw.disk, if_pos rfl]
        exact headN_putHead (by simp) _ (by simp)
      · intro i hi
        have hne := (hredo.outside _ (List.getElem_mem hi)).ne_slot hroom
        rw [hw.disk, if_neg (by simpa using hne)]
        change st₁.disk _ = _
        have hidx : log.start + (0 + i) + 1 = log.start + i + 1 := by omega
        rw [hin.homeDisk i hi, hidx]
        exact hslot i hi
      · intro s hs hmem
        have hne := hs.ne_slot hroom
        rw [hw.disk, if_neg (by simpa using hne)]
        exact hin.otherDisk s hmem
    refine ⟨hclean, ?_⟩
    have hnow : contents st.base
        ((log.start, putHead (st₂.view log.start) []) :: st₁.writes) = st₃.disk := by
      unfold Store.disk
      rw [hw.writes, hw.base]
      change contents st.base _ = contents st₁.base _
      rw [hin.base]
    rw [hw.writes]
    refine hthrough₁'.cons ⟨[], ?_⟩
    rw [hnow]
    exact hclean.redo hroom
  · intro s hs i hi heq
    apply (hredo.outside s hs).ne_slot (i := i + 1) (by omega)
    omega
  · intro D' i hi hD'
    have hidx : log.start + (0 + i) + 1 = log.start + i + 1 := by omega
    rw [hidx, hslot i hi]
    exact hD'.install i hi

/-- Recovery of a disk that can be redone to `X` returns, leaves `X` outside an
empty log, and keeps the disk redoable to `X` at every one of its writes. -/
theorem recoverFromLog_spec {log : Log} {X D : ℕ → Block} (h : Redoable log X D) :
    Exec.wp recoverFromLog
      (fun _ st' => Clean log X st'.disk ∧
        Throughout (Redoable log X) D [] st'.writes)
      (fun _ _ => False) (reboot log D) := by
  obtain ⟨lh, hredo⟩ := h
  have hcoh := coherent_reboot log D
  have hfree : Unpinned (reboot log D) := by
    intro x
    simp [IsBusy, IsDirty, lookup_reboot]
  have hview : ∀ s, (reboot log D).view s = D s := fun s =>
    view_of_lookup_none (lookup_reboot log D s)
  unfold recoverFromLog
  refine Exec.wp_seq (readHead_spec hcoh hfree) ?_ (fun _ _ h => h)
  rintro - st₁ ⟨hcoh₁, hfree₁, hbase₁, hwrites₁, hview₁, hlog₁⟩
  have hstart : (reboot log D).log.start = log.start := rfl
  rw [hstart, hview, hredo.head] at hlog₁
  have hdisk₁ : st₁.disk = D := by
    unfold Store.disk
    rw [hbase₁, hwrites₁]
    rfl
  have hthrough₁ : Throughout (Redoable log X) st₁.base [] st₁.writes := by
    rw [hbase₁, hwrites₁]
    exact Throughout.refl ⟨lh, hredo⟩
  have herase := installErase_spec hcoh₁
    (by rw [hlog₁, hstart]) (by rw [hlog₁]) (hdisk₁ ▸ hredo) ?_ hthrough₁
  · refine Exec.wp_mono herase ?_ (fun _ _ h => h.2 hfree₁)
    rintro - st₂ ⟨hclean, hthrough₂⟩
    rw [hbase₁] at hthrough₂
    exact ⟨hclean, hthrough₂⟩
  · intro i hi
    rw [hview₁, hview]
    exact hredo.slot i hi

/-- Recoveries that crash keep the disk redoable to the same contents. -/
theorem AfterCrash.redo {log : Log} {X D D' : ℕ → Block}
    (h : AfterCrash log D D') (hD : Redoable log X D) : Redoable log X D' := by
  induction h with
  | crash => exact hD
  | @again D₁ t _ ht ih =>
      obtain ⟨_, st', hrun, -, hthrough⟩ := Exec.wp_total (recoverFromLog_spec ih)
      rw [hrun] at ht
      exact hthrough.2 t (List.nil_suffix) ht

/-! ## The transaction up to its commit -/

/-- The store inside a transaction that has logged the updates `done`. -/
structure InTrans (st₀ : Store) (done : List (ℕ × Block)) (st : Store) : Prop where
  coherent : st.Coherent
  base : st.base = st₀.base
  start : st.log.start = st₀.log.start
  size : st.log.size = st₀.log.size
  nodup : st.log.lh.Nodup
  mem : ∀ s, s ∈ st.log.lh ↔ s ∈ done.map Prod.fst
  fits : st.log.lh.length ≤ logsize ∧ st.log.lh.length < st.log.size
  slot : ∀ i (h : i < st.log.lh.length),
    st.view (st.log.start + i + 1) = lastLogged done st₀.disk st.log.lh[i]
  dirty : ∀ s, st.IsDirty s → s ∈ st.log.lh
  through : Throughout (Clean st₀.log st₀.disk) st₀.base st₀.writes st.writes

theorem lastLogged_append (done : List (ℕ × Block)) (s : ℕ) (d : Block)
    (old : ℕ → Block) (x : ℕ) :
    lastLogged (done ++ [(s, d)]) old x =
      if x = s then d else lastLogged done old x := by
  unfold lastLogged
  rw [List.reverse_append]
  rfl

/-- A logged update: the home sector's slot holds the new block, and the disk
stays clean for the old contents. -/
theorem InTrans.logged {st₀ st st' : Store} {done : List (ℕ × Block)} {s : ℕ}
    {d : Block} (h : InTrans st₀ done st) (hs : OutsideLog st₀.log s)
    (hl : Logged s d st st') : InTrans st₀ (done ++ [(s, d)]) st' := by
  have hlh : st'.log.lh = logHead st.log s := by rw [hl.log]
  have hstart' : st'.log.start = st.log.start := by rw [hl.log]
  have hsize' : st'.log.size = st.log.size := by rw [hl.log]
  have hslotlt : logSlot st.log s < st₀.log.start + st₀.log.size := by
    have hle := List.idxOf_le_length (a := s) (l := st.log.lh)
    have hfits := hl.fits
    unfold logSlot
    rw [h.start, ← h.size]
    omega
  have hslotgt : st₀.log.start < logSlot st.log s := by
    unfold logSlot
    rw [h.start]
    omega
  have hviewslot : ∀ i, i < st.log.size - 1 → i ≠ st.log.lh.idxOf s →
      st'.view (st.log.start + i + 1) = st.view (st.log.start + i + 1) := by
    intro i hi hne
    rw [hl.view, if_neg]
    rintro (heq | heq)
    · exact (hs.ne_slot (i := i + 1) (by rw [← h.size]; omega)) (by
        rw [← h.start, ← heq]
        omega)
    · unfold logSlot at heq
      omega
  have hviewself : st'.view (st.log.start + st.log.lh.idxOf s + 1) = d := by
    rw [hl.view]
    exact if_pos (Or.inr rfl)
  refine ⟨hl.coherent, hl.base.trans h.base, hstart'.trans h.start,
    hsize'.trans h.size, ?_, ?_, ?_, ?_, ?_, ?_⟩
  · rw [hlh, logHead]
    split
    · rename_i hidx
      have hmem : s ∉ st.log.lh := by
        intro hmem
        have := List.idxOf_lt_length_iff.mpr hmem
        omega
      exact (List.nodup_append.mpr ⟨h.nodup, List.nodup_singleton s, by
        intro a ha b hb heq
        rw [List.mem_singleton] at hb
        exact hmem (hb ▸ heq ▸ ha)⟩)
    · exact h.nodup
  · intro x
    rw [hlh, logHead]
    split
    · rw [List.mem_append, h.mem, List.map_append, List.mem_append]
      rfl
    · rename_i hidx
      have hmem : s ∈ st.log.lh := by
        apply List.idxOf_lt_length_iff.mp
        have := List.idxOf_le_length (a := s) (l := st.log.lh)
        omega
      rw [h.mem] at hmem ⊢
      rw [List.map_append, List.mem_append]
      constructor
      · exact Or.inl
      · rintro (hx | hx)
        · exact hx
        · simp only [List.map_cons, List.map_nil, List.mem_singleton] at hx
          exact hx ▸ hmem
  · have hfits := hl.fits
    have hlen : st'.log.lh.length ≤ st.log.lh.length + 1 := by
      rw [hlh, logHead]
      split
      · simp
      · omega
    rw [hsize']
    constructor
    · omega
    · omega
  · intro i hi
    rw [hstart', lastLogged_append]
    have hfits := hl.fits
    by_cases hidx : i = st.log.lh.idxOf s
    · -- the slot just written
      subst hidx
      have hget : st'.log.lh[st.log.lh.idxOf s] = s := by
        simp only [hlh, logHead]
        split
        · rename_i heq
          simp [heq]
        · exact List.getElem_idxOf _
      rw [hviewself, hget, if_pos rfl]
    · have hi' : i < st.log.lh.length := by
        rw [hlh, logHead] at hi
        split at hi
        · rename_i heq
          simp only [List.length_append, List.length_singleton] at hi
          omega
        · exact hi
      have hget : st'.log.lh[i] = st.log.lh[i] := by
        simp only [hlh, logHead]
        split
        · exact List.getElem_append_left hi'
        · rfl
      have hne : st.log.lh[i] ≠ s := by
        intro heq
        apply hidx
        rw [← heq]
        exact (h.nodup.idxOf_getElem i hi').symm
      rw [hget, if_neg hne, hviewslot i (by omega) hidx, h.slot i hi']
  · intro x hx
    rw [hl.dirty] at hx
    rw [hlh]
    unfold logHead
    rcases hx with rfl | ⟨-, hx⟩
    · split
      · simp
      · rename_i hidx
        apply List.idxOf_lt_length_iff.mp
        have := List.idxOf_le_length (a := x) (l := st.log.lh)
        omega
    · split
      · exact List.mem_append_left _ (h.dirty x hx)
      · exact h.dirty x hx
  · rw [hl.writes]
    refine h.through.cons ⟨?_, ?_⟩
    · rw [contents_cons_of_ne _ (by omega)]
      exact h.through.now.head
    · intro x hx
      have hne : x ≠ logSlot st.log s := by
        rcases hx with hx | hx
        · omega
        · omega
      rw [contents_cons_of_ne _ hne]
      exact h.through.now.home x hx

theorem InTrans.kept {st₀ st st' : Store} {done : List (ℕ × Block)}
    (h : InTrans st₀ done st) (hcoh : st'.Coherent) (hkept : Kept st st') :
    InTrans st₀ done st' := by
  have hlog := hkept.log
  refine ⟨hcoh, hkept.base.trans h.base, ?_, ?_, ?_, ?_, ?_, ?_, ?_, ?_⟩
  · rw [hlog]
    exact h.start
  · rw [hlog]
    exact h.size
  · rw [hlog]
    exact h.nodup
  · rw [hlog]
    exact h.mem
  · rw [hlog]
    exact h.fits
  · intro i hi
    rw [hkept.view]
    simp only [hlog] at hi ⊢
    exact h.slot i hi
  · intro s hs
    rw [hlog]
    exact h.dirty s ((hkept.dirty s).mp hs)
  · rw [hkept.writes]
    exact h.through

/-- One update keeps the transaction invariant, or stops with the disk clean at
every write so far. -/
theorem transWrite_spec {st₀ st : Store} {done : List (ℕ × Block)} {w : ℕ × Block}
    (h : InTrans st₀ done st) (hw : OutsideLog st₀.log w.1) :
    Exec.wp (transWrite w) (fun _ st' => InTrans st₀ (done ++ [w]) st')
      (fun _ st' => Throughout (Clean st₀.log st₀.disk) st₀.base st₀.writes st'.writes)
      st := by
  unfold transWrite
  refine Exec.wp_seq (bread_spec h.coherent w.1) ?_ ?_
  swap
  · rintro e st' ⟨rfl, -⟩
    exact h.through
  rintro - st₁ ⟨-, -, hcoh₁, hkept₁, hbusy₁⟩
  have h₁ := h.kept hcoh₁ hkept₁
  refine Exec.wp_seq (logWrite_spec hcoh₁ w.2 ((hbusy₁ w.1).mpr (Or.inl rfl))) ?_ ?_
  swap
  · rintro e st' ⟨rfl, -⟩
    exact h₁.through
  rintro - st₂ hl
  have h₂ := h₁.logged hw hl
  refine Exec.wp_mono (brelse_spec h₂.coherent w.1) ?_ ?_
  · rintro - st₃ ⟨hcoh₃, hkept₃, -⟩
    exact h₂.kept hcoh₃ hkept₃
  · rintro e st' ⟨rfl, -⟩
    exact h₂.through

theorem transWrites_spec {st : Store} (hq : Quiet st) {ws : List (ℕ × Block)}
    (hws : ∀ w ∈ ws, OutsideLog st.log w.1) :
    Exec.wp (transWrites ws) (fun _ st' => InTrans st ws st')
      (fun _ st' => Throughout (Clean st.log st.disk) st.base st.writes st'.writes)
      st := by
  have hclean : Clean st.log st.disk (contents st.base st.writes) :=
    ⟨hq.head, fun _ _ => rfl⟩
  unfold transWrites beginTrans
  simp only [Exec.wp_bind, Exec.wp_gets, hq.idle, Bool.false_eq_true, if_false,
    Exec.wp_modify]
  refine Exec.wp_each (I := InTrans st) ?_ ?_
  · intro done w rest st' hsplit hin
    exact transWrite_spec hin (hws w (by simp [hsplit]))
  · have hcoh := hq.coherent
    refine ⟨⟨hcoh.nodup, hcoh.valid, hcoh.clean, hcoh.unused, hcoh.length⟩, rfl, rfl,
      rfl, ?_, ?_, ?_, ?_, ?_, Throughout.refl hclean⟩
    · simp [hq.empty]
    · simp [hq.empty]
    · simpa [hq.empty] using hq.room
    · simp [hq.empty]
    · intro s hs
      exact absurd hs (hq.clean s)

/-! ## The commit -/

/-- A sector that was never logged keeps its old contents. -/
theorem lastLogged_of_not_mem {ws : List (ℕ × Block)} {old : ℕ → Block} {s : ℕ}
    (h : s ∉ ws.map Prod.fst) : lastLogged ws old s = old s := by
  have hnot : ∀ l : List (ℕ × Block), s ∉ l.map Prod.fst →
      contents old l s = old s := by
    intro l hl
    induction l with
    | nil => rfl
    | cons w l ih =>
        simp only [List.map_cons, List.mem_cons, not_or] at hl
        rw [contents_cons, if_neg hl.1, ih hl.2]
  apply hnot
  rw [List.map_reverse, List.mem_reverse]
  exact h

/-- Writing the header of a transaction's log makes the disk redoable to the
new contents. -/
theorem InTrans.redo {st₀ st st₁ : Store} {ws : List (ℕ × Block)}
    (hws : ∀ w ∈ ws, OutsideLog st₀.log w.1 ∧ w.1 < 2 ^ 32)
    (h : InTrans st₀ ws st)
    (hw : Wrote st₀.log.start (putHead (st.view st₀.log.start) st.log.lh) st st₁) :
    Redo st₀.log (lastLogged ws st₀.disk) st.log.lh st₁.disk := by
  have hlhws : ∀ s ∈ st.log.lh, OutsideLog st₀.log s ∧ s < 2 ^ 32 := by
    intro s hs
    obtain ⟨w, hw, rfl⟩ := List.mem_map.mp ((h.mem s).mp hs)
    exact hws w hw
  have hfits := h.fits.2
  rw [h.size] at hfits
  refine ⟨?_, ?_, ?_, h.nodup, fun s hs => (hlhws s hs).1, hfits⟩
  · rw [hw.disk, if_pos rfl]
    exact headSectors_putHead (fun s hs => (hlhws s hs).2) _ h.fits.1
  · intro i hi
    have hslot := h.slot i hi
    rw [h.start] at hslot
    -- a log slot is never a dirty home sector
    have hclean : ¬ st.IsDirty (st₀.log.start + i + 1) := by
      intro hdirty
      exact (hlhws _ (h.dirty _ hdirty)).1.ne_slot (i := i + 1) (by omega) rfl
    rw [hw.disk, if_neg (by omega), ← view_eq_disk h.coherent hclean]
    exact hslot
  · intro s hs hmem
    have hne := hs.ne_slot (i := 0) (by omega)
    rw [h.mem] at hmem
    rw [hw.disk, if_neg (by simpa using hne), lastLogged_of_not_mem hmem]
    have hold := h.through.now.home s hs
    rw [← h.base] at hold
    exact hold

/-- A commit that has written anything has written the header first; from then
on the disk can be redone to the new contents. -/
theorem commitTrans_spec {st₀ st : Store} {ws : List (ℕ × Block)}
    (hws : ∀ w ∈ ws, OutsideLog st₀.log w.1 ∧ w.1 < 2 ^ 32)
    (h : InTrans st₀ ws st) :
    let E := fun st' : Store => st'.writes = st.writes ∨
      ∃ w, Throughout (Redoable st₀.log (lastLogged ws st₀.disk)) st₀.base
        (w :: st.writes) st'.writes
    Exec.wp commitTrans (fun _ st' => E st') (fun _ st' => E st') st := by
  intro E
  unfold commitTrans
  rw [Exec.wp_bind, Exec.wp_gets]
  by_cases hnil : st.log.lh = []
  · simp only [hnil, ne_eq, not_true_eq_false, if_false]
    exact Exec.wp_modify.mpr (Or.inl rfl)
  simp only [ne_eq, hnil, not_false_eq_true, if_true, Exec.wp_bind]
  -- the commit write
  refine Exec.wp_mono (writeHead_spec h.coherent) ?_ ?_
  swap
  · rintro e st' ⟨rfl, -⟩
    exact Or.inl rfl
  rintro - st₁ hw
  rw [h.start] at hw
  have hredo := h.redo hws hw
  have hbase₁ : st₁.base = st₀.base := hw.base.trans h.base
  have hthrough₁ : Throughout (Redoable st₀.log (lastLogged ws st₀.disk)) st₁.base
      ((st₀.log.start, putHead (st.view st₀.log.start) st.log.lh) :: st.writes)
      st₁.writes := by
    rw [← hw.writes]
    exact Throughout.refl ⟨_, hredo⟩
  have herase := installErase_spec hw.coherent (by rw [hw.log, h.start])
    (by rw [hw.log]) hredo ?_ hthrough₁
  · rw [hbase₁] at herase
    refine Exec.wp_mono herase ?_ ?_
    · rintro - st₂ ⟨-, hthrough₂⟩
      exact Exec.wp_modify.mpr (Or.inr ⟨_, hthrough₂⟩)
    · rintro e st₂ ⟨hthrough₂, -⟩
      exact Or.inr ⟨_, hthrough₂⟩
  · intro i hi
    rw [hw.view, if_neg (by omega), ← h.start]
    exact h.slot i hi

/-! ## Crash atomicity -/

/-- Cut the sector writes of a transaction at any point, then run recovery,
itself cut and restarted any number of times.  The last recovery returns with
an empty log; outside the log the disk holds the new contents if the commit
write had been reached, and otherwise the contents before the transaction. -/
theorem transaction_crash_atomic {st : Store} (hq : Quiet st)
    (ws : List (ℕ × Block))
    (hws : ∀ w ∈ ws, OutsideLog st.log w.1 ∧ w.1 < 2 ^ 32)
    {t : List (ℕ × Block)} (hstart : st.writes <:+ t)
    (hend : t <:+ (transaction ws st).2.writes) {D : ℕ → Block}
    (hD : AfterCrash st.log (contents st.base t) D) :
    ∃ st', recoverFromLog (reboot st.log D) = (.ok (), st') ∧
      headN (st'.disk st.log.start) = 0 ∧
      ∀ s, OutsideLog st.log s → st'.disk s =
        if (transWrites ws st).2.writes.length < t.length
        then lastLogged ws st.disk s else st.disk s := by
  -- it is enough to name the contents the cut disk can be redone to
  suffices hredo : Redoable st.log
      (if (transWrites ws st).2.writes.length < t.length
        then lastLogged ws st.disk else st.disk) (contents st.base t) by
    obtain ⟨_, st', hrun, hclean, -⟩ :=
      Exec.wp_total (recoverFromLog_spec (hD.redo hredo))
    refine ⟨st', hrun, hclean.head, ?_⟩
    intro s hs
    rw [hclean.home s hs]
    split
    · rfl
    · rfl
  have hwrites := transWrites_spec hq fun w hw => (hws w hw).1
  unfold transaction at hend
  rw [Exec.bind_run] at hend
  -- a history within the transaction proper leaves the disk clean
  have hbefore : ∀ st₁ : Store,
      Throughout (Clean st.log st.disk) st.base st.writes st₁.writes →
      t <:+ st₁.writes → (transWrites ws st).2.writes = st₁.writes →
      Redoable st.log
        (if (transWrites ws st).2.writes.length < t.length
          then lastLogged ws st.disk else st.disk) (contents st.base t) := by
    intro st₁ hthrough ht heq
    have hle := ht.length_le
    rw [heq, if_neg (by omega)]
    exact ⟨[], (hthrough.2 t hstart ht).redo hq.room⟩
  cases hrun : transWrites ws st with
  | mk r st₁ =>
      rw [hrun] at hend
      cases r with
      | error e =>
          have hthrough := Exec.wp_error hwrites hrun
          exact hrun ▸ hbefore st₁ hthrough hend (by rw [hrun])
      | ok a =>
          have hin := Exec.wp_ok hwrites hrun
          have hcommit : (commitTrans st₁).2.writes = st₁.writes ∨
              ∃ w, Throughout (Redoable st.log (lastLogged ws st.disk)) st.base
                (w :: st₁.writes) (commitTrans st₁).2.writes := by
            have hspec := commitTrans_spec hws hin
            cases hrun' : commitTrans st₁ with
            | mk r' st₂ =>
                cases r' with
                | ok a' =>
                    have h := Exec.wp_ok hspec hrun'
                    exact h
                | error e' =>
                    have h := Exec.wp_error hspec hrun'
                    exact h
          have hend' : t <:+ (commitTrans st₁).2.writes := hend
          rcases hcommit with heq | ⟨w, hthrough⟩
          · rw [heq] at hend'
            exact hrun ▸ hbefore st₁ hin.through hend' (by rw [hrun])
          · rcases List.suffix_or_suffix_of_suffix hend' hthrough.1 with ht | ht
            · rcases List.suffix_cons_iff.mp ht with rfl | ht'
              · rw [if_pos (by simp)]
                exact hthrough.start
              · exact hrun ▸ hbefore st₁ hin.through ht' (by rw [hrun])
            · have hle := ht.length_le
              have hlt : st₁.writes.length < t.length := Nat.lt_of_succ_le hle
              rw [if_pos hlt]
              exact hthrough.2 t ht hend'

/-- A zeroed disk with its log at sectors 20 to 29, just booted. -/
def freshStore : Store :=
  reboot ⟨20, 10, false, []⟩ fun _ => Block.zero

theorem quiet_freshStore : Quiet freshStore where
  coherent := coherent_reboot _ _
  idle := rfl
  empty := rfl
  clean := by
    intro s
    simp [freshStore, IsDirty, lookup_reboot]
  room := by decide
  head := by decide +kernel

/-- Recovery crashes once, before its last `k` writes. -/
theorem AfterCrash.once {log : Log} {D : ℕ → Block} (k : ℕ) :
    AfterCrash log D (contents D ((recoverFromLog (reboot log D)).2.writes.drop k)) :=
  .again .crash (List.drop_suffix k _)

def twoWrites : List (ℕ × Block) := [(5, fun _ => 1), (6, fun _ => 2)]

/-- The transaction that logs the sectors 5 and 6, cut before its commit write, and cut
with one sector installed by it and then again with one sector installed by recovery. -/
theorem transaction_crash_atomic_freshStore :
    let writes := (transaction twoWrites freshStore).2.writes
    let D := contents freshStore.base (writes.drop 2)
    let recovered := (recoverFromLog (reboot freshStore.log D)).2.writes
    (writes.map Prod.fst = [20, 6, 5, 20, 22, 21] ∧ recovered.map Prod.fst = [20, 6, 5]) ∧
      (∃ st', recoverFromLog (reboot freshStore.log (contents freshStore.base (writes.drop 4))) =
          (.ok (), st') ∧ st'.disk 5 = Block.zero ∧ st'.disk 6 = Block.zero) ∧
      ∃ st', recoverFromLog (reboot freshStore.log (contents D (recovered.drop 2))) =
          (.ok (), st') ∧ st'.disk 5 = (fun _ => 1) ∧ st'.disk 6 = fun _ => 2 := by
  have hws : ∀ w ∈ twoWrites, OutsideLog freshStore.log w.1 ∧ w.1 < 2 ^ 32 := by
    simp [twoWrites, OutsideLog, freshStore, reboot]
  have hbefore : (transWrites twoWrites freshStore).2.writes.length = 2 := by
    decide +kernel
  have hwrites : (transaction twoWrites freshStore).2.writes.map Prod.fst =
      [20, 6, 5, 20, 22, 21] := by
    decide +kernel
  have hlength : (transaction twoWrites freshStore).2.writes.length = 6 := by
    simpa using congrArg List.length hwrites
  dsimp only
  refine ⟨⟨hwrites, by decide +kernel⟩, ?_, ?_⟩
  · obtain ⟨st', hrun, -, hhome⟩ := transaction_crash_atomic quiet_freshStore twoWrites hws
      (List.nil_suffix) (List.drop_suffix 4 _) AfterCrash.crash
    rw [hbefore, List.length_drop, hlength] at hhome
    exact ⟨st', hrun, hhome 5 (Or.inl (by decide)), hhome 6 (Or.inl (by decide))⟩
  · obtain ⟨st', hrun, -, hhome⟩ := transaction_crash_atomic quiet_freshStore twoWrites hws
      (List.nil_suffix) (List.drop_suffix 2 _) (AfterCrash.once 2)
    rw [hbefore, List.length_drop, hlength] at hhome
    exact ⟨st', hrun, hhome 5 (Or.inl (by decide)), hhome 6 (Or.inl (by decide))⟩

end Xv6
