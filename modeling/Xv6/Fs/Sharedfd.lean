import Mathlib.Algebra.BigOperators.Group.Finset.Basic
import Mathlib.Algebra.Order.BigOperators.Group.Finset
import Mathlib.Data.Fintype.Basic
import Xv6.Fs.Chunk
import Xv6.Fs.Filewrite
import Xv6.Fs.Streams

/-!
# What the writers of a shared file leave in it

The offset of the file is read and advanced under the lock of the inode, inside one
transaction.  So each chunk goes to the end of the file as it is then, whatever the other
writers do between two chunks of one call.
-/

namespace Xv6.Fs

namespace Filewrite

open Support

/-! ## The file -/

/-- The bytes `bs` have been appended to the inode in entry `k` of the cache, and there are
free blocks for all that it lacks at places in `T`. -/
structure Appended (k : Fin ninode) (T : ℕ → Prop) [DecidablePred T] (v₀ v : Volume)
    (bs : List UInt8) : Prop where
  owned : Owned v
  ref : 0 < (v.inode k).ref
  valid : (v.inode k).valid = true
  same : (v.inode k).toDinode = v.dinode (v.inode k).inum
  allocated : v.Allocated (v.inode k).inum
  plain : v.Plain k
  data : v.data k = v₀.data k ++ bs
  stock : v.gaps k T ≤ v.freeBlocks.card
  fresh : v.fresh <:+ v₀.fresh
  ninodes : v.ninodes = v₀.ninodes
  logSize : v.log.size = v₀.log.size

namespace Appended

variable {k : Fin ninode} {T : ℕ → Prop} [DecidablePred T] {v₀ v v' : Volume} {bs : List UInt8}

/-- Locks and transactions do not matter to the file. -/
theorem retag (h : Appended k T v₀ v bs) (busy busy' : Bool) (sector : List ℕ)
    (hv : v' = { v.setInode k { v.inode k with busy := busy } with
      log := { v.log with busy := busy', sector := sector } }) : Appended k T v₀ v' bs := by
  have hself : v'.inode k = { v.inode k with busy := busy } := by
    rw [hv]
    exact Function.update_self _ _ _
  have href : ∀ a, v'.ref k a = v.ref k a := by
    intro a
    unfold Volume.ref
    rw [hself, hv]
    rfl
  have hdata : v'.data k = v.data k := by
    unfold Volume.data Volume.bytes Volume.byte
    rw [hself, hv]
    rfl
  have hfree : v'.freeBlocks = v.freeBlocks := by
    rw [hv]
    rfl
  refine ⟨h.owned.of_disk ?_ ?_, ?_, ?_, ?_, ?_, ?_, hdata.trans h.data, ?_, ?_, ?_, ?_⟩
  · rw [hv]
    rfl
  · rw [hv]
  · rw [hself]
    exact h.ref
  · rw [hself]
    exact h.valid
  · rw [hself, hv]
    exact h.same
  · rw [hself, hv]
    exact h.allocated
  · unfold Volume.Plain
    rw [hself]
    exact h.plain
  · rw [Volume.gaps_congr href, hfree]
    exact h.stock
  · rw [hv]
    exact h.fresh
  · rw [hv]
    exact h.ninodes
  · rw [hv]
    exact h.logSize

theorem length_data (h : Appended k T v₀ v bs) :
    (v.inode k).size = (v₀.inode k).size + bs.length := by
  rw [← v.length_data k, h.data, List.length_append, v₀.length_data k]

theorem locked (h : Appended k T v₀ v bs) (hbusy : (v.inode k).busy = true) : Locked v k :=
  ⟨h.ref, hbusy, h.valid, h.same, h.allocated⟩

theorem clustered (h : Appended k T v₀ v bs) (hclustered : v₀.Clustered) : v.Clustered := by
  intro l hl hlen
  rw [h.ninodes]
  exact hclustered l (hl.trans h.fresh.isInfix) hlen

/-- `writei` at the end of the file. -/
theorem writei {off n : ℕ} (h : Appended k T v₀ v bs) (hbusy : (v.inode k).busy = true)
    (htrans : v.log.busy = true) (hempty : v.log.sector = []) (hoff : off = (v.inode k).size)
    (hn : n ≤ maxChunk) (hend : off + n ≤ 71680) (hT : ∀ a, Reaches off n a → T a)
    (src : Chars) :
    (∃ v', Fs.writei k src off n v = (.ok (some n), v') ∧
      Appended k T v₀ v' (bs ++ (List.range n).map src) ∧ (v'.inode k).busy = true ∧
      v'.log.busy = true) ∨
    (Fs.writei k src off n v).1 = .error .tooBigATransaction ∧
      ¬(10 ≤ v₀.log.size ∧ v₀.Clustered) := by
  have hlocked := h.locked hbusy
  have hsole := h.owned.sole hlocked
  have hfree : v.gaps k (Reaches off n) ≤ v.freeBlocks.card :=
    (Volume.gaps_mono fun a _ => hT a).trans h.stock
  have hfits : WriteFits (v.inode k).size off n := by
    unfold WriteFits wrap32 maxfile bsize
    omega
  obtain ⟨hreturns, hpanics⟩ := (passes_writei hsole h.plain.ne_dev htrans hfits hend src
    hfree).returns_iff
  by_cases htakes : v.log.Takes (v.recorded k off n)
  · obtain ⟨res, v', hrun, rfl, hw, hfollows⟩ := hreturns htakes
    have hover := hw.overwritten h.owned hlocked h.plain hoff.le hend
    obtain ⟨v₁, hfill, hsplice⟩ := hw.spliced
    refine Or.inl ⟨v', hrun, ?_, hover.locked.busy, hsplice.busy.trans htrans⟩
    have hcard := hfill.card_freeBlocks (P := T) hsole fun a _ ha => hT a ha
    have hgaps : v'.gaps k T = v₁.gaps k T := Volume.gaps_congr hsplice.ref_eq
    have hblocks : v'.freeBlocks = v₁.freeBlocks := by
      unfold Volume.freeBlocks
      rw [hsplice.logStart_eq, hfill.logStart_eq, hsplice.used]
    have hstock := h.stock
    refine ⟨hover.owned, hover.locked.ref, hover.locked.valid, hover.locked.same,
      hover.locked.allocated, ?_, ?_, ?_, ?_, hsplice.ninodes.trans h.ninodes,
      hsplice.logSize.trans h.logSize⟩
    · unfold Volume.Plain
      rw [hsplice.self]
      exact h.plain
    · have hlen := v.length_data k
      rw [hover.data, List.take_of_length_le (by omega), List.drop_of_length_le (by omega),
        List.append_nil, h.data, List.append_assoc]
    · rw [hgaps, hblocks]
      omega
    · rw [hfollows.free]
      exact (Plan.free_write _ _).trans h.fresh
  · refine Or.inr ⟨hpanics htakes, fun hlog => htakes ?_⟩
    exact takes_chunk hsole (h.owned.full_of_locked hlocked h.plain) hoff hn hend hfree hempty
      (h.logSize ▸ hlog.1) (h.clustered hlog.2)

end Appended

theorem beginTrans_idle {v : Volume} (h : v.log.busy = false) :
    beginTrans v = (.ok (), v.trans) := by
  unfold beginTrans
  rw [Exec.bind_run_ok (Exec.gets_run _ _), h, if_neg Bool.false_ne_true]
  rfl

theorem beginTrans_busy {v : Volume} (h : v.log.busy = true) :
    beginTrans v = (.error .asleep, v) := by
  unfold beginTrans
  rw [Exec.bind_run_ok (Exec.gets_run _ _), h, if_pos rfl]
  rfl

theorem commitTrans_run (v : Volume) :
    commitTrans v = (.ok (), { v with log := { v.log with busy := false, sector := [] } }) :=
  rfl

theorem setInode_busy {v : Volume} {k : Fin ninode} {b : Bool} (h : (v.inode k).busy = b) :
    v = v.setInode k { v.inode k with busy := b } := by
  rw [← h]
  unfold Volume.setInode
  rw [Function.update_eq_self]

/-! ## The invariant -/

variable {ι : Type} [Fintype ι] {calls : ι → Call} {s s' s₀ : State ι} {w v : ι} {pc pc' : Pc}
  {h h' : Option ι} {chunks chunks' : List (ι × List UInt8)}

/-- The bytes that all calls have to write. -/
def total (calls : ι → Call) : ℕ :=
  ∑ w, (calls w).n

/-- What has been written is part of what the calls have to write. -/
theorem sum_written_le {pcs : ι → Pc} (hfits : ∀ w, (pcs w).Fits (calls w)) :
    ∑ w, (pcs w).written (calls w) ≤ total calls :=
  Finset.sum_le_sum fun w _ => (hfits w).written_le

variable [DecidableEq ι]

/-- The size of the shared file. -/
def State.size (s : State ι) : ℕ :=
  (s.vol.inode s.file.ip).size

/-- The contents of the shared file. -/
def State.content (s : State ι) : List UInt8 :=
  s.vol.data s.file.ip

/-- What holds with the call `h` in a transaction. -/
structure Sound (calls : ι → Call) (s₀ s : State ι) (h : Option ι)
    (chunks : List (ι × List UInt8)) : Prop where
  writable : s.file.writable = true
  type : s.file.type = .inode
  ip : s.file.ip = s₀.file.ip
  appended : Appended s₀.file.ip (Reaches s₀.size (total calls)) s₀.vol s.vol
    (chunks.map Prod.snd).flatten
  size : (s.vol.inode s₀.file.ip).size = s₀.size + ∑ w, (s.pc w).written (calls w)
  fits : ∀ w, (s.pc w).Fits (calls w)
  order : ∀ w, chunksOf w chunks ++ cut ((calls w).data.drop ((s.pc w).written (calls w))) =
    cut (calls w).data
  trans : ∀ w, (s.pc w).inTrans = true ↔ h = some w
  busy : s.vol.log.busy = h.isSome
  empty : (h.elim false fun w => (s.pc w).hasRecorded) = false → s.vol.log.sector = []
  locked : (s.vol.inode s₀.file.ip).busy = h.elim false fun w => (s.pc w).inLock
  off : s.file.off + h.elim 0 (fun w => (s.pc w).lag) = (s.vol.inode s₀.file.ip).size

/-- The file before the calls, with free blocks for what they write. -/
structure Ready (calls : ι → Call) (s : State ι) : Prop where
  writable : s.file.writable = true
  type : s.file.type = .inode
  owned : Owned s.vol
  ref : 0 < (s.vol.inode s.file.ip).ref
  valid : (s.vol.inode s.file.ip).valid = true
  same : (s.vol.inode s.file.ip).toDinode = s.vol.dinode (s.vol.inode s.file.ip).inum
  allocated : s.vol.Allocated (s.vol.inode s.file.ip).inum
  regular : (s.vol.inode s.file.ip).type = tFile
  unlocked : (s.vol.inode s.file.ip).busy = false
  idle : s.vol.log.busy = false
  empty : s.vol.log.sector = []
  off : s.file.off = s.size
  room : s.size + total calls ≤ maxfile * bsize
  stock : s.vol.gaps s.file.ip (Reaches s.size (total calls)) ≤ s.vol.freeBlocks.card
  start : ∀ w, s.pc w = .start

theorem Ready.sound (hs : Ready calls s) : Sound calls s s none [] where
  writable := hs.writable
  type := hs.type
  ip := rfl
  appended := ⟨hs.owned, hs.ref, hs.valid, hs.same, hs.allocated, Or.inl hs.regular,
    (List.append_nil _).symm, hs.stock, List.suffix_rfl, rfl, rfl⟩
  size := by simp [hs.start, Pc.written, State.size]
  fits w := by simp [hs.start, Pc.Fits]
  order w := by simp [hs.start, Pc.written, chunksOf]
  trans w := by simp [hs.start, Pc.inTrans]
  busy := hs.idle
  empty _ := hs.empty
  locked := hs.unlocked
  off := hs.off

/-! ## The steps -/

/-- A step of the call `w` counts for what `w` has written. -/
theorem sum_written (calls : ι → Call) (pcs : ι → Pc) (w : ι) (pc' : Pc) :
    ∑ v, (Function.update pcs w pc' v).written (calls v) + (pcs w).written (calls w) =
      ∑ v, (pcs v).written (calls v) + pc'.written (calls w) := by
  have hrest : ∑ v ∈ Finset.univ.erase w, (Function.update pcs w pc' v).written (calls v) =
      ∑ v ∈ Finset.univ.erase w, (pcs v).written (calls v) := by
    refine Finset.sum_congr rfl fun v hv => ?_
    rw [Function.update_of_ne (Finset.ne_of_mem_erase hv)]
  rw [← Finset.add_sum_erase _ _ (Finset.mem_univ w), hrest, Function.update_self,
    ← Finset.add_sum_erase _ (fun v => (pcs v).written (calls v)) (Finset.mem_univ w)]
  omega

variable {vol' : Volume} {off' : ℕ}

/-- The invariant after a step of the call `w`. -/
theorem Sound.next (hs : Sound calls s₀ s h chunks) (w : ι)
    (happended : Appended s₀.file.ip (Reaches s₀.size (total calls)) s₀.vol vol'
      (chunks'.map Prod.snd).flatten)
    (hsize : (vol'.inode s₀.file.ip).size + (s.pc w).written (calls w) =
      (s.vol.inode s₀.file.ip).size + pc'.written (calls w))
    (hfits : pc'.Fits (calls w))
    (horder : chunksOf w chunks' ++ cut ((calls w).data.drop (pc'.written (calls w))) =
      cut (calls w).data)
    (hothers : ∀ v, v ≠ w → chunksOf v chunks' = chunksOf v chunks)
    (htrans : pc'.inTrans = true ↔ h' = some w)
    (hkeep : ∀ v, v ≠ w → (h' = some v ↔ h = some v))
    (hbusy : vol'.log.busy = h'.isSome)
    (hempty : (h'.elim false fun v => (Function.update s.pc w pc' v).hasRecorded) = false →
      vol'.log.sector = [])
    (hlocked : (vol'.inode s₀.file.ip).busy =
      h'.elim false fun v => (Function.update s.pc w pc' v).inLock)
    (hoff : off' + h'.elim 0 (fun v => (Function.update s.pc w pc' v).lag) =
      (vol'.inode s₀.file.ip).size) :
    Sound calls s₀ ⟨vol', { s.file with off := off' }, Function.update s.pc w pc'⟩ h' chunks' where
  writable := hs.writable
  type := hs.type
  ip := hs.ip
  appended := happended
  size := by
    have hsum := sum_written calls s.pc w pc'
    have hbefore := hs.size
    simp only
    omega
  fits v := by
    by_cases hv : v = w
    · subst hv
      simpa using hfits
    · simpa [hv] using hs.fits v
  order v := by
    by_cases hv : v = w
    · subst hv
      simpa using horder
    · simpa [hv, hothers v hv] using hs.order v
  trans v := by
    by_cases hv : v = w
    · subst hv
      simpa using htrans
    · simpa [hv, hkeep v hv] using hs.trans v
  busy := hbusy
  empty := hempty
  locked := hlocked
  off := hoff

/-- A step outside of transactions. -/
theorem Sound.outside (hs : Sound calls s₀ s h chunks) (w : ι)
    (hpc : (s.pc w).inTrans = false) (hpc' : pc'.inTrans = false)
    (hwritten : (s.pc w).written (calls w) = pc'.written (calls w))
    (hfits : pc'.Fits (calls w)) : Sound calls s₀ (s.goto w pc') h chunks := by
  have hne : ∀ v, h = some v → v ≠ w := by
    rintro v hv rfl
    rw [(hs.trans v).mpr hv] at hpc
    exact Bool.noConfusion hpc
  have hsame : ∀ {α : Type} (a : α) (f : Pc → α),
      (h.elim a fun v => f (Function.update s.pc w pc' v)) = h.elim a fun v => f (s.pc v) := by
    intro α a f
    cases h with
    | none => rfl
    | some v => simp [hne v rfl]
  have horder := hs.order w
  rw [hwritten] at horder
  refine hs.next w hs.appended (by rw [hwritten]) hfits horder (fun _ _ => rfl) ?_
    (fun _ _ => Iff.rfl) hs.busy ?_ ?_ ?_
  · rw [hpc']
    exact ⟨fun h => Bool.noConfusion h, fun h => absurd rfl (hne w h)⟩
  · rw [hsame]
    exact hs.empty
  · rw [hsame]
    exact hs.locked
  · rw [hsame]
    exact hs.off

/-- A step inside a transaction that leaves the bytes of the file. -/
theorem Sound.inside (hs : Sound calls s₀ s (some w) chunks) (pc' : Pc) {busy' : Bool}
    (hvol : vol' = s.vol.setInode s₀.file.ip { s.vol.inode s₀.file.ip with busy := busy' })
    (hpc' : pc'.inTrans = true)
    (hwritten : (s.pc w).written (calls w) = pc'.written (calls w))
    (hfits : pc'.Fits (calls w)) (hrecorded : (s.pc w).hasRecorded = true → pc'.hasRecorded = true)
    (hoff : off' + pc'.lag = (s.vol.inode s₀.file.ip).size) (hlocked : busy' = pc'.inLock) :
    Sound calls s₀ ⟨vol', { s.file with off := off' }, Function.update s.pc w pc'⟩ (some w)
      chunks := by
  have hself : vol'.inode s₀.file.ip = { s.vol.inode s₀.file.ip with busy := busy' } := by
    rw [hvol]
    exact Function.update_self _ _ _
  have hlog : vol'.log = s.vol.log := by
    rw [hvol]
    rfl
  have horder := hs.order w
  rw [hwritten] at horder
  refine hs.next w (hs.appended.retag busy' s.vol.log.busy s.vol.log.sector hvol)
    ?_ hfits horder (fun _ _ => rfl) ?_ (fun _ _ => Iff.rfl) ?_ ?_ ?_ ?_
  · rw [hself, hwritten]
  · simp [hpc']
  · rw [hlog]
    exact hs.busy
  · rw [hlog]
    intro hnone
    apply hs.empty
    simp only [Option.elim_some, Function.update_self] at hnone ⊢
    cases hrec : (s.pc w).hasRecorded with
    | false => rfl
    | true => rw [hrecorded hrec] at hnone; cases hnone
  · rw [hself]
    simpa using hlocked
  · rw [hself]
    simpa using hoff

/-- A change of the log only. -/
theorem Appended.relog {k : Fin ninode} {T : ℕ → Prop} [DecidablePred T] {v₀ v : Volume}
    {bs : List UInt8} (h : Appended k T v₀ v bs) (busy : Bool) (sector : List ℕ) :
    Appended k T v₀ { v with log := { v.log with busy := busy, sector := sector } } bs := by
  apply h.retag (v.inode k).busy busy sector
  unfold Volume.setInode
  rw [Function.update_eq_self]

theorem Sound.begin (hs : Sound calls s₀ s h chunks) {i : ℕ} (hpc : s.pc w = .begin i)
    (hbusy : s.vol.log.busy = false) :
    Sound calls s₀ ({ s with vol := s.vol.trans }.goto w (.ilock i)) (some w) chunks := by
  obtain rfl : h = none := by
    have hnone := hs.busy
    rw [hbusy] at hnone
    exact Option.isNone_iff_eq_none.mp (by simpa using hnone.symm)
  have horder := hs.order w
  have hfits := hs.fits w
  have hlocked : (s.vol.trans.inode s₀.file.ip).busy = false := hs.locked
  have hoff : s.file.off = (s.vol.trans.inode s₀.file.ip).size := hs.off
  have hempty := hs.empty rfl
  rw [hpc] at horder hfits
  refine hs.next w (hs.appended.relog true s.vol.log.sector) ?_ hfits horder (fun _ _ => rfl) ?_
    (fun v hv => ?_) rfl (fun _ => hempty) ?_ ?_
  · rw [hpc]
    rfl
  · simp [Pc.inTrans]
  · simp [hv.symm]
  · simpa [Pc.inLock] using hlocked
  · simpa [Pc.lag] using hoff

theorem Sound.commit (hs : Sound calls s₀ s h chunks) {i : ℕ} {r : Option ℕ}
    (hpc : s.pc w = .commit i r) :
    Sound calls s₀
      ({ s with vol := { s.vol with log := { s.vol.log with busy := false, sector := [] } } }.goto
        w (.check i r)) none chunks := by
  obtain rfl := (hs.trans w).mp (by simp [hpc, Pc.inTrans])
  have horder := hs.order w
  have hfits := hs.fits w
  have hlocked := hs.locked
  have hoff := hs.off
  rw [hpc] at horder hfits
  refine hs.next w (hs.appended.relog false []) ?_ hfits horder (fun _ _ => rfl) ?_
    (fun v hv => ?_) rfl (fun _ => rfl) ?_ ?_
  · rw [hpc]
    rfl
  · simp [Pc.inTrans]
  · simp [hv.symm]
  · simpa [hpc, Pc.inLock] using hlocked
  · simpa [hpc, Pc.lag] using hoff

/-- The chunk at `i` is appended to the file, unless the log is full. -/
theorem Sound.writei (hs : Sound calls s₀ s h chunks)
    (hroom : s₀.size + total calls ≤ maxfile * bsize) {i : ℕ} (hpc : s.pc w = .writei i) :
    (∃ v, Fs.writei s.file.ip ((calls w).src i) s.file.off ((calls w).n1 i) s.vol =
        (.ok (some ((calls w).n1 i)), v) ∧
      Sound calls s₀ ({ s with vol := v }.goto w (.advance i (some ((calls w).n1 i))))
        (some w) (chunks ++ [(w, (calls w).chunk i)])) ∨
    (Fs.writei s.file.ip ((calls w).src i) s.file.off ((calls w).n1 i) s.vol).1 =
        .error .tooBigATransaction ∧
      ¬(10 ≤ s₀.vol.log.size ∧ s₀.vol.Clustered) := by
  obtain rfl := (hs.trans w).mp (by simp [hpc, Pc.inTrans])
  have hi : i < (calls w).n := by
    have hfits := hs.fits w
    rwa [hpc] at hfits
  have hoff : s.file.off = (s.vol.inode s₀.file.ip).size := by
    simpa [hpc, Pc.lag] using hs.off
  have hbusy : (s.vol.inode s₀.file.ip).busy = true := by
    simpa [hpc, Pc.inLock] using hs.locked
  have hempty : s.vol.log.sector = [] := hs.empty (by simp [hpc, Pc.hasRecorded])
  have hfits : (Pc.advance i (some ((calls w).n1 i))).Fits (calls w) := ⟨hi, rfl⟩
  have hsize := hs.size
  have hsum := sum_written calls s.pc w (.advance i (some ((calls w).n1 i)))
  have hle : ∑ v, (Function.update s.pc w (.advance i (some ((calls w).n1 i))) v).written
      (calls v) ≤ total calls := sum_written_le fun v => by
    by_cases hv : v = w
    · subst hv
      simpa using hfits
    · simpa [hv] using hs.fits v
  have hnow : (s.pc w).written (calls w) = i := by
    rw [hpc]
    rfl
  have hnext : (Pc.advance i (some ((calls w).n1 i))).written (calls w) = i + (calls w).n1 i := rfl
  rw [hnow, hnext] at hsum
  have hmax : s.file.off + (calls w).n1 i ≤ s₀.size + total calls := by omega
  have hend : s.file.off + (calls w).n1 i ≤ 71680 := by
    unfold maxfile bsize at hroom
    omega
  have hreach : ∀ a, Reaches s.file.off ((calls w).n1 i) a →
      Reaches s₀.size (total calls) a := fun a ha => ha.mono (by omega) hmax
  have hn : (calls w).n1 i ≤ maxChunk := Nat.min_le_right _ _
  rw [hs.ip]
  have hwrite := hs.appended.writei hbusy hs.busy hempty hoff hn hend hreach
    ((calls w).src i)
  refine hwrite.imp_left ?_
  rintro ⟨v, hrun, happended, hbusy', htrans⟩
  have hgrown := happended.length_data
  have hbefore := hs.appended.length_data
  have hlen : ((List.range ((calls w).n1 i)).map ((calls w).src i)).length = (calls w).n1 i := by
    rw [List.length_map, List.length_range]
  rw [List.length_append, hlen] at hgrown
  refine ⟨v, hrun, hs.next w ?_ ?_ hfits ?_ ?_ ?_ (fun _ _ => Iff.rfl) htrans ?_ ?_ ?_⟩
  · simpa [Call.chunk] using happended
  · rw [hnow, hnext]
    change (v.inode s₀.file.ip).size + i = _
    omega
  · have horder := hs.order w
    rw [hpc] at horder
    simp only [Pc.written] at horder ⊢
    rw [Call.cut_drop hi] at horder
    rw [chunksOf_snoc_self, List.append_assoc]
    exact horder
  · intro u hu
    exact chunksOf_snoc_other hu _
  · simp [Pc.inTrans]
  · simp [Pc.hasRecorded]
  · simpa [Pc.inLock] using hbusy'
  · simp only [Option.elim_some, Function.update_self, Pc.lag, Option.getD_some]
    change s.file.off + (calls w).n1 i = (v.inode s₀.file.ip).size
    omega

/-- A step leads on, or it is a `writei` that finds the log full. -/
theorem Sound.step (hs : Sound calls s₀ s h chunks)
    (hroom : s₀.size + total calls ≤ maxfile * bsize) {r : Except Stop (State ι)}
    (hstep : s.step calls w = some r) :
    (∃ s' h' chunks', r = .ok s' ∧ Sound calls s₀ s' h' chunks') ∨
      r = .error .tooBigATransaction ∧ ¬(10 ≤ s₀.vol.log.size ∧ s₀.vol.Clustered) := by
  have hfits := hs.fits w
  cases hpc : s.pc w with
  | start =>
      simp only [State.step, hpc, hs.writable, hs.type] at hstep
      obtain rfl := Option.some.inj hstep
      exact Or.inl ⟨_, _, _, rfl,
        hs.outside w (by rw [hpc]; rfl) rfl (by rw [hpc]; rfl) (Nat.zero_le _)⟩
  | loop i =>
      rw [hpc] at hfits
      simp only [State.step, hpc] at hstep
      split at hstep
      · next hi =>
          obtain rfl := Option.some.inj hstep
          exact Or.inl ⟨_, _, _, rfl, hs.outside w (by rw [hpc]; rfl) rfl (by rw [hpc]; rfl) hi⟩
      · next hi =>
          have hend : i = (calls w).n := le_antisymm hfits (Nat.le_of_not_lt hi)
          rw [if_pos hend] at hstep
          obtain rfl := Option.some.inj hstep
          exact Or.inl ⟨_, _, _, rfl,
            hs.outside w (by rw [hpc]; rfl) rfl (by rw [hpc]; exact hend) rfl⟩
  | begin i =>
      simp only [State.step, hpc] at hstep
      cases hbusy : s.vol.log.busy with
      | true => rw [State.run_asleep (beginTrans_busy hbusy)] at hstep; cases hstep
      | false =>
          rw [State.run_ok (beginTrans_idle hbusy)] at hstep
          obtain rfl := Option.some.inj hstep
          exact Or.inl ⟨_, _, _, rfl, hs.begin hpc hbusy⟩
  | ilock i =>
      obtain rfl := (hs.trans w).mp (by simp [hpc, Pc.inTrans])
      have hunlocked : (s.vol.inode s₀.file.ip).busy = false := by
        simpa [hpc, Pc.inLock] using hs.locked
      rw [hpc] at hfits
      simp only [State.step, hpc, hs.ip] at hstep
      rw [State.run_ok (ilock_valid hs.appended.ref hs.appended.valid hunlocked)] at hstep
      obtain rfl := Option.some.inj hstep
      have hoff := hs.off
      simp only [Option.elim_some, hpc] at hoff
      exact Or.inl ⟨_, _, _, rfl, hs.inside (.writei i) rfl rfl (by rw [hpc]; rfl) hfits
        (by rw [hpc]; exact fun h => Bool.noConfusion h) hoff rfl⟩
  | writei i =>
      simp only [State.step, hpc] at hstep
      rcases hs.writei hroom hpc with ⟨v, hrun, hsound⟩ | ⟨hpanic, hnot⟩
      · rw [State.run_ok hrun] at hstep
        obtain rfl := Option.some.inj hstep
        exact Or.inl ⟨_, _, _, rfl, hsound⟩
      · rw [State.run_error hpanic (by decide)] at hstep
        obtain rfl := Option.some.inj hstep
        exact Or.inr ⟨rfl, hnot⟩
  | advance i r =>
      obtain rfl := (hs.trans w).mp (by simp [hpc, Pc.inTrans])
      rw [hpc] at hfits
      obtain ⟨hi, rfl⟩ := hfits
      have hpos := Call.n1_pos hi
      simp only [State.step, hpc, Option.elim_some, hpos, if_true] at hstep
      obtain rfl := Option.some.inj hstep
      have hoff : s.file.off + (calls w).n1 i = (s.vol.inode s₀.file.ip).size := by
        simpa [hpc, Pc.lag] using hs.off
      have hwrap : wrap32 (s.file.off + (calls w).n1 i) = (s.vol.inode s₀.file.ip).size := by
        have hsize := hs.size
        have hle := sum_written_le hs.fits
        rw [hoff]
        unfold maxfile bsize at hroom
        unfold wrap32
        omega
      have hbusy : (s.vol.inode s₀.file.ip).busy = true := by
        simpa [hpc, Pc.inLock] using hs.locked
      exact Or.inl ⟨_, _, _, rfl, hs.inside (.iunlock i _) (setInode_busy hbusy) rfl
        (by rw [hpc]; rfl) ⟨hi, rfl⟩ (fun _ => rfl) hwrap rfl⟩
  | iunlock i r =>
      obtain rfl := (hs.trans w).mp (by simp [hpc, Pc.inTrans])
      have hbusy : (s.vol.inode s₀.file.ip).busy = true := by
        simpa [hpc, Pc.inLock] using hs.locked
      rw [hpc] at hfits
      simp only [State.step, hpc, hs.ip] at hstep
      rw [State.run_ok (iunlock_locked hs.appended.ref hbusy)] at hstep
      obtain rfl := Option.some.inj hstep
      have hoff := hs.off
      simp only [Option.elim_some, hpc] at hoff
      exact Or.inl ⟨_, _, _, rfl, hs.inside (.commit i r) rfl rfl (by rw [hpc]; rfl) hfits
        (fun _ => rfl) hoff rfl⟩
  | commit i r =>
      simp only [State.step, hpc] at hstep
      rw [State.run_ok (commitTrans_run s.vol)] at hstep
      obtain rfl := Option.some.inj hstep
      exact Or.inl ⟨_, _, _, rfl, hs.commit hpc⟩
  | check i r =>
      rw [hpc] at hfits
      obtain ⟨hi, rfl⟩ := hfits
      simp only [State.step, hpc, ne_eq, not_true_eq_false, if_false] at hstep
      obtain rfl := Option.some.inj hstep
      have hle : i + (calls w).n1 i ≤ (calls w).n := by
        simp only [Call.n1]
        omega
      exact Or.inl ⟨_, _, _, rfl, hs.outside w (by rw [hpc]; rfl) rfl (by rw [hpc]; rfl) hle⟩
  | returned r => simp [State.step, hpc] at hstep

theorem Ready.run {es : List ι} (hs₀ : Ready calls s₀)
    (hrun : Run (Step calls) (fun _ => True) s₀ es s) :
    ∃ h chunks, Sound calls s₀ s h chunks := by
  apply hrun.invariant (I := fun t => ∃ h chunks, Sound calls s₀ t h chunks) _
    ⟨none, [], hs₀.sound⟩
  rintro t w t' - - ⟨h, chunks, ht⟩ hstep
  rcases ht.step hs₀.room hstep with ⟨u, h', chunks', hu, hsound⟩ | ⟨hpanic, -⟩
  · obtain rfl := Except.ok.inj hu
    exact ⟨h', chunks', hsound⟩
  · cases hpanic

/-! ## Termination -/

theorem sum_left (hfits : (s.pc w).Fits (calls w)) (hstep : s.step calls w = some (.ok s')) :
    ∑ v, (s'.pc v).left (calls v) < ∑ v, (s.pc v).left (calls v) := by
  obtain ⟨pc', hpc', hlt⟩ := step_left hfits hstep
  rw [hpc']
  refine Finset.sum_lt_sum (fun v _ => ?_) ⟨w, Finset.mem_univ w, by simpa using hlt⟩
  by_cases hv : v = w
  · subst hv
    simpa using hlt.le
  · simp [hv]

/-- The writers do not wait for each other for ever: one of them can go on. -/
theorem Sound.enabled (hs : Sound calls s₀ s h chunks)
    (hroom : s₀.size + total calls ≤ maxfile * bsize) (hw : ∀ r, s.pc w ≠ .returned r) :
    ∃ v r, s.step calls v = some r := by
  cases h with
  | some v =>
      refine ⟨v, ?_⟩
      have htrans := (hs.trans v).mpr rfl
      have hlocked : (s.vol.inode s₀.file.ip).busy = (s.pc v).inLock := hs.locked
      cases hpc : s.pc v with
      | ilock i =>
          rw [hpc] at hlocked
          simp only [State.step, hpc, hs.ip]
          exact ⟨_, State.run_ok (ilock_valid hs.appended.ref hs.appended.valid hlocked)⟩
      | writei i =>
          simp only [State.step, hpc]
          rcases hs.writei hroom hpc with ⟨u, hrun, -⟩ | ⟨hpanic, -⟩
          · exact ⟨_, State.run_ok hrun⟩
          · exact ⟨_, State.run_error hpanic (by decide)⟩
      | advance i r => exact ⟨_, by simp only [State.step, hpc]; rfl⟩
      | iunlock i r =>
          rw [hpc] at hlocked
          simp only [State.step, hpc, hs.ip]
          exact ⟨_, State.run_ok (iunlock_locked hs.appended.ref hlocked)⟩
      | commit i r =>
          simp only [State.step, hpc]
          exact ⟨_, State.run_ok (commitTrans_run s.vol)⟩
      | start | loop i | begin i | check i r | returned r =>
          rw [hpc] at htrans
          contradiction
  | none =>
      refine ⟨w, ?_⟩
      have htrans : ∀ pc, s.pc w = pc → pc.inTrans = true → False := by
        rintro pc rfl hpc
        cases (hs.trans w).mp hpc
      cases hpc : s.pc w with
      | start =>
          simp only [State.step, hpc, hs.writable, hs.type]
          exact ⟨_, rfl⟩
      | loop i =>
          simp only [State.step, hpc]
          split <;> exact ⟨_, rfl⟩
      | begin i =>
          simp only [State.step, hpc]
          exact ⟨_, State.run_ok (beginTrans_idle hs.busy)⟩
      | check i r =>
          have hfits := hs.fits w
          rw [hpc] at hfits
          obtain ⟨-, rfl⟩ := hfits
          simp only [State.step, hpc]
          split_ifs <;> exact ⟨_, rfl⟩
      | ilock i | writei i | advance i r | iunlock i r | commit i r =>
          exact (htrans _ hpc rfl).elim
      | returned r => exact absurd hpc (hw r)

/-- The steps of a run are counted. -/
theorem Ready.length_le {es : List ι} (hs₀ : Ready calls s₀)
    (hrun : Run (Step calls) (fun _ => True) s₀ es s) :
    es.length + ∑ w, (s.pc w).left (calls w) ≤ ∑ w, (s₀.pc w).left (calls w) := by
  induction hrun with
  | nil _ => simp
  | snoc hrun hstep _ ih =>
      obtain ⟨h, chunks, hs⟩ := hs₀.run hrun
      have hlt := sum_left (hs.fits _) hstep
      rw [List.length_append, List.length_singleton]
      omega

/-- As long as no writer panics, the writers do not lose anything, whatever the order of
their steps: the file is what it was before, followed by the chunks of the calls in some order
that keeps those of each call in theirs.  The only panic is that of a full log, and four free
blocks in a row under four blocks of the bitmap are needed for it. -/
theorem shared_writes {es : List ι} (hs₀ : Ready calls s₀)
    (hrun : Run (Step calls) (fun _ => True) s₀ es s) :
    (∀ w e, s.step calls w = some (.error e) →
      e = .tooBigATransaction ∧ ¬(10 ≤ s₀.vol.log.size ∧ s₀.vol.Clustered)) ∧
    ((∃ w r, s.step calls w = some r) ∨ ∀ w, ∃ r, s.pc w = .returned r) ∧
    es.length ≤ ∑ w, (8 * (calls w).n + 2) ∧
    ∃ chunks : List (ι × List UInt8),
      s.content = s₀.content ++ (chunks.map Prod.snd).flatten ∧
      (∀ w, chunksOf w chunks <+: cut (calls w).data) ∧
      (∀ w r, s.pc w = .returned r → r = some (calls w).n ∧
        chunksOf w chunks = cut (calls w).data ∧
        (chunksOf w chunks).flatten = (calls w).data) ∧
      ((∀ w, ∃ r, s.pc w = .returned r) →
        s.size = s₀.size + ∑ w, (calls w).n ∧ s.file.off = s.size) := by
  obtain ⟨h, chunks, hs⟩ := hs₀.run hrun
  have hip : s.size = (s.vol.inode s₀.file.ip).size := by
    unfold State.size
    rw [hs.ip]
  refine ⟨fun w e hpanic => ?_, ?_, ?_, chunks, ?_, fun w => ⟨_, hs.order w⟩, fun w r hr => ?_,
    fun hall => ⟨?_, ?_⟩⟩
  · rcases hs.step hs₀.room hpanic with ⟨s', h', chunks', hr, -⟩ | ⟨hr, hnot⟩
    · cases hr
    · exact ⟨Except.error.inj hr, hnot⟩
  · by_cases hall : ∀ w, ∃ r, s.pc w = .returned r
    · exact Or.inr hall
    · push Not at hall
      obtain ⟨w, hw⟩ := hall
      exact Or.inl (hs.enabled hs₀.room hw)
  · have hbound := hs₀.length_le hrun
    have hstart : ∑ w, (s₀.pc w).left (calls w) = ∑ w, (8 * (calls w).n + 2) := by
      simp [hs₀.start, Pc.left]
    omega
  · unfold State.content
    rw [hs.ip]
    exact hs.appended.data
  · have hfits := hs.fits w
    have horder := hs.order w
    have hend : (calls w).data.drop (calls w).n = [] := by simp
    simp only [hr, Pc.written, hend, cut_nil, List.append_nil] at horder
    rw [hr] at hfits
    exact ⟨hfits, horder, by rw [horder, flatten_cut]⟩
  · rw [hip, hs.size]
    congr 1
    refine Finset.sum_congr rfl fun w _ => ?_
    obtain ⟨r, hr⟩ := hall w
    simp [hr, Pc.written]
  · have hoff := hs.off
    rw [hip]
    cases h with
    | none => exact hoff
    | some w =>
        obtain ⟨r, hr⟩ := hall w
        simpa [hr, Pc.lag] using hoff

/-- Calls of `filewrite` to come for the open file `k` of twelve blocks on the volume `v`. -/
def appending (v : Volume) (k : Fin ninode) : State ι where
  vol := { v.setInode k { v.inode k with busy := false } with log := ⟨false, [], 10⟩ }
  file := ⟨.inode, 2, false, true, 0, k, 6144⟩
  pc := fun _ => .start

/-- Two of them. -/
abbrev twelveBlocks : State Bool :=
  appending oneFile ⟨0, Nat.zero_lt_succ 49⟩

/-- One of the calls writes two bytes, the other one. -/
def twoCalls (w : Bool) : Call :=
  if w then ⟨fun _ => 7, 0, 2⟩ else ⟨fun _ => 8, 0, 1⟩

theorem twelveBlocks_ready : Ready twoCalls twelveBlocks where
  writable := rfl
  type := rfl
  owned := owned_oneFile.of_disk rfl rfl
  ref := by decide
  valid := rfl
  same := rfl
  allocated := oneFile_allocated.mpr rfl
  regular := rfl
  unlocked := rfl
  idle := rfl
  empty := rfl
  off := rfl
  room := by decide
  stock := by
    have hgaps : twelveBlocks.vol.gaps 0 (Reaches 6144 3) ≤ 2 := by decide +kernel
    exact hgaps.trans two_le_freeBlocks
  start _ := rfl

/-- The calls take turns, and the second one is first in its transaction. -/
def turns : List Bool :=
  [true, false, true, false] ++ List.replicate 6 false ++ List.replicate 6 true ++
    [false, true, false, true]

theorem shared_writes_twelveBlocks : ∃ s : State Bool,
    Run (Step twoCalls) (fun _ => True) twelveBlocks turns s ∧
    s.vol.bytes 0 6144 3 = [8, 7, 7] ∧ (∀ w e, s.step twoCalls w ≠ some (.error e)) ∧
    s.size = twelveBlocks.size + ∑ w, (twoCalls w).n ∧ s.file.off = s.size := by
  have hend : (Run.play (State.next twoCalls) twelveBlocks turns).any (fun s =>
      decide (s.vol.bytes 0 6144 3 = [8, 7, 7] ∧
        ∀ w, s.pc w = .returned (some (twoCalls w).n))) = true := by
    decide +kernel
  obtain ⟨s, hplay, hs⟩ := (Option.any_eq_true _ _).mp hend
  obtain ⟨hbytes, hreturned⟩ := of_decide_eq_true hs
  have hrun : Run (Step twoCalls) (fun _ => True) twelveBlocks turns s :=
    Run.of_play_of (fun _ _ _ hstep => ⟨.of_next hstep, trivial⟩) trivial hplay
  obtain ⟨hpanic, -, -, -, -, -, -, hsize⟩ := shared_writes twelveBlocks_ready hrun
  refine ⟨s, hrun, hbytes, fun w e he => ?_, hsize fun w => ⟨_, hreturned w⟩⟩
  have hclustered : twelveBlocks.vol.Clustered := Volume.clustered_of_used fun _ => rfl
  exact (hpanic w e he).2 ⟨le_refl 10, hclustered⟩

/-- The same disk without free blocks. -/
def fullDisk : Volume :=
  { oneFile with used := fun _ => true }

/-- A single call of one byte. -/
def oneCall (_ : Unit) : Call :=
  ⟨fun _ => 7, 0, 1⟩

/-- On a full disk `filewrite` does not return. -/
theorem filewrite_fullDisk :
    ((appending fullDisk 0 : State Unit).vol.inode 0).type = tFile ∧
    (appending fullDisk 0 : State Unit).file.off = (appending fullDisk 0 : State Unit).size ∧
    (appending fullDisk 0 : State Unit).size + total oneCall ≤ maxfile * bsize ∧
    ∃ s, Run (Step oneCall) (fun _ => True) (appending fullDisk 0) [(), (), (), ()] s ∧
      s.step oneCall () = some (.error .ballocOutOfBlocks) := by
  refine ⟨rfl, rfl, by decide, ?_⟩
  have hend : (Run.play (State.next oneCall) (appending fullDisk 0) [(), (), (), ()]).any (fun s =>
      decide ((s.step oneCall ()).map (Except.map fun _ => ()) =
        some (.error .ballocOutOfBlocks))) = true := by
    decide +kernel
  obtain ⟨s, hplay, hs⟩ := (Option.any_eq_true _ _).mp hend
  have hrun : Run (Step oneCall) (fun _ => True) (appending fullDisk 0) [(), (), (), ()] s :=
    Run.of_play_of (fun _ _ _ hstep => ⟨.of_next hstep, trivial⟩) trivial hplay
  obtain ⟨r, hstep, hr⟩ := Option.map_eq_some_iff.mp (of_decide_eq_true hs)
  refine ⟨s, hrun, ?_⟩
  cases r with
  | ok t => cases hr
  | error e =>
      obtain rfl := Except.error.inj hr
      exact hstep

end Filewrite

end Xv6.Fs
