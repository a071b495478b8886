import Xv6.Fs.Counts
import Xv6.Fs.Ownership
import Xv6.Support.Streams

/-!
# Open files are streams

Through the descriptors of all processes, open files behave as sequences of bytes read and
written at cursors, one for each entry of the file table, which `dup` and `fork` make
several descriptors share.
-/

namespace Xv6.Fs

open Support

section

variable {s s' : Volume} {k : Fin ninode}

/-- What is on disk has not changed. -/
theorem Owned.of_disk (h : Owned s) (hdisk : s' = { s with inode := s'.inode, log := s'.log })
    (hlog : s'.log.size = s.log.size) : Owned s' := by
  have hstart : s'.logStart = s.logStart := by
    unfold Volume.logStart
    rw [hlog, hdisk]
  generalize s'.inode = inode at hdisk
  generalize s'.log = log at hdisk
  subst hdisk
  refine ⟨h.size, h.first, h.once, h.used, fun i hi a ha h0 => ?_, h.sizes, h.full⟩
  obtain ⟨hlow, hhigh⟩ := h.inside i hi a ha h0
  rw [← hstart] at hhigh
  exact ⟨hlow, hhigh⟩

theorem contents_eq_data (hsame : (s.inode k).toDinode = s.dinode (s.inode k).inum) :
    s.contents (s.inode k).inum = s.data k := by
  unfold Volume.contents Volume.data Volume.bytes
  rw [← hsame]
  simp only [Nat.zero_add]
  rfl

/-! ## The disk between calls -/

/-- Between calls the inodes in use are unlocked, those that are valid are as on disk, and
no transaction runs. -/
structure Steady (s : Volume) : Prop where
  owned : Owned s
  unlocked : ∀ k, (s.inode k).busy = false
  idle : s.log.busy = false
  clear : s.log.sector = []
  once : ∀ j k, 0 < (s.inode j).ref → 0 < (s.inode k).ref →
    (s.inode j).inum = (s.inode k).inum → j = k
  same : ∀ k, 0 < (s.inode k).ref → (s.inode k).valid = true →
    (s.inode k).toDinode = s.dinode (s.inode k).inum
  allocated : ∀ k, 0 < (s.inode k).ref → (s.inode k).valid = true →
    s.Allocated (s.inode k).inum

/-- The inode is in use, and it is a file or a directory. -/
structure Ready (k : Fin ninode) (s : Volume) : Prop where
  ref : 0 < (s.inode k).ref
  valid : (s.inode k).valid = true
  plain : s.Plain k

/-- The state in which the inode is locked. -/
def Volume.lock (s : Volume) (k : Fin ninode) : Volume :=
  s.setInode k { s.inode k with busy := true }

theorem inode_lock (s : Volume) (k : Fin ninode) :
    (s.lock k).inode k = { s.inode k with busy := true } :=
  Function.update_self _ _ _

theorem ilock_valid (href : 0 < (s.inode k).ref) (hvalid : (s.inode k).valid = true)
    (hbusy : (s.inode k).busy = false) : ilock k s = (.ok (), s.lock k) := by
  unfold ilock
  rw [Exec.bind_run_ok (show getInode k s = (.ok (s.inode k), s) from rfl),
    if_neg (show ¬(s.inode k).ref < 1 by omega), hbusy, if_neg nofun, hvalid]
  rfl

theorem iunlock_locked (href : 0 < (s.inode k).ref) (hbusy : (s.inode k).busy = true) :
    iunlock k s = (.ok (), s.setInode k { s.inode k with busy := false }) := by
  unfold iunlock
  rw [Exec.bind_run_ok (show getInode k s = (.ok (s.inode k), s) from rfl), hbusy, if_neg]
  · rfl
  · rintro (hb | hr)
    · cases hb
    · omega

/-- Unlocking undoes locking. -/
theorem unlock_lock (hbusy : (s.inode k).busy = false) :
    (s.lock k).setInode k { (s.lock k).inode k with busy := false } = s := by
  rw [inode_lock]
  have hback : ({ s.inode k with busy := false } : Inode) = s.inode k := by
    rw [← hbusy]
  unfold Volume.lock Volume.setInode
  simp only [Function.update_idem, hback, Function.update_eq_self]

theorem Ready.locked (hr : Ready k s) (h : Steady s) : Locked (s.lock k) k := by
  have hself := inode_lock s k
  refine ⟨?_, ?_, ?_, ?_, ?_⟩
  · rw [hself]
    exact hr.ref
  · rw [hself]
  · rw [hself]
    exact hr.valid
  · rw [hself]
    exact h.same k hr.ref hr.valid
  · rw [hself]
    exact h.allocated k hr.ref hr.valid

theorem Ready.plain_lock (hr : Ready k s) : (s.lock k).Plain k := by
  unfold Volume.Plain
  rw [inode_lock]
  exact hr.plain

theorem Steady.owned_lock (h : Steady s) : Owned (s.lock k) :=
  h.owned.of_disk rfl rfl

/-- The bytes of an open file. -/
theorem Ready.data_lock (hr : Ready k s) (h : Steady s) :
    (s.lock k).data k = s.contents (s.inode k).inum := by
  have hdata := contents_eq_data (hr.locked h).same
  rw [← hdata, inode_lock]
  rfl

theorem Ready.length_contents (hr : Ready k s) (h : Steady s) :
    (s.contents (s.inode k).inum).length = (s.inode k).size := by
  rw [← hr.data_lock h, Volume.length_data, inode_lock]

/-- `readi` under the lock of an open file. -/
theorem Ready.read_run (hr : Ready k s) (h : Steady s) {off n : ℕ}
    (hoff : off ≤ (s.inode k).size) (hn : n < 4294967296) :
    (do
      ilock k
      let r ← readi k off n
      iunlock k
      pure r : FsM (Option (List UInt8))) s =
      (.ok (if 4294967296 ≤ off + n then none
        else some (((s.contents (s.inode k).inum).drop off).take n)), s) := by
  have hlocked := hr.locked h
  have hsizes := h.owned.sizes _ (h.allocated k hr.ref hr.valid)
  rw [← h.same k hr.ref hr.valid] at hsizes
  obtain ⟨hread, -⟩ := readi_writei_bytes h.owned_lock hlocked hr.plain_lock
    (show off < 4294967296 by omega) hn fun _ => 0
  have hsize : ((s.lock k).inode k).size = (s.inode k).size := by rw [inode_lock]
  rw [hr.data_lock h, hsize] at hread
  rw [Exec.bind_run_ok (ilock_valid hr.ref hr.valid (h.unlocked k)), Exec.bind_run_ok hread,
    Exec.bind_run_ok (iunlock_locked hlocked.ref hlocked.busy), unlock_lock (h.unlocked k),
    Exec.pure_run]
  have hcond : ((s.inode k).size < off ∨ 4294967296 ≤ off + n) ↔ 4294967296 ≤ off + n := by omega
  simp only [hcond]

/-! ## One chunk of a write -/

variable {src : Chars} {off n : ℕ}

/-- Every place that a file does not use yet is covered by a free block. -/
def Volume.Roomy (s : Volume) (k : Fin ninode) : Prop :=
  s.gaps k (fun _ => True) ≤ s.freeBlocks.card

/-- The transaction of one chunk of `filewrite`. -/
def chunk (k : Fin ninode) (src : Chars) (off n : ℕ) : FsM (Option ℕ) := do
  beginTrans
  ilock k
  let r ← writei k src off n
  iunlock k
  commitTrans
  pure r

/-- What a chunk leaves behind. -/
structure Rewritten (k : Fin ninode) (src : Chars) (off n : ℕ) (s s' : Volume) : Prop where
  steady : Steady s'
  ready : Ready k s'
  roomy : s.Roomy k → s'.Roomy k
  contents : s'.contents (s.inode k).inum =
    splice (s.contents (s.inode k).inum) off ((List.range n).map src)
  other : ∀ i, s.Allocated i → i ≠ (s.inode k).inum → s'.contents i = s.contents i
  allocated : ∀ i, s'.Allocated i ↔ s.Allocated i
  self : s'.inode k = { s.inode k with addrs := (s'.inode k).addrs, size := (s'.inode k).size }
  size : (s'.inode k).size = max (s.inode k).size (off + n)
  cached : ∀ j ≠ k, s'.inode j = s.inode j

/-- The state between `begin_trans` and `commit_trans`. -/
def Volume.trans (s : Volume) : Volume :=
  { s with log := { s.log with busy := true } }

/-- The state after `iunlock` and `commit_trans`. -/
def Volume.finish (s : Volume) (k : Fin ninode) : Volume :=
  { s.setInode k { s.inode k with busy := false } with
    log := { s.log with busy := false, sector := [] } }

theorem finish_trans_lock (h : Steady s) : (s.trans.lock k).finish k = s := by
  have hback := unlock_lock (h.unlocked k)
  have hlog : ({ s.log with busy := false, sector := [] } : Trans) = s.log := by
    rw [← h.idle, ← h.clear]
  unfold Volume.finish
  rw [show (s.trans.lock k).setInode k { (s.trans.lock k).inode k with busy := false } =
    { s with log := s.trans.log } from congrArg (fun v => { v with log := s.trans.log }) hback]
  change ({ s with log := { s.log with busy := false, sector := [] } } : Volume) = s
  rw [hlog]

theorem Steady.trans (h : Steady s) (hr : Ready k s) :
    Owned (s.trans.lock k) ∧ Locked (s.trans.lock k) k ∧ (s.trans.lock k).Plain k := by
  have hlock := hr.locked h
  exact ⟨h.owned.of_disk rfl rfl, ⟨hlock.ref, hlock.busy, hlock.valid, hlock.same,
    hlock.allocated⟩, hr.plain_lock⟩

/-- The steps of a chunk around `writei`. -/
theorem chunk_of_writei (h : Steady s) (hr : Ready k s) {Q : Option ℕ → Volume → Prop}
    (hwrite : Exec.wlp (writei k src off n)
      (fun r v => Locked v k ∧ Q r (v.finish k)) (s.trans.lock k)) :
    Exec.wlp (chunk k src off n) Q s := by
  unfold chunk
  have hbegin : beginTrans s = (.ok (), s.trans) := by
    unfold beginTrans
    rw [Exec.bind_run_ok (Exec.gets_run _ _), h.idle, if_neg nofun]
    rfl
  have hlock : ilock k s.trans = (.ok (), s.trans.lock k) :=
    ilock_valid hr.ref hr.valid (h.unlocked k)
  refine Exec.wlp_seq (Exec.wp_of_run hbegin (Q := fun _ v => v = s.trans) rfl) ?_
  rintro _ _ rfl
  refine Exec.wlp_seq (Exec.wp_of_run hlock (Q := fun _ v => v = s.trans.lock k) rfl) ?_
  rintro _ _ rfl
  apply Exec.wlp_seq hwrite
  rintro r v ⟨hlocked, hQ⟩
  refine Exec.wlp_seq (Exec.wp_of_run (iunlock_locked hlocked.ref hlocked.busy)
    (Q := fun _ v' => v' = v.setInode k { v.inode k with busy := false }) rfl) ?_
  rintro _ _ rfl
  exact Exec.wp_bind.mpr (Exec.wp_modify.mpr (Exec.wp_pure.mpr hQ))

/-- A chunk that does not fit changes nothing. -/
theorem chunk_refused (src : Chars) (h : Steady s) (hr : Ready k s) (hoff : off ≤ (s.inode k).size)
    (hn : n < 4294967296) (hbad : 71680 < off + n) :
    Exec.wlp (chunk k src off n) (fun r s' => r = none ∧ s' = s) s := by
  obtain ⟨howned, hlocked, hplain⟩ := h.trans hr
  have hsizes := h.owned.sizes _ (h.allocated k hr.ref hr.valid)
  rw [← h.same k hr.ref hr.valid] at hsizes
  obtain ⟨-, hrefuse, -⟩ := readi_writei_bytes howned hlocked hplain
    (show off < 4294967296 by omega) hn src
  apply chunk_of_writei h hr
  apply Exec.wp_of_run (hrefuse (Or.inr (Or.inr ?_)))
  · exact ⟨hlocked, rfl, finish_trans_lock h⟩
  · exact hbad

/-- The references of a file after it has been unlocked. -/
theorem ref_finish (s : Volume) (k : Fin ninode) (a : ℕ) : (s.finish k).ref k a = s.ref k a := by
  have hself : (s.finish k).inode k = { s.inode k with busy := false } := Function.update_self _ _ _
  unfold Volume.ref
  rw [hself]
  rfl

theorem Volume.gaps_congr {T : ℕ → Prop} [DecidablePred T] (h : ∀ a, s'.ref k a = s.ref k a) :
    s'.gaps k T = s.gaps k T := by
  unfold gaps
  simp only [h]

theorem gaps_lock (s : Volume) (k : Fin ninode) {T : ℕ → Prop} [DecidablePred T] :
    (s.trans.lock k).gaps k T = s.gaps k T := by
  apply Volume.gaps_congr
  intro a
  unfold Volume.ref
  rw [inode_lock]
  rfl

/-- The entries of the inode cache after a write under a lock. -/
theorem inode_finish {v v₁ : Volume} (h : Steady s)
    (hend : Spliced k off n (s.trans.lock k) v₁ v) :
    (v.finish k).inode k =
      { s.inode k with addrs := (v.inode k).addrs, size := (v.inode k).size } ∧
    ∀ j ≠ k, (v.finish k).inode j = s.inode j := by
  have hfinish : (v.finish k).inode k = { v.inode k with busy := false } :=
    Function.update_self _ _ _
  have hlock : (s.trans.lock k).inode k = { s.inode k with busy := true } := inode_lock s.trans k
  constructor
  · rw [hfinish, hend.self, hlock, ← h.unlocked k]
  · intro j hj
    have hv : (v.finish k).inode j = v.inode j := Function.update_of_ne hj _ _
    have hl : (s.trans.lock k).inode j = s.inode j := Function.update_of_ne hj _ _
    rw [hv, hend.other j hj, hl]

theorem Steady.finish {v : Volume} (h : Steady s) (hr : Ready k s)
    (hself : (v.finish k).inode k =
      { s.inode k with addrs := (v.inode k).addrs, size := (v.inode k).size })
    (hcached : ∀ j ≠ k, (v.finish k).inode j = s.inode j) (howned : Owned v)
    (hlocked : Locked v k) (hdinode : ∀ i, s.Allocated i → i ≠ (s.inode k).inum →
      v.dinode i = s.dinode i) (halloc : ∀ i, v.Allocated i ↔ s.Allocated i) :
    Steady (v.finish k) := by
  have htags : ∀ j, ((v.finish k).inode j).ref = (s.inode j).ref ∧
      ((v.finish k).inode j).inum = (s.inode j).inum ∧
      ((v.finish k).inode j).valid = (s.inode j).valid := by
    intro j
    by_cases hj : j = k
    · rw [hj, hself]
      exact ⟨rfl, rfl, rfl⟩
    · rw [hcached j hj]
      exact ⟨rfl, rfl, rfl⟩
  have hfinish : (v.finish k).inode k = { v.inode k with busy := false } :=
    Function.update_self _ _ _
  refine ⟨howned.of_disk rfl rfl, fun j => ?_, rfl, rfl, fun i j hi hj => ?_, fun j hj hv => ?_,
    fun j hj hv => ?_⟩
  · by_cases hj : j = k
    · rw [hj, hfinish]
    · rw [hcached j hj]
      exact h.unlocked j
  · rw [(htags i).1] at hi
    rw [(htags j).1] at hj
    rw [(htags i).2.1, (htags j).2.1]
    exact h.once i j hi hj
  · by_cases hjk : j = k
    · rw [hjk, hfinish]
      exact hlocked.same
    · rw [(htags j).1] at hj
      rw [(htags j).2.2] at hv
      have hne : (s.inode j).inum ≠ (s.inode k).inum := fun heq => hjk (h.once j k hj hr.ref heq)
      rw [hcached j hjk, h.same j hj hv]
      exact (hdinode _ (h.allocated j hj hv) hne).symm
  · rw [(htags j).1] at hj
    rw [(htags j).2.2] at hv
    rw [(htags j).2.1]
    exact (halloc _).mpr (h.allocated j hj hv)

/-- A chunk that fits is written. -/
theorem chunk_written (h : Steady s) (hr : Ready k s) (hroom : s.Roomy k)
    (hoff : off ≤ (s.inode k).size) (hfit : off + n ≤ 71680) :
    Exec.wlp (chunk k src off n) (fun r s' => r = some n ∧ Rewritten k src off n s s') s := by
  obtain ⟨howned, hlocked, hplain⟩ := h.trans hr
  have hsize0 : ((s.trans.lock k).inode k).size = (s.inode k).size := by
    rw [inode_lock]
    rfl
  have hgaps : (s.trans.lock k).gaps k (Reaches off n) ≤ (s.trans.lock k).freeBlocks.card := by
    have hall : (s.trans.lock k).gaps k (Reaches off n) ≤
        (s.trans.lock k).gaps k (fun _ => True) := Volume.gaps_mono fun _ _ _ => trivial
    rw [gaps_lock s k (T := fun _ => True)] at hall
    exact hall.trans hroom
  have hample : (s.trans.lock k).Ample (fun _ => False) ∅
      (0 + (s.trans.lock k).tolls k (pieces off n) + 1)
      (0 + (s.trans.lock k).gaps k (Reaches off n)) :=
    ⟨False.elim, False.elim, by omega⟩
  have hwrites : WriteFits ((s.trans.lock k).inode k).size off n := by
    rw [hsize0]
    unfold WriteFits wrap32 maxfile bsize
    omega
  apply chunk_of_writei h hr
  refine Exec.wp_mono (writei_spec (howned.sole hlocked) hplain.ne_dev hwrites hfit src hample) ?_
    fun _ _ _ => trivial
  rintro r v ⟨hres, hw, -⟩
  have hover := hw.overwritten howned hlocked hplain (by rw [hsize0]; exact hoff) hfit
  obtain ⟨v₁, hfill, hend⟩ := hw.spliced
  obtain ⟨hself, hcached⟩ := inode_finish h hend
  have halloc : ∀ i, v.Allocated i ↔ (s.trans.lock k).Allocated i := fun i =>
    hend.allocated_iff hlocked hover.locked
  have hinum : ((s.trans.lock k).inode k).inum = (s.inode k).inum := by
    rw [inode_lock]
    rfl
  have hdinode : ∀ i, s.Allocated i → i ≠ (s.inode k).inum → v.dinode i = s.dinode i :=
    fun i hi hne => (hover.other i hi (by rwa [hinum])).1
  have hsteady := h.finish hr hself hcached hover.owned hover.locked hdinode halloc
  have hready : Ready k (v.finish k) := by
    refine ⟨?_, ?_, ?_⟩
    · rw [hself]
      exact hr.ref
    · rw [hself]
      exact hr.valid
    · unfold Volume.Plain
      rw [hself]
      exact hr.plain
  refine ⟨hover.locked, hres, ?_⟩
  refine {
    steady := hsteady
    ready := hready
    roomy := fun _ => ?_
    contents := ?_
    other := fun i hi hne => (hover.other i hi (by rwa [hinum])).2
    allocated := halloc
    self := hself.trans ?_
    size := ?_
    cached := hcached }
  · have hcard := hfill.card_freeBlocks (howned.sole hlocked) (P := fun _ => True)
      fun _ _ _ => trivial
    have hv : (v.finish k).gaps k (fun _ => True) = v₁.gaps k (fun _ => True) :=
      Volume.gaps_congr fun a => (ref_finish v k a).trans (hend.ref_eq a)
    have hstart : v.logStart = v₁.logStart := hend.logStart_eq.trans hfill.logStart_eq.symm
    have hfree : v.freeBlocks = v₁.freeBlocks := by
      unfold Volume.freeBlocks
      rw [hstart, hend.used]
    rw [gaps_lock] at hcard
    unfold Volume.Roomy at hroom ⊢
    rw [hv]
    change _ ≤ v.freeBlocks.card
    change s.freeBlocks.card + _ = _ at hcard
    rw [hfree]
    omega
  · have hdata := contents_eq_data hover.locked.same
    have hcontents : (v.finish k).contents (s.inode k).inum = v.data k := by
      rw [← hdata, hend.self]
      exact congrArg v.contents hinum.symm
    have hbefore : (s.trans.lock k).data k = s.contents (s.inode k).inum := hr.data_lock h
    rw [hcontents, hover.data, hbefore]
    unfold splice
    rw [List.length_map, List.length_range]
  · rw [hself]
  · rw [hself, hover.size, hsize0]

/-! ## Open files -/

instance (s : Volume) (i : ℕ) : Decidable (s.Allocated i) :=
  inferInstanceAs (Decidable (_ ∧ _ ∧ _))

instance (s : Volume) (k : Fin ninode) : Decidable (s.Plain k) :=
  inferInstanceAs (Decidable (_ ∨ _))

/-- The inode number and the offset of a file that is open for a file or directory. -/
def Volume.cursor (v : Volume) (f : File) : Option (ℕ × ℕ) :=
  if f.type = .inode ∧ v.Plain f.ip then some ((v.inode f.ip).inum, f.off) else none

/-- The streams of a state: what the inodes in use on disk hold, and where the open files
stand. -/
def System.streams (s : System) : Streams (Fin nfile) ℕ UInt8 where
  content i := if s.vol.Allocated i then s.vol.contents i else []
  cursor i := s.vol.cursor (s.file i)

theorem cursor_congr {v : Volume} {f : File}
    (htype : (v.inode f.ip).type = (s.inode f.ip).type)
    (hinum : (v.inode f.ip).inum = (s.inode f.ip).inum) : v.cursor f = s.cursor f := by
  have hplain : v.Plain f.ip ↔ s.Plain f.ip := by
    unfold Volume.Plain
    rw [htype]
  unfold Volume.cursor
  simp only [hplain, hinum]

/-- How much of a write of `n` bytes at offset `off` `filewrite` writes: all of it, or as
many chunks as fit into the largest file. -/
def accepted (off n : ℕ) : ℕ :=
  if off + n ≤ maxfile * bsize then n else maxChunk * ((maxfile * bsize - off) / maxChunk)

theorem accepted_le (off n : ℕ) : accepted off n ≤ n := by
  unfold accepted maxfile bsize maxChunk logsize
  split <;> omega

theorem accepted_zero (off : ℕ) : accepted off 0 = 0 :=
  Nat.eq_zero_of_le_zero (accepted_le off 0)

/-- The first chunk, and the rest. -/
theorem accepted_eq {off n : ℕ} (hn : 0 < n) :
    accepted off n = if off + min n maxChunk ≤ maxfile * bsize then
      min n maxChunk + accepted (off + min n maxChunk) (n - min n maxChunk) else 0 := by
  unfold accepted maxfile bsize maxChunk logsize
  split_ifs <;> omega

end

section

variable {s s' s'' : System} {i : Fin nfile} {bs cs : List UInt8}

/-- The file is open for a file or directory, and it stands inside of it. -/
structure Standing (i : Fin nfile) (s : System) : Prop where
  type : (s.file i).type = .inode
  ready : Ready (s.file i).ip s.vol
  off : (s.file i).off ≤ (s.vol.inode (s.file i).ip).size

theorem Standing.cursor (h : Standing i s) : s.streams.cursor i =
    some ((s.vol.inode (s.file i).ip).inum, (s.file i).off) :=
  if_pos ⟨h.type, h.ready.plain⟩

theorem Standing.content (h : Standing i s) (hs : Steady s.vol) :
    s.streams.content (s.vol.inode (s.file i).ip).inum =
      s.vol.contents (s.vol.inode (s.file i).ip).inum :=
  if_pos (hs.allocated _ h.ready.ref h.ready.valid)

/-- Writes at the cursor of a file: what they leave behind. -/
structure Poured (i : Fin nfile) (bs : List UInt8) (s s' : System) : Prop where
  steady : Steady s'.vol
  streams : s'.streams = s.streams.put i bs
  file : s'.file =
    Function.update s.file i { s.file i with off := (s.file i).off + bs.length }
  inode : ∀ j, s'.vol.inode j =
    { s.vol.inode j with addrs := (s'.vol.inode j).addrs, size := (s'.vol.inode j).size }
  grows : ∀ j, (s.vol.inode j).size ≤ (s'.vol.inode j).size
  standing : Standing i s'
  roomy : s.vol.Roomy (s.file i).ip → s'.vol.Roomy (s.file i).ip

namespace Poured

theorem refl (hs : Steady s.vol) (h : Standing i s) : Poured i [] s s where
  steady := hs
  streams := (Streams.put_nil _ _).symm
  file := (Function.update_eq_self _ _).symm
  inode _ := rfl
  grows _ := le_rfl
  standing := h
  roomy := id

theorem file_self (h : Poured i bs s s') :
    s'.file i = { s.file i with off := (s.file i).off + bs.length } := by
  rw [h.file, Function.update_self]

theorem trans (hs : Steady s.vol) (hi : Standing i s) (h : Poured i bs s s')
    (h' : Poured i cs s' s'') : Poured i (bs ++ cs) s s'' := by
  have hlen : (s.file i).off ≤
      (s.streams.content (s.vol.inode (s.file i).ip).inum).length := by
    rw [hi.content hs, hi.ready.length_contents hs]
    exact hi.off
  have hip : (s'.file i).ip = (s.file i).ip := by rw [h.file_self]
  refine ⟨h'.steady, ?_, ?_, fun j => ?_, fun j => (h.grows j).trans (h'.grows j), h'.standing,
    fun hr => ?_⟩
  · rw [h'.streams, h.streams, Streams.put_put hi.cursor hlen]
  · rw [h'.file, h.file, Function.update_idem, Function.update_self, List.length_append,
      Nat.add_assoc]
  · rw [h'.inode j, h.inode j]
  · have hroomy := h'.roomy (by rw [hip]; exact h.roomy hr)
    rwa [hip] at hroomy

end Poured

/-- The state after a chunk, with the new offset. -/
def System.poured (s : System) (i : Fin nfile) (n : ℕ) (v : Volume) : System :=
  { s with vol := v }.setFile i { s.file i with off := (s.file i).off + n }

theorem Rewritten.poured {src : Chars} {n : ℕ} {v : Volume} (hs : Steady s.vol)
    (hi : Standing i s) (h : Rewritten (s.file i).ip src (s.file i).off n s.vol v) :
    Poured i ((List.range n).map src) s (s.poured i n v) := by
  have hself : (s.poured i n v).file i = { s.file i with off := (s.file i).off + n } :=
    Function.update_self _ _ _
  have hlen : ((List.range n).map src).length = n := by
    rw [List.length_map, List.length_range]
  have hinode : ∀ j, v.inode j =
      { s.vol.inode j with addrs := (v.inode j).addrs, size := (v.inode j).size } := by
    intro j
    by_cases hj : j = (s.file i).ip
    · rw [hj]
      exact h.self
    · rw [h.cached j hj]
  have hsize := h.size
  have hinum : (v.inode (s.file i).ip).inum = (s.vol.inode (s.file i).ip).inum := by
    rw [hinode]
  refine ⟨h.steady, ?_, ?_, hinode, fun j => ?_, ⟨?_, ?_, ?_⟩, h.roomy⟩
  · obtain ⟨hcontent, hcursor⟩ := Streams.put_of_cursor hi.cursor ((List.range n).map src)
    ext1
    · rw [hcontent]
      funext x
      change (if v.Allocated x then v.contents x else []) = _
      by_cases hx : x = (s.vol.inode (s.file i).ip).inum
      · subst hx
        have halloc := hs.allocated _ hi.ready.ref hi.ready.valid
        rw [if_pos ((h.allocated _).mpr halloc), Function.update_self, hi.content hs, h.contents]
      · rw [Function.update_of_ne hx]
        change _ = if s.vol.Allocated x then s.vol.contents x else []
        by_cases halloc : s.vol.Allocated x
        · rw [if_pos halloc, if_pos ((h.allocated x).mpr halloc), h.other x halloc hx]
        · rw [if_neg halloc, if_neg fun hv => halloc ((h.allocated x).mp hv)]
    · rw [hcursor, hlen]
      funext x
      by_cases hx : x = i
      · subst hx
        rw [Function.update_self]
        change v.cursor ((s.poured x n v).file x) = _
        rw [hself, ← hinum]
        exact if_pos ⟨hi.type, h.ready.plain⟩
      · rw [Function.update_of_ne hx]
        have hother : (s.poured i n v).file x = s.file x := Function.update_of_ne hx _ _
        change v.cursor ((s.poured i n v).file x) = s.vol.cursor (s.file x)
        rw [hother]
        apply cursor_congr
        · rw [hinode]
        · rw [hinode]
  · rw [hlen]
    rfl
  · by_cases hj : j = (s.file i).ip
    · rw [hj]
      change _ ≤ (v.inode (s.file i).ip).size
      omega
    · change _ ≤ (v.inode j).size
      rw [h.cached j hj]
  · rw [hself]
    exact hi.type
  · rw [hself]
    exact h.ready
  · rw [hself]
    change (s.file i).off + n ≤ (v.inode (s.file i).ip).size
    omega

/-- Code of the file system proper leaves the other tables alone. -/
theorem wlp_onVolume {α : Type} {m : FsM α} {Q : α → Volume → Prop} (h : Exec.wlp m Q s.vol) :
    Exec.wlp (onVolume m) (fun r s' => ∃ v, Q r v ∧ s' = { s with vol := v }) s :=
  Exec.wp_zoom.mpr (Exec.wp_mono h (fun _ v hv => ⟨v, hv, rfl⟩) fun _ _ h => h)

/-- The loop of `filewrite` writes what is accepted of the rest, and it succeeds if that is
all of it. -/
theorem filewriteFrom_poured {src : Chars} {n rounds j : ℕ} (hs : Steady s.vol)
    (hi : Standing i s) (hroom : s.vol.Roomy (s.file i).ip) (hrounds : n - j ≤ rounds) :
    Exec.wlp (filewriteFrom i src n rounds j) (fun r s' =>
      r = (if accepted (s.file i).off (n - j) = n - j then some n else none) ∧
      Poured i ((List.range (accepted (s.file i).off (n - j))).map fun x => src (j + x)) s s' ∧
      s'.task = s.task) s := by
  induction rounds generalizing s j with
  | zero =>
      have h0 : n - j = 0 := Nat.eq_zero_of_le_zero hrounds
      rw [h0, accepted_zero, if_pos rfl]
      exact Exec.wp_pure.mpr ⟨rfl, Poured.refl hs hi, rfl⟩
  | succ rounds ih =>
      unfold filewriteFrom
      by_cases hj : j < n
      · rw [if_pos hj]
        apply Exec.wp_bind.mpr
        apply Exec.wp_gets.mpr
        obtain ⟨m, hm⟩ : ∃ m, m = min (n - j) maxChunk := ⟨_, rfl⟩
        have hsizes := hs.owned.sizes _ (hs.allocated _ hi.ready.ref hi.ready.valid)
        rw [← hs.same _ hi.ready.ref hi.ready.valid] at hsizes
        have hoff := hi.off
        have hmax : 0 < m ∧ m ≤ n - j ∧ m ≤ 1536 := by
          have hchunk : maxChunk = 1536 := rfl
          omega
        rw [accepted_eq (show 0 < n - j by omega), ← hm]
        change Exec.wlp (onVolume (chunk (s.file i).ip (fun x => src (j + x)) (s.file i).off m) >>=
          _) _ s
        by_cases hfit : (s.file i).off + m ≤ maxfile * bsize
        · have hfits : (s.file i).off + m ≤ 71680 := hfit
          rw [if_pos hfit]
          apply Exec.wlp_seq (wlp_onVolume (chunk_written hs hi.ready hroom hoff hfits))
          rintro r _ ⟨v, ⟨rfl, hv⟩, rfl⟩
          have hpoured := hv.poured hs hi
          have hself := hpoured.file_self
          rw [List.length_map, List.length_range] at hself
          have hwrap : wrap32 ((s.file i).off + m) = (s.file i).off + m := wrap32_of_lt (by omega)
          apply Exec.wp_bind.mpr
          apply Exec.wp_modify.mpr
          dsimp only
          rw [if_neg (not_not.mpr rfl), hwrap]
          change Exec.wlp _ _ (s.poured i m v)
          have hroom' := hpoured.roomy hroom
          have hip : ((s.poured i m v).file i).ip = (s.file i).ip := by rw [hself]
          have hoff' : ((s.poured i m v).file i).off = (s.file i).off + m := by rw [hself]
          refine Exec.wlp_mono (ih hpoured.steady hpoured.standing (hip ▸ hroom') (by omega)) ?_
          rw [hoff', ← Nat.sub_sub]
          rintro r s' ⟨hres, hrest, htask⟩
          refine ⟨?_, ?_, htask⟩
          · rw [hres]
            congr 1
            rw [eq_iff_iff]
            omega
          · have hboth := hpoured.trans hs hi hrest
            rw [List.range_add, List.map_append, List.map_map]
            simpa only [Function.comp_def, Nat.add_assoc] using hboth
        · rw [if_neg hfit, if_neg (by omega)]
          have hchunk := chunk_refused (fun x => src (j + x)) hs hi.ready hoff
            (show m < 4294967296 by omega) (not_le.mp hfit)
          apply Exec.wlp_seq (wlp_onVolume hchunk)
          rintro r _ ⟨v, ⟨rfl, rfl⟩, rfl⟩
          exact Exec.wp_pure.mpr ⟨rfl, Poured.refl hs hi, rfl⟩
      · have h0 : n - j = 0 := by omega
        rw [if_neg hj, h0, accepted_zero, if_pos rfl]
        exact Exec.wp_pure.mpr ⟨rfl, Poured.refl hs hi, rfl⟩

theorem Standing.filewrite_poured (hs : Steady s.vol) (hi : Standing i s)
    (hroom : s.vol.Roomy (s.file i).ip) (hwritable : (s.file i).writable = true) (src : Chars)
    {n : ℤ} (hn : 0 ≤ n) (piped : Option ℕ) :
    Exec.wlp (filewrite i src n piped) (fun r s' =>
      (r, s'.streams) = s.streams.write accepted i ((List.range n.toNat).map src) ∧
      Poured i ((List.range (accepted (s.file i).off n.toNat)).map src) s s' ∧
      s'.task = s.task) s := by
  have hlen : ((List.range n.toNat).map src).length = n.toNat := by
    rw [List.length_map, List.length_range]
  unfold filewrite
  apply Exec.wp_bind.mpr
  apply Exec.wp_gets.mpr
  rw [hwritable, if_neg nofun, hi.type]
  dsimp only
  rw [if_neg (not_lt.mpr hn)]
  refine Exec.wlp_mono (filewriteFrom_poured hs hi hroom (le_of_eq (Nat.sub_zero _))) ?_
  simp only [Nat.sub_zero, Nat.zero_add]
  rintro r s' ⟨hres, hpoured, htask⟩
  refine ⟨?_, hpoured, htask⟩
  unfold Streams.write
  rw [hi.cursor]
  dsimp only
  rw [hlen, ← List.map_take, List.take_range, min_eq_left (accepted_le _ _), ← hpoured.streams,
    ← hres]

/-- The state after a read of `m` bytes. -/
def System.advanced (s : System) (i : Fin nfile) (m : ℕ) : System :=
  s.setFile i { s.file i with off := (s.file i).off + m }

theorem uint32_lt (n : ℤ) : uint32 n < 4294967296 := by
  unfold uint32
  omega

/-- The streams after a read. -/
theorem Standing.streams_advanced (hi : Standing i s) (m : ℕ) :
    (s.advanced i m).streams = s.streams.move i (s.vol.inode (s.file i).ip).inum
      ((s.file i).off + m) := by
  ext1
  · rfl
  · funext x
    change s.vol.cursor ((s.advanced i m).file x) = Function.update s.streams.cursor i _ x
    by_cases hx : x = i
    · subst hx
      have hself : (s.advanced x m).file x = { s.file x with off := (s.file x).off + m } :=
        Function.update_self _ _ _
      rw [Function.update_self, hself]
      exact if_pos ⟨hi.type, hi.ready.plain⟩
    · have hother : (s.advanced i m).file x = s.file x := Function.update_of_ne hx _ _
      rw [Function.update_of_ne hx, hother]
      rfl

/-- A read returns what follows the cursor. -/
theorem Standing.fileread_run (hs : Steady s.vol) (hi : Standing i s)
    (hreadable : (s.file i).readable = true) (n : ℤ) (piped : Option (List UInt8)) :
    ∃ r m, fileread i n piped s = (.ok r, s.advanced i m) ∧
      (s.file i).off + m ≤ (s.vol.inode (s.file i).ip).size ∧
      s.streams.read 4294967296 i (uint32 n) = (r, (s.advanced i m).streams) := by
  have hlen := hi.ready.length_contents hs
  have hoff := hi.off
  have hsizes := hs.owned.sizes _ (hs.allocated _ hi.ready.ref hi.ready.valid)
  rw [← hs.same _ hi.ready.ref hi.ready.valid] at hsizes
  have hread := hi.ready.read_run (n := uint32 n) hs hoff (uint32_lt n)
  obtain ⟨r, hr⟩ : ∃ r, r = if 4294967296 ≤ (s.file i).off + uint32 n then none
    else some (((s.vol.contents (s.vol.inode (s.file i).ip).inum).drop (s.file i).off).take
      (uint32 n)) := ⟨_, rfl⟩
  rw [← hr] at hread
  have hwithin : (s.file i).off + (r.getD []).length ≤ (s.vol.inode (s.file i).ip).size := by
    rw [hr]
    split
    · exact hoff
    · rw [Option.getD_some, List.length_take, List.length_drop, hlen]
      omega
  refine ⟨r, (r.getD []).length, ?_, hwithin, ?_⟩
  · have hvolume : (onVolume do
        ilock (s.file i).ip
        let r ← readi (s.file i).ip (s.file i).off (uint32 n)
        iunlock (s.file i).ip
        pure r) s = (.ok r, s) := by
      unfold onVolume Exec.zoom
      rw [hread]
    unfold fileread
    rw [Exec.bind_run_ok (Exec.gets_run _ _), hreadable, if_neg nofun, hi.type]
    dsimp only
    rw [Exec.bind_run_ok hvolume]
    have hwrap : wrap32 ((s.file i).off + (r.getD []).length) =
        (s.file i).off + (r.getD []).length := wrap32_of_lt (by omega)
    unfold modifyFile System.advanced
    rw [← hwrap]
    rfl
  · unfold Streams.read
    rw [hi.cursor]
    dsimp only
    rw [hi.content hs, hi.streams_advanced, hr]
    split
    · rw [Option.getD_none, List.length_nil, Nat.add_zero, Streams.move_self hi.cursor]
    · rfl

end

end Xv6.Fs
