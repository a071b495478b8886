import Xv6.Fs.Recorded

/-!
# Who owns the blocks

Every block of the data area is free or belongs to one inode, at one place, and
every file has exactly the blocks that its size asks for.  Under this invariant
`readi` and `writei` treat an inode as an array of bytes and leave all others
alone.
-/

namespace Xv6.Fs

open Support

namespace Volume

/-- The first block for data, as `mkfs` lays out the disk. -/
def firstData (s : Volume) : ℕ :=
  s.ninodes / ipb + 3 + (s.size / bpb + 1)

theorem firstData_pos (s : Volume) : 0 < s.firstData :=
  Nat.succ_pos _

/-- Inode `i` is in use on disk. -/
def Allocated (s : Volume) (i : ℕ) : Prop :=
  1 ≤ i ∧ i < s.ninodes ∧ (s.dinode i).type ≠ 0

/-- The reference at place `a` of inode `i` on disk. -/
def dref (s : Volume) (i a : ℕ) : ℕ :=
  refAt (s.dinode i).addrs s.block a

/-- The contents of inode `i` on disk. -/
def contents (s : Volume) (i : ℕ) : List UInt8 :=
  (List.range (s.dinode i).size).map (fileByte (s.dinode i).addrs s.block)

/-- The contents of the inode in entry `k` of the cache. -/
def data (s : Volume) (k : Fin ninode) : List UInt8 :=
  s.bytes k 0 (s.inode k).size

end Volume

/-- The blocks of the data area are owned by the inodes. -/
structure Owned (s : Volume) : Prop where
  size : s.size ≤ 4294967296
  first : s.firstData ≤ s.size
  once : ∀ i j, s.Allocated i → s.Allocated j → ∀ a < 141, ∀ b < 141,
    s.dref i a ≠ 0 → s.dref i a = s.dref j b → i = j ∧ a = b
  used : ∀ b, s.used b = true ↔
    b < s.firstData ∨ ∃ i, s.Allocated i ∧ ∃ a < 141, s.dref i a = b
  inside : ∀ i, s.Allocated i → ∀ a < 141, s.dref i a ≠ 0 →
    s.firstData ≤ s.dref i a ∧ s.dref i a < s.logStart
  sizes : ∀ i, s.Allocated i → (s.dinode i).size ≤ 71680
  full : ∀ i, s.Allocated i → (s.dinode i).type = tFile ∨ (s.dinode i).type = tDir →
    ∀ bn < 140, s.dref i (place bn) ≠ 0 ↔ 512 * bn < (s.dinode i).size

/-- Entry `k` of the cache is the locked copy of an inode in use. -/
structure Locked (s : Volume) (k : Fin ninode) : Prop where
  ref : 0 < (s.inode k).ref
  busy : (s.inode k).busy = true
  valid : (s.inode k).valid = true
  same : (s.inode k).toDinode = s.dinode (s.inode k).inum
  allocated : s.Allocated (s.inode k).inum

section

variable {s s' : Volume} {k : Fin ninode}

theorem Locked.ref_eq (hk : Locked s k) (a : ℕ) : s.ref k a = s.dref (s.inode k).inum a := by
  rw [Volume.ref, Volume.dref, ← hk.same]

theorem Owned.zero_used (h : Owned s) : s.used 0 = true :=
  (h.used 0).mpr (Or.inl s.firstData_pos)

theorem Owned.dref_used (h : Owned s) {i a : ℕ} (hi : s.Allocated i) (ha : a < 141) :
    s.used (s.dref i a) = true :=
  (h.used _).mpr (Or.inr ⟨i, hi, a, ha, rfl⟩)

/-- Nobody else refers to the blocks of the inode. -/
theorem Owned.sole (h : Owned s) (hk : Locked s k) : s.Sole k where
  injective a ha b hb h0 hab := by
    rw [hk.ref_eq] at h0
    rw [hk.ref_eq, hk.ref_eq] at hab
    exact (h.once _ _ hk.allocated hk.allocated a ha b hb h0 hab).2
  used a ha := by
    rw [hk.ref_eq]
    exact h.dref_used hk.allocated ha
  zero := h.zero_used
  size := h.size

/-- The inode is a file or a directory. -/
def Volume.Plain (s : Volume) (k : Fin ninode) : Prop :=
  (s.inode k).type = tFile ∨ (s.inode k).type = tDir

theorem Volume.Plain.ne_dev (h : s.Plain k) : (s.inode k).type ≠ tDev := by
  rcases h with h | h <;> rw [h] <;> decide

theorem Owned.present_iff (h : Owned s) (hk : Locked s k) (hp : s.Plain k) {bn : ℕ}
    (hbn : bn < 140) : s.ref k (place bn) ≠ 0 ↔ 512 * bn < (s.inode k).size := by
  have htype : (s.dinode (s.inode k).inum).type = tFile ∨
      (s.dinode (s.inode k).inum).type = tDir := hk.same ▸ hp
  have hsize : (s.inode k).size = (s.dinode (s.inode k).inum).size := by
    rw [← hk.same]
  rw [hk.ref_eq, hsize]
  exact h.full _ hk.allocated htype bn hbn

theorem Owned.full_of_locked (h : Owned s) (hk : Locked s k) (hp : s.Plain k) : s.Full k where
  size_le := by
    have hsize : (s.inode k).size = (s.dinode (s.inode k).inum).size := by
      rw [← hk.same]
    rw [hsize]
    exact h.sizes _ hk.allocated
  present bn hbn := (h.present_iff hk hp hbn).mpr

/-- A block of another inode is not one of the inode's. -/
theorem Owned.foreign (h : Owned s) (hk : Locked s k) {i a : ℕ} (hi : s.Allocated i)
    (hne : i ≠ (s.inode k).inum) (ha : a < 141) (h0 : s.dref i a ≠ 0) :
    ∀ b < 141, s.ref k b ≠ s.dref i a := by
  intro b hb heq
  rw [hk.ref_eq] at heq
  exact hne (h.once i _ hi hk.allocated a ha b hb h0 heq.symm).1

/-! ## After a write -/

variable {src : Chars} {off n : ℕ}

/-- The size after a write of `n` bytes at offset `off`. -/
def grown (size off n : ℕ) : ℕ :=
  if 0 < n ∧ size < off + n then off + n else size

theorem grown_eq {size : ℕ} (h : off ≤ size) : grown size off n = max size (off + n) := by
  unfold grown
  split <;> omega

/-- The parts of the state after a write. -/
structure Spliced (k : Fin ninode) (off n : ℕ) (s s₁ s' : Volume) : Prop where
  ninodes : s'.ninodes = s.ninodes
  size : s'.size = s.size
  logSize : s'.log.size = s.log.size
  busy : s'.log.busy = s.log.busy
  block : s'.block = s₁.block
  used : s'.used = s₁.used
  self : s'.inode k =
    { s.inode k with addrs := (s₁.inode k).addrs, size := grown (s.inode k).size off n }
  other : ∀ j ≠ k, s'.inode j = s.inode j
  dinode : s'.dinode = if 0 < n ∧ (s.inode k).size < off + n then
    Function.update s.dinode (s.inode k).inum (s'.inode k).toDinode else s.dinode

theorem Wrote.spliced (hw : Wrote k src off n s s') :
    ∃ s₁, Filled k (span src off n) (Reaches off n) s s₁ ∧ Spliced k off n s s₁ s' := by
  obtain ⟨s₁, hfill, rfl⟩ := hw
  have hsame := hfill.same
  have hself := hfill.inode_self
  have hdinode : s₁.dinode = s.dinode := by rw [hsame]
  have hinum : (s₁.inode k).inum = (s.inode k).inum := by rw [hself]
  refine ⟨s₁, hfill, ?_⟩
  by_cases hgrow : 0 < n ∧ (s.inode k).size < off + n
  · have hnew : (s₁.resize k (off + n)).inode k = { s₁.inode k with size := off + n } :=
      Function.update_self _ _ _
    rw [if_pos hgrow]
    refine ⟨?_, ?_, ?_, ?_, rfl, rfl, ?_, ?_, ?_⟩
    · change s₁.ninodes = _
      rw [hsame]
    · exact hfill.size_eq
    · change s₁.log.size = _
      rw [hsame]
    · change s₁.log.busy = _
      rw [hsame]
    · rw [hnew, hself, grown, if_pos hgrow]
    · intro j hj
      exact (Function.update_of_ne hj _ _).trans (hfill.inode_of_ne hj)
    · rw [if_pos hgrow, hnew]
      change Function.update s₁.dinode (s₁.inode k).inum _ = _
      rw [hdinode, hinum]
  · rw [if_neg hgrow]
    refine ⟨?_, hfill.size_eq, ?_, ?_, rfl, rfl, ?_, fun j hj => hfill.inode_of_ne hj, ?_⟩
    · rw [hsame]
    · rw [hsame]
    · rw [hsame]
    · rw [grown, if_neg hgrow]
      exact hself
    · rw [if_neg hgrow]
      exact hdinode

namespace Spliced

variable {s₁ : Volume}

theorem ref_eq (h : Spliced k off n s s₁ s') (a : ℕ) : s'.ref k a = s₁.ref k a := by
  rw [Volume.ref, Volume.ref, h.block, h.self]

theorem byte_eq (h : Spliced k off n s s₁ s') (i : ℕ) : s'.byte k i = s₁.byte k i := by
  rw [Volume.byte, Volume.byte, h.block, h.self]

theorem dinode_of_ne (h : Spliced k off n s s₁ s') {i : ℕ} (hi : i ≠ (s.inode k).inum) :
    s'.dinode i = s.dinode i := by
  rw [h.dinode]
  split
  · exact Function.update_of_ne hi _ _
  · rfl

theorem logStart_eq (h : Spliced k off n s s₁ s') : s'.logStart = s.logStart := by
  unfold Volume.logStart
  rw [h.size, h.logSize]

theorem firstData_eq (h : Spliced k off n s s₁ s') : s'.firstData = s.firstData := by
  unfold Volume.firstData
  rw [h.size, h.ninodes]

theorem size_self (h : Spliced k off n s s₁ s') (hoff : off ≤ (s.inode k).size) :
    (s'.inode k).size = max (s.inode k).size (off + n) := by
  rw [h.self]
  exact grown_eq hoff

theorem sole (h : Spliced k off n s s₁ s') (hs : s₁.Sole k) (hsize : s₁.size = s.size) :
    s'.Sole k := by
  refine ⟨?_, ?_, ?_, ?_⟩
  · simp only [h.ref_eq]
    exact hs.injective
  · simp only [h.ref_eq, h.used]
    exact hs.used
  · rw [h.used]
    exact hs.zero
  · rw [h.size, ← hsize]
    exact hs.size

end Spliced

/-- A write leaves no gap: it begins inside the file or at its end. -/
theorem Volume.Full.present_after (h : s.Full k) {s₁ : Volume}
    (hfill : Filled k (span src off n) (Reaches off n) s s₁) (hoff : off ≤ (s.inode k).size)
    {bn : ℕ} (hbn : bn < 140) (hlt : 512 * bn < max (s.inode k).size (off + n)) :
    s₁.ref k (place bn) ≠ 0 := by
  by_cases hold : 512 * bn < (s.inode k).size
  · exact hfill.ref_ne_zero (place_lt hbn) (h.present bn hbn hold)
  · -- the first byte of the block is written
    have hin : off ≤ 512 * bn ∧ 512 * bn < off + n := by omega
    have hwritten := (hfill.present (512 * bn) (by rw [span_of_mem hin]; rfl)).2
    rwa [Nat.mul_div_cancel_left bn (by omega)] at hwritten

theorem Volume.Full.after (h : s.Full k) {s₁ : Volume}
    (hfill : Filled k (span src off n) (Reaches off n) s s₁) (hend : Spliced k off n s s₁ s')
    (hoff : off ≤ (s.inode k).size) (hmax : off + n ≤ 71680) : s'.Full k := by
  have hle := h.size_le
  refine ⟨?_, fun bn hbn hlt => ?_⟩
  · rw [hend.size_self hoff]
    omega
  · rw [hend.size_self hoff] at hlt
    rw [hend.ref_eq]
    exact h.present_after hfill hoff hbn hlt

/-- The bytes of the file after a write. -/
theorem Volume.Full.byte_after (h : s.Full k) {s₁ : Volume}
    (hfill : Filled k (span src off n) (Reaches off n) s s₁) (hend : Spliced k off n s s₁ s')
    (hoff : off ≤ (s.inode k).size) (hmax : off + n ≤ 71680) {i : ℕ}
    (hi : i < max (s.inode k).size (off + n)) :
    s'.byte k i = (span src off n i).getD (s.byte k i) := by
  have hle := h.size_le
  have hpresent := h.present_after hfill hoff (show i / 512 < 140 by omega) (by omega)
  rw [hend.byte_eq]
  exact hfill.bytes i (by omega) hpresent

section Preserved

variable {s₁ : Volume} {i a : ℕ}

/-- The blocks of other inodes keep their data. -/
theorem Owned.block_kept (h : Owned s) (hk : Locked s k) (hfill : Filled k (span src off n)
    (Reaches off n) s s₁) (hend : Spliced k off n s s₁ s') (hi : s.Allocated i)
    (hne : i ≠ (s.inode k).inum) (ha : a < 141) (h0 : s.dref i a ≠ 0) :
    s'.block (s.dref i a) = s.block (s.dref i a) := by
  rw [hend.block]
  exact hfill.frame _ (h.dref_used hi ha) (h.foreign hk hi hne ha h0)

theorem Owned.dref_kept (h : Owned s) (hk : Locked s k) (hfill : Filled k (span src off n)
    (Reaches off n) s s₁) (hend : Spliced k off n s s₁ s') (hi : s.Allocated i)
    (hne : i ≠ (s.inode k).inum) : s'.dref i a = s.dref i a := by
  unfold Volume.dref
  rw [hend.dinode_of_ne hne]
  apply refAt_congr
  intro hind
  have hc : s.dref i 12 = (s.dinode i).addrs 12 := refAt_of_le le_rfl
  rw [← hc] at hind ⊢
  exact h.block_kept hk hfill hend hi hne (by omega) hind

theorem Owned.fileByte_kept (h : Owned s) (hk : Locked s k) (hfill : Filled k (span src off n)
    (Reaches off n) s s₁) (hend : Spliced k off n s s₁ s') (hi : s.Allocated i)
    (hne : i ≠ (s.inode k).inum) {x : ℕ} (hx : x < 71680) :
    fileByte (s'.dinode i).addrs s'.block x = fileByte (s.dinode i).addrs s.block x := by
  have href : ∀ b, refAt (s.dinode i).addrs s'.block b = s.dref i b := by
    intro b
    have hkept := h.dref_kept (a := b) hk hfill hend hi hne
    rwa [Volume.dref, hend.dinode_of_ne hne] at hkept
  rw [hend.dinode_of_ne hne]
  unfold fileByte
  rw [href]
  change _ = if s.dref i (place (x / 512)) = 0 then 0
    else UInt8.ofNat ((s.block (s.dref i (place (x / 512)))).byte (x % 512))
  by_cases h0 : s.dref i (place (x / 512)) = 0
  · rw [if_pos h0, if_pos h0]
  · rw [if_neg h0, if_neg h0, h.block_kept hk hfill hend hi hne (place_lt (by omega)) h0]

theorem Owned.contents_kept (h : Owned s) (hk : Locked s k) (hfill : Filled k (span src off n)
    (Reaches off n) s s₁) (hend : Spliced k off n s s₁ s') (hi : s.Allocated i)
    (hne : i ≠ (s.inode k).inum) : s'.contents i = s.contents i := by
  have hsize := h.sizes i hi
  unfold Volume.contents
  rw [show (s'.dinode i).size = (s.dinode i).size by rw [hend.dinode_of_ne hne]]
  apply List.map_congr_left
  intro x hx
  have hlt := List.mem_range.mp hx
  exact h.fileByte_kept hk hfill hend hi hne (by omega)

/-- A write that does not make the file longer finds all its blocks. -/
theorem Owned.addrs_kept (h : Owned s) (hk : Locked s k) (hp : s.Plain k)
    (hfill : Filled k (span src off n) (Reaches off n) s s₁)
    (hgrow : ¬(0 < n ∧ (s.inode k).size < off + n)) :
    (s₁.inode k).addrs = (s.inode k).addrs := by
  funext a
  by_cases ha : 12 < a
  · exact hfill.beyond a ha
  · have hle : a ≤ 12 := not_lt.mp ha
    have href : s.ref k a = (s.inode k).addrs a := refAt_of_le hle
    have href₁ : s₁.ref k a = (s₁.inode k).addrs a := refAt_of_le hle
    rw [← href, ← href₁]
    by_cases h0 : s.ref k a = 0
    · by_contra hne
      have hnew : s₁.ref k a ≠ 0 := fun h1 => hne (h1.trans h0.symm)
      obtain ⟨bn, hbn, hlt, htouch⟩ := (hfill.new a (by omega) h0 hnew).2
      have hpresent := (h.present_iff hk hp hbn).mpr (by omega)
      rcases htouch with rfl | ⟨h12, rfl⟩
      · exact hpresent h0
      · have hplace : place bn = bn + 1 := if_neg (by omega)
        exact hpresent (Volume.ref_eq_zero_of_indirect (by omega) h0)
    · exact hfill.kept a (by omega) h0

theorem Owned.locked_after (h : Owned s) (hk : Locked s k) (hp : s.Plain k)
    (hfill : Filled k (span src off n) (Reaches off n) s s₁)
    (hend : Spliced k off n s s₁ s') : Locked s' k := by
  have hinum : (s'.inode k).inum = (s.inode k).inum := by rw [hend.self]
  have hsame : (s'.inode k).toDinode = s'.dinode (s.inode k).inum := by
    by_cases hgrow : 0 < n ∧ (s.inode k).size < off + n
    · rw [hend.dinode, if_pos hgrow, Function.update_self]
    · rw [hend.dinode, if_neg hgrow, hend.self, h.addrs_kept hk hp hfill hgrow, grown,
        if_neg hgrow, ← hk.same]
  refine ⟨?_, ?_, ?_, hinum ▸ hsame, ?_⟩
  · rw [hend.self]
    exact hk.ref
  · rw [hend.self]
    exact hk.busy
  · rw [hend.self]
    exact hk.valid
  · obtain ⟨hlow, hhigh, htype⟩ := hk.allocated
    refine ⟨hinum ▸ hlow, by rw [hinum, hend.ninodes]; exact hhigh, ?_⟩
    rw [hinum, ← hsame, hend.self]
    rw [← hk.same] at htype
    exact htype

theorem Spliced.allocated_iff (hk : Locked s k) (hk' : Locked s' k)
    (hend : Spliced k off n s s₁ s') : s'.Allocated i ↔ s.Allocated i := by
  unfold Volume.Allocated
  rw [hend.ninodes]
  by_cases hi : i = (s.inode k).inum
  · have hinum : (s'.inode k).inum = (s.inode k).inum := by rw [hend.self]
    have htype : (s'.dinode i).type = (s.dinode i).type := by
      rw [hi, ← hk.same]
      rw [← hinum, ← hk'.same, hend.self]
    rw [htype]
  · rw [hend.dinode_of_ne hi]

/-- The references of an inode after a write: those of other inodes and those that
were there are as before, and the others are to blocks that were free. -/
theorem Owned.dref_after (h : Owned s) (hk : Locked s k) (hk' : Locked s' k)
    (hfill : Filled k (span src off n) (Reaches off n) s s₁) (hend : Spliced k off n s s₁ s')
    (hi : s.Allocated i) (ha : a < 141) (h0 : s'.dref i a ≠ 0) :
    s'.dref i a = s.dref i a ∧ s.dref i a ≠ 0 ∨
      i = (s.inode k).inum ∧ s.dref i a = 0 ∧ s'.dref i a ∈ s.freeBlocks ∧ Reaches off n a := by
  by_cases hne : i = (s.inode k).inum
  · have hinum : (s'.inode k).inum = (s.inode k).inum := by rw [hend.self]
    have href : s'.dref i a = s₁.ref k a := by
      rw [hne, ← hinum, ← hk'.ref_eq, hend.ref_eq]
    have hold : s.dref i a = s.ref k a := by
      rw [hne, hk.ref_eq]
    rw [href] at h0 ⊢
    rw [hold]
    by_cases hr : s.ref k a = 0
    · obtain ⟨hfree, hreach⟩ := hfill.new a ha hr h0
      exact Or.inr ⟨hne, hr, hfree, hreach⟩
    · exact Or.inl ⟨hfill.kept a ha hr, hr⟩
  · have hkept := h.dref_kept (a := a) hk hfill hend hi hne
    rw [hkept] at h0
    exact Or.inl ⟨hkept, h0⟩

theorem Owned.dref_stays (h : Owned s) (hk : Locked s k) (hk' : Locked s' k)
    (hfill : Filled k (span src off n) (Reaches off n) s s₁) (hend : Spliced k off n s s₁ s')
    (hi : s.Allocated i) (ha : a < 141) (h0 : s.dref i a ≠ 0) : s'.dref i a = s.dref i a := by
  by_cases hne : i = (s.inode k).inum
  · have hinum : (s'.inode k).inum = (s.inode k).inum := by rw [hend.self]
    rw [hne, ← hk.ref_eq] at h0
    rw [hne, ← hk.ref_eq, ← hinum, ← hk'.ref_eq, hend.ref_eq]
    exact hfill.kept a ha h0
  · exact h.dref_kept hk hfill hend hi hne

theorem Owned.used_after (h : Owned s) (hk : Locked s k) (hk' : Locked s' k)
    (hfill : Filled k (span src off n) (Reaches off n) s s₁) (hend : Spliced k off n s s₁ s')
    (b : ℕ) :
    s'.used b = true ↔ b < s.firstData ∨ ∃ i, s.Allocated i ∧ ∃ a < 141, s'.dref i a = b := by
  have hinum : (s'.inode k).inum = (s.inode k).inum := by rw [hend.self]
  have hzero := s.firstData_pos
  rw [hend.used, hfill.used, h.used]
  constructor
  · rintro ((hlow | ⟨i, hi, a, ha, rfl⟩) | ⟨a, ha, rfl⟩)
    · exact Or.inl hlow
    · by_cases h0 : s.dref i a = 0
      · exact Or.inl (h0 ▸ hzero)
      · exact Or.inr ⟨i, hi, a, ha, h.dref_stays hk hk' hfill hend hi ha h0⟩
    · refine Or.inr ⟨_, hk.allocated, a, ha, ?_⟩
      rw [← hinum, ← hk'.ref_eq, hend.ref_eq]
  · rintro (hlow | ⟨i, hi, a, ha, rfl⟩)
    · exact Or.inl (Or.inl hlow)
    · by_cases h0 : s'.dref i a = 0
      · exact Or.inl (Or.inl (h0 ▸ hzero))
      · rcases h.dref_after hk hk' hfill hend hi ha h0 with ⟨hia, -⟩ | ⟨rfl, -⟩
        · exact Or.inl (Or.inr ⟨i, hi, a, ha, hia.symm⟩)
        · refine Or.inr ⟨a, ha, ?_⟩
          rw [← hinum, ← hk'.ref_eq, hend.ref_eq]

/-- After a write the file has the blocks that its new size asks for. -/
theorem Owned.present_after (h : Owned s) (hk : Locked s k) (hp : s.Plain k)
    (hfill : Filled k (span src off n) (Reaches off n) s s₁) (hoff : off ≤ (s.inode k).size)
    {bn : ℕ} (hbn : bn < 140) :
    s₁.ref k (place bn) ≠ 0 ↔ 512 * bn < max (s.inode k).size (off + n) := by
  have hold := h.present_iff hk hp hbn
  by_cases h0 : s.ref k (place bn) = 0
  · have hlarge : (s.inode k).size ≤ 512 * bn := not_lt.mp fun hlt => hold.mpr hlt h0
    constructor
    · intro hne
      obtain ⟨bn', -, hlt, htouch⟩ := (hfill.new _ (place_lt hbn) h0 hne).2
      rcases htouch with heq | ⟨-, heq⟩
      · have := place_injective heq
        omega
      · exact absurd heq (place_ne bn)
    · exact (h.full_of_locked hk hp).present_after hfill hoff hbn
  · have hlt := hold.mp h0
    exact ⟨fun _ => by omega, fun _ => hfill.ref_ne_zero (place_lt hbn) h0⟩

/-- The blocks are owned as well after a write. -/
theorem Owned.after (h : Owned s) (hk : Locked s k) (hp : s.Plain k)
    (hfill : Filled k (span src off n) (Reaches off n) s s₁) (hend : Spliced k off n s s₁ s')
    (hoff : off ≤ (s.inode k).size) (hmax : off + n ≤ 71680) : Owned s' := by
  have hk' := h.locked_after hk hp hfill hend
  have hinum : (s'.inode k).inum = (s.inode k).inum := by rw [hend.self]
  have halloc : ∀ i, s'.Allocated i ↔ s.Allocated i := fun i => hend.allocated_iff hk hk'
  have hafter := fun {i a : ℕ} (hi : s.Allocated i) (ha : a < 141) (h0 : s'.dref i a ≠ 0) =>
    h.dref_after hk hk' hfill hend hi ha h0
  have hunused : ∀ {b}, b ∈ s.freeBlocks → ∀ i, s.Allocated i → ∀ a < 141, s.dref i a ≠ b := by
    rintro b hb i hi a ha rfl
    exact Volume.used_ne (h.dref_used hi ha) hb rfl
  have hsize' := hend.size_self hoff
  constructor
  · rw [hend.size]
    exact h.size
  · rw [hend.firstData_eq, hend.size]
    exact h.first
  · intro i j hi hj a ha b hb h0 hab
    rw [halloc] at hi hj
    rcases hafter hi ha h0 with ⟨hia, hia0⟩ | ⟨rfl, -, hfree, -⟩
    · rcases hafter hj hb (hab ▸ h0) with ⟨hjb, -⟩ | ⟨rfl, -, hfree, -⟩
      · exact h.once i j hi hj a ha b hb hia0 (hia ▸ hjb ▸ hab)
      · exact absurd (hia.symm.trans hab) (hunused hfree i hi a ha)
    · rcases hafter hj hb (hab ▸ h0) with ⟨hjb, -⟩ | ⟨rfl, -, -, -⟩
      · exact absurd (hjb.symm.trans hab.symm) (hunused hfree j hj b hb)
      · refine ⟨rfl, ?_⟩
        rw [← hinum, ← hk'.ref_eq, hend.ref_eq] at h0
        rw [← hinum, ← hk'.ref_eq, ← hk'.ref_eq, hend.ref_eq, hend.ref_eq] at hab
        exact hfill.sole.injective a ha b hb h0 hab
  · intro b
    rw [h.used_after hk hk' hfill hend, hend.firstData_eq]
    simp only [halloc]
  · intro i hi a ha h0
    rw [halloc] at hi
    rw [hend.firstData_eq, hend.logStart_eq]
    rcases hafter hi ha h0 with ⟨hia, hia0⟩ | ⟨-, -, hfree, -⟩
    · rw [hia]
      exact h.inside i hi a ha hia0
    · obtain ⟨hlt, hnot⟩ := Volume.mem_freeBlocks.mp hfree
      refine ⟨?_, hlt⟩
      by_contra hlow
      rw [(h.used _).mpr (Or.inl (not_le.mp hlow))] at hnot
      cases hnot
  · intro i hi
    rw [halloc] at hi
    by_cases hne : i = (s.inode k).inum
    · rw [hne, ← hinum, ← hk'.same, hsize']
      have := (h.full_of_locked hk hp).size_le
      omega
    · rw [hend.dinode_of_ne hne]
      exact h.sizes i hi
  · intro i hi htype bn hbn
    rw [halloc] at hi
    by_cases hne : i = (s.inode k).inum
    · rw [hne, ← hinum, ← hk'.ref_eq, ← hk'.same, hsize', hend.ref_eq]
      exact h.present_after hk hp hfill hoff hbn
    · rw [hend.dinode_of_ne hne] at htype ⊢
      rw [h.dref_kept hk hfill hend hi hne]
      exact h.full i hi htype bn hbn

end Preserved

/-- An inode that comes into use has no blocks. -/
theorem Owned.born {i : ℕ} {d : Dinode} (h : Owned s) (hnot : ¬s.Allocated i)
    (heq : s' = { s with dinode := Function.update s.dinode i d, inode := s'.inode, log := s'.log })
    (hlog : s'.log.size = s.log.size) (hsize : d.size = 0) (haddrs : ∀ a ≤ 12, d.addrs a = 0) :
    Owned s' := by
  have hself : s'.dinode i = d := by
    rw [heq]
    exact Function.update_self _ _ _
  have hother {j : ℕ} (hj : j ≠ i) : s'.dinode j = s.dinode j := by
    rw [heq]
    exact Function.update_of_ne hj _ _
  have hnone {a : ℕ} : s'.dref i a = 0 := by
    unfold Volume.dref
    rw [hself]
    by_cases ha : a ≤ 12
    · rw [refAt_of_le ha, haddrs a ha]
    · rw [refAt_of_gt (by omega), if_pos (haddrs 12 le_rfl)]
  have hblock : s'.block = s.block := by rw [heq]
  have hdref {j : ℕ} (hj : j ≠ i) (a : ℕ) : s'.dref j a = s.dref j a := by
    unfold Volume.dref
    rw [hother hj, hblock]
  have halloc {j : ℕ} (hj : j ≠ i) : s'.Allocated j ↔ s.Allocated j := by
    unfold Volume.Allocated
    rw [hother hj, heq]
  have hfirst : s'.firstData = s.firstData := by rw [heq]; rfl
  have hstart : s'.logStart = s.logStart := by
    unfold Volume.logStart
    rw [hlog, heq]
  refine ⟨?_, ?_, ?_, fun b => ?_, ?_, ?_, ?_⟩
  · rw [heq]
    exact h.size
  · rw [hfirst, heq]
    exact h.first
  · intro j l hj hl a ha b hb h0 hab
    have hji : j ≠ i := by
      rintro rfl
      exact h0 hnone
    have hli : l ≠ i := by
      rintro rfl
      exact h0 (hab.trans hnone)
    rw [hdref hji] at h0 hab
    rw [hdref hli] at hab
    exact h.once j l ((halloc hji).mp hj) ((halloc hli).mp hl) a ha b hb h0 hab
  · have hused : s'.used = s.used := by rw [heq]
    rw [hused, h.used, hfirst]
    constructor
    · rintro (hlow | ⟨j, hj, a, ha, rfl⟩)
      · exact Or.inl hlow
      · have hji : j ≠ i := by
          rintro rfl
          exact hnot hj
        exact Or.inr ⟨j, (halloc hji).mpr hj, a, ha, hdref hji a⟩
    · rintro (hlow | ⟨j, hj, a, ha, rfl⟩)
      · exact Or.inl hlow
      · by_cases hji : j = i
        · rw [hji, hnone]
          exact Or.inl s.firstData_pos
        · exact Or.inr ⟨j, (halloc hji).mp hj, a, ha, (hdref hji a).symm⟩
  · intro j hj a ha h0
    have hji : j ≠ i := by
      rintro rfl
      exact h0 hnone
    rw [hdref hji] at h0 ⊢
    rw [hfirst, hstart]
    exact h.inside j ((halloc hji).mp hj) a ha h0
  · intro j hj
    by_cases hji : j = i
    · rw [hji, hself, hsize]
      exact Nat.zero_le _
    · rw [hother hji]
      exact h.sizes j ((halloc hji).mp hj)
  · intro j hj htype bn hbn
    by_cases hji : j = i
    · rw [hji, hnone, hself, hsize]
      omega
    · rw [hother hji] at htype ⊢
      rw [hdref hji]
      exact h.full j ((halloc hji).mp hj) htype bn hbn

/-! ## Files as arrays of bytes -/

theorem Volume.length_data (s : Volume) (k : Fin ninode) :
    (s.data k).length = (s.inode k).size := by
  simp [data, bytes]

theorem Volume.data_eq {m : ℕ} (h : m ≤ (s.inode k).size) :
    s.data k = s.bytes k 0 m ++ s.bytes k m ((s.inode k).size - m) := by
  have hadd := s.bytes_add k 0 m ((s.inode k).size - m)
  rw [Nat.zero_add, Nat.add_sub_cancel' h] at hadd
  exact hadd

theorem Volume.length_bytes (s : Volume) (k : Fin ninode) (off n : ℕ) :
    (s.bytes k off n).length = n := by
  simp [bytes]

theorem Volume.take_data {m : ℕ} (h : m ≤ (s.inode k).size) :
    (s.data k).take m = s.bytes k 0 m := by
  rw [data_eq h, List.take_left' (s.length_bytes k 0 m)]

theorem Volume.drop_data {m : ℕ} (h : m ≤ (s.inode k).size) :
    (s.data k).drop m = s.bytes k m ((s.inode k).size - m) := by
  rw [data_eq h, List.drop_left' (s.length_bytes k 0 m)]

theorem Volume.take_bytes (s : Volume) (k : Fin ninode) (off n m : ℕ) :
    (s.bytes k off n).take m = s.bytes k off (min m n) := by
  unfold bytes
  rw [← List.map_take, List.take_range]

/-- A write inside the file needs no block. -/
theorem Volume.Full.gaps_eq_zero (h : s.Full k) (hend : off + n ≤ (s.inode k).size) :
    s.gaps k (Reaches off n) = 0 := by
  unfold gaps
  rw [Finset.card_eq_zero, Finset.filter_eq_empty_iff]
  rintro a - ⟨⟨bn, hbn, hlt, htouch⟩, h0⟩
  have hpresent := h.present bn hbn (by omega)
  rcases htouch with rfl | ⟨h12, rfl⟩
  · exact hpresent h0
  · have hplace : place bn = bn + 1 := if_neg (by omega)
    exact hpresent (ref_eq_zero_of_indirect (by omega) h0)

/-- The effect of a write on the inode in entry `k` and on all others. -/
structure Overwritten (k : Fin ninode) (src : Chars) (off n : ℕ) (s s' : Volume) : Prop where
  data : s'.data k = (s.data k).take off ++ (List.range n).map src ++ (s.data k).drop (off + n)
  size : (s'.inode k).size = max (s.inode k).size (off + n)
  other : ∀ i, s.Allocated i → i ≠ (s.inode k).inum →
    s'.dinode i = s.dinode i ∧ s'.contents i = s.contents i
  cached : ∀ j ≠ k, s'.inode j = s.inode j
  owned : Owned s'
  locked : Locked s' k

theorem Filled.overwritten {s₁ : Volume} (hfill : Filled k (span src off n) (Reaches off n) s s₁)
    (hend : Spliced k off n s s₁ s') (h : Owned s) (hk : Locked s k) (hp : s.Plain k)
    (hoff : off ≤ (s.inode k).size) (hmax : off + n ≤ 71680) :
    Overwritten k src off n s s' := by
  have hsize := hend.size_self hoff
  refine {
    data := ?_
    size := hsize
    other := fun i hi hne => ⟨hend.dinode_of_ne hne, h.contents_kept hk hfill hend hi hne⟩
    cached := hend.other
    owned := h.after hk hp hfill hend hoff hmax
    locked := h.locked_after hk hp hfill hend }
  have hbyte {i : ℕ} (hi : i < max (s.inode k).size (off + n)) :=
    (h.full_of_locked hk hp).byte_after hfill hend hoff hmax hi
  have hbefore : s'.bytes k 0 off = s.bytes k 0 off := by
    apply List.map_congr_left
    intro i hi
    have hlt := List.mem_range.mp hi
    rw [hbyte (by omega), span_of_not (by omega), Option.getD_none]
  have hwritten : s'.bytes k off n = (List.range n).map src := by
    apply List.map_congr_left
    intro i hi
    have hlt := List.mem_range.mp hi
    rw [hbyte (by omega), span_of_mem (by omega), Option.getD_some, Nat.add_sub_cancel_left]
  have hafter : s'.bytes k (off + n) ((s'.inode k).size - (off + n)) =
      (s.data k).drop (off + n) := by
    by_cases hle : off + n ≤ (s.inode k).size
    · rw [Volume.drop_data hle, hsize, max_eq_left hle]
      apply List.map_congr_left
      intro i hi
      have hlt := List.mem_range.mp hi
      rw [hbyte (by omega), span_of_not (by omega), Option.getD_none]
    · have hnone : (s'.inode k).size - (off + n) = 0 := by omega
      rw [hnone, List.drop_of_length_le (by rw [s.length_data]; omega)]
      rfl
  have hsplit := s'.bytes_add k 0 off n
  rw [Nat.zero_add] at hsplit
  rw [Volume.data_eq (show off + n ≤ (s'.inode k).size by omega), hsplit, hbefore, hwritten,
    hafter, Volume.take_data hoff]

theorem Wrote.overwritten (hw : Wrote k src off n s s') (h : Owned s) (hk : Locked s k)
    (hp : s.Plain k) (hoff : off ≤ (s.inode k).size) (hmax : off + n ≤ 71680) :
    Overwritten k src off n s s' := by
  obtain ⟨s₁, hfill, hend⟩ := hw.spliced
  exact hfill.overwritten hend h hk hp hoff hmax

/-- `readi` and `writei` treat a file or directory as an array of bytes: a read returns
the bytes of the range up to the end of the file, a write that the checks let through
replaces the bytes of the range and leaves all other inodes alone.  A write panics if and
only if one of its calls of `log_write` finds the log full. -/
theorem readi_writei_bytes (h : Owned s) (hk : Locked s k) (hp : s.Plain k)
    (hoff : off < 4294967296) (hn : n < 4294967296) (src : Chars) :
    readi k off n s =
      (.ok (if (s.inode k).size < off ∨ 4294967296 ≤ off + n then none
        else some (((s.data k).drop off).take n)), s) ∧
    ((s.inode k).size < off ∨ 4294967296 ≤ off + n ∨ maxfile * bsize < off + n →
      writei k src off n s = (.ok none, s)) ∧
    (¬((s.inode k).size < off ∨ 4294967296 ≤ off + n ∨ maxfile * bsize < off + n) →
      s.log.busy = true → s.gaps k (Reaches off n) ≤ s.freeBlocks.card →
      (s.log.Takes (s.recorded k off n) →
        ∃ s', writei k src off n s = (.ok (some n), s') ∧ Overwritten k src off n s s') ∧
      (¬s.log.Takes (s.recorded k off n) →
        (writei k src off n s).1 = .error .tooBigATransaction)) := by
  have hfits : WriteFits (s.inode k).size off n ↔
      ¬((s.inode k).size < off ∨ 4294967296 ≤ off + n ∨ maxfile * bsize < off + n) := by
    unfold WriteFits wrap32
    omega
  refine ⟨?_, fun hbad => ?_, fun hgood hbusy hfree => ?_⟩
  · rw [readi_spec (h.full_of_locked hk hp) hp.ne_dev hoff hn]
    congr 2
    unfold readCount
    by_cases hbad : (s.inode k).size < off ∨ 4294967296 ≤ off + n
    · rw [if_pos hbad, if_pos (by unfold wrap32; omega)]
      rfl
    · rw [if_neg hbad, if_neg (by unfold wrap32; omega),
        Volume.drop_data (show off ≤ (s.inode k).size by omega), Volume.take_bytes]
      have hwrap : wrap32 (off + n) = off + n := wrap32_of_lt (by omega)
      rw [hwrap]
      split_ifs
      · rw [min_eq_right (by omega)]
        rfl
      · rw [min_eq_left (by omega)]
        rfl
  · exact writei_refuses hp.ne_dev fun hfit => hfits.mp hfit hbad
  · have hmax : off + n ≤ 71680 := by
      unfold maxfile bsize at hgood
      omega
    obtain ⟨hreturns, hpanics⟩ := (passes_writei (h.sole hk) hp.ne_dev hbusy (hfits.mpr hgood)
      hmax src hfree).returns_iff
    refine ⟨fun htakes => ?_, hpanics⟩
    obtain ⟨res, s', hrun, rfl, hw, -⟩ := hreturns htakes
    exact ⟨s', hrun, hw.overwritten h hk hp (by omega) hmax⟩

end

/-- A disk with one file, which has twelve blocks, in a transaction. -/
def oneFile : Volume where
  ninodes := 200
  size := 25045
  block _ := Block.zero
  used b := decide (b < 47)
  dinode i := if i = 2 then ⟨tFile, 0, 0, 1, 6144, fun a => if a < 12 then 35 + a else 0⟩
    else Dinode.zero
  inode k := if k = 0 then
      ⟨⟨tFile, 0, 0, 1, 6144, fun a => if a < 12 then 35 + a else 0⟩, 2, 1, true, true⟩
    else ⟨Dinode.zero, 0, 0, false, false⟩
  log := ⟨true, [], 10⟩
  devsw _ := none

theorem oneFile_allocated {i : ℕ} : oneFile.Allocated i ↔ i = 2 := by
  unfold Volume.Allocated oneFile
  by_cases hi : i = 2
  · simp [hi, tFile]
  · simp [hi, Dinode.zero]

theorem oneFile_dref {a : ℕ} (ha : a < 141) :
    oneFile.dref 2 a = if a < 12 then 35 + a else 0 := by
  unfold Volume.dref
  by_cases hle : a ≤ 12
  · rw [refAt_of_le hle]
    rfl
  · have hind : (oneFile.dinode 2).addrs 12 = 0 := rfl
    rw [refAt_of_gt (by omega), if_pos hind, if_neg (by omega)]

theorem owned_oneFile : Owned oneFile := by
  have hfirst : oneFile.firstData = 35 := by rfl
  have hstart : oneFile.logStart = 25035 := by rfl
  have href : ∀ {a}, a < 141 → oneFile.dref 2 a = if a < 12 then 35 + a else 0 :=
    fun ha => oneFile_dref ha
  refine ⟨by decide, by decide, ?_, fun b => ?_, ?_, ?_, ?_⟩
  · intro i j hi hj a ha b hb h0 hab
    rw [oneFile_allocated] at hi hj
    subst hi hj
    rw [href ha] at h0
    rw [href ha, href hb] at hab
    refine ⟨rfl, ?_⟩
    split_ifs at h0 hab <;> omega
  · rw [hfirst]
    change decide (b < 47) = true ↔ _
    rw [decide_eq_true_iff]
    simp only [oneFile_allocated, exists_eq_left]
    constructor
    · intro hb
      by_cases hlow : b < 35
      · exact Or.inl hlow
      · refine Or.inr ⟨b - 35, by omega, ?_⟩
        rw [href (by omega), if_pos (by omega)]
        omega
    · rintro (hlow | ⟨a, ha, rfl⟩)
      · omega
      · rw [href ha]
        split_ifs <;> omega
  · intro i hi a ha h0
    rw [oneFile_allocated] at hi
    subst hi
    rw [href ha] at h0 ⊢
    rw [hfirst, hstart]
    split_ifs at h0 ⊢ <;> omega
  · intro i hi
    rw [oneFile_allocated.mp hi]
    decide
  · intro i hi _ bn hbn
    rw [oneFile_allocated] at hi
    subst hi
    rw [href (place_lt hbn)]
    change _ ↔ 512 * bn < 6144
    unfold place
    split_ifs <;> omega

theorem locked_oneFile : Locked oneFile 0 :=
  ⟨by decide, rfl, rfl, rfl, oneFile_allocated.mpr rfl⟩

/-- Two blocks are free. -/
theorem two_le_freeBlocks : 2 ≤ oneFile.freeBlocks.card := by
  have hsub : ({47, 48} : Finset ℕ) ⊆ oneFile.freeBlocks := by
    intro b hb
    rw [Volume.mem_freeBlocks]
    rcases Finset.mem_insert.mp hb with rfl | hb
    · exact ⟨by decide, by decide⟩
    · rw [Finset.mem_singleton.mp hb]
      exact ⟨by decide, by decide⟩
  exact Finset.card_le_card hsub

/-- Read the last byte, and write over it and on into the first block of the indirect
ones. -/
theorem readi_writei_bytes_oneFile :
    readi 0 6143 2 oneFile = (.ok (some [0]), oneFile) ∧
    ∃ s', writei 0 (fun i => UInt8.ofNat (i + 1)) 6143 2 oneFile = (.ok (some 2), s') ∧
      Overwritten 0 (fun i => UInt8.ofNat (i + 1)) 6143 2 oneFile s' := by
  obtain ⟨hread, -, hwrite⟩ := readi_writei_bytes owned_oneFile locked_oneFile (Or.inl rfl)
    (show 6143 < 4294967296 by decide) (show 2 < 4294967296 by decide)
    fun i => UInt8.ofNat (i + 1)
  refine ⟨hread.trans ?_, ?_⟩
  · rw [if_neg (by decide), Volume.drop_data (by decide), Volume.take_bytes]
    rfl
  · have hgaps : oneFile.gaps 0 (Reaches 6143 2) ≤ 2 := by decide +kernel
    have htakes : oneFile.log.Takes (oneFile.recorded 0 6143 2) := by decide +kernel
    exact (hwrite (by decide) rfl (hgaps.trans two_le_freeBlocks)).1 htakes

/-- A write of ten blocks does not return. -/
theorem writei_ten_blocks :
    Owned oneFile ∧ Locked oneFile 0 ∧ oneFile.Plain 0 ∧ oneFile.log.busy = true ∧
    ¬((oneFile.inode 0).size < 0 ∨ 4294967296 ≤ 0 + 5120 ∨ maxfile * bsize < 0 + 5120) ∧
    oneFile.gaps 0 (Reaches 0 5120) = 0 ∧
    (writei 0 (fun _ => 1) 0 5120 oneFile).1 = .error .tooBigATransaction := by
  refine ⟨owned_oneFile, locked_oneFile, Or.inl rfl, rfl, by decide, ?_, ?_⟩
  · exact (owned_oneFile.full_of_locked locked_oneFile (Or.inl rfl)).gaps_eq_zero (by decide)
  · decide +kernel

end Xv6.Fs
