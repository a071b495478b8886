import Xv6.Fs.Blocks

/-!
# The blocks and the contents of an inode

An inode refers to at most 141 blocks, by its thirteen addresses and by the words
of its indirect block.  `refAt` lists these references in one row, with the
indirect block at place 12; `bmap` fills in the ones that are missing with fresh
blocks and leaves all others alone.
-/

namespace Xv6.Fs

open Support

/-- The reference at place `a`: the address `a` for `a ≤ 12`, then the words of the
indirect block. -/
def refAt (addrs : ℕ → ℕ) (block : ℕ → Block) (a : ℕ) : ℕ :=
  if a ≤ 12 then addrs a
  else if addrs 12 = 0 then 0
  else (block (addrs 12)).word (a - 13)

/-- The place of the reference to block `bn` of the file. -/
def place (bn : ℕ) : ℕ :=
  if bn < 12 then bn else bn + 1

/-- The byte at offset `off`; a block that is missing counts as zeros. -/
def fileByte (addrs : ℕ → ℕ) (block : ℕ → Block) (off : ℕ) : UInt8 :=
  if refAt addrs block (place (off / 512)) = 0 then 0
  else UInt8.ofNat ((block (refAt addrs block (place (off / 512)))).byte (off % 512))

theorem place_lt {bn : ℕ} (h : bn < 140) : place bn < 141 := by
  unfold place
  split <;> omega

theorem place_injective : Function.Injective place := by
  intro x y h
  unfold place at h
  split at h <;> split at h <;> omega

theorem place_ne (bn : ℕ) : place bn ≠ 12 := by
  unfold place
  split <;> omega

theorem refAt_of_le {addrs : ℕ → ℕ} {block : ℕ → Block} {a : ℕ} (h : a ≤ 12) :
    refAt addrs block a = addrs a := by
  rw [refAt, if_pos h]

theorem refAt_of_gt {addrs : ℕ → ℕ} {block : ℕ → Block} {a : ℕ} (h : 12 < a) :
    refAt addrs block a = if addrs 12 = 0 then 0 else (block (addrs 12)).word (a - 13) := by
  rw [refAt, if_neg (by omega)]

@[simp] theorem byte_zero (i : ℕ) : Block.zero.byte i = 0 := by
  unfold Block.byte
  split <;> rfl

@[simp] theorem word_zero (j : ℕ) : Block.zero.word j = 0 := by
  simp [Block.word]

/-- Of the blocks only the indirect one matters for the references. -/
theorem refAt_congr {addrs : ℕ → ℕ} {block block' : ℕ → Block}
    (hind : addrs 12 ≠ 0 → block' (addrs 12) = block (addrs 12)) (a : ℕ) :
    refAt addrs block' a = refAt addrs block a := by
  by_cases ha : a ≤ 12
  · rw [refAt_of_le ha, refAt_of_le ha]
  · rw [refAt_of_gt (by omega), refAt_of_gt (by omega)]
    by_cases h0 : addrs 12 = 0
    · rw [if_pos h0, if_pos h0]
    · rw [if_neg h0, if_neg h0, hind h0]

namespace Volume

/-- The reference at place `a` of the inode in entry `k` of the cache. -/
def ref (s : Volume) (k : Fin ninode) (a : ℕ) : ℕ :=
  refAt (s.inode k).addrs s.block a

/-- The byte at offset `off` of the inode in entry `k` of the cache. -/
def byte (s : Volume) (k : Fin ninode) (off : ℕ) : UInt8 :=
  fileByte (s.inode k).addrs s.block off

theorem byte_of_missing {s : Volume} {k : Fin ninode} {off : ℕ}
    (h : s.ref k (place (off / 512)) = 0) : s.byte k off = 0 :=
  if_pos h

theorem byte_of_present {s : Volume} {k : Fin ninode} {off : ℕ}
    (h : s.ref k (place (off / 512)) ≠ 0) :
    s.byte k off = UInt8.ofNat ((s.block (s.ref k (place (off / 512)))).byte (off % 512)) :=
  if_neg h

/-- The references of an inode are to different blocks, all marked used. -/
structure Sole (s : Volume) (k : Fin ninode) : Prop where
  injective : ∀ a < 141, ∀ a' < 141, s.ref k a ≠ 0 → s.ref k a = s.ref k a' → a = a'
  used : ∀ a < 141, s.used (s.ref k a) = true
  zero : s.used 0 = true
  size : s.size ≤ 4294967296

/-! ## Filling in a reference -/

/-- The state after `ip->addrs[a] = balloc()`. -/
def linkAddr (s : Volume) (k : Fin ninode) (a b : ℕ) : Volume :=
  (s.allocate b).setInode k { s.inode k with addrs := Function.update (s.inode k).addrs a b }

/-- The state after filling in word `j` of the indirect block `c` by `balloc`. -/
def linkWord (s : Volume) (c j b : ℕ) : Volume :=
  ((s.allocate b).setBlock c ((s.block c).setWord j b)).logged c

variable {s : Volume} {k : Fin ninode} {a b : ℕ}

theorem ref_linkAddr (hs : s.Sole k) (ha : a ≤ 12) (hnone : s.ref k a = 0)
    (hb : b ∈ s.freeBlocks) (a' : ℕ) :
    (s.linkAddr k a b).ref k a' = if a' = a then b else s.ref k a' := by
  have haddrs : ((s.linkAddr k a b).inode k).addrs =
      Function.update (s.inode k).addrs a b := by
    simp [linkAddr, setInode]
  have hblock : (s.linkAddr k a b).block = Function.update s.block b Block.zero := rfl
  have hunused := (mem_freeBlocks.mp hb).2
  unfold ref
  rw [haddrs, hblock]
  by_cases hle : a' ≤ 12
  · rw [refAt_of_le hle, refAt_of_le hle, Function.update_apply]
  · rw [refAt_of_gt (by omega), refAt_of_gt (by omega), if_neg (by omega : a' ≠ a)]
    by_cases hind : a = 12
    · have h0 : (s.inode k).addrs 12 = 0 := by
        rw [ref, hind, refAt_of_le le_rfl] at hnone
        exact hnone
      rw [hind, Function.update_self, h0, if_pos rfl, Function.update_self, word_zero, ite_self]
    · rw [Function.update_of_ne (Ne.symm hind)]
      by_cases h0 : (s.inode k).addrs 12 = 0
      · rw [if_pos h0, if_pos h0]
      · have hne : (s.inode k).addrs 12 ≠ b := by
          intro h
          have hused := hs.used 12 (by omega)
          rw [ref, refAt_of_le le_rfl, h, hunused] at hused
          cases hused
        rw [if_neg h0, if_neg h0, Function.update_of_ne hne]

theorem ref_linkWord (hs : s.Sole k) (ha : 12 < a) (hlt : a < 141)
    (hc : (s.inode k).addrs 12 ≠ 0) (hb : b ∈ s.freeBlocks) {a' : ℕ} (ha' : a' < 141) :
    (s.linkWord ((s.inode k).addrs 12) (a - 13) b).ref k a' =
      if a' = a then b else s.ref k a' := by
  have hinode : (s.linkWord ((s.inode k).addrs 12) (a - 13) b).inode = s.inode := rfl
  have hblock : (s.linkWord ((s.inode k).addrs 12) (a - 13) b).block
      ((s.inode k).addrs 12) = (s.block ((s.inode k).addrs 12)).setWord (a - 13) b :=
    Function.update_self _ _ _
  obtain ⟨hsize, -⟩ := mem_freeBlocks.mp hb
  have hb32 : b < 2 ^ 32 := by
    have := hs.size
    have := s.logStart_le
    omega
  unfold ref
  rw [hinode]
  by_cases hle : a' ≤ 12
  · rw [refAt_of_le hle, refAt_of_le hle, if_neg (by omega : a' ≠ a)]
  · rw [refAt_of_gt (by omega), refAt_of_gt (by omega), if_neg hc, if_neg hc, hblock]
    by_cases haa : a' = a
    · rw [if_pos haa, haa, Block.word_setWord_self _ (by omega) hb32]
    · rw [if_neg haa, Block.word_setWord_of_ne _ (by omega) (by omega)]

end Volume

/-- The change that `bmap` and the writing of data make: references of inode `k` at
places in `T` have been filled in with fresh blocks, and the bytes at which `wr` is
defined have been overwritten. -/
structure Filled (k : Fin ninode) (wr : ℕ → Option UInt8) (T : ℕ → Prop) (s s' : Volume) :
    Prop where
  same : s' = { s with
    block := s'.block
    used := s'.used
    inode := Function.update s.inode k { s.inode k with addrs := (s'.inode k).addrs }
    log := { s.log with sector := s'.log.sector } }
  sole : s'.Sole k
  zero : s.used 0 = true
  beyond : ∀ a, 12 < a → (s'.inode k).addrs a = (s.inode k).addrs a
  kept : ∀ a < 141, s.ref k a ≠ 0 → s'.ref k a = s.ref k a
  new : ∀ a < 141, s.ref k a = 0 → s'.ref k a ≠ 0 → s'.ref k a ∈ s.freeBlocks ∧ T a
  used : ∀ b, s'.used b = true ↔ s.used b = true ∨ ∃ a < 141, s'.ref k a = b
  bytes : ∀ off < 71680, s'.ref k (place (off / 512)) ≠ 0 →
    s'.byte k off = (wr off).getD (s.byte k off)
  present : ∀ off, (wr off).isSome → off < 71680 ∧ s'.ref k (place (off / 512)) ≠ 0
  frame : ∀ b, s.used b = true → (∀ a < 141, s.ref k a ≠ b) → s'.block b = s.block b

namespace Filled

variable {k : Fin ninode} {wr wr' : ℕ → Option UInt8} {T T' : ℕ → Prop} {s s' s'' : Volume}

theorem size_eq (h : Filled k wr T s s') : s'.size = s.size := by
  rw [h.same]

theorem logStart_eq (h : Filled k wr T s s') : s'.logStart = s.logStart := by
  rw [h.same]
  rfl

theorem inode_self (h : Filled k wr T s s') :
    s'.inode k = { s.inode k with addrs := (s'.inode k).addrs } := by
  conv_lhs => rw [h.same]
  exact Function.update_self _ _ _

theorem inode_of_ne (h : Filled k wr T s s') {j : Fin ninode} (hj : j ≠ k) :
    s'.inode j = s.inode j := by
  conv_lhs => rw [h.same]
  exact Function.update_of_ne hj _ _

theorem freeBlocks_subset (h : Filled k wr T s s') : s'.freeBlocks ⊆ s.freeBlocks := by
  intro b hb
  rw [Volume.mem_freeBlocks] at hb ⊢
  refine ⟨h.logStart_eq ▸ hb.1, ?_⟩
  by_contra hused
  have hused' := (h.used b).mpr (Or.inl (by simpa using hused))
  rw [hb.2] at hused'
  cases hused'

theorem refl (hs : s.Sole k) : Filled k (fun _ => none) (fun _ => False) s s where
  same := by
    simp
  sole := hs
  zero := hs.zero
  beyond _ _ := rfl
  kept _ _ _ := rfl
  new a ha h0 hne := absurd h0 hne
  used b := by
    refine ⟨Or.inl, ?_⟩
    rintro (h | ⟨a, ha, rfl⟩)
    · exact h
    · exact hs.used a ha
  bytes _ _ _ := rfl
  present _ h := by
    cases h
  frame _ _ _ := rfl

theorem mono (h : Filled k wr T s s') (hT : ∀ a, T a → T' a) : Filled k wr T' s s' :=
  { h with new := fun a ha h0 hne => ⟨(h.new a ha h0 hne).1, hT a (h.new a ha h0 hne).2⟩ }

/-- A reference that was there is kept in both steps. -/
theorem ref_ne_zero (h : Filled k wr T s s') {a : ℕ} (ha : a < 141) (hne : s.ref k a ≠ 0) :
    s'.ref k a ≠ 0 := by
  rw [h.kept a ha hne]
  exact hne

theorem trans (h : Filled k wr T s s') (h' : Filled k wr' T' s' s'') :
    Filled k (fun off => (wr' off).or (wr off)) (fun a => T a ∨ T' a) s s'' where
  same := by
    rw [h'.same]
    conv_lhs => rw [h.same]
    simp
  sole := h'.sole
  zero := h.zero
  beyond a ha := (h'.beyond a ha).trans (h.beyond a ha)
  kept a ha hne := by
    rw [h'.kept a ha (h.ref_ne_zero ha hne), h.kept a ha hne]
  new a ha h0 hne := by
    by_cases hmid : s'.ref k a = 0
    · obtain ⟨hfree, hT⟩ := h'.new a ha hmid hne
      exact ⟨h.freeBlocks_subset hfree, Or.inr hT⟩
    · rw [h'.kept a ha hmid]
      obtain ⟨hfree, hT⟩ := h.new a ha h0 hmid
      exact ⟨hfree, Or.inl hT⟩
  used b := by
    rw [h'.used, h.used]
    constructor
    · rintro ((hb | ⟨a, ha, hab⟩) | hb)
      · exact Or.inl hb
      · by_cases h0 : s'.ref k a = 0
        · refine Or.inl ?_
          rw [← hab, h0]
          exact h.zero
        · exact Or.inr ⟨a, ha, (h'.kept a ha h0).trans hab⟩
      · exact Or.inr hb
    · rintro (hb | hb)
      · exact Or.inl (Or.inl hb)
      · exact Or.inr hb
  bytes off hoff hne := by
    rw [h'.bytes off hoff hne]
    by_cases hmid : s'.ref k (place (off / 512)) = 0
    · have hwr : wr off = none := by
        by_contra hsome
        exact (h.present off (Option.isSome_iff_ne_none.mpr hsome)).2 hmid
      have hold : s.ref k (place (off / 512)) = 0 := by
        by_contra hne'
        exact h.ref_ne_zero (place_lt (by omega)) hne' hmid
      rw [Volume.byte_of_missing hmid, Volume.byte_of_missing hold, hwr, Option.or_none]
    · rw [h.bytes off hoff hmid]
      cases wr' off <;> rfl
  present off hsome := by
    by_cases hwr : (wr' off).isSome
    · exact h'.present off hwr
    · have hold : (wr off).isSome := by
        cases hw : wr' off <;> simp_all
      obtain ⟨hoff, hne⟩ := h.present off hold
      exact ⟨hoff, h'.ref_ne_zero (place_lt (by omega)) hne⟩
  frame b hb hnone := by
    have hmid : ∀ a < 141, s'.ref k a ≠ b := by
      intro a ha hab
      by_cases h0 : s.ref k a = 0
      · by_cases h0' : s'.ref k a = 0
        · exact hnone a ha (h0.trans (h0'.symm.trans hab))
        · have hfree := (Volume.mem_freeBlocks.mp (h.new a ha h0 h0').1).2
          rw [hab, hb] at hfree
          cases hfree
      · exact hnone a ha ((h.kept a ha h0).symm.trans hab)
    rw [h'.frame b ((h.used b).mpr (Or.inl hb)) hmid, h.frame b hb hnone]

/-- Filling in one reference with a fresh block of zeros. -/
theorem of_link {a b : ℕ} (hs : s.Sole k) (ha : a < 141) (hnone : s.ref k a = 0)
    (hb : b ∈ s.freeBlocks)
    (hsame : s' = { s with
      block := s'.block
      used := s'.used
      inode := Function.update s.inode k { s.inode k with addrs := (s'.inode k).addrs }
      log := { s.log with sector := s'.log.sector } })
    (hused : s'.used = Function.update s.used b true)
    (hbeyond : ∀ a, 12 < a → (s'.inode k).addrs a = (s.inode k).addrs a)
    (href : ∀ a' < 141, s'.ref k a' = if a' = a then b else s.ref k a')
    (hzero : s'.block b = Block.zero)
    (hblock : ∀ x, s.used x = true → x ≠ s.ref k 12 → s'.block x = s.block x) :
    Filled k (fun _ => none) (· = a) s s' := by
  have hunused := (Volume.mem_freeBlocks.mp hb).2
  have hused_of : ∀ x, s.used x = true → x ≠ b := by
    rintro x hx rfl
    rw [hx] at hunused
    cases hunused
  have hb0 : b ≠ 0 := (hused_of 0 hs.zero).symm
  have hrefb : s'.ref k a = b := by
    rw [href a ha, if_pos rfl]
  have href_of : ∀ a' < 141, a' ≠ a → s'.ref k a' = s.ref k a' := by
    intro a' ha' hne
    rw [href a' ha', if_neg hne]
  have hused' : ∀ x, s'.used x = true ↔ x = b ∨ s.used x = true := by
    intro x
    rw [hused, Function.update_apply]
    split <;> simp [*]
  refine {
    same := hsame
    sole := ⟨?_, ?_, (hused' 0).mpr (Or.inr hs.zero), ?_⟩
    zero := hs.zero
    beyond := hbeyond
    kept := ?_, new := ?_, used := ?_, bytes := ?_
    present := fun _ h => by cases h
    frame := ?_ }
  · intro x hx y hy h0 hxy
    by_cases hxa : x = a
    · by_cases hya : y = a
      · rw [hxa, hya]
      · rw [hxa, hrefb, href_of y hy hya] at hxy
        exact absurd hxy.symm (hused_of _ (hs.used y hy))
    · rw [href_of x hx hxa] at hxy h0
      by_cases hya : y = a
      · rw [hya, hrefb] at hxy
        exact absurd hxy (hused_of _ (hs.used x hx))
      · rw [href_of y hy hya] at hxy
        exact hs.injective x hx y hy h0 hxy
  · intro x hx
    rw [hused']
    by_cases hxa : x = a
    · rw [hxa]
      exact Or.inl hrefb
    · rw [href_of x hx hxa]
      exact Or.inr (hs.used x hx)
  · rw [hsame]
    exact hs.size
  · intro x hx h0
    exact href_of x hx (by rintro rfl; exact h0 hnone)
  · intro x hx h0 hne
    by_cases hxa : x = a
    · rw [hxa, hrefb]
      exact ⟨hb, rfl⟩
    · rw [href_of x hx hxa] at hne
      exact absurd h0 hne
  · intro x
    rw [hused']
    constructor
    · rintro (rfl | h)
      · exact Or.inr ⟨a, ha, hrefb⟩
      · exact Or.inl h
    · rintro (h | ⟨y, hy, rfl⟩)
      · exact Or.inr h
      · by_cases hya : y = a
        · rw [hya]
          exact Or.inl hrefb
        · rw [href_of y hy hya]
          exact Or.inr (hs.used y hy)
  · intro off hoff hne
    have hlt : place (off / 512) < 141 := place_lt (by omega)
    rw [Option.getD_none, Volume.byte_of_present hne]
    by_cases hpa : place (off / 512) = a
    · rw [Volume.byte_of_missing (hpa ▸ hnone), hpa, hrefb, hzero, byte_zero]
      rfl
    · have hr := href_of _ hlt hpa
      have hr0 : s.ref k (place (off / 512)) ≠ 0 := hr ▸ hne
      have hkept : s'.block (s.ref k (place (off / 512))) =
          s.block (s.ref k (place (off / 512))) := by
        refine hblock _ (hs.used _ hlt) fun h => ?_
        exact place_ne _ (hs.injective _ hlt 12 (by omega) hr0 h)
      rw [Volume.byte_of_present hr0, hr, hkept]
  · intro x hx hnot
    exact hblock x hx (hnot 12 (by omega)).symm

theorem linkAddr {a b : ℕ} (hs : s.Sole k) (ha : a ≤ 12) (hnone : s.ref k a = 0)
    (hb : b ∈ s.freeBlocks) :
    Filled k (fun _ => none) (· = a) s (s.linkAddr k a b) := by
  have hunused := (Volume.mem_freeBlocks.mp hb).2
  apply of_link hs (by omega) hnone hb
  · simp [Volume.linkAddr, Volume.allocate, Volume.setInode, Volume.logged, Volume.setSectors,
      Volume.setBlock, Volume.setUsed]
  · rfl
  · intro a' ha'
    simp [Volume.linkAddr, Volume.setInode, Function.update_of_ne (show a' ≠ a by omega)]
  · exact fun a' _ => Volume.ref_linkAddr hs ha hnone hb a'
  · exact Function.update_self _ _ _
  · intro x hx _
    refine Function.update_of_ne ?_ _ _
    rintro rfl
    rw [hx] at hunused
    cases hunused

theorem linkWord {a b : ℕ} (hs : s.Sole k) (ha : 12 < a) (hlt : a < 141)
    (hc : (s.inode k).addrs 12 ≠ 0) (hnone : s.ref k a = 0) (hb : b ∈ s.freeBlocks) :
    Filled k (fun _ => none) (· = a) s
      (s.linkWord ((s.inode k).addrs 12) (a - 13) b) := by
  have hunused := (Volume.mem_freeBlocks.mp hb).2
  have hused_of : ∀ x, s.used x = true → x ≠ b := by
    rintro x hx rfl
    rw [hx] at hunused
    cases hunused
  have hind : s.ref k 12 = (s.inode k).addrs 12 := refAt_of_le le_rfl
  have hcb : (s.inode k).addrs 12 ≠ b := hused_of _ (hind ▸ hs.used 12 (by omega))
  apply of_link hs hlt hnone hb
  · simp [Volume.linkWord, Volume.allocate, Volume.logged, Volume.setSectors,
      Volume.setBlock, Volume.setUsed]
  · rfl
  · exact fun _ _ => rfl
  · exact fun a' ha' => Volume.ref_linkWord hs ha hlt hc hb ha'
  · change Function.update (Function.update s.block b Block.zero) _ _ b = Block.zero
    rw [Function.update_of_ne hcb.symm, Function.update_self]
  · intro x hx hne
    change Function.update (Function.update s.block b Block.zero) _ _ x = s.block x
    rw [Function.update_of_ne (hind ▸ hne), Function.update_of_ne (hused_of x hx)]

end Filled

end Xv6.Fs
