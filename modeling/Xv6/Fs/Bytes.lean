import Mathlib.Algebra.Order.BigOperators.Group.List
import Xv6.Fs.Contents

/-!
# Reading and writing bytes

The specifications of `bmap`, `readi` and `writei` for one inode whose references
are its own: what is filled in and overwritten, what it costs in free blocks and
in entries of the log, and that nothing else changes.
-/

namespace Xv6.Fs

open Support

/-- The places of the references that `bmap` of block `bn` goes through. -/
def Touches (bn a : ℕ) : Prop :=
  a = place bn ∨ 12 ≤ bn ∧ a = 12

instance (bn : ℕ) : DecidablePred (Touches bn) := fun _ =>
  inferInstanceAs (Decidable (_ ∨ _))

theorem touches_place (bn : ℕ) : Touches bn (place bn) :=
  Or.inl rfl

namespace Volume

/-- The number of references at places in `T` that are missing. -/
def gaps (s : Volume) (k : Fin ninode) (T : ℕ → Prop) [DecidablePred T] : ℕ :=
  ((Finset.range 141).filter fun a => T a ∧ s.ref k a = 0).card

/-- The blocks that `bmap` of block `bn` and the write to it record in the log. -/
def toll (s : Volume) (k : Fin ninode) (bn : ℕ) : ℕ :=
  if s.ref k (place bn) ≠ 0 then 1
  else if bn < 12 then 2
  else if s.ref k 12 ≠ 0 then 3 else 4

variable {s : Volume} {k : Fin ninode} {T T' : ℕ → Prop} [DecidablePred T] [DecidablePred T']

theorem gaps_mono (h : ∀ a < 141, T a → T' a) : s.gaps k T ≤ s.gaps k T' := by
  apply Finset.card_le_card
  intro a ha
  rw [Finset.mem_filter, Finset.mem_range] at ha ⊢
  exact ⟨ha.1, h a ha.1 ha.2.1, ha.2.2⟩

theorem gaps_pos {a : ℕ} (ha : a < 141) (hT : T a) (hnone : s.ref k a = 0) :
    0 < s.gaps k T := by
  apply Finset.card_pos.mpr
  exact ⟨a, Finset.mem_filter.mpr ⟨Finset.mem_range.mpr ha, hT, hnone⟩⟩

/-- The indirect block and a word of it are both missing. -/
theorem two_le_gaps {bn : ℕ} (h12 : 12 ≤ bn) (hbn : bn < 140) (hind : s.ref k 12 = 0)
    (hnone : s.ref k (place bn) = 0) : 2 ≤ s.gaps k (Touches bn) := by
  apply Finset.one_lt_card.mpr
  refine ⟨12, ?_, place bn, ?_, (place_ne bn).symm⟩
  · exact Finset.mem_filter.mpr ⟨Finset.mem_range.mpr (by omega), Or.inr ⟨h12, rfl⟩, hind⟩
  · exact Finset.mem_filter.mpr
      ⟨Finset.mem_range.mpr (place_lt hbn), touches_place bn, hnone⟩

/-- A word of an indirect block that is missing is missing. -/
theorem ref_eq_zero_of_indirect {a : ℕ} (ha : 12 < a) (hind : s.ref k 12 = 0) :
    s.ref k a = 0 := by
  have h0 : (s.inode k).addrs 12 = 0 := by
    rw [← hind, ref, refAt_of_le le_rfl]
  rw [ref, refAt_of_gt ha, if_pos h0]

end Volume

namespace Filled

variable {k : Fin ninode} {wr : ℕ → Option UInt8} {T P : ℕ → Prop} [DecidablePred P]
  {s s' : Volume}

/-- Every reference that is filled in takes one free block. -/
theorem card_freeBlocks (h : Filled k wr T s s') (hs : s.Sole k)
    (hT : ∀ a < 141, T a → P a) :
    s.freeBlocks.card + s'.gaps k P = s'.freeBlocks.card + s.gaps k P := by
  set new := (Finset.range 141).filter fun a => s.ref k a = 0 ∧ s'.ref k a ≠ 0 with hnew
  have hmem : ∀ {a}, a ∈ new ↔ a < 141 ∧ s.ref k a = 0 ∧ s'.ref k a ≠ 0 := by
    intro a
    rw [hnew, Finset.mem_filter, Finset.mem_range]
  have hgaps : s.gaps k P = s'.gaps k P + new.card := by
    unfold Volume.gaps
    rw [← Finset.card_union_of_disjoint]
    · congr 1
      ext a
      rw [Finset.mem_union, Finset.mem_filter, Finset.mem_filter, Finset.mem_range, hmem]
      constructor
      · rintro ⟨ha, hP, h0⟩
        by_cases h0' : s'.ref k a = 0
        · exact Or.inl ⟨ha, hP, h0'⟩
        · exact Or.inr ⟨ha, h0, h0'⟩
      · rintro (⟨ha, hP, h0'⟩ | ⟨ha, h0, hne⟩)
        · refine ⟨ha, hP, ?_⟩
          by_contra hne
          exact h.ref_ne_zero ha hne h0'
        · exact ⟨ha, hT a ha (h.new a ha h0 hne).2, h0⟩
    · rw [Finset.disjoint_left]
      intro a ha hn
      exact (hmem.mp hn).2.2 (Finset.mem_filter.mp ha).2.2
  have hfree : s.freeBlocks.card = s'.freeBlocks.card + new.card := by
    have himage : (new.image (s'.ref k)).card = new.card := by
      apply Finset.card_image_of_injOn
      intro a ha b hb hab
      obtain ⟨ha, -, hne⟩ := hmem.mp ha
      exact h.sole.injective a ha b (hmem.mp hb).1 hne hab
    rw [← himage, ← Finset.card_union_of_disjoint]
    · congr 1
      ext b
      rw [Finset.mem_union, Finset.mem_image]
      constructor
      · intro hb
        by_cases hb' : b ∈ s'.freeBlocks
        · exact Or.inl hb'
        · rw [Volume.mem_freeBlocks] at hb
          rw [Volume.mem_freeBlocks, h.logStart_eq, not_and, Bool.not_eq_false] at hb'
          rcases (h.used b).mp (hb' hb.1) with hold | ⟨a, ha, rfl⟩
          · rw [hb.2] at hold
            cases hold
          · refine Or.inr ⟨a, hmem.mpr ⟨ha, ?_, ?_⟩, rfl⟩
            · by_contra hne
              have hused := hs.used a ha
              rw [← h.kept a ha hne, hb.2] at hused
              cases hused
            · intro h0
              rw [h0, h.zero] at hb
              cases hb.2
      · rintro (hb | ⟨a, ha, rfl⟩)
        · exact h.freeBlocks_subset hb
        · obtain ⟨ha, h0, hne⟩ := hmem.mp ha
          exact (h.new a ha h0 hne).1
    · rw [Finset.disjoint_left]
      intro b hb hi
      obtain ⟨a, ha, rfl⟩ := Finset.mem_image.mp hi
      have hfalse := (Volume.mem_freeBlocks.mp hb).2
      rw [h.sole.used a (hmem.mp ha).1] at hfalse
      cases hfalse
  omega

end Filled

/-! ## Finding a block -/

/-- How a reference is found or filled in: what remains in the log and of the free
blocks, and whether block `b` is in the log. -/
structure Reached (R : Stop → Prop) (A : Finset ℕ) (r m : ℕ) (k : Fin ninode) (a : ℕ)
    (s : Volume) (b : ℕ) (s' : Volume) : Prop where
  eq : b = s'.ref k a
  ne_zero : b ≠ 0
  ample : s'.Ample R A r m
  logged : s.ref k a = 0 → b ∈ s'.log.sector
  found : s.ref k a ≠ 0 → s' = s

section Bmap

variable {R : Stop → Prop} {A : Finset ℕ} {r m a b bn : ℕ} {k : Fin ninode} {s : Volume}

theorem Volume.used_ne {x : ℕ} (hx : s.used x = true) (hb : b ∈ s.freeBlocks) : x ≠ b := by
  rintro rfl
  rw [(mem_freeBlocks.mp hb).2] at hx
  cases hx

theorem orBalloc_of_ne {addr : ℕ} {store : ℕ → FsM Unit} (h : addr ≠ 0) :
    orBalloc addr store = pure addr :=
  if_neg h

theorem orBalloc_of_zero (store : ℕ → FsM Unit) :
    orBalloc 0 store = (balloc >>= fun addr => store addr >>= fun _ => pure addr) :=
  if_pos rfl

/-- Finding or filling in an address of the inode. -/
theorem addr_spec (hs : s.Sole k) (ha : a ≤ 12) (hfound : s.Ample R A r m)
    (hnew : s.ref k a = 0 → s.Ample R A (r + 2) (m + 1)) :
    given R (orBalloc ((s.inode k).addrs a) (storeAddr k a))
      (fun b s' => Filled k (fun _ => none) (· = a) s s' ∧ Reached R A r m k a s b s') s := by
  have href : s.ref k a = (s.inode k).addrs a := refAt_of_le ha
  by_cases h0 : (s.inode k).addrs a = 0
  · have hnone : s.ref k a = 0 := href.trans h0
    rw [h0, orBalloc_of_zero]
    apply given_seq (balloc_spec (hnew hnone))
    rintro b _ ⟨hb, rfl⟩
    apply Exec.wp_bind.mpr
    apply Exec.wp_modify.mpr
    apply Exec.wp_pure.mpr
    have hfill := Filled.linkAddr hs ha hnone hb
    have hrefb : (s.linkAddr k a b).ref k a = b := by
      rw [Volume.ref_linkAddr hs ha hnone hb, if_pos rfl]
    refine ⟨hfill, hrefb.symm, (Volume.used_ne hs.zero hb).symm, ?_, fun _ => ?_, fun hne => ?_⟩
    · exact ((hnew hnone).allocate hb).of_same rfl rfl rfl
    · exact Volume.mem_logged _ b
    · exact absurd hnone hne
  · rw [orBalloc_of_ne h0]
    apply Exec.wp_pure.mpr
    refine ⟨(Filled.refl hs).mono fun _ h => h.elim, href.symm, h0, hfound, fun hnone => ?_,
      fun _ => rfl⟩
    exact absurd (href.symm.trans hnone) h0

/-- Finding or filling in a word of the indirect block. -/
theorem word_spec (hs : s.Sole k) (hind : s.ref k 12 ≠ 0) (ha : 12 < a) (hlt : a < 141)
    (hfound : s.Ample R A r m)
    (hnew : s.ref k a = 0 → s.Ample R A (r + 2) (m + 1) ∧ s.ref k 12 ∈ s.log.sector ∨
      s.Ample R A (r + 3) (m + 1)) :
    given R (do
        let w ← Exec.gets fun t => t.block (s.ref k 12)
        orBalloc (w.word (a - 13)) fun b => do
          Exec.modify fun t => t.setBlock (s.ref k 12) (w.setWord (a - 13) b)
          logWrite (s.ref k 12))
      (fun b s' => Filled k (fun _ => none) (· = a) s s' ∧ Reached R A r m k a s b s') s := by
  have hc : s.ref k 12 = (s.inode k).addrs 12 := refAt_of_le le_rfl
  have hc0 : (s.inode k).addrs 12 ≠ 0 := hc ▸ hind
  have href : s.ref k a = (s.block (s.ref k 12)).word (a - 13) := by
    rw [hc]
    exact (refAt_of_gt ha).trans (if_neg hc0)
  apply Exec.wp_bind.mpr
  apply Exec.wp_gets.mpr
  by_cases h0 : (s.block (s.ref k 12)).word (a - 13) = 0
  · have hnone : s.ref k a = 0 := href.trans h0
    rw [h0, orBalloc_of_zero]
    have hball : s.Ample R A (r + 2) (m + 1) := by
      rcases hnew hnone with ⟨h, -⟩ | h
      · exact h
      · exact h.mono subset_rfl (by omega) le_rfl
    apply given_seq (balloc_spec hball)
    rintro b _ ⟨hb, rfl⟩
    have hafter : ((s.allocate b).setBlock (s.ref k 12)
        ((s.block (s.ref k 12)).setWord (a - 13) b)).Ample R A r m :=
      (hball.allocate hb).of_same rfl rfl rfl
    have hlogged : (s.linkWord (s.ref k 12) (a - 13) b).Ample R A r m := by
      rcases hnew hnone with ⟨-, hin⟩ | h
      · refine hafter.logged_mem (Or.inr ?_)
        exact Volume.mem_record.mpr (Or.inr (Volume.mem_record.mpr (Or.inr hin)))
      · have hmore : s.Ample R A (r + 1 + 2) (m + 1) := h
        exact Volume.Ample.logged ((hmore.allocate hb).of_same rfl rfl rfl)
    apply Exec.wp_bind.mpr
    apply Exec.wp_bind.mpr
    apply Exec.wp_modify.mpr
    apply given_mono (logWrite_spec hafter)
    rintro _ _ rfl
    apply Exec.wp_pure.mpr
    change Filled k (fun _ => none) (· = a) s (s.linkWord (s.ref k 12) (a - 13) b) ∧ _
    have hfill := Filled.linkWord hs ha hlt hc0 hnone hb
    rw [← hc] at hfill
    have hrefb : (s.linkWord (s.ref k 12) (a - 13) b).ref k a = b := by
      rw [hc, Volume.ref_linkWord hs ha hlt hc0 hb hlt, if_pos rfl]
    refine ⟨hfill, hrefb.symm, (Volume.used_ne hs.zero hb).symm, hlogged, fun _ => ?_,
      fun hne => ?_⟩
    · exact Volume.mem_record.mpr (Or.inr (Volume.mem_logged _ b))
    · exact absurd hnone hne
  · rw [orBalloc_of_ne h0]
    apply Exec.wp_pure.mpr
    refine ⟨(Filled.refl hs).mono fun _ h => h.elim, href.symm, h0, hfound, fun hnone => ?_,
      fun _ => rfl⟩
    exact absurd (href.symm.trans hnone) h0

/-- `bmap` finds the block, or fills in what is missing on the way. -/
theorem bmap_spec (hs : s.Sole k) (hbn : bn < 140)
    (hR : s.Ample R A (r + s.toll k bn) (m + s.gaps k (Touches bn))) :
    given R (bmap k bn) (fun b s' => Filled k (fun _ => none) (Touches bn) s s' ∧
      b = s'.ref k (place bn) ∧ b ≠ 0 ∧
      (s'.Ample R A (r + 1) m ∨ s'.Ample R A r m ∧ b ∈ s'.log.sector)) s := by
  have htoll : 1 ≤ s.toll k bn := by
    unfold Volume.toll
    split_ifs <;> omega
  have hfound : s.Ample R A (r + 1) m := hR.mono subset_rfl (by omega) (by omega)
  have hgap (h0 : s.ref k (place bn) = 0) : 0 < s.gaps k (Touches bn) :=
    Volume.gaps_pos (place_lt hbn) (touches_place bn) h0
  unfold bmap
  apply Exec.wp_bind.mpr
  apply Exec.wp_gets.mpr
  by_cases hdirect : bn < ndirect
  · have hplace : place bn = bn := if_pos hdirect
    rw [if_pos hdirect]
    apply given_mono (addr_spec hs (by unfold ndirect at hdirect; omega)
      (hfound.mono subset_rfl (Nat.le_succ r) le_rfl) fun h0 => ?_)
    · rintro b s' ⟨hfill, hb⟩
      refine ⟨hfill.mono fun a h => Or.inl (h.trans hplace.symm), ?_, hb.ne_zero, ?_⟩
      · rw [hplace]
        exact hb.eq
      · by_cases h0 : s.ref k bn = 0
        · exact Or.inr ⟨hb.ample, hb.logged h0⟩
        · rw [hb.found h0]
          exact Or.inl hfound
    · have h0' : s.ref k (place bn) = 0 := hplace.symm ▸ h0
      have hpos := hgap h0'
      have htwo : s.toll k bn = 2 := by
        unfold Volume.toll
        rw [if_neg (not_not.mpr h0'), if_pos hdirect]
      exact hR.mono subset_rfl (by omega) (by omega)
  · have h12 : 12 ≤ bn := not_lt.mp hdirect
    have hplace : place bn = bn + 1 := if_neg hdirect
    have hsub : bn - ndirect = place bn - 13 := by
      rw [hplace]
      unfold ndirect
      omega
    rw [if_neg hdirect, if_pos (by unfold ndirect nindirect; omega), hsub]
    by_cases hind : s.ref k 12 = 0
    · -- the indirect block is missing, and with it the word
      have h0 : s.ref k (place bn) = 0 := Volume.ref_eq_zero_of_indirect (by omega) hind
      have hpos := Volume.two_le_gaps h12 hbn hind h0
      have hfour : s.toll k bn = 4 := by
        unfold Volume.toll
        rw [if_neg (not_not.mpr h0), if_neg hdirect, if_neg (not_not.mpr hind)]
      have hball : s.Ample R A (r + 2 + 2) (m + 1 + 1) :=
        hR.mono subset_rfl (by omega) (by omega)
      apply given_seq (addr_spec hs le_rfl (hball.mono subset_rfl (by omega) (by omega))
        fun _ => hball)
      rintro c s₁ ⟨hfill, hc⟩
      have hind₁ : s₁.ref k 12 ≠ 0 := hc.eq ▸ hc.ne_zero
      have hlog : s₁.ref k 12 ∈ s₁.log.sector := hc.eq ▸ hc.logged hind
      rw [hc.eq]
      apply given_mono (word_spec hfill.sole hind₁ (by omega) (place_lt hbn)
        (hc.ample.mono subset_rfl (by omega) (by omega))
        fun _ => Or.inl ⟨hc.ample, hlog⟩)
      rintro b s' ⟨hfill', hb⟩
      refine ⟨(hfill.trans hfill').mono ?_, hb.eq, hb.ne_zero, ?_⟩
      · rintro a (ha | ha)
        · exact Or.inr ⟨h12, ha⟩
        · exact Or.inl ha
      · by_cases h0' : s₁.ref k (place bn) = 0
        · exact Or.inr ⟨hb.ample, hb.logged h0'⟩
        · rw [hb.found h0']
          exact Or.inl (hc.ample.mono subset_rfl (by omega) (by omega))
    · apply given_seq (addr_spec hs le_rfl hfound fun h => absurd h hind)
      rintro c s₁ ⟨-, hc⟩
      obtain rfl : s₁ = s := hc.found hind
      rw [hc.eq]
      apply given_mono (word_spec hs hind (by omega) (place_lt hbn)
        (hfound.mono subset_rfl (Nat.le_succ r) le_rfl) fun h0 => Or.inr ?_)
      · rintro b s' ⟨hfill', hb⟩
        refine ⟨hfill'.mono fun a ha => Or.inl ha, hb.eq, hb.ne_zero, ?_⟩
        by_cases h0 : s₁.ref k (place bn) = 0
        · exact Or.inr ⟨hb.ample, hb.logged h0⟩
        · rw [hb.found h0]
          exact Or.inl hfound
      · have hpos := hgap h0
        have hthree : s₁.toll k bn = 3 := by
          unfold Volume.toll
          rw [if_neg (not_not.mpr h0), if_neg hdirect, if_pos hind]
        exact hR.mono subset_rfl (by omega) (by omega)

/-- What `bmap` does to a file block that is there: nothing. -/
theorem bmap_present (hbn : bn < 140) (hne : s.ref k (place bn) ≠ 0) :
    bmap k bn s = (.ok (s.ref k (place bn)), s) := by
  unfold bmap
  rw [Exec.bind_run_ok (show getInode k s = (.ok (s.inode k), s) from rfl)]
  by_cases hdirect : bn < ndirect
  · have hplace : place bn = bn := if_pos hdirect
    have href : s.ref k (place bn) = (s.inode k).addrs bn := by
      rw [hplace]
      exact refAt_of_le (by unfold ndirect at hdirect; omega)
    rw [if_pos hdirect, href, orBalloc_of_ne (href ▸ hne), Exec.pure_run]
  · have hplace : place bn = bn + 1 := if_neg hdirect
    have h12 : 12 < place bn := by
      unfold ndirect at hdirect
      omega
    have hind : (s.inode k).addrs 12 ≠ 0 := by
      intro h0
      refine hne (Volume.ref_eq_zero_of_indirect h12 ?_)
      rw [Volume.ref, refAt_of_le le_rfl, h0]
    have href : s.ref k (place bn) =
        (s.block ((s.inode k).addrs 12)).word (bn - ndirect) := by
      refine (refAt_of_gt h12).trans ((if_neg hind).trans ?_)
      rw [hplace]
      rfl
    rw [if_neg hdirect, if_pos (by unfold ndirect nindirect; omega), orBalloc_of_ne hind, href,
      Exec.bind_run_ok (Exec.pure_run _ _), Exec.bind_run_ok (Exec.gets_run _ _),
      orBalloc_of_ne (href ▸ hne), Exec.pure_run]

end Bmap

/-! ## Writing -/

/-- The bytes that a write of `n` bytes at offset `off` puts into the file. -/
def span (src : Chars) (off n i : ℕ) : Option UInt8 :=
  if off ≤ i ∧ i < off + n then some (src (i - off)) else none

theorem span_of_mem {src : Chars} {off n i : ℕ} (h : off ≤ i ∧ i < off + n) :
    span src off n i = some (src (i - off)) :=
  if_pos h

theorem span_of_not {src : Chars} {off n i : ℕ} (h : ¬(off ≤ i ∧ i < off + n)) :
    span src off n i = none :=
  if_neg h

/-- A write in two parts. -/
theorem span_add (src : Chars) (off m n i : ℕ) :
    (span (fun j => src (m + j)) (off + m) n i).or (span src off m i) = span src off (m + n) i := by
  by_cases hsecond : off + m ≤ i ∧ i < off + m + n
  · have hsub : m + (i - (off + m)) = i - off := by omega
    have hwhole : off ≤ i ∧ i < off + (m + n) := by omega
    rw [span_of_mem hsecond, span_of_mem hwhole, Option.some_or, hsub]
  · rw [span_of_not hsecond, Option.none_or]
    by_cases hfirst : off ≤ i ∧ i < off + m
    · have hwhole : off ≤ i ∧ i < off + (m + n) := by omega
      rw [span_of_mem hfirst, span_of_mem hwhole]
    · have hwhole : ¬(off ≤ i ∧ i < off + (m + n)) := by omega
      rw [span_of_not hfirst, span_of_not hwhole]

theorem byte_overwrite (d : Block) (src : Chars) (start m : ℕ) {i : ℕ} (hi : i < 512) :
    (overwrite d src start m).byte i =
      if start ≤ i ∧ i < start + m then (src (i - start)).toNat else d.byte i := by
  simp only [Block.byte, overwrite, hi, dif_pos]
  split_ifs <;> rfl

namespace Volume

/-- The state after one round of the loop of `writei` has written to block `b`. -/
def store (s : Volume) (b : ℕ) (src : Chars) (start m : ℕ) : Volume :=
  (s.setBlock b (overwrite (s.block b) src start m)).logged b

theorem block_store (s : Volume) (b : ℕ) (src : Chars) (start m : ℕ) :
    (s.store b src start m).block b = overwrite (s.block b) src start m :=
  Function.update_self _ _ _

theorem block_store_of_ne {s : Volume} {b c : ℕ} {src : Chars} {start m : ℕ} (h : c ≠ b) :
    (s.store b src start m).block c = s.block c :=
  Function.update_of_ne h _ _

/-- A write to a block of the file leaves the references. -/
theorem ref_store {s : Volume} {k : Fin ninode} {bn : ℕ} (hs : s.Sole k) (hbn : bn < 140)
    (src : Chars) (start m a : ℕ) :
    (s.store (s.ref k (place bn)) src start m).ref k a = s.ref k a := by
  apply refAt_congr
  intro hind
  apply block_store_of_ne
  have hc : s.ref k 12 = (s.inode k).addrs 12 := refAt_of_le le_rfl
  change (s.inode k).addrs 12 ≠ 0 at hind
  change (s.inode k).addrs 12 ≠ _
  rw [← hc] at hind ⊢
  intro heq
  exact place_ne bn (hs.injective 12 (by omega) _ (place_lt hbn) hind heq).symm

end Volume

theorem Filled.store {k : Fin ninode} {s : Volume} {bn start m : ℕ} (hs : s.Sole k)
    (hbn : bn < 140) (hne : s.ref k (place bn) ≠ 0) (hm : start + m ≤ 512) (src : Chars) :
    Filled k (span src (512 * bn + start) m) (fun _ => False) s
      (s.store (s.ref k (place bn)) src start m) := by
  have href := Volume.ref_store hs hbn src start m
  refine {
    same := ?_
    sole := ⟨?_, ?_, hs.zero, hs.size⟩
    zero := hs.zero
    beyond := fun _ _ => rfl
    kept := fun a _ _ => href a
    new := ?_, used := ?_, bytes := ?_, present := ?_, frame := ?_ }
  · simp [Volume.store, Volume.logged, Volume.setSectors, Volume.setBlock]
  · intro a ha b hb h0 hab
    rw [href] at h0
    rw [href, href] at hab
    exact hs.injective a ha b hb h0 hab
  · intro a ha
    rw [href]
    exact hs.used a ha
  · intro a ha h0 h
    rw [href] at h
    exact absurd h0 h
  · intro b
    change s.used b = true ↔ _
    refine ⟨Or.inl, ?_⟩
    rintro (h | ⟨a, ha, rfl⟩)
    · exact h
    · rw [href]
      exact hs.used a ha
  · intro off hoff h
    have h0 := h
    rw [href] at h0
    rw [Volume.byte_of_present h, Volume.byte_of_present h0, href]
    by_cases hblock : off / 512 = bn
    · rw [hblock, Volume.block_store, byte_overwrite _ _ _ _ (by omega)]
      by_cases hin : start ≤ off % 512 ∧ off % 512 < start + m
      · have hsub : off % 512 - start = off - (512 * bn + start) := by omega
        rw [if_pos hin, span_of_mem (by omega), Option.getD_some, UInt8.ofNat_toNat, hsub]
      · rw [if_neg hin, span_of_not (by omega), Option.getD_none]
    · have hne' : s.ref k (place (off / 512)) ≠ s.ref k (place bn) := by
        intro heq
        exact hblock (place_injective
          (hs.injective _ (place_lt (by omega)) _ (place_lt hbn) h0 heq))
      rw [Volume.block_store_of_ne hne', span_of_not (by omega), Option.getD_none]
  · intro off hsome
    by_cases hin : 512 * bn + start ≤ off ∧ off < 512 * bn + start + m
    · have hblock : off / 512 = bn := by omega
      rw [href, hblock]
      exact ⟨by omega, hne⟩
    · rw [span_of_not hin] at hsome
      cases hsome
  · intro b _ hnot
    exact Volume.block_store_of_ne (hnot _ (place_lt hbn)).symm

theorem span_zero (src : Chars) (off : ℕ) : span src off 0 = fun _ => none :=
  funext fun _ => span_of_not (by omega)

/-- The places of the references that a transfer of `n` bytes at offset `off` goes
through. -/
def Reaches (off n a : ℕ) : Prop :=
  ∃ bn < 140, max off (512 * bn) < min (off + n) (512 * bn + 512) ∧ Touches bn a

instance (off n : ℕ) : DecidablePred (Reaches off n) := fun a =>
  inferInstanceAs (Decidable (∃ bn < 140, max off (512 * bn) < min (off + n) (512 * bn + 512) ∧
    Touches bn a))

theorem Reaches.of_touches {off n a : ℕ} (hn : 0 < n) (hbn : off / 512 < 140)
    (h : Touches (off / 512) a) : Reaches off n a :=
  ⟨off / 512, hbn, by omega, h⟩

theorem Reaches.mono {off n off' n' a : ℕ} (h : Reaches off' n' a) (hoff : off ≤ off')
    (hend : off' + n' ≤ off + n) : Reaches off n a := by
  obtain ⟨bn, hbn, hlt, ht⟩ := h
  exact ⟨bn, hbn, by omega, ht⟩

/-- What a list of rounds records in the log, at most. -/
def Volume.tolls (s : Volume) (k : Fin ninode) (ps : List Piece) : ℕ :=
  (ps.map fun p => s.toll k p.bn).sum

theorem Volume.toll_pos (s : Volume) (k : Fin ninode) (bn : ℕ) : 1 ≤ s.toll k bn := by
  unfold toll
  split_ifs <;> omega

namespace Filled

variable {k : Fin ninode} {wr : ℕ → Option UInt8} {T : ℕ → Prop} {s s' : Volume}

/-- A file that has been filled in costs no more than before. -/
theorem toll_le (h : Filled k wr T s s') {bn : ℕ} (hbn : bn < 140) :
    s'.toll k bn ≤ s.toll k bn := by
  by_cases hne : s.ref k (place bn) = 0
  · unfold Volume.toll
    rw [if_neg (not_not.mpr hne)]
    by_cases hind : s.ref k 12 = 0
    · split_ifs <;> omega
    · have hind' := h.ref_ne_zero (by omega) hind
      split_ifs <;> omega
  · have hone : s'.toll k bn = 1 := if_pos (h.ref_ne_zero (place_lt hbn) hne)
    have := s.toll_pos k bn
    omega

theorem tolls_le (h : Filled k wr T s s') {ps : List Piece} (hps : ∀ p ∈ ps, p.bn < 140) :
    s'.tolls k ps ≤ s.tolls k ps := by
  apply List.sum_le_sum
  intro p hp
  exact h.toll_le (hps p hp)

/-- The rounds after the first one. -/
theorem next {src : Chars} {off n left tot : ℕ} {s₁ : Volume}
    (h : Filled k (span (fun i => src (tot + i)) (512 * (off / 512) + off % 512) n)
      (Touches (off / 512)) s s₁)
    (h' : Filled k (span (fun i => src (tot + n + i)) (off + n) (left - n))
      (Reaches (off + n) (left - n)) s₁ s')
    (hleft : 0 < left) (hn : n ≤ left) (hbn : off / 512 < 140) :
    Filled k (span (fun i => src (tot + i)) off left) (Reaches off left) s s' := by
  have hplaces : ∀ a, Touches (off / 512) a ∨ Reaches (off + n) (left - n) a →
      Reaches off left a := by
    rintro a (ha | ha)
    · exact Reaches.of_touches hleft hbn ha
    · exact ha.mono (by omega) (by omega)
  have hoff : 512 * (off / 512) + off % 512 = off := Nat.div_add_mod off 512
  have hspan : ∀ i, (span (fun j => src (tot + n + j)) (off + n) (left - n) i).or
      (span (fun j => src (tot + j)) off n i) = span (fun j => src (tot + j)) off left i := by
    intro i
    have hadd := span_add (fun j => src (tot + j)) off n (left - n) i
    rw [show n + (left - n) = left by omega] at hadd
    simpa only [Nat.add_assoc] using hadd
  have hboth := (h.trans h').mono hplaces
  simp only [hoff, hspan] at hboth
  exact hboth

end Filled

theorem bn_lt_of_mem {rounds off tot left : ℕ} {p : Piece} (hend : off + left ≤ 71680)
    (hp : p ∈ piecesFrom rounds off tot left) : p.bn < 140 := by
  induction rounds generalizing off tot left with
  | zero => cases hp
  | succ rounds ih =>
      unfold piecesFrom at hp
      split at hp
      · cases hp
      · rcases List.mem_cons.mp hp with rfl | hp
        · change off / 512 < 140
          omega
        · exact ih (by omega) hp

section Writing

variable {R : Stop → Prop} {A : Finset ℕ} {k : Fin ninode} {s : Volume}

/-- One round of the loop of `writei`. -/
theorem writePiece_spec {r m bn start n : ℕ} (hs : s.Sole k) (hbn : bn < 140)
    (hn : start + n ≤ 512) (src : Chars)
    (hR : s.Ample R A (r + s.toll k bn) (m + s.gaps k (Touches bn))) :
    given R (do
        let b ← bmap k bn
        Exec.modify fun s => s.setBlock b (overwrite (s.block b) src start n)
        logWrite b)
      (fun _ s' => Filled k (span src (512 * bn + start) n) (Touches bn) s s' ∧
        s'.Ample R A r m) s := by
  apply given_seq (bmap_spec hs hbn hR)
  rintro b s₁ ⟨hfill, hb, hne, hample⟩
  subst hb
  apply Exec.wp_bind.mpr
  apply Exec.wp_modify.mpr
  have hroom : s₁.Ample R A r m := by
    rcases hample with h | ⟨h, -⟩
    · exact h.mono subset_rfl (Nat.le_succ r) le_rfl
    · exact h
  have hstore : (s₁.setBlock (s₁.ref k (place bn))
      (overwrite (s₁.block (s₁.ref k (place bn))) src start n)).Ample R A r m :=
    hroom.of_same rfl rfl rfl
  apply given_mono (logWrite_spec hstore)
  rintro _ _ rfl
  constructor
  · have hwrite := hfill.trans (Filled.store hfill.sole hbn hne hn src)
    simp only [Option.or_none] at hwrite
    exact hwrite.mono fun a ha => ha.resolve_right id
  · rcases hample with h | ⟨h, hin⟩
    · exact Volume.Ample.logged (h.of_same rfl rfl rfl)
    · exact Volume.Ample.logged_mem (h.of_same rfl rfl rfl) (Or.inr hin)

theorem writePieces_cons (k : Fin ninode) (src : Chars) (p : Piece) (ps : List Piece) :
    writePieces k src (p :: ps) =
      ((do
        let b ← bmap k p.bn
        Exec.modify fun s =>
          s.setBlock b (overwrite (s.block b) (fun i => src (p.tot + i)) p.start p.m)
        logWrite b) >>= fun _ => writePieces k src ps) := by
  simp only [Exec.bind_assoc]
  rfl

/-- The loop of `writei`. -/
theorem writePieces_spec {r m rounds off tot left : ℕ} (hs : s.Sole k)
    (hend : off + left ≤ 71680) (hrounds : left ≤ rounds) (src : Chars)
    (hR : s.Ample R A (r + s.tolls k (piecesFrom rounds off tot left))
      (m + s.gaps k (Reaches off left))) :
    given R (writePieces k src (piecesFrom rounds off tot left))
      (fun _ s' => Filled k (span (fun i => src (tot + i)) off left) (Reaches off left) s s' ∧
        s'.Ample R A r m) s := by
  induction rounds generalizing off tot left s with
  | zero =>
      obtain rfl : left = 0 := by omega
      rw [piecesFrom, span_zero]
      apply Exec.wp_pure.mpr
      exact ⟨(Filled.refl hs).mono fun _ h => h.elim, hR.mono subset_rfl (by omega) (by omega)⟩
  | succ rounds ih =>
      by_cases hleft : left = 0
      · subst hleft
        rw [piecesFrom, if_pos rfl, span_zero]
        apply Exec.wp_pure.mpr
        exact ⟨(Filled.refl hs).mono fun _ h => h.elim, hR.mono subset_rfl (by omega) (by omega)⟩
      · have hbn : off / 512 < 140 := by omega
        have hreach : ∀ a < 141, Touches (off / 512) a → Reaches off left a :=
          fun a _ h => Reaches.of_touches (by omega) hbn h
        have hgaps := Volume.gaps_mono (s := s) (k := k) hreach
        obtain ⟨n, hn⟩ : ∃ n, n = min left (bsize - off % bsize) := ⟨_, rfl⟩
        have hlt : off % 512 < 512 := Nat.mod_lt _ (by omega)
        have hpos : 0 < n ∧ n ≤ left ∧ off % 512 + n ≤ 512 := by
          unfold bsize at hn
          omega
        have hsplit : piecesFrom (rounds + 1) off tot left =
            ⟨off / bsize, off % bsize, tot, n⟩ ::
              piecesFrom rounds (off + n) (tot + n) (left - n) := by
          rw [piecesFrom, if_neg hleft, hn]
        rw [hsplit] at hR ⊢
        set ps := piecesFrom rounds (off + n) (tot + n) (left - n) with hps
        have hpieces : ∀ p ∈ ps, p.bn < 140 := fun p hp => bn_lt_of_mem (by omega) hp
        have hcost : s.tolls k (⟨off / bsize, off % bsize, tot, n⟩ :: ps) =
            s.toll k (off / 512) + s.tolls k ps := by
          simp [Volume.tolls]
        rw [hcost] at hR
        rw [writePieces_cons]
        have hround := writePiece_spec (r := r + s.tolls k ps) (m := 0) hs hbn hpos.2.2
          (fun i => src (tot + i)) (hR.mono subset_rfl (by omega) (by omega))
        apply given_seq hround
        rintro _ s₁ ⟨hfill, hample⟩
        have hcard := hfill.card_freeBlocks hs hreach
        have hless : s₁.gaps k (Reaches (off + n) (left - n)) ≤ s₁.gaps k (Reaches off left) :=
          Volume.gaps_mono fun a _ h => h.mono (by omega) (by omega)
        have htolls := hfill.tolls_le hpieces
        have hample₁ : s₁.Ample R A (r + s₁.tolls k ps)
            (m + s₁.gaps k (Reaches (off + n) (left - n))) := by
          refine ⟨hample.busy, fun hr => (hample.room hr).mono subset_rfl (by omega), ?_⟩
          have hfree := hR.free
          omega
        apply given_mono (ih hfill.sole (by omega) (by omega) hample₁)
        rintro _ s' ⟨hfill', hample'⟩
        exact ⟨hfill.next hfill' (by omega) hpos.2.1 hbn, hample'⟩

/-- The state after `ip->size = n; iupdate(ip)`. -/
def Volume.resize (s : Volume) (k : Fin ninode) (n : ℕ) : Volume :=
  ((s.setInode k { s.inode k with size := n }).setDinode (s.inode k).inum
    { (s.inode k).toDinode with size := n }).logged (iblock (s.inode k).inum)

/-- What a call of `writei` that writes `n` bytes at offset `off` does. -/
def Wrote (k : Fin ninode) (src : Chars) (off n : ℕ) (s s' : Volume) : Prop :=
  ∃ s₁, Filled k (span src off n) (Reaches off n) s s₁ ∧
    s' = if 0 < n ∧ (s.inode k).size < off + n then s₁.resize k (off + n) else s₁

theorem iupdate_resize {r m n : ℕ} (hR : s.Ample R A (r + 1) m) :
    given R (do
        modifyInode k fun ip => { ip with size := n }
        iupdate k) (fun _ s' => s' = s.resize k n ∧ s'.Ample R A r m) s := by
  unfold iupdate
  apply Exec.wp_bind.mpr
  apply Exec.wp_modify.mpr
  apply Exec.wp_bind.mpr
  apply Exec.wp_gets.mpr
  apply Exec.wp_bind.mpr
  apply Exec.wp_modify.mpr
  have hinode : (s.setInode k { s.inode k with size := n }).inode k =
      { s.inode k with size := n } := Function.update_self _ _ _
  simp only [hinode]
  have hset : ((s.setInode k { s.inode k with size := n }).setDinode (s.inode k).inum
      { (s.inode k).toDinode with size := n }).Ample R A (r + 1) m := hR.of_same rfl rfl rfl
  apply given_mono (logWrite_spec hset)
  rintro _ _ rfl
  exact ⟨rfl, hset.logged⟩

/-- A call of `writei` that its checks let through. -/
theorem writei_spec {r m off n : ℕ} (hs : s.Sole k) (htype : (s.inode k).type ≠ tDev)
    (hfit : WriteFits (s.inode k).size off n) (hend : off + n ≤ 71680) (src : Chars)
    (hR : s.Ample R A (r + s.tolls k (pieces off n) + 1) (m + s.gaps k (Reaches off n))) :
    given R (writei k src off n)
      (fun res s' => res = some n ∧ Wrote k src off n s s' ∧ s'.Ample R A r m) s := by
  unfold writei
  apply Exec.wp_bind.mpr
  apply Exec.wp_gets.mpr
  rw [if_neg htype, if_pos hfit]
  have hloop : s.Ample R A (r + 1 + s.tolls k (piecesFrom n off 0 n))
      (m + s.gaps k (Reaches off n)) := by
    refine hR.mono subset_rfl ?_ le_rfl
    change r + 1 + s.tolls k (pieces off n) ≤ _
    omega
  apply given_seq (writePieces_spec hs hend le_rfl src hloop)
  rintro _ s₁ ⟨hfill, hample⟩
  simp only [Nat.zero_add] at hfill
  have hsize : (s₁.inode k).size = (s.inode k).size := by
    rw [hfill.inode_self]
  apply Exec.wp_bind.mpr
  apply Exec.wp_gets.mpr
  rw [hsize]
  by_cases hgrow : 0 < n ∧ (s.inode k).size < off + n
  · rw [if_pos hgrow]
    apply given_seq (iupdate_resize hample)
    rintro _ _ ⟨rfl, hample'⟩
    exact Exec.wp_pure.mpr ⟨rfl, ⟨s₁, hfill, (if_pos hgrow).symm⟩, hample'⟩
  · rw [if_neg hgrow]
    exact Exec.wp_pure.mpr ⟨rfl, ⟨s₁, hfill, (if_neg hgrow).symm⟩,
      hample.mono subset_rfl (Nat.le_succ r) le_rfl⟩

/-- A call of `writei` that its checks refuse. -/
theorem writei_refuses {off n : ℕ} {src : Chars} (htype : (s.inode k).type ≠ tDev)
    (hfit : ¬WriteFits (s.inode k).size off n) : writei k src off n s = (.ok none, s) := by
  unfold writei
  rw [Exec.bind_run_ok (show getInode k s = (.ok (s.inode k), s) from rfl), if_neg htype,
    if_neg hfit, Exec.pure_run]

end Writing

/-! ## Reading -/

/-- All blocks of the file are there. -/
structure Volume.Full (s : Volume) (k : Fin ninode) : Prop where
  size_le : (s.inode k).size ≤ 71680
  present : ∀ bn < 140, 512 * bn < (s.inode k).size → s.ref k (place bn) ≠ 0

/-- The bytes of a file in a range. -/
def Volume.bytes (s : Volume) (k : Fin ninode) (off n : ℕ) : List UInt8 :=
  (List.range n).map fun i => s.byte k (off + i)

section Reading

variable {k : Fin ninode} {s : Volume}

theorem Volume.bytes_add (s : Volume) (k : Fin ninode) (off m n : ℕ) :
    s.bytes k off (m + n) = s.bytes k off m ++ s.bytes k (off + m) n := by
  unfold bytes
  rw [List.range_add, List.map_append, List.map_map]
  simp only [Function.comp_def, Nat.add_assoc]

theorem blockBytes_eq {bn start m : ℕ} (hne : s.ref k (place bn) ≠ 0) (hm : start + m ≤ 512) :
    blockBytes (s.block (s.ref k (place bn))) start m = s.bytes k (512 * bn + start) m := by
  apply List.map_congr_left
  intro i hi
  have hlt := List.mem_range.mp hi
  have hdiv : (512 * bn + start + i) / 512 = bn := by omega
  have hmod : (512 * bn + start + i) % 512 = start + i := by omega
  rw [Volume.byte_of_present (by rw [hdiv]; exact hne), hdiv, hmod]

/-- The loop of `readi` over blocks that are all there. -/
theorem readPieces_spec {rounds off tot left : ℕ} (hfull : s.Full k)
    (hend : off + left ≤ (s.inode k).size) (hrounds : left ≤ rounds) :
    readPieces k (piecesFrom rounds off tot left) s = (.ok (s.bytes k off left), s) := by
  have hmax := hfull.size_le
  induction rounds generalizing off tot left with
  | zero =>
      obtain rfl : left = 0 := by omega
      rfl
  | succ rounds ih =>
      by_cases hleft : left = 0
      · subst hleft
        rw [piecesFrom, if_pos rfl]
        rfl
      · obtain ⟨n, hn⟩ : ∃ n, n = min left (bsize - off % bsize) := ⟨_, rfl⟩
        have hlt : off % 512 < 512 := Nat.mod_lt _ (by omega)
        have hpos : 0 < n ∧ n ≤ left ∧ off % 512 + n ≤ 512 := by
          unfold bsize at hn
          omega
        have hbn : off / 512 < 140 := by omega
        have hpresent := hfull.present (off / 512) hbn (by omega)
        have hoff : 512 * (off / 512) + off % 512 = off := Nat.div_add_mod off 512
        have hsplit : piecesFrom (rounds + 1) off tot left =
            ⟨off / bsize, off % bsize, tot, n⟩ ::
              piecesFrom rounds (off + n) (tot + n) (left - n) := by
          rw [piecesFrom, if_neg hleft, hn]
        have hbytes : s.bytes k off left = blockBytes (s.block (s.ref k (place (off / 512))))
            (off % 512) n ++ s.bytes k (off + n) (left - n) := by
          rw [blockBytes_eq hpresent hpos.2.2, hoff, ← Volume.bytes_add]
          congr 1
          omega
        rw [hsplit, readPieces, Exec.bind_run_ok (bmap_present hbn hpresent),
          Exec.bind_run_ok (Exec.gets_run _ _),
          Exec.bind_run_ok (ih (by omega) (by omega)), Exec.pure_run, hbytes]

/-- `readi` of a file whose blocks are all there. -/
theorem readi_spec {off n : ℕ} (hfull : s.Full k) (htype : (s.inode k).type ≠ tDev)
    (hoff : off < 4294967296) (hn : n < 4294967296) :
    readi k off n s =
      (.ok ((readCount (s.inode k).size off n).map (s.bytes k off)), s) := by
  unfold readi
  rw [Exec.bind_run_ok (show getInode k s = (.ok (s.inode k), s) from rfl), if_neg htype]
  cases hr : readCount (s.inode k).size off n with
  | none => rfl
  | some r =>
      obtain ⟨hle, hwrap, heq⟩ := readCount_eq_some_iff.mp hr
      have hend : off + r ≤ (s.inode k).size := by
        unfold wrap32 at hwrap heq
        split at heq <;> omega
      simp only
      rw [pieces, Exec.bind_run_ok (readPieces_spec hfull hend le_rfl)]
      rfl

end Reading

end Xv6.Fs
