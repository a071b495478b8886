import Mathlib.Data.List.Infix
import Xv6.Fs.Recorded
import Xv6.Sys.Call

/-!
# The log has room for a chunk

`filewrite` puts at most three blocks' worth of bytes into one transaction.  At the end of a
file they touch at most four blocks and the indirect block, and at most four blocks are
allocated.  With the block of the inode and three blocks of the bitmap this fits into the log.
Only four blocks allocated under four different blocks of the bitmap are too many.
-/

namespace Xv6.Fs

open Support

namespace Plan

variable {ninodes : ℕ} {p : Plan} {a bn : ℕ} {xs : List Piece}

/-- One if a reference is missing. -/
def gap (p : Plan) (a : ℕ) : ℕ :=
  if p.ref a = 0 then 1 else 0

/-- The references that are missing for some rounds of `writei`, that of the indirect block
included if they go through it. -/
def missing (p : Plan) (xs : List Piece) : ℕ :=
  xs.countP (fun x => p.ref (place x.bn) = 0) + if ∃ x ∈ xs, 12 ≤ x.bn then p.gap 12 else 0

/-- A part of a write turns plan `p` into `q`: it takes the blocks `taken` off the free
ones and keeps the references that are there. -/
structure Grows (p q : Plan) (taken : List ℕ) : Prop where
  free : p.free = taken ++ q.free
  kept : ∀ a, p.ref a ≠ 0 → q.ref a = p.ref a

theorem Grows.refl (p : Plan) : p.Grows p [] :=
  ⟨rfl, fun _ _ => rfl⟩

theorem Grows.trans {q r : Plan} {l l' : List ℕ} (h : p.Grows q l) (h' : q.Grows r l') :
    p.Grows r (l ++ l') := by
  refine ⟨by rw [h.free, h'.free, List.append_assoc], fun a ha => ?_⟩
  have hq := h.kept a ha
  rw [h'.kept a (hq ▸ ha), hq]

theorem Grows.notMem {q : Plan} {l : List ℕ} (h : p.Grows q l) (h0 : 0 ∉ p.free) :
    0 ∉ q.free := by
  rw [h.free, List.mem_append, not_or] at h0
  exact h0.2

theorem Grows.gap_le {q : Plan} {l : List ℕ} (h : p.Grows q l) (a : ℕ) : q.gap a ≤ p.gap a := by
  unfold gap
  by_cases ha : p.ref a = 0
  · rw [if_pos ha]
    split <;> omega
  · rw [h.kept a ha]

theorem Grows.find (ninodes : ℕ) (h0 : 0 ∉ p.free) (hfree : p.gap a ≤ p.free.length) :
    ∃ l, p.Grows (p.find a) l ∧ l.length = p.gap a ∧ (p.find a).ref a ≠ 0 ∧
      ∀ extra, ∀ b ∈ p.finds ninodes a extra,
        (∃ c ∈ l, b = bblock c ninodes) ∨ b = (p.find a).ref a ∨ b ∈ extra := by
  unfold gap at hfree ⊢
  by_cases ha : p.ref a = 0
  · rw [if_pos ha] at hfree ⊢
    obtain ⟨c, rest, hc⟩ := List.exists_cons_of_length_pos hfree
    have hnext : p.next = c := by rw [next, hc, List.headD_cons]
    have hself : (p.find a).ref a = c := by
      rw [Plan.find_of_zero ha, hnext]
      exact Function.update_self _ _ _
    refine ⟨[c], ⟨?_, fun a' ha' => ?_⟩, rfl, ?_, fun extra b hb => ?_⟩
    · rw [Plan.find_of_zero ha, hc]
      rfl
    · rw [Plan.find_of_zero ha]
      refine Function.update_of_ne ?_ _ _
      rintro rfl
      exact ha' ha
    · rw [hself]
      rintro rfl
      exact h0 (hc ▸ List.mem_cons_self)
    · rw [finds, if_pos ha, hnext] at hb
      rw [hself]
      simpa using hb
  · rw [if_neg ha]
    rw [Plan.find_of_ne ha]
    refine ⟨[], Grows.refl p, rfl, ha, fun extra b hb => ?_⟩
    rw [finds, if_neg ha] at hb
    cases hb

/-- The blocks recorded by a round are blocks of the bitmap, the indirect block and the block
of the file. -/
theorem Grows.bmap (ninodes : ℕ) (h0 : 0 ∉ p.free)
    (hfree : p.gap (place bn) + (if 12 ≤ bn then p.gap 12 else 0) ≤ p.free.length) :
    ∃ l, p.Grows (p.bmap bn) l ∧
      l.length ≤ p.gap (place bn) + (if 12 ≤ bn then p.gap 12 else 0) ∧
      (12 ≤ bn → (p.bmap bn).gap 12 = 0) ∧ (p.bmap bn).ref (place bn) ≠ 0 ∧
      ∀ b ∈ p.bmaps ninodes bn, (∃ c ∈ l, b = bblock c ninodes) ∨
        ((p.bmap bn).ref 12 ≠ 0 ∧ b = (p.bmap bn).ref 12) ∨
        b = (p.bmap bn).ref (place bn) := by
  unfold Plan.bmap bmaps
  by_cases hdirect : bn < ndirect
  · have hplace : place bn = bn := if_pos hdirect
    have h12 : ¬12 ≤ bn := not_le.mpr hdirect
    rw [hplace, if_neg h12] at hfree
    rw [hplace, if_pos hdirect, if_pos hdirect, if_neg h12]
    obtain ⟨l, hgrows, hlen, hne, hmem⟩ := Grows.find ninodes h0
      (show p.gap bn ≤ p.free.length by omega)
    refine ⟨l, hgrows, hlen.le, fun h => absurd h h12, hne, fun b hb => ?_⟩
    · rcases hmem [] b hb with h | h | h
      · exact Or.inl h
      · exact Or.inr (Or.inr h)
      · cases h
  · have h12 : 12 ≤ bn := not_lt.mp hdirect
    rw [if_pos h12] at hfree
    rw [if_neg hdirect, if_neg hdirect, if_pos h12]
    obtain ⟨l, hgrows, hlen, hne, hmem⟩ := Grows.find ninodes h0
      (show p.gap 12 ≤ p.free.length by omega)
    have hfree' := congrArg List.length hgrows.free
    rw [List.length_append] at hfree'
    have hgap := hgrows.gap_le (place bn)
    obtain ⟨l', hgrows', hlen', hne', hmem'⟩ := Grows.find ninodes
      (hgrows.notMem h0) (show (p.find 12).gap (place bn) ≤ (p.find 12).free.length by omega)
    have hkept := hgrows'.kept 12 hne
    refine ⟨l ++ l', hgrows.trans hgrows', ?_, fun _ => if_neg (hkept ▸ hne), hne',
      fun b hb => ?_⟩
    · rw [List.length_append]
      omega
    · simp only [List.mem_append, or_and_right, exists_or]
      rw [hkept]
      rcases List.mem_append.mp hb with hb | hb
      · rcases hmem [] b hb with h | h | h
        · exact Or.inl (Or.inl h)
        · exact Or.inr (Or.inl ⟨hne, h⟩)
        · cases h
      · rcases hmem' _ b hb with h | h | h
        · exact Or.inl (Or.inr h)
        · exact Or.inr (Or.inr h)
        · exact Or.inr (Or.inl ⟨hne, List.mem_singleton.mp h⟩)

theorem missing_cons (p : Plan) (x : Piece) (xs : List Piece) :
    p.missing (x :: xs) = p.gap (place x.bn) + xs.countP (fun x => p.ref (place x.bn) = 0) +
      if 12 ≤ x.bn ∨ ∃ x ∈ xs, 12 ≤ x.bn then p.gap 12 else 0 := by
  unfold missing
  rw [List.countP_cons]
  simp only [decide_eq_true_eq, List.exists_mem_cons_iff, gap]
  omega

theorem missing_cons_ge {x : Piece} :
    p.gap (place x.bn) + (if 12 ≤ x.bn then p.gap 12 else 0) ≤ p.missing (x :: xs) := by
  rw [missing_cons]
  by_cases h12 : 12 ≤ x.bn
  · rw [if_pos h12, if_pos (Or.inl h12)]
    omega
  · rw [if_neg h12]
    omega

/-- What a round takes is no longer missing afterwards. -/
theorem Grows.missing_le {q : Plan} {x : Piece} {l : List ℕ} (h : p.Grows q l)
    (hlen : l.length ≤ p.gap (place x.bn) + (if 12 ≤ x.bn then p.gap 12 else 0))
    (hzero : 12 ≤ x.bn → q.gap 12 = 0) (xs : List Piece) :
    l.length + q.missing xs ≤ p.missing (x :: xs) := by
  have hcount : xs.countP (fun y => q.ref (place y.bn) = 0) ≤
      xs.countP (fun y => p.ref (place y.bn) = 0) := by
    apply List.countP_mono_left
    intro y _ hy
    rw [decide_eq_true_eq] at hy ⊢
    by_contra hp
    exact hp ((h.kept _ hp).symm.trans hy)
  have hgap := h.gap_le 12
  rw [missing_cons]
  unfold missing
  by_cases h12 : 12 ≤ x.bn
  · rw [if_pos h12] at hlen
    rw [if_pos (Or.inl h12), hzero h12, ite_self]
    omega
  · rw [if_neg h12] at hlen
    simp only [h12, false_or]
    split <;> omega

/-- The blocks recorded by some rounds are blocks of the bitmap, the indirect block and the
blocks of the file. -/
theorem Grows.write (ninodes : ℕ) (h0 : 0 ∉ p.free) (hfree : p.missing xs ≤ p.free.length) :
    ∃ l, p.Grows (p.write xs) l ∧ l.length ≤ p.missing xs ∧
      ∀ b ∈ p.writes ninodes xs, (∃ c ∈ l, b = bblock c ninodes) ∨
        b = (p.write xs).ref 12 ∨ ∃ x ∈ xs, b = (p.write xs).ref (place x.bn) := by
  induction xs generalizing p with
  | nil => exact ⟨[], Grows.refl p, Nat.zero_le _, fun b hb => by cases hb⟩
  | cons x xs ih =>
      obtain ⟨l, hgrows, hlen, hzero, hne, hmem⟩ := Grows.bmap ninodes h0
        (p.missing_cons_ge.trans hfree)
      have hlength := congrArg List.length hgrows.free
      rw [List.length_append] at hlength
      have hrest := hgrows.missing_le hlen hzero xs
      obtain ⟨l', hgrows', hlen', hmem'⟩ := ih (hgrows.notMem h0)
        (show (p.bmap x.bn).missing xs ≤ (p.bmap x.bn).free.length by omega)
      refine ⟨l ++ l', hgrows.trans hgrows', by rw [List.length_append]; omega, fun b hb => ?_⟩
      simp only [List.mem_append, or_and_right, exists_or]
      change _ ∨ b = ((p.bmap x.bn).write xs).ref 12 ∨
        ∃ y ∈ x :: xs, b = ((p.bmap x.bn).write xs).ref (place y.bn)
      have hdata : ((p.bmap x.bn).write xs).ref (place x.bn) = (p.bmap x.bn).ref (place x.bn) :=
        hgrows'.kept _ hne
      rcases List.mem_append.mp hb with hb | hb
      · have hround : (∃ c ∈ l, b = bblock c ninodes) ∨
            ((p.bmap x.bn).ref 12 ≠ 0 ∧ b = (p.bmap x.bn).ref 12) ∨
            b = (p.bmap x.bn).ref (place x.bn) := by
          rcases List.mem_append.mp hb with hb | hb
          · exact hmem b hb
          · exact Or.inr (Or.inr (List.mem_singleton.mp hb))
        rcases hround with h | ⟨hind, h⟩ | h
        · exact Or.inl (Or.inl h)
        · exact Or.inr (Or.inl (h.trans (hgrows'.kept 12 hind).symm))
        · exact Or.inr (Or.inr ⟨x, List.mem_cons_self, h.trans hdata.symm⟩)
      · rcases hmem' b hb with h | h | ⟨y, hy, h⟩
        · exact Or.inl (Or.inr h)
        · exact Or.inr (Or.inl h)
        · exact Or.inr (Or.inr ⟨y, List.mem_cons_of_mem x hy, h⟩)

end Plan

section Pieces

variable {rounds off tot left n : ℕ}

/-- A round writes into a block that the range meets. -/
theorem meets_of_mem {x : Piece} (hx : x ∈ piecesFrom rounds off tot left) :
    max off (512 * x.bn) < min (off + left) (512 * x.bn + 512) := by
  induction rounds generalizing off tot left with
  | zero => cases hx
  | succ rounds ih =>
      unfold piecesFrom at hx
      split at hx
      · cases hx
      · rcases List.mem_cons.mp hx with rfl | hx
        · change max off (512 * (off / 512)) < min (off + left) (512 * (off / 512) + 512)
          omega
        · have hmeets := ih hx
          unfold bsize at hmeets
          omega

theorem nodup_bn (rounds off tot left : ℕ) :
    ((piecesFrom rounds off tot left).map Piece.bn).Nodup := by
  induction rounds generalizing off tot left with
  | zero => exact List.nodup_nil
  | succ rounds ih =>
      unfold piecesFrom
      split
      · exact List.nodup_nil
      · rw [List.map_cons, List.nodup_cons]
        refine ⟨fun hmem => ?_, ih _ _ _⟩
        obtain ⟨x, hx, hbn⟩ := List.mem_map.mp hmem
        have hmeets := meets_of_mem hx
        by_cases hlast : left ≤ 512 - off % 512
        · rw [show left - min left (bsize - off % bsize) = 0 by unfold bsize; omega] at hx
          cases rounds with
          | zero => cases hx
          | succ rounds =>
              rw [piecesFrom, if_pos rfl] at hx
              cases hx
        · change x.bn = off / 512 at hbn
          unfold bsize at hmeets
          omega

theorem length_piecesFrom (rounds off tot left : ℕ) :
    512 * (piecesFrom rounds off tot left).length ≤ off % 512 + left + 511 := by
  induction rounds generalizing off tot left with
  | zero => exact Nat.zero_le _
  | succ rounds ih =>
      unfold piecesFrom
      split
      · exact Nat.zero_le _
      · have hrest := ih (off + min left (bsize - off % bsize))
          (tot + min left (bsize - off % bsize)) (left - min left (bsize - off % bsize))
        simp only [List.length_cons]
        unfold bsize at hrest ⊢
        by_cases hlast : left ≤ 512 - off % 512
        · have hnil : piecesFrom rounds (off + min left (512 - off % 512))
              (tot + min left (512 - off % 512)) (left - min left (512 - off % 512)) = [] := by
            rw [show left - min left (512 - off % 512) = 0 by omega]
            cases rounds with
            | zero => rfl
            | succ rounds => rw [piecesFrom, if_pos rfl]
          rw [hnil, List.length_nil]
          omega
        · omega

end Pieces

section

variable {s : Volume} {k : Fin ninode} {p : Plan} {xs : List Piece}

/-- What a write lacks is counted by `gaps`. -/
theorem missing_le_gaps (hp : s.Follows k p) {T : ℕ → Prop} [DecidablePred T]
    (hnodup : (xs.map Piece.bn).Nodup) (hT : ∀ x ∈ xs, x.bn < 140 ∧ ∀ a, Touches x.bn a → T a) :
    p.missing xs ≤ s.gaps k T := by
  set gone := (Finset.range 141).filter fun a => T a ∧ s.ref k a = 0 with hgone
  have hmem {a : ℕ} (ha : a < 141) (hTa : T a) (h0 : p.ref a = 0) : a ∈ gone :=
    Finset.mem_filter.mpr ⟨Finset.mem_range.mpr ha, hTa, (hp.ref a ha).trans h0⟩
  set own := ((xs.filter fun x => p.ref (place x.bn) = 0).map fun x => place x.bn) with hown
  have hlen : own.length = xs.countP fun x => p.ref (place x.bn) = 0 := by
    rw [hown, List.length_map, List.countP_eq_length_filter]
  have hownNodup : own.Nodup := by
    have hplaces : (xs.map fun x => place x.bn).Nodup := by
      have hmap := hnodup.map place_injective
      rwa [List.map_map] at hmap
    exact hplaces.sublist (List.Sublist.map _ List.filter_sublist)
  have hsub : own.toFinset ⊆ gone.erase 12 := by
    intro a ha
    obtain ⟨x, hx, rfl⟩ := List.mem_map.mp (List.mem_toFinset.mp ha)
    obtain ⟨hx, h0⟩ := List.mem_filter.mp hx
    obtain ⟨hbn, htouch⟩ := hT x hx
    exact Finset.mem_erase.mpr ⟨place_ne _,
      hmem (place_lt hbn) (htouch _ (touches_place _)) (of_decide_eq_true h0)⟩
  have hcard := Finset.card_le_card hsub
  rw [List.toFinset_card_of_nodup hownNodup, hlen] at hcard
  unfold Plan.missing Plan.gap Volume.gaps
  rw [← hgone]
  by_cases hind : (∃ x ∈ xs, 12 ≤ x.bn) ∧ p.ref 12 = 0
  · obtain ⟨⟨x, hx, h12⟩, h0⟩ := hind
    have hin : 12 ∈ gone := hmem (by omega) ((hT x hx).2 12 (Or.inr ⟨h12, rfl⟩)) h0
    have hpos := Finset.card_pos.mpr ⟨12, hin⟩
    rw [Finset.card_erase_of_mem hin] at hcard
    rw [if_pos ⟨x, hx, h12⟩, if_pos h0]
    omega
  · have hle := Finset.card_le_card (Finset.erase_subset 12 gone)
    have hzero : (if ∃ x ∈ xs, 12 ≤ x.bn then if p.ref 12 = 0 then 1 else 0 else 0) = 0 := by
      split_ifs with h h'
      · exact absurd ⟨h, h'⟩ hind
      · rfl
      · rfl
    rw [hzero]
    omega

/-! ## The end of a file -/

variable {t : Trans} {l : List ℕ} {off n : ℕ}

theorem Trans.nodup_puts (h : t.sector.Nodup) (l : List ℕ) : (t.puts l).sector.Nodup := by
  induction l generalizing t with
  | nil => exact h
  | cons b l ih => exact ih (t := t.put b) (Volume.nodup_record h)

theorem Trans.toFinset_puts (t : Trans) (l : List ℕ) :
    (t.puts l).sector.toFinset = t.sector.toFinset ∪ l.toFinset := by
  induction l generalizing t with
  | nil => exact (Finset.union_empty _).symm
  | cons b l ih =>
      change ((t.put b).puts l).sector.toFinset = _
      rw [ih, List.toFinset_cons, Finset.union_insert, ← Finset.insert_union]
      exact congrArg (· ∪ l.toFinset) (Volume.toFinset_record t.sector)

/-- One more block is taken than the log has room for if all are counted once. -/
theorem Trans.takes_snoc (hnodup : t.sector.Nodup)
    (h : (t.sector.toFinset ∪ l.toFinset).card < t.limit) (b : ℕ) : t.Takes (l ++ [b]) := by
  have hlimit : (t.puts l).limit = t.limit := by
    clear h
    induction l generalizing t with
    | nil => rfl
    | cons c l ih => exact ih (t := t.put c) (Volume.nodup_record hnodup)
  refine Trans.takes_append.mpr ⟨Trans.takes_of_card hnodup h, ?_, trivial⟩
  rw [← List.toFinset_card_of_nodup (Trans.nodup_puts hnodup l), Trans.toFinset_puts, hlimit]
  exact h

/-- No four free blocks in a row are under four different blocks of the bitmap. -/
def Volume.Clustered (s : Volume) : Prop :=
  ∀ l, l <:+: s.fresh → l.length = 4 → ¬(l.map fun b => bblock b s.ninodes).Nodup

/-- All blocks below `m` are used and all others free. -/
theorem Volume.fresh_of_used {m : ℕ} (h : ∀ b, s.used b = decide (b < m)) :
    s.fresh = List.range' m (s.size - m) := by
  have hused : s.fresh = (List.range s.size).filter fun b => !decide (b < m) := by
    unfold fresh
    simp only [h]
  rw [hused]
  by_cases hle : m ≤ s.size
  · obtain ⟨k, hk⟩ := Nat.exists_eq_add_of_le hle
    rw [hk, Nat.add_sub_cancel_left, List.range_add, List.filter_append, List.range'_eq_map_range]
    have hlow : (List.range m).filter (fun b => !decide (b < m)) = [] := by
      simp [List.filter_eq_nil_iff]
    rw [hlow, List.nil_append, List.filter_eq_self]
    simp
  · rw [show s.size - m = 0 by omega]
    simp only [List.range'_zero, List.filter_eq_nil_iff, List.mem_range]
    intro b hb
    simp only [Bool.not_eq_true', decide_eq_false_iff_not, not_not]
    omega

/-- A disk on which nothing has been freed yet. -/
theorem Volume.clustered_of_used {m : ℕ} (h : ∀ b, s.used b = decide (b < m)) :
    s.Clustered := by
  rintro l ⟨pre, post, hl⟩ hlen hnodup
  obtain ⟨x, hx⟩ : ∃ x, l = List.range' x 4 := by
    have hcut : ((pre ++ l ++ post).drop pre.length).take 4 = l := by
      rw [List.append_assoc, List.drop_left, ← hlen, List.take_left]
    rw [hl, fresh_of_used h, List.drop_range'] at hcut
    have hlong : 4 ≤ s.size - m - pre.length := by
      have hsum := congrArg List.length hl
      rw [fresh_of_used h, List.length_range', List.length_append, List.length_append] at hsum
      omega
    rw [List.take_range'_of_length_ge hlong] at hcut
    exact ⟨_, hcut.symm⟩
  subst hx
  simp only [List.range', List.map_cons, List.map_nil, List.nodup_cons, List.mem_cons] at hnodup
  obtain ⟨hfirst, hsecond, -⟩ := hnodup
  push Not at hfirst hsecond
  obtain ⟨h₁, -⟩ := hfirst
  obtain ⟨h₂, -⟩ := hsecond
  unfold bblock bpb at h₁ h₂
  omega
theorem Volume.notMem_fresh (h : s.used 0 = true) : 0 ∉ s.fresh := by
  unfold fresh
  simp [h]

theorem Volume.card_freeBlocks_le (s : Volume) : s.freeBlocks.card ≤ s.fresh.length := by
  have hnodup : s.fresh.Nodup := List.nodup_range.filter _
  rw [← List.toFinset_card_of_nodup hnodup]
  apply Finset.card_le_card
  intro b hb
  obtain ⟨hlt, hunused⟩ := mem_freeBlocks.mp hb
  rw [List.mem_toFinset, fresh, List.mem_filter, List.mem_range, hunused]
  exact ⟨hlt.trans_le s.logStart_le, rfl⟩

/-- At most three blocks of the bitmap are changed. -/
theorem Volume.Clustered.card_le {l : List ℕ} (h : s.Clustered) (hblock : l <:+: s.fresh)
    (hlen : l.length ≤ 4) : (l.map fun b => bblock b s.ninodes).toFinset.card ≤ 3 := by
  have hle := List.toFinset_card_le (l.map fun b => bblock b s.ninodes)
  rw [List.length_map] at hle
  rcases hlen.lt_or_eq with hlt | heq
  · omega
  · by_contra hmore
    apply h l hblock heq
    rw [← List.dedup_eq_self]
    apply (List.dedup_sublist _).eq_of_length
    rw [← List.card_toFinset, List.length_map]
    omega

/-- A chunk at the end of a file lacks at most four blocks. -/
theorem missing_chunk (hfull : s.Full k) (hoff : off = (s.inode k).size) (hn : n ≤ maxChunk)
    (hend : off + n ≤ 71680) :
    (pieces off n).length ≤ 4 ∧ (s.plan k).missing (pieces off n) ≤ 4 := by
  have hlen := length_piecesFrom n off 0 n
  have hind : (if ∃ x ∈ pieces off n, 12 ≤ x.bn then (s.plan k).gap 12 else 0) ≤ 1 := by
    unfold Plan.gap
    split_ifs <;> omega
  have hcount := List.countP_le_length (l := pieces off n)
    (p := fun x => decide ((s.plan k).ref (place x.bn) = 0))
  unfold maxChunk logsize at hn
  unfold Plan.missing
  change 512 * (pieces off n).length ≤ _ at hlen
  refine ⟨by omega, ?_⟩
  by_cases hmod : off % 512 = 0
  · omega
  · rcases Nat.eq_zero_or_pos n with rfl | hpos
    · have hnil : pieces off 0 = [] := rfl
      rw [hnil] at hind ⊢
      exact hind.trans (by omega)
    · -- the first round continues a block that is there
      obtain ⟨x, xs, hxs, hbn⟩ : ∃ x xs, pieces off n = x :: xs ∧ x.bn = off / 512 := by
        obtain ⟨m, rfl⟩ : ∃ m, n = m + 1 := ⟨n - 1, by omega⟩
        exact ⟨_, _, by rw [pieces, piecesFrom, if_neg (by omega)], rfl⟩
      have hpresent : (s.plan k).ref (place x.bn) ≠ 0 := by
        rw [hbn]
        exact hfull.present _ (by omega) (by omega)
      rw [hxs, List.countP_cons_of_neg (by simpa using hpresent)]
      rw [hxs] at hind hlen
      have hcount' := List.countP_le_length (l := xs)
        (p := fun x => decide ((s.plan k).ref (place x.bn) = 0))
      simp only [List.length_cons] at hlen
      omega

/-- The log takes a chunk that goes to the end of a file. -/
theorem takes_chunk (hs : s.Sole k) (hfull : s.Full k) (hoff : off = (s.inode k).size)
    (hn : n ≤ maxChunk) (hend : off + n ≤ 71680)
    (hfree : s.gaps k (Reaches off n) ≤ s.freeBlocks.card) (hempty : s.log.sector = [])
    (hlog : 10 ≤ s.log.size) (hclustered : s.Clustered) : s.log.Takes (s.recorded k off n) := by
  obtain ⟨hrounds, hfour⟩ := missing_chunk hfull hoff hn hend
  have hgaps : (s.plan k).missing (pieces off n) ≤ s.gaps k (Reaches off n) := missing_le_gaps
    (s.follows_plan k) (nodup_bn n off 0 n) fun x hx => ⟨bn_lt_of_mem hend hx, fun a ha =>
      ⟨x.bn, bn_lt_of_mem hend hx, meets_of_mem hx, ha⟩⟩
  obtain ⟨l, hgrows, hlen, hmem⟩ := Plan.Grows.write s.ninodes (p := s.plan k) (Volume.notMem_fresh hs.zero)
    (hgaps.trans (hfree.trans s.card_freeBlocks_le))
  have hblock : l <:+: s.fresh := ⟨[], _, hgrows.free.symm⟩
  have hbitmap := hclustered.card_le hblock (hlen.trans hfour)
  set q := (s.plan k).write (pieces off n) with hq
  have hsub : ((s.plan k).writes s.ninodes (pieces off n)).toFinset ⊆
      (l.map fun b => bblock b s.ninodes).toFinset ∪
        insert (q.ref 12) ((pieces off n).map fun x => q.ref (place x.bn)).toFinset := by
    intro b hb
    simp only [Finset.mem_union, Finset.mem_insert, List.mem_toFinset, List.mem_map]
    rcases hmem b (List.mem_toFinset.mp hb) with ⟨c, hc, rfl⟩ | h | ⟨x, hx, rfl⟩
    · exact Or.inl ⟨c, hc, rfl⟩
    · exact Or.inr (Or.inl h)
    · exact Or.inr (Or.inr ⟨x, hx, rfl⟩)
  have hdata := List.toFinset_card_le ((pieces off n).map fun x => q.ref (place x.bn))
  have hinsert := Finset.card_insert_le (q.ref 12)
    ((pieces off n).map fun x => q.ref (place x.bn)).toFinset
  have hunion := Finset.card_union_le (l.map fun b => bblock b s.ninodes).toFinset
    (insert (q.ref 12) ((pieces off n).map fun x => q.ref (place x.bn)).toFinset)
  have hcard := Finset.card_le_card hsub
  rw [List.length_map] at hdata
  have hroom : (s.log.sector.toFinset ∪
      ((s.plan k).writes s.ninodes (pieces off n)).toFinset).card < s.log.limit := by
    rw [hempty, List.toFinset_nil, Finset.empty_union]
    unfold Trans.limit logsize
    omega
  have hnodup : s.log.sector.Nodup := hempty ▸ List.nodup_nil
  unfold Volume.recorded
  split
  · exact Trans.takes_snoc hnodup hroom _
  · rw [List.append_nil]
    exact Trans.takes_of_card hnodup hroom

/-- A write takes the free blocks in their order. -/
theorem Plan.free_write (p : Plan) (xs : List Piece) : (p.write xs).free <:+ p.free := by
  have hfind : ∀ (q : Plan) a, (q.find a).free <:+ q.free := by
    intro q a
    unfold Plan.find
    split
    · exact List.tail_suffix _
    · exact List.suffix_rfl
  induction xs generalizing p with
  | nil => exact List.suffix_rfl
  | cons x xs ih =>
      apply (ih (p.bmap x.bn)).trans
      unfold Plan.bmap
      split
      · exact hfind p _
      · exact (hfind _ _).trans (hfind p _)

end

end Xv6.Fs
