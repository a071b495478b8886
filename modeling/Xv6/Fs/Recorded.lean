import Xv6.Fs.Bytes

/-!
# What a write records in the log

`log_write` panics as soon as it finds the log full, also for a block that is recorded
already.  Whether `writei` returns therefore depends on the blocks that it passes to
`log_write`, one after the other.  The references of the inode and the free blocks, in the
order in which `balloc` takes them, decide which blocks these are.
-/

namespace Xv6.Fs

open Support

/-! ## Calls of `log_write` -/

/-- The number of recorded blocks with which `log_write` finds the log full. -/
def Trans.limit (t : Trans) : ℕ :=
  min logsize (t.size - 1)

/-- The log after `log_write` of block `b`. -/
def Trans.put (t : Trans) (b : ℕ) : Trans :=
  { t with sector := record b t.sector }

/-- The log after `log_write` of the blocks of a list. -/
def Trans.puts (t : Trans) (l : List ℕ) : Trans :=
  l.foldl Trans.put t

/-- No call of `log_write` for the blocks of a list, in turn, finds the log full. -/
def Trans.Takes (t : Trans) : List ℕ → Prop
  | [] => True
  | b :: l => t.sector.length < t.limit ∧ (t.put b).Takes l

/-- `Takes` by computation. -/
def Trans.decidableTakes (t : Trans) : (l : List ℕ) → Decidable (t.Takes l)
  | [] => isTrue trivial
  | b :: l => @instDecidableAnd _ _ _ ((t.put b).decidableTakes l)

instance (t : Trans) (l : List ℕ) : Decidable (t.Takes l) :=
  t.decidableTakes l

section

variable {t : Trans} {b : ℕ} {l l' : List ℕ}

theorem Trans.takes_append : t.Takes (l ++ l') ↔ t.Takes l ∧ (t.puts l).Takes l' := by
  induction l generalizing t with
  | nil => exact ⟨fun h => ⟨trivial, h⟩, And.right⟩
  | cons b l ih =>
      rw [List.cons_append, Takes, Takes, ih, and_assoc]
      rfl

theorem Trans.puts_append : t.puts (l ++ l') = (t.puts l).puts l' :=
  List.foldl_append

/-- The log takes all of the blocks if it has room for them, each counted once. -/
theorem Trans.takes_of_card {l : List ℕ} (hnodup : t.sector.Nodup)
    (h : (t.sector.toFinset ∪ l.toFinset).card < t.limit) : t.Takes l := by
  induction l generalizing t with
  | nil => trivial
  | cons b l ih =>
      refine ⟨?_, ih (Volume.nodup_record hnodup) ?_⟩
      · have hlen := List.toFinset_card_of_nodup hnodup
        have hcard : t.sector.toFinset.card ≤ (t.sector.toFinset ∪ (b :: l).toFinset).card :=
          Finset.card_le_card Finset.subset_union_left
        omega
      · have hunion : (record b t.sector).toFinset ∪ l.toFinset =
            t.sector.toFinset ∪ (b :: l).toFinset := by
          rw [Volume.toFinset_record, List.toFinset_cons, Finset.insert_union,
            Finset.union_insert]
        change ((record b t.sector).toFinset ∪ l.toFinset).card < t.limit
        rwa [hunion]

end

/-- The run passes the blocks of `l` to `log_write`, in this order: it returns in `Q`, or
panics since the log is full before one of them. -/
def Passes {α : Type} (l : List ℕ) (m : FsM α) (Q : α → Volume → Prop) (s : Volume) : Prop :=
  Exec.wp m (fun a t => s.log.Takes l ∧ t.log = s.log.puts l ∧ Q a t)
    (fun e _ => e = .tooBigATransaction ∧ ¬s.log.Takes l) s

section Rules

variable {α β : Type} {l l' : List ℕ} {m : FsM α} {Q : α → Volume → Prop} {s : Volume}

theorem Passes.mono {Q' : α → Volume → Prop} (h : Passes l m Q s)
    (hQ : ∀ a t, Q a t → Q' a t) : Passes l m Q' s :=
  Exec.wp_mono h (fun a t ⟨htakes, hlog, hq⟩ => ⟨htakes, hlog, hQ a t hq⟩) fun _ _ he => he

theorem Passes.seq {f : α → FsM β} {Q' : β → Volume → Prop} (h : Passes l m Q s)
    (hf : ∀ a t, t.log = s.log.puts l → Q a t → Passes l' (f a) Q' t) :
    Passes (l ++ l') (m >>= f) Q' s := by
  refine Exec.wp_seq h ?_ ?_
  · rintro a t ⟨htakes, hlog, hq⟩
    have hrest := hf a t hlog hq
    unfold Passes at hrest
    rw [hlog] at hrest
    refine Exec.wp_mono hrest ?_ ?_
    · rintro b u ⟨htakes', hlog', hq'⟩
      exact ⟨Trans.takes_append.mpr ⟨htakes, htakes'⟩, hlog'.trans Trans.puts_append.symm, hq'⟩
    · rintro e _ ⟨he, hnot⟩
      exact ⟨he, fun h => hnot (Trans.takes_append.mp h).2⟩
  · rintro e _ ⟨he, hnot⟩
    exact ⟨he, fun h => hnot (Trans.takes_append.mp h).1⟩

theorem Passes.pure {a : α} (h : Q a s) : Passes [] (Pure.pure a : FsM α) Q s :=
  Exec.wp_pure.mpr ⟨trivial, rfl, h⟩

theorem Passes.gets {f : Volume → α} {g : α → FsM β} {Q' : β → Volume → Prop}
    (h : Passes l (g (f s)) Q' s) : Passes l (Exec.gets f >>= g) Q' s :=
  Exec.wp_bind.mpr (Exec.wp_gets.mpr h)

/-- A change that leaves the log alone. -/
theorem Passes.modify {f : Volume → Volume} {g : Unit → FsM β} {Q' : β → Volume → Prop}
    (hlog : (f s).log = s.log) (h : Passes l (g ()) Q' (f s)) :
    Passes l (Exec.modify f >>= g) Q' s := by
  unfold Passes at h
  rw [hlog] at h
  exact Exec.wp_bind.mpr (Exec.wp_modify.mpr h)

/-- In a transaction the run returns if the log takes the blocks, and panics otherwise. -/
theorem Passes.returns_iff (h : Passes l m Q s) :
    (s.log.Takes l → ∃ a t, m s = (.ok a, t) ∧ Q a t) ∧
      (¬s.log.Takes l → (m s).1 = .error .tooBigATransaction) := by
  cases hm : m s with
  | mk r t =>
      cases r with
      | ok a =>
          obtain ⟨htakes, -, hq⟩ := Exec.wp_ok h hm
          exact ⟨fun _ => ⟨a, t, rfl, hq⟩, fun hnot => absurd htakes hnot⟩
      | error e =>
          obtain ⟨rfl, hnot⟩ := Exec.wp_error h hm
          exact ⟨fun htakes => absurd htakes hnot, fun _ => rfl⟩

theorem passes_logWrite {b : ℕ} (hbusy : s.log.busy = true) :
    Passes [b] (logWrite b) (fun _ t => t = s.logged b) s := by
  unfold logWrite
  apply Exec.wp_bind.mpr
  apply Exec.wp_gets.mpr
  have hfull : s.log.Takes [b] ↔
      ¬(logsize ≤ s.log.sector.length ∨ s.log.size ≤ s.log.sector.length + 1) := by
    simp only [Trans.Takes, Trans.limit, and_true]
    omega
  by_cases h : logsize ≤ s.log.sector.length ∨ s.log.size ≤ s.log.sector.length + 1
  · rw [if_pos h]
    exact Exec.wp_throw.mpr ⟨rfl, fun htakes => hfull.mp htakes h⟩
  · rw [if_neg h, hbusy, if_neg (by simp)]
    exact Exec.wp_modify.mpr ⟨hfull.mpr h, rfl, rfl⟩

end Rules

/-! ## The blocks of a write -/

/-- The references of an inode, and the free blocks in the order in which `balloc` takes
them. -/
structure Plan where
  ref : ℕ → ℕ
  free : List ℕ

namespace Plan

variable (ninodes : ℕ) (p : Plan)

/-- The block that `balloc` returns. -/
def next : ℕ :=
  p.free.headD 0

/-- The reference at place `a` is found or filled in. -/
def find (a : ℕ) : Plan :=
  if p.ref a = 0 then ⟨Function.update p.ref a p.next, p.free.tail⟩ else p

/-- The blocks that `balloc` records if the reference at place `a` is missing, followed by
those in `l`. -/
def finds (a : ℕ) (l : List ℕ) : List ℕ :=
  if p.ref a = 0 then bblock p.next ninodes :: p.next :: l else []

/-- `bmap` of block `bn`. -/
def bmap (bn : ℕ) : Plan :=
  if bn < ndirect then p.find bn else (p.find 12).find (place bn)

/-- The blocks that `bmap` of block `bn` records. -/
def bmaps (bn : ℕ) : List ℕ :=
  if bn < ndirect then p.finds ninodes bn []
  else p.finds ninodes 12 [] ++ (p.find 12).finds ninodes (place bn) [(p.find 12).ref 12]

/-- The loop of `writei`. -/
def writes : Plan → List Piece → List ℕ
  | _, [] => []
  | p, x :: xs =>
      (p.bmaps ninodes x.bn ++ [(p.bmap x.bn).ref (place x.bn)]) ++ writes (p.bmap x.bn) xs

/-- What is left after the loop of `writei`. -/
def write : Plan → List Piece → Plan
  | p, [] => p
  | p, x :: xs => (p.bmap x.bn).write xs

end Plan

namespace Volume

/-- The free blocks, in the order in which `balloc` takes them. -/
def fresh (s : Volume) : List ℕ :=
  (List.range s.size).filter fun b => !s.used b

/-- What `writei` finds for the inode in entry `k` of the cache. -/
def plan (s : Volume) (k : Fin ninode) : Plan :=
  ⟨s.ref k, s.fresh⟩

/-- The blocks that `writei` of `n` bytes at offset `off` passes to `log_write`. -/
def recorded (s : Volume) (k : Fin ninode) (off n : ℕ) : List ℕ :=
  (s.plan k).writes s.ninodes (pieces off n) ++
    if 0 < n ∧ (s.inode k).size < off + n then [iblock (s.inode k).inum] else []

/-- The plan is that of the inode. -/
structure Follows (s : Volume) (k : Fin ninode) (p : Plan) : Prop where
  ref : ∀ a < 141, s.ref k a = p.ref a
  free : s.fresh = p.free

variable {s : Volume} {k : Fin ninode} {p : Plan} {a b : ℕ}

theorem follows_plan (s : Volume) (k : Fin ninode) : s.Follows k (s.plan k) :=
  ⟨fun _ _ => rfl, rfl⟩

theorem firstFree_eq (s : Volume) : firstFree s.size s.used = s.fresh.head? :=
  List.head?_filter.symm

/-- The first free block is below the log if one is. -/
theorem next_mem (h : s.Follows k p) (hfree : 0 < s.freeBlocks.card) :
    firstFree s.size s.used = some p.next ∧ p.next ∈ s.freeBlocks := by
  obtain ⟨c, hc⟩ := Finset.card_pos.mp hfree
  obtain ⟨hlt, hunused⟩ := mem_freeBlocks.mp hc
  cases hfirst : firstFree s.size s.used with
  | none =>
      have hall := firstFree_eq_none hfirst c (hlt.trans_le s.logStart_le)
      rw [hunused] at hall
      cases hall
  | some b =>
      have hb : p.next = b := by
        rw [firstFree_eq, h.free] at hfirst
        rw [Plan.next, List.headD_eq_head?_getD, hfirst, Option.getD_some]
      have hle := firstFree_le hfirst hunused
      rw [hb]
      exact ⟨rfl, mem_freeBlocks.mpr ⟨hle.trans_lt hlt, (firstFree_eq_some hfirst).2⟩⟩

theorem fresh_allocate (hb : firstFree s.size s.used = some b) :
    (s.allocate b).fresh = s.fresh.tail := by
  have hhead : s.fresh.head? = some b := by rw [← firstFree_eq, hb]
  obtain ⟨rest, hrest⟩ : ∃ rest, s.fresh = b :: rest := by
    cases hf : s.fresh with
    | nil => rw [hf] at hhead; cases hhead
    | cons c rest =>
        rw [hf] at hhead
        exact ⟨rest, by rw [Option.some.inj hhead]⟩
  have hnodup : s.fresh.Nodup := List.nodup_range.filter _
  have herase : (s.allocate b).fresh = s.fresh.erase b := by
    rw [hnodup.erase_eq_filter]
    unfold fresh
    rw [List.filter_filter]
    apply List.filter_congr
    intro c _
    change (!Function.update s.used b true c) = (c != b && !s.used c)
    by_cases hcb : c = b
    · simp [hcb]
    · simp [hcb]
  rw [herase, hrest, List.erase_cons_head, List.tail_cons]

end Volume

namespace Filled

variable {k : Fin ninode} {wr : ℕ → Option UInt8} {T : ℕ → Prop} {s s' : Volume}

theorem busy_eq (h : Filled k wr T s s') : s'.log.busy = s.log.busy := by
  rw [h.same]

theorem ninodes_eq (h : Filled k wr T s s') : s'.ninodes = s.ninodes := by
  rw [h.same]

end Filled

section Blocks

variable {k : Fin ninode} {s : Volume} {p : Plan} {a bn : ℕ}

theorem Plan.find_of_ne (h : p.ref a ≠ 0) : p.find a = p :=
  if_neg h

theorem Plan.find_of_zero (h : p.ref a = 0) :
    p.find a = ⟨Function.update p.ref a p.next, p.free.tail⟩ :=
  if_pos h

/-- The plan after a reference has been filled in. -/
theorem Volume.Follows.find {s' : Volume} (hp : s.Follows k p) (h0 : p.ref a = 0)
    (href : ∀ a' < 141, s'.ref k a' = if a' = a then p.next else s.ref k a')
    (hfresh : s'.fresh = s.fresh.tail) : s'.Follows k (p.find a) := by
  rw [Plan.find_of_zero h0]
  refine ⟨fun a' ha' => ?_, by rw [hfresh, hp.free]⟩
  change s'.ref k a' = Function.update p.ref a p.next a'
  rw [href a' ha', Function.update_apply]
  split
  · rfl
  · exact hp.ref a' ha'

theorem passes_balloc (hp : s.Follows k p) (hbusy : s.log.busy = true)
    (hfree : 0 < s.freeBlocks.card) :
    Passes [bblock p.next s.ninodes, p.next] balloc
      (fun b t => b = p.next ∧ t = s.allocate p.next) s := by
  obtain ⟨hfirst, -⟩ := s.next_mem hp hfree
  apply Passes.gets
  simp only [id_eq, hfirst]
  apply Passes.modify rfl
  refine Passes.seq (l := [_]) (passes_logWrite hbusy) ?_
  rintro _ t - rfl
  have hzero : Passes [p.next] (bzero p.next)
      (fun _ u => u = s.allocate p.next) ((s.setUsed p.next true).logged (bblock p.next s.ninodes)) :=
    Passes.modify rfl (passes_logWrite hbusy)
  rw [← List.append_nil [p.next]]
  refine Passes.seq hzero ?_
  rintro _ u - rfl
  exact Passes.pure ⟨rfl, rfl⟩

/-- Finding or filling in an address of the inode. -/
theorem passes_addr (hs : s.Sole k) (hp : s.Follows k p) (hbusy : s.log.busy = true)
    (ha : a ≤ 12) (hfree : s.ref k a = 0 → 0 < s.freeBlocks.card) :
    Passes (p.finds s.ninodes a []) (orBalloc ((s.inode k).addrs a) (storeAddr k a))
      (fun b t => Filled k (fun _ => none) (· = a) s t ∧ t.Follows k (p.find a) ∧
        b = t.ref k a ∧ b ≠ 0) s := by
  have haddr : s.ref k a = (s.inode k).addrs a := refAt_of_le ha
  have href : p.ref a = (s.inode k).addrs a := (hp.ref a (by omega)).symm.trans haddr
  rw [Plan.finds, href]
  by_cases h0 : (s.inode k).addrs a = 0
  · have hnone : s.ref k a = 0 := haddr.trans h0
    obtain ⟨hfirst, hb⟩ := s.next_mem hp (hfree hnone)
    have hrefs := Volume.ref_linkAddr hs ha hnone hb
    rw [if_pos h0, h0, orBalloc_of_zero, ← List.append_nil [_, _]]
    refine Passes.seq (passes_balloc hp hbusy (hfree hnone)) ?_
    rintro _ t - ⟨rfl, rfl⟩
    refine Passes.modify rfl (Passes.pure ?_)
    change Filled k (fun _ => none) (· = a) s (s.linkAddr k a p.next) ∧ _
    refine ⟨Filled.linkAddr hs ha hnone hb, ?_, ?_, (Volume.used_ne hs.zero hb).symm⟩
    · exact hp.find (href.trans h0) (fun a' _ => hrefs a') (s.fresh_allocate hfirst)
    · exact ((hrefs a).trans (if_pos rfl)).symm
  · rw [if_neg h0, orBalloc_of_ne h0, Plan.find_of_ne (href ▸ h0)]
    exact Passes.pure ⟨(Filled.refl hs).mono fun _ h => h.elim, hp, haddr.symm, h0⟩

/-- Finding or filling in a word of the indirect block. -/
theorem passes_word (hs : s.Sole k) (hp : s.Follows k p) (hbusy : s.log.busy = true)
    (hind : s.ref k 12 ≠ 0) (ha : 12 < a) (hlt : a < 141)
    (hfree : s.ref k a = 0 → 0 < s.freeBlocks.card) :
    Passes (p.finds s.ninodes a [p.ref 12]) (do
        let w ← Exec.gets fun t => t.block (s.ref k 12)
        orBalloc (w.word (a - 13)) fun b => do
          Exec.modify fun t => t.setBlock (s.ref k 12) (w.setWord (a - 13) b)
          logWrite (s.ref k 12))
      (fun b t => Filled k (fun _ => none) (· = a) s t ∧ t.Follows k (p.find a) ∧
        b = t.ref k a ∧ b ≠ 0) s := by
  have hc : s.ref k 12 = (s.inode k).addrs 12 := refAt_of_le le_rfl
  have hc0 : (s.inode k).addrs 12 ≠ 0 := hc ▸ hind
  have hword : s.ref k a = (s.block (s.ref k 12)).word (a - 13) := by
    rw [hc]
    exact (refAt_of_gt ha).trans (if_neg hc0)
  have href : p.ref a = (s.block (s.ref k 12)).word (a - 13) :=
    (hp.ref a hlt).symm.trans hword
  rw [Plan.finds, href, ← hp.ref 12 (by omega)]
  apply Passes.gets
  by_cases h0 : (s.block (s.ref k 12)).word (a - 13) = 0
  · have hnone : s.ref k a = 0 := hword.trans h0
    obtain ⟨hfirst, hb⟩ := s.next_mem hp (hfree hnone)
    rw [if_pos h0, h0, orBalloc_of_zero]
    refine Passes.seq (l := [_, _]) (passes_balloc hp hbusy (hfree hnone)) ?_
    rintro _ t - ⟨rfl, rfl⟩
    have hstore : Passes [s.ref k 12] (do
        Exec.modify fun t => t.setBlock (s.ref k 12)
          ((s.block (s.ref k 12)).setWord (a - 13) p.next)
        logWrite (s.ref k 12))
        (fun _ u => u = s.linkWord (s.ref k 12) (a - 13) p.next) (s.allocate p.next) :=
      Passes.modify rfl (passes_logWrite hbusy)
    rw [← List.append_nil [s.ref k 12]]
    refine Passes.seq hstore ?_
    rintro _ u - rfl
    apply Passes.pure
    have hfill := Filled.linkWord hs ha hlt hc0 hnone hb
    have hrefs := fun a' (ha' : a' < 141) => Volume.ref_linkWord hs ha hlt hc0 hb ha'
    rw [← hc] at hfill hrefs
    refine ⟨hfill, ?_, ?_, (Volume.used_ne hs.zero hb).symm⟩
    · exact hp.find (href.trans h0) hrefs (s.fresh_allocate hfirst)
    · exact ((hrefs a hlt).trans (if_pos rfl)).symm
  · rw [if_neg h0, orBalloc_of_ne h0, Plan.find_of_ne (href ▸ h0)]
    exact Passes.pure ⟨(Filled.refl hs).mono fun _ h => h.elim, hp, hword.symm, h0⟩

theorem passes_bmap (hs : s.Sole k) (hp : s.Follows k p) (hbusy : s.log.busy = true)
    (hbn : bn < 140) (hfree : s.gaps k (Touches bn) ≤ s.freeBlocks.card) :
    Passes (p.bmaps s.ninodes bn) (bmap k bn) (fun b t =>
      Filled k (fun _ => none) (Touches bn) s t ∧ t.Follows k (p.bmap bn) ∧
        b = t.ref k (place bn) ∧ b ≠ 0) s := by
  have hgap (h0 : s.ref k (place bn) = 0) : 0 < s.freeBlocks.card :=
    (Volume.gaps_pos (place_lt hbn) (touches_place bn) h0).trans_le hfree
  unfold bmap Plan.bmaps Plan.bmap
  apply Passes.gets
  by_cases hdirect : bn < ndirect
  · have hplace : place bn = bn := if_pos hdirect
    rw [if_pos hdirect, if_pos hdirect, if_pos hdirect]
    rw [hplace] at hgap
    refine (passes_addr hs hp hbusy (by unfold ndirect at hdirect; omega) hgap).mono ?_
    rintro b t ⟨hfill, hfollows, hb, hne⟩
    rw [hplace]
    exact ⟨hfill.mono fun a h => Or.inl (h.trans hplace.symm), hfollows, hb, hne⟩
  · have h12 : 12 ≤ bn := not_lt.mp hdirect
    have hplace : place bn = bn + 1 := if_neg hdirect
    have hsub : bn - ndirect = place bn - 13 := by
      rw [hplace]
      unfold ndirect
      omega
    rw [if_neg hdirect, if_neg hdirect, if_neg hdirect,
      if_pos (by unfold ndirect nindirect; omega), hsub]
    refine Passes.seq (passes_addr hs hp hbusy le_rfl fun hind => ?_) ?_
    · exact (Volume.gaps_pos (by omega) (Or.inr ⟨h12, rfl⟩) hind).trans_le hfree
    rintro c t - ⟨hfill, hfollows, rfl, hne⟩
    have hcard := hfill.card_freeBlocks (P := Touches bn) hs
      fun a _ ha => Or.inr ⟨h12, ha⟩
    have hword := passes_word hfill.sole hfollows (hfill.busy_eq.trans hbusy) hne
      (show 12 < place bn by omega) (place_lt hbn) fun h0 => by
        have hpos := Volume.gaps_pos (place_lt hbn) (touches_place bn) h0
        omega
    rw [hfill.ninodes_eq] at hword
    refine hword.mono ?_
    rintro b u ⟨hfill', hfollows', hb, hne'⟩
    refine ⟨(hfill.trans hfill').mono ?_, hfollows', hb, hne'⟩
    rintro a (ha | ha)
    · exact Or.inr ⟨h12, ha⟩
    · exact Or.inl ha

/-- One round of the loop of `writei`. -/
theorem passes_piece {start n : ℕ} (hs : s.Sole k) (hp : s.Follows k p)
    (hbusy : s.log.busy = true) (hbn : bn < 140) (hn : start + n ≤ 512) (src : Chars)
    (hfree : s.gaps k (Touches bn) ≤ s.freeBlocks.card) :
    Passes (p.bmaps s.ninodes bn ++ [(p.bmap bn).ref (place bn)]) (do
        let b ← bmap k bn
        Exec.modify fun s => s.setBlock b (overwrite (s.block b) src start n)
        logWrite b)
      (fun _ t => Filled k (span src (512 * bn + start) n) (Touches bn) s t ∧
        t.Follows k (p.bmap bn)) s := by
  refine Passes.seq (passes_bmap hs hp hbusy hbn hfree) ?_
  rintro b t - ⟨hfill, hfollows, rfl, hne⟩
  rw [← hfollows.ref _ (place_lt hbn)]
  refine Passes.modify rfl (Passes.mono (passes_logWrite ?_) ?_)
  · exact hfill.busy_eq.trans hbusy
  rintro _ u rfl
  have hwrite := hfill.trans (Filled.store hfill.sole hbn hne hn src)
  simp only [Option.or_none] at hwrite
  refine ⟨hwrite.mono fun a ha => ha.resolve_right id, fun a ha => ?_, hfollows.free⟩
  exact (Volume.ref_store hfill.sole hbn src start n a).trans (hfollows.ref a ha)

/-- The loop of `writei`. -/
theorem passes_pieces {rounds off left : ℕ} (tot : ℕ) (hs : s.Sole k) (hp : s.Follows k p)
    (hbusy : s.log.busy = true) (hend : off + left ≤ 71680) (hrounds : left ≤ rounds)
    (src : Chars) (hfree : s.gaps k (Reaches off left) ≤ s.freeBlocks.card) :
    Passes (p.writes s.ninodes (piecesFrom rounds off tot left))
      (writePieces k src (piecesFrom rounds off tot left))
      (fun _ t => Filled k (span (fun i => src (tot + i)) off left) (Reaches off left) s t ∧
        t.Follows k (p.write (piecesFrom rounds off tot left))) s := by
  induction rounds generalizing off left tot s p with
  | zero =>
      obtain rfl : left = 0 := by omega
      rw [piecesFrom, span_zero]
      exact Passes.pure ⟨(Filled.refl hs).mono fun _ h => h.elim, hp⟩
  | succ rounds ih =>
      by_cases hleft : left = 0
      · subst hleft
        rw [piecesFrom, if_pos rfl, span_zero]
        exact Passes.pure ⟨(Filled.refl hs).mono fun _ h => h.elim, hp⟩
      · have hbn : off / 512 < 140 := by omega
        have hreach : ∀ a < 141, Touches (off / 512) a → Reaches off left a :=
          fun a _ h => Reaches.of_touches (by omega) hbn h
        have hgaps := Volume.gaps_mono (s := s) (k := k) hreach
        obtain ⟨n, hn⟩ : ∃ n, n = min left (bsize - off % bsize) := ⟨_, rfl⟩
        have hlt : off % 512 < 512 := Nat.mod_lt _ (by omega)
        have hpos : 0 < n ∧ n ≤ left ∧ off % 512 + n ≤ 512 := by
          unfold bsize at hn
          omega
        have hsplit : piecesFrom (rounds + 1) off tot left =
            ⟨off / bsize, off % bsize, tot, n⟩ ::
              piecesFrom rounds (off + n) (tot + n) (left - n) := by
          rw [piecesFrom, if_neg hleft, hn]
        rw [hsplit, writePieces_cons, Plan.writes, Plan.write]
        refine Passes.seq (passes_piece hs hp hbusy hbn hpos.2.2 (fun i => src (tot + i))
          (hgaps.trans hfree)) ?_
        rintro _ t - ⟨hfill, hfollows⟩
        have hcard := hfill.card_freeBlocks hs hreach
        have hless : t.gaps k (Reaches (off + n) (left - n)) ≤ t.gaps k (Reaches off left) :=
          Volume.gaps_mono fun a _ h => h.mono (by omega) (by omega)
        have hrest := ih (tot + n) hfill.sole hfollows (hfill.busy_eq.trans hbusy)
          (show off + n + (left - n) ≤ 71680 by omega) (by omega) (by omega)
        rw [hfill.ninodes_eq] at hrest
        refine hrest.mono ?_
        rintro _ u ⟨hfill', hfollows'⟩
        exact ⟨hfill.next hfill' (by omega) hpos.2.1 hbn, hfollows'⟩

theorem Volume.ref_resize (s : Volume) (k : Fin ninode) (n a : ℕ) :
    (s.resize k n).ref k a = s.ref k a := by
  have haddrs : ((s.resize k n).inode k).addrs = (s.inode k).addrs := by
    simp [Volume.resize, Volume.setInode, Volume.setDinode, Volume.logged, Volume.setSectors]
  unfold Volume.ref
  rw [haddrs]
  rfl

/-- `writei`, when its checks let it through, in a transaction and with enough free blocks. -/
theorem passes_writei {off n : ℕ} (hs : s.Sole k) (htype : (s.inode k).type ≠ tDev)
    (hbusy : s.log.busy = true) (hfit : WriteFits (s.inode k).size off n)
    (hend : off + n ≤ 71680) (src : Chars) (hfree : s.gaps k (Reaches off n) ≤ s.freeBlocks.card) :
    Passes (s.recorded k off n) (writei k src off n)
      (fun res t => res = some n ∧ Wrote k src off n s t ∧
        t.Follows k ((s.plan k).write (pieces off n))) s := by
  unfold writei
  apply Passes.gets
  rw [if_neg htype, if_pos hfit]
  have hloop := passes_pieces 0 hs (s.follows_plan k) hbusy hend le_rfl src hfree
  simp only [Nat.zero_add] at hloop
  refine Passes.seq hloop ?_
  rintro _ t - ⟨hfill, hfollows⟩
  have hself := hfill.inode_self
  have hsize : (t.inode k).size = (s.inode k).size := by rw [hself]
  have hinum : (t.inode k).inum = (s.inode k).inum := by rw [hself]
  apply Passes.gets
  rw [hsize]
  by_cases hgrow : 0 < n ∧ (s.inode k).size < off + n
  · rw [if_pos hgrow, if_pos hgrow]
    have hinode : (t.setInode k { t.inode k with size := off + n }).inode k =
        { t.inode k with size := off + n } := Function.update_self _ _ _
    apply Passes.modify rfl
    refine Passes.seq (l := [_]) (Q := fun _ u => u = t.resize k (off + n)) ?_ ?_
    · apply Passes.gets
      apply Passes.modify rfl
      rw [hinode, ← hinum]
      exact passes_logWrite (hfill.busy_eq.trans hbusy)
    rintro _ u - rfl
    refine Passes.pure ⟨rfl, ⟨t, hfill, (if_pos hgrow).symm⟩, fun a ha => ?_, hfollows.free⟩
    exact (t.ref_resize k (off + n) a).trans (hfollows.ref a ha)
  · rw [if_neg hgrow, if_neg hgrow]
    exact Passes.pure ⟨rfl, ⟨t, hfill, (if_neg hgrow).symm⟩, hfollows⟩

end Blocks

end Xv6.Fs
