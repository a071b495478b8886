import Xv6.Fs.Entries

/-!
# The resolution of path names

`namei` and `nameiparent` follow the elements of a path from the root or the current
directory.  On the way they hold a reference to the inode they have reached and its
lock while they read it; at the end all that is left is one reference to the result.
-/

namespace Xv6.Fs

open Support

namespace Volume

/-- The directory entry at offset `off` of inode `i` on disk. -/
def dslot (s : Volume) (i off : ℕ) : Dirent :=
  Dirent.ofBytes ((List.range dirsize).map fun x =>
    fileByte (s.dinode i).addrs s.block (off + x))

/-- The slot at `off` of inode `i` on disk holds the name `t`. -/
def DiskHolds (s : Volume) (i : ℕ) (t : List UInt8) (off : ℕ) : Prop :=
  (s.dslot i off).inum ≠ 0 ∧ text (s.dslot i off).name dirsiz = t

instance (s : Volume) (i : ℕ) (t : List UInt8) : DecidablePred (s.DiskHolds i t) :=
  fun _ => inferInstanceAs (Decidable (_ ∧ _))

/-- The inode number that inode `i`, if it is a directory, has for the name `t`. -/
def child (s : Volume) (i : ℕ) (t : List UInt8) : Option ℕ :=
  if (s.dinode i).type = tDir then
    ((offsets (s.dinode i).size).find? fun off => s.DiskHolds i t off).map fun off =>
      (s.dslot i off).inum
  else none

/-- Look up the names one after the other, starting from inode `i`. -/
def resolve (s : Volume) (i : ℕ) (ts : List (List UInt8)) : Option ℕ :=
  ts.foldlM s.child i

/-- The directory in which the last of the names is to be looked up. -/
def resolveParent (s : Volume) (i : ℕ) (ts : List (List UInt8)) : Option ℕ :=
  if ts = [] then none
  else (s.resolve i ts.dropLast).filter fun i' => (s.dinode i').type = tDir

theorem resolve_nil (s : Volume) (i : ℕ) : s.resolve i [] = some i := rfl

theorem resolve_cons (s : Volume) (i : ℕ) (t : List UInt8) (ts : List (List UInt8)) :
    s.resolve i (t :: ts) = (s.child i t).bind fun i' => s.resolve i' ts := rfl

theorem resolveParent_single (s : Volume) (i : ℕ) (t : List UInt8) :
    s.resolveParent i [t] = if (s.dinode i).type = tDir then some i else none := by
  simp [resolveParent, resolve_nil, Option.filter]

theorem resolveParent_cons (s : Volume) (i : ℕ) (t : List UInt8) {ts : List (List UInt8)}
    (h : ts ≠ []) :
    s.resolveParent i (t :: ts) = (s.child i t).bind fun i' => s.resolveParent i' ts := by
  unfold resolveParent
  rw [if_neg (List.cons_ne_nil t ts), List.dropLast_cons_of_ne_nil h, resolve_cons]
  simp only [if_neg h]
  cases s.child i t <;> rfl

end Volume

/-- The inodes in `T` can be reached by names: all names in directories of `T` lead to
inodes of `T`, which are in use on disk, readable and unlocked, and stay in use as
long as they are linked or referred to. -/
structure Tree (s : Volume) (T : Set ℕ) : Prop where
  coherent : ∀ k, 0 < (s.inode k).ref → (s.inode k).valid = true →
    (s.inode k).toDinode = s.dinode (s.inode k).inum
  unique : ∀ j k, 0 < (s.inode j).ref → 0 < (s.inode k).ref →
    (s.inode j).inum = (s.inode k).inum → j = k
  unlocked : ∀ k, 0 < (s.inode k).ref → (s.inode k).inum ∈ T → (s.inode k).busy = false
  root : rootino ∈ T
  type : ∀ i ∈ T, (s.dinode i).type ≠ 0
  alive : ∀ i ∈ T, (s.dinode i).nlink ≠ 0 ∨ ∃ k, 0 < (s.inode k).ref ∧ (s.inode k).inum = i
  size : ∀ i ∈ T, (s.dinode i).type = tDir →
    (s.dinode i).size ≤ 71680 ∧ 16 ∣ (s.dinode i).size
  present : ∀ i ∈ T, (s.dinode i).type = tDir →
    ∀ bn < 140, 512 * bn < (s.dinode i).size → s.dref i (place bn) ≠ 0
  closed : ∀ i ∈ T, ∀ t i', s.child i t = some i' → i' ∈ T

/-! ## References held on the way -/

/-- One more reference to entry `j`. -/
def hold (held : Fin ninode → ℕ) (j k : Fin ninode) : ℕ :=
  held k + if k = j then 1 else 0

/-- No reference. -/
def noRef (_ : Fin ninode) : ℕ := 0

theorem hold_comm (held : Fin ninode → ℕ) (i j : Fin ninode) :
    hold (hold held i) j = hold (hold held j) i := by
  funext k
  unfold hold
  omega

/-- The state `s'` differs from `s` only in that the references `held` have been taken
and the entries in `lock` have been locked, and in what has been read into the cache. -/
structure Borrowed (s : Volume) (held : Fin ninode → ℕ) (lock : Fin ninode → Bool)
    (s' : Volume) : Prop where
  same : s' = { s with inode := s'.inode }
  ref : ∀ k, (s'.inode k).ref = (s.inode k).ref + held k
  inum : ∀ k, 0 < (s.inode k).ref → (s'.inode k).inum = (s.inode k).inum
  busy : ∀ k, 0 < (s.inode k).ref → (s'.inode k).busy = ((s.inode k).busy || lock k)
  fresh : ∀ k, (s.inode k).ref = 0 → 0 < held k → (s'.inode k).busy = lock k
  stays : ∀ k, 0 < (s.inode k).ref → (s.inode k).valid = true → (s'.inode k).valid = true
  coherent : ∀ k, 0 < (s'.inode k).ref → (s'.inode k).valid = true →
    (s'.inode k).toDinode = s.dinode (s'.inode k).inum
  unique : ∀ j k, 0 < (s'.inode j).ref → 0 < (s'.inode k).ref →
    (s'.inode j).inum = (s'.inode k).inum → j = k
  locks : ∀ k, lock k = true → 0 < held k

/-- No lock. -/
def noLock (_ : Fin ninode) : Bool := false

/-- The lock of entry `j` only. -/
def lockOf (j k : Fin ninode) : Bool := decide (k = j)

section

variable {s s' : Volume} {T : Set ℕ} {held : Fin ninode → ℕ} {lock : Fin ninode → Bool}
  {i : ℕ} {j : Fin ninode}

theorem Tree.borrowed (h : Tree s T) : Borrowed s noRef noLock s where
  same := rfl
  ref _ := rfl
  inum _ _ := rfl
  busy _ _ := by simp [noLock]
  fresh _ _ h := by cases h
  stays _ _ h := h
  coherent := h.coherent
  unique := h.unique
  locks _ h := by cases h

namespace Borrowed

theorem dinode_eq (h : Borrowed s held lock s') : s'.dinode = s.dinode := by
  rw [h.same]

theorem block_eq (h : Borrowed s held lock s') : s'.block = s.block := by
  rw [h.same]

/-- An assignment to an entry of the cache. -/
theorem setInode {ip : Inode} {held' : Fin ninode → ℕ} {lock' : Fin ninode → Bool}
    (h : Borrowed s held lock s') (hheld : ∀ k ≠ j, held' k = held k)
    (hlock : ∀ k ≠ j, lock' k = lock k) (href : ip.ref = (s.inode j).ref + held' j)
    (hinum : 0 < (s.inode j).ref → ip.inum = (s.inode j).inum)
    (hbusy : 0 < (s.inode j).ref → ip.busy = ((s.inode j).busy || lock' j))
    (hfresh : (s.inode j).ref = 0 → 0 < held' j → ip.busy = lock' j)
    (hstays : 0 < (s.inode j).ref → (s.inode j).valid = true → ip.valid = true)
    (hcoherent : 0 < ip.ref → ip.valid = true → ip.toDinode = s.dinode ip.inum)
    (hunique : 0 < ip.ref → ∀ k ≠ j, 0 < (s'.inode k).ref → (s'.inode k).inum ≠ ip.inum)
    (hlocks : lock' j = true → 0 < held' j) :
    Borrowed s held' lock' (s'.setInode j ip) := by
  have hself : (s'.setInode j ip).inode j = ip := Function.update_self _ _ _
  have hother : ∀ k ≠ j, (s'.setInode j ip).inode k = s'.inode k :=
    fun k hk => Function.update_of_ne hk _ _
  refine ⟨?_, fun k => ?_, fun k => ?_, fun k => ?_, fun k => ?_, fun k => ?_, fun k => ?_,
    fun k l => ?_, fun k => ?_⟩
  · rw [h.same]
    rfl
  all_goals by_cases hk : k = j
  · rw [hk, hself, href]
  · rw [hother k hk, h.ref, hheld k hk]
  · rw [hk, hself]
    exact hinum
  · rw [hother k hk]
    exact h.inum k
  · rw [hk, hself]
    exact hbusy
  · rw [hother k hk, hlock k hk]
    exact h.busy k
  · rw [hk, hself]
    exact hfresh
  · rw [hother k hk, hlock k hk, hheld k hk]
    exact h.fresh k
  · rw [hk, hself]
    exact hstays
  · rw [hother k hk]
    exact h.stays k
  · rw [hk, hself]
    exact hcoherent
  · rw [hother k hk]
    exact h.coherent k
  · by_cases hl : l = j
    · rw [hk, hl]
      exact fun _ _ _ => rfl
    · rw [hk, hself, hother l hl]
      intro hip hl' heq
      exact absurd heq.symm (hunique hip l hl hl')
  · by_cases hl : l = j
    · rw [hl, hself, hother k hk]
      intro hk' hip heq
      exact absurd heq (hunique hip k hk hk')
    · rw [hother k hk, hother l hl]
      exact h.unique k l
  · rw [hk]
    exact hlocks
  · rw [hlock k hk, hheld k hk]
    exact h.locks k

/-- Taking a reference. -/
theorem get {s'' : Volume} (h : Borrowed s held lock s') (hgot : Got i s' j s'') :
    Borrowed s (hold held j) lock s'' := by
  have hself : hold held j j = held j + 1 := by simp [hold]
  have href := h.ref j
  rw [hgot.eq]
  by_cases hpos : 0 < (s'.inode j).ref
  · have hip : (s'.inode j).got i = { s'.inode j with ref := (s'.inode j).ref + 1 } := if_pos hpos
    rw [hip]
    refine h.setInode (fun k hk => ?_) (fun _ _ => rfl) ?_ (h.inum j) (h.busy j) ?_ (h.stays j)
      (fun _ => h.coherent j hpos) (fun _ k hk hk' heq => hk (h.unique k j hk' hpos heq)) ?_
    · simp [hold, hk]
    · change (s'.inode j).ref + 1 = _
      omega
    · intro h0 _
      exact h.fresh j h0 (by omega)
    · intro hl
      have := h.locks j hl
      omega
  · have hip : (s'.inode j).got i =
        { s'.inode j with inum := i, ref := 1, busy := false, valid := false } := if_neg hpos
    have hlock : lock j = false := by
      by_contra hl
      have := h.locks j (by simpa using hl)
      omega
    rw [hip]
    refine h.setInode (fun k hk => ?_) (fun _ _ => rfl) ?_ (fun hs => ?_) (fun hs => ?_)
      (fun _ _ => hlock.symm) (fun hs => ?_) (fun _ => nofun)
      (fun _ k _ hk' => hgot.only (by omega) k hk') (fun hl => ?_)
    · simp [hold, hk]
    · change 1 = _
      omega
    · omega
    · omega
    · omega
    · omega

/-- Locking the entry that is held. -/
theorem acquire (h : Borrowed s held noLock s') (hj : 0 < held j) :
    Borrowed s held (lockOf j) (s'.setInode j
      { s'.inode j with toDinode := s.dinode (s'.inode j).inum, busy := true, valid := true }) := by
  have href := h.ref j
  have hself : lockOf j j = true := by simp [lockOf]
  refine h.setInode (fun _ _ => rfl) (fun k hk => ?_) (h.ref j) (h.inum j) (fun _ => ?_)
    (fun _ _ => hself.symm) (fun _ _ => rfl) (fun _ _ => rfl)
    (fun hip k hk hk' heq => hk (h.unique k j hk' hip heq)) (fun _ => hj)
  · simp [lockOf, hk, noLock]
  · rw [hself, Bool.or_true]

/-- Unlocking it again. -/
theorem release (h : Borrowed s held (lockOf j) s')
    (hbusy : 0 < (s.inode j).ref → (s.inode j).busy = false) :
    Borrowed s held noLock (s'.setInode j { s'.inode j with busy := false }) := by
  refine h.setInode (fun _ _ => rfl) (fun k hk => ?_) (h.ref j) (h.inum j) (fun hs => ?_)
    (fun _ _ => rfl) (h.stays j) (h.coherent j)
    (fun hip k hk hk' heq => hk (h.unique k j hk' hip heq)) nofun
  · simp [lockOf, hk, noLock]
  · rw [hbusy hs]
    rfl

/-- Giving a reference back. -/
theorem put (h : Borrowed s (hold held j) noLock s') :
    Borrowed s held noLock (s'.setInode j { s'.inode j with ref := (s'.inode j).ref - 1 }) := by
  have hself : hold held j j = held j + 1 := by simp [hold]
  have href := h.ref j
  have hpos : 0 < (s'.inode j).ref := by omega
  refine h.setInode (fun k hk => ?_) (fun _ _ => rfl) ?_ (h.inum j) (h.busy j) (fun h0 _ => ?_)
    (h.stays j) (fun _ => h.coherent j hpos)
    (fun _ k hk hk' heq => hk (h.unique k j hk' hpos heq)) nofun
  · simp [hold, hk]
  · change (s'.inode j).ref - 1 = _
    omega
  · exact h.fresh j h0 (by omega)

/-- An inode of the tree that is held is not locked. -/
theorem not_busy (h : Borrowed s held noLock s') (ht : Tree s T) (hj : 0 < held j)
    (hT : (s'.inode j).inum ∈ T) : (s'.inode j).busy = false := by
  by_cases hs : 0 < (s.inode j).ref
  · rw [h.busy j hs, ht.unlocked j hs (h.inum j hs ▸ hT)]
    rfl
  · exact h.fresh j (by omega) hj

theorem was_unlocked (h : Borrowed s held lock s') (ht : Tree s T)
    (hT : (s'.inode j).inum ∈ T) : 0 < (s.inode j).ref → (s.inode j).busy = false :=
  fun hs => ht.unlocked j hs (h.inum j hs ▸ hT)

/-- The last reference to an inode of the tree is to one that has links. -/
theorem not_last (h : Borrowed s (hold held j) lock s') (ht : Tree s T)
    (hT : (s'.inode j).inum ∈ T) :
    ¬((s'.inode j).ref = 1 ∧ (s'.inode j).valid = true ∧ (s'.inode j).nlink = 0) := by
  rintro ⟨hone, hvalid, hlink⟩
  have href := h.ref j
  have hself : hold held j j = held j + 1 := by simp [hold]
  have hpos : 0 < (s'.inode j).ref := by omega
  have hcoh := h.coherent j hpos hvalid
  rw [hcoh] at hlink
  rcases ht.alive _ hT with hne | ⟨k, hk, hinum⟩
  · exact hne hlink
  · have hk' : 0 < (s'.inode k).ref := by
      rw [h.ref]
      omega
    have hkj := h.unique k j hk' hpos ((h.inum k hk).trans hinum)
    rw [hkj] at hk
    omega

end Borrowed

/-! ## The functions on the way -/

theorem ilock_run (h : Borrowed s held noLock s') (ht : Tree s T) (hj : 0 < held j)
    (hT : (s'.inode j).inum ∈ T) :
    ilock j s' = (.ok (), s'.setInode j
      { s'.inode j with toDinode := s.dinode (s'.inode j).inum, busy := true, valid := true }) := by
  have href := h.ref j
  have hbusy := h.not_busy ht hj hT
  have hset : (s'.setInode j { s'.inode j with busy := true }).inode j =
      { s'.inode j with busy := true } := Function.update_self _ _ _
  unfold ilock
  rw [Exec.bind_run_ok (show getInode j s' = (.ok (s'.inode j), s') from rfl),
    if_neg (show ¬(s'.inode j).ref < 1 by omega), hbusy, if_neg nofun]
  have hlock : modifyInode j (fun ip => { ip with busy := true }) s' =
      (.ok (), s'.setInode j { s'.inode j with busy := true }) := rfl
  rw [Exec.bind_run_ok hlock]
  cases hvalid : (s'.inode j).valid with
  | true =>
      have hcoh := h.coherent j (by omega) hvalid
      rw [if_neg nofun, Exec.pure_run, ← hcoh, ← hvalid]
  | false =>
      have htype := ht.type _ hT
      rw [if_pos rfl, Exec.bind_run_ok (Exec.gets_run _ _)]
      have hload : modifyInode j (fun ip => { ip with
            toDinode := s.dinode (s'.inode j).inum, valid := true })
            (s'.setInode j { s'.inode j with busy := true }) =
          (.ok (), s'.setInode j { s'.inode j with
            toDinode := s.dinode (s'.inode j).inum, busy := true, valid := true }) := by
        unfold modifyInode
        rw [Exec.modify_run, hset]
        simp [Volume.setInode]
      have hdinode : (s'.setInode j { s'.inode j with busy := true }).dinode = s.dinode :=
        h.dinode_eq
      rw [hdinode, Exec.bind_run_ok hload, if_neg htype, Exec.pure_run]

theorem iunlock_run (h : Borrowed s held (lockOf j) s') :
    iunlock j s' = (.ok (), s'.setInode j { s'.inode j with busy := false }) := by
  have hself : lockOf j j = true := by simp [lockOf]
  have hheld := h.locks j hself
  have href := h.ref j
  have hbusy : (s'.inode j).busy = true := by
    by_cases hs : 0 < (s.inode j).ref
    · rw [h.busy j hs, hself, Bool.or_true]
    · rw [h.fresh j (by omega) hheld, hself]
  unfold iunlock
  rw [Exec.bind_run_ok (show getInode j s' = (.ok (s'.inode j), s') from rfl), hbusy, if_neg]
  · rfl
  · rintro (hb | hr)
    · cases hb
    · omega

theorem iput_run (h : Borrowed s (hold held j) noLock s') (ht : Tree s T)
    (hT : (s'.inode j).inum ∈ T) :
    iput j s' = (.ok (), s'.setInode j { s'.inode j with ref := (s'.inode j).ref - 1 }) := by
  unfold iput
  rw [Exec.bind_run_ok (show getInode j s' = (.ok (s'.inode j), s') from rfl),
    if_neg (h.not_last ht hT)]
  rfl

theorem inum_setInode {ip : Inode} (hinum : ip.inum = (s'.inode j).inum) (k : Fin ninode) :
    ((s'.setInode j ip).inode k).inum = (s'.inode k).inum := by
  by_cases hk : k = j
  · rw [hk, ← hinum]
    exact congrArg Inode.inum (Function.update_self _ _ _)
  · exact congrArg Inode.inum (Function.update_of_ne hk _ _)

/-- Unlocking an inode of the tree and giving the reference back. -/
theorem iunlockput_run (h : Borrowed s (hold held j) (lockOf j) s') (ht : Tree s T)
    (hT : (s'.inode j).inum ∈ T) :
    ∃ s'', iunlockput j s' = (.ok (), s'') ∧ Borrowed s held noLock s'' ∧
      ∀ k, (s''.inode k).inum = (s'.inode k).inum := by
  have hrelease := h.release (h.was_unlocked ht hT)
  obtain ⟨s₁, hs₁⟩ : ∃ s₁, s₁ = s'.setInode j { s'.inode j with busy := false } := ⟨_, rfl⟩
  rw [← hs₁] at hrelease
  have hinum : ∀ k, (s₁.inode k).inum = (s'.inode k).inum := by
    intro k
    rw [hs₁]
    apply inum_setInode
    rfl
  have hinum' : ∀ k, ((s₁.setInode j { s₁.inode j with ref := (s₁.inode j).ref - 1 }).inode k).inum =
      (s₁.inode k).inum := by
    intro k
    apply inum_setInode
    rfl
  refine ⟨_, ?_, hrelease.put, fun k => (hinum' k).trans (hinum k)⟩
  unfold iunlockput
  rw [Exec.bind_run_ok (iunlock_run h), ← hs₁]
  exact iput_run hrelease ht ((hinum j).symm ▸ hT)

/-- The run returns in `Q`, or an entry of the inode cache is needed when all are in use. -/
abbrev served {α : Type} (m : FsM α) (Q : α → Volume → Prop) (s : Volume) : Prop :=
  Exec.wp m Q (fun e s' => e = .igetNoInodes ∧ ∀ k, 0 < (s'.inode k).ref) s

theorem served_iget (i : ℕ) (s' : Volume) :
    served (iget i) (fun j s'' => Got i s' j s'') s' := by
  by_cases hv : s'.Vacant i
  · have hspec := iget_spec (R := fun _ => True) fun _ => hv
    exact Exec.wp_mono hspec (fun _ _ h => h) fun _ _ h => absurd trivial h.2
  · have hfull : iget i s' = (Exec.throw .igetNoInodes : FsM (Fin ninode)) s' := iget_full hv
    apply Exec.wp_congr hfull
    exact Exec.wp_throw.mpr ⟨rfl, fun k => Nat.pos_of_ne_zero fun h0 => hv ⟨k, Or.inl h0⟩⟩

/-! ## One step -/

section

variable {s₂ : Volume}

theorem slot_eq_dslot (hinode : (s₂.inode j).toDinode = s.dinode i) (hblock : s₂.block = s.block)
    (off : ℕ) : s₂.slot j off = s.dslot i off := by
  unfold Volume.slot Volume.dslot Volume.bytes Volume.byte
  rw [hinode, hblock]

theorem child_eq (hinode : (s₂.inode j).toDinode = s.dinode i) (hblock : s₂.block = s.block)
    (htype : (s.dinode i).type = tDir) (t : List UInt8) :
    s.child i t = (s₂.find j t).map fun off => (s₂.slot j off).inum := by
  have hholds (off : ℕ) : s₂.Holds j t off ↔ s.DiskHolds i t off := by
    unfold Volume.Holds Volume.DiskHolds Volume.nameAt
    rw [slot_eq_dslot hinode hblock]
  have hfind : s₂.find j t =
      (offsets (s.dinode i).size).find? fun off => s.DiskHolds i t off := by
    unfold Volume.find
    rw [hinode]
    congr 1
    funext off
    exact decide_eq_decide.mpr (hholds off)
  unfold Volume.child
  rw [if_pos htype, hfind]
  congr 1
  funext off
  rw [slot_eq_dslot hinode hblock]

theorem Tree.listing (ht : Tree s T) (hT : i ∈ T) (hinode : (s₂.inode j).toDinode = s.dinode i)
    (hblock : s₂.block = s.block) (htype : (s.dinode i).type = tDir) : Listing s₂ j := by
  obtain ⟨hmax, haligned⟩ := ht.size i hT htype
  refine ⟨?_, ⟨?_, ?_⟩, ?_⟩
  · rw [hinode]
    exact htype
  · rw [hinode]
    exact hmax
  · intro bn hbn hlt
    rw [hinode] at hlt
    unfold Volume.ref
    rw [hinode, hblock]
    exact ht.present i hT htype bn hbn hlt
  · rw [hinode]
    exact haligned

/-- Looking up a name in a directory of the tree. -/
theorem served_dirlookup (ht : Tree s T) (hT : i ∈ T)
    (hinode : (s₂.inode j).toDinode = s.dinode i) (hblock : s₂.block = s.block)
    (htype : (s.dinode i).type = tDir) (name : Chars) :
    served (dirlookup j name)
      (fun res s₃ => s.child i (text name dirsiz) = none ∧ res = none ∧ s₃ = s₂ ∨
        ∃ off ip i', s.child i (text name dirsiz) = some i' ∧ res = some (ip, off) ∧
          Got i' s₂ ip s₃) s₂ := by
  have hlist := ht.listing hT hinode hblock htype
  have hchild := child_eq hinode hblock htype (text name dirsiz)
  cases hf : s₂.find j (text name dirsiz) with
  | none =>
      rw [hf] at hchild
      exact Exec.wp_of_run (dirlookup_none hlist hf) (Or.inl ⟨hchild, rfl, rfl⟩)
  | some off =>
      rw [hf] at hchild
      apply Exec.wp_congr (dirlookup_some hlist hf)
      refine Exec.wp_seq (served_iget _ s₂) ?_ fun _ _ h => h
      intro ip s₃ hgot
      exact Exec.wp_pure.mpr (Or.inr ⟨off, ip, _, hchild, rfl, hgot⟩)

/-- Locking the inode that has been reached. -/
theorem Borrowed.visit (h : Borrowed s held noLock s') (ht : Tree s T) (hj : 0 < held j)
    (hi : (s'.inode j).inum = i) (hT : i ∈ T) :
    ∃ s₂, ilock j s' = (.ok (), s₂) ∧ Borrowed s held (lockOf j) s₂ ∧
      (s₂.inode j).toDinode = s.dinode i ∧ (s₂.inode j).inum = i := by
  have hrun := ilock_run h ht hj (hi.symm ▸ hT)
  refine ⟨_, hrun, h.acquire hj, ?_, ?_⟩
  · rw [Volume.inode_setInode, ← hi]
  · rw [Volume.inode_setInode, ← hi]

end

/-- The outcome of a resolution whose result is to be `r`: one reference to that inode
has been taken, or none. -/
def Found (s : Volume) (r : Option ℕ) (res : Option (Fin ninode)) (s' : Volume) : Prop :=
  r = none ∧ res = none ∧ Borrowed s noRef noLock s' ∨
    ∃ i j, r = some i ∧ res = some j ∧ (s'.inode j).inum = i ∧ Borrowed s (hold noRef j) noLock s'

/-- The inode that `namex` is to return. -/
def Volume.target (s : Volume) (nameiparent : Bool) (i : ℕ) (ts : List (List UInt8)) : Option ℕ :=
  if nameiparent then s.resolveParent i ts else s.resolve i ts

theorem target_of_not_dir (nameiparent : Bool) (htype : (s.dinode i).type ≠ tDir)
    (t : List UInt8) (ts : List (List UInt8)) : s.target nameiparent i (t :: ts) = none := by
  have hchild : s.child i t = none := if_neg htype
  unfold Volume.target
  cases nameiparent with
  | false =>
      rw [if_neg nofun, Volume.resolve_cons, hchild]
      rfl
  | true =>
      rw [if_pos rfl]
      by_cases hts : ts = []
      · rw [hts, Volume.resolveParent_single, if_neg htype]
      · rw [Volume.resolveParent_cons s i t hts, hchild]
        rfl

theorem target_cons {nameiparent : Bool} {ts : List (List UInt8)}
    (h : ¬(nameiparent = true ∧ ts = [])) (t : List UInt8) :
    s.target nameiparent i (t :: ts) =
      (s.child i t).bind fun i' => s.target nameiparent i' ts := by
  unfold Volume.target
  cases nameiparent with
  | false => exact s.resolve_cons i t ts
  | true => exact s.resolveParent_cons i t fun hts => h ⟨rfl, hts⟩

theorem components_length_lt {path rest : List UInt8} {name name' : Chars}
    (h : skipelem path name = some (rest, name')) :
    (components rest).length < (components path).length := by
  rw [(skipelem_eq_some h).1]
  exact Nat.lt_succ_self _

/-- The loop of `namex`. -/
theorem served_namexFrom (ht : Tree s T) (nameiparent : Bool) {n : ℕ} {path : List UInt8}
    {name : Chars} (hlen : (components path).length < n)
    (h : Borrowed s (hold noRef j) noLock s') (hi : (s'.inode j).inum = i) (hT : i ∈ T) :
    served (namexFrom nameiparent n j path name)
      (fun res s'' => Found s (s.target nameiparent i (components path)) res.1 s'' ∧
        (nameiparent = true → res.1 ≠ none →
          (components path).getLast? = some (text res.2 dirsiz))) s' := by
  have hone : 0 < hold noRef j j := by simp [hold]
  induction n generalizing path name i j s' with
  | zero => omega
  | succ n ih =>
      unfold namexFrom
      cases hskip : skipelem path name with
      | none =>
          have hnil := skipelem_eq_none_iff.mp hskip
          simp only [hnil]
          cases nameiparent with
          | true =>
              rw [if_pos rfl]
              apply Exec.wp_bind.mpr
              apply Exec.wp_of_run (iput_run h ht (hi.symm ▸ hT))
              exact Exec.wp_pure.mpr ⟨Or.inl ⟨rfl, rfl, h.put⟩, fun _ hne => absurd rfl hne⟩
          | false =>
              rw [if_neg nofun]
              exact Exec.wp_pure.mpr ⟨Or.inr ⟨i, j, rfl, rfl, hi, h⟩, nofun⟩
      | some r =>
          obtain ⟨rest, name'⟩ := r
          obtain ⟨hcomp, hend⟩ := skipelem_eq_some hskip
          have hshort := components_length_lt hskip
          obtain ⟨s₂, hlock, hb, hinode, hinum⟩ := h.visit ht hone hi hT
          have htype : (s₂.inode j).type = (s.dinode i).type := by rw [hinode]
          simp only [hcomp]
          apply Exec.wp_bind.mpr
          apply Exec.wp_of_run hlock
          apply Exec.wp_bind.mpr
          apply Exec.wp_gets.mpr
          by_cases hdir : (s.dinode i).type = tDir
          · rw [if_neg (not_not.mpr (htype.trans hdir))]
            by_cases hlast : nameiparent = true ∧ deref rest = 0
            · obtain ⟨rfl, hnul⟩ := hlast
              have hnil := hend.mp hnul
              have hrelease := hb.release (hb.was_unlocked ht (hinum.symm ▸ hT))
              rw [if_pos ⟨rfl, hnul⟩, hnil]
              apply Exec.wp_bind.mpr
              apply Exec.wp_of_run (iunlock_run hb)
              refine Exec.wp_pure.mpr ⟨Or.inr ⟨i, j, ?_, rfl, ?_, hrelease⟩, fun _ _ => rfl⟩
              · exact (s.resolveParent_single i (text name' dirsiz)).trans (if_pos hdir)
              · rw [Volume.inode_setInode]
                exact hinum
            · have hmore : ¬(nameiparent = true ∧ components rest = []) := by
                rwa [← hend]
              rw [if_neg hlast]
              refine Exec.wp_seq (served_dirlookup ht hT hinode hb.block_eq hdir name') ?_
                fun _ _ h => h
              rintro _ s₃ (⟨hchild, rfl, rfl⟩ | ⟨off, next, i', hchild, rfl, hgot⟩)
              · obtain ⟨s₃, hrun, hb', -⟩ := iunlockput_run hb ht (hinum.symm ▸ hT)
                apply Exec.wp_bind.mpr
                apply Exec.wp_of_run hrun
                refine Exec.wp_pure.mpr ⟨Or.inl ⟨?_, rfl, hb'⟩, fun _ hne => absurd rfl hne⟩
                rw [target_cons hmore, hchild]
                rfl
              · have hb₃ := hb.get hgot
                rw [hold_comm] at hb₃
                have hinum₃ : (s₃.inode j).inum = i := by
                  have href := hb.ref j
                  rw [hgot.kept (by omega)]
                  exact hinum
                obtain ⟨s₄, hrun, hb', hsame⟩ := iunlockput_run hb₃ ht (hinum₃.symm ▸ hT)
                have hnext : (s₄.inode next).inum = i' := (hsame next).trans hgot.inum_self
                apply Exec.wp_bind.mpr
                apply Exec.wp_of_run hrun
                refine Exec.wp_mono (ih (by omega) hb' hnext (ht.closed i hT _ i' hchild)
                  (by simp [hold])) ?_ fun _ _ h => h
                rintro res s'' ⟨hfound, hname⟩
                rw [target_cons hmore, hchild]
                refine ⟨hfound, fun hp hne => ?_⟩
                have hrest := hname hp hne
                cases hc : components rest with
                | nil => exact absurd ⟨hp, hc⟩ hmore
                | cons t ts =>
                    rw [hc] at hrest
                    rw [List.getLast?_cons_cons]
                    exact hrest
          · obtain ⟨s₃, hrun, hb', -⟩ := iunlockput_run hb ht (hinum.symm ▸ hT)
            rw [if_pos (htype.trans_ne hdir)]
            apply Exec.wp_bind.mpr
            apply Exec.wp_of_run hrun
            exact Exec.wp_pure.mpr
              ⟨Or.inl ⟨target_of_not_dir nameiparent hdir _ _, rfl, hb'⟩,
                fun _ hne => absurd rfl hne⟩

/-- The inode at which `namex` starts. -/
def Volume.start (s : Volume) (cwd : Fin ninode) (path : List UInt8) : ℕ :=
  if deref path = slash then rootino else (s.inode cwd).inum

theorem served_namex (ht : Tree s T) {cwd : Fin ninode} (hcwd : 0 < (s.inode cwd).ref)
    (hT : (s.inode cwd).inum ∈ T) (path : List UInt8) (nameiparent : Bool) (name : Chars) :
    served (namex cwd path nameiparent name)
      (fun res s' =>
        Found s (s.target nameiparent (s.start cwd path) (components path)) res.1 s' ∧
          (nameiparent = true → res.1 ≠ none →
            (components path).getLast? = some (text res.2 dirsiz))) s := by
  have hlen := Nat.lt_succ_of_le (length_components_le path)
  unfold namex
  by_cases hroot : deref path = slash
  · have hstart : s.start cwd path = rootino := if_pos hroot
    rw [if_pos hroot, hstart]
    refine Exec.wp_seq (served_iget rootino s) ?_ fun _ _ h => h
    intro j s' hgot
    exact served_namexFrom ht nameiparent hlen (ht.borrowed.get hgot) hgot.inum_self ht.root
  · have hstart : s.start cwd path = (s.inode cwd).inum := if_neg hroot
    rw [if_neg hroot, hstart]
    have hgot : Got (s.inode cwd).inum s cwd
        (s.setInode cwd { s.inode cwd with ref := (s.inode cwd).ref + 1 }) := by
      refine ⟨?_, fun _ => rfl, fun h0 => by omega⟩
      rw [Inode.got, if_pos hcwd]
    apply Exec.wp_bind.mpr
    unfold idup
    apply Exec.wp_bind.mpr
    apply Exec.wp_modify.mpr
    apply Exec.wp_pure.mpr
    exact served_namexFrom ht nameiparent hlen (ht.borrowed.get hgot) hgot.inum_self hT

/-- `namei` looks up the elements of the path one after the other, `nameiparent` all
but the last.  Either takes one reference to the inode it returns and leaves all other
references and all locks. -/
theorem namei_resolves (ht : Tree s T) {cwd : Fin ninode} (hcwd : 0 < (s.inode cwd).ref)
    (hT : (s.inode cwd).inum ∈ T) (path : List UInt8) (name : Chars) :
    served (namei cwd path name)
      (fun res s' => Found s (s.resolve (s.start cwd path) (components path)) res s') s ∧
    served (nameiparent cwd path name)
      (fun res s' =>
        Found s (s.resolveParent (s.start cwd path) (components path)) res.1 s' ∧
          (res.1 ≠ none → (components path).getLast? = some (text res.2 dirsiz))) s := by
  constructor
  · refine Exec.wp_seq (served_namex ht hcwd hT path false name) ?_ fun _ _ h => h
    rintro res s' ⟨hfound, -⟩
    exact Exec.wp_pure.mpr hfound
  · refine Exec.wp_mono (served_namex ht hcwd hT path true name) ?_ fun _ _ h => h
    rintro res s' ⟨hfound, hname⟩
    exact ⟨hfound, hname rfl⟩

end

/-- The entries of a directory with a name of one letter besides the two dots. -/
def threeSlots (self parent c inum : UInt8) : List UInt8 :=
  [self, 0, 46] ++ List.replicate 13 0 ++ [parent, 0, 46, 46] ++ List.replicate 12 0 ++
    [inum, 0, c]

/-- A disk with a root directory, a directory `d` in it and an empty file `f` in that; the
root is the only inode in the cache. -/
def twoLevels : Volume where
  ninodes := 200
  size := 25045
  block b i :=
    if b = 35 then Chars.ofList (threeSlots 1 1 100 2) i.val
    else if b = 36 then Chars.ofList (threeSlots 2 1 102 3) i.val
    else Block.zero i
  used b := decide (b < 37)
  dinode i :=
    if i = 1 then ⟨tDir, 0, 0, 2, 48, fun a => if a = 0 then 35 else 0⟩
    else if i = 2 then ⟨tDir, 0, 0, 1, 48, fun a => if a = 0 then 36 else 0⟩
    else if i = 3 then ⟨tFile, 0, 0, 1, 0, fun _ => 0⟩
    else Dinode.zero
  inode k :=
    if k.val = 0 then ⟨⟨tDir, 0, 0, 2, 48, fun a => if a = 0 then 35 else 0⟩, 1, 1, false, true⟩
    else ⟨Dinode.zero, 0, 0, false, false⟩
  log := ⟨false, [], 10⟩
  devsw _ := none

theorem twoLevels_child {i i' : ℕ} {t : List UInt8} (hi : i = 1 ∨ i = 2 ∨ i = 3)
    (h : twoLevels.child i t = some i') : i' = 1 ∨ i' = 2 ∨ i' = 3 := by
  have hslots : ∀ i, i = 1 ∨ i = 2 → ∀ off ∈ offsets 48,
      (twoLevels.dslot i off).inum = 1 ∨ (twoLevels.dslot i off).inum = 2 ∨
        (twoLevels.dslot i off).inum = 3 := by
    rintro i (rfl | rfl) <;> decide +kernel
  unfold Volume.child at h
  rcases hi with rfl | rfl | rfl
  · rw [if_pos (show (twoLevels.dinode 1).type = tDir from rfl), Option.map_eq_some_iff] at h
    obtain ⟨off, hfind, rfl⟩ := h
    exact hslots 1 (Or.inl rfl) off (List.mem_of_find?_eq_some hfind)
  · rw [if_pos (show (twoLevels.dinode 2).type = tDir from rfl), Option.map_eq_some_iff] at h
    obtain ⟨off, hfind, rfl⟩ := h
    exact hslots 2 (Or.inr rfl) off (List.mem_of_find?_eq_some hfind)
  · rw [if_neg (by decide)] at h
    cases h

theorem tree_twoLevels : Tree twoLevels {i | i = 1 ∨ i = 2 ∨ i = 3} := by
  have honly : ∀ k, 0 < (twoLevels.inode k).ref → k = 0 := by
    intro k hk
    by_contra hne
    have hfree : twoLevels.inode k = ⟨Dinode.zero, 0, 0, false, false⟩ :=
      if_neg fun h => hne (Fin.ext h)
    rw [hfree] at hk
    exact lt_irrefl 0 hk
  refine ⟨?_, ?_, ?_, Or.inl rfl, ?_, ?_, ?_, ?_, ?_⟩
  · intro k hk _
    rw [honly k hk]
    rfl
  · intro j k hj hk _
    rw [honly j hj, honly k hk]
  · intro k hk _
    rw [honly k hk]
    rfl
  · rintro i (rfl | rfl | rfl) <;> decide
  · rintro i (rfl | rfl | rfl) <;> exact Or.inl (by decide)
  · rintro i (rfl | rfl | rfl) _ <;> decide
  · rintro i (rfl | rfl | rfl) htype bn hbn hlt
    · change 512 * bn < 48 at hlt
      obtain rfl : bn = 0 := by omega
      decide
    · change 512 * bn < 48 at hlt
      obtain rfl : bn = 0 := by omega
      decide
    · exact absurd htype (by decide)
  · intro i hi t i' h
    exact twoLevels_child hi h

/-- Resolve `/d/f`. -/
theorem namei_resolves_twoLevels :
    served (namei 0 [47, 100, 47, 102] fun _ => 0)
      (fun res s' => ∃ j, res = some j ∧ (s'.inode j).inum = 3 ∧
        (s'.inode j).ref = (twoLevels.inode j).ref + 1) twoLevels := by
  have hstart : twoLevels.start 0 [47, 100, 47, 102] = 1 := rfl
  have hresolve : twoLevels.resolve 1 (components [47, 100, 47, 102]) = some 3 := by
    decide +kernel
  refine Exec.wp_mono (namei_resolves tree_twoLevels (show 0 < (twoLevels.inode 0).ref by decide)
    (Or.inl rfl) [47, 100, 47, 102] fun _ => 0).1 ?_ fun _ _ h => h
  rintro res s' (⟨hnone, -⟩ | ⟨i, j, hsome, hres, hinum, hb⟩)
  · rw [hstart, hresolve] at hnone
    cases hnone
  · rw [hstart, hresolve] at hsome
    cases hsome
    refine ⟨j, hres, hinum, ?_⟩
    rw [hb.ref]
    simp [hold, noRef]

end Xv6.Fs
