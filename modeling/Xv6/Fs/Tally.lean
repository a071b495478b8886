import Xv6.Fs.Calls
import Xv6.Fs.Resolve
import Xv6.Support.Count

/-!
# References and locks of the inode cache

What each function of the file system does to the reference counts and the locks of the
inode cache, whatever the disk holds.  A tally says how many references there are to each
entry and which entries are locked; a function that meets its tally never stops in one of
the panics about reference counts and locks.
-/

namespace Xv6

open Support

/-- The panics of `fs.c` and `file.c` about reference counts, locks and types of files. -/
def Stop.ofTables : Stop → Bool
  | .ilock | .iunlock | .iputBusy | .filedup | .fileclose | .fileread | .filewrite => true
  | _ => false

/-- What `m` returns satisfies `Q`, and it stops in none of these panics. -/
abbrev guarded {σ α : Type} (m : Exec σ Stop α) (Q : α → σ → Prop) (s : σ) : Prop :=
  Exec.wp m Q (fun e _ => e.ofTables = false) s

section

variable {σ α β : Type} {m : Exec σ Stop α} {Q : α → σ → Prop} {s : σ}

theorem guarded_seq {f : α → Exec σ Stop β} {Q' : β → σ → Prop} (h : guarded m Q s)
    (hf : ∀ a s', Q a s' → guarded (f a) Q' s') : guarded (m >>= f) Q' s :=
  Exec.wp_seq h hf fun _ _ he => he

theorem guarded_mono {Q' : α → σ → Prop} (h : guarded m Q s)
    (hQ : ∀ a s', Q a s' → Q' a s') : guarded m Q' s :=
  Exec.wp_mono h hQ fun _ _ he => he

end

namespace Fs

/-! ## Functions that leave the cache alone -/

/-- The fields of the entries of the inode cache that references and locks are about. -/
def Volume.tags (s : Volume) (k : Fin ninode) : ℕ × ℕ × Bool :=
  ((s.inode k).ref, (s.inode k).inum, (s.inode k).busy)

/-- The references and locks are as before, and so is the log if no transaction runs. -/
structure Same (s s' : Volume) : Prop where
  tags : s'.tags = s.tags
  busy : s'.log.busy = s.log.busy
  idle : s.log.busy = false → s'.log.sector = s.log.sector

theorem Same.refl (s : Volume) : Same s s :=
  ⟨rfl, rfl, fun _ => rfl⟩

theorem Same.trans {s s' s'' : Volume} (h : Same s s') (h' : Same s' s'') : Same s s'' :=
  ⟨h'.tags.trans h.tags, h'.busy.trans h.busy,
    fun h0 => (h'.idle (h.busy.trans h0)).trans (h.idle h0)⟩

/-- The computation does not take or give back references and locks, and it records nothing
outside of a transaction. -/
def Neutral {α : Type} (m : FsM α) : Prop :=
  ∀ s, guarded m (fun _ s' => Same s s') s

namespace Neutral

variable {α β : Type}

theorem pure {a : α} : Neutral (Pure.pure a) := fun s => Exec.wp_pure.mpr (Same.refl s)

theorem throw {e : Stop} (h : e.ofTables = false) : Neutral (Exec.throw e : FsM α) :=
  fun _ => Exec.wp_throw.mpr h

theorem gets {f : Volume → α} : Neutral (Exec.gets f) :=
  fun s => Exec.wp_gets.mpr (Same.refl s)

theorem modify {f : Volume → Volume} (h : ∀ s, (f s).tags = s.tags ∧ (f s).log = s.log) :
    Neutral (Exec.modify f) := by
  intro s
  obtain ⟨htags, hlog⟩ := h s
  exact Exec.wp_modify.mpr ⟨htags, by rw [hlog], fun _ => by rw [hlog]⟩

theorem bind {m : FsM α} {f : α → FsM β} (hm : Neutral m) (hf : ∀ a, Neutral (f a)) :
    Neutral (m >>= f) :=
  fun s => guarded_seq (hm s) fun a s' hs =>
    guarded_mono (hf a s') fun _ _ hs' => hs.trans hs'

theorem ite {c : Prop} [Decidable c] {m m' : FsM α} (hm : Neutral m) (hm' : Neutral m') :
    Neutral (if c then m else m') := by
  split
  · exact hm
  · exact hm'

theorem each {f : α → FsM Unit} (hf : ∀ a, Neutral (f a)) (as : List α) :
    Neutral (Exec.each f as) := by
  induction as with
  | nil => exact pure
  | cons a as ih => exact bind (hf a) fun _ => ih

end Neutral

theorem Volume.inode_setInode_of_ne {s : Volume} {j k : Fin ninode} {ip : Inode} (h : j ≠ k) :
    (s.setInode k ip).inode j = s.inode j :=
  Function.update_of_ne h _ _

/-- An assignment to other fields of an entry. -/
theorem neutral_modifyInode {k : Fin ninode} {f : Inode → Inode}
    (h : ∀ ip, (f ip).ref = ip.ref ∧ (f ip).inum = ip.inum ∧ (f ip).busy = ip.busy) :
    Neutral (modifyInode k f) := by
  apply Neutral.modify
  intro s
  refine ⟨?_, rfl⟩
  funext j
  obtain ⟨href, hinum, hbusy⟩ := h (s.inode k)
  unfold Volume.tags
  by_cases hj : j = k
  · subst hj
    rw [Volume.inode_setInode, href, hinum, hbusy]
  · rw [Volume.inode_setInode_of_ne hj]

theorem neutral_logWrite (b : ℕ) : Neutral (logWrite b) := by
  intro s
  unfold logWrite
  apply Exec.wp_bind.mpr
  apply Exec.wp_gets.mpr
  split
  · exact Exec.wp_throw.mpr rfl
  · split
    · exact Exec.wp_throw.mpr rfl
    · rename_i hbusy
      exact Exec.wp_modify.mpr ⟨rfl, rfl, fun h0 => absurd h0 hbusy⟩

theorem neutral_balloc : Neutral balloc := by
  unfold balloc
  apply Neutral.bind Neutral.gets
  intro s
  cases firstFree s.size s.used with
  | none => exact Neutral.throw rfl
  | some b =>
      refine Neutral.bind (Neutral.modify ?_) fun _ => ?_
      · exact fun _ => ⟨rfl, rfl⟩
      apply Neutral.bind (neutral_logWrite _)
      intro _
      apply Neutral.bind
      · refine Neutral.bind (Neutral.modify ?_) fun _ => neutral_logWrite b
        exact fun _ => ⟨rfl, rfl⟩
      · exact fun _ => Neutral.pure

theorem neutral_bfree (b : ℕ) : Neutral (bfree b) := by
  unfold bfree
  apply Neutral.bind Neutral.gets
  intro s
  apply Neutral.ite
  · exact Neutral.throw rfl
  · refine Neutral.bind (Neutral.modify ?_) fun _ => neutral_logWrite _
    exact fun _ => ⟨rfl, rfl⟩

theorem neutral_iupdate (k : Fin ninode) : Neutral (iupdate k) := by
  unfold iupdate
  apply Neutral.bind Neutral.gets
  intro ip
  refine Neutral.bind (Neutral.modify ?_) fun _ => ?_
  · exact fun _ => ⟨rfl, rfl⟩
  exact neutral_logWrite _

theorem neutral_itrunc (k : Fin ninode) : Neutral (itrunc k) := by
  have hend : Neutral (modifyInode k (fun ip => { ip with size := 0 }) >>= fun _ => iupdate k) :=
    Neutral.bind (neutral_modifyInode fun _ => ⟨rfl, rfl, rfl⟩) fun _ => neutral_iupdate k
  unfold itrunc
  apply Neutral.bind
  · apply Neutral.each
    intro i
    unfold truncDirect
    apply Neutral.bind Neutral.gets
    intro ip
    apply Neutral.ite
    · apply Neutral.bind (neutral_bfree _)
      exact fun _ => neutral_modifyInode fun _ => ⟨rfl, rfl, rfl⟩
    · exact Neutral.pure
  · intro _
    apply Neutral.bind Neutral.gets
    intro ip
    apply Neutral.ite
    · apply Neutral.bind Neutral.gets
      intro a
      apply Neutral.bind
      · apply Neutral.each
        intro j
        exact Neutral.ite (neutral_bfree _) Neutral.pure
      · intro _
        apply Neutral.bind (neutral_bfree _)
        intro _
        refine Neutral.bind (neutral_modifyInode ?_) fun _ => hend
        exact fun _ => ⟨rfl, rfl, rfl⟩
    · exact hend

theorem neutral_orBalloc {addr : ℕ} {store : ℕ → FsM Unit} (h : ∀ b, Neutral (store b)) :
    Neutral (orBalloc addr store) := by
  unfold orBalloc
  apply Neutral.ite
  · apply Neutral.bind neutral_balloc
    intro b
    apply Neutral.bind (h b)
    exact fun _ => Neutral.pure
  · exact Neutral.pure

theorem neutral_bmap (k : Fin ninode) (bn : ℕ) : Neutral (bmap k bn) := by
  have hstore : ∀ i b, Neutral (storeAddr k i b) := fun i b =>
    neutral_modifyInode fun _ => ⟨rfl, rfl, rfl⟩
  unfold bmap
  apply Neutral.bind Neutral.gets
  intro ip
  apply Neutral.ite
  · exact neutral_orBalloc (hstore bn)
  · apply Neutral.ite
    · apply Neutral.bind (neutral_orBalloc (hstore _))
      intro addr
      apply Neutral.bind Neutral.gets
      intro a
      apply neutral_orBalloc
      intro b
      refine Neutral.bind (Neutral.modify ?_) fun _ => neutral_logWrite addr
      exact fun _ => ⟨rfl, rfl⟩
    · exact Neutral.throw rfl

theorem neutral_readi (k : Fin ninode) (off n : ℕ) : Neutral (readi k off n) := by
  have hpieces : ∀ ps, Neutral (readPieces k ps) := by
    intro ps
    induction ps with
    | nil => exact Neutral.pure
    | cons p ps ih =>
        apply Neutral.bind (neutral_bmap _ _)
        intro b
        apply Neutral.bind Neutral.gets
        intro d
        apply Neutral.bind ih
        exact fun _ => Neutral.pure
  unfold readi
  apply Neutral.bind Neutral.gets
  intro ip
  apply Neutral.ite
  · exact Neutral.bind Neutral.gets fun _ => Neutral.pure
  · cases readCount ip.size off n with
    | none => exact Neutral.pure
    | some n => exact Neutral.bind (hpieces _) fun _ => Neutral.pure

theorem neutral_writei (k : Fin ninode) (src : Chars) (off n : ℕ) :
    Neutral (writei k src off n) := by
  have hpieces : ∀ ps, Neutral (writePieces k src ps) := by
    intro ps
    induction ps with
    | nil => exact Neutral.pure
    | cons p ps ih =>
        apply Neutral.bind (neutral_bmap _ _)
        intro b
        refine Neutral.bind (Neutral.modify ?_) fun _ => ?_
        · exact fun _ => ⟨rfl, rfl⟩
        apply Neutral.bind (neutral_logWrite b)
        exact fun _ => ih
  unfold writei
  apply Neutral.bind Neutral.gets
  intro ip
  apply Neutral.ite
  · exact Neutral.bind Neutral.gets fun _ => Neutral.pure
  · apply Neutral.ite
    · apply Neutral.bind (hpieces _)
      intro _
      apply Neutral.bind Neutral.gets
      intro ip'
      apply Neutral.ite
      · refine Neutral.bind (neutral_modifyInode ?_) fun _ => ?_
        · exact fun _ => ⟨rfl, rfl, rfl⟩
        · exact Neutral.bind (neutral_iupdate k) fun _ => Neutral.pure
      · exact Neutral.pure
    · exact Neutral.pure

theorem neutral_readDirent (k : Fin ninode) (off : ℕ) {e : Stop} (he : e.ofTables = false) :
    Neutral (readDirent k off e) := by
  unfold readDirent
  apply Neutral.bind (neutral_readi _ _ _)
  intro r
  cases r with
  | none => exact Neutral.throw he
  | some cs => exact Neutral.ite (Neutral.throw he) Neutral.pure

theorem neutral_emptyDirent (k : Fin ninode) (last : ℕ) (offs : List ℕ) :
    Neutral (emptyDirent k last offs) := by
  induction offs with
  | nil => exact Neutral.pure
  | cons off offs ih =>
      apply Neutral.bind (neutral_readDirent k off rfl)
      intro de
      exact Neutral.ite Neutral.pure ih

theorem neutral_isdirempty (k : Fin ninode) : Neutral (isdirempty k) := by
  have hfrom : ∀ offs, Neutral (isdiremptyFrom k offs) := by
    intro offs
    induction offs with
    | nil => exact Neutral.pure
    | cons off offs ih =>
        apply Neutral.bind (neutral_readDirent k off rfl)
        intro de
        exact Neutral.ite Neutral.pure ih
  exact Neutral.bind Neutral.gets fun _ => hfrom _

theorem neutral_isFullDir (k : Fin ninode) : Neutral (isFullDir k) := by
  unfold isFullDir
  apply Neutral.bind Neutral.gets
  intro i
  apply Neutral.ite
  · exact Neutral.bind (neutral_isdirempty k) fun _ => Neutral.pure
  · exact Neutral.pure

theorem neutral_clearDirent (k : Fin ninode) (off : ℕ) : Neutral (clearDirent k off) := by
  unfold clearDirent
  apply Neutral.bind (neutral_writei _ _ _ _)
  intro r
  exact Neutral.ite (Neutral.throw rfl) Neutral.pure

/-! ## References and locks -/

/-- There are `held` references to the entries of the inode cache, the entries in `lock` are
locked, and `b` tells whether a transaction runs. -/
structure Tally (held : Fin ninode → ℕ) (lock : Finset (Fin ninode)) (b : Bool) (s : Volume) :
    Prop where
  ref : ∀ k, (s.inode k).ref = held k
  busy : ∀ k, (s.inode k).busy = true ↔ k ∈ lock
  unique : ∀ j k, 0 < held j → 0 < held k → (s.inode j).inum = (s.inode k).inum → j = k
  locks : ∀ k ∈ lock, 0 < held k
  trans : s.log.busy = b
  idle : b = false → s.log.sector = []

theorem hold_self (held : Fin ninode → ℕ) (j : Fin ninode) : hold held j j = held j + 1 := by
  rw [hold, if_pos rfl]

theorem hold_of_ne {held : Fin ninode → ℕ} {j k : Fin ninode} (h : k ≠ j) :
    hold held j k = held k := by
  rw [hold, if_neg h, Nat.add_zero]

section

variable {s s' : Volume} {held held' : Fin ninode → ℕ} {lock lock' : Finset (Fin ninode)}
  {b : Bool} {i : ℕ} {j k : Fin ninode} {ip : Inode}

namespace Tally

theorem of_same (h : Tally held lock b s) (hsame : Same s s') : Tally held lock b s' := by
  have htag : ∀ k, (s'.inode k).ref = (s.inode k).ref ∧ (s'.inode k).inum = (s.inode k).inum ∧
      (s'.inode k).busy = (s.inode k).busy := by
    intro k
    have hk := congrFun hsame.tags k
    simpa [Volume.tags] using hk
  constructor
  · intro k
    rw [(htag k).1, h.ref]
  · intro k
    rw [(htag k).2.2, h.busy]
  · intro j k
    rw [(htag j).2.1, (htag k).2.1]
    exact h.unique j k
  · exact h.locks
  · rw [hsame.busy, h.trans]
  · intro h0
    rw [hsame.idle (h.trans.trans h0), h.idle h0]

/-- An assignment to an entry. -/
theorem setInode (h : Tally held lock b s) (hheld : ∀ k ≠ j, held' k = held k)
    (hlock : ∀ k ≠ j, k ∈ lock' ↔ k ∈ lock) (href : ip.ref = held' j)
    (hbusy : ip.busy = true ↔ j ∈ lock')
    (hunique : 0 < held' j → ∀ k ≠ j, 0 < held k → (s.inode k).inum ≠ ip.inum)
    (hlocks : j ∈ lock' → 0 < held' j) : Tally held' lock' b (s.setInode j ip) := by
  have hself := s.inode_setInode j ip
  have hother : ∀ k ≠ j, (s.setInode j ip).inode k = s.inode k :=
    fun k hk => Volume.inode_setInode_of_ne hk
  refine ⟨fun k => ?_, fun k => ?_, fun k l => ?_, fun k => ?_, h.trans, h.idle⟩
  all_goals by_cases hk : k = j
  · rw [hk, hself, href]
  · rw [hother k hk, hheld k hk, h.ref]
  · rw [hk, hself, hbusy]
  · rw [hother k hk, hlock k hk, h.busy]
  · by_cases hl : l = j
    · exact fun _ _ _ => hk.trans hl.symm
    · rw [hk, hself, hother l hl, hheld l hl]
      exact fun hj hl' heq => absurd heq.symm (hunique hj l hl hl')
  · by_cases hl : l = j
    · rw [hl, hself, hother k hk, hheld k hk]
      exact fun hk' hj heq => absurd heq (hunique hj k hk hk')
    · rw [hother k hk, hother l hl, hheld k hk, hheld l hl]
      exact h.unique k l
  · rw [hk]
    exact hlocks
  · rw [hlock k hk, hheld k hk]
    exact h.locks k

/-- Taking a reference. -/
theorem get (h : Tally held lock b s) (hgot : Got i s j s') : Tally (hold held j) lock b s' := by
  have href := h.ref j
  have hself := hold_self held j
  have hheld : ∀ k ≠ j, hold held j k = held k := fun k hk => hold_of_ne hk
  have hlocks : j ∈ lock → 0 < hold held j j := fun _ => by omega
  rw [hgot.eq]
  by_cases hpos : 0 < (s.inode j).ref
  · have hip : (s.inode j).got i = { s.inode j with ref := (s.inode j).ref + 1 } := if_pos hpos
    rw [hip]
    refine h.setInode hheld (fun _ _ => Iff.rfl) ?_ (h.busy j) ?_ hlocks
    · rw [hself, ← href]
    · intro _ k hk hk' heq
      exact hk (h.unique k j hk' (href ▸ hpos) heq)
  · have hip : (s.inode j).got i =
        { s.inode j with inum := i, ref := 1, busy := false, valid := false } := if_neg hpos
    have hfree : j ∉ lock := fun hl => by
      have := h.locks j hl
      omega
    rw [hip]
    refine h.setInode hheld (fun _ _ => Iff.rfl) ?_ (by simpa using hfree) ?_ hlocks
    · change 1 = _
      omega
    · intro _ k hk hk'
      exact hgot.only (by omega) k (h.ref k ▸ hk')

/-- Giving a reference back. -/
theorem put (h : Tally (hold held j) lock b s) (hl : j ∈ lock → 0 < held j) :
    Tally held lock b (s.setInode j { s.inode j with ref := (s.inode j).ref - 1 }) := by
  have href := h.ref j
  have hself := hold_self held j
  refine h.setInode (fun k hk => (hold_of_ne hk).symm) (fun _ _ => Iff.rfl) ?_ (h.busy j) ?_ hl
  · change (s.inode j).ref - 1 = _
    omega
  · intro _ k hk hk' heq
    exact hk (h.unique k j hk' (by omega) heq)

end Tally

/-! ## The functions that take references and locks -/

theorem Neutral.keep {α : Type} {m : FsM α} (hm : Neutral m) (h : Tally held lock b s) :
    guarded m (fun _ s' => Tally held lock b s') s :=
  guarded_mono (hm s) fun _ _ hsame => h.of_same hsame

/-- A transaction can always begin when none runs. -/
theorem beginTrans_tally (h : Tally held lock false s) :
    guarded beginTrans (fun _ s' => Tally held lock true s') s := by
  unfold beginTrans
  apply Exec.wp_bind.mpr
  apply Exec.wp_gets.mpr
  rw [if_neg (by rw [h.trans]; exact nofun)]
  exact Exec.wp_modify.mpr ⟨h.ref, h.busy, h.unique, h.locks, rfl, nofun⟩

theorem commitTrans_tally (h : Tally held lock b s) :
    guarded commitTrans (fun _ s' => Tally held lock false s') s :=
  Exec.wp_modify.mpr ⟨h.ref, h.busy, h.unique, h.locks, rfl, fun _ => rfl⟩

theorem iget_tally (h : Tally held lock b s) (i : ℕ) :
    guarded (iget i) (fun j s' => Tally (hold held j) lock b s') s := by
  have hget := iget_spec (R := fun _ => False) (s := s) (i := i) False.elim
  refine Exec.wp_mono hget (fun j s' hgot => h.get hgot) fun e s' he => ?_
  rcases he.1 with rfl | rfl | rfl | rfl | rfl | rfl <;> rfl

theorem idup_tally (h : Tally held lock b s) (hk : 0 < held k) :
    guarded (idup k) (fun j s' => j = k ∧ Tally (hold held k) lock b s') s := by
  have hgot : Got (s.inode k).inum s k
      (s.setInode k { s.inode k with ref := (s.inode k).ref + 1 }) := by
    have hpos : 0 < (s.inode k).ref := h.ref k ▸ hk
    refine ⟨?_, fun _ => rfl, fun h0 => absurd h0 hpos.ne'⟩
    rw [Inode.got, if_pos hpos]
  exact Exec.wp_bind.mpr (Exec.wp_modify.mpr (Exec.wp_pure.mpr ⟨rfl, h.get hgot⟩))

theorem ilock_tally (h : Tally held lock b s) (hk : 0 < held k) :
    guarded (ilock k) (fun _ s' => k ∉ lock ∧ Tally held (insert k lock) b s') s := by
  unfold ilock
  apply Exec.wp_bind.mpr
  apply Exec.wp_gets.mpr
  rw [if_neg (by rw [h.ref]; omega)]
  by_cases hbusy : (s.inode k).busy = true
  · rw [if_pos hbusy]
    exact Exec.wp_throw.mpr rfl
  · have hlock : k ∉ lock := fun hl => hbusy ((h.busy k).mpr hl)
    have hset : Tally held (insert k lock) b (s.setInode k { s.inode k with busy := true }) := by
      refine h.setInode (fun _ _ => rfl) (fun j hj => ?_) (h.ref k) (by simp) ?_ fun _ => hk
      · simp [hj]
      · exact fun _ j hj hj' heq => hj (h.unique j k hj' hk heq)
    rw [if_neg hbusy]
    apply Exec.wp_bind.mpr
    apply Exec.wp_modify.mpr
    apply guarded_mono (Neutral.keep _ hset) fun _ _ h' => ⟨hlock, h'⟩
    apply Neutral.ite
    · apply Neutral.bind Neutral.gets
      intro dip
      refine Neutral.bind (neutral_modifyInode ?_) fun _ => ?_
      · exact fun _ => ⟨rfl, rfl, rfl⟩
      · exact Neutral.ite (Neutral.throw rfl) Neutral.pure
    · exact Neutral.pure

theorem iunlock_tally (h : Tally held (insert k lock) b s) (hk : k ∉ lock) :
    guarded (iunlock k) (fun _ s' => Tally held lock b s') s := by
  have hmem : k ∈ insert k lock := Finset.mem_insert_self k lock
  have hpos := h.locks k hmem
  have hbusy := (h.busy k).mpr hmem
  unfold iunlock
  apply Exec.wp_bind.mpr
  apply Exec.wp_gets.mpr
  rw [if_neg (by rw [hbusy, h.ref]; simp; omega)]
  apply Exec.wp_modify.mpr
  refine h.setInode (fun _ _ => rfl) (fun j hj => ?_) (h.ref k) (by simpa using hk) ?_ ?_
  · simp [hj]
  · exact fun _ j hj hj' heq => hj (h.unique j k hj' hpos heq)
  · exact fun hl => absurd hl hk

theorem iput_tally (h : Tally (hold held k) lock b s) (hl : k ∈ lock → 0 < held k) :
    guarded (iput k) (fun _ s' => Tally held lock b s') s := by
  have hself := hold_self held k
  have hput : ∀ s', Tally (hold held k) lock b s' → guarded
      (modifyInode k fun ip => { ip with ref := ip.ref - 1 })
      (fun _ s' => Tally held lock b s') s' := fun s' h' => Exec.wp_modify.mpr (h'.put hl)
  unfold iput
  apply Exec.wp_bind.mpr
  apply Exec.wp_gets.mpr
  by_cases hlast : (s.inode k).ref = 1 ∧ (s.inode k).valid = true ∧ (s.inode k).nlink = 0
  · have href := h.ref k
    have hlock : k ∉ lock := fun hk => by
      have := hl hk
      omega
    have hbusy : ¬(s.inode k).busy = true := fun hb => hlock ((h.busy k).mp hb)
    have hset : Tally (hold held k) (insert k lock) b
        (s.setInode k { s.inode k with busy := true }) := by
      refine h.setInode (fun _ _ => rfl) (fun j hj => ?_) href (by simp) ?_ fun _ => by omega
      · simp [hj]
      · exact fun hk j hj hj' heq => hj (h.unique j k hj' hk heq)
    rw [if_pos hlast, if_neg hbusy]
    apply Exec.wp_bind.mpr
    apply Exec.wp_modify.mpr
    refine guarded_seq ((neutral_itrunc k).keep hset) fun _ s₂ h₂ => ?_
    refine guarded_seq (Neutral.keep (neutral_modifyInode fun _ => ⟨rfl, rfl, rfl⟩) h₂)
      fun _ s₃ h₃ => ?_
    refine guarded_seq ((neutral_iupdate k).keep h₃) fun _ s₄ h₄ => ?_
    refine guarded_seq (Exec.wp_modify.mpr ?_) fun _ s₅ h₅ => hput s₅ h₅
    refine h₄.setInode (fun _ _ => rfl) (fun j hj => ?_) (h₄.ref k) (by simpa using hlock) ?_ ?_
    · simp [hj]
    · exact fun hk j hj hj' heq => hj (h₄.unique j k hj' hk heq)
    · exact fun hk => absurd hk hlock
  · rw [if_neg hlast]
    exact hput s h

theorem iunlockput_tally (h : Tally (hold held k) (insert k lock) b s) (hk : k ∉ lock) :
    guarded (iunlockput k) (fun _ s' => Tally held lock b s') s :=
  guarded_seq (iunlock_tally h hk) fun _ _ h' => iput_tally h' fun hl => absurd hl hk

/-- The references with those to an entry that may have been found. -/
def taken (held : Fin ninode → ℕ) (r : Option (Fin ninode)) : Fin ninode → ℕ :=
  match r with
  | none => held
  | some j => hold held j

theorem ialloc_tally (h : Tally held lock b s) (type : ℤ) :
    guarded (ialloc type) (fun j s' => Tally (hold held j) lock b s') s := by
  unfold ialloc
  apply Exec.wp_bind.mpr
  apply Exec.wp_gets.mpr
  cases freeDinode (id s).ninodes (id s).dinode with
  | none => exact Exec.wp_throw.mpr rfl
  | some i =>
      apply Exec.wp_bind.mpr
      apply Exec.wp_modify.mpr
      have hset : Tally held lock b (s.setDinode i { Dinode.zero with type := type }) :=
        h.of_same ⟨rfl, rfl, fun _ => rfl⟩
      refine guarded_seq ((neutral_logWrite _).keep hset) fun _ s₂ h₂ => ?_
      exact iget_tally h₂ i

theorem dirlookup_tally (h : Tally held lock b s) (name : Chars) :
    guarded (dirlookup k name) (fun r s' => Tally (taken held (r.map Prod.fst)) lock b s') s := by
  have hfrom : ∀ offs s, Tally held lock b s → guarded (dirlookupFrom k name offs)
      (fun r s' => Tally (taken held (r.map Prod.fst)) lock b s') s := by
    intro offs
    induction offs with
    | nil => exact fun s h => Exec.wp_pure.mpr h
    | cons off offs ih =>
        intro s h
        refine guarded_seq ((neutral_readDirent k off rfl).keep h) fun de s₁ h₁ => ?_
        by_cases h0 : de.inum = 0
        · rw [if_pos h0]
          exact ih s₁ h₁
        · rw [if_neg h0]
          by_cases hname : namecmp name de.name = 0
          · rw [if_pos hname]
            exact guarded_seq (iget_tally h₁ _) fun j s₂ h₂ => Exec.wp_pure.mpr h₂
          · rw [if_neg hname]
            exact ih s₁ h₁
  unfold dirlookup
  apply Exec.wp_bind.mpr
  apply Exec.wp_gets.mpr
  split
  · exact Exec.wp_throw.mpr rfl
  · exact hfrom _ s h

theorem dirlink_tally (h : Tally held lock b s) (name : Chars) (inum : ℕ) :
    guarded (dirlink k name inum) (fun _ s' => Tally held lock b s') s := by
  unfold dirlink
  refine guarded_seq (dirlookup_tally h name) fun r s₁ h₁ => ?_
  match r with
  | some (ip, _) =>
      exact guarded_seq (iput_tally h₁ (h.locks ip)) fun _ s₂ h₂ => Exec.wp_pure.mpr h₂
  | none =>
      apply Neutral.keep _ h₁
      apply Neutral.bind Neutral.gets
      intro dp
      apply Neutral.bind (neutral_emptyDirent _ _ _)
      intro off
      apply Neutral.bind (neutral_writei _ _ _ _)
      intro r
      exact Neutral.ite (Neutral.throw rfl) Neutral.pure

theorem mustLink_tally (h : Tally held lock b s) (name : Chars) (inum : ℕ) {e : Stop}
    (he : e.ofTables = false) :
    guarded (mustLink k name inum e) (fun _ s' => Tally held lock b s') s := by
  unfold mustLink
  refine guarded_seq (dirlink_tally h name inum) fun r s₁ h₁ => ?_
  exact (Neutral.ite (Neutral.throw he) Neutral.pure).keep h₁

/-! ## Path names -/

theorem namexFrom_tally (nameiparent : Bool) {n : ℕ} {path : List UInt8} {name : Chars}
    (h : Tally (hold held k) ∅ b s) (hn : path.length < n) :
    guarded (namexFrom nameiparent n k path name) (fun r s' => Tally (taken held r.1) ∅ b s') s := by
  have hnone := Finset.notMem_empty (α := Fin ninode)
  induction n generalizing k path name s with
  | zero => exact absurd hn (Nat.not_lt_zero _)
  | succ n ih =>
      unfold namexFrom
      cases hskip : skipelem path name with
      | none =>
          cases nameiparent with
          | true => exact guarded_seq (iput_tally h (by simp)) fun _ s₁ h₁ => Exec.wp_pure.mpr h₁
          | false => exact Exec.wp_pure.mpr h
      | some r =>
          have hrest := skipelem_length_lt hskip
          refine guarded_seq (ilock_tally h (by rw [hold_self]; omega)) fun _ s₁ h₁ => ?_
          apply Exec.wp_bind.mpr
          apply Exec.wp_gets.mpr
          have hout : ∀ s', Tally (hold held k) (insert k ∅) b s' → guarded
              (iunlockput k >>= fun _ => pure (none, r.2))
              (fun (r : Option (Fin ninode) × Chars) s' => Tally (taken held r.1) ∅ b s') s' :=
            fun s' h' => guarded_seq (iunlockput_tally h' (hnone k)) fun _ s₂ h₂ =>
              Exec.wp_pure.mpr h₂
          split
          · exact hout s₁ h₁.2
          · split
            · exact guarded_seq (iunlock_tally h₁.2 (hnone k)) fun _ s₂ h₂ => Exec.wp_pure.mpr h₂
            · refine guarded_seq (dirlookup_tally h₁.2 _) fun found s₂ h₂ => ?_
              cases found with
              | none => exact hout s₂ h₂
              | some r' =>
                  obtain ⟨next, off⟩ := r'
                  have hnext : Tally (hold (hold held next) k) (insert k ∅) b s₂ :=
                    hold_comm held k next ▸ h₂
                  exact guarded_seq (iunlockput_tally hnext (hnone k)) fun _ s₃ h₃ =>
                    ih h₃ (by omega)

theorem namex_tally (h : Tally held ∅ b s) {cwd : Fin ninode} (hcwd : 0 < held cwd)
    (path : List UInt8) (nameiparent : Bool) (name : Chars) :
    guarded (namex cwd path nameiparent name) (fun r s' => Tally (taken held r.1) ∅ b s') s := by
  unfold namex
  split
  · exact guarded_seq (iget_tally h rootino) fun j s₁ h₁ => namexFrom_tally nameiparent h₁ (Nat.lt_succ_self _)
  · refine guarded_seq (idup_tally h hcwd) fun j s₁ h₁ => ?_
    obtain ⟨rfl, h₁⟩ := h₁
    exact namexFrom_tally nameiparent h₁ (Nat.lt_succ_self _)

theorem namei_tally (h : Tally held ∅ b s) {cwd : Fin ninode} (hcwd : 0 < held cwd)
    (path : List UInt8) (name : Chars) :
    guarded (namei cwd path name) (fun r s' => Tally (taken held r) ∅ b s') s :=
  guarded_seq (namex_tally h hcwd path false name) fun _ _ h₁ => Exec.wp_pure.mpr h₁

end

end Fs

end Xv6
