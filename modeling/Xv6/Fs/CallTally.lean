import Xv6.Fs.Tally

/-!
# System calls give back what they take

Every system call on the file system, whichever way it returns, has released the locks and
dropped the references that it has taken, but for those that it hands to its caller.
-/

namespace Xv6.Fs

open Support

variable {s s' : Volume} {held : Fin ninode → ℕ} {b : Bool} {cwd ip dp : Fin ninode}

/-- Nothing is locked when no call runs. -/
theorem notMem_nothing (k : Fin ninode) : k ∉ (∅ : Finset (Fin ninode)) :=
  Finset.notMem_empty k

theorem hold_pos (held : Fin ninode → ℕ) (k : Fin ninode) : 0 < hold held k k := by
  rw [hold_self]
  omega

/-- The two entries that are locked may be named in either order. -/
theorem Tally.swap (h : Tally (hold (hold held dp) ip) (insert ip {dp}) b s) :
    Tally (hold (hold held ip) dp) (insert dp {ip}) b s := by
  rw [hold_comm, Finset.pair_comm]
  exact h

/-! ## Links -/

theorem linkBad_tally (h : Tally (hold held ip) ∅ b s) :
    guarded (linkBad ip) (fun _ s' => Tally held ∅ false s') s := by
  unfold linkBad
  refine guarded_seq (ilock_tally h (hold_pos held ip)) fun _ s₁ h₁ => ?_
  refine guarded_seq (Neutral.keep (neutral_modifyInode fun _ => ⟨rfl, rfl, rfl⟩) h₁.2)
    fun _ s₂ h₂ => ?_
  refine guarded_seq ((neutral_iupdate ip).keep h₂) fun _ s₃ h₃ => ?_
  refine guarded_seq (iunlockput_tally h₃ (notMem_nothing ip)) fun _ s₄ h₄ => ?_
  exact guarded_seq (commitTrans_tally h₄) fun _ s₅ h₅ => Exec.wp_pure.mpr h₅

theorem sysLink_tally (h : Tally held ∅ false s) (hcwd : 0 < held cwd)
    (old new : Option (List UInt8)) (junk : Chars) :
    guarded (sysLink cwd old new junk) (fun _ s' => Tally held ∅ false s') s := by
  unfold sysLink
  match old, new with
  | none, _ => exact Exec.wp_pure.mpr h
  | some _, none => exact Exec.wp_pure.mpr h
  | some old, some new =>
      refine guarded_seq (namei_tally h hcwd old junk) fun found s₁ h₁ => ?_
      match found with
      | none => exact Exec.wp_pure.mpr h₁
      | some ip =>
          refine guarded_seq (beginTrans_tally h₁) fun _ s₂ h₂ => ?_
          refine guarded_seq (ilock_tally h₂ (hold_pos held ip)) fun _ s₃ h₃ => ?_
          apply Exec.wp_bind.mpr
          apply Exec.wp_gets.mpr
          split
          · refine guarded_seq (iunlockput_tally h₃.2 (notMem_nothing ip)) fun _ s₄ h₄ => ?_
            exact guarded_seq (commitTrans_tally h₄) fun _ s₅ h₅ => Exec.wp_pure.mpr h₅
          · refine guarded_seq (Neutral.keep (neutral_modifyInode fun _ => ⟨rfl, rfl, rfl⟩) h₃.2)
              fun _ s₄ h₄ => ?_
            refine guarded_seq ((neutral_iupdate ip).keep h₄) fun _ s₅ h₅ => ?_
            refine guarded_seq (iunlock_tally h₅ (notMem_nothing ip)) fun _ s₆ h₆ => ?_
            have hcwd' : 0 < hold held ip cwd := Nat.lt_of_lt_of_le hcwd (Nat.le_add_right _ _)
            refine guarded_seq (namex_tally h₆ hcwd' new true junk) fun r s₇ h₇ => ?_
            match r with
            | (none, _) => exact linkBad_tally h₇
            | (some dp, name) =>
                refine guarded_seq (ilock_tally h₇ (hold_pos _ dp)) fun _ s₈ h₈ => ?_
                apply Exec.wp_bind.mpr
                apply Exec.wp_gets.mpr
                refine guarded_seq (dirlink_tally h₈.2 name _) fun r s₉ h₉ => ?_
                have hput := iunlockput_tally h₉ (notMem_nothing dp)
                split
                · exact guarded_seq hput fun _ s' h' => linkBad_tally h'
                · refine guarded_seq hput fun _ s' h' => ?_
                  refine guarded_seq (iput_tally h' (by simp)) fun _ s' h' => ?_
                  exact guarded_seq (commitTrans_tally h') fun _ _ h' =>
                    Exec.wp_pure.mpr h'

theorem unlinkBad_tally (h : Tally (hold held dp) {dp} b s) :
    guarded (unlinkBad dp) (fun _ s' => Tally held ∅ false s') s := by
  unfold unlinkBad
  refine guarded_seq (iunlockput_tally h (notMem_nothing dp)) fun _ s₁ h₁ => ?_
  exact guarded_seq (commitTrans_tally h₁) fun _ s₂ h₂ => Exec.wp_pure.mpr h₂

theorem unlinkEntry_tally (off : ℕ) (hip : ip ∉ ({dp} : Finset (Fin ninode)))
    (h : Tally (hold (hold held dp) ip) (insert ip {dp}) b s) :
    guarded (unlinkEntry dp ip off) (fun _ s' => Tally held ∅ false s') s := by
  have hdp : dp ∉ ({ip} : Finset (Fin ninode)) := by
    simpa [eq_comm] using hip
  unfold unlinkEntry
  apply Exec.wp_bind.mpr
  apply Exec.wp_gets.mpr
  split
  · exact Exec.wp_throw.mpr rfl
  · refine guarded_seq ((neutral_isFullDir ip).keep h) fun full s₁ h₁ => ?_
    split
    · exact guarded_seq (iunlockput_tally h₁ hip) fun _ s₂ h₂ => unlinkBad_tally h₂
    · refine guarded_seq ((neutral_clearDirent dp off).keep h₁) fun _ s₂ h₂ => ?_
      have hdots : Neutral (unlinkDots dp ((s.inode ip).type)) := by
        apply Neutral.ite
        · refine Neutral.bind (neutral_modifyInode ?_) fun _ => neutral_iupdate dp
          exact fun _ => ⟨rfl, rfl, rfl⟩
        · exact Neutral.pure
      refine guarded_seq (hdots.keep h₂) fun _ s₃ h₃ => ?_
      refine guarded_seq (iunlockput_tally h₃.swap hdp) fun _ s₄ h₄ => ?_
      refine guarded_seq (Neutral.keep (neutral_modifyInode fun _ => ⟨rfl, rfl, rfl⟩) h₄)
        fun _ s₅ h₅ => ?_
      refine guarded_seq ((neutral_iupdate ip).keep h₅) fun _ s₆ h₆ => ?_
      refine guarded_seq (iunlockput_tally h₆ (notMem_nothing ip)) fun _ s₇ h₇ => ?_
      exact guarded_seq (commitTrans_tally h₇) fun _ s₈ h₈ => Exec.wp_pure.mpr h₈

theorem sysUnlink_tally (h : Tally held ∅ false s) (hcwd : 0 < held cwd)
    (path : Option (List UInt8)) (junk : Chars) :
    guarded (sysUnlink cwd path junk) (fun _ s' => Tally held ∅ false s') s := by
  unfold sysUnlink
  match path with
  | none => exact Exec.wp_pure.mpr h
  | some path =>
      refine guarded_seq (namex_tally h hcwd path true junk) fun r s₁ h₁ => ?_
      match r with
      | (none, _) => exact Exec.wp_pure.mpr h₁
      | (some dp, name) =>
          refine guarded_seq (beginTrans_tally h₁) fun _ s₂ h₂ => ?_
          refine guarded_seq (ilock_tally h₂ (hold_pos held dp)) fun _ s₃ h₃ => ?_
          split
          · exact unlinkBad_tally h₃.2
          · refine guarded_seq (dirlookup_tally h₃.2 name) fun found s₄ h₄ => ?_
            match found with
            | none => exact unlinkBad_tally h₄
            | some (ip, off) =>
                refine guarded_seq (ilock_tally h₄ (hold_pos _ ip)) fun _ s₅ h₅ => ?_
                exact unlinkEntry_tally off h₅.1 h₅.2

/-! ## New files -/

theorem createDots_tally {lock : Finset (Fin ninode)} (h : Tally held lock b s) (type : ℤ) :
    guarded (createDots dp ip type) (fun _ s' => Tally held lock b s') s := by
  unfold createDots
  split
  · refine guarded_seq (Neutral.keep (neutral_modifyInode fun _ => ⟨rfl, rfl, rfl⟩) h)
      fun _ s₁ h₁ => ?_
    refine guarded_seq ((neutral_iupdate dp).keep h₁) fun _ s₂ h₂ => ?_
    apply Exec.wp_bind.mpr
    apply Exec.wp_gets.mpr
    refine guarded_seq (mustLink_tally h₂ _ _ rfl) fun _ s₃ h₃ => ?_
    apply Exec.wp_bind.mpr
    apply Exec.wp_gets.mpr
    exact mustLink_tally h₃ _ _ rfl
  · exact Exec.wp_pure.mpr h

theorem createNew_tally (h : Tally (hold held dp) {dp} b s) (name : Chars)
    (type major minor : ℤ) : guarded (createNew dp name type major minor)
      (fun r s' => Tally (taken held r) r.toFinset b s') s := by
  unfold createNew
  refine guarded_seq (ialloc_tally h type) fun ip s₁ h₁ => ?_
  refine guarded_seq (ilock_tally h₁ (hold_pos _ ip)) fun _ s₂ h₂ => ?_
  obtain ⟨hip, h₂⟩ := h₂
  have hdp : dp ∉ ({ip} : Finset (Fin ninode)) := by
    simpa [eq_comm] using hip
  refine guarded_seq (Neutral.keep (neutral_modifyInode fun _ => ⟨rfl, rfl, rfl⟩) h₂)
    fun _ s₃ h₃ => ?_
  refine guarded_seq ((neutral_iupdate ip).keep h₃) fun _ s₄ h₄ => ?_
  refine guarded_seq (createDots_tally h₄ type) fun _ s₅ h₅ => ?_
  apply Exec.wp_bind.mpr
  apply Exec.wp_gets.mpr
  refine guarded_seq (mustLink_tally h₅ name _ rfl) fun _ s₆ h₆ => ?_
  exact guarded_seq (iunlockput_tally h₆.swap hdp) fun _ s₇ h₇ => Exec.wp_pure.mpr h₇

theorem create_tally (h : Tally held ∅ b s) (hcwd : 0 < held cwd) (path : List UInt8)
    (type major minor : ℤ) (junk : Chars) :
    guarded (create cwd path type major minor junk)
      (fun r s' => Tally (taken held r) r.toFinset b s') s := by
  unfold create
  refine guarded_seq (namex_tally h hcwd path true junk) fun r s₁ h₁ => ?_
  match r with
  | (none, _) => exact Exec.wp_pure.mpr h₁
  | (some dp, name) =>
      refine guarded_seq (ilock_tally h₁ (hold_pos held dp)) fun _ s₂ h₂ => ?_
      refine guarded_seq (dirlookup_tally h₂.2 name) fun found s₃ h₃ => ?_
      match found with
      | none => exact createNew_tally h₃ name type major minor
      | some (ip, _) =>
          have h₃' : Tally (hold (hold held ip) dp) (insert dp ∅) b s₃ := hold_comm held dp ip ▸ h₃
          refine guarded_seq (iunlockput_tally h₃' (notMem_nothing dp)) fun _ s₄ h₄ => ?_
          refine guarded_seq (ilock_tally h₄ (hold_pos held ip)) fun _ s₅ h₅ => ?_
          apply Exec.wp_bind.mpr
          apply Exec.wp_gets.mpr
          split
          · exact Exec.wp_pure.mpr h₅.2
          · exact guarded_seq (iunlockput_tally h₅.2 (notMem_nothing ip)) fun _ s₆ h₆ =>
              Exec.wp_pure.mpr h₆

theorem make_tally (h : Tally held ∅ b s) (hcwd : 0 < held cwd) (path : Option (List UInt8))
    (type major minor : ℤ) (junk : Chars) :
    guarded (make cwd path type major minor junk) (fun _ s' => Tally held ∅ b s') s := by
  unfold make
  match path with
  | none => exact Exec.wp_pure.mpr h
  | some path =>
      refine guarded_seq (create_tally h hcwd path type major minor junk) fun r s₁ h₁ => ?_
      match r with
      | none => exact Exec.wp_pure.mpr h₁
      | some ip =>
          have h₁' : Tally (hold held ip) (insert ip ∅) b s₁ := h₁
          exact guarded_seq (iunlockput_tally h₁' (notMem_nothing ip)) fun _ s₂ h₂ =>
            Exec.wp_pure.mpr h₂

/-- A call inside a transaction of its own. -/
theorem trans_tally {α : Type} {m : FsM α} {held' : α → Fin ninode → ℕ}
    {lock' : α → Finset (Fin ninode)}
    (hm : ∀ s, Tally held ∅ true s →
      guarded m (fun r s' => Tally (held' r) (lock' r) true s') s) (h : Tally held ∅ false s) :
    guarded (do
      beginTrans
      let r ← m
      commitTrans
      pure r) (fun r s' => Tally (held' r) (lock' r) false s') s := by
  refine guarded_seq (beginTrans_tally h) fun _ s₁ h₁ => ?_
  refine guarded_seq (hm s₁ h₁) fun a s₂ h₂ => ?_
  exact guarded_seq (commitTrans_tally h₂) fun _ s₃ h₃ => Exec.wp_pure.mpr h₃

theorem sysMkdir_tally (h : Tally held ∅ false s) (hcwd : 0 < held cwd) (path : Option (List UInt8))
    (junk : Chars) : guarded (sysMkdir cwd path junk) (fun _ s' => Tally held ∅ false s') s :=
  trans_tally (fun _ h' => make_tally h' hcwd path tDir 0 0 junk) h

theorem sysMknod_tally (h : Tally held ∅ false s) (hcwd : 0 < held cwd) (path : Option (List UInt8))
    (major minor : ℤ) (junk : Chars) :
    guarded (sysMknod cwd path major minor junk) (fun _ s' => Tally held ∅ false s') s :=
  trans_tally (fun _ h' => make_tally h' hcwd path tDev (int16 major) (int16 minor) junk) h

theorem openInode_tally (h : Tally held ∅ false s) (hcwd : 0 < held cwd) (path : List UInt8)
    (omode : ℕ) (junk : Chars) : guarded (openInode cwd path omode junk)
      (fun r s' => Tally (taken held r) r.toFinset false s') s := by
  unfold openInode
  split
  · exact trans_tally (fun _ h' => create_tally h' hcwd path tFile 0 0 junk) h
  · refine guarded_seq (namei_tally h hcwd path junk) fun found s₁ h₁ => ?_
    match found with
    | none => exact Exec.wp_pure.mpr h₁
    | some ip =>
        refine guarded_seq (ilock_tally h₁ (hold_pos held ip)) fun _ s₂ h₂ => ?_
        apply Exec.wp_bind.mpr
        apply Exec.wp_gets.mpr
        split
        · exact guarded_seq (iunlockput_tally h₂.2 (notMem_nothing ip)) fun _ s₃ h₃ =>
            Exec.wp_pure.mpr h₃
        · exact Exec.wp_pure.mpr h₂.2

/-! ## Current directories and programs -/

/-- The reference to the current directory is given up for the new one. -/
theorem sysChdir_tally (h : Tally (hold held cwd) ∅ b s) (path : Option (List UInt8))
    (junk : Chars) : guarded (sysChdir cwd path junk)
      (fun r s' => Tally (hold held (r.getD cwd)) ∅ b s') s := by
  unfold sysChdir
  match path with
  | none => exact Exec.wp_pure.mpr h
  | some path =>
      refine guarded_seq (namei_tally h (hold_pos held cwd) path junk) fun found s₁ h₁ => ?_
      match found with
      | none => exact Exec.wp_pure.mpr h₁
      | some ip =>
          refine guarded_seq (ilock_tally h₁ (hold_pos _ ip)) fun _ s₂ h₂ => ?_
          apply Exec.wp_bind.mpr
          apply Exec.wp_gets.mpr
          split
          · exact guarded_seq (iunlockput_tally h₂.2 (notMem_nothing ip)) fun _ s₃ h₃ =>
              Exec.wp_pure.mpr h₃
          · refine guarded_seq (iunlock_tally h₂.2 (notMem_nothing ip)) fun _ s₃ h₃ => ?_
            have h₃' : Tally (hold (hold held ip) cwd) ∅ b s₃ := hold_comm held cwd ip ▸ h₃
            exact guarded_seq (iput_tally h₃' (by simp)) fun _ s₄ h₄ => Exec.wp_pure.mpr h₄

theorem neutral_loaduvmFrom (offset sz n i : ℕ) : Neutral (loaduvmFrom ip offset sz n i) := by
  induction n generalizing i with
  | zero => exact Neutral.pure
  | succ n ih =>
      apply Neutral.ite
      · apply Neutral.bind (neutral_readi _ _ _)
        intro r
        exact Neutral.ite Neutral.pure (ih _)
      · exact Neutral.pure

theorem neutral_loadSegments (mem : ExecMemory) (n i off : ℕ) :
    Neutral (loadSegments mem ip n i off) := by
  induction n generalizing i off with
  | zero => exact Neutral.pure
  | succ n ih =>
      apply Neutral.bind (neutral_readi _ _ _)
      intro r
      cases r with
      | none => exact Neutral.pure
      | some ph =>
          refine Neutral.ite Neutral.pure (Neutral.ite (ih _ _) (Neutral.ite Neutral.pure
            (Neutral.ite Neutral.pure ?_)))
          apply Neutral.bind (neutral_loaduvmFrom _ _ _ _)
          intro loaded
          exact Neutral.ite Neutral.pure (ih _ _)

theorem neutral_execLoad (mem : ExecMemory) : Neutral (execLoad mem ip) := by
  apply Neutral.bind (neutral_readi _ _ _)
  intro r
  exact Neutral.ite Neutral.pure (Neutral.ite Neutral.pure (Neutral.ite Neutral.pure
    (neutral_loadSegments mem _ _ _)))

theorem exec_tally (mem : ExecMemory) (h : Tally held ∅ b s) (hcwd : 0 < held cwd)
    (path : List UInt8) (junk : Chars) :
    guarded (exec mem cwd path junk) (fun _ s' => Tally held ∅ b s') s := by
  unfold exec
  refine guarded_seq (namei_tally h hcwd path junk) fun found s₁ h₁ => ?_
  match found with
  | none => exact Exec.wp_pure.mpr h₁
  | some ip =>
      refine guarded_seq (ilock_tally h₁ (hold_pos held ip)) fun _ s₂ h₂ => ?_
      refine guarded_seq ((neutral_execLoad mem).keep h₂.2) fun loaded s₃ h₃ => ?_
      exact guarded_seq (iunlockput_tally h₃ (notMem_nothing ip)) fun _ s₄ h₄ =>
        Exec.wp_pure.mpr h₄

end Xv6.Fs
