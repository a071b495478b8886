import Xv6.Fs.Streams

/-!
# What descriptors do to streams

The system calls that work on descriptors, as steps of the streams: reads and writes
transfer bytes at the cursor of the file, and all other calls leave contents and cursors
alone, but for the files that they close.
-/

namespace Xv6.Fs

open Support

section

variable {s s' s'' : System} {i : Fin nfile}

/-! ## Calls that transfer nothing -/

/-- The disk is as before, and so are the cached inodes but for references and locks. -/
structure Resting (v v' : Volume) : Prop where
  disk : v' = { v with inode := v'.inode, log := v'.log }
  logSize : v'.log.size = v.log.size
  inode : ∀ k, (v'.inode k).toDinode = (v.inode k).toDinode ∧
    (v'.inode k).inum = (v.inode k).inum ∧ (v'.inode k).valid = (v.inode k).valid
  ref : ∀ k, 0 < (v'.inode k).ref → 0 < (v.inode k).ref

/-- The disk is resting, and open files are as before but for those that have been closed
and for the offsets of devices. -/
structure Undisturbed (s s' : System) : Prop where
  vol : Resting s.vol s'.vol
  file : ∀ i, (s'.file i).type = .inode → (s.file i).type = .inode ∧
    (s'.file i).ip = (s.file i).ip ∧
    (s.vol.Plain (s.file i).ip → (s'.file i).off = (s.file i).off)

/-- No cached inode has lost its last link, and the inodes of open files have been read. -/
structure Loaded (s : System) : Prop where
  linked : ∀ k, (s.vol.inode k).valid = true → (s.vol.inode k).nlink ≠ 0
  valid : ∀ i, (s.file i).type = .inode → (s.vol.inode (s.file i).ip).valid = true

namespace Resting

variable {v v' v'' : Volume} {k : Fin ninode}

theorem refl (v : Volume) : Resting v v :=
  ⟨rfl, rfl, fun _ => ⟨rfl, rfl, rfl⟩, fun _ h => h⟩

theorem trans (h : Resting v v') (h' : Resting v' v'') : Resting v v'' := by
  refine ⟨?_, h'.logSize.trans h.logSize, fun k => ?_, fun k hk => h.ref k (h'.ref k hk)⟩
  · rw [h'.disk, h.disk]
  · obtain ⟨hd, hi, hv⟩ := h.inode k
    obtain ⟨hd', hi', hv'⟩ := h'.inode k
    exact ⟨hd'.trans hd, hi'.trans hi, hv'.trans hv⟩

theorem plain_iff (h : Resting v v') (k : Fin ninode) : v'.Plain k ↔ v.Plain k := by
  unfold Volume.Plain
  rw [(h.inode k).1]

/-- A change of the log. -/
theorem setLog (v : Volume) (busy : Bool) (sector : List ℕ) :
    Resting v { v with log := ⟨busy, sector, v.log.size⟩ } :=
  ⟨rfl, rfl, fun _ => ⟨rfl, rfl, rfl⟩, fun _ h => h⟩

/-- A change of the references or the lock of an inode. -/
theorem setInode {ip : Inode} (hdinode : ip.toDinode = (v.inode k).toDinode)
    (hinum : ip.inum = (v.inode k).inum) (hvalid : ip.valid = (v.inode k).valid)
    (href : 0 < ip.ref → 0 < (v.inode k).ref) : Resting v (v.setInode k ip) := by
  have hself : (v.setInode k ip).inode k = ip := Function.update_self _ _ _
  refine ⟨rfl, rfl, fun j => ?_, fun j hj => ?_⟩
  · by_cases hjk : j = k
    · rw [hjk, hself]
      exact ⟨hdinode, hinum, hvalid⟩
    · rw [Volume.inode_setInode_of_ne hjk]
      exact ⟨rfl, rfl, rfl⟩
  · by_cases hjk : j = k
    · rw [hjk, hself] at hj
      exact hjk ▸ href hj
    · rwa [Volume.inode_setInode_of_ne hjk] at hj

end Resting

namespace Undisturbed

theorem refl (s : System) : Undisturbed s s :=
  ⟨Resting.refl s.vol, fun _ h => ⟨h, rfl, fun _ => rfl⟩⟩

theorem of_volume {v : Volume} (h : Resting s.vol v) : Undisturbed s { s with vol := v } :=
  ⟨h, fun _ h => ⟨h, rfl, fun _ => rfl⟩⟩

theorem trans (h : Undisturbed s s') (h' : Undisturbed s' s'') : Undisturbed s s'' := by
  refine ⟨h.vol.trans h'.vol, fun i hi => ?_⟩
  obtain ⟨htype', hip', hoff'⟩ := h'.file i hi
  obtain ⟨htype, hip, hoff⟩ := h.file i htype'
  refine ⟨htype, hip'.trans hip, fun hplain => ?_⟩
  rw [hoff' (by rw [hip]; exact (h.vol.plain_iff _).mpr hplain), hoff hplain]

theorem loaded (h : Undisturbed s s') (hl : Loaded s) : Loaded s' := by
  constructor
  · intro k hk
    obtain ⟨hd, -, hv⟩ := h.vol.inode k
    rw [hd]
    rw [hv] at hk
    exact hl.linked k hk
  · intro i hi
    obtain ⟨htype, hip, -⟩ := h.file i hi
    rw [hip, (h.vol.inode _).2.2]
    exact hl.valid i htype

end Undisturbed

/-- The computation transfers nothing. -/
def Calm {α : Type} (m : SystemM α) : Prop :=
  ∀ s, Loaded s → Exec.wlp m (fun _ s' => Undisturbed s s') s

namespace Calm

variable {α β : Type}

theorem pure {a : α} : Calm (Pure.pure a) := fun s _ => Exec.wp_pure.mpr (Undisturbed.refl s)

theorem throw {e : Stop} : Calm (Exec.throw e : SystemM α) := fun _ _ => Exec.wlp_throw

theorem gets {f : System → α} : Calm (Exec.gets f) :=
  fun s _ => Exec.wp_gets.mpr (Undisturbed.refl s)

theorem modify {f : System → System} (h : ∀ s, Undisturbed s (f s)) : Calm (Exec.modify f) :=
  fun s _ => Exec.wp_modify.mpr (h s)

theorem bind {m : SystemM α} {f : α → SystemM β} (hm : Calm m) (hf : ∀ a, Calm (f a)) :
    Calm (m >>= f) :=
  fun s hs => Exec.wlp_seq (hm s hs) fun a s' h =>
    Exec.wlp_mono (hf a s' (h.loaded hs)) fun _ _ h' => h.trans h'

theorem ite {c : Prop} [Decidable c] {m m' : SystemM α} (hm : Calm m) (hm' : Calm m') :
    Calm (if c then m else m') := by
  split
  · exact hm
  · exact hm'

theorem each {f : α → SystemM Unit} (hf : ∀ a, Calm (f a)) (as : List α) :
    Calm (Exec.each f as) := by
  induction as with
  | nil => exact pure
  | cons a as ih => exact bind (hf a) fun _ => ih

end Calm

/-- A change of the process table. -/
theorem calm_tasks {f : System → System} (h : ∀ s, (f s).vol = s.vol ∧ (f s).file = s.file) :
    Calm (Exec.modify f) := by
  apply Calm.modify
  intro s
  obtain ⟨hvol, hfile⟩ := h s
  constructor
  · rw [hvol]
    exact Resting.refl s.vol
  · rw [hfile]
    exact fun _ h => ⟨h, rfl, fun _ => rfl⟩

/-- A change of a file that does not open it. -/
theorem calm_modifyFile {f : File → File} (h : ∀ ff, (f ff).type = .inode →
    ff.type = .inode ∧ (f ff).ip = ff.ip ∧ (f ff).off = ff.off) : Calm (modifyFile i f) := by
  apply Calm.modify
  intro s
  refine ⟨Resting.refl s.vol, fun j hj => ?_⟩
  by_cases hji : j = i
  · subst hji
    have hself : (s.setFile j (f (s.file j))).file j = f (s.file j) := Function.update_self _ _ _
    rw [hself] at hj ⊢
    obtain ⟨htype, hip, hoff⟩ := h _ hj
    exact ⟨htype, hip, fun _ => hoff⟩
  · have hother : (s.setFile i (f (s.file i))).file j = s.file j := Function.update_of_ne hji _ _
    rw [hother] at hj ⊢
    exact ⟨hj, rfl, fun _ => rfl⟩

/-- The reference to an inode that has not lost its last link. -/
theorem calm_iput (k : Fin ninode) : Calm (onVolume (iput k)) := by
  intro s hs
  apply Exec.wp_zoom.mpr
  unfold iput
  apply Exec.wp_bind.mpr
  apply Exec.wp_gets.mpr
  rw [if_neg fun h => hs.linked k h.2.1 h.2.2]
  exact Exec.wp_modify.mpr (Undisturbed.of_volume
    (Resting.setInode rfl rfl rfl fun h => Nat.lt_of_lt_of_le h (Nat.sub_le _ _)))

theorem calm_beginTrans : Calm (onVolume beginTrans) := by
  intro s _
  apply Exec.wp_zoom.mpr
  unfold beginTrans
  apply Exec.wp_bind.mpr
  apply Exec.wp_gets.mpr
  split
  · exact Exec.wp_throw.mpr trivial
  · exact Exec.wp_modify.mpr (Undisturbed.of_volume (Resting.setLog _ _ _))

theorem calm_commitTrans : Calm (onVolume commitTrans) := by
  intro s _
  apply Exec.wp_zoom.mpr
  exact Exec.wp_modify.mpr (Undisturbed.of_volume (Resting.setLog _ _ _))

theorem calm_iunlock (k : Fin ninode) : Calm (onVolume (iunlock k)) := by
  intro s _
  apply Exec.wp_zoom.mpr
  unfold iunlock
  apply Exec.wp_bind.mpr
  apply Exec.wp_gets.mpr
  split
  · exact Exec.wp_throw.mpr trivial
  · exact Exec.wp_modify.mpr (Undisturbed.of_volume (Resting.setInode rfl rfl rfl id))

/-- Locking an inode that has been read. -/
theorem ilock_undisturbed {k : Fin ninode} (hvalid : (s.vol.inode k).valid = true) :
    Exec.wlp (onVolume (ilock k)) (fun _ s' => Undisturbed s s') s := by
  apply Exec.wp_zoom.mpr
  unfold ilock
  apply Exec.wp_bind.mpr
  apply Exec.wp_gets.mpr
  split
  · exact Exec.wp_throw.mpr trivial
  · split
    · exact Exec.wp_throw.mpr trivial
    · apply Exec.wp_bind.mpr
      apply Exec.wp_modify.mpr
      rw [hvalid, if_neg nofun]
      exact Exec.wp_pure.mpr (Undisturbed.of_volume (Resting.setInode rfl rfl rfl id))

/-- Code of the file system proper, step by step. -/
theorem onVolume_bind {α β : Type} (m : FsM α) (f : α → FsM β) :
    onVolume (m >>= f) = onVolume m >>= fun a => onVolume (f a) := by
  funext s
  rw [Exec.bind_run (onVolume m)]
  unfold onVolume Exec.zoom
  rw [Exec.bind_run]
  rcases m s.vol with ⟨_ | a, v⟩ <;> rfl

theorem calm_closeInode (ff : File) : Calm (closeInode ff) := by
  unfold closeInode
  apply Calm.ite
  · simp only [onVolume_bind]
    exact calm_beginTrans.bind fun _ => (calm_iput ff.ip).bind fun _ => calm_commitTrans
  · exact Calm.pure

theorem calm_fileclose (i : Fin nfile) : Calm (fileclose i) := by
  unfold fileclose
  apply Calm.gets.bind
  intro ff
  apply Calm.ite Calm.throw
  apply Calm.ite
  · exact calm_modifyFile fun _ h => ⟨h, rfl, rfl⟩
  · refine Calm.bind (calm_modifyFile ?_) fun _ => calm_closeInode ff
    exact fun _ h => nomatch h

theorem calm_filealloc : Calm filealloc := by
  unfold filealloc
  apply Calm.gets.bind
  intro file
  cases emptyFile file with
  | none => exact Calm.pure
  | some j =>
      refine Calm.bind (calm_modifyFile ?_) fun _ => Calm.pure
      exact fun _ h => ⟨h, rfl, rfl⟩

theorem calm_filedup (i : Fin nfile) : Calm (filedup i) := by
  unfold filedup
  apply Calm.gets.bind
  intro f
  apply Calm.ite Calm.throw
  exact calm_modifyFile fun _ h => ⟨h, rfl, rfl⟩

theorem calm_modifyTask (p : Slot) (f : Task → Task) : Calm (modifyTask p f) :=
  calm_tasks fun _ => ⟨rfl, rfl⟩

theorem calm_fdalloc (p : Slot) (f : Fin nfile) : Calm (fdalloc p f) := by
  unfold fdalloc
  apply Calm.gets.bind
  intro t
  cases emptyOfile t.ofile with
  | none => exact Calm.pure
  | some fd => exact (calm_modifyTask p _).bind fun _ => Calm.pure

theorem calm_argfd (p : Slot) (fd : Option ℤ) : Calm (argfd p fd) :=
  Calm.gets.bind fun _ => Calm.pure

theorem calm_sysDup (p : Slot) (fd : Option ℤ) : Calm (sysDup p fd) := by
  unfold sysDup
  apply (calm_argfd p fd).bind
  intro a
  cases a with
  | none => exact Calm.pure
  | some x =>
      apply (calm_fdalloc p x.2).bind
      intro r
      cases r with
      | none => exact Calm.pure
      | some fd => exact (calm_filedup x.2).bind fun _ => Calm.pure

theorem calm_sysClose (p : Slot) (fd : Option ℤ) : Calm (sysClose p fd) := by
  unfold sysClose
  apply (calm_argfd p fd).bind
  intro a
  cases a with
  | none => exact Calm.pure
  | some x =>
      exact (calm_modifyTask p _).bind fun _ => (calm_fileclose x.2).bind fun _ => Calm.pure

theorem calm_pipealloc (page : Option ℕ) : Calm (pipealloc page) := by
  unfold pipealloc
  apply calm_filealloc.bind
  intro f0
  cases f0 with
  | none => exact Calm.pure
  | some f0 =>
      apply calm_filealloc.bind
      intro f1
      cases f1 with
      | none => exact (calm_fileclose f0).bind fun _ => Calm.pure
      | some f1 =>
          cases page with
          | none =>
              exact (calm_fileclose f0).bind fun _ => (calm_fileclose f1).bind fun _ => Calm.pure
          | some pipe =>
              refine Calm.bind (calm_modifyFile ?_) fun _ =>
                Calm.bind (calm_modifyFile ?_) fun _ => Calm.pure
              · exact fun _ h => nomatch h
              · exact fun _ h => nomatch h

theorem calm_sysPipe (p : Slot) (fd : Bool) (page : Option ℕ) : Calm (sysPipe p fd page) := by
  unfold sysPipe
  refine Calm.ite ?_ Calm.pure
  apply (calm_pipealloc page).bind
  intro r
  cases r with
  | none => exact Calm.pure
  | some ends =>
      apply (calm_fdalloc p ends.1).bind
      intro fd0
      cases fd0 with
      | none =>
          exact (calm_fileclose ends.1).bind fun _ => (calm_fileclose ends.2).bind fun _ => Calm.pure
      | some fd0 =>
          apply (calm_fdalloc p ends.2).bind
          intro fd1
          cases fd1 with
          | none =>
              exact (calm_modifyTask p _).bind fun _ => (calm_fileclose ends.1).bind fun _ =>
                (calm_fileclose ends.2).bind fun _ => Calm.pure
          | some fd1 => exact Calm.pure

theorem calm_exit (p : Slot) : Calm (exit p) := by
  unfold exit
  apply Calm.gets.bind
  intro init
  apply Calm.ite Calm.throw
  have hfile : ∀ fd, Calm (exitFile p fd) := by
    intro fd
    unfold exitFile
    apply Calm.gets.bind
    intro t
    cases t.ofile fd with
    | none => exact Calm.pure
    | some i => exact (calm_fileclose i).bind fun _ => calm_modifyTask p _
  have hcwd : Calm (getCwd p) := by
    unfold getCwd
    apply Calm.gets.bind
    intro t
    cases t.cwd with
    | none => exact Calm.throw
    | some cwd => exact Calm.pure
  refine Calm.bind (Calm.each hfile _) fun _ => hcwd.bind fun cwd =>
    (calm_iput cwd).bind fun _ => (calm_modifyTask p _).bind fun _ =>
      Calm.bind (calm_tasks ?_) fun _ => calm_modifyTask p _
  exact fun _ => ⟨rfl, rfl⟩

theorem calm_wait (p : Slot) : Calm (wait p) := by
  unfold wait
  apply Calm.gets.bind
  intro task
  cases zombieChild p task with
  | none => exact Calm.ite Calm.throw Calm.pure
  | some q => exact (calm_modifyTask q _).bind fun _ => Calm.pure

/-! ## The calls -/

theorem onVolume_pure {α : Type} (a : α) : onVolume (pure a) = pure a :=
  rfl

/-- Work under the lock of an inode that has been read. -/
theorem locked_undisturbed {α : Type} {k : Fin ninode} {m : FsM α}
    (hvalid : (s.vol.inode k).valid = true)
    (hm : ∀ s', Undisturbed s s' → Exec.wlp (onVolume m) (fun _ s'' => Undisturbed s' s'') s') :
    Exec.wlp (onVolume (ilock k >>= fun _ => m)) (fun _ s' => Undisturbed s s') s := by
  rw [onVolume_bind]
  refine Exec.wlp_seq (ilock_undisturbed hvalid) fun _ s₁ h₁ => ?_
  exact Exec.wlp_mono (hm s₁ h₁) fun _ s₂ h₂ => h₁.trans h₂

theorem calm_filestat (i : Fin nfile) : Calm (filestat i) := by
  intro s hs
  unfold filestat
  apply Exec.wp_bind.mpr
  apply Exec.wp_gets.mpr
  split
  · rename_i htype
    apply locked_undisturbed (hs.valid i htype)
    intro s₁ h₁
    have hrest : Calm (onVolume do
        let ip ← getInode (s.file i).ip
        iunlock (s.file i).ip
        pure (some (stati ip))) := by
      simp only [onVolume_bind, onVolume_pure]
      exact Calm.gets.bind fun _ => (calm_iunlock _).bind fun _ => Calm.pure
    exact hrest s₁ (h₁.loaded hs)
  · exact Exec.wp_pure.mpr (Undisturbed.refl s)

theorem calm_sysFstat (p : Slot) (fd : Option ℤ) (st : Bool) : Calm (sysFstat p fd st) := by
  unfold sysFstat
  apply (calm_argfd p fd).bind
  intro a
  cases a with
  | none => exact Calm.pure
  | some x => exact Calm.ite (calm_filestat x.2) Calm.pure

/-- A device is read without the disk. -/
theorem readi_device {k : Fin ninode} {v : Volume} (off n : ℕ)
    (htype : (v.inode k).type = tDev) : ∃ r, readi k off n v = (.ok r, v) := by
  unfold readi
  rw [Exec.bind_run_ok (show getInode k v = (.ok (v.inode k), v) from rfl), if_pos htype]
  exact ⟨_, rfl⟩

/-- A device is written without the disk. -/
theorem writei_device {k : Fin ninode} {v : Volume} (src : Chars) (off n : ℕ)
    (htype : (v.inode k).type = tDev) : ∃ r, writei k src off n v = (.ok r, v) := by
  unfold writei
  rw [Exec.bind_run_ok (show getInode k v = (.ok (v.inode k), v) from rfl), if_pos htype]
  exact ⟨_, rfl⟩

/-- A change of the offset of a device. -/
theorem undisturbed_setOff (off : ℕ) (hdev : ¬s.vol.Plain (s.file i).ip) :
    Undisturbed s (s.setFile i { s.file i with off := off }) := by
  refine ⟨Resting.refl s.vol, fun j hj => ?_⟩
  by_cases hji : j = i
  · subst hji
    have hself : (s.setFile j { s.file j with off := off }).file j =
        { s.file j with off := off } := Function.update_self _ _ _
    rw [hself] at hj ⊢
    exact ⟨hj, rfl, fun hplain => absurd hplain hdev⟩
  · have hother : (s.setFile i { s.file i with off := off }).file j = s.file j :=
      Function.update_of_ne hji _ _
    rw [hother] at hj ⊢
    exact ⟨hj, rfl, fun _ => rfl⟩

/-- The file is not one that stands on a sequence of bytes. -/
def Offstream (i : Fin nfile) (s : System) : Prop :=
  (s.file i).type = .inode → (s.vol.inode (s.file i).ip).type = tDev

theorem not_plain_of_dev {v : Volume} {k : Fin ninode} (h : (v.inode k).type = tDev) :
    ¬v.Plain k :=
  fun hp => hp.ne_dev h

theorem fileread_offstream (hl : Loaded s) (hi : Offstream i s) (n : ℤ)
    (piped : Option (List UInt8)) :
    Exec.wlp (fileread i n piped) (fun _ s' => Undisturbed s s') s := by
  unfold fileread
  apply Exec.wp_bind.mpr
  apply Exec.wp_gets.mpr
  split
  · exact Exec.wp_pure.mpr (Undisturbed.refl s)
  · cases htype : (s.file i).type with
    | none => exact Exec.wlp_throw
    | pipe => exact Exec.wp_pure.mpr (Undisturbed.refl s)
    | inode =>
        have hdev := hi htype
        have hlocked : Exec.wlp (onVolume do
            ilock (s.file i).ip
            let r ← readi (s.file i).ip (s.file i).off (uint32 n)
            iunlock (s.file i).ip
            pure r) (fun _ s' => Undisturbed s s') s := by
          apply locked_undisturbed (hl.valid i htype)
          intro s₁ h₁
          have hdev₁ : (s₁.vol.inode (s.file i).ip).type = tDev := by
            rw [(h₁.vol.inode _).1]
            exact hdev
          obtain ⟨r, hr⟩ := readi_device (s.file i).off (uint32 n) hdev₁
          rw [onVolume_bind]
          refine Exec.wlp_seq (wlp_onVolume (Exec.wp_of_run hr (Q := fun _ v => v = s₁.vol) rfl)) ?_
          rintro r _ ⟨v, rfl, rfl⟩
          simp only [onVolume_bind, onVolume_pure]
          exact (calm_iunlock _).bind (fun _ => Calm.pure) s₁ (h₁.loaded hl)
        refine Exec.wlp_seq (Exec.wlp_and hlocked
          (wlp_onVolume (Exec.wlp_of_forall fun _ _ => trivial))) ?_
        rintro r _ ⟨h₁, v, -, rfl⟩
        apply Exec.wp_bind.mpr
        apply Exec.wp_modify.mpr
        refine Exec.wp_pure.mpr (h₁.trans (undisturbed_setOff _ ?_))
        exact fun hp => not_plain_of_dev hdev ((h₁.vol.plain_iff _).mp hp)

/-- A chunk of a write to a device. -/
theorem chunk_device {k : Fin ninode} (src : Chars) (off n : ℕ) (hl : Loaded s)
    (hvalid : (s.vol.inode k).valid = true) (hdev : (s.vol.inode k).type = tDev) :
    Exec.wlp (onVolume (chunk k src off n)) (fun _ s' => Undisturbed s s') s := by
  unfold chunk
  rw [onVolume_bind]
  refine Exec.wlp_seq (calm_beginTrans s hl) fun _ s₁ h₁ => ?_
  refine Exec.wlp_mono (locked_undisturbed ?_ ?_) fun _ s₂ h₂ => h₁.trans h₂
  · rw [(h₁.vol.inode k).2.2]
    exact hvalid
  · intro s₂ h₂
    have hdev₂ : (s₂.vol.inode k).type = tDev := by
      rw [(h₂.vol.inode k).1, (h₁.vol.inode k).1]
      exact hdev
    obtain ⟨r, hr⟩ := writei_device src off n hdev₂
    rw [onVolume_bind]
    refine Exec.wlp_seq (wlp_onVolume (Exec.wp_of_run hr (Q := fun _ v => v = s₂.vol) rfl)) ?_
    rintro r _ ⟨v, rfl, rfl⟩
    simp only [onVolume_bind, onVolume_pure]
    exact (calm_iunlock k).bind (fun _ => calm_commitTrans.bind fun _ => Calm.pure) s₂
      (h₂.loaded (h₁.loaded hl))

theorem filewriteFrom_offstream {src : Chars} {n rounds j : ℕ} (hl : Loaded s)
    (htype : (s.file i).type = .inode) (hdev : (s.vol.inode (s.file i).ip).type = tDev) :
    Exec.wlp (filewriteFrom i src n rounds j) (fun _ s' => Undisturbed s s') s := by
  induction rounds generalizing s j with
  | zero => exact Exec.wp_pure.mpr (Undisturbed.refl s)
  | succ rounds ih =>
      unfold filewriteFrom
      split
      · apply Exec.wp_bind.mpr
        apply Exec.wp_gets.mpr
        have hchunk := chunk_device (fun x => src (j + x)) (s.file i).off
          (min (n - j) maxChunk) hl (hl.valid i htype) hdev
        refine Exec.wlp_seq (Exec.wlp_and hchunk
          (wlp_onVolume (Exec.wlp_of_forall fun _ _ => trivial))) ?_
        rintro r _ ⟨h₁, v, -, rfl⟩
        cases r with
        | none => exact Exec.wp_pure.mpr h₁
        | some r =>
            apply Exec.wp_bind.mpr
            apply Exec.wp_modify.mpr
            have hdev₁ : (v.inode (s.file i).ip).type = tDev := by
              rw [(h₁.vol.inode _).1]
              exact hdev
            have h₂ := h₁.trans (undisturbed_setOff (wrap32 ((s.file i).off + r))
              (not_plain_of_dev hdev₁))
            split
            · exact Exec.wlp_throw
            · refine Exec.wlp_mono (ih (h₂.loaded hl) ?_ ?_) fun _ s₃ h₃ => h₂.trans h₃
              · rw [Open.file_setFile]
                exact htype
              · rw [Open.file_setFile]
                exact hdev₁
      · exact Exec.wp_pure.mpr (Undisturbed.refl s)

theorem filewrite_offstream (hl : Loaded s) (hi : Offstream i s) (src : Chars) (n : ℤ)
    (piped : Option ℕ) :
    Exec.wlp (filewrite i src n piped) (fun _ s' => Undisturbed s s') s := by
  unfold filewrite
  apply Exec.wp_bind.mpr
  apply Exec.wp_gets.mpr
  split
  · exact Exec.wp_pure.mpr (Undisturbed.refl s)
  · cases htype : (s.file i).type with
    | none => exact Exec.wlp_throw
    | pipe => exact Exec.wp_pure.mpr (Undisturbed.refl s)
    | inode =>
        dsimp only
        split
        · exact Exec.wp_pure.mpr (Undisturbed.refl s)
        · exact filewriteFrom_offstream hl htype (hi htype)

theorem calm_allocproc (kstack : Bool) : Calm (allocproc kstack) := by
  unfold allocproc
  apply Calm.gets.bind
  intro s
  cases emptyTask s.task with
  | none => exact Calm.pure
  | some q =>
      refine (calm_modifyTask q _).bind fun _ => Calm.bind (calm_tasks ?_) fun _ =>
        Calm.ite Calm.pure ((calm_modifyTask q _).bind fun _ => Calm.pure)
      exact fun _ => ⟨rfl, rfl⟩

theorem calm_forkFile (np : Slot) (parent : Task) (fd : Fin nofile) :
    Calm (forkFile np parent fd) := by
  unfold forkFile
  cases parent.ofile fd with
  | none => exact Calm.pure
  | some i => exact (calm_filedup i).bind fun _ => calm_modifyTask np _

/-- The disk and the process that calls. -/
def System.caller (p : Slot) (s : System) : Volume × Task :=
  (s.vol, s.task p)

theorem keeps_modifyTask {p np : Slot} (hne : p ≠ np) (f : Task → Task) :
    Exec.Keeps (System.caller p) (modifyTask np f) :=
  Exec.Keeps.modify fun s => congrArg (Prod.mk s.vol) (task_setTask_of_ne hne)

theorem keeps_forkFile {p np : Slot} (hne : p ≠ np) (parent : Task) (fd : Fin nofile) :
    Exec.Keeps (System.caller p) (forkFile np parent fd) := by
  unfold forkFile
  cases parent.ofile fd with
  | none => exact Exec.Keeps.pure
  | some i =>
      refine Exec.Keeps.bind ?_ fun _ => keeps_modifyTask hne _
      unfold filedup
      refine Exec.Keeps.bind Exec.Keeps.gets fun f => ?_
      split
      · exact Exec.Keeps.throw
      · exact Exec.Keeps.modify fun _ => rfl

theorem allocproc_caller {p : Slot} (hp : (s.task p).state = .runnable) (kstack : Bool) :
    Exec.wlp (allocproc kstack)
      (fun r s' => s'.caller p = s.caller p ∧ ∀ np, r = some np → p ≠ np) s := by
  unfold allocproc
  apply Exec.wp_bind.mpr
  apply Exec.wp_gets.mpr
  cases hempty : emptyTask s.task with
  | none =>
      simp only [id_eq, hempty]
      exact Exec.wp_pure.mpr ⟨rfl, nofun⟩
  | some q =>
      have hunused := emptyTask_eq_some hempty
      have hne : p ≠ q := by
        rintro rfl
        rw [hp] at hunused
        cases hunused
      simp only [id_eq, hempty]
      refine Exec.wlp_seq (keeps_modifyTask hne _).wlp fun _ s₁ h₁ => ?_
      apply Exec.wp_bind.mpr
      apply Exec.wp_modify.mpr
      split
      · exact Exec.wp_pure.mpr ⟨h₁, fun np h => Option.some.inj h ▸ hne⟩
      · refine Exec.wlp_seq (keeps_modifyTask hne _).wlp fun _ s₂ h₂ => ?_
        exact Exec.wp_pure.mpr ⟨h₂.trans h₁, nofun⟩

/-- `fork`: the current directory that it shares is in use. -/
theorem fork_undisturbed {p : Slot} (hl : Loaded s) (hp : (s.task p).state = .runnable)
    (hcwd : ∀ k, (s.task p).cwd = some k → 0 < (s.vol.inode k).ref) (kstack copied : Bool) :
    Exec.wlp (fork p kstack copied) (fun _ s' => Undisturbed s s') s := by
  unfold fork
  refine Exec.wlp_seq (Exec.wlp_and (calm_allocproc kstack s hl) (allocproc_caller hp kstack)) ?_
  rintro r s₁ ⟨h₁, hsame, hne⟩
  cases r with
  | none => exact Exec.wp_pure.mpr h₁
  | some np =>
      have hnp := hne np rfl
      dsimp only
      split
      · refine Exec.wlp_seq (Exec.wlp_and (calm_modifyTask np _ s₁ (h₁.loaded hl))
          (keeps_modifyTask hnp _).wlp) ?_
        rintro _ s₂ ⟨h₂, hsame₂⟩
        apply Exec.wp_bind.mpr
        apply Exec.wp_gets.mpr
        have hl₂ := h₂.loaded (h₁.loaded hl)
        refine Exec.wlp_seq (Exec.wlp_and (Calm.each (calm_forkFile np (s₂.task p)) _ s₂ hl₂)
          (Exec.Keeps.each (keeps_forkFile hnp (s₂.task p)) _).wlp) ?_
        rintro _ s₃ ⟨h₃, hsame₃⟩
        have hcaller := hsame₃.trans (hsame₂.trans hsame)
        have hvol : s₃.vol = s.vol := congrArg Prod.fst hcaller
        have htask : s₃.task p = s.task p := congrArg Prod.snd hcaller
        have h₁₃ := (h₁.trans h₂).trans h₃
        unfold getCwd
        apply Exec.wp_bind.mpr
        apply Exec.wp_bind.mpr
        apply Exec.wp_gets.mpr
        cases hc : (s₃.task p).cwd with
        | none => exact Exec.wlp_throw
        | some cwd =>
            apply Exec.wp_pure.mpr
            -- `idup`: the directory is that of the parent
            have href : 0 < (s₃.vol.inode cwd).ref := by
              rw [hvol]
              exact hcwd cwd (htask ▸ hc)
            have hdup : Exec.wlp (onVolume (idup cwd)) (fun _ s' => Undisturbed s₃ s') s₃ := by
              apply Exec.wp_zoom.mpr
              unfold idup
              apply Exec.wp_bind.mpr
              apply Exec.wp_modify.mpr
              exact Exec.wp_pure.mpr (Undisturbed.of_volume
                (Resting.setInode rfl rfl rfl fun _ => href))
            refine Exec.wlp_seq hdup fun ip s₄ h₄ => ?_
            have hlast : Calm (do
                let child ← Exec.gets fun s => s.task np
                modifyTask np fun t => { t with cwd := some ip, state := .runnable }
                pure (some child.pid) : SystemM (Option ℤ)) :=
              Calm.gets.bind fun _ => (calm_modifyTask np _).bind fun _ => Calm.pure
            exact Exec.wlp_mono (hlast s₄ (h₄.loaded (h₁₃.loaded hl)))
              fun _ s₅ h₅ => (h₁₃.trans h₄).trans h₅
      · exact Exec.wlp_mono ((calm_modifyTask np _).bind (fun _ => Calm.pure) s₁ (h₁.loaded hl))
          fun _ s₂ h₂ => h₁.trans h₂

/-! ## States whose open files are streams -/

/-- The invariant of runs on descriptors: no file that is in use has lost its last link, and
an open file is a device or stands inside of a file or directory. -/
structure Streaming (s : System) : Prop where
  counted : Counted s
  owned : Owned s.vol
  same : ∀ k, 0 < (s.vol.inode k).ref → (s.vol.inode k).valid = true →
    (s.vol.inode k).toDinode = s.vol.dinode (s.vol.inode k).inum
  allocated : ∀ k, 0 < (s.vol.inode k).ref → (s.vol.inode k).valid = true →
    s.vol.Allocated (s.vol.inode k).inum
  loaded : Loaded s
  inside : ∀ i, (s.file i).type = .inode → (s.vol.inode (s.file i).ip).type = tDev ∨
    s.vol.Plain (s.file i).ip ∧ (s.file i).off ≤ (s.vol.inode (s.file i).ip).size

namespace Streaming

theorem steady (h : Streaming s) : Steady s.vol where
  owned := h.owned
  unlocked := h.counted.exact.unlocked
  idle := h.counted.files.tally.trans
  clear := h.counted.files.tally.idle rfl
  once := h.counted.exact.once
  same := h.same
  allocated := h.allocated

theorem standing (h : Streaming s) (hi : s.streams.cursor i ≠ none) : Standing i s := by
  obtain ⟨htype, hplain⟩ : (s.file i).type = .inode ∧ s.vol.Plain (s.file i).ip := by
    by_contra hnot
    exact hi (if_neg hnot)
  have hrefs : 0 < occurs s.ofiles i := by
    apply Nat.pos_of_ne_zero
    intro h0
    have hclosed := h.counted.files.closed i h0
    rw [htype] at hclosed
    cases hclosed
  have href := h.counted.files.held_pos hrefs htype
  rw [← h.counted.files.tally.ref] at href
  refine ⟨htype, ⟨href, h.loaded.valid i htype, hplain⟩, ?_⟩
  rcases h.inside i htype with hdev | hoff
  · exact absurd hplain (not_plain_of_dev hdev)
  · exact hoff.2

theorem offstream (h : Streaming s) (hi : s.streams.cursor i = none) : Offstream i s := by
  intro htype
  rcases h.inside i htype with hdev | hplain
  · exact hdev
  · have hsome : s.streams.cursor i = _ := if_pos ⟨htype, hplain.1⟩
    rw [hi] at hsome
    cases hsome

end Streaming

/-- Nothing has been transferred. -/
theorem Undisturbed.step (h : Undisturbed s s') :
    Streams.Step 4294967296 accepted s.streams .other s'.streams := by
  have hdisk := h.vol.disk
  constructor
  · funext x
    change (if s'.vol.Allocated x then s'.vol.contents x else []) = _
    rw [hdisk]
    rfl
  · intro i
    change s'.vol.cursor (s'.file i) = s.vol.cursor (s.file i) ∨ s'.vol.cursor (s'.file i) = none
    by_cases hi : (s'.file i).type = .inode ∧ s'.vol.Plain (s'.file i).ip
    · obtain ⟨htype, hip, hoff⟩ := h.file i hi.1
      have hplain : s.vol.Plain (s.file i).ip := (h.vol.plain_iff _).mp (hip ▸ hi.2)
      left
      unfold Volume.cursor
      rw [if_pos hi, if_pos ⟨htype, hplain⟩, hip, (h.vol.inode _).2.1, hoff hplain]
    · exact Or.inr (if_neg hi)

theorem Undisturbed.streaming (h : Undisturbed s s') (hs : Streaming s) (hc : Counted s') :
    Streaming s' := by
  have hdisk := h.vol.disk
  have hdinode : s'.vol.dinode = s.vol.dinode := by rw [hdisk]
  have halloc : ∀ x, s'.vol.Allocated x ↔ s.vol.Allocated x := fun x => by
    rw [hdisk]
    rfl
  refine ⟨hc, hs.owned.of_disk hdisk h.vol.logSize, fun k hk hv => ?_, fun k hk hv => ?_,
    h.loaded hs.loaded, fun i hi => ?_⟩
  · obtain ⟨hd, hinum, hvalid⟩ := h.vol.inode k
    rw [hd, hinum, hdinode]
    exact hs.same k (h.vol.ref k hk) (hvalid ▸ hv)
  · obtain ⟨-, hinum, hvalid⟩ := h.vol.inode k
    rw [hinum]
    exact (halloc _).mpr (hs.allocated k (h.vol.ref k hk) (hvalid ▸ hv))
  · obtain ⟨htype, hip, hoff⟩ := h.file i hi
    rw [hip, (h.vol.inode _).1]
    rcases hs.inside i htype with hdev | ⟨hplain, hle⟩
    · exact Or.inl hdev
    · refine Or.inr ⟨(h.vol.plain_iff _).mpr hplain, ?_⟩
      rw [hoff hplain]
      exact hle

/-- A file has been read. -/
theorem Streaming.advanced (h : Streaming s) (hi : Standing i s) {m : ℕ}
    (hm : (s.file i).off + m ≤ (s.vol.inode (s.file i).ip).size) (hc : Counted (s.advanced i m)) :
    Streaming (s.advanced i m) := by
  have hself : (s.advanced i m).file i = { s.file i with off := (s.file i).off + m } :=
    Function.update_self _ _ _
  have hother : ∀ j ≠ i, (s.advanced i m).file j = s.file j :=
    fun j hj => Function.update_of_ne hj _ _
  refine ⟨hc, h.owned, h.same, h.allocated, ⟨h.loaded.linked, fun j hj => ?_⟩, fun j hj => ?_⟩
  · by_cases hji : j = i
    · rw [hji, hself]
      exact hi.ready.valid
    · rw [hother j hji] at hj ⊢
      exact h.loaded.valid j hj
  · by_cases hji : j = i
    · rw [hji, hself]
      exact Or.inr ⟨hi.ready.plain, hm⟩
    · rw [hother j hji] at hj ⊢
      exact h.inside j hj

/-- A file has been written. -/
theorem Poured.streaming {bs : List UInt8} (hp : Poured i bs s s') (h : Streaming s)
    (hc : Counted s') : Streaming s' := by
  have htype : ∀ k, (s'.vol.inode k).type = (s.vol.inode k).type := fun k => by rw [hp.inode k]
  have hfile : ∀ j, (s'.file j).type = (s.file j).type ∧ (s'.file j).ip = (s.file j).ip := by
    intro j
    by_cases hji : j = i
    · rw [hji, hp.file_self]
      exact ⟨rfl, rfl⟩
    · rw [hp.file, Function.update_of_ne hji]
      exact ⟨rfl, rfl⟩
  refine ⟨hc, hp.steady.owned, hp.steady.same, hp.steady.allocated, ⟨fun k hk => ?_,
    fun j hj => ?_⟩, fun j hj => ?_⟩
  · rw [hp.inode k] at hk ⊢
    exact h.loaded.linked k hk
  · rw [(hfile j).1] at hj
    rw [(hfile j).2, hp.inode]
    exact h.loaded.valid j hj
  · by_cases hji : j = i
    · rw [hji]
      exact Or.inr ⟨hp.standing.ready.plain, hp.standing.off⟩
    · rw [(hfile j).1] at hj
      rw [hp.file, Function.update_of_ne hji, htype]
      rcases h.inside j hj with hdev | ⟨hplain, hoff⟩
      · exact Or.inl hdev
      · refine Or.inr ⟨?_, hoff.trans (hp.grows _)⟩
        unfold Volume.Plain
        rw [htype]
        exact hplain

/-! ## Runs -/

/-- The calls that work on descriptors. -/
def SysCall.onDescriptors : SysCall → Bool
  | .dup _ | .read .. | .write .. | .close _ | .fstat .. | .pipe .. | .fork .. | .exit | .wait =>
      true
  | _ => false

/-- The file of a descriptor. -/
def System.opened (s : System) (p : Slot) (fd : Option ℤ) : Option (Fin nfile) :=
  fd.bind fun fd =>
    if h : 0 ≤ fd ∧ fd < nofile then (s.task p).ofile ⟨fd.toNat, toNat_lt_nofile h⟩ else none

/-- What a call asks of the streams, and what it answers. -/
def System.transfer (s : System) (p : Slot) :
    SysCall → Reply → Streams.Transfer (Fin nfile) UInt8
  | .read fd (some n) _, .bytes r =>
      match s.opened p fd with
      | some i =>
          if (s.file i).readable = true ∧ (s.streams.cursor i).isSome then .read i (uint32 n) r
          else .other
      | none => .other
  | .write fd src (some n) _, .count r =>
      match s.opened p fd with
      | some i =>
          if (s.file i).writable = true ∧ (s.streams.cursor i).isSome ∧ 0 ≤ n then
            .write i ((List.range n.toNat).map src) r
          else .other
      | none => .other
  | _, _ => .other

/-- A call on descriptors.  A call that writes finds enough free blocks below the log for a
largest file. -/
structure DescriptorStep (s : System) (t : Streams.Transfer (Fin nfile) UInt8) (s' : System) :
    Prop where
  call : ∃ p junk call r, CallStep s (p, junk, call, r) s' ∧ call.onDescriptors = true ∧
    ((∃ fd src n piped, call = .write fd src n piped) → 141 ≤ s.vol.freeBlocks.card) ∧
    t = s.transfer p call r

theorem argfd_run (p : Slot) (fd : Option ℤ) (s : System) :
    ∃ a, argfd p fd s = (.ok a, s) ∧ a.map Prod.snd = s.opened p fd := by
  refine ⟨_, rfl, ?_⟩
  unfold System.opened
  cases fd with
  | none => rfl
  | some fd =>
      rw [Option.bind_some, Option.bind_some]
      split
      · rw [Option.map_map]
        exact Option.map_id'
      · rfl

theorem roomy_of_free {v : Volume} (h : 141 ≤ v.freeBlocks.card) (k : Fin ninode) :
    v.Roomy k := by
  have hcard := Finset.card_filter_le (Finset.range 141) fun a => True ∧ v.ref k a = 0
  rw [Finset.card_range] at hcard
  exact hcard.trans h

/-- What a call is to leave behind. -/
def Refines (s : System) (t : Streams.Transfer (Fin nfile) UInt8) (s' : System) : Prop :=
  Counted s' → Streaming s' ∧ Streams.Step 4294967296 accepted s.streams t s'.streams

theorem Undisturbed.refines (h : Undisturbed s s') (hs : Streaming s) : Refines s .other s' :=
  fun hc => ⟨h.streaming hs hc, h.step⟩

section

variable {p : Slot} {fd n : Option ℤ}

theorem transfer_read_closed (h : s.opened p fd = none ∨ n = none)
    (piped : Option (List UInt8)) (r : Reply) : s.transfer p (.read fd n piped) r = .other := by
  rcases h with h | rfl
  · cases n with
    | none => cases r <;> rfl
    | some n => cases r <;> simp [System.transfer, h]
  · cases r <;> rfl

theorem transfer_write_closed (h : s.opened p fd = none ∨ n = none) (src : Chars)
    (piped : Option ℕ) (r : Reply) : s.transfer p (.write fd src n piped) r = .other := by
  rcases h with h | rfl
  · cases n with
    | none => cases r <;> rfl
    | some n => cases r <;> simp [System.transfer, h]
  · cases r <;> rfl

theorem sysRead_refines (h : Streaming s) (piped : Option (List UInt8)) :
    Exec.wlp (sysRead p fd n piped) (fun r s' =>
      Refines s (s.transfer p (.read fd n piped) (.bytes r)) s') s := by
  obtain ⟨a, ha, hopened⟩ := argfd_run p fd s
  unfold sysRead
  apply Exec.wp_congr (Exec.bind_run_ok ha)
  have hrefl := (Undisturbed.refl s).refines h
  cases a with
  | none =>
      apply Exec.wp_pure.mpr
      rwa [transfer_read_closed (Or.inl hopened.symm)]
  | some x =>
      cases n with
      | none =>
          apply Exec.wp_pure.mpr
          rwa [transfer_read_closed (Or.inr rfl)]
      | some n =>
          have htransfer : ∀ r, s.transfer p (.read fd (some n) piped) (.bytes r) =
              if (s.file x.2).readable = true ∧ (s.streams.cursor x.2).isSome then
                .read x.2 (uint32 n) r else .other := fun r => by
            simp only [System.transfer, ← hopened, Option.map_some]
          simp only [htransfer]
          by_cases hx : (s.file x.2).readable = true ∧ (s.streams.cursor x.2).isSome
          · simp only [if_pos hx]
            have hi := h.standing (Option.isSome_iff_ne_none.mp hx.2)
            obtain ⟨r, m, hrun, hm, hread⟩ := hi.fileread_run h.steady hx.1 n piped
            exact Exec.wp_of_run hrun fun hc => ⟨h.advanced hi hm hc, hread⟩
          · simp only [if_neg hx]
            refine Exec.wlp_mono ?_ fun _ _ hu => Undisturbed.refines hu h
            by_cases hreadable : (s.file x.2).readable = true
            · have hnone : s.streams.cursor x.2 = none := by
                by_contra hsome
                exact hx ⟨hreadable, Option.isSome_iff_ne_none.mpr hsome⟩
              exact fileread_offstream h.loaded (h.offstream hnone) n piped
            · unfold fileread
              apply Exec.wp_bind.mpr
              apply Exec.wp_gets.mpr
              rw [if_pos (Bool.not_eq_true _ ▸ hreadable)]
              exact Exec.wp_pure.mpr (Undisturbed.refl s)

theorem sysWrite_refines (h : Streaming s) (hfree : 141 ≤ s.vol.freeBlocks.card) (src : Chars)
    (piped : Option ℕ) : Exec.wlp (sysWrite p fd src n piped) (fun r s' =>
      Refines s (s.transfer p (.write fd src n piped) (.count r)) s') s := by
  obtain ⟨a, ha, hopened⟩ := argfd_run p fd s
  unfold sysWrite
  apply Exec.wp_congr (Exec.bind_run_ok ha)
  have hrefl := (Undisturbed.refl s).refines h
  cases a with
  | none =>
      apply Exec.wp_pure.mpr
      rwa [transfer_write_closed (Or.inl hopened.symm)]
  | some x =>
      cases n with
      | none =>
          apply Exec.wp_pure.mpr
          rwa [transfer_write_closed (Or.inr rfl)]
      | some n =>
          have htransfer : ∀ r, s.transfer p (.write fd src (some n) piped) (.count r) =
              if (s.file x.2).writable = true ∧ (s.streams.cursor x.2).isSome ∧ 0 ≤ n then
                .write x.2 ((List.range n.toNat).map src) r else .other := fun r => by
            simp only [System.transfer, ← hopened, Option.map_some]
          simp only [htransfer]
          by_cases hx : (s.file x.2).writable = true ∧ (s.streams.cursor x.2).isSome ∧ 0 ≤ n
          · simp only [if_pos hx]
            have hi := h.standing (Option.isSome_iff_ne_none.mp hx.2.1)
            refine Exec.wlp_mono (hi.filewrite_poured h.steady (roomy_of_free hfree _) hx.1 src
              hx.2.2 piped) ?_
            rintro r s' ⟨hwrite, hpoured, -⟩
            exact fun hc => ⟨hpoured.streaming h hc, hwrite.symm⟩
          · simp only [if_neg hx]
            refine Exec.wlp_mono ?_ fun _ _ hu => Undisturbed.refines hu h
            by_cases hcursor : s.streams.cursor x.2 = none
            · exact filewrite_offstream h.loaded (h.offstream hcursor) src n piped
            · have htype := (h.standing hcursor).type
              unfold filewrite
              apply Exec.wp_bind.mpr
              apply Exec.wp_gets.mpr
              split
              · exact Exec.wp_pure.mpr (Undisturbed.refl s)
              · rename_i hwritable
                have hneg : n < 0 := by
                  by_contra hn
                  refine hx ⟨by simpa using hwritable, Option.isSome_iff_ne_none.mpr hcursor, ?_⟩
                  exact not_lt.mp hn
                rw [htype]
                dsimp only
                rw [if_pos hneg]
                exact Exec.wp_pure.mpr (Undisturbed.refl s)

/-- A call whose transfer is none. -/
theorem reply_refines {α : Type} {m : SystemM α} {f : α → Reply} {call : SysCall}
    (h : Streaming s) (hm : Exec.wlp m (fun _ s' => Undisturbed s s') s)
    (htransfer : ∀ r, s.transfer p call r = .other) :
    Exec.wlp (reply f m) (fun r s' => Refines s (s.transfer p call r) s') s := by
  unfold reply
  refine Exec.wlp_seq hm fun a s' hu => ?_
  apply Exec.wp_pure.mpr
  rw [htransfer]
  exact Undisturbed.refines hu h

theorem perform_refines {call : SysCall} (h : Streaming s) (hp : (s.task p).state = .runnable)
    (hon : call.onDescriptors = true)
    (hfree : (∃ fd src n piped, call = .write fd src n piped) → 141 ≤ s.vol.freeBlocks.card)
    (junk : Chars) :
    Exec.wlp (perform p junk call) (fun r s' => Refines s (s.transfer p call r) s') s := by
  cases call with
  | read fd n piped =>
      exact Exec.wlp_seq (sysRead_refines h piped) fun r s' hr => Exec.wp_pure.mpr hr
  | write fd src n piped =>
      exact Exec.wlp_seq (sysWrite_refines h (hfree ⟨fd, src, n, piped, rfl⟩) src piped)
        fun r s' hr => Exec.wp_pure.mpr hr
  | dup fd => exact reply_refines h (calm_sysDup p fd s h.loaded) fun _ => rfl
  | close fd => exact reply_refines h (calm_sysClose p fd s h.loaded) fun _ => rfl
  | fstat fd st => exact reply_refines h (calm_sysFstat p fd st s h.loaded) fun _ => rfl
  | pipe fd page => exact reply_refines h (calm_sysPipe p fd page s h.loaded) fun _ => rfl
  | fork kstack copied =>
      refine reply_refines h (fork_undisturbed h.loaded hp ?_ kstack copied) fun _ => rfl
      intro k hk
      rw [h.counted.files.tally.ref]
      exact withFiles_pos _ (Counted.cwd_pos hk)
  | exit => exact reply_refines h (calm_exit p s h.loaded) fun _ => rfl
  | wait => exact reply_refines h (calm_wait p s h.loaded) fun _ => rfl
  | «open» path omode => cases hon
  | chdir path => cases hon
  | link old new => cases hon
  | unlink path => cases hon
  | mkdir path => cases hon
  | mknod path major minor => cases hon
  | exec path mem => cases hon

end

variable {t : Streams.Transfer (Fin nfile) UInt8}

theorem DescriptorStep.refines (hstep : DescriptorStep s t s') (h : Streaming s) :
    Streaming s' ∧ Streams.Step 4294967296 accepted s.streams t s'.streams := by
  obtain ⟨p, junk, call, r, hcall, hon, hfree, rfl⟩ := hstep.call
  have hcounted := Exec.wp_ok (perform_counted h.counted hcall.alive junk call) hcall.returns
  exact Exec.wp_ok (perform_refines h hcall.alive hon hfree junk) hcall.returns hcounted

end

section

variable (p : Slot) (fd : Fin nofile) (i : Fin nfile) {k c : Fin ninode}

end

end Xv6.Fs
