import Xv6.Fs.CallTally
import Xv6.Fs.System

/-!
# References in the file table

What the functions of `file.c` do to the reference counts of the file table and, through
the files that are open for an inode, to those of the inode cache.
-/

namespace Xv6.Fs

open Support

/-- The inode that a file in use is open for. -/
def File.target (f : File) : Option (Fin ninode) :=
  if 0 < f.ref ∧ f.type = .inode then some f.ip else none

/-- The references to inodes: `held` and those of the open files. -/
def withFiles (file : Fin nfile → File) (held : Fin ninode → ℕ) (k : Fin ninode) : ℕ :=
  occurs (fun i => (file i).target) k + held k

/-- There are `refs` references to the entries of the file table, and beside those of the
open files `held` references to inodes.  The files in `fresh` are in use but not yet set
up. -/
structure Open (refs : Fin nfile → ℕ) (held : Fin ninode → ℕ) (lock : Finset (Fin ninode))
    (fresh : Finset (Fin nfile)) (s : System) : Prop where
  ref : ∀ i, (s.file i).ref = refs i
  tally : Tally (withFiles s.file held) lock false s.vol
  closed : ∀ i, refs i = 0 → (s.file i).type = .none
  bare : ∀ i ∈ fresh, (s.file i).type = .none
  typed : ∀ i ∉ fresh, 0 < refs i → (s.file i).type ≠ .none

section

variable {file : Fin nfile → File} {held held' : Fin ninode → ℕ} {lock : Finset (Fin ninode)}
  {refs : Fin nfile → ℕ} {fresh : Finset (Fin nfile)} {s s' : System} {i : Fin nfile}
  {k : Fin ninode} {f : File}

theorem withFiles_hold (k : Fin ninode) :
    withFiles file (hold held k) = hold (withFiles file held) k := by
  funext j
  exact (Nat.add_assoc _ _ _).symm

theorem withFiles_taken (r : Option (Fin ninode)) :
    withFiles file (taken held r) = taken (withFiles file held) r := by
  cases r with
  | none => rfl
  | some k => exact withFiles_hold k

theorem withFiles_pos (file : Fin nfile → File) (h : 0 < held k) : 0 < withFiles file held k :=
  Nat.lt_of_lt_of_le h (Nat.le_add_left _ _)

theorem target_update (file : Fin nfile → File) (i : Fin nfile) (f : File) :
    (fun j => (Function.update file i f j).target) =
      Function.update (fun j => (file j).target) i f.target := by
  funext j
  by_cases hj : j = i
  · rw [hj, Function.update_self, Function.update_self]
  · rw [Function.update_of_ne hj, Function.update_of_ne hj]

/-- A change of a file that leaves it open for the same inode, or for none. -/
theorem withFiles_same (h : f.target = (file i).target) (held : Fin ninode → ℕ) :
    withFiles (Function.update file i f) held = withFiles file held := by
  unfold withFiles
  rw [target_update, h, Function.update_eq_self]

/-- A file is closed. -/
theorem withFiles_close (h : (file i).target = some k) (hf : f.target = none)
    (held : Fin ninode → ℕ) :
    withFiles file held = withFiles (Function.update file i f) (hold held k) := by
  funext j
  have hclear := congrFun (occurs_clear (f := fun j => (file j).target) h) j
  unfold withFiles
  rw [target_update, hf, hclear]
  unfold extra hold
  omega

/-- A file is opened. -/
theorem withFiles_open (h : (file i).target = none) (hf : f.target = some k)
    (held : Fin ninode → ℕ) :
    withFiles (Function.update file i f) held = withFiles file (hold held k) := by
  funext j
  have hfill := congrFun (occurs_fill (f := fun j => (file j).target) h k) j
  unfold withFiles
  rw [target_update, hf, hfill]
  unfold extra hold
  omega

theorem target_of_type (h : f.type ≠ .inode) : f.target = none :=
  if_neg fun hf => h hf.2

theorem target_of_ref (h : f.ref = 0) : f.target = none :=
  if_neg fun hf => by
    have := hf.1
    omega

theorem target_of_open (href : 0 < f.ref) (htype : f.type = .inode) : f.target = some f.ip :=
  if_pos ⟨href, htype⟩

namespace Open

/-- A change of the inode cache and the disk. -/
theorem volume (h : Open refs held lock fresh s) {lock' : Finset (Fin ninode)} {v : Volume}
    (hv : Tally (withFiles s.file held') lock' false v) :
    Open refs held' lock' fresh { s with vol := v } :=
  ⟨h.ref, hv, h.closed, h.bare, h.typed⟩

/-- A change of the process table. -/
theorem tasks (h : Open refs held lock fresh s) (hvol : s'.vol = s.vol)
    (hfile : s'.file = s.file) : Open refs held lock fresh s' := by
  constructor
  · rw [hfile]
    exact h.ref
  · rw [hfile, hvol]
    exact h.tally
  · rw [hfile]
    exact h.closed
  · rw [hfile]
    exact h.bare
  · rw [hfile]
    exact h.typed

theorem file_setFile (s : System) (i : Fin nfile) (f : File) : (s.setFile i f).file i = f :=
  Function.update_self _ _ _

theorem file_setFile_of_ne {j : Fin nfile} (hj : j ≠ i) :
    (s.setFile i f).file j = s.file j :=
  Function.update_of_ne hj _ _

/-- A change of an entry of the file table. -/
theorem setFile (h : Open refs held lock fresh s) {refs' : Fin nfile → ℕ}
    {fresh' : Finset (Fin nfile)} (hrefs : ∀ j ≠ i, refs' j = refs j)
    (hfresh : ∀ j ≠ i, j ∈ fresh' ↔ j ∈ fresh) (href : f.ref = refs' i)
    (hheld : withFiles (Function.update s.file i f) held' = withFiles s.file held)
    (hclosed : refs' i = 0 ∨ i ∈ fresh' → f.type = .none)
    (htyped : i ∉ fresh' → 0 < refs' i → f.type ≠ .none) :
    Open refs' held' lock fresh' (s.setFile i f) := by
  have hself := file_setFile s i f
  have hother : ∀ j ≠ i, (s.setFile i f).file j = s.file j := fun j hj => file_setFile_of_ne hj
  refine ⟨fun j => ?_, ?_, fun j => ?_, fun j => ?_, fun j => ?_⟩
  · by_cases hj : j = i
    · rw [hj, hself, href]
    · rw [hother j hj, hrefs j hj, h.ref]
  · change Tally (withFiles (Function.update s.file i f) held') lock false s.vol
    rw [hheld]
    exact h.tally
  · by_cases hj : j = i
    · rw [hj, hself]
      exact fun h0 => hclosed (Or.inl h0)
    · rw [hother j hj, hrefs j hj]
      exact h.closed j
  · by_cases hj : j = i
    · rw [hj, hself]
      exact fun hmem => hclosed (Or.inr hmem)
    · rw [hother j hj, hfresh j hj]
      exact h.bare j
  · by_cases hj : j = i
    · rw [hj, hself]
      exact htyped
    · rw [hother j hj, hrefs j hj, hfresh j hj]
      exact h.typed j

/-- A file that has been closed again need not be set up. -/
theorem drop (h : Open refs held lock (insert i fresh) s) (h0 : refs i = 0) :
    Open refs held lock fresh s := by
  refine ⟨h.ref, h.tally, h.closed, fun j hj => h.bare j (Finset.mem_insert_of_mem hj), ?_⟩
  intro j hj hpos
  have hne : j ≠ i := by
    rintro rfl
    omega
  exact h.typed j (by simp [hne, hj]) hpos

/-- A file that has been set up. -/
theorem setUp (h : Open refs held lock (insert i fresh) s) (hi : i ∉ fresh) (hpos : 0 < refs i)
    (href : f.ref = (s.file i).ref) (htype : f.type ≠ .none)
    (hheld : withFiles (Function.update s.file i f) held' = withFiles s.file held) :
    Open refs held' lock fresh (s.setFile i f) := by
  refine h.setFile (fun _ _ => rfl) (fun j hj => ?_) (href.trans (h.ref i)) hheld ?_ ?_
  · simp [hj]
  · rintro (h0 | hmem)
    · omega
    · exact absurd hmem hi
  · exact fun _ _ => htype

/-- The file is not open for an inode before it is set up. -/
theorem target_fresh (h : Open refs held lock (insert i fresh) s) :
    (s.file i).target = none := by
  apply target_of_type
  rw [h.bare i (Finset.mem_insert_self i fresh)]
  exact nofun

end Open

/-! ## The functions -/

/-- Code of the file system proper. -/
theorem onVolume_open {α : Type} {m : FsM α} {held' : α → Fin ninode → ℕ}
    {lock' : α → Finset (Fin ninode)} (h : Open refs held lock fresh s)
    (hm : guarded m (fun r v => Tally (withFiles s.file (held' r)) (lock' r) false v) s.vol) :
    guarded (onVolume m)
      (fun r s' => Open refs (held' r) (lock' r) fresh s' ∧ s'.task = s.task) s :=
  Exec.wp_zoom.mpr (Exec.wp_mono hm (fun _ _ hv => ⟨h.volume hv, rfl⟩) fun _ _ he => he)

theorem emptyFile_eq_some (h : emptyFile file = some i) : (file i).ref = 0 := by
  simpa using List.find?_some h

theorem filealloc_open (h : Open refs held lock fresh s) :
    guarded filealloc (fun r s' => Open (r.elim refs (extra refs)) held lock
      (r.elim fresh fun i => insert i fresh) s' ∧ (∀ i, r = some i → refs i = 0) ∧
      s'.task = s.task) s := by
  unfold filealloc
  apply Exec.wp_bind.mpr
  apply Exec.wp_gets.mpr
  cases hempty : emptyFile s.file with
  | none => exact Exec.wp_pure.mpr ⟨h, nofun, rfl⟩
  | some i =>
      have h0 := emptyFile_eq_some hempty
      have hrefs : refs i = 0 := (h.ref i).symm.trans h0
      have htype := h.closed i hrefs
      have hnew : ({ s.file i with ref := 1 } : File).target = (s.file i).target := by
        rw [target_of_ref h0]
        apply target_of_type
        rw [htype]
        exact nofun
      apply Exec.wp_bind.mpr
      apply Exec.wp_modify.mpr
      refine Exec.wp_pure.mpr ⟨?_, fun j hj => Option.some.inj hj ▸ hrefs, rfl⟩
      apply h.setFile (fun j hj => extra_of_ne hj) (fun j hj => by simp [hj]) ?_
        (withFiles_same hnew held) (fun _ => htype) ?_
      · change 1 = extra refs i i
        rw [extra_self, hrefs]
      · exact fun hmem => absurd (Finset.mem_insert_self i fresh) hmem

theorem filedup_open (h : Open refs held lock fresh s) (hi : 0 < refs i) :
    guarded (filedup i) (fun _ s' => Open (extra refs i) held lock fresh s' ∧
      s'.task = s.task) s := by
  have href := h.ref i
  unfold filedup
  apply Exec.wp_bind.mpr
  apply Exec.wp_gets.mpr
  rw [if_neg (by omega)]
  apply Exec.wp_modify.mpr
  have hsame : ({ s.file i with ref := (s.file i).ref + 1 } : File).target =
      (s.file i).target := by
    unfold File.target
    have hpos : 0 < (s.file i).ref := by omega
    simp [hpos]
  refine ⟨h.setFile (fun j hj => extra_of_ne hj) (fun _ _ => Iff.rfl) ?_
    (withFiles_same hsame held) ?_ fun hmem _ => h.typed i hmem hi, rfl⟩
  · change (s.file i).ref + 1 = extra refs i i
    rw [extra_self, href]
  · rintro (h0 | hmem)
    · rw [extra_self] at h0
      omega
    · exact h.bare i hmem

theorem fileclose_open (h : Open (extra refs i) held lock fresh s)
    (hlock : ∀ k ∈ lock, 0 < held k) :
    guarded (fileclose i) (fun _ s' => Open refs held lock fresh s' ∧ s'.task = s.task) s := by
  have href := h.ref i
  rw [extra_self] at href
  unfold fileclose
  apply Exec.wp_bind.mpr
  apply Exec.wp_gets.mpr
  rw [if_neg (by omega)]
  by_cases hpos : 0 < (s.file i).ref - 1
  · rw [if_pos hpos]
    apply Exec.wp_modify.mpr
    have hsame : ({ s.file i with ref := (s.file i).ref - 1 } : File).target =
        (s.file i).target := by
      unfold File.target
      have hpos' : 0 < (s.file i).ref := by omega
      simp [hpos, hpos']
    refine ⟨h.setFile (fun j hj => (extra_of_ne hj).symm) (fun _ _ => Iff.rfl) ?_
      (withFiles_same hsame held) ?_ fun hmem _ => h.typed i hmem (by rw [extra_self]; omega), rfl⟩
    · change (s.file i).ref - 1 = refs i
      omega
    · rintro (h0 | hmem)
      · omega
      · exact h.bare i hmem
  · have hrefs : refs i = 0 := by omega
    obtain ⟨f, hf⟩ : ∃ f : File, f = { s.file i with ref := 0, type := .none } := ⟨_, rfl⟩
    have hftype : f.type = .none := by rw [hf]
    have hfref : f.ref = refs i := by rw [hf, hrefs]
    have hfnone : f.target = none := target_of_type (by rw [hftype]; exact nofun)
    have hset : ∀ held', withFiles (Function.update s.file i f) held' = withFiles s.file held →
        Open refs held' lock fresh (s.setFile i f) := fun held' hheld =>
      h.setFile (fun j hj => (extra_of_ne hj).symm) (fun _ _ => Iff.rfl) hfref hheld
        (fun _ => hftype) fun _ hpos' => by omega
    rw [if_neg hpos]
    apply Exec.wp_bind.mpr
    apply Exec.wp_modify.mpr
    change guarded (closeInode (s.file i)) _ (s.setFile i { s.file i with ref := 0, type := .none })
    rw [← hf]
    unfold closeInode
    by_cases htype : (s.file i).type = .inode
    · rw [if_pos htype]
      have htarget : (s.file i).target = some (s.file i).ip := target_of_open (by omega) htype
      have hopen := hset _ (withFiles_close htarget hfnone held).symm
      have htally := hopen.tally
      rw [withFiles_hold] at htally
      refine onVolume_open hopen ?_
      refine guarded_seq (beginTrans_tally htally) fun _ v₁ h₁ => ?_
      refine guarded_seq (iput_tally h₁ fun hl => withFiles_pos _ (hlock _ hl)) fun _ v₂ h₂ => ?_
      exact commitTrans_tally h₂
    · rw [if_neg htype]
      have hsame : f.target = (s.file i).target := by
        rw [hfnone, target_of_type htype]
      exact Exec.wp_pure.mpr ⟨hset held (withFiles_same hsame held), rfl⟩

/-- A change of the offset of a file. -/
theorem Open.setOff (h : Open refs held lock fresh s) (i : Fin nfile) (off : ℕ) :
    Open refs held lock fresh (s.setFile i { s.file i with off := off }) := by
  have hsame : ({ s.file i with off := off } : File).target = (s.file i).target := rfl
  refine h.setFile (fun _ _ => rfl) (fun _ _ => Iff.rfl) (h.ref i) (withFiles_same hsame held) ?_
    (h.typed i)
  rintro (h0 | hmem)
  · exact h.closed i h0
  · exact h.bare i hmem

theorem Open.held_pos (h : Open refs held lock fresh s) (hi : 0 < refs i)
    (htype : (s.file i).type = .inode) : 0 < withFiles s.file held (s.file i).ip := by
  have href := h.ref i
  have htarget : (s.file i).target = some (s.file i).ip := target_of_open (by omega) htype
  have hpos := occurs_pos (f := fun j => (s.file j).target) htarget
  exact Nat.lt_of_lt_of_le hpos (Nat.le_add_right _ _)

/-- Code that works on an inode with its lock. -/
theorem locked_tally {α : Type} {m : FsM α} {held : Fin ninode → ℕ} {v : Volume}
    (hm : Neutral m) (h : Tally held ∅ false v) (hk : 0 < held k) :
    guarded (do
      ilock k
      let r ← m
      iunlock k
      pure r) (fun _ v' => Tally held ∅ false v') v := by
  refine guarded_seq (ilock_tally h hk) fun _ v₁ h₁ => ?_
  refine guarded_seq (hm.keep h₁.2) fun _ v₂ h₂ => ?_
  exact guarded_seq (iunlock_tally h₂ h₁.1) fun _ v₃ h₃ => Exec.wp_pure.mpr h₃

theorem fileread_open (h : Open refs held ∅ ∅ s) (hi : 0 < refs i) (n : ℤ)
    (piped : Option (List UInt8)) :
    guarded (fileread i n piped) (fun _ s' => Open refs held ∅ ∅ s' ∧ s'.task = s.task) s := by
  unfold fileread
  apply Exec.wp_bind.mpr
  apply Exec.wp_gets.mpr
  split
  · exact Exec.wp_pure.mpr ⟨h, rfl⟩
  · cases htype : (s.file i).type with
    | none => exact absurd htype (h.typed i (Finset.notMem_empty i) hi)
    | pipe => exact Exec.wp_pure.mpr ⟨h, rfl⟩
    | inode =>
        have hread := onVolume_open h
          (locked_tally (neutral_readi (s.file i).ip (s.file i).off (uint32 n)) h.tally
            (h.held_pos hi htype))
        refine guarded_seq hread fun r s₁ h₁ => ?_
        apply Exec.wp_bind.mpr
        apply Exec.wp_modify.mpr
        exact Exec.wp_pure.mpr ⟨h₁.1.setOff i _, h₁.2⟩

theorem filewriteFrom_open (h : Open refs held ∅ ∅ s) (hi : 0 < refs i)
    (htype : (s.file i).type = .inode) (src : Chars) (n k j : ℕ) :
    guarded (filewriteFrom i src n k j)
      (fun _ s' => Open refs held ∅ ∅ s' ∧ s'.task = s.task) s := by
  induction k generalizing j s with
  | zero => exact Exec.wp_pure.mpr ⟨h, rfl⟩
  | succ k ih =>
      unfold filewriteFrom
      split
      · apply Exec.wp_bind.mpr
        apply Exec.wp_gets.mpr
        have hwrite : guarded (onVolume do
            beginTrans
            ilock (s.file i).ip
            let r ← writei (s.file i).ip (fun x => src (j + x)) (s.file i).off
              (min (n - j) maxChunk)
            iunlock (s.file i).ip
            commitTrans
            pure r) (fun _ s' => Open refs held ∅ ∅ s' ∧ s'.task = s.task ∧ s'.file = s.file) s := by
          refine Exec.wp_zoom.mpr (guarded_mono ?_ fun _ v hv => ⟨h.volume hv, rfl, rfl⟩)
          refine guarded_seq (beginTrans_tally h.tally) fun _ v₁ h₁ => ?_
          refine guarded_seq (ilock_tally h₁ (h.held_pos hi htype)) fun _ v₂ h₂ => ?_
          refine guarded_seq ((neutral_writei _ _ _ _).keep h₂.2) fun _ v₃ h₃ => ?_
          refine guarded_seq (iunlock_tally h₃ h₂.1) fun _ v₄ h₄ => ?_
          exact guarded_seq (commitTrans_tally h₄) fun _ v₅ h₅ => Exec.wp_pure.mpr h₅
        refine guarded_seq hwrite fun r s₁ h₁ => ?_
        obtain ⟨h₁, htask, hfile⟩ := h₁
        match r with
        | none => exact Exec.wp_pure.mpr ⟨h₁, htask⟩
        | some r =>
            apply Exec.wp_bind.mpr
            apply Exec.wp_modify.mpr
            have hset := h₁.setOff i (wrap32 ((s₁.file i).off + r))
            split
            · exact Exec.wp_throw.mpr rfl
            · refine guarded_mono (ih hset ?_ (j + r)) fun _ s₂ h₂ => ⟨h₂.1, h₂.2.trans htask⟩
              rw [Open.file_setFile, ← htype, hfile]
      · exact Exec.wp_pure.mpr ⟨h, rfl⟩

theorem filewrite_open (h : Open refs held ∅ ∅ s) (hi : 0 < refs i) (src : Chars) (n : ℤ)
    (piped : Option ℕ) : guarded (filewrite i src n piped)
      (fun _ s' => Open refs held ∅ ∅ s' ∧ s'.task = s.task) s := by
  unfold filewrite
  apply Exec.wp_bind.mpr
  apply Exec.wp_gets.mpr
  split
  · exact Exec.wp_pure.mpr ⟨h, rfl⟩
  · cases htype : (s.file i).type with
    | none => exact absurd htype (h.typed i (Finset.notMem_empty i) hi)
    | pipe => exact Exec.wp_pure.mpr ⟨h, rfl⟩
    | inode =>
        dsimp only
        split
        · exact Exec.wp_pure.mpr ⟨h, rfl⟩
        · exact filewriteFrom_open h hi htype src _ _ _

theorem filestat_open (h : Open refs held ∅ ∅ s) (hi : 0 < refs i) :
    guarded (filestat i) (fun _ s' => Open refs held ∅ ∅ s' ∧ s'.task = s.task) s := by
  unfold filestat
  apply Exec.wp_bind.mpr
  apply Exec.wp_gets.mpr
  split
  · rename_i htype
    refine onVolume_open h ?_
    refine guarded_seq (ilock_tally h.tally (h.held_pos hi htype)) fun _ v₁ h₁ => ?_
    apply Exec.wp_bind.mpr
    apply Exec.wp_gets.mpr
    exact guarded_seq (iunlock_tally h₁.2 h₁.1) fun _ v₂ h₂ => Exec.wp_pure.mpr h₂
  · exact Exec.wp_pure.mpr ⟨h, rfl⟩

/-- A file that becomes an end of a pipe. -/
theorem Open.setUpPipe (h : Open refs held lock (insert i fresh) s) (hi : i ∉ fresh)
    (hpos : 0 < refs i) (readable writable : Bool) (pipe : ℕ) :
    Open refs held lock fresh (s.setFile i { s.file i with
      type := .pipe, readable := readable, writable := writable, pipe := pipe }) := by
  refine h.setUp hi hpos rfl nofun (withFiles_same ?_ held)
  rw [h.target_fresh]
  exact target_of_type nofun

/-- The files that `pipealloc` returns. -/
theorem pipealloc_open (h : Open refs held ∅ ∅ s) (page : Option ℕ) :
    guarded (pipealloc page) (fun r s' =>
      Open (r.elim refs fun f => extra (extra refs f.1) f.2) held ∅ ∅ s' ∧
      s'.task = s.task) s := by
  have hnone : ∀ k ∈ (∅ : Finset (Fin ninode)), 0 < held k := fun k hk =>
    absurd hk (Finset.notMem_empty k)
  unfold pipealloc
  refine guarded_seq (filealloc_open h) fun r s₁ h₁ => ?_
  obtain ⟨h₁, hzero₀, htask₁⟩ := h₁
  match r with
  | none => exact Exec.wp_pure.mpr ⟨h₁, htask₁⟩
  | some f0 =>
      refine guarded_seq (filealloc_open h₁) fun r s₂ h₂ => ?_
      obtain ⟨h₂, hzero₁, htask₂⟩ := h₂
      match r with
      | none =>
          refine guarded_seq (fileclose_open h₂ hnone) fun _ s₃ h₃ => ?_
          exact Exec.wp_pure.mpr ⟨h₃.1.drop (hzero₀ f0 rfl), h₃.2.trans (htask₂.trans htask₁)⟩
      | some f1 =>
          have hne : f0 ≠ f1 := by
            rintro rfl
            have h0 := hzero₁ f0 rfl
            change extra refs f0 f0 = 0 at h0
            rw [extra_self] at h0
            omega
          have hsame : extra refs f0 f1 = refs f1 := extra_of_ne hne.symm
          have hzero : refs f1 = 0 := hsame.symm.trans (hzero₁ f1 rfl)
          have h₂' : Open (extra (extra refs f1) f0) held ∅ (insert f0 (insert f1 ∅)) s₂ := by
            rw [extra_comm, Finset.insert_comm]
            exact h₂
          match page with
          | none =>
              refine guarded_seq (fileclose_open h₂' hnone) fun _ s₃ h₃ => ?_
              refine guarded_seq (fileclose_open h₃.1 hnone) fun _ s₄ h₄ => ?_
              exact Exec.wp_pure.mpr ⟨(h₄.1.drop (hzero₀ f0 rfl)).drop hzero,
                h₄.2.trans (h₃.2.trans (htask₂.trans htask₁))⟩
          | some pipe =>
              apply Exec.wp_bind.mpr
              apply Exec.wp_modify.mpr
              have hpos₀ : 0 < extra (extra refs f1) f0 f0 := by
                rw [extra_self]
                omega
              have hpos₁ : 0 < extra (extra refs f1) f0 f1 := by
                rw [extra_of_ne hne.symm, extra_self]
                omega
              have h₃ := h₂'.setUpPipe (by simpa using hne) hpos₀ true false pipe
              apply Exec.wp_bind.mpr
              apply Exec.wp_modify.mpr
              have h₄ := h₃.setUpPipe (Finset.notMem_empty f1) hpos₁ false true pipe
              rw [extra_comm] at h₄
              exact Exec.wp_pure.mpr ⟨h₄, htask₂.trans htask₁⟩

end

end Xv6.Fs
