import Xv6.Fs.Files
import Xv6.Support.Run

/-!
# Reference counts are exact

After every run of system calls by any processes, each reference count is the number of
pointers to the entry, nothing is locked, and no inode is cached twice; and no call, in any
state of such a run, stops in one of the panics about reference counts and locks.  Nothing is
assumed of the disk.
-/

namespace Xv6.Fs

open Support

/-- The open files of all processes. -/
def System.ofiles (s : System) (x : Slot × Fin nofile) : Option (Fin nfile) :=
  (s.task x.1).ofile x.2

/-- The current directories of all processes. -/
def System.cwds (s : System) (p : Slot) : Option (Fin ninode) :=
  (s.task p).cwd

/-- A process that runs has a current directory, and any other has given up its files. -/
structure Task.Settled (t : Task) : Prop where
  home : t.state = .runnable → t.cwd ≠ none
  gone : t.state ≠ .runnable → (∀ fd, t.ofile fd = none) ∧ t.cwd = none

/-- The invariant between system calls. -/
structure Counted (s : System) : Prop where
  files : Open (occurs s.ofiles) (occurs s.cwds) ∅ ∅ s
  tasks : ∀ p, (s.task p).Settled

section

variable {s s' : System} {p : Slot} {t : Task} {fd : Fin nofile} {i : Fin nfile}
  {k : Fin ninode}

theorem task_setTask (s : System) (p : Slot) (t : Task) : (s.setTask p t).task p = t :=
  Function.update_self _ _ _

theorem task_setTask_of_ne {q : Slot} (h : q ≠ p) : (s.setTask p t).task q = s.task q :=
  Function.update_of_ne h _ _

/-- The state with one descriptor assigned. -/
def System.setFd (s : System) (p : Slot) (fd : Fin nofile) (v : Option (Fin nfile)) : System :=
  s.setTask p { s.task p with ofile := Function.update (s.task p).ofile fd v }

theorem ofiles_setFd (s : System) (p : Slot) (fd : Fin nofile) (v : Option (Fin nfile)) :
    (s.setFd p fd v).ofiles = Function.update s.ofiles (p, fd) v := by
  funext x
  obtain ⟨q, fd'⟩ := x
  unfold System.ofiles System.setFd
  by_cases hq : q = p
  · subst hq
    rw [task_setTask]
    change Function.update (s.task q).ofile fd v fd' = _
    by_cases hfd : fd' = fd
    · subst hfd
      rw [Function.update_self, Function.update_self]
    · rw [Function.update_of_ne hfd, Function.update_of_ne (by simpa using hfd)]
  · rw [task_setTask_of_ne hq, Function.update_of_ne (by simp [hq])]

theorem ofiles_setTask_same (h : t.ofile = (s.task p).ofile) :
    (s.setTask p t).ofiles = s.ofiles := by
  funext x
  obtain ⟨q, fd'⟩ := x
  unfold System.ofiles
  by_cases hq : q = p
  · subst hq
    rw [task_setTask, h]
  · rw [task_setTask_of_ne hq]

theorem cwds_setTask (s : System) (p : Slot) (t : Task) :
    (s.setTask p t).cwds = Function.update s.cwds p t.cwd := by
  funext q
  unfold System.cwds
  by_cases hq : q = p
  · subst hq
    rw [task_setTask, Function.update_self]
  · rw [task_setTask_of_ne hq, Function.update_of_ne hq]

theorem cwds_setTask_same (h : t.cwd = (s.task p).cwd) : (s.setTask p t).cwds = s.cwds := by
  rw [cwds_setTask, h]
  exact Function.update_eq_self _ _

theorem task_setFd_congr {v : Option (Fin nfile)} (h : s'.task = s.task) :
    (s'.setFd p fd v).task = (s.setFd p fd v).task := by
  unfold System.setFd System.setTask
  rw [h]

theorem cwds_setFd (s : System) (p : Slot) (fd : Fin nofile) (v : Option (Fin nfile)) :
    (s.setFd p fd v).cwds = s.cwds :=
  cwds_setTask_same rfl

/-- The state with one current directory assigned. -/
def System.setCwd (s : System) (p : Slot) (cwd : Option (Fin ninode)) : System :=
  s.setTask p { s.task p with cwd := cwd }

theorem ofiles_setCwd (s : System) (p : Slot) (cwd : Option (Fin ninode)) :
    (s.setCwd p cwd).ofiles = s.ofiles :=
  ofiles_setTask_same rfl

theorem cwds_setCwd (s : System) (p : Slot) (cwd : Option (Fin ninode)) :
    (s.setCwd p cwd).cwds = Function.update s.cwds p cwd :=
  cwds_setTask s p _

theorem ofiles_of_task (h : s'.task = s.task) : s'.ofiles = s.ofiles := by
  unfold System.ofiles
  rw [h]

theorem cwds_of_task (h : s'.task = s.task) : s'.cwds = s.cwds := by
  unfold System.cwds
  rw [h]

theorem settled_setTask (h : ∀ q, (s.task q).Settled) (ht : t.Settled) (q : Slot) :
    ((s.setTask p t).task q).Settled := by
  by_cases hq : q = p
  · rw [hq, task_setTask]
    exact ht
  · rw [task_setTask_of_ne hq]
    exact h q

/-- A descriptor of a running process may hold anything. -/
theorem settled_setFd (h : ∀ q, (s.task q).Settled) (hp : (s.task p).state = .runnable)
    (fd : Fin nofile) (v : Option (Fin nfile)) (q : Slot) :
    ((s.setFd p fd v).task q).Settled := by
  have ht : Task.Settled { s.task p with ofile := Function.update (s.task p).ofile fd v } :=
    ⟨(h p).home, fun hne => absurd hp hne⟩
  exact settled_setTask h ht q

namespace Counted

/-- The processes are as before, and the counts are right. -/
theorem of_open (h : Counted s) (htask : s'.task = s.task)
    (hopen : Open (occurs s.ofiles) (occurs s.cwds) ∅ ∅ s') : Counted s' := by
  constructor
  · rw [ofiles_of_task htask, cwds_of_task htask]
    exact hopen
  · rw [htask]
    exact h.tasks

theorem ref_pos (h : s.ofiles (p, fd) = some i) : 0 < occurs s.ofiles i :=
  occurs_pos h

theorem cwd_pos (h : (s.task p).cwd = some k) : 0 < occurs s.cwds k :=
  occurs_pos (a := p) h

end Counted

/-! ## Descriptors -/

theorem getCwd_spec (h : (s.task p).cwd ≠ none) :
    guarded (getCwd p) (fun cwd s' => s' = s ∧ (s.task p).cwd = some cwd) s := by
  unfold getCwd
  apply Exec.wp_bind.mpr
  apply Exec.wp_gets.mpr
  cases hcwd : (s.task p).cwd with
  | none => exact absurd hcwd h
  | some cwd => exact Exec.wp_pure.mpr ⟨rfl, rfl⟩

theorem argfd_spec (p : Slot) (fd : Option ℤ) (s : System) :
    guarded (argfd p fd) (fun r s' => s' = s ∧
      ∀ x, r = some x → s.ofiles (p, x.1) = some x.2) s := by
  unfold argfd
  apply Exec.wp_bind.mpr
  apply Exec.wp_gets.mpr
  refine Exec.wp_pure.mpr ⟨rfl, fun x hx => ?_⟩
  obtain ⟨n, -, hn⟩ := Option.bind_eq_some_iff.mp hx
  split at hn
  · obtain ⟨i, hi, rfl⟩ := Option.map_eq_some_iff.mp hn
    exact hi
  · cases hn

theorem emptyOfile_eq_some {ofile : Fin nofile → Option (Fin nfile)}
    (h : emptyOfile ofile = some fd) : ofile fd = none := by
  simpa using List.find?_some h

/-- What `fdalloc` does: the file gets the first free descriptor, if there is one. -/
theorem fdalloc_spec (p : Slot) (f : Fin nfile) (s : System) :
    guarded (fdalloc p f) (fun r s' => (r = none ∧ s' = s) ∨ ∃ fd, r = some fd ∧
      s.ofiles (p, fd) = none ∧ s' = s.setFd p fd (some f)) s := by
  unfold fdalloc
  apply Exec.wp_bind.mpr
  apply Exec.wp_gets.mpr
  cases hempty : emptyOfile (s.task p).ofile with
  | none => exact Exec.wp_pure.mpr (Or.inl ⟨rfl, rfl⟩)
  | some fd =>
      apply Exec.wp_bind.mpr
      apply Exec.wp_modify.mpr
      exact Exec.wp_pure.mpr (Or.inr ⟨fd, rfl, emptyOfile_eq_some hempty, rfl⟩)

/-- A file gets a descriptor, and takes over a reference. -/
theorem Counted.install (h : ∀ q, (s.task q).Settled) (hp : (s.task p).state = .runnable)
    {f : Fin nfile} (hfd : s.ofiles (p, fd) = none)
    (hopen : Open (extra (occurs s.ofiles) f) (occurs s.cwds) ∅ ∅ s')
    (htask : s'.task = (s.setFd p fd (some f)).task) : Counted s' := by
  constructor
  · rw [ofiles_of_task htask, cwds_of_task htask, ofiles_setFd, occurs_fill hfd, cwds_setFd]
    exact hopen
  · rw [htask]
    exact settled_setFd h hp fd _

/-- A descriptor is given up, and a reference is left over. -/
theorem Counted.uninstall (h : Counted s) {f : Fin nfile} (hfd : s.ofiles (p, fd) = some f) :
    Open (extra (occurs (s.setFd p fd none).ofiles) f) (occurs (s.setFd p fd none).cwds) ∅ ∅
      (s.setFd p fd none) := by
  rw [ofiles_setFd, ← occurs_clear hfd, cwds_setFd]
  exact h.files.tasks rfl rfl

theorem sysDup_counted (h : Counted s) (hp : (s.task p).state = .runnable) (fd : Option ℤ) :
    guarded (sysDup p fd) (fun _ s' => Counted s') s := by
  unfold sysDup
  refine guarded_seq (argfd_spec p fd s) fun a s₁ h₁ => ?_
  obtain ⟨rfl, hfile⟩ := h₁
  match a with
  | none => exact Exec.wp_pure.mpr h
  | some (fd, f) =>
      have hpos := Counted.ref_pos (hfile (fd, f) rfl)
      refine guarded_seq (fdalloc_spec p f s₁) fun r s₂ h₂ => ?_
      rcases h₂ with ⟨rfl, rfl⟩ | ⟨fd', rfl, hnone, rfl⟩
      · exact Exec.wp_pure.mpr h
      · have hopen : Open (occurs s₁.ofiles) (occurs s₁.cwds) ∅ ∅ (s₁.setFd p fd' (some f)) :=
          h.files.tasks rfl rfl
        refine guarded_seq (filedup_open hopen hpos) fun _ s₃ h₃ => ?_
        exact Exec.wp_pure.mpr (Counted.install h.tasks hp hnone h₃.1 h₃.2)

theorem sysRead_counted (h : Counted s) (fd n : Option ℤ) (piped : Option (List UInt8)) :
    guarded (sysRead p fd n piped) (fun _ s' => Counted s') s := by
  unfold sysRead
  refine guarded_seq (argfd_spec p fd s) fun a s₁ h₁ => ?_
  obtain ⟨rfl, hfile⟩ := h₁
  match a, n with
  | none, _ => exact Exec.wp_pure.mpr h
  | some _, none => exact Exec.wp_pure.mpr h
  | some (fd, f), some n =>
      have hpos := Counted.ref_pos (hfile (fd, f) rfl)
      exact guarded_mono (fileread_open h.files hpos n piped) fun _ s₂ h₂ => h.of_open h₂.2 h₂.1

theorem sysWrite_counted (h : Counted s) (fd : Option ℤ) (src : Chars) (n : Option ℤ)
    (piped : Option ℕ) : guarded (sysWrite p fd src n piped) (fun _ s' => Counted s') s := by
  unfold sysWrite
  refine guarded_seq (argfd_spec p fd s) fun a s₁ h₁ => ?_
  obtain ⟨rfl, hfile⟩ := h₁
  match a, n with
  | none, _ => exact Exec.wp_pure.mpr h
  | some _, none => exact Exec.wp_pure.mpr h
  | some (fd, f), some n =>
      have hpos := Counted.ref_pos (hfile (fd, f) rfl)
      exact guarded_mono (filewrite_open h.files hpos src n piped) fun _ s₂ h₂ =>
        h.of_open h₂.2 h₂.1

theorem sysFstat_counted (h : Counted s) (fd : Option ℤ) (st : Bool) :
    guarded (sysFstat p fd st) (fun _ s' => Counted s') s := by
  unfold sysFstat
  refine guarded_seq (argfd_spec p fd s) fun a s₁ h₁ => ?_
  obtain ⟨rfl, hfile⟩ := h₁
  match a with
  | none => exact Exec.wp_pure.mpr h
  | some (fd, f) =>
      have hpos := Counted.ref_pos (hfile (fd, f) rfl)
      cases st with
      | true => exact guarded_mono (filestat_open h.files hpos) fun _ s₂ h₂ => h.of_open h₂.2 h₂.1
      | false => exact Exec.wp_pure.mpr h

/-- No lock is held by a call that has none. -/
theorem noLock_held {held : Fin ninode → ℕ} (k : Fin ninode)
    (hk : k ∈ (∅ : Finset (Fin ninode))) : 0 < held k :=
  absurd hk (Finset.notMem_empty k)

theorem sysClose_counted (h : Counted s) (hp : (s.task p).state = .runnable) (fd : Option ℤ) :
    guarded (sysClose p fd) (fun _ s' => Counted s') s := by
  unfold sysClose
  refine guarded_seq (argfd_spec p fd s) fun a s₁ h₁ => ?_
  obtain ⟨rfl, hfile⟩ := h₁
  match a with
  | none => exact Exec.wp_pure.mpr h
  | some (fd, f) =>
      have hopen := h.uninstall (hfile (fd, f) rfl)
      apply Exec.wp_bind.mpr
      apply Exec.wp_modify.mpr
      refine guarded_seq (fileclose_open hopen noLock_held) fun _ s₂ h₂ => Exec.wp_pure.mpr ?_
      constructor
      · rw [ofiles_of_task h₂.2, cwds_of_task h₂.2]
        exact h₂.1
      · rw [h₂.2]
        exact settled_setFd h.tasks hp fd none

theorem openFile_counted {ip : Fin ninode} (hp : (s.task p).state = .runnable)
    (htasks : ∀ q, (s.task q).Settled)
    (h : Open (occurs s.ofiles) (hold (occurs s.cwds) ip) {ip} ∅ s) (omode : ℕ) :
    guarded (openFile p ip omode) (fun _ s' => Counted s') s := by
  have hlock : ∀ k ∈ ({ip} : Finset (Fin ninode)), 0 < hold (occurs s.cwds) ip k := by
    intro k hk
    rw [Finset.mem_singleton.mp hk]
    exact hold_pos _ ip
  have hback : ∀ s', s'.task = s.task →
      Open (occurs s.ofiles) (hold (occurs s.cwds) ip) {ip} ∅ s' →
      guarded (onVolume (iunlockput ip) >>= fun _ => pure (none : Option (Fin nofile)))
        (fun _ s' => Counted s') s' := by
    intro s' htask h'
    have htally := h'.tally
    rw [withFiles_hold] at htally
    refine guarded_seq (onVolume_open h' (iunlockput_tally htally (notMem_nothing ip)))
      fun _ s₂ h₂ => Exec.wp_pure.mpr ?_
    have htask₂ := h₂.2.trans htask
    constructor
    · rw [ofiles_of_task htask₂, cwds_of_task htask₂]
      exact h₂.1
    · rw [htask₂]
      exact htasks
  unfold openFile
  refine guarded_seq (filealloc_open h) fun r s₁ h₁ => ?_
  obtain ⟨h₁, hzero, htask₁⟩ := h₁
  cases r with
  | none => exact hback s₁ htask₁ h₁
  | some f =>
      refine guarded_seq (fdalloc_spec p f s₁) fun r s₂ h₂ => ?_
      rcases h₂ with ⟨rfl, rfl⟩ | ⟨fd, rfl, hnone, rfl⟩
      · refine guarded_seq (fileclose_open h₁ hlock) fun _ s₃ h₃ => ?_
        exact hback s₃ (h₃.2.trans htask₁) (h₃.1.drop (hzero f rfl))
      · have h₂ : Open (extra (occurs s.ofiles) f) (hold (occurs s.cwds) ip) (insert ip ∅)
            (insert f ∅) (s₁.setFd p fd (some f)) := h₁.tasks rfl rfl
        have hun := onVolume_open h₂ (iunlock_tally h₂.tally (notMem_nothing ip))
        refine guarded_seq hun fun _ s₃ h₃ => ?_
        obtain ⟨h₃, htask₃⟩ := h₃
        apply Exec.wp_bind.mpr
        apply Exec.wp_modify.mpr
        apply Exec.wp_pure.mpr
        have hnone' : s.ofiles (p, fd) = none := ofiles_of_task htask₁ ▸ hnone
        have hpos : 0 < extra (occurs s.ofiles) f f := by
          rw [extra_self]
          omega
        have href := h₃.ref f
        refine Counted.install htasks hp hnone' (h₃.setUp (Finset.notMem_empty f) hpos rfl nofun
          (withFiles_open h₃.target_fresh (target_of_open ?_ rfl) _)) ?_
        · change 0 < (s₃.file f).ref
          omega
        · exact htask₃.trans (task_setFd_congr htask₁)

theorem Counted.cwd_ne_none (h : Counted s) (hp : (s.task p).state = .runnable) :
    (s.task p).cwd ≠ none :=
  (h.tasks p).home hp

theorem sysOpen_counted (h : Counted s) (hp : (s.task p).state = .runnable)
    (path : Option (List UInt8)) (omode : Option ℕ) (junk : Chars) :
    guarded (sysOpen p path omode junk) (fun _ s' => Counted s') s := by
  unfold sysOpen
  match path, omode with
  | none, _ => exact Exec.wp_pure.mpr h
  | some _, none => exact Exec.wp_pure.mpr h
  | some path, some omode =>
      refine guarded_seq (getCwd_spec (h.cwd_ne_none hp)) fun cwd s₁ h₁ => ?_
      obtain ⟨rfl, hcwd⟩ := h₁
      have hpos := withFiles_pos s₁.file (Counted.cwd_pos hcwd)
      have hopen : guarded (onVolume (openInode cwd path omode junk)) (fun r s' =>
          Open (occurs s₁.ofiles) (taken (occurs s₁.cwds) r) r.toFinset ∅ s' ∧
          s'.task = s₁.task) s₁ := by
        refine onVolume_open h.files (guarded_mono (openInode_tally h.files.tally hpos path omode
          junk) fun r v hv => ?_)
        rw [withFiles_taken]
        exact hv
      refine guarded_seq hopen fun r s₂ h₂ => ?_
      obtain ⟨h₂, htask⟩ := h₂
      cases r with
      | none => exact Exec.wp_pure.mpr (h.of_open htask h₂)
      | some ip =>
          rw [← ofiles_of_task htask, ← cwds_of_task htask] at h₂
          refine openFile_counted ?_ ?_ h₂ omode
          · rw [htask]
            exact hp
          · rw [htask]
            exact h.tasks

theorem sysPipe_counted (h : Counted s) (hp : (s.task p).state = .runnable) (fd : Bool)
    (page : Option ℕ) : guarded (sysPipe p fd page) (fun _ s' => Counted s') s := by
  unfold sysPipe
  cases fd with
  | false => exact Exec.wp_pure.mpr h
  | true =>
      refine guarded_seq (pipealloc_open h.files page) fun r s₁ h₁ => ?_
      obtain ⟨h₁, htask₁⟩ := h₁
      cases r with
      | none => exact Exec.wp_pure.mpr (h.of_open htask₁ h₁)
      | some f =>
          obtain ⟨rf, wf⟩ := f
          have h₁' : Open (extra (extra (occurs s₁.ofiles) wf) rf) (occurs s₁.cwds) ∅ ∅ s₁ := by
            rw [extra_comm, ofiles_of_task htask₁, cwds_of_task htask₁]
            exact h₁
          have htasks : ∀ q, (s₁.task q).Settled := htask₁ ▸ h.tasks
          have hp₁ : (s₁.task p).state = .runnable := htask₁ ▸ hp
          -- both ends are closed again with the processes as they are in `s₁`
          have hclose : ∀ s', s'.ofiles = s₁.ofiles → s'.cwds = s₁.cwds →
              (∀ q, (s'.task q).Settled) →
              Open (extra (extra (occurs s₁.ofiles) wf) rf) (occurs s₁.cwds) ∅ ∅ s' →
              guarded (fileclose rf >>= fun _ => fileclose wf >>= fun _ =>
                pure (none : Option (Fin nofile × Fin nofile))) (fun _ s' => Counted s') s' := by
            intro s' hofiles hcwds htasks' h'
            refine guarded_seq (fileclose_open h' noLock_held) fun _ s₂ h₂ => ?_
            refine guarded_seq (fileclose_open h₂.1 noLock_held) fun _ s₃ h₃ =>
              Exec.wp_pure.mpr ?_
            have htask := h₃.2.trans h₂.2
            constructor
            · rw [ofiles_of_task htask, cwds_of_task htask, hofiles, hcwds]
              exact h₃.1
            · rw [htask]
              exact htasks'
          refine guarded_seq (fdalloc_spec p rf s₁) fun r s₂ h₂ => ?_
          rcases h₂ with ⟨rfl, rfl⟩ | ⟨fd0, rfl, hnone₀, rfl⟩
          · exact hclose _ rfl rfl htasks h₁'
          · have hp₂ : ((s₁.setFd p fd0 (some rf)).task p).state = .runnable := by
              rw [System.setFd, task_setTask]
              exact hp₁
            refine guarded_seq (fdalloc_spec p wf _) fun r s₃ h₃ => ?_
            rcases h₃ with ⟨rfl, rfl⟩ | ⟨fd1, rfl, hnone₁, rfl⟩
            · apply Exec.wp_bind.mpr
              apply Exec.wp_modify.mpr
              refine hclose ((s₁.setFd p fd0 (some rf)).setFd p fd0 none) ?_ ?_ ?_
                (h₁'.tasks rfl rfl)
              · rw [ofiles_setFd, ofiles_setFd, Function.update_idem, ← hnone₀,
                  Function.update_eq_self]
              · rw [cwds_setFd, cwds_setFd]
              · exact settled_setFd (settled_setFd htasks hp₁ fd0 _) hp₂ fd0 _
            · refine Exec.wp_pure.mpr (Counted.install (settled_setFd htasks hp₁ fd0 _) hp₂ hnone₁
                ?_ rfl)
              rw [ofiles_setFd, occurs_fill hnone₀, cwds_setFd, extra_comm]
              exact h₁'.tasks rfl rfl

/-! ## Current directories and programs -/

/-- A call that gives back what it takes. -/
theorem Counted.balanced {α : Type} (h : Counted s) {m : FsM α}
    (hm : guarded m (fun _ v => Tally (withFiles s.file (occurs s.cwds)) ∅ false v) s.vol) :
    guarded (onVolume m) (fun _ s' => Counted s') s :=
  guarded_mono (onVolume_open h.files hm) fun _ _ h₁ => h.of_open h₁.2 h₁.1

theorem withCwd_counted (h : Counted s) (hp : (s.task p).state = .runnable)
    {call : Fin ninode → FsM ℤ}
    (hcall : ∀ {v : Volume} {held : Fin ninode → ℕ} {cwd : Fin ninode}, Tally held ∅ false v →
      0 < held cwd → guarded (call cwd) (fun _ v' => Tally held ∅ false v') v) :
    guarded (withCwd p call) (fun _ s' => Counted s') s := by
  unfold withCwd
  refine guarded_seq (getCwd_spec (h.cwd_ne_none hp)) fun cwd s₁ h₁ => ?_
  obtain ⟨rfl, hcwd⟩ := h₁
  have hpos := withFiles_pos s₁.file (Counted.cwd_pos hcwd)
  exact h.balanced (hcall h.files.tally hpos)

theorem sysExec_counted (h : Counted s) (hp : (s.task p).state = .runnable)
    (path : Option (List UInt8)) (mem : ExecMemory) (junk : Chars) :
    guarded (sysExec p path mem junk) (fun _ s' => Counted s') s := by
  unfold sysExec
  match path with
  | none => exact Exec.wp_pure.mpr h
  | some path =>
      refine guarded_seq (getCwd_spec (h.cwd_ne_none hp)) fun cwd s₁ h₁ => ?_
      obtain ⟨rfl, hcwd⟩ := h₁
      have hpos := withFiles_pos s₁.file (Counted.cwd_pos hcwd)
      exact h.balanced (exec_tally mem h.files.tally hpos path junk)

theorem changeDir_counted (h : Counted s) (hp : (s.task p).state = .runnable)
    (path : Option (List UInt8)) (junk : Chars) :
    guarded (changeDir p path junk) (fun _ s' => Counted s') s := by
  unfold changeDir
  refine guarded_seq (getCwd_spec (h.cwd_ne_none hp)) fun cwd s₁ h₁ => ?_
  obtain ⟨rfl, hcwd⟩ := h₁
  -- the references to current directories without that of `p`
  obtain ⟨held, hheld⟩ : ∃ held, held = occurs (Function.update s₁.cwds p none) := ⟨_, rfl⟩
  have hcwds : occurs s₁.cwds = hold held cwd := by
    rw [hheld]
    exact occurs_clear hcwd
  have htally : Tally (hold (withFiles s₁.file held) cwd) ∅ false s₁.vol := by
    rw [← withFiles_hold, ← hcwds]
    exact h.files.tally
  have hchdir : guarded (onVolume (sysChdir cwd path junk)) (fun r s' =>
      Open (occurs s₁.ofiles) (hold held (r.getD cwd)) ∅ ∅ s' ∧ s'.task = s₁.task) s₁ := by
    refine onVolume_open h.files (guarded_mono (sysChdir_tally htally path junk) fun r v hv => ?_)
    rw [withFiles_hold]
    exact hv
  refine guarded_seq hchdir fun r s₂ h₂ => ?_
  obtain ⟨h₂, htask⟩ := h₂
  cases r with
  | none =>
      refine Exec.wp_pure.mpr (h.of_open htask ?_)
      rw [hcwds]
      exact h₂
  | some ip =>
      apply Exec.wp_bind.mpr
      apply Exec.wp_modify.mpr
      apply Exec.wp_pure.mpr
      change Counted (s₂.setCwd p (some ip))
      have hstore : occurs (Function.update s₁.cwds p (some ip)) = hold held ip := by
        rw [hheld]
        exact occurs_store s₁.cwds p ip
      constructor
      · rw [ofiles_setCwd, cwds_setCwd, ofiles_of_task htask, cwds_of_task htask, hstore]
        exact h₂.tasks rfl rfl
      · have ht : Task.Settled { s₂.task p with cwd := some ip } :=
          ⟨fun _ => nofun, fun hne => absurd (htask ▸ hp) hne⟩
        exact settled_setTask (htask ▸ h.tasks) ht

/-! ## Processes -/

theorem emptyTask_eq_some {task : Slot → Task} (h : emptyTask task = some p) :
    (task p).state = .unused := by
  simpa using List.find?_some h

/-- The state while `fork` sets up the process `np`; the descriptors in `done` have been
copied. -/
structure Forking (np : Slot) (done : List (Fin nofile)) (s : System) : Prop where
  files : Open (occurs s.ofiles) (occurs s.cwds) ∅ ∅ s
  tasks : ∀ q ≠ np, (s.task q).Settled
  home : (s.task np).cwd = none
  free : ∀ fd ∉ done, (s.task np).ofile fd = none

theorem forkFile_counted {np : Slot} {done rest : List (Fin nofile)} {parent : Task}
    (hdone : (done ++ fd :: rest).Nodup)
    (hparent : s.task p = parent) (hne : p ≠ np) (h : Forking np done s) :
    guarded (forkFile np parent fd)
      (fun _ s' => s'.task p = parent ∧ Forking np (done ++ [fd]) s') s := by
  unfold forkFile
  have hmono : ∀ x, x ∉ done ++ [fd] → x ∉ done := fun x hx hmem =>
    hx (List.mem_append_left _ hmem)
  cases hfile : parent.ofile fd with
  | none =>
      exact Exec.wp_pure.mpr ⟨hparent, h.files, h.tasks, h.home, fun x hx => h.free x (hmono x hx)⟩
  | some i =>
      have hpos : 0 < occurs s.ofiles i := by
        apply occurs_pos (a := (p, fd))
        change (s.task p).ofile fd = some i
        rw [hparent, hfile]
      have hfd : fd ∉ done := by
        have hnodup := (List.nodup_append.mp hdone).2.2
        exact fun hmem => hnodup fd hmem fd (by simp) rfl
      have hnone : s.ofiles (np, fd) = none := h.free fd hfd
      refine guarded_seq (filedup_open h.files hpos) fun _ s₁ h₁ => Exec.wp_modify.mpr ?_
      obtain ⟨h₁, htask⟩ := h₁
      have htask' : (s₁.setFd np fd (some i)).task = (s.setFd np fd (some i)).task :=
        task_setFd_congr htask
      have hother : ∀ q ≠ np, (s₁.setFd np fd (some i)).task q = s.task q := fun q hq =>
        (congrFun htask' q).trans (task_setTask_of_ne hq)
      refine ⟨(hother p hne).trans hparent, ?_, fun q hq => ?_, ?_, fun x hx => ?_⟩
      · change Open (occurs (s₁.setFd np fd (some i)).ofiles) (occurs (s₁.setFd np fd (some i)).cwds)
          ∅ ∅ (s₁.setFd np fd (some i))
        rw [ofiles_of_task htask', cwds_of_task htask', ofiles_setFd, occurs_fill hnone, cwds_setFd]
        exact h₁.tasks rfl rfl
      · change ((s₁.setFd np fd (some i)).task q).Settled
        rw [hother q hq]
        exact h.tasks q hq
      · change ((s₁.setFd np fd (some i)).task np).cwd = none
        rw [System.setFd, task_setTask, htask]
        exact h.home
      · change ((s₁.setFd np fd (some i)).task np).ofile x = none
        have hxfd : x ≠ fd := fun heq => hx (by simp [heq])
        rw [System.setFd, task_setTask, htask]
        exact (Function.update_of_ne hxfd _ _).trans (h.free x (hmono x hx))

/-- A change of other fields of a process. -/
theorem Open.setTask_same (h : Open (occurs s.ofiles) (occurs s.cwds) ∅ ∅ s)
    (hofile : t.ofile = (s.task p).ofile) (hcwd : t.cwd = (s.task p).cwd) :
    Open (occurs (s.setTask p t).ofiles) (occurs (s.setTask p t).cwds) ∅ ∅ (s.setTask p t) := by
  rw [ofiles_setTask_same hofile, cwds_setTask_same hcwd]
  exact h.tasks rfl rfl

/-- A process that is set up starts with no descriptors and no current directory. -/
theorem Forking.start (h : Counted s) {np : Slot} (hnp : (s.task np).state = .unused) :
    Forking np [] s := by
  obtain ⟨hfiles, hhome⟩ := (h.tasks np).gone (by rw [hnp]; exact nofun)
  exact ⟨h.files, fun q _ => h.tasks q, hhome, fun fd _ => hfiles fd⟩

theorem Forking.setTask {np : Slot} {done : List (Fin nofile)} (h : Forking np done s)
    (hofile : t.ofile = (s.task np).ofile) (hcwd : t.cwd = (s.task np).cwd) :
    Forking np done (s.setTask np t) := by
  refine ⟨h.files.setTask_same hofile hcwd, fun q hq => ?_, ?_, fun fd hfd => ?_⟩
  · rw [task_setTask_of_ne hq]
    exact h.tasks q hq
  · rw [task_setTask, hcwd, h.home]
  · rw [task_setTask, hofile, h.free fd hfd]

/-- There was no memory for the new process. -/
theorem Forking.abandon {np : Slot} (h : Forking np [] s) (ht : t.state ≠ .runnable)
    (hofile : t.ofile = (s.task np).ofile) (hcwd : t.cwd = (s.task np).cwd) :
    Counted (s.setTask np t) := by
  refine ⟨h.files.setTask_same hofile hcwd, fun q => ?_⟩
  by_cases hq : q = np
  · rw [hq, task_setTask]
    refine ⟨fun hrun => absurd hrun ht, fun _ => ⟨fun fd => ?_, hcwd.trans h.home⟩⟩
    rw [hofile]
    exact h.free fd (List.not_mem_nil)
  · rw [task_setTask_of_ne hq]
    exact h.tasks q hq

/-- The new process gets its current directory, and may run. -/
theorem Forking.finish {np : Slot} {done : List (Fin nofile)} (h : Forking np done s)
    (hopen : Open (occurs s.ofiles) (extra (occurs s.cwds) k) ∅ ∅ s') (htask : s'.task = s.task)
    (ht : t.state = .runnable) (hofile : t.ofile = (s'.task np).ofile) (hcwd : t.cwd = some k) :
    Counted (s'.setTask np t) := by
  constructor
  · have hnone : s.cwds np = none := h.home
    rw [ofiles_setTask_same hofile, cwds_setTask, hcwd, ofiles_of_task htask, cwds_of_task htask,
      occurs_fill hnone]
    exact hopen.tasks rfl rfl
  · intro q
    by_cases hq : q = np
    · rw [hq, task_setTask]
      exact ⟨fun _ => by rw [hcwd]; exact nofun, fun hne => absurd ht hne⟩
    · rw [task_setTask_of_ne hq, htask]
      exact h.tasks q hq

theorem allocproc_counted (h : Counted s) (kstack : Bool) :
    guarded (allocproc kstack) (fun r s' => (r = none ∧ Counted s') ∨ ∃ np, r = some np ∧
      (s.task np).state = .unused ∧ Forking np [] s' ∧ ∀ q ≠ np, s'.task q = s.task q) s := by
  unfold allocproc
  apply Exec.wp_bind.mpr
  apply Exec.wp_gets.mpr
  cases hempty : emptyTask (id s).task with
  | none => exact Exec.wp_pure.mpr (Or.inl ⟨rfl, h⟩)
  | some np =>
      have hnp : (s.task np).state = .unused := emptyTask_eq_some hempty
      obtain ⟨t, ht⟩ : ∃ t : Task, t = { s.task np with state := .embryo, pid := s.nextpid } :=
        ⟨_, rfl⟩
      have hstart : Forking np [] (s.setTask np t) :=
        (Forking.start h hnp).setTask (by rw [ht]) (by rw [ht])
      have hother : ∀ q ≠ np, (s.setTask np t).task q = s.task q := fun q hq =>
        task_setTask_of_ne hq
      apply Exec.wp_bind.mpr
      apply Exec.wp_modify.mpr
      apply Exec.wp_bind.mpr
      apply Exec.wp_modify.mpr
      change guarded _ _ { s.setTask np { s.task np with state := .embryo, pid := s.nextpid } with
        nextpid := int32 (s.nextpid + 1) }
      rw [← ht]
      have hnext : Forking np [] { s.setTask np t with nextpid := int32 (s.nextpid + 1) } :=
        ⟨hstart.files.tasks rfl rfl, hstart.tasks, hstart.home, hstart.free⟩
      cases kstack with
      | true => exact Exec.wp_pure.mpr (Or.inr ⟨np, rfl, hnp, hnext, hother⟩)
      | false =>
          apply Exec.wp_bind.mpr
          apply Exec.wp_modify.mpr
          exact Exec.wp_pure.mpr (Or.inl ⟨rfl, hnext.abandon nofun rfl rfl⟩)

theorem fork_counted (h : Counted s) (hp : (s.task p).state = .runnable)
    (kstack copied : Bool) : guarded (fork p kstack copied) (fun _ s' => Counted s') s := by
  unfold fork
  refine guarded_seq (allocproc_counted h kstack) fun r s₁ h₁ => ?_
  rcases h₁ with ⟨rfl, h₁⟩ | ⟨np, rfl, hnp, hstart, hothers⟩
  · exact Exec.wp_pure.mpr h₁
  · have hne : p ≠ np := by
      rintro rfl
      rw [hp] at hnp
      cases hnp
    have hother := hothers p hne
    cases copied with
    | false =>
        apply Exec.wp_bind.mpr
        apply Exec.wp_modify.mpr
        exact Exec.wp_pure.mpr (hstart.abandon nofun rfl rfl)
    | true =>
        apply Exec.wp_bind.mpr
        apply Exec.wp_modify.mpr
        have hstart' : Forking np [] (s₁.setTask np { s₁.task np with parent := some p }) :=
          hstart.setTask rfl rfl
        have hother' : (s₁.setTask np { s₁.task np with parent := some p }).task p = s.task p :=
          (task_setTask_of_ne hne).trans hother
        change guarded _ _ (s₁.setTask np { s₁.task np with parent := some p })
        generalize s₁.setTask np { s₁.task np with parent := some p } = s₂ at hstart' hother'
        apply Exec.wp_bind.mpr
        apply Exec.wp_gets.mpr
        rw [hother']
        have hloop : guarded (Exec.each (forkFile np (s.task p)) (List.finRange nofile))
            (fun _ s' => s'.task p = s.task p ∧ Forking np (List.finRange nofile) s') s₂ := by
          apply Exec.wp_each (I := fun done s' => s'.task p = s.task p ∧ Forking np done s')
          · intro done fd rest s' hsplit hI
            exact forkFile_counted (hsplit ▸ List.nodup_finRange nofile) hI.1 hne hI.2
          · exact ⟨hother', hstart'⟩
        refine guarded_seq hloop fun _ s₃ h₃ => ?_
        obtain ⟨hparent, h₃⟩ := h₃
        refine guarded_seq (getCwd_spec (hparent ▸ h.cwd_ne_none hp)) fun cwd s₄ h₄ => ?_
        obtain ⟨rfl, hcwd⟩ := h₄
        have hpos := withFiles_pos s₄.file (Counted.cwd_pos hcwd)
        have hdup : guarded (onVolume (idup cwd)) (fun r s' =>
            Open (occurs s₄.ofiles) (hold (occurs s₄.cwds) r) ∅ ∅ s' ∧ s'.task = s₄.task) s₄ := by
          refine onVolume_open h₃.files (guarded_mono (idup_tally h₃.files.tally hpos) ?_)
          rintro r v ⟨rfl, hv⟩
          rw [withFiles_hold]
          exact hv
        refine guarded_seq hdup fun ip s₅ h₅ => ?_
        apply Exec.wp_bind.mpr
        apply Exec.wp_gets.mpr
        apply Exec.wp_bind.mpr
        apply Exec.wp_modify.mpr
        exact Exec.wp_pure.mpr (h₃.finish h₅.1 h₅.2 rfl rfl rfl)

/-! ## Exit and wait -/

theorem exitFile_counted (h : Counted s) (hp : (s.task p).state = .runnable)
    (fd : Fin nofile) : guarded (exitFile p fd) (fun _ s' => Counted s' ∧
      (s'.task p).state = .runnable ∧ (s'.task p).ofile fd = none ∧
      ∀ fd', (s.task p).ofile fd' = none → (s'.task p).ofile fd' = none) s := by
  unfold exitFile
  apply Exec.wp_bind.mpr
  apply Exec.wp_gets.mpr
  cases hfile : (s.task p).ofile fd with
  | none => exact Exec.wp_pure.mpr ⟨h, hp, hfile, fun _ h' => h'⟩
  | some i =>
      have hopen : Open (extra (occurs (Function.update s.ofiles (p, fd) none)) i)
          (occurs s.cwds) ∅ ∅ s := by
        have hfd : s.ofiles (p, fd) = some i := hfile
        rw [← occurs_clear hfd]
        exact h.files
      refine guarded_seq (fileclose_open hopen noLock_held) fun _ s₁ h₁ => Exec.wp_modify.mpr ?_
      obtain ⟨h₁, htask⟩ := h₁
      have htask' : (s₁.setFd p fd none).task = (s.setFd p fd none).task := task_setFd_congr htask
      have hself : (s₁.setFd p fd none).task p =
          { s.task p with ofile := Function.update (s.task p).ofile fd none } :=
        (congrFun htask' p).trans (task_setTask _ _ _)
      change Counted (s₁.setFd p fd none) ∧ ((s₁.setFd p fd none).task p).state = .runnable ∧
        ((s₁.setFd p fd none).task p).ofile fd = none ∧
        ∀ fd', (s.task p).ofile fd' = none → ((s₁.setFd p fd none).task p).ofile fd' = none
      rw [hself]
      refine ⟨⟨?_, ?_⟩, hp, Function.update_self _ _ _, fun fd' hfd' => ?_⟩
      · rw [ofiles_of_task htask', cwds_of_task htask', ofiles_setFd, cwds_setFd]
        exact h₁.tasks rfl rfl
      · rw [htask']
        exact settled_setFd h.tasks hp fd none
      · by_cases hfd : fd' = fd
        · rw [hfd]
          exact Function.update_self _ _ _
        · exact (Function.update_of_ne hfd _ _).trans hfd'

/-- The state when the process `p` has given up everything. -/
structure Leaving (p : Slot) (s : System) : Prop where
  files : Open (occurs s.ofiles) (occurs s.cwds) ∅ ∅ s
  tasks : ∀ q ≠ p, (s.task q).Settled
  gone : (∀ fd, (s.task p).ofile fd = none) ∧ (s.task p).cwd = none

theorem Task.reparent_eq (t : Task) (p init : Slot) :
    (t.reparent p init).ofile = t.ofile ∧ (t.reparent p init).cwd = t.cwd ∧
      (t.reparent p init).state = t.state := by
  unfold Task.reparent
  split
  · exact ⟨rfl, rfl, rfl⟩
  · exact ⟨rfl, rfl, rfl⟩

theorem Task.Settled.reparent (h : t.Settled) (p init : Slot) : (t.reparent p init).Settled := by
  obtain ⟨hofile, hcwd, hstate⟩ := t.reparent_eq p init
  refine ⟨fun hrun => ?_, fun hne => ?_⟩
  · rw [hcwd]
    exact h.home (hstate.symm.trans hrun)
  · rw [hofile, hcwd]
    exact h.gone fun hrun => hne (hstate.trans hrun)

theorem Leaving.reparent (h : Leaving p s) (init : Slot) :
    Leaving p { s with task := fun q => (s.task q).reparent p init } := by
  have hofiles : System.ofiles { s with task := fun q => (s.task q).reparent p init } =
      s.ofiles := by
    funext x
    exact congrFun ((s.task x.1).reparent_eq p init).1 x.2
  have hcwds : System.cwds { s with task := fun q => (s.task q).reparent p init } = s.cwds := by
    funext q
    exact ((s.task q).reparent_eq p init).2.1
  refine ⟨?_, fun q hq => (h.tasks q hq).reparent p init, fun fd => ?_, ?_⟩
  · rw [hofiles, hcwds]
    exact h.files.tasks rfl rfl
  · exact (congrFun ((s.task p).reparent_eq p init).1 fd).trans (h.gone.1 fd)
  · exact ((s.task p).reparent_eq p init).2.1.trans h.gone.2

theorem Leaving.zombie (h : Leaving p s) :
    Counted (s.setTask p { s.task p with state := .zombie }) := by
  refine ⟨h.files.setTask_same rfl rfl, fun q => ?_⟩
  by_cases hq : q = p
  · rw [hq, task_setTask]
    exact ⟨nofun, fun _ => h.gone⟩
  · rw [task_setTask_of_ne hq]
    exact h.tasks q hq

theorem exit_counted (h : Counted s) (hp : (s.task p).state = .runnable) :
    guarded (exit p) (fun _ s' => Counted s') s := by
  unfold exit
  apply Exec.wp_bind.mpr
  apply Exec.wp_gets.mpr
  split
  · exact Exec.wp_throw.mpr rfl
  · have hloop : guarded (Exec.each (exitFile p) (List.finRange nofile)) (fun _ s' =>
        Counted s' ∧ (s'.task p).state = .runnable ∧
        ∀ fd ∈ List.finRange nofile, (s'.task p).ofile fd = none) s := by
      apply Exec.wp_each (I := fun done s' => Counted s' ∧ (s'.task p).state = .runnable ∧
        ∀ fd ∈ done, (s'.task p).ofile fd = none)
      · intro done fd rest s' hsplit hI
        refine guarded_mono (exitFile_counted hI.1 hI.2.1 fd) fun _ s₁ h₁ => ?_
        refine ⟨h₁.1, h₁.2.1, fun x hx => ?_⟩
        rcases List.mem_append.mp hx with hx | hx
        · exact h₁.2.2.2 x (hI.2.2 x hx)
        · rw [List.mem_singleton.mp hx]
          exact h₁.2.2.1
      · exact ⟨h, hp, fun _ hmem => absurd hmem List.not_mem_nil⟩
    refine guarded_seq hloop fun _ s₁ h₁ => ?_
    obtain ⟨h₁, hp₁, hfiles⟩ := h₁
    refine guarded_seq (getCwd_spec (h₁.cwd_ne_none hp₁)) fun cwd s₂ h₂ => ?_
    obtain ⟨rfl, hcwd⟩ := h₂
    have hcwds : occurs s₂.cwds = hold (occurs (Function.update s₂.cwds p none)) cwd :=
      occurs_clear hcwd
    have htally := h₁.files.tally
    rw [hcwds, withFiles_hold] at htally
    refine guarded_seq (onVolume_open h₁.files (iput_tally htally (by simp))) fun _ s₃ h₃ => ?_
    obtain ⟨h₃, htask⟩ := h₃
    apply Exec.wp_bind.mpr
    apply Exec.wp_modify.mpr
    have hleaving : Leaving p (s₃.setCwd p none) := by
      refine ⟨?_, fun q hq => ?_, fun fd => ?_, ?_⟩
      · rw [ofiles_setCwd, cwds_setCwd, ofiles_of_task htask, cwds_of_task htask]
        exact h₃.tasks rfl rfl
      · rw [System.setCwd, task_setTask_of_ne hq, htask]
        exact h₁.tasks q
      · rw [System.setCwd, task_setTask, htask]
        exact hfiles fd (List.mem_finRange fd)
      · rw [System.setCwd, task_setTask]
    apply Exec.wp_bind.mpr
    apply Exec.wp_modify.mpr
    apply Exec.wp_modify.mpr
    exact (hleaving.reparent _).zombie

theorem zombieChild_eq_some {task : Slot → Task} {q : Slot} (h : zombieChild p task = some q) :
    (task q).state = .zombie := by
  have hq := List.find?_some h
  simp only [decide_eq_true_eq] at hq
  exact hq.2

theorem wait_counted (h : Counted s) : guarded (wait p) (fun _ s' => Counted s') s := by
  unfold wait
  apply Exec.wp_bind.mpr
  apply Exec.wp_gets.mpr
  cases hfind : zombieChild p s.task with
  | none =>
      dsimp only
      split
      · exact Exec.wp_throw.mpr rfl
      · exact Exec.wp_pure.mpr h
  | some q =>
      have hzombie := zombieChild_eq_some hfind
      have hgone := (h.tasks q).gone (by rw [hzombie]; exact nofun)
      apply Exec.wp_bind.mpr
      apply Exec.wp_modify.mpr
      apply Exec.wp_pure.mpr
      exact ⟨h.files.setTask_same rfl rfl, settled_setTask h.tasks ⟨nofun, fun _ => hgone⟩⟩

/-! ## Runs -/

theorem reply_counted {α : Type} {m : SystemM α} (f : α → Reply)
    (hm : guarded m (fun _ s' => Counted s') s) :
    guarded (reply f m) (fun _ s' => Counted s') s :=
  guarded_seq hm fun _ _ h => Exec.wp_pure.mpr h

/-- What one system call preserves. -/
theorem perform_counted (h : Counted s) (hp : (s.task p).state = .runnable) (junk : Chars)
    (call : SysCall) : guarded (perform p junk call) (fun _ s' => Counted s') s := by
  cases call with
  | «open» path omode => exact reply_counted _ (sysOpen_counted h hp path omode junk)
  | dup fd => exact reply_counted _ (sysDup_counted h hp fd)
  | read fd n piped => exact reply_counted _ (sysRead_counted h fd n piped)
  | write fd src n piped => exact reply_counted _ (sysWrite_counted h fd src n piped)
  | close fd => exact reply_counted _ (sysClose_counted h hp fd)
  | fstat fd st => exact reply_counted _ (sysFstat_counted h fd st)
  | pipe fd page => exact reply_counted _ (sysPipe_counted h hp fd page)
  | fork kstack copied => exact reply_counted _ (fork_counted h hp kstack copied)
  | chdir path => exact reply_counted _ (changeDir_counted h hp path junk)
  | link old new =>
      exact reply_counted _ (withCwd_counted h hp fun hv hcwd =>
        sysLink_tally hv hcwd old new junk)
  | unlink path =>
      exact reply_counted _ (withCwd_counted h hp fun hv hcwd => sysUnlink_tally hv hcwd path junk)
  | mkdir path =>
      exact reply_counted _ (withCwd_counted h hp fun hv hcwd => sysMkdir_tally hv hcwd path junk)
  | mknod path major minor =>
      exact reply_counted _ (withCwd_counted h hp fun hv hcwd =>
        sysMknod_tally hv hcwd path major minor junk)
  | exec path mem => exact reply_counted _ (sysExec_counted h hp path mem junk)
  | exit => exact reply_counted _ (exit_counted h hp)
  | wait => exact reply_counted _ (wait_counted h)

/-! ## Boot -/

theorem powerOn_counted (v : Volume) (k : Fin ninode) (p : Slot) : Counted (powerOn v k p) := by
  have hofiles : occurs (powerOn v k p).ofiles = fun _ => 0 := occurs_eq_zero fun _ => rfl
  have hcwds : occurs (powerOn v k p).cwds = fun _ => 0 := occurs_eq_zero fun _ => rfl
  have hheld : withFiles (powerOn v k p).file (fun _ => 0) = fun _ => 0 := by
    have htarget : occurs (fun i => ((powerOn v k p).file i).target) = fun _ => 0 :=
      occurs_eq_zero fun _ => target_of_ref rfl
    unfold withFiles
    rw [htarget]
    rfl
  refine ⟨?_, fun _ => ⟨nofun, fun _ => ⟨fun _ => rfl, rfl⟩⟩⟩
  rw [hofiles, hcwds]
  refine ⟨fun _ => rfl, ?_, fun _ _ => rfl, fun i hi => absurd hi (Finset.notMem_empty i),
    fun _ _ hpos => absurd hpos (Nat.lt_irrefl 0)⟩
  rw [hheld]
  exact ⟨fun _ => rfl, fun _ => by simp [powerOn], fun _ _ hpos => absurd hpos (Nat.lt_irrefl 0),
    fun i hi => absurd hi (Finset.notMem_empty i), rfl, fun _ => rfl⟩

/-- The path of the root directory has no elements. -/
theorem namei_root_tally {v : Volume} {held : Fin ninode → ℕ} (h : Tally held ∅ false v)
    (k : Fin ninode) (name : Chars) : guarded (namei k [slash] name)
      (fun r v' => ∃ j, r = some j ∧ Tally (hold held j) ∅ false v') v := by
  have hskip : skipelem [slash] name = none := rfl
  have hroot : namei k [slash] name = iget rootino >>= fun j => pure (some j) := by
    unfold namei namex namexFrom
    rw [if_pos (show deref [slash] = slash from rfl), Exec.bind_assoc, hskip]
    rfl
  rw [hroot]
  exact guarded_seq (iget_tally h rootino) fun j v₁ h₁ => Exec.wp_pure.mpr ⟨j, rfl, h₁⟩

theorem userinit_counted (v : Volume) (k : Fin ninode) (p : Slot) (junk : Chars) :
    guarded (userinit k junk) (fun _ s' => Counted s') (powerOn v k p) := by
  have h := powerOn_counted v k p
  unfold userinit
  refine guarded_seq (allocproc_counted h true) fun r s₁ h₁ => ?_
  rcases h₁ with ⟨rfl, h₁⟩ | ⟨np, rfl, -, hstart, -⟩
  · exact Exec.wp_pure.mpr h₁
  · apply Exec.wp_bind.mpr
    apply Exec.wp_modify.mpr
    have hstart' : Forking np [] { s₁ with initproc := np } :=
      ⟨hstart.files.tasks rfl rfl, hstart.tasks, hstart.home, hstart.free⟩
    generalize { s₁ with initproc := np } = s₂ at hstart'
    have hroot : guarded (onVolume (namei k [slash] junk)) (fun r s' => ∃ j, r = some j ∧
        Open (occurs s₂.ofiles) (extra (occurs s₂.cwds) j) ∅ ∅ s' ∧ s'.task = s₂.task) s₂ := by
      refine Exec.wp_zoom.mpr (guarded_mono (namei_root_tally hstart'.files.tally k junk) ?_)
      rintro r v' ⟨j, rfl, hv⟩
      refine ⟨j, rfl, hstart'.files.volume ?_, rfl⟩
      rw [show extra (occurs s₂.cwds) j = hold (occurs s₂.cwds) j from rfl, withFiles_hold]
      exact hv
    refine guarded_seq hroot fun r s₃ h₃ => Exec.wp_modify.mpr ?_
    obtain ⟨j, rfl, hopen, htask⟩ := h₃
    exact hstart'.finish hopen htask rfl rfl rfl

theorem Booted.counted (h : Booted s) : Counted s := by
  obtain ⟨v, k, p, junk, hrun⟩ := h
  exact Exec.wp_ok (userinit_counted v k p junk) hrun

theorem counted_of_run {s₀ : System} {ops : List (Slot × Chars × SysCall × Reply)} (h0 : Booted s₀)
    (hrun : Run CallStep (fun _ => True) s₀ ops s) : Counted s := by
  apply hrun.invariant _ h0.counted
  intro x op y _ _ hx hstep
  exact Exec.wp_ok (perform_counted hx hstep.alive op.2.1 op.2.2.1) hstep.returns

/-- Every reference count is the number of pointers to the entry, nothing is locked, and no
inode is cached twice. -/
structure Exact (s : System) : Prop where
  file : ∀ i, (s.file i).ref =
    (Finset.univ.filter fun x : Slot × Fin nofile => (s.task x.1).ofile x.2 = some i).card
  inode : ∀ k, (s.vol.inode k).ref =
    (Finset.univ.filter fun i =>
      0 < (s.file i).ref ∧ (s.file i).type = .inode ∧ (s.file i).ip = k).card +
    (Finset.univ.filter fun p => (s.task p).cwd = some k).card
  unlocked : ∀ k, (s.vol.inode k).busy = false
  once : ∀ j k, 0 < (s.vol.inode j).ref → 0 < (s.vol.inode k).ref →
    (s.vol.inode j).inum = (s.vol.inode k).inum → j = k

theorem target_eq_some_iff {f : File} :
    f.target = some k ↔ 0 < f.ref ∧ f.type = .inode ∧ f.ip = k := by
  unfold File.target
  split
  · rename_i hf
    simp [hf]
  · rename_i hf
    simp only [reduceCtorEq, false_iff]
    exact fun h => hf ⟨h.1, h.2.1⟩

theorem Counted.exact (h : Counted s) : Exact s := by
  have htally := h.files.tally
  refine ⟨fun i => ?_, fun k => ?_, fun k => ?_, fun j k hj hk => ?_⟩
  · rw [h.files.ref]
    unfold occurs
    rfl
  · rw [htally.ref]
    unfold withFiles occurs
    simp only [target_eq_some_iff]
    rfl
  · have hbusy := htally.busy k
    simpa using hbusy
  · rw [htally.ref] at hj hk
    exact htally.unique j k hj hk

end

variable {s₀ s s' : System} {ops : List (Slot × Chars × SysCall × Reply)}

/-- After any run of system calls the reference counts are exact. -/
theorem reference_counts_exact (h0 : Booted s₀) (hrun : Run CallStep (fun _ => True) s₀ ops s) :
    Exact s :=
  (counted_of_run h0 hrun).exact

/-- A disk on which nothing is allocated. -/
def blankVolume : Volume where
  ninodes := 200
  size := 25045
  block _ := Block.zero
  used _ := false
  dinode _ := Dinode.zero
  inode _ := ⟨Dinode.zero, 0, 0, false, false⟩
  log := ⟨false, [], 10⟩
  devsw _ := none

/-- The state after boot with that disk. -/
def blankSystem (k : Fin ninode) (p : Slot) : System :=
  (userinit k (fun _ => 0) (powerOn blankVolume k p)).2

theorem booted_blankSystem : Booted (blankSystem 0 0) :=
  ⟨blankVolume, 0, 0, fun _ => 0, Exec.run_of_fst rfl⟩

/-- The state after a call. -/
def after (p : Slot) (call : SysCall) (s : System) : System :=
  (perform p (fun _ => 0) call s).2

/-- A process makes a pipe and forks, and its child closes the end for reading. -/
def forkedPipe (k : Fin ninode) (p q : Slot) : System :=
  after q (.close (some 0)) (after p (.fork true true) (after p (.pipe true (some 4096))
    (blankSystem k p)))

theorem reference_counts_exact_forkedPipe : Exact (forkedPipe 0 0 1) := by
  have hpipe : CallStep (blankSystem 0 0) (0, fun _ => 0, .pipe true (some 4096), .ends (some (0, 1)))
      (after 0 (.pipe true (some 4096)) (blankSystem 0 0)) := ⟨rfl, Exec.run_of_fst rfl⟩
  have hfork : CallStep (after 0 (.pipe true (some 4096)) (blankSystem 0 0))
      (0, fun _ => 0, .fork true true, .pid (some 2)) (after 0 (.fork true true)
        (after 0 (.pipe true (some 4096)) (blankSystem 0 0))) := ⟨rfl, Exec.run_of_fst rfl⟩
  have hclose : CallStep (after 0 (.fork true true)
      (after 0 (.pipe true (some 4096)) (blankSystem 0 0))) (1, fun _ => 0, .close (some 0), .done 0)
      (forkedPipe 0 0 1) := ⟨rfl, Exec.run_of_fst rfl⟩
  exact reference_counts_exact booted_blankSystem
    (((Run.single trivial hpipe trivial).snoc hfork trivial).snoc hclose trivial)

/-- After any run no transaction is open, and nothing is recorded for one. -/
theorem transactions_end (h0 : Booted s₀) (hrun : Run CallStep (fun _ => True) s₀ ops s) :
    s.vol.log.busy = false ∧ s.vol.log.sector = [] := by
  have htally := (counted_of_run h0 hrun).files.tally
  exact ⟨htally.trans, htally.idle rfl⟩

/-- A disk with nothing but an empty root directory, and with inodes for one more file. -/
def rootVolume : Volume :=
  { blankVolume with
    ninodes := 3
    size := 1024
    used := fun b => b < 64
    dinode := fun i =>
      if i = rootino then { Dinode.zero with type := tDir, nlink := 1 } else Dinode.zero }

/-- The state after boot with that disk. -/
def rootSystem (k : Fin ninode) (p : Slot) : System :=
  (userinit k (fun _ => 0) (powerOn rootVolume k p)).2

/-- A process makes the file `a`, opened for reading and writing. -/
def openedFile (k : Fin ninode) (p : Slot) : System :=
  after p (.open (some [97]) (some 514)) (rootSystem k p)

/-- Then it writes three bytes. -/
def writtenFile (k : Fin ninode) (p : Slot) : System :=
  after p (.write (some 0) (Chars.ofList [104, 105, 10]) (some 3) none) (openedFile k p)

/-- And it closes the file. -/
def closedFile (k : Fin ninode) (p : Slot) : System :=
  after p (.close (some 0)) (writtenFile k p)

theorem booted_rootSystem : Booted (rootSystem 0 0) :=
  ⟨rootVolume, 0, 0, fun _ => 0, Exec.run_of_fst rfl⟩

theorem run_closedFile : Run CallStep (fun _ => True) (rootSystem 0 0)
    [(0, fun _ => 0, .open (some [97]) (some 514), .fd (some 0)),
      (0, fun _ => 0, .write (some 0) (Chars.ofList [104, 105, 10]) (some 3) none, .count (some 3)),
      (0, fun _ => 0, .close (some 0), .done 0)] (closedFile 0 0) := by
  have hopen : CallStep (rootSystem 0 0)
      (0, fun _ => 0, .open (some [97]) (some 514), .fd (some 0)) (openedFile 0 0) :=
    ⟨by decide +kernel, Exec.run_of_fst (by decide +kernel)⟩
  have hwrite : CallStep (openedFile 0 0) (0, fun _ => 0,
      .write (some 0) (Chars.ofList [104, 105, 10]) (some 3) none, .count (some 3))
      (writtenFile 0 0) := ⟨by decide +kernel, Exec.run_of_fst (by decide +kernel)⟩
  have hclose : CallStep (writtenFile 0 0) (0, fun _ => 0, .close (some 0), .done 0)
      (closedFile 0 0) := ⟨by decide +kernel, Exec.run_of_fst (by decide +kernel)⟩
  exact ((Run.single trivial hopen trivial).snoc hwrite trivial).snoc hclose trivial

theorem transactions_end_closedFile : Run CallStep (fun _ => True) (rootSystem 0 0)
      [(0, fun _ => 0, .open (some [97]) (some 514), .fd (some 0)),
        (0, fun _ => 0, .write (some 0) (Chars.ofList [104, 105, 10]) (some 3) none,
          .count (some 3)),
        (0, fun _ => 0, .close (some 0), .done 0)] (closedFile 0 0) ∧
    (closedFile 0 0).vol.log.busy = false ∧ (closedFile 0 0).vol.log.sector = [] :=
  ⟨run_closedFile, transactions_end booted_rootSystem run_closedFile⟩

/-- No call of any run stops in a panic about reference counts, locks or types of files. -/
theorem tables_never_panic {p : Slot} {junk : Chars} {call : SysCall} {e : Stop}
    (h0 : Booted s₀) (hrun : Run CallStep (fun _ => True) s₀ ops s)
    (hp : (s.task p).state = .runnable) (hstop : perform p junk call s = (.error e, s')) :
    e.ofTables = false := by
  have hcall := perform_counted (counted_of_run h0 hrun) hp junk call
  have hstopped := Exec.wp_error hcall hstop
  exact hstopped

/-- After a file has been made, written and closed, there is no inode left for a directory. -/
theorem tables_never_panic_closedFile :
    perform 0 (fun _ => 0) (.mkdir (some [98])) (closedFile 0 0) =
        (.error .iallocNoInodes, after 0 (.mkdir (some [98])) (closedFile 0 0)) ∧
      Stop.ofTables .iallocNoInodes = false := by
  have hmkdir : (perform 0 (fun _ => 0) (.mkdir (some [98])) (closedFile 0 0)).1 =
      .error .iallocNoInodes := by decide +kernel
  have hstop : perform 0 (fun _ => 0) (.mkdir (some [98])) (closedFile 0 0) =
      (.error .iallocNoInodes, after 0 (.mkdir (some [98])) (closedFile 0 0)) :=
    Exec.run_of_fst hmkdir
  exact ⟨hstop, tables_never_panic booted_rootSystem run_closedFile (by decide +kernel) hstop⟩

end Xv6.Fs
