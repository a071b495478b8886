import Xv6.Support.Run
import Xv6.Vm.Pipes

/-!
# Every call keeps the pages in order

`Sound` is the invariant of the kernel: the pages of the allocator are on the free
list or belong to one of the processes, a processor or a pipe.  Each call keeps
it.  The one condition is on `exec`: it must have mapped the pages it fills, its
file must not wrap around the address space and its arguments must be short.
-/

namespace Xv6

namespace Vm

open Support

variable {L : Link} {k : Kernel} {plain dirs : Multiset ℕ}

/-- The kernel stack of a process that is in use. -/
def Task.stack (t : Task) : Multiset ℕ :=
  if t.state = .unused then 0 else {t.kstack}

/-- The page directory of a process that is in use. -/
def Task.dir (t : Task) : Multiset ℕ :=
  if t.state = .unused then 0 else {t.pgdir}

/-- The kernel stacks of all processes and processors. -/
def Kernel.kstacks (k : Kernel) : Multiset ℕ :=
  (k.cpuStacks : Multiset ℕ) + ∑ p, (k.task p).stack

/-- All page directories. -/
def Kernel.pgdirs (k : Kernel) : Multiset ℕ :=
  k.kpgdir ::ₘ ∑ p, (k.task p).dir

/-- The invariant. -/
structure Sound (L : Link) (k : Kernel) : Prop where
  holds : Holds L k k.kstacks k.pgdirs
  size : ∀ p, (k.task p).sz < kernbase

/-! ## One process at a time -/

/-- The stacks of all but the process `p`. -/
def Kernel.kstacksBut (k : Kernel) (p : Slot) : Multiset ℕ :=
  (k.cpuStacks : Multiset ℕ) + ∑ q ∈ Finset.univ.erase p, (k.task q).stack

/-- The directories of all but the process `p`. -/
def Kernel.pgdirsBut (k : Kernel) (p : Slot) : Multiset ℕ :=
  k.kpgdir ::ₘ ∑ q ∈ Finset.univ.erase p, (k.task q).dir

theorem Kernel.kstacks_eq (k : Kernel) (p : Slot) :
    k.kstacks = (k.task p).stack + k.kstacksBut p := by
  unfold kstacks kstacksBut
  rw [← Finset.add_sum_erase _ _ (Finset.mem_univ p)]
  abel

theorem Kernel.pgdirs_eq (k : Kernel) (p : Slot) :
    k.pgdirs = (k.task p).dir + k.pgdirsBut p := by
  unfold pgdirs pgdirsBut
  rw [← Finset.add_sum_erase _ _ (Finset.mem_univ p), Multiset.add_cons]

/-- Two kernels that differ in the process `p` only. -/
structure Beside (p : Slot) (k k' : Kernel) : Prop where
  kpgdir : k'.kpgdir = k.kpgdir
  cpuStacks : k'.cpuStacks = k.cpuStacks
  task : ∀ q, q ≠ p → k'.task q = k.task q

namespace Beside

variable {p : Slot} {k' k'' : Kernel}

theorem trans (h : Beside p k k') (h' : Beside p k' k'') : Beside p k k'' :=
  ⟨h'.kpgdir.trans h.kpgdir, h'.cpuStacks.trans h.cpuStacks,
    fun q hq => (h'.task q hq).trans (h.task q hq)⟩

theorem of_owners (p : Slot) (h : k'.owners = k.owners) : Beside p k k' := by
  have htask : k'.task = k.task := congrArg Prod.fst h
  exact ⟨congrArg (fun o => o.2.2.1) h, congrArg (fun o => o.2.2.2) h,
    fun q _ => congrFun htask q⟩

theorem setTask (p : Slot) (k : Kernel) (t : Task) :
    Beside p k { k with task := Function.update k.task p t } :=
  ⟨rfl, rfl, fun _ hq => Function.update_of_ne hq _ _⟩

theorem kstacksBut_eq (h : Beside p k k') : k'.kstacksBut p = k.kstacksBut p := by
  unfold Kernel.kstacksBut
  rw [h.cpuStacks]
  congr 1
  refine Finset.sum_congr rfl fun q hq => ?_
  rw [h.task q (Finset.ne_of_mem_erase hq)]

theorem pgdirsBut_eq (h : Beside p k k') : k'.pgdirsBut p = k.pgdirsBut p := by
  unfold Kernel.pgdirsBut
  rw [h.kpgdir]
  congr 1
  refine Finset.sum_congr rfl fun q hq => ?_
  rw [h.task q (Finset.ne_of_mem_erase hq)]

/-- The invariant after a call that has changed the process `p`. -/
theorem sound (h : Beside p k k') (hsize : ∀ q, (k.task q).sz < kernbase)
    (hp : (k'.task p).sz < kernbase)
    (hholds : Holds L k' ((k'.task p).stack + k.kstacksBut p) ((k'.task p).dir + k.pgdirsBut p)) :
    Sound L k' := by
  refine ⟨?_, fun q => ?_⟩
  · rw [k'.kstacks_eq p, k'.pgdirs_eq p, h.kstacksBut_eq, h.pgdirsBut_eq]
    exact hholds
  · rcases eq_or_ne q p with rfl | hne
    · exact hp
    · rw [h.task q hne]
      exact hsize q

theorem sound_live (h : Beside p k k') (hsize : ∀ q, (k.task q).sz < kernbase)
    (hp : (k'.task p).sz < kernbase) (hstate : (k'.task p).state ≠ .unused)
    (hholds : Holds L k' ((k'.task p).kstack ::ₘ k.kstacksBut p)
      ((k'.task p).pgdir ::ₘ k.pgdirsBut p)) : Sound L k' := by
  refine h.sound hsize hp ?_
  rw [Task.stack, Task.dir, if_neg hstate, if_neg hstate, Multiset.singleton_add,
    Multiset.singleton_add]
  exact hholds

theorem sound_unused (h : Beside p k k') (hsize : ∀ q, (k.task q).sz < kernbase)
    (hp : (k'.task p).sz < kernbase) (hstate : (k'.task p).state = .unused)
    (hholds : Holds L k' (k.kstacksBut p) (k.pgdirsBut p)) : Sound L k' := by
  refine h.sound hsize hp ?_
  rw [Task.stack, Task.dir, if_pos hstate, if_pos hstate, zero_add, zero_add]
  exact hholds

end Beside

/-- The invariant with the pages of the process `p` taken apart. -/
theorem Sound.at (h : Sound L k) (p : Slot) :
    Holds L k ((k.task p).stack + k.kstacksBut p) ((k.task p).dir + k.pgdirsBut p) := by
  rw [← k.kstacks_eq p, ← k.pgdirs_eq p]
  exact h.holds

theorem Sound.live (h : Sound L k) {p : Slot} (hp : (k.task p).state ≠ .unused) :
    Holds L k ((k.task p).kstack ::ₘ k.kstacksBut p) ((k.task p).pgdir ::ₘ k.pgdirsBut p) := by
  have hat := h.at p
  rwa [Task.stack, Task.dir, if_neg hp, if_neg hp, Multiset.singleton_add,
    Multiset.singleton_add] at hat

theorem Sound.unused (h : Sound L k) {p : Slot} (hp : (k.task p).state = .unused) :
    Holds L k (k.kstacksBut p) (k.pgdirsBut p) := by
  have hat := h.at p
  rwa [Task.stack, Task.dir, if_pos hp, if_pos hp, zero_add, zero_add] at hat

/-- A call that changes the files but no process. -/
theorem Sound.of_owners {k' : Kernel} (h : Sound L k) (howners : k'.owners = k.owners)
    (hholds : Holds L k' k.kstacks k.pgdirs) : Sound L k' := by
  have htask : k'.task = k.task := congrArg Prod.fst howners
  have hkpgdir : k'.kpgdir = k.kpgdir := congrArg (fun o => o.2.2.1) howners
  have hcpu : k'.cpuStacks = k.cpuStacks := congrArg (fun o => o.2.2.2) howners
  refine ⟨?_, ?_⟩
  · unfold Kernel.kstacks Kernel.pgdirs
    rw [htask, hkpgdir, hcpu]
    exact hholds
  · rw [htask]
    exact h.size

/-- A change of a process that keeps its pages. -/
theorem Sound.setTask {p : Slot} {t : Task} (h : Sound L k)
    (hstack : t.stack = (k.task p).stack) (hdir : t.dir = (k.task p).dir)
    (hsz : t.sz < kernbase) : Sound L { k with task := Function.update k.task p t } := by
  refine (Beside.setTask p k t).sound h.size ?_ ?_
  · simpa using hsz
  · have hat := h.at p
    rw [← hstack, ← hdir] at hat
    simpa using (⟨hat.owns, hat.pipes⟩ : Holds L { k with task := Function.update k.task p t } _ _)

/-! ## Files -/

theorem setOfile_sound {p : Slot} {fd : Fin nofile} {o : Option (Fin nfile)} (h : Sound L k) :
    Exec.wlp (Vm.setTask p fun t => { t with ofile := Function.update t.ofile fd o })
      (fun _ k' => Sound L k' ∧ (k'.task p).state = (k.task p).state) k := by
  refine Exec.wp_modify.mpr ⟨h.setTask rfl rfl (h.size p), ?_⟩
  simp

theorem fileclose_sound {i : Fin nfile} (h : Sound L k) :
    Exec.wlp (fileclose L i) (fun _ k' => Sound L k' ∧ k'.task = k.task) k := by
  refine Exec.wlp_mono (Exec.wp_keeps (fileclose_spec h.holds) (keeps_fileclose L i)) ?_
  rintro - k' ⟨hholds, howners⟩
  exact ⟨h.of_owners howners hholds, congrArg Prod.fst howners⟩

theorem fdalloc_sound {p : Slot} {i : Fin nfile} (h : Sound L k) :
    Exec.wlp (fdalloc p i) (fun _ k' => Sound L k') k := by
  unfold fdalloc
  refine Exec.wp_bind.mpr (Exec.wp_gets.mpr ?_)
  split
  · exact Exec.wp_pure.mpr h
  · refine Exec.wlp_seq (setOfile_sound h) ?_
    rintro - k' ⟨hk', -⟩
    exact Exec.wp_pure.mpr hk'

theorem sysPipe_sound {p : Slot} (h : Sound L k) :
    Exec.wlp (sysPipe L p) (fun _ k' => Sound L k') k := by
  have hclose : ∀ {k : Kernel} (i j : Fin nfile), Sound L k →
      Exec.wlp (do fileclose L i; fileclose L j) (fun _ k' => Sound L k') k := by
    intro k i j hk
    refine Exec.wlp_seq (fileclose_sound hk) ?_
    rintro - k1 ⟨hk1, -⟩
    exact Exec.wlp_mono (fileclose_sound hk1) fun _ _ hk2 => hk2.1
  unfold sysPipe
  refine Exec.wlp_seq (Exec.wp_keeps (pipealloc_spec h.holds) (keeps_pipealloc L)) ?_
  rintro (_ | ⟨rf, wf⟩) k1 ⟨hholds, howners⟩
  · exact Exec.wp_pure.mpr (h.of_owners howners hholds)
  · refine Exec.wlp_seq (fdalloc_sound (h.of_owners howners hholds)) ?_
    rintro (_ | fd0) k2 hk2
    · exact hclose rf wf hk2
    · refine Exec.wlp_seq (fdalloc_sound hk2) ?_
      rintro (_ | _) k3 hk3
      · refine Exec.wlp_seq (setOfile_sound hk3) ?_
        rintro - k4 ⟨hk4, -⟩
        exact hclose rf wf hk4
      · exact Exec.wp_pure.mpr hk3

theorem sysClose_sound {p : Slot} {fd : Fin nofile} (h : Sound L k) :
    Exec.wlp (sysClose L p fd) (fun _ k' => Sound L k') k := by
  unfold sysClose
  refine Exec.wp_bind.mpr (Exec.wp_gets.mpr ?_)
  split
  · exact Exec.wp_pure.mpr h
  · refine Exec.wlp_seq (setOfile_sound h) ?_
    rintro - k1 ⟨hk1, -⟩
    exact Exec.wlp_mono (fileclose_sound hk1) fun _ _ hk2 => hk2.1

theorem sysDup_sound {p : Slot} {fd : Fin nofile} (h : Sound L k) :
    Exec.wlp (sysDup p fd) (fun _ k' => Sound L k') k := by
  unfold sysDup
  refine Exec.wp_bind.mpr (Exec.wp_gets.mpr ?_)
  split
  · exact Exec.wp_pure.mpr h
  · rename_i i hi
    refine Exec.wlp_seq (fdalloc_sound h) ?_
    rintro (_ | _) k1 hk1
    · exact Exec.wp_pure.mpr hk1
    · refine Exec.wlp_mono (Exec.wp_keeps (filedup_spec hk1.holds) (keeps_filedup i)) ?_
      rintro - k2 ⟨hholds, howners⟩
      exact hk1.of_owners howners hholds

/-! ## `fork` -/

/-- A slot that `allocproc` has taken: it owns a kernel stack but no directory. -/
structure Embryo (L : Link) (k k' : Kernel) (np : Slot) : Prop where
  unused : (k.task np).state = .unused
  beside : Beside np k k'
  embryo : (k'.task np).state = .embryo
  sz : (k'.task np).sz < kernbase
  holds : Holds L k' ((k'.task np).kstack ::ₘ k.kstacksBut np) (k.pgdirsBut np)

theorem allocproc_spec (h : Sound L k) :
    Exec.wlp allocproc (fun r k' =>
      match r with
      | none => Sound L k'
      | some np => Embryo L k k' np) k := by
  unfold allocproc
  refine Exec.wp_bind.mpr (Exec.wp_gets.mpr ?_)
  cases hfind : (List.finRange nproc).find? fun p => (k.task p).state = .unused with
  | none => exact Exec.wp_pure.mpr h
  | some np =>
      have hunused : (k.task np).state = .unused := by simpa using List.find?_some hfind
      have hholds := h.unused hunused
      refine Exec.wp_bind.mpr (Exec.wp_modify.mpr ?_)
      refine Exec.wp_bind.mpr (wlp_onMemory.mpr (Exec.wlp_mono (kalloc_spec hholds.owns) ?_))
      rintro (_ | n) s ⟨hs, -⟩
      · rw [handed, zero_add] at hs
        refine Exec.wp_bind.mpr (Exec.wp_modify.mpr (Exec.wp_pure.mpr ?_))
        refine Beside.sound_unused (k := k) (p := np) ⟨rfl, rfl, fun q hq => ?_⟩ h.size ?_ ?_
          ⟨hs, hholds.pipes⟩
        · simp [hq]
        · simpa using h.size np
        · simp
      · rw [handed, Multiset.singleton_add] at hs
        refine Exec.wp_bind.mpr (Exec.wp_modify.mpr (Exec.wp_pure.mpr ?_))
        refine ⟨hunused, ⟨rfl, rfl, fun q hq => ?_⟩, ?_, ?_, ?_⟩
        · simp [hq]
        · simp
        · simpa using h.size np
        · simp only [Function.update_self]
          refine ⟨?_, hholds.pipes⟩
          rw [Multiset.cons_add]
          exact hs

/-- The child of a `fork` while its files are being duplicated. -/
structure Child (L : Link) (k k' : Kernel) (np : Slot) : Prop where
  beside : Beside np k k'
  embryo : (k'.task np).state = .embryo
  sz : (k'.task np).sz < kernbase
  holds : Holds L k' ((k'.task np).kstack ::ₘ k.kstacksBut np)
    ((k'.task np).pgdir ::ₘ k.pgdirsBut np)

theorem Child.dupFile {k' : Kernel} {np : Slot} {o : Option (Fin nfile)} {fd : Fin nofile}
    (h : Child L k k' np) :
    Exec.wlp (match o with
      | none => pure ()
      | some i => do
          filedup i
          Vm.setTask np fun t => { t with ofile := Function.update t.ofile fd (some i) })
      (fun _ k'' => Child L k k'' np) k' := by
  cases o with
  | none => exact Exec.wp_pure.mpr h
  | some i =>
      refine Exec.wlp_seq (Exec.wp_keeps (filedup_spec h.holds) (keeps_filedup i)) ?_
      rintro - k1 ⟨hholds, howners⟩
      have htask : k1.task = k'.task := congrArg Prod.fst howners
      have hbeside := h.beside.trans (Beside.of_owners np howners)
      refine Exec.wp_modify.mpr ⟨hbeside.trans (Beside.setTask np k1 _), ?_, ?_, ?_⟩
      · simpa [htask] using h.embryo
      · simpa [htask] using h.sz
      · simp only [Function.update_self]
        rw [htask]
        exact ⟨hholds.owns, hholds.pipes⟩

theorem fork_sound {p : Slot} (h : Sound L k) (hp : (k.task p).state ≠ .unused) :
    Exec.wlp (fork L p) (fun _ k' => Sound L k') k := by
  unfold fork
  refine Exec.wlp_seq (allocproc_spec h) ?_
  rintro (_ | np) k1 hk1
  · exact Exec.wp_pure.mpr hk1
  · have hne : p ≠ np := by
      rintro rfl
      exact hp hk1.unused
    refine Exec.wp_bind.mpr (Exec.wp_gets.mpr ?_)
    rw [hk1.beside.task p hne]
    refine Exec.wp_bind.mpr (wlp_onMemory.mpr (Exec.wlp_mono
      (copyuvm_spec hk1.holds.owns (le_of_lt (h.size p))) ?_))
    rintro (_ | d) s hs
    · -- the kernel stack goes back
      simp only at hs
      rw [Multiset.cons_add] at hs
      refine Exec.wp_bind.mpr (Exec.wp_modify.mpr (Exec.wp_bind.mpr (Exec.wp_gets.mpr ?_)))
      simp only [Function.update_self]
      refine Exec.wp_bind.mpr (wlp_onMemory.mpr (Exec.wlp_mono (kfree_spec hs).wlp ?_))
      rintro - s2 ⟨hs2, -⟩
      refine Exec.wp_modify.mpr ?_
      refine Beside.sound_unused (k := k) (p := np) ⟨hk1.beside.kpgdir, hk1.beside.cpuStacks,
        fun q hq => ?_⟩ h.size ?_ ?_ ⟨hs2, hk1.holds.pipes⟩
      · simpa [hq] using hk1.beside.task q hq
      · simpa using hk1.sz
      · simp
    · simp only at hs
      refine Exec.wp_bind.mpr (Exec.wp_modify.mpr ?_)
      have hchild : Child L k
          { k1 with
            mem := s
            task := Function.update k1.task np { k1.task np with
              pgdir := d, sz := (k.task p).sz, parent := some p } } np := by
        refine ⟨⟨hk1.beside.kpgdir, hk1.beside.cpuStacks, fun q hq => ?_⟩, ?_, ?_, ?_⟩
        · simpa [hq] using hk1.beside.task q hq
        · simpa using hk1.embryo
        · simpa using h.size p
        · simp only [Function.update_self]
          exact ⟨hs, hk1.holds.pipes⟩
      refine Exec.wlp_seq (Exec.wp_each (I := fun _ k' => Child L k k' np) ?_ hchild) ?_
      · intro _ fd _ k' _ hk'
        exact hk'.dupFile
      · intro _ k2 hk2
        refine Exec.wp_modify.mpr ?_
        refine (hk2.beside.trans (Beside.setTask np k2 _)).sound_live h.size ?_ ?_ ?_
        · simpa using hk2.sz
        · simp
        · simp only [Function.update_self]
          exact ⟨hk2.holds.owns, hk2.holds.pipes⟩

/-! ## `exit` and `wait` -/

@[simp] theorem Task.state_reparent (p init : Slot) (t : Task) :
    (t.reparent p init).state = t.state := by
  unfold Task.reparent
  split <;> rfl

@[simp] theorem Task.stack_reparent (p init : Slot) (t : Task) :
    (t.reparent p init).stack = t.stack := by
  unfold Task.reparent
  split <;> rfl

@[simp] theorem Task.dir_reparent (p init : Slot) (t : Task) :
    (t.reparent p init).dir = t.dir := by
  unfold Task.reparent
  split <;> rfl

@[simp] theorem Task.sz_reparent (p init : Slot) (t : Task) :
    (t.reparent p init).sz = t.sz := by
  unfold Task.reparent
  split <;> rfl

theorem exit_sound {p : Slot} (h : Sound L k) (hp : (k.task p).state ≠ .unused) :
    Exec.wlp (exit L p) (fun _ k' => Sound L k') k := by
  unfold exit
  refine Exec.wp_bind.mpr (Exec.wp_gets.mpr ?_)
  split
  · exact Exec.wlp_throw
  · refine Exec.wlp_seq (Exec.wp_each
      (I := fun _ k' => Sound L k' ∧ (k'.task p).state ≠ .unused) ?_ ⟨h, hp⟩) ?_
    · rintro _ fd _ k1 - ⟨hk1, hp1⟩
      refine Exec.wp_bind.mpr (Exec.wp_gets.mpr ?_)
      split
      · exact Exec.wp_pure.mpr ⟨hk1, hp1⟩
      · refine Exec.wlp_seq (fileclose_sound hk1) ?_
        rintro - k2 ⟨hk2, htask⟩
        refine Exec.wlp_mono (setOfile_sound hk2) ?_
        rintro - k3 ⟨hk3, hstate⟩
        rw [htask] at hstate
        exact ⟨hk3, hstate ▸ hp1⟩
    · rintro - k1 ⟨hk1, hp1⟩
      refine Exec.wp_bind.mpr (Exec.wp_modify.mpr ?_)
      have hk2 : Sound L { k1 with task := fun q => (k1.task q).reparent p k.initproc } := by
        refine ⟨?_, fun q => ?_⟩
        · unfold Kernel.kstacks Kernel.pgdirs
          simp only [Task.stack_reparent, Task.dir_reparent]
          exact ⟨hk1.holds.owns, hk1.holds.pipes⟩
        · simp only [Task.sz_reparent]
          exact hk1.size q
      refine Exec.wp_modify.mpr (hk2.setTask ?_ ?_ ?_)
      · simp [Task.stack, hp1]
      · simp [Task.dir, hp1]
      · exact hk2.size p

theorem wait_sound {p : Slot} (h : Sound L k) :
    Exec.wlp (wait L p) (fun _ k' => Sound L k') k := by
  unfold wait
  refine Exec.wp_bind.mpr (Exec.wp_gets.mpr ?_)
  cases hfind : (List.finRange nproc).find? fun q =>
      (k.task q).parent = some p ∧ (k.task q).state = .zombie with
  | none => exact Exec.wp_pure.mpr h
  | some q =>
      have hq : (k.task q).parent = some p ∧ (k.task q).state = .zombie := by
        simpa using List.find?_some hfind
      have hholds := h.live (p := q) (by rw [hq.2]; decide)
      have howns := hholds.owns
      rw [Multiset.cons_add] at howns
      refine Exec.wp_bind.mpr (Exec.wp_gets.mpr ?_)
      refine Exec.wp_bind.mpr (wlp_onMemory.mpr (Exec.wlp_mono (kfree_spec howns).wlp ?_))
      rintro - s1 ⟨hs1, -⟩
      refine Exec.wp_bind.mpr (wlp_onMemory.mpr (Exec.wlp_mono (freevm_spec hs1).wlp ?_))
      rintro - s2 ⟨hs2, -⟩
      refine Exec.wp_modify.mpr ?_
      refine Beside.sound_unused (k := k) (p := q) ⟨rfl, rfl, fun r hr => ?_⟩ h.size ?_ ?_
        ⟨hs2, hholds.pipes⟩
      · simp [hr]
      · simpa using h.size q
      · simp

/-! ## `growproc`, `exec` and stores -/

/-- A function on the memory of the process `p` that changes no other process. -/
theorem Sound.resize {p : Slot} {s : Memory} {t : Task} (h : Sound L k)
    (hstate : t.state ≠ .unused) (hsz : t.sz < kernbase)
    (hs : Owns L s (t.kstack ::ₘ k.kstacksBut p + (openPipes k.file).val)
      (t.pgdir ::ₘ k.pgdirsBut p)) :
    Sound L { k with mem := s, task := Function.update k.task p t } := by
  refine Beside.sound_live (k := k) (p := p) ⟨rfl, rfl, fun q hq => ?_⟩ h.size ?_ ?_ ?_
  · simp [hq]
  · simpa using hsz
  · simpa using hstate
  · simp only [Function.update_self]
    exact ⟨hs, h.holds.pipes⟩

theorem growproc_sound {p : Slot} {n : ℤ} (h : Sound L k) (hp : (k.task p).state ≠ .unused) :
    Exec.wlp (growproc L p n) (fun _ k' => Sound L k') k := by
  have howns := (h.live hp).owns
  have hsame : ∀ {s : Memory}, Owns L s ((k.task p).kstack ::ₘ k.kstacksBut p +
      (openPipes k.file).val) ((k.task p).pgdir ::ₘ k.pgdirsBut p) →
      Sound L { k with mem := s } := by
    intro s hs
    have := h.resize hp (h.size p) hs
    rwa [Function.update_eq_self] at this
  unfold growproc
  refine Exec.wp_bind.mpr (Exec.wp_gets.mpr ?_)
  split
  · refine Exec.wp_bind.mpr (wlp_onMemory.mpr (Exec.wlp_mono (allocuvm_spec howns) ?_))
    rintro sz s ⟨hs, hsz, -⟩
    split
    · exact Exec.wp_pure.mpr (hsame hs)
    · refine Exec.wp_bind.mpr (Exec.wp_modify.mpr (Exec.wp_pure.mpr ?_))
      exact h.resize hp (hsz (h.size p)) hs
  · split
    · refine Exec.wp_bind.mpr (wlp_onMemory.mpr (Exec.wlp_mono
        (deallocuvm_spec howns (le_of_lt (h.size p))).wlp ?_))
      rintro sz s ⟨hs, hsz⟩
      split
      · exact Exec.wp_pure.mpr (hsame hs)
      · refine Exec.wp_bind.mpr (Exec.wp_modify.mpr (Exec.wp_pure.mpr (h.resize hp ?_ hs)))
        exact lt_of_le_of_lt hsz (h.size p)
    · exact Exec.wp_pure.mpr h

theorem exec_sound {p : Slot} {f : ExecFile} {argv : List (List UInt8)} (h : Sound L k)
    (hp : (k.task p).state ≠ .unused) (hwraps : f.NoWrap) (hargs : ShortArgs argv) :
    Exec.wlp (exec L p f argv) (fun _ k' => k'.mem.hole = false → Sound L k') k := by
  have howns := (h.live hp).owns
  unfold exec
  refine Exec.wp_bind.mpr (Exec.wp_gets.mpr ?_)
  refine Exec.wp_bind.mpr (wlp_onMemory.mpr (Exec.wlp_mono
    (execImage_spec hwraps hargs howns) ?_))
  rintro (_ | ⟨d, sz⟩) s hs
  · refine Exec.wp_pure.mpr fun hh => ?_
    have := h.resize hp (h.size p) (hs hh)
    rwa [Function.update_eq_self] at this
  · refine Exec.wp_bind.mpr (Exec.wp_modify.mpr ?_)
    by_cases hh : s.hole = false
    · obtain ⟨hs, hsz⟩ := hs hh
      rw [Multiset.cons_swap] at hs
      refine wlp_onMemory.mpr (Exec.wlp_mono (freevm_spec hs).wlp ?_)
      rintro - s2 ⟨hs2, -⟩ -
      exact h.resize hp hsz hs2
    · refine wlp_onMemory.mpr (Exec.wlp_mono (keeps_freevm L _).wlp ?_)
      intro _ s2 hrec hfalse
      rw [Memory.hole_of_record hrec] at hfalse
      exact absurd hfalse hh

theorem store_sound {p : Slot} {v i w : ℕ} (h : Sound L k) (hp : (k.task p).state ≠ .unused) :
    Exec.wlp (store p v i w) (fun _ k' => Sound L k') k := by
  have howns := (h.live hp).owns
  unfold store
  refine Exec.wp_bind.mpr (Exec.wp_gets.mpr ?_)
  refine Exec.wp_bind.mpr (wlp_onMemory.mpr (Exec.wlp_mono (walkpgdir_false_spec _ v k.mem).wlp ?_))
  rintro (_ | ⟨n, j⟩) s ⟨rfl, hat⟩
  · exact Exec.wp_pure.mpr h
  · refine Exec.wp_bind.mpr (Exec.wp_gets.mpr ?_)
    split
    · rename_i hacc
      refine wlp_onMemory.mpr (Exec.wp_modify.mpr ?_)
      have hout := howns.user_notMem (howns.user_lt hacc.1 hat hacc.2.2) hat hacc.2.1
      have hs : Owns L { k.mem with word := putWord k.mem.word (ptePage (k.mem.word n j)) i w }
          _ _ := howns.move (fun d' hd' => SameTables.of_page (hout d' hd')
            fun m hm => putWord_other_page hm) rfl rfl
      have := h.resize hp (h.size p) hs
      rwa [Function.update_eq_self] at this
    · exact Exec.wp_pure.mpr h

/-! ## Boot -/

/-- The pages not handed to the allocator yet. -/
def pagesFrom (n k : ℕ) : Multiset ℕ :=
  (List.range' n k : List ℕ)

theorem pagesFrom_succ (n k : ℕ) : pagesFrom n (k + 1) = n ::ₘ pagesFrom (n + 1) k :=
  rfl

theorem allPages_eq (L : Link) :
    allPages L = pagesFrom L.kend (1024 - L.kend) + pagesFrom 1024 (phystopPage - 1024) := by
  have hend := L.kend_le
  have hcut : List.range' L.kend (1024 - L.kend) ++
      List.range' (L.kend + (1024 - L.kend)) (phystopPage - 1024) =
      List.range' L.kend (1024 - L.kend + (phystopPage - 1024)) := List.range'_append_1
  rw [show L.kend + (1024 - L.kend) = 1024 by omega,
    show 1024 - L.kend + (phystopPage - 1024) = phystopPage - L.kend by
      unfold phystopPage
      omega] at hcut
  unfold pagesFrom
  rw [Multiset.coe_add, hcut]
  rfl

theorem freerange_spec {s : Memory} {n m : ℕ} (h : Owns L s (pagesFrom n m + plain) dirs) :
    Exec.wlp (freerange L m n) (fun _ s' => Owns L s' plain dirs) s := by
  induction m generalizing s n with
  | zero =>
      rw [show pagesFrom n 0 = 0 by simp [pagesFrom], zero_add] at h
      exact Exec.wp_pure.mpr h
  | succ m ih =>
      rw [pagesFrom_succ, Multiset.cons_add] at h
      refine Exec.wlp_seq (kfree_spec h).wlp ?_
      rintro - s1 ⟨h1, -⟩
      exact ih h1

/-- The kernel while it boots: no process and no file yet. -/
structure Fresh (k : Kernel) : Prop where
  task : ∀ p, (k.task p).state = .unused ∧ (k.task p).sz = 0
  file : ∀ i, (k.file i).pipe = none

theorem Fresh.sound (h : Fresh k)
    (howns : Owns L k.mem (k.cpuStacks : Multiset ℕ) {k.kpgdir}) : Sound L k := by
  have hopen : openPipes k.file = ∅ := by
    ext p
    simp [mem_openPipes, h.file]
  have hstack : k.kstacks = k.cpuStacks := by
    unfold Kernel.kstacks
    simp [Task.stack, h.task]
  have hdirs : k.pgdirs = {k.kpgdir} := by
    unfold Kernel.pgdirs
    simp [Task.dir, h.task]
  refine ⟨⟨?_, ⟨?_, ?_, ?_, ?_⟩⟩, fun p => ?_⟩
  · rw [hopen, hstack, hdirs, Finset.empty_val, add_zero]
    exact howns
  · exact fun i _ => h.file i
  · intro i p hp
    rw [h.file i] at hp
    cases hp
  · intro i j p hp
    rw [h.file i] at hp
    cases hp
  · intro i p w hp
    rw [h.file i] at hp
    cases hp
  · rw [(h.task p).2]
    decide

theorem startothers_spec {n : ℕ} (h : Fresh k)
    (howns : Owns L k.mem (k.cpuStacks + plain) {k.kpgdir}) :
    Exec.wlp (startothers n) (fun _ k' => Fresh k' ∧
      Owns L k'.mem (k'.cpuStacks + plain) {k'.kpgdir}) k := by
  induction n generalizing k with
  | zero => exact Exec.wp_pure.mpr ⟨h, howns⟩
  | succ n ih =>
      unfold startothers
      refine Exec.wp_bind.mpr (wlp_onMemory.mpr (Exec.wlp_mono (kalloc_spec howns) ?_))
      rintro (_ | m) s ⟨hs, -⟩
      · rw [handed, zero_add] at hs
        exact ih ⟨h.task, h.file⟩ hs
      · rw [handed, Multiset.singleton_add] at hs
        refine Exec.wp_bind.mpr (Exec.wp_modify.mpr ?_)
        refine ih (k := { k with mem := s, cpuStacks := m :: k.cpuStacks }) ⟨h.task, h.file⟩ ?_
        rw [← Multiset.cons_coe, Multiset.cons_add]
        exact hs

theorem userinit_spec {init : ℕ → ℕ} (h : Sound L k) :
    Exec.wlp (userinit L init) (fun _ k' => Sound L k') k := by
  unfold userinit
  refine Exec.wlp_seq (allocproc_spec h) ?_
  rintro (_ | p) k1 hk1
  · exact Exec.wlp_throw
  · refine Exec.wp_bind.mpr (Exec.wp_modify.mpr ?_)
    refine Exec.wp_bind.mpr (wlp_onMemory.mpr (Exec.wlp_mono (setupkvm_spec hk1.holds.owns) ?_))
    rintro (_ | d) s hs
    · exact Exec.wlp_throw
    · refine Exec.wp_bind.mpr (wlp_onMemory.mpr (Exec.wlp_mono (inituvm_spec hs.1) ?_))
      rintro - s2 hs2
      refine Exec.wp_modify.mpr ?_
      refine Beside.sound_live (k := k) (p := p) ⟨hk1.beside.kpgdir, hk1.beside.cpuStacks,
        fun q hq => ?_⟩ h.size ?_ ?_ ?_
      · simpa [hq] using hk1.beside.task q hq
      · simp only [Function.update_self]
        decide
      · simp
      · simp only [Function.update_self]
        exact ⟨hs2, hk1.holds.pipes⟩

/-- When `main` comes to `userinit`, no process has been made yet. -/
theorem main_spec {ncpu : ℕ} {init : ℕ → ℕ} {word : ℕ → ℕ → ℕ} {fails : List Bool}
    {Q : Unit → Kernel → Prop}
    (h : ∀ k, Sound L k → Fresh k → Exec.wlp (userinit L init) Q k) :
    Exec.wlp (main L ncpu init) Q (powerOn word fails) := by
  unfold main
  have h0 : Owns L (powerOn word fails).mem (allPages L) 0 := by
    refine ⟨⟨0, fun _ => rfl, ?_⟩, by simp⟩
    simp [powerOn]
  rw [allPages_eq] at h0
  refine Exec.wp_bind.mpr (wlp_onMemory.mpr (Exec.wlp_mono (freerange_spec h0) ?_))
  rintro - s1 hs1
  refine Exec.wp_bind.mpr (wlp_onMemory.mpr (Exec.wlp_mono (setupkvm_spec hs1) ?_))
  rintro (_ | d) s2 hs2
  · exact Exec.wlp_throw
  · refine Exec.wp_bind.mpr (Exec.wp_modify.mpr ?_)
    have hstart : Exec.wlp (startothers (ncpu - 1)) (fun _ k' => Fresh k' ∧
        Owns L k'.mem (k'.cpuStacks + pagesFrom 1024 (phystopPage - 1024)) {k'.kpgdir})
        { powerOn word fails with mem := s2, kpgdir := d } := by
      refine startothers_spec ⟨fun _ => ⟨rfl, rfl⟩, fun _ => rfl⟩ ?_
      simpa [powerOn] using hs2.1
    refine Exec.wlp_seq hstart ?_
    rintro - k3 ⟨hfresh, howns⟩
    rw [add_comm] at howns
    refine Exec.wp_bind.mpr (wlp_onMemory.mpr (Exec.wlp_mono (freerange_spec howns) ?_))
    rintro - s4 hs4
    have hfresh4 : Fresh { k3 with mem := s4 } := ⟨hfresh.task, hfresh.file⟩
    exact h _ (hfresh4.sound hs4) hfresh4

/-- The kernel boots into the invariant. -/
theorem booted_sound (h : Booted L k) : Sound L k := by
  obtain ⟨word, fails, ncpu, init, hmain⟩ := h
  have hspec : Exec.wlp (main L ncpu init) (fun _ k' => Sound L k') (powerOn word fails) :=
    main_spec fun _ hk _ => userinit_spec hk
  have hok := Exec.wp_ok hspec hmain
  exact hok

/-! ## Runs -/

/-- The file and the arguments of an `exec` keep to what the address space can
hold. -/
def Op.Tame : Op → Prop
  | .exec _ f argv => f.NoWrap ∧ ShortArgs argv
  | _ => True

/-- Whether the call is an `exec`. -/
def Op.IsExec : Op → Prop
  | .exec _ _ _ => True
  | _ => False

theorem Sound.withFails (h : Sound L k) (fails : List Bool) : Sound L (k.withFails fails) :=
  ⟨⟨⟨h.holds.owns.balance, h.holds.owns.wellFormed⟩, h.holds.pipes⟩, h.size⟩

/-- Every call keeps the invariant. -/
theorem perform_sound {op : Op} (h : Sound L k) (hp : (k.task op.proc).state ≠ .unused)
    (htame : op.Tame) :
    Exec.wlp (perform L op) (fun _ k' => (op.IsExec → k'.mem.hole = false) → Sound L k') k := by
  cases op with
  | fork p => exact Exec.wlp_mono (fork_sound h hp) fun _ _ hk' _ => hk'
  | exec p f argv =>
      refine Exec.wlp_mono (exec_sound h hp htame.1 htame.2) ?_
      intro _ _ hk' hhole
      exact hk' (hhole trivial)
  | growproc p n =>
      exact Exec.wlp_seq (growproc_sound h hp) fun _ _ hk' => Exec.wp_pure.mpr fun _ => hk'
  | exit p => exact Exec.wlp_mono (exit_sound h hp) fun _ _ hk' _ => hk'
  | wait p => exact Exec.wlp_mono (wait_sound h) fun _ _ hk' _ => hk'
  | pipe p => exact Exec.wlp_mono (sysPipe_sound h) fun _ _ hk' _ => hk'
  | close p fd => exact Exec.wlp_mono (sysClose_sound h) fun _ _ hk' _ => hk'
  | dup p fd => exact Exec.wlp_mono (sysDup_sound h) fun _ _ hk' _ => hk'
  | store p v i w => exact Exec.wlp_mono (store_sound h hp) fun _ _ hk' _ => hk'

theorem Sound.step {op : Op} {k' : Kernel} (h : Sound L k) (hstep : Step L k op k')
    (htame : op.Tame) (hhole : op.IsExec → k'.mem.hole = false) : Sound L k' := by
  obtain ⟨⟨hp, -⟩, fails, hrun⟩ := hstep
  have hok := Exec.wp_ok (perform_sound (h.withFails fails) hp htame) hrun
  exact hok hhole

/-- The uses that processes and pipes make of pages: kernel stacks, page
directories, page tables, user pages and pipe buffers. -/
def Kernel.uses (k : Kernel) : Multiset ℕ :=
  ∑ p, (k.task p).stack + ((∑ p, (k.task p).dir).map (footprint k.mem.word)).sum +
    (openPipes k.file).val

/-- No page is used twice or used while it is free, and user code has access to
pages below `KERNBASE` only. -/
structure SingleOwner (k : Kernel) : Prop where
  nodup : ((k.mem.freelist : Multiset ℕ) + k.uses).Nodup
  user_lt : ∀ p, (k.task p).state ≠ .unused → ∀ v < topPage, ∀ t j,
    EntryAt k.mem.word (k.task p).pgdir v t j → Present (k.mem.word t j) →
    UserBit (k.mem.word t j) → v < kernbasePage

theorem Sound.singleOwner (h : Sound L k) : SingleOwner k := by
  refine ⟨?_, ?_⟩
  · refine Multiset.nodup_of_le ?_ h.holds.owns.nodup
    unfold Kernel.uses Kernel.kstacks Kernel.pgdirs
    rw [Multiset.map_cons, Multiset.sum_cons]
    refine Multiset.le_iff_exists_add.mpr ⟨k.cpuStacks + footprint k.mem.word k.kpgdir, ?_⟩
    abel
  · intro p hp v hv t j hat _ hu
    exact (h.live hp).owns.user_lt hv hat hu

end Vm

end Xv6
