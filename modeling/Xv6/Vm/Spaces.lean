import Xv6.Vm.ExecOutcome
import Xv6.Vm.Fork
import Xv6.Vm.Growth

/-!
# The pages of all processes over a run

Every process has exactly the pages below its size.  A call changes the address space of one
process at most; the pages that it takes or gives back are in none of the others, so their
tables stay as they are.  `copyuvm` therefore never comes to a page that is missing.
-/

namespace Xv6

namespace Vm

open Support

variable {L : Link} {k k' : Kernel} {plain dirs : Multiset ℕ} {p : Slot}

/-- Every process in use has exactly the pages below its size. -/
def AllFilled (k : Kernel) : Prop :=
  ∀ q, (k.task q).state ≠ .unused → Filled k.mem.word (k.task q).pgdir (k.task q).sz

/-! ## Calls that change no address space -/

theorem Kernel.mem_pgdirs (k : Kernel) {q : Slot} (hq : (k.task q).state ≠ .unused) :
    (k.task q).pgdir ∈ k.pgdirs := by
  rw [k.pgdirs_eq q, Task.dir, if_neg hq]
  exact Multiset.mem_add.mpr (Or.inl (Multiset.mem_singleton_self _))

theorem Kernel.mem_pgdirsBut (k : Kernel) {q : Slot} (hne : q ≠ p)
    (hq : (k.task q).state ≠ .unused) : (k.task q).pgdir ∈ k.pgdirsBut p := by
  unfold Kernel.pgdirsBut
  refine Multiset.mem_cons_of_mem (Multiset.mem_sum.mpr ⟨q, ?_, ?_⟩)
  · exact Finset.mem_erase.mpr ⟨hne, Finset.mem_univ q⟩
  · rw [Task.dir, if_neg hq]
    exact Multiset.mem_singleton_self _

/-- The processes of `k'` are processes of `k` with the same address spaces. -/
def Kernel.SameSpaces (k k' : Kernel) : Prop :=
  ∀ q, (k'.task q).state ≠ .unused → (k.task q).state ≠ .unused ∧
    (k'.task q).pgdir = (k.task q).pgdir ∧ (k'.task q).sz = (k.task q).sz

theorem AllFilled.same (h : AllFilled k) (hspaces : k.SameSpaces k')
    (htables : ∀ d ∈ k.pgdirs, SameTables k.mem.word k'.mem.word d) : AllFilled k' := by
  intro q hq
  obtain ⟨hlive, hpgdir, hsz⟩ := hspaces q hq
  rw [hpgdir, hsz]
  exact (h q hlive).tables (htables _ (k.mem_pgdirs hlive))

theorem AllFilled.of_task (h : AllFilled k) (htask : k'.task = k.task)
    (htables : ∀ d ∈ k.pgdirs, SameTables k.mem.word k'.mem.word d) : AllFilled k' := by
  refine h.same (fun q hq => ?_) htables
  rw [htask] at hq ⊢
  exact ⟨hq, rfl, rfl⟩

/-- A change of one process that keeps its address space. -/
theorem AllFilled.setTask {t : Task} (h : AllFilled k)
    (ht : t.state ≠ .unused → (k.task p).state ≠ .unused ∧ t.pgdir = (k.task p).pgdir ∧
      t.sz = (k.task p).sz) : AllFilled { k with task := Function.update k.task p t } := by
  refine h.same (fun q hq => ?_) fun _ _ _ _ => rfl
  rcases eq_or_ne q p with rfl | hne
  · simp only [Function.update_self] at hq ⊢
    exact ht hq
  · simp only [Function.update_of_ne hne] at hq ⊢
    exact ⟨hq, trivial, trivial⟩

/-- Only the page of a pipe that is closed for good is written to. -/
theorem fileclose_tables {i : Fin nfile} (h : Holds L k plain dirs) :
    Exec.wlp (fileclose L i) (fun _ k' => ∀ d ∈ dirs, SameTables k.mem.word k'.mem.word d) k := by
  have hsame : ∀ {k' : Kernel}, k'.mem.word = k.mem.word →
      ∀ d ∈ dirs, SameTables k.mem.word k'.mem.word d := by
    intro k' hword _ _ _ _
    rw [hword]
  unfold fileclose
  refine Exec.wp_bind.mpr (Exec.wp_gets.mpr ?_)
  split
  · exact Exec.wlp_throw
  · refine Exec.wp_bind.mpr (Exec.wp_modify.mpr ?_)
    split
    · exact Exec.wp_pure.mpr (hsame rfl)
    · refine Exec.wp_bind.mpr (Exec.wp_modify.mpr ?_)
      cases hn : (k.file i).pipe with
      | none => exact Exec.wp_pure.mpr (hsame rfl)
      | some n =>
          simp only
          refine Exec.wp_bind.mpr (Exec.wp_modify.mpr (Exec.wp_bind.mpr (Exec.wp_gets.mpr ?_)))
          split
          · have hplain : n ∈ plain + (openPipes k.file).val :=
              Multiset.mem_add.mpr (Or.inr (mem_openPipes.mpr ⟨i, hn⟩))
            refine wlp_onMemory.mpr ?_
            unfold kfree
            split
            · exact Exec.wlp_throw
            · refine Exec.wp_modify.mpr fun d hd => ?_
              refine SameTables.of_page (n := n) ?_ fun m hm => if_neg hm
              exact Owns.notMem_skeleton (h.owns.plain_notMem hplain hd)
          · exact Exec.wp_pure.mpr (hsame rfl)

theorem SameTables.trans {w w' w'' : ℕ → ℕ → ℕ} {d : ℕ} (h : SameTables w w' d)
    (h' : SameTables w' w'' d) : SameTables w w'' d := by
  intro n hn
  refine (h' n ?_).trans (h n hn)
  unfold skeleton at hn ⊢
  rwa [h.tables_eq]

theorem keeps_mem_filealloc : Exec.Keeps Kernel.mem filealloc := by
  refine Exec.Keeps.bind Exec.Keeps.gets fun r => ?_
  cases r with
  | none => exact Exec.Keeps.pure
  | some i => exact Exec.Keeps.bind (fun _ => rfl) fun _ => Exec.Keeps.pure

theorem keeps_mem_filedup (i : Fin nfile) : Exec.Keeps Kernel.mem (filedup i) := by
  refine Exec.Keeps.bind Exec.Keeps.gets fun f => ?_
  split
  · exact Exec.Keeps.throw
  · exact fun _ => rfl

theorem pipealloc_tables (h : Holds L k plain dirs) :
    Exec.wlp (pipealloc L) (fun _ k' => ∀ d ∈ dirs, SameTables k.mem.word k'.mem.word d) k := by
  have hclose : ∀ (k₁ : Kernel) (i : Fin nfile), Holds L k₁ plain dirs →
      (∀ d ∈ dirs, SameTables k.mem.word k₁.mem.word d) →
      Exec.wlp (fileclose L i) (fun _ k₂ => Holds L k₂ plain dirs ∧
        ∀ d ∈ dirs, SameTables k.mem.word k₂.mem.word d) k₁ := by
    intro k₁ i h₁ hsame
    refine Exec.wlp_mono (Exec.wlp_and (fileclose_spec h₁) (fileclose_tables h₁)) ?_
    rintro - k₂ ⟨h₂, htables⟩
    exact ⟨h₂, fun d hd => (hsame d hd).trans (htables d hd)⟩
  unfold pipealloc
  refine Exec.wlp_seq (Exec.wp_keeps (filealloc_spec h) keeps_mem_filealloc) ?_
  rintro (_ | f0) k1 ⟨⟨hk1, -⟩, hmem1⟩
  · refine Exec.wp_pure.mpr fun _ _ _ _ => ?_
    rw [hmem1]
  · refine Exec.wlp_seq (Exec.wp_keeps (filealloc_spec hk1) keeps_mem_filealloc) ?_
    rintro r k2 ⟨⟨hk2, -⟩, hmem2⟩
    have hsame : ∀ d ∈ dirs, SameTables k.mem.word k2.mem.word d := by
      intro d _ _ _
      rw [hmem2, hmem1]
    cases r with
    | none =>
        refine Exec.wlp_seq (hclose k2 f0 hk2 hsame) fun _ k3 hk3 => ?_
        exact Exec.wp_pure.mpr hk3.2
    | some f1 =>
        refine Exec.wp_bind.mpr (wlp_onMemory.mpr (Exec.wlp_mono (kalloc_spec hk2.owns) ?_))
        rintro (_ | n) s ⟨hs, hword, -⟩
        · rw [handed, zero_add] at hs
          have hsame' : ∀ d ∈ dirs, SameTables k.mem.word s.word d := by
            rw [hword]
            exact hsame
          refine Exec.wlp_seq (hclose { k2 with mem := s } f0 ⟨hs, hk2.pipes⟩ hsame')
            fun _ k4 hk4 => ?_
          refine Exec.wlp_seq (hclose _ f1 hk4.1 hk4.2) fun _ k5 hk5 => ?_
          exact Exec.wp_pure.mpr hk5.2
        · refine Exec.wp_bind.mpr (Exec.wp_modify.mpr ?_)
          refine Exec.wp_bind.mpr (Exec.wp_modify.mpr ?_)
          refine Exec.wp_bind.mpr (Exec.wp_modify.mpr (Exec.wp_pure.mpr ?_))
          intro d hd
          change SameTables k.mem.word s.word d
          rw [hword]
          exact hsame d hd

theorem LaidOut.owns {w₀ : ℕ → ℕ → ℕ} {d sz top : ℕ} {c : ℕ → UInt8} {argv : List (List UInt8)}
    {s : Memory} (h : LaidOut L w₀ plain d sz c argv top s) :
    Owns L s plain (d ::ₘ 0) ∧ ∀ n ∈ plain, s.word n = w₀ n := by
  obtain ⟨_, _, _, _, -, -, -, -, hlaid⟩ := h.stack
  exact ⟨hlaid.owns, hlaid.frame⟩

/-- The pages of a new program are those below the end of its stack. -/
theorem LaidOut.filled {w₀ : ℕ → ℕ → ℕ} {d sz top : ℕ} {c : ℕ → UInt8} {argv : List (List UInt8)}
    {s : Memory} (h : LaidOut L w₀ plain d sz c argv top s) : Filled s.word d top := by
  obtain ⟨_, _, _, _, -, -, -, -, hlaid⟩ := h.stack
  have htop : pagesOf top = pagesOf sz + 2 := by
    rw [h.top_eq, pagesOf]
    unfold pgsize
    omega
  intro u hu
  rw [htop]
  constructor
  · intro hpage
    by_contra hge
    rw [hlaid.above u (by omega) hu] at hpage
    simp [Present] at hpage
  · exact hlaid.present

/-- No page is listed twice. -/
theorem Owns.ne_of_mem {s : Memory} {n m : ℕ} (h : Owns L s (n ::ₘ plain) dirs) (hm : m ∈ plain) :
    m ≠ n := by
  rintro rfl
  have hnd := (Multiset.nodup_add.mp h.nodup).1
  have hcons := (Multiset.nodup_add.mp hnd).2.1
  exact (Multiset.nodup_cons.mp hcons).1 hm

/-- The tables of the others are in pages that count as plain. -/
theorem others_tables {d : ℕ} {word' : ℕ → ℕ → ℕ} (hd : d ∈ k.pgdirsBut p)
    (hframe : ∀ m ∈ ((k.pgdirsBut p).map (footprint k.mem.word)).sum, word' m = k.mem.word m) :
    SameTables k.mem.word word' d := by
  rw [← zero_add ((k.pgdirsBut p).map (footprint k.mem.word)).sum] at hframe
  exact sameTables_of_shelf hd hframe

/-- A process that goes away, or changes its address space, with the others as they are. -/
theorem AllFilled.but {q : Slot} (h : AllFilled k) (hothers : ∀ r, r ≠ q → k'.task r = k.task r)
    (htables : ∀ d ∈ k.pgdirsBut q, SameTables k.mem.word k'.mem.word d)
    (hq : (k'.task q).state ≠ .unused → Filled k'.mem.word (k'.task q).pgdir (k'.task q).sz) :
    AllFilled k' := by
  intro r hr
  rcases eq_or_ne r q with rfl | hne
  · exact hq hr
  · rw [hothers r hne] at hr ⊢
    exact (h r hr).tables (htables _ (k.mem_pgdirsBut hne hr))

/-- `allocproc` takes a page and a slot, and nothing if it fails. -/
theorem allocproc_words : Exec.wlp allocproc (fun r k' => k'.mem.word = k.mem.word ∧
    (r = none → k.SameSpaces k')) k := by
  have hsame : k.SameSpaces k := fun q hq => ⟨hq, rfl, rfl⟩
  unfold allocproc
  refine Exec.wp_bind.mpr (Exec.wp_gets.mpr ?_)
  cases (List.finRange nproc).find? fun p => (k.task p).state = .unused with
  | none => exact Exec.wp_pure.mpr ⟨rfl, fun _ => hsame⟩
  | some np =>
      refine Exec.wp_bind.mpr (Exec.wp_modify.mpr ?_)
      refine Exec.wp_bind.mpr (wlp_onMemory.mpr (Exec.wlp_mono (kalloc_exact k.mem).wlp ?_))
      rintro (_ | n) s ⟨-, hword, -⟩
      · refine Exec.wp_bind.mpr (Exec.wp_modify.mpr (Exec.wp_pure.mpr ⟨hword, fun _ q hq => ?_⟩))
        rcases eq_or_ne q np with rfl | hne
        · simp at hq
        · simp only [Function.update_of_ne hne] at hq ⊢
          exact ⟨hq, trivial, trivial⟩
      · exact Exec.wp_bind.mpr (Exec.wp_modify.mpr (Exec.wp_pure.mpr ⟨hword, by simp⟩))

theorem present_iff_flags (w : ℕ) : Present w ↔ pteFlags w % 2 = 1 := by
  unfold Present pteFlags pgsize
  omega

theorem Copy.filled {s s' : Memory} {d d' sz : ℕ} (h : Copy L s s' d d' sz)
    (hpresent : ∀ u < pagesOf sz, Present (pteAt s.word d u)) : Filled s'.word d' sz := by
  intro u hu
  constructor
  · intro hp
    by_contra hge
    exact h.above u (by omega) hu hp
  · intro hlt
    rw [present_iff_flags, h.flags u hlt, ← present_iff_flags]
    exact hpresent u hlt

/-- The invariant of a run. -/
structure Full (L : Link) (k : Kernel) : Prop where
  sound : Sound L k
  filled : AllFilled k

namespace Full

theorem setOfile {fd : Fin nofile} {o : Option (Fin nfile)} (h : Full L k) :
    Exec.wlp (Vm.setTask p fun t => { t with ofile := Function.update t.ofile fd o })
      (fun _ k' => Full L k' ∧ (k'.task p).state = (k.task p).state) k := by
  refine Exec.wp_modify.mpr ⟨⟨h.sound.setTask rfl rfl (h.sound.size p), ?_⟩, by simp⟩
  exact h.filled.setTask fun ht => ⟨ht, rfl, rfl⟩

theorem fileclose {i : Fin nfile} (h : Full L k) :
    Exec.wlp (Vm.fileclose L i) (fun _ k' => Full L k' ∧ k'.task = k.task) k := by
  refine Exec.wlp_mono (Exec.wlp_and (fileclose_sound h.sound) (fileclose_tables h.sound.holds)) ?_
  rintro - k' ⟨⟨hsound, htask⟩, htables⟩
  exact ⟨⟨hsound, h.filled.of_task htask htables⟩, htask⟩

theorem fdalloc {i : Fin nfile} (h : Full L k) :
    Exec.wlp (Vm.fdalloc p i) (fun _ k' => Full L k') k := by
  unfold Vm.fdalloc
  refine Exec.wp_bind.mpr (Exec.wp_gets.mpr ?_)
  split
  · exact Exec.wp_pure.mpr h
  · refine Exec.wlp_seq h.setOfile ?_
    rintro - k' ⟨hk', -⟩
    exact Exec.wp_pure.mpr hk'

theorem pipealloc (h : Full L k) : Exec.wlp (Vm.pipealloc L) (fun _ k' => Full L k') k := by
  refine Exec.wlp_mono (Exec.wlp_and (Exec.wp_keeps (pipealloc_spec h.sound.holds)
    (keeps_pipealloc L)) (pipealloc_tables h.sound.holds)) ?_
  rintro - k' ⟨⟨hholds, howners⟩, htables⟩
  exact ⟨h.sound.of_owners howners hholds, h.filled.of_task (congrArg Prod.fst howners) htables⟩

theorem sysPipe (h : Full L k) : Exec.wlp (Vm.sysPipe L p) (fun _ k' => Full L k') k := by
  have hclose : ∀ {k : Kernel} (i j : Fin nfile), Full L k →
      Exec.wlp (do Vm.fileclose L i; Vm.fileclose L j) (fun _ k' => Full L k') k := by
    intro k i j hk
    refine Exec.wlp_seq hk.fileclose ?_
    rintro - k1 ⟨hk1, -⟩
    exact Exec.wlp_mono hk1.fileclose fun _ _ hk2 => hk2.1
  unfold Vm.sysPipe
  refine Exec.wlp_seq h.pipealloc ?_
  rintro (_ | ⟨rf, wf⟩) k1 hk1
  · exact Exec.wp_pure.mpr hk1
  · refine Exec.wlp_seq hk1.fdalloc ?_
    rintro (_ | fd0) k2 hk2
    · exact hclose rf wf hk2
    · refine Exec.wlp_seq hk2.fdalloc ?_
      rintro (_ | _) k3 hk3
      · refine Exec.wlp_seq hk3.setOfile ?_
        rintro - k4 ⟨hk4, -⟩
        exact hclose rf wf hk4
      · exact Exec.wp_pure.mpr hk3

theorem sysClose {fd : Fin nofile} (h : Full L k) :
    Exec.wlp (Vm.sysClose L p fd) (fun _ k' => Full L k') k := by
  unfold Vm.sysClose
  refine Exec.wp_bind.mpr (Exec.wp_gets.mpr ?_)
  split
  · exact Exec.wp_pure.mpr h
  · refine Exec.wlp_seq h.setOfile ?_
    rintro - k1 ⟨hk1, -⟩
    exact Exec.wlp_mono hk1.fileclose fun _ _ hk2 => hk2.1

theorem filedup {i : Fin nfile} (h : Full L k) :
    Exec.wlp (Vm.filedup i) (fun _ k' => Full L k' ∧ k'.task = k.task) k := by
  refine Exec.wlp_mono (Exec.wp_keeps (Exec.wp_keeps (filedup_spec h.sound.holds)
    (keeps_filedup i)) (keeps_mem_filedup i)) ?_
  rintro - k' ⟨⟨hholds, howners⟩, hsame⟩
  have htask : k'.task = k.task := congrArg Prod.fst howners
  refine ⟨⟨h.sound.of_owners howners hholds, h.filled.of_task htask fun _ _ _ _ => ?_⟩, htask⟩
  rw [hsame]

theorem sysDup {fd : Fin nofile} (h : Full L k) :
    Exec.wlp (Vm.sysDup p fd) (fun _ k' => Full L k') k := by
  unfold Vm.sysDup
  refine Exec.wp_bind.mpr (Exec.wp_gets.mpr ?_)
  split
  · exact Exec.wp_pure.mpr h
  · refine Exec.wlp_seq h.fdalloc ?_
    rintro (_ | _) k1 hk1
    · exact Exec.wp_pure.mpr hk1
    · exact Exec.wlp_mono hk1.filedup fun _ _ hk2 => hk2.1

theorem exit (h : Full L k) (hp : (k.task p).state ≠ .unused) :
    Exec.wlp (Vm.exit L p) (fun _ k' => Full L k') k := by
  refine Exec.wlp_mono (Exec.wlp_and (exit_sound h.sound hp) ?_) fun _ _ hk => ⟨hk.1, hk.2⟩
  unfold Vm.exit
  refine Exec.wp_bind.mpr (Exec.wp_gets.mpr ?_)
  split
  · exact Exec.wlp_throw
  · refine Exec.wlp_seq (Exec.wp_each
      (I := fun _ k' => Full L k' ∧ (k'.task p).state ≠ .unused) ?_ ⟨h, hp⟩) ?_
    · rintro _ fd _ k1 - ⟨hk1, hp1⟩
      refine Exec.wp_bind.mpr (Exec.wp_gets.mpr ?_)
      split
      · exact Exec.wp_pure.mpr ⟨hk1, hp1⟩
      · refine Exec.wlp_seq hk1.fileclose ?_
        rintro - k2 ⟨hk2, htask⟩
        refine Exec.wlp_mono hk2.setOfile ?_
        rintro - k3 ⟨hk3, hstate⟩
        rw [htask] at hstate
        exact ⟨hk3, hstate ▸ hp1⟩
    · rintro - k1 ⟨hk1, hp1⟩
      refine Exec.wp_bind.mpr (Exec.wp_modify.mpr (Exec.wp_modify.mpr ?_))
      have hk2 : AllFilled { k1 with task := fun q => (k1.task q).reparent p k.initproc } := by
        refine hk1.filled.same (fun q hq => ?_) fun _ _ _ _ => rfl
        simp only [Task.state_reparent] at hq
        refine ⟨hq, ?_, Task.sz_reparent p _ _⟩
        simp only [Task.reparent]
        split <;> rfl
      refine hk2.setTask fun _ => ⟨?_, rfl, rfl⟩
      simpa using hp1

theorem wait (h : Full L k) : Exec.wlp (Vm.wait L p) (fun _ k' => Full L k') k := by
  refine Exec.wlp_mono (Exec.wlp_and (wait_sound h.sound) ?_) fun _ _ hk => ⟨hk.1, hk.2⟩
  unfold Vm.wait
  refine Exec.wp_bind.mpr (Exec.wp_gets.mpr ?_)
  cases hfind : (List.finRange nproc).find? fun q =>
      (k.task q).parent = some p ∧ (k.task q).state = .zombie with
  | none => exact Exec.wp_pure.mpr h.filled
  | some q =>
      have hq : (k.task q).parent = some p ∧ (k.task q).state = .zombie := by
        simpa using List.find?_some hfind
      have howns := h.sound.alone (p := q) (by rw [hq.2]; decide)
      rw [Multiset.cons_add, Multiset.cons_add] at howns
      refine Exec.wp_bind.mpr (Exec.wp_gets.mpr ?_)
      refine Exec.wp_bind.mpr (wlp_onMemory.mpr (Exec.wlp_mono (kfree_spec howns).wlp ?_))
      rintro - s1 ⟨hs1, hkeep1, -⟩
      refine Exec.wp_bind.mpr (wlp_onMemory.mpr (Exec.wlp_mono (freevm_spec hs1).wlp ?_))
      rintro - s2 ⟨-, hkeep2⟩
      refine Exec.wp_modify.mpr (h.filled.but (q := q) (fun r hr => ?_) (fun d hd => ?_) fun hlive => ?_)
      · exact Function.update_of_ne hr _ _
      · refine others_tables hd fun m hm => ?_
        have hplain : m ∈ k.kstacksBut q + (openPipes k.file).val +
            ((k.pgdirsBut q).map (footprint k.mem.word)).sum := Multiset.mem_add.mpr (Or.inr hm)
        exact (hkeep2 m hplain).trans (hkeep1 m (howns.ne_of_mem hplain))
      · simp at hlive

theorem store {v i w : ℕ} (h : Full L k) (hp : (k.task p).state ≠ .unused) :
    Exec.wlp (Vm.store p v i w) (fun _ k' => Full L k') k := by
  refine Exec.wlp_mono (Exec.wlp_and (store_sound h.sound hp) ?_) fun _ _ hk => ⟨hk.1, hk.2⟩
  have howns := (h.sound.live hp).owns
  unfold Vm.store
  refine Exec.wp_bind.mpr (Exec.wp_gets.mpr ?_)
  refine Exec.wp_bind.mpr (wlp_onMemory.mpr (Exec.wlp_mono (walkpgdir_false_spec _ v k.mem).wlp ?_))
  rintro (_ | ⟨n, j⟩) s ⟨rfl, hat⟩
  · exact Exec.wp_pure.mpr h.filled
  · refine Exec.wp_bind.mpr (Exec.wp_gets.mpr ?_)
    split
    · rename_i hacc
      refine wlp_onMemory.mpr (Exec.wp_modify.mpr (h.filled.of_task rfl fun d hd => ?_))
      have hout := howns.user_notMem (howns.user_lt hacc.1 hat hacc.2.2) hat hacc.2.1
      refine SameTables.of_page (hout d ?_) fun m hm => putWord_other_page hm
      rw [k.pgdirs_eq p, Task.dir, if_neg hp, Multiset.singleton_add] at hd
      exact hd
    · exact Exec.wp_pure.mpr h.filled

theorem growproc {n : ℤ} (h : Full L k) (hp : (k.task p).state ≠ .unused)
    (hlow : -2147483648 ≤ n) (hhigh : n < 2147483648) (hn : Resizable k p n) :
    Exec.wlp (Vm.growproc L p n) (fun _ k' => Full L k') k := by
  have hspec := growproc_spec h.sound hp (h.filled p hp) hlow hhigh
  refine Exec.wlp_mono (Exec.wlp_and (growproc_sound h.sound hp)
    (Exec.wp_mono hspec (fun _ k' hk' => ?_) fun _ _ _ => trivial)) fun _ _ hk => ⟨hk.1, hk.2⟩
  obtain ⟨hapart, hiff⟩ := hk'
  refine h.filled.but hapart.task hapart.tables fun _ => ?_
  rcases hiff.mpr hn with ⟨-, -, -, hfilled⟩ | ⟨-, hsz, hpgdir, hsame⟩
  · exact hfilled
  · rw [hsz, hpgdir]
    exact (h.filled p hp).congr hsame

theorem exec {f : ExecFile} {argv : List (List UInt8)} (h : Full L k)
    (hp : (k.task p).state ≠ .unused) (hexec : Contained f argv k.mem) :
    Exec.wp (Vm.exec L p f argv) (fun _ k' => Full L k') (fun _ _ => ¬f.Placed k.mem) k := by
  have h₀ : Owns L k.mem ((k.task p).kstack ::ₘ k.kstacksBut p + (openPipes k.file).val)
      (0 + (k.task p).pgdir ::ₘ k.pgdirsBut p) := by
    rw [zero_add]
    exact (h.sound.live hp).owns
  unfold Vm.exec
  refine Exec.wp_bind.mpr (Exec.wp_gets.mpr ?_)
  refine Exec.wp_bind.mpr (Exec.wp_zoom.mpr (Exec.wp_mono (execImage_laid h₀ hexec) ?_
    fun _ _ hbad => hbad))
  rintro r s ⟨-, hnone, hsome⟩
  have htables : ∀ d ∈ (k.task p).pgdir ::ₘ k.pgdirsBut p,
      (∀ m ∈ others ((k.task p).kstack ::ₘ k.kstacksBut p + (openPipes k.file).val)
        ((k.task p).pgdir ::ₘ k.pgdirsBut p) k.mem.word, s.word m = k.mem.word m) →
      SameTables k.mem.word s.word d := fun d hd hframe => sameTables_of_shelf hd hframe
  cases r with
  | none =>
      obtain ⟨-, hs, hframe⟩ := hnone rfl
      have howns := Owns.unshelve h₀ hs hframe
      rw [zero_add] at howns
      refine Exec.wp_pure.mpr ⟨?_, ?_⟩
      · have hsound := h.sound.resize hp (h.sound.size p) howns
        rwa [Function.update_eq_self] at hsound
      · refine h.filled.of_task rfl fun d hd => htables d ?_ hframe
        rwa [k.pgdirs_eq p, Task.dir, if_neg hp, Multiset.singleton_add] at hd
  | some r =>
      obtain ⟨d, top⟩ := r
      obtain ⟨-, elf, -, hlaid⟩ := hsome d top rfl
      obtain ⟨hs, hframe⟩ := hlaid.owns
      have howns := Owns.unshelve h₀ hs hframe
      have hswap : (d ::ₘ 0) + (k.task p).pgdir ::ₘ k.pgdirsBut p =
          ((k.task p).pgdir ::ₘ 0) + d ::ₘ k.pgdirsBut p := by
        simp only [← Multiset.singleton_add]
        abel
      rw [hswap] at howns
      refine Exec.wp_bind.mpr (Exec.wp_modify.mpr (Exec.wp_zoom.mpr
        (Exec.wp_mono (freevm_spec howns.shelve) ?_ fun _ _ hf => hf.elim)))
      rintro - s' ⟨hs', hframe'⟩
      have howns' := Owns.unshelve howns hs' hframe'
      rw [zero_add] at howns'
      refine ⟨h.sound.resize hp hlaid.top_lt howns', ?_⟩
      refine h.filled.but (q := p) (fun q hq => ?_) (fun e he => ?_) fun _ => ?_
      · exact Function.update_of_ne hq _ _
      · refine (htables e (Multiset.mem_cons_of_mem he) hframe).trans ?_
        exact sameTables_of_shelf (Multiset.mem_cons_of_mem he) hframe'
      · simp only [Function.update_self]
        exact hlaid.filled.tables (sameTables_of_shelf (Multiset.mem_cons_self d _) hframe')

/-- `copyuvm` in `fork`, when the slot `np` has been taken for the child. -/
theorem copied {k1 : Kernel} {np : Slot} (h : Full L k) (hp : (k.task p).state ≠ .unused)
    (hk1 : Embryo L k k1 np) (hword1 : k1.mem.word = k.mem.word) :
    Exec.total (copyuvm L (k.task p).pgdir (k.task p).sz) (fun r s =>
      (∀ d ∈ k.pgdirsBut np, SameTables k.mem.word s.word d) ∧
      (r = none → Owns L s ((k1.task np).kstack ::ₘ (k.kstacksBut np + (openPipes k1.file).val))
        (k.pgdirsBut np)) ∧
      (∀ d, r = some d → Filled s.word d (k.task p).sz) ∧
      (k1.mem.hole = false → k1.mem.Grants (requests (pagesOf (k.task p).sz)) →
        r ≠ none ∧ Asked k1.mem (requests (pagesOf (k.task p).sz)) s)) k1.mem := by
  have hne : p ≠ np := by
    rintro rfl
    exact hp hk1.unused
  have hfilled := h.filled p hp
  obtain ⟨rest, hrest⟩ := Multiset.exists_cons_of_mem (k.mem_pgdirsBut hne hp)
  have howns := hk1.holds.owns
  rw [hrest, ← zero_add ((k.task p).pgdir ::ₘ rest)] at howns
  have hpresent : ∀ u < pagesOf (k.task p).sz,
      Present (pteAt k1.mem.word (k.task p).pgdir u) := by
    intro u hu
    have htop := pagesOf_le (h.sound.size p).le
    rw [hword1]
    exact (hfilled u (by omega)).mpr hu
  refine Exec.total_mono (copyuvm_copied howns (h.sound.size p) hpresent) ?_
  rintro r s ⟨hframe, hnone, hsome, hgets⟩
  refine ⟨fun d hd => ?_, fun hr => ?_, fun d hr => (hsome d hr).2.filled hpresent, hgets⟩
  · rw [← hword1]
    exact sameTables_of_shelf (hrest ▸ hd) hframe
  · have hs := hnone hr
    rwa [Multiset.cons_add, zero_add, ← hrest] at hs

theorem fork (h : Full L k) (hp : (k.task p).state ≠ .unused) :
    Exec.wlp (Vm.fork L p) (fun _ k' => Full L k') k := by
  refine Exec.wlp_mono (Exec.wlp_and (fork_sound h.sound hp) ?_) fun _ _ hk => ⟨hk.1, hk.2⟩
  unfold Vm.fork
  refine Exec.wlp_seq (Exec.wlp_and (allocproc_spec h.sound) allocproc_words) ?_
  rintro (_ | np) k1 ⟨hk1, hword1, hspaces⟩
  · refine Exec.wp_pure.mpr (h.filled.same (hspaces rfl) fun _ _ _ _ => ?_)
    rw [hword1]
  · have hne : p ≠ np := by
      rintro rfl
      exact hp hk1.unused
    refine Exec.wp_bind.mpr (Exec.wp_gets.mpr ?_)
    rw [hk1.beside.task p hne]
    refine Exec.wp_bind.mpr (wlp_onMemory.mpr (Exec.wlp_mono (h.copied hp hk1 hword1).wlp ?_))
    rintro r s ⟨htables, hnone, hsome, -⟩
    have hothers : ∀ q, q ≠ np → k1.task q = k.task q := hk1.beside.task
    cases r with
    | none =>
        have hs := hnone rfl
        refine Exec.wp_bind.mpr (Exec.wp_modify.mpr (Exec.wp_bind.mpr (Exec.wp_gets.mpr ?_)))
        simp only [Function.update_self]
        refine Exec.wp_bind.mpr (wlp_onMemory.mpr (Exec.wlp_mono (kfree_spec hs).wlp ?_))
        rintro - s2 ⟨-, hkeep, -⟩
        refine Exec.wp_modify.mpr (h.filled.but (q := np) (fun q hq => ?_) (fun d hd => ?_)
          fun hlive => ?_)
        · simpa [hq] using hothers q hq
        · refine (htables d hd).trans (SameTables.of_page ?_ hkeep)
          exact Owns.notMem_skeleton (hs.plain_notMem (Multiset.mem_cons_self _ _) hd)
        · simp at hlive
    | some d =>
        have hchild := hsome d rfl
        refine Exec.wp_bind.mpr (Exec.wp_modify.mpr ?_)
        refine Exec.wlp_seq (Exec.wp_each (I := fun _ k' => k'.mem = s ∧
          (k'.task np).pgdir = d ∧ (k'.task np).sz = (k.task p).sz ∧
            ∀ q, q ≠ np → k'.task q = k.task q) ?_ ⟨rfl, ?_, ?_, fun q hq => ?_⟩) ?_
        · rintro _ fd _ k' - ⟨hmem, hpgdir, hsz, htask⟩
          cases (k.task p).ofile fd with
          | none => exact Exec.wp_pure.mpr ⟨hmem, hpgdir, hsz, htask⟩
          | some i =>
              refine Exec.wlp_seq (Exec.wp_keeps (keeps_mem_filedup i).wlp (keeps_filedup i)) ?_
              rintro - k2 ⟨hmem2, howners⟩
              have htask2 : k2.task = k'.task := congrArg Prod.fst howners
              refine Exec.wp_modify.mpr ⟨hmem2.trans hmem, ?_, ?_, fun q hq => ?_⟩
              · simpa [htask2] using hpgdir
              · simpa [htask2] using hsz
              · simpa [htask2, hq] using htask q hq
        · simp
        · simp
        · exact (Function.update_of_ne hq _ _).trans (hothers q hq)
        · rintro - k2 ⟨hmem, hpgdir, hsz, htask⟩
          refine Exec.wp_modify.mpr (h.filled.but (q := np) (fun q hq => ?_) (fun e he => ?_)
            fun _ => ?_)
          · exact (Function.update_of_ne hq _ _).trans (htask q hq)
          · change SameTables k.mem.word k2.mem.word e
            rw [hmem]
            exact htables e he
          · simp only [Function.update_self]
            rw [hpgdir, hsz, hmem]
            exact hchild

end Full

/-! ## Boot -/

/-- `inituvm` maps the first page, if it gets a table for it. -/
theorem inituvm_filled {s : Memory} {d : ℕ} {init : ℕ → ℕ} (h : Kvm L s plain dirs d) :
    Exec.wlp (inituvm d init) (fun _ s' => s'.starved = false → Filled s'.word d pgsize) s := by
  unfold inituvm
  refine Exec.wlp_seq (Exec.wlp_and (kalloc_spec h.owns) (kalloc_exact s).wlp) ?_
  rintro (_ | n) s1 ⟨⟨hs1, hword, -⟩, hfails, -, hrefused, hlist⟩
  · exact Exec.wlp_throw
  · rw [handed, Multiset.singleton_add] at hs1
    have hmap : Exec.total (mappages d 1 0 n pteWU)
        (fun ok s' => Round L s s' plain dirs d 0 n pteWU (fun _ => 0) ok)
        { s1 with word := fillPage s1.word n fun _ => 0 } :=
      mapOne_round hs1 (by decide) (by decide) (h.empty 0 (by decide)) hlist hfails hword
        rfl rfl rfl rfl
    refine Exec.wp_bind.mpr (Exec.wp_modify.mpr (Exec.wlp_seq hmap.wlp ?_))
    rintro ok s2 hround
    refine Exec.wp_modify.mpr fun hfed => ?_
    cases ok with
    | false => exact absurd ((hround.starved rfl).symm.trans hfed) (by simp)
    | true =>
        have hpte : ∀ u < kernbasePage, pteAt s2.word d u = if u = 0 then mkPte n pteWU else 0 := by
          intro u hu
          rw [hround.entries u (kernbase_lt_top hu), h.empty u hu]
          simp
        have hfirst := hpte 0 (by decide)
        rw [if_pos rfl] at hfirst
        have hp := mkPte_present n pteWU
        rw [← hfirst] at hp
        obtain ⟨t, j, hat, -⟩ := exists_entryAt hp
        have hout := hround.owns.user_notMem (by decide) hat (hat.pteAt_eq ▸ hp) d
          (Multiset.mem_cons_self d dirs)
        rw [← hat.pteAt_eq, hfirst, mkPte_page (by decide)] at hout
        have hsame : SameTables s2.word (fillPage s2.word n init) d :=
          SameTables.of_page hout fun m hm => fillPage_other hm
        intro u hu
        have hpages : pagesOf pgsize = 1 := by decide
        change Present (pteAt (fillPage s2.word n init) d u) ↔ _
        rw [hsame.pteAt_eq (kernbase_lt_top hu), hpte u hu, hpages, Nat.lt_one_iff]
        split
        · rename_i hzero
          exact iff_of_true (mkPte_present n pteWU) hzero
        · rename_i hne
          exact iff_of_false (by simp [Present]) hne

theorem userinit_filled {init : ℕ → ℕ} (h : Sound L k) (hfresh : Fresh k) :
    Exec.wlp (userinit L init) (fun _ k' => k'.mem.starved = false → AllFilled k') k := by
  unfold userinit
  refine Exec.wlp_seq (allocproc_spec h) ?_
  rintro (_ | p) k1 hk1
  · exact Exec.wlp_throw
  · refine Exec.wp_bind.mpr (Exec.wp_modify.mpr ?_)
    refine Exec.wp_bind.mpr (wlp_onMemory.mpr (Exec.wlp_mono
      (setupkvm_extends hk1.holds.owns).wlp ?_))
    rintro (_ | d) s ⟨-, -, hsome⟩
    · exact Exec.wlp_throw
    · refine Exec.wp_bind.mpr (wlp_onMemory.mpr (Exec.wlp_mono (inituvm_filled (hsome d rfl)) ?_))
      rintro - s2 hs2
      refine Exec.wp_modify.mpr fun hfed q hq => ?_
      rcases eq_or_ne q p with rfl | hne
      · simp only [Function.update_self]
        exact hs2 hfed
      · -- there are no other processes yet
        simp only [Function.update_of_ne hne] at hq
        have htask : k1.task q = k.task q := hk1.beside.task q hne
        rw [htask] at hq
        exact absurd (hfresh.task q).1 hq

theorem booted_filled (h : Booted L k) (hfed : k.mem.starved = false) : AllFilled k := by
  obtain ⟨word, fails, ncpu, init, hmain⟩ := h
  have hspec : Exec.wlp (main L ncpu init) (fun _ k' => k'.mem.starved = false → AllFilled k')
      (powerOn word fails) := main_spec fun _ hk hfresh => userinit_filled hk hfresh
  have hok := Exec.wp_ok hspec hmain
  exact hok hfed

/-! ## Runs -/

/-- What is asked of a call in the state `k`: `growproc` is called with an `int` for which it
does what it should, and `exec` with a file and arguments with which it keeps within the new
program, and it gets the page tables that it asks for. -/
def Meets (k : Kernel) : Op → Prop
  | .growproc p n => (-2147483648 ≤ n ∧ n < 2147483648) ∧ Resizable k p n
  | .exec _ f argv => Contained f argv k.mem
  | _ => True

/-- A call that does not panic and meets the condition. -/
structure ExactStep (L : Link) (k : Kernel) (op : Op) (k' : Kernel) : Prop where
  alive : (k.task op.proc).state ≠ .unused ∧ (k.task op.proc).state ≠ .zombie
  returns : ∃ fails, perform L op (k.withFails fails) = (.ok (), k') ∧
    Meets (k.withFails fails) op

theorem perform_full {op : Op} (h : Full L k) (hp : (k.task op.proc).state ≠ .unused)
    (hmeets : Meets k op) : Exec.wlp (perform L op) (fun _ k' => Full L k') k := by
  cases op with
  | fork p => exact h.fork hp
  | exec p f argv =>
      exact Exec.wp_mono (h.exec hp hmeets) (fun _ _ hk' => hk') fun _ _ _ => trivial
  | growproc p n =>
      exact Exec.wlp_seq (h.growproc hp hmeets.1.1 hmeets.1.2 hmeets.2) fun _ _ hk' =>
        Exec.wp_pure.mpr hk'
  | exit p => exact h.exit hp
  | wait p => exact h.wait
  | pipe p => exact h.sysPipe
  | close p fd => exact h.sysClose
  | dup p fd => exact h.sysDup
  | store p v i w => exact h.store hp

theorem Full.withFails (h : Full L k) (fails : List Bool) : Full L (k.withFails fails) :=
  ⟨h.sound.withFails fails, h.filled⟩

theorem Full.step {op : Op} (h : Full L k) (hstep : ExactStep L k op k') : Full L k' := by
  obtain ⟨⟨hp, -⟩, fails, hrun, hmeets⟩ := hstep
  have hfull := Exec.wp_ok (perform_full (h.withFails fails) hp hmeets) hrun
  exact hfull

theorem full_of_run {k₀ : Kernel} {ops : List Op} (hboot : Booted L k₀)
    (hfed : k₀.mem.starved = false) (hrun : Run (ExactStep L) (fun _ => True) k₀ ops k) :
    Full L k := by
  refine hrun.invariant ?_ ⟨booted_sound hboot, booted_filled hboot hfed⟩
  intro k₁ op k₂ _ _ h hstep
  exact h.step hstep

/-- In such a run no `fork` comes to a page that is missing. -/
theorem Full.copyuvm_returns (h : Full L k) (hp : (k.task p).state ≠ .unused) (fails : List Bool) :
    ∃ r s', copyuvm L (k.task p).pgdir (k.task p).sz (k.mem.withFails fails) = (.ok r, s') := by
  have howns := (h.sound.live hp).owns.withFails fails
  rw [← zero_add ((k.task p).pgdir ::ₘ k.pgdirsBut p)] at howns
  have hpresent : ∀ u < pagesOf (k.task p).sz,
      Present (pteAt (k.mem.withFails fails).word (k.task p).pgdir u) := by
    intro u hu
    have htop := pagesOf_le (h.sound.size p).le
    exact (h.filled p hp u (by omega)).mpr hu
  obtain ⟨r, s', hret, -⟩ := Exec.wp_total (copyuvm_copied howns (h.sound.size p) hpresent)
  exact ⟨r, s', hret⟩

end Vm

end Xv6
