import Xv6.Vm.Kernel
import Xv6.Vm.ExecSpec

/-!
# The file table and the pages of pipes

A pipe is freed when both of its ends are closed, and an end is closed when the
last reference to the entry of the file table for it goes away.  `PipesOk` says
how the flags of a pipe go with the entries that refer to it.  It depends on the
file table alone, so what the descriptors of the processes refer to is of no
concern here.
-/

namespace Xv6

namespace Vm

open Support

/-- The flags of the pipes agree with the entries of the file table. -/
structure PipesOk (file : Fin nfile → File) (endOpen : ℕ → Bool → Bool) : Prop where
  closed : ∀ i, (file i).ref = 0 → (file i).pipe = none
  isOpen : ∀ i p, (file i).pipe = some p → endOpen p (file i).writable = true
  unique : ∀ i j p, (file i).pipe = some p → (file j).pipe = some p →
    (file i).writable = (file j).writable → i = j
  other : ∀ i p w, (file i).pipe = some p → endOpen p w = true →
    ∃ j, (file j).pipe = some p ∧ (file j).writable = w

/-- The pages of the open pipes. -/
def openPipes (file : Fin nfile → File) : Finset ℕ :=
  Finset.univ.biUnion fun i => (file i).pipe.toFinset

theorem mem_openPipes {file : Fin nfile → File} {p : ℕ} :
    p ∈ openPipes file ↔ ∃ i, (file i).pipe = some p := by
  simp [openPipes]

/-- Where the pages are, apart from what is known of `plain` and `dirs`. -/
structure Holds (L : Link) (k : Kernel) (plain dirs : Multiset ℕ) : Prop where
  owns : Owns L k.mem (plain + (openPipes k.file).val) dirs
  pipes : PipesOk k.file k.endOpen

/-- What the operations on files and pipes leave alone. -/
def Kernel.owners (k : Kernel) : (Slot → Task) × Slot × ℕ × List ℕ :=
  (k.task, k.initproc, k.kpgdir, k.cpuStacks)

variable {L : Link} {k : Kernel} {plain dirs : Multiset ℕ}

theorem wlp_onMemory {α : Type} {m : PageM α} {Q : α → Kernel → Prop} :
    Exec.wlp (onMemory m) Q k ↔ Exec.wlp m (fun a s => Q a { k with mem := s }) k.mem :=
  Exec.wp_zoom

theorem keeps_onMemory {α τ : Type} {f : Kernel → τ} (m : PageM α)
    (hf : ∀ k s, f { k with mem := s } = f k) : Exec.Keeps f (onMemory m) := by
  intro k
  unfold onMemory Exec.zoom
  exact hf k _

/-! ## Changes of one entry -/

/-- A change that keeps the pipes of all entries. -/
theorem Holds.sameFiles {file' : Fin nfile → File} (h : Holds L k plain dirs)
    (hsame : ∀ j, (file' j).pipe = (k.file j).pipe ∧ (file' j).writable = (k.file j).writable)
    (hclosed : ∀ j, (file' j).ref = 0 → (file' j).pipe = none) :
    Holds L { k with file := file' } plain dirs := by
  have hopen : openPipes file' = openPipes k.file := by
    ext p
    rw [mem_openPipes, mem_openPipes]
    refine exists_congr fun j => ?_
    rw [(hsame j).1]
  refine ⟨?_, ⟨hclosed, ?_, ?_, ?_⟩⟩
  · rw [hopen]
    exact h.owns
  · intro j p hp
    rw [(hsame j).1] at hp
    rw [(hsame j).2]
    exact h.pipes.isOpen j p hp
  · intro i j p hi hj hw
    rw [(hsame i).1] at hi
    rw [(hsame j).1] at hj
    rw [(hsame i).2, (hsame j).2] at hw
    exact h.pipes.unique i j p hi hj hw
  · intro i p w hi hw
    rw [(hsame i).1] at hi
    obtain ⟨j, hj, hjw⟩ := h.pipes.other i p w hi hw
    refine ⟨j, ?_, ?_⟩
    · rw [(hsame j).1]
      exact hj
    · rw [(hsame j).2]
      exact hjw

/-- The same for a change of the entry `i` only. -/
theorem Holds.updateFile {i : Fin nfile} {f : File} (h : Holds L k plain dirs)
    (hpipe : f.pipe = (k.file i).pipe) (hwritable : f.writable = (k.file i).writable)
    (hclosed : f.ref = 0 → f.pipe = none) :
    Holds L { k with file := Function.update k.file i f } plain dirs := by
  apply h.sameFiles
  · intro j
    rcases eq_or_ne j i with rfl | hne
    · rw [Function.update_self]
      exact ⟨hpipe, hwritable⟩
    · rw [Function.update_of_ne hne]
      exact ⟨rfl, rfl⟩
  · intro j
    rcases eq_or_ne j i with rfl | hne
    · rw [Function.update_self]
      exact hclosed
    · rw [Function.update_of_ne hne]
      exact h.pipes.closed j

/-- An entry whose reference count is at least one is no longer free. -/
theorem filealloc_spec (h : Holds L k plain dirs) :
    Exec.wlp filealloc (fun r k' => Holds L k' plain dirs ∧ ∀ i, r = some i →
      (k.file i).ref = 0 ∧ (k'.file i).ref = 1 ∧ (k'.file i).pipe = none ∧
      ∀ j, j ≠ i → k'.file j = k.file j) k := by
  unfold filealloc
  refine Exec.wp_bind.mpr (Exec.wp_gets.mpr ?_)
  cases hfind : (List.finRange nfile).find? fun i => (k.file i).ref = 0 with
  | none => exact Exec.wp_pure.mpr ⟨h, by simp⟩
  | some i =>
      have hfree : (k.file i).ref = 0 := by simpa using List.find?_some hfind
      have hnone := h.pipes.closed i hfree
      refine Exec.wp_bind.mpr (Exec.wp_modify.mpr (Exec.wp_pure.mpr ⟨?_, ?_⟩))
      · exact h.updateFile rfl rfl fun hz => by simp at hz
      · rintro _ ⟨⟩
        refine ⟨hfree, ?_, ?_, fun j hj => Function.update_of_ne hj _ _⟩
        · simp
        · simpa using hnone

theorem filedup_spec {i : Fin nfile} (h : Holds L k plain dirs) :
    Exec.wlp (filedup i) (fun _ k' => Holds L k' plain dirs) k := by
  unfold filedup
  refine Exec.wp_bind.mpr (Exec.wp_gets.mpr ?_)
  split
  · exact Exec.wlp_throw
  · refine Exec.wp_modify.mpr (h.updateFile rfl rfl fun hz => ?_)
    simp at hz

/-! ## Closing a file -/

/-- The file table and the flags after the last reference to the entry `i` for
the end `w` of the pipe `p` is gone. -/
theorem PipesOk.drop {file : Fin nfile → File} {endOpen : ℕ → Bool → Bool} {i : Fin nfile}
    {p : ℕ} (h : PipesOk file endOpen) (hp : (file i).pipe = some p) :
    PipesOk (Function.update file i { file i with ref := 0, pipe := none })
      (Function.update endOpen p (Function.update (endOpen p) (file i).writable false)) := by
  have hother : ∀ j q, (Function.update file i { file i with ref := 0, pipe := none } j).pipe =
      some q → j ≠ i ∧ (file j).pipe = some q := by
    intro j q hq
    rcases eq_or_ne j i with rfl | hne
    · simp at hq
    · rw [Function.update_of_ne hne] at hq
      exact ⟨hne, hq⟩
  -- the flag of an end that some other entry stands for is not touched
  have hkeep : ∀ j, j ≠ i → (file j).pipe = some p → (file j).writable ≠ (file i).writable := by
    intro j hne hj hw
    exact hne (h.unique j i p hj hp hw)
  refine ⟨?_, ?_, ?_, ?_⟩
  · intro j hz
    rcases eq_or_ne j i with rfl | hne
    · simp
    · rw [Function.update_of_ne hne] at hz ⊢
      exact h.closed j hz
  · intro j q hq
    obtain ⟨hne, hq⟩ := hother j q hq
    rw [Function.update_of_ne hne]
    rcases eq_or_ne q p with rfl | hqp
    · rw [Function.update_self, Function.update_of_ne (hkeep j hne hq)]
      exact h.isOpen j q hq
    · rw [Function.update_of_ne hqp]
      exact h.isOpen j q hq
  · intro j l q hj hl hw
    obtain ⟨hji, hj⟩ := hother j q hj
    obtain ⟨hli, hl⟩ := hother l q hl
    rw [Function.update_of_ne hji, Function.update_of_ne hli] at hw
    exact h.unique j l q hj hl hw
  · intro j q w hj hw
    obtain ⟨hji, hj⟩ := hother j q hj
    have hold : endOpen q w = true ∧ (q = p → w ≠ (file i).writable) := by
      rcases eq_or_ne q p with rfl | hqp
      · rw [Function.update_self] at hw
        rcases eq_or_ne w (file i).writable with rfl | hne
        · simp at hw
        · rw [Function.update_of_ne hne] at hw
          exact ⟨hw, fun _ => hne⟩
      · rw [Function.update_of_ne hqp] at hw
        exact ⟨hw, fun h => absurd h hqp⟩
    obtain ⟨l, hl, hlw⟩ := h.other j q w hj hold.1
    have hli : l ≠ i := by
      rintro rfl
      rw [hp] at hl
      exact hold.2 (Option.some.inj hl).symm hlw.symm
    refine ⟨l, ?_, ?_⟩
    · rw [Function.update_of_ne hli]
      exact hl
    · rw [Function.update_of_ne hli]
      exact hlw

/-- Dropping an entry leaves the other pipes open. -/
theorem openPipes_drop {file : Fin nfile → File} {i : Fin nfile} {p : ℕ}
    (hp : (file i).pipe = some p) :
    insert p (openPipes (Function.update file i { file i with ref := 0, pipe := none })) =
      openPipes file := by
  ext q
  rw [Finset.mem_insert, mem_openPipes, mem_openPipes]
  constructor
  · rintro (rfl | ⟨j, hj⟩)
    · exact ⟨i, hp⟩
    · rcases eq_or_ne j i with rfl | hne
      · simp at hj
      · rw [Function.update_of_ne hne] at hj
        exact ⟨j, hj⟩
  · rintro ⟨j, hj⟩
    rcases eq_or_ne j i with rfl | hne
    · rw [hp] at hj
      exact Or.inl (Option.some.inj hj).symm
    · refine Or.inr ⟨j, ?_⟩
      rw [Function.update_of_ne hne]
      exact hj

theorem fileclose_spec {i : Fin nfile} (h : Holds L k plain dirs) :
    Exec.wlp (fileclose L i) (fun _ k' => Holds L k' plain dirs) k := by
  unfold fileclose
  refine Exec.wp_bind.mpr (Exec.wp_gets.mpr ?_)
  split
  · exact Exec.wlp_throw
  · rename_i href
    refine Exec.wp_bind.mpr (Exec.wp_modify.mpr ?_)
    split
    · rename_i hmore
      exact Exec.wp_pure.mpr (h.updateFile rfl rfl fun hz => by simp only at hz; omega)
    · refine Exec.wp_bind.mpr (Exec.wp_modify.mpr ?_)
      simp only [Function.update_self, Function.update_idem]
      cases hp : (k.file i).pipe with
      | none =>
          refine Exec.wp_pure.mpr (h.updateFile ?_ rfl fun _ => rfl)
          rw [hp]
      | some p =>
          simp only
          refine Exec.wp_bind.mpr (Exec.wp_modify.mpr ?_)
          refine Exec.wp_bind.mpr (Exec.wp_gets.mpr ?_)
          have hdrop := h.pipes.drop hp
          have hopen := openPipes_drop hp
          simp only [Function.update_self]
          split
          · rename_i hboth
            -- nothing refers to the pipe any more
            have hgone : p ∉ openPipes (Function.update k.file i
                { k.file i with ref := 0, pipe := none }) := by
              rw [mem_openPipes]
              rintro ⟨j, hj⟩
              have htrue := hdrop.isOpen j p hj
              rw [Function.update_self] at htrue
              generalize (Function.update k.file i
                { k.file i with ref := 0, pipe := none } j).writable = w at htrue
              cases w with
              | false => rw [hboth.1] at htrue; cases htrue
              | true => rw [hboth.2] at htrue; cases htrue
            have howns := h.owns
            rw [← hopen, Finset.insert_val_of_notMem hgone, Multiset.add_cons] at howns
            refine wlp_onMemory.mpr (Exec.wlp_mono (kfree_spec howns).wlp ?_)
            rintro - s ⟨hs, -⟩
            exact ⟨hs, hdrop⟩
          · rename_i hnot
            refine Exec.wp_pure.mpr ⟨?_, hdrop⟩
            -- the other end is still open
            obtain ⟨w, hw⟩ : ∃ w, Function.update (k.endOpen p) (k.file i).writable false w =
                true := by
              by_contra hall
              push Not at hall
              exact hnot ⟨by simpa using hall false, by simpa using hall true⟩
            have hne : w ≠ (k.file i).writable := by
              rintro rfl
              simp at hw
            rw [Function.update_of_ne hne] at hw
            obtain ⟨j, hj, hjw⟩ := h.pipes.other i p w hp hw
            have hji : j ≠ i := by
              rintro rfl
              exact hne hjw.symm
            have hmem : p ∈ openPipes (Function.update k.file i
                { k.file i with ref := 0, pipe := none }) := by
              rw [mem_openPipes]
              refine ⟨j, ?_⟩
              rw [Function.update_of_ne hji]
              exact hj
            have howns := h.owns
            rw [← hopen, Finset.insert_eq_of_mem hmem] at howns
            exact howns

/-! ## Making a pipe -/

/-- The file table after a pipe has been put into the page `p`. -/
structure Piped (file file' : Fin nfile → File) (f0 f1 : Fin nfile) (p : ℕ) : Prop where
  ne : f1 ≠ f0
  free0 : (file f0).pipe = none
  free1 : (file f1).pipe = none
  reading : file' f0 = ⟨1, some p, false⟩
  writing : file' f1 = ⟨1, some p, true⟩
  rest : ∀ j, j ≠ f0 → j ≠ f1 → file' j = file j

/-- The entries that refer to a pipe afterwards. -/
theorem Piped.cases {file file' : Fin nfile → File} {f0 f1 j : Fin nfile} {p q : ℕ}
    (h : Piped file file' f0 f1 p) (hq : (file' j).pipe = some q) :
    q = p ∧ (j = f0 ∧ (file' j).writable = false ∨ j = f1 ∧ (file' j).writable = true) ∨
      (file j).pipe = some q ∧ file' j = file j := by
  rcases eq_or_ne j f1 with rfl | hj1
  · rw [h.writing] at hq
    exact Or.inl ⟨(Option.some.inj hq).symm, Or.inr ⟨rfl, by rw [h.writing]⟩⟩
  · rcases eq_or_ne j f0 with rfl | hj0
    · rw [h.reading] at hq
      exact Or.inl ⟨(Option.some.inj hq).symm, Or.inl ⟨rfl, by rw [h.reading]⟩⟩
    · have hrest := h.rest j hj0 hj1
      rw [hrest] at hq
      exact Or.inr ⟨hq, hrest⟩

theorem Piped.openPipes_eq {file file' : Fin nfile → File} {f0 f1 : Fin nfile} {p : ℕ}
    (h : Piped file file' f0 f1 p) : openPipes file' = insert p (openPipes file) := by
  ext q
  rw [Finset.mem_insert, mem_openPipes, mem_openPipes]
  constructor
  · rintro ⟨j, hj⟩
    rcases h.cases hj with ⟨hq, -⟩ | ⟨hj, -⟩
    · exact Or.inl hq
    · exact Or.inr ⟨j, hj⟩
  · rintro (rfl | ⟨j, hj⟩)
    · exact ⟨f1, by rw [h.writing]⟩
    · refine ⟨j, ?_⟩
      rw [h.rest j ?_ ?_]
      · exact hj
      · rintro rfl
        rw [h.free0] at hj
        cases hj
      · rintro rfl
        rw [h.free1] at hj
        cases hj

theorem PipesOk.add {file file' : Fin nfile → File} {endOpen : ℕ → Bool → Bool}
    {f0 f1 : Fin nfile} {p : ℕ} (h : PipesOk file endOpen) (hnew : p ∉ openPipes file)
    (hpiped : Piped file file' f0 f1 p) :
    PipesOk file' (Function.update endOpen p fun _ => true) := by
  have hold : ∀ {j q}, (file j).pipe = some q → q ≠ p := by
    rintro j q hq rfl
    exact hnew (mem_openPipes.mpr ⟨j, hq⟩)
  refine ⟨?_, ?_, ?_, ?_⟩
  · intro j hz
    rcases eq_or_ne j f1 with rfl | hj1
    · rw [hpiped.writing] at hz
      cases hz
    · rcases eq_or_ne j f0 with rfl | hj0
      · rw [hpiped.reading] at hz
        cases hz
      · rw [hpiped.rest j hj0 hj1] at hz ⊢
        exact h.closed j hz
  · intro j q hq
    rcases hpiped.cases hq with ⟨rfl, -⟩ | ⟨hj, hsame⟩
    · rw [Function.update_self]
    · rw [Function.update_of_ne (hold hj), hsame]
      exact h.isOpen j q hj
  · intro i j q hi hj hw
    rcases hpiped.cases hi with ⟨rfl, hi⟩ | ⟨hi, hisame⟩
    · rcases hpiped.cases hj with ⟨-, hj⟩ | ⟨hj, -⟩
      · rcases hi with ⟨rfl, hiw⟩ | ⟨rfl, hiw⟩ <;> rcases hj with ⟨rfl, hjw⟩ | ⟨rfl, hjw⟩
        · rfl
        · rw [hiw, hjw] at hw
          cases hw
        · rw [hiw, hjw] at hw
          cases hw
        · rfl
      · exact absurd rfl (hold hj)
    · rcases hpiped.cases hj with ⟨rfl, -⟩ | ⟨hj, hjsame⟩
      · exact absurd rfl (hold hi)
      · rw [hisame, hjsame] at hw
        exact h.unique i j q hi hj hw
  · intro j q w hq hw
    rcases hpiped.cases hq with ⟨rfl, -⟩ | ⟨hj, -⟩
    · cases w with
      | false => exact ⟨f0, by rw [hpiped.reading], by rw [hpiped.reading]⟩
      | true => exact ⟨f1, by rw [hpiped.writing], by rw [hpiped.writing]⟩
    · rw [Function.update_of_ne (hold hj)] at hw
      obtain ⟨l, hl, hlw⟩ := h.other j q w hj hw
      have hsame : file' l = file l := by
        apply hpiped.rest
        · rintro rfl
          rw [hpiped.free0] at hl
          cases hl
        · rintro rfl
          rw [hpiped.free1] at hl
          cases hl
      refine ⟨l, ?_, ?_⟩
      · rw [hsame]
        exact hl
      · rw [hsame]
        exact hlw

theorem pipealloc_spec (h : Holds L k plain dirs) :
    Exec.wlp (pipealloc L) (fun _ k' => Holds L k' plain dirs) k := by
  unfold pipealloc
  refine Exec.wlp_seq (filealloc_spec h) ?_
  rintro (_ | f0) k1 ⟨hk1, hf0⟩
  · exact Exec.wp_pure.mpr hk1
  · refine Exec.wlp_seq (filealloc_spec hk1) ?_
    rintro (_ | f1) k2 ⟨hk2, hf1⟩
    · refine Exec.wlp_seq (fileclose_spec hk2) fun _ k3 hk3 => Exec.wp_pure.mpr hk3
    · obtain ⟨-, href0, hnone0, -⟩ := hf0 f0 rfl
      obtain ⟨hfree1, href1, hnone1, hsame⟩ := hf1 f1 rfl
      have hne : f1 ≠ f0 := by
        rintro rfl
        rw [href0] at hfree1
        cases hfree1
      rw [← hsame f0 hne.symm] at href0 hnone0
      refine Exec.wp_bind.mpr (wlp_onMemory.mpr (Exec.wlp_mono (kalloc_spec hk2.owns) ?_))
      rintro (_ | p) s ⟨hs, -⟩
      · rw [handed, zero_add] at hs
        have hk3 : Holds L { k2 with mem := s } plain dirs := ⟨hs, hk2.pipes⟩
        refine Exec.wlp_seq (fileclose_spec hk3) fun _ k4 hk4 => ?_
        exact Exec.wlp_seq (fileclose_spec hk4) fun _ k5 hk5 => Exec.wp_pure.mpr hk5
      · rw [handed, Multiset.singleton_add] at hs
        have hnew : p ∉ openPipes k2.file := by
          intro hmem
          have hnd := (Multiset.nodup_add.mp hs.nodup).1
          have hnd' := (Multiset.nodup_add.mp hnd).2.1
          exact (Multiset.nodup_cons.mp hnd').1 (Multiset.mem_add.mpr (Or.inr hmem))
        refine Exec.wp_bind.mpr (Exec.wp_modify.mpr ?_)
        refine Exec.wp_bind.mpr (Exec.wp_modify.mpr ?_)
        refine Exec.wp_bind.mpr (Exec.wp_modify.mpr (Exec.wp_pure.mpr ?_))
        have hpiped : Piped k2.file (Function.update (Function.update k2.file f0
            { k2.file f0 with pipe := some p, writable := false }) f1
            { k2.file f1 with pipe := some p, writable := true }) f0 f1 p := by
          refine ⟨hne, hnone0, hnone1, ?_, ?_, ?_⟩
          · rw [Function.update_of_ne hne.symm, Function.update_self]
            simp [href0]
          · rw [Function.update_self]
            simp [href1]
          · intro j hj0 hj1
            rw [Function.update_of_ne hj1, Function.update_of_ne hj0]
        simp only [Function.update_of_ne hne]
        refine ⟨?_, hk2.pipes.add hnew hpiped⟩
        rw [hpiped.openPipes_eq, Finset.insert_val_of_notMem hnew, Multiset.add_cons]
        exact hs

/-! ## What files leave alone -/

theorem keeps_setFile (i : Fin nfile) (f : File → File) :
    Exec.Keeps Kernel.owners (setFile i f) := fun _ => rfl

theorem keeps_setEnds (p : ℕ) (f : (Bool → Bool) → Bool → Bool) :
    Exec.Keeps Kernel.owners (setEnds p f) := fun _ => rfl

theorem keeps_filealloc : Exec.Keeps Kernel.owners filealloc := by
  refine Exec.Keeps.bind Exec.Keeps.gets fun r => ?_
  cases r with
  | none => exact Exec.Keeps.pure
  | some i => exact Exec.Keeps.bind (keeps_setFile _ _) fun _ => Exec.Keeps.pure

theorem keeps_filedup (i : Fin nfile) : Exec.Keeps Kernel.owners (filedup i) := by
  refine Exec.Keeps.bind Exec.Keeps.gets fun f => ?_
  split
  · exact Exec.Keeps.throw
  · exact keeps_setFile _ _

theorem keeps_fileclose (L : Link) (i : Fin nfile) :
    Exec.Keeps Kernel.owners (fileclose L i) := by
  refine Exec.Keeps.bind Exec.Keeps.gets fun ff => ?_
  split
  · exact Exec.Keeps.throw
  · refine Exec.Keeps.bind (keeps_setFile _ _) fun _ => ?_
    split
    · exact Exec.Keeps.pure
    · refine Exec.Keeps.bind (keeps_setFile _ _) fun _ => ?_
      split
      · exact Exec.Keeps.pure
      · refine Exec.Keeps.bind (keeps_setEnds _ _) fun _ => ?_
        refine Exec.Keeps.bind Exec.Keeps.gets fun ends => ?_
        split
        · exact keeps_onMemory _ fun _ _ => rfl
        · exact Exec.Keeps.pure

theorem keeps_pipealloc (L : Link) : Exec.Keeps Kernel.owners (pipealloc L) := by
  refine Exec.Keeps.bind keeps_filealloc fun r => ?_
  cases r with
  | none => exact Exec.Keeps.pure
  | some f0 =>
      refine Exec.Keeps.bind keeps_filealloc fun r => ?_
      cases r with
      | none => exact Exec.Keeps.bind (keeps_fileclose L _) fun _ => Exec.Keeps.pure
      | some f1 =>
          refine Exec.Keeps.bind (keeps_onMemory _ fun _ _ => rfl) fun r => ?_
          cases r with
          | none =>
              refine Exec.Keeps.bind (keeps_fileclose L _) fun _ => ?_
              exact Exec.Keeps.bind (keeps_fileclose L _) fun _ => Exec.Keeps.pure
          | some p =>
              refine Exec.Keeps.bind (keeps_setEnds _ _) fun _ => ?_
              refine Exec.Keeps.bind (keeps_setFile _ _) fun _ => ?_
              exact Exec.Keeps.bind (keeps_setFile _ _) fun _ => Exec.Keeps.pure

end Vm

end Xv6
