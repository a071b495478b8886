import Xv6.Vm.Spaces

/-!
# Runs of calls

What holds after every run, whatever is refused: no page has two owners, if `exec` gets the page
tables that it asks for; no page is leaked, if no call is refused one; every process has the
pages below its size, if `growproc` is called for what it can do.

A call does not return when the kernel panics.  The life of a process, from the `fork` of its
parent to the `wait`, is a run of calls that do.
-/

namespace Xv6

namespace Vm

open Support

variable {L : Link} {k k' : Kernel} {p q : Slot}

/-! ## `fork` -/

theorem allocproc_granted (hq : (k.task q).state = .unused)
    (hmore : refused k.mem.freelist.length k.mem.fails = false) :
    Exec.total allocproc (fun r k' => ∃ np n s, r = some np ∧ (k.task np).state = .unused ∧
      k.mem.freelist = n :: s.freelist ∧ s.fails = k.mem.fails.tail ∧ s.record = k.mem.record ∧
      k' = { k with
        mem := s
        task := Function.update k.task np { k.task np with state := .embryo, kstack := n } })
      k := by
  unfold allocproc
  refine Exec.wp_bind.mpr (Exec.wp_gets.mpr ?_)
  cases hfind : (List.finRange nproc).find? fun p => (k.task p).state = .unused with
  | none =>
      have hnot := List.find?_eq_none.mp hfind q (List.mem_finRange q)
      simp [hq] at hnot
  | some np =>
      have hnp : (k.task np).state = .unused := by simpa using List.find?_some hfind
      refine Exec.wp_bind.mpr (Exec.wp_modify.mpr (Exec.wp_bind.mpr (Exec.wp_zoom.mpr ?_)))
      refine Exec.total_mono (Exec.wp_keeps (kalloc_exact k.mem) keeps_kalloc) ?_
      rintro (_ | n) s ⟨⟨hfails, -, hrefused, hfree⟩, hrec⟩
      · rw [hmore] at hrefused
        cases hrefused
      · refine Exec.wp_bind.mpr (Exec.wp_modify.mpr (Exec.wp_pure.mpr ?_))
        exact ⟨np, n, s, rfl, hnp, hfree, hfails, hrec, by simp⟩

/-- Without a page for the kernel stack nothing happens. -/
theorem fork_refused (hrefused : refused k.mem.freelist.length k.mem.fails = true) :
    Exec.total (fork L p) (fun _ k' => ∃ s : Memory, s.freelist = k.mem.freelist ∧
      s.word = k.mem.word ∧ s.record = k.mem.record ∧ k' = { k with mem := s }) k := by
  unfold fork
  refine Exec.total_seq (Q := fun r k' => r = none ∧ ∃ s : Memory, s.freelist = k.mem.freelist ∧
    s.word = k.mem.word ∧ s.record = k.mem.record ∧ k' = { k with mem := s }) ?_ ?_
  · unfold allocproc
    refine Exec.wp_bind.mpr (Exec.wp_gets.mpr ?_)
    cases hfind : (List.finRange nproc).find? fun p => (k.task p).state = .unused with
    | none => exact Exec.wp_pure.mpr ⟨rfl, k.mem, rfl, rfl, rfl, rfl⟩
    | some np =>
        have hnp : (k.task np).state = .unused := by simpa using List.find?_some hfind
        refine Exec.wp_bind.mpr (Exec.wp_modify.mpr (Exec.wp_bind.mpr (Exec.wp_zoom.mpr ?_)))
        refine Exec.total_mono (Exec.wp_keeps (kalloc_exact k.mem) keeps_kalloc) ?_
        rintro (_ | n) s ⟨⟨-, hword, hgranted, hfree⟩, hrec⟩
        · refine Exec.wp_bind.mpr (Exec.wp_modify.mpr (Exec.wp_pure.mpr ?_))
          refine ⟨rfl, s, hfree, hword, hrec, ?_⟩
          simp only [Function.update_self, Function.update_idem]
          rw [← hnp, Function.update_eq_self]
        · rw [hrefused] at hgranted
          cases hgranted
  · rintro _ k' ⟨rfl, hk'⟩
    exact Exec.wp_pure.mpr hk'

/-- `fork` by `p` has made the child `np`, with all pages that this takes. -/
structure Born (p np : Slot) (k k' : Kernel) : Prop where
  unused : (k.task np).state = .unused
  state : (k'.task np).state = .runnable
  parent : (k'.task np).parent = some p
  ofile : (k'.task np).ofile = (k.task np).ofile
  others : ∀ r, r ≠ np → k'.task r = k.task r
  init : k'.initproc = k.initproc
  record : k'.mem.record = k.mem.record
  room : k.mem.freelist.length = k'.mem.freelist.length + (1 + requests (pagesOf (k.task p).sz))

/-- With enough free pages a process without open files can `fork`. -/
theorem Full.fork_returns (h : Full L k) (hp : (k.task p).state ≠ .unused)
    (hq : (k.task q).state = .unused) (hclosed : ∀ fd, (k.task p).ofile fd = none)
    (hhole : k.mem.hole = false) (hfails : k.mem.fails = [])
    (hroom : 1 + requests (pagesOf (k.task p).sz) ≤ k.mem.freelist.length) :
    Exec.total (Vm.fork L p) (fun _ k' => ∃ np, Born p np k k') k := by
  have hmore : refused k.mem.freelist.length k.mem.fails = false := by
    rw [hfails]
    simp only [refused, List.headD_nil, Bool.or_false, beq_eq_false_iff_ne]
    omega
  have hspec := total_and (allocproc_granted hq hmore)
    (Exec.wlp_and (allocproc_spec h.sound) allocproc_words)
  unfold Vm.fork
  refine Exec.total_seq hspec ?_
  rintro _ k1 ⟨⟨np, n, s, rfl, hnp, hfree, hfails1, hrec, rfl⟩, hk1, hword1, -⟩
  have hne : p ≠ np := by
    rintro rfl
    exact hp hnp
  refine Exec.wp_bind.mpr (Exec.wp_gets.mpr ?_)
  rw [hk1.beside.task p hne]
  refine Exec.wp_bind.mpr (Exec.wp_zoom.mpr (Exec.total_mono (total_and (h.copied hp hk1 hword1)
    (copyuvm_record L _ _ _)) ?_))
  rintro r s1 ⟨⟨-, -, -, hgets⟩, hrec1⟩
  have hgrants : s.Grants (requests (pagesOf (k.task p).sz)) := by
    intro i hi
    rw [hfree, List.length_cons] at hroom
    have hlt : i < s.freelist.length := by omega
    simp [Memory.grants, hfails1, hfails, hlt]
  obtain ⟨hsome, hasked⟩ := hgets ((Memory.hole_of_record hrec).trans hhole) hgrants
  obtain ⟨d, rfl⟩ := Option.ne_none_iff_exists'.mp hsome
  refine Exec.wp_bind.mpr (Exec.wp_modify.mpr ?_)
  refine Exec.total_seq (Exec.wp_each (I := fun _ k' => k' = _) ?_ rfl) ?_
  · rintro _ fd _ k2 - rfl
    rw [hclosed fd]
    exact Exec.wp_pure.mpr rfl
  · rintro - k2 rfl
    refine Exec.wp_modify.mpr ⟨np, hnp, ?_, ?_, ?_, fun r hr => ?_, rfl,
      (hrec1 hsome).trans hrec, ?_⟩
    · simp
    · simp
    · simp
    · simp [hr]
    · change k.mem.freelist.length = s1.freelist.length + _
      rw [hasked.free, List.length_drop, hfree, List.length_cons]
      have hlen := hroom
      rw [hfree, List.length_cons] at hlen
      change _ = s.freelist.length - _ + _
      omega

/-! ## Enough pages -/

/-- With `c` free pages and no failures ahead the computation takes at most these, and no page
table is refused. -/
def Takes {α : Type} (m : PageM α) (c : ℕ) : Prop :=
  ∀ s : Memory, s.fails = [] → c ≤ s.freelist.length → (m s).2.fails = [] ∧
    s.freelist.length ≤ (m s).2.freelist.length + c ∧ (m s).2.starved = s.starved

section Takes

variable {α β : Type} {m : PageM α} {a b c : ℕ}

theorem Takes.seq {f : α → PageM β} (hm : Takes m a) (hf : ∀ r, Takes (f r) b)
    (hab : a + b ≤ c) : Takes (m >>= f) c := by
  intro s hfails hroom
  have hfirst := hm s hfails (by omega)
  rw [Exec.bind_run]
  cases hrun : m s with
  | mk r s₁ =>
      rw [hrun] at hfirst
      obtain ⟨hfails₁, hlen₁, hfed₁⟩ := hfirst
      cases r with
      | error e =>
          refine ⟨hfails₁, ?_, hfed₁⟩
          simp only at hlen₁ ⊢
          omega
      | ok r =>
          simp only at hlen₁
          obtain ⟨hfails₂, hlen₂, hfed₂⟩ := hf r s₁ hfails₁ (by omega)
          refine ⟨hfails₂, ?_, hfed₂.trans hfed₁⟩
          simp only
          omega

/-- After a step that takes nothing. -/
theorem Takes.bind {f : α → PageM β} (hm : Takes m 0) (hf : ∀ r, Takes (f r) c) :
    Takes (m >>= f) c :=
  hm.seq hf (Nat.zero_add c).le

theorem Takes.wlp {s : Memory} (h : Takes m c) (hfails : s.fails = [])
    (hroom : c ≤ s.freelist.length) : Exec.wlp m (fun _ s' =>
      s.freelist.length ≤ s'.freelist.length + c ∧ s'.starved = s.starved) s := by
  have hs := (h s hfails hroom).2
  unfold Exec.wlp Exec.wp
  cases hrun : m s with
  | mk r s' =>
      rw [hrun] at hs
      cases r with
      | ok r => exact hs
      | error e => exact trivial

theorem takes_pure {r : α} : Takes (pure r) c :=
  fun _ hfails _ => ⟨hfails, Nat.le_add_right _ _, rfl⟩

theorem takes_throw {e : Panic} : Takes (Exec.throw e : PageM α) c :=
  fun _ hfails _ => ⟨hfails, Nat.le_add_right _ _, rfl⟩

theorem takes_gets {f : Memory → α} : Takes (Exec.gets f) 0 :=
  fun _ hfails _ => ⟨hfails, le_rfl, rfl⟩

theorem takes_modify {f : Memory → Memory} (hfails : ∀ s, (f s).fails = s.fails)
    (hfree : ∀ s, s.freelist.length ≤ (f s).freelist.length)
    (hfed : ∀ s, (f s).starved = s.starved) : Takes (Exec.modify f) 0 :=
  fun s hs _ => ⟨(hfails s).trans hs, hfree s, hfed s⟩

/-- `kalloc` does not fail. -/
theorem takes_kalloc {f : Option ℕ → PageM α} (hf : ∀ n, Takes (f (some n)) c) :
    Takes (kalloc >>= f) (c + 1) := by
  intro s hfails hroom
  obtain ⟨n, ns, hfree⟩ := List.exists_cons_of_length_pos (l := s.freelist) (by omega)
  have hrun : kalloc s = (.ok (some n), { s with freelist := ns }) := by
    simp [kalloc, hfree, hfails]
  rw [Exec.bind_run_ok hrun]
  rw [hfree, List.length_cons] at hroom ⊢
  obtain ⟨hfails₁, hlen₁, hfed₁⟩ := hf n { s with freelist := ns } hfails (by simp only; omega)
  simp only at hlen₁
  exact ⟨hfails₁, by omega, hfed₁⟩

theorem takes_kfree (L : Link) (n : ℕ) : Takes (kfree L n) 0 := by
  unfold kfree
  split
  · exact takes_throw
  · exact takes_modify (fun _ => rfl) (fun _ => Nat.le_succ _) fun _ => rfl

theorem takes_setPage (n : ℕ) (ws : ℕ → ℕ) : Takes (setPage n ws) 0 :=
  takes_modify (fun _ => rfl) (fun _ => le_rfl) fun _ => rfl

theorem takes_setWord (n i w : ℕ) : Takes (setWord n i w) 0 :=
  takes_modify (fun _ => rfl) (fun _ => le_rfl) fun _ => rfl

theorem takes_walkpgdir (d v : ℕ) : Takes (walkpgdir d v true) 1 := by
  refine takes_gets.bind fun pde => ?_
  split
  · exact takes_pure
  · rw [if_neg (by decide)]
    refine takes_kalloc fun t => ?_
    exact (takes_setPage _ _).bind fun _ => (takes_setWord _ _ _).bind fun _ => takes_pure

theorem takes_lookup (d v : ℕ) : Takes (walkpgdir d v false) 0 := by
  refine takes_gets.bind fun pde => ?_
  split
  · exact takes_pure
  · exact takes_pure

theorem takes_mapOne (d v n perm : ℕ) : Takes (mappages d 1 v n perm) 1 := by
  refine (takes_walkpgdir d v).seq (fun r => ?_) (Nat.add_zero 1).le
  cases r with
  | none => exact takes_pure
  | some e =>
      refine takes_gets.bind fun pte => ?_
      split
      · exact takes_throw
      · exact (takes_setWord _ _ _).bind fun _ => takes_pure

theorem takes_allocFrom (d k v : ℕ) : Takes (allocFrom d k v) (2 * k) := by
  induction k generalizing v with
  | zero => exact takes_pure
  | succ k ih =>
      refine takes_kalloc (c := 2 * k + 1) fun n => ?_
      dsimp only
      refine Takes.bind (takes_modify (fun _ => rfl) (fun _ => le_rfl) fun _ => rfl) fun _ => ?_
      refine (takes_setPage _ _).bind fun _ => ?_
      refine (takes_mapOne _ _ _ _).seq (b := 2 * k) (fun ok => ?_) (by omega)
      refine Takes.bind (takes_modify (fun _ => rfl) (fun _ => le_rfl) fun _ => rfl) fun _ => ?_
      exact ih _

theorem takes_deallocFrom (L : Link) (d k v last : ℕ) : Takes (deallocFrom L d k v last) 0 := by
  induction k generalizing v with
  | zero => exact takes_pure
  | succ k ih =>
      unfold deallocFrom
      split
      · refine (takes_lookup _ _).bind fun r => ?_
        cases r with
        | none => exact ih _
        | some e =>
            refine takes_gets.bind fun pte => ?_
            split
            · split
              · exact takes_throw
              · refine (takes_kfree _ _).bind fun _ => ?_
                exact (takes_setWord _ _ _).bind fun _ => ih _
            · exact ih _
      · exact takes_pure

theorem takes_allocuvm (L : Link) (d oldsz newsz : ℕ) :
    Takes (allocuvm L d oldsz newsz) (2 * (pagesOf newsz - pagesOf oldsz)) := by
  unfold allocuvm
  split
  · exact takes_pure
  · split
    · exact takes_pure
    · refine (takes_allocFrom _ _ _).seq (fun ok => ?_) (Nat.add_zero _).le
      cases ok with
      | true => exact takes_pure
      | false =>
          refine Takes.bind ?_ fun _ => takes_pure
          unfold deallocuvm
          split
          · exact takes_pure
          · exact (takes_deallocFrom _ _ _ _ _).bind fun _ => takes_pure

end Takes

/-! ## `growproc` and `exec` -/

/-- What these calls leave as it is. -/
def Kernel.kin (k : Kernel) :
    Slot × (Slot → ProcState × Option Slot × (Fin nofile → Option (Fin nfile))) :=
  (k.initproc, fun q => ((k.task q).state, (k.task q).parent, (k.task q).ofile))

theorem keeps_setTask {f : Task → Task}
    (h : ∀ t, ((f t).state, (f t).parent, (f t).ofile) = (t.state, t.parent, t.ofile)) :
    Exec.Keeps Kernel.kin (setTask p f) := by
  intro k
  refine Prod.ext rfl (funext fun q => ?_)
  change ((Function.update k.task p (f (k.task p)) q).state,
    (Function.update k.task p (f (k.task p)) q).parent,
    (Function.update k.task p (f (k.task p)) q).ofile) = _
  rcases eq_or_ne q p with rfl | hne
  · rw [Function.update_self]
    exact h (k.task q)
  · rw [Function.update_of_ne hne]
    rfl

theorem keeps_growproc (L : Link) (p : Slot) (n : ℤ) : Exec.Keeps Kernel.kin (growproc L p n) := by
  have hset : ∀ sz : ℕ, Exec.Keeps Kernel.kin (if sz = 0 then pure (-1 : ℤ) else do
      setTask p fun t => { t with sz := sz }
      pure 0) := by
    intro sz
    split
    · exact Exec.Keeps.pure
    · exact Exec.Keeps.bind (keeps_setTask fun _ => rfl) fun _ => Exec.Keeps.pure
  refine Exec.Keeps.bind Exec.Keeps.gets fun t => ?_
  split
  · exact Exec.Keeps.bind (keeps_onMemory _ fun _ _ => rfl) hset
  · split
    · exact Exec.Keeps.bind (keeps_onMemory _ fun _ _ => rfl) hset
    · exact Exec.Keeps.pure

theorem keeps_exec (L : Link) (p : Slot) (f : ExecFile) (argv : List (List UInt8)) :
    Exec.Keeps Kernel.kin (exec L p f argv) := by
  refine Exec.Keeps.bind Exec.Keeps.gets fun t => ?_
  refine Exec.Keeps.bind (keeps_onMemory _ fun _ _ => rfl) fun r => ?_
  cases r with
  | none => exact Exec.Keeps.pure
  | some r =>
      refine Exec.Keeps.bind (keeps_setTask fun _ => rfl) fun _ => ?_
      exact keeps_onMemory _ fun _ _ => rfl

/-- A process that grows by a page, with two free pages for it. -/
theorem Full.growproc_page (h : Full L k) (hp : (k.task p).state ≠ .unused)
    (hfits : (k.task p).sz + 4096 < kernbase) (hfails : k.mem.fails = [])
    (hroom : 2 ≤ k.mem.freelist.length) :
    Resizable k p 4096 ∧ Exec.total (Vm.growproc L p 4096) (fun r k' => r = 0 ∧
      k'.kin = k.kin ∧ k.mem.freelist.length ≤ k'.mem.freelist.length + 2 ∧
      k'.mem.starved = k.mem.starved) k := by
  have hnew : uint32 ((k.task p).sz + 4096) = (k.task p).sz + 4096 := by
    unfold kernbase at hfits
    rw [uint32_of_lt (by omega) (by omega)]
    omega
  have hpages : pagesOf ((k.task p).sz + 4096) - pagesOf (k.task p).sz = 1 := by
    unfold pagesOf pgsize
    omega
  have hgranted : refused k.mem.freelist.length k.mem.fails = false ∧
      refused (k.mem.freelist.length - 1) k.mem.fails.tail = false := by
    rw [hfails]
    simp only [refused, List.tail_nil, List.headD_nil, Bool.or_false, beq_eq_false_iff_ne]
    omega
  have htables : k.mem.tablesGranted (k.task p).pgdir (pagesOf (k.task p).sz) 1 = true := by
    unfold Memory.tablesGranted
    rw [tablesGranted_succ, hgranted.1, hgranted.2]
    simp [tablesGranted]
  have hall : k.mem.pagesGranted (k.task p).pgdir (pagesOf (k.task p).sz) 1 = true := by
    unfold Memory.pagesGranted
    rw [pagesGranted_succ, hgranted.1, hgranted.2]
    simp [pagesGranted]
  have hn : Resizable k p 4096 := by
    refine ⟨fun _ => Or.inr (Or.inr ?_), fun hneg => absurd hneg (by decide)⟩
    rw [hnew, hpages]
    exact htables
  have hspec := Exec.wp_keeps (growproc_spec (n := 4096) h.sound hp (h.filled p hp) (by decide)
    (by decide)) (keeps_growproc L p 4096)
  have hmem : Exec.wlp (Vm.growproc L p 4096) (fun r k' => r = 0 ∧
      k.mem.freelist.length ≤ k'.mem.freelist.length + 2 ∧ k'.mem.starved = k.mem.starved) k := by
    unfold Vm.growproc
    refine Exec.wp_bind.mpr (Exec.wp_gets.mpr ?_)
    rw [if_pos (by decide), hnew]
    have htakes := takes_allocuvm L (k.task p).pgdir (k.task p).sz ((k.task p).sz + 4096)
    rw [hpages] at htakes
    refine Exec.wp_bind.mpr (wlp_onMemory.mpr (Exec.wlp_mono (Exec.wlp_and
      (htakes.wlp hfails hroom) (allocuvm_extended (h.sound.alone hp) (Nat.le_add_right _ _) hfits
        (h.filled p hp)).wlp) ?_))
    rintro sz s ⟨hs, hext⟩
    obtain ⟨rfl, -⟩ := hext.granted (by rw [hpages]; exact hall)
    rw [if_neg (by omega)]
    exact Exec.wp_bind.mpr (Exec.wp_modify.mpr (Exec.wp_pure.mpr ⟨rfl, hs⟩))
  refine ⟨hn, Exec.total_mono (total_and hspec hmem) ?_⟩
  rintro r k' ⟨⟨-, hkin⟩, hzero, hk'⟩
  exact ⟨hzero, hkin, hk'⟩

/-- A process that shrinks by less than its size. -/
theorem Full.growproc_shrunk {n : ℤ} (h : Full L k) (hp : (k.task p).state ≠ .unused)
    (hneg : n < 0) (hleft : 0 < (k.task p).sz + n) :
    Exec.wlp (Vm.growproc L p n) (fun r _ => r = 0) k := by
  have hsize := h.sound.size p
  have hnew : uint32 ((k.task p).sz + n) = ((k.task p).sz + n).toNat := by
    unfold kernbase at hsize
    exact uint32_of_lt hleft.le (by omega)
  unfold Vm.growproc
  refine Exec.wp_bind.mpr (Exec.wp_gets.mpr ?_)
  rw [if_neg (by omega), if_pos hneg, hnew]
  refine Exec.wp_bind.mpr (wlp_onMemory.mpr (Exec.wlp_mono
    (deallocuvm_removed (h.sound.alone hp) (by omega) hsize.le).wlp ?_))
  rintro _ s ⟨rfl, -⟩
  rw [if_neg (by omega)]
  exact Exec.wp_bind.mpr (Exec.wp_modify.mpr (Exec.wp_pure.mpr rfl))

/-- An image is returned only if the kernel's part got its tables. -/
theorem execImage_fed (L : Link) (cur : ℕ) (f : ExecFile) (argv : List (List UInt8))
    (s : Memory) : Exec.wlp (execImage L cur f argv)
      (fun r s' => r ≠ none → s'.hole = false → s'.starved = s.starved) s := by
  unfold execImage
  refine Exec.wp_bind.mpr (Exec.wp_modify.mpr ?_)
  cases f.elfhdr with
  | none => exact Exec.wp_pure.mpr (by simp)
  | some elf =>
      simp only
      split
      · exact Exec.wp_pure.mpr (by simp)
      · refine Exec.wlp_seq (setupkvm_record L _) ?_
        rintro (_ | d) s₁ hrec
        · exact Exec.wp_pure.mpr (by simp)
        · have hrec₁ := hrec (by simp)
          have hfill : Stays (fillImage L cur d f elf argv) := by
            refine (stays_loadSegments L d f _ _ _).bind fun r => ?_
            cases r with
            | none => exact Stays.pure
            | some sz => exact stays_makeStack L cur d sz argv
          refine Exec.wlp_seq (hfill.fed (Memory.hole_of_record hrec₁)) ?_
          rintro (_ | top) s₂ hfed
          · exact Exec.wlp_seq (Exec.wlp_of_forall (Q := fun _ _ => True) fun _ _ => trivial)
              fun _ _ _ => Exec.wp_pure.mpr (by simp)
          · refine Exec.wp_pure.mpr fun _ hhole => ?_
            exact (hfed hhole).trans (Memory.starved_of_record hrec₁ :)

/-- An `exec` of a program that there is memory for. -/
theorem Full.exec_returns {f : ExecFile} {argv : List (List UInt8)} (h : Full L k)
    (hp : (k.task p).state ≠ .unused) (hexec : Contained f argv k.mem) (hplaced : f.Placed k.mem)
    (haccepted : f.Accepted argv k.mem) :
    Exec.total (Vm.exec L p f argv) (fun _ k' => k'.kin = k.kin ∧
      k'.mem.starved = k.mem.starved) k := by
  have h₀ : Owns L k.mem ((k.task p).kstack ::ₘ k.kstacksBut p + (openPipes k.file).val)
      (0 + (k.task p).pgdir ::ₘ k.pgdirsBut p) := by
    rw [zero_add]
    exact (h.sound.live hp).owns
  have hlow : ∀ elf, f.elfhdr = some elf → elf.magic = elfMagic → f.StoresLow elf k.mem :=
    fun elf helf hmagic => (hexec.covered elf helf hmagic).storesLow
  have hfed : Exec.wlp (Vm.exec L p f argv) (fun _ k' => k'.mem.starved = k.mem.starved) k := by
    unfold Vm.exec
    refine Exec.wp_bind.mpr (Exec.wp_gets.mpr ?_)
    refine Exec.wp_bind.mpr (wlp_onMemory.mpr (Exec.wp_mono (Exec.wp_and (execImage_laid h₀ hexec)
      (Exec.wp_and (execImage_mapped h₀ hlow) (execImage_fed L _ f argv k.mem))) ?_
        fun _ _ _ => trivial))
    rintro (_ | ⟨d, top⟩) s ⟨⟨-, hnone, -⟩, hmapped, hfed⟩
    · exact absurd haccepted (hnone rfl).1
    · refine Exec.wp_bind.mpr (Exec.wp_modify.mpr (wlp_onMemory.mpr
        (Exec.wlp_mono (keeps_freevm L _).wlp ?_)))
      intro _ s' hrec
      exact (Memory.starved_of_record hrec).trans (hfed (by simp) (hmapped.mpr hexec.tables))
  refine Exec.total_mono (total_and (Exec.wp_keeps (Exec.wp_mono (h.exec hp hexec)
    (fun _ _ _ => trivial) fun _ _ hs => hs hplaced) (keeps_exec L p f argv)) hfed) ?_
  rintro - k' ⟨⟨-, hkin⟩, hk'⟩
  exact ⟨hkin, hk'⟩

/-! ## A process and its child -/

/-- There are the process `p`, which is `init`, and a child of it, without open files. -/
structure Pair (k : Kernel) (p q : Slot) : Prop where
  init : k.initproc = p
  ne : q ≠ p
  alive : (k.task p).state = .runnable
  child : (k.task q).state = .runnable
  parent : (k.task q).parent = some p
  others : ∀ r, r ≠ p → r ≠ q → (k.task r).state = .unused
  closed : ∀ r fd, (k.task r).ofile fd = none

theorem Pair.congr (h : Pair k p q) (hkin : k'.kin = k.kin) : Pair k' p q := by
  obtain ⟨hinit, htasks⟩ := Prod.mk.inj hkin
  have hstate : ∀ r, (k'.task r).state = (k.task r).state := fun r =>
    congrArg Prod.fst (congrFun htasks r)
  have hrest : ∀ r, ((k'.task r).parent, (k'.task r).ofile) =
      ((k.task r).parent, (k.task r).ofile) := fun r => congrArg Prod.snd (congrFun htasks r)
  refine ⟨hinit.trans h.init, h.ne, (hstate p).trans h.alive, (hstate q).trans h.child,
    (congrArg Prod.fst (hrest q)).trans h.parent, fun r hp hq => (hstate r).trans (h.others r hp hq),
    fun r fd => ?_⟩
  exact (congrFun (congrArg Prod.snd (hrest r)) fd).trans (h.closed r fd)

theorem Born.pair {np : Slot} (h : Born p np k k') (hinit : k.initproc = p)
    (halive : (k.task p).state = .runnable) (hothers : ∀ r, r ≠ p → (k.task r).state = .unused)
    (hclosed : ∀ r fd, (k.task r).ofile fd = none) : Pair k' p np := by
  have hne : np ≠ p := by
    rintro rfl
    rw [h.unused] at halive
    cases halive
  refine ⟨h.init.trans hinit, hne, ?_, h.state, h.parent, fun r hp hq => ?_, fun r fd => ?_⟩
  · rw [h.others p hne.symm]
    exact halive
  · rw [h.others r hq]
    exact hothers r hp
  · rcases eq_or_ne r np with rfl | hr
    · rw [h.ofile]
      exact hclosed r fd
    · rw [h.others r hr]
      exact hclosed r fd

/-- The child has exited: it is a zombie until its parent calls `wait`. -/
structure Orphaned (k : Kernel) (p q : Slot) : Prop where
  ne : q ≠ p
  alive : (k.task p).state = .runnable
  child : (k.task q).state = .zombie
  parent : (k.task q).parent = some p
  others : ∀ r, r ≠ p → r ≠ q → (k.task r).state = .unused

theorem Pair.exit_returns (h : Pair k p q) (L : Link) :
    Exec.total (exit L q) (fun _ k' => Orphaned k' p q ∧ k'.mem = k.mem) k := by
  unfold exit
  refine Exec.wp_bind.mpr (Exec.wp_gets.mpr ?_)
  rw [if_neg fun heq => h.ne (heq.trans h.init)]
  refine Exec.total_seq (Exec.wp_each (I := fun _ k' => k' = k) ?_ rfl) ?_
  · rintro _ fd _ k1 - rfl
    refine Exec.wp_bind.mpr (Exec.wp_gets.mpr ?_)
    rw [h.closed q fd]
    exact Exec.wp_pure.mpr rfl
  · rintro - k1 rfl
    have hparent : ((k1.task q).reparent q k1.initproc).parent = some p := by
      unfold Task.reparent
      rw [if_neg (by rw [h.parent]; exact fun heq => h.ne (Option.some.inj heq).symm)]
      exact h.parent
    refine Exec.wp_bind.mpr (Exec.wp_modify.mpr (Exec.wp_modify.mpr ⟨⟨h.ne, ?_, ?_, ?_, ?_⟩, rfl⟩))
    · simp [h.ne.symm, h.alive]
    · simp
    · simpa using hparent
    · intro r hp hq
      simp [hq, h.others r hp hq]

theorem Orphaned.wait_returns (h : Orphaned k p q) (hsound : Sound L k) :
    Exec.total (wait L p) (fun _ k' => (∀ r, r ≠ p → (k'.task r).state = .unused) ∧
      k'.mem.starved = k.mem.starved) k := by
  unfold wait
  refine Exec.wp_bind.mpr (Exec.wp_gets.mpr ?_)
  cases hfind : (List.finRange nproc).find? fun q =>
      (k.task q).parent = some p ∧ (k.task q).state = .zombie with
  | none =>
      have hnot := List.find?_eq_none.mp hfind q (List.mem_finRange q)
      simp [h.parent, h.child] at hnot
  | some r =>
      have hr : (k.task r).parent = some p ∧ (k.task r).state = .zombie := by
        simpa using List.find?_some hfind
      obtain rfl : r = q := by
        by_contra hq
        have hp : r ≠ p := by
          rintro rfl
          rw [h.alive] at hr
          cases hr.2
        have hunused := h.others r hp hq
        rw [hr.2] at hunused
        cases hunused
      have howns := hsound.alone (p := r) (by rw [hr.2]; decide)
      rw [Multiset.cons_add, Multiset.cons_add] at howns
      refine Exec.wp_bind.mpr (Exec.wp_gets.mpr ?_)
      refine Exec.wp_bind.mpr (Exec.wp_zoom.mpr (Exec.total_mono (kfree_spec howns) ?_))
      rintro - s1 ⟨hs1, -, hfed1⟩
      refine Exec.wp_bind.mpr (Exec.wp_zoom.mpr (Exec.total_mono
        (Exec.wp_keeps (freevm_spec hs1) (keeps_freevm L _)) ?_))
      rintro - s2 ⟨-, hrec⟩
      refine Exec.wp_modify.mpr ⟨fun q hq => ?_, (Memory.starved_of_record hrec).trans hfed1⟩
      rcases eq_or_ne q r with rfl | hne
      · simp
      · simpa [hne] using h.others q hq hne

/-- A call with all that is asked of calls in this file. -/
def CalmStep (L : Link) (k : Kernel) (op : Op) (k' : Kernel) : Prop :=
  ExactStep L k op k' ∧ op.Tame

theorem CalmStep.tame {op : Op} (h : CalmStep L k op k') : TameStep L k op k' := by
  obtain ⟨⟨halive, fails, hrun, -⟩, htame⟩ := h
  exact ⟨⟨halive, fails, hrun⟩, htame⟩

theorem CalmStep.mapped {op : Op} (h : CalmStep L k op k') : MappedStep L k op k' := by
  obtain ⟨⟨halive, fails, hrun, hmeets⟩, htame⟩ := h
  refine ⟨halive, htame, fails, hrun, ?_⟩
  cases op with
  | exec p f argv => exact hmeets.tables
  | _ => trivial

/-- Through states in which no page table has been refused. -/
abbrev CalmRun (L : Link) : Kernel → List Op → Kernel → Prop :=
  Run (CalmStep L) fun k => k.mem.starved = false

/-- A call that is known to return is a step. -/
theorem Full.calmStep {Q : Kernel → Prop} (h : Full L k) (op : Op)
    (halive : (k.task op.proc).state = .runnable) (htame : op.Tame) (fails : List Bool)
    (hmeets : Meets (k.withFails fails) op)
    (hret : Exec.total (perform L op) (fun _ k' => Q k') (k.withFails fails)) :
    ∃ k', CalmStep L k op k' ∧ Full L k' ∧ Q k' := by
  obtain ⟨_, k', hrun, hk'⟩ := Exec.wp_total hret
  have hstep : ExactStep L k op k' := ⟨by rw [halive]; decide, fails, hrun, hmeets⟩
  exact ⟨k', ⟨hstep, htame⟩, h.step hstep, hk'⟩

theorem dataFile_tame (q : Slot) : (Op.exec q dataFile [[104, 105]]).Tame := by
  refine ⟨fun elf helf i hi ph hph hload => ?_, fun arg harg => ?_⟩
  · rw [dataFile_only helf] at hi hph
    obtain rfl := Option.some.inj ((dataFile_header hi).symm.trans hph)
    decide
  · obtain rfl := List.mem_singleton.mp harg
    decide

/-- A `fork` that is refused its first page. -/
theorem Ready.fork_refused (h : Ready k p) (hfull : Full L k) :
    ∃ k', CalmRun L k [.fork p] k' ∧ Full L k' ∧ Ready k' p := by
  obtain ⟨k', hstep, hfull', s, hfree, hword, hrec, rfl⟩ := hfull.calmStep (.fork p) h.alive
    trivial [true] trivial (Vm.fork_refused (by simp [refused, Kernel.withFails, Memory.withFails]))
  have hfed : s.starved = false := (Memory.starved_of_record hrec).trans h.fed
  refine ⟨_, .single h.fed hstep hfed, hfull', h.init, h.alive, h.others, h.closed, h.size, ?_, ?_,
    hfed⟩
  · change ∃ t j n, EntryAt s.word _ 0 t j ∧ s.word t j = _
    rw [hword]
    exact h.entry
  · change _ ≤ s.freelist.length
    rw [hfree]
    exact h.room

theorem Memory.hole_of_fed {s : Memory} (h : s.starved = false) : s.hole = false := by
  by_contra hhole
  have hstarved := s.hole_starved (by simpa using hhole)
  rw [h] at hstarved
  cases hstarved

/-- A `fork` that is not, after which the parent grows and the child calls `exec`. -/
theorem Ready.child_starts (h : Ready k p) (hfull : Full L k) : ∃ q k',
    CalmRun L k [.fork p, .growproc p 4096, .exec q dataFile [[104, 105]]] k' ∧ Full L k' ∧
      Pair k' p q := by
  have hroom := h.room
  obtain ⟨r, hr⟩ := exists_ne p
  have hlive : (k.task p).state ≠ .unused := by
    rw [h.alive]
    decide
  have hpages : 1 + requests (pagesOf (k.task p).sz) = 68 := by
    rw [h.size]
    decide
  -- `fork`
  obtain ⟨k₁, hstep₁, hfull₁, q, hborn⟩ := hfull.calmStep (.fork p) h.alive trivial []
    trivial ((hfull.withFails []).fork_returns hlive (h.others r hr) (h.closed p)
      (Memory.hole_of_fed h.fed) rfl (hpages.trans_le ((by decide : 68 ≤ 50000).trans hroom)))
  have hpair₁ : Pair k₁ p q := hborn.pair h.init h.alive h.others h.closed
  have hfed₁ : k₁.mem.starved = false := (Memory.starved_of_record hborn.record).trans h.fed
  have hrun₁ : CalmRun L k [.fork p] k₁ := .single h.fed hstep₁ hfed₁
  have hroom₁ : 49932 ≤ k₁.mem.freelist.length := by
    have hlen : k.mem.freelist.length = _ := hborn.room
    change _ = _ + (1 + requests (pagesOf (k.task p).sz)) at hlen
    omega
  -- `growproc`
  have hlive₁ : (k₁.task p).state ≠ .unused := by
    rw [hpair₁.alive]
    decide
  have hfits₁ : (k₁.task p).sz + 4096 < kernbase := by
    rw [hborn.others p hpair₁.ne.symm]
    change (k.task p).sz + 4096 < kernbase
    rw [h.size]
    decide
  obtain ⟨hsizes, hgrow⟩ := (hfull₁.withFails []).growproc_page hlive₁ hfits₁ rfl
    (show 2 ≤ k₁.mem.freelist.length by omega)
  obtain ⟨k₂, hstep₂, hfull₂, hkin₂, hlen₂, hfed₂⟩ := hfull₁.calmStep (.growproc p 4096)
    hpair₁.alive trivial [] ⟨by decide, hsizes⟩
    (Exec.total_seq hgrow fun _ _ hs => Exec.wp_pure.mpr hs.2)
  have hpair₂ : Pair k₂ p q := hpair₁.congr hkin₂
  have hroom₂ : 69 ≤ k₂.mem.freelist.length := by
    change k₁.mem.freelist.length ≤ _ at hlen₂
    omega
  -- `exec`
  have hgrants : (k₂.withFails []).mem.Grants (requests 3) := Memory.grants_of_length hroom₂
  obtain ⟨k₃, hstep₃, hfull₃, hkin₃, hfed₃⟩ := hfull₂.calmStep
    (.exec q dataFile [[104, 105]]) hpair₂.child (dataFile_tame q) []
    (dataFile_contained hgrants)
    ((hfull₂.withFails []).exec_returns
      (by rw [show (k₂.withFails []).task = k₂.task from rfl, hpair₂.child]; decide)
      (dataFile_contained hgrants) (dataFile_placed _) (dataFile_accepted hgrants))
  have hstarved₂ : k₂.mem.starved = false := hfed₂.trans hfed₁
  exact ⟨q, k₃, .snoc (.snoc hrun₁ hstep₂ hstarved₂) hstep₃ (hfed₃.trans hstarved₂), hfull₃,
    hpair₂.congr hkin₃⟩

/-- The child exits and is waited for. -/
theorem Pair.child_ends (h : Pair k p q) (hfull : Full L k) (hfed : k.mem.starved = false) :
    ∃ k', CalmRun L k [.exit q, .wait p] k' ∧ ∀ r, r ≠ p → (k'.task r).state = .unused := by
  have hpair : Pair (k.withFails []) p q := ⟨h.init, h.ne, h.alive, h.child, h.parent, h.others,
    h.closed⟩
  obtain ⟨k₁, hstep₁, hfull₁, hend, hmem⟩ := hfull.calmStep (.exit q) h.child trivial []
    trivial (hpair.exit_returns L)
  have hfed₁ : k₁.mem.starved = false := (congrArg Memory.starved hmem).trans hfed
  have hend' : Orphaned (k₁.withFails []) p q := ⟨hend.ne, hend.alive, hend.child, hend.parent,
    hend.others⟩
  obtain ⟨k₂, hstep₂, -, hunused, hfed₂⟩ := hfull₁.calmStep (.wait p) hend.alive trivial []
    trivial (hend'.wait_returns (hfull₁.withFails []).sound)
  have hrun₁ : CalmRun L k [.exit q] k₁ := .single hfed hstep₁ hfed₁
  exact ⟨k₂, .snoc hrun₁ hstep₂ (hfed₂.trans hfed₁), hunused⟩

/-- After boot, the life of a process, after a `fork` that fails. -/
theorem exists_lifetime : ∃ k₀ k₁ k₂ k₃ p q, (Booted smallLink k₀ ∧ Ready k₀ p) ∧
    (CalmRun smallLink k₀ [.fork p] k₁ ∧ ∀ r, r ≠ p → (k₁.task r).state = .unused) ∧
    (CalmRun smallLink k₁ [.fork p, .growproc p 4096, .exec q dataFile [[104, 105]]] k₂ ∧
      Pair k₂ p q) ∧
    CalmRun smallLink k₂ [.exit q, .wait p] k₃ ∧ ∀ r, r ≠ p → (k₃.task r).state = .unused := by
  obtain ⟨k₀, p, hboot, hready⟩ := exists_ready
  have hfull₀ : Full smallLink k₀ := ⟨booted_sound hboot, booted_filled hboot hready.fed⟩
  obtain ⟨k₁, hrun₁, hfull₁, hready₁⟩ := hready.fork_refused hfull₀
  obtain ⟨q, k₂, hrun₂, hfull₂, hpair⟩ := hready₁.child_starts hfull₁
  obtain ⟨k₃, hrun₃, hends⟩ := hpair.child_ends hfull₂ hrun₂.last
  exact ⟨k₀, k₁, k₂, k₃, p, q, ⟨hboot, hready⟩, ⟨hrun₁, hready₁.others⟩, ⟨hrun₂, hpair⟩, hrun₃,
    hends⟩

/-! ## Every run -/

/-- In every run in which `exec` gets its page tables, no page has two owners. -/
theorem single_owner_of_mapped_run {k₀ : Kernel} {ops : List Op} (hboot : Booted L k₀)
    (hrun : Run (MappedStep L) (fun _ => True) k₀ ops k) : SingleOwner k :=
  (sound_of_mapped_run hboot hrun).singleOwner

theorem single_owner_of_mapped_run_lifetime : ∃ k₀ k₁ k₂ k₃ p q, Booted smallLink k₀ ∧
    (Run (MappedStep smallLink) (fun _ => True) k₀ [.fork p] k₁ ∧
      ∀ r, r ≠ p → (k₁.task r).state = .unused) ∧
    (Run (MappedStep smallLink) (fun _ => True) k₁
        [.fork p, .growproc p 4096, .exec q dataFile [[104, 105]]] k₂ ∧
      Pair k₂ p q ∧ SingleOwner k₂) ∧
    Run (MappedStep smallLink) (fun _ => True) k₂ [.exit q, .wait p] k₃ ∧
      (∀ r, r ≠ p → (k₃.task r).state = .unused) ∧ SingleOwner k₃ := by
  obtain ⟨k₀, k₁, k₂, k₃, p, q, ⟨hboot, -⟩, ⟨hrun₁, hfailed⟩, ⟨hrun₂, hpair⟩, hrun₃, hends⟩ :=
    exists_lifetime
  have hmapped : ∀ {k k' ops}, CalmRun smallLink k ops k' →
      Run (MappedStep smallLink) (fun _ => True) k ops k' := fun h =>
    (h.imp fun _ _ _ hstep => hstep.mapped).mono fun _ _ => trivial
  have hrun := (hmapped hrun₁).append (hmapped hrun₂)
  exact ⟨k₀, k₁, k₂, k₃, p, q, hboot, ⟨hmapped hrun₁, hfailed⟩,
    ⟨hmapped hrun₂, hpair, single_owner_of_mapped_run hboot hrun⟩, hmapped hrun₃, hends,
    single_owner_of_mapped_run hboot (hrun.append (hmapped hrun₃))⟩

/-- `growproc` does what it should if and only if the size and the pages that are granted are as
in `Resizable`; in every run in which all calls of `growproc` are such calls, and `exec` loads
whole programs, every process has exactly the pages below its size, and `copyuvm` returns. -/
theorem growproc_exact_iff (L : Link) :
    (∀ k p n, Sound L k → (k.task p).state ≠ .unused →
      Filled k.mem.word (k.task p).pgdir (k.task p).sz → -2147483648 ≤ n → n < 2147483648 →
      ((∃ r k', growproc L p n k = (.ok r, k') ∧ Resized p n k r k') ↔ Resizable k p n)) ∧
    ∀ k₀ k ops, Booted L k₀ → k₀.mem.starved = false →
      Run (ExactStep L) (fun _ => True) k₀ ops k → ∀ p, (k.task p).state ≠ .unused →
        Filled k.mem.word (k.task p).pgdir (k.task p).sz ∧
        ∀ fails, ∃ r s', copyuvm L (k.task p).pgdir (k.task p).sz (k.mem.withFails fails) =
          (.ok r, s') := by
  refine ⟨fun k p n hsound hp hfilled hlow hhigh => ?_, fun k₀ k ops hboot hfed hrun p hp => ?_⟩
  · obtain ⟨r, k', hret, -, hiff⟩ :=
      Exec.wp_total (growproc_spec hsound hp hfilled hlow hhigh)
    constructor
    · rintro ⟨r₁, k₁, hret₁, hresized⟩
      rw [hret] at hret₁
      obtain ⟨hr, rfl⟩ := Prod.mk.inj hret₁
      obtain rfl := Except.ok.inj hr
      exact hiff.mp hresized
    · intro hresizable
      exact ⟨r, k', hret, hiff.mpr hresizable⟩
  · have hfull := full_of_run hboot hfed hrun
    exact ⟨hfull.filled p hp, hfull.copyuvm_returns hp⟩

/-- Right after boot, the first process asks for a page more and for 100 bytes less. -/
theorem Ready.growproc_returns (h : Ready k p) (hfull : Full L k) :
    (Resizable (k.withFails []) p 4096 ∧
      Exec.wlp (growproc L p 4096) (fun r _ => r = 0) (k.withFails [])) ∧
    Resizable (k.withFails []) p (-100) ∧
      Exec.wlp (growproc L p (-100)) (fun r _ => r = 0) (k.withFails []) := by
  have hlive : (k.task p).state ≠ .unused := by
    rw [h.alive]
    decide
  have hsize : ((k.withFails []).task p).sz = 4096 := h.size
  have hroom : 2 ≤ k.mem.freelist.length := (by decide : 2 ≤ 50000).trans h.room
  obtain ⟨hgrow, hret⟩ := (hfull.withFails []).growproc_page hlive (by rw [hsize]; decide) rfl hroom
  have hleft : 0 < (((k.withFails []).task p).sz : ℤ) + -100 := by
    rw [hsize]
    decide
  refine ⟨⟨hgrow, Exec.wlp_mono hret.wlp fun _ _ hr => hr.1⟩, ⟨fun hpos => ?_, fun _ => ?_⟩, ?_⟩
  · exact absurd hpos (by decide)
  · exact Or.inl hleft
  · exact (hfull.withFails []).growproc_shrunk hlive (by decide) hleft

/-- It does grow and shrink; later the parent has grown and the child has called `exec`. -/
theorem growproc_exact_lifetime : ∃ k₀ k₁ k₂ p q,
    (Booted smallLink k₀ ∧
      (∃ k', growproc smallLink p 4096 (k₀.withFails []) = (.ok 0, k') ∧
        Resized p 4096 (k₀.withFails []) 0 k') ∧
      ∃ k', growproc smallLink p (-100) (k₀.withFails []) = (.ok 0, k') ∧
        Resized p (-100) (k₀.withFails []) 0 k') ∧
    (Run (ExactStep smallLink) (fun _ => True) k₀ [.fork p] k₁ ∧
      Run (ExactStep smallLink) (fun _ => True) k₁
        [.fork p, .growproc p 4096, .exec q dataFile [[104, 105]]] k₂ ∧ Pair k₂ p q) ∧
    ∀ r, r = p ∨ r = q → Filled k₂.mem.word (k₂.task r).pgdir (k₂.task r).sz ∧
      ∀ fails, ∃ a s', copyuvm smallLink (k₂.task r).pgdir (k₂.task r).sz
        (k₂.mem.withFails fails) = (.ok a, s') := by
  obtain ⟨k₀, k₁, k₂, k₃, p, q, ⟨hboot, hready⟩, ⟨hrun₁, -⟩, ⟨hrun₂, hpair⟩, -⟩ := exists_lifetime
  obtain ⟨hiff, hruns⟩ := growproc_exact_iff smallLink
  have hexact : ∀ {k k' ops}, CalmRun smallLink k ops k' →
      Run (ExactStep smallLink) (fun _ => True) k ops k' := fun h =>
    (h.imp fun _ _ _ hstep => hstep.1).mono fun _ _ => trivial
  have hfull₀ : Full smallLink k₀ := ⟨booted_sound hboot, booted_filled hboot hready.fed⟩
  have hlive : (k₀.task p).state ≠ .unused := by
    rw [hready.alive]
    decide
  obtain ⟨⟨hgrow, hgrown⟩, hshrink, hshrunk⟩ := hready.growproc_returns hfull₀
  have hcall : ∀ n : ℤ, -2147483648 ≤ n → n < 2147483648 → Resizable (k₀.withFails []) p n →
      Exec.wlp (growproc smallLink p n) (fun r _ => r = 0) (k₀.withFails []) →
      ∃ k', growproc smallLink p n (k₀.withFails []) = (.ok 0, k') ∧
        Resized p n (k₀.withFails []) 0 k' := by
    intro n hlow hhigh hn hzero
    obtain ⟨r, k', hret, hresized⟩ := (hiff _ p n (hfull₀.withFails []).sound hlive
      ((hfull₀.withFails []).filled p hlive) hlow hhigh).mpr hn
    obtain rfl := Exec.wp_ok hzero hret
    exact ⟨k', hret, hresized⟩
  refine ⟨k₀, k₁, k₂, p, q, ⟨hboot, hcall _ (by decide) (by decide) hgrow hgrown,
    hcall _ (by decide) (by decide) hshrink hshrunk⟩, ⟨hexact hrun₁, hexact hrun₂, hpair⟩, ?_⟩
  rintro r (rfl | rfl)
  · exact hruns k₀ k₂ _ hboot hready.fed ((hexact hrun₁).append (hexact hrun₂)) r
      (by rw [hpair.alive]; decide)
  · exact hruns k₀ k₂ _ hboot hready.fed ((hexact hrun₁).append (hexact hrun₂)) r
      (by rw [hpair.child]; decide)

/-- After boot, the first process asks to shrink by more than its size: `growproc` returns 0, and
the size is the old one. -/
theorem growproc_ignores_shrinking : ∃ k p, Booted smallLink k ∧
    (k.task p).state ≠ .unused ∧ Filled k.mem.word (k.task p).pgdir (k.task p).sz ∧
    ¬∃ r k', growproc smallLink p (-2147483648) k = (.ok r, k') ∧
      Resized p (-2147483648) k r k' := by
  obtain ⟨k, p, hboot, hready⟩ := exists_ready
  have hsound := booted_sound hboot
  have hlive : (k.task p).state ≠ .unused := by
    rw [hready.alive]
    decide
  have hfilled := booted_filled hboot hready.fed p hlive
  obtain ⟨t, j, n, hat, hpte⟩ := hready.entry
  have hpage := (hfilled 0 (by decide)).mp (by
    rw [hat.pteAt_eq, hpte]
    exact mkPte_present n pteWU)
  have hne : (k.task p).sz ≠ 0 := by
    intro hzero
    rw [hzero] at hpage
    exact absurd hpage (by decide)
  refine ⟨k, p, hboot, hlive, hfilled, ?_⟩
  rintro ⟨r, k', hret, hresized⟩
  obtain ⟨r₁, k₁, hret₁, -, hiff⟩ := Exec.wp_total
    (growproc_spec (n := -2147483648) hsound hlive hfilled (by decide) (by decide))
  rw [hret] at hret₁
  obtain ⟨hr, rfl⟩ := Prod.mk.inj hret₁
  obtain rfl := Except.ok.inj hr
  have hsize := hsound.size p
  unfold kernbase at hsize
  rcases (hiff.mp hresized).2 (by decide) with hleft | hzero
  · omega
  · exact hne hzero

end Vm

end Xv6
