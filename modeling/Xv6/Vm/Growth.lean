import Xv6.Vm.Alloc
import Xv6.Vm.Ownership

/-!
# Growing and shrinking a process

`growproc` takes the result 0 of `allocuvm` and `deallocuvm` for a failure.  For `deallocuvm`
it is also the size of a process that has given back everything, and a size below 0 wraps to
one above the old size, where `deallocuvm` does nothing.  A page that `allocuvm` could not map
is counted as if it were there.  In all other cases the call does what it says or nothing.
-/

namespace Xv6

namespace Vm

open Support

variable {L : Link} {s s₁ s' : Memory} {plain rest lost : Multiset ℕ} {d n u v k : ℕ}

/-! ## The loop of `allocuvm` to its end -/

/-- Like `tablesGranted`, for the pages of the program: none of them is refused, whether or not
there are tables for them. -/
def pagesGranted (has : ℕ → Bool) (free : ℕ) (fails : List Bool) (v : ℕ) : ℕ → Bool
  | 0 => true
  | k + 1 =>
      !refused free fails &&
        if has (v / npentries) then pagesGranted has (free - 1) fails.tail (v + 1) k
        else if refused (free - 1) fails.tail then
          pagesGranted has (free - 1) fails.tail.tail (v + 1) k
        else pagesGranted (fun i => has i || i == v / npentries) (free - 2) fails.tail.tail (v + 1) k

theorem pagesGranted_succ (has : ℕ → Bool) (free : ℕ) (fails : List Bool) (v k : ℕ) :
    pagesGranted has free fails v (k + 1) = (!refused free fails &&
      if has (v / npentries) then pagesGranted has (free - 1) fails.tail (v + 1) k
      else if refused (free - 1) fails.tail then
        pagesGranted has (free - 1) fails.tail.tail (v + 1) k
      else pagesGranted (fun i => has i || i == v / npentries) (free - 2) fails.tail.tail (v + 1)
        k) :=
  rfl

/-- The pages of the program that the next rounds of the loop ask for are granted in the
state `s`. -/
def Memory.pagesGranted (s : Memory) (d v k : ℕ) : Bool :=
  Vm.pagesGranted (tableAt (s.word d)) s.freelist.length s.fails v k

theorem Round.passed {perm : ℕ} {ok : Bool} {ws : ℕ → ℕ}
    (h : Round L s s' plain rest d v n perm ws ok)
    (hn : refused s.freelist.length s.fails = false) :
    s.pagesGranted d v (k + 1) = s'.pagesGranted d (v + 1) k := by
  obtain ⟨s₁, hlist, hfails, hdir, htab⟩ := h.taken
  have hlen : s.freelist.length - 1 = s₁.freelist.length := by
    rw [hlist]
    rfl
  have hhas := htab.tableAt_eq
  unfold Memory.pagesGranted
  rw [pagesGranted_succ, hn, Bool.not_false, Bool.true_and, hhas, hlen, ← hfails, ← hdir]
  cases htab with
  | found hp hfree hfls hdir₁ =>
      have hat : tableAt (s₁.word d) (v / npentries) = true := decide_eq_true hp
      have hsame : (fun i => tableAt (s₁.word d) i || (true && i == v / npentries)) =
          tableAt (s₁.word d) := by
        rw [← hhas]
        unfold tableAt
        rw [hdir₁]
      rw [if_pos hat, hsame, hfree, hfls]
  | made t hp hgranted hfree hfls _ =>
      have hat : ¬tableAt (s₁.word d) (v / npentries) = true := fun hh =>
        hp (of_decide_eq_true hh)
      have hlen₁ : s.freelist.length - 2 = s'.freelist.length := by
        rw [hlist, hfree]
        rfl
      rw [if_neg hat, hgranted, if_neg (by simp), hlen₁, hfls]
      simp only [Bool.true_and]
  | denied hp hrefusal hfree hfls _ =>
      have hat : ¬tableAt (s₁.word d) (v / npentries) = true := fun hh =>
        hp (of_decide_eq_true hh)
      rw [if_neg hat, hrefusal, if_pos rfl, hfree, hfls]
      simp only [Bool.false_and, Bool.or_false]

/-- The loop ends early if and only if a page of the program is refused. -/
theorem allocFrom_passed (h : Owns L s plain (d ::ₘ rest)) (hk : v + k ≤ kernbasePage)
    (hzero : ∀ u, v ≤ u → u < v + k → pteAt s.word d u = 0) :
    Exec.total (allocFrom d k v) (fun r _ => r = s.pagesGranted d v k) s := by
  induction k generalizing s v plain with
  | zero => exact Exec.wp_pure.mpr rfl
  | succ k ih =>
      have hv : v < kernbasePage := by omega
      unfold allocFrom
      refine Exec.total_seq (total_and (kalloc_extends h) (kalloc_exact s).wlp) ?_
      rintro (_ | n) s1 ⟨⟨⟨h1, hword, -⟩, -⟩, hfails, -, hrefused, hfree⟩
      · refine Exec.wp_pure.mpr ?_
        rw [Memory.pagesGranted, pagesGranted_succ, hrefused]
        rfl
      · rw [handed, Multiset.singleton_add] at h1
        refine Exec.wp_bind.mpr (Exec.wp_modify.mpr (Exec.wp_bind.mpr (Exec.wp_modify.mpr ?_)))
        refine Exec.total_seq (mapOne_round h1 hv (by decide) (hzero v le_rfl (by omega)) hfree
          hfails hword rfl rfl rfl rfl) ?_
        intro ok s2 hround
        refine Exec.wp_bind.mpr (Exec.wp_modify.mpr ?_)
        have hzero' : ∀ u, v + 1 ≤ u → u < v + 1 + k → pteAt (s2.noteMapped ok).word d u = 0 := by
          intro u hlow hhigh
          refine (hround.entries u (kernbase_lt_top (by omega))).trans ?_
          rw [if_neg (by omega)]
          exact hzero u (by omega) (by omega)
        refine Exec.total_mono (ih (hround.owns.move (fun _ _ _ _ => rfl) rfl rfl) (by omega)
          hzero') ?_
        intro r s' hr
        exact hr.trans (hround.passed hrefused).symm

/-! ## Taking pages back -/

/-- If all pages below the range are there, the loop of `deallocuvm` looks at every page of the
range that is: it enters a table in the middle only if the table is there. -/
theorem noneSkipped_of_below {word : ℕ → ℕ → ℕ} (hbelow : ∀ u < v, Present (pteAt word d u))
    (last : ℕ) : NoneSkipped word d v last := by
  intro u hlow _ _ hidx
  have hpos : 0 < v % npentries := (Nat.zero_le _).trans_lt hidx
  obtain ⟨v, rfl⟩ := Nat.exists_eq_succ_of_ne_zero fun h : v = 0 => by
    rw [h, Nat.zero_mod] at hpos
    exact absurd hpos (lt_irrefl 0)
  have hentries : npentries = 1024 := by
    unfold npentries
    rfl
  -- the page before the range is in the same table
  have htable : (v + 1) / npentries = v / npentries := by
    rw [hentries] at hpos ⊢
    omega
  obtain ⟨t, j, hat, -⟩ := exists_entryAt (s := ⟨[], word, [], false, false, [], by simp⟩)
    (hbelow v (Nat.lt_succ_self v))
  refine ⟨(v + 1) / npentries, ?_, le_rfl, htable ▸ hat.present⟩
  rw [hentries] at hidx ⊢
  omega

theorem Removed.entries_of_below {last : ℕ} (h : Removed L s s' plain rest d v last)
    (hbelow : ∀ u < v, Present (pteAt s.word d u))
    (hclean : ∀ u, v ≤ u → u < last → Present (pteAt s.word d u) ∨ pteAt s.word d u = 0)
    (hu : u < topPage) :
    pteAt s'.word d u = if v ≤ u ∧ u < last then 0 else pteAt s.word d u := by
  have hexam := noneSkipped_iff.mp (noneSkipped_of_below hbelow last)
  rw [h.entries u hu]
  by_cases hin : v ≤ u ∧ u < last
  · rw [if_pos hin]
    split
    · rfl
    · rename_i hnot
      rcases hclean u hin.1 hin.2 with hp | hz
      · exact absurd ⟨hin.2, hexam u hin.1 hin.2 hp⟩ hnot
      · exact hz
  · rw [if_neg hin, if_neg fun hh => hin ⟨hh.2.1, hh.1⟩]

/-- The address space with directory `d` has exactly the pages of a process of size `sz`. -/
def Filled (word : ℕ → ℕ → ℕ) (d sz : ℕ) : Prop :=
  ∀ u < kernbasePage, Present (pteAt word d u) ↔ u < pagesOf sz

theorem Filled.congr {word word' : ℕ → ℕ → ℕ} {sz : ℕ} (h : Filled word d sz)
    (hsame : ∀ u < kernbasePage, pteAt word' d u = pteAt word d u) : Filled word' d sz := by
  intro u hu
  rw [hsame u hu]
  exact h u hu

theorem Filled.tables {word word' : ℕ → ℕ → ℕ} {sz : ℕ} (h : Filled word d sz)
    (hsame : SameTables word word' d) : Filled word' d sz :=
  h.congr fun _ hu => hsame.pteAt_eq (kernbase_lt_top hu)

/-- `deallocuvm` leaves the pages below the new size. -/
theorem Removed.filled {oldsz newsz : ℕ} (h : Removed L s s' plain rest d (pagesOf newsz)
    (pagesOf oldsz)) (hsz : newsz ≤ oldsz) (hold : oldsz < kernbase)
    (hfilled : Filled s.word d oldsz) : Filled s'.word d newsz := by
  have hpages := pagesOf_mono hsz
  have htop : pagesOf oldsz ≤ kernbasePage := pagesOf_le hold.le
  intro u hu
  rw [h.entries_of_below (fun w hw => (hfilled w (by omega)).mpr (by omega))
    (fun w _ hw => Or.inl ((hfilled w (by omega)).mpr hw)) (kernbase_lt_top hu)]
  split
  · exact iff_of_false (by simp [Present]) (by omega)
  · rw [hfilled u hu]
    omega

/-- What `allocuvm` comes to, by the pages of the program that are granted. -/
structure Extended (L : Link) (s s' : Memory) (plain rest : Multiset ℕ) (d oldsz newsz r : ℕ) :
    Prop where
  owns : Owns L s' plain (d ::ₘ rest)
  frame : ∀ m ∈ plain, s'.word m = s.word m
  granted : s.pagesGranted d (pagesOf oldsz) (pagesOf newsz - pagesOf oldsz) = true → r = newsz ∧
    (Filled s'.word d newsz ↔
      s.tablesGranted d (pagesOf oldsz) (pagesOf newsz - pagesOf oldsz) = true)
  refused : s.pagesGranted d (pagesOf oldsz) (pagesOf newsz - pagesOf oldsz) = false → r = 0 ∧
    ∀ u < topPage, pteAt s'.word d u = pteAt s.word d u

theorem Grown.filled_iff {oldsz newsz : ℕ} (h : Grown L s s' plain rest d (pagesOf oldsz)
    (pagesOf newsz - pagesOf oldsz) lost true) (hsz : oldsz ≤ newsz) (hnew : newsz < kernbase)
    (hfilled : Filled s.word d oldsz) : Filled s'.word d newsz ↔
      s.tablesGranted d (pagesOf oldsz) (pagesOf newsz - pagesOf oldsz) = true := by
  have hpages := pagesOf_mono hsz
  have htop : pagesOf newsz ≤ kernbasePage := pagesOf_le hnew.le
  rw [← h.granted, h.complete rfl]
  constructor
  · intro hall u _ hu
    exact (hall u (by omega)).mpr (by omega)
  · intro hall u hu
    by_cases hin : pagesOf oldsz ≤ u ∧ u < pagesOf newsz
    · exact iff_of_true (hall u hin.1 (by omega)) hin.2
    · rw [h.outside u (kernbase_lt_top hu) (by omega), hfilled u hu]
      omega

/-- With all pages below it present, the range is empty again when `allocuvm` has given up. -/
theorem Grown.restored {r : Bool} (h : Grown L s s₁ plain rest d v k lost r)
    (hk : v + k ≤ topPage) (hbelow : ∀ u < v, Present (pteAt s.word d u))
    (hzero : ∀ u, v ≤ u → u < v + k → pteAt s.word d u = 0)
    (h' : Removed L s₁ s' (lost + plain) rest d v (v + k)) (hu : u < topPage) :
    pteAt s'.word d u = pteAt s.word d u := by
  have hbelow₁ : ∀ w < v, Present (pteAt s₁.word d w) := by
    intro w hw
    rw [h.outside w (by omega) (Or.inl hw)]
    exact hbelow w hw
  have hclean : ∀ w, v ≤ w → w < v + k → Present (pteAt s₁.word d w) ∨ pteAt s₁.word d w = 0 := by
    intro w hlow hhigh
    rcases h.inside w hlow hhigh with hnone | ⟨n, -, hpte, -⟩
    · exact Or.inr hnone
    · exact Or.inl (hpte ▸ mkPte_present n pteWU)
  rw [h'.entries_of_below hbelow₁ hclean hu]
  split
  · rename_i hin
    exact (hzero u hin.1 hin.2).symm
  · exact h.outside u hu (by omega)

theorem allocuvm_extended {oldsz newsz : ℕ} (h : Owns L s plain (d ::ₘ rest))
    (hsz : oldsz ≤ newsz) (hnew : newsz < kernbase) (hfilled : Filled s.word d oldsz) :
    Exec.total (allocuvm L d oldsz newsz)
      (fun r s' => Extended L s s' plain rest d oldsz newsz r) s := by
  have hpages := pagesOf_mono hsz
  have htop : pagesOf newsz ≤ kernbasePage := pagesOf_le hnew.le
  have hzero : ∀ u, pagesOf oldsz ≤ u → u < pagesOf oldsz + (pagesOf newsz - pagesOf oldsz) →
      pteAt s.word d u = 0 := by
    intro u hlow hhigh
    exact h.entry_zero_of_size hfilled (by omega) hlow
  have hspec : Exec.total (allocuvm L d oldsz newsz) (fun r s' =>
      (∀ m ∈ plain, s'.word m = s.word m) ∧
      (s.pagesGranted d (pagesOf oldsz) (pagesOf newsz - pagesOf oldsz) = true → r = newsz ∧
        ∃ lost, Grown L s s' plain rest d (pagesOf oldsz) (pagesOf newsz - pagesOf oldsz) lost
          true) ∧
      (s.pagesGranted d (pagesOf oldsz) (pagesOf newsz - pagesOf oldsz) = false → r = 0 ∧
        ∀ u < topPage, pteAt s'.word d u = pteAt s.word d u)) s := by
    unfold allocuvm
    rw [if_neg (by omega), if_neg (by omega)]
    refine Exec.total_seq (total_and (allocFrom_grown h (by omega) hzero)
      (allocFrom_passed h (by omega) hzero).wlp) ?_
    rintro (_ | _) s₁ ⟨⟨hk, lost, hgrown⟩, hpassed⟩
    · have hlt : oldsz < newsz := by
        refine lt_of_le_of_ne hsz ?_
        rintro rfl
        have hpos := hk rfl
        omega
      refine Exec.total_seq (deallocuvm_removed hgrown.owns hlt hnew.le) ?_
      rintro - s' ⟨-, hremoved⟩
      refine Exec.wp_pure.mpr ⟨fun m hm => ?_, fun hgranted => ?_, fun _ => ⟨rfl, fun u hu => ?_⟩⟩
      · rw [hremoved.frame m (Multiset.mem_add.mpr (Or.inr hm)), hgrown.ext.frame h hm]
      · exact absurd (hpassed.trans hgranted) (by simp)
      · rw [show pagesOf newsz = pagesOf oldsz + (pagesOf newsz - pagesOf oldsz) by omega]
          at hremoved
        have hbelow : ∀ w < pagesOf oldsz, Present (pteAt s.word d w) := fun w hw =>
          (hfilled w (by omega)).mpr hw
        have hend : pagesOf oldsz + (pagesOf newsz - pagesOf oldsz) ≤ topPage := by
          unfold kernbasePage at htop
          unfold topPage
          omega
        exact hgrown.restored hend hbelow hzero hremoved hu
    · refine Exec.wp_pure.mpr ⟨fun m hm => hgrown.ext.frame h hm, fun _ => ⟨rfl, lost, hgrown⟩,
        fun hrefused => ?_⟩
      exact absurd (hpassed.trans hrefused) (by simp)
  refine Exec.total_mono (total_and hspec (allocuvm_spec h)) ?_
  rintro r s' ⟨⟨hframe, hgranted, hrefused⟩, howns, -⟩
  refine ⟨howns, hframe, fun hg => ?_, hrefused⟩
  obtain ⟨hr, lost, hgrown⟩ := hgranted hg
  exact ⟨hr, hgrown.filled_iff hsz hnew hfilled⟩

/-! ## `growproc` -/

/-- `growproc` returns 0 and the process has the new size and its pages, or it returns -1 and
the address space is as before. -/
def Resized (p : Slot) (n : ℤ) (k : Kernel) (r : ℤ) (k' : Kernel) : Prop :=
  r = 0 ∧ ((k'.task p).sz : ℤ) = (k.task p).sz + n ∧ (k'.task p).sz < kernbase ∧
      Filled k'.mem.word (k'.task p).pgdir (k'.task p).sz ∨
    r = -1 ∧ (k'.task p).sz = (k.task p).sz ∧ (k'.task p).pgdir = (k.task p).pgdir ∧
      ∀ u < kernbasePage, pteAt k'.mem.word (k.task p).pgdir u = pteAt k.mem.word (k.task p).pgdir u

/-- Growing below the kernel ends early or finds all page tables; shrinking leaves something,
unless there was nothing. -/
def Resizable (k : Kernel) (p : Slot) (n : ℤ) : Prop :=
  (0 < n → (kernbase : ℤ) ≤ (k.task p).sz + n ∨
    k.mem.pagesGranted (k.task p).pgdir (pagesOf (k.task p).sz)
      (pagesOf (uint32 ((k.task p).sz + n)) - pagesOf (k.task p).sz) = false ∨
    k.mem.tablesGranted (k.task p).pgdir (pagesOf (k.task p).sz)
      (pagesOf (uint32 ((k.task p).sz + n)) - pagesOf (k.task p).sz) = true) ∧
  (n < 0 → 0 < (k.task p).sz + n ∨ (k.task p).sz = 0)

/-- Nothing but the process `p` has changed: neither the others nor any page that is not in its
address space. -/
structure Apart (p : Slot) (k k' : Kernel) : Prop where
  task : ∀ q, q ≠ p → k'.task q = k.task q
  state : (k'.task p).state = (k.task p).state
  pgdir : (k'.task p).pgdir = (k.task p).pgdir
  tables : ∀ d ∈ k.pgdirsBut p, SameTables k.mem.word k'.mem.word d

variable {p : Slot} {k : Kernel} {n : ℤ}

/-- The pages of the other processes count as plain while `p` changes. -/
theorem Sound.alone (h : Sound L k) (hp : (k.task p).state ≠ .unused) :
    Owns L k.mem ((k.task p).kstack ::ₘ k.kstacksBut p + (openPipes k.file).val +
      ((k.pgdirsBut p).map (footprint k.mem.word)).sum) ((k.task p).pgdir ::ₘ 0) := by
  have hsum : ((k.task p).pgdir ::ₘ 0) + k.pgdirsBut p = (k.task p).pgdir ::ₘ k.pgdirsBut p := by
    rw [Multiset.cons_add, zero_add]
  refine Owns.shelve ?_
  rw [hsum]
  exact (h.live hp).owns

theorem sameTables_of_shelf {word word' : ℕ → ℕ → ℕ} {d : ℕ} {dirs plain : Multiset ℕ}
    (hd : d ∈ dirs) (hframe : ∀ m ∈ plain + (dirs.map (footprint word)).sum, word' m = word m) :
    SameTables word word' d := by
  intro m hm
  refine hframe m (Owns.mem_shelf hd ?_)
  unfold footprint
  exact Multiset.mem_add.mpr (Or.inl hm)

theorem uint32_of_lt {x : ℤ} (hlow : 0 ≤ x) (hhigh : x < 4294967296) : uint32 x = x.toNat := by
  unfold uint32
  rw [Int.emod_eq_of_lt hlow hhigh]

theorem uint32_of_neg {x : ℤ} (hlow : -4294967296 ≤ x) (hneg : x < 0) :
    uint32 x = (x + 4294967296).toNat := by
  unfold uint32
  rw [← Int.add_emod_right, Int.emod_eq_of_lt (by omega) (by omega)]

/-- A process of positive size has a first page. -/
theorem Filled.first {word : ℕ → ℕ → ℕ} {sz : ℕ} (h : Filled word d sz) (hsz : 0 < sz) :
    Present (pteAt word d 0) := by
  refine (h 0 (by decide)).mpr ?_
  unfold pagesOf pgsize
  omega

/-- `growproc` has changed the size to `sz`. -/
theorem resized_zero_iff {s : Memory} {sz : ℕ} (hsz : (sz : ℤ) = (k.task p).sz + n)
    (hlt : sz < kernbase) :
    Resized p n k 0 { k with
        mem := s
        task := Function.update k.task p { k.task p with sz := sz } } ↔
      Filled s.word (k.task p).pgdir sz := by
  simp only [Resized, Function.update_self, true_and]
  constructor
  · rintro (⟨-, -, hfilled⟩ | ⟨hr, -⟩)
    · exact hfilled
    · cases hr
  · intro hfilled
    exact Or.inl ⟨hsz, hlt, hfilled⟩

theorem Apart.of_memory {s : Memory} (hmem : ∀ m ∈ (k.task p).kstack ::ₘ k.kstacksBut p +
      (openPipes k.file).val + ((k.pgdirsBut p).map (footprint k.mem.word)).sum,
      s.word m = k.mem.word m) : Apart p k { k with mem := s } :=
  ⟨fun _ _ => rfl, rfl, rfl, fun _ hd => sameTables_of_shelf hd hmem⟩

theorem Apart.of_size {s : Memory} {sz : ℕ} (hmem : ∀ m ∈ (k.task p).kstack ::ₘ
      k.kstacksBut p + (openPipes k.file).val +
        ((k.pgdirsBut p).map (footprint k.mem.word)).sum, s.word m = k.mem.word m) :
    Apart p k { k with
      mem := s
      task := Function.update k.task p { k.task p with sz := sz } } := by
  refine ⟨fun q hq => ?_, ?_, ?_, fun _ hd => sameTables_of_shelf hd hmem⟩
  · exact Function.update_of_ne hq _ _
  · simp
  · simp

theorem Apart.refl (p : Slot) (k : Kernel) : Apart p k k :=
  ⟨fun _ _ => rfl, rfl, rfl, fun _ _ _ _ => rfl⟩

theorem growproc_grows (h : Sound L k) (hp : (k.task p).state ≠ .unused)
    (hfilled : Filled k.mem.word (k.task p).pgdir (k.task p).sz) (hpos : 0 < n)
    (hhigh : n < 2147483648) :
    Exec.total (growproc L p n) (fun r k' => Apart p k k' ∧
      (Resized p n k r k' ↔ Resizable k p n)) k := by
  have hsize := h.size p
  have huint : uint32 ((k.task p).sz + n) = ((k.task p).sz + n).toNat := by
    unfold kernbase at hsize
    exact uint32_of_lt (by omega) (by omega)
  have hresizable : Resizable k p n ↔ (kernbase : ℤ) ≤ (k.task p).sz + n ∨
      k.mem.pagesGranted (k.task p).pgdir (pagesOf (k.task p).sz)
        (pagesOf (uint32 ((k.task p).sz + n)) - pagesOf (k.task p).sz) = false ∨
      k.mem.tablesGranted (k.task p).pgdir (pagesOf (k.task p).sz)
        (pagesOf (uint32 ((k.task p).sz + n)) - pagesOf (k.task p).sz) = true := by
    refine ⟨fun hr => hr.1 hpos, fun hr => ⟨fun _ => hr, fun hn => ?_⟩⟩
    omega
  unfold growproc
  refine Exec.wp_bind.mpr (Exec.wp_gets.mpr ?_)
  rw [if_pos hpos, hresizable]
  generalize hnew : uint32 ((k.task p).sz + n) = newsz at *
  by_cases hfits : newsz < kernbase
  · refine Exec.wp_bind.mpr (Exec.wp_zoom.mpr (Exec.total_mono
      (allocuvm_extended (h.alone hp) (by omega) hfits hfilled) ?_))
    rintro r s hext
    cases hg : k.mem.pagesGranted (k.task p).pgdir (pagesOf (k.task p).sz)
        (pagesOf newsz - pagesOf (k.task p).sz) with
    | true =>
        obtain ⟨rfl, hiff⟩ := hext.granted hg
        have hbelow : ¬(kernbase : ℤ) ≤ (k.task p).sz + n := by omega
        rw [if_neg (by omega)]
        refine Exec.wp_bind.mpr (Exec.wp_modify.mpr (Exec.wp_pure.mpr
          ⟨Apart.of_size hext.frame, ?_⟩))
        refine (resized_zero_iff (by omega) hfits).trans (hiff.trans ?_)
        simp only [hbelow, Bool.true_eq_false, false_or]
    | false =>
        obtain ⟨rfl, hentries⟩ := hext.refused hg
        rw [if_pos rfl]
        refine Exec.wp_pure.mpr ⟨Apart.of_memory hext.frame, iff_of_true ?_
          (Or.inr (Or.inl rfl))⟩
        exact Or.inr ⟨rfl, rfl, rfl, fun u hu => hentries u (kernbase_lt_top hu)⟩
  · have hgive : allocuvm L (k.task p).pgdir (k.task p).sz newsz = pure 0 := by
      unfold allocuvm
      rw [if_pos (by omega)]
    rw [hgive]
    refine Exec.wp_bind.mpr (Exec.wp_zoom.mpr (Exec.wp_pure.mpr ?_))
    rw [if_pos rfl]
    refine Exec.wp_pure.mpr ⟨Apart.refl p k, iff_of_true ?_ (Or.inl (by omega))⟩
    exact Or.inr ⟨rfl, rfl, rfl, fun _ _ => rfl⟩

theorem growproc_shrinks (h : Sound L k) (hp : (k.task p).state ≠ .unused)
    (hfilled : Filled k.mem.word (k.task p).pgdir (k.task p).sz) (hlow : -2147483648 ≤ n)
    (hneg : n < 0) :
    Exec.total (growproc L p n) (fun r k' => Apart p k k' ∧
      (Resized p n k r k' ↔ Resizable k p n)) k := by
  have hsize := h.size p
  have hresizable : Resizable k p n ↔ 0 < (k.task p).sz + n ∨ (k.task p).sz = 0 := by
    refine ⟨fun hr => hr.2 hneg, fun hr => ⟨fun hn => ?_, fun _ => hr⟩⟩
    omega
  unfold growproc
  refine Exec.wp_bind.mpr (Exec.wp_gets.mpr ?_)
  rw [if_neg (by omega), if_pos hneg, hresizable]
  rcases lt_or_ge ((k.task p).sz + n) 0 with hbelow | hleft
  · -- the new size wraps to one above the old size
    have huint := uint32_of_neg (by omega) hbelow
    have hgive : deallocuvm L (k.task p).pgdir (k.task p).sz (uint32 ((k.task p).sz + n)) =
        pure (k.task p).sz := by
      unfold deallocuvm
      rw [if_pos (by omega)]
    rw [hgive]
    refine Exec.wp_bind.mpr (Exec.wp_zoom.mpr (Exec.wp_pure.mpr ?_))
    split
    · rename_i hzero
      refine Exec.wp_pure.mpr ⟨Apart.refl p k, iff_of_true ?_ (Or.inr hzero)⟩
      exact Or.inr ⟨rfl, rfl, rfl, fun _ _ => rfl⟩
    · rename_i hne
      refine Exec.wp_bind.mpr (Exec.wp_modify.mpr (Exec.wp_pure.mpr
        ⟨Apart.of_size fun _ _ => rfl, iff_of_false ?_ (by omega)⟩))
      simp only [Resized, Function.update_self]
      rintro (⟨-, hsz, -⟩ | ⟨hr, -⟩)
      · omega
      · cases hr
  · have huint := uint32_of_lt hleft (by unfold kernbase at hsize; omega)
    generalize uint32 ((k.task p).sz + n) = newsz at *
    have hlt : newsz < (k.task p).sz := by omega
    refine Exec.wp_bind.mpr (Exec.wp_zoom.mpr (Exec.total_mono
      (deallocuvm_removed (h.alone hp) hlt hsize.le) ?_))
    rintro _ s ⟨rfl, hremoved⟩
    have hfilled' := hremoved.filled hlt.le hsize hfilled
    split
    · rename_i hzero
      refine Exec.wp_pure.mpr ⟨Apart.of_memory hremoved.frame,
        iff_of_false ?_ (by omega)⟩
      rintro (⟨hr, -⟩ | ⟨-, -, -, hsame⟩)
      · cases hr
      · -- the first page is gone
        have hfirst := hfilled.first (by omega)
        rw [← hsame 0 (by decide)] at hfirst
        have hpage := (hfilled' 0 (by decide)).mp hfirst
        rw [hzero] at hpage
        exact absurd hpage (by decide)
    · refine Exec.wp_bind.mpr (Exec.wp_modify.mpr (Exec.wp_pure.mpr
        ⟨Apart.of_size hremoved.frame, iff_of_true ?_ (Or.inl (by omega))⟩))
      exact (resized_zero_iff (by omega) (by omega)).mpr hfilled'

theorem growproc_spec (h : Sound L k) (hp : (k.task p).state ≠ .unused)
    (hfilled : Filled k.mem.word (k.task p).pgdir (k.task p).sz) (hlow : -2147483648 ≤ n)
    (hhigh : n < 2147483648) :
    Exec.total (growproc L p n) (fun r k' => Apart p k k' ∧
      (Resized p n k r k' ↔ Resizable k p n)) k := by
  rcases lt_trichotomy n 0 with hneg | rfl | hpos
  · exact growproc_shrinks h hp hfilled hlow hneg
  · unfold growproc
    refine Exec.wp_bind.mpr (Exec.wp_gets.mpr ?_)
    rw [if_neg (lt_irrefl 0), if_neg (lt_irrefl 0)]
    refine Exec.wp_pure.mpr ⟨Apart.refl p k, iff_of_true ?_ ⟨fun hn => ?_, fun hn => ?_⟩⟩
    · exact Or.inl ⟨rfl, by simp, h.size p, hfilled⟩
    · exact absurd hn (lt_irrefl 0)
    · exact absurd hn (lt_irrefl 0)
  · exact growproc_grows h hp hfilled hpos hhigh

end Vm

end Xv6
