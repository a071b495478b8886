import Xv6.Vm.ExecSpec
import Xv6.Vm.Requests

/-!
# How far `exec` gets

Which program headers `exec` comes to, and which pages it asks for, can be told from the
file, the length of the free list and the failures ahead, as long as `allocuvm` gets the page
tables that it asks for.  What goes wrong otherwise is that a page is left unmapped.

`loaduvm` looks up a page before it stores into it.  It finds a table if some page of the
program has made it, or if it is one of the tables of the kernel, and panics if there is
none.
-/

namespace Xv6

namespace Vm

open Support

variable {L : Link} {s s' s₀ : Memory} {plain rest : Multiset ℕ} {d m n v t j : ℕ}
  {f : ExecFile} {elf : Elfhdr} {i : ℕ} {ph : Proghdr}

/-! ## The tables of a new address space -/

/-- The pages of the kernel's part of the address space that `kmap` names. -/
def InKernel (u : ℕ) : Prop :=
  kernbasePage ≤ u ∧ u < kernbasePage + phystopPage ∨ devspacePage ≤ u ∧ u < topPage

/-- There is a table for the virtual page `v`, when the first `m` pages are mapped. -/
def Walkable (m v : ℕ) : Prop :=
  (∃ u < m, u / npentries = v / npentries) ∨ InKernel v

theorem Supplied.table_iff (h : Supplied s₀ d m s) (hv : v < topPage) :
    Present (s.word d (v / npentries)) ↔ Walkable m v := by
  have hentries : npentries = 1024 := by
    unfold npentries
    rfl
  rw [h.tables, Walkable, hentries]
  unfold topPage at hv
  refine or_congr ⟨fun hlt => ⟨v / 1024 * 1024, ?_, ?_⟩, ?_⟩ ?_
  · unfold span at hlt
    omega
  · omega
  · rintro ⟨u, hu, hdiv⟩
    unfold span
    omega
  · unfold kernelTables InKernel kernbasePage phystopPage devspacePage topPage
    omega

/-! ## Program headers -/

namespace ExecFile

theorem off_lt (f : ExecFile) {off : ℕ} (h : f.proghdr off = some ph) : ph.off < 4294967296 := by
  unfold proghdr at h
  split at h
  · cases h
    exact f.num_lt (off + 4)
  · cases h

theorem vaddr_lt (f : ExecFile) {off : ℕ} (h : f.proghdr off = some ph) :
    ph.vaddr < 4294967296 := by
  unfold proghdr at h
  split at h
  · cases h
    exact f.num_lt (off + 8)
  · cases h

/-- An offset inside the file is far from wrapping. -/
theorem offset_lt (f : ExecFile) {off : ℕ} (h : off < f.size) : off + pgsize < 4294967296 := by
  have hsize := f.size_le
  unfold maxfile bsize at hsize
  unfold pgsize
  omega

/-- The size that the program has reached before its segment `i`. -/
def reached (f : ExecFile) (elf : Elfhdr) : ℕ → ℕ
  | 0 => 0
  | i + 1 =>
      match f.proghdr (wrap32 (elf.phoff + 32 * i)) with
      | none => f.reached elf i
      | some ph =>
          if ph.type = 1 then max (f.reached elf i) (wrap32 (ph.vaddr + ph.memsz))
          else f.reached elf i

/-- What `exec` and `allocuvm` check of the loadable segment `ph`, which is number `i`. -/
structure Checked (f : ExecFile) (elf : Elfhdr) (i : ℕ) (ph : Proghdr) : Prop where
  filesz_le : ph.filesz ≤ ph.memsz
  end_lt : wrap32 (ph.vaddr + ph.memsz) < kernbase
  nonempty : f.reached elf (i + 1) ≠ 0

/-- What `loaduvm` panics without: the segment starts at a page boundary, and there is a table
for every page that is looked up. -/
structure Walked (f : ExecFile) (m : ℕ) (ph : Proghdr) : Prop where
  aligned : ph.vaddr % pgsize = 0
  tables : ∀ u < ph.filesz, u = 0 ∨ ph.off + u ≤ f.size →
    Walkable m (wrap32 (ph.vaddr + u) / pgsize)

/-- With enough memory `exec` goes on behind the program header `i`. -/
def Passes (f : ExecFile) (elf : Elfhdr) (i : ℕ) : Prop :=
  ∃ ph, f.proghdr (wrap32 (elf.phoff + 32 * i)) = some ph ∧
    (ph.type = 1 → f.Checked elf i ph ∧ f.Walked (pagesOf (f.reached elf (i + 1))) ph ∧
      (ph.filesz = 0 ∨ ph.off + ph.filesz ≤ f.size))

/-- With enough memory `exec` comes to the program header `i`, that of the loadable
segment `ph`. -/
structure Comes (f : ExecFile) (elf : Elfhdr) (i : ℕ) (ph : Proghdr) : Prop where
  lt : i < elf.phnum
  passed : ∀ j < i, f.Passes elf j
  header : f.proghdr (wrap32 (elf.phoff + 32 * i)) = some ph
  loadable : ph.type = 1

/-- In the state `s`, `exec` comes to the call of `loaduvm` for the segment `ph`. -/
structure Loads (f : ExecFile) (elf : Elfhdr) (s : Memory) (i : ℕ) (ph : Proghdr) : Prop
    extends f.Comes elf i ph where
  checked : f.Checked elf i ph
  granted : s.Grants (requests (pagesOf (f.reached elf (i + 1))))

/-- With enough memory `exec` loads all segments and has room for the stack. -/
structure Whole (f : ExecFile) (elf : Elfhdr) : Prop where
  passed : ∀ i < elf.phnum, f.Passes elf i
  room : (pagesOf (f.reached elf elf.phnum) + 2) * pgsize < kernbase

/-- In the state `s`, `exec` comes to the arguments. -/
structure Stacks (f : ExecFile) (elf : Elfhdr) (s : Memory) : Prop extends f.Whole elf where
  granted : s.Grants (requests (pagesOf (f.reached elf elf.phnum) + 2))

/-- With enough memory `exec` asks for the page `v` of the program or of its stack. -/
def Asks (f : ExecFile) (elf : Elfhdr) (v : ℕ) : Prop :=
  (∃ i ph, f.Comes elf i ph ∧ ph.filesz ≤ ph.memsz ∧ wrap32 (ph.vaddr + ph.memsz) < kernbase ∧
    v < pagesOf (wrap32 (ph.vaddr + ph.memsz))) ∨
  f.Whole elf ∧ v < pagesOf (f.reached elf elf.phnum) + 2

/-- From the state `s` on, no page table is refused to `allocuvm` before anything else is. -/
def GetsTables (f : ExecFile) (elf : Elfhdr) (s : Memory) : Prop :=
  ∀ t, f.Asks elf (1024 * t) → s.Grants (requests (1024 * t) + 1) →
    s.grants (requests (1024 * t) + 1) = true

/-- Everything that `loaduvm` stores goes to addresses below the kernel. -/
def StoresLow (f : ExecFile) (elf : Elfhdr) (s : Memory) : Prop :=
  ∀ i ph, f.Loads elf s i ph → ph.vaddr % pgsize = 0 →
    ∀ u < ph.filesz, ph.off + u < f.size →
      (∀ w ≤ u, Walkable (pagesOf (f.reached elf (i + 1))) (wrap32 (ph.vaddr + w) / pgsize)) →
      wrap32 (ph.vaddr + u) / pgsize < kernbasePage

/-- Everything that `loaduvm` stores goes to pages that the program has reached with the segment
that it is called for. -/
def StoresInside (f : ExecFile) (elf : Elfhdr) (s : Memory) : Prop :=
  ∀ i ph, f.Loads elf s i ph → ph.vaddr % pgsize = 0 →
    ∀ u < ph.filesz, ph.off + u < f.size →
      (∀ w ≤ u, Walkable (pagesOf (f.reached elf (i + 1))) (wrap32 (ph.vaddr + w) / pgsize)) →
      (ph.vaddr + u) / pgsize < pagesOf (f.reached elf (i + 1))

/-- In every `exec` of the file from the state `s` on, `loaduvm` stores into pages of the program
only. -/
def Covered (f : ExecFile) (s : Memory) : Prop :=
  ∀ elf, f.elfhdr = some elf → elf.magic = elfMagic → f.StoresInside elf s

/-- In every `exec` of the file from the state `s` on, `allocuvm` gets the page tables that it
asks for. -/
def TablesGranted (f : ExecFile) (s : Memory) : Prop :=
  ∀ elf, f.elfhdr = some elf → elf.magic = elfMagic → f.GetsTables elf s

end ExecFile

theorem reached_of_skipped (hph : f.proghdr (wrap32 (elf.phoff + 32 * i)) = some ph)
    (htype : ph.type ≠ 1) : f.reached elf (i + 1) = f.reached elf i := by
  rw [ExecFile.reached, hph]
  exact if_neg htype

theorem reached_of_loaded (hph : f.proghdr (wrap32 (elf.phoff + 32 * i)) = some ph)
    (htype : ph.type = 1) :
    f.reached elf (i + 1) = max (f.reached elf i) (wrap32 (ph.vaddr + ph.memsz)) := by
  rw [ExecFile.reached, hph]
  exact if_pos htype

theorem ExecFile.reached_mono (f : ExecFile) (elf : Elfhdr) : Monotone (f.reached elf) := by
  refine monotone_nat_of_le_succ fun i => ?_
  rw [ExecFile.reached]
  split
  · exact le_rfl
  · split
    · exact le_max_left _ _
    · exact le_rfl

/-- The segment `ph` is the only one with its number. -/
theorem ExecFile.Comes.only (h : f.Comes elf i ph) {ph' : Proghdr}
    (hph : f.proghdr (wrap32 (elf.phoff + 32 * i)) = some ph') : ph' = ph :=
  Option.some.inj (hph.symm.trans h.header)

theorem ExecFile.Comes.passes (h : f.Comes elf i ph) (hpass : f.Passes elf i) :
    f.Checked elf i ph ∧ f.Walked (pagesOf (f.reached elf (i + 1))) ph ∧
      (ph.filesz = 0 ∨ ph.off + ph.filesz ≤ f.size) := by
  obtain ⟨ph', hph, hload⟩ := hpass
  obtain rfl := h.only hph
  exact hload h.loadable

/-- The program reaches the end of every segment that `exec` loads. -/
theorem ExecFile.Comes.pages_le (h : f.Comes elf i ph) (hi : i < n) :
    pagesOf (wrap32 (ph.vaddr + ph.memsz)) ≤ pagesOf (f.reached elf n) := by
  refine pagesOf_mono (le_trans ?_ (f.reached_mono elf (Nat.succ_le_iff.mpr hi)))
  rw [Nat.succ_eq_add_one, reached_of_loaded h.header h.loadable]
  exact le_max_right _ _

theorem ExecFile.reached_lt (hpass : ∀ j < i, f.Passes elf j) : f.reached elf i < kernbase := by
  induction i with
  | zero =>
      rw [ExecFile.reached]
      decide
  | succ i ih =>
      have hlt := ih fun j hj => hpass j (by omega)
      obtain ⟨ph, hph, hload⟩ := hpass i (Nat.lt_succ_self i)
      by_cases htype : ph.type = 1
      · rw [reached_of_loaded hph htype]
        exact max_lt hlt (hload htype).1.end_lt
      · rwa [reached_of_skipped hph htype]

theorem ExecFile.Loads.reached_lt (h : f.Loads elf s i ph) : f.reached elf (i + 1) < kernbase := by
  rw [reached_of_loaded h.header h.loadable]
  exact max_lt (ExecFile.reached_lt h.passed) h.checked.end_lt

/-- An address in a page of the program does not wrap. -/
theorem wrap32_of_page {a : ℕ} (hm : m ≤ kernbasePage) (ha : a / pgsize < m) : wrap32 a = a := by
  refine wrap32_of_lt ?_
  unfold kernbasePage pgsize at *
  omega

theorem ExecFile.StoresInside.storesLow (h : f.StoresInside elf s) : f.StoresLow elf s := by
  intro i ph hloads haddr u hu hin hwalk
  have hpage := h i ph hloads haddr u hu hin hwalk
  have hm := pagesOf_le hloads.reached_lt.le
  rw [wrap32_of_page hm hpage]
  omega

/-! ## `loaduvm` -/

/-- The memory after `loaduvm` has read into the page `n`. -/
def Memory.filled (s : Memory) (n : ℕ) (ws : ℕ → ℕ) : Memory :=
  { s with word := fillPage s.word n ws, trace := .load n :: s.trace }

/-- `readi` stores nothing from the end of the file on. -/
theorem readPage_past {pa off k : ℕ} (hoff : f.size ≤ off) (hk : k ≤ pgsize) :
    readPage f pa off k = pure (decide (k = 0 ∧ f.size = off)) := by
  have hsize := f.size_le
  unfold maxfile bsize at hsize
  unfold pgsize at hk
  unfold readPage
  split
  · rename_i h
    unfold readCount at h
    congr
    symm
    rw [decide_eq_false_iff_not]
    split at h
    · unfold wrap32 at *
      omega
    · split at h <;> cases h
  · rename_i h
    obtain ⟨hle, hwrap, hr⟩ := readCount_eq_some_iff.mp h
    congr 2
    have heq : f.size = off := by omega
    simp [heq]
  · rename_i r h
    obtain ⟨hle, hwrap, hr⟩ := readCount_eq_some_iff.mp h
    unfold wrap32 at *
    split at hr <;> omega

/-- Before the end of the file it stores, and has read all if the file does not end. -/
theorem readPage_inside {pa off k : ℕ} (hoff : off < f.size) (hpos : 0 < k) (hk : k ≤ pgsize) :
    Exec.total (readPage f pa off k) (fun ok s' => (∃ ws, s' = s.filled pa ws) ∧
      (ok = true ↔ off + k ≤ f.size)) s := by
  have hlt := f.offset_lt hoff
  have hwrap : wrap32 (off + k) = off + k := wrap32_of_lt (by omega)
  unfold readPage
  split
  · rename_i h
    unfold readCount at h
    rw [hwrap, if_neg (by omega)] at h
    split at h <;> cases h
  · rename_i h
    obtain ⟨-, -, hr⟩ := readCount_eq_some_iff.mp h
    rw [hwrap] at hr
    split at hr <;> omega
  · rename_i r h
    obtain ⟨-, -, hr⟩ := readCount_eq_some_iff.mp h
    rw [hwrap] at hr
    refine Exec.wp_bind.mpr (Exec.wp_bind.mpr (Exec.wp_gets.mpr (Exec.wp_modify.mpr ?_)))
    refine Exec.wp_bind.mpr (Exec.wp_modify.mpr (Exec.wp_pure.mpr ⟨⟨_, rfl⟩, ?_⟩))
    rw [decide_eq_true_iff]
    split at hr <;> omega

/-- All addresses in a page have the same virtual page. -/
theorem wrap32_page {addr u w : ℕ} (haddr : addr % pgsize = 0) (hu : u % pgsize = 0)
    (hlow : u ≤ w) (hhigh : w < u + pgsize) :
    wrap32 (addr + w) / pgsize = wrap32 (addr + u) / pgsize := by
  unfold wrap32 pgsize at *
  omega

/-- The loop of `loaduvm`: with an invariant of its stores that knows the tables, it reads the
whole segment, comes to the end of the file, or comes to an address without a table. -/
theorem loadFrom_rule {I : Memory → Prop} {k : ℕ}
    (hstore : ∀ s t j u ws, u < ph.filesz → ph.off + u < f.size →
      (∀ w ≤ u, Walkable m (wrap32 (ph.vaddr + w) / pgsize)) →
      EntryAt s.word d (wrap32 (ph.vaddr + u) / pgsize) t j → I s →
      I (s.filled (ptePage (s.word t j)) ws))
    (htable : ∀ s, I s → ∀ v < topPage, Present (s.word d (v / npentries)) ↔ Walkable m v)
    (haddr : ph.vaddr % pgsize = 0) (hi : i % pgsize = 0)
    (hend : i + pgsize * k < ph.filesz + pgsize) (hall : ph.filesz ≤ i + pgsize * k)
    (hoff : ph.off < 4294967296) (hread : i = 0 ∨ ph.off + min i ph.filesz ≤ f.size)
    (hdone : ∀ u < i, Walkable m (wrap32 (ph.vaddr + u) / pgsize)) (hI : I s) :
    Exec.wp (loadFrom d f ph.vaddr ph.off ph.filesz k i) (fun ok s' => I s' ∧ f.Walked m ph ∧
        (ok = true ↔ ph.filesz = 0 ∨ ph.off + ph.filesz ≤ f.size))
      (fun _ s' => I s' ∧ ¬f.Walked m ph) s := by
  induction k generalizing s i with
  | zero =>
      rw [min_eq_right (by omega)] at hread
      refine Exec.wp_pure.mpr ⟨hI, ⟨haddr, fun u hu _ => hdone u (by omega)⟩, ?_⟩
      exact iff_of_true rfl (hread.imp_left (by omega))
  | succ k ih =>
      have hisz : i < ph.filesz := by
        unfold pgsize at *
        omega
      have hcount : 0 < min (ph.filesz - i) pgsize ∧ min (ph.filesz - i) pgsize ≤ pgsize := by
        unfold pgsize
        omega
      rw [min_eq_left hisz.le] at hread
      have hsize := f.size_le
      have hwrap : wrap32 (ph.off + i) = ph.off + i := by
        refine wrap32_of_lt ?_
        unfold maxfile bsize at hsize
        omega
      have htop : wrap32 (ph.vaddr + i) / pgsize < topPage := by
        unfold wrap32 topPage pgsize
        omega
      unfold loadFrom
      rw [hwrap]
      refine Exec.wp_seq (walkpgdir_false_spec d _ s) ?_ fun _ _ hf => hf.elim
      rintro (_ | ⟨t, j⟩) s₁ ⟨rfl, hat⟩
      · refine Exec.wp_throw.mpr ⟨hI, fun hwalk => hat ((htable s₁ hI _ htop).mpr ?_)⟩
        exact hwalk.tables i hisz hread
      · have hpage := (htable s₁ hI _ htop).mp hat.present
        have hwalk : ∀ u < i + pgsize, Walkable m (wrap32 (ph.vaddr + u) / pgsize) := by
          intro u hu
          by_cases hlow : u < i
          · exact hdone u hlow
          · rwa [wrap32_page haddr hi (by omega) hu]
        refine Exec.wp_bind.mpr (Exec.wp_gets.mpr ?_)
        -- the pages that are looked up before the file ends
        have hshort : ¬ph.off + (i + min (ph.filesz - i) pgsize) ≤ f.size → f.Walked m ph ∧
            ¬(ph.filesz = 0 ∨ ph.off + ph.filesz ≤ f.size) := by
          intro hpast
          refine ⟨⟨haddr, fun u hu hlook => hwalk u ?_⟩, ?_⟩
          · unfold pgsize at *
            omega
          · unfold pgsize at *
            omega
        by_cases hin : ph.off + i < f.size
        · refine Exec.wp_seq (readPage_inside hin hcount.1 hcount.2) ?_ fun _ _ hf => hf.elim
          rintro ok _ ⟨⟨ws, rfl⟩, hok⟩
          have hI' := hstore s₁ t j i ws hisz hin (fun w hw => hwalk w (by unfold pgsize; omega))
            hat hI
          rw [Nat.add_assoc] at hok
          cases ok with
          | false =>
              obtain ⟨hwalked, hnot⟩ := hshort fun hfit => absurd (hok.mpr hfit) (by simp)
              exact Exec.wp_pure.mpr ⟨hI', hwalked, iff_of_false (by simp) hnot⟩
          | true =>
              have hfit := hok.mp rfl
              have hmin : i + min (ph.filesz - i) pgsize = min (i + pgsize) ph.filesz := by omega
              rw [hmin] at hfit
              exact ih (by unfold pgsize at *; omega) (by unfold pgsize at *; omega)
                (by unfold pgsize at *; omega) (Or.inr hfit) hwalk hI'
        · rw [readPage_past (by omega) hcount.2]
          refine Exec.wp_bind.mpr (Exec.wp_pure.mpr ?_)
          rw [decide_eq_false (by omega), if_neg (by simp)]
          obtain ⟨hwalked, hnot⟩ := hshort (by omega)
          exact Exec.wp_pure.mpr ⟨hI, hwalked, iff_of_false (by simp) hnot⟩

/-- `loaduvm` panics if and only if it has to. -/
theorem loaduvm_rule {I : Memory → Prop}
    (hstore : ph.vaddr % pgsize = 0 → ∀ s t j u ws, u < ph.filesz → ph.off + u < f.size →
      (∀ w ≤ u, Walkable m (wrap32 (ph.vaddr + w) / pgsize)) →
      EntryAt s.word d (wrap32 (ph.vaddr + u) / pgsize) t j → I s →
      I (s.filled (ptePage (s.word t j)) ws))
    (htable : ∀ s, I s → ∀ v < topPage, Present (s.word d (v / npentries)) ↔ Walkable m v)
    (hoff : ph.off < 4294967296) (hI : I s) :
    Exec.wp (loaduvm d ph.vaddr f ph.off ph.filesz) (fun ok s' => I s' ∧ f.Walked m ph ∧
        (ok = true ↔ ph.filesz = 0 ∨ ph.off + ph.filesz ≤ f.size))
      (fun _ s' => I s' ∧ ¬f.Walked m ph) s := by
  unfold loaduvm
  split
  · rename_i haddr
    exact Exec.wp_throw.mpr ⟨hI, fun hwalk => haddr hwalk.aligned⟩
  · rename_i haddr
    rw [not_not] at haddr
    refine loadFrom_rule (hstore haddr) htable haddr (Nat.zero_mod _) ?_ ?_ hoff (Or.inl rfl)
      (fun u hu => absurd hu (Nat.not_lt_zero u)) hI
    · unfold pagesOf pgsize
      omega
    · unfold pagesOf pgsize
      omega

/-- A store below the kernel changes no table. -/
theorem Supplied.filled {ws : ℕ → ℕ} (h : Owns L s plain (d ::ₘ rest)) (hs : Supplied s₀ d m s)
    (hv : v < kernbasePage) (hat : EntryAt s.word d v t j) :
    Owns L (s.filled (ptePage (s.word t j)) ws) plain (d ::ₘ rest) ∧
      Supplied s₀ d m (s.filled (ptePage (s.word t j)) ws) := by
  have hsame : ∀ d' ∈ d ::ₘ rest,
      SameTables s.word (fillPage s.word (ptePage (s.word t j)) ws) d' := fun d' hd' =>
    SameTables.of_page (h.entry_notMem hv hat d' hd') fun _ hx => fillPage_other hx
  refine ⟨h.move hsame rfl rfl, hs.congr rfl rfl ?_ rfl⟩
  exact (hsame d (Multiset.mem_cons_self d rest)).dir

/-- `loaduvm` with an invariant of its stores. -/
theorem loaduvm_supplied {I : Memory → Prop} (h : Owns L s plain (d ::ₘ rest))
    (hs : Supplied s₀ d m s) (hoff : ph.off < 4294967296)
    (hlow : ph.vaddr % pgsize = 0 → ∀ u < ph.filesz, ph.off + u < f.size →
      (∀ w ≤ u, Walkable m (wrap32 (ph.vaddr + w) / pgsize)) →
      wrap32 (ph.vaddr + u) / pgsize < kernbasePage)
    (hstore : ph.vaddr % pgsize = 0 → ∀ s t j u ws, u < ph.filesz → ph.off + u < f.size →
      (∀ w ≤ u, Walkable m (wrap32 (ph.vaddr + w) / pgsize)) →
      EntryAt s.word d (wrap32 (ph.vaddr + u) / pgsize) t j → Owns L s plain (d ::ₘ rest) →
      Supplied s₀ d m s → I s → I (s.filled (ptePage (s.word t j)) ws)) (hI : I s) :
    Exec.wp (loaduvm d ph.vaddr f ph.off ph.filesz) (fun ok s' =>
        (Owns L s' plain (d ::ₘ rest) ∧ Supplied s₀ d m s' ∧ I s') ∧ f.Walked m ph ∧
        (ok = true ↔ ph.filesz = 0 ∨ ph.off + ph.filesz ≤ f.size))
      (fun _ s' => (Owns L s' plain (d ::ₘ rest) ∧ Supplied s₀ d m s' ∧ I s') ∧
        ¬f.Walked m ph) s := by
  refine loaduvm_rule (I := fun s => Owns L s plain (d ::ₘ rest) ∧ Supplied s₀ d m s ∧ I s)
    ?_ (fun s hI v hv => hI.2.1.table_iff hv) hoff ⟨h, hs, hI⟩
  rintro haddr s t j u ws hu hin hwalk hat ⟨h, hs, hI⟩
  obtain ⟨h', hs'⟩ : Owns L (s.filled (ptePage (s.word t j)) ws) plain (d ::ₘ rest) ∧
      Supplied s₀ d m (s.filled (ptePage (s.word t j)) ws) :=
    Supplied.filled h hs (hlow haddr u hu hin hwalk) hat
  exact ⟨h', hs', hstore haddr s t j u ws hu hin hwalk hat h hs hI⟩

/-! ## Unmapped pages stay recorded -/

theorem stays_readPage (f : ExecFile) (n off b : ℕ) : Stays (readPage f n off b) := by
  unfold readPage
  split
  · exact Stays.pure
  · exact Stays.pure
  · refine (Stays.of_keeps (keeps_copyTo _ _ _)).bind fun _ => ?_
    exact Stays.bind (fun _ _ => Exec.Preserves.modify fun s hs => hs) fun _ => Stays.pure

theorem stays_loadFrom (d : ℕ) (f : ExecFile) (addr off sz k i : ℕ) :
    Stays (loadFrom d f addr off sz k i) := by
  induction k generalizing i with
  | zero => exact Stays.pure
  | succ k ih =>
      refine (Stays.of_keeps (keeps_lookup _ _)).bind fun r => ?_
      cases r with
      | none => exact Stays.throw
      | some e =>
          refine (Stays.of_keeps Exec.Keeps.gets).bind fun pte => ?_
          refine (stays_readPage _ _ _ _).bind fun ok => ?_
          cases ok with
          | false => exact Stays.pure
          | true => exact ih _

theorem stays_loaduvm (d addr : ℕ) (f : ExecFile) (off sz : ℕ) :
    Stays (loaduvm d addr f off sz) := by
  unfold loaduvm
  split
  · exact Stays.throw
  · exact stays_loadFrom _ _ _ _ _ _ _

theorem stays_loadSegments (L : Link) (d : ℕ) (f : ExecFile) (k off sz : ℕ) :
    Stays (loadSegments L d f k off sz) := by
  induction k generalizing off sz with
  | zero => exact Stays.pure
  | succ k ih =>
      unfold loadSegments
      cases f.proghdr off with
      | none => exact Stays.pure
      | some ph =>
          simp only
          split
          · exact ih _ _
          · split
            · exact Stays.pure
            · refine (stays_allocuvm _ _ _ _).bind fun sz => ?_
              split
              · exact Stays.pure
              · refine (stays_loaduvm _ _ _ _ _).bind fun ok => ?_
                cases ok with
                | false => exact Stays.pure
                | true => exact ih _ _

theorem stays_makeStack (L : Link) (cur d sz : ℕ) (argv : List (List UInt8)) :
    Stays (makeStack L cur d sz argv) := by
  refine (stays_allocuvm _ _ _ _).bind fun top => ?_
  split
  · exact Stays.pure
  · refine (Stays.of_keeps (keeps_clearpteu _ _)).bind fun _ => ?_
    refine (Stays.of_keeps (keeps_pushArgs _ _ _ _ _)).bind fun r => ?_
    rcases r with _ | ⟨sp, ptrs⟩
    · exact Stays.pure
    · refine (Stays.of_keeps (keeps_copyoutFrom _ _ _ _ _)).bind fun ok => ?_
      cases ok with
      | false => exact Stays.pure
      | true => exact Stays.pure

/-! ## The segments -/

/-- `exec` has come to the program header `i`, and nothing has been refused. -/
structure Underway (L : Link) (s₀ : Memory) (plain rest : Multiset ℕ) (d : ℕ) (f : ExecFile)
    (elf : Elfhdr) (i : ℕ) (s : Memory) : Prop where
  passed : ∀ j < i, f.Passes elf j
  size_lt : f.reached elf i < kernbase
  owns : Owns L s plain (d ::ₘ rest)
  supplied : Supplied s₀ d (pagesOf (f.reached elf i)) s

/-- `exec` gives up at a program header for which `loaduvm` does not panic. -/
def ExecFile.Stops (f : ExecFile) (elf : Elfhdr) (s : Memory) : Prop :=
  ∃ i < elf.phnum, (∀ j < i, f.Passes elf j) ∧
    (f.Passes elf i → ¬s.Grants (requests (pagesOf (f.reached elf (i + 1))))) ∧
    ∀ ph, f.Loads elf s i ph → f.Walked (pagesOf (f.reached elf (i + 1))) ph

/-- `loaduvm` panics for a segment. -/
def ExecFile.Breaks (f : ExecFile) (elf : Elfhdr) (s : Memory) : Prop :=
  ∃ i ph, f.Loads elf s i ph ∧ ¬f.Walked (pagesOf (f.reached elf (i + 1))) ph

theorem ExecFile.Stops.not_breaks (h : f.Stops elf s) : ¬f.Breaks elf s := by
  rintro ⟨i', ph, hloads, hbad⟩
  obtain ⟨i, -, hpassed, hstop, hwalked⟩ := h
  rcases lt_trichotomy i i' with hlt | rfl | hgt
  · refine hstop (hloads.passed i hlt) (hloads.granted.mono (requests_mono ?_))
    exact pagesOf_mono (f.reached_mono elf (Nat.succ_le_succ hlt.le))
  · exact hbad (hwalked ph hloads)
  · exact hbad (hloads.passes (hpassed i' hgt)).2.1

theorem ExecFile.Stops.not_stacks (h : f.Stops elf s) : ¬f.Stacks elf s := by
  intro hstacks
  obtain ⟨i, hi, -, hstop, -⟩ := h
  refine hstop (hstacks.passed i hi) (hstacks.granted.mono (requests_mono ?_))
  exact (pagesOf_mono (f.reached_mono elf hi)).trans (Nat.le_add_right _ 2)

theorem ExecFile.Whole.not_breaks (h : ∀ i < elf.phnum, f.Passes elf i) : ¬f.Breaks elf s := by
  rintro ⟨i, ph, hloads, hbad⟩
  exact hbad (hloads.passes (h i hloads.lt)).2.1

/-- A table that is refused to `allocuvm` while it makes room for a segment. -/
theorem ExecFile.Comes.misses (h : f.Comes elf i ph) (hfilesz : ph.filesz ≤ ph.memsz)
    (hend : wrap32 (ph.vaddr + ph.memsz) < kernbase)
    (href : TableRefused s v (pagesOf (wrap32 (ph.vaddr + ph.memsz)))) : ¬f.GetsTables elf s := by
  obtain ⟨t, -, hhigh, hbefore, hrefused⟩ := href
  intro htables
  rw [htables t (Or.inl ⟨i, ph, h, hfilesz, hend, hhigh⟩) hbefore] at hrefused
  cases hrefused

/-- If `exec` gives up at the program header `i`, it is not refused any table after that. -/
theorem ExecFile.getsTables_of_stop (hpassed : ∀ j < i, f.Passes elf j) (hi : i < elf.phnum)
    (hstop : f.Passes elf i → ¬s.Grants (requests (pagesOf (f.reached elf (i + 1)))))
    (hbefore : ¬TableRefused s 0 (pagesOf (f.reached elf i)))
    (hhere : ∀ ph, f.Comes elf i ph → ph.filesz ≤ ph.memsz →
      wrap32 (ph.vaddr + ph.memsz) < kernbase →
      ¬TableRefused s 0 (pagesOf (wrap32 (ph.vaddr + ph.memsz)))) : f.GetsTables elf s := by
  have hall : ∀ {t m}, ¬TableRefused s 0 m → 1024 * t < m → s.Grants (requests (1024 * t) + 1) →
      s.grants (requests (1024 * t) + 1) = true := by
    intro t m hno ht hgrants
    by_contra hrefused
    exact hno ⟨t, Nat.zero_le _, ht, hgrants, eq_false_of_ne_true hrefused⟩
  -- a page that is asked for behind the header `i`
  have hlater : ∀ {t}, f.Passes elf i → s.Grants (requests (1024 * t) + 1) →
      s.grants (requests (1024 * t) + 1) = true := by
    intro t hpass hgrants
    by_cases ht : 1024 * t < pagesOf (f.reached elf (i + 1))
    · obtain ⟨ph, hph, hload⟩ := hpass
      by_cases htype : ph.type = 1
      · rw [reached_of_loaded hph htype] at ht
        have hcheck := (hload htype).1
        rcases max_cases (f.reached elf i) (wrap32 (ph.vaddr + ph.memsz)) with ⟨hmax, -⟩ | ⟨hmax, -⟩
        · rw [hmax] at ht
          exact hall hbefore ht hgrants
        · rw [hmax] at ht
          exact hall (hhere ph ⟨hi, hpassed, hph, htype⟩ hcheck.filesz_le hcheck.end_lt) ht hgrants
      · rw [reached_of_skipped hph htype] at ht
        exact hall hbefore ht hgrants
    · refine absurd (hgrants.mono ?_) (hstop hpass)
      rcases eq_or_lt_of_le (not_lt.mp ht) with heq | hlt
      · rw [heq]
        exact Nat.le_succ _
      · exact (requests_lt hlt).le.trans (Nat.le_succ _)
  rintro t (⟨i', ph, hcomes, hfilesz, hend, ht⟩ | ⟨hwhole, -⟩) hgrants
  · rcases lt_trichotomy i' i with hlt | rfl | hgt
    · exact hall hbefore (ht.trans_le (hcomes.pages_le hlt)) hgrants
    · exact hall (hhere ph hcomes hfilesz hend) ht hgrants
    · exact hlater (hcomes.passed i hgt) hgrants
  · exact hlater (hwhole.passed i hi) hgrants

/-- `exec` gives up at the segment `ph`, for which there is not enough memory or which it
refuses. -/
theorem ExecFile.Comes.stops (h : f.Comes elf i ph)
    (hbefore : ¬TableRefused s 0 (pagesOf (f.reached elf i)))
    (hno : f.Checked elf i ph → ¬s.Grants (requests (pagesOf (f.reached elf (i + 1)))))
    (hhere : ph.filesz ≤ ph.memsz → wrap32 (ph.vaddr + ph.memsz) < kernbase →
      ¬TableRefused s 0 (pagesOf (wrap32 (ph.vaddr + ph.memsz)))) :
    f.Stops elf s ∧ f.GetsTables elf s := by
  have hstop : f.Passes elf i → ¬s.Grants (requests (pagesOf (f.reached elf (i + 1)))) :=
    fun hpass => hno (h.passes hpass).1
  refine ⟨⟨i, h.lt, h.passed, hstop, fun ph' hloads => ?_⟩,
    ExecFile.getsTables_of_stop h.passed h.lt hstop hbefore fun ph' hcomes => ?_⟩
  · obtain rfl := h.only hloads.header
    exact absurd hloads.granted (hno hloads.checked)
  · obtain rfl := h.only hcomes.header
    exact hhere

/-- `exec` gives up where the file has no program header. -/
theorem ExecFile.stops_of_headless (hpassed : ∀ j < i, f.Passes elf j) (hi : i < elf.phnum)
    (hph : f.proghdr (wrap32 (elf.phoff + 32 * i)) = none)
    (hbefore : ¬TableRefused s 0 (pagesOf (f.reached elf i))) :
    (∀ ph, ¬f.Loads elf s i ph) ∧ ¬f.Passes elf i ∧ f.Stops elf s ∧ f.GetsTables elf s := by
  have hstop : ¬f.Passes elf i := by
    rintro ⟨ph, hph', -⟩
    rw [hph] at hph'
    cases hph'
  have hnone : ∀ ph, ¬f.Comes elf i ph := by
    intro ph hcomes
    have hheader := hcomes.header
    rw [hph] at hheader
    cases hheader
  have hno : ∀ ph, ¬f.Loads elf s i ph := fun ph hloads => hnone ph hloads.toComes
  refine ⟨hno, hstop, ⟨i, hi, hpassed, fun hpass => absurd hpass hstop,
    fun ph hloads => absurd hloads (hno ph)⟩, ?_⟩
  exact ExecFile.getsTables_of_stop hpassed hi (fun hpass => absurd hpass hstop) hbefore
    fun ph hcomes => absurd hcomes (hnone ph)

/-- `exec` gives up behind `loaduvm` if the file ends before the segment does. -/
theorem ExecFile.Loads.stops (h : f.Loads elf s i ph)
    (hbefore : ¬TableRefused s 0 (pagesOf (f.reached elf i)))
    (hhere : ¬TableRefused s 0 (pagesOf (wrap32 (ph.vaddr + ph.memsz))))
    (hwalked : f.Walked (pagesOf (f.reached elf (i + 1))) ph)
    (hshort : ¬(ph.filesz = 0 ∨ ph.off + ph.filesz ≤ f.size)) :
    f.Stops elf s ∧ f.GetsTables elf s := by
  have hstop : ¬f.Passes elf i := fun hpass => hshort (h.passes hpass).2.2
  refine ⟨⟨i, h.lt, h.passed, fun hpass => absurd hpass hstop, fun ph' hloads => ?_⟩,
    ExecFile.getsTables_of_stop h.passed h.lt (fun hpass => absurd hpass hstop) hbefore
      fun ph' hcomes _ _ => ?_⟩
  · obtain rfl := h.only hloads.header
    exact hwalked
  · obtain rfl := h.only hcomes.header
    exact hhere

/-- The loop of `exec` over the program headers.  `I i` holds before the header `i`, `J i` when
`allocuvm` has made room for its segment, and `Q` when `exec` gives up; or a table is refused. -/
theorem loadSegments_cases {I J : ℕ → Memory → Prop} {Q A E : Memory → Prop} {k : ℕ}
    (hlow : f.StoresLow elf s₀)
    (hskip : ∀ i ph s, f.proghdr (wrap32 (elf.phoff + 32 * i)) = some ph → ph.type ≠ 1 →
      I i s → I (i + 1) s)
    (hgive : ∀ i s, (∀ ph, ¬f.Loads elf s₀ i ph) → ¬f.Passes elf i → I i s → Q s)
    (halloc : ∀ i ph s, f.Comes elf i ph → Underway L s₀ plain rest d f elf i s → I i s →
      Exec.wp (allocuvm L d (f.reached elf i) (wrap32 (ph.vaddr + ph.memsz)))
        (fun r s' => s'.hole = false → (r = 0 → Q s') ∧
          (r ≠ 0 → r = f.reached elf (i + 1) → J i s'))
        (fun _ s' => s'.hole = false → A s') s)
    (hload : ∀ i ph s, f.Loads elf s₀ i ph → Owns L s plain (d ::ₘ rest) →
      Supplied s₀ d (pagesOf (f.reached elf (i + 1))) s → J i s →
      Exec.wp (loaduvm d ph.vaddr f ph.off ph.filesz)
        (fun ok s' => (ok = false → Q s') ∧ (ok = true → I (i + 1) s')) (fun _ s' => E s') s)
    (hk : i + k = elf.phnum) (hu : Underway L s₀ plain rest d f elf i s) (hI : I i s) :
    Exec.wp (loadSegments L d f k (wrap32 (elf.phoff + 32 * i)) (f.reached elf i))
      (fun r s' => s'.hole = true ∧ ¬f.GetsTables elf s₀ ∨
        (r = none → Q s' ∧ s'.hole = false ∧ f.Stops elf s₀ ∧ f.GetsTables elf s₀) ∧
        ∀ sz, r = some sz → sz = f.reached elf elf.phnum ∧
          Underway L s₀ plain rest d f elf elf.phnum s' ∧ I elf.phnum s')
      (fun _ s' => s'.hole = true ∧ ¬f.GetsTables elf s₀ ∨
        s'.hole = false ∧ (A s' ∨ E s' ∧ f.Breaks elf s₀)) s := by
  induction k generalizing s i with
  | zero =>
      obtain rfl : i = elf.phnum := hk
      refine Exec.wp_pure.mpr (Or.inr ⟨by simp, ?_⟩)
      rintro _ ⟨⟩
      exact ⟨rfl, hu, hI⟩
  | succ k ih =>
      have hlt : i < elf.phnum := by omega
      have hnext : wrap32 (wrap32 (elf.phoff + 32 * i) + 32) =
          wrap32 (elf.phoff + 32 * (i + 1)) := by
        unfold wrap32
        omega
      have hpasses : f.Passes elf i → ∀ j < i + 1, f.Passes elf j := by
        intro hi j hj
        rcases Nat.lt_succ_iff_lt_or_eq.mp hj with hlt | rfl
        · exact hu.passed j hlt
        · exact hi
      have hbefore := hu.supplied.granted (v := 0) le_rfl
      unfold loadSegments
      cases hph : f.proghdr (wrap32 (elf.phoff + 32 * i)) with
      | none =>
          obtain ⟨hno, hpass, hstop, hgets⟩ := ExecFile.stops_of_headless hu.passed hlt hph hbefore
          exact Exec.wp_pure.mpr (Or.inr ⟨fun _ =>
            ⟨hgive i s hno hpass hI, hu.supplied.mapped, hstop, hgets⟩, by simp⟩)
      | some ph =>
          simp only
          split
          · rename_i htype
            have hreach := reached_of_skipped hph htype
            rw [hnext, ← hreach]
            refine ih (by omega) ⟨hpasses ⟨ph, hph, fun h1 => absurd h1 htype⟩, ?_, hu.owns, ?_⟩
              (hskip i ph s hph htype hI)
            · rw [hreach]
              exact hu.size_lt
            · rw [hreach]
              exact hu.supplied
          · rename_i htype
            rw [not_not] at htype
            have hcomes : f.Comes elf i ph := ⟨hlt, hu.passed, hph, htype⟩
            have hreach := reached_of_loaded hph htype
            have hstops := hcomes.stops hbefore
            split
            · rename_i hfilesz
              have hnot : ¬f.Checked elf i ph := fun hcheck => absurd hcheck.filesz_le (by omega)
              have hno : ∀ ph', ¬f.Loads elf s₀ i ph' := by
                intro ph' hloads
                obtain rfl := hcomes.only hloads.header
                exact hnot hloads.checked
              have hpass : ¬f.Passes elf i := fun hpass => hnot (hcomes.passes hpass).1
              obtain ⟨hstop, hgets⟩ := hstops (fun hcheck => absurd hcheck hnot)
                fun hle => absurd hle (by omega)
              exact Exec.wp_pure.mpr (Or.inr ⟨fun _ =>
                ⟨hgive i s hno hpass hI, hu.supplied.mapped, hstop, hgets⟩, by simp⟩)
            · rename_i hfilesz
              refine Exec.wp_seq (Exec.wp_and (halloc i ph s hcomes hu hI) (Exec.wp_and
                (allocuvm_supplied hu.owns hu.supplied) (allocuvm_spec hu.owns))) ?_ ?_
              · rintro sz s₁ ⟨hcalled, ⟨hend, hhole₁, href⟩ | ⟨hhole₁, hnot, hsupplied, hzero⟩,
                  h₁, hbound, -, hres⟩
                · -- a page has been left unmapped, and this stays recorded
                  have hmiss := hcomes.misses (by omega) hend href
                  refine Exec.wp_mono (Exec.Preserves.wp (Stays.hole ?_) hhole₁)
                    (fun _ _ hh => Or.inl ⟨hh, hmiss⟩) fun _ _ hh => Or.inl ⟨hh, hmiss⟩
                  split
                  · exact Stays.pure
                  · refine (stays_loaduvm _ _ _ _ _).bind fun ok => ?_
                    cases ok with
                    | false => exact Stays.pure
                    | true => exact stays_loadSegments _ _ _ _ _ _
                obtain ⟨hgave, hmade⟩ := hcalled hhole₁
                have hhere : wrap32 (ph.vaddr + ph.memsz) < kernbase →
                    ¬TableRefused s₀ 0 (pagesOf (wrap32 (ph.vaddr + ph.memsz))) := by
                  rintro hend ⟨t, -, hhigh, ht⟩
                  by_cases hold : 1024 * t < pagesOf (f.reached elf i)
                  · exact hbefore ⟨t, Nat.zero_le _, hold, ht⟩
                  · exact hnot hend ⟨t, by omega, hhigh, ht⟩
                split
                · rename_i hsz
                  have hno : f.Checked elf i ph →
                      ¬s₀.Grants (requests (pagesOf (f.reached elf (i + 1)))) := by
                    intro hcheck
                    have hnone := hcheck.nonempty
                    rw [hreach] at hnone ⊢
                    exact hzero hsz hcheck.end_lt hnone
                  obtain ⟨hstop, hgets⟩ := hstops hno fun _ => hhere
                  exact Exec.wp_pure.mpr (Or.inr ⟨fun _ => ⟨hgave hsz, hhole₁, hstop, hgets⟩,
                    by simp⟩)
                · rename_i hne
                  obtain ⟨hmax, hend, -⟩ := hres hne
                  rw [← hreach] at hmax
                  subst hmax
                  have hsize := hbound hu.size_lt
                  have hs₁ := hsupplied hne
                  have hloads : f.Loads elf s₀ i ph :=
                    ⟨hcomes, ⟨by omega, hend, hne⟩, hs₁.asked.granted⟩
                  refine Exec.wp_seq (Exec.wp_and (hload i ph s₁ hloads h₁ hs₁ (hmade hne rfl))
                    (loaduvm_supplied (I := fun _ => True) h₁ hs₁ (f.off_lt hph) (hlow i ph hloads)
                      (fun _ _ _ _ _ _ _ _ _ _ _ _ _ => trivial) trivial)) ?_ ?_
                  · rintro ok s₂ ⟨⟨hgave₂, hmade₂⟩, ⟨h₂, hs₂, -⟩, hwalked, hok⟩
                    cases ok with
                    | false =>
                        obtain ⟨hstop, hgets⟩ := hloads.stops hbefore (hhere hend) hwalked
                          fun hfit => absurd (hok.mpr hfit) (by simp)
                        exact Exec.wp_pure.mpr (Or.inr ⟨fun _ =>
                          ⟨hgave₂ rfl, hs₂.mapped, hstop, hgets⟩, by simp⟩)
                    | true =>
                        rw [if_pos rfl, hnext]
                        refine ih (by omega) ⟨hpasses ⟨ph, hph, fun _ =>
                          ⟨hloads.checked, hwalked, hok.mp rfl⟩⟩, hsize, h₂, hs₂⟩ (hmade₂ rfl)
                  · rintro e s₂ ⟨hE, ⟨-, hs₂, -⟩, hbroken⟩
                    exact Or.inr ⟨hs₂.mapped, Or.inr ⟨hE, i, ph, hloads, hbroken⟩⟩
              · rintro e s₁ ⟨hcalled, ⟨hend, hhole₁, href⟩ | hhole₁, -⟩
                · exact Or.inl ⟨hhole₁, hcomes.misses (by omega) hend href⟩
                · exact Or.inr ⟨hhole₁, Or.inl (hcalled hhole₁)⟩

/-- The same when no table is refused. -/
theorem loadSegments_rule {I J : ℕ → Memory → Prop} {Q A E : Memory → Prop} {k : ℕ}
    (htables : f.GetsTables elf s₀) (hlow : f.StoresLow elf s₀)
    (hskip : ∀ i ph s, f.proghdr (wrap32 (elf.phoff + 32 * i)) = some ph → ph.type ≠ 1 →
      I i s → I (i + 1) s)
    (hgive : ∀ i s, (∀ ph, ¬f.Loads elf s₀ i ph) → ¬f.Passes elf i → I i s → Q s)
    (halloc : ∀ i ph s, f.Comes elf i ph → Underway L s₀ plain rest d f elf i s → I i s →
      Exec.wp (allocuvm L d (f.reached elf i) (wrap32 (ph.vaddr + ph.memsz)))
        (fun r s' => s'.hole = false → (r = 0 → Q s') ∧
          (r ≠ 0 → r = f.reached elf (i + 1) → J i s'))
        (fun _ s' => s'.hole = false → A s') s)
    (hload : ∀ i ph s, f.Loads elf s₀ i ph → Owns L s plain (d ::ₘ rest) →
      Supplied s₀ d (pagesOf (f.reached elf (i + 1))) s → J i s →
      Exec.wp (loaduvm d ph.vaddr f ph.off ph.filesz)
        (fun ok s' => (ok = false → Q s') ∧ (ok = true → I (i + 1) s')) (fun _ s' => E s') s)
    (hk : i + k = elf.phnum) (hu : Underway L s₀ plain rest d f elf i s) (hI : I i s) :
    Exec.wp (loadSegments L d f k (wrap32 (elf.phoff + 32 * i)) (f.reached elf i))
      (fun r s' => (r = none → Q s' ∧ s'.hole = false ∧ f.Stops elf s₀) ∧
        ∀ sz, r = some sz → sz = f.reached elf elf.phnum ∧
          Underway L s₀ plain rest d f elf elf.phnum s' ∧ I elf.phnum s')
      (fun _ s' => s'.hole = false ∧ (A s' ∨ E s' ∧ f.Breaks elf s₀)) s := by
  refine Exec.wp_mono (loadSegments_cases hlow hskip hgive halloc hload hk hu hI) ?_ ?_
  · intro r s' hs'
    obtain ⟨hnone, hsome⟩ := hs'.resolve_left fun hmiss => hmiss.2 htables
    refine ⟨fun hr => ?_, hsome⟩
    obtain ⟨hQ, hhole, hstop, -⟩ := hnone hr
    exact ⟨hQ, hhole, hstop⟩
  · exact fun _ _ hs' => hs'.resolve_left fun hmiss => hmiss.2 htables

/-- The new address space before the first program header. -/
theorem setupkvm_underway (f : ExecFile) (elf : Elfhdr) (h : Owns L s plain rest)
    (hfirst : Asked s₀ 0 s) (hhole : s.hole = false) :
    Exec.wp (setupkvm L) (fun r s' => s'.hole = false ∧ (r = none → ¬s₀.Grants 65) ∧
        ∀ d, r = some d → Underway L s₀ plain rest d f elf 0 s') (fun _ s' => s'.hole = false)
      s := by
  refine Exec.wp_mono (Exec.wlp_preserves (Exec.wlp_and (setupkvm_spec h)
    (setupkvm_counted h hfirst))
    ((keeps_setupkvm L).preserves fun _ _ hmarks hh => (Memory.hole_of_marks hmarks).trans hh) hhole)
    ?_ fun _ _ hh => hh
  rintro r s' ⟨⟨howns, hcounted, hnone⟩, hhole'⟩
  refine ⟨hhole', hnone, ?_⟩
  rintro d rfl
  refine ⟨fun j hj => absurd hj (Nat.not_lt_zero j), ?_, howns.1, ?_⟩
  · rw [ExecFile.reached]
    decide
  · rw [ExecFile.reached, show pagesOf 0 = 0 by decide]
    exact (hcounted d rfl).supplied hhole'

/-! ## Programs whose pages are all mapped -/

/-- The stack is mapped unless a table is refused to it. -/
theorem makeStack_mapped {cur sz : ℕ} {argv : List (List UInt8)}
    (h : Owns L s plain (d ::ₘ rest)) (hs : Supplied s₀ d (pagesOf sz) s) (hsz : sz < kernbase) :
    Exec.wp (makeStack L cur d sz argv)
      (fun _ s' => s'.hole = false ↔ ((pagesOf sz + 2) * pgsize < kernbase →
        ¬TableRefused s₀ (pagesOf sz) (pagesOf sz + 2)))
      (fun _ s' => ((pagesOf sz + 2) * pgsize < kernbase →
        ¬TableRefused s₀ (pagesOf sz) (pagesOf sz + 2)) → s'.hole = false) s := by
  have htop : pagesOf sz * pgsize + 2 * pgsize = (pagesOf sz + 2) * pgsize :=
    (Nat.add_mul _ 2 pgsize).symm
  have hall : Exec.wp (allocuvm L d (pagesOf sz * pgsize) ((pagesOf sz + 2) * pgsize)) _ _ s :=
    allocuvm_supplied h (by rwa [pagesOf_mul])
  rw [pagesOf_mul, pagesOf_mul] at hall
  unfold makeStack
  rw [pgroundup_eq hsz, htop]
  refine Exec.wp_seq hall ?_ ?_
  · rintro top s₁ hs₁
    have hhole : s₁.hole = false ↔ ((pagesOf sz + 2) * pgsize < kernbase →
        ¬TableRefused s₀ (pagesOf sz) (pagesOf sz + 2)) := by
      rcases hs₁ with ⟨hlow, hhole, href⟩ | ⟨hhole, hnot, -⟩
      · rw [hhole]
        exact iff_of_false (by simp) fun hno => hno hlow href
      · exact iff_of_true hhole hnot
    split
    · exact Exec.wp_pure.mpr hhole
    · -- no page is mapped after that
      refine Exec.wp_mono (Exec.Keeps.wp (f := Memory.record) ?_) ?_ ?_
      · refine Exec.Keeps.bind (keeps_clearpteu _ _) fun _ => ?_
        refine Exec.Keeps.bind (keeps_pushArgs _ _ _ _ _) fun r => ?_
        rcases r with _ | ⟨sp, ptrs⟩
        · exact Exec.Keeps.pure
        · refine Exec.Keeps.bind (keeps_copyoutFrom _ _ _ _ _) fun ok => ?_
          cases ok with
          | false => exact Exec.Keeps.pure
          | true => exact Exec.Keeps.pure
      · intro _ s₂ hrec
        rwa [Memory.hole_of_record hrec]
      · intro _ s₂ hrec
        rw [Memory.hole_of_record hrec]
        exact hhole.mpr
  · rintro e s₁ (⟨hlow, -, href⟩ | hhole)
    · exact fun hno => absurd href (hno hlow)
    · exact fun _ => hhole

/-- Which tables a program that has been loaded still needs for its stack. -/
theorem ExecFile.getsTables_iff (hpass : ∀ i < elf.phnum, f.Passes elf i)
    (hmapped : ¬TableRefused s 0 (pagesOf (f.reached elf elf.phnum))) :
    f.GetsTables elf s ↔ ((pagesOf (f.reached elf elf.phnum) + 2) * pgsize < kernbase →
      ¬TableRefused s (pagesOf (f.reached elf elf.phnum))
        (pagesOf (f.reached elf elf.phnum) + 2)) := by
  constructor
  · rintro h hroom ⟨t, -, hhigh, hbefore, hrefused⟩
    rw [h t (Or.inr ⟨⟨hpass, hroom⟩, hhigh⟩) hbefore] at hrefused
    cases hrefused
  · intro hstack t hasks hbefore
    by_contra hrefused
    have hrefused := eq_false_of_ne_true hrefused
    by_cases hlow : 1024 * t < pagesOf (f.reached elf elf.phnum)
    · exact hmapped ⟨t, Nat.zero_le _, hlow, hbefore, hrefused⟩
    · rcases hasks with ⟨i, ph, hcomes, -, -, ht⟩ | ⟨hwhole, ht⟩
      · exact hlow (ht.trans_le (hcomes.pages_le hcomes.lt))
      · exact hstack hwhole.room ⟨t, by omega, ht, hbefore, hrefused⟩

/-- If `loaduvm` stores below the kernel, `exec` leaves a page unmapped exactly if `allocuvm` is
refused a page table. -/
theorem execImage_mapped {cur : ℕ} {argv : List (List UInt8)} (h : Owns L s plain rest)
    (hlow : ∀ elf, f.elfhdr = some elf → elf.magic = elfMagic → f.StoresLow elf s) :
    Exec.wp (execImage L cur f argv) (fun _ s' => s'.hole = false ↔ f.TablesGranted s)
      (fun _ s' => f.TablesGranted s → s'.hole = false) s := by
  have h₀ : Owns L { s with hole := false, trace := [], hole_starved := by simp } plain rest :=
    h.move (fun _ _ _ _ => rfl) rfl rfl
  unfold execImage
  refine Exec.wp_bind.mpr (Exec.wp_modify.mpr ?_)
  cases helf : f.elfhdr with
  | none =>
      refine Exec.wp_pure.mpr (iff_of_true rfl fun elf helf' => ?_)
      rw [helf] at helf'
      cases helf'
  | some elf =>
      have hone : f.TablesGranted s ↔ (elf.magic = elfMagic → f.GetsTables elf s) := by
        unfold ExecFile.TablesGranted
        rw [helf]
        simp
      simp only
      split
      · rename_i hmagic
        exact Exec.wp_pure.mpr (iff_of_true rfl (hone.mpr fun hm => absurd hm hmagic))
      · rename_i hmagic
        rw [not_not] at hmagic
        rw [hone, forall_prop_of_true hmagic]
        refine Exec.wp_seq (setupkvm_underway f elf h₀
          ((Asked.refl s).congr rfl rfl) rfl) ?_ fun _ _ hh _ => hh
        rintro (_ | d) s₁ ⟨hhole₁, hnone, hunder⟩
        · refine Exec.wp_pure.mpr (iff_of_true hhole₁ fun t _ hgrants => ?_)
          refine absurd (hgrants.mono ?_) (hnone rfl)
          unfold requests
          omega
        · have hoff : wrap32 (elf.phoff + 32 * 0) = elf.phoff :=
            wrap32_of_lt (f.phoff_lt helf)
          have hload := loadSegments_cases (I := fun _ _ => True) (J := fun _ _ => True)
            (Q := fun _ => True) (A := fun _ => True) (E := fun _ => True)
            (hlow elf helf hmagic) (fun _ _ _ _ _ _ => trivial) (fun _ _ _ _ _ => trivial)
            (fun _ _ s _ _ _ => Exec.wp_mono (Exec.wlp_of_forall (s := s) fun _ _ => trivial)
              (fun _ _ _ _ => ⟨fun _ => trivial, fun _ _ => trivial⟩) fun _ _ _ _ => trivial)
            (fun _ _ _ _ _ _ _ => Exec.wlp_of_forall fun _ _ =>
              ⟨fun _ => trivial, fun _ => trivial⟩)
            (Nat.zero_add elf.phnum) (hunder d rfl) trivial
          rw [hoff, ExecFile.reached] at hload
          have hfree : ∀ s' : Memory, (s'.hole = false ↔ f.GetsTables elf s) →
              Exec.wp (freevm L d >>= fun _ => pure (none : Option (ℕ × ℕ)))
                (fun _ s' => s'.hole = false ↔ f.GetsTables elf s)
                (fun _ s' => f.GetsTables elf s → s'.hole = false) s' := by
            intro s' hs'
            refine Exec.wp_mono (Exec.Keeps.bind (keeps_freevm L d) fun _ => Exec.Keeps.pure).wp ?_ ?_
            · intro _ s'' hrec
              rwa [Memory.hole_of_record hrec]
            · intro _ s'' hrec
              rw [Memory.hole_of_record hrec]
              exact hs'.mpr
          have hmiss : ∀ s' : Memory, s'.hole = true → ¬f.GetsTables elf s →
              (s'.hole = false ↔ f.GetsTables elf s) := by
            intro s' hhole hno
            rw [hhole]
            exact iff_of_false (by simp) hno
          refine Exec.wp_seq (Q := fun _ s' => s'.hole = false ↔ f.GetsTables elf s) ?_ ?_
            fun _ _ hh => hh
          · unfold fillImage
            refine Exec.wp_seq hload ?_ ?_
            · rintro r s₂ (⟨hhole, hno⟩ | ⟨hnone, hsome⟩)
              · cases r with
                | none => exact Exec.wp_pure.mpr (hmiss s₂ hhole hno)
                | some sz =>
                    exact Exec.wp_mono ((stays_makeStack L cur d sz argv).hole.wp hhole)
                      (fun _ s' hh => hmiss s' hh hno) fun _ s' hh => (hmiss s' hh hno).mpr
              · cases r with
                | none =>
                    obtain ⟨-, hhole₂, -, hgets⟩ := hnone rfl
                    exact Exec.wp_pure.mpr (iff_of_true hhole₂ hgets)
                | some sz =>
                    obtain ⟨rfl, hu, -⟩ := hsome sz rfl
                    have hgets := ExecFile.getsTables_iff hu.passed (hu.supplied.granted le_rfl)
                    rw [hgets]
                    exact makeStack_mapped hu.owns hu.supplied hu.size_lt
            · rintro e s₂ (⟨hhole, hno⟩ | ⟨hhole, -⟩)
              · exact (hmiss s₂ hhole hno).mpr
              · exact fun _ => hhole
          · rintro (_ | sz) s₂ hs₂
            · exact hfree s₂ hs₂
            · exact Exec.wp_pure.mpr hs₂

/-- The segments of a file of which none wraps around are stored below the kernel. -/
theorem ExecFile.NoWrap.storesLow (h : f.NoWrap) (helf : f.elfhdr = some elf) :
    f.StoresLow elf s := by
  intro i ph hloads _ u hu _ _
  have hfit := h elf helf i hloads.lt ph hloads.header hloads.loadable
  have hend := hloads.checked.end_lt
  have hle := hloads.checked.filesz_le
  rw [wrap32_of_lt hfit] at hend
  rw [wrap32_of_lt (by omega)]
  unfold kernbase at hend
  unfold kernbasePage pgsize
  omega

end Vm

end Xv6
