import Xv6.Vm.Stray

/-!
# What `loaduvm` stores into

`exec` passes `vaddr + memsz` of a segment to `allocuvm` and `vaddr` and `filesz`
to `loaduvm`.  The sum can wrap around, so the pages that are filled need not be
among those that were allocated.  They are if the data of every segment ends below
the size that the program has reached by then, and if `allocuvm` has mapped every
page; otherwise `loaduvm` stores wherever the entries it finds point to.
-/

namespace Xv6

namespace Vm

open Support

variable {L : Link} {s : Memory} {plain rest : Multiset ℕ} {d n v t j : ℕ}

/-- Every page stored into was obtained by `allocuvm` before. -/
def OwnLoads (s : Memory) : Prop :=
  ∀ m, .load m ∈ s.trace → .grant m ∈ s.trace

/-! ## Innocence -/

/-- Only own pages were stored into, unless a page was left unmapped. -/
def Innocent (s : Memory) : Prop :=
  s.hole = false → OwnLoads s

theorem Innocent.of_marks (s s' : Memory) (h : s'.marks = s.marks) (hs : Innocent s) :
    Innocent s' := by
  unfold Innocent OwnLoads
  rw [Memory.hole_of_marks h, Memory.trace_of_marks h]
  exact hs

theorem innocent_of_keeps {α : Type} {m : PageM α} (h : Exec.Keeps Memory.record m) :
    Exec.Preserves Innocent m :=
  h.preserves fun s s' hrec => Innocent.of_marks s s' (Memory.marks_of_record hrec)

theorem Innocent.grant (hs : Innocent s) : Innocent { s with trace := .grant n :: s.trace } := by
  intro hhole m hm
  rcases List.mem_cons.mp hm with heq | hm
  · cases heq
  · exact List.mem_cons_of_mem _ (hs hhole m hm)

theorem Innocent.noteMapped {ok : Bool} (hs : Innocent s) : Innocent (s.noteMapped ok) := by
  intro hhole
  apply hs
  simp only [Memory.noteMapped, Bool.or_eq_false_iff] at hhole
  exact hhole.1

theorem innocent_allocFrom (d k v : ℕ) : Exec.Preserves Innocent (allocFrom d k v) := by
  induction k generalizing v with
  | zero => exact Exec.Preserves.pure
  | succ k ih =>
      refine Exec.Preserves.bind (innocent_of_keeps keeps_kalloc) fun r => ?_
      cases r with
      | none => exact Exec.Preserves.pure
      | some n =>
          refine Exec.Preserves.bind (Exec.Preserves.modify fun s hs => hs.grant) fun _ => ?_
          refine Exec.Preserves.bind (innocent_of_keeps (keeps_setPage _ _)) fun _ => ?_
          refine Exec.Preserves.bind ((keeps_mappages _ _ _ _ _).preserves Innocent.of_marks)
            fun ok => ?_
          exact Exec.Preserves.bind (Exec.Preserves.modify fun s hs => hs.noteMapped) fun _ => ih _

theorem innocent_allocuvm (L : Link) (d oldsz newsz : ℕ) :
    Exec.Preserves Innocent (allocuvm L d oldsz newsz) := by
  unfold allocuvm
  split
  · exact Exec.Preserves.pure
  · split
    · exact Exec.Preserves.pure
    · refine Exec.Preserves.bind (innocent_allocFrom _ _ _) fun ok => ?_
      cases ok with
      | true => exact Exec.Preserves.pure
      | false =>
          exact Exec.Preserves.bind (innocent_of_keeps (keeps_deallocuvm _ _ _ _))
            fun _ => Exec.Preserves.pure

theorem innocent_makeStack (L : Link) (cur d sz : ℕ) (argv : List (List UInt8)) :
    Exec.Preserves Innocent (makeStack L cur d sz argv) := by
  unfold makeStack
  refine Exec.Preserves.bind (innocent_allocuvm _ _ _ _) fun top => ?_
  split
  · exact Exec.Preserves.pure
  · refine Exec.Preserves.bind (innocent_of_keeps (keeps_clearpteu _ _)) fun _ => ?_
    refine Exec.Preserves.bind (innocent_of_keeps (keeps_pushArgs _ _ _ _ _)) fun r => ?_
    cases r with
    | none => exact Exec.Preserves.pure
    | some r =>
        refine Exec.Preserves.bind (innocent_of_keeps (keeps_copyoutFrom _ _ _ _ _))
          fun b => ?_
        cases b with
        | false => exact Exec.Preserves.pure
        | true => exact Exec.Preserves.pure

/-! ## Loading -/

/-- The new program while its segments are loaded: its entries refer to pages
obtained in this call, and its first `m` pages are mapped unless one was left out. -/
structure Loading (L : Link) (s : Memory) (plain rest : Multiset ℕ) (d m : ℕ) : Prop where
  owns : Owns L s plain (d ::ₘ rest)
  granted : ∀ u < kernbasePage, Present (pteAt s.word d u) →
    .grant (ptePage (pteAt s.word d u)) ∈ s.trace
  full : s.hole = false → ∀ u < m, Present (pteAt s.word d u)

theorem allocFrom_loading {k : ℕ} (h : Loading L s plain rest d v) (hv : v + k ≤ kernbasePage) :
    Exec.wlp (allocFrom d k v) (fun r s' => r = true → Loading L s' plain rest d (v + k)) s := by
  induction k generalizing s v with
  | zero => exact Exec.wp_pure.mpr fun _ => h
  | succ k ih =>
      unfold allocFrom
      refine Exec.wlp_seq (Exec.wp_keeps (kalloc_spec h.owns) keeps_kalloc) ?_
      rintro (_ | n) s1 ⟨⟨h1, hword1, -⟩, hrec1⟩
      · exact Exec.wp_pure.mpr (by simp)
      · rw [handed, Multiset.singleton_add] at h1
        refine Exec.wp_bind.mpr (Exec.wp_modify.mpr ?_)
        have h2 : Owns L { s1 with trace := .grant n :: s1.trace } (n ::ₘ plain) (d ::ₘ rest) :=
          h1.move (fun _ _ _ _ => rfl) rfl rfl
        have hfresh : ∀ d' ∈ d ::ₘ rest, n ∉ skeleton s1.word d' := fun d' hd' =>
          Owns.notMem_skeleton (h2.plain_notMem (Multiset.mem_cons_self n plain) hd')
        refine Exec.wlp_seq (Exec.wp_keeps (setPage_spec h2 hfresh) (keeps_setPage _ _)) ?_
        rintro - s3 ⟨⟨h3, -, hother, -⟩, hrec3⟩
        have hpte3 : ∀ u < topPage, pteAt s3.word d u = pteAt s.word d u := by
          intro u hu
          rw [← hword1]
          exact (SameTables.of_page (hfresh d (Multiset.mem_cons_self d rest))
            hother).pteAt_eq hu
        have hvtop : v < topPage := kernbase_lt_top (by omega)
        refine Exec.wlp_seq (Exec.wp_keeps (Exec.wlp_and (mapOne_user h3 (by omega) (by decide))
          (mapOne_pteAt h3 hvtop)) (keeps_mappages _ _ _ _ _)) ?_
        rintro ok s4 ⟨⟨⟨-, h4⟩, hpte4⟩, hrec4⟩
        refine Exec.wp_bind.mpr (Exec.wp_modify.mpr ?_)
        have htrace : s4.trace = .grant n :: s.trace := by
          rw [Memory.trace_of_marks hrec4, Memory.trace_of_record hrec3]
          exact congrArg _ (Memory.trace_of_record hrec1)
        have hhole : s4.hole = s.hole := by
          have hhole1 := Memory.hole_of_record hrec1
          exact (Memory.hole_of_marks hrec4).trans ((Memory.hole_of_record hrec3).trans hhole1)
        have howns : Owns L s4 plain (d ::ₘ rest) := by
          split at h4
          · exact h4.1
          · exact h4.1.lose h4.2
        have h5 : Loading L (s4.noteMapped ok) plain rest d (v + 1) := by
          refine ⟨howns.move (fun _ _ _ _ => rfl) rfl rfl, ?_, ?_⟩
          · intro u hu hp
            change .grant (ptePage (pteAt s4.word d u)) ∈ s4.trace
            change Present (pteAt s4.word d u) at hp
            rw [hpte4 u (kernbase_lt_top hu)] at hp ⊢
            rw [htrace]
            split
            · rw [mkPte_page (by decide)]
              exact List.mem_cons_self
            · rename_i hne
              rw [if_neg hne, hpte3 u (kernbase_lt_top hu)] at hp
              rw [hpte3 u (kernbase_lt_top hu)]
              exact List.mem_cons_of_mem _ (h.granted u hu hp)
          · intro hfalse u hu
            change Present (pteAt s4.word d u)
            simp only [Memory.noteMapped, Bool.or_eq_false_iff, hhole] at hfalse
            have hok : ok = true := by
              by_contra hno
              rw [if_neg hno] at h4
              simp [hno, h4.2] at hfalse
            have hutop : u < topPage := kernbase_lt_top (by omega)
            rw [hpte4 u hutop]
            split
            · exact mkPte_present n pteWU
            · rename_i hne
              rw [hpte3 u hutop]
              refine h.full hfalse.1 u ?_
              have : u ≠ v := fun heq => hne ⟨heq, hok⟩
              omega
        refine Exec.wlp_mono (ih h5 (by omega)) ?_
        intro r s6 h6 hr
        rw [show v + (k + 1) = v + 1 + k by omega]
        exact h6 hr

theorem allocuvm_loading {oldsz newsz : ℕ} (h : Loading L s plain rest d (pagesOf oldsz))
    (hold : oldsz < kernbase) :
    Exec.wlp (allocuvm L d oldsz newsz) (fun r s' => r ≠ 0 → r = max oldsz newsz ∧
      r < kernbase ∧ Loading L s' plain rest d (pagesOf r)) s := by
  unfold allocuvm
  split
  · exact Exec.wp_pure.mpr (by simp)
  · split
    · refine Exec.wp_pure.mpr fun _ => ⟨by omega, hold, h⟩
    · have hpages : pagesOf oldsz + (pagesOf newsz - pagesOf oldsz) = pagesOf newsz := by
        unfold pagesOf pgsize
        omega
      refine Exec.wlp_seq (allocFrom_loading h (by
        rw [hpages]
        exact pagesOf_le (by omega))) ?_
      rintro (_ | _) s1 h1
      · refine Exec.wlp_seq (keeps_deallocuvm L d newsz oldsz).wlp ?_
        intro _ s2 _
        exact Exec.wp_pure.mpr (by simp)
      · refine Exec.wp_pure.mpr fun _ => ⟨by omega, by omega, ?_⟩
        rw [← hpages]
        exact h1 rfl

/-- Storing into a page of the new program. -/
theorem Loading.filled {m : ℕ} {ws : ℕ → ℕ} (h : Loading L s plain rest d m)
    (hs : Innocent s) (hm : m ≤ kernbasePage) (hvm : v < m) (hat : EntryAt s.word d v t j) :
    Loading L (s.filled (ptePage (s.word t j)) ws) plain rest d m ∧
      Innocent (s.filled (ptePage (s.word t j)) ws) := by
  have hv : v < kernbasePage := by omega
  have hsame : ∀ d' ∈ d ::ₘ rest,
      SameTables s.word (fillPage s.word (ptePage (s.word t j)) ws) d' := fun d' hd' =>
    SameTables.of_page (h.owns.entry_notMem hv hat d' hd') fun m hm => fillPage_other hm
  have hpte : ∀ u < topPage, pteAt (fillPage s.word (ptePage (s.word t j)) ws) d u =
      pteAt s.word d u := fun u hu => (hsame d (Multiset.mem_cons_self d rest)).pteAt_eq hu
  refine ⟨⟨h.owns.move hsame rfl rfl, ?_, ?_⟩, ?_⟩
  · intro u hu hp
    have hsameu : pteAt (s.filled (ptePage (s.word t j)) ws).word d u = pteAt s.word d u :=
      hpte u (kernbase_lt_top hu)
    rw [hsameu] at hp ⊢
    exact List.mem_cons_of_mem _ (h.granted u hu hp)
  · intro hhole u hu
    have hsameu : pteAt (s.filled (ptePage (s.word t j)) ws).word d u = pteAt s.word d u :=
      hpte u (kernbase_lt_top (by omega))
    rw [hsameu]
    exact h.full hhole u hu
  · intro hhole n hn
    have hgrant := h.granted v hv (h.full hhole v hvm)
    rw [hat.pteAt_eq] at hgrant
    rcases List.mem_cons.mp hn with heq | hn
    · obtain rfl := PageEvent.load.inj heq
      exact List.mem_cons_of_mem _ hgrant
    · exact List.mem_cons_of_mem _ (hs hhole n hn)

/-! ## Programs whose data is covered -/

variable {s₀ : Memory} {f : ExecFile} {elf : Elfhdr} {i : ℕ}

theorem loadSegments_loading {k : ℕ} (htables : f.GetsTables elf s₀)
    (hin : f.StoresInside elf s₀) (hk : i + k = elf.phnum)
    (hu : Underway L s₀ plain rest d f elf i s)
    (h : Loading L s plain rest d (pagesOf (f.reached elf i))) (hs : Innocent s) :
    Exec.wp (loadSegments L d f k (wrap32 (elf.phoff + 32 * i)) (f.reached elf i))
      (fun _ s' => Innocent s') (fun _ s' => Innocent s') s := by
  refine Exec.wp_mono (loadSegments_rule
    (I := fun i s => Loading L s plain rest d (pagesOf (f.reached elf i)) ∧ Innocent s)
    (J := fun i s => Loading L s plain rest d (pagesOf (f.reached elf (i + 1))) ∧ Innocent s)
    (Q := Innocent) (A := Innocent) (E := Innocent) htables hin.storesLow ?_
    (fun _ _ _ _ hI => hI.2) ?_ ?_ hk hu ⟨h, hs⟩) ?_ ?_
  · rintro i ph s hph htype ⟨h, hs⟩
    rw [reached_of_skipped hph htype]
    exact ⟨h, hs⟩
  · rintro i ph s hcomes hu ⟨h, hs⟩
    refine Exec.wp_mono (Exec.wlp_preserves (allocuvm_loading h hu.size_lt)
      (innocent_allocuvm _ _ _ _) hs) ?_ fun _ _ hs' _ => hs'
    rintro r s' ⟨hres, hs'⟩ -
    refine ⟨fun _ => hs', fun hne hr => ?_⟩
    rw [← hr]
    exact ⟨(hres hne).2.2, hs'⟩
  · rintro i ph s hloads howns hsupplied ⟨h, hs⟩
    have hm := pagesOf_le hloads.reached_lt.le
    refine Exec.wp_mono (loaduvm_supplied (I := fun s => Loading L s plain rest d
      (pagesOf (f.reached elf (i + 1))) ∧ Innocent s) howns hsupplied (f.off_lt hloads.header)
      (hin.storesLow i ph hloads) ?_ ⟨h, hs⟩) (fun ok s' hs' => ?_) fun _ s' hs' => ?_
    · rintro haddr s t j u ws hu hsize hwalk hat - - ⟨h, hs⟩
      have hpage := hin i ph hloads haddr u hu hsize hwalk
      rw [wrap32_of_page hm hpage] at hat
      exact h.filled hs hm hpage hat
    · obtain ⟨⟨-, -, h', hs'⟩, -⟩ := hs'
      exact ⟨fun _ => hs', fun _ => ⟨h', hs'⟩⟩
    · exact hs'.1.2.2.2
  · rintro (_ | sz) s' ⟨hnone, hsome⟩
    · exact (hnone rfl).1
    · exact (hsome sz rfl).2.2.2
  · rintro e s' ⟨-, hs' | hs'⟩
    · exact hs'
    · exact hs'.1

/-- Only own pages are stored into. -/
theorem execImage_loading {cur : ℕ} {argv : List (List UInt8)} (hcov : f.Covered s)
    (htables : f.TablesGranted s) (h : Owns L s plain rest) :
    Exec.wp (execImage L cur f argv) (fun _ s' => Innocent s') (fun _ s' => Innocent s') s := by
  unfold execImage
  have h0 : Owns L { s with hole := false, trace := [], hole_starved := by simp } plain rest :=
    h.move (fun _ _ _ _ => rfl) rfl rfl
  have hs0 : Innocent { s with hole := false, trace := [], hole_starved := by simp } :=
    fun _ m hm => by simp at hm
  refine Exec.wp_bind.mpr (Exec.wp_modify.mpr ?_)
  cases helf : f.elfhdr with
  | none => exact Exec.wp_pure.mpr hs0
  | some elf =>
      simp only
      split
      · exact Exec.wp_pure.mpr hs0
      · rename_i hmagic
        rw [not_not] at hmagic
        have hzero : f.reached elf 0 = 0 := by rw [ExecFile.reached]
        refine Exec.wp_seq (Exec.wp_and (setupkvm_underway f elf h0
          ((Asked.refl s).congr rfl rfl) rfl) (Exec.wlp_preserves (setupkvm_pteAt h0)
            ((keeps_setupkvm L).preserves Innocent.of_marks) hs0)) ?_ fun _ _ hE => hE.2
        rintro (_ | d) s1 ⟨⟨-, -, hunder⟩, hvacant, hs1⟩
        · exact Exec.wp_pure.mpr hs1
        · have hu := hunder d rfl
          have hload : Loading L s1 plain rest d (pagesOf (f.reached elf 0)) := by
            refine ⟨hu.owns, fun u hu hp => ?_, fun _ u hu => ?_⟩
            · rw [hvacant d rfl u hu] at hp
              simp [Present] at hp
            · rw [hzero, show pagesOf 0 = 0 by decide] at hu
              exact absurd hu (Nat.not_lt_zero u)
          have hsegs := loadSegments_loading (htables elf helf hmagic) (hcov elf helf hmagic)
            (Nat.zero_add elf.phnum) hu hload hs1
          rw [show wrap32 (elf.phoff + 32 * 0) = elf.phoff from wrap32_of_lt (f.phoff_lt helf),
            hzero] at hsegs
          refine Exec.wp_seq (Q := fun _ s' => Innocent s') ?_ ?_ fun _ _ hE => hE
          · unfold fillImage
            refine Exec.wp_seq hsegs ?_ fun _ _ hE => hE
            rintro (_ | sz) s2 hs2
            · exact Exec.wp_pure.mpr hs2
            · exact (innocent_makeStack L cur d sz argv).wp hs2
          · rintro (_ | sz) s2 hs2
            · exact (Exec.Preserves.bind (innocent_of_keeps (keeps_freevm L d))
                fun _ => Exec.Preserves.pure).wp hs2
            · exact Exec.wp_pure.mpr hs2

/-- What `exec` does after the image is made is not recorded. -/
theorem exec_of_image {k : Kernel} {p : Slot} {f : ExecFile} {argv : List (List UInt8)}
    {P : Memory → Prop} (hP : ∀ s s' : Memory, s'.record = s.record → P s → P s')
    (h : Exec.wp (execImage L (k.task p).pgdir f argv) (fun _ s' => P s') (fun _ s' => P s')
      k.mem) : P (exec L p f argv k).2.mem := by
  refine Exec.wp_end (P := fun k' : Kernel => P k'.mem) ?_
  unfold exec
  have hstart : Exec.wp (onMemory (execImage L (k.task p).pgdir f argv))
      (fun _ k' => P k'.mem) (fun _ k' => P k'.mem) k := Exec.wp_zoom.mpr h
  refine Exec.wp_bind.mpr (Exec.wp_gets.mpr (Exec.wp_seq hstart ?_ fun _ _ hE => hE))
  rintro (_ | ⟨d, sz⟩) k₁ hk₁
  · exact Exec.wp_pure.mpr hk₁
  · refine Exec.wp_bind.mpr (Exec.wp_modify.mpr (Exec.wp_zoom.mpr ?_))
    exact Exec.wp_mono (((keeps_freevm L ((k.task p).pgdir)).preserves hP).wp hk₁)
      (fun _ _ hs => hs) fun _ _ hs => hs

/-- In every state of a run in which `exec` gets its page tables, an `exec` that gets them, of a
file whose data is covered, stores only into pages that `allocuvm` has obtained for it; if all
stores go below the kernel, it does so for no other file. -/
theorem exec_loads_own_pages {k₀ k : Kernel} {ops : List Op} {p : Slot} {f : ExecFile}
    {argv : List (List UInt8)} {fails : List Bool} (hboot : Booted L k₀)
    (hrun : Run (MappedStep L) (fun _ => True) k₀ ops k)
    (hp : (k.task p).state ≠ .unused ∧ (k.task p).state ≠ .zombie)
    (htables : f.TablesGranted (k.withFails fails).mem) :
    (f.Covered (k.withFails fails).mem →
      OwnLoads (exec L p f argv (k.withFails fails)).2.mem) ∧
    ((∀ elf, f.elfhdr = some elf → elf.magic = elfMagic →
        f.StoresLow elf (k.withFails fails).mem) →
      OwnLoads (exec L p f argv (k.withFails fails)).2.mem →
      f.Covered (k.withFails fails).mem) := by
  have howns := ((sound_of_mapped_run hboot hrun).live hp.1).owns.withFails fails
  constructor
  · intro hcov
    have himage : Exec.wp (execImage L ((k.withFails fails).task p).pgdir f argv)
        (fun _ s' => Innocent s' ∧ s'.hole = false) (fun _ s' => Innocent s' ∧ s'.hole = false)
        (k.withFails fails).mem := by
      refine Exec.wp_mono (Exec.wp_and (execImage_loading hcov htables howns)
        (execImage_mapped howns fun elf helf hmagic => (hcov elf helf hmagic).storesLow)) ?_ ?_
      · exact fun _ _ hs => ⟨hs.1, hs.2.mpr htables⟩
      · exact fun _ _ hs => ⟨hs.1, hs.2 htables⟩
    have hend := exec_of_image (fun s s' hrec hs => ⟨Innocent.of_marks s s'
      (Memory.marks_of_record hrec) hs.1, (Memory.hole_of_record hrec).trans hs.2⟩) himage
    exact hend.1 hend.2
  · intro hlow hown
    by_contra hcov
    have himage : Exec.wp (execImage L ((k.withFails fails).task p).pgdir f argv)
        (fun _ s' => Strayed s') (fun _ s' => Strayed s') (k.withFails fails).mem :=
      execImage_strays (by rwa [zero_add]) htables hlow hcov
    have hend := exec_of_image (fun _ _ hrec hs => hs.later (.of_record hrec)) himage
    exact hend.unobtained (hown 0 hend.stored)

/-! ## Two programs of one segment

The file ends before the page that is to be loaded. -/

/-- A segment of one page. -/
def plainFile : ExecFile := segmentFile [0, 0, 0, 0] [0, 16, 0, 0] [0, 16, 0, 0]

/-- A segment at the address 8192 whose end wraps around to the address 4096. -/
def wrapFile : ExecFile := segmentFile [0, 32, 0, 0] [0, 16, 0, 0] [0, 240, 255, 255]

/-- What the two files have in common. -/
structure OneSegment (f : ExecFile) (vaddr memsz : ℕ) : Prop where
  header : f.elfhdr = some ⟨elfMagic, 52, 1⟩
  segment : f.proghdr 52 = some ⟨1, 0, vaddr, 4096, memsz⟩
  size : f.size = 84
  fits : 4096 ≤ memsz
  ends : wrap32 (vaddr + memsz) = 4096
  aligned : vaddr % pgsize = 0
  first : vaddr / pgsize < 1024

theorem plainFile_segment : OneSegment plainFile 0 4096 :=
  ⟨by decide +kernel, by decide +kernel, rfl, by decide, by decide, by decide, by decide⟩

theorem wrapFile_segment : OneSegment wrapFile 8192 4294963200 :=
  ⟨by decide +kernel, by decide +kernel, rfl, by decide, by decide, by decide, by decide⟩

theorem OneSegment.only {f : ExecFile} {vaddr memsz i : ℕ} {elf : Elfhdr} {ph : Proghdr}
    (hf : OneSegment f vaddr memsz) (helf : f.elfhdr = some elf) (hi : i < elf.phnum)
    (hph : f.proghdr (wrap32 (elf.phoff + 32 * i)) = some ph) :
    elf = ⟨elfMagic, 52, 1⟩ ∧ i = 0 ∧ ph = ⟨1, 0, vaddr, 4096, memsz⟩ := by
  rw [hf.header] at helf
  obtain rfl := Option.some.inj helf
  obtain rfl : i = 0 := by
    have : i < 1 := hi
    omega
  rw [show wrap32 (52 + 32 * 0) = 52 by decide, hf.segment] at hph
  exact ⟨rfl, rfl, (Option.some.inj hph).symm⟩

/-- The data goes wherever the entry found for its address points. -/
theorem OneSegment.can_loaduvm {f : ExecFile} {vaddr memsz : ℕ} (hf : OneSegment f vaddr memsz)
    (hp : Present (s.word d 0)) :
    Can (loaduvm d vaddr f 0 4096) (fun r s' => r = false ∧ s'.hole = s.hole ∧
      s'.trace = .load (ptePage (pteAt s.word d (vaddr / pgsize))) :: s.trace) s := by
  have hdiv : vaddr / pgsize / npentries = 0 := by
    refine Nat.div_eq_of_lt ?_
    unfold npentries
    exact hf.first
  have hpv : Present (s.word d (vaddr / pgsize / npentries)) := by rwa [hdiv]
  have hpage : wrap32 (vaddr + 0) / pgsize = vaddr / pgsize := by
    have := hf.first
    rw [wrap32_of_lt (by unfold pgsize at this; omega), add_zero]
  have hcount : readCount f.size (wrap32 (0 + 0)) (min (4096 - 0) pgsize) = some (83 + 1) := by
    rw [hf.size]
    decide
  unfold loaduvm
  rw [if_neg (not_not.mpr hf.aligned), show pagesOf 4096 = 1 by decide]
  unfold loadFrom
  rw [hpage, pteAt, if_pos hpv]
  refine can_walk_false ?_
  rw [if_pos hpv]
  refine Exec.can_gets (fun _ => rfl) ?_
  refine Exec.can_bind (Q := fun r s' => r = false ∧ s'.hole = s.hole ∧ s'.trace =
    .load (ptePage (s.word (ptePage (s.word d (vaddr / pgsize / npentries)))
      (vaddr / pgsize % npentries))) :: s.trace) ?_ ?_
  · unfold readPage
    rw [hcount]
    refine Exec.can_bind (Q := fun _ s' => s'.hole = s.hole ∧ s'.trace = s.trace) ?_ ?_
    · exact Exec.can_gets (fun _ => rfl) (Exec.can_modify_last (fun _ => rfl) ⟨rfl, rfl⟩)
    · rintro - s1 ⟨hhole, htrace⟩
      refine Exec.can_modify (fun _ => rfl) (Exec.can_pure ⟨by decide, hhole, ?_⟩)
      exact congrArg _ htrace
  · rintro _ s1 ⟨rfl, hs1⟩
    exact Exec.can_pure ⟨rfl, hs1⟩

/-- The pages that the call obtains and stores into, if the data of the page `v` is
loaded: the entry of that page is the one after `allocuvm` has returned. -/
structure Loaded (L : Link) (s : Memory) (v : ℕ) : Prop where
  mapped : s.hole = false
  trace : ∃ n ∈ allPages L, ∃ m, s.trace = [.load m, .grant n] ∧ (1 ≤ v → m = 0)

theorem Loaded.of_record (s s' : Memory) (h : s'.record = s.record) (hs : Loaded L s v) :
    Loaded L s' v := by
  refine ⟨?_, ?_⟩
  · rw [Memory.hole_of_record h]
    exact hs.mapped
  · rw [Memory.trace_of_record h]
    exact hs.trace

/-- Nothing is mapped above the page that `allocuvm` has mapped. -/
theorem Building.pteAt_eq_zero {P B keep : ℕ → Prop} {held : ℕ → ℕ → ℕ} {lo spare : ℕ}
    (h : Building L s plain rest d lo spare P B keep held) (hv : v < topPage) (hP : P v) :
    pteAt s.word d v = 0 := by
  unfold pteAt
  split
  · rename_i hp
    have hwf := h.owns.wellFormed d (Multiset.mem_cons_self d rest)
    have hmod : v % npentries < npentries := Nat.mod_lt _ (by unfold npentries; omega)
    rcases hwf.clean _ (dirIndex_lt hv) hp _ hmod with hbad | hzero
    · exact absurd hbad (h.vacant v hv hP hp)
    · exact hzero
  · rfl

/-- The call of `exec` gives up at the end of the file. -/
theorem OneSegment.can_loadSegments {f : ExecFile} {vaddr memsz : ℕ} {held : ℕ → ℕ → ℕ}
    (hf : OneSegment f vaddr memsz)
    (h : Building L s plain rest d 0 1 (fun u => u < kernbasePage)
      (fun i => i < userEntries) (fun _ => False) held)
    (htrace : s.trace = []) (hhole : s.hole = false) :
    Can (loadSegments L d f 1 52 0) (fun r s' => r = none ∧ Loaded L s' (vaddr / pgsize) ∧
      Owns L s' plain (d ::ₘ rest)) s := by
  have h1 : Building L s plain rest d 0 (0 + 1) (fun u => 0 ≤ u ∧ u < kernbasePage)
      (fun _ => False) (fun _ => False) held :=
    (h.mono fun u hu => hu.2).bare_mono fun i hi => hi.elim
  have hfirst : vaddr / pgsize < kernbasePage := by
    have := hf.first
    unfold kernbasePage
    omega
  unfold loadSegments
  rw [hf.segment]
  simp only [ne_eq, not_true_eq_false, if_false]
  rw [if_neg (by have := hf.fits; omega), hf.ends]
  refine Exec.can_bind (Q := fun r s' => r = 4096 ∧ s'.hole = false ∧
    (∃ n ∈ allPages L, s'.trace = [.grant n]) ∧ Present (s'.word d 0) ∧
    Building L s' plain rest d 0 0 (fun u => 0 + 1 ≤ u ∧ u < kernbasePage) (fun _ => False)
      (fun _ => False) held) ?_ ?_
  · unfold allocuvm
    rw [if_neg (by decide), if_neg (by decide), show pagesOf 4096 - pagesOf 0 = 0 + 1 by decide,
      show pagesOf 0 = 0 by decide]
    refine Exec.can_bind (Q := fun r s' => r = true ∧ s'.hole = false ∧
      (∃ n ∈ allPages L, s'.trace = [.grant n]) ∧ Present (s'.word d 0) ∧
      Building L s' plain rest d 0 0 (fun u => 0 + 1 ≤ u ∧ u < kernbasePage) (fun _ => False)
        (fun _ => False) held) ?_ ?_
    · refine can_allocOne h1 (by decide) (fun hf => hf) ?_
      intro s' n hn hb htr hho hp _
      rw [Nat.zero_div] at hp
      exact Exec.can_pure ⟨rfl, hho.trans hhole, ⟨n, hn, by rw [htr, htrace]⟩, hp, hb⟩
    · rintro _ s2 ⟨rfl, hs2⟩
      exact Exec.can_pure ⟨rfl, hs2⟩
  · rintro _ s2 ⟨rfl, hhole2, ⟨n, hn, htrace2⟩, hp, hb⟩
    rw [if_neg (by decide)]
    have hload : ∀ cs, Exec.wlp (loaduvm d vaddr f 0 4096)
        (fun _ s' => Owns L s' plain (d ::ₘ rest)) (s2.withFails cs) := by
      refine fun cs => Exec.wlp_mono (loaduvm_spec (hb.owns.withFails cs) ?_) fun _ _ hs => hs.1
      have := hf.first
      unfold pgsize at this
      unfold kernbase
      omega
    refine Exec.can_bind (Exec.can_wlp (hf.can_loaduvm hp) hload) ?_
    rintro _ s3 ⟨⟨rfl, hhole3, htrace3⟩, -, ds, howns⟩
    refine Exec.can_pure ⟨rfl, ⟨hhole3.trans hhole2, n, hn, _, by rw [htrace3, htrace2], ?_⟩,
      howns.of_withFails⟩
    intro hle
    rw [hb.pteAt_eq_zero (kernbase_lt_top hfirst) ⟨hle, hfirst⟩]
    exact Nat.zero_div pgsize

theorem OneSegment.may_execImage {f : ExecFile} {vaddr memsz : ℕ} {ns : List ℕ} {c : ℕ}
    {argv : List (List UInt8)} (hf : OneSegment f vaddr memsz) (h : Owns L s plain rest)
    (hfree : s.freelist = d :: ns) (hroom : 2000 ≤ ns.length) :
    Exec.may Memory.withFails (execImage L c f argv)
      (fun r s' => r = none ∧ Loaded L s' (vaddr / pgsize)) (fun _ _ => False) s := by
  have h0 : Owns L { s with hole := false, trace := [], hole_starved := by simp } plain rest :=
    h.move (fun _ _ _ _ => rfl) rfl rfl
  unfold execImage
  refine Exec.may_modify (fun _ => rfl) ?_
  rw [hf.header]
  simp only [ne_eq, not_true_eq_false, if_false]
  have hsetup : Can (setupkvm L) (fun r s' => r = some d ∧
      Building L s' plain rest d 0 1 (fun u => u < kernbasePage) (fun i => i < userEntries)
        (fun _ => False) s.word ∧ s'.starved = s.starved)
      { s with hole := false, trace := [], hole_starved := by simp } :=
    can_setupkvm 0 1 _ _ h0 hfree (Nat.zero_le _) (by unfold npentries; omega) fun x hx => hx.elim
  refine Exec.may_bind (Exec.can_wlp hsetup fun cs => (keeps_setupkvm L).wlp) ?_
  rintro _ s1 ⟨⟨rfl, h1, -⟩, _, _, hrec⟩
  have hfill : Can (fillImage L c d f ⟨elfMagic, 52, 1⟩ argv)
      (fun r s' => r = none ∧ Loaded L s' (vaddr / pgsize) ∧ Owns L s' plain (d ::ₘ rest)) s1 := by
    unfold fillImage
    refine Exec.can_bind (hf.can_loadSegments h1 (Memory.trace_of_marks hrec)
      (Memory.hole_of_marks hrec)) ?_
    rintro _ s2 ⟨rfl, hs2⟩
    exact Exec.can_pure ⟨rfl, hs2⟩
  refine Exec.may_bind hfill ?_
  rintro _ s2 ⟨rfl, hs2, howns⟩
  refine ⟨[], Exec.wp_seq (Exec.wp_keeps (freevm_spec (howns.withFails []))
    (keeps_freevm L d)) ?_ fun _ _ hE => hE⟩
  rintro - s3 ⟨-, hrec3⟩
  exact Exec.wp_pure.mpr ⟨rfl, Loaded.of_record s2 s3 hrec3 hs2⟩

/-- After boot such a program can be run up to the end of its file. -/
theorem OneSegment.exists_exec {f : ExecFile} {vaddr memsz : ℕ} (hf : OneSegment f vaddr memsz) :
    ∃ k p fails k', Booted smallLink k ∧
      ((k.task p).state ≠ .unused ∧ (k.task p).state ≠ .zombie) ∧
      exec smallLink p f [] (k.withFails fails) = (.ok (), k') ∧
      Loaded smallLink k'.mem (vaddr / pgsize) := by
  obtain ⟨k, p, hboot, hready⟩ := exists_ready
  have halive : (k.task p).state ≠ .unused ∧ (k.task p).state ≠ .zombie := by
    rw [hready.alive]
    decide
  have hlen := hready.room
  obtain ⟨e, ns, hfree⟩ := List.exists_cons_of_length_pos (l := k.mem.freelist) (by omega)
  rw [hfree, List.length_cons] at hlen
  obtain ⟨fails, himage⟩ : Exec.may Memory.withFails
      (execImage smallLink (k.task p).pgdir f []) _ _ k.mem :=
    hf.may_execImage ((booted_sound hboot).live halive.1).owns hfree (by omega)
  have hexec : Exec.total (exec smallLink p f [])
      (fun _ k' => Loaded smallLink k'.mem (vaddr / pgsize)) (k.withFails fails) := by
    unfold exec
    have hstart : Exec.total (onMemory (execImage smallLink (k.task p).pgdir f []))
        (fun r k' => r = none ∧ Loaded smallLink k'.mem (vaddr / pgsize)) (k.withFails fails) :=
      Exec.wp_zoom.mpr himage
    refine Exec.wp_bind.mpr (Exec.wp_gets.mpr (Exec.wp_seq hstart ?_ fun _ _ hE => hE))
    rintro _ k₁ ⟨rfl, hk₁⟩
    exact Exec.wp_pure.mpr hk₁
  obtain ⟨_, k', hrun, hload⟩ := Exec.wp_total hexec
  exact ⟨k, p, fails, k', hboot, halive, hrun, hload⟩

theorem plainFile_covered (s : Memory) : plainFile.Covered s := by
  intro elf helf _ i ph hloads _ u hu _ _
  obtain ⟨rfl, rfl, rfl⟩ := plainFile_segment.only helf hloads.lt hloads.header
  rw [reached_of_loaded hloads.header rfl, ExecFile.reached]
  simp only at hu ⊢
  rw [show pagesOf (max 0 (wrap32 (0 + 4096))) = 1 by decide]
  unfold pgsize
  omega

theorem exec_loads_own_pages_plainFile : ∃ k p fails, Booted smallLink k ∧
    ((k.task p).state ≠ .unused ∧ (k.task p).state ≠ .zombie) ∧
    plainFile.TablesGranted (k.withFails fails).mem ∧
    (∃ m, .load m ∈ (exec smallLink p plainFile [] (k.withFails fails)).2.mem.trace) ∧
    OwnLoads (exec smallLink p plainFile [] (k.withFails fails)).2.mem := by
  obtain ⟨k, p, fails, k', hboot, halive, hrun, hmapped, n, -, m, htrace, -⟩ :=
    plainFile_segment.exists_exec
  have hcov := plainFile_covered (k.withFails fails).mem
  have htables : plainFile.TablesGranted (k.withFails fails).mem :=
    (Exec.wp_ok (exec_mapped ((booted_sound hboot).withFails fails) halive.1
      fun elf helf hmagic => (hcov elf helf hmagic).storesLow) hrun).mp hmapped
  refine ⟨k, p, fails, hboot, halive, htables, ⟨m, ?_⟩, ?_⟩
  · rw [hrun]
    simp [htrace]
  · exact (exec_loads_own_pages hboot (.nil trivial) halive htables).1 hcov

/-- After boot, an `exec` stores into a page that was never obtained for it. -/
theorem exec_loads_stray_page : ∃ k p fails, Booted smallLink k ∧
    ((k.task p).state ≠ .unused ∧ (k.task p).state ≠ .zombie) ∧ wrapFile.Aligned ∧
    ¬OwnLoads (exec smallLink p wrapFile [] (k.withFails fails)).2.mem := by
  obtain ⟨k, p, fails, k', hboot, halive, hrun, -, n, hn, m, htrace, hm⟩ :=
    wrapFile_segment.exists_exec
  refine ⟨k, p, fails, hboot, halive, ?_, fun hown => ?_⟩
  · intro elf helf i hi ph hph _
    obtain ⟨-, -, rfl⟩ := wrapFile_segment.only helf hi hph
    decide
  · obtain rfl := hm (by decide)
    rw [hrun] at hown
    have hgrant := hown 0 (by simp [htrace])
    rw [htrace] at hgrant
    have hzero : n = 0 := by simpa [eq_comm] using hgrant
    have hlow := (mem_allPages.mp hn).1
    have htext := smallLink.text_lt
    have hdata := smallLink.data_le
    omega

end Vm

end Xv6
