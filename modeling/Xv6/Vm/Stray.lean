import Xv6.Vm.ExecCall

/-!
# Segments that wrap around

`exec` makes room up to the end of a segment, a sum that may have wrapped around, and `loaduvm`
starts at `vaddr`.  If the page there is above all that the program has reached, but below the
kernel, and a table for it exists, its entry is empty.  `loaduvm` takes that for an entry of the
physical page 0, which is never on the free list, and stores there.
-/

namespace Xv6

namespace Vm

open Support

variable {L : Link} {s s' s'' s₀ : Memory} {plain rest : Multiset ℕ} {d m n v t j : ℕ}
  {w₀ : ℕ → ℕ → ℕ} {c : ℕ → UInt8} {f : ExecFile} {elf : Elfhdr} {i : ℕ} {ph : Proghdr}

/-! ## What is recorded -/

/-- From `s` to `s'` nobody has obtained the page 0. -/
def Later (s s' : Memory) : Prop :=
  ∃ es : List PageEvent, s'.trace = es ++ s.trace ∧ .grant 0 ∉ es

theorem Later.of_trace (h : s'.trace = s.trace) : Later s s' :=
  ⟨[], h, by simp⟩

theorem Later.of_record (h : s'.record = s.record) : Later s s' :=
  .of_trace (Memory.trace_of_record h)

theorem Later.of_marks (h : s'.marks = s.marks) : Later s s' :=
  .of_trace (Memory.trace_of_marks h)

theorem Later.trans (h : Later s s') (h' : Later s' s'') : Later s s'' := by
  obtain ⟨es, htrace, hes⟩ := h
  obtain ⟨es', htrace', hes'⟩ := h'
  refine ⟨es' ++ es, ?_, ?_⟩
  · rw [htrace', htrace, List.append_assoc]
  · rw [List.mem_append, not_or]
    exact ⟨hes', hes⟩

theorem Later.grant (hn : n ≠ 0) : Later s { s with trace := .grant n :: s.trace } := by
  refine ⟨[.grant n], rfl, ?_⟩
  rw [List.mem_singleton]
  exact fun heq => hn (PageEvent.grant.inj heq).symm

theorem Later.filled (s : Memory) (n : ℕ) (ws : ℕ → ℕ) : Later s (s.filled n ws) :=
  ⟨[.load n], rfl, by simp⟩

/-- `loaduvm` has stored into the page 0, which nobody has obtained. -/
structure Strayed (s : Memory) : Prop where
  stored : .load 0 ∈ s.trace
  unobtained : .grant 0 ∉ s.trace

theorem Later.unobtained (h : Later s s') (hs : .grant 0 ∉ s.trace) : .grant 0 ∉ s'.trace := by
  obtain ⟨es, htrace, hes⟩ := h
  rw [htrace, List.mem_append, not_or]
  exact ⟨hes, hs⟩

theorem Strayed.later (hs : Strayed s) (h : Later s s') : Strayed s' := by
  refine ⟨?_, h.unobtained hs.unobtained⟩
  obtain ⟨es, htrace, -⟩ := h
  rw [htrace]
  exact List.mem_append_right _ hs.stored

theorem ne_zero_of_mem_allPages (hn : n ∈ allPages L) : n ≠ 0 := by
  have hlow := (mem_allPages.mp hn).1
  have htext := L.text_lt
  have hdata := L.data_le
  omega

theorem allocFrom_later {k : ℕ} (h : Owns L s plain (d ::ₘ rest)) (hv : v + k ≤ kernbasePage) :
    Exec.wp (allocFrom d k v) (fun _ s' => Later s s') (fun _ s' => Later s s') s := by
  induction k generalizing s v with
  | zero => exact Exec.wp_pure.mpr (.of_trace rfl)
  | succ k ih =>
      unfold allocFrom
      refine Exec.wp_seq (Exec.wp_and (kalloc_spec h) keeps_kalloc.wp) ?_
        fun _ _ hE => .of_record hE.2
      rintro (_ | n) s₁ ⟨⟨h₁, -⟩, hrec₁⟩
      · exact Exec.wp_pure.mpr (.of_record hrec₁)
      · rw [handed, Multiset.singleton_add] at h₁
        have hlater₁ : Later s s₁ := .of_record hrec₁
        have hlater₂ := hlater₁.trans (.grant (ne_zero_of_mem_allPages
          (h₁.mem_allPages_of_plain (Multiset.mem_cons_self n plain))))
        refine Exec.wp_bind.mpr (Exec.wp_modify.mpr ?_)
        have h₂ : Owns L { s₁ with trace := .grant n :: s₁.trace } (n ::ₘ plain) (d ::ₘ rest) :=
          h₁.move (fun _ _ _ _ => rfl) rfl rfl
        have hfresh : ∀ d' ∈ d ::ₘ rest, n ∉ skeleton s₁.word d' := fun d' hd' =>
          Owns.notMem_skeleton (h₂.plain_notMem (Multiset.mem_cons_self n plain) hd')
        refine Exec.wp_seq (Exec.wp_and (setPage_spec h₂ hfresh) (keeps_setPage _ _).wp) ?_
          fun _ _ hE => hlater₂.trans (.of_record hE.2)
        rintro - s₃ ⟨⟨h₃, -⟩, hrec₃⟩
        have hlater₃ := hlater₂.trans (.of_record hrec₃)
        refine Exec.wp_seq (Exec.wp_and (mapOne_user h₃ (by omega) (by decide))
          (keeps_mappages _ _ _ _ _).wp) ?_ fun _ _ hE => hlater₃.trans (.of_marks hE.2)
        rintro ok s₄ ⟨⟨-, h₄⟩, hmarks₄⟩
        have hlater₄ : Later s (s₄.noteMapped ok) :=
          (hlater₃.trans (.of_marks hmarks₄)).trans (.of_trace rfl)
        have howns : Owns L s₄ plain (d ::ₘ rest) := by
          split at h₄
          · exact h₄.1
          · exact h₄.1.lose h₄.2
        refine Exec.wp_bind.mpr (Exec.wp_modify.mpr (Exec.wp_mono
          (ih (howns.move (fun _ _ _ _ => rfl) rfl rfl) (by omega)) ?_ ?_))
        · exact fun _ _ hlater => hlater₄.trans hlater
        · exact fun _ _ hlater => hlater₄.trans hlater

theorem allocuvm_later {oldsz newsz : ℕ} (h : Owns L s plain (d ::ₘ rest)) :
    Exec.wp (allocuvm L d oldsz newsz) (fun _ s' => Later s s') (fun _ s' => Later s s') s := by
  unfold allocuvm
  split
  · exact Exec.wp_pure.mpr (.of_trace rfl)
  · split
    · exact Exec.wp_pure.mpr (.of_trace rfl)
    · have hpages : pagesOf oldsz + (pagesOf newsz - pagesOf oldsz) ≤ kernbasePage := by
        unfold pagesOf kernbasePage kernbase pgsize at *
        omega
      refine Exec.wp_seq (allocFrom_later h hpages) ?_ fun _ _ hlater => hlater
      rintro (_ | _) s₁ hlater
      · refine Exec.wp_seq (keeps_deallocuvm L d newsz oldsz).wp ?_
          fun _ _ hrec => hlater.trans (.of_record hrec)
        intro _ s₂ hrec
        exact Exec.wp_pure.mpr (hlater.trans (.of_record hrec))
      · exact Exec.wp_pure.mpr hlater

theorem makeStack_later {cur sz : ℕ} {argv : List (List UInt8)}
    (h : Owns L s plain (d ::ₘ rest)) :
    Exec.wp (makeStack L cur d sz argv) (fun _ s' => Later s s') (fun _ s' => Later s s') s := by
  unfold makeStack
  refine Exec.wp_seq (allocuvm_later h) ?_ fun _ _ hlater => hlater
  intro top s₁ hlater
  split
  · exact Exec.wp_pure.mpr hlater
  · -- nothing is recorded after that
    refine Exec.wp_mono (Exec.Keeps.wp (f := Memory.record) ?_)
      (fun _ _ hrec => hlater.trans (.of_record hrec)) fun _ _ hrec => hlater.trans (.of_record hrec)
    refine Exec.Keeps.bind (keeps_clearpteu _ _) fun _ => ?_
    refine Exec.Keeps.bind (keeps_pushArgs _ _ _ _ _) fun r => ?_
    rcases r with _ | ⟨sp, ptrs⟩
    · exact Exec.Keeps.pure
    · refine Exec.Keeps.bind (keeps_copyoutFrom _ _ _ _ _) fun ok => ?_
      cases ok with
      | false => exact Exec.Keeps.pure
      | true => exact Exec.Keeps.pure

theorem strayed_of_keeps {α : Type} {m : PageM α} (h : Exec.Keeps Memory.record m) :
    Exec.Preserves Strayed m :=
  h.preserves fun _ _ hrec hs => hs.later (.of_record hrec)

theorem strayed_readPage (f : ExecFile) (n off b : ℕ) :
    Exec.Preserves Strayed (readPage f n off b) := by
  unfold readPage
  split
  · exact Exec.Preserves.pure
  · exact Exec.Preserves.pure
  · refine Exec.Preserves.bind (strayed_of_keeps (keeps_copyTo _ _ _)) fun _ => ?_
    refine Exec.Preserves.bind (Exec.Preserves.modify fun s hs => ?_) fun _ => Exec.Preserves.pure
    exact ⟨List.mem_cons_of_mem _ hs.stored, by simpa using hs.unobtained⟩

theorem strayed_loadFrom (d : ℕ) (f : ExecFile) (addr off sz k i : ℕ) :
    Exec.Preserves Strayed (loadFrom d f addr off sz k i) := by
  induction k generalizing i with
  | zero => exact Exec.Preserves.pure
  | succ k ih =>
      refine Exec.Preserves.bind (strayed_of_keeps (keeps_lookup _ _)) fun r => ?_
      cases r with
      | none => exact Exec.Preserves.throw
      | some e =>
          refine Exec.Preserves.bind Exec.Preserves.gets fun pte => ?_
          refine Exec.Preserves.bind (strayed_readPage _ _ _ _) fun ok => ?_
          cases ok with
          | false => exact Exec.Preserves.pure
          | true => exact ih _

/-! ## Storing below the kernel -/

/-- A store below the kernel goes to a page of the program or to the page 0. -/
theorem Built.stored_below (ws : ℕ → ℕ) (h : Built L w₀ plain d m c s) (hm : m ≤ kernbasePage)
    (hv : v < kernbasePage) (hat : EntryAt s.word d v t j) :
    ∃ c', Built L w₀ plain d m c' (s.filled (ptePage (s.word t j)) ws) := by
  have hpte := hat.pteAt_eq
  by_cases hvm : v < m
  · exact ⟨_, h.store ws hm hvm _ (by rw [hpte]; rfl) rfl rfl⟩
  · have hzero : ptePage (s.word t j) = 0 := by
      rw [← hpte, h.above v (not_lt.mp hvm) hv]
      exact Nat.zero_div _
    have hsame : SameTables s.word (fillPage s.word (ptePage (s.word t j)) ws) d :=
      SameTables.of_page (h.owns.entry_notMem hv hat d (Multiset.mem_cons_self d 0))
        fun _ hx => fillPage_other hx
    have hall : ∀ u < kernbasePage,
        pteAt (fillPage s.word (ptePage (s.word t j)) ws) d u = pteAt s.word d u :=
      fun u hu => hsame.pteAt_eq (kernbase_lt_top hu)
    refine ⟨c, ?_, ?_, fun u hu => ?_, fun u hu => ?_, fun u hlow hhigh => ?_, fun a ha => ?_⟩
    · refine h.owns.move (fun d' hd' => ?_) rfl rfl
      obtain rfl : d' = d := by simpa using hd'
      exact hsame
    · intro n hn
      refine (fillPage_other ?_).trans (h.frame n hn)
      rw [hzero]
      exact ne_zero_of_mem_allPages (h.owns.mem_allPages_of_plain hn)
    · change Present (fillPage s.word (ptePage (s.word t j)) ws d (u / npentries))
      rw [hsame.dir]
      exact h.kernel u hu
    · change ∃ n, pteAt (fillPage s.word (ptePage (s.word t j)) ws) d u = mkPte n pteWU
      rw [hall u (by omega)]
      exact h.below u hu
    · change pteAt (fillPage s.word (ptePage (s.word t j)) ws) d u = 0
      rw [hall u hhigh]
      exact h.above u hlow hhigh
    · have hu : a / pgsize < m := (Nat.div_lt_iff_lt_mul (by decide)).mpr ha
      obtain ⟨t', j', hat', heq⟩ := exists_entryAt (h.present hu)
      change userByte (fillPage s.word (ptePage (s.word t j)) ws) d a = c a
      unfold userByte
      rw [hall _ (by omega), fillPage_other, ← h.content a ha]
      · rfl
      · have hp := h.present hu
        rw [heq] at hp
        rw [hzero, heq]
        exact ne_zero_of_mem_allPages (h.owns.mem_allPages_of_footprint
          (Multiset.mem_cons_self d 0) (mem_footprint_user (by omega) hat' hp))

/-- The loop of `loaduvm` comes to the byte `u` of the segment, which belongs to a page above
all that the program has reached. -/
theorem loadFrom_strays {k u : ℕ} (h : ∃ c, Built L w₀ plain d m c s) (hm : m ≤ kernbasePage)
    (hs : .grant 0 ∉ s.trace) (haddr : ph.vaddr % pgsize = 0) (hu : u < ph.filesz)
    (hin : ph.off + u < f.size) (hwalk : ∀ w ≤ u, Walkable m (wrap32 (ph.vaddr + w) / pgsize))
    (hlow : ∀ w ≤ u, wrap32 (ph.vaddr + w) / pgsize < kernbasePage)
    (hstray : m ≤ wrap32 (ph.vaddr + u) / pgsize) (hi : i % pgsize = 0) (hiu : i ≤ u)
    (hk : u < i + pgsize * k) :
    Exec.wp (loadFrom d f ph.vaddr ph.off ph.filesz k i) (fun _ s' => Strayed s')
      (fun _ s' => Strayed s') s := by
  induction k generalizing s i with
  | zero => omega
  | succ k ih =>
      obtain ⟨c, h⟩ := h
      have hsize := f.offset_lt hin
      have hcount : 0 < min (ph.filesz - i) pgsize ∧ min (ph.filesz - i) pgsize ≤ pgsize := by
        unfold pgsize
        omega
      have hwrap : wrap32 (ph.off + i) = ph.off + i := wrap32_of_lt (by omega)
      unfold loadFrom
      rw [hwrap]
      refine Exec.wp_seq (walkpgdir_false_spec d _ s) ?_ fun _ _ hf => hf.elim
      rintro (_ | ⟨t, j⟩) s₁ ⟨rfl, hat⟩
      · exact absurd (h.table (hwalk i hiu)) hat
      · refine Exec.wp_bind.mpr (Exec.wp_gets.mpr ?_)
        refine Exec.wp_seq (readPage_inside (by omega) hcount.1 hcount.2) ?_
          fun _ _ hf => hf.elim
        rintro ok _ ⟨⟨ws, rfl⟩, hok⟩
        have hs' : .grant 0 ∉ (s₁.filled (ptePage (s₁.word t j)) ws).trace :=
          (Later.filled s₁ _ ws).unobtained hs
        by_cases hlast : u < i + pgsize
        · -- the entry for this page is empty
          have hzero : s₁.word t j = 0 := by
            rw [← hat.pteAt_eq]
            rw [wrap32_page haddr hi hiu hlast] at hstray
            exact h.above _ hstray (hlow i hiu)
          have hstored : .load 0 ∈ (s₁.filled (ptePage (s₁.word t j)) ws).trace := by
            rw [hzero, show ptePage 0 = 0 from Nat.zero_div _]
            exact List.mem_cons_self
          cases ok with
          | false => exact Exec.wp_pure.mpr ⟨hstored, hs'⟩
          | true => exact (strayed_loadFrom _ _ _ _ _ _ _).wp ⟨hstored, hs'⟩
        · have htrue : ok = true := hok.mpr (by omega)
          rw [if_pos htrue]
          refine ih (h.stored_below ws hm (hlow i hiu) hat) hs' ?_ (by omega) ?_
          · rw [Nat.add_mod_right]
            exact hi
          · rw [Nat.mul_succ] at hk
            omega

theorem loaduvm_strays {u : ℕ} (h : ∃ c, Built L w₀ plain d m c s) (hm : m ≤ kernbasePage)
    (hs : .grant 0 ∉ s.trace) (haddr : ph.vaddr % pgsize = 0) (hu : u < ph.filesz)
    (hin : ph.off + u < f.size) (hwalk : ∀ w ≤ u, Walkable m (wrap32 (ph.vaddr + w) / pgsize))
    (hlow : ∀ w ≤ u, wrap32 (ph.vaddr + w) / pgsize < kernbasePage)
    (hstray : m ≤ wrap32 (ph.vaddr + u) / pgsize) :
    Exec.wp (loaduvm d ph.vaddr f ph.off ph.filesz) (fun _ s' => Strayed s')
      (fun _ s' => Strayed s') s := by
  unfold loaduvm
  rw [if_neg (not_not.mpr haddr)]
  refine loadFrom_strays h hm hs haddr hu hin hwalk hlow hstray (Nat.zero_mod _) (Nat.zero_le u) ?_
  unfold pagesOf pgsize
  omega

/-! ## Segments that are not covered -/

/-- `loaduvm` comes to a byte of the segment `ph` that belongs to a page above all that the
program has reached. -/
structure ExecFile.Strays (f : ExecFile) (elf : Elfhdr) (s : Memory) (i : ℕ) (ph : Proghdr) : Prop
    extends f.Loads elf s i ph where
  aligned : ph.vaddr % pgsize = 0
  outside : ∃ u < ph.filesz, ph.off + u < f.size ∧
    (∀ w ≤ u, Walkable (pagesOf (f.reached elf (i + 1))) (wrap32 (ph.vaddr + w) / pgsize)) ∧
    pagesOf (f.reached elf (i + 1)) ≤ (ph.vaddr + u) / pgsize

theorem ExecFile.exists_strays (h : ¬f.StoresInside elf s) : ∃ i ph, f.Strays elf s i ph := by
  unfold ExecFile.StoresInside at h
  push Not at h
  obtain ⟨i, ph, hloads, haligned, u, hu, hin, hwalk, hpage⟩ := h
  exact ⟨i, ph, hloads, haligned, u, hu, hin, hwalk, hpage⟩

/-- `exec` does not give up before it loads the segment. -/
theorem ExecFile.Loads.before {i₀ : ℕ} {ph₀ : Proghdr} (h : f.Loads elf s i₀ ph₀)
    (hcomes : f.Comes elf i ph) (hi : i ≤ i₀) : f.Loads elf s i ph := by
  refine ⟨hcomes, ?_, h.granted.mono (requests_mono ?_)⟩
  · rcases eq_or_lt_of_le hi with rfl | hlt
    · obtain rfl := hcomes.only h.header
      exact h.checked
    · exact (hcomes.passes (h.passed i hlt)).1
  · exact pagesOf_mono (f.reached_mono elf (Nat.succ_le_succ hi))

/-- Room is made for every segment up to the one that strays. -/
theorem allocuvm_strays {i₀ : ℕ} {ph₀ : Proghdr} (h : f.Loads elf s₀ i₀ ph₀) (hi : i ≤ i₀)
    (hcomes : f.Comes elf i ph) (hu : Underway L s₀ plain 0 d f elf i s)
    (hb : ∃ c, Built L w₀ plain d (pagesOf (f.reached elf i)) c s) :
    Exec.wp (allocuvm L d (f.reached elf i) (wrap32 (ph.vaddr + ph.memsz)))
      (fun r s' => s'.hole = false → r ≠ 0 ∧
        (r = f.reached elf (i + 1) →
          ∃ c, Built L w₀ plain d (pagesOf (f.reached elf (i + 1))) c s'))
      (fun _ s' => s'.hole = true) s := by
  obtain ⟨c, hb⟩ := hb
  have hloads := h.before hcomes hi
  have hcheck := hloads.checked
  -- the bytes behind the program do not matter
  have hcut : Built L w₀ plain d (pagesOf (f.reached elf i))
      (fun a => if a / pgsize < pagesOf (f.reached elf i) then c a else 0) s :=
    hb.congr fun a ha => if_pos ((Nat.div_lt_iff_lt_mul (by decide)).mpr ha)
  refine Exec.wp_mono (Exec.wp_and (allocuvm_supplied hu.owns hu.supplied)
    (allocuvm_built hcut hu.size_lt fun a ha => if_neg (not_lt.mpr ha))) ?_ fun _ _ hE => hE.2
  rintro r s' ⟨hsupplied, hbuilt⟩ hhole
  have hne : r ≠ 0 := by
    intro hr
    rcases hsupplied with ⟨-, hhole', -⟩ | ⟨-, -, -, hzero⟩
    · rw [hhole] at hhole'
      cases hhole'
    · have hnone := hcheck.nonempty
      have hgranted := hloads.granted
      rw [reached_of_loaded hcomes.header hcomes.loadable] at hnone hgranted
      exact hzero hr hcheck.end_lt hnone hgranted
  refine ⟨hne, fun hr => ?_⟩
  rcases hbuilt with hhole' | ⟨-, hres⟩
  · rw [hhole] at hhole'
    cases hhole'
  · rw [← hr]
    exact ⟨_, (hres hne).2.2⟩

/-- `loaduvm` is called for the segment that strays. -/
theorem ExecFile.Strays.strayed_loaduvm (h : f.Strays elf s₀ i ph)
    (hlow : f.StoresLow elf s₀)
    (hb : ∃ c, Built L w₀ plain d (pagesOf (f.reached elf (i + 1))) c s) (hs : .grant 0 ∉ s.trace) :
    Exec.wp (loaduvm d ph.vaddr f ph.off ph.filesz) (fun _ s' => Strayed s')
      (fun _ s' => Strayed s') s := by
  obtain ⟨u, hu, hin, hwalk, hpage⟩ := h.outside
  have hbelow : ∀ w ≤ u, wrap32 (ph.vaddr + w) / pgsize < kernbasePage := fun w hw =>
    hlow i ph h.toLoads h.aligned w (by omega) (by omega) fun x hx => hwalk x (hx.trans hw)
  have hnowrap : wrap32 (ph.vaddr + u) = ph.vaddr + u := by
    have hvaddr := f.vaddr_lt h.header
    have hfirst := hbelow 0 (Nat.zero_le u)
    rw [Nat.add_zero, wrap32_of_lt hvaddr] at hfirst
    refine wrap32_of_lt ?_
    have hsmall := f.size_le
    unfold maxfile bsize at hsmall
    unfold kernbasePage pgsize at hfirst
    omega
  exact loaduvm_strays hb (pagesOf_le h.reached_lt.le) hs h.aligned hu hin hwalk hbelow
    (by rwa [hnowrap])

/-- Once the segment that strays has been loaded, or while it is, `loaduvm` has strayed. -/
theorem loadSegments_strays {k i₀ : ℕ} {ph₀ : Proghdr} (htables : f.GetsTables elf s₀)
    (hlow : f.StoresLow elf s₀) (h₀ : f.Strays elf s₀ i₀ ph₀) (hk : i + k = elf.phnum)
    (hi : i ≤ i₀) (hu : Underway L s₀ plain 0 d f elf i s)
    (hb : ∃ c, Built L w₀ plain d (pagesOf (f.reached elf i)) c s)
    (hs : .grant 0 ∉ s.trace) :
    Exec.wp (loadSegments L d f k (wrap32 (elf.phoff + 32 * i)) (f.reached elf i))
      (fun r s' => Strayed s' ∧ (r ≠ none → Owns L s' plain (d ::ₘ 0)))
      (fun _ s' => Strayed s') s := by
  have hpassed : ∀ {j ph}, j < i₀ → f.Loads elf s₀ j ph →
      f.Walked (pagesOf (f.reached elf (j + 1))) ph ∧
        (ph.filesz = 0 ∨ ph.off + ph.filesz ≤ f.size) :=
    fun hj hloads => (hloads.passes (h₀.passed _ hj)).2
  refine Exec.wp_mono (loadSegments_rule
    (I := fun i s => (i ≤ i₀ → ∃ c, Built L w₀ plain d (pagesOf (f.reached elf i)) c s) ∧
      .grant 0 ∉ s.trace ∧ (i₀ < i → Strayed s))
    (J := fun i s => (i ≤ i₀ → ∃ c, Built L w₀ plain d (pagesOf (f.reached elf (i + 1))) c s) ∧
      .grant 0 ∉ s.trace ∧ (i₀ < i → Strayed s))
    (Q := Strayed) (A := Strayed) (E := Strayed) htables hlow ?_ ?_ ?_ ?_ hk hu
    ⟨fun _ => hb, hs, fun hlt => absurd hlt (not_lt.mpr hi)⟩) ?_ ?_
  · rintro i ph s hph htype ⟨hb, hs, hstrayed⟩
    refine ⟨fun hle => ?_, hs, fun hlt => hstrayed (lt_of_le_of_ne (Nat.lt_succ_iff.mp hlt) ?_)⟩
    · rw [reached_of_skipped hph htype]
      exact hb (Nat.le_of_succ_le hle)
    · rintro rfl
      obtain rfl := h₀.only hph
      exact htype h₀.loadable
  · rintro i s hno hpass ⟨-, -, hstrayed⟩
    rcases lt_trichotomy i i₀ with hlt | rfl | hgt
    · exact absurd (h₀.passed i hlt) hpass
    · exact absurd h₀.toLoads (hno ph₀)
    · exact hstrayed hgt
  · rintro i ph s hcomes hu ⟨hb, hs, hstrayed⟩
    by_cases hle : i ≤ i₀
    · refine Exec.wp_mono (Exec.wp_and (allocuvm_strays h₀.toLoads hle hcomes hu (hb hle))
        (allocuvm_later hu.owns)) ?_ ?_
      · rintro r s' ⟨hmade, hlater⟩ hhole
        obtain ⟨hne, hbuilt⟩ := hmade hhole
        exact ⟨fun hr => absurd hr hne, fun _ hr => ⟨fun _ => hbuilt hr, hlater.unobtained hs,
          fun hlt => absurd hlt (not_lt.mpr hle)⟩⟩
      · rintro _ s' ⟨hhole, -⟩ hmapped
        rw [hhole] at hmapped
        cases hmapped
    · have hgone := hstrayed (not_le.mp hle)
      refine Exec.wp_mono (allocuvm_later hu.owns) ?_ fun _ _ hlater _ => hgone.later hlater
      exact fun _ _ hlater _ => ⟨fun _ => hgone.later hlater, fun _ _ =>
        ⟨fun hle' => absurd hle' hle, hlater.unobtained hs, fun _ => hgone.later hlater⟩⟩
  · rintro i ph s hloads howns hsupplied ⟨hb, hs, hstrayed⟩
    have hm := pagesOf_le hloads.reached_lt.le
    rcases lt_trichotomy i i₀ with hlt | rfl | hgt
    · -- the segments before are loaded
      obtain ⟨hwalked, hfit⟩ := hpassed hlt hloads
      refine Exec.wp_mono (loaduvm_supplied (I := fun s =>
        (∃ c, Built L w₀ plain d (pagesOf (f.reached elf (i + 1))) c s) ∧ .grant 0 ∉ s.trace)
        howns hsupplied (f.off_lt hloads.header) (hlow i ph hloads) ?_ ⟨hb hlt.le, hs⟩) ?_ ?_
      · rintro haddr s t j u ws hu hin hwalk hat - - ⟨⟨c, hb⟩, hs⟩
        exact ⟨hb.stored_below ws hm (hlow i ph hloads haddr u hu hin hwalk) hat,
          (Later.filled s _ ws).unobtained hs⟩
      · rintro ok s' ⟨⟨-, -, hb', hs'⟩, -, hok⟩
        refine ⟨fun hfalse => ?_, fun _ => ⟨fun _ => hb', hs', fun hgt => absurd hgt (by omega)⟩⟩
        rw [hok.mpr hfit] at hfalse
        cases hfalse
      · exact fun _ _ hE => absurd hwalked hE.2
    · obtain rfl := h₀.only hloads.header
      refine Exec.wp_mono (h₀.strayed_loaduvm hlow (hb le_rfl) hs) ?_ fun _ _ hstrayed => hstrayed
      exact fun _ _ hgone => ⟨fun _ => hgone, fun _ => ⟨fun hle => absurd hle (by omega),
        hgone.unobtained, fun _ => hgone⟩⟩
    · refine Exec.wp_mono (loaduvm_supplied (I := Strayed) howns hsupplied
        (f.off_lt hloads.header) (hlow i ph hloads) ?_ (hstrayed hgt)) ?_ fun _ _ hE => hE.1.2.2
      · exact fun _ s _ _ _ ws _ _ _ _ _ _ hgone => hgone.later (.filled s _ ws)
      · rintro ok s' ⟨⟨-, -, hgone⟩, -⟩
        exact ⟨fun _ => hgone, fun _ => ⟨fun hle => absurd hle (by omega), hgone.unobtained,
          fun _ => hgone⟩⟩
  · rintro r s' ⟨hnone, hsome⟩
    cases r with
    | none => exact ⟨(hnone rfl).1, by simp⟩
    | some sz =>
        obtain ⟨-, hu', -, -, hgone⟩ := hsome sz rfl
        exact ⟨hgone h₀.lt, fun _ => hu'.owns⟩
  · rintro _ s' ⟨-, hgone | hgone⟩
    · exact hgone
    · exact hgone.1

/-- If all stores go below the kernel and some segment is not covered, `loaduvm` strays. -/
theorem execImage_strays {cur : ℕ} {argv : List (List UInt8)} {dirs : Multiset ℕ}
    (h : Owns L s plain (0 + dirs)) (htables : f.TablesGranted s)
    (hlow : ∀ elf, f.elfhdr = some elf → elf.magic = elfMagic → f.StoresLow elf s)
    (hcov : ¬f.Covered s) :
    Exec.wp (execImage L cur f argv) (fun _ s' => Strayed s') (fun _ s' => Strayed s') s := by
  unfold ExecFile.Covered at hcov
  push Not at hcov
  obtain ⟨elf, helf, hmagic, hout⟩ := hcov
  obtain ⟨i₀, ph₀, h₀⟩ := ExecFile.exists_strays hout
  have h₁ : Owns L { s with hole := false, trace := [], hole_starved := by simp }
      (others plain dirs s.word) 0 := h.shelve.move (fun _ _ _ _ => rfl) rfl rfl
  have hzero : f.reached elf 0 = 0 := by rw [ExecFile.reached]
  unfold execImage
  refine Exec.wp_bind.mpr (Exec.wp_modify.mpr ?_)
  rw [helf]
  simp only
  rw [if_neg (not_not.mpr hmagic)]
  refine Exec.wp_seq (Exec.wp_and (setupkvm_extends h₁) (setupkvm_underway f elf h₁
    ((Asked.refl s).congr rfl rfl) rfl)) ?_ fun _ _ hf => hf.1.elim
  rintro (_ | d) s₂ ⟨⟨⟨hkeep, hmarks⟩, -, hsome⟩, -, hrefused, hunder⟩
  · refine absurd (h₀.granted.mono ?_) (hrefused rfl)
    unfold requests
    omega
  · have hsegs := loadSegments_strays (htables elf helf hmagic) (hlow elf helf hmagic) h₀
      (Nat.zero_add elf.phnum) (Nat.zero_le i₀) (hunder d rfl) ⟨_, (hsome d rfl).built hkeep⟩
      ((Later.of_marks hmarks).unobtained (by simp))
    rw [show wrap32 (elf.phoff + 32 * 0) = elf.phoff from wrap32_of_lt (f.phoff_lt helf),
      hzero] at hsegs
    refine Exec.wp_seq (Q := fun _ s' => Strayed s') ?_ ?_ fun _ _ hgone => hgone
    · unfold fillImage
      refine Exec.wp_seq hsegs ?_ fun _ _ hgone => hgone
      rintro (_ | sz) s₃ ⟨hgone, howns⟩
      · exact Exec.wp_pure.mpr hgone
      · exact Exec.wp_mono (makeStack_later (howns (by simp)))
          (fun _ _ hlater => hgone.later hlater) fun _ _ hlater => hgone.later hlater
    · rintro (_ | top) s₃ hgone
      · refine Exec.wp_seq (keeps_freevm L d).wp ?_ fun _ _ hrec => hgone.later (.of_record hrec)
        intro _ s₄ hrec
        exact Exec.wp_pure.mpr (hgone.later (.of_record hrec))
      · exact Exec.wp_pure.mpr hgone

end Vm

end Xv6
