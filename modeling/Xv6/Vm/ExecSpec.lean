import Xv6.Vm.Exec
import Xv6.Vm.PageSpec

/-!
# What loading a program does with pages

For a file whose loadable segments do not wrap and for arguments of less than
1 MB, `exec` stores only into pages that no directory and no table of any address
space lies in, as long as `allocuvm` has mapped every page it was asked for.
-/

namespace Xv6

namespace Vm

open Support

variable {L : Link} {s : Memory} {plain rest : Multiset ℕ} {d n v t j : ℕ}

/-- No loadable segment of the file wraps around the end of the address space. -/
def ExecFile.NoWrap (f : ExecFile) : Prop :=
  ∀ elf, f.elfhdr = some elf → ∀ i < elf.phnum, ∀ ph,
    f.proghdr (wrap32 (elf.phoff + 32 * i)) = some ph → ph.type = 1 →
      ph.vaddr + ph.memsz < 4294967296

/-- All arguments are shorter than 1 MB. -/
def ShortArgs (argv : List (List UInt8)) : Prop :=
  ∀ arg ∈ argv, arg.length < 1048576

/-- A user page, or the page 0 that an empty entry refers to, is neither a
directory nor a table. -/
theorem Owns.entry_notMem (h : Owns L s plain (d ::ₘ rest)) (hv : v < kernbasePage)
    (hat : EntryAt s.word d v t j) :
    ∀ d' ∈ d ::ₘ rest, ptePage (s.word t j) ∉ skeleton s.word d' := by
  have htop : v < topPage := by
    unfold kernbasePage topPage at *
    omega
  have hclean := (h.wellFormed d (Multiset.mem_cons_self d rest)).clean _ (dirIndex_lt htop)
    hat.present (v % npentries) (index_lt v)
  rw [hat.table, ← hat.index] at hclean
  rcases hclean with hp | hz
  · exact h.user_notMem hv hat hp
  · intro d' hd' hmem
    have hall := h.mem_allPages_of_footprint hd' (by
      unfold footprint
      exact Multiset.mem_add.mpr (Or.inl hmem))
    rw [hz, mem_allPages] at hall
    have h1 := L.text_lt
    have h2 := L.data_le
    unfold extmemPage at h1
    simp only [ptePage, Nat.zero_div] at hall
    omega

/-- What user code has access to lies below the kernel. -/
theorem Owns.user_lt (h : Owns L s plain (d ::ₘ rest)) (hv : v < topPage)
    (hat : EntryAt s.word d v t j) (hu : UserBit (s.word t j)) : v < kernbasePage := by
  by_contra hge
  have hhigh : userEntries ≤ v / npentries := by
    by_contra hlt
    have := (user_iff hv).mp (by omega)
    omega
  have hnot := (h.wellFormed d (Multiset.mem_cons_self d rest)).kernel _
    (dirIndex_lt hv) hhigh hat.present (v % npentries) (index_lt v)
  rw [hat.table, ← hat.index] at hnot
  exact hnot hu

/-- Copying bytes into a page that is neither a directory nor a table. -/
theorem copyTo_spec {start : ℕ} {cs : List UInt8} (h : Owns L s plain (d ::ₘ rest))
    (hn : ∀ d' ∈ d ::ₘ rest, n ∉ skeleton s.word d') :
    Exec.wlp (copyTo n start cs) (fun _ s' => Owns L s' plain (d ::ₘ rest) ∧
      Grows s.word s'.word d ∧ s'.hole = s.hole) s := by
  refine Exec.wp_bind.mpr (Exec.wp_gets.mpr ?_)
  refine Exec.wlp_mono (Exec.wp_keeps (setPage_spec h hn) (keeps_setPage _ _)) ?_
  rintro - s' ⟨⟨h', -, hother, -⟩, hrec⟩
  refine ⟨h', Grows.of_eq (hother d ?_), Memory.hole_of_record hrec⟩
  rintro rfl
  exact hn d (Multiset.mem_cons_self d rest) (mem_skeleton_self s.word d)

theorem readPage_spec {f : ExecFile} {off m : ℕ} (h : Owns L s plain (d ::ₘ rest))
    (hn : ∀ d' ∈ d ::ₘ rest, n ∉ skeleton s.word d') :
    Exec.wlp (readPage f n off m) (fun _ s' => Owns L s' plain (d ::ₘ rest) ∧
      Grows s.word s'.word d ∧ s'.hole = s.hole) s := by
  unfold readPage
  split
  · exact Exec.wp_pure.mpr ⟨h, Grows.of_eq rfl, rfl⟩
  · exact Exec.wp_pure.mpr ⟨h, Grows.of_eq rfl, rfl⟩
  · refine Exec.wlp_seq (copyTo_spec h hn) ?_
    rintro - s1 ⟨h1, hgrow, hhole⟩
    refine Exec.wp_bind.mpr (Exec.wp_modify.mpr (Exec.wp_pure.mpr ⟨?_, hgrow, hhole⟩))
    exact h1.move (fun _ _ _ _ => rfl) rfl rfl

theorem loadFrom_spec {f : ExecFile} {addr offset sz k i : ℕ} (h : Owns L s plain (d ::ₘ rest))
    (haddr : addr + sz < kernbase) (hi : i + pgsize * k < sz + pgsize) :
    Exec.wlp (loadFrom d f addr offset sz k i) (fun _ s' => Owns L s' plain (d ::ₘ rest) ∧
      Grows s.word s'.word d ∧ s'.hole = s.hole) s := by
  induction k generalizing s i with
  | zero => exact Exec.wp_pure.mpr ⟨h, Grows.of_eq rfl, rfl⟩
  | succ k ih =>
      unfold loadFrom
      refine Exec.wlp_seq (walkpgdir_false_spec d _ s).wlp ?_
      rintro (_ | ⟨t, j⟩) s1 ⟨rfl, hat⟩
      · exact Exec.wlp_throw
      · refine Exec.wp_bind.mpr (Exec.wp_gets.mpr ?_)
        have hpage : wrap32 (addr + i) / pgsize < kernbasePage := by
          unfold wrap32 kernbase kernbasePage pgsize at *
          omega
        refine Exec.wlp_seq (readPage_spec h (h.entry_notMem hpage hat)) ?_
        rintro r s2 ⟨h2, hgrow, hhole⟩
        cases r with
        | false => exact Exec.wp_pure.mpr ⟨h2, hgrow, hhole⟩
        | true =>
            refine Exec.wlp_mono (ih h2 (by unfold pgsize at *; omega)) ?_
            rintro - s3 ⟨h3, hgrow3, hhole3⟩
            exact ⟨h3, hgrow.trans hgrow3, hhole3.trans hhole⟩

theorem loaduvm_spec {f : ExecFile} {addr offset sz : ℕ} (h : Owns L s plain (d ::ₘ rest))
    (haddr : addr + sz < kernbase) :
    Exec.wlp (loaduvm d addr f offset sz) (fun _ s' => Owns L s' plain (d ::ₘ rest) ∧
      Grows s.word s'.word d ∧ s'.hole = s.hole) s := by
  unfold loaduvm
  split
  · exact Exec.wlp_throw
  · refine loadFrom_spec h haddr ?_
    unfold pagesOf pgsize
    omega

/-! ## The arguments -/

/-- An address from which `n` bytes can be copied out: inside the first `top`
bytes, or in the devices' part of the address space, where user code has no
access. -/
def CopyRange (top va n : ℕ) : Prop :=
  va + n ≤ top ∨ devspacePage * pgsize ≤ va ∧ va < 4294967296

theorem uva2ka_spec {cur n : ℕ} (h : Owns L s plain (d ::ₘ rest)) (hreach : Reach s.word d n)
    (hn : n ≤ kernbasePage) (hv : v < n ∨ devspacePage ≤ v ∧ v < topPage) :
    Exec.wlp (uva2ka cur d v) (fun r s' => s' = s ∧ ∀ m, r = some m →
      v < n ∧ ∀ d' ∈ d ::ₘ rest, m ∉ skeleton s.word d') s := by
  have htop : v < topPage := by
    unfold kernbasePage topPage devspacePage at *
    omega
  unfold uva2ka entryOf
  refine Exec.wp_bind.mpr ?_
  refine Exec.wlp_seq (walkpgdir_false_spec d v s).wlp ?_
  rintro (_ | ⟨t, j⟩) s1 ⟨rfl, hat⟩
  · exact absurd (hreach v hv) hat
  · refine Exec.wp_gets.mpr ?_
    split
    · exact Exec.wp_pure.mpr ⟨rfl, by simp⟩
    · rename_i hp
      split
      · exact Exec.wp_pure.mpr ⟨rfl, by simp⟩
      · rename_i hu
        refine Exec.wp_pure.mpr ⟨rfl, ?_⟩
        rintro m ⟨⟩
        rw [not_not] at hp hu
        have hlow := h.user_lt htop hat hu
        refine ⟨?_, h.user_notMem hlow hat hp⟩
        unfold kernbasePage devspacePage at *
        omega

theorem copyoutFrom_spec {cur k va n : ℕ} {cs : List UInt8} (h : Owns L s plain (d ::ₘ rest))
    (hreach : Reach s.word d n) (hn : n ≤ kernbasePage)
    (hva : cs ≠ [] → CopyRange (n * pgsize) va cs.length) :
    Exec.wlp (copyoutFrom cur d k va cs) (fun r s' => Owns L s' plain (d ::ₘ rest) ∧
      Reach s'.word d n ∧ s'.hole = s.hole ∧
      (r = true → k ≠ 0 → cs ≠ [] → va + cs.length ≤ n * pgsize)) s := by
  induction k generalizing s va cs with
  | zero => exact Exec.wp_pure.mpr ⟨h, hreach, rfl, by simp⟩
  | succ k ih =>
      unfold copyoutFrom
      by_cases hcs : cs = []
      · rw [if_pos hcs]
        exact Exec.wp_pure.mpr ⟨h, hreach, rfl, fun _ _ hne => absurd hcs hne⟩
      · rw [if_neg hcs]
        have hrange := hva hcs
        have hlen : 0 < cs.length := List.length_pos_iff.mpr hcs
        have hpage : va / pgsize < n ∨ devspacePage ≤ va / pgsize ∧ va / pgsize < topPage := by
          unfold CopyRange devspacePage topPage pgsize at *
          omega
        refine Exec.wlp_seq (uva2ka_spec h hreach hn hpage) ?_
        rintro (_ | m) s1 ⟨rfl, hm⟩
        · exact Exec.wp_pure.mpr ⟨h, hreach, rfl, by simp⟩
        · obtain ⟨hlow, hout⟩ := hm m rfl
          have hin : va + cs.length ≤ n * pgsize := by
            unfold CopyRange devspacePage kernbasePage pgsize at *
            omega
          refine Exec.wlp_seq (copyTo_spec h hout) ?_
          rintro - s2 ⟨h2, hgrow, hhole⟩
          refine Exec.wlp_mono (ih h2 (hreach.grows hgrow) ?_) ?_
          · intro hdrop
            left
            have hpos : 0 < (cs.drop (pgsize - va % pgsize)).length :=
              List.length_pos_iff.mpr hdrop
            rw [List.length_drop] at hpos ⊢
            unfold pgrounddown wrap32 kernbasePage pgsize at *
            omega
          · rintro r s3 ⟨h3, hreach3, hhole3, -⟩
            exact ⟨h3, hreach3, hhole3.trans hhole, fun _ _ _ => hin⟩

theorem copyout_spec {cur va n : ℕ} {cs : List UInt8} (h : Owns L s plain (d ::ₘ rest))
    (hreach : Reach s.word d n) (hn : n ≤ kernbasePage) (hcs : cs ≠ [])
    (hva : CopyRange (n * pgsize) va cs.length) :
    Exec.wlp (copyout cur d va cs) (fun r s' => Owns L s' plain (d ::ₘ rest) ∧
      Reach s'.word d n ∧ s'.hole = s.hole ∧ (r = true → va + cs.length ≤ n * pgsize)) s := by
  refine Exec.wlp_mono (copyoutFrom_spec h hreach hn fun _ => hva) ?_
  rintro r s1 ⟨h1, hreach1, hhole, hin⟩
  refine ⟨h1, hreach1, hhole, fun hr => hin hr ?_ hcs⟩
  have := List.length_pos_iff.mpr hcs
  omega

/-- Pushing at most 1 MB onto a stack that ends at a page boundary. -/
theorem pushed_range {sp n m : ℕ} (hsp : sp ≤ n * pgsize)
    (hm : m ≤ 1048576) : CopyRange (n * pgsize) (pushed sp m) m := by
  unfold CopyRange pushed wrap32 devspacePage pgsize at *
  omega

theorem pushArgs_spec {cur n sp : ℕ} {argv : List (List UInt8)} {ptrs : List ℕ}
    (h : Owns L s plain (d ::ₘ rest)) (hreach : Reach s.word d n) (hn : n ≤ kernbasePage)
    (hsp : sp ≤ n * pgsize) (hargs : ShortArgs argv) (hptrs : ptrs.length ≤ maxarg) :
    Exec.wlp (pushArgs cur d argv sp ptrs) (fun r s' => Owns L s' plain (d ::ₘ rest) ∧
      Reach s'.word d n ∧ s'.hole = s.hole ∧
      ∀ sp' ptrs', r = some (sp', ptrs') → sp' ≤ n * pgsize ∧ ptrs'.length ≤ maxarg) s := by
  induction argv generalizing s sp ptrs with
  | nil =>
      refine Exec.wp_pure.mpr ⟨h, hreach, rfl, ?_⟩
      rintro _ _ ⟨⟩
      exact ⟨hsp, hptrs⟩
  | cons arg argv ih =>
      unfold pushArgs
      split
      · exact Exec.wp_pure.mpr ⟨h, hreach, rfl, by simp⟩
      · rename_i hlt
        have harg : arg.length < 1048576 := hargs arg (by simp)
        have hlen : (arg ++ [0]).length = arg.length + 1 := by simp
        refine Exec.wlp_seq (copyout_spec h hreach hn (by simp)
          (hlen ▸ pushed_range hsp (by omega))) ?_
        rintro (_ | _) s1 ⟨h1, hreach1, hhole, hin⟩
        · exact Exec.wp_pure.mpr ⟨h1, hreach1, hhole, by simp⟩
        · have hsp' := hin rfl
          refine Exec.wlp_mono (ih h1 hreach1 (by omega)
            (fun a ha => hargs a (by simp [ha])) (by simp; omega)) ?_
          rintro r s2 ⟨h2, hreach2, hhole2, hres⟩
          exact ⟨h2, hreach2, hhole2.trans hhole, hres⟩

theorem keeps_clearpteu (d v : ℕ) : Exec.Keeps Memory.record (clearpteu d v) := by
  refine Exec.Keeps.bind (keeps_lookup _ _) fun r => ?_
  cases r with
  | none => exact Exec.Keeps.throw
  | some e => exact Exec.Keeps.bind Exec.Keeps.gets fun _ => keeps_setWord _ _ _

theorem keeps_mapKernel (d : ℕ) (ks : List (ℕ × ℕ × ℕ × ℕ)) :
    Exec.Keeps Memory.marks (mapKernel d ks) := by
  induction ks with
  | nil => exact Exec.Keeps.pure
  | cons k ks ih =>
      refine Exec.Keeps.bind (keeps_mappages _ _ _ _ _) fun ok => ?_
      cases ok with
      | false => exact Exec.Keeps.pure
      | true => exact ih

theorem keeps_setupkvm (L : Link) : Exec.Keeps Memory.marks (setupkvm L) := by
  refine Exec.Keeps.bind (marks_of_keeps keeps_kalloc) fun r => ?_
  cases r with
  | none => exact Exec.Keeps.pure
  | some d =>
      refine Exec.Keeps.bind (marks_of_keeps (keeps_setPage _ _)) fun _ => ?_
      refine Exec.Keeps.bind (keeps_mapKernel _ _) fun ok => ?_
      cases ok with
      | false => exact Exec.Keeps.pure
      | true => exact Exec.Keeps.pure

/-- A directory is only returned if no table was refused. -/
theorem mapKernel_record (d : ℕ) (ks : List (ℕ × ℕ × ℕ × ℕ)) (s : Memory) :
    Exec.wlp (mapKernel d ks) (fun ok s' => ok = true → s'.record = s.record) s := by
  induction ks generalizing s with
  | nil => exact Exec.wp_pure.mpr fun _ => rfl
  | cons k ks ih =>
      refine Exec.wp_seq (mappages_record _ _ _ _ _ s) ?_ fun _ _ _ => trivial
      rintro (_ | _) s₁ ⟨hmarks, hstarved⟩
      · exact Exec.wp_pure.mpr (by simp)
      · refine Exec.wlp_mono (ih s₁) fun ok s' hrec hok => (hrec hok).trans ?_
        exact Prod.ext (hstarved.trans (Bool.or_false _)) hmarks

theorem setupkvm_record (L : Link) (s : Memory) :
    Exec.wlp (setupkvm L) (fun r s' => r ≠ none → s'.record = s.record) s := by
  refine Exec.wlp_seq keeps_kalloc.wlp ?_
  rintro (_ | d) s₁ hrec₁
  · exact Exec.wp_pure.mpr (by simp)
  · refine Exec.wp_bind.mpr (Exec.wp_modify.mpr (Exec.wlp_seq (mapKernel_record _ _ _) ?_))
    rintro (_ | _) s₂ hrec₂
    · exact Exec.wp_pure.mpr (by simp)
    · exact Exec.wp_pure.mpr fun _ => (hrec₂ rfl).trans hrec₁

theorem keeps_copyTo (n start : ℕ) (cs : List UInt8) :
    Exec.Keeps Memory.record (copyTo n start cs) :=
  Exec.Keeps.bind Exec.Keeps.gets fun _ => keeps_setPage _ _

theorem keeps_firstWord (cur : ℕ) : Exec.Keeps Memory.record (firstWord cur) := by
  refine Exec.Keeps.bind (keeps_lookup _ _) fun r => ?_
  cases r with
  | none => exact Exec.Keeps.throw
  | some e =>
      refine Exec.Keeps.bind Exec.Keeps.gets fun pte => ?_
      split
      · exact Exec.Keeps.gets
      · exact Exec.Keeps.throw

theorem keeps_uva2ka (cur d v : ℕ) : Exec.Keeps Memory.record (uva2ka cur d v) := by
  refine Exec.Keeps.bind ?_ fun pte => ?_
  · refine Exec.Keeps.bind (keeps_lookup _ _) fun r => ?_
    cases r with
    | none => exact keeps_firstWord cur
    | some e => exact Exec.Keeps.gets
  · split
    · exact Exec.Keeps.pure
    · split
      · exact Exec.Keeps.pure
      · exact Exec.Keeps.pure

theorem keeps_copyoutFrom (cur d k va : ℕ) (cs : List UInt8) :
    Exec.Keeps Memory.record (copyoutFrom cur d k va cs) := by
  induction k generalizing va cs with
  | zero => exact Exec.Keeps.pure
  | succ k ih =>
      unfold copyoutFrom
      split
      · exact Exec.Keeps.pure
      · refine Exec.Keeps.bind (keeps_uva2ka _ _ _) fun r => ?_
        cases r with
        | none => exact Exec.Keeps.pure
        | some n => exact Exec.Keeps.bind (keeps_copyTo _ _ _) fun _ => ih _ _

theorem keeps_pushArgs (cur d sp : ℕ) (argv : List (List UInt8)) (ptrs : List ℕ) :
    Exec.Keeps Memory.record (pushArgs cur d argv sp ptrs) := by
  induction argv generalizing sp ptrs with
  | nil => exact Exec.Keeps.pure
  | cons arg argv ih =>
      unfold pushArgs
      split
      · exact Exec.Keeps.pure
      · refine Exec.Keeps.bind (keeps_copyoutFrom _ _ _ _ _) fun r => ?_
        cases r with
        | false => exact Exec.Keeps.pure
        | true => exact ih _ _

/-! ## Whole programs -/

theorem loadSegments_spec {f : ExecFile} {elf : Elfhdr} {i k sz : ℕ} (helf : f.elfhdr = some elf)
    (hwraps : f.NoWrap) (hk : i + k = elf.phnum) (h : Owns L s plain (d ::ₘ rest))
    (hsz : sz < kernbase) :
    Exec.wlp (loadSegments L d f k (wrap32 (elf.phoff + 32 * i)) sz) (fun r s' =>
      Owns L s' plain (d ::ₘ rest) ∧ (s.hole = true → s'.hole = true) ∧
      ∀ sz', r = some sz' → sz' < kernbase ∧
        (s'.hole = false → Reach s.word d (pagesOf sz) → Reach s'.word d (pagesOf sz'))) s := by
  induction k generalizing s i sz with
  | zero =>
      refine Exec.wp_pure.mpr ⟨h, fun hh => hh, ?_⟩
      rintro _ ⟨⟩
      exact ⟨hsz, fun _ hr => hr⟩
  | succ k ih =>
      have hnext : wrap32 (wrap32 (elf.phoff + 32 * i) + 32) = wrap32 (elf.phoff + 32 * (i + 1)) := by
        unfold wrap32
        omega
      unfold loadSegments
      cases hph : f.proghdr (wrap32 (elf.phoff + 32 * i)) with
      | none => exact Exec.wp_pure.mpr ⟨h, fun hh => hh, by simp⟩
      | some ph =>
          simp only
          split
          · rw [hnext]
            exact ih (by omega) h hsz
          · rename_i htype
            rw [not_not] at htype
            have hwrap := hwraps elf helf i (by omega) ph hph htype
            split
            · exact Exec.wp_pure.mpr ⟨h, fun hh => hh, by simp⟩
            · refine Exec.wlp_seq (allocuvm_spec h) ?_
              rintro sz1 s1 ⟨h1, hlt, hhole1, hres⟩
              split
              · exact Exec.wp_pure.mpr ⟨h1, hhole1, by simp⟩
              · rename_i hne
                obtain ⟨hmax, -, hgrow1, hreach1⟩ := hres hne
                have hsz1 := hlt hsz
                have haddr : ph.vaddr + ph.filesz < kernbase := by
                  rw [wrap32_of_lt hwrap] at hmax
                  omega
                refine Exec.wlp_seq (loaduvm_spec h1 haddr) ?_
                rintro (_ | _) s2 ⟨h2, hgrow2, hhole2⟩
                · exact Exec.wp_pure.mpr ⟨h2, fun hh => hhole2.trans (hhole1 hh), by simp⟩
                · rw [hnext]
                  refine Exec.wlp_mono (ih (by omega) h2 hsz1) ?_
                  rintro r s3 ⟨h3, hhole3, hres3⟩
                  refine ⟨h3, fun hh => hhole3 (hhole2.trans (hhole1 hh)), ?_⟩
                  intro sz' hr
                  obtain ⟨hsz', hreach3⟩ := hres3 sz' hr
                  refine ⟨hsz', fun hh hr0 => hreach3 hh ?_⟩
                  have hhole : s1.hole = false := by
                    by_contra hbad
                    have := hhole3 (hhole2.trans (by simpa using hbad))
                    simp [this] at hh
                  exact (hreach1 hhole hr0).grows hgrow2

theorem ustack_length (sp : ℕ) (ptrs : List ℕ) :
    (ustack sp ptrs).length = 4 * (ptrs.length + 4) := by
  have hword : ∀ ws : List ℕ, (ws.flatMap fun w : ℕ => toBytes 4 (w : ℤ)).length = 4 * ws.length := by
    intro ws
    induction ws with
    | nil => rfl
    | cons w ws ih =>
        rw [List.flatMap_cons, List.length_append, ih]
        simp [toBytes]
        omega
  unfold ustack
  rw [hword]
  simp

theorem pgroundup_eq {sz : ℕ} (h : sz < kernbase) : pgroundup sz = pagesOf sz * pgsize := by
  unfold pgroundup pgrounddown pagesOf wrap32 pgsize
  unfold kernbase at h
  omega

theorem pagesOf_mul (n : ℕ) : pagesOf (n * pgsize) = n := by
  unfold pagesOf pgsize
  omega

/-- If `allocuvm` has mapped every page, the stack of the new program can be
filled. -/
theorem makeStack_spec {cur sz : ℕ} {argv : List (List UInt8)} (h : Owns L s plain (d ::ₘ rest))
    (hsz : sz < kernbase) (hargs : ShortArgs argv)
    (hreach : s.hole = false → Reach s.word d (pagesOf sz)) :
    Exec.wlp (makeStack L cur d sz argv) (fun r s' => s'.hole = false →
      Owns L s' plain (d ::ₘ rest) ∧ ∀ sz', r = some sz' → sz' < kernbase) s := by
  unfold makeStack
  obtain ⟨newsz, hnewsz⟩ : ∃ newsz, newsz = pgroundup sz + 2 * pgsize := ⟨_, rfl⟩
  rw [← hnewsz]
  refine Exec.wlp_seq (allocuvm_spec h) ?_
  rintro top s1 ⟨h1, -, hhole1, hres⟩
  have hup := pgroundup_eq hsz
  split
  · exact Exec.wp_pure.mpr fun _ => ⟨h1, by simp⟩
  · rename_i hne
    obtain ⟨hmax, hnew, -, hreach1⟩ := hres hne
    have htop : top = (pagesOf sz + 2) * pgsize := by
      rw [hmax, hnewsz, hup]
      unfold pgsize
      omega
    have hpages : pagesOf top = pagesOf sz + 2 := by rw [htop, pagesOf_mul]
    have hkern : pagesOf sz + 2 ≤ kernbasePage := by
      rw [hnewsz, hup] at hnew
      unfold kernbase pgsize at *
      unfold kernbasePage
      omega
    have hpagesUp : pagesOf (pgroundup sz) = pagesOf sz := by rw [hup, pagesOf_mul]
    rw [hpages, hpagesUp] at hreach1
    refine Exec.wlp_seq (clearpteu_spec h1 ?_) ?_
    · rw [htop]
      unfold kernbasePage at hkern
      unfold topPage pgsize
      omega
    rintro - s2 ⟨h2, hgrow2, hhole2⟩
    by_cases hh : s1.hole = false
    · have hr0 := hreach (by
        by_contra hbad
        rw [hhole1 (by simpa using hbad)] at hh
        simp at hh)
      have hr2 := (hreach1 hh hr0).grows hgrow2
      refine Exec.wlp_seq (pushArgs_spec h2 hr2 hkern (le_of_eq htop) hargs (by simp)) ?_
      rintro (_ | ⟨sp, ptrs⟩) s3 ⟨h3, hr3, hhole3, hsp⟩
      · exact Exec.wp_pure.mpr fun _ => ⟨h3, by simp⟩
      · obtain ⟨hsp, hlen⟩ := hsp sp ptrs rfl
        have hulen := ustack_length sp ptrs
        have hne : ustack sp ptrs ≠ [] := by
          intro hnil
          rw [hnil, List.length_nil] at hulen
          omega
        have hrange : CopyRange ((pagesOf sz + 2) * pgsize)
            (wrap32 (sp + 4294967296 - (ustack sp ptrs).length)) (ustack sp ptrs).length := by
          rw [hulen]
          unfold CopyRange wrap32 devspacePage pgsize at *
          unfold maxarg at hlen
          omega
        refine Exec.wlp_seq (copyout_spec h3 hr3 hkern hne hrange) ?_
        rintro (_ | _) s4 ⟨h4, -, -, -⟩
        · exact Exec.wp_pure.mpr fun _ => ⟨h4, by simp⟩
        · refine Exec.wp_pure.mpr fun _ => ⟨h4, ?_⟩
          rintro _ ⟨⟩
          rw [htop]
          rw [hnewsz, hup] at hnew
          unfold pgsize at *
          omega
    · -- a page was left unmapped, and nothing that follows takes that back
      refine Exec.wlp_mono (Exec.Keeps.wlp (Exec.Keeps.bind (keeps_pushArgs _ _ _ _ _)
        fun r => ?_)) ?_
      · cases r with
        | none => exact Exec.Keeps.pure
        | some r =>
            refine Exec.Keeps.bind (keeps_copyoutFrom _ _ _ _ _) fun b => ?_
            cases b with
            | false => exact Exec.Keeps.pure
            | true => exact Exec.Keeps.pure
      · intro r s3 hrec hfalse
        rw [Memory.hole_of_record hrec, hhole2] at hfalse
        exact absurd hfalse hh

theorem fillImage_spec {cur : ℕ} {f : ExecFile} {elf : Elfhdr} {argv : List (List UInt8)}
    (helf : f.elfhdr = some elf) (hwraps : f.NoWrap) (hargs : ShortArgs argv)
    (h : Owns L s plain (d ::ₘ rest)) (hreach : Reach s.word d 0) :
    Exec.wlp (fillImage L cur d f elf argv) (fun r s' => s'.hole = false →
      Owns L s' plain (d ::ₘ rest) ∧ ∀ sz, r = some sz → sz < kernbase) s := by
  have hoff : wrap32 (elf.phoff + 32 * 0) = elf.phoff := by
    have hlt : elf.phoff < 4294967296 := f.phoff_lt helf
    exact wrap32_of_lt (by omega)
  unfold fillImage
  have hload := loadSegments_spec helf hwraps (Nat.zero_add elf.phnum) h
    (show 0 < kernbase by decide)
  rw [hoff] at hload
  refine Exec.wlp_seq hload ?_
  rintro (_ | sz) s1 ⟨h1, -, hres⟩
  · exact Exec.wp_pure.mpr fun _ => ⟨h1, by simp⟩
  · obtain ⟨hsz, hr⟩ := hres sz rfl
    have hzero : pagesOf 0 = 0 := by
      unfold pagesOf pgsize
      omega
    rw [hzero] at hr
    exact makeStack_spec h1 hsz hargs fun hh => hr hh hreach

/-- `exec` gives the new address space exactly the pages it has taken, or gives
them back. -/
theorem execImage_spec {cur : ℕ} {f : ExecFile} {argv : List (List UInt8)}
    (hwraps : f.NoWrap) (hargs : ShortArgs argv) (h : Owns L s plain rest) :
    Exec.wlp (execImage L cur f argv) (fun r s' => s'.hole = false →
      match r with
      | none => Owns L s' plain rest
      | some (d, sz) => Owns L s' plain (d ::ₘ rest) ∧ sz < kernbase) s := by
  unfold execImage
  have h0 : Owns L { s with hole := false, trace := [], hole_starved := by simp } plain rest :=
    h.move (fun _ _ _ _ => rfl) rfl rfl
  refine Exec.wp_bind.mpr (Exec.wp_modify.mpr ?_)
  cases helf : f.elfhdr with
  | none => exact Exec.wp_pure.mpr fun _ => h0
  | some elf =>
      simp only
      split
      · exact Exec.wp_pure.mpr fun _ => h0
      · refine Exec.wlp_seq (setupkvm_spec h0) ?_
        rintro (_ | d) s1 h1
        · exact Exec.wp_pure.mpr fun _ => h1
        · refine Exec.wlp_seq (fillImage_spec helf hwraps hargs h1.1 h1.2) ?_
          rintro (_ | sz) s2 h2
          · by_cases hh : s2.hole = false
            · refine Exec.wlp_seq (freevm_spec (h2 hh).1).wlp ?_
              rintro - s3 ⟨h3, -⟩
              exact Exec.wp_pure.mpr fun _ => h3
            · refine Exec.wlp_seq (keeps_freevm L d).wlp ?_
              intro _ s3 hrec
              refine Exec.wp_pure.mpr fun hfalse => absurd hfalse ?_
              rw [Memory.hole_of_record hrec]
              exact hh
          · refine Exec.wp_pure.mpr fun hh => ⟨(h2 hh).1, (h2 hh).2 sz rfl⟩

end Vm

end Xv6
