import Mathlib.Algebra.BigOperators.Intervals
import Mathlib.Algebra.Order.BigOperators.Group.Finset
import Xv6.Vm.Image
import Xv6.Vm.Range
import Xv6.Vm.Requests

/-!
# What `allocuvm` adds

A round of the loop of `allocuvm` asks `kalloc` for a page of the program and, inside of
`mappages`, perhaps for a page table.  The loop ends when the former is refused; it does not
notice when the latter is, and the page it holds is then in no address space and not free.
`tablesGranted` follows the requests of the loop and says that this does not happen, which is
exactly when `allocuvm` does all or nothing.
-/

namespace Xv6

namespace Vm

open Support

variable {L : Link} {s s₁ s' : Memory} {plain rest lost : Multiset ℕ} {d n u v t j k perm : ℕ}

/-! ## Requests for pages -/

/-- A page that becomes a table comes from the free list. -/
theorem Tabled.pages {r : Bool} (h : Tabled s s' d v r) (hv : v < topPage) :
    (s'.freelist : Multiset ℕ) + tables s'.word d = s.freelist + tables s.word d := by
  unfold tables
  cases h with
  | found _ hfree _ hdir => rw [hfree, hdir]
  | denied _ _ hfree _ hdir => rw [hfree, hdir]
  | made t hp _ hfree _ hdir =>
      have hsum := sum_exchange (f := fun i => entry (s.word d i))
        (g := fun i => entry (s'.word d i)) (Finset.mem_range.mpr (dirIndex_lt hv))
        fun i _ hne => by rw [hdir, Function.update_of_ne hne]
      rw [entry_of_not_present hp, add_zero, hdir, Function.update_self,
        entry_of_present (mkPte_present t pteWU), mkPte_page (by decide), ← hdir] at hsum
      rw [hfree, hsum, ← Multiset.cons_coe, ← Multiset.singleton_add]
      abel

/-- The requests of the loop of `allocuvm` for `k` pages from the virtual page `v` on: `has`
are the tables that are there, `free` the number of free pages and `fails` the failures ahead.
The loop may end at a page of the program that is refused, but no table is refused. -/
def tablesGranted (has : ℕ → Bool) (free : ℕ) (fails : List Bool) (v : ℕ) : ℕ → Bool
  | 0 => true
  | k + 1 =>
      refused free fails ||
        if has (v / npentries) then tablesGranted has (free - 1) fails.tail (v + 1) k
        else !refused (free - 1) fails.tail &&
          tablesGranted (fun i => has i || i == v / npentries) (free - 2) fails.tail.tail (v + 1) k

theorem tablesGranted_succ (has : ℕ → Bool) (free : ℕ) (fails : List Bool) (v k : ℕ) :
    tablesGranted has free fails v (k + 1) = (refused free fails ||
      if has (v / npentries) then tablesGranted has (free - 1) fails.tail (v + 1) k
      else !refused (free - 1) fails.tail && tablesGranted (fun i => has i || i == v / npentries)
        (free - 2) fails.tail.tail (v + 1) k) :=
  rfl

/-- The tables that the next rounds of the loop can ask for are granted in the state `s`. -/
def Memory.tablesGranted (s : Memory) (d v k : ℕ) : Bool :=
  Vm.tablesGranted (tableAt (s.word d)) s.freelist.length s.fails v k

/-! ## One page -/

/-- A page held outside of the address spaces is filled. -/
theorem Owns.fill {ws : ℕ → ℕ} (h : Owns L s (n ::ₘ plain) (d ::ₘ rest))
    (hword : s'.word = fillPage s.word n ws) (hfree : s'.freelist = s.freelist)
    (hstarved : s'.starved = s.starved) :
    Owns L s' (n ::ₘ plain) (d ::ₘ rest) ∧ SameTables s.word s'.word d := by
  have hout : ∀ d' ∈ d ::ₘ rest, SameTables s.word s'.word d' := by
    intro d' hd'
    refine SameTables.of_page (n := n)
      (Owns.notMem_skeleton (h.plain_notMem (Multiset.mem_cons_self n plain) hd')) ?_
    intro m hm
    rw [hword, fillPage_other hm]
  exact ⟨h.move hout (by rw [hfree]) hstarved, hout d (Multiset.mem_cons_self d rest)⟩

/-- The page `n` if it was not mapped. -/
def unmapped (n : ℕ) : Bool → Multiset ℕ
  | true => 0
  | false => {n}

/-- A round of a loop that adds pages: the page `n` was taken, filled with `ws` and, if there
was a table, mapped. -/
structure Round (L : Link) (s s' : Memory) (plain rest : Multiset ℕ) (d v n perm : ℕ)
    (ws : ℕ → ℕ) (ok : Bool) : Prop where
  owns : Owns L s' (unmapped n ok + plain) (d ::ₘ rest)
  ext : Extends s s' d
  entries : ∀ u < topPage, pteAt s'.word d u =
    if u = v ∧ ok = true then mkPte n perm else pteAt s.word d u
  content : s'.word n = ws
  starved : ok = false → s'.starved = true
  taken : ∃ s₁ : Memory, s.freelist = n :: s₁.freelist ∧ s₁.fails = s.fails.tail ∧
    s₁.word d = s.word d ∧ Tabled s₁ s' d v ok

theorem mapOne_round {s₁ s₂ : Memory} {ws : ℕ → ℕ} (h : Owns L s₁ (n ::ₘ plain) (d ::ₘ rest))
    (hv : v < kernbasePage) (hperm : perm < pgsize) (hzero : pteAt s.word d v = 0)
    (hlist : s.freelist = n :: s₁.freelist)
    (hfails : s₁.fails = s.fails.tail) (hword : s₁.word = s.word)
    (hword₂ : s₂.word = fillPage s₁.word n ws) (hfree₂ : s₂.freelist = s₁.freelist)
    (hfails₂ : s₂.fails = s₁.fails) (hstarved₂ : s₂.starved = s₁.starved) :
    Exec.total (mappages d 1 v n perm)
      (fun ok s' => Round L s s' plain rest d v n perm ws ok) s₂ := by
  have htop := kernbase_lt_top hv
  obtain ⟨h₂, hsame⟩ := h.fill hword₂ hfree₂ hstarved₂
  rw [hword] at hsame
  have hzero₂ : pteAt s₂.word d v = 0 := (hsame.pteAt_eq htop).trans hzero
  refine Exec.total_mono (total_and (mapOne_extends h₂ htop hzero₂)
    (Exec.wlp_and (Exec.wlp_and (mapOne_user h₂ hv hperm) (mapOne_pteAt h₂ htop))
      (mapOne_tabled h₂ htop))) ?_
  rintro ok s' ⟨hext, ⟨⟨-, hres⟩, hpte⟩, htab⟩
  refine ⟨?_, ?_, fun u hu => ?_, ?_, ?_, s₂, ?_, ?_, hsame.dir, htab⟩
  · cases ok with
    | true =>
        rw [unmapped, zero_add]
        exact hres.1
    | false =>
        rw [unmapped, Multiset.singleton_add]
        exact hres.1
  · refine Extends.trans ⟨fun m hm _ => ?_, fun m hm => ?_, fun m hm => Or.inl ?_⟩ hext
    · rw [hword₂, hword, fillPage_other]
      rintro rfl
      exact hm (hlist ▸ List.mem_cons_self)
    · rw [hlist]
      exact List.mem_cons_of_mem n (hfree₂ ▸ hm)
    · unfold skeleton at hm ⊢
      rwa [hsame.tables_eq] at hm
  · rw [hpte u hu, hsame.pteAt_eq hu]
  · rw [hext.frame h₂ (Multiset.mem_cons_self n plain), hword₂, fillPage_same]
  · rintro rfl
    exact hres.2
  · rw [hlist, hfree₂]
  · rw [hfails₂, hfails]

/-! ## The loop -/

/-- The state after the loop.  Its pages are those of the free list before; the ones in `lost`
are held but mapped nowhere. -/
structure Grown (L : Link) (s s' : Memory) (plain rest : Multiset ℕ) (d v k : ℕ)
    (lost : Multiset ℕ) (r : Bool) : Prop where
  owns : Owns L s' (lost + plain) (d ::ₘ rest)
  ext : Extends s s' d
  outside : ∀ u < topPage, u < v ∨ v + k ≤ u → pteAt s'.word d u = pteAt s.word d u
  inside : ∀ u, v ≤ u → u < v + k → pteAt s'.word d u = 0 ∨
    ∃ n ∈ s.freelist, pteAt s'.word d u = mkPte n pteWU ∧ s'.word n = fun _ => 0
  pages : (s'.freelist : Multiset ℕ) + tables s'.word d +
    ∑ u ∈ Finset.Ico v (v + k), entry (pteAt s'.word d u) + lost = s.freelist + tables s.word d
  granted : lost = 0 ↔ s.tablesGranted d v k = true
  first : lost = 0 → ∀ u, v ≤ u → u < v + k → Present (pteAt s'.word d u) →
    Present (pteAt s'.word d v)
  complete : r = true → (lost = 0 ↔ ∀ u, v ≤ u → u < v + k → Present (pteAt s'.word d u))

theorem Grown.nil (hk : s.tablesGranted d v k = true)
    (hzero : ∀ u, v ≤ u → u < v + k → pteAt s.word d u = 0) (hext : Extends s s' d)
    (h' : Owns L s' plain (d ::ₘ rest)) (hword : s'.word = s.word)
    (hfree : s'.freelist = s.freelist) {r : Bool} (hr : r = true → k = 0) :
    Grown L s s' plain rest d v k 0 r := by
  have hempty : ∑ u ∈ Finset.Ico v (v + k), entry (pteAt s'.word d u) = 0 := by
    refine Finset.sum_eq_zero fun u hu => ?_
    rw [Finset.mem_Ico] at hu
    rw [hword, hzero u hu.1 hu.2, entry_zero]
  refine ⟨?_, hext, fun u _ _ => by rw [hword], fun u hlow hhigh => Or.inl ?_, ?_, ?_, ?_, ?_⟩
  · rw [zero_add]
    exact h'
  · rw [hword]
    exact hzero u hlow hhigh
  · rw [hempty, hfree, hword, add_zero, add_zero]
  · exact iff_of_true rfl hk
  · intro _ u hlow hhigh hp
    rw [hword, hzero u hlow hhigh] at hp
    simp [Present] at hp
  · intro hh
    refine iff_of_true rfl fun u hlow hhigh => ?_
    have hk0 := hr hh
    omega

/-- The tables of the first round and of the others. -/
theorem Round.granted {ok : Bool} {ws : ℕ → ℕ} (h : Round L s s' plain rest d v n perm ws ok)
    (hn : refused s.freelist.length s.fails = false) :
    s.tablesGranted d v (k + 1) = true ↔ ok = true ∧ s'.tablesGranted d (v + 1) k = true := by
  obtain ⟨s₁, hlist, hfails, hdir, htab⟩ := h.taken
  have hlen : s.freelist.length - 1 = s₁.freelist.length := by
    rw [hlist]
    rfl
  have hhas := htab.tableAt_eq
  unfold Memory.tablesGranted
  rw [tablesGranted_succ, hn, Bool.false_or, hhas, hlen, ← hfails, ← hdir]
  cases htab with
  | found hp hfree hfls hdir₁ =>
      have hat : tableAt (s₁.word d) (v / npentries) = true := decide_eq_true hp
      have hsame : (fun i => tableAt (s₁.word d) i || (true && i == v / npentries)) =
          tableAt (s₁.word d) := by
        rw [← hhas]
        unfold tableAt
        rw [hdir₁]
      rw [if_pos hat, hsame, hfree, hfls, eq_self_iff_true, true_and]
  | made t hp hgranted hfree hfls _ =>
      have hat : ¬tableAt (s₁.word d) (v / npentries) = true := fun hh =>
        hp (of_decide_eq_true hh)
      have hlen₁ : s.freelist.length - 2 = s'.freelist.length := by
        rw [hlist, hfree]
        rfl
      rw [if_neg hat, hgranted, hlen₁, hfls, eq_self_iff_true, true_and]
      simp only [Bool.not_false, Bool.true_and]
  | denied hp hrefusal _ _ _ =>
      have hat : ¬tableAt (s₁.word d) (v / npentries) = true := fun hh =>
        hp (of_decide_eq_true hh)
      rw [if_neg hat, hrefusal]
      simp

/-- The rounds after the first one. -/
theorem Round.grown {ok r : Bool} (hround : Round L s s₁ plain rest d v n pteWU (fun _ => 0) ok)
    (hn : refused s.freelist.length s.fails = false) (hv : v < kernbasePage)
    (hzero : pteAt s.word d v = 0)
    (h : Grown L s₁ s' (unmapped n ok + plain) rest d (v + 1) k lost r) :
    Grown L s s' plain rest d v (k + 1) (unmapped n ok + lost) r := by
  have htop := kernbase_lt_top hv
  have hfirst : pteAt s'.word d v = if ok = true then mkPte n pteWU else 0 := by
    rw [h.outside v htop (Or.inl (Nat.lt_succ_self v)), hround.entries v htop, hzero]
    simp
  have hlost : unmapped n ok + lost = 0 ↔ ok = true ∧ lost = 0 := by
    cases ok with
    | true => simp [unmapped]
    | false => simp [unmapped]
  obtain ⟨s₀, hlist, hfails, hdir, htab⟩ := hround.taken
  refine ⟨?_, hround.ext.trans h.ext, fun u hu hout => ?_, fun u hlow hhigh => ?_, ?_, ?_, ?_, ?_⟩
  · have howns := h.owns
    rwa [add_left_comm, ← add_assoc] at howns
  · rw [h.outside u hu (by omega), hround.entries u hu, if_neg (by omega)]
  · rcases eq_or_ne u v with rfl | hne
    · rw [hfirst]
      cases ok with
      | false => exact Or.inl (if_neg (by simp))
      | true =>
          refine Or.inr ⟨n, hlist ▸ List.mem_cons_self, if_pos rfl, ?_⟩
          -- the page is in the address space now and left alone
          have hpte := hround.entries u htop
          rw [if_pos ⟨rfl, rfl⟩] at hpte
          have huser := hround.owns.user_page hv (hpte ▸ mkPte_present n pteWU)
          rw [hpte, mkPte_page (by decide)] at huser
          rw [h.ext.words n huser.1 huser.2.1, hround.content]
    · rcases h.inside u (by omega) (by omega) with hnone | ⟨m, hm, hsome⟩
      · exact Or.inl hnone
      · exact Or.inr ⟨m, hround.ext.free m hm, hsome⟩
  · rw [Finset.sum_eq_sum_Ico_succ_bot (by omega), show v + (k + 1) = v + 1 + k by omega, hfirst]
    have hpage : entry (if ok = true then mkPte n pteWU else 0) + unmapped n ok = {n} := by
      cases ok with
      | true =>
          rw [if_pos rfl, entry_of_present (mkPte_present n pteWU), mkPte_page (by decide), unmapped,
            add_zero]
      | false => rw [if_neg (by simp), entry_zero, unmapped, zero_add]
    have htables : tables s₀.word d = tables s.word d := by
      unfold tables
      rw [hdir]
    calc _ = ((s'.freelist : Multiset ℕ) + tables s'.word d +
            ∑ u ∈ Finset.Ico (v + 1) (v + 1 + k), entry (pteAt s'.word d u) + lost) +
            (entry (if ok = true then mkPte n pteWU else 0) + unmapped n ok) := by abel
      _ = s₀.freelist + tables s₀.word d + {n} := by rw [h.pages, htab.pages htop, hpage]
      _ = _ := by
        rw [hlist, htables, ← Multiset.cons_coe, ← Multiset.singleton_add]
        abel
  · rw [hlost, h.granted, hround.granted hn]
  · intro hnone u _ _ _
    rw [hfirst, if_pos (hlost.mp hnone).1]
    exact mkPte_present n pteWU
  · intro hr
    rw [hlost, h.complete hr]
    constructor
    · rintro ⟨hok, hall⟩ u hlow hhigh
      rcases eq_or_ne u v with rfl | hne
      · rw [hfirst, if_pos hok]
        exact mkPte_present n pteWU
      · exact hall u (by omega) (by omega)
    · intro hall
      have hv' := hall v le_rfl (by omega)
      rw [hfirst] at hv'
      refine ⟨?_, fun u hlow hhigh => hall u (by omega) (by omega)⟩
      by_contra hok
      rw [if_neg hok] at hv'
      simp [Present] at hv'

theorem allocFrom_grown (h : Owns L s plain (d ::ₘ rest)) (hk : v + k ≤ kernbasePage)
    (hzero : ∀ u, v ≤ u → u < v + k → pteAt s.word d u = 0) :
    Exec.total (allocFrom d k v) (fun r s' => (r = false → 0 < k) ∧
      ∃ lost, Grown L s s' plain rest d v k lost r) s := by
  induction k generalizing s v plain with
  | zero =>
      refine Exec.wp_pure.mpr ⟨by simp, 0, ?_⟩
      exact Grown.nil rfl hzero (Extends.refl s d) h rfl rfl fun _ => rfl
  | succ k ih =>
      have hv : v < kernbasePage := by omega
      unfold allocFrom
      refine Exec.total_seq (total_and (kalloc_extends h) (kalloc_exact s).wlp) ?_
      rintro (_ | n) s1 ⟨⟨⟨h1, hword, -⟩, -⟩, hfails, -, hrefused, hfree⟩
      · rw [handed, zero_add] at h1
        refine Exec.wp_pure.mpr ⟨fun _ => Nat.succ_pos k, 0, ?_⟩
        refine Grown.nil ?_ hzero (Extends.of_eq hword hfree) h1 hword hfree (by simp)
        rw [Memory.tablesGranted, tablesGranted_succ, hrefused, Bool.true_or]
      · rw [handed, Multiset.singleton_add] at h1
        refine Exec.wp_bind.mpr (Exec.wp_modify.mpr (Exec.wp_bind.mpr (Exec.wp_modify.mpr ?_)))
        refine Exec.total_seq (mapOne_round h1 hv (by decide) (hzero v le_rfl (by omega)) hfree
          hfails hword rfl rfl rfl rfl) ?_
        intro ok s2 hround
        refine Exec.wp_bind.mpr (Exec.wp_modify.mpr ?_)
        have hround' : Round L s (s2.noteMapped ok) plain rest d v n pteWU (fun _ => 0) ok := by
          obtain ⟨howns, hext, hentries, hz, hst, s₀, hl, hf, hd, htab⟩ := hround
          exact ⟨howns.move (fun _ _ _ _ => rfl) rfl rfl, hext.trans (Extends.of_eq rfl rfl),
            hentries, hz, hst, s₀, hl, hf, hd, htab.of_dir rfl rfl rfl⟩
        have hzero' : ∀ u, v + 1 ≤ u → u < v + 1 + k → pteAt (s2.noteMapped ok).word d u = 0 := by
          intro u hlow hhigh
          rw [hround'.entries u (kernbase_lt_top (by omega)), if_neg (by omega)]
          exact hzero u (by omega) (by omega)
        refine Exec.total_mono (ih hround'.owns (by omega) hzero') ?_
        rintro r s' ⟨-, lost, hgrown⟩
        refine ⟨fun _ => Nat.succ_pos k, unmapped n ok + lost, ?_⟩
        exact hround'.grown hrefused hv (hzero v le_rfl (by omega)) hgrown

/-! ## All or nothing -/

/-- `allocuvm` returns the new size, and every new page is mapped to a cleared page of its own
that was free; or it returns 0, the entries are what they were, and every page taken is free
again unless it has become a table.  Below the old size nothing changes. -/
def AllOrNothing (L : Link) (d oldsz newsz : ℕ) (s : Memory) : Prop :=
  ∃ r s', allocuvm L d oldsz newsz s = (.ok r, s') ∧
    (∀ u < pagesOf oldsz, pteAt s'.word d u = pteAt s.word d u) ∧
    (r = newsz ∧ (∀ u, pagesOf oldsz ≤ u → u < pagesOf newsz →
        ∃ n ∈ s.freelist, pteAt s'.word d u = mkPte n pteWU ∧ (s'.word n = fun _ => 0) ∧
          ∀ u' < kernbasePage, u' ≠ u → Present (pteAt s'.word d u') →
            ptePage (pteAt s'.word d u') ≠ n) ∨
      r = 0 ∧ (∀ u < topPage, pteAt s'.word d u = pteAt s.word d u) ∧
        (s'.freelist : Multiset ℕ) + tables s'.word d = s.freelist + tables s.word d)

theorem freed_le {word : ℕ → ℕ → ℕ} {last : ℕ} :
    freed word d v last ≤ ∑ u ∈ Finset.Ico v last, entry (pteAt word d u) := by
  unfold freed
  rw [Finset.range_eq_Ico]
  have hsub : Finset.Ico v last ⊆ Finset.Ico 0 last := Finset.Ico_subset_Ico_left (Nat.zero_le v)
  rw [← Finset.sum_subset hsub]
  · refine Finset.sum_le_sum fun u _ => ?_
    split
    · exact le_rfl
    · exact Multiset.zero_le _
  · intro u hu hout
    refine if_neg fun hh => hout ?_
    exact Finset.mem_Ico.mpr ⟨hh.1, (Finset.mem_Ico.mp hu).2⟩

/-- Without a lost page the loop of `deallocuvm` takes back what that of `allocuvm` has done. -/
theorem Grown.noneSkipped {r : Bool} (h : Grown L s s' plain rest d v k 0 r) :
    NoneSkipped s'.word d v (v + k) := by
  intro u hlow hhigh hp hidx
  have hfirst := h.first rfl u hlow hhigh hp
  obtain ⟨t, j, hat, -⟩ := exists_entryAt hfirst
  refine ⟨v / npentries, ?_, le_rfl, hat.present⟩
  rcases (Nat.div_le_div_right (c := npentries) hlow).lt_or_eq with hlt | heq
  · exact hlt
  · have hu := Nat.div_add_mod u npentries
    have hv := Nat.div_add_mod v npentries
    rw [← heq] at hu
    omega

/-- The loop has given up and what it did has been taken back, except for lost pages. -/
structure Undone (L : Link) (s s' : Memory) (plain rest : Multiset ℕ) (d v : ℕ)
    (lost : Multiset ℕ) : Prop where
  owns : Owns L s' (lost + plain) (d ::ₘ rest)
  frame : ∀ m ∈ plain, s'.word m = s.word m
  below : ∀ u < topPage, u < v → pteAt s'.word d u = pteAt s.word d u
  entries : lost = 0 → ∀ u < topPage, pteAt s'.word d u = pteAt s.word d u
  pages : (s'.freelist : Multiset ℕ) + tables s'.word d = s.freelist + tables s.word d ↔ lost = 0

theorem Grown.undone {r : Bool} (h : Grown L s s₁ plain rest d v k lost r)
    (howns : Owns L s plain (d ::ₘ rest))
    (hzero : ∀ u, v ≤ u → u < v + k → pteAt s.word d u = 0)
    (h' : Removed L s₁ s' (lost + plain) rest d v (v + k)) :
    Undone L s s' plain rest d v lost := by
  have htables : tables s'.word d = tables s₁.word d := by
    unfold tables
    rw [h'.dir]
  refine ⟨h'.owns, fun m hm => ?_, fun u hu hlow => ?_, ?_, ?_⟩
  · rw [h'.frame m (Multiset.mem_add.mpr (Or.inr hm)), h.ext.frame howns hm]
  · rw [h'.entries u hu, if_neg fun hh => absurd hh.2.1 (by omega), h.outside u hu (Or.inl hlow)]
  · rintro rfl u hu
    have hexam := noneSkipped_iff.mp h.noneSkipped
    rw [h'.entries u hu]
    by_cases hin : v ≤ u ∧ u < v + k
    · rw [hzero u hin.1 hin.2]
      split
      · rfl
      · rename_i hnot
        rcases h.inside u hin.1 hin.2 with hnone | ⟨n, -, hpte, -⟩
        · exact hnone
        · exact absurd ⟨hin.2, hexam u hin.1 hin.2 (hpte ▸ mkPte_present n pteWU)⟩ hnot
    · rw [if_neg fun hh => hin ⟨hh.2.1, hh.1⟩]
      exact h.outside u hu (by omega)
  · rw [htables, h'.free, ← h.pages]
    constructor
    · intro heq
      have hle : (s₁.freelist : Multiset ℕ) + tables s₁.word d +
          ∑ u ∈ Finset.Ico v (v + k), entry (pteAt s₁.word d u) + lost ≤
          (s₁.freelist : Multiset ℕ) + tables s₁.word d +
            ∑ u ∈ Finset.Ico v (v + k), entry (pteAt s₁.word d u) + 0 := by
        rw [← heq, add_zero, add_comm (freed _ _ _ _), add_right_comm]
        exact add_le_add le_rfl freed_le
      exact nonpos_iff_eq_zero.mp (le_of_add_le_add_left hle)
    · rintro rfl
      rw [Removed.freed_eq h.noneSkipped]
      abel

/-- What `allocuvm` has done when it returns: `k` pages from the virtual page `v` on were
asked for. -/
inductive Allocated (L : Link) (s s' : Memory) (plain rest : Multiset ℕ) (d v k : ℕ)
    (lost : Multiset ℕ) (newsz : ℕ) : ℕ → Prop
  | done (h : Grown L s s' plain rest d v k lost true) :
      Allocated L s s' plain rest d v k lost newsz newsz
  | undone (hk : 0 < k) (h : Undone L s s' plain rest d v lost) :
      Allocated L s s' plain rest d v k lost newsz 0

/-- Above the size of the program all entries are empty. -/
theorem Owns.entry_zero_of_size {sz : ℕ} (h : Owns L s plain (d ::ₘ rest))
    (hsz : ∀ u < kernbasePage, Present (pteAt s.word d u) ↔ u < pagesOf sz)
    (hu : u < kernbasePage) (hlow : pagesOf sz ≤ u) : pteAt s.word d u = 0 := by
  have hnot : ¬Present (pteAt s.word d u) := by
    rw [hsz u hu]
    omega
  unfold pteAt at hnot ⊢
  split
  · rename_i hp
    rw [if_pos hp] at hnot
    exact ((h.wellFormed d (Multiset.mem_cons_self d rest)).clean _
      (dirIndex_lt (kernbase_lt_top hu)) hp _ (index_lt u)).resolve_left hnot
  · rfl

theorem allocuvm_allocated {oldsz newsz : ℕ} (h : Owns L s plain (d ::ₘ rest))
    (hsz : oldsz ≤ newsz) (hnew : newsz < kernbase)
    (huser : ∀ u < kernbasePage, Present (pteAt s.word d u) ↔ u < pagesOf oldsz) :
    Exec.total (allocuvm L d oldsz newsz) (fun r s' => ∃ lost,
      (lost = 0 ↔ s.tablesGranted d (pagesOf oldsz) (pagesOf newsz - pagesOf oldsz) = true) ∧
      Allocated L s s' plain rest d (pagesOf oldsz) (pagesOf newsz - pagesOf oldsz) lost newsz r)
      s := by
  have hpages := pagesOf_mono hsz
  have htop : pagesOf newsz ≤ kernbasePage := pagesOf_le hnew.le
  have hsum : pagesOf oldsz + (pagesOf newsz - pagesOf oldsz) = pagesOf newsz := by omega
  have hzero : ∀ u, pagesOf oldsz ≤ u → u < pagesOf oldsz + (pagesOf newsz - pagesOf oldsz) →
      pteAt s.word d u = 0 := by
    intro u hlow hhigh
    exact h.entry_zero_of_size huser (by omega) hlow
  unfold allocuvm
  rw [if_neg (by omega), if_neg (by omega)]
  refine Exec.total_seq (allocFrom_grown h (by omega) hzero) ?_
  rintro (_ | _) s₁ ⟨hk, lost, hgrown⟩
  · have hlt : oldsz < newsz := by
      refine lt_of_le_of_ne hsz ?_
      rintro rfl
      have hpos := hk rfl
      omega
    refine Exec.total_seq (deallocuvm_removed hgrown.owns hlt hnew.le) ?_
    rintro - s' ⟨-, hremoved⟩
    refine Exec.wp_pure.mpr ⟨lost, hgrown.granted, .undone (hk rfl) ?_⟩
    refine hgrown.undone h hzero ?_
    rw [hsum]
    exact hremoved
  · exact Exec.wp_pure.mpr ⟨lost, hgrown.granted, .done hgrown⟩

/-- It is the lost pages that matter. -/
theorem Allocated.all_or_nothing_iff {oldsz newsz r : ℕ} (hsz : oldsz ≤ newsz)
    (hnew : newsz < kernbase) (hret : allocuvm L d oldsz newsz s = (.ok r, s'))
    (hres : Allocated L s s' plain rest d (pagesOf oldsz) (pagesOf newsz - pagesOf oldsz) lost
      newsz r) :
    AllOrNothing L d oldsz newsz s ↔ lost = 0 := by
  have hpages := pagesOf_mono hsz
  have htop : pagesOf newsz ≤ kernbasePage := pagesOf_le hnew.le
  have hsum : pagesOf oldsz + (pagesOf newsz - pagesOf oldsz) = pagesOf newsz := by omega
  -- without a page to add `allocuvm` returns at once
  have hpos : 0 < pagesOf newsz - pagesOf oldsz → newsz ≠ 0 := by
    rintro hk rfl
    have hnone : pagesOf 0 = 0 := rfl
    omega
  constructor
  · rintro ⟨r₁, s₁, hret₁, -, hprop⟩
    rw [hret] at hret₁
    obtain ⟨hr, rfl⟩ := Prod.mk.inj hret₁
    obtain rfl := Except.ok.inj hr
    cases hres with
    | done hgrown =>
        rcases hprop with ⟨-, hall⟩ | ⟨hr0, -, hfree⟩
        · refine (hgrown.complete rfl).mpr fun u hlow hhigh => ?_
          obtain ⟨n, -, hpte, -⟩ := hall u hlow (by omega)
          exact hpte ▸ mkPte_present n pteWU
        · refine (hgrown.complete rfl).mpr fun u hlow hhigh => ?_
          exact absurd hr0 (hpos (by omega))
    | undone hk hundone =>
        rcases hprop with ⟨hr0, -⟩ | ⟨-, -, hfree⟩
        · exact absurd hr0.symm (hpos hk)
        · exact hundone.pages.mp hfree
  · rintro rfl
    refine ⟨r, s', hret, ?_, ?_⟩
    · intro u hu
      have hutop : u < topPage := kernbase_lt_top (by omega)
      cases hres with
      | done hgrown => exact hgrown.outside u hutop (Or.inl hu)
      | undone _ hundone => exact hundone.below u hutop hu
    · cases hres with
      | done hgrown =>
          refine Or.inl ⟨rfl, fun u hlow hhigh => ?_⟩
          have hp := (hgrown.complete rfl).mp rfl u hlow (by omega)
          rcases hgrown.inside u hlow (by omega) with hnone | ⟨n, hn, hpte, hword⟩
          · rw [hnone] at hp
            simp [Present] at hp
          · refine ⟨n, hn, hpte, hword, fun u' hu' hne hp' heq => hne ?_⟩
            refine hgrown.owns.user_page_inj hu' (by omega) hp' hp ?_
            rw [heq, hpte, mkPte_page (by decide)]
      | undone _ hundone => exact Or.inr ⟨rfl, hundone.entries rfl, hundone.pages.mpr rfl⟩

/-- `allocuvm` does all or nothing if and only if no table is refused to it. -/
theorem allocuvm_all_or_nothing_iff {oldsz newsz : ℕ} (h : Owns L s plain (d ::ₘ rest))
    (hsz : oldsz ≤ newsz) (hnew : newsz < kernbase)
    (huser : ∀ u < kernbasePage, Present (pteAt s.word d u) ↔ u < pagesOf oldsz) :
    AllOrNothing L d oldsz newsz s ↔
      s.tablesGranted d (pagesOf oldsz) (pagesOf newsz - pagesOf oldsz) = true := by
  obtain ⟨r, s', hret, lost, hgranted, hres⟩ := Exec.wp_total (allocuvm_allocated h hsz hnew huser)
  rw [← hgranted]
  exact hres.all_or_nothing_iff hsz hnew hret

/-! ## An empty directory -/

/-- The first page of the allocator is a directory without tables. -/
def bareMemory (fails : List Bool) : Memory where
  freelist := List.range' 277 57067
  word := fun _ _ => 0
  fails := fails
  starved := false
  hole := false
  trace := []
  hole_starved := not_recorded false

theorem bareMemory_pteAt (fails : List Bool) (u : ℕ) : pteAt (bareMemory fails).word 276 u = 0 :=
  if_neg (by simp [bareMemory, Present])

theorem bareMemory_owns (fails : List Bool) :
    Owns smallLink (bareMemory fails) 0 (276 ::ₘ 0) := by
  suffices h : Owns smallLink (bareMemory fails) (276 ::ₘ 0) 0 from h.newDir rfl
  refine ⟨⟨0, fun _ => rfl, ?_⟩, by simp⟩
  have hall : allPages smallLink =
      ((276 :: List.range' 277 57067 : List ℕ) : Multiset ℕ) := by
    unfold allPages phystopPage
    rfl
  rw [hall, Multiset.map_zero, Multiset.sum_zero]
  change (List.range' 277 57067 : Multiset ℕ) + (276 ::ₘ 0) + 0 + 0 = _
  generalize List.range' 277 57067 = l
  simp only [← Multiset.cons_coe, ← Multiset.singleton_add]
  abel

theorem bareMemory_size (fails : List Bool) :
    ∀ u < kernbasePage, Present (pteAt (bareMemory fails).word 276 u) ↔ u < pagesOf 0 := by
  intro u _
  rw [bareMemory_pteAt]
  exact iff_of_false (by simp [Present]) (Nat.not_lt_zero u)

theorem bareMemory_granted (fails : List Bool) :
    (bareMemory fails).tablesGranted 276 (pagesOf 0) (pagesOf pgsize - pagesOf 0) =
      tablesGranted (fun _ => false) 57067 fails 0 1 := by
  have hlen : (bareMemory fails).freelist.length = 57067 := List.length_range'
  have hhas : tableAt ((bareMemory fails).word 276) = fun _ => false := rfl
  have hold : pagesOf 0 = 0 := rfl
  have hnew : pagesOf pgsize = 1 := by decide
  rw [Memory.tablesGranted, hlen, hhas, hold, hnew]
  rfl

theorem allocuvm_all_or_nothing_bare :
    Owns smallLink (bareMemory []) 0 (276 ::ₘ 0) ∧
      AllOrNothing smallLink 276 0 pgsize (bareMemory []) := by
  refine ⟨bareMemory_owns [], (allocuvm_all_or_nothing_iff (bareMemory_owns []) (Nat.zero_le _)
    (by decide) (bareMemory_size [])).mpr ?_⟩
  rw [bareMemory_granted]
  rfl

/-- The page of the program is granted and the page for the table is not: `allocuvm` returns
the new size, and nothing is mapped. -/
theorem allocuvm_leaves_hole :
    ¬AllOrNothing smallLink 276 0 pgsize (bareMemory [false, true]) := by
  obtain ⟨r, s', hret, lost, hgranted, hres⟩ := Exec.wp_total (allocuvm_allocated
    (bareMemory_owns [false, true]) (Nat.zero_le pgsize) (by decide)
    (bareMemory_size [false, true]))
  rw [hres.all_or_nothing_iff (Nat.zero_le pgsize) (by decide) hret, hgranted, bareMemory_granted]
  simp [tablesGranted, refused]

end Vm

end Xv6
