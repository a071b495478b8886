import Xv6.Vm.Frames

/-!
# The image of a new program

What the pages of an address space hold while `exec` builds it, byte by byte: the bytes
below the size of the program are those of a function `c`, which starts as zero
everywhere and takes over the bytes of the file with every segment that is loaded.
Pages outside of the new address space hold what they held before.
-/

namespace Xv6

namespace Vm

open Support

variable {L : Link} {s s' : Memory} {plain : Multiset ℕ} {w₀ : ℕ → ℕ → ℕ} {d m n v t j k : ℕ}
  {c : ℕ → UInt8}

/-- The byte `b` of a page. -/
def pageByte (ws : ℕ → ℕ) (b : ℕ) : UInt8 :=
  UInt8.ofNat (ws (b / 4) / 256 ^ (b % 4))

/-- The byte at a user address, in the page that its entry refers to. -/
def userByte (word : ℕ → ℕ → ℕ) (d a : ℕ) : UInt8 :=
  pageByte (word (ptePage (pteAt word d (a / pgsize)))) (a % pgsize)

/-- The first `m` pages of the new address space are mapped and hold the bytes of `c`;
nothing is mapped above, and the pages in `plain` are as in `w₀`. -/
structure Built (L : Link) (w₀ : ℕ → ℕ → ℕ) (plain : Multiset ℕ) (d m : ℕ) (c : ℕ → UInt8)
    (s : Memory) : Prop where
  owns : Owns L s plain (d ::ₘ 0)
  frame : ∀ n ∈ plain, s.word n = w₀ n
  kernel : ∀ u, InKernel u → Present (s.word d (u / npentries))
  below : ∀ u < m, ∃ n, pteAt s.word d u = mkPte n pteWU
  above : ∀ u, m ≤ u → u < kernbasePage → pteAt s.word d u = 0
  content : ∀ a < m * pgsize, userByte s.word d a = c a

/-- The new address space is to be given up; the pages in `plain` are as in `w₀`. -/
structure Failed (L : Link) (w₀ : ℕ → ℕ → ℕ) (plain : Multiset ℕ) (d : ℕ) (s : Memory) :
    Prop where
  owns : Owns L s plain (d ::ₘ 0)
  frame : ∀ n ∈ plain, s.word n = w₀ n

theorem Built.failed (h : Built L w₀ plain d m c s) : Failed L w₀ plain d s :=
  ⟨h.owns, h.frame⟩

/-! ## Bytes -/

theorem ofBytes_byte (cs : List UInt8) {i : ℕ} (h : i < cs.length) :
    UInt8.ofNat (ofBytes cs / 256 ^ i) = cs.getD i 0 := by
  induction cs generalizing i with
  | nil => simp at h
  | cons b cs ih =>
      have hb : b.toNat < 256 := b.toNat_lt
      have hcons : ofBytes (b :: cs) = b.toNat + 256 * ofBytes cs := rfl
      cases i with
      | zero =>
          rw [hcons, pow_zero, Nat.div_one]
          refine UInt8.toNat.inj ?_
          rw [UInt8.toNat_ofNat']
          change (b.toNat + 256 * ofBytes cs) % 256 = b.toNat
          omega
      | succ i =>
          rw [hcons, pow_succ', ← Nat.div_div_eq_div_mul,
            show (b.toNat + 256 * ofBytes cs) / 256 = ofBytes cs by omega]
          refine (ih ?_).trans rfl
          rw [List.length_cons] at h
          omega

/-- Copying bytes to a page. -/
theorem pageByte_overlay (ws : ℕ → ℕ) (start : ℕ) (cs : List UInt8) (b : ℕ) :
    pageByte (overlay ws start cs) b =
      if start ≤ b ∧ b < start + cs.length then cs.getD (b - start) 0 else pageByte ws b := by
  have hmod : b % 4 < 4 := Nat.mod_lt b (by decide)
  have hb : 4 * (b / 4) + b % 4 = b := Nat.div_add_mod b 4
  unfold pageByte overlay
  rw [ofBytes_byte _ (by simpa using hmod), List.getD_eq_getElem?_getD, List.getElem?_map,
    List.getElem?_range hmod, Option.map_some, Option.getD_some, hb]

theorem pageByte_zero (b : ℕ) : pageByte (fun _ => 0) b = 0 := by
  unfold pageByte
  rw [Nat.zero_div]
  rfl

/-! ## User pages -/

theorem exists_entryAt (hp : Present (pteAt s.word d v)) :
    ∃ t j, EntryAt s.word d v t j ∧ pteAt s.word d v = s.word t j := by
  have htable : Present (s.word d (v / npentries)) := by
    by_contra hno
    rw [pteAt, if_neg hno] at hp
    simp [Present] at hp
  have hat : EntryAt s.word d v (ptePage (s.word d (v / npentries))) (v % npentries) :=
    ⟨htable, rfl, rfl⟩
  exact ⟨_, _, hat, hat.pteAt_eq⟩

/-- A user page is neither free nor a table nor held by anyone else. -/
theorem Owns.user_page {rest : Multiset ℕ} (h : Owns L s plain (d ::ₘ rest)) (hv : v < kernbasePage)
    (hp : Present (pteAt s.word d v)) :
    ptePage (pteAt s.word d v) ∉ s.freelist ∧ ptePage (pteAt s.word d v) ∉ skeleton s.word d ∧
      ptePage (pteAt s.word d v) ∉ plain := by
  obtain ⟨t, j, hat, heq⟩ := exists_entryAt hp
  rw [heq] at hp ⊢
  have hfoot := mem_footprint_user hv hat hp
  have hdself := Multiset.mem_cons_self d rest
  have hsum := Multiset.mem_of_le (Owns.footprint_le s.word hdself) hfoot
  have hdisj := (Multiset.nodup_add.mp h.nodup).2.2
  refine ⟨fun hfree => ?_, h.user_notMem hv hat hp d hdself, fun hplain => ?_⟩
  · exact Multiset.disjoint_left.mp hdisj
      (Multiset.mem_add.mpr (Or.inl (Multiset.mem_coe.mpr hfree))) hsum
  · exact Multiset.disjoint_left.mp hdisj (Multiset.mem_add.mpr (Or.inr hplain)) hsum

/-- Two user pages are not the same. -/
theorem Owns.user_page_inj {rest : Multiset ℕ} {u : ℕ} (h : Owns L s plain (d ::ₘ rest))
    (hu : u < kernbasePage) (hv : v < kernbasePage) (hpu : Present (pteAt s.word d u))
    (hpv : Present (pteAt s.word d v))
    (heq : ptePage (pteAt s.word d u) = ptePage (pteAt s.word d v)) : u = v := by
  by_contra hne
  obtain ⟨t, j, hat, hval⟩ := exists_entryAt hpv
  have htop := kernbase_lt_top hv
  have hnd := h.skeleton_nodup (Multiset.mem_cons_self d rest)
  -- without its entry for `v` the address space does not have the page
  have hclear : Owns L { s with word := Vm.putWord s.word t j 0 }
      (ptePage (pteAt s.word d v) ::ₘ plain) (d ::ₘ rest) := by
    refine h.setEntry htop hat (Or.inr rfl) (fun _ => by simp [UserBit]) ?_
    have huser : v / npentries < userEntries := (user_iff htop).mpr hv
    rw [userEntry, if_pos huser, entry_zero, userEntry, if_pos huser, ← hval,
      entry_of_present hpv, add_zero, ← Multiset.singleton_add, add_comm]
  have hsame : pteAt (Vm.putWord s.word t j 0) d u = pteAt s.word d u :=
    hat.pteAt_putWord hnd htop (kernbase_lt_top hu) hne
  have hnot := (hclear.user_page (v := u) hu (by rw [hsame]; exact hpu)).2.2
  change ptePage (pteAt (Vm.putWord s.word t j 0) d u) ∉ _ at hnot
  rw [hsame, heq] at hnot
  exact hnot (Multiset.mem_cons_self _ _)

/-! ## `allocuvm` -/

/-- A step that changes no entry and no user page. -/
theorem Built.transfer {plain' : Multiset ℕ} {w₁ : ℕ → ℕ → ℕ} (h : Built L w₀ plain d m c s)
    (hm : m ≤ kernbasePage) (howns : Owns L s' plain' (d ::ₘ 0))
    (hframe : ∀ n ∈ plain', s'.word n = w₁ n) (hgrow : Grows s.word s'.word d)
    (hpte : ∀ u < kernbasePage, pteAt s'.word d u = pteAt s.word d u)
    (hpage : ∀ u < m, s'.word (ptePage (pteAt s.word d u)) = s.word (ptePage (pteAt s.word d u))) :
    Built L w₁ plain' d m c s' := by
  refine ⟨howns, hframe, fun u hu => hgrow.present (h.kernel u hu), ?_, ?_, ?_⟩
  · intro u hu
    rw [hpte u (by omega)]
    exact h.below u hu
  · intro u hlow hhigh
    rw [hpte u hhigh]
    exact h.above u hlow hhigh
  · intro a ha
    have hu : a / pgsize < m := Nat.div_lt_of_lt_mul (by rwa [Nat.mul_comm] at ha)
    have hcontent := h.content a ha
    unfold userByte at hcontent ⊢
    rw [hpte _ (by omega), hpage _ hu]
    exact hcontent

theorem Built.present (h : Built L w₀ plain d m c s) {u : ℕ} (hu : u < m) :
    Present (pteAt s.word d u) := by
  obtain ⟨n, hn⟩ := h.below u hu
  rw [hn]
  exact mkPte_present n pteWU

/-- A page is taken from the free list and filled with zeros. -/
theorem Built.take {s1 : Memory} (h : Built L w₀ plain d m c s) (hm : m ≤ kernbasePage)
    (h1 : Owns L s1 (n ::ₘ plain) (d ::ₘ 0)) (hword : s1.word = s.word) (hn : n ∈ s.freelist)
    (s' : Memory) (hword' : s'.word = fillPage s1.word n fun _ => 0)
    (hfree : s'.freelist = s1.freelist) (hstarved : s'.starved = s1.starved) :
    Built L (fillPage w₀ n fun _ => 0) (n ::ₘ plain) d m c s' := by
  have hnot := Owns.notMem_skeleton (h1.plain_notMem (Multiset.mem_cons_self n plain)
    (Multiset.mem_cons_self d 0))
  have hnd := (Multiset.nodup_add.mp (Multiset.nodup_add.mp h1.nodup).1).2.1
  have hother : ∀ x, x ≠ n → s'.word x = s.word x := by
    intro x hx
    rw [hword', fillPage_other hx, hword]
  rw [hword] at hnot
  have hsame : SameTables s.word s'.word d := SameTables.of_page hnot hother
  refine h.transfer hm (h1.move (fun d' hd' => ?_) ?_ hstarved) ?_ ?_ ?_ ?_
  · obtain rfl : d' = d := by simpa using hd'
    rw [hword]
    exact hsame
  · rw [hfree]
  · intro x hx
    rcases Multiset.mem_cons.mp hx with rfl | hold
    · rw [hword', fillPage_same, fillPage_same]
    · have hxn : x ≠ n := by
        rintro rfl
        exact (Multiset.nodup_cons.mp hnd).1 hold
      rw [hother x hxn, fillPage_other hxn]
      exact h.frame x hold
  · refine Grows.of_eq (hother d ?_)
    rintro rfl
    exact hnot (mem_skeleton_self s.word d)
  · intro u hu
    exact hsame.pteAt_eq (kernbase_lt_top hu)
  · intro u hu
    refine hother _ ?_
    rintro heq
    have hpage := h.owns.user_page (v := u) (by omega) (h.present hu)
    rw [heq] at hpage
    exact hpage.1 hn

/-- The page is mapped as the next one of the program. -/
theorem Built.map (h : Built L (fillPage w₀ n fun _ => 0) (n ::ₘ plain) d v c s)
    (hv : v < kernbasePage) (hc : ∀ a, a / pgsize = v → c a = 0)
    (howns : Owns L s' plain (d ::ₘ 0)) (hext : Extends s s' d) (hgrow : Grows s.word s'.word d)
    (hpte : ∀ u < topPage, pteAt s'.word d u =
      if u = v ∧ true = true then mkPte n pteWU else pteAt s.word d u) :
    Built L w₀ plain d (v + 1) c s' := by
  have hframe := fun x hx => hext.frame (n := x) h.owns hx
  have hnd := (Multiset.nodup_add.mp (Multiset.nodup_add.mp h.owns.nodup).1).2.1
  have hold : ∀ u < kernbasePage, u ≠ v → pteAt s'.word d u = pteAt s.word d u := by
    intro u hu hne
    rw [hpte u (kernbase_lt_top hu), if_neg (fun hh => hne hh.1)]
  have hnew : pteAt s'.word d v = mkPte n pteWU := by
    rw [hpte v (kernbase_lt_top hv), if_pos ⟨rfl, rfl⟩]
  refine ⟨howns, ?_, fun u hu => hgrow.present (h.kernel u hu), ?_, ?_, ?_⟩
  · intro x hx
    rw [hframe x (Multiset.mem_cons_of_mem hx), h.frame x (Multiset.mem_cons_of_mem hx),
      fillPage_other]
    rintro rfl
    exact (Multiset.nodup_cons.mp hnd).1 hx
  · intro u hu
    by_cases hne : u = v
    · exact ⟨n, hne ▸ hnew⟩
    · rw [hold u (by omega) hne]
      exact h.below u (by omega)
  · intro u hlow hhigh
    rw [hold u hhigh (by omega)]
    exact h.above u (by omega) hhigh
  · intro a ha
    have hu : a / pgsize < v + 1 := Nat.div_lt_of_lt_mul (by rwa [Nat.mul_comm] at ha)
    unfold userByte
    by_cases hne : a / pgsize = v
    · rw [hne, hnew, mkPte_page (by decide), hframe n (Multiset.mem_cons_self n plain),
        h.frame n (Multiset.mem_cons_self n plain), fillPage_same, pageByte_zero, hc a hne]
    · have hlt : a / pgsize < v := by omega
      have hpage := h.owns.user_page (v := a / pgsize) (by omega) (h.present hlt)
      rw [hold _ (by omega) hne, hext.words _ hpage.1 hpage.2.1]
      exact h.content a ((Nat.div_lt_iff_lt_mul (by decide)).mp hlt)

theorem allocFrom_built (h : Built L w₀ plain d v c s) (hv : v + k ≤ kernbasePage)
    (hc : ∀ a, v ≤ a / pgsize → a / pgsize < v + k → c a = 0) :
    Sure (allocFrom d k v) (fun r s' => (r = true → Built L w₀ plain d (v + k) c s') ∧
      (r = false → Failed L w₀ plain d s')) s := by
  induction k generalizing s v with
  | zero => exact Exec.Sure.pure ⟨fun _ => h, by simp⟩
  | succ k ih =>
      unfold allocFrom
      refine Exec.wp_seq (kalloc_extends h.owns) ?_ fun _ _ hf => hf.elim
      rintro (_ | n) s1 ⟨⟨h1, hword, hrec⟩, hfree, htake⟩
      · rw [handed, zero_add] at h1
        refine Exec.Sure.pure ⟨by simp, fun _ => ⟨h1, fun x hx => ?_⟩⟩
        rw [hword]
        exact h.frame x hx
      · rw [handed, Multiset.singleton_add] at h1
        refine Exec.wp_bind.mpr (Exec.wp_modify.mpr (Exec.wp_bind.mpr (Exec.wp_modify.mpr ?_)))
        have h3 := h.take (by omega) h1 hword (htake n rfl)
          { s1 with trace := .grant n :: s1.trace, word := fillPage s1.word n fun _ => 0 }
          rfl rfl rfl
        refine Exec.wp_seq (total_and (mapOne_extends h3.owns (kernbase_lt_top (by omega))
          (h3.above v le_rfl (by omega))) (Exec.wlp_and (mapOne_user h3.owns (by omega) (by decide))
            (mapOne_pteAt h3.owns (kernbase_lt_top (by omega))))) ?_ fun _ _ hf => hf.elim
        rintro (_ | _) s4 ⟨hext, ⟨hgrow, hres⟩, hpte⟩
        · -- the page is lost
          refine Exec.wp_bind.mpr (Exec.wp_modify.mpr ?_)
          refine Exec.wp_mono ((stays_allocFrom d k (v + 1)).hole.wp ?_) (fun _ _ hh => Or.inl hh)
            fun _ _ hh => hh
          simp [Memory.noteMapped, hres.2]
        · refine Exec.wp_bind.mpr (Exec.wp_modify.mpr ?_)
          have h4 : Built L w₀ plain d (v + 1) c s4 :=
            h3.map (by omega) (fun a ha => hc a (by omega) (by omega)) hres.1 hext hgrow hpte
          have h5 : Built L w₀ plain d (v + 1) c (s4.noteMapped true) :=
            ⟨h4.owns.move (fun _ _ _ _ => rfl) rfl rfl, h4.frame, h4.kernel, h4.below, h4.above,
              h4.content⟩
          refine (ih h5 (by omega) fun a hlow hhigh => hc a (by omega) (by omega)).mono ?_
          rintro r s6 ⟨htrue, hfalse⟩
          refine ⟨fun hr => ?_, hfalse⟩
          rw [show v + (k + 1) = v + 1 + k by omega]
          exact htrue hr

theorem Failed.deallocuvm {oldsz newsz : ℕ} (h : Failed L w₀ plain d s) (hold : oldsz ≤ kernbase) :
    Exec.total (Vm.deallocuvm L d oldsz newsz) (fun _ s' => Failed L w₀ plain d s') s := by
  unfold Vm.deallocuvm
  split
  · exact Exec.wp_pure.mpr h
  · refine Exec.total_seq (deallocFrom_spec h.owns (pagesOf_le hold)) ?_
    rintro - s1 ⟨h1, -, hkeep, -⟩
    exact Exec.wp_pure.mpr ⟨h1, fun n hn => (hkeep n hn).trans (h.frame n hn)⟩

theorem allocuvm_built {oldsz newsz : ℕ} (h : Built L w₀ plain d (pagesOf oldsz) c s)
    (hold : oldsz < kernbase) (hc : ∀ a, pagesOf oldsz ≤ a / pgsize → c a = 0) :
    Sure (allocuvm L d oldsz newsz) (fun r s' => (r = 0 → Failed L w₀ plain d s') ∧
      (r ≠ 0 → r = max oldsz newsz ∧ r < kernbase ∧ Built L w₀ plain d (pagesOf r) c s')) s := by
  unfold allocuvm
  split
  · exact Exec.Sure.pure ⟨fun _ => h.failed, by simp⟩
  · rename_i hnew
    split
    · exact Exec.Sure.pure ⟨fun _ => h.failed, fun _ => ⟨by omega, hold, h⟩⟩
    · have hpages : pagesOf oldsz + (pagesOf newsz - pagesOf oldsz) = pagesOf newsz := by
        unfold pagesOf pgsize
        omega
      have hfits : pagesOf newsz ≤ kernbasePage := pagesOf_le (by omega)
      refine (allocFrom_built h (by omega) fun a hlow _ => hc a hlow).seq ?_ ?_
      · intro ok
        cases ok with
        | true => exact Exec.Preserves.pure
        | false =>
            exact ((Stays.of_keeps (keeps_deallocuvm _ _ _ _)).bind fun _ => Stays.pure).hole
      · rintro (_ | _) s1 ⟨htrue, hfalse⟩
        · rw [if_neg (by simp)]
          refine Exec.wp_seq ((hfalse rfl).deallocuvm (by omega)) ?_ fun _ _ hf => hf.elim
          intro _ s2 h2
          exact Exec.Sure.pure ⟨fun _ => h2, by simp⟩
        · have h1 := htrue rfl
          rw [hpages] at h1
          rw [if_pos rfl]
          exact Exec.Sure.pure ⟨fun _ => h1.failed, fun _ => ⟨by omega, by omega, h1⟩⟩

/-! ## `loaduvm` -/

/-- From `s` to `s'` only the user page at the virtual page `v` has changed. -/
structure StoredAt (s s' : Memory) (plain : Multiset ℕ) (d v : ℕ) : Prop where
  tables : SameTables s.word s'.word d
  plain : ∀ n ∈ plain, s'.word n = s.word n
  pages : ∀ u < kernbasePage, u ≠ v → Present (pteAt s.word d u) →
    s'.word (ptePage (pteAt s.word d u)) = s.word (ptePage (pteAt s.word d u))

theorem StoredAt.refl (s : Memory) (plain : Multiset ℕ) (d v : ℕ) : StoredAt s s plain d v :=
  ⟨fun _ _ => rfl, fun _ _ => rfl, fun _ _ _ _ => rfl⟩

theorem StoredAt.pteAt_eq (h : StoredAt s s' plain d v) {u : ℕ} (hu : u < kernbasePage) :
    pteAt s'.word d u = pteAt s.word d u :=
  h.tables.pteAt_eq (kernbase_lt_top hu)

theorem StoredAt.userByte_eq (h : StoredAt s s' plain d v) {a : ℕ}
    (ha : a / pgsize < kernbasePage) (hav : a / pgsize ≠ v)
    (hp : Present (pteAt s.word d (a / pgsize))) : userByte s'.word d a = userByte s.word d a := by
  unfold userByte
  rw [h.pteAt_eq ha, h.pages _ ha hav hp]

theorem Owns.storedAt {ws : ℕ → ℕ} (h : Owns L s plain (d ::ₘ 0)) (hv : v < kernbasePage)
    (hp : Present (pteAt s.word d v))
    (hword : s'.word = fillPage s.word (ptePage (pteAt s.word d v)) ws) :
    StoredAt s s' plain d v := by
  obtain ⟨-, hskel, hplain⟩ := h.user_page hv hp
  have hother : ∀ x, x ≠ ptePage (pteAt s.word d v) → s'.word x = s.word x := by
    intro x hx
    rw [hword, fillPage_other hx]
  constructor
  · exact SameTables.of_page hskel hother
  · intro x hx
    exact hother x fun heq => hplain (heq ▸ hx)
  · intro u hu hne hpu
    exact hother _ fun heq => hne (h.user_page_inj hu hv hpu hp heq)

theorem Owns.stored (h : Owns L s plain (d ::ₘ 0)) (hstore : StoredAt s s' plain d v)
    (hfree : s'.freelist = s.freelist) (hstarved : s'.starved = s.starved) :
    Owns L s' plain (d ::ₘ 0) := by
  refine h.move (fun d' hd' => ?_) (by rw [hfree]) hstarved
  obtain rfl : d' = d := by simpa using hd'
  exact hstore.tables

/-- Storing into a page of the program. -/
theorem Built.store (ws : ℕ → ℕ) (h : Built L w₀ plain d m c s) (hm : m ≤ kernbasePage)
    (hv : v < m) (s' : Memory) (hword : s'.word = fillPage s.word (ptePage (pteAt s.word d v)) ws)
    (hfree : s'.freelist = s.freelist) (hstarved : s'.starved = s.starved) :
    Built L w₀ plain d m (fun a => if a / pgsize = v then pageByte ws (a % pgsize) else c a) s' := by
  have hstore := h.owns.storedAt (by omega) (h.present hv) hword
  refine ⟨h.owns.stored hstore hfree hstarved, ?_, ?_, ?_, ?_, ?_⟩
  · intro x hx
    rw [hstore.plain x hx]
    exact h.frame x hx
  · intro u hu
    rw [hstore.tables.dir]
    exact h.kernel u hu
  · intro u hu
    rw [hstore.pteAt_eq (by omega)]
    exact h.below u hu
  · intro u hlow hhigh
    rw [hstore.pteAt_eq hhigh]
    exact h.above u hlow hhigh
  · intro a ha
    have hu : a / pgsize < m := (Nat.div_lt_iff_lt_mul (by decide)).mpr ha
    by_cases hav : a / pgsize = v
    · unfold userByte
      rw [hstore.pteAt_eq (by omega), hav, hword, fillPage_same, if_pos rfl]
    · rw [if_neg hav, hstore.userByte_eq (by omega) hav (h.present hu)]
      exact h.content a ha

/-- The content with `n` bytes of the file from offset `off` at the address `addr`. -/
def ExecFile.loaded (f : ExecFile) (addr off n : ℕ) (c : ℕ → UInt8) : ℕ → UInt8 := fun a =>
  if addr ≤ a ∧ a < addr + n then f.byte (off + (a - addr)) else c a

theorem Built.table (h : Built L w₀ plain d m c s) (hv : Walkable m v) :
    Present (s.word d (v / npentries)) := by
  rcases hv with ⟨u, hu, hdiv⟩ | hv
  · obtain ⟨t, j, hat, -⟩ := exists_entryAt (h.present hu)
    rw [← hdiv]
    exact hat.present
  · exact h.kernel v hv

/-- What `loaduvm` may be called with: there is a table for every page that it looks at,
and what the file holds goes to pages of the program. -/
structure Loadable (f : ExecFile) (m addr off sz : ℕ) : Prop where
  walkable : ∀ u < sz, u = 0 ∨ off + u ≤ f.size → Walkable m (wrap32 (addr + u) / pgsize)
  covered : ∀ u < sz, off + u < f.size → (addr + u) / pgsize < m

theorem Built.congr {c' : ℕ → UInt8} (h : Built L w₀ plain d m c s)
    (hc : ∀ a < m * pgsize, c' a = c a) : Built L w₀ plain d m c' s :=
  ⟨h.owns, h.frame, h.kernel, h.below, h.above, fun a ha => (h.content a ha).trans (hc a ha).symm⟩

/-- Reading from the file into a page of the program, as many bytes as the file has. -/
theorem readPage_built {f : ExecFile} {off b n : ℕ} (h : Built L w₀ plain d m c s)
    (hm : m ≤ kernbasePage) (hv : v < m) (hoff : off < f.size) (hb : 0 < b) (hpage : b ≤ pgsize)
    (hn : n = ptePage (pteAt s.word d v)) :
    Exec.total (readPage f n off b) (fun r s' =>
      (r = true → off + b ≤ f.size ∧ Built L w₀ plain d m (f.loaded (v * pgsize) off b c) s') ∧
      (r = false → Failed L w₀ plain d s')) s := by
  have hlt := f.offset_lt hoff
  have hwrap : wrap32 (off + b) = off + b := wrap32_of_lt (by omega)
  unfold readPage
  split
  · exact Exec.wp_pure.mpr ⟨by simp, fun _ => h.failed⟩
  · exact Exec.wp_pure.mpr ⟨fun hr => by simp at hr; omega, fun _ => h.failed⟩
  · rename_i r hread
    obtain ⟨-, -, hr⟩ := readCount_eq_some_iff.mp hread
    refine Exec.wp_bind.mpr (Exec.wp_bind.mpr (Exec.wp_gets.mpr (Exec.wp_modify.mpr ?_)))
    refine Exec.wp_bind.mpr (Exec.wp_modify.mpr (Exec.wp_pure.mpr ?_))
    have hstore := h.store (overlay (s.word n) 0 ((List.range (r + 1)).map fun i =>
      f.byte (off + i))) hm hv { s with
        word := fillPage s.word n
          (overlay (s.word n) 0 ((List.range (r + 1)).map fun i => f.byte (off + i)))
        trace := .load n :: s.trace } (by rw [hn]) rfl rfl
    refine ⟨fun htrue => ?_, fun _ => hstore.failed⟩
    have hfull : b = r + 1 := of_decide_eq_true htrue
    rw [hwrap] at hr
    refine ⟨by split at hr <;> omega, hstore.congr fun a ha => ?_⟩
    have hdiv := Nat.div_add_mod a pgsize
    unfold ExecFile.loaded
    by_cases hav : a / pgsize = v
    · have hmod : a = v * pgsize + a % pgsize := by
        rw [← hav, Nat.mul_comm]
        exact hdiv.symm
      have hsub : a - v * pgsize = a % pgsize := Nat.sub_eq_of_eq_add' hmod
      have hle : v * pgsize ≤ a := hmod ▸ Nat.le_add_right _ _
      have hiff : a < v * pgsize + b ↔ a % pgsize < r + 1 := by
        rw [← hfull, ← hsub]
        exact (Nat.sub_lt_iff_lt_add' hle).symm
      rw [if_pos hav, pageByte_overlay, List.length_map, List.length_range, Nat.sub_zero,
        Nat.zero_add]
      by_cases hin : a % pgsize < r + 1
      · rw [if_pos ⟨hle, hiff.mpr hin⟩, if_pos ⟨Nat.zero_le _, hin⟩,
          List.getD_eq_getElem?_getD, List.getElem?_map, List.getElem?_range hin,
          Option.map_some, Option.getD_some, hsub]
      · rw [if_neg fun hh => hin (hiff.mp hh.2), if_neg fun hh => hin hh.2, ← h.content a ha]
        unfold userByte
        rw [hav, hn]
    · rw [if_neg hav, if_neg]
      rintro ⟨hlow, hhigh⟩
      refine hav (Nat.div_eq_of_lt_le hlow (hhigh.trans_le ?_))
      rw [Nat.succ_mul]
      exact Nat.add_le_add_left hpage _

/-- Loading one range after another. -/
theorem ExecFile.loaded_append (f : ExecFile) (addr off i b : ℕ) (c : ℕ → UInt8) :
    f.loaded (addr + i) (off + i) b (f.loaded addr off i c) = f.loaded addr off (i + b) c := by
  funext a
  unfold ExecFile.loaded
  by_cases hlow : addr + i ≤ a ∧ a < addr + i + b
  · rw [if_pos hlow, if_pos ⟨by omega, by omega⟩,
      show off + i + (a - (addr + i)) = off + (a - addr) by omega]
  · rw [if_neg hlow]
    by_cases hin : addr ≤ a ∧ a < addr + i
    · rw [if_pos hin, if_pos ⟨by omega, by omega⟩]
    · rw [if_neg hin, if_neg (by omega)]

theorem loadFrom_built {f : ExecFile} {addr offset sz k i : ℕ}
    (h : Built L w₀ plain d m (f.loaded addr offset (min i sz) c) s) (hm : m ≤ kernbasePage)
    (haddr : addr % pgsize = 0) (hi : i % pgsize = 0) (hend : i + pgsize * k < sz + pgsize)
    (hsz : sz ≤ i + pgsize * k) (hoff : offset < 4294967296)
    (hread : i = 0 ∨ offset + min i sz ≤ f.size)
    (hload : Loadable f m addr offset sz) :
    Exec.total (loadFrom d f addr offset sz k i) (fun r s' =>
      (r = true → (sz = 0 ∨ offset + sz ≤ f.size) ∧
        Built L w₀ plain d m (f.loaded addr offset sz c) s') ∧
      (r = false → Failed L w₀ plain d s')) s := by
  induction k generalizing s i with
  | zero =>
      rw [min_eq_right (by omega)] at h hread
      exact Exec.wp_pure.mpr ⟨fun _ => ⟨hread.imp_left (by omega), h⟩, by simp⟩
  | succ k ih =>
      have hisz : i < sz := by
        unfold pgsize at *
        omega
      have hcount : 0 < min (sz - i) pgsize ∧ min (sz - i) pgsize ≤ pgsize := by
        unfold pgsize
        omega
      rw [min_eq_left hisz.le] at h hread
      have hsize := f.size_le
      have hwrap : wrap32 (offset + i) = offset + i := by
        refine wrap32_of_lt ?_
        unfold maxfile bsize at hsize
        omega
      have htable := h.table (hload.walkable i hisz hread)
      unfold loadFrom
      rw [hwrap]
      refine Exec.wp_seq (walkpgdir_false_spec d _ s) ?_ fun _ _ hf => hf.elim
      rintro (_ | ⟨t, j⟩) s1 ⟨rfl, hat⟩
      · exact absurd htable hat
      · refine Exec.wp_bind.mpr (Exec.wp_gets.mpr ?_)
        by_cases hin : offset + i < f.size
        · have hpage := hload.covered i hisz hin
          have hnowrap : wrap32 (addr + i) = addr + i := by
            refine wrap32_of_lt ?_
            unfold kernbasePage pgsize at *
            omega
          rw [hnowrap] at hat
          have hstart : (addr + i) / pgsize * pgsize = addr + i :=
            Nat.div_mul_cancel (Nat.dvd_of_mod_eq_zero (by unfold pgsize at *; omega))
          refine Exec.total_seq (readPage_built h hm hpage hin hcount.1 hcount.2
            (by rw [hat.pteAt_eq])) ?_
          rintro (_ | _) s2 ⟨htrue, hfalse⟩
          · exact Exec.wp_pure.mpr ⟨by simp, fun _ => hfalse rfl⟩
          · obtain ⟨hfit, h2⟩ := htrue rfl
            have hmin : i + min (sz - i) pgsize = min (i + pgsize) sz := by omega
            rw [hstart, ExecFile.loaded_append, hmin] at h2
            rw [Nat.add_assoc, hmin] at hfit
            exact ih h2 (by unfold pgsize at *; omega) (by unfold pgsize at *; omega)
              (by unfold pgsize at *; omega) (Or.inr hfit)
        · rw [readPage_past (by omega) hcount.2]
          refine Exec.wp_bind.mpr (Exec.wp_pure.mpr ?_)
          rw [decide_eq_false (by omega), if_neg (by simp)]
          exact Exec.wp_pure.mpr ⟨by simp, fun _ => h.failed⟩

theorem loaduvm_built {f : ExecFile} {addr offset sz : ℕ} (h : Built L w₀ plain d m c s)
    (hm : m ≤ kernbasePage) (haddr : addr % pgsize = 0) (hoff : offset < 4294967296)
    (hload : Loadable f m addr offset sz) :
    Exec.total (loaduvm d addr f offset sz) (fun r s' =>
      (r = true → (sz = 0 ∨ offset + sz ≤ f.size) ∧
        Built L w₀ plain d m (f.loaded addr offset sz c) s') ∧
      (r = false → Failed L w₀ plain d s')) s := by
  have hzero : f.loaded addr offset (min 0 sz) c = c := by
    funext a
    unfold ExecFile.loaded
    rw [if_neg (by omega)]
  unfold loaduvm
  rw [if_neg (not_not.mpr haddr)]
  refine loadFrom_built (hzero.symm ▸ h) hm haddr (Nat.zero_mod _) ?_ ?_ hoff (Or.inl rfl) hload
  · unfold pagesOf pgsize
    omega
  · unfold pagesOf pgsize
    omega

end Vm

end Xv6
