import Mathlib.Algebra.Order.Ring.Nat
import Mathlib.Data.Finset.Card
import Mathlib.Data.Finset.Range
import Xv6.Fs.Dir

/-!
# Running out

A call of the file system may stop because something runs out: blocks, inodes,
entries of the inode cache, the log, or a lock that nobody else will release.
Such stops are `Scarce`, and a specification is written for a run that is
*given* enough: `given R m Q s` says that `m` returns in `Q`, or stops for want
of something of which `R` has not promised enough.  With `R` true everywhere this is
termination; with `R` false it says that the run returns in `Q` or is out of
something, and that no other `panic` is reached.
-/

namespace Xv6.Fs

open Support

/-- The stops of a run that is out of something. -/
def Scarce (e : Stop) : Prop :=
  e = .asleep ∨ e = .tooBigATransaction ∨ e = .writeOutsideOfTrans ∨ e = .ballocOutOfBlocks ∨
    e = .iallocNoInodes ∨ e = .igetNoInodes

/-- The run returns in `Q`, or is out of something that `R` has not promised. -/
abbrev given {α : Type} (R : Stop → Prop) (m : FsM α) (Q : α → Volume → Prop) (s : Volume) :
    Prop :=
  Exec.wp m Q (fun e _ => Scarce e ∧ ¬R e) s

section Rules

variable {α β : Type} {R : Stop → Prop} {m : FsM α} {Q : α → Volume → Prop} {s : Volume}

theorem given_mono {Q' : α → Volume → Prop} (h : given R m Q s)
    (hQ : ∀ a s', Q a s' → Q' a s') : given R m Q' s :=
  Exec.wp_mono h hQ fun _ _ h => h

theorem given_seq {f : α → FsM β} {Q' : β → Volume → Prop} (h : given R m Q s)
    (hf : ∀ a s', Q a s' → given R (f a) Q' s') : given R (m >>= f) Q' s :=
  Exec.wp_seq h hf fun _ _ h => h

theorem given.total (h : given R m Q s) (hR : ∀ e, R e) : Exec.total m Q s :=
  Exec.wp_mono h (fun _ _ h => h) fun e _ h => h.2 (hR e)

end Rules

/-! ## The log -/

namespace Volume

/-- What `log_write` of block `b` records. -/
def logged (s : Volume) (b : ℕ) : Volume :=
  s.setSectors (record b s.log.sector)

/-- The log can still record `r` blocks besides those in `A`. -/
structure Room (s : Volume) (A : Finset ℕ) (r : ℕ) : Prop where
  size : 10 ≤ s.log.size
  nodup : s.log.sector.Nodup
  card : (s.log.sector.toFinset ∪ A).card + r ≤ 8

variable {s : Volume} {A : Finset ℕ} {b r : ℕ}

theorem Room.of_log {s' : Volume} (h : s.Room A r) (hlog : s'.log = s.log) : s'.Room A r := by
  constructor
  · rw [hlog]
    exact h.size
  · rw [hlog]
    exact h.nodup
  · rw [hlog]
    exact h.card

theorem Room.mono {A' : Finset ℕ} {r' : ℕ} (h : s.Room A r) (hA : A' ⊆ A) (hr : r' ≤ r) :
    s.Room A' r' := by
  have hcard := Finset.card_le_card (Finset.union_subset_union_right (s := s.log.sector.toFinset) hA)
  exact ⟨h.size, h.nodup, by have := h.card; omega⟩

theorem Room.length_le (h : s.Room A r) : s.log.sector.length + r ≤ 8 := by
  have hlen := List.toFinset_card_of_nodup h.nodup
  have hsub : s.log.sector.toFinset ⊆ s.log.sector.toFinset ∪ A := Finset.subset_union_left
  have hcard := Finset.card_le_card hsub
  have := h.card
  omega

theorem nodup_record {l : List ℕ} (h : l.Nodup) : (record b l).Nodup := by
  unfold record
  split
  · exact h
  · rename_i hb
    exact List.nodup_append.mpr ⟨h, by simp, by
      intro x hx y hy
      rw [List.mem_singleton.mp hy]
      rintro rfl
      exact hb hx⟩

theorem mem_record {x : ℕ} {l : List ℕ} : x ∈ record b l ↔ x = b ∨ x ∈ l := by
  unfold record
  split
  · rename_i hb
    constructor
    · exact Or.inr
    · rintro (rfl | h)
      · exact hb
      · exact h
  · simp [or_comm]

theorem toFinset_record (l : List ℕ) : (record b l).toFinset = insert b l.toFinset := by
  ext x
  simp [mem_record]

/-- Recording a block that was counted already. -/
theorem Room.logged_mem (h : s.Room A r) (hb : b ∈ A ∨ b ∈ s.log.sector) :
    (s.logged b).Room A r := by
  refine ⟨h.size, nodup_record h.nodup, ?_⟩
  have hmem : b ∈ s.log.sector.toFinset ∪ A := by
    rw [Finset.mem_union, List.mem_toFinset]
    exact hb.symm
  change ((record b s.log.sector).toFinset ∪ A).card + r ≤ 8
  rw [toFinset_record, Finset.insert_union, Finset.insert_eq_of_mem hmem]
  exact h.card

/-- Recording any block. -/
theorem Room.logged (h : s.Room A (r + 1)) : (s.logged b).Room A r := by
  refine ⟨h.size, nodup_record h.nodup, ?_⟩
  change ((record b s.log.sector).toFinset ∪ A).card + r ≤ 8
  rw [toFinset_record, Finset.insert_union]
  have hcard := Finset.card_insert_le b (s.log.sector.toFinset ∪ A)
  have := h.card
  omega

theorem mem_logged (s : Volume) (b : ℕ) : b ∈ (s.logged b).log.sector :=
  mem_record.mpr (Or.inl rfl)

/-- `log.start`. -/
def logStart (s : Volume) : ℕ :=
  s.size - s.log.size

/-- The free blocks that are not part of the log. -/
def freeBlocks (s : Volume) : Finset ℕ :=
  (Finset.range s.logStart).filter fun b => s.used b = false

theorem mem_freeBlocks {s : Volume} {b : ℕ} :
    b ∈ s.freeBlocks ↔ b < s.logStart ∧ s.used b = false := by
  simp [freeBlocks]

theorem logStart_le (s : Volume) : s.logStart ≤ s.size :=
  Nat.sub_le _ _

/-- There are `m` free blocks and what `R` promises: a running transaction, and room in
the log for `r` blocks besides those in `A`. -/
structure Ample (s : Volume) (R : Stop → Prop) (A : Finset ℕ) (r m : ℕ) : Prop where
  busy : R .writeOutsideOfTrans → s.log.busy = true
  room : R .tooBigATransaction → s.Room A r
  free : m ≤ s.freeBlocks.card

variable {R : Stop → Prop} {m : ℕ}

theorem Ample.mono {A' : Finset ℕ} {r' m' : ℕ} (h : s.Ample R A r m) (hA : A' ⊆ A)
    (hr : r' ≤ r) (hm : m' ≤ m) : s.Ample R A' r' m' :=
  ⟨h.busy, fun hR => (h.room hR).mono hA hr, hm.trans h.free⟩

theorem Ample.of_same {s' : Volume} (h : s.Ample R A r m) (hlog : s'.log = s.log)
    (hused : s'.used = s.used) (hsize : s'.size = s.size) : s'.Ample R A r m := by
  refine ⟨fun hR => by rw [hlog]; exact h.busy hR, fun hR => (h.room hR).of_log hlog, ?_⟩
  have hfree : s'.freeBlocks = s.freeBlocks := by
    unfold freeBlocks logStart
    rw [hused, hsize, hlog]
  rw [hfree]
  exact h.free

theorem Ample.logged (h : s.Ample R A (r + 1) m) : (s.logged b).Ample R A r m :=
  ⟨h.busy, fun hR => (h.room hR).logged, h.free⟩

theorem Ample.logged_mem (h : s.Ample R A r m) (hb : b ∈ A ∨ b ∈ s.log.sector) :
    (s.logged b).Ample R A r m :=
  ⟨h.busy, fun hR => (h.room hR).logged_mem hb, h.free⟩

/-- The state in which `balloc` returns block `b`. -/
def allocate (s : Volume) (b : ℕ) : Volume :=
  ((((s.setUsed b true).logged (bblock b s.ninodes)).setBlock b Block.zero).logged b)

theorem freeBlocks_allocate {s : Volume} {b : ℕ} :
    (s.allocate b).freeBlocks = s.freeBlocks.erase b := by
  ext c
  rw [mem_freeBlocks, Finset.mem_erase, mem_freeBlocks]
  change c < s.logStart ∧ Function.update s.used b true c = false ↔ _
  by_cases hcb : c = b
  · simp [hcb]
  · simp [hcb]

theorem Ample.allocate (h : s.Ample R A (r + 2) (m + 1)) (hb : b ∈ s.freeBlocks) :
    (s.allocate b).Ample R A r m := by
  refine ⟨h.busy, fun hR => ?_, ?_⟩
  · have hused : (s.setUsed b true).Room A (r + 2) := (h.room hR).of_log rfl
    have hblock : (((s.setUsed b true).logged (bblock b s.ninodes)).setBlock b Block.zero).Room
        A (r + 1) := hused.logged.of_log rfl
    exact hblock.logged
  · rw [freeBlocks_allocate, Finset.card_erase_of_mem hb]
    have := h.free
    omega

end Volume

theorem logWrite_spec {R : Stop → Prop} {s : Volume} {A : Finset ℕ} {b r m : ℕ}
    (hR : s.Ample R A r m) : given R (logWrite b) (fun _ s' => s' = s.logged b) s := by
  apply Exec.wp_bind.mpr
  apply Exec.wp_gets.mpr
  split
  · rename_i hfull
    refine Exec.wp_throw.mpr ⟨Or.inr (Or.inl rfl), fun hr => ?_⟩
    have hlen := (hR.room hr).length_le
    have hsize := (hR.room hr).size
    unfold logsize at hfull
    omega
  · split
    · rename_i hbusy
      refine Exec.wp_throw.mpr ⟨Or.inr (Or.inr (Or.inl rfl)), fun hr => ?_⟩
      rw [hR.busy hr] at hbusy
      cases hbusy
    · exact Exec.wp_modify.mpr rfl

/-! ## Allocating blocks -/

theorem firstFree_eq_some {size b : ℕ} {used : ℕ → Bool} (h : firstFree size used = some b) :
    b < size ∧ used b = false := by
  have hused := List.find?_some h
  have hmem := List.mem_of_find?_eq_some h
  exact ⟨List.mem_range.mp hmem, by simpa using hused⟩

theorem firstFree_eq_none {size : ℕ} {used : ℕ → Bool} (h : firstFree size used = none) :
    ∀ b < size, used b = true := by
  intro b hb
  simpa using List.find?_eq_none.mp h b (List.mem_range.mpr hb)

/-- The free block with the least number is found. -/
theorem firstFree_le {size b c : ℕ} {used : ℕ → Bool} (h : firstFree size used = some b)
    (hc : used c = false) : b ≤ c := by
  unfold firstFree at h
  rw [List.find?_range_eq_some] at h
  by_contra hlt
  have := h.2.2 c (not_le.mp hlt)
  simp [hc] at this

theorem balloc_spec {R : Stop → Prop} {s : Volume} {A : Finset ℕ} {r m : ℕ}
    (hR : s.Ample R A (r + 2) (m + 1)) :
    given R balloc (fun b s' => b ∈ s.freeBlocks ∧ s' = s.allocate b) s := by
  have hcard := hR.free
  obtain ⟨c, hc⟩ := Finset.card_pos.mp (show 0 < s.freeBlocks.card by omega)
  obtain ⟨hlt, hunused⟩ := Volume.mem_freeBlocks.mp hc
  apply Exec.wp_bind.mpr
  apply Exec.wp_gets.mpr
  cases hfree : firstFree s.size s.used with
  | none =>
      simp only [id_eq, hfree]
      have hall := firstFree_eq_none hfree c (hlt.trans_le s.logStart_le)
      rw [hunused] at hall
      cases hall
  | some b =>
      have hle := firstFree_le hfree hunused
      obtain ⟨-, hb⟩ := firstFree_eq_some hfree
      have hroom : (s.setUsed b true).Ample R A (r + 2) 0 :=
        ⟨hR.busy, fun hr => (hR.room hr).of_log rfl, Nat.zero_le _⟩
      simp only [id_eq, hfree]
      apply Exec.wp_bind.mpr
      apply Exec.wp_modify.mpr
      apply given_seq (logWrite_spec hroom)
      rintro _ _ rfl
      apply Exec.wp_bind.mpr
      apply Exec.wp_bind.mpr
      apply Exec.wp_modify.mpr
      have hroom' : (((s.setUsed b true).logged (bblock b s.ninodes)).setBlock b
          Block.zero).Ample R A (r + 1) 0 := hroom.logged.of_same rfl rfl rfl
      apply given_mono (logWrite_spec hroom')
      rintro _ _ rfl
      exact Exec.wp_pure.mpr ⟨Volume.mem_freeBlocks.mpr ⟨hle.trans_lt hlt, hb⟩, rfl⟩

end Xv6.Fs
