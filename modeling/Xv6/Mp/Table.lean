import Mathlib.Data.List.Count
import Mathlib.Data.List.Range
import Mathlib.Logic.Function.Basic
import Xv6.Param

/-!
# The MP configuration table

`mp.c`: the search for the tables that the firmware leaves in memory, and the
walk over the entries of the configuration table that counts the processors.

Memory is read at physical addresses; `p2v` only adds the same number to all of
them.  The writes to the IMCR at the end of `mpinit` go to an I/O port and are
left out.
-/

namespace Xv6.Mp

/-- `NCPU`, the length of `cpus`. -/
abbrev ncpus : ℕ := 8

/-- `MPPROC`: an entry for a processor. -/
abbrev mpproc : UInt8 := 0

/-- `MPBUS`: an entry for a bus. -/
abbrev mpbus : UInt8 := 1

/-- `MPIOAPIC`: an entry for an I/O APIC. -/
abbrev mpioapic : UInt8 := 2

/-- `MPIOINTR`: an entry for a bus interrupt source. -/
abbrev mpiointr : UInt8 := 3

/-- `MPLINTR`: an entry for a system interrupt source. -/
abbrev mplintr : UInt8 := 4

/-- `MPBOOT`, the flag of the bootstrap processor. -/
abbrev mpboot : UInt8 := 2

variable (mem : ℕ → UInt8)

/-- The `n` bytes at address `a`. -/
def bytesAt (a n : ℕ) : List UInt8 :=
  (List.range n).map fun i => mem (a + i)

/-- The little-endian number in the bytes at address `a`. -/
def numberAt (a n : ℕ) : ℕ :=
  (bytesAt mem a n).foldr (fun c v => c.toNat + 256 * v) 0

/-- `sum`. -/
def sum (a n : ℕ) : UInt8 :=
  (bytesAt mem a n).foldl (· + ·) 0

/-! ## Finding the table -/

/-- `mpsearch1`. -/
def mpsearch1 (a len : ℕ) : Option ℕ :=
  ((List.range ((len + 15) / 16)).map fun i => a + 16 * i).find? fun p =>
    bytesAt mem p 4 = [95, 77, 80, 95] ∧ sum mem p 16 = 0

/-- `mpsearch`: the address of the `struct mp`. -/
def mpsearch : Option ℕ :=
  let p := numberAt mem 0x40e 2 * 16
  let found :=
    if p ≠ 0 then mpsearch1 mem p 1024
    else mpsearch1 mem (uint32 (numberAt mem 0x413 2 * 1024 - 1024)) 1024
  found.or (mpsearch1 mem 0xf0000 0x10000)

/-- `mp->physaddr`. -/
def physaddr (mp : ℕ) : ℕ :=
  numberAt mem (mp + 4) 4

/-- `sizeof(struct mpconf)`. -/
abbrev mpconfSize : ℕ := 44

/-- `conf->length`. -/
def length (conf : ℕ) : ℕ :=
  numberAt mem (conf + 4) 2

/-- `mpconfig`: the address of the `struct mpconf` that is accepted. -/
def mpconfig : Option ℕ :=
  match mpsearch mem with
  | none => none
  | some mp =>
      let conf := physaddr mem mp
      if conf = 0 then none
      else if bytesAt mem conf 4 ≠ [80, 67, 77, 80] then none
      else if mem (conf + 6) ≠ 1 ∧ mem (conf + 6) ≠ 4 then none
      else if sum mem conf (length mem conf) ≠ 0 then none
      else some conf

/-! ## Walking over the entries -/

/-- The variables that `mpinit` sets.  `stores` are the indices at which it has
stored into `cpus`, latest first. -/
structure Cpus where
  ismp : Bool
  ncpu : ℕ
  bcpu : ℕ
  lapic : ℕ
  ioapicid : UInt8
  id : ℕ → UInt8
  stores : List ℕ

/-- The variables when the kernel starts. -/
def boot : Cpus := ⟨false, 0, 0, 0, 0, fun _ => 0, []⟩

/-- The bytes by which the loop of `mpinit` advances over an entry of a type. -/
def entrySize (type : UInt8) : ℕ :=
  if type = mpproc then 20
  else if type = mpioapic then 8
  else if type = mpbus ∨ type = mpiointr ∨ type = mplintr then 8
  else 0

/-- The entry at `p` for a processor. -/
def addCpu (p : ℕ) (st : Cpus) : Cpus :=
  { st with
    ismp := st.ismp && st.ncpu == (mem (p + 1)).toNat
    bcpu := if mem (p + 3) &&& mpboot ≠ 0 then st.ncpu else st.bcpu
    id := Function.update st.id st.ncpu (UInt8.ofNat st.ncpu)
    stores := st.ncpu :: st.stores
    ncpu := st.ncpu + 1 }

/-- The body of the loop of `mpinit` at the entry at `p`. -/
def mpentry (p : ℕ) (st : Cpus) : ℕ × Cpus :=
  if mem p = mpproc then (p + 20, addCpu mem p st)
  else if mem p = mpioapic then (p + 8, { st with ioapicid := mem (p + 1) })
  else if mem p = mpbus ∨ mem p = mpiointr ∨ mem p = mplintr then (p + 8, st)
  else (p, { st with ismp := false })

/-- The loop of `mpinit` for at most `n` rounds, `none` if it has not ended by
then. -/
def mploop (e : ℕ) : ℕ → ℕ → Cpus → Option Cpus
  | 0, p, st => if p < e then none else some st
  | n + 1, p, st =>
      if p < e then mploop e n (mpentry mem p st).1 (mpentry mem p st).2 else some st

/-- `mpinit`, with at most `n` rounds of its loop. -/
def mpinit (n : ℕ) : Option Cpus :=
  match mpconfig mem with
  | none => some boot
  | some conf =>
      (mploop mem (conf + length mem conf) n (conf + mpconfSize)
        { boot with ismp := true, lapic := numberAt mem (conf + 36) 4 }).map fun st =>
          if st.ismp then st
          else { st with ncpu := 1, lapic := 0, ioapicid := 0 }

/-- The loop, from `p` on, comes to an entry at `q`. -/
inductive Meets (e : ℕ) : ℕ → ℕ → Prop
  | here {p : ℕ} (h : p < e) : Meets e p p
  | later {p q : ℕ} (h : p < e) (hq : Meets e (p + entrySize (mem p)) q) : Meets e p q

/-- The types of entries that `mpinit` knows. -/
def Known (type : UInt8) : Prop :=
  type = mpproc ∨ type = mpbus ∨ type = mpioapic ∨ type = mpiointr ∨ type = mplintr

instance (type : UInt8) : Decidable (Known type) :=
  inferInstanceAs (Decidable (_ ∨ _))

/-- The types of the entries that the loop comes to from `p` on, in at most `n` rounds. -/
def typesFrom (e : ℕ) : ℕ → ℕ → List UInt8
  | 0, _ => []
  | n + 1, p => if p < e then mem p :: typesFrom e n (p + entrySize (mem p)) else []

/-- Where the last of these entries ends. -/
def endFrom (e : ℕ) : ℕ → ℕ → ℕ
  | 0, p => p
  | n + 1, p => if p < e then endFrom e n (p + entrySize (mem p)) else p

/-- The types of the entries of the table at `conf`. -/
def entryTypes (conf : ℕ) : List UInt8 :=
  typesFrom mem (conf + length mem conf) (length mem conf) (conf + mpconfSize)

/-- Where the last entry of the table at `conf` ends. -/
def entriesEnd (conf : ℕ) : ℕ :=
  endFrom mem (conf + length mem conf) (length mem conf) (conf + mpconfSize)

variable {mem} {e p q : ℕ} {st : Cpus}

theorem mpentry_fst : (mpentry mem p st).1 = p + entrySize (mem p) := by
  unfold mpentry entrySize
  split
  · rfl
  · split
    · rfl
    · split <;> rfl

/-- Only processor entries touch `cpus`, and no known entry is disliked for its type. -/
theorem mpentry_snd_of_ne (hknown : Known (mem p)) (hproc : mem p ≠ mpproc) :
    (mpentry mem p st).2.ncpu = st.ncpu ∧ (mpentry mem p st).2.stores = st.stores ∧
      (mpentry mem p st).2.ismp = st.ismp := by
  unfold mpentry
  rw [if_neg hproc]
  split
  · exact ⟨rfl, rfl, rfl⟩
  · rename_i hioapic
    have hother : mem p = mpbus ∨ mem p = mpiointr ∨ mem p = mplintr := by
      rcases hknown with h | h | h | h | h
      · exact absurd h hproc
      · exact Or.inl h
      · exact absurd h hioapic
      · exact Or.inr (Or.inl h)
      · exact Or.inr (Or.inr h)
    rw [if_pos hother]
    exact ⟨rfl, rfl, rfl⟩

theorem entrySize_of_known {type : UInt8} (h : Known type) : 8 ≤ entrySize type := by
  rcases h with rfl | rfl | rfl | rfl | rfl <;> decide

theorem entrySize_of_not_known {type : UInt8} (h : ¬Known type) : entrySize type = 0 := by
  simp only [Known, not_or] at h
  simp [entrySize, h]

theorem Meets.lt (h : Meets mem e p q) : p < e := by
  cases h with
  | here hp => exact hp
  | later hp _ => exact hp

/-- The entries that the loop comes to are those whose types are listed. -/
theorem known_of_typesFrom {n : ℕ} (hn : e ≤ p + n) (h : ∀ type ∈ typesFrom mem e n p, Known type)
    (hq : Meets mem e p q) : Known (mem q) := by
  induction n generalizing p with
  | zero => exact absurd hq.lt (by omega)
  | succ n ih =>
      have hp := hq.lt
      rw [typesFrom, if_pos hp] at h
      have hfirst : Known (mem p) := h (mem p) List.mem_cons_self
      have hsize := entrySize_of_known hfirst
      cases hq with
      | here => exact hfirst
      | later _ hlater =>
          exact ih (by omega) (fun type htype => h type (List.mem_cons_of_mem _ htype)) hlater

theorem endFrom_of_le {n : ℕ} (h : e ≤ p) : endFrom mem e n p = p := by
  cases n with
  | zero => rfl
  | succ n => rw [endFrom, if_neg (by omega)]

/-- All entries lie below `e` if the last one does. -/
theorem meets_within_iff {n : ℕ} (hknown : ∀ q, Meets mem e p q → Known (mem q))
    (hn : e ≤ p + n) : (∀ q, Meets mem e p q → q + entrySize (mem q) ≤ e) ↔
      (p < e → endFrom mem e n p ≤ e) := by
  induction n generalizing p with
  | zero => exact iff_of_true (fun q hq => absurd hq.lt (by omega)) fun hp => absurd hp (by omega)
  | succ n ih =>
      by_cases hp : p < e
      · have hsize := entrySize_of_known (hknown p (.here hp))
        have hlater := ih (p := p + entrySize (mem p)) (fun q hq => hknown q (.later hp hq))
          (by omega)
        rw [endFrom, if_pos hp]
        constructor
        · intro hall _
          have hfirst := hall p (.here hp)
          by_cases hnext : p + entrySize (mem p) < e
          · exact hlater.mp (fun q hq => hall q (.later hp hq)) hnext
          · rw [endFrom_of_le (by omega)]
            exact hfirst
        · intro hend q hq
          have hle := hend hp
          cases hq with
          | here =>
              by_contra hover
              rw [endFrom_of_le (by omega)] at hle
              omega
          | later _ hq => exact hlater.mpr (fun _ => hle) q hq
      · exact iff_of_true (fun q hq => absurd hq.lt hp) fun h => absurd h hp

/-- An entry of a type that the loop does not know is never passed. -/
theorem mploop_of_unknown (hmeets : Meets mem e p q) (hq : ¬Known (mem q)) (n : ℕ) :
    mploop mem e n p st = none := by
  have hp := hmeets.lt
  induction n generalizing p st with
  | zero => rw [mploop, if_pos hp]
  | succ n ih =>
      have hagain : Meets mem e (p + entrySize (mem p)) q := by
        cases hmeets with
        | here =>
            rw [entrySize_of_not_known hq, Nat.add_zero]
            exact Meets.here hp
        | later _ hlater => exact hlater
      rw [mploop, if_pos hp, mpentry_fst]
      exact ih hagain hagain.lt

/-- Over known entries the loop advances until it ends. -/
theorem mploop_of_known (hknown : ∀ q, Meets mem e p q → Known (mem q)) {n : ℕ}
    (hn : e ≤ p + n) : ∃ st', mploop mem e n p st = some st' := by
  induction n generalizing p st with
  | zero => exact ⟨st, by rw [mploop, if_neg (by omega)]⟩
  | succ n ih =>
      by_cases hp : p < e
      · have hsize := entrySize_of_known (hknown p (Meets.here hp))
        rw [mploop, if_pos hp, mpentry_fst]
        exact ih (fun q hq => hknown q (Meets.later hp hq)) (by omega)
      · exact ⟨st, by rw [mploop, if_neg hp]⟩

end Xv6.Mp
