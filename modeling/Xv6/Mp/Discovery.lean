import Mathlib.Data.List.Count
import Xv6.Mp.Table

/-!
# What the walk over the MP table does

The loop of `mpinit` ends if and only if every entry it comes to is of a type that
it knows.  On a table of such entries it stores into `cpus` once for each
processor, without a bound.
-/

namespace Xv6.Mp

/-! ## Tables to try -/

/-- Memory with a list of bytes put at an address. -/
def put (base : ℕ) (cs : List UInt8) (mem : ℕ → UInt8) : ℕ → UInt8 := fun a =>
  if base ≤ a ∧ a - base < cs.length then cs.getD (a - base) 0 else mem a

/-- A configuration table with the given entries. -/
def table (entries : List UInt8) : List UInt8 :=
  let n := mpconfSize + entries.length
  let header := fun checksum : UInt8 =>
    [80, 67, 77, 80, UInt8.ofNat n, UInt8.ofNat (n / 256), 4, checksum] ++
      List.replicate 28 0 ++ [0, 0, 0xe0, 0xfe] ++ List.replicate 4 0
  header (0 - (header 0 ++ entries).foldl (· + ·) 0) ++ entries

/-- Memory in which the extended BIOS data area starts with a `struct mp` that
points to a configuration table behind it. -/
def firmware (entries : List UInt8) : ℕ → UInt8 :=
  put 0x40e [0xc0, 0x9f] <|
    put 0x9fc00 [95, 77, 80, 95, 0x00, 0xfd, 0x09, 0x00, 1, 4, 154, 0, 0, 0, 0, 0] <|
      put 0x9fd00 (table entries) fun _ => 0

/-- The entry for the processor with a local APIC id. -/
def processor (apicid : UInt8) : List UInt8 :=
  [mpproc, apicid, 0x14, 1] ++ List.replicate 16 0

variable {mem : ℕ → UInt8} {conf : ℕ}

/-! ## The end of the loop -/

theorem mpinit_eq_some {n : ℕ} {st : Cpus} (h : mpconfig mem = some conf)
    (hrun : mpinit mem n = some st) :
    ∃ st', mploop mem (conf + length mem conf) n (conf + mpconfSize)
        { boot with ismp := true, lapic := numberAt mem (conf + 36) 4 } = some st' ∧
      st = if st'.ismp then st' else { st' with ncpu := 1, lapic := 0, ioapicid := 0 } := by
  simp only [mpinit, h, Option.map_eq_some_iff] at hrun
  obtain ⟨st', hloop, rfl⟩ := hrun
  exact ⟨st', hloop, rfl⟩

/-- `mpinit` gets to the end of the table, advancing over every entry it comes to,
if and only if it knows the types of them all. -/
theorem mpinit_finishes_iff (h : mpconfig mem = some conf) :
    ((∃ n st, mpinit mem n = some st) ∧
        ∀ p st, Meets mem (conf + length mem conf) (conf + mpconfSize) p →
          p < (mpentry mem p st).1) ↔
      ∀ p, Meets mem (conf + length mem conf) (conf + mpconfSize) p → Known (mem p) := by
  constructor
  · rintro ⟨⟨n, st, hrun⟩, -⟩ p hp
    by_contra hunknown
    obtain ⟨st', hloop, -⟩ := mpinit_eq_some h hrun
    rw [mploop_of_unknown hp hunknown] at hloop
    cases hloop
  · intro hknown
    have hends : ∃ st', mploop mem (conf + length mem conf) (length mem conf) (conf + mpconfSize)
        { boot with ismp := true, lapic := numberAt mem (conf + 36) 4 } = some st' :=
      mploop_of_known hknown (by omega)
    obtain ⟨st', hloop⟩ := hends
    refine ⟨⟨length mem conf, ?_⟩, fun p st hp => ?_⟩
    · simp only [mpinit, h, hloop, Option.map_some]
      exact ⟨_, rfl⟩
    · have hsize := entrySize_of_known (hknown p hp)
      rw [mpentry_fst]
      omega

/-- The table of a machine with one processor. -/
theorem mpinit_finishes_uniprocessor :
    mpconfig (firmware (processor 0)) = some 0x9fd00 ∧
      (((∃ n st, mpinit (firmware (processor 0)) n = some st) ∧
          ∀ p st, Meets (firmware (processor 0))
              (0x9fd00 + length (firmware (processor 0)) 0x9fd00) (0x9fd00 + mpconfSize) p →
            p < (mpentry (firmware (processor 0)) p st).1) ↔
        ∀ p, Meets (firmware (processor 0))
            (0x9fd00 + length (firmware (processor 0)) 0x9fd00) (0x9fd00 + mpconfSize) p →
          Known (firmware (processor 0) p)) :=
  have h : mpconfig (firmware (processor 0)) = some 0x9fd00 := by decide +kernel
  ⟨h, mpinit_finishes_iff h⟩

/-- A table that `mpconfig` accepts, with one entry of the unknown type 5: the loop of
`mpinit` never ends. -/
theorem mpinit_hangs :
    mpconfig (firmware [5, 0, 0, 0, 0, 0, 0, 0]) = some 0x9fd00 ∧
      ∀ n, mpinit (firmware [5, 0, 0, 0, 0, 0, 0, 0]) n = none := by
  have h : mpconfig (firmware [5, 0, 0, 0, 0, 0, 0, 0]) = some 0x9fd00 := by decide +kernel
  have hmeets : Meets (firmware [5, 0, 0, 0, 0, 0, 0, 0])
      (0x9fd00 + length (firmware [5, 0, 0, 0, 0, 0, 0, 0]) 0x9fd00) (0x9fd00 + mpconfSize)
      (0x9fd00 + mpconfSize) := Meets.here (by decide +kernel)
  have hunknown : ¬Known (firmware [5, 0, 0, 0, 0, 0, 0, 0] (0x9fd00 + mpconfSize)) := by
    decide +kernel
  refine ⟨h, fun n => ?_⟩
  simp only [mpinit, h, mploop_of_unknown hmeets hunknown, Option.map_none]

/-! ## The processors -/

/-- The loop stores into `cpus` at the next index for each processor entry. -/
theorem mploop_of_types {e p m n : ℕ} {st st' : Cpus}
    (hknown : ∀ q, Meets mem e p q → Known (mem q)) (hm : e ≤ p + m)
    (hrun : mploop mem e n p st = some st') :
    st'.ncpu = st.ncpu + (typesFrom mem e m p).count mpproc ∧
      st'.stores = (List.range' st.ncpu ((typesFrom mem e m p).count mpproc)).reverse ++
        st.stores ∧
      (mpproc ∉ typesFrom mem e m p → st'.ismp = st.ismp) := by
  have hends : e ≤ p → st' = st := by
    intro hle
    cases n with
    | zero => simpa [mploop, not_lt.mpr hle, eq_comm] using hrun
    | succ n => simpa [mploop, not_lt.mpr hle, eq_comm] using hrun
  induction m generalizing n p st with
  | zero =>
      rw [hends (by omega)]
      simp [typesFrom]
  | succ m ih =>
      by_cases hlt : p < e
      · have hfirst := hknown p (.here hlt)
        have hsize := entrySize_of_known hfirst
        cases n with
        | zero => simp [mploop, hlt] at hrun
        | succ n =>
            rw [mploop, if_pos hlt, mpentry_fst] at hrun
            obtain ⟨hncpu, hstores, hismp⟩ := ih (fun q hq => hknown q (.later hlt hq)) (by omega)
              hrun (fun hle => by
                cases n <;> simpa [mploop, not_lt.mpr hle, eq_comm] using hrun)
            rw [typesFrom, if_pos hlt]
            by_cases hproc : mem p = mpproc
            · have hst : (mpentry mem p st).2 = addCpu mem p st := by
                simp [mpentry, hproc]
              rw [hst] at hncpu hstores
              rw [hncpu, hstores, hproc, List.count_cons_self]
              refine ⟨?_, ?_, ?_⟩
              · simp only [addCpu]
                omega
              · rw [List.range'_succ]
                simp [addCpu]
              · simp
            · have hst : (mpentry mem p st).2.ncpu = st.ncpu ∧
                  (mpentry mem p st).2.stores = st.stores ∧
                  (mpentry mem p st).2.ismp = st.ismp := mpentry_snd_of_ne hfirst hproc
              rw [hst.1] at hncpu hstores
              rw [hst.2.1] at hstores
              rw [hst.2.2] at hismp
              rw [List.count_cons_of_ne hproc]
              refine ⟨hncpu, hstores, ?_⟩
              intro hnone
              exact hismp (by simp_all)
      · rw [hends (by omega), typesFrom, if_neg hlt]
        simp

/-- `mpinit` stays inside `cpus`, inside the table and inside the range of `ncpu` if and
only if the table has at least one entry for a processor and at most `NCPU`, and its last
entry is whole. -/
theorem mpinit_in_bounds_iff (h : mpconfig mem = some conf)
    (hknown : ∀ p, Meets mem (conf + length mem conf) (conf + mpconfSize) p → Known (mem p)) :
    (∃ n st, mpinit mem n = some st ∧ (∀ i ∈ st.stores, i < ncpus) ∧
        (st.ismp = true → 1 ≤ st.ncpu ∧ st.ncpu ≤ ncpus) ∧
        ∀ p, Meets mem (conf + length mem conf) (conf + mpconfSize) p →
          p + entrySize (mem p) ≤ conf + length mem conf) ↔
      1 ≤ (entryTypes mem conf).count mpproc ∧ (entryTypes mem conf).count mpproc ≤ ncpus ∧
        entriesEnd mem conf ≤ conf + length mem conf := by
  have hstores : ∀ {st : Cpus} {k : ℕ}, st.stores = (List.range' 0 k).reverse ++ [] →
      ((∀ i ∈ st.stores, i < ncpus) ↔ k ≤ ncpus) := by
    intro st k hst
    rw [hst, List.append_nil]
    constructor
    · intro hlt
      cases k with
      | zero => omega
      | succ k =>
          have hk : k ∈ (List.range' 0 (k + 1)).reverse := by simp
          have := hlt k hk
          omega
    · intro hk i hi
      have hi' : i < k := by simpa using hi
      omega
  have hwithin := meets_within_iff hknown (n := length mem conf) (by omega)
  -- a table with a processor entry has an entry
  have hsome : 1 ≤ (entryTypes mem conf).count mpproc →
      conf + mpconfSize < conf + length mem conf := by
    intro hone
    by_contra hno
    have hnil : entryTypes mem conf = [] := by
      unfold entryTypes
      cases hn : length mem conf with
      | zero => rfl
      | succ n =>
          rw [hn] at hno
          rw [typesFrom, if_neg hno]
    rw [hnil, List.count_nil] at hone
    omega
  constructor
  · rintro ⟨n, st, hrun, hin, hncpu, hall⟩
    obtain ⟨st', hloop, hst⟩ := mpinit_eq_some h hrun
    obtain ⟨hcount, hlist, hismp⟩ :=
      mploop_of_types hknown (m := length mem conf) (by omega) hloop
    have hsame : st.stores = st'.stores := by
      rw [hst]
      split <;> rfl
    have hone : 1 ≤ (entryTypes mem conf).count mpproc := by
      by_contra hnone
      have hzero : (entryTypes mem conf).count mpproc = 0 := by omega
      have hmp : st'.ismp = true := hismp (List.count_eq_zero.mp hzero)
      rw [if_pos hmp] at hst
      have h1 := (hncpu (hst ▸ hmp)).1
      unfold entryTypes at hzero
      rw [hst, hcount, hzero] at h1
      simp [boot] at h1
    exact ⟨hone, (hstores (hsame ▸ hlist)).mp hin, hwithin.mp hall (hsome hone)⟩
  · rintro ⟨hone, hmax, hend⟩
    obtain ⟨⟨n, st, hrun⟩, -⟩ := (mpinit_finishes_iff h).mpr hknown
    obtain ⟨st', hloop, hst⟩ := mpinit_eq_some h hrun
    obtain ⟨hcount, hlist, -⟩ := mploop_of_types hknown (m := length mem conf) (by omega) hloop
    have hsame : st.stores = st'.stores := by
      rw [hst]
      split <;> rfl
    refine ⟨n, st, hrun, (hstores (hsame ▸ hlist)).mpr hmax, ?_, hwithin.mpr fun _ => hend⟩
    intro hmp
    have hmp' : st'.ismp = true := by
      by_contra hno
      rw [hst, if_neg hno] at hmp
      exact hno hmp
    unfold entryTypes at hone hmax
    rw [hst, if_pos hmp', hcount]
    simp only [boot]
    omega

/-- The bytes of the table decide whether all its entries are of known types. -/
theorem known_of_entryTypes (h : ∀ type ∈ entryTypes mem conf, Known type) (p : ℕ)
    (hp : Meets mem (conf + length mem conf) (conf + mpconfSize) p) : Known (mem p) :=
  known_of_typesFrom (by omega) h hp

/-- So they are in a table of processors only. -/
theorem known_of_processors {n : ℕ} (h : entryTypes mem conf = List.replicate n mpproc) :
    ∀ type ∈ entryTypes mem conf, Known type := by
  intro type htype
  rw [h] at htype
  rw [List.eq_of_mem_replicate htype]
  decide

theorem mpinit_in_bounds_two :
    ((∃ n st, mpinit (firmware (processor 0 ++ processor 1)) n = some st ∧
        (∀ i ∈ st.stores, i < ncpus) ∧ (st.ismp = true → 1 ≤ st.ncpu ∧ st.ncpu ≤ ncpus) ∧
        ∀ p, Meets (firmware (processor 0 ++ processor 1))
            (0x9fd00 + length (firmware (processor 0 ++ processor 1)) 0x9fd00)
            (0x9fd00 + mpconfSize) p →
          p + entrySize (firmware (processor 0 ++ processor 1) p) ≤
            0x9fd00 + length (firmware (processor 0 ++ processor 1)) 0x9fd00) ↔
      1 ≤ (entryTypes (firmware (processor 0 ++ processor 1)) 0x9fd00).count mpproc ∧
        (entryTypes (firmware (processor 0 ++ processor 1)) 0x9fd00).count mpproc ≤ ncpus ∧
        entriesEnd (firmware (processor 0 ++ processor 1)) 0x9fd00 ≤
          0x9fd00 + length (firmware (processor 0 ++ processor 1)) 0x9fd00) ∧
      entryTypes (firmware (processor 0 ++ processor 1)) 0x9fd00 = [mpproc, mpproc] :=
  have htypes : entryTypes (firmware (processor 0 ++ processor 1)) 0x9fd00 = [mpproc, mpproc] := by
    decide +kernel
  ⟨mpinit_in_bounds_iff (by decide +kernel)
    (known_of_entryTypes (known_of_processors (n := 2) htypes)), htypes⟩

/-- The processor entries of a machine with nine processors. -/
def nineProcessors : List UInt8 :=
  (List.range 9).flatMap fun i => processor (UInt8.ofNat i)

/-- On a table with nine processors, which consists of known entries and is accepted,
`mpinit` stores into `cpus[8]`, and `ncpu` ends as 9 with `ismp` still set. -/
theorem mpinit_overruns_cpus :
    mpconfig (firmware nineProcessors) = some 0x9fd00 ∧
      (∀ p, Meets (firmware nineProcessors)
        (0x9fd00 + length (firmware nineProcessors) 0x9fd00) (0x9fd00 + mpconfSize) p →
          Known (firmware nineProcessors p)) ∧
      ∃ n st, mpinit (firmware nineProcessors) n = some st ∧ 8 ∈ st.stores ∧
        st.ismp = true ∧ st.ncpu = 9 := by
  have htypes : entryTypes (firmware nineProcessors) 0x9fd00 = List.replicate 9 mpproc := by
    decide +kernel
  refine ⟨by decide +kernel, known_of_entryTypes (known_of_processors htypes), 9, ?_⟩
  have hrun : ((mpinit (firmware nineProcessors) 9).map fun st =>
      (decide (8 ∈ st.stores), st.ismp, st.ncpu)) = some (true, true, 9) := by
    decide +kernel
  obtain ⟨st, hst, hvalues⟩ := Option.map_eq_some_iff.mp hrun
  simp only [Prod.mk.injEq, decide_eq_true_eq] at hvalues
  exact ⟨st, hst, hvalues.1, hvalues.2.1, hvalues.2.2⟩

end Xv6.Mp
