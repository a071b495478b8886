import Xv6.Sys.Call

/-!
# System calls stay inside the caller

Every user address the kernel touches on behalf of a system call lies below
`proc->sz`, and `sys_read` stores only into the buffer it was given, unless the
call is a read with a negative count from a file: `argptr` accepts a negative
size whenever the pointer is at least as large as its absolute value, and
`readi` takes the count for a large unsigned one and stops only at the end of
the file.
-/

namespace Xv6

open Support

/-! ## The arguments as functions of memory -/

/-- The `int` in memory at `addr`. -/
def intAt (mem : ℕ → UInt8) (addr : ℕ) : ℤ :=
  int32 (ofBytes ((List.range 4).map fun i => mem (wrap32 (addr + i))))

/-- The `n`th argument of the call, if it lies in the caller's memory. -/
def Caller.arg (u : Caller) (mem : ℕ → UInt8) (n : ℕ) : Option ℤ :=
  if u.sz ≤ wrap32 (u.esp + 4 + 4 * n) ∨ u.sz < wrap32 (wrap32 (u.esp + 4 + 4 * n) + 4) then none
  else some (intAt mem (wrap32 (u.esp + 4 + 4 * n)))

theorem int32_bounds (x : ℤ) : -2147483648 ≤ int32 x ∧ int32 x < 2147483648 := by
  unfold int32
  have hlow := Int.le_bmod (x := x) (m := 4294967296) (by omega)
  have hhigh := Int.bmod_lt (x := x) (m := 4294967296) (by omega)
  omega

/-- Passing an `int` as a `uint` and back. -/
theorem int32_uint32 {x : ℤ} (hlow : -2147483648 ≤ x) (hhigh : x < 2147483648) :
    int32 (uint32 x) = x := by
  have hcast : (uint32 x : ℤ) = x % 4294967296 := by
    unfold uint32
    omega
  have hmod : int32 (x % 4294967296) = int32 x := Int.emod_bmod x 4294967296
  rw [hcast, hmod, int32_of_bounds hlow hhigh]

theorem Caller.arg_bounds {u : Caller} {mem : ℕ → UInt8} {n : ℕ} {v : ℤ}
    (h : u.arg mem n = some v) : -2147483648 ≤ v ∧ v < 2147483648 := by
  unfold Caller.arg at h
  split at h
  · cases h
  · obtain rfl := Option.some.inj h
    exact int32_bounds _

theorem loadBytes_run (a n : ℕ) (s : Space) :
    ∃ s', loadBytes a n s =
        (.ok ((List.range n).map fun i => s.mem (wrap32 (a + i))), s') ∧
      s'.mem = s.mem := by
  induction n generalizing a s with
  | zero => exact ⟨s, rfl, rfl⟩
  | succ n ih =>
      obtain ⟨s', hrun, hmem⟩ := ih (a + 1)
        { s with accesses := ⟨false, wrap32 a⟩ :: s.accesses }
      refine ⟨s', ?_, hmem⟩
      unfold loadBytes
      rw [Exec.bind_run_ok (m := loadByte a) rfl, Exec.bind_run_ok hrun]
      simp only [List.range_succ_eq_map, List.map_cons, List.map_map, Function.comp_def,
        Exec.pure_run, Nat.add_zero]
      congr 3
      refine List.map_congr_left fun i _ => ?_
      rw [show a + 1 + i = a + (i + 1) by omega]

section Fetch

variable {u : Caller} {P : Access → Prop}

/-- Reads of the caller's own memory are among the allowed accesses. -/
def ReadsBelow (sz : ℕ) (P : Access → Prop) : Prop :=
  ∀ a < sz, P ⟨false, a⟩

theorem fetchint_within {sz addr : ℕ} (hsz : sz < kernbase) (hP : ReadsBelow sz P) :
    Within P (fetchint sz addr) := by
  unfold fetchint
  split
  · exact Within.pure
  · rename_i h
    refine Within.bind (Within.loadBytes ?_) fun _ => Within.pure
    intro i hi
    apply hP
    unfold wrap32 at *
    unfold kernbase at hsz
    omega

theorem scanNul_within {sz : ℕ} (hsz : sz < kernbase) (hP : ReadsBelow sz P)
    {k s : ℕ} (hk : s + k ≤ sz) : Within P (scanNul k s) := by
  induction k generalizing s with
  | zero => exact Within.pure
  | succ k ih =>
      refine Within.bind (Within.loadByte ?_) fun c => ?_
      · rw [wrap32_of_lt (by unfold kernbase at hsz; omega)]
        exact hP s (by omega)
      · split
        · exact Within.pure
        · exact Within.bind (ih (by omega)) fun _ => Within.pure

theorem fetchstr_within {sz addr : ℕ} (hsz : sz < kernbase) (hP : ReadsBelow sz P) :
    Within P (fetchstr sz addr) := by
  unfold fetchstr
  split
  · exact Within.pure
  · exact scanNul_within hsz hP (by omega)

theorem argint_within {n : ℕ} (hP : ReadsBelow u.sz P) :
    Within P (argint u.sz u.esp n) :=
  fetchint_within u.sz_lt hP

theorem argptr_within {n : ℕ} {size : ℤ} (hP : ReadsBelow u.sz P) :
    Within P (argptr u.sz u.esp n size) := by
  refine Within.bind (argint_within hP) fun i => ?_
  cases i with
  | none => exact Within.pure
  | some i =>
      simp only
      split <;> exact Within.pure

theorem argstr_within {n : ℕ} (hP : ReadsBelow u.sz P) :
    Within P (argstr u.sz u.esp n) := by
  refine Within.bind (argint_within hP) fun i => ?_
  cases i with
  | none => exact Within.pure
  | some i => exact fetchstr_within u.sz_lt hP

/-- Fetching an argument yields its value and leaves memory alone. -/
theorem argint_run (u : Caller) (n : ℕ) (s : Space) :
    ∃ s', argint u.sz u.esp n s = (.ok (u.arg s.mem n), s') ∧ s'.mem = s.mem := by
  unfold argint fetchint Caller.arg
  split
  · exact ⟨s, rfl, rfl⟩
  · obtain ⟨s', hrun, hmem⟩ := loadBytes_run (wrap32 (u.esp + 4 + 4 * n)) 4 s
    refine ⟨s', ?_, hmem⟩
    rw [Exec.bind_run_ok hrun]
    rfl

/-- A pointer that `argptr` accepts. -/
def Caller.Accepts (u : Caller) (p : ℕ) (size : ℤ) : Prop :=
  p < u.sz ∧ uint32 (p + size) ≤ u.sz

instance (u : Caller) (p : ℕ) (size : ℤ) : Decidable (u.Accepts p size) :=
  inferInstanceAs (Decidable (_ ∧ _))

/-- Fetching a pointer yields it if it is accepted and leaves memory alone. -/
theorem argptr_run (u : Caller) (n : ℕ) (size : ℤ) (s : Space) :
    ∃ s', argptr u.sz u.esp n size s =
        (.ok ((u.arg s.mem n).bind fun i =>
          if u.Accepts (uint32 i) size then some (uint32 i) else none), s') ∧
      s'.mem = s.mem := by
  obtain ⟨s', hrun, hmem⟩ := argint_run u n s
  refine ⟨s', ?_, hmem⟩
  unfold argptr
  rw [Exec.bind_run_ok hrun]
  cases u.arg s.mem n with
  | none => rfl
  | some i =>
      simp only [Option.bind_some]
      by_cases hacc : u.Accepts (uint32 i) size
      · have hok := hacc
        unfold Caller.Accepts at hok
        rw [if_neg (by omega), if_pos hacc]
        rfl
      · have hbad := hacc
        unfold Caller.Accepts at hbad
        rw [if_pos (by omega), if_neg hacc]
        rfl

theorem argptr_value {n : ℕ} {size : ℤ} {s s' : Space} {p : Option ℕ}
    (h : argptr u.sz u.esp n size s = (.ok p, s')) :
    ∀ q, p = some q → u.Accepts q size := by
  obtain ⟨t, hrun, -⟩ := argptr_run u n size s
  rw [hrun] at h
  cases h
  intro q hq
  obtain ⟨i, -, hi⟩ := Option.bind_eq_some_iff.mp hq
  split at hi
  · rename_i hacc
    cases hi
    exact hacc
  · cases hi

theorem withInt_within {n : ℕ} {f : ℤ → UserM ℤ} (hP : ReadsBelow u.sz P)
    (hf : ∀ v, -2147483648 ≤ v → v < 2147483648 → Within P (f v)) :
    Within P (withInt u n f) := by
  refine Within.bind_val (R := fun v => ∃ s : Space, v = u.arg s.mem n)
    (argint_within hP) ?_ fun v hv => ?_
  · intro s v s' h
    obtain ⟨t, hrun, -⟩ := argint_run u n s
    rw [hrun] at h
    cases h
    exact ⟨s, rfl⟩
  · obtain ⟨s, hv⟩ := hv
    cases v with
    | none => exact Within.pure
    | some v => exact hf v (Caller.arg_bounds hv.symm).1 (Caller.arg_bounds hv.symm).2

theorem withStr_within {n : ℕ} {f : List UInt8 → UserM ℤ} (hP : ReadsBelow u.sz P)
    (hf : ∀ v, Within P (f v)) : Within P (withStr u n f) := by
  refine Within.bind (argstr_within hP) fun v => ?_
  cases v with
  | none => exact Within.pure
  | some v => exact hf v

theorem withPtr_within {n : ℕ} {size : ℤ} {f : ℕ → UserM ℤ} (hP : ReadsBelow u.sz P)
    (hf : ∀ p, u.Accepts p size → Within P (f p)) : Within P (withPtr u n size f) := by
  refine Within.bind_val (argptr_within hP) (fun s v s' h => argptr_value h) fun v hv => ?_
  cases v with
  | none => exact Within.pure
  | some p => exact hf p (hv p rfl)

theorem withFd_within {n : ℕ} {f : Fin nofile → FileView → UserM ℤ}
    (hP : ReadsBelow u.sz P) (hf : ∀ fd file, Within P (f fd file)) :
    Within P (withFd u n f) := by
  unfold withFd argfd
  refine Within.bind (Within.bind (argint_within hP) fun v => ?_) fun v => ?_
  · cases v <;> exact Within.pure
  · cases v with
    | none => exact Within.pure
    | some v => exact hf v.1 v.2

end Fetch

/-! ## The data a call moves -/

/-- `P` allows reads of the caller's memory and stores into a buffer of `n` bytes
at `p` inside it. -/
structure Allows (sz p n : ℕ) (P : Access → Prop) : Prop where
  reads : ReadsBelow sz P
  stores : ∀ a < sz, p ≤ a → a < p + n → P ⟨true, a⟩

section Transfer

variable {sz p n : ℕ} {P : Access → Prop}

/-- A store inside a buffer that lies in the caller's memory. -/
theorem Allows.store (hP : Allows sz p n P) (hsz : sz < kernbase) (hbuf : p + n ≤ sz)
    {i : ℕ} (hi : i < n) : P ⟨true, wrap32 (p + i)⟩ := by
  unfold kernbase at hsz
  rw [wrap32_of_lt (by omega)]
  exact hP.stores _ (by omega) (by omega) (by omega)

theorem awaitData_within (wakes : List (Pipe × Bool)) (q : Pipe)
    (killed : Bool) : Within P (awaitData wakes q killed) := by
  induction wakes generalizing q killed with
  | nil =>
      unfold awaitData
      split
      · split
        · exact Within.pure
        · exact Within.throw
      · exact Within.pure
  | cons w wakes ih =>
      unfold awaitData
      split
      · split
        · exact Within.pure
        · exact ih _ _
      · exact Within.pure

theorem pipereadFrom_within (hP : Allows sz p n P) (hsz : sz < kernbase) (hbuf : p + n ≤ sz) {k i : ℕ}
    (hk : i + k ≤ n) (q : Pipe) :
    Within P (pipereadFrom k (p + i) q) := by
  induction k generalizing i q with
  | zero => exact Within.pure
  | succ k ih =>
      unfold pipereadFrom
      split
      · exact Within.pure
      · refine Within.bind (Within.storeByte (hP.store hsz hbuf (by omega))) fun _ => ?_
        exact Within.bind (ih (i := i + 1) (by omega) _) fun _ => Within.pure

theorem piperead_within (hP : Allows sz p n P) (hsz : sz < kernbase) (hbuf : p + n ≤ sz) {m : ℤ}
    (hm : m.toNat ≤ n) (v : PipeView) :
    Within P (piperead v p m) := by
  refine Within.bind (awaitData_within _ _ _) fun q => ?_
  cases q with
  | none => exact Within.pure
  | some q =>
      exact Within.bind (pipereadFrom_within (i := 0) hP hsz hbuf (by omega) q)
        fun _ => Within.pure

theorem pipewriteFrom_within (hsz : sz < kernbase)
    (hP : ReadsBelow sz P) (hbuf : p + n ≤ sz) {k i : ℕ} (hk : i + k ≤ n)
    (v : PipeView) : Within P (pipewriteFrom k (p + i) v) := by
  unfold kernbase at hsz
  induction k generalizing i v with
  | zero => exact Within.pure
  | succ k ih =>
      unfold pipewriteFrom
      split
      · exact Within.throw
      · exact Within.pure
      · refine Within.bind (Within.loadByte ?_) fun c => ih (i := i + 1) (by omega) _
        rw [wrap32_of_lt (by omega)]
        exact hP _ (by omega)

theorem pipewrite_within (hsz : sz < kernbase)
    (hP : ReadsBelow sz P) (hbuf : p + n ≤ sz) {m : ℤ} (hm : m.toNat ≤ n)
    (v : PipeView) : Within P (pipewrite v p m) :=
  Within.bind (pipewriteFrom_within (i := 0) hsz hP hbuf (by omega) v) fun _ => Within.pure

theorem consolereadFrom_within (hP : Allows sz p n P) (hsz : sz < kernbase) (hbuf : p + n ≤ sz) {k i : ℕ}
    (hk : i + k ≤ n) (input : List (Option UInt8)) :
    Within P (consolereadFrom k (p + i) input) := by
  induction k generalizing i input with
  | zero => exact Within.pure
  | succ k ih =>
      match input with
      | [] => exact Within.throw
      | none :: _ => exact Within.pure
      | some c :: input =>
          unfold consolereadFrom
          split
          · exact Within.pure
          · refine Within.bind (Within.storeByte (hP.store hsz hbuf (by omega)))
              fun _ => ?_
            split
            · exact Within.pure
            · exact Within.bind (ih (i := i + 1) (by omega) input) fun _ => Within.pure

theorem consoleread_within (hP : Allows sz p n P) (hsz : sz < kernbase) (hbuf : p + n ≤ sz) {m : ℤ}
    (hm : m.toNat ≤ n) (ip : InodeView) :
    Within P (consoleread ip p m) := by
  refine Within.bind (consolereadFrom_within (i := 0) hP hsz hbuf (by omega) _) fun r => ?_
  cases r <;> exact Within.pure

/-- The loop of `readi` over a range that fits in the buffer. -/
theorem readPieces_within (hP : Allows sz p n P) (hsz : sz < kernbase) (hbuf : p + n ≤ sz) (ip : InodeView)
    {off r : ℕ} (hr : r ≤ n) :
    Within P (Exec.each (readPiece ip p) (pieces off r)) := by
  refine Within.each fun c hc => Within.storeBytes fun i hi => ?_
  have hpiece := mem_pieces hc
  rw [Nat.add_assoc]
  refine hP.store hsz hbuf ?_
  simp only [List.length_map, List.length_range] at hi
  omega

theorem writePieces_within {src : ℕ} {ps : List Piece}
    (h : ∀ c ∈ ps, ∀ i < c.m, P ⟨false, wrap32 (src + c.tot + i)⟩) (block : ℕ → Block) :
    Within P (writePieces src block ps) := by
  induction ps generalizing block with
  | nil => exact Within.pure
  | cons c ps ih =>
      refine Within.bind (Within.bind (Within.loadBytes ?_) fun _ => Within.pure) fun b => ?_
      · exact h c (by simp)
      · refine ih ?_ b
        intro d hd
        exact h d (by simp [hd])

theorem writei_within (hsz : sz < kernbase) (hP : ReadsBelow sz P) (ip : InodeView)
    {src off m : ℕ} (hbuf : src + m ≤ sz) : Within P (writei ip src off m) := by
  unfold kernbase at hsz
  have hload : ∀ i < m, P ⟨false, wrap32 (src + i)⟩ := by
    intro i hi
    rw [wrap32_of_lt (by omega)]
    exact hP _ (by omega)
  unfold writei
  split
  · split
    · refine Within.bind (Within.bind (Within.loadBytes ?_) fun _ => Within.pure)
        fun _ => Within.pure
      intro i hi
      apply hload
      rw [int32_of_bounds (by omega) (by omega)] at hi
      omega
    · exact Within.pure
  · split
    · refine Within.bind (writePieces_within ?_ _) fun _ => Within.pure
      intro c hc i hi
      have hpiece := mem_pieces hc
      rw [Nat.add_assoc]
      exact hload _ (by omega)
    · exact Within.pure

theorem filewriteFrom_within (hsz : sz < kernbase) (hP : ReadsBelow sz P)
    (hbuf : p + n ≤ sz) {k i left : ℕ} (hleft : i + left ≤ n) (ip : InodeView) (off : ℕ) :
    Within P (filewriteFrom p n k ip off i left) := by
  induction k generalizing ip off i left with
  | zero => exact Within.pure
  | succ k ih =>
      unfold filewriteFrom
      split
      · exact Within.pure
      · refine Within.bind (writei_within hsz hP ip (by omega)) fun r => ?_
        simp only
        split
        · exact Within.pure
        · split
          · exact Within.throw
          · exact ih (by omega) _ _

theorem filewrite_within (hsz : sz < kernbase) (hP : ReadsBelow sz P) (f : FileView)
    {m : ℤ} (hbuf : p + m.toNat ≤ sz) : Within P (filewrite f p m) := by
  unfold filewrite
  split
  · exact Within.pure
  · split
    · exact Within.bind (pipewrite_within hsz hP hbuf le_rfl _) fun _ => Within.pure
    · split
      · exact Within.pure
      · exact filewriteFrom_within hsz hP hbuf (by omega) _ _
    · exact Within.throw

theorem stati_within (hP : Allows sz p 20 P) (hsz : sz < kernbase) (hbuf : p + 20 ≤ sz) (ip : InodeView) :
    Within P (stati ip p) := by
  have hfield : ∀ o m v, o + m ≤ 20 →
      Within P (storeBytes (p + o) (toBytes m v)) := by
    intro o m v hom
    refine Within.storeBytes fun i hi => ?_
    rw [Nat.add_assoc]
    refine hP.store hsz hbuf ?_
    simp only [toBytes, List.length_map, List.length_range] at hi
    omega
  refine Within.bind (hfield 4 4 _ (by omega)) fun _ => ?_
  refine Within.bind (hfield 8 4 _ (by omega)) fun _ => ?_
  refine Within.bind (hfield 0 2 _ (by omega)) fun _ => ?_
  exact Within.bind (hfield 12 2 _ (by omega)) fun _ => hfield 16 4 _ (by omega)

theorem filestat_within (hP : Allows sz p 20 P) (hsz : sz < kernbase) (hbuf : p + 20 ≤ sz) (f : FileView) :
    Within P (filestat f p) := by
  unfold filestat
  split
  · exact Within.bind (stati_within hP hsz hbuf _) fun _ => Within.pure
  · exact Within.pure

end Transfer

/-! ## Reads -/

/-- A count that `argptr` accepts and that is not negative stays in the buffer. -/
theorem Caller.Accepts.add_le {u : Caller} {p : ℕ} {n : ℤ} (h : u.Accepts p n)
    (hn : n < 2147483648) : p + n.toNat ≤ u.sz := by
  obtain ⟨hp, hsum⟩ := h
  have hsz := u.sz_lt
  unfold kernbase at hsz
  unfold uint32 at hsum
  omega

/-- What a read with a negative count moves: nothing, unless the offset is below
the size and below the absolute value of the count. -/
theorem readCount_neg {size off : ℕ} {n : ℤ} (hlow : -2147483648 ≤ n) (hn : n < 0) :
    (∃ r, readCount size off (uint32 n) = some r ∧ 0 < r) ↔
      off < size ∧ (off : ℤ) < -n := by
  have hu : (uint32 n : ℤ) = n + 4294967296 := by
    unfold uint32
    omega
  constructor
  · rintro ⟨r, hr, hpos⟩
    obtain ⟨hoff, hwrap, hr⟩ := readCount_eq_some_iff.mp hr
    unfold wrap32 at hwrap hr
    split at hr <;> omega
  · intro h
    refine ⟨_, readCount_eq_some_iff.mpr ⟨by omega, ?_, rfl⟩, ?_⟩
    · unfold wrap32
      omega
    · split <;> omega

/-- The file is read through its blocks: a readable descriptor of an inode that
is not a device. -/
def FileView.ReadsBlocks (f : FileView) : Prop :=
  f.readable = true ∧ f.type = .inode ∧ f.ip.type ≠ tDev

/-- The read stores bytes although its count is negative. -/
def FileView.Overlong (f : FileView) (n : ℤ) : Prop :=
  n < 0 ∧ f.ReadsBlocks ∧ f.off < f.ip.size ∧ (f.off : ℤ) < -n

theorem fileread_within {u : Caller} {P : Access → Prop} {f : FileView} {p : ℕ} {n : ℤ}
    (hP : Allows u.sz p n.toNat P) (hacc : u.Accepts p n) (hlow : -2147483648 ≤ n)
    (hhigh : n < 2147483648) (hover : ¬f.Overlong n) : Within P (fileread f p n) := by
  have hbuf := hacc.add_le hhigh
  unfold fileread
  split
  · exact Within.pure
  · rename_i hreadable
    split
    · exact Within.bind (piperead_within hP u.sz_lt hbuf le_rfl _) fun _ => Within.pure
    · rename_i htype
      refine Within.bind ?_ fun _ => Within.pure
      unfold readi
      split
      · split
        · refine consoleread_within hP u.sz_lt hbuf ?_ _
          rw [int32_uint32 hlow hhigh]
        · exact Within.pure
      · rename_i hdev
        cases hcount : readCount f.ip.size f.off (uint32 n) with
        | none => exact Within.pure
        | some r =>
            refine Within.bind (readPieces_within hP u.sz_lt hbuf f.ip ?_) fun _ => Within.pure
            rcases lt_or_ge n 0 with hneg | hpos
            · -- a negative count that is not overlong moves nothing
              by_contra hr
              apply hover
              refine ⟨hneg, ⟨by simpa using hreadable, htype, hdev⟩, ?_⟩
              exact (readCount_neg hlow hneg).mp ⟨r, hcount, by omega⟩
            · have hle := readCount_le (by unfold uint32; omega) hcount
              unfold uint32 at hle
              omega
    · exact Within.throw

/-! ## Whole calls -/

section Calls

variable {rest : Rest} {u : Caller} {P : Access → Prop}

theorem execArgs_within (hP : ReadsBelow u.sz P) (uargv k i : ℕ) :
    Within P (execArgs u uargv k i) := by
  induction k generalizing i with
  | zero => exact Within.pure
  | succ k ih =>
      refine Within.bind (fetchint_within u.sz_lt hP) fun uarg => ?_
      cases uarg with
      | none => exact Within.pure
      | some uarg =>
          simp only
          split
          · exact Within.pure
          · refine Within.bind (fetchstr_within u.sz_lt hP) fun arg => ?_
            cases arg with
            | none => exact Within.pure
            | some arg => exact Within.bind (ih (i + 1)) fun _ => Within.pure

theorem sysExec_within (hP : ReadsBelow u.sz P) : Within P (sysExec rest u) := by
  refine withStr_within hP fun path => withInt_within hP fun uargv _ _ => ?_
  refine Within.bind (execArgs_within hP _ _ _) fun argv => ?_
  cases argv <;> exact Within.pure

/-- All accesses to the caller's memory. -/
theorem allows_below {sz p n : ℕ} : Allows sz p n fun a => a.addr < sz :=
  ⟨fun _ ha => ha, fun _ ha _ _ => ha⟩

theorem sysPipe_within : Within (fun a => a.addr < u.sz) (sysPipe rest u) := by
  refine withPtr_within (fun _ ha => ha) fun fd hfd => ?_
  have hbuf : fd + 8 ≤ u.sz := hfd.add_le (by omega)
  have hfield : ∀ o v, o + 4 ≤ 8 →
      Within (fun a => a.addr < u.sz) (storeBytes (fd + o) (toBytes 4 v)) := by
    intro o v ho
    refine Within.storeBytes fun i hi => ?_
    simp only [toBytes, List.length_map, List.length_range] at hi
    rw [Nat.add_assoc]
    exact allows_below.store u.sz_lt hbuf (by omega)
  cases rest.pipe with
  | none => exact Within.pure
  | some fds =>
      refine Within.bind (hfield 0 _ (by omega)) fun _ => ?_
      exact Within.bind (hfield 4 _ (by omega)) fun _ => Within.pure

theorem sysFstat_within : Within (fun a => a.addr < u.sz) (sysFstat u) := by
  refine withFd_within (fun _ ha => ha) fun _ f => ?_
  refine withPtr_within (fun _ ha => ha) fun st hst => ?_
  exact filestat_within allows_below u.sz_lt (hst.add_le (by omega)) f

theorem sysWrite_within : Within (fun a => a.addr < u.sz) (sysWrite u) := by
  refine withFd_within (fun _ ha => ha) fun _ f => ?_
  refine withInt_within (fun _ ha => ha) fun n hlow hhigh => ?_
  refine withPtr_within (fun _ ha => ha) fun p hp => ?_
  refine Within.bind (filewrite_within u.sz_lt (fun _ ha => ha) f ?_) fun _ => Within.pure
  exact hp.add_le hhigh

/-- Every call other than `sys_read` stays in the caller's memory. -/
theorem syscalls_within {num : ℤ} (hnum : num ≠ 5) {call : UserM ℤ}
    (h : syscalls rest u num = some call) : Within (fun a => a.addr < u.sz) call := by
  have hP : ReadsBelow u.sz fun a => a.addr < u.sz := fun _ ha => ha
  unfold syscalls at h
  split at h <;> cases h
  · exact Within.pure
  · exact Within.pure
  · exact Within.pure
  · exact sysPipe_within
  · exact absurd rfl hnum
  · exact withInt_within hP fun _ _ _ => Within.pure
  · exact sysExec_within hP
  · exact sysFstat_within
  · exact withStr_within hP fun _ => Within.pure
  · exact withFd_within hP fun _ _ => Within.pure
  · exact Within.pure
  · exact withInt_within hP fun _ _ _ => Within.pure
  · exact withInt_within hP fun _ _ _ => Within.pure
  · exact Within.pure
  · exact withStr_within hP fun _ => withInt_within hP fun _ _ _ => Within.pure
  · exact sysWrite_within
  · exact withStr_within hP fun _ => withInt_within hP fun _ _ _ =>
      withInt_within hP fun _ _ _ => Within.pure
  · exact withStr_within hP fun _ => Within.pure
  · exact withStr_within hP fun _ => withStr_within hP fun _ => Within.pure
  · exact withStr_within hP fun _ => Within.pure
  · exact withFd_within hP fun _ _ => Within.pure

end Calls

/-- The file, buffer and count of a read, if `sys_read` gets past its checks. -/
def Caller.readArgs (u : Caller) (mem : ℕ → UInt8) : Option (FileView × ℕ × ℤ) := do
  let fd ← u.arg mem 0
  let (_, f) ← u.file fd
  let n ← u.arg mem 2
  let q ← u.arg mem 1
  if u.Accepts (uint32 q) n then some (f, uint32 q, n) else none

/-- `sys_read` fetches its arguments by reading the caller's memory and then
calls `fileread` on them. -/
theorem sysRead_run (u : Caller) (s : Space) :
    ∃ s', sysRead u s =
        (match u.readArgs s.mem with
        | none => (.ok (-1), s')
        | some (f, p, n) => (fileread f p n >>= fun r => pure r.1) s') ∧
      ∀ P, ReadsBelow u.sz P → (∀ a ∈ s.accesses, P a) → ∀ a ∈ s'.accesses, P a := by
  obtain ⟨s0, hrun0, hmem0⟩ := argint_run u 0 s
  have hacc0 : ∀ P, ReadsBelow u.sz P → (∀ a ∈ s.accesses, P a) → ∀ a ∈ s0.accesses, P a := by
    intro P hP hs
    have h := argint_within (n := 0) hP s hs
    rwa [hrun0] at h
  unfold sysRead withFd argfd Caller.readArgs
  rw [Exec.bind_run, Exec.bind_run_ok hrun0]
  cases h0 : u.arg s.mem 0 with
  | none => exact ⟨s0, rfl, hacc0⟩
  | some fd =>
      simp only [Exec.pure_run, Option.bind_eq_bind, Option.bind_some]
      cases hfile : u.file fd with
      | none => exact ⟨s0, rfl, hacc0⟩
      | some f =>
          obtain ⟨s1, hrun1, hmem1⟩ := argint_run u 2 s0
          have hacc1 : ∀ P, ReadsBelow u.sz P → (∀ a ∈ s.accesses, P a) →
              ∀ a ∈ s1.accesses, P a := by
            intro P hP hs
            have h := argint_within (n := 2) hP s0 (hacc0 P hP hs)
            rwa [hrun1] at h
          unfold withInt
          rw [hmem0] at hrun1
          simp only [Option.bind_some]
          rw [Exec.bind_run_ok hrun1]
          cases h2 : u.arg s.mem 2 with
          | none => exact ⟨s1, rfl, hacc1⟩
          | some n =>
              obtain ⟨s2, hrun2, hmem2⟩ := argptr_run u 1 n s1
              have hacc2 : ∀ P, ReadsBelow u.sz P → (∀ a ∈ s.accesses, P a) →
                  ∀ a ∈ s2.accesses, P a := by
                intro P hP hs
                have h : ∀ a ∈ (argptr u.sz u.esp 1 n s1).2.accesses, P a :=
                  argptr_within hP s1 (hacc1 P hP hs)
                rwa [hrun2] at h
              unfold withPtr
              rw [hmem1, hmem0] at hrun2
              simp only [Option.bind_some]
              rw [Exec.bind_run_ok hrun2]
              refine ⟨s2, ?_, hacc2⟩
              cases h1 : u.arg s.mem 1 with
              | none => rfl
              | some q =>
                  simp only [Option.bind_some]
                  split <;> rfl

/-- Stores return, and what has been accessed stays in the list. -/
theorem storeBytes_run (a : ℕ) (cs : List UInt8) (s : Space) :
    ∃ s', storeBytes a cs s = (.ok (), s') ∧ (∀ x ∈ s.accesses, x ∈ s'.accesses) ∧
      (cs ≠ [] → ⟨true, wrap32 a⟩ ∈ s'.accesses) := by
  induction cs generalizing a s with
  | nil => exact ⟨s, rfl, fun _ h => h, fun h => absurd rfl h⟩
  | cons c cs ih =>
      obtain ⟨s', hrun, hgrow, -⟩ := ih (a + 1) (storeByte a c s).2
      refine ⟨s', ?_, fun x hx => hgrow x (List.mem_cons_of_mem _ hx), fun _ => ?_⟩
      · unfold storeBytes
        rw [Exec.bind_run_ok (m := storeByte a c) rfl]
        exact hrun
      · exact hgrow _ List.mem_cons_self

theorem readPieces_run (ip : InodeView) (dst : ℕ) (ps : List Piece) (s : Space) :
    ∃ s', Exec.each (readPiece ip dst) ps s = (.ok (), s') ∧
      ∀ x ∈ s.accesses, x ∈ s'.accesses := by
  induction ps generalizing s with
  | nil => exact ⟨s, rfl, fun _ h => h⟩
  | cons c ps ih =>
      obtain ⟨s1, hrun, hgrow, -⟩ := storeBytes_run (dst + c.tot)
        ((List.range c.m).map fun i => UInt8.ofNat ((ip.block c.bn).byte (c.start + i))) s
      obtain ⟨s', hrest, hgrow'⟩ := ih s1
      refine ⟨s', ?_, fun x hx => hgrow' x (hgrow x hx)⟩
      unfold Exec.each
      rw [Exec.bind_run_ok (m := readPiece ip dst c) hrun]
      exact hrest

/-- An overlong read stores a byte at the start of its buffer. -/
theorem fileread_overlong {f : FileView} {p : ℕ} {n : ℤ} (hlow : -2147483648 ≤ n)
    (h : f.Overlong n) (s : Space) :
    ⟨true, wrap32 p⟩ ∈ (((fileread f p n >>= fun r => pure r.1) : UserM ℤ) s).2.accesses := by
  obtain ⟨hneg, ⟨hreadable, htype, hdev⟩, hoff⟩ := h
  obtain ⟨r, hr, hpos⟩ := (readCount_neg hlow hneg).mpr hoff
  obtain ⟨c, ps, hpieces, htot, hm⟩ := pieces_of_pos f.off hpos
  obtain ⟨s1, hrun1, -, hfirst⟩ := storeBytes_run (p + c.tot)
    ((List.range c.m).map fun i => UInt8.ofNat ((f.ip.block c.bn).byte (c.start + i))) s
  obtain ⟨s2, hrun2, hgrow⟩ := readPieces_run f.ip p ps s1
  have hread : readi f.ip p f.off (uint32 n) s = (.ok (int32 r), s2) := by
    unfold readi
    rw [if_neg hdev, hr]
    simp only
    rw [hpieces]
    unfold Exec.each
    rw [Exec.bind_run, Exec.bind_run_ok (m := readPiece f.ip p c) hrun1, hrun2]
    rfl
  have hfile : fileread f p n s =
      (.ok (int32 r, if 0 < int32 r then wrap32 (f.off + (int32 r).toNat) else f.off), s2) := by
    unfold fileread
    rw [if_neg (by simp [hreadable]), htype]
    simp only
    rw [Exec.bind_run_ok hread]
    rfl
  rw [Exec.bind_run_ok hfile]
  rw [htot, Nat.add_zero] at hfirst
  refine hgrow _ (hfirst ?_)
  simp only [ne_eq, List.map_eq_nil_iff, List.range_eq_nil]
  omega

/-- What is asked of a system call: it touches only the caller's memory, and a
read stores only into its buffer, the `max n 0` bytes at `p`. -/
def CallInBounds (rest : Rest) (u : Caller) (mem : ℕ → UInt8) : Prop :=
  (∀ a ∈ accesses rest u mem, a.addr < u.sz) ∧
  ∀ f p n, u.eax = 5 → u.readArgs mem = some (f, p, n) →
    ∀ a ∈ accesses rest u mem, a.store = true → p ≤ a.addr ∧ a.addr < p + n.toNat

theorem Caller.readArgs_spec {u : Caller} {mem : ℕ → UInt8} {f : FileView} {p : ℕ} {n : ℤ}
    (h : u.readArgs mem = some (f, p, n)) :
    u.Accepts p n ∧ -2147483648 ≤ n ∧ n < 2147483648 := by
  unfold Caller.readArgs at h
  simp only [Option.bind_eq_bind, Option.bind_eq_some_iff] at h
  obtain ⟨fd, -, ⟨i, g⟩, -, m, hm, q, -, h⟩ := h
  split at h
  · rename_i hacc
    cases h
    exact ⟨hacc, Caller.arg_bounds hm⟩
  · cases h

/-- System calls stay inside the caller exactly when they are not reads with a
negative count of a file that has data between its offset and its size and
whose offset is below the absolute value of the count. -/
theorem syscall_in_bounds_iff (rest : Rest) (u : Caller) (mem : ℕ → UInt8) :
    CallInBounds rest u mem ↔
      ∀ f p n, u.eax = 5 → u.readArgs mem = some (f, p, n) → ¬f.Overlong n := by
  by_cases hread : u.eax = 5
  · have hcall : syscall rest u = sysRead u := by
      unfold syscall
      rw [hread]
      rfl
    obtain ⟨s, hrun, hs⟩ := sysRead_run u ⟨mem, []⟩
    have hacc : accesses rest u mem = (sysRead u ⟨mem, []⟩).2.accesses := by
      unfold accesses
      rw [hcall]
    rw [hrun] at hacc
    unfold CallInBounds
    rw [hacc]
    cases hargs : u.readArgs mem with
    | none =>
        simp only [reduceCtorEq, false_implies, implies_true, and_true, iff_true]
        exact hs _ (fun _ ha => ha) (by simp)
    | some args =>
        obtain ⟨f, p, n⟩ := args
        obtain ⟨hacc', hlow, hhigh⟩ := Caller.readArgs_spec hargs
        constructor
        · rintro ⟨-, hbuf⟩ _ _ _ _ ⟨⟩ hover
          have hstore := hbuf f p n hread rfl _ (fileread_overlong hlow hover s) rfl
          have hsz := u.sz_lt
          have hp := hacc'.1
          unfold kernbase at hsz
          rw [wrap32_of_lt (by omega)] at hstore
          have := hover.1
          omega
        · intro hover
          have hin : ∀ a ∈ (((fileread f p n >>= fun r => pure r.1) : UserM ℤ) s).2.accesses,
              a.addr < u.sz ∧ (a.store = true → p ≤ a.addr ∧ a.addr < p + n.toNat) := by
            have hP : Allows u.sz p n.toNat fun a =>
                a.addr < u.sz ∧ (a.store = true → p ≤ a.addr ∧ a.addr < p + n.toNat) :=
              ⟨fun _ ha => ⟨ha, by simp⟩, fun _ ha hlo hhi => ⟨ha, fun _ => ⟨hlo, hhi⟩⟩⟩
            refine Within.bind (fileread_within hP hacc' hlow hhigh ?_)
              (fun _ => Within.pure) s ?_
            · exact hover f p n hread rfl
            · exact hs _ hP.reads (by simp)
          refine ⟨fun a ha => (hin a ha).1, ?_⟩
          rintro _ _ _ _ ⟨⟩ a ha
          exact (hin a ha).2
  · have hin : ∀ a ∈ accesses rest u mem, a.addr < u.sz := by
      unfold accesses syscall
      cases h : syscalls rest u u.eax with
      | none => simp
      | some call => exact syscalls_within hread h _ (by simp)
    constructor
    · intro _ f p n h5
      exact absurd h5 hread
    · intro _
      exact ⟨hin, fun f p n h5 => absurd h5 hread⟩

/-- A caller of 8192 bytes that reads with a count of -1 from descriptor 3, a
file of two bytes at offset 0, into the last byte of its memory. -/
def readMinusOne : Caller where
  sz := 8192
  sz_lt := by decide
  esp := 4000
  eax := 5
  ofile := fun fd =>
    if fd = 3 then
      some {
        type := .inode
        readable := true
        writable := false
        pipe := ⟨⟨fun _ => 0, 0, 0, false, false⟩, false, []⟩
        ip := ⟨1, 2, tFile, 0, 1, 2, fun _ => Block.zero, []⟩
        off := 0 }
    else none

/-- The arguments 3, 8191 and -1 on the stack of `readMinusOne`. -/
def readMinusOneStack : ℕ → UInt8 := fun a =>
  if a = 4004 then 3
  else if a = 4008 then 255
  else if a = 4009 then 31
  else if 4012 ≤ a ∧ a < 4016 then 255
  else 0

/-- The second byte of the file is stored just past the caller's memory. -/
theorem read_minus_one_out_of_bounds :
    ¬CallInBounds ⟨fun _ => 0, none⟩ readMinusOne readMinusOneStack := by
  intro h
  have hmem : (⟨true, 8192⟩ : Access) ∈
      accesses ⟨fun _ => 0, none⟩ readMinusOne readMinusOneStack := by
    decide +kernel
  have hlt : 8192 < 8192 := h.1 _ hmem
  omega

end Xv6
