import Xv6.Fs.System
import Xv6.Support.Run

/-!
# Writers that share an open file

`filewrite` on one `struct file`, called by any number of processes at once.  A call writes
a few blocks at a time, and each of these chunks is a transaction with the inode locked
inside it; a step of the machine is one of the calls in the loop.  `log.busy` and the flag
`I_BUSY` of the inode are all that keeps the writers apart.

Each caller has a memory of its own, which `writei` only reads.
-/

namespace Xv6.Fs

namespace Filewrite

open Support

/-- A call `filewrite(f, addr, n)`, and the memory of the process that makes it. -/
structure Call where
  mem : ℕ → UInt8
  addr : ℕ
  n : ℕ

/-- The bytes that a call has to write. -/
def Call.data (c : Call) : List UInt8 :=
  (List.range c.n).map fun j => c.mem (wrap32 (c.addr + j))

/-- The variable `n1`. -/
def Call.n1 (c : Call) (i : ℕ) : ℕ :=
  min (c.n - i) maxChunk

/-- The bytes at `addr + i`. -/
def Call.src (c : Call) (i : ℕ) : Chars := fun j =>
  c.mem (wrap32 (c.addr + i + j))

/-- Where a call is, with its variables `i` and `r`; `none` is -1. -/
inductive Pc where
  /-- Before the call. -/
  | start
  /-- At the head of the loop. -/
  | loop (i : ℕ)
  /-- Before `begin_trans()`. -/
  | begin (i : ℕ)
  /-- Before `ilock(f->ip)`. -/
  | ilock (i : ℕ)
  /-- Before `writei(f->ip, addr + i, f->off, n1)`. -/
  | writei (i : ℕ)
  /-- Before `f->off += r`. -/
  | advance (i : ℕ) (r : Option ℕ)
  /-- Before `iunlock(f->ip)`. -/
  | iunlock (i : ℕ) (r : Option ℕ)
  /-- Before `commit_trans()`. -/
  | commit (i : ℕ) (r : Option ℕ)
  /-- Before `if(r < 0)`. -/
  | check (i : ℕ) (r : Option ℕ)
  /-- The call has returned. -/
  | returned (r : Option ℕ)
  deriving DecidableEq, Repr

variable {ι : Type} [DecidableEq ι]

/-- The file system, the shared file, and the calls. -/
structure State (ι : Type) where
  vol : Volume
  file : File
  pc : ι → Pc

namespace State

/-- The call `w` goes on at `pc`. -/
def goto (s : State ι) (w : ι) (pc : Pc) : State ι :=
  { s with pc := Function.update s.pc w pc }

/-- The call `w` runs a function of the file system; nothing if it has to sleep. -/
def run {α : Type} (s : State ι) (w : ι) (m : FsM α) (next : α → Pc) :
    Option (Except Stop (State ι)) :=
  match m s.vol with
  | (.ok a, v) => some (.ok ({ s with vol := v }.goto w (next a)))
  | (.error .asleep, _) => none
  | (.error e, _) => some (.error e)

/-- One step of the call `w`; nothing if it has to sleep, or has returned. -/
def step (calls : ι → Call) (s : State ι) (w : ι) : Option (Except Stop (State ι)) :=
  let c := calls w
  match s.pc w with
  | .start =>
      if s.file.writable = false then some (.ok (s.goto w (.returned none)))
      else
        match s.file.type with
        | .inode => some (.ok (s.goto w (.loop 0)))
        | .pipe => none
        | .none => some (.error .filewrite)
  | .loop i =>
      if i < c.n then some (.ok (s.goto w (.begin i)))
      else some (.ok (s.goto w (.returned (if i = c.n then some c.n else none))))
  | .begin i => s.run w beginTrans fun _ => .ilock i
  | .ilock i => s.run w (Fs.ilock s.file.ip) fun _ => .writei i
  | .writei i =>
      s.run w (Fs.writei s.file.ip (c.src i) s.file.off (c.n1 i)) fun r => .advance i r
  | .advance i r =>
      let off := r.elim s.file.off fun r => if 0 < r then wrap32 (s.file.off + r) else s.file.off
      some (.ok ({ s with file.off := off }.goto w (.iunlock i r)))
  | .iunlock i r => s.run w (Fs.iunlock s.file.ip) fun _ => .commit i r
  | .commit i r => s.run w commitTrans fun _ => .check i r
  | .check i r =>
      match r with
      | none => some (.ok (s.goto w (.returned none)))
      | some r =>
          if r ≠ c.n1 i then some (.error .shortFilewrite)
          else some (.ok (s.goto w (.loop (i + r))))
  | .returned _ => none

end State

/-- The steps that do not panic. -/
def Step (calls : ι → Call) (s : State ι) (w : ι) (s' : State ι) : Prop :=
  s.step calls w = some (.ok s')

/-- The state after a step that does not panic. -/
def State.next (calls : ι → Call) (s : State ι) (w : ι) : Option (State ι) :=
  (s.step calls w).bind Except.toOption

theorem Step.of_next {calls : ι → Call} {s s' : State ι} {w : ι}
    (h : s.next calls w = some s') : Step calls s w s' := by
  obtain ⟨r, hr, hok⟩ := Option.bind_eq_some_iff.mp h
  cases r with
  | error e => contradiction
  | ok t =>
      obtain rfl := Option.some.inj hok
      exact hr

section

variable {α : Type} {s s' : State ι} {w : ι} {m : FsM α} {next : α → Pc}

theorem State.run_ok {a : α} {v : Volume} (h : m s.vol = (.ok a, v)) :
    s.run w m next = some (.ok ({ s with vol := v }.goto w (next a))) := by
  rw [run, h]

theorem State.run_asleep {v : Volume} (h : m s.vol = (.error .asleep, v)) :
    s.run w m next = none := by
  rw [run, h]

theorem State.run_error {e : Stop} (h : (m s.vol).1 = .error e) (he : e ≠ .asleep) :
    s.run w m next = some (.error e) := by
  have hrun : m s.vol = (.error e, (m s.vol).2) := Prod.ext h rfl
  rw [run, hrun]
  cases e <;> first | rfl | exact absurd rfl he

theorem State.of_run (h : s.run w m next = some (.ok s')) :
    ∃ a v, m s.vol = (.ok a, v) ∧ s' = { s with vol := v }.goto w (next a) := by
  cases hm : m s.vol with
  | mk r v =>
      cases r with
      | ok a =>
          rw [run_ok hm] at h
          exact ⟨a, v, rfl, (Except.ok.inj (Option.some.inj h)).symm⟩
      | error e =>
          rw [run, hm] at h
          cases e <;> cases h

end

/-! ## Chunks -/

/-- The chunks into which a call cuts its bytes. -/
def cut (xs : List UInt8) : List (List UInt8) :=
  if xs = [] then [] else xs.take maxChunk :: cut (xs.drop maxChunk)
termination_by xs.length
decreasing_by
  have hpos : 0 < xs.length := List.length_pos_iff.mpr ‹_›
  simp only [List.length_drop, maxChunk, logsize]
  omega

theorem cut_nil : cut [] = [] := by
  rw [cut, if_pos rfl]

/-- The chunks of a call make up its bytes. -/
theorem flatten_cut (xs : List UInt8) : (cut xs).flatten = xs := by
  induction xs using cut.induct with
  | case1 => rw [cut_nil, List.flatten_nil]
  | case2 xs hne ih => rw [cut, if_neg hne, List.flatten_cons, ih, List.take_append_drop]

@[simp] theorem Call.length_data (c : Call) : c.data.length = c.n := by
  simp [Call.data]

theorem Call.n1_pos {c : Call} {i : ℕ} (hi : i < c.n) : 0 < c.n1 i := by
  unfold Call.n1 maxChunk logsize
  omega

/-- The bytes of the chunk at `i`. -/
def Call.chunk (c : Call) (i : ℕ) : List UInt8 :=
  (List.range (c.n1 i)).map (c.src i)

theorem Call.chunk_eq (c : Call) (i : ℕ) : c.chunk i = (c.data.drop i).take maxChunk := by
  apply List.ext_getElem
  · simp [Call.chunk, Call.n1, Nat.min_comm]
  · intro j h₁ h₂
    simp [Call.chunk, Call.src, Call.data, Nat.add_assoc]

/-- A round of the loop takes one chunk off. -/
theorem Call.cut_drop {c : Call} {i : ℕ} (hi : i < c.n) :
    cut (c.data.drop i) = c.chunk i :: cut (c.data.drop (i + c.n1 i)) := by
  have hne : c.data.drop i ≠ [] := by
    simpa using hi
  rw [cut, if_neg hne, c.chunk_eq, List.drop_drop]
  congr 2
  by_cases hlast : c.n - i ≤ maxChunk
  · rw [List.drop_of_length_le, List.drop_of_length_le] <;>
      simp only [Call.length_data, Call.n1] <;> omega
  · have hn1 : c.n1 i = maxChunk := Nat.min_eq_right (by omega)
    rw [hn1]

/-- The chunks of one call. -/
def chunksOf (w : ι) (chunks : List (ι × List UInt8)) : List (List UInt8) :=
  (chunks.filter fun x => x.1 = w).map Prod.snd

theorem chunksOf_snoc_self {w : ι} {chunks : List (ι × List UInt8)} (xs : List UInt8) :
    chunksOf w (chunks ++ [(w, xs)]) = chunksOf w chunks ++ [xs] := by
  simp [chunksOf]

theorem chunksOf_snoc_other {v w : ι} {chunks : List (ι × List UInt8)} (hne : v ≠ w)
    (xs : List UInt8) : chunksOf v (chunks ++ [(w, xs)]) = chunksOf v chunks := by
  simp [chunksOf, hne.symm]

/-! ## The way of a call -/

namespace Pc

/-- Between `begin_trans` and `commit_trans`. -/
def inTrans : Pc → Bool
  | .ilock _ | .writei _ | .advance _ _ | .iunlock _ _ | .commit _ _ => true
  | _ => false

/-- Between `ilock` and `iunlock`. -/
def inLock : Pc → Bool
  | .writei _ | .advance _ _ | .iunlock _ _ => true
  | _ => false

/-- In a transaction that has recorded blocks. -/
def hasRecorded : Pc → Bool
  | .advance _ _ | .iunlock _ _ | .commit _ _ => true
  | _ => false

/-- By how much the offset lags behind the size. -/
def lag : Pc → ℕ
  | .advance _ r => r.getD 0
  | _ => 0

/-- How many bytes of its call are in the file. -/
def written (c : Call) : Pc → ℕ
  | .start => 0
  | .loop i | .begin i | .ilock i | .writei i => i
  | .advance i _ | .iunlock i _ | .commit i _ | .check i _ => i + c.n1 i
  | .returned _ => c.n

/-- A bound on the number of steps to go. -/
def left (c : Call) : Pc → ℕ
  | .start => 8 * c.n + 2
  | .loop i => 8 * (c.n - i) + 1
  | .begin i => 8 * (c.n - i)
  | .ilock i => 8 * (c.n - i) - 1
  | .writei i => 8 * (c.n - i) - 2
  | .advance i _ => 8 * (c.n - i) - 3
  | .iunlock i _ => 8 * (c.n - i) - 4
  | .commit i _ => 8 * (c.n - i) - 5
  | .check i _ => 8 * (c.n - i) - 6
  | .returned _ => 0

/-- What the variables of a call are. -/
def Fits (c : Call) : Pc → Prop
  | .start => True
  | .loop i => i ≤ c.n
  | .begin i | .ilock i | .writei i => i < c.n
  | .advance i r | .iunlock i r | .commit i r | .check i r => i < c.n ∧ r = some (c.n1 i)
  | .returned r => r = some c.n

theorem Fits.written_le {c : Call} {pc : Pc} (hpc : pc.Fits c) : pc.written c ≤ c.n := by
  cases pc with
  | start => exact Nat.zero_le _
  | loop i => exact hpc
  | begin i | ilock i | writei i => exact hpc.le
  | advance i r | iunlock i r | commit i r | check i r =>
      have hi := hpc.1
      simp only [written, Call.n1]
      omega
  | returned r => exact le_refl _

end Pc

/-- A step brings the call `w` nearer to its end. -/
theorem step_left {calls : ι → Call} {s s' : State ι} {w : ι}
    (hfits : (s.pc w).Fits (calls w)) (hstep : s.step calls w = some (.ok s')) :
    ∃ pc', s'.pc = Function.update s.pc w pc' ∧
      pc'.left (calls w) < (s.pc w).left (calls w) := by
  cases hpc : s.pc w with
  | start =>
      simp only [State.step, hpc] at hstep
      split at hstep
      · obtain rfl := Except.ok.inj (Option.some.inj hstep)
        exact ⟨_, rfl, by simp only [Pc.left]; omega⟩
      · split at hstep
        · obtain rfl := Except.ok.inj (Option.some.inj hstep)
          exact ⟨_, rfl, by simp only [Pc.left]; omega⟩
        · contradiction
        · simp at hstep
  | loop i =>
      simp only [State.step, hpc] at hstep
      split at hstep
      · obtain rfl := Except.ok.inj (Option.some.inj hstep)
        exact ⟨_, rfl, by simp only [Pc.left]; omega⟩
      · obtain rfl := Except.ok.inj (Option.some.inj hstep)
        exact ⟨_, rfl, by simp only [Pc.left]; omega⟩
  | begin i | ilock i | writei i =>
      rw [hpc] at hfits
      have hi : i < (calls w).n := hfits
      simp only [State.step, hpc] at hstep
      obtain ⟨a, v, -, rfl⟩ := State.of_run hstep
      exact ⟨_, rfl, by simp only [Pc.left]; omega⟩
  | advance i r =>
      rw [hpc] at hfits
      have hi := hfits.1
      simp only [State.step, hpc] at hstep
      obtain rfl := Except.ok.inj (Option.some.inj hstep)
      exact ⟨_, rfl, by simp only [Pc.left]; omega⟩
  | iunlock i r | commit i r =>
      rw [hpc] at hfits
      have hi := hfits.1
      simp only [State.step, hpc] at hstep
      obtain ⟨a, v, -, rfl⟩ := State.of_run hstep
      exact ⟨_, rfl, by simp only [Pc.left]; omega⟩
  | check i r =>
      rw [hpc] at hfits
      obtain ⟨hi, rfl⟩ := hfits
      have hpos := Call.n1_pos hi
      simp only [State.step, hpc, ne_eq, not_true_eq_false, if_false] at hstep
      obtain rfl := Except.ok.inj (Option.some.inj hstep)
      exact ⟨_, rfl, by simp only [Pc.left, Call.n1] at hpos ⊢; omega⟩
  | returned r => simp [State.step, hpc] at hstep

end Filewrite

end Xv6.Fs
