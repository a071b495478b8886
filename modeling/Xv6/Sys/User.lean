import Mathlib.Algebra.Order.Ring.Nat
import Mathlib.Data.List.Basic
import Xv6.Support.Exec
import Xv6.Vm.Layout

/-!
# User memory during a system call

The kernel runs a system call on the page table of the caller and reads and
writes user memory through plain pointers.  The state below is the memory at
those pointers together with the list of accesses made so far, latest first, so
that "every user address the kernel touches" is a statement about a run.

The argument fetching functions are those of `syscall.c`.  A string is handed on
as the list of its bytes before the nul: `fetchstr` has then read every byte of
it, and the nul.
-/

namespace Xv6

open Support

/-- One byte of user memory read, or written if `store` is set. -/
structure Access where
  store : Bool
  addr : ℕ
  deriving DecidableEq, Repr

/-- User memory and the accesses made to it, latest first. -/
structure Space where
  mem : ℕ → UInt8
  accesses : List Access

/-- Kernel code that accesses user memory. -/
abbrev UserM := Exec Space Stop

/-- Read the byte at a pointer. -/
def loadByte (a : ℕ) : UserM UInt8 := fun s =>
  (.ok (s.mem (wrap32 a)), { s with accesses := ⟨false, wrap32 a⟩ :: s.accesses })

/-- Write the byte at a pointer. -/
def storeByte (a : ℕ) (v : UInt8) : UserM Unit := fun s =>
  (.ok (), {
    mem := fun b => if b = wrap32 a then v else s.mem b
    accesses := ⟨true, wrap32 a⟩ :: s.accesses })

/-- Read `n` bytes from a pointer on. -/
def loadBytes : ℕ → ℕ → UserM (List UInt8)
  | _, 0 => pure []
  | a, n + 1 => do
      let c ← loadByte a
      let cs ← loadBytes (a + 1) n
      pure (c :: cs)

/-- Write bytes from a pointer on. -/
def storeBytes : ℕ → List UInt8 → UserM Unit
  | _, [] => pure ()
  | a, c :: cs => do
      storeByte a c
      storeBytes (a + 1) cs

/-- The number of which `cs` are the little-endian bytes. -/
def ofBytes (cs : List UInt8) : ℕ :=
  cs.foldr (fun c n => c.toNat + 256 * n) 0

theorem ofBytes_lt (cs : List UInt8) : ofBytes cs < 256 ^ cs.length := by
  induction cs with
  | nil => decide
  | cons c cs ih =>
      have hc : c.toNat < 256 := c.toNat_lt
      have hcons : ofBytes (c :: cs) = c.toNat + 256 * ofBytes cs := rfl
      rw [hcons, List.length_cons, Nat.pow_succ]
      omega

/-- The `n` little-endian bytes of `v`. -/
def toBytes (n : ℕ) (v : ℤ) : List UInt8 :=
  (List.range n).map fun i => UInt8.ofNat (uint32 v / 256 ^ i)

/-! ## Fetching arguments -/

/-- `fetchint`: the `int` at `addr` of a process of size `sz`. -/
def fetchint (sz addr : ℕ) : UserM (Option ℤ) :=
  if sz ≤ addr ∨ sz < wrap32 (addr + 4) then pure none
  else do
    let cs ← loadBytes addr 4
    pure (some (int32 (ofBytes cs)))

/-- The loop of `fetchstr`, from `s` on with `k` bytes to go. -/
def scanNul : ℕ → ℕ → UserM (Option (List UInt8))
  | 0, _ => pure none
  | k + 1, s => do
      let c ← loadByte s
      if c = 0 then pure (some [])
      else do
        let rest ← scanNul k (s + 1)
        pure (rest.map (c :: ·))

/-- `fetchstr`: the nul-terminated string at `addr`. -/
def fetchstr (sz addr : ℕ) : UserM (Option (List UInt8)) :=
  if sz ≤ addr then pure none
  else scanNul (sz - addr) addr

/-- `argint`: the `n`th 32-bit argument, above the return address at `esp`. -/
def argint (sz esp n : ℕ) : UserM (Option ℤ) :=
  fetchint sz (wrap32 (esp + 4 + 4 * n))

/-- `argptr`: the `n`th argument as a pointer to `size` bytes. -/
def argptr (sz esp n : ℕ) (size : ℤ) : UserM (Option ℕ) := do
  match ← argint sz esp n with
  | none => pure none
  | some i =>
      if sz ≤ uint32 i ∨ sz < uint32 (uint32 i + size) then pure none
      else pure (some (uint32 i))

/-- `argstr`: the `n`th argument as a string. -/
def argstr (sz esp n : ℕ) : UserM (Option (List UInt8)) := do
  match ← argint sz esp n with
  | none => pure none
  | some addr => fetchstr sz (uint32 addr)

/-! ## The accesses of a run -/

/-- A run of `m` makes only accesses that satisfy `P`. -/
def Within {α : Type} (P : Access → Prop) (m : UserM α) : Prop :=
  ∀ s, (∀ a ∈ s.accesses, P a) → ∀ a ∈ (m s).2.accesses, P a

namespace Within

variable {α β : Type} {P : Access → Prop}

theorem pure {a : α} : Within P (Pure.pure a : UserM α) := fun _ h => h

theorem throw {e : Stop} : Within P (Exec.throw e : UserM α) := fun _ h => h

theorem bind {m : UserM α} {f : α → UserM β} (hm : Within P m)
    (hf : ∀ a, Within P (f a)) : Within P (m >>= f) := by
  intro s hs
  have hmid := hm s hs
  rw [Exec.bind_run]
  cases h : m s with
  | mk r s' =>
      rw [h] at hmid
      cases r with
      | ok a => exact hf a s' hmid
      | error e => exact hmid

/-- Sequencing when something is known of the value passed on. -/
theorem bind_val {m : UserM α} {f : α → UserM β} {R : α → Prop} (hm : Within P m)
    (hval : ∀ s a s', m s = (.ok a, s') → R a) (hf : ∀ a, R a → Within P (f a)) :
    Within P (m >>= f) := by
  intro s hs
  have hmid := hm s hs
  rw [Exec.bind_run]
  cases h : m s with
  | mk r s' =>
      rw [h] at hmid
      cases r with
      | ok a => exact hf a (hval s a s' h) s' hmid
      | error e => exact hmid

theorem each {f : β → UserM Unit} {l : List β} (h : ∀ b ∈ l, Within P (f b)) :
    Within P (Exec.each f l) := by
  induction l with
  | nil => exact pure
  | cons b l ih =>
      refine bind (h b (by simp)) fun _ => ih ?_
      intro c hc
      exact h c (by simp [hc])

theorem loadByte {a : ℕ} (h : P ⟨false, wrap32 a⟩) : Within P (loadByte a) := by
  intro s hs b hb
  rcases List.mem_cons.mp hb with rfl | hb
  · exact h
  · exact hs b hb

theorem storeByte {a : ℕ} {v : UInt8} (h : P ⟨true, wrap32 a⟩) :
    Within P (storeByte a v) := by
  intro s hs b hb
  rcases List.mem_cons.mp hb with rfl | hb
  · exact h
  · exact hs b hb

theorem loadBytes {a n : ℕ} (h : ∀ i < n, P ⟨false, wrap32 (a + i)⟩) :
    Within P (loadBytes a n) := by
  induction n generalizing a with
  | zero => exact pure
  | succ n ih =>
      refine bind (loadByte (h 0 (by omega))) fun c => bind (ih ?_) fun cs => pure
      intro i hi
      have := h (i + 1) (by omega)
      rwa [show a + (i + 1) = a + 1 + i by omega] at this

theorem storeBytes {a : ℕ} {cs : List UInt8}
    (h : ∀ i < cs.length, P ⟨true, wrap32 (a + i)⟩) :
    Within P (storeBytes a cs) := by
  induction cs generalizing a with
  | nil => exact pure
  | cons c cs ih =>
      refine bind (storeByte (h 0 (by simp))) fun _ => ih ?_
      intro i hi
      have := h (i + 1) (by simpa using hi)
      rwa [show a + (i + 1) = a + 1 + i by omega] at this

end Within

end Xv6
