import Mathlib.Tactic.NormNum
import Xv6.Storage.Block
import Xv6.Support.Copy

/-!
# `memmove`

`memmove` of `string.c`, on a memory of bytes with 32-bit addresses.  It copies from the
front or from the back, so that it reads no byte that it has already overwritten: the test
that decides is made on pointers, which wrap.
-/

namespace Xv6

namespace Memmove

open Support

/-- The bytes at the addresses of the kernel. -/
abbrev Memory : Type := UInt32 → UInt8

/-- `while(n-- > 0) *--d = *--s;` -/
def backward : ℕ → UInt32 → UInt32 → Memory → Memory
  | 0, _, _, m => m
  | n + 1, d, s, m => backward n (d - 1) (s - 1) (Function.update m (d - 1) (m (s - 1)))

/-- `while(n-- > 0) *d++ = *s++;` -/
def forward : ℕ → UInt32 → UInt32 → Memory → Memory
  | 0, _, _, m => m
  | n + 1, d, s, m => forward n (d + 1) (s + 1) (Function.update m d (m s))

/-- `memmove`: the result, and the memory afterwards. -/
def memmove (dst src n : UInt32) (m : Memory) : UInt32 × Memory :=
  if src < dst ∧ dst < src + n then (dst, backward n.toNat (dst + n) (src + n) m)
  else (dst, forward n.toNat dst src m)

variable {dst src n a : UInt32} {m : Memory} {k : ℕ}

/-! ## The loops as copies -/

/-- The bytes to copy, from the front. -/
def pairs (dst src : UInt32) (k : ℕ) : List (UInt32 × UInt32) :=
  (List.range k).map fun i => (dst + UInt32.ofNat i, src + UInt32.ofNat i)

theorem forward_eq (dst src : UInt32) (k : ℕ) (m : Memory) :
    forward k dst src m = copies (pairs dst src k) m := by
  induction k generalizing dst src m with
  | zero => rfl
  | succ k ih =>
      have hshift : pairs dst src (k + 1) = (dst, src) :: pairs (dst + 1) (src + 1) k := by
        rw [pairs, List.range_succ_eq_map, List.map_cons, List.map_map, pairs]
        simp [Function.comp_def, UInt32.ofNat_add, UInt32.add_assoc, UInt32.add_comm 1]
      rw [forward, ih, hshift, copies]

theorem backward_eq (dst src : UInt32) (k : ℕ) (m : Memory) :
    backward k (dst + UInt32.ofNat k) (src + UInt32.ofNat k) m =
      copies (pairs dst src k).reverse m := by
  induction k generalizing m with
  | zero => rfl
  | succ k ih =>
      have hlast : ∀ x : UInt32, x + UInt32.ofNat (k + 1) - 1 = x + UInt32.ofNat k := by
        intro x
        rw [UInt32.ofNat_add, ← UInt32.add_assoc]
        exact UInt32.add_sub_cancel _ _
      rw [backward, hlast, hlast, ih, pairs, pairs, List.range_succ, List.map_append,
        List.reverse_append, List.map_singleton, List.reverse_singleton, List.singleton_append,
        copies]

/-! ## Ranges that do not wrap -/

/-- The `k` bytes at `x` do not go past the end of the address space. -/
def Within (x : UInt32) (k : ℕ) : Prop :=
  x.toNat + k ≤ 4294967296

theorem Within.toNat_add {x : UInt32} (h : Within x k) {i : ℕ} (hi : i < k) :
    (x + UInt32.ofNat i).toNat = x.toNat + i := by
  unfold Within at h
  rw [UInt32.toNat_add, UInt32.toNat_ofNat']
  omega

theorem Within.add_inj {x : UInt32} (h : Within x k) {i j : ℕ} (hi : i < k) (hj : j < k)
    (heq : x + UInt32.ofNat i = x + UInt32.ofNat j) : i = j := by
  have hnat := congrArg UInt32.toNat heq
  rw [h.toNat_add hi, h.toNat_add hj] at hnat
  omega

theorem nodup_pairs (h : Within dst k) : ((pairs dst src k).map Prod.fst).Nodup := by
  rw [pairs, List.map_map]
  refine List.Nodup.map_on (fun i hi j hj heq => ?_) List.nodup_range
  exact h.add_inj (List.mem_range.mp hi) (List.mem_range.mp hj) heq

/-- A byte outside of the range is not among those to be assigned. -/
theorem notMem_pairs (h : Within dst k) (ha : a.toNat < dst.toNat ∨ dst.toNat + k ≤ a.toNat) :
    a ∉ (pairs dst src k).map Prod.fst := by
  intro hmem
  rw [pairs, List.map_map] at hmem
  obtain ⟨i, hi, rfl⟩ := List.mem_map.mp hmem
  have hik := List.mem_range.mp hi
  simp only [Function.comp_apply, h.toNat_add hik] at ha
  omega

theorem mem_pairs {i : ℕ} (hi : i < k) :
    (dst + UInt32.ofNat i, src + UInt32.ofNat i) ∈ pairs dst src k :=
  List.mem_map.mpr ⟨i, List.mem_range.mpr hi, rfl⟩

/-- From the front, a byte is read before it is overwritten unless `dst` lies inside the
source. -/
theorem pairwise_forward (hdst : Within dst k) (hsrc : Within src k)
    (h : dst.toNat ≤ src.toNat ∨ src.toNat + k ≤ dst.toNat) :
    (pairs dst src k).Pairwise fun p q => q.2 ≠ p.1 := by
  rw [pairs, List.pairwise_map]
  refine (List.pairwise_lt_range (n := k)).imp_of_mem fun {i j} hi hj hlt heq => ?_
  have hnat := congrArg UInt32.toNat heq
  rw [hsrc.toNat_add (List.mem_range.mp hj), hdst.toNat_add (List.mem_range.mp hi)] at hnat
  have hjk := List.mem_range.mp hj
  omega

/-- From the back, it is unless `src` lies inside the destination. -/
theorem pairwise_backward (hdst : Within dst k) (hsrc : Within src k)
    (h : src.toNat < dst.toNat) :
    (pairs dst src k).reverse.Pairwise fun p q => q.2 ≠ p.1 := by
  rw [List.pairwise_reverse, pairs, List.pairwise_map]
  refine (List.pairwise_lt_range (n := k)).imp_of_mem fun {i j} hi hj hlt heq => ?_
  have hnat := congrArg UInt32.toNat heq
  rw [hsrc.toNat_add (List.mem_range.mp hi), hdst.toNat_add (List.mem_range.mp hj)] at hnat
  omega

/-! ## The choice of the direction -/

/-- `memmove` copies the pairs in an order in which none is spoilt. -/
theorem memmove_eq (hdst : Within dst n.toNat) (hsrc : Within src n.toNat) (m : Memory) :
    ∃ ps, (memmove dst src n m).2 = copies ps m ∧ ps.Perm (pairs dst src n.toNat) ∧
      ps.Pairwise fun p q => q.2 ≠ p.1 := by
  have hn : UInt32.ofNat n.toNat = n := UInt32.ofNat_toNat
  unfold memmove
  by_cases hback : src < dst ∧ dst < src + n
  · rw [if_pos hback]
    refine ⟨(pairs dst src n.toNat).reverse, ?_, List.reverse_perm _, ?_⟩
    · rw [← backward_eq, hn]
    · exact pairwise_backward hdst hsrc (UInt32.lt_iff_toNat_lt.mp hback.1)
  · rw [if_neg hback]
    refine ⟨pairs dst src n.toNat, forward_eq _ _ _ _, List.Perm.refl _, ?_⟩
    apply pairwise_forward hdst hsrc
    rw [UInt32.lt_iff_toNat_lt, UInt32.lt_iff_toNat_lt, UInt32.toNat_add] at hback
    unfold Within at hdst hsrc
    -- at the end of the address space `s + n` is 0, and `dst` is not above `src`
    omega

theorem memmove_apply (hdst : Within dst n.toNat) (hsrc : Within src n.toNat) (m : Memory)
    {i : ℕ} (hi : i < n.toNat) :
    (memmove dst src n m).2 (dst + UInt32.ofNat i) = m (src + UInt32.ofNat i) := by
  obtain ⟨ps, heq, hperm, hfresh⟩ := memmove_eq hdst hsrc m
  have hnodup : (ps.map Prod.fst).Nodup :=
    (hperm.map Prod.fst).nodup_iff.mpr (nodup_pairs hdst)
  rw [heq]
  exact copies_of_mem hnodup hfresh (hperm.mem_iff.mpr (mem_pairs hi))

theorem memmove_frame (hdst : Within dst n.toNat) (hsrc : Within src n.toNat) (m : Memory)
    (ha : a.toNat < dst.toNat ∨ dst.toNat + n.toNat ≤ a.toNat) :
    (memmove dst src n m).2 a = m a := by
  obtain ⟨ps, heq, hperm, -⟩ := memmove_eq hdst hsrc m
  rw [heq]
  apply copies_of_notMem
  rw [(hperm.map Prod.fst).mem_iff]
  exact notMem_pairs hdst ha

/-- The data of a buffer at an address. -/
def blockAt (m : Memory) (x : UInt32) : Block := fun i => m (x + UInt32.ofNat i)

/-- Between the data of two buffers, as in `install_trans` and `log_write`: the block of the
source is the block of both afterwards. -/
theorem blockAt_memmove (hdst : Within dst bsize) (hsrc : Within src bsize)
    (hdisjoint : src.toNat + bsize ≤ dst.toNat ∨ dst.toNat + bsize ≤ src.toNat) (m : Memory) :
    blockAt (memmove dst src 512 m).2 dst = blockAt m src ∧
      blockAt (memmove dst src 512 m).2 src = blockAt m src := by
  constructor
  · funext i
    exact memmove_apply hdst hsrc m i.isLt
  · funext i
    apply memmove_frame hdst hsrc m
    have haddr := hsrc.toNat_add i.isLt
    have hi := i.isLt
    have hn : (512 : UInt32).toNat = bsize := rfl
    rw [haddr, hn]
    omega

/-- Whatever the overlap of the ranges, the destination gets the bytes that the source has
held before the call, and nothing else changes. -/
theorem memmove_overlapping (dst src n : UInt32) (m : Memory)
    (hdst : dst.toNat + n.toNat ≤ 4294967296) (hsrc : src.toNat + n.toNat ≤ 4294967296) :
    (memmove dst src n m).1 = dst ∧
    (∀ i, i < n → (memmove dst src n m).2 (dst + i) = m (src + i)) ∧
    ∀ a, a.toNat < dst.toNat ∨ dst.toNat + n.toNat ≤ a.toNat →
      (memmove dst src n m).2 a = m a := by
  refine ⟨?_, fun i hi => ?_, fun a ha => memmove_frame hdst hsrc m ha⟩
  · unfold memmove
    split <;> rfl
  · have happly := memmove_apply hdst hsrc m (UInt32.lt_iff_toNat_lt.mp hi)
    rwa [UInt32.ofNat_toNat] at happly

/-- Five bytes are moved two places up, over three of their own. -/
theorem memmove_overlapping_up :
    (memmove 4098 4096 5 fun a => a.toUInt8).2 4100 = 2 :=
  (memmove_overlapping 4098 4096 5 (fun a => a.toUInt8) (by decide) (by decide)).2.1 2 (by decide)

end Memmove

end Xv6
