import Xv6.Param
import Xv6.Support.Cycle
import Xv6.Support.Run

/-!
# The memory allocator of user programs

`umalloc.c`.  Addresses are counted in units of `sizeof(Header)`, so that `p + n` is
pointer arithmetic on headers; memory is an array of headers, and what a program
stores in a block is whatever headers it likes.  `base` is the address of the
static header `base`, which lies below the heap.

Whether `sbrk` grants memory is up to the environment.  If it does, the break moves by
the argument, which is the 32-bit product `nu * sizeof(Header)` taken as an `int`.  An
argument that is not positive is never refused, and `growproc` takes memory away then.

The loops of the source are bounded by the size of memory here: a walk along the free
list that is longer than that has passed some block twice and will not end.  `none`
stands for a call that does not return, also because the process is killed for a store
to an address that is not mapped.
-/

namespace Xv6

namespace Umalloc

open Support

/-- `struct { union header *ptr; uint size; } s` -/
structure Header where
  ptr : ℕ
  size : ℕ
  deriving DecidableEq, Repr

/-- The memory of the program and the variables of the allocator. -/
structure Heap where
  mem : ℕ → Header
  /-- `freep`, 0 before the first call. -/
  freep : ℕ
  /-- The break of the process. -/
  brk : ℕ
  /-- The blocks handed out, with the number of bytes asked for.  No code reads this. -/
  live : List (ℕ × ℕ)

namespace Heap

/-- `p->s.ptr` -/
abbrev ptr (s : Heap) (p : ℕ) : ℕ := (s.mem p).ptr

/-- `p->s.size` -/
abbrev size (s : Heap) (p : ℕ) : ℕ := (s.mem p).size

/-- `p->s.ptr = v` -/
def setPtr (s : Heap) (p v : ℕ) : Heap :=
  { s with mem := Function.update s.mem p { s.mem p with ptr := v } }

/-- `p->s.size = n` -/
def setSize (s : Heap) (p n : ℕ) : Heap :=
  { s with mem := Function.update s.mem p { s.mem p with size := n } }

/-- More than the headers that there can be below the break or in a 32-bit address space. -/
def bound (s : Heap) : ℕ := 1073741824 + s.brk

theorem brk_lt_bound (s : Heap) : s.brk < s.bound := by
  unfold bound
  omega

/-- Whether the page of an address is mapped: pages are up to that of the break. -/
def Mapped (s : Heap) (a : ℕ) : Prop :=
  a < (s.brk + 511) / 512 * 512

instance (s : Heap) (a : ℕ) : Decidable (s.Mapped a) :=
  inferInstanceAs (Decidable (a < (s.brk + 511) / 512 * 512))

/-! ## `free` -/

/-- Where the loop of `free` stops: `p` and the block after it are the neighbours of
`bp`, or `p` is the last block and `bp` lies beyond an end of the list. -/
def Around (s : Heap) (bp p : ℕ) : Prop :=
  (p < bp ∧ bp < s.ptr p) ∨ (s.ptr p ≤ p ∧ (p < bp ∨ bp < s.ptr p))

instance (s : Heap) (bp : ℕ) : DecidablePred (s.Around bp) := fun p =>
  inferInstanceAs (Decidable ((p < bp ∧ bp < s.ptr p) ∨ (s.ptr p ≤ p ∧ (p < bp ∨ bp < s.ptr p))))

/-- Join `bp` to the block above, or link it to that block. -/
def joinUpper (s : Heap) (bp nx : ℕ) : Heap :=
  if bp + s.size bp = nx then
    (s.setSize bp (s.size bp + s.size nx)).setPtr bp (s.ptr nx)
  else s.setPtr bp nx

/-- Join `bp` to the block below, or link that block to it. -/
def joinLower (s : Heap) (bp p : ℕ) : Heap :=
  if p + s.size p = bp then
    (s.setSize p (s.size p + s.size bp)).setPtr p (s.ptr bp)
  else s.setPtr p bp

/-- `free`, with the address of the header. -/
def free (s : Heap) (bp : ℕ) : Option Heap :=
  match Cycle.walk s.ptr (s.Around bp) s.bound s.freep with
  | none => none
  | some p => some { (s.joinUpper bp (s.ptr p)).joinLower bp p with freep := p }

/-! ## `malloc` -/

/-- The number of units that `morecore` asks for. -/
def coreUnits (nu : ℕ) : ℕ :=
  if nu < 4096 then 4096 else nu

/-- The break after `growproc(n)`.  Downwards it moves unless the sum of size and `n`, which
is a `uint`, is not below the old size. -/
def moved (brk : ℕ) (n : ℤ) : ℕ :=
  if n < 0 then
    if 8 * brk ≤ uint32 (8 * brk + n) then brk else uint32 (8 * brk + n) / 8
  else (brk + n / 8).toNat

/-- The memory after a successful `sbrk`, with the size of the new block in its header. -/
def grow (s : Heap) (nu : ℕ) : Heap :=
  { s.setSize s.brk nu with brk := moved s.brk (int32 (nu * 8)) }

theorem grow_brk (s : Heap) (nu : ℕ) : (s.grow nu).brk = moved s.brk (int32 (nu * 8)) := by
  rw [grow]

/-- `morecore`: nothing without memory from `sbrk`, otherwise the heap with the new block
freed.  The process does not survive its store to the new header if `sbrk` has left that
unmapped. -/
def morecore (s : Heap) (grant : Bool) (nu : ℕ) : Option (Option Heap) :=
  if grant = false ∧ 0 < int32 (coreUnits nu * 8) then some none
  else if (s.grow (coreUnits nu)).Mapped s.brk then
    ((s.grow (coreUnits nu)).free s.brk).map some
  else none

/-- `nunits` for a request of `nbytes`. -/
def nunits (nbytes : ℕ) : ℕ :=
  wrap32 (nbytes + 8 - 1) / 8 + 1

/-- Where the loop of `malloc` stops, `q` being `prevp`: the block after `q` is large
enough, or the whole list has been searched. -/
def Last (s : Heap) (nu q : ℕ) : Prop :=
  nu ≤ s.size (s.ptr q) ∨ s.ptr q = s.freep

instance (s : Heap) (nu : ℕ) : DecidablePred (s.Last nu) := fun q =>
  inferInstanceAs (Decidable (nu ≤ s.size (s.ptr q) ∨ s.ptr q = s.freep))

/-- Cut `nu` units off the block after `q`, or take that block: the heap and the block
that is handed out. -/
def carve (s : Heap) (nu q : ℕ) : Heap × ℕ :=
  let p := s.ptr q
  if s.size p = nu then ({ s.setPtr q (s.ptr p) with freep := q }, p)
  else
    let rest := s.size p - nu
    ({ (s.setSize p rest).setSize (p + rest) nu with freep := q }, p + rest)

/-- The loop of `malloc` from `prevp` on, with at most `rounds` times around the list. -/
def search (grant : Bool) (nu : ℕ) : ℕ → Heap → ℕ → Option (Heap × Option ℕ)
  | 0, _, _ => none
  | rounds + 1, s, prevp =>
      match Cycle.walk s.ptr (s.Last nu) s.bound prevp with
      | none => none
      | some q =>
          if nu ≤ s.size (s.ptr q) then some ((s.carve nu q).1, some (s.carve nu q).2)
          else
            match s.morecore grant nu with
            | none => none
            | some none => some (s, none)
            | some (some t) => search grant nu rounds t t.freep

/-- The heap with an empty free list, if there was none before. -/
def ready (base : ℕ) (s : Heap) : Heap :=
  if s.freep = 0 then
    { s with mem := Function.update s.mem base ⟨base, 0⟩, freep := base }
  else s

/-- `malloc`: the heap and the block whose header lies below the pointer returned.  With
the memory that `morecore` obtains, the second time around the list is the last. -/
def malloc (base : ℕ) (s : Heap) (nbytes : ℕ) (grant : Bool) : Option (Heap × Option ℕ) :=
  search grant (nunits nbytes) 2 (s.ready base) (s.ready base).freep

end Heap

/-! ## Programs -/

/-- What a program does with its memory. -/
inductive Op where
  | malloc (nbytes : ℕ) (grant : Bool)
  /-- `free` of the block with the header at `bp`. -/
  | free (bp : ℕ)
  /-- The program stores something in a block. -/
  | store (a : ℕ) (h : Header)
  deriving DecidableEq, Repr

/-- What the program may do: ask for less than 2 to the 28 bytes, free what it has, and
store to what it has. -/
def Op.Allowed (s : Heap) : Op → Prop
  | .malloc nbytes _ => nbytes < 268435456
  | .free bp => ∃ n, (bp, n) ∈ s.live
  | .store a _ => ∃ bp n, (bp, n) ∈ s.live ∧ bp < a ∧ a < bp + s.size bp

/-- The heap after an operation. -/
def Heap.step (base : ℕ) (s : Heap) : Op → Option Heap
  | .malloc nbytes grant =>
      match s.malloc base nbytes grant with
      | none => none
      | some (t, none) => some t
      | some (t, some bp) => some { t with live := (bp, nbytes) :: t.live }
  | .free bp => (s.free bp).map fun t => { t with live := t.live.eraseP fun b => b.1 = bp }
  | .store a h => some { s with mem := Function.update s.mem a h }

/-- The heap of a program that has just started, with the break at `start`. -/
structure Fresh (start : ℕ) (s : Heap) : Prop where
  freep : s.freep = 0
  brk : s.brk = start
  live : s.live = []

/-- The steps of a program that keeps to the rules. -/
def Step (base : ℕ) (s : Heap) (op : Op) (t : Heap) : Prop :=
  op.Allowed s ∧ s.step base op = some t

end Umalloc

end Xv6
