import Mathlib.Data.Nat.Bitwise
import Xv6.Support.Exec
import Xv6.Vm.Layout

/-!
# Physical pages and page tables

`kalloc.c` and `vm.c`.  Physical memory is a table of pages of 1024 words; the
free list of the allocator is the list of the pages on it.  A page directory or
a page table is a page like any other, and its entries are the words of the
page, so code that wrote to a page in use as a table would change the mapping.

Whether `kalloc` fails is up to the environment: it fails if no page is free, and
also wherever the list `fails` says so, as it does when another processor has
taken the last page.  Three fields keep a record that no code reads: `starved`
that a page for a page table was refused, `hole` that `allocuvm` went on after
`mappages` had failed, and `trace` the pages that `allocuvm` obtained and those
that `loaduvm` stored into.
-/

namespace Xv6

namespace Vm

open Support

/-- The calls of `panic` in `kalloc.c`, `vm.c` and the code above them. -/
inductive Panic where
  /-- `kfree` -/
  | kfree
  /-- `remap` -/
  | remap
  /-- `loaduvm: addr must be page aligned` -/
  | loaduvmAligned
  /-- `loaduvm: address should exist` -/
  | loaduvmExists
  /-- `clearpteu` -/
  | clearpteu
  /-- `copyuvm: pte should exist` -/
  | copyuvmExists
  /-- `copyuvm: page not present` -/
  | copyuvmPresent
  /-- `userinit: out of memory?` -/
  | userinit
  /-- `filedup` -/
  | filedup
  /-- `fileclose` -/
  | fileclose
  /-- `init exiting` -/
  | initExiting
  /-- `ilock` -/
  | ilock
  /-- `iunlock` -/
  | iunlock
  /-- `trap`: a page fault of the kernel itself. -/
  | trap
  deriving DecidableEq, Repr

/-- What `exec` does to pages, for the record. -/
inductive PageEvent where
  /-- `allocuvm` obtained the page. -/
  | grant (n : ℕ)
  /-- `loaduvm` stored into the page. -/
  | load (n : ℕ)
  deriving DecidableEq, Repr

/-- Physical memory with the state of its allocator. -/
structure Memory where
  /-- `kmem.freelist`. -/
  freelist : List ℕ
  /-- The words of each page. -/
  word : ℕ → ℕ → ℕ
  /-- Which of the next calls of `kalloc` fail although there may be pages. -/
  fails : List Bool
  /-- Some page table page was refused. -/
  starved : Bool
  /-- A page of `allocuvm` was left unmapped. -/
  hole : Bool
  /-- Pages obtained and stored into, latest first. -/
  trace : List PageEvent
  /-- `mappages` fails only for want of a page table. -/
  hole_starved : hole = true → starved = true

/-- What has not been recorded implies anything. -/
theorem not_recorded (b : Bool) (h : false = true) : b = true :=
  absurd h Bool.false_ne_true

/-- Record whether `mappages` has mapped a page for `allocuvm`. -/
def Memory.noteMapped (s : Memory) (ok : Bool) : Memory :=
  { s with
    hole := s.hole || (!ok && s.starved)
    hole_starved := by
      have := s.hole_starved
      grind }

/-- The same memory with other failures of `kalloc` ahead. -/
def Memory.withFails (fails : List Bool) (s : Memory) : Memory :=
  { s with fails := fails }

/-- Kernel code over physical memory. -/
abbrev PageM := Exec Memory Panic

/-! ## Entries -/

/-- `*pte & PTE_P`. -/
abbrev Present (w : ℕ) : Prop := w % 2 = 1

/-- `*pte & PTE_U`. -/
abbrev UserBit (w : ℕ) : Prop := w / 4 % 2 = 1

/-- The page of `PTE_ADDR(pte)`. -/
abbrev ptePage (w : ℕ) : ℕ := w / pgsize

/-- `PTE_FLAGS(pte)`. -/
abbrev pteFlags (w : ℕ) : ℕ := w % pgsize

/-- `PTE_W`. -/
abbrev pteW : ℕ := 2

/-- `PTE_W|PTE_U`. -/
abbrev pteWU : ℕ := 6

/-- `pa | perm | PTE_P` for the page `n` at `pa`. -/
def mkPte (n perm : ℕ) : ℕ :=
  n * pgsize + (perm ||| 1)

/-! ## `kalloc.c` -/

/-- Replace the contents of a page. -/
def setPage (n : ℕ) (ws : ℕ → ℕ) : PageM Unit :=
  Exec.modify fun s => { s with word := fun m => if m = n then ws else s.word m }

/-- Store one word of a page. -/
def setWord (n i w : ℕ) : PageM Unit :=
  Exec.modify fun s =>
    { s with word := fun m j => if m = n ∧ j = i then w else s.word m j }

/-- `kalloc`. -/
def kalloc : PageM (Option ℕ) := fun s =>
  match s.freelist, s.fails with
  | n :: ns, true :: fs => (.ok none, { s with freelist := n :: ns, fails := fs })
  | n :: ns, fs => (.ok (some n), { s with freelist := ns, fails := fs.tail })
  | [], fs => (.ok none, { s with fails := fs.tail })

/-- `kfree`: the page is filled with junk and put on the free list. -/
def kfree (L : Link) (n : ℕ) : PageM Unit :=
  if n < L.kend ∨ phystopPage ≤ n then Exec.throw .kfree
  else Exec.modify fun s =>
    { s with
      word := fun m => if m = n then fun _ => 16843009 else s.word m
      freelist := n :: s.freelist }

/-! ## Page tables -/

/-- `walkpgdir`: the table and the index of the entry for the virtual page `v`.
If `alloc` is set, a missing table is allocated. -/
def walkpgdir (d v : ℕ) (alloc : Bool) : PageM (Option (ℕ × ℕ)) := do
  let pde ← Exec.gets fun s => s.word d (v / npentries)
  if Present pde then pure (some (ptePage pde, v % npentries))
  else if alloc = false then pure none
  else do
    match ← kalloc with
    | none => do
        Exec.modify fun s => { s with starved := true, hole_starved := fun _ => rfl }
        pure none
    | some t => do
        setPage t fun _ => 0
        setWord d (v / npentries) (mkPte t pteWU)
        pure (some (t, v % npentries))

/-- `mappages` for `k` pages from the virtual page `v` on, to the physical pages
from `n` on.  All callers pass whole pages. -/
def mappages (d : ℕ) : ℕ → ℕ → ℕ → ℕ → PageM Bool
  | 0, _, _, _ => pure true
  | k + 1, v, n, perm => do
      match ← walkpgdir d v true with
      | none => pure false
      | some (t, j) => do
          let pte ← Exec.gets fun s => s.word t j
          if Present pte then Exec.throw .remap
          else do
            setWord t j (mkPte n perm)
            mappages d k (v + 1) (n + 1) perm

/-- `kmap[]`: first virtual page, first and last physical page, permissions. -/
def kmap (L : Link) : List (ℕ × ℕ × ℕ × ℕ) :=
  [ (kernbasePage, 0, extmemPage, pteW),
    (kernbasePage + extmemPage, extmemPage, L.data, 0),
    (kernbasePage + L.data, L.data, phystopPage, pteW),
    (devspacePage, devspacePage, topPage, pteW) ]

/-- The loop of `setupkvm` over `kmap`. -/
def mapKernel (d : ℕ) : List (ℕ × ℕ × ℕ × ℕ) → PageM Bool
  | [] => pure true
  | (virt, physStart, physEnd, perm) :: ks => do
      if ← mappages d (physEnd - physStart) virt physStart perm then mapKernel d ks
      else pure false

/-- `setupkvm`. -/
def setupkvm (L : Link) : PageM (Option ℕ) := do
  match ← kalloc with
  | none => pure none
  | some d => do
      setPage d fun _ => 0
      if ← mapKernel d (kmap L) then pure (some d) else pure none

/-- `inituvm`: one page at address 0, with the contents `init`.  Without a page the
kernel clears memory at address 0, where nothing is mapped yet. -/
def inituvm (d : ℕ) (init : ℕ → ℕ) : PageM Unit := do
  match ← kalloc with
  | none => Exec.throw .trap
  | some n => do
      setPage n fun _ => 0
      let _ ← mappages d 1 0 n pteWU
      setPage n init

/-- The loop of `deallocuvm` from the virtual page `v` up to `last`; the first
argument bounds the number of rounds. -/
def deallocFrom (L : Link) (d : ℕ) : ℕ → ℕ → ℕ → PageM Unit
  | 0, _, _ => pure ()
  | k + 1, v, last =>
      if v < last then do
        match ← walkpgdir d v false with
        | none => deallocFrom L d k (v + (npentries - 1) + 1) last
        | some (t, j) => do
            let pte ← Exec.gets fun s => s.word t j
            if Present pte then
              if ptePage pte = 0 then Exec.throw .kfree
              else do
                kfree L (ptePage pte)
                setWord t j 0
                deallocFrom L d k (v + 1) last
            else deallocFrom L d k (v + 1) last
      else pure ()

/-- `deallocuvm`. -/
def deallocuvm (L : Link) (d oldsz newsz : ℕ) : PageM ℕ :=
  if oldsz ≤ newsz then pure oldsz
  else do
    deallocFrom L d (pagesOf oldsz) (pagesOf newsz) (pagesOf oldsz)
    pure newsz

/-- The loop of `allocuvm` over `k` pages from the virtual page `v` on; `false`
when `kalloc` has failed.  The result of `mappages` is not looked at. -/
def allocFrom (d : ℕ) : ℕ → ℕ → PageM Bool
  | 0, _ => pure true
  | k + 1, v => do
      match ← kalloc with
      | none => pure false
      | some n => do
          Exec.modify fun s => { s with trace := .grant n :: s.trace }
          setPage n fun _ => 0
          let ok ← mappages d 1 v n pteWU
          Exec.modify fun s => s.noteMapped ok
          allocFrom d k (v + 1)

/-- `allocuvm`: the new size, 0 on failure. -/
def allocuvm (L : Link) (d oldsz newsz : ℕ) : PageM ℕ :=
  if kernbase ≤ newsz then pure 0
  else if newsz < oldsz then pure oldsz
  else do
    if ← allocFrom d (pagesOf newsz - pagesOf oldsz) (pagesOf oldsz) then pure newsz
    else do
      let _ ← deallocuvm L d newsz oldsz
      pure 0

/-- The loop of `freevm` over the entries of the directory from `i` on. -/
def freeTables (L : Link) (d : ℕ) : ℕ → ℕ → PageM Unit
  | 0, _ => pure ()
  | k + 1, i => do
      let pde ← Exec.gets fun s => s.word d i
      if Present pde then do
        kfree L (ptePage pde)
        freeTables L d k (i + 1)
      else freeTables L d k (i + 1)

/-- `freevm`. -/
def freevm (L : Link) (d : ℕ) : PageM Unit := do
  let _ ← deallocuvm L d kernbase 0
  freeTables L d npentries 0
  kfree L d

/-- `clearpteu` for the virtual page `v`. -/
def clearpteu (d v : ℕ) : PageM Unit := do
  match ← walkpgdir d v false with
  | none => Exec.throw .clearpteu
  | some (t, j) => do
      let pte ← Exec.gets fun s => s.word t j
      setWord t j (if UserBit pte then pte - 4 else pte)

/-- The loop of `copyuvm` from the directory `d` to `d'`, over `k` pages from the
virtual page `v` on; `false` when it has to give up. -/
def copyFrom (d d' : ℕ) : ℕ → ℕ → PageM Bool
  | 0, _ => pure true
  | k + 1, v => do
      match ← walkpgdir d v false with
      | none => Exec.throw .copyuvmExists
      | some (t, j) => do
          let pte ← Exec.gets fun s => s.word t j
          if ¬Present pte then Exec.throw .copyuvmPresent
          else do
            match ← kalloc with
            | none => pure false
            | some n => do
                let ws ← Exec.gets fun s => s.word (ptePage pte)
                setPage n ws
                if ← mappages d' 1 v n (pteFlags pte) then copyFrom d d' k (v + 1)
                else pure false

/-- `copyuvm`. -/
def copyuvm (L : Link) (d sz : ℕ) : PageM (Option ℕ) := do
  match ← setupkvm L with
  | none => pure none
  | some d' => do
      if ← copyFrom d d' (pagesOf sz) 0 then pure (some d')
      else do
        freevm L d'
        pure none

/-! ## The record -/

/-- The record. -/
def Memory.record (s : Memory) : Bool × Bool × List PageEvent :=
  (s.starved, s.hole, s.trace)

/-- Its fields that only `allocuvm` and `loaduvm` change. -/
def Memory.marks (s : Memory) : Bool × List PageEvent :=
  s.record.2

theorem Memory.marks_of_record {s s' : Memory} (h : s'.record = s.record) : s'.marks = s.marks :=
  congrArg Prod.snd h

theorem Memory.starved_of_record {s s' : Memory} (h : s'.record = s.record) :
    s'.starved = s.starved :=
  congrArg Prod.fst h

theorem Memory.hole_of_marks {s s' : Memory} (h : s'.marks = s.marks) : s'.hole = s.hole :=
  congrArg Prod.fst h

theorem Memory.trace_of_marks {s s' : Memory} (h : s'.marks = s.marks) : s'.trace = s.trace :=
  congrArg Prod.snd h

theorem Memory.hole_of_record {s s' : Memory} (h : s'.record = s.record) : s'.hole = s.hole :=
  Memory.hole_of_marks (Memory.marks_of_record h)

theorem Memory.trace_of_record {s s' : Memory} (h : s'.record = s.record) :
    s'.trace = s.trace :=
  Memory.trace_of_marks (Memory.marks_of_record h)

theorem marks_of_keeps {α : Type} {m : PageM α} (h : Exec.Keeps Memory.record m) :
    Exec.Keeps Memory.marks m :=
  fun s => Memory.marks_of_record (h s)

theorem keeps_setPage (n : ℕ) (ws : ℕ → ℕ) : Exec.Keeps Memory.record (setPage n ws) :=
  fun _ => rfl

theorem keeps_setWord (n i w : ℕ) : Exec.Keeps Memory.record (setWord n i w) :=
  fun _ => rfl

theorem keeps_kalloc : Exec.Keeps Memory.record kalloc := by
  intro s
  unfold kalloc
  split <;> rfl

theorem keeps_kfree (L : Link) (n : ℕ) : Exec.Keeps Memory.record (kfree L n) := by
  unfold kfree
  split
  · exact Exec.Keeps.throw
  · exact Exec.Keeps.modify fun _ => rfl

theorem keeps_lookup (d v : ℕ) : Exec.Keeps Memory.record (walkpgdir d v false) := by
  refine Exec.Keeps.bind Exec.Keeps.gets fun pde => ?_
  split
  · exact Exec.Keeps.pure
  · exact Exec.Keeps.pure

/-- A table that is refused is recorded, and nothing else. -/
theorem walkpgdir_record (d v : ℕ) (s : Memory) :
    Exec.total (walkpgdir d v true) (fun r s' => s'.marks = s.marks ∧
      s'.starved = (s.starved || r.isNone)) s := by
  refine Exec.wp_bind.mpr (Exec.wp_gets.mpr ?_)
  split
  · exact Exec.wp_pure.mpr ⟨rfl, (Bool.or_false _).symm⟩
  · rw [if_neg (by decide)]
    unfold Exec.wp
    rw [Exec.bind_run]
    have hkeep := keeps_kalloc s
    cases hrun : kalloc s with
    | mk r s₁ =>
        rw [hrun] at hkeep
        have hmarks := Memory.marks_of_record hkeep
        have hstarved := Memory.starved_of_record hkeep
        rcases r with e | _ | t
        · unfold kalloc at hrun
          split at hrun <;> cases hrun
        · exact ⟨hmarks, (Bool.or_true _).symm⟩
        · exact ⟨hmarks, hstarved.trans (Bool.or_false _).symm⟩

theorem mappages_record (d k v n perm : ℕ) (s : Memory) :
    Exec.wp (mappages d k v n perm)
      (fun ok s' => s'.marks = s.marks ∧ s'.starved = (s.starved || !ok))
      (fun _ s' => s'.record = s.record) s := by
  induction k generalizing v n s with
  | zero => exact Exec.wp_pure.mpr ⟨rfl, (Bool.or_false _).symm⟩
  | succ k ih =>
      refine Exec.wp_seq (walkpgdir_record d v s) ?_ fun _ _ hh => hh.elim
      rintro (_ | ⟨t, j⟩) s₁ ⟨hmarks, hstarved⟩
      · exact Exec.wp_pure.mpr ⟨hmarks, hstarved⟩
      · rw [Option.isNone_some, Bool.or_false] at hstarved
        refine Exec.wp_bind.mpr (Exec.wp_gets.mpr ?_)
        split
        · exact Exec.wp_throw.mpr (Prod.ext hstarved hmarks)
        · refine Exec.wp_bind.mpr (Exec.wp_modify.mpr (Exec.wp_mono (ih _ _ _) ?_ ?_))
          · rintro ok s' ⟨hmarks', hstarved'⟩
            refine ⟨hmarks'.trans hmarks, hstarved'.trans ?_⟩
            rw [← hstarved]
          · intro _ s' hrec
            exact hrec.trans (Prod.ext hstarved hmarks)

theorem keeps_mappages (d k v n perm : ℕ) : Exec.Keeps Memory.marks (mappages d k v n perm) :=
  fun s => Exec.wp_end (Exec.wp_mono (mappages_record d k v n perm s) (fun _ _ hh => hh.1)
    fun _ _ hrec => Memory.marks_of_record hrec)

end Vm

end Xv6
