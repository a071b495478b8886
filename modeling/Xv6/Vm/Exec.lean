import Xv6.Fs.Transfer
import Xv6.Sys.User
import Xv6.Vm.Memory

/-!
# Loading a program

`exec.c` with `loaduvm`, `uva2ka` and `copyout` of `vm.c`: the part of `exec` that
builds the new address space.  The executable is its bytes, which `readi` returns
up to the end of the file; a file has at most `MAXFILE` blocks.

`uva2ka` looks at the entry that `walkpgdir` returns without checking for null.
The kernel runs on the page table of the old program then, so what it finds at
address 0 is the first word of that program.
-/

namespace Xv6

namespace Vm

open Support

/-- The contents of an executable file. -/
structure ExecFile where
  size : ℕ
  size_le : size ≤ maxfile * bsize
  byte : ℕ → UInt8

/-- `struct proghdr`, the fields that `exec` reads. -/
structure Proghdr where
  type : ℕ
  off : ℕ
  vaddr : ℕ
  filesz : ℕ
  memsz : ℕ
  deriving DecidableEq, Repr

/-- `struct elfhdr`, the fields that `exec` reads. -/
structure Elfhdr where
  magic : ℕ
  phoff : ℕ
  phnum : ℕ
  deriving DecidableEq, Repr

namespace ExecFile

/-- The `n` bytes at offset `off` as a number. -/
def num (f : ExecFile) (off n : ℕ) : ℕ :=
  ofBytes ((List.range n).map fun i => f.byte (off + i))

/-- The header, if the file is long enough to hold one. -/
def elfhdr (f : ExecFile) : Option Elfhdr :=
  if readCount f.size 0 52 = some 52 then some ⟨f.num 0 4, f.num 28 4, f.num 44 2⟩ else none

/-- The program header at offset `off`, if it can be read. -/
def proghdr (f : ExecFile) (off : ℕ) : Option Proghdr :=
  if readCount f.size off 32 = some 32 then
    some ⟨f.num off 4, f.num (off + 4) 4, f.num (off + 8) 4, f.num (off + 16) 4,
      f.num (off + 20) 4⟩
  else none

theorem num_lt (f : ExecFile) (off : ℕ) {n : ℕ} : f.num off n < 256 ^ n := by
  have hlt := ofBytes_lt ((List.range n).map fun i => f.byte (off + i))
  rwa [List.length_map, List.length_range] at hlt

theorem phoff_lt (f : ExecFile) {elf : Elfhdr} (h : f.elfhdr = some elf) :
    elf.phoff < 4294967296 := by
  unfold elfhdr at h
  split at h
  · cases h
    exact f.num_lt 28
  · cases h

end ExecFile

/-- `ELF_MAGIC`. -/
abbrev elfMagic : ℕ := 1179403647

/-- The words of a page after copying bytes to it from byte `start` on. -/
def overlay (ws : ℕ → ℕ) (start : ℕ) (cs : List UInt8) : ℕ → ℕ := fun i =>
  ofBytes ((List.range 4).map fun b =>
    if start ≤ 4 * i + b ∧ 4 * i + b < start + cs.length then cs.getD (4 * i + b - start) 0
    else UInt8.ofNat (ws i / 256 ^ b))

/-- Copy bytes into a page. -/
def copyTo (n start : ℕ) (cs : List UInt8) : PageM Unit := do
  let ws ← Exec.gets fun s => s.word n
  setPage n (overlay ws start cs)

/-! ## `loaduvm` -/

/-- `readi(ip, p2v(pa), off, n)` into the page at `pa`: whether it read `n` bytes.
Bytes are stored only if the offset is below the size of the file. -/
def readPage (f : ExecFile) (pa off n : ℕ) : PageM Bool :=
  match readCount f.size off n with
  | none => pure false
  | some 0 => pure (decide (n = 0))
  | some (r + 1) => do
      copyTo pa 0 ((List.range (r + 1)).map fun i => f.byte (off + i))
      Exec.modify fun s => { s with trace := .load pa :: s.trace }
      pure (decide (n = r + 1))

/-- The loop of `loaduvm` from the offset `i` on, with `k` pages to go.  Whether
the page is present is not checked.  The loop ends before `i` can wrap, since the
file is too short to fill the address space. -/
def loadFrom (d : ℕ) (f : ExecFile) (addr offset sz : ℕ) : ℕ → ℕ → PageM Bool
  | 0, _ => pure true
  | k + 1, i => do
      match ← walkpgdir d (wrap32 (addr + i) / pgsize) false with
      | none => Exec.throw .loaduvmExists
      | some (t, j) => do
          let pte ← Exec.gets fun s => s.word t j
          if ← readPage f (ptePage pte) (wrap32 (offset + i)) (min (sz - i) pgsize) then
            loadFrom d f addr offset sz k (i + pgsize)
          else pure false

/-- `loaduvm`. -/
def loaduvm (d addr : ℕ) (f : ExecFile) (offset sz : ℕ) : PageM Bool :=
  if addr % pgsize ≠ 0 then Exec.throw .loaduvmAligned
  else loadFrom d f addr offset sz (pagesOf sz) 0

/-! ## `copyout` -/

/-- The word at address 0 of the address space `cur`. -/
def firstWord (cur : ℕ) : PageM ℕ := do
  match ← walkpgdir cur 0 false with
  | none => Exec.throw .trap
  | some (t, j) => do
      let pte ← Exec.gets fun s => s.word t j
      if Present pte then Exec.gets fun s => s.word (ptePage pte) 0 else Exec.throw .trap

/-- `*pte` in `uva2ka`, while the kernel runs on the page table `cur`. -/
def entryOf (cur d v : ℕ) : PageM ℕ := do
  match ← walkpgdir d v false with
  | none => firstWord cur
  | some (t, j) => Exec.gets fun s => s.word t j

/-- `uva2ka` for the virtual page `v`. -/
def uva2ka (cur d v : ℕ) : PageM (Option ℕ) := do
  let pte ← entryOf cur d v
  if ¬Present pte then pure none
  else if ¬UserBit pte then pure none
  else pure (some (ptePage pte))

/-- `copyout` of the bytes `cs` to the address `va`; each round copies at least
one byte, and the first argument counts the rounds. -/
def copyoutFrom (cur d : ℕ) : ℕ → ℕ → List UInt8 → PageM Bool
  | 0, _, _ => pure true
  | k + 1, va, cs =>
      if cs = [] then pure true
      else do
        match ← uva2ka cur d (va / pgsize) with
        | none => pure false
        | some n => do
            let m := pgsize - va % pgsize
            copyTo n (va % pgsize) (cs.take m)
            copyoutFrom cur d k (wrap32 (pgrounddown va + pgsize)) (cs.drop m)

/-- `copyout`. -/
def copyout (cur d va : ℕ) (cs : List UInt8) : PageM Bool :=
  copyoutFrom cur d cs.length va cs

/-! ## `exec` -/

/-- The loop of `exec` over `k` program headers from offset `off` on: the size of
the program, `none` if it has to give up. -/
def loadSegments (L : Link) (d : ℕ) (f : ExecFile) : ℕ → ℕ → ℕ → PageM (Option ℕ)
  | 0, _, sz => pure (some sz)
  | k + 1, off, sz =>
      match f.proghdr off with
      | none => pure none
      | some ph =>
          if ph.type ≠ 1 then loadSegments L d f k (wrap32 (off + 32)) sz
          else if ph.memsz < ph.filesz then pure none
          else do
            let sz ← allocuvm L d sz (wrap32 (ph.vaddr + ph.memsz))
            if sz = 0 then pure none
            else if ← loaduvm d ph.vaddr f ph.off ph.filesz then
              loadSegments L d f k (wrap32 (off + 32)) sz
            else pure none

/-- The stack pointer after pushing `n` bytes, rounded down to a word. -/
def pushed (sp n : ℕ) : ℕ :=
  wrap32 (sp + 4294967296 - n) / 4 * 4

/-- The loop of `exec` over the arguments: the stack pointer and the addresses of
the strings. -/
def pushArgs (cur d : ℕ) : List (List UInt8) → ℕ → List ℕ → PageM (Option (ℕ × List ℕ))
  | [], sp, ptrs => pure (some (sp, ptrs))
  | arg :: args, sp, ptrs =>
      if maxarg ≤ ptrs.length then pure none
      else do
        let sp := pushed sp (arg.length + 1)
        if ← copyout cur d sp (arg ++ [0]) then pushArgs cur d args sp (ptrs ++ [sp])
        else pure none

/-- The bytes of `ustack` for the arguments at `ptrs` and the stack pointer `sp`. -/
def ustack (sp : ℕ) (ptrs : List ℕ) : List UInt8 :=
  let ws : List ℕ := [4294967295, ptrs.length,
    wrap32 (sp + 4294967296 - (ptrs.length + 1) * 4)] ++ ptrs ++ [0]
  ws.flatMap fun w : ℕ => toBytes 4 (w : ℤ)

/-- The stack of the new program: two pages, the lower one inaccessible, and the
arguments on the upper one.  The result is the new size. -/
def makeStack (L : Link) (cur d sz : ℕ) (argv : List (List UInt8)) : PageM (Option ℕ) := do
  let top ← allocuvm L d (pgroundup sz) (pgroundup sz + 2 * pgsize)
  if top = 0 then pure none
  else do
    clearpteu d ((top - 2 * pgsize) / pgsize)
    match ← pushArgs cur d argv top [] with
    | none => pure none
    | some (sp, ptrs) =>
        if ← copyout cur d (wrap32 (sp + 4294967296 - (ustack sp ptrs).length)) (ustack sp ptrs)
        then pure (some top)
        else pure none

/-- The part of `exec` that fills the new directory `d`: the size of the program,
`none` for a jump to `bad`. -/
def fillImage (L : Link) (cur d : ℕ) (f : ExecFile) (elf : Elfhdr) (argv : List (List UInt8)) :
    PageM (Option ℕ) := do
  match ← loadSegments L d f elf.phnum elf.phoff 0 with
  | none => pure none
  | some sz => makeStack L cur d sz argv

/-- `exec` up to the point where it commits to the new image, run by a process
with the directory `cur`: the new directory and the new size. -/
def execImage (L : Link) (cur : ℕ) (f : ExecFile) (argv : List (List UInt8)) :
    PageM (Option (ℕ × ℕ)) := do
  Exec.modify fun s => { s with hole := false, trace := [], hole_starved := by simp }
  match f.elfhdr with
  | none => pure none
  | some elf =>
      if elf.magic ≠ elfMagic then pure none
      else do
        match ← setupkvm L with
        | none => pure none
        | some d => do
            match ← fillImage L cur d f elf argv with
            | none => do
                freevm L d
                pure none
            | some sz => pure (some (d, sz))

end Vm

end Xv6
