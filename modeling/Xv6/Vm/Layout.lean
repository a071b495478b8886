import Xv6.Param

/-!
# Memory layout

The constants of `memlayout.h` and `mmu.h` and the symbols of the linker script.
Addresses are natural numbers below 2 to the 32; arithmetic on them that can
wrap goes through `wrap32`.  A page is named by its page number, the address
divided by `PGSIZE`: the kernel's virtual address of a physical page `n` is that
of the page `n + KERNBASE / PGSIZE`.
-/

namespace Xv6

/-- `KERNBASE`, the first kernel virtual address. -/
abbrev kernbase : ℕ := 2147483648

/-- `PGSIZE`, the bytes mapped by a page. -/
abbrev pgsize : ℕ := 4096

/-- `NPDENTRIES` and `NPTENTRIES`. -/
@[irreducible] def npentries : ℕ := 1024

/-- The page number of `KERNBASE`. -/
abbrev kernbasePage : ℕ := 524288

/-- The page number of `EXTMEM`. -/
abbrev extmemPage : ℕ := 256

/-- The page number of `PHYSTOP`. -/
@[irreducible] def phystopPage : ℕ := 57344

/-- The page number of `DEVSPACE`. -/
abbrev devspacePage : ℕ := 1040384

/-- The number of pages of the virtual address space. -/
abbrev topPage : ℕ := 1048576

/-- `PGROUNDDOWN`. -/
def pgrounddown (a : ℕ) : ℕ :=
  a / pgsize * pgsize

/-- `PGROUNDUP`, with the wrap of the addition. -/
def pgroundup (sz : ℕ) : ℕ :=
  pgrounddown (wrap32 (sz + (pgsize - 1)))

/-- The number of pages that the addresses below `sz` lie in: the page number of
`PGROUNDUP(sz)` for a `sz` that does not wrap. -/
def pagesOf (sz : ℕ) : ℕ :=
  (sz + (pgsize - 1)) / pgsize

/-- The symbols that the linker script places: the pages of `V2P(data)` and of
the first page at or after `V2P(end)`.  The text of the kernel is not empty, and
the kernel ends well below the 4 MB that `entrypgdir` maps. -/
structure Link where
  data : ℕ
  kend : ℕ
  text_lt : extmemPage < data
  data_le : data ≤ kend
  kend_le : kend + 128 ≤ 1024

end Xv6
