import Mathlib.Data.List.Nodup
import Xv6.Param
import Xv6.Storage.Block
import Xv6.Support.Exec
import Xv6.Support.History

/-!
# The disk and the buffer cache

`bio.c` and the part of `ide.c` it rests on, for kernel code that runs without
other processes in between.  The disk executes a request at once; sector
writes take effect atomically and in the order of issue, and the store keeps
the list of writes issued since boot so that a crash can cut it anywhere.

The cache is the list from `bcache.head.next` on, most recently used first.
The kernel uses one device, `ROOTDEV`, so buffers are keyed by their sector; a
buffer `binit` has set up and nothing has used yet (`dev == -1`) has no sector.
A function that modifies `b->data` in place and then writes the buffer passes
the modified data to the writing function instead.
-/

namespace Xv6

open Support

/-- `struct buf`: the flags `B_BUSY`, `B_VALID`, `B_DIRTY`, the sector and the
cached data. -/
structure Buf where
  sector : Option ℕ
  busy : Bool
  valid : Bool
  dirty : Bool
  data : Block

/-- `struct log`: where the on-disk log lies, whether a transaction is active,
and the first `n` entries of the in-memory header's `sector` array. -/
structure Log where
  start : ℕ
  size : ℕ
  busy : Bool
  lh : List ℕ

/-- The disk as it was at boot, the sector writes issued since (latest first),
the buffer cache and the log. -/
structure Store where
  base : ℕ → Block
  writes : List (ℕ × Block)
  bufs : List Buf
  log : Log

/-- Kernel code over the store. -/
abbrev StoreM := Exec Store Stop

namespace Store

/-- What the disk holds now. -/
def disk (st : Store) : ℕ → Block :=
  contents st.base st.writes

/-- A sector write reaches the disk. -/
def write (st : Store) (s : ℕ) (d : Block) : Store :=
  { st with writes := (s, d) :: st.writes }

/-- The buffer caching a sector, searched from the most recently used on. -/
def lookup (st : Store) (s : ℕ) : Option Buf :=
  st.bufs.find? fun b => b.sector = some s

/-- Change the buffer caching sector `s`. -/
def update (st : Store) (s : ℕ) (f : Buf → Buf) : Store :=
  { st with bufs := st.bufs.map fun b => if b.sector = some s then f b else b }

/-- The data of a sector as `bread` returns it: cached if cached, else on disk. -/
def view (st : Store) (s : ℕ) : Block :=
  match st.lookup s with
  | some b => b.data
  | none => st.disk s

end Store

/-- `binit`: `NBUF` buffers that cache nothing. -/
def binit : List Buf :=
  List.replicate nbuf ⟨none, false, false, false, Block.zero⟩

/-- Recycle the least recently used buffer that is neither busy nor dirty, for
sector `s`. -/
def recycle (s : ℕ) : List Buf → Option (List Buf)
  | [] => none
  | b :: bs =>
      match recycle s bs with
      | some bs' => some (b :: bs')
      | none =>
          if !b.busy && !b.dirty then
            some (⟨some s, true, false, false, b.data⟩ :: bs)
          else none

/-- `bget`: a busy buffer for sector `s`, cached or recycled. -/
def bget (s : ℕ) : StoreM Unit := do
  match ← Exec.gets (Store.lookup · s) with
  | some b =>
      if b.busy then Exec.throw .asleep
      else Exec.modify fun st => st.update s fun b => { b with busy := true }
  | none =>
      match ← Exec.gets fun st => recycle s st.bufs with
      | some bufs => Exec.modify fun st => { st with bufs := bufs }
      | none => Exec.throw .bgetNoBuffers

/-- `bread`: the contents of sector `s`, in a busy buffer.  A buffer that is
not valid is first read from the disk (`iderw`). -/
def bread (s : ℕ) : StoreM Block := do
  bget s
  Exec.modify fun st => st.update s fun b =>
    if b.valid then b else { b with valid := true, data := st.disk s }
  Exec.gets (Store.view · s)

/-- `bwrite`: write `d` to sector `s`, whose buffer must be busy (`iderw` with
`B_DIRTY` set). -/
def bwrite (s : ℕ) (d : Block) : StoreM Unit := do
  match ← Exec.gets (Store.lookup · s) with
  | some b =>
      if b.busy then
        Exec.modify fun st => (st.write s d).update s fun b =>
          { b with valid := true, dirty := false, data := d }
      else Exec.throw .bwrite
  | none => Exec.throw .bwrite

/-- `brelse`: release a busy buffer and make it the most recently used. -/
def brelse (s : ℕ) : StoreM Unit := do
  match ← Exec.gets (Store.lookup · s) with
  | some b =>
      if b.busy then
        Exec.modify fun st =>
          { st with bufs := { b with busy := false } ::
              st.bufs.filter fun b' => b'.sector ≠ some s }
      else Exec.throw .brelse
  | none => Exec.throw .brelse

end Xv6
