import Mathlib.Data.Int.Notation
import Xv6.Storage.Buffer

/-!
# The redo log

`log.c`.  The on-disk log is a header sector, holding the number of logged
blocks and their home sectors, followed by one sector for each logged block.
A transaction appends the blocks it modifies to the log, commits by writing the
header, copies the blocks home and erases the log by writing a header with
`n = 0`.

The spin lock of the log is left out: it is held only around the test and the
assignment of `busy`.
-/

namespace Xv6

open Support

/-- The value of a 32-bit word read as a C `int`. -/
def toInt32 (w : ℕ) : ℤ :=
  if w < 2 ^ 31 then w else w - 2 ^ 32

/-! ## `struct logheader` over the bytes of a sector -/

/-- `lh->n`. -/
def headN (b : Block) : ℤ :=
  toInt32 (b.word 0)

/-- The entries `lh->sector[i]`, `i < lh->n`. -/
def headSectors (b : Block) : List ℕ :=
  (List.range (headN b).toNat).map fun i => b.word (i + 1)

/-- Store `hb->sector[i], hb->sector[i + 1], ...`. -/
def putSectors (b : Block) (i : ℕ) : List ℕ → Block
  | [] => b
  | s :: ss => putSectors (b.setWord (i + 1) s) (i + 1) ss

/-- Store the in-memory header in a sector; words past its entries stay. -/
def putHead (b : Block) (lh : List ℕ) : Block :=
  putSectors (b.setWord 0 lh.length) 0 lh

/-! ## The functions of `log.c` -/

/-- Replace the in-memory header. -/
def setHead (lh : List ℕ) : StoreM Unit :=
  Exec.modify fun st => { st with log := { st.log with lh := lh } }

/-- Read a sector, modify its data, write it back at once and release it. -/
def rewriteSector (s : ℕ) (f : Block → Block) : StoreM Unit := do
  let b ← bread s
  bwrite s (f b)
  brelse s

/-- The body of the loop of `install_trans`: copy the block at index `tail` of
the log to its home sector `s`. -/
def installOne (start tail s : ℕ) : StoreM Unit := do
  let data ← bread (start + tail + 1)
  let _ ← bread s
  bwrite s data
  brelse (start + tail + 1)
  brelse s

/-- The loop of `install_trans` from index `tail` on. -/
def installFrom (start tail : ℕ) : List ℕ → StoreM Unit
  | [] => pure ()
  | s :: ss => do
      installOne start tail s
      installFrom start (tail + 1) ss

/-- `install_trans`: copy the logged blocks to their home sectors. -/
def installTrans : StoreM Unit := do
  let log ← Exec.gets Store.log
  installFrom log.start 0 log.lh

/-- `read_head`: load the header from disk into the in-memory header. -/
def readHead : StoreM Unit := do
  let log ← Exec.gets Store.log
  let b ← bread log.start
  setHead (headSectors b)
  brelse log.start

/-- `write_head`: write the in-memory header to disk. -/
def writeHead : StoreM Unit := do
  let log ← Exec.gets Store.log
  rewriteSector log.start fun b => putHead b log.lh

/-- The statements that `recover_from_log` and `commit_trans` end with: install
the logged blocks, then erase the log. -/
def installErase : StoreM Unit := do
  installTrans
  setHead []
  writeHead

/-- `recover_from_log`: finish a committed transaction and clear the log. -/
def recoverFromLog : StoreM Unit := do
  readHead
  installErase

/-- `begin_trans`: enter the one transaction slot. -/
def beginTrans : StoreM Unit := do
  let log ← Exec.gets Store.log
  if log.busy then Exec.throw .asleep
  else Exec.modify fun st => { st with log := { st.log with busy := true } }

/-- `commit_trans`: write the header, install, erase, leave the slot. -/
def commitTrans : StoreM Unit := do
  let log ← Exec.gets Store.log
  if log.lh ≠ [] then do
    writeHead
    installErase
  Exec.modify fun st => { st with log := { st.log with busy := false } }

/-- The log sector that `log_write` uses for sector `s`: the slot the sector
already has (log absorption), or else the next one. -/
def logSlot (log : Log) (s : ℕ) : ℕ :=
  log.start + log.lh.idxOf s + 1

/-- The in-memory header after logging sector `s`. -/
def logHead (log : Log) (s : ℕ) : List ℕ :=
  if log.lh.idxOf s = log.lh.length then log.lh ++ [s] else log.lh

/-- `log_write`: append the modified buffer of sector `s`, with contents `d`,
to the log, reusing its slot if the sector is already logged. -/
def logWrite (s : ℕ) (d : Block) : StoreM Unit := do
  let log ← Exec.gets Store.log
  if logsize ≤ log.lh.length ∨ log.size ≤ log.lh.length + 1 then
    Exec.throw .tooBigATransaction
  else if log.busy = false then
    Exec.throw .writeOutsideOfTrans
  else do
    rewriteSector (logSlot log s) fun _ => d
    setHead (logHead log s)
    -- the caller's changes to `b->data`, and `b->flags |= B_DIRTY`
    Exec.modify fun st => st.update s fun b => { b with dirty := true, data := d }

end Xv6
