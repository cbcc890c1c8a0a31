import Cellule.Ltx.Pages
import Cellule.Lib.Cells
import Cellule.Lib.Slots

/-!
# Page checksums over a file

The index of `cellule-ltx/src/pages.rs` with either of its bases. A base in memory belongs to one
value; a base in a file is shared by a value and all its clones, and `commit` rewrites it in place.
A file is the list of its 8-byte entries, the checksum of page `n` at index `n - 1`. The functions
take the backing as it is when they run; with a base in memory they are those of
`Cellule.Ltx.Pages`.
-/

namespace Cellule

open Except

/-- Where the base of an index is: in the value, or in a file with these entries (`ChecksumBase`,
`pages.rs:15`). -/
inductive Backing where
  | memory
  | file (entries : List UInt64)

/-- `CHECKSUM_BLOCK_BYTES / 8`. -/
def checksumBlock : Nat := 512

/-- `CHECKSUM_READ_BYTES / 8`. -/
def checksumRead : Nat := 8192

/-- `DENSE_WRITE_BYTES / 8`. -/
def denseWrite : Nat := 8192

/-- `HostFile::read_exact_at`, in entries. -/
def readExactAt (entries : List UInt64) (offset length : Nat) : LtxResult (List UInt64) :=
  if offset + length ≤ entries.length then .ok ((entries.drop offset).take length) else .error .io

/-- `HostFile::write_all_at`, in entries: a gap after the end is filled with zeros. -/
def writeAllAt (entries : List UInt64) (offset : Nat) (data : List UInt64) : List UInt64 :=
  (entries.resize (max entries.length offset) 0).splice offset data

/-- `ChecksumReader::value` (`pages.rs:73`) without the window that the reader keeps, as the file
does not change under it. -/
def readerValue (entries : List UInt64) (page count : Nat) : LtxResult UInt64 := do
  let first := (page - 1) / checksumBlock * checksumBlock
  let bytes ← readExactAt entries first (min (count - first) checksumBlock)
  (bytes[page - 1 - first]?).elim (.error .ltxCorrupted) .ok

namespace PageChecksums

variable (b : Backing)

/-- The entry of a page in the base. -/
def sealedIn (c : PageChecksums) (page : Nat) : LtxResult UInt64 :=
  match b with
  | .memory => (c.base[page - 1]?).elim (.error .ltxCorrupted) .ok
  | .file entries => readerValue entries page c.baseCount

/-- `PageChecksums::value` (`pages.rs:437`), with the file open. -/
def valueIn (c : PageChecksums) (page : Nat) : LtxResult UInt64 := do
  reject (page == 0 || decide (page > c.count)) .ltxCorrupted
  match c.changes page with
  | some checksum => pure checksum
  | none =>
    if page > c.baseCount then pure 0
    else do
      let checksum ← c.sealedIn b page
      checked checksum

/-- Takes one checksum out of the sum, and goes on to the next page. -/
def removeStored (c : PageChecksums) (s : Nat × UInt64) (stored : UInt64) :
    LtxResult (Nat × UInt64) := do
  let old ← checked ((c.changes s.1).getD stored)
  let next ← succ32 s.1
  pure (next, Checksum.flag ||| (s.2 ^^^ old))

/-- The loop over the chunks of the file up to `fileEnd`. -/
def removeChunks (c : PageChecksums) (entries : List UInt64) (fileEnd page : Nat) (sum : UInt64) :
    LtxResult UInt64 :=
  if page ≤ fileEnd then do
    let count := min (fileEnd - page + 1) checksumRead
    let bytes ← readExactAt entries (page - 1) count
    let s ← bytes.foldlM c.removeStored (page, sum)
    removeChunks c entries fileEnd (page + count) s.2
  else .ok sum
termination_by fileEnd + 1 - page
decreasing_by
  simp only [checksumRead]
  omega

/-- `PageChecksums::remove_file_suffix` (`pages.rs:400`): takes the pages from `commit + 1` on out
of the sum, first those in the file and then those added since. -/
def removeFileSuffix (c : PageChecksums) (entries : List UInt64) (commit previousCount : Nat) :
    LtxResult UInt64 := do
  let fileEnd := min previousCount c.baseCount
  let sum ← c.removeChunks entries fileEnd (commit + 1) c.checksum
  let page := max (commit + 1) (fileEnd + 1)
  let s ← (List.replicate (previousCount + 1 - page) 0).foldlM c.removeStored (page, sum)
  pure s.2

/-- The part of `begin_apply` that cuts off the pages beyond the new size. -/
def truncateIn (c : PageChecksums) (commit : Nat) : LtxResult PageChecksums :=
  match b with
  | .memory => c.truncate commit
  | .file entries =>
    if commit < c.count then do
      let checksum ← c.removeFileSuffix entries commit c.count
      pure { c with checksum, changes := upTo commit c.changes }
    else pure c

/-- `PageChecksums::begin_apply` (`pages.rs:158`). -/
def beginApplyIn (c : PageChecksums) (pageSize : UInt32) (commit limit : Nat) :
    LtxResult PageChecksumApply := do
  reject (!isValidPageSize pageSize || commit == 0) .ltxCorrupted
  reject (decide (pageSize.toNat * commit > limit)) (.limit .databaseBytes)
  let target ← c.truncateIn b commit
  pure ⟨target, pageSize, commit, c.count, 0, min (c.count + 1) u32Max⟩

end PageChecksums

namespace PageChecksumApply

variable (b : Backing)

/-- The checksum that a page had before. -/
def oldIn (a : PageChecksumApply) (pgno : Nat) : LtxResult UInt64 :=
  if pgno ≤ a.previousCount then a.target.valueIn b pgno else .ok 0

/-- `PageChecksumApply::page` (`pages.rs:468`). -/
def pageIn (P : Primitives) (a : PageChecksumApply) (pgno : UInt32) (data : Bytes) :
    LtxResult PageChecksumApply := do
  reject (decide (pgno.toNat ≤ a.previous) || decide (pgno.toNat > a.commit)
    || pgno.toNat == lockPgno a.pageSize || data.length != a.pageSize.toNat) .ltxCorrupted
  let next ← a.skipLock
  let next ← a.advance pgno.toNat next
  let old ← a.oldIn b pgno.toNat
  let checksum := P.checksumPage pgno data
  pure { a with
    target := { a.target with
      checksum := Checksum.flag ||| (a.target.checksum ^^^ old ^^^ checksum)
      changes := Function.update a.target.changes pgno.toNat (some checksum) }
    previous := pgno.toNat
    nextRequired := next }

end PageChecksumApply

namespace PageChecksums

/-- `PageChecksums::apply_iter` (`pages.rs:143`). -/
def applyIterIn (P : Primitives) (b : Backing) (c : PageChecksums) (pageSize : UInt32)
    (commit : Nat) (pages : List (UInt32 × Bytes)) (limit : Nat) : LtxResult PageChecksums := do
  let a ← c.beginApplyIn b pageSize commit limit
  let a ← pages.foldlM (fun a page => a.pageIn b P page.1 page.2) a
  a.finish

/-- An index over a file of checksums (`PageChecksums::from_file`, `pages.rs:106`). -/
def fromFile (entries : List UInt64) (pageSize : UInt32) (count : Nat) (checksum : UInt64) :
    LtxResult PageChecksums := do
  reject (!isValidPageSize pageSize || count == 0 || checksum &&& Checksum.flag == 0) .ltxCorrupted
  reject (entries.length != count) .ltxCorrupted
  pure { baseCount := count, count, checksum }

/-- The dense base in memory after a commit. -/
def mergeMemory (c : PageChecksums) : List UInt64 :=
  ((c.base.take c.baseCount).resize c.count 0).mapIdx fun i old => (c.changes (i + 1)).getD old

/-- What is gathered for the next write: where it goes, and the entries. -/
structure DenseWrite where
  entries : List UInt64
  start : Nat := 0
  output : List UInt64 := []

/-- Writes what is gathered. -/
def DenseWrite.flush (w : DenseWrite) : DenseWrite :=
  if w.output = [] then w
  else { w with entries := writeAllAt w.entries w.start w.output, output := [] }

/-- One changed checksum, in ascending order of the pages. -/
def DenseWrite.put (w : DenseWrite) (change : Nat × UInt64) : DenseWrite :=
  let offset := change.1 - 1
  let w := if offset ≠ w.start + w.output.length ∨ w.output.length = denseWrite then w.flush else w
  { w with
    start := if w.output = [] then offset else w.start
    output := w.output ++ [change.2] }

/-- The changed checksums of the pages there are, in ascending order. -/
def sortedChanges (c : PageChecksums) : List (Nat × UInt64) :=
  (List.range' 1 c.count).filterMap fun page => (c.changes page).map fun checksum =>
    (page, checksum)

/-- The file after a commit. -/
def mergeFile (c : PageChecksums) (entries : List UInt64) : List UInt64 :=
  let entries := if c.count > c.baseCount then entries.resize c.count 0 else entries
  let w := c.sortedChanges.foldl DenseWrite.put { entries }
  w.flush.entries.resize c.count 0

/-- `PageChecksums::commit` (`pages.rs:219`) seals the changes of a candidate in its base; the value
that adopts it is overwritten first. -/
def commitIn (b : Backing) (c : PageChecksums) : Backing × PageChecksums :=
  match b with
  | .memory =>
    (.memory, { c with base := c.mergeMemory, changes := fun _ => none, baseCount := c.count })
  | .file entries =>
    (.file (c.mergeFile entries), { c with changes := fun _ => none, baseCount := c.count })

/-- Writes the checksums of all pages, and compares their sum with the checksum of the database
(`PageChecksums::write_dense`, `pages.rs:354`). -/
def writeDense (b : Backing) (c : PageChecksums) : LtxResult (List UInt64) := do
  let output ← (List.range' 1 c.count).mapM fun page =>
    match b with
    | .memory => c.valueIn .memory page
    | .file entries =>
      if page ≤ c.baseCount then do
        -- the entry is consumed even when a change replaces it
        let stored ← (entries[page - 1]?).elim (.error .io) .ok
        checked ((c.changes page).getD stored)
      else c.valueIn b page
  reject (output.foldl (fun fold checksum => Checksum.flag ||| (fold ^^^ checksum)) Checksum.flag
    != c.checksum) .checksumMismatch
  pure output

end PageChecksums

/-! ## Values and their clones -/

/-- What is done with one index and its clones. -/
inductive ChecksumOp where
  | apply (value : Nat) (commit : Nat) (pages : List (UInt32 × Bytes)) (limit : Nat)
  | clone (value : Nat)
  | commit (value candidate : Nat)
  | drop (value : Nat)

/-- The values that are in use, with the backing they share. A value that was moved, dropped or
given up after a failed `apply` is gone. -/
structure ChecksumSession where
  backing : Backing
  values : List (Option PageChecksums)

namespace ChecksumSession

/-- The value at an index, if it is in use. -/
def value? (s : ChecksumSession) (i : Nat) : Option PageChecksums := s.values.slot? i

/-- One operation with its outcome, if the values it names are in use. A failed `apply` leaves its
value half changed, so its callers give it up. -/
def step (P : Primitives) (pageSize : UInt32) (s : ChecksumSession) :
    ChecksumOp → Option (LtxResult Unit × ChecksumSession)
  | .apply i commit pages limit => do
    let c ← s.value? i
    match c.applyIterIn P s.backing pageSize commit pages limit with
    | .ok c => pure (.ok (), { s with values := s.values.set i (some c) })
    | .error e => pure (.error e, { s with values := s.values.set i none })
  | .clone i => do
    let c ← s.value? i
    pure (.ok (), { s with values := s.values ++ [some c] })
  | .commit i j => do
    guard (i ≠ j)
    let _ ← s.value? i
    let candidate ← s.value? j
    let (backing, c) := candidate.commitIn s.backing
    pure (.ok (), ⟨backing, (s.values.set j none).set i (some c)⟩)
  | .drop i => do
    let _ ← s.value? i
    pure (.ok (), { s with values := s.values.set i none })

/-- A row of operations, with their outcomes. -/
def run (P : Primitives) (pageSize : UInt32) (s : ChecksumSession) :
    List ChecksumOp → Option (List (LtxResult Unit) × ChecksumSession)
  | [] => some ([], s)
  | op :: ops => do
    let (outcome, s) ← s.step P pageSize op
    let (outcomes, s) ← s.run P pageSize ops
    pure (outcome :: outcomes, s)

end ChecksumSession

end Cellule
