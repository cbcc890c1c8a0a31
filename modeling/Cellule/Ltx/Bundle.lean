import Cellule.Ltx.Types
import Cellule.Lib.Bytes

/-!
# Bundles of segments

A bundle is one byte string: the bodies of its segments, a footer that lists them, the length of the
footer and a magic number (`cellule-ltx/src/bundle.rs`). `Bundle.encode` builds it in memory,
`BundleBuilder` in a scratch file, one segment at a time. What lies outside these functions is a
parameter (`BundleFormat`): the hash, the footer's JSON, and the decoder that `verify_segment` runs.
-/

namespace Cellule

open Except

/-- One immutable segment and the identity it is bundled under. -/
structure BundleEntry where
  repository : String
  epoch : String
  info : SegmentInfo
  bytes : Bytes
  deriving DecidableEq

/-- `encode_hex` (`hex.rs:4`). -/
def encodeHex (bytes : Bytes) : String :=
  let digit (n : Nat) : Char := ("0123456789abcdef".toList).getD n '0'
  String.ofList (bytes.flatMap fun b => [digit (b.toNat / 16), digit (b.toNat % 16)])

/-- `BundleEntry::for_cell`. -/
def BundleEntry.forCell (cell : CellId) (incarnation : IncarnationId) (info : SegmentInfo)
    (bytes : Bytes) : BundleEntry :=
  ⟨encodeHex cell.asBytes, encodeHex incarnation.asBytes, info, bytes⟩

/-- The extent of a segment in a bundle. -/
structure BundleRow where
  repository : String
  epoch : String
  info : SegmentInfo
  offset : Nat
  deriving DecidableEq

/-- A validated envelope. -/
structure Bundle where
  body : Bytes
  rows : List BundleRow
  digest : Digest
  length : Nat
  deriving DecidableEq

/-- What is not in `bundle.rs`: the hash, the JSON of the footer, which reads back what it prints,
and `verify_segment_reader` (`recovery.rs:219`). -/
structure BundleFormat where
  hash : Hash
  toVec : List BundleRow → Bytes
  fromSlice : Bytes → LtxResult (List BundleRow)
  fromSlice_toVec : ∀ rows, fromSlice (toVec rows) = .ok rows
  verifySegmentReader : Bytes → SegmentInfo → Limits → LtxResult Unit

/-- `valid_epoch` (`bundle.rs:641`). -/
def validEpoch (epoch : String) : Bool :=
  !epoch.isEmpty && decide (epoch.utf8ByteSize ≤ 128)
    && epoch.toList.all fun c => c.isAlphanum || c == '-' || c == '_'

/-- The refusal of a malformed identity. -/
def badIdentity (repository epoch : String) : Bool :=
  repository.isEmpty || decide (repository.utf8ByteSize > 4096) || !validEpoch epoch

/-- The key under which a segment may stand in a bundle once. -/
def BundleRow.identity (row : BundleRow) : String × String × Nat × Nat :=
  (row.repository, row.epoch, row.info.minTxid, row.info.maxTxid)

/-- The last bytes of a bundle. -/
def bundleMagic : Bytes := [67, 82, 66, 49]

/-- `validate_row_layout` over the remaining rows (`bundle.rs:600`). -/
def validateRows (payloadEnd : Nat) : List BundleRow → (seen : List (String × String × Nat × Nat)) →
    (last : Nat) → LtxResult Unit
  | [], _, last => reject (last != payloadEnd) .ltxCorrupted
  | row :: rows, seen, last => do
    reject (badIdentity row.repository row.epoch || row.offset != last
      || decide (row.identity ∈ seen)) .ltxCorrupted
    match checkedAdd last row.info.sizeBytes with
    | none => .error .ltxCorrupted
    | some last => do
      reject (decide (last > payloadEnd)) .ltxCorrupted
      validateRows payloadEnd rows (row.identity :: seen) last

/-- `validate_row_layout` (`bundle.rs:596`). -/
def validateRowLayout (rows : List BundleRow) (payloadEnd : Nat) (limits : Limits) :
    LtxResult Unit := do
  reject (rows.isEmpty || decide (rows.length > limits.maxSegments)) (.limit .bundleEntries)
  validateRows payloadEnd rows [] 0

namespace BundleFormat

variable (B : BundleFormat)

/-- `verify_segment` (`recovery.rs:206`). -/
def verifySegment (bytes : Bytes) (info : SegmentInfo) (limits : Limits) : LtxResult Unit := do
  reject (decide (bytes.length > limits.maxFileBytes)) (.limit .ltxBytes)
  reject (bytes.length != info.sizeBytes || B.hash bytes != info.blake3) .checksumMismatch
  B.verifySegmentReader bytes info limits

/-- The envelope around the bodies of the rows. -/
def envelope (payload : Bytes) (rows : List BundleRow) : Bytes :=
  payload ++ B.toVec rows ++ Bytes.le 4 (B.toVec rows).length ++ bundleMagic

/-- The bodies of the rows as far as they were added, one step of the loop of `Bundle::encode`. -/
def addEntry (limits : Limits) (acc : Bytes × List BundleRow) (entry : BundleEntry) :
    LtxResult (Bytes × List BundleRow) := do
  reject (badIdentity entry.repository entry.epoch) .ltxCorrupted
  B.verifySegment entry.bytes entry.info limits
  reject (decide (saturatingAdd acc.1.length entry.info.sizeBytes > limits.maxPlanBytes))
    (.limit .bundleBytes)
  pure (acc.1 ++ entry.bytes, acc.2 ++ [⟨entry.repository, entry.epoch, entry.info, acc.1.length⟩])

/-- `decode_footer` (`bundle.rs:522`): the rows, and where the footer starts. The number of rows is
checked again by `validate_row_layout`. -/
def decodeFooter (bytes : Bytes) (limits : Limits) : LtxResult (List BundleRow × Nat) := do
  reject (decide (bytes.length < 8)) .ltxCorrupted
  let trailer := bytes.length - 8
  reject ((bytes.drop (trailer + 4)) != bundleMagic) .ltxCorrupted
  let length := Bytes.ofLe ((bytes.drop trailer).take 4)
  reject (decide (trailer < length)) .ltxCorrupted
  let start := trailer - length
  let rows ← B.fromSlice ((bytes.drop start).take length)
  reject (rows.isEmpty || decide (rows.length > limits.maxSegments)) (.limit .bundleEntries)
  pure (rows, start)

/-- `memory_rows` (`bundle.rs:457`). -/
def memoryRows (bytes : Bytes) (limits : Limits) : LtxResult (List BundleRow) := do
  reject (decide (bytes.length > limits.maxPlanBytes)) (.limit .bundleBytes)
  let (rows, payloadEnd) ← B.decodeFooter bytes limits
  validateRowLayout rows payloadEnd limits
  pure rows

/-- `Bundle::from_validated_memory`. -/
def ofValidated (bytes : Bytes) (rows : List BundleRow) : Bundle :=
  ⟨bytes, rows, B.hash bytes, bytes.length⟩

/-- `Bundle::encode` (`bundle.rs:207`). -/
def encode (entries : List BundleEntry) (limits : Limits) : LtxResult Bundle := do
  let limits ← limits.validate
  reject (entries.isEmpty || decide (entries.length > limits.maxSegments)) (.limit .bundleEntries)
  let (payload, rows) ← entries.foldlM (B.addEntry limits) ([], [])
  reject (decide ((B.toVec rows).length > u32Max)) (.limit .bundleFooter)
  let bytes := B.envelope payload rows
  let decoded ← B.memoryRows bytes limits
  reject (decoded != rows) .ltxCorrupted
  pure (B.ofValidated bytes decoded)

/-- `decode_file_rows` (`bundle.rs:547`). The rows are counted by `validate_row_layout`, and every
body is verified again. -/
def decodeFileRows (bytes : Bytes) (limits : Limits) : LtxResult (List BundleRow × Nat) := do
  reject (decide (bytes.length > limits.maxPlanBytes)) (.limit .bundleBytes)
  reject (decide (bytes.length < 8)) .ltxCorrupted
  let trailer := bytes.length - 8
  reject ((bytes.drop (trailer + 4)) != bundleMagic) .ltxCorrupted
  let length := Bytes.ofLe ((bytes.drop trailer).take 4)
  reject (decide (trailer < length)) .ltxCorrupted
  let start := trailer - length
  let rows ← B.fromSlice ((bytes.drop start).take length)
  validateRowLayout rows start limits
  rows.forM fun row => B.verifySegment ((bytes.drop row.offset).take row.info.sizeBytes) row.info
    limits
  pure (rows, bytes.length)

/-- `Bundle::decode_temp_file` (`bundle.rs:304`). -/
def decodeTempFile (bytes : Bytes) (limits : Limits) : LtxResult Bundle := do
  let limits ← limits.validate
  let (rows, length) ← B.decodeFileRows bytes limits
  pure ⟨bytes, rows, B.hash bytes, length⟩

end BundleFormat

/-- The state of a file-backed builder: the bytes of its scratch file and the rows written. -/
structure BundleBuilder where
  file : Bytes
  rows : List BundleRow
  payloadLen : Nat
  limits : Limits
  deriving DecidableEq

namespace BundleBuilder

variable (B : BundleFormat)

/-- `BundleBuilder::new_temp` (`bundle.rs:118`). -/
def newTemp (limits : Limits) : LtxResult BundleBuilder := do
  let limits ← limits.validate
  pure ⟨[], [], 0, limits⟩

/-- `BundleBuilder::push` (`bundle.rs:134`). -/
def push (b : BundleBuilder) (entry : BundleEntry) : LtxResult BundleBuilder := do
  reject (decide (b.rows.length ≥ b.limits.maxSegments)
    || badIdentity entry.repository entry.epoch) (.limit .bundleEntries)
  B.verifySegment entry.bytes entry.info b.limits
  let row : BundleRow := ⟨entry.repository, entry.epoch, entry.info, b.payloadLen⟩
  reject (decide (row.identity ∈ b.rows.map (·.identity))) .ltxCorrupted
  match checkedAdd b.payloadLen entry.info.sizeBytes with
  | none => .error (.limit .bundleBytes)
  | some nextLen => do
    reject (decide (nextLen > b.limits.maxPlanBytes)) (.limit .bundleBytes)
    pure { b with file := b.file ++ entry.bytes, rows := b.rows ++ [row], payloadLen := nextLen }

/-- `BundleBuilder::finish` (`bundle.rs:181`). -/
def finish (b : BundleBuilder) : LtxResult Bundle := do
  reject b.rows.isEmpty (.invalidState "bundle builder has no valid rows")
  reject (decide ((B.toVec b.rows).length > u32Max)) (.limit .bundleFooter)
  match (checkedAdd b.payloadLen (B.toVec b.rows).length).bind (checkedAdd · 8) with
  | none => .error (.limit .bundleBytes)
  | some total => do
    reject (decide (total > b.limits.maxPlanBytes)) (.limit .bundleBytes)
    B.decodeTempFile (B.envelope b.file b.rows) b.limits

end BundleBuilder

end Cellule
