import Cellule.Lib.OrderedMap
import Cellule.Ltx.Materialize

/-!
# Coalescing a chain of segments

`MergeState` of `cellule-ltx/src/replica/coalesce.rs` merges a chain of small segments into one
before it is published. It keeps the newest contents of each page, cuts off what a segment cuts off,
and remembers the smallest size: when a page that was cut off has come back without being written,
the merged segment would show its old contents again, and the merge is declined.
-/

namespace Cellule

open Except

/-! ## The index of a segment -/

/-- `append_index_page` (`paged.rs:143`). -/
def appendIndexPage (index : Bytes) (page : EncodedPage) : LtxResult Bytes := do
  reject (page.frameHash.isZero || page.size == 0) .ltxCorrupted
  pure (index ++ (Bytes.be 4 page.page.toNat ++ (Bytes.be 8 page.offset ++ (Bytes.be 8 page.size
    ++ (page.frameHash.asBytes ++ Bytes.be 8 page.checksum.toNat)))))

/-- `encode_index_from_pages` (`paged.rs:127`). -/
def encodeIndexFromPages (pages : List EncodedPage) : LtxResult Bytes := do
  reject pages.isEmpty .ltxCorrupted
  pages.foldlM appendIndexPage []

/-! ## The merge -/

def singlePutBytes : Nat := 256 * 1024

/-- How a merge stops without a result: `Ok(None)`, or an error. -/
inductive Stop where
  | declined
  | failed (error : LtxError)
  deriving DecidableEq

/-- An error of an encoder that writes to bounded bytes, after `writer.overflow` was looked at: the
encoder itself does no I/O. -/
def Stop.ofEncoder : LtxError → Stop
  | .io => .declined
  | e => .failed e

/-- A segment ready for upload. Reference: `PreparedSegment` (`replica/mod.rs:993`),
with a frozen body. -/
structure PreparedSegment where
  descriptor : SegmentDescriptor
  index : Bytes
  body : Bytes

/-- `MergeState` (`replica/coalesce.rs:140`). -/
structure MergeState where
  first : Option Header := none
  last : Option Header := none
  checksum : UInt64 := 0
  minimumCommit : Option Nat := none
  pages : OrderedMap Nat Bytes := .empty

namespace MergeState

/-- The body of the page loop. -/
def mergePage (pageSize : UInt32) (pages : OrderedMap Nat Bytes)
    (page : PageHeader × Bytes) : Except Stop (OrderedMap Nat Bytes) := do
  reject ((pages.get? page.1.pgno.toNat).isNone
    && decide ((pages.entries.length + 1) * pageSize.toNat > singlePutBytes)) .declined
  pure (pages.insert page.1.pgno.toNat page.2)

/-- `MergeState::apply` (`replica/coalesce.rs:149`). -/
def apply (P : Primitives) (m : MergeState) (bytes : Bytes) (info : SegmentInfo)
    (index : Bytes) : Except Stop MergeState := do
  reject (bytes.length != info.sizeBytes || P.blake3 bytes != info.blake3)
    (.failed .checksumMismatch)
  let d ← (Decoder.decodeHeader { rest := bytes, replicaIndex := some [] }).mapError .failed
  let header := d.header
  reject header.noChecksum (.failed .ltxCorrupted)
  let pages := m.pages.retain (fun page => decide (page ≤ header.commit.toNat))
  let minimum := m.minimumCommit.elim header.commit.toNat (min header.commit.toNat)
  let (pages, d) ← d.foldPages P header.pageSize.toNat .failed (mergePage header.pageSize) pages
  let d ← (d.close P).mapError .failed
  let (length, digest) ← (d.artifact P).mapError .failed
  reject (SegmentInfo.fromInspected ⟨header, d.trailer⟩ length digest != info)
    (.failed .checksumMismatch)
  let entries ← d.intoReplicaIndex.mapError .failed
  let encoded ← (encodeIndexFromPages entries).mapError .failed
  reject (encoded != index) (.failed .checksumMismatch)
  pure {
    first := m.first.or (some header)
    last := some header
    checksum := UInt64.ofNat info.postChecksum
    minimumCommit := some minimum
    pages }

/-- The header of the merged segment. -/
def mergedHeader (first last : Header) : Header where
  version := ltxVersion
  pageSize := last.pageSize
  commit := last.commit
  minTxid := first.minTxid
  maxTxid := last.maxTxid
  timestamp := last.timestamp
  preApplyChecksum := first.preApplyChecksum

/-- The number of pages that the database has beyond its smallest size on the way, and the number of
those that are written. -/
def regrown (last : Header) (minimum : Nat) (pages : OrderedMap Nat Bytes) : Nat × Nat :=
  let lock := lockPgno last.pageSize
  (last.commit.toNat - minimum - if minimum < lock ∧ lock ≤ last.commit.toNat then 1 else 0,
    (pages.entries.filter fun page =>
      decide (minimum + 1 ≤ page.1) && decide (page.1 ≤ last.commit.toNat)).length)

/-- `Option::ok_or(LtxError::TxNotAvailable)`. -/
def available {α : Type} (x : Option α) : Except Stop α :=
  x.elim (.error (.failed .txNotAvailable)) .ok

/-- `MergeState::finish` (`replica/coalesce.rs:192`). -/
def finish (P : Primitives) (m : MergeState) (byteLimit : Nat) : Except Stop PreparedSegment := do
  let first ← available m.first
  let last ← available m.last
  let minimum ← available m.minimumCommit
  let (expected, count) := regrown last minimum m.pages
  reject (decide (minimum < last.commit.toNat) && count != expected) .declined
  let e := Encoder.newBlockWithIndex { bytes := [], limit := some byteLimit } none
  let e ← (e.encodeHeader (mergedHeader first last)).mapError .failed
  let (entries, e) ← (e.encodePages P (m.pages.entries.map fun page =>
    (⟨UInt32.ofNat page.1, 0⟩, page.2))).mapError .ofEncoder
  let e ← (e.close P m.checksum).mapError .ofEncoder
  let bytes := e.writer.bytes
  let info := SegmentInfo.fromInspected ⟨e.header, e.trailer⟩ bytes.length (P.blake3 bytes)
  let index ← (encodeIndexFromPages entries).mapError .failed
  pure {
    descriptor := .native info (P.blake3 index) index.length
    index
    body := bytes }

end MergeState

/-- A segment as the coalescer gets it: its bytes, what is said of it, and its index. -/
structure SegmentInput where
  bytes : Bytes
  info : SegmentInfo
  index : Bytes

/-- The loop of `run` and `recovered_bundle` over the chain (`run`, `replica/coalesce.rs:66`). -/
def MergeState.applyAll (P : Primitives) (m : MergeState) (segments : List SegmentInput) :
    Except Stop MergeState :=
  segments.foldlM (fun m segment => m.apply P segment.bytes segment.info segment.index) m

/-- The limit `finish` is called with. -/
def mergeLimit (limits : Limits) : Nat := min limits.maxFileBytes singlePutBytes

/-- The segments of a chain, one after another (`VerifiedPlan::with_host`, `recovery.rs:148`). -/
def MaterializationState.applyAll (P : Primitives) (s : MaterializationState)
    (segments : List SegmentInput) (limits : Limits) : LtxResult MaterializationState :=
  segments.foldlM (fun s segment => s.apply P segment.bytes segment.info limits) s

end Cellule
