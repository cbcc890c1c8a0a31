import Cellule.Lib.Wire
import Cellule.Ltx.Materialize

/-!
# Node-log frames

The envelope of `cellule-ltx/src/node_frame.rs` around one verified LTX body. A frame of one command
has a header of version one, a frame of a range of them one of version two, eight bytes longer. All
numbers are little-endian.
-/

namespace Cellule

open Except

/-! ## Verifying a body -/

namespace Primitives

variable (P : Primitives)

/-- `verify_segment_reader` (`recovery.rs:219`). -/
def verifySegmentReader (bytes : Bytes) (info : SegmentInfo) (limits : Limits) :
    LtxResult Unit := do
  reject (decide (info.sizeBytes > limits.maxFileBytes)) (.limit .ltxBytes)
  -- one byte more than announced, so that trailing bytes are noticed
  let d ← Decoder.decodeHeader { rest := bytes.take (saturatingAdd info.sizeBytes 1) }
  validateHeader d.header limits
  let (_, d) ← d.decodePages P d.header.pageSize.toNat
  let d ← d.close P
  let (size, digest) ← d.artifact P
  reject (SegmentInfo.fromInspected ⟨d.header, d.trailer⟩ size digest != info) .checksumMismatch

/-- `verify_segment` (`recovery.rs:206`). -/
def verifySegment (bytes : Bytes) (info : SegmentInfo) (limits : Limits) : LtxResult Unit := do
  reject (decide (bytes.length > limits.maxFileBytes)) (.limit .ltxBytes)
  reject (bytes.length != info.sizeBytes || P.blake3 bytes != info.blake3) .checksumMismatch
  P.verifySegmentReader bytes info limits

/-- `validate_body` (`node_frame.rs:275`). -/
def validateBody (body : Bytes) (segment : SegmentInfo) (limits : Limits) : LtxResult Unit := do
  reject (decide (body.length > limits.maxCaptureBytes)) (.limit .nodeFrameBody)
  P.verifySegment body segment limits

/-- What is known of the length and the hash of a verified body. -/
theorem validateBody_ok {segment : SegmentInfo} (h : P.validateBody body segment limits = .ok u) :
    body.length ≤ limits.maxCaptureBytes ∧ body.length = segment.sizeBytes ∧
      P.blake3 body = segment.blake3 := by
  obtain ⟨hcapture, h⟩ := reject_bind_eq_ok.1 h
  obtain ⟨-, h⟩ := reject_bind_eq_ok.1 h
  obtain ⟨hsegment, -⟩ := reject_bind_eq_ok.1 h
  rw [Bool.or_eq_false_iff, bne_eq_false_iff_eq, bne_eq_false_iff_eq] at hsegment
  exact ⟨by simpa using hcapture, hsegment.1, hsegment.2⟩

end Primitives

/-! ## The fields of the header -/

/-- `"CNL1"`. -/
def frameMagic : Bytes := [67, 78, 76, 49]

def frameVersion : Nat := 1

def frameHeaderBytes : Nat := 240

def nodeSequenceOffset : Nat := 32

def rangeVersion : Nat := 2

def rangeHeaderBytes : Nat := 248

/-- `validate_range` (`node_frame.rs:253`). -/
def validRange (first last : Nat) : Prop := first ≠ 0 ∧ first ≤ last ∧ last ≤ i64Max

instance (first last : Nat) : Decidable (validRange first last) :=
  inferInstanceAs (Decidable (_ ∧ _ ∧ _))

/-- `validate_scope` (`node_frame.rs:260`). -/
def validateScope (scope : NodeFrameScope) : LtxResult Unit :=
  reject (scope.leaderSession.isZero || scope.application.isZero || scope.cell.isZero
    || scope.incarnation.isZero || scope.logEpoch == 0 || scope.nodeSequence == 0
    || scope.cellEpoch == 0 || scope.commitSequence == 0)
    (.invalidState "invalid node frame scope")

/-- `take_array` (`node_frame.rs:322`). -/
def takeArray (n : Nat) (bytes : Bytes) (cursor : Nat) : LtxResult (FixedId n × Nat) :=
  if h : cursor + n ≤ bytes.length then
    .ok (⟨(bytes.drop cursor).take n, by rw [List.length_take, List.length_drop]; omega⟩,
      cursor + n)
  else .error .ltxCorrupted

/-- A little-endian number of some width. -/
def takeLe (width : Nat) (bytes : Bytes) (cursor : Nat) : LtxResult (Nat × Nat) := do
  let (value, cursor) ← takeArray width bytes cursor
  pure (Bytes.ofLe value.asBytes, cursor)

def takeU16 : Bytes → Nat → LtxResult (Nat × Nat) := takeLe 2

def takeU32 : Bytes → Nat → LtxResult (Nat × Nat) := takeLe 4

def takeU64 : Bytes → Nat → LtxResult (Nat × Nat) := takeLe 8

/-- The part of the header that says where a frame belongs. -/
def pushScope (scope : NodeFrameScope) : Bytes :=
  scope.leaderSession.asBytes ++ (Bytes.le 8 scope.logEpoch ++ (Bytes.le 8 scope.nodeSequence
    ++ (scope.application.asBytes ++ (scope.cell.asBytes ++ (scope.incarnation.asBytes
    ++ (Bytes.le 8 scope.cellEpoch ++ Bytes.le 8 scope.commitSequence))))))

/-- Reads the part of the header that says where a frame belongs. -/
def takeScope (bytes : Bytes) (cursor : Nat) : LtxResult (NodeFrameScope × Nat) := do
  let (leaderSession, cursor) ← takeArray 16 bytes cursor
  let (logEpoch, cursor) ← takeU64 bytes cursor
  let (nodeSequence, cursor) ← takeU64 bytes cursor
  let (application, cursor) ← takeArray 16 bytes cursor
  let (cell, cursor) ← takeArray 32 bytes cursor
  let (incarnation, cursor) ← takeArray 16 bytes cursor
  let (cellEpoch, cursor) ← takeU64 bytes cursor
  let (commitSequence, cursor) ← takeU64 bytes cursor
  pure (⟨leaderSession, logEpoch, nodeSequence, application, cell, incarnation, cellEpoch,
    commitSequence⟩, cursor)

/-- `push_segment` (`node_frame.rs:286`). -/
def pushSegment (segment : SegmentInfo) : Bytes :=
  Bytes.le 8 segment.minTxid ++ (Bytes.le 8 segment.maxTxid ++ (Bytes.le 4 segment.pageSize
    ++ (Bytes.le 4 segment.databasePages ++ (Bytes.le 8 segment.preChecksum
    ++ (Bytes.le 8 segment.postChecksum ++ (Bytes.le 8 segment.sizeBytes
    ++ segment.blake3.asBytes))))))

/-- `take_segment` (`node_frame.rs:297`). -/
def takeSegment (bytes : Bytes) (cursor : Nat) : LtxResult (SegmentInfo × Nat) := do
  let (minTxid, cursor) ← takeU64 bytes cursor
  let (maxTxid, cursor) ← takeU64 bytes cursor
  let (pageSize, cursor) ← takeU32 bytes cursor
  let (databasePages, cursor) ← takeU32 bytes cursor
  let (preChecksum, cursor) ← takeU64 bytes cursor
  let (postChecksum, cursor) ← takeU64 bytes cursor
  let (sizeBytes, cursor) ← takeU64 bytes cursor
  let (blake3, cursor) ← takeArray 32 bytes cursor
  pure (⟨minTxid, maxTxid, pageSize, databasePages, preChecksum, postChecksum, sizeBytes, blake3⟩,
    cursor)

/-! ## Frames -/

/-- The header of a frame: version one for a single command, version two for a range. -/
def frameHeader (scope : NodeFrameScope) (first : Nat) (segment : SegmentInfo) (length : Nat) :
    Bytes :=
  let ranged := first != scope.commitSequence
  frameMagic
    ++ (Bytes.le 2 (if ranged then rangeVersion else frameVersion)
    ++ (Bytes.le 2 (if ranged then rangeHeaderBytes else frameHeaderBytes)
    ++ (pushScope scope ++ (pushSegment segment ++ (Bytes.le 8 length ++ (segment.blake3.asBytes
    ++ if ranged then Bytes.le 8 first else []))))))

/-- `encode_node_frame_range` (`node_frame.rs:141`). -/
def Primitives.encodeNodeFrameRange (P : Primitives) (scope : NodeFrameScope) (first : Nat)
    (segment : SegmentInfo) (body : Bytes) (limits : Limits) :
    LtxResult VerifiedNodeFrame := do
  validateScope scope
  if h : validRange first scope.commitSequence then
    P.validateBody body segment limits
    let headerBytes := if first != scope.commitSequence then rangeHeaderBytes else frameHeaderBytes
    reject (decide (headerBytes + body.length > u64Max)) (.limit .nodeFrameBytes)
    let encoded := frameHeader scope first segment body.length ++ body
    pure {
      scope
      firstCommitSequence := first
      segment
      body := encoded.drop headerBytes
      encoded
      range := h.2.1
      bound := h.2.2 }
  else .error (.invalidState "invalid node frame commit range")

/-- The first command of a frame: written out in version two, where it may not be the last. -/
def takeFirst (version commitSequence : Nat) (bytes : Bytes) (cursor : Nat) :
    LtxResult (Nat × Nat) :=
  if version = rangeVersion then do
    let (first, cursor) ← takeU64 bytes cursor
    reject (first == commitSequence) .ltxCorrupted
    pure (first, cursor)
  else pure (commitSequence, cursor)

/-- `inspect_node_frame` (`node_frame.rs:194`). -/
def Primitives.inspectNodeFrame (P : Primitives) (encoded : Bytes) (limits : Limits) :
    LtxResult VerifiedNodeFrame := do
  reject (decide (encoded.length < frameHeaderBytes) || encoded.take 4 != frameMagic) .ltxCorrupted
  let (version, cursor) ← takeU16 encoded 4
  let (headerBytes, cursor) ← takeU16 encoded cursor
  reject (!((version == frameVersion && headerBytes == frameHeaderBytes)
    || (version == rangeVersion && headerBytes == rangeHeaderBytes))) .ltxCorrupted
  let (scope, cursor) ← takeScope encoded cursor
  let (segment, cursor) ← takeSegment encoded cursor
  let (bodyLength, cursor) ← takeU64 encoded cursor
  let (bodyDigest, cursor) ← takeArray 32 encoded cursor
  let (first, cursor) ← takeFirst version scope.commitSequence encoded cursor
  if h : validRange first scope.commitSequence then
    reject (cursor != headerBytes || bodyLength != segment.sizeBytes
      || decide (bodyLength > limits.maxCaptureBytes) || decide (bodyLength > u64Max)
      || encoded.length != saturatingAdd headerBytes bodyLength) (.limit .nodeFrameBytes)
    validateScope scope
    let body := encoded.drop headerBytes
    reject (bodyDigest != segment.blake3 || bodyDigest != P.blake3 body) .checksumMismatch
    P.validateBody body segment limits
    pure {
      scope
      firstCommitSequence := first
      segment
      body
      encoded
      range := h.2.1
      bound := h.2.2 }
  else .error (.invalidState "invalid node frame commit range")

/-- `VerifiedNodeFrame::with_node_sequence` (`node_frame.rs:58`). -/
def VerifiedNodeFrame.withNodeSequence (f : VerifiedNodeFrame) (nodeSequence : Nat) :
    LtxResult VerifiedNodeFrame := do
  validateScope { f.scope with nodeSequence }
  let headerBytes := f.encoded.length - f.body.length
  let encoded := f.encoded.splice nodeSequenceOffset (Bytes.le 8 nodeSequence)
  pure { f with
    scope := { f.scope with nodeSequence }
    body := encoded.drop headerBytes
    encoded }

end Cellule
