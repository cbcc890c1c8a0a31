import Cellule.Identity
import Cellule.Lib.Except

/-!
# Positions, segments and node-log frames

The values of `cellule-ltx` that the runtime passes around: where a database stands, what one
immutable segment file changes, and a frame that carries a segment through the node log.
-/

namespace Cellule

open Except

/-- Admission bounds for capture and recovery (`Limits`, `cellule-ltx/src/types.rs:21`). -/
structure Limits where
  maxDatabaseBytes : Nat
  maxCaptureBytes : Nat
  maxFileBytes : Nat
  maxPlanBytes : Nat
  maxSegments : Nat
  deriving DecidableEq

/-- `Limits::validate` (`cellule-ltx/src/types.rs:47`), for a 64-bit `usize`. -/
def Limits.validate (l : Limits) : LtxResult Limits := do
  reject (decide (l.maxDatabaseBytes < 512) || decide (l.maxCaptureBytes < 128)
    || decide (l.maxFileBytes < 128) || l.maxSegments == 0
    || decide (l.maxCaptureBytes > l.maxFileBytes) || decide (l.maxFileBytes > l.maxPlanBytes)
    || decide (l.maxPlanBytes > u64Max / 8) || decide (l.maxDatabaseBytes > u64Max / 8))
    (.invalidState "invalid resource limits")
  pure l

/-- An exact database position (`Position`, `cellule-ltx/src/types.rs:12`). -/
structure Position where
  txid : Nat
  checksum : Nat
  deriving DecidableEq

/-- What one segment file says of itself (`SegmentInfo`, `cellule-ltx/src/types.rs:66`). -/
structure SegmentInfo where
  minTxid : Nat
  maxTxid : Nat
  pageSize : Nat
  databasePages : Nat
  preChecksum : Nat
  postChecksum : Nat
  sizeBytes : Nat
  blake3 : Digest
  deriving DecidableEq

/-- `SegmentInfo::position`. -/
def SegmentInfo.position (s : SegmentInfo) : Position := ⟨s.maxTxid, s.postChecksum⟩

/-- Where a root finds the body and the index of a segment (`SegmentDescriptor`,
`cellule-ltx/src/replica/root.rs:28`). -/
structure SegmentDescriptor where
  info : SegmentInfo
  indexDigest : Digest
  indexLength : Nat
  objectDigest : Digest
  offset : Nat
  length : Nat
  level : Nat
  packed : Bool
  shared : Bool
  deriving DecidableEq

/-- `SegmentDescriptor::native` (`cellule-ltx/src/replica/root.rs:41`). -/
def SegmentDescriptor.native (info : SegmentInfo) (indexDigest : Digest) (indexLength : Nat) :
    SegmentDescriptor where
  info
  indexDigest
  indexLength
  objectDigest := info.blake3
  offset := 0
  length := info.sizeBytes
  level := 0
  packed := false
  shared := false

/-- The segments follow one another from a position to a position: each starts with the transaction
and the checksum the one before ended with. -/
def Position.ChainsTo (p : Position) : List SegmentInfo → Position → Prop
  | [], q => p = q
  | s :: ss, q =>
    s.minTxid = p.txid + 1 ∧ s.preChecksum = p.checksum ∧ s.position.ChainsTo ss q

/-- A chain is extended at its end by a segment that follows it. -/
theorem Position.ChainsTo.snoc {p q : Position}
    (h : p.ChainsTo ss q) (htxid : s.minTxid = q.txid + 1) (hpre : s.preChecksum = q.checksum) :
    p.ChainsTo (ss ++ [s]) s.position := by
  induction ss generalizing p with
  | nil => exact ⟨h ▸ htxid, h ▸ hpre, rfl⟩
  | cons s' ss ih => exact ⟨h.1, h.2.1, ih h.2.2⟩

/-- Where a frame belongs (`NodeFrameScope`, `cellule-ltx/src/node_frame.rs:18`). -/
structure NodeFrameScope where
  leaderSession : SessionId
  logEpoch : Nat
  nodeSequence : Nat
  application : ApplicationId
  cell : CellId
  incarnation : IncarnationId
  cellEpoch : Nat
  commitSequence : Nat
  deriving DecidableEq

/-- A frame whose body was verified, with its bytes (`VerifiedNodeFrame`,
`cellule-ltx/src/node_frame.rs:43`). It is built by code that checked the command range
(`validate_range`, `node_frame.rs:253`). -/
@[ext]
structure VerifiedNodeFrame where
  scope : NodeFrameScope
  firstCommitSequence : Nat
  segment : SegmentInfo
  body : Bytes
  encoded : Bytes
  range : firstCommitSequence ≤ scope.commitSequence
  bound : scope.commitSequence ≤ i64Max
  deriving DecidableEq

/-- `VerifiedNodeFrame::digest`, for the hash function given. -/
def VerifiedNodeFrame.digest (hash : Hash) (f : VerifiedNodeFrame) : Digest :=
  hash f.encoded

/-- A published root with the Cell it belongs to (`RootRef`,
`cellule-ltx/src/replica/mod.rs:63`). -/
structure CellRootRef where
  cell : CellId
  incarnation : IncarnationId
  digest : Digest
  position : Position
  commitSequence : Nat
  deriving DecidableEq

end Cellule
