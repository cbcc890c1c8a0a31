import Cellule.Bundle.Record
import Cellule.Lib.Edit

/-!
# Staging captures

A stage takes complete captures of one lane in their order and puts each frame at the end of the
binding of its Cell (`stage_node_bundle_after`, `node/bundle/selection.rs`). The locators it adds
have no object yet; where a frame lies is filled in when the bundle is encoded.
-/

namespace Cellule

open Except

/-- The loop of `AssignedCommitRange::verify` over the frames of a capture. -/
def AssignedCommitRange.covers (a : AssignedCommitRange) : Nat → List VerifiedNodeFrame → Bool
  | _, [] => true
  | offset, frame :: frames =>
    frame.scope.leaderSession == a.ticket.leaderSession
      && frame.scope.logEpoch == a.ticket.logEpoch
      && frame.scope.nodeSequence == a.ticket.firstSequence + offset
      && GateState.cellScope frame.scope == a.scope
      && frame.firstCommitSequence == a.firstCommit
      && frame.scope.commitSequence == a.commit
      && a.covers (offset + 1) frames

/-- `AssignedCommitRange::verify` (`node/log/mod.rs:97`). -/
def AssignedCommitRange.verify (hash : Hash) (a : AssignedCommitRange)
    (frames : List VerifiedNodeFrame) : Result Unit := do
  reject (frames.isEmpty || frames.length != a.ticket.lastSequence - a.ticket.firstSequence + 1)
    (.node "bundle omits part of an assigned capture")
  reject (!a.covers 0 frames) (.node "bundle assigned capture scope differs")
  reject (hash (frames.flatMap fun frame => (frame.digest hash).asBytes) != a.digest
    || frames.getLast?.all (fun frame => frame.segment.position != a.position))
    (.node "bundle assigned capture digest differs")

/-- The assignments take the frames up one after another, and none is left. -/
def verifyAssignments (hash : Hash) :
    List AssignedCommitRange → List VerifiedNodeFrame → Result Unit
  | [], frames => reject (!frames.isEmpty) (.node "bundle contains unassigned native frames")
  | a :: rest, frames => do
    let count := a.ticket.lastSequence - a.ticket.firstSequence + 1
    reject (decide (frames.length < count)) (.node "bundle omits assigned capture")
    a.verify hash (frames.take count)
    verifyAssignments hash rest (frames.drop count)

/-- The binding of the Cell writer that a frame belongs to. -/
def Binding.owns (b : Binding) (scope : NodeFrameScope) : Bool :=
  b.application == scope.application
    && b.control.cell == scope.cell
    && b.control.incarnation == scope.incarnation
    && b.control.epoch == scope.cellEpoch

/-- The binding with a frame at its end. -/
def Binding.append (hash : Hash) (b : Binding) (frame : VerifiedNodeFrame) : Result Binding := do
  reject (!(b.phase == .opened || b.phase == .closing)
    || decide (b.locators.length ≥ maxLocators)
    || b.terminal.any (fun (sequence, commit, position) =>
      decide (frame.scope.nodeSequence > sequence)
        || decide (frame.scope.commitSequence > commit)
        || decide (frame.segment.maxTxid > position.txid)))
    .pendingPublication
  let continuation := b.selectedCommit == frame.scope.commitSequence
  reject ((continuation && b.firstCommit != frame.firstCommitSequence)
    || (!continuation && checkedAdd b.selectedCommit 1 != some frame.firstCommitSequence)
    || checkedAdd b.selectedPosition.txid 1 != some frame.segment.minTxid
    || b.selectedPosition.checksum != frame.segment.preChecksum)
    (.node "bundle Cell transaction or command range has a gap")
  return { b with
    firstCommit := frame.firstCommitSequence
    selectedCommit := frame.scope.commitSequence
    selectedPosition := frame.segment.position
    selectedSequence := frame.scope.nodeSequence
    locators := b.locators ++ [⟨none, 0, UInt64.ofNat frame.encoded.length, frame.digest hash⟩] }

/-- The binding of the writer gets the frame. -/
def appendFrame (hash : Hash) (frame : VerifiedNodeFrame) (bindings : List Binding) :
    Result (List Binding) :=
  bindings.editFirst (·.owns frame.scope) (·.append hash frame)
    (.node "bundle row has no enrolled Cell binding")

/-- One round of the loop of `stage_node_bundle_after` (`node/bundle/selection.rs:214`). -/
def Catalog.stageFrame (hash : Hash) (catalog : Catalog) (frame : VerifiedNodeFrame) :
    Result Catalog := do
  reject (frame.scope.leaderSession != catalog.session
    || frame.scope.logEpoch != catalog.epoch
    || checkedAdd catalog.selectedThrough 1 != some frame.scope.nodeSequence)
    (.node "bundle native range is not contiguous in its lane")
  let bindings ← appendFrame hash frame catalog.bindings
  return { catalog with bindings := bindings, selectedThrough := frame.scope.nodeSequence }

/-- The part of `stage_node_bundle_after` (`node/bundle/selection.rs:214`) that assigns the
frames. -/
def Catalog.stageFrames (hash : Hash) (catalog : Catalog)
    (assignments : List AssignedCommitRange) (frames : List VerifiedNodeFrame) :
    Result Catalog := do
  verifyAssignments hash assignments frames
  frames.foldlM (Catalog.stageFrame hash) catalog

/-! ## Encoding -/

/-- The digest, the offset and the length of each frame, when the first one starts at `offset`. -/
def frameExtents (hash : Hash) :
    Nat → List VerifiedNodeFrame → List (Digest × Nat × Nat)
  | _, [] => []
  | offset, frame :: frames =>
    (frame.digest hash, offset, frame.encoded.length)
      :: frameExtents hash (offset + frame.encoded.length) frames

/-- Fills in the extent of a locator whose frame is being written. -/
def Locator.place (extents : List (Digest × Nat × Nat)) (l : Locator) : Locator :=
  match l.object, extents.find? (fun extent => extent.1 == l.frameDigest) with
  | none, some (_, offset, bytes) =>
    { l with offset := UInt64.ofNat offset, bytes := UInt64.ofNat bytes }
  | _, _ => l

/-- The binding has captures that are being written. -/
def Binding.pending (b : Binding) : Bool := b.locators.any (·.object.isNone)

/-- `native::assign` (`node/bundle/index/dense/native.rs:4`). That the shard of the binding changed
is not checked: the frame is what changed it. -/
def assign (hash : Hash) (bindings : List Binding) (frames : List VerifiedNodeFrame)
    (offset : Nat) : Result (List Binding) := do
  reject (decide (frames.length > maxBundleFrames)) (.capacity "bundle frame count")
  reject (!decide (frames.map (·.digest hash)).Nodup) (.node "bundle frame locator is not unique")
  let unresolved := (bindings.flatMap (·.locators)).filter (·.object.isNone)
  reject (frames.any fun frame => unresolved.countP (·.frameDigest == frame.digest hash) != 1)
    (.node "bundle frame locator is not unique")
  return bindings.map fun b =>
    { b with locators := b.locators.map (Locator.place (frameExtents hash offset frames)) }

end Cellule
