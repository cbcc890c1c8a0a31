import Cellule.Lib.Bytes
import Cellule.Lib.PrefixSet
import Cellule.Ltx.Types

/-!
# The durability gate of a node log

`DurabilityGate` (`node/log/mod.rs`) of one leader session and log epoch, as functions on its locked
state: it hands out consecutive sequence ranges as tickets, collects what object storage and the
followers cover, and returns a proof for a ticket once one of the two covers it. Every method runs
under one lock, so a run is a sequence of calls. The hash function is a parameter.
-/

namespace Cellule

open Except

/-- `MAX_TICKET_FRAMES`. -/
def maxTicketFrames : Nat := 1024

/-- The bound on per-Cell issuance and closure entries. -/
def maxLogCells : Nat := 4096

/-- The exact Cell writer of a frame. -/
structure CellLogScope where
  application : ApplicationId
  cell : CellId
  incarnation : IncarnationId
  cellEpoch : Nat
  deriving DecidableEq

/-- The complete issued endpoint of one Cell writer. -/
structure CellIssuedRange where
  leaderSession : SessionId
  logEpoch : Nat
  scope : CellLogScope
  lastNodeSequence : Nat
  commitSequence : Nat
  firstCommitSequence : Nat
  position : Position
  deriving DecidableEq

/-- One consecutive frame range awaiting a durability proof. -/
structure CommitTicket where
  leaderSession : SessionId
  logEpoch : Nat
  firstSequence : Nat
  lastSequence : Nat
  deriving DecidableEq

/-- The sequences of a ticket, in order. -/
def CommitTicket.sequences (t : CommitTicket) : List Nat :=
  List.range' t.firstSequence (t.lastSequence + 1 - t.firstSequence)

/-- One complete capture assigned by the gate. -/
structure AssignedCommitRange where
  gateInstance : Nat
  ticket : CommitTicket
  scope : CellLogScope
  firstCommit : Nat
  commit : Nat
  position : Position
  digest : Digest
  captureDigest : Digest
  deriving DecidableEq

/-- The durable path that authorised a release. -/
inductive DurabilitySource where
  | fleet
  | object
  | bundle
  deriving DecidableEq

/-- Proof that one complete path covers a ticket. -/
structure DurabilityProof where
  ticket : CommitTicket
  source : DurabilitySource
  deriving DecidableEq

/-- Proof that a gate stopped issuance after every ticket became object-covered. -/
structure NodeLogRotationBarrier where
  leaderSession : SessionId
  logEpoch : Nat
  members : Finset NodeId
  coveredThrough : Nat

/-- The locked state of the gate. `bundleCovered` is the ordered map of merged ranges, smallest key
first. -/
structure GateState where
  gateInstance : Nat
  leaderSession : SessionId
  leaderNode : NodeId
  logEpoch : Nat
  members : Finset NodeId
  followerThrough : NodeId → Option Nat
  objectCovered : Finset Nat
  bundleCovered : List (Nat × Nat)
  tieredThrough : Nat
  nextSequence : Nat
  fleetActive : Bool
  rotating : Bool
  fenced : Bool
  cellIssued : AList fun _ : CellLogScope => CellIssuedRange
  closedCells : Finset CellLogScope
  untrackedIssuance : Bool

namespace GateState

/-- The state of a new gate. -/
def fresh (gateInstance : Nat) (leaderSession : SessionId) (leaderNode : NodeId) (logEpoch : Nat)
    (members : List NodeId) : GateState where
  gateInstance := gateInstance
  leaderSession := leaderSession
  leaderNode := leaderNode
  logEpoch := logEpoch
  members := members.toFinset
  followerThrough := fun member => if member ∈ members then some 0 else none
  objectCovered := ∅
  bundleCovered := []
  tieredThrough := 0
  nextSequence := 1
  fleetActive := false
  rotating := false
  fenced := false
  cellIssued := ∅
  closedCells := ∅
  untrackedIssuance := false

/-- `DurabilityGate::new` (`mod.rs:364`). The process-wide instance number is given. -/
def new (gateInstance : Nat) (leaderSession : SessionId) (leaderNode : NodeId) (logEpoch : Nat)
    (members : List NodeId) : Result GateState := do
  reject (leaderSession.isZero || leaderNode.isZero || logEpoch == 0 || members.isEmpty
    || members.contains leaderNode || members.any (·.isZero)) (.node "invalid node-log ensemble")
  pure (fresh gateInstance leaderSession leaderNode logEpoch members)

variable (g : GateState)

/-- The refusal of a gate that was fenced or is rotating. -/
def refuseStopped : Result Unit := do
  reject g.fenced .fenced
  reject g.rotating (.node "node log is rotating")

/-- A checked addition with the error of its overflow. -/
def add (a b : Nat) (e : Error) : Result Nat :=
  match checkedAdd a b with
  | some c => .ok c
  | none => .error e

/-- `DurabilityGate::issue` (`mod.rs:424`). -/
def issue (frameCount : Nat) : Result (CommitTicket × GateState) := do
  reject (!(decide (1 ≤ frameCount) && decide (frameCount ≤ maxTicketFrames)))
    (.node "invalid node-log ticket size")
  g.refuseStopped
  let lastSequence ← add g.nextSequence (frameCount - 1) (.node "node sequence overflow")
  let nextSequence ← add lastSequence 1 (.node "node sequence overflow")
  pure (⟨g.leaderSession, g.logEpoch, g.nextSequence, lastSequence⟩,
    { g with nextSequence, untrackedIssuance := true })

/-- `validate_ticket` (`mod.rs:1061`). -/
def validateTicket (t : CommitTicket) : Result Unit :=
  reject (t.leaderSession != g.leaderSession || t.logEpoch != g.logEpoch || t.firstSequence == 0
    || decide (t.firstSequence > t.lastSequence) || decide (t.lastSequence ≥ g.nextSequence))
    (.node "node-log ticket is not owned by this gate")

/-! ## Committing verified frames -/

/-- The Cell writer of a frame. -/
def cellScope (scope : NodeFrameScope) : CellLogScope :=
  ⟨scope.application, scope.cell, scope.incarnation, scope.cellEpoch⟩

/-- The assignment after one more frame: one submission is one capture of one Cell. -/
def assign (ticket : CommitTicket) (frame : VerifiedNodeFrame) :
    Option AssignedCommitRange → Result AssignedCommitRange
  | none => .ok {
      gateInstance := g.gateInstance
      ticket
      scope := cellScope frame.scope
      firstCommit := frame.firstCommitSequence
      commit := frame.scope.commitSequence
      position := frame.segment.position
      digest := .fill 32 0
      captureDigest := .fill 32 0 }
  | some assignment => do
    reject (assignment.scope != cellScope frame.scope
      || assignment.firstCommit != frame.firstCommitSequence
      || assignment.commit != frame.scope.commitSequence)
      (.node "assigned capture changes Cell or command range")
    pure { assignment with position := frame.segment.position }

/-- The continuity of a frame with the one before it in the same submission. -/
def continues (previous : CellIssuedRange) (frame : VerifiedNodeFrame) : Result Unit := do
  let gap := Error.node "node-log Cell issuance has a gap"
  let continuingGroup := frame.scope.commitSequence == previous.commitSequence
  reject (continuingGroup && frame.firstCommitSequence != previous.firstCommitSequence) gap
  if continuingGroup then pure () else do
    let next ← add previous.commitSequence 1 (.node "Cell commit overflow")
    reject (frame.firstCommitSequence != next) gap
  let next ← add previous.position.txid 1 (.node "Cell TXID overflow")
  reject (frame.segment.minTxid != next || frame.segment.preChecksum != previous.position.checksum)
    gap

/-- The first frame of a submission goes beyond what its Cell was last issued. -/
def advances (frame : VerifiedNodeFrame) : Result Unit :=
  reject ((g.cellIssued.lookup (cellScope frame.scope)).any fun previous =>
    decide (frame.scope.commitSequence ≤ previous.commitSequence)
      || decide (frame.firstCommitSequence ≤ previous.commitSequence)
      || decide (frame.segment.maxTxid ≤ previous.position.txid))
    (.node "node-log Cell issuance did not advance")

/-- The loop of `commit_frames` over the remaining frames, the first of which is at `index`. -/
def checkFrames (g : GateState) (ticket : CommitTicket) :
    List VerifiedNodeFrame → (index : Nat) → Option CellIssuedRange → Option AssignedCommitRange →
    Result (Option CellIssuedRange × Option AssignedCommitRange)
  | [], _, issued, assignment => .ok (issued, assignment)
  | frame :: frames, index, issued, assignment => do
    let scope := frame.scope
    let assignment ← g.assign ticket frame assignment
    reject (decide (cellScope scope ∈ g.closedCells)) .fenced
    reject (scope.leaderSession != g.leaderSession || scope.logEpoch != g.logEpoch
      || scope.nodeSequence != ticket.firstSequence + index)
      (.node "node-log assigned frame scope differs")
    match issued with
    | some previous => continues previous frame
    | none => g.advances frame
    reject ((g.cellIssued.lookup (cellScope scope)).isNone
      && decide (g.cellIssued.entries.length ≥ maxLogCells))
      (.capacity "node-log Cell issuance bindings")
    let issued := {
      leaderSession := g.leaderSession
      logEpoch := g.logEpoch
      scope := cellScope scope
      lastNodeSequence := scope.nodeSequence
      commitSequence := scope.commitSequence
      firstCommitSequence := frame.firstCommitSequence
      position := frame.segment.position }
    checkFrames g ticket frames (index + 1) (some issued) (some assignment)

/-- `capture_digest` (`mod.rs:131`). -/
def captureDigest (hash : Hash) (segments : List SegmentInfo) : Digest :=
  hash ("cellule-assigned-capture-v1".toList.map (fun c => UInt8.ofNat c.toNat)
    ++ segments.flatMap fun s => Bytes.le 8 s.minTxid ++ Bytes.le 8 s.maxTxid
      ++ Bytes.le 4 s.pageSize ++ Bytes.le 4 s.databasePages ++ Bytes.le 8 s.preChecksum
      ++ Bytes.le 8 s.postChecksum ++ Bytes.le 8 s.sizeBytes ++ s.blake3.asBytes)

/-- `DurabilityGate::commit_frames` (`mod.rs:477`). -/
def commitFrames (hash : Hash) (g : GateState) (ticket : CommitTicket)
    (frames : List VerifiedNodeFrame) :
    Result (Option AssignedCommitRange × GateState) := do
  g.refuseStopped
  reject (ticket.leaderSession != g.leaderSession || ticket.logEpoch != g.logEpoch
    || ticket.firstSequence != g.nextSequence || ticket.firstSequence == 0
    || decide (ticket.firstSequence > ticket.lastSequence)
    || decide (ticket.lastSequence - ticket.firstSequence ≥ maxTicketFrames))
    (.node "node-log ticket reservation changed")
  reject (!frames.isEmpty
    && frames.length != ticket.lastSequence - ticket.firstSequence + 1)
    (.node "node-log assigned frame range differs")
  let (issued, assignment) ← g.checkFrames ticket frames 0 none none
  let nextSequence ← add ticket.lastSequence 1 (.node "node sequence overflow")
  let assignment := assignment.map fun a => { a with
    digest := hash (frames.flatMap fun frame => (frame.digest hash).asBytes)
    captureDigest := captureDigest hash (frames.map (·.segment)) }
  pure (assignment, { g with
    nextSequence
    cellIssued := match issued with
      | some issued => g.cellIssued.insert issued.scope issued
      | none => g.cellIssued })

/-- `DurabilityGate::close_cell_issuance` (`mod.rs:613`). -/
def closeCellIssuance (scope : CellLogScope) (base : CellRootRef) :
    Result (CellIssuedRange × GateState) := do
  reject (g.fenced || g.untrackedIssuance) .fenced
  reject (scope.cellEpoch == 0 || scope.cell.isZero || base.cell != scope.cell
    || base.incarnation != scope.incarnation) (.node "invalid Cell issuance closure")
  reject (!decide (scope ∈ g.closedCells) && decide (g.closedCells.card ≥ maxLogCells))
    (.capacity "node-log closed Cell bindings")
  let range := (g.cellIssued.lookup scope).getD {
    leaderSession := g.leaderSession
    logEpoch := g.logEpoch
    scope
    lastNodeSequence := 0
    firstCommitSequence := base.commitSequence
    commitSequence := base.commitSequence
    position := base.position }
  pure (range, { g with closedCells := insert scope g.closedCells })

/-! ## Coverage -/

/-- `DurabilityGate::stop_shipping` (`mod.rs:670`). -/
def stopShipping : GateState := { g with fleetActive := false, rotating := true }

/-- `DurabilityGate::activate_fleet` (`mod.rs:679`). -/
def activateFleet : Result GateState := do
  g.refuseStopped
  pure { g with fleetActive := true }

/-- `DurabilityGate::acknowledge` (`mod.rs:694`). -/
def acknowledge (member : NodeId) (durableThrough : Nat) : Result GateState := do
  g.refuseStopped
  match g.followerThrough member with
  | none => .error (.node "node-log ACK came from a non-member")
  | some current =>
    reject (decide (durableThrough < current) || decide (durableThrough ≥ g.nextSequence))
      (.node "node-log ACK watermark is invalid")
    pure { g with
      followerThrough := Function.update g.followerThrough member (some durableThrough) }

/-- The last range that starts at `first` or before, if it reaches up to it. -/
def touching (first : Nat) (ranges : List (Nat × Nat)) : Option (Nat × Nat) :=
  match (ranges.filter fun r => decide (r.1 ≤ first)).getLast? with
  | some r => if r.2 ≥ first - 1 then some r else none
  | none => none

/-- The second loop of `mark_bundle_coverage`, over the ranges from `first` on. -/
def absorb : (last : Nat) → List (Nat × Nat) → Nat × List (Nat × Nat)
  | last, [] => (last, [])
  | last, (after, through) :: ranges =>
    if after > saturatingAdd last 1 then (last, (after, through) :: ranges)
    else absorb (max last through) ranges

/-- `mark_bundle_coverage` (`mod.rs:1018`): adjacent ranges are merged. -/
def markBundleCoverage (ranges : List (Nat × Nat)) (t : CommitTicket) : List (Nat × Nat) :=
  let (first, last, ranges) : Nat × Nat × List (Nat × Nat) :=
    match touching t.firstSequence ranges with
    | some (before, through) =>
      (before, max t.lastSequence through, ranges.filter fun r => r.1 != before)
    | none => (t.firstSequence, t.lastSequence, ranges)
  let (last, beyond) := absorb last (ranges.filter fun r => decide (first ≤ r.1))
  (ranges.filter fun r => decide (r.1 < first)) ++ (first, last) :: beyond

/-- The first loop of `mark_object_coverage`. -/
def insertObjects (tickets : List CommitTicket) : Finset Nat :=
  tickets.foldl (fun covered t => t.sequences.foldl (fun covered sequence =>
    if sequence > g.tieredThrough then insert sequence covered else covered) covered)
    g.objectCovered

/-- `mark_object_coverage` (`mod.rs:1038`). -/
def markObjectCoverage (tickets : List CommitTicket) : GateState :=
  let covered := g.insertObjects tickets
  let (tieredThrough, objectCovered) :=
    PrefixSet.advance u64Max covered.card g.tieredThrough covered
  { g with tieredThrough, objectCovered }

/-- `DurabilityGate::prove_objects` (`mod.rs:778`). -/
def proveObjects (tickets : List CommitTicket) : Result (Nat × GateState) := do
  tickets.forM g.validateTicket
  reject g.fenced .fenced
  let g := g.markObjectCoverage tickets
  pure (g.tieredThrough, g)

/-- `DurabilityGate::confirm_bundle_ranges` (`mod.rs:795`). -/
def confirmBundleRanges (assignments : List AssignedCommitRange) : Result (Nat × GateState) := do
  reject g.fenced .fenced
  assignments.forM fun a => do
    g.validateTicket a.ticket
    reject (a.gateInstance != g.gateInstance)
      (.node "selected capture belongs to another durability gate")
  let tickets := assignments.map (·.ticket)
  let g := { g with bundleCovered := tickets.foldl markBundleCoverage g.bundleCovered }
  let g := g.markObjectCoverage tickets
  pure (g.tieredThrough, g)

/-- `object_covers` (`mod.rs:1054`). -/
def objectCovers (t : CommitTicket) : Bool :=
  decide (t.lastSequence ≤ g.tieredThrough)
    || t.sequences.all fun sequence =>
      decide (sequence ≤ g.tieredThrough) || decide (sequence ∈ g.objectCovered)

/-- `DurabilityGate::confirmed_object_proof` (`mod.rs:821`). -/
def confirmedObjectProof (t : CommitTicket) : Result DurabilityProof := do
  g.validateTicket t
  reject g.fenced .fenced
  reject (!g.objectCovers t) (.node "object ticket remains unconfirmed")
  pure ⟨t, .object⟩

/-- Whether one merged bundle range holds the whole ticket. -/
def bundleCovers (t : CommitTicket) : Bool :=
  (g.bundleCovered.filter fun r => decide (r.1 ≤ t.firstSequence)).getLast?.any
    fun r => decide (r.2 ≥ t.lastSequence)

/-- Whether every enrolled follower reached the end of the ticket. -/
def followersCover (t : CommitTicket) : Bool :=
  decide (∀ member ∈ g.members, (g.followerThrough member).any
    (fun through => decide (through ≥ t.lastSequence)) = true)

/-- `DurabilityGate::proof` (`mod.rs:920`). -/
def proof (t : CommitTicket) : Result (Option DurabilityProof) := do
  g.validateTicket t
  reject g.fenced .fenced
  if g.objectCovers t then
    pure (some ⟨t, if g.bundleCovers t then .bundle else .object⟩)
  else if g.fleetActive && g.followersCover t then
    pure (some ⟨t, .fleet⟩)
  else
    pure none

/-- `DurabilityGate::begin_rotation` (`mod.rs:875`). -/
def beginRotation : Result (NodeLogRotationBarrier × GateState) := do
  reject g.fenced .fenced
  reject (g.tieredThrough != g.nextSequence - 1) .pendingPublication
  pure (⟨g.leaderSession, g.logEpoch, g.members, g.tieredThrough⟩,
    { g with rotating := true, fleetActive := false })

/-- `DurabilityGate::fence` (`mod.rs:913`). -/
def fence : GateState := { g with fenced := true }

end GateState

end Cellule
