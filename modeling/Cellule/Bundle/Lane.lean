import Cellule.Bundle.Closure
import Cellule.NodeLog.Issuance

/-!
# A bundle lane

A lane is the bundles that were uploaded in it and the selected one. A reader of a bundle may
prepare a successor of its catalog, upload it, and select it as long as the selected head is still
the one it was prepared from (`select_catalog_with_coverage`, `node/bundle/store.rs:131`). A lane
starts without bindings (`initialize_bundle_lane`, `node/bundle/binding.rs:12`).
-/

namespace Cellule

open Except

/-- The surroundings of a lane: the codecs of frames and of control records, the digests of pins,
where bases are verified, and the published control records. -/
structure LaneEnv where
  primitives : Primitives
  encodes : Control → Result Unit
  pinOf : Control → ApplicationId → Nat → Digest
  scope : VerifyScope
  published : CellId → Control → Prop

/-- An uploaded bundle: the head it was prepared from, its own head, its catalog, its body, and the
captures that were staged for it. -/
structure Upload where
  original : Option NodeBundleHead
  head : NodeBundleHead
  catalog : Catalog
  body : Bytes
  assignments : List AssignedCommitRange
  deriving DecidableEq

/-- Locators without an object are in the bundle itself. -/
def Locator.resolve (digest : Digest) (l : Locator) : Locator :=
  { l with object := some (l.object.getD digest) }

/-- The binding as it is read from the bundle with a digest. -/
def Binding.resolve (digest : Digest) (b : Binding) : Binding :=
  { b with locators := b.locators.map (Locator.resolve digest) }

/-- The operations on a catalog. -/
inductive LaneAction where
  | reserve (application : ApplicationId) (control : Control)
  | openBinding (application : ApplicationId) (control : Control)
  | stage (frames : List VerifiedNodeFrame) (assignments : List AssignedCommitRange)
    (checkpoints : List Checkpoint)
  | checkpoint (checkpoints : List Checkpoint)
  | beginClose (pin : BundleBindingRef) (issued : CellIssuedRange)
  | finishClose (pin : BundleBindingRef) (issued : CellIssuedRange)

namespace LaneAction

/-- The captures that an operation writes. -/
def frames : LaneAction → List VerifiedNodeFrame
  | .stage frames _ _ => frames
  | _ => []

def assignments : LaneAction → List AssignedCommitRange
  | .stage _ assignments _ => assignments
  | _ => []

def checkpoints : LaneAction → List Checkpoint
  | .stage _ _ checkpoints => checkpoints
  | .checkpoint checkpoints => checkpoints
  | _ => []

/-- The terminal that an operation is asked to close a binding at. -/
def issued : LaneAction → Option CellIssuedRange
  | .beginClose _ issued => some issued
  | .finishClose _ issued => some issued
  | _ => none

/-- `stage_node_bundle_after` (`node/bundle/selection.rs:214`) on a catalog. -/
def performStage (E : LaneEnv) (c : Catalog) (frames : List VerifiedNodeFrame)
    (assignments : List AssignedCommitRange) (checkpoints : List Checkpoint) :
    Result Catalog := do
  reject (frames.isEmpty || decide (frames.length + checkpoints.length > maxBundleFrames))
    (.capacity "bundle frame count")
  c.checkpointCells checkpoints
  let changed ← c.applyCheckpoints E.scope checkpoints
  (changed.getD c).stageFrames E.primitives.blake3 assignments frames

/-- `checkpoint_bundle_cells` (`node/bundle/closure.rs:29`) on a catalog. -/
def performCheckpoint (E : LaneEnv) (c : Catalog) (checkpoints : List Checkpoint) :
    Result (Option Catalog) := do
  reject (checkpoints.isEmpty || decide (checkpoints.length > maxBundleFrames))
    (.capacity "bundle checkpoint count")
  c.checkpointCells checkpoints
  c.applyCheckpoints E.scope checkpoints

/-- The successor of a catalog, when it changes. -/
def perform (E : LaneEnv) (c : Catalog) : LaneAction → Result (Option Catalog)
  | .reserve application control => (c.reserve E.pinOf application control).map some
  | .openBinding application control => (c.openBinding application control).map some
  | .stage frames assignments checkpoints =>
    (performStage E c frames assignments checkpoints).map some
  | .checkpoint checkpoints => performCheckpoint E c checkpoints
  | .beginClose pin issued => (c.beginBundleClose pin issued).map some
  | .finishClose pin issued => (c.finishBundleClose pin issued).map some

end LaneAction

/-- `stage_catalog` (`node/bundle/store.rs:17`) with `encode` (`node/bundle/index/dense/mod.rs:10`):
the index before the frames, the histories after them and the digest are left open. -/
def Upload.encode (E : LaneEnv) (base : Upload) (c : Catalog) (frames : List VerifiedNodeFrame)
    (assignments : List AssignedCommitRange) (front back : Bytes) (digest : Digest) :
    Result Upload := do
  c.validate E.encodes
  let bindings ← assign E.primitives.blake3 c.bindings frames front.length
  let body := front ++ frames.flatMap (·.encoded) ++ back
  reject (decide (body.length > maxBundleBytes)) (.capacity "bundle bytes")
  return {
    original := some base.head
    head := ⟨c.epoch, digest, c.selectedThrough⟩
    catalog := { c with
      predecessor := some base.head.digest
      bindings := bindings.map (Binding.resolve digest) }
    body := body
    assignments := assignments }

/-- The proofs of selected coverage: a binding as some bundle has it, live with the captures of that
bundle, and such a proof up to one of its captures. -/
inductive Proven (uploads : List Upload) : BundleCoverageProof → Prop
  | selected {u : Upload} {p : BundleCoverageProof} (hu : u ∈ uploads)
      (hbinding : p.binding ∈ u.catalog.bindings)
      (hpin : p.binding.control.bundleBinding = some p.pin)
      (hlive : ∀ live, p.live = some live →
        live.assignments = u.assignments.filter (·.scope == p.binding.scope)) : Proven uploads p
  | narrowed {p p' : BundleCoverageProof} {a : AssignedCommitRange} (hp : Proven uploads p)
      (h : p.originalCapturePrefix a = .ok p') : Proven uploads p'

/-- The assignment is that of a capture. -/
structure AssignedCommitRange.IsOf (a : AssignedCommitRange) (c : Capture) : Prop where
  ticket : a.ticket = c.ticket
  scope : a.scope = c.scope
  firstCommit : a.firstCommit = c.first.firstCommitSequence
  commit : a.commit = c.first.scope.commitSequence

/-- What an operation may be asked for: its captures were built and assigned by the gate of the
lane, its terminal was issued by the gate, its proofs are of the lane, and an authority answers with
a control record that was published for the Cell. -/
structure LaneAction.Allowed (E : LaneEnv) (events : List IssuanceEvent) (uploads : List Upload)
    (action : LaneAction) : Prop where
  built : ∀ f ∈ action.frames, ∃ limits, E.primitives.Built limits f
  typed : ∀ f ∈ action.frames, f.scope.Typed ∧ f.segment.Typed
  assigned : ∀ a ∈ action.assignments, ∃ c, .assigned c ∈ events ∧ a.IsOf c
  issued : ∀ range, action.issued = some range → ∃ base, .closed range.scope base range ∈ events
  proven : ∀ checkpoint ∈ action.checkpoints, Proven uploads checkpoint.proof
  loads : ∀ checkpoint ∈ action.checkpoints, ∀ cell control,
    checkpoint.load cell = some control → E.published cell control ∧ control.cell = cell

/-- The bundles of a lane, and the selected one. -/
structure BundleLane where
  uploads : List Upload
  selected : Upload

namespace BundleLane

/-- A lane before its first binding. -/
def start (session : SessionId) (epoch : Nat) (head : NodeBundleHead) (body : Bytes) : BundleLane :=
  let upload : Upload := ⟨none, head, ⟨session, epoch, none, 0, []⟩, body, []⟩
  ⟨[upload], upload⟩

/-- A bundle is uploaded, or selected. An upload never replaces a bundle (`upload_node_bundle`,
`node/bundle/store.rs:83`), so that a digest names one bundle. -/
inductive Step (E : LaneEnv) (events : List IssuanceEvent) (lane : BundleLane) : BundleLane → Prop
  | upload {base u : Upload} {action : LaneAction} {c : Catalog} {front back : Bytes}
      {digest : Digest} (hbase : base ∈ lane.uploads)
        (hallowed : action.Allowed E events lane.uploads)
      (hperform : action.perform E base.catalog = .ok (some c))
      (hencode : Upload.encode E base c action.frames action.assignments front back digest = .ok u)
      (hnames : ∀ v ∈ lane.uploads, v.head.digest = u.head.digest → v = u) :
      Step E events lane { lane with uploads := u :: lane.uploads }
  | select {u : Upload} (hu : u ∈ lane.uploads) (hcas : u.original = some lane.selected.head) :
      Step E events lane { lane with selected := u }

/-- The runs of a lane. -/
abbrev Steps (E : LaneEnv) (events : List IssuanceEvent) : BundleLane → BundleLane → Prop :=
  Relation.ReflTransGen (Step E events)

end BundleLane

end Cellule
