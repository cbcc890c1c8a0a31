import Cellule.Bundle.Staging
import Cellule.Bundle.Verification

/-!
# The life of a binding

A binding is reserved for a Cell and opened when the Cell is pinned (`node/bundle/binding.rs`).
Stages put captures at its end; a checkpoint moves its base to a root published at the end of a
capture and releases the captures up to there; it is closed at the endpoint that its gate issued,
frozen before (`node/bundle/closure.rs`). Every successor of a catalog is validated and written as a
bundle. Which rows of a catalog are loaded is left to the index: here a catalog has all its rows.
-/

namespace Cellule

open Except

/-! ## Catalogs -/

/-- The writer of a binding. -/
def Binding.scope (b : Binding) : CellLogScope :=
  ⟨b.application, b.control.cell, b.control.incarnation, b.control.epoch⟩

/-- The endpoint of a binding. -/
def Binding.endpoint (b : Binding) : Nat × Nat × Position :=
  (b.selectedSequence, b.selectedCommit, b.selectedPosition)

/-- The coverage checks of `Catalog::validate` on a binding with its pin and its base. -/
def Catalog.badCoverage (c : Catalog) (b : Binding) (pin : BundleBindingRef) (base : CellRootRef) :
    Bool :=
  pin.session != c.session
    || pin.epoch != c.epoch
    || (b.firstCommit == 0 && (b.selectedCommit != 0 || b.selectedSequence != 0))
    || decide (b.firstCommit > b.selectedCommit)
    || decide (b.locators.length > maxLocators)
    || decide (b.selectedSequence > c.selectedThrough)
    || decide (b.selectedCommit < base.commitSequence)
    || decide (b.selectedPosition.txid < base.position.txid)
    || (b.selectedCommit == base.commitSequence) != b.locators.isEmpty
    || (b.locators.isEmpty && b.selectedPosition != base.position)
    || decide ((b.locators.map (·.bytes.toNat)).sum > maxSuffixBytes)
    || b.locators.any (fun l => l.bytes == 0
      || decide (l.bytes.toNat > maxBundleBytes)
      || decide (l.offset.toNat + l.bytes.toNat > maxBundleBytes))

/-- The closure checks of `Catalog::validate` on a binding. -/
def Binding.badClosure (b : Binding) : Bool :=
  match b.phase, b.terminal with
  | .provisional, none => !(b.locators.isEmpty && b.selectedSequence == 0)
  | .opened, none => false
  | .closing, some (sequence, commit, position) =>
    decide (sequence < b.selectedSequence) || decide (commit < b.selectedCommit)
      || decide (position.txid < b.selectedPosition.txid)
  | .closed, some terminal => terminal != b.endpoint
  | _, _ => true

/-- The loop of `Catalog::validate` over the bindings. The digest of a pin is compared as a number;
`encodes` is `Control::encode`. -/
def Catalog.validateBindings (encodes : Control → Result Unit) (c : Catalog) :
    Option Nat → List CellLogScope → List Binding → Result Unit
  | _, _, [] => .ok ()
  | previous, scopes, b :: rest => do
    encodes b.control
    let pin ← okOr b.control.bundleBinding (.node "bundle catalog lacks Cell pin")
    let base ← okOr b.control.ltxRoot (.node "bundle catalog lacks base")
    reject (c.badCoverage b pin base
      || scopes.contains b.scope
      || previous.any (fun digest => decide (digest ≥ Bytes.ofBe pin.digest.asBytes)))
      (.node "invalid bundle binding coverage")
    reject b.badClosure (.node "invalid bundle binding closure")
    c.validateBindings encodes (some (Bytes.ofBe pin.digest.asBytes)) (b.scope :: scopes) rest

/-- `Catalog::validate` (`node/bundle/mod.rs:355`). -/
def Catalog.validate (encodes : Control → Result Unit) (c : Catalog) : Result Unit := do
  reject (c.epoch == 0 || c.session.isZero || decide (c.bindings.length > maxBindings))
    (.node "invalid bundle catalog bounds")
  c.validateBindings encodes none [] c.bindings

/-- The binding with a pin is edited (`Catalog::binding_mut`, `node/bundle/mod.rs:430`). -/
def Catalog.bindingMut (c : Catalog) (digest : Digest) (f : Binding → Result Binding) :
    Result Catalog := do
  let bindings ← c.bindings.editFirst (fun b => b.control.bundleBinding.any (·.digest == digest)) f
    (.node "bundle binding missing")
  return { c with bindings := bindings }

/-! ## Enrollment -/

/-- The binding of a Cell that is not closed. -/
def Catalog.existing (c : Catalog) (application : ApplicationId) (value : Control) :
    Option Binding :=
  c.bindings.find? fun b => b.application == application && b.control.cell == value.cell
    && b.phase != .closed

/-- The checks of `bind_bundle_cell` (`node/bundle/binding.rs:42`) on the control record. -/
def Catalog.checkOwner (c : Catalog) (value : Control) : Result Unit :=
  reject (value.state != .serving || value.recovery.isSome
    || value.owner.all (fun owner => owner.session != c.session)) .fenced

/-- The first selection of `bind_bundle_cell`: a provisional binding. `pinOf` derives the digest of
a pin. -/
def Catalog.reserve (pinOf : Control → ApplicationId → Nat → Digest) (c : Catalog)
    (application : ApplicationId) (value : Control) : Result Catalog := do
  c.checkOwner value
  reject (c.existing application value).isSome .fenced
  reject value.bundleBinding.isSome .fenced
  let pin : BundleBindingRef := ⟨c.session, c.epoch, pinOf value application c.epoch⟩
  reject (c.bindings.any fun b => b.phase == .closed && b.control.bundleBinding == some pin) .fenced
  let revision ← okOr (checkedAdd value.revision 1) (.control "revision overflow")
  let progress ← okOr (checkedAdd value.progress 1) (.control "progress overflow")
  let next := { value with revision := revision, progress := progress, bundleBinding := some pin }
  let base ← okOr next.ltxRoot (.node "bundle binding lacks published base")
  let binding : Binding := ⟨application, base.commitSequence, next, .provisional, none, 0,
    base.commitSequence, base.position, []⟩
  let key := fun b : Binding =>
    Bytes.ofBe ((b.control.bundleBinding.map (·.digest.asBytes)).getD [])
  return { c with
    bindings := (c.bindings ++ [binding]).mergeSort fun a b => decide (key a ≤ key b) }

/-- The second selection of `bind_bundle_cell`, with the pinned control record. -/
def Catalog.openBinding (c : Catalog) (application : ApplicationId) (value : Control) :
    Result Catalog := do
  c.checkOwner value
  let binding ← okOr (c.existing application value) .fenced
  reject (binding.control.incarnation != value.incarnation
    || binding.control.epoch != value.epoch
    || binding.control.owner != value.owner
    || binding.control.code != value.code
    || binding.control.schema != value.schema
    || binding.control.root != value.root) .fenced
  reject (binding.phase != .provisional) .fenced
  let pin ← okOr binding.control.bundleBinding (.node "provisional binding lacks pin")
  reject (value.bundleBinding != some pin) .fenced
  c.bindingMut pin.digest fun b => .ok { b with control := value, phase := .opened }

/-! ## Checkpoints -/

/-- `materialized_prefix` (`node/bundle/closure.rs:162`): how many captures of a binding a root that
stands at the endpoint of a proof has. -/
def Binding.materializedPrefix (b : Binding) (proof : BundleCoverageProof) (root : CellRootRef) :
    Result Nat := do
  reject (b.control.bundleBinding != some proof.pin
    || b.application != proof.binding.application
    || b.control.cell != proof.binding.control.cell
    || b.control.incarnation != proof.binding.control.incarnation
    || b.control.epoch != proof.binding.control.epoch
    || b.control.code != proof.binding.control.code
    || b.control.schema != proof.binding.control.schema
    || root.cell != b.control.cell
    || root.incarnation != b.control.incarnation) .fenced
  reject (root.commitSequence != proof.commitSequence || root.position != proof.position)
    .pendingPublication
  let base ← okOr b.control.ltxRoot .pendingPublication
  if base.commitSequence = root.commitSequence ∧ base.position = root.position then
    return 0
  reject (decide (base.commitSequence ≥ root.commitSequence)
    || decide (base.position.txid ≥ root.position.txid)) .pendingPublication
  let first ← okOr b.locators.head? .pendingPublication
  let skip ← okOr (proof.binding.locators.findIdx? (· == first))
    (.node "materialized proof does not continue the catalog base")
  let locators := proof.binding.locators.drop skip
  reject (locators.isEmpty || b.locators.take locators.length != locators)
    (.node "materialized proof differs from selected catalog prefix")
  return locators.length

/-- A checkpoint that is asked for: the authority of a Cell, as the control records it loads, and a
proof. -/
structure Checkpoint where
  application : ApplicationId
  load : CellId → Option Control
  proof : BundleCoverageProof

/-- `CheckpointUpdate` (`node/bundle/closure.rs:283`). -/
structure CheckpointUpdate where
  binding : Nat
  control : Control
  count : Nat

/-- The checks of `observe_checkpoint` on the binding with the pin. The layouts of the authority and
of the lane are the same. -/
def Checkpoint.observeBinding (checkpoint : Checkpoint) (index : Nat) (b : Binding) :
    Result (Option CheckpointUpdate) := do
  reject (checkpoint.application != b.application) .fenced
  let control ← okOr (checkpoint.load b.control.cell) .fenced
  reject (control.bundleBinding != some checkpoint.proof.pin
    || control.epoch != b.control.epoch
    || control.incarnation != b.control.incarnation
    || control.code != b.control.code
    || control.schema != b.control.schema) .pendingPublication
  let root ← okOr control.ltxRoot .pendingPublication
  let count ← b.materializedPrefix checkpoint.proof root
  return if count = 0 ∧ some root = b.control.ltxRoot then none else some ⟨index, control, count⟩

/-- `observe_checkpoint` (`node/bundle/closure.rs:289`). -/
def Checkpoint.observe (checkpoint : Checkpoint) (bindings : List Binding) :
    Result (Option CheckpointUpdate) := do
  let (b, index) ← okOr
    (bindings.zipIdx.find? fun x => x.1.control.bundleBinding == some checkpoint.proof.pin)
    (.node "bundle binding missing")
  checkpoint.observeBinding index b

/-- The binding at its new base. -/
def Binding.checkpointed (b : Binding) (update : CheckpointUpdate) : Binding :=
  let locators := b.locators.drop update.count
  { b with
    control := update.control
    locators := locators
    firstCommit := if locators.isEmpty then b.selectedCommit else b.firstCommit }

/-- `apply_checkpoints` (`node/bundle/closure.rs:235`), up to the verification of the new bases. -/
def Catalog.checkpoint (c : Catalog) (checkpoints : List Checkpoint) :
    Result (Catalog × List Nat) := do
  let updates ← checkpoints.mapM fun checkpoint => checkpoint.observe c.bindings
  let updates := updates.filterMap id
  let bindings := updates.foldl (fun bindings update =>
    bindings.modify update.binding (·.checkpointed update)) c.bindings
  return ({ c with bindings := bindings }, updates.map (·.binding))

/-- `checkpoint_cells` (`node/bundle/closure.rs:211`). -/
def Catalog.checkpointCells (c : Catalog) (checkpoints : List Checkpoint) : Result Unit := do
  reject (decide (checkpoints.length > maxBundleFrames)) (.capacity "bundle checkpoint count")
  reject (checkpoints.any (fun checkpoint => checkpoint.proof.pin.session != c.session
      || checkpoint.proof.pin.epoch != c.epoch)
    || !decide (checkpoints.map (·.proof.pin.digest)).Nodup) .fenced

/-- `apply_checkpoints` (`node/bundle/closure.rs:235`): `none` when nothing changes. -/
def Catalog.applyCheckpoints (V : VerifyScope) (c : Catalog) (checkpoints : List Checkpoint) :
    Result (Option Catalog) := do
  let (next, changed) ← c.checkpoint checkpoints
  V.verifyBases (changed.filterMap fun index => next.bindings[index]?)
  return if changed.isEmpty then none else some next

/-! ## Closure -/

/-- The terminal that an issued range freezes. -/
def CellIssuedRange.terminal (issued : CellIssuedRange) : Nat × Nat × Position :=
  (issued.lastNodeSequence, issued.commitSequence, issued.position)

/-- The edit of `begin_bundle_close` (`node/bundle/closure.rs:58`). -/
def Binding.beginClose (pin : BundleBindingRef) (issued : CellIssuedRange) (b : Binding) :
    Result Binding := do
  reject (issued.leaderSession != pin.session
    || issued.logEpoch != pin.epoch
    || issued.scope != b.scope
    || b.phase == .closed
    || b.phase == .provisional) .fenced
  reject (b.terminal.any (· != issued.terminal)) .fenced
  return { b with phase := .closing, terminal := some issued.terminal }

/-- `begin_bundle_close`: the bundle is looked up in the session of the pin. -/
def Catalog.beginBundleClose (c : Catalog) (pin : BundleBindingRef) (issued : CellIssuedRange) :
    Result Catalog := do
  reject (pin.session != c.session) .storage
  reject (pin.epoch != c.epoch) .fenced
  c.bindingMut pin.digest (Binding.beginClose pin issued)

/-- The edit of `finish_bundle_close` (`node/bundle/closure.rs:106`). -/
def Binding.finishClose (epoch : Nat) (pin : BundleBindingRef) (issued : CellIssuedRange)
    (b : Binding) :
    Result Binding := do
  reject (pin.epoch != epoch
    || issued.leaderSession != pin.session
    || issued.logEpoch != pin.epoch
    || issued.scope != b.scope
    || b.terminal != some issued.terminal) .fenced
  reject (b.phase == .opened || b.terminal != some b.endpoint) .pendingPublication
  return { b with phase := .closed }

/-- `finish_bundle_close`. -/
def Catalog.finishBundleClose (c : Catalog) (pin : BundleBindingRef) (issued : CellIssuedRange) :
    Result Catalog := do
  reject (pin.session != c.session) .storage
  c.bindingMut pin.digest (Binding.finishClose c.epoch pin issued)

/-! ## Narrowed proofs -/

/-- The number of frames of an assigned capture. -/
def AssignedCommitRange.count (a : AssignedCommitRange) : Nat :=
  a.ticket.lastSequence - a.ticket.firstSequence + 1

/-- `original_capture_prefix` (`node/bundle/selection.rs:68`): the proof up to one of its own
captures. That the lease is live is checked by its owner. -/
def BundleCoverageProof.originalCapturePrefix (p : BundleCoverageProof) (a : AssignedCommitRange) :
    Result BundleCoverageProof := do
  let live ← okOr p.live (.node "cold bundle cannot release live capture")
  let index ← okOr (live.assignments.findIdx? (· == a))
    (.node "bundle lacks original assigned capture")
  let frames := (live.assignments.map (·.count)).sum
  let retained := ((live.assignments.take (index + 1)).map (·.count)).sum
  reject (decide (p.binding.locators.length < frames))
    (.node "bundle capture prefix omits assigned frames")
  let historical := p.binding.locators.length - frames
  return { p with
    binding := { p.binding with
      locators := p.binding.locators.take (historical + retained)
      firstCommit := a.firstCommit
      selectedCommit := a.commit
      selectedPosition := a.position
      selectedSequence := a.ticket.lastSequence }
    live := some { live with assignments := live.assignments.take (index + 1) } }

end Cellule
