import Cellule.Bundle.Record
import Cellule.Ltx.NodeFrame

/-!
# Verification of bindings

A selection reads the frames that the locators of a binding point at, checks each against its
locator and its Cell, and follows them from the base to the endpoint (`node/bundle/proof.rs`). There
are three verifiers: of one binding (`verifyBinding`), of what a binding has more than an earlier
live proof (`verifyExtension`, `node/bundle/extension.rs`), and of many bindings, whose extents are
read together where they lie close (`verifyCohort`, `node/bundle/verification/mod.rs`).

Objects never change, so the store is one function. The overlap of reads is left out: a verifier
that fails fails with any order of them.
-/

namespace Cellule

open Except

/-- `SCRATCH_BYTES` (`verification/mod.rs:13`). -/
def scratchBytes : Nat := maxBundleBytes / 2

/-- `READ_CONCURRENCY`. -/
def readConcurrency : Nat := 8

/-- `WORKING_BYTES` (`cellule-ltx/src/replica/origin/mod.rs:5`). -/
def workingBytes : Nat := 512 * 1024

/-! ## Origins -/

/-- The bundles of each lane. -/
abbrev LaneStore := SessionId → Nat → Digest → Option Bytes

/-- `Store::range_get` (`cellule-store/src/store.rs:1414`): a range must start inside the object,
and is cut off at its end. -/
def LaneStore.rangeGet (store : LaneStore) (session : SessionId) (epoch : Nat) (object : Digest)
    (start stop : Nat) : Result Bytes :=
  match store session epoch object with
  | none => .error .storage
  | some body =>
    if stop ≤ start ∨ body.length ≤ start then .error .storage
    else .ok ((body.drop start).take (stop - start))

/-- `OriginBundle` (`origin.rs:53`): a bundle that was read for this operation. -/
structure OriginBundle where
  session : SessionId
  head : NodeBundleHead
  body : Bytes
  deriving DecidableEq

/-- `slice` (`origin.rs:159`). -/
def sliceBody (body : Bytes) (start stop : Nat) : Result Bytes := do
  reject (decide (start > stop) || decide (stop > body.length)) (.node "bundle extent is truncated")
  return (body.drop start).take (stop - start)

/-- `OriginBundle::range` (`origin.rs:121`). -/
def OriginBundle.range (o : OriginBundle) (session : SessionId) (epoch : Nat) (object : Digest)
    (start stop : Nat) : Result (Option Bytes) :=
  if session ≠ o.session ∨ epoch ≠ o.head.epoch ∨ object ≠ o.head.digest then .ok none
  else do
    let bytes ← sliceBody o.body start stop
    return some bytes

/-- `read_range` (`origin.rs:135`). -/
def readRange (store : LaneStore) (session : SessionId) (epoch : Nat) (object : Digest)
    (start stop : Nat) (origin : Option OriginBundle) : Result Bytes :=
  match origin with
  | none => store.rangeGet session epoch object start stop
  | some o =>
    match o.range session epoch object start stop with
    | .error e => .error e
    | .ok (some bytes) => .ok bytes
    | .ok none => store.rangeGet session epoch object start stop

/-- A proposal that was uploaded (`StagedNodeBundle`, `mod.rs:174`). -/
structure Proposal where
  original : Option NodeBundleHead
  catalog : Catalog
  body : Bytes
  head : NodeBundleHead
  assignments : List AssignedCommitRange

/-- The process that selects. `node` is its node when its log is enrolled. -/
structure Process where
  node : Option NodeId
  lease : Nat
  leaseLive : Bool
  originIdentity : Nat
  originPath : List Char

/-- What the verification of a base reads below a root: the root document, whether it has a small
packed leaf graph, and everything it reaches. -/
structure BaseGraph where
  Document : Type
  readRoot : CellRootRef → Result Document
  eligible : Document → Bool
  inventory : CellRootRef → Document → Result Unit

/-- Where and with what a selection verifies: one lane, its store, and the codecs of frames and of
bundles (`bodyDigest` is `index::body_digest`). -/
structure VerifyScope where
  session : SessionId
  epoch : Nat
  store : LaneStore
  graph : BaseGraph
  primitives : Primitives
  bodyDigest : Bytes → Result Digest
  limits : Limits

namespace VerifyScope

variable (V : VerifyScope)

/-- The base of a binding, where it is verified. -/
def baseOf (binding : Binding) : Result CellRootRef :=
  okOr binding.control.ltxRoot (.node "bundle base absent")

/-- `verify_base` (`proof.rs:324`). -/
def verifyBase (binding : Binding) : Result Unit := do
  let base ← baseOf binding
  let document ← V.graph.readRoot base
  V.graph.inventory base document

/-- `checked_frame` (`proof.rs:297`). -/
def checkedFrame (binding : Binding) (locator : Locator) (bytes : Bytes) :
    Result VerifiedNodeFrame := do
  reject (bytes.length != locator.bytes.toNat || V.primitives.blake3 bytes != locator.frameDigest)
    (.node "bundle frame digest differs")
  let frame ← (V.primitives.inspectNodeFrame bytes V.limits).mapError .ltx
  reject (frame.scope.leaderSession != V.session
    || frame.scope.logEpoch != V.epoch
    || frame.scope.application != binding.application
    || frame.scope.cell != binding.control.cell
    || frame.scope.incarnation != binding.control.incarnation
    || frame.scope.cellEpoch != binding.control.epoch)
    (.node "bundle locator violates exact Cell range")
  return frame

/-- The object of a locator, and where its extent ends. -/
def extent (locator : Locator) : Result (Digest × Nat) :=
  match locator.object, checkedAdd locator.offset.toNat locator.bytes.toNat with
  | none, _ => .error (.node "bundle locator is unresolved")
  | some _, none => .error (.node "bundle locator overflow")
  | some object, some stop => .ok (object, stop)

/-- `read_frame` (`proof.rs:194`). -/
def readFrame (origin : Option OriginBundle) (binding : Binding) (locator : Locator) :
    Result VerifiedNodeFrame := do
  let (object, stop) ← extent locator
  let bytes ← readRange V.store V.session V.epoch object locator.offset.toNat stop origin
  V.checkedFrame binding locator bytes

end VerifyScope

/-! ## The chain of a binding -/

/-- `FrameStep` (`proof.rs:218`). -/
structure FrameStep where
  sequence : Nat
  firstCommit : Nat
  commit : Nat
  minTxid : Nat
  preChecksum : Nat
  position : Position
  deriving DecidableEq

/-- `FrameStep::from_frame`. -/
def FrameStep.fromFrame (frame : VerifiedNodeFrame) : FrameStep where
  sequence := frame.scope.nodeSequence
  firstCommit := frame.firstCommitSequence
  commit := frame.scope.commitSequence
  minTxid := frame.segment.minTxid
  preChecksum := frame.segment.preChecksum
  position := frame.segment.position

/-- `BindingChain` (`proof.rs:240`). -/
structure BindingChain where
  position : Position
  commit : Nat
  sequence : Nat
  firstCommit : Nat
  deriving DecidableEq

namespace BindingChain

/-- `BindingChain::selected`. -/
def selected (binding : Binding) : BindingChain :=
  ⟨binding.selectedPosition, binding.selectedCommit, binding.selectedSequence, binding.firstCommit⟩

/-- `BindingChain::new`. -/
def new (binding : Binding) : Result BindingChain := do
  let base ← VerifyScope.baseOf binding
  return ⟨base.position, base.commitSequence, 0, base.commitSequence⟩

/-- `BindingChain::accept` (`proof.rs:270`). -/
def accept (chain : BindingChain) (step : FrameStep) : Result BindingChain := do
  reject (decide (step.sequence ≤ chain.sequence)
    || (step.commit == chain.commit && step.firstCommit != chain.firstCommit)
    || (step.commit != chain.commit && checkedAdd chain.commit 1 != some step.firstCommit)
    || checkedAdd chain.position.txid 1 != some step.minTxid
    || chain.position.checksum != step.preChecksum)
    (.node "bundle locator violates exact Cell range")
  return ⟨step.position, step.commit, step.sequence, step.firstCommit⟩

/-- `BindingChain::finish` (`proof.rs:286`). -/
def finish (chain : BindingChain) (binding : Binding) : Result Unit :=
  reject (chain.position != binding.selectedPosition
    || chain.commit != binding.selectedCommit
    || (!binding.locators.isEmpty && chain.sequence != binding.selectedSequence))
    (.node "bundle proof endpoint differs")

end BindingChain

namespace VerifyScope

variable (V : VerifyScope)

/-- Reads the frames of locators and follows them. -/
def followFrames (origin : Option OriginBundle) (binding : Binding) :
    BindingChain → List Locator → Result BindingChain
  | chain, [] => .ok chain
  | chain, locator :: locators => do
    let frame ← V.readFrame origin binding locator
    let chain ← chain.accept (.fromFrame frame)
    followFrames origin binding chain locators

/-- `verify_binding_into` (`proof.rs:143`). The frames it collects are left out. -/
def verifyBinding (origin : Option OriginBundle) (binding : Binding) : Result Unit := do
  V.verifyBase binding
  let start ← BindingChain.new binding
  let chain ← V.followFrames origin binding start binding.locators
  chain.finish binding

/-! ## Extensions -/

/-- `LiveBundleCoverage::matches_origin` (`selection.rs:18`). A lease is its identity, and
`leaseLive` says whether it is live now. -/
def matchesOrigin (live : LiveBundleCoverage) (originIdentity : Nat) (originPath : List Char)
    (lease : Nat) (leaseLive : Bool) : Bool :=
  live.lease == lease && leaseLive && live.limits == V.limits
    && live.originIdentity == originIdentity
    && live.originPath == originPath

variable (prepared : Proposal)

/-- Whether a binding extends an earlier live proof. -/
def extendsProof (process : Process) (binding : Binding) (previous : BundleCoverageProof) : Bool :=
  previous.session == V.session
    && previous.head.epoch == V.epoch
    && previous.binding.control == binding.control
    && previous.binding.application == binding.application
    && previous.binding.phase == binding.phase
    && previous.binding.terminal == binding.terminal
    && decide (previous.binding.locators.length < binding.locators.length)
    && previous.binding.locators.isPrefixOf binding.locators
    && prepared.original.any (fun head =>
      decide (previous.head.selectedThrough ≤ head.selectedThrough))
    && previous.live.any (fun live => V.matchesOrigin live process.originIdentity process.originPath
      process.lease process.leaseLive)

/-- Reads the frames of new locators from the fresh origin and follows them. -/
def followFresh (origin : OriginBundle) (prepared : Proposal) (binding : Binding) :
    BindingChain → List Locator → Result BindingChain
  | chain, [] => .ok chain
  | chain, locator :: locators => do
    let stop ← okOr (checkedAdd locator.offset.toNat locator.bytes.toNat)
      (.node "bundle extent overflow")
    let found ← origin.range V.session V.epoch prepared.head.digest locator.offset.toNat stop
    let bytes ← okOr found (.node "bundle extension lacks fresh origin")
    let frame ← V.checkedFrame binding locator bytes
    let chain ← chain.accept (.fromFrame frame)
    followFresh origin prepared binding chain locators

/-- `extension::verify` (`extension.rs:4`), in the lane of the proposal. -/
def verifyExtension (process : Process) (binding : Binding)
    (prefixes : List BundleCoverageProof) (origin : OriginBundle) : Result Bool :=
  match prefixes.find? (V.extendsProof prepared process binding) with
  | none => .ok false
  | some previous => do
    let more := binding.locators.drop previous.binding.locators.length
    if more.any (fun locator => locator.object != some prepared.head.digest) then
      return false
    let chain ← V.followFresh origin prepared binding (.selected previous.binding) more
    chain.finish binding
    return true

/-! ## Cohorts -/

/-- `prepare_base_origin` (`proof.rs:338`): the document of a small base. -/
def prepareBase (binding : Binding) : Result (Option (CellRootRef × V.graph.Document)) := do
  let base ← baseOf binding
  let document ← V.graph.readRoot base
  return if V.graph.eligible document then some (base, document) else none

/-- One round of `verification::base::verify` (`verification/base.rs:4`). -/
def verifyBaseChunk (chunk : List Binding) : Result Unit := do
  let plans ← chunk.mapM fun binding => do
    let plan ← V.prepareBase binding
    return (binding, plan)
  reject (decide ((plans.filterMap (·.2)).length * workingBytes > maxBundleBytes))
    (.capacity "bundle base verification bytes")
  (plans.filterMap (·.2)).forM fun (base, document) => V.graph.inventory base document
  (plans.filter (·.2.isNone)).forM fun (binding, _) => V.verifyBase binding

/-- The bindings in rounds of `READ_CONCURRENCY`, for a list of at most `fuel` of them. -/
def baseChunks : Nat → List Binding → List (List Binding)
  | 0, _ => []
  | _, [] => []
  | fuel + 1, bindings =>
    bindings.take readConcurrency :: baseChunks fuel (bindings.drop readConcurrency)

/-- `verification::base::verify` (`verification/base.rs:4`). -/
def verifyBases (bindings : List Binding) : Result Unit :=
  (baseChunks bindings.length bindings).forM V.verifyBaseChunk

/-- A locator of a binding of the cohort. Reference: `ReadIndex`
(`verification/mod.rs:18`), with what its indices stand for. -/
structure CohortRead where
  index : Nat × Nat
  binding : Binding
  locator : Locator
  deriving DecidableEq

/-- `Window` (`verification/mod.rs:23`). -/
structure Window where
  object : Digest
  start : Nat
  stop : Nat
  usefulBytes : Nat
  reads : List CohortRead

/-- The reads of a cohort, by binding and by locator. -/
def cohortReads (bindings : List Binding) : List CohortRead :=
  bindings.zipIdx.flatMap fun (binding, i) =>
    binding.locators.zipIdx.map fun (locator, j) => ⟨(i, j), binding, locator⟩

/-- The checks of `windows` (`verification/mod.rs:40`) on a locator. -/
def checkRead (read : CohortRead) : Result Unit := do
  let _ ← extent read.locator
  reject (read.locator.bytes == 0 || decide (read.locator.bytes.toNat > maxBundleBytes))
    (.capacity "bundle historical window bytes")

/-- The bytes of an object are compared as the number that they stand for. -/
def CohortRead.key (read : CohortRead) : Nat ×ₗ Nat :=
  toLex (Bytes.ofBe ((read.locator.object.map (·.asBytes)).getD []), read.locator.offset.toNat)

/-- Reads of one object come together, in the order of their offsets. -/
def CohortRead.before (a b : CohortRead) : Bool := decide (a.key ≤ b.key)

/-- `windows` (`verification/mod.rs:40`): the reads in the order of their extents. The source's sort
is unstable: nothing depends on the order of equal extents (`Ordered`). -/
def orderedReads (bindings : List Binding) : Result (List CohortRead) := do
  reject (decide (bindings.length > maxBundleFrames)
    || bindings.any (fun binding => decide (binding.locators.length > maxLocators)))
    (.capacity "bundle cohort verification metadata")
  (cohortReads bindings).forM checkRead
  return (cohortReads bindings).mergeSort CohortRead.before

/-- A window with one read. -/
def Window.single (read : CohortRead) : Result Window := do
  let (object, stop) ← extent read.locator
  return ⟨object, read.locator.offset.toNat, stop, read.locator.bytes.toNat, [read]⟩

/-- A window with one more read, when it may have it: it reads at most twice what is asked for, and
fits the scratch. -/
def Window.grow (w : Window) (read : CohortRead) : Result (Option Window) :=
  if read.locator.object ≠ some w.object then .ok none
  else do
    let (_, stop) ← extent read.locator
    let useful ← GateState.add w.usefulBytes (stop - max w.stop read.locator.offset.toNat)
      (.node "bundle locator overflow")
    let span := max stop w.stop - w.start
    if span > scratchBytes ∨ span > min (useful * 2) u64Max then
      return none
    return some
      { w with stop := max stop w.stop, usefulBytes := useful, reads := w.reads ++ [read] }

/-- `Windows` (`verification/mod.rs:82`): the windows over ordered reads, with the window
that is being filled. -/
def planWindows : Option Window → List CohortRead → Result (List Window)
  | none, [] => .ok []
  | some w, [] => .ok [w]
  | none, read :: reads => do
    let w ← Window.single read
    planWindows (some w) reads
  | some w, read :: reads => do
    match ← w.grow read with
    | some w => planWindows (some w) reads
    | none =>
      let next ← Window.single read
      let windows ← planWindows (some next) reads
      return w :: windows

/-- What is known of the frames of a cohort. -/
abbrev CohortFacts := Nat × Nat → Option FrameStep

/-- The frames of a window, from the bytes that were read for it. -/
def inspectWindow (w : Window) (bytes : Bytes) :
    CohortFacts → List CohortRead → Result CohortFacts
  | facts, [] => .ok facts
  | facts, read :: reads => do
    let frame ← V.checkedFrame read.binding read.locator
      ((bytes.drop (read.locator.offset.toNat - w.start)).take read.locator.bytes.toNat)
    reject (facts read.index).isSome (.node "bundle cohort repeats locator")
    inspectWindow w bytes (Function.update facts read.index (some (.fromFrame frame))) reads

/-- `read_window` (`verification/mod.rs:187`). -/
def readWindow (origin : OriginBundle) (facts : CohortFacts) (w : Window) : Result CohortFacts := do
  let bytes ← readRange V.store V.session V.epoch w.object w.start w.stop (some origin)
  reject (bytes.length != w.stop - w.start) (.node "bundle extent is truncated")
  V.inspectWindow w bytes facts w.reads

/-- Goes on with the frame of a locator of a binding of the cohort. -/
def acceptFact (facts : CohortFacts) (index : Nat) (chain : BindingChain) (j : Nat) :
    Result BindingChain := do
  let step ← okOr (facts (index, j)) (.node "bundle cohort omits locator")
  chain.accept step

/-- Follows the frames of a binding of the cohort. -/
def followFacts (facts : CohortFacts) (binding : Binding) (index : Nat) : Result Unit := do
  let start ← BindingChain.new binding
  let chain ← (List.range binding.locators.length).foldlM (acceptFact facts index) start
  chain.finish binding

/-- `verify_cohort` (`verification/mod.rs:126`). -/
def verifyCohort (origin : OriginBundle) (bindings : List Binding) : Result Unit := do
  if bindings.any (fun binding =>
      binding.locators.any fun locator => decide (locator.bytes.toNat > scratchBytes)) then
    bindings.forM (V.verifyBinding (some origin))
  else
    V.verifyBases bindings
    let reads ← orderedReads bindings
    let windows ← planWindows none reads
    let facts ← windows.foldlM (V.readWindow origin) fun _ => none
    bindings.zipIdx.forM fun (binding, index) => followFacts facts binding index

/-! ## Selection -/

/-- `OriginBundle::load` (`origin.rs:60`). -/
def loadOrigin : Result OriginBundle := do
  let body ← okOr (V.store V.session V.epoch prepared.head.digest) .storage
  let digest ← V.bodyDigest body
  reject (body != prepared.body || digest != prepared.head.digest)
    (.node "bundle proposal differs from canonical origin")
  return ⟨V.session, prepared.head, prepared.body⟩

/-- `OriginBundle::selected_bindings` (`origin.rs:90`): the bindings with new captures, whose
object is the bundle itself. -/
def selectedBindings : List Binding :=
  (prepared.catalog.bindings.filter fun b => b.locators.any (·.object.isNone)).map fun b =>
    { b with locators := b.locators.map fun l =>
      { l with object := some (l.object.getD prepared.head.digest) } }

/-- The bindings that extend no proof. -/
def freshBindings (prepared : Proposal) (process : Process) (prefixes : List BundleCoverageProof)
    (origin : OriginBundle) : List Binding → Result (List Binding)
  | [] => .ok []
  | binding :: bindings => do
    let extended ← V.verifyExtension prepared process binding prefixes origin
    let fresh ← freshBindings prepared process prefixes origin bindings
    return if extended then fresh else binding :: fresh

/-- The verification of `select_node_bundle_extending` (`selection.rs:369`): the bindings
that extend no proof are verified together. -/
def verifySelection (process : Process) (prefixes : List BundleCoverageProof)
    (origin : OriginBundle) : Result (List Binding) := do
  let fresh ← V.freshBindings prepared process prefixes origin (selectedBindings prepared)
  V.verifyCohort origin fresh
  return selectedBindings prepared

/-- The live part of a proof. -/
def liveCoverage (process : Process) (binding : Binding) : Option LiveBundleCoverage :=
  process.node.map fun node => ⟨node, process.lease, V.limits, process.originIdentity,
    process.originPath, prepared.assignments.filter fun a => a.scope == ⟨binding.application,
      binding.control.cell, binding.control.incarnation, binding.control.epoch⟩⟩

/-- `select_node_bundle_extending` (`selection.rs:369`) when its update of the head
succeeds. -/
def selectExtending (process : Process) (prefixes : List BundleCoverageProof) :
    Result (List BundleCoverageProof) := do
  reject (!process.leaseLive) .fenced
  reject (decide (prefixes.length > maxBundleFrames)) (.capacity "bundle prefix count")
  reject prepared.assignments.isEmpty (.node "native bundle has no complete assignments")
  let origin ← V.loadOrigin prepared
  let bindings ← V.verifySelection prepared process prefixes origin
  bindings.mapM fun binding => do
    let pin ← okOr binding.control.bundleBinding (.node "selected binding lacks pin")
    let live := V.liveCoverage prepared process binding
    reject (live.any fun live => live.assignments.isEmpty)
      (.node "selected binding lacks complete assignments")
    return ⟨pin, binding, prepared.head, V.session, live⟩

end VerifyScope

end Cellule
