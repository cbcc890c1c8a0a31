import Cellule.Lib.OrderedMap
import Cellule.Ltx.Bundle

/-!
# Rebuilding Cell tails from a node-log witness

Two ways to split the frames that the followers retained into one verified tail for each Cell:
`build_recovery_overlays` (`node/log/recovery/mod.rs`) groups a complete witness in memory, and
`StreamingRecovery` (`node/log/recovery/streaming.rs`) takes one frame at a time, keeps only the end
of each tail and writes the bodies to scratch files. It also accepts prefixes that were selected
from bundles before.
-/

namespace Cellule

open Except

/-- A call into `cellule-ltx`, with its error as the runtime's. -/
def ofLtx {α : Type} : LtxResult α → Result α
  | .ok a => .ok a
  | .error e => .error (.ltx e)

/-- The published state a tail must extend. -/
structure RecoveryBase where
  application : ApplicationId
  cellEpoch : Nat
  root : CellRootRef
  deriving DecidableEq

/-- The bytes of an identity as numbers, which compare as the arrays of the source do. -/
def FixedId.octets {n : Nat} (id : FixedId n) : List Nat := id.asBytes.map UInt8.toNat

/-- The scope under which frames are grouped, in the order of the source's tuples. -/
abbrev RecoveryKey := List Nat ×ₗ List Nat ×ₗ List Nat ×ₗ Nat

/-- The key of an exact Cell scope. -/
def recoveryKey (application : ApplicationId) (cell : CellId) (incarnation : IncarnationId)
    (cellEpoch : Nat) : RecoveryKey :=
  toLex (application.octets, toLex (cell.octets, toLex (incarnation.octets, cellEpoch)))

/-- The key of a base. -/
def RecoveryBase.key (b : RecoveryBase) : RecoveryKey :=
  recoveryKey b.application b.root.cell b.root.incarnation b.cellEpoch

/-- The key of a frame. -/
def VerifiedNodeFrame.key (f : VerifiedNodeFrame) : RecoveryKey :=
  recoveryKey f.scope.application f.scope.cell f.scope.incarnation f.scope.cellEpoch

/-- A recovered tail over its published base (`RecoveryOverlay`,
`cellule-ltx/src/replica/mod.rs:145`). -/
structure RecoveryOverlay where
  predecessor : CellRootRef
  bundle : Bundle
  finalPosition : Position
  finalCommitSequence : Nat
  deriving DecidableEq

/-- One Cell's verified tail. -/
structure RecoveredCellTail where
  application : ApplicationId
  cellEpoch : Nat
  firstNodeSequence : Nat
  lastNodeSequence : Nat
  overlay : RecoveryOverlay
  deriving DecidableEq

/-- `range_continues` (`recovery/mod.rs:172`): the next frame repeats the whole command range or
starts right after it. -/
def rangeContinues (first last nextFirst nextLast : Nat) : Bool :=
  (first == nextFirst && last == nextLast) || checkedAdd last 1 == some nextFirst

/-- The bases by their keys. -/
def baseMap (bases : List RecoveryBase) : OrderedMap RecoveryKey RecoveryBase :=
  .ofList (bases.map fun b => (b.key, b))

/-- The check of one frame against the published base of its Cell, the same in both forms; it tells
whether the base already covers the frame. -/
def checkBase (base : RecoveryBase) (f : VerifiedNodeFrame) : Result Bool := do
  let covered := decide (f.scope.commitSequence ≤ base.root.commitSequence)
  reject (!covered && decide (f.firstCommitSequence ≤ base.root.commitSequence))
    (.node "published base splits a node-log command group")
  let position := f.segment.position
  reject (covered != decide (position.txid ≤ base.root.position.txid)
    || (position.txid == base.root.position.txid && position != base.root.position))
    (.node "recovery frame disagrees with published base")
  pure covered

/-- The bundle entry of a frame. -/
def entryOf (base : RecoveryBase) (f : VerifiedNodeFrame) : BundleEntry :=
  .forCell base.root.cell base.root.incarnation f.segment f.body

/-! ## In memory -/

section
variable (B : BundleFormat)

/-- Whether every two neighbours of a list are related. -/
def pairs {α : Type} (r : α → α → Bool) : List α → Bool
  | a :: b :: rest => r a b && pairs r (b :: rest)
  | _ => true

/-- `grouped.entry(key).or_default().push(frame)`. -/
def group (grouped : OrderedMap RecoveryKey (List VerifiedNodeFrame)) (f : VerifiedNodeFrame) :
    OrderedMap RecoveryKey (List VerifiedNodeFrame) :=
  grouped.insert f.key (((grouped.get? f.key).getD []) ++ [f])

/-- What `build_recovery_overlays` does with the frames of one Cell; `none` when the base covers all
of them. -/
def recoverCell (base : RecoveryBase) (frames : List VerifiedNodeFrame) (limits : Limits) :
    Result (Option RecoveredCellTail) := do
  frames.forM fun f => discard (checkBase base f)
  let frames := frames.filter fun f => decide (f.scope.commitSequence > base.root.commitSequence)
  match frames.head?, frames.getLast? with
  | some firstFrame, some last =>
    match checkedAdd base.root.commitSequence 1 with
    | none => .error (.node "recovery commit sequence overflow")
    | some firstCommit => do
      reject (firstFrame.firstCommitSequence != firstCommit
        || !pairs (fun a b => rangeContinues a.firstCommitSequence a.scope.commitSequence
            b.firstCommitSequence b.scope.commitSequence) frames)
        (.node "recovery Cell commit sequence has a gap")
      let bundle ← ofLtx (B.encode (frames.map (entryOf base)) limits)
      pure (some {
        application := base.application
        cellEpoch := base.cellEpoch
        firstNodeSequence := firstFrame.scope.nodeSequence
        lastNodeSequence := last.scope.nodeSequence
        overlay := ⟨base.root, bundle, last.segment.position, last.scope.commitSequence⟩ })
  | _, _ => pure none

/-- What `build_recovery_overlays` does with one group. -/
def recoverGroup (bases : OrderedMap RecoveryKey RecoveryBase) (limits : Limits) :
    RecoveryKey × List VerifiedNodeFrame → Result (Option RecoveredCellTail)
  | (key, cellFrames) =>
    match bases.get? key with
    | none => .error (.node "recovery frame base disappeared")
    | some base => recoverCell B base cellFrames limits

/-- `build_recovery_overlays` (`recovery/mod.rs:41`). -/
def buildRecoveryOverlays (frames : List VerifiedNodeFrame) (bases : List RecoveryBase)
    (limits : Limits) : Result (List RecoveredCellTail) :=
  match frames with
  | [] => .error (.node "recovery witness is empty")
  | first :: _ => do
    reject (frames.any (fun f => f.scope.leaderSession != first.scope.leaderSession
        || f.scope.logEpoch != first.scope.logEpoch)
      || !pairs (fun a b => checkedAdd a.scope.nodeSequence 1 == some b.scope.nodeSequence) frames)
      (.node "recovery witness is not contiguous")
    let baseByKey := baseMap bases
    reject (baseByKey.entries.length != bases.length)
      (.node "recovery bases contain duplicate Cell scope")
    frames.forM fun f => reject ((baseByKey.get? f.key).isNone)
      (.node "recovery frame has no exact published base")
    let recovered ← (frames.foldl group .empty).entries.mapM (recoverGroup B baseByKey limits)
    pure (recovered.filterMap id)

end

/-! ## Streaming -/

/-- `MAX_BASES`. -/
def maxBases : Nat := 4096

/-- `MAX_PREFIX_FRAMES`. -/
def maxPrefixFrames : Nat := 256

/-- The local disk budget: how much is held of what may be held (`DiskBudget`,
`cellule-ltx/src/environment/host/budget.rs:13`). -/
structure DiskBudget where
  capacity : Nat
  used : Nat
  deriving DecidableEq

/-- `DiskBudget::add`. -/
def DiskBudget.add (d : DiskBudget) (bytes : Nat) : LtxResult DiskBudget :=
  match checkedAdd d.used bytes with
  | some next => if next ≤ d.capacity then .ok { d with used := next }
      else .error (.limit .localDiskBytes)
  | none => .error (.limit .localDiskBytes)

/-- The tail of one Cell so far: its bundle, and where it ends. -/
structure CellBuilder where
  base : RecoveryBase
  bundle : BundleBuilder
  reservation : Option Nat
  firstNodeSequence : Nat
  lastNodeSequence : Nat
  lastCommitSequence : Nat
  lastFirstCommitSequence : Nat
  finalPosition : Position
  seeded : Bool

/-- The state of a streaming recovery. -/
structure StreamingRecovery where
  bases : OrderedMap RecoveryKey RecoveryBase
  grouped : OrderedMap RecoveryKey CellBuilder
  prefixDigests : OrderedMap Nat Digest
  leader : SessionId
  epoch : Nat
  previous : Option Nat
  limits : Limits
  disk : Option DiskBudget

namespace StreamingRecovery

variable (B : BundleFormat)

/-- `StreamingRecovery::new` (`streaming.rs:35`). -/
def new (bases : List RecoveryBase) (leader : SessionId) (epoch : Nat) (limits : Limits)
    (disk : Option DiskBudget) : Result StreamingRecovery := do
  reject (decide (bases.length > maxBases)) (.capacity "recovery Cell bases")
  let map := baseMap bases
  reject (map.entries.length != bases.length)
    (.node "recovery bases contain duplicate Cell scope")
  pure { bases := map, grouped := .empty, prefixDigests := .empty, leader, epoch, previous := none,
         limits, disk }

/-- The first 64 bytes of a Cell's reservation. -/
def reserveCell : Option DiskBudget → Result (Option DiskBudget)
  | none => .ok none
  | some disk => some <$> ofLtx (disk.add 64)

variable (r : StreamingRecovery)

/-- The first builder of a Cell: it starts at the published base, with 64 bytes of disk reserved. -/
def openCell (base : RecoveryBase) (f : VerifiedNodeFrame) (seeded : Bool) :
    Result (CellBuilder × StreamingRecovery) := do
  reject (checkedAdd base.root.commitSequence 1 != some f.firstCommitSequence)
    (.node "recovery Cell commit sequence has a gap")
  let disk ← reserveCell r.disk
  let bundle ← ofLtx (BundleBuilder.newTemp r.limits)
  pure ({
    base, bundle
    reservation := r.disk.map fun _ => 64
    firstNodeSequence := f.scope.nodeSequence
    lastNodeSequence := 0
    lastCommitSequence := base.root.commitSequence
    lastFirstCommitSequence := base.root.commitSequence
    finalPosition := base.root.position
    seeded }, { r with disk })

/-- The growth of a Cell's reservation by one row: the reservation and the budget after it. -/
def growReservation (disk : Option DiskBudget) (reservation : Option Nat) (f : VerifiedNodeFrame) :
    Result (Option Nat × Option DiskBudget) :=
  match reservation, disk with
  | some held, some disk =>
    match checkedAdd f.encoded.length 256 with
    | none => .error (.capacity "recovery scratch row bytes")
    | some bytes =>
      match checkedAdd held bytes with
      | none => .error (.ltx (.limit .localDiskBytes))
      | some next => do
        let disk ← ofLtx (disk.add bytes)
        pure (some next, some disk)
  | reservation, disk => .ok (reservation, disk)

/-- The row of a frame that the base does not cover. -/
def extend (base : RecoveryBase) (cell : CellBuilder)
    (f : VerifiedNodeFrame) (seeded : Bool) : Result StreamingRecovery := do
  reject (decide (f.scope.nodeSequence ≤ cell.lastNodeSequence)
    || !rangeContinues cell.lastFirstCommitSequence cell.lastCommitSequence f.firstCommitSequence
        f.scope.commitSequence
    || checkedAdd cell.finalPosition.txid 1 != some f.segment.minTxid
    || cell.finalPosition.checksum != f.segment.preChecksum)
    (.node "recovery Cell commit or physical range has a gap")
  let (reservation, disk) ← growReservation r.disk cell.reservation f
  let bundle ← ofLtx (BundleBuilder.push B cell.bundle (entryOf base f))
  pure { r with
    disk
    grouped := r.grouped.insert f.key { cell with
      bundle, reservation
      lastNodeSequence := f.scope.nodeSequence
      lastCommitSequence := f.scope.commitSequence
      lastFirstCommitSequence := f.firstCommitSequence
      finalPosition := f.segment.position
      seeded := cell.seeded || seeded } }

/-- `StreamingRecovery::append` (`streaming.rs:124`). -/
def append (f : VerifiedNodeFrame) (seeded : Bool) : Result StreamingRecovery := do
  reject (f.scope.leaderSession != r.leader || f.scope.logEpoch != r.epoch)
    (.node "recovery witness has mixed sessions")
  match r.bases.get? f.key with
  | none => .error (.node "recovery frame has no exact published base")
  | some base => do
    let covered ← checkBase base f
    if covered then do
      reject ((r.grouped.get? f.key).any fun cell => !cell.seeded || seeded)
        (.node "recovery Cell covered prefix follows uncovered tail")
      pure r
    else
      match r.grouped.get? f.key with
      | some cell => extend B r base cell f seeded
      | none => do
        let (cell, r) ← r.openCell base f seeded
        extend B r base cell f seeded

/-- One frame of `StreamingRecovery::seed`. -/
def seedFrame (f : VerifiedNodeFrame) : Result StreamingRecovery := do
  let sequence := f.scope.nodeSequence
  reject (decide (r.prefixDigests.entries.length ≥ maxBases * maxPrefixFrames)
    || (r.prefixDigests.get? sequence).isSome)
    (.node "recovery selected prefix repeats native sequence")
  append B { r with prefixDigests := r.prefixDigests.insert sequence (f.digest B.hash) } f true

/-- `StreamingRecovery::seed` (`streaming.rs:78`). -/
def seed (frames : List VerifiedNodeFrame) : Result StreamingRecovery := do
  reject (decide (frames.length > maxPrefixFrames)) (.capacity "recovery selected prefix frames")
  frames.foldlM (seedFrame B) r

/-- `StreamingRecovery::push` (`streaming.rs:101`). -/
def push (f : VerifiedNodeFrame) : Result StreamingRecovery := do
  reject (f.scope.leaderSession != r.leader || f.scope.logEpoch != r.epoch)
    (.node "recovery witness has mixed sessions")
  reject (r.previous.any fun before => checkedAdd before 1 != some f.scope.nodeSequence)
    (.node "recovery witness is not contiguous")
  let r := { r with previous := some f.scope.nodeSequence }
  match r.prefixDigests.get? f.scope.nodeSequence with
  | some digest => do
    reject (digest != f.digest B.hash)
      (.node "follower witness conflicts with selected bundle prefix")
    pure r
  | none => append B r f false

/-- The tail of one Cell, sealed. -/
def finishCell (cell : CellBuilder) : Result RecoveredCellTail := do
  let bundle ← ofLtx (BundleBuilder.finish B cell.bundle)
  reject (cell.reservation.any fun held => decide (bundle.length > held))
    (.capacity "recovery scratch exceeds admission")
  pure {
    application := cell.base.application
    cellEpoch := cell.base.cellEpoch
    firstNodeSequence := cell.firstNodeSequence
    lastNodeSequence := cell.lastNodeSequence
    overlay := ⟨cell.base.root, bundle, cell.finalPosition, cell.lastCommitSequence⟩ }

/-- `StreamingRecovery::finish` (`streaming.rs:233`). -/
def finish : Result (List RecoveredCellTail) :=
  r.grouped.values.mapM (finishCell B)

/-- A whole recovery: the selected prefixes, then the witness, as its callers feed them. -/
def recover (bases : List RecoveryBase) (leader : SessionId) (epoch : Nat) (limits : Limits)
    (disk : Option DiskBudget) (seeds : List (List VerifiedNodeFrame))
    (witness : List VerifiedNodeFrame) : Result (List RecoveredCellTail) := do
  let r ← new bases leader epoch limits disk
  let r ← seeds.foldlM (seed B) r
  let r ← witness.foldlM (push B) r
  r.finish B

end StreamingRecovery

end Cellule
