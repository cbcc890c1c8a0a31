import Cellule.Identity
import Cellule.Lib.Cyclic
import Cellule.Lib.OrderedMap

/-!
# The coordination kernel

`CoordinationState` of `cellule-runtime/src/coordination/mod.rs`: the volatile protocol state of one
active Cell. It owns the lifecycle and the flags of the work in flight; the actor feeds it inputs
and maps its decisions to effects. Identities of effects are `u64`.
-/

namespace Cellule

/-- `AdmissionKind` (`mod.rs:7`). -/
inductive AdmissionKind where
  | command
  | query
  | resolve
  | migration
  | leaseCommand
  | leaseQuery
  deriving DecidableEq

def AdmissionKind.allowedWhileQuiescing (kind : AdmissionKind) : Bool :=
  kind == .leaseCommand || kind == .leaseQuery || kind == .resolve

/-- The intent of one effect in flight (`CoordinationEffect`, `mod.rs:28`). -/
inductive CoordinationEffect where
  | work (kind : AdmissionKind)
  | hydration
  | inventory
  | compaction
  | publication
  | proof
  | renewal
  deriving DecidableEq

/-- `RejectReason` (`mod.rs:39`). -/
inductive RejectReason where
  | notActive
  | fenced
  | draining
  | busy
  | publicationPending
  deriving DecidableEq

/-- What the actor observes (`CoordinationInput`, `mod.rs:48`). -/
inductive CoordinationInput where
  | admits (kind : AdmissionKind) (admissionMatches : Bool)
  | lookup
  | beginWork (kind : AdmissionKind) (publisherReady : Bool)
  | schedule (queueEmpty publisherReady publicationBlocked leaseLive : Bool)
  | completeEffect (effectId : Nat) (effect : CoordinationEffect)
  | finishWork (fenced : Bool)
  | beginDrain
  | beginMaintenanceQuiescence
  | beginShutdown
  | beginMigration
  | finishMigration (fenced : Bool)
  | beginRenewal (queueEmpty publicationIdle leaseLive : Bool)
  | finishRenewal (fenced : Bool)
  | beginPublication
  | callerCancel
  | followerProof (accepted : Bool)
  | finishPublication (fenced succeeded : Bool)
  | beginHydration (queueEmpty publicationIdle leaseLive : Bool)
  | beginInventory (queueEmpty publicationIdle inventoryUnknown refreshing leaseLive : Bool)
  | beginMaintenanceInventory (refreshing finalizing queueEmpty publisherReady leaseLive : Bool)
  | beginTransferPreflight (queueEmpty publicationIdle leaseLive : Bool)
  | confirmTransfer
  | abortTransfer
  | beginCompaction (queueEmpty publicationIdle publisherReady due leaseLive : Bool)
  | finishCompaction (fenced : Bool)
  | finishHydration (complete stale : Bool)
  | fence
  deriving DecidableEq

/-- `CoordinationDecision` (`mod.rs:164`). -/
inductive CoordinationDecision where
  | admits
  | resolveUnknown
  | localHandle
  | reject (reason : RejectReason)
  | started
  | effectCompleted
  | staleEffect
  | ignored
  | readyToDeactivate
  | readyToDeactivateFenced
  | startQueuedWork
  | fence
  deriving DecidableEq

/-- `Lifecycle` (`mod.rs:180`). -/
inductive Lifecycle where
  | serving
  | fenced
  | draining
  | migrating
  | shutdown
  deriving DecidableEq

/-- `Residency` (`mod.rs:189`). -/
inductive Residency where
  | sparse
  | hydrating
  | resident
  deriving DecidableEq

/-- `CoordinationState` (`mod.rs:201`). -/
structure CoordinationState where
  lifecycle : Lifecycle := .serving
  busy : Bool := false
  renewing : Bool := false
  publications : Nat := 0
  followerProof : Bool := false
  residency : Residency
  shutdownRequested : Bool := false
  transferPreparing : Bool := false
  maintenanceQuiescing : Bool := false
  nextEffectId : Nat := 0
  pendingEffects : OrderedMap Nat CoordinationEffect := .empty

namespace CoordinationState

/-- `CoordinationState::serving_with_residency` (`mod.rs:239`); `serving` starts resident. -/
def servingWithResidency (residency : Residency) : CoordinationState := { residency }

variable (s : CoordinationState)

def isFenced : Bool := s.lifecycle == .fenced

def isDraining : Bool :=
  s.shutdownRequested || s.lifecycle == .draining || s.lifecycle == .migrating
    || s.lifecycle == .shutdown

def isShutdown : Bool := s.shutdownRequested || s.lifecycle == .shutdown

/-- Whether an effect in flight satisfies a condition. -/
def anyEffect (p : CoordinationEffect → Bool) : Bool :=
  s.pendingEffects.values.any p

/-- `CoordinationState::lookup` (`mod.rs:328`). -/
def lookup : CoordinationDecision :=
  if s.isFenced then .reject .fenced
  else if s.isDraining || s.transferPreparing then .reject .draining
  else .localHandle

/-- `CoordinationState::can_deactivate` (`mod.rs:338`). -/
def canDeactivate : Bool :=
  !s.busy && !s.renewing && s.publications == 0 && s.pendingEffects.entries.isEmpty

/-- `CoordinationState::ready_to_deactivate` (`mod.rs:345`). -/
def readyToDeactivate (queueEmpty publisherReady : Bool) : Bool :=
  queueEmpty && publisherReady && s.canDeactivate

/-- `CoordinationState::admit` (`mod.rs:784`). -/
def admits (kind : AdmissionKind) (admissionMatches : Bool) : CoordinationDecision :=
  if !admissionMatches then .reject .notActive
  else if s.isFenced then if kind = .resolve then .resolveUnknown else .reject .fenced
  else if s.transferPreparing then .reject .draining
  else if s.maintenanceQuiescing && !kind.allowedWhileQuiescing then .reject .draining
  else if s.lifecycle == .migrating && !s.shutdownRequested then .admits
  else if s.isDraining then .reject .draining
  else .admits

/-- The decision of a step that may have been the last one before the Cell can be closed. -/
def drained : CoordinationDecision × CoordinationState :=
  (if s.canDeactivate && s.isDraining then .readyToDeactivate else .ignored, s)

/-- The decision of a step that asks for the Cell to be closed. -/
def closing : CoordinationDecision × CoordinationState :=
  (if s.canDeactivate then .readyToDeactivate else .started, s)

/-- `CoordinationState::step` (`mod.rs:349`). -/
def step : CoordinationInput → CoordinationDecision × CoordinationState
  | .admits kind admissionMatches => (s.admits kind admissionMatches, s)
  | .lookup => (s.lookup, s)
  | .beginWork kind publisherReady =>
    if s.isFenced then (.reject .fenced, s)
    else if s.busy then (.reject .busy, s)
    else if kind = .migration ∧ (s.publications != 0 || !publisherReady) then
      (.reject .publicationPending, s)
    else (.started, { s with busy := true })
  | .schedule queueEmpty publisherReady publicationBlocked leaseLive =>
    if !leaseLive then
      let s := { s with lifecycle := .fenced, busy := false, renewing := false }
      (if s.readyToDeactivate queueEmpty publisherReady then .readyToDeactivateFenced
        else .fence, s)
    else if (s.isFenced || s.isDraining) && s.readyToDeactivate queueEmpty publisherReady then
      (if s.isFenced then .readyToDeactivateFenced else .readyToDeactivate, s)
    else if s.isFenced || s.busy || s.renewing || s.anyEffect (· == .inventory) || queueEmpty
        || publicationBlocked then
      (.ignored, s)
    else (.startQueuedWork, s)
  | .completeEffect effectId effect =>
    if s.pendingEffects.get? effectId = some effect then
      (.effectCompleted, { s with pendingEffects := s.pendingEffects.erase effectId })
    else (.staleEffect, s)
  | .finishWork fenced =>
    let s := { s with busy := false }
    if fenced || s.isFenced then (.fence, { s with lifecycle := .fenced }) else s.drained
  | .beginMaintenanceQuiescence =>
    if s.isFenced then (.reject .fenced, s)
    else if s.isDraining || s.transferPreparing then (.reject .draining, s)
    else (.started, { s with maintenanceQuiescing := true })
  | .beginDrain =>
    if s.isFenced then (.reject .fenced, s)
    else if s.isDraining then (.reject .draining, s)
    else { s with lifecycle := .draining }.closing
  | .beginShutdown =>
    let s := { s with transferPreparing := false }
    if s.isShutdown then (.ignored, s)
    else if s.isFenced then { s with shutdownRequested := true }.closing
    else if s.lifecycle = .migrating then (.started, { s with shutdownRequested := true })
    else { s with shutdownRequested := true, lifecycle := .shutdown }.closing
  | .beginMigration =>
    if s.isFenced then (.reject .fenced, s)
    else if s.isDraining then (.reject .draining, s)
    else (.started, { s with lifecycle := .migrating })
  | .finishMigration fenced =>
    let s := { s with busy := false }
    if fenced || s.isFenced then (.fence, { s with lifecycle := .fenced })
    else if s.lifecycle = .migrating then
      { s with lifecycle := if s.shutdownRequested then .shutdown else .serving }.drained
    else (.ignored, s)
  | .beginRenewal queueEmpty publicationIdle leaseLive =>
    if !leaseLive then (.fence, { s with lifecycle := .fenced, busy := false, renewing := false })
    else if s.isFenced || s.isDraining || (s.transferPreparing && !s.maintenanceQuiescing)
        || s.renewing then
      (.reject (if s.isFenced then .fenced else .draining), s)
    else if s.busy || !queueEmpty || !publicationIdle then (.ignored, s)
    else (.started, { s with renewing := true })
  | .finishRenewal fenced =>
    let s := { s with renewing := false }
    if fenced || s.isFenced then (.fence, { s with lifecycle := .fenced }) else (.ignored, s)
  | .beginPublication =>
    if s.isFenced then (.reject .fenced, s)
    else if s.isDraining && !s.busy then (.reject .draining, s)
    else (.started, { s with
      publications := saturatingAdd s.publications 1, followerProof := false })
  | .callerCancel => (.ignored, s)
  | .followerProof accepted =>
    (.ignored, if accepted && s.publications != 0 then { s with followerProof := true } else s)
  | .finishPublication fenced succeeded =>
    let proved := succeeded || s.followerProof
    let s := { s with publications := s.publications - 1, followerProof := false }
    if fenced || !proved then (.fence, { s with lifecycle := .fenced }) else s.drained
  | .beginHydration queueEmpty publicationIdle leaseLive =>
    if !leaseLive then (.fence, { s with lifecycle := .fenced, busy := false })
    else if s.isFenced then (.reject .fenced, s)
    else if s.isDraining || s.transferPreparing
      || s.maintenanceQuiescing then (.reject .draining, s)
    else if s.busy then (.reject .busy, s)
    else if !queueEmpty || !publicationIdle || s.residency != .sparse then (.ignored, s)
    else (.started, { s with residency := .hydrating })
  | .beginInventory queueEmpty publicationIdle inventoryUnknown refreshing leaseLive =>
    if !leaseLive then (.fence, { s with lifecycle := .fenced, busy := false, renewing := false })
    else if s.isFenced then (.reject .fenced, s)
    else if s.isDraining || s.transferPreparing then (.reject .draining, s)
    else if s.busy then (.reject .busy, s)
    else if !queueEmpty || !publicationIdle || !inventoryUnknown || refreshing then (.ignored, s)
    else (.started, s)
  | .beginMaintenanceInventory refreshing finalizing queueEmpty publisherReady leaseLive =>
    if !leaseLive then (.fence, { s with lifecycle := .fenced })
    else if s.isFenced then (.reject .fenced, s)
    else if s.isDraining || !s.maintenanceQuiescing then (.reject .draining, s)
    else if refreshing || !publisherReady
        || (finalizing && (!s.transferPreparing || !queueEmpty || !s.canDeactivate)) then
      (.ignored, s)
    else (.started, s)
  | .beginTransferPreflight _ _ leaseLive =>
    if !leaseLive then (.fence, { s with lifecycle := .fenced, busy := false, renewing := false })
    else if s.isFenced then (.reject .fenced, s)
    else if s.isDraining || s.transferPreparing then (.reject .draining, s)
    else if s.renewing || s.anyEffect (fun effect => effect == .hydration || effect == .inventory
        || effect == .compaction || effect == .renewal) then (.ignored, s)
    else (.started, { s with transferPreparing := true })
  | .confirmTransfer =>
    if s.isFenced then (.reject .fenced, s)
    else if s.isShutdown || s.isDraining then (.reject .draining, s)
    else if !s.transferPreparing || !s.canDeactivate then (.ignored, s)
    else { s with transferPreparing := false, lifecycle := .draining }.closing
  | .abortTransfer =>
    if s.isFenced then (.reject .fenced, s)
    else if s.isShutdown || s.isDraining then (.reject .draining, s)
    else if s.transferPreparing then (.ignored, { s with transferPreparing := false })
    else (.ignored, s)
  | .beginCompaction queueEmpty publicationIdle publisherReady due leaseLive =>
    if !leaseLive then (.fence, { s with lifecycle := .fenced })
    else if s.isFenced || s.isDraining || s.transferPreparing || s.maintenanceQuiescing || s.busy
        || s.renewing || !queueEmpty || !publicationIdle || !publisherReady || !due
        || !s.pendingEffects.entries.isEmpty then
      (.ignored, s)
    else (.started, { s with busy := true })
  | .finishCompaction fenced =>
    let s := { s with busy := false }
    if fenced || s.isFenced then (.fence, { s with lifecycle := .fenced }) else s.drained
  | .finishHydration complete stale =>
    if !stale then (.ignored, { s with residency := if complete then .resident else .sparse })
    else (.fence, { s with residency := .sparse })
  | .fence =>
    (.ignored, { s with
      lifecycle := .fenced, busy := false, renewing := false, transferPreparing := false })

/-- The state after a row of inputs. -/
def run (inputs : List CoordinationInput) : CoordinationState :=
  inputs.foldl (fun s input => (s.step input).2) s

/-! ## Effects -/

/-- `CoordinationState::begin_effect` (`mod.rs:314`) starts an effect and hands out its identity:
`wrapping_add(1).max(1)` until no effect in flight has it. The loop ends after one more round than
there are effects in flight, or never (`beginEffect_isSome`). -/
def beginEffect (effect : CoordinationEffect) : Option (Nat × CoordinationState) :=
  (Cyclic.search u64Max (fun id => (s.pendingEffects.get? id).isSome)
    (s.pendingEffects.entries.length + 1) s.nextEffectId).map fun id =>
    (id, { s with nextEffectId := id, pendingEffects := s.pendingEffects.insert id effect })

end CoordinationState

end Cellule
