import Cellule.Control.Chain
import Cellule.Lib.Cas

/-!
# The authority of a Cell's control record

`CellAuthority` (`control/authority/mod.rs`, `history.rs`) as programs over conditional writes:
creation, loading, a named transition from an observed version, and the owner observation that a
departing owner leaves first. Clients interleave operation by operation, with any observed version
and any proposed successor.

The clients keep to one protocol (`authority`): every version of a control object was accepted from
the one it replaced (`Lineage`), and every owner observation is a record that the object held.
-/

namespace Cellule

open Except Interleave Cas

/-- The bodies of control records: `serde_json` over the raw document, which reads back what it
prints (`RawControl`, `control/codec.rs`). -/
structure ControlCodec where
  toVec : Control → Bytes
  fromSlice : Bytes → Result Control
  fromSlice_toVec : ∀ c, fromSlice (toVec c) = .ok c

/-- `MAX_CONTROL_BYTES`. -/
def maxControlBytes : Nat := 8 * 1024

/-- `Control::encode` (`control/mod.rs:280`). -/
def ControlCodec.encode (J : ControlCodec) (c : Control) : Result Bytes := do
  c.validate
  reject (decide ((J.toVec c).length > maxControlBytes)) (.control "body exceeds 8 KiB")
  pure (J.toVec c)

/-- `Control::decode` (`control/mod.rs:290`). -/
def ControlCodec.decode (J : ControlCodec) (bytes : Bytes) : Result Control := do
  reject (decide (bytes.length > maxControlBytes)) (.control "body exceeds 8 KiB")
  let control ← J.fromSlice bytes
  control.validate
  let encoded ← J.encode control
  reject (encoded != bytes) (.control "JSON is not canonical")
  pure control

/-- The objects of the authority: a Cell's control, and the retained owner of one epoch. -/
inductive Key where
  | control (cell : CellId)
  | owner (cell : CellId) (incarnation : IncarnationId) (epoch : Nat)
  deriving DecidableEq

/-- One exact control observation and its conditional-write token. -/
structure VersionedControl (T : Type) where
  value : Control
  token : T

/-- What a client meant by a write. -/
inductive Label (T : Type) where
  | created (initial : Control)
  | transition (observed : VersionedControl T) (next : Control) (kind : Transition)
  | retained (observed : Control)

/-- The record a write carries. -/
def Label.record {T : Type} : Label T → Control
  | .created c => c
  | .transition _ next _ => next
  | .retained c => c

/-- The bundle checks a transition consults; they read node records and bundle pages only, so their
answer is left open. -/
inductive BundleCheck where
  | enrollment (next : Control)
  | attachment (observed : Control) (recovery : RecoveryOverlayRef)
  | departure (observed : Control)

/-- Code of the authority. -/
abbrev AuthorityCode (T : Type) := Code Key Bytes T (Label T) BundleCheck Unit Error

abbrev AuthorityHistory (T : Type) := History Key Bytes T (Label T)

/-- `Error::from(StorageError)`; the failures of the store are not told apart. -/
def storageError : Unit → Error := fun _ => .storage

section
variable (J : ControlCodec) {T : Type}

/-- `Store::get_with_etag_bounded`, with the absence of the object as `none`. -/
def getBounded (key : Key) : AuthorityCode T (Option (Bytes × T)) := do
  let found ← Cas.get storageError key
  reject (found.any fun f => decide (f.1.length > maxControlBytes)) Error.storage
  pure found

/-- What `load` makes of the object it found. -/
def decodeControl (cell : CellId) :
    Option (Bytes × T) → Result (Option (VersionedControl T))
  | none => .ok none
  | some (body, token) => do
    let value ← J.decode body
    reject (value.cell != cell) (.control "control path does not match Cell ID")
    pure (some ⟨value, token⟩)

/-- `CellAuthority::load` (`control/authority/mod.rs:112`). -/
def load (cell : CellId) : AuthorityCode T (Option (VersionedControl T)) := do
  let found ← getBounded (Key.control cell)
  decodeControl J cell found

/-- `CellAuthority::create_initial` (`control/authority/mod.rs:78`); the code and schema are those
of the published catalog entry. -/
def createInitial (cell : CellId) (incarnation : IncarnationId) (owner : Owner) (code : Digest)
    (schema : Nat) : AuthorityCode T (VersionedControl T) := do
  let initial ← Control.initial cell incarnation owner code schema
  let body ← J.encode initial
  match ← Prog.attempt (Cas.create storageError (Key.control cell) body
    (Label.created initial)) with
  | .ok token => pure ⟨initial, token⟩
  | .error createError =>
    match ← load J cell with
    | some current => if current.value = initial then pure current else throw .cellAlreadyActive
    | none => throw createError

/-- What `load_owner_observation` makes of the object it found. -/
def decodeObservation (cell : CellId) (incarnation : IncarnationId) (epoch : Nat) :
    Option (Bytes × T) → Result (Option (Control × T))
  | none => .ok none
  | some (body, token) => do
    let control ← J.decode body
    reject (control.cell != cell || control.incarnation != incarnation || control.epoch != epoch
      || control.owner.isNone) (.control "Cell owner history path differs from its scope")
    pure (some (control, token))

/-- `CellAuthority::load_owner_observation` (`control/authority/history.rs:143`). -/
def loadOwnerObservation (cell : CellId) (incarnation : IncarnationId) (epoch : Nat) :
    AuthorityCode T (Option (Control × T)) := do
  reject (epoch == 0) (Error.control "Cell owner history epoch is zero")
  let found ← getBounded (Key.owner cell incarnation epoch)
  decodeObservation J cell incarnation epoch found

/-- `u64::checked_sub`. -/
def checkedSub (a b : Nat) : Option Nat := if b ≤ a then some (a - b) else none

/-- `retained` (`control/authority/history.rs:181`): whether the retained observation already covers
the observed one. -/
def retained (previous observed : Control) : Result Bool := do
  let orderedProgress :=
    if previous.revision ≥ observed.revision then
      checkedSub previous.progress observed.progress == some (previous.revision - observed.revision)
    else
      checkedSub observed.progress previous.progress == some (observed.revision - previous.revision)
  reject (previous.owner != observed.owner || previous.cell != observed.cell
    || previous.incarnation != observed.incarnation || previous.epoch != observed.epoch
    || !orderedProgress || (previous.revision == observed.revision && previous != observed))
    (.control "Cell owner history observations conflict")
  pure (decide (previous.revision ≥ observed.revision))

/-- Whether what `retain_owner` found covers the observed record. -/
def covers (previous : Option (Control × T)) (observed : Control) : Result Bool :=
  match previous with
  | some (previous, _) => retained previous observed
  | none => .ok false

/-- The conditional write of `retain_owner`, against the observation it found. -/
def writeOwner (observed : Control) (body : Bytes) (previous : Option (Control × T)) :
    AuthorityCode T T :=
  let key := Key.owner observed.cell observed.incarnation observed.epoch
  match previous with
  | some (_, token) => Cas.update storageError key body token (Label.retained observed)
  | none => Cas.create storageError key body (Label.retained observed)

/-- `CellAuthority::retain_owner` (`control/authority/history.rs:99`). An error of the write is
returned only when a second look does not find the observation. -/
def retainOwner (observed : Control) : AuthorityCode T Unit := do
  let body ← J.encode observed
  let previous ← loadOwnerObservation J observed.cell observed.incarnation observed.epoch
  let covered ← covers previous observed
  Prog.onlyIf (!covered) do
    match ← Prog.attempt (writeOwner observed body previous) with
    | .ok _ => pure ()
    | .error source =>
      match ← Prog.attempt
        (loadOwnerObservation J observed.cell observed.incarnation observed.epoch) with
      | .ok (some (current, _)) =>
        let covered ← retained current observed
        if covered then pure () else throw source
      | _ => throw source

/-- The last part of `transition`: the successor is written under the observed token. -/
def swapControl (observed : VersionedControl T) (next : Control) (kind : Transition) :
    AuthorityCode T (VersionedControl T) := do
  let encoded ← J.encode next
  let token ← Cas.update storageError (Key.control observed.value.cell) encoded observed.token
    (Label.transition observed next kind)
  pure ⟨next, token⟩

/-- `CellAuthority::transition` (`control/authority/mod.rs:174`). -/
def transition (observed : VersionedControl T) (next : Control) (kind : Transition) :
    AuthorityCode T (VersionedControl T) := do
  observed.value.validateTransition next kind
  Prog.onlyIf (kind == .bindBundle) (Cas.ask (BundleCheck.enrollment next))
  Prog.onlyIf ((kind == .attachRecovery || kind == .publishRecovery)
      && observed.value.bundleBinding.isSome) do
    match next.recovery.or observed.value.recovery with
    | some recovery => Cas.ask (BundleCheck.attachment observed.value recovery)
    | none => throw Error.fenced
  Prog.onlyIf (observed.value.bundleBinding.isSome
      && observed.value.bundleBinding != next.bundleBinding)
    (Cas.ask (BundleCheck.departure observed.value))
  Prog.onlyIf (observed.value.owner.isSome && observed.value.owner != next.owner)
    (retainOwner J observed.value)
  swapControl J observed next kind

/-- `CellAuthority::owner_observation` (`control/authority/history.rs:36`). -/
def ownerObservation (cell : CellId) (incarnation : IncarnationId) (epoch : Nat) :
    AuthorityCode T (Option Control) := do
  let found ← loadOwnerObservation J cell incarnation epoch
  pure (found.map (·.1))

/-- Complete owner observations for one current Cell incarnation. -/
structure CellOwnerHistory where
  current : Control
  owners : List Control

/-- The order check of `owner_history` on the next row. -/
def ownerOutOfOrder (current owner : Control) (owners : List Control) : Bool :=
  decide (owner.revision ≥ current.revision) || decide (owner.progress ≥ current.progress)
    || owners.getLast?.any fun previous =>
      decide (previous.revision ≥ owner.revision) || decide (previous.progress ≥ owner.progress)

/-- The loop of `owner_history`, over the `remaining` epochs from `epoch` on. -/
def collectOwners (cell : CellId) (current : Control) :
    (remaining epoch : Nat) → List Control → AuthorityCode T (List Control)
  | 0, _, owners => pure owners
  | remaining + 1, epoch, owners => do
    match ← ownerObservation J cell current.incarnation epoch with
    | none => throw (.ownerHistoryIncomplete cell current.incarnation epoch)
    | some owner =>
      reject (ownerOutOfOrder current owner owners)
        (Error.control "Cell owner history is not ordered")
      collectOwners cell current remaining (epoch + 1) (owners ++ [owner])

/-- The epochs that had an owner, the current one included. -/
def Control.ownerCount (c : Control) : Nat :=
  if c.state = .tombstoned then c.epoch - 1 else c.epoch

/-- The epochs whose owner has left. -/
def Control.closedEpochs (c : Control) : Nat :=
  if c.owner.isSome then c.ownerCount - 1 else c.ownerCount

/-- `CellAuthority::owner_history` (`control/authority/history.rs:52`). -/
def ownerHistory (cell : CellId) (limit : Nat) : AuthorityCode T CellOwnerHistory := do
  match ← load J cell with
  | none => throw .fenced
  | some ⟨current, _⟩ =>
    reject (limit == 0 || decide (current.ownerCount > limit))
      (Error.capacity "Cell owner history exceeds its row limit")
    let closed ← collectOwners J cell current current.closedEpochs 1 []
    let owners := if current.owner.isSome then closed ++ [current] else closed
    match ← load J cell with
    | none => throw .fenced
    | some latest => if latest.value = current then pure ⟨current, owners⟩ else throw .fenced

/-- The calls a client may make. -/
inductive AuthorityCall (T : Type) where
  | createInitial (cell : CellId) (incarnation : IncarnationId) (owner : Owner) (code : Digest)
      (schema : Nat)
  | load (cell : CellId)
  | transition (observed : VersionedControl T) (next : Control) (kind : Transition)
  | ownerHistory (cell : CellId) (limit : Nat)

/-- What they return. -/
inductive AuthorityReply (T : Type) where
  | created (result : Result (VersionedControl T))
  | loaded (result : Result (Option (VersionedControl T)))
  | moved (result : Result (VersionedControl T))
  | history (result : Result CellOwnerHistory)

/-- The control versions a reply hands out. -/
def AuthorityReply.shows : AuthorityReply T → VersionedControl T → Prop
  | .created r, vc | .moved r, vc => r = .ok vc
  | .loaded r, vc => r = .ok (some vc)
  | .history _, _ => False

/-- The code of a call. -/
def authorityCode (call : AuthorityCall T) :
    Prog (Op Key Bytes T (Label T) BundleCheck) (Ret Unit Error) (AuthorityReply T) :=
  match call with
  | .createInitial cell incarnation owner code schema =>
    (createInitial J cell incarnation owner code schema).run.bind (.done ∘ .created)
  | .load cell => (load J cell).run.bind (.done ∘ .loaded)
  | .transition observed next kind => (transition J observed next kind).run.bind (.done ∘ .moved)
  | .ownerHistory cell limit => (ownerHistory J cell limit).run.bind (.done ∘ .history)

/-- A `VersionedControl` has no public constructor: a client passes one it was handed. -/
def mayCall (replies : Set (AuthorityReply T)) : AuthorityCall T → Prop
  | .transition observed _ _ => ∃ r ∈ replies, r.shows observed
  | _ => True

/-- The control objects of every Cell, with any number of clients. -/
def authorityService : Service (Op Key Bytes T (Label T) BundleCheck) (Ret Unit Error)
    (Store Key Bytes T (Label T)) (AuthorityCall T) (AuthorityReply T) :=
  Cas.service (authorityCode J) mayCall

end

end Cellule
