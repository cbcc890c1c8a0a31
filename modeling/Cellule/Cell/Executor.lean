import Cellule.Cell.Storage
import Cellule.Control.Record
import Cellule.Primitives.Inbox

/-!
# The executor of a Cell

`CellExecutor` (`cell/executor/`) is the single owner of the database of an active Cell. A command
that commits joins the queue of pending publications; its outcome leaves the queue when a published
root or the receipt of a bundle covers it. A call is a program that keeps the executor when it
fails, so what it changed before an error is there after it.
-/

namespace Cellule

open Except (reject)
open Stateful (outcome look change fail lift rejectWhen attempt)

/-- `MAX_NATIVE_GROUP` (`group.rs:15`). -/
def maxNativeGroup : Nat := 16

/-- `MAX_PENDING_PUBLICATIONS`. -/
def maxPendingPublications : Nat := 64

/-- `PENDING_PUBLICATION_HIGH_WATER_BYTES`. -/
def pendingPublicationHighWaterBytes : Nat := 64 * 2 ^ 20

/-- `retained_bytes` (`mod.rs:270`). -/
def CaptureBatch.retainedBytes (cuts : CaptureBatch) : Nat := (cuts.segments.map (·.sizeBytes)).sum

/-- A commit that waits for its publication (`PendingCommit`, `mod.rs:136`). -/
structure PendingCommit where
  outcome : StoredOutcome
  logicalTime : Int
  nextDue : Option Int
  cuts : CaptureBatch
  prepared : Option CellRootRef
  durable : Bool
  deriving DecidableEq

/-- `PendingCommit::retained_bytes`. -/
def PendingCommit.retainedBytes (pending : PendingCommit) : Nat := pending.cuts.retainedBytes

/-- A schema step that waits for its publication (`PendingMigration`, `mod.rs:147`). -/
structure PendingMigration where
  code : Digest
  fromSchema : Nat
  toSchema : Nat
  digest : Option Digest
  commitSequence : Nat
  nextDue : Option Int
  cuts : CaptureBatch
  prepared : Option CellRootRef
  deriving DecidableEq

/-- `MigrationOutcome` (`mod.rs:209`). -/
structure MigrationOutcome where
  code : Digest
  schema : Nat
  commitSequence : Nat
  deriving DecidableEq

/-- A script and its digest, of a step to the next schema. -/
structure MigrationDescriptor where
  sql : Bytes
  digest : Digest

/-- `MigrationPlan` (`registry/schemas/mod.rs:54`). -/
structure MigrationPlan where
  fromCode : Digest
  toCode : Digest
  fromSchema : Nat
  toSchema : Nat
  migration : Option MigrationDescriptor

/-- An uploaded proposal and the schema it was verified with. Reference: `PreparedRoot`. -/
structure PreparedRoot where
  root : CellRootRef
  schema : Nat
  deriving DecidableEq

/-- What the executor asks of a bundle's proof, of the capture of one commit in it, and of a
checkpoint. -/
structure BundleRules (Proof Checkpoint Capture : Type) where
  commitSequence : Proof → Nat
  position : Proof → Position
  binding : Proof → BundleBindingRef
  selected : Capture → Proof
  continuesSelectedPrefix : Proof → Proof → Option Checkpoint → Result Unit
  verifyPending : CellId → IncarnationId → Capture → PendingCommit → Result Unit
  materializedPrefix : Proof → CellRootRef → Option Checkpoint → Result Checkpoint
  shrinkRetained : Checkpoint → Result Unit

/-- `CellExecutor` (`mod.rs:293`). -/
structure CellExecutor (App Proof Checkpoint : Type) where
  db : CellDb App
  cell : CellId
  incarnation : IncarnationId
  schema : Nat
  pending : List PendingCommit
  pendingBytes : Nat
  publishedSequence : Nat
  bundleMaterialization : Option Proof
  bundleCheckpoint : Option Checkpoint
  pendingMigration : Option PendingMigration
  fenced : Bool

/-- A call of the executor, which may fail. -/
abbrev ExecutorM (App Proof Checkpoint α : Type) : Type :=
  Stateful Error (CellExecutor App Proof Checkpoint) α

/-- `CommandExecution` (`mod.rs:279`). -/
inductive CommandExecution where
  | recorded (outcome : StoredOutcome)
  | pending
  deriving DecidableEq

/-- `Resolution` (`mod.rs:91`). -/
inductive Resolution where
  | committed (outcome : StoredOutcome)
  | absent
  | unknown
  | expired
  deriving DecidableEq

/-- `NativeGroupExecution` (`group.rs:25`). -/
structure NativeGroupExecution where
  outcomes : List (Result StoredOutcome)
  pending : Option PendingCommit
  baseSequence : Nat

/-- What the storage answers to a read: `fails` for a snapshot that could not be opened or ended. -/
structure ReadStorage where
  fails : Option Error
  ioError : Option Error

namespace CellExecutor

variable {App Proof Checkpoint Capture : Type}

/-- `CellExecutor::new` (`mod.rs:350`). -/
def new (db : CellDb App) (cell : CellId) (incarnation : IncarnationId) (schema : Nat) :
    CellExecutor App Proof Checkpoint where
  db := db
  cell := cell
  incarnation := incarnation
  schema := schema
  pending := []
  pendingBytes := 0
  publishedSequence := 0
  bundleMaterialization := none
  bundleCheckpoint := none
  pendingMigration := none
  fenced := false

variable (x : CellExecutor App Proof Checkpoint)

/-- The site that the executor's transactions check. -/
def site (hooks : Hooks App) : Site App :=
  { hooks with cell := x.cell, incarnation := x.incarnation, schema := x.schema }

/-- `CellExecutor::has_pending` (`mod.rs:1321`). -/
def hasPending : Bool :=
  !x.pending.isEmpty || x.pendingMigration.isSome || x.bundleMaterialization.isSome

/-- `CellExecutor::logical_head_is_durable` (`mod.rs:1334`). -/
def logicalHeadIsDurable : Bool :=
  match x.pending.getLast? with
  | none => true
  | some pending => pending.durable

/-- `CellExecutor::accepts_publication` (`mod.rs:1327`). -/
def acceptsPublication : Bool :=
  x.pendingMigration.isNone && x.logicalHeadIsDurable
    && decide (x.pending.length < maxPendingPublications)
    && decide (x.pendingBytes < pendingPublicationHighWaterBytes)

/-- `CellExecutor::fence` (`mod.rs:1299`). -/
def fence : CellExecutor App Proof Checkpoint :=
  { x with fenced := true }

/-! ## Commands -/

/-- A failure that fences the executor. -/
def fenceWith {α : Type} (error : Error) : ExecutorM App Proof Checkpoint α := do
  change fence
  fail error

/-- Runs a transaction on the executor's database. -/
def transact {α : Type} (storage : Storage) (operation : CellDb App → Result α × Txn App) :
    ExecutorM App Proof Checkpoint (Except TransactionError α) := fun x =>
  (.ok (transactionWith storage operation x.db).1,
    { x with db := (transactionWith storage operation x.db).2 })

/-- `CellExecutor::check_transaction` (`mod.rs:1338`). -/
def checkTransaction {α : Type} (ioError : Option Error) (transaction : Except TransactionError α) :
    ExecutorM App Proof Checkpoint α :=
  match ioError with
  | some error => fenceWith error
  | none =>
    match transaction with
    | .ok value => pure value
    | .error (.operation error) => fail error
    | .error (.admission error) => fail error
    | .error (.rolledBack resource) => fail resource
    | .error (.fatal error) => fenceWith error

/-- The commit joins the queue. A sum of bytes that does not fit fences: SQL has committed. -/
def enqueue (pending : PendingCommit) : ExecutorM App Proof Checkpoint Unit := do
  let x ← look
  match checkedAdd x.pendingBytes pending.retainedBytes with
  | none => fenceWith (.capacity "pending publication bytes")
  | some bytes =>
    change fun x => { x with pendingBytes := bytes, pending := x.pending ++ [pending] }

/-- `CellExecutor::finish_transaction` (`mod.rs:1358`). -/
def finishTransaction (ioError : Option Error) (capture : Result CaptureBatch)
    (transaction : Except TransactionError TransactionResult) :
    ExecutorM App Proof Checkpoint CommandExecution := do
  let transaction ← checkTransaction ioError transaction
  match transaction with
  | .recorded outcome => return .recorded outcome
  | .committed outcome logicalTime nextDue =>
    match capture with
    | .error error => fenceWith error
    | .ok cuts => do
      enqueue ⟨outcome, logicalTime, nextDue, cuts, none, false⟩
      return .pending

/-- `CellExecutor::execute` (`mod.rs:501`). -/
def execute (hooks : Hooks App) (storage : Storage) (command : NativeCommand App) :
    ExecutorM App Proof Checkpoint CommandExecution := do
  let x ← look
  rejectWhen x.fenced .fenced
  rejectWhen (!x.acceptsPublication) .pendingPublication
  rejectWhen (decide (command.maxResultBytes > maxResultBytes))
    (.command "result exceeds wire limit")
  lift (command.identity.validate command.now)
  let transaction ← transact storage fun db =>
    (applyMutation (x.site hooks) command).outcome (.opened db)
  finishTransaction storage.ioError storage.capture transaction

/-- `CellExecutor::deliver_effect` (`mod.rs:545`). -/
def deliverEffect (hooks : Hooks App) (storage : Storage) (delivery : InboxDelivery) (now : Int)
    (limit : Nat) (handler : Handler App) :
    ExecutorM App Proof Checkpoint CommandExecution := do
  let x ← look
  rejectWhen x.fenced .fenced
  rejectWhen (!x.acceptsPublication) .pendingPublication
  rejectWhen (decide (limit > maxResultBytes)) (.command "effect result exceeds wire limit")
  let transaction ← transact storage fun db =>
    (deliverMutation (x.site hooks) now delivery limit handler).outcome (.opened db)
  finishTransaction storage.ioError storage.capture transaction

/-! ## Groups -/

/-- The result that the pending entry of a group is made from. -/
def newestAfter (newest : Option TransactionResult) : TransactionResult → Option TransactionResult
  | .recorded _ => newest
  | .committed outcome logicalTime nextDue => some (.committed outcome logicalTime nextDue)

/-- The loop of `execute_group` in its transaction: each member has a savepoint. `late n` says that
the deadline has passed when `n` members are done. -/
def groupMembers (site : Site App) (late : Nat → Bool) :
    List (NativeCommand App) → List (Result StoredOutcome) → Option TransactionResult →
      Stateful Error (Txn App) (List (Result StoredOutcome) × Option TransactionResult)
  | [], outcomes, newest => do
    rejectWhen (late outcomes.length) .deadline
    return (outcomes, newest)
  | command :: commands, outcomes, newest => do
    rejectWhen (late outcomes.length) .deadline
    let saved ← view
    let result ← attempt (applyMutation site command)
    match result with
    | .ok result => do
      let _ ← view
      groupMembers site late commands (outcomes ++ [.ok result.outcome]) (newestAfter newest result)
    | .error error => do
      let txn ← look
      rejectWhen txn.isAutocommit error
      write fun _ => saved
      groupMembers site late commands (outcomes ++ [.error error]) newest

variable (rules : BundleRules Proof Checkpoint Capture)

/-- The sequence that a group continues. -/
def baseSequence (x : CellExecutor App Proof Checkpoint) : Nat :=
  match x.pending.getLast? with
  | some pending => pending.outcome.commitSequence
  | none =>
    match x.bundleMaterialization with
    | some selected => rules.commitSequence selected
    | none => x.publishedSequence

/-- The end of `execute_group`: the newest commit of the group joins the queue. -/
def finishGroup (storage : Storage) (outcomes : List (Result StoredOutcome))
    (newest : Option TransactionResult) (base : Nat) :
    ExecutorM App Proof Checkpoint NativeGroupExecution :=
  match newest with
  | none => return ⟨outcomes, none, base⟩
  | some committed => do
    let _ ← finishTransaction storage.laterIoError storage.capture (.ok committed)
    let x ← look
    match x.pending.getLast? with
    | none => fail .fenced
    | some pending => return ⟨outcomes, some pending, base⟩

/-- `CellExecutor::execute_group` (`group.rs:32`). -/
def executeGroup (hooks : Hooks App)
    (storage : Storage) (late : Nat → Bool) (commands : List (NativeCommand App)) :
    ExecutorM App Proof Checkpoint NativeGroupExecution := do
  rejectWhen (commands.isEmpty || decide (commands.length > maxNativeGroup))
    (.capacity "native command group")
  let x ← look
  rejectWhen x.fenced .fenced
  rejectWhen (!x.acceptsPublication) .pendingPublication
  let transaction ← transact storage fun db =>
    (groupMembers (x.site hooks) late commands [] none).outcome (.opened db)
  let (outcomes, newest) ← checkTransaction storage.ioError transaction
  finishGroup storage outcomes newest (x.baseSequence rules)

/-! ## Reads -/

/-- A read of the database, and what its failures do. -/
def readWith {α : Type} (storage : ReadStorage) (handler : CellDb App → Result α) :
    ExecutorM App Proof Checkpoint α :=
  match storage.ioError with
  | some error => fenceWith error
  | none =>
    match storage.fails with
    | some error => fenceWith error
    | none => do
      let x ← look
      lift (handler x.db)

/-- `CellExecutor::query` (`mod.rs:634`). -/
def query (storage : ReadStorage) (limit : Nat) (handler : CellDb App → Result Bytes) :
    ExecutorM App Proof Checkpoint Bytes := do
  let x ← look
  rejectWhen x.fenced .fenced
  rejectWhen (!x.logicalHeadIsDurable) .pendingPublication
  rejectWhen (decide (limit > maxResultBytes)) (.command "result exceeds wire limit")
  let result ← readWith storage handler
  rejectWhen (decide (result.length > limit)) (.command "query result exceeds command limit")
  return result

/-- What a row of the ledger says of the request. -/
def resolveRow (operationDigest : Digest) (limit : Nat) : Option LedgerRow → Result Resolution
  | none => .ok .absent
  | some row => do
    reject (row.operationDigest != operationDigest) .requestConflict
    let outcome ← storedOutcome row.verdict row.result row.commitSequence
    reject (decide (outcome.result.length > limit)) (.command "stored result exceeds command limit")
    return .committed outcome

/-- The part of `resolve` that reads the ledger. -/
def resolveLive (storage : ReadStorage) (identity : MutationIdentity) (operationDigest : Digest)
    (limit : Nat) : ExecutorM App Proof Checkpoint Resolution := do
  rejectWhen (decide (limit > maxResultBytes)) (.command "result exceeds wire limit")
  let row ← readWith storage fun db => .ok (db.requests.get? identity.requestId)
  lift (resolveRow operationDigest limit row)

/-- The part of `resolve` for an executor whose head is durable. -/
def resolveDurable (storage : ReadStorage) (identity : MutationIdentity) (operationDigest : Digest)
    (now : Int) (limit : Nat) : ExecutorM App Proof Checkpoint Resolution := do
  let expired ← lift (identity.expired now)
  if expired then
    return .expired
  else
    resolveLive storage identity operationDigest limit

/-- `CellExecutor::resolve` (`mod.rs:785`). -/
def resolve (storage : ReadStorage) (identity : MutationIdentity) (operationDigest : Digest)
    (now : Int) (limit : Nat) : ExecutorM App Proof Checkpoint Resolution := do
  let x ← look
  if x.fenced || !x.logicalHeadIsDurable then
    return .unknown
  else
    resolveDurable storage identity operationDigest now limit

/-- `inbox_resolve` (`primitives/effects/mod.rs:631`). -/
def inboxResolve (now : Int) (delivery : InboxDelivery) (limit : Nat) (db : CellDb App) :
    Result Resolution := do
  validateEffectNow now
  if delivery.expiresAt ≤ now then
    return .expired
  else do
    reject (decide (limit > maxEffectBytes)) (.command "effect result limit exceeds 1 MiB")
    match db.inbox.get? delivery.effectId with
    | none => return .absent
    | some row => do
      reject (row.operationDigest != delivery.operationDigest
        || row.expiresAt != delivery.expiresAt)
        .requestConflict
      let outcome ← storedInboxOutcome row.verdict row.result row.commitSequence limit
      return .committed outcome

/-- `CellExecutor::resolve_effect` (`mod.rs:850`). -/
def resolveEffect (storage : ReadStorage) (delivery : InboxDelivery) (now : Int) (limit : Nat) :
    ExecutorM App Proof Checkpoint Resolution := do
  let x ← look
  if x.fenced || !x.logicalHeadIsDurable then
    return .unknown
  else
    readWith storage (inboxResolve now delivery limit)

/-! ## Hydration -/

/-- `CellExecutor::prepare_hydration` (`mod.rs:668`), for what the database answers. -/
def prepareHydration {α : Type} (answer : Result α) (pages : Nat) :
    ExecutorM App Proof Checkpoint α := do
  let x ← look
  rejectWhen x.fenced .fenced
  rejectWhen (!(decide (1 ≤ pages) && decide (pages ≤ 64))) (.capacity "hydration pages")
  lift answer

/-- `CellExecutor::install_hydration` (`mod.rs:681`), for what the database answers. -/
def installHydration {α : Type} (answer : Result α) : ExecutorM App Proof Checkpoint α := do
  let x ← look
  rejectWhen x.fenced .fenced
  match answer with
  | .ok hydration => return hydration
  | .error error => fenceWith error

/-! ## Migrations -/

/-- The step is the next schema with the script it was registered with, or a change of code only. -/
def validStep (hash : Hash) (plan : MigrationPlan) (schema : Nat) : Bool :=
  match plan.migration with
  | some script => schema + 1 == plan.toSchema && script.digest == hash script.sql
  | none => schema == plan.toSchema && plan.fromCode != plan.toCode

variable (sqlite : Bytes → CellDb App → Result Unit × Txn App)

/-- `execute_batch` of a script, a function of SQLite. -/
def runScript (sql : Bytes) :
    Stateful Error (Txn App) Unit := fun txn =>
  match txn with
  | .opened db => sqlite sql db
  | .ended stray => (.error .sqlite, .ended stray)

/-- The part of `migrate` that runs the script of the plan and records it in `sys_migrations`. -/
def applyScript (plan : MigrationPlan) (sequence : Nat) : Stateful Error (Txn App) Unit :=
  match plan.migration with
  | none => return ()
  | some script => do
    let db ← view
    match db.migrations.get? plan.toSchema with
    | some row =>
      if row.digest = script.digest then
        fail (.control "migration is recorded ahead of runtime schema")
      else
        fail (.registry "migration digest conflicts with SQLite history")
    | none => do
      runScript sqlite script.sql
      let db ← view
      rejectWhen (db.migrations.get? plan.toSchema).isSome .sqlite
      write fun db =>
        { db with migrations := db.migrations.insert plan.toSchema ⟨script.digest, sequence⟩ }

/-- The transaction of `migrate`. -/
def migrationBody (site : Site App)
    (plan : MigrationPlan) (now : Int) : Stateful Error (Txn App) (Nat × Option Int) := do
  let db ← view
  let (commitSequence, priorLogicalTime) ←
    lift (db.runtimeMetadata site.cell site.incarnation site.schema)
  let sequence ← lift (nextSequence commitSequence)
  let logicalTime := max now priorLogicalTime
  applyScript sqlite plan sequence
  let db ← view
  rejectWhen (db.sysMeta.schema != site.schema)
    (.control "migration metadata changed during execution")
  write fun db =>
    { db with sysMeta := { db.sysMeta with
        commitSequence := sequence, logicalTime := logicalTime, schema := plan.toSchema } }
  let db ← view
  let stored ← lift (db.runtimeMetadata site.cell site.incarnation plan.toSchema)
  rejectWhen (stored != (sequence, logicalTime)) (.control "migration metadata did not validate")
  lift (site.validateInstalled db)
  let nextDue ← lift (site.nextDue db logicalTime)
  return (sequence, nextDue)

/-- The end of `migrate`: the captured cut waits for its publication. -/
def finishMigration (plan : MigrationPlan) (fromSchema : Nat) (sequence : Nat)
    (nextDue : Option Int) (capture : Result CaptureBatch) :
    ExecutorM App Proof Checkpoint Unit :=
  match capture with
  | .error error => fenceWith error
  | .ok cuts =>
    if cuts.segments.isEmpty then
      fenceWith (.control "migration produced no LTX cut")
    else
      change fun x => { x with
        schema := plan.toSchema
        pendingMigration := some ⟨plan.toCode, fromSchema, plan.toSchema,
          plan.migration.map (·.digest), sequence, nextDue, cuts, none⟩ }

/-- `CellExecutor::migrate` (`mod.rs:934`). -/
def migrate (hash : Hash) (hooks : Hooks App) (storage : Storage) (plan : MigrationPlan)
    (now : Int) : ExecutorM App Proof Checkpoint Unit := do
  let x ← look
  rejectWhen x.fenced .fenced
  rejectWhen x.hasPending .pendingPublication
  rejectWhen (decide (now < 0) || plan.fromSchema != x.schema || !validStep hash plan x.schema)
    (.registry "invalid Cell migration plan")
  let transaction ← transact storage fun db =>
    (migrationBody sqlite (x.site hooks) plan now).outcome (.opened db)
  let (sequence, nextDue) ← checkTransaction storage.ioError transaction
  finishMigration plan x.schema sequence nextDue storage.capture

/-- `CellExecutor::bind_migration_prepared` (`mod.rs:1117`). -/
def bindMigrationPrepared (prepared : PreparedRoot) : ExecutorM App Proof Checkpoint Unit := do
  let x ← look
  match x.pendingMigration with
  | none => fail .pendingPublication
  | some pending => do
    rejectWhen (prepared.root.cell != x.cell || prepared.root.incarnation != x.incarnation
      || prepared.root.position != pending.cuts.position
      || prepared.root.commitSequence != pending.commitSequence
      || prepared.schema != pending.toSchema
      || pending.prepared.any (· != prepared.root))
      (.command "prepared root does not match pending migration")
    change fun x =>
      { x with pendingMigration := some { pending with prepared := some prepared.root } }

variable (prune : CaptureBatch → Result Unit)

/-- `CellExecutor::confirm_migration_published` (`mod.rs:1217`), for what
`prune_captured` answers. -/
def confirmMigrationPublished (root : CellRootRef) :
    ExecutorM App Proof Checkpoint MigrationOutcome := do
  let x ← look
  match x.pendingMigration with
  | none => fail .pendingPublication
  | some pending => do
    rejectWhen (pending.prepared != some root)
      (.command "published root does not match prepared migration")
    lift (prune pending.cuts)
    change fun x => { x with pendingMigration := none }
    return ⟨pending.code, pending.toSchema, pending.commitSequence⟩

/-! ## Proofs of durability and publication -/

/-- `CellExecutor::confirm_durable` (`mod.rs:897`). -/
def confirmDurable (commitSequence : Nat) : ExecutorM App Proof Checkpoint Unit := do
  let x ← look
  if decide (commitSequence ≤ x.publishedSequence)
      || x.bundleMaterialization.any (decide <| commitSequence ≤ rules.commitSequence ·) then
    return ()
  else
    match x.pending.findIdx? (·.outcome.commitSequence == commitSequence) with
    | none => fail .pendingPublication
    | some index => do
      rejectWhen ((x.pending.take index).any (!·.durable))
        (.control "durability proof skipped an earlier commit")
      change fun x => { x with
        pending := x.pending.modify index fun pending => { pending with durable := true } }

/-- `CellExecutor::bind_prepared` (`mod.rs:1050`). -/
def bindPrepared (prepared : PreparedRoot) : ExecutorM App Proof Checkpoint Unit := do
  let x ← look
  match x.pending with
  | [] => fail .pendingPublication
  | front :: rest => do
    rejectWhen (prepared.root.cell != x.cell || prepared.root.incarnation != x.incarnation
      || prepared.root.position != front.cuts.position
      || prepared.root.commitSequence != front.outcome.commitSequence
      || prepared.schema != x.schema || front.prepared.any (· != prepared.root))
      (.command "prepared root does not match pending commit")
    change fun x => { x with pending := { front with prepared := some prepared.root } :: rest }

/-- The loop of `bind_prepared_all`: the commits that the proposal covers are bound to it, up to one
that is bound to another root. Returns the queue and how many were bound. -/
def bindCovered (root : CellRootRef) : List PendingCommit → List PendingCommit × Option Nat
  | [] => ([], some 0)
  | pending :: rest =>
    if pending.outcome.commitSequence > root.commitSequence then
      (pending :: (bindCovered root rest).1, (bindCovered root rest).2)
    else if pending.prepared.any (· != root) then
      (pending :: rest, none)
    else
      ({ pending with prepared := some root } :: (bindCovered root rest).1,
        (bindCovered root rest).2.map (· + 1))

/-- `CellExecutor::bind_prepared_all` (`mod.rs:1073`), with the position of the merged
captures. -/
def bindPreparedAll (prepared : PreparedRoot) (mergedPosition : Position) :
    ExecutorM App Proof Checkpoint Nat := do
  let x ← look
  match x.pending.find? (·.outcome.commitSequence == prepared.root.commitSequence) with
  | none => fail .pendingPublication
  | some newest => do
    rejectWhen (prepared.root.cell != x.cell || prepared.root.incarnation != x.incarnation
      || prepared.root.position != mergedPosition || prepared.root.position != newest.cuts.position
      || prepared.schema != x.schema)
      (.command "prepared root does not cover pending commits")
    change fun x => { x with pending := (bindCovered prepared.root x.pending).1 }
    match (bindCovered prepared.root x.pending).2 with
    | none => fail (.command "prepared root does not cover pending commits")
    | some covered => return covered

/-- The outcomes of commits that have left the queue, with their bytes taken off. -/
def releaseAll (underflow : Error) :
    List PendingCommit → ExecutorM App Proof Checkpoint (List StoredOutcome)
  | [] => return []
  | pending :: rest => do
    let x ← look
    rejectWhen (decide (x.pendingBytes < pending.retainedBytes)) underflow
    change fun x => { x with pendingBytes := x.pendingBytes - pending.retainedBytes }
    let outcomes ← releaseAll underflow rest
    return pending.outcome :: outcomes

/-- `CellExecutor::confirm_published_range` (`mod.rs:1167`), for what `prune_captured`
answers to each batch. -/
def confirmPublishedRange (root : CellRootRef) :
    ExecutorM App Proof Checkpoint (List StoredOutcome) := do
  let x ← look
  match x.pending.findIdx? (·.outcome.commitSequence == root.commitSequence) with
  | none => fail (.command "published root does not match prepared commit")
  | some index => do
    rejectWhen ((x.pending.take (index + 1)).any (·.prepared != some root))
      (.command "published root does not cover an earlier commit")
    lift ((x.pending.take (index + 1)).forM (prune ·.cuts))
    change fun x => { x with pending := x.pending.drop (index + 1) }
    let outcomes ← releaseAll (.control "pending publication accounting underflow")
      (x.pending.take (index + 1))
    change fun x => { x with
      publishedSequence := root.commitSequence
      bundleMaterialization := x.bundleMaterialization.filter fun selected =>
        !(rules.commitSequence selected == root.commitSequence
          && rules.position selected == root.position) }
    return outcomes

/-- `CellExecutor::confirm_published` (`mod.rs:1142`). -/
def confirmPublished (root : CellRootRef) : ExecutorM App Proof Checkpoint StoredOutcome := do
  let x ← look
  rejectWhen (!x.pending.head?.any (·.outcome.commitSequence == root.commitSequence))
    (.command "published root does not match prepared commit")
  let outcomes ← confirmPublishedRange rules prune root
  match outcomes with
  | [outcome] => return outcome
  | _ => fail (.command "published root covered more than the prepared commit")

/-! ## Node bundles -/

/-- The checks of `release_bundle_captures` on each commit and its capture. -/
def verifyCaptures (x : CellExecutor App Proof Checkpoint) (selected : Proof) :
    List PendingCommit → List Capture → Result Unit
  | pending :: rest, capture :: captures => do
    reject (pending.prepared.isSome
      || rules.binding (rules.selected capture) != rules.binding selected)
      (.control "bundle cleanup changes publication ownership")
    rules.verifyPending x.cell x.incarnation capture pending
    verifyCaptures x selected rest captures
  | _, _ => return ()

/-- The check of `release_bundle_captures` against the bundle that was released before. -/
def continuesPrevious (x : CellExecutor App Proof Checkpoint) (selected : Proof) : Result Unit :=
  match x.bundleMaterialization with
  | none => .ok ()
  | some previous => rules.continuesSelectedPrefix selected previous x.bundleCheckpoint

/-- `CellExecutor::release_bundle_captures` (`bundle.rs:7`). -/
def releaseBundleCaptures (captures : List Capture) :
    ExecutorM App Proof Checkpoint (List StoredOutcome) := do
  let x ← look
  rejectWhen (x.fenced || x.pendingMigration.isSome) .pendingPublication
  match captures.getLast? with
  | none => fail (.control "bundle cleanup lacks captures")
  | some newest =>
    match x.pending[captures.length - 1]? with
    | none => fail .pendingPublication
    | some pending => do
      let selected := rules.selected newest
      lift (continuesPrevious rules x selected)
      rejectWhen (rules.commitSequence selected != pending.outcome.commitSequence
        || rules.position selected != pending.cuts.position)
        (.control "bundle cleanup endpoint differs")
      lift (verifyCaptures rules x selected x.pending captures)
      lift ((x.pending.take captures.length).forM (prune ·.cuts))
      change fun x => { x with pending := x.pending.drop captures.length }
      let outcomes ← releaseAll (.control "bundle cleanup accounting underflow")
        (x.pending.take captures.length)
      change fun x => { x with bundleMaterialization := some selected }
      return outcomes

/-- `CellExecutor::bind_bundle_materialized` (`bundle.rs:64`). -/
def bindBundleMaterialized (root : CellRootRef)
    (original : Proof) : ExecutorM App Proof Checkpoint Unit := do
  let x ← look
  match x.bundleMaterialization with
  | none => fail .pendingPublication
  | some selected => do
    rejectWhen (root.cell != x.cell || root.incarnation != x.incarnation
      || root.commitSequence != rules.commitSequence original
      || root.position != rules.position original)
      (.control "materialized root differs from bundle cleanup")
    lift (rules.continuesSelectedPrefix selected original x.bundleCheckpoint)
    let checkpoint ← lift (rules.materializedPrefix original root x.bundleCheckpoint)
    lift (rules.shrinkRetained checkpoint)
    change fun x => { x with
      publishedSequence := root.commitSequence
      bundleCheckpoint := some checkpoint
      bundleMaterialization := if rules.commitSequence selected = root.commitSequence then none
        else x.bundleMaterialization }

end CellExecutor

end Cellule
