import Cellule.Cell.Tables

/-!
# Commands and the request ledger

A command (`cell/executor/`) runs its handler in the open transaction and records its outcome in
`sys_requests`. A handler is any function of the database that the transaction shows; it may fail
after it wrote, and SQLite may end the transaction under it (`Txn.ended`). `applyMutation_ok` says
what `applyMutation` can do: fail, replay a row (`Replays`) without a change, or commit (`Commits`).
-/

namespace Cellule

open Except Stateful

/-! ## Identities of mutations -/

/-- The largest result that the wire takes (`MAX_WIRE_BYTES`, `codec.rs:3`). -/
def maxResultBytes : Nat := 4 * 1024 * 1024 + 64 * 1024

/-- `MAX_REQUEST_LIFETIME_MS`. -/
def maxRequestLifetimeMs : Int := 24 * 60 * 60 * 1000

/-- `MAX_ISSUED_FUTURE_MS`. -/
def maxIssuedFutureMs : Int := 5 * 60 * 1000

/-- `REQUEST_RETENTION_MS`. -/
def requestRetentionMs : Int := 24 * 60 * 60 * 1000

/-- The identity that a caller keeps across retries (`MutationIdentity`, `mod.rs:26`). -/
structure MutationIdentity where
  requestId : RequestId
  issuedAt : Int
  expiresAt : Int
  deriving DecidableEq

namespace MutationIdentity

/-- `MutationIdentity::validate_bounds` (`mod.rs:44`). -/
def validateBounds (identity : MutationIdentity) (now : Int) : Result Unit :=
  reject (decide (now < 0) || decide (identity.issuedAt < 0)
    || decide (identity.expiresAt ≤ identity.issuedAt)
    || decide (identity.expiresAt - identity.issuedAt > maxRequestLifetimeMs)
    || decide (identity.issuedAt > saturatingAddInt now maxIssuedFutureMs))
    (.command "invalid mutation identity lifetime")

/-- `MutationIdentity::validate` (`mod.rs:36`). -/
def validate (identity : MutationIdentity) (now : Int) : Result Unit := do
  identity.validateBounds now
  reject (decide (identity.expiresAt ≤ now)) (.command "invalid mutation identity lifetime")

/-- `MutationIdentity::expired` (`mod.rs:56`). -/
def expired (identity : MutationIdentity) (now : Int) : Result Bool := do
  identity.validateBounds now
  return decide (identity.expiresAt ≤ now)

/-- An identity that passes has not expired, and the clock is not negative. -/
theorem validate_ok {identity : MutationIdentity}
    (h : identity.validate now = .ok u) : now < identity.expiresAt ∧ 0 ≤ now := by
  obtain ⟨_, hbounds, h⟩ := bind_eq_ok.1 h
  rw [validateBounds, reject_eq_ok] at hbounds
  rw [reject_eq_ok] at h
  simp only [Bool.or_eq_false_iff, decide_eq_false_iff_not, not_lt, not_le] at hbounds h
  exact ⟨h, hbounds.1.1.1.1⟩

end MutationIdentity

/-! ## Outcomes -/

/-- The decision of a handler. -/
inductive HandlerOutcome where
  | success (result : Bytes)
  | rejected (result : Bytes)
  deriving DecidableEq

/-- A result stored in a ledger. -/
inductive StoredOutcome where
  | success (result : Bytes) (commitSequence : Nat)
  | rejected (result : Bytes) (commitSequence : Nat)
  deriving DecidableEq

namespace StoredOutcome

/-- `StoredOutcome::commit_sequence`. -/
def commitSequence : StoredOutcome → Nat
  | success _ n => n
  | rejected _ n => n

/-- `StoredOutcome::result`. -/
def result : StoredOutcome → Bytes
  | success bytes _ => bytes
  | rejected bytes _ => bytes

/-- The verdict of an outcome. -/
def verdict : StoredOutcome → Verdict
  | success _ _ => .success
  | rejected _ _ => .rejected

end StoredOutcome

/-- The outcome that a verdict, its bytes and its sequence make. -/
def Verdict.stored (verdict : Verdict) (result : Bytes) (sequence : Nat) : StoredOutcome :=
  match verdict with
  | success => .success result sequence
  | rejected => .rejected result sequence

/-- A stored outcome has its sequence. -/
@[simp] theorem Verdict.stored_commitSequence (verdict : Verdict) (result : Bytes) (n : Nat) :
    (verdict.stored result n).commitSequence = n := by
  cases verdict <;> rfl

/-- A stored outcome has its result. -/
@[simp] theorem Verdict.stored_result (verdict : Verdict) (result : Bytes) (n : Nat) :
    (verdict.stored result n).result = result := by
  cases verdict <;> rfl

/-- A stored outcome has its verdict. -/
@[simp] theorem Verdict.stored_verdict (verdict : Verdict) (result : Bytes) (n : Nat) :
    (verdict.stored result n).verdict = verdict := by
  cases verdict <;> rfl

/-- An outcome is given by its parts. -/
@[simp] theorem StoredOutcome.stored_parts (o : StoredOutcome) :
    o.verdict.stored o.result o.commitSequence = o := by
  cases o <;> rfl

/-- `stored_outcome` (`mod.rs:1599`). -/
def storedOutcome (verdict : Verdict) (result : Bytes) (sequence : Nat) : Result StoredOutcome := do
  reject (decide (result.length > maxResultBytes) || sequence == 0)
    (.command "invalid stored request outcome")
  return verdict.stored result sequence

/-- What `apply_mutation` leaves to publish (`TransactionResult`, `mod.rs:1589`). -/
inductive TransactionResult where
  | recorded (outcome : StoredOutcome)
  | committed (outcome : StoredOutcome) (logicalTime : Int) (nextDue : Option Int)
  deriving DecidableEq

/-- The outcome that a command is answered with. -/
def TransactionResult.outcome : TransactionResult → StoredOutcome
  | recorded o => o
  | committed o _ _ => o

/-- A stored outcome that is returned is that of the verdict. -/
theorem storedOutcome_ok {sequence : Nat} (h : storedOutcome verdict result sequence = .ok o) :
    o = verdict.stored result sequence ∧ result.length ≤ maxResultBytes := by
  unfold storedOutcome at h
  rw [reject_bind_eq_ok] at h
  obtain ⟨hchecks, h⟩ := h
  simp only [Bool.or_eq_false_iff, decide_eq_false_iff_not, not_lt] at hchecks
  exact ⟨(ok.inj h).symm, hchecks.1⟩

/-- The transaction that a callback has: open, with the database in it, or ended by SQLite, with the
database that the callback wrote outside of it, if it did. -/
inductive Txn (App : Type) where
  | opened (db : CellDb App)
  | ended (stray : Option (CellDb App))

/-- `Transaction::is_autocommit`. -/
def Txn.isAutocommit {App : Type} : Txn App → Bool
  | opened _ => false
  | ended _ => true

/-- A handler: what it returns and the transaction it leaves, from the database it is shown. -/
abbrev Handler (App : Type) : Type := CellDb App → Result HandlerOutcome × Txn App

/-- One command (`NativeCommand`, `group.rs:17`). -/
structure NativeCommand (App : Type) where
  identity : MutationIdentity
  operationDigest : Digest
  now : Int
  maxResultBytes : Nat
  handler : Handler App

/-- What other modules compute from the database before a commit: `capacity::validate_installed` and
`scheduler_next_due_with_schema`. -/
structure Hooks (App : Type) where
  validateInstalled : CellDb App → Result Unit
  nextDue : CellDb App → Int → Result (Option Int)

/-- The identity of the database that an executor owns, with the hooks. -/
structure Site (App : Type) extends Hooks App where
  cell : CellId
  incarnation : IncarnationId
  schema : Nat

section
variable {App : Type}

/-- The database as an open transaction shows it; a statement fails once the transaction has
ended. -/
def view : Stateful Error (Txn App) (CellDb App) := fun txn =>
  match txn with
  | .opened db => (.ok db, .opened db)
  | .ended stray => (.error .sqlite, .ended stray)

/-- A statement that writes. It also stands for `ROLLBACK TO`, which writes the saved database
back. -/
def write (f : CellDb App → CellDb App) : Stateful Error (Txn App) Unit := fun txn =>
  match txn with
  | .opened db => (.ok (), .opened (f db))
  | .ended stray => (.error .sqlite, .ended stray)

/-- Runs a handler. -/
def runHandler (handler : Handler App) : Stateful Error (Txn App) HandlerOutcome := fun txn =>
  match txn with
  | .opened db => handler db
  | .ended stray => (.error .sqlite, .ended stray)

/-- A read of an open transaction. -/
theorem outcome_view_bind (f : CellDb App → Stateful Error (Txn App) α) (db : CellDb App) :
    (view >>= f).outcome (.opened db) = (f db).outcome (.opened db) := rfl

/-- A write in an open transaction. -/
theorem outcome_write_bind (g : CellDb App → CellDb App)
    (f : Unit → Stateful Error (Txn App) α) (db : CellDb App) :
    (write g >>= f).outcome (.opened db) = (f ()).outcome (.opened (g db)) := rfl

/-- Nothing was written after SQLite had ended the transaction. -/
def Txn.Clean : Txn App → Prop
  | .opened _ => True
  | .ended stray => stray = none

/-- A read writes nothing. -/
theorem view_clean : (view : Stateful Error (Txn App) _).Keeps Txn.Clean
  | .opened _, h => h
  | .ended _, h => h

/-- A write is in the transaction. -/
theorem write_clean : (write f).Keeps Txn.Clean
  | .opened _, h => h
  | .ended _, h => h

/-- A handler that is clean runs clean. -/
theorem runHandler_clean {handler : Handler App} (h : ∀ db, (handler db).2.Clean) :
    (runHandler handler).Keeps Txn.Clean
  | .opened db, _ => h db
  | .ended _, hended => hended

end

/-! ## Applying a command -/

/-- The answer that a stored row gives to the command presented again. -/
def LedgerRow.replay (row : LedgerRow) (operationDigest : Digest) (limit : Nat) :
    Result TransactionResult := do
  reject (row.operationDigest != operationDigest) .requestConflict
  let outcome ← storedOutcome row.verdict row.result row.commitSequence
  reject (decide (outcome.result.length > limit)) (.command "stored result exceeds command limit")
  return .recorded outcome

section
variable {App : Type}

/-- Ends the savepoint of the handler: a rejection rolls back to the database saved there. -/
def settle (saved : CellDb App) :
    HandlerOutcome → Stateful Error (Txn App) (Verdict × Bytes)
  | .success result => do
    let _ ← view
    return (.success, result)
  | .rejected result => do
    write fun _ => saved
    return (.rejected, result)

/-- `INSERT INTO sys_requests`, which fails on a key that is there. -/
def insertRequest (id : RequestId) (row : LedgerRow) : Stateful Error (Txn App) Unit := do
  let db ← view
  rejectWhen (db.requests.get? id).isSome .sqlite
  write fun db => db.withRequest id row

/-- `checked_add(1)` of a commit sequence, an `i64`. -/
def nextSequence (sequence : Nat) : Result Nat :=
  if sequence + 1 ≤ i64Max then .ok (sequence + 1) else .error (.command "commit sequence overflow")

/-- `identity.expires_at_ms.checked_add(REQUEST_RETENTION_MS)`. -/
def MutationIdentity.retainUntil (identity : MutationIdentity) : Result Int :=
  match checkedAddInt identity.expiresAt requestRetentionMs with
  | some t => .ok t
  | none => .error (.command "request retention overflow")

/-- The part of `apply_mutation` that runs the handler, for a request without a row. -/
def applyFresh (site : Site App) (command : NativeCommand App) (commitSequence : Nat)
    (priorLogicalTime : Int) : Stateful Error (Txn App) TransactionResult := do
  let sequence ← lift (nextSequence commitSequence)
  let logicalTime := max command.now priorLogicalTime
  let saved ← view
  let decision ← runHandler command.handler
  let (verdict, result) ← settle saved decision
  rejectWhen (decide (result.length > command.maxResultBytes))
    (.command "handler result exceeds command limit")
  let retainUntil ← lift command.identity.retainUntil
  insertRequest command.identity.requestId
    ⟨command.operationDigest, verdict, result, sequence, command.identity.expiresAt, retainUntil⟩
  write fun db => db.advance sequence logicalTime
  let db ← view
  lift (site.validateInstalled db)
  let nextDue ← lift (site.nextDue db logicalTime)
  let outcome ← lift (storedOutcome verdict result sequence)
  return .committed outcome logicalTime nextDue

/-- `apply_mutation` (`mod.rs:1406`). -/
def applyMutation (site : Site App) (command : NativeCommand App) :
    Stateful Error (Txn App) TransactionResult := do
  rejectWhen (decide (command.maxResultBytes > Cellule.maxResultBytes))
    (.command "result exceeds wire limit")
  lift (command.identity.validate command.now)
  let db ← view
  let (commitSequence, priorLogicalTime) ←
    lift (db.runtimeMetadata site.cell site.incarnation site.schema)
  match db.requests.get? command.identity.requestId with
  | some row => lift (row.replay command.operationDigest command.maxResultBytes)
  | none => applyFresh site command commitSequence priorLogicalTime

/-! ## What a command can do -/

/-- The verdict of a decision. -/
def HandlerOutcome.verdict : HandlerOutcome → Verdict
  | success _ => .success
  | rejected _ => .rejected

/-- The bytes of a decision. -/
def HandlerOutcome.result : HandlerOutcome → Bytes
  | success bytes => bytes
  | rejected bytes => bytes

/-- The database after the savepoint: what the handler left, or what was saved. -/
def HandlerOutcome.kept (decision : HandlerOutcome) (saved after : CellDb App) : CellDb App :=
  match decision with
  | success _ => after
  | rejected _ => saved

variable {α : Type} {db : CellDb App} {txn : Txn App} {r : TransactionResult} {site : Site App}
  {command : NativeCommand App}

/-- The savepoint keeps or undoes what a handler wrote. -/
theorem outcome_settle_bind (saved after : CellDb App) (decision : HandlerOutcome)
    (f : Verdict × Bytes → Stateful Error (Txn App) α) :
    (settle saved decision >>= f).outcome (.opened after)
      = (f (decision.verdict, decision.result)).outcome (.opened (decision.kept saved after)) := by
  cases decision <;> rfl

/-- A handler that decided left the transaction open, and the savepoint kept its database or the one
saved. -/
theorem outcome_handled_ok
    (h : (runHandler handler >>= fun decision => settle saved decision >>= f).outcome (.opened db)
      = (.ok a, txn)) :
    ∃ decision after, handler db = (.ok decision, .opened after) ∧
      (f (decision.verdict, decision.result)).outcome (.opened (decision.kept saved after))
        = (.ok a, txn) := by
  rw [outcome_bind] at h
  rcases hhandler : handler db with ⟨x, txn'⟩
  have hrun : (runHandler handler).outcome (.opened db) = (x, txn') := hhandler
  rw [hrun] at h
  cases x with
  | error e => cases h
  | ok decision =>
    cases txn' with
    | ended stray => cases decision <;> cases h
    | opened after => exact ⟨decision, after, rfl, outcome_settle_bind saved after decision f ▸ h⟩

/-- Storing a request fails where there is one. -/
theorem outcome_insertRequest_bind (id : RequestId) (row : LedgerRow)
    (f : Unit → Stateful Error (Txn App) α) (db : CellDb App) :
    (insertRequest id row >>= f).outcome (.opened db)
      = if (db.requests.get? id).isSome then (.error .sqlite, .opened db)
        else (f ()).outcome (.opened (db.withRequest id row)) := by
  have hview : (insertRequest id row >>= f).outcome (.opened db)
      = ((rejectWhen (db.requests.get? id).isSome .sqlite >>= fun _ =>
          write fun db : CellDb App => db.withRequest id row) >>= f).outcome (.opened db) := rfl
  rw [hview, bind_assoc, outcome_rejectWhen_bind]
  rfl

/-- The row that records a decision. -/
def NativeCommand.row (command : NativeCommand App) (decision : HandlerOutcome) (sequence : Nat) :
    LedgerRow where
  operationDigest := command.operationDigest
  verdict := decision.verdict
  result := decision.result
  commitSequence := sequence
  expiresAt := command.identity.expiresAt
  retainUntil := command.identity.expiresAt + requestRetentionMs

/-- The command is answered from its row. -/
structure Replays (command : NativeCommand App) (db : CellDb App) (o : StoredOutcome) : Prop where
  row : ∃ row, db.requests.get? command.identity.requestId = some row ∧
    row.operationDigest = command.operationDigest ∧
    o = row.verdict.stored row.result row.commitSequence

/-- The command commits: its handler decided, the decision was recorded in what the savepoint kept,
and the metadata moved on by one. -/
structure Commits (command : NativeCommand App) (db : CellDb App) (o : StoredOutcome)
    (logicalTime : Int) (db' : CellDb App) (decision : HandlerOutcome) (after : CellDb App) :
    Prop where
  fresh : db.requests.get? command.identity.requestId = none
  handled : command.handler db = (.ok decision, .opened after)
  free : (decision.kept db after).requests.get? command.identity.requestId = none
  outcome : o = decision.verdict.stored decision.result (db.sysMeta.commitSequence + 1)
  fits : decision.result.length ≤ maxResultBytes
  time : logicalTime = max command.now db.sysMeta.logicalTime
  left : db' = ((decision.kept db after).withRequest command.identity.requestId
      (command.row decision (db.sysMeta.commitSequence + 1))).advance
    (db.sysMeta.commitSequence + 1) logicalTime

/-- A replay answers with the outcome of the row. -/
theorem LedgerRow.replay_ok {row : LedgerRow} {limit : Nat} (h : row.replay digest limit = .ok r) :
    row.operationDigest = digest ∧ row.result.length ≤ limit ∧
      r = .recorded (row.verdict.stored row.result row.commitSequence) := by
  unfold LedgerRow.replay at h
  obtain ⟨hdigest, h⟩ := reject_bind_eq_ok.1 h
  obtain ⟨o, ho, h⟩ := bind_eq_ok.1 h
  obtain ⟨hlimit, h⟩ := reject_bind_eq_ok.1 h
  rw [(storedOutcome_ok ho).1] at hlimit h
  simp only [Verdict.stored_result, decide_eq_false_iff_not, not_lt] at hlimit
  exact ⟨bne_eq_false_iff_eq.1 hdigest, hlimit, (ok.inj h).symm⟩

/-- A row is kept for the retention after the expiry. -/
theorem MutationIdentity.retainUntil_ok {identity : MutationIdentity}
    (h : identity.retainUntil = .ok t) : t = identity.expiresAt + requestRetentionMs := by
  unfold MutationIdentity.retainUntil checkedAddInt at h
  split at h
  · next hsome =>
    split at hsome
    · exact (ok.inj h).symm.trans (Option.some.inj hsome).symm
    · cases hsome
  · cases h

/-- The next sequence is one more. -/
theorem nextSequence_ok (h : nextSequence n = .ok m) : m = n + 1 := by
  unfold nextSequence at h
  split at h
  · exact (ok.inj h).symm
  · cases h

/-- What the part that runs the handler can do. -/
theorem applyFresh_ok (hfresh : db.requests.get? command.identity.requestId = none)
    (h : (applyFresh site command db.sysMeta.commitSequence db.sysMeta.logicalTime).outcome
      (.opened db) = (.ok r, txn)) :
    ∃ o t due db' decision after, r = .committed o t due ∧ txn = .opened db' ∧
      Commits command db o t db' decision after ∧ site.nextDue db' t = .ok due := by
  obtain ⟨sequence, hseq, h⟩ := outcome_lift_bind_ok.1 h
  obtain rfl := nextSequence_ok hseq
  rw [outcome_view_bind] at h
  obtain ⟨decision, after, hhandler, h⟩ := outcome_handled_ok h
  obtain ⟨-, h⟩ := outcome_rejectWhen_bind_ok.1 h
  obtain ⟨retainUntil, hretain, h⟩ := outcome_lift_bind_ok.1 h
  obtain rfl := MutationIdentity.retainUntil_ok hretain
  rw [outcome_insertRequest_bind] at h
  split at h
  · cases h
  next hfree =>
  rw [outcome_write_bind, outcome_view_bind] at h
  obtain ⟨_, -, h⟩ := outcome_lift_bind_ok.1 h
  obtain ⟨due, hdue, h⟩ := outcome_lift_bind_ok.1 h
  obtain ⟨o, ho, h⟩ := outcome_lift_bind_ok.1 h
  rw [outcome_pure, Prod.mk.injEq] at h
  refine ⟨o, _, due, _, decision, after, (ok.inj h.1).symm, h.2.symm, ?_, hdue⟩
  obtain ⟨houtcome, hfits⟩ := storedOutcome_ok ho
  exact ⟨hfresh, hhandler, by simpa using hfree, houtcome, hfits, rfl, rfl⟩

/-- What a command that succeeds did: it was answered from its row, or it committed. -/
theorem applyMutation_ok (h : (applyMutation site command).outcome (.opened db) = (.ok r, txn)) :
    command.identity.validate command.now = .ok () ∧ 0 ≤ db.sysMeta.logicalTime ∧
      ((∃ o, r = .recorded o ∧ txn = .opened db ∧ Replays command db o) ∨
        ∃ o t due db' decision after, r = .committed o t due ∧ txn = .opened db' ∧
          Commits command db o t db' decision after ∧ site.nextDue db' t = .ok due) := by
  obtain ⟨-, h⟩ := outcome_rejectWhen_bind_ok.1 h
  obtain ⟨_, hvalid, h⟩ := outcome_lift_bind_ok.1 h
  rw [outcome_view_bind] at h
  obtain ⟨m, hmeta, h⟩ := outcome_lift_bind_ok.1 h
  obtain ⟨rfl, htime⟩ := CellDb.runtimeMetadata_ok hmeta
  dsimp only at h
  refine ⟨hvalid, htime, ?_⟩
  split at h
  · next row hrow =>
    have hreplay : (row.replay command.operationDigest command.maxResultBytes, Txn.opened db)
        = (.ok r, txn) := h
    obtain ⟨hok, htxn⟩ := Prod.mk.inj hreplay
    obtain ⟨hdigest, -, rfl⟩ := LedgerRow.replay_ok hok
    exact .inl ⟨_, rfl, htxn.symm, ⟨row, hrow, hdigest, rfl⟩⟩
  · next hrow => exact .inr (applyFresh_ok hrow h)

/-- Settling writes only in the transaction. -/
theorem settle_clean (decision : HandlerOutcome) : (settle saved decision).Keeps Txn.Clean := by
  cases decision with
  | success bytes => exact view_clean.bind fun _ => keeps_pure
  | rejected bytes => exact write_clean.bind fun _ => keeps_pure

/-- A command writes nothing after its transaction has ended, if its handler does not. -/
theorem applyMutation_clean (h : ∀ db, (command.handler db).2.Clean) :
    (applyMutation site command).Keeps Txn.Clean := by
  refine keeps_rejectWhen.bind fun _ => keeps_lift.bind fun _ => view_clean.bind fun db =>
    keeps_lift.bind fun m => ?_
  dsimp only
  split
  · exact keeps_lift
  exact keeps_lift.bind fun _ => view_clean.bind fun _ => (runHandler_clean h).bind fun decision =>
    (settle_clean decision).bind fun _ => keeps_rejectWhen.bind fun _ => keeps_lift.bind fun _ =>
    (view_clean.bind fun _ => keeps_rejectWhen.bind fun _ => write_clean).bind fun _ =>
      write_clean.bind fun _ => view_clean.bind fun _ =>
    keeps_lift.bind fun _ => keeps_lift.bind fun _ => keeps_lift.bind fun _ => keeps_pure

end

end Cellule
