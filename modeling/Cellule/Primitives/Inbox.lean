import Cellule.Cell.Ledger

/-!
# The inbox of a destination

A delivery applies an effect in the destination Cell and leaves a receipt in `sys_inbox`
(`primitives/effects/`), which answers later deliveries until the clean-up deletes it.
`inboxApply_ok` says what a delivery can do to the receipt, `deliverMutation_ok` what its
transaction can do.
-/

namespace Cellule

open Except Stateful

/-- `MAX_EFFECT_BYTES` (`mod.rs:30`). -/
def maxEffectBytes : Nat := 2 ^ 20

/-- `MAX_RECLAIM_ITEMS`. -/
def maxReclaimItems : Nat := 128

/-- `INBOX_RETENTION_MS`. -/
def inboxRetentionMs : Int := 7 * 24 * 60 * 60 * 1000

/-- The identity and expiry that a delivery carries (`InboxDelivery`, `mod.rs:402`). -/
structure InboxDelivery where
  effectId : Digest
  operationDigest : Digest
  expiresAt : Int
  deriving DecidableEq

/-- The result of a delivery; an applied effect says if it was a duplicate (`InboxApplyOutcome`,
`mod.rs:413`). -/
inductive InboxApplyOutcome where
  | applied (outcome : StoredOutcome) (duplicate : Bool)
  | conflict
  | expired
  deriving DecidableEq

/-- `validate_now` (`mod.rs:933`). -/
def validateEffectNow (now : Int) : Result Unit :=
  reject (decide (now < 0)) (.command "effect time must be non-negative")

/-- `stored_inbox_outcome` (`mod.rs:881`). -/
def storedInboxOutcome (verdict : Verdict) (result : Bytes) (sequence limit : Nat) :
    Result StoredOutcome := do
  reject (decide (result.length > limit) || sequence == 0) (.command "invalid stored inbox outcome")
  return verdict.stored result sequence

/-- The answer that a receipt gives. -/
def LedgerRow.redeliver (row : LedgerRow) (delivery : InboxDelivery) (limit : Nat) :
    Result InboxApplyOutcome :=
  if row.operationDigest ≠ delivery.operationDigest ∨ row.expiresAt ≠ delivery.expiresAt then
    .ok .conflict
  else do
    let outcome ← storedInboxOutcome row.verdict row.result row.commitSequence limit
    return .applied outcome true

/-- `delivery.expires_at_ms.checked_add(INBOX_RETENTION_MS)`. -/
def InboxDelivery.retainUntil (delivery : InboxDelivery) : Result Int :=
  match checkedAddInt delivery.expiresAt inboxRetentionMs with
  | some t => .ok t
  | none => .error (.command "effect inbox retention overflow")

section
variable {App : Type}

/-- `INSERT INTO sys_inbox`, which fails on a key that is there. -/
def insertReceipt (id : Digest) (row : LedgerRow) : Stateful Error (Txn App) Unit := do
  let db ← view
  rejectWhen (db.inbox.get? id).isSome .sqlite
  write fun db => { db with inbox := db.inbox.insert id row }

/-- The part of `inbox_apply` that runs the handler, for an effect without a receipt.
`commit_sequence + 1` leaves the integers at the largest `i64`. -/
def applyFreshDelivery (delivery : InboxDelivery) (limit : Nat) (handler : Handler App)
    (saved : CellDb App) : Stateful Error (Txn App) InboxApplyOutcome := do
  rejectWhen (decide (saved.sysMeta.commitSequence + 1 > i64Max)) .sqlite
  let decision ← runHandler handler
  let (verdict, result) ← settle saved decision
  rejectWhen (decide (result.length > limit)) (.command "effect handler result exceeds limit")
  let retainUntil ← lift delivery.retainUntil
  insertReceipt delivery.effectId ⟨delivery.operationDigest, verdict, result,
    saved.sysMeta.commitSequence + 1, delivery.expiresAt, retainUntil⟩
  let outcome ← lift (storedInboxOutcome verdict result (saved.sysMeta.commitSequence + 1) limit)
  return .applied outcome false

/-- The part of `inbox_apply` after the expiry check. -/
def applyLiveDelivery (delivery : InboxDelivery) (limit : Nat) (handler : Handler App) :
    Stateful Error (Txn App) InboxApplyOutcome := do
  rejectWhen (decide (limit > maxEffectBytes)) (.command "effect result limit exceeds 1 MiB")
  let db ← view
  match db.inbox.get? delivery.effectId with
  | some row => lift (row.redeliver delivery limit)
  | none => applyFreshDelivery delivery limit handler db

/-- `inbox_apply` (`mod.rs:549`). -/
def inboxApply (now : Int) (delivery : InboxDelivery) (limit : Nat) (handler : Handler App) :
    Stateful Error (Txn App) InboxApplyOutcome := do
  lift (validateEffectNow now)
  if delivery.expiresAt ≤ now then
    return .expired
  else
    applyLiveDelivery delivery limit handler

/-- The end of the transaction of `deliver_effect`, once the effect is applied. -/
def finishDelivery (site : Site App) (now : Int) (commitSequence : Nat) (priorLogicalTime : Int)
    (outcome : StoredOutcome) : Stateful Error (Txn App) TransactionResult := do
  let sequence ← lift (nextSequence commitSequence)
  rejectWhen (outcome.commitSequence != sequence)
    (.command "effect inbox sequence does not follow Cell state")
  let logicalTime := max now priorLogicalTime
  write fun db => db.advance sequence logicalTime
  let db ← view
  lift (site.validateInstalled db)
  let nextDue ← lift (site.nextDue db logicalTime)
  return .committed outcome logicalTime nextDue

/-- The transaction of `CellExecutor::deliver_effect` (`cell/executor/mod.rs:545`). -/
def deliverMutation (site : Site App) (now : Int) (delivery : InboxDelivery) (limit : Nat)
    (handler : Handler App) : Stateful Error (Txn App) TransactionResult := do
  let db ← view
  let (commitSequence, priorLogicalTime) ←
    lift (db.runtimeMetadata site.cell site.incarnation site.schema)
  let applied ← inboxApply now delivery limit handler
  match applied with
  | .conflict => fail .requestConflict
  | .expired => fail .effectExpired
  | .applied outcome true => return .recorded outcome
  | .applied outcome false => finishDelivery site now commitSequence priorLogicalTime outcome

/-- The receipts that `inbox_cleanup_expired_bounded` deletes. -/
def expiredReceipts (now : Int) (limit : Nat) (db : CellDb App) : List (Digest × LedgerRow) :=
  db.inbox.select (fun e => decide (e.2.retainUntil ≤ now)) (fun e => e.2.retainUntil) limit

/-- `inbox_cleanup_expired_bounded` (`mod.rs:710`): the number of receipts deleted,
and the database without them. -/
def inboxCleanupExpiredBounded (now : Int) (limit : Nat) (db : CellDb App) :
    Result (Nat × CellDb App) := do
  validateEffectNow now
  reject (decide (limit > maxReclaimItems)) (.command "effect maintenance limit exceeds 128")
  let expired := expiredReceipts now limit db
  return (expired.length, { db with inbox := db.inbox.deleteKeys (expired.map (·.1)) })

/-! ## What a delivery can do -/

/-- The receipt that records a decision. -/
def InboxDelivery.receipt (delivery : InboxDelivery) (decision : HandlerOutcome) (sequence : Nat) :
    LedgerRow where
  operationDigest := delivery.operationDigest
  verdict := decision.verdict
  result := decision.result
  commitSequence := sequence
  expiresAt := delivery.expiresAt
  retainUntil := delivery.expiresAt + inboxRetentionMs

/-- The delivery is answered from its receipt. -/
structure Redelivers (delivery : InboxDelivery) (db : CellDb App) (o : StoredOutcome) : Prop where
  row : ∃ row, db.inbox.get? delivery.effectId = some row ∧
    row.operationDigest = delivery.operationDigest ∧ row.expiresAt = delivery.expiresAt ∧
    o = row.verdict.stored row.result row.commitSequence

/-- The delivery is applied: its handler ran on the database and decided, and the receipt was stored
in what the savepoint kept. -/
structure Delivers (delivery : InboxDelivery) (handler : Handler App) (db : CellDb App)
    (o : StoredOutcome) (db' : CellDb App) (decision : HandlerOutcome) (after : CellDb App) :
    Prop where
  fresh : db.inbox.get? delivery.effectId = none
  handled : handler db = (.ok decision, .opened after)
  free : (decision.kept db after).inbox.get? delivery.effectId = none
  outcome : o = decision.verdict.stored decision.result (db.sysMeta.commitSequence + 1)
  left : db' = { decision.kept db after with
    inbox := (decision.kept db after).inbox.insert delivery.effectId
      (delivery.receipt decision (db.sysMeta.commitSequence + 1)) }

variable {limit : Nat} {delivery : InboxDelivery} {r : InboxApplyOutcome} {handler : Handler App}
  {db : CellDb App} {txn : Txn App} {now : Int} {site : Site App}

/-- A stored outcome that is returned is that of the verdict. -/
theorem storedInboxOutcome_ok {sequence : Nat}
    (h : storedInboxOutcome verdict result sequence limit = .ok o) :
    o = verdict.stored result sequence := by
  unfold storedInboxOutcome at h
  rw [reject_bind_eq_ok] at h
  exact (ok.inj h.2).symm

/-- A receipt is kept for the retention after the expiry. -/
theorem InboxDelivery.retainUntil_ok (h : delivery.retainUntil = .ok t) :
    t = delivery.expiresAt + inboxRetentionMs := by
  unfold InboxDelivery.retainUntil checkedAddInt at h
  split at h
  · next hsome =>
    split at hsome
    · exact (ok.inj h).symm.trans (Option.some.inj hsome).symm
    · cases hsome
  · cases h

/-- A receipt answers a conflict, or the stored outcome as a duplicate. -/
theorem LedgerRow.redeliver_ok {row : LedgerRow} (h : row.redeliver delivery limit = .ok r) :
    r = .conflict ∧
        (row.operationDigest ≠ delivery.operationDigest ∨ row.expiresAt ≠ delivery.expiresAt) ∨
      r = .applied (row.verdict.stored row.result row.commitSequence) true ∧
        row.operationDigest = delivery.operationDigest ∧ row.expiresAt = delivery.expiresAt := by
  unfold LedgerRow.redeliver at h
  split at h
  · next hdiffers => exact .inl ⟨(ok.inj h).symm, hdiffers⟩
  · next hsame =>
    obtain ⟨o, ho, h⟩ := bind_eq_ok.1 h
    rw [storedInboxOutcome_ok ho] at h
    rw [not_or, not_not, not_not] at hsame
    exact .inr ⟨(ok.inj h).symm, hsame⟩

/-- Storing a receipt fails where there is one. -/
theorem outcome_insertReceipt_bind (id : Digest) (row : LedgerRow)
    (f : Unit → Stateful Error (Txn App) α) (db : CellDb App) :
    (insertReceipt id row >>= f).outcome (.opened db)
      = if (db.inbox.get? id).isSome then (.error .sqlite, .opened db)
        else (f ()).outcome (.opened { db with inbox := db.inbox.insert id row }) := by
  have hview : (insertReceipt id row >>= f).outcome (.opened db)
      = ((rejectWhen (db.inbox.get? id).isSome .sqlite >>= fun _ =>
          write fun db : CellDb App => { db with inbox := db.inbox.insert id row }) >>= f).outcome
        (.opened db) := rfl
  rw [hview, bind_assoc, outcome_rejectWhen_bind]
  rfl

/-- A delivery without a receipt is applied. -/
theorem applyFreshDelivery_ok (hfresh : db.inbox.get? delivery.effectId = none)
    (h : (applyFreshDelivery delivery limit handler db).outcome (.opened db) = (.ok r, txn)) :
    ∃ o db' decision after, r = .applied o false ∧ txn = .opened db' ∧
      Delivers delivery handler db o db' decision after := by
  obtain ⟨-, h⟩ := outcome_rejectWhen_bind_ok.1 h
  obtain ⟨decision, after, hhandler, h⟩ := outcome_handled_ok h
  obtain ⟨-, h⟩ := outcome_rejectWhen_bind_ok.1 h
  obtain ⟨retainUntil, hretain, h⟩ := outcome_lift_bind_ok.1 h
  obtain rfl := InboxDelivery.retainUntil_ok hretain
  rw [outcome_insertReceipt_bind] at h
  split at h
  · cases h
  next hfree =>
  obtain ⟨o, ho, h⟩ := outcome_lift_bind_ok.1 h
  rw [outcome_pure, Prod.mk.injEq] at h
  refine ⟨o, _, decision, after, (ok.inj h.1).symm, h.2.symm, ?_⟩
  exact ⟨hfresh, hhandler, by simpa using hfree, storedInboxOutcome_ok ho, rfl⟩

/-- What a delivery that returns did. Only an effect that was applied now changed the database. -/
theorem inboxApply_ok
    (h : (inboxApply now delivery limit handler).outcome (.opened db) = (.ok r, txn)) :
    (r = .expired ∧ txn = .opened db ∧ delivery.expiresAt ≤ now) ∨
      now < delivery.expiresAt ∧
        ((r = .conflict ∧ txn = .opened db) ∨
          (∃ o, r = .applied o true ∧ txn = .opened db ∧ Redelivers delivery db o) ∨
          ∃ o db' decision after, r = .applied o false ∧ txn = .opened db' ∧
            Delivers delivery handler db o db' decision after) := by
  obtain ⟨_, -, h⟩ := outcome_lift_bind_ok.1 h
  split at h
  · next hexpired =>
    rw [outcome_pure, Prod.mk.injEq] at h
    exact .inl ⟨(ok.inj h.1).symm, h.2.symm, hexpired⟩
  next hlive =>
  refine .inr ⟨not_le.1 hlive, ?_⟩
  obtain ⟨-, h⟩ := outcome_rejectWhen_bind_ok.1 h
  rw [outcome_view_bind] at h
  split at h
  · next row hrow =>
    have hreceipt : (row.redeliver delivery limit, Txn.opened db) = (.ok r, txn) := h
    obtain ⟨hok, htxn⟩ := Prod.mk.inj hreceipt
    rcases LedgerRow.redeliver_ok hok with ⟨rfl, -⟩ | ⟨rfl, hdigest, hexpires⟩
    · exact .inl ⟨rfl, htxn.symm⟩
    · exact .inr (.inl ⟨_, rfl, htxn.symm, ⟨row, hrow, hdigest, hexpires, rfl⟩⟩)
  · next hrow => exact .inr (.inr (applyFreshDelivery_ok hrow h))

/-- What a delivery that succeeds did: it was answered from its receipt, or it was applied and the
metadata moved on by one. -/
theorem deliverMutation_ok {r : TransactionResult}
    (h : (deliverMutation site now delivery limit handler).outcome (.opened db) = (.ok r, txn)) :
    now < delivery.expiresAt ∧
      ((∃ o, r = .recorded o ∧ txn = .opened db ∧ Redelivers delivery db o) ∨
        ∃ o due applied decision after,
          r = .committed o (max now db.sysMeta.logicalTime) due ∧
          txn = .opened (applied.advance (db.sysMeta.commitSequence + 1)
            (max now db.sysMeta.logicalTime)) ∧
          Delivers delivery handler db o applied decision after) := by
  unfold deliverMutation at h
  rw [outcome_view_bind] at h
  obtain ⟨m, hmeta, h⟩ := outcome_lift_bind_ok.1 h
  obtain ⟨rfl, -⟩ := CellDb.runtimeMetadata_ok hmeta
  dsimp only at h
  rw [outcome_bind] at h
  rcases happly : (inboxApply now delivery limit handler).outcome (.opened db) with ⟨x, txn'⟩
  rw [happly] at h
  cases x with
  | error e => cases h
  | ok applied =>
  dsimp only at h
  rcases inboxApply_ok happly with ⟨rfl, -, -⟩ | ⟨hlive, ⟨rfl, -⟩ | ⟨o, rfl, rfl, hrow⟩ |
    ⟨o, db', decision, after, rfl, rfl, hdelivers⟩⟩
  · cases h
  · cases h
  · rw [outcome_pure, Prod.mk.injEq] at h
    exact ⟨hlive, .inl ⟨o, (ok.inj h.1).symm, h.2.symm, hrow⟩⟩
  · refine ⟨hlive, .inr ?_⟩
    obtain ⟨sequence, hseq, h⟩ := outcome_lift_bind_ok.1 h
    obtain rfl := nextSequence_ok hseq
    obtain ⟨-, h⟩ := outcome_rejectWhen_bind_ok.1 h
    rw [outcome_write_bind, outcome_view_bind] at h
    obtain ⟨_, -, h⟩ := outcome_lift_bind_ok.1 h
    obtain ⟨due, -, h⟩ := outcome_lift_bind_ok.1 h
    rw [outcome_pure, Prod.mk.injEq] at h
    exact ⟨o, due, db', decision, after, (ok.inj h.1).symm, h.2.symm, hdelivers⟩

/-- A delivery writes only in its transaction. -/
theorem inboxApply_clean (h : ∀ db, (handler db).2.Clean) :
    (inboxApply now delivery limit handler).Keeps Txn.Clean := by
  refine keeps_lift.bind fun _ => ?_
  split
  · exact keeps_pure
  refine keeps_rejectWhen.bind fun _ => view_clean.bind fun db => ?_
  split
  · exact keeps_lift
  exact keeps_rejectWhen.bind fun _ => (runHandler_clean h).bind fun decision =>
    (settle_clean decision).bind fun _ => keeps_rejectWhen.bind fun _ => keeps_lift.bind fun _ =>
    (view_clean.bind fun _ => keeps_rejectWhen.bind fun _ => write_clean).bind fun _ =>
      keeps_lift.bind fun _ => keeps_pure

/-- A delivery writes nothing after its transaction has ended, if its handler does not. -/
theorem deliverMutation_clean (h : ∀ db, (handler db).2.Clean) :
    (deliverMutation site now delivery limit handler).Keeps Txn.Clean := by
  refine view_clean.bind fun _ => keeps_lift.bind fun _ => (inboxApply_clean h).bind
    fun applied => ?_
  split
  · exact fun _ hs => hs
  · exact fun _ hs => hs
  · exact keeps_pure
  · exact keeps_lift.bind fun _ => keeps_rejectWhen.bind fun _ => write_clean.bind fun _ =>
      view_clean.bind fun _ => keeps_lift.bind fun _ => keeps_lift.bind fun _ => keeps_pure

/-- A delivery with a receipt is answered from it and changes nothing, if its limit takes the stored
result. -/
theorem deliverMutation_of_receipt
    (hmeta : db.runtimeMetadata site.cell site.incarnation site.schema = .ok m) (hnow : 0 ≤ now)
    (hlive : now < delivery.expiresAt) (hrow : db.inbox.get? delivery.effectId = some row)
    (hdigest : row.operationDigest = delivery.operationDigest)
    (hexpires : row.expiresAt = delivery.expiresAt) (hsequence : row.commitSequence ≠ 0)
    (hfits : row.result.length ≤ limit) (hlimit : limit ≤ maxEffectBytes) :
    (deliverMutation site now delivery limit handler).outcome (.opened db)
      = (.ok (.recorded (row.verdict.stored row.result row.commitSequence)), .opened db) := by
  have hnow' : validateEffectNow now = .ok () := by
    unfold validateEffectNow
    rw [decide_eq_false (not_lt.2 hnow)]
    rfl
  have hstored : storedInboxOutcome row.verdict row.result row.commitSequence limit
      = .ok (row.verdict.stored row.result row.commitSequence) := by
    have hchecks : (decide (row.result.length > limit) || row.commitSequence == 0) = false := by
      simpa [hsequence] using hfits
    unfold storedInboxOutcome
    rw [hchecks]
    rfl
  have hanswer : row.redeliver delivery limit
      = .ok (.applied (row.verdict.stored row.result row.commitSequence) true) := by
    unfold LedgerRow.redeliver
    rw [if_neg (not_or.2 ⟨not_not.2 hdigest, not_not.2 hexpires⟩), hstored]
    rfl
  have happly : (inboxApply now delivery limit handler).outcome (.opened db)
      = (.ok (.applied (row.verdict.stored row.result row.commitSequence) true), .opened db) := by
    unfold inboxApply applyLiveDelivery
    rw [hnow', outcome_lift_bind]
    dsimp only
    rw [if_neg (not_le.2 hlive), decide_eq_false (not_lt.2 hlimit), outcome_rejectWhen_bind,
      if_neg Bool.false_ne_true, outcome_view_bind, hrow]
    dsimp only
    rw [hanswer]
    rfl
  unfold deliverMutation
  rw [outcome_view_bind, outcome_lift_bind, hmeta]
  obtain ⟨sequence, time⟩ := m
  dsimp only
  rw [outcome_bind, happly]
  rfl

end

end Cellule
