import Cellule.Lib.Protobuf
import Cellule.Primitives.Inbox
import Cellule.Target

/-!
# The effects of a source

A command that changes its own Cell may leave commands for other Cells in `sys_effects`
(`primitives/effects/`). A batch gives the effects of one command their identities (`EffectBatch`).
A supervisor claims effects that are due under a lease, delivers them and settles the lease; leases
that run out are taken back. The columns `state`, `token` and `lease_until_ms` are one value, as the
`CHECK` of the table ties them.
-/

namespace Cellule

open Except Stateful

abbrev LeaseToken := FixedId 16

/-- `MAX_EFFECTS_PER_COMMAND` (`mod.rs:29`). -/
def maxEffectsPerCommand : Nat := 128

/-- `EFFECT_CLAIM_FIXED_BYTES`. -/
def effectClaimFixedBytes : Nat := 160

/-- `EFFECT_CLAIM_LIST_BYTES`. -/
def effectClaimListBytes : Nat := 4

/-- `EFFECT_ACK_FIXED_BYTES`. -/
def effectAckFixedBytes : Nat := 73

/-- `MAX_EFFECT_OPERATION_BYTES`. -/
def maxEffectOperationBytes : Nat := maxEffectBytes - effectClaimListBytes - effectClaimFixedBytes

/-- `MAX_EFFECT_RESULT_BYTES`. -/
def maxEffectResultBytes : Nat := maxEffectBytes - effectAckFixedBytes

/-- `MAX_CLAIM_ITEMS`. -/
def maxClaimItems : Nat := 32

/-- `MAX_ATTEMPTS`, of effects, of messages and of activities alike. -/
def maxAttempts : Nat := 20

/-- `MIN_LEASE_MS`. -/
def minLeaseMs : Nat := 5000

/-- `MAX_LEASE_MS`. -/
def maxLeaseMs : Nat := 300000

/-- `EFFECT_LIFETIME_MS`. -/
def effectLifetimeMs : Int := 7 * 24 * 60 * 60 * 1000

/-- `EffectState` with the columns that a lease fills (`EffectState`, `mod.rs:49`). -/
inductive EffectState where
  | ready
  | leased (token : LeaseToken) (leaseUntil : Int)
  | delivered
  | failed
  deriving DecidableEq

/-- A row of `sys_effects`, without its key. -/
structure EffectRow where
  destination : CellId
  operation : Bytes
  state : EffectState
  attempt : Nat
  dueAt : Int
  expiresAt : Int
  createdSequence : Nat
  result : Option Bytes
  deriving DecidableEq

abbrev EffectTable := OrderedMap Digest EffectRow

/-- `EffectIntent` (`mod.rs:158`). -/
structure EffectIntent where
  destination : CellId
  operation : Bytes
  expiresAt : Int
  deriving DecidableEq

/-- A command for another Cell (`EffectCommandIntent`, `mod.rs:166`). -/
structure EffectCommandIntent where
  target : CellTarget
  commandId : Nat
  codecVersion : Nat
  input : Bytes
  expiresAt : Int
  deriving DecidableEq

/-! ## Identities and operations -/

variable (hash : Hash)

/-- `effect_id` (`mod.rs:753`). -/
def effectId (cell : CellId) (incarnation : IncarnationId) (sequence ordinal : Nat) : Digest :=
  hash (octets "crab.effect.v1\x00" ++ cell.asBytes ++ incarnation.asBytes ++ Bytes.be 8 sequence
    ++ Bytes.be 4 ordinal)

/-- `effect_operation_digest` (`mod.rs:737`). -/
def effectOperationDigest (destination : CellId) (id : Digest) (operation : Bytes) : Digest :=
  hash (octets "crab.effect-op.v1\x00" ++ destination.asBytes ++ id.asBytes
    ++ Bytes.be 4 operation.length ++ operation)

/-- The identity of an effect on the wire (`EffectIdentity`, `peer.proto`). -/
structure EffectIdentity where
  effectId : Bytes
  sourceCell : Bytes
  sourceIncarnation : Bytes
  sourceSequence : Nat
  ordinal : Nat
  expiresAt : Int

/-- The message `EffectRequest` of a command, without the destination's incarnation
(`peer.proto`). -/
def effectRequest (intent : EffectCommandIntent) (identity : EffectIdentity) : Bytes :=
  Protobuf.messageField 1
      (Protobuf.bytesField 1 intent.target.tenant.asBytes
        ++ Protobuf.bytesField 2 intent.target.application.asBytes
        ++ Protobuf.bytesField 3 intent.target.namespaceId.asBytes
        ++ Protobuf.bytesField 4 intent.target.partition)
    ++ Protobuf.messageField 3
      (Protobuf.bytesField 1 identity.effectId ++ Protobuf.bytesField 2 identity.sourceCell
        ++ Protobuf.bytesField 3 identity.sourceIncarnation
        ++ Protobuf.uintField 4 identity.sourceSequence ++ Protobuf.uintField 5 identity.ordinal
        ++ Protobuf.intField 6 identity.expiresAt)
    ++ Protobuf.messageField 10
      (Protobuf.uintField 1 intent.commandId ++ Protobuf.uintField 2 intent.codecVersion
        ++ Protobuf.bytesField 3 intent.input)

variable (now : Int)

/-- `validate_effect_intent` (`mod.rs:494`). -/
def validateEffectIntent (intent : EffectIntent) : Result Unit := do
  validateEffectNow now
  reject (intent.operation.isEmpty || decide (intent.operation.length > maxEffectOperationBytes)
    || decide (intent.expiresAt ≤ now)
    || decide (intent.expiresAt > saturatingAddInt now effectLifetimeMs))
    (.command "invalid effect intention")

/-- The identity that takes the most bytes. -/
def EffectIdentity.widest (expiresAt : Int) : EffectIdentity :=
  ⟨List.replicate 32 255, List.replicate 32 255, List.replicate 16 255, u64Max, u32Max, expiresAt⟩

/-- `validate_effect_command_intent` (`mod.rs:506`). -/
def validateEffectCommandIntent (intent : EffectCommandIntent) : Result Unit := do
  reject (intent.commandId == 0 || intent.codecVersion == 0)
    (.command "invalid effect Cell command identifier")
  validateEffectIntent now
    ⟨intent.target.cellId hash, effectRequest intent (.widest intent.expiresAt), intent.expiresAt⟩

/-! ## Emission -/

/-- `effect_insert` (`mod.rs:439`). -/
def effectInsert (cell : CellId) (incarnation : IncarnationId)
    (sequence ordinal : Nat) (now : Int) (intent : EffectIntent) :
    Stateful Error EffectTable Digest := do
  lift (validateEffectNow now)
  lift (validateEffectIntent now intent)
  rejectWhen (sequence == 0 || decide (sequence > i64Max)
    || decide (ordinal ≥ maxEffectsPerCommand))
    (.command "invalid effect intention")
  let id := effectId hash cell incarnation sequence ordinal
  let table ← look
  match table.get? id with
  | some row =>
    if row.destination = intent.destination ∧ row.operation = intent.operation
        ∧ row.expiresAt = intent.expiresAt ∧ row.createdSequence = sequence then
      return id
    else
      fail (.command "effect ordinal was reused for different bytes")
  | none => do
    change (·.insert id
      ⟨intent.destination, intent.operation, .ready, 0, now, intent.expiresAt, sequence, none⟩)
    return id

/-- The allocator of a command's effect identities (`EffectBatch`, `mod.rs:183`). -/
structure EffectBatch where
  source : CellTarget
  incarnation : IncarnationId
  sequence : Nat
  now : Int
  nextOrdinal : Nat
  operationBytes : Nat
  deriving DecidableEq

/-- `EffectBatch::new` (`mod.rs:194`), on the metadata of the Cell. -/
def EffectBatch.new (sysMeta : CellMeta) (source : CellTarget)
    (sequence : Nat) (now : Int) : Result EffectBatch := do
  reject (sequence == 0) (.command "effect batch sequence is zero")
  validateEffectNow now
  reject (checkedAdd sysMeta.commitSequence 1 != some sequence)
    (.command "effect batch sequence is not the next Cell commit")
  reject (source.cellId hash != sysMeta.cell)
    (.command "effect source target does not match its Cell")
  return ⟨source, sysMeta.incarnation, sequence, now, 0, 0⟩

/-- A batch next to the table it writes to. -/
structure EffectStore where
  batch : EffectBatch
  table : EffectTable

/-- Runs a program on the table. -/
def EffectStore.onTable {α : Type} (program : Stateful Error EffectTable α) :
    Stateful Error EffectStore α := fun store =>
  ((program.outcome store.table).1, { store with table := (program.outcome store.table).2 })

/-- The operation that the next effect of a batch carries. -/
def EffectBatch.operation (batch : EffectBatch) (intent : EffectCommandIntent) : Bytes :=
  effectRequest intent
    ⟨(effectId hash (batch.source.cellId hash) batch.incarnation batch.sequence
        batch.nextOrdinal).asBytes,
      (batch.source.cellId hash).asBytes, batch.incarnation.asBytes, batch.sequence,
      batch.nextOrdinal, intent.expiresAt⟩

/-- `EffectBatch::insert_command` (`mod.rs:244`). -/
def insertCommand (intent : EffectCommandIntent) : Stateful Error EffectStore Digest := do
  let store ← look
  let batch := store.batch
  rejectWhen (intent.target.tenant != batch.source.tenant
    || intent.target.application != batch.source.application)
    (.identity "effect target is outside the source application scope")
  lift (validateEffectCommandIntent hash batch.now intent)
  rejectWhen (decide (batch.nextOrdinal ≥ maxEffectsPerCommand))
    (.command "command effects exceed limits")
  let operation := batch.operation hash intent
  rejectWhen (decide (batch.operationBytes + operation.length > maxEffectBytes))
    (.command "command effects exceed limits")
  let id ← EffectStore.onTable (effectInsert hash (batch.source.cellId hash) batch.incarnation
    batch.sequence batch.nextOrdinal batch.now
    ⟨intent.target.cellId hash, operation, intent.expiresAt⟩)
  change fun store => { store with batch := { store.batch with
    nextOrdinal := batch.nextOrdinal + 1
    operationBytes := batch.operationBytes + operation.length } }
  return id

/-! ## Maintenance -/

/-- `validate_maintenance_limit` (`mod.rs:918`). -/
def validateEffectLimit (limit : Nat) : Result Unit :=
  reject (decide (limit > maxReclaimItems)) (.command "effect maintenance limit exceeds 128")

/-- `retry_delay_ms` (`mod.rs:925`). -/
def retryDelayMs (attempt : Nat) : Int := min (100 * 2 ^ min attempt 10) 60000

/-- The deadline of a row under a lease. -/
def EffectRow.leaseUntil (row : EffectRow) : Option Int :=
  match row.state with
  | .leased _ leaseUntil => some leaseUntil
  | _ => none

/-- `state = 1 AND lease_until_ms <= now`. -/
def EffectRow.lapsed (row : EffectRow) : Bool :=
  row.leaseUntil.any fun leaseUntil => decide (leaseUntil ≤ now)

/-- The state of an effect that was not delivered: it waits until `due`, unless its attempts are
used up or it expires before. -/
def undelivered (attempt : Nat) (due expiresAt : Int) : EffectState :=
  if attempt ≥ maxAttempts ∨ due ≥ expiresAt then .failed else .ready

/-- The row after `UPDATE sys_effects SET state = …`, which moves the due time of a ready row. -/
def EffectRow.withState (row : EffectRow) (state : EffectState) (due : Int) : EffectRow :=
  { row with state := state, dueAt := if state = .ready then due else row.dueAt }

/-- The loop of `effect_reclaim_expired_bounded` over what it selected. -/
def reclaimEffect (e : Digest × EffectRow) : Stateful Error EffectTable Unit := do
  let due := saturatingAddInt now (retryDelayMs e.2.attempt)
  let _ ← OrderedMap.update e.1 (·.lapsed now)
    (·.withState (undelivered e.2.attempt due e.2.expiresAt) due)

/-- `effect_reclaim_expired_bounded` (`mod.rs:793`). -/
def effectReclaimExpiredBounded (limit : Nat) : Stateful Error EffectTable Nat := do
  lift (validateEffectNow now)
  lift (validateEffectLimit limit)
  let table ← look
  let expired := table.select (·.2.lapsed now) (fun e => e.2.leaseUntil.getD 0) limit
  expired.forM (reclaimEffect now)
  return expired.length

/-- The ready effects that no claim can take any more. -/
def EffectRow.exhausted (row : EffectRow) : Bool :=
  row.state == .ready && (decide (row.expiresAt ≤ now) || decide (row.attempt ≥ maxAttempts))

/-- Marks an effect that `effect_expire_ready_bounded` selected. -/
def expireEffect (e : Digest × EffectRow) : Stateful Error EffectTable Unit := do
  let _ ← OrderedMap.update e.1 (fun _ => true) fun row => { row with state := .failed }

/-- `effect_expire_ready_bounded` (`mod.rs:838`). -/
def effectExpireReadyBounded (limit : Nat) : Stateful Error EffectTable Nat := do
  lift (validateEffectNow now)
  lift (validateEffectLimit limit)
  let table ← look
  let expired := table.select (·.2.exhausted now) (fun e => e.2.dueAt) limit
  expired.forM expireEffect
  return expired.length

/-- The settled effects that are past their delivery. -/
def EffectRow.disposable (row : EffectRow) : Bool :=
  (row.state == .delivered || row.state == .failed) && decide (row.expiresAt ≤ now)

/-- `effect_cleanup_terminal_bounded` (`mod.rs:680`). -/
def effectCleanupTerminalBounded (limit : Nat) : Stateful Error EffectTable Nat := do
  lift (validateEffectNow now)
  lift (validateEffectLimit limit)
  let table ← look
  let expired := table.select (·.2.disposable now) (fun e => e.2.expiresAt) limit
  change (·.deleteKeys (expired.map (·.1)))
  return expired.length

/-! ## Leases -/

/-- A delivery lease (`EffectClaim`, `mod.rs:355`). -/
structure EffectClaim where
  effectId : Digest
  destination : CellId
  operation : Bytes
  operationDigest : Digest
  attempt : Nat
  token : LeaseToken
  leaseUntil : Int
  expiresAt : Int
  createdSequence : Nat
  deriving DecidableEq

/-- What a holder shows (`EffectLease`, `mod.rs:378`). -/
structure EffectLease where
  effectId : Digest
  attempt : Nat
  token : LeaseToken
  expiresAt : Int
  deriving DecidableEq

/-- `EffectLease::from`. -/
def EffectClaim.lease (claim : EffectClaim) : EffectLease :=
  ⟨claim.effectId, claim.attempt, claim.token, claim.expiresAt⟩

/-- `EffectLeaseOutcome` (`mod.rs:79`). -/
inductive EffectLeaseOutcome where
  | delivered
  | retrying (dueAt : Int)
  | failed
  | extended (leaseUntil : Int)
  | leaseLost
  deriving DecidableEq

/-- A ready effect that a claim may take. -/
def EffectRow.claimable (row : EffectRow) : Bool :=
  row.state == .ready && decide (row.dueAt ≤ now) && decide (row.expiresAt > now)

/-- The claim that a lease of a row gives. -/
def EffectRow.claim (row : EffectRow) (id : Digest)
    (token : LeaseToken) (leaseUntil : Int) : EffectClaim :=
  ⟨id, row.destination, row.operation, effectOperationDigest hash row.destination id row.operation,
    row.attempt + 1, token, leaseUntil, row.expiresAt, row.createdSequence⟩

/-- The loop of `effect_claim` over its candidates. `tokens n` is the answer of the token source to
the claim after `n` others. -/
def claimEffects (hash : Hash) (now deadline : Int) (limit : Nat)
    (tokens : Nat → Result LeaseToken) :
    List (Digest × EffectRow) → Nat → List EffectClaim →
      Stateful Error EffectTable (List EffectClaim)
  | [], _, claimed => return claimed
  | (id, row) :: rest, bytes, claimed =>
    if claimed.length = limit then
      return claimed
    else do
      rejectWhen (row.operation.isEmpty || decide (row.operation.length > maxEffectOperationBytes)
        || row.createdSequence == 0) (.command "invalid stored effect")
      let prospective := bytes + effectClaimFixedBytes + row.operation.length
      if prospective > maxEffectBytes then
        return claimed
      else do
        let token ← lift (tokens claimed.length)
        let leaseUntil := min deadline row.expiresAt
        let changed ← OrderedMap.update id
          (fun stored => stored.claimable now && stored.attempt == row.attempt)
          (fun stored =>
            { stored with state := .leased token leaseUntil, attempt := stored.attempt + 1 })
        rejectWhen (!changed) (.command "effect claim lost selected row")
        claimEffects hash now deadline limit tokens rest prospective
          (claimed ++ [row.claim hash id token leaseUntil])

/-- The deadline of a lease or an extension. -/
def leaseDeadline (ms : Nat) (overflow : Error) : Result Int :=
  match checkedAddInt now ms with
  | some deadline => .ok deadline
  | none => .error overflow

/-- The lease durations that the source accepts. -/
def validLeaseMs (ms : Nat) : Bool := decide (minLeaseMs ≤ ms) && decide (ms ≤ maxLeaseMs)

/-- `effect_claim` (`lease.rs:10`). -/
def effectClaim (limit leaseMs : Nat)
    (tokens : Nat → Result LeaseToken) : Stateful Error EffectTable (List EffectClaim) := do
  lift (validateEffectNow now)
  rejectWhen (!(decide (1 ≤ limit) && decide (limit ≤ maxClaimItems)))
    (.command "effect claim limit must be in 1..=32")
  rejectWhen (!validLeaseMs leaseMs) (.command "effect lease must be in 5..=300 seconds")
  let _ ← effectReclaimExpiredBounded now maxReclaimItems
  let table ← look
  let candidates := table.select
    (fun e => e.2.claimable now && decide (e.2.attempt < maxAttempts))
      (fun e => e.2.dueAt) (limit + 1)
  let deadline ← lift (leaseDeadline now leaseMs (.command "effect lease deadline overflow"))
  claimEffects hash now deadline limit tokens candidates effectClaimListBytes []

/-- The row is under this attempt and token, and the lease has not run out. -/
def EffectRow.heldBy (attempt : Nat) (token : LeaseToken) (row : EffectRow) : Bool :=
  match row.state with
  | .leased stored leaseUntil =>
    row.attempt == attempt && stored == token && decide (leaseUntil > now)
  | _ => false

/-- `apply_lease` (`mod.rs:768`). -/
def applyLease (lease : EffectLease) (state : EffectState) (due : Option Int)
    (result : Option Bytes) : Stateful Error EffectTable Bool :=
  OrderedMap.update lease.effectId
    (fun row => row.heldBy now lease.attempt lease.token && row.expiresAt == lease.expiresAt)
    (fun row => { row.withState state (due.getD 0) with result := result })

/-- `effect_ack_lease` (`lease.rs:166`). -/
def effectAckLease (lease : EffectLease) (result : Bytes) :
    Stateful Error EffectTable EffectLeaseOutcome := do
  lift (validateEffectNow now)
  rejectWhen (decide (result.length > maxEffectResultBytes))
    (.command "effect result exceeds acknowledgement wire limit")
  let applied ← applyLease now lease .delivered none (some result)
  return if applied then .delivered else .leaseLost

/-- What `effect_retry_lease` reports of the state it set. -/
def retryOutcome (due : Int) : EffectState → Result EffectLeaseOutcome
  | .ready => .ok (.retrying due)
  | .failed => .ok .failed
  | _ => .error (.command "invalid effect retry state")

/-- `effect_retry_lease` (`lease.rs:201`). -/
def effectRetryLease (lease : EffectLease) : Stateful Error EffectTable EffectLeaseOutcome := do
  lift (validateEffectNow now)
  let due := saturatingAddInt now (retryDelayMs lease.attempt)
  let state := undelivered lease.attempt due lease.expiresAt
  let applied ← applyLease now lease state (if state = .ready then some due else none) none
  if applied then lift (retryOutcome due state) else return .leaseLost

/-- The deadline of a row that is held by this attempt and token. -/
def EffectRow.heldUntil (attempt : Nat) (token : LeaseToken) (row : EffectRow) : Option Int :=
  if row.heldBy now attempt token then row.leaseUntil else none

/-- The part of `effect_extend` for a lease that is live. -/
def extendLease (claim : EffectClaim) (extensionMs : Nat) (current expiresAt : Int) :
    Stateful Error EffectTable EffectLeaseOutcome := do
  let requested ←
    lift (leaseDeadline now extensionMs (.command "effect extension deadline overflow"))
  let leaseUntil := max current (min requested expiresAt)
  let changed ← OrderedMap.update claim.effectId
    (fun row => row.state == .leased claim.token current && row.attempt == claim.attempt)
    (fun row => { row with state := .leased claim.token leaseUntil })
  rejectWhen (!changed) (.command "effect lease changed during extension")
  return .extended leaseUntil

/-- `effect_extend` (`lease.rs:232`). -/
def effectExtend (claim : EffectClaim) (extensionMs : Nat) :
    Stateful Error EffectTable EffectLeaseOutcome := do
  lift (validateEffectNow now)
  rejectWhen (!validLeaseMs extensionMs) (.command "effect extension must be in 5..=300 seconds")
  let table ← look
  match table.get? claim.effectId with
  | none => return .leaseLost
  | some row =>
    match row.heldUntil now claim.attempt claim.token with
    | none => return .leaseLost
    | some current => extendLease now claim extensionMs current row.expiresAt

end Cellule
