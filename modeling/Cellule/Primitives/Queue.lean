import Cellule.Primitives.Effects

/-!
# The queue of a Cell

A queue shard (`primitives/queue/`) keeps its messages, the producers it has heard of, and one
control row with a count of the messages in each state, which triggers keep
(`migrations/queue.sql`). Every change of a message goes through `insertMessage`, `updateMessage`
and `deleteMessage`, which do what the triggers do. A message that dies may be sent on as an effect
of the command (`deadLetter`).
-/

namespace Cellule

open Except Stateful

/-- The identity of a message. -/
abbrev MessageId := FixedId 16

/-- The identity of a send. -/
abbrev ProducerId := FixedId 16

/-- `MAX_PAYLOAD_BYTES` (`mod.rs:24`). -/
def maxPayloadBytes : Nat := 256 * 1024

/-- `QUEUE_SEND_MAX_INPUT_BYTES`. -/
def queueSendMaxInputBytes : Nat := maxPayloadBytes + 32

/-- `MAX_CLAIM_BYTES`. -/
def maxQueueClaimBytes : Nat := 512 * 1024

/-- `MAX_RETRY_DELAY_MS`. -/
def maxRetryDelayMs : Nat := 3600000

/-- `MAX_AVAILABLE_DELAY_MS`. -/
def maxAvailableDelayMs : Int := 7 * 24 * 60 * 60 * 1000

/-- `RETENTION_MS`. -/
def queueRetentionMs : Int := 30 * 24 * 60 * 60 * 1000

/-- `DEAD_LETTER_EFFECT_LIFETIME_MS`. -/
def deadLetterEffectLifetimeMs : Int := 7 * 24 * 60 * 60 * 1000

/-! ## The tables -/

/-- `QueueState` (`mod.rs:110`). -/
inductive QueueState where
  | ready
  | leased
  | acked
  | dead
  deriving DecidableEq

/-- The state of a message with the columns that depend on it: the token and the deadline of a
lease, and the effect that a dead message was sent on as. -/
inductive MessageState where
  | ready
  | leased (token : LeaseToken) (leaseUntil : Int)
  | acked
  | dead (letter : Option Digest)
  deriving DecidableEq

/-- The `state` column. -/
def MessageState.kind : MessageState → QueueState
  | ready => .ready
  | leased _ _ => .leased
  | acked => .acked
  | dead _ => .dead

/-- A row of `queue_messages`, without its key. -/
structure MessageRow where
  payload : Bytes
  state : MessageState
  attempt : Nat
  dueAt : Int
  expiresAt : Int
  deriving DecidableEq

/-- A row of `queue_dedup`, without its key. -/
structure DedupRow where
  payloadDigest : Digest
  messageId : MessageId
  retainUntil : Int
  deriving DecidableEq

/-- The row of `queue_control`. -/
structure QueueControl where
  paused : Bool
  generation : Nat
  updatedAt : Int
  readyCount : Int
  leasedCount : Int
  ackedCount : Int
  deadCount : Int
  deriving DecidableEq

/-- The tables of a queue shard. -/
structure QueueDb where
  messages : OrderedMap MessageId MessageRow
  dedup : OrderedMap ProducerId DedupRow
  control : QueueControl

/-- The tables that `install_queue_schema` leaves. -/
def QueueDb.installed : QueueDb := ⟨.empty, .empty, ⟨false, 0, 0, 0, 0, 0, 0⟩⟩

/-- What a queue operation works on: its tables, and the effects of the Cell with the batch of the
command that the operation is part of. -/
structure QueueStore where
  queue : QueueDb
  effects : EffectStore

/-- Runs a program on the tables of the queue. -/
def QueueStore.onQueue {α : Type} (program : Stateful Error QueueDb α) :
    Stateful Error QueueStore α :=
  within (·.queue) (fun store queue => { store with queue := queue }) program

/-- Runs a program on the effects. -/
def QueueStore.onEffects {α : Type} (program : Stateful Error EffectStore α) :
    Stateful Error QueueStore α :=
  within (·.effects) (fun store effects => { store with effects := effects }) program

/-! ## Statements -/

/-- Adds to the count of the messages in a state. -/
def QueueControl.add (control : QueueControl) (state : QueueState) (n : Int) : QueueControl :=
  match state with
  | .ready => { control with readyCount := control.readyCount + n }
  | .leased => { control with leasedCount := control.leasedCount + n }
  | .acked => { control with ackedCount := control.ackedCount + n }
  | .dead => { control with deadCount := control.deadCount + n }

/-- The `CHECK` constraints on the counts. -/
def QueueControl.valid (control : QueueControl) : Bool :=
  decide (0 ≤ control.readyCount) && decide (0 ≤ control.leasedCount)
    && decide (0 ≤ control.ackedCount) && decide (0 ≤ control.deadCount)

/-- The update of the counts in a trigger; the statement fails if a count gets negative. -/
def countMessages (f : QueueControl → QueueControl) : Stateful Error QueueDb Unit := do
  change fun db => { db with control := f db.control }
  let db ← look
  rejectWhen (!db.control.valid) .sqlite

/-- `INSERT INTO queue_messages`, with the trigger `queue_messages_count_insert`. -/
def insertMessage (id : MessageId) (row : MessageRow) : Stateful Error QueueDb Unit := do
  let db ← look
  rejectWhen (db.messages.get? id).isSome .sqlite
  change fun db => { db with messages := db.messages.insert id row }
  countMessages (·.add row.state.kind 1)

/-- Writes a row over and counts it, with the trigger `queue_messages_count_state_update`. -/
def writeMessage (id : MessageId) (old new : MessageRow) : Stateful Error QueueDb Unit := do
  change fun db => { db with messages := db.messages.insert id new }
  if old.state.kind = new.state.kind then
    return ()
  else
    countMessages fun control => (control.add old.state.kind (-1)).add new.state.kind 1

/-- `UPDATE queue_messages … WHERE message_id = id AND p`: whether a row was changed. -/
def updateMessage (id : MessageId) (p : MessageRow → Bool) (f : MessageRow → MessageRow) :
    Stateful Error QueueDb Bool := do
  let db ← look
  match db.messages.get? id with
  | none => return false
  | some row =>
    if p row then do
      writeMessage id row (f row)
      return true
    else
      return false

/-- `DELETE FROM queue_messages WHERE message_id = id AND p`, with the trigger
`queue_messages_count_delete`: whether a row was deleted. -/
def deleteMessage (id : MessageId) (p : MessageRow → Bool) : Stateful Error QueueDb Bool := do
  let db ← look
  match db.messages.get? id with
  | none => return false
  | some row =>
    if p row then do
      change fun db => { db with messages := db.messages.erase id }
      countMessages (·.add row.state.kind (-1))
      return true
    else
      return false

/-! ## Identities -/

variable (hash : Hash)

/-- The first 16 bytes of a digest. -/
def Digest.first16 (digest : Digest) : FixedId 16 := ⟨digest.asBytes.take 16, by simp⟩

/-- The big-endian bytes of an `i64`. -/
def i64Bytes (n : Int) : Bytes := Bytes.be 8 (n % 2 ^ 64).toNat

/-- `message_id` (`mod.rs:915`). -/
def messageId (namespaceId : NamespaceId) (producer : ProducerId) : MessageId :=
  (hash (octets "crab.queue-message.v1\x00" ++ namespaceId.asBytes ++ producer.asBytes)).first16

/-- `dead_letter_producer_id` (`mod.rs:925`). -/
def deadLetterProducerId (target : NamespaceId) (source : CellId)
    (incarnation : IncarnationId) (id : MessageId) : ProducerId :=
  (hash (octets "crab.queue-dead-letter.v1\x00" ++ target.asBytes ++ source.asBytes
    ++ incarnation.asBytes ++ id.asBytes)).first16

/-- `send_digest` (`mod.rs:942`). -/
def sendDigest (payload : Bytes) (availableAt : Int) : Digest :=
  hash (octets "crab.queue-send.v1\x00" ++ Bytes.be 4 payload.length ++ payload
    ++ i64Bytes availableAt)

/-- `validate_now` (`mod.rs:951`). -/
def validateQueueNow (now : Int) : Result Unit :=
  reject (decide (now < 0)) (.command "negative queue logical time")

/-- `validate_maintenance_limit` (`mod.rs:908`). -/
def validateQueueLimit (limit : Nat) : Result Unit :=
  reject (decide (limit > maxReclaimItems)) (.command "queue maintenance limit exceeds 128")

/-- A `checked_add` on a time. -/
def addTime (time : Int) (ms : Int) (overflow : Error) : Result Int :=
  match checkedAddInt time ms with
  | some t => .ok t
  | none => .error overflow

/-! ## Sending -/

/-- `QueueSendRequest` (`mod.rs:144`). -/
structure QueueSendRequest where
  producerId : ProducerId
  payload : Bytes
  availableAt : Int
  deriving DecidableEq

/-- The wire form of a request (`api/codec.rs:19`). -/
def QueueSendRequest.encode (request : QueueSendRequest) : Bytes :=
  Bytes.be 4 request.producerId.asBytes.length ++ request.producerId.asBytes
    ++ Bytes.be 4 request.payload.length ++ request.payload ++ i64Bytes request.availableAt

/-- `QueueSendOutcome` (`mod.rs:155`). -/
inductive QueueSendOutcome where
  | sent (messageId : MessageId)
  | producerConflict
  deriving DecidableEq

/-- The part of `queue_send` for a producer that is not known. -/
def sendFresh (namespaceId : NamespaceId) (now due : Int)
    (request : QueueSendRequest) : Stateful Error QueueDb QueueSendOutcome := do
  let id := messageId hash namespaceId request.producerId
  let expiresAt ← lift (addTime now queueRetentionMs (.command "queue expiry overflow"))
  insertMessage id ⟨request.payload, .ready, 0, due, expiresAt⟩
  let row : DedupRow := ⟨sendDigest hash request.payload request.availableAt, id, expiresAt⟩
  change fun db => { db with dedup := db.dedup.insert request.producerId row }
  return .sent id

/-- `queue_send` (`mod.rs:279`). -/
def queueSend (namespaceId : NamespaceId) (now : Int)
    (request : QueueSendRequest) : Stateful Error QueueDb QueueSendOutcome := do
  lift (validateQueueNow now)
  rejectWhen (decide (request.payload.length > maxPayloadBytes))
    (.command "queue payload exceeds 256 KiB")
  let latest ← lift (addTime now maxAvailableDelayMs (.command "queue available time overflow"))
  rejectWhen (decide (request.availableAt < 0) || decide (request.availableAt > latest))
    (.command "queue available time outside seven-day window")
  let db ← look
  match db.dedup.get? request.producerId with
  | some row =>
    if row.payloadDigest ≠ sendDigest hash request.payload request.availableAt then
      return .producerConflict
    else
      return .sent row.messageId
  | none => sendFresh hash namespaceId now (max request.availableAt now) request

/-! ## Dead letters -/

/-- Where dead messages go (`QueueDeadLetterTarget`, `api/mod.rs:25`). -/
structure QueueDeadLetterTarget where
  namespaceId : NamespaceId
  shards : Nat
  sendCommandId : Nat
  codecVersion : Nat
  deriving DecidableEq

/-- `QueueDeadLetterWriter::insert` (`mod.rs:47`). -/
def deadLetter (target : QueueDeadLetterTarget) (id : MessageId)
    (payload : Bytes) (now : Int) : Stateful Error EffectStore Digest := do
  let store ← look
  let source := store.batch.source
  let producer := deadLetterProducerId hash target.namespaceId (source.cellId hash)
    store.batch.incarnation id
  let shard ← lift (shardForScope hash target.namespaceId producer.asBytes target.shards)
  let cell ← lift (CellTarget.new source.tenant source.application target.namespaceId
    (partitionForShard shard))
  let input := (QueueSendRequest.mk producer payload now).encode
  rejectWhen (decide (input.length > queueSendMaxInputBytes)) .codec
  let expiresAt ← lift (addTime now deadLetterEffectLifetimeMs
    (.command "queue dead-letter effect expiry overflow"))
  insertCommand hash ⟨cell, target.sendCommandId, target.codecVersion, input, expiresAt⟩

variable (writer : Option QueueDeadLetterTarget)

/-- The effect of a message that gets the given state, if there is a writer. -/
def letterFor (state : QueueState) (id : MessageId) (payload : Bytes) (now : Int) :
    Stateful Error EffectStore (Option Digest) :=
  match state, writer with
  | .dead, some target => some <$> deadLetter hash target id payload now
  | _, _ => return none

/-! ## Maintenance -/

variable (now : Int)

/-- A lease that has run out. -/
def MessageRow.lapsed (row : MessageRow) : Bool :=
  match row.state with
  | .leased _ leaseUntil => decide (leaseUntil ≤ now)
  | _ => false

/-- The deadline of a lease. -/
def MessageRow.leaseUntil (row : MessageRow) : Option Int :=
  match row.state with
  | .leased _ leaseUntil => some leaseUntil
  | _ => none

/-- The loop of `queue_reclaim_expired_bounded_with_dead_letter` over what it selected. -/
def reclaimMessage (e : MessageId × MessageRow) : Stateful Error QueueStore Unit := do
  let next := if e.2.attempt ≥ maxAttempts ∨ e.2.expiresAt ≤ now then QueueState.dead else .ready
  let letter ← QueueStore.onEffects (letterFor hash writer next e.1 e.2.payload now)
  let changed ← QueueStore.onQueue (updateMessage e.1 (·.lapsed now) fun row =>
    if next = .ready then { row with state := .ready, dueAt := now }
    else { row with state := .dead letter })
  rejectWhen (!changed) (.command "queue reclaim lost selected lease")

/-- `queue_reclaim_expired_bounded_with_dead_letter` (`mod.rs:725`). -/
def queueReclaimExpiredBounded (limit : Nat) : Stateful Error QueueStore Nat := do
  lift (validateQueueNow now)
  lift (validateQueueLimit limit)
  if limit = 0 then
    return 0
  else do
    let store ← look
    let expired := store.queue.messages.select (·.2.lapsed now)
      (fun e => e.2.leaseUntil.getD 0) limit
    expired.forM (reclaimMessage hash writer now)
    return expired.length

/-- A ready message that no claim can take any more. -/
def MessageRow.exhausted (row : MessageRow) : Bool :=
  row.state == .ready && (decide (row.expiresAt ≤ now) || decide (row.attempt ≥ maxAttempts))

/-- The loop of `queue_expire_ready_bounded_with_dead_letter` over what it selected. -/
def expireMessage (e : MessageId × MessageRow) : Stateful Error QueueStore Unit := do
  let letter ← QueueStore.onEffects (letterFor hash writer .dead e.1 e.2.payload now)
  let changed ← QueueStore.onQueue (updateMessage e.1 (·.exhausted now) fun row =>
    { row with state := .dead letter })
  rejectWhen (!changed) (.command "queue expiry lost selected ready row")

/-- `queue_expire_ready_bounded_with_dead_letter` (`mod.rs:794`). -/
def queueExpireReadyBounded (limit : Nat) : Stateful Error QueueStore Nat := do
  lift (validateQueueNow now)
  lift (validateQueueLimit limit)
  if limit = 0 then
    return 0
  else do
    let store ← look
    let expired := store.queue.messages.select (·.2.exhausted now) (fun e => e.2.dueAt) limit
    expired.forM (expireMessage hash writer now)
    return expired.length

/-- The effect that a dead message was sent on as is in one of these states. -/
def letterIn (effects : EffectTable) (states : EffectState → Bool) : Option Digest → Bool
  | none => false
  | some id => (effects.get? id).any fun row => states row.state

/-- Not delivered yet: ready or leased. -/
def EffectState.pending : EffectState → Bool
  | ready | leased _ _ => true
  | delivered | failed => false

/-- The messages that the clean-up may delete. -/
def MessageRow.disposable (effects : EffectTable) (now : Int) (row : MessageRow) : Bool :=
  decide (row.expiresAt ≤ now) &&
    match row.state with
    | .acked => true
    | .dead letter => !letterIn effects (fun state => state.pending || state == .failed) letter
    | _ => false

/-- Deletes the producers past their retention whose messages are gone, at most `limit`. -/
def cleanDedup (limit : Nat) : Stateful Error QueueDb Nat := do
  let db ← look
  let expired := db.dedup.select
    (fun e => decide (e.2.retainUntil ≤ now) && (db.messages.get? e.2.messageId).isNone)
    (fun e => e.2.retainUntil) limit
  change fun db => { db with dedup := db.dedup.deleteKeys (expired.map (·.1)) }
  return expired.length

/-- `queue_cleanup_expired_bounded` (`mod.rs:690`). -/
def queueCleanupExpiredBounded (limit : Nat) : Stateful Error QueueStore Nat := do
  lift (validateQueueNow now)
  lift (validateQueueLimit limit)
  if limit = 0 then
    return 0
  else do
    let store ← look
    let expired := store.queue.messages.select (·.2.disposable store.effects.table now)
      (fun e => e.2.expiresAt) limit
    expired.forM fun e => do
      let _ ← QueueStore.onQueue (deleteMessage e.1 fun _ => true)
    if limit - expired.length = 0 then
      return expired.length
    else do
      let dedup ← QueueStore.onQueue (cleanDedup now (limit - expired.length))
      return expired.length + dedup

/-! ## Claims and leases -/

/-- A published delivery lease (`QueueMessage`, `mod.rs:167`). -/
structure QueueMessage where
  messageId : MessageId
  payload : Bytes
  token : LeaseToken
  attempt : Nat
  leaseUntil : Int
  deriving DecidableEq

/-- A message that a claim may take. -/
def MessageRow.claimable (row : MessageRow) : Bool :=
  row.state == .ready && decide (row.dueAt ≤ now) && decide (row.expiresAt > now)
    && decide (row.attempt < maxAttempts)

/-- The first loop of `queue_claim_with_dead_letter`: the messages that fit a claim. -/
def claimCandidates (limit : Nat) : List (MessageId × MessageRow) → Nat →
    List (MessageId × MessageRow) → Result (List (MessageId × MessageRow))
  | [], _, candidates => .ok candidates
  | e :: rest, bytes, candidates =>
    if candidates.length = limit then
      .ok candidates
    else if bytes + e.2.payload.length > maxQueueClaimBytes then
      .ok candidates
    else if e.2.payload.length > maxPayloadBytes then
      .error (.command "invalid stored queue message")
    else
      claimCandidates limit rest (bytes + e.2.payload.length) (candidates ++ [e])

/-- The second loop of `queue_claim_with_dead_letter` leases each candidate. `tokens n` is the
answer of the token source after `n` claims. -/
def leaseMessages (now deadline : Int) (tokens : Nat → Result LeaseToken) :
    List (MessageId × MessageRow) → List QueueMessage → Stateful Error QueueDb (List QueueMessage)
  | [], claimed => return claimed
  | (id, row) :: rest, claimed => do
    let token ← lift (tokens claimed.length)
    let leaseUntil := min deadline row.expiresAt
    let changed ← updateMessage id (·.claimable now) fun stored =>
      { stored with state := .leased token leaseUntil, attempt := stored.attempt + 1 }
    rejectWhen (!changed) (.command "queue claim lost selected ready row")
    leaseMessages now deadline tokens rest
      (claimed ++ [⟨id, row.payload, token, row.attempt + 1, leaseUntil⟩])

/-- The part of `queue_claim_with_dead_letter` for a queue that is not paused. -/
def claimReady (limit leaseMs : Nat) (tokens : Nat → Result LeaseToken) :
    Stateful Error QueueStore (List QueueMessage) := do
  let _ ← queueReclaimExpiredBounded hash writer now maxReclaimItems
  let store ← look
  let rows := store.queue.messages.select (·.2.claimable now) (fun e => e.2.dueAt) (limit + 1)
  let candidates ← lift (claimCandidates limit rows 0 [])
  let deadline ← lift (addTime now leaseMs (.command "queue lease deadline overflow"))
  QueueStore.onQueue (leaseMessages now deadline tokens candidates [])

/-- `queue_claim_with_dead_letter` (`mod.rs:352`). -/
def queueClaim (limit leaseMs : Nat) (tokens : Nat → Result LeaseToken) :
    Stateful Error QueueStore (List QueueMessage) := do
  lift (validateQueueNow now)
  rejectWhen (!(decide (1 ≤ limit) && decide (limit ≤ maxClaimItems)))
    (.command "queue claim limit must be in 1..=32")
  rejectWhen (!validLeaseMs leaseMs) (.command "queue lease must be in 5..=300 seconds")
  let store ← look
  if store.queue.control.paused then
    return []
  else
    claimReady hash writer now limit leaseMs tokens

/-- `QueueLeaseAction` (`mod.rs:182`). -/
inductive QueueLeaseAction where
  | ack
  | retry (delayMs : Nat)
  | extend (extensionMs : Nat)
  deriving DecidableEq

/-- `QueueLeaseOutcome` (`mod.rs:199`). -/
inductive QueueLeaseOutcome where
  | applied (state : QueueState) (leaseUntil : Option Int)
  | leaseLost
  deriving DecidableEq

/-- The state that an action gives a live lease, with its deadline and its due time. -/
def QueueLeaseAction.next (row : MessageRow) (prior : Int) :
    QueueLeaseAction → Result (QueueState × Option Int × Option Int)
  | ack => .ok (.acked, none, none)
  | retry delayMs => do
    reject (decide (delayMs > maxRetryDelayMs)) (.command "queue retry delay exceeds one hour")
    let due ← addTime now delayMs (.command "queue retry time overflow")
    return if row.attempt ≥ maxAttempts ∨ due ≥ row.expiresAt then (.dead, none, none)
      else (.ready, none, some due)
  | extend extensionMs => do
    reject (!validLeaseMs extensionMs) (.command "queue extension must be in 5..=300 seconds")
    let requested ← addTime now extensionMs (.command "queue extension overflow")
    return (.leased, some (max prior (min requested row.expiresAt)), none)

/-- The deadline of a row that is under this token and whose lease has not run out. -/
def MessageRow.heldUntil (token : LeaseToken) (row : MessageRow) : Option Int :=
  match row.state with
  | .leased stored leaseUntil =>
    if stored = token ∧ leaseUntil > now then some leaseUntil else none
  | _ => none

/-- The columns that an action writes. -/
def MessageRow.settle (row : MessageRow) (token : LeaseToken) (letter : Option Digest) :
    QueueState × Option Int × Option Int → MessageRow
  | (.leased, deadline, _) => { row with state := .leased token (deadline.getD 0) }
  | (.ready, _, due) => { row with state := .ready, dueAt := due.getD 0 }
  | (.acked, _, _) => { row with state := .acked }
  | (.dead, _, _) => { row with state := .dead letter }

/-- The part of `queue_apply_lease_with_dead_letter` for a lease that is live. -/
def settleLease (id : MessageId) (token : LeaseToken) (action : QueueLeaseAction) (row : MessageRow)
    (prior : Int) : Stateful Error QueueStore QueueLeaseOutcome := do
  let next ← lift (action.next now row prior)
  let letter ← QueueStore.onEffects (letterFor hash writer next.1 id row.payload now)
  let changed ← QueueStore.onQueue (updateMessage id (fun row => (row.heldUntil now token).isSome)
    fun row => row.settle token letter next)
  rejectWhen (!changed) (.command "queue lease changed after validation")
  return .applied next.1 next.2.1

/-- `queue_apply_lease_with_dead_letter` (`mod.rs:587`). -/
def queueApplyLease (id : MessageId) (token : LeaseToken) (action : QueueLeaseAction) :
    Stateful Error QueueStore QueueLeaseOutcome := do
  lift (validateQueueNow now)
  let store ← look
  match store.queue.messages.get? id with
  | none => return .leaseLost
  | some row =>
    match row.heldUntil now token with
    | none => return .leaseLost
    | some prior => settleLease hash writer now id token action row prior

/-! ## Control -/

/-- `QueueControlAction` (`mod.rs:213`). -/
inductive QueueControlAction where
  | pause
  | resume
  | purge (limit : Nat)
  | redrive (limit : Nat)
  deriving DecidableEq

/-- `QueueControlOutcome` (`mod.rs:232`). -/
inductive QueueControlOutcome where
  | paused (generation : Nat)
  | resumed (generation : Nat)
  | purged (messages : Nat)
  | redriven (messages : Nat)
  deriving DecidableEq

/-- `set_queue_paused` (`mod.rs:847`). -/
def setQueuePaused (paused : Bool) : Stateful Error QueueDb Nat := do
  change fun db => { db with control := { db.control with
    paused := paused
    generation := db.control.generation + if db.control.paused = paused then 0 else 1
    updatedAt := now } }
  let db ← look
  return db.control.generation

/-- `control_limit` (`mod.rs:897`). -/
def controlLimit (limit : Nat) : Result Unit :=
  reject (!(decide (1 ≤ limit) && decide (limit ≤ maxReclaimItems)))
    (.command "queue control limit must be in 1..=128")

/-- Whether a message is not leased. -/
def MessageRow.free (row : MessageRow) : Bool := row.state.kind != .leased

/-- The loop of `purge_queue` over what it selected. -/
def purgeMessage (e : MessageId × MessageRow) : Stateful Error QueueDb Unit := do
  let producers (db : QueueDb) := (db.dedup.entries.filter (·.2.messageId == e.1)).map (·.1)
  change fun db => { db with dedup := db.dedup.deleteKeys (producers db) }
  let changed ← deleteMessage e.1 (·.free)
  rejectWhen (!changed) (.command "queue purge lost selected message")

/-- `purge_queue` (`mod.rs:861`). -/
def purgeQueue (limit : Nat) : Stateful Error QueueDb Nat := do
  lift (controlLimit limit)
  let db ← look
  let messages := db.messages.select (·.2.free) (fun _ => 0) limit
  messages.forM purgeMessage
  return messages.length

/-- The dead messages whose effect is not under way. -/
def MessageRow.redrivable (effects : EffectTable) (row : MessageRow) : Bool :=
  match row.state with
  | .dead letter => !letterIn effects (·.pending) letter
  | _ => false

/-- `redrive_queue` (`mod.rs:882`). -/
def redriveQueue (limit : Nat) : Stateful Error QueueStore Nat := do
  lift (controlLimit limit)
  let expiresAt ← lift (addTime now queueRetentionMs (.command "queue redrive expiry overflow"))
  let store ← look
  let messages := store.queue.messages.select (·.2.redrivable store.effects.table)
    (fun _ => 0) limit
  messages.forM fun e => do
    let _ ← QueueStore.onQueue (updateMessage e.1 (fun _ => true) fun row =>
      { row with state := .ready, attempt := 0, dueAt := now, expiresAt := expiresAt })
  return messages.length

/-- `queue_control` (`mod.rs:492`). -/
def queueControl (action : QueueControlAction) : Stateful Error QueueStore QueueControlOutcome := do
  lift (validateQueueNow now)
  match action with
  | .pause => QueueControlOutcome.paused <$> QueueStore.onQueue (setQueuePaused now true)
  | .resume => QueueControlOutcome.resumed <$> QueueStore.onQueue (setQueuePaused now false)
  | .purge limit => QueueControlOutcome.purged <$> QueueStore.onQueue (purgeQueue limit)
  | .redrive limit => QueueControlOutcome.redriven <$> redriveQueue now limit

/-- The messages in a state. -/
def QueueDb.count (db : QueueDb) (state : QueueState) : Nat :=
  db.messages.entries.countP fun e => e.2.state.kind == state

/-- `verify_queue_counts` (`mod.rs:545`). -/
def verifyQueueCounts (db : QueueDb) : Result Unit :=
  reject (!(db.control.readyCount == db.count .ready && db.control.leasedCount == db.count .leased
    && db.control.ackedCount == db.count .acked && db.control.deadCount == db.count .dead))
    (.command "queue state counters do not match messages")

end Cellule
