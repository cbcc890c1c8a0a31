import Cellule.Lib.Lease
import Cellule.Primitives.Queue

/-!
# What the statements on a queue can do

`QueueBook` is a queue with its history: the leases as their holders know them, and what happened to
the messages. Each statement moves one message (`QueueStep`), for the holder of one lease or for
nobody. What holds of a queue over a run is kept by one step: `QueueStep.inv` for the invariant,
`QueueStep.keeps` for the messages under a live lease.
-/

namespace Cellule

open Stateful List Except OrderedMap Option MessageRow QueueDb

/-! ## Counts -/

/-- The stored count of the messages in a state. -/
def QueueControl.get (control : QueueControl) : QueueState → Int
  | .ready => control.readyCount
  | .leased => control.leasedCount
  | .acked => control.ackedCount
  | .dead => control.deadCount

/-- A count that is changed, read back. -/
theorem QueueControl.get_add (control : QueueControl) (state state' : QueueState) (n : Int) :
    (control.add state n).get state' = control.get state' + if state = state' then n else 0 := by
  cases state <;> cases state' <;> simp [QueueControl.add, QueueControl.get]

/-- The stored counts are those of the messages. -/
def QueueDb.Counted (db : QueueDb) : Prop := ∀ state, db.control.get state = db.count state

variable {db : QueueDb} {id : MessageId} {row : MessageRow} {token : LeaseToken}
  {leaseUntil now clock : Int} {holder : Option (MessageId × LeaseToken)}

/-- Counts that are right are found right. -/
theorem verifyQueueCounts_of_counted (h : db.Counted) : verifyQueueCounts db = .ok () := by
  have hready : db.control.readyCount = db.count .ready := h .ready
  have hleased : db.control.leasedCount = db.count .leased := h .leased
  have hacked : db.control.ackedCount = db.count .acked := h .acked
  have hdead : db.control.deadCount = db.count .dead := h .dead
  unfold verifyQueueCounts
  rw [hready, hleased, hacked, hdead]
  simp [Except.reject]

/-- The tables with a message more. -/
def QueueDb.added (db : QueueDb) (id : MessageId) (row : MessageRow) : QueueDb :=
  { db with messages := db.messages.insert id row, control := db.control.add row.state.kind 1 }

/-- The tables with a message written over. -/
def QueueDb.written (db : QueueDb) (id : MessageId) (old new : MessageRow) : QueueDb :=
  { db with
    messages := db.messages.insert id new
    control := if old.state.kind = new.state.kind then db.control
      else (db.control.add old.state.kind (-1)).add new.state.kind 1 }

/-- The tables with a message less. -/
def QueueDb.removed (db : QueueDb) (id : MessageId) (row : MessageRow) : QueueDb :=
  { db with messages := db.messages.erase id, control := db.control.add row.state.kind (-1) }

section
variable {db : QueueDb} {id : MessageId} {old row : MessageRow}

/-- Counts that change as the messages do stay right. -/
theorem QueueDb.Counted.of_moved {db' : QueueDb} (h : db.Counted)
    (hmoved : ∀ state, db'.control.get state + db.count state
      = db.control.get state + db'.count state) : db'.Counted := by
  intro state
  have hstored := h state
  have hnow := hmoved state
  omega

/-- A new message keeps the counts right. -/
theorem QueueDb.Counted.added (h : db.Counted) (hnone : db.messages.get? id = none) :
    (db.added id row).Counted := by
  refine h.of_moved fun state => ?_
  have hcount := countP_insert_new (fun e => e.2.state.kind == state) hnone row
  simp only [QueueDb.added, QueueControl.get_add, QueueDb.count, hcount, beq_iff_eq]
  grind

/-- A message written over keeps the counts right. -/
theorem QueueDb.Counted.written (h : db.Counted) (hold : db.messages.get? id = some old) :
    (db.written id old row).Counted := by
  refine h.of_moved fun state => ?_
  have hcount := countP_insert_old (fun e => e.2.state.kind == state) hold row
  simp only [QueueDb.written, QueueDb.count, beq_iff_eq] at hcount ⊢
  split
  · next hsame =>
    rw [hsame] at hcount
    grind
  · simp only [QueueControl.get_add]
    grind

/-- A deleted message keeps the counts right. -/
theorem QueueDb.Counted.removed (h : db.Counted) (hrow : db.messages.get? id = some row) :
    (db.removed id row).Counted := by
  refine h.of_moved fun state => ?_
  have hcount := countP_erase (fun e => e.2.state.kind == state) hrow
  simp only [QueueDb.removed, QueueControl.get_add, QueueDb.count, ← hcount, beq_iff_eq]
  grind

/-! ## Statements -/

variable {post : Unit → QueueDb → Prop}

/-- The counts change, or do not fit. -/
theorem countMessages_ends (h : post () { db with control := f db.control }) :
    (countMessages f).Ends db post (fun _ => True) := by
  unfold countMessages
  rw [ends_bind, ends_change, ends_bind, ends_look, ends_rejectWhen]
  exact ⟨fun _ => trivial, fun _ => h⟩

/-- A message is added where there is none. -/
theorem insertMessage_ends (h : db.messages.get? id = none → post () (db.added id row)) :
    (insertMessage id row).Ends db post (fun _ => True) := by
  unfold insertMessage
  rw [ends_bind, ends_look, ends_bind, ends_rejectWhen]
  refine ⟨fun _ => trivial, fun hfresh => ?_⟩
  rw [ends_bind, ends_change]
  exact countMessages_ends (h (by simpa using hfresh))

/-- A message is written over. -/
theorem writeMessage_ends (h : post () (db.written id old row)) :
    (writeMessage id old row).Ends db post (fun _ => True) := by
  unfold writeMessage
  rw [ends_bind, ends_change]
  unfold QueueDb.written at h
  split
  · next hsame =>
    rw [if_pos hsame] at h
    exact ends_pure.2 h
  · next hdiffers =>
    rw [if_neg hdiffers] at h
    exact countMessages_ends h

/-- A message that satisfies the condition is written over. -/
theorem updateMessage_ends {post : Bool → QueueDb → Prop}
    (hchanged : ∀ row, db.messages.get? id = some row → p row = true →
      post true (db.written id row (f row)))
    (hsame : (∀ row, db.messages.get? id = some row → p row = false) → post false db) :
    (updateMessage id p f).Ends db post (fun _ => True) := by
  unfold updateMessage
  rw [ends_bind, ends_look]
  split
  · next hnone => exact ends_pure.2 (hsame fun row hrow => nomatch hnone.symm.trans hrow)
  · next row hrow =>
    split
    · next hp =>
      rw [ends_bind]
      exact writeMessage_ends (ends_pure.2 (hchanged row hrow hp))
    · next hp =>
      refine ends_pure.2 (hsame fun row' hrow' => ?_)
      obtain rfl := some.inj (hrow.symm.trans hrow')
      exact Bool.eq_false_iff.2 hp

/-- A message that satisfies the condition is deleted. -/
theorem deleteMessage_ends {post : Bool → QueueDb → Prop}
    (hdeleted : ∀ row, db.messages.get? id = some row → p row = true →
      post true (db.removed id row))
    (hsame : (∀ row, db.messages.get? id = some row → p row = false) → post false db) :
    (deleteMessage id p).Ends db post (fun _ => True) := by
  unfold deleteMessage
  rw [ends_bind, ends_look]
  split
  · next hnone => exact ends_pure.2 (hsame fun row hrow => nomatch hnone.symm.trans hrow)
  · next row hrow =>
    split
    · next hp =>
      rw [ends_bind, ends_change, ends_bind]
      exact countMessages_ends (ends_pure.2 (hdeleted row hrow hp))
    · next hp =>
      refine ends_pure.2 (hsame fun row' hrow' => ?_)
      obtain rfl := some.inj (hrow.symm.trans hrow')
      exact Bool.eq_false_iff.2 hp

end

/-! ## Histories -/

/-- What happened to a message. -/
inductive QueueEvent where
  | sent (id : MessageId)
  | claimed (id : MessageId)
  | acked (id : MessageId)
  | redriven (id : MessageId)
  deriving DecidableEq

namespace QueueEvent

/-- The message of an event. -/
def message : QueueEvent → MessageId
  | sent id | claimed id | acked id | redriven id => id

/-- A count of the claims of a message, after one more event: it starts again at a send and at a
redrive. -/
def counted (id : MessageId) (n : Nat) : QueueEvent → Nat
  | sent id' | redriven id' => if id' = id then 0 else n
  | claimed id' => if id' = id then n + 1 else n
  | acked _ => n

/-- An event of another message is not counted. -/
theorem counted_of_ne {e : QueueEvent} (h : e.message ≠ id) (n : Nat) : e.counted id n = n := by
  cases e with
  | acked => rfl
  | sent | claimed | redriven => exact if_neg h

/-- Only a claim raises the count. -/
theorem counted_le {e : QueueEvent} (h : e ≠ .claimed id) (n : Nat) : e.counted id n ≤ n := by
  cases e with
  | acked => exact le_rfl
  | claimed id' => exact le_of_eq (if_neg fun hid => h (congrArg _ hid))
  | sent | redriven =>
    simp only [counted]
    split
    · exact Nat.zero_le n
    · exact le_rfl

end QueueEvent

/-- How often a message was claimed since it was last sent or redriven. -/
def claimsSince (id : MessageId) (events : List QueueEvent) : Nat :=
  events.foldl (fun n e => e.counted id n) 0

/-- The claims since a message was sent, after one more event. -/
theorem claimsSince_concat (id : MessageId) (events : List QueueEvent) (e : QueueEvent) :
    claimsSince id (events ++ [e]) = e.counted id (claimsSince id events) := by
  rw [claimsSince, foldl_append]
  rfl

/-- An event of another message leaves the claims. -/
theorem claimsSince_of_ne {events : List QueueEvent} (h : e.message ≠ id) :
    claimsSince id (events ++ [e]) = claimsSince id events :=
  (claimsSince_concat id events e).trans (e.counted_of_ne h _)

/-- The message was acknowledged, and was not sent since. -/
def AckedSince (events : List QueueEvent) (id : MessageId) : Prop :=
  ∃ before after, events = before ++ .acked id :: after ∧ .sent id ∉ after

/-- No message is claimed after it was acknowledged, unless it was sent anew in between. -/
def NeverAgain (events : List QueueEvent) : Prop :=
  ∀ before after id, events = before ++ .claimed id :: after → ¬AckedSince before id

/-- A message is acknowledged by the last event, or was and is not sent again. -/
theorem ackedSince_concat
    (h : AckedSince (events ++ [e]) id) : e = .acked id ∨ AckedSince events id ∧ e ≠ .sent id := by
  obtain ⟨before, after, hevents, hsent⟩ := h
  rcases eq_nil_or_concat after with rfl | ⟨after', last, rfl⟩
  · exact .inl (append_singleton_inj.1 hevents).2
  · rw [concat_eq_append, ← cons_append, ← append_assoc] at hevents
    obtain ⟨rfl, rfl⟩ := append_singleton_inj.1 hevents
    rw [concat_eq_append, mem_append, mem_singleton, not_or] at hsent
    exact .inr ⟨⟨before, after', rfl, hsent.1⟩, fun h => hsent.2 h.symm⟩

/-- A history in which no message comes back after its acknowledgement, and at every point was
claimed at most `maxAttempts` times since it was last sent or redriven. -/
structure SoundHistory (events : List QueueEvent) : Prop where
  never : NeverAgain events
  bounded : ∀ id before after, events = before ++ after → claimsSince id before ≤ maxAttempts

/-- One more event: a claim has to be of a message that is not acknowledged and has attempts
left. -/
theorem SoundHistory.concat (h : SoundHistory events)
    (he : ∀ id, e = .claimed id → ¬AckedSince events id ∧ claimsSince id events < maxAttempts) :
    SoundHistory (events ++ [e]) where
  never before after id hevents := by
    rcases eq_nil_or_concat after with rfl | ⟨after', last, rfl⟩
    · obtain ⟨rfl, rfl⟩ := append_singleton_inj.1 hevents
      exact (he id rfl).1
    · rw [concat_eq_append, ← cons_append, ← append_assoc] at hevents
      exact h.never before after' id (append_singleton_inj.1 hevents).1
  bounded id before after hevents := by
    rcases eq_nil_or_concat after with rfl | ⟨after', last, rfl⟩
    · rw [← hevents.trans (append_nil before), claimsSince_concat]
      by_cases hclaim : e = .claimed id
      · rw [hclaim]
        exact (if_pos rfl).trans_le (he id hclaim).2
      · exact (QueueEvent.counted_le hclaim _).trans (h.bounded id events [] (append_nil _).symm)
    · rw [concat_eq_append, ← append_assoc] at hevents
      exact h.bounded id before after' (append_singleton_inj.1 hevents).1

/-- A queue with its history. -/
structure QueueBook where
  queue : QueueDb
  spans : List (Lease.Span MessageId LeaseToken)
  events : List QueueEvent

/-- The lease that a row is under. -/
def MessageRow.lease (row : MessageRow) : Option (LeaseToken × Int) :=
  match row.state with
  | .leased token leaseUntil => some (token, leaseUntil)
  | _ => none

/-- The lease that a message is under. -/
def QueueDb.held (db : QueueDb) (id : MessageId) : Option (LeaseToken × Int) :=
  (db.messages.get? id).bind lease

/-- The event of a message that got a state. -/
def ackEvent (id : MessageId) : QueueState → List QueueEvent
  | .acked => [.acked id]
  | _ => []

/-- One statement on a queue, for the holder of a lease or for nobody. -/
inductive QueueStep (holder : Option (MessageId × LeaseToken)) (now : Int) :
    QueueBook → QueueBook → Prop where
  | send {b : QueueBook} {id : MessageId} {row : MessageRow}
    (none : b.queue.messages.get? id = none)
      (ready : row.state = .ready) (attempt : row.attempt = 0) :
      QueueStep holder now b ⟨b.queue.added id row, b.spans, b.events ++ [.sent id]⟩
  | claim {b : QueueBook} {id : MessageId} {row : MessageRow} {token : LeaseToken}
    {leaseUntil : Int}
      (row_eq : b.queue.messages.get? id = some row) (ready : row.state = .ready)
      (attempt : row.attempt < maxAttempts) (deadline : leaseUntil ≤ row.expiresAt)
      (fresh : ∀ s ∈ b.spans, s.lease ≠ token) :
      QueueStep holder now b
        ⟨b.queue.written id row
            { row with state := .leased token leaseUntil, attempt := row.attempt + 1 },
          b.spans ++ [⟨id, token, now, leaseUntil⟩], b.events ++ [.claimed id]⟩
  | settle {b : QueueBook} {id : MessageId} {row row' : MessageRow} {token : LeaseToken}
      {leaseUntil : Int} (own : holder = some (id, token))
      (row_eq : b.queue.messages.get? id = some row) (leased : row.state = .leased token leaseUntil)
      (live : now < leaseUntil) (free : row'.free = true) (attempt : row'.attempt = row.attempt) :
      QueueStep holder now b ⟨b.queue.written id row row', Lease.restop b.spans id token now,
        b.events ++ ackEvent id row'.state.kind⟩
  | extend {b : QueueBook} {id : MessageId} {row : MessageRow} {token : LeaseToken}
      {leaseUntil leaseUntil' : Int} (own : holder = some (id, token))
      (row_eq : b.queue.messages.get? id = some row) (leased : row.state = .leased token leaseUntil)
      (live : now < leaseUntil) (longer : leaseUntil ≤ leaseUntil')
      (deadline : leaseUntil' ≤ max leaseUntil row.expiresAt) :
      QueueStep holder now b
        ⟨b.queue.written id row { row with state := .leased token leaseUntil' },
          Lease.restop b.spans id token leaseUntil', b.events⟩
  | write {b : QueueBook} {id : MessageId} {row row' : MessageRow}
      (row_eq : b.queue.messages.get? id = some row)
      (out : row.lapsed now = true ∨ row.free = true) (unfinished : row.state ≠ .acked)
      (free : row'.free = true) (attempt : row'.attempt = row.attempt) :
      QueueStep holder now b ⟨b.queue.written id row row', b.spans, b.events⟩
  | redrive {b : QueueBook} {id : MessageId} {row row' : MessageRow}
      (row_eq : b.queue.messages.get? id = some row) (dead : row.state.kind = .dead)
      (ready : row'.state = .ready) (attempt : row'.attempt = 0) :
      QueueStep holder now b
        ⟨b.queue.written id row row', b.spans, b.events ++ [.redriven id]⟩
  | delete {b : QueueBook} {id : MessageId} {row : MessageRow}
      (row_eq : b.queue.messages.get? id = some row) (free : row.free = true) :
      QueueStep holder now b ⟨b.queue.removed id row, b.spans, b.events⟩
  | other {b : QueueBook} {queue : QueueDb} (messages : queue.messages = b.queue.messages)
      (counts : ∀ state, queue.control.get state = b.queue.control.get state) :
      QueueStep holder now b { b with queue := queue }

/-- The statements of an operation. -/
abbrev QueueSteps (holder : Option (MessageId × LeaseToken)) (now : Int) :
    QueueBook → QueueBook → Prop :=
  Relation.ReflTransGen (QueueStep holder now)

/-! ## The invariant of a queue -/

/-- How the tables stand for the history. -/
structure QueueInv (clock : Int) (b : QueueBook) : Prop where
  apart : Lease.Apart clock b.queue.held b.spans
  attempt : ∀ id row, b.queue.messages.get? id = some row → row.attempt = claimsSince id b.events
  deadline : ∀ id row token leaseUntil, b.queue.messages.get? id = some row →
    row.state = .leased token leaseUntil → leaseUntil ≤ row.expiresAt
  acked : ∀ id, AckedSince b.events id → ∀ row, b.queue.messages.get? id = some row →
    row.state = .acked
  sound : SoundHistory b.events
  counted : b.queue.Counted

/-- A message that is ready has no lease. -/
theorem MessageRow.ready_free (h : row.state = .ready) : row.free = true := by
  unfold free
  rw [h]
  rfl

/-- A message that is ready is not acknowledged. -/
theorem MessageRow.ready_open (h : row.state = .ready) : row.state ≠ .acked := by
  rw [h]
  exact nofun

/-- A dead message has no lease and is not acknowledged. -/
theorem MessageRow.dead_free (h : row.state.kind = .dead) : row.free = true ∧
    row.state ≠ .acked := by
  refine ⟨?_, fun hstate => ?_⟩
  · unfold free
    rw [h]
    rfl
  · rw [hstate] at h
    cases h

/-- A free row has no lease. -/
theorem MessageRow.lease_of_free (h : row.free = true) : row.lease = none := by
  unfold free at h
  unfold lease
  split
  · next hstate =>
    rw [hstate] at h
    cases h
  · rfl

/-- A free row is not leased. -/
theorem MessageRow.free_not_leased (h : row.free = true) (token : LeaseToken) (leaseUntil : Int) :
    row.state ≠ .leased token leaseUntil := by
  intro hstate
  unfold free at h
  rw [hstate] at h
  cases h

/-- A leased row has its token and deadline. -/
theorem MessageRow.lease_of_leased (h : row.state = .leased token leaseUntil) :
    row.lease = some (token, leaseUntil) := by
  unfold lease
  rw [h]

/-- A lease that may be written over is out. -/
theorem MessageRow.lease_out (h : row.lapsed now = true ∨ row.free = true)
    (hlease : row.lease = some (token, stop)) : stop ≤ now := by
  rcases h with h | h
  · unfold lapsed at h
    unfold lease at hlease
    split at hlease
    · next hstate =>
      rw [hstate] at h
      rw [← (Prod.mk.inj (some.inj hlease)).2]
      exact of_decide_eq_true h
    · cases hlease
  · rw [lease_of_free h] at hlease
    cases hlease

/-- The lease of a message is that of its row. -/
theorem QueueDb.held_of_row (h : db.messages.get? id = some row) : db.held id = row.lease := by
  unfold QueueDb.held
  rw [h]
  rfl

/-- A message written over changes its own lease alone. -/
theorem QueueDb.held_written (db : QueueDb) (id : MessageId) (old new : MessageRow) :
    (db.written id old new).held = Function.update db.held id new.lease := by
  funext id'
  unfold QueueDb.held QueueDb.written
  dsimp only
  rw [get?_insert, Function.update_apply]
  split <;> rfl

/-- The rows of a table with a message written over. -/
theorem QueueDb.written_cases (h : (db.written id old new).messages.get? id' = some row) :
    id' = id ∧ row = new ∨ id' ≠ id ∧ db.messages.get? id' = some row :=
  get?_insert_cases h

namespace QueueInv

variable {clock now : Int} {b : QueueBook} {id : MessageId} {row row' : MessageRow}
  (h : QueueInv clock b)
include h

/-- Each row is one that was there, not acknowledged or claimed since, or stands for the history by
itself. -/
theorem of_rows (hapart : Lease.Apart now b'.queue.held b'.spans)
    (hrows : ∀ id row, b'.queue.messages.get? id = some row →
      b.queue.messages.get? id = some row ∧ (AckedSince b'.events id → AckedSince b.events id) ∧
        claimsSince id b'.events = claimsSince id b.events ∨
      row.attempt = claimsSince id b'.events ∧ (∀ token leaseUntil,
        row.state = .leased token leaseUntil → leaseUntil ≤ row.expiresAt) ∧
        (AckedSince b'.events id → row.state = .acked))
    (hsound : SoundHistory b'.events) (hcounted : b'.queue.Counted) : QueueInv now b' where
  apart := hapart
  attempt id row hrow := (hrows id row hrow).elim
    (fun hold => (h.attempt id row hold.1).trans hold.2.2.symm) And.left
  deadline id row token leaseUntil hrow hstate := (hrows id row hrow).elim
    (fun hold => h.deadline id row token leaseUntil hold.1 hstate)
    fun hnew => hnew.2.1 token leaseUntil hstate
  acked id hsince row hrow := (hrows id row hrow).elim
    (fun hold => h.acked id (hold.2.1 hsince) row hold.1) fun hnew => hnew.2.2 hsince
  sound := hsound
  counted := hcounted

section
variable (hrow : b.queue.messages.get? id = some row)
include hrow

/-- A message is written over: what is left to show is that the leases stay apart, and that the
history stays right. -/
theorem written (hdeadline : ∀ token leaseUntil, row'.state = .leased token leaseUntil →
      leaseUntil ≤ row'.expiresAt)
    (hapart : Lease.Apart now (b.queue.written id row row').held spans)
    (hattempt : row'.attempt = claimsSince id events)
    (hclaims : ∀ id', id' ≠ id → claimsSince id' events = claimsSince id' b.events)
    (hacked : ∀ id', AckedSince events id' → id' ≠ id ∧ AckedSince b.events id' ∨
      id' = id ∧ row'.state = .acked)
    (hsound : SoundHistory events) :
    QueueInv now ⟨b.queue.written id row row', spans, events⟩ := by
  refine h.of_rows hapart (fun id' stored hstored => ?_) hsound (h.counted.written hrow)
  rcases written_cases hstored with ⟨rfl, rfl⟩ | ⟨hid, hstored⟩
  · exact .inr ⟨hattempt, hdeadline, fun hsince =>
      ((hacked _ hsince).resolve_left fun hother => hother.1 rfl).2⟩
  · exact .inl ⟨hstored, fun hsince => ((hacked _ hsince).resolve_right fun hthis => hid hthis.1).2,
      hclaims id' hid⟩

/-- A message that is not acknowledged now was not acknowledged since it was sent. -/
theorem not_acked (hstate : row.state ≠ .acked) : ¬AckedSince b.events id :=
  fun hsince => hstate (h.acked id hsince row hrow)

/-- The history of a message that was not acknowledged does not change. -/
theorem acked_other (hstate : row.state ≠ .acked)
    (id' : MessageId) (hsince : AckedSince b.events id') :
    id' ≠ id ∧ AckedSince b.events id' :=
  ⟨fun hid => h.not_acked hrow hstate (hid ▸ hsince), hsince⟩

/-- A message without a live lease is written over, with an event that neither acknowledges nor
claims it. -/
theorem rewritten (hclock : clock ≤ now)
    (hout : row.lapsed now = true ∨ row.free = true) (hopen : row.state ≠ .acked)
    (hfree : row'.free = true) (hattempt : row'.attempt = claimsSince id events)
    (hclaims : ∀ id', id' ≠ id → claimsSince id' events = claimsSince id' b.events)
    (hacked : ∀ id', AckedSince events id' → AckedSince b.events id')
    (hsound : SoundHistory events) :
    QueueInv now ⟨b.queue.written id row row', b.spans, events⟩ := by
  refine h.written hrow ?_ ?_ hattempt hclaims
    (fun id' hsince => .inl (h.acked_other hrow hopen id' (hacked id' hsince))) hsound
  · exact fun _ _ hstate => absurd hstate (free_not_leased hfree _ _)
  · rw [held_written, lease_of_free hfree]
    refine h.apart.lapse hclock fun l stop hheld => ?_
    rw [held_of_row hrow] at hheld
    exact lease_out hout hheld

end

/-- A message is sent. -/
theorem sent (hclock : clock ≤ now) (hnone : b.queue.messages.get? id = none)
    (hready : row.state = .ready) (hattempt : row.attempt = 0) :
    QueueInv now ⟨b.queue.added id row, b.spans, b.events ++ [.sent id]⟩ := by
  refine h.of_rows ?_ (fun id' stored hstored => ?_) (h.sound.concat nofun) (h.counted.added hnone)
  · show Lease.Apart now (b.queue.written id row row).held b.spans
    rw [held_written, lease_of_free (ready_free hready)]
    refine h.apart.lapse hclock fun l stop hheld => ?_
    unfold QueueDb.held at hheld
    rw [hnone] at hheld
    cases hheld
  · have hevent : AckedSince (b.events ++ [.sent id]) id' → AckedSince b.events id' ∧ id' ≠ id := by
      intro hsince
      obtain ⟨hsince, hnew⟩ := (ackedSince_concat hsince).resolve_left nofun
      exact ⟨hsince, fun hid => hnew (hid ▸ rfl)⟩
    rcases get?_insert_cases hstored with ⟨rfl, rfl⟩ | ⟨hid, hstored⟩
    · refine .inr ⟨?_, ?_, fun hsince => absurd rfl (hevent hsince).2⟩
      · rw [hattempt, claimsSince_concat]
        exact (if_pos rfl).symm
      · exact fun token leaseUntil hstate => nomatch hready.symm.trans hstate
    · refine .inl ⟨hstored, fun hsince => (hevent hsince).1, ?_⟩
      exact claimsSince_of_ne fun h => hid h.symm

/-- A message without a lease is deleted. -/
theorem removed (hclock : clock ≤ now) (hrow : b.queue.messages.get? id = some row)
    (hfree : row.free = true) :
    QueueInv now ⟨b.queue.removed id row, b.spans, b.events⟩ := by
  refine h.of_rows ?_ (fun id' stored hstored => .inl ⟨?_, fun h => h, rfl⟩) h.sound
    (h.counted.removed hrow)
  · have hheld : (b.queue.removed id row).held = b.queue.held := by
      funext id'
      show ((b.queue.messages.erase id).get? id').bind lease = b.queue.held id'
      rw [get?_erase]
      split
      · next hid =>
        rw [hid, held_of_row hrow, lease_of_free hfree]
        rfl
      · rfl
    exact hheld ▸ h.apart.later hclock
  · have hstored' : (b.queue.messages.erase id).get? id' = some stored := hstored
    rw [get?_erase] at hstored'
    split at hstored'
    · cases hstored'
    · exact hstored'

end QueueInv

variable {b b' : QueueBook}

/-- Every step keeps the invariant. -/
theorem QueueStep.inv (hstep : QueueStep holder now b b') (hclock : clock ≤ now)
    (h : QueueInv clock b) : QueueInv now b' := by
  cases hstep with
  | send hnone hready hattempt => exact h.sent hclock hnone hready hattempt
  | @claim id row token leaseUntil hrow hready hattempt hdeadline hfresh =>
    have hopen := ready_open hready
    have hcount := h.attempt id row hrow
    refine h.written hrow ?_ ?_ ?_ ?_ ?_ ?_
    · intro token' leaseUntil' hstate
      obtain ⟨-, rfl⟩ := MessageState.leased.inj hstate
      exact hdeadline
    · rw [held_written]
      refine h.apart.grant hclock ?_ fun s hs _ => hfresh s hs
      rw [held_of_row hrow]
      exact lease_of_free (ready_free hready)
    · rw [claimsSince_concat, ← hcount]
      exact (if_pos rfl).symm
    · exact fun id' hne => claimsSince_of_ne hne.symm
    · intro id' hsince
      rcases ackedSince_concat hsince with hevent | ⟨hsince, -⟩
      · cases hevent
      · exact .inl (h.acked_other hrow hopen id' hsince)
    · refine h.sound.concat fun id' hevent => ?_
      obtain rfl := QueueEvent.claimed.inj hevent
      exact ⟨h.not_acked hrow hopen, hcount ▸ hattempt⟩
  | @settle id row row' token leaseUntil hown hrow hleased hlive hfree hattempt =>
    have hopen : row.state ≠ .acked := by
      rw [hleased]
      exact nofun
    have hclaims : ∀ id', claimsSince id' (b.events ++ ackEvent id row'.state.kind)
        = claimsSince id' b.events := by
      intro id'
      unfold ackEvent
      split
      · exact claimsSince_concat _ _ _
      · rw [append_nil]
    refine h.written hrow ?_ ?_ ?_ (fun id' _ => hclaims id') ?_ ?_
    · exact fun _ _ hstate => absurd hstate (free_not_leased hfree _ _)
    · rw [held_written]
      refine h.apart.move hclock (l := token) ?_ hlive (.inr ⟨lease_of_free hfree, rfl⟩)
      rw [held_of_row hrow, lease_of_leased hleased]
    · rw [hclaims, hattempt]
      exact h.attempt id row hrow
    · intro id' hsince
      unfold ackEvent at hsince
      split at hsince
      · next hkind =>
        rcases ackedSince_concat hsince with hevent | ⟨hsince, -⟩
        · obtain rfl := QueueEvent.acked.inj hevent
          refine .inr ⟨rfl, ?_⟩
          cases hstate : row'.state <;> rw [hstate] at hkind <;> first | rfl | cases hkind
        · exact .inl (h.acked_other hrow hopen id' hsince)
      · rw [append_nil] at hsince
        exact .inl (h.acked_other hrow hopen id' hsince)
    · unfold ackEvent
      split
      · exact h.sound.concat nofun
      · rw [append_nil]
        exact h.sound
  | @extend id row token leaseUntil leaseUntil' hown hrow hleased hlive hlonger hdeadline =>
    have hopen : row.state ≠ .acked := by
      rw [hleased]
      exact nofun
    refine h.written hrow ?_ ?_ (h.attempt id row hrow) (fun _ _ => rfl)
      (fun id' hsince => .inl (h.acked_other hrow hopen id' hsince)) h.sound
    · intro token' deadline' hstate
      obtain ⟨-, rfl⟩ := MessageState.leased.inj hstate
      exact hdeadline.trans (max_le (h.deadline id row token leaseUntil hrow hleased) le_rfl)
    · rw [held_written]
      refine h.apart.move hclock (l := token) ?_ hlive (.inl rfl)
      rw [held_of_row hrow, lease_of_leased hleased]
  | @write id row row' hrow hout hopen hfree hattempt =>
    exact h.rewritten hrow hclock hout hopen hfree (hattempt.trans (h.attempt id row hrow))
      (fun _ _ => rfl) (fun _ hsince => hsince) h.sound
  | @redrive id row row' hrow hdead hready hattempt =>
    obtain ⟨hfree, hopen⟩ := dead_free hdead
    refine h.rewritten hrow hclock (.inr hfree) hopen (ready_free hready) ?_
      (fun id' hne => claimsSince_of_ne hne.symm) (fun id' hsince => ?_) (h.sound.concat nofun)
    · rw [hattempt, claimsSince_concat]
      exact (if_pos rfl).symm
    · exact ((ackedSince_concat hsince).resolve_left nofun).1
  | delete hrow hfree => exact h.removed hclock hrow hfree
  | @other queue hmessages hcounts =>
    refine h.of_rows ?_
      (fun id' stored hstored => .inl ⟨hmessages ▸ hstored, fun hsince => hsince, rfl⟩) h.sound ?_
    · have hheld : queue.held = b.queue.held := funext fun id' => by
        unfold QueueDb.held
        rw [hmessages]
      exact hheld ▸ h.apart.later hclock
    · intro state
      rw [hcounts, h.counted state]
      unfold QueueDb.count
      rw [hmessages]

/-- Time goes on. -/
theorem QueueInv.later (h : QueueInv clock b) (hclock : clock ≤ now) : QueueInv now b :=
  ⟨h.apart.later hclock, h.attempt, h.deadline, h.acked, h.sound, h.counted⟩

/-- The statements of an operation keep the invariant. -/
theorem QueueSteps.inv (hsteps : QueueSteps holder now b b') (hclock : clock ≤ now)
    (h : QueueInv clock b) : QueueInv now b' := by
  induction hsteps with
  | refl => exact h.later hclock
  | tail _ hstep ih => exact hstep.inv le_rfl ih

/-! ## Messages under a live lease -/

/-- The message is under this lease, and the lease has not run out. -/
def QueueDb.Holds (db : QueueDb) (now : Int) (id : MessageId) (token : LeaseToken) : Prop :=
  ∃ row leaseUntil, db.messages.get? id = some row ∧ row.state = .leased token leaseUntil ∧
    now < leaseUntil

/-- A row under a live lease is not written over, but by its holder. -/
theorem MessageRow.not_out (hleased : row.state = .leased token leaseUntil)
    (hlive : now < leaseUntil) (h : row.lapsed now = true ∨ row.free = true) : False :=
  absurd (lease_out h (lease_of_leased hleased)) (not_le.2 hlive)

/-- Nobody but its holder touches a message under a live lease. -/
theorem QueueStep.keeps (hstep : QueueStep holder now b b')
    (hrow : b.queue.messages.get? id = some row) (hleased : row.state = .leased token leaseUntil)
    (hlive : now < leaseUntil) (hother : holder ≠ some (id, token)) :
    b'.queue.messages.get? id = some row := by
  have hne : ∀ {id' row'}, b.queue.messages.get? id' = some row' → (row = row' → id = id' → False) →
      id ≠ id' := by
    rintro _ row' hrow' hnot rfl
    exact hnot (some.inj (hrow.symm.trans hrow')) rfl
  have hwritten : ∀ {id' old new}, id ≠ id' →
      (b.queue.written id' old new).messages.get? id = some row :=
    fun hid => (get?_insert_of_ne _ hid _).trans hrow
  cases hstep with
  | @send id' row' hnone _ _ =>
    have hid : id ≠ id' := by
      rintro rfl
      cases hnone.symm.trans hrow
    exact (get?_insert_of_ne _ hid _).trans hrow
  | claim hrow' hready _ _ _ =>
    refine hwritten (hne hrow' ?_)
    rintro rfl -
    cases hleased.symm.trans hready
  | settle hown hrow' hleased' _ _ _ =>
    refine hwritten (hne hrow' ?_)
    rintro rfl rfl
    obtain ⟨rfl, -⟩ := MessageState.leased.inj (hleased.symm.trans hleased')
    exact hother hown
  | extend hown hrow' hleased' _ _ _ =>
    refine hwritten (hne hrow' ?_)
    rintro rfl rfl
    obtain ⟨rfl, -⟩ := MessageState.leased.inj (hleased.symm.trans hleased')
    exact hother hown
  | write hrow' hout _ _ _ =>
    refine hwritten (hne hrow' ?_)
    rintro rfl -
    exact not_out hleased hlive hout
  | redrive hrow' hdead _ _ =>
    refine hwritten (hne hrow' ?_)
    rintro rfl -
    exact not_out hleased hlive (.inr (dead_free hdead).1)
  | @delete id' row' hrow' hfree =>
    show (b.queue.messages.erase id').get? id = some row
    rw [get?_erase, if_neg (hne hrow' ?_)]
    · exact hrow
    · rintro rfl -
      exact not_out hleased hlive (.inr hfree)
  | @other queue hmessages _ => exact hmessages ▸ hrow

/-- Nor do the statements of an operation for another holder. -/
theorem QueueSteps.keeps (hsteps : QueueSteps holder now b b')
    (hrow : b.queue.messages.get? id = some row) (hleased : row.state = .leased token leaseUntil)
    (hlive : now < leaseUntil) (hother : holder ≠ some (id, token)) :
    b'.queue.messages.get? id = some row := by
  induction hsteps with
  | refl => exact hrow
  | tail _ hstep ih => exact hstep.keeps ih hleased hlive hother

/-! ## Operations -/

/-- The book with other tables. -/
def QueueBook.withQueue (b : QueueBook) (queue : QueueDb) : QueueBook := { b with queue := queue }

section
variable {holder : Option (MessageId × LeaseToken)} {now : Int} {b : QueueBook}
  {hash : Hash} {writer : Option QueueDeadLetterTarget} {store : QueueStore}
  {row : MessageRow} {queue : QueueDb} {id : MessageId} {token : LeaseToken}
  {action : QueueLeaseAction} {reply : QueueLeaseOutcome}

/-- A program on the effects leaves the tables of the queue. -/
theorem onEffects_ends (h : ∀ a effects, post a { store with effects := effects }) :
    (QueueStore.onEffects program).Ends store post (fun _ => True) :=
  .within (.intro (fun a effects _ => h a effects) fun _ _ _ => trivial)

/-- A program on the tables of the queue. -/
theorem onQueue_ends
    (h : program.Ends store.queue (fun a queue => post a { store with queue := queue })
      fun _ => True) :
    (QueueStore.onQueue program).Ends store post (fun _ => True) :=
  .within h

/-- The producers that a message is known by. -/
def QueueDb.producers (db : QueueDb) (id : MessageId) : List ProducerId :=
  (db.dedup.entries.filter (·.2.messageId == id)).map (·.1)

/-- One statement of the maintenance or of the control of a queue. -/
inductive Upkeep (now : Int) : QueueDb → QueueDb → Prop
  | write {db : QueueDb} {id : MessageId} {row row' : MessageRow}
      (row_eq : db.messages.get? id = some row) (out : row.lapsed now = true ∨ row.free = true)
      (unfinished : row.state ≠ .acked) (free : row'.free = true)
      (attempt : row'.attempt = row.attempt) : Upkeep now db (db.written id row row')
  | delete {db : QueueDb} {id : MessageId} {row : MessageRow}
      (row_eq : db.messages.get? id = some row) (free : row.free = true) :
      Upkeep now db (db.removed id row)
  | purge {db : QueueDb} {id : MessageId} {row : MessageRow}
      (row_eq : db.messages.get? id = some row) (free : row.free = true) :
      Upkeep now db
        (QueueDb.removed { db with dedup := db.dedup.deleteKeys (db.producers id) } id row)
  | forget {db : QueueDb} {producers : List ProducerId}
      (gone : ∀ p ∈ producers, ∃ d, db.dedup.get? p = some d ∧
        db.messages.get? d.messageId = none) :
      Upkeep now db { db with dedup := db.dedup.deleteKeys producers }
  | pause {db : QueueDb} {control : QueueControl}
      (counts : ∀ state, control.get state = db.control.get state) :
      Upkeep now db { db with control := control }

/-- The statements of one operation of maintenance. -/
abbrev Upkept (now : Int) : QueueDb → QueueDb → Prop := Relation.ReflTransGen (Upkeep now)

/-- A program that maintains a queue. -/
abbrev Upkeeps {α : Type} (now : Int) (store : QueueStore) (program : Stateful Error QueueStore α) :
    Prop := program.Ends store (fun _ s => Upkept now store.queue s.queue) fun _ => True

/-- Maintenance takes statements of its own in the history. -/
theorem QueueSteps.of_upkeep (h : Upkept now b.queue queue) :
    QueueSteps holder now b (b.withQueue queue) := by
  induction h with
  | refl => exact .refl
  | @tail db _ _ hstep ih =>
    cases hstep with
    | write hrow hout hopen hfree hattempt => exact ih.tail (.write hrow hout hopen hfree hattempt)
    | delete hrow hfree => exact ih.tail (.delete hrow hfree)
    | purge hrow hfree =>
      have hdedup : ∀ dedup, QueueSteps holder now b (b.withQueue { db with dedup := dedup }) :=
        fun _ => ih.tail (.other rfl fun _ => rfl)
      exact (hdedup _).tail (.delete hrow hfree)
    | forget => exact ih.tail (.other rfl fun _ => rfl)
    | pause hcounts => exact ih.tail (.other rfl hcounts)

/-- The frame of the bounded maintenance functions. -/
theorem upkeep_ends {body : QueueStore → Stateful Error QueueStore Nat}
    (h : Upkeeps now store (body store)) :
    Upkeeps now store (do
      lift (validateQueueNow now)
      lift (validateQueueLimit limit)
      if limit = 0 then
        return 0
      else do
        let store ← look
        body store) := by
  refine .lift_bind (fun _ _ => ?_) trivial
  refine .lift_bind (fun _ _ => ?_) trivial
  split
  · exact ends_pure.2 .refl
  · exact .look_bind h

/-- A loop over messages. -/
theorem upkeep_forM
    {rows : List (MessageId × MessageRow)} (h : ∀ e store, Upkeeps now store (f e)) :
    Upkeeps now store (do rows.forM f; return n) := by
  refine ends_bind.2 ?_
  refine (Ends.forM (I := fun _ s => Upkept now store.queue s.queue)
    (fun _ e s _ hsteps => ?_) .refl).mono (fun _ _ h => ends_pure.2 h) fun _ h => h
  exact (h e s).mono (fun _ _ hmore => hsteps.trans hmore) fun _ h => h

section
variable (limit : Nat)

/-- Messages with a lease that has run out are taken back. -/
theorem queueReclaimExpiredBounded_ends :
    Upkeeps now store (queueReclaimExpiredBounded hash writer now limit) := by
  refine upkeep_ends (upkeep_forM fun e store => ?_)
  unfold reclaimMessage
  dsimp only
  refine ends_bind.2 ?_
  refine onEffects_ends fun letter effects => ?_
  refine ends_bind.2 ?_
  refine onQueue_ends (updateMessage_ends (fun row hrow hlapsed => ?_) fun _ => trivial)
  refine ends_pure.2 (.single (.write hrow (.inl hlapsed) ?_ ?_ ?_))
  · intro hstate
    unfold lapsed at hlapsed
    rw [hstate] at hlapsed
    cases hlapsed
  · split <;> rfl
  · split <;> rfl

/-- Ready messages that no claim can take die. -/
theorem queueExpireReadyBounded_ends :
    Upkeeps now store (queueExpireReadyBounded hash writer now limit) := by
  refine upkeep_ends (upkeep_forM fun e store => ?_)
  unfold expireMessage
  refine ends_bind.2 ?_
  refine onEffects_ends fun letter effects => ?_
  refine ends_bind.2 ?_
  refine onQueue_ends (updateMessage_ends (fun row hrow hexhausted => ?_) fun _ => trivial)
  have hready : row.state = .ready := by
    unfold exhausted at hexhausted
    simp only [Bool.and_eq_true, beq_iff_eq] at hexhausted
    exact hexhausted.1
  exact ends_pure.2 (.single (.write hrow (.inr (ready_free hready))
    (ready_open hready) rfl rfl))

/-- Producers whose messages are gone are forgotten. -/
theorem cleanDedup_ends :
    (cleanDedup now limit).Ends queue (fun _ queue' => Upkeep now queue queue')
    (fun _ => True) := by
  unfold cleanDedup
  refine .look_bind ?_
  dsimp only
  rw [ends_bind, ends_change]
  refine ends_pure.2 (.forget fun p hp => ?_)
  obtain ⟨e, he, rfl⟩ := mem_map.1 hp
  obtain ⟨hrow, hexpired⟩ := mem_of_mem_select he
  rw [Bool.and_eq_true, isNone_iff_eq_none] at hexpired
  exact ⟨e.2, hrow, hexpired.2⟩

/-- Finished messages and forgotten producers are deleted. -/
theorem queueCleanupExpiredBounded_ends :
    Upkeeps now store (queueCleanupExpiredBounded now limit) := by
  refine upkeep_ends ?_
  dsimp only
  refine ends_bind.2 ?_
  refine (ends_forM_rows
    (T := fun store : QueueStore => store.queue.messages)
    (I := fun s => Upkept now store.queue s.queue)
    (nodup_select _ _ _ _) (fun e he s hsteps hrow => ?_) .refl
    fun e he => (mem_of_mem_select he).1).mono (fun _ s hsteps => ?_) fun _ h => h
  · have hfree : e.2.free = true := by
      have hdisposable := (mem_of_mem_select he).2
      unfold disposable at hdisposable
      unfold free
      cases hstate : e.2.state with
      | leased token leaseUntil =>
        rw [hstate] at hdisposable
        simp at hdisposable
      | ready | acked | dead => rfl
    refine ends_bind.2 ?_
    refine onQueue_ends (deleteMessage_ends (fun row hrow' _ => ?_) fun hnone => ?_)
    · obtain rfl := some.inj (hrow.symm.trans hrow')
      refine ends_pure.2 ⟨hsteps.tail (.delete hrow hfree), fun k hk => ?_⟩
      show (s.queue.messages.erase e.1).get? k = s.queue.messages.get? k
      rw [get?_erase, if_neg hk]
    · cases hnone e.2 hrow
  · split
    · exact ends_pure.2 hsteps
    refine ends_bind.2 ?_
    refine onQueue_ends ((cleanDedup_ends _).mono (fun _ _ h => ?_) fun _ h => h)
    exact ends_pure.2 (hsteps.tail h)

/-- Messages that are not leased are purged. -/
theorem purgeQueue_ends : Upkeeps now store (QueueStore.onQueue (purgeQueue limit)) := by
  refine onQueue_ends ?_
  unfold purgeQueue
  refine .lift_bind (fun _ _ => ?_) trivial
  refine .look_bind ?_
  dsimp only
  refine ends_bind.2 ?_
  refine (Ends.forM (I := fun _ queue => Upkept now store.queue queue)
    (fun _ e queue _ hsteps => ?_) .refl).mono (fun _ _ h => ends_pure.2 h) fun _ h => h
  unfold purgeMessage
  dsimp only
  rw [ends_bind, ends_change, ends_bind]
  exact deleteMessage_ends (fun row hrow hfree => ends_pure.2 (hsteps.tail (.purge hrow hfree)))
    fun _ => trivial

end

/-- The messages that were dead and are ready. -/
def QueueDb.revived (db db' : QueueDb) : List MessageId :=
  (db.messages.entries.filter fun e => e.2.state.kind == .dead &&
    (db'.messages.get? e.1).any (·.state.kind == .ready)).map (·.1)

/-- The book after a redrive. -/
def QueueBook.redriven (b : QueueBook) (queue : QueueDb) : QueueBook :=
  ⟨queue, b.spans, b.events ++ (b.queue.revived queue).map .redriven⟩

/-- What the loop of a redrive has done: the rows it went through are ready, and no other
changed. -/
structure Redriving (holder : Option (MessageId × LeaseToken)) (now : Int) (b : QueueBook)
    (done : List (MessageId × MessageRow)) (queue : QueueDb) : Prop where
  steps : QueueSteps holder now b ⟨queue, b.spans, b.events ++ done.map fun e => .redriven e.1⟩
  ready : ∀ e ∈ done, ∃ row, queue.messages.get? e.1 = some row ∧ row.state = .ready
  others : ∀ id, id ∉ done.map (·.1) → queue.messages.get? id = b.queue.messages.get? id

/-- A message that may be redriven is dead. -/
theorem MessageRow.redrivable_dead (h : row.redrivable effects = true) :
    row.state.kind = .dead := by
  unfold redrivable at h
  split at h
  · next hstate => rw [hstate]; rfl
  · cases h

/-- One turn of the loop. -/
theorem Redriving.turn (h : Redriving holder now b done queue)
    (hrow : b.queue.messages.get? e.1 = some e.2) (hdead : e.2.state.kind = .dead)
    (hnew : e.1 ∉ done.map (·.1)) (hready : row'.state = .ready) (hattempt : row'.attempt = 0) :
    Redriving holder now b (done ++ [e]) (queue.written e.1 e.2 row') where
  steps := by
    rw [map_append, ← append_assoc]
    exact h.steps.tail (.redrive ((h.others e.1 hnew).trans hrow) hdead hready hattempt)
  ready e' he' := by
    rcases mem_append.1 he' with he' | he'
    · have hne : e'.1 ≠ e.1 := fun hid => hnew (mem_map.2 ⟨e', he', hid⟩)
      obtain ⟨row, hrow, hready⟩ := h.ready e' he'
      exact ⟨row, (get?_insert_of_ne _ hne _).trans hrow, hready⟩
    · rw [mem_singleton.1 he']
      exact ⟨row', get?_insert_self _ _ _, hready⟩
  others id hid := by
    rw [map_append, mem_append, not_or, map_singleton, mem_singleton] at hid
    exact (get?_insert_of_ne _ hid.2 _).trans (h.others id hid.1)

/-- The rows that the loop went through are the messages that were dead and are ready. -/
theorem Redriving.revived (h : Redriving holder now b
      (b.queue.messages.select (·.2.redrivable effects) (fun _ => 0) limit) queue) :
    QueueSteps holder now b (b.redriven queue) := by
  have hrevived : b.queue.revived queue
      = (b.queue.messages.select (·.2.redrivable effects) (fun _ => 0) limit).map (·.1) := by
    refine congrArg _ (filter_eq_select _ _ _ fun e he => ?_)
    rw [Bool.and_eq_true, beq_iff_eq, Option.any_eq_true]
    constructor
    · rintro ⟨hdead, row, hrow, hready⟩
      rw [beq_iff_eq] at hready
      by_contra hnot
      -- a row that was not selected is dead still
      have hkey : e.1 ∉ (b.queue.messages.select (·.2.redrivable effects) (fun _ => 0) limit).map
          (·.1) := by
        intro hmem
        obtain ⟨e', he', hid⟩ := mem_map.1 hmem
        have hstored := hid ▸ (mem_of_mem_select he').1
        exact hnot (Prod.ext hid (some.inj (hstored.symm.trans (mem_entries.1 he))) ▸ he')
      rw [h.others e.1 hkey, mem_entries.1 he] at hrow
      obtain rfl := some.inj hrow
      cases hdead.symm.trans hready
    · intro hmem
      obtain ⟨row, hrow, hready⟩ := h.ready e hmem
      refine ⟨redrivable_dead (mem_of_mem_select hmem).2, row, hrow, ?_⟩
      rw [hready]
      rfl
  unfold QueueBook.redriven
  rw [hrevived, List.map_map]
  exact h.steps

/-- Dead messages are made ready. -/
theorem redriveQueue_ends (limit : Nat) (hqueue : store.queue = b.queue) :
    (redriveQueue now limit).Ends store
      (fun _ store => QueueSteps holder now b (b.redriven store.queue)) (fun _ => True) := by
  unfold redriveQueue
  refine .lift_bind (fun _ _ => ?_) trivial
  refine .lift_bind (fun expiresAt _ => ?_) trivial
  refine .look_bind ?_
  dsimp only
  rw [hqueue]
  refine ends_bind.2 ?_
  refine (Ends.forM_split (I := fun done s => Redriving holder now b done s.queue)
    (fun done e rest s hsplit hdone => ?_) ?_).mono (fun _ _ h => ends_pure.2 h.revived)
      fun _ h => h
  · have he : e ∈ b.queue.messages.select (·.2.redrivable store.effects.table)
      (fun _ => 0) limit := by
      rw [hsplit]
      exact mem_append_right _ mem_cons_self
    have hnew : e.1 ∉ done.map (·.1) := by
      have hkeys := nodup_select b.queue.messages (·.2.redrivable store.effects.table)
        (fun _ => 0) limit
      rw [hsplit, map_append, map_cons] at hkeys
      exact fun hmem => (nodup_append.1 hkeys).2.2 _ hmem _ mem_cons_self rfl
    obtain ⟨hrow, hredrivable⟩ := mem_of_mem_select he
    refine ends_bind.2 ?_
    refine onQueue_ends (updateMessage_ends (fun row hrow' _ => ?_) fun hnone => ?_)
    · obtain rfl := some.inj (((hdone.others e.1 hnew).trans hrow).symm.trans hrow')
      exact ends_pure.2 (hdone.turn hrow (redrivable_dead hredrivable) hnew rfl rfl)
    · cases hnone e.2 ((hdone.others e.1 hnew).trans hrow)
  · refine ⟨?_, nofun, fun id _ => by rw [hqueue]⟩
    rw [hqueue, map_nil, append_nil]

/-- The book after a call of the control. -/
def QueueBook.controlled (b : QueueBook) (queue : QueueDb) : QueueControlAction → QueueBook
  | .redrive _ => b.redriven queue
  | .pause | .resume | .purge _ => b.withQueue queue

/-- What the control of a queue does. -/
theorem queueControl_ends (action : QueueControlAction) (hqueue : store.queue = b.queue) :
    (queueControl now action).Ends store
      (fun _ store => QueueSteps holder now b (b.controlled store.queue action))
        (fun _ => True) := by
  unfold queueControl
  refine .lift_bind (fun _ _ => ?_) trivial
  have hupkeep : ∀ {α : Type} {program : Stateful Error QueueStore α}, Upkeeps now store program →
      program.Ends store (fun _ store => QueueSteps holder now b (b.withQueue store.queue))
        fun _ => True :=
    fun h => h.mono (fun _ _ h => .of_upkeep (hqueue ▸ h)) fun _ h => h
  have hpaused : ∀ paused, Upkeeps now store (QueueStore.onQueue (setQueuePaused now paused)) :=
    fun paused => onQueue_ends (.single (.pause fun state => by cases state <;> rfl))
  cases action with
  | pause => exact ends_map (hupkeep (hpaused true))
  | resume => exact ends_map (hupkeep (hpaused false))
  | purge limit => exact ends_map (hupkeep (purgeQueue_ends limit))
  | redrive limit => exact ends_map (redriveQueue_ends limit hqueue)

/-- The book after a send: a message that was not there and is there was sent. -/
def QueueBook.sent (b : QueueBook) (queue : QueueDb) : QueueSendOutcome → QueueBook
  | .sent id =>
    if (b.queue.messages.get? id).isNone && (queue.messages.get? id).isSome then
      ⟨queue, b.spans, b.events ++ [.sent id]⟩
    else
      b.withQueue queue
  | .producerConflict => b.withQueue queue

/-- A send that changes nothing is not noted. -/
theorem QueueBook.sent_self (reply : QueueSendOutcome) : b.sent b.queue reply = b := by
  cases reply with
  | producerConflict => rfl
  | sent id =>
    show (if _ then _ else _) = b
    rw [if_neg]
    · rfl
    · cases b.queue.messages.get? id <;> exact Bool.false_ne_true

/-- A message that was not there and is there is noted. -/
theorem QueueBook.sent_new (hnone : b.queue.messages.get? id = none)
    (hsome : (queue.messages.get? id).isSome) :
    b.sent queue (.sent id) = ⟨queue, b.spans, b.events ++ [.sent id]⟩ := by
  show (if _ then _ else _) = _
  rw [if_pos]
  rw [hnone, hsome]
  rfl

/-- A send makes steps. -/
theorem queueSend_ends (namespaceId : NamespaceId) (request : QueueSendRequest) :
    (queueSend hash namespaceId now request).Ends b.queue
      (fun reply queue => QueueSteps holder now b (b.sent queue reply)) (fun _ => True) := by
  unfold queueSend
  refine .lift_bind (fun _ _ => ?_) trivial
  refine .reject_bind (fun _ => trivial) fun _ => ?_
  refine .lift_bind (fun latest _ => ?_) trivial
  refine .reject_bind (fun _ => trivial) fun _ => ?_
  rw [ends_bind, ends_look]
  split
  · next row hrow =>
    split
    · exact ends_pure.2 .refl
    · refine ends_pure.2 ?_
      rw [QueueBook.sent_self]
  · unfold sendFresh
    dsimp only
    refine .lift_bind (fun expiresAt _ => ?_) trivial
    rw [ends_bind]
    refine insertMessage_ends fun hnone => ?_
    rw [ends_bind, ends_change]
    refine ends_pure.2 ?_
    rw [QueueBook.sent_new hnone]
    · refine Relation.ReflTransGen.tail (.single (.send hnone ?_ ?_)) (.other rfl fun _ => rfl)
      · rfl
      · rfl
    · exact isSome_iff_exists.2 ⟨_, get?_insert_self _ _ _⟩

/-- The book after messages were handed out. -/
def QueueBook.handOut (b : QueueBook) (now : Int) (queue : QueueDb) (claimed : List QueueMessage) :
    QueueBook where
  queue := queue
  spans := b.spans ++ claimed.map fun m => ⟨m.messageId, m.token, now, m.leaseUntil⟩
  events := b.events ++ claimed.map fun m => .claimed m.messageId

/-- The token source draws tokens that no span has, and none of them twice. -/
structure Draws (tokens : Nat → Result LeaseToken)
    (spans : List (Lease.Span MessageId LeaseToken)) : Prop where
  fresh : ∀ n token, tokens n = .ok token → ∀ s ∈ spans, s.lease ≠ token
  once : ∀ n m token, tokens n = .ok token → tokens m = .ok token → n = m

/-- The second loop of a claim leases candidates that are in the table as they were selected. -/
theorem leaseMessages_ends (hdraws : Draws tokens b.spans)
    (deadline : Int) (hkeys : (candidates.map (·.1)).Nodup)
    (hsame : ∀ e ∈ candidates, queue.messages.get? e.1 = some e.2)
    (hdrawn : ∀ m ∈ claimed, ∃ n < claimed.length, tokens n = .ok m.token)
    (hsteps : QueueSteps holder now b (b.handOut now queue claimed)) :
    (leaseMessages now deadline tokens candidates claimed).Ends queue
      (fun claimed queue => QueueSteps holder now b (b.handOut now queue claimed) ∧
        ∀ m ∈ claimed, ∃ n < claimed.length, tokens n = .ok m.token)
      (fun _ => True) := by
  induction candidates generalizing claimed queue with
  | nil => exact ends_pure.2 ⟨hsteps, hdrawn⟩
  | cons e rest ih =>
    obtain ⟨id, row⟩ := e
    obtain ⟨hrow, hrest⟩ := forall_mem_cons.1 hsame
    rw [map_cons, nodup_cons] at hkeys
    unfold leaseMessages
    refine .lift_bind (fun token htoken => ?_) trivial
    dsimp only
    rw [ends_bind]
    refine updateMessage_ends (fun stored hstored hclaimable => ?_) fun _ => trivial
    obtain rfl := some.inj (hrow.symm.trans hstored)
    unfold claimable at hclaimable
    simp only [Bool.and_eq_true, beq_iff_eq, decide_eq_true_eq] at hclaimable
    refine ih hkeys.2 (fun e he => ?_) (fun m hm => ?_) ?_
    · have hne : e.1 ≠ id := fun h => hkeys.1 (mem_map.2 ⟨e, he, h⟩)
      exact (get?_insert_of_ne _ hne _).trans (hrest e he)
    · rw [length_append, length_singleton]
      rcases mem_append.1 hm with hm | hm
      · obtain ⟨n, hn, htoken'⟩ := hdrawn m hm
        exact ⟨n, Nat.lt_succ_of_lt hn, htoken'⟩
      · rw [mem_singleton.1 hm]
        exact ⟨claimed.length, Nat.lt_succ_self _, htoken⟩
    · have hfresh : ∀ s ∈ (b.handOut now queue claimed).spans, s.lease ≠ token := by
        intro s hs
        rcases mem_append.1 hs with hs | hs
        · exact hdraws.fresh _ token htoken s hs
        · obtain ⟨m, hm, rfl⟩ := mem_map.1 hs
          obtain ⟨n, hn, htoken'⟩ := hdrawn m hm
          rintro rfl
          exact absurd (hdraws.once _ _ _ htoken' htoken) (Nat.ne_of_lt hn)
      have hclaim : QueueStep holder now (b.handOut now queue claimed) _ :=
        .claim hrow hclaimable.1.1.1 hclaimable.2 (min_le_right deadline _) hfresh
      have hbook : ∀ m queue', b.handOut now queue' (claimed ++ [m])
          = ⟨queue', (b.handOut now queue claimed).spans ++
              [⟨m.messageId, m.token, now, m.leaseUntil⟩],
            (b.handOut now queue claimed).events ++ [.claimed m.messageId]⟩ := by
        intro m queue'
        unfold QueueBook.handOut
        simp only [map_append, map_singleton, append_assoc]
      rw [hbook]
      exact hsteps.tail hclaim

/-- The candidates of a claim are among the selected rows, in their order. -/
theorem claimCandidates_ok (h : claimCandidates limit rows bytes candidates = .ok found) :
    ∃ more, found = candidates ++ more ∧ more.Sublist rows := by
  induction rows generalizing bytes candidates with
  | nil => exact ⟨[], by rw [← ok.inj h, append_nil], .slnil⟩
  | cons e rest ih =>
    unfold claimCandidates at h
    split at h
    · exact ⟨[], by rw [← ok.inj h, append_nil], nil_sublist _⟩
    split at h
    · exact ⟨[], by rw [← ok.inj h, append_nil], nil_sublist _⟩
    split at h
    · cases h
    obtain ⟨more, rfl, hmore⟩ := ih h
    exact ⟨e :: more, by rw [append_assoc, singleton_append], hmore.cons_cons e⟩

/-- A claim makes steps, with tokens that it drew. -/
theorem queueClaim_ends (hdraws : Draws tokens b.spans)
    (limit leaseMs : Nat) (hqueue : store.queue = b.queue) :
    (queueClaim hash writer now limit leaseMs tokens).Ends store
      (fun claimed store => QueueSteps holder now b (b.handOut now store.queue claimed) ∧
        ∀ m ∈ claimed, ∃ n < claimed.length, tokens n = .ok m.token)
      (fun _ => True) := by
  have hnone : ∀ queue, b.handOut now queue [] = b.withQueue queue := by
    intro queue
    unfold QueueBook.handOut QueueBook.withQueue
    rw [map_nil, map_nil, append_nil, append_nil]
  unfold queueClaim
  refine .lift_bind (fun _ _ => ?_) trivial
  refine .reject_bind (fun _ => trivial) fun _ => ?_
  refine .reject_bind (fun _ => trivial) fun _ => ?_
  rw [ends_bind, ends_look]
  split
  · refine ends_pure.2 ⟨?_, nofun⟩
    rw [hnone, hqueue]
    exact .refl
  unfold claimReady
  rw [ends_bind]
  refine (queueReclaimExpiredBounded_ends _).mono (fun _ store hsteps => ?_) fun _ h => h
  rw [hqueue] at hsteps
  refine .look_bind ?_
  dsimp only
  refine .lift_bind (fun candidates hcandidates => ?_) trivial
  refine .lift_bind (fun deadline _ => ?_) trivial
  obtain ⟨more, rfl, hmore⟩ := claimCandidates_ok hcandidates
  refine onQueue_ends (leaseMessages_ends hdraws deadline ?_ ?_ (nofun) ?_)
  · exact (nodup_select _ _ _ _).sublist (hmore.map _)
  · exact fun e he => (mem_of_mem_select (hmore.subset he)).1
  · rw [hnone]
    exact .of_upkeep hsteps

/-- The book after the answer to a holder. -/
def QueueBook.answered (b : QueueBook) (now : Int) (queue : QueueDb) (id : MessageId)
    (token : LeaseToken) : QueueLeaseOutcome → QueueBook
  | .applied state leaseUntil => ⟨queue, Lease.restop b.spans id token (leaseUntil.getD now),
      b.events ++ ackEvent id state⟩
  | .leaseLost => b.withQueue queue

/-- A row that is held has a live lease with the token. -/
theorem MessageRow.heldUntil_some (h : row.heldUntil now token = some leaseUntil) :
    row.state = .leased token leaseUntil ∧ now < leaseUntil := by
  unfold heldUntil at h
  split at h
  · next hstate =>
    split at h
    · next hheld =>
      obtain rfl := some.inj h
      exact ⟨hheld.1 ▸ hstate, hheld.2⟩
    · cases h
  · cases h

/-- What an action makes of a live lease: a state without a lease, or a deadline that is not earlier
and not past the expiry. -/
theorem QueueLeaseAction.next_ok {next : QueueState × Option Int × Option Int}
    (h : action.next now row prior = .ok next) :
    next.1 ≠ .leased ∧ next.2.1 = none ∨
      ∃ deadline, next = (.leased, some deadline, none) ∧ prior ≤ deadline ∧
        deadline ≤ max prior row.expiresAt := by
  cases action with
  | ack =>
    obtain rfl := ok.inj h
    exact .inl ⟨nofun, rfl⟩
  | retry delayMs =>
    obtain ⟨-, h⟩ := reject_bind_eq_ok.1 h
    obtain ⟨due, -, h⟩ := bind_eq_ok.1 h
    obtain rfl := ok.inj h
    split
    · exact .inl ⟨nofun, rfl⟩
    · exact .inl ⟨nofun, rfl⟩
  | extend extensionMs =>
    obtain ⟨-, h⟩ := reject_bind_eq_ok.1 h
    obtain ⟨requested, -, h⟩ := bind_eq_ok.1 h
    obtain rfl := ok.inj h
    exact .inr ⟨_, rfl, le_max_left _ _, max_le_max le_rfl (min_le_right _ _)⟩

/-- An action writes its state and keeps the attempts. -/
theorem MessageRow.settle_parts (row : MessageRow) (token : LeaseToken) (letter : Option Digest)
    (next : QueueState × Option Int × Option Int) :
    (row.settle token letter next).state.kind = next.1 ∧
      (row.settle token letter next).attempt = row.attempt := by
  obtain ⟨state, deadline, due⟩ := next
  cases state <;> exact ⟨rfl, rfl⟩

/-- What `queueApplyLease` makes of the tables: nothing, or what the action says for the message
that its token holds. -/
def LeaseAnswer (now : Int) (db : QueueDb) (id : MessageId) (token : LeaseToken)
    (action : QueueLeaseAction) (reply : QueueLeaseOutcome) (db' : QueueDb) : Prop :=
  reply = .leaseLost ∧ db' = db ∨
    ∃ row prior next letter, db.messages.get? id = some row ∧ row.state = .leased token prior ∧
      now < prior ∧ action.next now row prior = .ok next ∧
      reply = .applied next.1 next.2.1 ∧ db' = db.written id row (row.settle token letter next)

/-- An action on a lease gives its answer. -/
theorem queueApplyLease_ends (id : MessageId) (token : LeaseToken) (action : QueueLeaseAction) :
    (queueApplyLease hash writer now id token action).Ends store
      (fun reply store' => LeaseAnswer now store.queue id token action reply store'.queue)
      (fun _ => True) := by
  unfold queueApplyLease
  refine .lift_bind (fun _ _ => ?_) trivial
  rw [ends_bind, ends_look]
  split
  · exact ends_pure.2 (.inl ⟨rfl, rfl⟩)
  next row hrow =>
  split
  · exact ends_pure.2 (.inl ⟨rfl, rfl⟩)
  next prior hprior =>
  obtain ⟨hleased, hlive⟩ := heldUntil_some hprior
  unfold settleLease
  refine .lift_bind (fun next hnext => ?_) trivial
  rw [ends_bind]
  refine onEffects_ends fun letter effects => ?_
  rw [ends_bind]
  refine onQueue_ends (updateMessage_ends (fun stored hstored _ => ?_) fun _ => trivial)
  obtain rfl := some.inj (hrow.symm.trans hstored)
  exact ends_pure.2 (.inr ⟨row, prior, next, letter, hrow, hleased, hlive, hnext, rfl, rfl⟩)

/-- The answer to a holder is a step of that holder. -/
theorem LeaseAnswer.steps (h : LeaseAnswer now b.queue id token action reply queue) :
    QueueSteps (some (id, token)) now b (b.answered now queue id token reply) := by
  rcases h with ⟨rfl, rfl⟩ | ⟨row, prior, next, letter, hrow, hleased, hlive, hnext, rfl, rfl⟩
  · exact .refl
  obtain ⟨hkind, hattempt⟩ := row.settle_parts token letter next
  refine .single ?_
  rcases QueueLeaseAction.next_ok hnext with ⟨hfree, hdeadline⟩ | ⟨deadline, rfl, hlonger, hle⟩
  · unfold QueueBook.answered
    rw [hdeadline, ← hkind]
    refine .settle rfl hrow hleased hlive ?_ hattempt
    unfold free
    rw [hkind]
    exact bne_iff_ne.2 hfree
  · have hevents : b.events ++ ackEvent id QueueState.leased = b.events := append_nil _
    unfold QueueBook.answered
    dsimp only
    rw [hevents]
    exact .extend rfl hrow hleased hlive hlonger hle

/-- Only the holder of a live lease changes anything. -/
theorem LeaseAnswer.same_or_holds
    (h : LeaseAnswer now db id token action reply db') : db' = db ∨ db.Holds now id token := by
  rcases h with ⟨-, h⟩ | ⟨row, prior, _, _, hrow, hleased, hlive, _⟩
  · exact .inl h
  · exact .inr ⟨row, prior, hrow, hleased, hlive⟩

/-- An extension leaves the deadline or moves it later. -/
theorem LeaseAnswer.extend_longer (h : LeaseAnswer now db id token (.extend extensionMs) reply db')
    (hrow : db.messages.get? id = some row) (hleased : row.state = .leased token prior) :
    ∃ row' deadline, db'.messages.get? id = some row' ∧ row'.state = .leased token deadline ∧
      prior ≤ deadline := by
  rcases h with ⟨-, rfl⟩ | ⟨row, prior, next, letter, hrow', hleased', -, hnext, -, rfl⟩
  · exact ⟨row, prior, hrow, hleased, le_rfl⟩
  obtain rfl := some.inj (hrow.symm.trans hrow')
  obtain ⟨-, rfl⟩ := MessageState.leased.inj (hleased.symm.trans hleased')
  obtain ⟨-, hnext⟩ := reject_bind_eq_ok.1 hnext
  obtain ⟨requested, -, hnext⟩ := bind_eq_ok.1 hnext
  obtain rfl := ok.inj hnext
  exact ⟨_, _, get?_insert_self _ _ _, rfl, le_max_left _ _⟩

end

end Cellule
