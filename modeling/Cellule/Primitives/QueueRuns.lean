import Cellule.Primitives.QueueLaws

/-!
# Runs of a queue

An operation on a queue is one call in the transaction of a command: a call that fails is rolled
back. The effects of the Cell and the dead-letter queue are left open. A run starts on a queue that
was just installed. Its clock does not go back, and no lease token is drawn twice.
-/

namespace Cellule

open Stateful List

/-- A call on a queue. -/
inductive QueueCall where
  | send (namespaceId : NamespaceId) (request : QueueSendRequest)
  | claim (limit leaseMs : Nat) (tokens : Nat → Result LeaseToken)
  | applyLease (id : MessageId) (token : LeaseToken) (action : QueueLeaseAction)
  | reclaimExpired (limit : Nat)
  | expireReady (limit : Nat)
  | cleanupExpired (limit : Nat)
  | control (action : QueueControlAction)

namespace QueueCall

/-- The answer to a call. -/
def Ret : QueueCall → Type
  | send _ _ => QueueSendOutcome
  | claim _ _ _ => List QueueMessage
  | applyLease _ _ _ => QueueLeaseOutcome
  | reclaimExpired _ | expireReady _ | cleanupExpired _ => Nat
  | control _ => QueueControlOutcome

/-- A call at a time, on a queue with this dead-letter queue. -/
def perform (hash : Hash) (writer : Option QueueDeadLetterTarget) (now : Int) :
    (call : QueueCall) → Stateful Error QueueStore call.Ret
  | send namespaceId request => QueueStore.onQueue (queueSend hash namespaceId now request)
  | claim limit leaseMs tokens => queueClaim hash writer now limit leaseMs tokens
  | applyLease id token action => queueApplyLease hash writer now id token action
  | reclaimExpired limit => queueReclaimExpiredBounded hash writer now limit
  | expireReady limit => queueExpireReadyBounded hash writer now limit
  | cleanupExpired limit => queueCleanupExpiredBounded now limit
  | control action => queueControl now action

/-- The lease that a call acts for. -/
def holder : QueueCall → Option (MessageId × LeaseToken)
  | applyLease id token _ => some (id, token)
  | _ => none

/-- The token that a call draws for its `n`-th message. -/
def drawn : QueueCall → Nat → Result LeaseToken
  | claim _ _ tokens, n => tokens n
  | _, _ => .error (.command "no token")

end QueueCall

/-- The history after a call that was answered. -/
def QueueBook.note (b : QueueBook) (now : Int) (queue : QueueDb) :
    (call : QueueCall) → call.Ret → QueueBook
  | .send _ _, reply => b.sent queue reply
  | .claim _ _ _, reply => b.handOut now queue reply
  | .applyLease id token _, reply => b.answered now queue id token reply
  | .control action, _ => b.controlled queue action
  | .reclaimExpired _, _ | .expireReady _, _ | .cleanupExpired _, _ => b.withQueue queue

/-- An operation: a call with its time and its surroundings. -/
structure QueueOp where
  now : Int
  writer : Option QueueDeadLetterTarget
  effects : EffectStore
  call : QueueCall

namespace QueueBook

/-- A queue that was just installed. -/
def installed : QueueBook := ⟨.installed, [], []⟩

/-- One operation. A call that fails is rolled back. -/
def step (hash : Hash) (b : QueueBook) (op : QueueOp) : QueueBook :=
  match (op.call.perform hash op.writer op.now).outcome ⟨b.queue, op.effects⟩ with
  | (.ok reply, store) => b.note op.now store.queue op.call reply
  | (.error _, _) => b

/-- A run from a queue that was just installed. -/
def run (hash : Hash) (ops : List QueueOp) : QueueBook :=
  ops.foldl (step hash) installed

end QueueBook

/-- No lease token is drawn twice. -/
structure DrawnOnce (ops : List QueueOp) : Prop where
  within : ∀ op ∈ ops, ∀ n m token, op.call.drawn n = .ok token →
    op.call.drawn m = .ok token → n = m
  across : ops.Pairwise fun a b => ∀ n m token, a.call.drawn n = .ok token →
    b.call.drawn m ≠ .ok token

/-! ## One operation -/

/-- What an operation that succeeds does. -/
structure QueueWorked (call : QueueCall) (now : Int) (b : QueueBook) (reply : call.Ret)
    (queue : QueueDb) : Prop where
  steps : QueueSteps call.holder now b (b.note now queue call reply)
  drawn : ∀ s ∈ (b.note now queue call reply).spans,
    (∃ s' ∈ b.spans, s'.lease = s.lease) ∨ ∃ n, call.drawn n = .ok s.lease
  answer : ∀ id token action, call = .applyLease id token action →
    ∃ reply, LeaseAnswer now b.queue id token action reply queue

variable {b : QueueBook} {hash : Hash} {ops : List QueueOp} {op : QueueOp} {clock : Int}

/-- A call that hands out no lease and answers no holder. -/
theorem QueueWorked.of_spans (hspans : (b.note now queue call reply).spans = b.spans)
    (hsteps : QueueSteps call.holder now b (b.note now queue call reply))
    (hcall : ∀ id token action, call ≠ .applyLease id token action) :
    QueueWorked call now b reply queue :=
  ⟨hsteps, fun s hs => .inl ⟨s, hspans ▸ hs, rfl⟩, fun id token action h =>
    absurd h (hcall id token action)⟩

/-- A call that succeeds did what its statements do. -/
theorem QueueCall.perform_ends (call : QueueCall) (hdraws : Draws call.drawn b.spans)
    (hqueue : store.queue = b.queue) :
    (call.perform hash writer now).Ends store
      (fun reply store => QueueWorked call now b reply store.queue) (fun _ => True) := by
  cases call with
  | send namespaceId request =>
    refine onQueue_ends ?_
    rw [hqueue]
    refine (queueSend_ends namespaceId request).mono
      (fun reply queue (hsteps : QueueSteps none now b (b.sent queue reply)) => ?_) fun _ h => h
    refine .of_spans ?_ hsteps nofun
    cases reply with
    | producerConflict => rfl
    | sent id =>
      show QueueBook.spans (if _ then _ else _) = b.spans
      split
      · rfl
      · rfl
  | claim limit leaseMs tokens =>
    refine (queueClaim_ends hdraws limit leaseMs hqueue).mono
      (fun reply store (h : QueueSteps none now b (b.handOut now store.queue reply) ∧ _) => ?_)
      fun _ h => h
    refine ⟨h.1, fun s hs => ?_, nofun⟩
    rcases mem_append.1 hs with hs | hs
    · exact .inl ⟨s, hs, rfl⟩
    · obtain ⟨m, hm, rfl⟩ := mem_map.1 hs
      obtain ⟨n, -, hn⟩ := h.2 m hm
      exact .inr ⟨n, hn⟩
  | applyLease id token action =>
    refine (queueApplyLease_ends id token action).mono (fun reply store' h => ?_) fun _ h => h
    rw [hqueue] at h
    refine ⟨h.steps, fun s hs => .inl ?_, fun id' token' action' hcall => ?_⟩
    · cases reply with
      | leaseLost => exact ⟨s, hs, rfl⟩
      | applied state leaseUntil =>
        obtain ⟨s', hs', rfl⟩ := mem_map.1 hs
        refine ⟨s', hs', ?_⟩
        split
        · rfl
        · rfl
    · obtain ⟨rfl, rfl, rfl⟩ := QueueCall.applyLease.inj hcall
      exact ⟨reply, h⟩
  | reclaimExpired limit =>
    exact (queueReclaimExpiredBounded_ends limit).mono
      (fun _ _ h => .of_spans rfl (.of_upkeep (hqueue ▸ h)) nofun) fun _ h => h
  | expireReady limit =>
    exact (queueExpireReadyBounded_ends limit).mono
      (fun _ _ h => .of_spans rfl (.of_upkeep (hqueue ▸ h)) nofun) fun _ h => h
  | cleanupExpired limit =>
    exact (queueCleanupExpiredBounded_ends limit).mono
      (fun _ _ h => .of_spans rfl (.of_upkeep (hqueue ▸ h)) nofun) fun _ h => h
  | control action =>
    refine (queueControl_ends action hqueue).mono (fun _ _ h => .of_spans ?_ h nofun) fun _ h => h
    cases action <;> rfl

/-! ## Runs -/

/-- The state that the operations so far have left, at the time of the next one. -/
structure RunInv (ops : List QueueOp) (clock : Int) (b : QueueBook) : Prop where
  inv : QueueInv clock b
  drawn : ∀ s ∈ b.spans, ∃ op ∈ ops, ∃ n, op.call.drawn n = .ok s.lease

/-- The tables of a queue that was just installed stand for an empty history. -/
theorem QueueInv.installed (clock : Int) : QueueInv clock QueueBook.installed := by
  refine ⟨.empty clock, nofun, nofun, fun _ h => ?_,
    ⟨fun before after id h => ?_, fun id before after h => ?_⟩, fun state => ?_⟩
  · obtain ⟨before, after, h, -⟩ := h
    exact absurd h.symm (append_ne_nil_of_right_ne_nil _ (cons_ne_nil _ _))
  · exact absurd h.symm (append_ne_nil_of_right_ne_nil _ (cons_ne_nil _ _))
  · rw [(append_eq_nil_iff.1 h.symm).1]
    exact Nat.zero_le _
  · cases state <;> rfl

/-- An operation at the end of a run works on what the run has left. -/
theorem RunInv.worked (h : RunInv ops clock b) (hdrawn : DrawnOnce (ops ++ [op])) :
    (op.call.perform hash op.writer op.now).Ends ⟨b.queue, op.effects⟩
      (fun reply store => QueueWorked op.call op.now b reply store.queue) (fun _ => True) := by
  refine op.call.perform_ends ⟨fun n token htoken s hs hsame => ?_, ?_⟩ rfl
  · obtain ⟨earlier, hearlier, m, hm⟩ := h.drawn s hs
    have hacross := (pairwise_append.1 hdrawn.across).2.2 earlier hearlier op
      (mem_singleton_self op)
    exact hacross m n token (hsame ▸ hm) htoken
  · exact hdrawn.within op (mem_append_right _ (mem_singleton_self op))

/-- The step lemma: one operation keeps the state of a run. -/
theorem RunInv.step (h : RunInv ops clock b) (hclock : clock ≤ op.now)
    (hdrawn : DrawnOnce (ops ++ [op])) : RunInv (ops ++ [op]) op.now (b.step hash op) := by
  unfold QueueBook.step
  split
  · next reply store houtcome =>
    have hworked := (h.worked hdrawn).ok houtcome
    refine ⟨hworked.steps.inv hclock h.inv, fun s hs => ?_⟩
    rcases hworked.drawn s hs with ⟨s', hs', hsame⟩ | ⟨n, hn⟩
    · obtain ⟨earlier, hearlier, hn⟩ := h.drawn s' hs'
      exact ⟨earlier, mem_append_left _ hearlier, hsame ▸ hn⟩
    · exact ⟨op, mem_append_right _ (mem_singleton_self op), n, hn⟩
  · refine ⟨h.inv.later hclock, fun s hs => ?_⟩
    obtain ⟨earlier, hearlier, hn⟩ := h.drawn s hs
    exact ⟨earlier, mem_append_left _ hearlier, hn⟩

/-- The start of a run draws no token twice either. -/
theorem DrawnOnce.left (h : DrawnOnce (ops ++ more)) : DrawnOnce ops :=
  ⟨fun op hop => h.within op (mem_append_left _ hop), (pairwise_append.1 h.across).1⟩

/-- A run with one more operation. -/
theorem QueueBook.run_concat (hash : Hash) (ops : List QueueOp) (op : QueueOp) :
    run hash (ops ++ [op]) = (run hash ops).step hash op := by
  unfold run
  rw [foldl_append]
  rfl

/-- The invariant holds after every run, at every later time. -/
theorem RunInv.run (hash : Hash) (hclock : ops.Pairwise fun a b => a.now ≤ b.now)
    (hlater : ∀ op ∈ ops, op.now ≤ clock) (hdrawn : DrawnOnce ops) :
    RunInv ops clock (QueueBook.run hash ops) := by
  induction ops using List.reverseRecOn generalizing clock with
  | nil => exact ⟨.installed clock, nofun⟩
  | append_singleton ops op ih =>
    obtain ⟨hops, -, hlast⟩ := pairwise_append.1 hclock
    have hprior := ih hops (fun a ha => hlast a ha op (mem_singleton_self op)) hdrawn.left
    have hstep : RunInv (ops ++ [op]) op.now ((QueueBook.run hash ops).step hash op) :=
       hprior.step le_rfl hdrawn
    rw [QueueBook.run_concat]
    have hnow := hlater op (mem_append_right _ (mem_singleton_self op))
    exact ⟨hstep.inv.later hnow, hstep.drawn⟩

/-! ## Exclusive, bounded leases -/

/-- What holds of a queue and its history after every run. -/
structure QueueBook.Exclusive (b : QueueBook) : Prop where
  /-- The lease that a message is under is the last of its leases, with the deadline in the row. -/
  known : ∀ id row token leaseUntil, b.queue.messages.get? id = some row →
    row.state = .leased token leaseUntil →
    ∃ s ∈ b.spans, s.key = id ∧ s.lease = token ∧ s.stop = leaseUntil
  /-- No two leases of a message are live at one time. -/
  single : b.spans.Pairwise fun s s' => s.key = s'.key →
    s.lease ≠ s'.lease ∧ ∀ t, ¬(s.start ≤ t ∧ t < s.stop ∧ s'.start ≤ t ∧ t < s'.stop)
  deadline : ∀ id row token leaseUntil, b.queue.messages.get? id = some row →
    row.state = .leased token leaseUntil → leaseUntil ≤ row.expiresAt
  /-- The attempts of a message are the claims since it was last sent or redriven, at most 20. -/
  attempt : ∀ id row, b.queue.messages.get? id = some row →
    row.attempt = claimsSince id b.events ∧ row.attempt ≤ 20
  /-- At every point of the history a message was claimed at most 20 times since it was last sent or
  redriven. -/
  claims : ∀ id before after, b.events = before ++ after → claimsSince id before ≤ 20
  never : NeverAgain b.events
  counted : verifyQueueCounts b.queue = .ok ()

/-- What an operation may do to a queue. -/
structure QueueOp.Guarded (op : QueueOp) (db db' : QueueDb) : Prop where
  /-- A message under a live lease stays as it is, but for its holder. -/
  untouched : ∀ id row token leaseUntil, db.messages.get? id = some row →
    row.state = .leased token leaseUntil → op.now < leaseUntil →
    op.call.holder ≠ some (id, token) → db'.messages.get? id = some row
  /-- A call for a lease takes effect only while that lease is live. -/
  held : ∀ id token, op.call.holder = some (id, token) → db' = db ∨ db.Holds op.now id token
  /-- An extension does not shorten a lease. -/
  longer : ∀ id token extensionMs row leaseUntil,
    op.call = .applyLease id token (.extend extensionMs) → db.messages.get? id = some row →
      row.state = .leased token leaseUntil →
    ∃ row' leaseUntil', db'.messages.get? id = some row' ∧
      row'.state = .leased token leaseUntil' ∧ leaseUntil ≤ leaseUntil'

/-- The invariant says what holds of the history. -/
theorem QueueInv.exclusive (h : QueueInv clock b) : b.Exclusive where
  known id row token leaseUntil hrow hleased := by
    refine h.apart.current id token leaseUntil ?_
    rw [QueueDb.held_of_row hrow, MessageRow.lease_of_leased hleased]
  single := h.apart.ordered.imp fun hordered hkey =>
    ⟨(hordered hkey).2, fun t ⟨_, hstop, hstart, _⟩ =>
      absurd ((hordered hkey).1.trans hstart) (not_le.2 hstop)⟩
  deadline := h.deadline
  attempt id row hrow := by
    have hattempt := h.attempt id row hrow
    exact ⟨hattempt, hattempt.trans_le (h.sound.bounded id _ [] (append_nil _).symm)⟩
  claims := h.sound.bounded
  never := h.sound.never
  counted := verifyQueueCounts_of_counted h.counted

/-- An operation that was rolled back. -/
theorem QueueOp.Guarded.refl (op : QueueOp) (db : QueueDb) : op.Guarded db db where
  untouched _ _ _ _ hrow _ _ _ := hrow
  held _ _ _ := .inl rfl
  longer _ _ _ row leaseUntil _ hrow hleased := ⟨row, leaseUntil, hrow, hleased, le_rfl⟩

/-- The history is noted beside the tables that the call left. -/
theorem QueueBook.note_queue (b : QueueBook) (now : Int) (queue : QueueDb) (call : QueueCall)
    (reply : call.Ret) : (b.note now queue call reply).queue = queue := by
  cases call with
  | send _ _ =>
    cases reply with
    | producerConflict => rfl
    | sent id =>
      show QueueBook.queue (if _ then _ else _) = queue
      split
      · rfl
      · rfl
  | applyLease _ _ _ => cases reply <;> rfl
  | control action => cases action <;> rfl
  | _ => rfl

/-- A call that succeeds leaves live leases to their holders. -/
theorem QueueWorked.guarded
    (h : QueueWorked op.call op.now b reply queue) : op.Guarded b.queue queue where
  untouched id row token leaseUntil hrow hleased hlive hother := by
    have hkept := h.steps.keeps hrow hleased hlive hother
    rw [QueueBook.note_queue] at hkept
    exact hkept
  held id token hholder := by
    cases hcall : op.call with
    | applyLease id' token' action =>
      rw [hcall] at hholder
      obtain ⟨rfl, rfl⟩ := Prod.mk.inj (Option.some.inj hholder)
      obtain ⟨reply, hanswer⟩ := h.answer _ _ _ hcall
      exact hanswer.same_or_holds
    | _ =>
      rw [hcall] at hholder
      cases hholder
  longer id token extensionMs row leaseUntil hcall hrow hleased := by
    obtain ⟨reply, hanswer⟩ := h.answer _ _ _ hcall
    exact hanswer.extend_longer hrow hleased

/-- Queue leases are exclusive and bounded: in every run whose clock does not go back and which
draws no lease token twice, after every operation no message has two live leases or was claimed more
than 20 times since it was sent or redriven, none was claimed after its acknowledgement unless it
was sent anew, and every operation leaves the messages under a live lease to their holders. -/
theorem queue_leases_exclusive (hash : Hash) {ops : List QueueOp} {op : QueueOp}
    (hclock : (ops ++ [op]).Pairwise fun a b => a.now ≤ b.now) (hdrawn : DrawnOnce (ops ++ [op])) :
    (QueueBook.run hash ops).Exclusive ∧ (QueueBook.run hash (ops ++ [op])).Exclusive ∧
      op.Guarded (QueueBook.run hash ops).queue (QueueBook.run hash (ops ++ [op])).queue := by
  obtain ⟨hops, -, hlast⟩ := pairwise_append.1 hclock
  have hprior : RunInv ops op.now (QueueBook.run hash ops) :=
    .run hash hops (fun a ha => hlast a ha op (mem_singleton_self op)) hdrawn.left
  rw [QueueBook.run_concat]
  refine ⟨hprior.inv.exclusive, (hprior.step le_rfl hdrawn).inv.exclusive, ?_⟩
  unfold QueueBook.step
  split
  · next reply store houtcome =>
    rw [QueueBook.note_queue]
    exact ((hprior.worked hdrawn).ok houtcome).guarded
  · exact .refl op _

/-- Tokens that are drawn one for each claim are told apart by the first ones. -/
theorem DrawnOnce.of_first (hfirst : ∀ op ∈ ops, ∀ n token, op.call.drawn n = .ok token → n = 0)
    (honce : ops.Pairwise fun a b => (a.call.drawn 0).toOption.isSome →
      a.call.drawn 0 ≠ b.call.drawn 0) : DrawnOnce ops where
  within op hop n m token hn hm := (hfirst op hop n token hn).trans (hfirst op hop m token hm).symm
  across := honce.imp_of_mem fun {a b} ha hb hne n m token hn hm => by
    obtain rfl := hfirst a ha n token hn
    obtain rfl := hfirst b hb m token hm
    exact hne (by rw [hn]; rfl) (hn.trans hm.symm)

/-- An operation of the sample. -/
def sampleQueueOp (now : Int) (call : QueueCall) : QueueOp :=
  ⟨now, none, ⟨⟨sampleTarget, .fill 16 4, 1, 10, 0, 0⟩, .empty⟩, call⟩

/-- A claim of one message under a token. -/
def sampleQueueClaim (now : Int) (token : UInt8) : QueueOp :=
  sampleQueueOp now (.claim 1 5000 fun n => if n = 0 then .ok (.fill 16 token) else .error .fenced)

/-- A message is sent and claimed, and claimed again under its lease. Its holder extends the lease
and acknowledges. The message is purged, sent anew and claimed. -/
def sampleQueueOps : List QueueOp :=
  [sampleQueueOp 10 (.send (.fill 16 1) ⟨.fill 16 2, [1, 2, 3], 0⟩),
    sampleQueueClaim 20 7, sampleQueueClaim 30 8,
    sampleQueueOp 40 (.applyLease (.fill 16 0) (.fill 16 7) (.extend 6000)),
    sampleQueueOp 50 (.applyLease (.fill 16 0) (.fill 16 7) .ack),
    sampleQueueOp 60 (.control (.purge 1)),
    sampleQueueOp 70 (.send (.fill 16 1) ⟨.fill 16 2, [1, 2, 3], 0⟩), sampleQueueClaim 80 9]

/-- The sample draws each token once. -/
theorem sampleQueueOps_drawnOnce : DrawnOnce sampleQueueOps := by
  refine .of_first ?_ (by decide +kernel)
  have hclaim : ∀ now token n t, (sampleQueueClaim now token).call.drawn n = .ok t → n = 0 := by
    intro now token n t h
    by_contra hn
    cases (if_neg hn).symm.trans h
  simp only [sampleQueueOps, forall_mem_cons]
  exact ⟨nofun, hclaim _ _, hclaim _ _, nofun, nofun, nofun, nofun, hclaim _ _, nofun⟩

/-- In the sample the second claim finds the message leased. -/
theorem queue_leases_exclusive_sample :
    (QueueBook.run (fun _ => .fill 32 0) (sampleQueueOps.take 3)).spans
        = [⟨.fill 16 0, .fill 16 7, 20, 5020⟩] ∧
      (QueueBook.run (fun _ => .fill 32 0) (sampleQueueOps.take 4)).spans
        = [⟨.fill 16 0, .fill 16 7, 20, 6040⟩] ∧
      (QueueBook.run (fun _ => .fill 32 0) sampleQueueOps).spans
        = [⟨.fill 16 0, .fill 16 7, 20, 50⟩, ⟨.fill 16 0, .fill 16 9, 80, 5080⟩] ∧
      (QueueBook.run (fun _ => .fill 32 0) sampleQueueOps).Exclusive :=
  ⟨by decide +kernel, by decide +kernel, by decide +kernel,
    (@queue_leases_exclusive (fun _ => .fill 32 0) (sampleQueueOps.take 7) (sampleQueueClaim 80 9)
      (by decide +kernel) sampleQueueOps_drawnOnce).2.1⟩

/-- An acknowledged message is delivered again: a purge deletes it with the record of its producer,
whose next send makes a message of the same identity. -/
theorem acknowledged_message_delivered_again :
    (sampleQueueOps.Pairwise fun a b => a.now ≤ b.now) ∧ DrawnOnce sampleQueueOps ∧
      (QueueBook.run (fun _ => .fill 32 0) sampleQueueOps).events
        = [.sent (.fill 16 0), .claimed (.fill 16 0), .acked (.fill 16 0), .sent (.fill 16 0),
          .claimed (.fill 16 0)] :=
  ⟨by decide +kernel, sampleQueueOps_drawnOnce, by decide +kernel⟩

end Cellule
