import Cellule.Primitives.EffectHandlers

/-!
# Effects between Cells

Every Cell of the system is a source and a destination. A claim that is durable at its source may be
delivered any number of times, at any later time, to a handler that may itself work on both ledgers.
A Cell commits ahead of what is durable: `publish` makes its next commit durable, `restart` takes it
back to its durable state.

One lemma says what a transaction of a Cell does (`CellInv.command`, `CellInv.deliver`), one what a
step of the system does (`SystemInv.step`), and one what a run does (`SystemInv.run`).
-/

namespace Cellule

open Stateful List

/-- The identity of a Cell. -/
structure CellIdent where
  cell : CellId
  incarnation : IncarnationId

/-- The source that a Cell's effects belong to. -/
def CellIdent.scope (ident : CellIdent) (hash : Hash) : EffectScope :=
  ⟨hash, ident.cell, ident.incarnation⟩

/-- The delivery of a claim. -/
def EffectClaim.delivery (claim : EffectClaim) : InboxDelivery :=
  ⟨claim.effectId, claim.operationDigest, claim.expiresAt⟩

section
variable {App ι : Type}

/-- The states of a Cell: its durable one, and those that it committed after it, in order. -/
structure Track (App : Type) where
  durable : CellDb (Outbox App)
  ahead : List (CellDb (Outbox App))

namespace Track

/-- All states of the Cell. -/
def states (t : Track App) : List (CellDb (Outbox App)) := t.durable :: t.ahead

/-- The state that the Cell works on. -/
def current (t : Track App) : CellDb (Outbox App) := t.ahead.getLast?.getD t.durable

/-- The Cell commits. -/
def commit (t : Track App) (db : CellDb (Outbox App)) : Track App :=
  { t with ahead := t.ahead ++ [db] }

/-- The next commit is durable. -/
def publish (t : Track App) : Track App :=
  match t.ahead with
  | [] => t
  | db :: rest => ⟨db, rest⟩

/-- The Cell starts again from what is durable. -/
def restart (t : Track App) : Track App := { t with ahead := [] }

end Track

/-- One call of a Cell's executor: the answers of the storage, the owner, the reading of the clock,
the limit on the result, and the handler. -/
structure Execution (App : Type) where
  storage : Storage
  site : Site (Outbox App)
  target : CellTarget
  now : Int
  limit : Nat
  program : CellDb (Outbox App) → EffectProgram App

/-- The database after a command. -/
def Execution.command (x : Execution App) (hash : Hash) (identity : MutationIdentity)
    (operationDigest : Digest) (db : CellDb (Outbox App)) : CellDb (Outbox App) :=
  (transactionWith x.storage (fun db => (applyMutation x.site ⟨identity, operationDigest, x.now,
    x.limit, effectHandler hash x.target x.now x.program⟩).outcome (.opened db)) db).2

/-- The database after a delivery. -/
def Execution.deliver (x : Execution App) (hash : Hash) (delivery : InboxDelivery)
    (db : CellDb (Outbox App)) : CellDb (Outbox App) :=
  (transactionWith x.storage (fun db => (deliverMutation x.site x.now delivery x.limit
    (deliveryHandler hash x.target x.now delivery x.program)).outcome (.opened db)) db).2

/-- A step of the system. -/
inductive EffectMove (ι App : Type) where
  | command (i : ι) (x : Execution App) (identity : MutationIdentity) (operationDigest : Digest)
  | deliver (i : ι) (x : Execution App) (claim : EffectClaim)
  | publish (i : ι)
  | restart (i : ι)

/-- The Cells. -/
abbrev EffectSystem (ι App : Type) : Type := ι → Track App

namespace EffectSystem

/-- Every Cell as it was installed. -/
def start (ident : ι → CellIdent) (schema : Nat) (app : App) : EffectSystem ι App := fun i =>
  ⟨.installed (ident i).cell (ident i).incarnation schema ⟨⟨.empty, 0, 0, [], [], []⟩, [], app⟩, []⟩

/-- The system after a step. -/
def step [DecidableEq ι] (hash : Hash) (s : EffectSystem ι App) :
    EffectMove ι App → EffectSystem ι App
  | .command i x identity operationDigest =>
    Function.update s i ((s i).commit (x.command hash identity operationDigest (s i).current))
  | .deliver i x claim =>
    Function.update s i ((s i).commit (x.deliver hash claim.delivery (s i).current))
  | .publish i => Function.update s i (s i).publish
  | .restart i => Function.update s i (s i).restart

/-- The system after a run. -/
def run [DecidableEq ι] (hash : Hash) (s : EffectSystem ι App)
    (moves : List (EffectMove ι App)) : EffectSystem ι App :=
  moves.foldl (step hash) s

/-- A claim is delivered once it is durable, by a clock that is not behind the logical time of the
Cell by more than the retention of receipts. -/
def Allows (s : EffectSystem ι App) : EffectMove ι App → Prop
  | .deliver i x claim => (∃ j, claim ∈ (s j).durable.app.book.claims) ∧
      (s i).current.sysMeta.logicalTime ≤ x.now + inboxRetentionMs
  | _ => True

/-- Every step of the run is allowed where it is taken. -/
def AllowsAll [DecidableEq ι] (hash : Hash) :
    EffectSystem ι App → List (EffectMove ι App) → Prop
  | _, [] => True
  | s, move :: moves => s.Allows move ∧ AllowsAll hash (step hash s move) moves

end EffectSystem

/-- The hash gives different identities to the different places of the Cells' histories. -/
def CollisionFree (hash : Hash) (ident : ι → CellIdent) : Prop :=
  ∀ i j s o s' o', s ≤ i64Max → s' ≤ i64Max → o < maxEffectsPerCommand → o' < maxEffectsPerCommand →
    ((ident i).scope hash).id s o = ((ident j).scope hash).id s' o' → i = j ∧ s = s' ∧ o = o'

/-! ## What a transaction does -/

/-- The receipt of a success. -/
def Landing.row (e : Landing) : LedgerRow where
  operationDigest := e.delivery.operationDigest
  verdict := e.outcome.verdict
  result := e.outcome.result
  commitSequence := e.outcome.commitSequence
  expiresAt := e.delivery.expiresAt
  retainUntil := e.delivery.expiresAt + inboxRetentionMs

/-- The invariant of a Cell. A success has its receipt, or the retention of the receipt is over. -/
structure CellInv (hash : Hash) (ident : CellIdent) (db : CellDb (Outbox App)) : Prop where
  scope : db.scope hash = ident.scope hash
  time : 0 ≤ db.sysMeta.logicalTime
  book : EffectInv (ident.scope hash) db.sysMeta.logicalTime
    (db.app.book.next (db.sysMeta.commitSequence + 1))
  paired : db.app.book.Paired
  numbered : ∀ e ∈ db.app.landed, e.outcome.commitSequence ≠ 0
  receipts : ∀ e ∈ db.app.landed, db.inbox.get? e.delivery.effectId = some e.row ∨
    e.delivery.expiresAt + inboxRetentionMs ≤ db.sysMeta.logicalTime
  once : (db.app.landed.map (·.delivery.effectId)).Nodup

/-- Receipts are there as they were unless their retention is over. -/
def ReceiptsKept (now : Int) (m m' : OrderedMap Digest LedgerRow) : Prop :=
  ∀ id row, m.get? id = some row → m'.get? id = some row ∨ row.retainUntil ≤ now

variable {now : Int}

/-- Deleting receipts past their retention keeps the others. -/
theorem ReceiptsKept.of_pruned
    (h : OrderedMap.Pruned (fun row => row.retainUntil ≤ now) m m') : ReceiptsKept now m m' := by
  intro id row hrow
  rcases h id with hsame | ⟨-, row', hrow', hgone⟩
  · exact .inl (hsame.trans hrow)
  · obtain rfl := Option.some.inj (hrow.symm.trans hrow')
    exact .inr hgone

/-- A receipt is added for an effect that had none. -/
theorem ReceiptsKept.insert (h : ReceiptsKept now m m')
    {id : Digest} (hnone : m'.get? id = none) (row : LedgerRow) :
    ReceiptsKept now m (m'.insert id row) := by
  intro id' row' hrow'
  refine (h id' row' hrow').imp_left fun hsame => ?_
  have hid : id' ≠ id := by
    rintro rfl
    cases hnone.symm.trans hsame
  exact (OrderedMap.get?_insert_of_ne _ hid _).trans hsame

/-- The book at a later commit. -/
theorem EffectInv.next
    (h : EffectInv scope clock b) (hn : b.sequence < n) : EffectInv scope clock (b.next n) :=
  ⟨h.apart, h.attempt, h.deadline, h.record, h.used, h.place,
    fun r hr => .inl (by
      show r.sequence < n
      rcases h.past r hr with hlt | ⟨heq, -⟩ <;> omega),
    h.once, h.claimed⟩

namespace CellInv

variable {hash : Hash} {ident : CellIdent} {db db' after : CellDb (Outbox App)}

/-- What a commit leaves of what the Cell had. -/
structure Moved (db db' : CellDb (Outbox App)) (new : List Landing) : Prop where
  kept : EffectKept db.app.book db'.app.book
  landed : db'.app.landed = db.app.landed ++ new

/-- An unchanged database delivers nothing. -/
theorem Moved.refl (db : CellDb (Outbox App)) : Moved db db [] :=
  ⟨.refl _, (append_nil _).symm⟩

variable (h : CellInv hash ident db)
include h

/-- A handler's work on the book. -/
theorem worked (hfree : (ident.scope hash).CollisionFree)
    (hrun : effectHandler hash target now program db = (.ok decision, .opened after)) :
    after.sysMeta = db.sysMeta ∧ after.app.landed = db.app.landed ∧
      ReceiptsKept (max now db.sysMeta.logicalTime) db.inbox after.inbox ∧
      EffectInv (ident.scope hash) (max now db.sysMeta.logicalTime)
        (after.app.book.next (db.sysMeta.commitSequence + 2)) ∧
      after.app.book.Paired ∧ EffectKept db.app.book after.app.book := by
  have hwork := effectHandler_ok (h.scope ▸ hfree) (h.scope ▸ h.book) hrun
  have hsteps : EffectSteps (ident.scope hash) (max now db.sysMeta.logicalTime)
      (db.app.book.next (db.sysMeta.commitSequence + 1)) after.app.book := h.scope ▸ hwork.book
  have hinv := hsteps.inv hfree (le_max_right _ _) h.book
  have hkept := hsteps.kept hfree (le_max_right _ _) h.book
  refine ⟨hwork.sysMeta, hwork.landed, .of_pruned hwork.inbox, hinv.next ?_,
    hsteps.history.2 h.paired, hkept.produced, hkept.claims, hkept.settled, hkept.gone⟩
  rw [hsteps.history.1]
  exact Nat.lt_succ_self _

/-- The Cell after a commit: the metadata has moved on by one, and the ledgers are as good as they
were. -/
theorem advance (ht : db.sysMeta.logicalTime ≤ t) (hmeta : after.sysMeta = db.sysMeta)
    (hlanded : after.app.landed = db.app.landed ++ new)
    (hinbox : ReceiptsKept t db.inbox after.inbox)
    (hbook : EffectInv (ident.scope hash) t (after.app.book.next (db.sysMeta.commitSequence + 2)))
    (hpaired : after.app.book.Paired)
    (hnew : ∀ e ∈ new, e.outcome.commitSequence ≠ 0 ∧ after.inbox.get? e.delivery.effectId
      = some e.row)
    (honce : ((db.app.landed ++ new).map (·.delivery.effectId)).Nodup) :
    CellInv hash ident (after.advance (db.sysMeta.commitSequence + 1) t) where
  scope := by
    rw [← h.scope]
    unfold CellDb.scope CellDb.advance
    rw [hmeta]
  time := h.time.trans ht
  book := hbook
  paired := hpaired
  numbered := by
    rw [CellDb.advance_app, hlanded]
    exact forall_mem_append.2 ⟨h.numbered, fun e he => (hnew e he).1⟩
  receipts e he := by
    rw [CellDb.advance_app, hlanded] at he
    show after.inbox.get? e.delivery.effectId = some e.row ∨
      e.delivery.expiresAt + inboxRetentionMs ≤ t
    rcases mem_append.1 he with he | he
    · rcases h.receipts e he with hrow | hover
      · exact hinbox _ _ hrow
      · exact .inr (hover.trans ht)
    · exact .inl (hnew e he).2
  once := by
    rw [CellDb.advance_app, hlanded]
    exact honce

/-- The Cell after a commit that left its ledgers alone. -/
theorem unchanged (t : Int) :
    EffectInv (ident.scope hash) (max t db.sysMeta.logicalTime)
      (db.app.book.next (db.sysMeta.commitSequence + 2)) := by
  have hlater := EffectInv.next (b := db.app.book.next (db.sysMeta.commitSequence + 1)) h.book
    (Nat.lt_succ_self _)
  exact ⟨hlater.apart.later (le_max_right _ _), hlater.attempt, hlater.deadline,
    hlater.record, hlater.used, hlater.place, hlater.past, hlater.once, hlater.claimed⟩

/-- A command keeps the invariant. -/
theorem command (hfree : (ident.scope hash).CollisionFree) (x : Execution App)
    (identity : MutationIdentity) (operationDigest : Digest) :
    CellInv hash ident (x.command hash identity operationDigest db) ∧
      Moved db (x.command hash identity operationDigest db) [] := by
  have hsame : ∀ db', db' = db → CellInv hash ident db' ∧ Moved db db' [] := by
    rintro db' rfl
    exact ⟨h, .refl _⟩
  rcases transactionWith_left x.storage (fun db => (applyMutation x.site ⟨identity, operationDigest,
    x.now, x.limit, effectHandler hash x.target x.now x.program⟩).outcome (.opened db)) db
    with hdb | ⟨r, hop⟩ | ⟨r, hop⟩
  · exact hsame _ hdb
  · obtain ⟨-, -, ⟨o, -, htxn, -⟩ | ⟨o, t, due, db', decision, after, -, htxn, hcommits, -⟩⟩ :=
      applyMutation_ok hop
    · exact hsame _ (Txn.opened.inj htxn)
    · have hdb : x.command hash identity operationDigest db = db' := Txn.opened.inj htxn
      obtain ⟨-, hhandled, -, -, -, rfl, hleft⟩ := hcommits
      rw [hdb, hleft]
      cases decision with
      | success result =>
        obtain ⟨hmeta, hlanded, hinbox, hbook, hpaired, hkept⟩ := h.worked hfree hhandled
        have hlanded' : after.app.landed = db.app.landed ++ [] := by rw [hlanded, append_nil]
        exact ⟨h.advance (le_max_right _ _) hmeta hlanded' hinbox hbook hpaired
          (nofun) (by rw [append_nil]; exact h.once), hkept, hlanded'⟩
      | rejected result =>
        exact ⟨h.advance (le_max_right _ _) rfl (append_nil _).symm (fun _ _ hrow => .inl hrow)
          (h.unchanged _) h.paired (nofun)
          (by rw [append_nil]; exact h.once), .refl _, (append_nil _).symm⟩
  · cases (applyMutation_clean effectHandler_clean).of_outcome hop trivial

/-- A delivery keeps the invariant: it is applied only if no delivery of the effect was applied with
success before. -/
theorem deliver (hfree : (ident.scope hash).CollisionFree) (x : Execution App)
    {delivery : InboxDelivery}
    (hexpiry : ∀ e ∈ db.app.landed, e.delivery.effectId = delivery.effectId →
      e.delivery.expiresAt = delivery.expiresAt)
    (hclock : db.sysMeta.logicalTime ≤ x.now + inboxRetentionMs) :
    CellInv hash ident (x.deliver hash delivery db) ∧
      ∃ new, Moved db (x.deliver hash delivery db) new ∧
      ∀ e ∈ new, e.delivery = delivery := by
  have hsame : ∀ db', db' = db → CellInv hash ident db' ∧ ∃ new, Moved db db' new ∧
      ∀ e ∈ new, e.delivery = delivery := by
    rintro db' rfl
    exact ⟨h, [], .refl _, nofun⟩
  rcases transactionWith_left x.storage (fun db => (deliverMutation x.site x.now delivery x.limit
    (deliveryHandler hash x.target x.now delivery x.program)).outcome (.opened db)) db
    with hdb | ⟨r, hop⟩ | ⟨r, hop⟩
  · exact hsame _ hdb
  · obtain ⟨hlive, ⟨o, -, htxn, -⟩ | ⟨o, due, applied, decision, after, -, htxn, hdelivers⟩⟩ :=
      deliverMutation_ok hop
    · exact hsame _ (Txn.opened.inj htxn)
    have hdb : x.deliver hash delivery db = applied.advance (db.sysMeta.commitSequence + 1)
      (max x.now db.sysMeta.logicalTime) := Txn.opened.inj htxn
    obtain ⟨hfresh, hhandled, hnone, -, hleft⟩ := hdelivers
    rw [hdb, hleft]
    rcases deliveryHandler_ok hhandled with ⟨result, rfl⟩ | ⟨result, worked, rfl, hworked, rfl⟩
    · -- a rejection leaves a receipt only
      have hinbox : ReceiptsKept (max x.now db.sysMeta.logicalTime) db.inbox
          (db.inbox.insert delivery.effectId
            (delivery.receipt (.rejected result) (db.sysMeta.commitSequence + 1))) :=
        ReceiptsKept.insert (fun _ _ hrow => .inl hrow) hnone _
      refine ⟨h.advance (le_max_right _ _) rfl (append_nil _).symm hinbox (h.unchanged _) h.paired
        (nofun) (by rw [append_nil]; exact h.once), [], ?_, nofun⟩
      exact ⟨.refl _, (append_nil _).symm⟩
    · obtain ⟨hmeta, hlanded, hinbox, hbook, hpaired, hkept⟩ := h.worked hfree hworked
      have hlanded' : worked.app.landed ++
          [⟨delivery, .success result (db.sysMeta.commitSequence + 1)⟩] = db.app.landed ++
          [⟨delivery, .success result (db.sysMeta.commitSequence + 1)⟩] := by rw [hlanded]
      refine ⟨h.advance (le_max_right _ _) hmeta hlanded' (hinbox.insert hnone _) hbook
        hpaired ?_ ?_, [_], ⟨hkept, hlanded'⟩, ?_⟩
      · intro e he
        obtain rfl := mem_singleton.1 he
        exact ⟨Nat.succ_ne_zero _, OrderedMap.get?_insert_self _ _ _⟩
      · rw [map_append, map_singleton, nodup_append]
        refine ⟨h.once, nodup_singleton _, ?_⟩
        intro id hid id' hid' heq
        obtain ⟨e, he, rfl⟩ := mem_map.1 hid
        rw [mem_singleton.1 hid'] at heq
        rcases h.receipts e he with hrow | hover
        · rw [heq, hfresh] at hrow
          cases hrow
        · rw [hexpiry e he heq] at hover
          omega
      · intro e he
        rw [mem_singleton.1 he]
  · cases (deliverMutation_clean (deliveryHandler_clean delivery)).of_outcome hop trivial

end CellInv

/-! ## What a step of the system does -/

namespace Track

/-- The durable state is one of the states. -/
theorem durable_mem (t : Track App) : t.durable ∈ t.states := mem_cons_self

/-- The state that the Cell works on is its last one. -/
theorem states_eq (t : Track App) : ∃ before, t.states = before ++ [t.current] := by
  unfold states current
  rcases eq_nil_or_concat t.ahead with hnil | ⟨before, db, hahead⟩
  · exact ⟨[], by rw [hnil]; rfl⟩
  · refine ⟨t.durable :: before, ?_⟩
    rw [hahead, concat_eq_append, getLast?_concat]
    rfl

/-- The current state is one of the states. -/
theorem current_mem (t : Track App) : t.current ∈ t.states := by
  obtain ⟨before, h⟩ := t.states_eq
  rw [h]
  exact mem_append_right _ (mem_singleton_self _)

/-- A commit adds a state. -/
theorem states_commit (t : Track App) (db : CellDb (Outbox App)) :
    (t.commit db).states = t.states ++ [db] := rfl

end Track

/-- The invariant of the system: every state of every Cell is good, later states keep what was
settled, and what was applied was delivered for a durable claim. -/
structure SystemInv (hash : Hash) (ident : ι → CellIdent) (s : EffectSystem ι App) : Prop where
  cells : ∀ i, ∀ db ∈ (s i).states, CellInv hash (ident i) db
  chain : ∀ i, (s i).states.Pairwise fun a b => EffectKept a.app.book b.app.book
  issued : ∀ i, ∀ db ∈ (s i).states, ∀ e ∈ db.app.landed,
    ∃ j, ∃ c ∈ (s j).durable.app.book.claims, c.delivery = e.delivery

namespace SystemInv

variable {hash : Hash} {ident : ι → CellIdent} {s : EffectSystem ι App}

/-- No two effects of one Cell have one identity. -/
theorem collisionFree_scope (hfree : CollisionFree hash ident) (i : ι) :
    ((ident i).scope hash).CollisionFree :=
  fun seq o seq' o' hs hs' ho ho' heq => (hfree i i seq o seq' o' hs hs' ho ho' heq).2

variable {i : ι} {db : CellDb (Outbox App)}

/-- Two durable claims of one effect are the same delivery. -/
theorem same_delivery (h : SystemInv hash ident s) (hfree : CollisionFree hash ident)
    (hc : c ∈ (s i).durable.app.book.claims)
    (hc' : c' ∈ (s j).durable.app.book.claims) (hid : c.effectId = c'.effectId) :
    c.delivery = c'.delivery := by
  have hi := (h.cells i _ (s i).durable_mem).book
  have hj := (h.cells j _ (s j).durable_mem).book
  obtain ⟨-, r, hr, hrid, -, hexpires, hdigest⟩ := hi.claimed c hc
  obtain ⟨-, r', hr', hrid', -, hexpires', hdigest'⟩ := hj.claimed c' hc'
  obtain ⟨hplace, hsequence, hordinal⟩ := hi.place r hr
  obtain ⟨hplace', hsequence', hordinal'⟩ := hj.place r' hr'
  have hsame : r.id = r'.id := by rw [← hrid, ← hrid', hid]
  obtain ⟨rfl, -⟩ := hfree i j _ _ _ _ hsequence hsequence' hordinal hordinal'
    (by rw [← hplace, ← hplace', hsame])
  obtain rfl : r = r' := inj_on_of_nodup_map hi.once hr hr' hsame
  unfold EffectClaim.delivery
  rw [hid, hexpires, hexpires', hdigest, hdigest']

/-- What holds of the Cell that moves and of every other holds of a Cell. -/
theorem at_update [DecidableEq ι] (P : Track App → Prop) (j : ι)
    (hmoved : j = i → P t) (hother : P (s j)) : P (Function.update s i t j) := by
  by_cases hj : j = i
  · subst hj
    rw [Function.update_self]
    exact hmoved rfl
  · rw [Function.update_of_ne hj]
    exact hother

/-- One Cell moves. -/
theorem update [DecidableEq ι] (h : SystemInv hash ident s)
    (hcells : ∀ db ∈ t.states, CellInv hash (ident i) db)
    (hchain : t.states.Pairwise fun a b => EffectKept a.app.book b.app.book)
    (hissued : ∀ db ∈ t.states, ∀ e ∈ db.app.landed, ∃ j, ∃ c ∈ (s j).durable.app.book.claims,
      c.delivery = e.delivery)
    (hdurable : EffectKept (s i).durable.app.book t.durable.app.book) :
    SystemInv hash ident (Function.update s i t) := by
  have hclaims : ∀ {delivery}, (∃ j, ∃ c ∈ (s j).durable.app.book.claims, c.delivery = delivery) →
      ∃ j, ∃ c ∈ (Function.update s i t j).durable.app.book.claims, c.delivery = delivery := by
    rintro delivery ⟨j, c, hc, hdelivery⟩
    exact ⟨j, c, at_update (c ∈ ·.durable.app.book.claims) j
      (fun hj => hdurable.claims c (hj ▸ hc)) hc, hdelivery⟩
  refine ⟨fun j => ?_, fun j => ?_, fun j => ?_⟩
  · exact at_update (∀ db ∈ ·.states, CellInv hash (ident j) db) j
      (fun hj => hj ▸ hcells) (h.cells j)
  · exact at_update (·.states.Pairwise fun a b => EffectKept a.app.book b.app.book) j
      (fun _ => hchain) (h.chain j)
  · exact at_update (∀ db ∈ ·.states, ∀ e ∈ db.app.landed,
        ∃ k, ∃ c ∈ (Function.update s i t k).durable.app.book.claims, c.delivery = e.delivery) j
      (fun _ db hdb e he => hclaims (hissued db hdb e he))
      fun db hdb e he => hclaims (h.issued j db hdb e he)

/-- What a Cell has settled before a commit stays settled after it. -/
theorem kept_commit (h : SystemInv hash ident s)
    (hkept : EffectKept (s i).current.app.book db.app.book) :
    ((s i).commit db).states.Pairwise fun a b => EffectKept a.app.book b.app.book := by
  rw [Track.states_commit, pairwise_append]
  refine ⟨h.chain i, pairwise_singleton _ _, fun a ha b hb => ?_⟩
  rw [mem_singleton.1 hb]
  obtain ⟨before, hstates⟩ := (s i).states_eq
  have hchain := h.chain i
  have hrecord := (h.cells i a ha).book.recorded
  rw [hstates, pairwise_append] at hchain
  rw [hstates] at ha
  rcases mem_append.1 ha with ha | ha
  · exact (hchain.2.2 a ha _ (mem_singleton_self _)).trans hrecord hkept
  · rw [mem_singleton.1 ha]
    exact hkept

/-- A Cell commits. -/
theorem commit [DecidableEq ι] (h : SystemInv hash ident s)
    (hinv : CellInv hash (ident i) db) (hmoved : CellInv.Moved (s i).current db new)
    (hnew : ∀ e ∈ new, ∃ j, ∃ c ∈ (s j).durable.app.book.claims, c.delivery = e.delivery) :
    SystemInv hash ident (Function.update s i ((s i).commit db)) := by
  refine h.update ?_ (h.kept_commit hmoved.kept) ?_ (.refl _)
  · exact forall_mem_append.2 ⟨h.cells i, forall_mem_singleton.2 hinv⟩
  · refine forall_mem_append.2 ⟨h.issued i, forall_mem_singleton.2 ?_⟩
    rw [hmoved.landed]
    exact forall_mem_append.2 ⟨h.issued i _ (s i).current_mem, hnew⟩

/-- What publication leaves of a Cell's states. -/
theorem publish_states (t : Track App) : t.publish.states <:+ t.states ∧
    t.publish.durable ∈ t.states := by
  unfold Track.publish Track.states
  rcases hahead : t.ahead with _ | ⟨db, rest⟩
  · exact ⟨by rw [hahead], mem_cons_self⟩
  · exact ⟨suffix_cons _ _, mem_cons_of_mem _ mem_cons_self⟩

section
variable (h : SystemInv hash ident s)
include h

/-- What is durable is kept by every state of the Cell. -/
theorem kept_durable (hdb : db ∈ (s i).states) : EffectKept (s i).durable.app.book db.app.book := by
  rcases mem_cons.1 hdb with rfl | hdb
  · exact .refl _
  · exact rel_of_pairwise_cons (h.chain i) hdb

/-- Every step keeps the invariant. -/
theorem step [DecidableEq ι] (hfree : CollisionFree hash ident)
    (hallows : s.Allows move) : SystemInv hash ident (s.step hash move) := by
  cases move with
  | command i x identity operationDigest =>
    obtain ⟨hinv, hmoved⟩ := (h.cells i _ (s i).current_mem).command (collisionFree_scope hfree i) x
      identity operationDigest
    exact h.commit hinv hmoved nofun
  | deliver i x claim =>
    obtain ⟨⟨j, hclaim⟩, hclock⟩ := hallows
    have hexpiry : ∀ e ∈ (s i).current.app.landed, e.delivery.effectId = claim.delivery.effectId →
        e.delivery.expiresAt = claim.delivery.expiresAt := by
      intro e he hid
      obtain ⟨k, c, hc, hdelivery⟩ := h.issued i _ (s i).current_mem e he
      rw [← hdelivery] at hid ⊢
      rw [h.same_delivery hfree hc hclaim hid]
    obtain ⟨hinv, new, hmoved, hnew⟩ := (h.cells i _ (s i).current_mem).deliver
      (collisionFree_scope hfree i) x hexpiry hclock
    exact h.commit hinv hmoved fun e he => ⟨j, claim, hclaim, (hnew e he).symm⟩
  | publish i =>
    obtain ⟨hsuffix, hdurable⟩ := publish_states (s i)
    exact h.update (fun db hdb => h.cells i db (hsuffix.subset hdb))
      ((h.chain i).sublist hsuffix.sublist) (fun db hdb => h.issued i db (hsuffix.subset hdb))
      (h.kept_durable hdurable)
  | restart i =>
    have hstates : ∀ db ∈ (s i).restart.states, db ∈ (s i).states := by
      intro db hdb
      rw [mem_singleton.1 hdb]
      exact (s i).durable_mem
    exact h.update (fun db hdb => h.cells i db (hstates db hdb)) (pairwise_singleton _ _)
      (fun db hdb => h.issued i db (hstates db hdb)) (.refl _)

/-- A step keeps what is settled in the durable states. -/
theorem step_durable [DecidableEq ι] (move : EffectMove ι App) (i : ι) :
    EffectKept (s i).durable.app.book (s.step hash move i).durable.app.book := by
  have hupdate : ∀ {j : ι} {t : Track App},
      EffectKept (s j).durable.app.book t.durable.app.book →
      EffectKept (s i).durable.app.book (Function.update s j t i).durable.app.book :=
    fun hkept => at_update (EffectKept (s i).durable.app.book ·.durable.app.book) i
      (fun hj => hj ▸ hkept) (.refl _)
  cases move with
  | command j x identity operationDigest => exact hupdate (.refl _)
  | deliver j x claim => exact hupdate (.refl _)
  | publish j => exact hupdate (h.kept_durable (publish_states (s j)).2)
  | restart j => exact hupdate (.refl _)

/-- Every run keeps the invariant, and what is settled in the durable states. -/
theorem run [DecidableEq ι] (hfree : CollisionFree hash ident) (hallows : s.AllowsAll hash moves) :
    SystemInv hash ident (s.run hash moves) ∧
      ∀ i, EffectKept (s i).durable.app.book (s.run hash moves i).durable.app.book := by
  induction moves generalizing s with
  | nil => exact ⟨h, fun i => .refl _⟩
  | cons move moves ih =>
    obtain ⟨hmove, hrest⟩ := hallows
    obtain ⟨hinv, hkept⟩ := ih (h.step hfree hmove) hrest
    exact ⟨hinv, fun i => (h.step_durable move i).trans
      (h.cells i _ (s i).durable_mem).book.recorded (hkept i)⟩

end

end SystemInv

/-! ## Effects take effect once -/

/-- The invariant holds at the start. -/
theorem SystemInv.start (hash : Hash) (ident : ι → CellIdent) (schema : Nat)
    (app : App) : SystemInv hash ident (EffectSystem.start ident schema app) := by
  have hstates : ∀ i, ∀ db ∈ (EffectSystem.start ident schema app i).states,
      db = (EffectSystem.start ident schema app i).durable :=
    fun i db hdb => mem_singleton.1 hdb
  refine ⟨fun i db hdb => ?_, fun i => pairwise_singleton _ _, fun i db hdb e he => ?_⟩
  · rw [hstates i db hdb]
    refine ⟨rfl, le_rfl, ?_, rfl, nofun, nofun, .nil⟩
    exact ⟨.empty 0, nofun, nofun, nofun, nofun, nofun, nofun, .nil, nofun⟩
  · rw [hstates i db hdb] at he
    cases he

/-- The program takes effect only if the lease holds, and changes nothing otherwise. -/
def EffectTable.OnlyHeld (table : EffectTable) (now : Int) (lease : EffectLease)
    (program : Stateful Error EffectTable EffectLeaseOutcome) : Prop :=
  program.Ends table (fun reply table' => reply = .leaseLost ∧ table' = table ∨
    reply ≠ .leaseLost ∧ table.Holds now lease) (· = table)

/-- A settlement or an extension takes effect only for the attempt and the token of a live lease. -/
def EffectTable.SettlesExactly (table : EffectTable) : Prop :=
  ∀ now, (∀ lease result, table.OnlyHeld now lease (effectAckLease now lease result)) ∧
    (∀ lease, table.OnlyHeld now lease (effectRetryLease now lease)) ∧
    ∀ claim extensionMs, table.OnlyHeld now claim.lease (effectExtend now claim extensionMs)

/-- Only the holder of a live lease settles an effect. -/
theorem EffectTable.settlesExactly (scope : EffectScope) (b : EffectBook) :
    b.table.SettlesExactly :=
  fun _ => ⟨fun lease result => (effectAckLease_ends scope lease result).mono (fun _ _ h => h.1)
      fun _ h => h,
    fun lease => (effectRetryLease_ends scope lease).mono (fun _ _ h => h.1) fun _ h => h,
    fun claim extensionMs => (effectExtend_ends scope claim extensionMs).mono (fun _ _ h => h.1)
      fun _ h => h⟩

/-- What the system guarantees of its effects. At the destination: for one effect a success is
committed at most once (`once`); a claim of it is a delivery of the same operation (`same`), which
before its expiry is answered with that success and changes nothing, if its limit takes the result
(`answered`). At the source: settlements are exact, the attempts are bounded, the leases do not
overlap, and the identities differ. -/
structure EffectSystem.Once (s : EffectSystem ι App) : Prop where
  once : ∀ i, ((s i).current.app.landed.map (·.delivery.effectId)).Nodup
  same : ∀ i, ∀ e ∈ (s i).current.app.landed, ∀ j, ∀ c ∈ (s j).durable.app.book.claims,
    c.effectId = e.delivery.effectId → c.delivery = e.delivery
  answered : ∀ i, ∀ e ∈ (s i).current.app.landed, ∀ (site : Site (Outbox App)) (now : Int)
    (limit : Nat) (handler : Handler (Outbox App)),
    site.cell = (s i).current.sysMeta.cell → site.incarnation = (s i).current.sysMeta.incarnation →
    site.schema = (s i).current.sysMeta.schema → 0 ≤ now → now < e.delivery.expiresAt →
    (s i).current.sysMeta.logicalTime ≤ now + inboxRetentionMs →
    e.outcome.result.length ≤ limit → limit ≤ maxEffectBytes →
    (deliverMutation site now e.delivery limit handler).outcome (.opened (s i).current)
      = (.ok (.recorded e.outcome), .opened (s i).current)
  settles : ∀ i, (s i).current.app.book.table.SettlesExactly
  attempts : ∀ i, (∀ id row, (s i).current.app.book.table.get? id = some row →
      row.attempt ≤ maxAttempts) ∧
    ∀ c ∈ (s i).current.app.book.claims, c.attempt ≤ maxAttempts
  exclusive : ∀ i, (s i).current.app.book.Paired ∧
    (s i).current.app.book.spans.Pairwise fun a b => a.key = b.key → a.stop ≤ b.start
  distinct : ∀ i, ((s i).current.app.book.produced.map (·.id)).Nodup
  final : ∀ i, (s i).states.Pairwise fun a b => EffectKept a.app.book b.app.book

/-- A later delivery of an applied effect is answered with its success. -/
theorem CellInv.answered {hash : Hash}
    (h : CellInv hash ident db) (he : e ∈ db.app.landed) (hcell : site.cell = db.sysMeta.cell)
    (hincarnation : site.incarnation = db.sysMeta.incarnation)
    (hschema : site.schema = db.sysMeta.schema) (hnow : 0 ≤ now)
    (hlive : now < e.delivery.expiresAt) (hclock : db.sysMeta.logicalTime ≤ now + inboxRetentionMs)
    (hfits : e.outcome.result.length ≤ limit) (hlimit : limit ≤ maxEffectBytes) :
    (deliverMutation site now e.delivery limit handler).outcome (.opened db)
      = (.ok (.recorded e.outcome), .opened db) := by
  have hrow : db.inbox.get? e.delivery.effectId = some e.row := by
    rcases h.receipts e he with hrow | hover
    · exact hrow
    · omega
  have hmeta : db.runtimeMetadata site.cell site.incarnation site.schema
      = .ok (db.sysMeta.commitSequence, db.sysMeta.logicalTime) := by
    have htime : decide (db.sysMeta.logicalTime < 0) = false := decide_eq_false (not_lt.2 h.time)
    unfold CellDb.runtimeMetadata
    rw [hcell, hincarnation, hschema, bne_self_eq_false, bne_self_eq_false,
      bne_self_eq_false, htime]
    rfl
  rw [deliverMutation_of_receipt hmeta hnow hlive hrow rfl rfl (h.numbered e he) hfits hlimit]
  exact congrArg (fun o => (Except.ok (TransactionResult.recorded o), Txn.opened db))
    (StoredOutcome.stored_parts e.outcome)

/-- The invariant gives the guarantees. -/
theorem SystemInv.guarantees {hash : Hash}
    (h : SystemInv hash ident s) (hfree : CollisionFree hash ident) :
    s.Once := by
  have hcell : ∀ i, CellInv hash (ident i) (s i).current := fun i => h.cells i _ (s i).current_mem
  refine ⟨fun i => (hcell i).once, fun i e he j c hc hid => ?_,
    fun i e he site now limit handler => ?_,
    fun i => EffectTable.settlesExactly ((ident i).scope hash) _, fun i => ⟨(hcell i).book.attempt,
      fun c hc => ((hcell i).book.claimed c hc).1⟩, fun i => ⟨(hcell i).paired, ?_⟩,
    fun i => (hcell i).book.once, h.chain⟩
  · obtain ⟨k, c', hc', hdelivery⟩ := h.issued i _ (s i).current_mem e he
    rw [← hdelivery] at hid ⊢
    exact h.same_delivery hfree hc hc' hid
  · exact (hcell i).answered he
  · exact (hcell i).book.apart.ordered.imp fun h hkey => (h hkey).1

/-- Effects are applied at most once at their destination and settled once at their source, in every
run in which no clock falls behind its Cell by more than the retention of receipts; what is settled
in a durable state stays settled. -/
theorem effects_take_effect_once [DecidableEq ι] {hash : Hash}
    {ident : ι → CellIdent} (hfree : CollisionFree hash ident) (schema : Nat) (app : App)
    {first rest : List (EffectMove ι App)}
    (hfirst : (EffectSystem.start ident schema app).AllowsAll hash first)
    (hrest : ((EffectSystem.start ident schema app).run hash first).AllowsAll hash rest) :
    ((EffectSystem.start ident schema app).run hash first).Once ∧
      ∀ i, ∀ db ∈ (((EffectSystem.start ident schema app).run hash first).run hash rest i).states,
        EffectKept ((EffectSystem.start ident schema app).run hash first i).durable.app.book
          db.app.book := by
  obtain ⟨hinv, -⟩ := (SystemInv.start hash ident schema app).run hfree hfirst
  obtain ⟨hinv', hkept⟩ := hinv.run hfree hrest
  refine ⟨hinv.guarantees hfree, fun i db hdb => ?_⟩
  exact (hkept i).trans (hinv.cells i _ (Track.durable_mem _)).book.recorded
    (hinv'.kept_durable hdb)

/-! ### A Cell that sends to itself -/

/-- A hash that keeps the last 32 bytes. -/
def sampleHash (bytes : Bytes) : Digest :=
  ⟨(List.replicate 32 0 ++ bytes).drop bytes.length, by
    rw [length_drop, length_append, length_replicate, Nat.add_sub_cancel]⟩

/-- The identity of the sample's Cell. -/
def sampleIdent : Unit → CellIdent := fun _ => ⟨sampleTarget.cellId sampleHash, .fill 16 4⟩

/-- A call of its executor. -/
def sampleExecution (now limit : Nat) (program : EffectProgram Unit) : Execution Unit :=
  ⟨.sound ⟨[], 0, 0⟩, ⟨⟨fun _ => .ok (), fun _ _ => .ok none⟩, (sampleIdent ()).cell,
    (sampleIdent ()).incarnation, 1⟩, sampleTarget, now, limit, fun _ => program⟩

/-- A command of the sample, which makes one call. -/
def sampleCommand (id : UInt8) (now : Nat) (call : EffectCall Unit) : EffectMove Unit Unit :=
  .command () (sampleExecution now 8 (.call call fun _ => .done (.decided (.success []))))
    ⟨.fill 16 id, 0, 100000⟩ (.fill 32 id)

/-- The effect that it emits. -/
def sampleIntent : EffectCommandIntent := ⟨sampleTarget, 1, 1, [], 100000⟩

/-- The claim of it. -/
def sampleClaim : EffectClaim :=
  EffectRow.claim sampleHash ⟨sampleTarget.cellId sampleHash,
      (EffectBatch.mk sampleTarget (.fill 16 4) 1 10 0 0).operation sampleHash
        sampleIntent, .ready, 0,
      10, 100000, 1, none⟩
    (((sampleIdent ()).scope sampleHash).id 1 0) (.fill 16 7) 5020

/-- A delivery of it. -/
def sampleDeliver (now limit : Nat) : EffectMove Unit Unit :=
  .deliver () (sampleExecution now limit (.done (.decided (.success [1, 2, 3])))) sampleClaim

/-- An effect is emitted, claimed, delivered and delivered again. -/
def sampleMoves : List (EffectMove Unit Unit) :=
  [sampleCommand 1 10 (.emit sampleIntent), sampleCommand 2 20
    (.claim 1 5000 fun _ => .ok (.fill 16 7)),
    .publish (), .publish (), sampleDeliver 30 8, sampleDeliver 40 8]

/-- The effect is settled and the Cell is started again. -/
def sampleRest : List (EffectMove Unit Unit) :=
  [sampleCommand 3 50 (.ack sampleClaim.lease [1]), .publish (), .publish (), .publish (),
    .restart (), sampleDeliver 60 8]

/-- The sample run. -/
def sampleSystem (moves : List (EffectMove Unit Unit)) : EffectSystem Unit Unit :=
  (EffectSystem.start sampleIdent 1 ()).run sampleHash moves

/-- The sample hash keeps the last twelve bytes. -/
theorem sampleHash_drop (front : Bytes) {tail : Bytes} (h : tail.length = 12) :
    (sampleHash (front ++ tail)).asBytes.drop 20 = tail := by
  show ((List.replicate 32 0 ++ (front ++ tail)).drop (front ++ tail).length).drop 20 = tail
  rw [drop_drop, ← append_assoc]
  exact drop_left' (by simp [h])

/-- The sample has no collisions. -/
theorem sampleIdent_collisionFree : CollisionFree sampleHash sampleIdent := by
  rintro ⟨⟩ ⟨⟩ seq o seq' o' hs hs' ho ho' heq
  have hlength : ∀ seq o, (Bytes.be 8 seq ++ Bytes.be 4 o).length = 12 := fun _ _ => by simp
  have hid : ∀ seq o, (((sampleIdent ()).scope sampleHash).id seq o).asBytes.drop 20
      = Bytes.be 8 seq ++ Bytes.be 4 o := by
    intro seq o
    show (sampleHash (_ ++ Bytes.be 8 seq ++ Bytes.be 4 o)).asBytes.drop 20 = _
    rw [append_assoc]
    exact sampleHash_drop _ (hlength _ _)
  have hbytes := (hid seq o).symm.trans ((congrArg (fun d => d.asBytes.drop 20) heq).trans
    (hid seq' o'))
  obtain ⟨hseq, hord⟩ := append_inj hbytes (by simp)
  have hsmall : ∀ {n}, n ≤ i64Max → n < 256 ^ 8 := fun h => h.trans_lt (by decide)
  have hsmall' : ∀ {n}, n < maxEffectsPerCommand → n < 256 ^ 4 := fun h => h.trans (by decide)
  refine ⟨rfl, ?_, ?_⟩
  · rw [← Bytes.ofBe_be (hsmall hs), hseq, Bytes.ofBe_be (hsmall hs')]
  · rw [← Bytes.ofBe_be (hsmall' ho), hord, Bytes.ofBe_be (hsmall' ho')]

/-- The sample effect is claimed, delivered twice and settled. -/
theorem effects_take_effect_once_sample :
    (sampleSystem sampleMoves).Once ∧
      (sampleSystem sampleMoves ()).current.app.landed
        = [⟨sampleClaim.delivery, .success [1, 2, 3] 3⟩] ∧
      ((sampleSystem (sampleMoves ++ sampleRest) ()).current.app.book.table.get?
        sampleClaim.effectId).map (·.state) = some .delivered :=
  ⟨(effects_take_effect_once sampleIdent_collisionFree 1 ()
      (show (EffectSystem.start sampleIdent 1 ()).AllowsAll sampleHash sampleMoves from
        ⟨trivial, trivial, trivial, trivial, ⟨⟨(), by decide +kernel⟩, by decide +kernel⟩,
          ⟨⟨(), by decide +kernel⟩, by decide +kernel⟩, trivial⟩)
      (show (sampleSystem sampleMoves).AllowsAll sampleHash sampleRest from
        ⟨trivial, trivial, trivial, trivial, trivial, ⟨⟨(), by decide +kernel⟩, by decide +kernel⟩,
          trivial⟩)).1,
    by decide +kernel, by decide +kernel⟩

/-- A delivery with the same digest, before the expiry of the effect, is refused where its result
limit is smaller than the stored result. -/
theorem redelivery_with_smaller_limit :
    let s := sampleSystem sampleMoves
    let x := sampleExecution 40 2 (.done (.decided (.success [1, 2, 3])))
    (s ()).current.app.landed = [⟨sampleClaim.delivery, .success [1, 2, 3] 3⟩] ∧
      x.now < sampleClaim.expiresAt ∧
      ((deliverMutation x.site x.now sampleClaim.delivery x.limit
        (deliveryHandler sampleHash x.target
        x.now sampleClaim.delivery x.program)).outcome (.opened (s ()).current)).1
          = .error (.command "invalid stored inbox outcome") := by
  decide +kernel

end

end Cellule
