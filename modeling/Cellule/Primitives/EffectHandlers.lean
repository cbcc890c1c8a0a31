import Cellule.Cell.Storage
import Cellule.Lib.Prog
import Cellule.Primitives.EffectLaws

/-!
# Handlers that work on the ledgers of effects

A command's handler emits effects, claims and settles them, and cleans the ledgers up, in the
transaction of its command. Here it is a program over these calls (`EffectCall`); a call that fails
ends the command, as `?` does in the source. The history of a Cell stands in its database, so that
it is rolled back and lost together with it. `effectHandler_ok` says what a handler that decides can
do.
-/

namespace Cellule

open Except (reject)
open Stateful (outcome look change fail lift rejectWhen Ends ends_bind ends_pure ends_look
  ends_change)

/-- A success that a delivery committed. -/
structure Landing where
  delivery : InboxDelivery
  outcome : StoredOutcome
  deriving DecidableEq

/-- The database of a Cell besides the tables of the runtime: its effects with their history
(`book`), the history of the deliveries (`landed`), and everything else. -/
structure Outbox (App : Type) where
  book : EffectBook
  landed : List Landing
  app : App

section
variable {App : Type}

/-- The database with another book. -/
def CellDb.withBook (db : CellDb (Outbox App)) (book : EffectBook) : CellDb (Outbox App) :=
  { db with app := { db.app with book := book } }

/-- The source that the effects of a database belong to. -/
def CellDb.scope (db : CellDb (Outbox App)) (hash : Hash) : EffectScope :=
  ⟨hash, db.sysMeta.cell, db.sysMeta.incarnation⟩

/-- A call of a handler. `write` is whatever else it does, outside of the two ledgers and the
metadata. -/
inductive EffectCall (App : Type) where
  | emit (intent : EffectCommandIntent)
  | claim (limit leaseMs : Nat) (tokens : Nat → Result LeaseToken)
  | ack (lease : EffectLease) (result : Bytes)
  | retry (lease : EffectLease)
  | extend (claim : EffectClaim) (extensionMs : Nat)
  | reclaim (limit : Nat)
  | expire (limit : Nat)
  | clean (limit : Nat)
  | cleanInbox (limit : Nat)
  | write (f : CellDb (Outbox App) → CellDb (Outbox App))

/-- The answer to a call. -/
def EffectCall.Ret : EffectCall App → Type
  | emit _ => Digest
  | claim _ _ _ => List EffectClaim
  | ack _ _ | retry _ | extend _ _ => EffectLeaseOutcome
  | reclaim _ | expire _ | clean _ | cleanInbox _ => Nat
  | write _ => CellDb (Outbox App)

/-- What a handler is given (`CommandContext`, `registry/handlers.rs:11`). -/
structure EffectContext where
  hash : Hash
  target : CellTarget
  sequence : Nat
  now : Int

/-- The transaction of a handler: the database in it, and the batch once the handler has one. -/
structure Desk (App : Type) where
  db : CellDb (Outbox App)
  batch : Option EffectBatch

/-- Runs a program on the table of effects; `note` is the book that its answer makes. -/
def Desk.onTable {α : Type} (program : Stateful Error EffectTable α)
    (note : EffectBook → EffectTable → α → EffectBook) : Stateful Error (Desk App) α := fun desk =>
  match program.outcome desk.db.app.book.table with
  | (.ok a, table) => (.ok a, { desk with db := desk.db.withBook (note desk.db.app.book table a) })
  | (.error e, table) =>
    (.error e, { desk with db := desk.db.withBook (desk.db.app.book.withTable table) })

/-- `ensure_effects` (`registry/handlers.rs:124`). -/
def ensureEffects (ctx : EffectContext) : Stateful Error (Desk App) EffectBatch := do
  let desk ← look
  match desk.batch with
  | some batch => return batch
  | none => do
    let batch ← lift (EffectBatch.new ctx.hash desk.db.sysMeta ctx.target ctx.sequence ctx.now)
    change fun desk => { desk with batch := some batch }
    return batch

/-- Emits an effect from a batch. -/
def Desk.insert (ctx : EffectContext) (intent : EffectCommandIntent) (batch : EffectBatch) :
    Stateful Error (Desk App) Digest := fun desk =>
  match (insertCommand ctx.hash intent).outcome ⟨batch, desk.db.app.book.table⟩ with
  | (.ok id, store) =>
    (.ok id, ⟨desk.db.withBook ((desk.db.app.book.emitted (desk.db.scope ctx.hash) ctx.now
      (batch.intent ctx.hash intent)).withTable store.table), some store.batch⟩)
  | (.error e, store) =>
    (.error e, ⟨desk.db.withBook (desk.db.app.book.withTable store.table), some store.batch⟩)

/-- Cleans the inbox up. -/
def Desk.cleanInbox (now : Int) (limit : Nat) : Stateful Error (Desk App) Nat := do
  let desk ← look
  let (count, db) ← lift (inboxCleanupExpiredBounded now limit desk.db)
  change fun desk => { desk with db := db }
  return count

/-- Writes outside of the ledgers and the metadata. -/
def CellDb.confine (f : CellDb (Outbox App) → CellDb (Outbox App)) (db : CellDb (Outbox App)) :
    CellDb (Outbox App) :=
  { f db with
    sysMeta := db.sysMeta
    inbox := db.inbox
    app := { db.app with app := (f db).app.app } }

/-- Runs a call. -/
def perform (ctx : EffectContext) : (call : EffectCall App) → Stateful Error (Desk App) call.Ret
  | .emit intent => ensureEffects ctx >>= Desk.insert ctx intent
  | .claim limit leaseMs tokens =>
    Desk.onTable (effectClaim ctx.hash ctx.now limit leaseMs tokens)
      fun book table claims => book.handOut ctx.now table claims
  | .ack lease result =>
    Desk.onTable (effectAckLease ctx.now lease result)
      fun book table reply => book.answered ctx.now lease table reply
  | .retry lease =>
    Desk.onTable (effectRetryLease ctx.now lease)
      fun book table reply => book.answered ctx.now lease table reply
  | .extend claim extensionMs =>
    Desk.onTable (effectExtend ctx.now claim extensionMs)
      fun book table reply => book.answered ctx.now claim.lease table reply
  | .reclaim limit =>
    Desk.onTable (effectReclaimExpiredBounded ctx.now limit) fun book table _ =>
      book.withTable table
  | .expire limit =>
    Desk.onTable (effectExpireReadyBounded ctx.now limit) fun book table _ => book.withTable table
  | .clean limit =>
    Desk.onTable (effectCleanupTerminalBounded ctx.now limit)
      fun book table _ => book.withTable table
  | .cleanInbox limit => Desk.cleanInbox ctx.now limit
  | .write f => do
    change fun desk => { desk with db := desk.db.confine f }
    let desk ← look
    return desk.db

/-- How a handler ends: it decides, it fails, or SQLite ends its transaction and it fails. -/
inductive HandlerEnd where
  | decided (outcome : HandlerOutcome)
  | failed (error : Error)
  | ended (error : Error)

/-- A handler as a program over its calls. -/
abbrev EffectProgram (App : Type) : Type := Prog (EffectCall App) EffectCall.Ret HandlerEnd

/-- What the end of a handler leaves. -/
def HandlerEnd.leave (db : CellDb (Outbox App)) :
    HandlerEnd → Result HandlerOutcome × Txn (Outbox App)
  | decided outcome => (.ok outcome, .opened db)
  | failed error => (.error error, .opened db)
  | ended error => (.error error, .ended none)

/-- Runs a handler, call by call. -/
def runCalls (ctx : EffectContext) :
    EffectProgram App → Desk App → Result HandlerOutcome × Txn (Outbox App)
  | .done finish, desk => finish.leave desk.db
  | .call call next, desk =>
    match (perform ctx call).outcome desk with
    | (.ok reply, desk') => runCalls ctx (next reply) desk'
    | (.error e, desk') => (.error e, .opened desk'.db)

/-- `next_metadata` (`client/local.rs:350`). -/
def CellDb.nextMetadata (db : CellDb (Outbox App)) (now : Int) : Result (Nat × Int) := do
  reject (decide (now < 0)) (.command "invalid runtime time")
  reject (decide (db.sysMeta.commitSequence + 1 > i64Max)) (.command "commit sequence overflow")
  return (db.sysMeta.commitSequence + 1, max now db.sysMeta.logicalTime)

/-- The book, at the first effect of a commit. -/
def EffectBook.next (b : EffectBook) (sequence : Nat) : EffectBook :=
  { b with sequence := sequence, ordinal := 0 }

/-- The handler of a program, which works at the sequence and the time of its command. -/
def effectHandler (hash : Hash) (target : CellTarget) (now : Int)
    (program : CellDb (Outbox App) → EffectProgram App) : Handler (Outbox App) := fun db =>
  match db.nextMetadata now with
  | .error e => (.error e, .opened db)
  | .ok (sequence, logicalTime) =>
    runCalls ⟨hash, target, sequence, logicalTime⟩ (program db)
      ⟨db.withBook (db.app.book.next sequence), none⟩

/-- The handler of a delivery, which notes its success. -/
def deliveryHandler (hash : Hash) (target : CellTarget) (now : Int)
    (delivery : InboxDelivery) (program : CellDb (Outbox App) → EffectProgram App) :
    Handler (Outbox App) := fun db =>
  match effectHandler hash target now program db with
  | (.ok (.success result), .opened after) =>
    (.ok (.success result), .opened { after with app := { after.app with
      landed := after.app.landed ++
        [⟨delivery, .success result (db.sysMeta.commitSequence + 1)⟩] } })
  | r => r

/-! ## What a handler can do -/

/-- What a handler does to the database at a time: steps on its effects, and receipts past their
retention deleted. -/
structure Worked (hash : Hash) (now : Int) (db db' : CellDb (Outbox App)) : Prop where
  sysMeta : db'.sysMeta = db.sysMeta
  landed : db'.app.landed = db.app.landed
  book : EffectSteps (db.scope hash) now db.app.book db'.app.book
  inbox : OrderedMap.Pruned (fun row => row.retainUntil ≤ now) db.inbox db'.inbox

/-- A handler may do nothing. -/
theorem Worked.refl (hash : Hash) (now : Int) (db : CellDb (Outbox App)) : Worked hash now db db :=
  ⟨rfl, rfl, .refl, .refl _ _⟩

/-- A handler may go on. -/
theorem Worked.trans {hash : Hash}
    (h : Worked hash now db₁ db₂) (h' : Worked hash now db₂ db₃) : Worked hash now db₁ db₃ where
  sysMeta := h'.sysMeta.trans h.sysMeta
  landed := h'.landed.trans h.landed
  book := by
    refine h.book.trans ?_
    have hscope : db₂.scope hash = db₁.scope hash := by
      unfold CellDb.scope
      rw [h.sysMeta]
    rw [← hscope]
    exact h'.book
  inbox := h.inbox.trans h'.inbox

/-- The batch of the handler, if it has one, allocates from the next place of the book. -/
structure Desk.At (ctx : EffectContext) (desk : Desk App) : Prop where
  sequence : desk.db.app.book.sequence = ctx.sequence
  unused : desk.batch = none → desk.db.app.book.ordinal = 0
  batch : ∀ batch, desk.batch = some batch →
    batch.At (desk.db.scope ctx.hash) ctx.now desk.db.app.book

section
variable {ctx : EffectContext} {desk : Desk App}

/-- A program on the table that makes steps of the book. -/
theorem Desk.onTable_ends (hat : desk.At ctx)
    (h : program.Ends desk.db.app.book.table (fun a table =>
      EffectSteps (desk.db.scope ctx.hash) ctx.now desk.db.app.book
        (note desk.db.app.book table a)) (fun _ => True))
    (hordinal : ∀ table a, (note desk.db.app.book table a).ordinal = desk.db.app.book.ordinal) :
    (Desk.onTable program note).Ends desk
      (fun _ desk' => Worked ctx.hash ctx.now desk.db desk'.db ∧ desk'.At ctx) (fun _ => True) := by
  refine .intro (fun a desk' hrun => ?_) fun _ _ _ => trivial
  unfold Stateful.outcome ExceptT.run Desk.onTable at hrun
  split at hrun
  · next a' table hprogram =>
    obtain ⟨ha, rfl⟩ := Prod.mk.inj hrun
    have hsteps := h.ok hprogram
    have hsequence := hsteps.history.1
    refine ⟨⟨rfl, rfl, hsteps, .refl _ _⟩, hsequence.trans hat.sequence, fun hnone => ?_, ?_⟩
    · exact (hordinal _ _).trans (hat.unused hnone)
    · intro batch hbatch
      obtain ⟨hcell, hincarnation, hseq, hnow, hord⟩ := hat.batch batch hbatch
      exact ⟨hcell, hincarnation, hseq.trans hsequence.symm, hnow, hord.trans (hordinal _ _).symm⟩
  · cases hrun

/-- A batch that is opened is of the Cell at its place. -/
theorem EffectBatch.new_ok {hash : Hash} {source : CellTarget} {sequence : Nat} {now : Int}
    (h : EffectBatch.new hash sysMeta source sequence now = .ok batch) :
    batch = ⟨source, sysMeta.incarnation, sequence, now, 0, 0⟩ ∧
      source.cellId hash = sysMeta.cell := by
  unfold EffectBatch.new at h
  obtain ⟨-, h⟩ := Except.reject_bind_eq_ok.1 h
  obtain ⟨_, -, h⟩ := Except.bind_eq_ok.1 h
  obtain ⟨-, h⟩ := Except.reject_bind_eq_ok.1 h
  obtain ⟨hcell, h⟩ := Except.reject_bind_eq_ok.1 h
  exact ⟨(Except.ok.inj h).symm, bne_eq_false_iff_eq.1 hcell⟩

/-- A handler gets its batch. -/
theorem ensureEffects_ends (hat : desk.At ctx) :
    (ensureEffects ctx).Ends desk
      (fun batch desk' => desk'.db = desk.db ∧ desk'.At ctx ∧
        batch.At (desk.db.scope ctx.hash) ctx.now desk.db.app.book) (fun _ => True) := by
  unfold ensureEffects
  rw [ends_bind, ends_look]
  split
  · next batch hbatch => exact ends_pure.2 ⟨rfl, hat, hat.batch batch hbatch⟩
  · next hnone =>
    refine .lift_bind (fun batch hbatch => ?_) trivial
    obtain ⟨rfl, hcell⟩ := EffectBatch.new_ok hbatch
    rw [ends_bind, ends_change]
    have hnew : EffectBatch.At ⟨ctx.target, desk.db.sysMeta.incarnation, ctx.sequence,
      ctx.now, 0, 0⟩
        (desk.db.scope ctx.hash) ctx.now desk.db.app.book :=
      ⟨hcell, rfl, hat.sequence.symm, rfl, (hat.unused hnone).symm⟩
    refine ends_pure.2 ⟨rfl, ⟨hat.sequence, nofun, ?_⟩, hnew⟩
    intro batch' hbatch'
    rw [← Option.some.inj hbatch']
    exact hnew

/-- An effect is emitted. -/
theorem Desk.insert_ends {batch : EffectBatch} (hfree : (desk.db.scope ctx.hash).CollisionFree)
    (hinv : EffectInv (desk.db.scope ctx.hash) ctx.now desk.db.app.book) (hat : desk.At ctx)
    (hbatch : batch.At (desk.db.scope ctx.hash) ctx.now desk.db.app.book)
    (intent : EffectCommandIntent) :
    (Desk.insert ctx intent batch).Ends desk
      (fun _ desk' => Worked ctx.hash ctx.now desk.db desk'.db ∧ desk'.At ctx) (fun _ => True) := by
  refine .intro (fun id desk' hrun => ?_) fun _ _ _ => trivial
  unfold Stateful.outcome ExceptT.run Desk.insert at hrun
  split at hrun
  · next id' store hinsert =>
    obtain ⟨-, rfl⟩ := Prod.mk.inj hrun
    have hunused : desk.db.app.book.sequence ≤ i64Max →
        desk.db.app.book.ordinal < maxEffectsPerCommand →
        desk.db.app.book.table.get? ((desk.db.scope ctx.hash).id desk.db.app.book.sequence
          desk.db.app.book.ordinal) = none := by
      intro hsequence hordinal
      refine Option.eq_none_iff_forall_ne_some.2 fun row hrow => ?_
      obtain ⟨r, hr, hid, -⟩ := hinv.record _ _ hrow
      exact hinv.next_unused hfree ⟨hsequence, hordinal⟩ r hr hid
    obtain ⟨htable, hstore, hsteps⟩ :=
      (insertCommand_ends (desk.db.scope ctx.hash) hbatch hunused intent).ok hinsert
    rw [htable]
    refine ⟨⟨rfl, rfl, hsteps, .refl _ _⟩, hat.sequence, nofun, ?_⟩
    intro batch' hbatch'
    rw [← Option.some.inj hbatch']
    exact hstore
  · cases hrun

/-- An answer takes no place. -/
theorem EffectBook.answered_ordinal (b : EffectBook) (now : Int) (lease : EffectLease)
    (table : EffectTable) (reply : EffectLeaseOutcome) :
    (b.answered now lease table reply).ordinal = b.ordinal := by
  cases reply <;> rfl

/-- Receipts past their retention are deleted. -/
theorem Desk.cleanInbox_ends (hat : desk.At ctx) (limit : Nat) :
    (Desk.cleanInbox ctx.now limit).Ends desk
      (fun _ desk' => Worked ctx.hash ctx.now desk.db desk'.db ∧ desk'.At ctx) (fun _ => True) := by
  unfold Desk.cleanInbox
  rw [ends_bind, ends_look, ends_bind]
  refine .lift (fun cleaned hcleaned => ?_) trivial
  unfold inboxCleanupExpiredBounded at hcleaned
  obtain ⟨_, -, hcleaned⟩ := Except.bind_eq_ok.1 hcleaned
  obtain ⟨-, hcleaned⟩ := Except.reject_bind_eq_ok.1 hcleaned
  obtain rfl := Except.ok.inj hcleaned
  rw [ends_bind, ends_change]
  refine ends_pure.2 ⟨⟨rfl, rfl, .refl, ?_⟩, hat.sequence, hat.unused, hat.batch⟩
  exact OrderedMap.pruned_deleteKeys_select _ _ _ _ fun _ h => of_decide_eq_true h

/-- Every call does what a handler may do. -/
theorem perform_ends (hfree : (desk.db.scope ctx.hash).CollisionFree)
    (hinv : EffectInv (desk.db.scope ctx.hash) ctx.now desk.db.app.book) (hat : desk.At ctx)
    (call : EffectCall App) :
    (perform ctx call).Ends desk
      (fun _ desk' => Worked ctx.hash ctx.now desk.db desk'.db ∧ desk'.At ctx) (fun _ => True) := by
  cases call with
  | emit intent =>
    refine ends_bind.2 ((ensureEffects_ends hat).mono ?_ fun _ h => h)
    rintro batch desk' ⟨hdb, hat', hbatch⟩
    rw [← hdb] at hbatch hfree hinv ⊢
    exact Desk.insert_ends hfree hinv hat' hbatch intent
  | claim limit leaseMs tokens =>
    dsimp only [perform]
    refine Desk.onTable_ends hat ?_ ?_
    · exact effectClaim_ends (desk.db.scope ctx.hash) limit leaseMs tokens
    · exact fun _ _ => rfl
  | ack lease result =>
    dsimp only [perform]
    refine Desk.onTable_ends hat ?_ ?_
    · exact (effectAckLease_ends (desk.db.scope ctx.hash) lease result).mono (fun _ _ h => h.2)
        fun _ _ => trivial
    · exact fun _ _ => EffectBook.answered_ordinal _ _ _ _ _
  | retry lease =>
    dsimp only [perform]
    refine Desk.onTable_ends hat ?_ ?_
    · exact (effectRetryLease_ends (desk.db.scope ctx.hash) lease).mono (fun _ _ h => h.2)
        fun _ _ => trivial
    · exact fun _ _ => EffectBook.answered_ordinal _ _ _ _ _
  | extend claim extensionMs =>
    dsimp only [perform]
    refine Desk.onTable_ends hat ?_ ?_
    · exact (effectExtend_ends (desk.db.scope ctx.hash) claim extensionMs).mono (fun _ _ h => h.2)
        fun _ _ => trivial
    · exact fun _ _ => EffectBook.answered_ordinal _ _ _ _ _
  | reclaim limit =>
    dsimp only [perform]
    refine Desk.onTable_ends hat ?_ ?_
    · exact effectReclaimExpiredBounded_ends (desk.db.scope ctx.hash) limit
    · exact fun _ _ => rfl
  | expire limit =>
    dsimp only [perform]
    refine Desk.onTable_ends hat ?_ ?_
    · exact effectExpireReadyBounded_ends (desk.db.scope ctx.hash) limit
    · exact fun _ _ => rfl
  | clean limit =>
    dsimp only [perform]
    refine Desk.onTable_ends hat ?_ ?_
    · exact effectCleanupTerminalBounded_ends (desk.db.scope ctx.hash) limit
    · exact fun _ _ => rfl
  | cleanInbox limit => exact Desk.cleanInbox_ends hat limit
  | write f =>
    exact ⟨⟨rfl, rfl, .refl, .refl _ _⟩, hat.sequence, hat.unused, hat.batch⟩

/-- A handler that decides has made its calls one after the other. -/
theorem runCalls_ok {program : EffectProgram App} (hfree : (desk.db.scope ctx.hash).CollisionFree)
    (hinv : EffectInv (desk.db.scope ctx.hash) ctx.now desk.db.app.book) (hat : desk.At ctx)
    (h : runCalls ctx program desk = (.ok decision, .opened after)) :
    Worked ctx.hash ctx.now desk.db after := by
  induction program generalizing desk with
  | done finish =>
    cases finish with
    | decided outcome =>
      obtain rfl := Txn.opened.inj (Prod.mk.inj h).2
      exact .refl _ _ _
    | failed error => cases h
    | ended error => cases h
  | call call next ih =>
    unfold runCalls at h
    split at h
    · next reply desk' hcall =>
      obtain ⟨hworked, hat'⟩ := (perform_ends hfree hinv hat call).ok hcall
      have hscope : desk'.db.scope ctx.hash = desk.db.scope ctx.hash := by
        unfold CellDb.scope
        rw [hworked.sysMeta]
      refine hworked.trans (ih reply ?_ ?_ hat' h)
      · rw [hscope]
        exact hfree
      · rw [hscope]
        exact hworked.book.inv hfree le_rfl hinv
    · cases h

/-- A handler writes only in its transaction. -/
theorem runCalls_clean (program : EffectProgram App) : (runCalls ctx program desk).2.Clean := by
  induction program generalizing desk with
  | done finish => cases finish <;> trivial
  | call call next ih =>
    unfold runCalls
    split
    · exact ih _
    · trivial

end

section
variable {hash : Hash} {target : CellTarget} {now : Int}
  {program : CellDb (Outbox App) → EffectProgram App} {db : CellDb (Outbox App)}

/-- What a handler that decides did, at the time of its command. -/
theorem effectHandler_ok (hfree : (db.scope hash).CollisionFree)
    (hinv : EffectInv (db.scope hash) db.sysMeta.logicalTime
      (db.app.book.next (db.sysMeta.commitSequence + 1)))
    (h : effectHandler hash target now program db = (.ok decision, .opened after)) :
    Worked hash (max now db.sysMeta.logicalTime)
      (db.withBook (db.app.book.next (db.sysMeta.commitSequence + 1))) after := by
  unfold effectHandler at h
  split at h
  · cases h
  · next sequence logicalTime hmeta =>
    unfold CellDb.nextMetadata at hmeta
    obtain ⟨-, hmeta⟩ := Except.reject_bind_eq_ok.1 hmeta
    obtain ⟨-, hmeta⟩ := Except.reject_bind_eq_ok.1 hmeta
    obtain ⟨rfl, rfl⟩ := Prod.mk.inj (Except.ok.inj hmeta)
    refine runCalls_ok hfree ?_ ?_ h
    · exact EffectSteps.inv hfree .refl (le_max_right _ _) hinv
    · exact ⟨rfl, fun _ => rfl, nofun⟩

/-- A command writes only in its transaction. -/
theorem effectHandler_clean (db : CellDb (Outbox App)) :
    (effectHandler hash target now program db).2.Clean := by
  unfold effectHandler
  split
  · trivial
  · exact runCalls_clean _

/-- A delivery writes only in its transaction. -/
theorem deliveryHandler_clean (delivery : InboxDelivery) (db : CellDb (Outbox App)) :
    (deliveryHandler hash target now delivery program db).2.Clean := by
  unfold deliveryHandler
  split
  · trivial
  · exact effectHandler_clean db

/-- What the handler of a delivery that decides did. -/
theorem deliveryHandler_ok
    (h : deliveryHandler hash target now delivery program db = (.ok decision, .opened after)) :
    (∃ result, decision = .rejected result) ∨
      ∃ result worked, decision = .success result ∧
        effectHandler hash target now program db = (.ok decision, .opened worked) ∧
        after = { worked with app := { worked.app with
          landed := worked.app.landed ++
            [⟨delivery, .success result (db.sysMeta.commitSequence + 1)⟩] } } := by
  unfold deliveryHandler at h
  split at h
  · next result worked hworked =>
    obtain ⟨hdecision, hafter⟩ := Prod.mk.inj h
    obtain rfl := Except.ok.inj hdecision
    exact .inr ⟨result, worked, rfl, hworked, (Txn.opened.inj hafter).symm⟩
  · next hother =>
    cases decision with
    | success result => exact absurd h (hother result after)
    | rejected result => exact .inl ⟨result, rfl⟩

end

end

end Cellule
