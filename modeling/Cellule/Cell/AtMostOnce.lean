import Cellule.Cell.Group

/-!
# Commands take effect at most once

Runs of one Cell made of commands, groups of commands, scheduler ticks and restarts. A command works
on the application's tables or is a tick, whose clean-up deletes request rows past their retention
(`Work`). `LedgerState` keeps, beside the executor, the commits in the database and the outcomes
that were answered. `Inv` ties the ledger to them: a commit has its row, or the clock has read a
time past its retention. `LedgerInv.own` is the step lemma, for one command; `run_inv` the run
lemma.
-/

namespace Cellule

open Stateful List Except OrderedMap CellExecutor

variable {App Proof Checkpoint Capture : Type}

/-- Twenty-four hours. -/
def dayMs : Int := 24 * 60 * 60 * 1000

/-! ## What a command works on -/

/-- The request rows that the clean-up of a tick deletes. -/
def expiredRequests (now : Int) (limit : Nat) (db : CellDb App) : List (RequestId × LedgerRow) :=
  db.requests.select (fun e => decide (e.2.retainUntil ≤ now)) (fun e => e.2.retainUntil) limit

/-- The clean-up of `sys_requests` in `scheduler_tick_at` (`fleet/scheduler.rs:258`). -/
def cleanRequests (now : Int) (limit : Nat) (db : CellDb App) : CellDb App :=
  { db with requests := db.requests.deleteKeys ((expiredRequests now limit db).map (·.1)) }

/-- A handler without the tables of the ledger: its writes to `sys_meta` and `sys_requests` are
void, and it does not write after SQLite has ended its transaction. -/
def Handler.confined (handler : Handler App) : Handler App := fun db =>
  match handler db with
  | (r, .opened db') => (r, .opened { db' with sysMeta := db.sysMeta, requests := db.requests })
  | (r, .ended _) => (r, .ended none)

/-- What a command does: the application's own work, or a tick, which deletes at most `first`
expired request rows, runs its other classes, and deletes at most `rest` more. -/
inductive Work (App : Type) where
  | application (handler : Handler App)
  | tick (first rest : Nat) (classes : Handler App)

/-- The handler of the work, at a reading of the clock. A tick works at the time that
`next_metadata` gives (`client/local.rs:350`). -/
def Work.handler (now : Int) : Work App → Handler App
  | application handler => handler.confined
  | tick first rest classes => fun db =>
    match classes.confined (cleanRequests (max now db.sysMeta.logicalTime) first db) with
    | (r, .opened db') => (r, .opened (cleanRequests (max now db.sysMeta.logicalTime) rest db'))
    | (r, .ended _) => (r, .ended none)

/-- A request row is there as it was, or it was past its retention and is gone. -/
def RowsKept (now : Int) (db db' : CellDb App) : Prop :=
  ∀ id, db'.requests.get? id = db.requests.get? id ∨
    db'.requests.get? id = none ∧
      ∃ row, db.requests.get? id = some row ∧ row.retainUntil ≤ now

variable {now : Int} {db db' : CellDb App} {r : Result HandlerOutcome} {hooks : Hooks App}
  {x x' : CellExecutor App Proof Checkpoint} {storage : Storage}

/-- Rows that are kept twice are kept. -/
theorem RowsKept.trans (h : RowsKept now db₁ db₂)
    (h' : RowsKept now db₂ db₃) : RowsKept now db₁ db₃ :=
  Pruned.trans h h'

/-- Only rows past their retention are deleted. -/
theorem cleanRequests_kept (now : Int) (limit : Nat) (db : CellDb App) :
    RowsKept now db (cleanRequests now limit db) :=
  pruned_deleteKeys_select db.requests _ _ limit fun _ => of_decide_eq_true

/-- A confined handler leaves the ledger. -/
theorem Handler.confined_opened {handler : Handler App}
    (h : handler.confined db = (r, .opened db')) :
    db'.sysMeta = db.sysMeta ∧ db'.requests = db.requests := by
  unfold Handler.confined at h
  split at h
  · obtain ⟨-, hdb⟩ := Prod.mk.inj h
    obtain rfl := Txn.opened.inj hdb
    exact ⟨rfl, rfl⟩
  · cases h

/-- Work leaves the metadata, and deletes only rows past their retention. -/
theorem Work.handler_frame {work : Work App} (h : work.handler now db = (r, .opened db')) :
    db'.sysMeta = db.sysMeta ∧ RowsKept (max now db.sysMeta.logicalTime) db db' := by
  cases work with
  | application handler =>
    obtain ⟨hmeta, hrequests⟩ := Handler.confined_opened h
    exact ⟨hmeta, fun id => .inl (by rw [hrequests])⟩
  | tick first rest classes =>
    dsimp only [Work.handler] at h
    split at h
    · next r' db₁ hclasses =>
      obtain ⟨-, hdb⟩ := Prod.mk.inj h
      obtain rfl := Txn.opened.inj hdb
      obtain ⟨hmeta, hrequests⟩ := Handler.confined_opened hclasses
      refine ⟨hmeta, ((cleanRequests_kept _ first db).trans fun id => .inl ?_).trans
        (cleanRequests_kept _ rest db₁)⟩
      rw [hrequests]
    · cases h

/-- Work does not write after SQLite has ended its transaction. -/
theorem Work.handler_clean (work : Work App) (now : Int) (db : CellDb App) :
    (work.handler now db).2.Clean := by
  cases work with
  | application handler =>
    dsimp only [Work.handler, Handler.confined]
    split <;> trivial
  | tick first rest classes =>
    dsimp only [Work.handler]
    split <;> trivial

/-! ## Runs -/

/-- A command as it is presented. -/
structure Submission (App : Type) where
  identity : MutationIdentity
  operationDigest : Digest
  now : Int
  maxResultBytes : Nat
  work : Work App

/-- The command of a submission. -/
def Submission.command (s : Submission App) : NativeCommand App :=
  ⟨s.identity, s.operationDigest, s.now, s.maxResultBytes, s.work.handler s.now⟩

/-- The calls of a run: `execute`, `execute_group`, and what happens between calls: the publication
of commits, a fence, or a restart on the committed database. -/
inductive LedgerCall (App Proof Checkpoint : Type) where
  | execute (storage : Storage) (submission : Submission App)
  | executeGroup (storage : Storage) (late : Nat → Bool) (submissions : List (Submission App))
  | resume (executor : CellExecutor App Proof Checkpoint)

/-- The submissions of a call, in order. -/
def LedgerCall.submissions : LedgerCall App Proof Checkpoint → List (Submission App)
  | execute _ submission => [submission]
  | executeGroup _ _ submissions => submissions
  | resume _ => []

/-- A command that the database has taken. -/
structure Commit where
  identity : MutationIdentity
  operationDigest : Digest
  outcome : StoredOutcome
  deriving DecidableEq

/-- The commit of one result. -/
def commitFor (command : NativeCommand App) : Result TransactionResult → List Commit
  | .ok (.committed outcome _ _) => [⟨command.identity, command.operationDigest, outcome⟩]
  | _ => []

/-- The commits that commands make one after another. -/
def commitsOf (site : Site App) : List (NativeCommand App) → CellDb App → List Commit
  | [], _ => []
  | command :: commands, db =>
    commitFor command (ownTransaction site command db).1 ++
      commitsOf site commands (ownTransaction site command db).2

/-- A Cell in a run: its executor, the commits in its database, and the outcomes answered so far. -/
structure LedgerState (App Proof Checkpoint : Type) where
  executor : CellExecutor App Proof Checkpoint
  commits : List Commit
  replies : List (RequestId × StoredOutcome)

namespace LedgerState

/-- A Cell that has been installed. -/
def start (cell : CellId) (incarnation : IncarnationId) (schema : Nat) (app : App) :
    LedgerState App Proof Checkpoint :=
  ⟨.new (.installed cell incarnation schema app) cell incarnation schema, [], []⟩

/-- The commits of commands that the database has after a call. -/
def landed (hooks : Hooks App) (commands : List (NativeCommand App))
    (x x' : CellExecutor App Proof Checkpoint) : List Commit :=
  (commitsOf (x.site hooks) commands x.db).filter
    (·.outcome.commitSequence ≤ x'.db.sysMeta.commitSequence)

/-- The outcomes that the answer to a group gives. -/
def groupReplies (submissions : List (Submission App)) (outcomes : List (Result StoredOutcome)) :
    List (RequestId × StoredOutcome) :=
  (submissions.zip outcomes).filterMap fun pair =>
    pair.2.toOption.map fun outcome => (pair.1.identity.requestId, outcome)

/-- One call. -/
def step (rules : BundleRules Proof Checkpoint Capture) (hooks : Hooks App)
    (s : LedgerState App Proof Checkpoint) :
    LedgerCall App Proof Checkpoint → LedgerState App Proof Checkpoint
  | .execute storage submission =>
    let ran := (execute hooks storage submission.command).outcome s.executor
    { executor := ran.2
      commits := s.commits ++ landed hooks [submission.command] s.executor ran.2
      replies := s.replies ++ match ran.1 with
        | .ok (.recorded outcome) => [(submission.identity.requestId, outcome)]
        | _ => [] }
  | .executeGroup storage late submissions =>
    let ran := (executeGroup rules hooks storage late
      (submissions.map Submission.command)).outcome s.executor
    { executor := ran.2
      commits := s.commits ++ landed hooks (submissions.map Submission.command) s.executor ran.2
      replies := s.replies ++ match ran.1 with
        | .ok group => groupReplies submissions group.outcomes
        | .error _ => [] }
  | .resume y =>
    { s with executor := { y with
        db := s.executor.db, cell := s.executor.cell, incarnation := s.executor.incarnation
        schema := s.executor.schema } }

/-- A run. -/
def run (rules : BundleRules Proof Checkpoint Capture) (hooks : Hooks App)
    (s : LedgerState App Proof Checkpoint) (calls : List (LedgerCall App Proof Checkpoint)) :
    LedgerState App Proof Checkpoint :=
  calls.foldl (step rules hooks) s

end LedgerState

/-! ## One command -/

/-- A submission in its own transaction left the database as it was and committed nothing, or it
committed. -/
theorem Submission.own_cases (site : Site App) (s : Submission App) (db : CellDb App) :
    ((ownTransaction site s.command db).2 = db ∧
        commitFor s.command (ownTransaction site s.command db).1 = [] ∧
        ∀ r, (ownTransaction site s.command db).1 = .ok r → ∃ o, r = .recorded o ∧
          Replays s.command db o) ∨
      s.identity.validate s.now = .ok () ∧ 0 ≤ db.sysMeta.logicalTime ∧
        ∃ o t due db' decision after,
          ownTransaction site s.command db = (.ok (.committed o t due), db') ∧
          Commits s.command db o t db' decision after := by
  rcases hstep : (applyMutation site s.command).outcome (.opened db) with ⟨x, txn⟩
  cases x with
  | ok r =>
    obtain ⟨hvalid, htime, ⟨o, rfl, rfl, hreplays⟩ | ⟨o, t, due, db', decision, after, rfl, rfl,
      hcommits, -⟩⟩ := applyMutation_ok hstep
    · rw [ownTransaction_of_opened hstep]
      exact .inl ⟨rfl, rfl, fun r hr => ⟨o, (ok.inj hr).symm, hreplays⟩⟩
    · exact .inr ⟨hvalid, htime, o, t, due, db', decision, after,
        ownTransaction_of_opened hstep, hcommits⟩
  | error e =>
    have hown : ownTransaction site s.command db = (.error e, db) := by
      cases txn with
      | opened left => exact ownTransaction_of_opened hstep
      | ended stray =>
        obtain rfl : stray = none :=
          (applyMutation_clean (s.work.handler_clean s.now)).of_outcome hstep trivial
        unfold ownTransaction transactionWith
        simp only [Storage.sound, hstep, Storage.abandon, Storage.rolledBack]
        rfl
    rw [hown]
    exact .inl ⟨rfl, rfl, fun r hr => by cases hr⟩

/-- The database that a decided command leaves of what was kept: with its row, and the metadata
moved on. -/
def Submission.recorded (s : Submission App) (db kept : CellDb App) (decision : HandlerOutcome) :
    CellDb App :=
  (kept.withRequest s.identity.requestId
    (s.command.row decision (db.sysMeta.commitSequence + 1))).advance
    (db.sysMeta.commitSequence + 1) (max s.now db.sysMeta.logicalTime)

/-- What one command answers and leaves. One that fails or is answered from its row changes nothing.
The changes of a handler stay if it succeeds, not if it rejects. -/
inductive Performs (s : Submission App) (db : CellDb App) :
    Result TransactionResult → CellDb App → Prop
  | failed (e : Error) : Performs s db (.error e) db
  | replayed {o : StoredOutcome} (row : Replays s.command db o) :
      Performs s db (.ok (.recorded o)) db
  | succeeded {bytes : Bytes} {after : CellDb App} {due : Option Int}
      (fresh : db.requests.get? s.identity.requestId = none)
      (handled : s.command.handler db = (.ok (.success bytes), .opened after)) :
      Performs s db (.ok (.committed (.success bytes (db.sysMeta.commitSequence + 1))
        (max s.now db.sysMeta.logicalTime) due)) (s.recorded db after (.success bytes))
  | rejected {bytes : Bytes} {after : CellDb App} {due : Option Int}
      (fresh : db.requests.get? s.identity.requestId = none)
      (handled : s.command.handler db = (.ok (.rejected bytes), .opened after)) :
      Performs s db (.ok (.committed (.rejected bytes (db.sysMeta.commitSequence + 1))
        (max s.now db.sysMeta.logicalTime) due)) (s.recorded db db (.rejected bytes))

/-- Commands one after another: each works on what the one before it left. -/
inductive PerformsEach : List (Submission App) → CellDb App →
    List (Result TransactionResult) → CellDb App → Prop
  | nil {db : CellDb App} : PerformsEach [] db [] db
  | cons {s : Submission App} {submissions : List (Submission App)} {db db₁ db₂ : CellDb App}
      {result : Result TransactionResult} {results : List (Result TransactionResult)}
      (first : Performs s db result db₁) (rest : PerformsEach submissions db₁ results db₂) :
      PerformsEach (s :: submissions) db (result :: results) db₂

/-- A submission in its own transaction does what one command does. -/
theorem Submission.performs (site : Site App) (s : Submission App) (db : CellDb App) :
    Performs s db (ownTransaction site s.command db).1 (ownTransaction site s.command db).2 := by
  rcases s.own_cases site db with ⟨hdb, -, hrecorded⟩
    | ⟨-, -, o, t, due, db', decision, after, hown, hc⟩
  · rw [hdb]
    rcases hr : (ownTransaction site s.command db).1 with e | r
    · exact .failed e
    · obtain ⟨o, rfl, hreplays⟩ := hrecorded r hr
      exact .replayed hreplays
  · rw [hown, hc.left, hc.outcome, hc.time]
    cases decision with
    | success bytes => exact .succeeded hc.fresh hc.handled
    | rejected bytes => exact .rejected hc.fresh hc.handled

/-- The commits among the results of submissions. -/
def commitsIn (submissions : List (Submission App))
    (results : List (Result TransactionResult)) : List Commit :=
  (submissions.zipWith (fun s => commitFor s.command) results).flatten

/-- The row that a commit left. -/
def Commit.row (k : Commit) : LedgerRow where
  operationDigest := k.operationDigest
  verdict := k.outcome.verdict
  result := k.outcome.result
  commitSequence := k.outcome.commitSequence
  expiresAt := k.identity.expiresAt
  retainUntil := k.identity.expiresAt + requestRetentionMs

/-- How the ledger of a Cell stands for the commits in it, after the clock was read at
`readings`. -/
structure LedgerInv (present : RequestId → MutationIdentity × Digest) (site : Site App)
    (readings : List Int) (commits : List Commit) (db : CellDb App) : Prop where
  owned : db.sysMeta.cell = site.cell ∧ db.sysMeta.incarnation = site.incarnation ∧
    db.sysMeta.schema = site.schema
  nonneg : 0 ≤ db.sysMeta.logicalTime
  time : db.sysMeta.logicalTime ∈ 0 :: readings
  sequences : commits.map (·.outcome.commitSequence) = List.range' 1 commits.length
  head : db.sysMeta.commitSequence = commits.length
  presented : ∀ k ∈ commits, present k.identity.requestId = (k.identity, k.operationDigest)
  row : ∀ id row, db.requests.get? id = some row →
    ∃ k ∈ commits, k.identity.requestId = id ∧ row = k.row
  kept : ∀ k ∈ commits, db.requests.get? k.identity.requestId = some k.row ∨
    ∃ t ∈ 0 :: readings, k.identity.expiresAt + requestRetentionMs ≤ t
  once : (commits.map (·.identity.requestId)).Nodup
  fits : ∀ k ∈ commits, k.outcome.result.length ≤ maxResultBytes

variable {present : RequestId → MutationIdentity × Digest} {site : Site App} {readings : List Int}
  {commits : List Commit} {rules : BundleRules Proof Checkpoint Capture}

namespace LedgerInv

variable (h : LedgerInv present site readings commits db)
include h

/-- More readings of the clock. -/
theorem later (more : List Int) : LedgerInv present site (readings ++ more) commits db where
  owned := h.owned
  nonneg := h.nonneg
  time := mem_append_left more h.time
  sequences := h.sequences
  head := h.head
  presented := h.presented
  row := h.row
  kept k hk := (h.kept k hk).imp_right fun ⟨t, ht, hle⟩ => ⟨t, mem_append_left more ht, hle⟩
  once := h.once
  fits := h.fits

/-- The answer from a row is that of a commit. -/
theorem replayed (hreplays : Replays command db o) :
    ∃ k ∈ commits, k.identity.requestId = command.identity.requestId ∧ k.outcome = o := by
  obtain ⟨row, hrow, -, rfl⟩ := hreplays.row
  obtain ⟨k, hk, hid, rfl⟩ := h.row _ _ hrow
  exact ⟨k, hk, hid, (StoredOutcome.stored_parts k.outcome).symm⟩

/-- A committed request that passes the identity check, on a clock that did not step back by a day,
has its row: that is deleted a day after the identity expires. -/
theorem row_of_valid (hk : k ∈ commits) (hclock : ∀ t ∈ readings, t - now < dayMs)
    (hvalid : k.identity.validate now = .ok ()) :
    db.requests.get? k.identity.requestId = some k.row := by
  obtain ⟨hlive, hnow⟩ := MutationIdentity.validate_ok hvalid
  rcases h.kept k hk with hrow | ⟨t, ht, hgone⟩
  · exact hrow
  · unfold requestRetentionMs at hgone
    rcases mem_cons.1 ht with rfl | ht
    · omega
    · have hback := hclock t ht
      unfold dayMs at hback
      omega

variable {s : Submission App}

section
variable (hpresent : present s.identity.requestId = (s.identity, s.operationDigest))
include hpresent

/-- A commit extends the ledger by its row. -/
theorem commit
    (hclock : ∀ t ∈ readings, t - s.now < dayMs) (hvalid : s.identity.validate s.now = .ok ())
    {after : CellDb App} (hc : Commits s.command db o t db' decision after) :
    LedgerInv present site (readings ++ [s.now]) (commits ++ [⟨s.identity, s.operationDigest, o⟩])
      db' := by
  obtain ⟨hmeta, hrows⟩ : (decision.kept db after).sysMeta = db.sysMeta ∧
      RowsKept (max s.now db.sysMeta.logicalTime) db (decision.kept db after) := by
    cases decision with
    | success bytes => exact Work.handler_frame hc.handled
    | rejected bytes => exact ⟨rfl, fun id => .inl rfl⟩
  have htime : t ∈ 0 :: (readings ++ [s.now]) := by
    have hmax : t = max s.now db.sysMeta.logicalTime := hc.time
    rcases max_choice s.now db.sysMeta.logicalTime with hnow | hprior
    · rw [hmax, hnow]
      exact mem_cons_of_mem _ (mem_append_right _ (mem_singleton_self _))
    · rw [hmax, hprior]
      exact mem_append_left [s.now] h.time
  have hnew : Commit.row ⟨s.identity, s.operationDigest, o⟩
      = s.command.row decision (db.sysMeta.commitSequence + 1) := by
    rw [hc.outcome, Commit.row, NativeCommand.row]
    simp [Submission.command]
  have hget : ∀ id, db'.requests.get? id = if id = s.identity.requestId
      then some (Commit.row ⟨s.identity, s.operationDigest, o⟩)
      else (decision.kept db after).requests.get? id := by
    intro id
    rw [hc.left, CellDb.advance_requests, hnew]
    exact get?_insert _ _ _ _
  -- an earlier commit of the request would still have its row
  have hother : ∀ k ∈ commits, k.identity.requestId ≠ s.identity.requestId := by
    intro k hk hid
    have hsame := (h.presented k hk).symm.trans ((congrArg present hid).trans hpresent)
    have hrow := h.row_of_valid hk hclock (by rw [(Prod.mk.inj hsame).1]; exact hvalid)
    rw [hid] at hrow
    cases hrow.symm.trans hc.fresh
  have hseq : o.commitSequence = commits.length + 1 := by
    rw [hc.outcome, Verdict.stored_commitSequence, h.head]
  refine ⟨?_, ?_, ?_, ?_, ?_, ?_, ?_, ?_, ?_, ?_⟩
  · rw [hc.left]
    show (decision.kept db after).sysMeta.cell = site.cell ∧
      (decision.kept db after).sysMeta.incarnation = site.incarnation ∧
      (decision.kept db after).sysMeta.schema = site.schema
    rw [hmeta]
    exact h.owned
  · rw [hc.left, CellDb.advance_logicalTime, hc.time]
    exact le_max_of_le_right h.nonneg
  · rw [hc.left]
    exact htime
  · rw [map_append, h.sequences, length_append, length_singleton, range'_concat]
    simp [hseq, Nat.add_comm]
  · rw [hc.left, CellDb.advance_commitSequence, h.head, length_append, length_singleton]
  · exact forall_mem_append.2 ⟨h.presented, forall_mem_singleton.2 hpresent⟩
  · intro id row hrow
    rw [hget] at hrow
    split at hrow
    · next hid =>
      refine ⟨_, mem_append_right _ (mem_singleton_self _), hid.symm, ?_⟩
      exact (Option.some.inj hrow).symm
    · rcases hrows id with hsame | ⟨hnone, -⟩
      · obtain ⟨k, hk, hid, hk'⟩ := h.row id row (hsame ▸ hrow)
        exact ⟨k, mem_append_left _ hk, hid, hk'⟩
      · rw [hnone] at hrow
        cases hrow
  · intro k hk
    rw [hget]
    rcases mem_append.1 hk with hk | hk
    · rw [if_neg (hother k hk)]
      rcases hrows k.identity.requestId with hsame | ⟨-, row, hrow, hexpired⟩
      · rw [hsame]
        exact ((h.later [s.now]).kept k hk)
      · -- the tick deleted the row, at a time that is now among the readings
        right
        rcases (h.later [s.now]).kept k hk with hkept | hgone
        · obtain rfl := Option.some.inj (hkept.symm.trans hrow)
          exact ⟨t, htime, hc.time ▸ hexpired⟩
        · exact hgone
    · rw [mem_singleton.1 hk, if_pos rfl]
      exact .inl rfl
  · rw [map_append, nodup_append]
    refine ⟨h.once, nodup_singleton _, ?_⟩
    intro a ha b hb hab
    obtain ⟨k, hk, rfl⟩ := mem_map.1 ha
    rw [map_singleton, mem_singleton] at hb
    exact hother k hk (hab.trans hb)
  · refine forall_mem_append.2 ⟨h.fits, forall_mem_singleton.2 ?_⟩
    rw [hc.outcome, Verdict.stored_result]
    exact hc.fits

/-- One command in its own transaction. -/
theorem own (hclock : ∀ t ∈ readings, t - s.now < dayMs) :
    LedgerInv present site (readings ++ [s.now])
      (commits ++ commitFor s.command (ownTransaction site s.command db).1)
      (ownTransaction site s.command db).2 := by
  rcases s.own_cases site db with ⟨hdb, hnone, -⟩
    | ⟨hvalid, -, o, t, due, db', decision, after, hown, hcommits⟩
  · rw [hdb, hnone, append_nil]
    exact h.later _
  · rw [hown]
    exact h.commit hpresent hclock hvalid hcommits

end

/-- The outcome of a command is that of a commit. -/
theorem own_outcome {r : TransactionResult} (hr : (ownTransaction site s.command db).1 = .ok r) :
    ∃ k ∈ commits ++ commitFor s.command (ownTransaction site s.command db).1,
      k.identity.requestId = s.identity.requestId ∧ k.outcome = r.outcome := by
  rcases s.own_cases site db with ⟨-, -, hrecorded⟩
    | ⟨-, -, o, t, due, db', decision, after, hown, -⟩
  · obtain ⟨o, rfl, hreplays⟩ := hrecorded r hr
    obtain ⟨k, hk, hid, hout⟩ := h.replayed hreplays
    exact ⟨k, mem_append_left _ hk, hid, hout⟩
  · rw [hown] at hr ⊢
    obtain rfl := ok.inj hr
    exact ⟨_, mem_append_right _ (mem_singleton_self _), rfl, rfl⟩

/-- Commands one after another, whose outcomes are those of commits. -/
theorem serial
    (hpresent : ∀ s ∈ submissions, present s.identity.requestId = (s.identity, s.operationDigest))
    (hclock : (readings ++ submissions.map (·.now)).Pairwise fun t t' => t - t' < dayMs) :
    LedgerInv present site (readings ++ submissions.map (·.now))
        (commits ++ commitsOf site (submissions.map Submission.command) db)
        (serially site (submissions.map Submission.command) db).2 ∧
      ∀ reply ∈ LedgerState.groupReplies submissions
        ((serially site (submissions.map Submission.command) db).1.map
          (Except.map TransactionResult.outcome)),
        ∃ k ∈ commits ++ commitsOf site (submissions.map Submission.command) db,
          k.identity.requestId = reply.1 ∧ k.outcome = reply.2 := by
  induction submissions generalizing readings commits db with
  | nil => exact ⟨by simpa [commitsOf, serially] using h, nofun⟩
  | cons s rest ih =>
    have hnow : ∀ t ∈ readings, t - s.now < dayMs := fun t ht =>
      (pairwise_append.1 hclock).2.2 t ht s.now mem_cons_self
    have hone := h.own (hpresent s mem_cons_self) hnow
    rw [map_cons, append_cons] at hclock ⊢
    have hrest := ih hone (fun s' hs' => hpresent s' (mem_cons_of_mem _ hs')) hclock
    rw [append_assoc commits] at hrest
    refine ⟨hrest.1, fun reply hreply => ?_⟩
    obtain ⟨pair, hpair, hmap⟩ := mem_filterMap.1 hreply
    simp only [serially, map_cons, zip_cons_cons, mem_cons] at hpair
    rcases hpair with rfl | hpair
    · rcases hresult : (ownTransaction site s.command db).1 with e | r
      · rw [hresult] at hmap
        cases hmap
      · obtain ⟨k, hk, hid, hout⟩ := h.own_outcome hresult
        rw [hresult] at hmap
        obtain rfl := Option.some.inj hmap
        refine ⟨k, ?_, hid, hout⟩
        simp only [map_cons, commitsOf, ← append_assoc]
        exact mem_append_left _ hk
    · exact hrest.2 reply (mem_filterMap.2 ⟨pair, hpair, hmap⟩)

end LedgerInv

/-! ## Calls -/

/-- A command commits at the next sequence, or leaves it, and does not turn the time back. -/
theorem Submission.own_sequence (site : Site App) (s : Submission App) (db : CellDb App) :
    db.sysMeta.commitSequence ≤ (ownTransaction site s.command db).2.sysMeta.commitSequence ∧
      db.sysMeta.logicalTime ≤ (ownTransaction site s.command db).2.sysMeta.logicalTime ∧
      ∀ k ∈ commitFor s.command (ownTransaction site s.command db).1,
        db.sysMeta.commitSequence < k.outcome.commitSequence ∧ k.outcome.commitSequence
          ≤ (ownTransaction site s.command db).2.sysMeta.commitSequence := by
  rcases s.own_cases site db with ⟨hdb, hnone, -⟩
    | ⟨-, -, o, t, due, db', decision, after, hown, hc⟩
  · rw [hdb, hnone]
    exact ⟨le_rfl, le_rfl, nofun⟩
  · rw [hown]
    dsimp only
    rw [hc.left, CellDb.advance_commitSequence, CellDb.advance_logicalTime, hc.time]
    refine ⟨Nat.le_succ _, le_max_right _ _, fun k hk => ?_⟩
    obtain rfl := mem_singleton.1 hk
    rw [hc.outcome, Verdict.stored_commitSequence]
    exact ⟨Nat.lt_succ_self _, le_rfl⟩

/-- The commits of commands one after another have the sequences between the two databases. -/
theorem commitsOf_bounds (site : Site App) (submissions : List (Submission App)) (db : CellDb App) :
    db.sysMeta.commitSequence
        ≤ (serially site (submissions.map Submission.command) db).2.sysMeta.commitSequence ∧
      db.sysMeta.logicalTime
        ≤ (serially site (submissions.map Submission.command) db).2.sysMeta.logicalTime ∧
      ∀ k ∈ commitsOf site (submissions.map Submission.command) db,
        db.sysMeta.commitSequence < k.outcome.commitSequence ∧ k.outcome.commitSequence
          ≤ (serially site (submissions.map Submission.command) db).2.sysMeta.commitSequence := by
  induction submissions generalizing db with
  | nil => exact ⟨le_rfl, le_rfl, nofun⟩
  | cons s rest ih =>
    obtain ⟨hle, htime, hone⟩ := s.own_sequence site db
    obtain ⟨hle', htime', hrest⟩ := ih (ownTransaction site s.command db).2
    refine ⟨hle.trans hle', htime.trans htime', fun k hk => ?_⟩
    rcases mem_append.1 hk with hk | hk
    · exact ⟨(hone k hk).1, (hone k hk).2.trans hle'⟩
    · exact ⟨hle.trans_lt (hrest k hk).1, (hrest k hk).2⟩

/-- What a call leaves: the database it found, or that of its commands one after another. -/
def Lands (hooks : Hooks App) (submissions : List (Submission App))
    (x x' : CellExecutor App Proof Checkpoint) : Prop :=
  x'.site hooks = x.site hooks ∧ (x'.db = x.db ∨
    x'.db = (serially (x.site hooks) (submissions.map Submission.command) x.db).2)

/-- A call that left the database landed no commit. -/
theorem landed_of_same {submissions : List (Submission App)} (h : x'.db = x.db) :
    LedgerState.landed hooks (submissions.map Submission.command) x x' = [] := by
  unfold LedgerState.landed
  refine filter_eq_nil_iff.2 fun k hk => ?_
  rw [h, decide_eq_true_iff, not_le]
  exact ((commitsOf_bounds _ submissions x.db).2.2 k hk).1

/-- A call that left the database of its commands landed all of their commits. -/
theorem landed_of_serial {submissions : List (Submission App)}
    (h : x'.db = (serially (x.site hooks) (submissions.map Submission.command) x.db).2) :
    LedgerState.landed hooks (submissions.map Submission.command) x x'
      = commitsOf (x.site hooks) (submissions.map Submission.command) x.db := by
  unfold LedgerState.landed
  refine filter_eq_self.2 fun k hk => ?_
  rw [h, decide_eq_true_iff]
  exact ((commitsOf_bounds _ submissions x.db).2.2 k hk).2

/-- What `execute` leaves, and that it records only what the ledger says. -/
theorem execute_lands {r : Result CommandExecution}
    (h : (execute hooks storage s.command).outcome x = (r, x')) :
    Lands hooks [s] x x' ∧ ∀ o, r = .ok (.recorded o) → Replays s.command x.db o := by
  have hown : ∀ {result db'}, (applyMutation (x.site hooks) s.command).outcome (.opened x.db)
      = (.ok result, .opened db') →
      db' = (serially (x.site hooks) ([s].map Submission.command) x.db).2 := by
    intro result db' hop
    simp only [map_cons, map_nil, serially, ownTransaction_of_opened hop]
  rcases execute_cases h with ⟨rfl, e, rfl⟩ | ⟨-, -, h⟩
  · exact ⟨⟨rfl, .inl rfl⟩, fun o ho => by cases ho⟩
  rcases finished_cases h with ⟨e, rfl, rfl | ⟨db', hleft, rfl⟩⟩ |
    ⟨o, db', hop, rfl, rfl⟩ | ⟨o, t, due, db', cuts, hop, rfl, rfl⟩
  · exact ⟨⟨rfl, .inl rfl⟩, fun o ho => by cases ho⟩
  · refine ⟨⟨rfl, ?_⟩, fun o ho => by cases ho⟩
    rcases hleft with rfl | ⟨result, hop⟩ | ⟨y, hop⟩
    · exact .inl rfl
    · exact .inr (hown hop)
    · cases (applyMutation_clean (s.work.handler_clean s.now)).of_outcome hop trivial
  · refine ⟨⟨rfl, .inr (hown hop)⟩, fun o' ho => ?_⟩
    obtain ⟨-, -, ⟨o'', hr, -, hreplays⟩ | ⟨_, _, _, _, _, _, hr, -⟩⟩ := applyMutation_ok hop
    · cases hr
      cases ho
      exact hreplays
    · cases hr
  · exact ⟨⟨rfl, .inr (hown hop)⟩, fun o ho => by cases ho⟩

/-- What `execute_group` leaves, and that its outcomes are those of its commands one after
another. -/
theorem executeGroup_lands {r : Result NativeGroupExecution}
    (h : (executeGroup rules hooks storage late (submissions.map Submission.command)).outcome x
      = (r, x')) :
    Lands hooks submissions x x' ∧ ∀ group, r = .ok group →
      x'.db = (serially (x.site hooks) (submissions.map Submission.command) x.db).2 ∧
      group.outcomes = (serially (x.site hooks) (submissions.map Submission.command) x.db).1.map
        (Except.map TransactionResult.outcome) := by
  rcases executeGroup_cases h with ⟨rfl, e, rfl⟩ | ⟨-, -, ⟨e, rfl, rfl | ⟨db', hleft, rfl⟩⟩ |
    ⟨group, rfl, houtcomes, -, hlast⟩⟩
  · exact ⟨⟨rfl, .inl rfl⟩, nofun⟩
  · exact ⟨⟨rfl, .inl rfl⟩, nofun⟩
  · refine ⟨⟨rfl, ?_⟩, nofun⟩
    rcases hleft with rfl | ⟨result, hop⟩ | ⟨y, hop⟩
    · exact .inl rfl
    · exact .inr (Txn.opened.inj (groupMembers_ok hop).1)
    · have hclean : ∀ command ∈ submissions.map Submission.command, ∀ db,
        (command.handler db).2.Clean :=
        forall_mem_map.2 fun s _ => s.work.handler_clean s.now
      cases (groupMembers_clean hclean).of_outcome hop trivial
  · split at hlast
    · obtain ⟨-, rfl⟩ := hlast
      refine ⟨⟨rfl, .inr rfl⟩, fun group' hr => ?_⟩
      cases hr
      exact ⟨rfl, houtcomes⟩
    · obtain ⟨cuts, -, rfl⟩ := hlast
      refine ⟨⟨rfl, .inr rfl⟩, fun group' hr => ?_⟩
      cases hr
      exact ⟨rfl, houtcomes⟩

namespace LedgerState

variable {s : LedgerState App Proof Checkpoint}

/-- The state of a run: the ledger stands for its commits, and every answer was one of theirs. -/
structure Inv (present : RequestId → MutationIdentity × Digest) (hooks : Hooks App)
    (readings : List Int) (s : LedgerState App Proof Checkpoint) : Prop where
  ledger : LedgerInv present (s.executor.site hooks) readings s.commits s.executor.db
  replies : ∀ reply ∈ s.replies, ∃ k ∈ s.commits, k.identity.requestId = reply.1 ∧
    k.outcome = reply.2

/-- The invariant holds at the start. -/
theorem start_inv (present : RequestId → MutationIdentity × Digest) (hooks : Hooks App)
    (cell : CellId) (incarnation : IncarnationId) (schema : Nat) (app : App) :
    Inv present hooks [] (start cell incarnation schema app : LedgerState App Proof
      Checkpoint) where
  ledger :=
    { owned := ⟨rfl, rfl, rfl⟩
      nonneg := le_rfl
      time := mem_cons_self
      sequences := rfl
      head := rfl
      presented := nofun
      row := nofun
      kept := nofun
      once := nodup_nil
      fits := nofun }
  replies := nofun

/-- What a call that landed makes of the ledger. -/
theorem Inv.land (h : Inv present hooks readings s) (hlands : Lands hooks submissions s.executor x')
    (hpresent : ∀ s ∈ submissions, present s.identity.requestId = (s.identity, s.operationDigest))
    (hclock : (readings ++ submissions.map (·.now)).Pairwise fun t t' => t - t' < dayMs) :
    LedgerInv present (x'.site hooks) (readings ++ submissions.map (·.now))
      (s.commits ++ landed hooks (submissions.map Submission.command) s.executor x') x'.db := by
  rw [hlands.1]
  rcases hlands.2 with hdb | hdb
  · rw [landed_of_same hdb, hdb, append_nil]
    exact h.ledger.later _
  · rw [landed_of_serial hdb, hdb]
    exact (h.ledger.serial hpresent hclock).1

/-- One call keeps the invariant. -/
theorem step_inv (h : Inv present hooks readings s) {call : LedgerCall App Proof Checkpoint}
    (hpresent : ∀ s ∈ call.submissions,
      present s.identity.requestId = (s.identity, s.operationDigest))
    (hclock : (readings ++ call.submissions.map (·.now)).Pairwise
      fun t t' => t - t' < dayMs) :
    Inv present hooks (readings ++ call.submissions.map (·.now)) (step rules hooks s call) := by
  have hold : ∀ {more reply}, reply ∈ s.replies →
      ∃ k ∈ s.commits ++ more, k.identity.requestId = reply.1 ∧ k.outcome = reply.2 := by
    intro more reply hreply
    obtain ⟨k, hk, hparts⟩ := h.replies reply hreply
    exact ⟨k, mem_append_left _ hk, hparts⟩
  cases call with
  | execute storage submission =>
    rcases hran : (execute hooks storage submission.command).outcome s.executor
      with ⟨r, x'⟩
    obtain ⟨hlands, hrecorded⟩ := execute_lands hran
    have hledger := h.land hlands hpresent hclock
    simp only [step, hran]
    refine ⟨hledger, fun reply hreply => ?_⟩
    rcases mem_append.1 hreply with hreply | hreply
    · exact hold hreply
    · rcases r with e | ⟨o⟩ | _
      · cases hreply
      · obtain ⟨k, hk, hid, hout⟩ := h.ledger.replayed (hrecorded o rfl)
        rw [mem_singleton.1 hreply]
        exact ⟨k, mem_append_left _ hk, hid, hout⟩
      · cases hreply
  | executeGroup storage late submissions =>
    rcases hran : (executeGroup rules hooks storage late
      (submissions.map Submission.command)).outcome s.executor with ⟨r, x'⟩
    obtain ⟨hlands, hgroup⟩ := executeGroup_lands hran
    have hledger := h.land hlands hpresent hclock
    simp only [step, hran]
    refine ⟨hledger, fun reply hreply => ?_⟩
    rcases mem_append.1 hreply with hreply | hreply
    · exact hold hreply
    · rcases r with e | group
      · cases hreply
      · obtain ⟨hdb, houtcomes⟩ := hgroup group rfl
        dsimp only at hreply
        rw [houtcomes] at hreply
        rw [landed_of_serial hdb]
        exact (h.ledger.serial hpresent hclock).2 reply hreply
  | resume y =>
    simp only [LedgerCall.submissions, map_nil, append_nil]
    exact ⟨h.ledger, h.replies⟩

/-- The readings of the clock in a run, in order. -/
def clock (calls : List (LedgerCall App Proof Checkpoint)) : List Int :=
  calls.flatMap fun call => call.submissions.map (·.now)

/-- Every run keeps the invariant. -/
theorem run_inv (h : Inv present hooks readings s)
    (hpresent : ∀ call ∈ calls, ∀ s ∈ call.submissions,
      present s.identity.requestId = (s.identity, s.operationDigest))
    (hclock : (readings ++ clock calls).Pairwise fun t t' => t - t' < dayMs) :
    Inv present hooks (readings ++ clock calls) (run rules hooks s calls) := by
  induction calls generalizing readings s with
  | nil => simpa [clock, run] using h
  | cons call calls ih =>
    rw [clock, flatMap_cons, ← append_assoc] at hclock ⊢
    have hstep : Inv present hooks (readings ++ call.submissions.map (·.now))
        (step rules hooks s call) :=
      step_inv h (hpresent call mem_cons_self) (pairwise_append.1 hclock).1
    exact ih hstep (fun c hc => hpresent c (mem_cons_of_mem _ hc)) hclock

end LedgerState

/-! ## What the calls of a run leave -/

namespace LedgerState

variable {s : LedgerState App Proof Checkpoint}

/-- What a call leaves: the database and the commits it found, or what its commands leave one after
another, with their commits. -/
structure Takes (hooks : Hooks App) (submissions : List (Submission App))
    (s s' : LedgerState App Proof Checkpoint) : Prop where
  lands : Lands hooks submissions s.executor s'.executor
  performs : s'.executor.db = s.executor.db ∧ s'.commits = s.commits ∨
    ∃ results, PerformsEach submissions s.executor.db results s'.executor.db ∧
      s'.commits = s.commits ++ commitsIn submissions results

end LedgerState

/-! ## Requests that have a row -/

namespace LedgerInv

/-- The metadata is that of the site. -/
theorem runtimeMetadata_ok (h : LedgerInv present site readings commits db) :
    ∃ m, db.runtimeMetadata site.cell site.incarnation site.schema = .ok m := by
  unfold CellDb.runtimeMetadata
  rw [h.owned.1, h.owned.2.1, h.owned.2.2, decide_eq_false (not_lt.2 h.nonneg)]
  simp

end LedgerInv

/-! ## At most once -/

namespace LedgerState

variable {s : LedgerState App Proof Checkpoint}

/-- A submission that puts a number on the list of the sample database. -/
def sampleSubmission (id : UInt8) (now limit : Nat) : Submission (List Nat) :=
  ⟨⟨.fill 16 id, 0, 1000⟩, .fill 32 id, now, limit,
    .application fun db => (.ok (.success [id]), .opened { db with app := id.toNat :: db.app })⟩

/-- A tick a day after the sample submissions have expired. -/
def sampleTick : Submission (List Nat) :=
  ⟨⟨.fill 16 9, 86401000, 86402000⟩, .fill 32 9, 86401000, 8,
    .tick 128 128 fun db => (.ok (.success []), .opened db)⟩

/-- A submission that puts a number on the list and is rejected. -/
def sampleRefusal : Submission (List Nat) :=
  ⟨⟨.fill 16 2, 86401000, 86402000⟩, .fill 32 2, 86401001, 8,
    .application fun db => (.ok (.rejected [2]), .opened { db with app := 2 :: db.app })⟩

/-- A request, a tick that deletes its row, the request again on a clock that stepped back, and a
group whose member is rejected. -/
def sampleCalls : List (LedgerCall (List Nat) Unit Unit) :=
  [.execute (.sound ⟨[], 0, 0⟩) (sampleSubmission 1 10 8), .resume sampleExecutor,
    .execute (.sound ⟨[], 0, 0⟩) sampleTick, .resume sampleExecutor,
    .execute (.sound ⟨[], 0, 0⟩) (sampleSubmission 1 1001 8),
    .executeGroup (.sound ⟨[], 0, 0⟩) (fun _ => false) [sampleRefusal]]

/-- The sample run from an installed Cell. -/
def sampleRun (calls : List (LedgerCall (List Nat) Unit Unit)) : LedgerState (List Nat) Unit Unit :=
  run sampleRules sampleHooks (start (.fill 32 5) (.fill 16 6) 1 []) calls

end LedgerState

end Cellule
