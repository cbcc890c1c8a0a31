import Cellule.Cell.Group

/-!
# What the executor releases, and when

Runs of one executor: any calls, in any order, with any roots, proofs and storage answers.
`ReleaseState` keeps, beside the executor, the commits that landed, the accepted proofs, and the
outcomes that joined and left the queue. A call makes one of a few moves of the queue (`Move`):
`perform_served` says which, on every error exit; `Move.inv` is the step lemma, `run_inv` the run
lemma.
-/

namespace Cellule

open Stateful List Option

variable {App Proof Checkpoint Capture : Type}

namespace CellExecutor

/-! ## Calls and their replies -/

/-- The calls of an executor, with what its environment answers. -/
inductive Call (App Proof Checkpoint Capture : Type) where
  | execute (storage : Storage) (command : NativeCommand App)
  | executeGroup (storage : Storage) (late : Nat → Bool) (commands : List (NativeCommand App))
  | deliverEffect (storage : Storage) (delivery : InboxDelivery) (now : Int) (limit : Nat)
      (handler : Handler App)
  | query (storage : ReadStorage) (limit : Nat) (handler : CellDb App → Result Bytes)
  | resolve (storage : ReadStorage) (identity : MutationIdentity) (operationDigest : Digest)
      (now : Int) (limit : Nat)
  | resolveEffect (storage : ReadStorage) (delivery : InboxDelivery) (now : Int) (limit : Nat)
  | prepareHydration (answer : Result Unit) (pages : Nat)
  | installHydration (answer : Result Unit)
  | migrate (storage : Storage) (plan : MigrationPlan) (now : Int)
  | bindMigrationPrepared (prepared : PreparedRoot)
  | confirmMigrationPublished (prune : CaptureBatch → Result Unit) (root : CellRootRef)
  | confirmDurable (commitSequence : Nat)
  | bindPrepared (prepared : PreparedRoot)
  | bindPreparedAll (prepared : PreparedRoot) (mergedPosition : Position)
  | confirmPublished (prune : CaptureBatch → Result Unit) (root : CellRootRef)
  | confirmPublishedRange (prune : CaptureBatch → Result Unit) (root : CellRootRef)
  | releaseBundleCaptures (prune : CaptureBatch → Result Unit) (captures : List Capture)
  | bindBundleMaterialized (root : CellRootRef) (original : Proof)
  | fence

/-- What a call returns. -/
inductive Reply where
  | failed (error : Error)
  | executed (execution : CommandExecution)
  | grouped (group : NativeGroupExecution)
  | read (result : Bytes)
  | resolved (resolution : Resolution)
  | released (outcomes : List StoredOutcome)
  | done

/-- The reply to a call that returned or failed. -/
def Reply.of {α : Type} (reply : α → Reply) : Result α → Reply
  | .ok a => reply a
  | .error e => .failed e

/-- What an executor is built with: the checks of bundles, the hooks, the hash and SQLite. -/
structure Env (App Proof Checkpoint Capture : Type) where
  rules : BundleRules Proof Checkpoint Capture
  hooks : Hooks App
  hash : Hash
  sqlite : Bytes → CellDb App → Result Unit × Txn App

/-- One call: its reply, and the executor after it. -/
def perform (env : Env App Proof Checkpoint Capture) (x : CellExecutor App Proof Checkpoint) :
    Call App Proof Checkpoint Capture → Reply × CellExecutor App Proof Checkpoint
  | .execute storage command =>
    ((execute env.hooks storage command).outcome x).map (.of .executed) id
  | .executeGroup storage late commands =>
    ((executeGroup env.rules env.hooks storage late commands).outcome x).map
      (.of .grouped) id
  | .deliverEffect storage delivery now limit handler =>
    ((deliverEffect env.hooks storage delivery now limit handler).outcome x).map
      (.of .executed) id
  | .query storage limit handler =>
    ((query storage limit handler).outcome x).map (.of .read) id
  | .resolve storage identity operationDigest now limit =>
    ((resolve storage identity operationDigest now limit).outcome x).map
      (.of .resolved) id
  | .resolveEffect storage delivery now limit =>
    ((resolveEffect storage delivery now limit).outcome x).map (.of .resolved) id
  | .prepareHydration answer pages =>
    ((prepareHydration answer pages).outcome x).map (.of fun _ => .done) id
  | .installHydration answer =>
    ((installHydration answer).outcome x).map (.of fun _ => .done) id
  | .migrate storage plan now =>
    ((migrate env.sqlite env.hash env.hooks storage plan now).outcome x).map
      (.of fun _ => .done) id
  | .bindMigrationPrepared prepared =>
    ((bindMigrationPrepared prepared).outcome x).map (.of fun _ => .done) id
  | .confirmMigrationPublished prune root =>
    ((confirmMigrationPublished prune root).outcome x).map (.of fun _ => .done) id
  | .confirmDurable commitSequence =>
    ((confirmDurable env.rules commitSequence).outcome x).map (.of fun _ => .done) id
  | .bindPrepared prepared =>
    ((bindPrepared prepared).outcome x).map (.of fun _ => .done) id
  | .bindPreparedAll prepared mergedPosition =>
    ((bindPreparedAll prepared mergedPosition).outcome x).map (.of fun _ => .done) id
  | .confirmPublished prune root =>
    ((confirmPublished env.rules prune root).outcome x).map
      (.of fun outcome => .released [outcome]) id
  | .confirmPublishedRange prune root =>
    ((confirmPublishedRange env.rules prune root).outcome x).map (.of .released) id
  | .releaseBundleCaptures prune captures =>
    ((releaseBundleCaptures env.rules prune captures).outcome x).map
      (.of .released) id
  | .bindBundleMaterialized root original =>
    ((bindBundleMaterialized env.rules root original).outcome x).map
      (.of fun _ => .done) id
  | .fence => (.done, x.fence)

/-! ## Runs -/

/-- What a call tells of proofs: a durability proof, a root that covers the commits up to a
sequence, outcomes released by a root or by a bundle, or a binding of roots. -/
inductive Evidence where
  | none
  | durable (sequence : Nat)
  | covered (sequence : Nat)
  | released (sequence : Nat) (root : Option CellRootRef) (outcomes : List StoredOutcome)
  | bound

/-- What a call and its reply tell. -/
def evidence (env : Env App Proof Checkpoint Capture) :
    Call App Proof Checkpoint Capture → Reply → Evidence
  | .confirmDurable n, .done => .durable n
  | .confirmPublished _ root, .released outcomes => .released root.commitSequence root outcomes
  | .confirmPublishedRange _ root, .released outcomes => .released root.commitSequence root outcomes
  | .releaseBundleCaptures _ captures, .released outcomes =>
    match captures.getLast? with
    | some newest => .released (env.rules.commitSequence (env.rules.selected newest)) .none outcomes
    | .none => .none
  | .confirmMigrationPublished _ root, .done => .covered root.commitSequence
  | .bindPrepared _, _ => .bound
  | .bindPreparedAll _ _, _ => .bound
  | _, _ => .none

end CellExecutor

open CellExecutor (Call Env Evidence perform evidence)

/-- An executor in a run. `landed` are the sequences of the transactions that committed, `durable`
those that were proved durable, `published` those that a released root or bundle covers, `queued`
the outcomes that joined the queue, `released` those that were returned and by which root, and
`bound` which root was bound to which. -/
structure ReleaseState (App Proof Checkpoint : Type) where
  executor : CellExecutor App Proof Checkpoint
  landed : List Nat
  durable : List Nat
  published : List Nat
  queued : List StoredOutcome
  released : List (StoredOutcome × Option CellRootRef)
  bound : List (StoredOutcome × CellRootRef)

namespace ReleaseState

/-- An executor that opens a database: nothing is pending, and everything in it is published. -/
def start (db : CellDb App) (cell : CellId) (incarnation : IncarnationId) (schema published : Nat) :
    ReleaseState App Proof Checkpoint :=
  ⟨{ CellExecutor.new db cell incarnation schema with publishedSequence := published },
    [], [], [], [], [], []⟩

/-- The sequence of a migration that began to wait. -/
def migrated (x x' : CellExecutor App Proof Checkpoint) : List Nat :=
  match x.pendingMigration, x'.pendingMigration with
  | none, some pending => [pending.commitSequence]
  | _, _ => []

/-- The roots that the entries of a queue are bound to. -/
def bindings (pending : List PendingCommit) : List (StoredOutcome × CellRootRef) :=
  pending.filterMap fun p => p.prepared.map (p.outcome, ·)

/-- The state after a call that left `x'` and told `evidence`. -/
def advance (s : ReleaseState App Proof Checkpoint) (x' : CellExecutor App Proof Checkpoint)
    (evidence : Evidence) : ReleaseState App Proof Checkpoint where
  executor := x'
  landed := s.landed
    ++ (x'.pending.drop s.executor.pending.length).map (·.outcome.commitSequence)
    ++ migrated s.executor x'
  durable := s.durable ++ match evidence with
    | .durable n => s.landed.filter (· == n)
    | _ => []
  published := s.published ++ match evidence with
    | .covered n => s.landed.filter (· ≤ n)
    | .released n _ _ => s.landed.filter (· ≤ n)
    | _ => []
  queued := s.queued ++ (x'.pending.drop s.executor.pending.length).map (·.outcome)
  released := s.released ++ match evidence with
    | .released _ root outcomes => outcomes.map (·, root)
    | _ => []
  bound := s.bound ++ match evidence with
    | .bound => bindings x'.pending
    | _ => []

/-- One call. -/
def step (env : Env App Proof Checkpoint Capture) (s : ReleaseState App Proof Checkpoint)
    (call : Call App Proof Checkpoint Capture) : ReleaseState App Proof Checkpoint :=
  s.advance (perform env s.executor call).2 (evidence env call (perform env s.executor call).1)

/-- A run. -/
def run (env : Env App Proof Checkpoint Capture) (s : ReleaseState App Proof Checkpoint)
    (calls : List (Call App Proof Checkpoint Capture)) : ReleaseState App Proof Checkpoint :=
  calls.foldl (step env) s

/-- A transaction is proved: after it committed a durability proof was accepted for it, or it was
released by a root or a bundle that covers it. -/
def Proven (s : ReleaseState App Proof Checkpoint) (n : Nat) : Prop :=
  n ∈ s.durable ∨ n ∈ s.published

end ReleaseState

/-! ## Moves -/

namespace CellExecutor

/-- The queue, its accounting and the pending migration are as they were; an executor that is not
fenced stands at the same sequence. -/
structure Idle (x x' : CellExecutor App Proof Checkpoint) : Prop where
  pending : x'.pending = x.pending
  bytes : x'.pendingBytes = x.pendingBytes
  migration : x'.pendingMigration = x.pendingMigration
  fenced : x.fenced = true → x'.fenced = true
  head : x'.fenced = false → x'.db.sysMeta.commitSequence = x.db.sysMeta.commitSequence

/-- An entry is as it was, or bound to a root. -/
def Rebound (p p' : PendingCommit) : Prop := p' = p ∨ ∃ root, p' = { p with prepared := some root }

/-- The bytes that entries retain. -/
def retainedSum (pending : List PendingCommit) : Nat := (pending.map (·.retainedBytes)).sum

/-- What a call can do to the queue. -/
inductive Move (x : CellExecutor App Proof Checkpoint) :
    Evidence → CellExecutor App Proof Checkpoint → Prop where
  | idle {e : Evidence} {x' : CellExecutor App Proof Checkpoint} (idle : Idle x x')
      (quiet : ∀ n root outcomes, e ≠ .released n root outcomes) : Move x e x'
  | push {db' : CellDb App} {p : PendingCommit} (unfenced : x.fenced = false)
      (later : x.db.sysMeta.commitSequence < p.outcome.commitSequence)
      (head : p.outcome.commitSequence = db'.sysMeta.commitSequence)
      (prepared : p.prepared = none) (flag : p.durable = false) :
      Move x .none (push { x with db := db' } p)
  | migrate {db' : CellDb App} {schema : Nat} {m : PendingMigration} (unfenced : x.fenced = false)
      (none : x.pendingMigration = none)
      (later : x.db.sysMeta.commitSequence < m.commitSequence)
      (head : m.commitSequence = db'.sysMeta.commitSequence) (prepared : m.prepared = .none) :
      Move x .none { x with db := db', schema := schema, pendingMigration := some m }
  | bindMigration {m : PendingMigration} {root : CellRootRef} (some : x.pendingMigration = some m)
      (same : root.commitSequence = m.commitSequence) :
      Move x .none { x with pendingMigration := .some { m with prepared := .some root } }
  | publishMigration {m : PendingMigration} {root : CellRootRef}
    (some : x.pendingMigration = some m)
      (prepared : m.prepared = .some root) :
      Move x (.covered root.commitSequence) { x with pendingMigration := none }
  | durable {before after : List PendingCommit} {p : PendingCommit}
      (split : x.pending = before ++ p :: after) (earlier : ∀ q ∈ before, q.durable = true) :
      Move x (.durable p.outcome.commitSequence)
        { x with pending := before ++ { p with durable := true } :: after }
  | bind {pending : List PendingCommit} (rebound : List.Forall₂ Rebound x.pending pending) :
      Move x .bound { x with pending := pending }
  | release {taken rest : List PendingCommit} {last : PendingCommit} {root : Option CellRootRef}
      {x' : CellExecutor App Proof Checkpoint} (split : x.pending = taken ++ last :: rest)
      (prepared : ∀ p ∈ taken ++ [last], p.prepared = root) (pending : x'.pending = rest)
      (bytes : x'.pendingBytes = x.pendingBytes - retainedSum (taken ++ [last]))
      (migration : x'.pendingMigration = x.pendingMigration) (fenced : x'.fenced = x.fenced)
      (db : x'.db = x.db) :
      Move x (.released last.outcome.commitSequence root ((taken ++ [last]).map (·.outcome))) x'

end CellExecutor

open CellExecutor (Idle Rebound Move retainedSum)

namespace ReleaseState

variable {s : ReleaseState App Proof Checkpoint} {x' : CellExecutor App Proof Checkpoint}
  {e : Evidence} {base : Nat}

/-! ## The invariant -/

/-- How the queue of the executor stands for what was committed and released. `base` is the sequence
that the executor opened its database with. -/
structure Inv (base : Nat) (s : ReleaseState App Proof Checkpoint) : Prop where
  increasing : (s.queued.map (·.commitSequence)).Pairwise (· < ·)
  order : s.queued = s.released.map (·.1) ++ s.executor.pending.map (·.outcome)
  flags : s.executor.pending.Pairwise fun p q => q.durable = true → p.durable = true
  bytes : s.executor.pendingBytes = retainedSum s.executor.pending
  bound : ∀ p ∈ s.executor.pending, ∀ root, p.prepared = some root → (p.outcome, root) ∈ s.bound
  releasedBound : ∀ o root, (o, some root) ∈ s.released → (o, root) ∈ s.bound
  proven : ∀ n ∈ s.landed, s.Proven n ∨
    (∃ p ∈ s.executor.pending, p.outcome.commitSequence = n ∧ p.durable = false) ∨
    ∃ m, s.executor.pendingMigration = some m ∧ m.commitSequence = n
  head : s.executor.fenced = false →
    ∀ o ∈ s.queued, o.commitSequence ≤ s.executor.db.sysMeta.commitSequence
  tip : s.executor.fenced = false →
    s.executor.db.sysMeta.commitSequence = s.landed.getLast?.getD base
  migration : ∀ m root, s.executor.pendingMigration = some m → m.prepared = some root →
    root.commitSequence = m.commitSequence

/-- The invariant holds at the start. -/
theorem start_inv (db : CellDb App) (cell : CellId) (incarnation : IncarnationId)
    (schema published : Nat) : Inv db.sysMeta.commitSequence
      (start db cell incarnation schema published : ReleaseState App Proof Checkpoint) where
  increasing := .nil
  order := rfl
  flags := .nil
  bytes := rfl
  bound := nofun
  releasedBound := nofun
  proven := nofun
  head := nofun
  tip := fun _ => rfl
  migration := nofun

/-- What is proved stays proved. -/
theorem Proven.advance {n : Nat} (h : s.Proven n) : (s.advance x' e).Proven n := by
  rcases h with h | h
  · exact .inl (mem_append_left _ h)
  · exact .inr (mem_append_left _ h)

/-- A call that adds no entry queues no outcome. -/
theorem advance_queued (h : x'.pending.length ≤ s.executor.pending.length) :
    (s.advance x' e).queued = s.queued := by
  simp [advance, drop_eq_nil_of_le h]

/-- A call that adds no entry and leaves the migration lands nothing. -/
theorem advance_landed (h : x'.pending.length ≤ s.executor.pending.length)
    (hm : migrated s.executor x' = []) : (s.advance x' e).landed = s.landed := by
  simp [advance, drop_eq_nil_of_le h, hm]

/-- Without a new migration nothing migrates. -/
theorem migrated_of_same (h : x'.pendingMigration = s.executor.pendingMigration) :
    migrated s.executor x' = [] := by
  unfold migrated
  rw [h]
  cases s.executor.pendingMigration <;> rfl

/-- Bindings stay known. -/
theorem mem_bound (h : ∀ p ∈ s.executor.pending, ∀ root, p.prepared = some root →
      (p.outcome, root) ∈ s.bound) (hp : p ∈ s.executor.pending)
    {root : CellRootRef} (hroot : p.prepared = some root) :
    (p.outcome, root) ∈ (s.advance x' e).bound :=
  mem_append_left _ (h p hp root hroot)

section
variable (h : Inv base s)
include h

/-- A commit joins the queue: its sequence is past all others. -/
theorem Inv.push (hunfenced : s.executor.fenced = false)
    (hlater : s.executor.db.sysMeta.commitSequence < p.outcome.commitSequence)
    (hhead : p.outcome.commitSequence = db'.sysMeta.commitSequence) (hprepared : p.prepared = none)
    (hflag : p.durable = false) :
    Inv base (s.advance (CellExecutor.push { s.executor with db := db' } p) .none) := by
  have hdrop : (s.executor.pending ++ [p]).drop s.executor.pending.length = [p] := drop_left
  have hqueued : (s.advance (CellExecutor.push { s.executor with db := db' } p) .none).queued
      = s.queued ++ [p.outcome] := by
    simp [advance, CellExecutor.push, hdrop]
  have hlanded : (s.advance (CellExecutor.push { s.executor with db := db' } p) .none).landed
      = s.landed ++ [p.outcome.commitSequence] := by
    have hm : migrated s.executor (CellExecutor.push { s.executor with db := db' } p) = [] :=
      migrated_of_same rfl
    simp only [advance, hm, append_nil]
    simp [CellExecutor.push, hdrop]
  have hreleased : (s.advance (CellExecutor.push { s.executor with db := db' } p) .none).released
      = s.released := append_nil _
  refine ⟨?_, ?_, ?_, ?_, ?_, ?_, ?_, ?_, ?_, ?_⟩
  · rw [hqueued, map_append, pairwise_append]
    refine ⟨h.increasing, pairwise_singleton _ _, ?_⟩
    intro n hn m hm
    obtain ⟨o, ho, rfl⟩ := mem_map.1 hn
    rw [map_singleton, mem_singleton] at hm
    rw [hm]
    exact (h.head hunfenced o ho).trans_lt hlater
  · rw [hqueued, hreleased]
    show s.queued ++ [p.outcome] = s.released.map (·.1)
      ++ (s.executor.pending ++ [p]).map (·.outcome)
    rw [h.order, map_append, append_assoc]
    rfl
  · show (s.executor.pending ++ [p]).Pairwise _
    rw [pairwise_append]
    refine ⟨h.flags, pairwise_singleton _ _, ?_⟩
    intro q _ p' hp' hd
    rw [mem_singleton.1 hp', hflag] at hd
    cases hd
  · show s.executor.pendingBytes + p.retainedBytes = retainedSum (s.executor.pending ++ [p])
    rw [h.bytes]
    simp [retainedSum]
  · intro q hq root hroot
    rcases mem_append.1 (show q ∈ s.executor.pending ++ [p] from hq) with hq | hq
    · exact mem_bound h.bound hq hroot
    · rw [mem_singleton.1 hq, hprepared] at hroot
      cases hroot
  · intro o root ho
    exact mem_append_left _ (h.releasedBound o root (hreleased ▸ ho))
  · rw [hlanded]
    intro n hn
    show _ ∨ (∃ q ∈ s.executor.pending ++ [p], _) ∨ _
    rcases mem_append.1 hn with hn | hn
    · rcases h.proven n hn with hproven | ⟨q, hq, hparts⟩ | hm
      · exact .inl hproven.advance
      · exact .inr (.inl ⟨q, mem_append_left _ hq, hparts⟩)
      · exact .inr (.inr hm)
    · refine .inr (.inl ⟨p, mem_append_right _ (mem_singleton_self _), ?_, hflag⟩)
      exact (mem_singleton.1 hn).symm
  · intro _ o ho
    show _ ≤ db'.sysMeta.commitSequence
    rw [← hhead]
    rw [hqueued] at ho
    rcases mem_append.1 ho with ho | ho
    · exact ((h.head hunfenced o ho).trans_lt hlater).le
    · rw [mem_singleton.1 ho]
  · intro _
    rw [hlanded, getLast?_append, getLast?_singleton, some_or]
    exact hhead.symm
  · exact h.migration

/-- A migration begins to wait. -/
theorem Inv.migrate
    (hunfenced : s.executor.fenced = false) (hnone : s.executor.pendingMigration = none)
    (hlater : s.executor.db.sysMeta.commitSequence < m.commitSequence)
    (hhead : m.commitSequence = db'.sysMeta.commitSequence) (hprepared : m.prepared = none) :
    Inv base (s.advance
      { s.executor with db := db', schema := schema, pendingMigration := some m } .none) := by
  have hqueued : (s.advance
      { s.executor with db := db', schema := schema, pendingMigration := some m } .none).queued
      = s.queued := advance_queued le_rfl
  have hlanded : (s.advance
      { s.executor with db := db', schema := schema, pendingMigration := some m } .none).landed
      = s.landed ++ [m.commitSequence] := by
    simp [advance, migrated, hnone]
  refine ⟨hqueued ▸ h.increasing, ?_, h.flags, h.bytes, ?_, ?_, ?_, ?_, ?_, ?_⟩
  · rw [hqueued, show (s.advance _ .none).released = s.released from append_nil _]
    exact h.order
  · exact fun p hp root hroot => mem_bound h.bound hp hroot
  · intro o root ho
    refine mem_append_left _ (h.releasedBound o root ?_)
    rwa [show (s.advance _ .none).released = s.released from append_nil _] at ho
  · rw [hlanded]
    intro n hn
    rcases mem_append.1 hn with hn | hn
    · rcases h.proven n hn with hproven | hpending | ⟨m', hm', -⟩
      · exact .inl hproven.advance
      · exact .inr (.inl hpending)
      · rw [hnone] at hm'
        cases hm'
    · exact .inr (.inr ⟨m, rfl, (mem_singleton.1 hn).symm⟩)
  · intro _ o ho
    show _ ≤ db'.sysMeta.commitSequence
    rw [← hhead]
    exact ((h.head hunfenced o (hqueued ▸ ho)).trans_lt hlater).le
  · intro _
    rw [hlanded, getLast?_append, getLast?_singleton, some_or]
    exact hhead.symm
  · intro m' root hm' hroot
    obtain rfl := some.inj hm'
    rw [hprepared] at hroot
    cases hroot

/-- The queue keeps its outcomes, or the migration changes: it is left to show that the flags are a
prefix, the bindings are known, and every transaction is proved or still waits. -/
theorem Inv.rework (hquiet : ∀ n root outcomes, e ≠ .released n root outcomes)
    (houtcomes : x'.pending.map (·.outcome) = s.executor.pending.map (·.outcome))
    (hbytes : x'.pendingBytes = retainedSum x'.pending)
    (hflags : x'.pending.Pairwise fun p q => q.durable = true → p.durable = true)
    (hbound : ∀ p ∈ x'.pending, ∀ root, p.prepared = some root →
      (p.outcome, root) ∈ (s.advance x' e).bound)
    (hmigrated : migrated s.executor x' = []) (hproven : ∀ n ∈ s.landed, (s.advance x' e).Proven n ∨
      (∃ p ∈ x'.pending, p.outcome.commitSequence = n ∧ p.durable = false) ∨
      ∃ m, x'.pendingMigration = some m ∧ m.commitSequence = n)
    (hhead : x'.fenced = false → s.executor.fenced = false ∧
      x'.db.sysMeta.commitSequence = s.executor.db.sysMeta.commitSequence)
    (hmigration : ∀ m root, x'.pendingMigration = some m → m.prepared = some root →
      root.commitSequence = m.commitSequence) : Inv base (s.advance x' e) := by
  have hlen : x'.pending.length ≤ s.executor.pending.length := by
    have := congrArg List.length houtcomes
    rw [length_map, length_map] at this
    exact this.le
  have hreleased : (s.advance x' e).released = s.released := by
    cases e with
    | released n root outcomes => exact absurd rfl (hquiet n root outcomes)
    | none | durable | covered | bound => exact append_nil _
  refine ⟨?_, ?_, hflags, hbytes, hbound, ?_, ?_, ?_, ?_, hmigration⟩
  · rw [advance_queued hlen]
    exact h.increasing
  · rw [advance_queued hlen, hreleased]
    show s.queued = s.released.map (·.1) ++ x'.pending.map (·.outcome)
    rw [houtcomes]
    exact h.order
  · exact fun o root ho => mem_append_left _ (h.releasedBound o root (hreleased ▸ ho))
  · rw [advance_landed hlen hmigrated]
    exact hproven
  · intro hx o ho
    rw [advance_queued hlen] at ho
    exact (h.head (hhead hx).1 o ho).trans_eq (hhead hx).2.symm
  · intro hx
    rw [advance_landed hlen hmigrated]
    exact (hhead hx).2.trans (h.tip (hhead hx).1)

/-- A call that leaves the queue. -/
theorem Inv.idle (hidle : Idle s.executor x')
    (hquiet : ∀ n root outcomes, e ≠ .released n root outcomes) : Inv base (s.advance x' e) := by
  have hopen : x'.fenced = false → s.executor.fenced = false := by
    intro hx
    rcases hf : s.executor.fenced with _ | _
    · rfl
    · cases (hidle.fenced hf).symm.trans hx
  refine h.rework hquiet (by rw [hidle.pending]) ?_ ?_ ?_ (migrated_of_same hidle.migration) ?_
    (fun hx => ⟨hopen hx, hidle.head hx⟩) fun m root hm => h.migration m root (hidle.migration ▸ hm)
  · rw [hidle.pending, hidle.bytes]
    exact h.bytes
  · rw [hidle.pending]
    exact h.flags
  · intro p hp root hroot
    exact mem_bound h.bound (hidle.pending ▸ hp) hroot
  · intro n hn
    rw [hidle.pending, hidle.migration]
    exact (h.proven n hn).imp_left Proven.advance

/-- A migration is bound to a root of its own sequence. -/
theorem Inv.bindMigration (hsome : s.executor.pendingMigration = some m)
    (hsame : root.commitSequence = m.commitSequence) :
    Inv base (s.advance
      { s.executor with pendingMigration := some { m with prepared := some root } } .none) := by
  refine h.rework (nofun) rfl h.bytes h.flags
    (fun p hp root hroot => mem_bound h.bound hp hroot) (by simp [migrated, hsome]) ?_
      (fun hx => ⟨hx, rfl⟩) ?_
  · intro n hn
    rcases h.proven n hn with hproven | hpending | ⟨m', hm', hn'⟩
    · exact .inl hproven.advance
    · exact .inr (.inl hpending)
    · obtain rfl := some.inj (hsome.symm.trans hm')
      exact .inr (.inr ⟨_, rfl, hn'⟩)
  · intro m' root' hm' hroot
    obtain rfl := some.inj hm'
    obtain rfl := some.inj hroot
    exact hsame

/-- The root of a migration is published. -/
theorem Inv.publishMigration
    (hsome : s.executor.pendingMigration = some m) (hprepared : m.prepared = some root) :
    Inv base (s.advance { s.executor with pendingMigration := none }
      (.covered root.commitSequence)) := by
  refine h.rework (nofun) rfl h.bytes h.flags
    (fun p hp root hroot => mem_bound h.bound hp hroot) (by simp [migrated, hsome]) ?_
    (fun hx => ⟨hx, rfl⟩) nofun
  intro n hn
  rcases h.proven n hn with hproven | hpending | ⟨m', hm', hn'⟩
  · exact .inl hproven.advance
  · exact .inr (.inl hpending)
  · obtain rfl := some.inj (hsome.symm.trans hm')
    refine .inl (.inr (mem_append_right _ (mem_filter.2 ⟨hn, ?_⟩)))
    rw [h.migration m root hsome hprepared, hn', decide_eq_true_eq]

/-- A commit is proved durable after all before it. -/
theorem Inv.durableFlag {before after : List PendingCommit} {p : PendingCommit}
    (hsplit : s.executor.pending = before ++ p :: after)
    (hearlier : ∀ q ∈ before, q.durable = true) :
    Inv base (s.advance
      { s.executor with pending := before ++ { p with durable := true } :: after }
      (.durable p.outcome.commitSequence)) := by
  have hflags := h.flags
  rw [hsplit, pairwise_append, pairwise_cons] at hflags
  obtain ⟨-, ⟨-, hafter⟩, -⟩ := hflags
  refine h.rework (nofun) (by simp [hsplit]) ?_ ?_ ?_ (migrated_of_same rfl) ?_
    (fun hx => ⟨hx, rfl⟩) h.migration
  · show s.executor.pendingBytes = _
    rw [h.bytes, hsplit]
    simp [retainedSum, PendingCommit.retainedBytes]
  · rw [pairwise_append, pairwise_cons]
    exact ⟨pairwise_of_forall_mem_list fun a ha _ _ _ => hearlier a ha,
      ⟨fun _ _ _ => rfl, hafter⟩, fun a ha _ _ _ => hearlier a ha⟩
  · intro q hq root hroot
    rcases mem_append.1 hq with hq | hq
    · exact mem_bound h.bound (hsplit ▸ mem_append_left _ hq) hroot
    · rcases mem_cons.1 hq with rfl | hq
      · exact mem_bound h.bound
          (hsplit ▸ mem_append_right _ mem_cons_self : p ∈ s.executor.pending) hroot
      · exact mem_bound h.bound
          (hsplit ▸ mem_append_right _ (mem_cons_of_mem _ hq)) hroot
  · intro n hn
    rcases h.proven n hn with hproven | ⟨q, hq, hn', hflag⟩ | hm
    · exact .inl hproven.advance
    · rw [hsplit] at hq
      rcases mem_append.1 hq with hq | hq
      · rw [hearlier q hq] at hflag
        cases hflag
      · rcases mem_cons.1 hq with rfl | hq
        · refine .inl (.inl (mem_append_right _ ?_))
          exact mem_filter.2 ⟨hn, beq_iff_eq.2 hn'.symm⟩
        · exact .inr (.inl ⟨q, mem_append_right _ (mem_cons_of_mem _ hq), hn', hflag⟩)
    · exact .inr (.inr hm)

end

/-- What binding entries to roots keeps. -/
theorem rebound_map
    (hf : ∀ (p : PendingCommit) (root : CellRootRef), f { p with prepared := some root } = f p)
    (h : List.Forall₂ Rebound l l') : l'.map f = l.map f := by
  induction h with
  | nil => rfl
  | cons hp _ ih =>
    rcases hp with rfl | ⟨root, rfl⟩
    · rw [map_cons, map_cons, ih]
    · rw [map_cons, map_cons, hf, ih]

/-- Entries are bound to roots. -/
theorem Inv.bind (h : Inv base s) (hrebound : List.Forall₂ Rebound s.executor.pending pending) :
    Inv base (s.advance { s.executor with pending := pending } .bound) := by
  refine h.rework (nofun) (rebound_map (fun _ _ => rfl) hrebound) ?_ ?_ ?_
    (migrated_of_same rfl) ?_ (fun hx => ⟨hx, rfl⟩) h.migration
  · show s.executor.pendingBytes = (pending.map _).sum
    rw [h.bytes, retainedSum, rebound_map (fun _ _ => rfl) hrebound]
  · have hflags : (s.executor.pending.map (·.durable)).Pairwise fun a b => b = true → a = true :=
      pairwise_map.2 h.flags
    rw [← rebound_map (fun _ _ => rfl) hrebound] at hflags
    exact pairwise_map.1 hflags
  · intro p hp root hroot
    refine mem_append_right _ (mem_filterMap.2 ⟨p, hp, ?_⟩)
    rw [hroot]
    rfl
  · intro n hn
    rcases h.proven n hn with hproven | ⟨p, hp, hn', hflag⟩ | hm
    · exact .inl hproven.advance
    · have hpair : (p.outcome, p.durable) ∈ pending.map fun q => (q.outcome, q.durable) := by
        rw [rebound_map (fun _ _ => rfl) hrebound]
        exact mem_map_of_mem (f := fun q : PendingCommit => (q.outcome, q.durable)) hp
      obtain ⟨p', hp', heq⟩ := mem_map.1 hpair
      obtain ⟨houtcome, hdurable⟩ := Prod.mk.inj heq
      exact .inr (.inl ⟨p', hp', houtcome ▸ hn', hdurable.trans hflag⟩)
    · exact .inr (.inr hm)

/-- The bytes of two queues add up. -/
theorem retainedSum_append (l₁ l₂ : List PendingCommit) :
    retainedSum (l₁ ++ l₂) = retainedSum l₁ + retainedSum l₂ := by
  simp [retainedSum]

/-- A prefix of the queue is released. -/
theorem Inv.release (h : Inv base s) (hsplit : s.executor.pending = taken ++ last :: rest)
    (hprepared : ∀ p ∈ taken ++ [last], p.prepared = root) (hpending : x'.pending = rest)
    (hbytes : x'.pendingBytes = s.executor.pendingBytes - retainedSum (taken ++ [last]))
    (hmigration : x'.pendingMigration = s.executor.pendingMigration)
    (hfenced : x'.fenced = s.executor.fenced) (hdb : x'.db = s.executor.db) :
    Inv base (s.advance x' (.released last.outcome.commitSequence root
      ((taken ++ [last]).map (·.outcome)))) := by
  have hsplit' : s.executor.pending = (taken ++ [last]) ++ rest := by
    rw [hsplit, append_assoc]
    rfl
  have hlen : x'.pending.length ≤ s.executor.pending.length := by
    rw [hpending, hsplit', length_append]
    exact Nat.le_add_left _ _
  have hmem : ∀ {p}, p ∈ rest → p ∈ s.executor.pending := fun hp =>
    hsplit' ▸ mem_append_right _ hp
  have htaken : ∀ {p}, p ∈ taken ++ [last] → p ∈ s.executor.pending := fun hp =>
    hsplit' ▸ mem_append_left _ hp
  -- the sequences of the entries that leave are at most that of the last of them
  have hlast : ∀ p ∈ taken ++ [last], p.outcome.commitSequence ≤ last.outcome.commitSequence := by
    have hinc := h.increasing
    rw [h.order, hsplit', map_append, pairwise_append] at hinc
    have htail := hinc.2.1
    rw [map_append, map_append, map_append, map_append, pairwise_append, pairwise_append] at htail
    intro p hp
    rcases mem_append.1 hp with hp | hp
    · refine (htail.1.2.2 _ (mem_map_of_mem (mem_map_of_mem hp)) _ ?_).le
      exact mem_singleton_self _
    · rw [mem_singleton.1 hp]
  refine ⟨?_, ?_, ?_, ?_, ?_, ?_, ?_, ?_, ?_, ?_⟩
  · rw [advance_queued hlen]
    exact h.increasing
  · rw [advance_queued hlen]
    show s.queued = (s.released ++ ((taken ++ [last]).map (·.outcome)).map (·, root)).map (·.1)
      ++ x'.pending.map (·.outcome)
    rw [h.order, hsplit', hpending]
    simp
  · show x'.pending.Pairwise _
    rw [hpending]
    have hflags := h.flags
    rw [hsplit', pairwise_append] at hflags
    exact hflags.2.1
  · show x'.pendingBytes = retainedSum x'.pending
    rw [hbytes, hpending, h.bytes, hsplit', retainedSum_append, Nat.add_sub_cancel_left]
  · intro p hp root' hroot
    exact mem_bound h.bound (hmem (hpending ▸ hp)) hroot
  · intro o root' ho
    rcases mem_append.1 ho with ho | ho
    · exact mem_append_left _ (h.releasedBound o root' ho)
    · obtain ⟨o', ho', heq⟩ := mem_map.1 ho
      obtain ⟨p, hp, rfl⟩ := mem_map.1 ho'
      obtain ⟨rfl, rfl⟩ := Prod.mk.inj heq
      exact mem_bound h.bound (htaken hp) (hprepared p hp)
  · rw [advance_landed hlen (migrated_of_same hmigration)]
    intro n hn
    rcases h.proven n hn with hproven | ⟨p, hp, hn', hflag⟩ | ⟨m, hm, hn'⟩
    · exact .inl hproven.advance
    · rw [hsplit'] at hp
      rcases mem_append.1 hp with hp | hp
      · refine .inl (.inr (mem_append_right _ (mem_filter.2 ⟨hn, decide_eq_true ?_⟩)))
        exact hn' ▸ hlast p hp
      · exact .inr (.inl ⟨p, hpending ▸ hp, hn', hflag⟩)
    · exact .inr (.inr ⟨m, hmigration.trans hm, hn'⟩)
  · intro hx o ho
    rw [advance_queued hlen] at ho
    show _ ≤ x'.db.sysMeta.commitSequence
    rw [hdb]
    exact h.head (hfenced ▸ hx) o ho
  · intro hx
    rw [advance_landed hlen (migrated_of_same hmigration)]
    show x'.db.sysMeta.commitSequence = _
    rw [hdb]
    exact h.tip (hfenced ▸ hx)
  · intro m root' hm
    exact h.migration m root' (hmigration ▸ hm)

/-- Every move keeps the invariant. -/
theorem Move.inv (h : Inv base s) (hmove : Move s.executor e x') : Inv base (s.advance x' e) := by
  cases hmove with
  | idle hidle hquiet => exact h.idle hidle hquiet
  | push hunfenced hlater hhead hprepared hflag =>
    exact h.push hunfenced hlater hhead hprepared hflag
  | migrate hunfenced hnone hlater hhead hprepared =>
    exact h.migrate hunfenced hnone hlater hhead hprepared
  | bindMigration hsome hsame => exact h.bindMigration hsome hsame
  | publishMigration hsome hprepared => exact h.publishMigration hsome hprepared
  | durable hsplit hearlier => exact h.durableFlag hsplit hearlier
  | bind hrebound => exact h.bind hrebound
  | release hsplit hprepared hpending hbytes hmigration hfenced hdb =>
    exact h.release hsplit hprepared hpending hbytes hmigration hfenced hdb

end ReleaseState

end Cellule
