import Cellule.Cell.Executor

/-!
# What the executor's transactions can do

One lemma for each part of a call that commits: the transaction and its check
(`transactChecked_cases`), the commit that joins the queue (`finishTransaction_committed`), and both
(`finished_cases`). A call fails without a change, fails with a fence, or its transaction returned.
-/

namespace Cellule

open Stateful

namespace CellExecutor

variable {App Proof Checkpoint Capture : Type} {x x' : CellExecutor App Proof Checkpoint}

variable {α : Type} {ioError : Option Error} {r : Result CommandExecution} {storage : Storage}

/-- A transaction that the executor accepted returned, and nothing changed in the executor. -/
theorem checkTransaction_ok (h : (checkTransaction ioError transaction).outcome x = (.ok a, x')) :
    transaction = .ok a ∧ x' = x := by
  unfold checkTransaction at h
  split at h
  · cases h
  · split at h
    · obtain ⟨hok, hx⟩ := Prod.mk.inj h
      exact ⟨congrArg _ (Except.ok.inj hok), hx.symm⟩
    all_goals cases h

/-- A transaction that the executor did not accept: the executor is fenced, or the transaction
failed without a fatal error and nothing changed. -/
theorem checkTransaction_error
    (h : (checkTransaction ioError transaction).outcome x = (.error e, x')) :
    x' = x.fence ∨ x' = x ∧ ∃ error, transaction = .error error ∧ error.isFatal = false := by
  unfold checkTransaction at h
  split at h
  · exact .inl (Prod.mk.inj h).2.symm
  · split at h
    · cases h
    · exact .inr ⟨(Prod.mk.inj h).2.symm, _, rfl, rfl⟩
    · exact .inr ⟨(Prod.mk.inj h).2.symm, _, rfl, rfl⟩
    · exact .inr ⟨(Prod.mk.inj h).2.symm, _, rfl, rfl⟩
    · exact .inl (Prod.mk.inj h).2.symm

/-- The entry that a commit makes. -/
def entry (o : StoredOutcome) (t : Int) (due : Option Int) (cuts : CaptureBatch) : PendingCommit :=
  ⟨o, t, due, cuts, none, false⟩

/-- The executor with one more entry in its queue. -/
def push (x : CellExecutor App Proof Checkpoint) (pending : PendingCommit) :
    CellExecutor App Proof Checkpoint :=
  { x with pendingBytes := x.pendingBytes + pending.retainedBytes
           pending := x.pending ++ [pending] }

/-- A commit that joined the queue. -/
theorem enqueue_ok {pending : PendingCommit}
    (h : (enqueue pending).outcome x = (.ok u, x')) : x' = x.push pending := by
  unfold enqueue at h
  rw [outcome_look_bind] at h
  split at h
  · cases h
  · next bytes hbytes =>
    rw [push, ← (checkedAdd_eq_some.1 hbytes).2]
    exact (Prod.mk.inj h).2.symm

/-- A commit that does not fit fences. -/
theorem enqueue_error {pending : PendingCommit}
    (h : (enqueue pending).outcome x = (.error e, x')) : x' = x.fence := by
  unfold enqueue at h
  rw [outcome_look_bind] at h
  split at h
  · exact (Prod.mk.inj h).2.symm
  · cases h

/-- The commit of a transaction joins the queue, or the executor is fenced. -/
theorem finishTransaction_committed {capture : Result CaptureBatch}
    (h : (finishTransaction ioError capture (.ok (.committed o t due))).outcome x = (r, x')) :
    (∃ cuts, r = .ok .pending ∧ x' = x.push (entry o t due cuts)) ∨
      ∃ e, r = .error e ∧ x' = x.fence := by
  unfold finishTransaction at h
  rw [outcome_bind] at h
  split at h
  · next result x₁ hcheck =>
    obtain ⟨hresult, rfl⟩ := checkTransaction_ok hcheck
    obtain rfl := Except.ok.inj hresult
    dsimp only at h
    split at h
    · exact .inr ⟨_, (Prod.mk.inj h).1.symm, (Prod.mk.inj h).2.symm⟩
    · next cuts =>
      rw [outcome_bind] at h
      split at h
      · next u x₂ hqueue =>
        obtain rfl := enqueue_ok hqueue
        exact .inl ⟨cuts, (Prod.mk.inj h).1.symm, (Prod.mk.inj h).2.symm⟩
      · next e x₂ hqueue =>
        obtain rfl := enqueue_error hqueue
        exact .inr ⟨e, (Prod.mk.inj h).1.symm, (Prod.mk.inj h).2.symm⟩
  · next e x₁ hcheck =>
    obtain ⟨rfl, rfl⟩ := Prod.mk.inj h
    rcases checkTransaction_error hcheck with rfl | ⟨-, error, herror, -⟩
    · exact .inr ⟨e, rfl, rfl⟩
    · cases herror

/-- The executor after a transaction that failed: as it was, or fenced with what the transaction
left. -/
def Refused {α : Type} (operation : CellDb App → Result α × Txn App)
    (x x' : CellExecutor App Proof Checkpoint) : Prop :=
  x' = x ∨ ∃ db', Left operation x.db db' ∧ x' = fence { x with db := db' }

/-- A transaction and its check: the executor refused, or the transaction returned and the call goes
on with its database. -/
theorem transactChecked_cases {β : Type} {operation : CellDb App → Result α × Txn App}
    {f : α → ExecutorM App Proof Checkpoint β} {r : Result β}
    (h : (transact storage operation >>= fun t => checkTransaction ioError t >>= f).outcome
      x = (r, x')) :
    (∃ e, r = .error e ∧ Refused operation x x') ∨
      ∃ a db', operation x.db = (.ok a, .opened db') ∧
        (f a).outcome { x with db := db' } = (r, x') := by
  have hleft := transactionWith_left storage operation x.db
  rcases htxn : transactionWith storage operation x.db with ⟨t, db'⟩
  rw [htxn] at hleft
  have hrun : (checkTransaction ioError t >>= f).outcome { x with db := db' } = (r, x') := by
    have hunfold : (transact storage operation >>= fun t => checkTransaction ioError t
      >>= f).outcome x
        = (checkTransaction ioError (transactionWith storage operation x.db).1 >>= f).outcome
          { x with db := (transactionWith storage operation x.db).2 } := rfl
    rw [hunfold, htxn] at h
    exact h
  rw [outcome_bind] at hrun
  split at hrun
  · next a x₁ hcheck =>
    obtain ⟨rfl, rfl⟩ := checkTransaction_ok hcheck
    exact .inr ⟨a, db', transactionWith_ok htxn, hrun⟩
  · next e x₁ hcheck =>
    obtain ⟨rfl, rfl⟩ := Prod.mk.inj hrun
    refine .inl ⟨e, rfl, ?_⟩
    rcases checkTransaction_error hcheck with rfl | ⟨rfl, error, rfl, hfatal⟩
    · exact .inr ⟨db', hleft, rfl⟩
    · rcases transactionWith_error htxn with rfl | ⟨hbad, -⟩
      · exact .inl rfl
      · rw [hfatal] at hbad
        cases hbad

/-- A transaction that ends in `finishTransaction`: the executor refused, or the transaction was
answered from a row, or its commit joined the queue. -/
theorem finished_cases
    (h : (transact storage operation >>= finishTransaction ioError capture).outcome x = (r, x')) :
    (∃ e, r = .error e ∧ Refused operation x x') ∨
      (∃ o db', operation x.db = (.ok (.recorded o), .opened db') ∧ r = .ok (.recorded o) ∧
        x' = { x with db := db' }) ∨
      ∃ o t due db' cuts, operation x.db = (.ok (.committed o t due), .opened db') ∧
        r = .ok .pending ∧ x' = push { x with db := db' } (entry o t due cuts) := by
  rcases transactChecked_cases h with hrefused | ⟨result, db', hop, hrun⟩
  · exact .inl hrefused
  cases result with
  | recorded o =>
    obtain ⟨rfl, rfl⟩ := Prod.mk.inj hrun
    exact .inr (.inl ⟨o, db', hop, rfl, rfl⟩)
  | committed o t due =>
    have hcommitted : (finishTransaction none capture (.ok (.committed o t due))).outcome
        { x with db := db' } = (r, x') := hrun
    rcases finishTransaction_committed hcommitted with ⟨cuts, rfl, rfl⟩ | ⟨e, rfl, rfl⟩
    · exact .inr (.inr ⟨o, t, due, db', cuts, hop, rfl, rfl⟩)
    · exact .inl ⟨e, rfl, .inr ⟨db', .inr (.inl ⟨_, hop⟩), rfl⟩⟩

/-! ## The calls that commit -/

/-- A call failed before its transaction, and nothing changed. -/
def Declined {α : Type} (x x' : CellExecutor App Proof Checkpoint) (r : Result α) : Prop :=
  x' = x ∧ ∃ e, r = .error e

/-- What `execute` can do before its transaction. -/
theorem execute_cases (h : (execute hooks storage command).outcome x = (r, x')) :
    Declined x x' r ∨ x.fenced = false ∧ x.acceptsPublication = true ∧
      (transact storage (fun db => (applyMutation (x.site hooks) command).outcome (.opened db)) >>=
        finishTransaction storage.ioError storage.capture).outcome x = (r, x') := by
  unfold execute at h
  rw [outcome_look_bind] at h
  rcases outcome_rejectWhen_bind_cases h with ⟨hx, hr⟩ | ⟨hfenced, h⟩
  · exact .inl ⟨hx, _, hr⟩
  rcases outcome_rejectWhen_bind_cases h with ⟨hx, hr⟩ | ⟨haccepts, h⟩
  · exact .inl ⟨hx, _, hr⟩
  rcases outcome_rejectWhen_bind_cases h with ⟨hx, hr⟩ | ⟨-, h⟩
  · exact .inl ⟨hx, _, hr⟩
  rcases Stateful.outcome_lift_bind_cases h with ⟨hx, hr⟩ | ⟨_, -, h⟩
  · exact .inl ⟨hx, hr⟩
  exact .inr ⟨hfenced, by simpa using haccepts, h⟩

/-- What `deliver_effect` can do before its transaction. -/
theorem deliverEffect_cases
    (h : (deliverEffect hooks storage delivery now limit handler).outcome x = (r, x')) :
    Declined x x' r ∨ x.fenced = false ∧ x.acceptsPublication = true ∧
      (transact storage (fun db =>
          (deliverMutation (x.site hooks) now delivery limit handler).outcome (.opened db)) >>=
        finishTransaction storage.ioError storage.capture).outcome x = (r, x') := by
  unfold deliverEffect at h
  rw [outcome_look_bind] at h
  rcases outcome_rejectWhen_bind_cases h with ⟨hx, hr⟩ | ⟨hfenced, h⟩
  · exact .inl ⟨hx, _, hr⟩
  rcases outcome_rejectWhen_bind_cases h with ⟨hx, hr⟩ | ⟨haccepts, h⟩
  · exact .inl ⟨hx, _, hr⟩
  rcases outcome_rejectWhen_bind_cases h with ⟨hx, hr⟩ | ⟨-, h⟩
  · exact .inl ⟨hx, _, hr⟩
  exact .inr ⟨hfenced, by simpa using haccepts, h⟩

end CellExecutor

end Cellule
