import Cellule.Cell.ExecutorLaws

/-!
# Command groups

A group runs its members in one transaction, each under a savepoint. `serially` is what the same
commands do one after another, each in its own transaction on sound storage. `groupMembers_ok` is
the induction over the members: one that fails is undone without touching the earlier ones, and one
that repeats a request sees the row of an earlier one. `executeGroup_serial` is the result.
-/

namespace Cellule

open Stateful List

section
variable {App : Type}

/-! ## Commands one after another -/

/-- One command in a transaction of its own, on sound storage. -/
def ownTransaction (site : Site App) (command : NativeCommand App) (db : CellDb App) :
    Result TransactionResult × CellDb App :=
  match transactionWith (.sound ⟨[], 0, 0⟩)
      (fun db => (applyMutation site command).outcome (.opened db)) db with
  | (.ok result, db') => (.ok result, db')
  | (.error error, db') => (.error error.error, db')

/-- The commands one after another: their results, and the database they leave. -/
def serially (site : Site App) :
    List (NativeCommand App) → CellDb App → List (Result TransactionResult) × CellDb App
  | [], db => ([], db)
  | command :: commands, db =>
    ((ownTransaction site command db).1 ::
        (serially site commands (ownTransaction site command db).2).1,
      (serially site commands (ownTransaction site command db).2).2)

variable {site : Site App} {db : CellDb App} {commands : List (NativeCommand App)}

/-- A command that left the transaction open. -/
theorem ownTransaction_of_opened
    (h : (applyMutation site command).outcome (.opened db) = (x, .opened left)) :
    ownTransaction site command db = (x, match x with | .ok _ => left | .error _ => db) := by
  unfold ownTransaction
  cases x with
  | ok r => rw [transactionWith_sound_ok _ h]
  | error e => rw [transactionWith_sound_error _ h]; rfl

/-- Every command leaves its transaction open. -/
def SeriallyOpen (site : Site App) : List (NativeCommand App) → CellDb App → Prop
  | [], _ => True
  | command :: commands, db =>
    (∃ x left, (applyMutation site command).outcome (.opened db) = (x, .opened left)) ∧
      SeriallyOpen site commands (ownTransaction site command db).2

/-- The newest commit among results, next to an earlier one. -/
def newestOf (newest : Option TransactionResult) (results : List (Result TransactionResult)) :
    Option TransactionResult :=
  results.foldl
    (fun newest result => match result with
      | .ok result => CellExecutor.newestAfter newest result
      | .error _ => newest) newest

/-- The members of a group do what they do one after another. -/
theorem groupMembers_ok
    (h : (CellExecutor.groupMembers site late commands outcomes newest).outcome (.opened db)
      = (.ok r, txn)) :
    txn = .opened (serially site commands db).2 ∧
      r.1 = outcomes ++ (serially site commands db).1.map (Except.map TransactionResult.outcome) ∧
      r.2 = newestOf newest (serially site commands db).1 ∧ SeriallyOpen site commands db := by
  induction commands generalizing outcomes newest db with
  | nil =>
    obtain ⟨-, h⟩ := outcome_rejectWhen_bind_ok.1 h
    rw [outcome_pure, Prod.mk.injEq] at h
    obtain rfl := Except.ok.inj h.1
    exact ⟨h.2.symm, (append_nil _).symm, rfl, trivial⟩
  | cons command commands ih =>
    obtain ⟨-, h⟩ := outcome_rejectWhen_bind_ok.1 h
    rw [outcome_view_bind, outcome_attempt_bind] at h
    rcases hstep : (applyMutation site command).outcome (.opened db) with ⟨x, txn'⟩
    rw [hstep] at h
    cases x with
    | ok result =>
      -- a command that returned left the transaction open
      obtain ⟨-, -, hcases⟩ := applyMutation_ok hstep
      obtain ⟨left, rfl⟩ : ∃ left, txn' = .opened left := by
        rcases hcases with ⟨_, -, rfl, -⟩ | ⟨_, _, _, left, _, _, -, rfl, -⟩
        · exact ⟨db, rfl⟩
        · exact ⟨left, rfl⟩
      have hown := ownTransaction_of_opened hstep
      dsimp only at h
      rw [outcome_view_bind] at h
      obtain ⟨htxn, houtcomes, hnewest, hopen⟩ := ih h
      simp only [serially, SeriallyOpen, hown, map_cons, newestOf, foldl_cons]
      refine ⟨htxn, ?_, hnewest, ⟨_, _, hstep⟩, hopen⟩
      rw [houtcomes, append_assoc]
      rfl
    | error error =>
      cases txn' with
      | ended stray => cases h
      | opened left =>
        have hown := ownTransaction_of_opened hstep
        dsimp only at h
        rw [outcome_look_bind] at h
        obtain ⟨-, h⟩ := outcome_rejectWhen_bind_ok.1 h
        rw [outcome_write_bind] at h
        obtain ⟨htxn, houtcomes, hnewest, hopen⟩ := ih h
        simp only [serially, SeriallyOpen, hown, map_cons, newestOf, foldl_cons]
        refine ⟨htxn, ?_, hnewest, ⟨_, _, hstep⟩, hopen⟩
        rw [houtcomes, append_assoc]
        rfl

/-- A group writes nothing after its transaction has ended, if no handler of a member does. -/
theorem groupMembers_clean (h : ∀ command ∈ commands, ∀ db, (command.handler db).2.Clean) :
    (CellExecutor.groupMembers site late commands outcomes newest).Keeps Txn.Clean := by
  induction commands generalizing outcomes newest with
  | nil => exact keeps_rejectWhen.bind fun _ => keeps_pure
  | cons command commands ih =>
    rw [forall_mem_cons] at h
    have hstep : (attempt (applyMutation site command)).Keeps Txn.Clean := applyMutation_clean h.1
    refine keeps_rejectWhen.bind fun _ => view_clean.bind fun _ => hstep.bind fun result => ?_
    cases result with
    | ok result => exact view_clean.bind fun _ => ih h.2
    | error error => exact keeps_look.bind fun _ => keeps_rejectWhen.bind fun _ =>
        write_clean.bind fun _ => ih h.2

/-- What a commit leaves to publish. -/
def commitOf : Result TransactionResult → Option (StoredOutcome × Int × Option Int)
  | .ok (.committed outcome logicalTime nextDue) => some (outcome, logicalTime, nextDue)
  | _ => none

/-- The last commit among results. -/
def lastCommit (results : List (Result TransactionResult)) :
    Option (StoredOutcome × Int × Option Int) :=
  (results.filterMap commitOf).getLast?

/-- The last commit of commands one after another has the sequence of the database they leave;
without a commit the database is as it was. -/
theorem serially_head (h : SeriallyOpen site commands db) :
    match lastCommit (serially site commands db).1 with
    | none => (serially site commands db).2 = db
    | some (o, _, _) => db.sysMeta.commitSequence < o.commitSequence ∧
        o.commitSequence = (serially site commands db).2.sysMeta.commitSequence := by
  induction commands generalizing db with
  | nil => rfl
  | cons command commands ih =>
    obtain ⟨⟨x, left, hstep⟩, hrest⟩ := h
    have hown := ownTransaction_of_opened hstep
    rw [hown] at hrest
    have hih := ih hrest
    simp only [serially, hown]
    rcases x with e | r
    · exact hih
    obtain ⟨-, -, ⟨o, rfl, hleft, -⟩ | ⟨o, t, due, db', decision, after, rfl, hleft, hc, -⟩⟩ :=
      applyMutation_ok hstep
    · obtain rfl := Txn.opened.inj hleft
      exact hih
    · obtain rfl := Txn.opened.inj hleft
      have hsequence : left.sysMeta.commitSequence = db.sysMeta.commitSequence + 1 := by
        rw [hc.left, CellDb.advance_commitSequence]
      have ho : o.commitSequence = db.sysMeta.commitSequence + 1 := by
        rw [hc.outcome, Verdict.stored_commitSequence]
      unfold lastCommit at hih ⊢
      rw [filterMap_cons_some (rfl : commitOf (.ok (.committed o t due)) = some (o, t, due)),
        getLast?_cons]
      dsimp only at hih ⊢
      rcases hlast : ((serially site commands left).1.filterMap commitOf).getLast? with _
        | ⟨o', t', due'⟩
      · rw [hlast] at hih
        dsimp only [Option.getD] at hih ⊢
        rw [hih]
        omega
      · rw [hlast] at hih
        dsimp only [Option.getD] at hih ⊢
        omega

/-- The newest commit of a group is its last one. -/
theorem newestOf_eq (newest : Option TransactionResult)
    (results : List (Result TransactionResult)) :
    newestOf newest results = match lastCommit results with
      | some (o, t, due) => some (.committed o t due)
      | none => newest := by
  induction results generalizing newest with
  | nil => rfl
  | cons result results ih =>
    have hstep : newestOf newest (result :: results)
        = newestOf (match result with
            | .ok result => CellExecutor.newestAfter newest result
            | .error _ => newest) results := rfl
    rw [hstep, ih]
    unfold lastCommit
    rcases result with e | ⟨o⟩ | ⟨o, t, due⟩
    · rfl
    · rfl
    · rw [filterMap_cons_some (rfl : commitOf (.ok (.committed o t due)) = some (o, t, due)),
        getLast?_cons]
      cases (results.filterMap commitOf).getLast? <;> rfl

end

/-! ## The executor -/

namespace CellExecutor

variable {App Proof Checkpoint Capture : Type} {x x' : CellExecutor App Proof Checkpoint}

/-- The newest commit of a group joins the queue; where it does not, the executor is fenced. -/
theorem finishGroup_cases
    (h : (finishGroup storage outcomes (newestOf none results) base).outcome x = (r, x')) :
    (∃ e, r = .error e ∧ x' = x.fence) ∨
      ∃ pending, r = .ok ⟨outcomes, pending, base⟩ ∧ match lastCommit results with
        | none => pending = none ∧ x' = x
        | some (o, t, due) => ∃ cuts, pending = some (entry o t due cuts) ∧
            x' = x.push (entry o t due cuts) := by
  rw [newestOf_eq] at h
  split at h
  · next o t due hlast =>
    unfold finishGroup at h
    dsimp only at h
    rw [outcome_bind] at h
    rcases hfinish : (finishTransaction storage.laterIoError storage.capture
      (.ok (.committed o t due))).outcome x with ⟨y, x₁⟩
    rw [hfinish] at h
    rcases finishTransaction_committed hfinish with ⟨cuts, rfl, rfl⟩ | ⟨e, rfl, rfl⟩
    · dsimp only at h
      rw [outcome_look_bind] at h
      simp only [push, getLast?_append, getLast?_singleton, Option.some_or] at h
      obtain ⟨rfl, rfl⟩ := Prod.mk.inj h
      rw [hlast]
      exact .inr ⟨_, rfl, cuts, rfl, rfl⟩
    · exact .inl ⟨e, (Prod.mk.inj h).1.symm, (Prod.mk.inj h).2.symm⟩
  · next hlast =>
    obtain ⟨rfl, rfl⟩ := Prod.mk.inj h
    rw [hlast]
    exact .inr ⟨none, rfl, rfl, rfl⟩

/-- The transaction of a group. -/
def groupOperation (site : Site App) (late : Nat → Bool) (commands : List (NativeCommand App))
    (db : CellDb App) :
    Result (List (Result StoredOutcome) × Option TransactionResult) × Txn App :=
  (groupMembers site late commands [] none).outcome (.opened db)

/-- What `execute_group` can do. -/
theorem executeGroup_cases
    (h : (executeGroup rules hooks storage late commands).outcome x = (r, x')) :
    Declined x x' r ∨ x.fenced = false ∧ x.acceptsPublication = true ∧
      ((∃ e, r = .error e ∧ Refused (groupOperation (x.site hooks) late commands) x x') ∨
        ∃ group, r = .ok group ∧
          group.outcomes = (serially (x.site hooks) commands x.db).1.map
            (Except.map TransactionResult.outcome) ∧
          SeriallyOpen (x.site hooks) commands x.db ∧
          match lastCommit (serially (x.site hooks) commands x.db).1 with
          | none => group.pending = none ∧
              x' = { x with db := (serially (x.site hooks) commands x.db).2 }
          | some (o, t, due) => ∃ cuts, group.pending = some (entry o t due cuts) ∧
              x' = push { x with db := (serially (x.site hooks) commands x.db).2 }
                (entry o t due cuts)) := by
  unfold executeGroup at h
  rcases outcome_rejectWhen_bind_cases h with ⟨hx, hr⟩ | ⟨-, h⟩
  · exact .inl ⟨hx, _, hr⟩
  rw [outcome_look_bind] at h
  rcases outcome_rejectWhen_bind_cases h with ⟨hx, hr⟩ | ⟨hfenced, h⟩
  · exact .inl ⟨hx, _, hr⟩
  rcases outcome_rejectWhen_bind_cases h with ⟨hx, hr⟩ | ⟨haccepts, h⟩
  · exact .inl ⟨hx, _, hr⟩
  refine .inr ⟨hfenced, by simpa using haccepts, ?_⟩
  rcases transactChecked_cases h with hrefused | ⟨⟨outcomes, newest⟩, db', hop, hrun⟩
  · exact .inl hrefused
  obtain ⟨htxn, houtcomes, rfl, hopen⟩ := groupMembers_ok hop
  obtain rfl := Txn.opened.inj htxn
  rw [nil_append] at houtcomes
  rcases finishGroup_cases hrun with ⟨e, rfl, rfl⟩ | ⟨pending, rfl, hlast⟩
  · exact .inl ⟨e, rfl, .inr ⟨_, .inr (.inl ⟨_, hop⟩), rfl⟩⟩
  · exact .inr ⟨_, rfl, houtcomes, hopen, hlast⟩

/-- A group does what its commands do one after another. Whenever `execute_group` returns, the
database, the outcomes, the errors and the sequences are those of the commands in the same order,
each in its own transaction, and the entry that joins the queue is that of the last commit; whenever
it fails, the database is as it was or the executor is fenced. -/
theorem executeGroup_serial (rules : BundleRules Proof Checkpoint Capture) (hooks : Hooks App)
    (storage : Storage) (late : Nat → Bool) (commands : List (NativeCommand App))
    (x : CellExecutor App Proof Checkpoint) :
    match (executeGroup rules hooks storage late commands).outcome x with
    | (.error _, x') => x'.db = x.db ∨ x'.fenced = true
    | (.ok group, x') =>
      x'.db = (serially (x.site hooks) commands x.db).2 ∧
        group.outcomes = (serially (x.site hooks) commands x.db).1.map
          (Except.map TransactionResult.outcome) ∧
        match lastCommit (serially (x.site hooks) commands x.db).1 with
        | none => group.pending = none ∧ x'.pending = x.pending
        | some (outcome, logicalTime, nextDue) => ∃ pending, group.pending = some pending ∧
            x'.pending = x.pending ++ [pending] ∧ pending.outcome = outcome ∧
            pending.logicalTime = logicalTime ∧ pending.nextDue = nextDue := by
  rcases h : (executeGroup rules hooks storage late commands).outcome x with ⟨r, x'⟩
  rcases executeGroup_cases h with ⟨rfl, e, rfl⟩ | ⟨-, -, ⟨e, rfl, rfl | ⟨db', -, rfl⟩⟩ |
    ⟨group, rfl, houtcomes, -, hlast⟩⟩
  · exact .inl rfl
  · exact .inl rfl
  · exact .inr rfl
  · dsimp only
    split at hlast
    · obtain ⟨hpending, rfl⟩ := hlast
      exact ⟨rfl, houtcomes, hpending, rfl⟩
    · obtain ⟨cuts, hpending, rfl⟩ := hlast
      exact ⟨rfl, houtcomes, _, hpending, rfl, rfl, rfl, rfl⟩

/-- An executor of an empty Cell. -/
def sampleExecutor : CellExecutor (List Nat) Unit Unit :=
  .new (.installed (.fill 32 5) (.fill 16 6) 1 []) (.fill 32 5) (.fill 16 6) 1

/-- Hooks that find nothing due. -/
def sampleHooks : Hooks (List Nat) := ⟨fun _ => .ok (), fun _ _ => .ok none⟩

/-- Bundle rules that accept nothing. -/
def sampleRules : BundleRules Unit Unit Unit where
  commitSequence := fun _ => 0
  position := fun _ => ⟨0, 0⟩
  binding := fun _ => ⟨.fill 16 0, 0, .fill 32 0⟩
  selected := fun _ => ()
  continuesSelectedPrefix := fun _ _ _ => .error .fenced
  verifyPending := fun _ _ _ _ => .error .fenced
  materializedPrefix := fun _ _ _ => .error .fenced
  shrinkRetained := fun _ => .error .fenced

end CellExecutor

end Cellule
