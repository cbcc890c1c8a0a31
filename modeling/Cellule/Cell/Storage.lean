import Cellule.Cell.Ledger
import Cellule.Ltx.Types

/-!
# Transactions on a managed database

`transactionWith` runs a callback in one transaction of the managed database. What the storage
answers is a field of `Storage`: every theorem is for every answer. `transactionWith_ok` and
`transactionWith_error` say what a transaction leaves: the callback's database if it returned, and
otherwise the database before it, unless the error is fatal.
-/

namespace Cellule

/-- A resource check of the host's disk: the budget refuses (`FailureClass::Capacity`), or the disk
failed in another way. -/
inductive Disk where
  | fine
  | full (error : Error)
  | broken (error : Error)

/-- A transaction that did not start: refused by a bound, or failed. -/
inductive Refusal where
  | admission (error : Error)
  | fatal (error : Error)

/-- The captured cuts of a commit (`CaptureBatch`, `cellule-ltx/src/types.rs:178`). -/
structure CaptureBatch where
  segments : List SegmentInfo
  position : Position
  deriving DecidableEq

/-- What the storage answers to one call: before the callback (`start`), to a rollback (`rollsBack`,
`disk`), to the commit (`sealed`; `lost` for one that failed, with whether it took effect; `cut`),
to `take_io_error` (`ioError`, `laterIoError` where a call asks again), and to
`capture_deferred`. -/
structure Storage where
  start : Option Refusal
  rollsBack : Bool
  disk : Disk
  sealed : Disk
  lost : Option Bool
  cut : Option Error
  ioError : Option Error
  laterIoError : Option Error
  capture : Result CaptureBatch

/-- Storage that does as it is told, and captures what is given. -/
def Storage.sound (cuts : CaptureBatch) : Storage :=
  ⟨none, true, .fine, .fine, none, none, none, none, .ok cuts⟩

/-- `TransactionError` of `cellule-ltx`; its `Sqlite` and `Capture` are `fatal`. -/
inductive TransactionError where
  | operation (error : Error)
  | admission (error : Error)
  | rolledBack (resource : Error)
  | fatal (error : Error)

/-- `transaction_error` (`cell/executor/mod.rs:1547`). -/
def TransactionError.error : TransactionError → Error
  | operation e => e
  | admission e => e
  | rolledBack e => e
  | fatal e => e

/-- The error that fences the session. -/
def TransactionError.isFatal : TransactionError → Bool
  | fatal _ => true
  | _ => false

section
variable {App α : Type}

/-- The error of a callback whose transaction was rolled back. -/
def Storage.rolledBack (storage : Storage) (error : Error) : TransactionError :=
  match storage.disk with
  | .fine => .operation error
  | .full resource => .rolledBack resource
  | .broken resource => .fatal resource

/-- The end of `transaction_with` after the callback failed: a transaction that SQLite ended is not
rolled back again, unless the callback wrote outside of it; then the rollback fails. -/
def Storage.abandon (storage : Storage) (error : Error) (txn : Txn App) (db : CellDb App) :
    TransactionError × CellDb App :=
  match txn with
  | .ended none => (storage.rolledBack error, db)
  | .ended (some stray) => (.fatal .sqlite, stray)
  | .opened _ => if storage.rollsBack then (storage.rolledBack error, db) else (.fatal .sqlite, db)

/-- The end of `transaction_with` after the callback returned. A `COMMIT` without a transaction
fails. -/
def Storage.complete (storage : Storage) (value : α) (txn : Txn App) (db : CellDb App) :
    Except TransactionError α × CellDb App :=
  match txn with
  | .ended stray => (.error (.fatal .sqlite), stray.getD db)
  | .opened db' =>
    match storage.sealed with
    | .full resource =>
      (.error (if storage.rollsBack then .rolledBack resource else .fatal .sqlite), db)
    | .broken resource => (.error (.fatal resource), db)
    | .fine =>
      match storage.lost with
      | some landed => (.error (.fatal .sqlite), if landed then db' else db)
      | none =>
        match storage.cut with
        | some error => (.error (.fatal error), db')
        | none => (.ok value, db')

/-- `Db::transaction_with` (`cellule-ltx/src/db/mod.rs:481`). -/
def transactionWith (storage : Storage) (operation : CellDb App → Result α × Txn App)
    (db : CellDb App) : Except TransactionError α × CellDb App :=
  match storage.start with
  | some (.admission error) => (.error (.admission error), db)
  | some (.fatal error) => (.error (.fatal error), db)
  | none =>
    match operation db with
    | (.error error, txn) =>
      (.error (storage.abandon error txn db).1, (storage.abandon error txn db).2)
    | (.ok value, txn) => storage.complete value txn db

variable {storage : Storage} {operation : CellDb App → Result α × Txn App} {db db' : CellDb App}

/-- A transaction that returned committed what the callback left. -/
theorem transactionWith_ok (h : transactionWith storage operation db = (.ok a, db')) :
    operation db = (.ok a, .opened db') := by
  unfold transactionWith at h
  split at h
  · cases h
  · cases h
  · split at h
    · cases h
    · next value txn hop =>
      rw [hop]
      unfold Storage.complete at h
      split at h
      · cases h
      · split at h
        · cases h
        · cases h
        · split at h
          · cases h
          · split at h
            · cases h
            · obtain ⟨hvalue, hdb⟩ := Prod.mk.inj h
              rw [Except.ok.inj hvalue, hdb]

/-- A transaction that failed left the database as it was, unless the error is fatal; then it may be
the callback's, or what the callback wrote after SQLite had ended its transaction. -/
theorem transactionWith_error (h : transactionWith storage operation db = (.error e, db')) :
    db' = db ∨ e.isFatal = true ∧
      ((∃ a, operation db = (.ok a, .opened db')) ∨
        ∃ x, operation db = (x, .ended (some db'))) := by
  unfold transactionWith at h
  split at h
  · exact .inl (Prod.mk.inj h).2.symm
  · exact .inl (Prod.mk.inj h).2.symm
  split at h
  · next error txn hop =>
    obtain ⟨he, rfl⟩ := Prod.mk.inj h
    obtain rfl := Except.error.inj he
    unfold Storage.abandon
    split
    · exact .inl rfl
    · exact .inr ⟨rfl, .inr ⟨_, hop⟩⟩
    · split <;> exact .inl rfl
  · next value txn hop =>
    unfold Storage.complete at h
    split at h
    · obtain ⟨he, hdb⟩ := Prod.mk.inj h
      rw [← Except.error.inj he]
      next stray =>
      cases stray with
      | none => exact .inl hdb.symm
      | some stray => exact .inr ⟨rfl, .inr ⟨_, hop.trans (by rw [← hdb]; rfl)⟩⟩
    next committed =>
    split at h
    · exact .inl (Prod.mk.inj h).2.symm
    · exact .inl (Prod.mk.inj h).2.symm
    split at h
    · next landed _ =>
      obtain ⟨he, hdb⟩ := Prod.mk.inj h
      rw [← Except.error.inj he]
      cases landed with
      | false => exact .inl hdb.symm
      | true => exact .inr ⟨rfl, .inl ⟨value, hop.trans (by rw [← hdb]; rfl)⟩⟩
    split at h
    · obtain ⟨he, hdb⟩ := Prod.mk.inj h
      rw [← Except.error.inj he]
      exact .inr ⟨rfl, .inl ⟨value, hop.trans (by rw [hdb])⟩⟩
    · cases h

/-- What a transaction can leave: the database before it, the callback's, or what the callback wrote
after SQLite had ended the transaction. -/
def Left (operation : CellDb App → Result α × Txn App) (db db' : CellDb App) : Prop :=
  db' = db ∨ (∃ a, operation db = (.ok a, .opened db')) ∨ ∃ x, operation db = (x, .ended (some db'))

/-- What every transaction leaves. -/
theorem transactionWith_left (storage : Storage) (operation : CellDb App → Result α × Txn App)
    (db : CellDb App) : Left operation db (transactionWith storage operation db).2 := by
  rcases h : transactionWith storage operation db with ⟨x, db'⟩
  cases x with
  | ok a => exact .inr (.inl ⟨a, transactionWith_ok h⟩)
  | error e =>
    rcases transactionWith_error h with hdb | ⟨-, hleft⟩
    · exact .inl hdb
    · exact .inr hleft

/-- With sound storage a callback that returned commits. -/
theorem transactionWith_sound_ok (cuts : CaptureBatch) (h : operation db = (.ok a, .opened left)) :
    transactionWith (.sound cuts) operation db = (.ok a, left) := by
  simp [transactionWith, Storage.sound, h, Storage.complete]

/-- With sound storage a callback that failed is rolled back. -/
theorem transactionWith_sound_error (cuts : CaptureBatch)
    (h : operation db = (.error e, .opened left)) :
    transactionWith (.sound cuts) operation db = (.error (.operation e), db) := by
  simp [transactionWith, Storage.sound, h, Storage.abandon, Storage.rolledBack]

end

end Cellule
