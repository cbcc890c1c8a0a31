import Cellule.Identity
import Cellule.Lib.Bytes
import Cellule.Lib.Except
import Cellule.Lib.Select

/-!
# The system tables of a Cell

The tables that the runtime keeps in the database of every Cell (`migrations/runtime.sql`), next to
everything else in it. A row has the types its `CHECK` constraints leave: identities have their
width, an outcome is one of two, a sequence is not negative. Times are `i64` and may be negative.
-/

namespace Cellule

open Except

/-- Identities are ordered as their bytes are. -/
theorem FixedId.ofBe_injective (n : Nat) :
    Function.Injective fun id : FixedId n => Bytes.ofBe id.asBytes := by
  intro a b h
  have hlen : a.asBytes.reverse.length = b.asBytes.reverse.length := by simp
  exact Subtype.ext (List.reverse_injective (Bytes.ofLe_injective hlen h))

instance (n : Nat) : LinearOrder (FixedId n) where
  __ := LinearOrder.lift' _ (FixedId.ofBe_injective n)
  toDecidableEq := instDecidableEqFixedId n
  compare_eq_compareOfLessAndEq a b := by
    refine ((LinearOrder.lift' _ (FixedId.ofBe_injective n)).compare_eq_compareOfLessAndEq
      a b).trans ?_
    congr

/-- The row of `sys_meta`. -/
structure CellMeta where
  cell : CellId
  incarnation : IncarnationId
  commitSequence : Nat
  logicalTime : Int
  schema : Nat
  deriving DecidableEq

/-- The `outcome` column of a ledger: 1 or 2. -/
inductive Verdict where
  | success
  | rejected
  deriving DecidableEq

/-- A row of `sys_requests` or of `sys_inbox`, without its key. -/
structure LedgerRow where
  operationDigest : Digest
  verdict : Verdict
  result : Bytes
  commitSequence : Nat
  expiresAt : Int
  retainUntil : Int
  deriving DecidableEq

/-- A row of `sys_migrations`, without its key. -/
structure MigrationRow where
  digest : Digest
  appliedSequence : Nat
  deriving DecidableEq

/-- The database of a Cell: the tables of the runtime, and the rest. -/
structure CellDb (App : Type) where
  sysMeta : CellMeta
  requests : OrderedMap RequestId LedgerRow
  inbox : OrderedMap Digest LedgerRow
  migrations : OrderedMap Nat MigrationRow
  app : App

namespace CellDb

variable {App : Type}

/-- The database that `install_runtime_schema_in` leaves (`cell/schema.rs`). -/
def installed (cell : CellId) (incarnation : IncarnationId) (schema : Nat) (app : App) :
    CellDb App where
  sysMeta := ⟨cell, incarnation, 0, 0, schema⟩
  requests := .empty
  inbox := .empty
  migrations := .empty
  app := app

/-- `runtime_metadata` (`cell/executor/mod.rs:1518`): the sequence and the logical time, of a
database that belongs to the executor. -/
def runtimeMetadata (db : CellDb App) (cell : CellId) (incarnation : IncarnationId) (schema : Nat) :
    Result (Nat × Int) := do
  reject (db.sysMeta.cell != cell || db.sysMeta.incarnation != incarnation
    || decide (db.sysMeta.logicalTime < 0) || db.sysMeta.schema != schema)
    (.command "runtime schema identity mismatch")
  return (db.sysMeta.commitSequence, db.sysMeta.logicalTime)

/-- The database with one more request row. -/
def withRequest (db : CellDb App) (id : RequestId) (row : LedgerRow) : CellDb App :=
  { db with requests := db.requests.insert id row }

/-- The update of `sys_meta` that ends a command. -/
def advance (db : CellDb App) (sequence : Nat) (logicalTime : Int) : CellDb App :=
  { db with sysMeta := { db.sysMeta with commitSequence := sequence, logicalTime := logicalTime } }

/-- The requests do not move. -/
@[simp] theorem advance_requests (db : CellDb App) (n : Nat) (t : Int) :
    (db.advance n t).requests = db.requests := rfl

/-- The application does not move. -/
@[simp] theorem advance_app (db : CellDb App) (n : Nat) (t : Int) :
    (db.advance n t).app = db.app := rfl

/-- The sequence moves on. -/
@[simp] theorem advance_commitSequence (db : CellDb App) (n : Nat) (t : Int) :
    (db.advance n t).sysMeta.commitSequence = n := rfl

/-- The time moves on. -/
@[simp] theorem advance_logicalTime (db : CellDb App) (n : Nat) (t : Int) :
    (db.advance n t).sysMeta.logicalTime = t := rfl

/-- What the metadata of a database that belongs to the executor are. -/
theorem runtimeMetadata_ok {db : CellDb App}
    (h : db.runtimeMetadata cell incarnation schema = .ok m) :
    m = (db.sysMeta.commitSequence, db.sysMeta.logicalTime) ∧ 0 ≤ db.sysMeta.logicalTime := by
  unfold runtimeMetadata at h
  rw [reject_bind_eq_ok] at h
  obtain ⟨hchecks, h⟩ := h
  simp only [Bool.or_eq_false_iff, decide_eq_false_iff_not, not_lt] at hchecks
  exact ⟨(ok.inj h).symm, hchecks.1.2⟩

end CellDb

end Cellule
