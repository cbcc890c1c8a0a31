import Cellule.Lib.Bytes

/-!
# Identities and errors

The fixed-width identities of `identity.rs` and the errors that the modelled functions return. An
identity carries its width, so that none of a wrong length can be built.
-/

namespace Cellule

/-- An opaque identity of `n` bytes. Reference: the macro `fixed_id!` (`identity.rs:6`). -/
def FixedId (n : Nat) : Type := { bytes : Bytes // bytes.length = n }

instance (n : Nat) : DecidableEq (FixedId n) := inferInstanceAs (DecidableEq (Subtype _))

instance (n : Nat) : Inhabited (FixedId n) := ⟨⟨List.replicate n 0, List.length_replicate⟩⟩

instance (n : Nat) : Countable (FixedId n) := inferInstanceAs (Countable (Subtype _))

namespace FixedId

variable {n : Nat}

/-- The raw identity bytes. -/
def asBytes (id : FixedId n) : Bytes := id.1

/-- `as_bytes().iter().all(|byte| *byte == 0)`, the form every identity check takes. -/
def isZero (id : FixedId n) : Bool := id.asBytes.all (· == 0)

/-- The identity that repeats one byte. -/
def fill (n : Nat) (b : UInt8) : FixedId n := ⟨List.replicate n b, List.length_replicate⟩

@[simp] theorem length_asBytes (id : FixedId n) : id.asBytes.length = n := id.2

end FixedId

abbrev ApplicationId := FixedId 16
abbrev NodeId := FixedId 16
abbrev SessionId := FixedId 16
abbrev RequestId := FixedId 16
abbrev IncarnationId := FixedId 16
abbrev Digest := FixedId 32
abbrev CellId := FixedId 32

/-- A hash of bytes: BLAKE3 in the source, and any function in the laws. -/
abbrev Hash := Bytes → Digest

/-- The resources whose bounds the modelled functions of `cellule-ltx` check (`LimitKind`,
`cellule-ltx/src/error.rs:15`). -/
inductive LimitKind where
  | bundleEntries
  | bundleBytes
  | bundleFooter
  | cellRootBytes
  | cellRootSegments
  | ltxBytes
  | ltxFileBytes
  | ltxPageIndexBytes
  | localDiskBytes
  | databaseBytes
  | nodeFrameBytes
  | nodeFrameBody
  deriving DecidableEq

/-- The error variants of `cellule-ltx` that the modelled functions return (`LtxError`,
`cellule-ltx/src/error.rs:188`). -/
inductive LtxError where
  | checksumMismatch
  | ltxCorrupted
  | txNotAvailable
  | io
  | other
  | json
  | limit (kind : LimitKind)
  | invalidState (reason : String)
  deriving DecidableEq

/-- `Result` (`cellule-ltx/src/error.rs:7`). -/
abbrev LtxResult := Except LtxError

/-- The error variants of the runtime that the modelled functions return (`Error`, `error.rs`). -/
inductive Error where
  | control (reason : String)
  | node (reason : String)
  | capacity (reason : String)
  | peerAuthorization (reason : String)
  | cellAlreadyActive
  | ownerHistoryIncomplete (cell : CellId) (incarnation : IncarnationId) (epoch : Nat)
  | fenced
  | pendingPublication
  | storage
  | ltx (error : LtxError)
  | identity (reason : String)
  | registry (reason : String)
  | catalog (reason : String)
  | command (reason : String)
  | catalogCollision
  | catalogFull
  | json
  | sqlite
  | deadline
  | requestConflict
  | effectExpired
  | codec
  deriving DecidableEq

/-- `Result` (`error.rs:2`). -/
abbrev Result := Except Error

/-- The largest `u32`. -/
def u32Max : Nat := 2 ^ 32 - 1

/-- The largest `u64`. -/
def u64Max : Nat := 2 ^ 64 - 1

/-- The largest `i64`. -/
def i64Max : Nat := 2 ^ 63 - 1

/-- `u64::checked_add`. -/
def checkedAdd (a b : Nat) : Option Nat := if a + b ≤ u64Max then some (a + b) else none

/-- `u64::checked_mul`. -/
def checkedMul (a b : Nat) : Option Nat := if a * b ≤ u64Max then some (a * b) else none

/-- `u64::saturating_add`. -/
def saturatingAdd (a b : Nat) : Nat := min (a + b) u64Max

/-- `i64::checked_add`. -/
def checkedAddInt (a b : Int) : Option Int :=
  if -(i64Max : Int) - 1 ≤ a + b ∧ a + b ≤ i64Max then some (a + b) else none

/-- `i64::saturating_add`. -/
def saturatingAddInt (a b : Int) : Int := max (-(i64Max : Int) - 1) (min (a + b) i64Max)

/-- `i64::saturating_sub`. -/
def saturatingSubInt (a b : Int) : Int := max (-(i64Max : Int) - 1) (min (a - b) i64Max)

/-- A checked addition that succeeded is the sum. -/
theorem checkedAdd_eq_some : checkedAdd a b = some c ↔ a + b ≤ u64Max ∧ c = a + b := by
  unfold checkedAdd
  split
  · next h => simp [h, eq_comm]
  · next h => simp [h]

end Cellule
