import Cellule.Control.Record
import Cellule.NodeLog.Gate

/-!
# Node bundles

What a node bundle records of the Cells whose captures it carries (`node/bundle/mod.rs`). A binding
is one Cell writer under its pin: the pinned control record, whose root is the base of the binding,
the captures selected since as locators, and the endpoint they reach. A catalog has the bindings of
one lane. A coverage proof is a binding as a selection left it.
-/

namespace Cellule

open Except

/-- `MAX_BUNDLE_BYTES` (`node/bundle/mod.rs:69`). -/
def maxBundleBytes : Nat := 4 * 1024 * 1024

/-- `MAX_BINDINGS`. -/
def maxBindings : Nat := 4096

/-- `MAX_LOCATORS`. -/
def maxLocators : Nat := 256

/-- `MAX_FRAMES`. -/
def maxBundleFrames : Nat := 64

/-- `MAX_SUFFIX_BYTES`. -/
def maxSuffixBytes : Nat := maxBundleBytes

/-- `NodeBundleHead` (`node/bundle/mod.rs:81`). -/
structure NodeBundleHead where
  epoch : Nat
  digest : Digest
  selectedThrough : Nat
  deriving DecidableEq

/-- `BindingPhase` (`node/bundle/mod.rs:108`). -/
inductive BindingPhase where
  | provisional
  | opened
  | closing
  | closed
  deriving DecidableEq

/-- Where the frame of a capture stands: in an object, or, without `object`, in the one that is
being written (`Locator`, `node/bundle/mod.rs:116`). -/
structure Locator where
  object : Option Digest
  offset : UInt64
  bytes : UInt64
  frameDigest : Digest
  deriving DecidableEq

/-- `Binding` (`node/bundle/mod.rs:126`). A terminal is a node sequence, a commit and a position. -/
structure Binding where
  application : ApplicationId
  firstCommit : Nat
  control : Control
  phase : BindingPhase
  terminal : Option (Nat × Nat × Position)
  selectedSequence : Nat
  selectedCommit : Nat
  selectedPosition : Position
  locators : List Locator
  deriving DecidableEq

/-- The rows of a catalog that were loaded (`Catalog`, `node/bundle/mod.rs:139`). -/
structure Catalog where
  session : SessionId
  epoch : Nat
  predecessor : Option Digest
  selectedThrough : Nat
  bindings : List Binding
  deriving DecidableEq

/-- What a live selection keeps of its process: the identities of its lease and origin
(`LiveBundleCoverage`, `node/bundle/selection.rs:8`). -/
structure LiveBundleCoverage where
  node : NodeId
  lease : Nat
  limits : Limits
  originIdentity : Nat
  originPath : List Char
  assignments : List AssignedCommitRange
  deriving DecidableEq

/-- `BundleCoverageProof` (`node/bundle/mod.rs:245`). -/
structure BundleCoverageProof where
  pin : BundleBindingRef
  binding : Binding
  head : NodeBundleHead
  session : SessionId
  live : Option LiveBundleCoverage
  deriving DecidableEq

/-- `RootRef::to_ltx` (`control/mod.rs`). -/
def RootRef.toLtx (root : RootRef) (cell : CellId) (incarnation : IncarnationId) : CellRootRef where
  cell := cell
  incarnation := incarnation
  digest := root.digest
  position := ⟨root.txid, root.checksum⟩
  commitSequence := root.commitSequence

/-- `Control::ltx_root` (`control/mod.rs:305`). -/
def Control.ltxRoot (c : Control) : Option CellRootRef :=
  c.root.map fun root => root.toLtx c.cell c.incarnation

namespace BundleCoverageProof

variable (p : BundleCoverageProof)

/-- `BundleCoverageProof::base` (`node/bundle/mod.rs:311`). -/
def base : Result CellRootRef :=
  match p.binding.control.ltxRoot with
  | some root => .ok root
  | none => .error (.node "bundle binding has no base")

/-- `BundleCoverageProof::commit_sequence`. -/
def commitSequence : Nat := p.binding.selectedCommit

/-- `BundleCoverageProof::position`. -/
def position : Position := p.binding.selectedPosition

end BundleCoverageProof

end Cellule
