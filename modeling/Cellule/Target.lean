import Cellule.Cell.Tables

/-!
# Where Cells are

A target names a Cell by its tenant, application, namespace and partition; the identity of the Cell
is a hash of them. A primitive on many shards finds its partition by a hash of a scope.
-/

namespace Cellule

open Except

abbrev TenantId := FixedId 16
abbrev NamespaceId := FixedId 16

/-- The bytes of a domain or a name, which is ASCII. -/
def octets (text : String) : Bytes := text.toList.map fun c => UInt8.ofNat c.toNat

/-- A resolved location (`CellTarget`, `identity.rs:60`). -/
structure CellTarget where
  tenant : TenantId
  application : ApplicationId
  namespaceId : NamespaceId
  partition : Bytes
  bounded : partition.length ≤ 1024
  deriving DecidableEq

/-- `CellTarget::new` (`identity.rs:69`). -/
def CellTarget.new (tenant : TenantId) (application : ApplicationId) (namespaceId : NamespaceId)
    (partition : Bytes) : Result CellTarget :=
  if h : partition.length ≤ 1024 then .ok ⟨tenant, application, namespaceId, partition, h⟩
  else .error (.identity "partition exceeds 1024 bytes")

/-- The Cell of the samples. -/
def sampleTarget : CellTarget := ⟨.fill 16 1, .fill 16 2, .fill 16 3, [], by decide⟩

/-- `CellTarget::cell_id` (`identity.rs:89`). -/
def CellTarget.cellId (hash : Hash) (target : CellTarget) : CellId :=
  hash (octets "crab.cell.v1\x00" ++ target.tenant.asBytes ++ target.application.asBytes
    ++ target.namespaceId.asBytes ++ Bytes.be 4 target.partition.length ++ target.partition)

/-- The shard counts that the source accepts: powers of two up to 4096. -/
def validShardCount (count : Nat) : Bool :=
  decide (1 ≤ count) && decide (count ≤ 4096) && decide (2 ^ Nat.log2 count = count)

/-- `shard_for_scope` (`identity.rs:126`). -/
def shardForScope (hash : Hash) (namespaceId : NamespaceId) (scope : Bytes)
    (shardCount : Nat) : Result Nat := do
  reject (decide (scope.length > 1024)) (.identity "scope exceeds 1024 bytes")
  reject (!validShardCount shardCount) (.identity "shard count must be a power of two in 1..=4096")
  let digest := hash (octets "crab.shard.v1\x00" ++ namespaceId.asBytes
    ++ Bytes.be 4 scope.length ++ scope)
  return Bytes.ofBe (digest.asBytes.take 8) % shardCount

/-- `partition_for_shard` (`identity.rs:149`). -/
def partitionForShard (shard : Nat) : Bytes := Bytes.be 4 shard

end Cellule
