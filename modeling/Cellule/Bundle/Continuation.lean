import Cellule.Bundle.Record
import Cellule.Lib.HashChain
import Cellule.NodeLog.Coverage
import Cellule.Target

/-!
# Checkpointed prefixes of a binding

When a root that covers captures of a binding is published, these captures are dropped from the
binding and the root becomes its base. Proofs that were selected before still start at an older
base. `MaterializedBundlePrefix` (`node/bundle/continuation.rs`) tells which of their captures the
root covers: for each earlier base, how many captures lie between, and their running hash.
`materializedPrefix` makes one from a proof and the one before it, and `continuesSelectedPrefix`
checks with it that a proof goes on where another one stood.

The trail of checkpoints has the captures that each of them added. The recorded aliases are those of
the trail (`Checkpoints.stands`) if the hash has no collision among the lists of captures in use.
-/

namespace Cellule

open Except List Option BundleCoverageProof

/-- A prefix that was materialized, seen from an earlier base (`PrefixAlias`,
`node/bundle/continuation.rs:4`). -/
structure PrefixAlias where
  base : CellRootRef
  locators : Nat
  digest : Digest
  deriving DecidableEq

/-- `MaterializedBundlePrefix` (`node/bundle/continuation.rs:12`). -/
structure MaterializedBundlePrefix where
  root : CellRootRef
  pin : BundleBindingRef
  aliases : List PrefixAlias
  deriving DecidableEq

/-- What is hashed for a locator whose object is known. -/
def Locator.chained (locator : Locator) (digest object : Digest) : Bytes :=
  digest.asBytes ++ object.asBytes ++ Bytes.le 8 locator.offset.toNat
    ++ Bytes.le 8 locator.bytes.toNat ++ locator.frameDigest.asBytes

/-- `extend_digest` (`node/bundle/continuation.rs:28`). -/
def extendDigest (hash : Hash) : Digest → List Locator → Result Digest
  | digest, [] => .ok digest
  | digest, locator :: locators =>
    match locator.object with
    | none => .error (.control "checkpoint locator is unresolved")
    | some object => extendDigest hash (hash (locator.chained digest object)) locators

/-- The text that running hashes start from. -/
def prefixSeed : Bytes := octets "cellule.confirmed-bundle-prefix.v1"

/-- `locator_prefix_digest` (`node/bundle/continuation.rs:46`). -/
def locatorPrefixDigest (hash : Hash) (locators : List Locator) : Result Digest :=
  extendDigest hash (hash prefixSeed) locators

/-- The locators after the prefix that is recorded for a base, if they begin with that prefix. The
two callers differ in the texts of their errors. -/
def afterPrefix (hash : Hash) (aliases : List PrefixAlias) (base : CellRootRef)
    (locators : List Locator) (lacks omits changes : String) : Result (List Locator) :=
  match aliases.find? (·.base == base) with
  | none => .error (.control lacks)
  | some found => do
    reject (decide (locators.length < found.locators)) (.control omits)
    let digest ← locatorPrefixDigest hash (locators.take found.locators)
    reject (digest != found.digest) (.control changes)
    return locators.drop found.locators

/-- The aliases of a root for the next one, without those that no proof can still contain. -/
def extendAliases (hash : Hash) (delta : List Locator) :
    List PrefixAlias → Result (List PrefixAlias)
  | [] => .ok []
  | found :: rest => do
    let count ← GateState.add found.locators delta.length
      (.control "checkpoint prefix count overflow")
    if count ≤ maxLocators then
      let digest ← extendDigest hash found.digest delta
      let more ← extendAliases hash delta rest
      return ⟨found.base, count, digest⟩ :: more
    else
      extendAliases hash delta rest

namespace BundleCoverageProof

variable (hash : Hash) (p : BundleCoverageProof)

/-- The locators of a proof that the root before does not cover. -/
def delta (base : CellRootRef) (previous : MaterializedBundlePrefix) : Result (List Locator) :=
  if base = previous.root then .ok p.binding.locators
  else afterPrefix hash previous.aliases base p.binding.locators
    "checkpoint lacks original base witness" "checkpoint omits confirmed prefix"
    "checkpoint changes confirmed prefix"

/-- The part of `materialized_prefix` after another root. -/
def advancePrefix (base root : CellRootRef) (previous : MaterializedBundlePrefix) :
    Result MaterializedBundlePrefix := do
  reject (previous.pin != p.pin
    || decide (root.commitSequence ≤ previous.root.commitSequence)
    || decide (root.position.txid ≤ previous.root.position.txid))
    (.control "checkpoint does not advance original writer")
  let delta ← p.delta hash base previous
  reject delta.isEmpty (.control "checkpoint lacks native advancement")
  let aliases ← extendAliases hash delta previous.aliases
  reject (decide (aliases.length ≥ maxLocators)) (.control "checkpoint alias bound exceeded")
  let digest ← locatorPrefixDigest hash delta
  return ⟨root, p.pin, aliases ++ [⟨previous.root, delta.length, digest⟩]⟩

/-- `BundleCoverageProof::materialized_prefix` (`node/bundle/continuation.rs:54`). -/
def materializedPrefix (root : CellRootRef) (previous : Option MaterializedBundlePrefix) :
    Result MaterializedBundlePrefix := do
  let base ← p.base
  reject (root.cell != p.binding.control.cell
    || root.incarnation != p.binding.control.incarnation
    || root.commitSequence != p.commitSequence
    || root.position != p.position
    || decide (root.commitSequence ≤ base.commitSequence)
    || p.binding.locators.isEmpty
    || decide (p.binding.locators.length > maxLocators))
    (.control "materialized root differs from selected prefix")
  match previous with
  | none => do
    let digest ← locatorPrefixDigest hash p.binding.locators
    return ⟨root, p.pin, [⟨base, p.binding.locators.length, digest⟩]⟩
  | some previous => p.advancePrefix hash base root previous

/-- The locators of a proof that another one with this base must begin with. -/
def remaining (base previousBase : CellRootRef) (checkpoint : Option MaterializedBundlePrefix) :
    Result (List Locator) :=
  if base = previousBase then .ok p.binding.locators
  else
    match checkpoint with
    | none => .error (.control "selected bundle changes an unconfirmed base")
    | some checkpoint => do
      reject (checkpoint.root != base
        || checkpoint.pin != p.pin
        || decide (checkpoint.root.commitSequence > p.commitSequence)
        || decide (checkpoint.root.position.txid > p.position.txid))
        (.control "selected bundle changes the checkpoint")
      afterPrefix hash checkpoint.aliases previousBase p.binding.locators
        "selected bundle lacks original base witness" "selected bundle omits materialized locators"
        "selected bundle changes materialized locators"

/-- `BundleCoverageProof::continues_selected_prefix` (`node/bundle/continuation.rs:144`). -/
def continuesSelectedPrefix (previous : BundleCoverageProof)
    (checkpoint : Option MaterializedBundlePrefix) : Result Unit := do
  reject (p.pin != previous.pin
    || p.session != previous.session
    || p.head.epoch != previous.head.epoch
    || p.binding.application != previous.binding.application
    || p.binding.control.cell != previous.binding.control.cell
    || p.binding.control.incarnation != previous.binding.control.incarnation
    || p.binding.control.epoch != previous.binding.control.epoch
    || p.binding.control.code != previous.binding.control.code
    || p.binding.control.schema != previous.binding.control.schema
    || decide (p.binding.selectedCommit < previous.binding.selectedCommit))
    (.control "selected bundle does not continue root debt")
  let base ← p.base
  let previousBase ← previous.base
  let remaining ← previous.remaining hash base previousBase checkpoint
  reject (!remaining.isPrefixOf p.binding.locators)
    (.control "selected bundle does not continue root debt")

end BundleCoverageProof

/-! ## The running hash -/

/-- What is hashed for a locator, as the running hash takes it in. -/
def Locator.input (digest : Digest) (locator : Locator) : Bytes :=
  locator.chained digest (locator.object.getD default)

/-- The running hash of locators that are all resolved. -/
def chainDigest (hash : Hash) (locators : List Locator) : Digest :=
  HashChain.extend hash Locator.input (hash prefixSeed) locators

theorem chainDigest_append (hash : Hash) (xs ys : List Locator) :
    chainDigest hash (xs ++ ys) = HashChain.extend hash Locator.input (chainDigest hash xs) ys :=
  HashChain.extend_append _ _ _ _ _

theorem extendDigest_eq_ok {hash : Hash} : extendDigest hash digest locators = .ok digest' ↔
      (∀ l ∈ locators, l.object.isSome) ∧ digest' = HashChain.extend hash Locator.input
        digest locators := by
  induction locators generalizing digest with
  | nil =>
    refine ⟨fun h => ⟨nofun, (ok.inj h).symm⟩, fun h => ?_⟩
    rw [h.2]
    rfl
  | cons l rest ih =>
    unfold extendDigest
    cases hobject : l.object with
    | none => simp [hobject]
    | some object =>
      have hinput : l.input digest = l.chained digest object := by
        unfold Locator.input
        rw [hobject]
        rfl
      simp only [ih, HashChain.extend_cons, hinput, forall_mem_cons, hobject, isSome_some, true_and]

theorem locatorPrefixDigest_eq_ok {hash : Hash} : locatorPrefixDigest hash locators = .ok digest ↔
      (∀ l ∈ locators, l.object.isSome) ∧ digest = chainDigest hash locators :=
  extendDigest_eq_ok

/-- The bytes hashed for a resolved locator determine it and the digest before it. -/
theorem Locator.input_injective {l l' : Locator} (hl : l.object.isSome)
    (hl' : l'.object.isSome) (h : l.input d = l'.input d') : d = d' ∧ l = l' := by
  obtain ⟨object, offset, bytes, frame⟩ := l
  obtain ⟨object', offset', bytes', frame'⟩ := l'
  obtain ⟨object, rfl⟩ := isSome_iff_exists.1 hl
  obtain ⟨object', rfl⟩ := isSome_iff_exists.1 hl'
  have hword : ∀ {a b : UInt64}, Bytes.le 8 a.toNat = Bytes.le 8 b.toNat → a = b := by
    intro a b hab
    have hsame := congrArg Bytes.ofLe hab
    rw [Bytes.ofLe_le a.toNat_lt, Bytes.ofLe_le b.toNat_lt] at hsame
    exact UInt64.toNat_inj.1 hsame
  unfold Locator.input Locator.chained at h
  simp only [getD_some] at h
  obtain ⟨h, hframe⟩ := append_inj' h (by simp)
  obtain ⟨h, hbytes⟩ := append_inj' h (by simp)
  obtain ⟨h, hoffset⟩ := append_inj' h (by simp)
  obtain ⟨hdigest, hobject⟩ := append_inj' h (by simp)
  rw [Subtype.ext hdigest, Subtype.ext hobject, Subtype.ext hframe, hword hbytes, hword hoffset]
  exact ⟨rfl, rfl⟩

/-- The seed is no input of a locator. -/
theorem Locator.input_ne_seed (d : Digest) (l : Locator) : l.input d ≠ prefixSeed := by
  intro h
  have hlength := congrArg List.length h
  have hseed : prefixSeed.length = 34 := by decide
  unfold Locator.input Locator.chained at hlength
  simp only [length_append, FixedId.length_asBytes, hseed] at hlength
  omega

/-! ## Trails -/

/-- The captures that each of a sequence of checkpoints added, with the root before it. -/
abbrev CaptureTrail := List (CellRootRef × List Locator)

namespace CaptureTrail

/-- All captures of a trail. -/
def captures (trail : CaptureTrail) : List Locator := trail.flatMap (·.2)

/-- The captures of a trail from a base on. -/
def capturesFrom (base : CellRootRef) : CaptureTrail → Option (List Locator)
  | [] => none
  | (start, delta) :: rest =>
    if start = base then some (delta ++ captures rest) else capturesFrom base rest

/-- The aliases of a trail: one for each base from which on the captures are few enough. -/
def aliases (hash : Hash) : CaptureTrail → List PrefixAlias
  | [] => []
  | (start, delta) :: rest =>
    if (delta ++ captures rest).length ≤ maxLocators then
      ⟨start, (delta ++ captures rest).length, chainDigest hash (delta ++ captures rest)⟩
        :: aliases hash rest
    else aliases hash rest

theorem captures_append (trail more : CaptureTrail) :
    captures (trail ++ more) = captures trail ++ captures more := flatMap_append

variable {base : CellRootRef} {trail : CaptureTrail} {hash : Hash}

theorem capturesFrom_suffix (h : capturesFrom base trail = some found) :
    found <:+ captures trail := by
  induction trail with
  | nil => cases h
  | cons step rest ih =>
    unfold capturesFrom at h
    split at h
    · rw [← some.inj h]
      exact suffix_refl _
    · exact (ih h).trans (suffix_append _ _)

theorem capturesFrom_append (h : capturesFrom base trail = some found) :
    capturesFrom base (trail ++ more) = some (found ++ captures more) := by
  induction trail with
  | nil => cases h
  | cons step rest ih =>
    unfold capturesFrom at h
    rw [cons_append]
    unfold capturesFrom
    split at h
    · next hstart =>
      rw [if_pos hstart, captures_append, ← append_assoc, some.inj h]
    · next hstart => rw [if_neg hstart, ih h]

theorem capturesFrom_of_not_mem (h : base ∉ trail.map (·.1)) :
    capturesFrom base (trail ++ more) = capturesFrom base more := by
  induction trail with
  | nil => rfl
  | cons step rest ih =>
    rw [map_cons, mem_cons, not_or] at h
    refine (if_neg fun hstart => ?_).trans (ih h.2)
    exact h.1 hstart.symm

/-- What an alias of a trail says. -/
theorem mem_aliases (hbases : (trail.map (·.1)).Nodup) (h : found ∈ aliases hash trail) :
    ∃ locators, capturesFrom found.base trail = some locators ∧
      found.locators = locators.length ∧ found.digest = chainDigest hash locators := by
  induction trail with
  | nil => cases h
  | cons step rest ih =>
    rw [map_cons, nodup_cons] at hbases
    have hrest : ∀ h : found ∈ aliases hash rest,
        ∃ locators, capturesFrom found.base (step :: rest) = some locators ∧
          found.locators = locators.length ∧ found.digest = chainDigest hash locators := by
      intro h
      obtain ⟨locators, hfrom, hparts⟩ := ih hbases.2 h
      refine ⟨locators, ?_, hparts⟩
      have hmem : found.base ∈ rest.map (·.1) := by
        by_contra hnot
        rw [← append_nil rest, capturesFrom_of_not_mem hnot] at hfrom
        cases hfrom
      refine (if_neg fun hstart => ?_).trans hfrom
      exact hbases.1 (hstart ▸ hmem)
    unfold aliases at h
    split at h
    · rcases mem_cons.1 h with rfl | h
      · exact ⟨_, if_pos rfl, rfl, rfl⟩
      · exact hrest h
    · exact hrest h

/-- There are no more aliases than captures, as every checkpoint adds one, and no more than a proof
can contain. -/
theorem length_aliases_le (hadvance : ∀ step ∈ trail, step.2 ≠ []) :
    (aliases hash trail).length ≤ maxLocators ∧ (aliases hash trail).length
      ≤ (captures trail).length := by
  induction trail with
  | nil => exact ⟨Nat.zero_le _, Nat.zero_le _⟩
  | cons step rest ih =>
    obtain ⟨hstep, hrest⟩ := forall_mem_cons.1 hadvance
    obtain ⟨hbound, hcaptures⟩ := ih hrest
    have hpos := length_pos_iff.2 hstep
    have hlength : (captures (step :: rest)).length = (step.2 ++ captures rest).length := rfl
    unfold aliases
    rw [hlength]
    split
    · next hfits =>
      rw [length_append] at hfits ⊢
      rw [length_cons]
      omega
    · rw [length_append]
      omega

/-- The aliases of a trail with one more checkpoint. -/
theorem aliases_concat {root : CellRootRef} {delta : List Locator}
    (hbound : delta.length ≤ maxLocators)
    (h : extendAliases hash delta (aliases hash trail) = .ok extended) :
    aliases hash (trail ++ [(root, delta)])
      = extended ++ [⟨root, delta.length, chainDigest hash delta⟩] := by
  induction trail generalizing extended with
  | nil =>
    obtain rfl := ok.inj h
    have hall : delta ++ captures [] = delta := append_nil _
    show (if (delta ++ captures []).length ≤ maxLocators then _ else _) = _
    rw [hall, if_pos hbound]
    rfl
  | cons step rest ih =>
    have hall : step.2 ++ captures (rest ++ [(root, delta)]) = step.2
      ++ captures rest ++ delta := by
      rw [captures_append, append_assoc]
      show step.2 ++ (captures rest ++ (delta ++ [])) = _
      rw [append_nil]
    have hcount : (step.2 ++ captures (rest ++ [(root, delta)])).length
        = (step.2 ++ captures rest).length + delta.length := by
      rw [hall, length_append]
    rw [cons_append]
    unfold aliases at h ⊢
    split at h
    · -- the alias of the first base is extended, and kept when it still fits
      unfold extendAliases at h
      rw [GateState.add_bind_eq_ok] at h
      obtain ⟨-, h⟩ := h
      split at h
      · next hfits =>
        obtain ⟨digest, hdigest, h⟩ := bind_eq_ok.1 h
        obtain ⟨more, hmore, h⟩ := bind_eq_ok.1 h
        obtain rfl := ok.inj h
        rw [if_pos (hcount ▸ hfits), ih hmore, hcount, hall, (extendDigest_eq_ok.1 hdigest).2,
          ← chainDigest_append, cons_append]
      · next hfits => rw [if_neg (hcount ▸ hfits), ih h]
    · next hfits =>
      rw [if_neg, ih h]
      rw [hcount]
      omega

end CaptureTrail

open CaptureTrail

/-! ## Sequences of checkpoints -/

/-- A checkpoint made by `materializedPrefix` from the proofs in order, the first of them without a
checkpoint before it, with its trail. -/
inductive Checkpoints (hash : Hash) :
    List BundleCoverageProof → CaptureTrail → MaterializedBundlePrefix → Prop
  | first {p : BundleCoverageProof} {base root : CellRootRef} {c : MaterializedBundlePrefix}
      (base_eq : p.base = .ok base) (made : p.materializedPrefix hash root none = .ok c) :
      Checkpoints hash [p] [(base, p.binding.locators)] c
  | next {proofs : List BundleCoverageProof} {trail : CaptureTrail}
    {c c' : MaterializedBundlePrefix}
      {p : BundleCoverageProof} {base root : CellRootRef} {delta : List Locator}
      (before : Checkpoints hash proofs trail c) (base_eq : p.base = .ok base)
      (delta_eq : p.delta hash base c = .ok delta)
      (made : p.materializedPrefix hash root (some c) = .ok c') :
      Checkpoints hash (proofs ++ [p]) (trail ++ [(c.root, delta)]) c'

/-- How a checkpoint stands for its trail. -/
structure MaterializedBundlePrefix.Stands (hash : Hash) (trail : CaptureTrail)
    (c : MaterializedBundlePrefix) : Prop where
  aliases : c.aliases = trail.aliases hash
  resolved : ∀ l ∈ trail.captures, l.object.isSome
  advance : ∀ step ∈ trail, step.2 ≠ []
  ordered : trail.Pairwise fun a b => a.1.commitSequence < b.1.commitSequence
  below : ∀ step ∈ trail, step.1.commitSequence < c.root.commitSequence

section
variable {hash : Hash} {p : BundleCoverageProof} {base root : CellRootRef}
  {trail : CaptureTrail} {c c' : MaterializedBundlePrefix}

variable {aliases : List PrefixAlias} {locators delta : List Locator} {lacks omits changes : String}
  {proofs : List BundleCoverageProof} {e : Error}

theorem afterPrefix_eq_ok
    (h : afterPrefix hash aliases base locators lacks omits changes = .ok rest) :
    ∃ found ∈ aliases, found.base = base ∧
      locatorPrefixDigest hash (locators.take found.locators) = .ok found.digest ∧
      rest = locators.drop found.locators := by
  unfold afterPrefix at h
  split at h
  · cases h
  · next found hfound =>
    obtain ⟨-, h⟩ := reject_bind_eq_ok.1 h
    obtain ⟨digest, hdigest, h⟩ := bind_eq_ok.1 h
    obtain ⟨hsame, h⟩ := reject_bind_eq_ok.1 h
    rw [bne_eq_false_iff_eq] at hsame
    have hbase := find?_some hfound
    rw [beq_iff_eq] at hbase
    exact ⟨found, mem_of_find?_eq_some hfound, hbase, hsame ▸ hdigest, (ok.inj h).symm⟩

/-- What the captures after a root are. -/
theorem BundleCoverageProof.delta_suffix (h : p.delta hash base c = .ok delta) :
    delta <:+ p.binding.locators := by
  unfold BundleCoverageProof.delta at h
  split at h
  · rw [← ok.inj h]
  · obtain ⟨found, -, -, -, rfl⟩ := afterPrefix_eq_ok h
    exact drop_suffix _ _

/-- A proof that a checkpoint was made from. -/
structure BundleCoverageProof.Reaches (p : BundleCoverageProof)
    (base root : CellRootRef) : Prop where
  base_eq : p.base = .ok base
  after : base.commitSequence < root.commitSequence
  some : p.binding.locators ≠ []
  bound : p.binding.locators.length ≤ maxLocators

/-- A checkpoint is made from a proof that reaches its root. -/
theorem BundleCoverageProof.materializedPrefix_eq_ok {previous : Option MaterializedBundlePrefix}
    (h : p.materializedPrefix hash root previous = .ok c) : ∃ base, p.Reaches base root ∧
      match previous with
      | none => c = ⟨root, p.pin, [⟨base, p.binding.locators.length,
          chainDigest hash p.binding.locators⟩]⟩ ∧ ∀ l ∈ p.binding.locators, l.object.isSome
      | some previous => p.advancePrefix hash base root previous = .ok c := by
  obtain ⟨base, hbase, h⟩ := bind_eq_ok.1 h
  obtain ⟨hchecked, h⟩ := reject_bind_eq_ok.1 h
  simp only [Bool.or_eq_false_iff, decide_eq_false_iff_not, not_le, not_lt,
    isEmpty_eq_false_iff] at hchecked
  refine ⟨base, ⟨hbase, hchecked.1.1.2, hchecked.1.2, hchecked.2⟩, ?_⟩
  cases previous with
  | none =>
    obtain ⟨digest, hdigest, h⟩ := bind_eq_ok.1 h
    obtain ⟨hresolved, rfl⟩ := locatorPrefixDigest_eq_ok.1 hdigest
    exact ⟨(ok.inj h).symm, hresolved⟩
  | some previous => exact h

/-- What a checkpoint after another one is. -/
theorem BundleCoverageProof.advancePrefix_eq_ok (h : p.advancePrefix hash base root c = .ok c') :
    c.root.commitSequence < root.commitSequence ∧ ∃ delta aliases, p.delta hash base c = .ok delta ∧
      delta ≠ [] ∧ extendAliases hash delta c.aliases = .ok aliases ∧
      (∀ l ∈ delta, l.object.isSome) ∧
      c' = ⟨root, p.pin, aliases ++ [⟨c.root, delta.length, chainDigest hash delta⟩]⟩ := by
  obtain ⟨hforward, h⟩ := reject_bind_eq_ok.1 h
  obtain ⟨delta, hdelta, h⟩ := bind_eq_ok.1 h
  obtain ⟨hsome, h⟩ := reject_bind_eq_ok.1 h
  obtain ⟨aliases, haliases, h⟩ := bind_eq_ok.1 h
  obtain ⟨-, h⟩ := reject_bind_eq_ok.1 h
  obtain ⟨digest, hdigest, h⟩ := bind_eq_ok.1 h
  obtain ⟨hresolved, rfl⟩ := locatorPrefixDigest_eq_ok.1 hdigest
  simp only [Bool.or_eq_false_iff, decide_eq_false_iff_not, not_le] at hforward
  exact ⟨hforward.1.2, delta, aliases, hdelta, isEmpty_eq_false_iff.1 hsome, haliases, hresolved,
    (ok.inj h).symm⟩

namespace MaterializedBundlePrefix.Stands

/-- The bases of a trail are different. -/
theorem nodup_bases (h : c.Stands hash trail) : (trail.map (·.1)).Nodup := by
  rw [List.Nodup, pairwise_map]
  exact h.ordered.imp fun hlt heq => absurd (heq ▸ hlt) (lt_irrefl _)

/-- The root of a checkpoint is no base of its trail. -/
theorem root_not_mem (h : c.Stands hash trail) : c.root ∉ trail.map (·.1) := by
  intro hmem
  obtain ⟨step, hstep, heq⟩ := mem_map.1 hmem
  exact absurd (heq ▸ h.below step hstep) (lt_irrefl _)

theorem first (h : p.materializedPrefix hash root none = .ok c) (hbase : p.base = .ok base) :
    c.Stands hash [(base, p.binding.locators)] := by
  obtain ⟨base', hreaches, rfl, hresolved⟩ := materializedPrefix_eq_ok h
  obtain rfl := ok.inj (hbase.symm.trans hreaches.base_eq)
  have hall : p.binding.locators ++ CaptureTrail.captures [] = p.binding.locators := append_nil _
  refine ⟨?_, ?_, forall_mem_singleton.2 hreaches.some, pairwise_singleton _ _,
    forall_mem_singleton.2 hreaches.after⟩
  · show _ = if (p.binding.locators ++ CaptureTrail.captures []).length ≤ maxLocators then _ else _
    rw [hall, if_pos hreaches.bound]
    rfl
  · intro l hl
    exact hresolved l (hall ▸ hl)

theorem next (hc : c.Stands hash trail)
    (h : p.materializedPrefix hash root (some c) = .ok c') (hbase : p.base = .ok base)
    (hdelta : p.delta hash base c = .ok delta) : c'.Stands hash (trail ++ [(c.root, delta)]) := by
  obtain ⟨base', hreaches, hadvanced⟩ := materializedPrefix_eq_ok h
  obtain rfl := ok.inj (hbase.symm.trans hreaches.base_eq)
  obtain ⟨hforward, delta', aliases, hdelta', hsome, haliases, hresolved, rfl⟩ :=
    advancePrefix_eq_ok hadvanced
  obtain rfl := ok.inj (hdelta.symm.trans hdelta')
  have hbound : delta.length ≤ maxLocators :=
    (delta_suffix hdelta).length_le.trans hreaches.bound
  rw [hc.aliases] at haliases
  refine ⟨(aliases_concat hbound haliases).symm, ?_, ?_, ?_, ?_⟩
  · have hall : CaptureTrail.captures [(c.root, delta)] = delta := append_nil _
    rw [captures_append, hall]
    exact forall_mem_append.2 ⟨hc.resolved, hresolved⟩
  · exact forall_mem_append.2 ⟨hc.advance, forall_mem_singleton.2 hsome⟩
  · exact pairwise_append.2 ⟨hc.ordered, pairwise_singleton _ _,
      fun a ha => forall_mem_singleton.2 (hc.below a ha)⟩
  · exact forall_mem_append.2 ⟨fun step hstep => (hc.below step hstep).trans hforward,
      forall_mem_singleton.2 hforward⟩

end MaterializedBundlePrefix.Stands

/-- Every checkpoint of a sequence stands for its trail. -/
theorem Checkpoints.stands (h : Checkpoints hash proofs trail c) : c.Stands hash trail := by
  induction h with
  | first hbase hmade => exact .first hmade hbase
  | next _ hbase hdelta hmade ih => exact ih.next hmade hbase hdelta

/-! ## What is kept -/

/-- The lists of captures in use: those of the proofs, and those of the trail from a capture on. -/
def capturesInUse (proofs : List BundleCoverageProof) (trail : CaptureTrail) :
    List (List Locator) :=
  proofs.map (·.binding.locators) ++ trail.captures.tails

/-- The hash has no collision among the inputs that these proofs and this trail give rise to. -/
abbrev NoCollision (hash : Hash) (proofs : List BundleCoverageProof)
    (trail : CaptureTrail) : Prop :=
  HashChain.Free hash (HashChain.inputs hash Locator.input prefixSeed (capturesInUse proofs trail))

/-- A prefix that has the hash recorded for its base is what the trail has from that base on. -/
theorem MaterializedBundlePrefix.Stands.afterPrefix (hc : c.Stands hash trail)
    (hfree : NoCollision hash proofs trail) (hp : p ∈ proofs) {rest : List Locator}
    (h : afterPrefix hash c.aliases base p.binding.locators lacks omits changes = .ok rest) :
    ∃ found ∈ c.aliases, ∃ dropped, found.base = base ∧
      locatorPrefixDigest hash dropped = .ok found.digest ∧
      trail.capturesFrom base = some dropped ∧ p.binding.locators = dropped ++ rest := by
  obtain ⟨found, hfound, rfl, hdigest, rfl⟩ := afterPrefix_eq_ok h
  obtain ⟨locators, hfrom, -, hrecorded⟩ :=
    mem_aliases hc.nodup_bases (hc.aliases ▸ hfound)
  obtain ⟨hresolved, hchain⟩ := locatorPrefixDigest_eq_ok.1 hdigest
  have hsuffix := capturesFrom_suffix hfrom
  have hproof : p.binding.locators.take found.locators ++ p.binding.locators.drop found.locators ∈
      capturesInUse proofs trail := by
    rw [take_append_drop]
    exact mem_append_left _ (mem_map_of_mem hp)
  have htrail : locators ++ [] ∈ capturesInUse proofs trail := by
    rw [append_nil]
    exact mem_append_right _ ((mem_tails _ _).2 hsuffix)
  have hsame : p.binding.locators.take found.locators = locators :=
    hfree.eq_of_extend_eq Locator.input_ne_seed
      (fun _ _ _ _ hx hx' => Locator.input_injective hx hx') hproof htrail hresolved
      (fun l hl => hc.resolved l (hsuffix.subset hl)) (hchain.symm.trans hrecorded)
  refine ⟨found, hfound, locators, rfl, hsame ▸ hdigest, hfrom, ?_⟩
  rw [← hsame, take_append_drop]

/-- An earlier trail gives rise to no other inputs. -/
theorem NoCollision.before (h : NoCollision hash proofs (trail ++ more)) :
    NoCollision hash proofs trail := by
  refine HashChain.Free.mono h fun xs hxs => ?_
  rcases mem_append.1 hxs with hxs | hxs
  · exact ⟨xs, mem_append_left _ hxs, prefix_refl _⟩
  · obtain ⟨front, hfront⟩ := (mem_tails _ _).1 hxs
    refine ⟨xs ++ more.captures, mem_append_right _ ((mem_tails _ _).2 ⟨front, ?_⟩),
      prefix_append _ _⟩
    rw [captures_append, ← hfront, append_assoc]

/-- The captures of the proof that a checkpoint was made from are those of the trail from the base
of the proof on. -/
theorem Checkpoints.captures_of_last
    (h : Checkpoints hash (proofs ++ [p]) trail c) (hfree : NoCollision hash used trail)
    (hp : p ∈ used) :
    ∃ base, p.base = .ok base ∧ trail.capturesFrom base = some p.binding.locators := by
  generalize hall : proofs ++ [p] = all at h
  cases h with
  | @first p' base root _ hbase hmade =>
    obtain ⟨-, rfl⟩ := append_singleton_inj.1 (hall.trans (nil_append _).symm)
    refine ⟨base, hbase, ?_⟩
    show (if base = base then some (p.binding.locators ++ []) else _) = _
    rw [if_pos rfl, append_nil]
  | @next proofs' trail' c' _ p' base root delta hbefore hbase hdelta hmade =>
    obtain ⟨rfl, rfl⟩ := append_singleton_inj.1 hall
    have hc := hbefore.stands
    refine ⟨base, hbase, ?_⟩
    unfold BundleCoverageProof.delta at hdelta
    split at hdelta
    · next hroot =>
      obtain rfl := ok.inj hdelta
      rw [hroot, capturesFrom_of_not_mem hc.root_not_mem]
      show (if c'.root = c'.root then some (p.binding.locators ++ []) else _) = _
      rw [if_pos rfl, append_nil]
    · obtain ⟨-, -, dropped, -, -, hfrom, hsplit⟩ := hc.afterPrefix hfree.before hp hdelta
      rw [capturesFrom_append hfrom, hsplit]
      show some (dropped ++ (delta ++ [])) = _
      rw [append_nil]

/-- A proof goes on where another one stood: it begins with the captures of the other one, but for
those that the checkpoint at whose root it starts covers. -/
def BundleCoverageProof.GoesOn (hash : Hash) (trail : CaptureTrail)
    (c : MaterializedBundlePrefix) (next previous : BundleCoverageProof) : Prop :=
  ∃ dropped rest, previous.binding.locators = dropped ++ rest ∧ rest <+: next.binding.locators ∧
    (next.base = previous.base ∧ dropped = [] ∨
      next.base = .ok c.root ∧ ∃ found ∈ c.aliases, previous.base = .ok found.base ∧
        locatorPrefixDigest hash dropped = .ok found.digest ∧
        trail.capturesFrom found.base = some dropped)

theorem MaterializedBundlePrefix.Stands.goesOn (hc : c.Stands hash trail)
    {next previous : BundleCoverageProof}
    (hfree : NoCollision hash used trail) (hprevious : previous ∈ used)
    (hcheckpoint : ∀ c', checkpoint = some c' → c' = c)
    (h : next.continuesSelectedPrefix hash previous checkpoint = .ok u) :
    next.GoesOn hash trail c previous := by
  obtain ⟨-, h⟩ := reject_bind_eq_ok.1 h
  obtain ⟨base, hbase, h⟩ := bind_eq_ok.1 h
  obtain ⟨previousBase, hpreviousBase, h⟩ := bind_eq_ok.1 h
  obtain ⟨remaining, hremaining, hprefix⟩ := bind_eq_ok.1 h
  rw [reject_eq_ok, Bool.not_eq_false', isPrefixOf_iff_prefix] at hprefix
  unfold BundleCoverageProof.remaining at hremaining
  split at hremaining
  · next hsame =>
    obtain rfl := ok.inj hremaining
    exact ⟨[], _, rfl, hprefix, .inl ⟨by rw [hbase, hpreviousBase, hsame], rfl⟩⟩
  cases checkpoint with
  | none => cases hremaining
  | some c' =>
    obtain rfl := hcheckpoint c' rfl
    obtain ⟨hroot, hremaining⟩ := reject_bind_eq_ok.1 hremaining
    simp only [Bool.or_eq_false_iff, bne_eq_false_iff_eq] at hroot
    obtain ⟨found, hfound, dropped, rfl, hdigest, hfrom, hsplit⟩ :=
      hc.afterPrefix hfree hprevious hremaining
    exact ⟨dropped, remaining, hsplit, hprefix,
      .inr ⟨by rw [hbase, hroot.1.1.1], found, hfound, hpreviousBase, hdigest, hfrom⟩⟩

theorem extendDigest_eq_error (h : extendDigest hash digest locators = .error e) :
    e = .control "checkpoint locator is unresolved" := by
  induction locators generalizing digest with
  | nil => cases h
  | cons l rest ih =>
    unfold extendDigest at h
    split at h
    · exact (error.inj h).symm
    · exact ih h

theorem extendAliases_eq_error (h : extendAliases hash delta aliases = .error e) :
    e = .control "checkpoint locator is unresolved" ∨
      e = .control "checkpoint prefix count overflow" := by
  induction aliases with
  | nil => cases h
  | cons found rest ih =>
    unfold extendAliases at h
    rcases bind_eq_error.1 h with h | ⟨count, -, h⟩
    · unfold GateState.add at h
      split at h
      · cases h
      · exact .inr (error.inj h).symm
    split at h
    · rcases bind_eq_error.1 h with h | ⟨digest, -, h⟩
      · exact .inl (extendDigest_eq_error h)
      rcases bind_eq_error.1 h with h | ⟨more, -, h⟩
      · exact ih h
      · cases h
    · exact ih h

theorem afterPrefix_eq_error
    (h : afterPrefix hash aliases base locators lacks omits changes = .error e) :
    e ∈ [.control lacks, .control omits, .control changes,
      .control "checkpoint locator is unresolved"] := by
  unfold afterPrefix at h
  split at h
  · rw [← error.inj h]
    exact mem_cons_self
  · rcases bind_eq_error.1 h with h | ⟨_, -, h⟩
    · rw [← (reject_eq_error.1 h).2]
      simp
    rcases bind_eq_error.1 h with h | ⟨digest, -, h⟩
    · rw [extendDigest_eq_error h]
      simp
    rcases bind_eq_error.1 h with h | ⟨_, -, h⟩
    · rw [← (reject_eq_error.1 h).2]
      simp
    · cases h

/-- The aliases that a checkpoint keeps leave room for one more. -/
theorem MaterializedBundlePrefix.Stands.length_lt (hc : c.Stands hash trail) (hsome : delta ≠ [])
    (hbound : delta.length ≤ maxLocators) (h : extendAliases hash delta c.aliases = .ok aliases) :
    aliases.length < maxLocators := by
  rw [hc.aliases] at h
  have hadvance : ∀ step ∈ trail ++ [(c.root, delta)], step.2 ≠ [] :=
    forall_mem_append.2 ⟨hc.advance, forall_mem_singleton.2 hsome⟩
  have hlength : (CaptureTrail.aliases hash (trail ++ [(c.root, delta)])).length ≤ maxLocators :=
    (length_aliases_le hadvance).1
  rw [aliases_concat hbound h, length_append] at hlength
  exact hlength

/-- The bound on aliases is not reached. -/
theorem MaterializedBundlePrefix.Stands.bound (hc : c.Stands hash trail) :
    p.materializedPrefix hash root (some c) ≠ .error
      (.control "checkpoint alias bound exceeded") := by
  intro h
  rcases bind_eq_error.1 h with h | ⟨base, -, h⟩
  · unfold BundleCoverageProof.base at h
    split at h <;> cases h
  rcases bind_eq_error.1 h with h | ⟨_, hchecked, h⟩
  · exact absurd (reject_eq_error.1 h).2 (by decide)
  rw [reject_eq_ok] at hchecked
  simp only [Bool.or_eq_false_iff, decide_eq_false_iff_not, not_lt] at hchecked
  rcases bind_eq_error.1 h with h | ⟨_, -, h⟩
  · exact absurd (reject_eq_error.1 h).2 (by decide)
  rcases bind_eq_error.1 h with h | ⟨delta, hdelta, h⟩
  · unfold BundleCoverageProof.delta at h
    split at h
    · cases h
    · exact absurd (afterPrefix_eq_error h) (by decide)
  rcases bind_eq_error.1 h with h | ⟨_, hsome, h⟩
  · exact absurd (reject_eq_error.1 h).2 (by decide)
  rw [reject_eq_ok, isEmpty_eq_false_iff] at hsome
  rcases bind_eq_error.1 h with h | ⟨aliases, haliases, h⟩
  · rcases extendAliases_eq_error h with h | h <;> exact absurd h (by decide)
  rcases bind_eq_error.1 h with h | ⟨_, -, h⟩
  · have hbound := (delta_suffix hdelta).length_le.trans hchecked.2
    exact absurd (of_decide_eq_true (reject_eq_error.1 h).1)
      (not_le.2 (hc.length_lt hsome hbound haliases))
  rcases bind_eq_error.1 h with h | ⟨digest, -, h⟩
  · exact absurd (extendDigest_eq_error h) (by decide)
  · cases h

/-- Checkpointed prefixes lose no capture. Each recorded alias is the running hash of exactly the
captures between its base and the root, which are those of the proof it was made from; a proof that
is accepted after another one has all captures of the other one, but for those that the root it
starts at covers; and the bound on aliases is never exceeded. -/
theorem checkpoints_lose_no_capture {proofs : List BundleCoverageProof}
    {last previous : BundleCoverageProof} (h : Checkpoints hash (proofs ++ [last]) trail c)
    (hfree : NoCollision hash (proofs ++ [last, previous]) trail) :
    (∃ base, last.base = .ok base ∧ trail.capturesFrom base = some last.binding.locators) ∧
      (∀ found ∈ c.aliases, ∃ locators, trail.capturesFrom found.base = some locators ∧
        locatorPrefixDigest hash locators = .ok found.digest ∧ found.locators = locators.length) ∧
      (∀ (next : BundleCoverageProof) checkpoint, checkpoint = none ∨ checkpoint = some c →
        next.continuesSelectedPrefix hash previous checkpoint = .ok () →
        next.GoesOn hash trail c previous) ∧
      (∀ (p : BundleCoverageProof) root, p.materializedPrefix hash root (some c)
        ≠ .error (.control "checkpoint alias bound exceeded")) ∧
      c.aliases.length ≤ maxLocators := by
  have hc := h.stands
  refine ⟨h.captures_of_last hfree (by simp), fun found hfound => ?_, ?_, fun p root =>
    hc.bound, ?_⟩
  · obtain ⟨locators, hfrom, hcount, hdigest⟩ :=
      mem_aliases hc.nodup_bases (hc.aliases ▸ hfound)
    refine ⟨locators, hfrom, locatorPrefixDigest_eq_ok.2 ⟨fun l hl => ?_, hdigest⟩, hcount⟩
    exact hc.resolved l ((capturesFrom_suffix hfrom).subset hl)
  · intro next checkpoint hcheckpoint hnext
    refine hc.goesOn hfree (by simp) (fun c' hc' => ?_) hnext
    rcases hcheckpoint with rfl | rfl
    · cases hc'
    · exact (some.inj hc').symm
  · rw [hc.aliases]
    exact (length_aliases_le hc.advance).1

end

/-- A hash that shifts its first bytes and puts its last byte in. -/
def rollHash (bytes : Bytes) : Digest :=
  ⟨((bytes ++ List.replicate 32 0).take 32).drop 1 ++ [bytes.getLastD 0], by
    rw [length_append, length_drop, length_take, length_append, length_replicate, length_singleton]
    omega⟩

/-- A capture of the sample. -/
def sampleLocator (n : UInt8) : Locator := ⟨some (.fill 32 n), 0, 1, .fill 32 n⟩

/-- A root of the sample. -/
def sampleRootRef (n : Nat) : RootRef := ⟨.fill 32 9, n, 2 ^ 63, n⟩

/-- A proof of the sample: its captures lead from the root `base` to the commit `commit`. -/
def sampleProof (base commit : Nat) (captures : Bytes) : BundleCoverageProof where
  pin := ⟨.fill 16 1, 1, .fill 32 2⟩
  binding := ⟨.fill 16 3, commit, ⟨.fill 32 4, .fill 16 5, 1, 1, 1, .serving, none,
    some (sampleRootRef base), none, none, .fill 32 6, 1, none⟩, .opened, none, commit, commit,
    ⟨commit, 2 ^ 63⟩, captures.map sampleLocator⟩
  head := ⟨1, .fill 32 7, commit⟩
  session := .fill 16 1
  live := none

/-- The root at a commit. -/
def sampleCellRoot (n : Nat) : CellRootRef := (sampleRootRef n).toLtx (.fill 32 4) (.fill 16 5)

/-- The checkpoints of the sample: the captures 2 and 3, and then 4 as well, each seen from the root
at commit 1. -/
def sampleCheckpoint : Nat → MaterializedBundlePrefix
  | 3 => ⟨sampleCellRoot 3, ⟨.fill 16 1, 1, .fill 32 2⟩,
      [⟨sampleCellRoot 1, 2, chainDigest rollHash [sampleLocator 2, sampleLocator 3]⟩]⟩
  | _ => ⟨sampleCellRoot 4, ⟨.fill 16 1, 1, .fill 32 2⟩,
      [⟨sampleCellRoot 1, 3, chainDigest rollHash
        [sampleLocator 2, sampleLocator 3, sampleLocator 4]⟩,
        ⟨sampleCellRoot 3, 1, chainDigest rollHash [sampleLocator 4]⟩]⟩

theorem sampleCheckpoints : Checkpoints rollHash
    ([sampleProof 1 3 [2, 3]] ++ [sampleProof 1 4 [2, 3, 4]])
    [(sampleCellRoot 1, [sampleLocator 2, sampleLocator 3]), (sampleCellRoot 3, [sampleLocator 4])]
    (sampleCheckpoint 4) := by
  have hfirst : (sampleProof 1 3 [2, 3]).materializedPrefix rollHash (sampleCellRoot 3) none
      = .ok (sampleCheckpoint 3) := by decide +kernel
  have hnext : (sampleProof 1 4 [2, 3, 4]).materializedPrefix rollHash (sampleCellRoot 4)
      (some (sampleCheckpoint 3)) = .ok (sampleCheckpoint 4) := by decide +kernel
  have hbase : ∀ commit captures, (sampleProof 1 commit captures).base = .ok (sampleCellRoot 1) :=
    fun _ _ => rfl
  exact .next (.first (hbase _ _) hfirst) (hbase _ _) (by decide +kernel) hnext

/-- A later proof starts at the second root: of the captures before it, 5 is left. -/
theorem checkpoints_lose_no_capture_sample :
    (sampleProof 4 6 [5, 6]).continuesSelectedPrefix rollHash (sampleProof 1 5 [2, 3, 4, 5])
        (some (sampleCheckpoint 4)) = .ok () ∧
      (sampleProof 4 6 [5, 6]).GoesOn rollHash
        [(sampleCellRoot 1, [sampleLocator 2, sampleLocator 3]),
          (sampleCellRoot 3, [sampleLocator 4])]
        (sampleCheckpoint 4) (sampleProof 1 5 [2, 3, 4, 5]) := by
  have hfree : NoCollision rollHash
      ([sampleProof 1 3 [2, 3]] ++ [sampleProof 1 4 [2, 3, 4], sampleProof 1 5 [2, 3, 4, 5]])
      [(sampleCellRoot 1, [sampleLocator 2, sampleLocator 3]),
        (sampleCellRoot 3, [sampleLocator 4])] := by
    decide +kernel
  have haccepted : (sampleProof 4 6 [5, 6]).continuesSelectedPrefix rollHash
      (sampleProof 1 5 [2, 3, 4, 5]) (some (sampleCheckpoint 4)) = .ok () := by decide +kernel
  exact ⟨haccepted, (checkpoints_lose_no_capture sampleCheckpoints hfree).2.2.1 _ _
    (.inr rfl) haccepted⟩

/-- A proof that keeps the base of the one before it is accepted, although no list that the one
before begins with has the recorded hash. -/
theorem same_base_needs_no_record :
    (sampleProof 1 3 [2, 3]).continuesSelectedPrefix rollHash (sampleProof 1 2 [2])
        (some (sampleCheckpoint 4)) = .ok () ∧
      ∀ found ∈ (sampleCheckpoint 4).aliases, (sampleProof 1 2 [2]).base = .ok found.base →
        ∀ dropped rest, (sampleProof 1 2 [2]).binding.locators = dropped ++ rest →
          locatorPrefixDigest rollHash dropped ≠ .ok found.digest := by
  refine ⟨by decide +kernel, fun found hfound hbase dropped rest hsplit => ?_⟩
  have hdropped : dropped ∈ (sampleProof 1 2 [2]).binding.locators.inits :=
    (mem_inits _ _).2 ⟨rest, hsplit.symm⟩
  clear hsplit
  revert found hfound hbase dropped
  decide +kernel

end Cellule
