import Cellule.Identity
import Cellule.Lib.Except

/-!
# The Cell control record and its transitions

The record that a Cell's authority stores (`control/mod.rs`), the predicate every stored record
passes (`Control.validate`) and the one a named successor passes before its conditional update
(`Control.validateTransition`), branch by branch. `Control.Valid` and `Control.Step` say once what a
record and a transition that passed are; the later modules are case analyses of `Control.Step`.
-/

namespace Cellule

open Except Option

/-- The bit LTX sets on every checksum it publishes (`CHECKSUM_FLAG`,
`cellule-ltx/src/types.rs`). -/
def checksumFlag : Nat := 2 ^ 63

/-- The immutable recovery root a control record publishes. -/
structure RootRef where
  digest : Digest
  txid : Nat
  checksum : Nat
  commitSequence : Nat
  deriving DecidableEq

/-- The enrolled process responsible for a Cell; its endpoint is a text, kept as its characters. -/
structure Owner where
  session : SessionId
  endpoint : List Char
  deriving DecidableEq

/-- The node bundle lane pinned before it can cover a writer's commands. -/
structure BundleBindingRef where
  session : SessionId
  epoch : Nat
  digest : Digest
  deriving DecidableEq

/-- The recovered follower tail pinned before a dead owner's Cell can move. -/
structure RecoveryOverlayRef where
  leaderSession : SessionId
  logEpoch : Nat
  manifestDigest : Digest
  firstNodeSequence : Nat
  lastNodeSequence : Nat
  predecessor : RootRef
  finalTxid : Nat
  finalChecksum : Nat
  finalCommitSequence : Nat
  deriving DecidableEq

/-- `RecoveryOverlayRef::validate` (`control/mod.rs:128`). -/
def RecoveryOverlayRef.validate (r : RecoveryOverlayRef) : Result Unit :=
  reject (r.leaderSession.isZero
    || r.manifestDigest.isZero
    || r.logEpoch == 0
    || r.firstNodeSequence == 0
    || decide (r.firstNodeSequence > r.lastNodeSequence)
    || decide (r.finalTxid ≤ r.predecessor.txid)
    || r.finalChecksum &&& checksumFlag == 0
    || decide (r.finalCommitSequence ≤ r.predecessor.commitSequence)
    || decide (r.finalCommitSequence > i64Max)) (.control "invalid recovery overlay")

/-- The durable Cell lifecycle state. -/
inductive ControlState where
  | recovering
  | serving
  | idle
  | tombstoned
  deriving DecidableEq

/-- The versioned owner and root authority of one Cell. -/
structure Control where
  cell : CellId
  incarnation : IncarnationId
  epoch : Nat
  revision : Nat
  progress : Nat
  state : ControlState
  owner : Option Owner
  root : Option RootRef
  recovery : Option RecoveryOverlayRef
  bundleBinding : Option BundleBindingRef
  code : Digest
  schema : Nat
  nextDueMs : Option Int
  deriving DecidableEq

/-- The named transitions of a control record. -/
inductive Transition where
  | bindBundle
  | renew
  | activate
  | publish
  | migrate
  | release
  | attachRecovery
  | publishRecovery
  | takeover
  | tombstone
  deriving DecidableEq

/-- The bytes a text takes in UTF-8, `str::len`. -/
def utf8Len (s : List Char) : Nat := (s.map Char.utf8Size).sum

/-- `char::is_control`: the Unicode category Cc. -/
def Char.isControl (c : Char) : Bool :=
  decide (c.toNat < 0x20) || (decide (0x7f ≤ c.toNat) && decide (c.toNat ≤ 0x9f))

/-- The owner clause of `Control::validate`. -/
def Owner.badEndpoint (o : Owner) : Bool :=
  o.endpoint.isEmpty || decide (utf8Len o.endpoint > 512) || o.endpoint.any Char.isControl

/-- The root clause of `Control::validate`. -/
def RootRef.bad (r : RootRef) : Bool :=
  r.txid == 0 || r.checksum &&& checksumFlag == 0 || decide (r.commitSequence > i64Max)

/-- The binding clause of `Control::validate`. -/
def Control.badBinding (c : Control) (b : BundleBindingRef) : Bool :=
  b.epoch == 0
    || b.session.isZero
    || b.digest.isZero
    || c.state != .serving
    || c.recovery.any (fun r => r.leaderSession != b.session || r.logEpoch != b.epoch)
    || c.owner.all (fun o => o.session != b.session)

/-- The recovery clause of `Control::validate`. -/
def Control.validateRecovery (c : Control) : Result Unit :=
  match c.recovery with
  | none => .ok ()
  | some r => do
    r.validate
    reject (c.root != some r.predecessor) (.control "recovery overlay does not match control")

/-- The last clause of `Control::validate`: the owner and root each lifecycle state asks for. -/
def Control.validateState (c : Control) : Result Unit :=
  match c.state with
  | .recovering => reject (!c.owner.isSome) (.control "owner/root do not match state")
  | .serving =>
    reject (!(c.owner.isSome && c.root.isSome)) (.control "owner/root do not match state")
  | .idle | .tombstoned => reject c.owner.isSome (.control "owner/root do not match state")

/-- `Control::validate` (`control/mod.rs:716`). -/
def Control.validate (c : Control) : Result Unit := do
  reject (c.epoch == 0 || c.revision == 0 || c.schema == 0)
    (.control "zero epoch, revision, or schema")
  reject (c.nextDueMs.any (· < 0)) (.control "negative next due time")
  reject (c.bundleBinding.any c.badBinding) (.control "invalid bundle binding")
  reject (c.owner.any Owner.badEndpoint) (.control "invalid owner endpoint")
  reject (c.root.any RootRef.bad) (.control "invalid recovery root")
  c.validateRecovery
  c.validateState

/-- `valid_root_successor` (`control/mod.rs:769`). -/
def validRootSuccessor (previous next : Option RootRef) : Bool :=
  match next, previous with
  | none, _ => false
  | some _, none => true
  | some n, some p =>
    if n.txid < p.txid || n.commitSequence < p.commitSequence then false
    else n.txid != p.txid || (n.checksum == p.checksum && n.commitSequence == p.commitSequence)

/-- `valid_migration_version` (`control/mod.rs:783`); a schema is a `u32`. -/
def validMigrationVersion (currentCode : Digest) (currentSchema : Nat) (nextCode : Digest)
    (nextSchema : Nat) : Bool :=
  (decide (currentSchema + 1 < 2 ^ 32) && currentSchema + 1 == nextSchema)
    || (currentSchema == nextSchema && currentCode != nextCode)

/-- The transitions that may change the bundle binding. -/
def Transition.rebinds : Transition → Bool
  | .bindBundle | .release | .takeover | .tombstone => true
  | _ => false

/-- The named predicate of one transition, the `match` of `Control::validate_transition`. -/
def Control.validateNamed (c next : Control) : Transition → Result Unit
  | .bindBundle =>
    let expected := { c with
      revision := next.revision, progress := next.progress, bundleBinding := next.bundleBinding }
    reject (c.state != .serving || c.bundleBinding.isSome || next.bundleBinding.isNone
      || expected != next) (.control "invalid bundle binding transition")
  | .renew =>
    reject (c.epoch != next.epoch || c.state != next.state || c.owner != next.owner
      || c.root != next.root || c.recovery != next.recovery || c.code != next.code
      || c.schema != next.schema || c.nextDueMs != next.nextDueMs)
      (.control "renew changed protected fields")
  | .activate =>
    reject (c.state != .recovering || next.state != .serving || c.epoch != next.epoch
      || c.owner != next.owner || c.root.isNone || c.root != next.root || c.recovery.isSome
      || next.recovery.isSome || c.code != next.code || c.schema != next.schema
      || c.nextDueMs != next.nextDueMs) (.control "invalid activation transition")
  | .publish =>
    reject (!(c.state == .recovering || c.state == .serving) || next.state != .serving
      || c.epoch != next.epoch || c.owner != next.owner || next.root.isNone || c.recovery.isSome
      || next.recovery.isSome || c.code != next.code || c.schema != next.schema
      || !validRootSuccessor c.root next.root) (.control "invalid publish transition")
  | .migrate =>
    reject (c.bundleBinding.isSome || !(c.state == .recovering || c.state == .serving)
      || next.state != .serving || c.epoch != next.epoch || c.owner != next.owner
      || next.root.isNone || c.recovery.isSome || next.recovery.isSome || next.code.isZero
      || !validMigrationVersion c.code c.schema next.code next.schema
      || !validRootSuccessor c.root next.root) (.control "invalid migration transition")
  | .release =>
    reject (!(c.state == .recovering || c.state == .serving) || next.bundleBinding.isSome
      || next.state != .idle || next.owner.isSome || next.root.isNone || c.recovery.isSome
      || next.recovery.isSome || c.epoch != next.epoch || c.root != next.root
      || c.recovery != next.recovery || c.code != next.code || c.schema != next.schema
      || c.nextDueMs != next.nextDueMs) (.control "invalid release transition")
  | .attachRecovery =>
    match next.recovery with
    | none => .error (.control "invalid recovery attachment")
    | some recovery =>
      reject (c.state == .tombstoned || c.recovery.isSome || c.epoch != next.epoch
        || c.state != next.state || c.owner.map (·.session) != some recovery.leaderSession
        || c.owner != next.owner || c.root != some recovery.predecessor || c.root != next.root
        || c.code != next.code || c.schema != next.schema || c.nextDueMs != next.nextDueMs)
        (.control "invalid recovery attachment")
  | .publishRecovery =>
    match c.recovery with
    | none => .error (.control "invalid recovery publication")
    | some recovery =>
      let originalBoundWriter := c.state == .serving && c.bundleBinding.isSome
      reject ((c.state != .recovering && !originalBoundWriter) || next.state != c.state
        || next.recovery.isSome || c.epoch != next.epoch || c.owner != next.owner
        || c.root != some recovery.predecessor
        || next.root.all (fun root => root.txid != recovery.finalTxid
          || root.checksum != recovery.finalChecksum
          || root.commitSequence != recovery.finalCommitSequence)
        || c.code != next.code || c.schema != next.schema)
        (.control "invalid recovery publication")
  | .takeover =>
    reject (c.state == .tombstoned || next.bundleBinding.isSome || next.state != .recovering
      || next.owner.isNone || c.owner == next.owner || checkedAdd c.epoch 1 != some next.epoch
      || c.root != next.root || c.recovery != next.recovery || c.code != next.code
      || c.schema != next.schema || c.nextDueMs != next.nextDueMs)
      (.control "invalid takeover transition")
  | .tombstone =>
    reject (c.state == .tombstoned || next.bundleBinding.isSome || next.state != .tombstoned
      || next.owner.isSome || checkedAdd c.epoch 1 != some next.epoch || c.root != next.root
      || c.recovery.isSome || next.recovery.isSome || c.code != next.code
      || c.schema != next.schema || c.nextDueMs != next.nextDueMs)
      (.control "invalid tombstone transition")

/-- `Control::validate_transition` (`control/mod.rs:524`). -/
def Control.validateTransition (c next : Control) (transition : Transition) : Result Unit := do
  c.validate
  next.validate
  reject (c.cell != next.cell || c.incarnation != next.incarnation)
    (.control "successor changed Cell scope")
  reject (checkedAdd c.revision 1 != some next.revision
    || checkedAdd c.progress 1 != some next.progress) (.control "successor revision or progress")
  reject (!transition.rebinds && c.bundleBinding != next.bundleBinding)
    (.control "successor changed bundle binding")
  c.validateNamed next transition

/-- `Control::initial` (`control/mod.rs:253`). -/
def Control.initial (cell : CellId) (incarnation : IncarnationId) (owner : Owner) (code : Digest)
    (schema : Nat) : Result Control := do
  let control : Control := {
    cell, incarnation, epoch := 1, revision := 1, progress := 1, state := .recovering,
    owner := some owner, root := none, recovery := none, bundleBinding := none, code, schema,
    nextDueMs := none }
  control.validate
  pure control

/-! ## What a record and a transition that passed are -/

/-- The state of a root: its transaction, checksum and commit sequence. A compaction rewrites the
document at one position, so the digest is not part of it. -/
def RootRef.position (r : RootRef) : Nat × Nat × Nat := (r.txid, r.checksum, r.commitSequence)

/-- A root position that `next` may follow: neither coordinate moves backwards, and an equal
transaction is the same position. -/
def RootRef.Precedes (p n : RootRef) : Prop :=
  p.txid ≤ n.txid ∧ p.commitSequence ≤ n.commitSequence ∧
    (n.txid = p.txid → n.checksum = p.checksum ∧ n.commitSequence = p.commitSequence)

theorem RootRef.Precedes.refl (r : RootRef) : r.Precedes r :=
  ⟨le_rfl, le_rfl, fun _ => ⟨rfl, rfl⟩⟩

theorem RootRef.Precedes.trans {p q r : RootRef} (hpq : p.Precedes q) (hqr : q.Precedes r) :
    p.Precedes r := by
  obtain ⟨ht, hc, he⟩ := hpq
  obtain ⟨ht', hc', he'⟩ := hqr
  refine ⟨ht.trans ht', hc.trans hc', fun h => ?_⟩
  have hq : q.txid = p.txid := by omega
  obtain ⟨h1, h2⟩ := he hq
  obtain ⟨h3, h4⟩ := he' (by omega)
  exact ⟨h3.trans h1, h4.trans h2⟩

/-- What `valid_root_successor` accepts: a root after none, or one its predecessor precedes. -/
theorem validRootSuccessor_eq_true :
    validRootSuccessor previous next = true ↔
      ∃ n, next = some n ∧ ∀ p, previous = some p → p.Precedes n := by
  cases next with
  | none => simp [validRootSuccessor]
  | some n =>
    cases previous with
    | none => simp [validRootSuccessor]
    | some p =>
      simp only [validRootSuccessor, some.injEq, RootRef.Precedes]
      constructor
      · intro h
        refine ⟨n, rfl, fun p' hp' => ?_⟩
        subst hp'
        split at h
        · cases h
        · next hlt =>
          simp only [Bool.or_eq_true, decide_eq_true_eq, not_or, not_lt] at hlt
          refine ⟨hlt.1, hlt.2, fun he => ?_⟩
          simpa [he] using h
      · rintro ⟨_, rfl, h⟩
        obtain ⟨ht, hc, he⟩ := h p rfl
        rw [if_neg (by simp; omega)]
        by_cases htx : n.txid = p.txid
        · simp [he htx]
        · simp [htx]

/-- A recovery overlay that passed its check lies strictly above the root it supersedes. -/
theorem RecoveryOverlayRef.validate_ok {r : RecoveryOverlayRef} (h : r.validate = .ok ()) :
    r.predecessor.txid < r.finalTxid ∧ r.predecessor.commitSequence < r.finalCommitSequence := by
  simp only [RecoveryOverlayRef.validate, reject_eq_ok, Bool.or_eq_false_iff,
    decide_eq_false_iff_not, not_le] at h
  exact ⟨h.1.1.1.2, h.1.2⟩

/-- The facts of a valid record that the invariants use: a pinned overlay supersedes the record's
own root and lies above it, a binding is held by a serving owner of the session, and an owner is
named exactly while the Cell is recovering or serving. -/
structure Control.Valid (c : Control) : Prop where
  epoch : 0 < c.epoch
  revision : 0 < c.revision
  pinned : ∀ r, c.recovery = some r → c.root = some r.predecessor ∧
    r.predecessor.txid < r.finalTxid ∧ r.predecessor.commitSequence < r.finalCommitSequence
  bound : c.bundleBinding.isSome → c.state = .serving
  owned : c.owner.isSome ↔ c.state = .recovering ∨ c.state = .serving
  rooted : c.state = .serving → c.root.isSome

theorem Control.validateRecovery_ok {c : Control} (h : c.validateRecovery = .ok ())
    (hr : c.recovery = some r) :
    c.root = some r.predecessor ∧ r.predecessor.txid < r.finalTxid ∧
      r.predecessor.commitSequence < r.finalCommitSequence := by
  simp only [Control.validateRecovery, hr] at h
  obtain ⟨_, hv, hroot⟩ := bind_eq_ok.1 h
  exact ⟨by simpa using hroot, RecoveryOverlayRef.validate_ok hv⟩

theorem Control.validateState_ok {c : Control} (h : c.validateState = .ok ()) :
    (c.owner.isSome ↔ c.state = .recovering ∨ c.state = .serving) ∧
      (c.state = .serving → c.root.isSome) := by
  cases hs : c.state <;> simp_all [Control.validateState]

/-- What a record that passed `Control::validate` satisfies. -/
theorem Control.validate_ok {c : Control} (h : c.validate = .ok ()) : c.Valid := by
  simp only [Control.validate, reject_bind_eq_ok] at h
  obtain ⟨hz, -, hb, -, -, hrest⟩ := h
  obtain ⟨_, hrec, hst⟩ := bind_eq_ok.1 hrest
  obtain ⟨howned, hrooted⟩ := Control.validateState_ok hst
  simp only [Bool.or_eq_false_iff, beq_eq_false_iff_ne] at hz
  refine ⟨by omega, by omega, fun r hr => Control.validateRecovery_ok hrec hr, fun hbs => ?_,
    howned, hrooted⟩
  obtain ⟨b, hbb⟩ := isSome_iff_exists.1 hbs
  simp only [hbb, any_some, Control.badBinding, Bool.or_eq_false_iff] at hb
  simpa using hb.1.1.2

/-- The part of a transition that every kind shares. -/
structure Control.Succeeds (c n : Control) : Prop where
  valid : c.Valid
  validNext : n.Valid
  cell : n.cell = c.cell
  incarnation : n.incarnation = c.incarnation
  revision : n.revision = c.revision + 1
  progress : n.progress = c.progress + 1

/-- What each named transition may change; the code, schema and due time are left out, as no
invariant of the record depends on them. -/
def Control.Step (c n : Control) : Transition → Prop
  | .bindBundle => c.state = .serving ∧ c.bundleBinding = none ∧ n.bundleBinding.isSome ∧
      n.epoch = c.epoch ∧ n.state = c.state ∧ n.owner = c.owner ∧ n.root = c.root ∧
      n.recovery = c.recovery
  | .renew => n.epoch = c.epoch ∧ n.state = c.state ∧ n.owner = c.owner ∧ n.root = c.root ∧
      n.recovery = c.recovery ∧ n.bundleBinding = c.bundleBinding
  | .activate => c.state = .recovering ∧ n.state = .serving ∧ n.epoch = c.epoch ∧
      n.owner = c.owner ∧ n.root = c.root ∧ c.recovery = none ∧ n.recovery = none ∧
      n.bundleBinding = c.bundleBinding
  | .publish | .migrate => (c.state = .recovering ∨ c.state = .serving) ∧ n.state = .serving ∧
      n.epoch = c.epoch ∧ n.owner = c.owner ∧ c.recovery = none ∧ n.recovery = none ∧
      validRootSuccessor c.root n.root = true ∧ n.bundleBinding = c.bundleBinding
  | .release => (c.state = .recovering ∨ c.state = .serving) ∧ n.state = .idle ∧
      n.epoch = c.epoch ∧ n.owner = none ∧ n.root = c.root ∧ c.recovery = none ∧
      n.recovery = none ∧ n.bundleBinding = none
  | .attachRecovery => c.state ≠ .tombstoned ∧ c.recovery = none ∧ n.epoch = c.epoch ∧
      n.state = c.state ∧ n.owner = c.owner ∧ n.root = c.root ∧
      n.bundleBinding = c.bundleBinding ∧ ∃ r, n.recovery = some r ∧
        c.root = some r.predecessor ∧ c.owner.map (·.session) = some r.leaderSession
  | .publishRecovery => c.state ≠ .tombstoned ∧ n.state = c.state ∧ n.epoch = c.epoch ∧
      n.owner = c.owner ∧ n.recovery = none ∧ n.bundleBinding = c.bundleBinding ∧
      ∃ r root, c.recovery = some r ∧ c.root = some r.predecessor ∧ n.root = some root ∧
        root.position = (r.finalTxid, r.finalChecksum, r.finalCommitSequence)
  | .takeover => c.state ≠ .tombstoned ∧ n.state = .recovering ∧ n.epoch = c.epoch + 1 ∧
      n.owner.isSome ∧ c.owner ≠ n.owner ∧ n.root = c.root ∧ n.recovery = c.recovery ∧
      n.bundleBinding = none
  | .tombstone => c.state ≠ .tombstoned ∧ n.state = .tombstoned ∧ n.epoch = c.epoch + 1 ∧
      n.owner = none ∧ n.root = c.root ∧ c.recovery = none ∧ n.recovery = none ∧
      n.bundleBinding = none

/-- A named predicate that passed is its transition, given that only the transitions that rebind
change the binding. -/
theorem Control.validateNamed_ok {c n : Control}
    (hb : k.rebinds = false → n.bundleBinding = c.bundleBinding)
    (h : c.validateNamed n k = .ok ()) : c.Step n k := by
  cases k <;> simp only [Control.validateNamed, reject_eq_ok, Bool.or_eq_false_iff,
    bne_eq_false_iff_eq, beq_eq_false_iff_ne, Bool.not_eq_false', Bool.or_eq_true, beq_iff_eq,
    isSome_eq_false_iff, isNone_eq_false_iff, isNone_iff_eq_none, checkedAdd_eq_some] at h
  case bindBundle =>
    obtain ⟨⟨⟨hs, hcb⟩, hnb⟩, he⟩ := h
    refine ⟨hs, hcb, hnb, ?_⟩
    rw [← he]
    exact ⟨rfl, rfl, rfl, rfl, rfl⟩
  case renew =>
    obtain ⟨⟨⟨⟨⟨⟨⟨hep, hst⟩, hown⟩, hroot⟩, hrec⟩, -⟩, -⟩, -⟩ := h
    exact ⟨hep.symm, hst.symm, hown.symm, hroot.symm, hrec.symm, hb rfl⟩
  case activate =>
    obtain ⟨⟨⟨⟨⟨⟨⟨⟨⟨⟨hst, hst'⟩, hep⟩, hown⟩, -⟩, hroot⟩, hrec⟩, hrec'⟩, -⟩, -⟩, -⟩ := h
    exact ⟨hst, hst', hep.symm, hown.symm, hroot.symm, hrec, hrec', hb rfl⟩
  case publish =>
    obtain ⟨⟨⟨⟨⟨⟨⟨⟨⟨hst, hst'⟩, hep⟩, hown⟩, -⟩, hrec⟩, hrec'⟩, -⟩, -⟩, hroot⟩ := h
    exact ⟨hst, hst', hep.symm, hown.symm, hrec, hrec', hroot, hb rfl⟩
  case migrate =>
    obtain ⟨⟨⟨⟨⟨⟨⟨⟨⟨⟨-, hst⟩, hst'⟩, hep⟩, hown⟩, -⟩, hrec⟩, hrec'⟩, -⟩, -⟩, hroot⟩ := h
    exact ⟨hst, hst', hep.symm, hown.symm, hrec, hrec', hroot, hb rfl⟩
  case release =>
    obtain ⟨⟨⟨⟨⟨⟨⟨⟨⟨⟨⟨⟨hst, hbb⟩, hst'⟩, hown⟩, -⟩, hrec⟩, hrec'⟩, hep⟩, hroot⟩, -⟩, -⟩, -⟩, -⟩ := h
    exact ⟨hst, hst', hep.symm, hown, hroot.symm, hrec, hrec', hbb⟩
  case attachRecovery =>
    cases hr : n.recovery with
    | none => simp [hr] at h
    | some r =>
      simp only [hr, reject_eq_ok, Bool.or_eq_false_iff, beq_eq_false_iff_ne,
        bne_eq_false_iff_eq] at h
      obtain ⟨⟨⟨⟨⟨⟨⟨⟨⟨⟨hst, hrec⟩, hep⟩, hst'⟩, hses⟩, hown⟩, hroot⟩, hroot'⟩, -⟩, -⟩, -⟩ := h
      exact ⟨hst, by simpa using hrec, hep.symm, hst'.symm, hown.symm, hroot'.symm, hb rfl, r, hr,
        hroot, hses⟩
  case publishRecovery =>
    cases hr : c.recovery with
    | none => simp [hr] at h
    | some r =>
      simp only [hr, reject_eq_ok, Bool.or_eq_false_iff, bne_eq_false_iff_eq, isSome_eq_false_iff,
        isNone_iff_eq_none] at h
      obtain ⟨⟨⟨⟨⟨⟨⟨⟨hst, hst'⟩, hrec⟩, hep⟩, hown⟩, hroot⟩, hroot'⟩, -⟩, -⟩ := h
      cases hn : n.root with
      | none => simp [hn] at hroot'
      | some root =>
        simp only [hn, all_some, Bool.or_eq_false_iff, bne_eq_false_iff_eq] at hroot'
        obtain ⟨⟨ht, hc⟩, hs⟩ := hroot'
        refine ⟨fun h => ?_, hst', hep.symm, hown.symm, hrec, hb rfl, r, root, hr, hroot, hn,
          by rw [RootRef.position, ht, hc, hs]⟩
        rw [h] at hst
        cases hst
  case takeover =>
    obtain ⟨⟨⟨⟨⟨⟨⟨⟨⟨⟨hst, hbb⟩, hst'⟩, hown⟩, hne⟩, -, hep⟩, hroot⟩, hrec⟩, -⟩, -⟩, -⟩ := h
    exact ⟨hst, hst', hep, hown, hne, hroot.symm, hrec.symm, hbb⟩
  case tombstone =>
    obtain ⟨⟨⟨⟨⟨⟨⟨⟨⟨⟨hst, hbb⟩, hst'⟩, hown⟩, -, hep⟩, hroot⟩, hrec⟩, hrec'⟩, -⟩, -⟩, -⟩ := h
    exact ⟨hst, hst', hep, hown, hroot.symm, hrec, hrec', hbb⟩

/-- What a transition that passed `Control::validate_transition` did. -/
theorem Control.validateTransition_ok {c n : Control}
    (h : c.validateTransition n k = .ok ()) : c.Succeeds n ∧ c.Step n k := by
  obtain ⟨⟨⟩, hc, h⟩ := bind_eq_ok.1 h
  obtain ⟨⟨⟩, hn, h⟩ := bind_eq_ok.1 h
  simp only [reject_bind_eq_ok, Bool.or_eq_false_iff, bne_eq_false_iff_eq] at h
  obtain ⟨⟨hcell, hinc⟩, ⟨hrev, hprog⟩, hbind, hnamed⟩ := h
  refine ⟨⟨Control.validate_ok hc, Control.validate_ok hn, hcell.symm, hinc.symm,
    (checkedAdd_eq_some.1 hrev).2, (checkedAdd_eq_some.1 hprog).2⟩,
    Control.validateNamed_ok (fun hk => ?_) hnamed⟩
  exact Eq.symm (by simpa [hk] using hbind)

/-- A created record is the bootstrap record and is valid. -/
theorem Control.initial_ok {cell : CellId} {incarnation : IncarnationId} {owner : Owner}
    {code : Digest} {schema : Nat}
    (h : Control.initial cell incarnation owner code schema = .ok c) :
    c.Valid ∧ c.cell = cell ∧ c.incarnation = incarnation ∧ c.epoch = 1 ∧ c.revision = 1 ∧
      c.progress = 1 ∧ c.state = .recovering ∧ c.owner = some owner ∧ c.root = none ∧
      c.recovery = none ∧ c.bundleBinding = none := by
  obtain ⟨⟨⟩, hv, h⟩ := bind_eq_ok.1 h
  cases h
  exact ⟨Control.validate_ok hv, rfl, rfl, rfl, rfl, rfl, rfl, rfl, rfl, rfl, rfl⟩

end Cellule
