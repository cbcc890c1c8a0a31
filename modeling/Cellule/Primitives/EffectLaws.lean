import Cellule.Lib.Lease
import Cellule.Primitives.Effects

/-!
# What the statements on effects can do

`EffectBook` is the table of effects with its history: the effects that were produced, the leases as
their holders know them, and the claims that were handed out. Each statement moves one row
(`EffectStep`); the operations are sequences of such steps (`EffectSteps`), which their `_ends`
lemmas say. What holds of a source over a run is kept by one step: `EffectStep.inv` for the
invariant, `EffectStep.kept` for the effects that are settled.
-/

namespace Cellule

open Stateful List OrderedMap Option EffectRow

/-- An effect that was produced. -/
structure EffectRecord where
  id : Digest
  sequence : Nat
  ordinal : Nat
  intent : EffectIntent
  deriving DecidableEq

/-- The source that identities are made for. -/
structure EffectScope where
  hash : Hash
  cell : CellId
  incarnation : IncarnationId

/-- The identity of the effect at a place of the source's history. -/
def EffectScope.id (scope : EffectScope) (sequence ordinal : Nat) : Digest :=
  effectId scope.hash scope.cell scope.incarnation sequence ordinal

/-- The hash gives different identities to the different places of the source's history. -/
def EffectScope.CollisionFree (scope : EffectScope) : Prop :=
  ∀ s o s' o', s ≤ i64Max → s' ≤ i64Max → o < maxEffectsPerCommand → o' < maxEffectsPerCommand →
    scope.id s o = scope.id s' o' → s = s' ∧ o = o'

/-- The table of effects and its history. `sequence` and `ordinal` are the place of the next
effect. -/
structure EffectBook where
  table : EffectTable
  sequence : Nat
  ordinal : Nat
  produced : List EffectRecord
  spans : List (Lease.Span Digest (Nat × LeaseToken))
  claims : List EffectClaim

/-- The lease that a row is under: its attempt and token, and its deadline. -/
def EffectRow.lease (row : EffectRow) : Option ((Nat × LeaseToken) × Int) :=
  match row.state with
  | .leased token leaseUntil => some ((row.attempt, token), leaseUntil)
  | _ => none

/-- The lease that an effect is under. -/
def EffectTable.held (table : EffectTable) (id : Digest) : Option ((Nat × LeaseToken) × Int) :=
  (table.get? id).bind EffectRow.lease

/-- A settled effect. -/
def EffectRow.settled (row : EffectRow) : Prop := row.state = .delivered ∨ row.state = .failed

/-- A state without a lease. -/
def EffectState.free : EffectState → Prop
  | .leased _ _ => False
  | _ => True

/-- The claim of a row that a lease was granted on. -/
def EffectBook.granted (b : EffectBook) (id : Digest) (row : EffectRow) (claim : EffectClaim)
    (now : Int) : EffectBook :=
  { b with
    table := b.table.insert id
      { row with state := .leased claim.token claim.leaseUntil, attempt := row.attempt + 1 }
    spans := b.spans ++ [⟨id, (row.attempt + 1, claim.token), now, claim.leaseUntil⟩]
    claims := b.claims ++ [claim] }

/-- One statement. -/
inductive EffectStep (scope : EffectScope) (now : Int) : EffectBook → EffectBook → Prop where
  | emit {b : EffectBook} {intent : EffectIntent}
      (free : b.table.get? (scope.id b.sequence b.ordinal) = none)
      (place : b.sequence ≤ i64Max ∧ b.ordinal < maxEffectsPerCommand) :
      EffectStep scope now b { b with
        table := b.table.insert (scope.id b.sequence b.ordinal) ⟨intent.destination,
          intent.operation, .ready, 0, now, intent.expiresAt, b.sequence, none⟩
        ordinal := b.ordinal + 1
        produced := b.produced ++ [⟨scope.id b.sequence b.ordinal, b.sequence, b.ordinal, intent⟩] }
  | claim {b : EffectBook} {id : Digest} {row : EffectRow} {token : LeaseToken} {leaseUntil : Int}
      (row_eq : b.table.get? id = some row) (ready : row.state = .ready)
      (attempt : row.attempt < maxAttempts) (deadline : leaseUntil ≤ row.expiresAt) :
      EffectStep scope now b (b.granted id row (row.claim scope.hash id token leaseUntil) now)
  | settle {b : EffectBook} {id : Digest} {row : EffectRow} {token : LeaseToken}
      {leaseUntil due : Int} {state : EffectState} {result : Option Bytes}
      (row_eq : b.table.get? id = some row) (leased : row.state = .leased token leaseUntil)
      (live : now < leaseUntil) (free : state.free) :
      EffectStep scope now b { b with
        table := b.table.insert id { row.withState state due with result := result }
        spans := Lease.restop b.spans id (row.attempt, token) now }
  | extend {b : EffectBook} {id : Digest} {row : EffectRow} {token : LeaseToken}
      {leaseUntil leaseUntil' : Int} (row_eq : b.table.get? id = some row)
      (leased : row.state = .leased token leaseUntil) (live : now < leaseUntil)
      (longer : leaseUntil ≤ leaseUntil') (deadline : leaseUntil' ≤ max leaseUntil row.expiresAt) :
      EffectStep scope now b { b with
        table := b.table.insert id { row with state := .leased token leaseUntil' }
        spans := Lease.restop b.spans id (row.attempt, token) leaseUntil' }
  | reclaim {b : EffectBook} {id : Digest} {row : EffectRow} {due : Int} {state : EffectState}
      (row_eq : b.table.get? id = some row) (lapsed : row.lapsed now = true) (free : state.free) :
      EffectStep scope now b { b with table := b.table.insert id (row.withState state due) }
  | expire {b : EffectBook} {id : Digest} {row : EffectRow} (row_eq : b.table.get? id = some row)
      (ready : row.state = .ready) :
      EffectStep scope now b { b with table := b.table.insert id { row with state := .failed } }
  | delete {b : EffectBook} {keys : List Digest}
      (settled : ∀ id ∈ keys, ∀ row, b.table.get? id = some row → row.settled) :
      EffectStep scope now b { b with table := b.table.deleteKeys keys }

/-- The book after an effect was produced. -/
def EffectBook.emitted (b : EffectBook) (scope : EffectScope) (now : Int) (intent : EffectIntent) :
    EffectBook :=
  { b with
    table := b.table.insert (scope.id b.sequence b.ordinal) ⟨intent.destination,
      intent.operation, .ready, 0, now, intent.expiresAt, b.sequence, none⟩
    ordinal := b.ordinal + 1
    produced := b.produced ++ [⟨scope.id b.sequence b.ordinal, b.sequence, b.ordinal, intent⟩] }

/-- The statements of an operation. -/
abbrev EffectSteps (scope : EffectScope) (now : Int) : EffectBook → EffectBook → Prop :=
  Relation.ReflTransGen (EffectStep scope now)

/-! ## The invariant of a book -/

/-- A claim is of an effect as it was produced. -/
def EffectRecord.Claims (scope : EffectScope) (r : EffectRecord) (c : EffectClaim) : Prop :=
  c.effectId = r.id ∧ c.destination = r.intent.destination ∧ c.expiresAt = r.intent.expiresAt ∧
    c.operationDigest = effectOperationDigest scope.hash r.intent.destination r.id
      r.intent.operation

/-- How the table stands for what was produced and claimed. -/
structure EffectInv (scope : EffectScope) (clock : Int) (b : EffectBook) : Prop where
  apart : Lease.Apart clock b.table.held b.spans
  attempt : ∀ id row, b.table.get? id = some row → row.attempt ≤ maxAttempts
  deadline : ∀ id row token leaseUntil, b.table.get? id = some row →
    row.state = .leased token leaseUntil → leaseUntil ≤ row.expiresAt
  record : ∀ id row, b.table.get? id = some row → ∃ r ∈ b.produced, r.id = id ∧
    r.intent = ⟨row.destination, row.operation, row.expiresAt⟩
  used : ∀ s ∈ b.spans, (∃ r ∈ b.produced, r.id = s.key) ∧
    ∀ row, b.table.get? s.key = some row → s.lease.1 ≤ row.attempt
  place : ∀ r ∈ b.produced, r.id = scope.id r.sequence r.ordinal ∧ r.sequence ≤ i64Max ∧
    r.ordinal < maxEffectsPerCommand
  past : ∀ r ∈ b.produced, r.sequence < b.sequence ∨ r.sequence = b.sequence ∧ r.ordinal < b.ordinal
  once : (b.produced.map (·.id)).Nodup
  claimed : ∀ c ∈ b.claims, c.attempt ≤ maxAttempts ∧ ∃ r ∈ b.produced, r.Claims scope c

/-- A row that is written changes the lease of its effect alone. -/
theorem EffectTable.held_insert (table : EffectTable) (id : Digest) (row : EffectRow) :
    EffectTable.held (table.insert id row) = Function.update table.held id row.lease := by
  funext id'
  unfold EffectTable.held
  rw [get?_insert, Function.update_apply]
  split <;> rfl

variable {id : Digest} {row : EffectRow} {now clock : Int} {scope : EffectScope} {b b' : EffectBook}

/-- The lease of an effect is that of its row. -/
theorem EffectTable.held_of_row {table : EffectTable} (h : table.get? id = some row) :
    table.held id = row.lease := by
  unfold EffectTable.held
  rw [h]
  rfl

/-- A free row has no lease. -/
theorem EffectRow.lease_of_free (h : row.state.free) : row.lease = none := by
  unfold EffectRow.lease
  split
  · next hstate =>
    rw [hstate] at h
    cases h
  · rfl

/-- A leased row has its attempt, token and deadline. -/
theorem EffectRow.lease_of_leased {leaseUntil : Int} (h : row.state = .leased token leaseUntil) :
    row.lease = some ((row.attempt, token), leaseUntil) := by
  unfold EffectRow.lease
  rw [h]

namespace EffectInv

variable {scope : EffectScope} {clock now : Int} {b : EffectBook} {id : Digest}
  {row row' : EffectRow}

/-- Every row is of an effect that was produced. -/
theorem recorded (h : EffectInv scope clock b) (id : Digest) (row : EffectRow)
    (hrow : b.table.get? id = some row) : ∃ r ∈ b.produced, r.id = id := by
  obtain ⟨r, hr, hid, -⟩ := h.record id row hrow
  exact ⟨r, hr, hid⟩

/-- A row is written over: what is left to show is that the leases stay apart. -/
theorem write (h : EffectInv scope clock b) (hrow : b.table.get? id = some row)
    (hintent : row'.destination = row.destination ∧ row'.operation = row.operation ∧
      row'.expiresAt = row.expiresAt)
    (hattempt : row.attempt ≤ row'.attempt ∧ row'.attempt ≤ maxAttempts)
    (hdeadline : ∀ token leaseUntil, row'.state = .leased token leaseUntil →
      leaseUntil ≤ row.expiresAt)
    (hspans : ∀ s ∈ spans, (∃ s' ∈ b.spans, s'.key = s.key ∧ s'.lease = s.lease) ∨
      s.key = id ∧ s.lease.1 ≤ row'.attempt)
    (hapart : Lease.Apart now (EffectTable.held (b.table.insert id row')) spans)
    (hclaims : ∀ c ∈ claims, c.attempt ≤ maxAttempts ∧ ∃ r ∈ b.produced, r.Claims scope c) :
    EffectInv scope now
      { b with table := b.table.insert id row', spans := spans, claims := claims } := by
  refine ⟨hapart, ?_, ?_, ?_, ?_, h.place, h.past, h.once, hclaims⟩
  · intro id' stored hstored
    rcases get?_insert_cases hstored with ⟨-, rfl⟩ | ⟨-, hstored⟩
    · exact hattempt.2
    · exact h.attempt id' stored hstored
  · intro id' stored token leaseUntil hstored hstate
    rcases get?_insert_cases hstored with ⟨-, rfl⟩ | ⟨-, hstored⟩
    · rw [hintent.2.2]
      exact hdeadline token leaseUntil hstate
    · exact h.deadline id' stored token leaseUntil hstored hstate
  · intro id' stored hstored
    rcases get?_insert_cases hstored with ⟨rfl, rfl⟩ | ⟨-, hstored⟩
    · obtain ⟨r, hr, hid, hr'⟩ := h.record id' row hrow
      exact ⟨r, hr, hid, by rw [hr', hintent.1, hintent.2.1, hintent.2.2]⟩
    · exact h.record id' stored hstored
  · intro s hs
    rcases hspans s hs with ⟨s', hs', hkey, hlease⟩ | ⟨hkey, hle⟩
    · obtain ⟨hproduced, hused⟩ := h.used s' hs'
      rw [← hkey, ← hlease]
      refine ⟨hproduced, fun stored hstored => ?_⟩
      rcases get?_insert_cases hstored with ⟨hid, rfl⟩ | ⟨-, hstored⟩
      · exact (hused row (hid ▸ hrow)).trans hattempt.1
      · exact hused stored hstored
    · rw [hkey]
      refine ⟨?_, fun stored hstored => ?_⟩
      · exact h.recorded id row hrow
      · rw [get?_insert_self] at hstored
        rw [← some.inj hstored]
        exact hle

/-- The spans of a restop are those before, with another end. -/
theorem mem_restop
    {s : Lease.Span Digest (Nat × LeaseToken)} (hs : s ∈ Lease.restop spans id l stop) :
    ∃ s' ∈ spans, s'.key = s.key ∧ s'.lease = s.lease := by
  obtain ⟨s', hs', rfl⟩ := mem_map.1 hs
  refine ⟨s', hs', ?_⟩
  split <;> exact ⟨rfl, rfl⟩

/-- The lease that the table has for a leased row. -/
theorem held_leased {leaseUntil : Int} (hrow : b.table.get? id = some row)
    (hleased : row.state = .leased token leaseUntil) :
    b.table.held id = some ((row.attempt, token), leaseUntil) := by
  rw [EffectTable.held_of_row hrow, lease_of_leased hleased]

/-- The identity at the next place has not been given. -/
theorem next_unused (h : EffectInv scope clock b) (hfree : scope.CollisionFree)
    (hplace : b.sequence ≤ i64Max ∧ b.ordinal < maxEffectsPerCommand) :
    ∀ r ∈ b.produced, r.id ≠ scope.id b.sequence b.ordinal := by
  intro r hr hid
  obtain ⟨hplaced, hsequence, hordinal⟩ := h.place r hr
  obtain ⟨hs, ho⟩ := hfree _ _ _ _ hsequence hplace.1 hordinal hplace.2 (hplaced.symm.trans hid)
  rcases h.past r hr with hlt | ⟨-, hlt⟩ <;> omega

/-- An effect is produced at the next place. -/
theorem emit (h : EffectInv scope clock b) (hfree : scope.CollisionFree) (hclock : clock ≤ now)
    (hnone : b.table.get? (scope.id b.sequence b.ordinal) = none)
    (hplace : b.sequence ≤ i64Max ∧ b.ordinal < maxEffectsPerCommand) :
    EffectInv scope now (b.emitted scope now intent) := by
  have hnew := h.next_unused hfree hplace
  unfold EffectBook.emitted
  refine ⟨?_, ?_, ?_, ?_, ?_, ?_, ?_, ?_, ?_⟩
  · dsimp only
    rw [EffectTable.held_insert]
    refine h.apart.lapse hclock fun l stop hheld => ?_
    unfold EffectTable.held at hheld
    rw [hnone] at hheld
    cases hheld
  · intro id' stored hstored
    rcases get?_insert_cases hstored with ⟨-, rfl⟩ | ⟨-, hstored⟩
    · exact Nat.zero_le _
    · exact h.attempt id' stored hstored
  · intro id' stored token leaseUntil hstored hstate
    rcases get?_insert_cases hstored with ⟨-, rfl⟩ | ⟨-, hstored⟩
    · cases hstate
    · exact h.deadline id' stored token leaseUntil hstored hstate
  · intro id' stored hstored
    rcases get?_insert_cases hstored with ⟨rfl, rfl⟩ | ⟨-, hstored⟩
    · exact ⟨_, mem_append_right _ (mem_singleton_self _), rfl, rfl⟩
    · obtain ⟨r, hr, hparts⟩ := h.record id' stored hstored
      exact ⟨r, mem_append_left _ hr, hparts⟩
  · intro s hs
    obtain ⟨⟨r, hr, hid⟩, hused⟩ := h.used s hs
    refine ⟨⟨r, mem_append_left _ hr, hid⟩, fun stored hstored => ?_⟩
    rcases get?_insert_cases hstored with ⟨hkey, -⟩ | ⟨-, hstored⟩
    · exact absurd (hid.trans hkey) (hnew r hr)
    · exact hused stored hstored
  · exact forall_mem_append.2 ⟨h.place, forall_mem_singleton.2 ⟨rfl, hplace⟩⟩
  · refine forall_mem_append.2 ⟨fun r hr => ?_, forall_mem_singleton.2
      (.inr ⟨rfl, Nat.lt_succ_self _⟩)⟩
    exact (h.past r hr).imp_right fun ⟨hs, ho⟩ => ⟨hs, ho.trans (Nat.lt_succ_self _)⟩
  · rw [map_append, map_singleton, nodup_append]
    refine ⟨h.once, nodup_singleton _, ?_⟩
    intro id' hid' id'' hid''
    obtain ⟨r, hr, rfl⟩ := mem_map.1 hid'
    rw [mem_singleton.1 hid'']
    exact hnew r hr
  · intro c hc
    obtain ⟨hattempt, r, hr, hclaims⟩ := h.claimed c hc
    exact ⟨hattempt, r, mem_append_left _ hr, hclaims⟩

/-- Settled effects are deleted. -/
theorem delete (h : EffectInv scope clock b) (hclock : clock ≤ now) {keys : List Digest}
    (hsettled : ∀ id ∈ keys, ∀ row, b.table.get? id = some row → row.settled) :
    EffectInv scope now { b with table := b.table.deleteKeys keys } := by
  refine ⟨?_, ?_, ?_, ?_, ?_, h.place, h.past, h.once, h.claimed⟩
  · have hheld : EffectTable.held (b.table.deleteKeys keys) = b.table.held := by
      funext id'
      unfold EffectTable.held
      rw [get?_deleteKeys]
      split
      · next hid =>
        rcases hrow : b.table.get? id' with _ | row
        · rfl
        · have hstate : row.state.free := by
            rcases hsettled id' hid row hrow with hstate | hstate <;> rw [hstate] <;> trivial
          exact (lease_of_free hstate).symm
      · rfl
    exact hheld ▸ h.apart.later hclock
  · exact fun id' stored hstored => h.attempt id' stored (get?_of_deleteKeys hstored)
  · exact fun id' stored token leaseUntil hstored =>
      h.deadline id' stored token leaseUntil (get?_of_deleteKeys hstored)
  · exact fun id' stored hstored => h.record id' stored (get?_of_deleteKeys hstored)
  · exact fun s hs => ⟨(h.used s hs).1, fun stored hstored =>
      (h.used s hs).2 stored (get?_of_deleteKeys hstored)⟩

end EffectInv

/-- The lease of a lapsed row is over. -/
theorem EffectRow.lapsed_lease (h : row.lapsed now = true)
    (hlease : row.lease = some (l, stop)) : stop ≤ now := by
  unfold EffectRow.lapsed EffectRow.leaseUntil at h
  unfold EffectRow.lease at hlease
  split at hlease
  · next hstate =>
    rw [hstate] at h
    rw [← (Prod.mk.inj (some.inj hlease)).2]
    simpa using h
  · cases hlease

/-- A free state is not leased. -/
theorem EffectState.free_ne_leased {state : EffectState} (h : state.free) (token : LeaseToken)
    (leaseUntil : Int) : state ≠ .leased token leaseUntil := by
  rintro rfl
  exact h

/-- Every step keeps the invariant. -/
theorem EffectStep.inv (hfree : scope.CollisionFree) (hstep : EffectStep scope now b b')
    (hclock : clock ≤ now) (h : EffectInv scope clock b) : EffectInv scope now b' := by
  have hkept : ∀ s ∈ b.spans, (∃ s' ∈ b.spans, s'.key = s.key ∧ s'.lease = s.lease) :=
    fun s hs => ⟨s, hs, rfl, rfl⟩
  cases hstep with
  | @emit intent hnone hplace => exact h.emit hfree hclock hnone hplace
  | @claim id row token leaseUntil hrow hready hattempt hdeadline =>
    refine h.write hrow ?_ ?_ ?_ ?_ ?_ ?_
    · exact ⟨rfl, rfl, rfl⟩
    · exact ⟨Nat.le_succ _, hattempt⟩
    · intro token' leaseUntil' hstate
      obtain ⟨-, rfl⟩ := EffectState.leased.inj hstate
      exact hdeadline
    · exact forall_mem_append.2 ⟨fun s hs => .inl (hkept s hs),
        forall_mem_singleton.2 (.inr ⟨rfl, le_rfl⟩)⟩
    · rw [EffectTable.held_insert]
      refine h.apart.grant hclock ?_ ?_
      · rw [EffectTable.held_of_row hrow]
        exact lease_of_free (by rw [hready]; trivial)
      · intro s hs hkey hlease
        have hle := (h.used s hs).2 row (hkey ▸ hrow)
        rw [hlease] at hle
        exact absurd hle (Nat.not_succ_le_self _)
    · refine forall_mem_append.2 ⟨h.claimed, forall_mem_singleton.2 ?_⟩
      obtain ⟨r, hr, hid, hintent⟩ := h.record id row hrow
      refine ⟨hattempt, r, hr, hid.symm, ?_, ?_, ?_⟩
      · rw [hintent]
        rfl
      · rw [hintent]
        rfl
      · rw [hintent, hid]
        rfl
  | @settle id row token leaseUntil due state result hrow hleased hlive hstate =>
    refine h.write hrow ?_ ?_ ?_ (fun s hs => .inl (EffectInv.mem_restop hs)) ?_ h.claimed
    · exact ⟨rfl, rfl, rfl⟩
    · exact ⟨le_rfl, h.attempt id row hrow⟩
    · exact fun _ _ hstate' => absurd hstate' (EffectState.free_ne_leased hstate _ _)
    · rw [EffectTable.held_insert]
      exact h.apart.move hclock (EffectInv.held_leased hrow hleased) hlive
        (.inr ⟨lease_of_free hstate, rfl⟩)
  | @extend id row token leaseUntil leaseUntil' hrow hleased hlive hlonger hdeadline =>
    refine h.write hrow ?_ ?_ ?_ (fun s hs => .inl (EffectInv.mem_restop hs)) ?_ h.claimed
    · exact ⟨rfl, rfl, rfl⟩
    · exact ⟨le_rfl, h.attempt id row hrow⟩
    · intro token' deadline' hstate'
      obtain ⟨-, rfl⟩ := EffectState.leased.inj hstate'
      exact hdeadline.trans (max_le (h.deadline id row token leaseUntil hrow hleased) le_rfl)
    · rw [EffectTable.held_insert]
      exact h.apart.move hclock (EffectInv.held_leased hrow hleased) hlive (.inl rfl)
  | @reclaim id row due state hrow hlapsed hstate =>
    refine h.write hrow ?_ ?_ ?_ (fun s hs => .inl (hkept s hs)) ?_ h.claimed
    · exact ⟨rfl, rfl, rfl⟩
    · exact ⟨le_rfl, h.attempt id row hrow⟩
    · exact fun _ _ hstate' => absurd hstate' (EffectState.free_ne_leased hstate _ _)
    · rw [EffectTable.held_insert, lease_of_free hstate]
      refine h.apart.lapse hclock fun l stop hheld => ?_
      rw [EffectTable.held_of_row hrow] at hheld
      exact lapsed_lease hlapsed hheld
  | @expire id row hrow hready =>
    refine h.write hrow ?_ ?_ ?_ (fun s hs => .inl (hkept s hs)) ?_ h.claimed
    · exact ⟨rfl, rfl, rfl⟩
    · exact ⟨le_rfl, h.attempt id row hrow⟩
    · exact nofun
    · rw [EffectTable.held_insert]
      refine h.apart.lapse hclock fun l stop hheld => ?_
      rw [EffectTable.held_of_row hrow, lease_of_free (by rw [hready]; trivial)] at hheld
      cases hheld
  | @delete keys hsettled => exact h.delete hclock hsettled

/-- Steps keep the invariant. -/
theorem EffectSteps.inv (hfree : scope.CollisionFree) (hsteps : EffectSteps scope now b b')
    (hclock : clock ≤ now) (h : EffectInv scope clock b) : EffectInv scope now b' := by
  have hnow : EffectInv scope now b :=
    ⟨h.apart.later hclock, h.attempt, h.deadline, h.record, h.used, h.place, h.past,
      h.once, h.claimed⟩
  induction hsteps with
  | refl => exact hnow
  | tail _ hstep ih => exact hstep.inv hfree le_rfl ih

/-! ## Settled effects -/

/-- What is settled stays as it is until it is deleted, what was deleted does not come back, and the
history only grows. -/
structure EffectKept (b b' : EffectBook) : Prop where
  produced : ∀ r ∈ b.produced, r ∈ b'.produced
  claims : ∀ c ∈ b.claims, c ∈ b'.claims
  settled : ∀ id row, b.table.get? id = some row → row.settled →
    b'.table.get? id = some row ∨ b'.table.get? id = none
  gone : ∀ r ∈ b.produced, b.table.get? r.id = none → b'.table.get? r.id = none

/-- An unchanged book keeps everything. -/
theorem EffectKept.refl (b : EffectBook) : EffectKept b b :=
  ⟨fun _ h => h, fun _ h => h, fun _ _ h _ => .inl h, fun _ _ h => h⟩

/-- What is kept twice is kept: a deleted effect was produced, so it does not come back. -/
theorem EffectKept.trans (h : EffectKept b₁ b₂)
    (hrecord : ∀ id row, b₁.table.get? id = some row → ∃ r ∈ b₁.produced, r.id = id)
    (h' : EffectKept b₂ b₃) : EffectKept b₁ b₃ where
  produced r hr := h'.produced r (h.produced r hr)
  claims c hc := h'.claims c (h.claims c hc)
  settled id row hrow hsettled := by
    rcases h.settled id row hrow hsettled with hsame | hnone
    · exact h'.settled id row hsame hsettled
    · obtain ⟨r, hr, rfl⟩ := hrecord id row hrow
      exact .inr (h'.gone r (h.produced r hr) hnone)
  gone r hr hnone := h'.gone r (h.produced r hr) (h.gone r hr hnone)

/-- A row that is not settled is written over. -/
theorem EffectKept.write (hrow : b.table.get? id = some row)
    (hopen : ¬row.settled) (spans : List (Lease.Span Digest (Nat × LeaseToken)))
    {claims : List EffectClaim} (hclaims : ∀ c ∈ b.claims, c ∈ claims) :
    EffectKept b
      { b with table := b.table.insert id row', spans := spans, claims := claims } where
  produced _ hr := hr
  claims := hclaims
  settled id' stored hstored hsettled := by
    have hid : id' ≠ id := by
      rintro rfl
      obtain rfl := some.inj (hrow.symm.trans hstored)
      exact hopen hsettled
    left
    exact (get?_insert_of_ne _ hid _).trans hstored
  gone r _ hnone := by
    have hid : r.id ≠ id := by
      rintro rfl
      cases hnone.symm.trans hrow
    exact (get?_insert_of_ne _ hid _).trans hnone

/-- A leased effect is not settled. -/
theorem EffectRow.not_settled_of_leased {leaseUntil : Int}
    (h : row.state = .leased token leaseUntil) : ¬row.settled := by
  rintro (hstate | hstate) <;> cases h.symm.trans hstate

/-- A ready effect is not settled. -/
theorem EffectRow.not_settled_of_ready (h : row.state = .ready) : ¬row.settled := by
  rintro (hstate | hstate) <;> cases h.symm.trans hstate

/-- A lapsed row is leased. -/
theorem EffectRow.leased_of_lapsed (h : row.lapsed now = true) :
    ∃ token leaseUntil, row.state = .leased token leaseUntil := by
  unfold EffectRow.lapsed EffectRow.leaseUntil at h
  split at h
  · next token leaseUntil hstate => exact ⟨token, leaseUntil, hstate⟩
  · cases h

/-- Every step keeps what is settled. -/
theorem EffectStep.kept (hfree : scope.CollisionFree) (hstep : EffectStep scope now b b')
    (h : EffectInv scope clock b) : EffectKept b b' := by
  cases hstep with
  | @emit intent hnone hplace =>
    refine ⟨fun r hr => mem_append_left _ hr, fun _ hc => hc, fun id row hrow _ => .inl ?_,
      fun r hr hgone => ?_⟩
    · have hid : id ≠ scope.id b.sequence b.ordinal := by
        rintro rfl
        cases hnone.symm.trans hrow
      exact (get?_insert_of_ne _ hid _).trans hrow
    · exact (get?_insert_of_ne _ (h.next_unused hfree hplace r hr) _).trans hgone
  | claim hrow hready =>
    exact .write hrow (not_settled_of_ready hready) _ fun _ hc => mem_append_left _ hc
  | settle hrow hleased =>
    exact .write hrow (not_settled_of_leased hleased) _ fun _ hc => hc
  | extend hrow hleased =>
    exact .write hrow (not_settled_of_leased hleased) _ fun _ hc => hc
  | reclaim hrow hlapsed =>
    obtain ⟨token, leaseUntil, hleased⟩ := leased_of_lapsed hlapsed
    exact .write hrow (not_settled_of_leased hleased) _ fun _ hc => hc
  | expire hrow hready =>
    exact .write hrow (not_settled_of_ready hready) _ fun _ hc => hc
  | @delete keys hsettled =>
    refine ⟨fun _ hr => hr, fun _ hc => hc, fun id row hrow _ => ?_, fun r _ hnone => ?_⟩
    · show (b.table.deleteKeys keys).get? id = some row ∨ (b.table.deleteKeys keys).get? id = none
      rw [get?_deleteKeys]
      split
      · exact .inr rfl
      · exact .inl hrow
    · show (b.table.deleteKeys keys).get? r.id = none
      rw [get?_deleteKeys, hnone, ite_self]

/-- Steps keep what is settled. -/
theorem EffectSteps.kept (hfree : scope.CollisionFree) (hsteps : EffectSteps scope now b b')
    (hclock : clock ≤ now) (h : EffectInv scope clock b) : EffectKept b b' := by
  induction hsteps with
  | refl => exact .refl b
  | tail hsteps hstep ih =>
    exact ih.trans h.recorded (hstep.kept hfree (EffectSteps.inv hfree hsteps hclock h))

/-! ## The history -/

/-- Every claim that was handed out has its span, and every span its claim. -/
def EffectBook.Paired (b : EffectBook) : Prop :=
  b.spans.map (fun s => (s.key, s.lease)) = b.claims.map fun c => (c.effectId, c.attempt, c.token)

/-- A new deadline changes no holder. -/
theorem EffectBook.map_restop (spans : List (Lease.Span Digest (Nat × LeaseToken))) (id : Digest)
    (l : Nat × LeaseToken) (stop : Int) :
    (Lease.restop spans id l stop).map (fun s => (s.key, s.lease))
      = spans.map fun s => (s.key, s.lease) := by
  unfold Lease.restop
  rw [List.map_map]
  refine map_congr_left fun s _ => ?_
  rw [Function.comp_apply]
  split <;> rfl

/-- The steps stay in their commit and pair claims with spans. -/
theorem EffectStep.history (hstep : EffectStep scope now b b') :
    b'.sequence = b.sequence ∧ (b.Paired → b'.Paired) := by
  unfold EffectBook.Paired
  cases hstep with
  | claim =>
    refine ⟨rfl, fun h => ?_⟩
    unfold EffectBook.granted
    rw [map_append, map_append, h]
    rfl
  | settle | extend => exact ⟨rfl, (EffectBook.map_restop _ _ _ _).trans⟩
  | emit | reclaim | expire | delete => exact ⟨rfl, fun h => h⟩

/-- Steps keep the sequence and the pairing of attempts with leases. -/
theorem EffectSteps.history (hsteps : EffectSteps scope now b b') :
    b'.sequence = b.sequence ∧ (b.Paired → b'.Paired) := by
  induction hsteps with
  | refl => exact ⟨rfl, fun h => h⟩
  | tail _ hstep ih =>
    exact ⟨hstep.history.1.trans ih.1, fun h => hstep.history.2 (ih.2 h)⟩

/-! ## Maintenance -/

section
variable (scope : EffectScope) {now : Int} {b : EffectBook}

/-- The book with another table. -/
def EffectBook.withTable (b : EffectBook) (table : EffectTable) : EffectBook :=
  { b with table := table }

/-- An effect that was not delivered has failed or waits. -/
theorem undelivered_cases (attempt : Nat) (due expiresAt : Int) :
    undelivered attempt due expiresAt = .failed ∨ undelivered attempt due expiresAt = .ready := by
  unfold undelivered
  split
  · exact .inl rfl
  · exact .inr rfl

/-- An effect that was not delivered is free. -/
theorem undelivered_free (attempt : Nat) (due expiresAt : Int) :
    (undelivered attempt due expiresAt).free := by
  rcases undelivered_cases attempt due expiresAt with h | h <;> rw [h] <;> trivial

/-- Reclaiming lapsed leases makes steps. -/
theorem effectReclaimExpiredBounded_ends (limit : Nat) :
    (effectReclaimExpiredBounded now limit).Ends b.table
      (fun _ table => EffectSteps scope now b (b.withTable table)) (fun _ => True) := by
  unfold effectReclaimExpiredBounded
  refine .lift_bind (fun _ _ => ?_) trivial
  refine .lift_bind (fun _ _ => ?_) trivial
  rw [ends_bind, ends_look, ends_bind]
  refine (Ends.forM (I := fun _ table => EffectSteps scope now b (b.withTable table))
    ?_ .refl).mono (fun _ table hsteps => ends_pure.2 hsteps) fun _ h => h
  intro done e table _ hsteps
  unfold reclaimEffect
  rw [ends_bind]
  refine ends_update (fun row hrow hlapsed => ?_) fun _ => ends_pure.2 hsteps
  exact ends_pure.2 (hsteps.tail (.reclaim hrow hlapsed (undelivered_free _ _ _)))

/-- Expiring ready effects makes steps. -/
theorem effectExpireReadyBounded_ends (limit : Nat) :
    (effectExpireReadyBounded now limit).Ends b.table
      (fun _ table => EffectSteps scope now b (b.withTable table)) (fun _ => True) := by
  unfold effectExpireReadyBounded
  refine .lift_bind (fun _ _ => ?_) trivial
  refine .lift_bind (fun _ _ => ?_) trivial
  rw [ends_bind, ends_look, ends_bind]
  refine (ends_forM_rows (T := id) (I := fun table => EffectSteps scope now b (b.withTable table))
    (nodup_select _ _ _ _) (fun e he table hsteps hrow => ?_) .refl
    fun e he => (mem_of_mem_select he).1).mono (fun _ _ hsteps => ends_pure.2 hsteps) fun _ h => h
  have hready : e.2.state = .ready := by
    have hexhausted := (mem_of_mem_select he).2
    unfold exhausted at hexhausted
    simp only [Bool.and_eq_true, beq_iff_eq] at hexhausted
    exact hexhausted.1
  unfold expireEffect
  rw [ends_bind]
  refine ends_update (fun row hrow' _ => ?_) fun hnone => ?_
  · obtain rfl := some.inj (hrow.symm.trans hrow')
    exact ends_pure.2 ⟨hsteps.tail (.expire hrow hready), fun k hk => get?_insert_of_ne _ hk _⟩
  · cases hnone e.2 hrow

/-- Deleting settled effects makes steps. -/
theorem effectCleanupTerminalBounded_ends (limit : Nat) :
    (effectCleanupTerminalBounded now limit).Ends b.table
      (fun _ table => EffectSteps scope now b (b.withTable table)) (fun _ => True) := by
  unfold effectCleanupTerminalBounded
  refine .lift_bind (fun _ _ => ?_) trivial
  refine .lift_bind (fun _ _ => ?_) trivial
  rw [ends_bind, ends_look, ends_bind, ends_change]
  refine ends_pure.2 (.single (.delete fun id hid row hrow => ?_))
  obtain ⟨e, he, rfl⟩ := mem_map.1 hid
  obtain ⟨hrow', hdisposable⟩ := mem_of_mem_select he
  obtain rfl := some.inj (hrow.symm.trans hrow')
  unfold disposable at hdisposable
  simp only [Bool.and_eq_true, Bool.or_eq_true, beq_iff_eq] at hdisposable
  exact hdisposable.1

/-! ## Leases -/

/-- The book after claims were handed out. -/
def EffectBook.handOut (b : EffectBook) (now : Int) (table : EffectTable)
    (claims : List EffectClaim) :
    EffectBook :=
  { b with
    table := table
    spans := b.spans ++ claims.map fun c => ⟨c.effectId, (c.attempt, c.token), now, c.leaseUntil⟩
    claims := b.claims ++ claims }

/-- One more claim. -/
theorem EffectBook.handOut_granted (b : EffectBook) (now : Int) (table : EffectTable)
    (claims : List EffectClaim) (hash : Hash) (id : Digest) (row : EffectRow)
    (token : LeaseToken) (leaseUntil : Int) :
    (b.handOut now table claims).granted id row (row.claim hash id token leaseUntil) now
      = b.handOut now (table.insert id
          { row with state := .leased token leaseUntil, attempt := row.attempt + 1 })
        (claims ++ [row.claim hash id token leaseUntil]) := by
  simp [EffectBook.handOut, EffectBook.granted, claim]

/-- The loop grants leases on candidates that stand in the table as they were selected. -/
theorem claimEffects_ends (deadline : Int) (limit : Nat) (tokens : Nat → Result LeaseToken)
    (hsame : ∀ e ∈ candidates, table.get? e.1 = some e.2) (hkeys : (candidates.map (·.1)).Nodup)
    (hopen : ∀ e ∈ candidates, e.2.state = .ready ∧ e.2.attempt < maxAttempts)
    (hsteps : EffectSteps scope now b (b.handOut now table claimed)) :
    (claimEffects scope.hash now deadline limit tokens candidates bytes claimed).Ends table
      (fun claims table => EffectSteps scope now b (b.handOut now table claims))
        (fun _ => True) := by
  induction candidates generalizing bytes claimed table with
  | nil => exact ends_pure.2 hsteps
  | cons e rest ih =>
    obtain ⟨id, row⟩ := e
    obtain ⟨hrow, hrest⟩ := forall_mem_cons.1 hsame
    obtain ⟨⟨hready, hattempt⟩, hopen⟩ := forall_mem_cons.1 hopen
    rw [map_cons, nodup_cons] at hkeys
    unfold claimEffects
    split
    · exact ends_pure.2 hsteps
    refine .reject_bind (fun _ => trivial) fun _ => ?_
    dsimp only
    split
    · exact ends_pure.2 hsteps
    refine .lift_bind (fun token _ => ?_) trivial
    rw [ends_bind]
    refine ends_update (fun stored hstored _ => ?_) fun _ => trivial
    obtain rfl := some.inj (hrow.symm.trans hstored)
    refine ih (fun e he => ?_) hkeys.2 hopen ?_
    · have hne : e.1 ≠ id := fun h => hkeys.1 (mem_map.2 ⟨e, he, h⟩)
      rw [get?_insert_of_ne _ hne]
      exact hrest e he
    · rw [← EffectBook.handOut_granted]
      exact hsteps.tail (.claim hrow hready hattempt (min_le_right _ _))

/-- A claim makes steps, which hand out its claims. -/
theorem effectClaim_ends (limit leaseMs : Nat) (tokens : Nat → Result LeaseToken) :
    (effectClaim scope.hash now limit leaseMs tokens).Ends b.table
      (fun claims table => EffectSteps scope now b (b.handOut now table claims))
      (fun _ => True) := by
  unfold effectClaim
  refine .lift_bind (fun _ _ => ?_) trivial
  refine .reject_bind (fun _ => trivial) fun _ => ?_
  refine .reject_bind (fun _ => trivial) fun _ => ?_
  rw [ends_bind]
  refine (effectReclaimExpiredBounded_ends scope maxReclaimItems).mono (fun _ table hsteps => ?_)
    fun _ h => h
  refine .look_bind ?_
  dsimp only
  refine .lift_bind (fun deadline _ => ?_) trivial
  refine claimEffects_ends scope deadline limit tokens ?_ (nodup_select _ _ _ _) ?_ ?_
  · exact fun e he => (mem_of_mem_select he).1
  · intro e he
    have hopen := (mem_of_mem_select he).2
    simp only [claimable, Bool.and_eq_true, beq_iff_eq, decide_eq_true_eq] at hopen
    exact ⟨hopen.1.1.1, hopen.2⟩
  · have hbook : b.handOut now table [] = b.withTable table := by
      simp [EffectBook.handOut, EffectBook.withTable]
    rw [hbook]
    exact hsteps

/-- The lease stands in the table: its row is under its attempt and its token, and it is live. -/
def EffectTable.Holds (table : EffectTable) (now : Int) (lease : EffectLease) : Prop :=
  ∃ row leaseUntil, table.get? lease.effectId = some row ∧ row.attempt = lease.attempt ∧
    row.state = .leased lease.token leaseUntil ∧ now < leaseUntil

/-- The book after the answer to a holder. -/
def EffectBook.answered (b : EffectBook) (now : Int) (lease : EffectLease) (table : EffectTable) :
    EffectLeaseOutcome → EffectBook
  | .leaseLost => b.withTable table
  | .extended leaseUntil =>
    { b with
      table := table
      spans := Lease.restop b.spans lease.effectId (lease.attempt, lease.token) leaseUntil }
  | .delivered | .retrying _ | .failed =>
    { b with
      table := table
      spans := Lease.restop b.spans lease.effectId (lease.attempt, lease.token) now }

/-- What a settlement or an extension does: it is refused and nothing changes, or its lease
holds. -/
def EffectBook.Answers (scope : EffectScope) (b : EffectBook) (now : Int) (lease : EffectLease)
    (reply : EffectLeaseOutcome) (table : EffectTable) : Prop :=
  (reply = .leaseLost ∧ table = b.table ∨ reply ≠ .leaseLost ∧ b.table.Holds now lease) ∧
    EffectSteps scope now b (b.answered now lease table reply)

/-- A row that is held has the attempt and a live lease with the token. -/
theorem EffectRow.heldBy_parts {attempt : Nat} (h : row.heldBy now attempt token = true) :
    row.attempt = attempt ∧ ∃ leaseUntil, row.state = .leased token leaseUntil ∧
      now < leaseUntil := by
  unfold heldBy at h
  split at h
  · next stored leaseUntil hstate =>
    simp only [Bool.and_eq_true, beq_iff_eq, decide_eq_true_eq] at h
    exact ⟨h.1.1, leaseUntil, h.1.2 ▸ hstate, h.2⟩
  · cases h

/-- A settlement of a lease that holds, to a state without a lease. -/
theorem applyLease_ends {lease : EffectLease} {state : EffectState} (hfree : state.free)
    (due : Option Int) (result : Option Bytes)
    (happlied : ∀ table, b.table.Holds now lease → EffectSteps scope now b
      { b with table := table
               spans := Lease.restop b.spans lease.effectId (lease.attempt, lease.token) now } →
      post true table)
    (hlost : post false b.table) :
    (applyLease now lease state due result).Ends b.table post (· = b.table) := by
  unfold applyLease
  refine ends_update (fun row hrow hheld => ?_) fun _ => hlost
  simp only [Bool.and_eq_true, beq_iff_eq] at hheld
  obtain ⟨hattempt, leaseUntil, hstate, hlive⟩ := heldBy_parts hheld.1
  refine happlied _ ⟨row, leaseUntil, hrow, hattempt, hstate, hlive⟩ (.single ?_)
  rw [← hattempt]
  exact .settle hrow hstate hlive hfree

/-- An acknowledgement answers its lease. -/
theorem effectAckLease_ends (lease : EffectLease) (result : Bytes) :
    (effectAckLease now lease result).Ends b.table
      (fun reply table => b.Answers scope now lease reply table) (· = b.table) := by
  unfold effectAckLease
  refine .lift_bind (fun _ _ => ?_) rfl
  refine .reject_bind (fun _ => rfl) fun _ => ?_
  rw [ends_bind]
  have hfree : EffectState.delivered.free := trivial
  refine applyLease_ends scope hfree none (some result) (fun table hholds hsteps => ?_) ?_
  · exact ends_pure.2 ⟨.inr ⟨nofun, hholds⟩, hsteps⟩
  · exact ends_pure.2 ⟨.inl ⟨rfl, rfl⟩, .refl⟩

/-- A retry answers its lease. -/
theorem effectRetryLease_ends (lease : EffectLease) :
    (effectRetryLease now lease).Ends b.table
      (fun reply table => b.Answers scope now lease reply table) (· = b.table) := by
  unfold effectRetryLease
  refine .lift_bind (fun _ _ => ?_) rfl
  rw [ends_bind]
  refine applyLease_ends scope (undelivered_free _ _ _) _ none (fun table hholds hsteps => ?_) ?_
  · rw [if_pos rfl]
    rcases undelivered_cases lease.attempt (saturatingAddInt now (retryDelayMs lease.attempt))
      lease.expiresAt with hstate | hstate <;> rw [hstate]
    · exact ends_pure.2 ⟨.inr ⟨nofun, hholds⟩, hsteps⟩
    · exact ends_pure.2 ⟨.inr ⟨nofun, hholds⟩, hsteps⟩
  · exact ends_pure.2 ⟨.inl ⟨rfl, rfl⟩, .refl⟩

/-- An extension answers its lease. -/
theorem effectExtend_ends (claim : EffectClaim) (extensionMs : Nat) :
    (effectExtend now claim extensionMs).Ends b.table
      (fun reply table => b.Answers scope now claim.lease reply table) (· = b.table) := by
  unfold effectExtend
  refine .lift_bind (fun _ _ => ?_) rfl
  refine .reject_bind (fun _ => rfl) fun _ => ?_
  rw [ends_bind, ends_look]
  split
  · exact ends_pure.2 ⟨.inl ⟨rfl, rfl⟩, .refl⟩
  next row hrow =>
  split
  · exact ends_pure.2 ⟨.inl ⟨rfl, rfl⟩, .refl⟩
  next current hcurrent =>
  have hheld : row.heldBy now claim.attempt claim.token = true ∧ row.leaseUntil = some current := by
    unfold heldUntil at hcurrent
    split at hcurrent
    · exact ⟨by assumption, hcurrent⟩
    · cases hcurrent
  obtain ⟨hattempt, leaseUntil, hstate, hlive⟩ := heldBy_parts hheld.1
  have hcur : leaseUntil = current := by
    have := hheld.2
    unfold EffectRow.leaseUntil at this
    rw [hstate] at this
    exact some.inj this
  subst hcur
  unfold extendLease
  refine .lift_bind (fun requested _ => ?_) rfl
  rw [ends_bind]
  refine ends_update (fun stored hstored _ => ?_) fun _ => rfl
  obtain rfl := some.inj (hrow.symm.trans hstored)
  refine ends_pure.2 ⟨.inr ⟨nofun, row, leaseUntil, hrow, hattempt, hstate, hlive⟩, .single ?_⟩
  unfold EffectBook.answered EffectClaim.lease
  dsimp only
  rw [← hattempt]
  exact .extend hrow hstate hlive (le_max_left _ _) (max_le_max le_rfl (min_le_right _ _))

/-! ## Emission -/

/-- The batch allocates from the next place of the book. -/
structure EffectBatch.At (batch : EffectBatch) (scope : EffectScope) (now : Int) (b : EffectBook) :
    Prop where
  cell : batch.source.cellId scope.hash = scope.cell
  incarnation : batch.incarnation = scope.incarnation
  sequence : batch.sequence = b.sequence
  now_eq : batch.now = now
  ordinal : batch.nextOrdinal = b.ordinal

/-- The intention that the next effect of a batch stores. -/
def EffectBatch.intent (hash : Hash) (batch : EffectBatch)
    (intent : EffectCommandIntent) : EffectIntent :=
  ⟨intent.target.cellId hash, batch.operation hash intent, intent.expiresAt⟩

/-- A program on the table, in the store. -/
theorem EffectStore.onTable_ends
    (h : program.Ends store.table (fun a table => post a { store with table := table })
      fun table => failed { store with table := table }) :
    (EffectStore.onTable program).Ends store post failed :=
  .within h

/-- The row of the next place is written, or nothing changes. -/
theorem effectInsert_ends (hunused : b.sequence ≤ i64Max → b.ordinal < maxEffectsPerCommand →
      b.table.get? (scope.id b.sequence b.ordinal) = none)
    (intent : EffectIntent) :
    (effectInsert scope.hash scope.cell scope.incarnation b.sequence b.ordinal now intent).Ends
      b.table
      (fun _ table => table = (b.emitted scope now intent).table ∧
        EffectSteps scope now b (b.emitted scope now intent)) (· = b.table) := by
  unfold effectInsert
  refine .lift_bind (fun _ _ => ?_) rfl
  refine .lift_bind (fun _ _ => ?_) rfl
  refine .reject_bind (fun _ => rfl) fun hplace => ?_
  simp only [Bool.or_eq_false_iff, decide_eq_false_iff_not, not_lt, not_le] at hplace
  have hnone : b.table.get? (scope.id b.sequence b.ordinal) = none := hunused hplace.1.2 hplace.2
  rw [ends_bind, ends_look]
  split
  · next row hrow => cases hnone.symm.trans hrow
  · rw [ends_bind, ends_change]
    exact ends_pure.2 ⟨rfl, .single (.emit hnone ⟨hplace.1.2, hplace.2⟩)⟩

/-- An effect is produced at the next place, or nothing changes. -/
theorem insertCommand_ends (hat : batch.At scope now b)
    (hunused : b.sequence ≤ i64Max → b.ordinal < maxEffectsPerCommand →
      b.table.get? (scope.id b.sequence b.ordinal) = none)
    (intent : EffectCommandIntent) :
    (insertCommand scope.hash intent).Ends ⟨batch, b.table⟩
      (fun _ store => store.table = (b.emitted scope now (batch.intent scope.hash intent)).table ∧
        store.batch.At scope now (b.emitted scope now (batch.intent scope.hash intent)) ∧
        EffectSteps scope now b (b.emitted scope now (batch.intent scope.hash intent)))
      (· = ⟨batch, b.table⟩) := by
  obtain ⟨hcell, hincarnation, hsequence, hnow, hordinal⟩ := hat
  unfold insertCommand
  refine .look_bind ?_
  dsimp only
  refine .reject_bind (fun _ => rfl) fun _ => ?_
  refine .lift_bind (fun _ _ => ?_) rfl
  refine .reject_bind (fun _ => rfl) fun _ => ?_
  refine .reject_bind (fun _ => rfl) fun _ => ?_
  rw [ends_bind, hcell, hincarnation, hsequence, hordinal, hnow]
  refine EffectStore.onTable_ends ((effectInsert_ends scope hunused
    (batch.intent scope.hash intent)).mono (fun _ table h => ?_) fun table h => ?_)
  · obtain ⟨rfl, hsteps⟩ := h
    rw [ends_bind, ends_change]
    exact ends_pure.2 ⟨rfl, ⟨hcell, hincarnation, hsequence, hnow, rfl⟩, hsteps⟩
  · rw [h]

end

end Cellule
