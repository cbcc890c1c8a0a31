import Cellule.Control.Record

/-!
# Chains of accepted control records

A chain is a run of records each of which passed `Control::validate_transition` from the one before
it. Three step lemmas say what a transition does to the published root
(`Control.Step.root_precedes`), to a pinned recovery overlay (`Control.Step.pin`) and to the epoch,
owner and revision (`Control.Step.before`); the run lemmas carry the first two along a chain. That
what a control object held is a chain is shown in `Cellule.Control.Authority`.
-/

namespace Cellule

/-- The records `c 0, …, c n`, each accepted from its predecessor as the transition `k i`. -/
def Control.Chain (c : Nat → Control) (k : Nat → Transition) (n : Nat) : Prop :=
  ∀ i, i < n → (c i).validateTransition (c (i + 1)) (k i) = .ok ()

/-! ## One step -/

variable {c n : Control} {k : Transition}

/-- No transition moves the published root backwards, and none withdraws it. -/
theorem Control.Step.root_precedes (hs : c.Succeeds n) (h : c.Step n k)
    (hp : c.root = some p) : ∃ q, n.root = some q ∧ p.Precedes q := by
  have same (he : n.root = c.root) : ∃ q, n.root = some q ∧ p.Precedes q :=
    ⟨p, he.trans hp, .refl p⟩
  cases k with
  | bindBundle => obtain ⟨-, -, -, -, -, -, he, -⟩ := h; exact same he
  | renew => obtain ⟨-, -, -, he, -⟩ := h; exact same he
  | activate => obtain ⟨-, -, -, -, he, -⟩ := h; exact same he
  | publish | migrate =>
    obtain ⟨-, -, -, -, -, -, hr, -⟩ := h
    obtain ⟨q, hq, hpq⟩ := validRootSuccessor_eq_true.1 hr
    exact ⟨q, hq, hpq p hp⟩
  | release => obtain ⟨-, -, -, -, he, -⟩ := h; exact same he
  | attachRecovery => obtain ⟨-, -, -, -, -, he, -⟩ := h; exact same he
  | publishRecovery =>
    obtain ⟨-, -, -, -, -, -, r, root, hr, hpre, hn, hpos⟩ := h
    -- the overlay ends strictly above the root it supersedes, so the positions never tie
    obtain ⟨-, htx, hcs⟩ := hs.valid.pinned r hr
    rw [hp, Option.some.injEq] at hpre
    subst hpre
    simp only [RootRef.position, Prod.mk.injEq] at hpos
    exact ⟨root, hn, by omega, by omega, fun h => by omega⟩
  | takeover => obtain ⟨-, -, -, -, -, he, -⟩ := h; exact same he
  | tombstone => obtain ⟨-, -, -, -, he, -⟩ := h; exact same he

/-- A pinned overlay survives every transition but the one that publishes it: the pin and its root
are kept, or the new root is at the overlay's end and the pin is cleared. -/
theorem Control.Step.pin (h : c.Step n k) (hr : c.recovery = some r) :
    (n.recovery = some r ∧ n.root = c.root) ∨
      (k = .publishRecovery ∧ n.recovery = none ∧ ∃ root, n.root = some root ∧
        root.position = (r.finalTxid, r.finalChecksum, r.finalCommitSequence)) := by
  have unpinned (hn : c.recovery = none) : False := by rw [hr] at hn; cases hn
  cases k with
  | bindBundle => obtain ⟨-, -, -, -, -, -, he, hrec⟩ := h; exact .inl ⟨hrec.trans hr, he⟩
  | renew => obtain ⟨-, -, -, he, hrec, -⟩ := h; exact .inl ⟨hrec.trans hr, he⟩
  | activate => obtain ⟨-, -, -, -, -, hn, -⟩ := h; exact (unpinned hn).elim
  | publish | migrate => obtain ⟨-, -, -, -, hn, -⟩ := h; exact (unpinned hn).elim
  | release => obtain ⟨-, -, -, -, -, hn, -⟩ := h; exact (unpinned hn).elim
  | attachRecovery => obtain ⟨-, hn, -⟩ := h; exact (unpinned hn).elim
  | publishRecovery =>
    obtain ⟨-, -, -, -, hrec, -, r', root, hr', -, hn, hpos⟩ := h
    rw [hr, Option.some.injEq] at hr'
    subst hr'
    exact .inr ⟨rfl, hrec, root, hn, hpos⟩
  | takeover => obtain ⟨-, -, -, -, -, he, hrec, -⟩ := h; exact .inl ⟨hrec.trans hr, he⟩
  | tombstone => obtain ⟨-, -, -, -, -, hn, -⟩ := h; exact (unpinned hn).elim

/-- `AttachRecovery` pins an overlay of the root it found. -/
theorem Control.Step.attach (h : c.Step n .attachRecovery) :
    ∃ r, n.recovery = some r ∧ n.root = some r.predecessor ∧ c.root = some r.predecessor := by
  obtain ⟨-, -, -, -, -, he, -, r, hr, hroot, -⟩ := h
  exact ⟨r, hr, he.trans hroot, hroot⟩

/-- The transitions that open a new epoch. -/
def Transition.opensEpoch (k : Transition) : Bool := k == .takeover || k == .tombstone

/-- The epoch grows by one on a takeover or a tombstone and stays on every other transition. -/
theorem Control.Step.epoch (h : c.Step n k) :
    n.epoch = c.epoch + if k.opensEpoch then 1 else 0 := by
  cases k with
  | bindBundle => exact h.2.2.2.1
  | renew => exact h.1
  | activate | publish | migrate | release | attachRecovery | publishRecovery => exact h.2.2.1
  | takeover | tombstone => exact h.2.2.1

/-- What `n`, stored some time after `c`, keeps of it: the scope, an epoch that did not go back, a
later revision with as much more progress, the epoch's owner (who may have left) and the
tombstone. -/
structure Control.Before (c n : Control) : Prop where
  cell : n.cell = c.cell
  incarnation : n.incarnation = c.incarnation
  epoch : c.epoch ≤ n.epoch
  revision : c.revision < n.revision
  progress : n.progress + c.revision = c.progress + n.revision
  owner : n.epoch = c.epoch → n.owner = c.owner ∨ n.owner = none
  tombstoned : c.state = .tombstoned → n.state = .tombstoned

theorem Control.Before.trans {a b : Control} (hab : a.Before b) (hbc : b.Before c) :
    a.Before c where
  cell := hbc.cell.trans hab.cell
  incarnation := hbc.incarnation.trans hab.incarnation
  epoch := hab.epoch.trans hbc.epoch
  revision := hab.revision.trans hbc.revision
  progress := by
    have hp := hab.progress
    have hp' := hbc.progress
    omega
  owner h := by
    have he := hab.epoch
    have he' := hbc.epoch
    rcases hbc.owner (by omega) with hb | hb
    · rw [hb]
      exact hab.owner (by omega)
    · exact .inr hb
  tombstoned h := hbc.tombstoned (hab.tombstoned h)

/-- Two records of one epoch that name an owner name the same one. -/
theorem Control.Before.same_owner (h : c.Before n) (he : n.epoch = c.epoch) (hn : n.owner.isSome) :
    n.owner = c.owner := by
  rcases h.owner he with ho | ho
  · exact ho
  · rw [ho] at hn
    cases hn

/-- Every transition goes forward. -/
theorem Control.Step.before (hs : c.Succeeds n) (h : c.Step n k) : c.Before n := by
  have hep := h.epoch
  have hrev := hs.revision
  have hprog := hs.progress
  refine ⟨hs.cell, hs.incarnation, by omega, by omega, by omega, fun he => ?_, fun ht => ?_⟩
  · cases k with
    | bindBundle => obtain ⟨-, -, -, -, -, ho, -⟩ := h; exact .inl ho
    | renew => obtain ⟨-, -, ho, -⟩ := h; exact .inl ho
    | activate => obtain ⟨-, -, -, ho, -⟩ := h; exact .inl ho
    | publish | migrate => obtain ⟨-, -, -, ho, -⟩ := h; exact .inl ho
    | release => obtain ⟨-, -, -, ho, -⟩ := h; exact .inr ho
    | attachRecovery => obtain ⟨-, -, -, -, ho, -⟩ := h; exact .inl ho
    | publishRecovery => obtain ⟨-, -, -, ho, -⟩ := h; exact .inl ho
    | takeover => obtain ⟨-, -, he', -⟩ := h; omega
    | tombstone => obtain ⟨-, -, he', -⟩ := h; omega
  · -- only a renewal accepts a tombstoned record, and it keeps the state
    cases k with
    | bindBundle => obtain ⟨hc, -⟩ := h; rw [ht] at hc; cases hc
    | renew => obtain ⟨-, hst, -⟩ := h; exact hst.trans ht
    | activate => obtain ⟨hc, -⟩ := h; rw [ht] at hc; cases hc
    | publish | migrate | release =>
      obtain ⟨hc, -⟩ := h
      rw [ht] at hc
      rcases hc with hc | hc <;> cases hc
    | attachRecovery | publishRecovery | takeover | tombstone => exact (h.1 ht).elim

/-! ## Whole chains -/

section
variable {c : Nat → Control} {k : Nat → Transition} {n : Nat}

/-- The root of an earlier record of a chain precedes the root of a later one. -/
theorem Control.Chain.root_precedes (h : Control.Chain c k n) (hij : i ≤ j)
    (hj : j ≤ n) (hp : (c i).root = some p) :
    ∃ q, (c j).root = some q ∧ p.Precedes q := by
  induction j, hij using Nat.le_induction with
  | base => exact ⟨p, hp, .refl p⟩
  | succ j hij ih =>
    obtain ⟨q, hq, hpq⟩ := ih (by omega)
    obtain ⟨hs, hstep⟩ := Control.validateTransition_ok (h j (by omega))
    obtain ⟨q', hq', hqq'⟩ := Control.Step.root_precedes hs hstep hq
    exact ⟨q', hq', hpq.trans hqq'⟩

/-- The overlay `r` and the root it supersedes are the record's own. -/
def Control.Pinned (c : Control) (r : RecoveryOverlayRef) : Prop :=
  c.recovery = some r ∧ c.root = some r.predecessor

/-- The records of a chain keep a pin from `i` on, up to a step that publishes it. -/
theorem Control.Chain.pinned (h : Control.Chain c k n) (hij : i ≤ j) (hj : j ≤ n)
    (hp : (c i).Pinned r) :
    (∀ l, i ≤ l → l ≤ j → (c l).Pinned r) ∨
      ∃ m, i ≤ m ∧ m < j ∧ (∀ l, i ≤ l → l ≤ m → (c l).Pinned r) ∧ k m = .publishRecovery ∧
        (c (m + 1)).recovery = none ∧ ∃ root, (c (m + 1)).root = some root ∧
          root.position = (r.finalTxid, r.finalChecksum, r.finalCommitSequence) := by
  induction j, hij using Nat.le_induction with
  | base =>
    refine .inl fun l hil hli => ?_
    have : l = i := by omega
    rw [this]; exact hp
  | succ j hij ih =>
    rcases ih (by omega) with hall | ⟨m, him, hmj, hrest⟩
    · obtain ⟨hrec, hroot⟩ := hall j hij le_rfl
      obtain ⟨-, hstep⟩ := Control.validateTransition_ok (h j (by omega))
      rcases hstep.pin hrec with ⟨hrec', hroot'⟩ | ⟨hk, hrec', hpub⟩
      · refine .inl fun l hil hlj => ?_
        rcases Nat.lt_or_ge l (j + 1) with hlt | hge
        · exact hall l hil (by omega)
        · have : l = j + 1 := by omega
          rw [this]; exact ⟨hrec', hroot'.trans hroot⟩
      · exact .inr ⟨j, hij, by omega, hall, hk, hrec', hpub⟩
    · exact .inr ⟨m, him, by omega, hrest⟩

/-- **Root order and recovery pins.** Along every chain the root never moves backwards, and an
overlay pinned by `AttachRecovery` is the pin of every later record, with the root at the base it
supersedes, until one `PublishRecovery` installs a root exactly at its final position and clears the
pin. -/
theorem Control.Chain.root_and_pin (h : Control.Chain c k n) :
    (∀ i j, i ≤ j → j ≤ n → ∀ p, (c i).root = some p → ∃ q, (c j).root = some q ∧
      p.txid ≤ q.txid ∧ p.commitSequence ≤ q.commitSequence ∧
      (q.txid = p.txid → q.checksum = p.checksum ∧ q.commitSequence = p.commitSequence)) ∧
    ∀ i, i < n → k i = .attachRecovery →
      ∃ r, (c (i + 1)).recovery = some r ∧ (c i).root = some r.predecessor ∧
        ∀ j, i + 1 ≤ j → j ≤ n →
          (∀ l, i + 1 ≤ l → l ≤ j → (c l).recovery = some r ∧ (c l).root = some r.predecessor) ∨
          ∃ m, i + 1 ≤ m ∧ m < j ∧
            (∀ l, i + 1 ≤ l → l ≤ m →
              (c l).recovery = some r ∧ (c l).root = some r.predecessor) ∧
            k m = .publishRecovery ∧ (c (m + 1)).recovery = none ∧
            ∃ root, (c (m + 1)).root = some root ∧ root.txid = r.finalTxid ∧
              root.checksum = r.finalChecksum ∧ root.commitSequence = r.finalCommitSequence := by
  refine ⟨fun i j hij hj p hp => h.root_precedes hij hj hp, fun i hi hk => ?_⟩
  obtain ⟨-, hstep⟩ := Control.validateTransition_ok (h i hi)
  rw [hk] at hstep
  obtain ⟨r, hr, hroot, hbase⟩ := hstep.attach
  refine ⟨r, hr, hbase, fun j hij hj => ?_⟩
  rcases h.pinned hij hj ⟨hr, hroot⟩ with hall | ⟨m, him, hmj, hpin, hpub, hclear, root, hn, hpos⟩
  · exact .inl hall
  · simp only [RootRef.position, Prod.mk.injEq] at hpos
    exact .inr ⟨m, him, hmj, hpin, hpub, hclear, root, hn, hpos⟩

end

/-- An overlay of a serving Cell is pinned, the Cell is taken over, and the new owner publishes
it. -/
def pinChain : Nat → Control := fun i =>
  let root (txid : Nat) : RootRef := ⟨.fill 32 7, txid, checksumFlag, txid⟩
  let overlay : RecoveryOverlayRef :=
    ⟨.fill 16 3, 1, .fill 32 8, 1, 2, root 1, 3, checksumFlag, 3⟩
  { cell := .fill 32 1
    incarnation := .fill 16 2
    epoch := if i < 2 then 1 else 2
    revision := i + 1
    progress := i + 1
    state := if i < 2 then .serving else .recovering
    owner := some (if i < 2 then ⟨.fill 16 3, ['a']⟩ else ⟨.fill 16 4, ['b']⟩)
    root := some (if i < 3 then root 1 else root 3)
    recovery := if i = 0 ∨ i = 3 then none else some overlay
    bundleBinding := none
    code := .fill 32 5
    schema := 1
    nextDueMs := none }

/-- The transitions of `pinChain`. -/
def pinKinds : Nat → Transition
  | 0 => .attachRecovery
  | 1 => .takeover
  | _ => .publishRecovery

/-- The pin of `pinChain` survives the takeover and ends in its publication. -/
theorem Control.Chain.root_and_pin_published : Control.Chain pinChain pinKinds 3 ∧
    ∃ r m, 1 ≤ m ∧ m < 3 ∧ (pinChain m).recovery = some r ∧ pinKinds m = .publishRecovery ∧
      ∃ root, (pinChain (m + 1)).root = some root ∧ root.txid = r.finalTxid := by
  have hchain : Control.Chain pinChain pinKinds 3 := by
    intro i hi
    match i, hi with
    | 0, _ => rfl
    | 1, _ => rfl
    | 2, _ => rfl
  refine ⟨hchain, ?_⟩
  obtain ⟨r, -, -, hr⟩ := hchain.root_and_pin.2 0 (by decide) rfl
  rcases hr 3 (by decide) le_rfl with hall | ⟨m, hm, hm3, hpin, hk, -, root, hroot, htx, -⟩
  · cases (hall 3 (by decide) le_rfl).1
  · exact ⟨r, m, hm, hm3, (hpin m hm le_rfl).1, hk, root, hroot, htx⟩

end Cellule
