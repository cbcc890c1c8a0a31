import Cellule.Coordination.Kernel

/-!
# Laws of the coordination kernel

A fence is final: no input leaves it and none starts anything behind it (`fence_final`). Each effect
that was begun is in flight or was completed once, and the Cell is declared ready to close only when
nothing is in flight (`effects_accounted`).
-/

namespace Cellule

open List OrderedMap Option CoordinationState

/-! ## Fencing -/

/-- The inputs that report a dead lease, or the end of an effect that was fenced. -/
def CoordinationInput.seesFence : CoordinationInput → Bool
  | .schedule _ _ _ leaseLive | .beginRenewal _ _ leaseLive | .beginHydration _ _ leaseLive
  | .beginInventory _ _ _ _ leaseLive | .beginMaintenanceInventory _ _ _ _ leaseLive
  | .beginTransferPreflight _ _ leaseLive | .beginCompaction _ _ _ _ leaseLive => !leaseLive
  | .finishWork fenced | .finishMigration fenced | .finishRenewal fenced
  | .finishPublication fenced _ | .finishCompaction fenced => fenced
  | _ => false

/-- The answers that let something in or start something. -/
def CoordinationDecision.lets : CoordinationDecision → Bool
  | .admits | .localHandle | .startQueuedWork | .started => true
  | _ => false

/-- The answers that let nothing in and start nothing: `started` is said of whatever the input asked
for, and the end of the Cell may be asked for at any time. -/
structure CoordinationDecision.Barred (input : CoordinationInput)
    (decision : CoordinationDecision) : Prop where
  notAdmitted : decision ≠ .admits
  noLocalHandle : decision ≠ .localHandle
  noQueuedWork : decision ≠ .startQueuedWork
  notStarted : decision = .started → input = .beginShutdown

theorem CoordinationDecision.Barred.of_lets
    {decision : CoordinationDecision} (h : decision.lets = false) : decision.Barred input := by
  refine ⟨?_, ?_, ?_, ?_⟩ <;> rintro rfl <;> cases h

namespace CoordinationState

variable {s : CoordinationState}

theorem isFenced_iff : s.isFenced = true ↔ s.lifecycle = .fenced := beq_iff_eq

/-- One step from a fenced state. -/
theorem step_of_fenced (hs : s.lifecycle = .fenced) (input : CoordinationInput) :
    (s.step input).2.lifecycle = .fenced ∧ (s.step input).1.Barred input := by
  have hf : s.isFenced = true := isFenced_iff.2 hs
  cases input with
  | beginWork | beginMaintenanceQuiescence | beginDrain | beginMigration | beginPublication
  | confirmTransfer | abortTransfer =>
    rw [step, if_pos hf]
    exact ⟨hs, .of_lets rfl⟩
  | beginHydration _ _ leaseLive | beginInventory _ _ _ _ leaseLive
  | beginMaintenanceInventory _ _ _ _ leaseLive | beginTransferPreflight _ _ leaseLive =>
    -- the lease is looked at first
    rw [step, if_pos hf]
    cases leaseLive
    · exact ⟨rfl, .of_lets rfl⟩
    · exact ⟨hs, .of_lets rfl⟩
  | beginRenewal _ _ leaseLive | beginCompaction _ _ _ _ leaseLive =>
    simp only [step, hf, Bool.true_or, if_true]
    cases leaseLive
    · exact ⟨rfl, .of_lets rfl⟩
    · exact ⟨hs, .of_lets rfl⟩
  | finishWork fenced | finishMigration fenced | finishRenewal fenced | finishCompaction fenced =>
    simp only [step]
    split
    · exact ⟨rfl, .of_lets rfl⟩
    · next h => exact absurd (Bool.or_eq_true_iff.2 (Or.inr hf)) h
  | admits kind admissionMatches =>
    refine ⟨hs, .of_lets ?_⟩
    simp only [step, admits, hf]
    cases admissionMatches <;> cases kind <;> rfl
  | lookup =>
    refine ⟨hs, .of_lets ?_⟩
    rw [step, lookup, if_pos hf]
    rfl
  | schedule queueEmpty publisherReady _ leaseLive =>
    simp only [step, hf, Bool.true_or, Bool.true_and, if_true]
    cases leaseLive
    · refine ⟨rfl, .of_lets ?_⟩
      rw [if_pos (Bool.not_false)]
      split <;> rfl
    · cases hready : s.readyToDeactivate queueEmpty publisherReady
      · exact ⟨hs, .of_lets rfl⟩
      · exact ⟨hs, .of_lets rfl⟩
  | completeEffect =>
    rw [step]
    split
    · exact ⟨hs, .of_lets rfl⟩
    · exact ⟨hs, .of_lets rfl⟩
  | beginShutdown =>
    simp only [step]
    split
    · exact ⟨hs, .of_lets rfl⟩
    · split
      · refine ⟨hs, ?_⟩
        unfold closing
        split
        · exact .of_lets rfl
        · exact ⟨nofun, nofun, nofun, fun _ => rfl⟩
      · next h => exact absurd hf h
  | finishPublication =>
    simp only [step]
    split
    · exact ⟨rfl, .of_lets rfl⟩
    · refine ⟨hs, .of_lets ?_⟩
      unfold drained
      split <;> rfl
  | finishHydration complete stale => cases stale <;> exact ⟨hs, .of_lets rfl⟩
  | followerProof =>
    refine ⟨?_, .of_lets rfl⟩
    rw [step]
    split <;> exact hs
  | callerCancel => exact ⟨hs, .of_lets rfl⟩
  | fence => exact ⟨rfl, .of_lets rfl⟩

/-- A run from a fenced state stays fenced. -/
theorem run_of_fenced (hs : s.lifecycle = .fenced) (inputs : List CoordinationInput) :
    (s.run inputs).lifecycle = .fenced := by
  induction inputs generalizing s with
  | nil => exact hs
  | cons input inputs ih => exact ih (step_of_fenced hs input).1

/-- A dead lease, or a fenced end of an effect, fences the Cell in whatever state it is. -/
theorem step_of_seesFence (h : input.seesFence = true) : (s.step input).2.lifecycle = .fenced := by
  cases input with
  | schedule _ _ _ leaseLive | beginRenewal _ _ leaseLive | beginHydration _ _ leaseLive
  | beginInventory _ _ _ _ leaseLive | beginMaintenanceInventory _ _ _ _ leaseLive
  | beginTransferPreflight _ _ leaseLive | beginCompaction _ _ _ _ leaseLive =>
    cases leaseLive
    · rfl
    · cases h
  | finishWork fenced | finishMigration fenced | finishRenewal fenced
  | finishPublication fenced _ | finishCompaction fenced =>
    cases fenced
    · cases h
    · rfl
  | _ => cases h

end CoordinationState

/-- A fence is final. From a fenced state the kernel stays fenced over every row of inputs, and
every step lets nothing in and starts nothing; and a step that reports a dead lease or a fenced end
of an effect fences the Cell. -/
theorem fence_final (s : CoordinationState) :
    (s.lifecycle = .fenced → ∀ inputs : List CoordinationInput,
      (s.run inputs).lifecycle = .fenced ∧
      ∀ input, ((s.run inputs).step input).1.Barred input) ∧
    (∀ input : CoordinationInput, input.seesFence = true →
      (s.step input).2.lifecycle = .fenced) := by
  refine ⟨fun hs inputs => ?_, fun input h => step_of_seesFence h⟩
  have hrun := run_of_fenced hs inputs
  exact ⟨hrun, fun input => (step_of_fenced hrun input).2⟩

/-- A lease dies under a Cell with a hydration begun; the late end of the hydration and a new
command find it fenced. -/
theorem fence_final_sample :
    let fenced := ((servingWithResidency .sparse).step
      (.schedule false true false false)).2
    fenced.lifecycle = .fenced ∧
    (fenced.run [.finishHydration true false, .beginShutdown]).lifecycle = .fenced ∧
    ((fenced.run [.finishHydration true false, .beginShutdown]).step
      (.admits .command true)).1.Barred (.admits .command true) := by
  have hfenced := (fence_final (.servingWithResidency .sparse)).2
    (.schedule false true false false) rfl
  have hrun := (fence_final _).1 hfenced [.finishHydration true false, .beginShutdown]
  exact ⟨hfenced, hrun.1, hrun.2 _⟩

namespace CoordinationState

/-- Work of a kind is kept out: by a fence, by a shutdown, or by quiescence for maintenance. -/
def shutsOut (s : CoordinationState) (kind : AdmissionKind) : Bool :=
  s.isFenced || s.isShutdown || s.maintenanceQuiescing && !kind.allowedWhileQuiescing

variable {s : CoordinationState} {kind : AdmissionKind}

theorem shutsOut_step (h : s.shutsOut kind = true) (input : CoordinationInput) :
    (s.step input).2.shutsOut kind = true := by
  unfold shutsOut isFenced isShutdown at *
  cases input <;> simp only [step, drained, closing]
  all_goals
    repeat' split
    all_goals simp_all [isDraining, isShutdown, isFenced]

theorem shutsOut_run (h : s.shutsOut kind = true) (inputs : List CoordinationInput) :
    (s.run inputs).shutsOut kind = true := by
  induction inputs generalizing s with
  | nil => exact h
  | cons input inputs ih => exact ih (shutsOut_step h input)

end CoordinationState

/-- Work is kept out for good: what a Cell admits after any inputs was not kept out before them. -/
theorem admits_of_run (s : CoordinationState) (inputs : List CoordinationInput)
    (kind : AdmissionKind) (admissionMatches : Bool) :
    (s.run inputs).admits kind admissionMatches ≠ .admits ∨ s.shutsOut kind = false := by
  cases h : s.shutsOut kind with
  | true =>
    replace h := shutsOut_run h inputs
    generalize s.run inputs = s at h ⊢
    left
    unfold shutsOut isFenced isShutdown at h
    unfold admits
    repeat' split
    all_goals simp_all [isDraining, isFenced]
  | false => exact .inr rfl

/-! ## Closing the Cell -/

/-- Nothing is in flight. -/
structure CoordinationState.Quiet (s : CoordinationState) : Prop where
  idle : s.busy = false
  notRenewing : s.renewing = false
  published : s.publications = 0
  noEffects : s.pendingEffects.entries = []

/-- The answers that let the actor close the Cell. -/
def CoordinationDecision.closes : CoordinationDecision → Bool
  | .readyToDeactivate | .readyToDeactivateFenced => true
  | _ => false

namespace CoordinationState

variable {s : CoordinationState}

theorem quiet_of_canDeactivate (h : s.canDeactivate = true) : s.Quiet := by
  simp only [canDeactivate, Bool.and_eq_true, Bool.not_eq_true', beq_iff_eq, List.isEmpty_iff] at h
  obtain ⟨⟨⟨hidle, hrenewing⟩, hpublished⟩, heffects⟩ := h
  exact ⟨hidle, hrenewing, hpublished, heffects⟩

theorem canDeactivate_of_readyToDeactivate
    (h : s.readyToDeactivate queueEmpty publisherReady = true) : s.canDeactivate = true :=
  (Bool.and_eq_true_iff.1 h).2

/-- If the answer lets the actor close the Cell, the Cell can be closed. -/
def ClosesQuiet (r : CoordinationDecision × CoordinationState) : Prop :=
  r.1.closes = true → r.2.canDeactivate = true

theorem closesQuiet_of_not (h : decision.closes = false) :
    ClosesQuiet (decision, s) := fun hcloses => absurd hcloses (Bool.eq_false_iff.1 h)

theorem closesQuiet_drained : ClosesQuiet s.drained := by
  unfold drained
  split
  · next hready => exact fun _ => (Bool.and_eq_true_iff.1 hready).1
  · exact closesQuiet_of_not rfl

theorem closesQuiet_closing : ClosesQuiet s.closing := by
  unfold closing
  split
  · next hready => exact fun _ => hready
  · exact closesQuiet_of_not rfl

/-- One step: the Cell is declared ready to close only when nothing is in flight any more. -/
theorem closesQuiet_step (input : CoordinationInput) : ClosesQuiet (s.step input) := by
  cases input with
  | admits | lookup =>
    refine closesQuiet_of_not ?_
    first | unfold admits | unfold lookup
    repeat' split
    all_goals rfl
  | schedule =>
    simp only [step]
    split
    · split
      · next hready => exact fun _ => canDeactivate_of_readyToDeactivate hready
      · exact closesQuiet_of_not rfl
    · split
      · next hready =>
        exact fun _ => canDeactivate_of_readyToDeactivate (Bool.and_eq_true_iff.1 hready).2
      · split <;> exact closesQuiet_of_not rfl
  | _ =>
    simp only [step]
    repeat' split
    all_goals
      first
      | exact closesQuiet_drained
      | exact closesQuiet_closing
      | exact closesQuiet_of_not rfl

end CoordinationState

/-! ## Effects -/

/-- What the actor asks of the kernel. -/
inductive CoordinationCall where
  | step (input : CoordinationInput)
  | beginEffect (effect : CoordinationEffect)

/-- What the kernel answered. -/
inductive CoordinationEvent where
  | stepped (input : CoordinationInput) (decision : CoordinationDecision)
  | began (effectId : Nat) (effect : CoordinationEffect)
  deriving DecidableEq

namespace CoordinationState

/-- One call; nothing if it does not return. -/
def perform (s : CoordinationState) :
    CoordinationCall → Option (CoordinationEvent × CoordinationState)
  | .step input => some (.stepped input (s.step input).1, (s.step input).2)
  | .beginEffect effect => (s.beginEffect effect).map fun r => (.began r.1 effect, r.2)

/-- A row of calls, with what was answered to each. -/
def trace (s : CoordinationState) :
    List CoordinationCall → Option (List CoordinationEvent × CoordinationState)
  | [] => some ([], s)
  | call :: calls => do
    let (event, s) ← s.perform call
    let (events, s) ← s.trace calls
    return (event :: events, s)

variable {s s' : CoordinationState} {id : Nat} {effect : CoordinationEffect}

/-- Only a completion takes an effect out of flight. -/
theorem step_pendingEffects (h : ∀ id effect, input ≠ .completeEffect id effect) :
    (s.step input).2.pendingEffects = s.pendingEffects := by
  cases input with
  | completeEffect id effect => exact absurd rfl (h id effect)
  | _ =>
    simp only [step, drained, closing]
    repeat' split
    all_goals rfl

/-- A completion that names an effect in flight. -/
theorem step_completeEffect (h : s.pendingEffects.get? id = some effect) :
    s.step (.completeEffect id effect) =
      (.effectCompleted, { s with pendingEffects := s.pendingEffects.erase id }) := by
  rw [step, if_pos h]

/-- Any other completion. -/
theorem step_completeEffect_stale (h : s.pendingEffects.get? id ≠ some effect) :
    s.step (.completeEffect id effect) = (.staleEffect, s) := by
  rw [step, if_neg h]

/-- What a new effect does to the state: it is in flight under an identity that was free. -/
theorem beginEffect_eq_some (h : s.beginEffect effect = some (id, s')) :
    0 < id ∧ id ≤ u64Max ∧ s.pendingEffects.get? id = none ∧
      s' = { s with nextEffectId := id, pendingEffects := s.pendingEffects.insert id effect } := by
  obtain ⟨found, hfound, heq⟩ := map_eq_some_iff.1 h
  obtain ⟨hpos, hle, hfree⟩ := Cyclic.search_eq_some (by decide) hfound
  obtain ⟨rfl, rfl⟩ := Prod.mk.inj heq
  exact ⟨hpos, hle, not_isSome_iff_eq_none.1 (Bool.eq_false_iff.1 hfree), rfl⟩

/-- An effect can be begun exactly if one of the identities is free. -/
theorem beginEffect_isSome :
    (s.beginEffect effect).isSome = true ↔
      ∃ id, 0 < id ∧ id ≤ u64Max ∧ s.pendingEffects.get? id = none := by
  have hkeys : ∀ id, (s.pendingEffects.get? id).isSome = true →
      id ∈ s.pendingEffects.entries.map (·.1) := by
    intro id hid
    obtain ⟨effect, heffect⟩ := isSome_iff_exists.1 hid
    exact mem_map.2 ⟨_, get?_eq_some.1 heffect, rfl⟩
  have hlast : 0 < u64Max := by decide
  have hsearch := Cyclic.search_isSome hlast hkeys s.nextEffectId
  rw [length_map] at hsearch
  rw [beginEffect, isSome_map, hsearch]
  simp only [isSome_eq_false_iff, isNone_iff_eq_none]

/-- The effects of one identity and intent that are in flight: one or none. -/
def inFlight (s : CoordinationState) (id : Nat) (effect : CoordinationEffect) : Nat :=
  if s.pendingEffects.get? id = some effect then 1 else 0

/-- What one call adds to the account of an effect. -/
theorem perform_inFlight
    (h : s.perform call = some (event, s')) (id : Nat) (effect : CoordinationEffect) :
    s'.inFlight id effect + [event].count (.stepped (.completeEffect id effect) .effectCompleted) =
      s.inFlight id effect + [event].count (.began id effect) := by
  cases call with
  | step input =>
    obtain ⟨rfl, rfl⟩ := Prod.mk.inj (some.inj h)
    by_cases hcomplete : ∃ id effect, input = .completeEffect id effect
    · obtain ⟨id', effect', rfl⟩ := hcomplete
      by_cases hpending : s.pendingEffects.get? id' = some effect'
      · rw [step_completeEffect hpending]
        by_cases hid : id = id'
        · subst hid
          by_cases heffect : effect = effect'
          · subst heffect
            simp [inFlight, get?_erase, hpending]
          · simp [inFlight, get?_erase, hpending, Ne.symm heffect]
        · simp [inFlight, get?_erase, hid, Ne.symm hid]
      · rw [step_completeEffect_stale hpending]
        simp
    · have hother : ∀ id effect, input ≠ .completeEffect id effect :=
        fun id effect heq => hcomplete ⟨id, effect, heq⟩
      rw [inFlight, inFlight, step_pendingEffects hother]
      simp [hother]
  | beginEffect effect' =>
    obtain ⟨⟨id', s''⟩, hbegin, heq⟩ := map_eq_some_iff.1 h
    obtain ⟨rfl, rfl⟩ := Prod.mk.inj heq
    obtain ⟨-, -, hfree, rfl⟩ := beginEffect_eq_some hbegin
    by_cases hid : id = id'
    · subst hid
      by_cases heffect : effect = effect'
      · subst heffect
        simp [inFlight, hfree]
      · simp [inFlight, hfree, Ne.symm heffect]
    · simp [inFlight, get?_insert, hid, Ne.symm hid]

/-- Over a row of calls: what was begun and what was in flight before is in flight, or was completed
once for each time it was begun. -/
theorem trace_inFlight
    (h : s.trace calls = some (events, s')) (id : Nat) (effect : CoordinationEffect) :
    s'.inFlight id effect + events.count (.stepped (.completeEffect id effect) .effectCompleted) =
      s.inFlight id effect + events.count (.began id effect) := by
  induction calls generalizing s events with
  | nil =>
    obtain ⟨rfl, rfl⟩ := Prod.mk.inj (some.inj h)
    rfl
  | cons call calls ih =>
    obtain ⟨⟨event, t⟩, hcall, h⟩ := bind_eq_some_iff.1 h
    obtain ⟨⟨events', t'⟩, hcalls, h⟩ := bind_eq_some_iff.1 h
    obtain ⟨rfl, rfl⟩ := Prod.mk.inj (some.inj h)
    have hhead := perform_inFlight hcall id effect
    have htail := ih hcalls
    rw [← singleton_append, count_append, count_append]
    omega

end CoordinationState

/-- Effects are accounted for over every run of the kernel from a fresh state. A step that lets the
actor close the Cell leaves nothing in flight. A completion takes out exactly the effect in flight
with its identity and intent, and any other changes nothing; so an effect is completed at most as
often as it was begun. A new effect gets an identity that no effect in flight has, and one is found
unless all are taken. -/
theorem effects_accounted {residency : Residency} {calls : List CoordinationCall}
    {events : List CoordinationEvent} {s : CoordinationState}
    (hrun : (servingWithResidency residency).trace calls = some (events, s)) :
    (∀ input, (s.step input).1 = .readyToDeactivate ∨ (s.step input).1 = .readyToDeactivateFenced →
      (s.step input).2.Quiet) ∧
    (∀ id effect, s.pendingEffects.get? id = some effect →
      s.step (.completeEffect id effect) =
        (.effectCompleted, { s with pendingEffects := s.pendingEffects.erase id }) ∧
      ∀ id', (s.pendingEffects.erase id).get? id' =
        if id' = id then none else s.pendingEffects.get? id') ∧
    (∀ id effect, s.pendingEffects.get? id ≠ some effect →
      s.step (.completeEffect id effect) = (.staleEffect, s)) ∧
    (∀ id effect,
      events.count (.stepped (.completeEffect id effect) .effectCompleted) + s.inFlight id effect =
        events.count (.began id effect)) ∧
    (∀ effect id s', s.beginEffect effect = some (id, s') →
      s.pendingEffects.get? id = none ∧ 0 < id ∧ id ≤ u64Max ∧
      s' = { s with nextEffectId := id, pendingEffects := s.pendingEffects.insert id effect }) ∧
    (∀ effect, (s.beginEffect effect).isSome = true ↔
      ∃ id, 0 < id ∧ id ≤ u64Max ∧ s.pendingEffects.get? id = none) := by
  refine ⟨fun input hclose => ?_, fun id effect hpending => ?_, fun id effect hstale => ?_,
    fun id effect => ?_, fun effect id s' hbegin => ?_, fun effect => ?_⟩
  · refine quiet_of_canDeactivate (closesQuiet_step input ?_)
    rcases hclose with hclose | hclose <;> rw [hclose] <;> rfl
  · exact ⟨step_completeEffect hpending, get?_erase _ id⟩
  · exact step_completeEffect_stale hstale
  · have hcount := trace_inFlight hrun id effect
    have hfresh : (servingWithResidency residency).inFlight id effect = 0 := rfl
    omega
  · obtain ⟨hpos, hle, hfree, heq⟩ := beginEffect_eq_some hbegin
    exact ⟨hfree, hpos, hle, heq⟩
  · exact beginEffect_isSome

/-- A renewal is begun, a drain asked for, and the renewal completed twice. -/
def renewalThenDrain : List CoordinationCall :=
  [.beginEffect .renewal, .step .beginDrain, .step (.completeEffect 1 .renewal),
    .step (.completeEffect 1 .renewal)]

/-- The next look at the queue may then close the Cell. -/
theorem effects_accounted_sample :
    ∃ events s, (servingWithResidency .sparse).trace renewalThenDrain =
        some (events, s) ∧
      events = [.began 1 .renewal, .stepped .beginDrain .started,
        .stepped (.completeEffect 1 .renewal) .effectCompleted,
        .stepped (.completeEffect 1 .renewal) .staleEffect] ∧
      (s.step (.schedule true true false true)).1 = .readyToDeactivate ∧
      (s.step (.schedule true true false true)).2.Quiet := by
  obtain ⟨events, s, hrun, hevents, hready⟩ :
      ∃ events s, (servingWithResidency .sparse).trace renewalThenDrain =
          some (events, s) ∧
        events = [.began 1 .renewal, .stepped .beginDrain .started,
          .stepped (.completeEffect 1 .renewal) .effectCompleted,
          .stepped (.completeEffect 1 .renewal) .staleEffect] ∧
        (s.step (.schedule true true false true)).1 = .readyToDeactivate :=
    ⟨_, _, rfl, rfl, rfl⟩
  exact ⟨events, s, hrun, hevents, hready, (effects_accounted hrun).1 _ (Or.inl hready)⟩

end Cellule
