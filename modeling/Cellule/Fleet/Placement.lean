import Cellule.Cell.Tables

/-!
# The ownership balance of a fleet

The count rule of the placement planner (`fleet/placement/mod.rs`): a node's share of the Cells is
in proportion to the Cells it admits, and only the densest node, with the most Cells for each it
admits, may give Cells away. Shares are rounded up, so a small node can be the densest with no more
than its share. `fleet_balance_iff`: Cells are moved exactly when the densest node has more than its
share.
-/

namespace Cellule

open Except List

/-- `PlacementPressure` (`mod.rs:27`), from least to most. -/
inductive PlacementPressure where
  | normal
  | constrained
  | shedding
  | critical
  deriving DecidableEq

/-- The fields that the count rule reads (`PlacementObservation`, `mod.rs:44`). -/
structure PlacementObservation where
  node : NodeId
  session : SessionId
  observedAt : Int
  memoryCapacity : Nat
  freeMemory : Nat
  diskCapacity : Nat
  freeDisk : Nat
  activeCells : Nat
  maxActiveCells : Nat
  runningJobs : Nat
  jobCapacity : Nat
  pressure : PlacementPressure
  draining : Bool
  authenticated : Bool

/-- `PlacementEligibility` (`mod.rs:162`). -/
inductive PlacementEligibility where
  | eligible
  | unauthenticated
  | stale
  | draining
  | criticalPressure
  | pressure
  | noMemoryHeadroom
  | noDiskHeadroom
  | noCellCapacity
  | noJobCapacity
  deriving DecidableEq

/-- `FleetBalance` (`mod.rs:264`). -/
structure FleetBalance where
  donor : SessionId
  surplus : Nat
  receivers : List SessionId
  deriving DecidableEq

/-- `MAX_TRANSFERS_PER_TICK`. -/
def maxTransfersPerTick : Nat := 2

/-- `fresh` (`mod.rs:715`), in a window of `maxAge`. -/
def PlacementObservation.fresh (maxAge now : Int) (o : PlacementObservation) : Bool :=
  o.authenticated && decide (0 ≤ o.observedAt) && decide (o.observedAt ≤ now)
    && decide (saturatingSubInt now o.observedAt ≤ maxAge)

/-- `sampled_after` (`mod.rs:724`). -/
def PlacementObservation.sampledAfter (maxAge now since : Int) (o : PlacementObservation) : Bool :=
  o.fresh maxAge now && decide (since < o.observedAt)

/-- `eligibility` (`mod.rs:680`). -/
def PlacementObservation.eligibility (maxAge now : Int) (o : PlacementObservation) :
    PlacementEligibility :=
  if !o.fresh maxAge now then (if o.authenticated then .stale else .unauthenticated)
  else if o.draining then .draining
  else if o.pressure = .critical then .criticalPressure
  else if o.pressure ≠ .normal then .pressure
  else if o.memoryCapacity = 0 ∨ o.freeMemory = 0 then .noMemoryHeadroom
  else if o.diskCapacity = 0 ∨ o.freeDisk = 0 then .noDiskHeadroom
  else if o.maxActiveCells = 0 ∨ o.activeCells ≥ o.maxActiveCells then .noCellCapacity
  else if o.jobCapacity = 0 ∨ o.runningJobs ≥ o.jobCapacity then .noJobCapacity
  else .eligible

/-- `denser` (`mod.rs:740`). -/
def denser (left right : PlacementObservation) : Ordering :=
  (compare (left.activeCells * right.maxActiveCells) (right.activeCells * left.maxActiveCells)).then
    ((compare right.node left.node).then (compare right.session left.session))

/-- `room` (`mod.rs:750`), in whole Cells below the dead band. -/
def PlacementObservation.room (o : PlacementObservation) (target : Nat) : Nat :=
  target - target * 2 / 100 - o.activeCells

/-- The loop of `fleet_balance`: the Cells that a snapshot owns and admits, or none when a sample is
too old. `seen` are the observations before. -/
def fleetTotals (maxAge now since : Int) : List PlacementObservation → List PlacementObservation →
    Nat → Nat → Result (Option (Nat × Nat))
  | [], _, owned, weight => .ok (some (owned, weight))
  | o :: rest, seen, owned, weight =>
    if seen.any (·.node == o.node) || seen.any (·.session == o.session) then
      .error (.control "fleet balance snapshot duplicates a node")
    else if !o.sampledAfter maxAge now since then .ok none
    else fleetTotals maxAge now since rest (o :: seen) (owned + o.activeCells)
      (weight + o.maxActiveCells)

/-- `max_by(denser)`: the last one of the densest. -/
def densest : List PlacementObservation → Option PlacementObservation
  | [] => none
  | o :: rest => some (rest.foldl (fun best o => if denser best o = .gt then best else o) o)

/-- The target of a node: its share of the Cells owned, rounded up. -/
def targetShare (owned weight : Nat) (o : PlacementObservation) : Nat :=
  (owned * o.maxActiveCells + weight - 1) / weight

/-- The nodes that can take Cells from a donor. -/
def balanceReceivers (maxAge now : Int) (donor : PlacementObservation)
    (target : PlacementObservation → Nat) (observations : List PlacementObservation) :
    List PlacementObservation :=
  (observations.filter fun o => o.session != donor.session && decide (o.room (target o) > 0)
      && (o.pressure == .normal || o.pressure == .constrained)
      && o.eligibility maxAge now == .eligible).insertionSort fun a b => denser a b ≠ .gt

/-- How many Cells to move of a surplus, for the room there is. -/
def balanceCount (surplus room : Nat) : Nat :=
  let count := min surplus room
  min (if count ≤ u64Max then count else maxTransfersPerTick) maxTransfersPerTick

/-- `fleet_balance` (`mod.rs:348`). -/
def fleetBalance (maxAge now : Int) (observations : List PlacementObservation) (since : Int) :
    Result (Option FleetBalance) := do
  reject (decide (now < 0) || decide (observations.length > 10000))
    (.control "fleet balance snapshot is invalid")
  let some (owned, weight) ← fleetTotals maxAge now since observations [] 0 0 | pure none
  if weight = 0 then return none
  let target := targetShare owned weight
  let some donor := densest observations | return none
  let receivers := balanceReceivers maxAge now donor target observations
  let count := balanceCount (donor.activeCells - target donor)
    (receivers.map fun o => o.room (target o)).sum
  return if count = 0 then none else some ⟨donor.session, count, receivers.map (·.session)⟩

/-! ## When Cells are moved -/

variable {maxAge now since : Int} {observations : List PlacementObservation}

theorem balanceCount_eq_zero : balanceCount surplus room = 0 ↔ surplus = 0 ∨ room = 0 := by
  unfold balanceCount maxTransfersPerTick
  dsimp only
  split <;> omega

/-- What the loop finds in a snapshot that is distinct and sampled late enough. -/
theorem fleetTotals_eq (seen : List PlacementObservation) (owned weight : Nat)
    (hnodes : ((seen ++ observations).map (·.node)).Nodup)
    (hsessions : ((seen ++ observations).map (·.session)).Nodup)
    (hsampled : ∀ o ∈ observations, o.sampledAfter maxAge now since = true) :
    fleetTotals maxAge now since observations seen owned weight
      = .ok (some (owned + (observations.map (·.activeCells)).sum,
          weight + (observations.map (·.maxActiveCells)).sum)) := by
  induction observations generalizing seen owned weight with
  | nil => rfl
  | cons o rest ih =>
    have hperm : seen ++ o :: rest ~ o :: seen ++ rest := perm_middle
    replace hnodes := (hperm.map _).nodup_iff.1 hnodes
    replace hsessions := (hperm.map _).nodup_iff.1 hsessions
    have hfresh : (seen.any (·.node == o.node) || seen.any (·.session == o.session)) = false := by
      rw [Bool.or_eq_false_iff, any_eq_false, any_eq_false]
      simp only [cons_append, map_cons, nodup_cons, mem_map, mem_append, not_exists, not_and,
        beq_iff_eq] at hnodes hsessions ⊢
      exact ⟨fun s hs => hnodes.1 s (.inl hs), fun s hs => hsessions.1 s (.inl hs)⟩
    rw [forall_mem_cons] at hsampled
    rw [fleetTotals, hfresh, hsampled.1, ih _ _ _ hnodes hsessions hsampled.2]
    simp [Nat.add_assoc]

theorem denser_le (h : denser a b ≠ .gt) :
    a.activeCells * b.maxActiveCells ≤ b.activeCells * a.maxActiveCells := by
  by_contra hlt
  exact h (by simp [denser, Nat.compare_eq_gt.2 (Nat.not_le.1 hlt)])

theorem denser_le_of_gt (h : denser a b = .gt) :
    b.activeCells * a.maxActiveCells ≤ a.activeCells * b.maxActiveCells := by
  by_contra hlt
  simp [denser, Nat.compare_eq_lt.2 (Nat.not_le.1 hlt)] at h

theorem denser_trans {a b c : PlacementObservation} (hb : 1 ≤ b.maxActiveCells)
    (hab : a.activeCells * b.maxActiveCells ≤ b.activeCells * a.maxActiveCells)
    (hbc : b.activeCells * c.maxActiveCells ≤ c.activeCells * b.maxActiveCells) :
    a.activeCells * c.maxActiveCells ≤ c.activeCells * a.maxActiveCells := by
  refine Nat.le_of_mul_le_mul_right ?_ hb
  calc a.activeCells * c.maxActiveCells * b.maxActiveCells
      = a.activeCells * b.maxActiveCells * c.maxActiveCells := Nat.mul_right_comm ..
    _ ≤ b.activeCells * a.maxActiveCells * c.maxActiveCells := Nat.mul_le_mul_right _ hab
    _ = b.activeCells * c.maxActiveCells * a.maxActiveCells := Nat.mul_right_comm ..
    _ ≤ c.activeCells * b.maxActiveCells * a.maxActiveCells := Nat.mul_le_mul_right _ hbc
    _ = c.activeCells * a.maxActiveCells * b.maxActiveCells := Nat.mul_right_comm ..

theorem densest_mem (h : densest observations = some donor) : donor ∈ observations := by
  cases observations with
  | nil => cases h
  | cons o rest =>
    cases h
    induction rest generalizing o with
    | nil => exact mem_singleton_self o
    | cons o' rest ih =>
      rw [foldl_cons]
      split
      · exact cons_subset_cons _ (subset_cons_self _ _) (ih o)
      · exact mem_cons_of_mem _ (ih o')

theorem densest_of_mem (h : o ∈ observations) : ∃ donor, densest observations = some donor := by
  cases observations with
  | nil => cases h
  | cons o rest => exact ⟨_, rfl⟩

/-- No node has more Cells for each it admits than the densest. -/
theorem densest_max (hslots : ∀ o ∈ observations, 1 ≤ o.maxActiveCells)
    {donor : PlacementObservation} (h : densest observations = some donor) :
    ∀ o ∈ observations,
      o.activeCells * donor.maxActiveCells ≤ donor.activeCells * o.maxActiveCells := by
  cases observations with
  | nil => nofun
  | cons first rest =>
    cases h
    -- the best of the nodes before, which is as dense as each of them
    induction rest generalizing first with
    | nil => simp
    | cons next rest ih =>
      simp only [forall_mem_cons] at hslots ih ⊢
      rw [foldl_cons]
      split
      case isTrue hgt =>
        obtain ⟨hfirst, hrest⟩ := ih first ⟨hslots.1, hslots.2.2⟩
        exact ⟨hfirst, denser_trans hslots.1 (denser_le_of_gt hgt) hfirst, hrest⟩
      case isFalse hle =>
        obtain ⟨hnext, hrest⟩ := ih next hslots.2
        exact ⟨denser_trans hslots.2.1 (denser_le hle) hnext, hnext, hrest⟩

theorem PlacementObservation.normal_of_eligible {o : PlacementObservation}
    (h : o.eligibility maxAge now = .eligible) : o.pressure = .normal := by
  unfold eligibility at h
  grind

/-- The target of a node of a snapshot. -/
def fleetShare (observations : List PlacementObservation) : PlacementObservation → Nat :=
  targetShare (observations.map (·.activeCells)).sum (observations.map (·.maxActiveCells)).sum

/-- A donor with a surplus has no room, so that the node that has can receive from it. -/
theorem receiver_room_pos
    (hsessions : (observations.map (·.session)).Nodup) (hdonor : donor ∈ observations)
    (hsurplus : target donor < donor.activeCells) (ho : o ∈ observations)
    (hroom : 0 < o.room (target o)) (heligible : o.eligibility maxAge now = .eligible) :
    0 < ((balanceReceivers maxAge now donor target observations).map
      fun o => o.room (target o)).sum := by
  have hsession : o.session ≠ donor.session := by
    intro heq
    obtain rfl := inj_on_of_nodup_map hsessions ho hdonor heq
    unfold PlacementObservation.room at hroom
    omega
  have hmem : o ∈ balanceReceivers maxAge now donor target observations := by
    unfold balanceReceivers
    rw [mem_insertionSort, mem_filter]
    simp [ho, hsession, hroom, heligible, PlacementObservation.normal_of_eligible heligible]
  exact hroom.trans_le (single_le_sum (by simp) _ (mem_map_of_mem hmem))

section Snapshot

variable (hnow : 0 ≤ now) (hlen : observations.length ≤ 10000)
  (hnodes : (observations.map (·.node)).Nodup) (hsessions : (observations.map (·.session)).Nodup)
  (hsampled : ∀ o ∈ observations, o.sampledAfter maxAge now since = true)
  (hslots : ∀ o ∈ observations, 1 ≤ o.maxActiveCells)
  (hunder : ∃ o ∈ observations, 0 < o.room (fleetShare observations o) ∧
    o.eligibility maxAge now = .eligible)
include hnow hlen hnodes hsessions hsampled hslots hunder

theorem fleetBalance_some_iff (hdonor : densest observations = some donor) :
    (∃ balance, fleetBalance maxAge now observations since = .ok (some balance)) ↔
      fleetShare observations donor < donor.activeCells := by
  obtain ⟨o, ho, hroom, heligible⟩ := hunder
  have hweight : (observations.map (·.maxActiveCells)).sum ≠ 0 := by
    have := single_le_sum (by simp) _ (mem_map_of_mem (f := (·.maxActiveCells)) ho)
    have := hslots o ho
    omega
  have htotals := fleetTotals_eq [] 0 0 hnodes hsessions hsampled
  have hvalid : (decide (now < 0) || decide (observations.length > 10000)) = false := by
    simp only [Bool.or_eq_false_iff, decide_eq_false_iff_not]
    omega
  unfold fleetBalance
  rw [hvalid, reject_false, ok_bind, htotals, ok_bind, Nat.zero_add, Nat.zero_add]
  dsimp only
  rw [if_neg hweight, hdonor]
  dsimp only
  constructor
  · rintro ⟨balance, hbalance⟩
    replace hbalance := ok.inj hbalance
    split at hbalance
    case isTrue => cases hbalance
    case isFalse hcount =>
      by_contra hsurplus
      have hzero := Nat.sub_eq_zero_of_le (Nat.not_lt.1 hsurplus)
      exact hcount (balanceCount_eq_zero.2 (.inl hzero))
  · intro hsurplus
    have hpos := receiver_room_pos hsessions (densest_mem hdonor) hsurplus ho hroom heligible
    refine ⟨_, congrArg Except.ok (if_neg fun hcount => ?_)⟩
    rcases balanceCount_eq_zero.1 hcount with hzero | hzero
    · exact Nat.not_lt.2 (Nat.sub_eq_zero_iff_le.1 hzero) hsurplus
    · exact hpos.ne' hzero

/-- Between nodes that admit as many Cells, one with more than its share is enough. -/
theorem fleetBalance_of_even (heven : ∀ o ∈ observations, o.maxActiveCells = cells)
    (hover : ∃ o ∈ observations, fleetShare observations o < o.activeCells) :
    ∃ balance, fleetBalance maxAge now observations since = .ok (some balance) := by
  obtain ⟨o, ho, hsurplus⟩ := hover
  obtain ⟨donor, hdonor⟩ := densest_of_mem ho
  have hmem := densest_mem hdonor
  have hshare : fleetShare observations donor = fleetShare observations o := by
    simp only [fleetShare, targetShare, heven donor hmem, heven o ho]
  have hmost : o.activeCells ≤ donor.activeCells := by
    have hle := densest_max hslots hdonor o ho
    rw [heven donor hmem, heven o ho] at hle
    exact Nat.le_of_mul_le_mul_right hle (heven o ho ▸ hslots o ho)
  exact (fleetBalance_some_iff hnow hlen hnodes hsessions hsampled hslots hunder hdonor).2
    (hshare ▸ hsurplus.trans_le hmost)

end Snapshot

/-- In a snapshot where a node can take Cells, some are moved exactly when the densest node has more
than its share. -/
theorem fleet_balance_iff (maxAge now since : Int) (observations : List PlacementObservation)
    (hnow : 0 ≤ now) (hlen : observations.length ≤ 10000)
    (hnodes : (observations.map (·.node)).Nodup) (hsessions : (observations.map (·.session)).Nodup)
    (hsampled : ∀ o ∈ observations, o.sampledAfter maxAge now since = true)
    (hslots : ∀ o ∈ observations, 1 ≤ o.maxActiveCells)
    (hunder : ∃ o ∈ observations, 0 < o.room (fleetShare observations o) ∧
      o.eligibility maxAge now = .eligible) :
    ∃ donor, densest observations = some donor ∧
      ((∃ balance, fleetBalance maxAge now observations since = .ok (some balance)) ↔
        fleetShare observations donor < donor.activeCells) := by
  obtain ⟨o, ho, -⟩ := id hunder
  obtain ⟨donor, hdonor⟩ := densest_of_mem ho
  exact ⟨donor, hdonor,
    fleetBalance_some_iff hnow hlen hnodes hsessions hsampled hslots hunder hdonor⟩

/-- A node that admits so many Cells and has this many of them. -/
def sampleNode (b : UInt8) (activeCells maxActiveCells : Nat) : PlacementObservation :=
  ⟨.fill 16 b, .fill 16 b, 5, 1, 1, 1, 1, activeCells, maxActiveCells, 0, 1, .normal, false, true⟩

/-- Two nodes that admit as many Cells, one with ten and one with none. -/
def evenFleet : List PlacementObservation := [sampleNode 1 10 10, sampleNode 2 0 10]

/-- The first has more than its share of five, and two of its Cells move. -/
theorem fleet_balance_moves : fleetShare evenFleet (sampleNode 1 10 10) = 5 ∧
    ∃ balance, fleetBalance 30000 9 evenFleet 0 = .ok (some balance) ∧
      balance = ⟨.fill 16 1, 2, [.fill 16 2]⟩ := by
  obtain ⟨donor, hdonor, hiff⟩ := fleet_balance_iff 30000 9 0 evenFleet (by decide) (by decide)
    (by decide) (by decide) (by decide) (by decide)
    ⟨sampleNode 2 0 10, by simp [evenFleet], by decide, by decide⟩
  obtain rfl : sampleNode 1 10 10 = donor := Option.some.inj hdonor
  obtain ⟨balance, hbalance⟩ := hiff.2 (by decide)
  exact ⟨by decide, balance, hbalance, (Option.some.inj (ok.inj hbalance)).symm⟩

/-- A node with the one Cell it admits, one with 90 of 100 and one with none of 100. -/
def stalledFleet : List PlacementObservation :=
  [sampleNode 1 1 1, sampleNode 2 90 100, sampleNode 3 0 100]

/-- The smallest node is the densest and has its share, so the one with 90 Cells and a share of 46
keeps them. -/
theorem fleet_balance_stalls : (∀ o ∈ stalledFleet, o.sampledAfter 30000 9 0 = true) ∧
    fleetShare stalledFleet (sampleNode 2 90 100) = 46 ∧
    (sampleNode 3 0 100).room (fleetShare stalledFleet (sampleNode 3 0 100)) = 46 ∧
    (sampleNode 3 0 100).eligibility 30000 9 = .eligible ∧
    fleetBalance 30000 9 stalledFleet 0 = .ok none := by
  refine ⟨by decide, by decide, by decide, by decide, rfl⟩

end Cellule
