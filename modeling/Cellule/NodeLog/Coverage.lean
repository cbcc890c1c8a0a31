import Cellule.NodeLog.Gate

/-!
# What a durability gate covers

A run of one gate is a list of calls. `GateRun` keeps, beside the gate, what the calls that
succeeded were about: the tickets they issued, those they confirmed in object storage and the
watermarks the followers acknowledged. `GateRun.Inv` says how the state of the gate stands for
these. `Move` lists what one call can do, `Move.inv` is the step lemma and `run_inv` the run lemma.
-/

namespace Cellule

open Except List

/-- The calls that change a gate. -/
inductive GateCall where
  | issue (frameCount : Nat)
  | commitFrames (ticket : CommitTicket) (frames : List VerifiedNodeFrame)
  | closeCellIssuance (scope : CellLogScope) (base : CellRootRef)
  | acknowledge (member : NodeId) (durableThrough : Nat)
  | proveObjects (tickets : List CommitTicket)
  | confirmBundleRanges (assignments : List AssignedCommitRange)
  | activateFleet
  | beginRotation
  | stopShipping
  | fence

/-- A gate with the history of the calls that succeeded on it. -/
structure GateRun where
  gate : GateState
  issued : List CommitTicket
  proven : List CommitTicket
  acked : List (NodeId × Nat)

namespace GateRun

/-- A gate before its first call. -/
def start (g : GateState) : GateRun := ⟨g, [], [], []⟩

/-- The union of the tickets confirmed so far. -/
def covered (r : GateRun) : Set Nat := {s | ∃ t ∈ r.proven, s ∈ t.sequences}

/-- The history after a call that changed the gate to `g`. -/
def record (r : GateRun) (g : GateState) : GateCall → Option CommitTicket → GateRun
  | .issue _, t => { r with gate := g, issued := r.issued ++ t.toList }
  | .commitFrames _ _, t => { r with gate := g, issued := r.issued ++ t.toList }
  | .acknowledge member durableThrough, _ =>
    { r with gate := g, acked := (member, durableThrough) :: r.acked }
  | .proveObjects tickets, _ => { r with gate := g, proven := r.proven ++ tickets }
  | .confirmBundleRanges assignments, _ =>
    { r with gate := g, proven := r.proven ++ assignments.map (·.ticket) }
  | _, _ => { r with gate := g }

/-- What a call does to the gate, with the ticket it issued. -/
def perform (hash : Hash) (g : GateState) :
    GateCall → Result (GateState × Option CommitTicket)
  | .issue frameCount => do
    let (t, g) ← g.issue frameCount
    pure (g, some t)
  | .commitFrames ticket frames => do
    let (_, g) ← g.commitFrames hash ticket frames
    pure (g, some ticket)
  | .closeCellIssuance scope base => do
    let (_, g) ← g.closeCellIssuance scope base
    pure (g, none)
  | .acknowledge member durableThrough => do
    let g ← g.acknowledge member durableThrough
    pure (g, none)
  | .proveObjects tickets => do
    let (_, g) ← g.proveObjects tickets
    pure (g, none)
  | .confirmBundleRanges assignments => do
    let (_, g) ← g.confirmBundleRanges assignments
    pure (g, none)
  | .activateFleet => do
    let g ← g.activateFleet
    pure (g, none)
  | .beginRotation => do
    let (_, g) ← g.beginRotation
    pure (g, none)
  | .stopShipping => .ok (g.stopShipping, none)
  | .fence => .ok (g.fence, none)

/-- One call. A call that fails leaves the gate as it was. -/
def step (hash : Hash) (r : GateRun) (c : GateCall) : GateRun :=
  match perform hash r.gate c with
  | .ok (g, t) => r.record g c t
  | .error _ => r

/-- The calls of a run, in order. -/
def run (hash : Hash) (r : GateRun) (calls : List GateCall) : GateRun :=
  calls.foldl (step hash) r

end GateRun

/-! ## What one call does -/

/-- The sequences of a ticket. -/
theorem CommitTicket.mem_sequences {t : CommitTicket} :
    s ∈ t.sequences ↔ t.firstSequence ≤ s ∧ s ≤ t.lastSequence := by
  rw [CommitTicket.sequences, mem_range'_1]
  omega

/-- The ticket is a range of sequences below `next`. -/
structure CommitTicket.Within (t : CommitTicket) (next : Nat) : Prop where
  pos : 1 ≤ t.firstSequence
  ordered : t.firstSequence ≤ t.lastSequence
  below : t.lastSequence < next

/-- A ticket stays within what is issued. -/
theorem CommitTicket.Within.mono {t : CommitTicket} (h : t.Within n) (hle : n ≤ m) : t.Within m :=
  ⟨h.pos, h.ordered, h.below.trans_le hle⟩

namespace GateState

variable {g g' : GateState} {t : CommitTicket}

/-- A sum that fits. -/
@[simp] theorem add_bind_eq_ok : add a b e >>= k = .ok c ↔ a + b ≤ u64Max ∧ k (a + b) = .ok c := by
  unfold add checkedAdd
  by_cases h : a + b ≤ u64Max <;> simp [h]

/-- A gate that goes on. -/
@[simp] theorem refuseStopped_bind_eq_ok :
    g.refuseStopped >>= k = .ok c ↔ g.fenced = false ∧ g.rotating = false ∧ k () = .ok c := by
  unfold refuseStopped
  cases g.fenced <;> cases g.rotating <;> simp

/-- A valid ticket is within what is issued. -/
theorem validateTicket_ok (h : g.validateTicket t = .ok u) : t.Within g.nextSequence := by
  simp only [validateTicket, reject_eq_ok, Bool.or_eq_false_iff, decide_eq_false_iff_not,
    beq_eq_false_iff_ne] at h
  obtain ⟨⟨⟨_, h1⟩, h2⟩, h3⟩ := h
  exact ⟨by omega, by omega, by omega⟩

/-- What the rest of a gate does not touch: the coverage and the acknowledgements. -/
structure SameCoverage (g g' : GateState) : Prop where
  tiered : g'.tieredThrough = g.tieredThrough
  objects : g'.objectCovered = g.objectCovered
  followers : g'.followerThrough = g.followerThrough
  members : g'.members = g.members

/-- The gate hands out exactly the ticket `t`. -/
structure Issues (g : GateState) (t : CommitTicket) (g' : GateState) : Prop
    extends SameCoverage g g' where
  running : g.rotating = false
  first : t.firstSequence = g.nextSequence
  ordered : t.firstSequence ≤ t.lastSequence
  next : g'.nextSequence = t.lastSequence + 1
  bound : t.lastSequence + 1 ≤ u64Max
  rotating : g'.rotating = g.rotating

variable {n : Nat} {tickets : List CommitTicket}

/-- What issuing a ticket does. -/
theorem issue_ok (h : g.issue n = .ok (t, g')) : g.Issues t g' := by
  simp only [issue, reject_bind_eq_ok, refuseStopped_bind_eq_ok, add_bind_eq_ok, pure,
    Except.pure, ok.injEq, Prod.mk.injEq] at h
  obtain ⟨-, -, hrun, -, hbound, rfl, rfl⟩ := h
  exact ⟨⟨rfl, rfl, rfl, rfl⟩, hrun, rfl, Nat.le_add_right _ _, rfl, hbound, rfl⟩

/-- Committing frames issues their ticket. -/
theorem commitFrames_ok {hash : Hash} (h : g.commitFrames hash t frames = .ok (a, g')) :
    g.Issues t g' := by
  simp only [commitFrames, reject_bind_eq_ok, refuseStopped_bind_eq_ok,
    Bool.or_eq_false_iff, decide_eq_false_iff_not, bne_eq_false_iff_eq] at h
  obtain ⟨-, hrun, ⟨⟨⟨⟨-, hfirst⟩, -⟩, hle⟩, -⟩, -, h⟩ := h
  obtain ⟨_, _, h⟩ := bind_eq_ok.1 h
  simp only [add_bind_eq_ok, pure, Except.pure, ok.injEq, Prod.mk.injEq] at h
  obtain ⟨hbound, -, rfl⟩ := h
  exact ⟨⟨rfl, rfl, rfl, rfl⟩, hrun, hfirst, Nat.not_lt.1 hle, rfl, hbound, rfl⟩

/-- A closure changes the closed Cells alone. -/
theorem closeCellIssuance_ok (h : g.closeCellIssuance scope base = .ok (i, g')) :
    ∃ closed, g' = { g with closedCells := closed } := by
  simp only [closeCellIssuance, reject_bind_eq_ok, pure, Except.pure, ok.injEq, Prod.mk.injEq] at h
  exact ⟨_, h.2.2.2.2.symm⟩

/-- What activating the fleet does. -/
theorem activateFleet_ok (h : g.activateFleet = .ok g') : g' = { g with fleetActive := true } := by
  simp only [activateFleet, refuseStopped_bind_eq_ok, pure, Except.pure, ok.injEq] at h
  exact h.2.2.symm

/-- What an acknowledgement does. -/
theorem acknowledge_ok (h : g.acknowledge member through = .ok g') :
    g' = { g with followerThrough := Function.update g.followerThrough member (some through) } := by
  simp only [acknowledge, refuseStopped_bind_eq_ok] at h
  obtain ⟨-, -, h⟩ := h
  cases hcurrent : g.followerThrough member with
  | none => simp [hcurrent] at h
  | some current =>
    simp only [hcurrent, reject_bind_eq_ok, pure, Except.pure, ok.injEq] at h
    exact h.2.symm

/-- A rotation begins when everything is tiered. -/
theorem beginRotation_ok (h : g.beginRotation = .ok (b, g')) :
    g.fenced = false ∧ g.tieredThrough = g.nextSequence - 1
      ∧ g' = { g with rotating := true, fleetActive := false } := by
  simp only [beginRotation, reject_bind_eq_ok, pure, Except.pure, ok.injEq,
    Prod.mk.injEq, bne_eq_false_iff_eq] at h
  exact ⟨h.1, h.2.1, h.2.2.2.symm⟩

/-- A proof of objects is of valid tickets, and marks them. -/
theorem proveObjects_ok (h : g.proveObjects tickets = .ok (n, g')) :
    (∀ t ∈ tickets, t.Within g.nextSequence) ∧ g' = g.markObjectCoverage tickets := by
  simp only [proveObjects, forM_bind_eq_ok, reject_bind_eq_ok, pure, Except.pure,
    ok.injEq, Prod.mk.injEq] at h
  obtain ⟨hvalid, -, -, rfl⟩ := h
  exact ⟨fun t ht => validateTicket_ok (hvalid t ht), rfl⟩

/-- The gate after bundles have confirmed tickets. -/
def confirmedBy (g : GateState) (tickets : List CommitTicket) : GateState :=
  { g with bundleCovered := tickets.foldl markBundleCoverage g.bundleCovered }.markObjectCoverage
    tickets

/-- A bundle confirms the tickets of its assignments. -/
theorem confirmBundleRanges_ok (h : g.confirmBundleRanges assignments = .ok (n, g')) :
    (∀ t ∈ assignments.map AssignedCommitRange.ticket, t.Within g.nextSequence)
      ∧ g' = g.confirmedBy (assignments.map AssignedCommitRange.ticket) := by
  simp only [confirmBundleRanges, forM_bind_eq_ok, reject_bind_eq_ok, pure,
    Except.pure, ok.injEq, Prod.mk.injEq] at h
  obtain ⟨-, hvalid, -, rfl⟩ := h
  refine ⟨fun t ht => ?_, rfl⟩
  obtain ⟨a, ha, rfl⟩ := mem_map.1 ht
  obtain ⟨u, hu, -⟩ := bind_eq_ok.1 (hvalid a ha)
  exact validateTicket_ok hu

/-- The inner loop of `mark_object_coverage` inserts the sequences beyond the prefix. -/
theorem mem_foldl_insert {sequences : List Nat} {covered : Finset Nat} :
    s ∈ sequences.foldl (fun covered sequence =>
        if sequence > through then insert sequence covered else covered) covered
      ↔ s ∈ covered ∨ through < s ∧ s ∈ sequences := by
  induction sequences generalizing covered with
  | nil => simp
  | cons x xs ih =>
    have hinsert : s ∈ (if x > through then insert x covered else covered)
        ↔ s ∈ covered ∨ through < s ∧ s = x := by
      split
      · next hx =>
        rw [Finset.mem_insert, or_comm]
        exact or_congr_right ⟨fun h => ⟨h ▸ hx, h⟩, And.right⟩
      · next hx => exact (or_iff_left fun (h : through < s ∧ s = x) => hx (h.2 ▸ h.1)).symm
    rw [foldl_cons, ih, hinsert, mem_cons, and_or_left, or_assoc]

/-- What `mark_object_coverage` inserts before it advances the prefix. -/
theorem mem_insertObjects {s : Nat} :
    s ∈ g.insertObjects tickets
      ↔ s ∈ g.objectCovered
        ∨ g.tieredThrough < s ∧ s ∈ {s | ∃ t ∈ tickets, s ∈ t.sequences} := by
  unfold insertObjects
  generalize g.objectCovered = covered
  induction tickets generalizing covered with
  | nil => simp
  | cons t ts ih =>
    rw [foldl_cons, ih, mem_foldl_insert, or_assoc, ← and_or_left]
    simp only [Set.mem_ofPred_eq, exists_mem_cons_iff]

/-- Marking keeps the prefix and the sparse set in step with the union of the tickets. -/
theorem markObjectCoverage_represents (h : PrefixSet.Represents g.tieredThrough g.objectCovered U)
    (hbound : ∀ s ∈ U ∪ {s | ∃ t ∈ tickets, s ∈ t.sequences}, s ≤ u64Max) :
    PrefixSet.Represents (g.markObjectCoverage tickets).tieredThrough
      (g.markObjectCoverage tickets).objectCovered (U ∪ {s | ∃ t ∈ tickets, s ∈ t.sequences}) :=
  PrefixSet.represents_advance (h.toHolds.add fun _ => mem_insertObjects) hbound le_rfl

/-- A ticket that the prefix and the sparse set cover lies in the set they stand for. -/
theorem objectCovers_subset {U : Set Nat}
    (h : PrefixSet.Represents g.tieredThrough g.objectCovered U) (hpos : 1 ≤ t.firstSequence)
    (hcovers : g.objectCovers t = true) : ∀ s ∈ t.sequences, s ∈ U := by
  intro s hs
  obtain ⟨hfirst, hlast⟩ := CommitTicket.mem_sequences.1 hs
  simp only [objectCovers, Bool.or_eq_true, decide_eq_true_eq, all_eq_true] at hcovers
  rcases hcovers with hcovers | hcovers
  · exact h.run s (hpos.trans hfirst) (hlast.trans hcovers)
  · exact h.mem (hpos.trans hfirst) (hcovers s hs)

end GateState

namespace GateRun

open GateState

/-- What one call can do to a gate and its history. -/
inductive Move (r : GateRun) : GateRun → Prop
  /-- Nothing the history speaks of; a gate that rotates keeps rotating. -/
  | keep {g : GateState} (same : r.gate.SameCoverage g)
      (next : g.nextSequence = r.gate.nextSequence)
      (rotating : r.gate.rotating = true → g.rotating = true) : Move r { r with gate := g }
  /-- One more ticket. -/
  | issue {g : GateState} {t : CommitTicket} (h : r.gate.Issues t g) :
      Move r { r with gate := g, issued := r.issued ++ [t] }
  /-- One more acknowledgement. -/
  | acknowledge (member : NodeId) (through : Nat) :
      Move r { r with
        gate := { r.gate with
          followerThrough := Function.update r.gate.followerThrough member (some through) }
        acked := (member, through) :: r.acked }
  /-- More coverage. The merged bundle ranges only name the source of a proof. -/
  | prove {tickets : List CommitTicket} (ranges : List (Nat × Nat))
      (h : ∀ t ∈ tickets, t.Within r.gate.nextSequence) :
      Move r { r with
        gate := { r.gate with bundleCovered := ranges }.markObjectCoverage tickets
        proven := r.proven ++ tickets }

variable {r r' : GateRun} {hash : Hash}

/-- A gate may stay. -/
theorem Move.refl (r : GateRun) : Move r r := .keep ⟨rfl, rfl, rfl, rfl⟩ rfl id

variable {g : GateState} {s : Nat}

/-- What a call that succeeds does to a gate. -/
inductive Performed (hash : Hash) (g : GateState) :
    GateCall → GateState → Option CommitTicket → Prop
  | issue {n : Nat} {t : CommitTicket} {g' : GateState} (h : g.issue n = .ok (t, g')) :
      Performed hash g (.issue n) g' (some t)
  | commitFrames {t : CommitTicket} {frames : List VerifiedNodeFrame}
      {a : Option AssignedCommitRange} {g' : GateState}
      (h : g.commitFrames hash t frames = .ok (a, g')) :
      Performed hash g (.commitFrames t frames) g' (some t)
  | closeCellIssuance {scope : CellLogScope} {base : CellRootRef} (closed : Finset CellLogScope) :
      Performed hash g (.closeCellIssuance scope base) { g with closedCells := closed } none
  | acknowledge {member : NodeId} {through : Nat} :
      Performed hash g (.acknowledge member through) { g with
        followerThrough := Function.update g.followerThrough member (some through) } none
  | prove {tickets : List CommitTicket} (h : ∀ t ∈ tickets, t.Within g.nextSequence) :
      Performed hash g (.proveObjects tickets) (g.markObjectCoverage tickets) none
  | confirm {assignments : List AssignedCommitRange}
      (h : ∀ t ∈ assignments.map AssignedCommitRange.ticket, t.Within g.nextSequence) :
      Performed hash g (.confirmBundleRanges assignments)
        (g.confirmedBy (assignments.map AssignedCommitRange.ticket)) none
  | activateFleet : Performed hash g .activateFleet { g with fleetActive := true } none
  | beginRotation :
      Performed hash g .beginRotation { g with rotating := true, fleetActive := false } none
  | stopShipping : Performed hash g .stopShipping g.stopShipping none
  | fence : Performed hash g .fence g.fence none

/-- What a call that succeeds performs. -/
theorem perform_ok (h : perform hash g c = .ok (g', t)) : Performed hash g c g' t := by
  cases c with
  | issue n =>
    obtain ⟨⟨t', g'⟩, hcall, h⟩ := bind_eq_ok.1 h
    cases h
    exact .issue hcall
  | commitFrames ticket frames =>
    obtain ⟨⟨a, g'⟩, hcall, h⟩ := bind_eq_ok.1 h
    cases h
    exact .commitFrames hcall
  | closeCellIssuance scope base =>
    obtain ⟨⟨i, g'⟩, hcall, h⟩ := bind_eq_ok.1 h
    cases h
    obtain ⟨closed, rfl⟩ := closeCellIssuance_ok hcall
    exact .closeCellIssuance closed
  | acknowledge member through =>
    obtain ⟨g', hcall, h⟩ := bind_eq_ok.1 h
    cases h
    cases acknowledge_ok hcall
    exact .acknowledge
  | proveObjects tickets =>
    obtain ⟨⟨n, g'⟩, hcall, h⟩ := bind_eq_ok.1 h
    cases h
    obtain ⟨hvalid, rfl⟩ := proveObjects_ok hcall
    exact .prove hvalid
  | confirmBundleRanges assignments =>
    obtain ⟨⟨n, g'⟩, hcall, h⟩ := bind_eq_ok.1 h
    cases h
    obtain ⟨hvalid, rfl⟩ := confirmBundleRanges_ok hcall
    exact .confirm hvalid
  | activateFleet =>
    obtain ⟨g', hcall, h⟩ := bind_eq_ok.1 h
    cases h
    cases activateFleet_ok hcall
    exact .activateFleet
  | beginRotation =>
    obtain ⟨⟨b, g'⟩, hcall, h⟩ := bind_eq_ok.1 h
    cases h
    obtain ⟨-, -, rfl⟩ := beginRotation_ok hcall
    exact .beginRotation
  | stopShipping =>
    cases h
    exact .stopShipping
  | fence =>
    cases h
    exact .fence

/-- A call that succeeds is one of the moves. -/
theorem perform_move {c : GateCall}
    (h : perform hash r.gate c = .ok (g, t)) : Move r (r.record g c t) := by
  cases perform_ok h with
  | issue hcall => exact .issue (issue_ok hcall)
  | commitFrames hcall => exact .issue (commitFrames_ok hcall)
  | acknowledge => exact .acknowledge _ _
  | prove hvalid => exact .prove r.gate.bundleCovered hvalid
  | confirm hvalid => exact .prove _ hvalid
  | beginRotation | stopShipping => exact .keep ⟨rfl, rfl, rfl, rfl⟩ rfl fun _ => rfl
  | closeCellIssuance | activateFleet | fence => exact .keep ⟨rfl, rfl, rfl, rfl⟩ rfl id

/-- Every call is one of the moves; a failed one does nothing. -/
theorem step_move (hash : Hash) (r : GateRun) (c : GateCall) : Move r (r.step hash c) := by
  unfold step
  split
  · next h => exact perform_move h
  · exact Move.refl r

/-! ## The history behind the state -/

/-- How the state of a gate stands for the history of its run. -/
structure Inv (members : List NodeId) (r : GateRun) : Prop where
  /-- The tickets are consecutive. -/
  tiled : r.issued.flatMap (·.sequences) = List.range' 1 (r.gate.nextSequence - 1)
  next_pos : 1 ≤ r.gate.nextSequence
  next_bound : r.gate.nextSequence ≤ u64Max
  /-- The prefix and the sparse set stand for the union of the confirmed tickets. -/
  coverage : PrefixSet.Represents r.gate.tieredThrough r.gate.objectCovered r.covered
  /-- Only issued sequences are confirmed. -/
  within : ∀ t ∈ r.proven, t.Within r.gate.nextSequence
  members_eq : r.gate.members = members.toFinset
  /-- A watermark above zero was acknowledged. -/
  acks : ∀ m w, r.gate.followerThrough m = some w → 0 < w → (m, w) ∈ r.acked

/-- The sequences of the proven tickets. -/
theorem mem_covered : s ∈ r.covered ↔ ∃ t ∈ r.proven, t.firstSequence ≤ s ∧ s ≤ t.lastSequence := by
  simp only [covered, Set.mem_ofPred_eq, CommitTicket.mem_sequences]

/-- More tickets cover more. -/
theorem covered_append (r : GateRun) (g : GateState) (tickets : List CommitTicket) :
    covered { r with gate := g, proven := r.proven ++ tickets }
      = r.covered ∪ {s | ∃ t ∈ tickets, s ∈ t.sequences} := by
  ext s
  simp only [covered, Set.mem_ofPred_eq, Set.mem_union, mem_append, or_and_right, exists_or]

/-- A covered sequence was issued. -/
theorem Inv.covered_lt {members : List NodeId} (h : r.Inv members) (hs : s ∈ r.covered) :
    1 ≤ s ∧ s < r.gate.nextSequence := by
  obtain ⟨t, ht, h1, h2⟩ := mem_covered.1 hs
  have hw := h.within t ht
  exact ⟨hw.pos.trans h1, h2.trans_lt hw.below⟩

/-- The tickets stay consecutive when one more is issued. -/
theorem tiled_append (h : r.gate.Issues t g) (hpos : 1 ≤ r.gate.nextSequence)
    (htiled : r.issued.flatMap (·.sequences) = List.range' 1 (r.gate.nextSequence - 1)) :
    (r.issued ++ [t]).flatMap (·.sequences) = List.range' 1 (g.nextSequence - 1) := by
  have hfirst := h.first
  have hordered := h.ordered
  have hsum : g.nextSequence - 1
      = (r.gate.nextSequence - 1) + (t.lastSequence + 1 - t.firstSequence) := by
    rw [h.next]
    omega
  rw [flatMap_append, htiled, hsum, flatMap_singleton, CommitTicket.sequences, hfirst,
    ← range'_append_1]
  congr 2
  omega

/-- Every move keeps the state in step with the history. -/
theorem Move.inv {members : List NodeId} (hmove : Move r r') (h : r.Inv members) :
    r'.Inv members := by
  cases hmove with
  | @keep g same next _ =>
    refine ⟨?_, ?_, ?_, ?_, ?_, same.members.trans h.members_eq, ?_⟩
    · exact h.tiled.trans (by rw [next])
    · exact next ▸ h.next_pos
    · exact next ▸ h.next_bound
    · exact same.tiered ▸ same.objects ▸ h.coverage
    · exact next ▸ h.within
    · exact same.followers ▸ h.acks
  | @issue g t hissue =>
    have hle : r.gate.nextSequence ≤ g.nextSequence := by
      have h1 := hissue.first
      have h2 := hissue.ordered
      have h3 := hissue.next
      omega
    refine ⟨tiled_append hissue h.next_pos h.tiled, h.next_pos.trans hle, ?_, ?_, ?_,
      hissue.members.trans h.members_eq, ?_⟩
    · exact hissue.next ▸ hissue.bound
    · exact hissue.tiered ▸ hissue.objects ▸ h.coverage
    · exact fun t ht => (h.within t ht).mono hle
    · exact hissue.followers ▸ h.acks
  | acknowledge member through =>
    refine ⟨h.tiled, h.next_pos, h.next_bound, h.coverage, h.within, h.members_eq, ?_⟩
    intro m w hw hpos
    rcases eq_or_ne m member with rfl | hne
    · cases (Function.update_self m (some through) r.gate.followerThrough).symm.trans hw
      exact mem_cons_self
    · exact mem_cons_of_mem _
        (h.acks m w ((Function.update_of_ne hne _ _).symm.trans hw) hpos)
  | @prove tickets ranges hvalid =>
    have hwithin : ∀ t ∈ r.proven ++ tickets, t.Within r.gate.nextSequence :=
      forall_mem_append.2 ⟨h.within, hvalid⟩
    refine ⟨h.tiled, h.next_pos, h.next_bound, ?_, hwithin, h.members_eq, h.acks⟩
    rw [covered_append]
    refine markObjectCoverage_represents h.coverage fun s hs => ?_
    -- every sequence of the union was issued, so the prefix can be advanced over all of it
    rw [← covered_append r r.gate tickets] at hs
    obtain ⟨t, ht, _, hlast⟩ := mem_covered.1 hs
    exact hlast.trans ((hwithin t ht).below.le.trans h.next_bound)

/-- A gate that rotates issues nothing, and goes on rotating. -/
theorem Move.rotating (hmove : Move r r') (h : r.gate.rotating = true) :
    r'.gate.rotating = true ∧ r'.issued = r.issued := by
  cases hmove with
  | keep _ _ rotating => exact ⟨rotating h, rfl⟩
  | issue hissue => exact absurd h (by rw [hissue.running]; exact Bool.false_ne_true)
  | acknowledge _ _ => exact ⟨h, rfl⟩
  | prove _ _ => exact ⟨h, rfl⟩

/-- Every run keeps the state in step with the history. -/
theorem run_inv {members : List NodeId} (h : r.Inv members) (calls : List GateCall) :
    (r.run hash calls).Inv members := by
  induction calls generalizing r with
  | nil => exact h
  | cons c cs ih => exact ih ((step_move hash r c).inv h)

/-- A gate that rotates never issues again. -/
theorem run_rotating (h : r.gate.rotating = true) (calls : List GateCall) :
    (r.run hash calls).issued = r.issued := by
  induction calls generalizing r with
  | nil => rfl
  | cons c cs ih =>
    obtain ⟨hrotating, hissued⟩ := (step_move hash r c).rotating h
    exact (ih hrotating).trans hissued

/-- The history of a new gate is empty. -/
theorem start_inv (i : Nat) (session : SessionId) (node : NodeId) (epoch : Nat)
    (members : List NodeId) : (start (.fresh i session node epoch members)).Inv members where
  tiled := rfl
  next_pos := le_rfl
  next_bound := show 1 ≤ u64Max by decide
  coverage := by
    have : covered (start (.fresh i session node epoch members)) = ∅ := by
      ext s
      simp [covered, start]
    rw [this]
    exact PrefixSet.represents_empty
  within := by simp [start]
  members_eq := rfl
  acks := by
    intro m w hw hpos
    simp only [start, GateState.fresh] at hw
    split at hw
    · cases hw
      exact absurd hpos (lt_irrefl 0)
    · cases hw

/-! ## Proofs and rotation -/

/-- What a proof of the gate rests on: the confirmed tickets hold the whole ticket, or the fleet is
active and every member acknowledged its last sequence. -/
def Backed (members : List NodeId) (r : GateRun) (t : CommitTicket) : Prop :=
  (∀ s ∈ t.sequences, s ∈ r.covered)
    ∨ r.gate.fleetActive = true
      ∧ ∀ m ∈ members, ∃ through, (m, through) ∈ r.acked ∧ t.lastSequence ≤ through

variable {members : List NodeId} {t : CommitTicket} {p : DurabilityProof}

section
variable (h : r.Inv members)
include h

/-- An object proof is backed. -/
theorem Inv.confirmedObjectProof
    (hp : r.gate.confirmedObjectProof t = .ok p) : p.ticket = t ∧ r.Backed members t := by
  simp only [GateState.confirmedObjectProof, pure, Except.pure] at hp
  obtain ⟨u, hvalid, hp⟩ := bind_eq_ok.1 hp
  simp only [reject_bind_eq_ok, ok.injEq, Bool.not_eq_false'] at hp
  obtain ⟨-, hcovers, rfl⟩ := hp
  exact ⟨rfl, Or.inl
    (objectCovers_subset h.coverage (validateTicket_ok hvalid).pos hcovers)⟩

/-- The watermarks that cover a ticket were all acknowledged. -/
theorem Inv.followersCover (hlast : 1 ≤ t.lastSequence) (hcover : r.gate.followersCover t = true) :
    ∀ m ∈ members, ∃ through, (m, through) ∈ r.acked ∧ t.lastSequence ≤ through := by
  intro m hm
  have hmem : m ∈ r.gate.members := by
    rw [h.members_eq]
    exact mem_toFinset.2 hm
  have hreached := (of_decide_eq_true hcover) m hmem
  obtain ⟨through, hthrough, hle⟩ := Option.any_eq_true _ _ |>.1 hreached
  have hle : t.lastSequence ≤ through := of_decide_eq_true hle
  exact ⟨through, h.acks m through hthrough (hlast.trans hle), hle⟩

/-- Every proof is backed. -/
theorem Inv.proof (hp : r.gate.proof t = .ok (some p)) : p.ticket = t ∧ r.Backed members t := by
  unfold GateState.proof at hp
  obtain ⟨u, hvalid, hp⟩ := bind_eq_ok.1 hp
  have hwithin := validateTicket_ok hvalid
  rw [reject_bind_eq_ok] at hp
  obtain ⟨-, hp⟩ := hp
  split at hp
  · next hcovers =>
    cases hp
    exact ⟨rfl, Or.inl (objectCovers_subset h.coverage hwithin.pos hcovers)⟩
  · split at hp
    · next hfleet =>
      cases hp
      obtain ⟨hactive, hcover⟩ := Bool.and_eq_true_iff.1 hfleet
      exact ⟨rfl, Or.inr ⟨hactive, h.followersCover (hwithin.pos.trans hwithin.ordered) hcover⟩⟩
    · cases hp

/-- The issued sequences are those below the next one. -/
theorem Inv.mem_issued : s ∈ r.issued.flatMap (·.sequences) ↔ 1 ≤ s ∧ s < r.gate.nextSequence := by
  have hpos := h.next_pos
  rw [h.tiled, mem_range'_1]
  omega

/-- The prefix reaches the last issued sequence exactly when every issued sequence is covered. -/
theorem Inv.covered_eq_issued :
    r.gate.tieredThrough = r.gate.nextSequence - 1
      ↔ r.covered = {s | s ∈ r.issued.flatMap (·.sequences)} := by
  have hpos := h.next_pos
  constructor
  · intro htiered
    ext s
    rw [Set.mem_ofPred_eq, h.mem_issued]
    constructor
    · exact h.covered_lt
    · rintro ⟨h1, h2⟩
      exact h.coverage.run s h1 (by omega)
  · intro hcovered
    have hmem : ∀ s, s ∈ r.covered ↔ 1 ≤ s ∧ s < r.gate.nextSequence := by
      intro s
      rw [hcovered, Set.mem_ofPred_eq, h.mem_issued]
    refine le_antisymm ?_ (h.coverage.isGreatest.2 fun s h1 h2 => (hmem s).2 ⟨h1, by omega⟩)
    by_contra hlt
    have hlast := h.coverage.run r.gate.tieredThrough (by omega) le_rfl
    have := (hmem _).1 hlast
    omega

/-- A rotation begins exactly when all that was issued is covered. -/
theorem Inv.beginRotation (hopen : r.gate.fenced = false) :
    (∃ b g, r.gate.beginRotation = .ok (b, g))
      ↔ r.covered = {s | s ∈ r.issued.flatMap (·.sequences)} := by
  rw [← h.covered_eq_issued]
  constructor
  · rintro ⟨b, g, hb⟩
    exact (beginRotation_ok hb).2.1
  · intro htiered
    simp [GateState.beginRotation, hopen, htiered, pure, Except.pure]

end

/-- After a rotation began no call issues a sequence. -/
theorem run_beginRotation (hb : r.gate.beginRotation = .ok (b, g))
    (later : List GateCall) : (r.run hash (.beginRotation :: later)).issued = r.issued := by
  have hstep : r.step hash .beginRotation = { r with gate := g } := by
    simp [step, perform, hb, record, pure, Except.pure]
  obtain ⟨-, -, hg⟩ := beginRotation_ok hb
  have hrun : r.run hash (.beginRotation :: later) = run hash { r with gate := g } later := by
    rw [← hstep]
    rfl
  rw [hrun]
  refine run_rotating ?_ later
  rw [hg]

/-- In every run of one gate: a proof is backed by the confirmed tickets or by the whole active
fleet; the prefix is the longest one in the union of the confirmed tickets and the sparse set is the
rest; the issued tickets tile the sequences below the next one; and an unfenced gate begins its
rotation exactly when everything issued is covered, after which nothing more is issued. -/
theorem gate_coverage (hash : Hash) {i : Nat} {session : SessionId} {node : NodeId}
    {epoch : Nat} {members : List NodeId} {g : GateState}
    (hnew : GateState.new i session node epoch members = .ok g) (calls : List GateCall)
    (r : GateRun) (hr : r = (start g).run hash calls) :
    (∀ t p, r.gate.proof t = .ok (some p) ∨ r.gate.confirmedObjectProof t = .ok p →
        p.ticket = t ∧ r.Backed members t)
      ∧ IsGreatest {n | ∀ s, 1 ≤ s → s ≤ n → s ∈ r.covered} r.gate.tieredThrough
      ∧ (∀ s, s ∈ r.gate.objectCovered ↔ s ∈ r.covered ∧ r.gate.tieredThrough < s)
      ∧ r.issued.flatMap (·.sequences) = List.range' 1 (r.gate.nextSequence - 1)
      ∧ (r.gate.fenced = false → ((∃ b g, r.gate.beginRotation = .ok (b, g))
          ↔ r.covered = {s | s ∈ r.issued.flatMap (·.sequences)}))
      ∧ (∀ b g, r.gate.beginRotation = .ok (b, g) → ∀ later,
          (r.run hash (.beginRotation :: later)).issued = r.issued) := by
  simp only [GateState.new, reject_bind_eq_ok, pure, Except.pure, ok.injEq] at hnew
  obtain ⟨-, rfl⟩ := hnew
  have h : r.Inv members := hr ▸ run_inv (start_inv i session node epoch members) calls
  refine ⟨?_, h.coverage.isGreatest, h.coverage.rest, h.tiled, h.beginRotation,
    fun b g hb later => run_beginRotation hb later⟩
  rintro t p (hp | hp)
  · exact h.proof hp
  · exact h.confirmedObjectProof hp

/-- A gate with one follower. -/
def sampleGate : GateState := .fresh 1 (.fill 16 1) (.fill 16 2) 1 [.fill 16 3]

/-- Two tickets; the second is confirmed first, and the follower reaches the end of the first. -/
def sampleRun : GateRun := (start sampleGate).run (fun _ => .fill 32 0)
  [.issue 2, .issue 1, .proveObjects [⟨.fill 16 1, 1, 3, 3⟩], .activateFleet,
    .acknowledge (.fill 16 3) 2]

/-- In the sample the fleet proves the ticket. -/
theorem gate_coverage_fleet :
    GateState.new 1 (.fill 16 1) (.fill 16 2) 1 [.fill 16 3] = .ok sampleGate
      ∧ sampleRun.gate.proof ⟨.fill 16 1, 1, 1, 2⟩ = .ok (some ⟨⟨.fill 16 1, 1, 1, 2⟩, .fleet⟩)
      ∧ sampleRun.Backed [.fill 16 3] ⟨.fill 16 1, 1, 1, 2⟩ := by
  have hnew : GateState.new 1 (.fill 16 1) (.fill 16 2) 1 [.fill 16 3] = .ok sampleGate := rfl
  have hproof : sampleRun.gate.proof ⟨.fill 16 1, 1, 1, 2⟩
      = .ok (some ⟨⟨.fill 16 1, 1, 1, 2⟩, .fleet⟩) := rfl
  exact ⟨hnew, hproof, ((gate_coverage (fun _ => .fill 32 0) hnew _ sampleRun rfl).1 _ _
    (Or.inl hproof)).2⟩

end GateRun

end Cellule
