import Cellule.Bundle.Tracking

/-!
# What a stage does

A stage takes up the frames of whole captures. Each binding gets the frames of its writer in their
order (`Catalog.grows_of_foldlM`): the captures that were assigned to it (`exists_ownGroups`).
-/

namespace Cellule

open Except List Option Binding

/-! ## The frames of one binding -/

/-- The frames of the writer of a binding. -/
def Binding.own (b : Binding) (frames : List VerifiedNodeFrame) : List VerifiedNodeFrame :=
  frames.filter fun f => b.owns f.scope

/-- The binding with frames at its end. -/
def Binding.appendAll (hash : Hash) (b : Binding) (frames : List VerifiedNodeFrame) :
    Result Binding :=
  frames.foldlM (Binding.append hash) b

theorem Binding.owns_iff {b : Binding} {scope : NodeFrameScope} :
    b.owns scope = true ↔ b.scope = GateState.cellScope scope := by
  unfold Binding.owns Binding.scope GateState.cellScope
  simp only [Bool.and_eq_true, beq_iff_eq, CellLogScope.mk.injEq, and_assoc]

section
variable {hash : Hash} {b b' : Binding} {f : VerifiedNodeFrame} {frames : List VerifiedNodeFrame}

/-- What a binding keeps when frames are put at its end. -/
structure Binding.Grown (b b' : Binding) (count : Nat) : Prop where
  application : b'.application = b.application
  control : b'.control = b.control
  phase : b'.phase = b.phase
  terminal : b'.terminal = b.terminal
  locators : ∃ added : List Locator, added.length = count ∧ b'.locators = b.locators ++ added

theorem Binding.Grown.scope {count : Nat} (h : b.Grown b' count) : b'.scope = b.scope := by
  unfold Binding.scope
  rw [h.application, h.control]

theorem Binding.append_grown (h : b.append hash f = .ok b') : b.Grown b' 1 := by
  obtain ⟨-, -, -, -, -, rfl⟩ := append_eq_ok h
  exact ⟨rfl, rfl, rfl, rfl, _, rfl, rfl⟩

theorem Binding.appendAll_grown (h : b.appendAll hash frames = .ok b') :
    b.Grown b' frames.length := by
  induction frames generalizing b with
  | nil =>
    obtain rfl := ok.inj h
    exact ⟨rfl, rfl, rfl, rfl, [], rfl, (append_nil _).symm⟩
  | cons f frames ih =>
    obtain ⟨mid, hmid, h⟩ := bind_eq_ok.1 h
    have hfirst := append_grown hmid
    have hrest := ih h
    obtain ⟨added, hadded, hlocators⟩ := hfirst.locators
    obtain ⟨more, hmore, hlocators'⟩ := hrest.locators
    refine ⟨hrest.application.trans hfirst.application, hrest.control.trans hfirst.control,
      hrest.phase.trans hfirst.phase, hrest.terminal.trans hfirst.terminal, added ++ more, ?_, ?_⟩
    · rw [length_append, hadded, hmore, length_cons, Nat.add_comm]
    · rw [hlocators', hlocators, append_assoc]

/-- Frames are put only at the end of a binding that is open or closing. -/
theorem Binding.appendAll_phase (h : b.appendAll hash frames = .ok b') (hne : frames ≠ []) :
    b.phase = .opened ∨ b.phase = .closing := by
  cases frames with
  | nil => exact absurd rfl hne
  | cons f frames =>
    obtain ⟨mid, hmid, -⟩ := bind_eq_ok.1 h
    exact (append_eq_ok hmid).1

/-- A binding tracks frames that are put at its end one after another. -/
theorem Tracks.appendAll {before : List VerifiedNodeFrame}
    (h : Tracks R events b before start chain) (happend : b.appendAll hash frames = .ok b')
    (hafter : ∀ f ∈ frames, b.selectedSequence < f.scope.nodeSequence)
    (hincreasing : frames.Pairwise fun f f' => f.scope.nodeSequence < f'.scope.nodeSequence)
    (hcovered : ∀ f ∈ frames, ∃ c, Covered events b.scope f c)
    (hpoints : ∀ f ∈ frames, ∀ bytes, R ⟨none, 0, bytes, f.digest hash⟩ f) :
    ∃ chain', Tracks R events b' (before ++ frames) start chain' := by
  induction frames generalizing b before chain with
  | nil =>
    obtain rfl := ok.inj happend
    rw [append_nil]
    exact ⟨chain, h⟩
  | cons f frames ih =>
    obtain ⟨mid, hmid, happend⟩ := bind_eq_ok.1 happend
    obtain ⟨hfirst, hafter⟩ := forall_mem_cons.1 hafter
    obtain ⟨hlater, hincreasing⟩ := pairwise_cons.1 hincreasing
    obtain ⟨hfirst_covered, hcovered⟩ := forall_mem_cons.1 hcovered
    obtain ⟨hfirst_points, hpoints⟩ := forall_mem_cons.1 hpoints
    have hscope := (append_grown hmid).scope
    have hsequence : mid.selectedSequence = f.scope.nodeSequence := by
      obtain ⟨-, -, -, -, -, rfl⟩ := append_eq_ok hmid
      rfl
    have hnext := h.append hmid hfirst hfirst_covered hfirst_points
    have hlater' : ∀ f' ∈ frames, mid.selectedSequence < f'.scope.nodeSequence :=
      fun f' hf' => hsequence ▸ hlater f' hf'
    obtain ⟨chain', htracks⟩ := ih hnext happend hlater' hincreasing (hscope ▸ hcovered) hpoints
    rw [append_assoc, singleton_append] at htracks
    exact ⟨chain', htracks⟩

/-! ## The catalog -/

/-- What one round of a stage does. -/
theorem Catalog.stageFrame_eq_ok {c c' : Catalog} (h : c.stageFrame hash f = .ok c') :
    f.scope.nodeSequence = c.selectedThrough + 1 ∧
      ∃ bindings, appendFrame hash f c.bindings = .ok bindings ∧
        c' = { c with bindings := bindings, selectedThrough := f.scope.nodeSequence } := by
  obtain ⟨hlane, h⟩ := reject_bind_eq_ok.1 h
  obtain ⟨bindings, hbindings, h⟩ := bind_eq_ok.1 h
  simp only [Bool.or_eq_false_iff, bne_eq_false_iff_eq] at hlane
  exact ⟨(checkedAdd_eq_some.1 hlane.2).2, bindings, hbindings, (ok.inj h).symm⟩

/-- One binding gets the frame, when a writer has at most one binding. -/
theorem appendFrame_forall₂
    (hscopes : (bindings.map (·.scope)).Nodup) (h : appendFrame hash f bindings = .ok bindings') :
    List.Forall₂ (fun b b' => b.appendAll hash (b.own [f]) = .ok b') bindings bindings' := by
  obtain ⟨before, owner, after, owner', rfl, hbefore, howner, happend, rfl⟩ :=
    editFirst_eq_ok.1 h
  have hother : ∀ b ∈ before ++ after, b.owns f.scope = false := by
    intro b hb
    rw [map_append, map_cons, nodup_middle, nodup_cons, ← map_append] at hscopes
    by_contra howns
    rw [Bool.not_eq_false, owns_iff] at howns
    rw [owns_iff] at howner
    exact hscopes.1 (mem_map.2 ⟨b, hb, howns.trans howner.symm⟩)
  have hsame : ∀ bs : List Binding, (∀ b ∈ bs, b.owns f.scope = false) →
      List.Forall₂ (fun b b' => b.appendAll hash (b.own [f]) = .ok b') bs bs := by
    intro bs hbs
    refine forall₂_same.2 fun b hb => ?_
    unfold Binding.own
    rw [filter_cons_of_neg (by rw [hbs b hb]; exact Bool.false_ne_true)]
    rfl
  refine rel_append (hsame before fun b hb => hother b (mem_append_left _ hb))
    (.cons ?_ (hsame after fun b hb => hother b (mem_append_right _ hb)))
  have hown : owner.own [f] = [f] := by
    unfold Binding.own
    simp only [filter_cons, howner, if_true, filter_nil]
  rw [hown]
  exact bind_eq_ok.2 ⟨owner', happend, rfl⟩

end

/-- What a stage does: the frames carry on the sequence of the lane, and each binding gets its
own. -/
structure Catalog.Grows (hash : Hash) (c : Catalog) (frames : List VerifiedNodeFrame)
    (c' : Catalog) : Prop where
  session : c'.session = c.session
  epoch : c'.epoch = c.epoch
  sequences : frames.map (·.scope.nodeSequence) = List.range' (c.selectedThrough + 1) frames.length
  through : c'.selectedThrough = c.selectedThrough + frames.length
  bindings : List.Forall₂ (fun b b' => b.appendAll hash (b.own frames) = .ok b')
    c.bindings c'.bindings

variable {hash : Hash} {frames : List VerifiedNodeFrame} {assignments : List AssignedCommitRange}

theorem Catalog.grows_of_foldlM {c c' : Catalog} (hscopes : (c.bindings.map (·.scope)).Nodup)
    (h : frames.foldlM (Catalog.stageFrame hash) c = .ok c') : c.Grows hash frames c' := by
  induction frames generalizing c with
  | nil =>
    obtain rfl := ok.inj h
    exact ⟨rfl, rfl, rfl, rfl, forall₂_same.2 fun _ _ => rfl⟩
  | cons f frames ih =>
    obtain ⟨mid, hmid, h⟩ := bind_eq_ok.1 h
    obtain ⟨hsequence, bindings, hbindings, rfl⟩ := Catalog.stageFrame_eq_ok hmid
    have hfirst := appendFrame_forall₂ hscopes hbindings
    have hscope : ∀ b b' : Binding, b.appendAll hash (b.own [f]) = .ok b' → b'.scope = b.scope :=
      fun b b' hb => (appendAll_grown hb).scope
    have hmap : bindings.map (·.scope) = c.bindings.map (·.scope) := hfirst.map_eq hscope
    have hrest := ih (hmap ▸ hscopes) h
    refine ⟨hrest.session, hrest.epoch, ?_, ?_, ?_⟩
    · rw [map_cons, hrest.sequences, hsequence, length_cons, range'_succ]
    · rw [hrest.through, length_cons, hsequence]
      dsimp only
      omega
    · refine Forall₂.comp (fun b b' b'' hb hb' => ?_) hfirst hrest.bindings
      have howns : ∀ g : VerifiedNodeFrame, b'.owns g.scope = b.owns g.scope := by
        intro g
        rw [Bool.eq_iff_iff, owns_iff, owns_iff, hscope b b' hb]
      have hown : b.own (f :: frames) = b.own [f] ++ b'.own frames := by
        unfold Binding.own
        simp only [howns]
        rw [← filter_append]
        rfl
      unfold appendAll at hb hb' ⊢
      rw [hown, foldlM_append, hb]
      exact hb'

/-! ## Whole captures -/

/-- What an assignment says of the frames of its capture. -/
structure AssignedCommitRange.Holds (a : AssignedCommitRange) (frames : List VerifiedNodeFrame) :
    Prop where
  length : frames.length = a.count
  sequences : frames.map (·.scope.nodeSequence) = List.range' a.ticket.firstSequence frames.length
  scope : ∀ f ∈ frames, GateState.cellScope f.scope = a.scope
  firstCommit : ∀ f ∈ frames, f.firstCommitSequence = a.firstCommit
  commit : ∀ f ∈ frames, f.scope.commitSequence = a.commit
  position : ∀ f, frames.getLast? = some f → f.segment.position = a.position

/-- What the loop of `verify` checks. -/
theorem AssignedCommitRange.covers_eq_true {a : AssignedCommitRange}
    (h : a.covers offset frames = true) :
    frames.map (·.scope.nodeSequence) =
        List.range' (a.ticket.firstSequence + offset) frames.length ∧
      ∀ f ∈ frames, GateState.cellScope f.scope = a.scope ∧ f.firstCommitSequence = a.firstCommit ∧
        f.scope.commitSequence = a.commit := by
  induction frames generalizing offset with
  | nil => exact ⟨rfl, by simp⟩
  | cons f frames ih =>
    unfold AssignedCommitRange.covers at h
    simp only [Bool.and_eq_true, beq_iff_eq] at h
    obtain ⟨⟨⟨⟨⟨-, hsequence⟩, hscope⟩, hfirst⟩, hcommit⟩, hrest⟩ := h
    obtain ⟨hsequences, hall⟩ := ih hrest
    refine ⟨?_, forall_mem_cons.2 ⟨⟨hscope, hfirst, hcommit⟩, hall⟩⟩
    rw [map_cons, hsequences, length_cons, range'_succ, hsequence, Nat.add_assoc]

theorem AssignedCommitRange.holds_of_verify {a : AssignedCommitRange}
    (h : a.verify hash frames = .ok ()) : a.Holds frames := by
  obtain ⟨hcount, h⟩ := reject_bind_eq_ok.1 h
  obtain ⟨hcovers, h⟩ := reject_bind_eq_ok.1 h
  rw [Bool.or_eq_false_iff, bne_eq_false_iff_eq] at hcount
  rw [Bool.not_eq_false'] at hcovers
  rw [reject_eq_ok, Bool.or_eq_false_iff] at h
  obtain ⟨hsequences, hall⟩ := AssignedCommitRange.covers_eq_true hcovers
  refine ⟨hcount.2, hsequences, fun f hf => (hall f hf).1, fun f hf => (hall f hf).2.1,
    fun f hf => (hall f hf).2.2, fun f hlast => ?_⟩
  have hposition := h.2
  rw [hlast, all_some, bne_eq_false_iff_eq] at hposition
  exact hposition

/-- The frames of a stage are those of its captures, one after another. -/
theorem exists_groups (h : verifyAssignments hash assignments frames = .ok ()) :
    ∃ groups, frames = groups.flatten ∧
      List.Forall₂ AssignedCommitRange.Holds assignments groups := by
  induction assignments generalizing frames with
  | nil =>
    unfold verifyAssignments at h
    rw [reject_eq_ok, Bool.not_eq_false', List.isEmpty_iff] at h
    exact ⟨[], h, .nil⟩
  | cons a assignments ih =>
    unfold verifyAssignments at h
    obtain ⟨-, h⟩ := reject_bind_eq_ok.1 h
    obtain ⟨_, hverify, h⟩ := bind_eq_ok.1 h
    obtain ⟨groups, hgroups, hholds⟩ := ih h
    refine ⟨_ :: groups, ?_, .cons (AssignedCommitRange.holds_of_verify hverify) hholds⟩
    rw [flatten_cons, ← hgroups, take_append_drop]

/-- The captures of one writer among the captures of a stage. -/
theorem exists_ownGroups
    (h : List.Forall₂ AssignedCommitRange.Holds assignments groups) (b : Binding) :
    ∃ own, List.Forall₂ AssignedCommitRange.Holds (assignments.filter (·.scope == b.scope)) own ∧
      b.own groups.flatten = own.flatten := by
  induction h with
  | nil => exact ⟨[], .nil, rfl⟩
  | @cons a group assignments groups hgroup _ ih =>
    obtain ⟨own, hown, hflatten⟩ := ih
    have howns : ∀ f ∈ group, b.owns f.scope = (a.scope == b.scope) := by
      intro f hf
      rw [Bool.eq_iff_iff, owns_iff, hgroup.scope f hf, beq_iff_eq, eq_comm]
    unfold Binding.own at hflatten ⊢
    rw [flatten_cons, filter_append, hflatten, filter_cons]
    by_cases hscope : a.scope == b.scope
    · refine ⟨group :: own, ?_, ?_⟩
      · rw [if_pos hscope]
        exact .cons hgroup hown
      · rw [flatten_cons, filter_eq_self.2 fun f hf => (howns f hf).trans hscope]
    · refine ⟨own, ?_, ?_⟩
      · rw [if_neg hscope]
        exact hown
      · rw [filter_eq_nil_iff.2 fun f hf => by rw [howns f hf]; exact hscope, nil_append]

/-- A ticket of a capture is not empty. -/
theorem Capture.Ordered.ticket_le {c : Capture} (h : c.Ordered) :
    c.ticket.firstSequence ≤ c.ticket.lastSequence := by
  have hlength := congrArg List.length h.sequences
  rw [length_map, CommitTicket.sequences, length_range', Capture.frames, length_cons] at hlength
  omega

section
variable {events : List IssuanceEvent} {a : AssignedCommitRange} {group : List VerifiedNodeFrame}
  {capture : Capture} {f : VerifiedNodeFrame}

/-- The frames of an assigned capture are of that capture. -/
theorem AssignedCommitRange.Holds.covered (h : a.Holds group) (horder : InOrder events)
    (hcapture : .assigned capture ∈ events) (hof : a.IsOf capture) (hf : f ∈ group) :
    Covered events a.scope f capture := by
  have hmem : capture ∈ capturesOf a.scope events :=
    mem_filterMap.2 ⟨.assigned capture, hcapture, if_pos hof.scope.symm⟩
  have hticket := (horder.ordered a.scope capture hmem).ticket_le
  have hsequence : f.scope.nodeSequence ∈ group.map (·.scope.nodeSequence) := mem_map_of_mem hf
  rw [h.sequences, mem_range'_1, h.length, hof.ticket, AssignedCommitRange.count,
    hof.ticket] at hsequence
  exact ⟨hmem, hsequence.1, by omega, (h.firstCommit f hf).trans hof.firstCommit,
    (h.commit f hf).trans hof.commit⟩

/-- The last frame of an assigned capture ends it. -/
theorem AssignedCommitRange.Holds.last_sequence (h : a.Holds group) (horder : InOrder events)
    (hcapture : .assigned capture ∈ events) (hof : a.IsOf capture) (hf : group.getLast? = some f) :
    f.scope.nodeSequence = a.ticket.lastSequence := by
  have hmem : capture ∈ capturesOf a.scope events :=
    mem_filterMap.2 ⟨.assigned capture, hcapture, if_pos hof.scope.symm⟩
  have hticket := (horder.ordered a.scope capture hmem).ticket_le
  have hlast := congrArg List.getLast? h.sequences
  rw [getLast?_map, hf, getLast?_range', h.length, AssignedCommitRange.count] at hlast
  have hsequence : f.scope.nodeSequence = a.ticket.firstSequence
      + 1 * (a.ticket.lastSequence - a.ticket.firstSequence + 1 - 1) := by
    simpa using hlast
  rw [hof.ticket] at hsequence ⊢
  omega

theorem AssignedCommitRange.Holds.endsCapture (h : a.Holds group) (horder : InOrder events)
    (hcapture : .assigned capture ∈ events) (hof : a.IsOf capture) (hf : group.getLast? = some f) :
    EndsCapture events a.scope f := by
  refine ⟨capture, h.covered horder hcapture hof (mem_of_getLast? hf), ?_⟩
  rw [h.last_sequence horder hcapture hof hf, hof.ticket]

theorem AssignedCommitRange.Holds.ne_nil (h : a.Holds group) : group ≠ [] := by
  rintro rfl
  have hlength := h.length
  rw [length_nil, AssignedCommitRange.count] at hlength
  omega

end

/-- All captures of a list of assignments were assigned by the gate. -/
def Assigned (events : List IssuanceEvent) (assignments : List AssignedCommitRange) : Prop :=
  ∀ a ∈ assignments, ∃ c, .assigned c ∈ events ∧ a.IsOf c

/-- The last frame of whole captures is the last one of the last of them. -/
theorem getLast?_flatten_groups (h : List.Forall₂ AssignedCommitRange.Holds assignments groups)
    (hf : groups.flatten.getLast? = some f) :
    ∃ a group, assignments.getLast? = some a ∧ a.Holds group ∧ group.getLast? = some f := by
  induction h with
  | nil => cases hf
  | @cons a group assignments groups hgroup hrest ih =>
    rw [flatten_cons, getLast?_append] at hf
    cases hlast : groups.flatten.getLast? with
    | none =>
      rw [hlast, none_or] at hf
      -- whole captures are not empty, so that there is none after this one
      have hgroups : groups = [] := by
        cases hrest with
        | nil => rfl
        | cons hnext _ =>
          rw [getLast?_eq_none_iff, flatten_cons, append_eq_nil_iff] at hlast
          exact absurd hlast.1 hnext.ne_nil
      rw [hgroups, forall₂_nil_right_iff] at hrest
      rw [hrest]
      exact ⟨a, group, rfl, hgroup, hf⟩
    | some f' =>
      rw [hlast, some_or] at hf
      obtain rfl := some.inj hf
      obtain ⟨a', group', ha', hholds, hgroup'⟩ := ih hlast
      refine ⟨a', group', ?_, hholds, hgroup'⟩
      rw [getLast?_cons, ha', getD_some]

end Cellule
