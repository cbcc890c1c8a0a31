import Cellule.Lib.Ranges
import Cellule.NodeLog.Coverage

/-!
# What a gate was told of objects and bundles

The merged bundle ranges are the canonical list of the sequences that bundles confirmed (`Bundled`,
kept by every call), so that they name the source of a proof exactly. The prefix and the sparse set
depend only on the union of the tickets that were proven, in any order, and a preview finds the
prefix a proof would leave.
-/

namespace Cellule

open Except GateState
open Ranges (Canonical)
open List

namespace GateState

variable {g g' : GateState} {t : CommitTicket} {ranges : List (Nat × Nat)}

/-! ## Merged bundle ranges -/

/-- The last range that starts at `first` or before; every other one of them ends before it. -/
theorem getLast_filter (h : Canonical ranges) :
    (∀ r, (ranges.filter fun r => decide (r.1 ≤ first)).getLast? = some r →
      r ∈ ranges ∧ r.1 ≤ first ∧ ∀ a ∈ ranges, a.1 ≤ first → a = r ∨ a.2 + 1 < r.1) ∧
    ((ranges.filter fun r => decide (r.1 ≤ first)).getLast? = none →
      ∀ a ∈ ranges, first < a.1) := by
  have hmem : ∀ {a}, a ∈ ranges.filter (fun r => decide (r.1 ≤ first)) ↔ a ∈ ranges ∧ a.1 ≤ first :=
    fun {a} => by rw [mem_filter, decide_eq_true_iff]
  refine ⟨fun r hr => ?_, fun hnone a ha => ?_⟩
  · obtain ⟨front, hfront⟩ := getLast?_eq_some_iff.1 hr
    obtain ⟨hin, hle⟩ := hmem.1 (hfront ▸ mem_append_right front (mem_singleton_self r))
    refine ⟨hin, hle, fun a ha hfirst => ?_⟩
    have ha' : a ∈ front ++ [r] := hfront ▸ hmem.2 ⟨ha, hfirst⟩
    have hapart := (h.filter fun r => decide (r.1 ≤ first)).apart
    rw [hfront] at hapart
    rcases mem_append.1 ha' with ha' | ha'
    · exact .inr ((pairwise_append.1 hapart).2.2 a ha' r (mem_singleton_self r))
    · exact .inl (mem_singleton.1 ha')
  · by_contra hlt
    have := hmem.2 ⟨ha, not_lt.1 hlt⟩
    rw [getLast?_eq_none_iff.1 hnone] at this
    cases this

/-- One merged range holds a ticket exactly when every sequence of it is in a range. -/
theorem bundleCovers_iff (h : Canonical g.bundleCovered) (ht : t.firstSequence ≤ t.lastSequence) :
    g.bundleCovers t = true ↔ ∀ s ∈ t.sequences, s ∈ Ranges.members g.bundleCovered := by
  obtain ⟨hsome, hnone⟩ := @getLast_filter _ t.firstSequence h
  simp only [CommitTicket.mem_sequences, bundleCovers]
  cases hlast : (g.bundleCovered.filter fun r => decide (r.1 ≤ t.firstSequence)).getLast? with
  | none =>
    refine ⟨(nomatch ·), fun hall => ?_⟩
    obtain ⟨a, ha, hfirst, -⟩ := hall t.firstSequence ⟨le_rfl, ht⟩
    exact absurd hfirst (not_le.2 (hnone hlast a ha))
  | some r =>
    obtain ⟨hr, hfirst, hbefore⟩ := hsome r hlast
    rw [Option.any_some, decide_eq_true_iff]
    refine ⟨fun hle s hs => ⟨r, hr, hfirst.trans hs.1, hs.2.trans hle⟩, fun hall => ?_⟩
    -- the range of the first sequence is this one, and it does not end before the ticket does
    obtain ⟨a, ha, hafirst, halast⟩ := hall t.firstSequence ⟨le_rfl, ht⟩
    have heq : a = r := (hbefore a ha hafirst).resolve_right fun hlt => by omega
    subst heq
    by_contra hlt
    exact (h.mem_iff.1 hr).2.2.1 (hall (a.2 + 1) ⟨by omega, by omega⟩)

/-- The absorbing loop joins the ranges that begin in the run so far or right after it. -/
theorem absorb_spec (h : Canonical ranges) (hle : first ≤ last)
    (hfirst : ∀ r ∈ ranges, first ≤ r.1) (hlast : last < u64Max)
    (hbound : ∀ r ∈ ranges, r.2 < u64Max) :
    last ≤ (absorb last ranges).1 ∧ Canonical (absorb last ranges).2 ∧
      (∀ r ∈ (absorb last ranges).2, (absorb last ranges).1 + 1 < r.1) ∧
      ∀ s, (first ≤ s ∧ s ≤ (absorb last ranges).1) ∨ s ∈ Ranges.members (absorb last ranges).2 ↔
        (first ≤ s ∧ s ≤ last) ∨ s ∈ Ranges.members ranges := by
  induction ranges generalizing last with
  | nil => exact ⟨le_rfl, h, by simp [absorb], fun s => by simp [absorb]⟩
  | cons r ranges ih =>
    have hadd : saturatingAdd last 1 = last + 1 := Nat.min_eq_left hlast
    have horder := h.ordered r (mem_cons_self ..)
    have hr := hfirst r (mem_cons_self ..)
    have hapart := pairwise_cons.1 h.apart
    have hrest : Canonical ranges := ⟨fun a ha => h.ordered a (mem_cons_of_mem _ ha), hapart.2⟩
    rw [absorb, hadd]
    split
    · next hgap =>
      refine ⟨le_rfl, h, fun a ha => ?_, fun s => Iff.rfl⟩
      rcases mem_cons.1 ha with rfl | ha
      · exact hgap
      · have := hapart.1 a ha
        omega
    · next hjoin =>
      have hr2 := hbound r (mem_cons_self ..)
      obtain ⟨hge, hcanonical, hbeyond, hmembers⟩ := ih hrest (hle.trans (le_max_left last r.2))
        (fun a ha => hfirst a (mem_cons_of_mem _ ha)) (max_lt hlast hr2)
        fun a ha => hbound a (mem_cons_of_mem _ ha)
      refine ⟨(le_max_left _ _).trans hge, hcanonical, hbeyond, fun s => ?_⟩
      rw [hmembers, Ranges.mem_members_cons, ← or_assoc]
      refine or_congr_left ?_
      omega

/-- The ranges with a run in the place of those it joins. -/
def replaceRun (ranges : List (Nat × Nat)) (first last : Nat) : List (Nat × Nat) :=
  (ranges.filter fun r => decide (r.1 < first)) ++
    (first, (absorb last (ranges.filter fun r => decide (first ≤ r.1))).1) ::
    (absorb last (ranges.filter fun r => decide (first ≤ r.1))).2

/-- A run joins the ranges as one when those that begin before it end before it. -/
theorem replaceRun_spec (h : Canonical ranges) (hle : first ≤ last)
    (hbefore : ∀ r ∈ ranges, r.1 < first → r.2 + 1 < first) (hlast : last < u64Max)
    (hbound : ∀ r ∈ ranges, r.2 < u64Max) :
    Canonical (replaceRun ranges first last) ∧
      ∀ s, s ∈ Ranges.members (replaceRun ranges first last)
      ↔ s ∈ Ranges.members ranges ∨ first ≤ s ∧ s ≤ last := by
  have hleft : ∀ {a}, a ∈ ranges.filter (fun r => decide (r.1 < first)) ↔
    a ∈ ranges ∧ a.1 < first :=
    fun {a} => by rw [mem_filter, decide_eq_true_iff]
  have hright : ∀ {a}, a ∈ ranges.filter (fun r => decide (first ≤ r.1)) ↔
    a ∈ ranges ∧ first ≤ a.1 :=
    fun {a} => by rw [mem_filter, decide_eq_true_iff]
  obtain ⟨hge, hcanonical, hbeyond, hmembers⟩ :=
    absorb_spec (h.filter fun r => decide (first ≤ r.1))
    hle (fun r hr => (hright.1 hr).2) hlast fun r hr => hbound r (hright.1 hr).1
  unfold replaceRun
  refine ⟨⟨forall_mem_append.2 ⟨fun r hr => h.ordered r (hleft.1 hr).1,
    forall_mem_cons.2 ⟨hle.trans hge, hcanonical.ordered⟩⟩, pairwise_append.2 ⟨(h.filter _).apart,
    pairwise_cons.2 ⟨hbeyond, hcanonical.apart⟩, fun a ha b hb => ?_⟩⟩, fun s => ?_⟩
  · have hend := hbefore a (hleft.1 ha).1 (hleft.1 ha).2
    rcases mem_cons.1 hb with rfl | hb
    · exact hend
    · have := hbeyond b hb
      omega
  · rw [Ranges.mem_members_append, Ranges.mem_members_cons, hmembers]
    -- every range is on one side of the run
    have hsides : s ∈ Ranges.members ranges ↔
        s ∈ Ranges.members (ranges.filter fun r => decide (r.1 < first)) ∨
        s ∈ Ranges.members (ranges.filter fun r => decide (first ≤ r.1)) := by
      simp only [Ranges.mem_members, hleft, hright]
      constructor
      · rintro ⟨r, hr, hs⟩
        rcases lt_or_ge r.1 first with hlt | hge
        · exact .inl ⟨r, ⟨hr, hlt⟩, hs⟩
        · exact .inr ⟨r, ⟨hr, hge⟩, hs⟩
      · rintro (⟨r, ⟨hr, -⟩, hs⟩ | ⟨r, ⟨hr, -⟩, hs⟩)
        · exact ⟨r, hr, hs⟩
        · exact ⟨r, hr, hs⟩
    rw [hsides, or_assoc, or_comm (a := first ≤ s ∧ s ≤ last)]

/-- The ranges after one more ticket are canonical, and have its sequences besides. -/
theorem markBundleCoverage_spec (h : Canonical ranges) (hbound : ∀ r ∈ ranges, r.2 < u64Max)
    (ht : t.firstSequence ≤ t.lastSequence) (hlast : t.lastSequence < u64Max) :
    Canonical (markBundleCoverage ranges t) ∧ ∀ s,
      s ∈ Ranges.members (markBundleCoverage ranges t) ↔
      s ∈ Ranges.members ranges ∨ s ∈ t.sequences := by
  obtain ⟨hsome, hnone⟩ := @getLast_filter _ t.firstSequence h
  simp only [CommitTicket.mem_sequences]
  cases htouch : touching t.firstSequence ranges with
  | none =>
    have hresult : markBundleCoverage ranges t
        = replaceRun ranges t.firstSequence t.lastSequence := by
      simp only [markBundleCoverage, htouch, replaceRun]
    rw [hresult]
    refine replaceRun_spec h ht (fun a ha hfirst => ?_) hlast hbound
    unfold touching at htouch
    split at htouch
    · next r hr =>
      obtain ⟨-, hr1, hothers⟩ := hsome r hr
      split at htouch
      · cases htouch
      · next hgap =>
        rcases hothers a ha hfirst.le with rfl | hlt
        · omega
        · have := h.ordered
          omega
    · next hr => exact absurd hfirst (not_lt.2 (hnone hr a ha).le)
  | some r =>
    obtain ⟨before, through⟩ := r
    obtain ⟨hr, hbefore, hreach⟩ : (before, through) ∈ ranges ∧ before ≤ t.firstSequence ∧
        t.firstSequence - 1 ≤ through := by
      unfold touching at htouch
      split at htouch
      · next r hr =>
        split at htouch
        · next hreach =>
          cases htouch
          exact ⟨(hsome _ hr).1, (hsome _ hr).2.1, hreach⟩
        · cases htouch
      · cases htouch
    have hrest : ∀ {a}, a ∈ ranges.filter (fun r => r.1 != before) ↔ a ∈ ranges ∧ a.1 ≠ before :=
      fun {a} => by rw [mem_filter, bne_iff_ne]
    have hapart : ∀ a ∈ ranges, a = (before, through) ∨ a.2 + 1 < before ∨ through + 1 < a.1 :=
      fun a ha => h.eq_or_apart ha hr
    have hresult : markBundleCoverage ranges t
        = replaceRun (ranges.filter fun r => r.1 != before) before
          (max t.lastSequence through) := by
      simp only [markBundleCoverage, htouch, replaceRun]
    have horder := h.ordered _ hr
    dsimp only at horder
    obtain ⟨hcanonical, hmembers⟩ := replaceRun_spec (h.filter fun r => r.1 != before)
      (show before ≤ max t.lastSequence through by omega) (fun a ha hlt => by
        rcases hapart a (hrest.1 ha).1 with rfl | hend | hend
        · exact absurd rfl (hrest.1 ha).2
        · exact hend
        · omega) (max_lt hlast (hbound _ hr)) fun a ha => hbound a (hrest.1 ha).1
    rw [hresult]
    refine ⟨hcanonical, fun s => (hmembers s).trans ?_⟩
    have hsplit : s ∈ Ranges.members ranges ↔
        s ∈ Ranges.members (ranges.filter fun r => r.1 != before) ∨ before ≤ s ∧ s ≤ through := by
      simp only [Ranges.mem_members, hrest]
      constructor
      · rintro ⟨a, ha, hs⟩
        rcases hapart a ha with rfl | hend | hend
        · exact .inr hs
        · exact .inl ⟨a, ⟨ha, by have := h.ordered a ha; omega⟩, hs⟩
        · exact .inl ⟨a, ⟨ha, by omega⟩, hs⟩
      · rintro (⟨a, ⟨ha, -⟩, hs⟩ | hs)
        · exact ⟨a, ha, hs⟩
        · exact ⟨_, hr, hs⟩
    rw [hsplit, or_assoc]
    refine or_congr_right ?_
    omega

/-- The ranges after any number of tickets. -/
theorem foldl_markBundleCoverage {tickets : List CommitTicket} (h : Canonical ranges)
    (hbound : ∀ s ∈ Ranges.members ranges, s < u64Max)
    (ht : ∀ t ∈ tickets, t.firstSequence ≤ t.lastSequence ∧ t.lastSequence < u64Max) :
    Canonical (tickets.foldl markBundleCoverage ranges) ∧
      ∀ s, s ∈ Ranges.members (tickets.foldl markBundleCoverage ranges) ↔
        s ∈ Ranges.members ranges ∨ ∃ t ∈ tickets, s ∈ t.sequences := by
  induction tickets generalizing ranges with
  | nil => exact ⟨h, fun s => by simp⟩
  | cons t tickets ih =>
    obtain ⟨hle, hlt⟩ := ht t (mem_cons_self ..)
    obtain ⟨hcanonical, hmembers⟩ := markBundleCoverage_spec h
      (fun r hr => hbound r.2 ⟨r, hr, h.ordered r hr, le_rfl⟩) hle hlt
    have hbound' : ∀ s ∈ Ranges.members (markBundleCoverage ranges t), s < u64Max := fun s hs =>
      ((hmembers s).1 hs).elim (hbound s) fun hs => (CommitTicket.mem_sequences.1 hs).2.trans_lt hlt
    obtain ⟨hcanonical', hmembers'⟩ := ih hcanonical hbound'
      fun t ht' => ht t (mem_cons_of_mem _ ht')
    refine ⟨hcanonical', fun s => ?_⟩
    rw [foldl_cons, hmembers', hmembers, or_assoc, exists_mem_cons_iff]

/-- A ticket all of whose sequences are covered is covered. -/
theorem objectCovers_of_subset
    (h : PrefixSet.Represents g.tieredThrough g.objectCovered U) (hall : ∀ s ∈ t.sequences, s ∈ U) :
    g.objectCovers t = true := by
  simp only [objectCovers, Bool.or_eq_true, decide_eq_true_eq, all_eq_true]
  refine .inr fun s hs => ?_
  rcases le_or_gt s g.tieredThrough with hle | hlt
  · exact .inl hle
  · exact .inr ((h.rest s).2 ⟨hall s hs, hlt⟩)

/-! ## Proving objects in any order -/

/-- `DurabilityGate::preview_objects` (`node/log/mod.rs:838`). Each round of the loop passes a
member of one of the two sets, so their sizes are fuel enough. -/
def previewObjects (g : GateState) (tickets : List CommitTicket) : Result Nat := do
  tickets.forM g.validateTicket
  reject g.fenced .fenced
  let covered := (tickets.flatMap (·.sequences)).toFinset
  pure (PrefixSet.reach u64Max (fun next => decide (next ∈ g.objectCovered)
    || decide (next ∈ covered))
    (g.objectCovered.card + covered.card) g.tieredThrough)

/-- A batch is proven when every ticket is valid and the gate is not fenced. -/
theorem proveObjects_eq_ok :
    g.proveObjects tickets = .ok result ↔ (∀ t ∈ tickets, g.validateTicket t = .ok ()) ∧
      g.fenced = false ∧
      ((g.markObjectCoverage tickets).tieredThrough, g.markObjectCoverage tickets) = result := by
  simp only [proveObjects, forM_bind_eq_ok, reject_bind_eq_ok, pure, Except.pure, ok.injEq]

section

variable {U : Set Nat} (h : PrefixSet.Represents g.tieredThrough g.objectCovered U)
  (hU : ∀ s ∈ U, s ≤ u64Max) (hnext : g.nextSequence ≤ u64Max)
include hU hnext

/-- The sequences of valid tickets are numbers the prefix can reach. -/
theorem le_of_valid {tickets : List CommitTicket}
    (hvalid : ∀ t ∈ tickets, g.validateTicket t = .ok ()) :
    ∀ s ∈ U ∪ {s | ∃ t ∈ tickets, s ∈ t.sequences}, s ≤ u64Max := by
  rintro s (hs | ⟨t, ht, hs⟩)
  · exact hU s hs
  · have hbelow := (validateTicket_ok (hvalid t ht)).below
    exact (CommitTicket.mem_sequences.1 hs).2.trans (hbelow.le.trans hnext)

include h

/-- The preview is the prefix that the proof would leave. -/
theorem previewObjects_eq (tickets : List CommitTicket) :
    g.previewObjects tickets = (g.proveObjects tickets).map (·.1) := by
  unfold previewObjects proveObjects
  cases hchecked : tickets.forM g.validateTicket with
  | error e => rfl
  | ok u =>
    have hvalid := forM_eq_ok.1 hchecked
    have hmember : ∀ s, g.tieredThrough < s → ((decide (s ∈ g.objectCovered)
        || decide (s ∈ (tickets.flatMap (·.sequences)).toFinset)) = true
        ↔ s ∈ g.insertObjects tickets) := fun s hs => by
      simp [mem_insertObjects, hs]
    have hcard : (g.insertObjects tickets).card
        ≤ g.objectCovered.card + (tickets.flatMap (·.sequences)).toFinset.card := by
      refine (Finset.card_le_card fun s hs => ?_).trans (Finset.card_union_le _ _)
      rcases mem_insertObjects.1 hs with hs | ⟨-, hs⟩
      · exact Finset.mem_union_left _ hs
      · exact Finset.mem_union_right _ (by simpa using hs)
    have hholds : PrefixSet.Holds g.tieredThrough (g.insertObjects tickets)
        (U ∪ {s | ∃ t ∈ tickets, s ∈ t.sequences}) := h.toHolds.add fun _ => mem_insertObjects
    have hbound := le_of_valid hU hnext hvalid
    have hreach := (PrefixSet.reach_eq_advance hmember).trans
      ((PrefixSet.represents_advance hholds hbound hcard).unique
        (PrefixSet.represents_advance hholds hbound le_rfl)).1
    cases g.fenced with
    | true => rfl
    | false => exact congrArg Except.ok hreach

/-- Two batches leave what one with the same sequences leaves. -/
theorem markObjectCoverage_mark {first second both : List CommitTicket}
    (hboth : ∀ t, t ∈ both ↔ t ∈ first ∨ t ∈ second)
    (hvalid : ∀ t ∈ both, g.validateTicket t = .ok ()) :
    (g.markObjectCoverage first).markObjectCoverage second = g.markObjectCoverage both := by
  have hunion : U ∪ {s | ∃ t ∈ first, s ∈ t.sequences} ∪ {s | ∃ t ∈ second, s ∈ t.sequences}
      = U ∪ {s | ∃ t ∈ both, s ∈ t.sequences} := by
    ext s
    simp only [Set.mem_union, Set.mem_ofPred_eq, hboth, or_and_right, exists_or, or_assoc]
  have hbound := le_of_valid hU hnext hvalid
  have hfirst := markObjectCoverage_represents h fun s hs => hbound s (hunion ▸ .inl hs)
  have hsecond := markObjectCoverage_represents hfirst fun s hs => hbound s (hunion ▸ hs)
  rw [hunion] at hsecond
  obtain ⟨htiered, hobjects⟩ := hsecond.unique (markObjectCoverage_represents h hbound)
  calc (g.markObjectCoverage first).markObjectCoverage second
      = { g with
          tieredThrough := ((g.markObjectCoverage first).markObjectCoverage second).tieredThrough
          objectCovered := ((g.markObjectCoverage first).markObjectCoverage second).objectCovered
            } :=
        rfl
    _ = g.markObjectCoverage both := by
      rw [htiered, hobjects]
      rfl

/-- Two batches leave the same gate in either order and as one. -/
theorem proveObjects_append (hfirst : g.proveObjects first = .ok (n₁, g₁))
    (hsecond : g.proveObjects second = .ok (n₂, g₂)) :
    ∃ result, g₁.proveObjects second = .ok result ∧ g₂.proveObjects first = .ok result ∧
      g.proveObjects (first ++ second) = .ok result := by
  obtain ⟨hvalid₁, hopen, heq₁⟩ := proveObjects_eq_ok.1 hfirst
  obtain ⟨hvalid₂, -, heq₂⟩ := proveObjects_eq_ok.1 hsecond
  obtain ⟨-, rfl⟩ := Prod.mk.inj heq₁
  obtain ⟨-, rfl⟩ := Prod.mk.inj heq₂
  have hvalid : ∀ t ∈ first ++ second, g.validateTicket t = .ok () := fun t ht =>
    (mem_append.1 ht).elim (hvalid₁ t) (hvalid₂ t)
  have h₁₂ := markObjectCoverage_mark h hU hnext (fun t => mem_append) hvalid
  have h₂₁ := markObjectCoverage_mark h hU hnext (fun t => mem_append.trans or_comm) hvalid
  refine ⟨_, proveObjects_eq_ok.2 ⟨hvalid₂, hopen, rfl⟩, proveObjects_eq_ok.2 ⟨hvalid₁, hopen, ?_⟩,
    proveObjects_eq_ok.2 ⟨hvalid, hopen, ?_⟩⟩
  · rw [h₁₂, h₂₁]
  · rw [h₁₂]

end

end GateState

/-- The tickets that a call confirms by bundles. -/
def GateCall.confirms : GateCall → List CommitTicket
  | .confirmBundleRanges assignments => assignments.map (·.ticket)
  | _ => []

namespace GateRun

variable {hash : Hash} {r : GateRun} {members : List NodeId} {tickets : List CommitTicket}

/-- The tickets that the calls of a run confirmed by bundles. -/
def confirmed (hash : Hash) (r : GateRun) : List GateCall → List CommitTicket
  | [] => []
  | c :: calls =>
    (match perform hash r.gate c with
      | .ok _ => c.confirms
      | .error _ => []) ++ confirmed hash (r.step hash c) calls

/-- Only a confirmation by bundles changes the merged ranges. -/
theorem perform_bundleCovered (h : perform hash g c = .ok (g', t)) :
    g'.bundleCovered = c.confirms.foldl markBundleCoverage g.bundleCovered ∧
      ∀ t ∈ c.confirms, t.Within g.nextSequence := by
  have hnone := forall_mem_nil fun t : CommitTicket => t.Within g.nextSequence
  cases perform_ok h with
  | issue hcall =>
    simp only [GateState.issue, reject_bind_eq_ok, refuseStopped_bind_eq_ok,
      add_bind_eq_ok, pure, Except.pure, ok.injEq, Prod.mk.injEq] at hcall
    obtain ⟨-, -, -, -, -, -, rfl⟩ := hcall
    exact ⟨rfl, hnone⟩
  | commitFrames hcall =>
    simp only [GateState.commitFrames, reject_bind_eq_ok, refuseStopped_bind_eq_ok] at hcall
    obtain ⟨-, -, -, -, hcall⟩ := hcall
    obtain ⟨_, -, hcall⟩ := bind_eq_ok.1 hcall
    simp only [add_bind_eq_ok, pure, Except.pure, ok.injEq, Prod.mk.injEq] at hcall
    obtain ⟨-, -, rfl⟩ := hcall
    exact ⟨rfl, hnone⟩
  | confirm hvalid => exact ⟨rfl, hvalid⟩
  | _ => exact ⟨rfl, hnone⟩

/-- How the merged ranges stand for the tickets that bundles confirmed. -/
structure Bundled (r : GateRun) (tickets : List CommitTicket) : Prop where
  canonical : Canonical r.gate.bundleCovered
  exact : ∀ s, s ∈ Ranges.members r.gate.bundleCovered ↔ ∃ t ∈ tickets, s ∈ t.sequences
  proven : ∀ t ∈ tickets, t ∈ r.proven

/-- A call that succeeds keeps the ranges in step with what bundles confirmed. -/
theorem Bundled.record
    (h : Bundled r tickets) (hinv : r.Inv members) (hcall : perform hash r.gate c = .ok (g, t)) :
    Bundled (r.record g c t) (tickets ++ c.confirms) := by
  obtain ⟨hranges, hwithin⟩ := perform_bundleCovered hcall
  have hgate : (r.record g c t).gate = g := by cases c <;> rfl
  have hproven : ∀ t' ∈ tickets ++ c.confirms, t' ∈ (r.record g c t).proven := fun t' ht' => by
    rcases mem_append.1 ht' with ht' | ht'
    · have := h.proven t' ht'
      cases c <;> first | exact this | exact mem_append_left _ this
    · cases c with
      | confirmBundleRanges assignments => exact mem_append_right _ ht'
      | _ => cases ht'
  have hbelow : ∀ t ∈ tickets, ∀ s ∈ t.sequences, s < u64Max := fun t ht s hs =>
    ((CommitTicket.mem_sequences.1 hs).2.trans_lt (hinv.within t (h.proven t ht)).below).trans_le
      hinv.next_bound
  obtain ⟨hcanonical, hmembers⟩ := foldl_markBundleCoverage h.canonical
    (fun s hs => by
      obtain ⟨t, ht, hs⟩ := (h.exact s).1 hs
      exact hbelow t ht s hs)
    fun t ht => ⟨(hwithin t ht).ordered, (hwithin t ht).below.trans_le hinv.next_bound⟩
  rw [← hranges] at hcanonical hmembers
  refine ⟨by rwa [hgate], fun s => ?_, hproven⟩
  rw [hgate, hmembers, h.exact]
  simp only [mem_append, or_and_right, exists_or]

/-- Every run keeps the ranges in step with what bundles confirmed. -/
theorem Bundled.run (h : Bundled r tickets) (hinv : r.Inv members) (calls : List GateCall) :
    Bundled (r.run hash calls) (tickets ++ confirmed hash r calls) := by
  induction calls generalizing r tickets with
  | nil =>
    rw [confirmed, append_nil]
    exact h
  | cons c calls ih =>
    have hstep : Bundled (r.step hash c) (tickets ++ match perform hash r.gate c with
        | .ok _ => c.confirms
        | .error _ => []) := by
      unfold step
      cases hcall : perform hash r.gate c with
      | ok result => exact h.record hinv hcall
      | error e =>
        rw [append_nil]
        exact h
    rw [confirmed, ← append_assoc]
    exact ih hstep ((step_move hash r c).inv hinv)

/-- In every run of one gate the merged bundle ranges are the one canonical list of the sequences
that bundles confirmed; a proof names a bundle as its source exactly when bundles confirmed every
sequence of its ticket. -/
theorem bundleCovered_exact (hash : Hash) {i : Nat} {session : SessionId}
    {node : NodeId} {epoch : Nat} {members : List NodeId} {g : GateState}
    (hnew : GateState.new i session node epoch members = .ok g) (calls : List GateCall) :
    Canonical ((start g).run hash calls).gate.bundleCovered ∧
    (∀ s, s ∈ Ranges.members ((start g).run hash calls).gate.bundleCovered ↔
      ∃ t ∈ confirmed hash (start g) calls, s ∈ t.sequences) ∧
    (∀ ranges, Canonical ranges →
      (∀ s, s ∈ Ranges.members ranges ↔ ∃ t ∈ confirmed hash (start g) calls, s ∈ t.sequences) →
      ranges = ((start g).run hash calls).gate.bundleCovered) ∧
    ∀ t p, ((start g).run hash calls).gate.proof t = .ok (some p) →
      (p.source = .bundle ↔
        ∀ s ∈ t.sequences, ∃ t' ∈ confirmed hash (start g) calls, s ∈ t'.sequences) := by
  simp only [GateState.new, reject_bind_eq_ok, pure, Except.pure, ok.injEq] at hnew
  obtain ⟨-, rfl⟩ := hnew
  have hinv := start_inv i session node epoch members
  have h : Bundled (start (.fresh i session node epoch members)) [] :=
    ⟨Ranges.Canonical.nil, fun s => by simp [start, GateState.fresh, Ranges.mem_members], by simp⟩
  have h := @Bundled.run hash _ _ _ h hinv calls
  have hinv := @run_inv _ hash _ hinv calls
  rw [nil_append] at h
  refine ⟨h.canonical, h.exact, fun ranges hranges hmembers => hranges.unique h.canonical
    (Set.ext fun s => (hmembers s).trans (h.exact s).symm), fun t p hp => ?_⟩
  unfold GateState.proof at hp
  obtain ⟨u, hvalid, hp⟩ := bind_eq_ok.1 hp
  have hcovers := bundleCovers_iff h.canonical (validateTicket_ok hvalid).ordered
  simp only [h.exact] at hcovers
  obtain ⟨-, hp⟩ := reject_bind_eq_ok.1 hp
  rw [← hcovers]
  split at hp
  · cases hp
    split
    · next hbundle => simp [hbundle]
    · next hbundle => simp [hbundle]
  · next hobjects =>
    -- what bundles confirmed is covered
    have hbundle : ¬ GateState.bundleCovers _ t = true := fun hbundle =>
      hobjects (objectCovers_of_subset hinv.coverage fun s hs => by
        obtain ⟨t', ht', hs⟩ := hcovers.1 hbundle s hs
        exact ⟨t', h.proven t' ht', hs⟩)
    split at hp
    · cases hp
      simp [hbundle]
    · cases hp

/-- In every state that a run of one gate reaches: a preview of tickets returns the prefix that
their proof would leave, or is refused as the proof is; two batches are accepted together exactly
when each is, and then leave the same gate and prefix in either order and as one batch. -/
theorem objects_any_order (hash : Hash) {i : Nat} {session : SessionId}
    {node : NodeId} {epoch : Nat} {members : List NodeId} {g : GateState}
    (hnew : GateState.new i session node epoch members = .ok g) (calls : List GateCall)
    {gate : GateState} (hgate : gate = ((start g).run hash calls).gate) :
    (∀ tickets, gate.previewObjects tickets = (gate.proveObjects tickets).map (·.1)) ∧
    ∀ first second,
      ((∃ result, gate.proveObjects (first ++ second) = .ok result) ↔
        (∃ result, gate.proveObjects first = .ok result) ∧
          ∃ result, gate.proveObjects second = .ok result) ∧
      ∀ n₁ g₁ n₂ g₂, gate.proveObjects first = .ok (n₁, g₁) →
        gate.proveObjects second = .ok (n₂, g₂) →
        ∃ result, g₁.proveObjects second = .ok result ∧ g₂.proveObjects first = .ok result ∧
          gate.proveObjects (first ++ second) = .ok result := by
  simp only [GateState.new, reject_bind_eq_ok, pure, Except.pure, ok.injEq] at hnew
  obtain ⟨-, rfl⟩ := hnew
  have h := @run_inv _ hash _ (start_inv i session node epoch members) calls
  have hbound : ∀ s ∈ covered ((start (.fresh i session node epoch members)).run hash calls),
      s ≤ u64Max := fun s hs => (h.covered_lt hs).2.le.trans h.next_bound
  subst hgate
  refine ⟨previewObjects_eq h.coverage hbound h.next_bound, fun first second =>
    ⟨?_, fun n₁ g₁ n₂ g₂ => proveObjects_append h.coverage hbound h.next_bound⟩⟩
  simp only [proveObjects_eq_ok, exists_and_left, exists_eq', and_true, forall_mem_append]
  tauto

/-- Sequences 3 and 2 are proven after 1. -/
theorem objects_any_order_sample :
    GateState.new 1 (.fill 16 1) (.fill 16 2) 1 [.fill 16 3] = .ok sampleGate ∧
    ((start sampleGate).run (fun _ => .fill 32 0) [.issue 3]).gate.previewObjects
      [⟨.fill 16 1, 1, 3, 3⟩, ⟨.fill 16 1, 1, 1, 2⟩] = .ok 3 ∧
    (((start sampleGate).run (fun _ => .fill 32 0) [.issue 3]).gate.proveObjects
      [⟨.fill 16 1, 1, 3, 3⟩, ⟨.fill 16 1, 1, 1, 2⟩]).map (·.1) = .ok 3 := by
  have hnew : GateState.new 1 (.fill 16 1) (.fill 16 2) 1 [.fill 16 3] = .ok sampleGate := rfl
  have hpreview : ((start sampleGate).run (fun _ => .fill 32 0) [.issue 3]).gate.previewObjects
      [⟨.fill 16 1, 1, 3, 3⟩, ⟨.fill 16 1, 1, 1, 2⟩] = .ok 3 := by decide +kernel
  exact ⟨hnew, hpreview, ((objects_any_order (fun _ => .fill 32 0) hnew [.issue 3] rfl).1
    _).symm.trans
    hpreview⟩

/-- A gate that issues four sequences; bundles confirm the last, then the first two. -/
def sampleBundles : List GateCall :=
  let confirm (first last : Nat) : GateCall := .confirmBundleRanges [{
    gateInstance := 1
    ticket := ⟨.fill 16 1, 1, first, last⟩
    scope := ⟨.fill 16 1, .fill 32 1, .fill 16 1, 1⟩
    firstCommit := 1
    commit := 1
    position := ⟨1, 1⟩
    digest := .fill 32 0
    captureDigest := .fill 32 0 }]
  [.issue 1, .issue 1, .issue 2, confirm 4 4, confirm 1 1, confirm 2 2]

/-- Bundles confirm 1, 2 and 4 in the sample. -/
theorem bundleCovered_exact_sample :
    GateState.new 1 (.fill 16 1) (.fill 16 2) 1 [.fill 16 3] = .ok sampleGate ∧
    ((start sampleGate).run (fun _ => .fill 32 0) sampleBundles).gate.bundleCovered
      = [(1, 2), (4, 4)] ∧
    ∀ s, s ∈ Ranges.members [(1, 2), (4, 4)] ↔
      ∃ t ∈ confirmed (fun _ => .fill 32 0) (start sampleGate) sampleBundles, s ∈ t.sequences := by
  have hnew : GateState.new 1 (.fill 16 1) (.fill 16 2) 1 [.fill 16 3] = .ok sampleGate := rfl
  exact ⟨hnew, by decide, (bundleCovered_exact (fun _ => .fill 32 0) hnew sampleBundles).2.1⟩

end GateRun

end Cellule
