import Cellule.Bundle.Placing
import Cellule.Bundle.StagingLaws

/-!
# What holds along a lane

Every catalog that is uploaded is good: each binding tracks whole captures from its base to its
endpoint (`Carries`). A proof stands for captures of its binding up to its endpoint
(`Proven.sound`), so that a checkpoint cuts the chain where its new base stands; a stage adds whole
captures; closing and opening leave the captures alone.
-/

namespace Cellule

open Except List Option

/-! ## Good bindings -/

/-- The binding tracks frames, the last of which are the captures that were staged for it. -/
structure Carries (R : Locator → VerifiedNodeFrame → Prop) (events : List IssuanceEvent)
    (assignments : List AssignedCommitRange) (b : Binding) (older : List VerifiedNodeFrame)
    (groups : List (List VerifiedNodeFrame)) : Prop where
  tracks : ∃ start chain, Tracks R events b (older ++ groups.flatten) start chain
  holds : List.Forall₂ AssignedCommitRange.Holds (assignments.filter (·.scope == b.scope)) groups
  ends : ∀ f, (older ++ groups.flatten).getLast? = some f → EndsCapture events b.scope f

/-- The binding tracks whole captures. -/
def Binding.Tracked (R : Locator → VerifiedNodeFrame → Prop) (events : List IssuanceEvent)
    (assignments : List AssignedCommitRange) (b : Binding) : Prop :=
  ∃ older groups, Carries R events assignments b older groups

/-- What `Catalog::validate` leaves of a catalog. -/
structure Catalog.Valid (c : Catalog) : Prop where
  scopes : (c.bindings.map (·.scope)).Nodup
  pins : (c.bindings.map fun b => b.control.bundleBinding.map (·.digest)).Nodup
  through : ∀ b ∈ c.bindings, b.selectedSequence ≤ c.selectedThrough
  closed : ∀ b ∈ c.bindings, b.phase = .closed → b.terminal = some b.endpoint

/-- The bundle has a good catalog. -/
structure GoodUpload (P : Primitives) (events : List IssuanceEvent) (uploads : List Upload)
    (u : Upload) : Prop where
  bindings : ∀ b ∈ u.catalog.bindings, b.Tracked (Locates P uploads) events u.assignments
  valid : u.catalog.Valid
  assigned : Assigned events u.assignments

section
variable {P : Primitives} {events : List IssuanceEvent} {uploads uploads' : List Upload}
  {b b' : Binding} {assignments : List AssignedCommitRange}
  {R R' : Locator → VerifiedNodeFrame → Prop}

/-- Which captures were staged last may be forgotten. -/
theorem Binding.Tracked.forget (h : b.Tracked R events assignments) : b.Tracked R events [] := by
  obtain ⟨older, groups, htracks, -, hends⟩ := h
  refine ⟨older ++ groups.flatten, [], ?_, .nil, ?_⟩
  · rw [flatten_nil, append_nil]
    exact htracks
  · rw [flatten_nil, append_nil]
    exact hends

/-- The frames of a binding whose last captures are forgotten. -/
theorem Binding.Tracked.exists_frames (h : b.Tracked R events assignments) :
    ∃ frames start chain, Tracks R events b frames start chain ∧
      ∀ f, frames.getLast? = some f → EndsCapture events b.scope f := by
  obtain ⟨older, groups, ⟨start, chain, htracks⟩, -, hends⟩ := h
  exact ⟨_, start, chain, htracks, hends⟩

theorem Binding.tracked_of_tracks (h : Tracks R events b frames start chain)
    (hends : ∀ f, frames.getLast? = some f → EndsCapture events b.scope f) :
    b.Tracked R events [] := by
  refine ⟨frames, [], ?_, .nil, ?_⟩
  · rw [flatten_nil, append_nil]
    exact ⟨start, chain, h⟩
  · rw [flatten_nil, append_nil]
    exact hends

theorem Binding.Tracked.imp (h : b.Tracked R events assignments) (himp : ∀ l f, R l f → R' l f) :
    b.Tracked R' events assignments := by
  obtain ⟨older, groups, ⟨start, chain, htracks⟩, hholds, hends⟩ := h
  exact ⟨older, groups, ⟨start, chain, htracks.imp himp⟩, hholds, hends⟩

theorem GoodUpload.mono (h : GoodUpload P events uploads u)
    (hsub : ∀ v ∈ uploads, v ∈ uploads') : GoodUpload P events uploads' u :=
  { h with bindings := fun b hb => (h.bindings b hb).imp fun _ _ hl => hl.mono hsub }

/-- A binding whose phase, terminal and control record change still tracks its captures. -/
theorem Binding.Tracked.congr (h : b.Tracked R events assignments) (hscope : b'.scope = b.scope)
    (hroot : b'.control.ltxRoot = b.control.ltxRoot) (hlocators : b'.locators = b.locators)
    (hfirst : b'.firstCommit = b.firstCommit) (hend : b'.endpoint = b.endpoint) :
    b'.Tracked R events assignments := by
  obtain ⟨older, groups, ⟨start, chain, htracks⟩, hholds, hends⟩ := h
  refine ⟨older, groups, ⟨start, chain, htracks.congr hscope hroot hlocators hfirst hend⟩, ?_, ?_⟩
  · rw [hscope]
    exact hholds
  · rw [hscope]
    exact hends

end

/-! ## Proofs -/

/-- What a proof stands for: frames that its locators point at, the last of them its own captures,
which end at its endpoint. -/
structure SoundProof (P : Primitives) (events : List IssuanceEvent) (uploads : List Upload)
    (p : BundleCoverageProof) (older : List VerifiedNodeFrame)
    (groups : List (List VerifiedNodeFrame)) : Prop where
  locates : List.Forall₂ (Locates P uploads) p.binding.locators (older ++ groups.flatten)
  live : ∀ live, p.live = some live → List.Forall₂ AssignedCommitRange.Holds
    live.assignments groups ∧
    Assigned events live.assignments ∧ ∀ a ∈ live.assignments, a.scope = p.binding.scope
  ends : ∀ f, (older ++ groups.flatten).getLast? = some f → EndsCapture events p.binding.scope f ∧
    f.segment.position = p.position ∧ f.scope.commitSequence = p.commitSequence

/-- The number of frames of captures. -/
theorem sum_count_eq (h : List.Forall₂ AssignedCommitRange.Holds assignments groups) :
    (assignments.map (·.count)).sum = groups.flatten.length := by
  induction h with
  | nil => rfl
  | cons hgroup _ ih =>
    rw [map_cons, sum_cons, ih, flatten_cons, length_append, hgroup.length]

section
variable {P : Primitives} {events : List IssuanceEvent} {uploads : List Upload}
  {p p' : BundleCoverageProof} {older : List VerifiedNodeFrame}
  {groups : List (List VerifiedNodeFrame)}

/-- A proof of a binding of a good bundle. -/
theorem GoodUpload.soundProof (h : GoodUpload P events uploads u)
    (hbinding : p.binding ∈ u.catalog.bindings) (hlive : ∀ live, p.live = some live →
      live.assignments = u.assignments.filter (·.scope == p.binding.scope)) :
    ∃ older groups, SoundProof P events uploads p older groups := by
  obtain ⟨older, groups, ⟨start, chain, htracks⟩, hholds, hends⟩ := h.bindings _ hbinding
  refine ⟨older, groups, htracks.points, fun live hsome => ?_, fun f hf => ?_⟩
  · rw [hlive live hsome]
    refine ⟨hholds, fun a ha => h.assigned a (mem_filter.1 ha).1, fun a ha => ?_⟩
    exact beq_iff_eq.1 (mem_filter.1 ha).2
  · obtain ⟨before, hbefore⟩ := getLast?_eq_some_iff.1 hf
    rw [hbefore] at htracks
    have hchain := htracks.chain_eq
    refine ⟨hends f hf, ?_, ?_⟩
    · rw [BundleCoverageProof.position, ← htracks.position, hchain]
      rfl
    · rw [BundleCoverageProof.commitSequence, ← htracks.commit, hchain]
      rfl

/-- A proof up to one of its captures. -/
theorem SoundProof.narrow (horder : InOrder events) (h : SoundProof P events uploads p older groups)
    (hnarrow : p.originalCapturePrefix a = .ok p') :
    ∃ groups', SoundProof P events uploads p' older groups' := by
  obtain ⟨live, hlive, hnarrow⟩ := bind_eq_ok.1 hnarrow
  obtain ⟨index, hindex, hnarrow⟩ := bind_eq_ok.1 hnarrow
  obtain ⟨-, hnarrow⟩ := reject_bind_eq_ok.1 hnarrow
  obtain rfl := ok.inj hnarrow
  rw [okOr_eq_ok] at hlive hindex
  obtain ⟨hholds, hassigned, hscopes⟩ := h.live live hlive
  obtain ⟨hlt, hfound, -⟩ := findIdx?_eq_some_iff_getElem.1 hindex
  rw [beq_iff_eq] at hfound
  have htake := forall₂_take (index + 1) hholds
  have hlength := h.locates.length_eq
  rw [length_append] at hlength
  have hcut : (older ++ groups.flatten).take
      (p.binding.locators.length - (live.assignments.map (·.count)).sum
        + ((live.assignments.take (index + 1)).map (·.count)).sum)
      = older ++ (groups.take (index + 1)).flatten := by
    rw [sum_count_eq hholds, sum_count_eq htake, hlength, Nat.add_sub_cancel, take_append,
      take_of_length_le (Nat.le_add_right _ _), Nat.add_sub_cancel_left]
    congr 1
    rw [← take_append_drop (index + 1) groups, flatten_append,
      take_append_of_le_length (by rw [take_append_drop]),
      take_of_length_le (by rw [take_append_drop]), take_append_drop]
  have hlast : (live.assignments.take (index + 1)).getLast? = some a := by
    rw [getLast?_take]
    simp only [Nat.add_eq_zero_iff, one_ne_zero, and_false, if_false, Nat.add_sub_cancel]
    rw [getElem?_eq_getElem hlt, hfound]
    rfl
  refine ⟨groups.take (index + 1), ?_, fun live' hlive' => ?_, fun f hf => ?_⟩
  · rw [← hcut]
    exact forall₂_take _ h.locates
  · obtain rfl := some.inj hlive'
    refine ⟨htake, fun x hx => hassigned x (mem_of_mem_take hx), fun x hx => ?_⟩
    exact hscopes x (mem_of_mem_take hx)
  · have hflatten : (groups.take (index + 1)).flatten.getLast? = some f := by
      cases hcapture : (groups.take (index + 1)).flatten.getLast? with
      | none =>
        rw [getLast?_eq_none_iff, flatten_eq_nil_iff] at hcapture
        obtain ⟨group, hgroup, hholds'⟩ := htake.exists_right (mem_of_getLast? hlast)
        exact absurd (hcapture group hgroup) hholds'.ne_nil
      | some f' =>
        rw [getLast?_append, hcapture, some_or] at hf
        exact hf
    obtain ⟨a', group, ha', hgroup, hf'⟩ := getLast?_flatten_groups htake hflatten
    obtain rfl := some.inj (hlast.symm.trans ha')
    have hmem : a ∈ live.assignments := mem_of_mem_take (mem_of_getLast? hlast)
    obtain ⟨capture, hcapture, hof⟩ := hassigned a hmem
    have hscope : a.scope = p.binding.scope := hscopes a hmem
    refine ⟨?_, hgroup.position f hf', hgroup.commit f (mem_of_getLast? hf')⟩
    exact hscope ▸ hgroup.endsCapture horder hcapture hof hf'

/-- Every proof of a lane with good bundles is sound. -/
theorem Proven.sound (horder : InOrder events)
    (hgood : ∀ u ∈ uploads, GoodUpload P events uploads u) (h : Proven uploads p) :
    ∃ older groups, SoundProof P events uploads p older groups := by
  induction h with
  | selected hu hbinding _ hlive => exact (hgood _ hu).soundProof hbinding hlive
  | narrowed _ hnarrow ih =>
    obtain ⟨older, groups, hsound⟩ := ih
    exact ⟨older, hsound.narrow horder hnarrow⟩

end

/-! ## Steps of a binding -/

/-- The captures of a binding up to a locator are released: a published control record of its Cell
is its new base, with its root where the frame of that locator ends. -/
def Releases (E : LaneEnv) (uploads : List Upload) (b b' : Binding) (count : Nat) : Prop :=
  ∃ l f root, b.locators[count - 1]? = some l ∧ Locates E.primitives uploads l f ∧
    E.published b.control.cell b'.control ∧ b'.control.ltxRoot = some root ∧
    root.position = f.segment.position ∧ root.commitSequence = f.scope.commitSequence

/-- What an operation may do to a binding: it keeps its pin, its writer and a frozen terminal;
freezes it at an endpoint that the gate issued, and closes it only there; releases captures from the
front and adds them at the end. -/
structure BindingStep (E : LaneEnv) (events : List IssuanceEvent) (uploads : List Upload)
    (b b' : Binding) : Prop where
  pin : b'.control.bundleBinding = b.control.bundleBinding
  scope : b'.scope = b.scope
  frozen : ∀ terminal, b.terminal = some terminal → b'.terminal = some terminal
  freezes : ∀ terminal, b'.terminal = some terminal → b.terminal = some terminal ∨
    ∃ base range, .closed b.scope base range ∈ events ∧ terminal = range.terminal
  closes : b'.phase = .closed → b.phase = .closed ∨ b.terminal = some b'.endpoint
  locators : ∃ count added, b'.locators = b.locators.drop count ++ added ∧
    (count ≠ 0 → Releases E uploads b b' count)

section
variable {E : LaneEnv} {events : List IssuanceEvent} {uploads uploads' : List Upload}
  {b b' b'' : Binding}

theorem BindingStep.refl (b : Binding) : BindingStep E events uploads b b where
  pin := rfl
  scope := rfl
  frozen _ h := h
  freezes _ h := .inl h
  closes := .inl
  locators := ⟨0, [], (append_nil _).symm, fun h => absurd rfl h⟩

theorem BindingStep.mono (h : BindingStep E events uploads b b')
    (hsub : ∀ u ∈ uploads, u ∈ uploads') : BindingStep E events uploads' b b' := by
  obtain ⟨count, added, hlocators, hreleases⟩ := h.locators
  refine { h with locators := ⟨count, added, hlocators, fun hne => ?_⟩ }
  obtain ⟨l, f, root, hl, hlocates, hrest⟩ := hreleases hne
  exact ⟨l, f, root, hl, hlocates.mono hsub, hrest⟩

/-- Captures are added after a step. -/
theorem BindingStep.grow (h : BindingStep E events uploads b b') {count : Nat}
    (hgrown : b'.Grown b'' count) (hopen : b'.phase ≠ .closed) :
    BindingStep E events uploads b b'' := by
  obtain ⟨released, added, hlocators, hreleases⟩ := h.locators
  obtain ⟨more, -, hmore⟩ := hgrown.locators
  refine ⟨?_, hgrown.scope.trans h.scope, ?_, ?_, fun hclosed => ?_, released, added ++ more, ?_,
    fun hne => ?_⟩
  · rw [hgrown.control]
    exact h.pin
  · rw [hgrown.terminal]
    exact h.frozen
  · rw [hgrown.terminal]
    exact h.freezes
  · rw [hgrown.phase] at hclosed
    exact absurd hclosed hopen
  · rw [hmore, hlocators, append_assoc]
  · unfold Releases
    rw [hgrown.control]
    exact hreleases hne

end

/-! ## Checkpoints -/

/-- What `materialized_prefix` finds: a root at the base of the binding, or captures of the binding
that are the last ones of the proof. -/
structure Binding.Materializes (b : Binding) (proof : BundleCoverageProof) (root : CellRootRef)
    (count : Nat) : Prop where
  pin : b.control.bundleBinding = some proof.pin
  scope : b.scope = proof.binding.scope
  commit : root.commitSequence = proof.commitSequence
  position : root.position = proof.position
  found : (count = 0 ∧ ∃ base, b.control.ltxRoot = some base ∧ base.position = root.position ∧
      base.commitSequence = root.commitSequence) ∨
    (count ≠ 0 ∧ ∃ skip, (proof.binding.locators.drop skip).length = count ∧
      b.locators.take count = proof.binding.locators.drop skip)

theorem Binding.materializes_of_materializedPrefix {b : Binding}
    {count : Nat} (h : b.materializedPrefix proof root = .ok count) :
    b.Materializes proof root count := by
  obtain ⟨hsame, h⟩ := reject_bind_eq_ok.1 h
  obtain ⟨hstands, h⟩ := reject_bind_eq_ok.1 h
  obtain ⟨base, hbase, h⟩ := bind_eq_ok.1 h
  simp only [Bool.or_eq_false_iff, bne_eq_false_iff_eq] at hsame hstands
  obtain ⟨⟨⟨⟨⟨⟨⟨⟨hpin, happlication⟩, hcell⟩, hincarnation⟩, hepoch⟩, -⟩, -⟩, -⟩, -⟩ := hsame
  refine ⟨hpin, ?_, hstands.1, hstands.2, ?_⟩
  · unfold Binding.scope
    rw [happlication, hcell, hincarnation, hepoch]
  · split at h
    · next hat =>
      exact .inl ⟨(ok.inj h).symm, base, okOr_eq_ok.1 hbase, hat.2, hat.1⟩
    · obtain ⟨-, h⟩ := reject_bind_eq_ok.1 h
      obtain ⟨first, -, h⟩ := bind_eq_ok.1 h
      obtain ⟨skip, -, h⟩ := bind_eq_ok.1 h
      obtain ⟨hmatch, h⟩ := reject_bind_eq_ok.1 h
      obtain rfl := ok.inj h
      rw [Bool.or_eq_false_iff, bne_eq_false_iff_eq] at hmatch
      refine .inr ⟨?_, skip, rfl, hmatch.2⟩
      rw [ne_eq, length_eq_zero_iff, ← List.isEmpty_iff, hmatch.1]
      exact Bool.false_ne_true

/-- What is observed for a checkpoint of a binding. -/
structure Checkpoint.Observes (checkpoint : Checkpoint) (b : Binding) (update : CheckpointUpdate)
    (root : CellRootRef) : Prop where
  load : checkpoint.load b.control.cell = some update.control
  pin : update.control.bundleBinding = some checkpoint.proof.pin
  epoch : update.control.epoch = b.control.epoch
  incarnation : update.control.incarnation = b.control.incarnation
  base : update.control.ltxRoot = some root
  materializes : b.Materializes checkpoint.proof root update.count

theorem Checkpoint.observes_of_observeBinding {checkpoint : Checkpoint}
    {update : CheckpointUpdate} (h : checkpoint.observeBinding index b = .ok (some update)) :
    update.binding = index ∧ ∃ root, checkpoint.Observes b update root := by
  obtain ⟨-, h⟩ := reject_bind_eq_ok.1 h
  obtain ⟨control, hload, h⟩ := bind_eq_ok.1 h
  obtain ⟨hsame, h⟩ := reject_bind_eq_ok.1 h
  obtain ⟨root, hroot, h⟩ := bind_eq_ok.1 h
  obtain ⟨count, hcount, h⟩ := bind_eq_ok.1 h
  have hupdate := ok.inj h
  split at hupdate
  · cases hupdate
  · obtain rfl := some.inj hupdate
    simp only [Bool.or_eq_false_iff, bne_eq_false_iff_eq] at hsame
    obtain ⟨⟨⟨⟨hpin, hepoch⟩, hincarnation⟩, -⟩, -⟩ := hsame
    exact ⟨rfl, root, okOr_eq_ok.1 hload, hpin, hepoch, hincarnation,
      okOr_eq_ok.1 hroot, Binding.materializes_of_materializedPrefix hcount⟩

section
variable {P : Primitives} {events : List IssuanceEvent} {uploads : List Upload} {b : Binding}
  {checkpoint : Checkpoint} {update : CheckpointUpdate} {root : CellRootRef}
  {older : List VerifiedNodeFrame} {groups : List (List VerifiedNodeFrame)}

theorem Checkpoint.Observes.scope (h : checkpoint.Observes b update root)
    (hloads : ∀ cell control, checkpoint.load cell = some control → control.cell = cell) :
    (b.checkpointed update).scope = b.scope := by
  show (⟨b.application, update.control.cell, update.control.incarnation, update.control.epoch⟩
    : CellLogScope) = b.scope
  rw [hloads _ _ h.load, h.incarnation, h.epoch]
  rfl

/-- The last frame of the captures that a checkpoint releases: it ends a capture, where the new base
of the binding stands. -/
theorem Checkpoint.Observes.exists_last (hnamed : Named uploads)
    (h : checkpoint.Observes b update root)
    (hsound : SoundProof P events uploads checkpoint.proof older groups)
    (hpoints : List.Forall₂ (Locates P uploads) b.locators frames) (hne : update.count ≠ 0) :
    ∃ done f rest, frames = (done ++ [f]) ++ rest ∧ done.length + 1 = update.count ∧
      EndsCapture events b.scope f ∧ root.position = f.segment.position ∧
      root.commitSequence = f.scope.commitSequence := by
  rcases h.materializes.found with ⟨hzero, -⟩ | ⟨-, skip, hlength, hmatch⟩
  · exact absurd hzero hne
  have htake := forall₂_take update.count hpoints
  have hdrop := forall₂_drop skip hsound.locates
  rw [hmatch] at htake
  have hframes := forall₂_locates_unique hnamed htake hdrop
  have hcount : (frames.take update.count).length = update.count := by
    rw [← htake.length_eq, hlength]
  have hnil : frames.take update.count ≠ [] := by
    intro hempty
    rw [hempty] at hcount
    exact hne hcount.symm
  obtain ⟨done, f, hconcat⟩ := (eq_nil_or_concat (frames.take update.count)).resolve_left hnil
  rw [concat_eq_append] at hconcat
  have hlast : (older ++ groups.flatten).getLast? = some f := by
    obtain ⟨front, hfront⟩ := drop_suffix skip (older ++ groups.flatten)
    rw [← hfront, ← hframes, hconcat, ← append_assoc, getLast?_concat]
  obtain ⟨hends, hposition, hcommit⟩ := hsound.ends f hlast
  refine ⟨done, f, frames.drop update.count, ?_, ?_, ?_, ?_, ?_⟩
  · rw [← hconcat, take_append_drop]
  · rw [← hcount, hconcat, length_append, length_singleton]
  · rw [h.materializes.scope]
    exact hends
  · rw [h.materializes.position, hposition]
  · rw [h.materializes.commit, hcommit]

/-- A binding tracks the captures that a checkpoint leaves it. -/
theorem Checkpoint.Observes.tracked (horder : InOrder events) (hnamed : Named uploads)
    (h : checkpoint.Observes b update root)
    (hloads : ∀ cell control, checkpoint.load cell = some control → control.cell = cell)
    (hsound : SoundProof P events uploads checkpoint.proof older groups)
    (htracked : b.Tracked (Locates P uploads) events []) :
    (b.checkpointed update).Tracked (Locates P uploads) events [] := by
  obtain ⟨frames, start, chain, htracks, hends⟩ := htracked.exists_frames
  have hscope := h.scope hloads
  by_cases hzero : update.count = 0
  · rcases h.materializes.found with ⟨-, base, hbase, hposition, hcommit⟩ | ⟨hne, -⟩
    · have hlocators : (b.checkpointed update).locators = b.locators := by
        show b.locators.drop update.count = b.locators
        rw [hzero, drop_zero]
      have hfirst : (b.checkpointed update).firstCommit =
          if b.locators.isEmpty then b.selectedCommit else b.firstCommit := by
        show (if (b.locators.drop update.count).isEmpty then _ else _) = _
        rw [hzero, drop_zero]
      exact Binding.tracked_of_tracks
        (htracks.rebase hbase h.base hposition hcommit hscope hlocators rfl hfirst) (hscope ▸ hends)
    · exact absurd hzero hne
  · obtain ⟨done, f, rest, rfl, hcount, hend, hposition, hcommit⟩ :=
      h.exists_last hnamed hsound htracks.points hzero
    have hrest : (b.locators.drop update.count).isEmpty = true ↔ rest = [] := by
      have hdrop := forall₂_drop update.count htracks.points
      rw [drop_left' (by rw [length_append, length_singleton, hcount])] at hdrop
      rw [isEmpty_iff_length_eq_zero, hdrop.length_eq, length_eq_zero_iff]
    obtain ⟨start', chain', htracks'⟩ : ∃ start' chain',
        Tracks (Locates P uploads) events (b.checkpointed update) rest start' chain' := by
      refine htracks.cut horder hend h.base hposition hcommit hscope ?_ rfl ?_
      · rw [hcount]
        rfl
      · show (if (b.locators.drop update.count).isEmpty then _ else _) = _
        simp only [hrest]
    refine Binding.tracked_of_tracks htracks' fun x hx => ?_
    rw [hscope]
    refine hends x ?_
    rw [getLast?_append, hx, some_or]

/-- A checkpoint is a step of a binding. -/
theorem Checkpoint.Observes.step (hnamed : Named uploads) (h : checkpoint.Observes b update root)
    (hloads : ∀ cell control, checkpoint.load cell = some control →
      E.published cell control ∧ control.cell = cell)
    (hsound : SoundProof E.primitives events uploads checkpoint.proof older groups)
    (htracked : b.Tracked (Locates E.primitives uploads) events []) :
    BindingStep E events uploads b (b.checkpointed update) := by
  obtain ⟨frames, start, chain, htracks, -⟩ := htracked.exists_frames
  obtain ⟨hpublished, -⟩ := hloads _ _ h.load
  refine ⟨h.pin.trans h.materializes.pin.symm, h.scope fun _ _ hload => (hloads _ _ hload).2,
    fun _ ht => ht, fun _ ht => .inl ht, .inl, update.count, [], (append_nil _).symm, fun hne => ?_⟩
  obtain ⟨done, f, rest, rfl, hcount, -, hposition, hcommit⟩ :=
    h.exists_last hnamed hsound htracks.points hne
  have hget : ((done ++ [f]) ++ rest)[update.count - 1]? = some f := by
    rw [← hcount, Nat.add_sub_cancel, append_assoc, getElem?_append_right le_rfl, Nat.sub_self]
    rfl
  obtain ⟨l, hl, hlocates⟩ := htracks.points.getElem?_left hget
  exact ⟨l, f, root, hl, hlocates, hpublished, h.base, hposition, hcommit⟩

end

end Cellule
