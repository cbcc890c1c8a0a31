import Cellule.Bundle.LaneLaws

/-!
# What the operations do to a catalog

Each operation leads from a good catalog to one that follows it (`Catalog.Follows`): each binding
makes a step or was just reserved, and tracks whole captures, the last perhaps without an object.
-/

namespace Cellule

open Except List Catalog Option

/-- The locator stands for a frame of a bundle, or for one that is being written. -/
def Points (P : Primitives) (uploads : List Upload) (frames : List VerifiedNodeFrame) (l : Locator)
    (f : VerifiedNodeFrame) : Prop :=
  Locates P uploads l f ∨
    (l.object = none ∧ l.frameDigest = f.digest P.blake3 ∧ f ∈ frames ∧
      ∃ limits, P.inspectNodeFrame f.encoded limits = .ok f)

/-- A binding that was just reserved. -/
structure Binding.Reserved (b : Binding) : Prop where
  phase : b.phase = .provisional
  terminal : b.terminal = none
  locators : b.locators = []

/-- What an operation that writes frames does to a catalog. -/
structure Catalog.Follows (E : LaneEnv) (events : List IssuanceEvent) (uploads : List Upload)
    (frames : List VerifiedNodeFrame) (assignments : List AssignedCommitRange) (c c' : Catalog) :
    Prop where
  session : c'.session = c.session
  epoch : c'.epoch = c.epoch
  sequences : frames.map (·.scope.nodeSequence) = List.range' (c.selectedThrough + 1) frames.length
  through : c'.selectedThrough = c.selectedThrough + frames.length
  kept : ∀ b ∈ c.bindings, ∃ b' ∈ c'.bindings, BindingStep E events uploads b b'
  steps : ∀ b' ∈ c'.bindings, b'.Reserved ∨ ∃ b ∈ c.bindings, BindingStep E events uploads b b'
  tracked : ∀ b' ∈ c'.bindings, b'.Tracked (Points E.primitives uploads frames) events assignments

variable {E : LaneEnv} {events : List IssuanceEvent} {uploads : List Upload}
  {frames : List VerifiedNodeFrame} {assignments : List AssignedCommitRange} {c c' : Catalog}
  {checkpoints : List Checkpoint} {b b' : Binding} {pin : BundleBindingRef}
  {issued : CellIssuedRange} {application : ApplicationId} {value : Control}

/-- Each binding makes a step. -/
theorem Catalog.follows_of_forall₂ {bindings : List Binding}
    (h : List.Forall₂ (fun b b' => BindingStep E events uploads b b' ∧
      b'.Tracked (Locates E.primitives uploads) events []) c.bindings bindings) :
    c.Follows E events uploads [] [] { c with bindings := bindings } where
  session := rfl
  epoch := rfl
  sequences := rfl
  through := rfl
  kept b hb := by
    obtain ⟨b', hb', hstep, -⟩ := h.exists_right hb
    exact ⟨b', hb', hstep⟩
  steps b' hb' := by
    obtain ⟨b, hb, hstep, -⟩ := h.exists_left hb'
    exact .inr ⟨b, hb, hstep⟩
  tracked b' hb' := by
    obtain ⟨b, -, -, htracked⟩ := h.exists_left hb'
    exact htracked.imp fun _ _ => .inl

/-! ## Checkpoints -/

theorem Checkpoint.observe_eq_ok {checkpoint : Checkpoint} {bindings : List Binding}
    (h : checkpoint.observe bindings = .ok (some update)) :
    ∃ b root, bindings[update.binding]? = some b ∧ checkpoint.Observes b update root := by
  obtain ⟨⟨b, index⟩, hfind, h⟩ := bind_eq_ok.1 h
  obtain ⟨rfl, root, hobserves⟩ := Checkpoint.observes_of_observeBinding h
  have hmem := mem_of_find?_eq_some (okOr_eq_ok.1 hfind)
  exact ⟨b, root, mem_zipIdx_iff_getElem?.1 hmem, hobserves⟩

/-- Checkpoints of different pins update different bindings. -/
theorem Checkpoint.nodup_updates {bindings : List Binding}
    (h : List.Forall₂ (fun checkpoint update => checkpoint.observe bindings = .ok update)
      checkpoints updates)
    (hnodup : (checkpoints.map (·.proof.pin.digest)).Nodup) :
    ((updates.filterMap id).map (·.binding)).Nodup := by
  -- the index of an update determines the pin of its checkpoint
  let pinAt : Nat → Option (Option Digest) := fun index =>
    bindings[index]?.map fun b => b.control.bundleBinding.map (·.digest)
  have hsublist : List.Sublist (((updates.filterMap id).map (·.binding)).map pinAt)
      (checkpoints.map fun checkpoint => some (some checkpoint.proof.pin.digest)) := by
    clear hnodup
    induction h with
    | nil => exact .slnil
    | @cons checkpoint update checkpoints updates hobserve _ ih =>
      cases update with
      | none => exact ih.cons _
      | some update =>
        obtain ⟨b, root, hb, hobserves⟩ := Checkpoint.observe_eq_ok hobserve
        have hpin : pinAt update.binding = some (some checkpoint.proof.pin.digest) := by
          show bindings[update.binding]?.map _ = _
          rw [hb, map_some, hobserves.materializes.pin, map_some]
        show List.Sublist (pinAt update.binding :: _) (some (some checkpoint.proof.pin.digest) :: _)
        rw [hpin]
        exact ih.cons_cons _
  have hpins : (checkpoints.map fun checkpoint =>
    some (some checkpoint.proof.pin.digest)).Nodup := by
    have hsome : Function.Injective fun digest : Digest => some (some digest) :=
      fun _ _ heq => some.inj (some.inj heq)
    have hmap := hnodup.map hsome
    rwa [List.map_map] at hmap
  exact (hpins.sublist hsublist).of_map _

/-- What checkpoints do to the bindings. -/
theorem Catalog.checkpoint_eq_ok {changed : List Nat}
    (hnodup : (checkpoints.map (·.proof.pin.digest)).Nodup)
    (h : c.checkpoint checkpoints = .ok (c', changed)) :
    ∃ bindings, c' = { c with bindings := bindings } ∧
      List.Forall₂ (fun b b' => b' = b ∨ ∃ checkpoint ∈ checkpoints, ∃ update root,
        checkpoint.Observes b update root ∧ b' = b.checkpointed update) c.bindings bindings := by
  obtain ⟨updates, hupdates, h⟩ := bind_eq_ok.1 h
  obtain ⟨rfl, -⟩ := Prod.mk.inj (ok.inj h)
  refine ⟨_, rfl, forall₂_of_getElem? fun i => ?_⟩
  rw [mapM_eq_ok] at hupdates
  rw [getElem?_foldl_modify (Checkpoint.nodup_updates hupdates hnodup)]
  cases hfind : (updates.filterMap id).find? (fun update => update.binding == i) with
  | none =>
    cases c.bindings[i]? with
    | none => exact .none
    | some b => exact .some (.inl rfl)
  | some update =>
    have hindex := find?_some hfind
    rw [beq_iff_eq] at hindex
    obtain ⟨observed, hmem, hobserved⟩ := mem_filterMap.1 (mem_of_find?_eq_some hfind)
    obtain rfl : observed = some update := hobserved
    obtain ⟨checkpoint, hcheckpoint, hobserve⟩ := hupdates.exists_left hmem
    obtain ⟨b, root, hb, hobserves⟩ := Checkpoint.observe_eq_ok hobserve
    rw [← hindex, hb]
    exact .some (.inr ⟨checkpoint, hcheckpoint, update, root, hobserves, rfl⟩)

/-- The pins of the checkpoints are different. -/
theorem Catalog.checkpointCells_eq_ok (h : c.checkpointCells checkpoints = .ok ()) :
    (checkpoints.map (·.proof.pin.digest)).Nodup := by
  obtain ⟨-, h⟩ := reject_bind_eq_ok.1 h
  rw [reject_eq_ok, Bool.or_eq_false_iff, Bool.not_eq_false'] at h
  exact of_decide_eq_true h.2

/-- Checkpoints of a good catalog. -/
theorem Catalog.applyCheckpoints_steps (horder : InOrder events) (hnamed : Named uploads)
    (hgood : ∀ u ∈ uploads, GoodUpload E.primitives events uploads u)
    (hproven : ∀ checkpoint ∈ checkpoints, Proven uploads checkpoint.proof)
    (hloads : ∀ checkpoint ∈ checkpoints, ∀ cell control,
      checkpoint.load cell = some control → E.published cell control ∧ control.cell = cell)
    (htracked : ∀ b ∈ c.bindings, b.Tracked (Locates E.primitives uploads) events [])
    (hcells : c.checkpointCells checkpoints = .ok ())
    (h : c.applyCheckpoints E.scope checkpoints = .ok changed) :
    ∃ bindings, changed.getD c = { c with bindings := bindings } ∧
      List.Forall₂ (fun b b' => (BindingStep E events uploads b b' ∧
        b'.Tracked (Locates E.primitives uploads) events []) ∧
          b'.selectedSequence = b.selectedSequence) c.bindings bindings := by
  obtain ⟨⟨next, indices⟩, hcheckpoint, h⟩ := bind_eq_ok.1 h
  obtain ⟨_, -, h⟩ := bind_eq_ok.1 h
  have hchanged := ok.inj h
  split at hchanged
  · subst hchanged
    refine ⟨c.bindings, rfl, forall₂_same.2 fun b hb => ?_⟩
    exact ⟨⟨.refl b, htracked b hb⟩, rfl⟩
  · subst hchanged
    obtain ⟨bindings, hnext, hbindings⟩ :=
      checkpoint_eq_ok (checkpointCells_eq_ok hcells) hcheckpoint
    refine ⟨bindings, hnext, hbindings.imp_of_mem fun b hb b' hstep => ?_⟩
    rcases hstep with rfl | ⟨checkpoint, hmem, update, root, hobserves, rfl⟩
    · exact ⟨⟨.refl _, htracked _ hb⟩, rfl⟩
    · obtain ⟨older, groups, hsound⟩ := (hproven checkpoint hmem).sound horder hgood
      have hcell := fun cell control hload => (hloads checkpoint hmem cell control hload).2
      exact ⟨⟨hobserves.step hnamed (hloads checkpoint hmem) hsound (htracked b hb),
        hobserves.tracked horder hnamed hcell hsound (htracked b hb)⟩, rfl⟩

/-! ## Closure -/

theorem Catalog.bindingMut_eq_ok (h : c.bindingMut digest f = .ok c') :
    ∃ bindings, c' = { c with bindings := bindings } ∧
      List.Forall₂ (fun b b' => b' = b ∨
        b.control.bundleBinding.map (·.digest) = some digest ∧ f b = .ok b')
          c.bindings bindings := by
  obtain ⟨bindings, hbindings, h⟩ := bind_eq_ok.1 h
  refine ⟨bindings, (ok.inj h).symm, (forall₂_editFirst hbindings).imp ?_⟩
  rintro b b' (rfl | ⟨hpin, hedit⟩)
  · exact .inl rfl
  · obtain ⟨pin, hsome, hdigest⟩ := (any_eq_true _ _).1 hpin
    rw [hsome, map_some, beq_iff_eq.1 hdigest]
    exact .inr ⟨rfl, hedit⟩

/-- An edit that is a step of the binding with a pin. -/
theorem Catalog.bindingMut_follows
    (htracked : ∀ b ∈ c.bindings, b.Tracked (Locates E.primitives uploads) events [])
    (hedit : ∀ b ∈ c.bindings, ∀ b', b.control.bundleBinding.map (·.digest) = some digest →
      f b = .ok b' → BindingStep E events uploads b b' ∧ b'.control.ltxRoot = b.control.ltxRoot ∧
        b'.locators = b.locators ∧ b'.firstCommit = b.firstCommit ∧ b'.endpoint = b.endpoint)
    (h : c.bindingMut digest f = .ok c') : c.Follows E events uploads [] [] c' := by
  obtain ⟨bindings, rfl, hbindings⟩ := bindingMut_eq_ok h
  refine follows_of_forall₂ (hbindings.imp_of_mem fun b hb b' hstep => ?_)
  rcases hstep with rfl | ⟨hpin, hok⟩
  · exact ⟨.refl _, htracked _ hb⟩
  · obtain ⟨hstep, hroot, hlocators, hfirst, hend⟩ := hedit b hb b' hpin hok
    exact ⟨hstep, (htracked b hb).congr hstep.scope hroot hlocators hfirst hend⟩

theorem Binding.beginClose_eq_ok (h : b.beginClose pin issued = .ok b') :
    issued.scope = b.scope ∧ (∀ terminal, b.terminal = some terminal → terminal = issued.terminal) ∧
      b' = { b with phase := .closing, terminal := some issued.terminal } := by
  obtain ⟨hsame, h⟩ := reject_bind_eq_ok.1 h
  obtain ⟨hterminal, h⟩ := reject_bind_eq_ok.1 h
  simp only [Bool.or_eq_false_iff, bne_eq_false_iff_eq] at hsame
  refine ⟨hsame.1.1.2, fun terminal hsome => ?_, (ok.inj h).symm⟩
  rw [hsome, any_some, bne_eq_false_iff_eq] at hterminal
  exact hterminal

theorem Binding.finishClose_eq_ok {epoch : Nat} (h : b.finishClose epoch pin issued = .ok b') :
    b.terminal = some b.endpoint ∧ b' = { b with phase := .closed } := by
  obtain ⟨-, h⟩ := reject_bind_eq_ok.1 h
  obtain ⟨hreached, h⟩ := reject_bind_eq_ok.1 h
  rw [Bool.or_eq_false_iff, bne_eq_false_iff_eq] at hreached
  exact ⟨hreached.2, (ok.inj h).symm⟩

section
variable (htracked : ∀ b ∈ c.bindings, b.Tracked (Locates E.primitives uploads) events [])
include htracked

/-- The terminal of a binding is frozen. -/
theorem Catalog.beginBundleClose_follows
    (hissued : ∃ base, .closed issued.scope base issued ∈ events)
    (h : c.beginBundleClose pin issued = .ok c') : c.Follows E events uploads [] [] c' := by
  obtain ⟨-, h⟩ := reject_bind_eq_ok.1 h
  obtain ⟨-, h⟩ := reject_bind_eq_ok.1 h
  refine bindingMut_follows htracked (fun b _ b' _ hok => ?_) h
  obtain ⟨hscope, hfrozen, rfl⟩ := Binding.beginClose_eq_ok hok
  obtain ⟨base, hclosed⟩ := hissued
  rw [hscope] at hclosed
  refine ⟨⟨rfl, rfl, fun terminal hterminal => ?_, fun terminal hterminal => ?_,
    fun hphase => ?_, 0, [], (append_nil _).symm, fun hne => absurd rfl hne⟩, rfl, rfl, rfl, rfl⟩
  · rw [hfrozen terminal hterminal]
  · exact .inr ⟨base, issued, hclosed, (some.inj hterminal).symm⟩
  · cases hphase

/-- A binding is closed at its terminal. -/
theorem Catalog.finishBundleClose_follows
    (h : c.finishBundleClose pin issued = .ok c') : c.Follows E events uploads [] [] c' := by
  obtain ⟨-, h⟩ := reject_bind_eq_ok.1 h
  refine bindingMut_follows htracked (fun b _ b' _ hok => ?_) h
  obtain ⟨hreached, rfl⟩ := Binding.finishClose_eq_ok hok
  exact ⟨⟨rfl, rfl, fun _ hterminal => hterminal, fun _ hterminal => .inl hterminal,
    fun _ => .inr hreached, 0, [], (append_nil _).symm, fun hne => absurd rfl hne⟩,
    rfl, rfl, rfl, rfl⟩

end

/-! ## Enrollment -/

/-- A binding with a pin is the only one. -/
theorem Catalog.Valid.eq_of_pin (h : c.Valid) (hb : b ∈ c.bindings) (hb' : b' ∈ c.bindings)
    (hpin : b.control.bundleBinding.map (·.digest) = b'.control.bundleBinding.map (·.digest)) :
    b = b' :=
  inj_on_of_nodup_map h.pins hb hb' hpin

/-- A binding is opened with the pinned control record. -/
theorem Catalog.openBinding_follows (hvalid : c.Valid)
    (htracked : ∀ b ∈ c.bindings, b.Tracked (Locates E.primitives uploads) events [])
    (h : c.openBinding application value = .ok c') : c.Follows E events uploads [] [] c' := by
  obtain ⟨_, -, h⟩ := bind_eq_ok.1 h
  obtain ⟨binding, hexisting, h⟩ := bind_eq_ok.1 h
  obtain ⟨hsame, h⟩ := reject_bind_eq_ok.1 h
  obtain ⟨-, h⟩ := reject_bind_eq_ok.1 h
  obtain ⟨pin, hpin, h⟩ := bind_eq_ok.1 h
  obtain ⟨hvalue, h⟩ := reject_bind_eq_ok.1 h
  rw [okOr_eq_ok] at hexisting hpin
  simp only [Bool.or_eq_false_iff, bne_eq_false_iff_eq] at hsame hvalue
  obtain ⟨⟨⟨⟨⟨hincarnation, hepoch⟩, -⟩, -⟩, -⟩, hroot⟩ := hsame
  have hfound := find?_some hexisting
  simp only [Bool.and_eq_true, beq_iff_eq] at hfound
  refine bindingMut_follows htracked (fun b hb b' hdigest hok => ?_) h
  have hb' : b = binding := by
    refine hvalid.eq_of_pin hb (mem_of_find?_eq_some hexisting) ?_
    rw [hdigest, hpin, map_some]
  obtain rfl := hb'
  obtain rfl := ok.inj hok
  have hscope : Binding.scope { b with control := value, phase := .opened } = b.scope := by
    unfold Binding.scope
    rw [hfound.1.2, hincarnation, hepoch]
  refine ⟨⟨hvalue.trans hpin.symm, hscope, fun _ hterminal => hterminal,
    fun _ hterminal => .inl hterminal, fun hphase => ?_, 0, [], (append_nil _).symm,
    fun hne => absurd rfl hne⟩, ?_, rfl, rfl, rfl⟩
  · cases hphase
  · unfold Control.ltxRoot
    rw [hroot, hfound.1.2, hincarnation]

/-- A binding without captures, at its base. -/
theorem Binding.tracked_of_base
    (hbase : b.control.ltxRoot = some base) (hlocators : b.locators = [])
    (hposition : base.position = b.selectedPosition)
    (hcommit : base.commitSequence = b.selectedCommit)
    (hfirst : base.commitSequence = b.firstCommit) : b.Tracked R events [] := by
  have hnew := BindingChain.new_eq_ok.2 ⟨base, hbase, rfl⟩
  have hpoints : List.Forall₂ R b.locators [] := by
    rw [hlocators]
    exact .nil
  refine Binding.tracked_of_tracks ⟨hpoints, ?_, hnew, rfl, hposition, hcommit, hfirst,
    Nat.zero_le _⟩ ?_
  · exact fun f hf => absurd hf not_mem_nil
  · exact nofun

/-- A binding is reserved. -/
theorem Catalog.reserve_follows
    (htracked : ∀ b ∈ c.bindings, b.Tracked (Locates E.primitives uploads) events [])
    (h : c.reserve E.pinOf application value = .ok c') : c.Follows E events uploads [] [] c' := by
  obtain ⟨_, -, h⟩ := bind_eq_ok.1 h
  obtain ⟨-, h⟩ := reject_bind_eq_ok.1 h
  obtain ⟨-, h⟩ := reject_bind_eq_ok.1 h
  obtain ⟨-, h⟩ := reject_bind_eq_ok.1 h
  obtain ⟨revision, -, h⟩ := bind_eq_ok.1 h
  obtain ⟨progress, -, h⟩ := bind_eq_ok.1 h
  obtain ⟨base, hbase, h⟩ := bind_eq_ok.1 h
  rw [okOr_eq_ok] at hbase
  obtain rfl := ok.inj h
  refine ⟨rfl, rfl, rfl, rfl, fun b hb => ⟨b, ?_, .refl b⟩, fun b hb => ?_, fun b hb => ?_⟩
  · exact mem_mergeSort.2 (mem_append_left _ hb)
  · rcases mem_append.1 (mem_mergeSort.1 hb) with hb | hb
    · exact .inr ⟨b, hb, .refl b⟩
    · obtain rfl := mem_singleton.1 hb
      exact .inl ⟨rfl, rfl, rfl⟩
  · rcases mem_append.1 (mem_mergeSort.1 hb) with hb | hb
    · exact (htracked b hb).imp fun _ _ => .inl
    · obtain rfl := mem_singleton.1 hb
      exact Binding.tracked_of_base hbase rfl rfl rfl rfl

/-! ## Stages -/

/-- A binding tracks the captures that a stage gives it. -/
theorem Binding.Tracked.stage {hash : Hash} (horder : InOrder events)
    (htracked : b.Tracked R events []) (hassigned : Assigned events assignments)
    (hholds : List.Forall₂ AssignedCommitRange.Holds assignments groups)
    (happend : b.appendAll hash (b.own groups.flatten) = .ok b')
    (hafter : ∀ f ∈ groups.flatten, b.selectedSequence < f.scope.nodeSequence)
    (hincreasing : groups.flatten.Pairwise fun f f' => f.scope.nodeSequence < f'.scope.nodeSequence)
    (hpoints : ∀ f ∈ groups.flatten, ∀ bytes, R ⟨none, 0, bytes, f.digest hash⟩ f) :
    b'.Tracked R events assignments := by
  obtain ⟨frames, start, chain, htracks, hends⟩ := htracked.exists_frames
  obtain ⟨own, hown, hflatten⟩ := exists_ownGroups hholds b
  have hscope := (Binding.appendAll_grown happend).scope
  have hmem : ∀ f ∈ b.own groups.flatten, f ∈ groups.flatten := fun f hf => (mem_filter.1 hf).1
  have hcapture : ∀ a ∈ assignments.filter (·.scope == b.scope),
      a.scope = b.scope ∧ ∃ capture, .assigned capture ∈ events ∧ a.IsOf capture := by
    intro a ha
    obtain ⟨ha, hsame⟩ := mem_filter.1 ha
    exact ⟨beq_iff_eq.1 hsame, hassigned a ha⟩
  have hcovered : ∀ f ∈ b.own groups.flatten, ∃ capture, Covered events b.scope f capture := by
    intro f hf
    rw [hflatten] at hf
    obtain ⟨group, hgroup, hf⟩ := mem_flatten.1 hf
    obtain ⟨a, ha, hheld⟩ := hown.exists_left hgroup
    obtain ⟨hsame, capture, hcapture, hof⟩ := hcapture a ha
    exact ⟨capture, hsame ▸ hheld.covered horder hcapture hof hf⟩
  obtain ⟨chain', htracks'⟩ := htracks.appendAll happend (fun f hf => hafter f (hmem f hf))
    (hincreasing.filter _) hcovered (fun f hf => hpoints f (hmem f hf))
  rw [hflatten] at htracks'
  refine ⟨frames, own, ⟨start, chain', htracks'⟩, ?_, fun f hf => ?_⟩
  · rw [hscope]
    exact hown
  · rw [hscope]
    rw [getLast?_append] at hf
    cases hlast : own.flatten.getLast? with
    | none =>
      rw [hlast, none_or] at hf
      exact hends f hf
    | some f' =>
      rw [hlast, some_or] at hf
      obtain rfl := some.inj hf
      obtain ⟨a, group, ha, hheld, hgroup⟩ := getLast?_flatten_groups hown hlast
      obtain ⟨hsame, capture, hcapture, hof⟩ := hcapture a (mem_of_getLast? ha)
      exact hsame ▸ hheld.endsCapture horder hcapture hof hgroup

/-- Captures are added after a step of a binding, unless there are none. -/
theorem BindingStep.appendAll {hash : Hash}
    (h : BindingStep E events uploads b b') (happend : b'.appendAll hash frames = .ok b'') :
    BindingStep E events uploads b b'' := by
  by_cases hnil : frames = []
  · subst hnil
    obtain rfl := ok.inj happend
    exact h
  · refine h.grow (Binding.appendAll_grown happend) fun hclosed => ?_
    have hphase := Binding.appendAll_phase happend hnil
    rw [hclosed] at hphase
    rcases hphase with hphase | hphase <;> cases hphase

/-- Frames with the sequences of a range have increasing sequences. -/
theorem pairwise_of_sequences {first count : Nat}
    (h : frames.map (·.scope.nodeSequence) = List.range' first count) :
    frames.Pairwise fun f f' => f.scope.nodeSequence < f'.scope.nodeSequence := by
  have hrange : (List.range' first count).Pairwise (· < ·) := pairwise_lt_range'
  rw [← h] at hrange
  exact pairwise_map.1 hrange

/-- Captures are staged, after checkpoints. -/
theorem LaneAction.performStage_follows (horder : InOrder events) (hnamed : Named uploads)
    (hgood : ∀ u ∈ uploads, GoodUpload E.primitives events uploads u) (hvalid : c.Valid)
    (hallowed : (LaneAction.stage frames assignments checkpoints).Allowed E events uploads)
    (htracked : ∀ b ∈ c.bindings, b.Tracked (Locates E.primitives uploads) events [])
    (h : performStage E c frames assignments checkpoints = .ok c') :
    c.Follows E events uploads frames assignments c' := by
  obtain ⟨-, h⟩ := reject_bind_eq_ok.1 h
  obtain ⟨_, hcells, h⟩ := bind_eq_ok.1 h
  obtain ⟨changed, hchanged, h⟩ := bind_eq_ok.1 h
  obtain ⟨_, hverify, h⟩ := bind_eq_ok.1 h
  obtain ⟨bindings, hbindings, hsteps⟩ := applyCheckpoints_steps horder hnamed hgood
    hallowed.proven hallowed.loads htracked hcells hchanged
  rw [hbindings] at h
  have hscopes : bindings.map (·.scope) = c.bindings.map (·.scope) :=
    hsteps.map_eq fun b b' hstep => hstep.1.1.scope
  have hgrows := grows_of_foldlM (c := { c with bindings := bindings })
    (hscopes ▸ hvalid.scopes) h
  obtain ⟨groups, rfl, hholds⟩ := exists_groups hverify
  have hafter : ∀ f ∈ groups.flatten, c.selectedThrough < f.scope.nodeSequence := by
    intro f hf
    have hseq := mem_map_of_mem (f := fun f : VerifiedNodeFrame => f.scope.nodeSequence) hf
    rw [hgrows.sequences, mem_range'_1] at hseq
    exact hseq.1
  have hpoints : ∀ f ∈ groups.flatten, ∀ bytes,
      Points E.primitives uploads groups.flatten
        ⟨none, 0, bytes, f.digest E.primitives.blake3⟩ f := by
    intro f hf bytes
    obtain ⟨limits, hbuilt⟩ := hallowed.built f hf
    obtain ⟨hscope, hsegment⟩ := hallowed.typed f hf
    exact .inr ⟨rfl, rfl, hf, limits, inspect_of_encode hscope hsegment hbuilt.encode_eq⟩
  have hall : List.Forall₂ (fun b b' => BindingStep E events uploads b b' ∧
      b'.Tracked (Points E.primitives uploads groups.flatten) events assignments)
      c.bindings c'.bindings := by
    refine Forall₂.comp (fun b mid b' hstep happend => ?_)
      (hsteps.imp_of_mem fun b hb mid hstep => And.intro hb hstep) hgrows.bindings
    obtain ⟨hb, ⟨hstep, hmid⟩, hsequence⟩ := hstep
    refine ⟨hstep.appendAll happend, ?_⟩
    refine (hmid.imp fun _ _ => Or.inl).stage horder hallowed.assigned hholds happend
      (fun f hf => ?_) (pairwise_of_sequences hgrows.sequences) hpoints
    rw [hsequence]
    exact (hvalid.through b hb).trans_lt (hafter f hf)
  refine ⟨hgrows.session, hgrows.epoch, hgrows.sequences, hgrows.through, fun b hb => ?_,
    fun b' hb' => ?_, fun b' hb' => ?_⟩
  · obtain ⟨b', hb', hstep, -⟩ := hall.exists_right hb
    exact ⟨b', hb', hstep⟩
  · obtain ⟨b, hb, hstep, -⟩ := hall.exists_left hb'
    exact .inr ⟨b, hb, hstep⟩
  · obtain ⟨b, -, -, htracked⟩ := hall.exists_left hb'
    exact htracked

/-- Every operation on a good catalog leads to one that follows it. -/
theorem LaneAction.perform_follows (horder : InOrder events) (hnamed : Named uploads)
    (hgood : ∀ u ∈ uploads, GoodUpload E.primitives events uploads u)
    (hbase : base ∈ uploads) {action : LaneAction} (hallowed : action.Allowed E events uploads)
    (h : action.perform E base.catalog = .ok (some c')) :
    base.catalog.Follows E events uploads action.frames action.assignments c' := by
  have hvalid := (hgood base hbase).valid
  have htracked := fun b hb => ((hgood base hbase).bindings b hb).forget
  cases action with
  | reserve application control =>
    obtain ⟨next, hnext, h⟩ := map_eq_ok.1 h
    exact some.inj h ▸ reserve_follows htracked hnext
  | openBinding application control =>
    obtain ⟨next, hnext, h⟩ := map_eq_ok.1 h
    exact some.inj h ▸ openBinding_follows hvalid htracked hnext
  | stage frames assignments checkpoints =>
    obtain ⟨next, hnext, h⟩ := map_eq_ok.1 h
    exact some.inj h ▸ performStage_follows horder hnamed hgood hvalid hallowed htracked hnext
  | checkpoint checkpoints =>
    obtain ⟨-, h⟩ := reject_bind_eq_ok.1 h
    obtain ⟨_, hcells, h⟩ := bind_eq_ok.1 h
    obtain ⟨bindings, hbindings, hsteps⟩ := applyCheckpoints_steps horder hnamed hgood
      hallowed.proven hallowed.loads htracked hcells h
    rw [getD_some] at hbindings
    rw [hbindings]
    exact follows_of_forall₂ (hsteps.imp fun _ _ hstep => hstep.1)
  | beginClose pin issued =>
    obtain ⟨next, hnext, h⟩ := map_eq_ok.1 h
    exact some.inj h ▸ beginBundleClose_follows htracked (hallowed.issued issued rfl) hnext
  | finishClose pin issued =>
    obtain ⟨next, hnext, h⟩ := map_eq_ok.1 h
    exact some.inj h ▸ finishBundleClose_follows htracked hnext

end Cellule
