import Cellule.Bundle.CatalogLaws
import Cellule.Bundle.SelectionLaws

/-!
# Runs of a lane

The bundle written for a successor of a good catalog has a good catalog again, a step of the one
before (`CatalogStep`). A bundle is selected only in place of the one it was prepared from, so the
selected catalogs of a lane make steps one after another.
-/

namespace Cellule

open Except List Option

/-! ## Validation -/

/-- What the loop of `Catalog::validate` checks on the bindings that are left. -/
structure Catalog.ValidFrom (c : Catalog) (previous : Option Nat) (seen : List CellLogScope)
    (bindings : List Binding) : Prop where
  scopes : (bindings.map (·.scope)).Nodup
  fresh : ∀ b ∈ bindings, b.scope ∉ seen
  pins : (bindings.map fun b => b.control.bundleBinding.map (·.digest)).Nodup
  above : ∀ b ∈ bindings, ∃ pin, b.control.bundleBinding = some pin ∧
    ∀ digest, previous = some digest → digest < Bytes.ofBe pin.digest.asBytes
  through : ∀ b ∈ bindings, b.selectedSequence ≤ c.selectedThrough
  closed : ∀ b ∈ bindings, b.phase = .closed → b.terminal = some b.endpoint

section
variable {encodes : Control → Result Unit} {c : Catalog} {b : Binding}

theorem Catalog.badCoverage_eq_false
    (h : c.badCoverage b pin base = false) : b.selectedSequence ≤ c.selectedThrough := by
  unfold Catalog.badCoverage at h
  simp only [Bool.or_eq_false_iff] at h
  exact Nat.le_of_not_lt (of_decide_eq_false h.1.1.1.1.1.1.2)

theorem Binding.badClosure_eq_false (h : b.badClosure = false) (hphase : b.phase = .closed) :
    b.terminal = some b.endpoint := by
  unfold Binding.badClosure at h
  rw [hphase] at h
  cases hterminal : b.terminal with
  | none =>
    rw [hterminal] at h
    cases h
  | some terminal =>
    rw [hterminal] at h
    rw [bne_eq_false_iff_eq.1 h]

theorem Catalog.validFrom_of_validateBindings
    {bindings : List Binding} (h : c.validateBindings encodes previous seen bindings = .ok ()) :
    c.ValidFrom previous seen bindings := by
  induction bindings generalizing previous seen with
  | nil => constructor <;> simp
  | cons b bindings ih =>
    unfold Catalog.validateBindings at h
    obtain ⟨_, -, h⟩ := bind_eq_ok.1 h
    obtain ⟨pin, hpin, h⟩ := bind_eq_ok.1 h
    obtain ⟨base, -, h⟩ := bind_eq_ok.1 h
    obtain ⟨hcoverage, h⟩ := reject_bind_eq_ok.1 h
    obtain ⟨hclosure, h⟩ := reject_bind_eq_ok.1 h
    rw [okOr_eq_ok] at hpin
    rw [Bool.or_eq_false_iff, Bool.or_eq_false_iff] at hcoverage
    obtain ⟨⟨hcovered, hfresh⟩, habove⟩ := hcoverage
    have hrest := ih h
    have hlater : ∀ b' ∈ bindings, b'.control.bundleBinding.map (·.digest) ≠
        b.control.bundleBinding.map (·.digest) := by
      intro b' hb' hsame
      obtain ⟨pin', hpin', hlt⟩ := hrest.above b' hb'
      rw [hpin', hpin, map_some, map_some] at hsame
      have hlt' := hlt _ rfl
      rw [some.inj hsame] at hlt'
      exact lt_irrefl _ hlt'
    refine ⟨?_, ?_, ?_, ?_, ?_, ?_⟩
    · rw [map_cons, nodup_cons]
      refine ⟨fun hmem => ?_, hrest.scopes⟩
      obtain ⟨b', hb', hsame⟩ := mem_map.1 hmem
      exact hrest.fresh b' hb' (hsame ▸ mem_cons_self)
    · refine forall_mem_cons.2 ⟨fun hmem => ?_, fun b' hb' hmem => ?_⟩
      · rw [contains_iff_mem.2 hmem] at hfresh
        cases hfresh
      · exact hrest.fresh b' hb' (mem_cons_of_mem _ hmem)
    · rw [map_cons, nodup_cons]
      refine ⟨fun hmem => ?_, hrest.pins⟩
      obtain ⟨b', hb', hsame⟩ := mem_map.1 hmem
      exact hlater b' hb' hsame
    · have hfirst : ∀ digest, previous = some digest → digest < Bytes.ofBe pin.digest.asBytes := by
        intro digest hdigest
        rw [hdigest, any_some] at habove
        exact Nat.lt_of_not_le (of_decide_eq_false habove)
      refine forall_mem_cons.2 ⟨⟨pin, hpin, hfirst⟩, fun b' hb' => ?_⟩
      obtain ⟨pin', hpin', hlt⟩ := hrest.above b' hb'
      exact ⟨pin', hpin', fun digest hdigest => (hfirst digest hdigest).trans (hlt _ rfl)⟩
    · exact forall_mem_cons.2 ⟨Catalog.badCoverage_eq_false hcovered, hrest.through⟩
    · exact forall_mem_cons.2 ⟨Binding.badClosure_eq_false hclosure, hrest.closed⟩

theorem Catalog.valid_of_validate (h : c.validate encodes = .ok ()) : c.Valid := by
  obtain ⟨-, h⟩ := reject_bind_eq_ok.1 h
  have hvalid := Catalog.validFrom_of_validateBindings h
  exact ⟨hvalid.scopes, hvalid.pins, hvalid.through, hvalid.closed⟩

end

/-! ## Encoding -/

/-- A locator as it is read from the bundle that it was written with. -/
def Locator.settle (extents : List (Digest × Nat × Nat)) (digest : Digest)
    (l : Locator) : Locator :=
  (l.place extents).resolve digest

/-- A binding as it is read from the bundle that it was written with. -/
def Binding.settle (extents : List (Digest × Nat × Nat)) (digest : Digest)
    (b : Binding) : Binding :=
  { b with locators := b.locators.map (Locator.settle extents digest) }

theorem Locator.settle_of_object {l : Locator}
    {object : Digest} (h : l.object = some object) : l.settle extents digest = l := by
  unfold Locator.settle Locator.place Locator.resolve
  cases l
  subst h
  rfl

/-- What is checked and written for a catalog. -/
structure Upload.Encodes (E : LaneEnv) (base : Upload) (c : Catalog)
    (frames : List VerifiedNodeFrame)
    (assignments : List AssignedCommitRange) (front back : Bytes) (digest : Digest)
    (u : Upload) : Prop where
  valid : c.Valid
  digests : (frames.map (·.digest E.primitives.blake3)).Nodup
  pending : ∀ f ∈ frames, ∃ b ∈ c.bindings, ∃ l ∈ b.locators, l.object = none ∧
    l.frameDigest = f.digest E.primitives.blake3
  original : u.original = some base.head
  head : u.head = ⟨c.epoch, digest, c.selectedThrough⟩
  session : u.catalog.session = c.session
  epoch : u.catalog.epoch = c.epoch
  through : u.catalog.selectedThrough = c.selectedThrough
  bindings : u.catalog.bindings = c.bindings.map
    (Binding.settle (frameExtents E.primitives.blake3 front.length frames) digest)
  body : u.body = front ++ frames.flatMap (·.encoded) ++ back
  bounded : u.body.length ≤ maxBundleBytes
  assigned : u.assignments = assignments

theorem Upload.encodes_of_encode {assignments : List AssignedCommitRange}
    (h : Upload.encode E base c frames assignments front back digest = .ok u) :
    Upload.Encodes E base c frames assignments front back digest u := by
  obtain ⟨_, hvalid, h⟩ := bind_eq_ok.1 h
  obtain ⟨bindings, hassign, h⟩ := bind_eq_ok.1 h
  obtain ⟨hbounded, h⟩ := reject_bind_eq_ok.1 h
  obtain rfl := ok.inj h
  obtain ⟨-, hassign⟩ := reject_bind_eq_ok.1 hassign
  obtain ⟨hdigests, hassign⟩ := reject_bind_eq_ok.1 hassign
  obtain ⟨hunique, hassign⟩ := reject_bind_eq_ok.1 hassign
  obtain rfl := ok.inj hassign
  rw [Bool.not_eq_false'] at hdigests
  refine ⟨Catalog.valid_of_validate hvalid, of_decide_eq_true hdigests, fun f hf => ?_, rfl,
    rfl, rfl, rfl, rfl, ?_, rfl, Nat.le_of_not_lt (of_decide_eq_false hbounded), rfl⟩
  · have hcount := any_eq_false.1 hunique f hf
    rw [bne_iff_ne, not_not] at hcount
    obtain ⟨l, hl, hdigest⟩ := countP_pos_iff.1 (hcount ▸ Nat.one_pos)
    obtain ⟨hl, hnone⟩ := mem_filter.1 hl
    obtain ⟨b, hb, hl⟩ := mem_flatMap.1 hl
    exact ⟨b, hb, l, hl, isNone_iff_eq_none.1 hnone, beq_iff_eq.1 hdigest⟩
  · dsimp only
    rw [List.map_map]
    refine map_congr_left fun b _ => ?_
    show ({ b with locators := (b.locators.map _).map _ } : Binding) = _
    rw [List.map_map]
    rfl

section
variable {E : LaneEnv} {events : List IssuanceEvent} {uploads : List Upload} {base u : Upload}
  {c : Catalog} {frames : List VerifiedNodeFrame} {assignments : List AssignedCommitRange}
  {front back : Bytes} {digest : Digest} {l : Locator} {f : VerifiedNodeFrame} {b b' : Binding}

/-- In the bundle every locator stands for its frame. -/
theorem Upload.Encodes.locates (h : Upload.Encodes E base c frames assignments front back digest u)
    (hpoints : Points E.primitives uploads frames l f) :
    Locates E.primitives (u :: uploads)
      (l.settle (frameExtents E.primitives.blake3 front.length frames) digest) f := by
  rcases hpoints with hlocates | ⟨hnone, hdigest, hf, limits, hinspect⟩
  · have ⟨v, _, hobject, _⟩ := hlocates
    rw [Locator.settle_of_object hobject]
    exact hlocates.mono fun w hw => mem_cons_of_mem _ hw
  · obtain ⟨hinside, hslice⟩ := Locator.place_slice h.digests h.body h.bounded hnone hf hdigest
    refine ⟨u, mem_cons_self, ?_, hinside, hslice, limits, hinspect⟩
    unfold Locator.settle Locator.resolve
    rw [Locator.place_object, hnone, h.head]
    rfl

/-- In the bundle every binding tracks its captures. -/
theorem Upload.Encodes.tracked (h : Upload.Encodes E base c frames assignments front back digest u)
    (htracked : b.Tracked (Points E.primitives uploads frames) events assignments) :
    (b.settle (frameExtents E.primitives.blake3 front.length frames) digest).Tracked
      (Locates E.primitives (u :: uploads)) events assignments := by
  obtain ⟨older, groups, ⟨start, chain, htracks⟩, hholds, hends⟩ := htracked
  refine ⟨older, groups, ⟨start, chain, ?_, htracks.covered, htracks.new, htracks.follows,
    htracks.position, htracks.commit, htracks.firstCommit, htracks.before⟩, hholds, hends⟩
  exact forall₂_map_left_iff.2 (htracks.points.imp fun l f hl => h.locates hl)

/-- Settling what was added keeps a step. -/
theorem BindingStep.settle (h : BindingStep E events uploads b b')
    (hobjects : ∀ l ∈ b.locators, ∃ object, l.object = some object) :
    BindingStep E events uploads b (b'.settle extents digest) := by
  obtain ⟨count, added, hlocators, hreleases⟩ := h.locators
  refine ⟨h.pin, h.scope, h.frozen, h.freezes, h.closes, count,
    added.map (Locator.settle extents digest), ?_, hreleases⟩
  show b'.locators.map _ = _
  rw [hlocators, map_append]
  congr 1
  refine (map_congr_left fun l hl => ?_).trans (map_id _)
  obtain ⟨object, hobject⟩ := hobjects l (mem_of_mem_drop hl)
  exact Locator.settle_of_object hobject

/-- The locators of a binding that tracks captures of bundles name these bundles. -/
theorem Binding.Tracked.objects (h : b.Tracked (Locates E.primitives uploads) events assignments) :
    ∀ l ∈ b.locators, ∃ object, l.object = some object := by
  intro l hl
  obtain ⟨frames, start, chain, htracks, -⟩ := h.exists_frames
  obtain ⟨f, -, v, -, hobject, -⟩ := htracks.points.exists_right hl
  exact ⟨_, hobject⟩

end

/-! ## Steps of a lane -/

/-- What a selection does to the catalog: the selected sequence advances over the frames that were
written, each with its locator; every binding makes a step, and new ones are just reserved. -/
structure CatalogStep (E : LaneEnv) (events : List IssuanceEvent) (uploads : List Upload)
    (c c' : Catalog) : Prop where
  session : c'.session = c.session
  epoch : c'.epoch = c.epoch
  advances : ∃ frames : List VerifiedNodeFrame,
    frames.map (·.scope.nodeSequence) = List.range' (c.selectedThrough + 1) frames.length ∧
    c'.selectedThrough = c.selectedThrough + frames.length ∧
    ∀ f ∈ frames, ∃ b ∈ c'.bindings, ∃ l ∈ b.locators, Locates E.primitives uploads l f
  kept : ∀ b ∈ c.bindings, ∃ b' ∈ c'.bindings, BindingStep E events uploads b b'
  steps : ∀ b' ∈ c'.bindings, b'.Reserved ∨ ∃ b ∈ c.bindings, BindingStep E events uploads b b'

section
variable {E : LaneEnv} {events : List IssuanceEvent} {uploads uploads' : List Upload}
  {base u : Upload}
  {c c' : Catalog} {frames : List VerifiedNodeFrame} {assignments : List AssignedCommitRange}
  {front back : Bytes} {digest : Digest}

theorem CatalogStep.mono (h : CatalogStep E events uploads c c')
    (hsub : ∀ v ∈ uploads, v ∈ uploads') : CatalogStep E events uploads' c c' := by
  obtain ⟨frames, hsequences, hthrough, hlocated⟩ := h.advances
  refine ⟨h.session, h.epoch, ⟨frames, hsequences, hthrough, fun f hf => ?_⟩, fun b hb => ?_,
    fun b' hb' => ?_⟩
  · obtain ⟨b, hb, l, hl, hlocates⟩ := hlocated f hf
    exact ⟨b, hb, l, hl, hlocates.mono hsub⟩
  · obtain ⟨b', hb', hstep⟩ := h.kept b hb
    exact ⟨b', hb', hstep.mono hsub⟩
  · rcases h.steps b' hb' with hreserved | ⟨b, hb, hstep⟩
    · exact .inl hreserved
    · exact .inr ⟨b, hb, hstep.mono hsub⟩

/-- The bundle of a catalog that follows has a good catalog. -/
theorem Upload.Encodes.good (h : Upload.Encodes E base c frames assignments front back digest u)
    (hfollows : base.catalog.Follows E events uploads frames assignments c)
    (hassigned : Assigned events assignments) :
    GoodUpload E.primitives events (u :: uploads) u := by
  refine ⟨?_, ?_, ?_⟩
  · rw [h.bindings, h.assigned]
    exact forall_mem_map.2 fun b hb => h.tracked (hfollows.tracked b hb)
  · have hvalid := h.valid
    refine ⟨?_, ?_, ?_, ?_⟩
    · rw [h.bindings, List.map_map]
      exact hvalid.scopes
    · rw [h.bindings, List.map_map]
      exact hvalid.pins
    · rw [h.bindings, h.through]
      exact forall_mem_map.2 hvalid.through
    · rw [h.bindings]
      exact forall_mem_map.2 hvalid.closed
  · rw [h.assigned]
    exact hassigned

/-- The bundle of a catalog that follows has a step of the catalog. -/
theorem Upload.Encodes.step (h : Upload.Encodes E base c frames assignments front back digest u)
    (hfollows : base.catalog.Follows E events uploads frames assignments c)
    (hgood : GoodUpload E.primitives events uploads base) :
    CatalogStep E events (u :: uploads) base.catalog u.catalog := by
  have hsub : ∀ v ∈ uploads, v ∈ u :: uploads := fun v hv => mem_cons_of_mem _ hv
  refine ⟨h.session.trans hfollows.session, h.epoch.trans hfollows.epoch, ?_, fun b hb => ?_, ?_⟩
  · refine ⟨frames, hfollows.sequences, h.through.trans hfollows.through, fun f hf => ?_⟩
    -- the locator that waits for the frame stands for it: frames have different digests
    obtain ⟨b, hb, l, hl, hnone, hdigest⟩ := h.pending f hf
    obtain ⟨frames', start, chain, htracks, -⟩ := (hfollows.tracked b hb).exists_frames
    obtain ⟨f', -, hpoints⟩ := htracks.points.exists_right hl
    have hsame : f' = f := by
      rcases hpoints with ⟨v, -, hobject, -⟩ | ⟨-, hdigest', hf', -⟩
      · rw [hnone] at hobject
        cases hobject
      · exact inj_on_of_nodup_map h.digests hf' hf (hdigest'.symm.trans hdigest)
    subst hsame
    refine ⟨_, h.bindings ▸ mem_map_of_mem hb, _, mem_map_of_mem hl, h.locates hpoints⟩
  · obtain ⟨b', hb', hstep⟩ := hfollows.kept b hb
    exact ⟨_, h.bindings ▸ mem_map_of_mem hb',
      (hstep.settle (hgood.bindings b hb).objects).mono hsub⟩
  · rw [h.bindings]
    refine forall_mem_map.2 fun b' hb' => ?_
    rcases hfollows.steps b' hb' with hreserved | ⟨b, hb, hstep⟩
    · refine .inl ⟨hreserved.phase, hreserved.terminal, ?_⟩
      show b'.locators.map _ = []
      rw [hreserved.locators, map_nil]
    · exact .inr ⟨b, hb, (hstep.settle (hgood.bindings b hb).objects).mono hsub⟩

end

/-- What holds in a lane: every bundle has a good catalog, which is a step of the one that it was
prepared from. -/
structure BundleLane.Inv (E : LaneEnv) (events : List IssuanceEvent)
    (lane : BundleLane) : Prop where
  named : Named lane.uploads
  good : ∀ u ∈ lane.uploads, GoodUpload E.primitives events lane.uploads u
  derived : ∀ u ∈ lane.uploads, ∀ head, u.original = some head → ∃ base ∈ lane.uploads,
    base.head = head ∧ CatalogStep E events lane.uploads base.catalog u.catalog
  selected : lane.selected ∈ lane.uploads

namespace BundleLane

variable {E : LaneEnv} {events : List IssuanceEvent} {lane lane' : BundleLane}

theorem start_inv (session : SessionId) (epoch : Nat) (head : NodeBundleHead) (body : Bytes) :
    (start session epoch head body).Inv E events := by
  refine ⟨fun u hu v hv _ => ?_, fun u hu => ?_, fun u hu head' horiginal => ?_,
    mem_singleton_self _⟩
  · rw [mem_singleton.1 hu, mem_singleton.1 hv]
  · obtain rfl := mem_singleton.1 hu
    exact ⟨nofun, ⟨.nil, .nil, by simp, by simp⟩, by simp [Assigned]⟩
  · obtain rfl := mem_singleton.1 hu
    cases horiginal

theorem Step.inv (horder : InOrder events) (h : Step E events lane lane')
    (hinv : lane.Inv E events) :
    lane'.Inv E events := by
  cases h with
  | @upload base u action c front back digest hbase hallowed hperform hencode hnames =>
    have hsub : ∀ v ∈ lane.uploads, v ∈ u :: lane.uploads := fun v hv => mem_cons_of_mem _ hv
    have hfollows := LaneAction.perform_follows horder hinv.named hinv.good hbase hallowed hperform
    have hencodes := Upload.encodes_of_encode hencode
    refine ⟨?_, ?_, ?_, mem_cons_of_mem _ hinv.selected⟩
    · intro v hv w hw hsame
      rcases mem_cons.1 hv with rfl | hv'
      · rcases mem_cons.1 hw with rfl | hw'
        · rfl
        · exact (hnames w hw' hsame.symm).symm
      · rcases mem_cons.1 hw with rfl | hw'
        · exact hnames v hv' hsame
        · exact hinv.named v hv' w hw' hsame
    · refine forall_mem_cons.2 ⟨hencodes.good hfollows hallowed.assigned, fun v hv => ?_⟩
      exact (hinv.good v hv).mono hsub
    · refine forall_mem_cons.2 ⟨fun head horiginal => ?_, fun v hv head horiginal => ?_⟩
      · obtain rfl := some.inj (hencodes.original.symm.trans horiginal)
        exact ⟨base, hsub base hbase, rfl, hencodes.step hfollows (hinv.good base hbase)⟩
      · obtain ⟨base', hbase', hhead, hstep⟩ := hinv.derived v hv head horiginal
        exact ⟨base', hsub base' hbase', hhead, hstep.mono hsub⟩
  | select hu hcas => exact { hinv with selected := hu }

theorem Steps.inv (horder : InOrder events) (h : Steps E events lane lane')
    (hinv : lane.Inv E events) :
    lane'.Inv E events := by
  induction h with
  | refl => exact hinv
  | tail _ hstep ih => exact hstep.inv horder ih

/-- The selected bundle is replaced by one that was prepared from it. -/
theorem Step.selected (h : Step E events lane lane') (hinv : lane.Inv E events) :
    lane'.selected = lane.selected ∨
      CatalogStep E events lane'.uploads lane.selected.catalog lane'.selected.catalog := by
  cases h with
  | upload => exact .inl rfl
  | @select u hu hcas =>
    obtain ⟨base, hbase, hhead, hstep⟩ := hinv.derived u hu _ hcas
    have hsame := hinv.named base hbase lane.selected hinv.selected (by rw [hhead])
    exact .inr (hsame ▸ hstep)

/-- The captures that a gate assigns are in order. -/
theorem inOrder_events (hash : Hash) (hnew : GateState.new i session node epoch members = .ok g)
    (hbuilt : ∀ call ∈ calls, IssuanceRun.BuiltCall P limits call) :
    InOrder ((IssuanceRun.start g).run hash calls).events := by
  obtain ⟨-, hnew⟩ := reject_bind_eq_ok.1 hnew
  obtain rfl := ok.inj hnew
  have hinv : ((IssuanceRun.start (.fresh i session node epoch members)).run hash calls).Inv session
      epoch := IssuanceRun.run_inv (IssuanceRun.start_inv i session node epoch members) hbuilt
  exact ⟨hinv.ordered, hinv.precedes⟩

/-- In every state of every run of a lane with the captures and the terminals of its gate: the
locators of each selected binding stand for a chain of captures without gaps from its base to its
endpoint, which ends with a whole capture; a closed binding is at its terminal. A further step keeps
the selection or makes a step of the catalog: the selected sequence advances over the frames that
were written, without gaps; each binding keeps a frozen terminal, which the gate issued, is closed
only there, and has captures released only up to a frame at whose end a published root stands. -/
theorem bundle_bindings_track_captures (hash : Hash) (E : LaneEnv) {limits : Limits}
    {i : Nat} {session : SessionId} {node : NodeId} {epoch : Nat} {members : List NodeId}
    {g : GateState}
    (hnew : GateState.new i session node epoch members = .ok g) {calls : List GateCall}
    (hbuilt : ∀ call ∈ calls, IssuanceRun.BuiltCall E.primitives limits call)
    {events : List IssuanceEvent} (hevents : events = ((IssuanceRun.start g).run hash calls).events)
    {head : NodeBundleHead} {body : Bytes}
    (hsteps : Steps E events (start session epoch head body) lane) :
    (∀ b ∈ lane.selected.catalog.bindings,
      (∃ frames first last, Tracks (Locates E.primitives lane.uploads) events b frames first last ∧
        ∀ f, frames.getLast? = some f → EndsCapture events b.scope f) ∧
      (b.phase = .closed → b.terminal = some b.endpoint)) ∧
    ∀ lane', Step E events lane lane' → lane'.selected = lane.selected ∨
      CatalogStep E events lane'.uploads lane.selected.catalog lane'.selected.catalog := by
  have horder : InOrder events := hevents ▸ inOrder_events hash hnew hbuilt
  have hinv := Steps.inv horder hsteps (start_inv session epoch head body)
  have hgood := hinv.good _ hinv.selected
  exact ⟨fun b hb => ⟨(hgood.bindings b hb).exists_frames, hgood.valid.closed b hb⟩,
    fun lane' hstep => hstep.selected hinv⟩

/-! ## A sample lane -/

/-- The control record of the sample Cell, with a pin and a root. -/
def sampleControl (revision : Nat) (pin : Option BundleBindingRef) (root : RootRef) : Control :=
  ⟨.fill 32 3, .fill 16 4, 1, revision, revision, .serving, some ⟨.fill 16 1, []⟩,
    some root, none, pin, .fill 32 6, 1, none⟩

def samplePin : BundleBindingRef := ⟨.fill 16 1, 1, .fill 32 8⟩

/-- The root that is published after both captures. -/
def sampleRoot : RootRef :=
  ⟨.fill 32 9, sampleChange.segment.position.txid, sampleChange.segment.position.checksum, 2⟩

def samplePublished : Control := sampleControl 3 (some samplePin) sampleRoot

def sampleLaneEnv : LaneEnv where
  primitives := samplePrimitives
  encodes _ := .ok ()
  pinOf _ _ _ := .fill 32 8
  scope := sampleVerifyScope
  published _ control := control = samplePublished

/-- The bundle that an operation on another one leads to. -/
def sampleUpload (base : Upload) (n : UInt8) (action : LaneAction) : Option Upload :=
  match action.perform sampleLaneEnv base.catalog with
  | .ok (some c) =>
    (Upload.encode sampleLaneEnv base c action.frames action.assignments [0] []
      (.fill 32 n)).toOption
  | _ => none

theorem exists_of_sampleUpload (h : sampleUpload base n action = some u) :
    ∃ c, action.perform sampleLaneEnv base.catalog = .ok (some c) ∧
      Upload.encode sampleLaneEnv base c action.frames action.assignments [0] [] (.fill 32 n)
        = .ok u := by
  unfold sampleUpload at h
  split at h
  · next c hperform =>
    refine ⟨c, hperform, ?_⟩
    cases hencode : Upload.encode sampleLaneEnv base c action.frames action.assignments [0] []
        (.fill 32 n) with
    | error e =>
      rw [hencode] at h
      cases h
    | ok v =>
      rw [hencode] at h
      rw [some.inj h]
  · cases h

section
variable {u : Upload} (n : UInt8) (action : LaneAction) (hselected : lane.selected ∈ lane.uploads)
  (hallowed : action.Allowed sampleLaneEnv events lane.uploads)
  (h : sampleUpload lane.selected n action = some u)
  (hnames : ∀ v ∈ lane.uploads, v.head.digest ≠ .fill 32 n)
include hselected hallowed h hnames

/-- An operation on the selected bundle is uploaded under a new digest. -/
theorem step_of_sampleUpload :
    Step sampleLaneEnv events lane { lane with uploads := u :: lane.uploads } ∧
      u.original = some lane.selected.head := by
  obtain ⟨c, hperform, hencode⟩ := exists_of_sampleUpload h
  have hencodes := Upload.encodes_of_encode hencode
  refine ⟨.upload hselected hallowed hperform hencode fun v hv hsame => ?_, hencodes.original⟩
  rw [hencodes.head] at hsame
  exact absurd hsame (hnames v hv)

/-- The bundle is selected as well. -/
theorem steps_of_sampleUpload : Steps sampleLaneEnv events lane ⟨u :: lane.uploads, u⟩ := by
  obtain ⟨hstep, horiginal⟩ := step_of_sampleUpload n action hselected hallowed h hnames
  exact .tail (.single hstep) (.select mem_cons_self horiginal)

end

def sampleStart : BundleLane := start (.fill 16 1) 1 ⟨1, .fill 32 100, 0⟩ []

/-- The two captures are assigned one after another. -/
def sampleIssuance : List GateCall :=
  [.commitFrames ⟨.fill 16 1, 1, 1, 1⟩ [sampleSnapshot],
    .commitFrames ⟨.fill 16 1, 1, 2, 2⟩ [sampleChange]]

def sampleEvents : List IssuanceEvent :=
  [.assigned ⟨⟨.fill 16 1, 1, 1, 1⟩, sampleSnapshot, []⟩,
    .assigned ⟨⟨.fill 16 1, 1, 2, 2⟩, sampleChange, []⟩]

/-- The operations of the sample: the binding is reserved and opened, two captures are staged, and a
checkpoint at the end of the second releases both. -/
def sampleReserve : LaneAction :=
  .reserve (.fill 16 2) (sampleControl 1 none ⟨.fill 32 9, 0, 0, 0⟩)

def sampleOpen : LaneAction :=
  .openBinding (.fill 16 2) (sampleControl 2 (some samplePin) ⟨.fill 32 9, 0, 0, 0⟩)

def sampleStage (f : VerifiedNodeFrame) : LaneAction := .stage [f] [sampleAssignment f] []

/-- The binding with both captures. -/
def sampleBoth : Binding :=
  samplePut (samplePut { sampleOpened with
    control := sampleControl 2 (some samplePin) ⟨.fill 32 9, 0, 0, 0⟩ }
    (some (.fill 32 103)) 1 sampleSnapshot) (some (.fill 32 104)) 1 sampleChange

def sampleLoad (cell : CellId) : Option Control :=
  if cell = samplePublished.cell then some samplePublished else none

def sampleRelease : LaneAction :=
  .checkpoint [⟨.fill 16 2, sampleLoad, samplePin, sampleBoth, ⟨1, .fill 32 104, 2⟩,
    .fill 16 1, none⟩]

/-- The bundles of the sample. -/
@[irreducible] def sampleReserved : Upload := (sampleUpload sampleStart.selected 101
    sampleReserve).getD
  sampleStart.selected

@[irreducible] def sampleEnrolled : Upload := (sampleUpload sampleReserved 102 sampleOpen).getD
    sampleReserved

@[irreducible] def sampleFirst : Upload :=
  (sampleUpload sampleEnrolled 103 (sampleStage sampleSnapshot)).getD sampleEnrolled

@[irreducible] def sampleSecond : Upload :=
  (sampleUpload sampleFirst 104 (sampleStage sampleChange)).getD sampleFirst

@[irreducible] def sampleReleased : Upload := (sampleUpload sampleSecond 105 sampleRelease).getD
    sampleSecond

def sampleUploads : List Upload := [sampleFirst, sampleEnrolled, sampleReserved,
    sampleStart.selected]

theorem sampleEvents_eq :
    sampleEvents = ((IssuanceRun.start GateRun.sampleGate).run samplePrimitives.blake3
      sampleIssuance).events := by
  rfl

theorem sampleSnapshot_built : samplePrimitives.Built sampleLimits sampleSnapshot := by
  have hencode : samplePrimitives.encodeNodeFrameRange sampleSnapshot.scope 1 sampleSnapshot.segment
      sampleSnapshot.body sampleLimits = .ok sampleSnapshot := by decide +kernel
  exact .encoded hencode

theorem sampleChange_built : samplePrimitives.Built sampleLimits sampleChange := by
  have hencode : samplePrimitives.encodeNodeFrameRange sampleChange.scope 2 sampleChange.segment
      sampleChange.body sampleLimits = .ok sampleChange := by decide +kernel
  exact .encoded hencode

/-- An operation that only changes the enrollment of a Cell. -/
theorem allowed_of_enrollment {uploads : List Upload} {action : LaneAction}
    (hframes : action.frames = []) (hassignments : action.assignments = [])
    (hcheckpoints : action.checkpoints = []) (hissued : action.issued = none) :
    action.Allowed E events uploads := by
  constructor <;> simp [hframes, hassignments, hcheckpoints, hissued]

theorem sampleStage_allowed {uploads : List Upload}
    (hbuilt : samplePrimitives.Built sampleLimits f) (htyped : f.scope.Typed ∧ f.segment.Typed)
    (hassigned : ∃ c, .assigned c ∈ events ∧ (sampleAssignment f).IsOf c) :
    (sampleStage f).Allowed sampleLaneEnv events uploads where
  built _ hf' := mem_singleton.1 hf' ▸ ⟨sampleLimits, hbuilt⟩
  typed _ hf' := mem_singleton.1 hf' ▸ htyped
  assigned _ ha := mem_singleton.1 ha ▸ hassigned
  issued _ hrange := nomatch hrange
  proven _ hcheckpoint := absurd hcheckpoint not_mem_nil
  loads _ hcheckpoint := absurd hcheckpoint not_mem_nil

theorem sampleRelease_allowed : sampleRelease.Allowed sampleLaneEnv sampleEvents
    (sampleSecond :: sampleUploads) where
  built := nofun
  typed := nofun
  assigned := nofun
  issued := nofun
  proven checkpoint hcheckpoint := by
    obtain rfl := mem_singleton.1 hcheckpoint
    have hbinding : sampleBoth ∈ sampleSecond.catalog.bindings := by decide +kernel
    exact .selected mem_cons_self hbinding rfl nofun
  loads checkpoint hcheckpoint cell control hload := by
    obtain rfl := mem_singleton.1 hcheckpoint
    change (if cell = samplePublished.cell then some samplePublished else none)
      = some control at hload
    split at hload
    · next hcell =>
      obtain rfl := some.inj hload
      exact ⟨rfl, hcell.symm⟩
    · cases hload

/-- The sample lane up to the second capture. -/
theorem sampleSteps :
    Steps sampleLaneEnv sampleEvents sampleStart ⟨sampleSecond :: sampleUploads, sampleSecond⟩ := by
  have hreserved : Steps sampleLaneEnv sampleEvents sampleStart
      ⟨[sampleReserved, sampleStart.selected], sampleReserved⟩ :=
    steps_of_sampleUpload 101 sampleReserve mem_cons_self (allowed_of_enrollment rfl rfl rfl rfl)
      (by decide +kernel) (by decide +kernel)
  have henrolled : Steps sampleLaneEnv sampleEvents
      ⟨[sampleReserved, sampleStart.selected], sampleReserved⟩
      ⟨[sampleEnrolled, sampleReserved, sampleStart.selected], sampleEnrolled⟩ :=
    steps_of_sampleUpload 102 sampleOpen mem_cons_self (allowed_of_enrollment rfl rfl rfl rfl)
      (by decide +kernel) (by decide +kernel)
  have hfirst : Steps sampleLaneEnv sampleEvents
      ⟨[sampleEnrolled, sampleReserved, sampleStart.selected], sampleEnrolled⟩
      ⟨sampleUploads, sampleFirst⟩ := by
    refine steps_of_sampleUpload 103 (sampleStage sampleSnapshot) mem_cons_self
      (sampleStage_allowed sampleSnapshot_built ?_ ⟨_, mem_cons_self, rfl, rfl, rfl, rfl⟩)
      (by decide +kernel) (by decide +kernel)
    constructor <;> constructor <;> decide +kernel
  have hsecond : Steps sampleLaneEnv sampleEvents ⟨sampleUploads, sampleFirst⟩
      ⟨sampleSecond :: sampleUploads, sampleSecond⟩ := by
    refine steps_of_sampleUpload 104 (sampleStage sampleChange) mem_cons_self
      (sampleStage_allowed sampleChange_built ?_
        ⟨_, mem_cons_of_mem _ mem_cons_self, rfl, rfl, rfl, rfl⟩)
      (by decide +kernel) (by decide +kernel)
    constructor <;> constructor <;> decide +kernel
  exact ((hreserved.trans henrolled).trans hfirst).trans hsecond

/-- The selected binding of the sample tracks both captures. -/
theorem bundle_bindings_track_captures_sample :
    sampleBoth ∈ sampleSecond.catalog.bindings ∧ sampleBoth.locators.length = 2 ∧
      ∃ frames first last, Tracks (Locates samplePrimitives (sampleSecond :: sampleUploads))
        sampleEvents
        sampleBoth frames first last ∧ ∀ f, frames.getLast? = some f →
          EndsCapture sampleEvents sampleBoth.scope f := by
  have hmem : sampleBoth ∈ sampleSecond.catalog.bindings := by decide +kernel
  have hbuilt : ∀ call ∈ sampleIssuance,
      IssuanceRun.BuiltCall sampleLaneEnv.primitives sampleLimits call := by
    intro call hcall
    rcases mem_cons.1 hcall with rfl | hcall
    · exact fun f hf => mem_singleton.1 hf ▸ sampleSnapshot_built
    · obtain rfl := mem_singleton.1 hcall
      exact fun f hf => mem_singleton.1 hf ▸ sampleChange_built
  have hnew : GateState.new 1 (.fill 16 1) (.fill 16 2) 1 [.fill 16 3]
    = .ok GateRun.sampleGate := rfl
  exact ⟨hmem, rfl, ((bundle_bindings_track_captures samplePrimitives.blake3
    sampleLaneEnv hnew hbuilt
    sampleEvents_eq sampleSteps).1 sampleBoth hmem).1⟩

/-- A checkpoint releases the first capture of the sample although no published root stands where it
ends, but at the end of the second, which is released as well. -/
theorem checkpoint_releases_earlier_capture :
    ∃ lane lane' : BundleLane, Steps sampleLaneEnv sampleEvents sampleStart lane ∧
      Step sampleLaneEnv sampleEvents lane lane' ∧
      ∃ b ∈ lane.selected.catalog.bindings, ∃ b' ∈ lane'.selected.catalog.bindings,
        b'.control.bundleBinding = b.control.bundleBinding ∧
        ∃ l ∈ b.locators, l ∉ b'.locators ∧ ∃ f, Locates samplePrimitives lane.uploads l f ∧
          ∀ control, sampleLaneEnv.published b.control.cell control →
            control.ltxRoot.map (·.position) ≠ some f.segment.position := by
  let both : BundleLane := ⟨sampleSecond :: sampleUploads, sampleSecond⟩
  obtain ⟨hupload, horiginal⟩ : Step sampleLaneEnv sampleEvents both
        { both with uploads := sampleReleased :: both.uploads } ∧
      sampleReleased.original = some both.selected.head :=
    step_of_sampleUpload 105 sampleRelease mem_cons_self sampleRelease_allowed (by decide +kernel)
      (by decide +kernel)
  refine ⟨_, _, sampleSteps.tail hupload, .select mem_cons_self horiginal, sampleBoth,
    by decide +kernel,
    { sampleBoth with control := samplePublished, firstCommit := 2, locators := [] },
    by decide +kernel, rfl, _, mem_cons_self, not_mem_nil, sampleSnapshot, ?_, ?_⟩
  · refine ⟨sampleFirst, by decide +kernel, by decide +kernel, by decide +kernel, by decide +kernel,
      sampleLimits, by decide +kernel⟩
  · rintro control rfl
    decide +kernel

end BundleLane

end Cellule
