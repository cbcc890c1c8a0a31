import Cellule.Bundle.CohortLaws
import Cellule.Bundle.Placing

/-!
# Selected proofs

A proof remembers of the chain of its binding only where it ended, and a later selection goes on
from there. That this is the whole state of the chain needs the origin of the proof: a selected
binding ends with the capture that its stage put there, whose first commit is its own
(`Accepts.remembers`).
-/

namespace Cellule

open Except List

/-! ## What a stage leaves -/

/-- A binding with captures that are being written ends with the locator of a staged frame. -/
def Binding.EndsIn (hash : Hash) (frames : List VerifiedNodeFrame) (b : Binding) : Prop :=
  b.pending = true → ∃ older newest, ∃ frame ∈ frames, b.locators = older ++ [newest] ∧
    newest.object = none ∧ newest.frameDigest = frame.digest hash ∧
    b.firstCommit = frame.firstCommitSequence

section
variable {hash : Hash} {frame : VerifiedNodeFrame}

theorem Binding.EndsIn.mono {b : Binding}
    (h : b.EndsIn hash frames) (hsub : ∀ f ∈ frames, f ∈ frames') : b.EndsIn hash frames' := by
  intro hpending
  obtain ⟨older, newest, f, hf, hrest⟩ := h hpending
  exact ⟨older, newest, f, hsub f hf, hrest⟩

/-- A binding that a frame is put at the end of ends with it. -/
theorem Binding.append_endsIn {b b' : Binding} (h : b.append hash frame = .ok b') :
    b'.EndsIn hash [frame] := by
  obtain ⟨-, h⟩ := reject_bind_eq_ok.1 h
  obtain ⟨-, h⟩ := reject_bind_eq_ok.1 h
  obtain rfl := ok.inj h
  intro _
  exact ⟨_, _, frame, mem_singleton.2 rfl, rfl, rfl, rfl, rfl⟩

theorem appendFrame_endsIn {frames : List VerifiedNodeFrame}
    (hall : ∀ b ∈ bindings, b.EndsIn hash frames)
    (h : appendFrame hash frame bindings = .ok bindings') :
    ∀ b ∈ bindings', b.EndsIn hash (frames ++ [frame]) := by
  have hbefore : ∀ f ∈ frames, f ∈ frames ++ [frame] := fun f hf => mem_append_left _ hf
  obtain ⟨before, owner, after, owner', rfl, -, -, happend, rfl⟩ := editFirst_eq_ok.1 h
  intro b hb
  rcases mem_append.1 hb with hb | hb
  · exact (hall b (mem_append_left _ hb)).mono hbefore
  rcases mem_cons.1 hb with rfl | hb
  · exact (Binding.append_endsIn happend).mono fun f hf => mem_append_right _ hf
  · exact (hall b (mem_append_right _ (mem_cons_of_mem _ hb))).mono hbefore

/-- After a stage, every binding with captures that are being written ends with one of its
frames. -/
theorem Catalog.stageFrames_endsIn {catalog staged : Catalog}
    (hresolved : ∀ b ∈ catalog.bindings, b.pending = false)
    (h : catalog.stageFrames hash assignments frames = .ok staged) :
    ∀ b ∈ staged.bindings, b.EndsIn hash frames := by
  obtain ⟨_, -, h⟩ := bind_eq_ok.1 h
  have hstart : ∀ b ∈ catalog.bindings, b.EndsIn hash [] := by
    intro b hb hpending
    rw [hresolved b hb] at hpending
    cases hpending
  refine foldlM_ok (P := fun done c => ∀ b ∈ Catalog.bindings c, b.EndsIn hash done) ?_
    hstart h
  intro done frame c c' hall hstep
  obtain ⟨-, hstep⟩ := reject_bind_eq_ok.1 hstep
  obtain ⟨bindings, hbindings, hstep⟩ := bind_eq_ok.1 hstep
  obtain rfl := ok.inj hstep
  exact appendFrame_endsIn hall hbindings

end

/-! ## Staged proposals -/

/-- What a stage makes of captures and of a loaded catalog whose locators have their objects
(`stage_catalog`, `node/bundle/store.rs:17`). The body has the frames between its index and its
histories. -/
structure Proposal.Staged (P : Primitives) (prepared : Proposal) (frames : List VerifiedNodeFrame)
    (loaded staged : Catalog) (bindings : List Binding) (front back : Bytes) : Prop where
  resolved : ∀ b ∈ loaded.bindings, b.pending = false
  built : ∀ f ∈ frames, ∃ limits, P.Built limits f
  typed : ∀ f ∈ frames, f.scope.Typed ∧ f.segment.Typed
  stage : loaded.stageFrames P.blake3 prepared.assignments frames = .ok staged
  assigned : assign P.blake3 staged.bindings frames front.length = .ok bindings
  catalog : prepared.catalog =
    { staged with
      predecessor := prepared.original.map (·.digest)
      bindings := bindings.filter (·.pending) }
  body : prepared.body = front ++ frames.flatMap (·.encoded) ++ back
  bounded : prepared.body.length ≤ maxBundleBytes
  epoch : prepared.head.epoch = staged.epoch
  through : prepared.head.selectedThrough = staged.selectedThrough

/-- What is at the end of a binding that a selection selects: a capture that was read or written
before, and that stands in the body of the bundle. -/
structure Newest (P : Primitives) (prepared : Proposal) (binding : Binding) (older : List Locator)
    (newest : Locator) (frame : VerifiedNodeFrame) : Prop where
  locators : binding.locators = older ++ [newest]
  object : newest.object = some prepared.head.digest
  bytes : (prepared.body.drop newest.offset.toNat).take newest.bytes.toNat = frame.encoded
  inspected : ∃ limits, P.inspectNodeFrame frame.encoded limits = .ok frame
  firstCommit : binding.firstCommit = frame.firstCommitSequence

section
variable {P : Primitives} {prepared : Proposal} {frames : List VerifiedNodeFrame}
  {loaded staged : Catalog} {bindings : List Binding} {front back : Bytes}

theorem Proposal.Staged.exists_newest
    (h : prepared.Staged P frames loaded staged bindings front back) {binding : Binding}
    (hbinding : binding ∈ VerifyScope.selectedBindings prepared) :
    ∃ older newest frame, Newest P prepared binding older newest frame := by
  have hends := Catalog.stageFrames_endsIn h.resolved h.stage
  obtain ⟨-, hassign⟩ := reject_bind_eq_ok.1 h.assigned
  obtain ⟨hnodup, hassign⟩ := reject_bind_eq_ok.1 hassign
  obtain ⟨-, hassign⟩ := reject_bind_eq_ok.1 hassign
  have hbindings := ok.inj hassign
  rw [Bool.not_eq_false', decide_eq_true_eq] at hnodup
  obtain ⟨placed, hplaced, rfl⟩ := mem_map.1 hbinding
  obtain ⟨hplaced, hpending⟩ := mem_filter.1 hplaced
  rw [h.catalog] at hplaced
  obtain ⟨hplaced, -⟩ := mem_filter.1 hplaced
  rw [← hbindings] at hplaced
  obtain ⟨b, hb, rfl⟩ := mem_map.1 hplaced
  have hb_pending : b.pending = true := by
    unfold Binding.pending
    simpa only [any_map, Function.comp_def, Locator.place_object] using hpending
  obtain ⟨older, newest, frame, hframe, hlocators, hnone, hdigest, hfirst⟩ := hends b hb hb_pending
  let extents := frameExtents P.blake3 front.length frames
  let resolve := fun l : Locator => { l with object := some (l.object.getD prepared.head.digest) }
  obtain ⟨-, hslice⟩ := Locator.place_slice hnodup h.body h.bounded hnone hframe hdigest
  obtain ⟨limits, hbuilt⟩ := h.built frame hframe
  obtain ⟨hscope, hsegment⟩ := h.typed frame hframe
  refine ⟨(older.map (·.place extents)).map resolve, resolve (newest.place extents),
    frame, ?_, ?_, ?_, ⟨limits, inspect_of_encode hscope hsegment hbuilt.encode_eq⟩, hfirst⟩
  · dsimp only
    rw [hlocators, map_append, map_append]
    rfl
  · dsimp only [resolve]
    rw [Locator.place_object, hnone]
    rfl
  · exact hslice

end

/-! ## Selected proofs -/

namespace VerifyScope

variable {V : VerifyScope} {prepared : Proposal} {binding : Binding}

/-- A frame that is checked is what the decoder says. -/
theorem inspect_of_checkedFrame (h : V.checkedFrame binding locator bytes = .ok frame) :
    V.primitives.inspectNodeFrame bytes V.limits = .ok frame := by
  obtain ⟨-, h⟩ := reject_bind_eq_ok.1 h
  obtain ⟨frame', hframe, h⟩ := bind_eq_ok.1 h
  obtain ⟨-, h⟩ := reject_bind_eq_ok.1 h
  rw [← ok.inj h]
  exact mapError_eq_ok.1 hframe

/-- The chain has the first commit of its last frame. -/
theorem follow_concat_firstCommit (h : follow start (frames ++ [frame]) = .ok chain) :
    chain.firstCommit = frame.firstCommitSequence := by
  rw [follow_append] at h
  obtain ⟨before, -, h⟩ := bind_eq_ok.1 h
  obtain ⟨after, haccept, h⟩ := bind_eq_ok.1 h
  obtain rfl := ok.inj h
  obtain ⟨-, haccept⟩ := reject_bind_eq_ok.1 haccept
  rw [← ok.inj haccept]
  rfl

/-- A binding that is verified and ends with a staged capture remembers all of its chain. -/
theorem Accepts.remembers
    (hstored : V.store V.session V.epoch prepared.head.digest = some prepared.body)
    (hnewest : Newest V.primitives prepared binding older newest frame) (h : V.Accepts binding) :
    V.Remembers binding := by
  obtain ⟨frames, chain, hverified⟩ := h
  have hreads := hverified.reads
  rw [hnewest.locators] at hreads
  obtain ⟨before, last, rfl, -, object, body, hextent, hbody, -, hframe⟩ := hreads.exists_concat
  obtain ⟨hobject, -⟩ := extent_eq_ok.1 hextent
  obtain rfl := Option.some.inj (hobject.symm.trans hnewest.object)
  obtain rfl := Option.some.inj (hbody.symm.trans hstored)
  rw [hnewest.bytes] at hframe
  obtain ⟨limits, hinspected⟩ := hnewest.inspected
  obtain rfl := inspect_unique (inspect_of_checkedFrame hframe) hinspected
  obtain ⟨start, -, hfollow⟩ := bind_eq_ok.1 hverified.follows
  have hfirst := follow_concat_firstCommit hfollow
  have hends := hverified.ends
  unfold BindingChain.finish at hends
  rw [reject_eq_ok, Bool.or_eq_false_iff, Bool.or_eq_false_iff, bne_eq_false_iff_eq,
    bne_eq_false_iff_eq, hnewest.locators] at hends
  obtain ⟨⟨hposition, hcommit⟩, hsequence⟩ := hends
  have hchain : chain = .selected binding := by
    unfold BindingChain.selected
    rw [← hposition, ← hcommit, hnewest.firstCommit, ← hfirst]
    have hsequence' : chain.sequence = binding.selectedSequence := by
      simpa using hsequence
    rw [← hsequence']
  exact ⟨before ++ [last], hchain ▸ hverified⟩

/-- The scope of a selection of a proposal, under some limits. -/
def lane (V : VerifyScope) (prepared : Proposal) (limits : Limits) : VerifyScope :=
  { V with session := prepared.catalog.session, epoch := prepared.head.epoch, limits := limits }

/-- The proofs that selections of staged proposals make, each of them extending earlier ones. -/
inductive Selected (V : VerifyScope) : BundleCoverageProof → Prop
  | select {limits : Limits} {prepared : Proposal} {process : Process}
      {prefixes proofs : List BundleCoverageProof} {proof : BundleCoverageProof}
      {frames : List VerifiedNodeFrame} {loaded staged : Catalog} {bindings : List Binding}
      {front back : Bytes}
      (hstaged : prepared.Staged V.primitives frames loaded staged bindings front back)
      (hprefixes : ∀ q ∈ prefixes, Selected V q)
      (hselects : (V.lane prepared limits).selectExtending prepared process prefixes = .ok proofs)
      (hproof : proof ∈ proofs) : Selected V proof

/-- The proof remembers the chain of its binding, in the lane and under the limits of its
selection. -/
def Sound (V : VerifyScope) (proof : BundleCoverageProof) : Prop :=
  ∀ live, proof.live = some live →
    { V with session := proof.session, epoch := proof.head.epoch, limits := live.limits }.Remembers
      proof.binding

/-- A proof that a binding extends remembers its chain in the lane of that binding. -/
theorem Extends.remembers (h : V.Extends binding previous)
    (hsound : V.Sound previous) : V.Remembers previous.binding := by
  obtain ⟨live, hlive, hlimits⟩ := h.live
  have hremembers := hsound live hlive
  rw [h.session, h.epoch, hlimits] at hremembers
  exact hremembers

theorem loadOrigin_eq_ok (h : V.loadOrigin prepared = .ok origin) :
    V.store V.session V.epoch prepared.head.digest = some prepared.body ∧
      origin = ⟨V.session, prepared.head, prepared.body⟩ := by
  obtain ⟨body, hbody, h⟩ := bind_eq_ok.1 h
  obtain ⟨digest, -, h⟩ := bind_eq_ok.1 h
  obtain ⟨hsame, h⟩ := reject_bind_eq_ok.1 h
  rw [Bool.or_eq_false_iff, bne_eq_false_iff_eq] at hsame
  rw [← hsame.1]
  exact ⟨okOr_eq_ok.1 hbody, (hsame.1 ▸ ok.inj h).symm⟩

/-- The bindings that are not fresh extend a proof. -/
theorem freshBindings_eq_ok
    (h : V.freshBindings prepared process prefixes origin bindings = .ok fresh) :
    ∀ b ∈ bindings, b ∈ fresh ∨ V.verifyExtension prepared process b prefixes
      origin = .ok true := by
  induction bindings generalizing fresh with
  | nil => simp
  | cons binding bindings ih =>
    obtain ⟨extended, hextended, h⟩ := bind_eq_ok.1 h
    obtain ⟨rest, hrest, h⟩ := bind_eq_ok.1 h
    obtain rfl := ok.inj h
    cases extended with
    | true => exact forall_mem_cons.2 ⟨.inr hextended, ih hrest⟩
    | false =>
      refine forall_mem_cons.2 ⟨.inl mem_cons_self, fun b hb => ?_⟩
      exact (ih hrest b hb).imp_left (mem_cons_of_mem _)

/-- What a selection returns. -/
theorem selectExtending_eq_ok (hepoch : prepared.head.epoch = V.epoch)
    (h : V.selectExtending prepared process prefixes = .ok proofs) :
    V.store V.session V.epoch prepared.head.digest = some prepared.body ∧
      (∃ origin fresh, origin.Loaded V.store ∧
        V.freshBindings prepared process prefixes origin (selectedBindings prepared) = .ok fresh ∧
        V.verifyCohort origin fresh = .ok ()) ∧
      ∀ proof ∈ proofs, proof.session = V.session ∧ proof.head = prepared.head ∧
        proof.binding ∈ selectedBindings prepared ∧
        ∀ live, proof.live = some live → live.limits = V.limits := by
  obtain ⟨-, h⟩ := reject_bind_eq_ok.1 h
  obtain ⟨-, h⟩ := reject_bind_eq_ok.1 h
  obtain ⟨-, h⟩ := reject_bind_eq_ok.1 h
  obtain ⟨origin, horigin, h⟩ := bind_eq_ok.1 h
  obtain ⟨hstored, rfl⟩ := loadOrigin_eq_ok horigin
  obtain ⟨bindings, hselection, h⟩ := bind_eq_ok.1 h
  obtain ⟨fresh, hfresh, hselection⟩ := bind_eq_ok.1 hselection
  obtain ⟨_, hcohort, hselection⟩ := bind_eq_ok.1 hselection
  obtain rfl := ok.inj hselection
  refine ⟨hstored, ⟨_, fresh, ?_, hfresh, hcohort⟩, fun proof hproof => ?_⟩
  · unfold OriginBundle.Loaded
    rw [hepoch]
    exact hstored
  · obtain ⟨binding, hbinding, h⟩ := (mapM_eq_ok.1 h).exists_left hproof
    obtain ⟨pin, -, h⟩ := bind_eq_ok.1 h
    obtain ⟨-, h⟩ := reject_bind_eq_ok.1 h
    obtain rfl := ok.inj h
    refine ⟨rfl, rfl, hbinding, fun live hlive => ?_⟩
    obtain ⟨node, -, rfl⟩ := Option.map_eq_some_iff.1 hlive
    rfl

/-- A selected proof remembers the chain of its binding. -/
theorem Selected.sound (h : V.Selected proof) : V.Sound proof := by
  induction h with
  | @select limits prepared process prefixes proofs proof frames loaded staged bindings front back
      hstaged _ hselects hproof ih =>
    intro live hlive
    obtain ⟨hstored, ⟨origin, fresh, hloaded, hfresh, hcohort⟩, hproofs⟩ :=
      selectExtending_eq_ok rfl hselects
    obtain ⟨hsession, hhead, hbinding, hlimits⟩ := hproofs proof hproof
    rw [hsession, hhead, hlimits live hlive]
    obtain ⟨older, newest, frame, hnewest⟩ := hstaged.exists_newest hbinding
    have haccepts : (V.lane prepared limits).Accepts proof.binding := by
      rcases freshBindings_eq_ok hfresh proof.binding hbinding with hmem | hextended
      · exact accepts_of_verifyCohort hloaded hcohort proof.binding hmem
      · obtain ⟨_, frames, chain, -, -, hverified⟩ := verified_of_verifyExtension hloaded
          (fun q hq hextends => hextends.remembers (ih q hq)) hextended
        exact ⟨frames, chain, hverified⟩
    exact haccepts.remembers hstored hnewest

end VerifyScope

open VerifyScope

/-- The verifiers agree. A binding that extends a selected proof and is accepted for its new
captures is accepted by the complete verifier, with the same end of the chain. A cohort of a size
that is taken is accepted exactly when each of its bindings is. -/
theorem bundle_verifiers_agree (V : VerifyScope) {own : Option OriginBundle}
    (hown : ∀ o, own = some o → o.Loaded V.store) {origin : OriginBundle}
    (hloaded : origin.Loaded V.store) :
    (∀ prepared process binding prefixes, (∀ q ∈ prefixes, V.Selected q) →
      V.verifyExtension prepared process binding prefixes origin = .ok true →
      V.verifyBinding own binding = .ok () ∧
        ∃ previous start chain,
          prefixes.find? (V.extendsProof prepared process binding) = some previous ∧
          V.followFresh origin prepared binding (.selected previous.binding)
            (binding.locators.drop previous.binding.locators.length) = .ok chain ∧
          BindingChain.new binding = .ok start ∧
          V.followFrames own binding start binding.locators = .ok chain) ∧
    ∀ bindings, Takes bindings →
      (V.verifyCohort origin bindings = .ok () ↔
        ∀ b ∈ bindings, V.verifyBinding own b = .ok ()) := by
  refine ⟨fun prepared process binding prefixes hselected h => ?_, fun bindings htakes => ?_⟩
  · obtain ⟨previous, frames, chain, hfound, hfresh, hverified⟩ :=
      verified_of_verifyExtension hloaded
      (fun q hq hextends => hextends.remembers (hselected q hq).sound) h
    obtain ⟨start, hstart, hfollow⟩ := bind_eq_ok.1 hverified.follows
    refine ⟨(verifyBinding_eq_ok hown).2 ⟨frames, chain, hverified⟩, previous, start, chain, hfound,
      hfresh, hstart, ?_⟩
    exact (followFrames_eq_ok hown).2 ⟨frames, hverified.reads, hfollow⟩
  · rw [verifyCohort_eq_ok hloaded htakes]
    simp only [verifyBinding_eq_ok hown]

/-! ## Two selections of one Cell -/

/-- The segment after that of the sample frame. -/
def sampleNext : SegmentInput :=
  sampleSegment { sampleHeader with
      minTxid := 2
      maxTxid := 2
      preApplyChecksum := samplePrimitives.checksumPage 1 (samplePage 0) }
    (samplePage 1) (samplePrimitives.checksumPage 1 (samplePage 1))

/-- The captures of the sample are numbered by their commits. -/
def sampleCaptureScope (n : Nat) : NodeFrameScope :=
  ⟨.fill 16 1, 1, n, .fill 16 2, .fill 32 3, .fill 16 4, 1, n⟩

def sampleCaptureFrame (n : Nat) (segment : SegmentInput) (h : n ≤ i64Max) : VerifiedNodeFrame where
  scope := sampleCaptureScope n
  firstCommitSequence := n
  segment := segment.info
  body := segment.bytes
  encoded := frameHeader (sampleCaptureScope n) n segment.info segment.bytes.length ++ segment.bytes
  range := le_rfl
  bound := h

def sampleSnapshot : VerifiedNodeFrame := sampleCaptureFrame 1 sampleBody (by decide)

def sampleChange : VerifiedNodeFrame := sampleCaptureFrame 2 sampleNext (by decide)

/-- The assignment of a capture of one frame. -/
def sampleAssignment (f : VerifiedNodeFrame) : AssignedCommitRange where
  gateInstance := 1
  ticket := ⟨.fill 16 1, 1, f.scope.nodeSequence, f.scope.nodeSequence⟩
  scope := GateState.cellScope f.scope
  firstCommit := f.firstCommitSequence
  commit := f.scope.commitSequence
  position := f.segment.position
  digest := samplePrimitives.blake3 (f.digest samplePrimitives.blake3).asBytes
  captureDigest := .fill 32 0

/-- The binding of the sample Cell before its first capture. -/
def sampleOpened : Binding where
  application := .fill 16 2
  firstCommit := 0
  control := ⟨.fill 32 3, .fill 16 4, 1, 1, 1, .serving, none, some ⟨.fill 32 9, 0, 0, 0⟩, none,
    some ⟨.fill 16 1, 1, .fill 32 8⟩, .fill 32 6, 1, none⟩
  phase := .opened
  terminal := none
  selectedSequence := 0
  selectedCommit := 0
  selectedPosition := ⟨0, 0⟩
  locators := []

/-- The binding with one more capture. -/
def samplePut (b : Binding) (object : Option Digest) (offset : UInt64) (f : VerifiedNodeFrame) :
    Binding :=
  { b with
    firstCommit := f.firstCommitSequence
    selectedCommit := f.scope.commitSequence
    selectedPosition := f.segment.position
    selectedSequence := f.scope.nodeSequence
    locators := b.locators ++
      [⟨object, offset, UInt64.ofNat f.encoded.length, f.digest samplePrimitives.blake3⟩] }

/-- The bundle with the capture `n`. -/
def sampleObject (n : Nat) : Digest := .fill 32 (UInt8.ofNat (10 + n))

/-- The binding when captures are selected, the first of them in the bundle `n`. -/
def sampleSelected (b : Binding) (n : Nat) : List VerifiedNodeFrame → Binding
  | [] => b
  | f :: fs => sampleSelected (samplePut b (some (sampleObject n)) 1 f) (n + 1) fs

/-- The catalog of one binding. -/
def sampleCatalog (b : Binding) : Catalog := ⟨.fill 16 1, 1, none, b.selectedSequence, [b]⟩

/-- The proposal with one more capture. -/
def sampleProposal (b : Binding) (f : VerifiedNodeFrame) : Proposal where
  original := some ⟨1, sampleObject b.selectedSequence, b.selectedSequence⟩
  catalog := { sampleCatalog (samplePut b none 1 f) with
    predecessor := some (sampleObject b.selectedSequence) }
  body := 0 :: f.encoded
  head := ⟨1, sampleObject f.scope.nodeSequence, f.scope.nodeSequence⟩
  assignments := [sampleAssignment f]

def sampleVerifyScope : VerifyScope where
  session := .fill 16 1
  epoch := 1
  store session epoch digest :=
    if session ≠ .fill 16 1 ∨ epoch ≠ 1 then none
    else if digest = sampleObject 1 then some (0 :: sampleSnapshot.encoded)
    else if digest = sampleObject 2 then some (0 :: sampleChange.encoded)
    else none
  graph := ⟨Unit, fun _ => .ok (), fun _ => true, fun _ _ => .ok ()⟩
  primitives := samplePrimitives
  bodyDigest body := .ok (sampleObject (if body = 0 :: sampleSnapshot.encoded then 1 else 2))
  limits := sampleLimits

def sampleProcess : Process := ⟨some (.fill 16 7), 1, true, 1, []⟩

/-- The proof that the first selection makes. -/
def sampleCoverage : BundleCoverageProof where
  pin := ⟨.fill 16 1, 1, .fill 32 8⟩
  binding := sampleSelected sampleOpened 1 [sampleSnapshot]
  head := ⟨1, sampleObject 1, 1⟩
  session := .fill 16 1
  live := some ⟨.fill 16 7, 1, sampleLimits, 1, [], [sampleAssignment sampleSnapshot]⟩

theorem sampleProposal_staged : (sampleProposal sampleOpened sampleSnapshot).Staged samplePrimitives
    [sampleSnapshot] (sampleCatalog sampleOpened) (sampleCatalog (samplePut sampleOpened none 0
      sampleSnapshot)) [samplePut sampleOpened none 1 sampleSnapshot] [0] [] where
  resolved := by decide
  built f hf := by
    obtain rfl := mem_singleton.1 hf
    have hencode : samplePrimitives.encodeNodeFrameRange sampleSnapshot.scope 1
      sampleSnapshot.segment
        sampleSnapshot.body sampleLimits = .ok sampleSnapshot := by decide +kernel
    exact ⟨sampleLimits, .encoded hencode⟩
  typed f hf := by
    obtain rfl := mem_singleton.1 hf
    constructor <;> constructor <;> decide +kernel
  stage := by decide +kernel
  assigned := by decide +kernel
  catalog := by decide +kernel
  body := by decide +kernel
  bounded := by decide +kernel
  epoch := rfl
  through := by decide +kernel

theorem sampleCoverage_selected : sampleVerifyScope.Selected sampleCoverage := by
  have hselects : (sampleVerifyScope.lane (sampleProposal sampleOpened sampleSnapshot)
      sampleLimits).selectExtending (sampleProposal sampleOpened sampleSnapshot) sampleProcess []
      = .ok [sampleCoverage] := by decide +kernel
  exact .select sampleProposal_staged (fun _ hq => absurd hq not_mem_nil) hselects mem_cons_self

/-- The second capture of the sample is selected after the first. -/
theorem bundle_verifiers_agree_sample :
    let binding := sampleSelected sampleOpened 1 [sampleSnapshot, sampleChange]
    let prepared := sampleProposal (sampleSelected sampleOpened 1 [sampleSnapshot]) sampleChange
    let origin : OriginBundle := ⟨.fill 16 1, prepared.head, prepared.body⟩
    sampleVerifyScope.verifyExtension prepared sampleProcess binding [sampleCoverage] origin
      = .ok true ∧
      sampleVerifyScope.verifyBinding none binding = .ok () ∧
      sampleVerifyScope.verifyCohort origin [binding] = .ok () := by
  intro binding prepared origin
  have hloaded : origin.Loaded sampleVerifyScope.store := by decide +kernel
  have hextension : sampleVerifyScope.verifyExtension prepared sampleProcess binding
    [sampleCoverage]
      origin = .ok true := by decide +kernel
  have hnone : ∀ o : OriginBundle, none = some o → o.Loaded sampleVerifyScope.store :=
    nofun
  have hagree := bundle_verifiers_agree sampleVerifyScope hnone hloaded
  have hbinding : sampleVerifyScope.verifyBinding none binding = .ok () := by
    refine (hagree.1 prepared sampleProcess binding [sampleCoverage] ?_ hextension).1
    intro q hq
    obtain rfl := mem_singleton.1 hq
    exact sampleCoverage_selected
  have htakes : Takes [binding] := ⟨by decide, fun b hb => by
    obtain rfl := mem_singleton.1 hb
    decide +kernel⟩
  refine ⟨hextension, hbinding, (hagree.2 [binding] htakes).2 fun b hb => ?_⟩
  obtain rfl := mem_singleton.1 hb
  exact hbinding

/-- A cohort of more bindings than one bundle has frames is refused, although each of them is
accepted. -/
theorem large_cohort_refused : ∃ bindings : List Binding, ∃ origin : OriginBundle,
    origin.Loaded sampleVerifyScope.store ∧ bindings ≠ [] ∧
      (∀ b ∈ bindings, sampleVerifyScope.verifyBinding none b = .ok ()) ∧
      sampleVerifyScope.verifyCohort origin bindings
        = .error (.capacity "bundle cohort verification metadata") := by
  refine ⟨List.replicate 65 sampleOpened, ⟨.fill 16 1, ⟨1, sampleObject 1, 1⟩,
    0 :: sampleSnapshot.encoded⟩, by decide +kernel, by decide, fun b hb => ?_, by decide +kernel⟩
  rw [eq_of_mem_replicate hb]
  decide +kernel

end Cellule
