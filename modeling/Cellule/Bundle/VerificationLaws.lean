import Cellule.Bundle.Staging
import Cellule.Bundle.Verification
import Cellule.Ltx.NodeFrameLaws

/-!
# Three verifiers that agree

Each verifier comes down to the frames that the locators of a binding point at (`VerifyScope.Reads`)
and to the chain that they make. A verifier that starts at an earlier proof goes on where that proof
ended; that this is what the proof remembers is a law of proofs of staged captures
(`Selected.sound`). A verifier of many bindings reads windows, which have the bytes of each of their
extents.
-/

namespace Cellule

open Except List Option

/-! ## Reading -/

/-- The bundle is in the store. -/
def OriginBundle.Loaded (o : OriginBundle) (store : LaneStore) : Prop :=
  store o.session o.head.epoch o.head.digest = some o.body

instance (o : OriginBundle) (store : LaneStore) : Decidable (o.Loaded store) :=
  inferInstanceAs (Decidable (_ = _))

theorem sliceBody_eq_ok (h : start ≤ stop) :
    sliceBody body start stop = .ok bytes ↔
      stop ≤ body.length ∧ bytes = (body.drop start).take (stop - start) := by
  unfold sliceBody
  rw [reject_bind_eq_ok, Bool.or_eq_false_iff, decide_eq_false_iff_not, decide_eq_false_iff_not,
    not_lt, not_lt]
  exact ⟨fun ⟨⟨_, hstop⟩, hbytes⟩ => ⟨hstop, (ok.inj hbytes).symm⟩,
    fun ⟨hstop, hbytes⟩ => ⟨⟨h, hstop⟩, by rw [hbytes]; rfl⟩⟩

section
variable {store : LaneStore} {session : SessionId} {epoch : Nat} {object : Digest}
  {start stop : Nat} {bytes : Bytes}

/-- A range that is read completely lies in the object. -/
theorem LaneStore.rangeGet_eq_ok (h : start < stop) :
    store.rangeGet session epoch object start stop = .ok bytes ∧ bytes.length = stop - start ↔
      ∃ body, store session epoch object = some body ∧ stop ≤ body.length ∧
        bytes = (body.drop start).take (stop - start) := by
  unfold LaneStore.rangeGet
  cases hbody : store session epoch object with
  | none => simp
  | some body =>
    have hlength : ((body.drop start).take (stop - start)).length
        = min (stop - start) (body.length - start) := by rw [length_take, length_drop]
    simp only [some.injEq, exists_eq_left']
    split
    · next hout =>
      refine ⟨fun h => (nomatch h.1), fun ⟨hstop, _⟩ => ?_⟩
      omega
    · refine ⟨fun ⟨hok, hfull⟩ => ?_, fun ⟨hstop, hbytes⟩ => ?_⟩
      · obtain rfl := ok.inj hok
        rw [hlength] at hfull
        exact ⟨by omega, rfl⟩
      · rw [hbytes]
        exact ⟨rfl, by rw [hlength]; omega⟩

/-- A range reads the same from the fresh bundle as from the store. -/
theorem readRange_eq_ok (hloaded : ∀ o, origin = some o → o.Loaded store) (h : start < stop) :
    readRange store session epoch object start stop origin = .ok bytes ∧
        bytes.length = stop - start ↔
      ∃ body, store session epoch object = some body ∧ stop ≤ body.length ∧
        bytes = (body.drop start).take (stop - start) := by
  unfold readRange
  cases origin with
  | none => exact LaneStore.rangeGet_eq_ok h
  | some o =>
    dsimp only
    unfold OriginBundle.range
    split_ifs with hother
    · exact LaneStore.rangeGet_eq_ok h
    simp only [not_or, not_not] at hother
    obtain ⟨rfl, rfl, rfl⟩ := hother
    have hbody := hloaded o rfl
    unfold OriginBundle.Loaded at hbody
    simp only [hbody, some.injEq, exists_eq_left', ← sliceBody_eq_ok h.le]
    cases hslice : sliceBody o.body start stop with
    | error e => exact ⟨fun hread => (nomatch hread.1), nofun⟩
    | ok found =>
      refine ⟨fun hread => hread.1, fun hread => ⟨hread, ?_⟩⟩
      obtain rfl := ok.inj hread
      obtain ⟨hstop, rfl⟩ := (sliceBody_eq_ok h.le).1 hslice
      rw [length_take, length_drop]
      omega

end

namespace VerifyScope

variable {V : VerifyScope} {binding : Binding} {locator : Locator} {frame : VerifiedNodeFrame}

theorem extent_eq_ok :
    extent locator = .ok (object, stop) ↔ locator.object = some object ∧
      locator.offset.toNat + locator.bytes.toNat ≤ u64Max ∧
      stop = locator.offset.toNat + locator.bytes.toNat := by
  unfold extent checkedAdd
  cases locator.object with
  | none => simp
  | some found =>
    by_cases h : locator.offset.toNat + locator.bytes.toNat ≤ u64Max
    · simp [h, eq_comm]
    · simp [h]

/-- A checked frame has the length of its locator, and is not empty. -/
theorem checkedFrame_length (h : V.checkedFrame binding locator bytes = .ok frame) :
    bytes.length = locator.bytes.toNat ∧ 0 < bytes.length := by
  obtain ⟨hmatch, h⟩ := reject_bind_eq_ok.1 h
  obtain ⟨frame', hframe, -⟩ := bind_eq_ok.1 h
  rw [Bool.or_eq_false_iff, bne_eq_false_iff_eq] at hmatch
  refine ⟨hmatch.1, ?_⟩
  obtain ⟨hheader, -⟩ := reject_bind_eq_ok.1 (mapError_eq_ok.1 hframe)
  rw [Bool.or_eq_false_iff, decide_eq_false_iff_not] at hheader
  have hbytes : frameHeaderBytes = 240 := rfl
  omega

/-- The locator points at a frame of the Cell of the binding. -/
def Reads (V : VerifyScope) (binding : Binding) (locator : Locator) (frame : VerifiedNodeFrame) :
    Prop :=
  ∃ object body, extent locator = .ok (object, locator.offset.toNat + locator.bytes.toNat) ∧
    V.store V.session V.epoch object = some body ∧
    locator.offset.toNat + locator.bytes.toNat ≤ body.length ∧
    V.checkedFrame binding locator ((body.drop locator.offset.toNat).take locator.bytes.toNat)
      = .ok frame

theorem Reads.unique (h : V.Reads binding locator frame)
    (h' : V.Reads binding locator frame') : frame = frame' := by
  obtain ⟨object, body, hextent, hbody, -, hframe⟩ := h
  obtain ⟨object', body', hextent', hbody', -, hframe'⟩ := h'
  obtain ⟨rfl, -⟩ := Prod.mk.inj (ok.inj (hextent.symm.trans hextent'))
  obtain rfl := some.inj (hbody.symm.trans hbody')
  exact ok.inj (hframe.symm.trans hframe')

variable {binding' : Binding} {origin : Option OriginBundle}

/-- A frame is checked against the application and the control record only. -/
theorem Reads.congr (happlication : binding'.application = binding.application)
    (hcontrol : binding'.control = binding.control) (h : V.Reads binding locator frame) :
    V.Reads binding' locator frame := by
  obtain ⟨object, body, hextent, hbody, hstop, hframe⟩ := h
  refine ⟨object, body, hextent, hbody, hstop, ?_⟩
  unfold checkedFrame at hframe ⊢
  rw [happlication, hcontrol]
  exact hframe

theorem readFrame_eq_ok (hloaded : ∀ o, origin = some o → o.Loaded V.store) :
    V.readFrame origin binding locator = .ok frame ↔ V.Reads binding locator frame := by
  unfold readFrame
  rw [bind_eq_ok]
  constructor
  · rintro ⟨⟨object, stop⟩, hextent, h⟩
    obtain ⟨hobject, hbound, rfl⟩ := extent_eq_ok.1 hextent
    obtain ⟨bytes, hbytes, hframe⟩ := bind_eq_ok.1 h
    obtain ⟨hlength, hpos⟩ := checkedFrame_length hframe
    obtain ⟨body, hbody, hstop, rfl⟩ := (readRange_eq_ok hloaded (by omega)).1
      ⟨hbytes, by rw [hlength, Nat.add_sub_cancel_left]⟩
    rw [Nat.add_sub_cancel_left] at hframe
    exact ⟨object, body, hextent, hbody, hstop, hframe⟩
  · rintro ⟨object, body, hextent, hbody, hstop, hframe⟩
    obtain ⟨hlength, hpos⟩ := checkedFrame_length hframe
    refine ⟨_, hextent, bind_eq_ok.2 ⟨_, ?_, hframe⟩⟩
    refine ((readRange_eq_ok hloaded (by omega)).2 ⟨body, hbody, hstop, ?_⟩).1
    rw [Nat.add_sub_cancel_left]

/-! ## Following frames -/

/-- The chain over frames. -/
def follow (chain : BindingChain) (frames : List VerifiedNodeFrame) : Result BindingChain :=
  frames.foldlM (fun chain frame => chain.accept (.fromFrame frame)) chain

theorem follow_append (chain : BindingChain) (frames more : List VerifiedNodeFrame) :
    follow chain (frames ++ more) = follow chain frames >>= fun chain => follow chain more :=
  foldlM_append ..

theorem followFrames_eq_ok (hloaded : ∀ o, origin = some o → o.Loaded V.store) :
    V.followFrames origin binding chain locators = .ok chain' ↔
      ∃ frames, List.Forall₂ (V.Reads binding) locators frames ∧
        follow chain frames = .ok chain' := by
  induction locators generalizing chain with
  | nil =>
    constructor
    · intro h
      exact ⟨[], .nil, h⟩
    · rintro ⟨frames, hframes, h⟩
      cases hframes
      exact h
  | cons locator locators ih =>
    unfold followFrames
    rw [bind_eq_ok]
    constructor
    · rintro ⟨frame, hframe, h⟩
      obtain ⟨next, hnext, h⟩ := bind_eq_ok.1 h
      obtain ⟨frames, hframes, hfollow⟩ := ih.1 h
      exact ⟨frame :: frames, .cons ((readFrame_eq_ok hloaded).1 hframe) hframes,
        bind_eq_ok.2 ⟨next, hnext, hfollow⟩⟩
    · rintro ⟨_, hframes, h⟩
      cases hframes with
      | @cons _ frame _ frames hframe hframes =>
        obtain ⟨next, hnext, h⟩ := bind_eq_ok.1 h
        exact ⟨frame, (readFrame_eq_ok hloaded).2 hframe,
          bind_eq_ok.2 ⟨next, hnext, ih.2 ⟨frames, hframes, h⟩⟩⟩

/-- What it means for a binding to be verified. -/
structure Verified (V : VerifyScope) (binding : Binding) (frames : List VerifiedNodeFrame)
    (chain : BindingChain) : Prop where
  base : V.verifyBase binding = .ok ()
  reads : List.Forall₂ (V.Reads binding) binding.locators frames
  follows : (BindingChain.new binding >>= fun start => follow start frames) = .ok chain
  ends : chain.finish binding = .ok ()

/-- The binding is verified on its own. -/
def Accepts (V : VerifyScope) (binding : Binding) : Prop :=
  ∃ frames chain, V.Verified binding frames chain

theorem verifyBinding_eq_ok (hloaded : ∀ o, origin = some o → o.Loaded V.store) :
    V.verifyBinding origin binding = .ok () ↔ V.Accepts binding := by
  unfold verifyBinding
  rw [bind_eq_ok]
  constructor
  · rintro ⟨_, hbase, h⟩
    obtain ⟨start, hstart, h⟩ := bind_eq_ok.1 h
    obtain ⟨chain, hchain, hfinish⟩ := bind_eq_ok.1 h
    obtain ⟨frames, hframes, hfollow⟩ := (followFrames_eq_ok hloaded).1 hchain
    exact ⟨frames, chain, hbase, hframes, bind_eq_ok.2 ⟨start, hstart, hfollow⟩, hfinish⟩
  · rintro ⟨frames, chain, hbase, hframes, hchain, hfinish⟩
    obtain ⟨start, hstart, hfollow⟩ := bind_eq_ok.1 hchain
    refine ⟨(), hbase, bind_eq_ok.2 ⟨start, hstart, bind_eq_ok.2 ⟨chain, ?_, hfinish⟩⟩⟩
    exact (followFrames_eq_ok hloaded).2 ⟨frames, hframes, hfollow⟩

/-! ## Extensions -/

/-- The chain of a binding ends with what the binding remembers of it. -/
def Remembers (V : VerifyScope) (binding : Binding) : Prop :=
  ∃ frames, V.Verified binding frames (.selected binding)

/-- Frames that are read from the fresh bundle are frames that the locators point at. -/
theorem followFresh_eq_ok {origin : OriginBundle} (hloaded : origin.Loaded V.store)
    (hobject : ∀ l ∈ locators, l.object = some prepared.head.digest)
    (h : V.followFresh origin prepared binding chain locators = .ok chain') :
    ∃ frames, List.Forall₂ (V.Reads binding) locators frames ∧
      follow chain frames = .ok chain' := by
  induction locators generalizing chain with
  | nil => exact ⟨[], .nil, h⟩
  | cons locator locators ih =>
    obtain ⟨hfirst, hrest⟩ := forall_mem_cons.1 hobject
    unfold followFresh at h
    obtain ⟨stop, hstop, h⟩ := bind_eq_ok.1 h
    obtain ⟨found, hfound, h⟩ := bind_eq_ok.1 h
    obtain ⟨bytes, hbytes, h⟩ := bind_eq_ok.1 h
    obtain ⟨frame, hframe, h⟩ := bind_eq_ok.1 h
    obtain ⟨next, hnext, h⟩ := bind_eq_ok.1 h
    obtain ⟨frames, hframes, hfollow⟩ := ih hrest h
    refine ⟨frame :: frames, .cons ?_ hframes, bind_eq_ok.2 ⟨next, hnext, hfollow⟩⟩
    obtain ⟨hbound, rfl⟩ := checkedAdd_eq_some.1 (okOr_eq_ok.1 hstop)
    obtain rfl := okOr_eq_ok.1 hbytes
    unfold OriginBundle.range at hfound
    split at hfound
    · cases hfound
    next hsame =>
    simp only [not_or, not_not] at hsame
    obtain ⟨hsession, hepoch, hdigest⟩ := hsame
    obtain ⟨slice, hslice, hfound⟩ := bind_eq_ok.1 hfound
    obtain rfl := some.inj (ok.inj hfound)
    obtain ⟨hstop, rfl⟩ := (sliceBody_eq_ok (Nat.le_add_right _ _)).1 hslice
    rw [Nat.add_sub_cancel_left] at hframe
    refine ⟨prepared.head.digest, origin.body, extent_eq_ok.2 ⟨hfirst, hbound, rfl⟩, ?_, hstop,
      hframe⟩
    rw [hsession, hepoch, hdigest]
    exact hloaded

/-- What `extendsProof` compares. -/
structure Extends (V : VerifyScope) (binding : Binding) (previous : BundleCoverageProof) :
    Prop where
  session : previous.session = V.session
  epoch : previous.head.epoch = V.epoch
  control : previous.binding.control = binding.control
  application : previous.binding.application = binding.application
  starts : previous.binding.locators <+: binding.locators
  longer : previous.binding.locators.length < binding.locators.length
  live : ∃ live, previous.live = some live ∧ live.limits = V.limits

theorem extends_of_extendsProof (h : V.extendsProof prepared process binding previous = true) :
    V.Extends binding previous := by
  unfold extendsProof at h
  simp only [Bool.and_eq_true, beq_iff_eq, decide_eq_true_eq, isPrefixOf_iff_prefix] at h
  obtain ⟨⟨⟨⟨⟨⟨⟨⟨⟨hsession, hepoch⟩, hcontrol⟩, happlication⟩, -⟩, -⟩, hlonger⟩, hstarts⟩, -⟩,
    hlive⟩ := h
  refine ⟨hsession, hepoch, hcontrol, happlication, hstarts, hlonger, ?_⟩
  cases hsome : previous.live with
  | none =>
    rw [hsome] at hlive
    cases hlive
  | some live =>
    rw [hsome, any_some] at hlive
    unfold matchesOrigin at hlive
    simp only [Bool.and_eq_true, beq_iff_eq] at hlive
    exact ⟨live, rfl, hlive.1.1.2⟩

/-- The base of a binding is that of its control record. -/
theorem verifyBase_congr (hcontrol : binding'.control = binding.control) :
    V.verifyBase binding' = V.verifyBase binding := by
  unfold verifyBase baseOf
  rw [hcontrol]

theorem new_congr (hcontrol : binding'.control = binding.control) :
    BindingChain.new binding' = BindingChain.new binding := by
  unfold BindingChain.new baseOf
  rw [hcontrol]

/-- A binding whose new captures were verified after a proof is verified completely, and both chains
end alike. -/
theorem verified_of_verifyExtension {origin : OriginBundle} (hloaded : origin.Loaded V.store)
    (hprefixes : ∀ q ∈ prefixes, V.Extends binding q → V.Remembers q.binding)
    (h : V.verifyExtension prepared process binding prefixes origin = .ok true) :
    ∃ previous frames chain,
      prefixes.find? (V.extendsProof prepared process binding) = some previous ∧
      V.followFresh origin prepared binding (.selected previous.binding)
        (binding.locators.drop previous.binding.locators.length) = .ok chain ∧
      V.Verified binding frames chain := by
  unfold verifyExtension at h
  split at h
  · cases h
  next previous hfound =>
  have hextends := extends_of_extendsProof (find?_some hfound)
  obtain ⟨frames, hverified⟩ :=
    hprefixes previous (mem_of_find?_eq_some hfound) hextends
  dsimp only at h
  split at h
  · cases h
  next hobject =>
  obtain ⟨chain, hchain, h⟩ := bind_eq_ok.1 h
  obtain ⟨_, hfinish, -⟩ := bind_eq_ok.1 h
  obtain ⟨more, hmore⟩ := hextends.starts
  have hdrop : binding.locators.drop previous.binding.locators.length = more := by
    rw [← hmore, drop_left]
  have hfrom : ∀ l ∈ binding.locators.drop previous.binding.locators.length,
      l.object = some prepared.head.digest := by
    intro l hl
    by_contra hother
    exact hobject (any_eq_true.2 ⟨l, hl, bne_iff_ne.2 hother⟩)
  obtain ⟨fresh, hfresh, hfollow⟩ := followFresh_eq_ok hloaded hfrom hchain
  rw [hdrop] at hfresh
  refine ⟨previous, frames ++ fresh, chain, hfound, hchain, ?_, ?_, ?_, hfinish⟩
  · rw [← verifyBase_congr hextends.control]
    exact hverified.base
  · rw [← hmore]
    refine rel_append (hverified.reads.imp fun _ _ hread => ?_) hfresh
    exact hread.congr hextends.application.symm hextends.control.symm
  · obtain ⟨start, hstart, hprevious⟩ := bind_eq_ok.1 hverified.follows
    rw [new_congr hextends.control] at hstart
    refine bind_eq_ok.2 ⟨start, hstart, ?_⟩
    rw [follow_append, hprevious]
    exact hfollow

end VerifyScope

end Cellule
