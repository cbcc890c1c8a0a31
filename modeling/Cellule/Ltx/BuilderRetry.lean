import Cellule.Ltx.BundleParity
import Cellule.Ltx.NodeFrameLaws
import Cellule.Lib.Stateful

/-!
# A failed push of a file-backed bundle builder

`BundleBuilder` (`cellule-ltx/src/bundle.rs`) with what only a failed push leaves behind: the
identities it has reserved, and that a write to its file has failed. `push` reserves the identity of
an entry before it looks at the room that is left, and gives up after a failed write, so a failed
push can be observed (`push_unobserved_iff`). `Shadows` relates a builder with one more identity to
the builder without it, `Shadows.push` is its step lemma.
-/

namespace Cellule

open Except Stateful List

/-- The key under which an entry may stand in a bundle once. -/
def BundleEntry.identity (entry : BundleEntry) : String × String × Nat × Nat :=
  (entry.repository, entry.epoch, entry.info.minTxid, entry.info.maxTxid)

/-- A builder between two calls. -/
structure OpenBuilder extends BundleBuilder where
  identities : List (String × String × Nat × Nat)
  poisoned : Bool

/-- One push: the entry, and how the write of its body ends. A failed write leaves some bytes. -/
structure Push where
  entry : BundleEntry
  write : Option (LtxError × Nat)

namespace OpenBuilder

variable (B : BundleFormat)

/-- `BundleBuilder::new_temp` (`bundle.rs:118`). -/
def newTemp (limits : Limits) : LtxResult OpenBuilder := do
  let b ← BundleBuilder.newTemp limits
  pure ⟨b, [], false⟩

/-- The identity of an entry is inserted. -/
def reserve (s : OpenBuilder) (entry : BundleEntry) : OpenBuilder :=
  { s with identities := entry.identity :: s.identities }

/-- The body of an entry is in the file and its row in the table. -/
def append (s : OpenBuilder) (entry : BundleEntry) : OpenBuilder :=
  { s with
    file := s.file ++ entry.bytes
    rows := s.rows ++ [⟨entry.repository, entry.epoch, entry.info, s.payloadLen⟩]
    payloadLen := s.payloadLen + entry.info.sizeBytes }

/-- A write has failed after `n` bytes. -/
def poison (s : OpenBuilder) (entry : BundleEntry) (n : Nat) : OpenBuilder :=
  { s with poisoned := true, file := s.file ++ entry.bytes.take n }

/-- `BundleBuilder::push` (`bundle.rs:134`). -/
def push (call : Push) : Stateful LtxError OpenBuilder Unit := do
  let s ← look
  rejectWhen s.poisoned (.invalidState "bundle builder is poisoned")
  rejectWhen (decide (s.rows.length ≥ s.limits.maxSegments)
    || badIdentity call.entry.repository call.entry.epoch) (.limit .bundleEntries)
  lift (B.verifySegment call.entry.bytes call.entry.info s.limits)
  rejectWhen (s.identities.contains call.entry.identity) .ltxCorrupted
  change (reserve · call.entry)
  lift (Except.okOr (checkedAdd s.payloadLen call.entry.info.sizeBytes) (.limit .bundleBytes)) >>=
    fun nextLen => do
      rejectWhen (decide (nextLen > s.limits.maxPlanBytes)) (.limit .bundleBytes)
      match call.write with
      | some (e, n) => do
        change (poison · call.entry n)
        fail e
      | none => change (append · call.entry)

/-- `BundleBuilder::finish` (`bundle.rs:181`). -/
def finish (s : OpenBuilder) : LtxResult Bundle := do
  reject s.poisoned (.invalidState "bundle builder has no valid rows")
  BundleBuilder.finish B s.toBundleBuilder

/-- The builder after these pushes. -/
def pushAll (s : OpenBuilder) (calls : List Push) : OpenBuilder :=
  calls.foldl (fun s call => ((push B call).outcome s).2) s

/-- What a caller sees of pushes and a `finish` after them: which pushes are accepted, and the
bundle. -/
def observe (s : OpenBuilder) : List Push → List Bool × Option Bundle
  | [] => ([], (finish B s).toOption)
  | call :: calls =>
    let after := (push B call).outcome s
    (after.1.isOk :: (observe after.2 calls).1, (observe after.2 calls).2)

/-- The builders that pushes reach. -/
def Reached (s : OpenBuilder) : Prop :=
  ∃ limits start calls, newTemp limits = .ok start ∧ s = pushAll B start calls

/-- An entry that passes the checks of a push up to its identity. -/
structure Passes (s : OpenBuilder) (entry : BundleEntry) : Prop where
  open_ : s.poisoned = false
  count : s.rows.length < s.limits.maxSegments
  named : badIdentity entry.repository entry.epoch = false
  verified : B.verifySegment entry.bytes entry.info s.limits = .ok ()
  fresh : entry.identity ∉ s.identities

/-- Room for a body of this size. -/
def HasRoom (s : OpenBuilder) (size : Nat) : Prop := s.payloadLen + size ≤ s.limits.maxPlanBytes

instance (s : OpenBuilder) (size : Nat) : Decidable (s.HasRoom size) :=
  inferInstanceAs (Decidable (_ ≤ _))

/-! ## What a push does -/

variable {B} {s s' : OpenBuilder} {c : Push}

/-- An entry that does not pass is refused, and nothing changes. -/
theorem push_of_not_passes (h : ¬Passes B s c.entry) :
    ∃ e, (push B c).outcome s = (.error e, s) := by
  unfold push
  rw [outcome_look_bind, outcome_rejectWhen_bind]
  split
  · exact ⟨_, rfl⟩
  next hopen =>
  rw [outcome_rejectWhen_bind]
  split
  · exact ⟨_, rfl⟩
  next hcount =>
  rw [outcome_lift_bind]
  split
  · next hverified =>
    rw [outcome_rejectWhen_bind]
    split
    · exact ⟨_, rfl⟩
    · next hfresh =>
      rw [Bool.or_eq_true, not_or, decide_eq_true_iff, not_le, Bool.not_eq_true] at hcount
      rw [contains_iff_mem] at hfresh
      exact absurd ⟨Bool.eq_false_iff.2 hopen, hcount.1, hcount.2, hverified, hfresh⟩ h
  · exact ⟨_, rfl⟩

section
variable (hplan : s.limits.maxPlanBytes ≤ u64Max)
include hplan

/-- An entry that passes is appended, or its identity is reserved for nothing. -/
theorem push_of_passes (h : Passes B s c.entry) :
    (push B c).outcome s =
      if s.HasRoom c.entry.info.sizeBytes then
        match c.write with
        | none => (.ok (), (s.reserve c.entry).append c.entry)
        | some (e, n) => (.error e, (s.reserve c.entry).poison c.entry n)
      else (.error (.limit .bundleBytes), s.reserve c.entry) := by
  unfold push
  rw [outcome_look_bind, outcome_rejectWhen_bind, if_neg (by simp [h.open_]),
    outcome_rejectWhen_bind, if_neg (by simp [h.count, h.named]), outcome_lift_bind, h.verified]
  dsimp only
  rw [outcome_rejectWhen_bind, if_neg (by simp [h.fresh]), outcome_change_bind, outcome_lift_bind]
  by_cases hroom : s.HasRoom c.entry.info.sizeBytes
  · rw [if_pos hroom, checkedAdd, if_pos (le_trans hroom hplan)]
    dsimp only [Except.okOr]
    rw [outcome_rejectWhen_bind, if_neg (by simpa [HasRoom] using hroom)]
    rcases c.write with _ | ⟨e, n⟩ <;> rfl
  · rw [if_neg hroom]
    by_cases hword : s.payloadLen + c.entry.info.sizeBytes ≤ u64Max
    · rw [checkedAdd, if_pos hword]
      dsimp only [Except.okOr]
      rw [outcome_rejectWhen_bind, if_pos (by simpa [HasRoom] using hroom)]
    · rw [checkedAdd, if_neg hword]
      rfl

/-- The pushes that are accepted. -/
theorem push_accepts :
    ((push B c).outcome s).1.isOk = true ↔
      Passes B s c.entry ∧ s.HasRoom c.entry.info.sizeBytes ∧ c.write = none := by
  by_cases h : Passes B s c.entry
  · rw [push_of_passes hplan h]
    rcases c.write with _ | ⟨e, n⟩ <;> split <;> simp_all [Except.isOk, Except.toBool]
  · obtain ⟨e, he⟩ := push_of_not_passes h
    simp [he, h, Except.isOk, Except.toBool]

/-- A push keeps the limits. -/
theorem push_limits : ((push B c).outcome s).2.limits = s.limits := by
  by_cases h : Passes B s c.entry
  · rw [push_of_passes hplan h]
    split
    · rcases c.write with _ | ⟨e, n⟩ <;> rfl
    · rfl
  · obtain ⟨e, he⟩ := push_of_not_passes h
    rw [he]

end

/-- The limits of a builder that pushes reach are valid. -/
theorem Reached.plan (h : Reached B s) : s.limits.maxPlanBytes ≤ u64Max := by
  obtain ⟨limits, start, calls, hstart, rfl⟩ := h
  have hplan : start.limits.maxPlanBytes ≤ u64Max := by
    obtain ⟨b, hb, hstart⟩ := bind_eq_ok.1 hstart
    cases hstart
    exact (BundleBuilder.wrote_newTemp (B := B) hb).1.plan
  clear hstart
  induction calls generalizing start with
  | nil => exact hplan
  | cons c calls ih => exact ih _ (push_limits hplan ▸ hplan)

/-! ## What a caller sees of a reserved identity -/

/-- A builder and one that has reserved an identity which no entry can use any more. -/
structure Shadows (B : BundleFormat) (id : String × String × Nat × Nat) (s' s : OpenBuilder) :
    Prop where
  builder : s'.toBundleBuilder = s.toBundleBuilder
  poisoned : s'.poisoned = s.poisoned
  identities : ∀ i, i ∈ s'.identities ↔ i ∈ s.identities ∨ i = id
  useless : ∀ other : BundleEntry, other.identity = id →
    B.verifySegment other.bytes other.info s.limits = .ok () → ¬s.HasRoom other.info.sizeBytes
  plan : s.limits.maxPlanBytes ≤ u64Max

variable {id : String × String × Nat × Nat}

/-- What passes the checks of the one, passes those of the other, unless it has the identity. -/
theorem Shadows.passes_iff (h : Shadows B id s' s) (entry : BundleEntry) :
    Passes B s' entry ↔ Passes B s entry ∧ entry.identity ≠ id := by
  obtain ⟨b', ids', p'⟩ := s'
  obtain ⟨b, ids, p⟩ := s
  obtain ⟨rfl, rfl, hids, -⟩ := h
  constructor
  · intro hp
    obtain ⟨hfresh, hne⟩ := not_or.1 fun hid => hp.fresh ((hids _).2 hid)
    exact ⟨⟨hp.open_, hp.count, hp.named, hp.verified, hfresh⟩, hne⟩
  · rintro ⟨hp, hne⟩
    exact ⟨hp.open_, hp.count, hp.named, hp.verified, fun hid => ((hids _).1 hid).elim hp.fresh hne⟩

/-- A push is accepted by both or by none, and leaves them as they were to each other. -/
theorem Shadows.push (h : Shadows B id s' s) (c : Push) :
    ((OpenBuilder.push B c).outcome s').1.isOk = ((OpenBuilder.push B c).outcome s).1.isOk ∧
      Shadows B id ((OpenBuilder.push B c).outcome s').2
        ((OpenBuilder.push B c).outcome s).2 := by
  have hiff := h.passes_iff c.entry
  by_cases hp : Passes B s c.entry
  · by_cases hid : c.entry.identity = id
    · -- only the builder without the identity gets as far as the room, which there is not
      obtain ⟨e, he⟩ := push_of_not_passes fun hp' => (hiff.1 hp').2 hid
      rw [he, push_of_passes h.plan hp, if_neg (h.useless _ hid hp.verified)]
      refine ⟨rfl, h.builder, h.poisoned, fun i => ?_, h.useless, h.plan⟩
      rw [h.identities, reserve, mem_cons, hid]
      tauto
    · have hp' := hiff.2 ⟨hp, hid⟩
      obtain ⟨b', ids', p'⟩ := s'
      obtain ⟨b, ids, p⟩ := s
      obtain ⟨hb, hp₀, hids, huseless, hplan⟩ := h
      dsimp only at hb hp₀
      subst hb hp₀
      have hcons : ∀ i, i ∈ c.entry.identity :: ids' ↔
          i ∈ c.entry.identity :: ids ∨ i = id := by
        intro i
        rw [mem_cons, mem_cons, hids, or_assoc]
      rw [push_of_passes hplan hp, push_of_passes (s := ⟨b', ids', p'⟩) hplan hp']
      have hroom_iff : HasRoom ⟨b', ids', p'⟩ c.entry.info.sizeBytes
          = HasRoom ⟨b', ids, p'⟩ c.entry.info.sizeBytes := rfl
      simp only [hroom_iff]
      split
      · rcases c.write with _ | ⟨e, n⟩
        · refine ⟨rfl, rfl, rfl, hcons, fun other hother hverified hroom => ?_, hplan⟩
          refine huseless other hother hverified ((Nat.add_le_add_right ?_ _).trans hroom)
          exact Nat.le_add_right _ _
        · exact ⟨rfl, rfl, rfl, hcons, huseless, hplan⟩
      · exact ⟨rfl, rfl, rfl, hcons, huseless, hplan⟩
  · obtain ⟨e, he⟩ := push_of_not_passes hp
    obtain ⟨e', he'⟩ := push_of_not_passes fun hp' => hp (hiff.1 hp').1
    rw [he, he']
    exact ⟨rfl, h⟩

/-- Nothing that a caller does later tells the two apart. -/
theorem Shadows.observe (h : Shadows B id s' s) (calls : List Push) :
    OpenBuilder.observe B s' calls = OpenBuilder.observe B s calls := by
  induction calls generalizing s' s with
  | nil => simp only [OpenBuilder.observe, finish, h.builder, h.poisoned]
  | cons c calls ih =>
    obtain ⟨hok, hnext⟩ := h.push c
    simp only [OpenBuilder.observe, hok, ih hnext]

theorem isOk_of_observe (h : observe B s' [c] = observe B s [c]) :
    ((push B c).outcome s').1.isOk = ((push B c).outcome s).1.isOk :=
  (cons.inj (Prod.mk.inj h).1).1

/-- A failed push can be observed later unless the entry did not pass the checks up to its identity,
or there is no room for it or any other segment of its identity. -/
theorem push_unobserved_iff {e : LtxError} (hreached : Reached B s)
    (hfailed : (OpenBuilder.push B c).outcome s = (.error e, s')) :
    (∀ calls, observe B s' calls = observe B s calls) ↔ ¬Passes B s c.entry ∨
      ¬s.HasRoom c.entry.info.sizeBytes ∧ ∀ other : BundleEntry,
        other.identity = c.entry.identity →
        B.verifySegment other.bytes other.info s.limits = .ok () →
        ¬s.HasRoom other.info.sizeBytes := by
  have hplan := hreached.plan
  by_cases hp : Passes B s c.entry
  · rw [push_of_passes hplan hp] at hfailed
    by_cases hroom : s.HasRoom c.entry.info.sizeBytes
    · -- the write failed: the same entry is accepted only where it was not pushed
      rw [if_pos hroom] at hfailed
      refine iff_of_false (fun hsame => ?_) (by simp [hp, hroom])
      have hagain := isOk_of_observe (hsame [⟨c.entry, none⟩])
      rw [(push_accepts (c := ⟨c.entry, none⟩) hplan).2 ⟨hp, hroom, rfl⟩] at hagain
      rcases hwrite : c.write with _ | ⟨e', n⟩
      · rw [hwrite] at hfailed
        cases hfailed
      · rw [hwrite] at hfailed
        obtain rfl := (Prod.mk.inj hfailed).2
        obtain ⟨hp', -⟩ := (push_accepts (s := (s.reserve c.entry).poison c.entry n) hplan).1
          hagain
        cases hp'.open_
    · rw [if_neg hroom] at hfailed
      obtain rfl := (Prod.mk.inj hfailed).2
      refine ⟨fun hsame => .inr ⟨hroom, fun other hid hverified hother => ?_⟩, fun h calls => ?_⟩
      · have hagain := isOk_of_observe (hsame [⟨other, none⟩])
        have hnamed : badIdentity other.repository other.epoch = false := by
          rw [(Prod.mk.inj hid).1, (Prod.mk.inj (Prod.mk.inj hid).2).1]
          exact hp.named
        have hp' : Passes B s other := ⟨hp.open_, hp.count, hnamed, hverified, hid ▸ hp.fresh⟩
        rw [(push_accepts (c := ⟨other, none⟩) hplan).2 ⟨hp', hother, rfl⟩] at hagain
        obtain ⟨hp', -⟩ := (push_accepts (s := s.reserve c.entry) hplan).1 hagain
        exact hp'.fresh (hid ▸ mem_cons_self)
      · obtain ⟨-, huseless⟩ := h.resolve_left (not_not.2 hp)
        have hshadows : Shadows B c.entry.identity (s.reserve c.entry) s := by
          refine ⟨rfl, rfl, fun i => ?_, huseless, hplan⟩
          rw [reserve, mem_cons, or_comm]
        exact hshadows.observe calls
  · obtain ⟨e', he⟩ := push_of_not_passes hp
    obtain rfl := (Prod.mk.inj (he.symm.trans hfailed)).2
    exact iff_of_true (fun _ => rfl) (.inl hp)

/-! ## Two files of one identity -/

/-- A format with the verifier of the codec, on the sample primitives. -/
noncomputable def sampleFormat : BundleFormat where
  hash := samplePrimitives.blake3
  toVec := Codec.print []
  fromSlice bytes := Except.okOr (Codec.read [] bytes) .json
  fromSlice_toVec rows := by rw [Codec.read_print]; rfl
  verifySegmentReader := samplePrimitives.verifySegmentReader

/-- The entry of a segment. -/
def sampleEntry (segment : SegmentInput) : BundleEntry :=
  ⟨"cell", "epoch", segment.info, segment.bytes⟩

/-- A file of 660 bytes. -/
def sampleLarge (header : Header) : SegmentInput :=
  sampleSegment header (samplePage 1) (samplePrimitives.checksumPage 1 (samplePage 1))

/-- A file of 645 bytes: its page repeats 18 bytes. -/
def sampleSmall (header : Header) : SegmentInput :=
  let literals := (samplePage 1).take 489
  let data := literals ++ literals.drop 471 ++ List.replicate 5 7
  sampleFile header (Lz4.Sequence.encode ⟨literals, 18, 18, by decide, by decide, by decide⟩ ++
    Lz4.encodeLast (List.replicate 5 7)) data (samplePrimitives.checksumPage 1 data)

/-- The header of the second transaction. -/
def sampleSecondHeader : Header :=
  { sampleHeader with minTxid := 2, maxTxid := 2, preApplyChecksum := samplePost }

/-- A builder with room for so many bytes, and after a push of the segment. -/
def sampleStart (plan : Nat) : OpenBuilder := ⟨⟨[], [], 0, ⟨512, 660, 660, plan, 4⟩⟩, [], false⟩

def sampleBuilder (plan : Nat) (segment : SegmentInput) : OpenBuilder :=
  ((sampleStart plan).reserve (sampleEntry segment)).append (sampleEntry segment)

/-- A segment that is verified and fits is appended by a push. -/
theorem sampleBuilder_reached {segment : SegmentInput} (hplan : plan ≤ u64Max)
    (hstart : newTemp (sampleStart plan).limits = .ok (sampleStart plan))
    (hpasses : Passes sampleFormat (sampleStart plan) (sampleEntry segment))
    (hroom : (sampleStart plan).HasRoom (sampleEntry segment).info.sizeBytes) :
    Reached sampleFormat (sampleBuilder plan segment) := by
  refine ⟨_, sampleStart plan, [⟨sampleEntry segment, none⟩], hstart, ?_⟩
  show _ = ((push sampleFormat _).outcome (sampleStart plan)).2
  rw [push_of_passes (c := ⟨sampleEntry segment, none⟩) hplan hpasses, if_pos hroom]
  rfl

/-- A push that is refused by a full builder is not observed. -/
theorem push_unobserved_full :
    Reached sampleFormat (sampleBuilder 660 (sampleLarge sampleHeader)) ∧ ∀ calls,
      observe sampleFormat ((push sampleFormat ⟨sampleEntry (sampleSmall sampleSecondHeader),
        none⟩).outcome (sampleBuilder 660 (sampleLarge sampleHeader))).2 calls
      = observe sampleFormat (sampleBuilder 660 (sampleLarge sampleHeader)) calls := by
  have hreached : Reached sampleFormat (sampleBuilder 660 (sampleLarge sampleHeader)) :=
    sampleBuilder_reached (by decide) rfl (by constructor <;> decide +kernel) (by decide +kernel)
  have hpasses : Passes sampleFormat (sampleBuilder 660 (sampleLarge sampleHeader))
      (sampleEntry (sampleSmall sampleSecondHeader)) := by constructor <;> decide +kernel
  have hfull : (sampleBuilder 660 (sampleLarge sampleHeader)).payloadLen = 660 ∧
      (sampleBuilder 660 (sampleLarge sampleHeader)).limits.maxPlanBytes = 660 := by decide +kernel
  have hsize : 0 < (sampleEntry (sampleSmall sampleSecondHeader)).info.sizeBytes := by
    decide +kernel
  generalize sampleBuilder 660 (sampleLarge sampleHeader) = s at *
  generalize sampleEntry (sampleSmall sampleSecondHeader) = small at *
  have hnone : ∀ size, 0 < size → ¬s.HasRoom size := fun size hsize hroom => by
    unfold HasRoom at hroom
    omega
  have hrun := push_of_passes (c := ⟨small, none⟩) hreached.plan hpasses
  rw [if_neg (hnone _ hsize)] at hrun
  rw [hrun]
  refine ⟨hreached, (push_unobserved_iff hreached hrun).2
    (.inr ⟨hnone _ hsize, fun other _ hverified => hnone _ ?_⟩)⟩
  rw [← BundleFormat.verifySegment_ok hverified]
  refine length_pos_iff.2 fun hempty => ?_
  -- a file that is empty has no header to read
  simp only [BundleFormat.verifySegment, reject_bind_eq_ok, hempty] at hverified
  obtain ⟨-, hheader⟩ := reject_bind_eq_ok.1 hverified.2.2
  obtain ⟨d, hd, -⟩ := bind_eq_ok.1 hheader
  rw [take_nil] at hd
  cases hd

/-- A segment is refused as corrupted after one of its identity was refused for its size, though it
would fit and no row has the identity. -/
theorem push_refused_reserves :
    Reached sampleFormat (sampleBuilder 1300 (sampleSmall sampleHeader)) ∧
      ((push sampleFormat ⟨sampleEntry (sampleLarge sampleSecondHeader), none⟩).outcome
        (sampleBuilder 1300 (sampleSmall sampleHeader))).1 = .error (.limit .bundleBytes) ∧
      (observe sampleFormat (sampleBuilder 1300 (sampleSmall sampleHeader))
        [⟨sampleEntry (sampleSmall sampleSecondHeader), none⟩]).1 = [true] ∧
      (observe sampleFormat ((push sampleFormat ⟨sampleEntry (sampleLarge sampleSecondHeader),
        none⟩).outcome (sampleBuilder 1300 (sampleSmall sampleHeader))).2
        [⟨sampleEntry (sampleSmall sampleSecondHeader), none⟩]).1 = [false] := by
  have hreached : Reached sampleFormat (sampleBuilder 1300 (sampleSmall sampleHeader)) :=
    sampleBuilder_reached (by decide) rfl (by constructor <;> decide +kernel) (by decide +kernel)
  have hlarge : Passes sampleFormat (sampleBuilder 1300 (sampleSmall sampleHeader))
      (sampleEntry (sampleLarge sampleSecondHeader)) := by constructor <;> decide +kernel
  have hsmall : Passes sampleFormat (sampleBuilder 1300 (sampleSmall sampleHeader))
      (sampleEntry (sampleSmall sampleSecondHeader)) := by constructor <;> decide +kernel
  have hfull : ¬(sampleBuilder 1300 (sampleSmall sampleHeader)).HasRoom
      (sampleEntry (sampleLarge sampleSecondHeader)).info.sizeBytes := by decide +kernel
  have hroom : (sampleBuilder 1300 (sampleSmall sampleHeader)).HasRoom
      (sampleEntry (sampleSmall sampleSecondHeader)).info.sizeBytes := by decide +kernel
  have hsame : (sampleEntry (sampleSmall sampleSecondHeader)).identity
      = (sampleEntry (sampleLarge sampleSecondHeader)).identity := by decide +kernel
  generalize sampleBuilder 1300 (sampleSmall sampleHeader) = s at *
  generalize sampleEntry (sampleLarge sampleSecondHeader) = large at *
  generalize sampleEntry (sampleSmall sampleSecondHeader) = small at *
  have hrun := push_of_passes (c := ⟨large, none⟩) hreached.plan hlarge
  rw [if_neg hfull] at hrun
  rw [hrun]
  refine ⟨hreached, rfl, congrArg (fun ok => [ok])
    ((push_accepts (c := ⟨small, none⟩) hreached.plan).2 ⟨hsmall, hroom, rfl⟩), ?_⟩
  obtain ⟨e, he⟩ := push_of_not_passes (B := sampleFormat) (s := s.reserve large)
    (c := ⟨small, none⟩)
    fun hpasses => hpasses.fresh (hsame ▸ mem_cons_self)
  simp only [observe, he]
  rfl

end OpenBuilder

end Cellule
