import Cellule.Ltx.CoalesceLaws
import Cellule.Ltx.NodeFrame

/-!
# Laws of node-log frames

The envelope is a canonical encoding: the decoder takes exactly the bytes that the encoder makes of
the values it returns (`encode_of_inspect`, `inspect_of_encode`), and writing a new node sequence
into the bytes gives the encoding of the frame with that sequence (`withNodeSequence_eq`).
-/

namespace Cellule

open Except
open Wire (At Reads at_append)
open List

/-! ## Fields -/

theorem reads_takeArray (n : Nat) : Reads (takeArray n) FixedId.asBytes n (fun _ => True) := by
  refine ⟨FixedId.length_asBytes, fun {bytes cursor r} => ?_⟩
  unfold takeArray
  constructor
  · intro h
    split at h
    · next hle =>
      cases h
      exact ⟨rfl, hle, take_prefix n (bytes.drop cursor), trivial⟩
    · cases h
  · rintro ⟨hcursor, hle, ⟨tail, htail⟩, -⟩
    rw [dif_pos hle, ok.injEq]
    refine Prod.ext (Subtype.ext ?_) hcursor.symm
    show (bytes.drop cursor).take n = r.1.asBytes
    rw [← htail, take_left' r.1.length_asBytes]

theorem reads_takeLe (width : Nat) :
    Reads (takeLe width) (Bytes.le width) width (fun n => n < 256 ^ width) := by
  refine (reads_takeArray width).map (fun id => Bytes.ofLe id.asBytes)
    (fun n => ⟨Bytes.le width n, Bytes.length_le width n⟩) (fun bytes cursor => ?_) (fun n => rfl)
    (fun id _ => ⟨Subtype.ext (Bytes.le_ofLe id.length_asBytes), ?_⟩)
    fun n hn => ⟨Bytes.ofLe_le hn, trivial⟩
  · unfold takeLe
    cases takeArray width bytes cursor with
    | error e => rfl
    | ok r => rfl
  · have hlt := Bytes.ofLe_lt id.asBytes
    rwa [id.length_asBytes] at hlt

/-- The numbers of a scope are `u64`. -/
structure NodeFrameScope.Typed (scope : NodeFrameScope) : Prop where
  logEpoch : scope.logEpoch < 256 ^ 8
  nodeSequence : scope.nodeSequence < 256 ^ 8
  cellEpoch : scope.cellEpoch < 256 ^ 8
  commitSequence : scope.commitSequence < 256 ^ 8

/-- The numbers of a segment are `u64` and `u32`. -/
structure SegmentInfo.Typed (segment : SegmentInfo) : Prop where
  minTxid : segment.minTxid < 256 ^ 8
  maxTxid : segment.maxTxid < 256 ^ 8
  pageSize : segment.pageSize < 256 ^ 4
  databasePages : segment.databasePages < 256 ^ 4
  preChecksum : segment.preChecksum < 256 ^ 8
  postChecksum : segment.postChecksum < 256 ^ 8
  sizeBytes : segment.sizeBytes < 256 ^ 8

variable {bytes : Bytes} {cursor first : Nat} {scope : NodeFrameScope} {segment : SegmentInfo}
  {f : VerifiedNodeFrame}

theorem at_pushScope :
    At bytes cursor (pushScope scope) ↔ At bytes cursor scope.leaderSession.asBytes ∧
      At bytes (cursor + 16) (Bytes.le 8 scope.logEpoch) ∧
      At bytes (cursor + 24) (Bytes.le 8 scope.nodeSequence) ∧
      At bytes (cursor + 32) scope.application.asBytes ∧ At bytes (cursor + 48) scope.cell.asBytes ∧
      At bytes (cursor + 80) scope.incarnation.asBytes ∧
      At bytes (cursor + 96) (Bytes.le 8 scope.cellEpoch) ∧
      At bytes (cursor + 104) (Bytes.le 8 scope.commitSequence) := by
  simp only [pushScope, at_append (FixedId.length_asBytes _), at_append (Bytes.length_le _ _),
    Nat.add_assoc, Nat.reduceAdd]

theorem reads_takeScope : Reads takeScope pushScope 112 NodeFrameScope.Typed := by
  refine ⟨fun scope => ?_, fun {bytes cursor r} => ?_⟩
  · simp only [pushScope, length_append, FixedId.length_asBytes, Bytes.length_le]
  · simp only [takeScope, takeU64, (reads_takeArray 16).bind_eq_ok, (reads_takeArray 32).bind_eq_ok,
      (reads_takeLe 8).bind_eq_ok, Nat.add_assoc, Nat.reduceAdd]
    constructor
    · rintro ⟨leaderSession, -, h₁, -, logEpoch, -, h₂, ht₂, nodeSequence, -, h₃, ht₃,
        application, -, h₄, -, cell, -, h₅, -, incarnation, -, h₆, -, cellEpoch, -, h₇, ht₇,
          commitSequence, hlength,
        h₈, ht₈, hr⟩
      cases hr
      exact ⟨rfl, hlength, at_pushScope.2 ⟨h₁, h₂, h₃, h₄, h₅, h₆, h₇, h₈⟩, ⟨ht₂, ht₃, ht₇, ht₈⟩⟩
    · rintro ⟨hcursor, hlength, hat, ht⟩
      obtain ⟨h₁, h₂, h₃, h₄, h₅, h₆, h₇, h₈⟩ := at_pushScope.1 hat
      exact ⟨_, by omega, h₁, trivial, _, by omega, h₂, ht.logEpoch, _, by omega, h₃,
        ht.nodeSequence,
        _, by omega, h₄, trivial, _, by omega, h₅, trivial, _, by omega, h₆, trivial,
          _, by omega, h₇,
        ht.cellEpoch, _, hlength, h₈, ht.commitSequence, by rw [← hcursor]; rfl⟩

theorem at_pushSegment :
    At bytes cursor (pushSegment segment) ↔ At bytes cursor (Bytes.le 8 segment.minTxid) ∧
      At bytes (cursor + 8) (Bytes.le 8 segment.maxTxid) ∧
      At bytes (cursor + 16) (Bytes.le 4 segment.pageSize) ∧
      At bytes (cursor + 20) (Bytes.le 4 segment.databasePages) ∧
      At bytes (cursor + 24) (Bytes.le 8 segment.preChecksum) ∧
      At bytes (cursor + 32) (Bytes.le 8 segment.postChecksum) ∧
      At bytes (cursor + 40) (Bytes.le 8 segment.sizeBytes) ∧
      At bytes (cursor + 48) segment.blake3.asBytes := by
  simp only [pushSegment, at_append (Bytes.length_le _ _), Nat.add_assoc, Nat.reduceAdd]

theorem reads_takeSegment : Reads takeSegment pushSegment 80 SegmentInfo.Typed := by
  refine ⟨fun segment => ?_, fun {bytes cursor r} => ?_⟩
  · simp only [pushSegment, length_append, FixedId.length_asBytes, Bytes.length_le]
  · simp only [takeSegment, takeU64, takeU32, (reads_takeArray 32).bind_eq_ok,
      (reads_takeLe 8).bind_eq_ok, (reads_takeLe 4).bind_eq_ok, Nat.add_assoc, Nat.reduceAdd]
    constructor
    · rintro ⟨minTxid, -, h₁, ht₁, maxTxid, -, h₂, ht₂, pageSize, -, h₃, ht₃,
        databasePages, -, h₄, ht₄,
        preChecksum, -, h₅, ht₅, postChecksum, -, h₆, ht₆, sizeBytes, -, h₇, ht₇, blake3,
          hlength, h₈, -,
        hr⟩
      cases hr
      exact ⟨rfl, hlength, at_pushSegment.2 ⟨h₁, h₂, h₃, h₄, h₅, h₆, h₇, h₈⟩,
        ⟨ht₁, ht₂, ht₃, ht₄, ht₅, ht₆, ht₇⟩⟩
    · rintro ⟨hcursor, hlength, hat, ht⟩
      obtain ⟨h₁, h₂, h₃, h₄, h₅, h₆, h₇, h₈⟩ := at_pushSegment.1 hat
      exact ⟨_, by omega, h₁, ht.minTxid, _, by omega, h₂, ht.maxTxid, _, by omega, h₃, ht.pageSize,
        _, by omega, h₄, ht.databasePages, _, by omega, h₅, ht.preChecksum, _, by omega, h₆,
        ht.postChecksum, _, by omega, h₇, ht.sizeBytes, _, hlength, h₈, trivial,
        by rw [← hcursor]; rfl⟩

/-! ## Frames -/

/-- The length of the header of a frame. -/
def frameLength (scope : NodeFrameScope) (first : Nat) : Nat :=
  if first != scope.commitSequence then rangeHeaderBytes else frameHeaderBytes

theorem le_frameLength (scope : NodeFrameScope) (first : Nat) : 240 ≤ frameLength scope first := by
  unfold frameLength frameHeaderBytes rangeHeaderBytes
  split <;> omega

theorem frameLength_le (scope : NodeFrameScope) (first : Nat) : frameLength scope first ≤ 248 := by
  unfold frameLength frameHeaderBytes rangeHeaderBytes
  split <;> omega

theorem length_frameHeader (scope : NodeFrameScope) (first : Nat) (segment : SegmentInfo)
    (length : Nat) : (frameHeader scope first segment length).length = frameLength scope first := by
  unfold frameHeader frameLength
  cases first != scope.commitSequence <;>
    simp [frameMagic, reads_takeScope.length_put, reads_takeSegment.length_put, frameHeaderBytes,
      rangeHeaderBytes]

/-- What stands where in the header of a frame. -/
theorem at_frameHeader {length : Nat} :
    At bytes 0 (frameHeader scope first segment length) ↔ At bytes 0 frameMagic ∧
      At bytes 4 (Bytes.le 2 (if first != scope.commitSequence then rangeVersion else frameVersion))
        ∧
      At bytes 6 (Bytes.le 2 (frameLength scope first)) ∧ At bytes 8 (pushScope scope) ∧
      At bytes 120 (pushSegment segment) ∧ At bytes 200 (Bytes.le 8 length) ∧
      At bytes 208 segment.blake3.asBytes ∧
      At bytes 240 (if first != scope.commitSequence then Bytes.le 8 first else []) := by
  have hmagic : frameMagic.length = 4 := rfl
  simp only [frameHeader, frameLength, at_append hmagic, at_append (Bytes.length_le _ _),
    at_append (reads_takeScope.length_put _), at_append (reads_takeSegment.length_put _),
    at_append (FixedId.length_asBytes _), Nat.reduceAdd]

/-- The first command is written out exactly in version two. -/
theorem takeFirst_eq_ok :
    takeFirst version last bytes cursor = .ok r ↔
      (version = rangeVersion ∧ r.1 ≠ last ∧ r.2 = cursor + 8 ∧ cursor + 8 ≤ bytes.length ∧
        At bytes cursor (Bytes.le 8 r.1) ∧ r.1 < 256 ^ 8) ∨
      (version ≠ rangeVersion ∧ r = (last, cursor)) := by
  unfold takeFirst takeU64
  split
  · next hversion =>
    rw [(reads_takeLe 8).bind_eq_ok]
    constructor
    · rintro ⟨first, hlength, hat, ht, h⟩
      obtain ⟨hne, h⟩ := reject_bind_eq_ok.1 h
      cases h
      exact .inl ⟨hversion, by simpa using hne, rfl, hlength, hat, ht⟩
    · rintro (⟨-, hne, hcursor, hlength, hat, ht⟩ | ⟨hne, -⟩)
      · refine ⟨r.1, hlength, hat, ht, reject_bind_eq_ok.2 ⟨by simpa using hne, ?_⟩⟩
        rw [← hcursor]
        rfl
      · exact absurd hversion hne
  · next hversion =>
    constructor
    · intro h
      cases h
      exact .inr ⟨hversion, rfl⟩
    · rintro (⟨h, -⟩ | ⟨-, rfl⟩)
      · exact absurd h hversion
      · rfl

/-- The version and the length of the header fit what is read as the first command exactly if they
are those the encoder writes for it. -/
theorem version_takeFirst : (!((version == frameVersion && headerBytes == frameHeaderBytes)
      || (version == rangeVersion && headerBytes == rangeHeaderBytes))) = false ∧
      takeFirst version scope.commitSequence bytes 240 = .ok (first, cursor) ↔
    version = (if first != scope.commitSequence then rangeVersion else frameVersion) ∧
      headerBytes = frameLength scope first ∧ cursor = headerBytes ∧
      At bytes 240 (if first != scope.commitSequence then Bytes.le 8 first else []) ∧
      (first ≠ scope.commitSequence → headerBytes ≤ bytes.length ∧ first < 256 ^ 8) := by
  have hversions : (!((version == frameVersion && headerBytes == frameHeaderBytes)
      || (version == rangeVersion && headerBytes == rangeHeaderBytes))) = false ↔
      version = 1 ∧ headerBytes = 240 ∨ version = 2 ∧ headerBytes = 248 := by
    rw [Bool.not_eq_false', Bool.or_eq_true, Bool.and_eq_true, Bool.and_eq_true, beq_iff_eq,
      beq_iff_eq, beq_iff_eq, beq_iff_eq, frameVersion, frameHeaderBytes, rangeVersion,
      rangeHeaderBytes]
  rw [hversions, takeFirst_eq_ok, frameLength]
  by_cases hne : first = scope.commitSequence
  · simp only [hne, bne_self_eq_false, Bool.false_eq_true, if_false, frameVersion, rangeVersion,
      frameHeaderBytes, Prod.mk.injEq, true_and, ne_eq, not_true_eq_false, false_and, and_false,
      false_or, false_implies, and_true]
    constructor
    · rintro ⟨⟨rfl, rfl⟩ | ⟨rfl, rfl⟩, hversion, rfl⟩
      · exact ⟨rfl, rfl, rfl, Wire.at_nil ..⟩
      · exact absurd rfl hversion
    · rintro ⟨rfl, rfl, rfl, -⟩
      exact ⟨.inl ⟨rfl, rfl⟩, by decide, rfl⟩
  · rw [if_pos (by simpa using hne), if_pos (by simpa using hne), if_pos (by simpa using hne)]
    constructor
    · rintro ⟨hversions, ⟨rfl, -, rfl, hlength, hat, ht⟩ | ⟨-, hr⟩⟩
      · obtain rfl : headerBytes = 248 := by simpa [rangeVersion] using hversions
        exact ⟨rfl, rfl, rfl, hat, fun _ => ⟨hlength, ht⟩⟩
      · exact absurd (congrArg Prod.fst hr) hne
    · rintro ⟨rfl, rfl, rfl, hat, hlast⟩
      exact ⟨.inr ⟨rfl, rfl⟩, .inl ⟨rfl, hne, rfl, (hlast hne).1, hat, (hlast hne).2⟩⟩

variable {P : Primitives} {limits : Limits}

theorem encode_eq_ok :
    P.encodeNodeFrameRange scope first segment body limits = .ok f ↔
      validateScope scope = .ok () ∧ validRange first scope.commitSequence ∧
      P.validateBody body segment limits = .ok () ∧ frameLength scope first + body.length ≤ u64Max ∧
      f.scope = scope ∧ f.firstCommitSequence = first ∧ f.segment = segment ∧ f.body = body ∧
      f.encoded = frameHeader scope first segment body.length ++ body := by
  have hbody : (frameHeader scope first segment body.length ++ body).drop (frameLength scope first)
      = body := drop_left' (length_frameHeader ..)
  unfold Primitives.encodeNodeFrameRange
  rw [bind_eq_ok]
  constructor
  · rintro ⟨_, hscope, h⟩
    split at h
    · next hrange =>
      obtain ⟨_, hvalid, h⟩ := bind_eq_ok.1 h
      obtain ⟨hlength, h⟩ := reject_bind_eq_ok.1 h
      rw [← ok.inj h]
      exact ⟨hscope, hrange, hvalid, by simpa [frameLength] using hlength, rfl, rfl,
        rfl, hbody, rfl⟩
    · cases h
  · rintro ⟨hscope, hrange, hvalid, hlength, rfl, rfl, rfl, hf, hencoded⟩
    refine ⟨(), hscope, ?_⟩
    rw [dif_pos hrange, hvalid]
    refine reject_bind_eq_ok.2 ⟨by simpa [frameLength] using hlength, ?_⟩
    exact congrArg Except.ok (VerifiedNodeFrame.ext rfl rfl rfl (hbody.trans hf.symm) hencoded.symm)

/-- The decoder accepts only encodings. -/
theorem encode_of_inspect (h : P.inspectNodeFrame bytes limits = .ok f) :
    f.encoded = bytes ∧ f.scope.Typed ∧ f.segment.Typed ∧
      P.encodeNodeFrameRange f.scope f.firstCommitSequence f.segment f.body limits = .ok f := by
  obtain ⟨hmagic, h⟩ := reject_bind_eq_ok.1 h
  rw [Bool.or_eq_false_iff, bne_eq_false_iff_eq] at hmagic
  obtain ⟨version, -, hversion, -, h⟩ := (reads_takeLe 2).bind_eq_ok.1 h
  obtain ⟨headerBytes, -, hheader, -, h⟩ := (reads_takeLe 2).bind_eq_ok.1 h
  obtain ⟨hversions, h⟩ := reject_bind_eq_ok.1 h
  obtain ⟨scope, -, hscope, hscopeTyped, h⟩ := reads_takeScope.bind_eq_ok.1 h
  obtain ⟨segment, -, hsegment, hsegmentTyped, h⟩ := reads_takeSegment.bind_eq_ok.1 h
  obtain ⟨bodyLength, -, hbodyLength, -, h⟩ := (reads_takeLe 8).bind_eq_ok.1 h
  obtain ⟨bodyDigest, hlength, hdigest, -, h⟩ := (reads_takeArray 32).bind_eq_ok.1 h
  obtain ⟨⟨first, cursor⟩, hfirst, h⟩ := bind_eq_ok.1 h
  dsimp only at h
  split at h
  · next hrange =>
    obtain ⟨hlengths, h⟩ := reject_bind_eq_ok.1 h
    obtain ⟨_, hvalidScope, h⟩ := bind_eq_ok.1 h
    obtain ⟨hdigests, h⟩ := reject_bind_eq_ok.1 h
    obtain ⟨_, hvalid, h⟩ := bind_eq_ok.1 h
    obtain ⟨hver, hhead, hcursor, hrest, -⟩ := version_takeFirst.1 ⟨hversions, hfirst⟩
    rw [Bool.or_eq_false_iff, Bool.or_eq_false_iff, Bool.or_eq_false_iff, Bool.or_eq_false_iff,
      bne_eq_false_iff_eq, bne_eq_false_iff_eq, bne_eq_false_iff_eq] at hlengths
    rw [Bool.or_eq_false_iff, bne_eq_false_iff_eq, bne_eq_false_iff_eq] at hdigests
    obtain ⟨hcapture, hsize, hhash⟩ := P.validateBody_ok hvalid
    have hbodyLength' : bodyLength = (bytes.drop headerBytes).length := by
      rw [hsize, hlengths.1.1.1.2]
    have hat : At bytes 0 (frameHeader scope first segment bodyLength) := by
      refine at_frameHeader.2 ⟨?_, ?_, ?_, hscope, hsegment, hbodyLength, ?_, hrest⟩
      · exact hmagic.2 ▸ take_prefix 4 bytes
      · rwa [← hver]
      · rwa [← hhead]
      · rwa [← hdigests.1]
    have hbytes := Wire.eq_append_of_at (length_frameHeader ..) hat
    rw [hbodyLength', ← hhead] at hbytes
    have hsat : headerBytes + (bytes.drop headerBytes).length ≤ u64Max := by
      have hlen := hlengths.2
      have hle := frameLength_le scope first
      rw [hbodyLength', saturatingAdd] at hlen
      rw [length_drop] at hlen ⊢
      rw [← hhead] at hle
      simp only [u64Max] at hlen ⊢
      omega
    rw [← ok.inj h]
    exact ⟨rfl, hscopeTyped, hsegmentTyped, encode_eq_ok.2
      ⟨hvalidScope, hrange, hvalid, hhead ▸ hsat, rfl, rfl, rfl, rfl, hbytes⟩⟩
  · cases h

/-- The limits decide whether a frame is accepted, but not what it says. -/
theorem inspect_unique
    (h : P.inspectNodeFrame bytes limits = .ok f) (h' : P.inspectNodeFrame bytes limits' = .ok f') :
    f = f' := by
  obtain ⟨_, h, h'⟩ := bind_both_eq_ok h h'
  obtain ⟨⟨version, _⟩, h, h'⟩ := bind_both_eq_ok h h'
  obtain ⟨⟨headerBytes, _⟩, h, h'⟩ := bind_both_eq_ok h h'
  obtain ⟨_, h, h'⟩ := bind_both_eq_ok h h'
  obtain ⟨⟨scope, _⟩, h, h'⟩ := bind_both_eq_ok h h'
  obtain ⟨⟨segment, _⟩, h, h'⟩ := bind_both_eq_ok h h'
  obtain ⟨⟨bodyLength, _⟩, h, h'⟩ := bind_both_eq_ok h h'
  obtain ⟨⟨bodyDigest, _⟩, h, h'⟩ := bind_both_eq_ok h h'
  obtain ⟨⟨first, _⟩, h, h'⟩ := bind_both_eq_ok h h'
  dsimp only at h h'
  split at h
  · next hrange =>
    rw [dif_pos hrange] at h'
    obtain ⟨-, h⟩ := reject_bind_eq_ok.1 h
    obtain ⟨-, h'⟩ := reject_bind_eq_ok.1 h'
    obtain ⟨_, h, h'⟩ := bind_both_eq_ok h h'
    obtain ⟨_, h, h'⟩ := bind_both_eq_ok h h'
    obtain ⟨_, -, h⟩ := bind_eq_ok.1 h
    obtain ⟨_, -, h'⟩ := bind_eq_ok.1 h'
    exact (ok.inj h).symm.trans (ok.inj h')
  · cases h

/-- The decoder accepts every encoding. -/
theorem inspect_of_encode (hscopeTyped : f.scope.Typed) (hsegmentTyped : f.segment.Typed)
    (h : P.encodeNodeFrameRange f.scope f.firstCommitSequence f.segment f.body limits = .ok f) :
    P.inspectNodeFrame f.encoded limits = .ok f := by
  obtain ⟨hvalidScope, hrange, hvalid, hsat, -, -, -, -, hencoded⟩ := encode_eq_ok.1 h
  obtain ⟨hcapture, hsize, hhash⟩ := P.validateBody_ok hvalid
  have hat : At f.encoded 0
      (frameHeader f.scope f.firstCommitSequence f.segment f.body.length) :=
    hencoded ▸ Wire.at_zero_append ..
  have hlength : f.encoded.length
      = frameLength f.scope f.firstCommitSequence + f.body.length := by
    rw [hencoded, length_append, length_frameHeader]
  have hbody : f.encoded.drop (frameLength f.scope f.firstCommitSequence) = f.body := by
    rw [hencoded, drop_left' (length_frameHeader ..)]
  obtain ⟨hmagic, hversion, hheader, hscope, hsegment, hbodyLength, hdigest, hfirst⟩ :=
    at_frameHeader.1 hat
  have hle := le_frameLength f.scope f.firstCommitSequence
  have hge := frameLength_le f.scope f.firstCommitSequence
  have htyped : f.firstCommitSequence < 256 ^ 8 :=
    Nat.lt_of_le_of_lt f.range hscopeTyped.commitSequence
  have hlast : f.firstCommitSequence ≠ f.scope.commitSequence →
      frameLength f.scope f.firstCommitSequence ≤ f.encoded.length ∧
        f.firstCommitSequence < 256 ^ 8 := fun _ => ⟨by omega, htyped⟩
  obtain ⟨hversions, htakeFirst⟩ := version_takeFirst.2 ⟨rfl, rfl, rfl, hfirst, hlast⟩
  refine reject_bind_eq_ok.2 ⟨?_, ?_⟩
  · have htake : f.encoded.take 4 = frameMagic := (prefix_iff_eq_take.1 hmagic).symm
    rw [htake, bne_self_eq_false, Bool.or_false, decide_eq_false_iff_not, frameHeaderBytes]
    omega
  refine (reads_takeLe 2).bind_eq_ok.2 ⟨_, by omega, hversion, ?_, ?_⟩
  · split <;> decide
  refine (reads_takeLe 2).bind_eq_ok.2 ⟨_, by omega, hheader, by omega, ?_⟩
  refine reject_bind_eq_ok.2 ⟨hversions, ?_⟩
  refine reads_takeScope.bind_eq_ok.2 ⟨_, by omega, hscope, hscopeTyped, ?_⟩
  refine reads_takeSegment.bind_eq_ok.2 ⟨_, by omega, hsegment, hsegmentTyped, ?_⟩
  refine (reads_takeLe 8).bind_eq_ok.2 ⟨_, by omega, hbodyLength, ?_, ?_⟩
  · rw [hsize]
    exact hsegmentTyped.sizeBytes
  refine (reads_takeArray 32).bind_eq_ok.2 ⟨_, by omega, hdigest, trivial, ?_⟩
  refine bind_eq_ok.2 ⟨_, htakeFirst, ?_⟩
  dsimp only
  rw [dif_pos hrange, hbody]
  refine reject_bind_eq_ok.2 ⟨?_, ?_⟩
  · rw [hlength, saturatingAdd, Nat.min_eq_left hsat, hsize]
    rw [hsize] at hcapture hsat
    simp only [bne_self_eq_false, Bool.false_or, Bool.or_false, Bool.or_eq_false_iff,
      decide_eq_false_iff_not]
    exact ⟨by omega, by omega⟩
  rw [hvalidScope]
  refine reject_bind_eq_ok.2 ⟨?_, ?_⟩
  · rw [hhash, bne_self_eq_false, Bool.or_false]
  rw [hvalid]
  rfl

/-- The node sequence is a field of its own in the header. -/
theorem frameHeader_nodeSequence (scope : NodeFrameScope) (first : Nat) (segment : SegmentInfo)
    (length : Nat) : ∃ before after : Bytes, before.length = nodeSequenceOffset ∧
      ∀ nodeSequence, frameHeader { scope with nodeSequence } first segment length
        = before ++ (Bytes.le 8 nodeSequence ++ after) := by
  refine ⟨frameMagic ++ (Bytes.le 2 (if first != scope.commitSequence then rangeVersion
      else frameVersion) ++ (Bytes.le 2 (frameLength scope first)
      ++ (scope.leaderSession.asBytes ++ Bytes.le 8 scope.logEpoch))),
    scope.application.asBytes ++ (scope.cell.asBytes ++ (scope.incarnation.asBytes
      ++ (Bytes.le 8 scope.cellEpoch ++ (Bytes.le 8 scope.commitSequence
      ++ (pushSegment segment ++ (Bytes.le 8 length ++ (segment.blake3.asBytes
      ++ if first != scope.commitSequence then Bytes.le 8 first else []))))))),
    ?_, fun nodeSequence => ?_⟩
  · simp [frameMagic, nodeSequenceOffset]
  · simp only [frameHeader, frameLength, pushScope, append_assoc]

/-- Writing a node sequence into the bytes of a frame encodes the frame with that sequence. -/
theorem withNodeSequence_eq (nodeSequence : Nat)
    (h : P.encodeNodeFrameRange f.scope f.firstCommitSequence f.segment f.body limits = .ok f) :
    f.withNodeSequence nodeSequence = P.encodeNodeFrameRange { f.scope with nodeSequence }
      f.firstCommitSequence f.segment f.body limits := by
  obtain ⟨-, hrange, hvalid, hlength, -, -, -, -, hencoded⟩ := encode_eq_ok.1 h
  unfold VerifiedNodeFrame.withNodeSequence
  cases hscope : validateScope { f.scope with nodeSequence } with
  | error e => rw [Primitives.encodeNodeFrameRange, hscope, error_bind, error_bind]
  | ok u =>
    obtain ⟨before, after, hbefore, hheader⟩ :=
      frameHeader_nodeSequence f.scope f.firstCommitSequence f.segment f.body.length
    have hsplice : f.encoded.splice nodeSequenceOffset (Bytes.le 8 nodeSequence)
        = frameHeader { f.scope with nodeSequence } f.firstCommitSequence f.segment f.body.length
          ++ f.body := by
      have hold := hheader f.scope.nodeSequence
      rw [hencoded, hold, hheader, append_assoc, append_assoc,
        splice_append_middle hbefore (by simp), append_assoc, append_assoc]
    have hheaderBytes : f.encoded.length - f.body.length
        = frameLength f.scope f.firstCommitSequence := by
      rw [hencoded, length_append, length_frameHeader, Nat.add_sub_cancel]
    rw [ok_bind, eq_comm]
    refine encode_eq_ok.2 ⟨hscope, hrange, hvalid, hlength, rfl, rfl, rfl, ?_, hsplice⟩
    rw [hsplice, hheaderBytes]
    exact drop_left' (length_frameHeader ..)

/-- The frames there are: those encoded, those inspected, and both with another node sequence. -/
inductive Primitives.Built (P : Primitives) (limits : Limits) : VerifiedNodeFrame → Prop
  | encoded {scope : NodeFrameScope} {first : Nat} {segment : SegmentInfo} {body : Bytes}
      {f : VerifiedNodeFrame} (h : P.encodeNodeFrameRange scope first segment body limits = .ok f) :
      Built P limits f
  | inspected {bytes : Bytes} {f : VerifiedNodeFrame}
      (h : P.inspectNodeFrame bytes limits = .ok f) : Built P limits f
  | numbered {f f' : VerifiedNodeFrame} {nodeSequence : Nat} (hf : Built P limits f)
      (h : f.withNodeSequence nodeSequence = .ok f') : Built P limits f'

/-- The values an encoded frame holds are those it was made from. -/
theorem encode_self (h : P.encodeNodeFrameRange scope first segment body limits = .ok f) :
    P.encodeNodeFrameRange f.scope f.firstCommitSequence f.segment f.body limits = .ok f := by
  obtain ⟨-, -, -, -, hscope, hfirst, hsegment, hbody, -⟩ := encode_eq_ok.1 h
  rwa [hscope, hfirst, hsegment, hbody]

/-- Every frame is the encoding of the values it holds. -/
theorem Primitives.Built.encode_eq (hf : P.Built limits f) :
    P.encodeNodeFrameRange f.scope f.firstCommitSequence f.segment f.body limits = .ok f := by
  induction hf with
  | encoded h => exact encode_self h
  | inspected h => exact (encode_of_inspect h).2.2.2
  | numbered _ h ih =>
    rw [withNodeSequence_eq _ ih] at h
    exact encode_self h

/-- The envelope is canonical. The numbers are those of the source's types, and a body is a slice,
so it has at most `isize::MAX` bytes. -/
theorem node_frame_canonical (P : Primitives) (limits : Limits) :
    (∀ scope first segment body, scope.Typed → segment.Typed → body.length ≤ i64Max →
      validateScope scope = .ok () → validRange first scope.commitSequence →
      P.validateBody body segment limits = .ok () →
      ∃ f, P.encodeNodeFrameRange scope first segment body limits = .ok f ∧
        P.inspectNodeFrame f.encoded limits = .ok f ∧ f.scope = scope ∧
        f.firstCommitSequence = first ∧ f.segment = segment ∧ f.body = body) ∧
    (∀ bytes f, P.inspectNodeFrame bytes limits = .ok f → f.encoded = bytes ∧
      P.encodeNodeFrameRange f.scope f.firstCommitSequence f.segment f.body limits = .ok f) ∧
    (∀ bytes bytes' f f', P.inspectNodeFrame bytes limits = .ok f →
      P.inspectNodeFrame bytes' limits = .ok f' → f.scope = f'.scope →
      f.firstCommitSequence = f'.firstCommitSequence → f.segment = f'.segment → f.body = f'.body →
      bytes = bytes') ∧
    ∀ f nodeSequence, P.Built limits f → f.withNodeSequence nodeSequence
      = P.encodeNodeFrameRange { f.scope with nodeSequence } f.firstCommitSequence f.segment f.body
        limits := by
  refine ⟨fun scope first segment body hscopeTyped hsegmentTyped hbody hscope hrange hvalid => ?_,
    fun bytes f h => ?_, fun bytes bytes' f f' h h' hscope hfirst hsegment hbody => ?_,
    fun f nodeSequence hf => withNodeSequence_eq nodeSequence hf.encode_eq⟩
  · have hlength : frameLength scope first + body.length ≤ u64Max := by
      have hle := frameLength_le scope first
      simp only [i64Max, u64Max] at hbody ⊢
      omega
    let f : VerifiedNodeFrame :=
      { scope, firstCommitSequence := first, segment, body
        encoded := frameHeader scope first segment body.length ++ body
        range := hrange.2.1, bound := hrange.2.2 }
    have hencode : P.encodeNodeFrameRange scope first segment body limits = .ok f :=
      encode_eq_ok.2 ⟨hscope, hrange, hvalid, hlength, rfl, rfl, rfl, rfl, rfl⟩
    exact ⟨f, hencode, inspect_of_encode hscopeTyped hsegmentTyped hencode, rfl, rfl, rfl, rfl⟩
  · exact ⟨(encode_of_inspect h).1, (encode_of_inspect h).2.2.2⟩
  · obtain ⟨rfl, -, -, hencode⟩ := encode_of_inspect h
    obtain ⟨rfl, -, -, hencode'⟩ := encode_of_inspect h'
    rw [hscope, hfirst, hsegment, hbody, hencode'] at hencode
    rw [ok.inj hencode]

/-! ## A sample frame -/

def sampleScope : NodeFrameScope where
  leaderSession := ⟨List.replicate 16 1, rfl⟩
  logEpoch := 1
  nodeSequence := 4
  application := ⟨List.replicate 16 2, rfl⟩
  cell := ⟨List.replicate 32 3, rfl⟩
  incarnation := ⟨List.replicate 16 4, rfl⟩
  cellEpoch := 1
  commitSequence := 7

/-- The body of the sample frame is a snapshot of one page. -/
def sampleBody : SegmentInput :=
  sampleSegment sampleHeader (samplePage 0) (samplePrimitives.checksumPage 1 (samplePage 0))

/-- The sample frame covers three commands. It is read back, and numbered anew. -/
theorem node_frame_canonical_sample : ∃ f,
    samplePrimitives.encodeNodeFrameRange sampleScope 5 sampleBody.info sampleBody.bytes
      sampleLimits
      = .ok f ∧
    samplePrimitives.inspectNodeFrame f.encoded sampleLimits = .ok f ∧
    f.withNodeSequence 9 = samplePrimitives.encodeNodeFrameRange
      { sampleScope with nodeSequence := 9 }
      5 sampleBody.info sampleBody.bytes sampleLimits := by
  have hcanonical := node_frame_canonical samplePrimitives sampleLimits
  have hvalid : samplePrimitives.validateBody sampleBody.bytes sampleBody.info sampleLimits
      = .ok () := by decide +kernel
  have htyped : sampleBody.info.Typed := by
    constructor <;> decide +kernel
  obtain ⟨f, hencode, hinspect, hscope, hfirst, hsegment, hbody⟩ :=
    hcanonical.1 sampleScope 5 sampleBody.info sampleBody.bytes (by constructor <;> decide) htyped
      (by decide +kernel) (by decide) (by decide) hvalid
  have hnumbered := hcanonical.2.2.2 f 9 (.inspected hinspect)
  rw [hscope, hfirst, hsegment, hbody] at hnumbered
  exact ⟨f, hencode, hinspect, hnumbered⟩

end Cellule
