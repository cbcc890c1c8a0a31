import Cellule.Lib.Codec
import Cellule.Ltx.Bundle

/-!
# The two ways to build a bundle agree

A file-backed builder that finishes has written the bytes that `Bundle::encode` makes of the same
entries, which it accepts (`BundleBuilder.encode_eq`). The builder's steps simulate those of the
in-memory loop (`push_addEntry`); the two envelopes are read back the same way.
-/

namespace Cellule

open Except List BundleFormat

deriving instance Countable for SegmentInfo, BundleRow

variable {B : BundleFormat} {b b' : BundleBuilder} {limits : Limits}

theorem Limits.validate_ok {l l' : Limits} (h : l.validate = .ok l') :
    l' = l ∧ l.maxPlanBytes ≤ u64Max / 8 := by
  simp only [Limits.validate, reject_bind_eq_ok, pure, Except.pure, ok.injEq,
    Bool.or_eq_false_iff, decide_eq_false_iff_not] at h
  obtain ⟨⟨⟨-, hplan⟩, -⟩, rfl⟩ := h
  exact ⟨rfl, not_lt.1 hplan⟩

theorem BundleFormat.verifySegment_ok
    (h : B.verifySegment bytes info limits = .ok u) : bytes.length = info.sizeBytes := by
  simp only [verifySegment, reject_bind_eq_ok, Bool.or_eq_false_iff, bne_eq_false_iff_eq] at h
  exact h.2.1.1

/-- What a builder has written: the rows of the entries so far and their bodies. -/
structure BundleBuilder.Wrote (B : BundleFormat) (b : BundleBuilder) (entries : List BundleEntry) :
    Prop where
  entries_ok : entries.foldlM (B.addEntry b.limits) ([], []) = .ok (b.file, b.rows)
  payload : b.payloadLen = b.file.length
  rows_length : b.rows.length = entries.length
  segments : entries.length ≤ b.limits.maxSegments
  plan : b.limits.maxPlanBytes ≤ u64Max

theorem BundleBuilder.wrote_newTemp (h : BundleBuilder.newTemp limits = .ok b) :
    b.Wrote B [] ∧ limits.validate = .ok limits ∧ b.limits = limits := by
  obtain ⟨l, hl, hnew⟩ := bind_eq_ok.1 h
  obtain ⟨rfl, hplan⟩ := Limits.validate_ok hl
  cases hnew
  exact ⟨⟨rfl, rfl, rfl, Nat.zero_le _, hplan.trans (Nat.div_le_self _ _)⟩, hl, rfl⟩

/-- A pushed entry is an entry that the in-memory loop adds. -/
theorem BundleBuilder.push_addEntry (h : BundleBuilder.push B b entry = .ok b')
    (hpayload : b.payloadLen = b.file.length) (hplan : b.limits.maxPlanBytes ≤ u64Max) :
    B.addEntry b.limits (b.file, b.rows) entry = .ok (b'.file, b'.rows)
      ∧ b'.payloadLen = b'.file.length ∧ b'.rows.length = b.rows.length + 1
      ∧ b.rows.length < b.limits.maxSegments ∧ b'.limits = b.limits := by
  simp only [BundleBuilder.push, reject_bind_eq_ok, Bool.or_eq_false_iff,
    decide_eq_false_iff_not] at h
  obtain ⟨⟨hrows, hidentity⟩, h⟩ := h
  obtain ⟨u, hverify, h⟩ := bind_eq_ok.1 h
  rw [reject_bind_eq_ok] at h
  obtain ⟨-, h⟩ := h
  have hsize := verifySegment_ok hverify
  cases hadd : checkedAdd b.payloadLen entry.info.sizeBytes with
  | none => simp [hadd] at h
  | some next =>
    obtain ⟨-, rfl⟩ := checkedAdd_eq_some.1 hadd
    simp only [hadd, reject_bind_eq_ok, pure, Except.pure, ok.injEq, decide_eq_false_iff_not] at h
    obtain ⟨hfits, rfl⟩ := h
    have hsaturating : saturatingAdd b.file.length entry.info.sizeBytes
        = b.file.length + entry.info.sizeBytes := by
      unfold saturatingAdd
      omega
    refine ⟨?_, ?_, ?_, by omega, rfl⟩
    · rw [addEntry, hidentity, hsaturating, hverify]
      rw [hpayload] at hfits ⊢
      simp [hfits, pure, Except.pure]
    · simp [hpayload, hsize]
    · simp

/-- A push extends what was written by one entry. -/
theorem BundleBuilder.Wrote.push
    (hw : b.Wrote B entries) (h : BundleBuilder.push B b entry = .ok b') :
    b'.Wrote B (entries ++ [entry]) ∧ b'.limits = b.limits := by
  obtain ⟨hentry, hpayload, hlength, hroom, hlimits⟩ := push_addEntry h hw.payload hw.plan
  have hrows := hw.rows_length
  refine ⟨⟨?_, hpayload, ?_, ?_, hlimits ▸ hw.plan⟩, hlimits⟩
  · rw [hlimits, foldlM_append, hw.entries_ok, ok_bind]
    simp [hentry]
  · rw [length_append, length_singleton]
    omega
  · rw [length_append, length_singleton, hlimits]
    omega

/-- The rows of entries that are laid out one after another. -/
def rowsFrom : (offset : Nat) → List BundleEntry → List BundleRow
  | _, [] => []
  | offset, e :: es =>
    ⟨e.repository, e.epoch, e.info, offset⟩ :: rowsFrom (offset + e.bytes.length) es

theorem BundleFormat.addEntry_ok (h : B.addEntry limits acc e = .ok acc') :
    acc' = (acc.1 ++ e.bytes, acc.2 ++ [⟨e.repository, e.epoch, e.info, acc.1.length⟩]) := by
  rw [addEntry, reject_bind_eq_ok] at h
  obtain ⟨u, -, h⟩ := bind_eq_ok.1 h.2
  rw [reject_bind_eq_ok] at h
  cases h.2
  rfl

/-- The bodies stand one after another, and the rows say where. -/
theorem BundleFormat.foldlM_addEntry_ok (h : entries.foldlM (B.addEntry limits) acc = .ok acc') :
    acc'.1 = acc.1 ++ entries.flatMap (·.bytes)
      ∧ acc'.2 = acc.2 ++ rowsFrom acc.1.length entries := by
  induction entries generalizing acc with
  | nil =>
    cases h
    simp [rowsFrom]
  | cons e es ih =>
    rw [foldlM_cons] at h
    obtain ⟨acc₁, he, hes⟩ := bind_eq_ok.1 h
    obtain ⟨h1, h2⟩ := ih hes
    rw [addEntry_ok he] at h1 h2
    simp only [append_assoc, length_append, singleton_append] at h1 h2
    exact ⟨by rw [flatMap_cons, h1], by rw [h2, rowsFrom]⟩

/-! ## Reading the envelope back -/

section
variable (B) (payload : Bytes) (rows : List BundleRow)

/-- The length of an envelope. -/
theorem BundleFormat.length_envelope :
    (B.envelope payload rows).length = payload.length + (B.toVec rows).length + 8 := by
  simp [envelope, bundleMagic]
  omega

/-- The last four bytes are the magic number. -/
theorem BundleFormat.drop_magic :
    (B.envelope payload rows).drop ((B.envelope payload rows).length - 8 + 4) = bundleMagic := by
  have hlen : (B.envelope payload rows).length - 8 + 4
      = (payload ++ B.toVec rows ++ Bytes.le 4 (B.toVec rows).length).length := by
    rw [length_envelope]
    simp
    omega
  rw [hlen, envelope, drop_left]

/-- The four bytes before them are the length of the footer. -/
theorem BundleFormat.take_footerLength :
    ((B.envelope payload rows).drop ((B.envelope payload rows).length - 8)).take 4
      = Bytes.le 4 (B.toVec rows).length := by
  have hlen : (B.envelope payload rows).length - 8 = (payload ++ B.toVec rows).length := by
    rw [length_envelope]
    simp
  rw [hlen, envelope, append_assoc _ (Bytes.le _ _), drop_left]
  exact take_left' (Bytes.length_le 4 _)

/-- The footer stands between the bodies and its length. -/
theorem BundleFormat.take_footer :
    ((B.envelope payload rows).drop payload.length).take (B.toVec rows).length = B.toVec rows := by
  rw [envelope, append_assoc, append_assoc, drop_left, take_left]

end

/-- What the reader of a scratch file found in an envelope whose footer fits. -/
theorem BundleFormat.decodeFileRows_envelope (hfooter : (B.toVec rows).length ≤ u32Max)
    (h : B.decodeFileRows (B.envelope payload rows) limits = .ok (rows', n)) :
    rows' = rows ∧ n = (B.envelope payload rows).length
      ∧ (B.envelope payload rows).length ≤ limits.maxPlanBytes
      ∧ validateRowLayout rows payload.length limits = .ok () := by
  have hread : Bytes.ofLe (Bytes.le 4 (B.toVec rows).length) = (B.toVec rows).length := by
    refine Bytes.ofLe_le ?_
    unfold u32Max at hfooter
    omega
  have hstart : (B.envelope payload rows).length - 8 - (B.toVec rows).length = payload.length := by
    rw [length_envelope]
    omega
  simp only [decodeFileRows, reject_bind_eq_ok, take_footerLength, hread,
    hstart, take_footer, B.fromSlice_toVec, ok_bind] at h
  obtain ⟨hplan, -, -, -, h⟩ := h
  obtain ⟨u, hlayout, h⟩ := bind_eq_ok.1 h
  rw [forM_bind_eq_ok] at h
  cases h.2
  exact ⟨rfl, rfl, not_lt.1 (of_decide_eq_false hplan), hlayout⟩

/-- An envelope that fits and whose rows are laid out well is read back from memory. -/
theorem BundleFormat.memoryRows_envelope (hfooter : (B.toVec rows).length ≤ u32Max)
    (hplan : (B.envelope payload rows).length ≤ limits.maxPlanBytes)
    (hlayout : validateRowLayout rows payload.length limits = .ok ()) :
    B.memoryRows (B.envelope payload rows) limits = .ok rows := by
  have hread : Bytes.ofLe (Bytes.le 4 (B.toVec rows).length) = (B.toVec rows).length := by
    refine Bytes.ofLe_le ?_
    unfold u32Max at hfooter
    omega
  have hlength := B.length_envelope payload rows
  have hstart : (B.envelope payload rows).length - 8 - (B.toVec rows).length = payload.length := by
    omega
  have hcount : (rows.isEmpty || decide (rows.length > limits.maxSegments)) = false := by
    rw [validateRowLayout, reject_bind_eq_ok] at hlayout
    exact hlayout.1
  have hfooterOk : B.decodeFooter (B.envelope payload rows) limits
    = .ok (rows, payload.length) := by
    simp only [decodeFooter, reject_bind_eq_ok, take_footerLength, hread,
      hstart, take_footer, B.fromSlice_toVec, ok_bind, drop_magic, hcount, pure, Except.pure,
      bne_self_eq_false, decide_eq_false_iff_not, and_self, and_true, true_and]
    omega
  rw [memoryRows, reject_bind_eq_ok, hfooterOk]
  refine ⟨decide_eq_false (not_lt.2 hplan), ?_⟩
  simp only [ok_bind, hlayout, pure, Except.pure]

/-- A builder that finishes has made the bundle that `Bundle::encode` makes of the same entries. -/
theorem BundleBuilder.Wrote.encode_eq
    (hw : b.Wrote B entries) (hlimits : b.limits.validate = .ok b.limits)
    (h : BundleBuilder.finish B b = .ok bundle) :
    B.encode entries b.limits = .ok bundle ∧ bundle.rows = rowsFrom 0 entries
      ∧ bundle.body = B.envelope (entries.flatMap (·.bytes)) (rowsFrom 0 entries) := by
  obtain ⟨hfile, hlaid⟩ := foldlM_addEntry_ok hw.entries_ok
  simp only [nil_append, length_nil] at hfile hlaid
  simp only [BundleBuilder.finish, reject_bind_eq_ok, decide_eq_false_iff_not, Nat.not_lt] at h
  obtain ⟨hrows, hfooter, h⟩ := h
  split at h
  · cases h
  · rw [reject_bind_eq_ok, decodeTempFile, hlimits, ok_bind] at h
    obtain ⟨-, h⟩ := h
    obtain ⟨⟨rows', n⟩, hdecode, h⟩ := bind_eq_ok.1 h
    obtain ⟨rfl, rfl, hplan, hlayout⟩ := decodeFileRows_envelope hfooter hdecode
    cases h
    have hne : entries.isEmpty = false := by
      have hlength := hw.rows_length
      cases entries with
      | nil => simp [length_eq_zero_iff.1 hlength] at hrows
      | cons _ _ => rfl
    have hmemory := memoryRows_envelope hfooter hplan hlayout
    refine ⟨?_, hlaid, by rw [hfile, hlaid]⟩
    rw [encode, hlimits, ok_bind, reject_bind_eq_ok]
    refine ⟨by simp [hne, hw.segments], ?_⟩
    rw [hw.entries_ok, ok_bind, reject_bind_eq_ok]
    refine ⟨decide_eq_false (not_lt.2 hfooter), ?_⟩
    simp [hmemory, ofValidated, pure, Except.pure]

end Cellule
