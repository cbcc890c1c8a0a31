import Cellule.Bundle.Staging

/-!
# Where the frames of a stage lie

The encoder fills in the extents of the locators whose frames are being written. The digests of
frames differ, so each locator gets the extent of its own frame (`Locator.place_slice`).
-/

namespace Cellule

open List

section
variable {hash : Hash} {frame : VerifiedNodeFrame}

/-- The extent of a frame, found by its digest. -/
theorem find_frameExtents {before after : List VerifiedNodeFrame}
    (hnodup : ((before ++ frame :: after).map (·.digest hash)).Nodup) :
    (frameExtents hash offset (before ++ frame :: after)).find?
        (fun extent => extent.1 == frame.digest hash) =
      some (frame.digest hash, offset + (before.flatMap (·.encoded)).length,
        frame.encoded.length) := by
  induction before generalizing offset with
  | nil =>
    rw [nil_append, frameExtents, find?_cons_of_pos (by simp)]
    rfl
  | cons f before ih =>
    rw [cons_append, map_cons, nodup_cons] at hnodup
    have hother : f.digest hash ≠ frame.digest hash := by
      intro hsame
      refine hnodup.1 ?_
      rw [hsame]
      exact mem_map_of_mem (mem_append_right _ mem_cons_self)
    rw [cons_append, frameExtents, find?_cons_of_neg (by simpa using hother),
      ih hnodup.2, flatMap_cons, length_append, Nat.add_assoc]

end

theorem Locator.place_of_find {l : Locator} {offset bytes : Nat} (hobject : l.object = none)
    (hfind : extents.find? (fun extent => extent.1 == l.frameDigest)
      = some (digest, offset, bytes)) :
    l.place extents = { l with offset := UInt64.ofNat offset, bytes := UInt64.ofNat bytes } := by
  unfold Locator.place
  rw [hobject, hfind]

theorem Locator.place_object (extents : List (Digest × Nat × Nat)) (l : Locator) :
    (l.place extents).object = l.object := by
  unfold Locator.place
  split <;> rfl

/-- The frames of a stage lie in the body where the encoder says. -/
theorem slice_frames {before after : List VerifiedNodeFrame} :
    (((front ++ (before ++ frame :: after).flatMap (·.encoded) ++ back).drop
      (front.length + (before.flatMap (·.encoded)).length)).take frame.encoded.length) =
      frame.encoded := by
  rw [flatMap_append, flatMap_cons, append_assoc, ← drop_drop, drop_left,
    append_assoc, drop_left, append_assoc, take_left]

/-- A locator whose frame is being written gets an extent that has the bytes of its frame. -/
theorem Locator.place_slice {hash : Hash} {frames : List VerifiedNodeFrame}
    {front back body : Bytes} {l : Locator} (hnodup : (frames.map (·.digest hash)).Nodup)
    (hbody : body = front ++ frames.flatMap (·.encoded) ++ back)
    (hbounded : body.length ≤ maxBundleBytes) (hnone : l.object = none) (hframe : frame ∈ frames)
    (hdigest : l.frameDigest = frame.digest hash) :
    let placed := l.place (frameExtents hash front.length frames)
    placed.offset.toNat + placed.bytes.toNat ≤ body.length ∧
      (body.drop placed.offset.toNat).take placed.bytes.toNat = frame.encoded := by
  obtain ⟨before, after, rfl⟩ := append_of_mem hframe
  have hfind : (frameExtents hash front.length (before ++ frame :: after)).find?
      (fun extent => extent.1 == frame.digest hash) = _ := find_frameExtents hnodup
  rw [← hdigest] at hfind
  have hlength : front.length + (before.flatMap (·.encoded)).length + frame.encoded.length ≤
      body.length := by
    rw [hbody, flatMap_append, flatMap_cons]
    simp only [length_append]
    omega
  have hmax : maxBundleBytes = 4194304 := rfl
  dsimp only
  rw [Locator.place_of_find hnone hfind]
  dsimp only
  rw [UInt64.toNat_ofNat_of_lt' (by simp only [UInt64.size]; omega),
    UInt64.toNat_ofNat_of_lt' (by simp only [UInt64.size]; omega)]
  refine ⟨hlength, ?_⟩
  rw [hbody, slice_frames]

end Cellule
