import Cellule.Ltx.Types

/-!
# Which segments a scheduled compaction takes

The choice of `cellule-ltx/src/replica/mod.rs`. The scan cuts the segments of one level into blocks,
each as long as the level, the number of inputs and the file limit allow, and takes the first with
enough inputs. The next block begins where the last one ended, so a window that begins inside a
block which the file limit cut short is not looked at (`scanLevel_none`).
-/

namespace Cellule

open List

/-- `COMPACTION_FANOUT` (`replica/mod.rs:49`). -/
def compactionFanout : Nat := 8

/-- `MAX_COMPACTION_INPUTS` (`replica/mod.rs:50`). -/
def maxCompactionInputs : Nat := 128

/-- The inner loop of `scheduled_compaction_range`: how far a block goes that has `count` inputs. -/
def blockLength (sourceLevel maxFileBytes : Nat) : List SegmentDescriptor → Nat → Nat → Nat
  | [], count, _ => count
  | d :: ds, count, bytes =>
    if d.level = sourceLevel ∧ count < maxCompactionInputs
        ∧ (checkedAdd bytes d.info.sizeBytes).any fun next => decide (next ≤ maxFileBytes) then
      blockLength sourceLevel maxFileBytes ds (count + 1) (bytes + d.info.sizeBytes)
    else count

/-- The length of the block that begins with the first segment. -/
def firstBlock (sourceLevel maxFileBytes : Nat) (ds : List SegmentDescriptor) : Nat :=
  blockLength sourceLevel maxFileBytes ds 0 0

/-- The outer loop of `scheduled_compaction_range`, over the segments from `start` on. -/
def scanLevel (sourceLevel maxFileBytes : Nat) (ds : List SegmentDescriptor) (start : Nat) :
    Option (Nat × Nat) :=
  match ds with
  | [] => none
  | d :: rest =>
    if d.level ≠ sourceLevel then scanLevel sourceLevel maxFileBytes rest (start + 1)
    else if firstBlock sourceLevel maxFileBytes (d :: rest) ≥ compactionFanout then
      some (start, start + firstBlock sourceLevel maxFileBytes (d :: rest))
    else
      scanLevel sourceLevel maxFileBytes
        ((d :: rest).drop (max (firstBlock sourceLevel maxFileBytes (d :: rest)) 1))
        (start + max (firstBlock sourceLevel maxFileBytes (d :: rest)) 1)
termination_by ds.length
decreasing_by
  · simp
  · simp only [length_drop, length_cons]
    omega

/-- `scheduled_compaction_range` (`replica/mod.rs:862`). -/
def scheduledCompactionRange (descriptors : List SegmentDescriptor) (level : Nat)
    (maxFileBytes : UInt64) : Option (Nat × Nat) :=
  if level = 0 then none else scanLevel (level - 1) maxFileBytes.toNat descriptors 0

/-! ## Windows -/

/-- The bytes of these segments. -/
def inputBytes (ds : List SegmentDescriptor) : Nat := (ds.map (·.info.sizeBytes)).sum

/-- Contiguous segments of one level within the file limit. -/
structure FitsFile (ds : List SegmentDescriptor) (sourceLevel maxFileBytes start count : Nat) :
    Prop where
  inside : start + count ≤ ds.length
  level : ∀ d ∈ (ds.drop start).take count, d.level = sourceLevel
  bytes : inputBytes ((ds.drop start).take count) ≤ maxFileBytes

/-- Segments that a scheduled compaction may take. -/
structure CompactionWindow (ds : List SegmentDescriptor)
    (sourceLevel maxFileBytes start count : Nat) :
    Prop extends FitsFile ds sourceLevel maxFileBytes start count where
  least : compactionFanout ≤ count
  most : count ≤ maxCompactionInputs

/-- Too few segments, with one more of the level behind them that the file limit leaves out. -/
structure CutShort (ds : List SegmentDescriptor) (sourceLevel maxFileBytes start count : Nat) :
    Prop extends FitsFile ds sourceLevel maxFileBytes start count where
  few : count < compactionFanout
  next : ∃ d, ds[start + count]? = some d ∧ d.level = sourceLevel
  above : maxFileBytes < inputBytes ((ds.drop start).take (count + 1))

variable {ds : List SegmentDescriptor} {sourceLevel maxFileBytes : Nat}

/-- How far a block goes, and why it goes no further. -/
theorem blockLength_spec (hlimit : maxFileBytes ≤ u64Max) {count bytes : Nat}
    (hcount : count ≤ maxCompactionInputs) (hbytes : bytes ≤ maxFileBytes) :
    ∃ n, blockLength sourceLevel maxFileBytes ds count bytes = count + n ∧ n ≤ ds.length ∧
      count + n ≤ maxCompactionInputs ∧ (∀ d ∈ ds.take n, d.level = sourceLevel) ∧
      bytes + inputBytes (ds.take n) ≤ maxFileBytes ∧
      (n = ds.length ∨ count + n = maxCompactionInputs ∨
        (∃ d, ds[n]? = some d ∧ d.level ≠ sourceLevel) ∨
        maxFileBytes < bytes + inputBytes (ds.take (n + 1))) := by
  induction ds generalizing count bytes with
  | nil => exact ⟨0, rfl, le_rfl, hcount, by simp, by simpa [inputBytes] using hbytes, .inl rfl⟩
  | cons d ds ih =>
    rw [blockLength]
    split
    · next h =>
      obtain ⟨hlevel, hmost, hfits⟩ := h
      have hfits : bytes + d.info.sizeBytes ≤ maxFileBytes := by
        unfold checkedAdd at hfits
        split at hfits
        · exact of_decide_eq_true hfits
        · cases hfits
      obtain ⟨n, hn, hle, hmost, hall, hsum, hstop⟩ := ih hmost hfits
      refine ⟨n + 1, hn.trans (by omega), Nat.succ_le_succ hle, by omega, ?_, ?_, ?_⟩
      · rw [take_succ_cons]
        exact forall_mem_cons.2 ⟨hlevel, hall⟩
      · rw [take_succ_cons, inputBytes, map_cons, sum_cons]
        unfold inputBytes at hsum
        omega
      · rw [take_succ_cons, getElem?_cons_succ, length_cons, inputBytes, map_cons, sum_cons]
        unfold inputBytes at hstop
        rcases hstop with h | h | h | h
        · exact .inl (by omega)
        · exact .inr (.inl (by omega))
        · exact .inr (.inr (.inl h))
        · exact .inr (.inr (.inr (by omega)))
    · next h =>
      refine ⟨0, rfl, Nat.zero_le _, hcount, by simp, by simpa [inputBytes] using hbytes, .inr ?_⟩
      by_cases hlevel : d.level = sourceLevel
      · by_cases hmost : count < maxCompactionInputs
        · refine .inr (.inr ?_)
          by_contra hfits
          have hsum : bytes + d.info.sizeBytes ≤ maxFileBytes := by
            simpa [inputBytes] using hfits
          refine h ⟨hlevel, hmost, ?_⟩
          rw [checkedAdd, if_pos (hsum.trans hlimit)]
          exact decide_eq_true hsum
        · exact .inl (by omega)
      · exact .inr (.inl ⟨d, rfl, hlevel⟩)

/-- The first block. -/
theorem firstBlock_spec (ds : List SegmentDescriptor) (sourceLevel : Nat)
    (hlimit : maxFileBytes ≤ u64Max) : ∃ n, firstBlock sourceLevel maxFileBytes ds = n ∧
      n ≤ maxCompactionInputs ∧ FitsFile ds sourceLevel maxFileBytes 0 n ∧
      (n = ds.length ∨ n = maxCompactionInputs ∨ (∃ d, ds[n]? = some d ∧ d.level ≠ sourceLevel) ∨
        maxFileBytes < inputBytes (ds.take (n + 1))) := by
  obtain ⟨n, hn, hle, hmost, hall, hsum, hstop⟩ :=
    @blockLength_spec ds sourceLevel _ hlimit 0 0 (Nat.zero_le _) (Nat.zero_le _)
  simp only [Nat.zero_add] at hn hmost hsum hstop
  exact ⟨n, hn, hmost, ⟨by omega, hall, hsum⟩, hstop⟩

/-- A window behind some segments is one of the whole list. -/
theorem FitsFile.of_drop {front start count : Nat}
    (h : FitsFile (ds.drop front) sourceLevel maxFileBytes start count)
    (hfront : front ≤ ds.length) :
    FitsFile ds sourceLevel maxFileBytes (front + start) count := by
  have hinside := h.inside
  have hlevel := h.level
  have hbytes := h.bytes
  rw [length_drop] at hinside
  rw [drop_drop] at hlevel hbytes
  exact ⟨by omega, hlevel, hbytes⟩

theorem CutShort.of_drop {front start count : Nat}
    (h : CutShort (ds.drop front) sourceLevel maxFileBytes start count)
    (hfront : front ≤ ds.length) :
    CutShort ds sourceLevel maxFileBytes (front + start) count := by
  have hnext := h.next
  have habove := h.above
  rw [getElem?_drop, ← Nat.add_assoc] at hnext
  rw [drop_drop] at habove
  exact ⟨h.toFitsFile.of_drop hfront, h.few, hnext, habove⟩

/-- A window that begins behind some segments is one of what follows them. -/
theorem CompactionWindow.drop {front start count : Nat}
    (h : CompactionWindow ds sourceLevel maxFileBytes start count) (hfront : front ≤ start) :
    CompactionWindow (ds.drop front) sourceLevel maxFileBytes (start - front) count := by
  have hdrop : (ds.drop front).drop (start - front) = ds.drop start := by
    rw [drop_drop, Nat.add_sub_of_le hfront]
  have hinside := h.inside
  refine ⟨⟨?_, hdrop ▸ h.level, hdrop ▸ h.bytes⟩, h.least, h.most⟩
  rw [length_drop]
  omega

/-- A window at the front makes the first block long enough; one that begins inside a block that is
too short begins inside one that the file limit cut. -/
theorem CompactionWindow.block (hlimit : maxFileBytes ≤ u64Max) {start count : Nat}
    (h : CompactionWindow ds sourceLevel maxFileBytes start count)
    (hshort : firstBlock sourceLevel maxFileBytes ds < compactionFanout)
    (hstart : start < max (firstBlock sourceLevel maxFileBytes ds) 1) :
    0 < start ∧ CutShort ds sourceLevel maxFileBytes 0
      (firstBlock sourceLevel maxFileBytes ds) := by
  obtain ⟨n, hn, -, hfits, hstop⟩ := firstBlock_spec ds sourceLevel hlimit
  rw [hn] at hshort hstart ⊢
  have hinside := h.inside
  have hleast := h.least
  have hfanout : compactionFanout = 8 := rfl
  -- the segment behind the block is in the window
  have hlt : n < ds.length := by omega
  have hnext : (ds.get ⟨n, hlt⟩).level = sourceLevel := h.level _ (mem_iff_getElem?.2
    ⟨n - start, by rw [getElem?_take_of_lt (by omega), getElem?_drop,
      Nat.add_sub_of_le (by omega), get_eq_getElem, getElem?_eq_getElem]⟩)
  have habove : maxFileBytes < inputBytes (ds.take (n + 1)) := by
    rcases hstop with hend | hmost | ⟨d, hd, hlevel⟩ | habove
    · omega
    · have : maxCompactionInputs = 128 := rfl
      omega
    · rw [getElem?_eq_getElem hlt] at hd
      cases hd
      exact absurd hnext hlevel
    · exact habove
  refine ⟨Nat.pos_of_ne_zero fun hzero => ?_, ⟨hfits, hshort,
    ⟨_, (Nat.zero_add n).symm ▸ getElem?_eq_getElem hlt, hnext⟩, habove⟩⟩
  subst hzero
  have hprefix : ds.take count = ds.take (n + 1) ++ (ds.take count).drop (n + 1) := by
    conv_lhs => rw [← take_append_drop (n + 1) (ds.take count), take_take,
      Nat.min_eq_left (by omega)]
  have hbytes := h.bytes
  rw [drop_zero, hprefix, inputBytes, map_append, sum_append] at hbytes
  unfold inputBytes at habove
  omega

/-- A range that the scan returns is a window. -/
theorem scanLevel_some (hlimit : maxFileBytes ≤ u64Max) {start first last : Nat}
    (h : scanLevel sourceLevel maxFileBytes ds start = some (first, last)) :
    ∃ offset count, first = start + offset ∧ last = first + count ∧
      CompactionWindow ds sourceLevel maxFileBytes offset count := by
  induction ds, start using scanLevel.induct sourceLevel maxFileBytes with
  | case1 start =>
    rw [scanLevel] at h
    cases h
  | case2 start d rest hlevel ih =>
    rw [scanLevel, if_pos hlevel] at h
    obtain ⟨offset, count, rfl, rfl, hwindow⟩ := ih h
    exact ⟨1 + offset, count, by omega, rfl,
      ⟨@FitsFile.of_drop (d :: rest) _ _ 1 _ _ hwindow.toFitsFile (by simp), hwindow.least,
        hwindow.most⟩⟩
  | case3 start d rest hlevel henough =>
    rw [scanLevel, if_neg hlevel, if_pos henough] at h
    cases h
    obtain ⟨n, hn, hmost, hfits, -⟩ := firstBlock_spec (d :: rest) sourceLevel hlimit
    rw [hn] at henough ⊢
    exact ⟨0, n, rfl, rfl, hfits, henough, hmost⟩
  | case4 start d rest hlevel hfew ih =>
    rw [scanLevel, if_neg hlevel, if_neg hfew] at h
    obtain ⟨n, hn, -, hfits, -⟩ := firstBlock_spec (d :: rest) sourceLevel hlimit
    obtain ⟨offset, count, rfl, rfl, hwindow⟩ := ih h
    refine ⟨_, count, Nat.add_assoc _ _ _, rfl, ⟨hwindow.toFitsFile.of_drop ?_, hwindow.least,
      hwindow.most⟩⟩
    have hinside := hfits.inside
    rw [length_cons] at hinside ⊢
    omega

/-- Every window that the scan does not find begins inside a block that the file limit cut. -/
theorem scanLevel_none (hlimit : maxFileBytes ≤ u64Max) {start offset count : Nat}
    (h : scanLevel sourceLevel maxFileBytes ds start = none)
    (hwindow : CompactionWindow ds sourceLevel maxFileBytes offset count) :
    ∃ front few, front < offset ∧ offset < front + few ∧
      CutShort ds sourceLevel maxFileBytes front few := by
  have hfanout : compactionFanout = 8 := rfl
  have hleast := hwindow.least
  induction ds, start using scanLevel.induct sourceLevel maxFileBytes generalizing offset with
  | case1 start =>
    have := hwindow.inside
    rw [length_nil] at this
    omega
  | case2 start d rest hlevel ih =>
    have hpos : 1 ≤ offset := Nat.pos_of_ne_zero fun hzero => by
      subst hzero
      obtain ⟨n, rfl⟩ : ∃ n, count = n + 1 := ⟨count - 1, by omega⟩
      exact hlevel (hwindow.level d (mem_cons_self ..))
    rw [scanLevel, if_pos hlevel] at h
    obtain ⟨front, few, hfront, hfew, hcut⟩ := ih h (hwindow.drop hpos)
    exact ⟨1 + front, few, by omega, by omega, @CutShort.of_drop (d :: rest) _ _ 1 _ _
      hcut (by simp)⟩
  | case3 start d rest hlevel henough =>
    rw [scanLevel, if_neg hlevel, if_pos henough] at h
    cases h
  | case4 start d rest hlevel hfew ih =>
    rw [scanLevel, if_neg hlevel, if_neg hfew] at h
    rcases lt_or_ge offset (max (firstBlock sourceLevel maxFileBytes (d :: rest)) 1) with hlt | hge
    · obtain ⟨hpos, hcut⟩ := hwindow.block hlimit (not_le.1 hfew) hlt
      exact ⟨0, _, hpos, by omega, hcut⟩
    · obtain ⟨front, few, hfront, hfew, hcut⟩ := ih h (hwindow.drop hge)
      have := hwindow.inside
      exact ⟨_, few, by omega, by omega, hcut.of_drop (by omega)⟩

/-- A range that a scheduled compaction takes is a window of the level before it; when it takes
none, every such window begins inside a run of too few segments that the file limit cut short. -/
theorem scheduledCompactionRange_spec (ds : List SegmentDescriptor) (level : Nat)
    (maxFileBytes : UInt64) :
    (∀ first last, scheduledCompactionRange ds level maxFileBytes = some (first, last) →
      1 ≤ level ∧ first ≤ last ∧
        CompactionWindow ds (level - 1) maxFileBytes.toNat first (last - first)) ∧
    (scheduledCompactionRange ds level maxFileBytes = none → 1 ≤ level →
      ∀ start count, CompactionWindow ds (level - 1) maxFileBytes.toNat start count →
        ∃ front few, front < start ∧ start < front + few ∧
          CutShort ds (level - 1) maxFileBytes.toNat front few) := by
  have hlimit : maxFileBytes.toNat ≤ u64Max := Nat.le_sub_one_of_lt maxFileBytes.toNat_lt
  unfold scheduledCompactionRange
  refine ⟨fun first last h => ?_, fun h hlevel start count hwindow => ?_⟩
  · split at h
    · cases h
    · next hlevel =>
      obtain ⟨offset, count, rfl, rfl, hwindow⟩ := scanLevel_some hlimit h
      rw [Nat.zero_add, Nat.add_sub_cancel_left]
      exact ⟨by omega, Nat.le_add_right _ _, hwindow⟩
  · rw [if_neg (by omega)] at h
    exact scanLevel_none hlimit h hwindow

/-- A segment of this size. -/
def sampleSized (size : Nat) : SegmentDescriptor :=
  .native ⟨1, 1, 512, 1, 0, 0, size, .fill 32 0⟩ (.fill 32 0) 0

/-- Eight small segments are not taken when a large one before them ends its block inside them. -/
theorem scheduledCompactionRange_misses_window :
    scheduledCompactionRange ((9700 :: List.replicate 8 168).map sampleSized) 1 10000 = none ∧
      CompactionWindow ((9700 :: List.replicate 8 168).map sampleSized) 0 10000 1 8 := by
  refine ⟨?_, ⟨by decide, by decide, by decide⟩, by decide, by decide⟩
  simp [scheduledCompactionRange, scanLevel, firstBlock, blockLength, sampleSized, checkedAdd,
    SegmentDescriptor.native, maxCompactionInputs, compactionFanout, u64Max]

end Cellule
