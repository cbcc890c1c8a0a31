import Cellule.Ltx.Capture
import Cellule.Ltx.RoundTrip

/-!
# What a sync admits

A sync computes the bound of a cut on the frames that are not captured, before it reads the log, and
on the pages of the cut it then found. The file that is written is within the bound of its pages,
and neither count makes the bound overflow.
-/

namespace Cellule

open List

namespace CaptureEngine

variable {e : CaptureEngine}

/-- The uncaptured frames of a log are those of a file of at most 2^63 bytes. -/
theorem uncapturedFrames_le :
    e.uncapturedFrames info walSize * e.frameSize ≤ i64Max + e.frameSize := by
  have hsize : (max (saturatingSubInt walSize info.offset) 0).toNat ≤ i64Max := by
    have : (0 : Int) ≤ i64Max := Int.natCast_nonneg _
    unfold saturatingSubInt
    omega
  have hdiv := Nat.div_mul_le_self
    ((max (saturatingSubInt walSize info.offset) 0).toNat + (e.frameSize - 1)) e.frameSize
  unfold uncapturedFrames
  omega

/-- Page numbers are distinct, so that an increment holds at most one page for each number. -/
theorem incrementalPages_le
    (hkeys : ∀ entry ∈ pageMap.entries, entry.1 < 2 ^ 32) (hcommit : commit < 2 ^ 32) :
    e.incrementalPages pageMap prevCommit commit ≤ 2 ^ 33 := by
  have hnodup : (pageMap.entries.map (·.1)).Nodup :=
    pairwise_map.2 (pageMap.sorted.imp fun h => Nat.ne_of_lt h)
  have hsubset : pageMap.entries.map (·.1) ⊆ List.range (2 ^ 32) := fun pgno hpgno => by
    obtain ⟨entry, hentry, rfl⟩ := mem_map.1 hpgno
    exact mem_range.2 (hkeys entry hentry)
  have hlength := (subperm_of_subset hnodup hsubset).length_le
  rw [length_range] at hlength
  unfold incrementalPages
  dsimp only
  omega

end CaptureEngine

/-- A file the encoder writes is within the bound of its pages, and a sync computes the bound
without overflow: on the uncaptured frames of any log, the pages of a database and those of an
increment. -/
theorem encodeFile_within_cutUpperBound {pageSize : UInt32}
    (hsize : isValidPageSize pageSize = true) :
    (∀ {P : Primitives} {limit : Option Nat} {index : Option SpoolFile} {header : Header}
      {pages : List (PageHeader × Bytes)} {post : UInt64} {entries : List EncodedPage}
      {encoder : Encoder}, (index = none ∨ index = some {}) → header.pageSize = pageSize →
      pages ≠ [] →
      (Encoder.newBlockWithIndex ⟨[], limit⟩ index).encodeFile P header pages post
        = .ok (entries, encoder) →
      ∃ bound, cutUpperBound pageSize pages.length = .ok bound ∧
        encoder.writer.bytes.length ≤ bound) ∧
    ∀ {e : CaptureEngine}, e.pageSize = pageSize →
      (∀ (info : SyncInfo) (walSize : Int), ∃ bound,
        cutUpperBound pageSize (e.uncapturedFrames info walSize) = .ok bound) ∧
      ∀ {commit : Nat}, commit < 2 ^ 32 →
        (∃ bound, cutUpperBound pageSize commit = .ok bound) ∧
        ∀ (pageMap : OrderedMap Nat Int) (prevCommit : Nat),
          (∀ entry ∈ pageMap.entries, entry.1 < 2 ^ 32) →
          ∃ bound, cutUpperBound pageSize (e.incrementalPages pageMap prevCommit commit)
            = .ok bound := by
  obtain ⟨hmin, hmax⟩ := isValidPageSize_bounds hsize
  have hpages : ∀ {pages : Nat}, pages ≤ 2 ^ 33 →
    ∃ bound, cutUpperBound pageSize pages = .ok bound :=
    fun {pages} h => by
      have hmul : pages * (pageSize.toNat + 24) ≤ 2 ^ 33 * (2 ^ 16 + 24) :=
        Nat.mul_le_mul h (by omega)
      exact ⟨_, cutUpperBound_ok hsize (by omega)⟩
  refine ⟨fun hindex hheader hne h => ?_, fun {e} he => ⟨fun info walSize => ?_, fun hcommit =>
    ⟨hpages (by omega), fun pageMap prevCommit hkeys => hpages ?_⟩⟩⟩
  · obtain ⟨-, hcount, hlength⟩ := Encoder.length_encodeFile_le hindex h hne
    rw [hheader] at hlength
    obtain ⟨bound, hbound⟩ := hpages (le_of_lt (hcount.trans (by decide)))
    refine ⟨bound, hbound, hlength.trans (le_of_eq ?_)⟩
    rw [cutUpperBound_eq hsize] at hbound
    split at hbound
    · cases hbound
      rfl
    · cases hbound
  · subst he
    have hframes := @CaptureEngine.uncapturedFrames_le e info walSize
    have hframe : e.frameSize = e.pageSize.toNat + 24 := rfl
    have hi64 : i64Max = 2 ^ 63 - 1 := rfl
    rw [hframe] at hframes
    exact ⟨_, cutUpperBound_ok hsize (by omega)⟩
  · exact CaptureEngine.incrementalPages_le hkeys hcommit

/-- The sample file has one page of 512 bytes; a database of one page grows to four of which the log
holds the second. -/
theorem encodeFile_within_cutUpperBound_sample : ∃ entries encoder bound bound',
    (Encoder.newBlockWithIndex ⟨[], none⟩ none).encodeFile samplePrimitives sampleHeader samplePages
      samplePost = .ok (entries, encoder) ∧
    cutUpperBound 512 1 = .ok bound ∧ encoder.writer.bytes.length ≤ bound ∧
    cutUpperBound 512 (CaptureEngine.incrementalPages ⟨512⟩
      (OrderedMap.empty.insert 2 32) 1 4) = .ok bound' := by
  obtain ⟨r, h⟩ : ∃ r, (Encoder.newBlockWithIndex ⟨[], none⟩ none).encodeFile samplePrimitives
      sampleHeader samplePages samplePost = .ok r := Except.exists_ok (by decide +kernel)
  obtain ⟨hfile, hengine⟩ := @encodeFile_within_cutUpperBound 512 (by decide)
  obtain ⟨bound, hbound, hlength⟩ := hfile (.inl rfl) rfl (cons_ne_nil _ _) h
  obtain ⟨bound', hbound'⟩ := (@(@hengine ⟨512⟩ rfl).2 4 (by decide)).2
    (OrderedMap.empty.insert 2 32) 1 (by decide)
  exact ⟨r.1, r.2, bound, bound', h, hbound, hlength, hbound'⟩

end Cellule
