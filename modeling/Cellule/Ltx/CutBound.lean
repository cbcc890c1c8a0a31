import Cellule.Ltx.EncoderLaws

/-!
# The size of an encoded file

The bound of `cellule-ltx/src/ltx.rs` on the size of an LTX file, from which a cut is admitted
before it is written, and that every file the encoder writes is within it. A page takes a frame of
at most `frameBytes` and an index entry of at most 25 bytes, since its offset is that of a file of
fewer than 2^32 pages; the end marker and the end of the index fit the room that the first entry
leaves.
-/

namespace Cellule

open Except List

/-- `INDEX_ENTRY_UPPER_BOUND` (`ltx.rs:283`). -/
def indexEntryUpperBound : Nat := 40

/-- `frame_payload_upper_bound` (`ltx.rs:290`). -/
def framePayloadUpperBound (pageSize : UInt32) : LtxResult Nat :=
  okOr (checkedAdd (Lz4Block.compressBound pageSize.toNat) (pageHeaderSize + 4))
    (.limit .ltxFileBytes)

/-- `cut_upper_bound` (`ltx.rs:301`). -/
def cutUpperBound (pageSize : UInt32) (pages : Nat) : LtxResult Nat := do
  let frame ← framePayloadUpperBound pageSize
  let page ← okOr (checkedAdd frame indexEntryUpperBound) (.limit .ltxFileBytes)
  okOr ((checkedMul pages page).bind (checkedAdd · (headerSize + trailerSize)))
    (.limit .ltxFileBytes)

/-! ## The bound -/

/-- The most bytes of a page frame. -/
def frameBytes (pageSize : UInt32) : Nat := Lz4Block.compressBound pageSize.toNat + 10

/-- The bound is linear in the number of pages, as long as it fits 64 bits. -/
theorem cutUpperBound_eq (hsize : isValidPageSize pageSize = true) (pages : Nat) :
    cutUpperBound pageSize pages
      = if pages * (frameBytes pageSize + 40) + 116 ≤ u64Max
        then .ok (pages * (frameBytes pageSize + 40) + 116) else .error (.limit .ltxFileBytes) := by
  obtain ⟨hmin, hmax⟩ := isValidPageSize_bounds hsize
  have hbound : Lz4Block.compressBound pageSize.toNat ≤ 65809 := by
    unfold Lz4Block.compressBound
    omega
  have hu64 : u64Max = 2 ^ 64 - 1 := rfl
  have hframe : framePayloadUpperBound pageSize = .ok (frameBytes pageSize) := by
    have : Lz4Block.compressBound pageSize.toNat + (pageHeaderSize + 4) ≤ u64Max := by
      simp only [pageHeaderSize]
      omega
    rw [framePayloadUpperBound, checkedAdd, if_pos this]
    rfl
  have hpage : checkedAdd (frameBytes pageSize) indexEntryUpperBound
      = some (frameBytes pageSize + 40) := by
    rw [checkedAdd, if_pos (by unfold frameBytes indexEntryUpperBound; omega)]
    rfl
  rw [cutUpperBound, hframe, ok_bind, hpage]
  show okOr ((checkedMul pages (frameBytes pageSize + 40)).bind (checkedAdd · 116)) _ = _
  unfold checkedMul
  split
  · rw [Option.bind_some, checkedAdd]
    split
    · rfl
    · rfl
  · next hmul =>
    rw [if_neg (by omega)]
    rfl

/-- The bound of as many pages as a file of 2^63 bytes could hold is computed without overflow. -/
theorem cutUpperBound_ok (hsize : isValidPageSize pageSize = true)
    (h : pages * (pageSize.toNat + 24) ≤ 2 ^ 63 + 2 ^ 17) :
    cutUpperBound pageSize pages = .ok (pages * (frameBytes pageSize + 40) + 116) := by
  obtain ⟨hmin, hmax⟩ := isValidPageSize_bounds hsize
  rw [cutUpperBound_eq hsize, if_pos]
  have hframe : 16 * (frameBytes pageSize + 40) ≤ 18 * (pageSize.toNat + 24) := by
    unfold frameBytes Lz4Block.compressBound
    omega
  have hmul : pages * (16 * (frameBytes pageSize + 40)) ≤ pages * (18 * (pageSize.toNat + 24)) :=
    Nat.mul_le_mul_left _ hframe
  rw [Nat.mul_left_comm, Nat.mul_left_comm pages 18] at hmul
  have hu64 : u64Max = 2 ^ 64 - 1 := rfl
  omega

/-! ## What the encoder writes -/

namespace Encoder

variable {P : Primitives} {e e' : Encoder}

/-- A frame is as long as its block and the two fields before it. -/
theorem length_frame (page : PageHeader) (block : Bytes) :
    (frame page block).length = block.length + 10 := by
  simp only [frame, length_append, PageHeader.length_marshal, Bytes.length_be, pageHeaderSize]
  omega

/-- An entry of the index whose numbers are those of a file. -/
theorem length_entry_le {pgno : UInt32} {offset size : Nat} (hoffset : offset < 2 ^ 70)
    (hsize : size < 2 ^ 70) :
    (writeUvarint pgno.toNat ++ (writeUvarint offset ++ writeUvarint size)).length ≤ 25 := by
  have hpage := length_writeUvarint_le (v := pgno.toNat) (k := 5) (by decide)
    (pgno.toNat_lt.trans (by decide))
  have hoffset := length_writeUvarint_le (k := 10) (by decide) hoffset
  have hsize := length_writeUvarint_le (k := 10) (by decide) hsize
  rw [length_append, length_append]
  omega

/-- What the pages of a file add to it and to its index. The file is never longer than its last page
number allows, so every offset in the index is small. -/
theorem encodePages_size {pages : List (PageHeader × Bytes)} {entries : List EncodedPage}
    (hsize : isValidPageSize e.header.pageSize = true) (hatEnd : e.index.AtEnd)
    (hwritten : e.bytesWritten
      ≤ headerSize + e.previousPageNumber.toNat * frameBytes e.header.pageSize)
    (h : e.encodePages P pages = .ok (entries, e')) :
    e'.writer.bytes.length
        ≤ e.writer.bytes.length + pages.length * frameBytes e.header.pageSize ∧
      e'.index.contents.length ≤ e.index.contents.length + pages.length * 25 ∧
      e.previousPageNumber.toNat + pages.length ≤ e'.previousPageNumber.toNat := by
  induction pages generalizing e entries with
  | nil =>
    cases h
    simp
  | cons page pages ih =>
    obtain ⟨entry, e₁, rest, hpage, hpages, rfl⟩ := encodePages_cons h
    obtain ⟨hcheck, block, compressor, hcompress, -, -, rfl⟩ := encodePage_ok hpage
    obtain ⟨-, -, -, hlength, -, -, hlt, -⟩ := checkPage_ok hsize hcheck
    have hblock := Lz4Block.Compressor.length_compress_le hcompress
    rw [hlength] at hblock
    have hframe : (frame page.1 block).length ≤ frameBytes e.header.pageSize := by
      rw [length_frame]
      exact Nat.add_le_add_right hblock 10
    have hbytes : frameBytes e.header.pageSize ≤ 65819 := by
      have := (isValidPageSize_bounds hsize).2
      unfold frameBytes Lz4Block.compressBound
      omega
    -- the page number goes up with every frame
    have hnext : (e.previousPageNumber.toNat + 1) * frameBytes e.header.pageSize
        ≤ page.1.pgno.toNat * frameBytes e.header.pageSize := Nat.mul_le_mul_right _ hlt
    have hlast : page.1.pgno.toNat * frameBytes e.header.pageSize ≤ 2 ^ 32 * 65819 :=
      Nat.mul_le_mul page.1.pgno.toNat_lt.le hbytes
    rw [Nat.succ_mul] at hnext
    have hheader : headerSize = 100 := rfl
    have hentry := @length_entry_le page.1.pgno e.bytesWritten (frame page.1 block).length
      (by omega) (by omega)
    obtain ⟨hcontents, hatEnd'⟩ := hatEnd.writeAll (writeUvarint page.1.pgno.toNat
      ++ (writeUvarint e.bytesWritten ++ writeUvarint (frame page.1 block).length))
    obtain ⟨hfile, hindex, hprevious⟩ := ih (by exact hsize) hatEnd' (by dsimp only; omega) hpages
    dsimp only [EncoderIndex.writeEntry] at hfile hindex hprevious
    rw [hcontents, length_append] at hindex
    rw [length_append] at hfile
    rw [length_cons, Nat.succ_mul, Nat.succ_mul]
    exact ⟨by omega, by omega, by omega⟩

/-- A whole file is within the bound of its pages. -/
theorem length_encodeFile_le {index : Option SpoolFile}
    (hindex : index = none ∨ index = some {}) {header : Header}
    (h : (newBlockWithIndex ⟨[], limit⟩ index).encodeFile P header pages post = .ok (entries, e))
    (hpages : pages ≠ []) :
    isValidPageSize header.pageSize = true ∧ pages.length < 2 ^ 32 ∧
      e.writer.bytes.length ≤ pages.length * (frameBytes header.pageSize + 40) + 116 := by
  obtain ⟨hempty, hatEnd⟩ : (newBlockWithIndex ⟨[], limit⟩ index).index.contents = [] ∧
      (newBlockWithIndex ⟨[], limit⟩ index).index.AtEnd := by
    rcases hindex with rfl | rfl
    · exact ⟨rfl, trivial⟩
    · exact ⟨rfl, rfl⟩
  obtain ⟨e₁, e₂, hheader, hencode, hclose⟩ := encodeFile_parts h
  obtain ⟨hvalid, rfl⟩ := encodeHeader_ok hheader
  have hsize := (Header.validate_ok hvalid).2
  have hmarshal := Header.length_marshal header
  obtain ⟨hfile, hentries, hprevious⟩ := encodePages_size (by exact hsize) (by exact hatEnd)
    (by simp [wrote, newBlockWithIndex, hmarshal]) hencode
  have hatEnd₂ := (encodePages_ok hencode).2.2.1 (by exact hatEnd)
  obtain ⟨-, -, hbytes, -⟩ := close_ok hatEnd₂ hclose
  have hlength : 0 < pages.length := length_pos_iff.2 hpages
  have hlast := e₂.previousPageNumber.toNat_lt
  dsimp only [wrote, newBlockWithIndex] at hfile hentries hprevious hempty
  rw [nil_append, hmarshal] at hfile
  rw [hempty] at hentries
  refine ⟨hsize, by omega, ?_⟩
  rw [hbytes]
  simp only [footer, length_append, length_replicate, Trailer.length_marshal,
    length_singleton, Bytes.length_be, pageHeaderSize, trailerSize, headerSize,
    length_nil] at hfile hentries ⊢
  rw [Nat.mul_add]
  omega

end Encoder

end Cellule
