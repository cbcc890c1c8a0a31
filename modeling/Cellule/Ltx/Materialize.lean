import Cellule.Lib.Cells
import Cellule.Lib.Delta
import Cellule.Ltx.DecoderLaws
import Cellule.Ltx.Pages
import Cellule.Ltx.Types

/-!
# Materializing a chain of segments

`MaterializationState::apply` of `cellule-ltx/src/recovery.rs` builds a database image from a
snapshot and the segments after it. Such a state holds the pages of a database (`Holds`): its image
is those pages in a row and its index has their checksums. On it a segment is a `Delta` of the
pages, and `apply_eq_ok` says which segments are taken.
-/

namespace Cellule

open Except List Option Decoder

/-- `SegmentInfo::from_inspected` (`types.rs:100`). -/
def SegmentInfo.fromInspected (file : DecodedFile) (sizeBytes : Nat) (blake3 : Digest) :
    SegmentInfo where
  minTxid := file.header.minTxid.toNat
  maxTxid := file.header.maxTxid.toNat
  pageSize := file.header.pageSize.toNat
  databasePages := file.header.commit.toNat
  preChecksum := file.header.preApplyChecksum.toNat
  postChecksum := file.trailer.postApplyChecksum.toNat
  sizeBytes
  blake3

/-- `validate_header` (`recovery.rs:194`). -/
def validateHeader (header : Header) (limits : Limits) : LtxResult Unit := do
  header.validate
  reject header.noChecksum .ltxCorrupted
  reject (decide (header.commit.toNat * header.pageSize.toNat > limits.maxDatabaseBytes))
    (.limit .databaseBytes)

/-- A database image under construction. Reference: `MaterializationState`
(`recovery.rs:42`), without the page buffer it reuses. -/
structure MaterializationState where
  image : Bytes := []
  checksums : PageChecksums := {}
  position : Position := ⟨0, 0⟩
  pageSize : UInt32 := 0
  timestamp : Int64 := 0

namespace MaterializationState

/-- The body of the page loop. -/
def applyPage (P : Primitives) (pageSize : UInt32) (s : PageChecksumApply × Bytes)
    (page : PageHeader × Bytes) : LtxResult (PageChecksumApply × Bytes) := do
  let walk ← s.1.page P page.1.pgno page.2
  pure (walk, s.2.splice ((page.1.pgno.toNat - 1) * pageSize.toNat) page.2)

/-- `MaterializationState::apply` (`recovery.rs:52`). -/
def apply (P : Primitives) (s : MaterializationState) (bytes : Bytes) (info : SegmentInfo)
    (limits : Limits) : LtxResult MaterializationState := do
  reject (decide (bytes.length > limits.maxFileBytes)) (.limit .ltxBytes)
  reject (bytes.length != info.sizeBytes) .checksumMismatch
  let d ← decodeHeader { rest := bytes }
  let header := d.header
  validateHeader header limits
  reject (decide (s.position.txid + 1 > u64Max) || header.minTxid.toNat != s.position.txid + 1)
    .txNotAvailable
  reject (header.preApplyChecksum.toNat != s.position.checksum) .checksumMismatch
  reject (s.pageSize != 0 && s.pageSize != header.pageSize) .ltxCorrupted
  let image := s.image.resize (header.commit.toNat * header.pageSize.toNat) 0
  let walk ← s.checksums.beginApply header.pageSize header.commit.toNat limits.maxDatabaseBytes
  let ((walk, image), d) ← d.foldPages P header.pageSize.toNat id (applyPage P header.pageSize)
    (walk, image)
  let checksums ← walk.finish
  let d ← d.close P
  let (size, digest) ← d.artifact P
  reject (checksums.checksum != d.trailer.postApplyChecksum) .checksumMismatch
  reject (size != bytes.length || SegmentInfo.fromInspected ⟨header, d.trailer⟩ size digest != info)
    .checksumMismatch
  pure {
    image
    checksums
    position := ⟨header.maxTxid.toNat, d.trailer.postApplyChecksum.toNat⟩
    pageSize := header.pageSize
    timestamp := header.timestamp }

end MaterializationState

/-! ## The pages of a database -/

/-- The numbers and contents of the pages of a file. -/
def bare (pages : List (PageHeader × Bytes)) : List (UInt32 × Bytes) :=
  pages.map fun page => (page.1.pgno, page.2)

/-- What a segment changes. -/
def segmentDelta (header : Header) (pages : List (PageHeader × Bytes)) : Delta Bytes :=
  ⟨header.commit.toNat, writes (bare pages)⟩

def blankPage (pageSize : UInt32) : Bytes := List.replicate pageSize.toNat 0

/-- The checksums of the pages of a database; the lock page has none. -/
def pageSums (P : Primitives) (pageSize : UInt32) (cells : Nat → Bytes) (count : Nat) :
    Nat → Option UInt64 :=
  fun n => if 0 < n ∧ n ≤ count ∧ n ≠ lockPgno pageSize then
    some (P.checksumPage (UInt32.ofNat n) (cells n)) else none

theorem pageSums_zero (P : Primitives) (pageSize : UInt32) (cells : Nat → Bytes) :
    pageSums P pageSize cells 0 = fun _ => none :=
  funext fun _ => if_neg fun hin => absurd hin.2.1 (by omega)

namespace MaterializationState

/-- The state that holds the pages of a database. -/
def holding (P : Primitives) (pageSize : UInt32) (cells : Nat → Bytes) (count : Nat)
    (position : Position) (timestamp : Int64) : MaterializationState where
  image := List.ofCells cells count
  checksums := .summed count count (pageSums P pageSize cells count)
  position
  pageSize
  timestamp

/-- A state holds the pages of a database, of a size that is not fixed before the first segment.
Missing pages and the lock page are blank. -/
structure Holds (P : Primitives) (s : MaterializationState) (pageSize : UInt32)
    (cells : Nat → Bytes) : Prop where
  size : s.pageSize = pageSize ∧ pageSize ≠ 0 ∨ s.pageSize = 0 ∧ s.checksums.count = 0
  image : s.image = List.ofCells cells s.checksums.count
  length : ∀ n, (cells n).length = pageSize.toNat
  blank : ∀ n, s.checksums.count < n ∨ n = lockPgno pageSize → cells n = blankPage pageSize
  sums : s.checksums
    = .summed s.checksums.count s.checksums.count (pageSums P pageSize cells s.checksums.count)
  fresh : s.position.txid = 0 → s.checksums.count = 0

/-- What a state demands of a segment that decodes to the pages given. -/
structure Takes (P : Primitives) (s : MaterializationState) (cells : Nat → Bytes)
    (limits : Limits) (bytes : Bytes) (info : SegmentInfo)
    (pages : List (PageHeader × Bytes)) (d : Decoder) : Prop where
  fileSize : bytes.length ≤ limits.maxFileBytes
  checksummed : d.header.noChecksum = false
  databaseSize : d.header.commit.toNat * d.header.pageSize.toNat ≤ limits.maxDatabaseBytes
  txid : d.header.minTxid.toNat = s.position.txid + 1
  pre : d.header.preApplyChecksum.toNat = s.position.checksum
  nonempty : 0 < d.header.commit.toNat
  fits : Fits s.checksums.count d.header.pageSize d.header.commit.toNat (bare pages)
  post : (PageChecksums.summed d.header.commit.toNat d.header.commit.toNat
    (pageSums P d.header.pageSize ((segmentDelta d.header pages).apply
      (blankPage d.header.pageSize) cells) d.header.commit.toNat)).checksum
      = d.trailer.postApplyChecksum
  length : d.consumed.length = bytes.length
  info : SegmentInfo.fromInspected ⟨d.header, d.trailer⟩ d.consumed.length (P.blake3 d.consumed)
    = info

variable {P : Primitives} {s s' : MaterializationState} {pageSize : UInt32} {cells : Nat → Bytes}

/-- The page loop is the walk over the index, with the image written on the way. -/
theorem foldlM_applyPage {image image' : Bytes} :
    pages.foldlM (applyPage P pageSize) (walk, image) = .ok (walk', image') ↔
      (bare pages).foldlM (fun a page => a.page P page.1 page.2) walk = .ok walk' ∧
      image' = (bare pages).foldl
        (fun image page => image.splice ((page.1.toNat - 1) * pageSize.toNat) page.2) image := by
  induction pages generalizing walk image with
  | nil =>
    constructor
    · intro h
      cases h
      exact ⟨rfl, rfl⟩
    · rintro ⟨h, rfl⟩
      cases h
      rfl
  | cons page pages ih =>
    rw [foldlM_cons, bare, map_cons, foldlM_cons, foldl_cons, bind_eq_ok, bind_eq_ok]
    constructor
    · rintro ⟨⟨walk₁, image₁⟩, hpage, hpages⟩
      obtain ⟨walk₂, hwalk, hpage⟩ := bind_eq_ok.1 hpage
      cases hpage
      obtain ⟨hwalks, himage⟩ := ih.1 hpages
      exact ⟨⟨walk₁, hwalk, hwalks⟩, himage⟩
    · rintro ⟨⟨walk₁, hwalk, hwalks⟩, himage⟩
      exact ⟨_, bind_eq_ok.2 ⟨walk₁, hwalk, rfl⟩, ih.2 ⟨hwalks, himage⟩⟩

variable {count commit : Nat} {pages : List (UInt32 × Bytes)} {bytes : Bytes}
  {info : SegmentInfo} {limits : Limits}

/-- Writing pages into an image. -/
theorem foldl_splice (hcells : ∀ n, (cells n).length = size)
    (heach : ∀ page ∈ pages, 0 < page.1.toNat ∧ page.1.toNat ≤ count ∧ page.2.length = size) :
    pages.foldl (fun image page => image.splice ((page.1.toNat - 1) * size) page.2)
        (List.ofCells cells count)
      = List.ofCells (fun n => (writes pages n).getD (cells n)) count := by
  induction pages using List.reverseRecOn with
  | nil => rfl
  | append_singleton pages page ih =>
    obtain ⟨h₀, hle, hlength⟩ := heach page (mem_append_right _ (mem_singleton_self _))
    have hpages := fun p hp => heach p (mem_append_left [page] hp)
    have hwritten : ∀ n, ((writes pages n).getD (cells n)).length = size := by
      intro n
      cases hw : writes pages n with
      | none => exact hcells n
      | some data =>
        obtain ⟨p, hp, -, rfl⟩ := mem_of_writes hw
        exact (hpages p hp).2.2
    rw [foldl_append, ih hpages]
    show (List.ofCells _ count).splice _ page.2 = _
    rw [splice_ofCells hwritten h₀ hle hlength]
    refine ofCells_congr fun n _ _ => ?_
    rw [writes_append]
    exact (Function.apply_update (fun n => (getD · (cells n))) _ _ (some page.2) n).symm

/-- The index of the pages after a segment that fits. -/
theorem overlay_pageSums (h : Fits count pageSize commit pages) :
    overlay P (writes pages) (PageChecksums.upTo commit (pageSums P pageSize cells count))
      = pageSums P pageSize (Delta.apply (blankPage pageSize) cells ⟨commit, writes pages⟩)
        commit := by
  funext n
  unfold overlay PageChecksums.upTo pageSums Delta.apply
  dsimp only
  cases hw : writes pages n with
  | some data =>
    obtain ⟨page, hpage, rfl, rfl⟩ := mem_of_writes hw
    obtain ⟨h₀, hle, hne, -⟩ := h.each page hpage
    rw [map_some, some_or, if_pos ⟨h₀, hle, hne⟩, if_pos hle, getD_some]
  | none =>
    rw [map_none, none_or]
    by_cases hin : 0 < n ∧ n ≤ commit ∧ n ≠ lockPgno pageSize
    · obtain ⟨h₀, hle, hne⟩ := hin
      -- a page that the segment adds would have been written
      have hcount : n ≤ count := by
        by_contra hgt
        exact (writes_ne_none h.ascending).2 (h.fills n (by omega) hle hne) hw
      rw [if_pos hle, if_pos ⟨h₀, hcount, hne⟩, if_pos ⟨h₀, hle, hne⟩, if_pos hle]
      rfl
    · rw [if_neg hin]
      split
      · next hle =>
        rw [if_neg]
        rintro ⟨h₀, -, hne⟩
        exact hin ⟨h₀, hle, hne⟩
      · rfl

/-- The checksum of a database that has only the pages of one segment. -/
theorem checksum_of_snapshot (h : Fits 0 pageSize commit pages) :
    (PageChecksums.summed commit commit (pageSums P pageSize
        (Delta.apply (blankPage pageSize) cells ⟨commit, writes pages⟩) commit)).checksum
      = Checksum.flag
        ||| (pages.map fun page => P.checksumPage page.1 page.2).foldl (· ^^^ ·) 0 := by
  have hnone : PageChecksums.upTo commit (pageSums P pageSize cells 0) = fun _ => none := by
    rw [pageSums_zero]
    exact funext fun _ => ite_self none
  rw [← overlay_pageSums h, hnone, PageChecksums.summed]
  exact congrArg (Checksum.flag ||| ·) (xorTo_overlay P h.ascending fun page hpage =>
    ⟨(h.each page hpage).1, (h.each page hpage).2.1⟩)

/-- The image after a segment that fits. -/
theorem foldl_splice_resize (h : Fits count pageSize commit pages)
    (hcells : ∀ n, (cells n).length = pageSize.toNat)
    (hblank : ∀ n, count < n → cells n = blankPage pageSize) :
    pages.foldl (fun image page => image.splice ((page.1.toNat - 1) * pageSize.toNat) page.2)
        ((List.ofCells cells count).resize (commit * pageSize.toNat) 0)
      = List.ofCells (Delta.apply (blankPage pageSize) cells ⟨commit, writes pages⟩) commit := by
  have hresize : (List.ofCells cells count).resize (commit * pageSize.toNat) 0
      = List.ofCells cells commit := by
    rw [resize_ofCells hcells]
    refine ofCells_congr fun n _ _ => ?_
    split
    · rfl
    · next hn => rw [hblank n (by omega), blankPage]
  rw [hresize, foldl_splice hcells fun page hpage => ?_]
  · refine ofCells_congr fun n _ hn => ?_
    unfold Delta.apply
    rw [if_pos hn]
  · obtain ⟨h₀, hle, -, hlength⟩ := h.each page hpage
    exact ⟨h₀, hle, hlength⟩

/-- The segments a state takes: they decode, and the checks on the header, the checksums and the
description of the segment pass. -/
theorem apply_iff : s.apply P bytes info limits = .ok s' ↔
    ∃ pages d c, decode P { rest := bytes } = .ok (pages, d) ∧
      bytes.length ≤ limits.maxFileBytes ∧ bytes.length = info.sizeBytes ∧
      validateHeader d.header limits = .ok () ∧ s.position.txid + 1 ≤ u64Max ∧
      d.header.minTxid.toNat = s.position.txid + 1 ∧
      d.header.preApplyChecksum.toNat = s.position.checksum ∧
      (s.pageSize = 0 ∨ s.pageSize = d.header.pageSize) ∧
      s.checksums.applyIter P d.header.pageSize d.header.commit.toNat (bare pages)
        limits.maxDatabaseBytes = .ok c ∧
      c.checksum = d.trailer.postApplyChecksum ∧ d.consumed.length = bytes.length ∧
      SegmentInfo.fromInspected ⟨d.header, d.trailer⟩ d.consumed.length
        (P.blake3 d.consumed) = info ∧
      s' = ⟨(bare pages).foldl
          (fun image page => image.splice ((page.1.toNat - 1) * d.header.pageSize.toNat) page.2)
          (s.image.resize (d.header.commit.toNat * d.header.pageSize.toNat) 0), c,
        ⟨d.header.maxTxid.toNat, d.trailer.postApplyChecksum.toNat⟩, d.header.pageSize,
        d.header.timestamp⟩ := by
  -- the checks are read off the code; both sides then name the header of the decoder
  simp only [apply, decode, PageChecksums.applyIter, artifact, bind_eq_ok,
    foldPages_eq_ok, foldlM_applyPage, reject_eq_ok, Bool.or_eq_false_iff,
    Bool.and_eq_false_iff, decide_eq_false_iff_not, bne_eq_false_iff_eq, Nat.not_lt, gt_iff_lt,
    exists_and_left, exists_const, pure, Except.pure, ok.injEq, Prod.exists, Prod.mk.injEq]
  constructor
  · rintro ⟨hfile, hlength, d₁, hheader, _, hlimits, htxid, hpre, hsize, walk, hbegin, walk', image,
      d₂, ⟨pages, hpages, hwalk, rfl⟩, c, hfinish, d, hclose, _, _, ⟨-, rfl, rfl⟩,
        hpost, hinfo, rfl⟩
    have hsame := (close_ok hclose).2.trans (decodePages_ok hpages).1
    refine ⟨pages, d, ⟨d₁, hheader, _, d₂, hpages, d, hclose, rfl, rfl⟩, hfile, hlength, ?_⟩
    rw [hsame]
    exact ⟨hlimits, htxid.1, htxid.2, hpre, hsize, c, ⟨walk, hbegin, walk', hwalk, hfinish⟩, hpost,
      hinfo.1, hinfo.2, rfl⟩
  · rintro ⟨pages, d, ⟨d₁, hheader, _, d₂, hpages, d', hclose, rfl, rfl⟩, hfile, hlength, h⟩
    have hsame := (close_ok hclose).2.trans (decodePages_ok hpages).1
    rw [hsame] at h
    obtain ⟨hlimits, htxid, hnext, hpre, hsize, c, ⟨walk, hbegin, walk', hwalk, hfinish⟩, hpost,
      hconsumed, hinfo, rfl⟩ := h
    exact ⟨hfile, hlength, d₁, hheader, (), hlimits, ⟨htxid, hnext⟩, hpre, hsize, walk,
      hbegin, walk',
      _, d₂, ⟨_, hpages, hwalk, rfl⟩, c, hfinish, d', hclose, _, _, ⟨(close_ok hclose).1, rfl,
        rfl⟩, hpost, ⟨hconsumed, hinfo⟩, rfl⟩

/-- A segment that is taken decodes to pages of the size of those that are there. -/
theorem decode_of_apply (h : s.apply P bytes info limits = .ok s') :
    ∃ pages d, decode P { rest := bytes } = .ok (pages, d) ∧
      (s.pageSize = 0 ∨ s.pageSize = d.header.pageSize) := by
  obtain ⟨pages, d, c, hdecode, -, -, -, -, -, -, hsize, -⟩ := apply_iff.1 h
  exact ⟨pages, d, hdecode, hsize⟩

/-- The segments a state takes, and what it holds then. -/
theorem Holds.apply_eq_ok {pages : List (PageHeader × Bytes)}
    (h : s.Holds P d.header.pageSize cells)
    (hdecode : decode P { rest := bytes } = .ok (pages, d)) :
    s.apply P bytes info limits = .ok s' ↔ s.Takes P cells limits bytes info pages d ∧
      s' = holding P d.header.pageSize
        ((segmentDelta d.header pages).apply (blankPage d.header.pageSize) cells)
        d.header.commit.toNat ⟨d.header.maxTxid.toNat, d.trailer.postApplyChecksum.toNat⟩
        d.header.timestamp := by
  obtain ⟨-, -, -, -, -, -, hvalid, -⟩ := decode_eq_ok.1 hdecode
  have hunseen : ∀ n, s.checksums.count < n →
      pageSums P d.header.pageSize cells s.checksums.count n = none :=
    fun n hn => if_neg fun hin => absurd hin.2.1 (by omega)
  have hindex : ∀ c, s.checksums.applyIter P d.header.pageSize d.header.commit.toNat (bare pages)
      limits.maxDatabaseBytes = .ok c ↔ (isValidPageSize d.header.pageSize = true ∧
        0 < d.header.commit.toNat ∧
        d.header.pageSize.toNat * d.header.commit.toNat ≤ limits.maxDatabaseBytes ∧
        Fits s.checksums.count d.header.pageSize d.header.commit.toNat (bare pages)) ∧
      c = .summed d.header.commit.toNat d.header.commit.toNat
        (overlay P (writes (bare pages)) (PageChecksums.upTo d.header.commit.toNat
          (pageSums P d.header.pageSize cells s.checksums.count))) := by
    intro c
    rw [h.sums]
    exact PageChecksums.applyIter_eq_ok hunseen
  have himage (hfits : Fits s.checksums.count d.header.pageSize d.header.commit.toNat
    (bare pages)) :=
    foldl_splice_resize hfits h.length fun n hn => h.blank n (Or.inl hn)
  rw [apply_iff]
  constructor
  · rintro ⟨pages', d', c, hdecode', hfile, -, hlimits, -, htxid, hpre, -, hc, hpost,
      hlength, hinfo, rfl⟩
    cases hdecode.symm.trans hdecode'
    obtain ⟨⟨-, hnonempty, -, hfits⟩, rfl⟩ := (hindex c).1 hc
    obtain ⟨_, -, hlimits⟩ := bind_eq_ok.1 hlimits
    obtain ⟨hchecksummed, hlimits⟩ := reject_bind_eq_ok.1 hlimits
    have hdatabase := not_lt.1 (of_decide_eq_false (reject_eq_ok.1 hlimits))
    rw [overlay_pageSums hfits] at hpost ⊢
    refine ⟨⟨hfile, hchecksummed, hdatabase, htxid, hpre, hnonempty, hfits, hpost, hlength, hinfo⟩,
      ?_⟩
    rw [h.image, himage hfits]
    rfl
  · rintro ⟨htakes, rfl⟩
    have hinfo : bytes.length = info.sizeBytes := by rw [← htakes.info, ← htakes.length]; rfl
    have htxid : s.position.txid + 1 ≤ u64Max := by
      have := htakes.txid
      have := d.header.minTxid.toNat_lt
      rw [u64Max]
      omega
    have hlimits : validateHeader d.header limits = .ok () :=
      bind_eq_ok.2 ⟨(), hvalid, reject_bind_eq_ok.2 ⟨htakes.checksummed,
        reject_eq_ok.2 (decide_eq_false (Nat.not_lt.2 htakes.databaseSize))⟩⟩
    refine ⟨pages, d, _, hdecode, htakes.fileSize, hinfo, hlimits, htxid, htakes.txid, htakes.pre,
      h.size.symm.imp And.left And.left, (hindex _).2 ⟨⟨(Header.validate_ok hvalid).2,
        htakes.nonempty, by rw [Nat.mul_comm]; exact htakes.databaseSize, htakes.fits⟩, rfl⟩, ?_,
      htakes.length, htakes.info, ?_⟩
    · rw [overlay_pageSums htakes.fits]
      exact htakes.post
    · rw [overlay_pageSums htakes.fits, h.image, himage htakes.fits]
      rfl

/-- The pages a state holds after a segment. -/
theorem Holds.applied {pages : List (PageHeader × Bytes)}
    (h : s.Holds P d.header.pageSize cells) (htakes : s.Takes P cells limits bytes info pages d)
    (hvalid : d.header.validate = .ok ()) {position : Position} (hposition : position.txid ≠ 0)
    (timestamp : Int64) :
    (holding P d.header.pageSize ((segmentDelta d.header pages).apply
      (blankPage d.header.pageSize) cells) d.header.commit.toNat position timestamp).Holds P
      d.header.pageSize ((segmentDelta d.header pages).apply (blankPage d.header.pageSize)
        cells) := by
  have hne : d.header.pageSize ≠ 0 := by
    intro h₀
    have := (isValidPageSize_bounds (Header.validate_ok hvalid).2).1
    rw [h₀] at this
    exact absurd this (by decide)
  refine ⟨Or.inl ⟨rfl, hne⟩, rfl, fun n => ?_, fun n hn => ?_, rfl, fun h₀ => absurd h₀ hposition⟩
  · unfold Delta.apply
    split
    · cases hw : (segmentDelta d.header pages).write n with
      | none => exact h.length n
      | some data =>
        obtain ⟨page, hpage, -, rfl⟩ := mem_of_writes hw
        exact (htakes.fits.each page hpage).2.2.2
    · exact length_replicate
  · unfold Delta.apply
    split
    · next hle =>
      rcases hn with hn | rfl
      · exact absurd hle (Nat.not_le.2 hn)
      · cases hw : (segmentDelta d.header pages).write (lockPgno d.header.pageSize) with
        | none => exact h.blank _ (Or.inr rfl)
        | some data =>
          obtain ⟨page, hpage, hpgno, -⟩ := mem_of_writes hw
          exact absurd hpgno (htakes.fits.each page hpage).2.2.1
    · rfl

/-! ## The states that are built -/

/-- A state that holds the pages of some database. -/
def Valid (P : Primitives) (s : MaterializationState) : Prop :=
  ∃ pageSize cells, s.Holds P pageSize cells

theorem valid_default (P : Primitives) : ({} : MaterializationState).Valid P := by
  refine ⟨0, fun _ => [], Or.inr ⟨rfl, rfl⟩, rfl, fun _ => rfl, fun _ _ => rfl, ?_, fun _ => rfl⟩
  show ({} : PageChecksums) = .summed 0 0 (pageSums P 0 (fun _ => []) 0)
  rw [pageSums_zero]
  rfl

/-- The pages of a valid state, of the size that the next segment may have. -/
theorem Valid.holds (h : s.Valid P) (hsize : s.pageSize = 0 ∨ s.pageSize = pageSize) :
    ∃ cells, s.Holds P pageSize cells := by
  obtain ⟨size, cells, h⟩ := h
  rcases h.size with ⟨hsame, hne⟩ | ⟨hzero, hcount⟩
  · rcases hsize with hsize | hsize
    · exact absurd (hsame.symm.trans hsize) hne
    · exact ⟨cells, by rw [← hsize, hsame]; exact h⟩
  · -- there are no pages yet
    refine ⟨fun _ => blankPage pageSize, Or.inr ⟨hzero, hcount⟩, ?_, fun _ => length_replicate,
      fun _ _ => rfl, ?_, h.fresh⟩
    · rw [h.image, hcount]
      rfl
    · have := h.sums
      rw [hcount, pageSums_zero] at this
      rw [hcount, pageSums_zero, this]

end MaterializationState

end Cellule
