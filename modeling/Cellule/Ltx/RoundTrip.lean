import Cellule.Ltx.DecoderLaws
import Cellule.Ltx.EncoderLaws

/-!
# Decoding an encoded file

What the encoder writes the decoder reads back. The decoder follows the encoder (`Follows`): after
each frame it has read what the encoder had written, its running CRC has seen the same bytes, and
its index is the one the encoder spooled. From there the footer is what the decoder expects.
-/

namespace Cellule

open Except List Encoder Decoder

/-! ## The decoder follows -/

namespace Decoder

variable {P : Primitives} {d : Decoder}

/-- The decoder after it has read `bytes`, with `rest` left. -/
def took (d : Decoder) (bytes rest : Bytes) : Decoder :=
  { d with consumed := d.consumed ++ bytes, rest }

theorem readExact_append {bytes rest : Bytes} {length : Nat} (h : d.rest = bytes ++ rest)
    (hlen : bytes.length = length) : d.readExact length = .ok (bytes, d.took bytes rest) := by
  subst hlen
  simp [readExact, h, took, pure, Except.pure]

/-- A block of the announced size is read and decompressed. -/
theorem decodeBlock_append {block data rest headerBytes : Bytes} {offset : Nat} {pgno : UInt32}
    (h : d.rest = Bytes.be 4 block.length ++ (block ++ rest)) (hlen : block.length < 2 ^ 32)
    (hbound : block.length ≤ Lz4Block.compressBound data.length)
    (hdata : P.decompressInto block data.length = .ok data) :
    d.decodeBlock P offset pgno headerBytes data.length
      = .ok (data, ((d.took (Bytes.be 4 block.length ++ block) rest).update
          (Bytes.be 4 block.length)).pushEntry
        ⟨pgno, offset, (d.consumed ++ (Bytes.be 4 block.length ++ block)).length - offset,
          P.blake3 (headerBytes ++ (Bytes.be 4 block.length ++ block)),
          P.checksumPage pgno data⟩) := by
  have hsize : Bytes.ofBe (Bytes.be 4 block.length) = block.length := Bytes.ofBe_be hlen
  have hrest : ((d.took (Bytes.be 4 block.length) (block ++ rest)).update
      (Bytes.be 4 block.length)).rest = block ++ rest := rfl
  unfold decodeBlock
  rw [readExact_append h (Bytes.length_be _ _), ok_bind]
  dsimp only
  rw [hsize, decide_eq_false (Nat.not_lt.2 hbound), reject_false, ok_bind,
    readExact_append hrest rfl, ok_bind]
  dsimp only
  rw [hdata, ok_bind, bne_self_eq_false, reject_false, ok_bind]
  simp only [took, update, pushEntry, append_assoc]
  rfl

/-- The decoder after the end marker. -/
def ended (d : Decoder) (rest : Bytes) : Decoder :=
  { (d.took (List.replicate pageHeaderSize 0) rest).update (List.replicate pageHeaderSize 0) with
    state := .close }

/-- The end marker ends the pages. -/
theorem decodePage_end {rest : Bytes} (hstate : d.state = .pages)
    (h : d.rest = List.replicate pageHeaderSize 0 ++ rest) :
    d.decodePage P d.header.pageSize.toNat = .ok (none, d.ended rest) := by
  unfold decodePage
  rw [if_neg (by rw [hstate]; decide), hstate, readExact_append h length_replicate]
  simp only [bne_self_eq_false, Bool.or_false, reject_false, ok_bind, PageHeader.parse_zeros]
  rfl

end Decoder

namespace Decoder

variable {P : Primitives}

/-- The decoder after the frame of a page. -/
def passed (d : Decoder) (entry : EncodedPage) (frame hashedFrame rest : Bytes) : Decoder :=
  { d with
    consumed := d.consumed ++ frame
    rest
    hashed := d.hashed ++ hashedFrame
    index := d.index ++ [(entry.page, entry.offset, entry.size)]
    rollingChecksum := if d.header.isSnapshot && !d.header.noChecksum then
      Checksum.flag ||| (d.rollingChecksum ^^^ entry.checksum) else d.rollingChecksum
    replicaIndex := d.replicaIndex.map (· ++ [entry]) }

/-- A page number in its place among the pages passes. -/
theorem place_ok {d : Decoder} (hcommit : pgno.toNat ≤ d.header.commit.toNat)
    (hlock : pgno.toNat ≠ lockPgno d.header.pageSize) (hlt : d.previous < pgno.toNat)
    (hsnapshot : d.header.isSnapshot = true → pgno.toNat
      = d.previous + if d.previous = lockPgno d.header.pageSize - 1 then 2 else 1) :
    (decide (pgno.toNat ≤ d.previous) || decide (pgno > d.header.commit)
      || pgno.toNat == lockPgno d.header.pageSize || (d.header.isSnapshot && pgno.toNat
        != d.previous + if d.previous = lockPgno d.header.pageSize - 1 then 2 else 1)) = false := by
  have hcommit' : ¬pgno > d.header.commit := by
    rw [gt_iff_lt, UInt32.lt_iff_toNat_lt]
    exact Nat.not_lt.2 hcommit
  rw [decide_eq_false (Nat.not_le.2 hlt), decide_eq_false hcommit', beq_eq_false_iff_ne.2 hlock]
  cases hs : d.header.isSnapshot with
  | false => rfl
  | true => simpa using hsnapshot hs

/-- A frame with a valid header, in its place among the pages, and with a block for its page. -/
theorem decodePage_frame {d : Decoder} {page : PageHeader} {block data rest : Bytes}
    (hstate : d.state = .pages) (hrest : d.rest = frame page block ++ rest)
    (hdata : data.length = d.header.pageSize.toNat) (hlen : block.length < 2 ^ 32)
    (hbound : block.length ≤ Lz4Block.compressBound data.length)
    (hblock : P.decompressInto block data.length = .ok data) (hvalid : page.validate = .ok ())
    (hcommit : page.pgno.toNat ≤ d.header.commit.toNat)
    (hlock : page.pgno.toNat ≠ lockPgno d.header.pageSize) (hlt : d.previous < page.pgno.toNat)
    (hsnapshot : d.header.isSnapshot = true → page.pgno.toNat
      = d.previous + if d.previous = lockPgno d.header.pageSize - 1 then 2 else 1) :
    d.decodePage P d.header.pageSize.toNat
      = .ok (some (⟨page.pgno, page.flags ||| pageHeaderFlagSize⟩, data),
        d.passed ⟨page.pgno, d.consumed.length, (frame page block).length,
          P.blake3 (frame page block), P.checksumPage page.pgno data⟩
          (frame page block) (hashedFrame page block data) rest) := by
  obtain ⟨hpgno, hvalid', hsize⟩ := PageHeader.validate_withSize hvalid
  unfold frame hashedFrame at *
  rw [append_assoc, append_assoc] at hrest
  generalize hhdr : PageHeader.mk page.pgno (page.flags ||| pageHeaderFlagSize) = hdr at *
  have hnumber : hdr.pgno = page.pgno := by rw [← hhdr]
  have hflags : (hdr.flags &&& pageHeaderFlagSize != 0) = true := by
    rw [← hhdr]
    simpa using hsize
  have hnonzero : hdr.isZero = false := by
    rw [PageHeader.isZero, hnumber, beq_eq_false_iff_ne.2 hpgno, Bool.false_and]
  have hread := readExact_append hrest (PageHeader.length_marshal hdr)
  generalize hd₁ : (d.took hdr.marshal (Bytes.be 4 block.length ++ (block ++ rest))).update
    hdr.marshal
    = d₁ at *
  have hbody := @decodeBlock_append P d₁ block data rest hdr.marshal d.consumed.length page.pgno
    (by rw [← hd₁]; rfl) hlen hbound hblock
  have hheader : d₁.header = d.header := by rw [← hd₁]; rfl
  have hprevious : d₁.previous = d.previous := by rw [← hd₁]; rfl
  have hplace := place_ok hcommit hlock hlt hsnapshot
  have hframe : d₁.decodeFrame P d.consumed.length hdr hdr.marshal data.length
      = .ok (data, d.passed ⟨page.pgno, d.consumed.length,
          (hdr.marshal ++ (Bytes.be 4 block.length ++ block)).length,
          P.blake3 (hdr.marshal ++ (Bytes.be 4 block.length ++ block)),
            P.checksumPage page.pgno data⟩
          (hdr.marshal ++ (Bytes.be 4 block.length ++ block))
          (hdr.marshal ++ (Bytes.be 4 block.length ++ data)) rest) := by
    unfold decodeFrame decodeBody
    rw [hvalid', hnumber, hprevious, hheader, if_pos hflags, hbody]
    dsimp only
    rw [ok_bind, hplace, reject_false, ok_bind, ok_bind]
    subst hd₁
    simp [passed, pushEntry, update, took, pure, Except.pure, hlock]
  unfold decodePage
  rw [if_neg (by rw [hstate]; decide), hstate, hread]
  simp only [bne_self_eq_false, Bool.or_false, reject_false, ok_bind,
    PageHeader.parse_marshal, hnonzero, Bool.false_eq_true, if_false, hd₁, ← hdata, hframe, pure,
    Except.pure]

end Decoder

/-- The decoder has read what the encoder has written. -/
structure Follows (e : Encoder) (d : Decoder) : Prop where
  consumed : d.consumed = e.writer.bytes
  hashed : d.hashed = e.hashed
  header : d.header = e.header
  state : d.state = .pages
  previous : d.previous = e.previousPageNumber.toNat
  index : indexBytes d.index = e.index.contents
  atEnd : e.index.AtEnd
  written : e.bytesWritten = e.writer.bytes.length
  pageSize : isValidPageSize e.header.pageSize = true
  -- a frame takes less than `2 ^ 17` bytes and an entry at most thirty, so that no offset and no
  -- size leaves 64 bits
  room : e.bytesWritten ≤ headerSize + 2 ^ 17 * e.previousPageNumber.toNat
  indexRoom : (indexBytes d.index).length ≤ 30 * e.previousPageNumber.toNat
  bounded : ∀ entry ∈ d.index, entry.2.1 < 2 ^ 64 ∧ entry.2.2 < 2 ^ 64

/-- Every block in the LZ4 block format is decoded, into a buffer of the right size. -/
def Primitives.DecodesBlocks (P : Primitives) : Prop :=
  ∀ block out, Lz4.Block block out → P.decompressInto block out.length = .ok out

/-- The frame that the encoder wrote for a page is decoded to the page, and the decoder still
follows. -/
theorem Follows.decodePage {P : Primitives} (hP : P.DecodesBlocks) {d : Decoder}
    (hd : Follows e d) (h : e.encodePage P page data = .ok (entry, e')) :
    ∃ frame, e'.writer.bytes = e.writer.bytes ++ frame ∧ ∀ rest, d.rest = frame ++ rest →
      ∃ d', d.decodePage P e.header.pageSize.toNat
          = .ok (some (⟨page.pgno, page.flags ||| pageHeaderFlagSize⟩, data), d') ∧
        Follows e' d' ∧ d'.rest = rest ∧
        d'.replicaIndex = d.replicaIndex.map (· ++ [entry]) ∧
        d'.rollingChecksum = if e.header.isSnapshot && !e.header.noChecksum then
          Checksum.flag ||| (d.rollingChecksum ^^^ entry.checksum) else d.rollingChecksum := by
  obtain ⟨hcheck, block, compressor, hcompress, hlen, rfl, rfl⟩ := encodePage_ok h
  obtain ⟨-, -, hcommit, hdata, hvalid, hlock, hlt, hsnapshot⟩ :=
    checkPage_ok hd.pageSize hcheck
  refine ⟨frame page block, rfl, fun rest hrest => ?_⟩
  -- the block stands for the page and fits
  obtain ⟨block', compressor', hcompress', hblock⟩ := e.compressor.compress_block data
  rw [hcompress] at hcompress'
  cases hcompress'
  have hbound := Lz4Block.Compressor.length_compress_le hcompress
  have hoffset : d.consumed.length = e.bytesWritten := by rw [hd.consumed, hd.written]
  rw [← hd.header] at hcommit hlock hsnapshot hdata ⊢
  rw [← hd.previous] at hlt hsnapshot
  have hpage := decodePage_frame hd.state hrest hdata hlen hbound (hP block data hblock) hvalid
    hcommit hlock hlt hsnapshot
  rw [hoffset] at hpage
  have hsize : (frame page block).length ≤ 2 ^ 17 := by
    have := (isValidPageSize_bounds hd.pageSize).2
    rw [hd.header] at hdata
    simp only [frame, length_append, PageHeader.length_marshal, pageHeaderSize, Bytes.length_be]
    unfold Lz4Block.compressBound at hbound
    omega
  have hroom := hd.room
  rw [hd.previous] at hlt
  have hwrite := hd.atEnd.writeAll (writeUvarint page.pgno.toNat
    ++ (writeUvarint e.bytesWritten ++ writeUvarint (frame page block).length))
  have hnew : e.bytesWritten < 2 ^ 64 ∧ (frame page block).length < 2 ^ 64 := by
    have := e.previousPageNumber.toNat_lt
    simp only [headerSize] at hroom
    omega
  have hvarint : ∀ v, v < 2 ^ 64 → (writeUvarint v).length ≤ 10 := fun v hv =>
    length_writeUvarint_le (by decide) (hv.trans (by decide))
  refine ⟨_, hpage, ?_, rfl, rfl, rfl⟩
  exact {
    consumed := by simp only [Decoder.passed, hd.consumed]
    hashed := by simp only [Decoder.passed, hd.hashed]
    header := rfl
    state := hd.state
    previous := by simp [Decoder.previous, Decoder.passed]
    index := by
      refine Eq.trans ?_ hwrite.1.symm
      rw [← hd.index]
      simp [indexBytes, Decoder.passed]
    atEnd := hwrite.2
    written := by simp only [length_append, hd.written]
    pageSize := hd.header ▸ hd.pageSize
    room := by dsimp only; omega
    indexRoom := by
      have hindexRoom := hd.indexRoom
      have h₁ := hvarint page.pgno.toNat (page.pgno.toNat_lt.trans (by decide))
      have h₂ := hvarint e.bytesWritten hnew.1
      have h₃ := hvarint (frame page block).length hnew.2
      simp only [indexBytes, Decoder.passed, flatMap_append, flatMap_singleton,
        length_append] at hindexRoom ⊢
      omega
    bounded := by
      intro x hx
      rcases mem_append.1 hx with hx | hx
      · exact hd.bounded x hx
      · rw [mem_singleton.1 hx]
        exact hnew }

/-- The rolling checksum after some pages. -/
def rolled (header : Header) (rolling : UInt64) (checksums : List UInt64) : UInt64 :=
  if header.isSnapshot && !header.noChecksum then
    checksums.foldl (fun rolling checksum => Checksum.flag ||| (rolling ^^^ checksum)) rolling
  else rolling

/-- The frames of a file are decoded to its pages up to the end marker, and the decoder follows to
the end. -/
theorem Follows.decodePages (hP : P.DecodesBlocks) {d : Decoder}
    (hd : Follows e d) (h : e.encodePages P pages = .ok (entries, e')) {frames rest : Bytes}
    (hframes : e'.writer.bytes = e.writer.bytes ++ frames)
    (hrest : d.rest = frames ++ (List.replicate pageHeaderSize 0 ++ rest)) :
    ∃ d', Follows e' d' ∧
      d.decodePages P e.header.pageSize.toNat = .ok (pages.map fun page =>
        (⟨page.1.pgno, page.1.flags ||| pageHeaderFlagSize⟩, page.2), d'.ended rest) ∧
      d'.replicaIndex = d.replicaIndex.map (· ++ entries) ∧
      d'.rollingChecksum
        = rolled e.header d.rollingChecksum (entries.map EncodedPage.checksum) := by
  induction pages generalizing e d entries frames with
  | nil =>
    cases h
    rw [self_eq_append_right.1 hframes, nil_append] at hrest
    refine ⟨d, hd, ?_, ?_, ?_⟩
    · rw [← hd.header]
      rw [decodePages_eq, decodePage_end hd.state hrest]
      rfl
    · cases d.replicaIndex <;> simp
    · simp [rolled]
  | cons page pages ih =>
    obtain ⟨entry, e₁, entries, hpage, hpages, rfl⟩ := encodePages_cons h
    obtain ⟨frame, hframe, hdecode⟩ := hd.decodePage hP hpage
    obtain ⟨-, -, -, ⟨frames₁, hframes₁⟩, -⟩ := encodePages_ok hpages
    rw [hframes₁, hframe, append_assoc, append_cancel_left_eq] at hframes
    subst hframes
    rw [append_assoc] at hrest
    obtain ⟨d₁, hone, hd₁, hrest₁, hindex₁, hrolling₁⟩ := hdecode _ hrest
    have hheader : e₁.header = e.header := by
      obtain ⟨-, -, -, -, -, -, rfl⟩ := encodePage_ok hpage
      rfl
    obtain ⟨d', hd', hall, hindex, hrolling⟩ := ih hd₁ hpages hframes₁ hrest₁
    rw [hheader] at hall hrolling
    refine ⟨d', hd', ?_, ?_, ?_⟩
    · rw [decodePages_eq, hone]
      exact bind_eq_ok.2 ⟨_, rfl, bind_eq_ok.2 ⟨_, hall, rfl⟩⟩
    · rw [hindex, hindex₁]
      cases d.replicaIndex <;> simp
    · rw [hrolling, hrolling₁]
      unfold rolled
      split <;> simp

/-! ## The footer -/

theorem Decoder.Footer.readExact_append {bytes rest hashed : Bytes} {length : Nat}
    (h : bytes.length = length) :
    Footer.readExact ⟨bytes ++ rest, hashed⟩ length = .ok (bytes, ⟨rest, hashed⟩) := by
  subst h
  simp [readExact, pure, Except.pure]

/-- A footer with the index the decoder has seen, and with a trailer that fits the header, the CRC
and, for a snapshot, the pages. -/
theorem Decoder.closeFooter_ok {P : Primitives} {d : Decoder} {trailer : Trailer}
    {index : Bytes} (hindex : index = indexBytes d.index ++ [0])
    (hrest : d.rest = index ++ (Bytes.be 8 index.length ++ trailer.marshal))
    (hbounded : ∀ entry ∈ d.index, entry.2.1 < 2 ^ 64 ∧ entry.2.2 < 2 ^ 64)
    (hlen : index.length < 2 ^ 64) (hvalid : trailer.validate d.header = .ok ())
    (hlast : d.header.isSnapshot = true → d.previous
      = if d.header.commit.toNat = lockPgno d.header.pageSize then d.header.commit.toNat - 1
        else d.header.commit.toNat)
    (hfile : trailer.fileChecksum = Checksum.flag ||| P.crc64 (d.hashed ++ (index
      ++ (Bytes.be 8 index.length ++ Bytes.be 8 trailer.postApplyChecksum.toNat))))
    (hrolling : d.header.isSnapshot = true → d.header.noChecksum = false →
      d.rollingChecksum = trailer.postApplyChecksum) :
    ∃ d', d.closeFooter P = .ok d' ∧ d'.state = .closed ∧ d'.header = d.header ∧
      d'.trailer = trailer ∧ d'.consumed = d.consumed ++ d.rest ∧
      d'.replicaIndex = d.replicaIndex := by
  have hzero : writeUvarint 0 = [0] := by rw [writeUvarint]; rfl
  have hsize : Bytes.ofBe (Bytes.be 8 index.length) = index.length := Bytes.ofBe_be hlen
  have hpost : trailer.marshal.take 8 = Bytes.be 8 trailer.postApplyChecksum.toNat :=
    take_left' (Bytes.length_be _ _)
  have hplace : (d.header.isSnapshot && d.previous
      != if d.header.commit.toNat = lockPgno d.header.pageSize then d.header.commit.toNat - 1
        else d.header.commit.toNat) = false := by
    cases hs : d.header.isSnapshot with
    | false => rfl
    | true => simpa using hlast hs
  have hroll : (d.header.isSnapshot && !d.header.noChecksum
      && d.rollingChecksum != trailer.postApplyChecksum) = false := by
    cases hs : d.header.isSnapshot with
    | false => rfl
    | true =>
      cases hn : d.header.noChecksum with
      | true => rfl
      | false => simpa using hrolling hs hn
  have hread : d.index.foldlM Footer.expectEntry (⟨d.rest, d.hashed⟩, 0) >>= (Footer.expect · 0)
      = .ok (⟨Bytes.be 8 index.length ++ trailer.marshal, d.hashed ++ index⟩, index.length) := by
    rw [hrest, hindex, append_assoc, Footer.foldlM_expectEntry hbounded, ok_bind,
      ← hzero, Footer.expect_writeUvarint (by decide), Nat.zero_add, append_assoc, length_append]
  unfold closeFooter
  rw [← bind_assoc, hread, ok_bind]
  dsimp only
  rw [Footer.readExact_append (Bytes.length_be _ _), ok_bind]
  dsimp only
  rw [hsize, bne_self_eq_false, reject_false, ok_bind, hplace, reject_false, ok_bind]
  have htrailer := @Footer.readExact_append trailer.marshal [] (d.hashed ++ index) _
    (Trailer.length_marshal trailer)
  rw [append_nil] at htrailer
  rw [htrailer, ok_bind]
  dsimp only
  rw [Trailer.parse_marshal, ok_bind, hvalid, ok_bind, hpost, append_assoc,
    append_assoc, ← hfile, bne_self_eq_false, hroll]
  exact ⟨_, rfl, rfl, rfl, rfl, rfl, rfl⟩

/-! ## The whole file -/

/-- A fresh decoder on a file follows the encoder that has written its header. -/
theorem decodeHeader_follows {e e' : Encoder} {header : Header} (hfresh : e.writer.bytes = [])
    (hhashed : e.hashed = []) (hwritten : e.bytesWritten = 0) (hprevious : e.previousPageNumber = 0)
    (hindex : e.index.contents = []) (hatEnd : e.index.AtEnd) (h : e.encodeHeader header = .ok e')
    (rest : Bytes) (replicaIndex : Option (List EncodedPage)) :
    ∃ d, decodeHeader { rest := header.marshal ++ rest, replicaIndex } = .ok d ∧
      Follows e' d ∧ d.rest = rest ∧ d.replicaIndex = replicaIndex ∧
      d.rollingChecksum = if header.noChecksum then 0 else Checksum.flag := by
  obtain ⟨hvalid, rfl⟩ := encodeHeader_ok h
  obtain ⟨hversion, hsize⟩ := Header.validate_ok hvalid
  have hread := @readExact_append { rest := header.marshal ++ rest, replicaIndex } _ _ _ rfl
    header.length_marshal
  refine ⟨{
    consumed := header.marshal
    rest
    header
    hashed := header.marshal
    rollingChecksum := if header.noChecksum then 0 else Checksum.flag
    state := .pages
    replicaIndex }, ?_, ?_, rfl, rfl, rfl⟩
  · unfold decodeHeader
    rw [hread]
    simp only [bne_self_eq_false, reject_false, ok_bind, Header.parse_marshal hversion, hvalid]
    rfl
  · exact {
      consumed := by simp [wrote, hfresh]
      hashed := by simp [wrote, hhashed]
      header := rfl
      state := rfl
      previous := by simp [Decoder.previous, wrote, hprevious]
      index := by simp [indexBytes, wrote, hindex]
      atEnd := hatEnd
      written := by simp [wrote, hfresh, hwritten]
      pageSize := hsize
      room := by simp [wrote, hwritten]
      indexRoom := by simp [indexBytes]
      bounded := nofun }

/-- The rolling checksum of a snapshot is the flagged exclusive or of the checksums of its pages. -/
theorem foldl_flag_xor (acc : UInt64) (checksums : List UInt64) :
    checksums.foldl (fun rolling checksum => Checksum.flag ||| (rolling ^^^ checksum))
        (Checksum.flag ||| acc)
      = Checksum.flag ||| checksums.foldl (· ^^^ ·) acc := by
  induction checksums generalizing acc with
  | nil => rfl
  | cons checksum checksums ih => rw [foldl_cons, foldl_cons, flag_xor, ih]

/-- The last page of a file that has all its pages: the largest page number but for the lock
page. -/
theorem last_eq {pages : List (PageHeader × Bytes)}
    (hall : ∀ page ∈ pages, page.1.pgno.toNat ≤ last)
    (hlast : last = 0 ∨ last ≤ commit ∧ last ≠ lock)
    (hcomplete : ∀ n, 0 < n → n ≤ commit → n ≠ lock → ∃ page ∈ pages, page.1.pgno.toNat = n) :
    last = if commit = lock then commit - 1 else commit := by
  have hle : ∀ n, 0 < n → n ≤ commit → n ≠ lock → n ≤ last := by
    intro n hpos hn hne
    obtain ⟨page, hpage, rfl⟩ := hcomplete n hpos hn hne
    exact hall page hpage
  split
  · next h =>
    by_cases hzero : commit - 1 = 0
    · omega
    · have := hle (commit - 1) (by omega) (by omega) (by omega)
      omega
  · next h =>
    by_cases hzero : commit = 0
    · omega
    · have := hle commit (by omega) le_rfl h
      omega

/-- What the encoder wrote for a whole file the decoder accepts, and it has seen the same header,
pages, trailer and index. -/
theorem decode_encodeFile {P : Primitives} (hP : P.DecodesBlocks) {e e' : Encoder} {header : Header}
    {pages : List (PageHeader × Bytes)}
    (hfresh : e.writer.bytes = []) (hhashed : e.hashed = []) (hwritten : e.bytesWritten = 0)
    (hprevious : e.previousPageNumber = 0) (hindex : e.index.contents = []) (hatEnd : e.index.AtEnd)
    (h : e.encodeFile P header pages post = .ok (entries, e'))
    (hcomplete : header.isSnapshot = true → ∀ n, 0 < n → n ≤ header.commit.toNat →
      n ≠ lockPgno header.pageSize → ∃ page ∈ pages, page.1.pgno.toNat = n)
    (hpost : header.isSnapshot = true → post = Checksum.flag
      ||| (pages.map fun page => P.checksumPage page.1.pgno page.2).foldl (· ^^^ ·) 0)
    (replicaIndex : Option (List EncodedPage)) :
    ∃ d, Decoder.decode P { rest := e'.writer.bytes, replicaIndex } = .ok (pages.map fun page =>
        (⟨page.1.pgno, page.1.flags ||| pageHeaderFlagSize⟩, page.2), d) ∧
      d.state = .closed ∧ d.header = header ∧ d.trailer = e'.trailer ∧
      d.consumed = e'.writer.bytes ∧ d.replicaIndex = replicaIndex.map (· ++ entries) := by
  obtain ⟨e₁, e₂, hheader, hpages, hclose⟩ := encodeFile_parts h
  obtain ⟨hvalid, he₁⟩ := encodeHeader_ok hheader
  have hsize := (Header.validate_ok hvalid).2
  have hheader₁ : e₁.header = header := by rw [he₁]; rfl
  have hbytes₁ : e₁.writer.bytes = header.marshal := by
    rw [he₁]
    simp [wrote, hfresh]
  have hprevious₁ : e₁.previousPageNumber.toNat = 0 := by
    rw [he₁]
    simp [wrote, hprevious]
  -- the parts of the file
  obtain ⟨hheader₂, -, hatEnd₂, ⟨frames, hframes⟩, hchecksums⟩ := encodePages_ok hpages
  obtain ⟨htrailer, hvalid', hbytes, -⟩ := close_ok (hatEnd₂ (by rw [he₁]; exact hatEnd)) hclose
  rw [hframes, hbytes₁] at hbytes
  unfold footer at htrailer hbytes
  generalize hspool : e₂.index.contents ++ [0] = index at htrailer hbytes
  simp only [append_assoc] at htrailer hbytes
  obtain ⟨-, hall, hlast, -⟩ := encodePages_numbers (by rw [hheader₁]; exact hsize) hpages
  rw [hheader₁] at hheader₂ hlast
  -- the decoder reads them one after another
  obtain ⟨d₁, hdecode₁, hd₁, hrest₁, hindex₁, hrolling₁⟩ := decodeHeader_follows hfresh hhashed
    hwritten hprevious hindex hatEnd hheader (frames ++ (List.replicate pageHeaderSize 0
      ++ (index ++ (Bytes.be 8 index.length ++ e'.trailer.marshal)))) replicaIndex
  obtain ⟨d₂, hd₂, hdecode₂, hindex₂, hrolling₂⟩ := hd₁.decodePages hP hpages hframes hrest₁
  have hheader' : (d₂.ended (index ++ (Bytes.be 8 index.length ++ e'.trailer.marshal))).header
      = header := hd₂.header.trans hheader₂
  obtain ⟨d₃, hclosed, hstate, hheader₃, htrailer₃, hconsumed₃, hindex₃⟩ := @closeFooter_ok P
    (d₂.ended (index ++ (Bytes.be 8 index.length ++ e'.trailer.marshal))) e'.trailer index
    (by rw [← hspool, ← hd₂.index]; rfl) rfl hd₂.bounded
    (by
      have := hd₂.indexRoom
      have := e₂.previousPageNumber.toNat_lt
      rw [← hspool, ← hd₂.index, length_append, length_singleton]
      omega)
    (by rw [hheader', ← hheader₂]; exact hvalid')
    (fun hsnapshot => by
      rw [hheader'] at hsnapshot ⊢
      exact hd₂.previous.trans (last_eq hall (hlast.imp_left fun h => by rw [h, hprevious₁])
        (hcomplete hsnapshot)))
    (by rw [htrailer]; simp [Decoder.ended, Decoder.update, Decoder.took, hd₂.hashed])
    (fun hsnapshot hchecksum => by
      rw [hheader'] at hsnapshot hchecksum
      refine hrolling₂.trans ?_
      rw [hrolling₁, hheader₁, htrailer, hpost hsnapshot, hchecksums, rolled, hsnapshot, hchecksum]
      exact foldl_flag_xor 0 _)
  have hclose' : (d₂.ended (index ++ (Bytes.be 8 index.length ++ e'.trailer.marshal))).close P
      = .ok d₃ := hclosed
  rw [← hd₁.header] at hdecode₂
  refine ⟨d₃, bind_eq_ok.2 ⟨d₁, ?_, bind_eq_ok.2 ⟨_, hdecode₂, bind_eq_ok.2
    ⟨d₃, hclose', rfl⟩⟩⟩, hstate, hheader₃.trans hheader', htrailer₃, hconsumed₃.trans ?_, ?_⟩
  · rw [hbytes]
    exact hdecode₁
  · rw [hbytes]
    simp [Decoder.ended, Decoder.update, Decoder.took, hd₂.consumed, hframes, hbytes₁]
  · exact hindex₃.trans (hindex₂.trans (by rw [hindex₁]))

/-- Encoding a file and decoding it gives the file back. For a header that validates and pages and a
post checksum that the encoder accepts, and for a snapshot with all its pages whose post checksum is
the flagged exclusive or of theirs: the decoder accepts the bytes, with the same header, page
numbers, pages and trailer, its verified index lists the entries the encoder returned, and an
encoder that keeps its index elsewhere writes the same bytes. -/
theorem decode_encode {P : Primitives} (hP : P.DecodesBlocks) {limit : Option Nat}
    {index : Option SpoolFile} (hindex : index = none ∨ index = some {}) {header : Header}
    {pages : List (PageHeader × Bytes)} {post : UInt64} {entries : List EncodedPage}
    {e : Encoder} (h : (newBlockWithIndex ⟨[], limit⟩ index).encodeFile P header pages post
      = .ok (entries, e))
    (hcomplete : header.isSnapshot = true → ∀ n, 0 < n → n ≤ header.commit.toNat →
      n ≠ lockPgno header.pageSize → ∃ page ∈ pages, page.1.pgno.toNat = n)
    (hpost : header.isSnapshot = true → post = Checksum.flag
      ||| (pages.map fun page => P.checksumPage page.1.pgno page.2).foldl (· ^^^ ·) 0) :
    P.decodeReader e.writer.bytes = .ok (⟨header, e.trailer⟩,
        pages.map (fun page => (page.1.pgno, page.2)), e.writer.bytes.length,
        P.blake3 e.writer.bytes) ∧
      P.inspectReaderWithIndex e.writer.bytes = .ok (⟨header, e.trailer⟩, e.writer.bytes.length,
        P.blake3 e.writer.bytes, entries) ∧
      ∀ index', index' = none ∨ index' = some {} →
        ∃ e', (newBlockWithIndex ⟨[], limit⟩ index').encodeFile P header pages post
          = .ok (entries, e') ∧ e'.writer.bytes = e.writer.bytes := by
  have hnew : ∀ index : Option SpoolFile, index = none ∨ index = some {} →
      (newBlockWithIndex ⟨[], limit⟩ index).index.contents = [] ∧
        (newBlockWithIndex ⟨[], limit⟩ index).index.AtEnd := by
    rintro index (rfl | rfl)
    · exact ⟨rfl, trivial⟩
    · exact ⟨rfl, rfl⟩
  obtain ⟨hempty, hatEnd⟩ := hnew index hindex
  have hdecode := decode_encodeFile hP rfl rfl rfl rfl hempty hatEnd h hcomplete hpost
  refine ⟨?_, ?_, fun index' hindex' => ?_⟩
  · obtain ⟨d, hd, hstate, rfl, htrailer, hconsumed, -⟩ := hdecode none
    simp only [Primitives.decodeReader, hd, Decoder.artifact, hstate, htrailer, hconsumed,
      bne_self_eq_false, reject_false, ok_bind, pure, Except.pure, map_map]
    rfl
  · obtain ⟨d, hd, hstate, rfl, htrailer, hconsumed, hentries⟩ := hdecode (some [])
    simp only [Primitives.inspectReaderWithIndex, hd, Decoder.artifact, intoReplicaIndex,
      hstate, htrailer, hconsumed, hentries, bne_self_eq_false, reject_false, ok_bind,
      pure, Except.pure, Option.map_some, nil_append]
  · obtain ⟨hempty', hatEnd'⟩ := hnew index' hindex'
    obtain ⟨j, hj⟩ := encodeFile_withIndex hatEnd hatEnd' (hempty'.trans hempty.symm) h
    exact ⟨_, hj, rfl⟩

/-! ## A sample file -/

/-- Sample primitives: block decoding as the format has it, and stand-ins for the checksums. -/
def samplePrimitives : Primitives where
  crc64 bytes := UInt64.ofNat (Bytes.ofLe bytes)
  blake3 bytes := ⟨(bytes ++ List.replicate 32 0).take 32, by simp⟩
  decompressInto block _ := (Lz4.decode block).elim (.error .other) .ok
  decodeFrame _ _ := .error .other

theorem samplePrimitives_decodesBlocks : samplePrimitives.DecodesBlocks :=
  fun block out hblock => by
  simp only [samplePrimitives, Lz4.decode_of_block hblock, Option.elim_some]

/-- A snapshot of one page. -/
def samplePages : List (PageHeader × Bytes) := [(⟨1, 0⟩, List.replicate 512 7)]

def sampleHeader : Header :=
  { version := ltxVersion, pageSize := 512, commit := 1, minTxid := 1, maxTxid := 1 }

def samplePost : UInt64 :=
  Checksum.flag ||| (0 ^^^ samplePrimitives.checksumPage 1 (List.replicate 512 7))

/-- The sample file goes through the encoder and back. -/
theorem decode_encode_sample : ∃ entries e,
    (newBlockWithIndex ⟨[], none⟩ none).encodeFile samplePrimitives sampleHeader samplePages
      samplePost = .ok (entries, e) ∧
    samplePrimitives.decodeReader e.writer.bytes = .ok (⟨sampleHeader, e.trailer⟩,
      [(1, List.replicate 512 7)], e.writer.bytes.length, samplePrimitives.blake3
        e.writer.bytes) := by
  obtain ⟨r, h⟩ : ∃ r, (newBlockWithIndex ⟨[], none⟩ none).encodeFile samplePrimitives sampleHeader
      samplePages samplePost = .ok r := exists_ok (by decide +kernel)
  refine ⟨r.1, r.2, h, (decode_encode samplePrimitives_decodesBlocks (.inl rfl) h
    (fun _ n hpos hn _ => ?_) fun _ => rfl).1⟩
  have hone : n ≤ 1 := hn
  exact ⟨_, mem_singleton_self _, show 1 = n by omega⟩

end Cellule
