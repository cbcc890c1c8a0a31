import Cellule.Ltx.Codec
import Cellule.Ltx.Lz4Sound

/-!
# What the encoder writes

The varints of the index, and for each call of the encoder what it did when it succeeded: which
bytes went to the file, to the CRC and to the index, wherever the index is kept.
-/

namespace Cellule

open Except List

/-! ## Varints -/

/-- Bits set above a number add to it. -/
theorem or_shiftLeft_eq (h : a < 2 ^ k) : a ||| b <<< k = a + b * 2 ^ k := by
  rw [Nat.or_comm, ← Nat.shiftLeft_add_eq_or_of_lt h, Nat.shiftLeft_eq, Nat.add_comm]

/-- A byte with the continuation bit set. -/
theorem toNat_or_continue (b : UInt8) : (b ||| 0x80).toNat = b.toNat % 128 + 128 := by
  have hb : b.toNat < 256 := b.toNat_lt
  have hset : b.toNat % 128 ||| 1 <<< 7 = b.toNat % 128 + 128 := or_shiftLeft_eq (by omega)
  rw [UInt8.toNat_or, show (0x80 : UInt8).toNat = 1 <<< 7 from rfl, ← hset]
  rcases Nat.lt_or_ge b.toNat 128 with h | h
  · rw [Nat.mod_eq_of_lt h]
  · -- the bit was set already
    have hbit : b.toNat = b.toNat % 128 ||| 1 <<< 7 := by omega
    exact (congrArg (· ||| 1 <<< 7) hbit).trans (by rw [Nat.or_assoc, Nat.or_self])

theorem toNat_and_payload (b : UInt8) : (b &&& 0x7f).toNat = b.toNat % 128 := by
  rw [UInt8.toNat_and]
  exact Nat.and_two_pow_sub_one_eq_mod _ 7

variable {v : Nat}

/-- A varint is read back from any place of the loop that has room for it. -/
theorem readUvarintFrom_writeUvarint (rest : Bytes) (hindex : index ≤ 9)
    (hvalue : value < 2 ^ (index * 7)) (hv : v < 2 ^ (64 - index * 7)) :
    readUvarintFrom (10 - index) index value (writeUvarint v ++ rest)
      = .ok (value + v * 2 ^ (index * 7), index + (writeUvarint v).length, rest) := by
  induction v using writeUvarint.induct generalizing index value with
  | case1 v hge ih =>
    have hlt : index < 9 := by
      by_contra hnot
      rw [show 64 - index * 7 = 1 by omega] at hv
      omega
    have hshift : v / 2 ^ 7 < 2 ^ (64 - (index + 1) * 7) := by
      rw [Nat.div_lt_iff_lt_mul (by decide), ← Nat.pow_add]
      rwa [show 64 - (index + 1) * 7 + 7 = 64 - index * 7 by omega]
    have hpow : 2 ^ ((index + 1) * 7) = 2 ^ (index * 7) * 128 := by
      rw [Nat.add_mul, Nat.pow_add]
    have hbyte : (UInt8.ofNat v ||| 0x80).toNat = v % 128 + 128 := by
      rw [toNat_or_continue, UInt8.toNat_ofNat']
      omega
    have hnext : value + v % 128 * 2 ^ (index * 7) < 2 ^ ((index + 1) * 7) := by
      have : v % 128 * 2 ^ (index * 7) ≤ 127 * 2 ^ (index * 7) :=
        Nat.mul_le_mul_right _ (by omega)
      omega
    rw [writeUvarint, if_pos hge, cons_append, show 10 - index = 10 - (index + 1) + 1 by omega,
      readUvarintFrom, if_neg ?_, toNat_and_payload, hbyte, or_shiftLeft_eq hvalue,
      show (v % 128 + 128) % 128 = v % 128 by omega, ih (by omega) hnext hshift, length_cons]
    · have hsum : v * 2 ^ (index * 7)
          = v % 128 * 2 ^ (index * 7) + v / 128 * (2 ^ (index * 7) * 128) := by
        conv_lhs => rw [← Nat.mod_add_div v 128, Nat.add_mul]
        rw [Nat.mul_comm 128, Nat.mul_assoc, Nat.mul_comm 128]
      rw [hpow, hsum, Nat.add_assoc, Nat.add_assoc, Nat.add_comm 1]
      rfl
    · rw [UInt8.lt_iff_toNat_lt, hbyte]
      simp
  | case2 v hlt =>
    have hbyte : (UInt8.ofNat v).toNat = v := by
      rw [UInt8.toNat_ofNat']
      omega
    rw [writeUvarint, if_neg hlt, singleton_append,
      show 10 - index = 10 - (index + 1) + 1 by omega, readUvarintFrom, if_pos ?_, if_neg ?_, hbyte,
      or_shiftLeft_eq hvalue, length_singleton]
    · rintro ⟨rfl, hbig⟩
      rw [gt_iff_lt, UInt8.lt_iff_toNat_lt, hbyte] at hbig
      simp at hbig hv
      omega
    · rw [UInt8.lt_iff_toNat_lt, hbyte]
      simpa using hlt

/-- A varint of seven times `k` bits takes `k` bytes at most. -/
theorem length_writeUvarint_le (hk : 0 < k) (hv : v < 2 ^ (7 * k)) :
    (writeUvarint v).length ≤ k := by
  induction v using writeUvarint.induct generalizing k with
  | case1 v hge ih =>
    have hk' : 0 < k - 1 := by
      by_contra hnot
      rw [show k = 1 by omega] at hv
      omega
    have hnext : v / 2 ^ 7 < 2 ^ (7 * (k - 1)) := by
      rw [Nat.div_lt_iff_lt_mul (by decide), ← Nat.pow_add]
      rwa [show 7 * (k - 1) + 7 = 7 * k by omega]
    have := ih hk' hnext
    rw [writeUvarint, if_pos hge, length_cons]
    omega
  | case2 v hlt =>
    rw [writeUvarint, if_neg hlt]
    exact hk

/-- The varints of the footer are read back, counted and hashed. -/
theorem Decoder.Footer.expect_writeUvarint (hv : v < 2 ^ 64) (rest hashed : Bytes) (n : Nat) :
    Footer.expect (⟨writeUvarint v ++ rest, hashed⟩, n) v
      = .ok (⟨rest, hashed ++ writeUvarint v⟩, n + (writeUvarint v).length) := by
  have hread := readUvarintFrom_writeUvarint rest (Nat.zero_le 9)
    (show 0 < 2 ^ (0 * 7) by decide) hv
  unfold expect readUvarint
  simp only [Nat.sub_zero, Nat.zero_add, Nat.zero_mul, Nat.pow_zero, Nat.mul_one] at hread
  simp only [hread, ok_bind, bne_self_eq_false, reject_false, take_left, pure, Except.pure]

/-! ## The index -/

/-- The index of the frames as it is written. -/
def indexBytes (index : List (UInt32 × Nat × Nat)) : Bytes :=
  index.flatMap fun entry =>
    writeUvarint entry.1.toNat ++ (writeUvarint entry.2.1 ++ writeUvarint entry.2.2)

/-- The decoder finds in the footer the index it expects. -/
theorem Decoder.Footer.foldlM_expectEntry {index : List (UInt32 × Nat × Nat)}
    (hindex : ∀ entry ∈ index, entry.2.1 < 2 ^ 64 ∧ entry.2.2 < 2 ^ 64)
    (rest hashed : Bytes) (n : Nat) :
    index.foldlM Footer.expectEntry (⟨indexBytes index ++ rest, hashed⟩, n)
      = .ok (⟨rest, hashed ++ indexBytes index⟩, n + (indexBytes index).length) := by
  induction index generalizing hashed n with
  | nil => simp [indexBytes, pure, Except.pure]
  | cons entry index ih =>
    obtain ⟨⟨hoffset, hsize⟩, hindex⟩ := forall_mem_cons.1 hindex
    have hpage : entry.1.toNat < 2 ^ 64 := entry.1.toNat_lt.trans (by decide)
    simp only [indexBytes, flatMap_cons, append_assoc] at ih ⊢
    rw [foldlM_cons, expectEntry]
    simp only [foldlM_cons, foldlM_nil, expect_writeUvarint hpage,
      expect_writeUvarint hoffset, expect_writeUvarint hsize, ok_bind, pure, Except.pure,
      ih hindex, append_assoc, length_append, Nat.add_assoc]

namespace EncoderIndex

/-- The bytes of the index, wherever they are kept. -/
def contents : EncoderIndex → Bytes
  | memory index => index
  | file index => index.contents

/-- The file's offset stands at its end, so that the next write appends. -/
def AtEnd : EncoderIndex → Prop
  | memory _ => True
  | file index => index.offset = index.contents.length

theorem len_eq (i : EncoderIndex) : i.len = i.contents.length := by
  cases i <;> rfl

/-- A write to the index appends. -/
theorem AtEnd.writeAll {i : EncoderIndex} (h : i.AtEnd) (bytes : Bytes) :
    (i.writeAll bytes).contents = i.contents ++ bytes ∧ (i.writeAll bytes).AtEnd := by
  cases i with
  | memory index => exact ⟨rfl, trivial⟩
  | file index =>
    have hoffset : index.offset = index.contents.length := h
    simp [EncoderIndex.writeAll, contents, AtEnd, SpoolFile.writeAll, hoffset]

/-- A read inside the index gives its bytes and leaves them. -/
theorem readExactAt_eq {i : EncoderIndex} {offset length : Nat}
    (h : offset + length ≤ i.contents.length) :
    ∃ j, i.readExactAt offset length = .ok ((i.contents.drop offset).take length, j) ∧
      j.contents = i.contents := by
  cases i with
  | memory index =>
    refine ⟨memory index, ?_, rfl⟩
    have : ¬index.length < offset + length := Nat.not_lt.2 h
    simp [readExactAt, contents, this, pure, Except.pure]
  | file index =>
    refine ⟨file { index with offset := offset + length }, ?_, rfl⟩
    have : ¬index.contents.length < offset + length := Nat.not_lt.2 h
    simp [readExactAt, SpoolFile.readExactAt, contents, this, pure, Except.pure]

end EncoderIndex

/-! ## What the encoder's calls did -/

theorem Sink.writeAll_ok {s s' : Sink} {bytes : Bytes} (h : s.writeAll bytes = .ok s') :
    s' = { s with bytes := s.bytes ++ bytes } := by
  obtain ⟨_, -, h⟩ := bind_eq_ok.1 h
  cases h
  rfl

/-- A write that a bounded sink took is within its limit. -/
theorem Sink.length_writeAll_le {s s' : Sink} {bytes : Bytes} (hpos : 0 < bytes.length)
    (h : s.writeAll bytes = .ok s') (limit : Nat) (hlimit : s.limit = some limit) :
    s'.bytes.length ≤ limit := by
  obtain ⟨hroom, h⟩ := reject_bind_eq_ok.1 h
  cases h
  rw [hlimit, Option.any_some, decide_eq_false_iff_not] at hroom
  simp only [length_append]
  omega

namespace Encoder

variable {P : Primitives} {e e' : Encoder}

/-- The encoder after it has written bytes that count into the CRC. -/
def wrote (e : Encoder) (bytes : Bytes) : Encoder :=
  { e with
    writer := { e.writer with bytes := e.writer.bytes ++ bytes }
    hashed := e.hashed ++ bytes
    bytesWritten := e.bytesWritten + bytes.length }

theorem writeHashed_ok {bytes : Bytes} (h : e.writeHashed bytes = .ok e') : e' = e.wrote bytes := by
  obtain ⟨writer, hwriter, h⟩ := bind_eq_ok.1 h
  cases Sink.writeAll_ok hwriter
  cases h
  rfl

theorem wrote_wrote (e : Encoder) (a b : Bytes) : (e.wrote a).wrote b = e.wrote (a ++ b) := by
  simp [wrote, Nat.add_assoc]

/-- The encoder with its index kept elsewhere. -/
def withIndex (e : Encoder) (index : EncoderIndex) : Encoder := { e with index }

/-- The index is copied whole, in however many pieces. -/
theorem copyIndex_ok {copied : Nat} (hcopied : copied ≤ e.index.contents.length)
    (h : e.copyIndex e.index.contents.length copied = .ok e') :
    ∃ j, e' = (e.wrote (e.index.contents.drop copied)).withIndex j := by
  generalize hn : e.index.contents.length = n at *
  induction e, copied using copyIndex.induct n with
  | case1 e copied hlt length ih =>
    obtain ⟨j, hread, hj⟩ := EncoderIndex.readExactAt_eq
      (show copied + length ≤ e.index.contents.length by omega)
    rw [copyIndex, if_pos hlt] at h
    dsimp only at h
    rw [hread, ok_bind] at h
    obtain ⟨e₁, hwrite, h⟩ := bind_eq_ok.1 h
    cases writeHashed_ok hwrite
    obtain ⟨k, hk⟩ := ih _ (hj ▸ hn) (by omega) h
    have hpieces : (e.index.contents.drop copied).take length ++ j.contents.drop (copied + length)
        = e.index.contents.drop copied := by
      rw [hj, ← drop_drop, take_append_drop]
    refine ⟨k, hk.trans ?_⟩
    show ((e.wrote _).wrote (j.contents.drop (copied + length))).withIndex k = _
    rw [wrote_wrote, hpieces]
  | case2 e copied hge =>
    rw [copyIndex, if_neg hge] at h
    cases h
    rw [drop_eq_nil_of_le (by omega)]
    exact ⟨e'.index, by simp [wrote, withIndex]⟩

/-- The frame of a page: its header, the size of its block, and the block. -/
def frame (page : PageHeader) (block : Bytes) : Bytes :=
  PageHeader.marshal ⟨page.pgno, page.flags ||| pageHeaderFlagSize⟩
    ++ (Bytes.be 4 block.length ++ block)

/-- What the CRC sees of a page: the block's place is taken by the page itself. -/
def hashedFrame (page : PageHeader) (block data : Bytes) : Bytes :=
  PageHeader.marshal ⟨page.pgno, page.flags ||| pageHeaderFlagSize⟩
    ++ (Bytes.be 4 block.length ++ data)

variable {page : PageHeader} {data : Bytes} {header : Header} {post : UInt64}
  {pages : List (PageHeader × Bytes)} {entries : List EncodedPage} {index : EncoderIndex}

/-- What a page that was accepted satisfies. Its number is the one a snapshot continues with. -/
theorem checkPage_ok (hsize : isValidPageSize e.header.pageSize = true)
    (h : e.checkPage page data = .ok ()) :
    e.headerWritten = true ∧ e.closed = false ∧ page.pgno.toNat ≤ e.header.commit.toNat ∧
      data.length = e.header.pageSize.toNat ∧ page.validate = .ok () ∧
      page.pgno.toNat ≠ lockPgno e.header.pageSize ∧
      e.previousPageNumber.toNat < page.pgno.toNat ∧
      (e.header.isSnapshot = true → page.pgno.toNat = e.previousPageNumber.toNat
        + if e.previousPageNumber.toNat = lockPgno e.header.pageSize - 1 then 2 else 1) := by
  have hlock := one_lt_lockPgno hsize
  obtain ⟨_, hfirst, h⟩ := bind_eq_ok.1 h
  obtain ⟨_, hvalid, h⟩ := bind_eq_ok.1 h
  obtain ⟨_, hne, h⟩ := bind_eq_ok.1 h
  simp only [reject_eq_ok, Bool.or_eq_false_iff, Bool.not_eq_eq_eq_not, Bool.not_false,
    decide_eq_false_iff_not, bne_eq_false_iff_eq, gt_iff_lt, UInt32.lt_iff_toNat_lt,
    Nat.not_lt] at hfirst
  simp only [reject_eq_ok, beq_eq_false_iff_ne] at hne
  obtain ⟨⟨⟨hwritten, hclosed⟩, hcommit⟩, hlen⟩ := hfirst
  refine ⟨hwritten, hclosed, hcommit, hlen, hvalid, hne, ?_⟩
  by_cases hsnapshot : e.header.isSnapshot = true
  · rw [if_pos hsnapshot, reject_bind_eq_ok] at h
    simp only [reject_eq_ok, Bool.and_eq_false_iff, beq_eq_false_iff_ne, bne_eq_false_iff_eq] at h
    obtain ⟨hzero, hnext⟩ := h
    have hone : e.previousPageNumber.toNat ≠ 0 ∨ page.pgno.toNat = 1 :=
      hzero.imp_right fun (h : page.pgno = 1) => by rw [h]; rfl
    split at hnext <;> split <;> omega
  · rw [if_neg hsnapshot, reject_eq_ok, decide_eq_false_iff_not, ge_iff_le,
      UInt32.le_iff_toNat_le] at h
    exact ⟨Nat.lt_of_not_le h, fun hs => absurd hs hsnapshot⟩

/-- What encoding a page did. -/
theorem encodePage_ok {entry : EncodedPage} (h : e.encodePage P page data = .ok (entry, e')) :
    e.checkPage page data = .ok () ∧ ∃ block compressor,
      e.compressor.compress data = .ok (block, compressor) ∧ block.length < 2 ^ 32 ∧
      entry = ⟨page.pgno, e.bytesWritten, (frame page block).length, P.blake3 (frame page block),
        P.checksumPage page.pgno data⟩ ∧
      e' = { e with
        writer := { e.writer with bytes := e.writer.bytes ++ frame page block }
        compressor
        bytesWritten := e.bytesWritten + (frame page block).length
        hashed := e.hashed ++ hashedFrame page block data
        previousPageNumber := page.pgno
        index := e.index.writeEntry page.pgno e.bytesWritten (frame page block).length } := by
  obtain ⟨_, hcheck, h⟩ := bind_eq_ok.1 h
  obtain ⟨⟨block, compressor⟩, hcompress, h⟩ := bind_eq_ok.1 h
  obtain ⟨e₁, hheader, h⟩ := bind_eq_ok.1 h
  obtain ⟨_, hlen, h⟩ := bind_eq_ok.1 h
  obtain ⟨e₂, hsize, h⟩ := bind_eq_ok.1 h
  obtain ⟨writer, hblock, h⟩ := bind_eq_ok.1 h
  cases writeHashed_ok hheader
  cases writeHashed_ok hsize
  cases Sink.writeAll_ok hblock
  simp only [reject_eq_ok, decide_eq_false_iff_not, ge_iff_le, Nat.not_le] at hlen
  cases h
  have hbytes : e.bytesWritten + pageHeaderSize + 4 + block.length
      = e.bytesWritten + (frame page block).length := by
    simp [frame, Nat.add_assoc]
  refine ⟨hcheck, block, compressor, hcompress, hlen, ?_, ?_⟩
  · simp only [wrote, Bytes.length_be, PageHeader.length_marshal, hbytes, Nat.add_sub_cancel_left]
    rfl
  · simp only [wrote, Bytes.length_be, PageHeader.length_marshal, hbytes, Nat.add_sub_cancel_left,
      append_assoc]
    rfl

/-- The header of a file. -/
theorem encodeHeader_ok (h : e.encodeHeader header = .ok e') :
    header.validate = .ok () ∧
      e' = { { e with header }.wrote header.marshal with headerWritten := true } := by
  obtain ⟨_, -, h⟩ := bind_eq_ok.1 h
  obtain ⟨_, hvalid, h⟩ := bind_eq_ok.1 h
  obtain ⟨e₁, hwrite, h⟩ := bind_eq_ok.1 h
  cases writeHashed_ok hwrite
  cases h
  exact ⟨hvalid, rfl⟩

/-- The footer up to the trailer, for an index of the bytes given. -/
def footer (index : Bytes) : Bytes :=
  List.replicate pageHeaderSize 0 ++ ((index ++ [0]) ++ Bytes.be 8 (index ++ [0]).length)

/-- What closing the file did. -/
theorem close_ok (hindex : e.index.AtEnd) (h : e.close P post = .ok e') :
    e'.trailer = ⟨post, Checksum.flag
      ||| P.crc64 (e.hashed ++ footer e.index.contents ++ Bytes.be 8 post.toNat)⟩ ∧
      e'.trailer.validate e.header = .ok () ∧
      e'.writer.bytes = e.writer.bytes ++ (footer e.index.contents ++ e'.trailer.marshal) ∧
      e'.header = e.header ∧ ∀ limit, e.writer.limit = some limit →
        e'.writer.bytes.length ≤ limit := by
  obtain ⟨_, -, h⟩ := bind_eq_ok.1 h
  obtain ⟨e₁, hend, h⟩ := bind_eq_ok.1 h
  obtain ⟨e₂, hcopy, h⟩ := bind_eq_ok.1 h
  obtain ⟨e₃, hlength, h⟩ := bind_eq_ok.1 h
  obtain ⟨_, hvalid, h⟩ := bind_eq_ok.1 h
  obtain ⟨_, -, h⟩ := bind_eq_ok.1 h
  obtain ⟨writer, hwriter, h⟩ := bind_eq_ok.1 h
  cases h
  have hroom := Sink.length_writeAll_le (by rw [Trailer.length_marshal]; decide) hwriter
  cases Sink.writeAll_ok hwriter
  cases writeHashed_ok hend
  have hcontents : (e.index.finish).contents = e.index.contents ++ [0] := (hindex.writeAll [0]).1
  rw [EncoderIndex.len_eq] at hcopy
  obtain ⟨j, rfl⟩ := copyIndex_ok (Nat.zero_le _) hcopy
  cases writeHashed_ok hlength
  simp only [wrote, withIndex, hcontents, drop_zero, Nat.add_sub_cancel_left,
    append_assoc, footer] at hvalid hroom ⊢
  exact ⟨trivial, hvalid, trivial, trivial, hroom⟩

/-- The pages of a file, the first and the others. -/
theorem encodePages_cons {page : PageHeader × Bytes}
    (h : e.encodePages P (page :: pages) = .ok (entries, e')) :
    ∃ entry e₁ rest, e.encodePage P page.1 page.2 = .ok (entry, e₁) ∧
      e₁.encodePages P pages = .ok (rest, e') ∧ entries = entry :: rest := by
  obtain ⟨⟨entry, e₁⟩, hpage, h⟩ := bind_eq_ok.1 h
  obtain ⟨⟨rest, e₂⟩, hpages, h⟩ := bind_eq_ok.1 h
  cases h
  exact ⟨entry, e₁, rest, hpage, hpages, rfl⟩

/-- What encoding the pages of a file did: it appended to the file and to the index, and listed
every page with its checksum. -/
theorem encodePages_ok (h : e.encodePages P pages = .ok (entries, e')) :
    e'.header = e.header ∧ e'.writer.limit = e.writer.limit ∧ (e.index.AtEnd → e'.index.AtEnd) ∧
      (∃ frames, e'.writer.bytes = e.writer.bytes ++ frames) ∧
      entries.map EncodedPage.checksum
        = pages.map fun page => P.checksumPage page.1.pgno page.2 := by
  induction pages generalizing e entries with
  | nil =>
    cases h
    exact ⟨rfl, rfl, id, ⟨[], (append_nil _).symm⟩, rfl⟩
  | cons page pages ih =>
    obtain ⟨entry, e₁, rest, hpage, hpages, rfl⟩ := encodePages_cons h
    obtain ⟨-, block, compressor, -, -, rfl, rfl⟩ := encodePage_ok hpage
    obtain ⟨hheader, hlimit, hatEnd, ⟨frames, hframes⟩, hchecksums⟩ := ih hpages
    refine ⟨hheader, hlimit, fun hindex => hatEnd (hindex.writeAll _).2, ?_, ?_⟩
    · exact ⟨frame page.1 block ++ frames, by rw [hframes, append_assoc]⟩
    · rw [map_cons, map_cons, hchecksums]

/-- What the pages of an encoded file satisfy. Their numbers ascend to the last one, which is no
lock page and within the file. -/
theorem encodePages_numbers (hsize : isValidPageSize e.header.pageSize = true)
    (h : e.encodePages P pages = .ok (entries, e')) :
    e.previousPageNumber.toNat ≤ e'.previousPageNumber.toNat ∧
      (∀ page ∈ pages, page.1.pgno.toNat ≤ e'.previousPageNumber.toNat) ∧
      (e'.previousPageNumber = e.previousPageNumber ∨
        e'.previousPageNumber.toNat ≤ e.header.commit.toNat ∧
          e'.previousPageNumber.toNat ≠ lockPgno e.header.pageSize) ∧
      ∀ page ∈ pages, 0 < page.1.pgno.toNat ∧ page.1.pgno.toNat ≤ e.header.commit.toNat ∧
        page.1.pgno.toNat ≠ lockPgno e.header.pageSize ∧
        page.2.length = e.header.pageSize.toNat := by
  induction pages generalizing e entries with
  | nil =>
    cases h
    exact ⟨le_rfl, fun page hpage => absurd hpage not_mem_nil, .inl rfl,
      fun page hpage => absurd hpage not_mem_nil⟩
  | cons page pages ih =>
    obtain ⟨entry, e₁, rest, hpage, hpages, rfl⟩ := encodePages_cons h
    obtain ⟨hcheck, block, compressor, -, -, -, rfl⟩ := encodePage_ok hpage
    obtain ⟨-, -, hcommit, hlength, -, hlock, hlt, -⟩ := checkPage_ok hsize hcheck
    obtain ⟨hle, hall, hlast, heach⟩ := ih (by exact hsize) hpages
    dsimp only at hle hall hlast
    refine ⟨by omega, forall_mem_cons.2 ⟨hle, hall⟩, .inr ?_,
      forall_mem_cons.2 ⟨⟨by omega, hcommit, hlock, hlength⟩, heach⟩⟩
    rcases hlast with hlast | hlast
    · rw [hlast]
      exact ⟨hcommit, hlock⟩
    · exact hlast

/-- The parts of a file. -/
theorem encodeFile_parts (h : e.encodeFile P header pages post = .ok (entries, e')) :
    ∃ e₁ e₂, e.encodeHeader header = .ok e₁ ∧ e₁.encodePages P pages = .ok (entries, e₂) ∧
      e₂.close P post = .ok e' := by
  obtain ⟨e₁, hheader, h⟩ := bind_eq_ok.1 h
  obtain ⟨⟨entries₁, e₂⟩, hpages, h⟩ := bind_eq_ok.1 h
  obtain ⟨e₃, hclose, h⟩ := bind_eq_ok.1 h
  cases h
  exact ⟨e₁, e₂, hheader, hpages, hclose⟩

/-- What a whole file that was encoded satisfies: its header and its pages were accepted, and it is
within the limit of the sink. -/
theorem encodeFile_ok (hindex : e.index.AtEnd)
    (h : e.encodeFile P header pages post = .ok (entries, e')) :
    (∀ page ∈ pages, 0 < page.1.pgno.toNat ∧ page.1.pgno.toNat ≤ header.commit.toNat ∧
      page.1.pgno.toNat ≠ lockPgno header.pageSize ∧ page.2.length = header.pageSize.toNat) ∧
      e'.header = header ∧ e'.trailer.postApplyChecksum = post ∧
      ∀ limit, e.writer.limit = some limit → e'.writer.bytes.length ≤ limit := by
  obtain ⟨e₁, e₂, hheader, hpages, hclose⟩ := encodeFile_parts h
  obtain ⟨hvalid, rfl⟩ := encodeHeader_ok hheader
  obtain ⟨-, -, -, heach⟩ := encodePages_numbers (by exact (Header.validate_ok hvalid).2) hpages
  obtain ⟨hkept, hlimit, hatEnd, -⟩ := encodePages_ok hpages
  obtain ⟨htrailer, -, -, hsame, hbound⟩ := close_ok (hatEnd (by exact hindex)) hclose
  refine ⟨heach, hsame.trans hkept, by rw [htrailer], ?_⟩
  exact fun limit h => hbound limit (hlimit.trans h)

/-! ## Where the index is kept -/

theorem writeHashed_withIndex (index : EncoderIndex) (h : e.writeHashed bytes = .ok e') :
    (e.withIndex index).writeHashed bytes = .ok (e'.withIndex index) := by
  obtain ⟨writer, hwriter, h⟩ := bind_eq_ok.1 h
  cases h
  exact bind_eq_ok.2 ⟨writer, hwriter, rfl⟩

/-- A page is encoded the same way wherever the index is kept. -/
theorem encodePage_withIndex (index : EncoderIndex)
    (h : e.encodePage P page data = .ok (entry, e')) :
    (e.withIndex index).encodePage P page data
      = .ok (entry, e'.withIndex (index.writeEntry entry.page entry.offset entry.size)) := by
  obtain ⟨_, hcheck, h⟩ := bind_eq_ok.1 h
  obtain ⟨⟨block, compressor⟩, hcompress, h⟩ := bind_eq_ok.1 h
  obtain ⟨e₁, hheader, h⟩ := bind_eq_ok.1 h
  obtain ⟨_, hlen, h⟩ := bind_eq_ok.1 h
  obtain ⟨e₂, hsize, h⟩ := bind_eq_ok.1 h
  obtain ⟨writer, hblock, h⟩ := bind_eq_ok.1 h
  cases h
  refine bind_eq_ok.2 ⟨_, hcheck, bind_eq_ok.2 ⟨_, hcompress, bind_eq_ok.2
    ⟨_, writeHashed_withIndex index hheader, bind_eq_ok.2 ⟨_, hlen, bind_eq_ok.2
    ⟨_, writeHashed_withIndex index hsize, bind_eq_ok.2 ⟨_, hblock, rfl⟩⟩⟩⟩⟩⟩

/-- The index is copied the same way from wherever it is kept. -/
theorem copyIndex_withIndex (hsame : index.contents = e.index.contents) {copied : Nat}
    (hcopied : copied ≤ e.index.contents.length)
    (h : e.copyIndex e.index.contents.length copied = .ok e') :
    ∃ j, (e.withIndex index).copyIndex e.index.contents.length copied = .ok (e'.withIndex j) := by
  generalize hn : e.index.contents.length = n at *
  induction e, copied using copyIndex.induct n generalizing index with
  | case1 e copied hlt length =>
    rename_i ih
    obtain ⟨j, hread, hj⟩ := EncoderIndex.readExactAt_eq
      (show copied + length ≤ e.index.contents.length by omega)
    obtain ⟨k, hread', hk⟩ := EncoderIndex.readExactAt_eq
      (show copied + length ≤ index.contents.length by rw [hsame]; omega)
    rw [copyIndex, if_pos hlt] at h ⊢
    dsimp only at h
    rw [hread, ok_bind] at h
    obtain ⟨e₁, hwrite, h⟩ := bind_eq_ok.1 h
    have hwrite' := writeHashed_withIndex k hwrite
    have hindex : e₁.index = j := by rw [writeHashed_ok hwrite]; rfl
    obtain ⟨i, hi⟩ := @ih e₁ k (by rw [hindex, hk, hsame, hj]) (by rw [hindex, hj, hn]) (by omega) h
    rw [hsame] at hread'
    exact ⟨i, bind_eq_ok.2 ⟨_, hread', bind_eq_ok.2 ⟨_, hwrite', hi⟩⟩⟩
  | case2 e copied hge =>
    rw [copyIndex, if_neg hge] at h ⊢
    cases h
    exact ⟨index, rfl⟩

/-- The file is closed the same way wherever the index is kept. -/
theorem close_withIndex (hi : e.index.AtEnd) (hj : index.AtEnd)
    (hsame : index.contents = e.index.contents) (h : e.close P post = .ok e') :
    ∃ j, (e.withIndex index).close P post = .ok (e'.withIndex j) := by
  obtain ⟨_, hopen, h⟩ := bind_eq_ok.1 h
  obtain ⟨e₁, hend, h⟩ := bind_eq_ok.1 h
  obtain ⟨e₂, hcopy, h⟩ := bind_eq_ok.1 h
  obtain ⟨e₃, hlength, h⟩ := bind_eq_ok.1 h
  obtain ⟨_, hvalid, h⟩ := bind_eq_ok.1 h
  obtain ⟨_, hcommit, h⟩ := bind_eq_ok.1 h
  obtain ⟨writer, hwriter, h⟩ := bind_eq_ok.1 h
  cases h
  have hindex : e₁.index = e.index := by rw [writeHashed_ok hend]; rfl
  have hfinish : index.finish.contents = e₁.index.finish.contents := by
    rw [hindex]
    exact (hj.writeAll [0]).1.trans ((hi.writeAll [0]).1.trans (by rw [hsame])).symm
  rw [EncoderIndex.len_eq] at hcopy
  obtain ⟨j, hcopy'⟩ := copyIndex_withIndex hfinish (Nat.zero_le _) hcopy
  rw [← hfinish, ← EncoderIndex.len_eq] at hcopy'
  exact ⟨j, bind_eq_ok.2 ⟨_, hopen, bind_eq_ok.2 ⟨_, writeHashed_withIndex index hend,
    bind_eq_ok.2 ⟨_, hcopy', bind_eq_ok.2 ⟨_, writeHashed_withIndex j hlength,
    bind_eq_ok.2 ⟨_, hvalid, bind_eq_ok.2 ⟨_, hcommit, bind_eq_ok.2
    ⟨_, hwriter, rfl⟩⟩⟩⟩⟩⟩⟩⟩

/-- The pages are encoded the same way wherever the index is kept. -/
theorem encodePages_withIndex (hi : e.index.AtEnd) (hj : index.AtEnd)
    (hsame : index.contents = e.index.contents) (h : e.encodePages P pages = .ok (entries, e')) :
    ∃ j, (e.withIndex index).encodePages P pages = .ok (entries, e'.withIndex j) ∧
      e'.index.AtEnd ∧ j.AtEnd ∧ j.contents = e'.index.contents := by
  induction pages generalizing e index entries with
  | nil =>
    cases h
    exact ⟨index, rfl, hi, hj, hsame⟩
  | cons page pages ih =>
    obtain ⟨entry, e₁, rest, hpage, hpages, rfl⟩ := encodePages_cons h
    have hpage' := encodePage_withIndex index hpage
    obtain ⟨-, block, compressor, -, -, rfl, rfl⟩ := encodePage_ok hpage
    obtain ⟨hi₁, hi₂⟩ := hi.writeAll (writeUvarint page.1.pgno.toNat
      ++ (writeUvarint e.bytesWritten ++ writeUvarint (frame page.1 block).length))
    obtain ⟨hj₁, hj₂⟩ := hj.writeAll (writeUvarint page.1.pgno.toNat
      ++ (writeUvarint e.bytesWritten ++ writeUvarint (frame page.1 block).length))
    obtain ⟨j, hrest, hend⟩ := ih hi₂ hj₂ (by rw [hj₁, hsame, ← hi₁]; rfl) hpages
    exact ⟨j, bind_eq_ok.2 ⟨_, hpage', bind_eq_ok.2 ⟨_, hrest, rfl⟩⟩, hend⟩

/-- A file is the same wherever the index is kept. -/
theorem encodeFile_withIndex (hi : e.index.AtEnd) (hj : index.AtEnd)
    (hsame : index.contents = e.index.contents)
    (h : e.encodeFile P header pages post = .ok (entries, e')) :
    ∃ j, (e.withIndex index).encodeFile P header pages post = .ok (entries, e'.withIndex j) := by
  obtain ⟨e₁, e₂, hheader, hpages, hclose⟩ := encodeFile_parts h
  have hheader' : (e.withIndex index).encodeHeader header = .ok (e₁.withIndex index) := by
    obtain ⟨_, hopen, hheader⟩ := bind_eq_ok.1 hheader
    obtain ⟨_, hvalid, hheader⟩ := bind_eq_ok.1 hheader
    obtain ⟨e₀, hwrite, hheader⟩ := bind_eq_ok.1 hheader
    cases hheader
    exact bind_eq_ok.2 ⟨_, hopen, bind_eq_ok.2 ⟨_, hvalid, bind_eq_ok.2
      ⟨_, writeHashed_withIndex index hwrite, rfl⟩⟩⟩
  have hindex : e₁.index = e.index := by
    rw [(encodeHeader_ok hheader).2]
    rfl
  obtain ⟨j, hpages', hi', hj', hsame'⟩ :=
    encodePages_withIndex (hindex ▸ hi) hj (hindex ▸ hsame) hpages
  obtain ⟨k, hclose'⟩ := close_withIndex hi' hj' hsame' hclose
  exact ⟨k, bind_eq_ok.2 ⟨_, hheader', bind_eq_ok.2 ⟨_, hpages', bind_eq_ok.2
    ⟨_, hclose', rfl⟩⟩⟩⟩

end Encoder

end Cellule
