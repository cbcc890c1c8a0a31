import Cellule.Ltx.Format
import Cellule.Ltx.Lz4Block

/-!
# The LTX codec

The encoder and the decoder of `cellule-ltx/src/codec.rs`. A file is a header, page frames, a zero
page header, an index of the frames in varints, and a trailer whose checksum covers everything, with
the pages in place of their compressed bytes. The running CRC and the running hashes of the source
are kept as the bytes that went into them.
-/

namespace Cellule

open Except

/-- What the codec takes from other crates: the CRC, BLAKE3, and the two LZ4 decoders. `decodeFrame`
is given the bytes that are left and the size of a page, and returns the page, how many bytes it
read and whether the frame holds more. -/
structure Primitives where
  crc64 : Bytes → UInt64
  blake3 : Hash
  decompressInto : (block : Bytes) → (capacity : Nat) → LtxResult Bytes
  decodeFrame : (bytes : Bytes) → (size : Nat) → LtxResult (Bytes × Nat × Bool)

/-- The checksum of one page (`checksum_page`, `ltx.rs:63`). -/
def Primitives.checksumPage (P : Primitives) (pgno : UInt32) (data : Bytes) : UInt64 :=
  Checksum.flag ||| P.crc64 (Bytes.be 4 pgno.toNat ++ data)

/-- Where the frame of one page lies, and what it holds (`EncodedPage`, `codec.rs:274`). -/
structure EncodedPage where
  page : UInt32
  offset : Nat
  size : Nat
  frameHash : Digest
  checksum : UInt64
  deriving DecidableEq

/-! ## Varints -/

/-- `write_uvarint` (`codec.rs:503`). -/
def writeUvarint (value : Nat) : Bytes :=
  if value ≥ 0x80 then (UInt8.ofNat value ||| 0x80) :: writeUvarint (value / 2 ^ 7)
  else [UInt8.ofNat value]

/-- The loop of `read_uvarint`, with the number of bytes it may still read: the value, the number of
bytes read, and what is left. -/
def readUvarintFrom : (left index value : Nat) → (rest : Bytes) →
    LtxResult (Nat × Nat × Bytes)
  | 0, _, _, _ => .error .ltxCorrupted
  | _ + 1, _, _, [] => .error .ltxCorrupted
  | left + 1, index, value, byte :: rest =>
    if byte < 0x80 then
      if index = 9 ∧ byte > 1 then .error .ltxCorrupted
      else .ok (value ||| byte.toNat <<< (index * 7), index + 1, rest)
    else readUvarintFrom left (index + 1) (value ||| (byte &&& 0x7f).toNat <<< (index * 7)) rest

/-! ## The encoder -/

/-- What an encoder writes to: a vector, or one with a limit that refuses a write past it
(`BoundedBytes`, `replica/coalesce.rs:262`). -/
structure Sink where
  bytes : Bytes
  limit : Option Nat

def Sink.writeAll (s : Sink) (bytes : Bytes) : LtxResult Sink := do
  reject (s.limit.any fun limit => decide (bytes.length > limit - s.bytes.length)) .io
  pure { s with bytes := s.bytes ++ bytes }

/-- A file handle with its contents and offset (`FileIo for std::fs::File`,
`environment/host/mod.rs:867`). -/
structure SpoolFile where
  contents : Bytes := []
  offset : Nat := 0

namespace SpoolFile

/-- Writes at the offset of the handle. -/
def writeAll (f : SpoolFile) (bytes : Bytes) : SpoolFile :=
  { contents := f.contents.take f.offset ++ List.replicate (f.offset - f.contents.length) 0 ++ bytes
      ++ f.contents.drop (f.offset + bytes.length)
    offset := f.offset + bytes.length }

/-- Moves the offset of the handle, and reads there. -/
def readExactAt (f : SpoolFile) (offset length : Nat) : LtxResult (Bytes × SpoolFile) :=
  do
  reject (decide (f.contents.length < offset + length)) .io
  pure ((f.contents.drop offset).take length, { f with offset := offset + length })

end SpoolFile

/-- Where an encoder keeps the index of its frames (`EncoderIndex`, `codec.rs:282`). -/
inductive EncoderIndex where
  | memory (index : Bytes)
  | file (index : SpoolFile)

namespace EncoderIndex

def writeAll (bytes : Bytes) : EncoderIndex → EncoderIndex
  | memory index => memory (index ++ bytes)
  | file index => file (index.writeAll bytes)

def writeEntry (index : EncoderIndex) (page : UInt32) (offset size : Nat) : EncoderIndex :=
  index.writeAll (writeUvarint page.toNat ++ (writeUvarint offset ++ writeUvarint size))

def finish (index : EncoderIndex) : EncoderIndex := index.writeAll [0]

def len : EncoderIndex → Nat
  | memory index => index.length
  | file index => index.contents.length

def readExactAt (offset length : Nat) : EncoderIndex → LtxResult (Bytes × EncoderIndex)
  | memory index => do
    reject (decide (index.length < offset + length)) .ltxCorrupted
    pure ((index.drop offset).take length, memory index)
  | file index => do
    let (bytes, index) ← index.readExactAt offset length
    pure (bytes, file index)

end EncoderIndex

def indexCopyBytes : Nat := 64 * 1024

/-- `Encoder` (`codec.rs:259`). -/
structure Encoder where
  writer : Sink
  header : Header := {}
  trailer : Trailer := {}
  hashed : Bytes := []
  index : EncoderIndex
  compressor : Lz4Block.Compressor := default
  bytesWritten : Nat := 0
  previousPageNumber : UInt32 := 0
  headerWritten : Bool := false
  closed : Bool := false

namespace Encoder

/-- A fresh encoder, which keeps its index in the file given or in memory
(`Encoder::new_block_with_index`, `codec.rs:335`). -/
def newBlockWithIndex (writer : Sink) (index : Option SpoolFile) : Encoder :=
  { writer, index := index.elim (.memory []) .file }

/-- `Encoder::write_hashed` (`codec.rs:464`). -/
def writeHashed (e : Encoder) (bytes : Bytes) : LtxResult Encoder := do
  let writer ← e.writer.writeAll bytes
  pure { e with
    writer
    hashed := e.hashed ++ bytes
    bytesWritten := e.bytesWritten + bytes.length }

/-- `Encoder::encode_header` (`codec.rs:361`). -/
def encodeHeader (e : Encoder) (header : Header) : LtxResult Encoder := do
  reject (e.headerWritten || e.closed) .ltxCorrupted
  header.validate
  let e ← { e with header }.writeHashed header.marshal
  pure { e with headerWritten := true }

/-- The checks of `Encoder::encode_page` (`codec.rs:373`). -/
def checkPage (e : Encoder) (page : PageHeader) (data : Bytes) : LtxResult Unit := do
  reject (!e.headerWritten || e.closed || decide (page.pgno > e.header.commit)
    || data.length != e.header.pageSize.toNat) .ltxCorrupted
  page.validate
  let lockPage := lockPgno e.header.pageSize
  reject (page.pgno.toNat == lockPage) .ltxCorrupted
  let previous := e.previousPageNumber.toNat
  if e.header.isSnapshot then do
    reject (previous == 0 && page.pgno != 1) .ltxCorrupted
    let expected := if previous = lockPage - 1 then previous + 2 else previous + 1
    reject (previous != 0 && page.pgno.toNat != expected) .ltxCorrupted
  else
    reject (decide (e.previousPageNumber ≥ page.pgno)) .ltxCorrupted

/-- `Encoder::encode_page` (`codec.rs:373`). -/
def encodePage (P : Primitives) (e : Encoder) (page : PageHeader) (data : Bytes) :
    LtxResult (EncodedPage × Encoder) := do
  e.checkPage page data
  let offset := e.bytesWritten
  let (compressed, compressor) ← e.compressor.compress data
  let header := PageHeader.marshal ⟨page.pgno, page.flags ||| pageHeaderFlagSize⟩
  let e ← { e with compressor }.writeHashed header
  reject (decide (compressed.length ≥ 2 ^ 32)) .other
  let size := Bytes.be 4 compressed.length
  let e ← e.writeHashed size
  let writer ← e.writer.writeAll compressed
  let bytesWritten := e.bytesWritten + compressed.length
  let frameSize := bytesWritten - offset
  pure (⟨page.pgno, offset, frameSize, P.blake3 (header ++ (size ++ compressed)),
      P.checksumPage page.pgno data⟩,
    { e with
      writer
      bytesWritten
      hashed := e.hashed ++ data
      previousPageNumber := page.pgno
      index := e.index.writeEntry page.pgno offset frameSize })

/-- The loop of `Encoder::close` that copies the index into the file. -/
def copyIndex (e : Encoder) (indexLength copied : Nat) : LtxResult Encoder :=
  if copied < indexLength then do
    let length := min (indexLength - copied) indexCopyBytes
    let (bytes, index) ← e.index.readExactAt copied length
    let e ← { e with index }.writeHashed bytes
    e.copyIndex indexLength (copied + length)
  else pure e
termination_by indexLength - copied
decreasing_by
  have : 0 < indexCopyBytes := by decide
  omega

/-- `Encoder::close` (`codec.rs:432`). -/
def close (P : Primitives) (e : Encoder) (postApplyChecksum : UInt64) : LtxResult Encoder := do
  reject (!e.headerWritten || e.closed) .ltxCorrupted
  let e ← e.writeHashed (List.replicate pageHeaderSize 0)
  let indexOffset := e.bytesWritten
  let e := { e with index := e.index.finish }
  let e ← e.copyIndex e.index.len 0
  let e ← e.writeHashed (Bytes.be 8 (e.bytesWritten - indexOffset))
  let hashed := e.hashed ++ Bytes.be 8 postApplyChecksum.toNat
  let trailer : Trailer := ⟨postApplyChecksum, Checksum.flag ||| P.crc64 hashed⟩
  trailer.validate e.header
  reject (e.header.commit == 0 && postApplyChecksum != Checksum.flag) .ltxCorrupted
  let writer ← e.writer.writeAll trailer.marshal
  pure { e with
    writer
    hashed
    trailer
    bytesWritten := e.bytesWritten + trailerSize
    closed := true }

/-- The pages of a file through the encoder, with what each call returned. -/
def encodePages (P : Primitives) (e : Encoder) :
    List (PageHeader × Bytes) → LtxResult (List EncodedPage × Encoder)
  | [] => .ok ([], e)
  | (page, data) :: pages => do
    let (entry, e) ← e.encodePage P page data
    let (entries, e) ← e.encodePages P pages
    pure (entry :: entries, e)

/-- A whole file through a fresh encoder: what the calls for its pages returned, and the closed
encoder. -/
def encodeFile (P : Primitives) (e : Encoder) (header : Header)
    (pages : List (PageHeader × Bytes)) (postApplyChecksum : UInt64) :
    LtxResult (List EncodedPage × Encoder) := do
  let e ← e.encodeHeader header
  let (entries, e) ← e.encodePages P pages
  let e ← e.close P postApplyChecksum
  pure (entries, e)

end Encoder

/-! ## The decoder -/

/-- `DecoderState` (`codec.rs:16`). -/
inductive DecoderState where
  | header
  | pages
  | close
  | closed
  deriving DecidableEq

/-- The decoder, with the bytes it has read and those it has not; `replicaIndex` when the caller
asked for the index (`Decoder`, `codec.rs:23`). -/
structure Decoder where
  consumed : Bytes := []
  rest : Bytes
  index : List (UInt32 × Nat × Nat) := []
  state : DecoderState := .header
  header : Header := {}
  trailer : Trailer := {}
  hashed : Bytes := []
  rollingChecksum : UInt64 := 0
  replicaIndex : Option (List EncodedPage) := none

namespace Decoder

/-- `CountingReader::read_exact`. -/
def readExact (d : Decoder) (length : Nat) : LtxResult (Bytes × Decoder) := do
  reject (decide (d.rest.length < length)) .io
  pure (d.rest.take length,
    { d with consumed := d.consumed ++ d.rest.take length, rest := d.rest.drop length })

/-- Adds bytes to the running CRC. -/
def update (d : Decoder) (bytes : Bytes) : Decoder := { d with hashed := d.hashed ++ bytes }

/-- `Decoder::decode_header` (`codec.rs:64`). -/
def decodeHeader (d : Decoder) : LtxResult Decoder := do
  reject (d.state != .header) .ltxCorrupted
  let (bytes, d) ← d.readExact headerSize
  let header ← Header.parse bytes
  header.validate
  pure { d.update bytes with
    header
    rollingChecksum := if header.noChecksum then d.rollingChecksum else Checksum.flag
    state := .pages }

/-- The last page number the decoder has seen. -/
def previous (d : Decoder) : Nat := (d.index.getLast?.map (·.1.toNat)).getD 0

/-- Adds an entry to the index, when the caller asked for it. -/
def pushEntry (d : Decoder) (entry : EncodedPage) : Decoder :=
  { d with replicaIndex := d.replicaIndex.map (· ++ [entry]) }

/-- The frame of a page whose header announces the size of its block (`Decoder::decode_page`,
`codec.rs:109`). -/
def decodeBlock (P : Primitives) (d : Decoder) (offset : Nat) (pgno : UInt32)
    (headerBytes : Bytes) (length : Nat) : LtxResult (Bytes × Decoder) := do
  let (sizeBytes, d) ← d.readExact 4
  let d := d.update sizeBytes
  let compressedSize := Bytes.ofBe sizeBytes
  reject (decide (compressedSize > Lz4Block.compressBound length)) .ltxCorrupted
  let (compressed, d) ← d.readExact compressedSize
  let data ← P.decompressInto compressed length
  reject (data.length != length) .ltxCorrupted
  pure (data, d.pushEntry ⟨pgno, offset, d.consumed.length - offset,
    P.blake3 (headerBytes ++ (sizeBytes ++ compressed)), P.checksumPage pgno data⟩)

/-- The frame of a page in the older format, an LZ4 frame (`Decoder::decode_page`,
`codec.rs:139`). -/
def decodeLegacy (P : Primitives) (d : Decoder) (offset : Nat) (pgno : UInt32) (length : Nat) :
    LtxResult (Bytes × Decoder) := do
  let (data, count, extra) ← P.decodeFrame d.rest length
  reject extra .ltxCorrupted
  let d := { d with consumed := d.consumed ++ d.rest.take count, rest := d.rest.drop count }
  pure (data, d.pushEntry ⟨pgno, offset, d.consumed.length - offset, default,
    P.checksumPage pgno data⟩)

/-- The frame of a page (`Decoder::decode_page`, `codec.rs:109`). -/
def decodeBody (P : Primitives) (d : Decoder) (offset : Nat) (page : PageHeader)
    (headerBytes : Bytes) (length : Nat) : LtxResult (Bytes × Decoder) :=
  if page.flags &&& pageHeaderFlagSize != 0 then d.decodeBlock P offset page.pgno headerBytes length
  else d.decodeLegacy P offset page.pgno length

/-- What follows a page header that is not the end marker (`Decoder::decode_page`,
`codec.rs:97`). -/
def decodeFrame (P : Primitives) (d : Decoder) (offset : Nat) (page : PageHeader)
    (headerBytes : Bytes) (length : Nat) : LtxResult (Bytes × Decoder) := do
  page.validate
  let lock := lockPgno d.header.pageSize
  let expected := d.previous + if d.previous = lock - 1 then 2 else 1
  reject (decide (page.pgno.toNat ≤ d.previous) || decide (page.pgno > d.header.commit)
    || page.pgno.toNat == lock || (d.header.isSnapshot && page.pgno.toNat != expected))
      .ltxCorrupted
  let (data, d) ← d.decodeBody P offset page headerBytes length
  let rolling := d.header.isSnapshot && !d.header.noChecksum
    && page.pgno.toNat != lockPgno d.header.pageSize
  pure (data, { d.update data with
    index := d.index ++ [(page.pgno, offset, d.consumed.length - offset)]
    rollingChecksum :=
      if rolling then Checksum.flag ||| (d.rollingChecksum ^^^ P.checksumPage page.pgno data)
      else d.rollingChecksum })

/-- Decodes the next page into a buffer of `length` bytes; there is none after the end marker
(`Decoder::decode_page`, `codec.rs:80`). -/
def decodePage (P : Primitives) (d : Decoder) (length : Nat) :
    LtxResult (Option (PageHeader × Bytes) × Decoder) := do
  if d.state = .close then
    return (none, d)
  reject (d.state != .pages || length != d.header.pageSize.toNat) .ltxCorrupted
  let offset := d.consumed.length
  let (headerBytes, d) ← d.readExact pageHeaderSize
  let page ← PageHeader.parse headerBytes
  let d := d.update headerBytes
  if page.isZero then
    return (none, { d with state := .close })
  let (data, d) ← d.decodeFrame P offset page headerBytes length
  return (some (page, data), d)

/-! ## The footer -/

/-- The bytes of the footer that are left, and the running CRC. -/
structure Footer where
  rest : Bytes
  hashed : Bytes

/-- `read_uvarint` (`codec.rs:472`). -/
def Footer.readUvarint (f : Footer) : LtxResult (Nat × Nat × Footer) := do
  let (value, bytes, rest) ← readUvarintFrom 10 0 0 f.rest
  pure (value, bytes, ⟨rest, f.hashed ++ f.rest.take bytes⟩)

/-- `read_footer_exact` (`codec.rs:490`). -/
def Footer.readExact (f : Footer) (length : Nat) : LtxResult (Bytes × Footer) := do
  reject (decide (f.rest.length < length)) .ltxCorrupted
  pure (f.rest.take length, { f with rest := f.rest.drop length })

/-- Reads one number of the index, which must be the one given, and counts its bytes. -/
def Footer.expect (f : Footer × Nat) (expected : Nat) : LtxResult (Footer × Nat) := do
  let (actual, bytes, footer) ← f.1.readUvarint
  reject (actual != expected) .ltxCorrupted
  pure (footer, f.2 + bytes)

/-- Reads one entry of the index, which must be the one given. -/
def Footer.expectEntry (f : Footer × Nat) (entry : UInt32 × Nat × Nat) : LtxResult (Footer × Nat) :=
  [entry.1.toNat, entry.2.1, entry.2.2].foldlM expect f

/-- `Decoder::close` (`codec.rs:176`). -/
def closeFooter (P : Primitives) (d : Decoder) : LtxResult Decoder := do
  let f ← d.index.foldlM Footer.expectEntry (⟨d.rest, d.hashed⟩, 0)
  let (footer, indexSize) ← Footer.expect f 0
  let (sizeBytes, footer) ← footer.readExact 8
  reject (Bytes.ofBe sizeBytes != indexSize) .ltxCorrupted
  let lock := lockPgno d.header.pageSize
  let last := if d.header.commit.toNat = lock then d.header.commit.toNat - 1
    else d.header.commit.toNat
  reject (d.header.isSnapshot && d.previous != last) .ltxCorrupted
  let hashed := footer.hashed ++ sizeBytes
  let (trailerBytes, footer) ← footer.readExact trailerSize
  let trailer ← Trailer.parse trailerBytes
  trailer.validate d.header
  let hashed := hashed ++ trailerBytes.take 8
  reject (!footer.rest.isEmpty) .ltxCorrupted
  reject (Checksum.flag ||| P.crc64 hashed != trailer.fileChecksum) .checksumMismatch
  reject (d.header.isSnapshot && !d.header.noChecksum
    && d.rollingChecksum != trailer.postApplyChecksum) .checksumMismatch
  pure { d with
    consumed := d.consumed ++ d.rest
    rest := []
    trailer
    hashed
    state := .closed }

/-- `Decoder::close` (`codec.rs:176`). -/
def close (P : Primitives) (d : Decoder) : LtxResult Decoder :=
  match d.state with
  | .closed => .ok d
  | .close => d.closeFooter P
  | _ => .error .ltxCorrupted

/-- `Decoder::artifact` (`codec.rs:242`). -/
def artifact (P : Primitives) (d : Decoder) : LtxResult (Nat × Digest) := do
  reject (d.state != .closed) (.invalidState "LTX decoder is not closed")
  pure (d.consumed.length, P.blake3 d.consumed)

/-- `Decoder::into_replica_index` (`codec.rs:253`). -/
def intoReplicaIndex (d : Decoder) : LtxResult (List EncodedPage) :=
  match d.replicaIndex with
  | some index => .ok index
  | none => .error (.invalidState "LTX page index was not requested")

/-! ## The page loop -/

theorem readExact_ok {d d' : Decoder} (h : d.readExact length = .ok (bytes, d')) :
    length ≤ d.rest.length ∧ bytes = d.rest.take length ∧ d' = { d with
      consumed := d.consumed ++ d.rest.take length, rest := d.rest.drop length } := by
  simp only [readExact, reject_bind_eq_ok, decide_eq_false_iff_not, Nat.not_lt] at h
  obtain ⟨hle, h⟩ := h
  cases h
  exact ⟨hle, rfl, rfl⟩

theorem decodeBody_ok {P : Primitives} {d d' : Decoder}
    (h : d.decodeBody P offset page headerBytes length = .ok (data, d')) :
    d'.header = d.header ∧ d'.rest.length ≤ d.rest.length := by
  unfold decodeBody at h
  split at h
  · obtain ⟨⟨sizeBytes, d₁⟩, hsize, h⟩ := bind_eq_ok.1 h
    obtain ⟨_, -, h⟩ := bind_eq_ok.1 h
    obtain ⟨⟨compressed, d₂⟩, hblock, h⟩ := bind_eq_ok.1 h
    obtain ⟨_, -, h⟩ := bind_eq_ok.1 h
    obtain ⟨_, -, h⟩ := bind_eq_ok.1 h
    obtain ⟨-, -, rfl⟩ := readExact_ok hsize
    obtain ⟨-, -, rfl⟩ := readExact_ok hblock
    cases h
    refine ⟨rfl, ?_⟩
    simp only [pushEntry, update, List.length_drop]
    omega
  · obtain ⟨⟨data₁, count, extra⟩, -, h⟩ := bind_eq_ok.1 h
    obtain ⟨_, -, h⟩ := bind_eq_ok.1 h
    cases h
    refine ⟨rfl, ?_⟩
    simp only [pushEntry, List.length_drop]
    omega

/-- A page keeps the header, lies where the header allows, and takes bytes from the input. -/
theorem decodePage_ok {P : Primitives} {d d' : Decoder}
    (h : d.decodePage P length = .ok (page, d')) :
    d'.header = d.header ∧ ∀ p ∈ page, d'.rest.length < d.rest.length ∧
      p.1.pgno.toNat ≤ d.header.commit.toNat ∧ p.1.pgno.toNat ≠ lockPgno d.header.pageSize := by
  unfold decodePage at h
  split at h
  · cases h
    exact ⟨rfl, nofun⟩
  · obtain ⟨_, -, h⟩ := bind_eq_ok.1 h
    obtain ⟨⟨headerBytes, d₁⟩, hread, h⟩ := bind_eq_ok.1 h
    obtain ⟨page', -, h⟩ := bind_eq_ok.1 h
    obtain ⟨hle, -, rfl⟩ := readExact_ok hread
    dsimp only at h
    split at h
    · cases h
      exact ⟨rfl, nofun⟩
    · obtain ⟨⟨data, d₂⟩, hframe, h⟩ := bind_eq_ok.1 h
      cases h
      obtain ⟨_, -, hframe⟩ := bind_eq_ok.1 hframe
      obtain ⟨hplace, hframe⟩ := reject_bind_eq_ok.1 hframe
      obtain ⟨⟨data₁, d₃⟩, hbody, hframe⟩ := bind_eq_ok.1 hframe
      cases hframe
      obtain ⟨hheader, hrest⟩ := decodeBody_ok hbody
      simp only [update, List.length_drop, pageHeaderSize] at hrest hle
      simp only [Bool.or_eq_false_iff, decide_eq_false_iff_not, beq_eq_false_iff_ne, gt_iff_lt,
        UInt32.lt_iff_toNat_lt, Nat.not_lt] at hplace
      refine ⟨hheader, fun p hp => ?_⟩
      obtain rfl := Option.some.inj hp
      refine ⟨?_, hplace.1.1.2, hplace.1.2⟩
      show d₃.rest.length < d.rest.length
      omega

/-- `while let Some(page) = decoder.decode_page(&mut data)?`, with the pages it went through. -/
def decodePages (P : Primitives) (length : Nat) (d : Decoder) :
    LtxResult (List (PageHeader × Bytes) × Decoder) :=
  match _ : d.decodePage P length with
  | .error e => .error e
  | .ok (none, d) => .ok ([], d)
  | .ok (some page, next) => do
    let (pages, last) ← next.decodePages P length
    pure (page :: pages, last)
termination_by d.rest.length
decreasing_by exact ((decodePage_ok ‹_›).2 page rfl).1

end Decoder

/-- `DecodedFile` (`ltx.rs:313`). -/
structure DecodedFile where
  header : Header
  trailer : Trailer
  deriving DecidableEq

/-- A whole file through the decoder: the pages it went through and the closed decoder. -/
def Decoder.decode (P : Primitives) (d : Decoder) :
    LtxResult (List (PageHeader × Bytes) × Decoder) := do
  let d ← d.decodeHeader
  let (pages, d) ← d.decodePages P d.header.pageSize.toNat
  let d ← d.close P
  pure (pages, d)

/-- `decode_reader_inner` (`ltx.rs:397`), with the pages retained. -/
def Primitives.decodeReader (P : Primitives) (bytes : Bytes) :
    LtxResult (DecodedFile × List (UInt32 × Bytes) × Nat × Digest) := do
  let (pages, d) ← Decoder.decode P { rest := bytes }
  let (size, digest) ← d.artifact P
  pure (⟨d.header, d.trailer⟩, pages.map fun page => (page.1.pgno, page.2), size, digest)

/-- `inspect_reader_with_index` (`ltx.rs:360`). -/
def Primitives.inspectReaderWithIndex (P : Primitives) (bytes : Bytes) :
    LtxResult (DecodedFile × Nat × Digest × List EncodedPage) := do
  let (_, d) ← Decoder.decode P { rest := bytes, replicaIndex := some [] }
  let (size, digest) ← d.artifact P
  let index ← d.intoReplicaIndex
  pure (⟨d.header, d.trailer⟩, size, digest, index)

end Cellule
