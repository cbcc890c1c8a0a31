import Cellule.Lib.OrderedMap
import Cellule.Ltx.Format

/-!
# Reading a write-ahead log

The reader of `cellule-ltx/src/wal.rs`. It goes through the frames of a SQLite write-ahead log as
long as salts and the cumulative checksum fit (`readFrame`), from the header (`new`) or from the end
of an earlier scan (`newWithOffset`), and maps each page to its last committed frame (`pageMap`).
-/

namespace Cellule

open Except

/-- `WalError` (`wal.rs:15`). -/
inductive WalError where
  | eof
  | invalidMagic (magic : UInt32)
  | invalidPageSize (size : UInt32)
  | unsupportedVersion (version : UInt32)
  | bufferSize (got : Nat) (want : UInt32)
  | offsetTooSmall (offset headerSize : Int)
  | unalignedOffset (offset : Int) (pageSize : UInt32)
  | prevFrameMismatch
  deriving DecidableEq

def walHeaderSize : Nat := 32

def walFrameHeaderSize : Nat := 24

def walVersion : UInt32 := 3007000

def walMagicLittleEndian : UInt32 := 0x377f0682

def walMagicBigEndian : UInt32 := 0x377f0683

/-- Adds up pairs of numbers; a rest of fewer than eight bytes does not count (`wal_checksum`,
`lib.rs:119`). -/
def walChecksum (bigEndian : Bool) (s0 s1 : UInt32) : Bytes → UInt32 × UInt32
  | a₀ :: a₁ :: a₂ :: a₃ :: b₀ :: b₁ :: b₂ :: b₃ :: rest =>
    let a := if bigEndian then Bytes.ofBe [a₀, a₁, a₂, a₃] else Bytes.ofLe [a₀, a₁, a₂, a₃]
    let b := if bigEndian then Bytes.ofBe [b₀, b₁, b₂, b₃] else Bytes.ofLe [b₀, b₁, b₂, b₃]
    let s0 := s0 + UInt32.ofNat a + s1
    walChecksum bigEndian s0 (s1 + UInt32.ofNat b + s0) rest
  | _ => (s0, s1)

/-- `WalReader` (`wal.rs:79`). -/
structure WalReader where
  data : Bytes
  tailBase : Nat := 0
  frameN : Int := 0
  bigEndian : Bool := false
  pageSize : UInt32 := 0
  salt1 : UInt32 := 0
  salt2 : UInt32 := 0
  chksum1 : UInt32 := 0
  chksum2 : UInt32 := 0
  deriving DecidableEq

/-- A page map being built: the committed frames, those of the open transaction, and the size of the
database. -/
structure PageScan where
  map : OrderedMap Nat Int := .empty
  txMap : OrderedMap Nat Int := .empty
  commit : Nat := 0

/-- What one frame adds. Reference: the loop of `page_map` (`wal.rs:322`). -/
def PageScan.frame (s : PageScan) (pgno fcommit : Nat) (offset : Int) : PageScan :=
  let txMap := s.txMap.insert pgno offset
  if fcommit ≠ 0 then
    { map := txMap.entries.foldl (fun m e => m.insert e.1 e.2) s.map, txMap := .empty,
      commit := fcommit }
  else { s with txMap }

namespace WalReader

variable (r : WalReader)

/-- The bytes of a frame with its header. -/
def frameSize : Int := r.pageSize.toNat + walFrameHeaderSize

/-- Where the last frame read begins (`WalReader::offset`, `wal.rs:168`). -/
def offset : Int :=
  if r.frameN = 0 then 0 else walHeaderSize + (r.frameN - 1) * r.frameSize

/-- Where in the image a byte of the file is: a tail image holds the header and the tail. -/
def start (offset : Nat) : Option Nat :=
  if r.tailBase = 0 ∨ offset < walHeaderSize then some offset
  else if r.tailBase ≤ offset then some (walHeaderSize + (offset - r.tailBase)) else none

/-- `WalReader::read_at` (`wal.rs:176`). -/
def readAt (offset : Int) (n : Nat) : Option Bytes :=
  if offset < 0 then none
  else (r.start offset.toNat).bind fun start =>
    if start + n > r.data.length then none else some ((r.data.drop start).take n)

/-- `WalReader::read_header` (`wal.rs:214`). -/
def readHeader : Except WalError WalReader := do
  let hdr ← (r.readAt 0 walHeaderSize).elim (.error .eof) .ok
  let magic := u32Be hdr
  reject (magic != walMagicLittleEndian && magic != walMagicBigEndian) (.invalidMagic magic)
  let bigEndian := magic == walMagicBigEndian
  let chksum1 := u32Be (hdr.drop 24)
  let chksum2 := u32Be (hdr.drop 28)
  reject (walChecksum bigEndian 0 0 (hdr.take 24) != (chksum1, chksum2)) .eof
  let version := u32Be (hdr.drop 4)
  reject (version != walVersion) (.unsupportedVersion version)
  let pageSize := u32Be (hdr.drop 8)
  reject (!isValidPageSize pageSize) (.invalidPageSize pageSize)
  pure { r with
    bigEndian, pageSize, chksum1, chksum2
    salt1 := u32Be (hdr.drop 16)
    salt2 := u32Be (hdr.drop 20) }

/-- `WalReader::new` (`wal.rs:93`). -/
def new (data : Bytes) : Except WalError WalReader := readHeader { data }

/-- The cumulative checksum of a frame: adopted when the reader jumps to it, and otherwise
checked. -/
def frameChecksum (verifyChecksum : Bool) (hdr page : Bytes) : Except WalError (UInt32 × UInt32) :=
  let stored := (u32Be (hdr.drop 16), u32Be (hdr.drop 20))
  if verifyChecksum then do
    let c := walChecksum r.bigEndian r.chksum1 r.chksum2 (hdr.take 8)
    let c := walChecksum r.bigEndian c.1 c.2 page
    reject (c != stored) .eof
    pure c
  else pure stored

/-- The page number and the commit field of the next frame, and the reader behind it
(`WalReader::read_frame_inner`, `wal.rs:261`). -/
def readFrameInner (buffer : Nat) (verifyChecksum : Bool) :
    Except WalError ((Nat × Nat) × WalReader) := do
  reject (buffer != r.pageSize.toNat) (.bufferSize buffer r.pageSize)
  let offset := walHeaderSize + r.frameN * r.frameSize
  let hdr ← (r.readAt offset walFrameHeaderSize).elim (.error .eof) .ok
  let page ← (r.readAt (offset + walFrameHeaderSize) buffer).elim (.error .eof) .ok
  reject (r.salt1 != u32Be (hdr.drop 8) || r.salt2 != u32Be (hdr.drop 12)) .eof
  let c ← r.frameChecksum verifyChecksum hdr page
  pure (((u32Be hdr).toNat, (u32Be (hdr.drop 4)).toNat),
    { r with chksum1 := c.1, chksum2 := c.2, frameN := r.frameN + 1 })

/-- `WalReader::read_frame` (`wal.rs:257`). -/
def readFrame (buffer : Nat) : Except WalError ((Nat × Nat) × WalReader) :=
  r.readFrameInner buffer true

/-- `WalReader::seek_to_offset` (`wal.rs:139`). -/
def seekToOffset (offset : Int) (salt1 salt2 : UInt32) : Except WalError WalReader := do
  reject ((offset - walHeaderSize).tmod r.frameSize != 0) (.unalignedOffset offset r.pageSize)
  let frameN := (offset - walHeaderSize).tdiv r.frameSize - 1
  match readFrameInner { r with salt1, salt2, frameN } r.pageSize.toNat false with
  | .error _ => .error .prevFrameMismatch
  | .ok (_, r) => .ok r

/-- `WalReader::new_with_offset` (`wal.rs:109`). -/
def newWithOffset (data : Bytes) (offset : Int) (salt1 salt2 : UInt32) :
    Except WalError WalReader := do
  reject (decide (offset ≤ walHeaderSize)) (.offsetTooSmall offset walHeaderSize)
  let r ← readHeader { data }
  r.seekToOffset offset salt1 salt2

/-- The loop of `page_map`, which stops at the first frame that does not fit. Every frame takes
bytes of the image, so the fuel suffices (`Run.length_le`). -/
def scan : Nat → WalReader → PageScan → Except WalError (WalReader × PageScan)
  | 0, r, s => .ok (r, s)
  | fuel + 1, r, s =>
    match r.readFrame r.pageSize.toNat with
    | .error .eof => .ok (r, s)
    | .error e => .error e
    | .ok ((pgno, fcommit), r) => scan fuel r (s.frame pgno fcommit r.offset)

/-- The last committed frame of every page, the end of the last of these frames, and the size of the
database (`WalReader::page_map`, `wal.rs:322`). -/
def pageMap : Except WalError (WalReader × OrderedMap Nat Int × Int × Nat) := do
  let (r, s) ← scan (r.data.length + 1) r {}
  let m := s.map.retain (· ≤ s.commit)
  if m.entries.isEmpty then pure (r, m, 0, 0)
  else
    let last := m.values.foldl (fun last offset => if last = 0 ∨ offset > last then offset
      else last) 0
    pure (r, m, last + r.frameSize, s.commit)

end WalReader

end Cellule
