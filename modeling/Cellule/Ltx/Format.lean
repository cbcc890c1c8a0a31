import Cellule.Identity
import Cellule.Lib.Bytes
import Cellule.Lib.Except

/-!
# The fixed parts of an LTX file

The header, the page headers and the trailer of an LTX file, as `cellule-ltx/src/ltx.rs` lays them
out: how each is written, read and validated, and that it reads back. All are big-endian.
-/

namespace Cellule

open Except List

/-! ## Constants -/

/-- `"LTX1"`. -/
def ltxMagic : Bytes := [0x4c, 0x54, 0x58, 0x31]

def ltxVersion : Int := 3

def headerSize : Nat := 100

def pageHeaderSize : Nat := 6

def trailerSize : Nat := 16

def headerFlagNoChecksum : UInt32 := 2

def headerFlagMask : UInt32 := headerFlagNoChecksum

def pageHeaderFlagSize : UInt16 := 1

def pageHeaderFlagMask : UInt16 := pageHeaderFlagSize

def pendingByte : Nat := 0x40000000

/-- The bit every database checksum carries (`CHECKSUM_FLAG`, `types.rs:359`). -/
def Checksum.flag : UInt64 := 0x8000000000000000

/-- A flagged sum takes and gives up numbers below the flag. -/
theorem flag_xor (a b : UInt64) :
    Checksum.flag ||| ((Checksum.flag ||| a) ^^^ b) = Checksum.flag ||| (a ^^^ b) := by
  rw [← UInt64.toBitVec_inj]
  simp only [UInt64.toBitVec_or, UInt64.toBitVec_xor]
  ext i hi
  simp only [BitVec.getElem_or, BitVec.getElem_xor]
  cases Checksum.flag.toBitVec[i] <;> simp

/-- A flagged number has the flag. -/
theorem flag_or_and (a : UInt64) : (Checksum.flag ||| a) &&& Checksum.flag = Checksum.flag := by
  rw [← UInt64.toBitVec_inj]
  simp only [UInt64.toBitVec_or, UInt64.toBitVec_and]
  ext i hi
  simp only [BitVec.getElem_or, BitVec.getElem_and]
  cases Checksum.flag.toBitVec[i] <;> simp

/-- The page that SQLite locks and never writes (`lock_pgno`, `ltx.rs:29`). -/
def lockPgno (pageSize : UInt32) : Nat :=
  if pageSize = 0 then 0 else pendingByte / pageSize.toNat + 1

/-- The powers of two from 512 to 65536, which the source's loop goes through (`is_valid_page_size`,
`ltx.rs:268`). -/
def isValidPageSize (size : UInt32) : Bool :=
  [512, 1024, 2048, 4096, 8192, 16384, 32768, 65536].contains size

/-! ## Reading numbers -/

def u16Be (b : Bytes) : UInt16 := UInt16.ofNat (Bytes.ofBe (b.take 2))

def u32Be (b : Bytes) : UInt32 := UInt32.ofNat (Bytes.ofBe (b.take 4))

def u64Be (b : Bytes) : UInt64 := UInt64.ofNat (Bytes.ofBe (b.take 8))

theorem u16Be_be (n : UInt16) (rest : Bytes) : u16Be (Bytes.be 2 n.toNat ++ rest) = n := by
  rw [u16Be, take_left' (Bytes.length_be _ _), Bytes.ofBe_be n.toNat_lt, UInt16.ofNat_toNat]

theorem u32Be_be (n : UInt32) (rest : Bytes) : u32Be (Bytes.be 4 n.toNat ++ rest) = n := by
  rw [u32Be, take_left' (Bytes.length_be _ _), Bytes.ofBe_be n.toNat_lt, UInt32.ofNat_toNat]

theorem u64Be_be (n : UInt64) (rest : Bytes) : u64Be (Bytes.be 8 n.toNat ++ rest) = n := by
  rw [u64Be, take_left' (Bytes.length_be _ _), Bytes.ofBe_be n.toNat_lt, UInt64.ofNat_toNat]

/-! ## The header -/

/-- The header of an LTX file (`Header`, `ltx.rs:71`). -/
structure Header where
  version : Int := 0
  flags : UInt32 := 0
  pageSize : UInt32 := 0
  commit : UInt32 := 0
  minTxid : UInt64 := 0
  maxTxid : UInt64 := 0
  timestamp : Int64 := 0
  preApplyChecksum : UInt64 := 0
  walOffset : Int64 := 0
  walSize : Int64 := 0
  walSalt1 : UInt32 := 0
  walSalt2 : UInt32 := 0
  nodeId : UInt64 := 0
  deriving DecidableEq

namespace Header

def isSnapshot (h : Header) : Bool := h.minTxid == 1

def noChecksum (h : Header) : Bool := h.flags &&& headerFlagNoChecksum != 0

/-- `Header::parse` (`ltx.rs:96`). -/
def parse (b : Bytes) : LtxResult Header := do
  reject (decide (b.length < headerSize)) .ltxCorrupted
  reject (b.take 4 != ltxMagic) .ltxCorrupted
  pure {
    version := ltxVersion
    flags := u32Be (b.drop 4)
    pageSize := u32Be (b.drop 8)
    commit := u32Be (b.drop 12)
    minTxid := u64Be (b.drop 16)
    maxTxid := u64Be (b.drop 24)
    timestamp := (u64Be (b.drop 32)).toInt64
    preApplyChecksum := u64Be (b.drop 40)
    walOffset := (u64Be (b.drop 48)).toInt64
    walSize := (u64Be (b.drop 56)).toInt64
    walSalt1 := u32Be (b.drop 64)
    walSalt2 := u32Be (b.drop 68)
    nodeId := u64Be (b.drop 72) }

/-- `Header::marshal` (`ltx.rs:120`). -/
def marshal (h : Header) : Bytes :=
  ltxMagic ++ (Bytes.be 4 h.flags.toNat ++ (Bytes.be 4 h.pageSize.toNat
    ++ (Bytes.be 4 h.commit.toNat ++ (Bytes.be 8 h.minTxid.toNat ++ (Bytes.be 8 h.maxTxid.toNat
    ++ (Bytes.be 8 h.timestamp.toUInt64.toNat ++ (Bytes.be 8 h.preApplyChecksum.toNat
    ++ (Bytes.be 8 h.walOffset.toUInt64.toNat ++ (Bytes.be 8 h.walSize.toUInt64.toNat
    ++ (Bytes.be 4 h.walSalt1.toNat ++ (Bytes.be 4 h.walSalt2.toNat
    ++ (Bytes.be 8 h.nodeId.toNat ++ List.replicate 20 0))))))))))))

/-- `Header::validate` (`ltx.rs:138`). -/
def validate (h : Header) : LtxResult Unit := do
  reject (h.version != ltxVersion) .ltxCorrupted
  reject (h.flags != h.flags &&& headerFlagMask) .ltxCorrupted
  reject (!isValidPageSize h.pageSize) .ltxCorrupted
  reject (h.minTxid == 0) .ltxCorrupted
  reject (h.maxTxid == 0) .ltxCorrupted
  reject (decide (h.minTxid > h.maxTxid)) .ltxCorrupted
  reject (decide (h.walOffset < 0)) .ltxCorrupted
  reject (decide (h.walSize < 0)) .ltxCorrupted
  reject ((h.walSalt1 != 0 || h.walSalt2 != 0) && h.walOffset == 0) .ltxCorrupted
  reject (h.walOffset == 0 && h.walSize != 0) .ltxCorrupted
  if h.isSnapshot then
    reject (h.preApplyChecksum != 0) .ltxCorrupted
  else if h.noChecksum then
    reject (h.preApplyChecksum != 0) .ltxCorrupted
  else do
    reject (h.preApplyChecksum == 0) .ltxCorrupted
    reject (h.preApplyChecksum &&& Checksum.flag == 0) .ltxCorrupted

@[simp] theorem length_marshal (h : Header) : h.marshal.length = headerSize := by
  simp [marshal, headerSize, ltxMagic]

/-- A header is read back as it was written; the version is not written. -/
theorem parse_marshal (hversion : h.version = ltxVersion) : parse h.marshal = .ok h := by
  have hparse : parse h.marshal = .ok {
      version := ltxVersion
      flags := u32Be (Bytes.be 4 h.flags.toNat ++ [])
      pageSize := u32Be (Bytes.be 4 h.pageSize.toNat ++ [])
      commit := u32Be (Bytes.be 4 h.commit.toNat ++ [])
      minTxid := u64Be (Bytes.be 8 h.minTxid.toNat ++ [])
      maxTxid := u64Be (Bytes.be 8 h.maxTxid.toNat ++ [])
      timestamp := (u64Be (Bytes.be 8 h.timestamp.toUInt64.toNat ++ [])).toInt64
      preApplyChecksum := u64Be (Bytes.be 8 h.preApplyChecksum.toNat ++ [])
      walOffset := (u64Be (Bytes.be 8 h.walOffset.toUInt64.toNat ++ [])).toInt64
      walSize := (u64Be (Bytes.be 8 h.walSize.toUInt64.toNat ++ [])).toInt64
      walSalt1 := u32Be (Bytes.be 4 h.walSalt1.toNat ++ [])
      walSalt2 := u32Be (Bytes.be 4 h.walSalt2.toNat ++ [])
      nodeId := u64Be (Bytes.be 8 h.nodeId.toNat ++ []) } := rfl
  simp only [hparse, u32Be_be, u64Be_be, Int64.toInt64_toUInt64]
  rw [← hversion]

/-- What a validated header satisfies, as far as the codec relies on it. -/
theorem validate_ok {h : Header} (hok : h.validate = .ok ()) :
    h.version = ltxVersion ∧ isValidPageSize h.pageSize = true := by
  simp only [validate, reject_bind_eq_ok] at hok
  obtain ⟨hversion, -, hsize, -⟩ := hok
  exact ⟨by simpa using hversion, by simpa using hsize⟩

theorem maxTxid_ne_zero {h : Header} (hok : h.validate = .ok ()) : h.maxTxid.toNat ≠ 0 := by
  simp only [validate, reject_bind_eq_ok] at hok
  obtain ⟨-, -, -, -, hmax, -⟩ := hok
  rw [beq_eq_false_iff_ne] at hmax
  exact fun h₀ => hmax (UInt64.toNat_inj.1 h₀)

end Header

theorem isValidPageSize_bounds (h : isValidPageSize size = true) :
    512 ≤ size.toNat ∧ size.toNat ≤ 65536 := by
  simp only [isValidPageSize, contains_iff_mem, mem_cons, not_mem_nil, or_false] at h
  rcases h with rfl | rfl | rfl | rfl | rfl | rfl | rfl | rfl <;> decide

/-- The lock page is never the first page. -/
theorem one_lt_lockPgno (h : isValidPageSize size = true) : 1 < lockPgno size := by
  obtain ⟨hlo, hhi⟩ := isValidPageSize_bounds h
  have hne : size ≠ 0 := by
    rintro rfl
    exact absurd hlo (by decide)
  rw [lockPgno, if_neg hne]
  have : 1 ≤ pendingByte / size.toNat :=
    (Nat.le_div_iff_mul_le (by omega)).2 (by rw [pendingByte]; omega)
  omega

/-- The lock page is far from the last page number. -/
theorem lockPgno_lt (h : isValidPageSize size = true) : lockPgno size < 2 ^ 32 - 1 := by
  obtain ⟨hlo, -⟩ := isValidPageSize_bounds h
  unfold lockPgno
  split
  · omega
  · have : pendingByte / size.toNat ≤ pendingByte := Nat.div_le_self _ _
    rw [pendingByte] at this ⊢
    omega

/-! ## Page headers -/

/-- The header of a page frame (`PageHeader`, `ltx.rs:190`). -/
structure PageHeader where
  pgno : UInt32 := 0
  flags : UInt16 := 0
  deriving DecidableEq

namespace PageHeader

def isZero (p : PageHeader) : Bool := p.pgno == 0 && p.flags == 0

def parse (b : Bytes) : LtxResult PageHeader := do
  reject (decide (b.length < pageHeaderSize)) .ltxCorrupted
  pure ⟨u32Be b, u16Be (b.drop 4)⟩

def marshal (p : PageHeader) : Bytes := Bytes.be 4 p.pgno.toNat ++ Bytes.be 2 p.flags.toNat

def validate (p : PageHeader) : LtxResult Unit := do
  reject (p.pgno == 0) .ltxCorrupted
  reject (p.flags != p.flags &&& pageHeaderFlagMask) .ltxCorrupted

@[simp] theorem length_marshal (p : PageHeader) : p.marshal.length = pageHeaderSize := by
  rw [marshal, length_append, Bytes.length_be, Bytes.length_be, pageHeaderSize]

theorem parse_marshal (p : PageHeader) : parse p.marshal = .ok p := by
  unfold parse
  rw [length_marshal, marshal, u32Be_be, drop_left' (Bytes.length_be _ _),
    ← append_nil (Bytes.be 2 _), u16Be_be]
  rfl

/-- The marker that ends the pages. -/
theorem parse_zeros : parse (List.replicate pageHeaderSize 0) = .ok {} := rfl

/-- A page header passes with the flag that announces the size of its block. -/
theorem validate_withSize {p : PageHeader} (h : p.validate = .ok ()) :
    p.pgno ≠ 0 ∧ validate ⟨p.pgno, p.flags ||| pageHeaderFlagSize⟩ = .ok () ∧
      (p.flags ||| pageHeaderFlagSize) &&& pageHeaderFlagSize ≠ 0 := by
  simp only [validate, reject_bind_eq_ok, reject_eq_ok, beq_eq_false_iff_ne,
    bne_eq_false_iff_eq, pageHeaderFlagMask] at h ⊢
  obtain ⟨hpgno, hflags⟩ := h
  have hsize : p.flags ||| pageHeaderFlagSize = pageHeaderFlagSize := by
    rw [hflags, ← UInt16.toBitVec_inj, UInt16.toBitVec_or, UInt16.toBitVec_and]
    ext i hi
    simp
  rw [hsize]
  exact ⟨hpgno, ⟨hpgno, rfl⟩, by decide⟩

end PageHeader

/-! ## The trailer -/

/-- The trailer of an LTX file (`Trailer`, `ltx.rs:229`). -/
structure Trailer where
  postApplyChecksum : UInt64 := 0
  fileChecksum : UInt64 := 0
  deriving DecidableEq

namespace Trailer

def validate (t : Trailer) (header : Header) : LtxResult Unit := do
  reject (if header.noChecksum then t.postApplyChecksum != 0
    else t.postApplyChecksum == 0 || t.postApplyChecksum &&& Checksum.flag == 0) .ltxCorrupted
  reject (t.fileChecksum == 0 || t.fileChecksum &&& Checksum.flag == 0) .ltxCorrupted

def parse (b : Bytes) : LtxResult Trailer := do
  reject (decide (b.length < trailerSize)) .ltxCorrupted
  pure ⟨u64Be b, u64Be (b.drop 8)⟩

def marshal (t : Trailer) : Bytes :=
  Bytes.be 8 t.postApplyChecksum.toNat ++ Bytes.be 8 t.fileChecksum.toNat

@[simp] theorem length_marshal (t : Trailer) : t.marshal.length = trailerSize := by
  rw [marshal, length_append, Bytes.length_be, Bytes.length_be, trailerSize]

theorem parse_marshal (t : Trailer) : parse t.marshal = .ok t := by
  unfold parse
  rw [length_marshal, marshal, u64Be_be, drop_left' (Bytes.length_be _ _),
    ← append_nil (Bytes.be 8 t.fileChecksum.toNat), u64Be_be]
  rfl

end Trailer

end Cellule
