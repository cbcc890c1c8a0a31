import Mathlib

/-!
# CRC-64 (Go, ISO)

The checksum with the reflected polynomial `0xd800000000000000`, starting and ending with all bits
inverted, one bit at a time.
-/

namespace Crc64

/-- Shifts one bit out. -/
def bit (crc : UInt64) : UInt64 :=
  if crc &&& 1 = 1 then (crc >>> 1) ^^^ 0xd800000000000000 else crc >>> 1

/-- Takes one byte in. -/
def byte (crc : UInt64) (b : UInt8) : UInt64 := bit^[8] (crc ^^^ b.toUInt64)

/-- The checksum of a byte string. -/
def goIso (bytes : List UInt8) : UInt64 := ~~~(bytes.foldl byte (~~~0))

/-- The digits from one to nine. -/
example : goIso [49, 50, 51, 52, 53, 54, 55, 56, 57] = 0xb90956c775a41001 := by decide +kernel

end Crc64
