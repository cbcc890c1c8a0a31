import Mathlib.Algebra.Group.Int.Defs
import Mathlib.Data.List.Basic

/-!
# Protocol Buffers messages

The encoding of messages of the third version: a field that has its default value is left out, a
message that is present is written even when it is empty. Numbers are at most 64 bits wide.
-/

namespace Protobuf

/-- The bytes of a number, seven bits each, the low bits first; at most `rest` bytes follow. -/
def varintFrom : (rest n : Nat) → List UInt8
  | 0, n => [UInt8.ofNat n]
  | rest + 1, n =>
    if n < 128 then [UInt8.ofNat n] else UInt8.ofNat (n % 128 + 128) :: varintFrom rest (n / 128)

/-- The bytes of a number. -/
def varint (n : Nat) : List UInt8 := varintFrom 9 n

/-- A field of bytes or text. -/
def bytesField (field : Nat) (bytes : List UInt8) : List UInt8 :=
  if bytes.isEmpty then [] else varint (field * 8 + 2) ++ varint bytes.length ++ bytes

/-- A field of an unsigned number. -/
def uintField (field n : Nat) : List UInt8 :=
  if n = 0 then [] else varint (field * 8) ++ varint n

/-- A field of a signed number, in two's complement. -/
def intField (field : Nat) (n : Int) : List UInt8 := uintField field (n % 2 ^ 64).toNat

/-- A field with a message. -/
def messageField (field : Nat) (body : List UInt8) : List UInt8 :=
  varint (field * 8 + 2) ++ varint body.length ++ body

end Protobuf
