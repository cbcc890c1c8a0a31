import Mathlib.Data.Int.Basic

/-!
# A file as its bytes

A file has a size and a byte at every position, zero behind its end. Writing behind the end and
truncating to a larger size fill the gap with zeros, as an operating system does.
-/

/-- A file: bytes behind its end read as zero. -/
structure ByteFile where
  size : Nat
  byte : Nat → UInt8
  zero : ∀ i, size ≤ i → byte i = 0

namespace ByteFile

variable (f : ByteFile)

/-- Reads `n` bytes, zeros behind the end, and says whether the read went behind the end. -/
def read (offset n : Nat) : List UInt8 × Bool :=
  ((List.range n).map fun i => f.byte (offset + i), decide (0 < n ∧ f.size < offset + n))

/-- Writes bytes, growing the file as needed. -/
def write (offset : Nat) (data : List UInt8) : ByteFile where
  size := if data = [] then f.size else max f.size (offset + data.length)
  byte i := if offset ≤ i ∧ i < offset + data.length then data.getD (i - offset) 0 else f.byte i
  zero i hi := by
    split at hi
    · next h =>
      subst h
      rw [if_neg (by rw [List.length_nil]; omega)]
      exact f.zero i hi
    · rw [if_neg (by omega)]
      exact f.zero i (by omega)

/-- Cuts the file off, or grows it. -/
def truncate (size : Nat) : ByteFile where
  size := size
  byte i := if i < size then f.byte i else 0
  zero i hi := if_neg (by omega)

variable {f} {offset i : Nat} {data : List UInt8}

theorem byte_write_of_mem (h : offset ≤ i) (h' : i < offset + data.length) :
    (f.write offset data).byte i = data.getD (i - offset) 0 := if_pos ⟨h, h'⟩

theorem byte_write_of_not_mem (h : i < offset ∨ offset + data.length ≤ i) :
    (f.write offset data).byte i = f.byte i := if_neg (by omega)

theorem size_write (h : data ≠ []) :
    (f.write offset data).size = max f.size (offset + data.length) := if_neg h

@[simp] theorem write_nil (f : ByteFile) (offset : Nat) : f.write offset [] = f := by
  cases f
  simp only [write, if_true, List.length_nil, Nat.add_zero, ByteFile.mk.injEq, true_and]
  funext i
  rw [if_neg (by omega)]

theorem byte_truncate_of_lt {size : Nat} (h : i < size) : (f.truncate size).byte i = f.byte i :=
  if_pos h

theorem byte_truncate_of_le {size : Nat} (h : size ≤ i) : (f.truncate size).byte i = 0 :=
  if_neg (by omega)

/-- Two files read alike where they have the same bytes and the same size. -/
theorem read_congr {g : ByteFile} (hsize : f.size = g.size)
    (h : ∀ i, offset ≤ i → i < offset + n → f.byte i = g.byte i) :
    f.read offset n = g.read offset n := by
  unfold read
  rw [hsize]
  congr 1
  refine List.map_congr_left fun i hi => h _ (Nat.le_add_right _ _) ?_
  have := List.mem_range.1 hi
  omega

end ByteFile
