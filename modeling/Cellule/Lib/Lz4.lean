import Cellule.Lib.Bytes

/-!
# The LZ4 block format

A block is a row of sequences, each some literal bytes and a match that copies earlier output, and a
last run of literals. The format as a relation between the bytes of a block and those it stands for,
with the rules about its end, a decoder for it, and a bound on the size of a block.
-/

namespace Lz4

open List Option

/-! ## The bytes of a block -/

/-- Some literal bytes, then a match: `length` bytes, copied from `offset` bytes back. -/
structure Sequence where
  literals : Bytes
  offset : Nat
  length : Nat
  offset_pos : 0 < offset
  offset_lt : offset < 65536
  four_le_length : 4 ≤ length

/-- The first byte of a sequence: what of the two lengths fits in four bits each. -/
def token (literals excess : Nat) : UInt8 := UInt8.ofNat (min literals 15 * 16 + min excess 15)

/-- The bytes that follow the four bits of a length when these are not enough. -/
def lengthTail (n : Nat) : Bytes :=
  if n < 15 then [] else List.replicate ((n - 15) / 255) 255 ++ [UInt8.ofNat ((n - 15) % 255)]

/-- The bytes of a sequence. -/
def Sequence.encode (s : Sequence) : Bytes :=
  token s.literals.length (s.length - 4)
    :: (lengthTail s.literals.length ++ (s.literals ++ (Bytes.le 2 s.offset
      ++ lengthTail (s.length - 4))))

/-- The bytes of the last literals of a block. -/
def encodeLast (literals : Bytes) : Bytes :=
  token literals.length 0 :: (lengthTail literals.length ++ literals)

/-! ## What a block stands for -/

/-- Copies `n` bytes from `offset` back, one at a time: the source may overlap what is written. -/
def copyMatch (offset : Nat) : Nat → Bytes → Bytes
  | 0, out => out
  | n + 1, out => copyMatch offset n (out ++ [out.getD (out.length - offset) 0])

/-- The output after a sequence. Its match must start inside the output. -/
def Sequence.apply (out : Bytes) (s : Sequence) : Option Bytes :=
  if s.offset ≤ out.length + s.literals.length then
    some (copyMatch s.offset s.length (out ++ s.literals))
  else none

/-- The bytes `block` stand for `out`. The last sequence holds literals only, the last five bytes
are literals, and the last match starts twelve bytes before the end or earlier. -/
inductive Block : (block out : Bytes) → Prop
  | intro (sequences : List Sequence) (body last : Bytes)
      (hbody : sequences.foldlM Sequence.apply [] = some body)
      (hend : ∀ s ∈ sequences.getLast?, 5 ≤ last.length ∧ 12 ≤ s.length + last.length) :
      Block (sequences.flatMap Sequence.encode ++ encodeLast last) (body ++ last)

@[simp] theorem length_copyMatch (offset n : Nat) (out : Bytes) :
    (copyMatch offset n out).length = out.length + n := by
  induction n generalizing out with
  | zero => rfl
  | succ n ih =>
    rw [copyMatch, ih, length_append, length_singleton]
    omega

/-- A match over bytes that repeat those `offset` back extends one part of the input to a longer
one, whether or not it overlaps its source. -/
theorem copyMatch_take {input : Bytes} (hpos : 0 < offset)
    (hle : offset ≤ pos) (hlen : pos + n ≤ input.length)
    (hsame : ∀ i < n, input.getD (pos + i) 0 = input.getD (pos + i - offset) 0) :
    copyMatch offset n (input.take pos) = input.take (pos + n) := by
  induction n generalizing pos with
  | zero => rfl
  | succ n ih =>
    have hbyte : (input.take pos).getD ((input.take pos).length - offset) 0 = input.getD pos 0 := by
      rw [length_take, Nat.min_eq_left (by omega), getD_eq_getElem?_getD,
        getElem?_take_of_lt (by omega), ← getD_eq_getElem?_getD]
      exact (hsame 0 (by omega)).symm
    have hnext : input.take pos ++ [input.getD pos 0] = input.take (pos + 1) := by
      rw [take_add_one, getD_eq_getElem _ _ (by omega), getElem?_eq_getElem, toList_some]
    rw [copyMatch, hbyte, hnext, ih (by omega) (by omega) ?_]
    · rw [Nat.add_right_comm, Nat.add_assoc]
    · intro i hi
      have h := hsame (i + 1) (by omega)
      rwa [show pos + (i + 1) = pos + 1 + i by omega] at h

/-! ## Decoding -/

/-- Reads the bytes that extend a length. -/
def readTail : (length : Nat) → Bytes → Option (Nat × Bytes)
  | _, [] => none
  | length, b :: bytes =>
    if b = 255 then readTail (length + 255) bytes else some (length + b.toNat, bytes)

/-- Reads a length whose four bits are `bits`. -/
def readLength (bits : Nat) (bytes : Bytes) : Option (Nat × Bytes) :=
  if bits < 15 then some (bits, bytes) else readTail bits bytes

/-- Decodes the sequences of a block after `out`, with `fuel` for their number. -/
def decodeFrom : (fuel : Nat) → (out bytes : Bytes) → Option Bytes
  | 0, _, _ => none
  | _, _, [] => none
  | fuel + 1, out, t :: bytes => do
    let (literals, bytes) ← readLength (t.toNat / 16) bytes
    if bytes.length < literals then none else
    let out := out ++ bytes.take literals
    match bytes.drop literals with
    | [] => some out
    | [_] => none
    | lo :: hi :: bytes => do
      let (excess, bytes) ← readLength (t.toNat % 16) bytes
      let offset := Bytes.ofLe [lo, hi]
      if offset = 0 ∨ out.length < offset then none else
      decodeFrom fuel (copyMatch offset (excess + 4) out) bytes

/-- Decodes a block. -/
def decode (block : Bytes) : Option Bytes := decodeFrom block.length [] block

/-- A row of full bytes and a smaller one add up. -/
theorem readTail_replicate (k : Nat) (hr : r < 255) (length : Nat) (rest : Bytes) :
    readTail length (List.replicate k 255 ++ (UInt8.ofNat r :: rest))
      = some (length + 255 * k + r, rest) := by
  induction k generalizing length with
  | zero =>
    have hne : UInt8.ofNat r ≠ 255 := by
      intro h
      have := congrArg UInt8.toNat h
      rw [UInt8.toNat_ofNat'] at this
      simp only [UInt8.reduceToNat] at this
      omega
    rw [replicate_zero, nil_append, readTail, if_neg hne, UInt8.toNat_ofNat']
    congr 2
    omega
  | succ k ih =>
    rw [replicate_succ, cons_append, readTail, if_pos rfl, ih]
    congr 2
    omega

/-- A length is read back from its four bits and the bytes that extend them. -/
theorem readLength_lengthTail (n : Nat) (rest : Bytes) :
    readLength (min n 15) (lengthTail n ++ rest) = some (n, rest) := by
  unfold readLength lengthTail
  by_cases h : n < 15
  · rw [if_pos h, Nat.min_eq_left (by omega), if_pos h, nil_append]
  · rw [if_neg h, Nat.min_eq_right (by omega), if_neg (by omega), append_assoc,
      singleton_append, readTail_replicate _ (by omega)]
    congr 2
    omega

theorem toNat_token (literals excess : Nat) :
    (token literals excess).toNat = min literals 15 * 16 + min excess 15 := by
  rw [token, UInt8.toNat_ofNat']
  omega

/-- The two lengths of a token. -/
theorem token_div (literals excess : Nat) : (token literals excess).toNat / 16
    = min literals 15 := by
  rw [toNat_token]
  omega

theorem token_mod (literals excess : Nat) : (token literals excess).toNat % 16 = min excess 15 := by
  rw [toNat_token]
  omega

/-- The last literals end the decoding. -/
theorem decodeFrom_encodeLast (fuel : Nat) (out literals : Bytes) :
    decodeFrom (fuel + 1) out (encodeLast literals) = some (out ++ literals) := by
  rw [encodeLast, decodeFrom, token_div, readLength_lengthTail]
  simp

/-- A sequence is decoded to what it stands for. -/
theorem decodeFrom_encode (fuel : Nat) {s : Sequence} (rest : Bytes) (h : s.apply out = some out') :
    decodeFrom (fuel + 1) out (s.encode ++ rest) = decodeFrom fuel out' rest := by
  unfold Sequence.apply at h
  split at h
  · next hoffset =>
    cases h
    have hread : Bytes.ofLe [UInt8.ofNat s.offset, UInt8.ofNat (s.offset / 256)] = s.offset :=
      @Bytes.ofLe_le 2 s.offset (by have := s.offset_lt; omega)
    have hback : ¬(s.offset = 0 ∨ (out ++ s.literals).length < s.offset) := by
      have := s.offset_pos
      rw [length_append]
      omega
    have hlength : s.length - 4 + 4 = s.length := Nat.sub_add_cancel s.four_le_length
    rw [Sequence.encode, cons_append, decodeFrom, token_div, append_assoc, readLength_lengthTail]
    simp only [bind_eq_bind, bind_some, append_assoc, length_append,
      Nat.not_lt.2 (Nat.le_add_right _ _), ↓reduceIte, take_left, drop_left, Bytes.le,
      cons_append, nil_append, token_mod, readLength_lengthTail, hread, hlength]
    rw [if_neg (by simpa using hback)]
  · cases h

/-- A sequence takes one byte at least. -/
theorem length_le_flatMap_encode (sequences : List Sequence) :
    sequences.length ≤ (sequences.flatMap Sequence.encode).length := by
  induction sequences with
  | nil => exact Nat.zero_le _
  | cons s sequences ih =>
    rw [flatMap_cons, length_append, length_cons, Sequence.encode, length_cons]
    omega

/-- Every block decodes to what it stands for. -/
theorem decode_of_block (h : Block block out) : decode block = some out := by
  obtain ⟨sequences, body, last, hbody, -⟩ := h
  have hrun : ∀ (sequences : List Sequence) (fuel : Nat) (start : Bytes),
      sequences.foldlM Sequence.apply start = some body → sequences.length < fuel →
      decodeFrom fuel start (sequences.flatMap Sequence.encode ++ encodeLast last)
        = some (body ++ last) := by
    intro sequences
    induction sequences with
    | nil =>
      rintro (_ | fuel) start hstart hfuel
      · exact absurd hfuel (Nat.not_lt_zero _)
      · cases hstart
        exact decodeFrom_encodeLast fuel _ last
    | cons s sequences ih =>
      rintro (_ | fuel) start hstart hfuel
      · exact absurd hfuel (Nat.not_lt_zero _)
      · rw [foldlM_cons, bind_eq_bind, bind_eq_some_iff] at hstart
        obtain ⟨out, hs, hrest⟩ := hstart
        rw [flatMap_cons, append_assoc, decodeFrom_encode fuel _ hs]
        exact ih fuel out hrest (by simpa using hfuel)
  refine hrun sequences _ [] hbody ?_
  have hcount := length_le_flatMap_encode sequences
  rw [length_append, encodeLast, length_cons]
  omega

/-! ## The size of a block -/

/-- Bytes that extend a length, against the length. -/
theorem length_lengthTail_le (n : Nat) : (lengthTail n).length ≤ n / 255 + 1 := by
  unfold lengthTail
  split
  · exact Nat.zero_le _
  · rw [length_append, length_replicate, length_singleton]
    omega

/-- A sequence takes no more bytes than it stands for, apart from those that extend its literal
length: a match saves one byte at least. -/
theorem Sequence.length_encode_le (s : Sequence) :
    s.encode.length ≤ s.literals.length + s.length + s.literals.length / 255 := by
  have hliterals := length_lengthTail_le s.literals.length
  have hmatch : (lengthTail (s.length - 4)).length + 4 ≤ s.length := by
    have := s.four_le_length
    unfold lengthTail
    split
    · simpa using this
    · rw [length_append, length_replicate, length_singleton]
      omega
  simp only [encode, length_cons, length_append, Bytes.length_le]
  omega

/-- The output of a sequence is as long as its literals and its match. -/
theorem Sequence.length_of_apply {s : Sequence}
    (h : s.apply out = some out') : out'.length = out.length + s.literals.length + s.length := by
  unfold apply at h
  split at h
  · cases h
    rw [length_copyMatch, length_append]
  · cases h

/-- The sequences of a block are at most one byte in 255 longer than what they stand for. -/
theorem length_flatMap_encode_le {sequences : List Sequence} {start body : Bytes}
    (h : sequences.foldlM Sequence.apply start = some body) :
    (sequences.flatMap Sequence.encode).length + start.length + start.length / 255
      ≤ body.length + body.length / 255 := by
  induction sequences generalizing start with
  | nil =>
    cases h
    simp
  | cons s sequences ih =>
    rw [foldlM_cons, bind_eq_bind, bind_eq_some_iff] at h
    obtain ⟨out, hs, hrest⟩ := h
    have hsum := ih hrest
    have hsize := s.length_encode_le
    have hout := Sequence.length_of_apply hs
    rw [flatMap_cons, length_append]
    omega

/-- A block is at most one byte in 255 and two more bytes longer than what it stands for. -/
theorem Block.length_le {block out : Bytes} (h : Block block out) :
    block.length ≤ out.length + out.length / 255 + 2 := by
  obtain ⟨sequences, body, last, hbody, -⟩ := h
  have hsum := length_flatMap_encode_le hbody
  have hlast := length_lengthTail_le last.length
  simp only [encodeLast, length_append, length_cons]
  simp only [length_nil] at hsum
  omega

/-- A match of a row of sequences that applies copies from what the sequences before it and its own
literals have produced. -/
theorem offset_le_of_foldlM {before after : List Sequence}
    (h : (before ++ s :: after).foldlM Sequence.apply [] = some body) :
    ∃ out, before.foldlM Sequence.apply [] = some out ∧
      s.offset ≤ out.length + s.literals.length := by
  rw [foldlM_append, bind_eq_bind, bind_eq_some_iff] at h
  obtain ⟨out, hout, h⟩ := h
  rw [foldlM_cons, bind_eq_bind, bind_eq_some_iff] at h
  obtain ⟨out', hs, -⟩ := h
  refine ⟨out, hout, ?_⟩
  by_contra hc
  rw [Sequence.apply, if_neg hc] at hs
  cases hs

end Lz4
