import Cellule.Lib.Checked
import Cellule.Ltx.Lz4Sound

/-!
# The page compressor on its buffer

The compressor of `cellule-ltx/src/lz4_block.rs` with the output buffer it allocates beforehand, and
with every index, slice and subtraction checked (`Lib.Checked`). It never aborts: it is the
compressor of `Lz4Block`. What has to be shown is that the bytes written so far and those of the
next sequence stay within the allocated size (`Lz4.Sequence.length_encode_le`).
-/

namespace Cellule.Lz4Block

open Checked List Except

namespace Compressor

/-- `Compressor::get` (`lz4_block.rs:139`). The table has one entry for each hash, the occupancy map
one word for 32 of them. -/
def getIn (c : Compressor) (hash si : Nat) : Code LtxError Int := do
  bound (hash % hashSize / 32) (hashSize / 32)
  bound (hash % hashSize) hashSize
  return c.get hash si

/-- `Compressor::put` (`lz4_block.rs:152`). -/
def putIn (c : Compressor) (hash si : Nat) : Code LtxError Compressor := do
  bound (hash % hashSize) hashSize
  bound (hash % hashSize / 32) (hashSize / 32)
  return c.put hash si

end Compressor

/-- The probes of one iteration (`Compressor::compress`, `lz4_block.rs:38`). -/
def probeIn (src : Bytes) (c : Compressor) (si : Nat) : Code LtxError Probe := do
  let matched ← lift (readU64Le src si)
  let hash := blockHash matched
  let hash2 := blockHash (matched / 2 ^ 8)
  let reference ← c.getIn hash si
  let reference2 ← c.getIn hash2 (si + 1)
  let c ← c.putIn hash si
  let c ← c.putIn hash2 (si + 1)
  let offset := (si : Int) - reference
  if matchesAt src (matched % 2 ^ 32) reference offset then
    return ⟨c, si, some offset.toNat⟩
  let hash := blockHash (matched / 2 ^ 16)
  let reference3 ← c.getIn hash (si + 2)
  let offset := ((si + 1 : Nat) : Int) - reference2
  if matchesAt src (matched / 2 ^ 8 % 2 ^ 32) reference2 offset then
    return ⟨c, si + 1, some offset.toNat⟩
  let offset := ((si + 2 : Nat) : Int) - reference3
  let c ← c.putIn hash (si + 2)
  if matchesAt src (matched / 2 ^ 16 % 2 ^ 32) reference3 offset then
    return ⟨c, si + 2, some offset.toNat⟩
  return ⟨c, si + 2, none⟩

/-- `Compressor::compress` (`lz4_block.rs:71`). -/
def extendBackIn (src : Bytes) :
    (literalLen si : Nat) → (target : Int) → (matchLen : Nat) → Code LtxError Extent
  | 0, si, _, matchLen => .ok ⟨si, 0, matchLen⟩
  | literalLen + 1, si, target, matchLen =>
    if 0 ≤ target then do
      let left ← sub si 1
      let a ← get src left
      let b ← get src target.toNat
      if a = b then extendBackIn src literalLen left (target - 1) (matchLen + 1)
      else .ok ⟨si, literalLen + 1, matchLen⟩
    else .ok ⟨si, literalLen + 1, matchLen⟩

/-- `Compressor::compress` (`lz4_block.rs:79`). -/
def extendForwardIn (src : Bytes) (sn offset si : Nat) : Code LtxError Nat :=
  if si + 8 ≤ sn then do
    let here ← lift (readU64Le src si)
    let back ← sub si offset
    let there ← lift (readU64Le src back)
    let diff := here ^^^ there
    if diff = 0 then extendForwardIn src sn offset (si + 8)
    else pure (si + trailingZeros 64 diff / 8)
  else pure si
termination_by sn - si

/-- `write_length` (`lz4_block.rs:190`). -/
def writeLengthIn (len : Nat) (dst : Bytes) (di : Nat) : Code LtxError (Bytes × Nat) :=
  if len < 0xff then do
    let dst ← modify dst di fun _ => UInt8.ofNat len
    return (dst, di + 1)
  else do
    let dst ← modify dst di fun _ => 0xff
    writeLengthIn (len - 0xff) dst (di + 1)
termination_by len
decreasing_by omega

/-- The token, written twice, first with the match length alone, and the bytes that extend the
literal length (`Compressor::compress`, `lz4_block.rs:92`). -/
def writeTokenIn (literalLen matchLen : Nat) (dst : Bytes) (di : Nat) :
    Code LtxError (Bytes × Nat) := do
  let dst ← modify dst di fun _ => UInt8.ofNat (min matchLen 0x0f)
  if literalLen < 0x0f then do
    let dst ← modify dst di (· ||| UInt8.ofNat (literalLen <<< 4))
    return (dst, di + 1)
  else do
    let dst ← modify dst di (· ||| 0xf0)
    let rest ← sub literalLen 0x0f
    writeLengthIn rest dst (di + 1)

/-- The bytes of one match (`Compressor::compress`, `lz4_block.rs:92`). -/
def emitIn (src : Bytes) (anchor literalLen offset matchLen : Nat) (dst : Bytes)
    (di : Nat) : Code LtxError (Bytes × Nat) := do
  let (dst, di) ← writeTokenIn literalLen matchLen dst di
  let literals ← slice src anchor (anchor + literalLen)
  let dst ← copyAt dst di literals
  let di := di + literalLen
  let dst ← copyAt dst di (Bytes.le 2 offset)
  let di := di + 2
  if matchLen ≥ 0x0f then do
    let rest ← sub matchLen 0x0f
    writeLengthIn rest dst di
  else return (dst, di)

/-- The locals of the compression loop, with the output buffer and the cursor in it. -/
structure BufferState where
  compressor : Compressor
  si : Nat
  anchor : Nat
  dst : Bytes
  di : Nat

/-- The part of an iteration that a found match takes (`Compressor::compress`,
`lz4_block.rs:67`). -/
def takeMatchIn (src : Bytes) (sn : Nat) (s : BufferState) (c : Compressor) (si offset : Nat) :
    Code LtxError BufferState := do
  let literalLen ← sub si s.anchor
  let back ← extendBackIn src literalLen si ((si : Int) - offset - 1) minMatch
  let matchBase := back.si + minMatch
  let si ← extendForwardIn src sn offset (back.si + back.matchLen)
  let matchLen ← sub si matchBase
  let (dst, di) ← emitIn src s.anchor back.literalLen offset matchLen s.dst s.di
  if si ≥ sn then
    return ⟨c, si, si, dst, di⟩
  let last ← sub si 2
  let value ← lift (readU64Le src last)
  let c ← c.putIn (blockHash value) last
  return ⟨c, si, si, dst, di⟩

/-- One iteration of the compression loop. -/
def stepIn (src : Bytes) (sn : Nat) (s : BufferState) : Code LtxError BufferState := do
  let p ← probeIn src s.compressor s.si
  match p.offset with
  | some offset => takeMatchIn src sn s p.compressor p.si offset
  | none => do
    let literals ← sub p.si s.anchor
    return { s with compressor := p.compressor, si := p.si + (2 + literals / 2 ^ 7) }

/-! ## The loop moves on -/

@[simp] theorem Compressor.getIn_eq (c : Compressor) (hash si : Nat) :
    c.getIn hash si = .ok (c.get hash si) := by
  have hhash : hash % hashSize < hashSize := Nat.mod_lt _ (by decide)
  have hsize : hashSize = 65536 := rfl
  rw [getIn, bound_of_lt (by omega), bound_of_lt hhash]
  rfl

@[simp] theorem Compressor.putIn_eq (c : Compressor) (hash si : Nat) :
    c.putIn hash si = .ok (c.put hash si) := by
  have hhash : hash % hashSize < hashSize := Nat.mod_lt _ (by decide)
  have hsize : hashSize = 65536 := rfl
  rw [putIn, bound_of_lt hhash, bound_of_lt (by omega)]
  rfl

/-- The probes read the input through a checked read, and the table through a masked index. -/
theorem probeIn_eq (src : Bytes) (c : Compressor) (si : Nat) :
    probeIn src c si = lift (probe src c si) := by
  unfold probeIn probe
  cases readU64Le src si with
  | error e => rfl
  | ok matched =>
    simp only [lift_ok, ok_bind, Compressor.getIn_eq, Compressor.putIn_eq]
    split
    · rfl
    · split
      · rfl
      · split
        · rfl
        · rfl

variable {src : Bytes} {literalLen si sn offset : Nat} {s : State} {b : BufferState}

/-- A checked extension that succeeds is the plain one. -/
theorem eq_of_extendBackIn (h : extendBackIn src literalLen si target matchLen = .ok back) :
    back = extendBack src literalLen si target matchLen := by
  induction literalLen generalizing si target matchLen with
  | zero =>
    cases h
    rfl
  | succ literalLen ih =>
    rw [extendBackIn] at h
    rw [extendBack]
    split at h
    · next htarget =>
      obtain ⟨left, hleft, h⟩ := bind_eq_ok.1 h
      obtain ⟨a, ha, h⟩ := bind_eq_ok.1 h
      obtain ⟨b, hb, h⟩ := bind_eq_ok.1 h
      obtain ⟨-, rfl⟩ := sub_eq_ok.1 hleft
      rw [get_eq_ok 0 ha, get_eq_ok 0 hb] at h
      split at h
      · next hsame =>
        rw [if_pos ⟨htarget, hsame⟩]
        exact ih h
      · next hsame =>
        rw [if_neg (fun hc => hsame hc.2)]
        cases h
        rfl
    · next htarget =>
      rw [if_neg (fun hc => htarget hc.1)]
      cases h
      rfl

theorem le_of_extendForwardIn (h : extendForwardIn src sn offset si = .ok si') : si ≤ si' := by
  induction si using extendForwardIn.induct sn with
  | case1 si hsi ih =>
    rw [extendForwardIn, if_pos hsi] at h
    obtain ⟨here, -, h⟩ := bind_eq_ok.1 h
    obtain ⟨back, -, h⟩ := bind_eq_ok.1 h
    obtain ⟨there, -, h⟩ := bind_eq_ok.1 h
    dsimp only at h
    split at h
    · exact le_trans (Nat.le_add_right _ _) (ih h)
    · cases h
      exact Nat.le_add_right _ _
  | case2 si hsi =>
    rw [extendForwardIn, if_neg hsi] at h
    cases h
    exact le_rfl

/-- What taking a match did to the position. -/
theorem lt_of_takeMatchIn {s s' : BufferState}
    (h : takeMatchIn src sn s c si offset = .ok s') : si < s'.si := by
  obtain ⟨literalLen, hliterals, h⟩ := bind_eq_ok.1 h
  obtain ⟨back, hback, h⟩ := bind_eq_ok.1 h
  obtain ⟨stop, hstop, h⟩ := bind_eq_ok.1 h
  obtain ⟨matchLen, -, h⟩ := bind_eq_ok.1 h
  obtain ⟨⟨dst, di⟩, -, h⟩ := bind_eq_ok.1 h
  have hsi : s'.si = stop := by
    dsimp only at h
    split at h
    · cases h
      rfl
    · obtain ⟨last, -, h⟩ := bind_eq_ok.1 h
      obtain ⟨value, -, h⟩ := bind_eq_ok.1 h
      obtain ⟨c', -, h⟩ := bind_eq_ok.1 h
      cases h
      rfl
  obtain ⟨-, rfl⟩ := sub_eq_ok.1 hliterals
  have hend := (extendBack_end src ((si : Int) - offset - 1) minMatch (Nat.sub_le si s.anchor)).2.1
  rw [← eq_of_extendBackIn hback] at hend
  have hle := le_of_extendForwardIn hstop
  have hmin : minMatch = 4 := rfl
  omega

/-- Every iteration moves on. -/
theorem lt_of_stepIn {s s' : BufferState} (h : stepIn src sn s = .ok s') : s.si < s'.si := by
  obtain ⟨p, hp, h⟩ := bind_eq_ok.1 h
  rw [probeIn_eq, lift_eq_ok] at hp
  have hle := le_of_probe hp
  split at h
  · exact lt_of_le_of_lt hle (lt_of_takeMatchIn h)
  · obtain ⟨literals, -, h⟩ := bind_eq_ok.1 h
    cases h
    dsimp only
    omega

/-- The compression loop (`Compressor::compress`, `lz4_block.rs:37`). -/
def compressLoopIn (src : Bytes) (sn : Nat) (s : BufferState) : Code LtxError BufferState :=
  if s.si < sn then
    match _ : stepIn src sn s with
    | .ok next => compressLoopIn src sn next
    | .error e => .error e
  else .ok s
termination_by sn - s.si
decreasing_by
  have := lt_of_stepIn ‹stepIn src sn s = .ok next›
  omega

/-- The length of the last literals (`Compressor::compress`, `lz4_block.rs:126`). -/
def writeLastLengthIn (literalLen : Nat) (dst : Bytes) (di : Nat) : Code LtxError (Bytes × Nat) :=
  if literalLen ≥ 0xff + 0x0f then do
    let dst ← modify dst di fun _ => 0xff
    writeLastLengthIn (literalLen - 0xff) dst (di + 1)
  else do
    let rest ← sub literalLen 0x0f
    let dst ← modify dst di fun _ => UInt8.ofNat rest
    return (dst, di + 1)
termination_by literalLen
decreasing_by omega

/-- The token of the last literals, and the bytes that extend their length (`Compressor::compress`,
`lz4_block.rs:121`). -/
def writeLastTokenIn (literalLen : Nat) (dst : Bytes) (di : Nat) : Code LtxError (Bytes × Nat) :=
  if literalLen < 0x0f then do
    let dst ← modify dst di fun _ => UInt8.ofNat (literalLen <<< 4)
    return (dst, di + 1)
  else do
    let dst ← modify dst di fun _ => 0xf0
    writeLastLengthIn literalLen dst (di + 1)

/-- The last literals (`Compressor::compress`, `lz4_block.rs:120`). -/
def emitLastIn (src : Bytes) (anchor : Nat) (dst : Bytes) (di : Nat) :
    Code LtxError (Bytes × Nat) := do
  let literalLen ← sub src.length anchor
  let (dst, di) ← writeLastTokenIn literalLen dst di
  let literals ← slice src anchor src.length
  let dst ← copyAt dst di literals
  return (dst, di + literals.length)

/-- Compresses one input into a buffer of `compress_bound` bytes, and returns the part that was
filled (`Compressor::compress`, `lz4_block.rs:27`). -/
def Compressor.compressIn (c : Compressor) (src : Bytes) : Code LtxError (Bytes × Compressor) := do
  let dst := List.replicate (compressBound src.length) 0
  let start : BufferState := ⟨{ c with inUse := fun _ => false }, 0, 0, dst, 0⟩
  let sn := src.length - matchFindLimit
  let s ← if src.length > matchFindLimit then compressLoopIn src sn start else pure start
  let (dst, di) ← emitLastIn src s.anchor s.dst s.di
  return (dst.take di, s.compressor)

/-! ## The checks pass -/

theorem extendBackIn_eq {target : Int} (matchLen : Nat) (hliterals : literalLen ≤ si)
    (hsi : si ≤ src.length) (htarget : target < si) :
    extendBackIn src literalLen si target matchLen
      = .ok (extendBack src literalLen si target matchLen) := by
  induction literalLen generalizing si target matchLen with
  | zero => rfl
  | succ literalLen ih =>
    rw [extendBackIn, extendBack]
    by_cases h : 0 ≤ target
    · rw [if_pos h, sub_of_le (by omega), ok_bind, get_of_lt (by omega) 0, ok_bind,
        get_of_lt (by omega) 0, ok_bind]
      by_cases hsame : src.getD (si - 1) 0 = src.getD target.toNat 0
      · rw [if_pos hsame, if_pos ⟨h, hsame⟩]
        exact ih (matchLen + 1) (by omega) (by omega) (by omega)
      · rw [if_neg hsame, if_neg fun hc => hsame hc.2]
    · rw [if_neg h, if_neg fun hc => h hc.1]

theorem extendForwardIn_eq (sn : Nat) (hoffset : offset ≤ si) :
    extendForwardIn src sn offset si = lift (extendForward src sn offset si) := by
  induction si using extendForward.induct sn with
  | case1 si hsi ih =>
    rw [extendForwardIn, extendForward, if_pos hsi, if_pos hsi]
    cases readU64Le src si with
    | error e => rfl
    | ok here =>
      rw [lift_ok, ok_bind, ok_bind, sub_of_le hoffset, ok_bind]
      cases readU64Le src (si - offset) with
      | error e => rfl
      | ok there =>
        rw [lift_ok, ok_bind, ok_bind]
        dsimp only
        split
        · exact ih (by omega)
        · rfl
  | case2 si hsi =>
    rw [extendForwardIn, extendForward, if_neg hsi, if_neg hsi]
    rfl

/-! ## The writes fit -/

theorem writeLengthIn_emits (len : Nat) : Emits (writeLengthIn len) (writeLength len) := by
  induction len using writeLength.induct with
  | case1 len hlt =>
    rw [writeLength, if_pos hlt]
    intro written room h
    rw [writeLengthIn, if_pos hlt]
    exact Emits.nil.cons (UInt8.ofNat len) written room h
  | case2 len hge ih =>
    rw [writeLength, if_neg hge]
    intro written room h
    rw [writeLengthIn, if_neg hge]
    exact ih.cons 0xff written room h

theorem writeLastLengthIn_emits (h : 15 ≤ literalLen) :
    Emits (writeLastLengthIn literalLen) (writeLastLength literalLen) := by
  induction literalLen using writeLastLength.induct with
  | case1 literalLen hge ih =>
    rw [writeLastLength, if_pos hge]
    intro written room hroom
    rw [writeLastLengthIn, if_pos hge]
    exact (ih (by omega)).cons 0xff written room hroom
  | case2 literalLen hlt =>
    rw [writeLastLength, if_neg hlt]
    intro written room hroom
    rw [writeLastLengthIn, if_neg hlt, sub_of_le h, ok_bind]
    exact Emits.nil.cons (UInt8.ofNat (literalLen - 0x0f)) written room hroom

theorem writeTokenIn_emits (literalLen matchLen : Nat) :
    Emits (writeTokenIn literalLen matchLen)
      (UInt8.ofNat (min matchLen 0x0f ||| if literalLen < 0x0f then literalLen <<< 4 else 0xf0)
        :: if literalLen < 0x0f then [] else writeLength (literalLen - 0x0f)) := by
  rintro written (_ | ⟨b, room⟩) h
  · cases h
  · unfold writeTokenIn
    rw [modify_append, ok_bind]
    by_cases hshort : literalLen < 0x0f
    · simp only [if_pos hshort] at h ⊢
      rw [modify_append, ok_bind, ← UInt8.ofNat_or]
      exact Emits.nil.behind written _ (Nat.zero_le _)
    · simp only [if_neg hshort] at h ⊢
      rw [modify_append, ok_bind, sub_of_le (by omega), ok_bind, UInt8.ofNat_or]
      exact (writeLengthIn_emits _).behind written _ (by simpa using h)

/-- A match adds its bytes. -/
theorem emitIn_emits (h : anchor + literalLen ≤ src.length) (offset matchLen : Nat) :
    Emits (emitIn src anchor literalLen offset matchLen)
      (emit src anchor literalLen offset matchLen) := by
  have hliterals : ((src.drop anchor).take literalLen).length = literalLen := by
    rw [length_take, length_drop]
    omega
  have htail : Emits (fun dst di => if matchLen ≥ 0x0f then do
        let rest ← sub matchLen 0x0f
        writeLengthIn rest dst di
      else (.ok (dst, di) : Code LtxError _))
      (if matchLen ≥ 0x0f then writeLength (matchLen - 0x0f) else []) := by
    split
    · next hlong =>
      intro written room hroom
      dsimp only
      rw [sub_of_le hlong, ok_bind]
      exact writeLengthIn_emits _ written room hroom
    · exact Emits.nil
  have hrest := (htail.append (Bytes.le 2 offset)).append ((src.drop anchor).take literalLen)
  have hall := (writeTokenIn_emits literalLen matchLen).seq hrest
  intro written room hroom
  have := hall written room hroom
  rw [hliterals, Bytes.length_le] at this
  unfold emitIn
  rw [slice_of_le (Nat.le_add_right _ _) h, Nat.add_sub_cancel_left]
  exact this

theorem writeLastTokenIn_emits (literalLen : Nat) :
    Emits (writeLastTokenIn literalLen) (if literalLen < 0x0f then [UInt8.ofNat (literalLen <<< 4)]
      else 0xf0 :: writeLastLength literalLen) := by
  intro written room hroom
  unfold writeLastTokenIn
  split
  · next hshort =>
    rw [if_pos hshort] at hroom
    exact Emits.nil.cons (UInt8.ofNat (literalLen <<< 4)) written room hroom
  · next hlong =>
    rw [if_neg hlong] at hroom
    exact (writeLastLengthIn_emits (by omega)).cons 0xf0 written room hroom

/-- The end adds the last literals. -/
theorem emitLastIn_emits (h : anchor ≤ src.length) :
    Emits (emitLastIn src anchor) (emitLast src anchor) := by
  have hcopy : Emits (fun dst di => do
      let dst ← copyAt dst di (src.drop anchor)
      (.ok (dst, di + (src.drop anchor).length) : Code LtxError _)) (src.drop anchor ++ []) :=
    Emits.nil.append (src.drop anchor)
  rw [append_nil] at hcopy
  intro written room hroom
  unfold emitLastIn
  rw [sub_of_le h, ok_bind, slice_of_le h (le_refl _), take_of_length_le
    (by rw [length_drop])]
  exact (writeLastTokenIn_emits (src.length - anchor)).seq hcopy written room hroom

/-! ## The run on the buffer -/

/-- A run on the buffer and the plain run stand at the same place: the buffer holds what was
written, then the room that is left. -/
structure Fills (n : Nat) (b : BufferState) (s : State) : Prop where
  compressor : b.compressor = s.compressor
  si : b.si = s.si
  anchor : b.anchor = s.anchor
  cursor : b.di = s.dst.length
  buffer : ∃ room, b.dst = s.dst ++ room ∧ s.dst.length + room.length = compressBound n

/-- What was written for a part of the input fits the buffer for the whole. -/
theorem Invariant.length_dst_le (h : Invariant src s) :
    s.dst.length ≤ compressBound src.length := by
  obtain ⟨sequences, hdst, hbody⟩ := h.written
  have hsum := Lz4.length_flatMap_encode_le hbody
  have hroom := h.room
  rw [← hdst, length_take, length_nil] at hsum
  unfold compressBound
  omega

/-- What a write leaves in the buffer. -/
theorem Fills.emit (h : Fills n b s) (hf : Emits f out)
    (hroom : (s.dst ++ out).length ≤ compressBound n) :
    ∃ room, f b.dst b.di = .ok (s.dst ++ out ++ room, (s.dst ++ out).length) ∧
      (s.dst ++ out).length + room.length = compressBound n := by
  obtain ⟨room, hdst, hlength⟩ := h.buffer
  rw [length_append] at hroom
  refine ⟨room.drop out.length, ?_, ?_⟩
  · rw [hdst, h.cursor, hf s.dst room (by omega), length_append]
  · rw [length_drop, length_append]
    omega

section
variable (hb : Fills src.length b s)
include hb

/-- A match is taken on the buffer as it is taken on the list. -/
theorem takeMatchIn_fills (hs' : Invariant src s') (hanchor : s.anchor ≤ si) (hsi : si ≤ src.length)
    (hoffset : offset ≤ si) (hpos : 0 < offset) (hrepeats : Repeats src offset si (si + 4))
    (h : takeMatch src (src.length - matchFindLimit) s c si offset = .ok s') :
    ∃ b', takeMatchIn src (src.length - matchFindLimit) b c si offset = .ok b' ∧
      Fills src.length b' s' := by
  obtain ⟨hle, hend, hliterals⟩ :=
    extendBack_end src ((si : Int) - offset - 1) minMatch (Nat.sub_le si s.anchor)
  have hback := (extendBack_repeats (si - s.anchor) minMatch hoffset hrepeats).1
  obtain ⟨hforward, hanchor', hdst⟩ := takeMatch_ok h
  have hstop := le_of_extendForward hforward
  have hmin : minMatch = 4 := rfl
  have hlength := hs'.length_dst_le
  rw [hdst] at hlength
  obtain ⟨room, hemit, hroom⟩ := hb.emit (emitIn_emits (by omega) offset _) hlength
  have hb' : ∀ c', c' = s'.compressor →
      Fills src.length ⟨c', s'.si, s'.si, s'.dst ++ room, s'.dst.length⟩ s' := fun c' hc' =>
    ⟨hc', rfl, hanchor'.symm, rfl, room, rfl, by rw [hdst]; exact hroom⟩
  unfold takeMatchIn
  rw [hb.anchor, sub_of_le hanchor, ok_bind,
    extendBackIn_eq minMatch (Nat.sub_le _ _) hsi (by omega), ok_bind]
  dsimp only
  rw [extendForwardIn_eq _ (by omega), hforward, lift_ok, ok_bind, sub_of_le (by omega),
    ok_bind, hemit, ok_bind, ← hdst]
  unfold takeMatch at h
  dsimp only at h ⊢
  rw [hforward, ok_bind] at h
  split
  · next hlast =>
    rw [if_pos hlast] at h
    exact ⟨_, rfl, hb' _ (congrArg State.compressor (ok.inj h))⟩
  · next hlast =>
    rw [if_neg hlast] at h
    obtain ⟨value, hvalue, h⟩ := bind_eq_ok.1 h
    rw [sub_of_le (by omega), ok_bind, hvalue, lift_ok, ok_bind, Compressor.putIn_eq, ok_bind]
    exact ⟨_, rfl, hb' _ (congrArg State.compressor (ok.inj h))⟩

/-- Every iteration goes the same way on the buffer. -/
theorem stepIn_fills (hs : Invariant src s) (hsi : s.si < src.length - matchFindLimit) :
    ∃ b' s', stepIn src (src.length - matchFindLimit) b = .ok b' ∧
      step src (src.length - matchFindLimit) s = .ok s' ∧ Fills src.length b' s' ∧
      Invariant src s' := by
  have hlimit : matchFindLimit = 14 := rfl
  have hanchor := hs.anchor_le
  obtain ⟨s', hstep, hs'⟩ := step_spec hs hsi
  obtain ⟨p, hp, hle, hle', hmatch⟩ := probe_spec s.compressor (show s.si + 8 ≤ src.length by omega)
  suffices h : ∃ b', stepIn src (src.length - matchFindLimit) b = .ok b' ∧ Fills src.length b' s' by
    obtain ⟨b', hb', hfills⟩ := h
    exact ⟨b', s', hb', hstep, hfills, hs'⟩
  unfold step at hstep
  unfold stepIn
  rw [hp, ok_bind] at hstep
  rw [probeIn_eq, hb.compressor, hb.si, hp, lift_ok, ok_bind]
  cases hoffset : p.offset with
  | some offset =>
    rw [hoffset] at hstep
    obtain ⟨hpos, hlt, hback, hrepeats⟩ := hmatch offset hoffset
    exact takeMatchIn_fills hb hs' (by omega) (by omega) hback hpos hrepeats hstep
  | none =>
    rw [hoffset] at hstep
    cases hstep
    dsimp only
    rw [hb.anchor, sub_of_le (by omega), ok_bind]
    exact ⟨_, rfl, rfl, rfl, rfl, hb.cursor, hb.buffer⟩

/-- The loop goes the same way on the buffer. -/
theorem compressLoopIn_fills (hs : Invariant src s) :
    ∃ b' s', compressLoopIn src (src.length - matchFindLimit) b = .ok b' ∧
      compressLoop src (src.length - matchFindLimit) s = .ok s' ∧ Fills src.length b' s' ∧
      Invariant src s' := by
  induction b using compressLoopIn.induct src (src.length - matchFindLimit) generalizing s with
  | case1 b hsi next hnext ih =>
    obtain ⟨b', s', hb', hs'', hfills, hinv⟩ := stepIn_fills hb hs (hb.si ▸ hsi)
    rw [hnext] at hb'
    cases hb'
    obtain ⟨b', t, hloop, hloop', hrest⟩ := ih hfills hinv
    refine ⟨b', t, ?_, ?_, hrest⟩
    · rw [compressLoopIn, if_pos hsi]
      split
      · next next' hnext' =>
        rw [hnext] at hnext'
        cases hnext'
        exact hloop
      · next e he =>
        rw [hnext] at he
        cases he
    · rw [compressLoop, if_pos (hb.si ▸ hsi)]
      split
      · next next' hnext' =>
        rw [hs''] at hnext'
        cases hnext'
        exact hloop'
      · next e he =>
        rw [hs''] at he
        cases he
  | case2 b hsi e he =>
    obtain ⟨b', s', hb', -⟩ := stepIn_fills hb hs (hb.si ▸ hsi)
    rw [he] at hb'
    cases hb'
  | case3 b hsi =>
    rw [compressLoopIn, if_neg hsi, compressLoop, if_neg (hb.si ▸ hsi)]
    exact ⟨b, s, rfl, rfl, hb, hs⟩

/-- The end of a run: the part of the buffer that was filled. -/
theorem Fills.finish (hanchor : s.anchor ≤ src.length)
    (hlength : (s.dst ++ emitLast src s.anchor).length ≤ compressBound src.length) :
    (do
      let (dst, di) ← emitLastIn src b.anchor b.dst b.di
      return (dst.take di, b.compressor) : Code LtxError (Bytes × Compressor))
      = .ok (s.dst ++ emitLast src s.anchor, s.compressor) := by
  obtain ⟨room, hemit, -⟩ := hb.emit (emitLastIn_emits hanchor) hlength
  rw [hb.anchor, hemit, ok_bind, hb.compressor]
  dsimp only
  rw [take_left' rfl]
  rfl

end

/-- On its buffer the compressor does what it does on a list. -/
theorem Compressor.compressIn_eq (c : Compressor) (src : Bytes) :
    c.compressIn src = lift (c.compress src) := by
  obtain ⟨block, c', hok, -⟩ := c.compress_block src
  have hlength := length_compress_le hok
  have hstart : Fills src.length
      ⟨{ c with inUse := fun _ => false }, 0, 0, List.replicate (compressBound src.length) 0, 0⟩
      ⟨{ c with inUse := fun _ => false }, 0, 0, []⟩ :=
    ⟨rfl, rfl, rfl, rfl, List.replicate (compressBound src.length) 0, rfl, by
      rw [length_replicate, length_nil, Nat.zero_add]⟩
  rw [hok, lift_ok]
  unfold compress at hok
  unfold compressIn
  dsimp only at hok ⊢
  split
  · next hlong =>
    have hlimit : matchFindLimit = 14 := rfl
    obtain ⟨b, s, hloop, hloop', hb, hinv⟩ := compressLoopIn_fills hstart
      ⟨le_rfl, by dsimp only; omega, [], rfl, rfl⟩
    rw [if_pos hlong, hloop', ok_bind] at hok
    cases hok
    rw [hloop, ok_bind]
    exact hb.finish (by have := hinv.room; omega) hlength
  · next hshort =>
    rw [if_neg hshort] at hok
    cases hok
    exact hstart.finish (Nat.zero_le _) hlength

/-- The compressor never leaves its buffers, fits its bound, and writes a block that decodes to the
input, whatever earlier inputs left in its table. Every match lies within the window and copies what
the block has produced. -/
theorem Compressor.compressIn_sound (c : Compressor) (src : Bytes) :
    ∃ block c', c.compressIn src = .ok (block, c') ∧
      block.length ≤ src.length + src.length / 255 + 16 ∧ Lz4.decode block = some src ∧
      ∃ (sequences : List Lz4.Sequence) (last : Bytes),
        block = sequences.flatMap Lz4.Sequence.encode ++ Lz4.encodeLast last ∧
        ∀ before q after, sequences = before ++ q :: after →
          1 ≤ q.offset ∧ q.offset ≤ 65535 ∧
          ∃ out, before.foldlM Lz4.Sequence.apply [] = some out ∧
            q.offset ≤ out.length + q.literals.length := by
  obtain ⟨block, c', hok, hblock⟩ := c.compress_block src
  refine ⟨block, c', by rw [compressIn_eq, hok, lift_ok], length_compress_le hok,
    Lz4.decode_of_block hblock, ?_⟩
  obtain ⟨sequences, body, last, hbody, -⟩ := hblock
  refine ⟨sequences, last, rfl, ?_⟩
  rintro before q after rfl
  exact ⟨q.offset_pos, Nat.le_of_lt_succ q.offset_lt, Lz4.offset_le_of_foldlM hbody⟩

end Cellule.Lz4Block
