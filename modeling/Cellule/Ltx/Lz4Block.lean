import Cellule.Identity
import Cellule.Lib.Except
import Cellule.Lib.Lz4

/-!
# The page compressor

The compressor of `cellule-ltx/src/lz4_block.rs`: a greedy match finder over a hash table of the
last positions of six-byte words. The table's answers are integers as in the source, where a
position before the input is a negative reference. The output buffer is the list of the bytes
written so far; the source sizes it by `compress_bound`, and a write past its end would abort.
-/

namespace Cellule.Lz4Block

open Except

def minMatch : Nat := 4

def windowSize : Nat := 2 ^ 16

def hashLog : Nat := 16

def hashSize : Nat := 2 ^ hashLog

def matchFindLimit : Nat := 10 + minMatch

/-- The hash table: the low sixteen bits of the last position of a word, and whether the entry is of
the current input (`Compressor`, `lz4_block.rs:12`). -/
structure Compressor where
  table : Nat → Nat
  inUse : Nat → Bool

instance : Inhabited Compressor := ⟨⟨fun _ => 0, fun _ => false⟩⟩

/-- The size of the output buffer (`compress_bound`, `lz4_block.rs:159`). -/
def compressBound (n : Nat) : Nat := n + n / 255 + 16

/-- `block_hash` (`lz4_block.rs:163`). -/
def blockHash (value : Nat) : Nat :=
  value * 2 ^ 16 % 2 ^ 64 * 227718039650203 % 2 ^ 64 / 2 ^ (64 - hashLog)

/-- `read_u64_le` (`lz4_block.rs:168`). -/
def readU64Le (src : Bytes) (offset : Nat) : LtxResult Nat := do
  let bytes := (src.drop offset).take 8
  Except.reject (bytes.length != 8) .ltxCorrupted
  pure (Bytes.ofLe bytes)

/-- `matches_at` (`lz4_block.rs:179`). -/
def matchesAt (src : Bytes) (value : Nat) (reference offset : Int) : Bool :=
  let bytes := (src.drop reference.toNat).take 4
  decide (0 < offset) && decide (offset < windowSize) && decide (0 ≤ reference)
    && (bytes.length == 4 && value == Bytes.ofLe bytes)

namespace Compressor

/-- The last position recorded for a hash, in the window that ends at `si` (`Compressor::get`,
`lz4_block.rs:139`). -/
def get (c : Compressor) (hash si : Nat) : Int :=
  let hash := hash % hashSize
  let pos : Int := if c.inUse hash then c.table hash else 0
  let pos := pos + (si / windowSize * windowSize : Nat)
  if pos ≥ si then pos - windowSize else pos

/-- `Compressor::put` (`lz4_block.rs:152`). -/
def put (c : Compressor) (hash si : Nat) : Compressor :=
  let hash := hash % hashSize
  { table := Function.update c.table hash (si % windowSize)
    inUse := Function.update c.inUse hash true }

end Compressor

/-- The locals of the compression loop. -/
structure State where
  compressor : Compressor
  si : Nat
  anchor : Nat
  dst : Bytes

/-- Where the three probes of one iteration ended, and the offset of the match they found. -/
structure Probe where
  compressor : Compressor
  si : Nat
  offset : Option Nat

/-- Probes the words at `si`, `si + 1` and `si + 2` for an earlier occurrence
(`Compressor::compress`, `lz4_block.rs:38`). -/
def probe (src : Bytes) (c : Compressor) (si : Nat) : LtxResult Probe := do
  let matched ← readU64Le src si
  let hash := blockHash matched
  let hash2 := blockHash (matched / 2 ^ 8)
  let reference := c.get hash si
  let reference2 := c.get hash2 (si + 1)
  let c := (c.put hash si).put hash2 (si + 1)
  let offset := (si : Int) - reference
  if matchesAt src (matched % 2 ^ 32) reference offset then
    return ⟨c, si, some offset.toNat⟩
  let hash := blockHash (matched / 2 ^ 16)
  let reference3 := c.get hash (si + 2)
  let offset := ((si + 1 : Nat) : Int) - reference2
  if matchesAt src (matched / 2 ^ 8 % 2 ^ 32) reference2 offset then
    return ⟨c, si + 1, some offset.toNat⟩
  let offset := ((si + 2 : Nat) : Int) - reference3
  let c := c.put hash (si + 2)
  if matchesAt src (matched / 2 ^ 16 % 2 ^ 32) reference3 offset then
    return ⟨c, si + 2, some offset.toNat⟩
  return ⟨c, si + 2, none⟩

/-- The start of a match, the literals before it and its length. -/
structure Extent where
  si : Nat
  literalLen : Nat
  matchLen : Nat

/-- Moves the start of a match back over the pending literals while the bytes agree
(`Compressor::compress`, `lz4_block.rs:71`). -/
def extendBack (src : Bytes) :
    (literalLen si : Nat) → (target : Int) → (matchLen : Nat) → Extent
  | 0, si, _, matchLen => ⟨si, 0, matchLen⟩
  | literalLen + 1, si, target, matchLen =>
    if 0 ≤ target ∧ src.getD (si - 1) 0 = src.getD target.toNat 0 then
      extendBack src literalLen (si - 1) (target - 1) (matchLen + 1)
    else ⟨si, literalLen + 1, matchLen⟩

/-- `u64::trailing_zeros`, with the number of bits still to look at. -/
def trailingZeros : (bits n : Nat) → Nat
  | 0, _ => 0
  | bits + 1, n => if n % 2 = 1 then 0 else trailingZeros bits (n / 2) + 1

/-- Moves the end of a match forward, eight bytes at a time (`Compressor::compress`,
`lz4_block.rs:79`). -/
def extendForward (src : Bytes) (sn offset si : Nat) : LtxResult Nat :=
  if si + 8 ≤ sn then do
    let here ← readU64Le src si
    let there ← readU64Le src (si - offset)
    let diff := here ^^^ there
    if diff = 0 then extendForward src sn offset (si + 8)
    else pure (si + trailingZeros 64 diff / 8)
  else pure si
termination_by sn - si

/-- `write_length` (`lz4_block.rs:190`). -/
def writeLength (len : Nat) : Bytes :=
  if len < 0xff then [UInt8.ofNat len] else 0xff :: writeLength (len - 0xff)

/-- The bytes one match adds to the output. `matchLen` does not count the four bytes every match has
(`Compressor::compress`, `lz4_block.rs:92`). -/
def emit (src : Bytes) (anchor literalLen offset matchLen : Nat) : Bytes :=
  let token := min matchLen 0x0f ||| if literalLen < 0x0f then literalLen <<< 4 else 0xf0
  UInt8.ofNat token
    :: ((if literalLen < 0x0f then [] else writeLength (literalLen - 0x0f))
      ++ ((src.drop anchor).take literalLen ++ (Bytes.le 2 offset
        ++ if matchLen ≥ 0x0f then writeLength (matchLen - 0x0f) else [])))

/-- The part of an iteration that a found match takes (`Compressor::compress`,
`lz4_block.rs:67`). -/
def takeMatch (src : Bytes) (sn : Nat) (s : State) (c : Compressor) (si offset : Nat) :
    LtxResult State := do
  let back := extendBack src (si - s.anchor) si ((si : Int) - offset - 1) minMatch
  let matchBase := back.si + minMatch
  let si ← extendForward src sn offset (back.si + back.matchLen)
  let dst := s.dst ++ emit src s.anchor back.literalLen offset (si - matchBase)
  if si ≥ sn then
    return ⟨c, si, si, dst⟩
  let value ← readU64Le src (si - 2)
  return ⟨c.put (blockHash value) (si - 2), si, si, dst⟩

/-- One iteration of the compression loop. -/
def step (src : Bytes) (sn : Nat) (s : State) : LtxResult State := do
  let p ← probe src s.compressor s.si
  match p.offset with
  | some offset => takeMatch src sn s p.compressor p.si offset
  | none => pure { s with compressor := p.compressor, si := p.si + (2 + (p.si - s.anchor) / 2 ^ 7) }

/-! ## The loop moves on -/

/-- Moving the start of a match back leaves its end, and what the match gains the literals lose. -/
theorem extendBack_end (src : Bytes) (target : Int) (matchLen : Nat) (h : literalLen ≤ si) :
    let back := extendBack src literalLen si target matchLen
    back.si ≤ si ∧ back.si + back.matchLen = si + matchLen ∧
      back.si + literalLen = si + back.literalLen := by
  induction literalLen generalizing si target matchLen with
  | zero => exact ⟨le_rfl, rfl, rfl⟩
  | succ literalLen ih =>
    simp only [extendBack]
    split
    · obtain ⟨hle, hend, hliterals⟩ := @ih (si - 1) (target - 1) (matchLen + 1) (by omega)
      omega
    · exact ⟨le_rfl, rfl, rfl⟩

/-- A match grows at its end only. -/
theorem le_of_extendForward (h : extendForward src sn offset si = .ok si') : si ≤ si' := by
  induction si using extendForward.induct sn with
  | case1 si hsi ih =>
    rw [extendForward, if_pos hsi] at h
    obtain ⟨here, -, h⟩ := bind_eq_ok.1 h
    obtain ⟨there, -, h⟩ := bind_eq_ok.1 h
    dsimp only at h
    split at h
    · exact le_trans (Nat.le_add_right _ _) (ih h)
    · cases h
      exact Nat.le_add_right _ _
  | case2 si hsi =>
    rw [extendForward, if_neg hsi] at h
    cases h
    exact le_rfl

/-- What taking a match did: the output grew by one sequence, and the anchor stands at its end. -/
theorem takeMatch_ok (h : takeMatch src sn s c si offset = .ok s') :
    let back := extendBack src (si - s.anchor) si ((si : Int) - offset - 1) minMatch
    extendForward src sn offset (back.si + back.matchLen) = .ok s'.si ∧ s'.anchor = s'.si ∧
      s'.dst = s.dst ++ emit src s.anchor back.literalLen offset
        (s'.si - (back.si + minMatch)) := by
  obtain ⟨si', hforward, h⟩ := bind_eq_ok.1 h
  dsimp only at h
  split at h
  · cases h
    exact ⟨hforward, rfl, rfl⟩
  · obtain ⟨value, -, h⟩ := bind_eq_ok.1 h
    cases h
    exact ⟨hforward, rfl, rfl⟩

/-- The probes move over two bytes at most. -/
theorem le_of_probe (h : probe src c si = .ok p) : si ≤ p.si := by
  obtain ⟨matched, -, h⟩ := bind_eq_ok.1 h
  dsimp only at h
  split at h
  · cases h
    exact le_rfl
  · split at h
    · cases h
      exact Nat.le_add_right _ _
    · split at h
      · cases h
        exact Nat.le_add_right _ _
      · cases h
        exact Nat.le_add_right _ _

/-- Every iteration moves on. -/
theorem lt_of_step (h : step src sn s = .ok s') : s.si < s'.si := by
  obtain ⟨p, hp, h⟩ := bind_eq_ok.1 h
  have hle := le_of_probe hp
  split at h
  · next offset hoffset =>
    have hend := (extendBack_end src ((p.si : Int) - offset - 1) minMatch
      (Nat.sub_le p.si s.anchor)).2.1
    have hforward := le_of_extendForward (takeMatch_ok h).1
    have : minMatch = 4 := rfl
    omega
  · cases h
    dsimp only
    omega

/-- The compression loop (`Compressor::compress`, `lz4_block.rs:37`). -/
def compressLoop (src : Bytes) (sn : Nat) (s : State) : LtxResult State :=
  if s.si < sn then
    match _ : step src sn s with
    | .ok next => compressLoop src sn next
    | .error e => .error e
  else .ok s
termination_by sn - s.si
decreasing_by
  have := lt_of_step ‹step src sn s = .ok next›
  omega

/-- The length of the last literals (`Compressor::compress`, `lz4_block.rs:126`). -/
def writeLastLength (literalLen : Nat) : Bytes :=
  if literalLen ≥ 0xff + 0x0f then 0xff :: writeLastLength (literalLen - 0xff)
  else [UInt8.ofNat (literalLen - 0x0f)]

/-- The last literals (`Compressor::compress`, `lz4_block.rs:120`). -/
def emitLast (src : Bytes) (anchor : Nat) : Bytes :=
  let literalLen := src.length - anchor
  (if literalLen < 0x0f then [UInt8.ofNat (literalLen <<< 4)]
    else 0xf0 :: writeLastLength literalLen) ++ src.drop anchor

/-- Compresses one input. The table keeps the entries of earlier inputs, but none of them is in use
(`Compressor::compress`, `lz4_block.rs:27`). -/
def Compressor.compress (c : Compressor) (src : Bytes) : LtxResult (Bytes × Compressor) := do
  let start : State := ⟨{ c with inUse := fun _ => false }, 0, 0, []⟩
  let sn := src.length - matchFindLimit
  let s ← if src.length > matchFindLimit then compressLoop src sn start else pure start
  pure (s.dst ++ emitLast src s.anchor, s.compressor)

end Cellule.Lz4Block
