import Cellule.Ltx.Lz4Block

/-!
# The page compressor writes LZ4 blocks

For every input, with whatever its hash table holds, the compressor returns an LZ4 block for the
input that fits the buffer. The table only proposes positions: a match is taken after its bytes have
been compared, and the proof carries the comparison (`Repeats`) from the probes through the two
extensions to the sequence that is written.
-/

namespace Cellule.Lz4Block

open List Except

/-- The bytes from `lo` to `hi` are those `offset` back. -/
def Repeats (src : Bytes) (offset lo hi : Nat) : Prop :=
  ∀ j, lo ≤ j → j < hi → src.getD j 0 = src.getD (j - offset) 0

variable {src : Bytes} {offset si : Nat} {s : State}

theorem Repeats.append (hl : Repeats src offset lo mid)
    (hr : Repeats src offset mid hi) : Repeats src offset lo hi := by
  intro j hlo hhi
  rcases Nat.lt_or_ge j mid with h | h
  · exact hl j hlo h
  · exact hr j h hhi

/-- Two windows with the same bytes repeat each other. -/
theorem repeats_of_window (hle : offset ≤ si)
    (h : (src.drop si).take k = (src.drop (si - offset)).take k) :
    Repeats src offset si (si + k) := by
  intro j hlo hhi
  have hj := congrArg (·.getD (j - si) 0) h
  simp only [getD_eq_getElem?_getD, getElem?_take_of_lt (show j - si < k by omega),
    getElem?_drop] at hj
  rw [getD_eq_getElem?_getD, getD_eq_getElem?_getD]
  rwa [show si + (j - si) = j by omega, show si - offset + (j - si) = j - offset by omega] at hj

/-! ## Words -/

theorem readU64Le_eq (h : si + 8 ≤ src.length) :
    readU64Le src si = .ok (Bytes.ofLe ((src.drop si).take 8)) := by
  have hlen : ((src.drop si).take 8).length = 8 := by
    rw [length_take, length_drop]
    omega
  unfold readU64Le
  simp only [hlen]
  rfl

/-- The four bytes of a word from its byte `k` on are those of the input. -/
theorem word_eq (src : Bytes) (si : Nat) (hk : k ≤ 4) :
    Bytes.ofLe ((src.drop si).take 8) / 256 ^ k % 256 ^ 4
      = Bytes.ofLe ((src.drop (si + k)).take 4) := by
  rw [Bytes.ofLe_div, Bytes.ofLe_mod, drop_take, take_take, drop_drop, Nat.min_eq_left (by omega)]

/-- A probe that matches has compared four bytes. -/
theorem repeats_of_matchesAt (hsi : si + 4 ≤ src.length)
    (hvalue : value = Bytes.ofLe ((src.drop si).take 4))
    (h : matchesAt src value reference (si - reference) = true) :
    let offset := ((si : Int) - reference).toNat
    0 < offset ∧ offset < 65536 ∧ offset ≤ si ∧ Repeats src offset si (si + 4) := by
  simp only [matchesAt, Bool.and_eq_true, decide_eq_true_eq, beq_iff_eq] at h
  obtain ⟨⟨⟨hpos, hlt⟩, hreference⟩, hlen, hsame⟩ := h
  have hwindow : (windowSize : Int) = 65536 := rfl
  have hle : ((si : Int) - reference).toNat ≤ si := by omega
  refine ⟨by omega, by omega, hle, repeats_of_window hle ?_⟩
  rw [show si - ((si : Int) - reference).toNat = reference.toNat by omega]
  refine Bytes.ofLe_injective ?_ (hvalue ▸ hsame)
  rw [hlen, length_take, length_drop]
  omega

/-- The probes succeed inside the input, and a match they report holds over four bytes. -/
theorem probe_spec (c : Compressor) (h : si + 8 ≤ src.length) :
    ∃ p, probe src c si = .ok p ∧ si ≤ p.si ∧ p.si ≤ si + 2 ∧
      ∀ offset, p.offset = some offset →
        0 < offset ∧ offset < 65536 ∧ offset ≤ p.si ∧ Repeats src offset p.si (p.si + 4) := by
  have hword := fun k (hk : k ≤ 4) => word_eq src si hk
  unfold probe
  rw [readU64Le_eq h, ok_bind]
  dsimp only
  split
  · next hmatch =>
    refine ⟨_, rfl, le_rfl, Nat.le_add_right _ _, fun offset hoffset => ?_⟩
    cases hoffset
    exact repeats_of_matchesAt (by omega) (by simpa using hword 0 (by omega)) hmatch
  · split
    · next hmatch =>
      refine ⟨_, rfl, Nat.le_succ _, Nat.le_succ _, fun offset hoffset => ?_⟩
      cases hoffset
      exact repeats_of_matchesAt (by omega) (hword 1 (by omega)) hmatch
    · split
      · next hmatch =>
        refine ⟨_, rfl, Nat.le_add_right _ _, le_rfl, fun offset hoffset => ?_⟩
        cases hoffset
        exact repeats_of_matchesAt (by omega) (hword 2 (by omega)) hmatch
      · exact ⟨_, rfl, Nat.le_add_right _ _, le_rfl, nofun⟩

/-! ## Extending a match -/

/-- A match that is moved back still repeats, and still refers to the input. -/
theorem extendBack_repeats (literalLen matchLen : Nat) (hoffset : offset ≤ si)
    (h : Repeats src offset si hi) :
    let back := extendBack src literalLen si ((si : Int) - offset - 1) matchLen
    offset ≤ back.si ∧ Repeats src offset back.si hi := by
  induction literalLen generalizing si matchLen with
  | zero => exact ⟨hoffset, h⟩
  | succ literalLen ih =>
    simp only [extendBack]
    split
    · next hback =>
      obtain ⟨htarget, hbyte⟩ := hback
      have hlt : offset + 1 ≤ si := by omega
      rw [show (si : Int) - offset - 1 - 1 = ((si - 1 : Nat) : Int) - offset - 1 by omega]
      refine ih (matchLen + 1) (by omega) (fun j hlo hhi => ?_)
      rcases Nat.lt_or_ge j si with hj | hj
      · rw [show ((si : Int) - offset - 1).toNat = si - 1 - offset by omega] at hbyte
        rw [show j = si - 1 by omega]
        exact hbyte
      · exact h j hj hhi
    · exact ⟨hoffset, h⟩

theorem two_pow_trailingZeros_dvd (bits n : Nat) : 2 ^ trailingZeros bits n ∣ n := by
  induction bits generalizing n with
  | zero => exact Nat.one_dvd _
  | succ bits ih =>
    rw [trailingZeros]
    split
    · exact Nat.one_dvd _
    · rw [Nat.pow_succ']
      exact (Nat.mul_dvd_mul_left 2 (ih (n / 2))).trans (dvd_of_eq (by omega))

theorem trailingZeros_le (bits n : Nat) : trailingZeros bits n ≤ bits := by
  induction bits generalizing n with
  | zero => exact le_rfl
  | succ bits ih =>
    rw [trailingZeros]
    split
    · exact Nat.zero_le _
    · exact Nat.succ_le_succ (ih _)

/-- The zero bytes of a difference are bytes that agree. -/
theorem pow_dvd_of_trailingZeros (n : Nat) : 256 ^ (trailingZeros 64 n / 8) ∣ n := by
  refine Dvd.dvd.trans ?_ (two_pow_trailingZeros_dvd 64 n)
  rw [show 256 = 2 ^ 8 from rfl, ← Nat.pow_mul]
  exact Nat.pow_dvd_pow 2 (Nat.mul_div_le _ _)

/-- A match that is moved forward still repeats, and stays below the limit. -/
theorem extendForward_spec (offset si : Nat) (hsn : sn ≤ src.length) (hoffset : offset ≤ si) :
    ∃ si', extendForward src sn offset si = .ok si' ∧ si' ≤ max si sn ∧
      Repeats src offset si si' := by
  induction si using extendForward.induct sn with
  | case1 si hsi ih =>
    have hwords : ∀ k, k ≤ 8 → 256 ^ k ∣ Bytes.ofLe ((src.drop si).take 8)
        ^^^ Bytes.ofLe ((src.drop (si - offset)).take 8) → Repeats src offset si (si + k) := by
      intro k hk hdvd
      refine repeats_of_window hoffset ?_
      have htake := Bytes.take_eq_take_of_xor (by
        rw [length_take, length_take, length_drop, length_drop]
        omega) hdvd
      rwa [take_take, take_take, Nat.min_eq_left hk] at htake
    rw [extendForward, if_pos hsi, readU64Le_eq (by omega), readU64Le_eq (by omega),
      ok_bind, ok_bind]
    dsimp only
    split
    · next hdiff =>
      obtain ⟨si', hok, hle, hrepeats⟩ := ih (by omega)
      refine ⟨si', hok, by omega, Repeats.append (hwords 8 le_rfl ?_) hrepeats⟩
      rw [hdiff]
      exact dvd_zero _
    · have hk : trailingZeros 64 (Bytes.ofLe ((src.drop si).take 8)
          ^^^ Bytes.ofLe ((src.drop (si - offset)).take 8)) / 8 ≤ 8 :=
        (Nat.div_le_div_right (trailingZeros_le 64 _)).trans (by decide)
      exact ⟨_, rfl, by omega, hwords _ hk (pow_dvd_of_trailingZeros _)⟩
  | case2 si hsi =>
    rw [extendForward, if_neg hsi]
    exact ⟨si, rfl, le_max_left _ _, fun j hlo hhi => absurd hhi (by omega)⟩

/-! ## Writing a sequence -/

theorem writeLength_eq (len : Nat) :
    writeLength len = List.replicate (len / 255) 255 ++ [UInt8.ofNat (len % 255)] := by
  induction len using writeLength.induct with
  | case1 len hlt =>
    rw [writeLength, if_pos hlt, Nat.div_eq_of_lt hlt, Nat.mod_eq_of_lt hlt]
    rfl
  | case2 len hge ih =>
    rw [writeLength, if_neg hge, ih, show len / 255 = (len - 255) / 255 + 1 by omega,
      show len % 255 = (len - 255) % 255 by omega]
    rfl

theorem writeLastLength_eq (h : 15 ≤ literalLen) :
    writeLastLength literalLen = writeLength (literalLen - 15) := by
  induction literalLen using writeLastLength.induct with
  | case1 literalLen hge ih =>
    rw [writeLastLength, if_pos hge, writeLength, if_neg (by omega), ih (by omega),
      show literalLen - 0xff - 15 = literalLen - 15 - 0xff by omega]
  | case2 literalLen hlt =>
    rw [writeLastLength, if_neg hlt, writeLength, if_pos (by omega)]

/-- The two lengths in the token do not meet. -/
theorem token_eq (literalLen matchLen : Nat) :
    (min matchLen 0x0f ||| if literalLen < 0x0f then literalLen <<< 4 else 0xf0)
      = min literalLen 15 * 16 + min matchLen 15 := by
  have hshift : (if literalLen < 0x0f then literalLen <<< 4 else 0xf0)
    = min literalLen 15 <<< 4 := by
    split
    · rw [Nat.min_eq_left (by omega)]
    · rw [Nat.min_eq_right (by omega)]
      rfl
  rw [hshift, Nat.or_comm, ← Nat.shiftLeft_add_eq_or_of_lt (by omega), Nat.shiftLeft_eq]

/-- What a match adds to the output is a sequence of the format. -/
theorem emit_eq (h : anchor + literalLen ≤ src.length) (matchLen : Nat)
    (hpos : 0 < offset) (hlt : offset < 65536) :
    emit src anchor literalLen offset matchLen
      = Lz4.Sequence.encode
        ⟨(src.drop anchor).take literalLen, offset, matchLen + 4, hpos, hlt,
          Nat.le_add_left _ _⟩ := by
  have hlen : ((src.drop anchor).take literalLen).length = literalLen := by
    rw [length_take, length_drop]
    omega
  have htail : ∀ n, (if n ≥ 0x0f then writeLength (n - 0x0f) else []) = Lz4.lengthTail n := by
    intro n
    unfold Lz4.lengthTail
    split
    · rw [if_neg (by omega), writeLength_eq]
    · rw [if_pos (by omega)]
  have hhead : (if literalLen < 0x0f then [] else writeLength (literalLen - 0x0f))
      = Lz4.lengthTail literalLen := by
    rw [← htail]
    by_cases hl : literalLen < 0x0f
    · rw [if_pos hl, if_neg (by omega)]
    · rw [if_neg hl, if_pos (by omega)]
  simp only [emit, Lz4.Sequence.encode, Lz4.token, hlen, htail, hhead, token_eq, Nat.add_sub_cancel]

/-- What the end adds to the output is the last run of literals. -/
theorem emitLast_eq (src : Bytes) (anchor : Nat) :
    emitLast src anchor = Lz4.encodeLast (src.drop anchor) := by
  unfold emitLast Lz4.encodeLast Lz4.lengthTail Lz4.token
  rw [length_drop]
  dsimp only
  split
  · rw [Nat.min_eq_left (by omega), Nat.shiftLeft_eq]
    rfl
  · rw [Nat.min_eq_right (by omega), writeLastLength_eq (by omega), writeLength_eq]
    rfl

/-! ## The loop -/

/-- What the compressor has written stands for the input before the anchor, and the anchor leaves
the bytes that must stay literals. -/
structure Invariant (src : Bytes) (s : State) : Prop where
  anchor_le : s.anchor ≤ s.si
  room : s.anchor + 9 ≤ src.length
  written : ∃ sequences : List Lz4.Sequence, s.dst = sequences.flatMap Lz4.Sequence.encode ∧
    sequences.foldlM Lz4.Sequence.apply [] = some (src.take s.anchor)

/-- The literals and the match of a sequence extend the output to the end of the match. -/
theorem apply_take (hstart : anchor ≤ start) (hpos : 0 < offset)
    (hlt : offset < 65536) (hoffset : offset ≤ start) (hlen : start + 4 ≤ stop)
    (hstop : stop ≤ src.length) (h : Repeats src offset start stop) :
    Lz4.Sequence.apply (src.take anchor)
      ⟨(src.drop anchor).take (start - anchor), offset, stop - (start + 4) + 4, hpos, hlt,
        Nat.le_add_left _ _⟩ = some (src.take stop) := by
  have hliterals : src.take anchor ++ (src.drop anchor).take (start - anchor) = src.take start := by
    rw [← take_add, Nat.add_sub_cancel' hstart]
  have hlength : (src.take anchor).length + ((src.drop anchor).take (start - anchor)).length
      = start := by
    rw [← length_append, hliterals, length_take]
    omega
  rw [Lz4.Sequence.apply, if_pos (hlength.symm ▸ hoffset)]
  dsimp only
  rw [hliterals, show stop - (start + 4) + 4 = stop - start by omega,
    Lz4.copyMatch_take hpos hoffset (by omega) (fun i hi => h _ (by omega) (by omega)),
    Nat.add_sub_cancel' (by omega)]

/-- A match that was found is taken, and extends what the output stands for. -/
theorem takeMatch_spec (c : Compressor) (hs : Invariant src s) (hanchor : s.anchor ≤ si)
    (hsi : si + 13 ≤ src.length) (hpos : 0 < offset) (hlt : offset < 65536) (hoffset : offset ≤ si)
    (h : Repeats src offset si (si + 4)) :
    ∃ s', takeMatch src (src.length - matchFindLimit) s c si offset = .ok s' ∧
      Invariant src s' := by
  have hlimit : matchFindLimit = 14 := rfl
  obtain ⟨hle, hend, hliterals⟩ :=
    extendBack_end src ((si : Int) - offset - 1) minMatch (Nat.sub_le si s.anchor)
  obtain ⟨hback, hrepeats⟩ := extendBack_repeats (si - s.anchor) minMatch hoffset h
  generalize hb : extendBack src (si - s.anchor) si ((si : Int) - offset - 1) minMatch = back at *
  have hmin : minMatch = 4 := rfl
  obtain ⟨si', hforward, hmax, hmore⟩ := extendForward_spec offset (back.si + back.matchLen)
    (Nat.sub_le src.length matchFindLimit) (by omega)
  have hstart := le_of_extendForward hforward
  have hwhole : Repeats src offset back.si si' := by
    refine hrepeats.append ?_
    rwa [hend, hmin] at hmore
  have happly := apply_take (show s.anchor ≤ back.si by omega) hpos hlt hback
    (show back.si + 4 ≤ si' by omega) (by omega) hwhole
  have hok : ∃ s', takeMatch src (src.length - matchFindLimit) s c si offset = .ok s' := by
    unfold takeMatch
    rw [hb]
    dsimp only
    rw [hforward, ok_bind]
    split
    · exact ⟨_, rfl⟩
    · rw [readU64Le_eq (by omega), ok_bind]
      exact ⟨_, rfl⟩
  obtain ⟨s', hs'⟩ := hok
  refine ⟨s', hs', ?_⟩
  obtain ⟨hforward', hanchor', hdst⟩ := takeMatch_ok hs'
  rw [hb, hforward] at hforward'
  cases hforward'
  obtain ⟨sequences, hseq, hbody⟩ := hs.written
  rw [hb, show back.literalLen = back.si - s.anchor by omega, hmin,
    emit_eq (by omega) _ hpos hlt] at hdst
  obtain ⟨q, hq, hdst⟩ : ∃ q : Lz4.Sequence, q.apply (src.take s.anchor) = some (src.take s'.si) ∧
      s'.dst = s.dst ++ q.encode := ⟨_, happly, hdst⟩
  refine ⟨hanchor'.le, by omega, sequences ++ [q], ?_, ?_⟩
  · rw [hdst, hseq, flatMap_append, flatMap_singleton]
  · rw [foldlM_append, hbody, hanchor']
    simpa using hq

/-- Every iteration succeeds and keeps the invariant. -/
theorem step_spec (hs : Invariant src s) (hsi : s.si < src.length - matchFindLimit) :
    ∃ s', step src (src.length - matchFindLimit) s = .ok s' ∧ Invariant src s' := by
  have hlimit : matchFindLimit = 14 := rfl
  have hanchor := hs.anchor_le
  obtain ⟨p, hp, hle, hle', hmatch⟩ := probe_spec s.compressor (show s.si + 8 ≤ src.length by omega)
  unfold step
  rw [hp, ok_bind]
  cases hoffset : p.offset with
  | some offset =>
    obtain ⟨hpos, hlt, hback, hrepeats⟩ := hmatch offset hoffset
    exact takeMatch_spec _ hs (by omega) (by omega) hpos hlt hback hrepeats
  | none => exact ⟨_, rfl, by dsimp only; omega, hs.room, hs.written⟩

/-- The loop ends and keeps the invariant. -/
theorem compressLoop_spec (hs : Invariant src s) :
    ∃ s', compressLoop src (src.length - matchFindLimit) s = .ok s' ∧ Invariant src s' := by
  induction s using compressLoop.induct src (src.length - matchFindLimit) with
  | case1 s hsi next hstep ih =>
    obtain ⟨s', hs', hinv⟩ := step_spec hs hsi
    rw [hstep] at hs'
    cases hs'
    obtain ⟨s'', hloop, hinv'⟩ := ih hinv
    refine ⟨s'', ?_, hinv'⟩
    rw [compressLoop, if_pos hsi]
    split
    · next next' hstep' =>
      rw [hstep] at hstep'
      cases hstep'
      exact hloop
    · next e he =>
      rw [hstep] at he
      cases he
  | case2 s hsi e he =>
    obtain ⟨s', hs', -⟩ := step_spec hs hsi
    rw [he] at hs'
    cases hs'
  | case3 s hsi =>
    rw [compressLoop, if_neg hsi]
    exact ⟨s, rfl, hs⟩

/-- The compressor returns an LZ4 block for its input, whatever its table holds. -/
theorem Compressor.compress_block (c : Compressor) (src : Bytes) :
    ∃ block c', c.compress src = .ok (block, c') ∧ Lz4.Block block src := by
  unfold compress
  dsimp only
  split
  · next hlong =>
    have hlimit : matchFindLimit = 14 := rfl
    have hstart : Invariant src ⟨{ c with inUse := fun _ => false }, 0, 0, []⟩ :=
      ⟨le_rfl, by dsimp only; omega, [], rfl, rfl⟩
    obtain ⟨s, hs, hinv⟩ := compressLoop_spec hstart
    obtain ⟨sequences, hdst, hbody⟩ := hinv.written
    have hroom := hinv.room
    rw [hs, ok_bind]
    refine ⟨_, _, rfl, ?_⟩
    have hblock := Lz4.Block.intro sequences (src.take s.anchor) (src.drop s.anchor) hbody (by
      intro q _
      have := q.four_le_length
      rw [length_drop]
      omega)
    rwa [take_append_drop, ← hdst, ← emitLast_eq] at hblock
  · exact ⟨_, _, rfl, by
      rw [emitLast_eq]
      exact Lz4.Block.intro [] [] src rfl (nofun)⟩

/-- The block fits the buffer that was sized for it. -/
theorem Compressor.length_compress_le {c c' : Compressor}
    (h : c.compress src = .ok (block, c')) : block.length ≤ compressBound src.length := by
  obtain ⟨block', c'', h', hblock⟩ := c.compress_block src
  rw [h] at h'
  cases h'
  have := hblock.length_le
  unfold compressBound
  omega

end Cellule.Lz4Block
