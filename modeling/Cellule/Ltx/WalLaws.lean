import Cellule.Lib.CommitLog
import Cellule.Ltx.Wal

/-!
# Laws of reading a write-ahead log

What a reader goes through is a run of frames (`Run`). A run over a prefix of a log is a run over
the log (`Run.extend`), and a reader that is resumed behind a frame of a run stands where the run
stood (`Run.seekToOffset`). A page map is what the commits of the run say (`Run.pageMap`). So the
map of the whole log is that of a prefix overlaid with that of the resumed reader, unless a page was
cut off before the resume point and came back without a frame, or the frames after the resume point
commit no page that stays (`resumed_map_iff`).
-/

namespace Cellule

open Except CommitLog
open CommitLog (committed mark latest)
open List OrderedMap Option

namespace WalReader

/-! ## Frames -/

variable {bytes wal : Bytes} {buffer n : Nat} {f : Nat × Nat}

theorem elim_eq_ok : o.elim (.error WalError.eof) Except.ok = .ok bytes ↔ o = some bytes := by
  cases o <;> simp

theorem elim_eq_error {o : Option Bytes}
    (h : o.elim (.error WalError.eof) Except.ok = .error e) : e = .eof := by
  cases o with
  | none => exact (error.inj h).symm
  | some bytes => cases h

/-- What a frame that was read satisfies. -/
theorem readFrameInner_eq_ok {r : WalReader} :
    r.readFrameInner buffer verify = .ok x ↔
      buffer = r.pageSize.toNat ∧ ∃ hdr page c,
        r.readAt (walHeaderSize + r.frameN * r.frameSize) walFrameHeaderSize = some hdr ∧
        r.readAt (walHeaderSize + r.frameN * r.frameSize + walFrameHeaderSize) buffer = some page ∧
        r.salt1 = u32Be (hdr.drop 8) ∧ r.salt2 = u32Be (hdr.drop 12) ∧
        r.frameChecksum verify hdr page = .ok c ∧
        x = (((u32Be hdr).toNat, (u32Be (hdr.drop 4)).toNat),
          { r with chksum1 := c.1, chksum2 := c.2, frameN := r.frameN + 1 }) := by
  unfold readFrameInner
  rw [reject_bind_eq_ok, bne_eq_false_iff_eq]
  refine and_congr_right fun _ => ?_
  simp only [bind_eq_ok, elim_eq_ok, reject_eq_ok, Bool.or_eq_false_iff, bne_eq_false_iff_eq]
  constructor
  · rintro ⟨hdr, hhdr, page, hpage, _, ⟨hsalt1, hsalt2⟩, c, hc, hx⟩
    exact ⟨hdr, page, c, hhdr, hpage, hsalt1, hsalt2, hc, (ok.inj hx).symm⟩
  · rintro ⟨hdr, page, c, hhdr, hpage, hsalt1, hsalt2, hc, rfl⟩
    exact ⟨hdr, hhdr, page, hpage, (), ⟨hsalt1, hsalt2⟩, c, hc, rfl⟩

/-- With a buffer of the right size the only failure is the end of the log. -/
theorem readFrame_error {r : WalReader} (h : r.readFrame r.pageSize.toNat = .error e) :
    e = .eof := by
  unfold readFrame readFrameInner at h
  rw [bne_self_eq_false, reject_false, ok_bind] at h
  rcases bind_eq_error.1 h with h | ⟨hdr, -, h⟩
  · exact elim_eq_error h
  rcases bind_eq_error.1 h with h | ⟨page, -, h⟩
  · exact elim_eq_error h
  rcases bind_eq_error.1 h with h | ⟨_, -, h⟩
  · exact (reject_eq_error.1 h).2.symm
  rcases bind_eq_error.1 h with h | ⟨c, -, h⟩
  · unfold frameChecksum at h
    rw [if_pos rfl] at h
    rcases bind_eq_error.1 h with h | ⟨_, -, h⟩
    · exact (reject_eq_error.1 h).2.symm
    · cases h
  · cases h

/-- Bytes that are there are there in a longer image. -/
theorem readAt_extend {r : WalReader} (hwal : r.data <+: wal) {offset : Int}
    (h : r.readAt offset n = some bytes) :
    ({ r with data := wal } : WalReader).readAt offset n = some bytes := by
  obtain ⟨rest, rfl⟩ := hwal
  unfold readAt at h ⊢
  split at h
  · cases h
  · next hoffset =>
    rw [if_neg hoffset]
    obtain ⟨start, hstart, h⟩ := bind_eq_some_iff.1 h
    refine bind_eq_some_iff.2 ⟨start, hstart, ?_⟩
    split at h
    · cases h
    · next hle =>
      cases h
      rw [if_neg (by rw [length_append]; omega), drop_append_of_le_length (by omega),
        take_append_of_le_length (by rw [length_drop]; omega)]

/-- A frame of a log is a frame of the longer log. -/
theorem readFrame_extend {r r' : WalReader} (hwal : r.data <+: wal)
    (h : r.readFrame buffer = .ok (f, r')) :
    ({ r with data := wal } : WalReader).readFrame buffer = .ok (f, { r' with data := wal }) := by
  obtain ⟨hbuffer, hdr, page, c, hhdr, hpage, hsalt1, hsalt2, hc, hx⟩ := readFrameInner_eq_ok.1 h
  cases hx
  exact readFrameInner_eq_ok.2 ⟨hbuffer, hdr, page, c, readAt_extend hwal hhdr,
    readAt_extend hwal hpage, hsalt1, hsalt2, hc, rfl⟩

/-! ## Runs -/

/-- The reader goes through frames, one after another. -/
inductive Run : WalReader → List (Nat × Nat) → WalReader → Prop
  | nil (r : WalReader) : Run r [] r
  | cons {r r' r'' : WalReader} {f : Nat × Nat} {fs : List (Nat × Nat)}
      (h : r.readFrame r.pageSize.toNat = .ok (f, r')) (hrun : Run r' fs r'') : Run r (f :: fs) r''

variable {r r' r'' : WalReader} {fs gs : List (Nat × Nat)}

/-- A frame moves the reader, and changes nothing but the checksum. -/
theorem readFrame_moves {verify : Bool} (h : r.readFrameInner buffer verify = .ok (f, r')) :
    r' = { r with frameN := r.frameN + 1, chksum1 := r'.chksum1, chksum2 := r'.chksum2 } := by
  obtain ⟨-, _, _, _, -, -, -, -, -, hx⟩ := readFrameInner_eq_ok.1 h
  cases hx
  rfl

theorem Run.moves (h : Run r fs r') :
    r' = { r with
      frameN := r.frameN + fs.length, chksum1 := r'.chksum1, chksum2 := r'.chksum2 } := by
  induction h with
  | nil r => simp
  | cons h _ ih =>
    rw [ih, readFrame_moves h, length_cons]
    simp only [WalReader.mk.injEq, true_and, and_true]
    push_cast
    omega

theorem Run.append (h : Run r fs r') (h' : Run r' gs r'') : Run r (fs ++ gs) r'' := by
  induction h with
  | nil r => exact h'
  | cons h _ ih => exact .cons h (ih h')

theorem Run.split (h : Run r (fs ++ gs) r'') : ∃ r', Run r fs r' ∧ Run r' gs r'' := by
  induction fs generalizing r with
  | nil => exact ⟨r, .nil r, h⟩
  | cons f fs ih =>
    cases h with
    | cons h hrun =>
      obtain ⟨r', hfs, hgs⟩ := ih hrun
      exact ⟨r', .cons h hfs, hgs⟩

theorem Run.extend (h : Run r fs r') (hwal : r.data <+: wal) :
    Run { r with data := wal } fs { r' with data := wal } := by
  induction h with
  | nil r => exact .nil _
  | cons h _ ih =>
    refine .cons (readFrame_extend hwal h) (ih ?_)
    rw [readFrame_moves h]
    exact hwal

/-- A run that goes on as far as it can starts with every other run. -/
theorem Run.continues (h : Run r fs r') (h' : Run r gs r'')
    (hend : r''.readFrame r''.pageSize.toNat = .error .eof) : ∃ rest, gs = fs ++ rest ∧
      Run r' rest r'' := by
  induction h generalizing gs with
  | nil r => exact ⟨gs, rfl, h'⟩
  | cons hread hrun ih =>
    cases h' with
    | nil =>
      rw [hend] at hread
      cases hread
    | cons hread' hrun' =>
      rw [hread] at hread'
      cases hread'
      obtain ⟨rest, rfl, hrest⟩ := ih hrun'
      exact ⟨rest, rfl, hrest⟩

/-! ## Runs end -/

/-- Where a frame begins. -/
def frameOffset (r : WalReader) (i : Nat) : Int := walHeaderSize + i * r.frameSize

theorem frameSize_pos : 0 < r.frameSize := by
  unfold frameSize walFrameHeaderSize
  omega

/-- Where bytes that were read are in the image. -/
theorem readAt_bound {offset : Int} (h : r.readAt offset n = some bytes)
    (hoffset : walHeaderSize ≤ offset) :
    r.tailBase ≤ offset ∧ offset + n ≤ r.data.length + r.tailBase := by
  unfold readAt at h
  rw [if_neg (by omega)] at h
  obtain ⟨start, hstart, h⟩ := bind_eq_some_iff.1 h
  split at h
  · cases h
  · unfold WalReader.start at hstart
    split at hstart
    · cases hstart
      omega
    · split at hstart <;> cases hstart
      omega

/-- A frame that is read is inside the image. -/
theorem readFrame_bound (hn : r.frameN = n) (h : r.readFrame buffer = .ok (f, r')) :
    r.tailBase ≤ r.frameOffset n ∧
      r.frameOffset n + r.frameSize ≤ r.data.length + r.tailBase := by
  obtain ⟨hbuffer, hdr, page, c, hhdr, hpage, -⟩ := readFrameInner_eq_ok.1 h
  have hpos : (0 : Int) ≤ n * r.frameSize := mul_nonneg (Int.natCast_nonneg n) frameSize_pos.le
  have hsize : r.frameSize = buffer + walFrameHeaderSize := by rw [hbuffer, frameSize]
  rw [hn] at hhdr hpage
  have hend := (readAt_bound hpage (by omega)).2
  unfold frameOffset
  exact ⟨(readAt_bound hhdr (by omega)).1, by omega⟩

/-- A run is no longer than the image. -/
theorem Run.length_le (hn : r.frameN = n) (h : Run r fs r') : fs.length ≤ r.data.length ∧
    fs.length ≤ max 0 (r.data.length + r.tailBase - r.frameOffset n) := by
  induction h generalizing n with
  | nil r => simp
  | @cons r r' _ _ fs hread hrun ih =>
    -- the frames behind the first are in what is left of the image
    have hfirst := readFrame_bound hn hread
    have hmoves := readFrame_moves hread
    have hrest := (ih (n := n + 1) (by rw [hmoves, hn]; rfl)).2
    have hoffset : r'.frameOffset (n + 1) = r.frameOffset n + r.frameSize := by
      rw [hmoves]
      unfold frameOffset
      push_cast
      rw [add_mul, one_mul, ← add_assoc]
      rfl
    have hdata : r'.data = r.data := by rw [hmoves]
    have htail : r'.tailBase = r.tailBase := by rw [hmoves]
    have hpos := r.frameSize_pos
    rw [hdata, htail, hoffset] at hrest
    rw [length_cons]
    omega

/-- A reader goes on until a frame does not fit. -/
theorem exists_run (hn : r.frameN = n) :
    ∃ fs r', Run r fs r' ∧ r'.readFrame r'.pageSize.toNat = .error .eof := by
  have hlong : ∀ count, (∃ fs r', Run r fs r' ∧ r'.readFrame r'.pageSize.toNat = .error .eof) ∨
      ∃ fs r', Run r fs r' ∧ fs.length = count := by
    intro count
    induction count with
    | zero => exact .inr ⟨[], r, .nil r, rfl⟩
    | succ count ih =>
      rcases ih with hend | ⟨fs, r', hrun, hlength⟩
      · exact .inl hend
      · cases hread : r'.readFrame r'.pageSize.toNat with
        | error e =>
          rw [readFrame_error hread] at hread
          exact .inl ⟨fs, r', hrun, hread⟩
        | ok x =>
          exact .inr ⟨fs ++ [x.1], x.2, hrun.append (.cons hread (.nil _)), by simp [hlength]⟩
  rcases hlong (r.data.length + 1) with hend | ⟨fs, r', hrun, hlength⟩
  · exact hend
  · have := (hrun.length_le hn).1
    omega

/-! ## Resuming -/

/-- A checksum that was verified is the one that is stored. -/
theorem frameChecksum_adopt {s : WalReader}
    (h : r.frameChecksum true hdr page = .ok c) : s.frameChecksum false hdr page = .ok c := by
  obtain ⟨hstored, h⟩ := reject_bind_eq_ok.1 h
  rw [bne_eq_false_iff_eq] at hstored
  rw [← ok.inj h, hstored]
  rfl

/-- A reader that jumps behind the last frame of a run from the header stands where the run stands:
the checksum it adopts is the one the run found. -/
theorem Run.seekToOffset (hn : r.frameN = 0) (h : Run r (fs ++ [f]) r') :
    r.seekToOffset (r.frameOffset (fs ++ [f]).length) r.salt1 r.salt2 = .ok r' := by
  obtain ⟨r₁, hfs, hlast⟩ := h.split
  cases hlast with
  | cons hread hrun =>
    cases hrun
    have hmoves := hfs.moves
    have hsub : r.frameOffset (fs ++ [f]).length - walHeaderSize
        = ((fs.length + 1 : Nat) : Int) * r.frameSize := by
      rw [frameOffset, length_append, length_singleton]
      ring
    have hframe : { r with frameN := (fs.length : Int) }.readFrameInner r.pageSize.toNat false
        = .ok (f, r') := by
      generalize r₁.chksum1 = c₁, r₁.chksum2 = c₂ at hmoves
      subst hmoves
      rw [hn, zero_add] at hread
      obtain ⟨hbuffer, hdr, page, c, hhdr, hpage, hsalt1, hsalt2, hc, hx⟩ :=
        readFrameInner_eq_ok.1 hread
      exact readFrameInner_eq_ok.2 ⟨hbuffer, hdr, page, c, hhdr, hpage, hsalt1, hsalt2,
        frameChecksum_adopt hc, hx⟩
    unfold WalReader.seekToOffset
    rw [hsub, Int.mul_tmod_left, Int.mul_tdiv_cancel _ frameSize_pos.ne', bne_self_eq_false,
      reject_false, ok_bind]
    have hpred : (((fs.length + 1 : Nat) : Int) - 1) = fs.length := by omega
    dsimp only
    rw [hpred, hframe]

/-- A new reader stands at its first frame, and so does a new reader of a longer log. -/
theorem new_ok {data : Bytes} (h : WalReader.new data = .ok r) :
    r.data = data ∧ r.tailBase = 0 ∧ r.frameN = 0 ∧
      ∀ wal, data <+: wal → WalReader.new wal = .ok { r with data := wal } := by
  unfold WalReader.new readHeader at h
  obtain ⟨hdr, hhdr, h⟩ := bind_eq_ok.1 h
  obtain ⟨hmagic, h⟩ := reject_bind_eq_ok.1 h
  obtain ⟨hchecksum, h⟩ := reject_bind_eq_ok.1 h
  obtain ⟨hversion, h⟩ := reject_bind_eq_ok.1 h
  obtain ⟨hsize, h⟩ := reject_bind_eq_ok.1 h
  have hr := ok.inj h
  subst hr
  refine ⟨rfl, rfl, rfl, fun wal hwal => ?_⟩
  have hhdr' : ({ data := wal } : WalReader).readAt 0 walHeaderSize = some hdr :=
    readAt_extend hwal (elim_eq_ok.1 hhdr)
  unfold WalReader.new readHeader
  rw [hhdr', elim_some, ok_bind]
  exact reject_bind_eq_ok.2 ⟨hmagic, reject_bind_eq_ok.2 ⟨hchecksum,
    reject_bind_eq_ok.2 ⟨hversion, reject_bind_eq_ok.2 ⟨hsize, rfl⟩⟩⟩⟩

/-- Resuming a reader of the log behind the frames of a run from its header. -/
theorem Run.newWithOffset {data : Bytes} (hnew : WalReader.new data = .ok r)
    (h : Run r (fs ++ [f]) r') :
    WalReader.newWithOffset data (r.frameOffset (fs ++ [f]).length) r.salt1 r.salt2 = .ok r' := by
  have hn := (new_ok hnew).2.2.1
  have hpos : ¬r.frameOffset (fs ++ [f]).length ≤ walHeaderSize := by
    have hmul : (0 : Int) < (fs ++ [f]).length * r.frameSize :=
      mul_pos (by simp) frameSize_pos
    unfold frameOffset
    omega
  unfold WalReader.newWithOffset
  rw [decide_eq_false hpos, reject_false, ok_bind]
  exact bind_eq_ok.2 ⟨r, hnew, h.seekToOffset hn⟩

end WalReader

/-! ## Page maps -/

/-- A scan has gone through frames that begin at a given place. -/
structure PageScan.Covers (s : PageScan) (offset : Nat → Int) (place : Nat)
    (fs : List (Nat × Nat)) : Prop where
  commit : s.commit = mark fs
  map : ∀ pgno, s.map.get? pgno = (latest (committed fs) place pgno).map offset
  txMap : ∃ pending, fs = committed fs ++ pending ∧ ∀ pgno,
    s.txMap.get? pgno = (latest pending (place + (committed fs).length) pgno).map offset

theorem PageScan.covers_default (offset : Nat → Int) (place : Nat) :
    ({} : PageScan).Covers offset place [] :=
  ⟨rfl, fun _ => rfl, [], rfl, fun _ => rfl⟩

/-- One frame. -/
theorem PageScan.Covers.frame {s : PageScan} (h : s.Covers offset place fs) (pgno fcommit : Nat) :
    (s.frame pgno fcommit (offset (place + fs.length))).Covers offset place
      (fs ++ [(pgno, fcommit)]) := by
  obtain ⟨pending, hfs, htx⟩ := h.txMap
  have hlength : place + fs.length = place + (committed fs).length + pending.length := by
    conv_lhs => rw [hfs]
    rw [length_append, Nat.add_assoc]
  have hinsert : ∀ p, (s.txMap.insert pgno (offset (place + fs.length))).get? p
      = (latest (pending ++ [(pgno, fcommit)]) (place + (committed fs).length) p).map offset := by
    intro p
    rw [get?_insert, latest_append, htx, hlength]
    by_cases hp : p = pgno
    · simp [latest, hp]
    · simp [latest, hp, Ne.symm hp]
  unfold PageScan.frame
  by_cases hcommit : fcommit = 0
  · have hnone : committed [(pgno, fcommit)] = [] := by simp [committed, hcommit]
    have hcommitted : committed (fs ++ [(pgno, fcommit)]) = committed fs := by
      rw [committed_append, if_pos hnone]
    rw [if_neg (not_not.2 hcommit)]
    refine ⟨?_, ?_, pending ++ [(pgno, fcommit)], ?_, ?_⟩
    · rw [mark_append, if_pos hnone]
      exact h.commit
    · rw [hcommitted]
      exact h.map
    · rw [hcommitted, ← append_assoc, ← hfs]
    · rw [hcommitted]
      exact hinsert
  · have hsome : committed [(pgno, fcommit)] = [(pgno, fcommit)] := by simp [committed, hcommit]
    have hcommitted : committed (fs ++ [(pgno, fcommit)]) = fs ++ [(pgno, fcommit)] := by
      rw [committed_append, hsome, if_neg (cons_ne_nil _ _)]
    rw [if_pos hcommit]
    refine ⟨?_, fun p => ?_, [], ?_, fun p => rfl⟩
    · rw [mark_append, hsome, if_neg (cons_ne_nil _ _), mark, hsome]
      rfl
    · -- the frames of the transaction come after those committed before
      rw [get?_foldl_insert, hinsert, h.map, hcommitted, ← map_or,
        ← latest_append, ← append_assoc, ← hfs]
    · rw [hcommitted, append_nil]

namespace WalReader

variable {r r' : WalReader} {fs : List (Nat × Nat)}

variable {place commit : Nat} {last : Int}

/-- The loop goes through a run that ends. -/
theorem Run.scan {fuel : Nat} (h : Run r fs r')
    (hend : r'.readFrame r'.pageSize.toNat = .error .eof)
    (hn : r.frameN = (place + done.length : Nat)) (hfuel : fs.length < fuel)
    (hs : s.Covers r.frameOffset place done) :
    ∃ s', WalReader.scan fuel r s = .ok (r', s') ∧ s'.Covers r.frameOffset place (done ++ fs) := by
  induction h generalizing fuel done s with
  | nil r =>
    obtain ⟨fuel, rfl⟩ : ∃ n, fuel = n + 1 := ⟨fuel - 1, by omega⟩
    rw [append_nil]
    refine ⟨s, ?_, hs⟩
    rw [WalReader.scan, hend]
  | @cons r r₁ r' f fs hread hrun ih =>
    obtain ⟨fuel, rfl⟩ : ∃ n, fuel = n + 1 := ⟨fuel - 1, by omega⟩
    have hmoves := readFrame_moves hread
    have hn₁ : r₁.frameN = (place + (done ++ [f]).length : Nat) := by
      rw [hmoves, length_append, length_singleton]
      push_cast at hn ⊢
      rw [hn]
      ring
    have hoffset : r₁.frameOffset = r.frameOffset := by
      funext i
      rw [hmoves]
      rfl
    have hlast : r₁.offset = r.frameOffset (place + done.length) := by
      rw [← hoffset, WalReader.offset, hn₁, length_append, length_singleton, frameOffset,
        if_neg (by omega)]
      push_cast
      ring
    have hframe := hs.frame f.1 f.2
    rw [← hlast] at hframe
    have hfuel' : fs.length < fuel := by
      rw [length_cons] at hfuel
      omega
    obtain ⟨s', hscan, hs'⟩ := ih hend hn₁ hfuel' (hoffset ▸ hframe)
    rw [hoffset, append_assoc] at hs'
    refine ⟨s', ?_, hs'⟩
    rw [WalReader.scan, hread]
    exact hscan

/-- The loop over the offsets finds the highest. -/
theorem foldl_last (hpos : ∀ offset ∈ offsets, 0 < offset) (hlast : 0 ≤ last) :
    let found := offsets.foldl (fun last offset => if last = 0 ∨
      offset > last then offset else last)
      last
    found ∈ last :: offsets ∧ ∀ offset ∈ last :: offsets, offset ≤ found := by
  induction offsets generalizing last with
  | nil => simp
  | cons offset offsets ih =>
    obtain ⟨hoffset, hpos⟩ := forall_mem_cons.1 hpos
    dsimp only
    rw [foldl_cons]
    split
    · next hnew =>
      obtain ⟨hmem, hmax⟩ := ih hpos hoffset.le
      have hle := hmax offset mem_cons_self
      exact ⟨mem_cons_of_mem _ hmem, forall_mem_cons.2 ⟨by omega, hmax⟩⟩
    · next hold =>
      obtain ⟨hmem, hmax⟩ := ih hpos hlast
      obtain ⟨hle, hmax⟩ := forall_mem_cons.1 hmax
      exact ⟨by grind, forall_mem_cons.2 ⟨hle, forall_mem_cons.2 ⟨by omega, hmax⟩⟩⟩

/-- What a page map says of the frames it was made from. -/
structure Mapped (r : WalReader) (place : Nat) (fs : List (Nat × Nat)) (m : OrderedMap Nat Int)
    (last : Int) (commit : Nat) : Prop where
  get? : ∀ pgno, m.get? pgno
    = if pgno ≤ mark fs then (latest (committed fs) place pgno).map r.frameOffset else none
  empty : m.entries = [] → last = 0 ∧ commit = 0
  full : m.entries ≠ [] → commit = mark fs ∧ ∃ pgno i, pgno ≤ mark fs ∧
    latest (committed fs) place pgno = some i ∧ last = r.frameOffset (i + 1) ∧
    ∀ pgno' j, pgno' ≤ mark fs → latest (committed fs) place pgno' = some j → j ≤ i

theorem frameOffset_le : r.frameOffset i ≤ r.frameOffset j ↔ i ≤ j := by
  unfold frameOffset
  rw [add_le_add_iff_left, mul_le_mul_iff_left₀ frameSize_pos]
  exact Int.ofNat_le

/-- A page map is made of the frames of the reader's run. -/
theorem Run.pageMap (h : Run r fs r') (hend : r'.readFrame r'.pageSize.toNat = .error .eof)
    (hn : r.frameN = place) :
    ∃ m last commit, r.pageMap = .ok (r', m, last, commit) ∧ r.Mapped place fs m last commit := by
  have hfuel := (h.length_le hn).1
  obtain ⟨s, hscan, hs⟩ := h.scan hend hn (Nat.lt_succ_of_le hfuel)
    (PageScan.covers_default r.frameOffset place)
  have hget : ∀ pgno, (s.map.retain (· ≤ s.commit)).get? pgno
      = if pgno ≤ mark fs then (latest (committed fs) place pgno).map r.frameOffset else none := by
    intro pgno
    rw [get?_retain, hs.map, hs.commit]
    simp
  unfold WalReader.pageMap
  rw [hscan, ok_bind]
  dsimp only
  generalize s.map.retain (· ≤ s.commit) = m at hget ⊢
  by_cases hempty : m.entries = []
  · rw [if_pos (List.isEmpty_iff.2 hempty)]
    exact ⟨m, 0, 0, rfl, hget, fun _ => ⟨rfl, rfl⟩, fun hne => absurd hempty hne⟩
  · rw [if_neg (fun h => hempty (List.isEmpty_iff.1 h))]
    -- every offset in the map is that of a frame, and the highest is the last frame's
    have hframe : ∀ offset ∈ m.values, ∃ pgno i, pgno ≤ mark fs ∧
        latest (committed fs) place pgno = some i ∧ r.frameOffset i = offset := by
      intro offset hoffset
      obtain ⟨⟨pgno, offset⟩, hentry, rfl⟩ := mem_map.1 hoffset
      have hpage := get?_eq_some.2 hentry
      rw [hget] at hpage
      split at hpage
      · next hle =>
        obtain ⟨i, hi, hoffset⟩ := map_eq_some_iff.1 hpage
        exact ⟨pgno, i, hle, hi, hoffset⟩
      · cases hpage
    have hpos : ∀ offset ∈ m.values, 0 < offset := by
      intro offset hoffset
      obtain ⟨pgno, i, -, -, rfl⟩ := hframe offset hoffset
      have hle := (frameOffset_le (r := r)).2 (Nat.zero_le i)
      rw [frameOffset, walHeaderSize] at hle
      omega
    have hvalues : m.values ≠ [] := fun h => hempty (map_eq_nil_iff.1 h)
    obtain ⟨hmem, hmax⟩ := foldl_last hpos le_rfl
    replace hmax := (forall_mem_cons.1 hmax).2
    obtain ⟨offset, hoffset⟩ := exists_mem_of_ne_nil _ hvalues
    have hlt := (hpos offset hoffset).trans_le (hmax offset hoffset)
    obtain ⟨pgno, i, hle, hi, hoffset⟩ := hframe _ ((mem_cons.1 hmem).resolve_left hlt.ne')
    rw [← hoffset] at hmax ⊢
    refine ⟨m, _, _, rfl, hget, fun h => absurd h hempty, fun _ => ⟨hs.commit, pgno, i, hle, hi, ?_,
      fun pgno' j hle' hj => frameOffset_le.1 (hmax _ ?_)⟩⟩
    · have hsize : r'.frameSize = r.frameSize := by
        rw [h.moves]
        rfl
      rw [hsize, frameOffset, frameOffset]
      push_cast
      ring
    · refine mem_map.2 ⟨(pgno', r.frameOffset j), get?_eq_some.1 ?_, rfl⟩
      rw [hget, if_pos hle', hj]
      rfl

/-! ## Maps of a resumed reader -/

/-- The frames behind a resume point continue a database of `commit` pages: if they commit, they
write a page that stays or leave the size, and they write every page that has a frame before the
resume point, was cut off, and is a page again. -/
def Continues (fs : List (Nat × Nat)) (point commit : Nat) : Prop :=
  (committed (fs.drop point) ≠ [] → mark fs = commit ∨
    ∃ f ∈ committed (fs.drop point), f.1 ≤ mark fs) ∧
  ∀ f ∈ fs.take point, commit < f.1 → f.1 ≤ mark fs → f.1 ∈ (committed (fs.drop point)).map (·.1)

/-- The resume point of a page map is behind one of the frames it maps, and the committed frames
behind it are of pages that were cut off. -/
theorem Mapped.point (h : r.Mapped place fs m last commit) (hlast : last ≠ 0) :
    ∃ before f after, committed fs = (before ++ [f]) ++ after ∧
      last = r.frameOffset (place + (before ++ [f]).length) ∧ commit = mark fs ∧
      ∀ g ∈ after, mark fs < g.1 := by
  have hne : m.entries ≠ [] := fun hempty => hlast (h.empty hempty).1
  obtain ⟨hcommit, pgno, i, -, hi, rfl, hmax⟩ := h.full hne
  obtain ⟨before, after, c, hfs, rfl, -⟩ := latest_eq_some hi
  refine ⟨before, (pgno, c), after, by rw [hfs]; simp, by simp [Nat.add_assoc], hcommit,
    fun g hg => ?_⟩
  by_contra hle
  -- the last frame of a page that stays would be behind the highest
  obtain ⟨j, hj⟩ := isSome_iff_exists.1 (latest_isSome.2
    (mem_map_of_mem hg) : (latest after (place + (before ++ [(pgno, c)]).length) g.1).isSome)
  have hge := le_of_latest hj
  have hg' : latest (committed fs) place g.1 = some j := by
    rw [hfs, append_cons, latest_append, hj]
    rfl
  have hle' := hmax g.1 j (by omega) hg'
  rw [length_append, length_singleton] at hge
  omega

/-- A map holds nothing of the frames behind the last page that stays. -/
theorem Mapped.get?_of_cut (hm : r.Mapped 0 fs m last commit) (hfs : committed fs = log ++ done)
    (hcut : ∀ f ∈ done, mark fs < f.1) (pgno : Nat) :
    m.get? pgno = if pgno ≤ mark fs then (latest log 0 pgno).map r.frameOffset else none := by
  rw [hm.get?, hfs, latest_append]
  by_cases hle : pgno ≤ mark fs
  · have hnone : latest done (0 + log.length) pgno = none := by
      refine latest_eq_none.2 fun hmem => ?_
      obtain ⟨f, hf, rfl⟩ := mem_map.1 hmem
      have := hcut f hf
      omega
    rw [hnone, none_or]
  · rw [if_neg hle, if_neg hle]

/-- When the map of the whole log is the map of a part of it overlaid with that of the resumed
reader. -/
theorem Mapped.overlay_iff {w s : WalReader}
    (hoffset : r.frameOffset = w.frameOffset) (hoffset' : s.frameOffset = w.frameOffset)
    (hm : r.Mapped 0 fs m last commit) (hM : w.Mapped 0 (log ++ more) M lastM commitM)
    (hT : s.Mapped log.length more T lastT commitT) (hne : m.entries ≠ []) (hdone : done <+: more)
    (hfs : committed fs = log ++ done) (hcommit : commit = mark fs)
    (hcut : ∀ f ∈ done, mark fs < f.1) :
    (commitM = (if commitT = 0 then commit else commitT) ∧
      ∀ pgno ≤ commitM, M.get? pgno = (T.get? pgno).or (m.get? pgno)) ↔
    Continues (log ++ more) log.length commit := by
  subst hcommit
  have hmark : mark (log ++ done) = mark fs := by rw [← hfs, mark_committed]
  have hclosed : committed (log ++ done) = log ++ done := by
    rw [← hfs, committed_committed]
  have hmget : ∀ pgno, m.get? pgno
      = if pgno ≤ mark fs then (latest log 0 pgno).map w.frameOffset else none :=
    hoffset ▸ hm.get?_of_cut hfs hcut
  have hmne : ∀ {n : OrderedMap Nat Int}, (∀ pgno, n.get? pgno = m.get? pgno) → n.entries ≠ [] := by
    intro n hn hempty
    refine hne (entries_eq_nil.2 fun pgno => ?_)
    rw [← hn]
    exact entries_eq_nil.1 hempty pgno
  have hzero : mark fs ≠ 0 := by
    obtain ⟨-, pgno, i, -, hi, -⟩ := hm.full hne
    refine mark_ne_zero fun hnil => ?_
    rw [hnil] at hi
    cases hi
  unfold Continues
  rw [drop_left, take_left]
  rcases committed_resumed hdone hclosed with
    ⟨hmore, rfl, hcommitted, hmark'⟩ | ⟨hmore, hcommitted, hmark'⟩
  · -- nothing is committed behind the resume point
    have hTget : ∀ pgno, T.get? pgno = none := by
      intro pgno
      rw [hT.get?, hmore]
      split <;> rfl
    have hMget : ∀ pgno, M.get? pgno = m.get? pgno := by
      intro pgno
      rw [hM.get?, hmget, hcommitted, hmark', hmark]
    have hcommitT := (hT.empty (entries_eq_nil.2 hTget)).2
    have hcommitM := (hM.full (hmne hMget)).1
    rw [hmark', hmark] at hcommitM ⊢
    refine iff_of_true ⟨by rw [hcommitM, hcommitT, if_pos rfl], fun pgno _ => ?_⟩
      ⟨fun h => absurd hmore h, fun f _ hlt hle => by omega⟩
    rw [hTget, none_or, hMget]
  · have hMget : ∀ pgno, M.get? pgno = if pgno ≤ mark more then
        ((latest (committed more) log.length pgno).or (latest log 0 pgno)).map w.frameOffset
        else none := by
      intro pgno
      rw [hM.get?, hcommitted, hmark', latest_append, Nat.zero_add]
    have hTget : ∀ pgno, T.get? pgno = if pgno ≤ mark more then
        (latest (committed more) log.length pgno).map w.frameOffset else none := by
      intro pgno
      rw [hT.get?, hoffset']
    rw [hmark']
    by_cases hTne : T.entries = []
    · -- the committed frames behind the resume point are all of pages that do not stay
      have hcommitT := (hT.empty hTne).2
      have hgone : ∀ pgno ≤ mark more, latest (committed more) log.length pgno = none := by
        intro pgno hle
        have hnone := entries_eq_nil.1 hTne pgno
        rw [hTget, if_pos hle] at hnone
        exact map_eq_none_iff.1 hnone
      rw [hcommitT, if_pos rfl]
      constructor
      · rintro ⟨hcommitM, -⟩
        have hMne : M.entries ≠ [] := fun hempty => hzero (by rw [← hcommitM, (hM.empty hempty).2])
        have hsame : mark more = mark fs := by rw [← hcommitM, (hM.full hMne).1, hmark']
        exact ⟨fun _ => .inl hsame, fun f _ hlt hle => by omega⟩
      · rintro ⟨hstays, -⟩
        rcases hstays hmore with hsame | ⟨f, hf, hle⟩
        · have hMget' : ∀ pgno, M.get? pgno = m.get? pgno := by
            intro pgno
            rw [hMget, hmget, ← hsame]
            split
            · next hle => rw [hgone pgno hle, none_or]
            · rfl
          refine ⟨by rw [(hM.full (hmne hMget')).1, hmark', hsame], fun pgno _ => ?_⟩
          rw [entries_eq_nil.1 hTne, none_or, hMget']
        · exact absurd (mem_map_of_mem hf) (latest_eq_none.1 (hgone f.1 hle))
    · obtain ⟨hcommitT, pgno, i, hle, hi, -⟩ := hT.full hTne
      have hstays : ∃ f ∈ committed more, f.1 ≤ mark more := by
        obtain ⟨f, hf, rfl⟩ := mem_map.1 (latest_isSome.1 (isSome_of_eq_some hi))
        exact ⟨f, hf, hle⟩
      have hMne : M.entries ≠ [] := by
        intro hempty
        have hnone := entries_eq_nil.1 hempty pgno
        rw [hMget, if_pos hle, hi] at hnone
        cases hnone
      have hcommitM := (hM.full hMne).1
      rw [hmark'] at hcommitM
      rw [hcommitM, hcommitT, if_neg (mark_ne_zero hmore)]
      constructor
      · rintro ⟨-, hget⟩
        refine ⟨fun _ => .inr hstays, fun f hf hlt hle => ?_⟩
        by_contra hnot
        have heq := hget f.1 hle
        rw [hMget, hTget, hmget, if_pos hle, if_pos hle, if_neg (by omega),
          latest_eq_none.2 hnot, none_or, map_none, none_or, map_eq_none_iff] at heq
        exact latest_eq_none.1 heq (mem_map_of_mem hf)
      · rintro ⟨-, hcovered⟩
        refine ⟨rfl, fun pgno hle => ?_⟩
        rw [hMget, hTget, hmget, if_pos hle, if_pos hle]
        cases hlatest : latest (committed more) log.length pgno with
        | some j => rfl
        | none =>
          rw [none_or, map_none, none_or]
          split
          · rfl
          · next hgt =>
            rw [map_eq_none_iff]
            refine latest_eq_none.2 fun hmem => ?_
            obtain ⟨f, hf, rfl⟩ := mem_map.1 hmem
            exact latest_eq_none.1 hlatest (hcovered f hf (by omega) hle)

/-- Scanning a part of a log and resuming at its end composes to a scan of the whole log exactly if
the frames behind the resume point continue the database. -/
theorem resumed_map_iff {data wal : Bytes} (hwal : data <+: wal) {r r₁ : WalReader}
    {m : OrderedMap Nat Int} {last : Int} {commit : Nat} (hnew : WalReader.new data = .ok r)
    (hmap : r.pageMap = .ok (r₁, m, last, commit)) (hlast : last ≠ 0) :
    ∃ fs w s M lastM commitM T lastT commitT point,
      Run { r with data := wal } fs w ∧ w.readFrame w.pageSize.toNat = .error .eof ∧
      last = r.frameOffset point ∧ point ≤ fs.length ∧
      WalReader.new wal >>= pageMap = .ok (w, M, lastM, commitM) ∧
      WalReader.newWithOffset wal last r.salt1 r.salt2 >>= pageMap = .ok (s, T, lastT, commitT) ∧
      ((commitM = (if commitT = 0 then commit else commitT) ∧
        ∀ pgno ≤ commitM, M.get? pgno = (T.get? pgno).or (m.get? pgno)) ↔
      Continues fs point commit) := by
  obtain ⟨rfl, -, hn, hextend⟩ := new_ok hnew
  have hnew' := hextend wal hwal
  -- the frames of the part, and those of the whole log
  obtain ⟨ds, r₂, hds, hend⟩ := exists_run hn
  obtain ⟨m', last', commit', hmap', hm⟩ := hds.pageMap hend hn
  rw [hmap] at hmap'
  cases hmap'
  have hn' : ({ r with data := wal } : WalReader).frameN = (0 : Nat) := hn
  obtain ⟨fs, w, hfs, hendw⟩ := exists_run hn'
  obtain ⟨rest, rfl, -⟩ := (hds.extend hwal).continues hfs hendw
  obtain ⟨M, lastM, commitM, hM, hMapped⟩ := hfs.pageMap hendw hn'
  -- the resume point is behind a frame of the part
  obtain ⟨before, f, after, hcommitted, hpoint, hcommit, hcut⟩ := hm.point hlast
  obtain ⟨pending, hpending⟩ := committed_isPrefix ds
  have hsplit : ds ++ rest = (before ++ [f]) ++ (after ++ (pending ++ rest)) := by
    rw [← hpending, hcommitted, append_assoc, append_assoc]
  rw [hsplit] at hfs hMapped
  obtain ⟨s, hlog, hmore⟩ := hfs.split
  have hmoves := hlog.moves
  have hns : s.frameN = ((before ++ [f]).length : Nat) := by
    rw [hmoves]
    dsimp only
    rw [hn, zero_add]
  have hoffset : s.frameOffset = ({ r with data := wal } : WalReader).frameOffset := by
    rw [hmoves]
    rfl
  obtain ⟨T, lastT, commitT, hT, hTMapped⟩ := hmore.pageMap hendw hns
  rw [Nat.zero_add] at hpoint
  refine ⟨_, w, w, M, lastM, commitM, T, lastT, commitT, (before ++ [f]).length, hfs, hendw, hpoint,
    by simp, bind_eq_ok.2 ⟨_, hnew', hM⟩, bind_eq_ok.2 ⟨s, ?_, hT⟩, ?_⟩
  · have hresumed := hlog.newWithOffset hnew'
    rw [hpoint]
    exact hresumed
  · have hsame : r.frameOffset = ({ r with data := wal } : WalReader).frameOffset := rfl
    exact hm.overlay_iff hsame hoffset hMapped hTMapped (fun h => hlast (hm.empty h).1)
      (prefix_append _ _) hcommitted hcommit hcut

/-- A log that is cut anywhere behind its header is scanned as far as it goes: its frames are the
first of the whole log, and if none behind the cut commits, the map is the same. -/
theorem torn_map {data : Bytes} (hnew : WalReader.new data = .ok r) (tail : Bytes) :
    ∃ fs more x y, r.pageMap = .ok x ∧ WalReader.new (data ++ tail) >>= pageMap = .ok y ∧
      Run r fs x.1 ∧ Run { r with data := data ++ tail } (fs ++ more) y.1 ∧
      (committed more = [] → ∀ pgno, y.2.1.get? pgno = x.2.1.get? pgno) := by
  obtain ⟨rfl, -, hn, hextend⟩ := new_ok hnew
  have hwal := prefix_append r.data tail
  obtain ⟨fs, r', hfs, hend⟩ := exists_run (n := 0) hn
  obtain ⟨_, w, hall, hendw⟩ := exists_run (r := { r with data := r.data ++ tail }) (n := 0) hn
  obtain ⟨more, rfl, -⟩ := (hfs.extend hwal).continues hall hendw
  obtain ⟨m, last, commit, hmap, hm⟩ := hfs.pageMap hend hn
  obtain ⟨M, lastM, commitM, hmap', hM⟩ := hall.pageMap hendw hn
  refine ⟨fs, more, _, _, hmap, bind_eq_ok.2 ⟨_, hextend _ hwal, hmap'⟩, hfs, hall, ?_⟩
  intro hnone pgno
  rw [hM.get?, hm.get?, committed_append, mark_append, if_pos hnone, if_pos hnone]
  rfl

/-! ## Sample logs -/

/-- The header of a log of pages of 512 bytes. -/
def sampleWalHeader : Bytes :=
  let fields := Bytes.be 4 walMagicBigEndian.toNat
    ++ (Bytes.be 4 walVersion.toNat ++ (Bytes.be 4 512
    ++ (Bytes.be 4 0 ++ (Bytes.be 4 1 ++ Bytes.be 4 2))))
  let c := walChecksum true 0 0 fields
  fields ++ (Bytes.be 4 c.1.toNat ++ Bytes.be 4 c.2.toNat)

/-- Appends frames of empty pages to a log. -/
def sampleWalFrames : UInt32 × UInt32 → List (Nat × Nat) → Bytes
  | _, [] => []
  | c, f :: fs =>
    let fields := Bytes.be 4 f.1 ++ Bytes.be 4 f.2
    let page := List.replicate 512 0
    let c := walChecksum true c.1 c.2 fields
    let c := walChecksum true c.1 c.2 page
    fields ++ (Bytes.be 4 1 ++ (Bytes.be 4 2 ++ (Bytes.be 4 c.1.toNat ++ (Bytes.be 4 c.2.toNat
      ++ (page ++ sampleWalFrames c fs)))))

/-- A log with given frames. -/
def sampleWal (fs : List (Nat × Nat)) : Bytes :=
  sampleWalHeader ++ sampleWalFrames (walChecksum true 0 0 (sampleWalHeader.take 24)) fs

/-- The map, the end and the size that a scan reports. -/
def scanned (x : Except WalError WalReader) : Option (List (Nat × Int) × Int × Nat) :=
  match x >>= pageMap with
  | .ok (_, m, last, commit) => some (m.entries, last, commit)
  | .error _ => none

theorem scanned_eq_some {entries : List (Nat × Int)}
    (h : scanned x = some (entries, last, commit)) :
    ∃ r r' m, x = .ok r ∧ r.pageMap = .ok (r', m, last, commit) ∧ m.entries = entries := by
  unfold scanned at h
  split at h
  · next hx =>
    obtain ⟨r, hr, hmap⟩ := bind_eq_ok.1 hx
    cases h
    exact ⟨r, _, _, hr, hmap, rfl⟩
  · cases h

/-- The second transaction of a log is read by a resumed reader. -/
theorem resumed_map_iff_sample : ∃ r r₁ m last commit,
    WalReader.new (sampleWal [(1, 1)]) = .ok r ∧ r.pageMap = .ok (r₁, m, last, commit) ∧
    ∃ fs w s M lastM commitM T lastT commitT point,
      Run { r with data := sampleWal [(1, 1), (2, 2)] } fs w ∧
      w.readFrame w.pageSize.toNat = .error .eof ∧ last = r.frameOffset point ∧ point ≤ fs.length ∧
      WalReader.new (sampleWal [(1, 1), (2, 2)]) >>= pageMap = .ok (w, M, lastM, commitM) ∧
      WalReader.newWithOffset (sampleWal [(1, 1), (2, 2)]) last r.salt1 r.salt2 >>= pageMap
        = .ok (s, T, lastT, commitT) ∧
      ((commitM = (if commitT = 0 then commit else commitT) ∧
        ∀ pgno ≤ commitM, M.get? pgno = (T.get? pgno).or (m.get? pgno)) ↔
      Continues fs point commit) := by
  have hscan : scanned (WalReader.new (sampleWal [(1, 1)])) = some ([(1, 32)], 568, 1) := by
    decide +kernel
  obtain ⟨r, r₁, m, hnew, hmap, -⟩ := scanned_eq_some hscan
  exact ⟨r, r₁, m, 568, 1, hnew, hmap, resumed_map_iff (by decide +kernel) hnew hmap (by decide)⟩

/-- A log with the first byte of another frame. -/
theorem torn_map_sample : ∃ y, WalReader.new (sampleWal [(1, 1)] ++ [0]) >>= pageMap = .ok y := by
  have hscan : scanned (WalReader.new (sampleWal [(1, 1)])) = some ([(1, 32)], 568, 1) := by
    decide +kernel
  obtain ⟨r, -, -, hnew, -⟩ := scanned_eq_some hscan
  obtain ⟨_, _, _, y, -, h, -⟩ := torn_map hnew [0]
  exact ⟨y, h⟩

/-- Two logs that do not compose. In the first, page 5 is written, cut off, and a page again without
a frame: a scan of the whole log has its old frame, the overlaid map none. In the second, the frame
behind the resume point cuts the database to one page and is not of that page: the resumed reader
reports no commit. -/
theorem resumed_map_differs :
    (sampleWal [(5, 5), (1, 2)] <+: sampleWal [(5, 5), (1, 2), (6, 6)] ∧
      scanned (WalReader.new (sampleWal [(5, 5), (1, 2)])) = some ([(1, 568)], 1104, 2) ∧
      scanned (WalReader.newWithOffset (sampleWal [(5, 5), (1, 2), (6, 6)]) 1104 1 2)
        = some ([(6, 1104)], 1640, 6) ∧
      scanned (WalReader.new (sampleWal [(5, 5), (1, 2), (6, 6)]))
        = some ([(1, 568), (5, 32), (6, 1104)], 1640, 6)) ∧
    (sampleWal [(1, 3)] <+: sampleWal [(1, 3), (5, 1)] ∧
      scanned (WalReader.new (sampleWal [(1, 3)])) = some ([(1, 32)], 568, 3) ∧
      scanned (WalReader.newWithOffset (sampleWal [(1, 3), (5, 1)]) 568 1 2) = some ([], 0, 0) ∧
      scanned (WalReader.new (sampleWal [(1, 3), (5, 1)])) = some ([(1, 32)], 568, 1)) := by
  refine ⟨⟨?_, ?_, ?_, ?_⟩, ?_, ?_, ?_, ?_⟩ <;> decide +kernel

end WalReader

end Cellule
