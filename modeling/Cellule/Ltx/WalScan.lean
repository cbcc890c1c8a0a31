import Cellule.Ltx.WalLaws

/-!
# What a page map says of the bytes of a log

The page map of a log, in terms of its bytes. A frame is valid when the log has all of its bytes,
its salts are those of the header, and it stores the cumulative checksum (`ValidFrame`). The scan
goes through the valid frames up to the first that is not (`Run.standing`); what it reports is read
off those up to the last commit (`pageMap_spec`).
-/

namespace Cellule

open Except
open CommitLog (committed mark latest)
open List

namespace WalReader

/-! ## The frames of a log -/

/-- The header of frame `i`. -/
def headerAt (r : WalReader) (i : Nat) : Bytes :=
  (r.data.drop (walHeaderSize + i * (r.pageSize.toNat + walFrameHeaderSize))).take
    walFrameHeaderSize

/-- The page of frame `i`. -/
def pageAt (r : WalReader) (i : Nat) : Bytes :=
  (r.data.drop (walHeaderSize + i * (r.pageSize.toNat + walFrameHeaderSize)
    + walFrameHeaderSize)).take
    r.pageSize.toNat

/-- The page number of frame `i`. -/
def pageOf (r : WalReader) (i : Nat) : Nat := (u32Be (r.headerAt i)).toNat

/-- The size of the database after frame `i`, or zero when the frame commits nothing. -/
def commitOf (r : WalReader) (i : Nat) : Nat := (u32Be ((r.headerAt i).drop 4)).toNat

/-- The cumulative checksum of the log's header and its first `i` frames. -/
def checksumAt (r : WalReader) : Nat → UInt32 × UInt32
  | 0 => (r.chksum1, r.chksum2)
  | i + 1 =>
    let c := r.checksumAt i
    let c := walChecksum r.bigEndian c.1 c.2 ((r.headerAt i).take 8)
    walChecksum r.bigEndian c.1 c.2 (r.pageAt i)

/-- Frame `i` is whole, of this log's generation, and the checksum it stores is the cumulative
one. -/
def ValidFrame (r : WalReader) (i : Nat) : Prop :=
  walHeaderSize + (i + 1) * (r.pageSize.toNat + walFrameHeaderSize) ≤ r.data.length ∧
  u32Be ((r.headerAt i).drop 8) = r.salt1 ∧ u32Be ((r.headerAt i).drop 12) = r.salt2 ∧
  r.checksumAt (i + 1) = (u32Be ((r.headerAt i).drop 16), u32Be ((r.headerAt i).drop 20))

instance (r : WalReader) (i : Nat) : Decidable (r.ValidFrame i) :=
  inferInstanceAs (Decidable (_ ∧ _ ∧ _ ∧ _))

/-- Frame `c` is the last commit among the first `n` frames. -/
def LastCommit (r : WalReader) (n c : Nat) : Prop :=
  c < n ∧ r.commitOf c ≠ 0 ∧ ∀ i, c < i → i < n → r.commitOf i = 0

/-- Frame `i` is the last frame of its page up to frame `c`. -/
def LastOf (r : WalReader) (c pgno i : Nat) : Prop :=
  i ≤ c ∧ r.pageOf i = pgno ∧ ∀ j, i < j → j ≤ c → r.pageOf j ≠ pgno

/-! ## A scan from the header -/

/-- A reader that has gone through the first `n` frames. -/
def standing (r : WalReader) (n : Nat) : WalReader :=
  { r with frameN := n, chksum1 := (r.checksumAt n).1, chksum2 := (r.checksumAt n).2 }

variable {r r' : WalReader} {fs : List (Nat × Nat)}

/-- A read from a whole image is a slice. -/
theorem readAt_whole (hbase : r.tailBase = 0) (offset n : Nat) :
    r.readAt offset n
      = if offset + n ≤ r.data.length then some ((r.data.drop offset).take n) else none := by
  unfold readAt start
  rw [if_neg (by omega), if_pos (.inl hbase), Option.bind_some, Int.toNat_natCast]
  by_cases h : offset + n ≤ r.data.length
  · rw [if_pos h, if_neg (by omega)]
  · rw [if_neg h, if_pos (by omega)]

/-- The next frame is read when it is valid, and otherwise the log ends. -/
theorem readFrame_standing (hbase : r.tailBase = 0) (n : Nat) :
    (r.standing n).readFrame r.pageSize.toNat
      = if r.ValidFrame n then .ok ((r.pageOf n, r.commitOf n), r.standing (n + 1))
        else .error .eof := by
  have hoffset : (walHeaderSize : Int) + ((r.standing n).frameN * (r.standing n).frameSize)
      = ((walHeaderSize + n * (r.pageSize.toNat + walFrameHeaderSize) : Nat) : Int) := by
    simp only [standing, frameSize]
    push_cast
    ring
  have hread : ∀ offset k : Nat, (r.standing n).readAt offset k
      = if offset + k ≤ r.data.length then some ((r.data.drop offset).take k) else none :=
    readAt_whole (r := r.standing n) hbase
  by_cases hvalid : r.ValidFrame n
  · rw [if_pos hvalid]
    obtain ⟨hlength, hsalt1, hsalt2, hchecksum⟩ := hvalid
    have hframe : walFrameHeaderSize = 24 := rfl
    rw [Nat.succ_mul] at hlength
    refine readFrameInner_eq_ok.2 ⟨rfl, r.headerAt n, r.pageAt n, r.checksumAt (n + 1), ?_, ?_,
      hsalt1.symm, hsalt2.symm, ?_, ?_⟩
    · rw [hoffset, hread, if_pos (by omega)]
      rfl
    · rw [hoffset, ← Nat.cast_add, hread, if_pos (by omega)]
      rfl
    · unfold frameChecksum
      refine reject_bind_eq_ok.2 ⟨bne_eq_false_iff_eq.2 hchecksum, rfl⟩
    · simp only [standing]
      push_cast
      rfl
  · rw [if_neg hvalid]
    cases hok : (r.standing n).readFrame r.pageSize.toNat with
    | error e =>
      rw [readFrame_error (r := r.standing n) hok]
    | ok x =>
      exfalso
      refine hvalid ?_
      obtain ⟨-, hdr, page, c, hhdr, hpage, hsalt1, hsalt2, hc, -⟩ := readFrameInner_eq_ok.1 hok
      rw [hoffset, hread] at hhdr
      rw [hoffset, ← Nat.cast_add, hread] at hpage
      split at hhdr
      · split at hpage
        · next hlength =>
          cases hhdr
          cases hpage
          obtain ⟨hstored, -⟩ := reject_bind_eq_ok.1 hc
          refine ⟨?_, hsalt1.symm, hsalt2.symm, bne_eq_false_iff_eq.1 hstored⟩
          rw [Nat.succ_mul]
          omega
        · cases hpage
      · cases hhdr

/-- What a run went through: valid frames of the log, one after the other. -/
theorem Run.standing (hbase : r.tailBase = 0) (h : Run (r.standing n) fs r') :
    r' = r.standing (n + fs.length) ∧
      ∀ i f, fs[i]? = some f → r.ValidFrame (n + i) ∧
        f = (r.pageOf (n + i), r.commitOf (n + i)) := by
  induction fs generalizing n with
  | nil =>
    cases h
    exact ⟨rfl, nofun⟩
  | cons f fs ih =>
    cases h with
    | cons hread hrun =>
      rw [show (r.standing n).pageSize = r.pageSize from rfl, readFrame_standing hbase] at hread
      split at hread
      · next hvalid =>
        cases hread
        obtain ⟨hr', hframes⟩ := ih hrun
        refine ⟨by rw [hr', length_cons]; congr 1; omega, fun i g hg => ?_⟩
        cases i with
        | zero =>
          cases hg
          exact ⟨hvalid, rfl⟩
        | succ i =>
          obtain ⟨hi, hg⟩ := hframes i g hg
          rw [show n + 1 + i = n + (i + 1) by omega] at hi hg
          exact ⟨hi, hg⟩
      · cases hread

/-- A scan from the header goes through the valid frames up to the first that is not. -/
theorem exists_run_new {data : Bytes} (hnew : WalReader.new data = .ok r) :
    ∃ fs r', Run r fs r' ∧ r'.readFrame r'.pageSize.toNat = .error .eof ∧
      (∀ i < fs.length, r.ValidFrame i) ∧ ¬r.ValidFrame fs.length ∧
      ∀ i < fs.length, fs[i]? = some (r.pageOf i, r.commitOf i) := by
  obtain ⟨-, hbase, hn, -⟩ := new_ok hnew
  obtain ⟨fs, r', hrun, hend⟩ := exists_run hn
  have hstart : r = r.standing 0 := by
    unfold standing checksumAt
    rw [Nat.cast_zero, ← hn]
  have hrun' := hrun
  rw [hstart] at hrun'
  obtain ⟨rfl, hframes⟩ := Run.standing hbase hrun'
  simp only [Nat.zero_add] at hframes hend
  have hlist : ∀ i, i < fs.length → ∃ f, fs[i]? = some f :=
    fun i hi => ⟨_, getElem?_eq_getElem hi⟩
  rw [Nat.zero_add] at hrun
  refine ⟨fs, _, hrun, hend, fun i hi => ?_, fun hvalid => ?_, fun i hi => ?_⟩
  · obtain ⟨f, hf⟩ := hlist i hi
    exact (hframes i f hf).1
  · rw [show (r.standing fs.length).pageSize = r.pageSize from rfl, readFrame_standing hbase,
      if_pos hvalid] at hend
    cases hend
  · obtain ⟨f, hf⟩ := hlist i hi
    rw [hf, (hframes i f hf).2]

/-! ## The page map -/

/-- The page map of a log, in terms of its bytes: of the longest row of valid frames, cut at its
last commit, it maps each page that is not above the size of that commit to its last frame. It
reports that commit and the end of the last frame that it did not drop, which is the commit frame
unless that is of a page above its own size; when it dropped all, or nothing is committed, it
reports zero. -/
theorem pageMap_spec {data : Bytes} (hnew : WalReader.new data = .ok r) :
    ∃ r' m last commit n, r.pageMap = .ok (r', m, last, commit) ∧
      (∀ i < n, r.ValidFrame i) ∧ ¬r.ValidFrame n ∧
      ((∀ i < n, r.commitOf i = 0) → m.entries = [] ∧ last = 0 ∧ commit = 0) ∧
      ∀ c, r.LastCommit n c →
        (∀ pgno offset, m.get? pgno = some offset ↔ pgno ≤ r.commitOf c ∧
          ∃ i, r.LastOf c pgno i ∧ offset = r.frameOffset i) ∧
        (m.entries = [] → last = 0 ∧ commit = 0) ∧
        ∀ i ≤ c, r.pageOf i ≤ r.commitOf c → (∀ j, i < j → j ≤ c → r.commitOf c < r.pageOf j) →
          commit = r.commitOf c ∧ last = r.frameOffset (i + 1) := by
  obtain ⟨fs, r', hrun, hend, hvalid, hstop, hframes⟩ := exists_run_new hnew
  obtain ⟨m, last, commit, hmap, hm⟩ := hrun.pageMap hend (new_ok hnew).2.2.1
  have hframe : ∀ i f, fs[i]? = some f → i < fs.length ∧ f = (r.pageOf i, r.commitOf i) := by
    intro i f hf
    have hi := (List.getElem?_eq_some_iff.1 hf).1
    rw [hframes i hi] at hf
    exact ⟨hi, (Option.some.inj hf).symm⟩
  refine ⟨r', m, last, commit, fs.length, hmap, hvalid, hstop, fun hnone => ?_, ?_⟩
  · have hcommitted : committed fs = [] := CommitLog.committed_eq_nil fun f hf => by
      obtain ⟨i, hi⟩ := mem_iff_getElem?.1 hf
      obtain ⟨hlt, rfl⟩ := hframe i f hi
      exact hnone i hlt
    have hentries : m.entries = [] := by
      refine eq_nil_iff_forall_not_mem.2 fun entry hentry => ?_
      have hget := OrderedMap.get?_eq_some.2 hentry
      rw [hm.get?, hcommitted] at hget
      simp [latest] at hget
    exact ⟨hentries, hm.empty hentries⟩
  · rintro c ⟨hc, hcommit, hlater⟩
    obtain ⟨hcommitted, hmark⟩ := CommitLog.committed_eq_take (hframes c hc) hcommit
      fun j f hj hf => by
        obtain ⟨hlt, rfl⟩ := hframe j f hf
        exact hlater j hj hlt
    -- the last frame of a page, by its place in the log
    have hplace : ∀ j pgno, (fs.take (c + 1))[j]?.map (·.1) = some pgno ↔
        j ≤ c ∧ r.pageOf j = pgno := by
      intro j pgno
      by_cases hj : j ≤ c
      · rw [getElem?_take_of_lt (by omega), hframes j (by omega)]
        simp [hj]
      · rw [getElem?_take_eq_none (by omega)]
        simp [hj]
    have hlatest : ∀ pgno i, latest (committed fs) 0 pgno = some i ↔ r.LastOf c pgno i := by
      intro pgno i
      rw [hcommitted, CommitLog.latest_eq_some_iff, hplace, LastOf, and_assoc]
      refine and_congr_right fun _ => and_congr_right fun _ => forall_congr' fun j => ?_
      rw [Ne, hplace]
      exact imp_congr_right fun _ => not_and
    dsimp only at hmark
    refine ⟨fun pgno offset => ?_, hm.empty, fun i hi hpage hdropped => ?_⟩
    · rw [hm.get?, hmark]
      split
      · next hle =>
        rw [Option.map_eq_some_iff, and_iff_right hle]
        refine exists_congr fun i => ?_
        rw [hlatest, eq_comm (a := offset)]
      · next hle => simp [hle]
    · have hkept : r.LastOf c (r.pageOf i) i :=
        ⟨hi, rfl, fun j hij hjc heq => absurd (hdropped j hij hjc) (by omega)⟩
      have hentries : m.entries ≠ [] := by
        intro hempty
        have hget := hm.get? (r.pageOf i)
        rw [hmark, if_pos hpage, (hlatest _ _).2 hkept] at hget
        have hentry := OrderedMap.get?_eq_some.1 hget
        rw [hempty] at hentry
        exact absurd hentry not_mem_nil
      obtain ⟨hcommit', pgno, k, hle, hk, hlast, hmax⟩ := hm.full hentries
      rw [hmark] at hle hcommit' hmax
      rw [hlatest] at hk
      have hik : i ≤ k := hmax _ i hpage ((hlatest _ _).2 hkept)
      obtain ⟨hkc, rfl, -⟩ := hk
      have hki : k ≤ i := by
        by_contra hlt
        exact absurd (hdropped k (by omega) hkc) (by omega)
      exact ⟨hcommit', by rw [hlast, le_antisymm hki hik]⟩

/-- A log of two transactions, the second of which cuts the database to one page. -/
theorem pageMap_spec_sample : ∃ r, WalReader.new (sampleWal [(1, 0), (2, 2), (1, 1)]) = .ok r ∧
    ∃ r' m last commit n, r.pageMap = .ok (r', m, last, commit) ∧
      (∀ i < n, r.ValidFrame i) ∧ ¬r.ValidFrame n ∧
      ((∀ i < n, r.commitOf i = 0) → m.entries = [] ∧ last = 0 ∧ commit = 0) ∧
      ∀ c, r.LastCommit n c →
        (∀ pgno offset, m.get? pgno = some offset ↔ pgno ≤ r.commitOf c ∧
          ∃ i, r.LastOf c pgno i ∧ offset = r.frameOffset i) ∧
        (m.entries = [] → last = 0 ∧ commit = 0) ∧
        ∀ i ≤ c, r.pageOf i ≤ r.commitOf c → (∀ j, i < j → j ≤ c → r.commitOf c < r.pageOf j) →
          commit = r.commitOf c ∧ last = r.frameOffset (i + 1) := by
  have hscan : scanned (WalReader.new (sampleWal [(1, 0), (2, 2), (1, 1)]))
      = some ([(1, 1104)], 1640, 1) := by decide +kernel
  obtain ⟨r, r₁, m, hnew, -, -⟩ := scanned_eq_some hscan
  exact ⟨r, hnew, pageMap_spec hnew⟩

/-- Logs whose last commit frame is of a page above its own size: the reported end is that of an
earlier frame, and without a page that stays nothing is reported. -/
theorem pageMap_drops_commit_frame :
    ((WalReader.new (sampleWal [(1, 1), (3, 1)])).toOption.any fun r => decide
      (r.ValidFrame 0 ∧ r.ValidFrame 1 ∧ ¬r.ValidFrame 2 ∧ r.commitOf 1 = 1 ∧
        r.frameOffset 2 = 1104)) = true ∧
    scanned (WalReader.new (sampleWal [(1, 1), (3, 1)])) = some ([(1, 32)], 568, 1) ∧
    ((WalReader.new (sampleWal [(2, 1)])).toOption.any fun r => decide
      (r.ValidFrame 0 ∧ ¬r.ValidFrame 1 ∧ r.commitOf 0 = 1 ∧ r.frameOffset 1 = 568)) = true ∧
    scanned (WalReader.new (sampleWal [(2, 1)])) = some ([], 0, 0) := by
  refine ⟨?_, ?_, ?_, ?_⟩ <;> decide +kernel

end WalReader

end Cellule
