import Cellule.Ltx.Coalesce
import Cellule.Ltx.RoundTrip

/-!
# Coalescing preserves meaning

A chain of segments is a row of deltas of the database pages. The merge keeps their newest writes
(`Merged`), materializing the chain applies them one after another (`Materialized`), and the two
agree by the laws of deltas: the check of the smallest size is what `Delta.merged_eq_iff` asks for.
-/

namespace Cellule

open Except List OrderedMap Decoder Option

namespace SegmentInput

variable (P : Primitives) (segment : SegmentInput)

/-- What the segment decodes to; nothing when it does not decode. -/
def opened : List (PageHeader × Bytes) × Decoder :=
  match decode P { rest := segment.bytes } with
  | .ok r => r
  | .error _ => ([], { rest := [] })

def header : Header := (segment.opened P).2.header

def post : UInt64 := (segment.opened P).2.trailer.postApplyChecksum

/-- What the segment changes. -/
def delta : Delta Bytes := segmentDelta (segment.header P) (segment.opened P).1

variable {P segment}

theorem opened_eq (h : decode P { rest := segment.bytes } = .ok r) : segment.opened P = r := by
  rw [opened, h]

end SegmentInput

/-! ## What the merge keeps -/

namespace MergeState

variable {P : Primitives}

/-- The merge after a chain: the first and the last header, the smallest size, and the newest write
of every page. -/
structure Merged (P : Primitives) (segments : List SegmentInput) (m : MergeState) : Prop where
  decodes : ∀ segment ∈ segments,
    decode P { rest := segment.bytes } = .ok (segment.opened P)
  first : m.first = segments.head?.map (SegmentInput.header P)
  last : m.last = segments.getLast?.map (SegmentInput.header P)
  checksum : ∀ segment, segments.getLast? = some segment → m.checksum = segment.post P
  minimum : m.minimumCommit = Delta.leastSize (segments.map (SegmentInput.delta P))
  pages : ∀ n, m.pages.get? n = Delta.newest (segments.map (SegmentInput.delta P)) n

/-- The page loop overwrites. -/
theorem foldlM_mergePage {pages : List (PageHeader × Bytes)}
    (h : pages.foldlM (mergePage pageSize) m = .ok m') (n : Nat) :
    m'.get? n = (writes (bare pages) n).or (m.get? n) := by
  induction pages using List.reverseRecOn generalizing m' with
  | nil =>
    cases h
    rfl
  | append_singleton pages page ih =>
    rw [foldlM_append, bind_eq_ok] at h
    obtain ⟨m₁, hpages, h⟩ := h
    rw [foldlM_cons, bind_eq_ok] at h
    obtain ⟨m₂, hpage, h⟩ := h
    obtain ⟨_, -, hpage⟩ := bind_eq_ok.1 hpage
    cases hpage
    cases h
    rw [bare, map_append, get?_insert]
    show _ = (writes (bare pages ++ [(page.1.pgno, page.2)]) n).or _
    rw [writes_append]
    split
    · next heq => rw [heq, Function.update_self, some_or]
    · next hne => rw [Function.update_of_ne hne, ih hpages]

variable {m : MergeState}

/-- A page that is written is in the file. -/
theorem exists_page_of_writes {pages : List (PageHeader × Bytes)}
    (h : writes (bare pages) n ≠ none) : ∃ page ∈ pages, page.1.pgno.toNat = n := by
  obtain ⟨data, hdata⟩ := ne_none_iff_exists'.1 h
  obtain ⟨_, hbare, hpgno, -⟩ := mem_of_writes hdata
  obtain ⟨page, hpage, rfl⟩ := mem_map.1 hbare
  exact ⟨page, hpage, hpgno⟩

/-- A segment that the merge accepts. -/
theorem apply_ok {segment : SegmentInput}
    (h : m.apply P segment.bytes segment.info segment.index = .ok m') :
    decode P { rest := segment.bytes } = .ok (segment.opened P) ∧
      m'.first = m.first.or (some (segment.header P)) ∧ m'.last = some (segment.header P) ∧
      m'.checksum = segment.post P ∧
      m'.minimumCommit = some (m.minimumCommit.elim (segment.header P).commit.toNat
        (min (segment.header P).commit.toNat)) ∧
      ∀ n, m'.pages.get? n = (writes (bare (segment.opened P).1) n).or
        (if n ≤ (segment.header P).commit.toNat then m.pages.get? n else none) := by
  obtain ⟨_, -, h⟩ := bind_eq_ok.1 h
  obtain ⟨d₁, hheader, h⟩ := bind_eq_ok.1 h
  obtain ⟨_, -, h⟩ := bind_eq_ok.1 h
  obtain ⟨⟨pages, d₂⟩, hfold, h⟩ := bind_eq_ok.1 h
  obtain ⟨d₃, hclose, h⟩ := bind_eq_ok.1 h
  obtain ⟨⟨length, digest⟩, -, h⟩ := bind_eq_ok.1 h
  obtain ⟨hinfo, h⟩ := reject_bind_eq_ok.1 h
  obtain ⟨_, -, h⟩ := bind_eq_ok.1 h
  obtain ⟨_, -, h⟩ := bind_eq_ok.1 h
  obtain ⟨_, -, h⟩ := bind_eq_ok.1 h
  cases h
  rw [mapError_eq_ok] at hheader hclose
  obtain ⟨decoded, hpages, hmerge⟩ := foldPages_eq_ok.1 hfold
  have hdecode : decode P { rest := segment.bytes, replicaIndex := some [] }
      = .ok (decoded, d₃) :=
    bind_eq_ok.2 ⟨d₁, hheader, bind_eq_ok.2 ⟨(decoded, d₂), hpages, bind_eq_ok.2 ⟨d₃, hclose, rfl⟩⟩⟩
  have hwithout := decode_withoutIndex (P := P)
    { rest := segment.bytes, replicaIndex := some [] }
  rw [hdecode] at hwithout
  have hopened : segment.opened P = (decoded, d₃.withoutIndex) := SegmentInput.opened_eq hwithout
  have hsame : d₁.header = segment.header P := by
    rw [SegmentInput.header, hopened]
    exact ((close_ok hclose).2.trans (decodePages_ok hpages).1).symm
  have hpost : segment.info.postChecksum = (segment.post P).toNat := by
    rw [SegmentInput.post, hopened, ← bne_eq_false_iff_eq.1 hinfo]
    rfl
  refine ⟨by rw [hopened]; exact hwithout, by rw [hsame], by rw [hsame], ?_, by rw [hsame],
    fun n => ?_⟩
  · show UInt64.ofNat segment.info.postChecksum = _
    rw [hpost, UInt64.ofNat_toNat]
  · rw [foldlM_mergePage hmerge, get?_retain, hopened, hsame]
    simp only [decide_eq_true_eq]

theorem Merged.append {segment : SegmentInput}
    (h : Merged P segments m) (hok : m.apply P segment.bytes segment.info segment.index = .ok m') :
    Merged P (segments ++ [segment]) m' := by
  obtain ⟨hdecode, hfirst, hlast, hchecksum, hminimum, hpages⟩ := apply_ok hok
  refine ⟨?_, ?_, ?_, ?_, ?_, fun n => ?_⟩
  · exact forall_mem_append.2 ⟨h.decodes, forall_mem_singleton.2 hdecode⟩
  · rw [hfirst, h.first, head?_append]
    cases segments.head? <;> rfl
  · rw [hlast, getLast?_append]
    rfl
  · intro s hs
    rw [getLast?_append] at hs
    cases hs
    exact hchecksum
  · rw [hminimum, h.minimum, map_append, map_singleton, Delta.leastSize_append]
    rfl
  · rw [hpages, map_append, map_singleton, Delta.newest_append, h.pages]
    show _ = if n ≤ (segment.header P).commit.toNat then
      (writes (bare (segment.opened P).1) n).or _ else none
    split
    · rfl
    · next hgt =>
      -- a page beyond the size is not in the file
      rw [or_none]
      by_contra hne
      obtain ⟨page, hpage, rfl⟩ := exists_page_of_writes hne
      exact hgt (decode_place hdecode page hpage).1

/-- What the merge keeps of a whole chain. -/
theorem Merged.applyAll
    (h : ({} : MergeState).applyAll P segments = .ok m) : Merged P segments m := by
  have hstart : Merged P [] {} := by
    exact ⟨nofun, rfl, rfl, nofun, rfl, fun n => rfl⟩
  exact foldlM_ok (P := Merged P) (fun _ _ _ _ hm hok => hm.append hok) hstart h

/-! ## The check of the smallest size -/

/-- Numbers of an interval, without one of them, are all of them when there are enough. -/
theorem length_eq_iff_covers {keys : List Nat} (hsorted : keys.Pairwise (· < ·))
    (hkeys : ∀ k ∈ keys, low < k ∧ k ≤ high ∧ k ≠ skip) :
    keys.length = high - low - (if low < skip ∧ skip ≤ high then 1 else 0) ↔
      ∀ n, low < n → n ≤ high → n ≠ skip → n ∈ keys := by
  have hsub : keys.toFinset ⊆ (Finset.Ioc low high).erase skip := by
    intro k hk
    obtain ⟨hlow, hhigh, hne⟩ := hkeys k (mem_toFinset.1 hk)
    exact Finset.mem_erase.2 ⟨hne, Finset.mem_Ioc.2 ⟨hlow, hhigh⟩⟩
  have hcard : keys.toFinset.card = keys.length :=
    toFinset_card_of_nodup (hsorted.imp fun h => h.ne)
  have hall : ((Finset.Ioc low high).erase skip).card
      = high - low - (if low < skip ∧ skip ≤ high then 1 else 0) := by
    split
    · next h => rw [Finset.card_erase_of_mem (Finset.mem_Ioc.2 h), Nat.card_Ioc]
    · next h => rw [Finset.erase_eq_of_notMem fun hmem => h (Finset.mem_Ioc.1 hmem), Nat.card_Ioc,
        Nat.sub_zero]
  rw [← hall, ← hcard]
  constructor
  · intro hlength n hlow hhigh hne
    have heq := Finset.eq_of_subset_of_card_le hsub hlength.ge
    exact mem_toFinset.1 (heq ▸ Finset.mem_erase.2 ⟨hne, Finset.mem_Ioc.2 ⟨hlow, hhigh⟩⟩)
  · intro hcovers
    refine le_antisymm (Finset.card_le_card hsub) (Finset.card_le_card fun n hn => ?_)
    obtain ⟨hne, hn⟩ := Finset.mem_erase.1 hn
    obtain ⟨hlow, hhigh⟩ := Finset.mem_Ioc.1 hn
    exact mem_toFinset.2 (hcovers n hlow hhigh hne)

/-- The check of `finish` passes exactly when every page that came back has been written. -/
theorem regrown_eq_iff {pages : OrderedMap Nat Bytes} {last : Header} {minimum : Nat}
    (hlock : ∀ n, pages.get? n ≠ none → n ≠ lockPgno last.pageSize) :
    (regrown last minimum pages).2 = (regrown last minimum pages).1 ↔
      ∀ n, minimum < n → n ≤ last.commit.toNat → n ≠ lockPgno last.pageSize →
        pages.get? n ≠ none := by
  unfold regrown
  rw [← length_map (f := fun page : Nat × Bytes => page.1), length_eq_iff_covers]
  · refine forall_congr' fun n => forall_congr' fun hlow => forall_congr' fun hhigh =>
      forall_congr' fun _ => ?_
    rw [List.mem_map, ne_none_iff_exists']
    constructor
    · rintro ⟨⟨_, data⟩, hmem, rfl⟩
      exact ⟨data, get?_eq_some.2 (mem_filter.1 hmem).1⟩
    · rintro ⟨data, hdata⟩
      refine ⟨(n, data), mem_filter.2 ⟨get?_eq_some.1 hdata, ?_⟩, rfl⟩
      rw [Bool.and_eq_true, decide_eq_true_eq, decide_eq_true_eq]
      exact ⟨hlow, hhigh⟩
  · exact (pages.sorted.filter _).map _ fun _ _ h => h
  · intro k hk
    obtain ⟨⟨_, data⟩, hmem, rfl⟩ := mem_map.1 hk
    obtain ⟨hmem, hrange⟩ := mem_filter.1 hmem
    rw [Bool.and_eq_true, decide_eq_true_eq, decide_eq_true_eq] at hrange
    refine ⟨hrange.1, hrange.2, hlock _ ?_⟩
    rw [get?_eq_some.2 hmem]
    exact some_ne_none data

/-- The pages that `finish` encodes. -/
def encoded (m : MergeState) : List (PageHeader × Bytes) :=
  m.pages.entries.map fun page => (⟨UInt32.ofNat page.1, 0⟩, page.2)

/-- What a merge that ended with a segment has written. -/
theorem finish_ok (h : m.finish P byteLimit = .ok merged) :
    ∃ first last minimum entries e, m.first = some first ∧ m.last = some last ∧
      m.minimumCommit = some minimum ∧
      (minimum < last.commit.toNat →
        (regrown last minimum m.pages).2 = (regrown last minimum m.pages).1) ∧
      (Encoder.newBlockWithIndex { bytes := [], limit := some byteLimit } none).encodeFile P
        (mergedHeader first last) m.encoded m.checksum = .ok (entries, e) ∧
      merged.body = e.writer.bytes ∧ merged.descriptor.info = SegmentInfo.fromInspected
        ⟨e.header, e.trailer⟩ e.writer.bytes.length (P.blake3 e.writer.bytes) := by
  have havailable : ∀ {α : Type} {x : Option α} {a : α}, available x = .ok a → x = some a := by
    intro α x a hx
    cases x with
    | none => cases hx
    | some b =>
      cases hx
      rfl
  obtain ⟨first, hfirst, h⟩ := bind_eq_ok.1 h
  obtain ⟨last, hlast, h⟩ := bind_eq_ok.1 h
  obtain ⟨minimum, hminimum, h⟩ := bind_eq_ok.1 h
  obtain ⟨hregrown, h⟩ := reject_bind_eq_ok.1 h
  obtain ⟨e₁, hheader, h⟩ := bind_eq_ok.1 h
  obtain ⟨⟨entries, e₂⟩, hpages, h⟩ := bind_eq_ok.1 h
  obtain ⟨e₃, hclose, h⟩ := bind_eq_ok.1 h
  obtain ⟨index, -, h⟩ := bind_eq_ok.1 h
  cases h
  rw [mapError_eq_ok] at hheader hpages hclose
  refine ⟨first, last, minimum, entries, e₃, havailable hfirst, havailable hlast,
    havailable hminimum, fun hlt => ?_, ?_, rfl, rfl⟩
  · rw [Bool.and_eq_false_imp] at hregrown
    exact bne_eq_false_iff_eq.1 (hregrown (decide_eq_true hlt))
  · exact bind_eq_ok.2 ⟨e₁, hheader, bind_eq_ok.2 ⟨(entries, e₂), hpages,
      bind_eq_ok.2 ⟨e₃, hclose, rfl⟩⟩⟩

end MergeState

/-! ## What materializing does -/

namespace MaterializationState

variable {P : Primitives}

/-- A state after a chain: the deltas of the segments one after another, each of which wrote the
pages that it added. -/
structure Materialized (P : Primitives) (limits : Limits) (s : MaterializationState)
    (pageSize : UInt32) (cells : Nat → Bytes) (segments : List SegmentInput)
    (s' : MaterializationState) : Prop where
  first : ∀ segment, segments.head? = some segment →
    (segment.header P).minTxid.toNat = s.position.txid + 1 ∧
      (segment.header P).preApplyChecksum.toNat = s.position.checksum
  last : ∀ segment, segments.getLast? = some segment →
    s' = holding P pageSize ((segments.map (SegmentInput.delta P)).foldl
      (Delta.apply (blankPage pageSize)) cells) (segment.header P).commit.toNat
      ⟨(segment.header P).maxTxid.toNat, (segment.post P).toNat⟩ (segment.header P).timestamp ∧
    s'.checksums.checksum = segment.post P ∧
    (segment.header P).commit.toNat * (segment.header P).pageSize.toNat ≤ limits.maxDatabaseBytes ∧
    0 < (segment.header P).commit.toNat ∧
    ((segment.header P).commit.toNat ≤ s.checksums.count ∨
      (segment.header P).commit.toNat < u32Max)
  fills : Delta.Fills (· = lockPgno pageSize) s.checksums.count
    (segments.map (SegmentInput.delta P))

variable {limits : Limits} {s s' : MaterializationState}

/-- One segment of a chain. -/
theorem Holds.apply_segment {pageSize : UInt32} {segment : SegmentInput}
    (h : s.Holds P pageSize cells) (hsize : (segment.header P).pageSize = pageSize)
    (hok : s.apply P segment.bytes segment.info limits = .ok s') :
    s.Takes P cells limits segment.bytes segment.info (segment.opened P).1 (segment.opened P).2 ∧
      s' = holding P pageSize ((segment.delta P).apply (blankPage pageSize) cells)
        (segment.header P).commit.toNat
        ⟨(segment.header P).maxTxid.toNat, (segment.post P).toNat⟩ (segment.header P).timestamp ∧
      s'.Holds P pageSize ((segment.delta P).apply (blankPage pageSize) cells) := by
  obtain ⟨pages, d, hdecode, -⟩ := decode_of_apply hok
  have hopened : segment.opened P = (pages, d) := SegmentInput.opened_eq hdecode
  unfold SegmentInput.delta SegmentInput.header SegmentInput.post at *
  rw [hopened] at hsize ⊢
  subst hsize
  obtain ⟨htakes, rfl⟩ := (h.apply_eq_ok hdecode).1 hok
  obtain ⟨-, -, -, -, -, -, hvalid, -⟩ := decode_eq_ok.1 hdecode
  exact ⟨htakes, rfl, h.applied htakes hvalid (Header.maxTxid_ne_zero hvalid) _⟩

/-- A whole chain. -/
theorem Holds.applyAll {pageSize : UInt32} {segments : List SegmentInput}
    (h : s.Holds P pageSize cells)
    (hsize : ∀ segment ∈ segments, (segment.header P).pageSize = pageSize)
    (hok : s.applyAll P segments limits = .ok s') :
    Materialized P limits s pageSize cells segments s' := by
  induction segments generalizing s cells with
  | nil => exact ⟨nofun, nofun, trivial⟩
  | cons segment segments ih =>
    obtain ⟨s₁, hfirst, hrest⟩ := bind_eq_ok.1 hok
    have hsegment := hsize segment mem_cons_self
    obtain ⟨htakes, hs₁, hholds⟩ := h.apply_segment hsegment hfirst
    have hrun := ih hholds (fun t ht => hsize t (mem_cons_of_mem _ ht)) hrest
    have hfits := htakes.fits
    rw [show (segment.opened P).2.header = segment.header P from rfl, hsegment] at hfits
    have hcount : s₁.checksums.count = (segment.header P).commit.toNat := by rw [hs₁]; rfl
    refine ⟨fun t ht => ?_, fun t ht => ?_, fun n hlt hle hne => ?_, ?_⟩
    · cases ht
      exact ⟨htakes.txid, htakes.pre⟩
    · cases segments with
      | nil =>
        cases ht
        cases hrest
        refine ⟨hs₁, ?_, htakes.databaseSize, htakes.nonempty, hfits.bounded⟩
        have hpost := htakes.post
        rw [show (segment.opened P).2.header = segment.header P from rfl, hsegment] at hpost
        rw [hs₁]
        exact hpost
      | cons t' ts =>
        rw [getLast?_cons_cons] at ht
        obtain ⟨hstate, hpost, hdatabase, hpos, hbound⟩ := hrun.last t ht
        refine ⟨hstate, hpost, hdatabase, hpos, ?_⟩
        rw [hcount] at hbound
        have := hfits.bounded
        omega
    · exact (writes_ne_none hfits.ascending).2 (hfits.fills n hlt hle hne)
    · show Delta.Fills _ (segment.header P).commit.toNat _
      rw [← hcount]
      exact hrun.fills

/-- The size of the pages is fixed by the first segment. -/
theorem Valid.apply_pageSize {segment : SegmentInput} (h : s.Valid P)
    (hok : s.apply P segment.bytes segment.info limits = .ok s') :
    (s.pageSize = 0 ∨ s.pageSize = (segment.header P).pageSize) ∧ s'.Valid P ∧
      s'.pageSize = (segment.header P).pageSize ∧ s'.pageSize ≠ 0 := by
  obtain ⟨pages, d, hdecode, hsize⟩ := decode_of_apply hok
  rw [show d.header = segment.header P by
    rw [SegmentInput.header, SegmentInput.opened_eq hdecode]] at hsize
  obtain ⟨cells, hholds⟩ := h.holds hsize
  obtain ⟨htakes, rfl, hholds'⟩ := hholds.apply_segment rfl hok
  refine ⟨hsize, ⟨_, _, hholds'⟩, rfl, ?_⟩
  rcases hholds'.size with ⟨-, hne⟩ | ⟨-, hcount⟩
  · exact hne
  · exact absurd hcount htakes.nonempty.ne'

/-- The segments of a chain that is materialized have pages of one size, which is that of the pages
that are there. -/
theorem Valid.applyAll_pageSize {segments : List SegmentInput} (h : s.Valid P)
    (hok : s.applyAll P segments limits = .ok s') :
    ∃ pageSize, (segments ≠ [] → s.pageSize = 0 ∨ s.pageSize = pageSize) ∧
      (s.pageSize ≠ 0 → pageSize = s.pageSize) ∧
      ∀ segment ∈ segments, (segment.header P).pageSize = pageSize := by
  induction segments generalizing s with
  | nil =>
    exact ⟨s.pageSize, fun hne => absurd rfl hne, fun _ => rfl, nofun⟩
  | cons segment segments ih =>
    obtain ⟨s₁, hfirst, hrest⟩ := bind_eq_ok.1 hok
    obtain ⟨hsize, hvalid, hsize₁, hne⟩ := h.apply_pageSize hfirst
    obtain ⟨pageSize, -, hsame, hall⟩ := ih hvalid hrest
    refine ⟨(segment.header P).pageSize, fun _ => hsize, fun hne => ?_, ?_⟩
    · exact (hsize.resolve_left hne).symm
    · refine forall_mem_cons.2 ⟨rfl, fun t ht => ?_⟩
      rw [hall t ht, hsame hne, hsize₁]

end MaterializationState

/-! ## The merged segment -/

namespace MergeState

open MaterializationState

variable {P : Primitives} {segments : List SegmentInput} {m : MergeState} {head tail : SegmentInput}

/-- The pages of the merged segment. -/
def kept (m : MergeState) : List (UInt32 × Bytes) :=
  m.pages.entries.map fun page => (UInt32.ofNat page.1, page.2)

/-- The decoder reads the pages of the merged segment back. -/
theorem bare_encoded (m : MergeState) : bare (m.encoded.map fun page =>
    (⟨page.1.pgno, page.1.flags ||| pageHeaderFlagSize⟩, page.2)) = m.kept := by
  rw [bare, encoded, List.map_map, List.map_map]
  rfl

/-- The size after a chain is the size its last segment gives. -/
theorem lastSize_delta (h : segments.getLast? = some tail) :
    Delta.lastSize (segments.map (SegmentInput.delta P)) = (tail.header P).commit.toNat := by
  obtain ⟨init, rfl⟩ := getLast?_eq_some_iff.1 h
  rw [map_append, map_singleton, Delta.lastSize_append]
  rfl

theorem Merged.pgno_of_mem (hm : Merged P segments m) (htail : segments.getLast? = some tail)
    (hentry : entry ∈ m.pages.entries) :
    (UInt32.ofNat entry.1).toNat = entry.1 := by
  refine UInt32.toNat_ofNat_of_lt' (Nat.lt_of_le_of_lt ?_ (tail.header P).commit.toNat_lt)
  by_contra hgt
  have hsome := get?_eq_some.2 hentry
  rw [hm.pages, Delta.newest_eq_none (by rw [lastSize_delta htail]; omega)] at hsome
  cases hsome

theorem Merged.kept_ascending (hm : Merged P segments m) (htail : segments.getLast? = some tail) :
    m.kept.Pairwise fun p q => p.1.toNat < q.1.toNat := by
  rw [kept, pairwise_map]
  refine m.pages.sorted.imp_of_mem fun hp hq hlt => ?_
  rw [hm.pgno_of_mem htail hp, hm.pgno_of_mem htail hq]
  exact hlt

/-- The merged segment writes the newest contents of each page. -/
theorem Merged.writes_kept (hm : Merged P segments m) (htail : segments.getLast? = some tail) :
    writes m.kept = m.pages.get? := by
  refine funext fun n => ext fun data => ?_
  rw [get?_eq_some]
  constructor
  · intro h
    obtain ⟨page, hpage, rfl, rfl⟩ := mem_of_writes h
    obtain ⟨entry, hentry, rfl⟩ := mem_map.1 hpage
    rw [hm.pgno_of_mem htail hentry]
    exact hentry
  · intro h
    have := writes_of_mem (hm.kept_ascending htail) (mem_map.2 ⟨(n, data), h, rfl⟩)
    rwa [hm.pgno_of_mem htail h] at this

section
variable {byteLimit : Nat} {entries : List EncodedPage} {e : Encoder}
  (hencode : (Encoder.newBlockWithIndex { bytes := [], limit := some byteLimit } none).encodeFile P
    (mergedHeader (head.header P) (tail.header P)) m.encoded m.checksum = .ok (entries, e))

include hencode

/-- What the encoder made sure of. -/
theorem kept_each : ∀ page ∈ m.kept, 0 < page.1.toNat ∧
    page.1.toNat ≤ (tail.header P).commit.toNat ∧
    page.1.toNat ≠ lockPgno (tail.header P).pageSize ∧
    page.2.length = (tail.header P).pageSize.toNat := by
  intro page hpage
  obtain ⟨entry, hentry, rfl⟩ := mem_map.1 hpage
  exact (Encoder.encodeFile_ok (by exact trivial) hencode).1 _
    (mem_map.2 ⟨entry, hentry, rfl⟩)

theorem Merged.encoded_notLock (hm : Merged P segments m) (htail : segments.getLast? = some tail)
    (n : Nat) (hn : m.pages.get? n ≠ none) : n ≠ lockPgno (tail.header P).pageSize := by
  rw [← hm.writes_kept htail] at hn
  obtain ⟨page, hpage, rfl⟩ := (writes_ne_none (hm.kept_ascending htail)).1 hn
  exact (kept_each hencode page hpage).2.2.1

variable {s : MaterializationState} {cells : Nat → Bytes} (hm : Merged P segments m)
  (htail : segments.getLast? = some tail)

include hm htail

/-- The merged segment is the delta of its chain: a page that was cut off and came back has been
written, or it is the lock page. -/
theorem Merged.apply_kept (hholds : s.Holds P (tail.header P).pageSize cells) {minimum : Nat}
    (hminimum : m.minimumCommit = some minimum) (hregrown : minimum < (tail.header P).commit.toNat →
      (regrown (tail.header P) minimum m.pages).2 = (regrown (tail.header P) minimum m.pages).1) :
    Delta.apply (blankPage (tail.header P).pageSize) cells
        ⟨(tail.header P).commit.toNat, writes m.kept⟩
      = (segments.map (SegmentInput.delta P)).foldl
        (Delta.apply (blankPage (tail.header P).pageSize)) cells := by
  rw [hm.writes_kept htail, funext hm.pages, ← lastSize_delta htail]
  refine (Delta.merged_eq_iff _ cells (hm.minimum.symm.trans hminimum)).2 fun n hlt hle hnone => ?_
  by_cases hne : n = lockPgno (tail.header P).pageSize
  · exact hholds.blank n (Or.inr hne)
  · rw [lastSize_delta htail] at hle
    have hcovers := (regrown_eq_iff (hm.encoded_notLock hencode htail)).1 (hregrown (by omega)) n
      hlt hle hne
    exact absurd hnone (by rwa [← hm.pages])

variable {limits : Limits} {s' : MaterializationState}
  (hdone : Materialized P limits s (tail.header P).pageSize cells segments s')

include hdone

/-- The pages of the merged segment fit the state that its chain starts from. -/
theorem Merged.fits : Fits s.checksums.count (tail.header P).pageSize
    (tail.header P).commit.toNat m.kept := by
  have hascending := hm.kept_ascending htail
  refine ⟨hascending, kept_each hencode, fun n hlt hle hne => (writes_ne_none hascending).1 ?_,
    (hdone.last tail htail).2.2.2.2⟩
  rw [hm.writes_kept htail, hm.pages]
  exact hdone.fills.newest_ne_none hlt (hle.trans_eq (lastSize_delta htail).symm) hne

/-- A snapshot that was merged decodes: it has all the pages, and its checksum is theirs. -/
theorem Merged.decode_merged (hP : P.DecodesBlocks)
    (hholds : s.Holds P (tail.header P).pageSize cells) (hhead : segments.head? = some head)
    (hsame : Delta.apply (blankPage (tail.header P).pageSize) cells
        ⟨(tail.header P).commit.toNat, writes m.kept⟩
      = (segments.map (SegmentInput.delta P)).foldl
        (Delta.apply (blankPage (tail.header P).pageSize)) cells) :
    ∃ d, decode P { rest := e.writer.bytes } = .ok (m.encoded.map fun page =>
        (⟨page.1.pgno, page.1.flags ||| pageHeaderFlagSize⟩, page.2), d) ∧
      d.header = mergedHeader (head.header P) (tail.header P) ∧ d.trailer = e.trailer ∧
      d.consumed = e.writer.bytes := by
  have hfits := hm.fits hencode htail hdone
  obtain ⟨hstate, hpost, -⟩ := hdone.last tail htail
  have hsnapshot : (mergedHeader (head.header P) (tail.header P)).isSnapshot = true →
      s.checksums.count = 0 := by
    intro hone
    have htxid := (hdone.first head hhead).1
    rw [show (head.header P).minTxid = 1 from beq_iff_eq.1 hone] at htxid
    exact hholds.fresh (Nat.succ.inj htxid.symm)
  obtain ⟨d, hdecode, -, hheader, htrailer, hconsumed, -⟩ := decode_encodeFile hP rfl rfl rfl rfl
    rfl (by exact trivial) hencode (fun hone n h₀ hle hne => by
      obtain ⟨page, hpage, rfl⟩ := hfits.fills n (by rw [hsnapshot hone]; exact h₀) hle hne
      obtain ⟨entry, hentry, rfl⟩ := mem_map.1 hpage
      exact ⟨_, mem_map.2 ⟨entry, hentry, rfl⟩, rfl⟩)
    (fun hone => by
      rw [hsnapshot hone] at hfits
      rw [hm.checksum tail htail, ← hpost, hstate, ← hsame, encoded, List.map_map]
      refine (checksum_of_snapshot hfits).trans ?_
      rw [kept, List.map_map]
      rfl) none
  exact ⟨d, hdecode, hheader, htrailer, hconsumed⟩

end

/-- A merged segment does to a valid state what its chain does. -/
theorem Merged.apply_merged (hP : P.DecodesBlocks)
    {s s' : MaterializationState} (hm : Merged P segments m) (hs : s.Valid P)
    (hrun : s.applyAll P segments limits = .ok s')
    (hfinish : m.finish P (mergeLimit limits) = .ok merged) :
    s.apply P merged.body merged.descriptor.info limits = .ok s' := by
  obtain ⟨first, last, minimum, entries, e, hfirst, hlast, hminimum, hregrown, hencode, hbody,
    hinfo⟩ := finish_ok hfinish
  rw [hm.first, map_eq_some_iff] at hfirst
  rw [hm.last, map_eq_some_iff] at hlast
  obtain ⟨head, hhead, rfl⟩ := hfirst
  obtain ⟨tail, htail, rfl⟩ := hlast
  -- the pages of the chain have one size
  obtain ⟨pageSize, hsize, -, hall⟩ := hs.applyAll_pageSize hrun
  obtain rfl := hall tail (mem_of_getLast? htail)
  obtain ⟨cells, hholds⟩ := hs.holds (hsize (ne_nil_of_mem (mem_of_getLast? htail)))
  have hdone := hholds.applyAll hall hrun
  obtain ⟨hstate, hpost, hdatabase, hpos, -⟩ := hdone.last tail htail
  obtain ⟨htxid, hpre⟩ := hdone.first head hhead
  have hsame := hm.apply_kept hencode htail hholds hminimum hregrown
  obtain ⟨-, hheader, htrailer, hlimit⟩ := Encoder.encodeFile_ok (by exact trivial) hencode
  obtain ⟨d, hdecode, hdheader, hdtrailer, hconsumed⟩ :=
    hm.decode_merged hencode htail hdone hP hholds hhead hsame
  have hdelta : segmentDelta d.header (m.encoded.map fun page =>
      (⟨page.1.pgno, page.1.flags ||| pageHeaderFlagSize⟩, page.2))
      = ⟨(tail.header P).commit.toNat, writes m.kept⟩ := by
    rw [segmentDelta, bare_encoded, hdheader]
    rfl
  have hdpost : d.trailer.postApplyChecksum = tail.post P := by
    rw [hdtrailer, htrailer, hm.checksum tail htail]
  have hholds' : s.Holds P d.header.pageSize cells := by
    rw [hdheader]
    exact hholds
  rw [hbody, hinfo, hheader, ← hdheader, ← hdtrailer]
  refine (hholds'.apply_eq_ok hdecode).2 ⟨⟨?_, ?_, ?_, ?_, ?_, ?_, ?_, ?_, ?_, ?_⟩, ?_⟩
  · exact (hlimit (mergeLimit limits) rfl).trans (min_le_left _ _)
  · rw [hdheader]
    show ((0 : UInt32) &&& headerFlagNoChecksum != 0) = false
    decide
  · rw [hdheader]
    exact hdatabase
  · rw [hdheader]
    exact htxid
  · rw [hdheader]
    exact hpre
  · rw [hdheader]
    exact hpos
  · rw [bare_encoded, hdheader]
    exact hm.fits hencode htail hdone
  · rw [hdelta, hdheader, hdpost, ← hpost, hstate, ← hsame]
    rfl
  · rw [hconsumed]
  · rw [hconsumed]
  · rw [hstate, ← hsame, hdelta, hdpost, hdheader]
    rfl

end MergeState

/-! ## Regrowth over a truncation -/

/-- A page that a segment of the chain cut off, that the database has again in the end, and that no
segment since has written. -/
def Loses (P : Primitives) (segments : List SegmentInput) (n : Nat) : Prop :=
  ∃ init segment rest last, segments = init ++ segment :: rest ∧ segments.getLast? = some last ∧
    (segment.header P).commit.toNat < n ∧ n ≤ (last.header P).commit.toNat ∧
    n ≠ lockPgno (last.header P).pageSize ∧
    ∀ later ∈ rest, ∀ page ∈ (later.opened P).1, page.1.pgno.toNat ≠ n

/-- The merge has nothing for a page that is lost, though it lies beyond the smallest size. -/
theorem MergeState.Merged.loses {P : Primitives}
    (hm : Merged P segments m) (h : Loses P segments n) :
    ∃ last minimum, segments.getLast? = some last ∧ m.last = some (last.header P) ∧
      m.minimumCommit = some minimum ∧ minimum < n ∧ n ≤ (last.header P).commit.toNat ∧
      n ≠ lockPgno (last.header P).pageSize ∧ m.pages.get? n = none := by
  obtain ⟨init, segment, rest, last, rfl, hlast, hcut, hle, hne, hrest⟩ := h
  obtain ⟨minimum, hminimum⟩ : ∃ minimum, m.minimumCommit = some minimum := by
    rw [hm.minimum]
    obtain ⟨before, hbefore⟩ := getLast?_eq_some_iff.1 hlast
    rw [hbefore, map_append, map_singleton, Delta.leastSize_append]
    exact ⟨_, rfl⟩
  have hmem : segment.delta P ∈ (init ++ segment :: rest).map (SegmentInput.delta P) :=
    mem_map.2 ⟨segment, mem_append_right _ mem_cons_self, rfl⟩
  refine ⟨last, minimum, hlast, by rw [hm.last, hlast]; rfl, hminimum, ?_, hle, hne, ?_⟩
  · exact (Delta.leastSize_le_of_mem (hm.minimum.symm.trans hminimum) hmem).trans_lt hcut
  · rw [hm.pages, map_append, map_cons]
    refine Delta.newest_of_cut hcut fun later hlater => ?_
    obtain ⟨t, ht, rfl⟩ := mem_map.1 hlater
    by_contra hsome
    obtain ⟨page, hpage, hpgno⟩ := exists_page_of_writes hsome
    exact hrest t ht page hpage hpgno

/-- The pages that the merge keeps of a chain with pages of one size are no lock pages. -/
theorem MergeState.Merged.notLock (hm : Merged P segments m)
    (hsize : ∀ segment ∈ segments, (segment.header P).pageSize = pageSize) (n : Nat)
    (hn : m.pages.get? n ≠ none) : n ≠ lockPgno pageSize := by
  rw [hm.pages] at hn
  obtain ⟨data, hdata⟩ := ne_none_iff_exists'.1 hn
  obtain ⟨d, hd, hwrite⟩ := Delta.mem_of_newest hdata
  obtain ⟨segment, hsegment, rfl⟩ := mem_map.1 hd
  obtain ⟨page, hpage, rfl⟩ := exists_page_of_writes (ne_none_iff_exists'.2 ⟨data, hwrite⟩)
  rw [← hsize segment hsegment]
  exact (decode_place (hm.decodes segment hsegment) page hpage).2

open MergeState in
/-- Coalescing preserves meaning. A segment that a chain is merged into does to every valid state
that takes the chain what the chain does; a chain that loses a page is not merged, and is declined
when its pages have one size. -/
theorem coalesce_preserves {P : Primitives} (hP : P.DecodesBlocks) {segments : List SegmentInput}
    {m : MergeState} (hmerge : ({} : MergeState).applyAll P segments = .ok m) :
    (∀ (limits : Limits) (s s' : MaterializationState) (merged : PreparedSegment), s.Valid P →
      s.applyAll P segments limits = .ok s' → m.finish P (mergeLimit limits) = .ok merged →
        s.apply P merged.body merged.descriptor.info limits = .ok s') ∧
    ∀ n, Loses P segments n → ∀ byteLimit,
      (∀ merged, m.finish P byteLimit ≠ .ok merged) ∧
      ((∃ pageSize, ∀ segment ∈ segments, (segment.header P).pageSize = pageSize) →
        m.finish P byteLimit = .error .declined) := by
  have hm := Merged.applyAll hmerge
  refine ⟨fun limits s s' merged hs hrun hfinish => hm.apply_merged hP hs hrun hfinish,
    fun n hn byteLimit => ?_⟩
  obtain ⟨last, minimum, hlast, hmlast, hminimum, hlt, hle, hne, hnone⟩ := hm.loses hn
  constructor
  · intro merged hfinish
    obtain ⟨first, last', minimum', entries, e, hfirst, hlast', hminimum', hregrown, hencode, -⟩ :=
      finish_ok hfinish
    rw [hm.first, map_eq_some_iff] at hfirst
    obtain ⟨head, -, rfl⟩ := hfirst
    cases hmlast.symm.trans hlast'
    cases hminimum.symm.trans hminimum'
    exact (regrown_eq_iff (hm.encoded_notLock hencode hlast)).1 (hregrown (by omega)) n hlt hle hne
      hnone
  · rintro ⟨pageSize, hsize⟩
    obtain ⟨head, hhead⟩ : ∃ head, segments.head? = some head :=
      isSome_iff_exists.1 (isSome_head?.2
        (ne_nil_of_mem (mem_of_getLast? hlast)))
    have hcheck : (decide (minimum < (last.header P).commit.toNat)
        && (regrown (last.header P) minimum m.pages).2
          != (regrown (last.header P) minimum m.pages).1) = true := by
      rw [Bool.and_eq_true, decide_eq_true_eq, bne_iff_ne]
      refine ⟨by omega, fun heq => ?_⟩
      have hlock := hm.notLock hsize
      rw [← hsize last (mem_of_getLast? hlast)] at hlock
      exact (regrown_eq_iff hlock).1 heq n hlt hle hne hnone
    unfold finish
    rw [hm.first, hhead, hmlast, hminimum]
    simp only [available, map_some, elim_some, ok_bind, hcheck, reject_true, error_bind]

/-! ## A chain of two segments -/

/-- A page without repetitions, so that its block is one run of literals. -/
def samplePage (k : Nat) : Bytes :=
  (List.range 512).map fun i => UInt8.ofNat (i * i * i / 7 + i + k)

/-- A segment that writes one page, which is the whole database, with the block that stands for
it. -/
def sampleFile (header : Header) (block data : Bytes) (post : UInt64) : SegmentInput :=
  let frame := Encoder.frame ⟨1, 0⟩ block
  let footer := Encoder.footer (indexBytes [(1, headerSize, frame.length)])
  let hashed := header.marshal ++ Encoder.hashedFrame ⟨1, 0⟩ block data ++ footer
    ++ Bytes.be 8 post.toNat
  let trailer : Trailer := ⟨post, Checksum.flag ||| samplePrimitives.crc64 hashed⟩
  let bytes := header.marshal ++ (frame ++ (footer ++ trailer.marshal))
  { bytes
    info := SegmentInfo.fromInspected ⟨header, trailer⟩ bytes.length (samplePrimitives.blake3 bytes)
    index := Bytes.be 4 1 ++ (Bytes.be 8 headerSize ++ (Bytes.be 8 frame.length
      ++ ((samplePrimitives.blake3 frame).asBytes
        ++ Bytes.be 8 (samplePrimitives.checksumPage 1 data).toNat))) }

/-- A segment whose block is one run of literals. -/
def sampleSegment (header : Header) (data : Bytes) (post : UInt64) : SegmentInput :=
  sampleFile header (Lz4.encodeLast data) data post

/-- A snapshot of one page, and a segment that overwrites it. -/
def sampleChain : List SegmentInput :=
  let old := samplePrimitives.checksumPage 1 (samplePage 0)
  [sampleSegment sampleHeader (samplePage 0) old,
    sampleSegment { sampleHeader with minTxid := 2, maxTxid := 2, preApplyChecksum := old }
      (samplePage 1) (samplePrimitives.checksumPage 1 (samplePage 1))]

def sampleLimits : Limits := ⟨4096, 4096, 4096, 8192, 8⟩

/-- The sample chain is merged, and the merged segment builds the same database. -/
theorem coalesce_preserves_sample : ∃ m s merged,
    ({} : MergeState).applyAll samplePrimitives sampleChain = .ok m ∧
    ({} : MaterializationState).applyAll samplePrimitives sampleChain sampleLimits = .ok s ∧
    m.finish samplePrimitives (mergeLimit sampleLimits) = .ok merged ∧
    ({} : MaterializationState).apply samplePrimitives merged.body merged.descriptor.info
      sampleLimits
      = .ok s := by
  obtain ⟨m, hm⟩ : ∃ m, ({} : MergeState).applyAll samplePrimitives sampleChain = .ok m :=
    exists_ok (by decide +kernel)
  obtain ⟨merged, hf⟩ : ∃ merged, (({} : MergeState).applyAll samplePrimitives sampleChain
    >>= fun m =>
      m.finish samplePrimitives (mergeLimit sampleLimits))
        = .ok merged := exists_ok (by decide +kernel)
  obtain ⟨s, hs⟩ : ∃ s, ({} : MaterializationState).applyAll samplePrimitives sampleChain
      sampleLimits = .ok s := exists_ok (by decide +kernel)
  rw [hm, ok_bind] at hf
  exact ⟨m, s, merged, hm, hs, hf, (coalesce_preserves samplePrimitives_decodesBlocks hm).1 _ _ _ _
    (MaterializationState.valid_default _) hs hf⟩

end Cellule
