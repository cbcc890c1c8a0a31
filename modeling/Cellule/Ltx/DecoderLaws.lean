import Cellule.Ltx.Codec

/-!
# Reading a file page by page

The loops that read an LTX file do something with each page before they ask for the next. Such a
loop (`foldPages`) goes well exactly when the file decodes and all its pages are taken
(`foldPages_eq_ok`). Asking for the index of the file changes nothing else (`decode_withoutIndex`).
-/

namespace Cellule

open Except

namespace Decoder

/-- `while let Some(page) = decoder.decode_page(&mut data)?` with a body that may leave the loop.
`lift` puts the errors of the decoder among its own. -/
def foldPages {σ ε : Type} (P : Primitives) (length : Nat) (lift : LtxError → ε)
    (step : σ → PageHeader × Bytes → Except ε σ) (s : σ) (d : Decoder) :
    Except ε (σ × Decoder) :=
  match _ : d.decodePage P length with
  | .error e => .error (lift e)
  | .ok (none, d) => .ok (s, d)
  | .ok (some page, next) => do
    let s ← step s page
    next.foldPages P length lift step s
termination_by d.rest.length
decreasing_by exact ((decodePage_ok ‹_›).2 page rfl).1

variable {P : Primitives} {length : Nat}

variable {d d' : Decoder} {pages : List (PageHeader × Bytes)}

theorem decodePages_eq (d : Decoder) : d.decodePages P length = d.decodePage P length >>= fun
    | (none, last) => .ok ([], last)
    | (some page, next) => next.decodePages P length >>= fun r => .ok (page :: r.1, r.2) := by
  rw [decodePages]
  split <;> rename_i h <;> rw [h] <;> rfl

/-! ## What stays -/

/-- The pages of a file leave its header, and lie below its commit. -/
theorem decodePages_ok (h : d.decodePages P length = .ok (pages, d')) : d'.header = d.header ∧
    ∀ page ∈ pages, page.1.pgno.toNat ≤ d.header.commit.toNat ∧
      page.1.pgno.toNat ≠ lockPgno d.header.pageSize := by
  induction d using decodePages.induct P length generalizing pages with
  | case1 d e hpage =>
    rw [decodePages_eq, hpage] at h
    cases h
  | case2 d last hpage =>
    rw [decodePages_eq, hpage] at h
    cases h
    exact ⟨(decodePage_ok hpage).1, fun page hpage => absurd hpage List.not_mem_nil⟩
  | case3 d page next hpage ih =>
    rw [decodePages_eq, hpage, ok_bind] at h
    obtain ⟨⟨rest, last⟩, hrest, h⟩ := bind_eq_ok.1 h
    cases h
    obtain ⟨hsame, hplaced⟩ := decodePage_ok hpage
    obtain ⟨hlast, hrest⟩ := ih hrest
    rw [hsame] at hlast hrest
    exact ⟨hlast, List.forall_mem_cons.2 ⟨(hplaced page rfl).2, hrest⟩⟩

theorem close_ok (h : d.close P = .ok d') : d'.state = .closed ∧ d'.header = d.header := by
  unfold close at h
  split at h
  · next hstate =>
    cases h
    exact ⟨hstate, rfl⟩
  · obtain ⟨_, -, h⟩ := bind_eq_ok.1 h
    obtain ⟨_, -, h⟩ := bind_eq_ok.1 h
    obtain ⟨_, -, h⟩ := bind_eq_ok.1 h
    obtain ⟨_, -, h⟩ := bind_eq_ok.1 h
    obtain ⟨_, -, h⟩ := bind_eq_ok.1 h
    obtain ⟨_, -, h⟩ := bind_eq_ok.1 h
    obtain ⟨_, -, h⟩ := bind_eq_ok.1 h
    obtain ⟨_, -, h⟩ := bind_eq_ok.1 h
    obtain ⟨_, -, h⟩ := bind_eq_ok.1 h
    obtain ⟨_, -, h⟩ := bind_eq_ok.1 h
    obtain ⟨_, -, h⟩ := bind_eq_ok.1 h
    cases h
    exact ⟨rfl, rfl⟩
  · cases h

theorem decodeHeader_ok (h : d.decodeHeader = .ok d') : d'.header.validate = .ok () := by
  obtain ⟨_, -, h⟩ := bind_eq_ok.1 h
  obtain ⟨⟨bytes, d₁⟩, -, h⟩ := bind_eq_ok.1 h
  obtain ⟨header, -, h⟩ := bind_eq_ok.1 h
  obtain ⟨_, hvalid, h⟩ := bind_eq_ok.1 h
  cases h
  exact hvalid

/-- The parts of a file that decodes, with the header and the state it ends with. -/
theorem decode_eq_ok :
    d.decode P = .ok (pages, d') ↔ ∃ d₁ d₂, d.decodeHeader = .ok d₁ ∧
      d₁.decodePages P d₁.header.pageSize.toNat = .ok (pages, d₂) ∧ d₂.close P = .ok d' ∧
      d₁.header = d'.header ∧ d'.header.validate = .ok () ∧ d'.state = .closed := by
  constructor
  · intro h
    obtain ⟨d₁, hheader, h⟩ := bind_eq_ok.1 h
    obtain ⟨⟨pages', d₂⟩, hpages, h⟩ := bind_eq_ok.1 h
    obtain ⟨d₃, hclose, h⟩ := bind_eq_ok.1 h
    cases h
    have heq : d'.header = d₁.header := (close_ok hclose).2.trans ((decodePages_ok hpages).1)
    exact ⟨d₁, d₂, hheader, hpages, hclose, heq.symm, heq ▸ decodeHeader_ok hheader,
      (close_ok hclose).1⟩
  · rintro ⟨d₁, d₂, hheader, hpages, hclose, -⟩
    exact bind_eq_ok.2 ⟨d₁, hheader, bind_eq_ok.2 ⟨(pages, d₂), hpages,
      bind_eq_ok.2 ⟨d', hclose, rfl⟩⟩⟩

theorem decode_place (h : d.decode P = .ok (pages, d')) :
    ∀ page ∈ pages, page.1.pgno.toNat ≤ d'.header.commit.toNat ∧
      page.1.pgno.toNat ≠ lockPgno d'.header.pageSize := by
  obtain ⟨d₁, d₂, -, hpages, -, hsame, -⟩ := decode_eq_ok.1 h
  rw [← hsame]
  exact (decodePages_ok hpages).2

section
variable {σ ε : Type} {lift : LtxError → ε} {step : σ → PageHeader × Bytes → Except ε σ}

variable {d : Decoder}

theorem foldPages_eq (d : Decoder) (s : σ) :
    d.foldPages P length lift step s = (d.decodePage P length).mapError lift >>= fun
      | (none, last) => .ok (s, last)
      | (some page, next) => step s page >>= next.foldPages P length lift step := by
  rw [foldPages]
  split <;> rename_i h <;> rw [h] <;> rfl

/-- The loop goes well when the pages decode and the body takes all of them. -/
theorem foldPages_eq_ok :
    d.foldPages P length lift step s = .ok (s', d') ↔
      ∃ pages, d.decodePages P length = .ok (pages, d') ∧ pages.foldlM step s = .ok s' := by
  induction d using decodePages.induct P length generalizing s with
  | case1 d e h =>
    rw [foldPages_eq, decodePages_eq, h]
    constructor
    · exact nofun
    · exact fun ⟨_, h, _⟩ => nomatch h
  | case2 d last h =>
    rw [foldPages_eq, decodePages_eq, h]
    constructor
    · intro h
      cases h
      exact ⟨[], rfl, rfl⟩
    · rintro ⟨pages, hpages, hfold⟩
      cases hpages
      cases hfold
      rfl
  | case3 d page next h ih =>
    rw [foldPages_eq, decodePages_eq, h]
    show step s page >>= _ = _ ↔ ∃ pages, next.decodePages P length >>= _ = _ ∧ _
    rw [bind_eq_ok]
    constructor
    · rintro ⟨s₁, hstep, hrest⟩
      obtain ⟨pages, hpages, hfold⟩ := ih.1 hrest
      refine ⟨page :: pages, ?_, ?_⟩
      · rw [hpages]
        rfl
      · rw [List.foldlM_cons, hstep, ok_bind, hfold]
    · rintro ⟨pages, hpages, hfold⟩
      obtain ⟨⟨rest, last⟩, hrest, hpages⟩ := bind_eq_ok.1 hpages
      cases hpages
      rw [List.foldlM_cons, bind_eq_ok] at hfold
      obtain ⟨s₁, hstep, hfold⟩ := hfold
      exact ⟨s₁, hstep, ih.2 ⟨rest, hrest, hfold⟩⟩

end

/-! ## The index that the caller may ask for -/

/-- The decoder of a caller that did not ask for the index. -/
def withoutIndex (d : Decoder) : Decoder := { d with replicaIndex := none }

/-- What a function returned, for a caller that did not ask for the index. -/
def forget {α : Type} (r : α × Decoder) : α × Decoder := (r.1, r.2.withoutIndex)

variable (d : Decoder)

theorem readExact_withoutIndex (length : Nat) :
    d.withoutIndex.readExact length = (d.readExact length).map forget :=
  bind_eq_map fun _ => rfl

theorem decodeHeader_withoutIndex :
    d.withoutIndex.decodeHeader = d.decodeHeader.map withoutIndex := by
  refine bind_eq_map fun _ => ?_
  rw [readExact_withoutIndex]
  refine map_bind_eq_map fun r => ?_
  exact bind_eq_map fun header => bind_eq_map fun _ => rfl

theorem decodeBody_withoutIndex (offset : Nat) (page : PageHeader) (headerBytes : Bytes) :
    d.withoutIndex.decodeBody P offset page headerBytes length
      = (d.decodeBody P offset page headerBytes length).map forget := by
  unfold decodeBody
  split
  · unfold decodeBlock
    rw [readExact_withoutIndex]
    refine map_bind_eq_map fun r => bind_eq_map fun _ => ?_
    rw [show r.2.withoutIndex.update r.1 = (r.2.update r.1).withoutIndex from rfl,
      readExact_withoutIndex]
    refine map_bind_eq_map fun r => bind_eq_map fun data => ?_
    exact bind_eq_map fun _ => rfl
  · exact bind_eq_map fun r => bind_eq_map fun _ => rfl

theorem decodeFrame_withoutIndex (offset : Nat) (page : PageHeader) (headerBytes : Bytes) :
    d.withoutIndex.decodeFrame P offset page headerBytes length
      = (d.decodeFrame P offset page headerBytes length).map forget := by
  refine bind_eq_map fun _ => bind_eq_map fun _ => ?_
  rw [decodeBody_withoutIndex]
  exact map_bind_eq_map fun r => rfl

theorem decodePage_withoutIndex :
    d.withoutIndex.decodePage P length = (d.decodePage P length).map forget := by
  unfold decodePage
  by_cases hclose : d.state = .close
  · rw [if_pos hclose, if_pos (show d.withoutIndex.state = .close from hclose)]
    rfl
  · rw [if_neg hclose, if_neg (show ¬d.withoutIndex.state = .close from hclose)]
    refine bind_eq_map fun _ => ?_
    rw [readExact_withoutIndex]
    refine map_bind_eq_map fun r => bind_eq_map fun page => ?_
    dsimp only
    split
    · rfl
    · show ((r.2.update r.1).withoutIndex.decodeFrame P _ page r.1 length >>= _) = _
      rw [decodeFrame_withoutIndex]
      exact map_bind_eq_map fun r => rfl

theorem decodePages_withoutIndex :
    d.withoutIndex.decodePages P length = (d.decodePages P length).map forget := by
  induction d using decodePages.induct P length with
  | case1 d e h =>
    rw [decodePages_eq, decodePages_eq, decodePage_withoutIndex, h]
    rfl
  | case2 d last h =>
    rw [decodePages_eq, decodePages_eq, decodePage_withoutIndex, h]
    rfl
  | case3 d page next h ih =>
    rw [decodePages_eq, decodePages_eq d, decodePage_withoutIndex, h]
    show next.withoutIndex.decodePages P length >>= _ = _
    rw [ih]
    exact map_bind_eq_map fun r => rfl

theorem close_withoutIndex : d.withoutIndex.close P = (d.close P).map withoutIndex := by
  unfold close
  cases hstate : d.state with
  | header => rw [show d.withoutIndex.state = .header from hstate]; rfl
  | pages => rw [show d.withoutIndex.state = .pages from hstate]; rfl
  | closed => rw [show d.withoutIndex.state = .closed from hstate]; rfl
  | close =>
    rw [show d.withoutIndex.state = .close from hstate]
    refine bind_eq_map fun _ => bind_eq_map fun _ => bind_eq_map fun _ => ?_
    refine bind_eq_map fun _ => bind_eq_map fun _ => bind_eq_map fun _ => ?_
    refine bind_eq_map fun _ => bind_eq_map fun _ => bind_eq_map fun _ => ?_
    exact bind_eq_map fun _ => bind_eq_map fun _ => rfl

/-- A file decodes in the same way whether or not its index is asked for. -/
theorem decode_withoutIndex : d.withoutIndex.decode P = (d.decode P).map forget := by
  unfold decode
  rw [decodeHeader_withoutIndex]
  refine map_bind_eq_map fun d => ?_
  rw [decodePages_withoutIndex]
  refine map_bind_eq_map fun r => ?_
  dsimp only [forget]
  rw [close_withoutIndex]
  exact map_bind_eq_map fun _ => rfl

end Decoder

end Cellule
