import Cellule.Lib.Crc64
import Cellule.Ltx.PageFileLaws

/-!
# Runs of page checksums

A run works on one index and its clones, beside a row of database images, one for each value: an
`apply` writes the pages of a segment into the image of its value, a clone copies the image, a
commit moves it. Over a base in memory every value answers for its own image. Over a file it does so
as long as the commits spare the other values (`ChecksumSession.Safe`); a commit that does not makes
a clone answer with the checksums of another database (`file_clone_overwritten`).
-/

namespace Cellule

open Except List

/-! ## The dense list of checksums -/

namespace PageChecksums

variable {P : Primitives} {pageSize : UInt32} {b : Backing} {c : PageChecksums} {image : PageImage}

/-- Adding up the checksums of the pages one after another. -/
theorem foldl_flag (f : Nat → UInt64) (n : Nat) :
    ((List.range' 1 n).map f).foldl (fun fold checksum => Checksum.flag ||| (fold ^^^ checksum))
      Checksum.flag = Checksum.flag ||| xorTo f n := by
  induction n with
  | zero => exact (UInt64.or_zero).symm
  | succ n ih =>
    rw [range'_concat, map_append, foldl_append, ih, Nat.one_mul, Nat.add_comm 1 n]
    exact flag_xor (xorTo f n) (f (n + 1))

/-- The dense list that an index writes is the list of the checksums of its image. -/
theorem Stands.writeDense (h : c.Stands P pageSize b image) :
    c.writeDense b = .ok ((List.range' 1 image.count).map (image.sum P)) := by
  have hcount := h.count
  have hheld := h.held
  unfold PageChecksums.writeDense
  rw [hcount]
  refine bind_eq_ok.2 ⟨(List.range' 1 image.count).map (image.sum P), mapM_eq_ok.2 ?_, ?_⟩
  · rw [forall₂_map_right_iff, forall₂_same]
    intro page hpage
    rw [mem_range'_1] at hpage
    have hvalue : c.valueIn b page = .ok (image.sum P page) := h.valueIn (by omega) (by omega)
    cases b with
    | memory => exact hvalue
    | file entries =>
      change c.baseCount ≤ entries.length at hheld
      dsimp only
      split
      · next hin =>
        have hentry := h.entry page (by omega) (by omega)
        rw [stored, if_pos hin] at hentry
        have hget : entries[page - 1]? = some (entries.getD (page - 1) 0) := by
          rw [getElem?_eq_getElem (show page - 1 < entries.length by omega),
            getD_eq_getElem _ _ (show page - 1 < entries.length by omega)]
        rw [hget, Option.elim_some, ok_bind]
        change (c.changes page).getD (entries.getD (page - 1) 0) = _ at hentry
        rw [hentry, PageImage.checked_sum]
      · exact hvalue
  · rw [foldl_flag, h.checksum, PageImage.checksum, bne_self_eq_false]
    rfl

end PageChecksums

/-! ## Images beside the values -/

/-- One operation on the images, with its outcome. An `apply` fails as it does on an index without a
base; `PageChecksums.applyIter_eq_ok` says when. -/
def PageImage.step (P : Primitives) (pageSize : UInt32) (images : List (Option PageImage)) :
    ChecksumOp → Option (LtxResult Unit × List (Option PageImage))
  | .apply i commit pages limit => do
    let image ← images.slot? i
    match (PageChecksums.ofImage P image).applyIter P pageSize commit pages limit with
    | .ok _ => pure (.ok (), images.set i (some (image.apply commit pages)))
    | .error e => pure (.error e, images.set i none)
  | .clone i => do
    let image ← images.slot? i
    pure (.ok (), images ++ [some image])
  | .commit i j => do
    guard (i ≠ j)
    let _ ← images.slot? i
    let image ← images.slot? j
    pure (.ok (), (images.set j none).set i (some image))
  | .drop i => do
    let _ ← images.slot? i
    pure (.ok (), images.set i none)

/-- A row of operations on the images, with their outcomes. -/
def PageImage.run (P : Primitives) (pageSize : UInt32) (images : List (Option PageImage)) :
    List ChecksumOp → Option (List (LtxResult Unit) × List (Option PageImage))
  | [] => some ([], images)
  | op :: ops => do
    let (outcome, images) ← PageImage.step P pageSize images op
    let (outcomes, images) ← PageImage.run P pageSize images ops
    pure (outcome :: outcomes, images)

namespace ChecksumSession

/-- Every value in use stands for its image. -/
def Stands (P : Primitives) (pageSize : UInt32) (s : ChecksumSession)
    (images : List (Option PageImage)) : Prop :=
  List.SlotsRel (fun c image => c.Stands P pageSize s.backing image) s.values images

/-- Every value in use answers for its image: with its size, the checksum of the database, that of
every page, and all of them in one list. -/
def Answers (P : Primitives) (s : ChecksumSession) (images : List (Option PageImage)) : Prop :=
  List.SlotsRel (fun c image => c.count = image.count ∧ c.checksum = image.checksum P ∧
    (∀ page, 0 < page → page ≤ image.count → c.valueIn s.backing page = .ok (image.sum P page)) ∧
    c.writeDense s.backing = .ok ((List.range' 1 image.count).map (image.sum P))) s.values images

/-- The operations that keep the values over a file apart: a commit spares every value other than
its two, and a file of `2 ^ 32 - 1` checksums, more than SQLite has pages, is not cut. -/
def Safe (s : ChecksumSession) : ChecksumOp → Prop
  | .apply i commit _ _ => ∀ entries, s.backing = .file entries → ∀ c, s.value? i = some c →
    commit < c.count → c.count < u32Max
  | .commit i j => ∀ entries, s.backing = .file entries → ∀ candidate, s.value? j = some candidate →
    ∀ k c, k ≠ i → k ≠ j → s.value? k = some c → PageChecksums.Spares entries candidate c
  | _ => True

/-- All operations of a run are safe. -/
def SafeRun (P : Primitives) (pageSize : UInt32) (s : ChecksumSession) : List ChecksumOp → Prop
  | [] => True
  | op :: ops => s.Safe op ∧
    ∀ outcome s', s.step P pageSize op = some (outcome, s') → s'.SafeRun P pageSize ops

variable {P : Primitives} {pageSize : UInt32} {s : ChecksumSession}
  {images : List (Option PageImage)}

theorem Stands.answers (h : s.Stands P pageSize images) : s.Answers P images :=
  SlotsRel.imp h fun _ _ _ _ _ hstands =>
    ⟨hstands.count, hstands.checksum, fun _ h₀ hle => hstands.valueIn h₀ hle, hstands.writeDense⟩

/-- Outcome and successor of a step, in both runs. -/
def Follows (P : Primitives) (pageSize : UInt32) (r : LtxResult Unit × ChecksumSession)
    (m : LtxResult Unit × List (Option PageImage)) : Prop :=
  r.1 = m.1 ∧ r.2.Stands P pageSize m.2

/-- A commit leaves the committed value standing for the image of the candidate, and the others for
their own. -/
theorem Stands.commit (h : s.Stands P pageSize images) (hsafe : s.Safe (.commit i j))
    (hc : s.value? i = some c) (hcandidate : s.value? j = some candidate)
    (hstands : candidate.Stands P pageSize s.backing image) :
    ChecksumSession.Stands P pageSize ⟨(candidate.commitIn s.backing).1,
      (s.values.set j none).set i (some (candidate.commitIn s.backing).2)⟩
      ((images.set j none).set i (some image)) := by
  have hi : i < (s.values.set j none).length := by
    rw [length_set]
    exact lt_length_of_slot? hc
  have hj := lt_length_of_slot? hcandidate
  -- the values that are left when the two are gone
  have hothers : List.SlotsRel
      (fun c image => c.Stands P pageSize (candidate.commitIn s.backing).1 image)
      ((s.values.set j none).set i none) ((images.set j none).set i none) := by
    refine ((SlotsRel.set h hj .none).set hi .none).imp fun k c image' hk _ hstands' => ?_
    rw [slot?_set hi, slot?_set hj] at hk
    split at hk
    · cases hk
    · next hki =>
      split at hk
      · cases hk
      · next hkj =>
        cases hb : s.backing with
        | memory =>
          rw [hb] at hstands'
          exact hstands'
        | file entries =>
          rw [hb] at hstands hstands'
          exact hstands'.spared hstands (hsafe entries hb candidate hcandidate k c hki hkj hk)
  have hset := hothers.set (i := i) (by rwa [length_set]) (.some hstands.committed)
  rwa [set_set, set_set] at hset

/-- One step: the values go on standing for the images. -/
theorem Stands.step (h : s.Stands P pageSize images) (hsafe : s.Safe op) :
    Option.Rel (Follows P pageSize) (s.step P pageSize op)
      (PageImage.step P pageSize images op) := by
  cases op with
  | apply i commit pages limit =>
    refine Option.bind_rel (h.related i) fun c image hc hstands => ?_
    have hi := lt_length_of_slot? hc
    have hagree := hstands.apply pages limit fun ⟨entries, hentries⟩ => hsafe entries hentries c hc
    generalize c.applyIterIn P s.backing pageSize commit pages limit = x at hagree ⊢
    generalize (PageChecksums.ofImage P image).applyIter P pageSize commit pages limit = y
      at hagree ⊢
    cases hagree with
    | error e => exact .some ⟨rfl, SlotsRel.set h hi .none⟩
    | ok hstands' => exact .some ⟨rfl, SlotsRel.set h hi (.some hstands')⟩
  | clone i =>
    refine Option.bind_rel (h.related i) fun c image _ hstands => ?_
    exact .some ⟨rfl, SlotsRel.concat h (.some hstands)⟩
  | drop i =>
    refine Option.bind_rel (h.related i) fun c image hc _ => ?_
    exact .some ⟨rfl, SlotsRel.set h (lt_length_of_slot? hc) .none⟩
  | commit i j =>
    by_cases hne : i ≠ j
    · simp only [ChecksumSession.step, PageImage.step, guard, if_pos hne]
      refine Option.bind_rel (R := fun _ _ => True) (.some trivial) fun _ _ _ _ => ?_
      refine Option.bind_rel (h.related i) fun _ _ hc _ => ?_
      refine Option.bind_rel (h.related j) fun candidate image hcandidate hstands => ?_
      exact .some ⟨rfl, h.commit hsafe hc hcandidate hstands⟩
    · simp only [ChecksumSession.step, PageImage.step, guard, if_neg hne]
      exact .none

/-- A run: the values go on standing for the images, with the same outcomes. -/
theorem Stands.run (h : s.Stands P pageSize images) (hsafe : s.SafeRun P pageSize ops) :
    Option.Rel (fun r m => r.1 = m.1 ∧ r.2.Stands P pageSize m.2) (s.run P pageSize ops)
      (PageImage.run P pageSize images ops) := by
  induction ops generalizing s images with
  | nil => exact .some ⟨rfl, h⟩
  | cons op ops ih =>
    refine Option.bind_rel (h.step hsafe.1) fun r m hr hfollows => ?_
    refine Option.bind_rel (ih hfollows.2 (hsafe.2 r.1 r.2 hr)) fun r' m' _ hrun => ?_
    exact .some ⟨congrArg₂ List.cons hfollows.1 hrun.1, hrun.2⟩

/-! ## Sessions that start from one value -/

/-- A session over a base in memory with the checksums of an image. Without pages it is
`PageChecksums::default` (`cellule-ltx/src/pages.rs:93`). -/
def ofMemory (P : Primitives) (image : PageImage) : ChecksumSession :=
  ⟨.memory, [some {
    base := (List.range' 1 image.count).map (image.sum P)
    baseCount := image.count
    count := image.count
    checksum := image.checksum P }]⟩

/-- A session over a file that holds the checksums of an image. -/
def ofFile (P : Primitives) (image : PageImage) : ChecksumSession :=
  ⟨.file ((List.range' 1 image.count).map (image.sum P)), [some {
    baseCount := image.count
    count := image.count
    checksum := image.checksum P }]⟩

theorem dense_getD (P : Primitives) {image : PageImage} (h₀ : 0 < page) (hle : page ≤ image.count) :
    ((List.range' 1 image.count).map (image.sum P)).getD (page - 1) 0 = image.sum P page := by
  rw [getD_eq_getElem _ _ (by rw [length_map, length_range']; omega), getElem_map, getElem_range']
  exact congrArg _ (by omega)

/-- Both sessions start with a value that stands for the image. -/
theorem stands_start (P : Primitives) (h : image.Complete pageSize) :
    (ofMemory P image).Stands P pageSize [some image] ∧
      (ofFile P image).Stands P pageSize [some image] := by
  have hlock : ∀ page, 0 < page → page = lockPgno pageSize →
      ((List.range' 1 image.count).map (image.sum P)).getD (page - 1) 0 = 0 := by
    intro page h₀ hpage
    rcases Nat.lt_or_ge image.count page with hgt | hge
    · exact getD_eq_default _ _ (by rw [length_map, length_range']; omega)
    · rw [dense_getD P h₀ hge, PageImage.sum, PageImage.sums, hpage, h.lock]
      rfl
  have hheld : image.count ≤ ((List.range' 1 image.count).map (image.sum P)).length := by
    rw [length_map, length_range']
  constructor
  · refine SlotsRel.singleton ⟨h, rfl, rfl, fun page h₀ hle => ?_, fun _ _ => rfl, rfl, hlock,
      hheld⟩
    exact (if_pos hle).trans (dense_getD P h₀ hle)
  · refine SlotsRel.singleton ⟨h, rfl, rfl, fun page h₀ hle => ?_, fun _ _ => rfl, rfl, hlock,
      hheld⟩
    exact (if_pos hle).trans (dense_getD P h₀ hle)

/-- A step does not change where the base is. -/
theorem step_backing (hs : s.backing = .memory) (h : s.step P pageSize op = some (outcome, s')) :
    s'.backing = .memory := by
  cases op with
  | apply i commit pages limit =>
    obtain ⟨c, -, h⟩ := Option.bind_eq_some_iff.1 h
    split at h <;> cases h <;> exact hs
  | clone i | drop i =>
    obtain ⟨c, -, h⟩ := Option.bind_eq_some_iff.1 h
    cases h
    exact hs
  | commit i j =>
    obtain ⟨-, -, h⟩ := Option.bind_eq_some_iff.1 h
    obtain ⟨-, -, h⟩ := Option.bind_eq_some_iff.1 h
    obtain ⟨candidate, -, h⟩ := Option.bind_eq_some_iff.1 h
    rw [hs] at h
    cases h
    rfl

/-- An `apply` makes no new value. -/
theorem length_apply (h : s.step P pageSize (.apply i commit pages limit) = some (outcome, s')) :
    s'.values.length = s.values.length := by
  obtain ⟨c, -, h⟩ := Option.bind_eq_some_iff.1 h
  split at h <;> cases h <;> exact length_set

/-- A session over a base in memory keeps its values apart by itself. -/
theorem safeRun_memory (hs : s.backing = .memory) : s.SafeRun P pageSize ops := by
  have hnone : ∀ entries, s.backing ≠ .file entries := by
    intro entries hentries
    rw [hs] at hentries
    cases hentries
  induction ops generalizing s with
  | nil => exact trivial
  | cons op ops ih =>
    refine ⟨?_, fun outcome s' hstep => ?_⟩
    · cases op with
      | apply | commit => exact fun entries hentries => absurd hentries (hnone entries)
      | clone | drop => exact trivial
    · have hs' := step_backing hs hstep
      refine ih hs' fun entries hentries => ?_
      rw [hs'] at hentries
      cases hentries

/-- An index over a file that is written out after any safe operations and opened again is the index
over a file of the image it answers for. -/
theorem reopened_eq {image : PageImage} (hcomplete : image.Complete pageSize)
    (hsize : isValidPageSize pageSize = true) {ops : List ChecksumOp}
    (hsafe : (ofFile P image).SafeRun P pageSize ops) {outcomes : List (LtxResult Unit)}
    (hrun : (ofFile P image).run P pageSize ops = some (outcomes, s)) {i : Nat} {c : PageChecksums}
    (hc : s.value? i = some c) (hcount : c.count ≠ 0) :
    ∃ images now entries reopened, PageImage.run P pageSize [some image] ops
      = some (outcomes, images) ∧
      images.slot? i = some now ∧ c.writeDense s.backing = .ok entries ∧
      PageChecksums.fromFile entries pageSize c.count c.checksum = .ok reopened ∧
      ⟨.file entries, [some reopened]⟩ = ofFile P now := by
  have hrel := (stands_start P hcomplete).2.run hsafe
  rw [hrun] at hrel
  generalize PageImage.run P pageSize [some image] ops = m at hrel
  cases hrel with
  | some h =>
    obtain ⟨rfl, hstands⟩ := h
    obtain ⟨now, hnow, hvalue⟩ := hstands.exists_right hc
    refine ⟨_, now, _, _, rfl, hnow, hvalue.writeDense, ?_, rfl⟩
    rw [hvalue.count] at hcount ⊢
    simp [PageChecksums.fromFile, hvalue.checksum, PageImage.checksum, flag_or_and, hsize, hcount,
      show Checksum.flag ≠ 0 by decide]

end ChecksumSession

/-- Runs of page checksums. Take any database and any operations on an index of it and its clones,
and let the images run beside the values. Over a base in memory the run has the same outcomes, and
every value in use answers for its image. Over a file it does so, too, in every run whose commits
spare the other values and that does not cut a file of `2 ^ 32 - 1` checksums; so the two forms
answer alike. -/
theorem page_checksums_answer (P : Primitives) {pageSize : UInt32} {image : PageImage}
    (hcomplete : image.Complete pageSize) (ops : List ChecksumOp) :
    Option.Rel (fun r m => r.1 = m.1 ∧ r.2.Answers P m.2)
      ((ChecksumSession.ofMemory P image).run P pageSize ops)
      (PageImage.run P pageSize [some image] ops) ∧
    ((ChecksumSession.ofFile P image).SafeRun P pageSize ops →
      Option.Rel (fun r m => r.1 = m.1 ∧ r.2.Answers P m.2)
        ((ChecksumSession.ofFile P image).run P pageSize ops)
        (PageImage.run P pageSize [some image] ops)) := by
  obtain ⟨hmemory, hfile⟩ := ChecksumSession.stands_start P hcomplete
  have himp : ∀ {x : Option (List (LtxResult Unit) × ChecksumSession)}
      {y : Option (List (LtxResult Unit) × List (Option PageImage))},
      Option.Rel (fun r m => r.1 = m.1 ∧ r.2.Stands P pageSize m.2) x y →
        Option.Rel (fun r m => r.1 = m.1 ∧ r.2.Answers P m.2) x y := by
    intro x y hrel
    cases hrel with
    | none => exact .none
    | some h => exact .some ⟨h.1, h.2.answers⟩
  exact ⟨himp (hmemory.run (ChecksumSession.safeRun_memory rfl)), fun hsafe =>
    himp (hfile.run hsafe)⟩

/-! ## A clone under which the file is rewritten -/

/-- The checksums of the format; nothing here depends on the other primitives. -/
def crcPrimitives : Primitives where
  crc64 := Crc64.goIso
  blake3 _ := ⟨List.replicate 32 0, rfl⟩
  decompressInto _ _ := .error .other
  decodeFrame _ _ := .error .other

/-- A database of one page of 512 bytes. -/
def onePage (fill : UInt8) : PageImage :=
  ⟨1, fun n => if n = 1 then some (List.replicate 512 fill) else none⟩

theorem onePage_complete (fill : UInt8) : (onePage fill).Complete 512 := by
  intro n
  have hlock : lockPgno 512 = 2097153 := by decide
  show (if n = 1 then some _ else none) ≠ none ↔ 0 < n ∧ n ≤ 1 ∧ n ≠ lockPgno 512
  split
  · next hn =>
    subst hn
    exact ⟨fun _ => ⟨by omega, le_rfl, by rw [hlock]; omega⟩, fun _ => Option.some_ne_none _⟩
  · exact ⟨fun hne => absurd rfl hne, fun ⟨_, _, _⟩ => by omega⟩

/-- An index is cloned twice; one clone is kept, the other has the page rewritten and is
committed. -/
def cloneThenCommit : List ChecksumOp :=
  [.clone 0, .clone 0, .apply 2 1 [(1, List.replicate 512 2)] 512, .commit 0 2]

set_option maxRecDepth 100000 in
/-- Over a file the clone that was kept answers with the checksum of the rewritten page. -/
theorem file_clone_overwritten :
    ¬ Option.Rel (fun r m => r.1 = m.1 ∧ r.2.Answers crcPrimitives m.2)
      ((ChecksumSession.ofFile crcPrimitives (onePage 1)).run crcPrimitives 512 cloneThenCommit)
      (PageImage.run crcPrimitives 512 [some (onePage 1)] cloneThenCommit) := by
  intro hrel
  have hvalue : ((ChecksumSession.ofFile crcPrimitives (onePage 1)).run crcPrimitives 512
      cloneThenCommit).bind (fun r => (r.2.value? 1).map fun c =>
        (c.valueIn r.2.backing 1).toOption)
      = some (some ((onePage 2).sum crcPrimitives 1)) := by decide +kernel
  have himage : (PageImage.run crcPrimitives 512 [some (onePage 1)] cloneThenCommit).bind
      (fun m => (m.2.slot? 1).map fun image => (image.count, image.sum crcPrimitives 1))
      = some (1, (onePage 1).sum crcPrimitives 1) := by decide +kernel
  have hne : (onePage 2).sum crcPrimitives 1 ≠ (onePage 1).sum crcPrimitives 1 := by decide +kernel
  obtain ⟨r, hr, hvalue⟩ := Option.bind_eq_some_iff.1 hvalue
  obtain ⟨m, hm, himage⟩ := Option.bind_eq_some_iff.1 himage
  obtain ⟨c, hc, hvalue⟩ := Option.map_eq_some_iff.1 hvalue
  obtain ⟨image, hslot, himage⟩ := Option.map_eq_some_iff.1 himage
  obtain ⟨hcount, hsum⟩ := Prod.mk.inj himage
  rw [hr, hm] at hrel
  cases hrel with
  | some h =>
    obtain ⟨image', hslot', -, -, hanswer, -⟩ := h.2.exists_right hc
    obtain rfl : image = image' := Option.some.inj (hslot.symm.trans hslot')
    rw [hanswer 1 one_pos hcount.ge, hsum] at hvalue
    exact hne (Option.some.inj hvalue).symm

/-- An index is cloned, and the clone is committed with the page rewritten, as capture does it. -/
def captureCut : List ChecksumOp :=
  [.clone 0, .apply 1 1 [(1, List.replicate 512 2)] 512, .commit 0 1]

/-- Where there are no other values, a commit is safe. -/
theorem captureCut_safe : (ChecksumSession.ofFile crcPrimitives (onePage 1)).SafeRun
    crcPrimitives 512
    captureCut := by
  refine ⟨trivial, fun outcome s hclone => ?_⟩
  cases hclone
  refine ⟨fun _ _ c hc hlt => ?_, fun outcome s happly => ?_⟩
  · cases hc
    exact absurd hlt (Nat.lt_irrefl 1)
  · have hlength : s.values.length = 2 := ChecksumSession.length_apply happly
    refine ⟨fun _ _ _ _ k c hk₀ hk₁ hc => ?_, fun _ _ _ => trivial⟩
    have := lt_length_of_slot? hc
    omega

/-- The operations with the clone that was kept, over a base in memory, and those of a capture, over
a file. -/
theorem page_checksums_answer_onePage :
    Option.Rel (fun r m => r.1 = m.1 ∧ r.2.Answers crcPrimitives m.2)
      ((ChecksumSession.ofMemory crcPrimitives (onePage 1)).run crcPrimitives 512 cloneThenCommit)
      (PageImage.run crcPrimitives 512 [some (onePage 1)] cloneThenCommit) ∧
    Option.Rel (fun r m => r.1 = m.1 ∧ r.2.Answers crcPrimitives m.2)
      ((ChecksumSession.ofFile crcPrimitives (onePage 1)).run crcPrimitives 512 captureCut)
      (PageImage.run crcPrimitives 512 [some (onePage 1)] captureCut) :=
  ⟨(page_checksums_answer crcPrimitives (onePage_complete 1) cloneThenCommit).1,
    (page_checksums_answer crcPrimitives (onePage_complete 1) captureCut).2 captureCut_safe⟩

set_option maxRecDepth 100000 in
/-- The index that a capture committed is opened again as the index of the rewritten page. -/
theorem reopened_eq_onePage : ∃ outcomes s c now entries reopened,
    (ChecksumSession.ofFile crcPrimitives (onePage 1)).run crcPrimitives 512 captureCut
      = some (outcomes, s) ∧ s.value? 0 = some c ∧ now.page 1 = some (List.replicate 512 2) ∧
    PageChecksums.fromFile entries 512 c.count c.checksum = .ok reopened ∧
    ⟨.file entries, [some reopened]⟩ = ChecksumSession.ofFile crcPrimitives now := by
  have hvalue : ((ChecksumSession.ofFile crcPrimitives (onePage 1)).run crcPrimitives 512
      captureCut).bind (fun r => (r.2.value? 0).map PageChecksums.count)
        = some 1 := by decide +kernel
  have himage : (PageImage.run crcPrimitives 512 [some (onePage 1)] captureCut).bind
      (fun m => (m.2.slot? 0).map (·.page 1)) = some (some (List.replicate 512 2)) := by
    decide +kernel
  obtain ⟨r, hr, hvalue⟩ := Option.bind_eq_some_iff.1 hvalue
  obtain ⟨c, hc, hcount⟩ := Option.map_eq_some_iff.1 hvalue
  obtain ⟨images, now, entries, reopened, hrun, hnow, -, h⟩ := ChecksumSession.reopened_eq
    (onePage_complete 1) (by decide) captureCut_safe hr hc (by omega)
  rw [hrun, Option.bind_some, hnow] at himage
  exact ⟨r.1, r.2, c, now, entries, reopened, hr, hc, Option.some.inj himage, h⟩

end Cellule
