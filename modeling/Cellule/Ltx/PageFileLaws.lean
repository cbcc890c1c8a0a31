import Cellule.Ltx.PageFile

/-!
# Laws of page checksums over a file

An index stands for a database image (`Stands`): its checksum is the flagged exclusive or of the
page checksums, and the changes laid over the base give the checksum of every page. Applying and
committing keep this (`Stands.apply`, `Stands.committed`). A commit over a file rewrites it under
all clones, so another value goes on standing for its image only if the commit spares what it reads
(`Spares`).
-/

namespace Cellule

open Except List Option Function

/-! ## Entries -/

/-- Reading the block of a page that the file holds. -/
theorem readerValue_eq {page count : Nat} (h₀ : 0 < page)
    (hpage : page ≤ count) (hcount : count ≤ entries.length) :
    readerValue entries page count = .ok (entries.getD (page - 1) 0) := by
  have hblock : (page - 1) / checksumBlock * checksumBlock ≤ page - 1 := Nat.div_mul_le_self _ _
  have hnext : page - 1 < (page - 1) / checksumBlock * checksumBlock + checksumBlock := by
    have := Nat.lt_div_mul_add (a := page - 1) (b := checksumBlock) (by decide)
    exact this
  unfold readerValue
  generalize (page - 1) / checksumBlock * checksumBlock = first at hblock hnext
  have hread : readExactAt entries first (min (count - first) checksumBlock)
      = .ok ((entries.drop first).take (min (count - first) checksumBlock)) :=
    if_pos (by omega)
  dsimp only
  rw [hread, ok_bind, getElem?_take_of_lt (by omega), getElem?_drop,
    show first + (page - 1 - first) = page - 1 by omega,
    getElem?_eq_getElem (show page - 1 < entries.length by omega), elim_some,
    getD_eq_getElem _ _ (show page - 1 < entries.length by omega)]

theorem getD_resize (l : List UInt64) (n i : Nat) :
    (l.resize n 0).getD i 0 = if i < n then l.getD i 0 else 0 := by
  unfold List.resize
  rw [getD_eq_getElem?_getD, getD_eq_getElem?_getD]
  rcases Nat.lt_or_ge i (l.take n).length with hi | hi
  · rw [getElem?_append_left hi]
    rw [length_take] at hi
    rw [getElem?_take_of_lt (by omega), if_pos (by omega)]
  · rw [getElem?_append_right hi, getElem?_replicate]
    rw [length_take] at hi ⊢
    split
    · next hin =>
      rw [if_pos (by omega), getElem?_eq_none (by omega)]
      rfl
    · rw [if_neg (by omega)]
      rfl

theorem length_resize (l : List UInt64) (n : Nat) : (l.resize n 0).length = n := by
  rw [List.resize, length_append, length_take, length_replicate]
  omega

theorem getD_splice {l data : List UInt64} (h : offset ≤ l.length) (i : Nat) :
    (l.splice offset data).getD i 0 =
      if offset ≤ i ∧ i < offset + data.length then data.getD (i - offset) 0 else l.getD i 0 := by
  unfold List.splice
  simp only [getD_eq_getElem?_getD]
  have htake : (l.take offset).length = offset := by rw [length_take]; omega
  rcases Nat.lt_or_ge i offset with hi | hi
  · rw [getElem?_append_left (by omega), getElem?_take_of_lt hi, if_neg (by omega)]
  · rw [getElem?_append_right (by omega), htake]
    rcases Nat.lt_or_ge (i - offset) data.length with hj | hj
    · rw [getElem?_append_left hj, if_pos (by omega)]
    · rw [getElem?_append_right hj, getElem?_drop, if_neg (by omega),
        show offset + data.length + (i - offset - data.length) = i by omega]

/-- Writing leaves the other entries, and those that were not there yet are zero. -/
theorem getD_writeAllAt (entries : List UInt64) (offset : Nat) (data : List UInt64) (i : Nat) :
    (writeAllAt entries offset data).getD i 0 =
      if offset ≤ i ∧ i < offset + data.length then data.getD (i - offset) 0
      else entries.getD i 0 := by
  unfold writeAllAt
  rw [getD_splice (by rw [length_resize]; omega), getD_resize]
  split
  · rfl
  · split
    · rfl
    · rw [getD_eq_default _ _ (by omega)]

namespace PageChecksums

/-! ## Sealing the changes -/

/-- The entries with what is gathered laid over them. -/
def DenseWrite.view (w : DenseWrite) (i : Nat) : UInt64 :=
  if w.start ≤ i ∧ i < w.start + w.output.length then w.output.getD (i - w.start) 0
  else w.entries.getD i 0

theorem DenseWrite.view_flush (w : DenseWrite) : w.flush.view = w.view := by
  unfold flush
  split
  · rfl
  · funext i
    simp only [view, getD_writeAllAt, length_nil]
    rw [if_neg (by omega)]

theorem DenseWrite.flush_output (w : DenseWrite) : w.flush.output = [] := by
  unfold flush
  split
  · next h => exact h
  · rfl

/-- After a flush the entries are all there is. -/
theorem DenseWrite.getD_flush (w : DenseWrite) (i : Nat) : w.flush.entries.getD i 0 = w.view i := by
  rw [← view_flush, view, flush_output, length_nil, if_neg (by omega)]

/-- Gathering one more change, next to the others or after they were written. -/
theorem DenseWrite.view_put (w : DenseWrite) (checksum : UInt64) :
    (w.put (page, checksum)).view = update w.view (page - 1) checksum := by
  have happend : ∀ w : DenseWrite, page - 1 = w.start + w.output.length →
      view { w with output := w.output ++ [checksum] } = update w.view (page - 1) checksum := by
    intro w hw
    funext i
    simp only [view, length_append, length_singleton]
    rcases eq_or_ne i (page - 1) with rfl | hne
    · rw [update_self, if_pos (by omega), hw, Nat.add_sub_cancel_left,
        getD_eq_getElem?_getD, getElem?_concat_length]
      rfl
    · rw [update_of_ne hne, view]
      by_cases hin : w.start ≤ i ∧ i < w.start + w.output.length
      · rw [if_pos (by omega), if_pos hin, getD_eq_getElem?_getD,
          getElem?_append_left (by omega), getD_eq_getElem?_getD]
      · rw [if_neg (by omega), if_neg hin]
  have hempty : ∀ w : DenseWrite, w.output = [] → view { w with start := page - 1 } = w.view := by
    intro w hw
    funext i
    rw [view, view, hw, length_nil, if_neg (by omega), if_neg (by omega)]
  unfold put
  dsimp only
  split
  · have hout := flush_output w
    rw [if_pos hout, happend { w.flush with start := page - 1 } (by rw [hout]; rfl), hempty _ hout,
      view_flush]
  · next h =>
    have hw : page - 1 = w.start + w.output.length := by
      by_contra hne
      exact h (Or.inl hne)
    have hstart : (if w.output = [] then page - 1 else w.start) = w.start := by
      split
      · next hnil => rw [hw, hnil]; rfl
      · rfl
    rw [hstart, happend w hw]

/-- Laying the changes of the first pages over the entries. -/
theorem foldl_put (changes : Nat → Option UInt64) (w : DenseWrite) (n i : Nat) :
    (((List.range' 1 n).filterMap fun page =>
        (changes page).map fun checksum => (page, checksum)).foldl DenseWrite.put w).view i =
      if i < n then (changes (i + 1)).getD (w.view i) else w.view i := by
  induction n with
  | zero => rfl
  | succ n ih =>
    rw [range'_concat, filterMap_append, foldl_append, Nat.one_mul, Nat.add_comm 1 n]
    cases hchange : changes (n + 1) with
    | none =>
      simp only [filterMap_cons, hchange, map_none, filterMap_nil, foldl_nil]
      rw [ih]
      rcases Nat.lt_trichotomy i n with hlt | rfl | hgt
      · rw [if_pos hlt, if_pos (by omega)]
      · rw [if_neg (by omega), if_pos (by omega), hchange, getD_none]
      · rw [if_neg (by omega), if_neg (by omega)]
    | some checksum =>
      simp only [filterMap_cons, hchange, map_some, filterMap_nil, foldl_cons, foldl_nil]
      rw [DenseWrite.view_put, Nat.add_sub_cancel]
      rcases Nat.lt_trichotomy i n with hlt | rfl | hgt
      · rw [update_of_ne hlt.ne, ih, if_pos hlt, if_pos (by omega)]
      · rw [update_self, if_pos (by omega), hchange, getD_some]
      · rw [update_of_ne hgt.ne', ih, if_neg (by omega), if_neg (by omega)]

variable {c : PageChecksums}

/-- The file after a commit: the changes over what was there. -/
theorem getD_mergeFile (entries : List UInt64) (hi : i < c.count) :
    (c.mergeFile entries).getD i 0 = (c.changes (i + 1)).getD (entries.getD i 0) := by
  have hstart : ∀ entries : List UInt64, (DenseWrite.mk entries 0 []).view i = entries.getD i 0 :=
    fun entries => if_neg (by rw [length_nil]; omega)
  unfold mergeFile sortedChanges
  dsimp only
  rw [getD_resize, if_pos hi, DenseWrite.getD_flush, foldl_put, if_pos hi, hstart]
  split
  · rw [getD_resize, if_pos hi]
  · rfl

theorem length_mergeFile (entries : List UInt64) : (c.mergeFile entries).length = c.count :=
  length_resize _ _

/-- The base in memory after a commit: the changes over the part of it that was sealed. -/
theorem getD_mergeMemory (hi : i < c.count) :
    c.mergeMemory.getD i 0
      = (c.changes (i + 1)).getD (if i < c.baseCount then c.base.getD i 0 else 0) := by
  have hlen : i < ((c.base.take c.baseCount).resize c.count 0).length := by rwa [length_resize]
  have hget : ((c.base.take c.baseCount).resize c.count 0)[i]
      = if i < c.baseCount then c.base.getD i 0 else 0 := by
    have htake : (c.base.take c.baseCount).getD i 0
        = if i < c.baseCount then c.base.getD i 0 else 0 := by
      simp only [getD_eq_getElem?_getD, getElem?_take]
      split <;> rfl
    rw [← getD_eq_getElem _ 0 hlen, getD_resize, if_pos hi, htake]
  unfold mergeMemory
  rw [getD_eq_getElem?_getD, getElem?_mapIdx, getElem?_eq_getElem hlen, hget]
  rfl

theorem length_mergeMemory : c.mergeMemory.length = c.count := by
  rw [mergeMemory, length_mapIdx, length_resize]

end PageChecksums

/-! ## Images -/

/-- A database as its pages; the lock page has no contents. -/
structure PageImage where
  count : Nat
  page : Nat → Option Bytes

namespace PageImage

/-- The pages that an image of some size has. -/
def Complete (pageSize : UInt32) (image : PageImage) : Prop :=
  ∀ n, image.page n ≠ none ↔ 0 < n ∧ n ≤ image.count ∧ n ≠ lockPgno pageSize

/-- The image after pages were written and the database was given a new size. -/
def apply (image : PageImage) (commit : Nat) (pages : List (UInt32 × Bytes)) : PageImage :=
  ⟨commit, fun n => (writes pages n).or (if n ≤ commit then image.page n else none)⟩

/-- The checksums of the pages. -/
def sums (P : Primitives) (image : PageImage) : Nat → Option UInt64 :=
  fun n => (image.page n).map (P.checksumPage (UInt32.ofNat n))

/-- The checksum of a page; the lock page contributes nothing. -/
def sum (P : Primitives) (image : PageImage) (n : Nat) : UInt64 := (image.sums P n).getD 0

/-- The checksum of the database. -/
def checksum (P : Primitives) (image : PageImage) : UInt64 :=
  Checksum.flag ||| xorTo (image.sum P) image.count

variable {P : Primitives} {pageSize : UInt32} {image : PageImage}

theorem Complete.outside (h : image.Complete pageSize) (hn : image.count < n) :
    image.page n = none := by
  by_contra hne
  exact absurd ((h n).1 hne).2.1 (by omega)

theorem Complete.sums_outside (h : image.Complete pageSize) (hn : image.count < n) :
    image.sums P n = none := by
  rw [sums, h.outside hn]
  rfl

theorem Complete.lock (h : image.Complete pageSize) : image.page (lockPgno pageSize) = none := by
  by_contra hne
  exact ((h _).1 hne).2.2 rfl

/-- A page whose checksum is zero is not there. -/
theorem eq_none_of_sum (h : image.sum P n = 0) : image.page n = none := by
  cases hpage : image.page n with
  | none => rfl
  | some data =>
    unfold sum sums at h
    rw [hpage, map_some, getD_some, Primitives.checksumPage] at h
    have hflag := congrArg (· &&& Checksum.flag) h
    rw [flag_or_and, UInt64.zero_and] at hflag
    exact absurd hflag (by decide)

/-- The checksum of a page passes the check of the reader. -/
theorem checked_sum (n : Nat) : PageChecksums.checked (image.sum P n) = .ok (image.sum P n) := by
  unfold sum sums PageChecksums.checked
  cases image.page n with
  | none => rfl
  | some data =>
    rw [map_some, getD_some, Primitives.checksumPage, flag_or_and,
      show (Checksum.flag == 0) = false from rfl, Bool.and_false]
    rfl

/-- The image after a segment that fits. -/
theorem Complete.apply
    (h : image.Complete pageSize) (hfits : Fits image.count pageSize commit pages) :
    (image.apply commit pages).Complete pageSize := by
  intro n
  have hwrites := writes_ne_none hfits.ascending (n := n)
  show (writes pages n).or (if n ≤ commit then image.page n else none) ≠ none ↔
    0 < n ∧ n ≤ commit ∧ n ≠ lockPgno pageSize
  cases hn : writes pages n with
  | some data =>
    rw [hn] at hwrites
    obtain ⟨page, hpage, rfl⟩ := hwrites.1 (some_ne_none data)
    obtain ⟨h₁, h₂, h₃, -⟩ := hfits.each page hpage
    exact ⟨fun _ => ⟨h₁, h₂, h₃⟩, fun _ => some_ne_none data⟩
  | none =>
    rw [none_or]
    split
    · next hle =>
      rw [h n]
      refine ⟨fun ⟨h₁, _, h₃⟩ => ⟨h₁, hle, h₃⟩, fun ⟨h₁, _, h₃⟩ => ⟨h₁, ?_, h₃⟩⟩
      by_contra hgt
      exact hwrites.2 (hfits.fills n (Nat.not_le.1 hgt) hle h₃) hn
    · next hgt => exact ⟨fun hne => absurd rfl hne, fun ⟨_, hle, _⟩ => absurd hle hgt⟩

theorem sums_apply (commit : Nat) (pages : List (UInt32 × Bytes)) :
    (image.apply commit pages).sums P
      = overlay P (writes pages) (PageChecksums.upTo commit (image.sums P)) := by
  funext n
  unfold sums apply overlay PageChecksums.upTo
  dsimp only
  cases writes pages n with
  | some data => rfl
  | none =>
    rw [none_or, map_none, none_or]
    split <;> rfl

end PageImage

/-! ## What an index stands for -/

namespace PageChecksums

/-- The entries of the base. -/
def entriesIn (b : Backing) (c : PageChecksums) : List UInt64 :=
  match b with
  | .memory => c.base
  | .file entries => entries

/-- The checksum of a page in the base; none beyond the sealed part. -/
def stored (b : Backing) (c : PageChecksums) (page : Nat) : UInt64 :=
  if page ≤ c.baseCount then (c.entriesIn b).getD (page - 1) 0 else 0

/-- An index stands for an image: the changes laid over the base are the checksums of its pages.
Entries of the base beyond the size are left over from before a cut, but never at the lock page,
which nothing overwrites when the database grows again. -/
structure Stands (P : Primitives) (pageSize : UInt32) (b : Backing) (c : PageChecksums)
    (image : PageImage) : Prop where
  complete : image.Complete pageSize
  count : c.count = image.count
  checksum : c.checksum = image.checksum P
  entry : ∀ page, 0 < page → page ≤ image.count →
    (c.changes page).getD (c.stored b page) = image.sum P page
  outside : ∀ page, image.count < page → c.changes page = none
  lockUnchanged : c.changes (lockPgno pageSize) = none
  lockZero : ∀ page, 0 < page → page = lockPgno pageSize → (c.entriesIn b).getD (page - 1) 0 = 0
  held : c.baseCount ≤ (c.entriesIn b).length

variable {P : Primitives} {pageSize : UInt32} {b : Backing} {c : PageChecksums} {image : PageImage}

/-- The entry of a page that the base holds. -/
theorem sealedIn_eq {page : Nat} (hheld : c.baseCount ≤ (c.entriesIn b).length) (h₀ : 0 < page)
    (hle : page ≤ c.baseCount) : c.sealedIn b page = .ok (c.stored b page) := by
  rw [stored, if_pos hle]
  cases b with
  | memory =>
    change c.baseCount ≤ c.base.length at hheld
    show (c.base[page - 1]?).elim (Except.error LtxError.ltxCorrupted) Except.ok
      = .ok (c.base.getD (page - 1) 0)
    rw [getElem?_eq_getElem (show page - 1 < c.base.length by omega), elim_some,
      getD_eq_getElem _ _ (show page - 1 < c.base.length by omega)]
  | file entries => exact readerValue_eq h₀ hle hheld

/-- The checksum of a page, once the changes over the base are known to give one. -/
theorem valueIn_eq (hheld : c.baseCount ≤ (c.entriesIn b).length)
    (h₀ : 0 < page) (hle : page ≤ c.count) (hv : (c.changes page).getD (c.stored b page) = v)
    (hchecked : checked v = .ok v) : c.valueIn b page = .ok v := by
  have hcheck : (page == 0 || decide (page > c.count)) = false := by
    rw [Bool.or_eq_false_iff, beq_eq_false_iff_ne, decide_eq_false_iff_not]
    omega
  unfold valueIn
  rw [hcheck, reject_false, ok_bind]
  cases hchange : c.changes page with
  | some checksum =>
    rw [hchange, getD_some] at hv
    rw [hv]
    rfl
  | none =>
    rw [hchange, getD_none] at hv
    dsimp only
    split
    · next hgt =>
      rw [stored, if_neg (by omega)] at hv
      rw [hv]
      rfl
    · next hge => rw [sealedIn_eq hheld h₀ (by omega), ok_bind, hv, hchecked]

theorem valueIn_memory (page : Nat) : c.valueIn .memory page = c.value page := by
  unfold valueIn value sealedIn
  congr 1
  funext _
  cases c.changes page with
  | some checksum => rfl
  | none =>
    dsimp only
    split
    · rfl
    · cases c.base[page - 1]? with
      | none => rfl
      | some checksum => rfl

/-- An index answers with the checksums of its image. -/
theorem Stands.valueIn (h : c.Stands P pageSize b image) (h₀ : 0 < page)
    (hle : page ≤ image.count) : c.valueIn b page = .ok (image.sum P page) :=
  valueIn_eq h.held h₀ (h.count ▸ hle) (h.entry page h₀ hle) (PageImage.checked_sum page)

theorem Stands.stored_lock (h : c.Stands P pageSize b image) (h₀ : 0 < page)
    (hlock : page = lockPgno pageSize) : c.stored b page = 0 := by
  unfold stored
  split
  · exact h.lockZero page h₀ hlock
  · rfl

/-! ## Cutting pages off -/

variable {f : Nat → UInt64} {entries : List UInt64}

/-- The loop over a row of entries. -/
theorem foldlM_removeStored (h₀ : 0 < page) {l : List UInt64} (hmax : page + l.length ≤ u32Max)
    (h : ∀ i < l.length, (c.changes (page + i)).getD (l.getD i 0) = f (page + i))
    (hchecked : ∀ n, checked (f n) = .ok (f n)) (sum : UInt64) :
    l.foldlM c.removeStored (page, Checksum.flag ||| sum)
      = .ok (page + l.length, Checksum.flag |||
        (sum ^^^ xorTo f (page - 1) ^^^ xorTo f (page - 1 + l.length))) := by
  induction l using List.reverseRecOn with
  | nil =>
    have hcancel := xor_cancel sum (xorTo f (page - 1))
    exact congrArg (fun s => Except.ok (page, Checksum.flag ||| s)) hcancel.symm
  | append_singleton l stored ih =>
    rw [length_append, length_singleton] at hmax h
    have hl := ih (by omega) fun i hi => by
      have := h i (by omega)
      rwa [getD_eq_getElem?_getD, getElem?_append_left hi, ← getD_eq_getElem?_getD] at this
    have hlast : (c.changes (page + l.length)).getD stored = f (page + l.length) := by
      have := h l.length (by omega)
      rwa [getD_eq_getElem?_getD, getElem?_concat_length, getD_some] at this
    have hsucc : succ32 (page + l.length) = .ok (page + l.length + 1) := if_pos (by omega)
    rw [foldlM_append, hl, ok_bind, foldlM_cons, removeStored, hlast, hchecked, ok_bind, hsucc]
    simp only [pure, Except.pure, ok_bind, foldlM_nil, flag_xor, length_append, length_singleton]
    rw [← Nat.add_assoc, ← Nat.add_assoc, xorTo, show page - 1 + l.length + 1 = page + l.length by
      omega, UInt64.xor_assoc]

/-- The loop over the chunks of the file. -/
theorem removeChunks_eq (hend : fileEnd ≤ entries.length) (hmax : fileEnd < u32Max)
    (hchecked : ∀ n, checked (f n) = .ok (f n)) {page : Nat} (h₀ : 0 < page)
    (hle : page ≤ fileEnd + 1)
    (h : ∀ n, page ≤ n → n ≤ fileEnd → (c.changes n).getD (entries.getD (n - 1) 0) = f n)
    (sum : UInt64) :
    c.removeChunks entries fileEnd page (Checksum.flag ||| sum)
      = .ok (Checksum.flag ||| (sum ^^^ xorTo f (page - 1) ^^^ xorTo f fileEnd)) := by
  induction hleft : fileEnd + 1 - page using Nat.strong_induction_on generalizing page sum with
  | _ left ih =>
    unfold removeChunks
    by_cases hpage : page ≤ fileEnd
    · have hread : readExactAt entries (page - 1) (min (fileEnd - page + 1) checksumRead)
          = .ok ((entries.drop (page - 1)).take (min (fileEnd - page + 1) checksumRead)) :=
        if_pos (by omega)
      have hpos : 0 < min (fileEnd - page + 1) checksumRead := by
        unfold checksumRead
        omega
      rw [if_pos hpage]
      dsimp only
      rw [hread, ok_bind]
      generalize hk : min (fileEnd - page + 1) checksumRead = k at hpos
      have hlen : ((entries.drop (page - 1)).take k).length = k := by
        rw [length_take, length_drop]
        omega
      rw [foldlM_removeStored (f := f) h₀ (by rw [hlen]; omega) (fun i hi => ?_) hchecked,
        ok_bind, hlen]
      · dsimp only
        rw [ih (fileEnd + 1 - (page + k)) (by omega) (by omega) (by omega)
          (fun n hn => h n (by omega)) _ rfl, show page + k - 1 = page - 1 + k by omega, xor_cancel]
      · rw [hlen] at hi
        rw [getD_eq_getElem?_getD, getElem?_take_of_lt hi, getElem?_drop,
          ← getD_eq_getElem?_getD, show page - 1 + i = page + i - 1 by omega]
        exact h (page + i) (by omega) (by omega)
    · rw [if_neg hpage, show fileEnd = page - 1 by omega, xor_cancel]

/-- The pages that are cut off are taken out of the checksum, those in the file and those beyond. -/
theorem removeFileSuffix_eq {commit count : Nat} (hlt : commit < count)
    (hheld : c.baseCount ≤ entries.length) (hmax : count < u32Max)
    (hchecked : ∀ n, checked (f n) = .ok (f n))
    (h : ∀ n, 0 < n → n ≤ count → (c.changes n).getD (c.stored (.file entries) n) = f n)
    (hsum : c.checksum = Checksum.flag ||| xorTo f count) :
    c.removeFileSuffix entries commit count = .ok (Checksum.flag ||| xorTo f commit) := by
  -- from the larger of `commit` and the end of the file on, no entry is read
  have hrest : ∀ (start : Nat) (sum : UInt64), commit ≤ start → min count c.baseCount ≤ start →
      start ≤ count →
      (List.replicate (count + 1 - (start + 1)) (0 : UInt64)).foldlM c.removeStored
        (start + 1, Checksum.flag ||| sum)
      = .ok (count + 1, Checksum.flag ||| (sum ^^^ xorTo f start ^^^ xorTo f count)) := by
    intro start sum hcommit hfile hcount
    rw [foldlM_removeStored (f := f) (by omega) (by rw [length_replicate]; omega)
      (fun i hi => ?_) hchecked, length_replicate,
      show start + 1 + (count + 1 - (start + 1)) = count + 1 by omega, Nat.add_sub_cancel,
      show start + (count + 1 - (start + 1)) = count by omega]
    rw [length_replicate] at hi
    rw [getD_eq_getElem?_getD, getElem?_replicate, if_pos hi, getD_some]
    have hn := h (start + 1 + i) (by omega) (by omega)
    rwa [stored, if_neg (by omega)] at hn
  have hfile : ∀ n, commit + 1 ≤ n → n ≤ min count c.baseCount →
      (c.changes n).getD (entries.getD (n - 1) 0) = f n := by
    intro n hn hle
    have hn' := h n (by omega) (by omega)
    rwa [stored, if_pos (by omega)] at hn'
  unfold removeFileSuffix
  dsimp only
  rw [hsum]
  rcases Nat.lt_or_ge (min count c.baseCount) (commit + 1) with hfar | hnear
  · have hnone : c.removeChunks entries (min count c.baseCount) (commit + 1)
        (Checksum.flag ||| xorTo f count) = .ok (Checksum.flag ||| xorTo f count) := by
      unfold removeChunks
      exact if_neg (by omega)
    rw [hnone, ok_bind, show max (commit + 1) (min count c.baseCount + 1) = commit + 1 by
      omega, hrest commit _ le_rfl (by omega) hlt.le, ok_bind,
      UInt64.xor_comm (xorTo f count), xor_cancel]
    rfl
  · rw [removeChunks_eq (by omega) (by omega) hchecked (by omega) (by omega) hfile, ok_bind,
      show max (commit + 1) (min count c.baseCount + 1) = min count c.baseCount + 1 by omega,
      hrest _ _ (by omega) le_rfl (by omega), ok_bind, Nat.add_sub_cancel, xor_cancel,
      UInt64.xor_comm (xorTo f count), xor_cancel]
    rfl

/-- Cutting off the pages beyond a size, over either base. A file of `2 ^ 32 - 1` checksums cannot
be cut, as its loop counts one page too far. -/
theorem Stands.truncateIn (h : c.Stands P pageSize b image) {commit : Nat}
    (hmax : (∃ entries, b = .file entries) → commit < c.count → c.count < u32Max) :
    c.truncateIn b commit = .ok { c with
      checksum := Checksum.flag ||| xorTo (fun n => (upTo commit (image.sums P) n).getD 0) commit
      changes := upTo commit c.changes } := by
  have hupTo : xorTo (fun n => (upTo commit (image.sums P) n).getD 0) commit
      = xorTo (image.sum P) commit :=
    xorTo_congr fun k _ hk => by rw [upTo, if_pos hk]; rfl
  rw [hupTo]
  by_cases hlt : commit < c.count
  · have hrange : commit + (c.count - commit) = image.count := by
      have := h.count
      omega
    cases b with
    | memory =>
      have hfold := foldlM_remove (c := c) (f := image.sum P) commit (k := c.count - commit)
        (fun page hgt hle => by
          rw [← valueIn_memory]
          exact h.valueIn (by omega) (by omega)) (xorTo (image.sum P) image.count)
      rw [hrange, UInt64.xor_comm (xorTo (image.sum P) image.count), xor_cancel] at hfold
      show c.truncate commit = _
      unfold truncate
      rw [if_pos hlt, h.checksum, PageImage.checksum, hfold, ok_bind]
      rfl
    | file entries =>
      show (if commit < c.count then _ else _) = _
      have hcount := h.count
      have hheld : c.baseCount ≤ entries.length := h.held
      rw [if_pos hlt, removeFileSuffix_eq hlt hheld (hmax ⟨entries, rfl⟩ hlt)
        (fun n => PageImage.checked_sum n) (fun n h₀ hn => h.entry n h₀ (by omega))
        (by rw [h.checksum, h.count]; rfl), ok_bind]
      rfl
  · -- nothing is cut off
    have hcount := h.count
    have hsame : upTo commit c.changes = c.changes := by
      funext page
      unfold upTo
      split
      · rfl
      · rw [h.outside page (by omega)]
    have hsum : xorTo (image.sum P) commit = xorTo (image.sum P) image.count := by
      refine xorTo_of_zero (by omega) fun k hk => ?_
      rw [PageImage.sum, h.complete.sums_outside hk]
      rfl
    rw [hsame, hsum, ← PageImage.checksum, ← h.checksum]
    cases b with
    | memory => exact if_neg hlt
    | file entries => exact if_neg hlt

/-! ## Applying a segment -/

/-- The index of an image without a base. -/
def ofImage (P : Primitives) (image : PageImage) : PageChecksums :=
  summed image.count image.count (image.sums P)

/-- A walk over an index with a base goes along with that over the index of its image without one:
they have written the same pages over the checksums below the cut. -/
structure Shadows (P : Primitives) (c : PageChecksums) (image : PageImage) (commit : Nat)
    (done : List (UInt32 × Bytes)) (a m : PageChecksumApply) : Prop where
  same : m = { a with target := m.target }
  size : a.commit = commit
  previousCount : a.previousCount = image.count
  target : a.target = { c with
    changes := overlay P (writes done) (upTo commit c.changes), checksum := m.target.checksum }
  shadow : m.target = { summed image.count commit
    (overlay P (writes done) (upTo commit (image.sums P)))
    with checksum := m.target.checksum }

variable {commit : Nat} {done : List (UInt32 × Bytes)} {a m : PageChecksumApply}

/-- A page has the same old checksum in both walks. -/
theorem Shadows.old_eq (hs : Shadows P c image commit done a m) (h : c.Stands P pageSize b image)
    (h₀ : 0 < pgno) (hle : pgno ≤ commit) : a.oldIn b pgno = m.old pgno := by
  unfold PageChecksumApply.oldIn PageChecksumApply.old
  rw [hs.same]
  dsimp only
  split
  · next hprevious =>
    rw [hs.previousCount] at hprevious
    have hvalue : m.target.value pgno
        = .ok ((overlay P (writes done) (upTo commit (image.sums P)) pgno).getD 0) := by
      rw [hs.shadow]
      exact (value_summed h₀ hprevious : (summed image.count commit _).value pgno = _)
    rw [hvalue, hs.target]
    refine valueIn_eq h.held h₀ (by rw [h.count]; exact hprevious) ?_ ?_
    · show (overlay P (writes done) (upTo commit c.changes) pgno).getD (c.stored b pgno) = _
      unfold overlay
      cases writes done pgno with
      | some data => rfl
      | none =>
        simp only [map_none, none_or, upTo, if_pos hle]
        exact h.entry pgno h₀ hprevious
    · unfold overlay
      cases writes done pgno with
      | some data =>
        exact (PageImage.checked_sum pgno :
          checked (PageImage.sum P ⟨0, fun _ => some data⟩ pgno) = _)
      | none =>
        simp only [map_none, none_or, upTo, if_pos hle]
        exact PageImage.checked_sum pgno
  · rfl

/-- One page. -/
theorem Shadows.page (hs : Shadows P c image commit done a m) (h : c.Stands P pageSize b image)
    (page : UInt32 × Bytes) :
    Agree (Shadows P c image commit (done ++ [page])) (a.pageIn b P page.1 page.2)
      (m.page P page.1 page.2) := by
  have hold : 0 < page.1.toNat → page.1.toNat ≤ commit → a.oldIn b page.1.toNat
    = m.old page.1.toNat :=
    fun h₀ hle => hs.old_eq h h₀ hle
  unfold PageChecksumApply.pageIn PageChecksumApply.page
  rw [hs.same] at hold ⊢
  refine Agree.bind_same fun _ hguard => Agree.bind_same fun next _ =>
    Agree.bind_same fun next' _ => ?_
  rw [reject_eq_ok] at hguard
  simp only [Bool.or_eq_false_iff, decide_eq_false_iff_not, Nat.not_le, gt_iff_lt] at hguard
  rw [hold (by omega) (by rw [← hs.size]; omega)]
  refine Agree.bind_same fun old _ => .ok ⟨rfl, hs.size, hs.previousCount, ?_, ?_⟩
  · dsimp only
    rw [writes_append, overlay_update, hs.target]
  · dsimp only
    rw [writes_append, overlay_update, hs.shadow]
    rfl

/-- What an index with a base becomes when the walk over it ends well. -/
def applied (P : Primitives) (c : PageChecksums) (commit : Nat) (pages : List (UInt32 × Bytes))
    (checksum : UInt64) : PageChecksums :=
  { c with count := commit, changes := overlay P (writes pages) (upTo commit c.changes), checksum }

section
variable (h : c.Stands P pageSize b image)
include h

/-- Applying a segment to an index with a base fails or succeeds just as it does without one. -/
theorem Stands.applyIterIn (pages : List (UInt32 × Bytes))
    (limit : Nat) (hmax : (∃ entries, b = .file entries) → commit < c.count → c.count < u32Max) :
    Agree (fun c' m => c' = c.applied P commit pages m.checksum)
      (c.applyIterIn P b pageSize commit pages limit)
      ((ofImage P image).applyIter P pageSize commit pages limit) := by
  unfold PageChecksums.applyIterIn PageChecksums.applyIter
  have hbegin : Agree (Shadows P c image commit []) (c.beginApplyIn b pageSize commit limit)
      ((ofImage P image).beginApply pageSize commit limit) := by
    unfold beginApplyIn beginApply ofImage
    refine Agree.bind_same fun _ _ => Agree.bind_same fun _ _ => ?_
    rw [h.truncateIn hmax, truncate_summed fun _ => h.complete.sums_outside, ok_bind, ok_bind]
    exact .ok ⟨by rw [h.count]; rfl, rfl, h.count, rfl, rfl⟩
  refine Agree.bind hbegin fun a m hs => ?_
  refine Agree.bind (Agree.foldlM (T := Shadows P c image commit)
    (fun done page a m hs => hs.page h page) hs) fun a m hs => ?_
  rw [nil_append] at hs
  unfold PageChecksumApply.finish
  rw [hs.same]
  refine Agree.bind_same fun next _ => Agree.bind_same fun _ _ => .ok ?_
  dsimp only
  rw [hs.target, hs.size]
  rfl

/-- A segment that fits leaves an index that stands for the new image. -/
theorem Stands.applied (hfits : Fits image.count pageSize commit pages) :
    (c.applied P commit pages ((image.apply commit pages).checksum P)).Stands P pageSize b
      (image.apply commit pages) := by
  have hnone : ∀ page, (∀ p ∈ pages, p.1.toNat ≠ page) → writes pages page = none := by
    intro page hpage
    by_contra hne
    obtain ⟨p, hp, hpgno⟩ := (writes_ne_none hfits.ascending).1 hne
    exact hpage p hp hpgno
  refine ⟨h.complete.apply hfits, rfl, rfl, fun page h₀ hle => ?_, fun page hgt => ?_,
    ?_, h.lockZero, h.held⟩
  · change page ≤ commit at hle
    rw [PageImage.sum, PageImage.sums_apply]
    show (overlay P (writes pages) (upTo commit c.changes) page).getD (c.stored b page) = _
    unfold overlay
    cases hwrites : writes pages page with
    | some data => rfl
    | none =>
      simp only [map_none, none_or, upTo, if_pos hle]
      rcases Nat.lt_or_ge image.count page with hgt | hge
      · -- of the pages that were added, only the lock page is not written
        have hlock : page = lockPgno pageSize := by
          by_contra hne
          exact (writes_ne_none hfits.ascending).2 (hfits.fills page hgt hle hne) hwrites
        rw [h.outside page hgt, getD_none, h.stored_lock h₀ hlock, h.complete.sums_outside hgt]
        rfl
      · exact h.entry page h₀ hge
  · change commit < page at hgt
    show overlay P (writes pages) (upTo commit c.changes) page = none
    unfold overlay
    rw [hnone page fun p hp => by have := (hfits.each p hp).2.1; omega, upTo, if_neg (by omega)]
    rfl
  · show overlay P (writes pages) (upTo commit c.changes) (lockPgno pageSize) = none
    unfold overlay
    rw [hnone _ fun p hp => (hfits.each p hp).2.2.1, upTo, h.lockUnchanged, ite_self]
    rfl

/-- Applying a segment: the index goes on standing for the image, or fails as the index without a
base does. -/
theorem Stands.apply (pages : List (UInt32 × Bytes))
    (limit : Nat) (hmax : (∃ entries, b = .file entries) → commit < c.count → c.count < u32Max) :
    Agree (fun c' _ => c'.Stands P pageSize b (image.apply commit pages))
      (c.applyIterIn P b pageSize commit pages limit)
      ((ofImage P image).applyIter P pageSize commit pages limit) := by
  have hagree := h.applyIterIn pages limit hmax
  generalize c.applyIterIn P b pageSize commit pages limit = x at hagree
  cases hm : (ofImage P image).applyIter P pageSize commit pages limit with
  | error e =>
    rw [hm] at hagree
    cases hagree
    exact .error e
  | ok m =>
    obtain ⟨⟨-, -, -, hfits⟩, rfl⟩ := (applyIter_eq_ok fun _ => h.complete.sums_outside).1 hm
    rw [hm] at hagree
    cases hagree with
    | ok hc =>
      refine .ok ?_
      rw [hc, show (summed commit commit _).checksum = (image.apply commit pages).checksum P by
        rw [PageImage.checksum, ← PageImage.sums_apply]; rfl]
      exact h.applied hfits

/-! ## Committing -/

/-- A commit leaves the committed index standing for its image. -/
theorem Stands.committed : (c.commitIn b).2.Stands P pageSize (c.commitIn b).1 image := by
  have hcount := h.count
  have hlength : ((c.commitIn b).2.entriesIn (c.commitIn b).1).length = c.count := by
    cases b with
    | memory => exact length_mergeMemory
    | file entries => exact length_mergeFile entries
  -- the changes are laid over the sealed part, and over what a file holds behind it
  obtain ⟨rest, hmerged, hsealed, hlock⟩ : ∃ rest : Nat → UInt64,
      (∀ page, 0 < page → page ≤ c.count →
        ((c.commitIn b).2.entriesIn (c.commitIn b).1).getD (page - 1) 0
          = (c.changes page).getD (rest page)) ∧
      (∀ page ≤ c.baseCount, rest page = c.stored b page) ∧
      ∀ page, 0 < page → page = lockPgno pageSize → rest page = 0 := by
    cases b with
    | memory =>
      refine ⟨c.stored .memory, fun page h₀ hle => ?_, fun _ _ => rfl, fun _ => h.stored_lock⟩
      refine (getD_mergeMemory (by omega)).trans ?_
      rw [Nat.sub_add_cancel h₀, stored]
      by_cases hin : page ≤ c.baseCount
      · rw [if_pos hin, if_pos (by omega)]
        rfl
      · rw [if_neg hin, if_neg (by omega)]
    | file entries =>
      refine ⟨fun page => entries.getD (page - 1) 0, fun page h₀ hle => ?_,
        fun page hle => (if_pos hle).symm, h.lockZero⟩
      refine (getD_mergeFile entries (by omega)).trans ?_
      rw [Nat.sub_add_cancel h₀]
  obtain ⟨base, hc⟩ : ∃ base,
      (c.commitIn b).2 = { c with base, changes := fun _ => none, baseCount := c.count } := by
    cases b <;> exact ⟨_, rfl⟩
  rw [hc] at hmerged hlength ⊢
  refine ⟨h.complete, h.count, h.checksum, fun page h₀ hle => ?_, fun _ _ => rfl, rfl,
    fun page h₀ hpage => ?_, hlength.ge⟩
  · show (if page ≤ c.count then _ else 0) = _
    rw [if_pos (by omega), hmerged page h₀ (by omega), ← h.entry page h₀ hle]
    cases hchange : c.changes page with
    | some checksum => rfl
    | none =>
      rw [getD_none, getD_none]
      by_cases hin : page ≤ c.baseCount
      · exact hsealed page hin
      · -- a page that was added and not written is the lock page
        have hentry := h.entry page h₀ hle
        have hstored : c.stored b page = 0 := if_neg hin
        rw [hchange, getD_none, hstored] at hentry
        rw [hstored]
        refine hlock page h₀ ?_
        by_contra hne
        exact (h.complete page).2 ⟨h₀, hle, hne⟩ (PageImage.eq_none_of_sum hentry.symm)
  · rcases Nat.lt_or_ge c.count page with hgt | hge
    · exact getD_eq_default _ _ (by omega)
    · rw [hmerged page h₀ hge, hpage, h.lockUnchanged, getD_none, ← hpage, hlock page h₀ hpage]

end

/-- A commit of a candidate spares another index over the same file: the candidate is not smaller
than its sealed part, and changes no entry that it reads. -/
structure Spares (entries : List UInt64) (candidate c : PageChecksums) : Prop where
  long : c.baseCount ≤ candidate.count
  kept : ∀ page, 0 < page → page ≤ c.count → page ≤ c.baseCount → c.changes page = none →
    ∀ checksum, candidate.changes page = some checksum → entries.getD (page - 1) 0 = checksum

/-- An index that is spared goes on standing for its own image. -/
theorem Stands.spared {committed : PageImage} (h : c.Stands P pageSize (.file entries) image)
    (hcandidate : candidate.Stands P pageSize (.file entries) committed)
    (hspares : Spares entries candidate c) :
    c.Stands P pageSize (.file (candidate.mergeFile entries)) image := by
  have hlong := hspares.long
  refine ⟨h.complete, h.count, h.checksum, fun page h₀ hle => ?_, h.outside, h.lockUnchanged,
    hcandidate.committed.lockZero, ?_⟩
  · rw [← h.entry page h₀ hle]
    cases hchange : c.changes page with
    | some checksum => rfl
    | none =>
      rw [getD_none, getD_none]
      unfold stored
      split
      · next hin =>
        show (candidate.mergeFile entries).getD (page - 1) 0 = entries.getD (page - 1) 0
        rw [getD_mergeFile _ (by omega), Nat.sub_add_cancel h₀]
        cases hother : candidate.changes page with
        | none => rfl
        | some checksum =>
          have hcount := h.count
          exact (hspares.kept page h₀ (by omega) hin hchange checksum hother).symm
      · rfl
  · show c.baseCount ≤ (candidate.mergeFile entries).length
    rwa [length_mergeFile]

end PageChecksums

end Cellule
