import Cellule.Ltx.Codec

/-!
# Page checksums

The index of `cellule-ltx/src/pages.rs` that keeps the checksum of every page of a database, and
with it that of the database, while segments are applied. Applying walks over the pages of a segment
in ascending order: pages beyond the old size must follow each other without a gap.

An index without a base whose checksum is the flagged exclusive or of the page checksums (`summed`)
keeps that form: `applyIter_eq_ok` says which segments it takes (`Fits`) and what it then is.
-/

namespace Cellule

open Except List Option Function

/-- `u32::checked_add(1)`, with the error its callers return. -/
def succ32 (n : Nat) : LtxResult Nat :=
  if n + 1 ≤ u32Max then .ok (n + 1) else .error .ltxCorrupted

/-- `PageChecksums` (`pages.rs:48`) with the base in memory: a sealed base, the changes since, and
the checksum of the whole database. -/
structure PageChecksums where
  base : List UInt64 := []
  baseCount : Nat := 0
  count : Nat := 0
  changes : Nat → Option UInt64 := fun _ => none
  checksum : UInt64 := Checksum.flag

/-- A walk over the pages of one segment (`PageChecksumApply`, `pages.rs:56`). -/
structure PageChecksumApply where
  target : PageChecksums
  pageSize : UInt32
  commit : Nat
  previousCount : Nat
  previous : Nat
  nextRequired : Nat

namespace PageChecksums

/-- A checksum of the base, which is none or has the flag. -/
def checked (checksum : UInt64) : LtxResult UInt64 := do
  reject (checksum != 0 && checksum &&& Checksum.flag == 0) .ltxCorrupted
  pure checksum

/-- `PageChecksums::value` (`pages.rs:437`). -/
def value (c : PageChecksums) (page : Nat) : LtxResult UInt64 := do
  reject (page == 0 || decide (page > c.count)) .ltxCorrupted
  match c.changes page with
  | some checksum => pure checksum
  | none =>
    if page > c.baseCount then pure 0
    else (c.base[page - 1]?).elim (.error .ltxCorrupted) checked

/-- Takes the checksum of a page out of the checksum of the database. -/
def remove (c : PageChecksums) (sum : UInt64) (page : Nat) : LtxResult UInt64 := do
  let old ← c.value page
  pure (Checksum.flag ||| (sum ^^^ old))

/-- The part of `begin_apply` that cuts off the pages beyond the new size. -/
def truncate (c : PageChecksums) (commit : Nat) : LtxResult PageChecksums :=
  if commit < c.count then do
    let checksum ← (List.range' (commit + 1) (c.count - commit)).foldlM c.remove c.checksum
    pure { c with checksum, changes := fun page => if page ≤ commit then c.changes page else none }
  else pure c

/-- `PageChecksums::begin_apply` (`pages.rs:158`). -/
def beginApply (c : PageChecksums) (pageSize : UInt32) (commit limit : Nat) :
    LtxResult PageChecksumApply := do
  reject (!isValidPageSize pageSize || commit == 0) .ltxCorrupted
  reject (decide (pageSize.toNat * commit > limit)) (.limit .databaseBytes)
  let target ← c.truncate commit
  pure ⟨target, pageSize, commit, c.count, 0, min (c.count + 1) u32Max⟩

end PageChecksums

namespace PageChecksumApply

/-- The next page that must be there, past the lock page. -/
def skipLock (a : PageChecksumApply) : LtxResult Nat :=
  if a.nextRequired = lockPgno a.pageSize then succ32 a.nextRequired else .ok a.nextRequired

/-- The next page that must be there after `pgno`. -/
def advance (a : PageChecksumApply) (pgno next : Nat) : LtxResult Nat :=
  if pgno > a.previousCount then do
    reject (pgno != next) .ltxCorrupted
    succ32 next
  else .ok next

/-- The checksum that a page had before. -/
def old (a : PageChecksumApply) (pgno : Nat) : LtxResult UInt64 :=
  if pgno ≤ a.previousCount then a.target.value pgno else .ok 0

/-- `PageChecksumApply::page` (`pages.rs:468`). -/
def page (P : Primitives) (a : PageChecksumApply) (pgno : UInt32) (data : Bytes) :
    LtxResult PageChecksumApply := do
  reject (decide (pgno.toNat ≤ a.previous) || decide (pgno.toNat > a.commit)
    || pgno.toNat == lockPgno a.pageSize || data.length != a.pageSize.toNat) .ltxCorrupted
  let next ← a.skipLock
  let next ← a.advance pgno.toNat next
  let old ← a.old pgno.toNat
  let checksum := P.checksumPage pgno data
  pure { a with
    target := { a.target with
      checksum := Checksum.flag ||| (a.target.checksum ^^^ old ^^^ checksum)
      changes := update a.target.changes pgno.toNat (some checksum) }
    previous := pgno.toNat
    nextRequired := next }

/-- `PageChecksumApply::finish` (`pages.rs:504`). -/
def finish (a : PageChecksumApply) : LtxResult PageChecksums := do
  let next ← a.skipLock
  reject (decide (a.commit > a.previousCount) && decide (next ≤ a.commit)) .ltxCorrupted
  pure { a.target with count := a.commit }

end PageChecksumApply

/-- `PageChecksums::apply_iter` (`pages.rs:143`). -/
def PageChecksums.applyIter (P : Primitives) (c : PageChecksums) (pageSize : UInt32) (commit : Nat)
    (pages : List (UInt32 × Bytes)) (limit : Nat) : LtxResult PageChecksums := do
  let a ← c.beginApply pageSize commit limit
  let a ← pages.foldlM (fun a page => a.page P page.1 page.2) a
  a.finish

/-! ## The checksum of the database -/

/-- The exclusive or of `f 1` to `f n`. -/
def xorTo (f : Nat → UInt64) : Nat → UInt64
  | 0 => 0
  | n + 1 => xorTo f n ^^^ f (n + 1)

variable {n : Nat} {pageSize : UInt32} {pages : List (UInt32 × Bytes)}

theorem xorTo_congr (h : ∀ k, 0 < k → k ≤ n → f k = g k) : xorTo f n = xorTo g n := by
  induction n with
  | zero => rfl
  | succ n ih => rw [xorTo, xorTo, ih fun k h₀ hk => h k h₀ (by omega), h (n + 1) (by omega) le_rfl]

theorem getD_update (changes : Nat → Option UInt64) (k : Nat) (v : UInt64) :
    (fun n => (update changes k (some v) n).getD 0)
      = update (fun n => (changes n).getD 0) k v :=
  funext fun n => apply_update (fun _ => (Option.getD · 0)) changes k (some v) n

theorem xor_cancel (a b : UInt64) : a ^^^ b ^^^ b = a := by
  rw [UInt64.xor_assoc, UInt64.xor_self, UInt64.xor_zero]

/-- Changing one of the numbers. -/
theorem xorTo_update (f : Nat → UInt64) (h₀ : 0 < k) (hk : k ≤ n) (v : UInt64) :
    xorTo (update f k v) n = xorTo f n ^^^ f k ^^^ v := by
  induction n with
  | zero => omega
  | succ n ih =>
    rcases Nat.lt_or_ge n k with h | h
    · obtain rfl : k = n + 1 := by omega
      rw [xorTo, xorTo, update_self, xorTo_congr (g := f) fun j _ hj =>
        update_of_ne (by omega) _ _, xor_cancel]
    · rw [xorTo, xorTo, ih h, update_of_ne (by omega)]
      ac_rfl

/-- Adding numbers that are zero. -/
theorem xorTo_of_zero (hle : m ≤ n) (h : ∀ k, m < k → f k = 0) : xorTo f n = xorTo f m := by
  induction n, hle using Nat.le_induction with
  | base => rfl
  | succ n hle ih => rw [xorTo, ih, h (n + 1) (by omega), UInt64.xor_zero]

namespace PageChecksums

/-- An index without a base, with the checksum of the pages up to a size. -/
def summed (count size : Nat) (changes : Nat → Option UInt64) : PageChecksums :=
  { count, changes, checksum := Checksum.flag ||| xorTo (fun n => (changes n).getD 0) size }

/-- The checksums of the pages up to a size. -/
def upTo (size : Nat) (changes : Nat → Option UInt64) : Nat → Option UInt64 :=
  fun page => if page ≤ size then changes page else none

variable {count : Nat} {changes : Nat → Option UInt64}

theorem value_summed (h₀ : 0 < page) (hle : page ≤ count) :
    (summed count size changes).value page = .ok ((changes page).getD 0) := by
  have hcheck : (page == 0 || decide (page > count)) = false := by
    rw [Bool.or_eq_false_iff, beq_eq_false_iff_ne, decide_eq_false_iff_not]
    omega
  unfold value
  change (reject (page == 0 || decide (page > count)) LtxError.ltxCorrupted >>= _) = _
  rw [hcheck, reject_false, ok_bind]
  dsimp only [summed]
  cases changes page with
  | some checksum => rfl
  | none => exact if_pos h₀

/-- Taking out the checksums of a row of pages. -/
theorem foldlM_remove {c : PageChecksums} (commit : Nat)
    (h : ∀ page, commit < page → page ≤ commit + k → c.value page = .ok (f page)) (sum : UInt64) :
    (List.range' (commit + 1) k).foldlM c.remove (Checksum.flag ||| sum)
      = .ok (Checksum.flag ||| (sum ^^^ xorTo f commit ^^^ xorTo f (commit + k))) := by
  induction k with
  | zero =>
    have hcancel := xor_cancel sum (xorTo f commit)
    exact congrArg (fun s => Except.ok (Checksum.flag ||| s)) hcancel.symm
  | succ k ih =>
    rw [range'_concat, foldlM_append, ih fun page hlt hle => h page hlt (by omega),
      ok_bind, foldlM_cons, remove, h _ (by omega) (by omega), ok_bind]
    simp only [pure, Except.pure, ok_bind, foldlM_nil, flag_xor, Nat.one_mul,
      Nat.add_right_comm commit 1 k]
    rw [← Nat.add_assoc, xorTo, UInt64.xor_assoc]

/-- Cutting off the pages takes their checksums out of the checksum of the database. -/
theorem truncate_summed (h : ∀ n, count < n → changes n = none) (commit : Nat) :
    (summed count count changes).truncate commit
      = .ok (summed count commit (upTo commit changes)) := by
  have hupTo : xorTo (fun n => (upTo commit changes n).getD 0) commit
      = xorTo (fun n => (changes n).getD 0) commit :=
    xorTo_congr fun k _ hk => by rw [upTo, if_pos hk]
  unfold truncate
  split
  · next hlt =>
    change commit < count at hlt
    show ((List.range' (commit + 1) (count - commit)).foldlM _ (Checksum.flag ||| _) >>= _) = _
    rw [foldlM_remove commit fun page hlt' hle => value_summed (by omega) (by omega),
      ok_bind, show commit + (count - commit) = count by omega,
      UInt64.xor_comm (xorTo _ count), xor_cancel, ← hupTo]
    rfl
  · next hge =>
    change ¬commit < count at hge
    have hsame : upTo commit changes = changes := by
      funext page
      unfold upTo
      split
      · rfl
      · next hpage => rw [h page (by omega)]
    have hsum : xorTo (fun n => (changes n).getD 0) commit
        = xorTo (fun n => (changes n).getD 0) count :=
      xorTo_of_zero (by omega) fun k hk => by rw [h k hk]; rfl
    rw [hsame, summed, summed, hsum]
    rfl

end PageChecksums

/-! ## The walk over the pages -/

/-- The least page after `n` that must be there. -/
def nextPage (pageSize : UInt32) (n : Nat) : Nat :=
  if n + 1 = lockPgno pageSize then n + 2 else min (n + 1) u32Max

theorem nextPage_ne_lock (h : isValidPageSize pageSize = true) (n : Nat) :
    nextPage pageSize n ≠ lockPgno pageSize := by
  have := lockPgno_lt h
  unfold nextPage u32Max
  split <;> omega

theorem nextPage_le (hlt : n < m) (hne : m ≠ lockPgno pageSize) (hm : m ≤ u32Max) :
    n < nextPage pageSize n ∧ nextPage pageSize n ≤ m := by
  unfold nextPage
  split <;> omega

namespace PageChecksumApply

open PageChecksums

/-- Where a walk stands: which checksums it has changed, and that it waits for the next page beyond
those that were there and those it has seen. -/
structure Walks (a : PageChecksumApply) (changes : Nat → Option UInt64) : Prop where
  validSize : isValidPageSize a.pageSize = true
  target : a.target = summed a.previousCount a.commit changes
  required : a.skipLock = .ok (nextPage a.pageSize (max a.previousCount a.previous))
  unseen : ∀ n, max a.previousCount a.previous < n → changes n = none

/-- The pages that a walk takes next. -/
structure Admits (a : PageChecksumApply) (pgno : Nat) (data : Bytes) : Prop where
  ascends : a.previous < pgno
  inside : pgno ≤ a.commit
  notLock : pgno ≠ lockPgno a.pageSize
  length : data.length = a.pageSize.toNat
  gapless : a.previousCount < pgno →
    pgno = nextPage a.pageSize (max a.previousCount a.previous) ∧ pgno < u32Max

/-- The walk past a page. -/
def paged (a : PageChecksumApply) (changes : Nat → Option UInt64) (pgno : Nat) (checksum : UInt64) :
    PageChecksumApply :=
  let next := nextPage a.pageSize (max a.previousCount a.previous)
  { a with
    target := summed a.previousCount a.commit (update changes pgno (some checksum))
    previous := pgno
    nextRequired := if a.previousCount < pgno then next + 1 else next }

variable {a a' : PageChecksumApply} {changes : Nat → Option UInt64}

/-- What a walk waits for, whether or not it has stepped over the lock page. -/
theorem skipLock_eq (h : isValidPageSize a.pageSize = true)
    (hn : a.nextRequired = min (n + 1) u32Max ∨ a.nextRequired = nextPage a.pageSize n) :
    a.skipLock = .ok (nextPage a.pageSize n) := by
  have hlt := lockPgno_lt h
  have hne := nextPage_ne_lock h n
  unfold skipLock
  rcases hn with hn | hn
  · rw [hn]
    unfold nextPage succ32 at *
    split
    · next hlock =>
      rw [hlock, if_pos (by rw [u32Max]; omega), if_pos (by rw [u32Max] at hlock; omega)]
      rw [u32Max] at hlock
      exact congrArg Except.ok (by omega)
    · next hlock =>
      rw [if_neg]
      intro heq
      exact hlock (by rw [u32Max]; omega)
  · rw [hn, if_neg hne]

variable {pgno : Nat}

theorem Walks.old_eq (h : a.Walks changes) (h₀ : 0 < pgno) (hlt : a.previous < pgno) :
    a.old pgno = .ok ((changes pgno).getD 0) := by
  unfold old
  split
  · next hle => rw [h.target, value_summed h₀ hle]
  · next hgt => rw [h.unseen pgno (by omega), getD_none]

/-- The next page that must be there, once `pgno` is. -/
theorem advance_eq_ok {next next' : Nat} :
    a.advance pgno next = .ok next' ↔ (a.previousCount < pgno → pgno = next ∧ pgno < u32Max) ∧
      next' = if a.previousCount < pgno then next + 1 else next := by
  unfold advance succ32
  by_cases hgt : a.previousCount < pgno
  · rw [if_pos hgt, if_pos hgt, reject_bind_eq_ok, bne_eq_false_iff_eq]
    constructor
    · rintro ⟨rfl, hok⟩
      split at hok
      · next hle =>
        cases hok
        exact ⟨fun _ => ⟨rfl, hle⟩, rfl⟩
      · cases hok
    · rintro ⟨hnext, rfl⟩
      obtain ⟨rfl, hlt⟩ := hnext hgt
      exact ⟨rfl, if_pos hlt⟩
  · rw [if_neg hgt, if_neg hgt, ok.injEq]
    exact ⟨fun h => ⟨fun h' => absurd h' hgt, h.symm⟩, fun h => h.2.symm⟩

/-- A walk takes exactly the pages that it admits. -/
theorem Walks.page_eq_ok (h : a.Walks changes) {pgno : UInt32} :
    a.page P pgno data = .ok a' ↔
      a.Admits pgno.toNat data ∧ a' = a.paged changes pgno.toNat (P.checksumPage pgno data) := by
  have hguard : (decide (pgno.toNat ≤ a.previous) || decide (pgno.toNat > a.commit)
      || pgno.toNat == lockPgno a.pageSize || data.length != a.pageSize.toNat) = false ↔
      a.previous < pgno.toNat ∧ pgno.toNat ≤ a.commit ∧ pgno.toNat ≠ lockPgno a.pageSize
        ∧ data.length = a.pageSize.toNat := by
    simp only [Bool.or_eq_false_iff, decide_eq_false_iff_not, beq_eq_false_iff_ne,
      bne_eq_false_iff_eq, Nat.not_le, Nat.not_lt, gt_iff_lt, and_assoc, ne_eq]
  unfold page
  rw [reject_bind_eq_ok, hguard, h.required, ok_bind, bind_eq_ok]
  -- past the guard, the checksum is the old one without the page's own and with the new one
  have hchecksum : ∀ checksum : UInt64, a.previous < pgno.toNat → pgno.toNat ≤ a.commit →
      Checksum.flag ||| (a.target.checksum ^^^ (changes pgno.toNat).getD 0 ^^^ checksum)
        = (summed a.previousCount a.commit
          (update changes pgno.toNat (some checksum))).checksum := by
    intro checksum hascends hinside
    rw [h.target]
    simp only [summed]
    rw [getD_update, xorTo_update _ (by omega) hinside, UInt64.xor_assoc, flag_xor,
      ← UInt64.xor_assoc]
  have hpaged : ∀ checksum : UInt64, a.previous < pgno.toNat → pgno.toNat ≤ a.commit →
      { a.target with
        checksum := Checksum.flag ||| (a.target.checksum ^^^ (changes pgno.toNat).getD 0
          ^^^ checksum)
        changes := update a.target.changes pgno.toNat (some checksum) }
      = summed a.previousCount a.commit (update changes pgno.toNat (some checksum)) := by
    intro checksum hascends hinside
    rw [hchecksum checksum hascends hinside, h.target]
    rfl
  constructor
  · rintro ⟨⟨hascends, hinside, hlock, hlength⟩, next, hnext, hok⟩
    rw [h.old_eq (by omega) hascends, ok_bind] at hok
    obtain ⟨hgapless, rfl⟩ := advance_eq_ok.1 hnext
    cases hok
    refine ⟨⟨hascends, hinside, hlock, hlength, hgapless⟩, ?_⟩
    dsimp only
    rw [hpaged _ hascends hinside]
    rfl
  · rintro ⟨hadmits, rfl⟩
    refine ⟨⟨hadmits.ascends, hadmits.inside, hadmits.notLock, hadmits.length⟩, _,
      advance_eq_ok.2 ⟨hadmits.gapless, rfl⟩, ?_⟩
    have := hadmits.ascends
    rw [h.old_eq (by omega) hadmits.ascends, ok_bind]
    dsimp only
    rw [hpaged _ hadmits.ascends hadmits.inside]
    rfl

/-- A walk goes on past the page it takes. -/
theorem Walks.paged (h : a.Walks changes) (hadmits : a.Admits pgno data) (checksum : UInt64) :
    (a.paged changes pgno checksum).Walks (update changes pgno (some checksum)) := by
  have hascends := hadmits.ascends
  refine ⟨h.validSize, rfl, skipLock_eq (a := a.paged changes pgno checksum) h.validSize ?_,
    fun n hn => ?_⟩
  · show (if a.previousCount < pgno then _ else _) = min (max a.previousCount pgno + 1) u32Max ∨
      (if a.previousCount < pgno then _ else _) = nextPage a.pageSize (max a.previousCount pgno)
    by_cases hgt : a.previousCount < pgno
    · obtain ⟨hnext, hlt⟩ := hadmits.gapless hgt
      rw [if_pos hgt, ← hnext]
      exact Or.inl (by omega)
    · rw [if_neg hgt, show max a.previousCount pgno = max a.previousCount a.previous by
        omega]
      exact Or.inr rfl
  · change max a.previousCount pgno < n at hn
    rw [update_of_ne (by omega), h.unseen n (by omega)]

end PageChecksumApply

/-! ## A whole segment -/

/-- What a list of pages writes. -/
def writes (pages : List (UInt32 × Bytes)) : Nat → Option Bytes :=
  pages.foldl (fun w page => update w page.1.toNat (some page.2)) fun _ => none

/-- The checksums after the pages of a segment were written. -/
def overlay (P : Primitives) (w : Nat → Option Bytes) (changes : Nat → Option UInt64) :
    Nat → Option UInt64 :=
  fun n => ((w n).map (P.checksumPage (UInt32.ofNat n))).or (changes n)

theorem writes_append (pages : List (UInt32 × Bytes)) (page : UInt32 × Bytes) :
    writes (pages ++ [page]) = update (writes pages) page.1.toNat (some page.2) := by
  rw [writes, foldl_append]
  rfl

/-- What is written comes from a page. -/
theorem mem_of_writes (h : writes pages n = some data) :
    ∃ page ∈ pages, page.1.toNat = n ∧ page.2 = data := by
  induction pages using List.reverseRecOn with
  | nil => cases h
  | append_singleton pages page ih =>
    rw [writes_append] at h
    rcases eq_or_ne n page.1.toNat with rfl | hne
    · rw [update_self, some.injEq] at h
      exact ⟨page, mem_append_right _ (mem_singleton_self _), rfl, h⟩
    · rw [update_of_ne hne] at h
      obtain ⟨p, hp, hpage⟩ := ih h
      exact ⟨p, mem_append_left _ hp, hpage⟩

/-- An ascending list of pages writes each of them. -/
theorem writes_of_mem (h : pages.Pairwise fun p q => p.1.toNat < q.1.toNat) (hpage : page ∈ pages) :
    writes pages page.1.toNat = some page.2 := by
  induction pages using List.reverseRecOn with
  | nil => exact absurd hpage not_mem_nil
  | append_singleton pages last ih =>
    obtain ⟨hpages, -, hlast⟩ := pairwise_append.1 h
    rw [writes_append]
    rcases mem_append.1 hpage with hpage | hpage
    · have hlt := hlast page hpage last (mem_singleton_self _)
      rw [update_of_ne hlt.ne, ih hpages hpage]
    · rw [mem_singleton.1 hpage, update_self]

theorem writes_ne_none (h : pages.Pairwise fun p q => p.1.toNat < q.1.toNat) :
    writes pages n ≠ none ↔ ∃ page ∈ pages, page.1.toNat = n := by
  rw [ne_none_iff_exists']
  constructor
  · rintro ⟨data, hdata⟩
    obtain ⟨page, hpage, hpgno, -⟩ := mem_of_writes hdata
    exact ⟨page, hpage, hpgno⟩
  · rintro ⟨page, hpage, rfl⟩
    exact ⟨page.2, writes_of_mem h hpage⟩

theorem overlay_update (P : Primitives) (w : Nat → Option Bytes)
    (changes : Nat → Option UInt64) (pgno : UInt32) (data : Bytes) :
    overlay P (update w pgno.toNat (some data)) changes
      = update (overlay P w changes) pgno.toNat (some (P.checksumPage pgno data)) := by
  funext n
  refine (apply_update (fun n data =>
    (data.map (P.checksumPage (UInt32.ofNat n))).or (changes n)) w pgno.toNat (some data) n).trans
      ?_
  rw [UInt32.ofNat_toNat]
  rfl

/-- The checksums of an ascending list of pages make up the checksum of the database that has no
other pages. -/
theorem xorTo_overlay (P : Primitives)
    (hascending : pages.Pairwise fun p q => p.1.toNat < q.1.toNat)
    (heach : ∀ page ∈ pages, 0 < page.1.toNat ∧ page.1.toNat ≤ commit) :
    xorTo (fun n => (overlay P (writes pages) (fun _ => none) n).getD 0) commit
      = (pages.map fun page => P.checksumPage page.1 page.2).foldl (· ^^^ ·) 0 := by
  induction pages using List.reverseRecOn with
  | nil =>
    exact xorTo_of_zero (Nat.zero_le commit) fun _ _ => rfl
  | append_singleton pages page ih =>
    obtain ⟨hpages, -, hlast⟩ := pairwise_append.1 hascending
    have hmem : page ∈ pages ++ [page] := mem_append_right _ (mem_singleton_self _)
    have hnew : writes pages page.1.toNat = none := by
      by_contra hne
      obtain ⟨p, hp, hpgno⟩ := (writes_ne_none hpages).1 hne
      exact absurd hpgno (hlast p hp page (mem_singleton_self _)).ne
    have hupdate : (fun n => (overlay P (writes (pages ++ [page])) (fun _ => none) n).getD 0)
        = update (fun n => (overlay P (writes pages) (fun _ => none) n).getD 0)
          page.1.toNat (P.checksumPage page.1 page.2) := by
      rw [writes_append, overlay_update, getD_update]
    have hzero : (overlay P (writes pages) (fun _ => none) page.1.toNat).getD 0 = 0 := by
      rw [overlay, hnew]
      rfl
    rw [hupdate, xorTo_update _ (heach page hmem).1 (heach page hmem).2, hzero, UInt64.xor_zero,
      ih hpages fun p hp => heach p (mem_append_left _ hp), map_append, foldl_append]
    rfl

/-- The pages of a segment that an index of `count` pages takes: ascending, none of them the lock
page, and with all that the new size adds. -/
structure Fits (count : Nat) (pageSize : UInt32) (commit : Nat)
    (pages : List (UInt32 × Bytes)) : Prop where
  ascending : pages.Pairwise fun p q => p.1.toNat < q.1.toNat
  each : ∀ page ∈ pages, 0 < page.1.toNat ∧ page.1.toNat ≤ commit ∧
    page.1.toNat ≠ lockPgno pageSize ∧ page.2.length = pageSize.toNat
  fills : ∀ n, count < n → n ≤ commit → n ≠ lockPgno pageSize → ∃ page ∈ pages, page.1.toNat = n
  bounded : commit ≤ count ∨ commit < u32Max

namespace PageChecksumApply

open PageChecksums

variable {a a' : PageChecksumApply} {changes : Nat → Option UInt64}

/-- What a walk has done when it has gone through some pages. -/
structure Walked (P : Primitives) (a : PageChecksumApply) (changes : Nat → Option UInt64)
    (done : List (UInt32 × Bytes)) (a' : PageChecksumApply) : Prop where
  pageSize : a'.pageSize = a.pageSize
  commit : a'.commit = a.commit
  previousCount : a'.previousCount = a.previousCount
  walks : a'.Walks (overlay P (writes done) changes)
  ascending : done.Pairwise fun p q => p.1.toNat < q.1.toNat
  each : ∀ page ∈ done, 0 < page.1.toNat ∧ page.1.toNat ≤ a.commit ∧
    page.1.toNat ≠ lockPgno a.pageSize ∧ page.2.length = a.pageSize.toNat ∧
    page.1.toNat ≤ a'.previous
  fills : ∀ n, a.previousCount < n → n ≤ a'.previous → n ≠ lockPgno a.pageSize →
    ∃ page ∈ done, page.1.toNat = n
  bounded : a'.previous ≤ a.previousCount ∨ a'.previous < u32Max

variable {P : Primitives}

theorem Walked.start (h : a.Walks changes) (hprevious : a.previous = 0) :
    Walked P a changes [] a := by
  refine ⟨rfl, rfl, rfl, ?_, List.Pairwise.nil, ?_, fun n hlt hle => ?_, Or.inl ?_⟩
  · have : overlay P (writes []) changes = changes := rfl
    rw [this]
    exact h
  · exact fun page hpage => absurd hpage not_mem_nil
  · omega
  · omega

/-- One page more. -/
theorem Walked.step {page : UInt32 × Bytes} (h : Walked P a changes done a')
    (hpage : a'.page P page.1 page.2 = .ok a'') : Walked P a changes (done ++ [page]) a'' := by
  obtain ⟨hadmits, rfl⟩ := h.walks.page_eq_ok.1 hpage
  have hwalks := h.walks.paged hadmits (P.checksumPage page.1 page.2)
  have hascends := hadmits.ascends
  have hinside := hadmits.inside
  rw [h.commit] at hinside
  have hlock := hadmits.notLock
  have hlength := hadmits.length
  have hgapless := hadmits.gapless
  rw [h.pageSize] at hlock hlength hgapless
  rw [h.previousCount] at hgapless
  refine ⟨h.pageSize, h.commit, h.previousCount, ?_, ?_, ?_, ?_, ?_⟩
  · rwa [writes_append, overlay_update]
  · rw [pairwise_append]
    refine ⟨h.ascending, pairwise_singleton _ _, fun p hp q hq => ?_⟩
    rw [mem_singleton.1 hq]
    exact (h.each p hp).2.2.2.2.trans_lt hascends
  · intro p hp
    rcases mem_append.1 hp with hp | hp
    · obtain ⟨h₁, h₂, h₃, h₄, h₅⟩ := h.each p hp
      exact ⟨h₁, h₂, h₃, h₄, h₅.trans hascends.le⟩
    · rw [mem_singleton.1 hp]
      exact ⟨by omega, hinside, hlock, hlength, le_rfl⟩
  · intro n hlt hle hne
    change n ≤ page.1.toNat at hle
    by_cases hold : n ≤ a'.previous
    · obtain ⟨p, hp, hpn⟩ := h.fills n hlt hold hne
      exact ⟨p, mem_append_left _ hp, hpn⟩
    · -- nothing but the lock page lies between the pages that were there and this one
      refine ⟨page, mem_append_right _ (mem_singleton_self _), ?_⟩
      obtain ⟨hnext, -⟩ := hgapless (by omega)
      unfold nextPage at hnext
      split at hnext
      · omega
      · omega
  · show page.1.toNat ≤ a.previousCount ∨ page.1.toNat < u32Max
    rcases Nat.lt_or_ge a.previousCount page.1.toNat with hgt | hle
    · exact Or.inr (hgapless hgt).2
    · exact Or.inl hle

variable {pages : List (UInt32 × Bytes)}

/-- A walk through a list of pages. -/
theorem Walked.run (h : a.Walks changes) (hprevious : a.previous = 0)
    (hrun : pages.foldlM (fun a page => a.page P page.1 page.2) a = .ok a') :
    Walked P a changes pages a' :=
  foldlM_ok (P := Walked P a changes) (fun _ _ _ _ hw hok => hw.step hok)
    (Walked.start h hprevious) hrun

/-- A walk ends well exactly when no page is missing. -/
theorem Walks.finish_eq_ok (h : a.Walks changes) :
    a.finish = .ok c ↔ (a.previousCount < a.commit →
        a.commit < nextPage a.pageSize (max a.previousCount a.previous)) ∧
      c = summed a.commit a.commit changes := by
  unfold finish
  rw [h.required, ok_bind, reject_bind_eq_ok, Bool.and_eq_false_imp, h.target]
  simp only [decide_eq_true_eq, decide_eq_false_iff_not, Nat.not_le, gt_iff_lt]
  refine and_congr_right fun _ => ⟨fun hc => ?_, fun hc => ?_⟩
  · cases hc
    rfl
  · rw [hc]
    rfl

/-- The pages of a walk that ended well fit. -/
theorem Walked.fits (h : Walked P a changes pages a')
    (hsize : isValidPageSize a.pageSize = true) (hfinish : a'.finish = .ok c) :
    Fits a.previousCount a.pageSize a.commit pages ∧
      c = summed a.commit a.commit (overlay P (writes pages) changes) := by
  obtain ⟨hend, rfl⟩ := h.walks.finish_eq_ok.1 hfinish
  rw [h.commit, h.previousCount, h.pageSize] at hend
  have hbounded := h.bounded
  have hlock := lockPgno_lt hsize
  unfold nextPage u32Max at *
  refine ⟨⟨h.ascending, ?_, ?_, ?_⟩, by rw [h.commit]⟩
  · intro page hpage
    obtain ⟨h₁, h₂, h₃, h₄, -⟩ := h.each page hpage
    exact ⟨h₁, h₂, h₃, h₄⟩
  · intro n hlt hle hne
    refine h.fills n hlt ?_ hne
    have := hend (by omega)
    split at this <;> omega
  · rcases Nat.lt_or_ge a.previousCount a.commit with hlt | hge
    · have := hend hlt
      refine Or.inr ?_
      show a.commit < 2 ^ 32 - 1
      split at this <;> omega
    · exact Or.inl hge

/-- A walk takes all the pages when they fit. -/
theorem Walks.run_ok (h : a.Walks changes)
    (hascending : pages.Pairwise fun p q => p.1.toNat < q.1.toNat)
    (heach : ∀ page ∈ pages, a.previous < page.1.toNat ∧ page.1.toNat ≤ a.commit ∧
      page.1.toNat ≠ lockPgno a.pageSize ∧ page.2.length = a.pageSize.toNat)
    (hfills : ∀ n, max a.previousCount a.previous < n → n ≤ a.commit → n ≠ lockPgno a.pageSize →
      ∃ page ∈ pages, page.1.toNat = n)
    (hbounded : a.commit ≤ a.previousCount ∨ a.commit < u32Max) :
    ∃ a' c, pages.foldlM (fun a page => a.page P page.1 page.2) a = .ok a' ∧
      a'.finish = .ok c := by
  induction pages generalizing a changes with
  | nil =>
    refine ⟨a, _, rfl, h.finish_eq_ok.2 ⟨fun hlt => ?_, rfl⟩⟩
    by_contra hge
    have hlock := nextPage_ne_lock h.validSize (max a.previousCount a.previous)
    have hgt : max a.previousCount a.previous
        < nextPage a.pageSize (max a.previousCount a.previous) := by
      unfold nextPage at hge ⊢
      split
      · omega
      · next hne =>
        rw [if_neg hne] at hge
        omega
    obtain ⟨page, hpage, -⟩ := hfills _ hgt (by omega) hlock
    exact absurd hpage not_mem_nil
  | cons page pages ih =>
    obtain ⟨hascends, hinside, hlock, hlength⟩ := heach page mem_cons_self
    obtain ⟨hhead, htail⟩ := pairwise_cons.1 hascending
    have hadmits : a.Admits page.1.toNat page.2 := by
      refine ⟨hascends, hinside, hlock, hlength, fun hgt => ?_⟩
      -- the page that the walk waits for is among those left, and none comes before this one
      obtain ⟨hlt, hle⟩ := nextPage_le (n := max a.previousCount a.previous) (by omega) hlock
        (by omega)
      obtain ⟨next, hmem, hpgno⟩ := hfills _ hlt (hle.trans hinside)
        (nextPage_ne_lock h.validSize _)
      refine ⟨le_antisymm ?_ hle, by omega⟩
      rcases mem_cons.1 hmem with rfl | hmem
      · exact hpgno.le
      · exact hpgno ▸ (hhead next hmem).le
    have hleft : ∀ n, max a.previousCount page.1.toNat < n → n ≤ a.commit →
        n ≠ lockPgno a.pageSize → ∃ p ∈ pages, p.1.toNat = n := by
      intro n hlt hle hne
      obtain ⟨p, hp, hpgno⟩ := hfills n (by omega) hle hne
      rcases mem_cons.1 hp with rfl | hp
      · omega
      · exact ⟨p, hp, hpgno⟩
    obtain ⟨a', c, hrun, hfinish⟩ := ih (h.paged hadmits (P.checksumPage page.1 page.2)) htail
      (fun p hp => ⟨hhead p hp, (heach p (mem_cons_of_mem _ hp)).2⟩) hleft hbounded
    refine ⟨a', c, ?_, hfinish⟩
    rw [foldlM_cons, h.page_eq_ok.2 ⟨hadmits, rfl⟩, ok_bind, hrun]

/-- The walk that `begin_apply` starts. -/
theorem beginApply_eq_ok {count commit limit : Nat} (h : ∀ n, count < n → changes n = none) :
    (summed count count changes).beginApply pageSize commit limit = .ok a ↔
      isValidPageSize pageSize = true ∧ 0 < commit ∧ pageSize.toNat * commit ≤ limit ∧
        a = ⟨summed count commit (upTo commit changes), pageSize, commit, count, 0,
          min (count + 1) u32Max⟩ := by
  unfold beginApply
  rw [reject_bind_eq_ok, reject_bind_eq_ok, truncate_summed h, ok_bind,
    Bool.or_eq_false_iff, Bool.not_eq_false_eq_eq_true, beq_eq_false_iff_ne,
    decide_eq_false_iff_not, Nat.not_lt, and_assoc, Nat.pos_iff_ne_zero]
  refine and_congr_right fun _ => and_congr_right fun _ => and_congr_right fun _ => ?_
  exact ⟨fun hok => by cases hok; rfl, fun ha => by rw [ha]; rfl⟩

/-- Where `begin_apply` leaves off. -/
theorem Walks.begun {count commit : Nat} (hsize : isValidPageSize pageSize = true)
    (h : ∀ n, count < n → changes n = none) :
    Walks ⟨summed count commit (upTo commit changes), pageSize, commit, count, 0,
      min (count + 1) u32Max⟩ (upTo commit changes) := by
  refine ⟨hsize, rfl, skipLock_eq hsize (Or.inl ?_), fun n hn => ?_⟩
  · rw [Nat.max_zero]
  · change max count 0 < n at hn
    unfold upTo
    rw [h n (by omega), ite_self]

end PageChecksumApply

open PageChecksumApply in
/-- An index takes exactly the segments that fit, and then stands for the new pages. -/
theorem PageChecksums.applyIter_eq_ok {changes : Nat → Option UInt64}
    {count commit limit : Nat} (h : ∀ n, count < n → changes n = none) :
    (summed count count changes).applyIter P pageSize commit pages limit = .ok c ↔
      (isValidPageSize pageSize = true ∧ 0 < commit ∧ pageSize.toNat * commit ≤ limit ∧
        Fits count pageSize commit pages) ∧
      c = summed commit commit (overlay P (writes pages) (upTo commit changes)) := by
  unfold applyIter
  constructor
  · intro hok
    obtain ⟨a, hbegin, hok⟩ := bind_eq_ok.1 hok
    obtain ⟨a', hrun, hfinish⟩ := bind_eq_ok.1 hok
    obtain ⟨hsize, hcommit, hlimit, rfl⟩ := (beginApply_eq_ok h).1 hbegin
    obtain ⟨hfits, rfl⟩ := (Walked.run (Walks.begun hsize h) rfl hrun).fits hsize hfinish
    exact ⟨⟨hsize, hcommit, hlimit, hfits⟩, rfl⟩
  · rintro ⟨⟨hsize, hcommit, hlimit, hfits⟩, rfl⟩
    have hwalks : Walks ⟨summed count commit (upTo commit changes), pageSize, commit, count, 0,
        min (count + 1) u32Max⟩ (upTo commit changes) := Walks.begun hsize h
    obtain ⟨a', c, hrun, hfinish⟩ := hwalks.run_ok (P := P) hfits.ascending hfits.each
      (by simpa only [Nat.max_zero] using hfits.fills) hfits.bounded
    obtain ⟨-, rfl⟩ := (Walked.run hwalks rfl hrun).fits hsize hfinish
    rw [(beginApply_eq_ok h).2 ⟨hsize, hcommit, hlimit, rfl⟩, ok_bind, hrun, ok_bind, hfinish]

end Cellule
