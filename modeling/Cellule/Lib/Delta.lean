import Mathlib

/-!
# Merging deltas of a resizable array

A delta gives an array a new size and writes some of its cells. A row of deltas can be merged into
one that keeps the newest write of each cell since the array was last too small for it. The merged
delta says nothing of the sizes in between, so a cell that was cut off and came back unwritten shows
its old contents again: the two ways differ only at such cells (`merged_eq_iff`).
-/

/-- A new size, and the cells that are written. -/
structure Delta (α : Type) where
  size : Nat
  write : Nat → Option α

namespace Delta

open List Option

variable {α : Type}

/-- The array after a delta. Cells beyond the size are blank. -/
def apply (blank : α) (c : Nat → α) (d : Delta α) : Nat → α :=
  fun n => if n ≤ d.size then (d.write n).getD (c n) else blank

/-- The newest write of a cell since the array was last too small for it. -/
def newest (ds : List (Delta α)) (n : Nat) : Option α :=
  ds.foldl (fun w d => if n ≤ d.size then (d.write n).or w else none) none

/-- The size after a row of deltas. -/
def lastSize (ds : List (Delta α)) : Nat := ds.foldl (fun _ d => d.size) 0

/-- The least size on the way. -/
def leastSize : List (Delta α) → Option Nat :=
  List.foldl (fun least d => some (least.elim d.size (min d.size))) none

theorem newest_append (ds : List (Delta α)) (d : Delta α) (n : Nat) :
    newest (ds ++ [d]) n = if n ≤ d.size then (d.write n).or (newest ds n) else none := by
  rw [newest, foldl_append]
  rfl

theorem leastSize_append (ds : List (Delta α)) (d : Delta α) :
    leastSize (ds ++ [d]) = some ((leastSize ds).elim d.size (min d.size)) := by
  rw [leastSize, foldl_append]
  rfl

theorem lastSize_append (ds : List (Delta α)) (d : Delta α) : lastSize (ds ++ [d]) = d.size := by
  rw [lastSize, foldl_append]
  rfl

variable {ds : List (Delta α)} {n least : Nat}

/-- Nothing is kept beyond the size. -/
theorem newest_eq_none (h : lastSize ds < n) : newest ds n = none := by
  rcases eq_nil_or_concat ds with rfl | ⟨ds, d, rfl⟩
  · rfl
  · rw [concat_eq_append, lastSize_append] at h
    rw [concat_eq_append, newest_append, if_neg (by omega)]

/-- What is kept comes from a delta. -/
theorem mem_of_newest (h : newest ds n = some v) : ∃ d ∈ ds, d.write n = some v := by
  induction ds using List.reverseRecOn with
  | nil => cases h
  | append_singleton ds d ih =>
    rw [newest_append] at h
    split at h
    · cases hw : d.write n with
      | some w =>
        rw [hw, some_or] at h
        exact ⟨d, mem_append_right _ (mem_singleton_self _), hw.trans h⟩
      | none =>
        rw [hw, none_or] at h
        obtain ⟨d', hd', hwrite⟩ := ih h
        exact ⟨d', mem_append_left _ hd', hwrite⟩
    · cases h

/-- The least size is no more than the last. -/
theorem leastSize_le (h : leastSize ds = some least) : least ≤ lastSize ds := by
  rcases eq_nil_or_concat ds with rfl | ⟨ds, d, rfl⟩
  · cases h
  · rw [concat_eq_append, leastSize_append, some.injEq] at h
    rw [concat_eq_append, lastSize_append, ← h]
    cases leastSize ds with
    | none => exact le_rfl
    | some m => exact min_le_left _ _

/-- The least size is no more than any. -/
theorem leastSize_le_of_mem (h : leastSize ds = some least) (hd : d ∈ ds) : least ≤ d.size := by
  induction ds using List.reverseRecOn generalizing least with
  | nil => cases h
  | append_singleton ds e ih =>
    rw [leastSize_append, some.injEq] at h
    cases hl : leastSize ds with
    | none =>
      rw [hl, elim_none] at h
      rcases eq_nil_or_concat ds with rfl | ⟨ds, d', rfl⟩
      · rw [nil_append] at hd
        rw [mem_singleton.1 hd, h]
      · rw [concat_eq_append, leastSize_append] at hl
        cases hl
    | some m =>
      rw [hl, elim_some] at h
      rcases mem_append.1 hd with hd | hd
      · exact h ▸ (min_le_right _ _).trans (ih hl hd)
      · rw [mem_singleton.1 hd, ← h]
        exact min_le_left _ _

/-- Nothing is kept of a cell that was cut off and not written since. -/
theorem newest_of_cut (hcut : d.size < n)
    (hrest : ∀ later ∈ rest, later.write n = none) : newest (ds ++ d :: rest) n = none := by
  induction rest using List.reverseRecOn with
  | nil => rw [newest_append, if_neg (by omega)]
  | append_singleton rest e ih =>
    rw [← cons_append, ← append_assoc, newest_append,
      ih fun later hlater => hrest later (mem_append_left _ hlater),
      hrest e (mem_append_right _ (mem_singleton_self _)), none_or, ite_self]

/-- What a row of deltas leaves: the newest write of a cell, or its contents at the start when it
was never cut off. -/
theorem foldl_apply (blank : α) (c : Nat → α) (h : leastSize ds = some least) (n : Nat) :
    ds.foldl (apply blank) c n = if n ≤ lastSize ds then
      (newest ds n).getD (if n ≤ least then c n else blank) else blank := by
  induction ds using List.reverseRecOn generalizing least with
  | nil => cases h
  | append_singleton ds d ih =>
    rw [leastSize_append, some.injEq] at h
    rw [foldl_append, lastSize_append, newest_append]
    show (if n ≤ d.size then (d.write n).getD (ds.foldl (apply blank) c n) else blank) = _
    by_cases hn : n ≤ d.size
    · rw [if_pos hn, if_pos hn, if_pos hn]
      cases hw : d.write n with
      | some v => rfl
      | none =>
        rw [none_or, getD_none]
        cases hl : leastSize ds with
        | none =>
          -- the first delta of the row
          rw [hl, elim_none] at h
          have hnil : ds = [] := by
            rcases eq_nil_or_concat ds with rfl | ⟨ds, d', rfl⟩
            · rfl
            · rw [concat_eq_append, leastSize_append] at hl
              cases hl
          rw [hnil, if_pos (by omega)]
          rfl
        | some m =>
          rw [hl, elim_some] at h
          have hle := leastSize_le hl
          rw [ih hl]
          by_cases hlast : n ≤ lastSize ds
          · rw [if_pos hlast]
            congr 1
            by_cases hm : n ≤ m
            · rw [if_pos hm, if_pos (by omega)]
            · rw [if_neg hm, if_neg (by omega)]
          · rw [if_neg hlast, newest_eq_none (by omega), getD_none, if_neg (by omega)]
    · rw [if_neg hn, if_neg hn]

/-- A row of deltas as one. -/
def merged (ds : List (Delta α)) : Delta α := ⟨lastSize ds, newest ds⟩

/-- The merged delta does what the row does, exactly when every cell that was cut off and came back
unwritten was blank before. -/
theorem merged_eq_iff (blank : α) (c : Nat → α) (h : leastSize ds = some least) :
    apply blank c (merged ds) = ds.foldl (apply blank) c ↔
      ∀ n, least < n → n ≤ lastSize ds → newest ds n = none → c n = blank := by
  have hmerged : ∀ n, apply blank c (merged ds) n
      = if n ≤ lastSize ds then (newest ds n).getD (c n) else blank := fun n => rfl
  constructor
  · intro heq n hlt hle hnone
    have hn := congrFun heq n
    rw [foldl_apply blank c h n, hmerged, if_pos hle, if_pos hle, hnone] at hn
    rwa [getD_none, getD_none, if_neg (by omega)] at hn
  · intro hblank
    funext n
    rw [foldl_apply blank c h n, hmerged]
    by_cases hle : n ≤ lastSize ds
    · rw [if_pos hle, if_pos hle]
      by_cases hleast : n ≤ least
      · rw [if_pos hleast]
      · rw [if_neg hleast]
        cases hw : newest ds n with
        | some v => rfl
        | none => exact hblank n (by omega) hle hw
    · rw [if_neg hle, if_neg hle]

/-! ## Growing -/

/-- Each delta of the row writes the cells that it adds, but for those that are never written. -/
def Fills (skip : Nat → Prop) : (size : Nat) → List (Delta α) → Prop
  | _, [] => True
  | size, d :: ds =>
    (∀ n, size < n → n ≤ d.size → ¬skip n → d.write n ≠ none) ∧ Fills skip d.size ds

/-- When each delta writes the cells it adds, the merged one writes all the cells that are there in
the end and were not at the start. -/
theorem Fills.newest_ne_none {size : Nat} (h : Fills skip size ds)
    (hlt : size < n) (hle : n ≤ lastSize ds) (hskip : ¬skip n) : newest ds n ≠ none := by
  -- along the row: what is there already has been written
  have hrow : ∀ (ds : List (Delta α)) (now : Nat) (w : Option α), Fills skip now ds →
      (n ≤ now → w ≠ none) → n ≤ ds.foldl (fun _ d => d.size) now →
      ds.foldl (fun w d => if n ≤ d.size then (d.write n).or w else none) w ≠ none := by
    intro ds
    induction ds with
    | nil => exact fun now w _ hw hn => hw hn
    | cons d ds ih =>
      rintro now w ⟨hd, hds⟩ hw hn
      refine ih d.size _ hds (fun hn' => ?_) hn
      show (if n ≤ d.size then (d.write n).or w else none) ≠ none
      rw [if_pos hn']
      rcases Nat.lt_or_ge now n with hnow | hnow
      · obtain ⟨v, hv⟩ := ne_none_iff_exists'.1 (hd n hnow hn' hskip)
        rw [hv]
        exact some_ne_none v
      · obtain ⟨v, hv⟩ := ne_none_iff_exists'.1 (hw hnow)
        rw [hv]
        cases d.write n <;> exact some_ne_none _
  refine hrow ds size none h (fun hn => absurd hlt (by omega)) ?_
  cases ds with
  | nil =>
    change n ≤ 0 at hle
    omega
  | cons d ds => exact hle

end Delta
