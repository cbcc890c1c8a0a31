import Mathlib

/-!
# Ordered maps

A map from a linear order that is walked in the order of its keys, as the list of its entries. A
value carries the proof that its keys increase strictly, so `get?_eq_some` needs no assumption, and
two maps with the same entries in any order are the same (`entries_ext`).
-/

/-- A map whose entries are kept in the order of their keys. -/
structure OrderedMap (K V : Type) [LinearOrder K] where
  entries : List (K × V)
  sorted : entries.Pairwise fun a b => a.1 < b.1

namespace OrderedMap

open List Option

variable {K V W : Type} [LinearOrder K]

/-- The map without entries. -/
def empty : OrderedMap K V := ⟨[], .nil⟩

/-- The value at a key. -/
def get? (m : OrderedMap K V) (k : K) : Option V := (m.entries.find? (·.1 == k)).map (·.2)

/-- Puts an entry in its place; an entry with the same key is replaced. -/
def insertEntry (k : K) (v : V) : List (K × V) → List (K × V)
  | [] => [(k, v)]
  | e :: es =>
    if k < e.1 then (k, v) :: e :: es
    else if k = e.1 then (k, v) :: es
    else e :: insertEntry k v es

variable {k : K} {v : V} {es : List (K × V)} {m : OrderedMap K V}

/-- What an insertion into an increasing list leaves in it. -/
theorem mem_insertEntry (h : es.Pairwise fun a b => a.1 < b.1) :
    e ∈ insertEntry k v es ↔ e = (k, v) ∨ e.1 ≠ k ∧ e ∈ es := by
  induction es with
  | nil => simp [insertEntry]
  | cons x xs ih =>
    rw [pairwise_cons] at h
    unfold insertEntry
    split
    · next hlt =>
      -- every entry of the list has a larger key
      have hne : ∀ e ∈ x :: xs, e.1 ≠ k := by
        intro e he
        rcases mem_cons.1 he with rfl | he
        · exact hlt.ne'
        · exact (hlt.trans (h.1 e he)).ne'
      rw [mem_cons]
      exact or_congr_right ⟨fun he => ⟨hne e he, he⟩, fun he => he.2⟩
    · split
      · next heq =>
        have hne : ∀ e ∈ xs, e.1 ≠ k := fun e he => heq ▸ (h.1 e he).ne'
        rw [mem_cons, mem_cons]
        refine or_congr_right ⟨fun he => ⟨hne e he, Or.inr he⟩, ?_⟩
        rintro ⟨hk, rfl | he⟩
        · exact absurd heq.symm hk
        · exact he
      · next hneq =>
        rw [mem_cons, ih h.2, mem_cons]
        constructor
        · rintro (rfl | rfl | ⟨hk, he⟩)
          · exact Or.inr ⟨Ne.symm hneq, Or.inl rfl⟩
          · exact Or.inl rfl
          · exact Or.inr ⟨hk, Or.inr he⟩
        · rintro (rfl | ⟨hk, rfl | he⟩)
          · exact Or.inr (Or.inl rfl)
          · exact Or.inl rfl
          · exact Or.inr (Or.inr ⟨hk, he⟩)

/-- An insertion keeps the order. -/
theorem sorted_insertEntry (h : es.Pairwise fun a b => a.1 < b.1) :
    (insertEntry k v es).Pairwise fun a b => a.1 < b.1 := by
  induction es with
  | nil => exact pairwise_singleton _ _
  | cons x xs ih =>
    have htail := (pairwise_cons.1 h).2
    have hhead := (pairwise_cons.1 h).1
    unfold insertEntry
    split
    · next hlt =>
      refine pairwise_cons.2 ⟨fun e he => ?_, h⟩
      rcases mem_cons.1 he with rfl | he
      · exact hlt
      · exact hlt.trans (hhead e he)
    · split
      · next heq => exact pairwise_cons.2 ⟨fun e he => heq ▸ hhead e he, htail⟩
      · next hnlt hne =>
        refine pairwise_cons.2 ⟨fun e he => ?_, ih htail⟩
        rcases (mem_insertEntry htail).1 he with rfl | ⟨-, he⟩
        · exact lt_of_le_of_ne (not_lt.1 hnlt) (Ne.symm hne)
        · exact hhead e he

/-- Sets the value at a key. -/
def insert (m : OrderedMap K V) (k : K) (v : V) : OrderedMap K V :=
  ⟨insertEntry k v m.entries, sorted_insertEntry m.sorted⟩

/-- Keeps the entries whose keys satisfy a condition. -/
def retain (m : OrderedMap K V) (p : K → Bool) : OrderedMap K V :=
  ⟨m.entries.filter fun e => p e.1, m.sorted.filter _⟩

/-- Takes out the entry at a key. -/
def erase (m : OrderedMap K V) (k : K) : OrderedMap K V := m.retain (· != k)

/-- The values, in the order of their keys. -/
def values (m : OrderedMap K V) : List V := m.entries.map (·.2)

/-- The map that a list of entries fills, later entries replacing earlier ones. -/
def ofList (es : List (K × V)) : OrderedMap K V := es.foldl (fun m e => m.insert e.1 e.2) empty

/-- In an increasing list a key has one value. -/
theorem eq_of_mem (h : es.Pairwise fun a b => a.1 < b.1) (hv : (k, v) ∈ es)
    (hw : (k, w) ∈ es) : v = w := by
  induction es with
  | nil => cases hv
  | cons x xs ih =>
    rw [pairwise_cons] at h
    rcases mem_cons.1 hv with hv | hv <;> rcases mem_cons.1 hw with hw | hw
    · exact (Prod.ext_iff.1 (hv.trans hw.symm)).2
    · exact absurd (h.1 _ hw) (by rw [← hv]; exact lt_irrefl k)
    · exact absurd (h.1 _ hv) (by rw [← hw]; exact lt_irrefl k)
    · exact ih h.2 hv hw

/-- A lookup finds exactly the entries of the map. -/
theorem get?_eq_some : m.get? k = some v ↔ (k, v) ∈ m.entries := by
  unfold get?
  rw [map_eq_some_iff]
  constructor
  · rintro ⟨e, he, rfl⟩
    have hk : e.1 = k := by simpa using find?_some he
    rw [← hk]
    exact mem_of_find?_eq_some he
  · intro hmem
    obtain ⟨e, he⟩ : ∃ e, m.entries.find? (·.1 == k) = some e := by
      rw [← isSome_iff_exists, find?_isSome]
      exact ⟨(k, v), hmem, beq_self_eq_true k⟩
    have hk : e.1 = k := by simpa using find?_some he
    refine ⟨e, he, eq_of_mem m.sorted (k := k) ?_ hmem⟩
    rw [← hk]
    exact mem_of_find?_eq_some he

theorem entries_eq_nil : m.entries = [] ↔ ∀ k, m.get? k = none := by
  constructor
  · intro h k
    unfold get?
    rw [h]
    rfl
  · intro h
    refine eq_nil_iff_forall_not_mem.2 fun e he => ?_
    rw [← get?_eq_some, h] at he
    cases he

@[simp] theorem get?_empty (k : K) : (empty : OrderedMap K V).get? k = none := rfl

@[simp] theorem get?_insert_self (m : OrderedMap K V) (k : K) (v : V) :
    (m.insert k v).get? k = some v :=
  get?_eq_some.2 ((mem_insertEntry m.sorted).2 (Or.inl rfl))

theorem get?_insert_of_ne (m : OrderedMap K V) (h : k' ≠ k) (v : V) :
    (m.insert k v).get? k' = m.get? k' := by
  refine ext fun w => ?_
  rw [get?_eq_some, get?_eq_some]
  refine (mem_insertEntry m.sorted).trans ⟨?_, fun hw => Or.inr ⟨h, hw⟩⟩
  rintro (hw | ⟨-, hw⟩)
  · exact absurd (congrArg Prod.fst hw) h
  · exact hw

theorem get?_insert (m : OrderedMap K V) (k k' : K) (v : V) :
    (m.insert k v).get? k' = if k' = k then some v else m.get? k' := by
  split
  · next h => rw [h, get?_insert_self]
  · next h => rw [get?_insert_of_ne m h]

/-- What is found after an insertion was inserted, or is at another key and was there. -/
theorem get?_insert_cases
    (h : (m.insert k v).get? k' = some w) : k' = k ∧ w = v ∨ k' ≠ k ∧ m.get? k' = some w := by
  rw [get?_insert] at h
  split at h
  · next hk => exact .inl ⟨hk, (some.inj h).symm⟩
  · next hk => exact .inr ⟨hk, h⟩

theorem get?_retain (m : OrderedMap K V) (p : K → Bool) (k : K) :
    (m.retain p).get? k = if p k then m.get? k else none := by
  refine ext fun v => ?_
  rw [get?_eq_some]
  show (k, v) ∈ m.entries.filter _ ↔ _
  rw [mem_filter]
  split
  · next hk => rw [get?_eq_some, and_iff_left hk]
  · next hk => exact ⟨fun h => absurd h.2 hk, nofun⟩

theorem get?_erase (m : OrderedMap K V) (k k' : K) :
    (m.erase k).get? k' = if k' = k then none else m.get? k' := by
  rw [erase, get?_retain]
  by_cases h : k' = k
  · rw [if_pos h, if_neg (by rw [h]; simp)]
  · rw [if_neg h, if_pos (by simpa using h)]

/-- Entries in increasing order, put into a map one after another, take precedence over what it
held. -/
theorem get?_foldl_insert (n m : OrderedMap K V) (k : K) :
    (n.entries.foldl (fun m e => m.insert e.1 e.2) m).get? k = (n.get? k).or (m.get? k) := by
  have hfill : ∀ (es : List (K × V)) (m : OrderedMap K V), es.Pairwise (fun a b => a.1 < b.1) →
      (es.foldl (fun m e => m.insert e.1 e.2) m).get? k
        = ((es.find? (·.1 == k)).map (·.2)).or (m.get? k) := by
    intro es
    induction es with
    | nil => intro m _; rfl
    | cons e es ih =>
      intro m hsorted
      obtain ⟨hhead, htail⟩ := pairwise_cons.1 hsorted
      rw [foldl_cons, ih _ htail, get?_insert, find?_cons]
      by_cases hk : e.1 = k
      · have hnone : es.find? (·.1 == k) = none := by
          rw [find?_eq_none]
          intro e' he' heq
          exact absurd (hhead e' he') (by rw [hk, beq_iff_eq.1 heq]; exact lt_irrefl _)
        rw [hnone, if_pos hk.symm, hk, beq_self_eq_true]
        rfl
      · rw [if_neg (Ne.symm hk), beq_eq_false_iff_ne.2 hk]
  exact hfill n.entries m n.sorted

/-- A filled map has only the entries it was filled with. -/
theorem mem_of_get?_ofList (h : (ofList es).get? k = some v) : (k, v) ∈ es := by
  have hfill : ∀ (es : List (K × V)) (m : OrderedMap K V),
      (es.foldl (fun m e => m.insert e.1 e.2) m).get? k = some v →
        (k, v) ∈ es ∨ m.get? k = some v := by
    intro es
    induction es with
    | nil => exact fun m hm => Or.inr hm
    | cons e es ih =>
      intro m hm
      rcases ih _ hm with hm | hm
      · exact Or.inl (mem_cons_of_mem _ hm)
      · rcases eq_or_ne k e.1 with rfl | hne
        · rw [get?_insert_self, some.injEq] at hm
          rw [← hm]
          exact Or.inl mem_cons_self
        · rw [get?_insert_of_ne _ hne] at hm
          exact Or.inr hm
  rcases hfill es empty h with h | h
  · exact h
  · cases h

/-- Lists that increase in a key and have the same members are equal. -/
theorem eq_of_increasing (key : α → K) {es fs : List α}
    (hes : es.Pairwise fun a b => key a < key b) (hfs : fs.Pairwise fun a b => key a < key b)
    (h : ∀ e, e ∈ es ↔ e ∈ fs) : es = fs := by
  have hnodup : ∀ {gs : List α}, gs.Pairwise (fun a b => key a < key b) → gs.Nodup :=
    fun hgs => hgs.imp fun hlt heq => absurd (heq ▸ hlt) (lt_irrefl _)
  have hperm : es.Perm fs := (perm_ext_iff_of_nodup (hnodup hes) (hnodup hfs)).2 h
  exact hperm.eq_of_pairwise (fun a b _ _ hab hba => absurd (hab.trans hba) (lt_irrefl _)) hes hfs

/-- Increasing lists with the same members are equal. -/
theorem entries_ext {fs : List (K × V)} (hes : es.Pairwise fun a b => a.1 < b.1)
    (hfs : fs.Pairwise fun a b => a.1 < b.1) (h : ∀ e, e ∈ es ↔ e ∈ fs) : es = fs :=
  eq_of_increasing (·.1) hes hfs h

/-- The entries of a map, found by walking another one that has all its keys. -/
theorem entries_eq_filterMap {n : OrderedMap K W}
    (h : ∀ k v, m.get? k = some v → ∃ w, n.get? k = some w) :
    m.entries = n.entries.filterMap fun e => (m.get? e.1).map fun v => (e.1, v) := by
  refine entries_ext m.sorted ?_ fun e => ?_
  · refine n.sorted.filterMap _ fun a b hab a' ha' b' hb' => ?_
    obtain ⟨v, -, rfl⟩ := map_eq_some_iff.1 ha'
    obtain ⟨w, -, rfl⟩ := map_eq_some_iff.1 hb'
    exact hab
  · rw [mem_filterMap]
    constructor
    · intro he
      obtain ⟨w, hw⟩ := h e.1 e.2 (get?_eq_some.2 he)
      refine ⟨(e.1, w), get?_eq_some.1 hw, ?_⟩
      rw [get?_eq_some.2 he]
      rfl
    · rintro ⟨a, -, ha⟩
      obtain ⟨v, hv, rfl⟩ := map_eq_some_iff.1 ha
      exact get?_eq_some.1 hv

end OrderedMap
