import Mathlib

/-!
# Rows of slots

A row of slots, each with a value or empty, as the values that a program has named so far: a new
value takes a new slot at the end, and a value that is moved leaves its slot empty.
-/

/-- Related values that are both there go on to related results. -/
theorem Option.bind_rel (h : Option.Rel R x y)
    (hfg : ∀ a b, x = some a → R a b → Option.Rel S (f a) (g b)) :
    Option.Rel S (x.bind f) (y.bind g) := by
  cases h with
  | none => exact .none
  | some h => exact hfg _ _ rfl h

namespace List

variable {α β : Type}

/-- What a slot holds; a slot that is not there holds nothing. -/
def slot? (l : List (Option α)) (i : Nat) : Option α := l[i]?.join

theorem lt_length_of_slot? {l : List (Option α)} (h : l.slot? i = some a) : i < l.length := by
  by_contra hge
  rw [slot?, getElem?_eq_none (Nat.not_lt.1 hge)] at h
  cases h

theorem slot?_set {l : List (Option α)} (hi : i < l.length) (x : Option α) (j : Nat) :
    (l.set i x).slot? j = if j = i then x else l.slot? j := by
  unfold slot?
  rcases eq_or_ne j i with rfl | hne
  · rw [if_pos rfl, getElem?_set_self hi, Option.join_some]
  · rw [if_neg hne, getElem?_set_ne hne.symm]

theorem slot?_concat (l : List (Option α)) (x : Option α) (j : Nat) :
    (l ++ [x]).slot? j = if j = l.length then x else l.slot? j := by
  unfold slot?
  rcases Nat.lt_trichotomy j l.length with hlt | rfl | hgt
  · rw [if_neg hlt.ne, getElem?_append_left hlt]
  · rw [if_pos rfl, getElem?_concat_length, Option.join_some]
  · rw [if_neg hgt.ne', getElem?_eq_none (by rw [length_append, length_singleton]; omega),
      getElem?_eq_none hgt.le]

/-- Two rows whose slots are filled alike, with related values. -/
structure SlotsRel (R : α → β → Prop) (l : List (Option α)) (m : List (Option β)) : Prop where
  length : l.length = m.length
  related : ∀ i, Option.Rel R (l.slot? i) (m.slot? i)

namespace SlotsRel

variable {R : α → β → Prop} {l : List (Option α)} {m : List (Option β)}

theorem singleton (h : R a b) : SlotsRel R [some a] [some b] := by
  refine ⟨rfl, fun i => ?_⟩
  cases i with
  | zero => exact .some h
  | succ i => exact .none

/-- What stands opposite to a value. -/
theorem exists_right (h : SlotsRel R l m) (ha : l.slot? i = some a) :
    ∃ b, m.slot? i = some b ∧ R a b := by
  have hrel := h.related i
  rw [ha] at hrel
  cases hb : m.slot? i with
  | none => rw [hb] at hrel; cases hrel
  | some b =>
    rw [hb] at hrel
    cases hrel with
    | some hab => exact ⟨b, rfl, hab⟩

theorem set (h : SlotsRel R l m) (hi : i < l.length)
    (hxy : Option.Rel R x y) : SlotsRel R (l.set i x) (m.set i y) := by
  refine ⟨by rw [length_set, length_set, h.length], fun j => ?_⟩
  rw [slot?_set hi, slot?_set (h.length ▸ hi)]
  split
  · exact hxy
  · exact h.related j

theorem concat (h : SlotsRel R l m) (hxy : Option.Rel R x y) :
    SlotsRel R (l ++ [x]) (m ++ [y]) := by
  refine ⟨by rw [length_append, length_append, h.length]; rfl, fun j => ?_⟩
  rw [slot?_concat, slot?_concat, h.length]
  split
  · exact hxy
  · exact h.related j

/-- A relation may be replaced by another one that holds of every pair that is there. -/
theorem imp (h : SlotsRel R l m)
    (himp : ∀ i a b, l.slot? i = some a → m.slot? i = some b → R a b → S a b) : SlotsRel S l m := by
  refine ⟨h.length, fun i => ?_⟩
  have hrel := h.related i
  cases ha : l.slot? i with
  | none =>
    cases hb : m.slot? i with
    | none => exact .none
    | some b => rw [ha, hb] at hrel; cases hrel
  | some a =>
    obtain ⟨b, hb, hab⟩ := h.exists_right ha
    rw [hb]
    exact .some (himp i a b ha hb hab)

end SlotsRel

end List
