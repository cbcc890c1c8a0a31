import Mathlib.Data.List.Forall2

/-!
# Lists that are related pointwise

`List.Forall₂` with its members: each element of one list has a partner in the other, and a list
whose elements all have some partner is related to some list.
-/

namespace List

variable {α β : Type} {R : α → β → Prop}

variable {xs : List α} {ys : List β}

/-- An element of the left list has a partner. -/
theorem Forall₂.exists_right (h : Forall₂ R xs ys) (hx : x ∈ xs) : ∃ y ∈ ys, R x y := by
  induction h with
  | nil => cases hx
  | cons hxy _ ih =>
    rcases List.mem_cons.1 hx with rfl | hx
    · exact ⟨_, List.mem_cons_self, hxy⟩
    · obtain ⟨y, hy, hr⟩ := ih hx
      exact ⟨y, List.mem_cons_of_mem _ hy, hr⟩

/-- An element of the right list has a partner. -/
theorem Forall₂.exists_left (h : Forall₂ R xs ys) (hy : y ∈ ys) : ∃ x ∈ xs, R x y :=
  Forall₂.exists_right (R := fun b a => R a b) h.flip hy

/-- The partner at an index of the right list. -/
theorem Forall₂.getElem?_left (h : Forall₂ R xs ys) {i : Nat} (hy : ys[i]? = some y) :
    ∃ x, xs[i]? = some x ∧ R x y := by
  induction h generalizing i with
  | nil => cases hy
  | cons hxy _ ih =>
    cases i with
    | zero =>
      obtain rfl := Option.some.inj hy
      exact ⟨_, rfl, hxy⟩
    | succ i => exact ih hy

/-- Elements that all have a partner have a list of partners. -/
theorem exists_forall₂ (h : ∀ x ∈ xs, ∃ y, R x y) : ∃ ys, Forall₂ R xs ys := by
  induction xs with
  | nil => exact ⟨[], .nil⟩
  | cons x xs ih =>
    obtain ⟨hx, hxs⟩ := List.forall_mem_cons.1 h
    obtain ⟨y, hy⟩ := hx
    obtain ⟨ys, hys⟩ := ih hxs
    exact ⟨y :: ys, .cons hy hys⟩

/-- The last element of the left list is related to the last element of the right list. -/
theorem Forall₂.exists_concat (h : Forall₂ R (xs ++ [x]) ys) :
    ∃ zs z, ys = zs ++ [z] ∧ Forall₂ R xs zs ∧ R x z := by
  induction xs generalizing ys with
  | nil =>
    obtain ⟨z, zs, hz, hzs, rfl⟩ := forall₂_cons_left_iff.1 h
    rw [forall₂_nil_left_iff.1 hzs]
    exact ⟨[], z, rfl, .nil, hz⟩
  | cons w xs ih =>
    obtain ⟨y, zs, hy, hzs, rfl⟩ := forall₂_cons_left_iff.1 h
    obtain ⟨zs', z, rfl, hzs', hz⟩ := ih hzs
    exact ⟨y :: zs', z, rfl, .cons hy hzs', hz⟩

/-- A relation may be weakened at the elements of the left list. -/
theorem Forall₂.imp_of_mem (h : Forall₂ R xs ys)
    (himp : ∀ x ∈ xs, ∀ y, R x y → S x y) : Forall₂ S xs ys := by
  induction h with
  | nil => exact .nil
  | cons hxy _ ih =>
    obtain ⟨hx, hxs⟩ := List.forall_mem_cons.1 himp
    exact .cons (hx _ hxy) (ih hxs)

/-- Relations between lists compose pointwise. -/
theorem Forall₂.comp (hcomp : ∀ a b c, R a b → S b c → T a c) (h : Forall₂ R xs ys)
    (h' : Forall₂ S ys zs) : Forall₂ T xs zs := by
  induction h generalizing zs with
  | nil =>
    rw [forall₂_nil_left_iff.1 h']
    exact .nil
  | cons hxy _ ih =>
    obtain ⟨z, zs', hz, hzs, rfl⟩ := forall₂_cons_left_iff.1 h'
    exact .cons (hcomp _ _ _ hxy hz) (ih hzs)

/-- Related elements that have the same image make lists that have the same image. -/
theorem Forall₂.map_eq (heq : ∀ a b, R a b → g b = f a)
    (h : Forall₂ R xs ys) : ys.map g = xs.map f := by
  induction h with
  | nil => rfl
  | cons hxy _ ih => rw [map_cons, map_cons, heq _ _ hxy, ih]

/-- Lists are related when they are related at each index. -/
theorem forall₂_of_getElem? (h : ∀ i : Nat, Option.Rel R xs[i]? ys[i]?) : Forall₂ R xs ys := by
  induction xs generalizing ys with
  | nil =>
    cases ys with
    | nil => exact .nil
    | cons y ys => cases (h 0)
  | cons x xs ih =>
    cases ys with
    | nil => cases (h 0)
    | cons y ys =>
      cases h 0 with
      | some hxy => exact .cons hxy (ih fun i => h (i + 1))

end List
