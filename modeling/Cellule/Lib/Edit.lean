import Cellule.Lib.Except
import Mathlib.Data.List.Forall2

/-!
# Editing one element of a list

The first element that satisfies a condition is replaced, by code that may fail.
-/

namespace List

open Except

variable {α ε : Type}

/-- Edits the first element that satisfies `p`, and fails with `missing` when there is none. -/
def editFirst (p : α → Bool) (f : α → Except ε α) (missing : ε) : List α → Except ε (List α)
  | [] => .error missing
  | x :: xs =>
    if p x then do
      let y ← f x
      return y :: xs
    else do
      let ys ← editFirst p f missing xs
      return x :: ys

/-- What an edit does. -/
theorem editFirst_eq_ok {xs ys : List α} :
    xs.editFirst p f missing = .ok ys ↔ ∃ before x after y, xs = before ++ x :: after ∧
      (∀ z ∈ before, p z = false) ∧ p x = true ∧ f x = .ok y ∧ ys = before ++ y :: after := by
  induction xs generalizing ys with
  | nil => simp [editFirst]
  | cons x xs ih =>
    unfold editFirst
    split
    · next hx =>
      rw [bind_eq_ok]
      constructor
      · rintro ⟨y, hy, h⟩
        exact ⟨[], x, xs, y, rfl, by simp, hx, hy, (ok.inj h).symm⟩
      · rintro ⟨before, x', after, y, hsplit, hbefore, hx', hy, rfl⟩
        cases before with
        | nil =>
          obtain ⟨rfl, rfl⟩ := List.cons.inj hsplit
          exact ⟨y, hy, rfl⟩
        | cons z before =>
          obtain ⟨rfl, -⟩ := List.cons.inj hsplit
          rw [hbefore x List.mem_cons_self] at hx
          cases hx
    · next hx =>
      rw [bind_eq_ok]
      constructor
      · rintro ⟨zs, hzs, h⟩
        obtain rfl := ok.inj h
        obtain ⟨before, x', after, y, rfl, hbefore, hx', hy, rfl⟩ := ih.1 hzs
        refine ⟨x :: before, x', after, y, rfl, ?_, hx', hy, rfl⟩
        exact List.forall_mem_cons.2 ⟨Bool.eq_false_iff.2 hx, hbefore⟩
      · rintro ⟨before, x', after, y, hsplit, hbefore, hx', hy, rfl⟩
        cases before with
        | nil =>
          obtain ⟨rfl, -⟩ := List.cons.inj hsplit
          exact absurd hx' hx
        | cons z before =>
          obtain ⟨rfl, rfl⟩ := List.cons.inj hsplit
          have hrest := (List.forall_mem_cons.1 hbefore).2
          exact ⟨before ++ y :: after, ih.2 ⟨before, x', after, y, rfl, hrest, hx', hy, rfl⟩, rfl⟩

/-- An edit changes at most one element. -/
theorem forall₂_editFirst {xs ys : List α} (h : xs.editFirst p f missing = .ok ys) :
    Forall₂ (fun x y => y = x ∨ p x = true ∧ f x = .ok y) xs ys := by
  obtain ⟨before, x, after, y, rfl, -, hx, hy, rfl⟩ := editFirst_eq_ok.1 h
  refine rel_append (forall₂_same.2 fun _ _ => .inl rfl) (.cons (.inr ⟨hx, hy⟩) ?_)
  exact forall₂_same.2 fun _ _ => .inl rfl

/-- Edits of different indices, each of which happens once. -/
theorem getElem?_foldl_modify {g : β → α → α} {edits : List β}
    (hnodup : (edits.map index).Nodup) (xs : List α) (i : Nat) :
    (edits.foldl (fun xs e => xs.modify (index e) (g e)) xs)[i]? =
      match edits.find? (fun e => index e == i) with
      | some e => xs[i]?.map (g e)
      | none => xs[i]? := by
  induction edits generalizing xs with
  | nil => rfl
  | cons e edits ih =>
    rw [List.map_cons, List.nodup_cons] at hnodup
    rw [List.foldl_cons, ih hnodup.2, List.find?_cons, List.getElem?_modify]
    by_cases hi : index e = i
    · have hnone : edits.find? (fun e => index e == i) = none := by
        refine List.find?_eq_none.2 fun e' he' hsame => hnodup.1 ?_
        rw [hi, ← beq_iff_eq.1 hsame]
        exact List.mem_map_of_mem he'
      simp only [hnone, hi, if_true, beq_self_eq_true]
      rfl
    · simp only [hi, if_false, beq_eq_false_iff_ne.2 hi, id_map']

end List
