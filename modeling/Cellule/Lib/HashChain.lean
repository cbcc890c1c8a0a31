import Mathlib.Data.List.Infix

/-!
# Running hashes

A running hash takes a list in element by element: each digest is the hash of an input made of the
digest before it and of the element, from the hash of a seed. When the hash has no collision among
the inputs of the lists in use, lists with one running hash are the same (`Free.eq_of_extend_eq`):
the last inputs are equal, so the last elements and the digests before them are, down to the seed.
-/

namespace HashChain

open List

variable {D B α : Type} (hash : B → D) (input : D → α → B) (seed : B)

/-- The digest after the elements of a list. -/
def extend (d : D) (xs : List α) : D := xs.foldl (fun d x => hash (input d x)) d

@[simp] theorem extend_nil (d : D) : extend hash input d [] = d := rfl

@[simp] theorem extend_cons (d : D) (x : α) (xs : List α) :
    extend hash input d (x :: xs) = extend hash input (hash (input d x)) xs := rfl

theorem extend_append (d : D) (xs ys : List α) :
    extend hash input d (xs ++ ys) = extend hash input (extend hash input d xs) ys := by
  unfold extend
  rw [foldl_append]

/-- The inputs on the way over a list. -/
def steps : D → List α → List B
  | _, [] => []
  | d, x :: xs => input d x :: steps (hash (input d x)) xs

/-- The inputs that the lists in use give rise to. -/
def inputs (used : List (List α)) : List B := seed :: used.flatMap (steps hash input (hash seed))

/-- The hash has no collision among these inputs. -/
def Free (hash : B → D) (inputs : List B) : Prop :=
  ∀ a ∈ inputs, ∀ b ∈ inputs, hash a = hash b → a = b

instance [DecidableEq B] [DecidableEq D] (inputs : List B) : Decidable (Free hash inputs) :=
  inferInstanceAs (Decidable (∀ a ∈ inputs, ∀ b ∈ inputs, hash a = hash b → a = b))

theorem steps_append (d : D) (xs ys : List α) :
    steps hash input d (xs ++ ys) = steps hash input d xs
      ++ steps hash input (extend hash input d xs) ys := by
  induction xs generalizing d with
  | nil => rfl
  | cons x xs ih =>
    show _ :: steps hash input _ (xs ++ ys) = _
    rw [ih]
    rfl

variable {hash input seed}

/-- Lists that begin lists in use give rise to no other inputs. -/
theorem Free.mono (h : Free hash (inputs hash input seed used'))
    (hused : ∀ xs ∈ used, ∃ ys ∈ used', xs <+: ys) : Free hash (inputs hash input seed used) := by
  have hsub : ∀ i ∈ inputs hash input seed used, i ∈ inputs hash input seed used' := by
    intro i hi
    rcases mem_cons.1 hi with rfl | hi
    · exact mem_cons_self
    · obtain ⟨xs, hxs, hi⟩ := mem_flatMap.1 hi
      obtain ⟨_, hys, ⟨zs, rfl⟩⟩ := hused xs hxs
      refine mem_cons_of_mem _ (mem_flatMap.2 ⟨_, hys, ?_⟩)
      rw [steps_append]
      exact mem_append_left _ hi
  exact fun a ha b hb => h a (hsub a ha) b (hsub b hb)

/-- Lists with one running hash are the same. -/
theorem Free.eq_of_extend_eq {ok : α → Prop}
    (hfree : Free hash (inputs hash input seed used)) (hseed : ∀ d x, input d x ≠ seed)
    (hinput : ∀ d x d' x', ok x → ok x' → input d x = input d' x' → d = d' ∧ x = x')
    (hxs : xs ++ xs' ∈ used) (hys : ys ++ ys' ∈ used)
    (hokx : ∀ x ∈ xs, ok x) (hoky : ∀ y ∈ ys, ok y)
    (h : extend hash input (hash seed) xs = extend hash input (hash seed) ys) : xs = ys := by
  have hlast : ∀ {zs zs' : List α} {z : α}, zs ++ [z] ++ zs' ∈ used →
      input (extend hash input (hash seed) zs) z ∈ inputs hash input seed used := by
    intro zs zs' z hzs
    refine mem_cons_of_mem _ (mem_flatMap.2 ⟨_, hzs, ?_⟩)
    rw [append_assoc, steps_append]
    exact mem_append_right _ mem_cons_self
  have hstart : seed ∈ inputs hash input seed used := mem_cons_self
  -- the induction is on the last elements, where the digests are equal
  induction xs using List.reverseRecOn generalizing ys xs' ys' with
  | nil =>
    rcases eq_nil_or_concat ys with rfl | ⟨ys, y, rfl⟩
    · rfl
    · rw [concat_eq_append] at hys
      rw [concat_eq_append, extend_append] at h
      exact absurd (hfree _ hstart _ (hlast hys) h).symm (hseed _ _)
  | append_singleton xs x ih =>
    rcases eq_nil_or_concat ys with rfl | ⟨ys, y, rfl⟩
    · rw [extend_append] at h
      exact absurd (hfree _ (hlast hxs) _ hstart h) (hseed _ _)
    · rw [concat_eq_append] at hys hoky ⊢
      rw [concat_eq_append, extend_append, extend_append] at h
      obtain ⟨hdigest, rfl⟩ := hinput _ _ _ _ (hokx x (mem_append_right _ mem_cons_self))
        (hoky y (mem_append_right _ mem_cons_self)) (hfree _ (hlast hxs) _ (hlast hys) h)
      rw [append_assoc] at hxs hys
      rw [ih hxs hys (fun x hx => hokx x (mem_append_left _ hx))
        (fun y hy => hoky y (mem_append_left _ hy)) hdigest]

end HashChain
