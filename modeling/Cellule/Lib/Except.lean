import Mathlib

/-!
# Fallible code as a sequence of refusals

A validating function is a list of checks, each with its own error, followed by a result. `reject`
is one such check, and the lemmas below peel a computation that succeeded into what every check of
it said, so that a caller never unfolds the callee's `do` block.
-/

namespace Except

open List

variable {ε α β : Type}

/-- Fails with `e` when the condition `bad` holds. -/
def reject (bad : Bool) (e : ε) : Except ε Unit :=
  if bad then .error e else .ok ()

@[simp] theorem reject_false (e : ε) : reject false e = .ok () := rfl

@[simp] theorem reject_true (e : ε) : reject true e = .error e := rfl

variable {bad : Bool} {e : ε} {x : Except ε α} {f : α → Except ε β} {b : β} {γ : Type} {xs : List α}

/-- A check passes exactly when its condition does not hold. -/
@[simp] theorem reject_eq_ok : reject bad e = .ok u ↔ bad = false := by
  cases bad <;> simp

/-- What a successful sequence did: its first part succeeded, and so did the rest on its result. -/
theorem bind_eq_ok : x >>= f = .ok b ↔ ∃ a, x = .ok a ∧ f a = .ok b := by
  cases x with
  | error e => simp [bind, Except.bind]
  | ok a => simp [bind, Except.bind]

theorem exists_ok (h : x.isOk = true) : ∃ a, x = .ok a := by
  cases x with
  | error e => cases h
  | ok a => exact ⟨a, rfl⟩

/-- Two successful sequences with the same first part go on with the same result. -/
theorem bind_both_eq_ok (h : x >>= f = .ok b) (h' : x >>= g = .ok c) :
    ∃ a, f a = .ok b ∧ g a = .ok c := by
  obtain ⟨a, rfl, ha⟩ := bind_eq_ok.1 h
  exact ⟨a, ha, h'⟩

/-- A check followed by more code succeeds when the check passes and the rest succeeds. -/
@[simp] theorem reject_bind_eq_ok {f : Unit → Except ε β} :
    reject bad e >>= f = .ok b ↔ bad = false ∧ f () = .ok b := by
  cases bad <;> simp [bind, Except.bind]

theorem reject_eq_error : reject bad e = .error e' ↔ bad = true ∧ e = e' := by
  cases bad <;> simp

/-- Where a failed sequence failed. -/
theorem bind_eq_error : x >>= f = .error e ↔ x = .error e ∨ ∃ a, x = .ok a ∧ f a = .error e := by
  cases x with
  | error e' => simp [bind, Except.bind]
  | ok a => simp [bind, Except.bind]

@[simp] theorem ok_bind (a : α) (f : α → Except ε β) : (.ok a : Except ε α) >>= f = f a := rfl

@[simp] theorem error_bind (e : ε) (f : α → Except ε β) :
    (.error e : Except ε α) >>= f = .error e := rfl

/-- Two sequences with the same first part, the rest of one being an image of the rest of the
other. -/
theorem bind_eq_map (h : ∀ a, g a = (f a).map k) : x >>= g = (x >>= f).map k := by
  cases x with
  | error e => rfl
  | ok a => exact h a

/-- Two sequences that keep being images of each other. -/
theorem map_bind_eq_map (h : ∀ a, g (j a) = (f a).map k) : x.map j >>= g = (x >>= f).map k := by
  cases x with
  | error e => rfl
  | ok a => exact h a

theorem map_eq_ok {f : α → β} : x.map f = .ok b ↔ ∃ a, x = .ok a ∧ f a = b := by
  cases x with
  | error e => simp [Except.map]
  | ok a => simp [Except.map]

theorem mapError_eq_ok {f : ε → ε'} : x.mapError f = .ok a ↔ x = .ok a := by
  cases x with
  | error e => simp [Except.mapError]
  | ok b => simp [Except.mapError]

/-- The value of an option, or the error `e` when it has none. -/
def okOr (o : Option α) (e : ε) : Except ε α :=
  match o with
  | some a => .ok a
  | none => .error e

@[simp] theorem okOr_eq_ok : okOr o e = .ok a ↔ o = some a := by
  cases o <;> simp [okOr]

/-- A loop of checks over a list passes when each check does. -/
theorem forM_eq_ok {f : α → Except ε Unit} : xs.forM f = .ok u ↔ ∀ x ∈ xs, f x = .ok () := by
  induction xs with
  | nil => simp [pure, Except.pure]
  | cons x xs ih =>
    have hcons : (x :: xs).forM f = f x >>= fun _ => xs.forM f := rfl
    rw [hcons, forall_mem_cons]
    cases hx : f x with
    | error e => simp
    | ok u => rw [ok_bind, ih]; simp

/-- A loop of checks over a list, followed by more code, succeeds when each check passes and the
rest succeeds. -/
@[simp] theorem forM_bind_eq_ok {f : α → Except ε Unit} :
    xs.forM f >>= k = .ok b ↔ (∀ x ∈ xs, f x = .ok ()) ∧ k () = .ok b := by
  rw [bind_eq_ok]
  constructor
  · rintro ⟨u, hu, hk⟩
    exact ⟨forM_eq_ok.1 hu, hk⟩
  · rintro ⟨hu, hk⟩
    exact ⟨(), forM_eq_ok.2 hu, hk⟩

/-- The run rule of a loop: what every step keeps, as a property of the elements done so far, holds
when the loop has succeeded. -/
theorem foldlM_ok {σ : Type} {f : σ → α → Except ε σ} {P : List α → σ → Prop}
    (hstep : ∀ done x s s', P done s → f s x = .ok s' → P (done ++ [x]) s')
    {s s' : σ} (h : P done s) (hok : xs.foldlM f s = .ok s') : P (done ++ xs) s' := by
  induction xs generalizing done s with
  | nil =>
    cases hok
    rw [append_nil]
    exact h
  | cons x xs ih =>
    rw [foldlM_cons, bind_eq_ok] at hok
    obtain ⟨s₁, hx, hxs⟩ := hok
    have := ih (hstep done x s s₁ h hx) hxs
    rwa [append_assoc, singleton_append] at this

/-- A loop that collects results succeeds when every call does. -/
theorem mapM_eq_ok : xs.mapM f = .ok ys ↔ List.Forall₂ (fun x y => f x = .ok y) xs ys := by
  induction xs generalizing ys with
  | nil =>
    rw [mapM_nil, forall₂_nil_left_iff]
    constructor
    · rintro ⟨⟩
      rfl
    · rintro rfl
      rfl
  | cons x xs ih =>
    rw [mapM_cons, forall₂_cons_left_iff, bind_eq_ok]
    constructor
    · rintro ⟨y, hy, h⟩
      obtain ⟨zs, hzs, h⟩ := bind_eq_ok.1 h
      cases h
      exact ⟨y, zs, hy, ih.1 hzs, rfl⟩
    · rintro ⟨y, zs, hy, hzs, rfl⟩
      exact ⟨y, hy, bind_eq_ok.2 ⟨zs, ih.2 hzs, rfl⟩⟩

/-! ## Computations that agree -/

/-- Two computations that fail alike, or both succeed with related results. -/
inductive Agree (R : α → β → Prop) : Except ε α → Except ε β → Prop
  | error (e : ε) : Agree R (.error e) (.error e)
  | ok {a : α} {b : β} (h : R a b) : Agree R (.ok a) (.ok b)

namespace Agree

variable {α' β' : Type} {R : α → β → Prop} {S : α' → β' → Prop}

/-- Agreeing computations followed by agreeing ones. -/
theorem bind {f : α → Except ε α'} (h : Agree R x y)
    (hfg : ∀ a b, R a b → Agree S (f a) (g b)) : Agree S (x >>= f) (y >>= g) := by
  cases h with
  | error e => exact .error e
  | ok h => exact hfg _ _ h

/-- One computation followed by agreeing ones. -/
theorem bind_same {f : α → Except ε α'}
    (hfg : ∀ a, x = .ok a → Agree S (f a) (g a)) : Agree S (x >>= f) (x >>= g) := by
  cases x with
  | error e => exact .error e
  | ok a => exact hfg a rfl

/-- Loops whose steps agree, with a relation that may depend on the elements done so far. -/
theorem foldlM {T : List γ → α → β → Prop} {f : α → γ → Except ε α}
    (hstep : ∀ done x a b, T done a b → Agree (T (done ++ [x])) (f a x) (g b x)) {xs : List γ} :
    ∀ {done : List γ} {a : α} {b : β}, T done a b →
      Agree (T (done ++ xs)) (xs.foldlM f a) (xs.foldlM g b) := by
  induction xs with
  | nil =>
    intro done a b h
    rw [append_nil]
    exact .ok h
  | cons x xs ih =>
    intro done a b h
    rw [foldlM_cons, foldlM_cons]
    refine bind (hstep done x a b h) fun a' b' h' => ?_
    rw [show done ++ x :: xs = (done ++ [x]) ++ xs by simp]
    exact ih h'

end Agree

end Except
