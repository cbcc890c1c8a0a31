import Mathlib.Control.Monad.Basic

/-!
# Programs that fail and keep their state

A call that changes a state step by step and fails in the middle leaves the changes it made. Such a
call is a program in `Stateful ε σ`. What it does from a state is computed by the lemmas on
`outcome`, or said by `Ends`: it returns, in a state that satisfies the postcondition of the result,
or fails in a state that satisfies another one. The rules take a program apart, a loop by an
invariant on the elements it has gone through (`Ends.forM`).
-/

/-- A program over a state that keeps the state when it fails. -/
abbrev Stateful (ε σ α : Type) : Type := ExceptT ε (StateM σ) α

namespace Stateful

open List

variable {ε σ α β : Type}

/-- The outcome of a program and the state it leaves. -/
def outcome (m : Stateful ε σ α) (s : σ) : Except ε α × σ := m.run s

/-- A state that the program looks at. -/
def look : Stateful ε σ σ := fun s => (.ok s, s)

/-- A change of the state. -/
def change (f : σ → σ) : Stateful ε σ Unit := fun s => (.ok (), f s)

/-- A failure. -/
def fail (e : ε) : Stateful ε σ α := fun s => (.error e, s)

/-- A computation that does not look at the state. -/
def lift (x : Except ε α) : Stateful ε σ α := fun s => (x, s)

/-- A failure under a condition. -/
def rejectWhen (bad : Bool) (e : ε) : Stateful ε σ Unit := if bad then fail e else pure ()

/-- Runs a program and hands its failure on as a value. -/
def attempt (m : Stateful ε σ α) : Stateful ε σ (Except ε α) := fun s =>
  (.ok (m.outcome s).1, (m.outcome s).2)

/-- Runs a program on a part of the state. -/
def within {τ : Type} (part : σ → τ) (put : σ → τ → σ) (m : Stateful ε τ α) :
    Stateful ε σ α := fun s =>
  ((m.outcome (part s)).1, put s (m.outcome (part s)).2)

/-! ## Outcomes -/

theorem outcome_bind (m : Stateful ε σ β) (f : β → Stateful ε σ α) (s : σ) :
    (m >>= f).outcome s = match m.outcome s with
      | (.ok b, s') => (f b).outcome s'
      | (.error e, s') => (.error e, s') := by
  have hbind : (m >>= f).outcome s
      = match m.outcome s with | (x, s') => (ExceptT.bindCont f x : StateM σ _) s' := rfl
  rw [hbind]
  rcases m.outcome s with ⟨x, s'⟩
  cases x <;> rfl

theorem outcome_look_bind (f : σ → Stateful ε σ α) (s : σ) :
    (look >>= f).outcome s = (f s).outcome s := rfl

theorem outcome_change_bind (g : σ → σ) (f : Unit → Stateful ε σ α) (s : σ) :
    (change g >>= f).outcome s = (f ()).outcome (g s) := rfl

theorem outcome_attempt_bind (m : Stateful ε σ β) (f : Except ε β → Stateful ε σ α) (s : σ) :
    (attempt m >>= f).outcome s = (f (m.outcome s).1).outcome (m.outcome s).2 := rfl

theorem outcome_pure (a : α) (s : σ) : (pure a : Stateful ε σ α).outcome s = (.ok a, s) := rfl

theorem outcome_rejectWhen_bind (bad : Bool) (e : ε) (f : Unit → Stateful ε σ α) (s : σ) :
    (rejectWhen bad e >>= f).outcome s = if bad then (.error e, s) else (f ()).outcome s := by
  cases bad <;> rfl

theorem outcome_lift_bind (x : Except ε β) (f : β → Stateful ε σ α) (s : σ) :
    (lift x >>= f).outcome s = match x with
      | .ok b => (f b).outcome s
      | .error e => (.error e, s) := by
  cases x <;> rfl

variable {bad : Bool} {e : ε} {a : α} {x : Except ε β} {f : β → Stateful ε σ α} {γ : Type}
  {I : List γ → σ → Prop} {xs : List γ}

/-- A condition that did not fail. -/
theorem outcome_rejectWhen_bind_ok {f : Unit → Stateful ε σ α} {s s' : σ} :
    (rejectWhen bad e >>= f).outcome s = (.ok a, s') ↔
      bad = false ∧ (f ()).outcome s = (.ok a, s') := by
  rw [outcome_rejectWhen_bind]
  cases bad <;> simp

/-- A computation on the side that succeeded. -/
theorem outcome_lift_bind_ok {s s' : σ} :
    (lift x >>= f).outcome s = (.ok a, s') ↔ ∃ b, x = .ok b ∧ (f b).outcome s = (.ok a, s') := by
  rw [outcome_lift_bind]
  cases x <;> simp

/-- A condition failed and nothing changed, or the program went on. -/
theorem outcome_rejectWhen_bind_cases {f : Unit → Stateful ε σ α} {s s' : σ} {r : Except ε α}
    (h : (rejectWhen bad e >>= f).outcome s = (r, s')) :
    (s' = s ∧ r = .error e) ∨ bad = false ∧ (f ()).outcome s = (r, s') := by
  cases bad with
  | true => exact .inl ⟨(Prod.mk.inj h).2.symm, (Prod.mk.inj h).1.symm⟩
  | false => exact .inr ⟨rfl, h⟩

/-- A computation on the side failed and nothing changed, or the program went on with its value. -/
theorem outcome_lift_bind_cases {s s' : σ} {r : Except ε α}
    (h : (lift x >>= f).outcome s = (r, s')) :
    (s' = s ∧ ∃ e, r = .error e) ∨ ∃ b, x = .ok b ∧ (f b).outcome s = (r, s') := by
  cases x with
  | error e => exact .inl ⟨(Prod.mk.inj h).2.symm, e, (Prod.mk.inj h).1.symm⟩
  | ok b => exact .inr ⟨b, rfl, h⟩

/-! ## Postconditions -/

/-- What a program does from a state. -/
def Ends (m : Stateful ε σ α) (s : σ) (post : α → σ → Prop) (failed : σ → Prop) : Prop :=
  match m.outcome s with
  | (.ok a, s') => post a s'
  | (.error _, s') => failed s'

variable {m : Stateful ε σ α} {s s' : σ} {post : α → σ → Prop} {failed : σ → Prop}

theorem Ends.intro (hok : ∀ a s', m.outcome s = (.ok a, s') → post a s')
    (herror : ∀ e s', m.outcome s = (.error e, s') → failed s') : m.Ends s post failed := by
  unfold Ends
  rcases hm : m.outcome s with ⟨x, s'⟩
  cases x with
  | ok a => exact hok a s' hm
  | error e => exact herror e s' hm

theorem Ends.ok (h : m.Ends s post failed) (hm : m.outcome s = (.ok a, s')) : post a s' := by
  unfold Ends at h
  rwa [hm] at h

theorem Ends.error (h : m.Ends s post failed) (hm : m.outcome s = (.error e, s')) : failed s' := by
  unfold Ends at h
  rwa [hm] at h

/-- What holds however the program ends holds of the state it leaves. -/
theorem Ends.always {inv : σ → Prop} (h : m.Ends s (fun _ => inv) inv) : inv (m.outcome s).2 := by
  unfold Ends at h
  rcases hm : m.outcome s with ⟨x, s'⟩
  rw [hm] at h
  cases x <;> exact h

/-- Weaker postconditions. -/
theorem Ends.mono {post' : α → σ → Prop} {failed' : σ → Prop} (h : m.Ends s post failed)
    (hpost : ∀ a s', post a s' → post' a s') (hfailed : ∀ s', failed s' → failed' s') :
    m.Ends s post' failed' := by
  unfold Ends at h ⊢
  generalize m.outcome s = x at h ⊢
  rcases x with ⟨x, s'⟩
  cases x with
  | error e => exact hfailed s' h
  | ok a => exact hpost a s' h

/-! ## Rules -/

@[simp] theorem ends_pure : (pure a : Stateful ε σ α).Ends s post failed ↔ post a s := Iff.rfl

@[simp] theorem ends_fail :
    (fail e : Stateful ε σ α).Ends s post failed ↔ failed s := Iff.rfl

@[simp] theorem ends_look {post : σ → σ → Prop} :
    (look : Stateful ε σ σ).Ends s post failed ↔ post s s := Iff.rfl

@[simp] theorem ends_change {f : σ → σ} {post : Unit → σ → Prop} :
    (change f : Stateful ε σ Unit).Ends s post failed ↔ post () (f s) := Iff.rfl

theorem ends_bind {m : Stateful ε σ β} :
    (m >>= f).Ends s post failed ↔ m.Ends s (fun b s' => (f b).Ends s' post failed) failed := by
  unfold Ends
  rw [outcome_bind]
  rcases m.outcome s with ⟨x, s'⟩
  cases x <;> rfl

/-- A program whose result is handed on through a function. -/
theorem ends_map {g : α → β} {post : β → σ → Prop} (h : m.Ends s (fun a => post (g a)) failed) :
    (g <$> m).Ends s post failed := by
  rw [← bind_pure_comp]
  exact ends_bind.2 h

theorem ends_rejectWhen {post : Unit → σ → Prop} :
    (rejectWhen bad e : Stateful ε σ Unit).Ends s post failed ↔
      (bad = true → failed s) ∧ (bad = false → post () s) := by
  cases bad <;> simp [rejectWhen]

/-- A computation on the side. -/
theorem Ends.lift {x : Except ε α} (hok : ∀ a, x = .ok a → post a s) (herr : failed s) :
    (Stateful.lift x : Stateful ε σ α).Ends s post failed := by
  cases x with
  | error e => exact herr
  | ok a => exact hok a rfl

/-- A program that goes on with the value of a computation on the side. -/
theorem Ends.lift_bind (hok : ∀ b, x = .ok b → (f b).Ends s post failed) (herr : failed s) :
    (Stateful.lift x >>= f).Ends s post failed := ends_bind.2 (.lift hok herr)

/-- A program that goes on when a condition does not fail. -/
theorem Ends.reject_bind {f : Unit → Stateful ε σ α} (hbad : bad = true → failed s)
    (hgood : bad = false → (f ()).Ends s post failed) :
    (rejectWhen bad e >>= f).Ends s post failed := ends_bind.2 (ends_rejectWhen.2 ⟨hbad, hgood⟩)

/-- A program that goes on with the state it looked at. -/
theorem Ends.look_bind {f : σ → Stateful ε σ α} (h : (f s).Ends s post failed) :
    (look >>= f).Ends s post failed := ends_bind.2 (ends_look.2 h)

/-- A program on a part of the state. -/
theorem Ends.within {τ : Type} {part : σ → τ} {put : σ → τ → σ} {m : Stateful ε τ α}
    (h : m.Ends (part s) (fun a t => post a (put s t)) fun t => failed (put s t)) :
    (Stateful.within part put m).Ends s post failed := by
  refine .intro (fun a s' hrun => ?_) fun e s' hrun => ?_
  · obtain ⟨ha, rfl⟩ := Prod.mk.inj hrun
    exact h.ok (Prod.ext ha rfl)
  · obtain ⟨he, rfl⟩ := Prod.mk.inj hrun
    exact h.error (Prod.ext he rfl)

theorem Ends.forM_split_append {f : γ → Stateful ε σ Unit} {done : List γ}
    (hstep : ∀ before x rest s, done ++ xs = before ++ x :: rest → I before s →
      (f x).Ends s (fun _ => I (before ++ [x])) failed)
    (hs : I done s) : (xs.forM f).Ends s (fun _ => I (done ++ xs)) failed := by
  induction xs generalizing done s with
  | nil =>
    rw [append_nil]
    exact ends_pure.2 hs
  | cons x xs ih =>
    rw [forM_eq_forM, forM_cons, ends_bind]
    refine (hstep done x xs s rfl hs).mono (fun _ s' hs' => ?_) fun _ h => h
    have hrest := ih (fun before y rest s heq =>
      hstep before y rest s (by rw [← heq, append_assoc]; rfl)) hs'
    rwa [append_assoc] at hrest

/-- A loop, with an invariant on the elements it has gone through and those that follow. -/
theorem Ends.forM_split {f : γ → Stateful ε σ Unit}
    (hstep : ∀ before x rest s, xs = before ++ x :: rest → I before s →
      (f x).Ends s (fun _ => I (before ++ [x])) failed)
    (hs : I [] s) : (xs.forM f).Ends s (fun _ => I xs) failed := by
  have h : (xs.forM f).Ends s (fun _ => I ([] ++ xs)) failed := Ends.forM_split_append hstep hs
  rwa [nil_append] at h

/-- A loop, with an invariant on the elements it has gone through. -/
theorem Ends.forM {f : γ → Stateful ε σ Unit}
    (hstep : ∀ done x s, x ∈ xs → I done s → (f x).Ends s (fun _ => I (done ++ [x])) failed)
    (hs : I [] s) : (xs.forM f).Ends s (fun _ => I xs) failed := by
  refine .forM_split (fun before x rest s hxs => hstep before x s ?_) hs
  rw [hxs]
  exact mem_append_right _ mem_cons_self

/-! ## Invariants -/

/-- A program that keeps an invariant however it ends. -/
def Keeps (m : Stateful ε σ α) (inv : σ → Prop) : Prop := ∀ s, inv s → inv (m.outcome s).2

variable {inv : σ → Prop}

theorem Keeps.of_outcome {r : Except ε α} (h : m.Keeps inv) (hm : m.outcome s = (r, s'))
    (hs : inv s) :
    inv s' := by
  have hleft := h s hs
  rwa [hm] at hleft

theorem Keeps.bind {m : Stateful ε σ β} (hm : m.Keeps inv) (hf : ∀ b, (f b).Keeps inv) :
    (m >>= f).Keeps inv := by
  intro s hs
  rw [outcome_bind]
  split
  · next b s' hb => exact hf b s' (hm.of_outcome hb hs)
  · next e s' he => exact hm.of_outcome he hs

theorem keeps_pure : (pure a : Stateful ε σ α).Keeps inv := fun _ hs => hs

theorem keeps_look : (look : Stateful ε σ σ).Keeps inv := fun _ hs => hs

theorem keeps_lift : (lift x : Stateful ε σ β).Keeps inv := by
  cases x <;> exact fun _ hs => hs

theorem keeps_rejectWhen : (rejectWhen bad e : Stateful ε σ Unit).Keeps inv := by
  cases bad <;> exact fun _ hs => hs

end Stateful
