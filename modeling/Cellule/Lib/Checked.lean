import Cellule.Lib.Except

/-!
# Code whose indexing and arithmetic are checked

Code that aborts on an index outside a buffer and on arithmetic that leaves its type, beside the
errors it returns. A development with a plain model of the same code shows that the two agree: the
checks then never fail.

`Emits` is the rule for code that fills a buffer of fixed size behind a cursor: what it writes goes
behind what was written before, as long as there is room.
-/

namespace Checked

open Except List

variable {ε α β : Type}

/-- How code ends that does not return a result. -/
inductive Fault (ε : Type) where
  /-- The code returned this error. -/
  | failed (e : ε)
  | outOfBounds
  | overflow
  deriving DecidableEq

/-- Code with checks. -/
abbrev Code (ε α : Type) := Except (Fault ε) α

/-- Code without indexing or arithmetic of its own. -/
def lift (x : Except ε α) : Code ε α := x.mapError .failed

@[simp] theorem lift_ok (a : α) : lift (.ok a : Except ε α) = .ok a := rfl

theorem lift_eq_ok : lift x = .ok a ↔ x = .ok a := mapError_eq_ok

/-! ## Arithmetic -/

/-- `a - b` of unsigned integers. -/
def sub (a b : Nat) : Code ε Nat := if b ≤ a then .ok (a - b) else .error .overflow

variable {a b i : Nat} {xs out : List α} {f : List α → Nat → Code ε (List α × Nat)}

theorem sub_of_le (h : b ≤ a) : (sub a b : Code ε Nat) = .ok (a - b) := if_pos h

theorem sub_eq_ok : (sub a b : Code ε Nat) = .ok c ↔ b ≤ a ∧ c = a - b := by
  unfold sub
  split
  · next h => simp only [ok.injEq, h, true_and, eq_comm]
  · next h => simp only [reduceCtorEq, h, false_and]

/-! ## Indexing -/

/-- An index into a buffer of `length` elements. -/
def bound (i length : Nat) : Code ε Unit := reject (decide (length ≤ i)) .outOfBounds

/-- `xs[i]`. -/
def get (xs : List α) (i : Nat) : Code ε α := Except.okOr xs[i]? .outOfBounds

/-- `&xs[lo..hi]`. -/
def slice (xs : List α) (lo hi : Nat) : Code ε (List α) :=
  if lo ≤ hi ∧ hi ≤ xs.length then .ok ((xs.drop lo).take (hi - lo)) else .error .outOfBounds

/-- `xs[i] = f(xs[i])`. -/
def modify (xs : List α) (i : Nat) (f : α → α) : Code ε (List α) :=
  if i < xs.length then .ok (xs.modify i f) else .error .outOfBounds

/-- `xs[i..i + ys.len()].copy_from_slice(ys)`. -/
def copyAt (xs : List α) (i : Nat) (ys : List α) : Code ε (List α) :=
  if i + ys.length ≤ xs.length then .ok (xs.take i ++ (ys ++ xs.drop (i + ys.length)))
  else .error .outOfBounds

theorem bound_of_lt {length : Nat} (h : i < length) : (bound i length : Code ε Unit) = .ok () := by
  rw [bound, decide_eq_false (by omega), reject_false]

theorem get_of_lt (h : i < xs.length) (d : α) : (get xs i : Code ε α) = .ok (xs.getD i d) := by
  rw [get, getElem?_eq_getElem h, getD_eq_getElem _ _ h]
  rfl

theorem get_eq_ok {a : α} (d : α) (h : (get xs i : Code ε α) = .ok a) : a = xs.getD i d := by
  rw [get, okOr_eq_ok] at h
  rw [getD_eq_getElem?_getD, h]
  rfl

theorem slice_of_le (h : lo ≤ hi) (hhi : hi ≤ xs.length) :
    (slice xs lo hi : Code ε (List α)) = .ok ((xs.drop lo).take (hi - lo)) := if_pos ⟨h, hhi⟩

/-! ## Writing behind a cursor -/

/-- Code on a buffer and a cursor writes `out` at the cursor when there is room, and moves the
cursor behind it. -/
def Emits (f : List α → Nat → Code ε (List α × Nat)) (out : List α) : Prop :=
  ∀ written room, out.length ≤ room.length →
    f (written ++ room) written.length
      = .ok (written ++ out ++ room.drop out.length, written.length + out.length)

/-- A write of one element. -/
theorem modify_append (written : List α) (a : α) (room : List α) (f : α → α) :
    (modify (written ++ a :: room) written.length f : Code ε (List α))
      = .ok (written ++ f a :: room) := by
  have hmodify : (written ++ a :: room).modify written.length f = written ++ f a :: room := by
    induction written with
    | nil => rfl
    | cons b written ih => exact congrArg (b :: ·) ih
  rw [modify, if_pos (by simp), hmodify]

/-- A write of a row. -/
theorem copyAt_append (h : ys.length ≤ room.length) (written : List α) :
    (copyAt (written ++ room) written.length ys : Code ε (List α))
      = .ok (written ++ ys ++ room.drop ys.length) := by
  rw [copyAt, if_pos (by rw [length_append]; omega), take_left', drop_append, append_assoc]
  · simp
  · rfl

/-- Code that writes nothing. -/
theorem Emits.nil : Emits (fun dst di => (.ok (dst, di) : Code ε (List α × Nat))) [] := by
  intro written room _
  simp

/-- What follows one element. -/
theorem Emits.behind (hf : Emits f out) (written : List α) (a : α) (h : out.length ≤ room.length) :
    f (written ++ a :: room) (written.length + 1)
      = .ok (written ++ a :: out ++ room.drop out.length, written.length + (out.length + 1)) := by
  have := hf (written ++ [a]) room h
  simp only [append_assoc, singleton_append, length_append, length_singleton,
    Nat.add_assoc, Nat.add_comm 1] at this
  rw [this, append_assoc, cons_append]

/-- `dst[di] = a; di += 1`, and more. -/
theorem Emits.cons (hf : Emits f out) (a : α) : Emits (fun dst di => do
      let dst ← modify dst di fun _ => a
      f dst (di + 1)) (a :: out) := by
  rintro written (_ | ⟨b, room⟩) h
  · cases h
  · dsimp only
    rw [modify_append, ok_bind, hf.behind written a (by simpa using h)]
    rfl

/-- `dst[di..di + ys.len()].copy_from_slice(ys); di += ys.len()`, and more. -/
theorem Emits.append (hf : Emits f out) (ys : List α) : Emits (fun dst di => do
      let dst ← copyAt dst di ys
      f dst (di + ys.length)) (ys ++ out) := by
  intro written room h
  rw [length_append] at h
  have hroom : out.length ≤ (room.drop ys.length).length := by
    rw [length_drop]
    omega
  have hnext := hf (written ++ ys) (room.drop ys.length) hroom
  rw [length_append] at hnext
  dsimp only
  rw [copyAt_append (by omega), ok_bind, hnext, drop_drop, length_append,
    append_assoc written, Nat.add_assoc]

/-- One write after the other. -/
theorem Emits.seq {a b : List α} (hf : Emits f a)
    (hg : Emits g b) : Emits (fun dst di => f dst di >>= fun r => g r.1 r.2) (a ++ b) := by
  intro written room h
  rw [length_append] at h
  have hroom : b.length ≤ (room.drop a.length).length := by
    rw [length_drop]
    omega
  dsimp only
  rw [hf written room (by omega), ok_bind]
  have hnext := hg (written ++ a) (room.drop a.length) hroom
  rw [length_append] at hnext
  rw [hnext, drop_drop, length_append, append_assoc written a b, Nat.add_assoc]

end Checked
