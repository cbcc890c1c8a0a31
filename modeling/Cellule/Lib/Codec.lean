import Mathlib

/-!
# Printers that read back

Every countable type has a printer and a reader of what it prints. A few chosen values are printed
as short strings of zeros, so that a run on these values can be evaluated.
-/

instance instCountableChar : Countable Char :=
  Function.Injective.countable (f := Char.toNat) fun _ _ h => Char.toNat_inj.1 h

instance instCountableString : Countable String :=
  Function.Injective.countable (f := String.toList) fun _ _ h => String.toList_inj.1 h

namespace Codec

open List

variable {α : Type} [DecidableEq α] [Countable α]

/-- A chosen value by its place among them, any other by its number. -/
noncomputable def print (short : List α) (a : α) : List UInt8 :=
  if a ∈ short then List.replicate (short.idxOf a) 0
  else 1 :: List.replicate (Classical.choose (Countable.exists_injective_nat α) a) 0

/-- The chosen value that was printed, if it was one. -/
def readShort (short : List α) (bytes : List UInt8) : Option α :=
  if bytes.all (· == 0) then short[bytes.length]? else none

theorem readShort_print {a : α} (h : a ∈ short) : readShort short (print short a) = some a := by
  have hlt : short.idxOf a < short.length := idxOf_lt_length_iff.2 h
  simp only [print, if_pos h, readShort, all_replicate, length_replicate]
  rw [if_pos (by simp), getElem?_eq_getElem hlt, getElem_idxOf]

theorem readShort_print_of_not_mem {a : α} (h : a ∉ short) :
    readShort short (print short a) = none := by
  simp [print, if_neg h, readShort]

theorem print_injOn {a b : α} (ha : a ∉ short) (hb : b ∉ short)
    (h : print short a = print short b) : a = b := by
  have hlength := congrArg List.length h
  simp only [print, if_neg ha, if_neg hb, length_cons, length_replicate,
    Nat.add_right_cancel_iff] at hlength
  exact Classical.choose_spec (Countable.exists_injective_nat α) hlength

open Classical in
/-- The value that was printed, if there is one. -/
noncomputable def read (short : List α) (bytes : List UInt8) : Option α :=
  match readShort short bytes with
  | some a => some a
  | none => if h : ∃ a, a ∉ short ∧ print short a = bytes then some h.choose else none

theorem read_print (short : List α) (a : α) : read short (print short a) = some a := by
  unfold read
  by_cases ha : a ∈ short
  · rw [readShort_print ha]
  · have hex : ∃ b, b ∉ short ∧ print short b = print short a := ⟨a, ha, rfl⟩
    rw [readShort_print_of_not_mem ha]
    simp only [dif_pos hex]
    exact congrArg some (print_injOn hex.choose_spec.1 ha hex.choose_spec.2)

end Codec
