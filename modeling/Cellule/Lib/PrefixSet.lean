import Mathlib

/-!
# A growing set of numbers as a completed initial run and the rest

A set of positive numbers that fills up out of order, kept as the length of its completed initial
run `1, …, through` and the finite set of its members beyond. `Represents` is the meaning of that
pair; `advance` moves finished members into the run and restores it (`represents_advance`).
-/

namespace PrefixSet

variable {limit through : Nat} {above : Finset Nat} {U : Set Nat}

/-- The pair holds the members of `U`: a run that is part of it, and the members beyond the run. -/
structure Holds (through : Nat) (above : Finset Nat) (U : Set Nat) : Prop where
  run : ∀ s, 1 ≤ s → s ≤ through → s ∈ U
  rest : ∀ s, s ∈ above ↔ s ∈ U ∧ through < s

/-- The pair holds the members of `U`, and the run cannot be longer. -/
structure Represents (through : Nat) (above : Finset Nat) (U : Set Nat) : Prop
    extends Holds through above U where
  next : through + 1 ∉ U

/-- Moves the members that continue the run into it; numbers stop at `limit`. A member is removed
in each round, so the number of members is enough fuel. -/
def advance (limit : Nat) : Nat → Nat → Finset Nat → Nat × Finset Nat
  | 0, through, above => (through, above)
  | fuel + 1, through, above =>
    if through + 1 ≤ limit ∧ through + 1 ∈ above then
      advance limit fuel (through + 1) (above.erase (through + 1))
    else (through, above)

/-- The empty set. -/
theorem represents_empty : Represents 0 ∅ (∅ : Set Nat) :=
  ⟨⟨fun s hs hs' => by omega, fun s => by simp⟩, by simp⟩

/-- New members beyond the run are added to the rest. -/
theorem Holds.add (h : Holds through above U)
    (hadd : ∀ s, s ∈ above' ↔ s ∈ above ∨ through < s ∧ s ∈ V) : Holds through above' (U ∪ V) := by
  refine ⟨fun s h1 h2 => Or.inl (h.run s h1 h2), fun s => ?_⟩
  rw [hadd, h.rest]
  constructor
  · rintro (⟨hU, hlt⟩ | ⟨hlt, hV⟩)
    · exact ⟨Or.inl hU, hlt⟩
    · exact ⟨Or.inr hV, hlt⟩
  · rintro ⟨hU | hV, hlt⟩
    · exact Or.inl ⟨hU, hlt⟩
    · exact Or.inr ⟨hlt, hV⟩

/-- A member that continues the run is moved into it. -/
theorem Holds.step (h : Holds through above U) (hs : through + 1 ∈ above) :
    Holds (through + 1) (above.erase (through + 1)) U := by
  refine ⟨fun s h1 h2 => ?_, fun s => ?_⟩
  · rcases Nat.lt_or_ge through s with hlt | hge
    · have : s = through + 1 := by omega
      rw [this]
      exact ((h.rest _).1 hs).1
    · exact h.run s h1 hge
  · rw [Finset.mem_erase, h.rest]
    constructor
    · rintro ⟨hne, hU, hlt⟩
      exact ⟨hU, by omega⟩
    · rintro ⟨hU, hlt⟩
      exact ⟨by omega, hU, by omega⟩

/-- Advancing as far as the members go makes the run as long as it can be. -/
theorem represents_advance (h : Holds through above U) (hlimit : ∀ s ∈ U, s ≤ limit)
    (hfuel : above.card ≤ fuel) :
    Represents (advance limit fuel through above).1 (advance limit fuel through above).2 U := by
  induction fuel generalizing through above with
  | zero =>
    refine ⟨h, fun hn => ?_⟩
    have hmem : through + 1 ∈ above := (h.rest _).2 ⟨hn, by omega⟩
    rw [Finset.card_eq_zero.1 (Nat.le_zero.1 hfuel)] at hmem
    exact absurd hmem (Finset.notMem_empty _)
  | succ fuel ih =>
    unfold advance
    split
    · next hc =>
      refine ih (h.step hc.2) ?_
      rw [Finset.card_erase_of_mem hc.2]
      omega
    · next hc =>
      refine ⟨h, fun hn => hc ⟨hlimit _ hn, (h.rest _).2 ⟨hn, by omega⟩⟩⟩

/-- The run is the longest one in the set. -/
theorem Represents.isGreatest (h : Represents through above U) :
    IsGreatest {n | ∀ s, 1 ≤ s → s ≤ n → s ∈ U} through := by
  refine ⟨h.run, fun n hn => ?_⟩
  by_contra hlt
  exact h.next (hn (through + 1) (by omega) (by omega))

/-- A set is held by one pair. -/
theorem Represents.unique (h : Represents through above U)
    (h' : Represents through' above' U) : through = through' ∧ above = above' := by
  have heq : through = through' := h.isGreatest.unique h'.isGreatest
  refine ⟨heq, Finset.ext fun s => ?_⟩
  rw [h.rest, h'.rest, heq]

/-- The end of the run that `member` continues. -/
def reach (limit : Nat) (member : Nat → Bool) : Nat → Nat → Nat
  | 0, through => through
  | fuel + 1, through =>
    if through + 1 ≤ limit ∧ member (through + 1) then reach limit member fuel (through + 1)
    else through

/-- The run can be found without moving the members into it. -/
theorem reach_eq_advance (h : ∀ s, through < s → (member s = true ↔ s ∈ above)) :
    reach limit member fuel through = (advance limit fuel through above).1 := by
  induction fuel generalizing through above with
  | zero => rfl
  | succ fuel ih =>
    simp only [reach, advance, h _ (Nat.lt_succ_self through)]
    split
    · exact ih fun s hs => by rw [h s (by omega), Finset.mem_erase, and_iff_right (by omega)]
    · rfl

/-- A number of the run or beyond it is in the set. -/
theorem Holds.mem (h : Holds through above U) (hs : 1 ≤ s)
    (hm : s ≤ through ∨ s ∈ above) : s ∈ U := by
  rcases hm with hm | hm
  · exact h.run s hs hm
  · exact ((h.rest s).1 hm).1

end PrefixSet
