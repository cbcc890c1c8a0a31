import Mathlib

/-!
# Identities from a cyclic counter

A counter over `1 … last` that starts again at `1` after `last`, and the search for a free identity:
the counter is advanced until it stands on one. `search_isSome`: if one is free, it is found within
one more round than there are identities in use.
-/

namespace Cyclic

/-- The identity after one; `0`, where the counter starts, is never one. -/
def next (last id : Nat) : Nat := max ((id + 1) % (last + 1)) 1

/-- Advances the counter until it stands on an identity that is not in use, for a number of rounds
at most. -/
def search (last : Nat) (used : Nat → Bool) : (rounds id : Nat) → Option Nat
  | 0, _ => none
  | rounds + 1, id =>
    let id := next last id
    if used id then search last used rounds id else some id

variable {last : Nat} {used : Nat → Bool}

theorem next_pos (last id : Nat) : 0 < next last id := lt_max_of_lt_right one_pos

theorem next_le (hlast : 0 < last) (id : Nat) : next last id ≤ last :=
  max_le (Nat.le_of_lt_succ (Nat.mod_lt _ last.succ_pos)) hlast

/-- What the search finds is an identity that is not in use. -/
theorem search_eq_some (hlast : 0 < last) {rounds id found : Nat}
    (h : search last used rounds id = some found) :
    0 < found ∧ found ≤ last ∧ used found = false := by
  induction rounds generalizing id with
  | zero => cases h
  | succ rounds ih =>
    unfold search at h
    by_cases hused : used (next last id) = true
    · rw [if_pos hused] at h
      exact ih h
    · rw [if_neg hused, Option.some.injEq] at h
      subst h
      exact ⟨next_pos last id, next_le hlast id, Bool.not_eq_true _ ▸ hused⟩

/-- A search that finds nothing has seen every identity it came by in use. -/
theorem used_of_search_eq_none {rounds id : Nat} (h : search last used rounds id = none) :
    ∀ k < rounds, used ((next last)^[k + 1] id) = true := by
  induction rounds generalizing id with
  | zero => exact fun k hk => absurd hk (Nat.not_lt_zero k)
  | succ rounds ih =>
    unfold search at h
    by_cases hused : used (next last id) = true
    · rw [if_pos hused] at h
      intro k hk
      cases k with
      | zero => exact hused
      | succ k =>
        rw [Function.iterate_succ_apply]
        exact ih h k (Nat.lt_of_succ_lt_succ hk)
    · rw [if_neg hused] at h
      cases h

section
variable (hlast : 0 < last)
include hlast

/-- On the identities the counter counts modulo `last`. -/
theorem next_succ (a : Nat) : next last (a % last + 1) = (a + 1) % last + 1 := by
  have hlt := Nat.mod_lt a hlast
  unfold next
  rcases Nat.lt_or_ge (a % last + 1) last with h | h
  · have hmod : (a + 1) % last = a % last + 1 := by rw [← Nat.mod_add_mod, Nat.mod_eq_of_lt h]
    rw [Nat.mod_eq_of_lt (show a % last + 1 + 1 < last + 1 by omega), hmod]
    exact max_eq_left (by omega)
  · have heq : a % last + 1 = last := by omega
    have hmod : (a + 1) % last = 0 := by rw [← Nat.mod_add_mod, heq, Nat.mod_self]
    rw [heq, hmod, Nat.mod_self]
    rfl

/-- The identities the counter comes by. -/
theorem iterate_next (id k : Nat) : (next last)^[k + 1] id = (next last id - 1 + k) % last + 1 := by
  induction k with
  | zero =>
    have hpos := next_pos last id
    have hle := next_le hlast id
    show next last id = (next last id - 1 + 0) % last + 1
    rw [Nat.mod_eq_of_lt (show next last id - 1 + 0 < last by omega)]
    omega
  | succ k ih => rw [Function.iterate_succ_apply', ih, next_succ hlast, Nat.add_assoc]

/-- In fewer rounds than there are identities, the counter comes by none of them twice. -/
theorem iterate_next_injOn (id : Nat) :
    Set.InjOn (fun k => (next last)^[k + 1] id) (Finset.range last : Set Nat) := by
  intro k hk l hl h
  rw [Finset.coe_range, Set.mem_Iio] at hk hl
  simp only [iterate_next hlast, Nat.add_right_cancel_iff] at h
  have hmod : k ≡ l [MOD last] := Nat.ModEq.add_left_cancel' _ h
  exact Nat.ModEq.eq_of_lt_of_lt hmod hk hl

/-- In as many rounds as there are identities, the counter comes by each of them. -/
theorem exists_iterate_next (id : Nat) (hpos : 0 < free)
    (hle : free ≤ last) : ∃ k < last, (next last)^[k + 1] id = free := by
  have hstart := next_le hlast id
  have hstart' := next_pos last id
  simp only [iterate_next hlast]
  rcases Nat.lt_or_ge (free - 1) (next last id - 1) with h | h
  · refine ⟨last - (next last id - 1) + (free - 1), by omega, ?_⟩
    rw [show next last id - 1 + (last - (next last id - 1) + (free - 1)) = free - 1 + last by omega,
      Nat.add_mod_right, Nat.mod_eq_of_lt (by omega)]
    omega
  · refine ⟨free - 1 - (next last id - 1), by omega, ?_⟩
    rw [show next last id - 1 + (free - 1 - (next last id - 1)) = free - 1 by omega,
      Nat.mod_eq_of_lt (by omega)]
    omega

/-- With one round more than there are identities in use, the search finds a free identity whenever
there is one. -/
theorem search_isSome {inUse : List Nat} (hinUse : ∀ id, used id = true → id ∈ inUse) (id : Nat) :
    (search last used (inUse.length + 1) id).isSome = true ↔
      ∃ free, 0 < free ∧ free ≤ last ∧ used free = false := by
  constructor
  · intro h
    obtain ⟨found, hfound⟩ := Option.isSome_iff_exists.1 h
    exact ⟨found, search_eq_some hlast hfound⟩
  · rintro ⟨free, hpos, hle, hfree⟩
    rw [← Option.ne_none_iff_isSome]
    intro hnone
    have hused := used_of_search_eq_none hnone
    rcases Nat.lt_or_ge inUse.length last with hfew | hmany
    · -- the identities come by are distinct, and more than are in use
      have hcard := Finset.card_le_card_of_injOn (s := Finset.range (inUse.length + 1))
        (t := inUse.toFinset) (fun k => (next last)^[k + 1] id)
        (fun k hk => List.mem_toFinset.2 (hinUse _ (hused k (Finset.mem_range.1 hk))))
        ((iterate_next_injOn hlast id).mono (by
          rw [Finset.coe_subset]; exact Finset.range_subset_range.2 hfew))
      rw [Finset.card_range] at hcard
      have := inUse.toFinset_card_le
      omega
    · obtain ⟨k, hk, hkfree⟩ := exists_iterate_next hlast id hpos hle
      have := hused k (by omega)
      rw [hkfree, hfree] at this
      cases this

end

end Cyclic
