import Cellule.Lib.OrderedMap

/-!
# Sets of numbers as lists of ranges

A set of numbers as the list of its maximal ranges, each with its first and last number. `Canonical`
says that a list is of that form; its ranges are the maximal runs of the set (`mem_iff`), so the set
has only one such list (`Canonical.unique`).
-/

namespace Ranges

variable {l m : List (Nat × Nat)}

/-- The numbers of the ranges. -/
def members (l : List (Nat × Nat)) : Set Nat := {s | ∃ r ∈ l, r.1 ≤ s ∧ s ≤ r.2}

theorem mem_members : s ∈ members l ↔ ∃ r ∈ l, r.1 ≤ s ∧ s ≤ r.2 := Iff.rfl

theorem mem_members_append : s ∈ members (l ++ m) ↔ s ∈ members l ∨ s ∈ members m := by
  simp only [mem_members, List.mem_append, or_and_right, exists_or]

theorem mem_members_cons : s ∈ members (r :: l) ↔ (r.1 ≤ s ∧ s ≤ r.2) ∨ s ∈ members l := by
  simp only [mem_members, List.exists_mem_cons_iff]

/-- The ranges are not empty, and there is a gap between any two of them. -/
structure Canonical (l : List (Nat × Nat)) : Prop where
  ordered : ∀ r ∈ l, r.1 ≤ r.2
  apart : l.Pairwise fun a b => a.2 + 1 < b.1

theorem Canonical.nil : Canonical [] := ⟨by simp, .nil⟩

theorem Canonical.filter (h : Canonical l) (p : Nat × Nat → Bool) : Canonical (l.filter p) :=
  ⟨fun r hr => h.ordered r (List.mem_filter.1 hr).1, h.apart.filter p⟩

/-- Of two ranges one ends before the other. -/
theorem Canonical.eq_or_apart (h : Canonical l) (ha : a ∈ l) (hb : b ∈ l) :
    a = b ∨ a.2 + 1 < b.1 ∨ b.2 + 1 < a.1 := by
  by_cases heq : a = b
  · exact .inl heq
  · have hapart : l.Pairwise fun a b => a.2 + 1 < b.1 ∨ b.2 + 1 < a.1 := h.apart.imp Or.inl
    have : Std.Symm fun a b : Nat × Nat => a.2 + 1 < b.1 ∨ b.2 + 1 < a.1 := ⟨fun _ _ => Or.symm⟩
    exact .inr (hapart.forall ha hb heq)

/-- The ranges are the maximal runs of the set. -/
theorem Canonical.mem_iff (h : Canonical l) :
    r ∈ l ↔ r.1 ≤ r.2 ∧ (∀ s, r.1 ≤ s → s ≤ r.2 → s ∈ members l) ∧ r.2 + 1 ∉ members l ∧
      ∀ s, s + 1 = r.1 → s ∉ members l := by
  have hmax : ∀ {a}, a ∈ l → a.2 + 1 ∉ members l ∧ ∀ s, s + 1 = a.1 → s ∉ members l :=
    fun {a} ha => by
      have horder := h.ordered a ha
      refine ⟨?_, fun s hs => ?_⟩
      all_goals
        rintro ⟨b, hb, hfirst, hlast⟩
        rcases h.eq_or_apart ha hb with rfl | hlt | hlt <;> omega
  constructor
  · exact fun hr => ⟨h.ordered r hr, fun s h1 h2 => ⟨r, hr, h1, h2⟩, hmax hr⟩
  · rintro ⟨hle, hrun, hnext, hprevious⟩
    obtain ⟨a, ha, hfirst, hlast⟩ := hrun r.1 le_rfl hle
    have h1 : a.1 = r.1 := by
      by_contra hne
      exact hprevious (r.1 - 1) (by omega) ⟨a, ha, by omega, by omega⟩
    have h2 : a.2 = r.2 := by
      rcases lt_trichotomy a.2 r.2 with hlt | heq | hlt
      · exact absurd (hrun (a.2 + 1) (by omega) (by omega)) (hmax ha).1
      · exact heq
      · exact absurd ⟨a, ha, by omega, by omega⟩ hnext
    exact Prod.ext h1 h2 ▸ ha

/-- A set has one canonical list. -/
theorem Canonical.unique (hl : Canonical l) (hm : Canonical m) (h : members l = members m) :
    l = m := by
  have hfirst : ∀ {l}, Canonical l → l.Pairwise fun a b => a.1 < b.1 := fun {l} hl =>
    hl.apart.imp_of_mem fun ha _ hlt => by
      have := hl.ordered _ ha
      omega
  refine OrderedMap.eq_of_increasing (·.1) (hfirst hl) (hfirst hm) fun r => ?_
  rw [hl.mem_iff, hm.mem_iff, h]

end Ranges
