import Mathlib

/-!
# Ranges that tile an interval

A list of closed ranges in which every range repeats the one before it or starts right after it.
Such a list covers an interval without gap, and two of its ranges are equal or disjoint.
-/

namespace Tiling

open List

/-- A range repeats the one before it or starts right after it. -/
def Continues (a b : Nat × Nat) : Prop := b = a ∨ b.1 = a.2 + 1

/-- The ranges cover exactly the numbers from `first` to `last`, and no two of them overlap without
being equal. -/
structure Tiles (first last : Nat) (rs : List (Nat × Nat)) : Prop where
  covers : ∀ n, (∃ r ∈ rs, r.1 ≤ n ∧ n ≤ r.2) ↔ first ≤ n ∧ n ≤ last
  apart : ∀ r ∈ rs, ∀ s ∈ rs, r = s ∨ r.2 < s.1 ∨ s.2 < r.1

/-- A chain of ranges tiles the interval from its first to its last number. -/
theorem tiles_of_isChain
    (hchain : (r :: rs).IsChain Continues) (hrange : ∀ s ∈ r :: rs, s.1 ≤ s.2) :
    Tiles r.1 (rs.getLastD r).2 (r :: rs) ∧ ∀ s ∈ rs, s = r ∨ r.2 < s.1 := by
  induction rs generalizing r with
  | nil =>
    refine ⟨⟨fun n => by simp, ?_⟩, by simp⟩
    intro a ha b hb
    exact Or.inl ((mem_singleton.1 ha).trans (mem_singleton.1 hb).symm)
  | cons s rs ih =>
    rw [isChain_cons_cons] at hchain
    obtain ⟨htiles, hbeyond⟩ := ih hchain.2 fun q hq => hrange q (mem_cons_of_mem _ hq)
    have hr : r.1 ≤ r.2 := hrange r mem_cons_self
    have hs : s.1 ≤ s.2 := hrange s (by simp)
    -- every later range is the first one again, or lies beyond it
    have hlater : ∀ q ∈ s :: rs, q = r ∨ r.2 < q.1 := by
      intro q hq
      have hq' : q = s ∨ s.2 < q.1 := by
        rcases mem_cons.1 hq with rfl | hq
        · exact Or.inl rfl
        · exact hbeyond q hq
      rcases hchain.1 with rfl | hnext
      · exact hq'
      · rcases hq' with rfl | hq'
        · exact Or.inr (by omega)
        · exact Or.inr (by omega)
    refine ⟨⟨fun n => ?_, fun a ha b hb => ?_⟩, hlater⟩
    · rw [exists_mem_cons_iff, htiles.covers n, getLastD_cons]
      have hlast := (htiles.covers s.1).1 ⟨s, mem_cons_self, le_rfl, hs⟩
      rcases hchain.1 with rfl | hnext
      · constructor
        · rintro (⟨h1, h2⟩ | h)
          · exact (htiles.covers n).1 ⟨s, mem_cons_self, h1, h2⟩
          · exact h
        · exact Or.inr
      · omega
    · rcases mem_cons.1 ha with ha | ha <;> rcases mem_cons.1 hb with hb | hb
      · exact Or.inl (ha.trans hb.symm)
      · rcases hlater b hb with hlt | hlt
        · exact Or.inl (ha.trans hlt.symm)
        · exact Or.inr (Or.inl (ha ▸ hlt))
      · rcases hlater a ha with hlt | hlt
        · exact Or.inl (hlt.trans hb.symm)
        · exact Or.inr (Or.inr (hb ▸ hlt))
      · exact htiles.apart a ha b hb

end Tiling
