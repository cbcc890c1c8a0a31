import Mathlib.Algebra.Order.Ring.Int
import Mathlib.Data.List.Basic

/-!
# Leases that do not overlap

A lease gives its holder a key from a start to a deadline. `Span` is a lease as its holder knows it:
its deadline is that of the last extension, or the time at which the holder gave the key back. A
table says which lease a key is under (`held`). `Apart` ties the spans to the table: the spans of
one key do not overlap, and every lease that the table does not have is over. It is kept when a free
key is granted (`Apart.grant`), when a lease that has run out is taken back (`Apart.lapse`), and
when the holder of a live lease extends it or gives it back (`Apart.move`).
-/

namespace Lease

open List Option Function

/-- A lease of a key, from `start` up to `stop`. -/
structure Span (K L : Type) where
  key : K
  lease : L
  start : Int
  stop : Int
  deriving DecidableEq

variable {K L : Type}

/-- The lease `l` of the key `k` now ends at `stop`. -/
def restop [DecidableEq K] [DecidableEq L] (spans : List (Span K L)) (k : K) (l : L) (stop : Int) :
    List (Span K L) :=
  spans.map fun s => if s.key = k ∧ s.lease = l then { s with stop := stop } else s

/-- The spans of one key do not overlap, and those that the table does not have are over. -/
structure Apart (clock : Int) (held : K → Option (L × Int)) (spans : List (Span K L)) : Prop where
  ordered : spans.Pairwise fun a b => a.key = b.key → a.stop ≤ b.start ∧ a.lease ≠ b.lease
  started : ∀ s ∈ spans, s.start ≤ clock
  current : ∀ k l stop, held k = some (l, stop) →
    ∃ s ∈ spans, s.key = k ∧ s.lease = l ∧ s.stop = stop
  past : ∀ s ∈ spans, held s.key = some (s.lease, s.stop) ∨
    s.stop ≤ clock ∧ ∀ stop, held s.key ≠ some (s.lease, stop)

namespace Apart

variable {clock now : Int} {held : K → Option (L × Int)} {spans : List (Span K L)}

theorem empty (clock : Int) : Apart clock (fun _ : K => (none : Option (L × Int))) [] :=
  ⟨.nil, nofun, nofun, nofun⟩

variable (h : Apart clock held spans)
include h

/-- Time passes. -/
theorem later (hclock : clock ≤ now) : Apart now held spans where
  ordered := h.ordered
  started s hs := (h.started s hs).trans hclock
  current := h.current
  past s hs := (h.past s hs).imp_right fun ⟨hstop, hgone⟩ => ⟨hstop.trans hclock, hgone⟩

/-- A span that the table does not have is over. -/
theorem ended (hs : s ∈ spans) (hgone : held s.key ≠ some (s.lease, s.stop)) : s.stop ≤ clock :=
  ((h.past s hs).resolve_left hgone).1

variable [DecidableEq K]

/-- A key that is not held is granted under a new lease. -/
theorem grant (hclock : clock ≤ now) (hfree : held k = none)
    (hnew : ∀ s ∈ spans, s.key = k → s.lease ≠ l) :
    Apart now (update held k (some (l, stop))) (spans ++ [⟨k, l, now, stop⟩]) := by
  have h := h.later hclock
  have hover : ∀ s ∈ spans, s.key = k → s.stop ≤ now :=
    fun s hs hkey => h.ended hs (by rw [hkey, hfree]; exact nofun)
  refine ⟨?_, ?_, ?_, ?_⟩
  · rw [pairwise_append]
    refine ⟨h.ordered, pairwise_singleton _ _, ?_⟩
    intro a ha b hb hkey
    rw [mem_singleton.1 hb] at hkey ⊢
    exact ⟨hover a ha hkey, hnew a ha hkey⟩
  · exact forall_mem_append.2 ⟨h.started, forall_mem_singleton.2 le_rfl⟩
  · intro k' l' stop' hheld
    rcases eq_or_ne k' k with rfl | hkk
    · rw [update_self] at hheld
      cases hheld
      exact ⟨_, mem_append_right _ (mem_singleton_self _), rfl, rfl, rfl⟩
    · rw [update_of_ne hkk] at hheld
      obtain ⟨s, hs, hparts⟩ := h.current k' l' stop' hheld
      exact ⟨s, mem_append_left _ hs, hparts⟩
  · refine forall_mem_append.2 ⟨fun s hs => ?_, forall_mem_singleton.2 (.inl (update_self ..))⟩
    rcases eq_or_ne s.key k with hkk | hkk
    · rw [hkk, update_self]
      refine .inr ⟨hover s hs hkk, fun stop' hheld => ?_⟩
      exact hnew s hs hkk (Prod.mk.inj (some.inj hheld)).1.symm
    · rw [update_of_ne hkk]
      exact h.past s hs

/-- A lease that has run out is taken back. -/
theorem lapse (hclock : clock ≤ now) (hout : ∀ l stop, held k = some (l, stop) → stop ≤ now) :
    Apart now (update held k none) spans where
  ordered := h.ordered
  started := (h.later hclock).started
  current k' l stop hheld := by
    rcases eq_or_ne k' k with rfl | hkk
    · rw [update_self] at hheld
      cases hheld
    · exact h.current k' l stop (update_of_ne hkk none held ▸ hheld)
  past s hs := by
    have hpast := (h.later hclock).past s hs
    rcases eq_or_ne s.key k with hkk | hkk
    · rw [hkk, update_self]
      exact .inr ⟨hpast.elim (fun hheld => hout _ _ (hkk ▸ hheld)) And.left, nofun⟩
    · rw [update_of_ne hkk]
      exact hpast

/-- The holder of a live lease extends it, or gives it back now. -/
theorem move [DecidableEq L] (hclock : clock ≤ now)
    (hheld : held k = some (l, stop)) (hlive : now < stop)
    (hleft : left = some (l, stop') ∨ left = none ∧ stop' = now) :
    Apart now (update held k left) (restop spans k l stop') := by
  have h := h.later hclock
  have hlease : ∀ {l' stop''}, left = some (l', stop'') → l' = l ∧ stop'' = stop' := by
    rintro l' stop'' rfl
    rcases hleft with hleft | ⟨hleft, -⟩
    · exact Prod.mk.inj (some.inj hleft)
    · cases hleft
  -- the span of a live lease is the last of its key
  have hlast : ∀ a ∈ spans, a.key = k → a.lease = l → ∀ b ∈ spans, b.key = k →
    ¬a.stop ≤ b.start := by
    intro a ha hak hal b hb hbk hle
    rcases h.past a ha with hcur | ⟨-, hgone⟩
    · rw [hak, hheld, hal] at hcur
      have hstop := (Prod.mk.inj (some.inj hcur)).2
      have hstart := h.started b hb
      omega
    · rw [hak, hal] at hgone
      exact hgone stop hheld
  refine ⟨?_, ?_, ?_, ?_⟩
  · unfold restop
    rw [pairwise_map]
    refine h.ordered.imp_of_mem fun {a b} ha hb hab => ?_
    intro hkey
    have hkey' : a.key = b.key := by
      split at hkey <;> split at hkey <;> exact hkey
    obtain ⟨hle, hne⟩ := hab hkey'
    have hneg : ¬(a.key = k ∧ a.lease = l) := fun ⟨hak, hal⟩ =>
      hlast a ha hak hal b hb (hkey' ▸ hak) hle
    rw [if_neg hneg]
    split <;> exact ⟨hle, hne⟩
  · refine forall_mem_map.2 fun a ha => ?_
    have := h.started a ha
    split <;> exact this
  · intro k' l' stop'' hheld'
    rcases eq_or_ne k' k with rfl | hkk
    · rw [update_self] at hheld'
      obtain ⟨rfl, rfl⟩ := hlease hheld'
      obtain ⟨s, hs, hkey, hlease, -⟩ := h.current k' l' stop hheld
      refine ⟨{ s with stop := stop'' }, mem_map.2 ⟨s, hs, ?_⟩, hkey, hlease, rfl⟩
      rw [if_pos ⟨hkey, hlease⟩]
    · rw [update_of_ne hkk] at hheld'
      obtain ⟨s, hs, hkey, hlease, hstop⟩ := h.current k' l' stop'' hheld'
      refine ⟨s, mem_map.2 ⟨s, hs, ?_⟩, hkey, hlease, hstop⟩
      rw [if_neg fun h => hkk (hkey.symm.trans h.1)]
  · refine forall_mem_map.2 fun a ha => ?_
    by_cases hthis : a.key = k ∧ a.lease = l
    · rw [if_pos hthis]
      show update held k left a.key = some (a.lease, stop') ∨ _
      rw [hthis.1, hthis.2, update_self]
      exact hleft.imp_right fun ⟨hleft, heq⟩ => ⟨heq.le, by rw [hleft]; exact nofun⟩
    · rw [if_neg hthis]
      rcases eq_or_ne a.key k with hkk | hkk
      · rw [hkk, update_self]
        have hal : a.lease ≠ l := fun hal => hthis ⟨hkk, hal⟩
        refine .inr ⟨h.ended ha fun hcur => ?_, fun stop'' hcur => hal (hlease hcur).1⟩
        rw [hkk, hheld] at hcur
        exact hal (Prod.mk.inj (some.inj hcur)).1.symm
      · rw [update_of_ne hkk]
        exact h.past a ha

end Apart

end Lease
