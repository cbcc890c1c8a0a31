import Cellule.Lib.OrderedMap
import Cellule.Lib.Stateful

/-!
# Statements on a table

A table is an ordered map from its primary key to the rest of its rows. `select` is a query with a
condition, an order and a limit: rows that are level come in the order of their keys. A bounded
deletion is a `deleteKeys` of what a `select` found, and leaves a table `Pruned` of rows like those.
`update` changes the row at a key under a condition and says if there was one.
-/

namespace OrderedMap

open List

variable {K V : Type} [LinearOrder K]

/-- `SELECT … WHERE p ORDER BY order, key LIMIT limit`. -/
def select (m : OrderedMap K V) (p : K × V → Bool) (order : K × V → Int) (limit : Nat) :
    List (K × V) :=
  ((m.entries.filter p).insertionSort fun a b => order a ≤ order b).take limit

/-- Deletes the rows whose keys are listed. -/
def deleteKeys (m : OrderedMap K V) (keys : List K) : OrderedMap K V := m.retain (· ∉ keys)

/-- `UPDATE … WHERE key = k AND p`: whether a row was changed. -/
def update {ε : Type} (k : K) (p : V → Bool) (f : V → V) :
    Stateful ε (OrderedMap K V) Bool := fun m =>
  match m.get? k with
  | some v => if p v then (.ok true, m.insert k (f v)) else (.ok false, m)
  | none => (.ok false, m)

variable {m : OrderedMap K V} {k : K}

/-- A selected row is a row of the table that satisfies the condition. -/
theorem mem_of_mem_select
    (h : e ∈ m.select p order limit) : m.get? e.1 = some e.2 ∧ p e = true := by
  have hsorted := mem_of_mem_take h
  rw [mem_insertionSort, mem_filter] at hsorted
  exact ⟨get?_eq_some.2 hsorted.1, hsorted.2⟩

/-- No key is selected twice. -/
theorem nodup_select (m : OrderedMap K V) (p : K × V → Bool) (order : K × V → Int) (limit : Nat) :
    ((m.select p order limit).map (·.1)).Nodup := by
  have hkeys : (m.entries.map (·.1)).Nodup :=
    pairwise_map.2 (m.sorted.imp fun hlt heq => absurd (heq ▸ hlt) (lt_irrefl _))
  have hfiltered : ((m.entries.filter p).map (·.1)).Nodup :=
    hkeys.sublist (filter_sublist.map _)
  have hsorted : (((m.entries.filter p).insertionSort fun a b => order a ≤ order b).map
    (·.1)).Nodup :=
    (((m.entries.filter p).perm_insertionSort _).map _).nodup_iff.2 hfiltered
  exact hsorted.sublist ((take_sublist _ _).map _)

/-- A deletion takes out the listed keys and leaves every other row. -/
theorem get?_deleteKeys (m : OrderedMap K V) (keys : List K) (k : K) :
    (m.deleteKeys keys).get? k = if k ∈ keys then none else m.get? k := by
  unfold deleteKeys
  rw [get?_retain]
  by_cases hk : k ∈ keys <;> simp [hk]

theorem get?_of_deleteKeys {keys : List K} (h : (m.deleteKeys keys).get? k = some v) :
    m.get? k = some v := by
  rw [get?_deleteKeys] at h
  split at h
  · cases h
  · exact h

/-- Every row is there as it was, or it is gone and was one of those that may go. -/
def Pruned (gone : V → Prop) (m m' : OrderedMap K V) : Prop :=
  ∀ k, m'.get? k = m.get? k ∨ m'.get? k = none ∧ ∃ v, m.get? k = some v ∧ gone v

theorem Pruned.refl (gone : V → Prop) (m : OrderedMap K V) : Pruned gone m m := fun _ => .inl rfl

theorem Pruned.trans {m₁ m₂ m₃ : OrderedMap K V} (h : Pruned gone m₁ m₂)
    (h' : Pruned gone m₂ m₃) : Pruned gone m₁ m₃ := by
  intro k
  rcases h' k with hsame | ⟨hnone, v, hv, hgone⟩
  · rw [hsame]
    exact h k
  · rcases h k with hsame | ⟨hgone', -⟩
    · exact .inr ⟨hnone, v, hsame ▸ hv, hgone⟩
    · rw [hgone'] at hv
      cases hv

/-- A bounded deletion takes out rows that its query found. -/
theorem pruned_deleteKeys_select (m : OrderedMap K V) (p : K × V → Bool) (order : K × V → Int)
    (limit : Nat) (hgone : ∀ e, p e = true → gone e.2) :
    Pruned gone m (m.deleteKeys ((m.select p order limit).map (·.1))) := by
  intro k
  rw [get?_deleteKeys]
  split
  · next hk =>
    obtain ⟨e, he, rfl⟩ := mem_map.1 hk
    obtain ⟨hrow, hp⟩ := mem_of_mem_select he
    exact .inr ⟨rfl, e.2, hrow, hgone e hp⟩
  · exact .inl rfl

/-- An update changes a row that satisfies the condition, or nothing. -/
theorem ends_update (hchanged : ∀ v, m.get? k = some v → p v = true → post true (m.insert k (f v)))
    (hsame : (∀ v, m.get? k = some v → p v = false) → post false m) :
    (update k p f : Stateful ε _ Bool).Ends m post failed := by
  unfold Stateful.Ends Stateful.outcome ExceptT.run update
  rcases hrow : m.get? k with _ | v
  · exact hsame fun v hv => nomatch hrow.symm.trans hv
  · dsimp only
    rcases hp : p v with _ | _
    · refine hsame fun w hw => ?_
      obtain rfl := Option.some.inj (hrow.symm.trans hw)
      exact hp
    · exact hchanged v hrow hp

/-- A loop over rows of a table, each of which is there as it was listed when the loop comes to
it. -/
theorem ends_forM_rows {f : K × V → Stateful ε σ Unit} {T : σ → OrderedMap K V}
    {rows : List (K × V)} (hkeys : (rows.map (·.1)).Nodup)
    (hstep : ∀ e ∈ rows, ∀ s, I s → (T s).get? e.1 = some e.2 →
      (f e).Ends s (fun _ s' => I s' ∧ ∀ k, k ≠ e.1 → (T s').get? k = (T s).get? k) failed)
    (hs : I s) (hrows : ∀ e ∈ rows, (T s).get? e.1 = some e.2) :
    (rows.forM f).Ends s (fun _ => I) failed := by
  induction rows generalizing s with
  | nil => exact Stateful.ends_pure.2 hs
  | cons e rest ih =>
    rw [map_cons, nodup_cons] at hkeys
    obtain ⟨hrow, hrest⟩ := forall_mem_cons.1 hrows
    obtain ⟨hfirst, hlater⟩ := forall_mem_cons.1 hstep
    rw [forM_eq_forM, forM_cons, Stateful.ends_bind]
    refine (hfirst s hs hrow).mono (fun _ s' hs' => ?_) fun _ h => h
    refine ih hkeys.2 hlater hs'.1 fun e' he' => ?_
    have hne : e'.1 ≠ e.1 := fun h => hkeys.1 (mem_map.2 ⟨e', he', h⟩)
    rw [hs'.2 e'.1 hne]
    exact hrest e' he'

/-! ## Counting -/

theorem nodup_entries (m : OrderedMap K V) : m.entries.Nodup :=
  m.sorted.imp fun hlt heq => absurd (heq ▸ hlt) (lt_irrefl _)

theorem mem_entries : e ∈ m.entries ↔ m.get? e.1 = some e.2 :=
  get?_eq_some.symm

/-- What a query without an order selects, found again by another condition. -/
theorem filter_eq_select (m : OrderedMap K V) (p : K × V → Bool) (limit : Nat)
    (hq : ∀ e ∈ m.entries, q e = true ↔ e ∈ m.select p (fun _ => 0) limit) :
    m.entries.filter q = m.select p (fun _ => 0) limit := by
  classical
  have hsort : m.select p (fun _ => 0) limit = (m.entries.filter p).take limit := by
    unfold select
    rw [Pairwise.insertionSort_eq (pairwise_of_forall fun _ _ => le_rfl)]
  rw [hsort, (m.nodup_entries.filter p).take_eq_filter_mem, filter_filter]
  refine filter_congr fun e he => ?_
  rw [Bool.eq_iff_iff, hq e he, hsort, Bool.and_eq_true, elem_eq_mem, decide_eq_true_iff]
  exact ⟨fun h => ⟨h, (mem_filter.1 (mem_of_mem_take h)).2⟩, And.left⟩

/-- The row at a key, and the others. -/
theorem perm_erase (h : m.get? k = some v) : m.entries.Perm ((k, v) :: (m.erase k).entries) := by
  have hnew : (k, v) ∉ (m.erase k).entries := by
    rw [mem_entries, get?_erase, if_pos rfl]
    exact nofun
  refine (perm_ext_iff_of_nodup m.nodup_entries
    (nodup_cons.2 ⟨hnew, nodup_entries _⟩)).2 fun e => ?_
  rw [mem_cons, mem_entries, mem_entries, get?_erase]
  by_cases hk : e.1 = k
  · rw [if_pos hk, hk, h]
    constructor
    · intro hv
      exact .inl (Prod.ext hk (Option.some.inj hv).symm)
    · rintro (rfl | hnone)
      · rfl
      · cases hnone
  · rw [if_neg hk]
    refine ⟨.inr, ?_⟩
    rintro (rfl | hv)
    · exact absurd rfl hk
    · exact hv

theorem erase_insert (m : OrderedMap K V) (k : K) (v : V) :
    ((m.insert k v).erase k).entries.Perm (m.erase k).entries := by
  refine (perm_ext_iff_of_nodup (nodup_entries _) (nodup_entries _)).2 fun e => ?_
  rw [mem_entries, mem_entries, get?_erase, get?_erase]
  by_cases hk : e.1 = k
  · rw [if_pos hk, if_pos hk]
  · rw [if_neg hk, if_neg hk, get?_insert_of_ne _ hk]

/-- What an insertion leaves: the new row, and the rows at other keys. -/
theorem perm_insert (m : OrderedMap K V) (k : K) (v : V) :
    (m.insert k v).entries.Perm ((k, v) :: (m.erase k).entries) :=
  (perm_erase (get?_insert_self m k v)).trans (.cons _ (erase_insert m k v))

theorem perm_erase_of_none (h : m.get? k = none) : (m.erase k).entries.Perm m.entries := by
  refine (perm_ext_iff_of_nodup (nodup_entries _) (nodup_entries _)).2 fun e => ?_
  rw [mem_entries, mem_entries, get?_erase]
  by_cases hk : e.1 = k
  · rw [if_pos hk, hk, h]
  · rw [if_neg hk]

variable (p : K × V → Bool)

/-- A row more. -/
theorem countP_insert_new (h : m.get? k = none) (v : V) :
    (m.insert k v).entries.countP p = m.entries.countP p + if p (k, v) then 1 else 0 := by
  rw [(perm_insert m k v).countP_eq, countP_cons, (perm_erase_of_none h).countP_eq]

/-- A row less. -/
theorem countP_erase (h : m.get? k = some v) :
    (m.erase k).entries.countP p + (if p (k, v) then 1 else 0) = m.entries.countP p := by
  rw [(perm_erase h).countP_eq, countP_cons]

/-- A row written over. -/
theorem countP_insert_old (h : m.get? k = some old) (v : V) :
    (m.insert k v).entries.countP p + (if p (k, old) then 1 else 0)
      = m.entries.countP p + if p (k, v) then 1 else 0 := by
  rw [(perm_insert m k v).countP_eq, (perm_erase h).countP_eq, countP_cons, countP_cons]
  omega

end OrderedMap
