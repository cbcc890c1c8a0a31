import Mathlib

/-!
# Listings by pages

A listing answers with a page of rows and a cursor, after which the next page goes on. One row more
than a page may hold is asked for, so that a page knows whether a row is left out.
`Pages.lists_iff`: when every page is an initial part of the rows after its cursor, and those after
the cursor it returns are those it left out, following the cursors ends and lists all rows.
-/

namespace Paging

open List

variable {α K ε : Type}

/-! ## One page -/

/-- The loop that fills a page with rows until it is full, by the number of its rows and their
sizes: the page, and whether a row is left out. -/
def takeRows (full : Nat → Nat → α → Bool) (size : α → Nat) : List α → List α → Nat → List α × Bool
  | [], page, _ => (page, false)
  | a :: rows, page, bytes =>
    if full page.length bytes a then (page, true)
    else takeRows full size rows (page ++ [a]) (bytes + size a)

variable {full : Nat → Nat → α → Bool} {size : α → Nat} {limit : Nat}

/-- A page is an initial part of the rows, and what is left out was too much for it. -/
theorem takeRows_spec (size : α → Nat) (hlimit : ∀ bytes a, full limit bytes a = true)
    (rows page : List α) (hlen : page.length ≤ limit) (bytes : Nat) :
    ∃ taken rest, rows = taken ++ rest ∧ (page ++ taken).length ≤ limit ∧
      takeRows full size rows page bytes = (page ++ taken, !rest.isEmpty) ∧
      (taken = [] → ∀ a ∈ rows.head?, full page.length bytes a = true) := by
  induction rows generalizing page bytes with
  | nil => exact ⟨[], [], rfl, by simpa using hlen, by simp [takeRows], by simp⟩
  | cons a rows ih =>
    rw [takeRows]
    split
    · next hfull => exact ⟨[], a :: rows, rfl, by simpa using hlen, by simp, by simpa using hfull⟩
    · next hroom =>
      have hlt : page.length < limit := hlen.lt_of_ne fun heq => hroom (heq ▸ hlimit bytes a)
      obtain ⟨taken, rest, rfl, hle, hpage, -⟩ := ih (page ++ [a]) (by simpa using hlt)
        (bytes + size a)
      exact ⟨a :: taken, rest, rfl, by simpa using hle, by simp [hpage], nofun⟩

/-- The page of the first rows, one more than it may hold. -/
theorem takeRows_first (size : α → Nat) (hlimit : ∀ bytes a, full limit bytes a = true)
    (hfirst : ∀ a ∈ rows, full 0 0 a = false) :
    ∃ page rest, rows = page ++ rest ∧ (rest ≠ [] → page ≠ []) ∧
      takeRows full size (rows.take (limit + 1)) [] 0 = (page, !rest.isEmpty) := by
  obtain ⟨page, left, htake, hlen, hpage, hfull⟩ :=
    takeRows_spec size hlimit (rows.take (limit + 1)) [] (Nat.zero_le limit) 0
  have hrows : rows = page ++ (left ++ rows.drop (limit + 1)) := by
    rw [← append_assoc, ← htake, take_append_drop]
  refine ⟨page, _, hrows, ?_, ?_⟩
  · rintro hrest rfl
    obtain ⟨a, tail, rfl⟩ := exists_cons_of_ne_nil (hrows.trans_ne hrest)
    exact absurd (hfull rfl a rfl) (by simp [hfirst])
  · rw [hpage, nil_append]
    cases left with
    | cons => rfl
    | nil =>
      -- one row more than the limit was asked for, so the rows have come to their end
      have hshort : rows.length ≤ limit + 1 := by
        have := congrArg length htake
        simp only [length_take, append_nil, nil_append] at this hlen
        omega
      rw [drop_eq_nil_of_le hshort]
      rfl

variable [LinearOrder K] {key : α → K}

/-- The rows after the last row of a page are those the page left out. -/
theorem filter_after_last {base page rest : List α}
    (hsorted : base.Pairwise fun a b => key a < key b) (hrows : base.filter p = page ++ rest)
    (hlast : page.getLast? = some e) (hup : ∀ a, key e < key a → p a = true) :
    base.filter (fun a => decide (key e < key a)) = rest := by
  have hsub : base.filter (fun a => decide (key e < key a))
      = (base.filter p).filter fun a => decide (key e < key a) := by
    rw [filter_filter]
    refine filter_congr fun a _ => ?_
    by_cases hlt : key e < key a
    · simp [hlt, hup a hlt]
    · simp [hlt]
  have hsorted' := hrows ▸ hsorted.filter p
  obtain ⟨init, rfl⟩ := getLast?_eq_some_iff.1 hlast
  rw [hsub, hrows, filter_append, filter_eq_nil_iff.2, nil_append, filter_eq_self.2]
  · exact fun a ha => decide_eq_true ((pairwise_append.1 hsorted').2.2 e (by simp) a ha)
  · refine forall_mem_append.2 ⟨fun a ha => ?_, by simp⟩
    simp [((pairwise_append.1 (pairwise_append.1 hsorted').1).2.2 a ha e (by simp)).le]

/-! ## The whole listing -/

variable {C : Type} {Valid : Option C → Prop} {rows : Option C → List α}
  {list : Option C → Except ε (List α × Option C)} {after : Option C} {listed : List α}

/-- Following the returned cursors from `after` until there is none lists these rows. -/
inductive Lists (list : Option C → Except ε (List α × Option C)) : Option C → List α → Prop
  | last {after : Option C} {page : List α} : list after = .ok (page, none) → Lists list after page
  | next {after : Option C} {cursor : C} {page rest : List α} :
      list after = .ok (page, some cursor) → Lists list (some cursor) rest →
      Lists list after (page ++ rest)

/-- Every page is an initial part of the rows after its cursor. Rows are left out only behind a page
that is not empty, and are those after the cursor it returns. -/
def Pages (Valid : Option C → Prop) (rows : Option C → List α)
    (list : Option C → Except ε (List α × Option C)) : Prop :=
  ∀ after, Valid after → ∃ page rest next, list after = .ok (page, next) ∧
    rows after = page ++ rest ∧
    (next = none ∧ rest = [] ∨ next.isSome ∧ page ≠ [] ∧ Valid next ∧ rows next = rest)

/-- A listing ends, and lists the rows after its first cursor and nothing else. -/
theorem Pages.lists_iff (h : Pages Valid rows list) (hafter : Valid after) :
    Lists list after listed ↔ listed = rows after := by
  constructor
  · intro hlists
    induction hlists with
    | @last after page hlist =>
      obtain ⟨page', rest, next, hlist', hrows, hnext⟩ := h after hafter
      cases hlist'.symm.trans hlist
      obtain ⟨-, rfl⟩ | ⟨hsome, -⟩ := hnext
      · rw [hrows, append_nil]
      · cases hsome
    | @next after cursor page rest hlist _ ih =>
      obtain ⟨page', rest', next, hlist', hrows, hnext⟩ := h after hafter
      cases hlist'.symm.trans hlist
      obtain ⟨hnone, -⟩ | ⟨-, -, hvalid, hrest⟩ := hnext
      · cases hnone
      · rw [hrows, ih hvalid, hrest]
  · rintro rfl
    -- every page but the last one is not empty, so what is left gets shorter
    induction hn : (rows after).length using Nat.strong_induction_on generalizing after with
    | _ n ih =>
      obtain ⟨page, rest, next, hlist, hrows, hnext⟩ := h after hafter
      obtain ⟨rfl, rfl⟩ | ⟨hsome, hpage, hvalid, hrest⟩ := hnext
      · rw [hrows, append_nil]
        exact .last hlist
      · obtain ⟨cursor, rfl⟩ := Option.isSome_iff_exists.1 hsome
        have hlt : rest.length < n := by
          rw [← hn, hrows, length_append]
          have := length_pos_iff.2 hpage
          omega
        rw [hrows, ← hrest]
        exact .next hlist (ih rest.length hlt hvalid (congrArg length hrest))

section Cursors

variable {Valid : Option K → Prop} {list : Option K → Except ε (List α × Option K)} {base : List α}
  {p : Option K → α → Bool}

/-- A cursor is the key of the last row of its page: the pages follow each other. -/
theorem pages_takeRows (size : α → Nat) (hsorted : base.Pairwise fun a b => key a < key b)
    (hcursor : ∀ c, p (some c) = fun a => decide (c < key a))
    (hup : ∀ after a b, p after a = true → key a < key b → p after b = true)
    (hvalid : ∀ a ∈ base, Valid (some (key a)))
    (hlimit : ∀ bytes a, full limit bytes a = true) (hfirst : ∀ a ∈ base, full 0 0 a = false)
    (hlist : ∀ after, Valid after → list after =
      let page := takeRows full size ((base.filter (p after)).take (limit + 1)) [] 0
      .ok (page.1, if page.2 then page.1.getLast?.map key else none)) :
    Pages Valid (fun after => base.filter (p after)) list := by
  intro after hafter
  obtain ⟨page, rest, hrows, hpage, htake⟩ := takeRows_first size hlimit
    fun a ha => hfirst a (mem_of_mem_filter ha)
  refine ⟨page, rest, _, by rw [hlist after hafter, htake], hrows, ?_⟩
  cases rest with
  | nil => exact .inl ⟨rfl, rfl⟩
  | cons e rest =>
    have hne := hpage (cons_ne_nil e rest)
    have hlast := getLast?_eq_some_getLast hne
    obtain ⟨hmem, hlow⟩ := mem_filter.1 (hrows ▸ mem_append_left _ (getLast_mem hne))
    simp only [isEmpty_cons, Bool.not_false, if_true, hlast, Option.map_some, hcursor]
    exact .inr ⟨rfl, hne, hvalid _ hmem, filter_after_last hsorted hrows hlast (hup after _ · hlow)⟩

end Cursors

end Paging
