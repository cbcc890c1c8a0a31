import Cellule.Cell.Tables
import Cellule.Lib.Paging

/-!
# Keyed values

The key-value primitive (`primitives/kv/mod.rs`) keeps its values in one table
(`migrations/kv.sql`), in the order of their scopes and, within a scope, of the bytes of their keys.
A value past its expiry is not seen any more, and deleted some time later.

A listing of the keys with a prefix asks for the range from the prefix to its successor
(`inRange_iff`). It is complete (`kv_listing_complete`).
-/

namespace Cellule

open Except List

namespace Kv

/-- Bytes are ordered as numbers, keys as SQLite orders blobs. -/
scoped instance byteOrder : LinearOrder UInt8 where
  le_refl := UInt8.le_refl
  le_trans _ _ _ := UInt8.le_trans
  le_antisymm _ _ := UInt8.le_antisymm
  le_total := UInt8.le_total
  lt_iff_le_not_ge _ _ := by
    rw [UInt8.lt_iff_toNat_lt, UInt8.le_iff_toNat_le, UInt8.le_iff_toNat_le]
    omega
  toDecidableLE := inferInstance

/-- A key, with the `CHECK` constraint on its length. -/
abbrev Key := { bytes : Bytes // 1 ≤ bytes.length ∧ bytes.length ≤ 1024 }

/-- A value, with the `CHECK` constraint on its length. -/
abbrev Value := { bytes : Bytes // bytes.length ≤ 4194304 }

abbrev Version := FixedId 28

/-- A row of `kv_entries`, without its key. -/
structure Row where
  version : Version
  value : Value
  expiresAt : Option Int
  deriving DecidableEq

/-- `kv_entries`, by scope and key. -/
abbrev Table := OrderedMap (Bytes ×ₗ Key) Row

/-- `KvEntry` (`mod.rs:109`), as a key and its row. -/
abbrev Entry := Key × Row

/-- The condition on a row that is read at a time. -/
def Row.live (now : Int) (row : Row) : Bool := row.expiresAt.all fun expiry => decide (now < expiry)

/-- `validate_scope` (`mod.rs:381`). -/
def validateScope (scope : Bytes) : Result Unit :=
  reject (decide (scope.length > 1024)) (.command "KV scope exceeds 1024 bytes")

/-- `validate_key` (`mod.rs:388`), with the key that it accepts. -/
def validateKey (key : Bytes) : Result Key :=
  if h : 1 ≤ key.length ∧ key.length ≤ 1024 then .ok ⟨key, h⟩
  else .error (.command "KV key must contain 1..=1024 bytes")

/-- `validate_now` (`mod.rs:395`). -/
def validateNow (now : Int) : Result Unit :=
  reject (decide (now < 0)) (.command "negative KV logical time")

/-! ## Listing -/

/-- `prefix_successor` (`mod.rs:451`): the bytes up to the last that is not 0xFF, with that one
raised. -/
def prefixSuccessor (pre : Bytes) : Option Bytes :=
  match pre.reverse.dropWhile (· == 255) with
  | [] => none
  | b :: rest => some ((b + 1) :: rest).reverse

/-- The conditions on the key that a prefix adds to the query. -/
def inRange (pre key : Bytes) : Bool :=
  pre.isEmpty || decide (pre ≤ key) && (prefixSuccessor pre).all fun upper => decide (key < upper)

/-- What an entry counts in a page. -/
def Entry.bytes (e : Entry) : Nat := e.1.1.length + e.2.value.1.length + (28 + 64)

/-- A page has no room for an entry. The first entry has a page of its own if it needs one. -/
def pageFull (limit count bytes : Nat) (e : Entry) : Bool :=
  count == limit || count != 0 && decide (bytes + Entry.bytes e > 1048576)

/-- The query of `kv_list`, but for its cursor and its limit. -/
def listed (table : Table) (scope pre : Bytes) (now : Int) : List Entry :=
  (table.entries.filter fun e => e.1.1 == scope && e.2.live now && inRange pre e.1.2.1).map
    fun e => (e.1.2, e.2)

/-- `kv_list` (`mod.rs:233`): a page, and the key to go on after. -/
def kvList (table : Table) (scope pre : Bytes) (limit : Nat) (now : Int)
    (after : Option Bytes) : Result (List Entry × Option Bytes) := do
  validateScope scope
  reject (decide (pre.length > 1024)) (.command "KV prefix exceeds 1024 bytes")
  let _ ← after.mapM validateKey
  reject (decide (limit < 1) || decide (limit > 1000))
    (.command "KV list limit must be in 1..=1000")
  validateNow now
  let rows := (listed table scope pre now).filter fun e => after.all fun key => decide (key < e.1.1)
  let page := Paging.takeRows (pageFull limit) Entry.bytes (rows.take (limit + 1)) [] 0
  pure (page.1, if page.2 then page.1.getLast?.map (·.1.1) else none)

variable {table : Table} {scope pre key : Bytes} {limit : Nat} {now : Int}

/-- The successor of a prefix, byte by byte. -/
theorem prefixSuccessor_cons (b : UInt8) (pre : Bytes) :
    prefixSuccessor (b :: pre) = match prefixSuccessor pre with
      | some upper => some (b :: upper)
      | none => if b = 255 then none else some [b + 1] := by
  unfold prefixSuccessor
  rw [reverse_cons, dropWhile_append]
  cases hrest : pre.reverse.dropWhile (· == 255) with
  | nil => by_cases hb : b = 255 <;> simp [hb]
  | cons c rest => simp

/-- The raised byte bounds this one, and 0xFF is the last byte there is. -/
theorem below_raised_iff :
    (∀ upper ∈ if b = 255 then none else some [b + 1], c :: key < upper) ↔ c ≤ b := by
  split
  · next h => simpa [h, UInt8.le_iff_toNat_le] using Nat.le_of_lt_succ c.toNat_lt
  · next h =>
    have hb : b.toNat ≠ 255 := fun heq => h (UInt8.toNat.inj heq)
    have := b.toNat_lt
    simp [cons_lt_cons_iff, UInt8.lt_iff_toNat_lt, UInt8.le_iff_toNat_le]
    omega

/-- The keys from a prefix to its successor are those that start with it. -/
theorem inRange_iff : inRange pre key = true ↔ pre <+: key := by
  suffices hrange : (¬key < pre ∧ ∀ upper ∈ prefixSuccessor pre, key < upper) ↔ pre <+: key by
    rw [← hrange]
    cases pre with
    | nil => simp [inRange, prefixSuccessor]
    | cons => simp [inRange, Option.all_eq_true]
  induction pre generalizing key with
  | nil => simp [prefixSuccessor]
  | cons b pre ih =>
    cases key with
    | nil => simp
    | cons c key =>
      rw [cons_lt_cons_iff, cons_prefix_cons, ← ih, prefixSuccessor_cons]
      cases prefixSuccessor pre with
      | some upper => simp only [Option.mem_some_iff, forall_eq', cons_lt_cons_iff]; grind
      | none => simp only [below_raised_iff]; grind

/-- The listed entries ascend by their keys. -/
theorem listed_sorted : (listed table scope pre now).Pairwise fun a b => a.1.1 < b.1.1 := by
  refine pairwise_map.2 (Pairwise.imp_of_mem (fun {a b} ha hb hlt => ?_) (table.sorted.filter _))
  simp only [mem_filter, Bool.and_eq_true, beq_iff_eq] at ha hb
  have hscope : a.1.1 = b.1.1 := ha.2.1.1.trans hb.2.1.1.symm
  rcases Prod.Lex.lt_iff.1 hlt with h | ⟨-, h⟩
  · exact absurd h (hscope ▸ lt_irrefl _)
  · exact h

/-- The listed entries are the live ones with the prefix. -/
theorem mem_listed : e ∈ listed table scope pre now ↔
    table.get? (toLex (scope, e.1)) = some e.2 ∧ e.2.live now = true ∧ pre <+: e.1.1 := by
  simp only [listed, mem_map, mem_filter, Bool.and_eq_true, beq_iff_eq, inRange_iff,
    OrderedMap.get?_eq_some]
  constructor
  · rintro ⟨⟨k, row⟩, ⟨hmem, ⟨rfl, hlive⟩, hpre⟩, rfl⟩
    exact ⟨hmem, hlive, hpre⟩
  · rintro ⟨hmem, hlive, hpre⟩
    exact ⟨(toLex (scope, e.1), e.2), ⟨hmem, ⟨rfl, hlive⟩, hpre⟩, rfl⟩

/-- Pages follow each other: the first entry of a page always has room. -/
theorem kvList_pages (table : Table) (hscope : scope.length ≤ 1024) (hpre : pre.length ≤ 1024)
    (hlimit : 1 ≤ limit ∧ limit ≤ 1000) (hnow : 0 ≤ now) :
    Paging.Pages (fun after => ∀ key ∈ after, 1 ≤ key.length ∧ key.length ≤ 1024)
      (fun after => (listed table scope pre now).filter fun e => after.all fun key =>
        decide (key < e.1.1)) (kvList table scope pre limit now) := by
  have hfirst : ∀ e ∈ listed table scope pre now, pageFull limit 0 0 e = false := by
    simp [pageFull]; omega
  have hlast : ∀ bytes e, pageFull limit limit bytes e = true := by simp [pageFull]
  refine Paging.pages_takeRows Entry.bytes listed_sorted
    (fun _ => funext fun _ => decide_eq_decide.2 Iff.rfl) (fun after a b ha hlt => ?_)
    (fun e _ key hkey => Option.mem_some.1 hkey ▸ e.1.2) hlast hfirst fun after hafter => ?_
  · cases after with
    | none => rfl
    | some key => exact decide_eq_true ((of_decide_eq_true ha).trans hlt)
  · have hkey : ∃ k, after.mapM validateKey = .ok k := by
      cases after with
      | none => exact ⟨none, rfl⟩
      | some key => simp [validateKey, hafter key rfl]
    obtain ⟨k, hk⟩ := hkey
    simp only [kvList, validateScope, validateNow, hk, reject_bind_eq_ok, ok_bind]
    exact ⟨by simpa, by simpa, by simp; omega, by simpa, rfl⟩

/-- Following the cursors of a listing ends, with exactly the live entries of the scope whose keys
have the prefix, in the order of their keys. -/
theorem kv_listing_complete (table : Table) (scope pre : Bytes) (limit : Nat) (now : Int)
    (hscope : scope.length ≤ 1024) (hpre : pre.length ≤ 1024) (hlimit : 1 ≤ limit ∧ limit ≤ 1000)
    (hnow : 0 ≤ now) :
    ∃ rows, (∀ l, Paging.Lists (kvList table scope pre limit now) none l ↔ l = rows) ∧
      rows.Pairwise (fun a b => a.1.1 < b.1.1) ∧
      ∀ key row, (key, row) ∈ rows ↔
        table.get? (toLex (scope, key)) = some row ∧ row.live now = true ∧ pre <+: key.1 := by
  refine ⟨listed table scope pre now, fun l => ?_, listed_sorted, fun _ _ => mem_listed⟩
  rw [(kvList_pages table hscope hpre hlimit hnow).lists_iff (by simp)]
  simp

/-- A table with two entries, whose keys start with 0xFF. -/
def twoEntries : Table :=
  (OrderedMap.empty.insert (toLex ([7], ⟨[255, 1], by decide⟩))
    ⟨.fill 28 0, ⟨[1], by decide⟩, some 5⟩).insert (toLex ([7], ⟨[255, 2], by decide⟩))
    ⟨.fill 28 0, ⟨[2], by decide⟩, none⟩

/-- The keys that start with 0xFF, which has no successor, in pages of one entry. -/
theorem kv_listing_complete_two :
    ∃ rows, Paging.Lists (kvList twoEntries [7] [255] 1 0) none rows ∧ rows.length = 2 ∧
      ∀ key row, (key, row) ∈ rows ↔
        twoEntries.get? (toLex ([7], key)) = some row ∧ row.live 0 = true ∧ [255] <+: key.1 := by
  obtain ⟨rows, hlists, _, hmem⟩ :=
    kv_listing_complete twoEntries [7] [255] 1 0 (by decide) (by decide) (by decide) le_rfl
  refine ⟨rows, (hlists rows).2 rfl, ?_, hmem⟩
  rw [← (hlists _).1 (.next rfl (.last rfl))]
  rfl

end Kv

end Cellule
