import Cellule.Cell.Tables
import Cellule.Lib.Paging

/-!
# The schedules of a Cell

The cron primitive (`primitives/cron/mod.rs`) keeps one row for each schedule
(`migrations/cron.sql`). This module models what changes that table (`cronMutate`) and its listing
by pages (`cronList`). A listing starts after the identity of sixteen zero bytes, which a schedule
may have, so it is complete exactly when no schedule has it.
-/

namespace Cellule

open Except List

/-- The identity of a schedule. -/
abbrev ScheduleId := FixedId 16

/-- A row of `cron_schedules` with its `CHECK` constraints, without its key and the time of its last
update, which is never read (`CronSchedule`, `mod.rs:137`). -/
structure CronSchedule where
  targetIndex : Nat
  targetPartition : { bytes : Bytes // bytes.length ≤ 1024 }
  payload : { bytes : Bytes // bytes.length ≤ 262144 }
  intervalMs : Nat
  nextDue : Int
  occurrence : Nat
  enabled : Bool
  generation : Nat
  deriving DecidableEq

abbrev CronTable := OrderedMap ScheduleId CronSchedule

/-- Rows with their keys. -/
abbrev CronRows := List (ScheduleId × CronSchedule)

/-! ## Mutations -/

/-- `CronMutation` (`mod.rs:86`). -/
inductive CronMutation where
  | upsert (id : ScheduleId) (targetIndex : Nat) (targetPartition payload : Bytes)
      (intervalMs : Nat) (nextDue : Int)
  | pause (id : ScheduleId)
  | resume (id : ScheduleId) (nextDue : Int)
  | delete (id : ScheduleId)

/-- `CronMutationOutcome` (`mod.rs:123`). -/
inductive CronMutationOutcome where
  | applied (generation : Nat)
  | deleted
  | notFound
  deriving DecidableEq

/-- `validate_now` (`mod.rs:481`). -/
def validateCronNow (now : Int) : Result Unit :=
  reject (decide (now < 0)) (.command "negative cron logical time")

/-- `validate_due` (`mod.rs:467`). -/
def validateDue (issuedAt due : Int) : Result Unit :=
  reject (decide (due < issuedAt)
      || decide (due > saturatingAddInt issuedAt (5 * 365 * 24 * 60 * 60 * 1000)))
    (.command "cron due time is outside five-year window")

/-- `validate_schedule` (`mod.rs:440`), for a target with the given input limit. -/
def validateSchedule (issuedAt : Int) (inputLimit : Nat) (targetPartition payload : Bytes)
    (intervalMs : Nat) (nextDue : Int) : Result Unit := do
  reject (decide (targetPartition.length > 1024) || decide (payload.length > 256 * 1024))
    (.command "cron target or payload exceeds limits")
  reject (decide (intervalMs < 1000) || decide (intervalMs > 365 * 24 * 60 * 60 * 1000))
    (.command "cron interval must be between one second and one year")
  validateDue issuedAt nextDue
  reject (decide (payload.length + 64 > inputLimit))
    (.command "cron invocation exceeds target input limit")

/-- `set_enabled` (`mod.rs:382`). -/
def setEnabled (table : CronTable) (id : ScheduleId) (enabled : Bool) (nextDue : Option Int) :
    CronMutationOutcome × CronTable :=
  match table.get? id with
  | none => (.notFound, table)
  | some row =>
    let unchanged := row.enabled == enabled && nextDue.all (row.nextDue == ·)
    let generation := row.generation + if unchanged then 0 else 1
    (.applied generation,
      table.insert id { row with enabled, nextDue := nextDue.getD row.nextDue, generation })

/-- `cron_mutate` (`mod.rs:196`). A target is its input limit. -/
def cronMutate (now issuedAt : Int) (targets : List Nat) (table : CronTable)
    (mutation : CronMutation) : Result (CronMutationOutcome × CronTable) := do
  validateCronNow now
  validateCronNow issuedAt
  match mutation with
  | .upsert id targetIndex targetPartition payload intervalMs nextDue =>
    let inputLimit ← okOr targets[targetIndex]? (.command "cron target index is unavailable")
    validateSchedule issuedAt inputLimit targetPartition payload intervalMs nextDue
    let generation := ((table.get? id).map (·.generation)).getD 0 + 1
    if h : targetPartition.length ≤ 1024 ∧ payload.length ≤ 262144 then
      pure (.applied generation, table.insert id
        ⟨targetIndex, ⟨_, h.1⟩, ⟨_, h.2⟩, intervalMs, nextDue, 0, true, generation⟩)
    else .error .sqlite
  | .pause id => pure (setEnabled table id false none)
  | .resume id nextDue =>
    validateDue issuedAt nextDue
    pure (setEnabled table id true (some nextDue))
  | .delete id =>
    pure (if (table.get? id).isSome then .deleted else .notFound, table.erase id)

/-! ## Listing -/

/-- What a row counts in a page. -/
def CronSchedule.listBytes (s : CronSchedule) : Nat :=
  s.targetPartition.1.length + s.payload.1.length + 96

/-- The loop of `cron_query` over the rows it selected: the page, and whether a row is left out. -/
def takePage (limit : Nat) : CronRows → CronRows → Nat → CronRows × Bool
  | [], schedules, _ => (schedules, false)
  | e :: rows, schedules, bytes =>
    if schedules.length = limit ∨ bytes + e.2.listBytes > 512 * 1024 then (schedules, true)
    else takePage limit rows (schedules ++ [e]) (bytes + e.2.listBytes)

/-- The rows after a cursor. Without one they are those after sixteen zero bytes. -/
def CronTable.rowsAfter (table : CronTable) (after : Option ScheduleId) : CronRows :=
  table.entries.filter fun e => decide (after.getD (.fill 16 0) < e.1)

/-- `cron_query` for a list (`mod.rs:256`): a page, and the cursor to go on from. -/
def cronList (table : CronTable) (after : Option ScheduleId) (limit : Nat) :
    Result (CronRows × Option ScheduleId) := do
  reject (decide (limit < 1) || decide (limit > 128))
    (.command "cron list limit must be in 1..=128")
  let page := takePage limit ((table.rowsAfter after).take (limit + 1)) [] 0
  pure (page.1, if page.2 then page.1.getLast?.map (·.1) else none)

/-- Following the returned cursors from `after` until there is none lists these rows. -/
inductive CronTable.Lists (table : CronTable) (limit : Nat) : Option ScheduleId → CronRows → Prop
  | last {after : Option ScheduleId} {page : CronRows} :
      cronList table after limit = .ok (page, none) → Lists table limit after page
  | next {after : Option ScheduleId} {id : ScheduleId} {page rest : CronRows} :
      cronList table after limit = .ok (page, some id) → Lists table limit (some id) rest →
      Lists table limit after (page ++ rest)

/-! ## One page -/

variable {table : CronTable} {limit : Nat} {after : Option ScheduleId} {rows : CronRows}

/-- A page has no room for a row. -/
def pageFull (limit count bytes : Nat) (e : ScheduleId × CronSchedule) : Bool :=
  decide (count = limit ∨ bytes + e.2.listBytes > 512 * 1024)

/-- The loop of the page is the general one. -/
theorem takePage_eq (rows schedules : CronRows) (bytes : Nat) :
    takePage limit rows schedules bytes
      = Paging.takeRows (pageFull limit) (·.2.listBytes) rows schedules bytes := by
  induction rows generalizing schedules bytes with
  | nil => rfl
  | cons e rows ih => simp only [takePage, Paging.takeRows, pageFull, ih, decide_eq_true_eq]

/-- Pages follow each other. Every row alone fits in a page. -/
theorem cronList_pages (table : CronTable) (hlimit : 1 ≤ limit ∧ limit ≤ 128) :
    Paging.Pages (fun _ => True) table.rowsAfter fun after => cronList table after limit := by
  have hfits : ∀ e ∈ table.entries, pageFull limit 0 0 e = false := by
    intro e _
    have hbytes : e.2.listBytes ≤ 1024 + 262144 + 96 :=
      Nat.add_le_add_right (Nat.add_le_add e.2.targetPartition.2 e.2.payload.2) 96
    rw [pageFull, decide_eq_false_iff_not]
    omega
  have hlimit' : ∀ bytes e, pageFull limit limit bytes e = true :=
    fun _ _ => decide_eq_true (.inl rfl)
  refine Paging.pages_takeRows (·.2.listBytes) table.sorted (fun _ => rfl) (fun _ _ _ h hlt => ?_)
    (fun _ _ => trivial) hlimit' hfits fun after _ => ?_
  · exact decide_eq_true ((of_decide_eq_true h).trans hlt)
  · unfold cronList
    rw [takePage_eq, reject_bind_eq_ok]
    exact ⟨by simp; omega, rfl⟩

/-! ## The whole listing -/

/-- A listing ends, and lists the rows after its first cursor and nothing else. -/
theorem CronTable.lists_iff (hlimit : 1 ≤ limit ∧ limit ≤ 128) :
    table.Lists limit after rows ↔ rows = table.rowsAfter after := by
  refine Iff.trans ⟨fun h => ?_, fun h => ?_⟩ ((cronList_pages table hlimit).lists_iff trivial)
  · induction h with
    | last hlist => exact .last hlist
    | next hlist _ ih => exact .next hlist ih
  · induction h with
    | last hlist => exact .last hlist
    | next hlist _ ih => exact .next hlist ih

/-- The identity of zero bytes is the least one. -/
theorem FixedId.fill_zero_le (id : FixedId 16) : FixedId.fill 16 0 ≤ id := by
  change Bytes.ofBe (FixedId.fill 16 0).asBytes ≤ _
  rw [show Bytes.ofBe (FixedId.fill 16 0).asBytes = 0 by decide]
  exact Nat.zero_le _

/-- Following the cursors from none ends, with every schedule but that of sixteen zero bytes in the
order of their identities: it is complete exactly when that is not there. -/
theorem cron_listing_complete_iff (table : CronTable) (limit : Nat)
    (hlimit : 1 ≤ limit ∧ limit ≤ 128) :
    (∀ rows, table.Lists limit none rows ↔ rows = table.entries.filter (·.1 ≠ .fill 16 0)) ∧
      (table.Lists limit none table.entries ↔ table.get? (.fill 16 0) = none) := by
  have hrows : table.rowsAfter none = table.entries.filter (·.1 ≠ .fill 16 0) := by
    refine filter_congr fun e _ => decide_eq_decide.2 ?_
    exact (FixedId.fill_zero_le e.1).lt_iff_ne.trans ne_comm
  have hlists : ∀ rows, table.Lists limit none rows ↔
    rows = table.entries.filter (·.1 ≠ .fill 16 0) :=
    fun rows => hrows ▸ CronTable.lists_iff hlimit
  refine ⟨hlists, (hlists _).trans ?_⟩
  rw [eq_comm, filter_eq_self, Option.eq_none_iff_forall_ne_some]
  constructor
  · intro hall row hrow
    simpa using hall _ (OrderedMap.get?_eq_some.1 hrow)
  · intro hnone e he
    refine decide_eq_true fun heq => hnone e.2 (OrderedMap.get?_eq_some.2 ?_)
    rw [← heq]
    exact he

/-- The table that holds one schedule. -/
def onlySchedule (id : ScheduleId) : CronTable :=
  OrderedMap.empty.insert id ⟨0, ⟨[], Nat.zero_le _⟩, ⟨[], Nat.zero_le _⟩, 1000, 0, 0, true, 1⟩

/-- A table with two schedules. -/
def twoSchedules : CronTable :=
  (onlySchedule (.fill 16 1)).insert (.fill 16 2)
    ⟨0, ⟨[], Nat.zero_le _⟩, ⟨[], Nat.zero_le _⟩, 1000, 0, 0, true, 1⟩

/-- In pages of one schedule the second is listed from the cursor of the first. -/
theorem cron_listing_complete_two :
    twoSchedules.Lists 1 none twoSchedules.entries ∧
      twoSchedules.entries.map (·.1) = [.fill 16 1, .fill 16 2] :=
  ⟨(cron_listing_complete_iff twoSchedules 1 ⟨le_rfl, by decide⟩).2.2 rfl, rfl⟩

/-- A schedule of sixteen zero bytes is accepted and not listed. -/
theorem cron_listing_skips_zero :
    cronMutate 0 0 [64] .empty (.upsert (.fill 16 0) 0 [] [] 1000 0)
      = .ok (.applied 1, onlySchedule (.fill 16 0)) ∧
    (onlySchedule (.fill 16 0)).entries.length = 1 ∧
    (onlySchedule (.fill 16 0)).Lists 128 none [] :=
  ⟨rfl, rfl, .last rfl⟩

end Cellule
