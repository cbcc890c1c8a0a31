import Cellule.Lib.ByteFile
import Cellule.Lib.Stateful
import Cellule.Ltx.Format

/-!
# The sparse writable database file

The file behind a writable database of `cellule-ltx/src/writable_vfs/`. It starts as a hole of the
size of the root's database; a page is fetched from the root and written into the file when it is
first read or partly overwritten, or hydrated in the background. A bit for every page says whether
its bytes in the file count (`present`); pages above the `ceiling` were cut off and are not fetched
any more.
-/

namespace Cellule

open Stateful

/-- A root and the file opened over it (`App`, `mod.rs:43`). -/
structure SparseApp where
  /-- Which activation this is. -/
  id : Nat
  pageSize : UInt32
  count : Nat
  /-- The pages of the root, as the authenticated reader returns them. -/
  root : Nat → Bytes
  valid : isValidPageSize pageSize = true
  bound : count ≤ u32Max

namespace SparseApp

variable (app : SparseApp)

def size : Nat := app.pageSize.toNat

def lock : Nat := lockPgno app.pageSize

/-- The page that holds a byte of the file. -/
def pageOf (i : Nat) : Nat := i / app.size + 1

/-- The pages of a range that the root has. -/
def inherited (first last : Nat) : List Nat := List.range' first (min last app.count + 1 - first)

end SparseApp

/-- `Hydration` (`mod.rs:19`). -/
structure Hydration where
  resolved : Nat
  total : Nat
  faults : Nat
  deriving DecidableEq

/-- `Hydration::complete` (`mod.rs:31`). -/
def Hydration.complete (h : Hydration) : Bool := h.resolved == h.total

/-- The base file, the state of the activation and the cursor of its registration. Reference:
`State` and `Registration` (`mod.rs:36`, `:77`). -/
structure SparseState where
  base : ByteFile
  present : Nat → Bool
  ceiling : Nat
  resolved : Nat
  faults : Nat
  cursor : Nat

/-- What the surroundings of a call allow: fetching a page, the room for it and writing it, and the
call's own operation on the base file. -/
structure Surroundings where
  page : Nat → Bool := fun _ => true
  room : Nat → Bool := fun _ => true
  base : Bool := true

/-- `HydrationRead` (`hydration.rs:9`). -/
structure HydrationRead where
  app : Nat
  pages : List Nat
  next : Nat
  deriving DecidableEq

/-- `HydrationBatch` (`hydration.rs:16`). -/
structure HydrationBatch where
  app : Nat
  pages : List (Nat × Bytes)
  next : Nat
  deriving DecidableEq

/-- `page_range` (`mod.rs:294`). -/
def pageRange (amount offset : Int) (pageSize : Nat) : LtxResult (Nat × Nat) := do
  Except.reject (decide (amount ≤ 0) || decide (offset < 0)) .ltxCorrupted
  let last := offset + (amount - 1)
  Except.reject (decide (last > i64Max)) .ltxCorrupted
  let first := offset.toNat / pageSize + 1
  let last := last.toNat / pageSize + 1
  Except.reject (decide (first > u32Max) || decide (last > u32Max)) .ltxCorrupted
  pure (first, last)

namespace SparseApp

variable (app : SparseApp) (env : Surroundings)

/-- A registration as it is made, over a file that is a hole (`Registration::new`, `mod.rs:85`). -/
def register : SparseState where
  base := ⟨app.count * app.size, fun _ => 0, fun _ _ => rfl⟩
  present _ := false
  ceiling := app.count
  resolved := 0
  faults := 0
  cursor := 1

/-- `Registration::hydration` (`mod.rs:165`). -/
def hydration (s : SparseState) : Hydration where
  resolved := s.resolved
  total := app.count - if app.lock ≤ app.count then 1 else 0
  faults := s.faults

/-- `mark` (`mod.rs:225`). -/
def mark (s : SparseState) (page : Nat) : SparseState :=
  if page = 0 ∨ page > app.count ∨ page = app.lock then s
  else if s.present page then s
  else { s with present := Function.update s.present page true, resolved := s.resolved + 1 }

/-- `install_page` (`mod.rs:260`). -/
def installPage (page : Nat) (bytes : Bytes) : Stateful LtxError SparseState Unit := do
  change fun s => { s with faults := s.faults + 1 }
  let s ← look
  if page > s.ceiling ∨ s.present page = true then pure ()
  else
    rejectWhen (bytes.length != app.size) .ltxCorrupted
    rejectWhen (!env.room page) .io
    change fun s => app.mark { s with base := s.base.write ((page - 1) * app.size) bytes } page

/-- One page of `hydrate`. -/
def hydratePage (page : Nat) : Stateful LtxError SparseState Unit := do
  let s ← look
  if page = app.lock ∨ page > s.ceiling ∨ s.present page = true then pure ()
  else
    rejectWhen (!env.page page) .io
    app.installPage env page (app.root page)

/-- `hydrate` (`mod.rs:235`). -/
def hydrate (first last : Nat) : Stateful LtxError SparseState Unit :=
  (app.inherited first last).forM (app.hydratePage env)

/-- The bytes read, and whether the read went behind the end (`x_read`, `mod.rs:350`). -/
def xRead (amount offset : Int) : Stateful LtxError SparseState (Bytes × Bool) :=
  if amount = 0 then pure ([], false)
  else do
    let (first, last) ← Stateful.lift (pageRange amount offset app.size)
    app.hydrate env first last
    rejectWhen (!env.base) .io
    let s ← look
    pure (s.base.read offset.toNat amount.toNat)

/-- A page that a write overwrites in part, because the write begins or ends inside it, is
hydrated. -/
def hydrateEdge (edge page : Nat) : Stateful LtxError SparseState Unit :=
  if edge % app.size = 0 then pure () else app.hydrate env page page

/-- `x_write` (`mod.rs:404`). -/
def xWrite (data : Bytes) (offset : Int) : Stateful LtxError SparseState Unit :=
  if data.length = 0 then pure ()
  else do
    let (first, last) ← Stateful.lift (pageRange data.length offset app.size)
    app.hydrateEdge env offset.toNat first
    app.hydrateEdge env (offset.toNat + data.length) last
    rejectWhen (!env.base) .io
    change fun s => (app.inherited first last).foldl app.mark
      { s with base := s.base.write offset.toNat data }

/-- The pages that a truncation takes away. Reference: the loop of `x_truncate`
(`mod.rs:471`). -/
def cutPages (keep ceiling : Nat) : List Nat :=
  List.range' (min (keep + 1) u32Max) (ceiling + 1 - min (keep + 1) u32Max)

/-- `x_truncate` (`mod.rs:471`). -/
def xTruncate (size : Int) : Stateful LtxError SparseState Unit := do
  rejectWhen (decide (size < 0) || size.toNat % app.size != 0) .ltxCorrupted
  let keep := size.toNat / app.size
  rejectWhen (decide (keep > u32Max)) .ltxCorrupted
  rejectWhen (!env.base) .io
  change fun s =>
    let s := (cutPages keep s.ceiling).foldl app.mark { s with base := s.base.truncate size.toNat }
    { s with ceiling := min s.ceiling keep }

/-- Reads a page through the connection; a short read is an error (`read_main`,
`db/mod.rs:1208`). -/
def readMain (page : Nat) : Stateful LtxError SparseState Unit := do
  let (_, short) ← app.xRead env app.size (((page - 1) * app.size : Nat) : Int)
  rejectWhen short .io

/-- Reads a page that is missing, given whether it is present. -/
def readMissing (present : Bool) (page : Nat) : Stateful LtxError SparseState Unit :=
  if present = false ∧ page ≠ app.lock then app.readMain env page else pure ()

/-- One page of `step`. The cursor is a `u32`, and stepping behind its last value panics. -/
def stepPage : Stateful LtxError SparseState Unit := do
  let s ← look
  app.readMissing env (s.present s.cursor) s.cursor
  rejectWhen (s.cursor == u32Max) (.invalidState "attempt to add with overflow")
  change fun s => { s with cursor := s.cursor + 1 }

/-- The loop of `step`, which moves the cursor in every round. -/
def stepLoop (env : Surroundings) (start pages : Nat) : Nat → Stateful LtxError SparseState Unit
  | 0 => pure ()
  | fuel + 1 => do
    let s ← look
    if s.cursor ≤ app.count ∧ s.resolved - start < pages then
      app.stepPage env
      stepLoop env start pages fuel
    else pure ()

/-- `Registration::step` (`mod.rs:179`). -/
def step (pages : Nat) : Stateful LtxError SparseState Hydration := do
  let s ← look
  app.stepLoop env s.resolved pages (app.count + 1 - s.cursor)
  let s ← look
  pure (app.hydration s)

/-- The loop of `prepare_hydration`. -/
def planLoop (s : SparseState) (limit : Nat) : Nat → List Nat → Nat →
    LtxResult (List Nat × Nat)
  | 0, pages, next => .ok (pages, next)
  | fuel + 1, pages, next =>
    if next ≤ app.count ∧ pages.length < limit then
      if next = u32Max then .error .ltxCorrupted
      else
        planLoop s limit fuel
          (if next ≤ s.ceiling ∧ s.present next = false ∧ next ≠ app.lock then pages
            ++ [next] else pages)
          (next + 1)
    else .ok (pages, next)

/-- `Registration::prepare_hydration` (`hydration.rs:66`). -/
def prepareHydration (s : SparseState) (limit : Nat) : LtxResult HydrationRead := do
  Except.reject (decide (limit < 1) || decide (limit > 64))
    (.invalidState "hydration batch must contain 1..64 pages")
  let (pages, next) ← app.planLoop s limit (app.count + 1 - s.cursor) [] s.cursor
  pure ⟨app.id, pages, next⟩

/-- How many pages follow a page without a gap. -/
def following : Nat → List Nat → Nat
  | _, [] => 0
  | page, next :: pages => if next = page + 1 then following next pages + 1 else 0

/-- The loop of `fetch`. What a request returns is given by the number of pages it serves. -/
def fetchLoop (serve : Nat → Nat → Option Nat) (plan : List Nat) :
    Nat → List (Nat × Bytes) → LtxResult (List (Nat × Bytes))
  | 0, pages => .ok pages
  | fuel + 1, pages =>
    match plan.drop pages.length with
    | [] => .ok pages
    | first :: rest => do
      let count := following first rest + 1
      let served ← (serve first count).elim (.error .io) .ok
      Except.reject (served == 0 || decide (served > count)) .ltxCorrupted
      let fetched := (List.range' first served).map fun page => (page, app.root page)
      Except.reject (fetched.map (·.1) != (plan.drop pages.length).take served
        || fetched.any fun page => page.2.length != app.size) .ltxCorrupted
      fetchLoop serve plan fuel (pages ++ fetched)

/-- `HydrationRead::fetch` (`hydration.rs:33`). -/
def fetch (serve : Nat → Nat → Option Nat) (read : HydrationRead) : LtxResult HydrationBatch := do
  let pages ← app.fetchLoop serve read.pages read.pages.length []
  pure ⟨read.app, pages, read.next⟩

/-- `Registration::install_hydration` (`hydration.rs:95`). -/
def installHydration (batch : HydrationBatch) : Stateful LtxError SparseState Hydration := do
  rejectWhen (app.id != batch.app) (.invalidState "hydration batch belongs to another activation")
  batch.pages.forM fun page => app.installPage env page.1 page.2
  change fun s => { s with cursor := max s.cursor batch.next }
  let s ← look
  pure (app.hydration s)

end SparseApp

end Cellule
