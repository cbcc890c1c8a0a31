import Cellule.Ltx.CutBound
import Cellule.Ltx.Wal

/-!
# Counting the pages of a cut

The page counts that a sync of `cellule-ltx/src/capture` computes the bound of a cut on: the frames
that are not captured, before it reads the log, and the pages of an increment, after it has. What
the sync decides with the bounds is left out.
-/

namespace Cellule

/-- Where the last cut ended (`SyncInfo`, `capture/mod.rs:57`). -/
structure SyncInfo where
  offset : Int

/-- The part of the engine that the counts depend on (`CaptureEngine`, `capture/mod.rs:93`). -/
structure CaptureEngine where
  pageSize : UInt32

namespace CaptureEngine

def frameSize (e : CaptureEngine) : Nat := e.pageSize.toNat + walFrameHeaderSize

/-- The frames that no cut holds, when no snapshot is being taken (`CaptureEngine::sync_inner`,
`capture/wal.rs:194`). -/
def uncapturedFrames (e : CaptureEngine) (info : SyncInfo) (walSize : Int) : Nat :=
  ((max (saturatingSubInt walSize info.offset) 0).toNat + (e.frameSize - 1)) / e.frameSize

/-- The pages of an incremental cut: those of the map, and those the database grew by that the log
does not hold (`CaptureEngine::sync_inner`, `capture/wal.rs:333`). -/
def incrementalPages (e : CaptureEngine) (pageMap : OrderedMap Nat Int)
    (prevCommit commit : Nat) : Nat :=
  let keys := pageMap.entries.map (·.1)
  let lock := lockPgno e.pageSize
  let growth := commit - prevCommit
  let writtenNewPages := (keys.filter fun pgno => decide (pgno > prevCommit ∧ pgno ≤ commit)).length
  let missingLockPage := if lock > prevCommit ∧ lock ≤ commit ∧ lock ∉ keys then 1 else 0
  keys.length + (growth - writtenNewPages - missingLockPage)

end CaptureEngine

end Cellule
