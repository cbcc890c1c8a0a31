import Cellule.Control.Laws
import Cellule.NodeLog.RecoveryLaws
import Cellule.NodeLog.Confirmation
import Cellule.Coordination.Laws
import Cellule.Ltx.BuilderRetry
import Cellule.Ltx.CaptureLaws
import Cellule.Ltx.Compaction
import Cellule.Ltx.Lz4Buffer
import Cellule.Ltx.PageFileRuns
import Cellule.Ltx.SparseRuns
import Cellule.Ltx.WalScan
import Cellule.Cell.AtMostOnce
import Cellule.Cell.ReleaseCalls
import Cellule.Primitives.Blob
import Cellule.Primitives.Cron
import Cellule.Primitives.EffectRuns
import Cellule.Primitives.Kv
import Cellule.Primitives.QueueRuns
import Cellule.Bundle.Continuation
import Cellule.Bundle.LaneRuns
import Cellule.Fleet.Placement
