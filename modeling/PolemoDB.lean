import PolemoDB.Aocs.CoversTuple
import PolemoDB.Aocs.PartialScan
import PolemoDB.AppendOnly.VisimapFinish
import PolemoDB.AppendOnly.VisimapScan
import PolemoDB.Bitmap.Catchup
import PolemoDB.Bitmap.InsertShift
import PolemoDB.Bitmap.IterateDrain
import PolemoDB.Bitmap.XlogReplay
import PolemoDB.Cdb.BufferedAppend
import PolemoDB.Cdb.DtxAtomic
import PolemoDB.Cdb.EndpointTokens
import PolemoDB.Cdb.SnapshotRun
import PolemoDB.Cdb.StandbySnapshot
import PolemoDB.Cdb.TargetedDispatchCover
import PolemoDB.Cdb.WaitGxids
import PolemoDB.Gdd.BreakDeadLock
import PolemoDB.Gporca.ArrayCmp
import PolemoDB.Gporca.Deduplicate
import PolemoDB.Gporca.EquivClasses
import PolemoDB.Misc.BitmapTruncation
import PolemoDB.Misc.FstreamReadCorrect
import PolemoDB.Motion.CursorIcTable
import PolemoDB.Motion.ProxyDelivery
import PolemoDB.Motion.UdpTuples
import PolemoDB.Motion.UdpWrap
import PolemoDB.Optimizer.ValueSetSound
import PolemoDB.Parser.PartitionRangeMeaning
import PolemoDB.Resgroup.SegmentSlots
import PolemoDB.Resscheduler.ResQueueWaiters
import PolemoDB.Transam.DistributedLogSafe
