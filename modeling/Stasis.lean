import Stasis.Recovery.AbortComplete
import Stasis.Recovery.Revival
import Stasis.Recovery.ExactlyOnce
import Stasis.Truncation.Safety
import Stasis.Logger.SafeWrites.Recovery
import Stasis.Logger.Pending
import Stasis.PageHandle
import Stasis.Logger.Commit
import Stasis.LockManager.Isolation
import Stasis.LockManager.Ended
import Stasis.TransactionTable.SlotSafety
import Stasis.Logger.FilePool.Names
import Stasis.Logger.LateTruncation
import Stasis.Operations.LinearHash.Rollback
import Stasis.Operations.LinearHash.Growth
import Stasis.BufferManager.BufferHash.Coherence
import Stasis.Util.ConcurrentHash.Fsck
import Stasis.ReplacementPolicy.Clock
import Stasis.Page.Fixed
import Stasis.Page.EmptyRecords
import Stasis.RangeTracker.Tracking
import Stasis.AllocationPolicy.Pick
import Stasis.Truncation.InMemoryLog
import Stasis.Operations.Regions.Safety
import Stasis.Operations.LinkedList.AssociationList
import Stasis.Operations.ArrayList
import Stasis.Operations.Blobs
import Stasis.Operations.SegmentFile
import Stasis.Experimental.RingBuffer
