import GoblinCore.Store.Removal
import GoblinCore.ZSets.Adoption
import GoblinCore.Transactions.Watch
import GoblinCore.Transactions.Buffer
import GoblinCore.ZSets.RemovalBranches
import GoblinCore.Tables.MemberIndex
import GoblinCore.Lists.SegmentedListCompaction
import GoblinCore.Tables.LinearHashRuns
import GoblinCore.Lists.AdaptivePmaRefusal
import GoblinCore.Storage.ArrayStorage
import GoblinCore.Replication.Follower
import GoblinCore.Replication.CompactionKey
import GoblinCore.Tables.SwissRoom
import GoblinCore.PubSub.OutputQueue
import GoblinCore.Patterns.ScanGlob
import GoblinCore.Transport.OrderedInbox
import GoblinCore.Transport.Frames
