import Flare.Lib.KeyRuns
import Flare.Lib.Slices
import Flare.Lib.GroupBy
import Flare.Lib.Join
import Flare.Lib.Interleaving
import Flare.Basic
import Flare.Shuffle.MapSide
import Flare.Shuffle.Exchange
import Flare.Shuffle.ReduceSide
import Flare.Shuffle.Correctness
import Flare.CoGroup.ReduceSide
import Flare.CoGroup.Correctness
import Flare.Narrow.Compute
import Flare.Narrow.Narrow
import Flare.Narrow.Caching
import Flare.SerializationFree
import Flare.Scheduler.Dag
import Flare.Scheduler.StageLock
import Flare.Io.LocalFileReader
import Flare.Lib.Fold
import Flare.Lib.Lowest
import Flare.Actions
import Flare.Zip
import Flare.ParallelCollection
import Flare.Coalesced
import Flare.BoundedPriorityQueue
import Flare.Lib.FisherYates
import Flare.Lib.Decimal
import Flare.Shuffle.Transfer
import Flare.Sample
import Flare.MapOutputTracker
import Flare.Scheduler.Stage
import Flare.Lib.Blocks
import Flare.Union
import Flare.Lib.KeyedMap
import Flare.Plain.Shuffle
import Flare.Plain.CoGroup
import Flare.CacheTracker
import Flare.Plain.Repartition
import Flare.Scheduler.EventLoop
