import ParallelJoin.Bitmap
import ParallelJoin.Oracle
import ParallelJoin.Product
import ParallelJoin.Partition
import ParallelJoin.Plans
import ParallelJoin.Worker
import ParallelJoin.Dp
import ParallelJoin.BushySplits
import ParallelJoin.IntSplits
import ParallelJoin.Optimal
import ParallelJoin.Invariant
import ParallelJoin.Search
import ParallelJoin.Clump
import ParallelJoin.ForceMerge
import ParallelJoin.Soundness
import ParallelJoin.Eval
import ParallelJoin.Joinlist
import ParallelJoin.Order
