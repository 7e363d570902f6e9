import StorageEngine.Lib.Runs
import StorageEngine.Lib.Loop
import StorageEngine.Disk.Manager
import StorageEngine.Disk.Slots
import StorageEngine.Disk.Calls
import StorageEngine.Disk.Scheduler
import StorageEngine.Disk.Service
import StorageEngine.Disk.Faults
import StorageEngine.Disk.Bounds
import StorageEngine.Disk.Space
import StorageEngine.Pool.ArcReplacer
import StorageEngine.Pool.BufferPool
import StorageEngine.Pool.Calls
import StorageEngine.Pool.Partition
import StorageEngine.Pool.Pins
import StorageEngine.Pool.Tracking
import StorageEngine.Pool.ArcCalls
import StorageEngine.Pool.TargetSize
import StorageEngine.Pool.GhostHits
import StorageEngine.Pool.Recency
import StorageEngine.Pool.Coherence
import StorageEngine.Pool.Counter
import StorageEngine.Pool.ReadBack
import StorageEngine.Pool.Durable
import StorageEngine.Pool.Reclaim
import StorageEngine.Pool.Requests
import StorageEngine.Pool.Locks
import StorageEngine.Pool.WriteBack
import StorageEngine.Pool.Totality
import StorageEngine.Pool.Flush
import StorageEngine.Pool.HashOrder
import StorageEngine.Pool.ScanResistance
import StorageEngine.Lib.Matches
import StorageEngine.Pool.Retarget
import StorageEngine.Lib.SameUnless
import StorageEngine.Pool.Builds
import StorageEngine.Lib.LittleEndian
import StorageEngine.Tree.Node
import StorageEngine.Tree.Codec
import StorageEngine.Tree.Layout
import StorageEngine.Tree.Format
import StorageEngine.Tree.NodeSearch
import StorageEngine.Lib.BPlusInsert
import StorageEngine.Lib.Prog
import StorageEngine.Lib.Handler
import StorageEngine.Lib.ProgLogic
import StorageEngine.Tree.BTree
import StorageEngine.Tree.PlainStore
import StorageEngine.Tree.Search
import StorageEngine.Lib.BPlusGrowth
import StorageEngine.Lib.BPlusPath
import StorageEngine.Tree.Insert
import StorageEngine.Lib.BPlusSize
import StorageEngine.Tree.Supply
import StorageEngine.Tree.Build
import StorageEngine.Tree.PathStack
import StorageEngine.Tree.Writes
import StorageEngine.Lib.BPlusChain
import StorageEngine.Tree.Index
import StorageEngine.Tree.Scan
import StorageEngine.Tree.Lookup
import StorageEngine.Tree.PoolStore
import StorageEngine.Tree.Size
import StorageEngine.Lib.OrderedIndex
import StorageEngine.Tree.Operations
import StorageEngine.Tree.Audit
import StorageEngine.Tree.PoolIndex
import StorageEngine.Tree.Builds
import StorageEngine.Tree.Unchecked
import StorageEngine.Lib.BPlusMap
import StorageEngine.Tree.Shape
import StorageEngine.Disk.Client
import StorageEngine.Pool.Client
import StorageEngine.Tree.Client
