import BaboEngine.AdapterEquivalence
import BaboEngine.AdapterRuns
import BaboEngine.AllOrNone
import BaboEngine.Answers
import BaboEngine.Audit
import BaboEngine.BabobookAdapter
import BaboEngine.CanonicalHash
import BaboEngine.CanonicalText
import BaboEngine.Cascade
import BaboEngine.ChainInsert
import BaboEngine.Clearing
import BaboEngine.Conservation
import BaboEngine.DecimalText
import BaboEngine.Depth
import BaboEngine.DepthCallbacks
import BaboEngine.DepthLevels
import BaboEngine.DepthOrderBook
import BaboEngine.DepthPasses
import BaboEngine.DepthRuns
import BaboEngine.DepthTallies
import BaboEngine.DepthTracking
import BaboEngine.Dispatch
import BaboEngine.DoublyLinked
import BaboEngine.EngineApi
import BaboEngine.Engines
import BaboEngine.Erasure
import BaboEngine.ExecutablePairs
import BaboEngine.FairSchedules
import BaboEngine.FastPaths
import BaboEngine.Generator
import BaboEngine.Handoff
import BaboEngine.InPlace
import BaboEngine.InPlaceReplace
import BaboEngine.Insertion
import BaboEngine.Iteration
import BaboEngine.Ladder
import BaboEngine.Lifecycle
import BaboEngine.Lifetimes
import BaboEngine.Liquibook
import BaboEngine.LiquibookAdapter
import BaboEngine.LiquibookBook
import BaboEngine.LiquibookCalls
import BaboEngine.LiquibookDepth
import BaboEngine.LiquibookObjects
import BaboEngine.LiquibookRuns
import BaboEngine.Listings
import BaboEngine.LittleEndian
import BaboEngine.MakeRoom
import BaboEngine.MatchingBook
import BaboEngine.MemoryPool
import BaboEngine.MerkleDamgard
import BaboEngine.Mirror
import BaboEngine.MirrorSymmetry
import BaboEngine.NarbTree
import BaboEngine.OrderChain
import BaboEngine.OrderedMap
import BaboEngine.Passes
import BaboEngine.PinNode
import BaboEngine.PinNodeRuns
import BaboEngine.PoolAccounts
import BaboEngine.PoolRuns
import BaboEngine.PriceIndex
import BaboEngine.PriceLevels
import BaboEngine.Priority
import BaboEngine.Rebalance
import BaboEngine.RedBlack
import BaboEngine.ReferenceFile
import BaboEngine.RelatedLists
import BaboEngine.Removal
import BaboEngine.ReportBound
import BaboEngine.ReportLedger
import BaboEngine.ReportLog
import BaboEngine.ReportQueries
import BaboEngine.ReportStream
import BaboEngine.Resizing
import BaboEngine.Sha256
import BaboEngine.SharedPools
import BaboEngine.SimpleOrder
import BaboEngine.Simulation
import BaboEngine.SizeReduction
import BaboEngine.StableSort
import BaboEngine.StopBatches
import BaboEngine.StopQueues
import BaboEngine.StopTriggers
import BaboEngine.Sweep
import BaboEngine.TradePrices
import BaboEngine.Transport
import BaboEngine.TreeOps
import BaboEngine.TreeRuns
import BaboEngine.Uncrossed
import BaboEngine.Verdict
import BaboEngine.Workload
