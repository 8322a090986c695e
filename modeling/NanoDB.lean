import NanoDB.Lib.LittleEndian
import NanoDB.Lib.Trace
import NanoDB.Lib.Quorum
import NanoDB.Lib.Ballot
import NanoDB.Lib.Replog
import NanoDB.Lib.ReplogSafe
import NanoDB.Lib.Heap
import NanoDB.Lib.Beam
import NanoDB.Lib.BeamVisits
import NanoDB.Lib.Successor
import NanoDB.Lib.Ranking
import NanoDB.Lib.Store
import NanoDB.Lib.Service
import NanoDB.Lib.History
import NanoDB.Lib.Files
import NanoDB.Lib.Grouping
import NanoDB.Lib.Splits
import NanoDB.Lib.Frontier
import NanoDB.Lib.While
import NanoDB.Lib.Selection
import NanoDB.Lib.Slots
import NanoDB.Lib.Progress
import NanoDB.Lib.Rounded
import NanoDB.RaftLog
import NanoDB.RaftNode
import NanoDB.RaftCluster
import NanoDB.RaftElection
import NanoDB.RaftShows
import NanoDB.RaftCompact
import NanoDB.RaftMatching
import NanoDB.RaftRefines
import NanoDB.RaftAccept
import NanoDB.RaftCommit
import NanoDB.RaftCommitRule
import NanoDB.RaftInv
import NanoDB.RaftTerms
import NanoDB.RaftSafety
import NanoDB.RaftIndex
import NanoDB.RaftSend
import NanoDB.RaftLogMatching
import NanoDB.RaftFile
import NanoDB.RaftCut
import NanoDB.RaftPropose
import NanoDB.HashRing
import NanoDB.HashRingMoves
import NanoDB.Coordinator
import NanoDB.ConfigFile
import NanoDB.Topology
import NanoDB.CoordSnapshot
import NanoDB.CoordPoll
import NanoDB.CoordFleet
import NanoDB.CoordFold
import NanoDB.CoordRestart
import NanoDB.CoordEpoch
import NanoDB.Metadata
import NanoDB.IdMap
import NanoDB.IdMapTorn
import NanoDB.Hnsw
import NanoDB.HnswGraph
import NanoDB.HnswAlive
import NanoDB.HnswTable
import NanoDB.HnswCount
import NanoDB.HnswFind
import NanoDB.HnswRevive
import NanoDB.HnswSearch
import NanoDB.HnswLists
import NanoDB.HnswBounds
import NanoDB.HnswDescent
import NanoDB.HnswSelect
import NanoDB.HnswEntry
import NanoDB.Distance
import NanoDB.VisitedSet
import NanoDB.ShardService
import NanoDB.ShardMap
import NanoDB.ShardCalls
import NanoDB.ShardPhantom
import NanoDB.ShardFence
import NanoDB.ShardLive
import NanoDB.ShardCount
import NanoDB.SearchGather
import NanoDB.SearchTargets
import NanoDB.QuorumWrite
import NanoDB.QuorumFence
import NanoDB.QuorumAgree
import NanoDB.CoordAdmin
import NanoDB.Failover
import NanoDB.CoordPrimary
import NanoDB.CoordRing
import NanoDB.Rebalance
import NanoDB.RebalanceSafe
import NanoDB.RebalanceAdd
import NanoDB.RebalanceAddSafe
import NanoDB.RebalanceAddEnds
import NanoDB.RebalanceAddPlace
import NanoDB.MemoryMap
import NanoDB.HnswGrowth
import NanoDB.HealthRounds
import NanoDB.CatchupTime
import NanoDB.CorpusSnapshot
import NanoDB.MannWhitney
import NanoDB.MannWhitneyFloor
import NanoDB.DetectorScore
import NanoDB.RecallBound
import NanoDB.GraphForensics
import NanoDB.ThreadPool
import NanoDB.RestServer
import NanoDB.HnswCrash
