import Fomo.Lib.Run
import Fomo.Lib.BoundedHistory
import Fomo.Lib.HeapOrder
import Fomo.Lib.Arc
import Fomo.Lib.Marked
import Fomo.Lib.ListHead
import Fomo.Lib.KeyedList
import Fomo.Lib.MostRecent
import Fomo.Lib.Recency
import Fomo.Lib.Window
import Fomo.Lib.Count
import Fomo.Lib.Ring
import Fomo.Lib.View
import Fomo.Lib.DelayLine
import Fomo.Include.Common
import Fomo.Include.Epool
import Fomo.Include.Nucleus
import Fomo.Include.NucleusSpec
import Fomo.Include.Heap
import Fomo.Include.HeapOrder
import Fomo.Include.HeapKeys
import Fomo.Include.HeapRuns
import Fomo.Include.HeapSinks
import Fomo.Include.HeapWraps
import Fomo.Include.HeapBuild
import Fomo.Include.Api
import Fomo.Include.Contract
import Fomo.Include.Queued
import Fomo.Include.GhostQueue
import Fomo.Include.WindowStats
import Fomo.Include.Clean
import Fomo.Algs.LruPolicy
import Fomo.Algs.LruSteps
import Fomo.Algs.LruAsync
import Fomo.Algs.LruSync
import Fomo.Algs.LfuPolicy
import Fomo.Algs.LfuSteps
import Fomo.Algs.LfuOrder
import Fomo.Algs.LfuVictims
import Fomo.Algs.LfuWraps
import Fomo.Algs.ArcPolicy
import Fomo.Algs.ArcSteps
import Fomo.Algs.ArcMap
import Fomo.Algs.ArcBounds
import Fomo.Algs.ArcStructure
import Fomo.Algs.ArcSync
import Fomo.Algs.ArcWraps
import Fomo.Algs.ArcRemovals
import Fomo.Algs.LarcPolicy
import Fomo.Algs.LarcSteps
import Fomo.Algs.LarcBounds
import Fomo.Algs.LarcGhosts
import Fomo.Algs.LarcDivisions
import Fomo.Algs.LirsPolicy
import Fomo.Algs.LirsSteps
import Fomo.Algs.LirsEvictions
import Fomo.Algs.LirsMap
import Fomo.Algs.LirsContract
import Fomo.Algs.LirsStructure
import Fomo.Algs.LirsLength
import Fomo.Algs.LirsGhosts
import Fomo.Algs.LirsRemovals
import Fomo.Algs.LirsPruning
import Fomo.Algs.MapContract
import Fomo.Algs.MarcPolicy
import Fomo.Algs.MarcSteps
import Fomo.Mstar.MstarPhase
import Fomo.Mstar.MstarTransitions
import Fomo.Mstar.MstarLogic
import Fomo.Mstar.MstarPhases
import Fomo.Mstar.MstarDecisions
import Fomo.Mstar.MstarLearning
import Fomo.Mstar.MstarHitRate
import Fomo.Mstar.MstarPolicy
import Fomo.Mstar.MstarStructure
import Fomo.Mstar.MstarFailure
import Fomo.Mstar.MstarSteady
import Fomo.Mstar.MstarGhostSize
import Fomo.Mstar.MstarRemap
import Fomo.Mstar.MstarPrediction
import Fomo.Wrapper.FomoPolicy
import Fomo.Wrapper.FomoHistory
import Fomo.Wrapper.FomoSteps
import Fomo.Wrapper.FomoInvariant
import Fomo.Wrapper.FomoAdmission
import Fomo.Wrapper.FomoAutomaton
import Fomo.Wrapper.FomoPrediction
import Fomo.Wrapper.PolicyRegistry
import Fomo.Wrapper.FomoFilling
import Fomo.Include.Serving
import Fomo.Algs.ServingContract
import Fomo.Algs.Prediction
import Fomo.Algs.MarcStructure
import Fomo.Include.Statistics
import Fomo.Algs.MarcPhases
import Fomo.Algs.MarcGhostHits
import Fomo.Algs.Statistics
import Fomo.Algs.DirtyBits
import Fomo.Include.DirtyBlocks
import Fomo.Wrapper.WrapperStatistics
import Fomo.Wrapper.FomoTransparent
import Fomo.Lib.Units
import Fomo.TraceReader.TraceReader
import Fomo.TraceReader.TraceExpansion
import Fomo.TraceReader.NexusTrace
import Fomo.Sim.SimMigrationTracker
import Fomo.Sim.SimMigrationTiming
import Fomo.Sim.SimMain
import Fomo.Sim.SimMigrations
import Fomo.Sim.SimHoardRuns
import Fomo.DmcachePolicy.DmcacheBase
import Fomo.DmcachePolicy.Tracker
import Fomo.DmcachePolicy.LruCalls
import Fomo.DmcachePolicy.LruWriteback
import Fomo.DmcachePolicy.LruOverrides
import Fomo.DmcachePolicy.Locates
import Fomo.DmcachePolicy.BaseLocates
import Fomo.DmcachePolicy.WrapperLocates
import Fomo.DmcachePolicy.MarcLocates
import Fomo.DmcachePolicy.Locations
import Fomo.Algs.LfuCompare
import Fomo.Include.WindowRuns
import Fomo.Lib.LinkedRing
import Fomo.Include.QueueLinks
import Fomo.Include.EpoolLinks
import Fomo.Include.EpoolRuns
import Fomo.Include.EpoolAddresses
import Fomo.Lib.ChainedList
import Fomo.Include.HashTable
import Fomo.Lib.CString
import Fomo.Lib.NameTable
import Fomo.Include.AlgWrapper
import Fomo.Wrapper.WatchLists
import Fomo.Lib.Placement
import Fomo.DmcachePolicy.TargetView
import Fomo.DmcachePolicy.TargetPolicies
import Fomo.Lib.Paging
import Fomo.DmcachePolicy.LruCompetitive
import Fomo.Lib.WriteBack
import Fomo.Sim.SimSampling
import Fomo.Sim.SimLru
import Fomo.Sim.EntryTable
import Fomo.Sim.SimRecencyClassifier
import Fomo.Sim.SimRecencyRuns
import Fomo.Sim.SimLirHirCount
import Fomo.Sim.SimLirHirRuns
import Fomo.Sim.SimFreqCount
import Fomo.DmcachePolicy.Reload
import Fomo.DmcachePolicy.LruFlush
import Fomo.Lib.DoubleList
import Fomo.Lib.ArcDirectory
import Fomo.Algs.ArcDirectory
import Fomo.Include.QueueOblocks
import Fomo.Lib.Larc
import Fomo.Algs.LarcSync
import Fomo.Algs.LarcScan
import Fomo.Lib.WriteBackInclusion
import Fomo.Sim.SimMonotone
import Fomo.TraceReader.TraceDuration
import Fomo.Sim.SimFile
import Fomo.WorkingsetSize.SetSize
import Fomo.Sim.SimReference
