import Zeptobeam.MailboxTornWrite
import Zeptobeam.DetsCompaction
import Zeptobeam.Bridge
import Zeptobeam.Scheduler
import Zeptobeam.SchedulerRun
import Zeptobeam.SchedulerMoves
import Zeptobeam.SchedulerTermination
import Zeptobeam.MonitorBook
import Zeptobeam.MonitorSymmetry
import Zeptobeam.MessageLedger
import Zeptobeam.MessageConservation
import Zeptobeam.HookLog
import Zeptobeam.HookCoverage
import Zeptobeam.Cluster
import Zeptobeam.NoLostWakeup
import Zeptobeam.ExitHandlers
import Zeptobeam.ExitPropagation
import Zeptobeam.ApprovalGate
import Zeptobeam.Orchestration
import Zeptobeam.OrchestratorApproval
import Zeptobeam.OrchestratorSpawns
import Zeptobeam.OrchestratorAnswers
import Zeptobeam.ClusterMessageOrder
import Zeptobeam.Lib.SlidingWindow
import Zeptobeam.RestartIntensity
import Zeptobeam.RestartPolicy
import Zeptobeam.ShutdownSurvivors
import Zeptobeam.SupervisorChildren
import Zeptobeam.EtsIsolation
import Zeptobeam.EtsOwners
import Zeptobeam.TaskGraphProgress
import Zeptobeam.OrchestratorSlots
import Zeptobeam.OrchestratorWorkers
import Zeptobeam.CompletedTasks
import Zeptobeam.OrchestratorCheckpoint
import Zeptobeam.GoalIsolation
import Zeptobeam.OrchestratorCompletion
import Zeptobeam.Release
import Zeptobeam.CheckpointStores
import Zeptobeam.DetsRefinesEts
import Zeptobeam.RegisteredNames
import Zeptobeam.McpSessions
import Zeptobeam.BridgeSlots
import Zeptobeam.TermOrder
import Zeptobeam.TermEquality
import Zeptobeam.CompactIntegers
import Zeptobeam.SelectiveReceive
import Zeptobeam.VmScheduler
import Zeptobeam.CopyTerm
import Zeptobeam.ErlangOrder
import Zeptobeam.FlatMapRuns
import Zeptobeam.EtfSequence
import Zeptobeam.BeamWalk
import Zeptobeam.TaskGraphUndo
import Zeptobeam.Utf8RoundTrip
import Zeptobeam.BsMatch
import Zeptobeam.MatchContexts
import Zeptobeam.CatchTags
import Zeptobeam.TailCalls
import Zeptobeam.LiveCode
import Zeptobeam.LabelResolution
import Zeptobeam.BinaryBuilder
import Zeptobeam.CycleDetection
import Zeptobeam.TaskGraphFailure
import Zeptobeam.TaskGraphListing
import Zeptobeam.RetryBudget
import Zeptobeam.QueueFairness
import Zeptobeam.ChildOrder
import Zeptobeam.DetsTornLog
import Zeptobeam.DetsAtomicity
import Zeptobeam.ApprovalFreshness
import Zeptobeam.RateLimiter
import Zeptobeam.HotCode
import Zeptobeam.AgentWorker
import Zeptobeam.ResultAggregator
import Zeptobeam.ConfigReload
import Zeptobeam.SwarmDag
import Zeptobeam.SwarmRun
import Zeptobeam.Decomposition
import Zeptobeam.GuardBifs
import Zeptobeam.BinaryComparison
import Zeptobeam.ContextReuse
import Zeptobeam.TupleCreation
import Zeptobeam.MapElements
import Zeptobeam.ListBifs
import Zeptobeam.KeyFind
import Zeptobeam.IntegerBifs
import Zeptobeam.ExtractedIntegers
import Zeptobeam.IolistBinary
import Zeptobeam.BignumsPlaced
import Zeptobeam.VmFairness
import Zeptobeam.HeapAndStack
import Zeptobeam.BoxedObjects
import Zeptobeam.AtomTable
import Zeptobeam.IntegerToList
import Zeptobeam.EventManager
