import Lace.Library.Search
import Lace.Library.PathSearch
import Lace.Library.Worklist
import Lace.Library.Forest
import Lace.Library.Traversal
import Lace.CCPG.Basic
import Lace.ThreadTree.Basic
import Lace.ThreadTree.Execution
import Lace.ThreadTree.Soundness
import Lace.CCPG.AliasChecker
import Lace.LockSet.Basic
import Lace.LockSet.Semantics
import Lace.LockSet.Simulation
import Lace.LockSet.Run
import Lace.HBGraph.Basic
import Lace.HBGraph.Build
import Lace.L2.Evidence
import Lace.L2.OrdReach
import Lace.L2.MustOrder
import Lace.L2.Check
import Lace.L2.NodeAccesses
import Lace.L2.Guarantees
import Lace.L2.SyncPolicy
import Lace.L2.Sessions
import Lace.L2.Region
import Lace.CCPG.Contexts
import Lace.LockSet.MustLockset
import Lace.LockSet.Confluence
import Lace.Library.Separated
import Lace.Library.Reorder
import Lace.Library.Leaders
import Lace.Library.Utf8
import Lace.LLM.Utf8
import Lace.LLM.Message
import Lace.LLM.Sanitize
import Lace.Library.Machine
import Lace.LLM.Conversation
import Lace.Query.Hypothesis
import Lace.Query.Verifier
import Lace.Query.Consistency
import Lace.LLM.Detector
import Lace.Surface.ProtectingLock
import Lace.CCPG.ThreadAPIUtil
import Lace.CCPG.NodeIds
import Lace.HBGraph.Joins
import Lace.HBGraph.LockEdges
import Lace.HBGraph.Query
import Lace.Library.Selection
import Lace.Library.Batches
import Lace.PhaseB.Clause
import Lace.PhaseB.Compose
import Lace.PhaseB.Selection
import Lace.PhaseB.Dedup
import Lace.LLM.ConfirmedRules
import Lace.LLM.Json
import Lace.LLM.VerificationAgent
import Lace.Query.LockProtection
import Lace.Surface.SharedFieldKey
import Lace.Library.DepthSearch
import Lace.Phasar.Footprint
import Lace.Phasar.EntryTiering
import Lace.Library.Memo
import Lace.PhaseB.ThreadPairs
import Lace.LLM.Interleaving
import Lace.LLM.ConcurrencyContract
import Lace.LLM.ContractGenerator
import Lace.LLM.ParallelAnalysis
import Lace.LLM.RuleVerify
import Lace.Report.CanonicalKey
import Lace.Surface.AccessGroups
import Lace.Surface.FreePropagation
import Lace.Surface.InitPublish
import Lace.Report.Dedup
import Lace.PhaseB.Batch
import Lace.CCPG.NodeLoc
import Lace.Library.Precedence
import Lace.LockSet.DeadLock
import Lace.Library.StagedFill
import Lace.LLM.ObjectDetails
import Lace.LLM.TokenBudget
import Lace.PhaseB.Serialization
import Lace.PhaseB.Siblings
import Lace.Query.PairPredicates
import Lace.Library.Flood
import Lace.CCPG.Functions
import Lace.ThreadTree.Build
import Lace.ThreadTree.WellFormed
import Lace.ThreadTree.CallPath
import Lace.ThreadTree.ParallelLocs
import Lace.CCPG.ManualEntry
import Lace.CPG.MethodNames
import Lace.CPG.MethodFiles
import Lace.CCPG.LocKeys
import Lace.ThreadTree.HandleJoins
import Lace.ThreadTree.ParallelPairs
import Lace.Query.Reachable
import Lace.Surface.DwarfFieldNames
import Lace.Surface.FieldKeyText
import Lace.PhaseB.BudgetedSessions
import Lace.PhaseB.SurfaceBudget
import Lace.CCPG.CallGraph
import Lace.ThreadTree.AllCallPaths
import Lace.CCPG.ControlFlow
import Lace.Query.SourceRefs
import Lace.Report.HypothesisGroups
import Lace.Phasar.CallDepth
import Lace.Library.Mutex
import Lace.PhaseB.ContractWorkers
import Lace.Surface.RiskScores
import Lace.Surface.Generate
import Lace.PhaseB.RecallFloor
import Lace.PhaseB.ContractBudget
import Lace.Report.DirectRun
import Lace.Library.ShellWords
import Lace.LLM.Client
import Lace.CPG.ConfigDefines
import Lace.Library.Lines
import Lace.CPG.Cache
import Lace.CPG.JoernCommand
