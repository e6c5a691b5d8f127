import Egregore.Adapters.Citations
import Egregore.Adapters.Coherent
import Egregore.Adapters.Embedded
import Egregore.Adapters.EmbeddedWrite
import Egregore.Adapters.HistorySpec
import Egregore.Adapters.Ingest
import Egregore.Adapters.IngestFixpoint
import Egregore.Adapters.IngestSpec
import Egregore.Adapters.LatestWrite
import Egregore.Adapters.LogSpec
import Egregore.Adapters.NodeLookup
import Egregore.Adapters.ReadAll
import Egregore.Adapters.ReadAllSpec
import Egregore.Adapters.Reopen
import Egregore.Adapters.Retraction
import Egregore.Adapters.Sink
import Egregore.Adapters.WriteEffect
import Egregore.Adapters.WriteLog
import Egregore.Base.Ancestors
import Egregore.Base.Binary32
import Egregore.Base.BinarySearch
import Egregore.Base.BoundedSearch
import Egregore.Base.BreadthFirst
import Egregore.Base.ByteString
import Egregore.Base.CaseFolding
import Egregore.Base.Champion
import Egregore.Base.Claims
import Egregore.Base.Crawl
import Egregore.Base.Dedup
import Egregore.Base.Durable
import Egregore.Base.ElementaryCycles
import Egregore.Base.Flood
import Egregore.Base.JsonText
import Egregore.Base.KeyedSearch
import Egregore.Base.LevelSearch
import Egregore.Base.Lines
import Egregore.Base.Matcher
import Egregore.Base.Occurrences
import Egregore.Base.OrderedMap
import Egregore.Base.OrderedUnion
import Egregore.Base.Paging
import Egregore.Base.Patchwork
import Egregore.Base.PathSearch
import Egregore.Base.PathStack
import Egregore.Base.PointerWalk
import Egregore.Base.Recency
import Egregore.Base.Saturation
import Egregore.Base.SliceSort
import Egregore.Base.Supersede
import Egregore.Base.Tally
import Egregore.Base.Tarjan
import Egregore.Base.Text
import Egregore.Base.Traverse
import Egregore.Base.UnionFind
import Egregore.Base.Utf8
import Egregore.Base.Worklist
import Egregore.Bundle
import Egregore.BundleSpec
import Egregore.CrateAttribution
import Egregore.CrateAttributionSpec
import Egregore.Daemon
import Egregore.DaemonSpec
import Egregore.Forget
import Egregore.ForgetSpec
import Egregore.Github.Artifacts
import Egregore.Github.Carried
import Egregore.Github.Client
import Egregore.Github.ClientSpec
import Egregore.Github.Import
import Egregore.Github.ImportSpec
import Egregore.Github.ImportTurns
import Egregore.Github.Model
import Egregore.Github.Records
import Egregore.Github.Reviews
import Egregore.Github.State
import Egregore.Github.StateSpec
import Egregore.Github.Timeline
import Egregore.GraphIndex.Body
import Egregore.GraphIndex.Build
import Egregore.GraphIndex.Closure
import Egregore.GraphIndex.ClosureSpec
import Egregore.GraphIndex.Format
import Egregore.GraphIndex.FormatSpec
import Egregore.GraphIndex.Neighbourhood
import Egregore.GraphIndex.Parity
import Egregore.Incremental
import Egregore.IncrementalSpec
import Egregore.Ir
import Egregore.Jsonl
import Egregore.Languages.CallTargets
import Egregore.Languages.CallTargetsSpec
import Egregore.Languages.CfgGates
import Egregore.Languages.CfgGatesSpec
import Egregore.Languages.ConfinedSpec
import Egregore.Languages.CrateRoots
import Egregore.Languages.CrateRootsSpec
import Egregore.Languages.CrossFileCalls
import Egregore.Languages.DispatchSpec
import Egregore.Languages.Facts
import Egregore.Languages.ImplTargets
import Egregore.Languages.OutOfLine
import Egregore.LogTemplate
import Egregore.LogTemplateSpec
import Egregore.MemoryRetire
import Egregore.MemoryRetireSpec
import Egregore.Query.AsOf
import Egregore.Query.AsOfSpec
import Egregore.Query.BeliefTimeline
import Egregore.Query.BeliefTimelineSpec
import Egregore.Query.CalleesAgree
import Egregore.Query.CalleesBounded
import Egregore.Query.CallersSpec
import Egregore.Query.CommitRank
import Egregore.Query.Current
import Egregore.Query.Cycles
import Egregore.Query.CyclesSpec
import Egregore.Query.Deps
import Egregore.Query.EvidencePath
import Egregore.Query.EvidencePathSpec
import Egregore.Query.Lifeline
import Egregore.Query.LifelineSpec
import Egregore.Query.Liveness
import Egregore.Query.MemoryCollapse
import Egregore.Query.MemoryCollapseSpec
import Egregore.Query.Path
import Egregore.Query.PathSpec
import Egregore.Query.RangeDeltas
import Egregore.Query.RangeDeltasSpec
import Egregore.Query.Reordered
import Egregore.Query.Repo
import Egregore.Query.RepoCatalog
import Egregore.Query.RepoSpec
import Egregore.Query.RepresentativeOrder
import Egregore.Query.Stated
import Egregore.Query.TaskReady
import Egregore.Query.TaskReadySpec
import Egregore.Query.TransactionTime
import Egregore.Query.TransactionTimeSpec
import Egregore.Query.TransitiveCallees
import Egregore.Query.TransitiveCallers
import Egregore.Query.TxDelta
import Egregore.Query.TxFeed
import Egregore.ReceiptTrail
import Egregore.Redaction
import Egregore.RedactionMarkers
import Egregore.RedactionMarkersSpec
import Egregore.RedactionMeasure
import Egregore.RedactionSpans
import Egregore.RedactionSpec
import Egregore.RemoteUrl
import Egregore.RemoteUrlParts
import Egregore.RemoteUrlSpec
import Egregore.RepoEvict
import Egregore.RepoEvictFootprint
import Egregore.SchemaVersion
import Egregore.SupersessionHeads
import Egregore.TemporalStatus
import Egregore.TemporalStatusSpec
import Egregore.TokenRotation
import Egregore.WorktreeDiff
import Egregore.WorktreeDiffSpec
import Egregore.Base.Threads
import Egregore.Pressure
import Egregore.PressureSpec
import Egregore.LogFrames
import Egregore.LogFramesSpec
import Egregore.Base.SelfMeasure
import Egregore.Cli.ContextPack
import Egregore.Cli.ContextPackRows
import Egregore.Cli.ContextPackSpec
import Egregore.Base.FixedWidth
import Egregore.LogTime
import Egregore.LogScan
import Egregore.LogRecords
import Egregore.LogIdentity
import Egregore.LogLinks
import Egregore.LogScanSpec
import Egregore.LogOccurrencesSpec
import Egregore.LogEventsSpec
import Egregore.Query.FileCycles
import Egregore.Query.FileCyclesSpec
