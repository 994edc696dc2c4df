import Treeweft.Keyed
import Treeweft.Paths
import Treeweft.Indexer
import Treeweft.Extract
import Treeweft.VectorStore
import Treeweft.GraphStore
import Treeweft.Connection
import Treeweft.GraphTransaction
import Treeweft.GraphInvariant
import Treeweft.FileIndex
import Treeweft.IncVectors
import Treeweft.IncGraph
import Treeweft.Auth
import Treeweft.Escalation
import Treeweft.Access
import Treeweft.AccessDecision
import Treeweft.Community
import Treeweft.Retrieval
import Treeweft.SearchLeak
import Treeweft.Prog
import Treeweft.Interleaving
import Treeweft.Alone
import Treeweft.Jobs
import Treeweft.UniqueIndex
import Treeweft.JobStore
import Treeweft.Runners
import Treeweft.IndexGuard
import Treeweft.PromptRefresh
import Treeweft.IndexStamp
import Treeweft.IndexCheck
import Treeweft.Softening
import Treeweft.Queue
import Treeweft.Service
import Treeweft.SingleExecution
import Treeweft.SkippedRoutes
import Treeweft.Waiting
import Treeweft.ScopedRole
import Treeweft.Webhook
import Treeweft.Replacement
import Treeweft.ChangeRun
import Treeweft.SourceId
import Treeweft.SourceListing
import Treeweft.BulkCli
import Treeweft.WebhookAnswer
import Treeweft.WebhookTarget
import Treeweft.Dispatch
import Treeweft.RequestOptions
import Treeweft.Like
import Treeweft.Ownership
import Treeweft.PathFilter
import Treeweft.TerminalStatus
import Treeweft.ActiveJobs
import Treeweft.Retry
import Treeweft.Recovery
import Treeweft.Guarded
import Treeweft.DoneDedup
import Treeweft.WaitingChain
import Treeweft.SummaryVersion
import Treeweft.SlotPool
import Treeweft.PrioritySlots
import Treeweft.EmbeddingSlots
import Treeweft.CircuitBreaker
import Treeweft.ControlLayer
import Treeweft.EmbeddingProxy
import Treeweft.EmbeddingOrder
import Treeweft.EmbeddingFailover
import Treeweft.EmbeddingProbe
import Treeweft.Reindex
import Treeweft.Resume
import Treeweft.Hydrate
import Treeweft.PromptPins
import Treeweft.Registries
import Treeweft.SlidingWindow
import Treeweft.Mutex
import Treeweft.LoginThrottle
import Treeweft.Migrations
import Treeweft.JsonSchema
import Treeweft.Contracts
import Treeweft.CommunitySignals
import Treeweft.Backfill
import Treeweft.FleetRefresh
import Treeweft.Resummarize
import Treeweft.Upsert
import Treeweft.RebuildLock
import Treeweft.Inet
import Treeweft.GitHost
import Treeweft.BoolExpr
import Treeweft.FilterText
import Treeweft.SharedEntities
import Treeweft.MergeRuns
import Treeweft.MergedRanges
import Treeweft.SplicedText
import Treeweft.Reranking
import Treeweft.Rounding
import Treeweft.RankPasses
import Treeweft.ResultOrder
import Treeweft.TokenBudget
import Treeweft.ResponseBudget
import Treeweft.PromptBuilder
import Treeweft.BreadthFirst
import Treeweft.Traverse
import Treeweft.FallbackChunks
import Treeweft.SyntaxGraph
import Treeweft.PrefixCode
import Treeweft.SourceIdentity
import Treeweft.Scatter
import Treeweft.SummaryCache
import Treeweft.SummaryVectors
import Treeweft.TailSummaries
import Treeweft.WriteGate
import Treeweft.PlannedRefresh
import Treeweft.PinChange
import Treeweft.JobListing
import Treeweft.CallBudget
import Treeweft.PathResolution
import Treeweft.CloneAccess
import Treeweft.FleetRotation
import Treeweft.SqlLexer
import Treeweft.ScannerAgreement
import Treeweft.CommonMark
import Treeweft.MarkdownAnswer
import Treeweft.JsonText
import Treeweft.AuditLog
import Treeweft.AgentTranscript
import Treeweft.PatternSearch
import Treeweft.AgentProtocol
import Treeweft.AgentMetrics
import Treeweft.NativeAgent
import Treeweft.CoinFlips
import Treeweft.Significance
import Treeweft.Preflight
import Treeweft.LineCount
import Treeweft.EmbeddingTokens
import Treeweft.RankingMetrics
import Treeweft.Rollup
import Treeweft.RepoPrefix
import Treeweft.Revocation
import Treeweft.McpCompat
import Treeweft.ReactAgent
import Treeweft.RankFusion
import Treeweft.HybridSearch
import Treeweft.RerankService
import Treeweft.GreedyBatches
import Treeweft.OpenAiEmbedding
import Treeweft.HydeCache
import Treeweft.SummaryFence
import Treeweft.AgentWire
