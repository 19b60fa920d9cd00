import Surch.Index.IntegrityBudget
import Surch.Postings.CheckedReads
import Surch.Api.SourceRuns
import Surch.Api.IdMapRuns
import Surch.Api.SearchCache
import Surch.Api.LiveSets
import Surch.Api.Hydration
import Surch.Index.Filing
import Surch.Api.FusedScores
import Surch.Api.Candidates
import Surch.Lib.Program
import Surch.Store.Wal
import Surch.Store.WalFile
import Surch.Lib.Decimal
import Surch.Store.IndexStore
import Surch.Store.Opening
import Surch.Lib.Runs
import Surch.Store.SegmentRuns
import Surch.Store.Recovery
import Surch.Lib.Pool
import Surch.Snapshot.Repository
import Surch.Snapshot.Service
import Surch.Snapshot.Calls
import Surch.Snapshot.Listing
import Surch.Snapshot.Blobs
import Surch.Slm.Cron
import Surch.Slm.Policy
import Surch.Slm.Scheduler
import Surch.Slm.History
import Surch.Slm.Kept
import Surch.Slm.Effective
import Surch.Slm.Coherence
import Surch.Api.MappingReplay
import Surch.Api.Catalog
import Surch.Lib.Lines
import Surch.Snapshot.Tarball
import Surch.Api.CatalogRuns
import Surch.Api.CatalogView
import Surch.Snapshot.RoundTrip
import Surch.Codec.Costs
import Surch.Codec.BlockReads
import Surch.Api.Aliases
import Surch.Lib.Session
import Surch.Api.Requests
import Surch.Api.AliasBatches
import Surch.Api.IndexCreation
import Surch.Snapshot.Cuts
import Surch.Postings.Faithfulness
import Surch.Index.Chains
import Surch.Api.OwnValues
import Surch.Codec.SkipSearch
import Surch.Postings.SkipIteration
import Surch.Index.MergeSelection
import Surch.Index.Quantization
import Surch.Search.SmallFloat
import Surch.Codec.Flat
import Surch.Codec.FlatReads
import Surch.Lib.Window
import Surch.Search.MaxScore
import Surch.Search.MaxScoreWalk
import Surch.Search.MaxScorePasses
import Surch.Search.MaxScoreGate
import Surch.Search.MaxScorePruning
import Surch.Lib.Pace
import Surch.Search.Execution
import Surch.Search.ExecutionRuns
import Surch.Index.SubfieldReads
import Surch.Lib.Interning
import Surch.Index.SubfieldMerges
import Surch.Index.SubfieldStreams
import Surch.Search.FuzzyExpansion
import Surch.Api.SourceCapacity
import Surch.Api.SortConsistency
import Surch.Api.CompositePaging
import Surch.Lib.Slicing
import Surch.Api.DocumentPages
import Surch.Api.RefreshSafety
import Surch.Api.BulkFraming
import Surch.Api.SingleTerm
import Surch.Api.SingleTermExact
import Surch.Index.LengthBounds
import Surch.Api.SingleTermRuns
import Surch.Lib.PrefixRange
import Surch.Index.PrefixScan
import Surch.Index.PrefixRuns
import Surch.Api.PrefixHits
import Surch.Lib.Glob
import Surch.Api.Wildcard
import Surch.Lib.Crc
import Surch.Store.Checksum
import Surch.Lib.Calendar
import Surch.Api.BucketDates
import Surch.Slm.NextFire
import Surch.Slm.CronLanguage
import Surch.Api.DateMath
import Surch.Lib.Leb128
import Surch.Codec.VarintReaders
import Surch.Store.DataIo
import Surch.Index.FieldInfos
import Surch.Index.FieldInfosCodec
import Surch.Index.SegmentInfos
import Surch.Index.SegmentCommits
import Surch.Index.CommitReads
import Surch.Lib.BinarySearch
import Surch.Api.Topn
import Surch.Index.Folding
import Surch.Api.TemplateRoutes
import Surch.Index.LengthTallies
import Surch.Index.TokenCounts
import Surch.Index.Accounts
import Surch.Index.AddingRuns
import Surch.Index.LengthReads
import Surch.Api.LengthStatistics
import Surch.Api.RangeMatches
import Surch.Snapshot.Restore
import Surch.Index.CheckedRuns
