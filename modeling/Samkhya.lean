import Samkhya.Foundations.Saturating
import Samkhya.Foundations.Multiplicity
import Samkhya.Foundations.JoinCount
import Samkhya.Foundations.BagJoin
import Samkhya.Foundations.FractionalCover
import Samkhya.Foundations.Loops
import Samkhya.Foundations.ParentForest
import Samkhya.Foundations.SpanningGrowth
import Samkhya.Foundations.FieldCodec
import Samkhya.Foundations.CellArray
import Samkhya.Foundations.ByteDevice
import Samkhya.Foundations.HashBits
import Samkhya.Foundations.Binary64
import Samkhya.Foundations.StableSort
import Samkhya.Foundations.SummaryHistory
import Samkhya.Foundations.OrderFree
import Samkhya.Foundations.InPlace
import Samkhya.Foundations.BitArray
import Samkhya.Foundations.RoundToEven
import Samkhya.Foundations.Interpolation
import Samkhya.Foundations.ExactArithmetic
import Samkhya.Foundations.EqualWidth
import Samkhya.Foundations.FloatFormat
import Samkhya.Foundations.KeyedRecords
import Samkhya.Foundations.Sqlite
import Samkhya.Foundations.GroupFold
import Samkhya.Foundations.DigitRuns
import Samkhya.Foundations.Sessions
import Samkhya.Foundations.DecimalFloat
import Samkhya.Core.Degree
import Samkhya.Core.Components
import Samkhya.Core.JoinCeiling
import Samkhya.Core.Connectivity
import Samkhya.Core.GreedyTree
import Samkhya.Core.SearchRuns
import Samkhya.Core.CeilingSoundness
import Samkhya.Core.ProductEnvelope
import Samkhya.Core.CeilingMonotone
import Samkhya.Core.CeilingAttach
import Samkhya.Core.CeilingOrder
import Samkhya.Core.LpBound
import Samkhya.Core.Hypergraph
import Samkhya.Core.Sketch
import Samkhya.Core.Stats
import Samkhya.Core.Puffin
import Samkhya.Core.PuffinReader
import Samkhya.Core.PuffinWriter
import Samkhya.Core.PuffinFaults
import Samkhya.Core.PuffinRoundTrip
import Samkhya.Foundations.Json
import Samkhya.Core.PuffinFooter
import Samkhya.Core.PuffinCompressed
import Samkhya.Core.HttpCorrector
import Samkhya.Core.CountMin
import Samkhya.Core.Hll
import Samkhya.Core.Bloom
import Samkhya.Core.EquiDepth
import Samkhya.Core.CorrelatedHistogram
import Samkhya.Core.SketchRoundTrip
import Samkhya.Core.HistogramTotals
import Samkhya.Core.CountMinMass
import Samkhya.Core.SketchMerge
import Samkhya.Core.Reencode
import Samkhya.Core.BloomRuns
import Samkhya.Core.CeilingCongr
import Samkhya.Core.EquiDepthError
import Samkhya.Core.CorrelatedCounts
import Samkhya.Core.CorrelatedMerge
import Samkhya.Core.Portable
import Samkhya.Bindings.JoinCeiling
import Samkhya.Bindings.NumberBoundary
import Samkhya.Duckdb.Sketcher
import Samkhya.Arrow.Ingest
import Samkhya.Arrow.CanonicalKey
import Samkhya.Arrow.SketchedCeiling
import Samkhya.Polars.Sketcher
import Samkhya.Duckdb.TextKeys
import Samkhya.DataFusion.Plan
import Samkhya.DataFusion.DerivedCeiling
import Samkhya.DataFusion.PreJoin
import Samkhya.DataFusion.TableProvider
import Samkhya.DataFusion.PlanShape
import Samkhya.Bench.Runner
import Samkhya.Qdrant.FilterBound
import Samkhya.Core.FeedbackOpen
import Samkhya.Core.FeedbackHistory
import Samkhya.Iceberg.Loader
import Samkhya.Iceberg.SidecarRoundTrip
import Samkhya.Iceberg.Snapshot
import Samkhya.DataFusion.PortableStats
import Samkhya.Cli.Stats
import Samkhya.Cli.Sketch
import Samkhya.Cli.Puffin
import Samkhya.Cli.Workspace
import Samkhya.Cli.VerifiedLoading
import Samkhya.Gpudb.ReplyParser
import Samkhya.Gpudb.InferServer
import Samkhya.Gpudb.InferProtocol
