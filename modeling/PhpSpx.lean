import PhpSpx.Engine.ActiveName
import PhpSpx.Engine.Attached
import PhpSpx.Engine.CommandLine
import PhpSpx.Engine.Finalization
import PhpSpx.Engine.HeapHooks
import PhpSpx.Engine.InStep
import PhpSpx.Engine.Nesting
import PhpSpx.Engine.ProfilingHandler
import PhpSpx.Engine.SignalStatus
import PhpSpx.Engine.Signals
import PhpSpx.Lib.Binary64
import PhpSpx.Lib.Cells
import PhpSpx.Lib.DepthFirst
import PhpSpx.Lib.Descent
import PhpSpx.Lib.Filling
import PhpSpx.Lib.Forest
import PhpSpx.Lib.Heap
import PhpSpx.Lib.Json
import PhpSpx.Lib.JsonString
import PhpSpx.Lib.Lines
import PhpSpx.Lib.Outcome
import PhpSpx.Lib.Polyline
import PhpSpx.Lib.Run
import PhpSpx.Lib.Screen
import PhpSpx.Lib.Selection
import PhpSpx.Lib.Spans
import PhpSpx.Lib.Trie
import PhpSpx.Lib.Walk
import PhpSpx.Metric.Builtin
import PhpSpx.Metric.Collector
import PhpSpx.Metric.CpuWall
import PhpSpx.Metric.Freshness
import PhpSpx.Metric.Registry
import PhpSpx.Metric.Reported
import PhpSpx.Metric.Values
import PhpSpx.Profiler.Calibration
import PhpSpx.Profiler.CallTree
import PhpSpx.Profiler.CostBounds
import PhpSpx.Profiler.EnabledPart
import PhpSpx.Profiler.Event
import PhpSpx.Profiler.EventStream
import PhpSpx.Profiler.FuncTable
import PhpSpx.Profiler.Hmap
import PhpSpx.Profiler.HmapBlocks
import PhpSpx.Profiler.HmapRuns
import PhpSpx.Profiler.Limits
import PhpSpx.Profiler.Live
import PhpSpx.Profiler.OpenFrames
import PhpSpx.Profiler.PooledFuncTable
import PhpSpx.Profiler.Profile
import PhpSpx.Profiler.Refinement
import PhpSpx.Profiler.Sampler
import PhpSpx.Profiler.Saturation
import PhpSpx.Profiler.StringPool
import PhpSpx.Profiler.Tracer
import PhpSpx.Reporter.CliRows
import PhpSpx.Reporter.EnabledMetrics
import PhpSpx.Reporter.Fp
import PhpSpx.Reporter.Full
import PhpSpx.Reporter.LiveReport
import PhpSpx.Reporter.Metadata
import PhpSpx.Reporter.ProfilerReporter
import PhpSpx.Reporter.RelativeCosts
import PhpSpx.Reporter.Trace
import PhpSpx.Reporter.TraceBuffer
import PhpSpx.Request.Config
import PhpSpx.Request.Init
import PhpSpx.Request.IpMatch
import PhpSpx.Request.KeyCompare
import PhpSpx.Request.MetricList
import PhpSpx.Request.ValidatePath
import PhpSpx.Text.CString
import PhpSpx.Text.Decimals
import PhpSpx.Text.Fmt
import PhpSpx.Text.FmtLines
import PhpSpx.Text.JsonEscape
import PhpSpx.Text.Numerals
import PhpSpx.Text.Parse
import PhpSpx.Text.ParseSize
import PhpSpx.Text.StrBuffer
import PhpSpx.Text.StrBuilder
import PhpSpx.Text.StringSafe
import PhpSpx.Text.Tokenize
import PhpSpx.WebUi.CallGraph
import PhpSpx.WebUi.CallRangeTree
import PhpSpx.WebUi.CallTreeStats
import PhpSpx.WebUi.ChunkedRecords
import PhpSpx.WebUi.CumCosts
import PhpSpx.WebUi.FlameGraph
import PhpSpx.WebUi.FlatProfile
import PhpSpx.WebUi.FunctionNames
import PhpSpx.WebUi.FunctionsStats
import PhpSpx.WebUi.GraphLayout
import PhpSpx.WebUi.GraphOfCalls
import PhpSpx.WebUi.HotPath
import PhpSpx.WebUi.Layers
import PhpSpx.WebUi.MetricValuesList
import PhpSpx.WebUi.PackedRecordArray
import PhpSpx.WebUi.Page
import PhpSpx.WebUi.ProfileData
import PhpSpx.WebUi.ProfileRoundTrip
import PhpSpx.WebUi.Range
import PhpSpx.WebUi.RangeCallTree
import PhpSpx.WebUi.RangeTreeDepth
import PhpSpx.WebUi.RangeTreeSearch
import PhpSpx.WebUi.ReportList
import PhpSpx.WebUi.ReportReader
import PhpSpx.WebUi.ReportRoundTrip
import PhpSpx.WebUi.RunCallTree
import PhpSpx.WebUi.RunPage
import PhpSpx.WebUi.TimeLineBars
import PhpSpx.WebUi.TimeRangeCosts
import PhpSpx.WebUi.TimeRangeStats
import PhpSpx.WebUi.ViewTimeRange
