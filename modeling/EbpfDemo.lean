import EbpfDemo.Core.Machine
import EbpfDemo.Core.HashMap
import EbpfDemo.Core.ArrayMap
import EbpfDemo.Core.Ledger
import EbpfDemo.Core.Binary64
import EbpfDemo.Core.Dict
import EbpfDemo.Core.Stopwatch
import EbpfDemo.L1Encoding.Text
import EbpfDemo.L1Encoding.Json
import EbpfDemo.L1Encoding.Metrics
import EbpfDemo.L1Encoding.Labels
import EbpfDemo.L2Kernel.Counters
import EbpfDemo.L2Kernel.DiskIoSched
import EbpfDemo.L2Kernel.FileFsyncStat
import EbpfDemo.L3Loader.CompleteDrain
import EbpfDemo.L3Loader.MmapPoll
import EbpfDemo.L3Loader.IrqBuffer
import EbpfDemo.L4Client.EventGenerator
import EbpfDemo.L4Client.RunCleanup
import EbpfDemo.L5Concurrency.FirstInsert
import EbpfDemo.L5Concurrency.Conservation
import EbpfDemo.L5Concurrency.RunLock
import EbpfDemo.L2Kernel.CpuUsage
import EbpfDemo.L1Encoding.Usable
import EbpfDemo.Core.Selection
import EbpfDemo.L4Client.Blocks
import EbpfDemo.L4Client.Truncation
import EbpfDemo.Core.FileSys
import EbpfDemo.Core.RealPath
import EbpfDemo.L4Client.ToolPath
import EbpfDemo.L5Concurrency.RunState
import EbpfDemo.L4Client.Outcome
import EbpfDemo.L4Client.ExitStatus
import EbpfDemo.Core.Past
import EbpfDemo.L4Client.GracefulStop
import EbpfDemo.L5Concurrency.PublishedState
import EbpfDemo.Core.LineReader
import EbpfDemo.L4Client.ReadLimit
import EbpfDemo.L1Encoding.Report
import EbpfDemo.L3Loader.Reports
import EbpfDemo.L3Loader.RunningTotals
import EbpfDemo.L3Loader.Levels
import EbpfDemo.Core.Buffered
import EbpfDemo.L3Loader.Delivery
import EbpfDemo.Core.Totals
import EbpfDemo.L2Kernel.CpuViews
import EbpfDemo.L2Kernel.CpuRunDelay
import EbpfDemo.L5Concurrency.TornDelays
import EbpfDemo.L5Concurrency.TornSizes
import EbpfDemo.L5Concurrency.PageFaultPoll
import EbpfDemo.L2Kernel.DiskReadDelay
import EbpfDemo.L2Kernel.PageSwapStat
import EbpfDemo.L2Kernel.VfsDelay
import EbpfDemo.L3Loader.PollAlone
import EbpfDemo.L5Concurrency.SizeViews
import EbpfDemo.L3Loader.RetransmitViews
import EbpfDemo.L3Loader.ConnNames
import EbpfDemo.L3Loader.IrqReport
import EbpfDemo.L4Client.ToolConfig
import EbpfDemo.Core.Tally
import EbpfDemo.L1Encoding.Additive
import EbpfDemo.L1Encoding.Pieces
import EbpfDemo.L4Client.OutputBytes
import EbpfDemo.Core.Growth
import EbpfDemo.L3Loader.KeptTotals
import EbpfDemo.L2Kernel.IoAggregates
import EbpfDemo.L3Loader.FreqEvents
import EbpfDemo.L5Concurrency.FailedReads
import EbpfDemo.Core.Shortest
import EbpfDemo.L1Encoding.JsonText
import EbpfDemo.L1Encoding.JsonParse
import EbpfDemo.L4Client.Dashboard
import EbpfDemo.L4Client.PageEvents
import EbpfDemo.L4Client.SentEvents
import EbpfDemo.L5Concurrency.Session
import EbpfDemo.Core.Weigh
import EbpfDemo.L3Loader.Accounts
import EbpfDemo.L5Concurrency.DrainProgress
import EbpfDemo.L5Concurrency.FileOpen
import EbpfDemo.L5Concurrency.OomStat
import EbpfDemo.L5Concurrency.ReadPoll
import EbpfDemo.L5Concurrency.RetransmitRace
import EbpfDemo.L5Concurrency.RunCounts
import EbpfDemo.L5Concurrency.SocketStat
import EbpfDemo.L5Concurrency.UdpStat
import EbpfDemo.L1Encoding.Counts
import EbpfDemo.L4Client.Pipeline
import EbpfDemo.L5Concurrency.UdpMetrics
import EbpfDemo.Core.Pattern
import EbpfDemo.L1Encoding.LineRegex
import EbpfDemo.L1Encoding.Url
import EbpfDemo.L4Client.Deadline
import EbpfDemo.L4Client.Figures
import EbpfDemo.L4Client.Request
