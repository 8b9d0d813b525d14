import PMLib.Lib.Trace
import PMLib.Lib.RefCount
import PMLib.Lib.Windows
import PMLib.Lib.Blocks
import PMLib.Lib.Int32
import PMLib.Lib.Rounding
import PMLib.Lib.Binary32
import PMLib.Lib.Wire
import PMLib.Device
import PMLib.Server
import PMLib.Sessions
import PMLib.Accounting
import PMLib.Recording
import PMLib.ClosedSets
import PMLib.Replies
import PMLib.Measurements
import PMLib.Release
import PMLib.Timing
import PMLib.LineMask
import PMLib.SetLines
import PMLib.SelectionTables
import PMLib.Printers
import PMLib.Recordings
import PMLib.ReplyLayout
import PMLib.Attribution
import PMLib.Printed
import PMLib.Messages
import PMLib.CounterData
import PMLib.Requests
import PMLib.Status
import PMLib.Json
import PMLib.Configuration
import PMLib.Startup
import PMLib.Lib.Strides
import PMLib.Resampling
import PMLib.Legacy
import PMLib.LegacyReply
import PMLib.ResampledReplies
import PMLib.Frequency
import PMLib.Lib.Tapes
import PMLib.Interleaving
import PMLib.Alignment
import PMLib.AlignedRuns
import PMLib.TimingBuffer
import PMLib.Boundaries
import PMLib.Holding
import PMLib.SetArguments
import PMLib.TraceStart
import PMLib.EnergyPerSet
import PMLib.Streaming
import PMLib.StreamedTraces
import PMLib.Selections
import PMLib.LegacyLines
import PMLib.Lib.Strtod
import PMLib.WattsUp
import PMLib.Lib.Resync
import PMLib.ArduPower
import PMLib.ArduPowerStream
import PMLib.ArduPowerBits
import PMLib.Lib.ReadLog
import PMLib.SetLinesPointer
import PMLib.Lib.Simulation
import PMLib.Dispatch
import PMLib.Isolation
import PMLib.Discovery
import PMLib.LegacyServer
import PMLib.LegacySessions
import PMLib.LegacyBooks
import PMLib.Port
import PMLib.Lib.Spsc
import PMLib.Process
import PMLib.Delivery
import PMLib.Lifecycle
import PMLib.Stretches
import PMLib.EndToEnd
import PMLib.DC2
import PMLib.NI
import PMLib.StateTraces
import PMLib.ScoreP
