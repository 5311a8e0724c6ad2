import P8.Lib.Bytes
import P8.Lib.Framing
import P8.Lib.SelfSized
import P8.Lib.Runs
import P8.Lib.LinkedQueue
import P8.Lib.DoublyLinked
import P8.Lib.NameTable
import P8.Lib.LockOrder
import P8.Lib.Sources
import P8.Lib.Spans
import P8.Protocol
import P8.Format
import P8.Format.Scan
import P8.Format.Grammar
import P8.Registry
import P8.Writer
import P8.Steps
import P8.Log.Send
import P8.Log.Emit
import P8.Log.Record
import P8.Log.Step
import P8.Log.Reader
import P8.Log.Run
import P8.Log.Cursor
import P8.Log.Discard
import P8.Log.Stream
import P8.Log.Sizes
import P8.Log.Headers
import P8.Log.Times
import P8.Mtk.Emit
import P8.Mtk.Run
import P8.Mtk.Times
import P8.Pool.Buffers
import P8.Pool.Batch
import P8.Pool.Clients
import P8.Pool.Ownership
import P8.Pool.Conservation
import P8.Pool.Fifo
import P8.Pool.Config
import P8.Pool.Stat
import P8.Pool.SizeText
import P8.Pool.Teardown
import P8.Service.Registries
import P8.Service.Encoders
import P8.Service.Entry
import P8.Service.Texts
import P8.Service.Buffers
import P8.Service.Stream
import P8.Service.Modules
import P8.Service.Metrics
import P8.Service.Accounting
import P8.Service.CallSites
import P8.Core.DropStats
import P8.Core.Writers
import P8.Core.Hello
import P8.Core.Outstanding
import P8.Sink.File
import P8.Sink.DataFile
import P8.Core.Pressure
import P8.Core.Lifetime
import P8.Core.Binding
import P8.Core.Initialize
import P8.Core.Construct
import P8.Core.Fallback
import P8.Core.Attributes
import P8.Core.Locks
import P8.Core.Flow
import P8.Core.Tracks
import P8.Core.Delivery
import P8.Core.ServiceOrder
import P8.Sink.Packets
import P8.Sink.Lossless
import P8.Log.Packets
import P8.Mtk.Packets
import P8.Session.System
import P8.Session.Writers
import P8.Session.Refines
import P8.Session.Streams
import P8.Session.Safety
import P8.Session.Files
import P8.Session.Receiver
import P8.Session.Latency
import P8.Pool.Contention
import P8.Session.Verbosity
import P8.Session.Calls
import P8.Core.Cadence
import P8.Session.Stopped
