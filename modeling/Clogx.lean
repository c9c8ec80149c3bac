import Clogx.CLib.Text
import Clogx.CLib.Numeral
import Clogx.CLib.Buffer
import Clogx.CLib.Pack
import Clogx.Assoc.Table
import Clogx.Machine.Run
import Clogx.Machine.Mutex
import Clogx.SeqRing.Protocol
import Clogx.Seqlock.Protocol
import Clogx.Word.Counter
import Clogx.Queue.Model
import Clogx.Queue.Invariant
import Clogx.Queue.Steps
import Clogx.Queue.History
import Clogx.Queue.Sync
import Clogx.Queue.Drain
import Clogx.Queue.Delivery
import Clogx.Queue.Fork
import Clogx.Queue.Wakeup
import Clogx.Queue.Blocking
import Clogx.Queue.Words
import Clogx.Queue.Record
import Clogx.Async.Model
import Clogx.Async.Worker
import Clogx.Async.Calls
import Clogx.Async.Shutdown
import Clogx.Async.Flush
import Clogx.Async.Order
import Clogx.Async.Returns
import Clogx.Stats.Model
import Clogx.Stats.Account
import Clogx.Stats.Room
import Clogx.Socket.Invariant
import Clogx.Socket.Steps
import Clogx.Stats.Depth
import Clogx.Socket.Lines
import Clogx.Socket.Tokens
import Clogx.Socket.Fifo
import Clogx.Socket.Writer
import Clogx.Socket.Backoff
import Clogx.Yaml.Tree
import Clogx.Json.Reader
import Clogx.Json.Length
import Clogx.Config.Settings
import Clogx.Config.Parser
import Clogx.Config.Numbers
import Clogx.Config.Capacity
import Clogx.Config.PluginJson
import Clogx.Config.Plugins
import Clogx.Config.Nodes
import Clogx.Config.Section
import Clogx.Config.Unknown
import Clogx.Config.Load
import Clogx.Config.Reload
import Clogx.Config.Isolation
import Clogx.File.Sink
import Clogx.File.Retention
import Clogx.File.Faults
import Clogx.Module.Snapshot
import Clogx.Signal.Pending
import Clogx.Trace.Spans
import Clogx.Trace.Header
import Clogx.Trace.Valid
import Clogx.Formatter.Append
import Clogx.Formatter.Json
import Clogx.Formatter.Traceparent
import Clogx.Formatter.Pieces
import Clogx.Formatter.Fields
import Clogx.Formatter.Cut
import Clogx.Formatter.Meaning
import Clogx.Formatter.Escape
import Clogx.Formatter.Faithful
import Clogx.Formatter.Clock
import Clogx.Formatter.FastAscii
import Clogx.Formatter.Render
import Clogx.Formatter.Caches
import Clogx.Formatter.Expansion
import Clogx.Redact.Engines
import Clogx.Redact.Agree
import Clogx.Redact.Truncate
import Clogx.Redact.Refusal
import Clogx.Redact.Structured
import Clogx.Redact.Linear
import Clogx.Mdc.Context
import Clogx.TokenBucket.Law
import Clogx.RateLimit.Limiter
import Clogx.Dispatcher.Build
import Clogx.Plugin.Cache
import Clogx.Dispatcher.Lines
import Clogx.Dispatcher.Severity
import Clogx.Dispatcher.Lifetime
import Clogx.Dispatcher.Ledger
import Clogx.Dispatcher.Serial
import Clogx.RateLimit.Notices
import Clogx.Prometheus.Render
import Clogx.Prometheus.Server
