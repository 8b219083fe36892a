import Watchwoman.Bin.Clients
import Watchwoman.Bin.JsonReaders
import Watchwoman.Bin.ReadPdu
import Watchwoman.Commands.Context
import Watchwoman.Commands.Dispatch
import Watchwoman.Commands.Effects
import Watchwoman.Commands.Failures
import Watchwoman.Commands.Handlers
import Watchwoman.Commands.Health
import Watchwoman.Commands.Info
import Watchwoman.Commands.Isolation
import Watchwoman.Commands.LoopDeletions
import Watchwoman.Commands.Loops
import Watchwoman.Commands.Responses
import Watchwoman.Commands.Runs
import Watchwoman.Commands.Subscribe
import Watchwoman.Commands.SubscribeResponse
import Watchwoman.Commands.SubscriptionMirror
import Watchwoman.Commands.Subscriptions
import Watchwoman.Commands.TriggerList
import Watchwoman.Commands.TriggerQuery
import Watchwoman.Commands.Triggers
import Watchwoman.Daemon.Batches
import Watchwoman.Daemon.BserSession
import Watchwoman.Daemon.Clock
import Watchwoman.Daemon.Connection
import Watchwoman.Daemon.Convergence
import Watchwoman.Daemon.Crawl
import Watchwoman.Daemon.Documents
import Watchwoman.Daemon.FirstPdu
import Watchwoman.Daemon.Gc
import Watchwoman.Daemon.InitialScan
import Watchwoman.Daemon.JjEvents
import Watchwoman.Daemon.JjIndex
import Watchwoman.Daemon.JjScope
import Watchwoman.Daemon.JjSnapshot
import Watchwoman.Daemon.Lifetime
import Watchwoman.Daemon.Path
import Watchwoman.Daemon.Persisted
import Watchwoman.Daemon.Persistence
import Watchwoman.Daemon.PersistenceRaces
import Watchwoman.Daemon.Pipelining
import Watchwoman.Daemon.Polling
import Watchwoman.Daemon.Promotion
import Watchwoman.Daemon.Reaping
import Watchwoman.Daemon.Recrawl
import Watchwoman.Daemon.Registration
import Watchwoman.Daemon.Registry
import Watchwoman.Daemon.Root
import Watchwoman.Daemon.RootRuns
import Watchwoman.Daemon.Scm
import Watchwoman.Daemon.Server
import Watchwoman.Daemon.Shutdown
import Watchwoman.Daemon.State
import Watchwoman.Daemon.Ticks
import Watchwoman.Daemon.Tree
import Watchwoman.Daemon.TreeCounts
import Watchwoman.Daemon.Watcher
import Watchwoman.Lib.Channel
import Watchwoman.Lib.Components
import Watchwoman.Lib.HashMap
import Watchwoman.Lib.IndexMap
import Watchwoman.Lib.Joined
import Watchwoman.Lib.Lagging
import Watchwoman.Lib.LastWrite
import Watchwoman.Lib.LittleEndian
import Watchwoman.Lib.Memo
import Watchwoman.Lib.Replica
import Watchwoman.Lib.Shared
import Watchwoman.Lib.Stopping
import Watchwoman.Lib.Text
import Watchwoman.Lib.Tiling
import Watchwoman.Lib.Transaction
import Watchwoman.Lib.Transition
import Watchwoman.Lib.Utf8
import Watchwoman.Protocol.Bser
import Watchwoman.Protocol.BserCanonical
import Watchwoman.Protocol.BserLocality
import Watchwoman.Protocol.BserProportion
import Watchwoman.Protocol.BserReader
import Watchwoman.Protocol.BserRoundTrip
import Watchwoman.Protocol.BserSafety
import Watchwoman.Protocol.BserStream
import Watchwoman.Protocol.Value
import Watchwoman.Query.CursorRaces
import Watchwoman.Query.Cursors
import Watchwoman.Query.Deletions
import Watchwoman.Query.Dirname
import Watchwoman.Query.Filter
import Watchwoman.Query.Freshness
import Watchwoman.Query.Grammar
import Watchwoman.Query.JjFsmonitor
import Watchwoman.Query.Mirror
import Watchwoman.Query.Operands
import Watchwoman.Query.Parse
import Watchwoman.Query.Recrawls
import Watchwoman.Query.RelativeRoot
import Watchwoman.Query.Run
import Watchwoman.Query.SinceTerm
import Watchwoman.Query.Stable
