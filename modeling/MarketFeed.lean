import MarketFeed.Basic
import MarketFeed.Library.Execution
import MarketFeed.Library.BoundedFifo
import MarketFeed.Library.RingBuffer
import MarketFeed.Library.HighWater
import MarketFeed.Library.Lines
import MarketFeed.Library.Cuts
import MarketFeed.Library.ReleaseAcquire
import MarketFeed.Library.Loop
import MarketFeed.Utils.Queue
import MarketFeed.Utils.QueueSteps
import MarketFeed.Utils.QueueSpsc
import MarketFeed.Utils.QueueSize
import MarketFeed.Utils.QueueWeak
import MarketFeed.Utils.QueueRace
import MarketFeed.Utils.QueueOrders
import MarketFeed.Library.Utf8
import MarketFeed.Nlohmann.Lexer
import MarketFeed.Utils.Parser
import MarketFeed.Nlohmann.Grammar
import MarketFeed.Nlohmann.Strings
import MarketFeed.Nlohmann.Numbers
import MarketFeed.Nlohmann.Tokens
import MarketFeed.Nlohmann.Parser
import MarketFeed.Nlohmann.Complete
import MarketFeed.Nlohmann.Places
import MarketFeed.Nlohmann.Sound
import MarketFeed.Nlohmann.Texts
import MarketFeed.Common
import MarketFeed.Common.Hash
import MarketFeed.Common.HashKey
import MarketFeed.Nlohmann.Documents
import MarketFeed.Cache
import MarketFeed.Cache.History
import MarketFeed.Cache.Symbols
import MarketFeed.Cache.Bounds
import MarketFeed.Cache.Construction
import MarketFeed.Cache.Mark
import MarketFeed.Cache.Shared
import MarketFeed.Cache.Calls
import MarketFeed.Cache.Replicas
import MarketFeed.Cache.Numbers
import MarketFeed.Consumer
import MarketFeed.Consumer.Progress
import MarketFeed.Connection
import MarketFeed.Feed
import MarketFeed.Feed.Delivery
import MarketFeed.RestApi
import MarketFeed.RestApi.Response
import MarketFeed.WebSocket
import MarketFeed.Config
import MarketFeed.Config.Load
import MarketFeed.ConnectionManager
import MarketFeed.ConnectionManager.Binding
import MarketFeed.RestApi.Polling
import MarketFeed.Client
import MarketFeed.Client.Lifecycle
import MarketFeed.Program
import MarketFeed.Program.Delivery
import MarketFeed.Program.Interleaving
import MarketFeed.Program.Ending
import MarketFeed.Demo
import MarketFeed.Demo.Ending
