import SocketExchange.Lib.Loop
import SocketExchange.Lib.Bytes
import SocketExchange.Lib.Tables
import SocketExchange.Lib.Log
import SocketExchange.Lib.Brackets
import SocketExchange.Lib.Framing
import SocketExchange.Lib.Channels
import SocketExchange.Lib.Greedy
import SocketExchange.Lib.Grouping
import SocketExchange.Lib.Refinement
import SocketExchange.Trading.OrderBook
import SocketExchange.Trading.BookInvariant
import SocketExchange.Trading.Matching
import SocketExchange.Trading.History
import SocketExchange.Trading.Ledger
import SocketExchange.Trading.Priority
import SocketExchange.Trading.Cancellation
import SocketExchange.Trading.SameBook
import SocketExchange.Trading.Greedy
import SocketExchange.Trading.Levels
import SocketExchange.Trading.Clearing
import SocketExchange.Trading.Market
import SocketExchange.Trading.Holdings
import SocketExchange.Trading.Untraded
import SocketExchange.Protocol.MessageParser
import SocketExchange.Protocol.Texts
import SocketExchange.Protocol.Grammar
import SocketExchange.Protocol.Wire
import SocketExchange.Network.ClientSession
import SocketExchange.Network.EventLoop
import SocketExchange.Network.Registration
import SocketExchange.Network.Waiting
import SocketExchange.Network.Coalescing
import SocketExchange.Network.Backends
import SocketExchange.Network.Drift
import SocketExchange.Server.ExchangeServer
import SocketExchange.Server.Steps
import SocketExchange.Server.Handlers
import SocketExchange.Server.Registry
import SocketExchange.Server.Output
import SocketExchange.Server.Connections
import SocketExchange.Server.Framing
import SocketExchange.Server.Delivery
import SocketExchange.Server.Stages
import SocketExchange.Server.Rest
import SocketExchange.Server.Wakeups
import SocketExchange.Server.Backoff
import SocketExchange.Server.Isolation
import SocketExchange.Server.Epochs
import SocketExchange.Server.Stretches
import SocketExchange.Server.LineLimit
import SocketExchange.Server.Replies
import SocketExchange.Server.Notifications
import SocketExchange.Server.Refusals
import SocketExchange.Server.Accounts
import SocketExchange.Server.Departures
import SocketExchange.Server.Descriptors
import SocketExchange.Server.MainLoop
import SocketExchange.Server.Enrolment
import SocketExchange.Server.Bystanders
import SocketExchange.Server.Noninterference
import SocketExchange.Server.Beats
import SocketExchange.Server.Exchange
import SocketExchange.Server.Replay
import SocketExchange.Server.Conversation
import SocketExchange.Server.Hearing
import SocketExchange.Server.Verdicts
import SocketExchange.Server.Holdings
import SocketExchange.Server.OrderIds
import SocketExchange.Server.Alone
import SocketExchange.Server.Accidents
import SocketExchange.Server.Draining
import SocketExchange.Server.EitherBackend
import SocketExchange.Client.TcpClient
import SocketExchange.Client.ClientShell
import SocketExchange.Client.Typing
import SocketExchange.Client.Failures
import SocketExchange.Client.Recovery
import SocketExchange.Client.EndToEnd
import SocketExchange.Client.Everybody
import SocketExchange.Client.Programs
