import LimitOrderBook.Lib.Chain
import LimitOrderBook.Lib.TreePaths
import LimitOrderBook.Storage.Keys
import LimitOrderBook.Utils.RingBuffer
import LimitOrderBook.Utils.RingSound
import LimitOrderBook.OrderBook.Reach
import LimitOrderBook.Ledger.Defs
import LimitOrderBook.Ledger.WellFormed
import LimitOrderBook.Ledger.Refines
import LimitOrderBook.Ledger.Surgery
import LimitOrderBook.Ledger.Matching
import LimitOrderBook.Ledger.Simulation
import LimitOrderBook.Ledger.Runs
import LimitOrderBook.Ledger.Effects
import LimitOrderBook.Ledger.Arrivals
import LimitOrderBook.Ledger.Reach
import LimitOrderBook.Ledger.InPlace
import LimitOrderBook.Ledger.Tidy
import LimitOrderBook.Ledger.Quantities
import LimitOrderBook.Ledger.Idle
import LimitOrderBook.Ledger.Recovered
import LimitOrderBook.Ledger.Outgoing
import LimitOrderBook.Repository.OrderRepository
import LimitOrderBook.Exchange.Defs
import LimitOrderBook.Persistence.Defs
import LimitOrderBook.Persistence.Trace
import LimitOrderBook.Persistence.Drain
import LimitOrderBook.Ledger.Accounted
import LimitOrderBook.Properties.Conservation
import LimitOrderBook.Properties.Uncrossed
import LimitOrderBook.Properties.Trades
import LimitOrderBook.Properties.Volume
import LimitOrderBook.Properties.CrossPrice
import LimitOrderBook.Properties.Index
import LimitOrderBook.Properties.Cancel
import LimitOrderBook.Properties.Queues
import LimitOrderBook.Properties.MarketPrice
import LimitOrderBook.Properties.Levels
import LimitOrderBook.Properties.Stops
import LimitOrderBook.Properties.Spread
import LimitOrderBook.Properties.RingBuffer
import LimitOrderBook.Properties.RedBlack
import LimitOrderBook.Properties.Isolation
import LimitOrderBook.Properties.Recovery
import LimitOrderBook.Properties.Persistence
import LimitOrderBook.Lib.ClassMap
import LimitOrderBook.Properties.TreeMap
import LimitOrderBook.Properties.TreeEnds
import LimitOrderBook.Properties.Parked
import LimitOrderBook.Lib.KeyedRows
import LimitOrderBook.Repository.TradeRepository
import LimitOrderBook.Properties.Records
import LimitOrderBook.Exchange.Routing
import LimitOrderBook.Properties.Routing
import LimitOrderBook.Exchange.WorkingHours
import LimitOrderBook.Properties.WorkingHours
import LimitOrderBook.OrderBook.Entries
import LimitOrderBook.Properties.Entries
import LimitOrderBook.Exchange.Admission
import LimitOrderBook.Properties.Admission
import LimitOrderBook.Ledger.Tracked
import LimitOrderBook.Properties.Registry
import LimitOrderBook.Ledger.Departures
import LimitOrderBook.Lib.PriceTime
import LimitOrderBook.Properties.Reference
import LimitOrderBook.Storage.Bounds
import LimitOrderBook.Properties.Iteration
import LimitOrderBook.Properties.Ranges
import LimitOrderBook.Lib.Calendar
import LimitOrderBook.Properties.OpeningDay
import LimitOrderBook.Properties.Placement
import LimitOrderBook.Ledger.AllOrNone
import LimitOrderBook.Properties.AllOrNone
import LimitOrderBook.Ledger.Sweep
import LimitOrderBook.Properties.Sweep
import LimitOrderBook.Properties.Expiry
import LimitOrderBook.Properties.Modify
import LimitOrderBook.Properties.Counters
import LimitOrderBook.Properties.RequestMapping
import LimitOrderBook.Storage.Live
import LimitOrderBook.OrderBook.Framed
import LimitOrderBook.OrderBook.Activation
import LimitOrderBook.Ledger.Attached
import LimitOrderBook.Ledger.Shelved
import LimitOrderBook.Properties.Activation
import LimitOrderBook.Lib.AtomicObject
import LimitOrderBook.Utils.RingPending
import LimitOrderBook.Utils.RingRoom
import LimitOrderBook.Exchange.Workers
import LimitOrderBook.Exchange.WorkersSound
import LimitOrderBook.Properties.Workers
import LimitOrderBook.Properties.Refinement
import LimitOrderBook.Ledger.Register
import LimitOrderBook.Ledger.Gone
import LimitOrderBook.Properties.Restart
import LimitOrderBook.Properties.Accounts
import LimitOrderBook.Lib.Allocation
import LimitOrderBook.Ledger.Serving
import LimitOrderBook.Properties.Serving
import LimitOrderBook.Ledger.Sturdy
import LimitOrderBook.Server.Handlers
import LimitOrderBook.Server.History
import LimitOrderBook.Server.Events
import LimitOrderBook.Server.Kept
import LimitOrderBook.Lib.History
import LimitOrderBook.Properties.Server
import LimitOrderBook.Lib.WriteBehind
import LimitOrderBook.Server.Durable
import LimitOrderBook.Properties.Durable
