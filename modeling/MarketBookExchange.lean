import MarketBookExchange.PoolInvariant
import MarketBookExchange.QueueBook
import MarketBookExchange.BookInvariant
import MarketBookExchange.Conservation
import MarketBookExchange.EagerBook
import MarketBookExchange.KnownOrders
import MarketBookExchange.LazyCancellation
import MarketBookExchange.Lib.SortedBuckets
import MarketBookExchange.MapBook
import MarketBookExchange.PricePriority
import MarketBookExchange.RepresentationInvariant
import MarketBookExchange.BookAtRest
import MarketBookExchange.ClientRequests
import MarketBookExchange.ErrorEffects
import MarketBookExchange.LifeCycle
import MarketBookExchange.OrderLifeCycle
import MarketBookExchange.RequestFraming
import MarketBookExchange.KillFlagMap
import MarketBookExchange.Quiescence
import MarketBookExchange.TruthfulKill
import MarketBookExchange.SessionIndependence
import MarketBookExchange.SymbolIsolation
import MarketBookExchange.RequestOrder
import MarketBookExchange.ResponseFraming
import MarketBookExchange.SnapshotFeed
import MarketBookExchange.SharedSockets
import MarketBookExchange.SessionLifetime
import MarketBookExchange.SlotSet
import MarketBookExchange.CodecWidths
import MarketBookExchange.RequestLayout
import MarketBookExchange.BookSnapshot
import MarketBookExchange.TableCapacity
import MarketBookExchange.PoolExhaustion
import MarketBookExchange.ReceivedRequests
import MarketBookExchange.PriceTimeSweep
import MarketBookExchange.CancelReplace
import MarketBookExchange.AtomicServer
import MarketBookExchange.WaitingTime
import MarketBookExchange.OwnOrders
import MarketBookExchange.SessionReplies
import MarketBookExchange.AppliedRequests
import MarketBookExchange.MulticastFeed
import MarketBookExchange.HeardSnapshots
