import MarketBookExchange.PriceBitmap
import MarketBookExchange.KillFlagTable
import MarketBookExchange.SessionRegistry

/- One order book: two arrays of price levels with their bitmaps, one node pool and one
   kill table. Every operation takes and returns the whole state. -/
namespace MarketBookExchange

/-- A `std::array` of levels together with the bitmap the source passes beside it. -/
structure BookSide where
  levels : Nat → PriceLevel := fun _ => {}
  bitmap : PriceBitmap := {}

structure OrderBook where
  bids : BookSide := {}
  asks : BookSide := {}
  pool : OrderPool := OrderPool.new
  killedOrders : KillFlagTable := KillFlagTable.new

def indexOf (price : Int) : Nat := (price % uint32).toNat &&& priceMask

def BookSide.setLevel (side : BookSide) (idx : Nat) (lvl : PriceLevel) : BookSide :=
  { side with levels := Function.update side.levels idx lvl }

def BookSide.insert (side : BookSide) (pool : OrderPool) (order : Order) :
    Except Fault (BookSide × OrderPool) := do
  let idx := indexOf order.priceLevel
  let lvl := side.levels idx
  let (lvl, bitmap) :=
    if lvl.empty then ({ lvl with levelPrice := order.priceLevel }, side.bitmap.set idx)
    else (lvl, side.bitmap)
  let (lvl, pool) ← levelPushBack lvl pool order
  pure ({ side with bitmap }.setLevel idx lvl, pool)

/-- `level_pop_front` and the clearing of the slot's bit once the level is empty. -/
def BookSide.popFront (side : BookSide) (pool : OrderPool) (idx : Nat) :
    Except Fault (BookSide × OrderPool) := do
  let (lvl, pool) ← levelPopFront (side.levels idx) pool
  let side := side.setLevel idx lvl
  if lvl.empty then pure ({ side with bitmap := side.bitmap.clear idx }, pool)
  else pure (side, pool)

def BookSide.best (side : BookSide) (bestIsHigh : Bool) : Except Fault (Option Nat) :=
  if bestIsHigh then side.bitmap.findHighest else side.bitmap.findLowest

/-- The parts of the book that both sides share, and the world around it. -/
structure Shared where
  pool : OrderPool
  killedOrders : KillFlagTable
  world : World

/-- One round of `drain_dead` takes one order off the side; `fuel` bounds the rounds. -/
def drainDead (registry : Registry) (bestIsHigh : Bool) :
    Nat → BookSide → Shared → Except Fault (BookSide × Shared)
  | 0, _, _ => .error .endlessLoop
  | fuel + 1, side, s => do
    match ← side.best bestIsHigh with
    | none => pure (side, s)
    | some idx =>
      let front ← levelFront (side.levels idx) s.pool
      if ← s.killedOrders.isKilled front.orderId then
        let world := s.world.writeIfLocked registry front.sessionId (.killConfirm front)
        let killedOrders ← s.killedOrders.erase front.orderId
        let (side, pool) ← side.popFront s.pool idx
        drainDead registry bestIsHigh fuel side
          { pool, killedOrders, world := world.record (.evicted front) }
      else pure (side, s)

namespace OrderBook

def sendOrder (b : OrderBook) (order : Order) : Except Fault OrderBook := do
  let killedOrders ← b.killedOrders.set order.orderId false
  if order.orderType = .buy then
    let (bids, pool) ← b.bids.insert b.pool order
    pure { b with bids, pool, killedOrders }
  else
    let (asks, pool) ← b.asks.insert b.pool order
    pure { b with asks, pool, killedOrders }

def killOrder (registry : Registry) (b : OrderBook) (w : World) (order : Order) :
    Except Fault (OrderBook × World) := do
  match ← b.killedOrders.find order.delId with
  | none => pure (b, w.writeIfLocked registry order.sessionId (.error invalidOrderId))
  | some kf =>
    let killedOrders ← b.killedOrders.assign kf true
    pure ({ b with killedOrders }, w)

def modifyOrder (registry : Registry) (b : OrderBook) (w : World) (order : Order) :
    Except Fault (OrderBook × World) := do
  let (b, w) ← b.killOrder registry w order
  let b ← b.sendOrder { order with delId := 0 }
  pure (b, w)

end OrderBook

/-- The kill-table entry goes only when the session is still there to be told. -/
def notifyFill (registry : Registry) (killedOrders : KillFlagTable) (w : World) (order : Order)
    (fillQty remainingQty fillPrice : Int) : Except Fault (KillFlagTable × World) := do
  let (sp, w) := w.lock registry order.sessionId
  if !sp then pure (killedOrders, w)
  else if remainingQty = 0 then
    let w := w.record (.write order.sessionId (.fullFill order fillQty fillPrice))
    let killedOrders ← killedOrders.erase order.orderId
    pure (killedOrders, w)
  else
    pure (killedOrders,
      w.record (.write order.sessionId (.partialFill order fillQty remainingQty fillPrice)))

namespace OrderBook

/-- The two calls of `drain_dead` that open each round of `UPDATE_BOOK`. Every round of
    every loop takes a node out of use, so the pool's size bounds them all. -/
def drainBoth (registry : Registry) (b : OrderBook) (w : World) :
    Except Fault (OrderBook × World) := do
  let fuel := b.pool.nodes.size + 1
  let (bids, s) ← drainDead registry true fuel b.bids ⟨b.pool, b.killedOrders, w⟩
  let (asks, s) ← drainDead registry false fuel b.asks s
  pure ({ b with bids, asks, pool := s.pool, killedOrders := s.killedOrders }, s.world)

/-- The rest of the round: `none` is a `break`. -/
def matchBest (registry : Registry) (b : OrderBook) (w : World) :
    Except Fault (Option (OrderBook × World)) := do
  let some bidx ← b.bids.best true | pure none
  let some aidx ← b.asks.best false | pure none
  let bo ← levelFront (b.bids.levels bidx) b.pool
  let ao ← levelFront (b.asks.levels aidx) b.pool
  if bo.priceLevel < ao.priceLevel then pure none
  else
    let fillQty := min bo.qty ao.qty
    let fillPrice := ao.priceLevel
    let w := w.record (.trade bo ao fillQty fillPrice)
    let bo := { bo with qty := bo.qty - fillQty }
    let ao := { ao with qty := ao.qty - fillQty }
    let pool ← setLevelFront (b.bids.levels bidx) b.pool bo
    let pool ← setLevelFront (b.asks.levels aidx) pool ao
    let (killedOrders, w) ← notifyFill registry b.killedOrders w bo fillQty bo.qty fillPrice
    let (killedOrders, w) ← notifyFill registry killedOrders w ao fillQty ao.qty fillPrice
    let (bids, pool) ← if bo.qty = 0 then b.bids.popFront pool bidx else pure (b.bids, pool)
    let (asks, pool) ← if ao.qty = 0 then b.asks.popFront pool aidx else pure (b.asks, pool)
    pure (some ({ bids, asks, pool, killedOrders }, w))

def updateLoop (registry : Registry) : Nat → OrderBook → World → Except Fault (OrderBook × World)
  | 0, _, _ => .error .endlessLoop
  | fuel + 1, b, w => do
    let (b, w) ← b.drainBoth registry w
    match ← b.matchBest registry w with
    | none => pure (b, w)
    | some (b, w) => updateLoop registry fuel b w

def updateBook (registry : Registry) (b : OrderBook) (w : World) :
    Except Fault (OrderBook × World) :=
  updateLoop registry (b.pool.nodes.size + 1) b w

def snapshotLevel (b : OrderBook) : Nat → Nat → List Order × Nat → Except Fault (List Order × Nat)
  | 0, cur, s => if cur ≠ nil ∧ s.2 < snapshotLen then .error .endlessLoop else .ok s
  | fuel + 1, cur, (entries, l) =>
    if cur ≠ nil ∧ l < snapshotLen then do
      let n ← b.pool.read cur
      if ← b.killedOrders.isKilled n.order.orderId then snapshotLevel b fuel n.next (entries, l)
      else snapshotLevel b fuel n.next (entries.set l n.order, l + 1)
    else .ok (entries, l)

def snapshotVisit (b : OrderBook) (side : BookSide) (idx : Nat) (s : List Order × Nat) :
    Except Fault (Bool × (List Order × Nat)) := do
  let s ← b.snapshotLevel b.pool.nodes.size (side.levels idx).head s
  pure (s.2 < snapshotLen, s)

def createSnapshot (b : OrderBook) : Except Fault ObSnapshot := do
  let snapshot : ObSnapshot := {}
  let (buySide, _) ← b.bids.bitmap.forEachDescending (b.snapshotVisit b.bids) (snapshot.buySide, 0)
  let (sellSide, _) ← b.asks.bitmap.forEachAscending (b.snapshotVisit b.asks) (snapshot.sellSide, 0)
  pure { buySide, sellSide }

/-- The calls `process_one` makes before `UPDATE_BOOK`. -/
def dispatch (registry : Registry) (b : OrderBook) (w : World) (order : Order) :
    Except Fault (OrderBook × World) :=
  match order.requestType with
  | .sendOrder => do pure (← b.sendOrder order, w)
  | .modifyOrder => b.modifyOrder registry w order
  | .killOrder => b.killOrder registry w order

def process (registry : Registry) (b : OrderBook) (w : World) (order : Order) :
    Except Fault (OrderBook × World) := do
  let (b, w) ← b.dispatch registry w order
  b.updateBook registry w

/-- A stream of requests, each followed by `UPDATE_BOOK`. -/
def run (registry : Registry) (b : OrderBook) (w : World) (orders : List Order) :
    Except Fault (OrderBook × World) :=
  orders.foldlM (fun (b, w) order => b.process registry w order) (b, w)

end OrderBook
end MarketBookExchange
