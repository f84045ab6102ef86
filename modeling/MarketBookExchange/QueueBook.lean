import MarketBookExchange.OrderBook
import MarketBookExchange.Lib.RankedList

/- The order book without its data structures: each side is one queue, best slot first
   and first come first served within a slot. The kill table stays as it is. -/
namespace MarketBookExchange
open RankedList Outcome

/-- Best slot first: the highest for bids, the lowest for asks. -/
def slotRank (side : OrderType) (order : Order) : Int :=
  match side with
  | .buy => -(indexOf order.priceLevel : Int)
  | .sell => indexOf order.priceLevel

theorem indexOf_eq (price : Int) : (indexOf price : Int) = price % priceWindow := by
  have mask : indexOf price = (price % uint32).toNat % priceWindow :=
    Nat.and_two_pow_sub_one_eq_mod _ priceWindowLog2
  rw [mask]
  simp only [uint32, priceWindow, priceWindowLog2]
  omega

theorem indexOf_lt (price : Int) : indexOf price < priceWindow := by
  have eq := indexOf_eq price
  simp only [priceWindow, priceWindowLog2] at *
  omega

theorem slotRank_inj {side : OrderType} {a b : Order} :
    slotRank side a = slotRank side b ↔ indexOf a.priceLevel = indexOf b.priceLevel := by
  cases side <;> simp only [slotRank] <;> omega

def bySide {α : Type} (bid ask : α) : OrderType → α
  | .buy => bid
  | .sell => ask

section
variable {α : Type}

@[simp] theorem bySide_buy (bid ask : α) : bySide bid ask .buy = bid := rfl

@[simp] theorem bySide_sell (bid ask : α) : bySide bid ask .sell = ask := rfl

@[simp] theorem update_buy (f : OrderType → α) (x : α) :
    Function.update f .buy x = bySide x (f .sell) := by
  funext t
  cases t <;> rfl

@[simp] theorem update_sell (f : OrderType → α) (x : α) :
    Function.update f .sell x = bySide (f .buy) x := by
  funext t
  cases t <;> rfl

end

structure QueueBook where
  queue : OrderType → List Order := fun _ => []
  killedOrders : KillFlagTable := KillFlagTable.new

def drainQueue (registry : Registry) :
    List Order → KillFlagTable → World → Except Fault (List Order × KillFlagTable × World)
  | [], t, w => .ok ([], t, w)
  | front :: rest, t, w => do
    if ← t.isKilled front.orderId then
      let w := w.writeIfLocked registry front.sessionId (.killConfirm front)
      let t ← t.erase front.orderId
      drainQueue registry rest t (w.record (.evicted front))
    else pure (front :: rest, t, w)

def snapshotQueue (t : KillFlagTable) :
    List Order → List Order × Nat → Except Fault (List Order × Nat)
  | [], s => .ok s
  | o :: rest, (entries, l) =>
    if l < snapshotLen then do
      if ← t.isKilled o.orderId then snapshotQueue t rest (entries, l)
      else snapshotQueue t rest (entries.set l o, l + 1)
    else .ok (entries, l)

theorem snapshotQueue_full (t : KillFlagTable) (l : List Order) {s : List Order × Nat}
    (full : ¬ s.2 < snapshotLen) : snapshotQueue t l s = .ok s := by
  cases l with
  | nil => rfl
  | cons o rest => rw [snapshotQueue, if_neg full]

theorem snapshotQueue_append (t : KillFlagTable) (l m : List Order) (s : List Order × Nat) :
    snapshotQueue t (l ++ m) s = snapshotQueue t l s >>= snapshotQueue t m := by
  induction l generalizing s with
  | nil => rfl
  | cons o rest ih =>
    by_cases room : s.2 < snapshotLen
    · rw [List.cons_append, snapshotQueue, snapshotQueue, if_pos room, if_pos room]
      cases t.isKilled o.orderId with
      | error e => rfl
      | ok killed =>
        cases killed with
        | true => exact ih _
        | false => exact ih _
    · rw [snapshotQueue_full t _ room, snapshotQueue_full t _ room, ok_bind,
        snapshotQueue_full t _ room]

namespace QueueBook

def setQueue (q : QueueBook) (side : OrderType) (l : List Order) : QueueBook :=
  { q with queue := Function.update q.queue side l }

def sendOrder (q : QueueBook) (order : Order) : Except Fault QueueBook := do
  let killedOrders ← q.killedOrders.set order.orderId false
  let side := order.orderType
  pure { q.setQueue side (insert (slotRank side) order (q.queue side)) with killedOrders }

def killOrder (registry : Registry) (q : QueueBook) (w : World) (order : Order) :
    Except Fault (QueueBook × World) := do
  match ← q.killedOrders.find order.delId with
  | none => pure (q, w.writeIfLocked registry order.sessionId (.error invalidOrderId))
  | some kf =>
    let killedOrders ← q.killedOrders.assign kf true
    pure ({ q with killedOrders }, w)

def modifyOrder (registry : Registry) (q : QueueBook) (w : World) (order : Order) :
    Except Fault (QueueBook × World) := do
  let (q, w) ← q.killOrder registry w order
  let q ← q.sendOrder { order with delId := 0 }
  pure (q, w)

def drainBoth (registry : Registry) (q : QueueBook) (w : World) :
    Except Fault (QueueBook × World) := do
  let (bids, t, w) ← drainQueue registry (q.queue .buy) q.killedOrders w
  let (asks, t, w) ← drainQueue registry (q.queue .sell) t w
  pure ({ queue := bySide bids asks, killedOrders := t }, w)

def matchBest (registry : Registry) (q : QueueBook) (w : World) :
    Except Fault (Option (QueueBook × World)) :=
  match q.queue .buy, q.queue .sell with
  | bo :: bids, ao :: asks =>
    if bo.priceLevel < ao.priceLevel then pure none
    else do
      let fillQty := min bo.qty ao.qty
      let fillPrice := ao.priceLevel
      let w := w.record (.trade bo ao fillQty fillPrice)
      let bo := { bo with qty := bo.qty - fillQty }
      let ao := { ao with qty := ao.qty - fillQty }
      let (t, w) ← notifyFill registry q.killedOrders w bo fillQty bo.qty fillPrice
      let (t, w) ← notifyFill registry t w ao fillQty ao.qty fillPrice
      let bids := if bo.qty = 0 then bids else bo :: bids
      let asks := if ao.qty = 0 then asks else ao :: asks
      pure (some ({ queue := bySide bids asks, killedOrders := t }, w))
  | _, _ => pure none

/-- How many orders rest, which bounds the rounds of the matching loop. -/
def resting (q : QueueBook) : Nat := (q.queue .buy).length + (q.queue .sell).length

def updateLoop (registry : Registry) : Nat → QueueBook → World → Except Fault (QueueBook × World)
  | 0, _, _ => .error .endlessLoop
  | fuel + 1, q, w => do
    let (q, w) ← q.drainBoth registry w
    match ← q.matchBest registry w with
    | none => pure (q, w)
    | some (q, w) => updateLoop registry fuel q w

def updateBook (registry : Registry) (q : QueueBook) (w : World) :
    Except Fault (QueueBook × World) :=
  updateLoop registry (q.resting + 1) q w

def createSnapshot (q : QueueBook) : Except Fault ObSnapshot := do
  let snapshot : ObSnapshot := {}
  let (buySide, _) ← snapshotQueue q.killedOrders (q.queue .buy) (snapshot.buySide, 0)
  let (sellSide, _) ← snapshotQueue q.killedOrders (q.queue .sell) (snapshot.sellSide, 0)
  pure { buySide, sellSide }

def dispatch (registry : Registry) (q : QueueBook) (w : World) (order : Order) :
    Except Fault (QueueBook × World) :=
  match order.requestType with
  | .sendOrder => do pure (← q.sendOrder order, w)
  | .modifyOrder => q.modifyOrder registry w order
  | .killOrder => q.killOrder registry w order

def process (registry : Registry) (q : QueueBook) (w : World) (order : Order) :
    Except Fault (QueueBook × World) := do
  let (q, w) ← q.dispatch registry w order
  q.updateBook registry w

end QueueBook

theorem drainQueue_suffix {registry : Registry} {l l' : List Order} {t t' : KillFlagTable}
    {w w' : World} (run : drainQueue registry l t w = .ok (l', t', w')) : l' <:+ l := by
  induction l generalizing t w with
  | nil =>
    cases run
    exact List.suffix_refl _
  | cons front rest ih =>
    obtain ⟨killed, _, run⟩ := bind_ok run
    cases killed with
    | false =>
      cases run
      exact List.suffix_refl _
    | true =>
      obtain ⟨erased, _, run⟩ := bind_ok run
      exact (ih run).trans (List.suffix_cons front rest)

namespace QueueBook

theorem drainBoth_resting {registry : Registry} {q q' : QueueBook} {w w' : World}
    (run : q.drainBoth registry w = .ok (q', w')) : q'.resting ≤ q.resting := by
  obtain ⟨⟨bids, t, w1⟩, first, run⟩ := bind_ok run
  obtain ⟨⟨asks, t', w2⟩, second, run⟩ := bind_ok run
  cases run
  exact Nat.add_le_add (drainQueue_suffix first).length_le (drainQueue_suffix second).length_le

theorem matchBest_resting {registry : Registry} {q q' : QueueBook} {w w' : World}
    (run : q.matchBest registry w = .ok (some (q', w'))) : q'.resting < q.resting := by
  rw [matchBest] at run
  split at run
  · rename_i bo bids ao asks buy sell
    split at run
    · cases run
    · obtain ⟨⟨t, w1⟩, _, run⟩ := bind_ok run
      obtain ⟨⟨t', w2⟩, _, run⟩ := bind_ok run
      cases run
      have spent : bo.qty - min bo.qty ao.qty = 0 ∨ ao.qty - min bo.qty ao.qty = 0 := by omega
      have shorter : ∀ (o : Order) (p : Prop) [Decidable p] (l : List Order),
          (if p then l else o :: l).length ≤ l.length + 1 := by
        intro o p _ l
        split <;> simp
      simp only [resting, buy, sell, bySide_buy, bySide_sell, List.length_cons]
      rcases spent with zero | zero
      · rw [if_pos zero]
        exact Nat.add_lt_add_of_lt_of_le (Nat.lt_succ_self _) (shorter _ _ _)
      · rw [if_pos zero]
        exact Nat.add_lt_add_of_le_of_lt (shorter _ _ _) (Nat.lt_succ_self _)
  · cases run

end QueueBook

/- What each step can do, once and for all. -/
section Steps
variable {registry : Registry} {q q' : QueueBook} {w w' : World}

theorem QueueBook.killOrder_cases {order : Order}
    (run : q.killOrder registry w order = .ok (q', w')) :
    (q.killedOrders.find order.delId = .ok none ∧ q' = q ∧
      w' = w.writeIfLocked registry order.sessionId (.error invalidOrderId)) ∨
    ∃ kf kt, q.killedOrders.find order.delId = .ok (some kf) ∧
      q.killedOrders.assign kf true = .ok kt ∧ q' = { q with killedOrders := kt } ∧ w' = w := by
  obtain ⟨found, looked, run⟩ := bind_ok run
  cases found with
  | none =>
    cases run
    exact Or.inl ⟨looked, rfl, rfl⟩
  | some kf =>
    obtain ⟨kt, assigned, run⟩ := bind_ok run
    cases run
    exact Or.inr ⟨kf, kt, looked, assigned, rfl, rfl⟩

theorem QueueBook.sendOrder_cases {order : Order} (run : q.sendOrder order = .ok q') :
    ∃ kt, q.killedOrders.set order.orderId false = .ok kt ∧
      q' = ⟨Function.update q.queue order.orderType
        (insert (slotRank order.orderType) order (q.queue order.orderType)), kt⟩ := by
  obtain ⟨kt, stored, run⟩ := bind_ok run
  cases run
  exact ⟨kt, stored, rfl⟩

theorem QueueBook.modifyOrder_cases {order : Order}
    (run : q.modifyOrder registry w order = .ok (q', w')) :
    ∃ q₁, q.killOrder registry w order = .ok (q₁, w') ∧
      q₁.sendOrder { order with delId := 0 } = .ok q' := by
  obtain ⟨⟨q₁, w₁⟩, killed, run⟩ := bind_ok run
  obtain ⟨q₂, sent, run⟩ := bind_ok run
  cases run
  exact ⟨q₁, killed, sent⟩

theorem notifyFill_cases {kt kt' : KillFlagTable} {order : Order}
    {fillQty remainingQty fillPrice : Int}
    (run : notifyFill registry kt w order fillQty remainingQty fillPrice = .ok (kt', w')) :
    (registry w.lookups order.sessionId = false ∧ kt' = kt ∧
      w' = { w with lookups := w.lookups + 1 }) ∨
    (registry w.lookups order.sessionId = true ∧ remainingQty = 0 ∧
      kt.erase order.orderId = .ok kt' ∧
      w' = ⟨w.lookups + 1, w.log ++
        [.write order.sessionId (.fullFill order fillQty fillPrice)]⟩) ∨
    (registry w.lookups order.sessionId = true ∧ remainingQty ≠ 0 ∧ kt' = kt ∧
      w' = ⟨w.lookups + 1, w.log ++
        [.write order.sessionId (.partialFill order fillQty remainingQty fillPrice)]⟩) := by
  rw [notifyFill, World.lock] at run
  cases session : registry w.lookups order.sessionId with
  | false =>
    rw [session] at run
    cases run
    exact Or.inl ⟨rfl, rfl, rfl⟩
  | true =>
    rw [session] at run
    simp only [Bool.not_true, Bool.false_eq_true, if_false] at run
    split at run
    · rename_i zero
      obtain ⟨erased, ran, run⟩ := bind_ok run
      cases run
      exact Or.inr (Or.inl ⟨rfl, zero, ran, rfl⟩)
    · rename_i left
      cases run
      exact Or.inr (Or.inr ⟨rfl, left, rfl, rfl⟩)

/-- The fronts of a trade with what is left of them. -/
def afterFill (order : Order) (fillQty : Int) : Order :=
  { order with qty := order.qty - fillQty }

def fillFront (front : Order) (rest : List Order) (fillQty : Int) : List Order :=
  if front.qty - fillQty = 0 then rest else afterFill front fillQty :: rest

/-- One trade: the two fronts, their notices and what is left of the queues. -/
structure Trade (registry : Registry) (q : QueueBook) (w : World) (q' : QueueBook) (w' : World)
    (bo ao : Order) (bids asks : List Order) (kt : KillFlagTable) (w₁ : World) : Prop where
  buy : q.queue .buy = bo :: bids
  sell : q.queue .sell = ao :: asks
  crossed : ao.priceLevel ≤ bo.priceLevel
  bidTold : notifyFill registry q.killedOrders
    (w.record (.trade bo ao (min bo.qty ao.qty) ao.priceLevel)) (afterFill bo (min bo.qty ao.qty))
    (min bo.qty ao.qty) (bo.qty - min bo.qty ao.qty) ao.priceLevel = .ok (kt, w₁)
  askTold : notifyFill registry kt w₁ (afterFill ao (min bo.qty ao.qty))
    (min bo.qty ao.qty) (ao.qty - min bo.qty ao.qty) ao.priceLevel = .ok (q'.killedOrders, w')
  queue : q'.queue = bySide (fillFront bo bids (min bo.qty ao.qty))
    (fillFront ao asks (min bo.qty ao.qty))

theorem QueueBook.matchBest_some (run : q.matchBest registry w = .ok (some (q', w'))) :
    ∃ bo ao bids asks kt w₁, Trade registry q w q' w' bo ao bids asks kt w₁ := by
  rw [matchBest] at run
  split at run
  · rename_i bo bids ao asks buy sell
    split at run
    · cases run
    · rename_i crossed
      obtain ⟨⟨kt, w₁⟩, bidTold, run⟩ := bind_ok run
      obtain ⟨⟨kt₂, w₂⟩, askTold, run⟩ := bind_ok run
      cases run
      exact ⟨bo, ao, bids, asks, kt, w₁, buy, sell, Int.not_lt.mp crossed, bidTold, askTold, rfl⟩
  · cases run

theorem QueueBook.matchBest_none (run : q.matchBest registry w = .ok none) :
    q.queue .buy = [] ∨ q.queue .sell = [] ∨
    ∃ bo bids ao asks, q.queue .buy = bo :: bids ∧ q.queue .sell = ao :: asks ∧
      bo.priceLevel < ao.priceLevel := by
  rw [matchBest] at run
  split at run
  · rename_i bo bids ao asks buy sell
    split at run
    · rename_i apart
      exact Or.inr (Or.inr ⟨bo, bids, ao, asks, buy, sell, apart⟩)
    · obtain ⟨_, _, run⟩ := bind_ok run
      obtain ⟨_, _, run⟩ := bind_ok run
      cases run
  · rename_i nothing
    cases buy : q.queue .buy with
    | nil => exact Or.inl rfl
    | cons bo bids =>
      cases sell : q.queue .sell with
      | nil => exact Or.inr (Or.inl rfl)
      | cons ao asks => exact absurd sell (nothing bo bids ao asks buy)

end Steps
end MarketBookExchange
