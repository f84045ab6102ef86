import MarketBookExchange.FlagBook
import MarketBookExchange.Lib.SortedBuckets

/- The book that this one replaced: a sorted map from price to a queue of orders on each
   side, and a plain map from order id to kill flag. It takes the same steps, and within one
   aligned window of prices nobody can tell the two apart. -/
namespace MarketBookExchange
open RankedList SortedBuckets Outcome KillFlagTable

def priceRank (side : OrderType) (price : Int) : Int :=
  match side with
  | .buy => -price
  | .sell => price

abbrev PriceMap (side : OrderType) := Buckets Order.priceLevel (priceRank side)

structure MapBook where
  side : (t : OrderType) → PriceMap t := fun _ => {}
  flags : Int → Option Bool := fun _ => none

/-- Killed orders leave the front of the best price; `fuel` counts the orders there are. -/
def PriceMap.drainDead (registry : Registry) {t : OrderType} :
    Nat → PriceMap t → (Int → Option Bool) → World → PriceMap t × (Int → Option Bool) × World
  | 0, side, m, w => (side, m, w)
  | fuel + 1, side, m, w =>
    match side.front with
    | none => (side, m, w)
    | some front =>
      if (m front.orderId).getD false then
        let w := w.writeIfLocked registry front.sessionId (.killConfirm front)
        drainDead registry fuel side.popFront (Function.update m front.orderId none)
          (w.record (.evicted front))
      else (side, m, w)

theorem afterFill_priceLevel (fillQty : Int) (o : Order) :
    (afterFill o fillQty).priceLevel = o.priceLevel := rfl

def PriceMap.fill {t : OrderType} (side : PriceMap t) (front : Order) (fillQty : Int) :
    PriceMap t :=
  if front.qty - fillQty = 0 then side.popFront
  else side.mapFront (fun o => afterFill o fillQty) (afterFill_priceLevel fillQty)

namespace MapBook

def sendOrder (b : MapBook) (order : Order) : MapBook where
  side := Function.update b.side order.orderType ((b.side order.orderType).push order)
  flags := Function.update b.flags order.orderId (some false)

def killOrder (registry : Registry) (b : MapBook) (w : World) (order : Order) :
    MapBook × World :=
  if b.flags order.delId = none then
    (b, w.writeIfLocked registry order.sessionId (.error invalidOrderId))
  else ({ b with flags := Function.update b.flags order.delId (some true) }, w)

def modifyOrder (registry : Registry) (b : MapBook) (w : World) (order : Order) :
    MapBook × World :=
  let (b, w) := b.killOrder registry w order
  (b.sendOrder { order with delId := 0 }, w)

def setSides (b : MapBook) (bids : PriceMap .buy) (asks : PriceMap .sell)
    (flags : Int → Option Bool) : MapBook :=
  { b with side := fun | .buy => bids | .sell => asks, flags }

def drainBoth (registry : Registry) (b : MapBook) (w : World) : MapBook × World :=
  let (bids, m, w) := PriceMap.drainDead registry (b.side .buy).items.length (b.side .buy) b.flags w
  let (asks, m, w) := PriceMap.drainDead registry (b.side .sell).items.length (b.side .sell) m w
  (b.setSides bids asks m, w)

/-- Best bid against best ask at the ask's price. -/
def matchBest (registry : Registry) (b : MapBook) (w : World) : Option (MapBook × World) :=
  match (b.side .buy).front, (b.side .sell).front with
  | some bo, some ao =>
    if bo.priceLevel < ao.priceLevel then none
    else
      let fillQty := min bo.qty ao.qty
      let fillPrice := ao.priceLevel
      let w := w.record (.trade bo ao fillQty fillPrice)
      let (m, w) := notifyFlags registry b.flags w (afterFill bo fillQty) fillQty
        (bo.qty - fillQty) fillPrice
      let (m, w) := notifyFlags registry m w (afterFill ao fillQty) fillQty
        (ao.qty - fillQty) fillPrice
      some (b.setSides (PriceMap.fill (b.side .buy) bo fillQty)
        (PriceMap.fill (b.side .sell) ao fillQty) m, w)
  | _, _ => none

def resting (b : MapBook) : Nat := (b.side .buy).items.length + (b.side .sell).items.length

def updateLoop (registry : Registry) : Nat → MapBook → World → MapBook × World
  | 0, b, w => (b, w)
  | fuel + 1, b, w =>
    let (b, w) := b.drainBoth registry w
    match b.matchBest registry w with
    | none => (b, w)
    | some (b, w) => updateLoop registry fuel b w

def updateBook (registry : Registry) (b : MapBook) (w : World) : MapBook × World :=
  updateLoop registry (b.resting + 1) b w

def dispatch (registry : Registry) (b : MapBook) (w : World) (order : Order) :
    MapBook × World :=
  match order.requestType with
  | .sendOrder => (b.sendOrder order, w)
  | .modifyOrder => b.modifyOrder registry w order
  | .killOrder => b.killOrder registry w order

def process (registry : Registry) (b : MapBook) (w : World) (order : Order) : MapBook × World :=
  let (b, w) := b.dispatch registry w order
  b.updateBook registry w

def run (registry : Registry) (b : MapBook) (w : World) (orders : List Order) :
    MapBook × World :=
  orders.foldl (fun (b, w) order => b.process registry w order) (b, w)

theorem run_cons (registry : Registry) (b : MapBook) (w : World) (order : Order)
    (orders : List Order) : b.run registry w (order :: orders) =
      (b.process registry w order).1.run registry (b.process registry w order).2 orders := rfl

def createSnapshot (b : MapBook) : ObSnapshot where
  buySide := snapshotSide (liveOrders b.flags (b.side .buy).items)
  sellSide := snapshotSide (liveOrders b.flags (b.side .sell).items)

end MapBook

/-- The same queues and flags, all prices in window `k`. -/
structure Maps (k : Int) (b : MapBook) (f : FlagBook) : Prop where
  items : ∀ t, (b.side t).items = f.queue t
  flags : b.flags = f.flags
  window : ∀ t, ∀ o ∈ f.queue t, o.priceLevel / priceWindow = k

theorem slotRank_lt_iff {t : OrderType} {a b : Order}
    (window : a.priceLevel / priceWindow = b.priceLevel / priceWindow) :
    slotRank t a < slotRank t b ↔ priceRank t a.priceLevel < priceRank t b.priceLevel := by
  have slotA := indexOf_eq a.priceLevel
  have slotB := indexOf_eq b.priceLevel
  have wholeA := Int.mul_ediv_add_emod a.priceLevel priceWindow
  have wholeB := Int.mul_ediv_add_emod b.priceLevel priceWindow
  rw [window] at wholeA
  simp only [priceWindow, priceWindowLog2] at *
  cases t with
  | buy =>
    simp only [slotRank, priceRank]
    omega
  | sell =>
    simp only [slotRank, priceRank]
    omega

section Sides
variable (registry : Registry) {t : OrderType}

theorem drainDead_items (fuel : Nat) : ∀ (side : PriceMap t) (m : Int → Option Bool) (w : World),
    side.items.length ≤ fuel →
    (PriceMap.drainDead registry fuel side m w).1.items =
      (drainFlags registry side.items m w).1 ∧
    (PriceMap.drainDead registry fuel side m w).2 = (drainFlags registry side.items m w).2 := by
  induction fuel with
  | zero =>
    intro side m w short
    rw [List.length_eq_zero_iff.mp (Nat.le_zero.mp short)]
    exact ⟨List.length_eq_zero_iff.mp (Nat.le_zero.mp short), rfl⟩
  | succ fuel ih =>
    intro side m w short
    rw [PriceMap.drainDead, Buckets.front_eq]
    cases all : side.items with
    | nil => exact ⟨all, rfl⟩
    | cons front rest =>
      have popped : side.popFront.items = rest := by
        rw [Buckets.items_popFront, all, List.tail_cons]
      rw [all, List.length_cons] at short
      simp only [List.head?_cons, drainFlags]
      cases (m front.orderId).getD false with
      | true =>
        have next := ih side.popFront (Function.update m front.orderId none)
          ((w.writeIfLocked registry front.sessionId (.killConfirm front)).record (.evicted front))
          (by rw [popped]; omega)
        rw [popped] at next
        exact next
      | false => exact ⟨all, rfl⟩

theorem fill_items (side : PriceMap t) {front : Order} {rest : List Order}
    (all : side.items = front :: rest) (fillQty : Int) :
    (PriceMap.fill side front fillQty).items = fillFront front rest fillQty := by
  rw [PriceMap.fill, fillFront]
  split
  · rw [Buckets.items_popFront, all, List.tail_cons]
  · rw [Buckets.items_mapFront, all]
    rfl

end Sides

namespace Maps
variable (registry : Registry) {k : Int} {b : MapBook} {f : FlagBook}

theorem sendOrder (h : Maps k b f) (order : Order) (window : order.priceLevel / priceWindow = k) :
    Maps k (b.sendOrder order) (f.sendOrder order) := by
  refine ⟨fun t => ?_, ?_, fun t o ho => ?_⟩
  · simp only [MapBook.sendOrder, FlagBook.sendOrder]
    by_cases side : t = order.orderType
    · subst side
      rw [Function.update_self, Function.update_self, Buckets.items_push, h.items]
      refine (insert_congr fun x hx => ?_).symm
      exact slotRank_lt_iff (window.trans (h.window _ x hx).symm)
    · rw [Function.update_of_ne side, Function.update_of_ne side, h.items]
  · rw [MapBook.sendOrder, FlagBook.sendOrder, h.flags]
  · simp only [FlagBook.sendOrder] at ho
    by_cases side : t = order.orderType
    · subst side
      rw [Function.update_self] at ho
      rcases mem_insert.mp ho with rfl | old
      · exact window
      · exact h.window _ o old
    · rw [Function.update_of_ne side] at ho
      exact h.window t o ho

theorem killOrder (h : Maps k b f) (w : World) (order : Order) :
    Maps k (b.killOrder registry w order).1 (f.killOrder registry w order).1 ∧
      (b.killOrder registry w order).2 = (f.killOrder registry w order).2 := by
  rw [MapBook.killOrder, FlagBook.killOrder, h.flags]
  split
  · exact ⟨h, rfl⟩
  · exact ⟨⟨h.items, rfl, h.window⟩, rfl⟩

theorem dispatch (h : Maps k b f) (w : World) {order : Order}
    (window : ∀ o, entry order = some o → o.priceLevel / priceWindow = k) :
    Maps k (b.dispatch registry w order).1 (f.dispatch registry w order).1 ∧
      (b.dispatch registry w order).2 = (f.dispatch registry w order).2 := by
  rw [MapBook.dispatch, FlagBook.dispatch]
  cases kind : order.requestType with
  | sendOrder => exact ⟨h.sendOrder order (window order (by simp [entry, kind])), rfl⟩
  | modifyOrder =>
    obtain ⟨killed, told⟩ := h.killOrder registry w order
    exact ⟨killed.sendOrder { order with delId := 0 }
      (window { order with delId := 0 } (by simp [entry, kind])), told⟩
  | killOrder => exact h.killOrder registry w order

theorem drainBoth (h : Maps k b f) (w : World) :
    Maps k (b.drainBoth registry w).1 (f.drainBoth registry w).1 ∧
      (b.drainBoth registry w).2 = (f.drainBoth registry w).2 := by
  obtain ⟨bids, afterBids⟩ := drainDead_items registry _ (b.side .buy) b.flags w
    (Nat.le_refl _)
  rw [h.items, h.flags] at bids afterBids
  obtain ⟨asks, afterAsks⟩ := drainDead_items registry _ (b.side .sell)
    (drainFlags registry (f.queue .buy) f.flags w).2.1
    (drainFlags registry (f.queue .buy) f.flags w).2.2 (Nat.le_refl _)
  rw [h.items] at asks afterAsks
  simp only [MapBook.drainBoth, FlagBook.drainBoth, h.items, h.flags, afterBids, afterAsks]
  refine ⟨⟨fun t => ?_, rfl, fun t o ho => ?_⟩, trivial⟩
  · cases t with
    | buy => exact bids
    | sell => exact asks
  · cases t with
    | buy => exact h.window .buy o ((drainFlags_suffix _ _ _ _).subset ho)
    | sell => exact h.window .sell o ((drainFlags_suffix _ _ _ _).subset ho)

theorem matchBest (h : Maps k b f) (w : World) :
    Option.Rel (fun x y => Maps k x.1 y.1 ∧ x.2 = y.2) (b.matchBest registry w)
      (f.matchBest registry w) := by
  rw [MapBook.matchBest, FlagBook.matchBest, Buckets.front_eq, Buckets.front_eq, h.items, h.items]
  cases buy : f.queue .buy with
  | nil => exact .none
  | cons bo bids =>
    cases sell : f.queue .sell with
    | nil => exact .none
    | cons ao asks =>
      simp only [List.head?_cons]
      by_cases apart : bo.priceLevel < ao.priceLevel
      · rw [if_pos apart, if_pos apart]
        exact .none
      rw [if_neg apart, if_neg apart, h.flags]
      refine .some ⟨⟨fun t => ?_, rfl, ?_⟩, rfl⟩
      · cases t with
        | buy => exact fill_items _ ((h.items .buy).trans buy) _
        | sell => exact fill_items _ ((h.items .sell).trans sell) _
      · apply fillFronts_keep (P := fun _ o => o.priceLevel / priceWindow = k) h.window buy sell
        · exact fun _ => h.window .buy bo (by rw [buy]; simp)
        · exact fun _ => h.window .sell ao (by rw [sell]; simp)

theorem updateLoop (fuel : Nat) : ∀ {b : MapBook} {f : FlagBook} (w : World), Maps k b f →
    Maps k (b.updateLoop registry fuel w).1 (f.updateLoop registry fuel w).1 ∧
      (b.updateLoop registry fuel w).2 = (f.updateLoop registry fuel w).2 := by
  induction fuel with
  | zero => exact fun _ h => ⟨h, rfl⟩
  | succ fuel ih =>
    intro b f w h
    obtain ⟨drained, same⟩ := h.drainBoth registry w
    have rel := drained.matchBest registry (f.drainBoth registry w).2
    rw [MapBook.updateLoop, FlagBook.updateLoop]
    simp only [same]
    generalize MapBook.matchBest registry _ _ = r at rel ⊢
    generalize FlagBook.matchBest registry _ _ = r' at rel ⊢
    cases rel with
    | none => exact ⟨drained, rfl⟩
    | @some x y both =>
      obtain ⟨b₂, w₂⟩ := x
      obtain ⟨f₂, _⟩ := y
      obtain ⟨h₂, rfl⟩ := both
      exact ih w₂ h₂

theorem process (h : Maps k b f) (w : World) {order : Order}
    (window : ∀ o, entry order = some o → o.priceLevel / priceWindow = k) :
    Maps k (b.process registry w order).1 (f.process registry w order).1 ∧
      (b.process registry w order).2 = (f.process registry w order).2 := by
  obtain ⟨dispatched, same⟩ := h.dispatch registry w window
  have rounds : (b.dispatch registry w order).1.resting = (f.dispatch registry w order).1.resting := by
    rw [MapBook.resting, FlagBook.resting, dispatched.items, dispatched.items]
  simp only [MapBook.process, FlagBook.process, MapBook.updateBook, FlagBook.updateBook, same, rounds]
  exact updateLoop registry _ _ dispatched

theorem run (orders : List Order) : ∀ {b : MapBook} {f : FlagBook} (w : World), Maps k b f →
    (∀ a ∈ accepted orders, a.priceLevel / priceWindow = k) →
    Maps k (b.run registry w orders).1 (f.run registry w orders).1 ∧
      (b.run registry w orders).2 = (f.run registry w orders).2 := by
  induction orders with
  | nil => exact fun _ h _ => ⟨h, rfl⟩
  | cons order orders ih =>
    intro b f w h window
    have one : ∀ o, entry order = some o → o.priceLevel / priceWindow = k :=
      fun o booked => window o (by simp [accepted, booked])
    obtain ⟨processed, same⟩ := h.process registry w one
    have later : ∀ a ∈ accepted orders, a.priceLevel / priceWindow = k := by
      intro a ha
      refine window a ?_
      rw [show order :: orders = [order] ++ orders from rfl, accepted_append]
      exact List.mem_append_right _ ha
    rw [MapBook.run_cons, FlagBook.run_cons, same]
    exact ih _ processed later

end Maps

/-- Within one window of prices the array book does what the map book does. -/
structure SameAsMap (b : OrderBook) (w : World) (m : MapBook × World) : Prop where
  messages : w = m.2
  resting : ∀ t, b.resting t = (m.1.side t).items
  snapshot : b.createSnapshot = .ok m.1.createSnapshot

theorem sameAsMap_of_tracks {k : Int} {b : OrderBook} {f : FlagBook} {m : MapBook} {w w' : World}
    (tracks : Tracks b f) (maps : Maps k m f) (same : w = w') : SameAsMap b w (m, w') := by
  refine ⟨same, fun t => ?_, ?_⟩
  · obtain ⟨q, rep, reads⟩ := tracks
    rw [resting_eq rep, maps.items, reads.queue]
  · rw [createSnapshot_tracks tracks, MapBook.createSnapshot, FlagBook.createSnapshot, maps.items,
      maps.items, maps.flags]

/-- The array book is the map book it replaced: after every stream of requests the same
    trades and messages have gone out, at the same lookups of the same sessions, and the same
    orders rest, as long as the array book meets no limit. -/
theorem array_book_is_map_book (registry : Registry) (reqs : List Order)
    (positive : ∀ key ∈ ids (accepted reqs), 1 ≤ key)
    (targets : ∀ order ∈ reqs, order.requestType ≠ .sendOrder → 0 ≤ order.delId) (k : Int)
    (window : ∀ a ∈ accepted reqs, a.priceLevel / priceWindow = k) :
    (∀ b w, OrderBook.run registry {} {} reqs = .ok (b, w) →
      SameAsMap b w (MapBook.run registry {} {} reqs)) ∧
    ∀ e, OrderBook.run registry {} {} reqs = .error e → e.isLimit := by
  have ordinary : ∀ key ∈ ids (accepted reqs), Ordinary key := by
    intro key h
    have := positive key h
    exact ordinary_of_nonneg (by omega)
  have tracked := run_tracks registry reqs {} tracks_new ordinary
    fun order h kind => ordinary_of_nonneg (targets order h kind)
  have start : Maps k {} {} := ⟨fun _ => rfl, rfl, fun _ _ h => by cases h⟩
  obtain ⟨maps, same⟩ := start.run registry reqs {} window
  refine ⟨fun b w run => ?_, fun e failed => ends_error tracked failed⟩
  obtain ⟨tracks, worlds⟩ := ends_ok tracked run
  exact sameAsMap_of_tracks tracks maps (worlds.trans same.symm)

def twoLevels : List Order :=
  [sendRequest .buy 1 100 5, sendRequest .buy 2 100 5, sendRequest .buy 3 101 4,
    { requestType := .killOrder, delId := 1 }, sendRequest .sell 4 100 7]

theorem array_book_is_map_book_twoLevels : ∃ b w,
    OrderBook.run (fun _ _ => true) {} {} twoLevels = .ok (b, w) ∧
    SameAsMap b w (MapBook.run (fun _ _ => true) {} {} twoLevels) := by
  obtain ⟨⟨b, w⟩, run⟩ := exists_ok (x := OrderBook.run (fun _ _ => true) {} {} twoLevels)
    (by decide +kernel)
  exact ⟨b, w, run, (array_book_is_map_book _ twoLevels (by decide) (by decide) 0
    (by decide)).1 b w run⟩

end MarketBookExchange
