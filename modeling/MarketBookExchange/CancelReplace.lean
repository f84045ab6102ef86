import MarketBookExchange.PriceTimeSweep

/- `MODIFY_ORDER` is a KILL and a SEND in one step, with no matching in between. In one window
   of prices no matching is missed: a KILL and a SEND give the same market. -/
namespace MarketBookExchange
open RankedList Outcome

/-- The order without what kind of request it came in. -/
def Order.plain (o : Order) : Order := { o with requestType := .sendOrder }

def Event.plain : Event → Event
  | .trade bid ask fillQty fillPrice => .trade bid.plain ask.plain fillQty fillPrice
  | e => e

theorem insert_plain (t : OrderType) (o : Order) (l : List Order) :
    insert (slotRank t) o.plain (l.map Order.plain) =
      (insert (slotRank t) o l).map Order.plain := by
  have rank : ∀ x : Order, slotRank t x.plain = slotRank t x := by
    intro x
    cases t <;> rfl
  induction l with
  | nil => rfl
  | cons x l ih =>
    rw [List.map_cons, insert_cons, insert_cons, rank, rank, ih]
    split <;> rfl

theorem fillOf_plain (t : OrderType) (o x : Order) (fillQty : Int) :
    fillOf t o.plain x.plain fillQty = (fillOf t o x fillQty).plain := by
  cases t <;> rfl

theorem sweep_plain (t : OrderType) (xs : List Order) : ∀ o : Order,
    sweep t o.plain (xs.map Order.plain) =
      ((sweep t o xs).1.map Event.plain, (sweep t o xs).2.1.map Order.plain,
        (sweep t o xs).2.2.map Order.plain) := by
  induction xs with
  | nil => exact fun _ => rfl
  | cons x xs ih =>
    intro o
    have price : ∀ y : Order, y.plain.priceLevel = y.priceLevel := fun _ => rfl
    have size : ∀ y : Order, y.plain.qty = y.qty := fun _ => rfl
    have filled : ∀ (y : Order) (n : Int), afterFill y.plain n = (afterFill y n).plain :=
      fun _ _ => rfl
    rw [List.map_cons]
    unfold sweep
    simp only [price, size, filled, fillOf_plain, ih]
    split
    · split
      · rfl
      · split <;> rfl
    · rfl

namespace LiveBook

/-- The same live orders, whatever requests they came in. -/
def Alike (L L' : LiveBook) : Prop := ∀ t, (L t).map Order.plain = (L' t).map Order.plain

variable {L L' : LiveBook}

theorem Alike.kill (alike : Alike L L') (id : Int) : Alike (L.kill id) (L'.kill id) := by
  have plain : ∀ l : List Order, (without id l).map Order.plain = without id (l.map Order.plain) := by
    intro l
    unfold without
    rw [List.filter_map]
    rfl
  intro t
  unfold LiveBook.kill
  rw [plain, plain, alike t]

theorem Alike.arrive (alike : Alike L L') {o o' : Order} (same : o.plain = o'.plain) :
    Alike (L.arrive o).1 (L'.arrive o').1 ∧
      (L.arrive o).2.map Event.plain = (L'.arrive o').2.map Event.plain := by
  have side : o.orderType = o'.orderType := by
    show o.plain.orderType = o'.plain.orderType
    rw [same]
  have swept := sweep_plain o.orderType (L o.orderType.other) o
  rw [same, side, alike, sweep_plain] at swept
  obtain ⟨trades, swept⟩ := Prod.mk.inj swept
  obtain ⟨left, others⟩ := Prod.mk.inj swept
  unfold LiveBook.arrive
  simp only [side]
  constructor
  · intro t
    have own : (restWith o'.orderType (L o'.orderType)
        (sweep o'.orderType o (L o'.orderType.other)).2.1).map Order.plain =
        (restWith o'.orderType (L' o'.orderType)
          (sweep o'.orderType o' (L' o'.orderType.other)).2.1).map Order.plain := by
      cases rest : (sweep o'.orderType o (L o'.orderType.other)).2.1 with
      | none =>
        rw [rest, Option.map_none] at left
        rw [Option.map_eq_none_iff.mp left]
        exact alike _
      | some x =>
        rw [rest, Option.map_some] at left
        obtain ⟨x', there, plain⟩ := Option.map_eq_some_iff.mp left
        rw [there]
        unfold restWith
        simp only
        rw [← insert_plain, ← insert_plain, alike, plain]
    have split : ∀ (u : OrderType) (ys xs : List Order),
        (pair u ys xs t).map Order.plain = pair u (ys.map Order.plain) (xs.map Order.plain) t := by
      intro u ys xs
      cases u <;> cases t <;> rfl
    rw [split, split, own, others]
  · exact trades.symm

theorem Alike.request (alike : Alike L L') (order : Order) :
    Alike (L.request order).1 (L'.request order).1 ∧
      (L.request order).2.map Event.plain = (L'.request order).2.map Event.plain := by
  unfold LiveBook.request
  cases order.requestType with
  | sendOrder => exact alike.arrive rfl
  | modifyOrder => exact (alike.kill _).arrive rfl
  | killOrder => exact ⟨alike.kill _, rfl⟩

theorem Alike.requests (orders : List Order) : ∀ {L L' : LiveBook}, Alike L L' →
    Alike (L.requests orders).1 (L'.requests orders).1 ∧
      (L.requests orders).2.map Event.plain = (L'.requests orders).2.map Event.plain := by
  induction orders with
  | nil => exact fun alike => ⟨alike, rfl⟩
  | cons order orders ih =>
    intro L L' alike
    obtain ⟨next, first⟩ := alike.request order
    obtain ⟨last, later⟩ := ih next
    unfold LiveBook.requests
    constructor
    · exact last
    · simp only [List.map_append, first, later]

theorem requests_append (L : LiveBook) (orders more : List Order) :
    L.requests (orders ++ more) =
      (((L.requests orders).1.requests more).1,
        (L.requests orders).2 ++ ((L.requests orders).1.requests more).2) := by
  induction orders generalizing L with
  | nil => rfl
  | cons order orders ih => simp [requests, ih, List.append_assoc]

end LiveBook

/-- The KILL and the SEND that stand for a MODIFY. -/
structure Replaces (order kill send : Order) : Prop where
  modify : order.requestType = .modifyOrder
  kills : kill.requestType = .killOrder ∧ kill.delId = order.delId
  sends : send = { order with requestType := .sendOrder, delId := 0 }

namespace Replaces
variable {order kill send : Order}

theorem request (h : Replaces order kill send) (L : LiveBook) :
    LiveBook.Alike (L.request order).1 (L.requests [kill, send]).1 ∧
      (L.request order).2.map Event.plain = (L.requests [kill, send]).2.map Event.plain := by
  obtain ⟨modify, ⟨kills, target⟩, rfl⟩ := h
  have start : LiveBook.Alike (L.kill order.delId) (L.kill order.delId) := fun _ => rfl
  have same : ({ order with delId := 0 } : Order).plain =
      ({ order with requestType := .sendOrder, delId := 0 } : Order).plain := rfl
  have arrived := start.arrive same
  simp only [LiveBook.requests, LiveBook.request, kills, target, modify, List.nil_append,
    List.append_nil] at arrived ⊢
  exact arrived

theorem accepted_eq (h : Replaces order kill send) (pre post : List Order) :
    accepted (pre ++ kill :: send :: post) = accepted pre ++ send :: accepted post ∧
      accepted (pre ++ order :: post) =
        accepted pre ++ { order with delId := 0 } :: accepted post := by
  obtain ⟨modify, ⟨kills, _⟩, rfl⟩ := h
  constructor
  · rw [accepted_append]
    simp [accepted, entry, kills]
  · rw [accepted_append]
    simp [accepted, entry, modify]

theorem stream (h : Replaces order kill send) {pre post : List Order}
    (stream : Stream (pre ++ order :: post)) : Stream (pre ++ kill :: send :: post) := by
  obtain ⟨unique, positive, targets⟩ := stream
  have same : ids (accepted (pre ++ kill :: send :: post)) =
      ids (accepted (pre ++ order :: post)) := by
    rw [(h.accepted_eq pre post).1, (h.accepted_eq pre post).2, h.sends]
    simp [ids]
  constructor
  · rw [same]
    exact unique
  · rw [same]
    exact positive
  · intro x member other
    rcases List.mem_append.mp member with before | after
    · exact targets x (List.mem_append_left _ before) other
    · rcases List.mem_cons.mp after with rfl | after
      · rw [h.kills.2]
        exact targets order (by simp) (by rw [h.modify]; simp)
      · rcases List.mem_cons.mp after with rfl | after
        · rw [h.sends] at other
          exact absurd rfl other
        · exact targets x (by simp [after]) other

theorem oneWindow (h : Replaces order kill send) {pre post : List Order} {k : Int}
    (one : LiveBook.OneWindow k (pre ++ order :: post)) :
    LiveBook.OneWindow k (pre ++ kill :: send :: post) := by
  obtain ⟨window, positive⟩ := one
  rw [(h.accepted_eq pre post).2] at window positive
  have rest : ∀ {P : Order → Prop}, P { order with delId := 0 } = P send →
      (∀ o ∈ accepted pre ++ { order with delId := 0 } :: accepted post, P o) →
      ∀ o ∈ accepted pre ++ send :: accepted post, P o := by
    intro P same all o member
    rcases List.mem_append.mp member with before | after
    · exact all o (List.mem_append_left _ before)
    · rcases List.mem_cons.mp after with rfl | after
      · rw [← same]
        exact all _ (by simp)
      · exact all o (by simp [after])
  constructor
  · rw [(h.accepted_eq pre post).1]
    exact rest (P := fun o => o.priceLevel / priceWindow = k) (by rw [h.sends]) window
  · rw [(h.accepted_eq pre post).1]
    exact rest (P := fun o => 0 < o.qty) (by rw [h.sends]) positive

end Replaces

/-- In any stream for one window of prices a MODIFY may be sent as a KILL and a SEND, with the
    matching loop run after each: all trades and all live orders stay the same. -/
theorem modify_is_kill_send (registry registry' : Registry) {pre post : List Order}
    {order kill send : Order} (replaces : Replaces order kill send)
    (stream : Stream (pre ++ order :: post)) {k : Int}
    (one : LiveBook.OneWindow k (pre ++ order :: post)) :
    (∀ b w b' w', OrderBook.run registry {} {} (pre ++ order :: post) = .ok (b, w) →
      OrderBook.run registry' {} {} (pre ++ kill :: send :: post) = .ok (b', w') →
      (tradesOf w.log).map Event.plain = (tradesOf w'.log).map Event.plain ∧
        ∀ t, (b.live t).map Order.plain = (b'.live t).map Order.plain) ∧
    (∀ e, OrderBook.run registry {} {} (pre ++ order :: post) = .error e → e.isLimit) ∧
    ∀ e, OrderBook.run registry' {} {} (pre ++ kill :: send :: post) = .error e → e.isLimit := by
  have market := run_market registry stream
  have market' := run_market registry' (replaces.stream stream)
  refine ⟨fun b w b' w' run run' => ?_, fun e failed => ends_error market failed,
    fun e failed => ends_error market' failed⟩
  obtain ⟨trades, live⟩ := sweeps_of_market (ends_ok market run) one
  obtain ⟨trades', live'⟩ := sweeps_of_market (ends_ok market' run') (replaces.oneWindow one)
  have step := replaces.request (LiveBook.requests (fun _ => []) pre).1
  obtain ⟨last, later⟩ := LiveBook.Alike.requests post step.1
  have split : pre ++ order :: post = (pre ++ [order]) ++ post := by simp
  have split' : pre ++ kill :: send :: post = (pre ++ [kill, send]) ++ post := by simp
  have single : ∀ L : LiveBook, L.requests [order] = L.request order := by
    intro L
    simp [LiveBook.requests]
  rw [split, LiveBook.requests_append, LiveBook.requests_append, single] at trades live
  rw [split', LiveBook.requests_append, LiveBook.requests_append] at trades' live'
  constructor
  · rw [trades, trades']
    simp only [List.map_append, step.2, later]
  · intro t
    rw [live t, live' t]
    exact last t

def raisedBid : Order :=
  { sendRequest .buy 3 101 6 with requestType := .modifyOrder, delId := 2 }

theorem modify_is_kill_send_raisedBid : ∃ b b' w w',
    OrderBook.run (fun _ _ => true) {} {}
      ([sendRequest .sell 1 101 4, sendRequest .buy 2 99 5] ++ raisedBid ::
        [sendRequest .sell 4 100 1]) = .ok (b, w) ∧
    OrderBook.run (fun _ _ => false) {} {}
      ([sendRequest .sell 1 101 4, sendRequest .buy 2 99 5] ++
        { requestType := .killOrder, delId := 2 } :: sendRequest .buy 3 101 6 ::
        [sendRequest .sell 4 100 1]) = .ok (b', w') ∧
    (tradesOf w.log).map Event.plain = (tradesOf w'.log).map Event.plain ∧
      ∀ t, (b.live t).map Order.plain = (b'.live t).map Order.plain := by
  obtain ⟨⟨b, w⟩, run⟩ := exists_ok (x := OrderBook.run (fun _ _ => true) {} {}
    ([sendRequest .sell 1 101 4, sendRequest .buy 2 99 5] ++ raisedBid ::
      [sendRequest .sell 4 100 1])) (by decide +kernel)
  obtain ⟨⟨b', w'⟩, run'⟩ := exists_ok (x := OrderBook.run (fun _ _ => false) {} {}
    ([sendRequest .sell 1 101 4, sendRequest .buy 2 99 5] ++
      { requestType := .killOrder, delId := 2 } :: sendRequest .buy 3 101 6 ::
      [sendRequest .sell 4 100 1])) (by decide +kernel)
  have replaces : Replaces raisedBid { requestType := .killOrder, delId := 2 }
      (sendRequest .buy 3 101 6) := ⟨rfl, ⟨rfl, rfl⟩, by decide⟩
  exact ⟨b, b', w, w', run, run',
    (modify_is_kill_send (fun _ _ => true) (fun _ _ => false) replaces
      ⟨by decide, by decide, by decide⟩ (k := 0) ⟨by decide, by decide⟩).1 b w b' w' run run'⟩

end MarketBookExchange
