import MarketBookExchange.LazyCancellation
import MarketBookExchange.MatchingRule

/- Two runs of one request stream that find different sessions. Their kill tables part, but
   never at the id of an order that rests, and nothing else of a book is read. -/
namespace MarketBookExchange
open RankedList Outcome KillFlagTable

/-- The same queues, the same trades so far, and the same flags for whatever rests. -/
structure InStep (f : FlagBook) (w : World) (f' : FlagBook) (w' : World) : Prop where
  queue : f'.queue = f.queue
  flags : ∀ t, ∀ o ∈ f.queue t, f'.flags o.orderId = f.flags o.orderId
  distinct : (ids (f.queue .buy) ++ ids (f.queue .sell)).Nodup
  trades : tradesOf w'.log = tradesOf w.log

section Steps
variable (registry : Registry) {f : FlagBook} {w : World}

theorem evict_keeps (distinct : (ids (f.queue .buy) ++ ids (f.queue .sell)).Nodup)
    {t u : OrderType} {front o : Order} {rest : List Order} (head : f.queue t = front :: rest)
    (ho : o ∈ (f.evict registry w t front rest).1.queue u) :
    (f.evict registry w t front rest).1.flags o.orderId = f.flags o.orderId := by
  have alone := front_alone distinct head u o ho
  exact Function.update_of_ne alone _ _

theorem evict_distinct (distinct : (ids (f.queue .buy) ++ ids (f.queue .sell)).Nodup)
    {t : OrderType} {front : Order} {rest : List Order} (head : f.queue t = front :: rest) :
    (ids ((f.evict registry w t front rest).1.queue .buy) ++
      ids ((f.evict registry w t front rest).1.queue .sell)).Nodup := by
  have fewer := rest_sublist head
  exact distinct.sublist (((fewer .buy).map _).append ((fewer .sell).map _))

theorem notifyFlags_other (m : Int → Option Bool) (w : World) (order : Order)
    (fillQty remainingQty fillPrice : Int) {id : Int}
    (other : remainingQty = 0 → id ≠ order.orderId) :
    (notifyFlags registry m w order fillQty remainingQty fillPrice).1 id = m id := by
  rcases (notifyFlags_cases registry m w order fillQty remainingQty fillPrice).1 with
    same | ⟨zero, gone⟩
  · rw [same]
  · rw [gone, Function.update_of_ne (other zero)]

theorem ids_fillFront_sublist (front : Order) (rest : List Order) (fillQty : Int) :
    (ids (fillFront front rest fillQty)).Sublist (ids (front :: rest)) := by
  rw [ids_fillFront front rest fillQty]
  exact List.sublist_append_right _ _

theorem tradeFronts_ids {bo ao : Order} {bids asks : List Order}
    (buy : f.queue .buy = bo :: bids) (sell : f.queue .sell = ao :: asks) (t : OrderType) :
    (ids ((f.tradeFronts registry w bo bids ao asks).1.queue t)).Sublist (ids (f.queue t)) := by
  cases t with
  | buy =>
    rw [buy]
    exact ids_fillFront_sublist _ _ _
  | sell =>
    rw [sell]
    exact ids_fillFront_sublist _ _ _

theorem used_up {queue : OrderType → List Order}
    (distinct : (ids (queue .buy) ++ ids (queue .sell)).Nodup) {t : OrderType} {front : Order}
    {rest : List Order} (head : queue t = front :: rest) {fillQty : Int}
    (zero : front.qty - fillQty = 0) {u : OrderType} {id : Int}
    (still : id ∈ ids (if u = t then fillFront front rest fillQty else queue u)) :
    id ≠ front.orderId := by
  obtain ⟨x, hx, rfl⟩ := List.mem_map.mp still
  apply front_alone distinct head u x
  by_cases side : u = t
  · subst side
    rw [if_pos rfl, fillFront, if_pos zero] at hx
    rwa [Function.update_self]
  · rw [if_neg side] at hx
    rwa [Function.update_of_ne side]

theorem tradeFronts_keeps (distinct : (ids (f.queue .buy) ++ ids (f.queue .sell)).Nodup)
    {bo ao o : Order} {bids asks : List Order} (buy : f.queue .buy = bo :: bids)
    (sell : f.queue .sell = ao :: asks) {u : OrderType}
    (ho : o ∈ (f.tradeFronts registry w bo bids ao asks).1.queue u) :
    (f.tradeFronts registry w bo bids ao asks).1.flags o.orderId = f.flags o.orderId := by
  have member := (tradeFronts_ids registry buy sell u).subset (List.mem_map_of_mem ho)
  have bid : bo.qty - min bo.qty ao.qty = 0 → o.orderId ≠ bo.orderId := by
    intro zero
    apply used_up distinct buy zero (u := u)
    cases u with
    | buy => exact List.mem_map_of_mem ho
    | sell => exact member
  have ask : ao.qty - min bo.qty ao.qty = 0 → o.orderId ≠ ao.orderId := by
    intro zero
    apply used_up distinct sell zero (u := u)
    cases u with
    | buy => exact member
    | sell => exact List.mem_map_of_mem ho
  unfold FlagBook.tradeFronts
  simp only
  rw [notifyFlags_other registry _ _ (afterFill ao _) _ _ _ ask,
    notifyFlags_other registry _ _ (afterFill bo _) _ _ _ bid]

theorem tradeFronts_trades {bo ao : Order} {bids asks : List Order} :
    tradesOf (f.tradeFronts registry w bo bids ao asks).2.log =
      tradesOf w.log ++ [.trade bo ao (min bo.qty ao.qty) ao.priceLevel] := by
  have bid := tradesOf_noted (notifyFlags_cases registry f.flags
    (w.record (.trade bo ao (min bo.qty ao.qty) ao.priceLevel)) (afterFill bo (min bo.qty ao.qty))
    (min bo.qty ao.qty) (bo.qty - min bo.qty ao.qty) ao.priceLevel).2
  unfold FlagBook.tradeFronts
  simp only
  rw [tradesOf_noted (notifyFlags_cases registry _ _ _ _ _ _).2, bid, World.record,
    tradesOf_append]
  rfl

end Steps

section TwoRuns
variable (registry registry' : Registry) {f f' : FlagBook} {w w' : World}

theorem InStep.evict (h : InStep f w f' w') {t : OrderType} {front : Order} {rest : List Order}
    (head : f.queue t = front :: rest) :
    InStep (f.evict registry w t front rest).1 (f.evict registry w t front rest).2
      (f'.evict registry' w' t front rest).1 (f'.evict registry' w' t front rest).2 := by
  have distinct' := h.distinct
  rw [← h.queue] at distinct'
  have head' : f'.queue t = front :: rest := by rw [h.queue, head]
  have queues : (f'.evict registry' w' t front rest).1.queue =
      (f.evict registry w t front rest).1.queue := by
    unfold FlagBook.evict
    simp only
    rw [h.queue]
  constructor
  · exact queues
  · intro u o ho
    have old := mem_evict head ho
    rw [evict_keeps registry h.distinct head ho]
    rw [← queues] at ho
    rw [evict_keeps registry' distinct' head' ho]
    exact h.flags u o old
  · exact evict_distinct registry h.distinct head
  · unfold FlagBook.evict
    simp only
    rw [tradesOf_evict, tradesOf_evict, h.trades]

theorem InStep.tradeFronts (h : InStep f w f' w') {bo ao : Order} {bids asks : List Order}
    (buy : f.queue .buy = bo :: bids) (sell : f.queue .sell = ao :: asks) :
    InStep (f.tradeFronts registry w bo bids ao asks).1
      (f.tradeFronts registry w bo bids ao asks).2
      (f'.tradeFronts registry' w' bo bids ao asks).1
      (f'.tradeFronts registry' w' bo bids ao asks).2 := by
  have distinct' := h.distinct
  rw [← h.queue] at distinct'
  have buy' : f'.queue .buy = bo :: bids := by rw [h.queue, buy]
  have sell' : f'.queue .sell = ao :: asks := by rw [h.queue, sell]
  constructor
  · rfl
  · intro u o ho
    rw [tradeFronts_keeps registry h.distinct buy sell ho,
      tradeFronts_keeps registry' distinct' buy' sell' ho]
    have member := (tradeFronts_ids registry buy sell u).subset (List.mem_map_of_mem ho)
    obtain ⟨x, hx, same⟩ := List.mem_map.mp member
    rw [← same]
    exact h.flags u x hx
  · exact h.distinct.sublist ((tradeFronts_ids registry buy sell .buy).append
      (tradeFronts_ids registry buy sell .sell))
  · rw [tradeFronts_trades, tradeFronts_trades, h.trades]

theorem InStep.drainFlags (t : OrderType) (l : List Order) : ∀ {f f' : FlagBook} {w w' : World},
    InStep f w f' w' → f.queue t = l →
    InStep ⟨Function.update f.queue t (drainFlags registry l f.flags w).1,
        (drainFlags registry l f.flags w).2.1⟩ (drainFlags registry l f.flags w).2.2
      ⟨Function.update f'.queue t (drainFlags registry' l f'.flags w').1,
        (drainFlags registry' l f'.flags w').2.1⟩ (drainFlags registry' l f'.flags w').2.2 := by
  induction l with
  | nil =>
    intro f f' w w' h queue
    have queue' : f'.queue t = [] := by rw [h.queue, queue]
    unfold MarketBookExchange.drainFlags
    rwa [← queue, Function.update_eq_self, queue, ← queue', Function.update_eq_self]
  | cons front rest ih =>
    intro f f' w w' h queue
    have queue' : f'.queue t = front :: rest := by rw [h.queue, queue]
    have same := h.flags t front (by rw [queue]; simp)
    unfold MarketBookExchange.drainFlags
    rw [same]
    split
    · have drained := ih (h.evict registry registry' queue) (Function.update_self _ _ _)
      unfold FlagBook.evict at drained
      rwa [Function.update_idem, Function.update_idem] at drained
    · rwa [← queue, Function.update_eq_self, queue, ← queue', Function.update_eq_self]

theorem InStep.drainBoth (h : InStep f w f' w') :
    InStep (f.drainBoth registry w).1 (f.drainBoth registry w).2 (f'.drainBoth registry' w').1
      (f'.drainBoth registry' w').2 := by
  have bids := InStep.drainFlags registry registry' .buy (f.queue .buy) h rfl
  rw [update_buy, update_buy] at bids
  have asks := InStep.drainFlags registry registry' .sell (f.queue .sell) bids rfl
  rw [update_sell, update_sell] at asks
  unfold FlagBook.drainBoth
  rw [h.queue]
  exact asks

theorem InStep.matchBest (h : InStep f w f' w') :
    f.matchBest registry w = none ∧ f'.matchBest registry' w' = none ∨
    ∃ bo bids ao asks, f.queue .buy = bo :: bids ∧ f.queue .sell = ao :: asks ∧
      f.matchBest registry w = some (f.tradeFronts registry w bo bids ao asks) ∧
      f'.matchBest registry' w' = some (f'.tradeFronts registry' w' bo bids ao asks) := by
  unfold FlagBook.matchBest
  rw [h.queue]
  cases buy : f.queue .buy with
  | nil => exact Or.inl ⟨rfl, rfl⟩
  | cons bo bids =>
    cases sell : f.queue .sell with
    | nil => exact Or.inl ⟨rfl, rfl⟩
    | cons ao asks =>
      by_cases apart : bo.priceLevel < ao.priceLevel
      · simp only [if_pos apart]
        exact Or.inl ⟨trivial, trivial⟩
      · simp only [if_neg apart]
        exact Or.inr ⟨bo, bids, ao, asks, rfl, rfl, rfl, rfl⟩

theorem InStep.updateLoop (fuel : Nat) : ∀ {f f' : FlagBook} {w w' : World}, InStep f w f' w' →
    InStep (f.updateLoop registry fuel w).1 (f.updateLoop registry fuel w).2
      (f'.updateLoop registry' fuel w').1 (f'.updateLoop registry' fuel w').2 := by
  induction fuel with
  | zero => exact fun h => h
  | succ fuel ih =>
    intro f f' w w' h
    have drained := h.drainBoth registry registry'
    unfold FlagBook.updateLoop
    simp only
    rcases drained.matchBest registry registry' with
      ⟨nothing, nothing'⟩ | ⟨bo, bids, ao, asks, buy, sell, made, made'⟩
    · simp only [nothing, nothing']
      exact drained
    · simp only [made, made']
      exact ih (drained.tradeFronts registry registry' buy sell)

theorem InStep.updateBook (h : InStep f w f' w') :
    InStep (f.updateBook registry w).1 (f.updateBook registry w).2
      (f'.updateBook registry' w').1 (f'.updateBook registry' w').2 := by
  have fuel : f'.resting = f.resting := by
    unfold FlagBook.resting
    rw [h.queue]
  unfold FlagBook.updateBook
  rw [fuel]
  exact InStep.updateLoop registry registry' _ h

theorem InStep.send (h : InStep f w f' w') {o : Order}
    (new : ∀ t, ∀ x ∈ f.queue t, x.orderId ≠ o.orderId) :
    InStep (f.sendOrder o) w (f'.sendOrder o) w' := by
  constructor
  · unfold FlagBook.sendOrder
    simp only
    rw [h.queue]
  · intro t x hx
    simp only [FlagBook.sendOrder]
    rcases mem_sendOrder.mp hx with ⟨rfl, _⟩ | old
    · rw [Function.update_self, Function.update_self]
    · rw [Function.update_of_ne (new t x old), Function.update_of_ne (new t x old)]
      exact h.flags t x old
  · exact distinct_sendOrder h.distinct new
  · exact h.trades

theorem InStep.kill (h : InStep f w f' w') (order : Order) :
    InStep (f.killOrder registry w order).1 (f.killOrder registry w order).2
      (f'.killOrder registry' w' order).1 (f'.killOrder registry' w' order).2 := by
  have quiet : ∀ (g : FlagBook) (r : Registry) (v : World),
      tradesOf (g.killOrder r v order).2.log = tradesOf v.log := by
    intro g r v
    unfold FlagBook.killOrder
    split
    · exact tradesOf_noted (noted_writeIfLocked r v _ _)
    · rfl
  constructor
  · rw [Reads.killOrder_fst, Reads.killOrder_fst]
    exact h.queue
  · rw [Reads.killOrder_fst, Reads.killOrder_fst]
    intro t x hx
    have same := h.flags t x hx
    simp only at hx ⊢
    by_cases target : x.orderId = order.delId
    · rw [target] at same
      rw [target, markKilled_self, markKilled_self, same]
    · rw [markKilled_of_ne _ target, markKilled_of_ne _ target, same]
  · rw [Reads.killOrder_fst]
    exact h.distinct
  · rw [quiet, quiet, h.trades]

theorem InStep.dispatch {reqs : List Order} (h : InStep f w f' w') (sound : Sound reqs f)
    {order : Order} (unique : (ids (accepted (reqs ++ [order]))).Nodup) :
    InStep (f.dispatch registry w order).1 (f.dispatch registry w order).2
      (f'.dispatch registry' w' order).1 (f'.dispatch registry' w' order).2 := by
  have fresh : ∀ o, entry order = some o → ∀ t, ∀ x ∈ f.queue t, x.orderId ≠ o.orderId := by
    intro o booked t x hx
    rw [ids_accepted_append reqs booked] at unique
    exact (List.nodup_append.mp unique).2.2 _ (sound.known t x hx) _ (by simp)
  have killed := h.kill registry registry' order
  unfold FlagBook.dispatch
  cases kind : order.requestType with
  | sendOrder => exact h.send (fresh order (by simp [entry, kind]))
  | modifyOrder =>
    have kept : (f.killOrder registry w order).1.queue = f.queue := by
      rw [Reads.killOrder_fst]
    apply killed.send
    rw [kept]
    exact fresh { order with delId := 0 } (by simp [entry, kind])
  | killOrder => exact killed

structure Together (reqs : List Order) (f : FlagBook) (w : World) (f' : FlagBook) (w' : World) :
    Prop where
  inStep : InStep f w f' w'
  sound : Sound reqs f
  sound' : Sound reqs f'

theorem Together.process {reqs : List Order} (h : Together reqs f w f' w') {order : Order}
    (unique : (ids (accepted (reqs ++ [order]))).Nodup) :
    Together (reqs ++ [order]) (f.process registry w order).1 (f.process registry w order).2
      (f'.process registry' w' order).1 (f'.process registry' w' order).2 := by
  constructor
  · exact (h.inStep.dispatch registry registry' h.sound unique).updateBook registry registry'
  · have shows := h.sound.shows.dispatch registry w unique
    exact (shows.updateBook registry _).1.toSound
  · have shows := h.sound'.shows.dispatch registry' w' unique
    exact (shows.updateBook registry' _).1.toSound

theorem Together.run (orders : List Order) : ∀ {reqs : List Order} {f f' : FlagBook}
    {w w' : World}, Together reqs f w f' w' → (ids (accepted (reqs ++ orders))).Nodup →
    Together (reqs ++ orders) (f.run registry w orders).1 (f.run registry w orders).2
      (f'.run registry' w' orders).1 (f'.run registry' w' orders).2 := by
  induction orders with
  | nil =>
    intro reqs f f' w w' h _
    rw [List.append_nil]
    exact h
  | cons order orders ih =>
    intro reqs f f' w w' h unique
    rw [List.append_cons] at unique ⊢
    rw [FlagBook.run_cons, FlagBook.run_cons]
    exact ih (h.process registry registry' (nodup_accepted_left unique)) unique

end TwoRuns

theorem together_new : Together [] {} {} {} {} := by
  constructor
  · constructor
    · rfl
    · exact fun _ _ _ => rfl
    · simp [ids]
    · rfl
  · exact sound_new
  · exact sound_new

/-- Two books no participant of the market can tell apart. -/
structure Indistinct (b : OrderBook) (w : World) (b' : OrderBook) (w' : World) : Prop where
  trades : tradesOf w.log = tradesOf w'.log
  resting : ∀ t slot, b.levelOrders t slot = b'.levelOrders t slot
  killed : ∀ t slot, ∀ o ∈ b.levelOrders t slot,
    b.killedOrders.isKilled o.orderId = b'.killedOrders.isKilled o.orderId
  snapshot : b.createSnapshot = b'.createSnapshot

theorem indistinct_of_inStep {b b' : OrderBook} {f f' : FlagBook} {w w' : World}
    (tracks : Tracks b f) (tracks' : Tracks b' f') (h : InStep f w f' w') :
    Indistinct b w b' w' := by
  have live : ∀ t, liveOrders f'.flags (f'.queue t) = liveOrders f.flags (f.queue t) := by
    intro t
    rw [h.queue]
    exact liveOrders_congr fun o ho => by rw [h.flags t o ho]
  have snapshot : b.createSnapshot = b'.createSnapshot := by
    rw [createSnapshot_tracks tracks, createSnapshot_tracks tracks']
    simp only [FlagBook.createSnapshot, live]
  obtain ⟨q, rep, reads⟩ := tracks
  obtain ⟨q', rep', reads'⟩ := tracks'
  have levels : ∀ t slot, b.levelOrders t slot = b'.levelOrders t slot := by
    intro t slot
    rw [levelOrders_eq rep, levelOrders_eq rep', reads.queue, reads'.queue, h.queue]
  constructor
  · exact h.trades.symm
  · exact levels
  · intro t slot o ho
    rw [levelOrders_eq rep, reads.queue] at ho
    have member := List.mem_of_mem_filter ho
    have ordinary := reads.ordinary t o member
    rw [rep.killed, rep'.killed, isKilled_ok reads.rep ordinary, isKilled_ok reads'.rep ordinary,
      h.flags t o member]
  · exact snapshot

theorem run_take {registry : Registry} {b b' : OrderBook} {w w' : World} {orders : List Order}
    (run : b.run registry w orders = .ok (b', w')) (n : Nat) :
    ∃ b₁ w₁, b.run registry w (orders.take n) = .ok (b₁, w₁) := by
  rw [OrderBook.run, ← List.take_append_drop n orders, List.foldlM_append] at run
  obtain ⟨⟨b₁, w₁⟩, first, _⟩ := bind_ok run
  exact ⟨b₁, w₁, first⟩

theorem Stream.take {orders : List Order} (h : Stream orders) (n : Nat) :
    Stream (orders.take n) := by
  have unique := h.unique
  rw [← List.take_append_drop n orders] at unique
  constructor
  · exact nodup_accepted_left unique
  · intro key member
    apply h.positive
    rw [← List.take_append_drop n orders]
    exact mem_accepted_left member
  · exact fun order member => h.targets order (List.mem_of_mem_take member)

theorem Stream.keys {orders : List Order} (h : Stream orders) :
    (∀ key ∈ ids (accepted orders), Ordinary key) ∧ ∀ order ∈ orders, Targeted order := by
  constructor
  · intro key member
    have := h.positive key member
    exact ordinary_of_nonneg (by omega)
  · exact fun order member kind => ordinary_of_nonneg (h.targets order member kind)

/-- Whichever sessions the two runs find, nothing but a limit ends them, and they stay alike
    after every request. -/
theorem sessions_do_not_matter (registry registry' : Registry) (orders : List Order)
    (stream : Stream orders) :
    (∀ e, OrderBook.run registry {} {} orders = .error e → e.isLimit) ∧
    (∀ e, OrderBook.run registry' {} {} orders = .error e → e.isLimit) ∧
    ∀ b w b' w', OrderBook.run registry {} {} orders = .ok (b, w) →
      OrderBook.run registry' {} {} orders = .ok (b', w') →
      ∀ n, ∃ b₁ w₁ b₁' w₁', OrderBook.run registry {} {} (orders.take n) = .ok (b₁, w₁) ∧
        OrderBook.run registry' {} {} (orders.take n) = .ok (b₁', w₁') ∧
        Indistinct b₁ w₁ b₁' w₁' := by
  obtain ⟨ordinary, targeted⟩ := stream.keys
  refine ⟨fun e failed => ends_error (run_tracks registry _ {} tracks_new ordinary targeted) failed,
    fun e failed => ends_error (run_tracks registry' _ {} tracks_new ordinary targeted) failed, ?_⟩
  intro b w b' w' run run' n
  obtain ⟨b₁, w₁, ran⟩ := run_take run n
  obtain ⟨b₁', w₁', ran'⟩ := run_take run' n
  have part := stream.take n
  obtain ⟨ordinary, targeted⟩ := part.keys
  obtain ⟨tracks, same⟩ := ends_ok (run_tracks registry _ {} tracks_new ordinary targeted) ran
  obtain ⟨tracks', same'⟩ := ends_ok (run_tracks registry' _ {} tracks_new ordinary targeted) ran'
  have together := together_new.run registry registry' (orders.take n) part.unique
  simp only at same same' tracks tracks'
  have alike := indistinct_of_inStep tracks tracks' together.inStep
  rw [← same, ← same'] at alike
  exact ⟨b₁, w₁, b₁', w₁', ran, ran', alike⟩

/-- A bid that fills while its owner is gone, and a KILL of it when the id is known still. -/
def killFilled : List Order :=
  [sendRequest .buy 1 100 5, sendRequest .sell 2 90 5, sendRequest .buy 3 100 5,
    { requestType := .killOrder, delId := 1 }]

/-- One run finds all sessions, the other none: only one of them answers the KILL. -/
theorem sessions_do_not_matter_killFilled : ∃ b w b' w',
    OrderBook.run (fun _ _ => true) {} {} killFilled = .ok (b, w) ∧
    OrderBook.run (fun _ _ => false) {} {} killFilled = .ok (b', w') ∧
    ∀ n, ∃ b₁ w₁ b₁' w₁',
      OrderBook.run (fun _ _ => true) {} {} (killFilled.take n) = .ok (b₁, w₁) ∧
      OrderBook.run (fun _ _ => false) {} {} (killFilled.take n) = .ok (b₁', w₁') ∧
      Indistinct b₁ w₁ b₁' w₁' := by
  obtain ⟨⟨b, w⟩, run⟩ := exists_ok (x := OrderBook.run (fun _ _ => true) {} {} killFilled)
    (by decide +kernel)
  obtain ⟨⟨b', w'⟩, run'⟩ := exists_ok
    (x := OrderBook.run (fun _ _ => false) {} {} killFilled) (by decide +kernel)
  have stream : Stream killFilled := ⟨by decide, by decide, by decide⟩
  exact ⟨b, w, b', w', run, run', (sessions_do_not_matter (fun _ _ => true) (fun _ _ => false)
    killFilled stream).2.2 b w b' w' run run'⟩

end MarketBookExchange
