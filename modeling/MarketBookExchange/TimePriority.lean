import MarketBookExchange.Ledger

/- Within a slot, and so at one price, orders rest in the order of their arrival. A trade
   takes the fronts of the two queues and so never passes an earlier order by. -/
namespace MarketBookExchange
open RankedList Outcome

/-- Each slot's queue, by ids, in the order the requests came. -/
def Fifo (reqs : List Order) (queue : OrderType → List Order) : Prop :=
  ∀ t slot, (ids ((queue t).filter fun o => indexOf o.priceLevel = slot)).Sublist
    (ids (accepted reqs))

section
variable {reqs : List Order} {queue : OrderType → List Order}

def AllRanked (queue : OrderType → List Order) : Prop := ∀ t, Ranked (slotRank t) (queue t)

theorem AllRanked.replace (h : AllRanked queue) {t : OrderType} {l : List Order}
    (ranked : Ranked (slotRank t) l) : AllRanked (Function.update queue t l) := by
  intro u
  by_cases same : u = t
  · subst same
    rwa [Function.update_self]
  · rw [Function.update_of_ne same]
    exact h u

theorem ranked_fillFront {t : OrderType} {front : Order} {rest : List Order}
    (h : Ranked (slotRank t) (front :: rest)) (fillQty : Int) :
    Ranked (slotRank t) (fillFront front rest fillQty) := by
  rw [fillFront]
  split
  · exact ranked_tail h
  · exact ranked_replace_head h (slotRank_inj.mpr rfl)

def InArrival (arrived : List Int) (queue : OrderType → List Order) : Prop := ∀ t slot,
  (ids ((queue t).filter fun o => indexOf o.priceLevel = slot)).Sublist arrived

theorem InArrival.accept {arrived : List Int} (h : InArrival arrived queue)
    (ranked : AllRanked queue) (o : Order) :
    InArrival (arrived ++ [o.orderId]) (Function.update queue o.orderType
      (insert (slotRank o.orderType) o (queue o.orderType))) := by
  intro t slot
  have old := h t slot
  by_cases side : t = o.orderType
  · subst side
    rw [Function.update_self]
    by_cases here : indexOf o.priceLevel = slot
    · rw [filter_rank_insert (ranked _) o _
        (fun b _ same => slotRank_inj.mpr (by simp at same; omega)) (by simp [here]),
        ids, List.map_append]
      exact old.append (List.Sublist.refl _)
    · rw [filter_insert (ranked _), if_neg (by simpa using here)]
      exact old.trans (List.sublist_append_left _ _)
  · rw [Function.update_of_ne side]
    exact old.trans (List.sublist_append_left _ _)

theorem Fifo.accept (h : Fifo reqs queue) (ranked : AllRanked queue) {order o : Order}
    (booked : entry order = some o) :
    Fifo (reqs ++ [order]) (Function.update queue o.orderType
      (insert (slotRank o.orderType) o (queue o.orderType))) := by
  unfold Fifo
  rw [ids_accepted_append reqs booked]
  exact InArrival.accept h ranked o

theorem Fifo.fewer (h : Fifo reqs queue) {queue' : OrderType → List Order}
    (sub : ∀ t slot, (ids ((queue' t).filter fun o => indexOf o.priceLevel = slot)).Sublist
      (ids ((queue t).filter fun o => indexOf o.priceLevel = slot))) : Fifo reqs queue' :=
  fun t slot => (sub t slot).trans (h t slot)

theorem sub_fillFront (front : Order) (rest : List Order) (fillQty : Int) (slot : Nat) :
    (ids ((fillFront front rest fillQty).filter fun o => indexOf o.priceLevel = slot)).Sublist
      (ids ((front :: rest).filter fun o => indexOf o.priceLevel = slot)) := by
  rw [fillFront]
  split
  · exact ((List.sublist_cons_self _ _).filter _).map _
  · have same : ids ((afterFill front fillQty :: rest).filter fun o =>
        indexOf o.priceLevel = slot) =
        ids ((front :: rest).filter fun o => indexOf o.priceLevel = slot) := by
      by_cases here : indexOf front.priceLevel = slot
      · rw [List.filter_cons_of_pos (by simp [afterFill, here]),
          List.filter_cons_of_pos (by simp [here])]
        rfl
      · rw [List.filter_cons_of_neg (by simp [afterFill, here]),
          List.filter_cons_of_neg (by simp [here])]
    rw [same]

end

theorem reach_fifo {registry : Registry} {reqs : List Order} {phase : Phase} {q : QueueBook}
    {w : World} (reach : Reach registry reqs phase q w) :
    AllRanked q.queue ∧ Fifo reqs q.queue := by
  induction reach with
  | new => exact ⟨fun _ => List.Pairwise.nil, fun _ _ => List.nil_sublist _⟩
  | request order before call allowed ih =>
    obtain ⟨ranked, fifo⟩ := ih
    obtain ⟨_, ⟨nothing, same⟩ | ⟨o, booked, same⟩⟩ := dispatch_queue call
    · rw [same]
      exact ⟨ranked, fun t slot => by rw [accepted_append_none _ nothing]; exact fifo t slot⟩
    · rw [same]
      exact ⟨ranked.replace (ranked_insert (ranked _) o), fifo.accept ranked booked⟩
  | @evicted _ t q _ front rest _ before head killed erased ih =>
    obtain ⟨ranked, fifo⟩ := ih
    have sorted := ranked t
    rw [head] at sorted
    refine ⟨ranked.replace (ranked_tail sorted), fifo.fewer fun u slot => ?_⟩
    by_cases same : u = t
    · subst same
      simp only [Function.update_self, head]
      exact ((List.sublist_cons_self _ _).filter _).map _
    · simp only [Function.update_of_ne same]
      exact List.Sublist.refl _
  | bidsDrained before alive ih => exact ih
  | asksDrained before alive ih => exact ih
  | traded before call allowed ih =>
    obtain ⟨ranked, fifo⟩ := ih
    obtain ⟨bo, ao, bids, asks, kt, w₁, trade⟩ := QueueBook.matchBest_some call
    have bidSorted := ranked .buy
    have askSorted := ranked .sell
    rw [trade.buy] at bidSorted
    rw [trade.sell] at askSorted
    rw [trade.queue]
    refine ⟨fun t => ?_, fifo.fewer fun t slot => ?_⟩
    · cases t with
      | buy => exact ranked_fillFront bidSorted _
      | sell => exact ranked_fillFront askSorted _
    · cases t with
      | buy =>
        rw [trade.buy]
        exact sub_fillFront _ _ _ _
      | sell =>
        rw [trade.sell]
        exact sub_fillFront _ _ _ _
  | settled before call ih => exact ih

def Earlier (reqs : List Order) (a c : Order) : Prop :=
  [a.orderId, c.orderId].Sublist (ids (accepted reqs))

theorem not_sublist_both {l : List Int} (nodup : l.Nodup) {x y : Int} (xy : [x, y].Sublist l)
    (yx : [y, x].Sublist l) : False := by
  induction l with
  | nil => cases xy
  | cons z l ih =>
    obtain ⟨fresh, rest⟩ := List.nodup_cons.mp nodup
    cases xy with
    | cons _ xy =>
      cases yx with
      | cons _ yx => exact ih rest xy yx
      | cons_cons _ _ => exact fresh (xy.subset (by simp))
    | cons_cons _ later =>
      cases yx with
      | cons _ yx => exact fresh (yx.subset (by simp))
      | cons_cons _ _ => exact fresh (later.subset (by simp))

/-- Nothing of the same price stands behind the front and arrived before it. -/
theorem front_first {reqs : List Order} {queue : OrderType → List Order} (fifo : Fifo reqs queue)
    (unique : (ids (accepted reqs)).Nodup) {t : OrderType} {front : Order} {rest : List Order}
    (head : queue t = front :: rest) {a : Order} (resting : a ∈ queue t)
    (price : a.priceLevel = front.priceLevel) : ¬ Earlier reqs a front := by
  intro earlier
  have order := fifo t (indexOf front.priceLevel)
  rw [head, List.filter_cons_of_pos (by simp)] at order
  rw [head] at resting
  rcases List.mem_cons.mp resting with rfl | behind
  · have twice := earlier.nodup unique
    simp at twice
  · refine not_sublist_both unique earlier (List.Sublist.trans ?_ order)
    refine List.Sublist.cons_cons _ (List.singleton_sublist.mpr (List.mem_map_of_mem ?_))
    exact List.mem_filter.mpr ⟨behind, by simp [price]⟩

/-- Time priority: a matching step makes one trade, and no order of its prices that rests
    on the same side arrived before the two it takes. -/
theorem time_priority (registry : Registry) {reqs : List Order} {b b' : OrderBook} {w w' : World}
    (run : Run registry reqs .drained b w) (unique : (ids (accepted reqs)).Nodup)
    (step : b.matchBest registry w = .ok (some (b', w'))) :
    ∃ bid ask fillQty fillPrice notes,
      w'.log = w.log ++ .trade bid ask fillQty fillPrice :: notes ∧ (∀ e ∈ notes, e.isNote) ∧
      (∀ a ∈ b.resting .buy, a.priceLevel = bid.priceLevel → ¬ Earlier reqs a bid) ∧
      ∀ a ∈ b.resting .sell, a.priceLevel = ask.priceLevel → ¬ Earlier reqs a ask := by
  obtain ⟨q, rep, reach⟩ := run_reach run
  obtain ⟨r, call, rel⟩ := matchBest_ok registry rep step
  cases rel with
  | @some _ y both =>
    obtain ⟨q', _⟩ := y
    obtain ⟨_, rfl⟩ := both
    obtain ⟨bo, ao, bids, asks, kt, w₁, trade⟩ := QueueBook.matchBest_some call
    obtain ⟨notes, logs, all⟩ := trade.log_eq
    have fifo := (reach_fifo reach).2
    refine ⟨bo, ao, _, _, notes, logs, all, fun a ha price => ?_, fun a ha price => ?_⟩
    · rw [resting_eq rep] at ha
      exact front_first fifo unique trade.buy ha price
    · rw [resting_eq rep] at ha
      exact front_first fifo unique trade.sell ha price

def behindKilled : List Order :=
  [sendRequest .buy 1 100 5, sendRequest .buy 2 100 5, sendRequest .buy 3 100 5,
    { requestType := .killOrder, delId := 1 }]

theorem time_priority_behindKilled : ∃ b w b' w',
    Run (fun _ _ => true) (behindKilled ++ [sendRequest .sell 4 90 5]) .drained b w ∧
    b.matchBest (fun _ _ => true) w = .ok (some (b', w')) ∧
    ∃ bid ask fillQty fillPrice notes,
      w'.log = w.log ++ .trade bid ask fillQty fillPrice :: notes ∧ (∀ e ∈ notes, e.isNote) ∧
      (∀ a ∈ b.resting .buy, a.priceLevel = bid.priceLevel →
        ¬ Earlier (behindKilled ++ [sendRequest .sell 4 90 5]) a bid) ∧
      ∀ a ∈ b.resting .sell, a.priceLevel = ask.priceLevel →
        ¬ Earlier (behindKilled ++ [sendRequest .sell 4 90 5]) a ask := by
  obtain ⟨⟨b', w'⟩, both⟩ := exists_ok_some (x := do
    let r ← OrderBook.toMatch (fun _ _ => true) behindKilled (sendRequest .sell 4 90 5)
    r.1.matchBest (fun _ _ => true) r.2) (by decide +kernel)
  obtain ⟨⟨b, w⟩, reached, step⟩ := bind_ok both
  have run := run_toMatch reached
  exact ⟨b, w, b', w', run, step, time_priority _ run (by decide) step⟩

end MarketBookExchange
