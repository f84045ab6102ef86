import MarketBookExchange.Conservation

/- The kill table against the book. An order that leaves through an eviction takes its
   entry along; one that leaves through a fill does so only when its session is there. -/
namespace MarketBookExchange
open RankedList Outcome KillFlagTable

/-- The key has an entry, which neither an empty slot nor a tombstone is. -/
def KillFlagTable.Present (t : KillFlagTable) (key : Int) : Prop :=
  Ordinary key ∧ ∃ i < t.slots.size, (t.slots.get i).key = key

theorem present_iff {t : KillFlagTable} {m : Int → Option Bool} (rep : TableRep t m) {key : Int} :
    t.Present key ↔ m key ≠ none := by
  constructor
  · rintro ⟨ordinary, i, small, here⟩ nothing
    rw [rep.flag_of_slot small ordinary here] at nothing
    cases nothing
  · intro present
    obtain ⟨v, flag⟩ := Option.ne_none_iff_exists'.mp present
    obtain ⟨ordinary, i, small, here⟩ := (rep.flags key v).mp flag
    exact ⟨ordinary, i, small, by rw [here]⟩

/-- The keys of the kill table are the ids of the resting orders. -/
def KnowsResting (b : OrderBook) : Prop :=
  ∀ key, b.killedOrders.Present key ↔ ∃ t, ∃ o ∈ b.resting t, o.orderId = key

/-- The sessions of the orders that the next trade uses up, as `lock` finds them: the bid's
    at this lookup, the ask's at the next one. -/
def FillsTold (registry : Registry) (bids asks : List Order) (w : World) : Prop :=
  ∀ bo ∈ bids.head?, ∀ ao ∈ asks.head?,
    (bo.qty ≤ ao.qty → registry w.lookups bo.sessionId = true) ∧
    (ao.qty ≤ bo.qty → registry (w.lookups + 1) ao.sessionId = true)

def Owned (queue : OrderType → List Order) (m : Int → Option Bool) : Prop :=
  ∀ key, m key ≠ none → ∃ t, ∃ o ∈ queue t, o.orderId = key

theorem Owned.request {registry : Registry} {q q' : QueueBook} {m : Int → Option Bool}
    {w w' : World} {order : Order} (h : Owned q.queue m)
    (call : q.dispatch registry w order = .ok (q', w')) :
    Owned q'.queue (requestFlags m order) := by
  obtain ⟨_, ⟨nothing, same⟩ | ⟨o, booked, same⟩⟩ := dispatch_queue call
  · rw [same, requestFlags, entry_none nothing]
    exact fun key known => h key fun e => known (markKilled_none_iff.mpr e)
  · obtain ⟨m₁, marked, eq⟩ := requestFlags_of_entry (m := m) booked
    rw [same, eq]
    intro key known
    by_cases new : key = o.orderId
    · refine ⟨o.orderType, o, ?_, new.symm⟩
      rw [Function.update_self]
      exact mem_insert.mpr (Or.inl rfl)
    · rw [Function.update_of_ne new] at known
      have old : m key ≠ none := by
        rcases marked with ⟨rfl, _⟩ | ⟨rfl, _⟩
        · exact known
        · exact fun e => known (markKilled_none_iff.mpr e)
      obtain ⟨t, x, hx, id⟩ := h key old
      refine ⟨t, x, ?_, id⟩
      by_cases side : t = o.orderType
      · subst side
        rw [Function.update_self]
        exact mem_insert.mpr (Or.inr hx)
      · rwa [Function.update_of_ne side]

theorem Owned.evict {queue : OrderType → List Order} {m : Int → Option Bool} (h : Owned queue m)
    {t : OrderType} {front : Order} {rest : List Order} (head : queue t = front :: rest) :
    Owned (Function.update queue t rest) (Function.update m front.orderId none) := by
  intro key known
  by_cases gone : key = front.orderId
  · rw [gone, Function.update_self] at known
    exact absurd rfl known
  · rw [Function.update_of_ne gone] at known
    obtain ⟨u, x, hx, id⟩ := h key known
    refine ⟨u, x, ?_, id⟩
    by_cases side : u = t
    · subst side
      rw [head] at hx
      rw [Function.update_self]
      rcases List.mem_cons.mp hx with rfl | later
      · exact absurd id.symm gone
      · exact later
    · rwa [Function.update_of_ne side]

theorem Owned.fill {registry : Registry} {queue : OrderType → List Order}
    {m : Int → Option Bool} (h : Owned queue m) {t : OrderType} {front : Order}
    {rest : List Order} (head : queue t = front :: rest) {w : World} {fillQty : Int}
    (told : front.qty - fillQty = 0 → registry w.lookups front.sessionId = true) :
    Owned (Function.update queue t (fillFront front rest fillQty))
      (fillFlags registry m w front fillQty) := by
  rw [fillFlags, fillFront]
  by_cases zero : front.qty - fillQty = 0
  · rw [if_pos zero, if_pos ⟨told zero, zero⟩]
    exact h.evict head
  · rw [if_neg zero, if_neg fun e => zero e.2]
    intro key known
    obtain ⟨u, x, hx, id⟩ := h key known
    by_cases side : u = t
    · subst side
      rw [head] at hx
      rcases List.mem_cons.mp hx with rfl | later
      · exact ⟨u, afterFill x fillQty, by rw [Function.update_self]; simp, id⟩
      · exact ⟨u, x, by rw [Function.update_self]; simp [later], id⟩
    · exact ⟨u, x, by rwa [Function.update_of_ne side], id⟩

theorem notifyFill_lookups {registry : Registry} {kt kt' : KillFlagTable} {w w' : World}
    {order : Order} {fillQty remainingQty fillPrice : Int}
    (run : notifyFill registry kt w order fillQty remainingQty fillPrice = .ok (kt', w')) :
    w'.lookups = w.lookups + 1 := by
  rcases notifyFill_cases run with ⟨_, _, rfl⟩ | ⟨_, _, _, rfl⟩ | ⟨_, _, _, rfl⟩ <;> rfl

theorem Owned.trade {registry : Registry} {q q' : QueueBook} {m : Int → Option Bool}
    {w w' w₁ : World} {bo ao : Order} {bids asks : List Order} {kt : KillFlagTable}
    (h : Owned q.queue m) (step : Trade registry q w q' w' bo ao bids asks kt w₁)
    (told : FillsTold registry (q.queue .buy) (q.queue .sell) w) :
    Owned q'.queue (tradeFlags registry m w w₁ bo ao) := by
  obtain ⟨bidTold, askTold⟩ := told bo (by rw [step.buy]; rfl) ao (by rw [step.sell]; rfl)
  have bid : Owned _ (fillFlags registry m
      (w.record (.trade bo ao (min bo.qty ao.qty) ao.priceLevel)) bo (min bo.qty ao.qty)) :=
    h.fill step.buy fun zero => bidTold (by omega)
  rw [update_buy] at bid
  have ask : Owned _ (tradeFlags registry m w w₁ bo ao) :=
    bid.fill (t := .sell) step.sell fun zero => by
      rw [notifyFill_lookups step.bidTold]
      exact askTold (by omega)
  rw [update_sell] at ask
  rw [step.queue]
  exact ask

theorem flagRun_owned {registry : Registry} {reqs : List Order} {phase : Phase} {q : QueueBook}
    {m : Int → Option Bool} {w : World}
    (run : FlagRun registry (fun _ _ _ => True)
      (fun q w => FillsTold registry (q.queue .buy) (q.queue .sell) w) reqs phase q m w) :
    Owned q.queue m := by
  induction run with
  | new => exact fun key known => absurd rfl known
  | request order before reach flags call allowed ih => exact ih.request call
  | evicted before reach flags head killed alone ih => exact ih.evict head
  | bidsDrained before alive ih => exact ih
  | asksDrained before alive ih => exact ih
  | traded before reach flags step distinct allowed ih => exact ih.trade step allowed
  | settled before call ih => exact ih

/-- Between requests the table tracks the book, in every run where each order that a trade
    uses up has its session there to be told. -/
theorem knows_resting (registry : Registry) {reqs : List Order} {b : OrderBook} {w : World}
    (run : RunWhere registry (fun _ _ _ => True)
      (fun b w => FillsTold registry (b.resting .buy) (b.resting .sell) w) reqs .idle b w)
    (unique : (ids (accepted reqs)).Nodup) (positive : ∀ key ∈ ids (accepted reqs), 1 ≤ key) :
    KnowsResting b := by
  obtain ⟨q, rep, reach⟩ := runWhere_reach (R := fun _ _ _ => True)
    (T := fun q w => FillsTold registry (q.queue .buy) (q.queue .sell) w)
    (fun _ _ _ _ _ h => h) (fun b q w rep h => by rwa [resting_eq rep, resting_eq rep] at h) run
  obtain ⟨m, flagRun, flags⟩ := flagRun_of_reach reach unique
    fun key h => ordinary_of_nonneg (by have := positive key h; omega)
  intro key
  rw [rep.killed, present_iff flags.rep]
  constructor
  · intro known
    obtain ⟨t, o, ho, id⟩ := flagRun_owned flagRun key known
    exact ⟨t, o, by rwa [resting_eq rep], id⟩
  · rintro ⟨t, o, ho, rfl⟩
    rw [resting_eq rep] at ho
    exact flags.flagged t o ho

/-- Nobody leaves, so every fill is told. -/
theorem knows_resting_threeFates : ∃ b w,
    OrderBook.run (fun _ _ => true) {} {} threeFates = .ok (b, w) ∧ KnowsResting b := by
  obtain ⟨⟨b, w⟩, ran⟩ := exists_ok (x := OrderBook.run (fun _ _ => true) {} {} threeFates)
    (by decide +kernel)
  have run := (run_of_requests threeFates .new ran).imp
    (T := fun b w => FillsTold (fun _ _ => true) (b.resting .buy) (b.resting .sell) w)
    (fun _ _ _ h => h) (fun _ _ _ _ _ _ _ => ⟨fun _ => rfl, fun _ => rfl⟩)
  exact ⟨b, w, ran, knows_resting _ run (by decide) (by decide)⟩

def fullFill : List Order := [sendRequest .buy 1 100 5, sendRequest .sell 2 90 5]

/-- With both sessions gone the book ends up empty and the table still knows the bid. -/
theorem knows_resting_fails : (ids (accepted fullFill)).Nodup ∧
    (∀ key ∈ ids (accepted fullFill), 1 ≤ key) ∧
    ∃ b w, OrderBook.run (fun _ _ => false) {} {} fullFill = .ok (b, w) ∧ ¬ KnowsResting b := by
  refine ⟨by decide, by decide, ?_⟩
  have seen : (do
      let after ← OrderBook.run (fun _ _ => false) {} {} fullFill
      let bid ← after.1.bids.best true
      let ask ← after.1.asks.best false
      let found ← after.1.killedOrders.find 1
      pure (bid, ask, found.isSome)) =
    (Except.ok (none, none, true) : Except Fault (Option Nat × Option Nat × Bool)) :=
    ok_of_toOption (by decide +kernel)
  obtain ⟨⟨b, w⟩, ran, rest⟩ := bind_ok seen
  obtain ⟨bid, noBid, rest⟩ := bind_ok rest
  obtain ⟨ask, noAsk, rest⟩ := bind_ok rest
  obtain ⟨found, looked, rest⟩ := bind_ok rest
  simp only [pure_eq_ok, Except.ok.injEq, Prod.mk.injEq] at rest
  obtain ⟨rfl, rfl, here⟩ := rest
  refine ⟨b, w, ran, fun knows => ?_⟩
  obtain ⟨q, rep, reach⟩ := run_reach (run_of_requests fullFill .new ran)
  obtain ⟨m, _, flags⟩ := flagRun_of_reach reach (by decide) (by decide)
  have empty : ∀ t, q.queue t = [] := by
    intro t
    have best := rep.rep.best_ok t
    have nothing : (b.side t).best (bestIsHigh t) = .ok none := by
      cases t
      · exact noAsk
      · exact noBid
    rw [nothing] at best
    cases side : q.queue t with
    | nil => rfl
    | cons o rest => simp [side] at best
  have inv : TableInv b.killedOrders := by
    rw [rep.killed]
    exact flags.rep.inv
  obtain ⟨r, same, place, _⟩ := find_ok inv 1
  rw [looked] at same
  cases same
  obtain ⟨i, slot⟩ := Option.isSome_iff_exists.mp here
  have present : b.killedOrders.Present 1 := ⟨by decide, i, place i slot⟩
  obtain ⟨t, o, ho, _⟩ := (knows 1).mp present
  rw [resting_eq rep, empty] at ho
  cases ho

end MarketBookExchange
