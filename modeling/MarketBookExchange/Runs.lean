import MarketBookExchange.Refinement

/- Runs of one book, stopped at every point of the matching loop. The same run seen on
   the queues goes one eviction at a time. -/
namespace MarketBookExchange
open LinkedCells RankedList Outcome

/-- Where a book stands: between requests, taking killed orders off a side (bids first),
    or about to match. -/
inductive Phase where
  | idle
  | draining (t : OrderType)
  | drained
  deriving DecidableEq

/-- The states of a book under a stream of requests, each followed by `UPDATE_BOOK`, in runs
    whose requests and trades all meet a condition on the state before them. -/
inductive RunWhere (registry : Registry) (request : OrderBook → World → Order → Prop)
    (trade : OrderBook → World → Prop) : List Order → Phase → OrderBook → World → Prop where
  | new : RunWhere registry request trade [] .idle {} {}
  | request {reqs : List Order} {b b' : OrderBook} {w w' : World} (order : Order)
      (before : RunWhere registry request trade reqs .idle b w)
      (call : b.dispatch registry w order = .ok (b', w')) (allowed : request b w order) :
      RunWhere registry request trade (reqs ++ [order]) (.draining .buy) b' w'
  | drained {reqs : List Order} {b b' : OrderBook} {w w' : World}
      (before : RunWhere registry request trade reqs (.draining .buy) b w)
      (call : b.drainBoth registry w = .ok (b', w')) :
      RunWhere registry request trade reqs .drained b' w'
  | traded {reqs : List Order} {b b' : OrderBook} {w w' : World}
      (before : RunWhere registry request trade reqs .drained b w)
      (call : b.matchBest registry w = .ok (some (b', w'))) (allowed : trade b w) :
      RunWhere registry request trade reqs (.draining .buy) b' w'
  | settled {reqs : List Order} {b : OrderBook} {w : World}
      (before : RunWhere registry request trade reqs .drained b w)
      (call : b.matchBest registry w = .ok none) : RunWhere registry request trade reqs .idle b w

abbrev Run (registry : Registry) : List Order → Phase → OrderBook → World → Prop :=
  RunWhere registry (fun _ _ _ => True) fun _ _ => True

theorem RunWhere.imp {registry : Registry} {request R : OrderBook → World → Order → Prop}
    {trade T : OrderBook → World → Prop} {reqs : List Order} {phase : Phase} {b : OrderBook}
    {w : World} (run : RunWhere registry request trade reqs phase b w)
    (requests : ∀ b w order, request b w order → R b w order)
    (trades : ∀ b w, trade b w → T b w) :
    RunWhere registry R T reqs phase b w := by
  induction run with
  | new => exact .new
  | request order before call allowed ih => exact .request order ih call (requests _ _ _ allowed)
  | drained before call ih => exact .drained ih call
  | traded before call allowed ih => exact .traded ih call (trades _ _ allowed)
  | settled before call ih => exact .settled ih call

theorem run_updateLoop {registry : Registry} {reqs : List Order} (fuel : Nat) :
    ∀ {b b' : OrderBook} {w w' : World}, Run registry reqs (.draining .buy) b w →
      b.updateLoop registry fuel w = .ok (b', w') → Run registry reqs .idle b' w' := by
  induction fuel with
  | zero =>
    intro b b' w w' _ run
    cases run
  | succ fuel ih =>
    intro b b' w w' before run
    obtain ⟨⟨b₁, w₁⟩, drain, run⟩ := bind_ok run
    obtain ⟨r, call, run⟩ := bind_ok run
    cases r with
    | none =>
      cases run
      exact .settled (.drained before drain) call
    | some r => exact ih (.traded (.drained before drain) call trivial) run

theorem run_process {registry : Registry} {reqs : List Order} {b b' : OrderBook} {w w' : World}
    {order : Order} (before : Run registry reqs .idle b w)
    (run : b.process registry w order = .ok (b', w')) :
    Run registry (reqs ++ [order]) .idle b' w' := by
  obtain ⟨⟨b₁, w₁⟩, call, run⟩ := bind_ok run
  exact run_updateLoop _ (.request order before call trivial) run

/-- Between requests a run is in the states `OrderBook.run` returns. -/
theorem run_of_requests {registry : Registry} (orders : List Order) :
    ∀ {reqs : List Order} {b b' : OrderBook} {w w' : World}, Run registry reqs .idle b w →
      b.run registry w orders = .ok (b', w') → Run registry (reqs ++ orders) .idle b' w' := by
  induction orders with
  | nil =>
    intro reqs b b' w w' before run
    cases run
    rwa [List.append_nil]
  | cons order orders ih =>
    intro reqs b b' w w' before run
    rw [OrderBook.run, List.foldlM_cons] at run
    obtain ⟨⟨b₁, w₁⟩, first, rest⟩ := bind_ok run
    have next := ih (run_process before first) rest
    rwa [List.append_assoc] at next

def OrderBook.toMatch (registry : Registry) (reqs : List Order) (order : Order) :
    Except Fault (OrderBook × World) := do
  let (b, w) ← OrderBook.run registry {} {} reqs
  let (b, w) ← b.dispatch registry w order
  b.drainBoth registry w

theorem run_toMatch {registry : Registry} {reqs : List Order} {order : Order} {b : OrderBook}
    {w : World} (run : OrderBook.toMatch registry reqs order = .ok (b, w)) :
    Run registry (reqs ++ [order]) .drained b w := by
  obtain ⟨⟨b₁, w₁⟩, first, run⟩ := bind_ok run
  obtain ⟨⟨b₂, w₂⟩, call, drain⟩ := bind_ok run
  have before := run_of_requests reqs .new first
  rw [List.nil_append] at before
  exact .drained (.request order before call trivial) drain

def sendRequest (side : OrderType) (orderId priceLevel qty : Int) : Order :=
  { priceLevel, qty, orderType := side, orderId, sessionId := 1 }

/-- The same runs on the queues, one eviction at a time. -/
inductive ReachWhere (registry : Registry) (request : QueueBook → World → Order → Prop)
    (trade : QueueBook → World → Prop) : List Order → Phase → QueueBook → World → Prop where
  | new : ReachWhere registry request trade [] .idle {} {}
  | request {reqs : List Order} {q q' : QueueBook} {w w' : World} (order : Order)
      (before : ReachWhere registry request trade reqs .idle q w)
      (call : q.dispatch registry w order = .ok (q', w')) (allowed : request q w order) :
      ReachWhere registry request trade (reqs ++ [order]) (.draining .buy) q' w'
  | evicted {reqs : List Order} {t : OrderType} {q : QueueBook} {w : World} {front : Order}
      {rest : List Order} {kt : KillFlagTable}
      (before : ReachWhere registry request trade reqs (.draining t) q w)
      (head : q.queue t = front :: rest)
      (killed : q.killedOrders.isKilled front.orderId = .ok true)
      (erased : q.killedOrders.erase front.orderId = .ok kt) :
      ReachWhere registry request trade reqs (.draining t) ⟨Function.update q.queue t rest, kt⟩
        ((w.writeIfLocked registry front.sessionId (.killConfirm front)).record (.evicted front))
  | bidsDrained {reqs : List Order} {q : QueueBook} {w : World}
      (before : ReachWhere registry request trade reqs (.draining .buy) q w)
      (alive : ∀ front ∈ (q.queue .buy).head?, q.killedOrders.isKilled front.orderId = .ok false) :
      ReachWhere registry request trade reqs (.draining .sell) q w
  | asksDrained {reqs : List Order} {q : QueueBook} {w : World}
      (before : ReachWhere registry request trade reqs (.draining .sell) q w)
      (alive : ∀ front ∈ (q.queue .sell).head?, q.killedOrders.isKilled front.orderId = .ok false) :
      ReachWhere registry request trade reqs .drained q w
  | traded {reqs : List Order} {q q' : QueueBook} {w w' : World}
      (before : ReachWhere registry request trade reqs .drained q w)
      (call : q.matchBest registry w = .ok (some (q', w'))) (allowed : trade q w) :
      ReachWhere registry request trade reqs (.draining .buy) q' w'
  | settled {reqs : List Order} {q : QueueBook} {w : World}
      (before : ReachWhere registry request trade reqs .drained q w)
      (call : q.matchBest registry w = .ok none) : ReachWhere registry request trade reqs .idle q w

abbrev Reach (registry : Registry) : List Order → Phase → QueueBook → World → Prop :=
  ReachWhere registry (fun _ _ _ => True) fun _ _ => True

section
variable {registry : Registry} {request : QueueBook → World → Order → Prop}
  {trade : QueueBook → World → Prop} {reqs : List Order}

theorem ReachWhere.reach {phase : Phase} {q : QueueBook} {w : World}
    (h : ReachWhere registry request trade reqs phase q w) : Reach registry reqs phase q w := by
  induction h with
  | new => exact .new
  | request order before call allowed ih => exact .request order ih call trivial
  | evicted before head killed erased ih => exact .evicted ih head killed erased
  | bidsDrained before alive ih => exact .bidsDrained ih alive
  | asksDrained before alive ih => exact .asksDrained ih alive
  | traded before call allowed ih => exact .traded ih call trivial
  | settled before call ih => exact .settled ih call

theorem reach_drainQueue {t : OrderType} {l l' : List Order} {kt' : KillFlagTable} {w' : World} :
    ∀ {q : QueueBook} {w : World}, ReachWhere registry request trade reqs (.draining t) q w →
      q.queue t = l → drainQueue registry l q.killedOrders w = .ok (l', kt', w') →
      ReachWhere registry request trade reqs (.draining t)
        ⟨Function.update q.queue t l', kt'⟩ w' ∧
      ∀ front ∈ l'.head?, kt'.isKilled front.orderId = .ok false := by
  induction l with
  | nil =>
    intro q w before eq run
    cases run
    rw [← eq, Function.update_eq_self, eq]
    exact ⟨before, by simp⟩
  | cons front rest ih =>
    intro q w before eq run
    obtain ⟨killed, looked, run⟩ := bind_ok run
    cases killed with
    | false =>
      cases run
      rw [← eq, Function.update_eq_self, eq]
      exact ⟨before, by simpa using looked⟩
    | true =>
      obtain ⟨erased, ran, run⟩ := bind_ok run
      obtain ⟨after, alive⟩ := ih (.evicted before eq looked ran) (Function.update_self _ _ _) run
      rw [Function.update_idem] at after
      exact ⟨after, alive⟩

theorem reach_drainBoth {q q' : QueueBook} {w w' : World}
    (before : ReachWhere registry request trade reqs (.draining .buy) q w)
    (run : q.drainBoth registry w = .ok (q', w')) :
    ReachWhere registry request trade reqs .drained q' w' := by
  obtain ⟨⟨bids, kt₁, w₁⟩, first, run⟩ := bind_ok run
  obtain ⟨⟨asks, kt₂, w₂⟩, second, run⟩ := bind_ok run
  cases run
  obtain ⟨after, alive⟩ := reach_drainQueue before rfl first
  rw [update_buy] at after
  obtain ⟨after', alive'⟩ := reach_drainQueue (.bidsDrained after alive)
    (bySide_sell bids (q.queue .sell)) second
  rw [update_sell] at after'
  exact .asksDrained after' alive'

end

/-- Every state of a run stands for the queues of the same run. -/
theorem runWhere_reach {registry : Registry} {request : OrderBook → World → Order → Prop}
    {trade : OrderBook → World → Prop} {R : QueueBook → World → Order → Prop}
    {T : QueueBook → World → Prop}
    (requests : ∀ b q w order, Represents b q → request b w order → R q w order)
    (trades : ∀ b q w, Represents b q → trade b w → T q w) {reqs : List Order}
    {phase : Phase} {b : OrderBook} {w : World}
    (run : RunWhere registry request trade reqs phase b w) :
    ∃ q, Represents b q ∧ ReachWhere registry R T reqs phase q w := by
  induction run with
  | new => exact ⟨{}, represents_new, .new⟩
  | request order before call allowed ih =>
    obtain ⟨q, rep, reach⟩ := ih
    obtain ⟨⟨q', _⟩, call', rep', rfl⟩ := simulates_ok (dispatch_simulates registry rep _ order) call
    exact ⟨q', rep', .request order reach call' (requests _ q _ order rep allowed)⟩
  | drained before call ih =>
    obtain ⟨q, rep, reach⟩ := ih
    obtain ⟨⟨q', _⟩, call', rep', rfl⟩ := drainBoth_ok registry rep call
    exact ⟨q', rep', reach_drainBoth reach call'⟩
  | traded before call allowed ih =>
    obtain ⟨q, rep, reach⟩ := ih
    obtain ⟨r, call', rel⟩ := matchBest_ok registry rep call
    cases rel with
    | @some x y both =>
      obtain ⟨q', _⟩ := y
      obtain ⟨rep', rfl⟩ := both
      exact ⟨q', rep', .traded reach call' (trades _ q _ rep allowed)⟩
  | settled before call ih =>
    obtain ⟨q, rep, reach⟩ := ih
    obtain ⟨r, call', rel⟩ := matchBest_ok registry rep call
    cases rel with
    | none => exact ⟨q, rep, .settled reach call'⟩

theorem run_reach {registry : Registry} {reqs : List Order} {phase : Phase} {b : OrderBook}
    {w : World} (run : Run registry reqs phase b w) :
    ∃ q, Represents b q ∧ Reach registry reqs phase q w :=
  runWhere_reach (fun _ _ _ _ _ h => h) (fun _ _ _ _ h => h) run

def OrderPool.ordersFrom (pool : OrderPool) : Nat → Nat → List Order
  | 0, _ => []
  | fuel + 1, cur => if cur = nil then [] else pool.order cur :: pool.ordersFrom fuel (pool.next cur)

namespace OrderBook

def levelOrders (b : OrderBook) (t : OrderType) (slot : Nat) : List Order :=
  b.pool.ordersFrom ((b.side t).levels slot).count ((b.side t).levels slot).head

/-- The orders in the levels of one side, best slot first and in chain order. -/
def resting (b : OrderBook) (t : OrderType) : List Order :=
  (allSlots t).flatMap (b.levelOrders t)

end OrderBook

theorem ordersFrom_eq {pool : OrderPool} {l : List Nat} :
    ∀ {before head : Nat}, Linked nil pool.next pool.prev before head l →
      pool.ordersFrom l.length head = l.map pool.order := by
  induction l with
  | nil => exact fun _ => rfl
  | cons i l ih =>
    intro before head link
    obtain ⟨first, real, _, tail⟩ := link
    subst first
    rw [List.length_cons, OrderPool.ordersFrom, if_neg real, ih tail]
    rfl

theorem levelOrders_eq {b : OrderBook} {q : QueueBook} (rep : Represents b q) (t : OrderType)
    (slot : Nat) :
    b.levelOrders t slot = (q.queue t).filter fun o => indexOf o.priceLevel = slot := by
  obtain ⟨place, cells, _, holds⟩ := rep.rep
  rw [OrderBook.levelOrders, ((holds t).level slot).count, ordersFrom_eq ((holds t).level slot).linked]
  exact (holds t).orders slot

theorem resting_eq {b : OrderBook} {q : QueueBook} (rep : Represents b q) (t : OrderType) :
    b.resting t = q.queue t := by
  have ranked : Ranked (slotRank t) (q.queue t) := by
    obtain ⟨place, cells, _, holds⟩ := rep.rep
    exact (holds t).ranked
  have cut := queue_eq_slots ranked (sorted_allSlots t)
    (fun o _ => mem_allSlots.mpr (indexOf_lt _))
  rw [OrderBook.resting, cut]
  have levels : b.levelOrders t = fun slot =>
      (q.queue t).filter fun o => indexOf o.priceLevel = slot := by
    funext slot
    exact levelOrders_eq rep t slot
  rw [levels, ← cut]

end MarketBookExchange
