import MarketBookExchange.BookInvariant

/- Every operation of the order book acts on its queues as the queue book does. Only the
   pool can end one early. -/
namespace MarketBookExchange
open LinkedCells RankedList Outcome Traversal

namespace OrderBook

def side (b : OrderBook) : OrderType → BookSide := bySide b.bids b.asks

def setSide (b : OrderBook) (t : OrderType) (side : BookSide) : OrderBook :=
  match t with
  | .buy => { b with bids := side }
  | .sell => { b with asks := side }

@[simp] theorem side_setSide (b : OrderBook) (t : OrderType) (side : BookSide) :
    (b.setSide t side).side t = side := by
  cases t <;> rfl

@[simp] theorem setSide_setSide (b : OrderBook) (t : OrderType) (side side' : BookSide) :
    (b.setSide t side).setSide t side' = b.setSide t side' := by
  cases t <;> rfl

@[simp] theorem setSide_pool (b : OrderBook) (t : OrderType) (side : BookSide) :
    (b.setSide t side).pool = b.pool := by
  cases t <;> rfl

theorem setSide_sides (b : OrderBook) (t : OrderType) (side : BookSide) :
    (b.setSide t side).side = Function.update b.side t side := by
  cases t with
  | buy => exact (update_buy b.side side).symm
  | sell => exact (update_sell b.side side).symm

theorem sendOrder_eq (b : OrderBook) (order : Order) : b.sendOrder order = (do
    let killedOrders ← b.killedOrders.set order.orderId false
    let (side, pool) ← (b.side order.orderType).insert b.pool order
    pure { b.setSide order.orderType side with pool, killedOrders }) := by
  unfold OrderBook.sendOrder
  cases side : order.orderType with
  | buy => rfl
  | sell => rfl

end OrderBook

/-- The array book stands for the queue book. -/
structure Represents (b : OrderBook) (q : QueueBook) : Prop where
  rep : BookRep b.pool b.side q.queue
  killed : b.killedOrders = q.killedOrders

/-- The one fault the queue book does not have. -/
abbrev OutOfNodes (e : Fault) : Prop := e = .poolExhausted

section Matching
variable {excuse : Fault → Prop}

theorem drainDead_simulates (registry : Registry) (t : OrderType) (fuel : Nat) :
    ∀ (pool : OrderPool) (sides : OrderType → BookSide) (queues : OrderType → List Order)
      (kt : KillFlagTable) (w : World), BookRep pool sides queues → (queues t).length < fuel →
      Simulates excuse (fun (x : BookSide × Shared) (y : List Order × KillFlagTable × World) =>
        BookRep x.2.pool (Function.update sides t x.1) (Function.update queues t y.1) ∧
        x.2.killedOrders = y.2.1 ∧ x.2.world = y.2.2 ∧
        x.2.pool.nodes.size = pool.nodes.size)
      (drainDead registry (bestIsHigh t) fuel (sides t) ⟨pool, kt, w⟩)
      (drainQueue registry (queues t) kt w) := by
  induction fuel with
  | zero =>
    intro _ _ _ _ _ _ short
    exact absurd short (by omega)
  | succ fuel ih =>
    intro pool sides queues kt w rep short
    rw [drainDead, rep.best_ok t]
    cases eq : queues t with
    | nil =>
      refine simulates_pure ⟨?_, rfl, rfl, rfl⟩
      rwa [Function.update_eq_self, ← eq, Function.update_eq_self]
    | cons o rest =>
      simp only [ok_bind, List.head?_cons, Option.map_some, rep.front_ok eq]
      rw [drainQueue]
      refine simulates_bind_same (fun killed _ => ?_)
      cases killed with
      | false =>
        refine simulates_pure ⟨?_, rfl, rfl, rfl⟩
        rwa [Function.update_eq_self, ← eq, Function.update_eq_self]
      | true =>
        refine simulates_bind_same (fun erased _ => ?_)
        obtain ⟨side', pool', pop, rep', size⟩ := rep.popFront_ok eq
        rw [pop, ok_bind]
        have shorter : (Function.update queues t rest t).length < fuel := by
          rw [Function.update_self]
          rw [eq, List.length_cons] at short
          omega
        have next := fun w => ih pool' _ _ erased w rep' shorter
        simp only [Function.update_self] at next
        refine simulates_mono (next _) (fun x y ⟨rep'', killed', world', size'⟩ => ?_)
        rw [Function.update_idem, Function.update_idem] at rep''
        exact ⟨rep'', killed', world', size'.trans size⟩

theorem drainBoth_simulates (registry : Registry) {b : OrderBook} {q : QueueBook}
    (rep : Represents b q) (w : World) :
    Simulates excuse (fun x y => Represents x.1 y.1 ∧ x.2 = y.2)
      (b.drainBoth registry w) (q.drainBoth registry w) := by
  have room := rep.rep.resting_le
  have first : Simulates excuse _ _ _ :=
    drainDead_simulates registry .buy (b.pool.nodes.size + 1) b.pool b.side q.queue
      b.killedOrders w rep.rep (by omega)
  rw [OrderBook.drainBoth, QueueBook.drainBoth, ← rep.killed]
  refine simulates_bind first ?_
  rintro ⟨bids, s⟩ ⟨bidQueue, kt, w1⟩ ⟨rep1, killed1, world1, size1⟩
  simp only at killed1 world1 size1 rep1
  subst killed1 world1
  rw [update_buy, update_buy] at rep1
  have second : Simulates excuse _ _ _ :=
    drainDead_simulates registry .sell (b.pool.nodes.size + 1) s.pool _ _
      s.killedOrders s.world rep1 (by rw [bySide_sell]; omega)
  refine simulates_bind second ?_
  rintro ⟨asks, s2⟩ ⟨askQueue, kt2, w2⟩ ⟨rep2, killed2, world2, size2⟩
  simp only at killed2 world2 size2 rep2
  subst killed2 world2
  rw [update_sell, update_sell] at rep2
  exact simulates_pure ⟨⟨rep2, rfl⟩, rfl⟩

theorem popSpent_ok {pool : OrderPool} {sides : OrderType → BookSide}
    {queues : OrderType → List Order} (rep : BookRep pool sides queues) {t : OrderType}
    {o : Order} {rest : List Order} (eq : queues t = o :: rest) {idx : Nat}
    (slot : indexOf o.priceLevel = idx) (spent : Prop) [Decidable spent] :
    ∃ side' pool', (∀ {β : Type} (f : BookSide × OrderPool → Except Fault β),
        (if spent then (sides t).popFront pool idx >>= f
          else pure (sides t, pool) >>= f) = f (side', pool')) ∧
      BookRep pool' (Function.update sides t side')
        (Function.update queues t (if spent then rest else o :: rest)) := by
  subst slot
  by_cases gone : spent
  · obtain ⟨side', pool', run, rep', _⟩ := rep.popFront_ok eq
    refine ⟨side', pool', fun f => by rw [if_pos gone, run]; rfl, ?_⟩
    rwa [if_pos gone]
  · refine ⟨sides t, pool, fun f => by rw [if_neg gone]; rfl, ?_⟩
    rw [if_neg gone, ← eq, Function.update_eq_self, Function.update_eq_self]
    exact rep

theorem matchBest_simulates (registry : Registry) {b : OrderBook} {q : QueueBook}
    (rep : Represents b q) (w : World) :
    Simulates excuse
      (Option.Rel fun x y => Represents x.1 y.1 ∧ x.2 = y.2)
      (b.matchBest registry w) (q.matchBest registry w) := by
  have bid := rep.rep.best_ok .buy
  have ask := rep.rep.best_ok .sell
  rw [OrderBook.matchBest, QueueBook.matchBest,
    show b.bids.best true = _ from bid, show b.asks.best false = _ from ask]
  cases buy : q.queue .buy with
  | nil => exact simulates_pure .none
  | cons bo bids =>
    cases sell : q.queue .sell with
    | nil => exact simulates_pure .none
    | cons ao asks =>
      have frontB : levelFront (b.bids.levels (indexOf bo.priceLevel)) b.pool = .ok bo :=
        rep.rep.front_ok buy
      have frontA : levelFront (b.asks.levels (indexOf ao.priceLevel)) b.pool = .ok ao :=
        rep.rep.front_ok sell
      simp only [List.head?_cons, Option.map_some, ok_bind, frontB, frontA]
      by_cases apart : bo.priceLevel < ao.priceLevel
      · rw [if_pos apart, if_pos apart]
        exact simulates_pure .none
      rw [if_neg apart, if_neg apart]
      obtain ⟨pool1, set1, rep1, _⟩ := rep.rep.setFront_ok buy
        { bo with qty := bo.qty - min bo.qty ao.qty } rfl
      rw [update_buy] at rep1
      obtain ⟨pool2, set2, rep2, _⟩ := rep1.setFront_ok (t := .sell) (o := ao) sell
        { ao with qty := ao.qty - min bo.qty ao.qty } rfl
      rw [update_sell] at rep2
      have set1' : setLevelFront (b.bids.levels (indexOf bo.priceLevel)) b.pool _ = _ := set1
      have set2' : setLevelFront (b.asks.levels (indexOf ao.priceLevel)) pool1 _ = _ := set2
      rw [set1', ok_bind, set2', ok_bind, rep.killed]
      refine simulates_bind_same ?_
      rintro ⟨kt1, w1⟩ _
      refine simulates_bind_same ?_
      rintro ⟨kt2, w2⟩ _
      obtain ⟨side3, pool3, pop3, rep3⟩ := popSpent_ok rep2 (t := .buy) (bySide_buy _ _) rfl
        (bo.qty - min bo.qty ao.qty = 0)
      rw [update_buy, update_buy] at rep3
      obtain ⟨side4, pool4, pop4, rep4⟩ := popSpent_ok rep3 (t := .sell) (bySide_sell _ _) rfl
        (ao.qty - min bo.qty ao.qty = 0)
      rw [update_sell, update_sell] at rep4
      refine (show _ = _ from pop3 _).symm ▸ ?_
      refine (show _ = _ from pop4 _).symm ▸ ?_
      exact simulates_pure (Option.Rel.some ⟨⟨rep4, rfl⟩, rfl⟩)

/-- The matching loop; any fuel beyond the number of resting orders will do. -/
theorem updateLoop_simulates (registry : Registry) (fuel : Nat) :
    ∀ (fuel' : Nat) (b : OrderBook) (q : QueueBook) (w : World), Represents b q →
      q.resting < fuel → q.resting < fuel' →
      Simulates excuse (fun x y => Represents x.1 y.1 ∧ x.2 = y.2)
        (b.updateLoop registry fuel w) (q.updateLoop registry fuel' w) := by
  induction fuel with
  | zero =>
    intro _ _ _ _ _ room
    exact absurd room (Nat.not_lt_zero _)
  | succ fuel ih =>
    intro fuel' b q w rep room room'
    obtain ⟨fuel', rfl⟩ : ∃ k, fuel' = k + 1 := ⟨fuel' - 1, by omega⟩
    rw [OrderBook.updateLoop, QueueBook.updateLoop]
    refine simulates_bind_run (drainBoth_simulates registry rep w) ?_
    rintro ⟨b1, w1⟩ ⟨q1, w1'⟩ _ drained ⟨rep1, worlds1⟩
    simp only at rep1 worlds1
    subst worlds1
    have left := QueueBook.drainBoth_resting drained
    refine simulates_bind_run (matchBest_simulates registry rep1 w1) ?_
    intro x y ran matched rel
    clear ran
    cases rel with
    | none => exact simulates_pure ⟨rep1, rfl⟩
    | @some x y both =>
      obtain ⟨b2, w2⟩ := x
      obtain ⟨q2, w2'⟩ := y
      obtain ⟨rep2, worlds2⟩ := both
      simp only at rep2 worlds2
      subst worlds2
      have fewer := QueueBook.matchBest_resting matched
      exact ih fuel' b2 q2 w2 rep2 (by omega) (by omega)

theorem updateBook_simulates (registry : Registry) {b : OrderBook} {q : QueueBook}
    (rep : Represents b q) (w : World) :
    Simulates excuse (fun x y => Represents x.1 y.1 ∧ x.2 = y.2)
      (b.updateBook registry w) (q.updateBook registry w) := by
  have room := rep.rep.resting_le
  refine updateLoop_simulates registry _ _ b q w rep ?_ (Nat.lt_succ_self _)
  simp only [QueueBook.resting]
  omega

theorem drainBoth_ok (registry : Registry) {b : OrderBook} {q : QueueBook} (rep : Represents b q)
    {w : World} {r : OrderBook × World} (run : b.drainBoth registry w = .ok r) :
    ∃ r', q.drainBoth registry w = .ok r' ∧ Represents r.1 r'.1 ∧ r.2 = r'.2 :=
  have sim : Simulates (fun _ => False) _ _ _ := drainBoth_simulates registry rep w
  simulates_ok sim run

theorem matchBest_ok (registry : Registry) {b : OrderBook} {q : QueueBook} (rep : Represents b q)
    {w : World} {r : Option (OrderBook × World)} (run : b.matchBest registry w = .ok r) :
    ∃ r', q.matchBest registry w = .ok r' ∧
      Option.Rel (fun x y => Represents x.1 y.1 ∧ x.2 = y.2) r r' :=
  have sim : Simulates (fun _ => False) _ _ _ := matchBest_simulates registry rep w
  simulates_ok sim run

/-- `UPDATE_BOOK` needs no node: the memory follows the queues to the end. -/
theorem updateBook_ok (registry : Registry) {b : OrderBook} {q q' : QueueBook}
    (rep : Represents b q) {w w' : World} (run : q.updateBook registry w = .ok (q', w')) :
    ∃ b', b.updateBook registry w = .ok (b', w') ∧ Represents b' q' := by
  have sim : Simulates (fun _ => False) _ _ _ := updateBook_simulates registry rep w
  rw [run] at sim
  cases ran : b.updateBook registry w with
  | error e =>
    rw [ran] at sim
    exact sim.elim
  | ok r =>
    rw [ran] at sim
    obtain ⟨b', _⟩ := r
    obtain ⟨rep', rfl⟩ := sim
    exact ⟨b', rfl, rep'⟩

end Matching

theorem sendOrder_simulates {b : OrderBook} {q : QueueBook} (rep : Represents b q)
    (order : Order) :
    Simulates OutOfNodes Represents (b.sendOrder order) (q.sendOrder order) := by
  rw [OrderBook.sendOrder_eq, QueueBook.sendOrder, rep.killed]
  refine simulates_bind_same (fun kt _ => ?_)
  rcases rep.rep.insert_cases order.orderType order with full | ⟨side', pool', run, rep'⟩
  · rw [full]
    exact simulates_excused (show OutOfNodes .poolExhausted from rfl) _
  · rw [run]
    rw [← OrderBook.setSide_sides] at rep'
    exact simulates_pure ⟨rep', rfl⟩

theorem killOrder_simulates (registry : Registry) {b : OrderBook} {q : QueueBook}
    (rep : Represents b q) (w : World) (order : Order) :
    Simulates OutOfNodes (fun x y => Represents x.1 y.1 ∧ x.2 = y.2)
      (b.killOrder registry w order) (q.killOrder registry w order) := by
  rw [OrderBook.killOrder, QueueBook.killOrder, rep.killed]
  refine simulates_bind_same (fun found _ => ?_)
  cases found with
  | none => exact simulates_pure ⟨rep, rfl⟩
  | some kf =>
    refine simulates_bind_same (fun kt _ => ?_)
    exact simulates_pure ⟨⟨rep.rep, rfl⟩, rfl⟩

theorem modifyOrder_simulates (registry : Registry) {b : OrderBook} {q : QueueBook}
    (rep : Represents b q) (w : World) (order : Order) :
    Simulates OutOfNodes (fun x y => Represents x.1 y.1 ∧ x.2 = y.2)
      (b.modifyOrder registry w order) (q.modifyOrder registry w order) := by
  refine simulates_bind (killOrder_simulates registry rep w order) ?_
  rintro ⟨b1, w1⟩ ⟨q1, _⟩ ⟨rep1, rfl⟩
  refine simulates_bind (sendOrder_simulates rep1 _) ?_
  intro b2 q2 rep2
  exact simulates_pure ⟨rep2, rfl⟩

theorem dispatch_simulates (registry : Registry) {b : OrderBook} {q : QueueBook}
    (rep : Represents b q) (w : World) (order : Order) :
    Simulates OutOfNodes (fun x y => Represents x.1 y.1 ∧ x.2 = y.2)
      (b.dispatch registry w order) (q.dispatch registry w order) := by
  rw [OrderBook.dispatch, QueueBook.dispatch]
  cases order.requestType with
  | sendOrder =>
    refine simulates_bind (sendOrder_simulates rep order) (fun b1 q1 rep1 => ?_)
    exact simulates_pure ⟨rep1, rfl⟩
  | modifyOrder => exact modifyOrder_simulates registry rep w order
  | killOrder => exact killOrder_simulates registry rep w order

theorem process_simulates (registry : Registry) {b : OrderBook} {q : QueueBook}
    (rep : Represents b q) (w : World) (order : Order) :
    Simulates OutOfNodes (fun x y => Represents x.1 y.1 ∧ x.2 = y.2)
      (b.process registry w order) (q.process registry w order) := by
  refine simulates_bind (dispatch_simulates registry rep w order) ?_
  rintro ⟨b1, w1⟩ ⟨q1, _⟩ ⟨rep1, rfl⟩
  exact updateBook_simulates registry rep1 w1

theorem snapshotLevel_eq (b : OrderBook) {l : List Nat} (small : ∀ i ∈ l, i < b.pool.nodes.size)
    (fuel : Nat) : ∀ (before cur : Nat) (s : List Order × Nat),
      Linked nil b.pool.next b.pool.prev before cur l → l.length ≤ fuel →
      b.snapshotLevel fuel cur s = snapshotQueue b.killedOrders (l.map b.pool.order) s := by
  induction l generalizing fuel with
  | nil =>
    intro before cur s link _
    have ended : cur = nil := link
    cases fuel with
    | zero => simp [OrderBook.snapshotLevel, ended, snapshotQueue]
    | succ fuel => simp [OrderBook.snapshotLevel, ended, snapshotQueue]
  | cons i rest ih =>
    intro before cur s link room
    obtain ⟨first, real, _, tail⟩ := link
    obtain ⟨fuel, rfl⟩ : ∃ k, fuel = k + 1 := ⟨fuel - 1, by simp at room; omega⟩
    subst first
    obtain ⟨entries, l⟩ := s
    have next := fun s => ih (fun j hj => small j (by simp [hj])) fuel cur _ s tail
      (by simpa using room)
    rw [OrderBook.snapshotLevel, List.map_cons, snapshotQueue]
    by_cases more : l < snapshotLen
    · rw [if_pos ⟨real, more⟩, if_pos more, OrderPool.read_ok (small cur (by simp))]
      simp only [ok_bind, show (b.pool.nodes.get cur).next = b.pool.next cur from rfl, next]
      rfl
    · rw [if_neg (fun h => more h.2), if_neg more]

theorem snapshotSide_eq {b : OrderBook} {place : Nat → Place} {cells : Place → List Nat}
    (prep : PoolRep b.pool place cells) {t : OrderType} {side : BookSide} {l : List Order}
    (rep : SideRep b.pool cells t side l) {slots : List Nat}
    (sorted : slots.Pairwise fun i j => slotKey t i < slotKey t j)
    (mem : ∀ i, i ∈ slots ↔ side.bitmap.Has i) (s : List Order × Nat) :
    (visitAll (b.snapshotVisit side) slots s).map Prod.snd = snapshotQueue b.killedOrders l s := by
  have one : ∀ idx s, b.snapshotLevel b.pool.nodes.size (side.levels idx).head s =
      snapshotQueue b.killedOrders (l.filter fun o => indexOf o.priceLevel = idx) s := by
    intro idx s
    rw [snapshotLevel_eq b (fun i hi => prep.divided.lt_size hi) _ nil _ s (rep.level idx).linked
      (prep.divided.length_le _), rep.orders]
  have cut := queue_eq_slots rep.ranked sorted
    (fun o ho => (mem _).mpr ((rep.has_iff _).mpr ⟨o, ho, rfl⟩))
  rw [cut]
  clear cut sorted mem
  induction slots generalizing s with
  | nil => rfl
  | cons idx rest ih =>
    rw [visitAll, List.flatMap_cons, snapshotQueue_append, OrderBook.snapshotVisit, one]
    cases snapshotQueue b.killedOrders (l.filter fun o => indexOf o.priceLevel = idx) s with
    | error e => rfl
    | ok s' =>
      by_cases more : s'.2 < snapshotLen
      · simp only [ok_bind, pure_eq_ok, more, decide_true, if_true]
        exact ih s'
      · simp only [ok_bind, pure_eq_ok, more, decide_false, Bool.false_eq_true, if_false]
        rw [snapshotQueue_full _ _ more]
        rfl

theorem createSnapshot_eq {b : OrderBook} {q : QueueBook} (rep : Represents b q) :
    b.createSnapshot = q.createSnapshot := by
  obtain ⟨⟨place, cells, prep, holds⟩, killed⟩ := rep
  have bids : SideRep b.pool cells .buy b.bids (q.queue .buy) := holds .buy
  have asks : SideRep b.pool cells .sell b.asks (q.queue .sell) := holds .sell
  have down : ∀ s, b.bids.bitmap.forEachDescending (b.snapshotVisit b.bids) s =
      snapshotQueue b.killedOrders (q.queue .buy) s := by
    intro s
    obtain ⟨slots, sorted, mem, walk⟩ :=
      PriceBitmap.forEachDescending_spec bids.summarized bids.window
    rw [walk]
    refine snapshotSide_eq prep bids (sorted.imp ?_) mem s
    intro i j greater
    simp only [slotKey]
    omega
  have up : ∀ s, b.asks.bitmap.forEachAscending (b.snapshotVisit b.asks) s =
      snapshotQueue b.killedOrders (q.queue .sell) s := by
    intro s
    obtain ⟨slots, sorted, mem, walk⟩ :=
      PriceBitmap.forEachAscending_spec asks.summarized asks.window
    rw [walk]
    refine snapshotSide_eq prep asks (sorted.imp ?_) mem s
    intro i j less
    simp only [slotKey]
    omega
  rw [OrderBook.createSnapshot, QueueBook.createSnapshot, down, up, killed]

theorem represents_new : Represents {} {} := by
  refine ⟨⟨_, _, pool_rep_new, fun t => ?_⟩, rfl⟩
  have empty : ∀ slot, Function.update (fun _ => []) Place.free
      (List.range' 0 orderPoolInitialCap) (.level t slot) = [] := by
    intro slot
    rw [Function.update_of_ne (by simp)]
  have side : OrderBook.side {} t = {} := by cases t <;> rfl
  refine ⟨fun slot => ?_, fun slot => ?_, fun slot => ?_, ?_, List.Pairwise.nil⟩
  · rw [empty, side]
    exact level_rep_new _
  · rw [empty]
    rfl
  · rw [empty, side]
    exact iff_of_false (PriceBitmap.has_empty slot) (fun h => h rfl)
  · rw [side]
    exact PriceBitmap.summarized_empty

end MarketBookExchange
