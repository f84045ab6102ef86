import MarketBookExchange.LiveBook

/- A book that nothing is left to do for. `UPDATE_BOOK` leaves every book quiet, and a quiet
   book as it is. -/
namespace MarketBookExchange
open RankedList Outcome KillFlagTable

/-- The fronts live and do not cross. -/
structure FlagBook.Quiet (f : FlagBook) : Prop where
  alive : ∀ t o, (f.queue t).head? = some o → (f.flags o.orderId).getD false = false
  apart : ∀ bid ask, (f.queue .buy).head? = some bid → (f.queue .sell).head? = some ask →
    bid.priceLevel < ask.priceLevel

section Settling
variable (registry : Registry)

theorem drainFlags_flags (l : List Order) (id : Int) : ∀ (m : Int → Option Bool) (w : World),
    ((drainFlags registry l m w).2.1 id).getD false = true → (m id).getD false = true := by
  induction l with
  | nil => exact fun _ _ h => h
  | cons front rest ih =>
    intro m w h
    unfold drainFlags at h
    split at h
    · have before := ih _ _ h
      by_cases same : id = front.orderId
      · subst same
        assumption
      · rwa [Function.update_of_ne same] at before
    · exact h

theorem drainFlags_alive (l : List Order) : ∀ (m : Int → Option Bool) (w : World) (o : Order),
    (drainFlags registry l m w).1.head? = some o →
    ((drainFlags registry l m w).2.1 o.orderId).getD false = false := by
  induction l with
  | nil =>
    intro m w o h
    cases h
  | cons front rest ih =>
    intro m w o h
    unfold drainFlags at h ⊢
    split at h
    · rename_i killed
      rw [if_pos killed]
      exact ih _ _ o h
    · rename_i lives
      cases h
      rw [if_neg lives]
      simpa using lives

theorem drainBoth_alive (f : FlagBook) (w : World) (t : OrderType) (o : Order)
    (head : ((f.drainBoth registry w).1.queue t).head? = some o) :
    ((f.drainBoth registry w).1.flags o.orderId).getD false = false := by
  cases t with
  | sell => exact drainFlags_alive registry _ _ _ o head
  | buy =>
    have lives := drainFlags_alive registry (f.queue .buy) f.flags w o head
    have fewer := drainFlags_flags registry (f.queue .sell) o.orderId
      (drainFlags registry (f.queue .buy) f.flags w).2.1
      (drainFlags registry (f.queue .buy) f.flags w).2.2
    exact eq_false_of_ne_true fun killed => absurd (fewer killed) (by rw [lives]; simp)

theorem drainBoth_fewer (f : FlagBook) (w : World) :
    (f.drainBoth registry w).1.resting ≤ f.resting := by
  have bids := (drainFlags_suffix registry (f.queue .buy) f.flags w).length_le
  have asks := (drainFlags_suffix registry (f.queue .sell)
    (drainFlags registry (f.queue .buy) f.flags w).2.1
    (drainFlags registry (f.queue .buy) f.flags w).2.2).length_le
  exact Nat.add_le_add bids asks

theorem matchBest_trade {f f' : FlagBook} {w w' : World}
    (made : f.matchBest registry w = some (f', w')) :
    ∃ e, LiveBook.trade f.queue = some (f'.queue, e) := by
  unfold FlagBook.matchBest at made
  split at made
  · rename_i bo bids ao asks buy sell
    split at made
    · cases made
    · rename_i crossed
      cases made
      unfold LiveBook.trade
      rw [buy, sell]
      simp only [if_neg crossed]
      exact ⟨_, rfl⟩
  · cases made

theorem matchBest_apart {f : FlagBook} {w : World} (idle : f.matchBest registry w = none)
    {bid ask : Order} (buy : (f.queue .buy).head? = some bid)
    (sell : (f.queue .sell).head? = some ask) : bid.priceLevel < ask.priceLevel := by
  obtain ⟨bids, buys⟩ := List.head?_eq_some_iff.mp buy
  obtain ⟨asks, sells⟩ := List.head?_eq_some_iff.mp sell
  unfold FlagBook.matchBest at idle
  rw [buys, sells] at idle
  by_contra crossed
  simp [crossed] at idle

theorem updateLoop_quiet (fuel : Nat) : ∀ (f : FlagBook) (w : World), f.resting < fuel →
    (f.updateLoop registry fuel w).1.Quiet := by
  induction fuel with
  | zero => exact fun _ _ room => absurd room (Nat.not_lt_zero _)
  | succ fuel ih =>
    intro f w room
    have fewer := drainBoth_fewer registry f w
    unfold FlagBook.updateLoop
    simp only
    cases made : (f.drainBoth registry w).1.matchBest registry (f.drainBoth registry w).2 with
    | none =>
      constructor
      · exact drainBoth_alive registry f w
      · intro bid ask buy sell
        exact matchBest_apart registry made buy sell
    | some next =>
      obtain ⟨f', w'⟩ := next
      obtain ⟨e, trade⟩ := matchBest_trade registry made
      have less : f'.resting < (f.drainBoth registry w).1.resting := LiveBook.trade_resting trade
      exact ih f' w' (by omega)

theorem updateBook_quiet (f : FlagBook) (w : World) : (f.updateBook registry w).1.Quiet :=
  updateLoop_quiet registry _ f w (Nat.lt_succ_self _)

end Settling

section Quiet
variable (registry : Registry) {b : OrderBook} {f : FlagBook}

theorem quiet_new : FlagBook.Quiet {} := by
  constructor
  · intro _ _ h
    cases h
  · intro _ _ h
    cases h

theorem drainDead_same {q : QueueBook} (rep : Represents b q) (reads : Reads q f)
    (quiet : f.Quiet) (t : OrderType) (fuel : Nat) (w : World) :
    drainDead registry (bestIsHigh t) (fuel + 1) (b.side t) ⟨b.pool, b.killedOrders, w⟩ =
      .ok (b.side t, ⟨b.pool, b.killedOrders, w⟩) := by
  unfold drainDead
  rw [rep.rep.best_ok t]
  cases queue : q.queue t with
  | nil => rfl
  | cons o rest =>
    rw [reads.queue] at queue
    have member : o ∈ f.queue t := by simp [queue]
    have lives := quiet.alive t o (by rw [queue]; rfl)
    have known : b.killedOrders.isKilled o.orderId = .ok false := by
      rw [rep.killed, isKilled_ok reads.rep (reads.ordinary t o member), lives]
    rw [← reads.queue] at queue
    simp only [ok_bind, List.head?_cons, Option.map_some, rep.rep.front_ok queue, known]
    rfl

theorem drainBoth_same {q : QueueBook} (rep : Represents b q) (reads : Reads q f)
    (quiet : f.Quiet) (w : World) : b.drainBoth registry w = .ok (b, w) := by
  have bids : drainDead registry true _ b.bids ⟨b.pool, b.killedOrders, w⟩ = _ :=
    drainDead_same registry rep reads quiet .buy b.pool.nodes.size w
  have asks : drainDead registry false _ b.asks ⟨b.pool, b.killedOrders, w⟩ = _ :=
    drainDead_same registry rep reads quiet .sell b.pool.nodes.size w
  unfold OrderBook.drainBoth
  simp only [bids, asks, ok_bind]
  rfl

theorem matchBest_same {q : QueueBook} (rep : Represents b q) (reads : Reads q f)
    (quiet : f.Quiet) (w : World) : b.matchBest registry w = .ok none := by
  have bid := rep.rep.best_ok .buy
  have ask := rep.rep.best_ok .sell
  unfold OrderBook.matchBest
  rw [show b.bids.best true = _ from bid, show b.asks.best false = _ from ask]
  cases buy : q.queue .buy with
  | nil => rfl
  | cons bo bids =>
    cases sell : q.queue .sell with
    | nil => rfl
    | cons ao asks =>
      have frontB : levelFront (b.bids.levels (indexOf bo.priceLevel)) b.pool = .ok bo :=
        rep.rep.front_ok buy
      have frontA : levelFront (b.asks.levels (indexOf ao.priceLevel)) b.pool = .ok ao :=
        rep.rep.front_ok sell
      rw [reads.queue] at buy sell
      have apart : bo.priceLevel < ao.priceLevel :=
        quiet.apart bo ao (by rw [buy]; rfl) (by rw [sell]; rfl)
      simp only [List.head?_cons, Option.map_some, ok_bind, frontB, frontA, if_pos apart]
      rfl

/-- A repeated `UPDATE_BOOK` trades nothing, says nothing and changes nothing. -/
theorem updateBook_same (h : Tracks b f) (quiet : f.Quiet) (w : World) :
    b.updateBook registry w = .ok (b, w) := by
  obtain ⟨q, rep, reads⟩ := h
  unfold OrderBook.updateBook OrderBook.updateLoop
  rw [drainBoth_same registry rep reads quiet w, ok_bind]
  simp only [matchBest_same registry rep reads quiet w, ok_bind]
  rfl

end Quiet
end MarketBookExchange
