import MarketBookExchange.KillFlags
import MarketBookExchange.TimePriority

/- Price priority. Best is found by slot, and a slot is a price only modulo the window: the
   book trades at the best prices as long as slots order its prices. -/
namespace MarketBookExchange
open RankedList Outcome KillFlagTable

def atLeastAsGood (t : OrderType) (price price' : Int) : Prop :=
  match t with
  | .buy => price' ≤ price
  | .sell => price ≤ price'

instance (t : OrderType) (price price' : Int) : Decidable (atLeastAsGood t price price') :=
  match t with
  | .buy => inferInstanceAs (Decidable (price' ≤ price))
  | .sell => inferInstanceAs (Decidable (price ≤ price'))

/-- Not killed, as `drain_dead` sees it. -/
def Live (b : OrderBook) (o : Order) : Prop := b.killedOrders.isKilled o.orderId = .ok false

/-- A live resting order of the best price of its side. -/
def IsBest (b : OrderBook) (t : OrderType) (o : Order) : Prop :=
  o ∈ b.resting t ∧ Live b o ∧
    ∀ x ∈ b.resting t, Live b x → atLeastAsGood t o.priceLevel x.priceLevel

/-- The step from `w` to `w'` trades the best bid with the best ask, once. -/
def TradesBest (b : OrderBook) (w w' : World) : Prop :=
  ∃ bid ask fillQty fillPrice notes,
    w'.log = w.log ++ .trade bid ask fillQty fillPrice :: notes ∧ (∀ e ∈ notes, e.isNote) ∧
    IsBest b .buy bid ∧ IsBest b .sell ask

def Uncrossed (b : OrderBook) : Prop :=
  ∀ x ∈ b.resting .buy, ∀ y ∈ b.resting .sell, Live b x → Live b y →
    x.priceLevel < y.priceLevel

/-- Price priority over all states of the runs of a stream. -/
def PricePriority (run : List Order → Phase → OrderBook → World → Prop) (registry : Registry)
    (reqs : List Order) : Prop :=
  (∀ b w b' w', run reqs .drained b w → b.matchBest registry w = .ok (some (b', w')) →
    TradesBest b w w') ∧
  ∀ b w, run reqs .idle b w → Uncrossed b

/-- The slots of a new order and of a resting one stand as their prices do; at one slot the
    resting order stands first. -/
def SlotsAgree (t : OrderType) (new x : Order) : Prop :=
  (slotRank t x ≤ slotRank t new → atLeastAsGood t x.priceLevel new.priceLevel) ∧
  (slotRank t new < slotRank t x → atLeastAsGood t new.priceLevel x.priceLevel)

/-- The order a request books agrees with the live orders that rest on its side, the target
    of a MODIFY apart. -/
def AgreesWith (resting : OrderType → List Order) (live : Order → Prop) (order : Order) : Prop :=
  ∀ o, entry order = some o → ∀ x ∈ resting o.orderType, live x →
    (order.requestType = .modifyOrder → x.orderId ≠ order.delId) → SlotsAgree o.orderType o x

def SlotsAgreeAt (b : OrderBook) (_ : World) (order : Order) : Prop :=
  AgreesWith b.resting (Live b) order

def QueueAgreesAt (q : QueueBook) (_ : World) (order : Order) : Prop :=
  AgreesWith q.queue (fun o => q.killedOrders.isKilled o.orderId = .ok false) order

def WellOrdered (queue : OrderType → List Order) (m : Int → Option Bool) : Prop :=
  ∀ t, (queue t).Pairwise fun a c => m a.orderId ≠ some true → m c.orderId ≠ some true →
    atLeastAsGood t a.priceLevel c.priceLevel

theorem WellOrdered.flags {queue : OrderType → List Order} {m m' : Int → Option Bool}
    (h : WellOrdered queue m)
    (fewer : ∀ t, ∀ o ∈ queue t, m o.orderId = some true → m' o.orderId = some true) :
    WellOrdered queue m' := by
  intro t
  refine (h t).imp_of_mem ?_
  intro a c ha hc good live live'
  exact good (fun e => live (fewer t a ha e)) (fun e => live' (fewer t c hc e))

theorem markKilled_keeps {m : Int → Option Bool} {key k : Int} (h : m k = some true) :
    markKilled m key k = some true := by
  by_cases same : k = key
  · rw [← same, markKilled_self, h, Option.map_some]
  · rw [markKilled_of_ne m same, h]

theorem WellOrdered.accept {queue : OrderType → List Order} {m₁ : Int → Option Bool}
    (h : WellOrdered queue m₁) (ranked : ∀ t, Ranked (slotRank t) (queue t)) {o : Order}
    (fresh : ∀ t, ∀ x ∈ queue t, x.orderId ≠ o.orderId)
    (agree : ∀ x ∈ queue o.orderType, m₁ x.orderId ≠ some true → SlotsAgree o.orderType o x) :
    WellOrdered (Function.update queue o.orderType
        (insert (slotRank o.orderType) o (queue o.orderType)))
      (Function.update m₁ o.orderId (some false)) := by
  have old : WellOrdered queue (Function.update m₁ o.orderId (some false)) := by
    refine h.flags fun t x hx killed => ?_
    rw [Function.update_of_ne (fresh t x hx), killed]
  intro t
  by_cases side : t = o.orderType
  · subst side
    rw [Function.update_self]
    refine pairwise_insert (old _) (ranked _) (fun x hx le live _ => ?_) (fun x hx lt _ live => ?_)
    · rw [Function.update_of_ne (fresh _ x hx)] at live
      exact (agree x hx live).1 le
    · rw [Function.update_of_ne (fresh _ x hx)] at live
      exact (agree x hx live).2 lt
  · rw [Function.update_of_ne side]
    exact old t

theorem wellOrdered_fillFront {t : OrderType} {m : Int → Option Bool} {front : Order}
    {rest : List Order}
    (h : (front :: rest).Pairwise fun a c => m a.orderId ≠ some true → m c.orderId ≠ some true →
      atLeastAsGood t a.priceLevel c.priceLevel) (fillQty : Int) :
    (fillFront front rest fillQty).Pairwise fun a c => m a.orderId ≠ some true →
      m c.orderId ≠ some true → atLeastAsGood t a.priceLevel c.priceLevel := by
  obtain ⟨first, others⟩ := List.pairwise_cons.mp h
  rw [fillFront]
  split
  · exact others
  · exact List.pairwise_cons.mpr ⟨first, others⟩

theorem flagRun_fronts {registry : Registry} {request : QueueBook → World → Order → Prop}
    {trade : QueueBook → World → Prop} {reqs : List Order} {phase : Phase} {q : QueueBook}
    {m : Int → Option Bool} {w : World} (run : FlagRun registry request trade reqs phase q m w) :
    (phase = .draining .sell ∨ phase = .drained →
      ∀ front ∈ (q.queue .buy).head?, m front.orderId ≠ some true) ∧
    (phase = .drained → ∀ front ∈ (q.queue .sell).head?, m front.orderId ≠ some true) := by
  induction run with
  | new => exact ⟨by simp, by simp⟩
  | request order before reach flags call allowed ih => exact ⟨by simp, by simp⟩
  | @evicted _ t _ _ _ front rest _ before reach flags head killed alone ih =>
    refine ⟨fun phase x hx => ?_, by simp⟩
    cases t with
    | buy => simp at phase
    | sell =>
      simp only [update_sell, bySide_buy] at hx
      by_cases same : x.orderId = front.orderId
      · rw [same, Function.update_self]
        simp
      · rw [Function.update_of_ne same]
        exact ih.1 (Or.inl rfl) x hx
  | bidsDrained before alive ih => exact ⟨fun _ => alive, by simp⟩
  | asksDrained before alive ih => exact ⟨fun _ => ih.1 (Or.inl rfl), fun _ => alive⟩
  | traded before reach flags step distinct allowed ih => exact ⟨by simp, by simp⟩
  | settled before call ih => exact ⟨by simp, by simp⟩

theorem fillFlags_keeps {registry : Registry} {m : Int → Option Bool} {w : World} {front : Order}
    {fillQty key : Int} (live : m front.orderId ≠ some true) (killed : m key = some true) :
    fillFlags registry m w front fillQty key = some true := by
  rw [fillFlags]
  split
  · rw [Function.update_of_ne (fun e => live (by rw [← e]; exact killed)), killed]
  · exact killed

theorem fillFlags_live {registry : Registry} {m : Int → Option Bool} {w : World} {front : Order}
    {fillQty key : Int} (live : m key ≠ some true) :
    fillFlags registry m w front fillQty key ≠ some true := by
  rw [fillFlags]
  split
  · by_cases same : key = front.orderId
    · rw [same, Function.update_self]
      simp
    · rwa [Function.update_of_ne same]
  · exact live

theorem tradeFlags_keeps {registry : Registry} {m : Int → Option Bool} {w w₁ : World}
    {bo ao : Order} {key : Int} (bid : m bo.orderId ≠ some true) (ask : m ao.orderId ≠ some true)
    (killed : m key = some true) : tradeFlags registry m w w₁ bo ao key = some true :=
  fillFlags_keeps (fillFlags_live ask) (fillFlags_keeps bid killed)

theorem live_of_markKilled {reqs : List Order} {q : QueueBook} {m : Int → Option Bool}
    (flags : Flags reqs q m) {key : Int} {t : OrderType} {x : Order} (hx : x ∈ q.queue t)
    (live : markKilled m key x.orderId ≠ some true) :
    m x.orderId ≠ some true ∧ x.orderId ≠ key := by
  refine ⟨fun killed => live (markKilled_keeps killed), fun same => live ?_⟩
  obtain ⟨v, flag⟩ := Option.ne_none_iff_exists'.mp (flags.flagged t x hx)
  rw [← same, markKilled_self, flag, Option.map_some]

theorem wellOrdered_request {registry : Registry} {reqs : List Order} {q q' : QueueBook}
    {m : Int → Option Bool} {w w' : World} {order : Order} (h : WellOrdered q.queue m)
    (reach : Reach registry reqs .idle q w) (flags : Flags reqs q m)
    (call : q.dispatch registry w order = .ok (q', w')) (allowed : QueueAgreesAt q w order)
    (unique : (ids (accepted (reqs ++ [order]))).Nodup)
    (ordinary : ∀ key ∈ ids (accepted reqs), Ordinary key) :
    WellOrdered q'.queue (requestFlags m order) := by
  obtain ⟨_, ⟨nothing, same⟩ | ⟨o, booked, same⟩⟩ := dispatch_queue call
  · rw [same, requestFlags, entry_none nothing]
    exact h.flags fun t x _ killed => markKilled_keeps killed
  · obtain ⟨m₁, marked, eq⟩ := requestFlags_of_entry (m := m) booked
    have ledger := reach_ledger reach
    have aliveIff : ∀ x ∈ q.queue o.orderType, m x.orderId ≠ some true →
        q.killedOrders.isKilled x.orderId = .ok false := fun x hx live =>
      (alive_iff flags.rep (ordinary _ (ledger.id_mem hx))).mpr live
    rw [same, eq]
    refine WellOrdered.accept (h.flags fun t x hx killed => ?_) (reach_fifo reach).1
      (fun t x hx clash => ?_) (fun x hx live => ?_)
    · rcases marked with ⟨rfl, _⟩ | ⟨rfl, _⟩
      · exact killed
      · exact markKilled_keeps killed
    · rw [ids_accepted_append reqs booked] at unique
      have member := ledger.id_mem hx
      rw [clash] at member
      exact (List.nodup_append.mp unique).2.2 _ member _ (by simp) rfl
    · rcases marked with ⟨rfl, kind⟩ | ⟨rfl, kind⟩
      · exact allowed o booked x hx (aliveIff x hx live) fun modify => absurd modify kind
      · obtain ⟨alive, ne⟩ := live_of_markKilled flags hx live
        exact allowed o booked x hx (aliveIff x hx alive) fun _ => ne

theorem wellOrdered_trade {registry : Registry} {q q' : QueueBook}
    {m : Int → Option Bool} {w w' w₁ : World} {bo ao : Order} {bids asks : List Order}
    {kt : KillFlagTable} (h : WellOrdered q.queue m)
    (step : Trade registry q w q' w' bo ao bids asks kt w₁) (bid : m bo.orderId ≠ some true)
    (ask : m ao.orderId ≠ some true) :
    WellOrdered q'.queue (tradeFlags registry m w w₁ bo ao) := by
  have buys := h .buy
  have sells := h .sell
  rw [step.buy] at buys
  rw [step.sell] at sells
  have filled : WellOrdered q'.queue m := by
    rw [step.queue]
    intro t
    cases t with
    | buy => exact wellOrdered_fillFront buys _
    | sell => exact wellOrdered_fillFront sells _
  exact filled.flags fun t x _ killed => tradeFlags_keeps bid ask killed

theorem flagRun_wellOrdered {registry : Registry} {trade : QueueBook → World → Prop}
    {reqs : List Order} {phase : Phase} {q : QueueBook} {m : Int → Option Bool} {w : World}
    (run : FlagRun registry QueueAgreesAt trade reqs phase q m w)
    (unique : (ids (accepted reqs)).Nodup)
    (ordinary : ∀ key ∈ ids (accepted reqs), Ordinary key) : WellOrdered q.queue m := by
  induction run with
  | new => exact fun _ => List.Pairwise.nil
  | request order before reach flags call allowed ih =>
    have old := fun key h => ordinary key (mem_accepted_left h)
    exact wellOrdered_request (ih (nodup_accepted_left unique) old) reach flags call allowed unique
      old
  | @evicted _ t q m _ front rest _ before reach flags head killed alone ih =>
    have left : WellOrdered (Function.update q.queue t rest) m := by
      intro u
      have sorted := ih unique ordinary u
      by_cases same : u = t
      · subst same
        rw [head] at sorted
        rw [Function.update_self]
        exact (List.pairwise_cons.mp sorted).2
      · rw [Function.update_of_ne same]
        exact sorted
    refine left.flags fun u x hx dead => ?_
    rw [Function.update_of_ne (alone u x hx), dead]
  | bidsDrained before alive ih => exact ih unique ordinary
  | asksDrained before alive ih => exact ih unique ordinary
  | traded before reach flags step distinct allowed ih =>
    have fronts := flagRun_fronts before
    exact wellOrdered_trade (ih unique ordinary) step
      (fronts.1 (Or.inr rfl) _ (by rw [step.buy]; rfl)) (fronts.2 rfl _ (by rw [step.sell]; rfl))
  | settled before call ih => exact ih unique ordinary

section
variable {registry : Registry} {reqs : List Order} {b : OrderBook} {q : QueueBook}
  {m : Int → Option Bool} {w : World}

theorem isBest_front (rep : Represents b q) (flags : Flags reqs q m)
    (ledger : Ledger reqs q.queue w.log)
    (ordinary : ∀ key ∈ ids (accepted reqs), Ordinary key) (sorted : WellOrdered q.queue m)
    {t : OrderType} {front : Order} {rest : List Order} (head : q.queue t = front :: rest)
    (alive : m front.orderId ≠ some true) : IsBest b t front := by
  have known : ∀ x ∈ q.queue t, Live b x ↔ m x.orderId ≠ some true := by
    intro x hx
    rw [Live, rep.killed]
    exact alive_iff flags.rep (ordinary _ (ledger.id_mem hx))
  have first : front ∈ q.queue t := by simp [head]
  refine ⟨by rw [resting_eq rep]; exact first, (known front first).mpr alive, fun x hx live => ?_⟩
  rw [resting_eq rep] at hx
  have good := sorted t
  rw [head] at good hx
  rcases List.mem_cons.mp hx with rfl | behind
  · cases t <;> exact Int.le_refl _
  · exact (List.pairwise_cons.mp good).1 x behind alive
      ((known x (by rw [head]; exact hx)).mp live)

theorem uncrossed_of_fronts (rep : Represents b q)
    (best : ∀ t front rest, q.queue t = front :: rest → IsBest b t front)
    (vacant : q.queue .buy = [] ∨ q.queue .sell = [] ∨
      ∃ bo bids ao asks, q.queue .buy = bo :: bids ∧ q.queue .sell = ao :: asks ∧
        bo.priceLevel < ao.priceLevel) : Uncrossed b := by
  intro x hx y hy liveX liveY
  rcases vacant with noBids | noAsks | ⟨bo, bids, ao, asks, buy, sell, apart⟩
  · rw [resting_eq rep, noBids] at hx
    cases hx
  · rw [resting_eq rep, noAsks] at hy
    cases hy
  · have bid : x.priceLevel ≤ bo.priceLevel := (best .buy bo bids buy).2.2 x hx liveX
    have ask : ao.priceLevel ≤ y.priceLevel := (best .sell ao asks sell).2.2 y hy liveY
    omega

end

theorem queueAgrees_of_book (b : OrderBook) (q : QueueBook) (w : World) (order : Order)
    (rep : Represents b q) (h : SlotsAgreeAt b w order) : QueueAgreesAt q w order := by
  intro o present x hx live other
  rw [← rep.killed] at live
  exact h o present x (by rw [resting_eq rep]; exact hx) live other

/-- Inside one aligned window slots order prices. -/
theorem slotsAgree_of_window {t : OrderType} {o x : Order}
    (window : o.priceLevel / priceWindow = x.priceLevel / priceWindow) : SlotsAgree t o x := by
  have slotO := indexOf_eq o.priceLevel
  have slotX := indexOf_eq x.priceLevel
  have wholeO := Int.mul_ediv_add_emod o.priceLevel priceWindow
  have wholeX := Int.mul_ediv_add_emod x.priceLevel priceWindow
  rw [window] at wholeO
  simp only [priceWindow, priceWindowLog2] at *
  cases t with
  | buy =>
    simp only [SlotsAgree, slotRank, atLeastAsGood]
    omega
  | sell =>
    simp only [SlotsAgree, slotRank, atLeastAsGood]
    omega

theorem runWhere_of_window {registry : Registry} {reqs : List Order} {phase : Phase}
    {b : OrderBook} {w : World} (run : Run registry reqs phase b w) {k : Int}
    (window : ∀ a ∈ accepted reqs, a.priceLevel / priceWindow = k) :
    RunWhere registry SlotsAgreeAt (fun _ _ => True) reqs phase b w := by
  induction run with
  | new => exact .new
  | request order before call allowed ih =>
    rw [accepted_append] at window
    have old := fun a ha => window a (List.mem_append_left _ ha)
    refine .request order (ih old) call fun o booked x hx _ _ => slotsAgree_of_window ?_
    obtain ⟨q, rep, reach⟩ := run_reach before
    rw [resting_eq rep] at hx
    obtain ⟨_, a, ha, eq⟩ := (reach_ledger reach).resting _ x hx
    have price : x.priceLevel = a.priceLevel := by rw [eq]
    rw [price, old a ha]
    exact window o (List.mem_append_right _ (by simp [accepted, booked]))
  | drained before call ih => exact .drained (ih window) call
  | traded before call allowed ih => exact .traded (ih window) call trivial
  | settled before call ih => exact .settled (ih window) call

section Slots
variable {registry : Registry} {reqs : List Order} {phase : Phase} {b b' : OrderBook}
  {w w' : World}

theorem fronts_best (unique : (ids (accepted reqs)).Nodup)
    (ordinary : ∀ key ∈ ids (accepted reqs), Ordinary key)
    (run : RunWhere registry SlotsAgreeAt (fun _ _ => True) reqs phase b w)
    (stands : phase = .drained) : ∃ q, Represents b q ∧
      ∀ t front rest, q.queue t = front :: rest → IsBest b t front := by
  obtain ⟨q, rep, reach⟩ := runWhere_reach queueAgrees_of_book
    (fun _ _ _ _ h => h) run
  obtain ⟨m, flagRun, flags⟩ := flagRun_of_reach reach unique ordinary
  have sorted := flagRun_wellOrdered flagRun unique ordinary
  have alive := flagRun_fronts flagRun
  refine ⟨q, rep, fun t front rest head => ?_⟩
  refine isBest_front rep flags (reach_ledger reach.reach) ordinary sorted head ?_
  cases t with
  | buy => exact alive.1 (Or.inr stands) front (by rw [head]; rfl)
  | sell => exact alive.2 stands front (by rw [head]; rfl)

theorem trades_best (unique : (ids (accepted reqs)).Nodup)
    (ordinary : ∀ key ∈ ids (accepted reqs), Ordinary key)
    (run : RunWhere registry SlotsAgreeAt (fun _ _ => True) reqs .drained b w)
    (step : b.matchBest registry w = .ok (some (b', w'))) : TradesBest b w w' := by
  obtain ⟨q, rep, best⟩ := fronts_best unique ordinary run rfl
  obtain ⟨r, call, rel⟩ := matchBest_ok registry rep step
  cases rel with
  | @some _ y both =>
    obtain ⟨q', _⟩ := y
    obtain ⟨_, rfl⟩ := both
    obtain ⟨bo, ao, bids, asks, kt, w₁, trade⟩ := QueueBook.matchBest_some call
    obtain ⟨notes, logs, all⟩ := trade.log_eq
    exact ⟨bo, ao, _, _, notes, logs, all, best .buy bo bids trade.buy, best .sell ao asks trade.sell⟩

theorem uncrossed_idle (unique : (ids (accepted reqs)).Nodup)
    (ordinary : ∀ key ∈ ids (accepted reqs), Ordinary key)
    (run : RunWhere registry SlotsAgreeAt (fun _ _ => True) reqs .idle b w) : Uncrossed b := by
  cases run with
  | new =>
    intro x hx
    rw [resting_eq represents_new] at hx
    cases hx
  | settled before call =>
    obtain ⟨q, rep, best⟩ := fronts_best unique ordinary before rfl
    obtain ⟨r, call', rel⟩ := matchBest_ok registry rep call
    cases rel with
    | none => exact uncrossed_of_fronts rep best (QueueBook.matchBest_none call')

end Slots

/-- Price priority holds in every run whose requests agree with the slots of the orders
    they meet. -/
theorem price_priority_of_slots (registry : Registry) (reqs : List Order)
    (unique : (ids (accepted reqs)).Nodup)
    (ordinary : ∀ key ∈ ids (accepted reqs), Ordinary key) :
    PricePriority (RunWhere registry SlotsAgreeAt fun _ _ => True) registry reqs :=
  ⟨fun _ _ _ _ run step => trades_best unique ordinary run step,
    fun _ _ run => uncrossed_idle unique ordinary run⟩

def secondWindow : List Order := [sendRequest .buy 1 65541 5, sendRequest .buy 2 65546 5]

theorem price_priority_secondWindow : ∃ b w b' w',
    RunWhere (fun _ _ => true) SlotsAgreeAt (fun _ _ => True)
      (secondWindow ++ [sendRequest .sell 3 65540 5]) .drained b w ∧
    b.matchBest (fun _ _ => true) w = .ok (some (b', w')) ∧ TradesBest b w w' := by
  obtain ⟨⟨b', w'⟩, both⟩ := exists_ok_some (x := do
    let r ← OrderBook.toMatch (fun _ _ => true) secondWindow (sendRequest .sell 3 65540 5)
    r.1.matchBest (fun _ _ => true) r.2) (by decide +kernel)
  obtain ⟨⟨b, w⟩, reached, step⟩ := bind_ok both
  have run := runWhere_of_window (run_toMatch reached) (k := 1) (by decide)
  exact ⟨b, w, b', w', run, step,
    (price_priority_of_slots _ _ (by decide) (by decide)).1 b w b' w' run step⟩

def acrossWindows : List Order :=
  [sendRequest .buy 1 65536 5, sendRequest .buy 2 10 5, sendRequest .sell 3 5 5]

/-- Across windows the law fails: the bid of 10 in slot 10 trades while the bid of 65536 in
    slot 0 rests. -/
theorem price_priority_fails : (ids (accepted acrossWindows)).Nodup ∧
    (∀ a ∈ accepted acrossWindows, 0 < a.priceLevel ∧ a.priceLevel ≤ 2 ^ 31 - 1 ∧ 0 < a.qty) ∧
    ¬ PricePriority (Run fun _ _ => true) (fun _ _ => true) acrossWindows := by
  refine ⟨by decide, by decide, fun law => ?_⟩
  have seen : (do
      let before ← OrderBook.toMatch (fun _ _ => true)
        [sendRequest .buy 1 65536 5, sendRequest .buy 2 10 5] (sendRequest .sell 3 5 5)
      let r ← before.1.matchBest (fun _ _ => true) before.2
      let killed ← before.1.killedOrders.isKilled 1
      pure (before.1.levelOrders .buy 0, killed, before.2.log, r.map fun r => r.2.log)) =
    (Except.ok ([sendRequest .buy 1 65536 5], false, [], some
      [.trade (sendRequest .buy 2 10 5) (sendRequest .sell 3 5 5) 5 5,
        .write 1 (.fullFill (afterFill (sendRequest .buy 2 10 5) 5) 5 5),
        .write 1 (.fullFill (afterFill (sendRequest .sell 3 5 5) 5) 5 5)]) :
      Except Fault (List Order × Bool × List Event × Option (List Event))) :=
    ok_of_toOption (by decide +kernel)
  obtain ⟨⟨b, w⟩, reached, rest⟩ := bind_ok seen
  obtain ⟨r, step, rest⟩ := bind_ok rest
  obtain ⟨killed, looked, rest⟩ := bind_ok rest
  injection rest with results
  injection results with level results
  injection results with live results
  injection results with logs traded
  cases r with
  | none => cases traded
  | some r =>
    obtain ⟨b', w'⟩ := r
    have logs' : w'.log = _ := Option.some.inj traded
    obtain ⟨bid, ask, fillQty, fillPrice, notes, more, _, best, _⟩ :=
      law.1 b w b' w' (run_toMatch reached) step
    rw [logs', logs, List.nil_append] at more
    injection more with trade _
    injection trade with same _ _ _
    have rests : sendRequest .buy 1 65536 5 ∈ b.resting .buy :=
      List.mem_flatMap.mpr ⟨0, mem_allSlots.mpr (by decide), by rw [level]; simp⟩
    have good := best.2.2 _ rests (by
      rw [Live, show (sendRequest .buy 1 65536 5).orderId = 1 from rfl, looked, live])
    rw [← same] at good
    exact absurd good (by decide)

/-- So price priority holds without a condition while prices stay in one window. -/
theorem price_priority_in_window (registry : Registry) (reqs : List Order)
    (unique : (ids (accepted reqs)).Nodup)
    (ordinary : ∀ key ∈ ids (accepted reqs), Ordinary key) {k : Int}
    (window : ∀ a ∈ accepted reqs, a.priceLevel / priceWindow = k) :
    PricePriority (Run registry) registry reqs :=
  ⟨fun _ _ _ _ run step => trades_best unique ordinary (runWhere_of_window run window) step,
    fun _ _ run => uncrossed_idle unique ordinary (runWhere_of_window run window)⟩

end MarketBookExchange
