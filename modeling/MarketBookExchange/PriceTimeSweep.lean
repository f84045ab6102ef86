import MarketBookExchange.BookSnapshot

/- Price-time priority, said of one arriving order: it takes the best orders of the other side
   one by one while their prices suit it, and what is left of it rests. With all prices in one
   aligned window the matching loop does just that. -/
namespace MarketBookExchange
open RankedList Outcome

def OrderType.other : OrderType → OrderType
  | .buy => .sell
  | .sell => .buy

def fillOf (t : OrderType) (o x : Order) (fillQty : Int) : Event :=
  match t with
  | .buy => .trade o x fillQty x.priceLevel
  | .sell => .trade x o fillQty o.priceLevel

/-- An order of the side `t` meets the other side: its trades, what is left of it, and what is
    left of the other side. -/
def sweep (t : OrderType) : Order → List Order → List Event × Option Order × List Order
  | o, [] => ([], some o, [])
  | o, x :: rest =>
    if atLeastAsGood t o.priceLevel x.priceLevel then
      if o.qty < x.qty then ([fillOf t o x o.qty], none, afterFill x o.qty :: rest)
      else if o.qty = x.qty then ([fillOf t o x o.qty], none, rest)
      else
        let r := sweep t (afterFill o x.qty) rest
        (fillOf t o x x.qty :: r.1, r.2)
    else ([], some o, x :: rest)

namespace LiveBook

def pair (t : OrderType) (own other : List Order) : LiveBook :=
  match t with
  | .buy => bySide own other
  | .sell => bySide other own

def restWith (t : OrderType) (own : List Order) : Option Order → List Order
  | some o => insert (slotRank t) o own
  | none => own

/-- The arrival of an order: it sweeps the other side and rests with what is left of it. -/
def arrive (L : LiveBook) (o : Order) : LiveBook × List Event :=
  let r := sweep o.orderType o (L o.orderType.other)
  (pair o.orderType (restWith o.orderType (L o.orderType) r.2.1) r.2.2, r.1)

/-- What a request does to a market that has price-time priority. -/
def request (L : LiveBook) (order : Order) : LiveBook × List Event :=
  match order.requestType with
  | .sendOrder => L.arrive order
  | .modifyOrder => (L.kill order.delId).arrive { order with delId := 0 }
  | .killOrder => (L.kill order.delId, [])

def requests (L : LiveBook) : List Order → LiveBook × List Event
  | [] => (L, [])
  | order :: orders =>
    (((L.request order).1.requests orders).1,
      (L.request order).2 ++ ((L.request order).1.requests orders).2)

@[simp] theorem pair_own (t : OrderType) (own other : List Order) : pair t own other t = own := by
  cases t <;> rfl

@[simp] theorem pair_other (t : OrderType) (own other : List Order) :
    pair t own other t.other = other := by
  cases t <;> rfl

theorem eq_pair (L : LiveBook) (t : OrderType) : L = pair t (L t) (L t.other) := by
  funext u
  cases t <;> cases u <;> rfl

theorem trade_pair (t : OrderType) (o x : Order) (ys xs : List Order) :
    (pair t (o :: ys) (x :: xs)).trade =
      if atLeastAsGood t o.priceLevel x.priceLevel then
        some (pair t (fillFront o ys (min o.qty x.qty)) (fillFront x xs (min o.qty x.qty)),
          fillOf t o x (min o.qty x.qty))
      else none := by
  by_cases suits : atLeastAsGood t o.priceLevel x.priceLevel
  · rw [if_pos suits]
    cases t with
    | buy =>
      have cross : x.priceLevel ≤ o.priceLevel := suits
      simp only [LiveBook.trade, pair, bySide_buy, bySide_sell, fillOf]
      rw [if_neg (by omega)]
    | sell =>
      have cross : o.priceLevel ≤ x.priceLevel := suits
      simp only [LiveBook.trade, pair, bySide_buy, bySide_sell, fillOf, min_comm o.qty]
      rw [if_neg (by omega)]
  · rw [if_neg suits]
    cases t with
    | buy =>
      have away : ¬ x.priceLevel ≤ o.priceLevel := suits
      simp only [LiveBook.trade, pair, bySide_buy, bySide_sell]
      rw [if_pos (by omega)]
    | sell =>
      have away : ¬ o.priceLevel ≤ x.priceLevel := suits
      simp only [LiveBook.trade, pair, bySide_buy, bySide_sell]
      rw [if_pos (by omega)]

def Apart (t : OrderType) (ys xs : List Order) : Prop :=
  ∀ y ∈ ys, ∀ x ∈ xs, ¬ atLeastAsGood t y.priceLevel x.priceLevel

theorem trade_apart {t : OrderType} {ys xs : List Order} (apart : Apart t ys xs) :
    (pair t ys xs).trade = none := by
  cases ys with
  | nil => cases t <;> cases xs <;> rfl
  | cons y ys =>
    cases xs with
    | nil => cases t <;> rfl
    | cons x xs => rw [trade_pair, if_neg (apart y (by simp) x (by simp))]

/-- The matching loop on a side led by an arriving order is its sweep. -/
theorem settle_pair (t : OrderType) (ys xs : List Order) : ∀ o : Order, Apart t ys xs →
    (∀ x ∈ xs, 0 < x.qty) →
    (pair t (o :: ys) xs).settle =
      (pair t ((sweep t o xs).2.1.toList ++ ys) (sweep t o xs).2.2, (sweep t o xs).1) := by
  induction xs with
  | nil =>
    intro o _ _
    have still : (pair t (o :: ys) []).trade = none := by cases t <;> rfl
    rw [settle_none still]
    rfl
  | cons x xs ih =>
    intro o apart positive
    have behind : Apart t ys xs := fun y hy z hz => apart y hy z (List.mem_cons_of_mem _ hz)
    have size := positive x (by simp)
    unfold sweep
    by_cases suits : atLeastAsGood t o.priceLevel x.priceLevel
    · rw [if_pos suits]
      have trade := trade_pair t o x ys xs
      rw [if_pos suits] at trade
      by_cases small : o.qty < x.qty
      · rw [min_eq_left (by omega)] at trade
        rw [if_pos small, settle_some trade]
        unfold fillFront
        rw [if_pos (by omega), if_neg (by omega), settle_none]
        · rfl
        · apply trade_apart
          intro y hy z hz
          rcases List.mem_cons.mp hz with rfl | later
          · exact apart y hy x (by simp)
          · exact behind y hy z later
      · by_cases same : o.qty = x.qty
        · rw [min_eq_left (by omega)] at trade
          rw [if_neg small, if_pos same, settle_some trade]
          unfold fillFront
          rw [if_pos (by omega), if_pos (by omega), settle_none (trade_apart behind)]
          rfl
        · rw [min_eq_right (by omega)] at trade
          have later := ih (afterFill o x.qty) behind fun z hz =>
            positive z (List.mem_cons_of_mem _ hz)
          rw [if_neg small, if_neg same, settle_some trade]
          unfold fillFront
          rw [if_neg (by omega), if_pos (by omega), later]
    · rw [if_neg suits, settle_none]
      · rfl
      · rw [trade_pair, if_neg suits]

/-- A property that every trade keeps holds when no trade is left; and what is true of every
    trade is true of all that were made. -/
theorem settle_rule {P : LiveBook → Prop} {Q : Event → Prop}
    (step : ∀ L L' e, P L → L.trade = some (L', e) → P L' ∧ Q e) {L : LiveBook} (h : P L) :
    P L.settle.1 ∧ L.settle.1.trade = none ∧ ∀ e ∈ L.settle.2, Q e := by
  induction size : L.resting using Nat.strongRecOn generalizing L with
  | ind n ih =>
    cases trade : L.trade with
    | none =>
      rw [settle_none trade]
      exact ⟨h, trade, fun e he => by cases he⟩
    | some next =>
      obtain ⟨L', e⟩ := next
      obtain ⟨kept, made⟩ := step L L' e h trade
      obtain ⟨after, still, rest⟩ := ih _ (by rw [← size]; exact trade_resting trade) kept rfl
      rw [settle_some trade]
      constructor
      · exact after
      · constructor
        · exact still
        · intro x hx
          rcases List.mem_cons.mp hx with rfl | later
          · exact made
          · exact rest x later

def Each (P : Order → Prop) (L : LiveBook) : Prop := ∀ t, ∀ o ∈ L t, P o

namespace Each
variable {P : Order → Prop} {L L' : LiveBook}

theorem send (h : Each P L) {o : Order} (new : P o) : Each P (L.send o) := by
  intro t x hx
  unfold LiveBook.send at hx
  by_cases side : t = o.orderType
  · subst side
    rw [Function.update_self] at hx
    rcases mem_insert.mp hx with rfl | old
    · exact new
    · exact h _ x old
  · rw [Function.update_of_ne side] at hx
    exact h t x hx

theorem kill (h : Each P L) (id : Int) : Each P (L.kill id) :=
  fun t x hx => h t x (List.mem_filter.mp hx).1

theorem dispatch (h : Each P L) {order : Order} (new : ∀ o, entry order = some o → P o) :
    Each P (L.dispatch order) := by
  unfold LiveBook.dispatch
  cases kind : order.requestType with
  | sendOrder => exact h.send (new order (by simp [entry, kind]))
  | modifyOrder => exact (h.kill _).send (new { order with delId := 0 } (by simp [entry, kind]))
  | killOrder => exact h.kill _

theorem trade (h : Each P L) (positive : ∀ o, P o → 0 < o.qty)
    (fill : ∀ o n, P o → 0 < n → n < o.qty → P (afterFill o n)) {e : Event}
    (made : L.trade = some (L', e)) : Each P L' := by
  unfold LiveBook.trade at made
  split at made
  · rename_i bo bids ao asks buy sell
    split at made
    · cases made
    · cases made
      have bid := h .buy bo (by simp [buy])
      have ask := h .sell ao (by simp [sell])
      have bidSize := positive bo bid
      have askSize := positive ao ask
      apply fillFronts_keep (P := fun _ o => P o) h buy sell
      · intro left
        simp only [afterFill] at left
        exact fill bo _ bid (by omega) (by omega)
      · intro left
        simp only [afterFill] at left
        exact fill ao _ ask (by omega) (by omega)
  · cases made

/-- What is true of every order that comes in, and stays true of one that is filled in part, is
    true of every live order. -/
theorem run (positive : ∀ o, P o → 0 < o.qty)
    (fill : ∀ o n, P o → 0 < n → n < o.qty → P (afterFill o n)) (orders : List Order) :
    ∀ {L : LiveBook}, Each P L → (∀ o ∈ accepted orders, P o) → Each P (L.run orders).1 := by
  induction orders with
  | nil => exact fun h _ => h
  | cons order orders ih =>
    intro L h new
    have head : ∀ o, entry order = some o → P o :=
      fun o booked => new o (List.mem_filterMap.mpr ⟨order, by simp, booked⟩)
    have tail : ∀ o ∈ accepted orders, P o := by
      intro o member
      obtain ⟨a, ha, booked⟩ := List.mem_filterMap.mp member
      exact new o (List.mem_filterMap.mpr ⟨a, List.mem_cons_of_mem _ ha, booked⟩)
    have settled := settle_rule (P := Each P) (Q := fun _ => True)
      (fun _ _ _ kept made => ⟨kept.trade positive fill made, trivial⟩) (h.dispatch head)
    exact ih settled.1 tail

end Each

/-- Each side stands in the order of its slots, with prices of the `k`-th window. -/
structure InWindow (k : Int) (L : LiveBook) : Prop where
  ranked : ∀ t, Ranked (slotRank t) (L t)
  window : ∀ t, ∀ o ∈ L t, o.priceLevel / priceWindow = k
  positive : ∀ t, ∀ o ∈ L t, 0 < o.qty

theorem inWindow_new (k : Int) : InWindow k fun _ => [] := by
  constructor
  · exact fun _ => List.Pairwise.nil
  · intro _ _ h
    cases h
  · intro _ _ h
    cases h

theorem suits_trans {t : OrderType} {p q r : Int} (first : atLeastAsGood t p q)
    (second : atLeastAsGood t q r) : atLeastAsGood t p r := by
  cases t with
  | buy => exact le_trans second first
  | sell => exact le_trans first second

theorem apart_swap {t : OrderType} {ys xs : List Order} (apart : Apart t ys xs) :
    Apart t.other xs ys := by
  intro x hx y hy
  have away := apart y hy x hx
  cases t with
  | buy => exact away
  | sell => exact away

namespace InWindow
variable {k : Int} {L L' : LiveBook} {o : Order}

theorem better (h : InWindow k L) {t : OrderType} {y : Order} {ys : List Order}
    (front : L t = y :: ys) : ∀ z ∈ L t, atLeastAsGood t y.priceLevel z.priceLevel := by
  have sorted := pairwise_price (h.ranked t) (h.window t)
  intro z hz
  rw [front] at sorted hz
  rcases List.mem_cons.mp hz with rfl | later
  · cases t <;> exact le_refl _
  · exact (List.pairwise_cons.mp sorted).1 z later

theorem apart (h : InWindow k L) (still : L.trade = none) (t : OrderType) :
    Apart t (L t) (L t.other) := by
  have buys : Apart .buy (L .buy) (L .sell) := by
    intro b hb a ha suits
    cases bids : L .buy with
    | nil =>
      rw [bids] at hb
      cases hb
    | cons y ys =>
      cases asks : L .sell with
      | nil =>
        rw [asks] at ha
        cases ha
      | cons x xs =>
        have bid : b.priceLevel ≤ y.priceLevel := h.better bids b hb
        have ask : x.priceLevel ≤ a.priceLevel := h.better asks a ha
        have cross : a.priceLevel ≤ b.priceLevel := suits
        unfold LiveBook.trade at still
        rw [bids, asks] at still
        simp only at still
        rw [if_neg (by omega)] at still
        cases still
  cases t with
  | buy => exact buys
  | sell => exact apart_swap buys

theorem send (h : InWindow k L) (window : o.priceLevel / priceWindow = k) (positive : 0 < o.qty) :
    InWindow k (L.send o) := by
  constructor
  · intro t
    unfold LiveBook.send
    by_cases side : t = o.orderType
    · subst side
      rw [Function.update_self]
      exact ranked_insert (h.ranked _) o
    · rw [Function.update_of_ne side]
      exact h.ranked t
  · exact Each.send (P := fun o => o.priceLevel / priceWindow = k) h.window window
  · exact Each.send (P := fun o => 0 < o.qty) h.positive positive

theorem kill (h : InWindow k L) (id : Int) : InWindow k (L.kill id) := by
  have fewer : ∀ t, (L.kill id t).Sublist (L t) := fun _ => List.filter_sublist
  constructor
  · exact fun t => ranked_sublist (h.ranked t) (fewer t)
  · exact fun t z hz => h.window t z ((fewer t).subset hz)
  · exact fun t z hz => h.positive t z ((fewer t).subset hz)

theorem trade (h : InWindow k L) {e : Event} (made : L.trade = some (L', e)) : InWindow k L' := by
  have both := Each.trade (P := fun o => o.priceLevel / priceWindow = k ∧ 0 < o.qty)
    (fun t o ho => ⟨h.window t o ho, h.positive t o ho⟩) (fun _ one => one.2)
    (fun o n one _ less => ⟨one.1, by simp only [afterFill]; omega⟩) made
  constructor
  · unfold LiveBook.trade at made
    split at made
    · rename_i bo bids ao asks buy sell
      split at made
      · cases made
      · cases made
        have bidsRanked := h.ranked .buy
        have asksRanked := h.ranked .sell
        rw [buy] at bidsRanked
        rw [sell] at asksRanked
        intro t
        cases t with
        | buy => exact ranked_fillFront bidsRanked _
        | sell => exact ranked_fillFront asksRanked _
    · cases made
  · exact fun t z hz => (both t z hz).1
  · exact fun t z hz => (both t z hz).2

theorem settle (h : InWindow k L) : InWindow k L.settle.1 ∧ L.settle.1.trade = none := by
  have rule := settle_rule (P := InWindow k) (Q := fun _ => True)
    (fun _ _ _ kept made => ⟨kept.trade made, trivial⟩) h
  exact ⟨rule.1, rule.2.1⟩

end InWindow

theorem sweep_left {t : OrderType} (xs : List Order) : ∀ {o o' : Order},
    (sweep t o xs).2.1 = some o' → o'.priceLevel = o.priceLevel := by
  induction xs with
  | nil =>
    intro o o' left
    cases left
    rfl
  | cons x xs ih =>
    intro o o' left
    unfold sweep at left
    split at left
    · split at left
      · cases left
      · split at left
        · cases left
        · exact ih (o := afterFill o x.qty) left
    · cases left
      rfl

/-- An order that arrives in a market at rest sweeps it. -/
theorem settle_send {k : Int} {L : LiveBook} (h : InWindow k L) (still : L.trade = none) {o : Order}
    (window : o.priceLevel / priceWindow = k) : (L.send o).settle = L.arrive o := by
  have apart := h.apart still o.orderType
  have positive := h.positive o.orderType.other
  have sent : L.send o = pair o.orderType (insert (slotRank o.orderType) o (L o.orderType))
      (L o.orderType.other) := by
    unfold LiveBook.send
    rw [eq_pair (Function.update L o.orderType _) o.orderType, Function.update_self,
      Function.update_of_ne (by cases o.orderType <;> simp [OrderType.other])]
  rw [sent]
  unfold arrive
  generalize kind : o.orderType = t at *
  cases own : L t with
  | nil =>
    rw [insert_nil, settle_pair t [] (L t.other) o (fun y hy => by cases hy) positive]
    simp only
    cases (sweep t o (L t.other)).2.1 <;> rfl
  | cons y ys =>
    rw [own] at apart
    by_cases first : slotRank t o < slotRank t y
    · -- the arrival leads its side, and so does what is left of it
      rw [insert_cons, if_pos first, settle_pair t (y :: ys) (L t.other) o apart positive]
      simp only
      cases left : (sweep t o (L t.other)).2.1 with
      | none => rfl
      | some o' =>
        have rank : slotRank t o' = slotRank t o := by
          unfold slotRank
          rw [sweep_left _ left]
        simp only [restWith, Option.toList_some, List.singleton_append]
        rw [insert_cons, if_pos (by omega)]
    · -- the front of its own side is at least as good, and suits nobody
      have worse : atLeastAsGood t y.priceLevel o.priceLevel := by
        have sorted : Ranked (slotRank t) [y, o] := by
          unfold Ranked
          simp only [List.pairwise_cons, List.mem_singleton, forall_eq, List.not_mem_nil]
          refine ⟨by omega, by simp⟩
        have prices := pairwise_price (k := k) sorted (by
          intro z hz
          rcases List.mem_cons.mp hz with rfl | last
          · exact h.window t z (by rw [own]; simp)
          · rw [List.mem_singleton.mp last]
            exact window)
        exact (List.pairwise_cons.mp prices).1 o (by simp)
      have swept : sweep t o (L t.other) = ([], some o, L t.other) := by
        cases other : L t.other with
        | nil => rfl
        | cons x xs =>
          unfold sweep
          rw [if_neg]
          intro suits
          exact apart y (by simp) x (by simp [other]) (suits_trans worse suits)
      rw [swept, insert_cons, if_neg first, settle_none]
      · simp only [restWith]
        rw [insert_cons, if_neg first]
      · cases other : L t.other with
        | nil => cases t <;> rfl
        | cons x xs =>
          rw [trade_pair, if_neg (apart y (by simp) x (by simp [other]))]

section Requests
variable {k : Int} {L : LiveBook}

theorem InWindow.still_kill (h : InWindow k L) (still : L.trade = none) (id : Int) :
    (L.kill id).trade = none := by
  rw [eq_pair (L.kill id) .buy]
  apply trade_apart
  intro y hy x hx
  exact h.apart still .buy y (List.mem_filter.mp hy).1 x (List.mem_filter.mp hx).1

theorem InWindow.dispatch (h : InWindow k L) {order : Order}
    (window : ∀ o, entry order = some o → o.priceLevel / priceWindow = k)
    (positive : ∀ o, entry order = some o → 0 < o.qty) : InWindow k (L.dispatch order) := by
  unfold LiveBook.dispatch
  cases kind : order.requestType with
  | sendOrder =>
    have booked : entry order = some order := by simp [entry, kind]
    exact h.send (window _ booked) (positive _ booked)
  | modifyOrder =>
    have booked : entry order = some { order with delId := 0 } := by simp [entry, kind]
    exact (h.kill _).send (window _ booked) (positive _ booked)
  | killOrder => exact h.kill _

/-- The book's own steps on a request, and what price-time priority asks of it. -/
theorem process_request (h : InWindow k L) (still : L.trade = none) {order : Order}
    (window : ∀ o, entry order = some o → o.priceLevel / priceWindow = k) :
    L.process order = L.request order := by
  unfold LiveBook.process LiveBook.dispatch request
  cases kind : order.requestType with
  | sendOrder => exact settle_send h still (window order (by simp [entry, kind]))
  | modifyOrder =>
    have booked : entry order = some { order with delId := 0 } := by simp [entry, kind]
    simpa only [LiveBook.modify, kind] using
      settle_send (h.kill order.delId) (h.still_kill still order.delId) (window _ booked)
  | killOrder => exact settle_none (h.still_kill still _)

/-- Orders for the prices of one window, each of a positive quantity. -/
structure OneWindow (k : Int) (orders : List Order) : Prop where
  window : ∀ o ∈ accepted orders, o.priceLevel / priceWindow = k
  positive : ∀ o ∈ accepted orders, 0 < o.qty

theorem OneWindow.head {order : Order} {orders : List Order} (h : OneWindow k (order :: orders)) :
    (∀ o, entry order = some o → o.priceLevel / priceWindow = k) ∧
      ∀ o, entry order = some o → 0 < o.qty := by
  have first : ∀ o, entry order = some o → o ∈ accepted (order :: orders) :=
    fun o booked => List.mem_filterMap.mpr ⟨order, by simp, booked⟩
  exact ⟨fun o booked => h.window o (first o booked), fun o booked => h.positive o (first o booked)⟩

theorem OneWindow.tail {order : Order} {orders : List Order} (h : OneWindow k (order :: orders)) :
    OneWindow k orders := by
  have later : ∀ o ∈ accepted orders, o ∈ accepted (order :: orders) := by
    intro o member
    obtain ⟨a, ha, booked⟩ := List.mem_filterMap.mp member
    exact List.mem_filterMap.mpr ⟨a, List.mem_cons_of_mem _ ha, booked⟩
  exact ⟨fun o member => h.window o (later o member), fun o member => h.positive o (later o member)⟩

theorem run_requests (orders : List Order) : ∀ {L : LiveBook}, InWindow k L → L.trade = none →
    OneWindow k orders → L.run orders = L.requests orders ∧ InWindow k (L.run orders).1 ∧
      (L.run orders).1.trade = none := by
  induction orders with
  | nil => exact fun h still _ => ⟨rfl, h, still⟩
  | cons order orders ih =>
    intro L h still one
    obtain ⟨window, positive⟩ := one.head
    have first := process_request h still window
    obtain ⟨after, still'⟩ := (h.dispatch window positive).settle
    obtain ⟨rest, last, quiet⟩ := ih (L := (L.process order).1) after still' one.tail
    constructor
    · unfold LiveBook.run requests
      rw [rest, first]
    · exact ⟨last, quiet⟩

end Requests
end LiveBook

theorem sweeps_of_market {orders : List Order} {b : OrderBook} {w : World} {k : Int}
    (market : Market orders b w (LiveBook.run (fun _ => []) orders).1
      (LiveBook.run (fun _ => []) orders).2) (one : LiveBook.OneWindow k orders) :
    tradesOf w.log = (LiveBook.requests (fun _ => []) orders).2 ∧
      ∀ t, b.live t = (LiveBook.requests (fun _ => []) orders).1 t := by
  obtain ⟨f, tracks, shows, trades⟩ := market
  have same := (LiveBook.run_requests orders (LiveBook.inWindow_new k) rfl one).1
  constructor
  · rw [trades, same]
  · intro t
    rw [live_eq tracks shows.ranked, shows.live, same]

end MarketBookExchange
