import MarketBookExchange.Runs
import Mathlib.Algebra.BigOperators.Group.List.Basic

/- Where the quantity of every accepted order is: in trades, in the book or in the evicted
   orders. The log keeps trades and evictions; nothing else moves quantity. -/
namespace MarketBookExchange
open RankedList Outcome

/-- The order a request books, if any. -/
def entry (order : Order) : Option Order :=
  match order.requestType with
  | .sendOrder => some order
  | .modifyOrder => some { order with delId := 0 }
  | .killOrder => none

/-- The orders booked by SEND and MODIFY, in order of arrival. -/
def accepted (reqs : List Order) : List Order := reqs.filterMap entry

def ids (l : List Order) : List Int := l.map Order.orderId

/-- What is left of an order that a request booked. -/
def PartOf (reqs : List Order) (o : Order) : Prop :=
  ∃ a ∈ accepted reqs, o = { a with qty := o.qty }

def qtyOf (id : Int) (l : List Order) : Int :=
  (l.map fun o => if o.orderId = id then o.qty else 0).sum

def Event.tradedQty (id : Int) : Event → Int
  | .trade bid ask fillQty _ =>
    (if bid.orderId = id then fillQty else 0) + (if ask.orderId = id then fillQty else 0)
  | _ => 0

def tradedQty (id : Int) (log : List Event) : Int := (log.map (Event.tradedQty id)).sum

def Event.evictedOrder : Event → Option Order
  | .evicted order => some order
  | _ => none

def evictedOrders (log : List Event) : List Order := log.filterMap Event.evictedOrder

section Sums
variable {id : Int}

@[simp] theorem qtyOf_nil : qtyOf id [] = 0 := rfl

theorem qtyOf_cons (o : Order) (l : List Order) :
    qtyOf id (o :: l) = (if o.orderId = id then o.qty else 0) + qtyOf id l := by
  simp [qtyOf]

theorem qtyOf_append (l m : List Order) : qtyOf id (l ++ m) = qtyOf id l + qtyOf id m := by
  simp [qtyOf]

theorem qtyOf_perm {l m : List Order} (h : l.Perm m) : qtyOf id l = qtyOf id m :=
  (h.map _).sum_eq

theorem tradedQty_append (log more : List Event) :
    tradedQty id (log ++ more) = tradedQty id log + tradedQty id more := by
  simp [tradedQty]

theorem evictedOrders_append (log more : List Event) :
    evictedOrders (log ++ more) = evictedOrders log ++ evictedOrders more := by
  simp [evictedOrders]

theorem accepted_append (reqs more : List Order) :
    accepted (reqs ++ more) = accepted reqs ++ accepted more := by
  simp [accepted]

theorem ids_accepted_append (reqs : List Order) {order o : Order} (h : entry order = some o) :
    ids (accepted (reqs ++ [order])) = ids (accepted reqs) ++ [o.orderId] := by
  rw [accepted_append]
  simp [accepted, ids, h]

theorem accepted_append_none (reqs : List Order) {order : Order} (h : entry order = none) :
    accepted (reqs ++ [order]) = accepted reqs := by
  rw [accepted_append]
  simp [accepted, h]

theorem nodup_accepted_left {reqs more : List Order}
    (h : (ids (accepted (reqs ++ more))).Nodup) : (ids (accepted reqs)).Nodup := by
  rw [accepted_append, ids, List.map_append] at h
  exact (List.nodup_append.mp h).1

theorem mem_accepted_left {reqs more : List Order} {key : Int} (h : key ∈ ids (accepted reqs)) :
    key ∈ ids (accepted (reqs ++ more)) := by
  rw [accepted_append, ids, List.map_append]
  exact List.mem_append_left _ h

theorem mem_accepted_right {order : Order} {reqs : List Order} {key : Int}
    (h : key ∈ ids (accepted reqs)) : key ∈ ids (accepted (order :: reqs)) := by
  rw [show order :: reqs = [order] ++ reqs from rfl, accepted_append, ids, List.map_append]
  exact List.mem_append_right _ h

theorem qtyOf_of_not_mem {l : List Order} (h : id ∉ ids l) : qtyOf id l = 0 := by
  induction l with
  | nil => rfl
  | cons o l ih =>
    simp only [ids, List.map_cons, List.mem_cons, not_or] at h
    rw [qtyOf_cons, if_neg (Ne.symm h.1), ih h.2]
    rfl

theorem qtyOf_of_mem {l : List Order} (nodup : (ids l).Nodup) {o : Order} (h : o ∈ l) :
    qtyOf o.orderId l = o.qty := by
  induction l with
  | nil => cases h
  | cons x l ih =>
    obtain ⟨fresh, rest⟩ := List.nodup_cons.mp nodup
    rw [qtyOf_cons]
    rcases List.mem_cons.mp h with rfl | later
    · rw [if_pos rfl, qtyOf_of_not_mem fresh, Int.add_zero]
    · have ne : x.orderId ≠ o.orderId := fun e => fresh (e ▸ List.mem_map_of_mem later)
      rw [if_neg ne, ih rest later, Int.zero_add]

end Sums

/-- A notice or a broadcast moves no quantity. -/
def Event.isNote : Event → Bool
  | .write _ _ => true
  | .broadcast _ _ _ => true
  | _ => false

theorem tradedQty_notes {id : Int} {notes : List Event} (h : ∀ e ∈ notes, e.isNote) :
    tradedQty id notes = 0 := by
  induction notes with
  | nil => rfl
  | cons e notes ih =>
    have rest := ih fun x hx => h x (by simp [hx])
    have note := h e (by simp)
    rw [tradedQty, List.map_cons, List.sum_cons, ← tradedQty, rest]
    cases e with
    | write _ _ => rfl
    | broadcast _ _ _ => rfl
    | trade _ _ _ _ => cases note
    | evicted _ => cases note

theorem evictedOrders_notes {notes : List Event} (h : ∀ e ∈ notes, e.isNote) :
    evictedOrders notes = [] := by
  rw [evictedOrders, List.filterMap_eq_nil_iff]
  intro e he
  have note := h e he
  cases e with
  | write _ _ => rfl
  | broadcast _ _ _ => rfl
  | trade _ _ _ _ => cases note
  | evicted _ => cases note

def Event.isTrade : Event → Bool
  | .trade _ _ _ _ => true
  | _ => false

def tradesOf (log : List Event) : List Event := log.filter Event.isTrade

theorem tradesOf_append (log more : List Event) :
    tradesOf (log ++ more) = tradesOf log ++ tradesOf more := List.filter_append _ _

theorem tradesOf_notes {notes : List Event} (h : ∀ e ∈ notes, e.isNote) : tradesOf notes = [] := by
  rw [tradesOf, List.filter_eq_nil_iff]
  intro e he
  have note := h e he
  cases e with
  | write _ _ => simp [Event.isTrade]
  | broadcast _ _ _ => simp [Event.isTrade]
  | trade _ _ _ _ => cases note
  | evicted _ => cases note

/-- `w'` is `w` with nothing but notices added to its log. -/
def Noted (w w' : World) : Prop := ∃ notes, w'.log = w.log ++ notes ∧ ∀ e ∈ notes, e.isNote

theorem noted_refl (w : World) : Noted w w := ⟨[], by simp, by simp⟩

theorem Noted.trans {w w' w'' : World} (h : Noted w w') (h' : Noted w' w'') : Noted w w'' := by
  obtain ⟨notes, eq, all⟩ := h
  obtain ⟨notes', eq', all'⟩ := h'
  refine ⟨notes ++ notes', by rw [eq', eq, List.append_assoc], fun e he => ?_⟩
  rcases List.mem_append.mp he with first | second
  · exact all e first
  · exact all' e second

theorem noted_writeIfLocked (registry : Registry) (w : World) (sessionId : Int)
    (response : Response) : Noted w (w.writeIfLocked registry sessionId response) := by
  rw [World.writeIfLocked, World.lock]
  cases registry w.lookups sessionId with
  | true => exact ⟨[.write sessionId response], rfl, by simp [Event.isNote]⟩
  | false => exact ⟨[], by simp, by simp⟩

theorem noted_notifyFill {registry : Registry} {w w' : World} {kt kt' : KillFlagTable}
    {order : Order} {fillQty remainingQty fillPrice : Int}
    (run : notifyFill registry kt w order fillQty remainingQty fillPrice = .ok (kt', w')) :
    Noted w w' := by
  rcases notifyFill_cases run with ⟨_, _, rfl⟩ | ⟨_, _, _, rfl⟩ | ⟨_, _, _, rfl⟩
  · exact ⟨[], by simp, by simp⟩
  · exact ⟨_, rfl, by simp [Event.isNote]⟩
  · exact ⟨_, rfl, by simp [Event.isNote]⟩

theorem Trade.log_eq {registry : Registry} {q q' : QueueBook} {w w' w₁ : World} {bo ao : Order}
    {bids asks : List Order} {kt : KillFlagTable}
    (trade : Trade registry q w q' w' bo ao bids asks kt w₁) :
    ∃ notes, w'.log = w.log ++ .trade bo ao (min bo.qty ao.qty) ao.priceLevel :: notes ∧
      ∀ e ∈ notes, e.isNote := by
  obtain ⟨notes, eq, all⟩ := (noted_notifyFill trade.bidTold).trans (noted_notifyFill trade.askTold)
  refine ⟨notes, ?_, all⟩
  rw [eq, World.record]
  simp

theorem qtyOf_fillFront {id : Int} (front : Order) (rest : List Order) (fillQty : Int) :
    qtyOf id (fillFront front rest fillQty) =
      qtyOf id (front :: rest) - if front.orderId = id then fillQty else 0 := by
  rw [fillFront, qtyOf_cons]
  split
  · split <;> omega
  · rw [qtyOf_cons]
    simp only [afterFill]
    split <;> omega

/-- Where the accepted orders are and how much of each. -/
structure Ledger (reqs : List Order) (queue : OrderType → List Order) (log : List Event) :
    Prop where
  balance : ∀ id, tradedQty id log + qtyOf id (queue .buy) + qtyOf id (queue .sell) +
    qtyOf id (evictedOrders log) = qtyOf id (accepted reqs)
  places : ∃ filled, (ids (queue .buy) ++ ids (queue .sell) ++ ids (evictedOrders log) ++
    filled).Perm (ids (accepted reqs))
  resting : ∀ t, ∀ o ∈ queue t, o.orderType = t ∧ PartOf reqs o
  evicted : ∀ o ∈ evictedOrders log, PartOf reqs o
  trades : ∀ bid ask fillQty fillPrice, .trade bid ask fillQty fillPrice ∈ log →
    (bid.orderType = .buy ∧ PartOf reqs bid ∧ fillPrice ≤ bid.priceLevel ∧ fillQty ≤ bid.qty) ∧
    ask.orderType = .sell ∧ PartOf reqs ask ∧ ask.priceLevel ≤ fillPrice ∧ fillQty ≤ ask.qty

theorem rest_sublist {queue : OrderType → List Order} {t : OrderType} {front : Order}
    {rest : List Order} (head : queue t = front :: rest) (u : OrderType) :
    (Function.update queue t rest u).Sublist (queue u) := by
  by_cases side : u = t
  · subst side
    rw [Function.update_self, head]
    exact List.sublist_cons_self _ _
  · rw [Function.update_of_ne side]

namespace Ledger
variable {reqs : List Order} {queue queue' : OrderType → List Order} {log log' : List Event}

theorem new : Ledger [] (fun _ => []) [] := by
  refine ⟨fun _ => rfl, ⟨[], List.Perm.refl _⟩, ?_, ?_, ?_⟩
  · intro _ _ h
    cases h
  · intro _ h
    cases h
  · intro _ _ _ _ h
    cases h

theorem note (h : Ledger reqs queue log) {notes : List Event} (all : ∀ e ∈ notes, e.isNote) :
    Ledger reqs queue (log ++ notes) := by
  have evicted_eq : evictedOrders (log ++ notes) = evictedOrders log := by
    rw [evictedOrders_append, evictedOrders_notes all, List.append_nil]
  refine ⟨fun id => ?_, ?_, h.resting, ?_, ?_⟩
  · rw [evicted_eq, tradedQty_append, tradedQty_notes all, Int.add_zero]
    exact h.balance id
  · rw [evicted_eq]
    exact h.places
  · rw [evicted_eq]
    exact h.evicted
  · intro bid ask fillQty fillPrice mem
    rcases List.mem_append.mp mem with old | new
    · exact h.trades bid ask fillQty fillPrice old
    · exact absurd (all _ new) (by simp [Event.isNote])

theorem kill (h : Ledger reqs queue log) {order : Order} (nothing : entry order = none) :
    Ledger (reqs ++ [order]) queue log := by
  have same := accepted_append_none reqs nothing
  have parts : PartOf (reqs ++ [order]) = PartOf reqs := by
    funext o
    unfold PartOf
    rw [same]
  exact ⟨by rw [same]; exact h.balance, by rw [same]; exact h.places, by rw [parts]; exact h.resting,
    by rw [parts]; exact h.evicted, by rw [parts]; exact h.trades⟩

theorem accept (h : Ledger reqs queue log) {order o : Order} (booked : entry order = some o) :
    Ledger (reqs ++ [order]) (Function.update queue o.orderType
      (insert (slotRank o.orderType) o (queue o.orderType))) log := by
  have more : accepted (reqs ++ [order]) = accepted reqs ++ [o] := by
    rw [accepted_append]
    simp [accepted, booked]
  have perm : (insert (slotRank o.orderType) o (queue o.orderType)).Perm
      (o :: queue o.orderType) := perm_insert o _
  have kept : ∀ {x : Order}, PartOf reqs x → PartOf (reqs ++ [order]) x := by
    rintro x ⟨a, ha, eq⟩
    exact ⟨a, by rw [more]; exact List.mem_append_left _ ha, eq⟩
  refine ⟨fun id => ?_, ?_, ?_, ?_, ?_⟩
  · have before := h.balance id
    rw [more, qtyOf_append, ← before, qtyOf_cons, qtyOf_nil]
    cases side : o.orderType with
    | buy =>
      rw [side] at perm
      rw [Function.update_self, Function.update_of_ne (by simp), qtyOf_perm perm, qtyOf_cons]
      omega
    | sell =>
      rw [side] at perm
      rw [Function.update_self, Function.update_of_ne (by simp), qtyOf_perm perm, qtyOf_cons]
      omega
  · obtain ⟨filled, before⟩ := h.places
    refine ⟨filled, ?_⟩
    have permIds : (ids (insert (slotRank o.orderType) o (queue o.orderType))).Perm
        (o.orderId :: ids (queue o.orderType)) := perm.map _
    rw [more, List.perm_iff_count] at *
    intro id
    have counts := before id
    have one := permIds id
    have last : ids (accepted reqs ++ [o]) = ids (accepted reqs) ++ [o.orderId] := by
      simp [ids]
    rw [last]
    cases side : o.orderType with
    | buy =>
      rw [side] at one
      rw [Function.update_self, Function.update_of_ne (by simp)]
      simp only [List.count_append, List.count_cons, List.count_nil] at *
      omega
    | sell =>
      rw [side] at one
      rw [Function.update_self, Function.update_of_ne (by simp)]
      simp only [List.count_append, List.count_cons, List.count_nil] at *
      omega
  · intro t x hx
    by_cases same : t = o.orderType
    · subst same
      rw [Function.update_self] at hx
      rcases mem_insert.mp hx with rfl | old
      · exact ⟨rfl, x, by simp [more], rfl⟩
      · obtain ⟨side, origin⟩ := h.resting _ x old
        exact ⟨side, kept origin⟩
    · rw [Function.update_of_ne same] at hx
      obtain ⟨side, origin⟩ := h.resting _ x hx
      exact ⟨side, kept origin⟩
  · exact fun x hx => kept (h.evicted x hx)
  · intro bid ask fillQty fillPrice mem
    obtain ⟨⟨buy, bidFrom, high, enough⟩, sell, askFrom, low⟩ := h.trades _ _ _ _ mem
    exact ⟨⟨buy, kept bidFrom, high, enough⟩, sell, kept askFrom, low⟩

theorem evict (h : Ledger reqs queue log) {t : OrderType} {front : Order} {rest : List Order}
    (head : queue t = front :: rest) :
    Ledger reqs (Function.update queue t rest) (log ++ [.evicted front]) := by
  have gone : evictedOrders (log ++ [.evicted front]) = evictedOrders log ++ [front] := by
    rw [evictedOrders_append]
    rfl
  have quiet : ∀ id, tradedQty id (log ++ [.evicted front]) = tradedQty id log := by
    intro id
    rw [tradedQty_append]
    simp [tradedQty, Event.tradedQty]
  refine ⟨fun id => ?_, ?_, ?_, ?_, ?_⟩
  · have before := h.balance id
    rw [quiet, gone, qtyOf_append, qtyOf_cons, qtyOf_nil, ← before]
    cases t with
    | buy =>
      rw [Function.update_self, Function.update_of_ne (by simp), head, qtyOf_cons]
      omega
    | sell =>
      rw [Function.update_self, Function.update_of_ne (by simp), head, qtyOf_cons]
      omega
  · obtain ⟨filled, before⟩ := h.places
    refine ⟨filled, ?_⟩
    have last : ids (evictedOrders log ++ [front]) = ids (evictedOrders log) ++ [front.orderId] := by
      simp [ids]
    rw [gone, last, List.perm_iff_count] at *
    intro id
    have counts := before id
    have first : ids (front :: rest) = front.orderId :: ids rest := rfl
    cases t with
    | buy =>
      rw [head, first] at counts
      rw [Function.update_self, Function.update_of_ne (by simp)]
      simp only [List.count_append, List.count_cons, List.count_nil] at *
      omega
    | sell =>
      rw [head, first] at counts
      rw [Function.update_self, Function.update_of_ne (by simp)]
      simp only [List.count_append, List.count_cons, List.count_nil] at *
      omega
  · exact fun u x hx => h.resting u x ((rest_sublist head u).subset hx)
  · intro x hx
    rw [gone] at hx
    rcases List.mem_append.mp hx with old | new
    · exact h.evicted x old
    · rw [List.mem_singleton.mp new]
      exact (h.resting t front (by rw [head]; simp)).2
  · intro bid ask fillQty fillPrice mem
    rcases List.mem_append.mp mem with old | new
    · exact h.trades bid ask fillQty fillPrice old
    · simp at new

end Ledger

theorem ids_fillFront (front : Order) (rest : List Order) (fillQty : Int) :
    ids (front :: rest) =
      (if front.qty - fillQty = 0 then [front.orderId] else []) ++
        ids (fillFront front rest fillQty) := by
  rw [fillFront]
  split <;> rfl

theorem mem_fillFront {front o : Order} {rest : List Order} {fillQty : Int}
    (h : o ∈ fillFront front rest fillQty) :
    o ∈ rest ∨ o = afterFill front fillQty ∧ o.qty ≠ 0 := by
  rw [fillFront] at h
  split at h
  · exact Or.inl h
  · rename_i left
    rcases List.mem_cons.mp h with rfl | later
    · exact Or.inr ⟨rfl, left⟩
    · exact Or.inl later

theorem fillFronts_keep {P : OrderType → Order → Prop} {queue : OrderType → List Order}
    (h : ∀ t, ∀ o ∈ queue t, P t o) {bo ao : Order} {bids asks : List Order}
    (buy : queue .buy = bo :: bids) (sell : queue .sell = ao :: asks) {fillQty : Int}
    (bid : (afterFill bo fillQty).qty ≠ 0 → P .buy (afterFill bo fillQty))
    (ask : (afterFill ao fillQty).qty ≠ 0 → P .sell (afterFill ao fillQty)) :
    ∀ t, ∀ o ∈ bySide (fillFront bo bids fillQty) (fillFront ao asks fillQty) t, P t o := by
  intro t o ho
  cases t with
  | buy =>
    rcases mem_fillFront ho with later | ⟨rfl, left⟩
    · exact h .buy o (by rw [buy]; exact List.mem_cons_of_mem _ later)
    · exact bid left
  | sell =>
    rcases mem_fillFront ho with later | ⟨rfl, left⟩
    · exact h .sell o (by rw [sell]; exact List.mem_cons_of_mem _ later)
    · exact ask left

theorem PartOf.afterFill {reqs : List Order} {o : Order} (h : PartOf reqs o) (fillQty : Int) :
    PartOf reqs (afterFill o fillQty) := by
  obtain ⟨a, ha, eq⟩ := h
  exact ⟨a, ha, by rw [MarketBookExchange.afterFill, eq]⟩

theorem Ledger.fill {reqs : List Order} {queue : OrderType → List Order} {log : List Event}
    (h : Ledger reqs queue log) {bo ao : Order} {bids asks : List Order}
    (buy : queue .buy = bo :: bids) (sell : queue .sell = ao :: asks)
    (crossed : ao.priceLevel ≤ bo.priceLevel) :
    Ledger reqs (bySide (fillFront bo bids (min bo.qty ao.qty))
        (fillFront ao asks (min bo.qty ao.qty)))
      (log ++ [.trade bo ao (min bo.qty ao.qty) ao.priceLevel]) := by
  obtain ⟨boSide, boFrom⟩ := h.resting .buy bo (by rw [buy]; simp)
  obtain ⟨aoSide, aoFrom⟩ := h.resting .sell ao (by rw [sell]; simp)
  have evicted_eq : evictedOrders (log ++ [.trade bo ao (min bo.qty ao.qty) ao.priceLevel]) =
      evictedOrders log := by
    rw [evictedOrders_append]
    simp [evictedOrders, Event.evictedOrder]
  refine ⟨fun id => ?_, ?_, ?_, ?_, ?_⟩
  · have before := h.balance id
    rw [evicted_eq, tradedQty_append, bySide_buy, bySide_sell, qtyOf_fillFront, qtyOf_fillFront,
      ← before, buy, sell]
    simp only [tradedQty, List.map_cons, List.map_nil, List.sum_cons, List.sum_nil,
      Event.tradedQty]
    omega
  · obtain ⟨filled, before⟩ := h.places
    refine ⟨filled ++ (if bo.qty - min bo.qty ao.qty = 0 then [bo.orderId] else []) ++
      (if ao.qty - min bo.qty ao.qty = 0 then [ao.orderId] else []), ?_⟩
    rw [evicted_eq, bySide_buy, bySide_sell]
    rw [buy, sell, ids_fillFront bo bids (min bo.qty ao.qty),
      ids_fillFront ao asks (min bo.qty ao.qty)] at before
    rw [List.perm_iff_count] at *
    intro id
    have counts := before id
    simp only [List.count_append] at *
    omega
  · apply fillFronts_keep h.resting buy sell
    · exact fun _ => ⟨boSide, boFrom.afterFill _⟩
    · exact fun _ => ⟨aoSide, aoFrom.afterFill _⟩
  · rw [evicted_eq]
    exact h.evicted
  · intro bid ask fillQty fillPrice mem
    rcases List.mem_append.mp mem with old | new
    · exact h.trades bid ask fillQty fillPrice old
    · simp only [List.mem_singleton, Event.trade.injEq] at new
      obtain ⟨rfl, rfl, rfl, rfl⟩ := new
      exact ⟨⟨boSide, boFrom, crossed, min_le_left _ _⟩, aoSide, aoFrom, Int.le_refl _,
        min_le_right _ _⟩

structure Positive (queue : OrderType → List Order) (log : List Event) : Prop where
  resting : ∀ t, ∀ o ∈ queue t, 0 < o.qty
  evicted : ∀ o ∈ evictedOrders log, 0 < o.qty
  trades : ∀ bid ask fillQty fillPrice, .trade bid ask fillQty fillPrice ∈ log → 0 < fillQty

theorem killOrder_keeps {registry : Registry} {q q' : QueueBook} {w w' : World} {order : Order}
    (run : q.killOrder registry w order = .ok (q', w')) : q'.queue = q.queue ∧ Noted w w' := by
  rcases QueueBook.killOrder_cases run with ⟨_, rfl, rfl⟩ | ⟨kf, kt, _, _, rfl, rfl⟩
  · exact ⟨rfl, noted_writeIfLocked _ _ _ _⟩
  · exact ⟨rfl, noted_refl _⟩

/-- What a request does to the queues: nothing for KILL, one arrival else. -/
theorem dispatch_queue {registry : Registry} {q q' : QueueBook} {w w' : World} {order : Order}
    (run : q.dispatch registry w order = .ok (q', w')) :
    Noted w w' ∧ (entry order = none ∧ q'.queue = q.queue ∨
      ∃ o, entry order = some o ∧ q'.queue = Function.update q.queue o.orderType
        (insert (slotRank o.orderType) o (q.queue o.orderType))) := by
  rw [QueueBook.dispatch] at run
  cases kind : order.requestType with
  | sendOrder =>
    rw [kind] at run
    obtain ⟨q₁, sent, run⟩ := bind_ok run
    cases run
    obtain ⟨kt, _, rfl⟩ := QueueBook.sendOrder_cases sent
    exact ⟨noted_refl _, Or.inr ⟨order, by simp [entry, kind], rfl⟩⟩
  | modifyOrder =>
    rw [kind] at run
    obtain ⟨q₁, killed, sent⟩ := QueueBook.modifyOrder_cases run
    obtain ⟨kept, noted⟩ := killOrder_keeps killed
    obtain ⟨kt, _, rfl⟩ := QueueBook.sendOrder_cases sent
    refine ⟨noted, Or.inr ⟨{ order with delId := 0 }, by simp [entry, kind], ?_⟩⟩
    simp only [kept]
  | killOrder =>
    rw [kind] at run
    obtain ⟨kept, noted⟩ := killOrder_keeps run
    exact ⟨noted, Or.inl ⟨by simp [entry, kind], kept⟩⟩

theorem noted_evict (registry : Registry) (w : World) (front : Order) :
    ∃ notes, ((w.writeIfLocked registry front.sessionId (.killConfirm front)).record
      (.evicted front)).log = w.log ++ notes ++ [.evicted front] ∧ ∀ e ∈ notes, e.isNote := by
  obtain ⟨notes, eq, all⟩ := noted_writeIfLocked registry w front.sessionId (.killConfirm front)
  exact ⟨notes, by rw [World.record, eq], all⟩

theorem tradesOf_noted {w w' : World} (h : Noted w w') : tradesOf w'.log = tradesOf w.log := by
  obtain ⟨notes, eq, all⟩ := h
  rw [eq, tradesOf_append, tradesOf_notes all, List.append_nil]

theorem tradesOf_evict (registry : Registry) (w : World) (front : Order) :
    tradesOf ((w.writeIfLocked registry front.sessionId (.killConfirm front)).record
      (.evicted front)).log = tradesOf w.log := by
  obtain ⟨notes, logs, all⟩ := noted_evict registry w front
  rw [logs, tradesOf_append, tradesOf_append, tradesOf_notes all, List.append_nil]
  exact List.append_nil _

/-- The ledger holds in every state of every run. -/
theorem reach_ledger {registry : Registry} {reqs : List Order} {phase : Phase} {q : QueueBook}
    {w : World} (reach : Reach registry reqs phase q w) : Ledger reqs q.queue w.log := by
  induction reach with
  | new => exact Ledger.new
  | request order before call allowed ih =>
    obtain ⟨⟨notes, logs, all⟩, ⟨nothing, same⟩ | ⟨o, booked, same⟩⟩ := dispatch_queue call
    · rw [same, logs]
      exact (ih.kill nothing).note all
    · rw [same, logs]
      exact (ih.accept booked).note all
  | @evicted _ _ _ w front _ _ before head killed erased ih =>
    obtain ⟨notes, logs, all⟩ := noted_evict registry w front
    rw [logs]
    exact (ih.note all).evict head
  | bidsDrained before alive ih => exact ih
  | asksDrained before alive ih => exact ih
  | traded before call allowed ih =>
    obtain ⟨bo, ao, bids, asks, kt, w₁, trade⟩ := QueueBook.matchBest_some call
    obtain ⟨notes, logs, all⟩ := trade.log_eq
    rw [trade.queue, logs, List.append_cons]
    exact (ih.fill trade.buy trade.sell trade.crossed).note all
  | settled before call ih => exact ih

theorem Positive.note {queue : OrderType → List Order} {log notes : List Event}
    (h : Positive queue log) (all : ∀ e ∈ notes, e.isNote) : Positive queue (log ++ notes) := by
  refine ⟨h.resting, ?_, ?_⟩
  · rw [evictedOrders_append, evictedOrders_notes all, List.append_nil]
    exact h.evicted
  · intro bid ask fillQty fillPrice mem
    rcases List.mem_append.mp mem with old | new
    · exact h.trades bid ask fillQty fillPrice old
    · exact absurd (all _ new) (by simp [Event.isNote])

theorem Positive.evict {queue : OrderType → List Order} {log : List Event}
    (h : Positive queue log) {t : OrderType} {front : Order} {rest : List Order}
    (head : queue t = front :: rest) :
    Positive (Function.update queue t rest) (log ++ [.evicted front]) := by
  refine ⟨fun u x hx => h.resting u x ((rest_sublist head u).subset hx), ?_, ?_⟩
  · intro x hx
    rw [evictedOrders_append] at hx
    rcases List.mem_append.mp hx with earlier | new
    · exact h.evicted x earlier
    · rw [List.mem_singleton.mp new]
      exact h.resting t front (by rw [head]; simp)
  · intro bid ask fillQty fillPrice mem
    rcases List.mem_append.mp mem with earlier | new
    · exact h.trades bid ask fillQty fillPrice earlier
    · simp at new

theorem Positive.fill {queue : OrderType → List Order} {log : List Event}
    (h : Positive queue log) {bo ao : Order} {bids asks : List Order}
    (buy : queue .buy = bo :: bids) (sell : queue .sell = ao :: asks) :
    Positive (bySide (fillFront bo bids (min bo.qty ao.qty))
        (fillFront ao asks (min bo.qty ao.qty)))
      (log ++ [.trade bo ao (min bo.qty ao.qty) ao.priceLevel]) := by
  have boPos := h.resting .buy bo (by rw [buy]; simp)
  have aoPos := h.resting .sell ao (by rw [sell]; simp)
  refine ⟨fillFronts_keep (P := fun _ o => 0 < o.qty) h.resting buy sell ?_ ?_, ?_, ?_⟩
  · intro left
    simp only [afterFill] at *
    omega
  · intro left
    simp only [afterFill] at *
    omega
  · rw [evictedOrders_append]
    simpa [evictedOrders, Event.evictedOrder] using h.evicted
  · intro bid ask fillQty fillPrice mem
    rcases List.mem_append.mp mem with old | new
    · exact h.trades bid ask fillQty fillPrice old
    · simp only [List.mem_singleton, Event.trade.injEq] at new
      obtain ⟨rfl, rfl, rfl, rfl⟩ := new
      omega

theorem reach_positive {registry : Registry} {reqs : List Order} {phase : Phase} {q : QueueBook}
    {w : World} (reach : Reach registry reqs phase q w) (pos : ∀ o ∈ accepted reqs, 0 < o.qty) :
    Positive q.queue w.log := by
  induction reach with
  | new => exact ⟨fun _ _ h => (by cases h), fun _ h => (by cases h), fun _ _ _ _ h => (by cases h)⟩
  | request order before call allowed ih =>
    rw [accepted_append] at pos
    have old := ih fun o ho => pos o (List.mem_append_left _ ho)
    obtain ⟨⟨notes, logs, all⟩, ⟨nothing, same⟩ | ⟨o, booked, same⟩⟩ := dispatch_queue call
    · rw [same, logs]
      exact old.note all
    · rw [same, logs]
      refine Positive.note ⟨fun t x hx => ?_, old.evicted, old.trades⟩ all
      by_cases side : t = o.orderType
      · subst side
        rw [Function.update_self] at hx
        rcases mem_insert.mp hx with rfl | earlier
        · exact pos x (List.mem_append_right _ (by simp [accepted, booked]))
        · exact old.resting _ x earlier
      · rw [Function.update_of_ne side] at hx
        exact old.resting _ x hx
  | @evicted _ t _ w front _ _ before head killed erased ih =>
    have old := ih pos
    obtain ⟨notes, logs, all⟩ := noted_evict registry w front
    rw [logs]
    exact (old.note all).evict head
  | bidsDrained before alive ih => exact ih pos
  | asksDrained before alive ih => exact ih pos
  | traded before call allowed ih =>
    obtain ⟨bo, ao, bids, asks, kt, w₁, trade⟩ := QueueBook.matchBest_some call
    obtain ⟨notes, logs, all⟩ := trade.log_eq
    rw [trade.queue, logs, List.append_cons]
    exact ((ih pos).fill trade.buy trade.sell).note all
  | settled before call ih => exact ih pos

end MarketBookExchange
