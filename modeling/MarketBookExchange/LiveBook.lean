import MarketBookExchange.EagerBook
import MarketBookExchange.TimePriority

/- What the market sees of a book: the live orders of each side. A kill takes its order out
   of these at once, whether the order leaves its queue then or later. -/
namespace MarketBookExchange
open RankedList Outcome KillFlagTable

/-- The live orders of each side, best slot first. -/
abbrev LiveBook := OrderType → List Order

namespace LiveBook

def send (L : LiveBook) (o : Order) : LiveBook :=
  Function.update L o.orderType (insert (slotRank o.orderType) o (L o.orderType))

def kill (L : LiveBook) (id : Int) : LiveBook := fun t => without id (L t)

def modify (L : LiveBook) (order : Order) : LiveBook :=
  (L.kill order.delId).send { order with delId := 0 }

def dispatch (L : LiveBook) (order : Order) : LiveBook :=
  match order.requestType with
  | .sendOrder => L.send order
  | .modifyOrder => L.modify order
  | .killOrder => L.kill order.delId

def trade (L : LiveBook) : Option (LiveBook × Event) :=
  match L .buy, L .sell with
  | bo :: bids, ao :: asks =>
    if bo.priceLevel < ao.priceLevel then none
    else
      let fillQty := min bo.qty ao.qty
      some (bySide (fillFront bo bids fillQty) (fillFront ao asks fillQty),
        .trade bo ao fillQty ao.priceLevel)
  | _, _ => none

def resting (L : LiveBook) : Nat := (L .buy).length + (L .sell).length

theorem length_fillFront (front : Order) (rest : List Order) (fillQty : Int) :
    (fillFront front rest fillQty).length ≤ rest.length + 1 ∧
    (front.qty - fillQty = 0 → (fillFront front rest fillQty).length = rest.length) := by
  rw [fillFront]
  split <;> simp_all

theorem trade_resting {L L' : LiveBook} {e : Event} (h : L.trade = some (L', e)) :
    L'.resting < L.resting := by
  rw [trade] at h
  split at h
  · rename_i bo bids ao asks buy sell
    split at h
    · cases h
    · cases h
      have bid := length_fillFront bo bids (min bo.qty ao.qty)
      have ask := length_fillFront ao asks (min bo.qty ao.qty)
      simp only [resting, buy, sell, bySide_buy, bySide_sell, List.length_cons]
      rcases le_total bo.qty ao.qty with less | less
      · have := bid.2 (by omega)
        omega
      · have := ask.2 (by omega)
        omega
  · cases h

/-- Trades until the fronts do not cross. -/
def settle (L : LiveBook) : LiveBook × List Event :=
  match _h : L.trade with
  | none => (L, [])
  | some (L', e) => ((settle L').1, e :: (settle L').2)
termination_by L.resting
decreasing_by all_goals exact trade_resting _h

theorem settle_none {L : LiveBook} (h : L.trade = none) : L.settle = (L, []) := by
  rw [settle]
  split
  · rfl
  · rename_i present
    rw [h] at present
    cases present

theorem settle_some {L L' : LiveBook} {e : Event} (h : L.trade = some (L', e)) :
    L.settle = (L'.settle.1, e :: L'.settle.2) := by
  rw [settle]
  split
  · rename_i nothing
    rw [h] at nothing
    cases nothing
  · rename_i present
    rw [h] at present
    cases present
    rfl

def process (L : LiveBook) (order : Order) : LiveBook × List Event := (L.dispatch order).settle

def run (L : LiveBook) : List Order → LiveBook × List Event
  | [] => (L, [])
  | order :: orders =>
    (((L.process order).1.run orders).1, (L.process order).2 ++ ((L.process order).1.run orders).2)

theorem run_append (L : LiveBook) (orders more : List Order) :
    L.run (orders ++ more) =
      (((L.run orders).1.run more).1, (L.run orders).2 ++ ((L.run orders).1.run more).2) := by
  induction orders generalizing L with
  | nil => rfl
  | cons order orders ih => simp [run, ih, List.append_assoc]

end LiveBook

/-- What lets the live orders be read off the queues of a book. -/
structure Sound (reqs : List Order) (f : FlagBook) : Prop where
  ranked : AllRanked f.queue
  distinct : (ids (f.queue .buy) ++ ids (f.queue .sell)).Nodup
  known : ∀ t, ∀ o ∈ f.queue t, o.orderId ∈ ids (accepted reqs)
  flagged : ∀ t, ∀ o ∈ f.queue t, f.flags o.orderId ≠ none

structure Shows (reqs : List Order) (f : FlagBook) (L : LiveBook) : Prop extends Sound reqs f where
  live : ∀ t, liveOrders f.flags (f.queue t) = L t

theorem sound_new : Sound [] {} := by
  constructor
  · exact fun _ => List.Pairwise.nil
  · simp [ids]
  · intro _ _ h
    cases h
  · intro _ _ h
    cases h

theorem Sound.shows {reqs : List Order} {f : FlagBook} (h : Sound reqs f) :
    Shows reqs f fun t => liveOrders f.flags (f.queue t) := ⟨h, fun _ => rfl⟩

theorem liveOrders_congr {m m' : Int → Option Bool} {l : List Order}
    (same : ∀ o ∈ l, m' o.orderId = some true ↔ m o.orderId = some true) :
    liveOrders m' l = liveOrders m l := by
  refine List.filter_congr fun o ho => ?_
  have iff := same o ho
  rcases flag : m o.orderId with _ | _ | _ <;> rcases flag' : m' o.orderId with _ | _ | _ <;>
    simp_all

theorem liveOrders_update {m : Int → Option Bool} {id : Int} {v : Option Bool} {l : List Order}
    (other : ∀ o ∈ l, o.orderId ≠ id) : liveOrders (Function.update m id v) l = liveOrders m l :=
  liveOrders_congr fun o ho => by rw [Function.update_of_ne (other o ho)]

theorem liveOrders_markKilled {m : Int → Option Bool} {id : Int} {l : List Order}
    (flagged : ∀ o ∈ l, m o.orderId ≠ none) :
    liveOrders (markKilled m id) l = without id (liveOrders m l) := by
  rw [without, liveOrders, liveOrders, List.filter_filter]
  refine List.filter_congr fun o ho => ?_
  have known := flagged o ho
  by_cases same : o.orderId = id
  · rw [← same, markKilled_self]
    obtain ⟨v, flag⟩ := Option.ne_none_iff_exists'.mp known
    simp [flag]
  · rw [markKilled_of_ne m same]
    simp [same]

section Shows
variable (registry : Registry) {reqs : List Order} {f f' : FlagBook} {L : LiveBook}

theorem Shows.send (h : Shows reqs f L) {order o : Order} (booked : entry order = some o)
    (unique : (ids (accepted (reqs ++ [order]))).Nodup) :
    Shows (reqs ++ [order]) (f.sendOrder o) (L.send o) := by
  rw [ids_accepted_append reqs booked] at unique
  have fresh : ∀ t, ∀ x ∈ f.queue t, x.orderId ≠ o.orderId := fun t x hx =>
    (List.nodup_append.mp unique).2.2 _ (h.known t x hx) _ (by simp)
  refine ⟨⟨h.ranked.replace (ranked_insert (h.ranked _) o), distinct_sendOrder h.distinct fresh,
    fun t x hx => ?_, fun t x hx => ?_⟩, fun t => ?_⟩
  · rw [ids_accepted_append reqs booked]
    rcases mem_sendOrder.mp hx with ⟨rfl, _⟩ | old
    · simp
    · exact List.mem_append_left _ (h.known t x old)
  · rcases mem_sendOrder.mp hx with ⟨rfl, _⟩ | old
    · simp [FlagBook.sendOrder]
    · simp only [FlagBook.sendOrder, Function.update_of_ne (fresh t x old)]
      exact h.flagged t x old
  · simp only [FlagBook.sendOrder, LiveBook.send]
    by_cases side : t = o.orderType
    · subst side
      rw [Function.update_self, Function.update_self, liveOrders, filter_insert (h.ranked _),
        if_pos (by simp), ← h.live]
      exact congrArg _ (liveOrders_update (fresh _))
    · rw [Function.update_of_ne side, Function.update_of_ne side, ← h.live]
      exact liveOrders_update (fresh t)

theorem Shows.mark (h : Shows reqs f L) (id : Int) :
    Shows reqs { f with flags := markKilled f.flags id } (L.kill id) := by
  refine ⟨⟨h.ranked, h.distinct, h.known, fun t o ho e => ?_⟩, fun t => ?_⟩
  · exact h.flagged t o ho (markKilled_none_iff.mp e)
  · rw [liveOrders_markKilled (h.flagged t), h.live]
    rfl

theorem Shows.untouched (h : Shows reqs f L) {order : Order} (nothing : entry order = none) :
    Shows (reqs ++ [order]) f L :=
  ⟨⟨h.ranked, h.distinct, fun t o ho => by
    rw [accepted_append_none reqs nothing]
    exact h.known t o ho, h.flagged⟩, h.live⟩

theorem Shows.dispatch (h : Shows reqs f L) (w : World) {order : Order}
    (unique : (ids (accepted (reqs ++ [order]))).Nodup) :
    Shows (reqs ++ [order]) (f.dispatch registry w order).1 (L.dispatch order) := by
  have killed := h.mark order.delId
  rw [← Reads.killOrder_fst registry w order] at killed
  rw [FlagBook.dispatch, LiveBook.dispatch]
  cases kind : order.requestType with
  | sendOrder => exact h.send (by simp [entry, kind]) unique
  | modifyOrder => exact killed.send (o := { order with delId := 0 }) (by simp [entry, kind]) unique
  | killOrder => exact killed.untouched (by simp [entry, kind])

theorem Shows.cancel (h : Shows reqs f L) {id : Int} (done : Cancelled f id f') :
    Shows reqs f' (L.kill id) := by
  have member : ∀ t x, x ∈ f'.queue t → x ∈ f.queue t ∧ x.orderId ≠ id := by
    intro t x hx
    rw [done.queue] at hx
    obtain ⟨old, ne⟩ := List.mem_filter.mp hx
    exact ⟨old, by simpa using ne⟩
  have flags : ∀ x : Order, x.orderId ≠ id → f'.flags x.orderId = f.flags x.orderId := by
    intro x ne
    rcases done.flags with same | gone
    · rw [same]
    · rw [gone, Function.update_of_ne ne]
  refine ⟨⟨fun t => ?_, ?_, fun t x hx => h.known t x (member t x hx).1, fun t x hx => ?_⟩,
    fun t => ?_⟩
  · rw [done.queue]
    exact ranked_sublist (h.ranked t) List.filter_sublist
  · rw [done.queue, done.queue]
    exact h.distinct.sublist ((List.filter_sublist.map _).append (List.filter_sublist.map _))
  · obtain ⟨old, ne⟩ := member t x hx
    rw [flags x ne]
    exact h.flagged t x old
  · rw [done.queue, liveOrders_congr (m := f.flags) fun x hx => by
      rw [flags x (by simpa using (List.mem_filter.mp hx).2)]]
    rw [without, liveOrders, List.filter_filter, LiveBook.kill, ← h.live, without, liveOrders,
      List.filter_filter]
    exact List.filter_congr fun x _ => Bool.and_comm _ _

theorem Shows.fewer (h : Shows reqs f L) {queue' : OrderType → List Order}
    {m' : Int → Option Bool} (ranked : AllRanked queue')
    (sub : ∀ t, (ids (queue' t)).Sublist (ids (f.queue t)))
    (flagged : ∀ t, ∀ o ∈ queue' t, m' o.orderId ≠ none) {L' : LiveBook}
    (live : ∀ t, liveOrders m' (queue' t) = L' t) : Shows reqs ⟨queue', m'⟩ L' := by
  refine ⟨⟨ranked, h.distinct.sublist ((sub .buy).append (sub .sell)), fun t o ho => ?_, flagged⟩,
    live⟩
  obtain ⟨x, hx, same⟩ := List.mem_map.mp ((sub t).subset (List.mem_map_of_mem ho))
  rw [← same]
  exact h.known t x hx

theorem Shows.evict (h : Shows reqs f L) {t : OrderType} {front : Order} {rest : List Order}
    (head : f.queue t = front :: rest) (killed : (f.flags front.orderId).getD false = true) :
    Shows reqs ⟨Function.update f.queue t rest, Function.update f.flags front.orderId none⟩ L := by
  have alone := front_alone h.distinct head
  have ranked := h.ranked t
  have fewer := rest_sublist head
  rw [head] at ranked
  refine h.fewer (h.ranked.replace (ranked_tail ranked)) (fun u => ?_) (fun u o ho => ?_)
    fun u => ?_
  · exact (fewer u).map _
  · rw [Function.update_of_ne (alone u o ho)]
    exact h.flagged u o ((fewer u).subset ho)
  · rw [liveOrders_update (alone u), ← h.live]
    by_cases same : u = t
    · subst same
      rw [Function.update_self, head]
      exact (List.filter_cons_of_neg (by simp [killed])).symm
    · rw [Function.update_of_ne same]

theorem Shows.drain {t : OrderType} {l : List Order} : ∀ {f : FlagBook} (w : World),
    Shows reqs f L → f.queue t = l →
    Shows reqs ⟨Function.update f.queue t (drainFlags registry l f.flags w).1,
      (drainFlags registry l f.flags w).2.1⟩ L ∧
    (drainFlags registry l f.flags w).1.head? = (L t).head? ∧
    tradesOf (drainFlags registry l f.flags w).2.2.log = tradesOf w.log := by
  induction l with
  | nil =>
    intro f w h empty
    refine ⟨?_, ?_, rfl⟩
    · rw [drainFlags, ← empty, Function.update_eq_self]
      exact h
    · rw [← h.live, empty]
      rfl
  | cons front rest ih =>
    intro f w h head
    rw [drainFlags]
    cases killed : (f.flags front.orderId).getD false with
    | true =>
      obtain ⟨shows, heads, quiet⟩ := ih
        ((w.writeIfLocked registry front.sessionId (.killConfirm front)).record (.evicted front))
        (h.evict head killed) (Function.update_self _ _ _)
      rw [Function.update_idem] at shows
      exact ⟨shows, heads, quiet.trans (tradesOf_evict registry w front)⟩
    | false =>
      refine ⟨?_, ?_, rfl⟩
      · simp only [Bool.false_eq_true, if_false]
        rw [← head, Function.update_eq_self]
        exact h
      · rw [← h.live, head, show liveOrders f.flags (front :: rest) = front :: liveOrders f.flags rest
          from List.filter_cons_of_pos (by simp [killed])]
        rfl

theorem Shows.drainBoth (h : Shows reqs f L) (w : World) :
    Shows reqs (f.drainBoth registry w).1 L ∧
    (∀ t, ((f.drainBoth registry w).1.queue t).head? = (L t).head?) ∧
    tradesOf (f.drainBoth registry w).2.log = tradesOf w.log := by
  obtain ⟨bids, bidHeads, bidQuiet⟩ := h.drain registry w rfl
  rw [update_buy] at bids
  obtain ⟨asks, askHeads, askQuiet⟩ := bids.drain registry (t := .sell)
    (drainFlags registry (f.queue .buy) f.flags w).2.2 rfl
  rw [update_sell] at asks
  refine ⟨asks, fun t => ?_, askQuiet.trans bidQuiet⟩
  cases t with
  | buy => exact bidHeads
  | sell => exact askHeads

theorem notifyFlags_cases (m : Int → Option Bool) (w : World) (order : Order)
    (fillQty remainingQty fillPrice : Int) :
    ((notifyFlags registry m w order fillQty remainingQty fillPrice).1 = m ∨
      remainingQty = 0 ∧ (notifyFlags registry m w order fillQty remainingQty fillPrice).1 =
        Function.update m order.orderId none) ∧
    Noted w (notifyFlags registry m w order fillQty remainingQty fillPrice).2 := by
  rw [notifyFlags, World.lock]
  cases registry w.lookups order.sessionId with
  | false => exact ⟨Or.inl rfl, ⟨[], by simp, by simp⟩⟩
  | true =>
    by_cases zero : remainingQty = 0
    · simp only [Bool.not_true, Bool.false_eq_true, if_false, if_pos zero]
      exact ⟨Or.inr ⟨zero, trivial⟩, ⟨_, rfl, by simp [Event.isNote]⟩⟩
    · simp only [Bool.not_true, Bool.false_eq_true, if_false, if_neg zero]
      exact ⟨Or.inl trivial, ⟨_, rfl, by simp [Event.isNote]⟩⟩

theorem Shows.fill (h : Shows reqs f L) {t : OrderType} {front : Order} {rest : List Order}
    (head : f.queue t = front :: rest) (lives : (L t).head? = some front) {fillQty : Int}
    {m' : Int → Option Bool} (flags : m' = f.flags ∨
      front.qty - fillQty = 0 ∧ m' = Function.update f.flags front.orderId none) :
    Shows reqs ⟨Function.update f.queue t (fillFront front rest fillQty), m'⟩
      (Function.update L t (fillFront front (L t).tail fillQty)) := by
  have alone := front_alone h.distinct head
  have ranked := h.ranked t
  have split : liveOrders f.flags (front :: rest) = L t := by rw [← head, h.live]
  have alive : (f.flags front.orderId).getD false = false := by
    have inside : front ∈ liveOrders f.flags (front :: rest) := by
      rw [split]
      exact List.mem_of_mem_head? lives
    simpa using (List.mem_filter.mp inside).2
  have tail : liveOrders f.flags rest = (L t).tail := by
    rw [← split, show liveOrders f.flags (front :: rest) = front :: liveOrders f.flags rest from
      List.filter_cons_of_pos (by simp [alive]), List.tail_cons]
  have sub : (ids (fillFront front rest fillQty)).Sublist (ids (front :: rest)) := by
    rw [ids_fillFront front rest fillQty]
    exact List.sublist_append_right _ _
  have others : ∀ u, u ≠ t → ∀ o ∈ f.queue u, o.orderId ≠ front.orderId := by
    intro u ne o ho
    exact alone u o (by rwa [Function.update_of_ne ne])
  have behind : ∀ o ∈ rest, o.orderId ≠ front.orderId := by
    intro o ho
    exact alone t o (by rwa [Function.update_self])
  have same : ∀ o : Order, o.orderId ≠ front.orderId → m' o.orderId = f.flags o.orderId := by
    intro o ne
    rcases flags with rfl | ⟨_, rfl⟩
    · rfl
    · rw [Function.update_of_ne ne]
  rw [head] at ranked
  refine h.fewer (h.ranked.replace (ranked_fillFront ranked fillQty)) (fun u => ?_)
    (fun u o ho => ?_) fun u => ?_
  · by_cases side : u = t
    · subst side
      rw [Function.update_self, head]
      exact sub
    · rw [Function.update_of_ne side]
  · by_cases side : u = t
    · subst side
      rw [Function.update_self] at ho
      rcases mem_fillFront ho with later | ⟨rfl, left⟩
      · rw [same o (behind o later)]
        exact h.flagged u o (by rw [head]; exact List.mem_cons_of_mem _ later)
      · rcases flags with rfl | ⟨zero, _⟩
        · exact h.flagged u front (by rw [head]; simp)
        · exact absurd zero left
    · rw [Function.update_of_ne side] at ho
      rw [same o (others u side o ho)]
      exact h.flagged u o ho
  · by_cases side : u = t
    · subst side
      rw [Function.update_self, Function.update_self, fillFront, fillFront]
      have remaining : liveOrders m' rest = (L u).tail := by
        rw [← tail]
        exact liveOrders_congr fun o ho => by rw [same o (behind o ho)]
      by_cases zero : front.qty - fillQty = 0
      · rw [if_pos zero, if_pos zero, remaining]
      · rw [if_neg zero, if_neg zero, ← remaining]
        have kept : m' = f.flags := flags.resolve_right fun h => zero h.1
        exact List.filter_cons_of_pos (by simp [kept, afterFill, alive])
    · rw [Function.update_of_ne side, Function.update_of_ne side, ← h.live]
      exact liveOrders_congr fun o ho => by rw [same o (others u side o ho)]

/-- With live fronts both books make the same trade, or none. -/
theorem Shows.matchBest (h : Shows reqs f L) (heads : ∀ t, (f.queue t).head? = (L t).head?)
    (w : World) :
    Option.Rel (fun x y => Shows reqs x.1 y.1 ∧ tradesOf x.2.log = tradesOf w.log ++ [y.2])
      (f.matchBest registry w) L.trade := by
  have headB := heads .buy
  have headA := heads .sell
  rw [FlagBook.matchBest, LiveBook.trade]
  cases buy : f.queue .buy with
  | nil =>
    rw [buy] at headB
    rw [List.head?_eq_none_iff.mp headB.symm]
    exact .none
  | cons bo bids =>
    cases sell : f.queue .sell with
    | nil =>
      rw [sell] at headA
      rw [List.head?_eq_none_iff.mp headA.symm]
      cases L .buy <;> exact .none
    | cons ao asks =>
      rw [buy] at headB
      rw [sell] at headA
      obtain ⟨liveBids, bidsEq⟩ := List.head?_eq_some_iff.mp headB.symm
      obtain ⟨liveAsks, asksEq⟩ := List.head?_eq_some_iff.mp headA.symm
      simp only [bidsEq, asksEq]
      by_cases apart : bo.priceLevel < ao.priceLevel
      · rw [if_pos apart, if_pos apart]
        exact .none
      rw [if_neg apart, if_neg apart]
      obtain ⟨bidFlags, bidTold⟩ := notifyFlags_cases registry f.flags
        (w.record (.trade bo ao (min bo.qty ao.qty) ao.priceLevel))
        (afterFill bo (min bo.qty ao.qty)) (min bo.qty ao.qty) (bo.qty - min bo.qty ao.qty)
        ao.priceLevel
      have bid := h.fill buy (by rw [bidsEq]; rfl) bidFlags
      rw [update_buy, update_buy, bidsEq, List.tail_cons] at bid
      cases told : notifyFlags registry f.flags _ (afterFill bo (min bo.qty ao.qty)) _ _ _ with
      | mk m₁ w₁ =>
      rw [told] at bid bidTold
      obtain ⟨askFlags, askTold⟩ := notifyFlags_cases registry m₁ w₁
        (afterFill ao (min bo.qty ao.qty)) (min bo.qty ao.qty) (ao.qty - min bo.qty ao.qty)
        ao.priceLevel
      have ask := bid.fill (t := .sell) sell (by rw [bySide_sell, asksEq]; rfl) askFlags
      rw [update_sell, update_sell, bySide_sell, asksEq, List.tail_cons] at ask
      refine .some ⟨ask, ?_⟩
      rw [tradesOf_noted (bidTold.trans askTold), World.record, tradesOf_append]
      rfl

/-- The matching loop settles the live orders, given rounds for all of them. -/
theorem Shows.updateLoop (fuel : Nat) : ∀ {f : FlagBook} {L : LiveBook} (w : World),
    Shows reqs f L → L.resting < fuel →
    Shows reqs (f.updateLoop registry fuel w).1 L.settle.1 ∧
    tradesOf (f.updateLoop registry fuel w).2.log = tradesOf w.log ++ L.settle.2 := by
  induction fuel with
  | zero => exact fun _ _ room => absurd room (Nat.not_lt_zero _)
  | succ fuel ih =>
    intro f L w h room
    obtain ⟨drained, heads, quiet⟩ := h.drainBoth registry w
    have rel := drained.matchBest registry heads (f.drainBoth registry w).2
    rw [FlagBook.updateLoop]
    simp only
    cases trade : L.trade with
    | none =>
      rw [trade] at rel
      cases matched : FlagBook.matchBest registry _ _ with
      | some x =>
        rw [matched] at rel
        cases rel
      | none =>
        rw [LiveBook.settle_none trade, List.append_nil]
        exact ⟨drained, quiet⟩
    | some y =>
      obtain ⟨L', e⟩ := y
      rw [trade] at rel
      cases matched : FlagBook.matchBest registry _ _ with
      | none =>
        rw [matched] at rel
        cases rel
      | some x =>
        obtain ⟨f', w'⟩ := x
        rw [matched] at rel
        cases rel with
        | some both =>
          obtain ⟨shows, made⟩ := both
          have fewer := LiveBook.trade_resting trade
          obtain ⟨after, all⟩ := ih w' shows (show L'.resting < fuel by omega)
          rw [LiveBook.settle_some trade]
          refine ⟨after, ?_⟩
          rw [all, made, quiet, List.append_assoc]
          rfl

theorem Shows.updateBook (h : Shows reqs f L) (w : World) :
    Shows reqs (f.updateBook registry w).1 L.settle.1 ∧
    tradesOf (f.updateBook registry w).2.log = tradesOf w.log ++ L.settle.2 := by
  refine Shows.updateLoop registry _ w h ?_
  have fewer : ∀ t, (L t).length ≤ (f.queue t).length := by
    intro t
    rw [← h.live]
    exact List.length_filter_le _ _
  have buys := fewer .buy
  have sells := fewer .sell
  simp only [LiveBook.resting, FlagBook.resting]
  omega

end Shows
end MarketBookExchange
