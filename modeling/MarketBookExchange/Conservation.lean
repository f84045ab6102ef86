import MarketBookExchange.FlagBook

/- Between requests every accepted order rests, is filled or was evicted after a kill, and
   what it brought is what it traded plus what is left of it there. -/
namespace MarketBookExchange
open Outcome KillFlagTable

inductive Fate where
  | resting (left : Int)
  | filled
  | evicted (left : Int)

def Fate.left : Fate → Int
  | .resting left => left
  | .filled => 0
  | .evicted left => left

/-- What is left of the order is in one level of its own side, once, and in no other level of
    the book. -/
def RestsOnce (b : OrderBook) (a : Order) (left : Int) : Prop :=
  ∃ slot, (b.levelOrders a.orderType slot).filter (fun x => x.orderId = a.orderId) =
      [{ a with qty := left }] ∧ 0 < left ∧
    ∀ t s, (t, s) ≠ (a.orderType, slot) → ∀ x ∈ b.levelOrders t s, x.orderId ≠ a.orderId

def HasFate (reqs : List Order) (b : OrderBook) (w : World) (a : Order) : Fate → Prop
  | .resting left => RestsOnce b a left
  | .filled => tradedQty a.orderId w.log = a.qty
  | .evicted left => (evictedOrders w.log).filter (fun x => x.orderId = a.orderId) =
      [{ a with qty := left }] ∧ 0 < left ∧ KilledAfter reqs a.orderId

theorem flagRun_evicted {registry : Registry} {request : QueueBook → World → Order → Prop}
    {trade : QueueBook → World → Prop} {reqs : List Order} {phase : Phase} {q : QueueBook}
    {m : Int → Option Bool} {w : World}
    (run : FlagRun registry request trade reqs phase q m w) :
    ∀ o ∈ evictedOrders w.log, KilledAfter reqs o.orderId := by
  induction run with
  | new =>
    intro o h
    cases h
  | request order before reach flags call allowed ih =>
    intro o h
    obtain ⟨⟨notes, logs, all⟩, _⟩ := dispatch_queue call
    rw [logs, evictedOrders_append, evictedOrders_notes all, List.append_nil] at h
    exact (ih o h).more order
  | @evicted _ _ _ _ w front _ _ before reach flags head killed alone ih =>
    intro o h
    obtain ⟨notes, logs, all⟩ := noted_evict registry w front
    rw [logs, evictedOrders_append, evictedOrders_append, evictedOrders_notes all,
      List.append_nil] at h
    rcases List.mem_append.mp h with old | new
    · exact ih o old
    · rw [List.mem_singleton.mp new]
      exact flags.marked _ killed
  | bidsDrained before alive ih => exact ih
  | asksDrained before alive ih => exact ih
  | traded before reach flags step distinct allowed ih =>
    intro o h
    obtain ⟨notes, logs, all⟩ := step.log_eq
    rw [logs, List.append_cons, evictedOrders_append, evictedOrders_append,
      evictedOrders_notes all, List.append_nil] at h
    exact ih o (by simpa [evictedOrders, Event.evictedOrder] using h)
  | settled before call ih => exact ih

theorem filter_id {l : List Order} (nodup : (ids l).Nodup) {o : Order} (h : o ∈ l) :
    l.filter (fun x => x.orderId = o.orderId) = [o] := by
  induction l with
  | nil => cases h
  | cons x l ih =>
    obtain ⟨fresh, rest⟩ := List.nodup_cons.mp nodup
    rcases List.mem_cons.mp h with rfl | later
    · rw [List.filter_cons_of_pos (by simp), List.filter_eq_nil_iff.mpr]
      intro y hy
      have ne : y.orderId ≠ o.orderId := fun e => fresh (e ▸ List.mem_map_of_mem hy)
      simpa using ne
    · have ne : x.orderId ≠ o.orderId := fun e => fresh (e ▸ List.mem_map_of_mem later)
      rw [List.filter_cons_of_neg (by simpa using ne), ih rest later]

theorem eq_of_id {l : List Order} (nodup : (ids l).Nodup) {a a' : Order} (h : a ∈ l) (h' : a' ∈ l)
    (same : a.orderId = a'.orderId) : a = a' := by
  have one := filter_id nodup h
  have two := filter_id nodup h'
  rw [same, two] at one
  injection one with eq
  exact eq.symm

/-- What is left of an order is known by the order's id. -/
theorem partOf_of_id {reqs : List Order} (unique : (ids (accepted reqs)).Nodup) {a o : Order}
    (ha : a ∈ accepted reqs) (origin : PartOf reqs o) (same : o.orderId = a.orderId) :
    o = { a with qty := o.qty } := by
  obtain ⟨a', ha', eq⟩ := origin
  have whole : a' = a := eq_of_id unique ha' ha (by rw [← same, eq])
  rwa [whole] at eq

section
variable {reqs : List Order} {b : OrderBook} {q : QueueBook} {w : World}

theorem Ledger.balance_of_mem (h : Ledger reqs q.queue w.log)
    (unique : (ids (accepted reqs)).Nodup) {a o : Order} (ha : a ∈ accepted reqs)
    (ho : o ∈ q.queue .buy ++ q.queue .sell ++ evictedOrders w.log) (same : o.orderId = a.orderId) :
    a.qty = tradedQty a.orderId w.log + o.qty := by
  have distinct := h.distinct unique
  have balance := h.balance a.orderId
  rw [qtyOf_of_mem unique ha] at balance
  have all : (ids (q.queue .buy ++ q.queue .sell ++ evictedOrders w.log)).Nodup := by
    simpa [ids] using distinct
  have one := qtyOf_of_mem all ho
  rw [same, qtyOf_append, qtyOf_append] at one
  omega

theorem mem_of_restsOnce (rep : Represents b q) {a : Order} {left : Int}
    (h : RestsOnce b a left) : ∃ o ∈ q.queue a.orderType, o.orderId = a.orderId ∧ o.qty = left ∧
      0 < left := by
  obtain ⟨slot, once, pos, _⟩ := h
  have member : { a with qty := left } ∈
      (b.levelOrders a.orderType slot).filter fun x => x.orderId = a.orderId := by
    rw [once]
    simp
  have inLevel := (List.mem_filter.mp member).1
  rw [levelOrders_eq rep] at inLevel
  exact ⟨_, (List.mem_filter.mp inLevel).1, rfl, rfl, pos⟩

theorem restsOnce_of_mem (rep : Represents b q) (ledger : Ledger reqs q.queue w.log)
    (unique : (ids (accepted reqs)).Nodup) (pos : ∀ t, ∀ o ∈ q.queue t, 0 < o.qty) {a o : Order}
    (ha : a ∈ accepted reqs) {t : OrderType} (ho : o ∈ q.queue t) (same : o.orderId = a.orderId) :
    RestsOnce b a o.qty := by
  obtain ⟨side, origin⟩ := ledger.resting t o ho
  have eq := partOf_of_id unique ha origin same
  have own : a.orderType = t := by rw [← side, eq]
  have distinct := (List.nodup_append.mp (ledger.distinct unique)).1
  have nodup : (ids (q.queue t)).Nodup := by
    cases t
    · exact (List.nodup_append.mp distinct).2.1
    · exact (List.nodup_append.mp distinct).1
  refine ⟨indexOf o.priceLevel, ?_, pos t o ho, ?_⟩
  · rw [← eq, own, levelOrders_eq rep, List.filter_filter, ← same]
    have one := filter_id nodup ho
    rw [← one]
    refine List.filter_congr fun x hx => ?_
    by_cases its : x.orderId = o.orderId
    · have equal : x = o := eq_of_id nodup hx ho its
      simp [equal]
    · simp [its]
  · intro u s other x hx equal
    rw [levelOrders_eq rep] at hx
    obtain ⟨inQueue, inSlot⟩ := List.mem_filter.mp hx
    have all : (ids (q.queue .buy ++ q.queue .sell)).Nodup := by simpa [ids] using distinct
    have both : ∀ v, ∀ y ∈ q.queue v, y ∈ q.queue .buy ++ q.queue .sell := by
      intro v y hy
      cases v <;> simp [hy]
    have xo : x = o := eq_of_id all (both u x inQueue) (both t o ho) (equal.trans same.symm)
    subst xo
    have sides := (ledger.resting u x inQueue).1
    refine other ?_
    rw [← sides, side, own, ← show indexOf x.priceLevel = s by simpa using inSlot]

end

theorem mem_of_evicted {reqs : List Order} {b : OrderBook} {w : World} {a : Order} {left : Int}
    (h : HasFate reqs b w a (.evicted left)) : { a with qty := left } ∈ evictedOrders w.log := by
  have member : { a with qty := left } ∈
      (evictedOrders w.log).filter fun x => x.orderId = a.orderId := by
    rw [h.1]
    simp
  exact (List.mem_filter.mp member).1

theorem fate_balance {reqs : List Order} {b : OrderBook} {q : QueueBook} {w : World}
    (rep : Represents b q) (ledger : Ledger reqs q.queue w.log)
    (unique : (ids (accepted reqs)).Nodup) {a : Order} (ha : a ∈ accepted reqs) {fate : Fate}
    (h : HasFate reqs b w a fate) : a.qty = tradedQty a.orderId w.log + fate.left := by
  cases fate with
  | resting left =>
    obtain ⟨o, ho, same, qty, _⟩ := mem_of_restsOnce rep h
    rw [Fate.left, ← qty]
    refine ledger.balance_of_mem unique ha ?_ same
    cases side : a.orderType with
    | buy =>
      rw [side] at ho
      simp [ho]
    | sell =>
      rw [side] at ho
      simp [ho]
  | filled =>
    have traded : tradedQty a.orderId w.log = a.qty := h
    rw [traded, Fate.left, Int.add_zero]
  | evicted left =>
    have gone := mem_of_evicted h
    exact ledger.balance_of_mem unique ha (List.mem_append_right _ gone) rfl

theorem fate_unique {reqs : List Order} {b : OrderBook} {q : QueueBook} {w : World}
    (rep : Represents b q) (ledger : Ledger reqs q.queue w.log)
    (unique : (ids (accepted reqs)).Nodup) {a : Order} (ha : a ∈ accepted reqs) {f g : Fate}
    (hf : HasFate reqs b w a f) (hg : HasFate reqs b w a g) : f = g := by
  have leftF := fate_balance rep ledger unique ha hf
  have leftG := fate_balance rep ledger unique ha hg
  have clash : ∀ {x y : Int}, RestsOnce b a x → HasFate reqs b w a (.evicted y) → False := by
    intro x y rests evicted
    obtain ⟨o, ho, same, _⟩ := mem_of_restsOnce rep rests
    have inQueues : a.orderId ∈ ids (q.queue .buy) ++ ids (q.queue .sell) := by
      rw [← same]
      have inIds : o.orderId ∈ ids (q.queue a.orderType) := List.mem_map_of_mem ho
      cases side : a.orderType with
      | buy =>
        rw [side] at inIds
        exact List.mem_append_left _ inIds
      | sell =>
        rw [side] at inIds
        exact List.mem_append_right _ inIds
    have inLog : a.orderId ∈ ids (evictedOrders w.log) :=
      List.mem_map.mpr ⟨_, mem_of_evicted evicted, rfl⟩
    exact (List.nodup_append.mp (ledger.distinct unique)).2.2 _ inQueues _ inLog rfl
  cases f with
  | resting x =>
    obtain ⟨_, _, _, _, pos⟩ := mem_of_restsOnce rep hf
    cases g with
    | resting y =>
      simp only [Fate.left] at leftF leftG
      rw [show x = y by omega]
    | filled =>
      simp only [Fate.left] at leftF leftG
      omega
    | evicted y => exact (clash hf hg).elim
  | filled =>
    cases g with
    | resting y =>
      obtain ⟨_, _, _, _, pos⟩ := mem_of_restsOnce rep hg
      simp only [Fate.left] at leftF leftG
      omega
    | filled => rfl
    | evicted y =>
      obtain ⟨_, pos, _⟩ := hg
      simp only [Fate.left] at leftF leftG
      omega
  | evicted x =>
    have posF := hf
    obtain ⟨_, pos, _⟩ := posF
    cases g with
    | resting y => exact (clash hg hf).elim
    | filled =>
      simp only [Fate.left] at leftF leftG
      omega
    | evicted y =>
      simp only [Fate.left] at leftF leftG
      rw [show x = y by omega]

theorem fate_exists {registry : Registry} {reqs : List Order} {phase : Phase} {b : OrderBook}
    {q : QueueBook} {w : World} (rep : Represents b q) (reach : Reach registry reqs phase q w)
    (unique : (ids (accepted reqs)).Nodup)
    (ordinary : ∀ key ∈ ids (accepted reqs), Ordinary key) (pos : ∀ a ∈ accepted reqs, 0 < a.qty)
    {a : Order} (ha : a ∈ accepted reqs) : ∃ fate, HasFate reqs b w a fate := by
  have ledger := reach_ledger reach
  have positive := reach_positive reach pos
  obtain ⟨filled, perm⟩ := ledger.places
  have inAll := perm.mem_iff.mpr (List.mem_map_of_mem (f := Order.orderId) ha)
  have nodup := perm.nodup_iff.mpr unique
  rcases List.mem_append.mp inAll with placed | inFilled
  · rcases List.mem_append.mp placed with queued | gone
    · have inQueue : ∃ t, a.orderId ∈ ids (q.queue t) := by
        rcases List.mem_append.mp queued with buy | sell
        · exact ⟨.buy, buy⟩
        · exact ⟨.sell, sell⟩
      obtain ⟨t, inIds⟩ := inQueue
      obtain ⟨o, ho, same⟩ := List.mem_map.mp inIds
      exact ⟨.resting o.qty, restsOnce_of_mem rep ledger unique positive.resting ha ho same⟩
    · obtain ⟨e, he, same⟩ := List.mem_map.mp gone
      have nodupLog : (ids (evictedOrders w.log)).Nodup :=
        (List.nodup_append.mp (List.nodup_append.mp nodup).1).2.1
      refine ⟨.evicted e.qty, ?_, positive.evicted e he, ?_⟩
      · rw [← partOf_of_id unique ha (ledger.evicted e he) same, ← same]
        exact filter_id nodupLog he
      · obtain ⟨m, flagRun, _⟩ := flagRun_of_reach reach unique ordinary
        rw [← same]
        exact flagRun_evicted flagRun e he
  · refine ⟨.filled, ?_⟩
    have apart : ∀ i ∈ ids (q.queue .buy) ++ ids (q.queue .sell) ++ ids (evictedOrders w.log),
        i ≠ a.orderId := fun i hi => (List.nodup_append.mp nodup).2.2 i hi _ inFilled
    have balance := ledger.balance a.orderId
    rw [qtyOf_of_mem unique ha,
      qtyOf_of_not_mem (l := q.queue .buy) (fun h => apart _ (by simp [h]) rfl),
      qtyOf_of_not_mem (l := q.queue .sell) (fun h => apart _ (by simp [h]) rfl),
      qtyOf_of_not_mem (l := evictedOrders w.log) (fun h => apart _ (by simp [h]) rfl)] at balance
    have traded : tradedQty a.orderId w.log = a.qty := by omega
    exact traded

/-- A trade takes a quantity that both have left from an accepted bid and an accepted ask, at
    a price within the limits they were sent with. -/
structure FairTrade (reqs : List Order) (bid ask : Order) (fillQty fillPrice : Int) : Prop where
  positive : 0 < fillQty
  left : fillQty ≤ bid.qty ∧ fillQty ≤ ask.qty
  bid : ∃ a ∈ accepted reqs, bid = { a with qty := bid.qty } ∧ a.orderType = .buy ∧
    fillPrice ≤ a.priceLevel
  ask : ∃ a ∈ accepted reqs, ask = { a with qty := ask.qty } ∧ a.orderType = .sell ∧
    a.priceLevel ≤ fillPrice

/-- One fate per accepted order, the balance of each, and what every trade takes. -/
structure Conserved (reqs : List Order) (b : OrderBook) (w : World) : Prop where
  fates : ∀ a ∈ accepted reqs, (∃! fate, HasFate reqs b w a fate) ∧
    ∀ fate, HasFate reqs b w a fate → a.qty = tradedQty a.orderId w.log + fate.left
  trades : ∀ bid ask fillQty fillPrice, .trade bid ask fillQty fillPrice ∈ w.log →
    FairTrade reqs bid ask fillQty fillPrice

theorem run_conserved {registry : Registry} {reqs : List Order} {b : OrderBook} {w : World}
    (run : OrderBook.run registry {} {} reqs = .ok (b, w)) (unique : (ids (accepted reqs)).Nodup)
    (ordinary : ∀ key ∈ ids (accepted reqs), Ordinary key)
    (pos : ∀ a ∈ accepted reqs, 0 < a.qty) : Conserved reqs b w := by
  obtain ⟨q, rep, reach⟩ := run_reach (run_of_requests reqs .new run)
  rw [List.nil_append] at reach
  have ledger := reach_ledger reach
  refine ⟨fun a ha => ⟨?_, fun fate has => fate_balance rep ledger unique ha has⟩, ?_⟩
  · obtain ⟨fate, has⟩ := fate_exists rep reach unique ordinary pos ha
    exact ⟨fate, has, fun other hasToo => fate_unique rep ledger unique ha hasToo has⟩
  · intro bid ask fillQty fillPrice mem
    obtain ⟨⟨buy, ⟨a, ha, eq⟩, high, enough⟩, sell, ⟨a', ha', eq'⟩, low, enough'⟩ :=
      ledger.trades bid ask fillQty fillPrice mem
    constructor
    · exact (reach_positive reach pos).trades bid ask fillQty fillPrice mem
    · exact ⟨enough, enough'⟩
    · rw [eq] at buy high
      exact ⟨a, ha, eq, buy, high⟩
    · rw [eq'] at sell low
      exact ⟨a', ha', eq', sell, low⟩

/-- Conservation of quantity: it holds in every book a stream of requests leads to, and
    nothing but a limit keeps a stream from its end. The server counts order ids up from 1,
    so none is a slot marker. -/
theorem conservation (registry : Registry) (reqs : List Order)
    (unique : (ids (accepted reqs)).Nodup)
    (ordinary : ∀ key ∈ ids (accepted reqs), Ordinary key)
    (pos : ∀ a ∈ accepted reqs, 0 < a.qty) :
    (∀ b w, OrderBook.run registry {} {} reqs = .ok (b, w) → Conserved reqs b w) ∧
    ∀ e, OrderBook.run registry {} {} reqs = .error e → e.isLimit :=
  ⟨fun _ _ run => run_conserved run unique ordinary pos,
    fun _ failed => ends_error (run_ends registry reqs {} tracks_new ordinary) failed⟩

def threeFates : List Order :=
  [sendRequest .buy 1 100 5, sendRequest .sell 2 90 3,
    { requestType := .killOrder, delId := 1 }, sendRequest .sell 3 80 4]

theorem conservation_threeFates : ∃ b w,
    OrderBook.run (fun _ _ => true) {} {} threeFates = .ok (b, w) ∧ Conserved threeFates b w ∧
    tradesOf w.log = [.trade (sendRequest .buy 1 100 5) (sendRequest .sell 2 90 3) 3 90] ∧
    HasFate threeFates b w (sendRequest .buy 1 100 5) (.evicted 2) ∧
    HasFate threeFates b w (sendRequest .sell 2 90 3) .filled ∧
    HasFate threeFates b w (sendRequest .sell 3 80 4) (.resting 4) := by
  have seen : (do
      let r ← OrderBook.run (fun _ _ => true) {} {} threeFates
      pure (tradesOf r.2.log, evictedOrders r.2.log, tradedQty 2 r.2.log, tradedQty 3 r.2.log)) =
    (.ok ([.trade (sendRequest .buy 1 100 5) (sendRequest .sell 2 90 3) 3 90],
      [sendRequest .buy 1 100 2], 3, 0) : Except Fault (List Event × List Order × Int × Int)) :=
    ok_of_toOption (by decide +kernel)
  obtain ⟨⟨b, w⟩, run, seen⟩ := bind_ok seen
  have seen := Except.ok.inj seen
  simp only [Prod.mk.injEq] at seen
  obtain ⟨trades, evicted, second, third⟩ := seen
  have conserved := (conservation _ threeFates (by decide) (by decide) (by decide)).1 b w run
  refine ⟨b, w, run, conserved, trades, ⟨?_, by decide, ?_⟩, second, ?_⟩
  · rw [evicted]
    rfl
  · exact ⟨threeFates.take 2, _, threeFates.drop 3, rfl, by decide, rfl, by decide⟩
  · obtain ⟨⟨fate, has, _⟩, balance⟩ := conserved.fates (sendRequest .sell 3 80 4) (by decide)
    have sum : 4 = tradedQty 3 w.log + fate.left := balance fate has
    rw [third, Int.zero_add] at sum
    cases fate with
    | resting left =>
      have four : 4 = left := sum
      rwa [four]
    | filled => cases third.symm.trans has
    | evicted left =>
      have gone := has.1
      rw [evicted] at gone
      cases gone

end MarketBookExchange
