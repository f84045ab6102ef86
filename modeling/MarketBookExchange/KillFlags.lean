import MarketBookExchange.Ledger
import MarketBookExchange.KillFlagInvariant

/- The kill flags along a run: every resting order has one, none is set without a kill
   request for an order that had arrived before. -/
namespace MarketBookExchange
open RankedList Outcome KillFlagTable

/-- A KILL or MODIFY of `id` that came after `id` was booked. -/
def KilledAfter (reqs : List Order) (id : Int) : Prop :=
  ∃ pre k post, reqs = pre ++ k :: post ∧ k.requestType ≠ .sendOrder ∧ k.delId = id ∧
    id ∈ ids (accepted pre)

theorem KilledAfter.more {reqs : List Order} {id : Int} (h : KilledAfter reqs id)
    (order : Order) : KilledAfter (reqs ++ [order]) id := by
  obtain ⟨pre, k, post, eq, kind, target, earlier⟩ := h
  exact ⟨pre, k, post ++ [order], by rw [eq]; simp, kind, target, earlier⟩

def markKilled (m : Int → Option Bool) (key : Int) : Int → Option Bool :=
  if m key = none then m else Function.update m key (some true)

section
variable {m : Int → Option Bool} {key k : Int}

theorem markKilled_self (m : Int → Option Bool) (key : Int) :
    markKilled m key key = (m key).map fun _ => true := by
  unfold markKilled
  cases flag : m key with
  | none => rw [if_pos rfl, flag, Option.map_none]
  | some v => rw [if_neg (by simp), Function.update_self, Option.map_some]

theorem markKilled_of_ne (m : Int → Option Bool) (ne : k ≠ key) : markKilled m key k = m k := by
  unfold markKilled
  split
  · rfl
  · exact Function.update_of_ne ne _ _

theorem markKilled_none_iff : markKilled m key k = none ↔ m k = none := by
  by_cases same : k = key
  · rw [same, markKilled_self, Option.map_eq_none_iff]
  · rw [markKilled_of_ne m same]

theorem markKilled_true (h : markKilled m key k = some true) :
    m k = some true ∨ k = key ∧ m key ≠ none := by
  by_cases same : k = key
  · right
    refine ⟨same, fun nothing => ?_⟩
    rw [same, markKilled_self, nothing] at h
    cases h
  · left
    rwa [markKilled_of_ne m same] at h

end

theorem killOrder_flags {registry : Registry} {q q' : QueueBook} {w w' : World} {order : Order}
    {m : Int → Option Bool} (rep : TableRep q.killedOrders m)
    (run : q.killOrder registry w order = .ok (q', w')) :
    TableRep q'.killedOrders (markKilled m order.delId) := by
  obtain ⟨r, looked, found, _⟩ := find_ok rep.inv order.delId
  rw [markKilled]
  rcases QueueBook.killOrder_cases run with ⟨nothing, rfl, _⟩ | ⟨kf, kt, present, assigned, rfl, _⟩
  · rw [if_pos (find_none rep nothing)]
    exact rep
  · rw [looked] at present
    cases present
    obtain ⟨small, here⟩ := found kf rfl
    obtain ⟨kt', ran, rep'⟩ := assign_ok rep small true
    rw [assigned] at ran
    cases ran
    rw [here] at rep'
    by_cases ordinary : Ordinary order.delId
    · rw [if_pos ordinary] at rep'
      rw [if_neg (by rw [rep.flag_of_slot small ordinary here]; simp)]
      exact rep'
    · rw [if_neg ordinary] at rep'
      rw [if_pos (rep.marker ordinary)]
      exact rep'

theorem sendOrder_flags {q q' : QueueBook} (order : Order) {m : Int → Option Bool}
    (rep : TableRep q.killedOrders m) (ordinary : Ordinary order.orderId)
    (run : q.sendOrder order = .ok q') :
    TableRep q'.killedOrders (Function.update m order.orderId (some false)) := by
  obtain ⟨kt, stored, rfl⟩ := QueueBook.sendOrder_cases run
  rcases set_cases rep ordinary false with full | ⟨kt', ran, rep'⟩
  · rw [stored] at full
    cases full
  · rw [stored] at ran
    cases ran
    exact rep'

theorem erase_flags {kt kt' : KillFlagTable} {key : Int} {m : Int → Option Bool}
    (rep : TableRep kt m) (ordinary : Ordinary key) (run : kt.erase key = .ok kt') :
    TableRep kt' (Function.update m key none) := by
  obtain ⟨kt'', ran, rep'⟩ := erase_ok rep ordinary
  rw [run] at ran
  cases ran
  exact rep'

theorem notifyFill_flags {registry : Registry} {kt kt' : KillFlagTable} {w w' : World}
    {order : Order} {fillQty remainingQty fillPrice : Int} {m : Int → Option Bool}
    (rep : TableRep kt m) (ordinary : Ordinary order.orderId)
    (run : notifyFill registry kt w order fillQty remainingQty fillPrice = .ok (kt', w')) :
    TableRep kt' (if registry w.lookups order.sessionId = true ∧ remainingQty = 0 then
      Function.update m order.orderId none else m) := by
  rcases notifyFill_cases run with ⟨gone, rfl, _⟩ | ⟨here, zero, erased, _⟩ | ⟨_, left, rfl, _⟩
  · rw [if_neg (by simp [gone])]
    exact rep
  · rw [if_pos ⟨here, zero⟩]
    exact erase_flags rep ordinary erased
  · rw [if_neg (fun h => left h.2)]
    exact rep

/-- What the kill table knows in a state of a run. -/
structure Flags (reqs : List Order) (q : QueueBook) (m : Int → Option Bool) : Prop where
  rep : TableRep q.killedOrders m
  known : ∀ key, m key ≠ none → key ∈ ids (accepted reqs)
  flagged : ∀ t, ∀ o ∈ q.queue t, m o.orderId ≠ none
  marked : ∀ key, m key = some true → KilledAfter reqs key

def requestFlags (m : Int → Option Bool) (order : Order) : Int → Option Bool :=
  match order.requestType with
  | .sendOrder => Function.update m order.orderId (some false)
  | .modifyOrder => Function.update (markKilled m order.delId) order.orderId (some false)
  | .killOrder => markKilled m order.delId

theorem dispatch_flags {registry : Registry} {q q' : QueueBook} {w w' : World} {order : Order}
    {m : Int → Option Bool} (rep : TableRep q.killedOrders m)
    (ordinary : ∀ o, entry order = some o → Ordinary o.orderId)
    (run : q.dispatch registry w order = .ok (q', w')) :
    TableRep q'.killedOrders (requestFlags m order) := by
  rw [QueueBook.dispatch] at run
  rw [requestFlags]
  cases kind : order.requestType with
  | sendOrder =>
    rw [kind] at run
    obtain ⟨q₁, sent, run⟩ := bind_ok run
    cases run
    exact sendOrder_flags order rep (ordinary order (by simp [entry, kind])) sent
  | modifyOrder =>
    rw [kind] at run
    obtain ⟨q₁, killed, sent⟩ := QueueBook.modifyOrder_cases run
    exact sendOrder_flags { order with delId := 0 } (killOrder_flags rep killed)
      (ordinary { order with delId := 0 } (by simp [entry, kind])) sent
  | killOrder =>
    rw [kind] at run
    exact killOrder_flags rep run

theorem entry_id {order o : Order} (h : entry order = some o) : o.orderId = order.orderId := by
  rw [entry] at h
  split at h
  · cases h
    rfl
  · cases h
    rfl
  · cases h

theorem entry_none {order : Order} (h : entry order = none) : order.requestType = .killOrder := by
  rw [entry] at h
  split at h
  · cases h
  · cases h
  · assumption

theorem requestFlags_of_entry {m : Int → Option Bool} {order o : Order}
    (h : entry order = some o) : ∃ m₁, (m₁ = m ∧ order.requestType ≠ .modifyOrder ∨
      m₁ = markKilled m order.delId ∧ order.requestType ≠ .sendOrder) ∧
      requestFlags m order = Function.update m₁ o.orderId (some false) := by
  rw [entry_id h, requestFlags]
  cases kind : order.requestType with
  | sendOrder => exact ⟨m, Or.inl ⟨rfl, by simp⟩, rfl⟩
  | modifyOrder => exact ⟨_, Or.inr ⟨rfl, by simp⟩, rfl⟩
  | killOrder => simp [entry, kind] at h

section
variable {reqs : List Order} {q : QueueBook} {m : Int → Option Bool}

theorem Flags.mark (h : Flags reqs q m) (order : Order) (kind : order.requestType ≠ .sendOrder)
    {key : Int} (marked : markKilled m order.delId key = some true) :
    KilledAfter (reqs ++ [order]) key := by
  rcases markKilled_true marked with old | ⟨rfl, present⟩
  · exact (h.marked key old).more order
  · exact ⟨reqs, order, [], rfl, kind, rfl, h.known _ present⟩

theorem Flags.request {registry : Registry} {w w' : World} {q' : QueueBook} {order : Order}
    (h : Flags reqs q m) (ordinary : ∀ key ∈ ids (accepted (reqs ++ [order])), Ordinary key)
    (call : q.dispatch registry w order = .ok (q', w')) :
    Flags (reqs ++ [order]) q' (requestFlags m order) := by
  have rep := dispatch_flags h.rep (fun o booked => ordinary o.orderId (by
    rw [ids_accepted_append reqs booked]
    simp)) call
  obtain ⟨_, ⟨nothing, same⟩ | ⟨o, booked, same⟩⟩ := dispatch_queue call
  · have kind := entry_none nothing
    have flags : requestFlags m order = markKilled m order.delId := by rw [requestFlags, kind]
    rw [flags] at rep ⊢
    refine ⟨rep, fun key booked => ?_, fun t o ho => ?_, fun key marked => ?_⟩
    · rw [accepted_append_none reqs nothing]
      exact h.known key (fun e => booked (markKilled_none_iff.mpr e))
    · rw [same] at ho
      exact fun e => h.flagged t o ho (markKilled_none_iff.mp e)
    · exact h.mark order (by rw [kind]; simp) marked
  · obtain ⟨m₁, killed, flags⟩ := requestFlags_of_entry (m := m) booked
    have noneIff : ∀ key, m₁ key = none ↔ m key = none := by
      intro key
      rcases killed with ⟨rfl, _⟩ | ⟨rfl, _⟩
      · rfl
      · exact markKilled_none_iff
    rw [flags] at rep ⊢
    refine ⟨rep, fun key known => ?_, fun t x hx => ?_, fun key marked => ?_⟩
    · rw [ids_accepted_append reqs booked]
      by_cases new : key = o.orderId
      · rw [new]
        simp
      · rw [Function.update_of_ne new] at known
        exact List.mem_append_left _ (h.known key fun e => known ((noneIff key).mpr e))
    · by_cases new : x.orderId = o.orderId
      · rw [new, Function.update_self]
        simp
      · rw [Function.update_of_ne new]
        have old : x ∈ q.queue t := by
          rw [same] at hx
          by_cases side : t = o.orderType
          · subst side
            rw [Function.update_self] at hx
            rcases mem_insert.mp hx with rfl | earlier
            · exact absurd rfl new
            · exact earlier
          · rwa [Function.update_of_ne side] at hx
        exact fun e => h.flagged t x old ((noneIff _).mp e)
    · by_cases new : key = o.orderId
      · rw [new, Function.update_self] at marked
        cases marked
      · rw [Function.update_of_ne new] at marked
        rcases killed with ⟨rfl, _⟩ | ⟨rfl, kind⟩
        · exact (h.marked key marked).more order
        · exact h.mark order kind marked

theorem Flags.erase (h : Flags reqs q m) {q' : QueueBook} {id : Int}
    (rep : TableRep q'.killedOrders (Function.update m id none))
    (left : ∀ t, ∀ o ∈ q'.queue t, o.orderId ≠ id ∧ ∃ x ∈ q.queue t, x.orderId = o.orderId) :
    Flags reqs q' (Function.update m id none) := by
  refine ⟨rep, fun key known => ?_, fun t o ho => ?_, fun key marked => ?_⟩
  · by_cases same : key = id
    · rw [same, Function.update_self] at known
      exact absurd rfl known
    · rw [Function.update_of_ne same] at known
      exact h.known key known
  · obtain ⟨ne, x, hx, same⟩ := left t o ho
    rw [Function.update_of_ne ne, ← same]
    exact h.flagged t x hx
  · by_cases same : key = id
    · rw [same, Function.update_self] at marked
      cases marked
    · rw [Function.update_of_ne same] at marked
      exact h.marked key marked

theorem Flags.fewer (h : Flags reqs q m) {q' : QueueBook} (rep : TableRep q'.killedOrders m)
    (left : ∀ t, ∀ o ∈ q'.queue t, ∃ x ∈ q.queue t, x.orderId = o.orderId) :
    Flags reqs q' m := by
  refine ⟨rep, h.known, fun t o ho => ?_, h.marked⟩
  obtain ⟨x, hx, same⟩ := left t o ho
  rw [← same]
  exact h.flagged t x hx

end
theorem Ledger.distinct {reqs : List Order} {queue : OrderType → List Order} {log : List Event}
    (h : Ledger reqs queue log) (unique : (ids (accepted reqs)).Nodup) :
    (ids (queue .buy) ++ ids (queue .sell) ++ ids (evictedOrders log)).Nodup := by
  obtain ⟨filled, perm⟩ := h.places
  exact (List.nodup_append.mp (perm.nodup_iff.mpr unique)).1

theorem front_alone {queue : OrderType → List Order}
    (distinct : (ids (queue .buy) ++ ids (queue .sell)).Nodup) {t : OrderType} {front : Order}
    {rest : List Order} (head : queue t = front :: rest) :
    ∀ u, ∀ o ∈ Function.update queue t rest u, o.orderId ≠ front.orderId := by
  obtain ⟨buys, sells, apart⟩ := List.nodup_append.mp distinct
  have inFront : front.orderId ∈ ids (queue t) := by simp [head, ids]
  have own : ∀ o ∈ rest, o.orderId ≠ front.orderId := by
    intro o ho same
    have nodup : (ids (queue t)).Nodup := by cases t <;> assumption
    rw [head] at nodup
    exact (List.nodup_cons.mp nodup).1 (same ▸ List.mem_map_of_mem ho)
  intro u o ho same
  by_cases side : u = t
  · subst side
    rw [Function.update_self] at ho
    exact own o ho same
  · rw [Function.update_of_ne side] at ho
    have inOther : o.orderId ∈ ids (queue u) := List.mem_map_of_mem ho
    cases u <;> cases t
    · exact side rfl
    · exact apart _ inFront _ inOther same.symm
    · exact apart _ inOther _ inFront same
    · exact side rfl

def fillFlags (registry : Registry) (m : Int → Option Bool) (w : World) (front : Order)
    (fillQty : Int) : Int → Option Bool :=
  if registry w.lookups front.sessionId = true ∧ front.qty - fillQty = 0 then
    Function.update m front.orderId none
  else m

theorem Flags.fill {registry : Registry} {reqs : List Order} {q : QueueBook}
    {m : Int → Option Bool} (h : Flags reqs q m) {t : OrderType} {front : Order}
    {rest : List Order} (head : q.queue t = front :: rest)
    (alone : ∀ u, ∀ o ∈ Function.update q.queue t rest u, o.orderId ≠ front.orderId)
    (ordinary : Ordinary front.orderId) {kt : KillFlagTable} {w w' : World} {fillQty fillPrice : Int}
    (told : notifyFill registry q.killedOrders w (afterFill front fillQty) fillQty
      (front.qty - fillQty) fillPrice = .ok (kt, w')) :
    Flags reqs ⟨Function.update q.queue t (fillFront front rest fillQty), kt⟩
      (fillFlags registry m w front fillQty) := by
  have known : Ordinary (afterFill front fillQty).orderId := ordinary
  have flags := notifyFill_flags h.rep known told
  have rep : TableRep kt (fillFlags registry m w front fillQty) := flags
  have left : ∀ u, ∀ o ∈ Function.update q.queue t (fillFront front rest fillQty) u,
      ∃ x ∈ q.queue u, x.orderId = o.orderId := by
    intro u o ho
    by_cases side : u = t
    · subst side
      rw [Function.update_self] at ho
      rcases mem_fillFront ho with later | ⟨rfl, _⟩
      · exact ⟨o, by rw [head]; exact List.mem_cons_of_mem _ later, rfl⟩
      · exact ⟨front, by rw [head]; simp, rfl⟩
    · rw [Function.update_of_ne side] at ho
      exact ⟨o, ho, rfl⟩
  rw [fillFlags] at rep ⊢
  by_cases gone : registry w.lookups front.sessionId = true ∧ front.qty - fillQty = 0
  · rw [if_pos gone] at rep ⊢
    refine h.erase rep (fun u o ho => ⟨alone u o ?_, left u o ho⟩)
    rwa [fillFront, if_pos gone.2] at ho
  · rw [if_neg gone] at rep ⊢
    exact h.fewer rep left

theorem Flags.evict {reqs : List Order} {q : QueueBook} {m : Int → Option Bool}
    (h : Flags reqs q m) {t : OrderType} {front : Order} {rest : List Order}
    (head : q.queue t = front :: rest)
    (alone : ∀ u, ∀ o ∈ Function.update q.queue t rest u, o.orderId ≠ front.orderId)
    (ordinary : Ordinary front.orderId) {kt : KillFlagTable}
    (erased : q.killedOrders.erase front.orderId = .ok kt) :
    Flags reqs ⟨Function.update q.queue t rest, kt⟩ (Function.update m front.orderId none) := by
  exact h.erase (erase_flags h.rep ordinary erased)
    (fun u o ho => ⟨alone u o ho, o, (rest_sublist head u).subset ho, rfl⟩)

theorem distinct_fillBid {queue : OrderType → List Order}
    (distinct : (ids (queue .buy) ++ ids (queue .sell)).Nodup) {front : Order} {rest : List Order}
    (head : queue .buy = front :: rest) (fillQty : Int) :
    (ids (bySide (fillFront front rest fillQty) (queue .sell) .buy) ++
      ids (bySide (fillFront front rest fillQty) (queue .sell) .sell)).Nodup := by
  rw [head, ids_fillFront front rest fillQty, List.append_assoc] at distinct
  exact (List.nodup_append.mp distinct).2.1

def tradeFlags (registry : Registry) (m : Int → Option Bool) (w w₁ : World) (bo ao : Order) :
    Int → Option Bool :=
  fillFlags registry
    (fillFlags registry m (w.record (.trade bo ao (min bo.qty ao.qty) ao.priceLevel)) bo
      (min bo.qty ao.qty))
    w₁ ao (min bo.qty ao.qty)

theorem Flags.trade {registry : Registry} {reqs : List Order} {q q' : QueueBook} {w w' w₁ : World}
    {bo ao : Order} {bids asks : List Order} {kt : KillFlagTable} {m : Int → Option Bool}
    (h : Flags reqs q m) (trade : Trade registry q w q' w' bo ao bids asks kt w₁)
    (distinct : (ids (q.queue .buy) ++ ids (q.queue .sell)).Nodup)
    (ordinary : ∀ t, ∀ o ∈ q.queue t, Ordinary o.orderId) :
    Flags reqs q' (tradeFlags registry m w w₁ bo ao) := by
  have bid := h.fill trade.buy (front_alone distinct trade.buy)
    (ordinary .buy bo (by rw [trade.buy]; simp)) trade.bidTold
  rw [update_buy] at bid
  have sell : bySide (fillFront bo bids (min bo.qty ao.qty)) (q.queue .sell) .sell = ao :: asks :=
    trade.sell
  have ask := bid.fill sell (front_alone (distinct_fillBid distinct trade.buy _) sell)
    (ordinary .sell ao (by rw [trade.sell]; simp)) trade.askTold
  rw [update_sell] at ask
  have same : q' = ⟨bySide (fillFront bo bids (min bo.qty ao.qty))
      (fillFront ao asks (min bo.qty ao.qty)), q'.killedOrders⟩ := by
    rw [← trade.queue]
  rw [same]
  exact ask

theorem Ledger.id_mem {reqs : List Order} {queue : OrderType → List Order} {log : List Event}
    (h : Ledger reqs queue log) {t : OrderType} {o : Order} (ho : o ∈ queue t) :
    o.orderId ∈ ids (accepted reqs) := by
  obtain ⟨_, a, ha, eq⟩ := h.resting t o ho
  have same : o.orderId = a.orderId := by rw [eq]
  rw [same]
  exact List.mem_map_of_mem ha

/-- The runs on the queues with the kill table read as flags. -/
inductive FlagRun (registry : Registry) (request : QueueBook → World → Order → Prop)
    (trade : QueueBook → World → Prop) :
    List Order → Phase → QueueBook → (Int → Option Bool) → World → Prop where
  | new : FlagRun registry request trade [] .idle {} (fun _ => none) {}
  | request {reqs : List Order} {q q' : QueueBook} {m : Int → Option Bool} {w w' : World}
      (order : Order) (before : FlagRun registry request trade reqs .idle q m w)
      (reach : Reach registry reqs .idle q w) (flags : Flags reqs q m)
      (call : q.dispatch registry w order = .ok (q', w'))
      (allowed : request q w order) :
      FlagRun registry request trade (reqs ++ [order]) (.draining .buy) q' (requestFlags m order) w'
  | evicted {reqs : List Order} {t : OrderType} {q : QueueBook} {m : Int → Option Bool} {w : World}
      {front : Order} {rest : List Order} {kt : KillFlagTable}
      (before : FlagRun registry request trade reqs (.draining t) q m w)
      (reach : Reach registry reqs (.draining t) q w) (flags : Flags reqs q m)
      (head : q.queue t = front :: rest) (killed : m front.orderId = some true)
      (alone : ∀ u, ∀ o ∈ Function.update q.queue t rest u, o.orderId ≠ front.orderId) :
      FlagRun registry request trade reqs (.draining t) ⟨Function.update q.queue t rest, kt⟩
        (Function.update m front.orderId none)
        ((w.writeIfLocked registry front.sessionId (.killConfirm front)).record (.evicted front))
  | bidsDrained {reqs : List Order} {q : QueueBook} {m : Int → Option Bool} {w : World}
      (before : FlagRun registry request trade reqs (.draining .buy) q m w)
      (alive : ∀ front ∈ (q.queue .buy).head?, m front.orderId ≠ some true) :
      FlagRun registry request trade reqs (.draining .sell) q m w
  | asksDrained {reqs : List Order} {q : QueueBook} {m : Int → Option Bool} {w : World}
      (before : FlagRun registry request trade reqs (.draining .sell) q m w)
      (alive : ∀ front ∈ (q.queue .sell).head?, m front.orderId ≠ some true) :
      FlagRun registry request trade reqs .drained q m w
  | traded {reqs : List Order} {q q' : QueueBook} {m : Int → Option Bool} {w w' w₁ : World}
      {bo ao : Order} {bids asks : List Order} {kt : KillFlagTable}
      (before : FlagRun registry request trade reqs .drained q m w)
      (reach : Reach registry reqs .drained q w) (flags : Flags reqs q m)
      (step : Trade registry q w q' w' bo ao bids asks kt w₁)
      (distinct : (ids (q.queue .buy) ++ ids (q.queue .sell)).Nodup) (allowed : trade q w) :
      FlagRun registry request trade reqs (.draining .buy) q' (tradeFlags registry m w w₁ bo ao) w'
  | settled {reqs : List Order} {q : QueueBook} {m : Int → Option Bool} {w : World}
      (before : FlagRun registry request trade reqs .drained q m w)
      (call : q.matchBest registry w = .ok none) :
      FlagRun registry request trade reqs .idle q m w

theorem killed_iff {t : KillFlagTable} {m : Int → Option Bool} (rep : TableRep t m) {key : Int}
    (ordinary : Ordinary key) :
    t.isKilled key = .ok true ↔ m key = some true := by
  rw [isKilled_ok rep ordinary]
  cases m key with
  | none => simp
  | some v => simp

theorem alive_iff {t : KillFlagTable} {m : Int → Option Bool} (rep : TableRep t m) {key : Int}
    (ordinary : Ordinary key) :
    t.isKilled key = .ok false ↔ m key ≠ some true := by
  rw [isKilled_ok rep ordinary]
  cases m key with
  | none => simp
  | some v => simp

/-- With distinct ids that are not slot markers, every run can be read so. -/
theorem flagRun_of_reach {registry : Registry} {request : QueueBook → World → Order → Prop}
    {trade : QueueBook → World → Prop} {reqs : List Order} {phase : Phase} {q : QueueBook}
    {w : World} (reach : ReachWhere registry request trade reqs phase q w)
    (unique : (ids (accepted reqs)).Nodup)
    (ordinary : ∀ key ∈ ids (accepted reqs), Ordinary key) :
    ∃ m, FlagRun registry request trade reqs phase q m w ∧ Flags reqs q m := by
  induction reach with
  | new =>
    refine ⟨fun _ => none, .new, new_rep, fun _ h => absurd rfl h, ?_, ?_⟩
    · intro _ _ h
      cases h
    · intro _ h
      cases h
  | request order before call allowed ih =>
    obtain ⟨m, run, flags⟩ := ih (nodup_accepted_left unique)
      fun key h => ordinary key (mem_accepted_left h)
    exact ⟨_, .request order run before.reach flags call allowed, flags.request ordinary call⟩
  | @evicted _ _ _ _ front _ _ before head killed erased ih =>
    obtain ⟨m, run, flags⟩ := ih unique ordinary
    have ledger := reach_ledger before.reach
    have alone := front_alone (List.nodup_append.mp (ledger.distinct unique)).1 head
    have known := ordinary _ (ledger.id_mem (o := front) (by rw [head]; simp))
    exact ⟨_, .evicted run before.reach flags head ((killed_iff flags.rep known).mp killed) alone,
      flags.evict head alone known erased⟩
  | bidsDrained before alive ih =>
    obtain ⟨m, run, flags⟩ := ih unique ordinary
    refine ⟨m, .bidsDrained run fun front h => ?_, flags⟩
    have known := ordinary _ ((reach_ledger before.reach).id_mem (List.mem_of_mem_head? h))
    exact (alive_iff flags.rep known).mp (alive front h)
  | asksDrained before alive ih =>
    obtain ⟨m, run, flags⟩ := ih unique ordinary
    refine ⟨m, .asksDrained run fun front h => ?_, flags⟩
    have known := ordinary _ ((reach_ledger before.reach).id_mem (List.mem_of_mem_head? h))
    exact (alive_iff flags.rep known).mp (alive front h)
  | traded before call allowed ih =>
    obtain ⟨m, run, flags⟩ := ih unique ordinary
    obtain ⟨bo, ao, bids, asks, kt, w₁, step⟩ := QueueBook.matchBest_some call
    have ledger := reach_ledger before.reach
    have distinct := (List.nodup_append.mp (ledger.distinct unique)).1
    exact ⟨_, .traded run before.reach flags step distinct allowed,
      flags.trade step distinct fun t o ho => ordinary _ (ledger.id_mem ho)⟩
  | settled before call ih =>
    obtain ⟨m, run, flags⟩ := ih unique ordinary
    exact ⟨m, .settled run call, flags⟩

end MarketBookExchange
