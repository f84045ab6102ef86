import MarketBookExchange.QuietBook

/- The induction over `UPDATE_BOOK`: what survives the eviction of a killed front and the
   trade of two fronts survives the whole call. First use: whom its messages are about. -/
namespace MarketBookExchange
open RankedList Outcome KillFlagTable

/-- What `if (auto sp = lock(session_id)) sp->writeToClient(response)` adds to the log. -/
def written (told : Bool) (sessionId : Int) (response : Response) : List Event :=
  if told then [.write sessionId response] else []

def fillNotice (order : Order) (fillQty remainingQty fillPrice : Int) : Response :=
  if remainingQty = 0 then .fullFill order fillQty fillPrice
  else .partialFill order fillQty remainingQty fillPrice

theorem writeIfLocked_log (registry : Registry) (w : World) (sessionId : Int)
    (response : Response) : (w.writeIfLocked registry sessionId response).log =
      w.log ++ written (registry w.lookups sessionId) sessionId response := by
  unfold World.writeIfLocked World.lock written
  cases registry w.lookups sessionId with
  | true => rfl
  | false => simp

theorem writeIfLocked_lookups (registry : Registry) (w : World) (sessionId : Int)
    (response : Response) :
    (w.writeIfLocked registry sessionId response).lookups = w.lookups + 1 := by
  unfold World.writeIfLocked World.lock
  cases registry w.lookups sessionId with
  | true => rfl
  | false => rfl

theorem notifyFlags_log (registry : Registry) (m : Int → Option Bool) (w : World) (order : Order)
    (fillQty remainingQty fillPrice : Int) :
    (notifyFlags registry m w order fillQty remainingQty fillPrice).2.log =
      w.log ++ written (registry w.lookups order.sessionId) order.sessionId
        (fillNotice order fillQty remainingQty fillPrice) := by
  unfold notifyFlags World.lock written fillNotice
  cases registry w.lookups order.sessionId with
  | false => simp
  | true =>
    by_cases zero : remainingQty = 0
    · simp only [if_pos zero]
      rfl
    · simp only [if_neg zero]
      rfl

theorem notifyFlags_lookups (registry : Registry) (m : Int → Option Bool) (w : World)
    (order : Order) (fillQty remainingQty fillPrice : Int) :
    (notifyFlags registry m w order fillQty remainingQty fillPrice).2.lookups = w.lookups + 1 := by
  unfold notifyFlags World.lock
  cases registry w.lookups order.sessionId with
  | false => rfl
  | true =>
    by_cases zero : remainingQty = 0
    · simp only [if_pos zero]
      rfl
    · simp only [if_neg zero]
      rfl

def FlagBook.evict (registry : Registry) (f : FlagBook) (w : World) (t : OrderType)
    (front : Order) (rest : List Order) : FlagBook × World :=
  (⟨Function.update f.queue t rest, Function.update f.flags front.orderId none⟩,
    (w.writeIfLocked registry front.sessionId (.killConfirm front)).record (.evicted front))

def FlagBook.tradeFronts (registry : Registry) (f : FlagBook) (w : World) (bo : Order)
    (bids : List Order) (ao : Order) (asks : List Order) : FlagBook × World :=
  let fillQty := min bo.qty ao.qty
  let bidTold := notifyFlags registry f.flags (w.record (.trade bo ao fillQty ao.priceLevel))
    (afterFill bo fillQty) fillQty (bo.qty - fillQty) ao.priceLevel
  let askTold := notifyFlags registry bidTold.1 bidTold.2 (afterFill ao fillQty) fillQty
    (ao.qty - fillQty) ao.priceLevel
  (⟨bySide (fillFront bo bids fillQty) (fillFront ao asks fillQty), askTold.1⟩, askTold.2)

def evictEvents (registry : Registry) (w : World) (front : Order) : List Event :=
  written (registry w.lookups front.sessionId) front.sessionId (.killConfirm front) ++
    [.evicted front]

def tradeEvents (registry : Registry) (w : World) (bo ao : Order) : List Event :=
  let fillQty := min bo.qty ao.qty
  .trade bo ao fillQty ao.priceLevel ::
    (written (registry w.lookups bo.sessionId) bo.sessionId
        (fillNotice (afterFill bo fillQty) fillQty (bo.qty - fillQty) ao.priceLevel) ++
      written (registry (w.lookups + 1) ao.sessionId) ao.sessionId
        (fillNotice (afterFill ao fillQty) fillQty (ao.qty - fillQty) ao.priceLevel))

theorem evict_log (registry : Registry) (f : FlagBook) (w : World) (t : OrderType) (front : Order)
    (rest : List Order) :
    (f.evict registry w t front rest).2.log = w.log ++ evictEvents registry w front := by
  unfold FlagBook.evict World.record evictEvents
  rw [writeIfLocked_log, List.append_assoc]

theorem tradeFronts_log (registry : Registry) (f : FlagBook) (w : World) (bo : Order)
    (bids : List Order) (ao : Order) (asks : List Order) :
    (f.tradeFronts registry w bo bids ao asks).2.log = w.log ++ tradeEvents registry w bo ao := by
  simp only [FlagBook.tradeFronts, tradeEvents, notifyFlags_log, notifyFlags_lookups, World.record,
    List.append_assoc, List.cons_append]
  rfl

theorem mem_evict {registry : Registry} {f : FlagBook} {w : World} {t u : OrderType}
    {front o : Order} {rest : List Order} (queue : f.queue t = front :: rest)
    (ho : o ∈ (f.evict registry w t front rest).1.queue u) : o ∈ f.queue u :=
  (rest_sublist queue u).subset ho

theorem mem_tradeFronts {registry : Registry} {f : FlagBook} {w : World} {bo ao o : Order}
    {bids asks : List Order} {u : OrderType} (buy : f.queue .buy = bo :: bids)
    (sell : f.queue .sell = ao :: asks)
    (ho : o ∈ (f.tradeFronts registry w bo bids ao asks).1.queue u) :
    o ∈ f.queue u ∨ ∃ front ∈ f.queue u,
      o = afterFill front (min bo.qty ao.qty) ∧ o.qty ≠ 0 ∧ min bo.qty ao.qty ≤ front.qty := by
  cases u with
  | buy =>
    rcases mem_fillFront ho with later | ⟨rfl, left⟩
    · exact Or.inl (by rw [buy]; exact List.mem_cons_of_mem _ later)
    · exact Or.inr ⟨bo, by rw [buy]; simp, rfl, left, min_le_left _ _⟩
  | sell =>
    rcases mem_fillFront ho with later | ⟨rfl, left⟩
    · exact Or.inl (by rw [sell]; exact List.mem_cons_of_mem _ later)
    · exact Or.inr ⟨ao, by rw [sell]; simp, rfl, left, min_le_right _ _⟩

section Rule
variable (registry : Registry) (P : FlagBook → World → Prop)

theorem drainFlags_rule (t : OrderType)
    (evict : ∀ f w front rest, P f w → f.queue t = front :: rest →
      P (f.evict registry w t front rest).1 (f.evict registry w t front rest).2)
    (l : List Order) : ∀ (f : FlagBook) (w : World), f.queue t = l → P f w →
      P ⟨Function.update f.queue t (drainFlags registry l f.flags w).1,
        (drainFlags registry l f.flags w).2.1⟩ (drainFlags registry l f.flags w).2.2 := by
  induction l with
  | nil =>
    intro f w queue h
    unfold drainFlags
    rwa [← queue, Function.update_eq_self]
  | cons front rest ih =>
    intro f w queue h
    unfold drainFlags
    split
    · have evicted := evict f w front rest h queue
      have drained := ih (f.evict registry w t front rest).1 (f.evict registry w t front rest).2
        (Function.update_self _ _ _) evicted
      unfold FlagBook.evict at drained
      rwa [Function.update_idem] at drained
    · rwa [← queue, Function.update_eq_self]

theorem drainBoth_rule
    (evict : ∀ f w t front rest, P f w → f.queue t = front :: rest →
      P (f.evict registry w t front rest).1 (f.evict registry w t front rest).2)
    (f : FlagBook) (w : World) (h : P f w) :
    P (f.drainBoth registry w).1 (f.drainBoth registry w).2 := by
  have bids := drainFlags_rule registry P .buy (fun f w => evict f w .buy) (f.queue .buy) f w rfl h
  rw [update_buy] at bids
  have asks := drainFlags_rule registry P .sell (fun f w => evict f w .sell) (f.queue .sell)
    ⟨bySide (drainFlags registry (f.queue .buy) f.flags w).1 (f.queue .sell), _⟩ _ rfl bids
  rwa [update_sell] at asks

theorem matchBest_rule
    (trade : ∀ f w bo bids ao asks, P f w → f.queue .buy = bo :: bids →
      f.queue .sell = ao :: asks → ao.priceLevel ≤ bo.priceLevel →
      P (f.tradeFronts registry w bo bids ao asks).1 (f.tradeFronts registry w bo bids ao asks).2)
    {f f' : FlagBook} {w w' : World} (made : f.matchBest registry w = some (f', w'))
    (h : P f w) : P f' w' := by
  unfold FlagBook.matchBest at made
  split at made
  · rename_i bo bids ao asks buy sell
    split at made
    · cases made
    · rename_i crossed
      cases made
      exact trade f w bo bids ao asks h buy sell (Int.not_lt.mp crossed)
  · cases made

theorem updateLoop_rule
    (evict : ∀ f w t front rest, P f w → f.queue t = front :: rest →
      P (f.evict registry w t front rest).1 (f.evict registry w t front rest).2)
    (trade : ∀ f w bo bids ao asks, P f w → f.queue .buy = bo :: bids →
      f.queue .sell = ao :: asks → ao.priceLevel ≤ bo.priceLevel →
      P (f.tradeFronts registry w bo bids ao asks).1 (f.tradeFronts registry w bo bids ao asks).2)
    (fuel : Nat) : ∀ (f : FlagBook) (w : World), P f w →
      P (f.updateLoop registry fuel w).1 (f.updateLoop registry fuel w).2 := by
  induction fuel with
  | zero => exact fun _ _ h => h
  | succ fuel ih =>
    intro f w h
    have drained := drainBoth_rule registry P evict f w h
    unfold FlagBook.updateLoop
    simp only
    cases made : (f.drainBoth registry w).1.matchBest registry (f.drainBoth registry w).2 with
    | none => exact drained
    | some next => exact ih _ _ (matchBest_rule registry P trade made drained)

theorem updateBook_rule
    (evict : ∀ f w t front rest, P f w → f.queue t = front :: rest →
      P (f.evict registry w t front rest).1 (f.evict registry w t front rest).2)
    (trade : ∀ f w bo bids ao asks, P f w → f.queue .buy = bo :: bids →
      f.queue .sell = ao :: asks → ao.priceLevel ≤ bo.priceLevel →
      P (f.tradeFronts registry w bo bids ao asks).1 (f.tradeFronts registry w bo bids ao asks).2)
    (f : FlagBook) (w : World) (h : P f w) :
    P (f.updateBook registry w).1 (f.updateBook registry w).2 :=
  updateLoop_rule registry P evict trade _ f w h

end Rule

theorem updateBook_positive (registry : Registry) (f : FlagBook) (w : World)
    (positive : ∀ t, ∀ o ∈ f.queue t, 0 < o.qty) :
    ∀ t, ∀ o ∈ (f.updateBook registry w).1.queue t, 0 < o.qty := by
  refine updateBook_rule registry (fun g _ => ∀ t, ∀ o ∈ g.queue t, 0 < o.qty) ?_ ?_ f w positive
  · intro g v t front rest h queue u o ho
    exact h u o (mem_evict queue ho)
  · intro g v bo bids ao asks h buy sell _ u o ho
    rcases mem_tradeFronts buy sell ho with old | ⟨front, member, rfl, left, enough⟩
    · exact h u o old
    · simp only [afterFill] at left ⊢
      omega

theorem updateBook_origin (registry : Registry) (f : FlagBook) (w : World) :
    ∀ t, ∀ o ∈ (f.updateBook registry w).1.queue t, ∃ before ∈ f.queue t,
      before.orderId = o.orderId ∧ before.sessionId = o.sessionId := by
  refine updateBook_rule registry (fun g _ => ∀ t, ∀ o ∈ g.queue t, ∃ before ∈ f.queue t,
    before.orderId = o.orderId ∧ before.sessionId = o.sessionId) ?_ ?_ f w
      fun t o ho => ⟨o, ho, rfl, rfl⟩
  · intro g v t front rest h queue u o ho
    exact h u o (mem_evict queue ho)
  · intro g v bo bids ao asks h buy sell _ u o ho
    rcases mem_tradeFronts buy sell ho with old | ⟨front, member, rfl, _⟩
    · exact h u o old
    · exact h u front member

/-- The messages among `es` are about orders of `known`, and so are the queues. -/
structure Concerns (known : List Int) (queue : OrderType → List Order) (es : List Event) :
    Prop where
  resting : ∀ t, ∀ o ∈ queue t, o.orderId ∈ known
  messages : ∀ s m, .write s m ∈ es → ∃ id ∈ known, m.orderId? = some id

section Concerns
variable {known : List Int} {queue : OrderType → List Order} {es : List Event}

theorem Concerns.more (h : Concerns known queue es) {queue' : OrderType → List Order}
    (resting : ∀ t, ∀ o ∈ queue' t, o.orderId ∈ known) {more : List Event}
    (messages : ∀ s m, .write s m ∈ more → ∃ id ∈ known, m.orderId? = some id) :
    Concerns known queue' (es ++ more) := by
  constructor
  · exact resting
  · intro s m member
    rcases List.mem_append.mp member with old | new
    · exact h.messages s m old
    · exact messages s m new

theorem mem_written {told : Bool} {sessionId s : Int} {response m : Response}
    (member : .write s m ∈ written told sessionId response) : s = sessionId ∧ m = response := by
  unfold written at member
  split at member
  · simpa using member
  · cases member

theorem fillNotice_orderId (order : Order) (fillQty remainingQty fillPrice : Int) :
    (fillNotice order fillQty remainingQty fillPrice).orderId? = some order.orderId := by
  unfold fillNotice
  split <;> rfl

/-- Every message of `UPDATE_BOOK` is about an order that rested when it was called. -/
theorem updateBook_concerns (registry : Registry) (f : FlagBook) (w : World)
    (inside : ∀ t, ∀ o ∈ f.queue t, o.orderId ∈ known) :
    ∃ es, (f.updateBook registry w).2.log = w.log ++ es ∧
      Concerns known (f.updateBook registry w).1.queue es := by
  have start : ∃ es, w.log = w.log ++ es ∧ Concerns known f.queue es :=
    ⟨[], by simp, ⟨inside, fun _ _ h => by cases h⟩⟩
  refine updateBook_rule registry (fun g v => ∃ es, v.log = w.log ++ es ∧
    Concerns known g.queue es) ?_ ?_ f w start
  · rintro g v t front rest ⟨es, logs, concerns⟩ queue
    have member := concerns.resting t front (by rw [queue]; simp)
    refine ⟨es ++ evictEvents registry v front, by rw [evict_log, logs, List.append_assoc],
      concerns.more ?_ ?_⟩
    · intro u o ho
      exact concerns.resting u o (mem_evict queue ho)
    · intro s m sent
      rcases List.mem_append.mp sent with sent | sent
      · obtain ⟨_, rfl⟩ := mem_written sent
        exact ⟨_, member, rfl⟩
      · simp at sent
  · rintro g v bo bids ao asks ⟨es, logs, concerns⟩ buy sell _
    have bid := concerns.resting .buy bo (by rw [buy]; simp)
    have ask := concerns.resting .sell ao (by rw [sell]; simp)
    refine ⟨es ++ tradeEvents registry v bo ao, by rw [tradeFronts_log, logs, List.append_assoc],
      concerns.more ?_ ?_⟩
    · intro u o ho
      rcases mem_tradeFronts buy sell ho with old | ⟨front, member, rfl, _⟩
      · exact concerns.resting u o old
      · exact concerns.resting u front member
    · intro s m sent
      rcases List.mem_cons.mp sent with sent | sent
      · cases sent
      rcases List.mem_append.mp sent with sent | sent
      · obtain ⟨_, rfl⟩ := mem_written sent
        exact ⟨_, bid, fillNotice_orderId _ _ _ _⟩
      · obtain ⟨_, rfl⟩ := mem_written sent
        exact ⟨_, ask, fillNotice_orderId _ _ _ _⟩

end Concerns
end MarketBookExchange
