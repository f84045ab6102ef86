import MarketBookExchange.KillFlags

/- The queues with the kill flags as a plain map. No step of it can fail: within its
   limits the order book does exactly this, whatever the requests. -/
namespace MarketBookExchange
open RankedList Outcome KillFlagTable

structure FlagBook where
  queue : OrderType → List Order := fun _ => []
  flags : Int → Option Bool := fun _ => none

def drainFlags (registry : Registry) :
    List Order → (Int → Option Bool) → World → List Order × (Int → Option Bool) × World
  | [], m, w => ([], m, w)
  | front :: rest, m, w =>
    if (m front.orderId).getD false then
      let w := w.writeIfLocked registry front.sessionId (.killConfirm front)
      drainFlags registry rest (Function.update m front.orderId none) (w.record (.evicted front))
    else (front :: rest, m, w)

def notifyFlags (registry : Registry) (m : Int → Option Bool) (w : World) (order : Order)
    (fillQty remainingQty fillPrice : Int) : (Int → Option Bool) × World :=
  let (sp, w) := w.lock registry order.sessionId
  if !sp then (m, w)
  else if remainingQty = 0 then
    (Function.update m order.orderId none,
      w.record (.write order.sessionId (.fullFill order fillQty fillPrice)))
  else (m, w.record (.write order.sessionId (.partialFill order fillQty remainingQty fillPrice)))

/-- The orders nobody killed. -/
def liveOrders (m : Int → Option Bool) (l : List Order) : List Order :=
  l.filter fun o => !(m o.orderId).getD false

def snapshotSide (live : List Order) : List Order :=
  live.take snapshotLen ++ List.replicate (snapshotLen - live.length) ({} : Order)

namespace FlagBook

def sendOrder (f : FlagBook) (order : Order) : FlagBook where
  queue := Function.update f.queue order.orderType
    (insert (slotRank order.orderType) order (f.queue order.orderType))
  flags := Function.update f.flags order.orderId (some false)

def killOrder (registry : Registry) (f : FlagBook) (w : World) (order : Order) :
    FlagBook × World :=
  if f.flags order.delId = none then
    (f, w.writeIfLocked registry order.sessionId (.error invalidOrderId))
  else ({ f with flags := Function.update f.flags order.delId (some true) }, w)

def modifyOrder (registry : Registry) (f : FlagBook) (w : World) (order : Order) :
    FlagBook × World :=
  let (f, w) := f.killOrder registry w order
  (f.sendOrder { order with delId := 0 }, w)

def drainBoth (registry : Registry) (f : FlagBook) (w : World) : FlagBook × World :=
  let (bids, m, w) := drainFlags registry (f.queue .buy) f.flags w
  let (asks, m, w) := drainFlags registry (f.queue .sell) m w
  ({ queue := bySide bids asks, flags := m }, w)

def matchBest (registry : Registry) (f : FlagBook) (w : World) : Option (FlagBook × World) :=
  match f.queue .buy, f.queue .sell with
  | bo :: bids, ao :: asks =>
    if bo.priceLevel < ao.priceLevel then none
    else
      let fillQty := min bo.qty ao.qty
      let fillPrice := ao.priceLevel
      let w := w.record (.trade bo ao fillQty fillPrice)
      let (m, w) := notifyFlags registry f.flags w (afterFill bo fillQty) fillQty
        (bo.qty - fillQty) fillPrice
      let (m, w) := notifyFlags registry m w (afterFill ao fillQty) fillQty
        (ao.qty - fillQty) fillPrice
      some ({ queue := bySide (fillFront bo bids fillQty) (fillFront ao asks fillQty),
              flags := m }, w)
  | _, _ => none

def resting (f : FlagBook) : Nat := (f.queue .buy).length + (f.queue .sell).length

def updateLoop (registry : Registry) : Nat → FlagBook → World → FlagBook × World
  | 0, f, w => (f, w)
  | fuel + 1, f, w =>
    let (f, w) := f.drainBoth registry w
    match f.matchBest registry w with
    | none => (f, w)
    | some (f, w) => updateLoop registry fuel f w

def updateBook (registry : Registry) (f : FlagBook) (w : World) : FlagBook × World :=
  updateLoop registry (f.resting + 1) f w

def dispatch (registry : Registry) (f : FlagBook) (w : World) (order : Order) :
    FlagBook × World :=
  match order.requestType with
  | .sendOrder => (f.sendOrder order, w)
  | .modifyOrder => f.modifyOrder registry w order
  | .killOrder => f.killOrder registry w order

def process (registry : Registry) (f : FlagBook) (w : World) (order : Order) :
    FlagBook × World :=
  let (f, w) := f.dispatch registry w order
  f.updateBook registry w

def run (registry : Registry) (f : FlagBook) (w : World) (orders : List Order) :
    FlagBook × World :=
  orders.foldl (fun (f, w) order => f.process registry w order) (f, w)

theorem run_cons (registry : Registry) (f : FlagBook) (w : World) (order : Order)
    (orders : List Order) : f.run registry w (order :: orders) =
      (f.process registry w order).1.run registry (f.process registry w order).2 orders := rfl

def createSnapshot (f : FlagBook) : ObSnapshot where
  buySide := snapshotSide (liveOrders f.flags (f.queue .buy))
  sellSide := snapshotSide (liveOrders f.flags (f.queue .sell))

end FlagBook

theorem mem_sendOrder {f : FlagBook} {o x : Order} {t : OrderType} :
    x ∈ (f.sendOrder o).queue t ↔ x = o ∧ t = o.orderType ∨ x ∈ f.queue t := by
  simp only [FlagBook.sendOrder]
  by_cases side : t = o.orderType
  · subst side
    rw [Function.update_self]
    simp
  · rw [Function.update_of_ne side]
    simp [side]

theorem distinct_sendOrder {f : FlagBook} (distinct : (ids (f.queue .buy) ++ ids (f.queue .sell)).Nodup)
    {o : Order} (new : ∀ t, ∀ x ∈ f.queue t, x.orderId ≠ o.orderId) :
    (ids ((f.sendOrder o).queue .buy) ++ ids ((f.sendOrder o).queue .sell)).Nodup := by
  have away : o.orderId ∉ ids (f.queue .buy) ++ ids (f.queue .sell) := by
    intro old
    rcases List.mem_append.mp old with old | old
    · obtain ⟨x, hx, same⟩ := List.mem_map.mp old
      exact new _ x hx same
    · obtain ⟨x, hx, same⟩ := List.mem_map.mp old
      exact new _ x hx same
  have all := List.nodup_cons.mpr ⟨away, distinct⟩
  have perm : (ids (insert (slotRank o.orderType) o (f.queue o.orderType))).Perm
      (o.orderId :: ids (f.queue o.orderType)) := (perm_insert o _).map _
  simp only [FlagBook.sendOrder]
  cases side : o.orderType with
  | buy =>
    rw [side] at perm
    rw [Function.update_self, Function.update_of_ne (by simp)]
    exact (perm.append_right _).nodup_iff.mpr all
  | sell =>
    rw [side] at perm
    rw [Function.update_self, Function.update_of_ne (by simp)]
    exact ((perm.append_left _).trans List.perm_middle).nodup_iff.mpr all

/-- The table holds the flags and no resting order's id is a slot marker. -/
structure Reads (q : QueueBook) (f : FlagBook) : Prop where
  queue : q.queue = f.queue
  rep : TableRep q.killedOrders f.flags
  ordinary : ∀ t, ∀ o ∈ f.queue t, Ordinary o.orderId

section Steps
variable (registry : Registry)

theorem drainQueue_eq {l : List Order} (ordinary : ∀ o ∈ l, Ordinary o.orderId) :
    ∀ {kt : KillFlagTable} {m : Int → Option Bool} (w : World), TableRep kt m →
      ∃ kt', TableRep kt' (drainFlags registry l m w).2.1 ∧ drainQueue registry l kt w =
        .ok ((drainFlags registry l m w).1, kt', (drainFlags registry l m w).2.2) := by
  induction l with
  | nil => exact fun w rep => ⟨_, rep, rfl⟩
  | cons front rest ih =>
    intro kt m w rep
    have known := ordinary front (by simp)
    rw [drainQueue, isKilled_ok rep known, ok_bind, drainFlags]
    cases killed : (m front.orderId).getD false with
    | false => exact ⟨kt, rep, rfl⟩
    | true =>
      obtain ⟨kt', erased, rep'⟩ := erase_ok rep known
      simp only [if_true, erased, ok_bind]
      exact ih (fun o ho => ordinary o (by simp [ho])) _ rep'

theorem drainFlags_suffix (l : List Order) :
    ∀ (m : Int → Option Bool) (w : World), (drainFlags registry l m w).1 <:+ l := by
  induction l with
  | nil => exact fun _ _ => List.suffix_refl _
  | cons front rest ih =>
    intro m w
    rw [drainFlags]
    split
    · exact (ih _ _).trans (List.suffix_cons front rest)
    · exact List.suffix_refl _

theorem notifyFill_eq {kt : KillFlagTable} {m : Int → Option Bool} (rep : TableRep kt m)
    (order : Order) (ordinary : Ordinary order.orderId) (w : World)
    (fillQty remainingQty fillPrice : Int) :
    ∃ kt', TableRep kt' (notifyFlags registry m w order fillQty remainingQty fillPrice).1 ∧
      notifyFill registry kt w order fillQty remainingQty fillPrice =
        .ok (kt', (notifyFlags registry m w order fillQty remainingQty fillPrice).2) := by
  rw [notifyFill, notifyFlags, World.lock]
  cases registry w.lookups order.sessionId with
  | false => exact ⟨kt, rep, rfl⟩
  | true =>
    by_cases zero : remainingQty = 0
    · obtain ⟨kt', erased, rep'⟩ := erase_ok rep ordinary
      simp only [Bool.not_true, Bool.false_eq_true, if_false, if_pos zero, erased, ok_bind]
      exact ⟨kt', rep', rfl⟩
    · simp only [Bool.not_true, Bool.false_eq_true, if_false, if_neg zero]
      exact ⟨kt, rep, rfl⟩

theorem snapshotQueue_eq {kt : KillFlagTable} {m : Int → Option Bool} (rep : TableRep kt m)
    {l : List Order} (ordinary : ∀ o ∈ l, Ordinary o.orderId) :
    ∀ listed : List Order, listed.length ≤ snapshotLen → ∃ n,
      snapshotQueue kt l (listed ++ List.replicate (snapshotLen - listed.length) ({} : Order),
        listed.length) = .ok (snapshotSide (listed ++ liveOrders m l), n) := by
  induction l with
  | nil =>
    intro listed small
    refine ⟨listed.length, ?_⟩
    rw [snapshotQueue, snapshotSide, liveOrders, List.filter_nil, List.append_nil,
      List.take_of_length_le small]
  | cons o rest ih =>
    intro listed small
    have next := ih fun x hx => ordinary x (by simp [hx])
    rw [snapshotQueue, isKilled_ok rep (ordinary o (by simp)), ok_bind]
    by_cases room : listed.length < snapshotLen
    · rw [if_pos room]
      cases killed : (m o.orderId).getD false with
      | true =>
        rw [show liveOrders m (o :: rest) = liveOrders m rest from
          List.filter_cons_of_neg (by simp [killed])]
        exact next listed small
      | false =>
        rw [show liveOrders m (o :: rest) = o :: liveOrders m rest from
          List.filter_cons_of_pos (by simp [killed])]
        obtain ⟨k, blanks⟩ : ∃ k, snapshotLen - listed.length = k + 1 :=
          ⟨snapshotLen - listed.length - 1, by omega⟩
        have left : snapshotLen - (listed ++ [o]).length = k := by
          rw [List.length_append, List.length_singleton]
          omega
        have more := next (listed ++ [o]) (by rw [List.length_append]; exact room)
        rw [left, List.append_assoc, List.append_assoc] at more
        rw [blanks, List.replicate_succ, List.set_append_right _ _ (Nat.le_refl _), Nat.sub_self,
          List.set_cons_zero]
        simpa using more
    · have full : listed.length = snapshotLen := by omega
      refine ⟨listed.length, ?_⟩
      rw [if_neg room, snapshotSide, full, Nat.sub_self, List.take_left' full,
        List.length_append, show snapshotLen - (listed.length + _) = 0 by omega]

theorem snapshotSide_eq_queue {kt : KillFlagTable} {m : Int → Option Bool} (rep : TableRep kt m)
    {l : List Order} (ordinary : ∀ o ∈ l, Ordinary o.orderId) :
    ∃ n, snapshotQueue kt l (List.replicate snapshotLen {}, 0) =
      .ok (snapshotSide (liveOrders m l), n) :=
  snapshotQueue_eq rep ordinary [] (Nat.zero_le _)

end Steps

/-- A request whose kill target, if it has one, is not a slot marker. -/
def Targeted (order : Order) : Prop := order.requestType ≠ .sendOrder → Ordinary order.delId

namespace Reads
variable (registry : Registry) {q : QueueBook} {f : FlagBook}

theorem sendOrder (h : Reads q f) (order : Order) (ordinary : Ordinary order.orderId) :
    Ends Fault.isLimit (fun q' => Reads q' (f.sendOrder order)) (q.sendOrder order) := by
  rw [QueueBook.sendOrder]
  rcases set_cases h.rep ordinary false with full | ⟨kt, ran, rep⟩
  · rw [full]
    trivial
  · rw [ran]
    refine ends_pure ⟨?_, rep, fun t o ho => ?_⟩
    · rw [FlagBook.sendOrder, ← h.queue]
      rfl
    · rcases mem_sendOrder.mp ho with ⟨rfl, _⟩ | old
      · exact ordinary
      · exact h.ordinary t o old

theorem killOrder_fst (w : World) (order : Order) :
    (f.killOrder registry w order).1 = { f with flags := markKilled f.flags order.delId } := by
  rw [FlagBook.killOrder, markKilled]
  split <;> rfl

theorem killOrder (h : Reads q f) (w : World) (order : Order) :
    ∃ r, q.killOrder registry w order = .ok r ∧ Reads r.1 (f.killOrder registry w order).1 ∧
      Noted w r.2 ∧ (Ordinary order.delId → r.2 = (f.killOrder registry w order).2) := by
  have ends : ∃ r, q.killOrder registry w order = .ok r := by
    obtain ⟨found, looked, here, _⟩ := find_ok h.rep.inv order.delId
    rw [QueueBook.killOrder, looked, ok_bind]
    cases found with
    | none => exact ⟨_, rfl⟩
    | some kf =>
      obtain ⟨kt, assigned, _⟩ := assign_ok h.rep (here kf rfl).1 true
      simp only [assigned, ok_bind]
      exact ⟨_, rfl⟩
  obtain ⟨⟨q', w'⟩, run⟩ := ends
  have rep := killOrder_flags h.rep run
  obtain ⟨queues, noted⟩ := killOrder_keeps run
  refine ⟨(q', w'), run, ?_, noted, fun ordinary => ?_⟩
  · rw [killOrder_fst]
    exact ⟨queues.trans h.queue, rep, h.ordinary⟩
  · obtain ⟨found, looked, spec⟩ := find_ordinary h.rep ordinary
    rw [FlagBook.killOrder]
    rcases QueueBook.killOrder_cases run with ⟨nothing, _, rfl⟩ | ⟨kf, kt, present, _, _, rfl⟩
    · rw [looked] at nothing
      cases nothing
      rw [if_pos (show f.flags order.delId = none from spec)]
    · rw [looked] at present
      cases present
      rw [if_neg (by rw [spec.2.2]; simp)]

theorem dispatch (h : Reads q f) (w : World) {order : Order}
    (ordinary : ∀ o, entry order = some o → Ordinary o.orderId) :
    Ends Fault.isLimit (fun r => Reads r.1 (f.dispatch registry w order).1 ∧ Noted w r.2 ∧
      (Targeted order → r.2 = (f.dispatch registry w order).2)) (q.dispatch registry w order) := by
  rw [QueueBook.dispatch, FlagBook.dispatch]
  cases kind : order.requestType with
  | sendOrder =>
    refine ends_bind (h.sendOrder order (ordinary order (by simp [entry, kind]))) fun q' h' => ?_
    exact ends_pure ⟨h', noted_refl w, fun _ => rfl⟩
  | modifyOrder =>
    obtain ⟨⟨q₁, w₁⟩, run, h₁, noted, told⟩ := h.killOrder registry w order
    simp only [QueueBook.modifyOrder, run, ok_bind]
    refine ends_bind (h₁.sendOrder { order with delId := 0 }
      (ordinary { order with delId := 0 } (by simp [entry, kind]))) fun q' h' => ?_
    exact ends_pure ⟨h', noted, fun targeted => told (targeted (by rw [kind]; simp))⟩
  | killOrder =>
    obtain ⟨⟨q₁, w₁⟩, run, h₁, noted, told⟩ := h.killOrder registry w order
    simp only [run]
    exact ⟨h₁, noted, fun targeted => told (targeted (by rw [kind]; simp))⟩

theorem drainBoth (h : Reads q f) (w : World) :
    ∃ q', q.drainBoth registry w = .ok (q', (f.drainBoth registry w).2) ∧
      Reads q' (f.drainBoth registry w).1 := by
  obtain ⟨kt, rep, bids⟩ := drainQueue_eq registry (h.ordinary .buy) w h.rep
  obtain ⟨kt', rep', asks⟩ := drainQueue_eq registry (h.ordinary .sell)
    (drainFlags registry (f.queue .buy) f.flags w).2.2 rep
  refine ⟨⟨(f.drainBoth registry w).1.queue, kt'⟩, ?_, rfl, rep', fun t o ho => ?_⟩
  · rw [QueueBook.drainBoth, h.queue, bids, ok_bind]
    simp only [asks, ok_bind]
    rfl
  · cases t with
    | buy => exact h.ordinary .buy o ((drainFlags_suffix _ _ _ _).subset ho)
    | sell => exact h.ordinary .sell o ((drainFlags_suffix _ _ _ _).subset ho)

theorem matchBest (h : Reads q f) (w : World) :
    ∃ r, q.matchBest registry w = .ok r ∧
      Option.Rel (fun x y => Reads x.1 y.1 ∧ x.2 = y.2) r (f.matchBest registry w) := by
  rw [QueueBook.matchBest, FlagBook.matchBest, h.queue]
  cases buy : f.queue .buy with
  | nil => exact ⟨none, rfl, .none⟩
  | cons bo bids =>
    cases sell : f.queue .sell with
    | nil => exact ⟨none, rfl, .none⟩
    | cons ao asks =>
      by_cases apart : bo.priceLevel < ao.priceLevel
      · simp only [if_pos apart]
        exact ⟨none, rfl, .none⟩
      simp only [if_neg apart]
      obtain ⟨kt, rep, bid⟩ := notifyFill_eq registry h.rep
        (afterFill bo (min bo.qty ao.qty)) (h.ordinary .buy bo (by rw [buy]; simp))
        (w.record (.trade bo ao (min bo.qty ao.qty) ao.priceLevel)) (min bo.qty ao.qty)
        (bo.qty - min bo.qty ao.qty) ao.priceLevel
      cases bidTold : notifyFlags registry f.flags _ (afterFill bo (min bo.qty ao.qty)) _ _ _ with
      | mk m₁ w₁ =>
      rw [bidTold] at rep bid
      obtain ⟨kt', rep', ask⟩ := notifyFill_eq registry rep
        (afterFill ao (min bo.qty ao.qty)) (h.ordinary .sell ao (by rw [sell]; simp)) w₁
        (min bo.qty ao.qty) (ao.qty - min bo.qty ao.qty) ao.priceLevel
      rw [afterFill] at bid ask
      simp only [bid, ok_bind, ask]
      refine ⟨_, rfl, .some ⟨⟨?_, rep', ?_⟩, rfl⟩⟩
      · funext t
        cases t <;> rfl
      · apply fillFronts_keep (P := fun _ o => Ordinary o.orderId) h.ordinary buy sell
        · exact fun _ => h.ordinary .buy bo (by rw [buy]; simp)
        · exact fun _ => h.ordinary .sell ao (by rw [sell]; simp)

theorem resting_eq (h : Reads q f) : q.resting = f.resting := by
  rw [QueueBook.resting, FlagBook.resting, h.queue]

theorem updateLoop (fuel : Nat) : ∀ {q : QueueBook} {f : FlagBook} (w : World), Reads q f →
    q.resting < fuel → ∃ q', q.updateLoop registry fuel w =
      .ok (q', (f.updateLoop registry fuel w).2) ∧ Reads q' (f.updateLoop registry fuel w).1 := by
  induction fuel with
  | zero => exact fun _ _ room => absurd room (Nat.not_lt_zero _)
  | succ fuel ih =>
    intro q f w h room
    obtain ⟨q₁, drained, h₁⟩ := h.drainBoth registry w
    have left := QueueBook.drainBoth_resting drained
    obtain ⟨r, matched, rel⟩ := h₁.matchBest registry (f.drainBoth registry w).2
    rw [QueueBook.updateLoop, FlagBook.updateLoop, drained, ok_bind]
    simp only [matched, ok_bind]
    cases rel' : f.drainBoth registry w
    rw [rel'] at rel h₁
    generalize FlagBook.matchBest registry _ _ = r' at rel ⊢
    cases rel with
    | none => exact ⟨q₁, rfl, h₁⟩
    | @some x y both =>
      obtain ⟨q₂, w₂⟩ := x
      obtain ⟨f₂, _⟩ := y
      obtain ⟨h₂, rfl⟩ := both
      have fewer := QueueBook.matchBest_resting matched
      exact ih w₂ h₂ (by omega)

theorem updateBook (h : Reads q f) (w : World) :
    ∃ q', q.updateBook registry w = .ok (q', (f.updateBook registry w).2) ∧
      Reads q' (f.updateBook registry w).1 := by
  rw [QueueBook.updateBook, FlagBook.updateBook, ← h.resting_eq]
  exact updateLoop registry _ w h (Nat.lt_succ_self _)

theorem createSnapshot (h : Reads q f) : q.createSnapshot = .ok f.createSnapshot := by
  obtain ⟨_, buys⟩ := snapshotSide_eq_queue h.rep (h.ordinary .buy)
  obtain ⟨_, sells⟩ := snapshotSide_eq_queue h.rep (h.ordinary .sell)
  simp only [QueueBook.createSnapshot, h.queue, buys, ok_bind, sells]
  rfl

end Reads

/-- The book's memory stands for the plain queues and flags. -/
def Tracks (b : OrderBook) (f : FlagBook) : Prop := ∃ q, Represents b q ∧ Reads q f

theorem tracks_new : Tracks {} {} :=
  ⟨{}, represents_new, rfl, new_rep, fun _ _ h => by cases h⟩

/-- `is_killed` takes an order at rest for killed exactly if a slot of the kill table says so. -/
def OrderBook.KilledInTable (b : OrderBook) : Prop :=
  ∀ t, ∀ o ∈ b.resting t, ∃ killed, b.killedOrders.isKilled o.orderId = .ok killed ∧
    (killed = true ↔
      ∃ i < b.killedOrders.slots.size, b.killedOrders.slots.get i = ⟨o.orderId, true⟩)

theorem Tracks.killedInTable {b : OrderBook} {f : FlagBook} (h : Tracks b f) :
    b.KilledInTable := by
  obtain ⟨q, rep, reads⟩ := h
  intro t o rests
  rw [resting_eq rep, reads.queue] at rests
  have ordinary := reads.ordinary t o rests
  have slots := reads.rep.flags o.orderId true
  rw [and_iff_right ordinary] at slots
  rw [rep.killed]
  refine ⟨_, isKilled_ok reads.rep ordinary, ?_⟩
  rw [← slots]
  cases f.flags o.orderId <;> simp

section Tracks
variable (registry : Registry) {b : OrderBook} {f : FlagBook}

/-- Only the limits can part a book from the queues it stands for. -/
theorem tracks_ends {α β : Type} {rel : α → β → Prop} {p : β → Prop} {x : Except Fault α}
    {y : Except Fault β} (sim : Simulates OutOfNodes rel x y) (ends : Ends Fault.isLimit p y) :
    Ends Fault.isLimit (fun a => ∃ b, p b ∧ rel a b) x := by
  refine ends_weaken (ends_mono (ends_of_simulates sim ends) ?_) ?_
  · rintro a ⟨b, _, h⟩
    exact ⟨b, h⟩
  · rintro e (rfl | limit)
    · trivial
    · exact limit

theorem sendOrder_tracks (h : Tracks b f) (order : Order) (ordinary : Ordinary order.orderId) :
    Ends Fault.isLimit (fun b' => Tracks b' (f.sendOrder order)) (b.sendOrder order) := by
  obtain ⟨q, rep, reads⟩ := h
  refine ends_mono (tracks_ends (sendOrder_simulates rep order) (reads.sendOrder order ordinary)) ?_
  rintro b' ⟨q', reads', rep'⟩
  exact ⟨q', rep', reads'⟩

theorem dispatch_tracks (h : Tracks b f) (w : World) {order : Order}
    (ordinary : ∀ o, entry order = some o → Ordinary o.orderId) :
    Ends Fault.isLimit (fun r => Tracks r.1 (f.dispatch registry w order).1 ∧ Noted w r.2 ∧
      (Targeted order → r.2 = (f.dispatch registry w order).2)) (b.dispatch registry w order) := by
  obtain ⟨q, rep, reads⟩ := h
  refine ends_mono (tracks_ends (dispatch_simulates registry rep w order)
    (reads.dispatch registry w ordinary)) ?_
  rintro ⟨b', w'⟩ ⟨⟨q', _⟩, ⟨reads', noted, told⟩, rep', rfl⟩
  exact ⟨⟨q', rep', reads'⟩, noted, told⟩

/-- `UPDATE_BOOK` always ends, and as the plain queues and flags do. -/
theorem updateBook_ends (h : Tracks b f) (w : World) :
    ∃ b', b.updateBook registry w = .ok (b', (f.updateBook registry w).2) ∧
      Tracks b' (f.updateBook registry w).1 := by
  obtain ⟨q, rep, reads⟩ := h
  obtain ⟨q', run, reads'⟩ := reads.updateBook registry w
  obtain ⟨b', ran, rep'⟩ := updateBook_ok registry rep run
  exact ⟨b', ran, q', rep', reads'⟩

theorem updateBook_tracks (h : Tracks b f) (w : World) :
    Ends Fault.isLimit (fun r => Tracks r.1 (f.updateBook registry w).1 ∧
      r.2 = (f.updateBook registry w).2) (b.updateBook registry w) := by
  obtain ⟨b', ran, tracks⟩ := updateBook_ends registry h w
  rw [ran]
  exact ⟨tracks, rfl⟩

theorem createSnapshot_tracks (h : Tracks b f) : b.createSnapshot = .ok f.createSnapshot := by
  obtain ⟨q, rep, reads⟩ := h
  rw [createSnapshot_eq rep, reads.createSnapshot]

theorem process_tracks (h : Tracks b f) (w : World) {order : Order}
    (ordinary : ∀ o, entry order = some o → Ordinary o.orderId) (targeted : Targeted order) :
    Ends Fault.isLimit (fun r => Tracks r.1 (f.process registry w order).1 ∧
      r.2 = (f.process registry w order).2) (b.process registry w order) := by
  refine ends_bind (dispatch_tracks registry h w ordinary) ?_
  rintro ⟨b₁, w₁⟩ ⟨h₁, _, told⟩
  have same := told targeted
  simp only at h₁ same
  subst same
  exact updateBook_tracks registry h₁ _

/-- A whole stream of requests, with the same messages and trades on both sides. -/
theorem run_tracks (orders : List Order) : ∀ {b : OrderBook} {f : FlagBook} (w : World),
    Tracks b f → (∀ key ∈ ids (accepted orders), Ordinary key) →
    (∀ order ∈ orders, Targeted order) →
    Ends Fault.isLimit (fun r => Tracks r.1 (f.run registry w orders).1 ∧
      r.2 = (f.run registry w orders).2) (b.run registry w orders) := by
  induction orders with
  | nil => exact fun w h _ _ => ⟨h, rfl⟩
  | cons order orders ih =>
    intro b f w h ordinary targeted
    have one : ∀ o, entry order = some o → Ordinary o.orderId := by
      intro o booked
      exact ordinary _ (by simp [accepted, ids, booked])
    rw [OrderBook.run, List.foldlM_cons, FlagBook.run, List.foldl_cons]
    refine ends_bind (process_tracks registry h w one (targeted order (by simp))) ?_
    rintro ⟨b₁, w₁⟩ ⟨h₁, same⟩
    simp only at h₁ same
    subst same
    refine ih _ h₁ (fun key hk => ordinary key ?_) (fun o ho => targeted o (by simp [ho]))
    exact mem_accepted_right hk

theorem process_ends (h : Tracks b f) (w : World) {order : Order}
    (ordinary : ∀ o, entry order = some o → Ordinary o.orderId) :
    Ends Fault.isLimit (fun r => ∃ f, Tracks r.1 f) (b.process registry w order) := by
  apply ends_bind (dispatch_tracks registry h w ordinary)
  rintro ⟨b₁, w₁⟩ ⟨h₁, _⟩
  exact ends_mono (updateBook_tracks registry h₁ w₁) fun r hr => ⟨_, hr.1⟩

/-- Whatever its kill targets, a run ends in nothing but the two limits. -/
theorem run_ends (orders : List Order) : ∀ {b : OrderBook} {f : FlagBook} (w : World),
    Tracks b f → (∀ key ∈ ids (accepted orders), Ordinary key) →
    Ends Fault.isLimit (fun r => ∃ f, Tracks r.1 f) (b.run registry w orders) := by
  induction orders with
  | nil => exact fun w h _ => ⟨_, h⟩
  | cons order orders ih =>
    intro b f w h ordinary
    have one : ∀ o, entry order = some o → Ordinary o.orderId := by
      intro o booked
      exact ordinary _ (by simp [accepted, ids, booked])
    rw [OrderBook.run, List.foldlM_cons]
    apply ends_bind (process_ends registry h w one)
    rintro ⟨b₁, w₁⟩ ⟨f₁, h₁⟩
    exact ih w₁ h₁ fun key hk => ordinary key (mem_accepted_right hk)

end Tracks
end MarketBookExchange
