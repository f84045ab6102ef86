import MarketBookExchange.LifeCycle
import MarketBookExchange.MulticastFeed

/- What a session may learn from its messages: of its own orders only, and of each only after it
   has been acknowledged. -/
namespace MarketBookExchange
open RankedList Outcome KillFlagTable Transitions

/-- The same order, but for its quantity and its kill target. -/
def SameOrder (o sent : Order) : Prop :=
  { o with qty := sent.qty, delId := sent.delId } = sent

/-- A submitted order with what is left of it. -/
structure Remains (o sent : Order) : Prop where
  same : SameOrder o sent
  left : 0 < o.qty ∧ o.qty ≤ sent.qty

def withinLimit (sent : Order) (price : Int) : Prop :=
  match sent.orderType with
  | .buy => price ≤ sent.priceLevel
  | .sell => sent.priceLevel ≤ price

/-- What a matching thread may say of a submitted order. -/
def Concerning (sent : Order) : Response → Prop
  | .fullFill o fillQty fillPrice => SameOrder o sent ∧ o.qty = 0 ∧
      (0 < fillQty ∧ fillQty ≤ sent.qty) ∧ withinLimit sent fillPrice
  | .partialFill o fillQty remainingQty fillPrice => Remains o sent ∧ o.qty = remainingQty ∧
      (0 < fillQty ∧ fillQty + remainingQty ≤ sent.qty) ∧ withinLimit sent fillPrice
  | .killConfirm o => Remains o sent
  | _ => False

def LateError (code : Int) : Prop := code = symbolNotFound ∨ code = invalidOrderId

def Told (orders : List Order) (session : Int) (m : Response) : Prop :=
  (∃ code, m = .error code ∧ LateError code) ∨
    ∃ sent ∈ orders, sent.sessionId = session ∧ Concerning sent m

theorem Told.more {orders : List Order} {session : Int} {m : Response} (h : Told orders session m)
    (later : List Order) : Told (orders ++ later) session m := by
  rcases h with code | ⟨sent, member, own, concerning⟩
  · exact Or.inl code
  · exact Or.inr ⟨sent, List.mem_append_left _ member, own, concerning⟩

/-- What rests in a book has been submitted. -/
def Resting (orders : List Order) (f : FlagBook) : Prop :=
  ∀ t, ∀ o ∈ f.queue t, o.orderType = t ∧ ∃ sent ∈ orders, Remains o sent

theorem Resting.more {orders : List Order} {f : FlagBook} (h : Resting orders f)
    (later : List Order) : Resting (orders ++ later) f := by
  intro t o member
  obtain ⟨side, sent, submitted, remains⟩ := h t o member
  exact ⟨side, sent, List.mem_append_left _ submitted, remains⟩

section Book
variable {orders : List Order} {registry : Registry} {f : FlagBook} {w : World}

theorem remains_fill {o sent : Order} (h : Remains o sent) {fillQty : Int} (low : 0 < fillQty)
    (less : fillQty < o.qty) : Remains (afterFill o fillQty) sent := by
  have left := h.left
  constructor
  · exact h.same
  · simp only [afterFill]
    omega

theorem fillNotice_concerning {o sent : Order} (h : Remains o sent) {fillQty price : Int}
    (low : 0 < fillQty) (high : fillQty ≤ o.qty) (limit : withinLimit sent price) :
    Concerning sent (fillNotice (afterFill o fillQty) fillQty (o.qty - fillQty) price) := by
  have left := h.left
  unfold fillNotice
  split
  · rename_i nothing
    exact ⟨h.same, nothing, ⟨low, high.trans left.2⟩, limit⟩
  · have less : fillQty < o.qty := by omega
    exact ⟨remains_fill h low less, rfl, ⟨low, by omega⟩, limit⟩

theorem SameOrder.fields {o sent : Order} (h : SameOrder o sent) :
    o.orderId = sent.orderId ∧ o.sessionId = sent.sessionId ∧ o.orderType = sent.orderType ∧
      o.priceLevel = sent.priceLevel ∧ o.symbol = sent.symbol := by
  unfold SameOrder at h
  rw [← h]
  exact ⟨rfl, rfl, rfl, rfl, rfl⟩

/-- What has been written is about submitted orders, and so is what rests. -/
structure Speaks (orders : List Order) (f : FlagBook) (w : World) : Prop where
  resting : Resting orders f
  told : ∀ session m, .write session m ∈ w.log → Told orders session m

namespace Speaks

theorem evict (h : Speaks orders f w) {t : OrderType} {front : Order} {rest : List Order}
    (queue : f.queue t = front :: rest) :
    Speaks orders (f.evict registry w t front rest).1 (f.evict registry w t front rest).2 := by
  obtain ⟨_, sent, submitted, remains⟩ := h.resting t front (by rw [queue]; simp)
  constructor
  · exact fun u o member => h.resting u o (mem_evict queue member)
  · intro session m member
    rw [evict_log] at member
    rcases List.mem_append.mp member with old | new
    · exact h.told session m old
    · rcases List.mem_append.mp new with confirm | note
      · obtain ⟨rfl, rfl⟩ := mem_written confirm
        exact Or.inr ⟨sent, submitted, remains.same.fields.2.1.symm, remains⟩
      · simp at note

theorem trade (h : Speaks orders f w) {bo ao : Order} {bids asks : List Order}
    (buy : f.queue .buy = bo :: bids) (sell : f.queue .sell = ao :: asks)
    (crossed : ao.priceLevel ≤ bo.priceLevel) :
    Speaks orders (f.tradeFronts registry w bo bids ao asks).1
      (f.tradeFronts registry w bo bids ao asks).2 := by
  obtain ⟨bidSide, bid, bidSent, bidLeft⟩ := h.resting .buy bo (by rw [buy]; simp)
  obtain ⟨askSide, ask, askSent, askLeft⟩ := h.resting .sell ao (by rw [sell]; simp)
  have bidQty := bidLeft.left
  have askQty := askLeft.left
  have low : 0 < min bo.qty ao.qty := lt_min bidQty.1 askQty.1
  have bidLimit : withinLimit bid ao.priceLevel := by
    obtain ⟨_, _, side, price, _⟩ := bidLeft.same.fields
    unfold withinLimit
    rw [← side, bidSide, ← price]
    exact crossed
  have askLimit : withinLimit ask ao.priceLevel := by
    obtain ⟨_, _, side, price, _⟩ := askLeft.same.fields
    unfold withinLimit
    rw [← side, askSide, ← price]
  constructor
  · intro u o member
    rcases mem_tradeFronts buy sell member with old | ⟨front, old, rfl, left, enough⟩
    · exact h.resting u o old
    · obtain ⟨side, sent, submitted, remains⟩ := h.resting u front old
      refine ⟨side, sent, submitted, remains_fill remains low ?_⟩
      simp only [afterFill] at left
      omega
  · intro session m member
    rw [tradeFronts_log] at member
    rcases List.mem_append.mp member with old | new
    · exact h.told session m old
    · rcases List.mem_cons.mp new with made | new
      · cases made
      · rcases List.mem_append.mp new with toBid | toAsk
        · obtain ⟨rfl, rfl⟩ := mem_written toBid
          exact Or.inr ⟨bid, bidSent, bidLeft.same.fields.2.1.symm,
            fillNotice_concerning bidLeft low (min_le_left _ _) bidLimit⟩
        · obtain ⟨rfl, rfl⟩ := mem_written toAsk
          exact Or.inr ⟨ask, askSent, askLeft.same.fields.2.1.symm,
            fillNotice_concerning askLeft low (min_le_right _ _) askLimit⟩

theorem updateBook (h : Speaks orders f w) (registry : Registry) :
    Speaks orders (f.updateBook registry w).1 (f.updateBook registry w).2 := by
  apply updateBook_rule registry (Speaks orders)
  · exact fun g v t front rest h queue => h.evict queue
  · exact fun g v bo bids ao asks h buy sell crossed => h.trade buy sell crossed
  · exact h

end Speaks

theorem resting_dispatch (h : Resting orders f) {order : Order} (member : order ∈ orders)
    (checked : rejection order = none) (registry : Registry) (w : World) :
    Resting orders (f.dispatch registry w order).1 := by
  have kept : ((f.killOrder registry w order).1).queue = f.queue := by
    rw [Reads.killOrder_fst]
  unfold FlagBook.dispatch
  cases kind : order.requestType with
  | sendOrder =>
    intro t o new
    rcases mem_sendOrder.mp new with ⟨rfl, side⟩ | old
    · have booked : entry o = some o := by simp [entry, kind]
      exact ⟨side.symm, o, member, rfl, entry_positive checked booked, le_refl _⟩
    · exact h t o old
  | modifyOrder =>
    intro t o new
    have new : o ∈ ((f.killOrder registry w order).1.sendOrder { order with delId := 0 }).queue t :=
      new
    rcases mem_sendOrder.mp new with ⟨rfl, side⟩ | old
    · have booked : entry order = some { order with delId := 0 } := by simp [entry, kind]
      exact ⟨side.symm, order, member, rfl, entry_positive checked booked, le_refl _⟩
    · rw [kept] at old
      exact h t o old
  | killOrder =>
    simp only
    intro t o old
    rw [kept] at old
    exact h t o old

theorem told_error (orders : List Order) {told : Bool} {sessionId code session : Int} {m : Response}
    (late : LateError code) (member : .write session m ∈ written told sessionId (.error code)) :
    Told orders session m := by
  obtain ⟨_, rfl⟩ := mem_written member
  exact Or.inl ⟨code, rfl, late⟩

end Book

def Books (orders : List Order) (mb : MarketBook) : Prop :=
  ∀ s hash e, (mb.shards s).privMp hash = some e → ∃ f, Tracks e.book f ∧ Resting orders f

section Calls
variable {orders : List Order} {registry : Registry} {mb mb' : MarketBook} {w : World} {s : Nat}
variable {order : Order} {hash : Int}

theorem Books.processOne (h : Books orders mb) (member : order ∈ orders) (wire : FromWire order)
    (numbered : 1 ≤ order.orderId)
    (ran : mb.processOne registry {} s order hash = .ok (mb', w)) :
    Books orders mb' ∧ ∀ session m, .write session m ∈ w.log → Told orders session m := by
  have ordinary : ∀ o, entry order = some o → Ordinary o.orderId := by
    intro o booked
    apply ordinary_of_nonneg
    rw [entry_id booked]
    omega
  rcases processOne_ok ran with ⟨_, rfl, rfl⟩ | ⟨e, book, w₂, snapshot, known, called, _, rfl, rfl⟩
  · refine ⟨h, fun session m sent => ?_⟩
    rw [writeIfLocked_log] at sent
    exact told_error orders (Or.inl rfl) (by simpa using sent)
  · obtain ⟨f, tracks, resting⟩ := h s hash e known
    unfold OrderBook.process at called
    obtain ⟨⟨b₁, w₁⟩, dispatched, updated⟩ := bind_ok called
    obtain ⟨tracks₁, _⟩ := ends_ok (dispatch_tracks registry tracks {} ordinary) dispatched
    obtain ⟨tracks₂, same⟩ := ends_ok (updateBook_tracks registry tracks₁ w₁) updated
    have speaks : Speaks orders (f.dispatch registry {} order).1 w₁ := by
      constructor
      · exact resting_dispatch resting member wire.checked registry {}
      · intro session m sent
        rcases dispatch_answers dispatched with ⟨_, rfl⟩ | ⟨_, rfl⟩
        · rw [writeIfLocked_log] at sent
          exact told_error orders (Or.inr rfl) (by simpa using sent)
        · cases sent
    have after := speaks.updateBook registry
    simp only at same
    constructor
    · intro k other e' known'
      unfold MarketBook.setBook MarketBook.setShard at known'
      by_cases here : k = s
      · subst here
        simp only [Function.update_self] at known'
        by_cases own : other = hash
        · subst own
          rw [Function.update_self] at known'
          cases known'
          exact ⟨_, tracks₂, after.resting⟩
        · rw [Function.update_of_ne own] at known'
          exact h k other e' known'
      · simp only [Function.update_of_ne here] at known'
        exact h k other e' known'
    · intro session m sent
      unfold World.record at sent
      rcases List.mem_append.mp sent with told | note
      · rw [same] at told
        exact after.told session m told
      · simp at note

theorem Books.same (h : Books orders mb)
    (books : ∀ k, (mb'.shards k).privMp = (mb.shards k).privMp) : Books orders mb' := by
  intro k hash e known
  rw [books] at known
  exact h k hash e known

theorem Books.more (h : Books orders mb) (later : List Order) : Books (orders ++ later) mb := by
  intro k hash e known
  obtain ⟨f, tracks, resting⟩ := h k hash e known
  exact ⟨f, tracks, resting.more later⟩

end Calls

/-- What a session may be told after these messages: an error, the acknowledgement of an order
    of its own, or something about such an order that has been acknowledged. -/
def Entitled (session : Int) (before : List Response) (m : Response) : Prop :=
  (∃ code, m = .error code) ∨ (∃ o c, m = .ack o c ∧ o.sessionId = session) ∨
    ∃ sent c, .ack sent c ∈ before ∧ sent.sessionId = session ∧ Concerning sent m

def WellTold (session : Int) (wire : List Response) : Prop :=
  ∀ before m after, wire = before ++ m :: after → Entitled session before m

theorem WellTold.snoc {session : Int} {wire : List Response} (h : WellTold session wire)
    {next : Response} (entitled : Entitled session wire next) :
    WellTold session (wire ++ [next]) := by
  intro before m after split
  rcases List.eq_nil_or_concat after with rfl | ⟨front, last, rfl⟩
  · obtain ⟨rfl, same⟩ := List.append_inj' split rfl
    cases same
    exact entitled
  · rw [List.concat_eq_append, ← List.cons_append, ← List.append_assoc] at split
    exact h before m front (List.append_inj' split rfl).1

/-- Every session is told of its own orders only, and what will be told is of this kind. -/
structure OwnOnly (trace : List ThreadAction) (server : Server) : Prop where
  wires : ∀ session, WellTold session (server.wire session)
  outbox : ∀ s session m, (session, m) ∈ server.outbox s → Told (submitted trace) session m
  books : Books (submitted trace) server.market
  acked : ∀ session o, server.stage session = .acked o → ∃ c, .ack o c ∈ server.wire session
  submitted : ∀ o ∈ submitted trace, ∃ c, .ack o c ∈ server.wire o.sessionId

section OwnOnly
variable {shards threads : Nat} {symbols : List (List UInt8)} {trace : List ThreadAction}
variable {server server' : Server} {e e' : Exchange}

theorem books_new : Books [] (.newOn shards symbols) := by
  intro s hash e known
  rw [(MarketBook.newOn_books shards symbols s).2 hash e known]
  exact ⟨{}, tracks_new, fun _ _ nothing => by cases nothing⟩

theorem ownOnly_new : OwnOnly [] { market := .newOn shards symbols } := by
  constructor
  · intro session before m after split
    simp at split
  · intro s session m member
    cases member
  · exact books_new
  · intro session o acked
    cases acked
  · intro o member
    cases member

theorem mem_write {a session : Int} {m next : Response} (old : m ∈ server.wire a) :
    m ∈ (server.write session next).wire a := by
  unfold Server.write
  simp only
  by_cases own : a = session
  · subst own
    rw [Function.update_self]
    exact List.mem_append_left _ old
  · rwa [Function.update_of_ne own]

namespace OwnOnly

theorem write (h : OwnOnly trace server) {session : Int} {next : Response}
    (entitled : Entitled session (server.wire session) next) :
    OwnOnly trace (server.write session next) := by
  constructor
  · intro a
    unfold Server.write
    simp only
    by_cases own : a = session
    · subst own
      rw [Function.update_self]
      exact (h.wires a).snoc entitled
    · rw [Function.update_of_ne own]
      exact h.wires a
  · exact h.outbox
  · exact h.books
  · intro a o acked
    obtain ⟨c, member⟩ := h.acked a o acked
    exact ⟨c, mem_write member⟩
  · intro o member
    obtain ⟨c, member⟩ := h.submitted o member
    exact ⟨c, mem_write member⟩

theorem quiet (h : OwnOnly trace server) {action : ThreadAction}
    (unsubmitted : MarketBookExchange.submitted [action] = [])
    (wires : server'.wire = server.wire)
    (outbox : ∀ s session m, (session, m) ∈ server'.outbox s →
      Told (MarketBookExchange.submitted trace) session m)
    (books : Books (MarketBookExchange.submitted trace) server'.market)
    (acked : ∀ session o, server'.stage session = .acked o → ∃ c, .ack o c ∈ server'.wire session) :
    OwnOnly (trace ++ [action]) server' := by
  have same : MarketBookExchange.submitted (trace ++ [action]) =
      MarketBookExchange.submitted trace := by
    rw [submitted_append, unsubmitted, List.append_nil]
  constructor
  · rw [wires]
    exact h.wires
  · rw [same]
    exact outbox
  · rw [same]
    exact books
  · exact acked
  · rw [same, wires]
    exact h.submitted

theorem acked_setStage (h : OwnOnly trace server) {session : Int} {stage : Stage}
    (other : ∀ o, stage ≠ .acked o) : ∀ a o, (server.setStage session stage).stage a = .acked o →
      ∃ c, .ack o c ∈ server.wire a := by
  intro a o acked
  by_cases own : a = session
  · subst own
    rw [Server.setStage_self] at acked
    exact absurd acked (other o)
  · rw [Server.setStage_other server own] at acked
    exact h.acked a o acked

theorem flush (h : OwnOnly trace server) {s : Nat} {session : Int} {response : Response}
    {rest : List (Int × Response)} (next : server.outbox s = (session, response) :: rest) :
    OwnOnly (trace ++ [.handler (.flush s)])
      ((server.write session response).setOutbox s rest) := by
  have entitled : Entitled session (server.wire session) response := by
    rcases h.outbox s session response (by rw [next]; simp) with
      ⟨code, shape, _⟩ | ⟨sent, member, own, told⟩
    · exact Or.inl ⟨code, shape⟩
    · obtain ⟨c, acked⟩ := h.submitted sent member
      rw [own] at acked
      exact Or.inr (Or.inr ⟨sent, c, acked, own, told⟩)
  have written := h.write entitled
  apply written.quiet
  · rfl
  · rfl
  · intro k a m member
    unfold Server.setOutbox at member
    simp only at member
    by_cases here : k = s
    · rw [here, Function.update_self] at member
      exact h.outbox s a m (by rw [next]; exact List.mem_cons_of_mem _ member)
    · rw [Function.update_of_ne here] at member
      exact h.outbox k a m member
  · exact written.books
  · exact written.acked

theorem handler (h : OwnOnly trace server) (inOrder : InOrder trace server) {action : Action}
    (inHandler : action.inHandler) (taken : Step (fun _ => False) server action server') :
    OwnOnly (trace ++ [.handler action]) server' := by
  cases taken with
  | push acked => exact inHandler.elim
  | pop written head connected drained => exact inHandler.elim
  | accept idle decoded =>
    apply h.quiet
    · rfl
    · rfl
    · exact h.outbox
    · exact h.books
    · exact h.acked_setStage (by simp)
  | @refuse session message code idle refused =>
    have written : OwnOnly trace (server.write session (.error code)) := h.write (Or.inl ⟨code, rfl⟩)
    exact written.quiet rfl rfl written.outbox written.books written.acked
  | assign decoded =>
    apply h.quiet
    · rfl
    · rfl
    · exact h.outbox
    · exact h.books
    · exact h.acked_setStage (by simp)
  | @ack session order c assigned =>
    have own := (inOrder.mine session order (by rw [assigned]; rfl)).1
    have written : OwnOnly trace (server.write session (.ack order c)) :=
      h.write (Or.inr (Or.inl ⟨order, c, rfl, own⟩))
    apply written.quiet
    · rfl
    · rfl
    · exact written.outbox
    · exact written.books
    · intro a o acked
      by_cases here : a = session
      · subst here
        rw [Server.setStage_self] at acked
        cases acked
        refine ⟨c, ?_⟩
        unfold Server.setStage Server.write
        simp only
        rw [Function.update_self]
        exact List.mem_concat_self
      · rw [Server.setStage_other _ here] at acked
        exact written.acked a o acked
  | flush next => exact h.flush next

theorem submit (h : OwnOnly trace server) (inOrder : InOrder trace server) {session : Int}
    {order : Order} (acked : server.stage session = .acked order)
    (wires : server'.wire = server.wire) (outbox : server'.outbox = server.outbox)
    (stages : server'.stage = Function.update server.stage session .idle)
    (books : ∀ k, (server'.market.shards k).privMp = (server.market.shards k).privMp) :
    OwnOnly (trace ++ [.submit session order]) server' := by
  have own := (inOrder.mine session order (by rw [acked]; rfl)).1
  have one : MarketBookExchange.submitted [.submit session order] = [order] := rfl
  constructor
  · rw [wires]
    exact h.wires
  · intro s a m member
    rw [outbox] at member
    rw [submitted_append]
    exact (h.outbox s a m member).more _
  · rw [submitted_append]
    exact (h.books.same books).more _
  · intro a o acked'
    rw [stages] at acked'
    rw [wires]
    by_cases here : a = session
    · subst here
      rw [Function.update_self] at acked'
      cases acked'
    · rw [Function.update_of_ne here] at acked'
      exact h.acked a o acked'
  · intro o member
    rw [submitted_append, one] at member
    rw [wires]
    rcases List.mem_append.mp member with old | new
    · exact h.submitted o old
    · rw [List.mem_singleton.mp new, own]
      exact h.acked session order acked

theorem process (h : OwnOnly trace server) (delivered : Delivered
    (MarketBookExchange.submitted trace) server.market.currentId) {order : Order}
    (member : order ∈ MarketBookExchange.submitted trace) {registry : Registry} {i s : Nat}
    {hash : Int} {market : MarketBook} {w : World}
    (ran : server.market.processOne registry {} s order hash = .ok (market, w)) :
    OwnOnly (trace ++ [.process i s hash order])
      ({ server with market }.setOutbox s (messagesOf w.log)) := by
  obtain ⟨books, told⟩ := h.books.processOne member (delivered.fromWire order member)
    (delivered.issued order member).1 ran
  apply h.quiet
  · rfl
  · rfl
  · intro k a m sent
    unfold Server.setOutbox at sent
    simp only at sent
    by_cases here : k = s
    · rw [here, Function.update_self] at sent
      exact told a m (mem_messagesOf.mp sent)
    · rw [Function.update_of_ne here] at sent
      exact h.outbox k a m sent
  · exact books
  · exact h.acked

end OwnOnly

theorem held_submitted (placed : Placed shards threads trace e) {i : Nat} {order : Order}
    (popped : (e.worker i).popped = some order) : order ∈ submitted trace := by
  have flow := placed.flow i _ (placed.held i order popped).1
  have hand : order ∈ e.inHand i (e.worker i).shard := by
    unfold Exchange.inHand
    rw [if_pos rfl, popped]
    simp
  have all : order ∈ onShard shards (e.worker i).shard (submitted trace) := by
    rw [← flow]
    exact List.mem_append_right _ (List.mem_append_left _ hand)
  exact (List.mem_filter.mp all).1

theorem ownOnly_run (run : ExchangeRun shards threads symbols trace e) : OwnOnly trace e.server := by
  induction run with
  | start => exact ownOnly_new
  | @next trace e e' action before taken ih =>
    have inOrder := inOrder_run before
    cases taken with
    | handler inHandler taken => exact ih.handler inOrder inHandler taken
    | submit acked =>
      exact ih.submit inOrder acked rfl rfl rfl (MarketBook.setQueue_privMp _ _ · _)
    | skip drains ready written empty => exact ih.quiet rfl rfl ih.outbox ih.books ih.acked
    | pop drains ready written head =>
      exact ih.quiet rfl rfl ih.outbox (ih.books.same e.server.market.popQueue_privMp) ih.acked
    | process popped processed =>
      exact ih.process (delivered_submitted before)
        (held_submitted (placed_run before) (by rw [popped])) processed

/-- Whatever a session reads of an order is about an order of its own, and comes after that
    order's acknowledgement: with every field as it was acknowledged, for a price within its
    limit and for no more than its quantity. -/
theorem told_own_orders (run : ExchangeRun shards threads symbols trace e) {session : Int}
    {before after : List Response} {m : Response}
    (wire : e.server.wire session = before ++ m :: after) : Entitled session before m :=
  (ownOnly_run run).wires session before m after wire

end OwnOnly

/-- A partial fill, a confirmed kill and an error for session 1, a fill for session 2. -/
theorem told_own_orders_fourRequests : ∃ trace e, ExchangeRun 1 2 [nflx] trace e ∧
    e.server.wire 1 = [.ack firstBidOrder 'O'.toUInt8,
      .partialFill { firstBidOrder with qty := 2 } 3 2 90, .ack (cancelRequest 3) 'X'.toUInt8,
      .killConfirm { firstBidOrder with qty := 2 }, .ack (cancelRequest 4) 'X'.toUInt8,
      .error invalidOrderId] ∧
    Entitled 1 [.ack firstBidOrder 'O'.toUInt8]
      (.partialFill { firstBidOrder with qty := 2 } 3 2 90) ∧
    Entitled 1 [.ack firstBidOrder 'O'.toUInt8,
      .partialFill { firstBidOrder with qty := 2 } 3 2 90, .ack (cancelRequest 3) 'X'.toUInt8]
      (.killConfirm { firstBidOrder with qty := 2 }) ∧
    Entitled 1 [.ack firstBidOrder 'O'.toUInt8,
      .partialFill { firstBidOrder with qty := 2 } 3 2 90, .ack (cancelRequest 3) 'X'.toUInt8,
      .killConfirm { firstBidOrder with qty := 2 }, .ack (cancelRequest 4) 'X'.toUInt8]
      (.error invalidOrderId) ∧
    e.server.wire 2 = [.ack firstOfferOrder 'O'.toUInt8,
      .fullFill { firstOfferOrder with qty := 0 } 3 90] ∧
    Entitled 2 [.ack firstOfferOrder 'O'.toUInt8]
      (.fullFill { firstOfferOrder with qty := 0 } 3 90) := by
  obtain ⟨trace, e, run, _, _, _, _, wires⟩ := fourRequests_run
  refine ⟨trace, e, run, wires 1, ?_, ?_, ?_, wires 2, ?_⟩
  · exact told_own_orders run (wires 1)
  · exact told_own_orders run (wires 1)
  · exact told_own_orders run (wires 1)
  · exact told_own_orders run (wires 2)

end MarketBookExchange
