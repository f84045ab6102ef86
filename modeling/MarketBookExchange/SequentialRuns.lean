import MarketBookExchange.LifeCycle
import MarketBookExchange.ShardQueues

/- Clients that wait for their answers: each request is served before the next one is read.
   Whatever such clients send, the server and its threads have a run that serves it. -/
namespace MarketBookExchange
open Outcome Transitions

/-- What has been served: the requests as they were numbered, and the messages in order. -/
structure Transcript where
  market : MarketBook
  orders : List Order := []
  messages : List (Int × Response) := []

/-- The requests of the sessions one after the other, with every session found. -/
def serveAll (shards : Nat) : MarketBook → List (Int × List UInt8) → Except Fault Transcript
  | market, [] => pure { market }
  | market, (session, message) :: rest => do
    match ← receive widths message with
    | .refused code =>
      let later ← serveAll shards market rest
      pure { later with messages := (session, .error code) :: later.messages }
    | .request request c =>
      let order := { request with orderId := market.assignOrderId.1, sessionId := session }
      let (market, w) ← market.assignOrderId.2.processOne (fun _ _ => true) {}
        (shardOf shards order.symbol) order (symbolHash order.symbol)
      let later ← serveAll shards market rest
      pure { later with
        orders := order :: later.orders
        messages := (session, .ack order c) :: messagesOf w.log ++ later.messages }

/-- Nothing is under way: no request in a handler or a queue, no message to be written. -/
structure Server.Quiet (server : Server) : Prop where
  stage : ∀ session, server.stage session = .idle
  outbox : ∀ s, server.outbox s = []
  queue : ∀ s, (server.market.shards s).queue = []

theorem quiet_newOn (shards : Nat) (symbols : List (List UInt8)) :
    ({ market := .newOn shards symbols } : Server).Quiet :=
  ⟨fun _ => rfl, fun _ => rfl, fun s => (MarketBook.newOn_books shards symbols s).1⟩

section Transcript
variable {shards : Nat} {market : MarketBook} {session : Int} {message : List UInt8}
  {rest : List (Int × List UInt8)} {served : Transcript}

theorem serveAll_cons (ran : serveAll shards market ((session, message) :: rest) = .ok served) :
    (∃ code later, receive widths message = .ok (.refused code) ∧
      serveAll shards market rest = .ok later ∧
      served = { later with messages := (session, .error code) :: later.messages }) ∨
    ∃ request c order market' w later, receive widths message = .ok (.request request c) ∧
      order = { request with orderId := market.assignOrderId.1, sessionId := session } ∧
      market.assignOrderId.2.processOne (fun _ _ => true) {} (shardOf shards order.symbol) order
        (symbolHash order.symbol) = .ok (market', w) ∧
      serveAll shards market' rest = .ok later ∧
      served = { later with
        orders := order :: later.orders
        messages := (session, .ack order c) :: messagesOf w.log ++ later.messages } := by
  unfold serveAll at ran
  obtain ⟨result, received, ran⟩ := bind_ok ran
  cases result with
  | refused code =>
    obtain ⟨later, others, shape⟩ := bind_ok ran
    cases shape
    exact Or.inl ⟨code, later, received, others, rfl⟩
  | request request c =>
    obtain ⟨⟨market', w⟩, processed, next⟩ := bind_ok ran
    obtain ⟨later, others, shape⟩ := bind_ok next
    cases shape
    exact Or.inr ⟨request, c, _, market', w, later, received, rfl, processed, others, rfl⟩

end Transcript

section Handler
variable {present : Int → Prop} {server : Server} {session : Int}

theorem runs_acked (idle : server.stage session = .idle) {message : List UInt8}
    {request order : Order} {c : UInt8}
    (received : receive widths message = .ok (.request request c))
    (given : order =
      { request with orderId := server.market.assignOrderId.1, sessionId := session }) :
    Runs (Step present) server [.read session message, .assign session order, .ack session]
      { server with
        market := server.market.assignOrderId.2
        stage := Function.update server.stage session (.acked order)
        wire := Function.update server.wire session (server.wire session ++ [.ack order c]) } := by
  subst given
  have read : Runs (Step present) server ([] ++ [.read session message]) _ :=
    .next .start (.accept idle received)
  have assign := read.next (.assign (Server.setStage_self _ _ _))
  have ack := assign.next (.ack (Server.setStage_self _ _ _))
  simpa [Server.setStage, Server.write, Function.update_idem] using ack

theorem runs_flushed {s : Nat} {messages : List (Int × Response)}
    (next : server.outbox s = messages) :
    Runs (Step present) server (List.replicate messages.length (.flush s)) { server with
      wire := fun a => server.wire a ++ sentTo a messages
      outbox := Function.update server.outbox s [] } := by
  induction messages generalizing server with
  | nil =>
    have same : Function.update server.outbox s [] = server.outbox := by
      rw [← next, Function.update_eq_self]
    rw [same]
    simp only [sentTo, List.filterMap_nil, List.append_nil]
    exact .start
  | cons message rest ih =>
    obtain ⟨session, response⟩ := message
    have first : Runs (Step present) server ([] ++ [.flush s]) _ := .next .start (.flush next)
    have later := @ih ((server.write session response).setOutbox s rest) (Function.update_self _ _ _)
    have both := runs_append first later
    have wires : (fun a => ((server.write session response).setOutbox s rest).wire a ++
        sentTo a rest) = fun a => server.wire a ++ sentTo a ((session, response) :: rest) := by
      funext a
      rw [sentTo_cons, ← List.append_assoc, ← Server.wire_write]
      rfl
    rw [wires] at both
    simpa [Server.setOutbox, Server.write, List.replicate_succ, Function.update_idem] using both

end Handler

/-- What a session has read after its acknowledgement, the messages of the request and those of
    the requests that follow. -/
theorem sentTo_acked (server : Server) (session a : Int) (order : Order) (c : UInt8)
    (own later : List (Int × Response)) :
    Function.update server.wire session (server.wire session ++ [.ack order c]) a ++
      sentTo a own ++ sentTo a later =
      server.wire a ++ sentTo a ((session, .ack order c) :: own ++ later) := by
  have mine := Server.wire_write server session a (.ack order c)
  unfold Server.write at mine
  simp only at mine
  rw [mine, List.cons_append, sentTo_cons, sentTo_append]
  simp only [List.append_assoc]

section Sequential
variable {present : Int → Prop} {server : Server} {requests : List (Int × List UInt8)}
  {served : Transcript}

/-- One request with nothing else under way. -/
theorem runs_request (quiet : server.Quiet) {session : Int} {message : List UInt8}
    {request order : Order} {c : UInt8}
    (received : receive widths message = .ok (.request request c))
    (given : order =
      { request with orderId := server.market.assignOrderId.1, sessionId := session })
    {market : MarketBook} {w : World}
    (processed : server.market.assignOrderId.2.processOne (fun _ _ => true) {}
      (shardIndex order.symbol) order (symbolHash order.symbol) = .ok (market, w)) :
    ∃ trace, Runs (Step present) server trace { server with
        market
        wire := fun a => Function.update server.wire session
          (server.wire session ++ [.ack order c]) a ++ sentTo a (messagesOf w.log) } ∧
      .assign session order ∈ trace := by
  have empty : (server.market.assignOrderId.2.shards (shardIndex order.symbol)).queue = [] :=
    quiet.queue (shardIndex order.symbol)
  have head : ((server.market.assignOrderId.2.submitOrder order).shards
      (shardIndex order.symbol)).queue.head? = some order := by
    rw [MarketBook.submitOrder_queue, if_pos rfl, empty]
    rfl
  have drained : (server.market.assignOrderId.2.submitOrder order).drainOne (fun _ _ => true) {}
      (shardIndex order.symbol) = .ok (some (market, w)) := by
    rw [MarketBook.drainOne_alone empty]
    exact congrArg (fun r => r >>= fun r => Except.ok (some r)) processed
  have idle : Function.update (Function.update server.stage session (.acked order)) session
      .idle = server.stage := by
    rw [Function.update_idem, ← quiet.stage session, Function.update_eq_self]
  have acked := @runs_acked present _ _ (quiet.stage session) _ _ _ _ received given
  have push := acked.next (.push (Function.update_self _ _ _))
  unfold Server.setStage at push
  simp only [idle] at push
  have pop := push.next (.pop (quiet.outbox _) head (fun _ _ _ => rfl) drained)
  have flush := runs_append pop (runs_flushed (Function.update_self _ _ _))
  have still : Function.update (Function.update server.outbox (shardIndex order.symbol)
      (messagesOf w.log)) (shardIndex order.symbol) [] = server.outbox := by
    rw [Function.update_idem, ← quiet.outbox (shardIndex order.symbol),
      Function.update_eq_self]
  unfold Server.setOutbox at flush
  simp only [still] at flush
  exact ⟨_, flush, by simp⟩

/-- Every sequence of requests is served by a run of the server. -/
theorem runs_served (quiet : server.Quiet)
    (ran : serveAll numShards server.market requests = .ok served) :
    ∃ trace server', Runs (Step present) server trace server' ∧ server'.Quiet ∧
      server'.market = served.market ∧
      (∀ a, server'.wire a = server.wire a ++ sentTo a served.messages) ∧
      ∀ o ∈ served.orders, .assign o.sessionId o ∈ trace := by
  induction requests generalizing server served with
  | nil =>
    cases ran
    exact ⟨[], server, .start, quiet, rfl, fun a => (List.append_nil _).symm,
      fun _ member => by cases member⟩
  | cons first rest ih =>
    obtain ⟨session, message⟩ := first
    rcases serveAll_cons ran with ⟨code, later, refused, others, rfl⟩ |
      ⟨request, c, order, market', w, later, received, given, processed, others, rfl⟩
    · have refuse : Runs (Step present) server ([] ++ [.read session message]) _ :=
        .next .start (.refuse (quiet.stage session) refused)
      obtain ⟨more, server', run, quiet', market, wires, assigned⟩ :=
        @ih (server.write session (.error code)) _ ⟨quiet.stage, quiet.outbox, quiet.queue⟩ others
      refine ⟨_, server', runs_append refuse run, quiet', market, fun a => ?_,
        fun o member => List.mem_append_right _ (assigned o member)⟩
      rw [wires, Server.wire_write, sentTo_cons, List.append_assoc]
    · obtain ⟨asked, answered, issued⟩ := @runs_request present _ quiet _ _ _ _ _ received given
        _ _ processed
      have kept := (MarketBook.processOne_keeps processed).2
      obtain ⟨more, server', run, quiet', market, wires, assigned⟩ := @ih { server with
          market := market'
          wire := fun a => Function.update server.wire session
            (server.wire session ++ [.ack order c]) a ++ sentTo a (messagesOf w.log) }
        _ ⟨quiet.stage, quiet.outbox, fun s => by rw [kept]; exact quiet.queue s⟩ others
      refine ⟨_, server', runs_append answered run, quiet', market, fun a => ?_, fun o member => ?_⟩
      · rw [wires]
        exact sentTo_acked server session a order c _ _
      · rcases List.mem_cons.mp member with rfl | old
        · rw [show o.sessionId = session by rw [given]]
          exact List.mem_append_left _ issued
        · exact List.mem_append_right _ (assigned o old)

end Sequential

section Threads
variable {shards threads : Nat} {e : Exchange} {requests : List (Int × List UInt8)}
  {served : Transcript}

theorem exchange_handlers {actions : List Action} {server : Server}
    (run : Runs (Step fun _ => False) e.server actions server)
    (inside : ∀ action ∈ actions, action.inHandler) :
    Runs (ThreadStep shards threads) e (actions.map .handler) (e.setServer server) := by
  induction run with
  | start => exact .start
  | @next trace s s' action before taken ih =>
    have earlier := ih fun a member => inside a (List.mem_append_left _ member)
    rw [List.map_append]
    exact earlier.next (.handler (inside action (by simp)) taken)

/-- Each shard has a matching thread of its own, and it waits at the shard. -/
def Exchange.OneShardEach (shards threads : Nat) (e : Exchange) : Prop :=
  ∀ s, s < shards → ∃ i, i < threads ∧ shardRange shards threads i = (s, s + 1) ∧
    e.worker i = ⟨s, none⟩

theorem submitted_handlers (actions : List Action) : submitted (actions.map .handler) = [] := by
  unfold submitted
  rw [List.filterMap_eq_nil_iff]
  intro action member
  obtain ⟨_, _, rfl⟩ := List.mem_map.mp member
  rfl

theorem processed_handlers (actions : List Action) : processed (actions.map .handler) = [] := by
  unfold processed
  rw [List.filterMap_eq_nil_iff]
  intro action member
  obtain ⟨_, _, rfl⟩ := List.mem_map.mp member
  rfl

theorem runs_submitted {session : Int} (idle : e.server.stage session = .idle)
    {message : List UInt8} {request order : Order} {c : UInt8}
    (received : receive widths message = .ok (.request request c))
    (given : order =
      { request with orderId := e.server.market.assignOrderId.1, sessionId := session })
    {market : MarketBook}
    (queued : market = e.server.market.assignOrderId.2.submitOn shards order) :
    ∃ trace, Runs (ThreadStep shards threads) e trace (e.setServer { e.server with
        market
        wire := Function.update e.server.wire session
          (e.server.wire session ++ [.ack order c]) }) ∧
      submitted trace = [order] ∧ processed trace = [] := by
  have idle' : Function.update (Function.update e.server.stage session (.acked order)) session
      .idle = e.server.stage := by
    rw [Function.update_idem, ← idle, Function.update_eq_self]
  have acked := @exchange_handlers shards threads _ _ _
    (runs_acked idle received given) (by simp [Action.inHandler])
  have submit := acked.next (.submit (Function.update_self _ _ _))
  unfold Exchange.setMarket Exchange.setServer Server.setStage at submit
  simp only [idle', ← queued] at submit
  refine ⟨_, submit, ?_, ?_⟩
  · rw [submitted_append, submitted_handlers]
    rfl
  · rw [processed_append, processed_handlers]
    rfl

/-- A request that is alone in its queue is taken, processed and answered by its shard's
    thread. -/
theorem runs_processed {i s : Nat} {order : Order} (range : shardRange shards threads i = (s, s + 1))
    (thread : i < threads) (ready : e.worker i = ⟨s, none⟩) (written : ∀ k, e.server.outbox k = [])
    (here : shardOf shards order.symbol = s) (head : e.queue s = [order]) {market : MarketBook}
    {w : World} (ran : (e.server.market.popQueue s).processOne (fun _ _ => true) {} s order
      (symbolHash order.symbol) = .ok (market, w)) :
    ∃ trace, Runs (ThreadStep shards threads) e trace (e.setServer { e.server with
        market
        wire := fun a => e.server.wire a ++ sentTo a (messagesOf w.log) }) ∧
      submitted trace = [] ∧ processed trace = [order] := by
  have drains : Drains shards threads i s := by
    unfold Drains
    rw [range]
    exact ⟨thread, Nat.le_refl _, Nat.lt_succ_self _⟩
  subst here
  have pop : Runs (ThreadStep shards threads) e ([] ++ [.pop i _ order]) _ :=
    .next .start (.pop drains ready (fun k _ => written k) head)
  have process := pop.next (.process (setWorker_self _ _ _) ran)
  have again : nextShard shards threads i (shardOf shards order.symbol) =
      shardOf shards order.symbol := by
    unfold nextShard
    rw [range]
    simp
  have worker : Function.update e.worker i ⟨shardOf shards order.symbol, none⟩ = e.worker := by
    rw [← ready, Function.update_eq_self]
  unfold Exchange.setWorker Exchange.setServer Exchange.setMarket Exchange.setServer
    Server.setOutbox at process
  simp only [Function.update_idem, again, worker] at process
  have flush := runs_append process (exchange_handlers (runs_flushed (Function.update_self _ _ _))
    (by simp [Action.inHandler]))
  have still : Function.update (Function.update e.server.outbox (shardOf shards order.symbol)
      (messagesOf w.log)) (shardOf shards order.symbol) [] = e.server.outbox := by
    rw [Function.update_idem, ← written (shardOf shards order.symbol), Function.update_eq_self]
  unfold Exchange.setServer at flush
  simp only [still] at flush
  refine ⟨_, flush, ?_, ?_⟩
  · rw [submitted_append, submitted_handlers]
    rfl
  · rw [processed_append, processed_handlers]
    rfl

/-- Every sequence of requests is served by a run of the threads. -/
theorem exchange_served (pos : 0 < shards) (quiet : e.server.Quiet)
    (ready : e.OneShardEach shards threads)
    (ran : serveAll shards e.server.market requests = .ok served) :
    ∃ trace e', Runs (ThreadStep shards threads) e trace e' ∧ e'.server.Quiet ∧
      e'.OneShardEach shards threads ∧ e'.server.market = served.market ∧
      (∀ a, e'.server.wire a = e.server.wire a ++ sentTo a served.messages) ∧
      submitted trace = served.orders ∧ processed trace = served.orders := by
  induction requests generalizing e served with
  | nil =>
    cases ran
    exact ⟨[], e, .start, quiet, ready, rfl, fun a => (List.append_nil _).symm, rfl, rfl⟩
  | cons first rest ih =>
    obtain ⟨session, message⟩ := first
    rcases serveAll_cons ran with ⟨code, later, refused, others, rfl⟩ |
      ⟨request, c, order, market', w, later, received, given, handled, others, rfl⟩
    · have refuse : Runs (ThreadStep shards threads) e ([] ++ [.handler (.read session message)])
          _ := .next .start (.handler trivial (.refuse (quiet.stage session) refused))
      obtain ⟨more, e', run, quiet', ready', market, wires, subs, procs⟩ :=
        ih (e := e.setServer (e.server.write session (.error code)))
          ⟨quiet.stage, quiet.outbox, quiet.queue⟩ ready others
      refine ⟨_, e', runs_append refuse run, quiet', ready', market, fun a => ?_, ?_, ?_⟩
      · rw [wires, sentTo_cons, ← List.append_assoc, ← Server.wire_write]
        rfl
      · rw [submitted_append, subs]
        rfl
      · rw [processed_append, procs]
        rfl
    · have small := shardOf_lt pos order.symbol
      obtain ⟨i, thread, range, waits⟩ := ready _ small
      have empty : (e.server.market.assignOrderId.2.shards (shardOf shards order.symbol)).queue = [] :=
        quiet.queue _
      obtain ⟨market, queued⟩ : ∃ market,
        market = e.server.market.assignOrderId.2.submitOn shards order := ⟨_, rfl⟩
      have head : (market.shards (shardOf shards order.symbol)).queue = [order] := by
        rw [queued, MarketBook.submitOn_queue, if_pos rfl, empty]
        rfl
      rw [← MarketBook.popQueue_submitOn empty, ← queued] at handled
      obtain ⟨asks, submit, subs, procs⟩ :=
        @runs_submitted shards threads _ _ (quiet.stage session) _ _ _ _ received given _ queued
      obtain ⟨answers, process, subs', procs'⟩ := runs_processed (e := e.setServer { e.server with
          market
          wire := Function.update e.server.wire session
            (e.server.wire session ++ [.ack order c]) })
        range thread waits quiet.outbox rfl head handled
      have kept := (MarketBook.processOne_keeps handled).2
      rw [queued, MarketBook.popQueue_submitOn empty] at kept
      obtain ⟨more, e', run, quiet', ready', sameMarket, wires, subs₁, procs₁⟩ := ih
        (e := e.setServer { e.server with
          market := market'
          wire := fun a => Function.update e.server.wire session
            (e.server.wire session ++ [.ack order c]) a ++ sentTo a (messagesOf w.log) })
        ⟨quiet.stage, quiet.outbox, fun s => (kept s).trans (quiet.queue s)⟩ ready others
      refine ⟨_, e', runs_append submit (runs_append process run), quiet', ready', sameMarket,
        fun a => ?_, ?_, ?_⟩
      · rw [wires]
        exact sentTo_acked e.server session a order c _ _
      · rw [submitted_append, submitted_append, subs, subs', subs₁]
        rfl
      · rw [processed_append, processed_append, procs, procs', procs₁]
        rfl

end Threads

def nflx : List UInt8 := [78, 70, 76, 88]

def firstBid : List UInt8 :=
  ['O'.toUInt8, 'B'.toUInt8] ++ nflx ++ [0, 0, 0, 5] ++ [0, 0, 0, 100] ++
    List.replicate 4 ' '.toUInt8

def firstOffer : List UInt8 :=
  ['O'.toUInt8, 'S'.toUInt8] ++ nflx ++ [0, 0, 0, 3] ++ [0, 0, 0, 90] ++
    List.replicate 4 ' '.toUInt8

def cancelFirst : List UInt8 :=
  ['X'.toUInt8] ++ nflx ++ [0, 0, 0, 1] ++ List.replicate 9 ' '.toUInt8

def firstBidOrder : Order :=
  { requestType := .sendOrder, orderType := .buy, symbol := nflx, qty := 5, priceLevel := 100,
    orderId := 1, sessionId := 1 }

def firstOfferOrder : Order :=
  { requestType := .sendOrder, orderType := .sell, symbol := nflx, qty := 3, priceLevel := 90,
    orderId := 2, sessionId := 2 }

def cancelRequest (orderId : Int) : Order :=
  { requestType := .killOrder, symbol := nflx, delId := 1, orderId, sessionId := 1 }

/-- Session 1's bid meets an offer of session 2; what is left of it is cancelled, twice. -/
def fourRequests : List (Int × List UInt8) :=
  [(1, firstBid), (2, firstOffer), (1, cancelFirst), (1, cancelFirst)]

def fourAnswers : List (Int × Response) :=
  [(1, .ack firstBidOrder 'O'.toUInt8), (2, .ack firstOfferOrder 'O'.toUInt8),
    (1, .partialFill { firstBidOrder with qty := 2 } 3 2 90),
    (2, .fullFill { firstOfferOrder with qty := 0 } 3 90),
    (1, .ack (cancelRequest 3) 'X'.toUInt8), (1, .killConfirm { firstBidOrder with qty := 2 }),
    (1, .ack (cancelRequest 4) 'X'.toUInt8), (1, .error invalidOrderId)]

def fourOrders : List Order :=
  [firstBidOrder, firstOfferOrder, cancelRequest 3, cancelRequest 4]

theorem fourRequests_served {shards : Nat} (few : shards = 1 ∨ shards = numShards) :
    ∃ served, serveAll shards (.newOn shards [nflx]) fourRequests = .ok served ∧
      served.orders = fourOrders ∧ served.messages = fourAnswers ∧
      served.market.currentId = 5 := by
  have seen : (do
      let served ← serveAll shards (.newOn shards [nflx]) fourRequests
      pure (served.orders, served.messages, served.market.currentId) :
        Except Fault (List Order × List (Int × Response) × Int)) =
    .ok (fourOrders, fourAnswers, 5) := by
    rcases few with rfl | rfl
    · exact ok_of_toOption (by decide +kernel)
    · exact ok_of_toOption (by decide +kernel)
  obtain ⟨served, ran, seen⟩ := bind_ok seen
  simp only [pure_eq_ok, Except.ok.injEq, Prod.mk.injEq] at seen
  exact ⟨served, ran, seen⟩

/-- They are served by the second of two threads, the first has no shard. -/
theorem fourRequests_run : ∃ trace e, ExchangeRun 1 2 [nflx] trace e ∧ e.server.Quiet ∧
    submitted trace = fourOrders ∧ processed trace = submitted trace ∧
    e.server.market.currentId = 5 ∧ ∀ a, e.server.wire a = sentTo a fourAnswers := by
  obtain ⟨served, ran, orders, messages, counted⟩ := fourRequests_served (Or.inl rfl)
  have ready : Exchange.OneShardEach 1 2 ⟨{ market := .newOn 1 [nflx] },
      fun i => ⟨(shardRange 1 2 i).1, none⟩⟩ := by
    intro s small
    cases Nat.lt_one_iff.mp small
    exact ⟨1, by decide, rfl, rfl⟩
  obtain ⟨trace, e, run, quiet, _, market, wires, subs, procs⟩ :=
    exchange_served (by decide) (quiet_newOn 1 [nflx]) ready ran
  refine ⟨trace, e, run, quiet, subs.trans orders, procs.trans subs.symm, ?_, fun a => ?_⟩
  · rw [market, counted]
  · rw [wires, messages]
    rfl

end MarketBookExchange
