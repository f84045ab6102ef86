import MarketBookExchange.Lib.Simulation
import MarketBookExchange.OrderLifeCycle
import MarketBookExchange.RequestOrder

/- The threads of the exchange, and the server in which a request is taken off its queue and
   processed at once. -/
namespace MarketBookExchange
open Outcome Transitions

namespace MarketBook

/-- The same books with other queues. -/
def withQueues (mb : MarketBook) (queue : Nat → List Order) : MarketBook :=
  { mb with shards := fun s => { mb.shards s with queue := queue s } }

theorem withQueues_eq {mb mb' : MarketBook} {queue queue' : Nat → List Order}
    (counter : mb'.currentId = mb.currentId)
    (books : ∀ k, (mb'.shards k).privMp = (mb.shards k).privMp)
    (queues : ∀ k, queue' k = queue k) : mb'.withQueues queue' = mb.withQueues queue := by
  unfold withQueues
  rw [counter]
  congr 1
  funext k
  exact congrArg₂ OrderBookShard.mk (queues k) (books k)

theorem withQueues_self (mb : MarketBook) :
    mb.withQueues (fun s => (mb.shards s).queue) = mb := rfl

theorem withQueues_setBook (mb : MarketBook) (queue : Nat → List Order) (s : Nat) (hash : Int)
    (entry : SymbolBook) :
    (mb.setBook s hash entry).withQueues queue = (mb.withQueues queue).setBook s hash entry := by
  unfold withQueues setBook setShard
  congr 1
  funext k
  by_cases here : k = s
  · subst here
    simp
  · simp [here]

theorem withQueues_setShard (mb : MarketBook) (queue : Nat → List Order) (s : Nat)
    (more : List Order) :
    (mb.withQueues queue).setShard s { (mb.withQueues queue).shards s with queue := more } =
      mb.withQueues (Function.update queue s more) := by
  unfold withQueues setShard
  congr 1
  funext k
  by_cases here : k = s
  · subst here
    simp
  · simp [here]

/-- `process_one` looks at no queue. -/
theorem withQueues_processOne {registry : Registry} {mb mb' : MarketBook} {w w' : World} {s : Nat}
    {order : Order} {hash : Int} (queue : Nat → List Order)
    (ran : mb.processOne registry w s order hash = .ok (mb', w')) :
    (mb.withQueues queue).processOne registry w s order hash = .ok (mb'.withQueues queue, w') := by
  unfold processOne at ran ⊢
  rw [show ((mb.withQueues queue).shards s).privMp = (mb.shards s).privMp from rfl]
  cases known : (mb.shards s).privMp hash with
  | none =>
    rw [known] at ran
    cases ran
    rfl
  | some entry =>
    rw [known] at ran
    obtain ⟨⟨book, w₁⟩, processed, ran⟩ := bind_ok ran
    simp only [processed, ok_bind]
    simp only at ran
    split at ran
    · rename_i due
      obtain ⟨snapshot, made, ran⟩ := bind_ok ran
      cases ran
      rw [if_pos due, made, withQueues_setBook]
      rfl
    · rename_i due
      cases ran
      rw [if_neg due, withQueues_setBook]
      rfl

end MarketBook

/-- What the matching threads have popped off a shard and not processed yet. -/
def Exchange.handed (threads : Nat) (e : Exchange) (s : Nat) : List Order :=
  (List.range threads).flatMap fun i => e.inHand i s

def Server.withMarket (server : Server) (market : MarketBook) : Server := { server with market }

/-- The server with all that has been popped back in front of its queue. -/
def Exchange.atomic (threads : Nat) (e : Exchange) : Server :=
  e.server.withMarket (e.server.market.withQueues fun s => e.handed threads s ++ e.queue s)

/-- An action as the server takes it: a request leaves its queue when it is processed. -/
def ThreadAction.atomic : ThreadAction → Option Action
  | .handler action => some action
  | .submit session _ => some (.push session)
  | .skip _ _ => none
  | .pop _ _ _ => none
  | .process _ s _ order => some (.pop s order)

section Hands
variable {shards threads : Nat} {trace : List ThreadAction} {e e' : Exchange}

theorem handed_eq (placed : Placed shards threads trace e) {i s : Nat}
    (drains : Drains shards threads i s) : e.handed threads s = e.inHand i s := by
  have others : ∀ j, j ≠ i → e.inHand j s = [] := by
    intro j other
    unfold Exchange.inHand
    split
    · rename_i here
      cases popped : (e.worker j).popped with
      | none => rfl
      | some order =>
        have drains' := (placed.held j order popped).1
        rw [here] at drains'
        exact absurd (drains_once drains' drains) other
    · rfl
  have stands : ∀ n, (List.range n).flatMap (fun j => e.inHand j s) =
      if i < n then e.inHand i s else [] := by
    intro n
    induction n with
    | zero => rfl
    | succ n ih =>
      rw [List.range_succ, List.flatMap_append, ih, List.flatMap_singleton]
      by_cases last : i = n
      · subst last
        simp
      · rw [others n (Ne.symm last), List.append_nil]
        by_cases below : i < n
        · rw [if_pos below, if_pos (by omega)]
        · rw [if_neg below, if_neg (by omega)]
  unfold Exchange.handed
  rw [stands, if_pos drains.1]

theorem handed_congr {s : Nat} (same : ∀ j, e'.inHand j s = e.inHand j s) :
    e'.handed threads s = e.handed threads s := by
  unfold Exchange.handed
  apply List.flatMap_congr
  exact fun j _ => same j

/-- A thread that holds a request has written all its messages. -/
def Written (shards threads : Nat) (e : Exchange) : Prop :=
  ∀ i order, (e.worker i).popped = some order →
    ∀ k, Drains shards threads i k → e.server.outbox k = []

theorem Written.worker (h : Written shards threads e)
    (outbox : ∀ k, e.server.outbox k = [] → e'.server.outbox k = [])
    (popped : ∀ j order, (e'.worker j).popped = some order → (e.worker j).popped = some order) :
    Written shards threads e' :=
  fun j order holds k drains => outbox k (h j order (popped j order holds) k drains)

theorem Written.handler (h : Written shards threads e) {action : Action} {server : Server}
    (inHandler : action.inHandler) (taken : Step (fun _ => False) e.server action server) :
    Written shards threads (e.setServer server) := by
  apply h.worker
  · intro k empty
    cases taken with
    | push acked => exact inHandler.elim
    | pop written head connected drained => exact inHandler.elim
    | @flush s session response rest next =>
      have other : k ≠ s := by
        intro same
        rw [same, next] at empty
        cases empty
      unfold Exchange.setServer Server.setOutbox Server.write
      simp only
      rw [Function.update_of_ne other, empty]
    | _ => exact empty
  · exact fun _ _ holds => holds

theorem popped_idle {worker : Nat → Worker} {i k j : Nat} {order : Order}
    (holds : (Function.update worker i ⟨k, none⟩ j).popped = some order) :
    j ≠ i ∧ (worker j).popped = some order := by
  by_cases own : j = i
  · subst own
    rw [Function.update_self] at holds
    cases holds
  · rw [Function.update_of_ne own] at holds
    exact ⟨own, holds⟩

theorem Written.step (h : Written shards threads e) (placed : Placed shards threads trace e)
    {action : ThreadAction} (taken : ThreadStep shards threads e action e') :
    Written shards threads e' := by
  cases taken with
  | handler inHandler taken => exact h.handler inHandler taken
  | submit acked => exact h.worker (fun _ empty => empty) fun _ _ holds => holds
  | skip drains ready written empty =>
    exact h.worker (fun _ empty => empty) fun _ _ holds => (popped_idle holds).2
  | @pop i s order rest drains ready written head =>
    intro j o holds k drains'
    by_cases own : j = i
    · subst own
      exact written k drains'
    · have old : ((e.setMarket (e.server.market.popQueue s)).worker j).popped = some o := by
        unfold Exchange.setWorker at holds
        simp only at holds
        rwa [Function.update_of_ne own] at holds
      exact h j o old k drains'
  | @process i s order registry market w popped processed =>
    intro j o holds k drains'
    obtain ⟨other, old⟩ := popped_idle holds
    obtain ⟨drains, shard⟩ := placed.held i order (by rw [popped])
    rw [popped] at drains shard
    have away : k ≠ shardOf shards order.symbol := by
      intro same
      rw [same, shard] at drains'
      exact other (drains_once drains' drains)
    have empty := h j o old k drains'
    unfold Exchange.setWorker Exchange.setServer Server.setOutbox
    simp only
    rw [Function.update_of_ne away]
    exact empty

theorem written_run {symbols : List (List UInt8)} (run : ExchangeRun shards threads symbols trace e) :
    Written shards threads e := by
  induction run with
  | start =>
    intro i order holds
    cases holds
  | next before taken ih => exact ih.step (placed_run before) taken

end Hands

section Atomic
variable {threads : Nat} {symbols : List (List UInt8)} {trace : List ThreadAction}
variable {e e' : Exchange} {i s : Nat} {order : Order} {rest : List Order}

theorem atomic_market {server : Server} {worker : Nat → Worker} {queue : Nat → List Order}
    (queues : ∀ k, (Exchange.mk server worker).handed threads k ++ (server.market.shards k).queue =
      queue k) : Exchange.atomic threads ⟨server, worker⟩ =
        server.withMarket (server.market.withQueues queue) := by
  apply congrArg server.withMarket
  apply MarketBook.withQueues_eq
  · rfl
  · exact fun _ => rfl
  · exact queues

theorem atomic_handler {action : Action} {server : Server} (inHandler : action.inHandler)
    (taken : Step (fun _ => False) e.server action server) :
    Step (fun _ => False) (e.atomic threads) action ((e.setServer server).atomic threads) := by
  cases taken with
  | push acked => exact inHandler.elim
  | pop written head connected drained => exact inHandler.elim
  | accept idle decoded => exact .accept idle decoded
  | refuse idle refused => exact .refuse idle refused
  | assign decoded => exact .assign decoded
  | ack assigned => exact .ack assigned
  | flush next => exact .flush next

theorem atomic_submit {session : Int} {order : Order}
    (acked : e.server.stage session = .acked order) :
    Step (fun _ => False) (e.atomic threads) (.push session)
      ((e.setServer ((e.setMarket (e.server.market.submitOn numShards order)).server.setStage session
        .idle)).atomic threads) := by
  have joined : (e.atomic threads).market.submitOrder order =
      (e.server.market.submitOn numShards order).withQueues fun s => e.handed threads s ++
        ((e.server.market.submitOn numShards order).shards s).queue := by
    unfold Exchange.atomic Server.withMarket MarketBook.submitOrder
    rw [MarketBook.submitOn]
    simp only
    rw [MarketBook.withQueues_setShard]
    apply Eq.symm
    apply MarketBook.withQueues_eq
    · rfl
    · exact e.server.market.submitOrder_privMp order
    · intro k
      rw [MarketBook.submitOn_queue]
      by_cases here : k = shardOf numShards order.symbol
      · rw [here, Function.update_self, if_pos rfl]
        exact (List.append_assoc _ _ _).symm
      · rw [Function.update_of_ne here, if_neg here]
        rfl
  have pushed : Step (fun _ => False) (e.atomic threads) (.push session) _ := .push acked
  rw [joined] at pushed
  exact pushed

theorem atomic_idle {i s k : Nat} (ready : e.worker i = ⟨s, none⟩) :
    (e.setWorker i ⟨k, none⟩).atomic threads = e.atomic threads := by
  apply atomic_market
  intro m
  congr 1
  apply handed_congr
  intro j
  by_cases own : j = i
  · subst own
    rw [inHand_empty ready]
    exact (inHand_self e j m ⟨k, none⟩).trans (ite_self _)
  · exact inHand_other e own m ⟨k, none⟩

theorem atomic_pop (placed : Placed numShards threads trace e)
    (placed' : Placed numShards threads (trace ++ [.pop i s order])
      ((e.setMarket (e.server.market.popQueue s)).setWorker i ⟨s, some order⟩))
    (drains : Drains numShards threads i s) (ready : e.worker i = ⟨s, none⟩)
    (head : e.queue s = order :: rest) :
    ((e.setMarket (e.server.market.popQueue s)).setWorker i ⟨s, some order⟩).atomic threads =
      e.atomic threads := by
  have queues := e.server.market.popQueue_queue (s := s)
  rw [show (e.server.market.shards s).queue = order :: rest from head] at queues
  apply congrArg e.server.withMarket
  apply MarketBook.withQueues_eq
  · rfl
  · exact fun k => e.server.market.popQueue_privMp k
  · intro k
    show _ ++ ((e.server.market.popQueue s).shards k).queue = _
    rw [queues]
    by_cases here : k = s
    · subst here
      rw [handed_eq placed drains, handed_eq placed' drains, if_pos rfl, head,
        inHand_empty ready, inHand_self, if_pos rfl]
      rfl
    · rw [if_neg here]
      congr 1
      apply handed_congr
      intro j
      by_cases own : j = i
      · subst own
        rw [inHand_empty ready, inHand_self, if_neg (Ne.symm here)]
      · exact inHand_other (e.setMarket (e.server.market.popQueue s)) own k ⟨s, some order⟩

theorem atomic_process (placed : Placed numShards threads trace e)
    (written : Written numShards threads e) {registry : Registry} {market : MarketBook} {w : World}
    (popped : e.worker i = ⟨s, some order⟩)
    (placed' : Placed numShards threads (trace ++ [.process i (shardOf numShards order.symbol)
      (symbolHash order.symbol) order])
      (((e.setServer ((e.setMarket market).server.setOutbox (shardOf numShards order.symbol)
        (messagesOf w.log))).setWorker i ⟨nextShard numShards threads i s, none⟩)))
    (processed : e.server.market.processOne registry {} (shardOf numShards order.symbol) order
      (symbolHash order.symbol) = .ok (market, w)) :
    Step (fun _ => False) (e.atomic threads) (.pop (shardOf numShards order.symbol) order)
      (((e.setServer ((e.setMarket market).server.setOutbox (shardOf numShards order.symbol)
        (messagesOf w.log))).setWorker i ⟨nextShard numShards threads i s, none⟩).atomic threads) := by
  obtain ⟨drains, shard⟩ := placed.held i order (by rw [popped])
  rw [popped] at drains shard
  simp only at drains shard
  have hand : e.handed threads s ++ e.queue s = order :: e.queue s := by
    rw [handed_eq placed drains]
    unfold Exchange.inHand
    rw [popped, if_pos rfl]
    rfl
  have queues : ∀ k, (market.shards k).queue = e.queue k := (MarketBook.processOne_keeps processed).2
  rw [shard] at processed placed' ⊢
  have drained : (e.atomic threads).market.drainOne registry {} s =
      .ok (some (market.withQueues (Function.update (fun k => e.handed threads k ++ e.queue k) s
        (e.queue s)), w)) := by
    have called : shardIndex order.symbol = s := shard
    unfold MarketBook.drainOne
    rw [show ((e.atomic threads).market.shards s).queue = order :: e.queue s from hand]
    simp only
    rw [called, show (e.atomic threads).market = e.server.market.withQueues fun k =>
      e.handed threads k ++ e.queue k from rfl, MarketBook.withQueues_setShard,
      MarketBook.withQueues_processOne _ processed]
    rfl
  have joined : market.withQueues (Function.update (fun k => e.handed threads k ++ e.queue k) s
      (e.queue s)) = (((e.setServer ((e.setMarket market).server.setOutbox s
        (messagesOf w.log))).setWorker i ⟨nextShard numShards threads i s, none⟩).atomic
          threads).market := by
    apply MarketBook.withQueues_eq
    · rfl
    · exact fun _ => rfl
    · intro k
      show _ = _ ++ (market.shards k).queue
      rw [queues]
      by_cases here : k = s
      · subst here
        rw [Function.update_self, handed_eq placed' drains, inHand_self, Option.toList_none,
          ite_self]
        rfl
      · rw [Function.update_of_ne here]
        congr 1
        apply Eq.symm
        apply handed_congr
        intro j
        by_cases own : j = i
        · subst own
          rw [inHand_self, Option.toList_none, ite_self]
          unfold Exchange.inHand
          rw [popped, if_neg (Ne.symm here)]
        · exact inHand_other (e.setServer _) own k _
  have taken : Step (fun _ => False) (e.atomic threads) (.pop s order) _ := .pop
    (written i order (by rw [popped]) s drains) (congrArg List.head? hand)
    (fun _ never => never.elim) drained
  rw [joined] at taken
  exact taken

theorem atomic_simulates (threads : Nat) : Simulates (ThreadStep numShards threads)
    (Step fun _ => False)
    (fun trace e => Placed numShards threads trace e ∧ Written numShards threads e)
    (Exchange.atomic threads) ThreadAction.atomic := by
  constructor
  · intro trace e action e' seen holds taken sees
    have placed' := holds.1.step taken
    cases taken with
    | handler inHandler taken =>
      cases sees
      exact atomic_handler inHandler taken
    | submit acked =>
      cases sees
      exact atomic_submit acked
    | skip drains ready written empty => cases sees
    | pop drains ready written head => cases sees
    | process popped processed =>
      cases sees
      exact atomic_process holds.1 holds.2 popped placed' processed
  · intro trace e action e' holds taken unseen
    have placed' := holds.1.step taken
    cases taken with
    | handler inHandler taken => cases unseen
    | submit acked => cases unseen
    | skip drains ready written empty => exact atomic_idle ready
    | pop drains ready written head => exact atomic_pop holds.1 placed' drains ready head
    | process popped processed => cases unseen

/-- Taking a request off its queue and processing it are two steps of a thread, between which
    all other threads go on; but what they do is what a server does that does both at once. -/
theorem threads_refine_server (run : ExchangeRun numShards threads symbols trace e) :
    ServerRun symbols (fun _ => False) (trace.filterMap ThreadAction.atomic) (e.atomic threads) := by
  apply (atomic_simulates threads).run _ _ run
  · apply congrArg (Server.withMarket { market := .new symbols })
    rw [← MarketBook.withQueues_self (.new symbols)]
    apply MarketBook.withQueues_eq
    · rfl
    · exact fun _ => rfl
    · intro k
      have free : (Exchange.mk { market := .newOn numShards symbols }
          fun i => ⟨(shardRange numShards threads i).1, none⟩).handed threads k = [] := by
        apply List.flatMap_eq_nil_iff.mpr
        exact fun i _ => inHand_empty rfl k
      rw [free]
      rfl
  · exact fun _ _ run => ⟨placed_run run, written_run run⟩

end Atomic

theorem threads_refine_server_fourRequests : ∃ trace e,
    ExchangeRun numShards numShards [nflx] trace e ∧ processed trace = fourOrders ∧
    (∀ a, e.server.wire a = sentTo a fourAnswers) ∧
    ServerRun [nflx] (fun _ => False) (trace.filterMap ThreadAction.atomic)
      (e.atomic numShards) := by
  obtain ⟨served, ran, orders, messages, _⟩ := fourRequests_served (Or.inr rfl)
  have ready : Exchange.OneShardEach numShards numShards
      ⟨{ market := .newOn numShards [nflx] },
        fun i => ⟨(shardRange numShards numShards i).1, none⟩⟩ := by
    intro s small
    exact ⟨s, small, shardRange_own small,
      congrArg (fun r => Worker.mk r.1 none) (shardRange_own small)⟩
  obtain ⟨trace, e, run, _, _, _, wires, _, procs⟩ :=
    exchange_served (by decide) (quiet_newOn numShards [nflx]) ready ran
  refine ⟨trace, e, run, procs.trans orders, fun a => ?_, threads_refine_server run⟩
  rw [wires, messages]
  rfl

section OwnThreads
variable {symbols : List (List UInt8)} {trace : List Action} {server : Server}

/-- Conversely, each run of the server is what threads do of which each has one shard. -/
theorem server_on_threads (run : ServerRun symbols (fun _ => False) trace server) :
    ∃ actions e, ExchangeRun numShards numShards symbols actions e ∧
      actions.filterMap ThreadAction.atomic = trace ∧ e.server = server ∧
      ∀ i, i < numShards → e.worker i = ⟨i, none⟩ := by
  induction run with
  | start =>
    refine ⟨[], _, .start, rfl, rfl, ?_⟩
    intro i small
    simp only [shardRange_own small]
  | @next trace server server' action before taken ih =>
    obtain ⟨actions, e, run, same, rfl, ready⟩ := ih
    have quiet : action.inHandler → ∃ actions e', ExchangeRun numShards numShards symbols actions e' ∧
        actions.filterMap ThreadAction.atomic = trace ++ [action] ∧ e'.server = server' ∧
        ∀ i, i < numShards → e'.worker i = ⟨i, none⟩ := by
      intro inHandler
      refine ⟨_, _, run.next (.handler inHandler taken), ?_, rfl, ready⟩
      rw [List.filterMap_append, same]
      rfl
    cases taken with
    | push acked =>
      refine ⟨_, _, run.next (.submit acked), ?_, rfl, ready⟩
      rw [List.filterMap_append, same]
      rfl
    | @pop s order registry market w written head connected drained =>
      obtain ⟨rest, queue⟩ := List.head?_eq_some_iff.mp head
      rw [MarketBook.drainOne_head head] at drained
      obtain ⟨_, ran, shape⟩ := bind_ok drained
      cases shape
      have here : shardIndex order.symbol = s :=
        (placed_run run).queued s order (by unfold Exchange.queue; rw [queue]; simp)
      have small : s < numShards := by
        rw [← here]
        exact shardOf_lt (by decide) order.symbol
      have pop := run.next (.pop ((drains_own small).mpr rfl) (ready s small)
        (fun k drains => by rw [(drains_own small).mp drains, written]) queue)
      have process := pop.next (.process (Function.update_self _ _ _) ran)
      refine ⟨_, _, process, ?_, ?_, ?_⟩
      · rw [List.filterMap_append, List.filterMap_append, same, List.append_assoc, ← here]
        rfl
      · rw [← here]
        rfl
      · intro i small'
        unfold Exchange.setWorker
        simp only
        by_cases own : i = s
        · rw [own, Function.update_self, nextShard_own small]
        · rw [Function.update_of_ne own]
          exact (Function.update_of_ne own _ _).trans (ready i small')
    | _ => exact quiet trivial

theorem server_on_threads_fourRequests : ∃ trace server,
    ServerRun [nflx] (fun _ => False) trace server ∧
    (∀ o ∈ fourOrders, .assign o.sessionId o ∈ trace) ∧
    (∀ a, server.wire a = sentTo a fourAnswers) ∧
    ∃ actions e, ExchangeRun numShards numShards [nflx] actions e ∧
      actions.filterMap ThreadAction.atomic = trace ∧ e.server = server ∧
      ∀ i, i < numShards → e.worker i = ⟨i, none⟩ := by
  obtain ⟨served, ran, orders, messages, _⟩ := fourRequests_served (Or.inr rfl)
  obtain ⟨trace, server, run, _, _, wires, assigned⟩ :=
    @runs_served (fun _ => False) _ _ _ (quiet_newOn numShards [nflx]) ran
  rw [orders] at assigned
  refine ⟨trace, server, run, assigned, fun a => ?_, server_on_threads run⟩
  rw [wires, messages]
  rfl

end OwnThreads

end MarketBookExchange
