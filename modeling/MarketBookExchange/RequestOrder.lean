import MarketBookExchange.ErrorEffects
import MarketBookExchange.ShardQueues

/- Each request that a session sends reaches its book once, and is not overtaken by a later one
   of its session and symbol. -/
namespace MarketBookExchange
open Outcome Transitions

/-- What the client asked for, without the ids the server adds. -/
def Order.request (order : Order) : Order := { order with orderId := 0, sessionId := 0 }

/-- The accepted requests of a session for a symbol, in the order it sent them. -/
def sentBy (session : Int) (symbol : List UInt8) (trace : List ThreadAction) : List Order :=
  trace.filterMap fun
    | .handler (.read s message) =>
      match receive widths message with
      | .ok (.request order _) =>
        if s = session ∧ order.symbol = symbol then some order.request else none
      | _ => none
    | _ => none

def ofSession (session : Int) (symbol : List UInt8) (l : List Order) : List Order :=
  l.filter fun o => o.sessionId = session ∧ o.symbol = symbol

@[simp] theorem sentBy_append (session : Int) (symbol : List UInt8)
    (trace more : List ThreadAction) :
    sentBy session symbol (trace ++ more) =
      sentBy session symbol trace ++ sentBy session symbol more := List.filterMap_append

@[simp] theorem ofSession_append (session : Int) (symbol : List UInt8) (l more : List Order) :
    ofSession session symbol (l ++ more) =
      ofSession session symbol l ++ ofSession session symbol more := List.filter_append _ _

def Stage.order? : Stage → Option Order
  | .idle => none
  | .decoded order _ => some order
  | .assigned order _ => some order
  | .acked order => some order

def Stage.numbered? : Stage → Option Order
  | .idle => none
  | .decoded _ _ => none
  | .assigned order _ => some order
  | .acked order => some order

def Stage.asked (stage : Stage) (symbol : List UInt8) : List Order :=
  (stage.order?.toList.filter fun o => o.symbol = symbol).map Order.request

/-- A session's requests are submitted in the order it sent them, each under an id of its
    own. -/
structure InOrder (trace : List ThreadAction) (server : Server) : Prop where
  sent : ∀ session symbol,
    (ofSession session symbol (submitted trace)).map Order.request ++
      (server.stage session).asked symbol = sentBy session symbol trace
  mine : ∀ session o, (server.stage session).numbered? = some o → o.sessionId = session ∧
    o.orderId < server.market.currentId ∧ o.orderId ∉ ids (submitted trace)
  apart : ∀ a b o p, a ≠ b → (server.stage a).numbered? = some o →
    (server.stage b).numbered? = some p → o.orderId ≠ p.orderId
  below : ∀ id ∈ ids (submitted trace), id < server.market.currentId
  once : (ids (submitted trace)).Nodup

section InOrder
variable {shards threads : Nat} {trace : List ThreadAction} {server server' : Server}

theorem inOrder_new (symbols : List (List UInt8)) :
    InOrder [] { market := .newOn shards symbols } := by
  constructor
  · exact fun _ _ => rfl
  · intro session o numbered
    cases numbered
  · intro a b o p _ numbered
    cases numbered
  · intro id member
    cases member
  · exact List.nodup_nil

namespace InOrder

theorem quiet (h : InOrder trace server) (action : ThreadAction)
    (unsubmitted : submitted [action] = [])
    (asked : ∀ a symbol, (server'.stage a).asked symbol =
      (server.stage a).asked symbol ++ sentBy a symbol [action])
    (number : ∀ a, (server'.stage a).numbered? = (server.stage a).numbered?)
    (counter : server'.market.currentId = server.market.currentId) :
    InOrder (trace ++ [action]) server' := by
  constructor
  · intro a symbol
    rw [submitted_append, sentBy_append, unsubmitted, List.append_nil, asked, ← h.sent a symbol,
      List.append_assoc]
  · intro a o present
    rw [number] at present
    rw [submitted_append, unsubmitted, List.append_nil, counter]
    exact h.mine a o present
  · intro a b o p ne present present'
    rw [number] at present present'
    exact h.apart a b o p ne present present'
  · rw [submitted_append, unsubmitted, List.append_nil, counter]
    exact h.below
  · rw [submitted_append, unsubmitted, List.append_nil]
    exact h.once

theorem same (h : InOrder trace server) (action : ThreadAction)
    (unsubmitted : submitted [action] = []) (unsent : ∀ a symbol, sentBy a symbol [action] = [])
    (stages : server'.stage = server.stage)
    (counter : server'.market.currentId = server.market.currentId) :
    InOrder (trace ++ [action]) server' := by
  apply h.quiet action unsubmitted
  · intro a symbol
    rw [stages, unsent, List.append_nil]
  · intro a
    rw [stages]
  · exact counter

theorem advance (h : InOrder trace server) (session : Int) (stage : Stage) (action : Action)
    (unsent : ∀ a symbol, sentBy a symbol [.handler action] = [])
    (asked : ∀ symbol, stage.asked symbol = (server.stage session).asked symbol)
    (numbered : stage.numbered? = (server.stage session).numbered?)
    (stages : server'.stage = Function.update server.stage session stage)
    (market : server'.market = server.market) :
    InOrder (trace ++ [.handler action]) server' := by
  apply h.quiet (.handler action) rfl
  · intro a symbol
    rw [unsent, List.append_nil, stages]
    by_cases own : a = session
    · subst own
      rw [Function.update_self, asked]
    · rw [Function.update_of_ne own]
  · intro a
    rw [stages]
    by_cases own : a = session
    · subst own
      rw [Function.update_self, numbered]
    · rw [Function.update_of_ne own]
  · rw [market]

theorem accept (h : InOrder trace server) {session : Int} {message : List UInt8} {order : Order}
    {c : UInt8} (idle : server.stage session = .idle)
    (decoded : receive widths message = .ok (.request order c)) :
    InOrder (trace ++ [.handler (.read session message)])
      (server.setStage session (.decoded order c)) := by
  apply h.quiet (.handler (.read session message)) rfl
  · intro a symbol
    unfold sentBy
    simp only [List.filterMap_cons, List.filterMap_nil, decoded]
    by_cases own : a = session
    · subst own
      rw [Server.setStage_self, idle]
      by_cases same : order.symbol = symbol <;> simp [Stage.asked, Stage.order?, same]
    · rw [Server.setStage_other server own, if_neg fun e => own e.1.symm, List.append_nil]
  · intro a
    by_cases own : a = session
    · subst own
      rw [Server.setStage_self, idle]
      rfl
    · rw [Server.setStage_other server own]
  · rfl

theorem refuse (h : InOrder trace server) {session : Int} {message : List UInt8} {code : Int}
    (refused : receive widths message = .ok (.refused code)) :
    InOrder (trace ++ [.handler (.read session message)]) (server.write session (.error code)) := by
  apply h.same
  · rfl
  · intro a symbol
    unfold sentBy
    simp only [List.filterMap_cons, List.filterMap_nil, refused]
  · rfl
  · rfl

theorem assign (h : InOrder trace server) {session : Int} {order : Order} {c : UInt8}
    (decoded : server.stage session = .decoded order c) (given : Order)
    (given_eq : given = { order with
      orderId := server.market.assignOrderId.1, sessionId := session }) :
    InOrder (trace ++ [.handler (.assign session given)])
      ({ server with market := server.market.assignOrderId.2 }.setStage session
        (.assigned given c)) := by
  have unsubmitted : submitted [.handler (.assign session given)] = [] := rfl
  have unsent : ∀ a symbol, sentBy a symbol [.handler (.assign session given)] = [] :=
    fun _ _ => rfl
  have numbered : given.orderId = server.market.currentId := by rw [given_eq]; rfl
  have mine : given.sessionId = session := by rw [given_eq]
  have next : ({ server with market := server.market.assignOrderId.2 }.setStage session
      (.assigned given c)).market.currentId = server.market.currentId + 1 := rfl
  constructor
  · intro a symbol
    rw [submitted_append, sentBy_append, unsubmitted, unsent, List.append_nil, List.append_nil,
      ← h.sent a symbol]
    by_cases own : a = session
    · subst own
      rw [Server.setStage_self, decoded]
      by_cases same : order.symbol = symbol <;>
        simp [Stage.asked, Stage.order?, Order.request, given_eq, same]
    · rw [Server.setStage_other _ own]
  · intro a o numbered
    rw [submitted_append, unsubmitted, List.append_nil, next]
    by_cases own : a = session
    · subst own
      rw [Server.setStage_self] at numbered
      cases numbered
      refine ⟨mine, by omega, fun member => ?_⟩
      have before := h.below _ member
      omega
    · rw [Server.setStage_other _ own] at numbered
      obtain ⟨origin, low, fresh⟩ := h.mine a o numbered
      exact ⟨origin, by omega, fresh⟩
  · intro a b o p ne numbered numbered'
    by_cases own : a = session
    · subst own
      rw [Server.setStage_self] at numbered
      rw [Server.setStage_other _ (Ne.symm ne)] at numbered'
      cases numbered
      have low := (h.mine b p numbered').2.1
      omega
    · rw [Server.setStage_other _ own] at numbered
      have low := (h.mine a o numbered).2.1
      by_cases own' : b = session
      · subst own'
        rw [Server.setStage_self] at numbered'
        cases numbered'
        omega
      · rw [Server.setStage_other _ own'] at numbered'
        exact h.apart a b o p ne numbered numbered'
  · intro id member
    rw [submitted_append, unsubmitted, List.append_nil] at member
    rw [next]
    have before := h.below id member
    omega
  · rw [submitted_append, unsubmitted, List.append_nil]
    exact h.once

theorem submit (h : InOrder trace server) {session : Int} {order : Order}
    (acked : server.stage session = .acked order)
    (stages : server'.stage = Function.update server.stage session .idle)
    (counter : server'.market.currentId = server.market.currentId) :
    InOrder (trace ++ [.submit session order]) server' := by
  obtain ⟨origin, low, fresh⟩ := h.mine session order (by rw [acked]; rfl)
  have one : submitted [.submit session order] = [order] := rfl
  have unsent : ∀ a symbol, sentBy a symbol [.submit session order] = [] := fun _ _ => rfl
  have ids_one : ids (submitted (trace ++ [.submit session order])) =
      ids (submitted trace) ++ [order.orderId] := by
    rw [submitted_append, one]
    exact List.map_append
  have numbered_old : ∀ a o, (server'.stage a).numbered? = some o →
      a ≠ session ∧ (server.stage a).numbered? = some o := by
    intro a o numbered
    rw [stages] at numbered
    by_cases own : a = session
    · subst own
      rw [Function.update_self] at numbered
      cases numbered
    · rw [Function.update_of_ne own] at numbered
      exact ⟨own, numbered⟩
  constructor
  · intro a symbol
    rw [submitted_append, sentBy_append, one, unsent, List.append_nil, ← h.sent a symbol,
      ofSession_append, List.map_append, List.append_assoc, stages]
    congr 1
    by_cases own : a = session
    · subst own
      rw [Function.update_self, acked]
      by_cases same : order.symbol = symbol <;>
        simp [Stage.asked, Stage.order?, ofSession, origin, same]
    · have other : ofSession a symbol [order] = [] := by
        unfold ofSession
        simp [origin, Ne.symm own]
      rw [Function.update_of_ne own, other]
      rfl
  · intro a o numbered
    obtain ⟨own, old⟩ := numbered_old a o numbered
    obtain ⟨origin', low', fresh'⟩ := h.mine a o old
    refine ⟨origin', by rw [counter]; exact low', fun member => ?_⟩
    rw [ids_one] at member
    rcases List.mem_append.mp member with before | now
    · exact fresh' before
    · exact h.apart a session o order own old (by rw [acked]; rfl) (List.mem_singleton.mp now)
  · intro a b o p ne numbered numbered'
    exact h.apart a b o p ne (numbered_old a o numbered).2 (numbered_old b p numbered').2
  · intro id member
    rw [ids_one] at member
    rw [counter]
    rcases List.mem_append.mp member with before | now
    · exact h.below id before
    · rw [List.mem_singleton.mp now]
      exact low
  · rw [ids_one, List.nodup_append]
    refine ⟨h.once, List.nodup_singleton _, fun id member id' now => ?_⟩
    rw [List.mem_singleton.mp now]
    intro same
    subst same
    exact fresh member

theorem handler (h : InOrder trace server) {action : Action} (inHandler : action.inHandler)
    (taken : Step (fun _ => False) server action server') :
    InOrder (trace ++ [.handler action]) server' := by
  cases taken with
  | push acked => exact inHandler.elim
  | pop written head connected drained => exact inHandler.elim
  | accept idle decoded => exact h.accept idle decoded
  | refuse idle refused => exact h.refuse refused
  | assign decoded => exact h.assign decoded _ rfl
  | @ack session order c assigned =>
    apply h.advance session (.acked order)
    · exact fun _ _ => rfl
    · intro symbol
      rw [assigned]
      rfl
    · rw [assigned]
      rfl
    · rfl
    · rfl
  | flush next =>
    apply h.same
    · rfl
    · exact fun _ _ => rfl
    · rfl
    · rfl

theorem step {e e' : Exchange} (h : InOrder trace e.server) {action : ThreadAction}
    (taken : ThreadStep shards threads e action e') : InOrder (trace ++ [action]) e'.server := by
  cases taken with
  | handler inHandler taken => exact h.handler inHandler taken
  | submit acked =>
    apply h.submit acked
    · rfl
    · rfl
  | process popped processed =>
    apply h.same
    · rfl
    · exact fun _ _ => rfl
    · rfl
    · exact (MarketBook.processOne_keeps processed).1
  | _ =>
    apply h.same
    · rfl
    · exact fun _ _ => rfl
    · rfl
    · rfl

end InOrder

theorem inOrder_run {symbols : List (List UInt8)} {e : Exchange}
    (run : ExchangeRun shards threads symbols trace e) : InOrder trace e.server :=
  runs_invariant (fun trace e => InOrder trace e.server) (inOrder_new symbols)
    (fun _ _ _ _ h taken => h.step taken) run

end InOrder

section Applied
variable {shards threads : Nat} {symbols : List (List UInt8)} {trace : List ThreadAction}
variable {e : Exchange}

theorem count_onShard (l : List Order) (order : Order) :
    (onShard shards (shardOf shards order.symbol) l).count order = l.count order :=
  List.count_filter (by simp)

theorem ofSession_onShard (shards : Nat) (session : Int) (symbol : List UInt8) (l : List Order) :
    ofSession session symbol (onShard shards (shardOf shards symbol) l) =
      ofSession session symbol l := by
  unfold ofSession onShard
  rw [List.filter_filter]
  apply List.filter_congr
  intro o _
  by_cases own : o.sessionId = session ∧ o.symbol = symbol
  · simp [own]
  · simp [own]

theorem submitted_count (run : ExchangeRun shards threads symbols trace e) {order : Order}
    {i : Nat} (drains : Drains shards threads i (shardOf shards order.symbol)) :
    (processed trace).count order + ((e.inHand i (shardOf shards order.symbol)).count order +
      (e.queue (shardOf shards order.symbol)).count order) = (submitted trace).count order := by
  have flow := (placed_run run).flow i _ drains
  calc _ = (onShard shards (shardOf shards order.symbol) (processed trace)).count order + _ := by
        rw [count_onShard]
    _ = (onShard shards (shardOf shards order.symbol) (submitted trace)).count order := by
        rw [← flow, List.count_append, List.count_append]
    _ = _ := count_onShard _ _

theorem submitted_once (run : ExchangeRun shards threads symbols trace e) (order : Order) :
    (submitted trace).count order ≤ 1 :=
  List.nodup_iff_count_le_one.mp (inOrder_run run).once.of_map order

theorem submitted_in_order (run : ExchangeRun shards threads symbols trace e) (session : Int)
    (symbol : List UInt8) :
    (ofSession session symbol (submitted trace)).map Order.request <+:
      sentBy session symbol trace :=
  ⟨_, (inOrder_run run).sent session symbol⟩

theorem processed_in_order (run : ExchangeRun shards threads symbols trace e) {i : Nat}
    {symbol : List UInt8} (drains : Drains shards threads i (shardOf shards symbol))
    (session : Int) :
    ofSession session symbol (processed trace) <+: ofSession session symbol (submitted trace) := by
  have flow := (placed_run run).flow i _ drains
  rw [← ofSession_onShard shards session symbol (processed trace),
    ← ofSession_onShard shards session symbol (submitted trace), ← flow,
    ofSession_append]
  exact List.prefix_append _ _

theorem exchange_number (run : ExchangeRun shards threads symbols trace e) {session : Int}
    (idle : e.server.stage session = .idle) {message : List UInt8} {order : Order} {c : UInt8}
    (received : receive widths message = .ok (.request order c)) :
    ∃ more e', ExchangeRun shards threads symbols (trace ++ more) e' ∧
      e'.server.market = e.server.market.assignOrderId.2 ∧
      e'.server.outbox = e.server.outbox ∧ e'.worker = e.worker ∧
      e'.server.stage = Function.update e.server.stage session (.assigned { order with
        orderId := e.server.market.assignOrderId.1, sessionId := session } c) ∧
      e'.server.wire = e.server.wire := by
  have inHandler : Action.inHandler (.read session message) ∧
    ∀ order, Action.inHandler (.assign session order) := ⟨trivial, fun _ => trivial⟩
  have read := run.next (.handler inHandler.1 (.accept idle received))
  have assign := read.next (.handler (inHandler.2 _) (.assign (Server.setStage_self _ _ _)))
  simp only [List.append_assoc] at assign
  exact ⟨_, _, assign, rfl, rfl, rfl, Function.update_idem _ _ _, rfl⟩

theorem exchange_request (run : ExchangeRun shards threads symbols trace e) {session : Int}
    (idle : e.server.stage session = .idle) {message : List UInt8} {order : Order} {c : UInt8}
    (received : receive widths message = .ok (.request order c)) :
    ∃ more e', ExchangeRun shards threads symbols (trace ++ more) e' ∧
      e'.server.market = e.server.market.assignOrderId.2.submitOn shards { order with
        orderId := e.server.market.assignOrderId.1, sessionId := session } ∧
      e'.server.outbox = e.server.outbox ∧ e'.worker = e.worker ∧
      e'.server.stage session = .idle ∧
      e'.server.wire = Function.update e.server.wire session (e.server.wire session ++
        [.ack { order with orderId := e.server.market.assignOrderId.1, sessionId := session } c]) := by
  obtain ⟨more, e', number, market, outbox, worker, stage, wire⟩ :=
    exchange_number run idle received
  have inHandler : Action.inHandler (.ack session) := trivial
  have assigned : e'.server.stage session = .assigned { order with
      orderId := e.server.market.assignOrderId.1, sessionId := session } c := by
    rw [stage, Function.update_self]
  have ack := number.next (.handler inHandler (.ack assigned))
  have submit := ack.next (.submit (Server.setStage_self _ _ _))
  simp only [List.append_assoc] at submit
  refine ⟨_, _, submit, ?_, outbox, worker, Server.setStage_self _ _ _, ?_⟩
  · rw [← market]
    rfl
  · rw [← wire]
    rfl

theorem exchange_drain (run : ExchangeRun shards threads symbols trace e) {i s : Nat}
    {order : Order} {rest : List Order} (drains : Drains shards threads i s)
    (ready : e.worker i = ⟨s, none⟩)
    (written : ∀ k, Drains shards threads i k → e.server.outbox k = [])
    (head : e.queue s = order :: rest) {registry : Registry} {market : MarketBook} {w : World}
    (ran : (e.server.market.popQueue s).processOne registry {} (shardOf shards order.symbol) order
      (symbolHash order.symbol) = .ok (market, w)) :
    ∃ more e', ExchangeRun shards threads symbols (trace ++ more) e' ∧
      e'.server.market = market ∧ e'.server.stage = e.server.stage ∧
      e'.server.wire = e.server.wire ∧ e'.server.outbox =
        Function.update e.server.outbox (shardOf shards order.symbol) (messagesOf w.log) := by
  have pop := run.next (.pop drains ready written head)
  have hand : ((e.setMarket (e.server.market.popQueue s)).setWorker i ⟨s, some order⟩).worker i =
      ⟨s, some order⟩ := Function.update_self _ _ _
  have process := pop.next (.process hand ran)
  simp only [List.append_assoc] at process
  exact ⟨_, _, process, rfl, rfl, rfl, rfl⟩

end Applied
end MarketBookExchange
