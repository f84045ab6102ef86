import MarketBookExchange.RequestOrder
import MarketBookExchange.Lib.SharedPipe
import Mathlib.Data.List.Permutation

/- The sockets that the threads of the server share. A `boost::asio::write` is a loop of
   transfers, and `writeToClient` takes no lock. -/
namespace MarketBookExchange
open Outcome SharedPipe Transitions

/-- Whoever runs a session's handler, and the i-th matching thread. -/
inductive Thread where
  | session (session : Int)
  | matching (i : Nat)
  deriving DecidableEq, Repr

structure Wired where
  exchange : Exchange
  socket : Int → Pipe Thread UInt8 := fun _ => {}

namespace Wired

def Free (w : Wired) (thread : Thread) : Prop :=
  ∀ session, (w.socket session).call thread = none

def setExchange (w : Wired) (exchange : Exchange) : Wired := { w with exchange }

def setSocket (w : Wired) (session : Int) (pipe : Pipe Thread UInt8) : Wired :=
  { w with socket := Function.update w.socket session pipe }

def new (shards threads : Nat) (symbols : List (List UInt8)) : Wired where
  exchange := ⟨{ market := .newOn shards symbols }, fun i => ⟨(shardRange shards threads i).1, none⟩⟩

def sentTo (w : Wired) (session : Int) : List (List UInt8) :=
  (w.exchange.server.wire session).map (Response.encode widths)

end Wired

def ThreadAction.RunsOn (shards threads : Nat) : ThreadAction → Thread → Prop
  | .handler (.read session _), thread => thread = .session session
  | .handler (.assign session _), thread => thread = .session session
  | .handler (.ack session), thread => thread = .session session
  | .handler (.flush s), thread => ∃ i, thread = .matching i ∧ Drains shards threads i s
  | .handler (.push _), _ => False
  | .handler (.pop _ _), _ => False
  | .submit session _, thread => thread = .session session
  | .skip i _, thread => thread = .matching i
  | .pop i _ _, thread => thread = .matching i
  | .process i _ _ _, thread => thread = .matching i

/-- The call of `writeToClient` that an action makes. -/
def Exchange.message? (e : Exchange) : ThreadAction → Option (Int × Response)
  | .handler (.read session message) =>
    match receive widths message with
    | .ok (.refused code) => some (session, .error code)
    | _ => none
  | .handler (.ack session) =>
    match e.server.stage session with
    | .assigned order c => some (session, .ack order c)
    | _ => none
  | .handler (.flush s) => (e.server.outbox s).head?
  | _ => none

inductive WriteAction where
  | run (action : ThreadAction)
  | transfer (session : Int) (thread : Thread) (part : List UInt8)

/-- A thread goes on when its last call of `writeToClient` has returned. -/
inductive WriteStep (shards threads : Nat) : Wired → WriteAction → Wired → Prop
  | silent {w : Wired} {action : ThreadAction} {thread : Thread} {exchange : Exchange}
      (on : action.RunsOn shards threads thread) (free : w.Free thread)
      (silent : w.exchange.message? action = none)
      (taken : ThreadStep shards threads w.exchange action exchange) :
      WriteStep shards threads w (.run action) (w.setExchange exchange)
  | write {w : Wired} {action : ThreadAction} {thread : Thread} {exchange : Exchange}
      {session : Int} {response : Response} (on : action.RunsOn shards threads thread)
      (free : w.Free thread) (writes : w.exchange.message? action = some (session, response))
      (taken : ThreadStep shards threads w.exchange action exchange) :
      WriteStep shards threads w (.run action) ((w.setExchange exchange).setSocket session
        ((w.socket session).begin thread (response.encode widths)))
  | transfer {w : Wired} {session : Int} {thread : Thread} {part : List UInt8}
      {pipe : Pipe Thread UInt8}
      (taken : SharedPipe.Step (w.socket session) (.transfer thread part) pipe) :
      WriteStep shards threads w (.transfer session thread part) (w.setSocket session pipe)

/-- No transfer to a session comes between the first and the last of another thread's message
    to it. -/
def Exclusive (w : Wired) : WriteAction → Prop
  | .run _ => True
  | .transfer session thread part => Alone (w.socket session) (.transfer thread part)

abbrev WiredRun (shards threads : Nat) (symbols : List (List UInt8)) :
    List WriteAction → Wired → Prop :=
  Runs (WriteStep shards threads) (.new shards threads symbols)

abbrev ExclusiveRun (shards threads : Nat) (symbols : List (List UInt8)) :
    List WriteAction → Wired → Prop :=
  Runs (fun w a w' => WriteStep shards threads w a w' ∧ Exclusive w a) (.new shards threads symbols)

section Sockets
variable {shards threads : Nat}

theorem encode_ne_nil (w : Widths) (response : Response) : response.encode w ≠ [] := by
  cases response <;> simp [Response.encode]

theorem wire_silent {e e' : Exchange} {action : ThreadAction}
    (taken : ThreadStep shards threads e action e') (silent : e.message? action = none) :
    e'.server.wire = e.server.wire := by
  cases taken with
  | handler inHandler taken =>
    cases taken with
    | push acked => exact inHandler.elim
    | pop written head connected drained => exact inHandler.elim
    | accept idle decoded => rfl
    | refuse idle refused =>
      simp only [Exchange.message?, refused] at silent
      cases silent
    | assign decoded => rfl
    | ack assigned =>
      simp only [Exchange.message?, assigned] at silent
      cases silent
    | flush next =>
      simp only [Exchange.message?, next] at silent
      cases silent
  | submit acked => rfl
  | skip drains ready written empty => rfl
  | pop drains ready written head => rfl
  | process popped processed => rfl

theorem wire_written {e e' : Exchange} {action : ThreadAction} {session : Int}
    {response : Response} (taken : ThreadStep shards threads e action e')
    (writes : e.message? action = some (session, response)) :
    e'.server.wire =
      Function.update e.server.wire session (e.server.wire session ++ [response]) := by
  cases taken with
  | handler inHandler taken =>
    cases taken with
    | push acked => exact inHandler.elim
    | pop written head connected drained => exact inHandler.elim
    | accept idle decoded =>
      simp only [Exchange.message?, decoded] at writes
      cases writes
    | refuse idle refused =>
      simp only [Exchange.message?, refused] at writes
      cases writes
      rfl
    | assign decoded => cases writes
    | ack assigned =>
      simp only [Exchange.message?, assigned] at writes
      cases writes
      rfl
    | flush next =>
      simp only [Exchange.message?, next] at writes
      cases writes
      rfl
  | submit acked => cases writes
  | skip drains ready written empty => cases writes
  | pop drains ready written head => cases writes
  | process popped processed => cases writes

theorem sentTo_silent {w : Wired} {action : ThreadAction} {exchange : Exchange}
    (taken : ThreadStep shards threads w.exchange action exchange)
    (silent : w.exchange.message? action = none) (session : Int) :
    (w.setExchange exchange).sentTo session = w.sentTo session := by
  unfold Wired.sentTo Wired.setExchange
  rw [wire_silent taken silent]

theorem sentTo_written {w : Wired} {action : ThreadAction} {exchange : Exchange} {client : Int}
    {response : Response} (taken : ThreadStep shards threads w.exchange action exchange)
    (writes : w.exchange.message? action = some (client, response)) (pipe : Pipe Thread UInt8)
    (session : Int) : ((w.setExchange exchange).setSocket client pipe).sentTo session =
      w.sentTo session ++ if session = client then [response.encode widths] else [] := by
  unfold Wired.sentTo Wired.setExchange Wired.setSocket
  simp only
  rw [wire_written taken writes]
  by_cases own : session = client
  · subst own
    rw [Function.update_self, if_pos rfl, List.map_append]
    rfl
  · rw [Function.update_of_ne own, if_neg own, List.append_nil]

/-- Seen from one socket, a step is a step of its pipe, or nothing at all. -/
theorem WriteStep.pipe {w w' : Wired} {a : WriteAction} (taken : WriteStep shards threads w a w')
    (exclusive : Exclusive w a) (session : Int) :
    (w'.socket session = w.socket session ∧ w'.sentTo session = w.sentTo session) ∨
    ∃ event, SharedPipe.Step (w.socket session) event (w'.socket session) ∧
      Alone (w.socket session) event ∧
      w'.sentTo session = w.sentTo session ++ begun [event] := by
  cases taken with
  | silent on free silent taken => exact Or.inl ⟨rfl, sentTo_silent taken silent session⟩
  | @write action thread exchange client response on free writes taken =>
    rw [sentTo_written taken writes]
    unfold Wired.setSocket
    simp only
    by_cases own : session = client
    · subst own
      right
      refine ⟨.begin thread (response.encode widths), ?_, trivial, ?_⟩
      · rw [Function.update_self]
        exact .begin (free session) (encode_ne_nil _ _)
      · rw [if_pos rfl]
        rfl
    · left
      rw [Function.update_of_ne own, if_neg own, List.append_nil]
      exact ⟨rfl, rfl⟩
  | @transfer client thread part pipe taken =>
    have sent : (w.setSocket client pipe).sentTo session = w.sentTo session := rfl
    rw [sent]
    unfold Wired.setSocket
    simp only
    by_cases own : session = client
    · subst own
      right
      refine ⟨.transfer thread part, ?_, exclusive, ?_⟩
      · rw [Function.update_self]
        exact taken
      · exact (List.append_nil _).symm
    · left
      rw [Function.update_of_ne own]
      exact ⟨rfl, trivial⟩

theorem socket_run {symbols : List (List UInt8)} {trace : List WriteAction} {w : Wired}
    (run : ExclusiveRun shards threads symbols trace w) (session : Int) :
    ∃ events, Runs (fun s event s' => SharedPipe.Step s event s' ∧ Alone s event) {} events
      (w.socket session) ∧ begun events = w.sentTo session := by
  refine runs_invariant (fun _ w => ∃ events, Runs (fun s event s' => SharedPipe.Step s event s' ∧
    Alone s event) {} events (w.socket session) ∧ begun events = w.sentTo session)
    ⟨[], .start, rfl⟩ ?_ run
  rintro trace w a w' ⟨events, before, sent⟩ ⟨taken, exclusive⟩
  rcases taken.pipe exclusive session with ⟨socket, same⟩ | ⟨event, step, alone, more⟩
  · exact ⟨events, by rw [socket]; exact before, by rw [sent, same]⟩
  · refine ⟨events ++ [event], before.next ⟨step, alone⟩, ?_⟩
    rw [more, ← sent]
    exact List.filterMap_append

/-- As long as no transfer comes into the middle of another thread's message, what a client
    receives is whole messages, each one once. -/
theorem messages_unbroken {symbols : List (List UInt8)} {trace : List WriteAction} {w : Wired}
    (run : ExclusiveRun shards threads symbols trace w) (session : Int) :
    Unbroken (w.sentTo session) (w.socket session) := by
  obtain ⟨events, pipe, sent⟩ := socket_run run session
  rw [← sent]
  exact alone_unbroken pipe

theorem outbox_drained {symbols : List (List UInt8)} (pos : 0 < shards) {trace : List ThreadAction}
    {e : Exchange} (run : ExchangeRun shards threads symbols trace e) :
    ∀ s, e.server.outbox s ≠ [] → s < shards := by
  refine runs_invariant (fun _ e => ∀ s, e.server.outbox s ≠ [] → s < shards)
    (fun s nonempty => absurd rfl nonempty) ?_ run
  intro trace e action e' h taken
  cases taken with
  | handler inHandler taken =>
    cases taken with
    | push acked => exact inHandler.elim
    | pop written head connected drained => exact inHandler.elim
    | @flush k session response rest next =>
      intro s nonempty
      by_cases own : s = k
      · subst own
        exact h s (by rw [next]; exact List.cons_ne_nil _ _)
      · apply h s
        change (Function.update e.server.outbox k rest) s ≠ [] at nonempty
        rwa [Function.update_of_ne own] at nonempty
    | _ => exact h
  | @process i k order registry market w popped processed =>
    intro s nonempty
    change (Function.update e.server.outbox (shardOf shards order.symbol) _) s ≠ [] at nonempty
    by_cases own : s = shardOf shards order.symbol
    · rw [own]
      exact shardOf_lt pos order.symbol
    · rw [Function.update_of_ne own] at nonempty
      exact h s nonempty
  | _ => exact h

theorem runsOn_some {symbols : List (List UInt8)} (pos : 0 < shards) (threaded : 1 ≤ threads)
    {trace : List ThreadAction} {e e' : Exchange} (run : ExchangeRun shards threads symbols trace e)
    {action : ThreadAction} (taken : ThreadStep shards threads e action e') :
    ∃ thread, action.RunsOn shards threads thread := by
  cases taken with
  | handler inHandler taken =>
    cases taken with
    | push acked => exact inHandler.elim
    | pop written head connected drained => exact inHandler.elim
    | @flush s session response rest next =>
      have small := outbox_drained pos run s (by rw [next]; exact List.cons_ne_nil _ _)
      obtain ⟨i, drains⟩ := drains_some threaded small
      exact ⟨.matching i, i, rfl, drains⟩
    | _ => exact ⟨_, rfl⟩
  | _ => exact ⟨_, rfl⟩

/-- Between two calls of `writeToClient`, every message is in its socket. -/
structure Wired.Settled (w : Wired) (e : Exchange) : Prop where
  exchange : w.exchange = e
  free : ∀ session, (w.socket session).call = fun _ => none
  bytes : ∀ session, (w.socket session).bytes = (w.sentTo session).flatten

theorem write_at_once {symbols : List (List UInt8)} {trace : List WriteAction} {w : Wired}
    (run : ExclusiveRun shards threads symbols trace w)
    (idle : ∀ session, (w.socket session).call = fun _ => none) {action : ThreadAction}
    {thread : Thread} (on : action.RunsOn shards threads thread) {client : Int}
    {response : Response} (writes : w.exchange.message? action = some (client, response))
    {exchange : Exchange} (taken : ThreadStep shards threads w.exchange action exchange) :
    ∃ w', ExclusiveRun shards threads symbols
        (trace ++ [.run action] ++ [.transfer client thread (response.encode widths)]) w' ∧
      w'.exchange = exchange ∧ w'.socket = Function.update w.socket client
        ((w.socket client).write thread (response.encode widths)) := by
  have begins := run.next ⟨.write on (fun session => by rw [idle]) writes taken, trivial⟩
  have socket : ((w.setExchange exchange).setSocket client
      ((w.socket client).begin thread (response.encode widths))).socket client =
      (w.socket client).begin thread (response.encode widths) := Function.update_self _ _ _
  have step := step_write (w.socket client) thread (encode_ne_nil widths response)
  have alone : Alone ((w.socket client).begin thread (response.encode widths))
      (.transfer thread (response.encode widths)) := by
    intro other ne c under
    change Function.update (w.socket client).call thread _ other = some c at under
    rw [Function.update_of_ne ne, idle] at under
    cases under
  rw [← socket] at step alone
  have ends := begins.next ⟨.transfer step, alone⟩
  refine ⟨_, ends, rfl, ?_⟩
  unfold Wired.setSocket
  simp only
  rw [Function.update_idem]
  rfl

theorem Wired.Settled.write {symbols : List (List UInt8)} {trace : List WriteAction} {w : Wired}
    {e e' : Exchange} (settled : w.Settled e) (run : ExclusiveRun shards threads symbols trace w)
    {action : ThreadAction} {thread : Thread} (on : action.RunsOn shards threads thread)
    {client : Int} {response : Response} (writes : e.message? action = some (client, response))
    (taken : ThreadStep shards threads e action e') :
    ∃ w', ExclusiveRun shards threads symbols
        (trace ++ [.run action] ++ [.transfer client thread (response.encode widths)]) w' ∧
      w'.Settled e' := by
  obtain ⟨exchange, idle, bytes⟩ := settled
  subst exchange
  obtain ⟨w', run', exchange', socket⟩ := write_at_once run idle on writes taken
  refine ⟨w', run', exchange', fun session => ?_, fun session => ?_⟩
  · rw [socket]
    by_cases own : session = client
    · subst own
      rw [Function.update_self, write_call (by rw [idle]), idle]
    · rw [Function.update_of_ne own, idle]
  · have sent : w'.sentTo session =
        w.sentTo session ++ if session = client then [response.encode widths] else [] := by
      rw [← sentTo_written taken writes (w.socket client) session]
      unfold Wired.sentTo Wired.setSocket Wired.setExchange
      rw [exchange']
    rw [socket, sent]
    by_cases own : session = client
    · subst own
      rw [Function.update_self, if_pos rfl, List.flatten_append, ← bytes]
      simp [Pipe.write, Pipe.transfer, Pipe.begin]
    · rw [Function.update_of_ne own, if_neg own, List.append_nil, bytes]

theorem exclusive_of_exchange {symbols : List (List UInt8)} (pos : 0 < shards)
    (threaded : 1 ≤ threads) {trace : List ThreadAction} {e : Exchange}
    (run : ExchangeRun shards threads symbols trace e) :
    ∃ trace' w, ExclusiveRun shards threads symbols trace' w ∧ w.Settled e := by
  induction run with
  | start => exact ⟨[], _, .start, rfl, fun _ => rfl, fun _ => rfl⟩
  | @next trace e e' action before taken ih =>
    obtain ⟨trace', w, run', settled⟩ := ih
    obtain ⟨thread, on⟩ := runsOn_some pos threaded before taken
    cases writes : e.message? action with
    | none =>
      obtain ⟨exchange, free, bytes⟩ := settled
      subst exchange
      have next := run'.next ⟨.silent on (fun session => by rw [free]) writes taken, trivial⟩
      refine ⟨_, _, next, rfl, free, fun session => ?_⟩
      rw [sentTo_silent taken writes]
      exact bytes session
    | some message =>
      obtain ⟨w', run'', settled'⟩ := settled.write run' on writes taken
      exact ⟨_, w', run'', settled'⟩

theorem transfer_next {symbols : List (List UInt8)} {trace : List WriteAction} {w : Wired}
    (run : WiredRun shards threads symbols trace w) {client : Int} {thread : Thread}
    {part : List UInt8} {pipe pipe' : Pipe Thread UInt8} (here : w.socket client = pipe)
    (step : SharedPipe.Step pipe (.transfer thread part) pipe') :
    WiredRun shards threads symbols (trace ++ [.transfer client thread part])
      (w.setSocket client pipe') ∧ (w.setSocket client pipe').socket client = pipe' := by
  rw [← here] at step
  exact ⟨run.next (.transfer step), Function.update_self _ _ _⟩

/-- Two threads that have a message for the same client each can break one of the two. -/
theorem two_writers {symbols : List (List UInt8)} {trace : List WriteAction} {w : Wired}
    (run : WiredRun shards threads symbols trace w)
    (idle : ∀ session, (w.socket session).call = fun _ => none) {client : Int}
    {one other : Thread} (ne : one ≠ other) {action action' : ThreadAction}
    {r r' : Response} {e e' : Exchange} (on : action.RunsOn shards threads one)
    (writes : w.exchange.message? action = some (client, r))
    (taken : ThreadStep shards threads w.exchange action e)
    (on' : action'.RunsOn shards threads other) (writes' : e.message? action' = some (client, r'))
    (taken' : ThreadStep shards threads e action' e') {first second : List UInt8}
    (firstNonempty : first ≠ []) (secondNonempty : second ≠ [])
    (split : r'.encode widths = first ++ second) :
    ∃ trace' w', WiredRun shards threads symbols trace' w' ∧ w'.exchange = e' ∧
      (∀ session, (w'.socket session).call = fun _ => none) ∧
      (w'.socket client).bytes =
        (w.socket client).bytes ++ (first ++ r.encode widths ++ second) := by
  obtain ⟨s₁, s₂, s₃, step₁, step₂, step₃, ends, bytes⟩ :=
    torn (idle client) ne (encode_ne_nil widths r) firstNonempty secondNonempty
  have begins := run.next (.write on (fun session => by rw [idle]) writes taken)
  have free : ((w.setExchange e).setSocket client
      ((w.socket client).begin one (r.encode widths))).Free other := by
    intro session
    unfold Wired.setSocket Wired.setExchange
    simp only
    by_cases own : session = client
    · rw [own, Function.update_self]
      exact (Function.update_of_ne ne.symm _ _).trans (by rw [idle])
    · rw [Function.update_of_ne own, idle]
  have both := begins.next (.write on' free writes' taken')
  rw [split] at both
  obtain ⟨run₁, here⟩ := transfer_next both (Function.update_self _ _ _) (by
    unfold Wired.setSocket Wired.setExchange
    simp only
    rw [Function.update_self]
    exact step₁)
  obtain ⟨run₂, here⟩ := transfer_next run₁ here step₂
  obtain ⟨run₃, here⟩ := transfer_next run₂ here step₃
  refine ⟨_, _, run₃, rfl, fun session => ?_, by rw [here, bytes]⟩
  by_cases own : session = client
  · rw [own, here, ends]
  · unfold Wired.setSocket Wired.setExchange
    simp only
    rw [Function.update_of_ne own, Function.update_of_ne own, Function.update_of_ne own,
      Function.update_of_ne own, Function.update_of_ne own, idle]

end Sockets

def numMarketBookThreads : Nat := 4

def appl : List UInt8 := [65, 80, 80, 76]

def killAppl : List UInt8 :=
  ['X'.toUInt8] ++ appl ++ [0, 0, 0, 7] ++ List.replicate 9 ' '.toUInt8

def killFirst : Order :=
  { requestType := .killOrder, symbol := appl, delId := 7, orderId := 1, sessionId := 1 }

def killSecond : Order :=
  { requestType := .killOrder, symbol := appl, delId := 7, orderId := 2, sessionId := 1 }

/-- The error for the first request and the ACK of the second are ready at the same time. -/
theorem kills_run : ∃ trace e,
    ExchangeRun numShards numMarketBookThreads [appl] trace e ∧
    e.server.stage 1 = .assigned killSecond 'X'.toUInt8 ∧
    e.server.outbox 1 = [(1, .error invalidOrderId)] ∧
    e.server.wire 1 = [.ack killFirst 'X'.toUInt8] := by
  have received : receive widths killAppl =
      .ok (.request { killFirst with orderId := 0, sessionId := 0 } 'X'.toUInt8) :=
    ok_of_toOption (by decide +kernel)
  have shard : shardOf numShards killFirst.symbol = 1 := by decide +kernel
  have drains : Drains numShards numMarketBookThreads 0 0 ∧
      Drains numShards numMarketBookThreads 0 1 := by
    unfold Drains
    decide
  have new : ExchangeRun numShards numMarketBookThreads [appl] [] _ := .start
  have idle : ({ market := .newOn numShards [appl] } : Server).stage 1 = .idle := rfl
  obtain ⟨more, e, submit, market, outbox, worker, stage, wire⟩ :=
    exchange_request new idle received
  have market : e.server.market =
    (MarketBook.newOn numShards [appl]).assignOrderId.2.submitOn numShards killFirst := market
  have queues : e.queue 0 = [] ∧ e.queue 1 = [killFirst] := by
    unfold Exchange.queue
    rw [market]
    decide +kernel
  have skip := submit.next (.skip drains.1 (by rw [worker]; rfl) (fun _ _ => by rw [outbox])
    queues.1)
  have seen : (do
      let r ← (e.server.market.popQueue 1).processOne (fun _ _ => true) {}
        (shardOf numShards killFirst.symbol) killFirst (symbolHash killFirst.symbol)
      pure (r.1.currentId, messagesOf r.2.log)) =
    (Except.ok (2, [(1, .error invalidOrderId)]) : Except Fault (Int × List (Int × Response))) := by
    rw [market]
    exact ok_of_toOption (by decide +kernel)
  obtain ⟨⟨mb, w⟩, ran, seen⟩ := bind_ok seen
  simp only [pure_eq_ok, Except.ok.injEq, Prod.mk.injEq] at seen
  obtain ⟨currentId, messages⟩ := seen
  have ready : (e.setWorker 0 ⟨nextShard numShards numMarketBookThreads 0 0, none⟩).worker 0 =
    ⟨1, none⟩ := setWorker_self _ _ _
  have written : ∀ k, Drains numShards numMarketBookThreads 0 k →
      (e.setWorker 0 ⟨nextShard numShards numMarketBookThreads 0 0, none⟩).server.outbox k = [] := by
    intro k _
    change e.server.outbox k = []
    rw [outbox]
  obtain ⟨_, e', process, market', stage', wire', outbox'⟩ :=
    exchange_drain skip drains.2 ready written queues.2 ran
  have reading : e'.server.stage 1 = .idle := by
    rw [stage']
    exact stage
  obtain ⟨_, e'', number, _, outbox'', _, stage'', wire''⟩ :=
    exchange_number process reading received
  refine ⟨_, e'', number, ?_, ?_, ?_⟩
  · rw [stage'', Function.update_self, market']
    unfold MarketBook.assignOrderId
    simp only [currentId]
    rfl
  · rw [outbox'', outbox', shard, Function.update_self, messages]
  · rw [wire'', wire']
    change e.server.wire 1 = _
    rw [wire, Function.update_self]
    rfl

/-- A matching thread takes the error to its socket, the I/O thread the ACK after it. -/
structure Race (e e' e'' : Exchange) : Prop where
  error : ThreadStep numShards numMarketBookThreads e (.handler (.flush 1)) e'
  errs : e.message? (.handler (.flush 1)) = some (1, .error invalidOrderId)
  matching : ThreadAction.RunsOn numShards numMarketBookThreads (.handler (.flush 1)) (.matching 0)
  ack : ThreadStep numShards numMarketBookThreads e' (.handler (.ack 1)) e''
  acks : e'.message? (.handler (.ack 1)) = some (1, .ack killSecond 'X'.toUInt8)
  wire : e''.server.wire 1 = [.ack killFirst 'X'.toUInt8, .error invalidOrderId,
    .ack killSecond 'X'.toUInt8]

theorem kills_race : ∃ trace e e' e'',
    ExchangeRun numShards numMarketBookThreads [appl] trace e ∧
    e.server.wire 1 = [.ack killFirst 'X'.toUInt8] ∧ Race e e' e'' := by
  obtain ⟨trace, e, run, stage, outbox, wire⟩ := kills_run
  have drains : Drains numShards numMarketBookThreads 0 1 := by
    unfold Drains
    decide
  have flush : ThreadStep numShards numMarketBookThreads e (.handler (.flush 1))
      (e.setServer ((e.server.write 1 (.error invalidOrderId)).setOutbox 1 [])) :=
    .handler trivial (.flush outbox)
  have stage' : (e.setServer ((e.server.write 1 (.error invalidOrderId)).setOutbox 1
    [])).server.stage 1 = .assigned killSecond 'X'.toUInt8 := stage
  have ack : ThreadStep numShards numMarketBookThreads
      (e.setServer ((e.server.write 1 (.error invalidOrderId)).setOutbox 1 []))
      (.handler (.ack 1)) _ := .handler trivial (.ack stage')
  have errs : e.message? (.handler (.flush 1)) = some (1, .error invalidOrderId) := by
    unfold Exchange.message?
    simp only [outbox, List.head?_cons]
  have acks : (e.setServer ((e.server.write 1 (.error invalidOrderId)).setOutbox 1 [])).message?
      (.handler (.ack 1)) = some (1, .ack killSecond 'X'.toUInt8) := by
    unfold Exchange.message?
    simp only [stage']
  refine ⟨trace, e, _, _, run, wire, flush, errs, ⟨0, rfl, drains⟩, ack, acks, ?_⟩
  rw [wire_written ack acks, Function.update_self, wire_written flush errs, Function.update_self,
    wire]
  rfl

/-- The error, whole, on its matching thread, then the second ACK, whole, on the I/O thread. -/
theorem messages_unbroken_killAppl : ∃ trace w,
    ExclusiveRun numShards numMarketBookThreads [appl] (trace ++ [.run (.handler (.flush 1))] ++
      [.transfer 1 (.matching 0) ((Response.error invalidOrderId).encode widths)] ++
      [.run (.handler (.ack 1))] ++ [.transfer 1 (.session 1)
        ((Response.ack killSecond 'X'.toUInt8).encode widths)]) w ∧
    w.sentTo 1 = [(Response.ack killFirst 'X'.toUInt8).encode widths,
      (Response.error invalidOrderId).encode widths,
      (Response.ack killSecond 'X'.toUInt8).encode widths] ∧
    (w.socket 1).bytes = (w.sentTo 1).flatten ∧ Unbroken (w.sentTo 1) (w.socket 1) := by
  obtain ⟨_, e, e', e'', run, _, race⟩ := kills_race
  obtain ⟨trace, w, before, settled⟩ := exclusive_of_exchange (by decide) (by decide) run
  obtain ⟨w', error, settled'⟩ := settled.write before race.matching race.errs race.error
  have session : ThreadAction.RunsOn numShards numMarketBookThreads (.handler (.ack 1))
    (.session 1) := rfl
  obtain ⟨w'', ack, exchange, _, bytes⟩ := settled'.write error session race.acks race.ack
  refine ⟨trace, w'', ack, ?_, bytes 1, messages_unbroken ack 1⟩
  unfold Wired.sentTo
  rw [exchange, race.wire]
  rfl

/-- The first byte of an ACK, then the whole of an error, then the rest of the ACK. -/
theorem messages_unbroken_fails : ∃ trace w,
    WiredRun numShards numMarketBookThreads [appl] trace w ∧ (∀ thread, w.Free thread) ∧
    ¬ Unbroken (w.sentTo 1) (w.socket 1) := by
  obtain ⟨_, e, e', e'', run, wire, race⟩ := kills_race
  obtain ⟨trace, w, run', exchange, idle, bytes⟩ :=
    exclusive_of_exchange (by decide) (by decide) run
  have run' : WiredRun numShards numMarketBookThreads [appl] trace w :=
    runs_imp (fun _ _ _ taken => taken.1) run'
  subst exchange
  have sent : w.sentTo 1 = [(Response.ack killFirst 'X'.toUInt8).encode widths] := by
    unfold Wired.sentTo
    rw [wire]
    rfl
  have ne : Thread.matching 0 ≠ Thread.session 1 := by decide
  have session : ThreadAction.RunsOn numShards numMarketBookThreads (.handler (.ack 1))
    (.session 1) := rfl
  have split : (Response.ack killSecond 'X'.toUInt8).encode widths =
    ['A'.toUInt8] ++ ((Response.ack killSecond 'X'.toUInt8).encode widths).tail := rfl
  obtain ⟨trace', w', torn, exchange', idle', bytes'⟩ := two_writers run' idle ne race.matching
    race.errs race.error session race.acks race.ack (by decide) (by decide) split
  have sent' : w'.sentTo 1 = [(Response.ack killFirst 'X'.toUInt8).encode widths,
      (Response.error invalidOrderId).encode widths,
      (Response.ack killSecond 'X'.toUInt8).encode widths] := by
    unfold Wired.sentTo
    rw [exchange', race.wire]
    rfl
  refine ⟨trace', w', torn, fun thread session => by rw [idle'], ?_⟩
  rintro ⟨done, rest, perm, whole, ends⟩
  have complete := ends fun thread => by rw [idle']
  subst complete
  rw [List.append_nil, sent', ← List.mem_permutations'] at perm
  rcases whole with received | ⟨_, member, _⟩
  · rw [bytes', bytes, sent] at received
    revert done
    decide +kernel
  · cases member

end MarketBookExchange
