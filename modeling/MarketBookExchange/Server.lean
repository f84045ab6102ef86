import MarketBookExchange.MarketBook
import MarketBookExchange.Lib.Transitions

/- The server as its threads interleave: each session reads, numbers, acknowledges and
   queues one request at a time, and each shard takes requests off its queue. -/
namespace MarketBookExchange
open Transitions

/-- What `readListener` decodes from one read; `none`: no request starts with that byte. -/
def decodeRequest (w : Widths) (message : List UInt8) : Except Fault (Option Order) :=
  let c := message.headD 0
  if c = 'O'.toUInt8 then some <$> decodeSendOrder w message
  else if c = 'U'.toUInt8 then some <$> decodeModifyOrder w message
  else if c = 'X'.toUInt8 then some <$> decodeKillOrder w message
  else pure none

/-- The error code that `simpleReject` answers with, if it rejects. -/
def simpleReject (order : Order) : Option Int :=
  if order.priceLevel ≤ 0 then some invalidPrice
  else if order.qty ≤ 0 then some invalidQuantity
  else none

/-- KILL is not checked. -/
def rejection (order : Order) : Option Int :=
  match order.requestType with
  | .killOrder => none
  | _ => simpleReject order

inductive Received where
  | request (order : Order) (requestTypeChar : UInt8)
  | refused (code : Int)
  deriving DecidableEq, Repr

def receive (w : Widths) (message : List UInt8) : Except Fault Received := do
  match ← decodeRequest w message with
  | none => pure (.refused malformedRequest)
  | some order =>
    match rejection order with
    | some code => pure (.refused code)
    | none => pure (.request order (message.headD 0))

/-- How far a session's read handler is with its current request. -/
inductive Stage where
  | idle
  | decoded (order : Order) (requestTypeChar : UInt8)
  | assigned (order : Order) (requestTypeChar : UInt8)
  | acked (order : Order)

/-- A shard's books belong to one thread, so what other threads can see of `process_one` is
    when it takes its request and when it writes each message: `outbox` holds the messages
    of the last call that are still to be written. -/
structure Server where
  market : MarketBook
  stage : Int → Stage := fun _ => .idle
  wire : Int → List Response := fun _ => []
  outbox : Nat → List (Int × Response) := fun _ => []

namespace Server

def setStage (server : Server) (session : Int) (stage : Stage) : Server :=
  { server with stage := Function.update server.stage session stage }

def write (server : Server) (session : Int) (response : Response) : Server :=
  { server with
    wire := Function.update server.wire session (server.wire session ++ [response]) }

def setOutbox (server : Server) (s : Nat) (messages : List (Int × Response)) : Server :=
  { server with outbox := Function.update server.outbox s messages }

@[simp] theorem setStage_self (server : Server) (session : Int) (stage : Stage) :
    (server.setStage session stage).stage session = stage := Function.update_self _ _ _

theorem setStage_other (server : Server) {session s : Int} (ne : s ≠ session) (stage : Stage) :
    (server.setStage session stage).stage s = server.stage s := Function.update_of_ne ne _ _

theorem wire_write (server : Server) (session a : Int) (m : Response) :
    (server.write session m).wire a = server.wire a ++ if a = session then [m] else [] := by
  unfold write
  simp only
  by_cases own : a = session
  · subst own
    rw [Function.update_self, if_pos rfl]
  · rw [Function.update_of_ne own, if_neg own, List.append_nil]

end Server

def messagesOf (log : List Event) : List (Int × Response) :=
  log.filterMap fun
    | .write session response => some (session, response)
    | _ => none

inductive Action where
  | read (session : Int) (message : List UInt8)
  | assign (session : Int) (order : Order)
  | ack (session : Int)
  | push (session : Int)
  | pop (s : Nat) (order : Order)
  | flush (s : Nat)

/-- One step of one thread. The sessions of `present` are found whenever they are looked up;
    of all others the registry may say anything at any time. -/
inductive Step (present : Int → Prop) : Server → Action → Server → Prop
  | accept {server : Server} {session : Int} {message : List UInt8} {order : Order} {c : UInt8}
      (idle : server.stage session = .idle)
      (decoded : receive widths message = .ok (.request order c)) :
      Step present server (.read session message) (server.setStage session (.decoded order c))
  | refuse {server : Server} {session : Int} {message : List UInt8} {code : Int}
      (idle : server.stage session = .idle)
      (refused : receive widths message = .ok (.refused code)) :
      Step present server (.read session message) (server.write session (.error code))
  | assign {server : Server} {session : Int} {order : Order} {c : UInt8}
      (decoded : server.stage session = .decoded order c) :
      Step present server
        (.assign session { order with
          orderId := server.market.assignOrderId.1, sessionId := session })
        ({ server with market := server.market.assignOrderId.2 }.setStage session
          (.assigned { order with
            orderId := server.market.assignOrderId.1, sessionId := session } c))
  | ack {server : Server} {session : Int} {order : Order} {c : UInt8}
      (assigned : server.stage session = .assigned order c) :
      Step present server (.ack session)
        ((server.write session (.ack order c)).setStage session (.acked order))
  | push {server : Server} {session : Int} {order : Order}
      (acked : server.stage session = .acked order) :
      Step present server (.push session)
        ({ server with market := server.market.submitOrder order }.setStage session .idle)
  | pop {server : Server} {s : Nat} {order : Order} {registry : Registry} {market : MarketBook}
      {w : World} (written : server.outbox s = [])
      (head : (server.market.shards s).queue.head? = some order)
      (connected : ∀ session, present session → ∀ n, registry n session = true)
      (drained : server.market.drainOne registry {} s = .ok (some (market, w))) :
      Step present server (.pop s order)
        ({ server with market }.setOutbox s (messagesOf w.log))
  | flush {server : Server} {s : Nat} {session : Int} {response : Response}
      {rest : List (Int × Response)} (next : server.outbox s = (session, response) :: rest) :
      Step present server (.flush s) ((server.write session response).setOutbox s rest)

/-- The server's runs from its start, with one book for each configured symbol. -/
abbrev ServerRun (symbols : List (List UInt8)) (present : Int → Prop) :
    List Action → Server → Prop :=
  Runs (Step present) { market := .new symbols }

theorem run_request {symbols : List (List UInt8)} {present : Int → Prop} {trace : List Action}
    {server : Server} (run : ServerRun symbols present trace server) {session : Int}
    (idle : server.stage session = .idle) {message : List UInt8} {order : Order} {c : UInt8}
    (received : receive widths message = .ok (.request order c)) :
    ∃ more server', ServerRun symbols present (trace ++ more) server' ∧
      server'.market = server.market.assignOrderId.2.submitOrder { order with
        orderId := server.market.assignOrderId.1, sessionId := session } ∧
      ∀ s, server'.stage s = server.stage s := by
  have read := run.next (.accept idle received)
  have assign := read.next (.assign (Server.setStage_self _ _ _))
  have ack := assign.next (.ack (Server.setStage_self _ _ _))
  have push := ack.next (.push (Server.setStage_self _ _ _))
  simp only [List.append_assoc] at push
  refine ⟨_, _, push, rfl, fun s => ?_⟩
  by_cases same : s = session
  · subst same
    rw [Server.setStage_self, idle]
  · rw [Server.setStage_other _ same]
    exact (Server.setStage_other _ same _).trans
      ((Server.setStage_other _ same _).trans (Server.setStage_other _ same _))

end MarketBookExchange
