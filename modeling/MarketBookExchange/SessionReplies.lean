import MarketBookExchange.OwnOrders

/- The replies of a session's read handler among all that is written to the session. -/
namespace MarketBookExchange
open Outcome Transitions

/-- What the handler makes of one read. -/
inductive Reply where
  | accepted (request : Order) (requestTypeChar : UInt8)
  | refused (code : Int)
  deriving DecidableEq

instance (code : Int) : Decidable (LateError code) := inferInstanceAs (Decidable (_ ∨ _))

def reply (message : List UInt8) : Option Reply :=
  match receive widths message with
  | .ok (.request order c) => some (.accepted order.request c)
  | .ok (.refused code) => some (.refused code)
  | .error _ => none

/-- The replies that a session's reads ask for, in the order of the reads. -/
def asked (session : Int) (trace : List ThreadAction) : List Reply :=
  trace.filterMap fun
    | .handler (.read s message) => if s = session then reply message else none
    | _ => none

/-- The reply that a message is, if it comes from the handler. -/
def Response.reply? : Response → Option Reply
  | .ack order c => some (.accepted order.request c)
  | .error code => if LateError code then none else some (.refused code)
  | _ => none

def replied (wire : List Response) : List Reply := wire.filterMap Response.reply?

def Stage.owed : Stage → List Reply
  | .decoded order c => [.accepted order.request c]
  | .assigned order c => [.accepted order.request c]
  | _ => []

def ackedIds (wire : List Response) : List Int :=
  wire.filterMap fun
    | .ack order _ => some order.orderId
    | _ => none

theorem asked_append (session : Int) (trace more : List ThreadAction) :
    asked session (trace ++ more) = asked session trace ++ asked session more :=
  List.filterMap_append

theorem replied_append (wire more : List Response) :
    replied (wire ++ more) = replied wire ++ replied more := List.filterMap_append

theorem ackedIds_append (wire more : List Response) :
    ackedIds (wire ++ more) = ackedIds wire ++ ackedIds more := List.filterMap_append

theorem refused_early {message : List UInt8} {code : Int}
    (refused : receive widths message = .ok (.refused code)) : ¬ LateError code := by
  unfold receive at refused
  obtain ⟨decoded, _, refused⟩ := bind_ok refused
  have reject : ∀ order code, rejection order = some code → ¬ LateError code := by
    intro order code rejected
    unfold rejection simpleReject at rejected
    split at rejected
    · cases rejected
    · split at rejected
      · cases rejected
        decide
      · split at rejected
        · cases rejected
          decide
        · cases rejected
  cases decoded with
  | none =>
    cases refused
    decide
  | some order =>
    simp only at refused
    split at refused
    · rename_i rejected
      cases refused
      exact reject order _ rejected
    · cases refused

theorem told_unasked {orders : List Order} {session : Int} {m : Response}
    (told : Told orders session m) : replied [m] = [] ∧ ackedIds [m] = [] := by
  rcases told with ⟨code, rfl, late⟩ | ⟨sent, _, _, concerning⟩
  · constructor
    · simp [replied, Response.reply?, late]
    · rfl
  · cases m with
    | ack order c => exact concerning.elim
    | error code => exact concerning.elim
    | _ => exact ⟨rfl, rfl⟩

/-- Each read of a session has had its reply, but for the one that the handler is at; and the
    ids that a session has been given go up. -/
structure Answered (trace : List ThreadAction) (server : Server) : Prop where
  replies : ∀ session,
    replied (server.wire session) ++ (server.stage session).owed = asked session trace
  rising : ∀ session, (ackedIds (server.wire session)).Pairwise (· < ·)
  given : ∀ session, ∀ id ∈ ackedIds (server.wire session), id < server.market.currentId
  next : ∀ session order c, server.stage session = .assigned order c →
    order.orderId < server.market.currentId ∧
      ∀ id ∈ ackedIds (server.wire session), id < order.orderId

section Answered
variable {shards threads : Nat} {symbols : List (List UInt8)} {trace : List ThreadAction}
variable {server server' : Server} {e e' : Exchange}

theorem answered_new : Answered [] { market := .newOn shards symbols } := by
  constructor
  · exact fun _ => rfl
  · exact fun _ => List.Pairwise.nil
  · intro session id member
    cases member
  · intro session order c assigned
    cases assigned

namespace Answered

theorem quiet (h : Answered trace server) {action : ThreadAction}
    (unasked : ∀ session, asked session [action] = [])
    (replies : ∀ session, replied (server'.wire session) = replied (server.wire session))
    (acks : ∀ session, ackedIds (server'.wire session) = ackedIds (server.wire session))
    (owed : ∀ session, (server'.stage session).owed = (server.stage session).owed)
    (next : ∀ session order c, server'.stage session = .assigned order c →
      server.stage session = .assigned order c)
    (counter : server'.market.currentId = server.market.currentId) :
    Answered (trace ++ [action]) server' := by
  constructor
  · intro session
    rw [asked_append, unasked, List.append_nil, replies, owed]
    exact h.replies session
  · intro session
    rw [acks]
    exact h.rising session
  · intro session
    rw [acks, counter]
    exact h.given session
  · intro session order c assigned
    rw [acks, counter]
    exact h.next session order c (next session order c assigned)

theorem unasked_write {session a : Int} {m : Response}
    (unasked : replied [m] = [] ∧ ackedIds [m] = []) :
    replied ((server.write session m).wire a) = replied (server.wire a) ∧
      ackedIds ((server.write session m).wire a) = ackedIds (server.wire a) := by
  rw [Server.wire_write, replied_append, ackedIds_append]
  by_cases own : a = session
  · rw [if_pos own, unasked.1, unasked.2, List.append_nil, List.append_nil]
    exact ⟨rfl, rfl⟩
  · rw [if_neg own]
    exact ⟨List.append_nil _, List.append_nil _⟩

theorem accept (h : Answered trace server) {session : Int} {message : List UInt8} {order : Order}
    {c : UInt8} (idle : server.stage session = .idle)
    (decoded : receive widths message = .ok (.request order c)) :
    Answered (trace ++ [.handler (.read session message)])
      (server.setStage session (.decoded order c)) := by
  have shape : reply message = some (.accepted order.request c) := by
    unfold reply
    rw [decoded]
  constructor
  · intro a
    rw [asked_append, ← h.replies a]
    by_cases own : a = session
    · subst own
      rw [Server.setStage_self, idle]
      simp [asked, shape, Stage.owed, Server.setStage]
    · rw [Server.setStage_other server own]
      simp [asked, Ne.symm own, Server.setStage]
  · exact h.rising
  · exact h.given
  · intro a o c' assigned
    by_cases own : a = session
    · subst own
      rw [Server.setStage_self] at assigned
      cases assigned
    · rw [Server.setStage_other server own] at assigned
      exact h.next a o c' assigned

theorem refuse (h : Answered trace server) {session : Int} {message : List UInt8} {code : Int}
    (idle : server.stage session = .idle)
    (refused : receive widths message = .ok (.refused code)) :
    Answered (trace ++ [.handler (.read session message)])
      (server.write session (.error code)) := by
  have shape : reply message = some (.refused code) := by
    unfold reply
    rw [refused]
  have early := refused_early refused
  have noId : ∀ a, ackedIds ((server.write session (.error code)).wire a) =
      ackedIds (server.wire a) := by
    intro a
    rw [Server.wire_write, ackedIds_append]
    by_cases own : a = session <;> simp [own, ackedIds]
  constructor
  · intro a
    rw [asked_append, ← h.replies a, Server.wire_write, replied_append]
    by_cases own : a = session
    · subst own
      rw [show (server.write a (.error code)).stage a = .idle from idle, idle]
      simp [asked, shape, Stage.owed, replied, Response.reply?, early]
    · simp [asked, own, Ne.symm own, replied, Server.write]
  · intro a
    rw [noId]
    exact h.rising a
  · intro a
    rw [noId]
    exact h.given a
  · intro a o c assigned
    rw [noId]
    exact h.next a o c assigned

theorem assign (h : Answered trace server) {session : Int} {order given : Order} {c : UInt8}
    (decoded : server.stage session = .decoded order c) (given_eq : given = { order with
      orderId := server.market.assignOrderId.1, sessionId := session }) :
    Answered (trace ++ [.handler (.assign session given)])
      ({ server with market := server.market.assignOrderId.2 }.setStage session
        (.assigned given c)) := by
  have numbered : given.orderId = server.market.currentId := by rw [given_eq]; rfl
  have up : ({ server with market := server.market.assignOrderId.2 }.setStage session
      (.assigned given c)).market.currentId = server.market.currentId + 1 := rfl
  constructor
  · intro a
    rw [asked_append, ← h.replies a]
    by_cases own : a = session
    · subst own
      rw [Server.setStage_self, decoded]
      simp [asked, Stage.owed, Order.request, given_eq, Server.setStage]
    · rw [Server.setStage_other _ own]
      simp [asked, Server.setStage]
  · exact h.rising
  · intro a id member
    have low := h.given a id member
    rw [up]
    omega
  · intro a o c' assigned
    rw [up]
    by_cases own : a = session
    · subst own
      rw [Server.setStage_self] at assigned
      cases assigned
      refine ⟨by omega, fun id member => ?_⟩
      have low := h.given a id member
      omega
    · rw [Server.setStage_other _ own] at assigned
      obtain ⟨low, above⟩ := h.next a o c' assigned
      exact ⟨by omega, above⟩

theorem ack (h : Answered trace server) {session : Int} {order : Order} {c : UInt8}
    (assigned : server.stage session = .assigned order c) :
    Answered (trace ++ [.handler (.ack session)])
      ((server.write session (.ack order c)).setStage session (.acked order)) := by
  obtain ⟨low, above⟩ := h.next session order c assigned
  have wires : ∀ a, ((server.write session (.ack order c)).setStage session (.acked order)).wire a =
      server.wire a ++ if a = session then [.ack order c] else [] := by
    intro a
    exact Server.wire_write server session a _
  have acks : ∀ a, ackedIds (((server.write session (.ack order c)).setStage session
      (.acked order)).wire a) =
        ackedIds (server.wire a) ++ if a = session then [order.orderId] else [] := by
    intro a
    rw [wires, ackedIds_append]
    by_cases own : a = session <;> simp [own, ackedIds]
  constructor
  · intro a
    rw [asked_append, ← h.replies a, wires, replied_append]
    by_cases own : a = session
    · subst own
      rw [Server.setStage_self, assigned]
      simp [asked, Stage.owed, replied, Response.reply?]
    · rw [Server.setStage_other _ own]
      simp [asked, own, replied, Server.write]
  · intro a
    rw [acks]
    by_cases own : a = session
    · subst own
      rw [if_pos rfl, List.pairwise_append]
      refine ⟨h.rising a, List.pairwise_singleton _ _, fun id member id' last => ?_⟩
      rw [List.mem_singleton.mp last]
      exact above id member
    · rw [if_neg own, List.append_nil]
      exact h.rising a
  · intro a id member
    rw [acks] at member
    rcases List.mem_append.mp member with old | new
    · exact h.given a id old
    · split at new
      · rw [List.mem_singleton.mp new]
        exact low
      · cases new
  · intro a o c' assigned'
    by_cases own : a = session
    · subst own
      rw [Server.setStage_self] at assigned'
      cases assigned'
    · rw [Server.setStage_other _ own] at assigned'
      rw [acks, if_neg own, List.append_nil]
      exact h.next a o c' assigned'

theorem handler (h : Answered trace server) (own : OwnOnly trace server) {action : Action}
    (inHandler : action.inHandler) (taken : Step (fun _ => False) server action server') :
    Answered (trace ++ [.handler action]) server' := by
  cases taken with
  | push acked => exact inHandler.elim
  | pop written head connected drained => exact inHandler.elim
  | accept idle decoded => exact h.accept idle decoded
  | refuse idle refused => exact h.refuse idle refused
  | assign decoded => exact h.assign decoded rfl
  | ack assigned => exact h.ack assigned
  | @flush s session response rest next =>
    have unasked := told_unasked (own.outbox s session response (by rw [next]; simp))
    apply h.quiet
    · exact fun _ => rfl
    · exact fun a => (unasked_write unasked).1
    · exact fun a => (unasked_write unasked).2
    · exact fun _ => rfl
    · exact fun _ _ _ assigned => assigned
    · rfl

theorem submit (h : Answered trace server) {session : Int} {order : Order}
    (acked : server.stage session = .acked order) (wires : server'.wire = server.wire)
    (stages : server'.stage = Function.update server.stage session .idle)
    (counter : server'.market.currentId = server.market.currentId) :
    Answered (trace ++ [.submit session order]) server' := by
  apply h.quiet
  · exact fun _ => rfl
  · exact fun a => by rw [wires]
  · exact fun a => by rw [wires]
  · intro a
    rw [stages]
    by_cases own : a = session
    · subst own
      rw [Function.update_self, acked]
      rfl
    · rw [Function.update_of_ne own]
  · intro a o c assigned
    rw [stages] at assigned
    by_cases own : a = session
    · subst own
      rw [Function.update_self] at assigned
      cases assigned
    · rwa [Function.update_of_ne own] at assigned
  · exact counter

end Answered

theorem answered_run (run : ExchangeRun shards threads symbols trace e) :
    Answered trace e.server := by
  induction run with
  | start => exact answered_new
  | next before taken ih =>
    cases taken with
    | handler inHandler taken => exact ih.handler (ownOnly_run before) inHandler taken
    | submit acked => exact ih.submit acked rfl rfl rfl
    | process popped processed =>
      apply ih.quiet
      · exact fun _ => rfl
      · exact fun _ => rfl
      · exact fun _ => rfl
      · exact fun _ => rfl
      · exact fun _ _ _ assigned => assigned
      · exact (MarketBook.processOne_keeps processed).1
    | _ =>
      apply ih.quiet
      · exact fun _ => rfl
      · exact fun _ => rfl
      · exact fun _ => rfl
      · exact fun _ => rfl
      · exact fun _ _ _ assigned => assigned
      · rfl

/-- However its messages mix with those of the matching threads, a session gets one reply to
    each of its reads, in the order of the reads, and its orders get rising ids. -/
theorem replies_in_order (run : ExchangeRun shards threads symbols trace e) (session : Int) :
    replied (e.server.wire session) ++ (e.server.stage session).owed = asked session trace ∧
      (ackedIds (e.server.wire session)).Pairwise (· < ·) :=
  ⟨(answered_run run).replies session, (answered_run run).rising session⟩

end Answered

/-- Three reads and three replies, among a fill, a confirmed kill and an error of the matching
    thread. -/
theorem replies_in_order_fourRequests : ∃ trace e, ExchangeRun 1 2 [nflx] trace e ∧
    e.server.wire 1 = [.ack firstBidOrder 'O'.toUInt8,
      .partialFill { firstBidOrder with qty := 2 } 3 2 90, .ack (cancelRequest 3) 'X'.toUInt8,
      .killConfirm { firstBidOrder with qty := 2 }, .ack (cancelRequest 4) 'X'.toUInt8,
      .error invalidOrderId] ∧
    (asked 1 trace).length = 3 ∧ replied (e.server.wire 1) = asked 1 trace ∧
    ackedIds (e.server.wire 1) = [1, 3, 4] ∧
    (ackedIds (e.server.wire 1)).Pairwise (· < ·) := by
  obtain ⟨trace, e, run, quiet, _, _, _, wires⟩ := fourRequests_run
  obtain ⟨replies, rising⟩ := replies_in_order run 1
  rw [quiet.stage, show Stage.idle.owed = [] from rfl, List.append_nil] at replies
  refine ⟨trace, e, run, wires 1, ?_, replies, ?_, rising⟩
  · rw [← replies, wires]
    rfl
  · rw [wires]
    rfl

end MarketBookExchange
