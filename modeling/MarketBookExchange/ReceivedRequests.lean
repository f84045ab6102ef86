import MarketBookExchange.ClientRequests
import MarketBookExchange.CodecWidths
import MarketBookExchange.RequestOrder

/- What is known of a request by the time it is processed: the read it came from bounds its
   fields, and the server has given it a number of its own. -/
namespace MarketBookExchange
open Outcome Transitions

/-- The fields of a request fit the 4 bytes they were read from. -/
structure FromWire (order : Order) : Prop where
  symbol : order.symbol.length = symbolBytes
  qty : order.qty < 2 ^ 31
  priceLevel : order.priceLevel < 2 ^ 31
  checked : rejection order = none

theorem number_lt {message : List UInt8} {first : Nat} {n : Int}
    (read : byteConversion message first (first + 3) = .ok n) : n < 2 ^ 31 := by
  rw [show first + 3 = first + 4 - 1 by omega] at read
  have inside := byteConversion_inside (by omega) read
  rw [byteConversion_ok (by omega) (by omega) inside] at read
  cases read
  exact signedValue_lt _

section Decoders
variable {message : List UInt8} {order : Order}

theorem decodeSendOrder_fields (run : decodeSendOrder widths message = .ok order) :
    order.symbol.length = symbolBytes ∧ order.qty < 2 ^ 31 ∧ order.priceLevel < 2 ^ 31 := by
  unfold decodeSendOrder at run
  obtain ⟨side, _, run⟩ := bind_ok run
  obtain ⟨symbol, symbolRead, run⟩ := bind_ok run
  obtain ⟨qty, qtyRead, run⟩ := bind_ok run
  obtain ⟨price, priceRead, run⟩ := bind_ok run
  cases run
  constructor
  · exact ((readSymbol_iff _ _ _ _).mp symbolRead).1
  · exact ⟨number_lt qtyRead, number_lt priceRead⟩

theorem decodeModifyOrder_fields (run : decodeModifyOrder widths message = .ok order) :
    order.symbol.length = symbolBytes ∧ order.qty < 2 ^ 31 ∧ order.priceLevel < 2 ^ 31 := by
  unfold decodeModifyOrder at run
  obtain ⟨side, _, run⟩ := bind_ok run
  obtain ⟨symbol, symbolRead, run⟩ := bind_ok run
  obtain ⟨qty, qtyRead, run⟩ := bind_ok run
  obtain ⟨price, priceRead, run⟩ := bind_ok run
  obtain ⟨target, _, run⟩ := bind_ok run
  cases run
  constructor
  · exact ((readSymbol_iff _ _ _ _).mp symbolRead).1
  · exact ⟨number_lt qtyRead, number_lt priceRead⟩

theorem decodeKillOrder_fields (run : decodeKillOrder widths message = .ok order) :
    order.symbol.length = symbolBytes ∧ order.qty < 2 ^ 31 ∧ order.priceLevel < 2 ^ 31 := by
  unfold decodeKillOrder at run
  obtain ⟨symbol, symbolRead, run⟩ := bind_ok run
  obtain ⟨target, _, run⟩ := bind_ok run
  cases run
  constructor
  · exact ((readSymbol_iff _ _ _ _).mp symbolRead).1
  · simp

theorem decodeRequest_fields (run : decodeRequest widths message = .ok (some order)) :
    order.symbol.length = symbolBytes ∧ order.qty < 2 ^ 31 ∧ order.priceLevel < 2 ^ 31 := by
  have through : ∀ {x : Except Fault Order}, some <$> x = .ok (some order) → x = .ok order := by
    intro x run
    cases x with
    | error e => cases run
    | ok o =>
      cases run
      rfl
  unfold decodeRequest at run
  simp only at run
  split at run
  · exact decodeSendOrder_fields (through run)
  · split at run
    · exact decodeModifyOrder_fields (through run)
    · split at run
      · exact decodeKillOrder_fields (through run)
      · cases run

theorem receive_fromWire {c : UInt8} (run : receive widths message = .ok (.request order c)) :
    FromWire order := by
  have checked := receive_checked run
  unfold receive at run
  obtain ⟨decoded, read, run⟩ := bind_ok run
  cases decoded with
  | none => cases run
  | some o =>
    have fields := decodeRequest_fields read
    simp only at run
    split at run
    · cases run
    · cases run
      exact ⟨fields.1, fields.2.1, fields.2.2, checked⟩

end Decoders

theorem FromWire.request {order o : Order} (h : FromWire order) (same : o.request = order.request) :
    FromWire o := by
  have fields : ∀ {α : Type} (field : Order → α), field o.request = field order.request :=
    fun field => congrArg field same
  have kind : o.requestType = order.requestType := fields Order.requestType
  have qty : o.qty = order.qty := fields Order.qty
  have price : o.priceLevel = order.priceLevel := fields Order.priceLevel
  have symbol : o.symbol = order.symbol := fields Order.symbol
  constructor
  · rw [symbol]
    exact h.symbol
  · rw [qty]
    exact h.qty
  · rw [price]
    exact h.priceLevel
  · have checked := h.checked
    unfold rejection simpleReject at checked ⊢
    rw [kind, qty, price]
    exact checked

structure Numbered (trace : List ThreadAction) (server : Server) : Prop where
  counting : 1 ≤ server.market.currentId
  stages : ∀ session o, (server.stage session).numbered? = some o → 1 ≤ o.orderId
  submitted : ∀ id ∈ ids (submitted trace), 1 ≤ id

section Runs
variable {shards threads : Nat} {symbols : List (List UInt8)} {trace : List ThreadAction}
variable {e : Exchange}

theorem numbered_new : Numbered [] { market := .newOn shards symbols } := by
  constructor
  · simp [MarketBook.newOn_currentId]
  · intro session o numbered
    cases numbered
  · intro id member
    cases member

namespace Numbered
variable {server server' : Server}

theorem same (h : Numbered trace server) (action : ThreadAction)
    (unsubmitted : MarketBookExchange.submitted [action] = [])
    (number : ∀ session o, (server'.stage session).numbered? = some o →
      (server.stage session).numbered? = some o)
    (counter : server'.market.currentId = server.market.currentId) :
    Numbered (trace ++ [action]) server' := by
  constructor
  · rw [counter]
    exact h.counting
  · exact fun session o numbered => h.stages session o (number session o numbered)
  · rw [submitted_append, unsubmitted, List.append_nil]
    exact h.submitted

theorem handler (h : Numbered trace server) {action : Action} (inHandler : action.inHandler)
    (taken : Step (fun _ => False) server action server') :
    Numbered (trace ++ [.handler action]) server' := by
  have moved : ∀ {s : Server} {session : Int} {stage : Stage}, s.stage = server.stage →
      (∀ o, stage.numbered? = some o → (server.stage session).numbered? = some o) →
      ∀ a o, ((s.setStage session stage).stage a).numbered? = some o →
        (server.stage a).numbered? = some o := by
    intro s session stage stages kept a o numbered
    by_cases own : a = session
    · subst own
      rw [Server.setStage_self] at numbered
      exact kept o numbered
    · rw [Server.setStage_other s own, stages] at numbered
      exact numbered
  cases taken with
  | push acked => exact inHandler.elim
  | pop written head connected drained => exact inHandler.elim
  | accept idle decoded =>
    apply h.same _ rfl
    · apply moved rfl
      intro o numbered
      cases numbered
    · rfl
  | refuse idle refused =>
    apply h.same _ rfl
    · exact fun _ _ numbered => numbered
    · rfl
  | @assign session order c decoded =>
    constructor
    · have counting := h.counting
      unfold Server.setStage MarketBook.assignOrderId
      simp only
      omega
    · intro a o numbered
      by_cases own : a = session
      · subst own
        rw [Server.setStage_self] at numbered
        cases numbered
        exact h.counting
      · rw [Server.setStage_other _ own] at numbered
        exact h.stages a o numbered
    · rw [submitted_append]
      simpa [MarketBookExchange.submitted] using h.submitted
  | ack assigned =>
    apply h.same _ rfl
    · apply moved rfl
      intro o numbered
      rw [assigned]
      exact numbered
    · rfl
  | flush next =>
    apply h.same _ rfl
    · exact fun _ _ numbered => numbered
    · rfl

theorem step {e' : Exchange} (h : Numbered trace e.server) {action : ThreadAction}
    (taken : ThreadStep shards threads e action e') : Numbered (trace ++ [action]) e'.server := by
  cases taken with
  | handler inHandler taken => exact h.handler inHandler taken
  | @submit session order acked =>
    constructor
    · exact h.counting
    · intro a o numbered
      by_cases own : a = session
      · subst own
        have idle := numbered
        unfold Exchange.setServer at idle
        rw [Server.setStage_self] at idle
        cases idle
      · unfold Exchange.setServer at numbered
        rw [Server.setStage_other _ own] at numbered
        exact h.stages a o numbered
    · intro id member
      rw [submitted_append, ids, List.map_append] at member
      rcases List.mem_append.mp member with old | new
      · exact h.submitted id old
      · rw [List.mem_singleton.mp new]
        exact h.stages session order (by rw [acked]; rfl)
  | process popped processed =>
    apply h.same _ rfl
    · exact fun _ _ numbered => numbered
    · exact (MarketBook.processOne_keeps processed).1
  | _ =>
    apply h.same _ rfl
    · exact fun _ _ numbered => numbered
    · rfl

end Numbered

theorem numbered_run (run : ExchangeRun shards threads symbols trace e) :
    Numbered trace e.server :=
  runs_invariant (fun trace e => Numbered trace e.server) numbered_new
    (fun _ _ _ _ h taken => h.step taken) run

def forSymbol (symbol : List UInt8) (l : List Order) : List Order :=
  l.filter fun o => o.symbol = symbol

@[simp] theorem forSymbol_append (symbol : List UInt8) (l more : List Order) :
    forSymbol symbol (l ++ more) = forSymbol symbol l ++ forSymbol symbol more :=
  List.filter_append _ _

theorem mem_forSymbol {symbol : List UInt8} {l : List Order} {o : Order} :
    o ∈ forSymbol symbol l ↔ o ∈ l ∧ o.symbol = symbol := by
  unfold forSymbol
  rw [List.mem_filter, decide_eq_true_eq]

theorem forSymbol_onShard (shards : Nat) (symbol : List UInt8) (l : List Order) :
    forSymbol symbol (onShard shards (shardOf shards symbol) l) = forSymbol symbol l := by
  unfold forSymbol onShard
  rw [List.filter_filter]
  apply List.filter_congr
  intro o _
  by_cases own : o.symbol = symbol <;> simp [own]

theorem forSymbol_processed (pos : 0 < shards) (threaded : 1 ≤ threads)
    (run : ExchangeRun shards threads symbols trace e) (symbol : List UInt8) :
    forSymbol symbol (processed trace) <+: forSymbol symbol (submitted trace) := by
  obtain ⟨i, drains⟩ := drains_some threaded (shardOf_lt pos symbol)
  have flow := (placed_run run).flow i _ drains
  rw [← forSymbol_onShard shards symbol (processed trace),
    ← forSymbol_onShard shards symbol (submitted trace), ← flow, forSymbol_append]
  exact List.prefix_append _ _

/-- Requests read from the wire, each under a number the server has given it alone. -/
structure Delivered (orders : List Order) (currentId : Int) : Prop where
  fromWire : ∀ o ∈ orders, FromWire o
  once : (ids orders).Nodup
  issued : ∀ o ∈ orders, 1 ≤ o.orderId ∧ o.orderId < currentId

theorem Delivered.sublist {orders fewer : List Order} {currentId : Int}
    (h : Delivered orders currentId) (sub : fewer.Sublist orders) : Delivered fewer currentId := by
  constructor
  · exact fun o member => h.fromWire o (sub.subset member)
  · exact h.once.sublist (sub.map _)
  · exact fun o member => h.issued o (sub.subset member)

theorem delivered_submitted (run : ExchangeRun shards threads symbols trace e) :
    Delivered (submitted trace) e.server.market.currentId := by
  have inOrder := inOrder_run run
  constructor
  · intro o member
    have asked : o.request ∈ sentBy o.sessionId o.symbol trace := by
      apply (submitted_in_order run o.sessionId o.symbol).subset
      apply List.mem_map_of_mem
      unfold ofSession
      simpa using member
    obtain ⟨action, _, read⟩ := List.mem_filterMap.mp asked
    cases action with
    | handler action =>
      cases action with
      | read session message =>
        simp only at read
        cases received : receive widths message with
        | error fault =>
          rw [received] at read
          cases read
        | ok result =>
          cases result with
          | refused code =>
            rw [received] at read
            cases read
          | request order c =>
            rw [received] at read
            simp only at read
            split at read
            · exact (receive_fromWire received).request (Option.some.inj read).symm
            · cases read
      | _ => cases read
    | _ => cases read
  · exact inOrder.once
  · intro o member
    have issued : o.orderId ∈ ids (submitted trace) := List.mem_map_of_mem member
    exact ⟨(numbered_run run).submitted _ issued, inOrder.below _ issued⟩

theorem delivered_run (pos : 0 < shards) (threaded : 1 ≤ threads)
    (run : ExchangeRun shards threads symbols trace e) (symbol : List UInt8) :
    Delivered (forSymbol symbol (processed trace)) e.server.market.currentId :=
  (delivered_submitted run).sublist
    ((forSymbol_processed pos threaded run symbol).sublist.trans List.filter_sublist)

end Runs

end MarketBookExchange
