import MarketBookExchange.Lib.RoundRobin
import MarketBookExchange.MulticastFeed

/- How long a request waits in the queue of its shard, counted in the turns that the shard's
   thread takes. -/
namespace MarketBookExchange
open Outcome Transitions RoundRobin

def ThreadAction.turnOf (i : Nat) : ThreadAction → Bool
  | .skip j _ => j = i
  | .process j _ _ _ => j = i
  | _ => false

section Turns
variable {shards threads : Nat} {symbols : List (List UInt8)} {trace : List ThreadAction}
variable {e e' : Exchange} {i s : Nat}

theorem turn_moves {action : ThreadAction} (taken : ThreadStep shards threads e action e') :
    (e'.worker i).shard = if action.turnOf i then
      nextShard shards threads i (e.worker i).shard else (e.worker i).shard := by
  have moved : ∀ (e₁ : Exchange) (j k : Nat), (e.worker j).shard = k → e₁.worker = e.worker →
      ((e₁.setWorker j ⟨nextShard shards threads j k, none⟩).worker i).shard =
        if decide (j = i) then nextShard shards threads i (e.worker i).shard
        else (e.worker i).shard := by
    intro e₁ j k stands workers
    unfold Exchange.setWorker
    simp only
    by_cases own : i = j
    · subst own
      rw [Function.update_self, stands]
      simp
    · rw [Function.update_of_ne own, workers, decide_eq_false (Ne.symm own)]
      rfl
  cases taken with
  | handler inHandler taken => rfl
  | submit acked => rfl
  | @skip j k drains ready written empty => exact moved e j k (by rw [ready]) rfl
  | @pop j k order rest drains ready written head =>
    unfold Exchange.setWorker
    simp only
    by_cases own : i = j
    · subst own
      rw [Function.update_self, ready]
      rfl
    · rw [Function.update_of_ne own]
      rfl
  | @process j k order registry market w popped processed =>
    exact moved (e.setServer _) j k (by rw [popped]) rfl

theorem place_inside (run : ExchangeRun shards threads symbols trace e)
    (nonempty : (shardRange shards threads i).1 < (shardRange shards threads i).2) :
    (shardRange shards threads i).1 ≤ (e.worker i).shard ∧
      (e.worker i).shard < (shardRange shards threads i).2 := by
  induction run with
  | start => exact ⟨Nat.le_refl _, nonempty⟩
  | next before taken ih =>
    rw [turn_moves taken]
    split
    · exact next_inside ih
    · exact ih

/-- What a step adds to the processed requests of a shard: the one in the hand of its thread, if
    it is this thread's turn, and nothing else. -/
theorem step_serves (placed : Placed shards threads trace e) (drains : Drains shards threads i s)
    {action : ThreadAction} (taken : ThreadStep shards threads e action e') :
    (onShard shards s (processed [action])).length =
      if action.isProcess ∧ action.turnOf i ∧ (e.worker i).shard = s then 1 else 0 := by
  cases taken with
  | @process j k order registry market w popped handled =>
    obtain ⟨drains', shard⟩ := placed.held j order (by rw [popped])
    rw [popped] at drains' shard
    simp only at drains' shard
    rw [show processed [.process j (shardOf shards order.symbol) (symbolHash order.symbol) order] =
      [order] from rfl, onShard_one, shard]
    by_cases here : k = s
    · subst here
      have own := drains_once drains' drains
      subst own
      simp [ThreadAction.isProcess, ThreadAction.turnOf, popped]
    · have away : ¬ (j = i ∧ (e.worker i).shard = s) := by
        rintro ⟨rfl, stands⟩
        rw [popped] at stands
        exact here stands
      rw [if_neg here, if_neg]
      · rfl
      · simpa [ThreadAction.isProcess, ThreadAction.turnOf] using away
  | _ => rw [if_neg (by simp [ThreadAction.isProcess])]; rfl

/-- The thread of a shard serves it in rounds, as long as there is something to be served. -/
theorem shard_rounds (drains : Drains shards threads i s) (k : Nat) :
    Rounds (ThreadStep shards threads)
      (fun trace e => Placed shards threads trace e ∧
        k ≤ (onShard shards s (submitted trace)).length ∧
        (shardRange shards threads i).1 ≤ (e.worker i).shard ∧
          (e.worker i).shard < (shardRange shards threads i).2)
      (fun e => (e.worker i).shard) (ThreadAction.turnOf i)
      (fun trace => (onShard shards s (processed trace)).length)
      (shardRange shards threads i).1 (shardRange shards threads i).2 s k := by
  have adds : ∀ trace (e e' : Exchange) action, Placed shards threads trace e →
      ThreadStep shards threads e action e' →
      (onShard shards s (processed (trace ++ [action]))).length =
        (onShard shards s (processed trace)).length +
          if action.isProcess ∧ action.turnOf i ∧ (e.worker i).shard = s then 1 else 0 := by
    intro trace e e' action placed taken
    rw [processed_append, onShard_append, List.length_append, step_serves placed drains taken]
  constructor
  · exact drains.2
  · exact fun _ _ inv => inv.2.2
  · exact fun _ _ _ _ _ taken => turn_moves taken
  · intro trace e action e' inv taken turned stands
    rw [adds trace e e' action inv.1 taken]
    cases called : action.isProcess with
    | true =>
      left
      rw [if_pos ⟨rfl, turned, stands⟩]
    | false =>
      right
      cases taken with
      | @skip j m drains' ready written empty =>
        have own : j = i := of_decide_eq_true turned
        subst own
        rw [ready] at stands
        simp only at stands
        subst stands
        have flow := inv.1.flow j m drains
        rw [inHand_empty ready, empty, List.append_nil, List.append_nil] at flow
        rw [flow]
        exact inv.2.1
      | process popped processed => simp [ThreadAction.isProcess] at called
      | _ => simp [ThreadAction.turnOf] at turned
  · intro trace e action e' inv taken idle
    rw [adds trace e e' action inv.1 taken, if_neg, Nat.add_zero]
    rintro ⟨_, turned, stands⟩
    rcases idle with other | away
    · exact other turned
    · exact away stands
  · intro trace e action e' inv taken
    rw [adds trace e e' action inv.1 taken]
    exact Nat.le_add_right _ _

/-- A request is processed, after all that were queued ahead of it, by the time the thread of
    its shard has gone round its shards once for each of these and once more. -/
theorem waits_at_most (run : ExchangeRun shards threads symbols trace e)
    (drains : Drains shards threads i s) {ahead behind : List Order} {order : Order}
    (waiting : e.inHand i s ++ e.queue s = ahead ++ order :: behind) {more : List ThreadAction}
    (later : Runs (ThreadStep shards threads) e more e')
    (long : (ahead.length + 1) *
      ((shardRange shards threads i).2 - (shardRange shards threads i).1) ≤
        turns (ThreadAction.turnOf i) more) :
    ahead ++ [order] <+: onShard shards s (processed more) := by
  have flow := (placed_run run).flow i s drains
  have present : (shardRange shards threads i).1 < (shardRange shards threads i).2 := by
    have room := drains.2
    omega
  have grown : ∀ mid, (onShard shards s (submitted trace)).length ≤
      (onShard shards s (submitted (trace ++ mid))).length := by
    intro mid
    rw [submitted_append, onShard_append, List.length_append]
    exact Nat.le_add_right _ _
  have known : (onShard shards s (processed trace)).length + (ahead.length + 1) ≤
      (onShard shards s (submitted trace)).length := by
    rw [← flow, waiting]
    simp only [List.length_append, List.length_cons]
    omega
  have in_time : (onShard shards s (processed trace)).length + (ahead.length + 1) ≤
      (onShard shards s (processed (trace ++ more))).length := (shard_rounds drains _).in_time
    (fun mid e₁ middle => by
      have through := runs_append run middle
      exact ⟨placed_run through, known.trans (grown mid), place_inside through present⟩)
    later (Nat.le_refl _) long
  have flow' := (placed_run (runs_append run later)).flow i s drains
  rw [processed_append, onShard_append, List.length_append] at in_time
  rw [processed_append, submitted_append, onShard_append, onShard_append, ← flow, waiting,
    List.append_assoc, List.append_assoc] at flow'
  have rest := List.append_cancel_left flow'
  have first : ahead ++ [order] <+: ahead ++ order :: behind ++ onShard shards s (submitted more) :=
    ⟨behind ++ onShard shards s (submitted more), by simp⟩
  apply List.prefix_of_prefix_length_le first
  · exact ⟨_, rest⟩
  · rw [List.length_append, List.length_singleton]
    omega

end Turns

/-- A bid and the kill of it, both queued with the only shard, for its thread to come to. -/
structure BidAndKill (e : Exchange) (mb : MarketBook) (w : World) (mb' : MarketBook)
    (w' : World) : Prop where
  queue : e.queue 0 = [firstBidOrder, cancelRequest 2]
  worker : e.worker 1 = ⟨0, none⟩
  outbox : e.server.outbox = fun _ => []
  bid : (e.server.market.popQueue 0).processOne (fun _ _ => true) {} (shardOf 1 nflx)
    firstBidOrder (symbolHash nflx) = .ok (mb, w)
  nothing : messagesOf w.log = []
  kill : (mb.popQueue 0).processOne (fun _ _ => true) {} (shardOf 1 nflx) (cancelRequest 2)
    (symbolHash nflx) = .ok (mb', w')

theorem bidAndKill_queued : ∃ trace e mb w mb' w', ExchangeRun 1 2 [nflx] trace e ∧
    BidAndKill e mb w mb' w' := by
  have bid : receive widths firstBid =
      .ok (.request { firstBidOrder with orderId := 0, sessionId := 0 } 'O'.toUInt8) :=
    ok_of_toOption (by decide +kernel)
  have kill : receive widths cancelFirst =
      .ok (.request { cancelRequest 0 with sessionId := 0 } 'X'.toUInt8) :=
    ok_of_toOption (by decide +kernel)
  have new : ExchangeRun 1 2 [nflx] [] _ := .start
  have idle : ({ market := .newOn 1 [nflx] } : Server).stage 1 = .idle := rfl
  obtain ⟨_, e, first, market, outbox, worker, reading, _⟩ := exchange_request new idle bid
  obtain ⟨_, e', second, market', outbox', worker', _⟩ := exchange_request first reading kill
  have market' : e'.server.market = ((MarketBook.newOn 1 [nflx]).assignOrderId.2.submitOn 1
      firstBidOrder).assignOrderId.2.submitOn 1 (cancelRequest 2) := by
    rw [market', market]
    rfl
  have seen : (do
      let r ← (e'.server.market.popQueue 0).processOne (fun _ _ => true) {} (shardOf 1 nflx)
        firstBidOrder (symbolHash nflx)
      let _ ← (r.1.popQueue 0).processOne (fun _ _ => true) {} (shardOf 1 nflx) (cancelRequest 2)
        (symbolHash nflx)
      pure (messagesOf r.2.log)) = (.ok [] : Except Fault (List (Int × Response))) := by
    rw [market']
    exact ok_of_toOption (by decide +kernel)
  obtain ⟨⟨mb, w⟩, ran, seen⟩ := bind_ok seen
  obtain ⟨⟨mb', w'⟩, ran', seen⟩ := bind_ok seen
  refine ⟨_, e', mb, w, mb', w', second, ?_⟩
  constructor
  · unfold Exchange.queue
    rw [market']
    decide +kernel
  · rw [worker', worker]
    rfl
  · rw [outbox', outbox]
  · exact ran
  · exact Except.ok.inj seen
  · exact ran'

/-- The kill is processed in the second turn of the thread, after the bid. -/
theorem waits_at_most_bidAndKill : ∃ trace more e e', ExchangeRun 1 2 [nflx] trace e ∧
    e.queue 0 = [firstBidOrder, cancelRequest 2] ∧ Runs (ThreadStep 1 2) e more e' ∧
    turns (ThreadAction.turnOf 1) more = 2 ∧
    [firstBidOrder] ++ [cancelRequest 2] <+: onShard 1 0 (processed more) := by
  obtain ⟨_, e, mb, w, mb', w', run, queued⟩ := bidAndKill_queued
  have drains : Drains 1 2 1 0 := by unfold Drains; decide
  have later : Runs (ThreadStep 1 2) e [] e := .start
  have pop := later.next (.pop drains queued.worker (fun k _ => by rw [queued.outbox]) queued.queue)
  have bid := pop.next (.process (setWorker_self _ _ _) queued.bid)
  have written : Function.update e.server.outbox (shardOf 1 nflx) (messagesOf w.log) =
      fun _ => [] := by
    rw [queued.nothing, queued.outbox, Function.update_eq_self_iff]
  have head : (mb.shards 0).queue = [cancelRequest 2] := by
    rw [(MarketBook.processOne_keeps queued.bid).2, e.server.market.popQueue_queue, if_pos rfl]
    exact congrArg List.tail queued.queue
  have pop' := bid.next (.pop drains (setWorker_self _ _ _) (fun k _ => congrFun written k) head)
  have kill := pop'.next (.process (setWorker_self _ _ _) queued.kill)
  refine ⟨_, _, e, _, run, queued.queue, kill, rfl, ?_⟩
  have waiting : e.inHand 1 0 ++ e.queue 0 = [firstBidOrder] ++ cancelRequest 2 :: [] := by
    rw [inHand_empty queued.worker, queued.queue]
    rfl
  exact waits_at_most run drains waiting kill (by decide)

end MarketBookExchange
