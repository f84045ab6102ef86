import MarketBookExchange.ServerInvariant

/- The shards among the matching threads, and the way of a request from a session's read
   handler to its book. The numbers of shards and of matching threads are parameters here. -/
namespace MarketBookExchange
open Outcome Transitions

/-- `start` and `end` of the i-th matching thread. -/
def shardRange (shards threads i : Nat) : Nat × Nat :=
  let shardsPerThread := shards / threads
  let start := i * shardsPerThread
  (start, if i = threads - 1 then shards else start + shardsPerThread)

def Drains (shards threads i s : Nat) : Prop :=
  i < threads ∧ (shardRange shards threads i).1 ≤ s ∧ s < (shardRange shards threads i).2

section Ranges
variable {shards threads : Nat}

theorem drains_once {i j s : Nat} (first : Drains shards threads i s)
    (second : Drains shards threads j s) : i = j := by
  have ordered : ∀ {a b : Nat}, Drains shards threads a s → Drains shards threads b s → ¬ a < b := by
    intro a b ha hb less
    obtain ⟨_, _, high⟩ := ha
    obtain ⟨thread, low, _⟩ := hb
    unfold shardRange at high low
    simp only at high low
    rw [if_neg (by omega)] at high
    have part : (a + 1) * (shards / threads) ≤ b * (shards / threads) := Nat.mul_le_mul_right _ less
    rw [Nat.add_mul, Nat.one_mul] at part
    omega
  have up := ordered first second
  have down := ordered second first
  omega

theorem drains_some {s : Nat} (threaded : 1 ≤ threads) (small : s < shards) :
    ∃ i, Drains shards threads i s := by
  by_cases last : (threads - 1) * (shards / threads) ≤ s
  · refine ⟨threads - 1, by omega, last, ?_⟩
    unfold shardRange
    simp only [if_true]
    exact small
  · have pos : 0 < shards / threads := by
      by_contra nothing
      rw [Nat.eq_zero_of_not_pos nothing, Nat.mul_zero] at last
      omega
    have low := Nat.div_mul_le_self s (shards / threads)
    have high := Nat.lt_div_mul_add pos (a := s)
    have early : s / (shards / threads) < threads - 1 := by
      rw [Nat.div_lt_iff_lt_mul pos]
      exact Nat.lt_of_not_le last
    refine ⟨s / (shards / threads), Nat.lt_of_lt_of_le early (Nat.sub_le _ _), low, ?_⟩
    unfold shardRange
    simp only
    rw [if_neg (Nat.ne_of_lt early)]
    exact high

/-- The ranges are a partition of the shards, however many threads there are. -/
theorem drains_unique {s : Nat} (threaded : 1 ≤ threads) (small : s < shards) :
    ∃ i, Drains shards threads i s ∧ ∀ j, Drains shards threads j s → j = i := by
  obtain ⟨i, drains⟩ := drains_some threaded small
  exact ⟨i, drains, fun j other => drains_once other drains⟩

/-- With as many threads as shards, each thread has one shard. -/
theorem shardRange_own {n s : Nat} (small : s < n) : shardRange n n s = (s, s + 1) := by
  unfold shardRange
  simp only
  rw [Nat.div_self (by omega), Nat.mul_one]
  split
  · congr 1
    omega
  · rfl

theorem drains_own {n s k : Nat} (small : s < n) : Drains n n s k ↔ k = s := by
  unfold Drains
  rw [shardRange_own small]
  constructor
  · rintro ⟨_, low, high⟩
    omega
  · rintro rfl
    exact ⟨small, le_refl _, Nat.lt_succ_self _⟩

end Ranges

/-- A matching thread in its loop: the shard it drains next, and the request it has popped
    there and not yet processed. -/
structure Worker where
  shard : Nat
  popped : Option Order := none

structure Exchange where
  server : Server
  worker : Nat → Worker

def Exchange.setWorker (e : Exchange) (i : Nat) (worker : Worker) : Exchange :=
  { e with worker := Function.update e.worker i worker }

@[simp] theorem setWorker_self (e : Exchange) (i : Nat) (worker : Worker) :
    (e.setWorker i worker).worker i = worker := Function.update_self _ _ _

def Exchange.setServer (e : Exchange) (server : Server) : Exchange := { e with server }

def Exchange.setMarket (e : Exchange) (market : MarketBook) : Exchange :=
  e.setServer { e.server with market }

def Exchange.queue (e : Exchange) (s : Nat) : List Order := (e.server.market.shards s).queue

/-- `for (s = shard_start; s < shard_end; ++s)`, in `while (true)`. -/
def nextShard (shards threads i s : Nat) : Nat :=
  if s + 1 < (shardRange shards threads i).2 then s + 1 else (shardRange shards threads i).1

theorem nextShard_own {n s : Nat} (small : s < n) : nextShard n n s s = s := by
  unfold nextShard
  rw [shardRange_own small, if_neg (Nat.lt_irrefl _)]

inductive ThreadAction where
  | handler (action : Action)
  | submit (session : Int) (order : Order)
  | skip (i s : Nat)
  | pop (i s : Nat) (order : Order)
  | process (i s : Nat) (hash : Int) (order : Order)

/-- The steps of `Step` that touch no queue: reading, numbering, answering. -/
def Action.inHandler : Action → Prop
  | .push _ => False
  | .pop _ _ => False
  | _ => True

/-- One step of one thread. Which I/O thread runs a session's handler makes no difference: a
    session's next read is armed when its handler is through, so any number of them may be
    under way, one for each session. -/
inductive ThreadStep (shards threads : Nat) : Exchange → ThreadAction → Exchange → Prop
  | handler {e : Exchange} {action : Action} {server : Server} (inHandler : action.inHandler)
      (taken : Step (fun _ => False) e.server action server) :
      ThreadStep shards threads e (.handler action) (e.setServer server)
  | submit {e : Exchange} {session : Int} {order : Order}
      (acked : e.server.stage session = .acked order) :
      ThreadStep shards threads e (.submit session order)
        (e.setServer ((e.setMarket (e.server.market.submitOn shards order)).server.setStage session
          .idle))
  | skip {e : Exchange} {i s : Nat} (drains : Drains shards threads i s)
      (ready : e.worker i = ⟨s, none⟩)
      (written : ∀ k, Drains shards threads i k → e.server.outbox k = []) (empty : e.queue s = []) :
      ThreadStep shards threads e (.skip i s)
        (e.setWorker i ⟨nextShard shards threads i s, none⟩)
  | pop {e : Exchange} {i s : Nat} {order : Order} {rest : List Order}
      (drains : Drains shards threads i s) (ready : e.worker i = ⟨s, none⟩)
      (written : ∀ k, Drains shards threads i k → e.server.outbox k = [])
      (head : e.queue s = order :: rest) :
      ThreadStep shards threads e (.pop i s order)
        ((e.setMarket (e.server.market.popQueue s)).setWorker i ⟨s, some order⟩)
  | process {e : Exchange} {i s : Nat} {order : Order} {registry : Registry} {market : MarketBook}
      {w : World} (popped : e.worker i = ⟨s, some order⟩)
      (processed : e.server.market.processOne registry {} (shardOf shards order.symbol) order
        (symbolHash order.symbol) = .ok (market, w)) :
      ThreadStep shards threads e
        (.process i (shardOf shards order.symbol) (symbolHash order.symbol) order)
        ((e.setServer ((e.setMarket market).server.setOutbox (shardOf shards order.symbol)
          (messagesOf w.log))).setWorker i ⟨nextShard shards threads i s, none⟩)

abbrev ExchangeRun (shards threads : Nat) (symbols : List (List UInt8)) :
    List ThreadAction → Exchange → Prop :=
  Runs (ThreadStep shards threads)
    ⟨{ market := .newOn shards symbols }, fun i => ⟨(shardRange shards threads i).1, none⟩⟩

end MarketBookExchange
