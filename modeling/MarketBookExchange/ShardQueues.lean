import MarketBookExchange.ShardThreads

/- Where each request is between its submission and its book: processed, with the thread of its
   shard, or queued there; each in one place, and in the order of submission. -/
namespace MarketBookExchange
open Outcome Transitions

def submitted (trace : List ThreadAction) : List Order :=
  trace.filterMap fun
    | .submit _ order => some order
    | _ => none

/-- The requests `process_one` has been called with. -/
def processed (trace : List ThreadAction) : List Order :=
  trace.filterMap fun
    | .process _ _ _ order => some order
    | _ => none

def onShard (shards s : Nat) (l : List Order) : List Order :=
  l.filter fun o => shardOf shards o.symbol = s

def Exchange.inHand (e : Exchange) (i s : Nat) : List Order :=
  if (e.worker i).shard = s then (e.worker i).popped.toList else []

@[simp] theorem submitted_append (trace more : List ThreadAction) :
    submitted (trace ++ more) = submitted trace ++ submitted more := List.filterMap_append

@[simp] theorem processed_append (trace more : List ThreadAction) :
    processed (trace ++ more) = processed trace ++ processed more := List.filterMap_append

@[simp] theorem onShard_append (shards s : Nat) (l more : List Order) :
    onShard shards s (l ++ more) = onShard shards s l ++ onShard shards s more :=
  List.filter_append _ _

section Queues
variable {shards threads : Nat}

theorem handler_shards {server server' : Server} {action : Action}
    (inHandler : action.inHandler) (taken : Step (fun _ => False) server action server') :
    server'.market.shards = server.market.shards := by
  cases taken with
  | push acked => exact inHandler.elim
  | pop written head connected drained => exact inHandler.elim
  | accept idle decoded => rfl
  | refuse idle refused => rfl
  | assign decoded => rfl
  | ack assigned => rfl
  | flush next => rfl

/-- Every submitted request of a shard has been processed, is with the shard's thread or is
    queued there, in that order; and each thread keeps to its shards. -/
structure Placed (shards threads : Nat) (trace : List ThreadAction) (e : Exchange) : Prop where
  flow : ∀ i s, Drains shards threads i s →
    onShard shards s (processed trace) ++ (e.inHand i s ++ e.queue s) =
      onShard shards s (submitted trace)
  queued : ∀ s, ∀ o ∈ e.queue s, shardOf shards o.symbol = s
  held : ∀ i order, (e.worker i).popped = some order →
    Drains shards threads i (e.worker i).shard ∧
      shardOf shards order.symbol = (e.worker i).shard
  calls : ∀ i s hash order, .process i s hash order ∈ trace →
    Drains shards threads i s ∧ s = shardOf shards order.symbol ∧ hash = symbolHash order.symbol

theorem newOn_queue (symbols : List (List UInt8)) (s : Nat) :
    ((MarketBook.newOn shards symbols).shards s).queue = [] :=
  (MarketBook.newOn_books shards symbols s).1

theorem placed_new (symbols : List (List UInt8)) : Placed shards threads []
    ⟨{ market := .newOn shards symbols }, fun i => ⟨(shardRange shards threads i).1, none⟩⟩ := by
  constructor
  · intro i s _
    simp [Exchange.inHand, Exchange.queue, newOn_queue, submitted, processed, onShard]
  · intro s o queued
    simp [Exchange.queue, newOn_queue] at queued
  · intro i order popped
    cases popped
  · intro i s hash order member
    cases member

theorem inHand_self (e : Exchange) (i s : Nat) (worker : Worker) :
    (e.setWorker i worker).inHand i s =
      if worker.shard = s then worker.popped.toList else [] := by
  unfold Exchange.inHand Exchange.setWorker
  simp only [Function.update_self]

theorem inHand_other (e : Exchange) {i j : Nat} (ne : j ≠ i) (s : Nat) (worker : Worker) :
    (e.setWorker i worker).inHand j s = e.inHand j s := by
  unfold Exchange.inHand Exchange.setWorker
  simp only [Function.update_of_ne ne]

theorem inHand_empty {e : Exchange} {i s : Nat} (ready : e.worker i = ⟨s, none⟩) (k : Nat) :
    e.inHand i k = [] := by
  unfold Exchange.inHand
  rw [ready]
  simp

theorem onShard_one (s : Nat) (order : Order) :
    onShard shards s [order] = if shardOf shards order.symbol = s then [order] else [] := by
  unfold onShard
  rw [List.filter_singleton]
  by_cases here : shardOf shards order.symbol = s <;> simp [here]

namespace Placed
variable {trace : List ThreadAction} {e e' : Exchange}

theorem same (h : Placed shards threads trace e) (action : Action)
    (queues : ∀ s, e'.queue s = e.queue s) (workers : e'.worker = e.worker) :
    Placed shards threads (trace ++ [.handler action]) e' := by
  have nothing : submitted [.handler action] = [] ∧ processed [.handler action] = [] := ⟨rfl, rfl⟩
  constructor
  · intro i s drains
    have flow := h.flow i s drains
    unfold Exchange.inHand at flow ⊢
    rw [submitted_append, processed_append, nothing.1, nothing.2, List.append_nil, List.append_nil,
      queues, workers]
    exact flow
  · intro s o queued
    rw [queues] at queued
    exact h.queued s o queued
  · rw [workers]
    exact h.held
  · intro i s hash order member
    exact h.calls i s hash order (by simpa using member)

theorem submit (h : Placed shards threads trace e) (session : Int) (order : Order)
    (queues : ∀ s, e'.queue s = if s = shardOf shards order.symbol then e.queue s ++ [order]
      else e.queue s) (workers : e'.worker = e.worker) :
    Placed shards threads (trace ++ [.submit session order]) e' := by
  have one : submitted [.submit session order] = [order] ∧
    processed [.submit session order] = [] := ⟨rfl, rfl⟩
  constructor
  · intro i s drains
    have flow := h.flow i s drains
    unfold Exchange.inHand at flow ⊢
    rw [submitted_append, processed_append, one.1, one.2, List.append_nil, onShard_append,
      onShard_one, queues, workers, ← flow]
    by_cases here : s = shardOf shards order.symbol
    · rw [if_pos here, if_pos here.symm, List.append_assoc, List.append_assoc]
    · rw [if_neg here, if_neg (Ne.symm here), List.append_nil]
  · intro s o queued
    rw [queues] at queued
    split at queued
    · rename_i here
      rcases List.mem_append.mp queued with old | new
      · exact h.queued s o old
      · rw [List.mem_singleton.mp new, here]
    · exact h.queued s o queued
  · rw [workers]
    exact h.held
  · intro i s hash order member
    exact h.calls i s hash order (by simpa using member)

theorem held_idle (h : Placed shards threads trace e) (workers : e'.worker = e.worker)
    (i s j : Nat) (order : Order)
    (popped : ((e'.setWorker i ⟨s, none⟩).worker j).popped = some order) :
    Drains shards threads j ((e'.setWorker i ⟨s, none⟩).worker j).shard ∧
      shardOf shards order.symbol = ((e'.setWorker i ⟨s, none⟩).worker j).shard := by
  unfold Exchange.setWorker at popped ⊢
  simp only at popped ⊢
  by_cases mine : j = i
  · subst mine
    rw [Function.update_self] at popped
    cases popped
  · rw [Function.update_of_ne mine] at popped ⊢
    rw [workers] at popped ⊢
    exact h.held j order popped

theorem skip (h : Placed shards threads trace e) {i s : Nat} (ready : e.worker i = ⟨s, none⟩)
    (k : Nat) : Placed shards threads (trace ++ [.skip i s]) (e.setWorker i ⟨k, none⟩) := by
  have nothing : submitted [.skip i s] = [] ∧ processed [.skip i s] = [] := ⟨rfl, rfl⟩
  constructor
  · intro j m drains
    have flow := h.flow j m drains
    rw [submitted_append, processed_append, nothing.1, nothing.2, List.append_nil, List.append_nil]
    by_cases mine : j = i
    · subst mine
      rw [inHand_empty ready] at flow
      rw [inHand_self, Option.toList_none, ite_self]
      exact flow
    · rw [inHand_other e mine]
      exact flow
  · exact h.queued
  · exact h.held_idle rfl i k
  · intro j m hash order member
    exact h.calls j m hash order (by simpa using member)

theorem pop (h : Placed shards threads trace e) {i s : Nat} {order : Order} {rest : List Order}
    (drains : Drains shards threads i s) (ready : e.worker i = ⟨s, none⟩)
    (head : e.queue s = order :: rest)
    (queues : ∀ k, e'.queue k = if k = s then rest else e.queue k)
    (workers : e'.worker = e.worker) :
    Placed shards threads (trace ++ [.pop i s order]) (e'.setWorker i ⟨s, some order⟩) := by
  have nothing : submitted [.pop i s order] = [] ∧ processed [.pop i s order] = [] := ⟨rfl, rfl⟩
  have queues' : ∀ k, (e'.setWorker i ⟨s, some order⟩).queue k =
      if k = s then rest else e.queue k := queues
  have hands : ∀ j, j ≠ i → ∀ k, (e'.setWorker i ⟨s, some order⟩).inHand j k = e.inHand j k := by
    intro j other k
    rw [inHand_other e' other]
    unfold Exchange.inHand
    rw [workers]
  constructor
  · intro j k drains'
    have flow := h.flow j k drains'
    rw [submitted_append, processed_append, nothing.1, nothing.2, List.append_nil, List.append_nil,
      queues']
    by_cases mine : j = i
    · subst mine
      rw [inHand_empty ready] at flow
      rw [inHand_self]
      by_cases here : k = s
      · subst here
        rw [head] at flow
        simpa using flow
      · rw [if_neg (Ne.symm here), if_neg here]
        exact flow
    · have away : k ≠ s := by
        intro here
        subst here
        exact mine (drains_once drains' drains)
      rw [hands j mine, if_neg away]
      exact flow
  · intro k o queued
    rw [queues'] at queued
    split at queued
    · rename_i here
      subst here
      exact h.queued k o (by rw [head]; exact List.mem_cons_of_mem _ queued)
    · exact h.queued k o queued
  · intro j o popped
    unfold Exchange.setWorker at popped ⊢
    simp only at popped ⊢
    by_cases mine : j = i
    · subst mine
      rw [Function.update_self] at popped ⊢
      cases popped
      exact ⟨drains, h.queued s order (by rw [head]; simp)⟩
    · rw [Function.update_of_ne mine] at popped ⊢
      rw [workers] at popped ⊢
      exact h.held j o popped
  · intro j k hash o member
    exact h.calls j k hash o (by simpa using member)

theorem process (h : Placed shards threads trace e) {i s : Nat} {order : Order}
    (popped : e.worker i = ⟨s, some order⟩) (queues : ∀ k, e'.queue k = e.queue k)
    (workers : e'.worker = e.worker) (next : Nat) :
    Placed shards threads
      (trace ++ [.process i (shardOf shards order.symbol) (symbolHash order.symbol) order])
      (e'.setWorker i ⟨next, none⟩) := by
  obtain ⟨drains, shard⟩ := h.held i order (by rw [popped])
  rw [popped] at drains shard
  simp only at drains shard
  rw [shard]
  have one : submitted [.process i s (symbolHash order.symbol) order] = [] ∧
    processed [.process i s (symbolHash order.symbol) order] = [order] := ⟨rfl, rfl⟩
  have queues' : ∀ k, (e'.setWorker i ⟨next, none⟩).queue k = e.queue k := queues
  constructor
  · intro j k drains'
    have flow := h.flow j k drains'
    rw [submitted_append, processed_append, one.1, one.2, List.append_nil, onShard_append,
      onShard_one, queues', shard]
    by_cases mine : j = i
    · subst mine
      have hand : e.inHand j k = if s = k then [order] else [] := by
        unfold Exchange.inHand
        rw [popped]
        rfl
      rw [hand] at flow
      rw [inHand_self, ← flow]
      simp
    · have away : s ≠ k := by
        intro here
        subst here
        exact mine (drains_once drains' drains)
      rw [if_neg away, List.append_nil, inHand_other e' mine]
      unfold Exchange.inHand at flow ⊢
      rw [workers]
      exact flow
  · intro k o queued
    rw [queues'] at queued
    exact h.queued k o queued
  · exact h.held_idle workers i next
  · intro j k hash o member
    rcases List.mem_append.mp member with old | new
    · exact h.calls j k hash o old
    · cases List.mem_singleton.mp new
      exact ⟨drains, shard.symm, rfl⟩

theorem step (h : Placed shards threads trace e) {action : ThreadAction}
    (taken : ThreadStep shards threads e action e') :
    Placed shards threads (trace ++ [action]) e' := by
  cases taken with
  | handler inHandler taken =>
    apply h.same
    · intro s
      unfold Exchange.queue Exchange.setServer
      simp only
      rw [handler_shards inHandler taken]
    · rfl
  | @submit session order acked =>
    apply h.submit
    · exact e.server.market.submitOn_queue shards order
    · rfl
  | skip drains ready written empty => exact h.skip ready _
  | @pop i s order rest drains ready written head =>
    apply h.pop drains ready head
    · intro k
      have queues := e.server.market.popQueue_queue (s := s) k
      rw [show (e.server.market.shards s).queue = order :: rest from head] at queues
      exact queues
    · rfl
  | process popped processed =>
    apply h.process popped
    · exact (MarketBook.processOne_keeps processed).2
    · rfl

end Placed

theorem placed_run {symbols : List (List UInt8)} {trace : List ThreadAction} {e : Exchange}
    (run : ExchangeRun shards threads symbols trace e) : Placed shards threads trace e :=
  runs_invariant (Placed shards threads) (placed_new symbols)
    (fun _ _ _ _ h taken => h.step taken) run

end Queues

end MarketBookExchange
