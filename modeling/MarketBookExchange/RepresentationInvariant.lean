import MarketBookExchange.Refinement

/- The invariant of the book's memory over any sequence of its public calls: every pool
   node is in exactly one chain, each chain is a mirrored doubly linked list, and a slot's
   bit is set exactly when its level is in use. -/
namespace MarketBookExchange
open LinkedCells Outcome
open KillFlagTable (TableEnds tableEnds_bind)

inductive Call where
  | sendOrder (order : Order)
  | killOrder (order : Order)
  | modifyOrder (order : Order)
  | updateBook
  | createSnapshot

namespace OrderBook

def call (registry : Registry) (b : OrderBook) (w : World) :
    Call → Except Fault (OrderBook × World)
  | .sendOrder order => do pure (← b.sendOrder order, w)
  | .killOrder order => b.killOrder registry w order
  | .modifyOrder order => b.modifyOrder registry w order
  | .updateBook => b.updateBook registry w
  | .createSnapshot => do
    let _ ← b.createSnapshot
    pure (b, w)

def calls (registry : Registry) (b : OrderBook) (w : World) (cs : List Call) :
    Except Fault (OrderBook × World) :=
  cs.foldlM (fun (b, w) c => b.call registry w c) (b, w)

/-- The memory of a book, with the cells of each level in chain order and the free cells. -/
structure WellFormed (b : OrderBook) (chain : OrderType → Nat → List Nat) (free : List Nat) :
    Prop where
  marked : ∀ t slot, (b.side t).bitmap.Has slot ↔ ((b.side t).levels slot).empty = false
  linked : ∀ t slot, Linked nil b.pool.next b.pool.prev nil ((b.side t).levels slot).head
    (chain t slot)
  tail : ∀ t slot, ((b.side t).levels slot).tail = (chain t slot).getLastD nil
  count : ∀ t slot, ((b.side t).levels slot).count = (chain t slot).length
  acyclic : ∀ t slot, (chain t slot).Nodup
  freeLinked : Threaded nil b.pool.next b.pool.freeHead free
  freeAcyclic : free.Nodup
  apart : ∀ t slot t' slot', (t, slot) ≠ (t', slot') →
    (chain t slot).Disjoint (chain t' slot')
  apartFree : ∀ t slot, (chain t slot).Disjoint free
  covers : ∀ i, i < b.pool.nodes.size ↔ i ∈ free ∨ ∃ t slot, i ∈ chain t slot

end OrderBook

/-- The invariant in the book's own words. -/
theorem wellFormed_of_rep {b : OrderBook} {place : Nat → Place} {cells : Place → List Nat}
    (prep : PoolRep b.pool place cells) {queues : OrderType → List Order}
    (holds : ∀ t, SideRep b.pool cells t (b.side t) (queues t)) :
    b.WellFormed (fun t slot => cells (.level t slot)) (cells .free) where
  marked := by
    intro t slot
    rw [(holds t).bit slot, ne_eq, ← ((holds t).level slot).empty_iff, Bool.not_eq_true]
  linked := fun t slot => ((holds t).level slot).linked
  tail := fun t slot => ((holds t).level slot).tail
  count := fun t slot => ((holds t).level slot).count
  acyclic := fun t slot => prep.divided.nodup _
  freeLinked := prep.free
  freeAcyclic := prep.divided.nodup _
  apart := by
    intro t slot t' slot' ne i hi hi'
    have same := prep.divided.only hi hi'
    injection same with sides slots
    exact ne (by rw [sides, slots])
  apartFree := by
    intro t slot i hi hfree
    have same := prep.divided.only hi hfree
    exact absurd same (by simp)
  covers := by
    intro i
    constructor
    · intro small
      have member := (prep.divided.mem (place i) i).mpr ⟨small, rfl⟩
      cases stands : place i with
      | free =>
        rw [stands] at member
        exact Or.inl member
      | level t slot =>
        rw [stands] at member
        exact Or.inr ⟨t, slot, member⟩
    · rintro (free | ⟨t, slot, used⟩)
      · exact prep.divided.lt_size free
      · exact prep.divided.lt_size used

theorem acquire_unused {pool : OrderPool} {place : Nat → Place} {cells : Place → List Nat}
    (rep : PoolRep pool place cells) {o : Order} {idx : Nat} {pool' : OrderPool}
    (run : pool.acquire o = .ok (idx, pool')) (t : OrderType) (slot : Nat) :
    idx ∉ cells (.level t slot) := by
  intro used
  rcases acquire_cases rep o with full | ⟨grown, place', cells', i, rest, rep', split, same, _, ran⟩
  · rw [run] at full
    cases full
  · rw [run] at ran
    cases ran
    rw [← same _ (by simp)] at used
    have inFree : idx ∈ cells' .free := by simp [split]
    exact absurd (rep'.divided.only used inFree) (by simp)

theorem notifyFill_ends (registry : Registry) (t : KillFlagTable) (w : World) (order : Order)
    (fillQty remainingQty fillPrice : Int) :
    TableEnds (notifyFill registry t w order fillQty remainingQty fillPrice) := by
  unfold notifyFill
  split
  rename_i sp w' _
  split
  · trivial
  · split
    · exact tableEnds_bind (KillFlagTable.erase_ends _ _) fun _ => trivial
    · trivial

theorem drainQueue_ends (registry : Registry) (l : List Order) :
    ∀ t w, TableEnds (drainQueue registry l t w) := by
  induction l with
  | nil => exact fun _ _ => trivial
  | cons front rest ih =>
    intro t w
    refine tableEnds_bind (KillFlagTable.isKilled_ends _ _) (fun killed => ?_)
    cases killed with
    | false => trivial
    | true => exact tableEnds_bind (KillFlagTable.erase_ends _ _) fun t' => ih t' _

namespace QueueBook

theorem sendOrder_ends (q : QueueBook) (order : Order) : TableEnds (q.sendOrder order) :=
  tableEnds_bind (KillFlagTable.set_ends _ _ _) fun _ => trivial

theorem killOrder_ends (registry : Registry) (q : QueueBook) (w : World) (order : Order) :
    TableEnds (q.killOrder registry w order) := by
  refine tableEnds_bind (KillFlagTable.find_ends _ _) (fun found => ?_)
  cases found with
  | none => trivial
  | some kf => exact tableEnds_bind (KillFlagTable.assign_ends _ _ _) fun _ => trivial

theorem modifyOrder_ends (registry : Registry) (q : QueueBook) (w : World) (order : Order) :
    TableEnds (q.modifyOrder registry w order) :=
  tableEnds_bind (killOrder_ends registry q w order) fun _ =>
    tableEnds_bind (sendOrder_ends _ _) fun _ => trivial

theorem drainBoth_ends (registry : Registry) (q : QueueBook) (w : World) :
    TableEnds (q.drainBoth registry w) :=
  tableEnds_bind (drainQueue_ends _ _ _ _) fun _ =>
    tableEnds_bind (drainQueue_ends _ _ _ _) fun _ => trivial

theorem matchBest_ends (registry : Registry) (q : QueueBook) (w : World) :
    TableEnds (q.matchBest registry w) := by
  unfold matchBest
  split
  · split
    · trivial
    · exact tableEnds_bind (notifyFill_ends _ _ _ _ _ _ _) fun _ =>
        tableEnds_bind (notifyFill_ends _ _ _ _ _ _ _) fun _ => trivial
  · trivial

theorem updateLoop_ends (registry : Registry) (fuel : Nat) :
    ∀ (q : QueueBook) (w : World), q.resting < fuel → TableEnds (q.updateLoop registry fuel w) := by
  induction fuel with
  | zero => exact fun _ _ room => absurd room (Nat.not_lt_zero _)
  | succ fuel ih =>
    intro q w room
    refine ends_bind_run (drainBoth_ends registry q w) ?_
    rintro ⟨q1, w1⟩ drained _
    have left := drainBoth_resting drained
    refine ends_bind_run (matchBest_ends registry q1 w1) ?_
    intro r matched _
    cases r with
    | none => trivial
    | some r =>
      have fewer := matchBest_resting matched
      exact ih r.1 r.2 (by omega)

theorem updateBook_ends (registry : Registry) (q : QueueBook) (w : World) :
    TableEnds (q.updateBook registry w) :=
  updateLoop_ends registry _ q w (Nat.lt_succ_self _)

end QueueBook

theorem snapshotQueue_ends (t : KillFlagTable) (l : List Order) :
    ∀ s, TableEnds (snapshotQueue t l s) := by
  induction l with
  | nil => exact fun _ => trivial
  | cons o rest ih =>
    intro s
    rw [snapshotQueue]
    split
    · refine tableEnds_bind (KillFlagTable.isKilled_ends _ _) (fun killed => ?_)
      cases killed with
      | true => exact ih _
      | false => exact ih _
    · trivial

theorem QueueBook.createSnapshot_ends (q : QueueBook) : TableEnds q.createSnapshot :=
  tableEnds_bind (snapshotQueue_ends _ _ _) fun _ =>
    tableEnds_bind (snapshotQueue_ends _ _ _) fun _ => trivial

theorem call_ends (registry : Registry) {b : OrderBook} {q : QueueBook} (rep : Represents b q)
    (w : World) (c : Call) :
    Ends (fun e => e = .poolExhausted ∨ e.ofTable)
      (fun r : OrderBook × World => ∃ q', Represents r.1 q') (b.call registry w c) := by
  cases c with
  | sendOrder order =>
    refine ends_bind (ends_of_simulates (sendOrder_simulates rep order)
      (QueueBook.sendOrder_ends q order)) ?_
    rintro b' ⟨q', _, _, rep'⟩
    exact ⟨q', rep'⟩
  | killOrder order =>
    refine ends_mono (ends_of_simulates (killOrder_simulates registry rep w order)
      (QueueBook.killOrder_ends registry q w order)) ?_
    rintro r ⟨r', _, _, rep', _⟩
    exact ⟨r'.1, rep'⟩
  | modifyOrder order =>
    refine ends_mono (ends_of_simulates (modifyOrder_simulates registry rep w order)
      (QueueBook.modifyOrder_ends registry q w order)) ?_
    rintro r ⟨r', _, _, rep', _⟩
    exact ⟨r'.1, rep'⟩
  | updateBook =>
    refine ends_mono (ends_of_simulates (updateBook_simulates registry rep w)
      (QueueBook.updateBook_ends registry q w)) ?_
    rintro r ⟨r', _, _, rep', _⟩
    exact ⟨r'.1, rep'⟩
  | createSnapshot =>
    refine ends_bind (p := fun _ => True) ?_ (fun _ _ => ⟨q, rep⟩)
    rw [createSnapshot_eq rep]
    cases made : q.createSnapshot with
    | ok _ => trivial
    | error e => exact Or.inr (ends_error q.createSnapshot_ends made)

theorem calls_represents (registry : Registry) (cs : List Call) {b b' : OrderBook}
    {w w' : World} {q : QueueBook} (rep : Represents b q)
    (run : b.calls registry w cs = .ok (b', w')) : ∃ q', Represents b' q' := by
  induction cs generalizing b w q with
  | nil =>
    cases run
    exact ⟨q, rep⟩
  | cons c cs ih =>
    rw [OrderBook.calls, List.foldlM_cons] at run
    obtain ⟨⟨b1, w1⟩, first, rest⟩ := bind_ok run
    obtain ⟨q1, rep1⟩ := ends_ok (call_ends registry rep w c) first
    exact ih rep1 rest

/-- Every state a new book reaches is well formed, hands out only unused nodes, and no
    further call of it touches the pool out of range. -/
theorem representation_invariant (registry : Registry) (w₀ : World) (cs : List Call)
    {b : OrderBook} {w : World} (run : OrderBook.calls registry {} w₀ cs = .ok (b, w)) :
    (∃ chain free, b.WellFormed chain free ∧
      ∀ o idx pool', b.pool.acquire o = .ok (idx, pool') → ∀ t slot, idx ∉ chain t slot) ∧
    ∀ c e, b.call registry w c = .error e → e = .poolExhausted ∨ e.ofTable := by
  obtain ⟨q, rep⟩ := calls_represents registry cs represents_new run
  obtain ⟨place, cells, prep, holds⟩ := rep.rep
  refine ⟨⟨_, _, wellFormed_of_rep prep holds, fun o idx pool' acquired =>
    acquire_unused prep acquired⟩, ?_⟩
  intro c e failed
  exact ends_error (call_ends registry rep w c) failed

def sharedSlot : List Call :=
  [.sendOrder { orderId := 1, priceLevel := 10, qty := 5, orderType := .buy },
    .sendOrder { orderId := 2, priceLevel := 65546, qty := 5, orderType := .buy },
    .sendOrder { orderId := 3, priceLevel := 9, qty := 7, orderType := .sell },
    .updateBook, .createSnapshot, .killOrder { delId := 2, requestType := .killOrder },
    .updateBook]

theorem representation_invariant_sharedSlot : ∃ b w,
    OrderBook.calls (fun _ _ => true) {} {} sharedSlot = .ok (b, w) ∧
    (∃ chain free, b.WellFormed chain free ∧
      ∀ o idx pool', b.pool.acquire o = .ok (idx, pool') → ∀ t slot, idx ∉ chain t slot) ∧
    ∀ c e, b.call (fun _ _ => true) w c = .error e → e = .poolExhausted ∨ e.ofTable := by
  obtain ⟨⟨b, w⟩, run⟩ := exists_ok (x := OrderBook.calls (fun _ _ => true) {} {} sharedSlot)
    (by decide +kernel)
  exact ⟨b, w, run, representation_invariant (fun _ _ => true) {} sharedSlot run⟩

end MarketBookExchange
