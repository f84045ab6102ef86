import MarketBookExchange.Lib.Throwing
import MarketBookExchange.Quiescence
import MarketBookExchange.TableCapacity
import Mathlib.Data.Int.Interval

/- What SEND and MODIFY leave behind when the pool has no node for their order. The exception
   comes from the innermost call; what was written before it stays written. -/
namespace MarketBookExchange
open Outcome Throwing KillFlagTable RankedList

namespace OrderBook

/-- The first half of `insert`: an empty level gets its price and its bit. -/
def mark (b : OrderBook) (t : OrderType) (order : Order) : OrderBook :=
  let idx := indexOf order.priceLevel
  let side := b.side t
  let lvl := side.levels idx
  if lvl.empty then
    b.setSide t ({ side with bitmap := side.bitmap.set idx }.setLevel idx
      { lvl with levelPrice := order.priceLevel })
  else b

/- The operations on a book that keeps its state when they throw. `acquire` throws before it
   writes anything, and so does `level_push_back`, which begins with it. -/
section Throwing

def pushThrowing (t : OrderType) (order : Order) : EStateM Fault OrderBook Unit :=
  atomic fun b => do
    let idx := indexOf order.priceLevel
    let (lvl, pool) ← levelPushBack ((b.side t).levels idx) b.pool order
    pure ({ b.setSide t ((b.side t).setLevel idx lvl) with pool }, ())

def insertThrowing (t : OrderType) (order : Order) : EStateM Fault OrderBook Unit := do
  modify fun b => b.mark t order
  pushThrowing t order

def setThrowing (key : Int) (value : Bool) : EStateM Fault OrderBook Unit :=
  atomic fun b => do
    let killedOrders ← b.killedOrders.set key value
    pure ({ b with killedOrders }, ())

def sendThrowing (order : Order) : EStateM Fault OrderBook Unit := do
  setThrowing order.orderId false
  insertThrowing order.orderType order

def killThrowing (registry : Registry) (w : World) (order : Order) :
    EStateM Fault OrderBook World :=
  atomic fun b => b.killOrder registry w order

def modifyThrowing (registry : Registry) (w : World) (order : Order) :
    EStateM Fault OrderBook World := do
  let w ← killThrowing registry w order
  sendThrowing { order with delId := 0 }
  pure w

def dispatchThrowing (registry : Registry) (w : World) (order : Order) :
    EStateM Fault OrderBook World :=
  match order.requestType with
  | .sendOrder => do
    sendThrowing order
    pure w
  | .modifyOrder => modifyThrowing registry w order
  | .killOrder => killThrowing registry w order

end Throwing
end OrderBook

section Forget
variable (b : OrderBook)

theorem forget_insert (t : OrderType) (order : Order) :
    forget (OrderBook.insertThrowing t order) b = (do
      let (side, pool) ← (b.side t).insert b.pool order
      pure ({ b.setSide t side with pool }, ())) := by
  unfold OrderBook.insertThrowing OrderBook.pushThrowing
  rw [forget_bind, forget_modify, ok_bind, forget_atomic]
  unfold OrderBook.mark BookSide.insert
  by_cases nothing : ((b.side t).levels (indexOf order.priceLevel)).empty = true
  · simp only [if_pos nothing, OrderBook.side_setSide, OrderBook.setSide_setSide,
      OrderBook.setSide_pool, BookSide.setLevel, Function.update_self, Function.update_idem]
    cases levelPushBack _ b.pool order <;> rfl
  · simp only [if_neg nothing]
    cases levelPushBack _ b.pool order <;> rfl

theorem forget_send (order : Order) :
    forget (OrderBook.sendThrowing order) b = (do pure (← b.sendOrder order, ())) := by
  rw [OrderBook.sendOrder_eq]
  unfold OrderBook.sendThrowing OrderBook.setThrowing
  rw [forget_bind, forget_atomic]
  cases b.killedOrders.set order.orderId false with
  | error e => rfl
  | ok kt =>
    simp only [ok_bind, pure_eq_ok, forget_insert]
    have same : { b with killedOrders := kt }.side = b.side := rfl
    rw [same]
    cases (b.side order.orderType).insert b.pool order with
    | error e => rfl
    | ok r => cases order.orderType <;> rfl

/-- Who does not look at the book after a throw sees the book's own operations. -/
theorem forget_dispatch (registry : Registry) (w : World) (order : Order) :
    forget (OrderBook.dispatchThrowing registry w order) b = b.dispatch registry w order := by
  unfold OrderBook.dispatchThrowing OrderBook.dispatch
  cases order.requestType with
  | sendOrder =>
    simp only [forget_bind, forget_send, forget_pure]
    cases b.sendOrder order <;> rfl
  | modifyOrder =>
    unfold OrderBook.modifyThrowing OrderBook.killThrowing OrderBook.modifyOrder
    simp only [forget_bind, forget_atomic, forget_send, forget_pure]
    cases b.killOrder registry w order with
    | error e => rfl
    | ok r =>
      simp only [ok_bind]
      cases r.1.sendOrder { order with delId := 0 } <;> rfl
  | killOrder => exact forget_atomic _ b

end Forget
/- What is left of a request that found no node. -/
section Thrown
variable {registry : Registry} {w : World} {b b' : OrderBook} {q : QueueBook} {order : Order}

theorem mark_of_used {t : OrderType}
    (used : ((b.side t).levels (indexOf order.priceLevel)).empty = false) :
    b.mark t order = b := by
  unfold OrderBook.mark
  simp only [used]
  exact if_neg Bool.false_ne_true

theorem mark_bitmap {t : OrderType}
    (vacant : ((b.side t).levels (indexOf order.priceLevel)).empty = true) :
    ((b.mark t order).side t).bitmap = (b.side t).bitmap.set (indexOf order.priceLevel) := by
  unfold OrderBook.mark
  simp only [if_pos vacant, OrderBook.side_setSide]
  rfl

theorem mark_pool {t : OrderType} : (b.mark t order).pool = b.pool := by
  unfold OrderBook.mark
  simp only
  split
  · exact OrderBook.setSide_pool _ _ _
  · rfl

theorem mark_head {t : OrderType} :
    (((b.mark t order).side t).levels (indexOf order.priceLevel)).head =
      ((b.side t).levels (indexOf order.priceLevel)).head := by
  unfold OrderBook.mark
  simp only
  split
  · simp [BookSide.setLevel]
  · rfl

theorem killOrder_only {b₁ : OrderBook} {w₁ : World}
    (ran : b.killOrder registry w order = .ok (b₁, w₁)) :
    b₁ = { b with killedOrders := b₁.killedOrders } := by
  obtain ⟨found, _, ran⟩ := bind_ok ran
  cases found with
  | none =>
    cases ran
    rfl
  | some kf =>
    obtain ⟨kt, _, ran⟩ := bind_ok ran
    cases ran
    rfl

theorem kill_unthrown :
    OrderBook.killThrowing registry w order b ≠ .error .poolExhausted b' := by
  intro threw
  have ends : TableEnds (b.killOrder registry w order) := by
    apply tableEnds_bind (find_ends _ _)
    intro found
    cases found with
    | none => trivial
    | some kf => exact tableEnds_bind (assign_ends _ _ _) fun _ => trivial
  cases ends_error ends (atomic_error.mp threw).1

theorem send_thrown (threw : OrderBook.sendThrowing order b = .error .poolExhausted b') :
    ∃ kt, b.killedOrders.set order.orderId false = .ok kt ∧
      b' = { b with killedOrders := kt }.mark order.orderType order := by
  unfold OrderBook.sendThrowing OrderBook.setThrowing at threw
  rcases bind_error.mp threw with first | ⟨_, b₁, first, second⟩
  · have ends : TableEnds (do
        let killedOrders ← b.killedOrders.set order.orderId false
        pure ({ b with killedOrders }, ())) :=
      tableEnds_bind (set_ends _ _ _) fun _ => trivial
    cases ends_error ends (atomic_error.mp first).1
  · obtain ⟨kt, ran, same⟩ := bind_ok (atomic_ok.mp first)
    cases same
    refine ⟨kt, ran, ?_⟩
    unfold OrderBook.insertThrowing OrderBook.pushThrowing at second
    rcases bind_error.mp second with never | ⟨_, b₂, marked, pushed⟩
    · cases never
    · cases marked
      exact (atomic_error.mp pushed).2

/-- The kill table has the request's flags already, and an empty level is marked. -/
theorem dispatch_thrown (rep : Represents b q) {m : Int → Option Bool}
    (flags : TableRep q.killedOrders m) (ordinary : Ordinary order.orderId)
    (threw : OrderBook.dispatchThrowing registry w order b = .error .poolExhausted b') :
    ∃ kt, TableRep kt (requestFlags m order) ∧
      b' = { b with killedOrders := kt }.mark order.orderType order := by
  unfold OrderBook.dispatchThrowing at threw
  unfold requestFlags
  have sent : ∀ {b₁ : OrderBook} {kt : KillFlagTable} {m₁ : Int → Option Bool},
      TableRep b₁.killedOrders m₁ → b₁.killedOrders.set order.orderId false = .ok kt →
      TableRep kt (Function.update m₁ order.orderId (some false)) := by
    intro b₁ kt m₁ flags₁ ran
    rcases set_cases flags₁ ordinary false with full | ⟨kt', ran', flags'⟩
    · cases full.symm.trans ran
    · cases ran'.symm.trans ran
      exact flags'
  have mine : TableRep b.killedOrders m := by rwa [rep.killed]
  cases kind : order.requestType with
  | sendOrder =>
    rw [kind] at threw
    rcases bind_error.mp threw with first | ⟨_, _, _, never⟩
    · obtain ⟨kt, ran, left⟩ := send_thrown first
      exact ⟨kt, sent mine ran, left⟩
    · cases never
  | modifyOrder =>
    rw [kind] at threw
    unfold OrderBook.modifyThrowing at threw
    rcases bind_error.mp threw with first | ⟨w₁, b₁, first, second⟩
    · exact absurd first kill_unthrown
    · have killed := atomic_ok.mp first
      obtain ⟨⟨q₁, _⟩, ran, rep₁, _⟩ := simulates_ok (killOrder_simulates registry rep w order) killed
      have flags₁ := killOrder_flags flags ran
      rw [← rep₁.killed] at flags₁
      have only := killOrder_only killed
      rcases bind_error.mp second with second | ⟨_, _, _, never⟩
      · obtain ⟨kt, ran, left⟩ := send_thrown second
        refine ⟨kt, sent flags₁ ran, ?_⟩
        rw [left, only]
        rfl
      · cases never
  | killOrder =>
    rw [kind] at threw
    exact absurd threw kill_unthrown

end Thrown

def KillFlagTable.flagOf (t : KillFlagTable) (key : Int) : Except Fault (Option Bool) := do
  match ← t.find key with
  | none => pure none
  | some kf => pure (some (← t.deref kf))

theorem flagOf_ok {t : KillFlagTable} {m : Int → Option Bool} (rep : TableRep t m) {key : Int}
    (ordinary : Ordinary key) : t.flagOf key = .ok (m key) := by
  obtain ⟨found, run, spec⟩ := find_ordinary rep ordinary
  unfold KillFlagTable.flagOf
  rw [run, ok_bind]
  cases found with
  | none => exact congrArg Except.ok (show m key = none from spec).symm
  | some i =>
    obtain ⟨small, _, flag⟩ := spec
    have value : t.deref i = .ok (t.slots.get i).value := by
      rw [deref, Vectors.Vec.read_ok small]
      rfl
    rw [flag]
    simp only [value, ok_bind]
    rfl

/-- `b'` is what `b` was to its callers, and no later call reads an empty level. -/
structure OrderBook.AsBefore (b b' : OrderBook) : Prop where
  levels : ∀ t, (b'.side t).levels = (b.side t).levels
  bitmaps : ∀ t, (b'.side t).bitmap = (b.side t).bitmap
  pool : b'.pool = b.pool
  flags : ∀ key, Ordinary key → b'.killedOrders.flagOf key = b.killedOrders.flagOf key
  later : ∀ registry w cs, b'.calls registry w cs ≠ .error .poolIndex

/-- The request finds everything it writes before `acquire` as it would write it: its level is in
    use, its order is known and alive, and what a MODIFY kills is that order, unknown or dead. -/
structure OrderBook.LeavesNoTrace (b : OrderBook) (order : Order) : Prop where
  used : ((b.side order.orderType).levels (indexOf order.priceLevel)).empty = false
  known : b.killedOrders.flagOf order.orderId = .ok (some false)
  target : order.requestType = .modifyOrder → Ordinary order.delId →
    order.delId = order.orderId ∨ b.killedOrders.flagOf order.delId ≠ .ok (some false)

theorem requestFlags_same_iff {m : Int → Option Bool} {order : Order}
    (books : order.requestType ≠ .killOrder) : requestFlags m order = m ↔
      m order.orderId = some false ∧ (order.requestType = .modifyOrder →
        order.delId = order.orderId ∨ m order.delId ≠ some false) := by
  unfold requestFlags
  cases kind : order.requestType with
  | sendOrder =>
    simp only [Function.update_eq_self_iff]
    constructor
    · intro known
      exact ⟨known.symm, fun other => by cases other⟩
    · intro h
      exact h.1.symm
  | modifyOrder =>
    simp only [forall_const]
    constructor
    · intro same
      constructor
      · rw [← same, Function.update_self]
      · by_contra both
        rw [not_or, not_not] at both
        obtain ⟨apart, alive⟩ := both
        have dead := congrFun same order.delId
        rw [Function.update_of_ne apart, markKilled_self, alive] at dead
        cases dead
    · rintro ⟨known, target⟩
      funext key
      by_cases own : key = order.orderId
      · rw [own, Function.update_self, known]
      · rw [Function.update_of_ne own]
        by_cases killed : key = order.delId
        · subst killed
          have dead := target.resolve_left own
          rw [markKilled_self]
          cases flag : m order.delId with
          | none => rfl
          | some v =>
            cases v with
            | false => exact absurd flag dead
            | true => rfl
        · exact markKilled_of_ne m killed
  | killOrder => exact absurd kind books

section Exact
variable {registry : Registry} {w : World} {b b' : OrderBook} {q : QueueBook} {order : Order}

/-- A book that stands for queues reads no level that is empty, now or later. -/
theorem calls_inRange (rep : Represents b q) (cs : List Call) :
    b.calls registry w cs ≠ .error .poolIndex := by
  intro failed
  have ends : Ends (fun e => e = .poolExhausted ∨ e.ofTable)
      (fun r : OrderBook × World => ∃ q', Represents r.1 q') (b.calls registry w cs) := by
    apply ends_foldlM
    · rintro r ⟨q', rep'⟩ c _
      exact call_ends registry rep' r.2 c
    · exact ⟨q, rep⟩
  rcases ends_error ends failed with exhausted | limit
  · cases exhausted
  · cases limit

theorem represents_table (rep : Represents b q) (kt : KillFlagTable) :
    Represents { b with killedOrders := kt } { q with killedOrders := kt } :=
  ⟨rep.rep, rfl⟩

theorem flags_same_iff {t u : KillFlagTable} {m n : Int → Option Bool} (old : TableRep t m)
    (new : TableRep u n) :
    (∀ key, Ordinary key → u.flagOf key = t.flagOf key) ↔ n = m := by
  constructor
  · intro same
    funext key
    by_cases ordinary : Ordinary key
    · have one := same key ordinary
      rw [flagOf_ok old ordinary, flagOf_ok new ordinary] at one
      injection one
    · rw [old.marker ordinary, new.marker ordinary]
  · rintro rfl key ordinary
    rw [flagOf_ok old ordinary, flagOf_ok new ordinary]

theorem leavesNoTrace_iff {m : Int → Option Bool} (flags : TableRep b.killedOrders m)
    (ordinary : Ordinary order.orderId) (books : order.requestType ≠ .killOrder) :
    b.LeavesNoTrace order ↔
      ((b.side order.orderType).levels (indexOf order.priceLevel)).empty = false ∧
      requestFlags m order = m := by
  have reads : ∀ {key : Int}, Ordinary key →
      (b.killedOrders.flagOf key = .ok (some false) ↔ m key = some false) := by
    intro key isKey
    rw [flagOf_ok flags isKey, Except.ok.injEq]
  rw [requestFlags_same_iff books, ← reads ordinary]
  constructor
  · intro h
    refine ⟨h.used, h.known, fun modify => ?_⟩
    by_cases isKey : Ordinary order.delId
    · rw [ne_eq, ← reads isKey]
      exact h.target modify isKey
    · rw [flags.marker isKey]
      exact Or.inr (by simp)
  · rintro ⟨used, known, target⟩
    refine ⟨used, known, fun modify isKey => ?_⟩
    rw [ne_eq, reads isKey]
    exact target modify

theorem used_of_sameBitmap (rep : Represents b q) {t : OrderType}
    (same : ((b.mark t order).side t).bitmap = (b.side t).bitmap) :
    ((b.side t).levels (indexOf order.priceLevel)).empty = false := by
  by_contra nothing
  rw [Bool.not_eq_false] at nothing
  obtain ⟨_, cells, _, holds⟩ := rep.rep
  have clear := ((holds t).level (indexOf order.priceLevel)).empty_iff.mp nothing
  have marked : (b.side t).bitmap.Has (indexOf order.priceLevel) := by
    rw [← same, mark_bitmap nothing]
    exact (PriceBitmap.has_set _ _ _).mpr (Or.inl rfl)
  exact ((holds t).bit _).mp marked clear

theorem level_used (rep : Represents b q) {t : OrderType} {o : Order} (member : o ∈ q.queue t) :
    ((b.side t).levels (indexOf o.priceLevel)).empty = false := by
  obtain ⟨_, cells, _, holds⟩ := rep.rep
  rw [← Bool.not_eq_true, ((holds t).level _).empty_iff, (holds t).cells_nil_iff]
  exact fun nothing => nothing o member rfl

theorem asBefore_iff (rep : Represents b q) {m : Int → Option Bool}
    (flags : TableRep q.killedOrders m) (ordinary : Ordinary order.orderId)
    (threw : OrderBook.dispatchThrowing registry w order b = .error .poolExhausted b') :
    b.AsBefore b' ↔ b.LeavesNoTrace order := by
  obtain ⟨kt, wrote, left⟩ := dispatch_thrown rep flags ordinary threw
  have before : TableRep b.killedOrders m := by rwa [rep.killed]
  have books : order.requestType ≠ .killOrder := by
    intro kind
    unfold OrderBook.dispatchThrowing at threw
    rw [kind] at threw
    exact kill_unthrown threw
  have rewritten := represents_table rep kt
  rw [leavesNoTrace_iff before ordinary books, ← flags_same_iff before wrote]
  constructor
  · intro same
    have bitmaps := same.bitmaps order.orderType
    rw [left] at bitmaps
    have used := used_of_sameBitmap rewritten bitmaps
    rw [mark_of_used used] at left
    subst left
    exact ⟨used, same.flags⟩
  · rintro ⟨used, known⟩
    rw [mark_of_used (b := { b with killedOrders := kt }) used] at left
    subst left
    exact ⟨fun _ => rfl, fun _ => rfl, rfl, known, fun _ _ cs => calls_inRange rewritten cs⟩

end Exact

/- A book that rests as many orders as the pool can have nodes: bids of one price, with the ids
   from 1 on. -/
section Full

def bid (i : Nat) : Order :=
  { orderId := i + 1, priceLevel := 100, qty := 1, orderType := .buy }

def sendBids (n : Nat) : List Call := (List.range n).map fun i => .sendOrder (bid i)

structure Filled (b : OrderBook) (f : FlagBook) (n : Nat) : Prop where
  tracks : Tracks b f
  bids : (f.queue .buy).length = n
  asks : f.queue .sell = []
  price : ∀ o ∈ f.queue .buy, o.priceLevel = 100
  flags : ∀ key, f.flags key = if 1 ≤ key ∧ key ≤ n then some false else none
  stones : b.killedOrders.tombstoneCount = 0

theorem push_exhausted {lvl : PriceLevel} {pool : OrderPool} {o : Order} :
    levelPushBack lvl pool o = .error .poolExhausted ↔
      pool.acquire o = .error .poolExhausted := by
  unfold levelPushBack
  cases pool.acquire o with
  | error e => simp only [error_bind, Except.error.injEq]
  | ok r =>
    rw [ok_bind]
    refine iff_of_false (fun threw => ?_) (fun h => by cases h)
    have ends : PoolEnds (do
        let last ← r.2.read lvl.tail
        let pool ← r.2.write lvl.tail { last with next := r.1 }
        let node ← pool.read r.1
        let pool ← pool.write r.1 { node with prev := lvl.tail }
        pure ({ lvl with tail := r.1, count := inc32 lvl.count }, pool)) :=
      ends_bind (read_ends _ _) fun _ _ => ends_bind (write_ends _ _ _) fun _ _ =>
        ends_bind (read_ends _ _) fun _ _ => ends_bind (write_ends _ _ _) fun _ _ => trivial
    simp only at threw
    split at threw
    · cases threw
    · cases ends_error ends threw

theorem insert_exhausted {side : BookSide} {pool : OrderPool} {o : Order} :
    side.insert pool o = .error .poolExhausted ↔ pool.acquire o = .error .poolExhausted := by
  rw [BookSide.insert_eq]
  generalize (if (side.levels (indexOf o.priceLevel)).empty then
    { side.levels (indexOf o.priceLevel) with levelPrice := o.priceLevel }
    else side.levels (indexOf o.priceLevel)) = lvl
  have pushed : levelPushBack lvl pool o = .error .poolExhausted ↔ _ := push_exhausted
  rw [← pushed]
  cases levelPushBack lvl pool o with
  | error e => simp only [error_bind, Except.error.injEq]
  | ok r =>
    apply iff_of_false
    · exact fun threw => by cases threw
    · exact fun threw => by cases threw

/-- With at most as many live keys as there can be nodes and no tombstones, a table never refuses
    a key. -/
theorem set_room {t : KillFlagTable} {m : Int → Option Bool} (rep : TableRep t m)
    (few : t.liveCount ≤ orderPoolMaxCap) (stones : t.tombstoneCount = 0) {key : Int}
    (ordinary : Ordinary key) (v : Bool) :
    ∃ t', t.set key v = .ok t' ∧ TableRep t' (Function.update m key (some v)) ∧
      t'.tombstoneCount = 0 := by
  rcases set_sized rep ordinary v with ⟨_, loaded, huge⟩ | ⟨t', ran, rep', _, fewer⟩
  · unfold Loaded at loaded
    unfold uint32 at huge
    unfold orderPoolMaxCap at few
    omega
  · exact ⟨t', ran, rep', by omega⟩

namespace Filled
variable {b b' : OrderBook} {f : FlagBook} {n : Nat}

theorem table (h : Filled b f n) : TableRep b.killedOrders f.flags := by
  obtain ⟨q, rep, reads⟩ := h.tracks
  rw [rep.killed]
  exact reads.rep

theorem liveCount (h : Filled b f n) : b.killedOrders.liveCount = n := by
  have counter : ∀ key, key ∈ Finset.Icc 1 (n : Int) ↔ f.flags key ≠ none := by
    intro key
    rw [h.flags, Finset.mem_Icc]
    by_cases booked : 1 ≤ key ∧ key ≤ (n : Int)
    · simp [booked]
    · simp [booked]
  rw [liveCount_eq_card h.table counter, Int.card_Icc]
  omega

theorem exhausted_iff (h : Filled b f n) (o : Order) :
    b.pool.acquire o = .error .poolExhausted ↔ n = orderPoolMaxCap := by
  obtain ⟨q, rep, reads⟩ := h.tracks
  rw [rep.rep.exhausted_iff, reads.queue, h.asks, h.bids]
  rfl

theorem next (h : Filled b f n) (room : n < orderPoolMaxCap) :
    ∃ b', b.sendOrder (bid n) = .ok b' ∧ Filled b' (f.sendOrder (bid n)) (n + 1) := by
  have ordinary : Ordinary (bid n).orderId := ordinary_of_pos (by simp [bid])
  obtain ⟨kt, stored, _, stones⟩ :=
    set_room h.table (by rw [h.liveCount]; omega) h.stones ordinary false
  obtain ⟨q, rep, reads⟩ := h.tracks
  rcases rep.rep.insert_cases .buy (bid n) with full | ⟨side, pool, ran, _⟩
  · have exhausted := (h.exhausted_iff _).mp (insert_exhausted.mp full)
    omega
  have sent : b.sendOrder (bid n) = .ok { b with bids := side, pool, killedOrders := kt } := by
    unfold OrderBook.sendOrder
    have buys : b.bids.insert b.pool (bid n) = .ok (side, pool) := ran
    rw [stored, ok_bind, if_pos (show (bid n).orderType = .buy from rfl), buys]
    rfl
  refine ⟨_, sent, ends_ok (sendOrder_tracks h.tracks (bid n) ordinary) sent, ?_, ?_, ?_, ?_, stones⟩
  · have longer : (insert (slotRank .buy) (bid n) (f.queue .buy)).length = _ :=
      length_insert (bid n) (f.queue .buy)
    rw [h.bids] at longer
    exact longer
  · exact h.asks
  · intro o member
    rcases mem_sendOrder.mp member with ⟨rfl, _⟩ | old
    · rfl
    · exact h.price o old
  · intro key
    have flag : (f.sendOrder (bid n)).flags key =
        if key = (n : Int) + 1 then some false else f.flags key := Function.update_apply _ _ _ _
    rw [flag, h.flags]
    by_cases new : key = (n : Int) + 1
    · rw [if_pos new, if_pos (by omega)]
    · rw [if_neg new]
      by_cases old : 1 ≤ key ∧ key ≤ (n : Int)
      · rw [if_pos old, if_pos (by omega)]
      · rw [if_neg old, if_neg (by omega)]

end Filled

theorem sendBids_filled (registry : Registry) (w : World) (n : Nat) (room : n ≤ orderPoolMaxCap) :
    ∃ b f, OrderBook.calls registry {} w (sendBids n) = .ok (b, w) ∧ Filled b f n := by
  induction n with
  | zero =>
    refine ⟨{}, {}, rfl, tracks_new, rfl, rfl, ?_, ?_, rfl⟩
    · intro o nothing
      cases nothing
    · intro key
      exact (if_neg (by omega)).symm
  | succ n ih =>
    obtain ⟨b, f, run, filled⟩ := ih (by omega)
    obtain ⟨b', sent, filled'⟩ := filled.next (by omega)
    refine ⟨b', _, ?_, filled'⟩
    have more : sendBids (n + 1) = sendBids n ++ [.sendOrder (bid n)] := by
      unfold sendBids
      rw [List.range_succ, List.map_append]
      rfl
    unfold OrderBook.calls at run ⊢
    rw [more, List.foldlM_append, run, ok_bind, List.foldlM_cons]
    unfold OrderBook.call
    simp only [sent, ok_bind]
    rfl

/-- A book that is full throws for any bid, once it has written what is before `acquire`. -/
theorem Filled.throws {b : OrderBook} {f : FlagBook} (h : Filled b f orderPoolMaxCap)
    (registry : Registry) (w : World) (order : Order) (sends : order.requestType = .sendOrder)
    (ordinary : Ordinary order.orderId) :
    ∃ b', OrderBook.dispatchThrowing registry w order b = .error .poolExhausted b' := by
  obtain ⟨kt, stored, _⟩ := set_room h.table (by rw [h.liveCount]) h.stones ordinary false
  have full : ∀ lvl, levelPushBack lvl b.pool order = .error .poolExhausted := fun lvl =>
    push_exhausted.mpr ((h.exhausted_iff order).mpr rfl)
  have pushed : ∀ b₁ : OrderBook, b₁.pool = b.pool →
      OrderBook.pushThrowing order.orderType order b₁ = .error .poolExhausted b₁ := by
    intro b₁ same
    apply atomic_error.mpr
    rw [same]
    simp only [full]
    exact ⟨rfl, trivial⟩
  refine ⟨{ b with killedOrders := kt }.mark order.orderType order, ?_⟩
  unfold OrderBook.dispatchThrowing OrderBook.sendThrowing
  rw [sends]
  apply bind_error.mpr
  left
  apply bind_error.mpr
  refine Or.inr ⟨(), { b with killedOrders := kt }, atomic_ok.mpr (by rw [stored]; rfl), ?_⟩
  apply bind_error.mpr
  exact Or.inr ⟨(), _, rfl, pushed _ mark_pool⟩

theorem findHighest_set {bmp : PriceBitmap} (summarized : bmp.Summarized) {idx : Nat}
    (small : idx < priceWindow) (above : ∀ slot, bmp.Has slot → slot < idx) :
    (bmp.set idx).findHighest = .ok (some idx) := by
  have marked : (bmp.set idx).Has idx := (PriceBitmap.has_set _ _ _).mpr (Or.inl rfl)
  have upto : ∀ slot, (bmp.set idx).Has slot → slot ≤ idx := by
    intro slot has
    rcases (PriceBitmap.has_set _ _ _).mp has with rfl | old
    · exact Nat.le_refl _
    · exact Nat.le_of_lt (above slot old)
  rcases PriceBitmap.findHighest_spec (PriceBitmap.summarized_set summarized idx)
    (fun slot has => Nat.lt_of_le_of_lt (upto slot has) small) with ⟨_, clear⟩ | ⟨i, run, has, top⟩
  · exact absurd marked (clear idx)
  · rw [run, Nat.le_antisymm (upto i has) (top idx marked)]

/-- A bid above all others that found no node: its slot is the best now and its level is empty. -/
theorem updateBook_marked {registry : Registry} {b : OrderBook} {q : QueueBook} {order : Order}
    (rep : Represents b q)
    (above : ∀ o ∈ q.queue .buy, indexOf o.priceLevel < indexOf order.priceLevel) (w : World) :
    (b.mark .buy order).updateBook registry w = .error .poolIndex := by
  obtain ⟨place, cells, prep, holds⟩ := rep.rep
  have bids := holds .buy
  have nothing : cells (.level .buy (indexOf order.priceLevel)) = [] := by
    apply (bids.cells_nil_iff _).mpr
    intro o member
    exact Nat.ne_of_lt (above o member)
  have level := bids.level (indexOf order.priceLevel)
  have empty : ((b.side .buy).levels (indexOf order.priceLevel)).empty = true :=
    level.empty_iff.mpr nothing
  have head : ((b.side .buy).levels (indexOf order.priceLevel)).head = nil := by
    have linked := level.linked
    rw [nothing] at linked
    exact linked
  have best : (b.mark .buy order).bids.best true = .ok (some (indexOf order.priceLevel)) := by
    have bitmap : (b.mark .buy order).bids.bitmap =
        (b.side .buy).bitmap.set (indexOf order.priceLevel) := mark_bitmap empty
    unfold BookSide.best
    rw [if_pos rfl, bitmap]
    apply findHighest_set bids.summarized (indexOf_lt _)
    intro slot has
    obtain ⟨o, member, rfl⟩ := (bids.has_iff slot).mp has
    exact above o member
  have unread : levelFront ((b.mark .buy order).bids.levels (indexOf order.priceLevel))
      (b.mark .buy order).pool = .error .poolIndex := by
    have marked : ((b.mark .buy order).bids.levels (indexOf order.priceLevel)).head = nil :=
      mark_head.trans head
    have bound := prep.bound
    unfold levelFront OrderPool.read Vectors.Vec.read
    rw [marked, mark_pool, if_neg (by unfold orderPoolMaxCap at bound; unfold nil; omega)]
    rfl
  unfold OrderBook.updateBook OrderBook.updateLoop OrderBook.drainBoth drainDead
  simp only [best, ok_bind, unread]
  rfl

theorem ordinary_sendBids (n : Nat) :
    ∀ c ∈ sendBids n, ∀ o ∈ c.booked, Ordinary o.orderId := by
  intro c member o books
  obtain ⟨i, _, rfl⟩ := List.mem_map.mp member
  cases books
  exact ordinary_of_pos (by simp [bid])

end Full

/-- A SEND or MODIFY that finds the pool exhausted leaves the book as it was exactly if it leaves
    no trace. The ids are those of `assign_order_id`, which gives no slot marker. -/
theorem exhausted_leaves_iff (registry : Registry) (w₀ : World) (cs : List Call)
    (booked : ∀ c ∈ cs, ∀ o ∈ c.booked, Ordinary o.orderId) {b : OrderBook} {w : World}
    (run : OrderBook.calls registry {} w₀ cs = .ok (b, w)) (order : Order)
    (ordinary : Ordinary order.orderId) {b' : OrderBook}
    (threw : OrderBook.dispatchThrowing registry w order b = .error .poolExhausted b') :
    b.dispatch registry w order = .error .poolExhausted ∧
    (b.AsBefore b' ↔ b.LeavesNoTrace order) := by
  obtain ⟨f, ⟨q, rep, reads⟩, _⟩ := calls_rule registry (P := fun _ _ => True)
    (fun _ _ _ _ _ => trivial) booked [] tracks_new trivial run
  constructor
  · rw [← forget_dispatch]
    exact forget_error threw
  · exact asBefore_iff rep reads.rep ordinary threw

/-- The first bid once more, in a book that is full of bids: all it writes is there. -/
theorem exhausted_leaves_iff_repeated : ∃ b w b',
    OrderBook.calls (fun _ _ => true) {} {} (sendBids orderPoolMaxCap) = .ok (b, w) ∧
    OrderBook.dispatchThrowing (fun _ _ => true) w (bid 0) b = .error .poolExhausted b' ∧
    b.AsBefore b' := by
  obtain ⟨b, f, run, filled⟩ := sendBids_filled (fun _ _ => true) {} orderPoolMaxCap (Nat.le_refl _)
  have ordinary : Ordinary (bid 0).orderId := by decide
  obtain ⟨b', threw⟩ := filled.throws (fun _ _ => true) {} (bid 0) rfl ordinary
  have leaves := (exhausted_leaves_iff (fun _ _ => true) {} _ (ordinary_sendBids _) run (bid 0)
    ordinary threw).2
  refine ⟨b, {}, b', run, threw, leaves.mpr ⟨?_, ?_, fun modify => by cases modify⟩⟩
  · obtain ⟨q, rep, reads⟩ := filled.tracks
    obtain ⟨o, member⟩ := List.exists_mem_of_length_pos (l := f.queue .buy)
      (by rw [filled.bids]; decide)
    have used := level_used rep (t := .buy) (by rw [reads.queue]; exact member)
    rwa [filled.price o member] at used
  · rw [flagOf_ok filled.table ordinary, filled.flags]
    rfl

def betterBid : Order :=
  { orderId := orderPoolMaxCap + 1, priceLevel := 200, qty := 1, orderType := .buy }

/-- It leaves a bit over an empty level, and the next `UPDATE_BOOK` reads that. -/
theorem exhausted_leaves_iff_fails : ∃ b w b',
    OrderBook.calls (fun _ _ => true) {} {} (sendBids orderPoolMaxCap) = .ok (b, w) ∧
    OrderBook.dispatchThrowing (fun _ _ => true) w betterBid b = .error .poolExhausted b' ∧
    b'.updateBook (fun _ _ => true) w = .error .poolIndex ∧ ¬ b.AsBefore b' := by
  obtain ⟨b, f, run, filled⟩ := sendBids_filled (fun _ _ => true) {} orderPoolMaxCap (Nat.le_refl _)
  have ordinary : Ordinary betterBid.orderId := by decide
  obtain ⟨b', threw⟩ := filled.throws (fun _ _ => true) {} betterBid rfl ordinary
  obtain ⟨q, rep, reads⟩ := filled.tracks
  have above : ∀ o ∈ q.queue .buy, indexOf o.priceLevel < indexOf betterBid.priceLevel := by
    intro o member
    rw [reads.queue] at member
    rw [filled.price o member]
    decide
  obtain ⟨kt, _, left⟩ := dispatch_thrown rep reads.rep ordinary threw
  have rewritten := represents_table rep kt
  have failed : b'.updateBook (fun _ _ => true) {} = .error .poolIndex := by
    rw [left]
    exact updateBook_marked rewritten above {}
  refine ⟨b, {}, b', run, threw, failed, fun same => ?_⟩
  apply same.later (fun _ _ => true) {} [.updateBook]
  unfold OrderBook.calls
  rw [List.foldlM_cons]
  unfold OrderBook.call
  simp only [failed]
  rfl

end MarketBookExchange
