import MarketBookExchange.LazyCancellation
import MarketBookExchange.PricePriority
import MarketBookExchange.TruthfulKill

/- What a snapshot shows: the front of the live book, slot by slot and first come first served
   within a slot, and nothing else. -/
namespace MarketBookExchange
open RankedList Outcome Traversal KillFlagTable

/-- What the calls have booked, as it rests: no order twice, and each slot in the order of the
    calls. -/
structure Arrived (cs : List Call) (queue : OrderType → List Order) : Prop where
  ranked : AllRanked queue
  fifo : InArrival (ids (bookedBy cs)) queue
  counted : (ids (queue .buy) ++ ids (queue .sell)).Subperm (ids (bookedBy cs))

theorem arrived_new : Arrived [] fun _ => [] := by
  constructor
  · exact fun _ => List.Pairwise.nil
  · exact fun _ _ => List.nil_sublist _
  · exact List.nil_subperm

theorem bookedBy_append (cs : List Call) (c : Call) :
    bookedBy (cs ++ [c]) = bookedBy cs ++ c.booked.toList := by
  unfold bookedBy
  rw [List.filterMap_append]
  cases booked : c.booked <;> simp [booked]

namespace Arrived
variable {registry : Registry} {cs : List Call} {queue : OrderType → List Order} {f : FlagBook}

theorem thin (h : Arrived cs queue) {queue' : OrderType → List Order} (ranked : AllRanked queue')
    (slots : ∀ t slot, (ids ((queue' t).filter fun o => indexOf o.priceLevel = slot)).Sublist
      (ids ((queue t).filter fun o => indexOf o.priceLevel = slot)))
    (all : ∀ t, (ids (queue' t)).Sublist (ids (queue t))) : Arrived cs queue' := by
  constructor
  · exact ranked
  · exact fun t slot => (slots t slot).trans (h.fifo t slot)
  · exact ((all .buy).append (all .sell)).subperm.trans h.counted

theorem evict (h : Arrived cs queue) {t : OrderType} {front : Order} {rest : List Order}
    (head : queue t = front :: rest) : Arrived cs (Function.update queue t rest) := by
  have fewer := rest_sublist head
  apply h.thin
  · exact fun u => ranked_sublist (h.ranked u) (fewer u)
  · exact fun u slot => ((fewer u).filter _).map _
  · exact fun u => (fewer u).map _

theorem trade (h : Arrived cs queue) {bo ao : Order} {bids asks : List Order}
    (buy : queue .buy = bo :: bids) (sell : queue .sell = ao :: asks) (fillQty : Int) :
    Arrived cs (bySide (fillFront bo bids fillQty) (fillFront ao asks fillQty)) := by
  have bidSorted := h.ranked .buy
  have askSorted := h.ranked .sell
  rw [buy] at bidSorted
  rw [sell] at askSorted
  have whole : ∀ (front : Order) (rest : List Order),
      (ids (fillFront front rest fillQty)).Sublist (ids (front :: rest)) := by
    intro front rest
    rw [ids_fillFront front rest fillQty]
    exact List.sublist_append_right _ _
  apply h.thin
  · intro t
    cases t with
    | buy => exact ranked_fillFront bidSorted fillQty
    | sell => exact ranked_fillFront askSorted fillQty
  · intro t slot
    cases t with
    | buy =>
      rw [buy]
      exact sub_fillFront bo bids fillQty slot
    | sell =>
      rw [sell]
      exact sub_fillFront ao asks fillQty slot
  · intro t
    cases t with
    | buy =>
      rw [buy]
      exact whole bo bids
    | sell =>
      rw [sell]
      exact whole ao asks

theorem updateBook (h : Arrived cs f.queue) (w : World) :
    Arrived cs (f.updateBook registry w).1.queue := by
  apply updateBook_rule registry (fun g _ => Arrived cs g.queue)
  · exact fun g v t front rest hg head => hg.evict head
  · exact fun g v bo bids ao asks hg buy sell _ => hg.trade buy sell _
  · exact h

theorem send (h : Arrived cs f.queue) {c : Call} {o : Order} (booked : c.booked = some o) :
    Arrived (cs ++ [c]) (f.sendOrder o).queue := by
  have grown : ids (bookedBy (cs ++ [c])) = ids (bookedBy cs) ++ [o.orderId] := by
    rw [bookedBy_append, booked]
    simp [ids]
  have perm : (ids (insert (slotRank o.orderType) o (f.queue o.orderType))).Perm
      (o.orderId :: ids (f.queue o.orderType)) := (perm_insert o _).map _
  have more : (o.orderId :: (ids (f.queue .buy) ++ ids (f.queue .sell))).Subperm
      (ids (bookedBy cs) ++ [o.orderId]) :=
    ((List.subperm_cons _).mpr h.counted).trans (List.perm_append_singleton _ _).symm.subperm
  constructor
  · exact h.ranked.replace (ranked_insert (h.ranked _) o)
  · rw [grown]
    exact h.fifo.accept h.ranked o
  · rw [grown]
    unfold FlagBook.sendOrder
    simp only
    cases side : o.orderType with
    | buy =>
      rw [side] at perm
      rw [Function.update_self, Function.update_of_ne (by simp)]
      exact (perm.append_right _).subperm.trans more
    | sell =>
      rw [side] at perm
      rw [Function.update_self, Function.update_of_ne (by simp)]
      exact ((perm.append_left _).trans List.perm_middle).subperm.trans more

theorem unbooked (h : Arrived cs queue) {c : Call} (nothing : c.booked = none) :
    Arrived (cs ++ [c]) queue := by
  have same : bookedBy (cs ++ [c]) = bookedBy cs := by
    rw [bookedBy_append, nothing]
    exact List.append_nil _
  constructor
  · exact h.ranked
  · rw [same]
    exact h.fifo
  · rw [same]
    exact h.counted

theorem call (h : Arrived cs f.queue) (w : World) (c : Call) :
    Arrived (cs ++ [c]) (f.call registry w c).queue := by
  have kept : ∀ order, (f.killOrder registry w order).1.queue = f.queue := by
    intro order
    rw [Reads.killOrder_fst]
  cases c with
  | sendOrder order => exact h.send rfl
  | killOrder order =>
    apply unbooked
    · rw [FlagBook.call, kept]
      exact h
    · rfl
  | modifyOrder order =>
    rw [← kept order] at h
    exact h.send (c := .modifyOrder order) rfl
  | updateBook => exact (h.updateBook w).unbooked rfl
  | createSnapshot => exact h.unbooked rfl

end Arrived

namespace OrderBook

/-- The live orders of one side, best slot first and in chain order within a slot. -/
def live (b : OrderBook) (t : OrderType) : List Order := (allSlots t).flatMap (b.liveLevel t)

end OrderBook

section Live
variable {b : OrderBook} {f : FlagBook} {t : OrderType}

theorem mem_live {o : Order} : o ∈ b.live t ↔ o ∈ b.resting t ∧ Live b o := by
  have alive : (b.killedOrders.isKilled o.orderId).toOption = some false ↔ Live b o := by
    unfold Live
    cases b.killedOrders.isKilled o.orderId <;> simp [Except.toOption]
  unfold OrderBook.live OrderBook.resting OrderBook.liveLevel
  simp only [List.mem_flatMap, List.mem_filter, decide_eq_true_eq, alive]
  constructor
  · rintro ⟨slot, member, rests, lives⟩
    exact ⟨⟨slot, member, rests⟩, lives⟩
  · rintro ⟨⟨slot, member, rests⟩, lives⟩
    exact ⟨slot, member, rests, lives⟩

theorem live_eq (tracks : Tracks b f) (ranked : AllRanked f.queue) :
    b.live t = liveOrders f.flags (f.queue t) := by
  have sorted : Ranked (slotRank t) (liveOrders f.flags (f.queue t)) :=
    ranked_sublist (ranked t) List.filter_sublist
  have cut := queue_eq_slots sorted (sorted_allSlots t)
    (fun o _ => mem_allSlots.mpr (indexOf_lt _))
  unfold OrderBook.live
  rw [funext (liveLevel_eq tracks t)]
  exact cut.symm

end Live

theorem pairwise_price {t : OrderType} {l : List Order} (ranked : Ranked (slotRank t) l) {k : Int}
    (window : ∀ o ∈ l, o.priceLevel / priceWindow = k) :
    l.Pairwise fun a c => atLeastAsGood t a.priceLevel c.priceLevel := by
  apply List.Pairwise.imp_of_mem _ ranked
  intro a c first second le
  have slotA := indexOf_eq a.priceLevel
  have slotC := indexOf_eq c.priceLevel
  have placeA := Int.mul_ediv_add_emod a.priceLevel priceWindow
  have placeC := Int.mul_ediv_add_emod c.priceLevel priceWindow
  rw [window a first] at placeA
  rw [window c second] at placeC
  cases t with
  | buy =>
    unfold slotRank at le
    unfold atLeastAsGood
    simp only at le ⊢
    omega
  | sell =>
    unfold slotRank at le
    unfold atLeastAsGood
    simp only at le ⊢
    omega

/-- `snapshot.buy_side[l] = n.order`, with what a write outside the array does. -/
def storeEntry (outside : Except Fault (List Order)) (entries : List Order) (l : Nat)
    (order : Order) : Except Fault (List Order) :=
  if l < entries.length then .ok (entries.set l order) else outside

namespace OrderBook

/- `CREATE_SNAPSHOT` again, with its writes to the arrays as `storeEntry`. -/
section Storing
variable (outside : Except Fault (List Order)) (b : OrderBook)

def snapshotLevelStoring : Nat → Nat → List Order × Nat → Except Fault (List Order × Nat)
  | 0, cur, s => if cur ≠ nil ∧ s.2 < snapshotLen then .error .endlessLoop else .ok s
  | fuel + 1, cur, (entries, l) =>
    if cur ≠ nil ∧ l < snapshotLen then do
      let n ← b.pool.read cur
      if ← b.killedOrders.isKilled n.order.orderId then
        snapshotLevelStoring fuel n.next (entries, l)
      else
        let entries ← storeEntry outside entries l n.order
        snapshotLevelStoring fuel n.next (entries, l + 1)
    else .ok (entries, l)

def snapshotVisitStoring (side : BookSide) (idx : Nat) (s : List Order × Nat) :
    Except Fault (Bool × (List Order × Nat)) := do
  let s ← b.snapshotLevelStoring outside b.pool.nodes.size (side.levels idx).head s
  pure (s.2 < snapshotLen, s)

def createSnapshotStoring : Except Fault ObSnapshot := do
  let snapshot : ObSnapshot := {}
  let (buySide, _) ← b.bids.bitmap.forEachDescending (b.snapshotVisitStoring outside b.bids)
    (snapshot.buySide, 0)
  let (sellSide, _) ← b.asks.bitmap.forEachAscending (b.snapshotVisitStoring outside b.asks)
    (snapshot.sellSide, 0)
  pure { buySide, sellSide }

end Storing
end OrderBook

section Storing
variable {outside : Except Fault (List Order)} {b : OrderBook}

theorem snapshotLevel_stores (fuel : Nat) : ∀ (cur : Nat) (s : List Order × Nat),
    s.1.length = snapshotLen →
    b.snapshotLevelStoring outside fuel cur s = b.snapshotLevel fuel cur s ∧
    ∀ r, b.snapshotLevel fuel cur s = .ok r → r.1.length = snapshotLen := by
  induction fuel with
  | zero =>
    intro cur s size
    refine ⟨rfl, fun r run => ?_⟩
    unfold OrderBook.snapshotLevel at run
    split at run
    · cases run
    · cases run
      exact size
  | succ fuel ih =>
    rintro cur ⟨entries, l⟩ size
    have size : entries.length = snapshotLen := size
    unfold OrderBook.snapshotLevelStoring OrderBook.snapshotLevel
    by_cases more : cur ≠ nil ∧ l < snapshotLen
    · simp only [if_pos more]
      cases read : b.pool.read cur with
      | error e => exact ⟨rfl, fun r run => by cases run⟩
      | ok n =>
        simp only [ok_bind]
        cases b.killedOrders.isKilled n.order.orderId with
        | error e => exact ⟨rfl, fun r run => by cases run⟩
        | ok killed =>
          cases killed with
          | true => exact ih n.next (entries, l) size
          | false =>
            have inside : storeEntry outside entries l n.order =
                .ok (entries.set l n.order) := if_pos (by omega)
            have kept : (entries.set l n.order).length = snapshotLen := by
              rw [List.length_set, size]
            rw [inside]
            exact ih n.next (entries.set l n.order, l + 1) kept
    · rw [if_neg more, if_neg more]
      refine ⟨rfl, fun r run => ?_⟩
      cases run
      exact size

theorem snapshotVisit_stores (side : BookSide) (idx : Nat) (s : List Order × Nat)
    (size : s.1.length = snapshotLen) :
    b.snapshotVisitStoring outside side idx s = b.snapshotVisit side idx s ∧
    ∀ r, b.snapshotVisit side idx s = .ok r → r.2.1.length = snapshotLen := by
  obtain ⟨same, kept⟩ := @snapshotLevel_stores outside b b.pool.nodes.size (side.levels idx).head s
    size
  constructor
  · unfold OrderBook.snapshotVisitStoring OrderBook.snapshotVisit
    rw [same]
  · intro r run
    obtain ⟨s', level, run⟩ := bind_ok run
    cases run
    exact kept s' level

/-- No entry is written outside the arrays, whatever such a write would do. -/
theorem createSnapshot_stores (tracks : ∃ f, Tracks b f) (outside : Except Fault (List Order)) :
    b.createSnapshotStoring outside = b.createSnapshot := by
  obtain ⟨f, q, ⟨⟨place, cells, prep, holds⟩, _⟩, _⟩ := tracks
  have bids : SideRep b.pool cells .buy b.bids (q.queue .buy) := holds .buy
  have asks : SideRep b.pool cells .sell b.asks (q.queue .sell) := holds .sell
  have same : ∀ side idx s, s.1.length = snapshotLen →
      b.snapshotVisitStoring outside side idx s = b.snapshotVisit side idx s :=
    fun side idx s size => (snapshotVisit_stores side idx s size).1
  have kept : ∀ side idx s r, s.1.length = snapshotLen →
      b.snapshotVisit side idx s = .ok r → r.2.1.length = snapshotLen :=
    fun side idx s r size => (@snapshotVisit_stores outside b side idx s size).2 r
  have down : b.bids.bitmap.forEachDescending (b.snapshotVisitStoring outside b.bids)
      (List.replicate snapshotLen {}, 0) =
      b.bids.bitmap.forEachDescending (b.snapshotVisit b.bids)
        (List.replicate snapshotLen {}, 0) := by
    obtain ⟨slots, _, _, walk⟩ := PriceBitmap.forEachDescending_spec bids.summarized bids.window
    rw [walk, walk, visitAll_congr_of (same b.bids) (kept b.bids)]
    exact List.length_replicate
  have up : b.asks.bitmap.forEachAscending (b.snapshotVisitStoring outside b.asks)
      (List.replicate snapshotLen {}, 0) =
      b.asks.bitmap.forEachAscending (b.snapshotVisit b.asks)
        (List.replicate snapshotLen {}, 0) := by
    obtain ⟨slots, _, _, walk⟩ := PriceBitmap.forEachAscending_spec asks.summarized asks.window
    rw [walk, walk, visitAll_congr_of (same b.asks) (kept b.asks)]
    exact List.length_replicate
  unfold OrderBook.createSnapshotStoring OrderBook.createSnapshot
  simp only [down, up]

end Storing

theorem Arrived.live {cs : List Call} {b : OrderBook} {f : FlagBook} (h : Arrived cs f.queue)
    (tracks : Tracks b f) :
    (∀ t slot, (ids (b.liveLevel t slot)).Sublist (ids (bookedBy cs))) ∧
    (ids (b.live .buy) ++ ids (b.live .sell)).Subperm (ids (bookedBy cs)) := by
  have fewer : ∀ t, (liveOrders f.flags (f.queue t)).Sublist (f.queue t) :=
    fun _ => List.filter_sublist
  constructor
  · intro t slot
    rw [liveLevel_eq tracks]
    exact (((fewer t).filter _).map _).trans (h.fifo t slot)
  · rw [live_eq tracks h.ranked, live_eq tracks h.ranked]
    exact (((fewer .buy).map _).append ((fewer .sell).map _)).subperm.trans h.counted

/-- One side of a snapshot: the first live orders of the side, then blank entries. -/
structure ListsLive (cs : List Call) (b : OrderBook) (t : OrderType) (entries : List Order) :
    Prop where
  listed : entries = (b.live t).take snapshotLen ++
    List.replicate (snapshotLen - (b.live t).length) ({} : Order)
  size : entries.length = snapshotLen
  all : ∀ o, o ∈ b.live t ↔ o ∈ b.resting t ∧ Live b o
  fifo : ∀ slot, (ids (b.liveLevel t slot)).Sublist (ids (bookedBy cs))
  sorted : ∀ k, (∀ o ∈ b.live t, o.priceLevel / priceWindow = k) →
    (b.live t).Pairwise fun a c => atLeastAsGood t a.priceLevel c.priceLevel

theorem Arrived.lists {cs : List Call} {b : OrderBook} {f : FlagBook} (h : Arrived cs f.queue)
    (tracks : Tracks b f) (t : OrderType) :
    ListsLive cs b t (snapshotSide (liveOrders f.flags (f.queue t))) := by
  rw [← live_eq tracks h.ranked]
  constructor
  · rfl
  · unfold snapshotSide
    rw [List.length_append, List.length_take, List.length_replicate]
    omega
  · exact fun _ => mem_live
  · exact (h.live tracks).1 t
  · intro k window
    rw [live_eq tracks h.ranked] at window ⊢
    exact pairwise_price (ranked_sublist (h.ranked t) List.filter_sublist) window

/-- Whatever was called before, a snapshot lists the front of the live book, each order once,
    writes nothing outside its arrays and leaves the book as it is. The orders that are not live
    are those the kill table holds as killed. -/
theorem snapshot_lists_live (registry : Registry) (w₀ : World) (cs : List Call)
    (ordinary : ∀ c ∈ cs, ∀ o ∈ c.booked, Ordinary o.orderId)
    (unique : (ids (bookedBy cs)).Nodup) {b : OrderBook} {w : World}
    (run : OrderBook.calls registry {} w₀ cs = .ok (b, w)) :
    ∃ snapshot, b.createSnapshot = .ok snapshot ∧
      ListsLive cs b .buy snapshot.buySide ∧ ListsLive cs b .sell snapshot.sellSide ∧
      (ids (b.live .buy) ++ ids (b.live .sell)).Nodup ∧ b.KilledInTable ∧
      (∀ outside, b.createSnapshotStoring outside = .ok snapshot) ∧
      b.call registry w .createSnapshot = .ok (b, w) := by
  obtain ⟨f, tracks, arrived⟩ := calls_rule registry (P := fun done f => Arrived done f.queue)
    (fun _ _ v c h => h.call v c) ordinary [] tracks_new arrived_new run
  have made := createSnapshot_tracks tracks
  refine ⟨f.createSnapshot, made, arrived.lists tracks .buy, arrived.lists tracks .sell, ?_,
    tracks.killedInTable, ?_, ?_⟩
  · obtain ⟨_, perm, sub⟩ := (arrived.live tracks).2
    exact perm.nodup_iff.mp (unique.sublist sub)
  · intro outside
    rw [createSnapshot_stores ⟨f, tracks⟩ outside, made]
  · unfold OrderBook.call
    simp only [made, ok_bind]
    rfl

/-- Three bids of two prices in one slot, one of them killed, above a lower bid, and an ask. -/
def mixedSlot : List Call :=
  [.sendOrder { orderId := 4, priceLevel := 10, qty := 5, orderType := .buy },
    .sendOrder { orderId := 2, priceLevel := 65546, qty := 6, orderType := .buy },
    .sendOrder { orderId := 7, priceLevel := 9, qty := 7, orderType := .buy },
    .sendOrder { orderId := 8, priceLevel := 10, qty := 8, orderType := .buy },
    .killOrder { delId := 2, requestType := .killOrder },
    .sendOrder { orderId := 9, priceLevel := 12, qty := 1, orderType := .sell }]

theorem snapshot_lists_live_mixedSlot : ∃ b w,
    OrderBook.calls (fun _ _ => true) {} {} mixedSlot = .ok (b, w) ∧
    ∃ snapshot, b.createSnapshot = .ok snapshot ∧
      ListsLive mixedSlot b .buy snapshot.buySide ∧
      ListsLive mixedSlot b .sell snapshot.sellSide ∧
      (ids (b.live .buy) ++ ids (b.live .sell)).Nodup ∧ b.KilledInTable ∧
      (∀ outside, b.createSnapshotStoring outside = .ok snapshot) ∧
      b.call (fun _ _ => true) w .createSnapshot = .ok (b, w) := by
  obtain ⟨⟨b, w⟩, run⟩ := exists_ok (x := OrderBook.calls (fun _ _ => true) {} {} mixedSlot)
    (by decide +kernel)
  exact ⟨b, w, run,
    snapshot_lists_live (fun _ _ => true) {} mixedSlot (by decide) (by decide) run⟩

end MarketBookExchange
