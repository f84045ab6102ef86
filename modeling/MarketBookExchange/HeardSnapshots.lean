import MarketBookExchange.MulticastFeed
import Mathlib.Data.Int.Interval

/- What the subscribers make of the datagrams that reach them. -/
namespace MarketBookExchange
open Outcome Datagrams

section Decoding
variable {reqs : List Order} {currentId : Int}

theorem entry_priced {order o : Order} (checked : rejection order = none)
    (booked : entry order = some o) : 0 < o.priceLevel ∧ 0 < o.qty := by
  refine ⟨?_, entry_positive checked booked⟩
  unfold rejection simpleReject at checked
  unfold entry at booked
  cases kind : order.requestType with
  | killOrder =>
    rw [kind] at booked
    cases booked
  | sendOrder =>
    rw [kind] at checked booked
    cases booked
    simp only at checked
    split at checked
    · cases checked
    · omega
  | modifyOrder =>
    rw [kind] at checked booked
    cases booked
    simp only at checked
    split at checked
    · cases checked
    · exact Int.not_le.mp ‹_›

namespace Delivered

theorem length_lt (h : Delivered reqs currentId) (counting : 1 ≤ currentId) :
    (reqs.length : Int) < currentId := by
  have inside : (ids reqs).toFinset ⊆ Finset.Ico 1 currentId := by
    intro id member
    obtain ⟨o, ho, rfl⟩ := List.mem_map.mp (List.mem_toFinset.mp member)
    exact Finset.mem_Ico.mpr (h.issued o ho)
  have card := Finset.card_le_card inside
  rw [List.toFinset_card_of_nodup h.once, Int.card_Ico, ids, List.length_map] at card
  omega

theorem carried (h : Delivered reqs currentId) (small : currentId ≤ 2 ^ 32) :
    LiveBook.Each (Order.Carried widths) (marketAfter reqs).1 := by
  have bounds : LiveBook.Each (fun o => (1 ≤ o.orderId ∧ o.orderId < currentId) ∧
      (0 < o.priceLevel ∧ o.priceLevel < 2 ^ 31) ∧ 0 < o.qty ∧ o.qty < 2 ^ 31)
      (marketAfter reqs).1 := by
    apply LiveBook.Each.run
    · exact fun o bounds => bounds.2.2.1
    · rintro o n ⟨id, price, _, high⟩ low less
      refine ⟨id, price, ?_⟩
      simp only [afterFill]
      omega
    · intro _ _ member
      cases member
    · intro o member
      obtain ⟨order, ho, booked⟩ := List.mem_filterMap.mp member
      obtain ⟨price, qty⟩ := entry_priced (h.fromWire order ho).checked booked
      have issued := h.issued order ho
      have high := h.fromWire order ho
      have same : o.priceLevel = order.priceLevel ∧ o.qty = order.qty := by
        unfold entry at booked
        split at booked <;> cases booked <;> exact ⟨rfl, rfl⟩
      refine ⟨?_, ⟨price, ?_⟩, qty, ?_⟩
      · rw [entry_id booked]
        exact issued
      · rw [same.1]
        exact high.priceLevel
      · rw [same.2]
        exact high.qty
  intro t o ho
  obtain ⟨⟨idLow, idHigh⟩, ⟨priceLow, priceHigh⟩, qtyLow, qtyHigh⟩ := bounds t o ho
  constructor
  · show 0 ≤ o.orderId ∧ o.orderId < 2 ^ (8 * 4) ∧ o.orderId < 2 ^ 63
    omega
  · show 0 ≤ o.priceLevel ∧ o.priceLevel < 2 ^ (8 * 4) ∧ o.priceLevel < 2 ^ 63
    omega
  · show 0 ≤ o.qty ∧ o.qty < 2 ^ (8 * 4) ∧ o.qty < 2 ^ 63
    omega

end Delivered

theorem length_snapshotSide (l : List Order) : (snapshotSide l).length = snapshotLen := by
  unfold snapshotSide
  rw [List.length_append, List.length_take, List.length_replicate]
  omega

theorem carried_snapshotSide {l : List Order} (carried : ∀ o ∈ l, o.Carried widths) :
    ∀ o ∈ snapshotSide l, o.Carried widths := by
  intro o member
  rcases List.mem_append.mp member with shown | blank
  · exact carried o (List.mem_of_mem_take shown)
  · rw [List.eq_of_mem_replicate blank]
    constructor <;> exact ⟨le_refl 0, by decide, by decide⟩

/-- A datagram is decoded as it was meant, on its way through both buffers. -/
theorem getSnapshot_sent {symbol : List UInt8} (four : symbol.length = symbolBytes) {seqLen : Int}
    (seq : FitsBytes 8 seqLen) {snapshot : ObSnapshot}
    (buys : snapshot.buySide.length = snapshotLen) (sells : snapshot.sellSide.length = snapshotLen)
    (bids : ∀ o ∈ snapshot.buySide, o.Carried widths)
    (asks : ∀ o ∈ snapshot.sellSide, o.Carried widths) :
    getSnapshot widths snapshotLen (received snapshotLen
      (sendBroadcast widths snapshotLen snapshot symbol seqLen)) =
      .ok { symbol, seqLen, buySide := snapshot.buySide.map Order.client,
            sellSide := snapshot.sellSide.map Order.client } := by
  have bytes : snapshotToBytes widths snapshotLen snapshot symbol seqLen =
      symbol ++ (numberToBytes seqLen 8 ++ (snapshot.buySide.flatMap (orderToBytes widths) ++
        (snapshot.sellSide.flatMap (orderToBytes widths) ++ []))) := by
    unfold snapshotToBytes
    rw [List.take_of_length_le buys.le, List.take_of_length_le sells.le, List.append_nil,
      List.append_assoc, List.append_assoc]
  have size : (snapshotToBytes widths snapshotLen snapshot symbol seqLen).length ≤
      4 + 8 + 2 * (24 * snapshotLen) := by
    rw [bytes]
    simp only [List.length_append, List.length_nil, length_written seq, length_side _ bids,
      length_side _ asks, buys, sells, four]
    decide
  obtain ⟨seqRead, shape, offset⟩ := shiftConversion_next bytes four seq
  have bidsRead := getSide_next snapshot.buySide bids shape offset
  rw [← List.append_assoc] at shape
  have asksRead := getSide_next snapshot.sellSide asks shape
    (by rw [List.length_append, length_side _ bids, offset])
  rw [buys] at bidsRead asksRead
  rw [sells] at asksRead
  have symbolRead : (snapshotToBytes widths snapshotLen snapshot symbol seqLen).take widths.symbol =
      symbol := by
    rw [bytes]
    exact List.take_left' four
  unfold received sendBroadcast
  rw [List.take_take, Nat.min_self, List.take_of_length_le size]
  unfold getSnapshot
  simp only [symbolRead]
  rw [show widths.symbol = symbolBytes from rfl, seqRead]
  simp only [ok_bind, bidsRead, asksRead, pure_eq_ok]

/-- What a subscriber reads of a symbol's snapshot after those requests. -/
def shownAfter (symbol : List UInt8) (reqs : List Order) : ClientSnapshot where
  symbol
  buySide := (marketAfter reqs).1.snapshot.buySide.map Order.client
  sellSide := (marketAfter reqs).1.snapshot.sellSide.map Order.client
  seqLen := reqs.length

theorem getSnapshot_broadcastOf (shards : Nat) {symbol : List UInt8}
    (four : symbol.length = symbolBytes) (h : Delivered reqs currentId)
    (counting : 1 ≤ currentId) (small : currentId ≤ 2 ^ 32) :
    getSnapshot widths snapshotLen (received snapshotLen (broadcastOf shards symbol reqs).datagram) =
      .ok (shownAfter symbol reqs) := by
  have size := h.length_lt counting
  have carried := h.carried small
  apply getSnapshot_sent four
  · refine ⟨Int.natCast_nonneg _, ?_, ?_⟩
    · simp only [broadcastOf]
      omega
    · simp only [broadcastOf]
      omega
  · exact length_snapshotSide _
  · exact length_snapshotSide _
  · exact carried_snapshotSide (carried .buy)
  · exact carried_snapshotSide (carried .sell)

end Decoding

section Heard
variable {shards threads : Nat} {symbols : List (List UInt8)} {trace : List FeedAction}
variable {feed : Feed} {symbol : List UInt8}

theorem port_broadcastOf (shards : Nat) (symbol : List UInt8) (reqs : List Order) :
    (broadcastOf shards symbol reqs).port = 30001 + shardOf shards symbol := rfl

theorem mem_tape {reqs : List Order} {b : Broadcast} : b ∈ tape shards symbol reqs ↔
    ∃ n, (1 ≤ n ∧ n ≤ reqs.length) ∧ b = broadcastOf shards symbol (reqs.take n) := by
  unfold tape
  rw [List.mem_map]
  constructor
  · rintro ⟨k, early, rfl⟩
    have := List.mem_range.mp early
    exact ⟨k + 1, by omega, rfl⟩
  · rintro ⟨n, ⟨low, high⟩, rfl⟩
    refine ⟨n - 1, List.mem_range.mpr (by omega), ?_⟩
    rw [Nat.sub_add_cancel low]

theorem nodup_tape (shards : Nat) (symbol : List UInt8) (reqs : List Order) :
    (tape shards symbol reqs).Nodup := by
  unfold tape
  apply List.Nodup.map_on _ List.nodup_range
  intro j hj k hk same
  have first := List.mem_range.mp hj
  have second := List.mem_range.mp hk
  have numbers := congrArg Broadcast.seqLen same
  simp only [broadcastOf, List.length_take] at numbers
  omega

namespace Follows
variable {mb : MarketBook}

/-- Each thread that was started has a snapshot of a configured symbol after some of its
    requests. -/
theorem posted_tape (h : Follows shards symbols trace mb) {b : Broadcast}
    (member : b ∈ posted trace) : b.symbol ∈ symbols.map MarketBook.symBytes ∧
      b ∈ tape shards b.symbol (processedFor b.symbol trace) := by
  have listed := h.started b member
  obtain ⟨e, _, kept⟩ := h.listed _ listed
  refine ⟨listed, ?_⟩
  rw [← kept.posts]
  exact List.mem_filter.mpr ⟨member, by simp⟩

theorem posted_nodup (h : Follows shards symbols trace mb) : (posted trace).Nodup := by
  rw [List.nodup_iff_count_le_one]
  intro b
  by_cases member : b ∈ posted trace
  · obtain ⟨e, _, kept⟩ := h.listed _ (h.started b member)
    have distinct := nodup_tape shards b.symbol (processedFor b.symbol trace)
    rw [← kept.posts] at distinct
    have once := List.nodup_iff_count_le_one.mp distinct b
    rwa [List.count_filter (by simp)] at once
  · rw [List.count_eq_zero.mpr member]
    omega

end Follows

theorem arrived_tape (pos : 0 < shards) (threaded : 1 ≤ threads)
    (run : FeedRun shards threads symbols trace feed) {b : Broadcast}
    (member : b ∈ feed.net.received) : ∃ symbol ∈ symbols.map MarketBook.symBytes,
      ∃ n, (1 ≤ n ∧ n ≤ (processedFor symbol trace).length) ∧
        b = broadcastOf shards symbol ((processedFor symbol trace).take n) := by
  have started := (accounts_run run).received_posted member
  obtain ⟨listed, taped⟩ := (follows_run pos threaded run).posted_tape started
  obtain ⟨n, range, shape⟩ := mem_tape.mp taped
  exact ⟨_, listed, n, range, shape⟩

theorem getSnapshot_arrived (pos : 0 < shards) (threaded : 1 ≤ threads)
    (run : FeedRun shards threads symbols trace feed)
    (small : feed.exchange.server.market.currentId ≤ 2 ^ 32)
    (listed : symbol ∈ symbols.map MarketBook.symBytes) (n : Nat) :
    getSnapshot widths snapshotLen (received snapshotLen
      (broadcastOf shards symbol ((processedFor symbol trace).take n)).datagram) =
      .ok (shownAfter symbol ((processedFor symbol trace).take n)) :=
  getSnapshot_broadcastOf shards (length_configured listed)
    ((delivered_feed pos threaded run symbol).sublist (List.take_sublist n _))
    (numbered_run (exchange_of_feed run)).counting
    small

/-- What a subscriber decodes on a port is the book of a symbol of that port's shard as it was
    after some number of requests, which is the sequence number it reads: whenever the threads
    come to send, and whatever the network loses, repeats or reorders. -/
theorem heard_snapshots (pos : 0 < shards) (threaded : 1 ≤ threads)
    (run : FeedRun shards threads symbols trace feed)
    (small : feed.exchange.server.market.currentId ≤ 2 ^ 32) (port : Nat) :
    ∀ x ∈ feed.heard port, ∃ symbol ∈ symbols.map MarketBook.symBytes,
      port = 30001 + shardOf shards symbol ∧
      ∃ n, (1 ≤ n ∧ n ≤ (processedFor symbol trace).length) ∧
        x = .ok (shownAfter symbol ((processedFor symbol trace).take n)) := by
  intro x heard
  obtain ⟨b, member, rfl⟩ := List.mem_map.mp heard
  obtain ⟨inbox, bound⟩ := List.mem_filter.mp member
  obtain ⟨symbol, listed, n, range, rfl⟩ := arrived_tape pos threaded run inbox
  have offset : (broadcastOf shards symbol _).port = port := of_decide_eq_true bound
  rw [port_broadcastOf] at offset
  exact ⟨symbol, listed, offset.symm, n, range, getSnapshot_arrived pos threaded run small listed n⟩

theorem heard_snapshots_fourRequests : ∃ trace feed, FeedRun 1 2 [nflx] trace feed ∧
    feed.heard 30001 = [.ok (shownAfter nflx fourOrders), .ok (shownAfter nflx [firstBidOrder])] ∧
    ∀ x ∈ feed.heard 30001, ∃ symbol ∈ [nflx].map MarketBook.symBytes,
      30001 = 30001 + shardOf 1 symbol ∧
      ∃ n, (1 ≤ n ∧ n ≤ (processedFor symbol trace).length) ∧
        x = .ok (shownAfter symbol ((processedFor symbol trace).take n)) := by
  obtain ⟨trace, feed, run, reqs, arrived, counted⟩ := fourRequests_feed
  have small : feed.exchange.server.market.currentId ≤ 2 ^ 32 := by omega
  have listed : nflx ∈ [nflx].map MarketBook.symBytes := by decide
  have last := getSnapshot_arrived (by decide) (by decide) run small listed 4
  have first := getSnapshot_arrived (by decide) (by decide) run small listed 1
  rw [reqs] at last first
  refine ⟨trace, feed, run, ?_, heard_snapshots (by decide) (by decide) run small 30001⟩
  unfold Feed.heard
  rw [arrived, List.filter_cons_of_pos (by decide), List.filter_cons_of_pos (by decide),
    List.filter_nil, List.map_cons, List.map_cons, List.map_nil]
  exact congrArg₂ _ last (congrArg₂ _ first rfl)

/-- There is one snapshot of a symbol for each of its requests. It is sent once at most, and
    what has not been sent is still with its thread. -/
theorem snapshots_sent_once (pos : 0 < shards) (threaded : 1 ≤ threads)
    (run : FeedRun shards threads symbols trace feed) :
    feed.net.sent.Nodup ∧ (∀ b ∈ feed.net.received, b ∈ feed.net.sent) ∧
    ∀ symbol ∈ symbols.map MarketBook.symBytes,
      ((feed.net.waiting ++ feed.net.sent).filter fun b => b.symbol = symbol).Perm
        (tape shards symbol (processedFor symbol trace)) := by
  have follows := follows_run pos threaded run
  have accounts := accounts_run run
  refine ⟨accounts.sent_once follows.posted_nodup, accounts.authentic, ?_⟩
  intro symbol listed
  obtain ⟨e, _, kept⟩ := follows.listed symbol listed
  rw [← kept.posts]
  exact accounts.once.filter _

theorem snapshots_sent_once_fourRequests : ∃ trace feed, FeedRun 1 2 [nflx] trace feed ∧
    feed.net.sent.Nodup ∧ (∀ b ∈ feed.net.received, b ∈ feed.net.sent) ∧
    feed.net.received = [broadcastOf 1 nflx fourOrders, broadcastOf 1 nflx [firstBidOrder]] ∧
    ((feed.net.waiting ++ feed.net.sent).filter fun b => b.symbol = nflx).Perm
      (tape 1 nflx fourOrders) := by
  obtain ⟨trace, feed, run, reqs, arrived, _⟩ := fourRequests_feed
  obtain ⟨once, authentic, all⟩ := snapshots_sent_once (by decide) (by decide) run
  have own := all nflx (by decide)
  rw [reqs] at own
  exact ⟨trace, feed, run, once, authentic, arrived, own⟩

namespace LiveBook

theorem OneWindow.take {k : Int} {orders : List Order} (h : OneWindow k orders) (n : Nat) :
    OneWindow k (orders.take n) := by
  have fewer : (accepted (orders.take n)).Sublist (accepted orders) :=
    (List.take_sublist n orders).filterMap _
  constructor
  · exact fun o member => h.window o (fewer.subset member)
  · exact fun o member => h.positive o (fewer.subset member)

end LiveBook

def realOrders (side : List ClientOrder) : List ClientOrder :=
  side.filter fun c => c.orderId ≠ 0

theorem realOrders_shown (l : List Order) :
    (realOrders ((snapshotSide l).map Order.client)).Sublist (l.map Order.client) := by
  unfold realOrders snapshotSide
  rw [List.map_append, List.filter_append, List.map_replicate, List.filter_replicate,
    if_neg (by decide), List.append_nil]
  exact List.filter_sublist.trans ((List.take_sublist _ l).map _)

/-- While a symbol trades in one window, every subscriber sees its sides in the order of their
    prices, and its bids below its asks. -/
theorem heard_uncrossed (pos : 0 < shards) (threaded : 1 ≤ threads)
    (run : FeedRun shards threads symbols trace feed)
    (small : feed.exchange.server.market.currentId ≤ 2 ^ 32) {k : Int}
    (one : LiveBook.OneWindow k (processedFor symbol trace)) (port : Nat) :
    ∀ c, .ok c ∈ feed.heard port → c.symbol = symbol →
      (realOrders c.buySide).Pairwise (fun a b => b.priceLevel ≤ a.priceLevel) ∧
      (realOrders c.sellSide).Pairwise (fun a b => a.priceLevel ≤ b.priceLevel) ∧
      ∀ bid ∈ realOrders c.buySide, ∀ ask ∈ realOrders c.sellSide,
        bid.priceLevel < ask.priceLevel := by
  intro c heard own
  obtain ⟨b, member, decoded⟩ := List.mem_map.mp heard
  obtain ⟨symbol', listed, n, _, rfl⟩ := arrived_tape pos threaded run (List.mem_filter.mp member).1
  rw [getSnapshot_arrived pos threaded run small listed n] at decoded
  cases decoded
  obtain rfl : symbol' = symbol := own
  obtain ⟨_, settled, still⟩ := LiveBook.run_requests _ (LiveBook.inWindow_new k) rfl (one.take n)
  have bids := pairwise_price (settled.ranked .buy) (settled.window .buy)
  have asks := pairwise_price (settled.ranked .sell) (settled.window .sell)
  refine ⟨?_, ?_, ?_⟩
  · apply List.Pairwise.sublist (realOrders_shown _)
    exact List.pairwise_map.mpr bids
  · apply List.Pairwise.sublist (realOrders_shown _)
    exact List.pairwise_map.mpr asks
  · intro bid hb ask ha
    obtain ⟨y, hy, rfl⟩ := List.mem_map.mp ((realOrders_shown _).subset hb)
    obtain ⟨x, hx, rfl⟩ := List.mem_map.mp ((realOrders_shown _).subset ha)
    exact Int.not_le.mp (settled.apart still .buy y hy x hx)

theorem heard_uncrossed_fourRequests : ∃ trace feed, FeedRun 1 2 [nflx] trace feed ∧
    .ok (shownAfter nflx [firstBidOrder]) ∈ feed.heard 30001 ∧
    ∀ c, .ok c ∈ feed.heard 30001 → c.symbol = nflx →
      (realOrders c.buySide).Pairwise (fun a b => b.priceLevel ≤ a.priceLevel) ∧
      (realOrders c.sellSide).Pairwise (fun a b => a.priceLevel ≤ b.priceLevel) ∧
      ∀ bid ∈ realOrders c.buySide, ∀ ask ∈ realOrders c.sellSide,
        bid.priceLevel < ask.priceLevel := by
  obtain ⟨trace, feed, run, reqs, arrived, counted⟩ := fourRequests_feed
  have small : feed.exchange.server.market.currentId ≤ 2 ^ 32 := by omega
  have one : LiveBook.OneWindow 0 (processedFor nflx trace) := by
    rw [reqs]
    constructor <;> decide
  have first := getSnapshot_arrived (by decide) (by decide) run small
    (by decide : nflx ∈ [nflx].map MarketBook.symBytes) 1
  rw [reqs] at first
  refine ⟨trace, feed, run, ?_, heard_uncrossed (by decide) (by decide) run small one 30001⟩
  refine List.mem_map.mpr ⟨broadcastOf 1 nflx [firstBidOrder], ?_, first⟩
  rw [arrived, List.filter_cons_of_pos (by decide), List.filter_cons_of_pos (by decide)]
  simp

end Heard

end MarketBookExchange
