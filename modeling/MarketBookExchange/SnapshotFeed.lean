import MarketBookExchange.NumberCodec

/- The snapshots that the server multicasts, and what a subscriber makes of them. The length of
   a snapshot is a parameter. -/
namespace MarketBookExchange
open BigEndian Outcome

def orderToBytes (w : Widths) (order : Order) : List UInt8 :=
  numberToBytes order.orderId w.id ++ numberToBytes order.priceLevel w.price ++
    numberToBytes order.qty w.qty

def snapshotToBytes (w : Widths) (len : Nat) (snapshot : ObSnapshot) (symbol : List UInt8)
    (seqLen : Int) : List UInt8 :=
  symbol ++ numberToBytes seqLen 8 ++ (snapshot.buySide.take len).flatMap (orderToBytes w) ++
    (snapshot.sellSide.take len).flatMap (orderToBytes w)

/-- What `SEND_BROADCAST` sends: the buffer ends at its size limit. -/
def sendBroadcast (w : Widths) (len : Nat) (snapshot : ObSnapshot) (symbol : List UInt8)
    (seqLen : Int) : List UInt8 :=
  (snapshotToBytes w len snapshot symbol seqLen).take (4 + 8 + 2 * (24 * len))

/-- What `receive_from` leaves of a datagram in `recv_buffer`. -/
def received (len : Nat) (datagram : List UInt8) : List UInt8 :=
  datagram.take (4 + 8 + 2 * (24 * len))

inductive SnapshotFault where
  | readPastEnd      -- a read at or past the end of the message
  | shiftOverflow    -- a shift to the left that a long long cannot hold
  deriving DecidableEq, Repr

/-- `for (i = begin; i < end; ++i)`, with `n` rounds to go. -/
def shiftLoop (message : List UInt8) : Nat → Nat → BitVec 64 → Except SnapshotFault (BitVec 64)
  | 0, _, ans => .ok ans
  | n + 1, i, ans =>
    match message[i]? with
    | none => .error .readPastEnd
    | some byte =>
      if ans.toNat * 2 ^ 8 ≥ 2 ^ 63 then .error .shiftOverflow
      else shiftLoop message n (i + 1) (ans <<< 8 ||| byte.toBitVec.setWidth 64)

/-- The subscriber's `byte_conversion`, up to the index `last` and without it. -/
def shiftConversion (message : List UInt8) (first last : Nat) : Except SnapshotFault Int := do
  let ans ← shiftLoop message (last - first) first 0
  pure ans.toInt

structure ClientOrder where
  priceLevel : Int := 0
  qty : Int := 0
  orderId : Int := 0
  deriving DecidableEq, Repr

structure ClientSnapshot where
  symbol : List UInt8
  buySide : List ClientOrder
  sellSide : List ClientOrder
  seqLen : Int := 0
  deriving DecidableEq, Repr

/-- The body of either loop over a side; the number is the new offset. -/
def getOrder (w : Widths) (message : List UInt8) (offset : Nat) :
    Except SnapshotFault (ClientOrder × Nat) := do
  let orderId ← shiftConversion message offset (offset + w.id)
  let offset := offset + w.id
  let priceLevel ← shiftConversion message offset (offset + w.price)
  let offset := offset + w.price
  let qty ← shiftConversion message offset (offset + w.qty)
  let offset := offset + w.qty
  pure ({ orderId, priceLevel, qty }, offset)

def getSide (w : Widths) (message : List UInt8) :
    Nat → Nat → Except SnapshotFault (List ClientOrder × Nat)
  | 0, offset => pure ([], offset)
  | n + 1, offset => do
    let (order, offset) ← getOrder w message offset
    let (orders, offset) ← getSide w message n offset
    pure (order :: orders, offset)

def getSnapshot (w : Widths) (len : Nat) (message : List UInt8) :
    Except SnapshotFault ClientSnapshot := do
  let symbol := message.take w.symbol
  let offset := w.symbol
  let seqLen ← shiftConversion message offset (offset + 8)
  let offset := offset + 8
  let (buySide, offset) ← getSide w message len offset
  let (sellSide, _) ← getSide w message len offset
  pure { symbol, buySide, sellSide, seqLen }

/-- The three fields of an order that a snapshot carries. -/
def Order.client (order : Order) : ClientOrder :=
  { orderId := order.orderId, priceLevel := order.priceLevel, qty := order.qty }

structure Order.Carried (w : Widths) (order : Order) : Prop where
  orderId : FitsBytes w.id order.orderId
  priceLevel : FitsBytes w.price order.priceLevel
  qty : FitsBytes w.qty order.qty

section Loop

theorem shift_byte {v : Nat} (b : UInt8) (small : v * 256 + b.toNat < 2 ^ 64) :
    BitVec.ofNat 64 v <<< 8 ||| b.toBitVec.setWidth 64 = BitVec.ofNat 64 (v * 256 + b.toNat) := by
  have byte : b.toNat < 256 := b.toNat_lt
  have shifted : v * 2 ^ 8 < 2 ^ 64 := lt_of_le_of_lt (Nat.le_add_right _ _) small
  apply BitVec.eq_of_toNat_eq
  simp only [BitVec.toNat_or, BitVec.toNat_ofNat, BitVec.toNat_shiftLeft, BitVec.toNat_setWidth,
    UInt8.toNat_toBitVec, Nat.shiftLeft_eq]
  rw [Nat.mod_eq_of_lt (by omega : v < 2 ^ 64), Nat.mod_eq_of_lt (by omega : b.toNat < 2 ^ 64),
    Nat.mod_eq_of_lt shifted, Nat.mod_eq_of_lt small, Nat.mul_comm v,
    ← Nat.two_pow_add_eq_or_of_lt byte, Nat.mul_comm]

/-- The loop has read `v` and comes to the bytes, which bring no shift out of range. -/
theorem shiftLoop_eq {message : List UInt8} {rest : List UInt8} (bytes : List UInt8) :
    ∀ (front : List UInt8) (v : Nat), message = front ++ (bytes ++ rest) →
      v * 256 ^ bytes.length + value bytes < 2 ^ 63 →
      shiftLoop message bytes.length front.length (BitVec.ofNat 64 v) =
        .ok (BitVec.ofNat 64 (v * 256 ^ bytes.length + value bytes)) := by
  induction bytes with
  | nil =>
    intro front v _ _
    simp [shiftLoop]
  | cons b bytes ih =>
    intro front v shape small
    have here : message[front.length]? = some b := by simp [shape]
    have power := Nat.one_le_pow bytes.length 256 (by decide)
    have total : v * 256 ^ (b :: bytes).length + value (b :: bytes) =
        (v * 256 + b.toNat) * 256 ^ bytes.length + value bytes := by
      rw [value_cons, List.length_cons, pow_succ]
      ring
    rw [total] at small ⊢
    have next : v * 256 + b.toNat < 2 ^ 63 := by nlinarith
    rw [List.length_cons, shiftLoop, here]
    simp only
    rw [BitVec.toNat_ofNat, Nat.mod_eq_of_lt (by omega), if_neg (by omega),
      shift_byte b (by omega)]
    have later := ih (front ++ [b]) (v * 256 + b.toNat) (by simp [shape]) small
    rwa [List.length_append] at later

theorem shiftConversion_next {message front rest : List UInt8} {off width : Nat} {number : Int}
    (layout : message = front ++ (numberToBytes number width ++ rest)) (offset : front.length = off)
    (fits : FitsBytes width number) : shiftConversion message off (off + width) = .ok number ∧
      message = (front ++ numberToBytes number width) ++ rest ∧
      (front ++ numberToBytes number width).length = off + width := by
  have size := length_written fits
  refine ⟨?_, by rw [layout, List.append_assoc], by rw [List.length_append, offset, size]⟩
  obtain ⟨low, small, long⟩ := fits
  have written : value (numberToBytes number width) = number.toNat := by
    rw [numberToBytes_eq (by omega), value_bytesOf]
  have run := shiftLoop_eq (numberToBytes number width) front 0 layout (by rw [written]; omega)
  rw [size, offset, written, Nat.zero_mul, Nat.zero_add] at run
  unfold shiftConversion
  rw [Nat.add_sub_cancel_left, show (0 : BitVec 64) = BitVec.ofNat 64 0 from rfl, run]
  simp only [ok_bind, pure_eq_ok]
  rw [BitVec.toInt_eq_toNat_of_lt, BitVec.toNat_ofNat, Nat.mod_eq_of_lt (by omega)]
  · rw [Int.toNat_of_nonneg low]
  · rw [BitVec.toNat_ofNat, Nat.mod_eq_of_lt (by omega)]
    omega

end Loop

section Snapshots
variable {w : Widths} {message front rest : List UInt8} {off : Nat}

theorem length_orderToBytes {order : Order} (carried : order.Carried w) :
    (orderToBytes w order).length = w.id + w.price + w.qty := by
  unfold orderToBytes
  rw [List.length_append, List.length_append, length_written carried.orderId,
    length_written carried.priceLevel, length_written carried.qty]

theorem getOrder_next {order : Order} (carried : order.Carried w)
    (layout : message = front ++ (orderToBytes w order ++ rest)) (offset : front.length = off) :
    getOrder w message off = .ok (order.client, off + (w.id + w.price + w.qty)) := by
  unfold orderToBytes at layout
  rw [List.append_assoc, List.append_assoc] at layout
  obtain ⟨orderId, layout, offset⟩ := shiftConversion_next layout offset carried.orderId
  obtain ⟨priceLevel, layout, offset⟩ := shiftConversion_next layout offset carried.priceLevel
  obtain ⟨qty, _⟩ := shiftConversion_next layout offset carried.qty
  rw [show off + (w.id + w.price + w.qty) = off + w.id + w.price + w.qty by omega]
  unfold getOrder
  simp only [orderId, priceLevel, qty, ok_bind, pure_eq_ok, Order.client]

theorem length_side (orders : List Order) (carried : ∀ order ∈ orders, order.Carried w) :
    (orders.flatMap (orderToBytes w)).length = orders.length * (w.id + w.price + w.qty) := by
  induction orders with
  | nil => simp
  | cons order orders ih =>
    rw [List.flatMap_cons, List.length_append, length_orderToBytes (carried order (by simp)),
      ih fun o member => carried o (List.mem_cons_of_mem _ member), List.length_cons,
      Nat.add_one_mul, Nat.add_comm]

theorem getSide_next (orders : List Order) : ∀ {front : List UInt8} {off : Nat},
    (∀ order ∈ orders, order.Carried w) →
    message = front ++ (orders.flatMap (orderToBytes w) ++ rest) → front.length = off →
    getSide w message orders.length off =
      .ok (orders.map Order.client, off + orders.length * (w.id + w.price + w.qty)) := by
  induction orders with
  | nil =>
    intro front off _ _ _
    simp [getSide, pure_eq_ok]
  | cons order orders ih =>
    intro front off carried shape offset
    have here := carried order (by simp)
    rw [List.flatMap_cons, List.append_assoc] at shape
    have one := getOrder_next here shape offset
    rw [← List.append_assoc] at shape
    have later := ih (fun o member => carried o (List.mem_cons_of_mem _ member)) shape
      (by rw [List.length_append, length_orderToBytes here, offset])
    rw [List.length_cons, getSide, one]
    simp only [ok_bind]
    rw [later]
    simp only [ok_bind, pure_eq_ok, List.map_cons, Nat.add_one_mul]
    congr 2
    omega

end Snapshots

/-- A subscriber reads the snapshot that the server encoded. The datagram is as long as the
    formula says, and neither buffer cuts it. -/
theorem snapshot_round_trip {w : Widths} {len : Nat} (idWidth : w.id ≤ 8)
    (priceWidth : w.price ≤ 8) (qtyWidth : w.qty ≤ 8) (symbolWidth : w.symbol = 4)
    {symbol : List UInt8} (four : symbol.length = 4) {seqLen : Int}
    (seq : 0 ≤ seqLen ∧ seqLen < 2 ^ 63) (snapshot : ObSnapshot)
    (buys : snapshot.buySide.length = len) (sells : snapshot.sellSide.length = len)
    (carried : ∀ order ∈ snapshot.buySide ++ snapshot.sellSide, order.Carried w) :
    (snapshotToBytes w len snapshot symbol seqLen).length =
      w.symbol + 8 + 2 * len * (w.id + w.price + w.qty) ∧
    received len (sendBroadcast w len snapshot symbol seqLen) =
      snapshotToBytes w len snapshot symbol seqLen ∧
    getSnapshot w len (snapshotToBytes w len snapshot symbol seqLen) =
      .ok { symbol, seqLen, buySide := snapshot.buySide.map Order.client,
            sellSide := snapshot.sellSide.map Order.client } := by
  have bids : ∀ order ∈ snapshot.buySide, order.Carried w :=
    fun order member => carried order (List.mem_append_left _ member)
  have asks : ∀ order ∈ snapshot.sellSide, order.Carried w :=
    fun order member => carried order (List.mem_append_right _ member)
  have seqFits : FitsBytes 8 seqLen := ⟨seq.1, by omega, seq.2⟩
  have bytes : snapshotToBytes w len snapshot symbol seqLen =
      symbol ++ (numberToBytes seqLen 8 ++ (snapshot.buySide.flatMap (orderToBytes w) ++
        (snapshot.sellSide.flatMap (orderToBytes w) ++ []))) := by
    unfold snapshotToBytes
    rw [List.take_of_length_le buys.le, List.take_of_length_le sells.le]
    simp only [List.append_assoc, List.append_nil]
  have size : (snapshotToBytes w len snapshot symbol seqLen).length =
      w.symbol + 8 + 2 * len * (w.id + w.price + w.qty) := by
    rw [bytes]
    simp only [List.length_append, List.length_nil, length_written seqFits,
      length_side _ bids, length_side _ asks, buys, sells, four, symbolWidth]
    ring
  have small : (snapshotToBytes w len snapshot symbol seqLen).length ≤ 4 + 8 + 2 * (24 * len) := by
    have order : 2 * len * (w.id + w.price + w.qty) ≤ 2 * len * 24 :=
      Nat.mul_le_mul_left _ (by omega)
    rw [size]
    omega
  refine ⟨size, ?_, ?_⟩
  · unfold received sendBroadcast
    rw [List.take_of_length_le small, List.take_of_length_le small]
  · have start : symbol.length = w.symbol := by omega
    obtain ⟨seqRead, shape, offset⟩ := shiftConversion_next bytes start seqFits
    have bidsRead := getSide_next snapshot.buySide bids shape offset
    rw [← List.append_assoc] at shape
    have asksRead := getSide_next snapshot.sellSide asks shape
      (by rw [List.length_append, length_side _ bids, offset])
    rw [buys] at bidsRead asksRead
    rw [sells] at asksRead
    have symbolRead : (snapshotToBytes w len snapshot symbol seqLen).take w.symbol = symbol := by
      rw [bytes, ← start, List.take_left]
    unfold getSnapshot
    simp only [seqRead, bidsRead, asksRead, symbolRead, ok_bind, pure_eq_ok]

/-- Bytes with the top bit set, on the bid side; the ask side is empty. -/
theorem snapshot_round_trip_highBytes :
    getSnapshot ⟨4, 8, 8, 8⟩ 1 (snapshotToBytes ⟨4, 8, 8, 8⟩ 1
      ⟨[{ orderId := 255, priceLevel := 2 ^ 62 + 128, qty := 2 ^ 31 }], [{}]⟩
      [65, 65, 80, 76] (2 ^ 63 - 1)) =
    .ok ⟨[65, 65, 80, 76], [{ orderId := 255, priceLevel := 2 ^ 62 + 128, qty := 2 ^ 31 }], [{}],
      2 ^ 63 - 1⟩ := by
  have carried : ∀ order : Order, order ∈ [
      { orderId := 255, priceLevel := 2 ^ 62 + 128, qty := 2 ^ 31 }] ++ [({} : Order)] →
      order.Carried ⟨4, 8, 8, 8⟩ := by
    intro order member
    rcases List.mem_cons.mp member with rfl | member
    · constructor <;> unfold FitsBytes <;> decide
    · rw [List.mem_singleton.mp member]
      constructor <;> unfold FitsBytes <;> decide
  exact (snapshot_round_trip (w := ⟨4, 8, 8, 8⟩) (by decide) (by decide) (by decide) rfl rfl
    (by decide) ⟨[{ orderId := 255, priceLevel := 2 ^ 62 + 128, qty := 2 ^ 31 }], [{}]⟩ rfl rfl
    carried).2.2

end MarketBookExchange
