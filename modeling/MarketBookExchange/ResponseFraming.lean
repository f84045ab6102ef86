import MarketBookExchange.ClientConversions
import MarketBookExchange.NumberCodec

/- The client takes the stream of responses apart again, and finds in each body the bytes that
   `number_to_bytes` wrote for each field. -/
namespace MarketBookExchange
open BigEndian Frames Outcome

namespace Response

def frame (w : Widths) (response : Response) : Frame UInt8 :=
  ⟨(response.encode w).headD 0, (response.encode w).tail⟩

theorem frame_symbols (w : Widths) (response : Response) :
    (response.frame w).symbols = response.encode w := by
  cases response <;> rfl

/-- Its symbol has the width of symbols, and its numbers fit their fields. -/
def Sendable (w : Widths) : Response → Prop
  | ack order _ => order.symbol.length = w.symbol ∧ FitsBytes w.qty order.qty ∧
    FitsBytes w.price order.priceLevel ∧ FitsBytes w.id order.orderId ∧ FitsBytes w.id order.delId
  | fullFill order fillQty fillPrice => order.symbol.length = w.symbol ∧
    FitsBytes w.id order.orderId ∧ FitsBytes w.qty fillQty ∧ FitsBytes w.price fillPrice
  | partialFill order fillQty remainingQty fillPrice => order.symbol.length = w.symbol ∧
    FitsBytes w.id order.orderId ∧ FitsBytes w.qty fillQty ∧ FitsBytes w.qty remainingQty ∧
    FitsBytes w.price fillPrice
  | killConfirm order => order.symbol.length = w.symbol ∧ FitsBytes w.id order.orderId ∧
    FitsBytes w.qty order.qty
  | error code => FitsBytes 4 code

def written (w : Widths) : Response → Printed (List UInt8)
  | ack order c => .ack c (sideChar order) order.symbol (numberToBytes order.qty w.qty)
    (numberToBytes order.priceLevel w.price) (numberToBytes order.orderId w.id)
    (numberToBytes order.delId w.id)
  | fullFill order fillQty fillPrice => .fullFill (sideChar order) order.symbol
    (numberToBytes order.orderId w.id) (numberToBytes fillQty w.qty)
    (numberToBytes fillPrice w.price)
  | partialFill order fillQty remainingQty fillPrice => .partialFill (sideChar order)
    order.symbol (numberToBytes order.orderId w.id) (numberToBytes fillQty w.qty)
    (numberToBytes remainingQty w.qty) (numberToBytes fillPrice w.price)
  | killConfirm order => .killConfirm order.symbol (numberToBytes order.orderId w.id)
    (numberToBytes order.qty w.qty)
  | error code => .error (numberToBytes code 4)

end Response

def Printed.readEach {α β : Type} (read : α → Except Fault β) :
    Printed α → Except Fault (Printed β)
  | ack type side symbol qty price orderId delId => do
    pure (.ack type side symbol (← read qty) (← read price) (← read orderId) (← read delId))
  | fullFill side symbol orderId fillQty fillPrice => do
    pure (.fullFill side symbol (← read orderId) (← read fillQty) (← read fillPrice))
  | partialFill side symbol orderId fillQty remaining fillPrice => do
    pure (.partialFill side symbol (← read orderId) (← read fillQty) (← read remaining)
      (← read fillPrice))
  | killConfirm symbol orderId removedQty => do
    pure (.killConfirm symbol (← read orderId) (← read removedQty))
  | error code => do
    pure (.error (← read code))

/-- `convert`, from index to index of the body, reads the bytes there. -/
def ReadsFields {α : Type} (body : List UInt8) (convert : Nat → Nat → Except Fault α)
    (read : List UInt8 → Except Fault α) : Prop :=
  ∀ first count, 1 ≤ count → first + count ≤ body.length →
    convert first (first + count - 1) = read (field body first count)

section Conversion
variable {message : List UInt8} {first count : Nat}

theorem byteLoop_field (message : List UInt8) (first count n : Nat) : ∀ cnt ans,
    cnt + n ≤ count → byteLoop message (first + count - 1) n cnt ans =
      byteLoop (field message first count) (count - 1) n cnt ans := by
  induction n with
  | zero => exact fun _ _ _ => rfl
  | succ n ih =>
    intro cnt ans short
    have same : message[first + count - 1 - cnt]? = (field message first count)[count - 1 - cnt]? := by
      unfold field
      rw [List.getElem?_take, if_pos (by omega), List.getElem?_drop]
      congr 1
      omega
    unfold byteLoop readByte
    rw [same]
    congr 1
    funext byte
    simp only [ih (cnt + 1) _ (show cnt + 1 + n ≤ count by omega)]

/-- `byte_conversion` depends on nothing but the bytes between its two indices. -/
theorem byteConversion_field (positive : 1 ≤ count) :
    byteConversion message first (first + count - 1) =
      byteConversion (field message first count) 0 (count - 1) := by
  unfold byteConversion
  rw [show first + count - 1 + 1 - first = count by omega, show count - 1 + 1 - 0 = count by omega,
    byteLoop_field message first count count 0 0 (by omega)]

theorem byteConversion_reads (message : List UInt8) :
    ReadsFields message (byteConversion message)
      fun bytes => byteConversion bytes 0 (bytes.length - 1) := by
  intro first count present inside
  simp only
  rw [length_field inside]
  exact byteConversion_field present

theorem slices_reads (message : List UInt8) :
    ReadsFields message (fun first last => .ok (field message first (last + 1 - first))) .ok := by
  intro first count present inside
  simp only
  rw [show first + count - 1 + 1 - first = count by omega]

end Conversion

section Decoders
variable {α : Type} {w : Widths} {body : List UInt8} {convert : Nat → Nat → Except Fault α}
variable {read : List UInt8 → Except Fault α}

theorem ReadsFields.next (reads : ReadsFields body convert read) {front bytes rest : List UInt8}
    {off count : Nat} (layout : body = front ++ (bytes ++ rest)) (offset : front.length = off)
    (size : bytes.length = count) (positive : 1 ≤ count) :
    convert off (off + count - 1) = read bytes ∧ body = (front ++ bytes) ++ rest ∧
      (front ++ bytes).length = off + count := by
  refine ⟨?_, by rw [layout, List.append_assoc], by rw [List.length_append, offset, size]⟩
  have inside : off + count ≤ body.length := by
    rw [layout, List.length_append, List.length_append]
    omega
  rw [reads off count positive inside]
  congr 1
  rw [layout, ← offset, ← size]
  exact field_append front bytes rest

theorem symbol_next {front symbol rest : List UInt8} (off : Nat)
    (layout : body = (front ++ symbol) ++ rest) (offset : front.length = off)
    (size : symbol.length = w.symbol) : substr body off w.symbol = .ok symbol ∧
      (front ++ symbol).length = off + w.symbol := by
  refine ⟨?_, by rw [List.length_append, size, offset]⟩
  unfold substr
  rw [layout, ← size, ← offset, List.append_assoc,
    if_pos (by rw [List.length_append]; omega), List.drop_left, List.take_left]

variable {symbol qty price orderId delId fillQty remaining fillPrice : List UInt8}
variable {c side : UInt8}

theorem decodeAck_reads (reads : ReadsFields body convert read)
    (positive : 1 ≤ w.qty ∧ 1 ≤ w.price ∧ 1 ≤ w.id) (symbolSize : symbol.length = w.symbol)
    (qtySize : qty.length = w.qty) (priceSize : price.length = w.price)
    (idSize : orderId.length = w.id) (delSize : delId.length = w.id)
    (layout : body = ([c, side] ++ symbol) ++ (qty ++ (price ++ (orderId ++ (delId ++ []))))) :
    decodeAck w convert body =
      (Printed.ack c side symbol qty price orderId delId).readEach read := by
  obtain ⟨hasQty, hasPrice, hasId⟩ := positive
  have typeRead : readByte body 0 = .ok c := by rw [layout]; rfl
  have sideRead : readByte body 1 = .ok side := by rw [layout]; rfl
  obtain ⟨symbolRead, offset⟩ := symbol_next 2 layout rfl symbolSize
  obtain ⟨qtyRead, layout, offset⟩ := reads.next layout offset qtySize hasQty
  obtain ⟨priceRead, layout, offset⟩ := reads.next layout offset priceSize hasPrice
  obtain ⟨idRead, layout, offset⟩ := reads.next layout offset idSize hasId
  obtain ⟨delRead, _⟩ := reads.next layout offset delSize hasId
  unfold decodeAck Printed.readEach
  simp only [qtyRead, priceRead, idRead, delRead, typeRead, sideRead, symbolRead, ok_bind]

theorem decodeFullFill_reads (reads : ReadsFields body convert read)
    (positive : 1 ≤ w.qty ∧ 1 ≤ w.price ∧ 1 ≤ w.id) (symbolSize : symbol.length = w.symbol)
    (idSize : orderId.length = w.id) (qtySize : fillQty.length = w.qty)
    (priceSize : fillPrice.length = w.price)
    (layout : body = ([side] ++ symbol) ++ (orderId ++ (fillQty ++ (fillPrice ++ [])))) :
    decodeFullFill w convert body =
      (Printed.fullFill side symbol orderId fillQty fillPrice).readEach read := by
  obtain ⟨hasQty, hasPrice, hasId⟩ := positive
  have sideRead : readByte body 0 = .ok side := by rw [layout]; rfl
  obtain ⟨symbolRead, offset⟩ := symbol_next 1 layout rfl symbolSize
  obtain ⟨idRead, layout, offset⟩ := reads.next layout offset idSize hasId
  obtain ⟨qtyRead, layout, offset⟩ := reads.next layout offset qtySize hasQty
  obtain ⟨priceRead, _⟩ := reads.next layout offset priceSize hasPrice
  unfold decodeFullFill Printed.readEach
  simp only [qtyRead, priceRead, idRead, sideRead, symbolRead, ok_bind]

theorem decodePartialFill_reads (reads : ReadsFields body convert read)
    (positive : 1 ≤ w.qty ∧ 1 ≤ w.price ∧ 1 ≤ w.id) (symbolSize : symbol.length = w.symbol)
    (idSize : orderId.length = w.id) (qtySize : fillQty.length = w.qty)
    (leftSize : remaining.length = w.qty) (priceSize : fillPrice.length = w.price)
    (layout : body = ([side] ++ symbol) ++
      (orderId ++ (fillQty ++ (remaining ++ (fillPrice ++ []))))) :
    decodePartialFill w convert body =
      (Printed.partialFill side symbol orderId fillQty remaining fillPrice).readEach read := by
  obtain ⟨hasQty, hasPrice, hasId⟩ := positive
  have sideRead : readByte body 0 = .ok side := by rw [layout]; rfl
  obtain ⟨symbolRead, offset⟩ := symbol_next 1 layout rfl symbolSize
  obtain ⟨idRead, layout, offset⟩ := reads.next layout offset idSize hasId
  obtain ⟨qtyRead, layout, offset⟩ := reads.next layout offset qtySize hasQty
  obtain ⟨leftRead, layout, offset⟩ := reads.next layout offset leftSize hasQty
  obtain ⟨priceRead, _⟩ := reads.next layout offset priceSize hasPrice
  unfold decodePartialFill Printed.readEach
  simp only [qtyRead, leftRead, priceRead, idRead, sideRead, symbolRead, ok_bind]

theorem decodeKillConfirm_reads (reads : ReadsFields body convert read)
    (positive : 1 ≤ w.qty ∧ 1 ≤ w.id) (symbolSize : symbol.length = w.symbol)
    (idSize : orderId.length = w.id) (qtySize : qty.length = w.qty)
    (layout : body = ([] ++ symbol) ++ (orderId ++ (qty ++ []))) :
    decodeKillConfirm w convert body =
      (Printed.killConfirm symbol orderId qty).readEach read := by
  obtain ⟨hasQty, hasId⟩ := positive
  obtain ⟨symbolRead, offset⟩ := symbol_next 0 layout rfl symbolSize
  rw [Nat.zero_add] at offset
  obtain ⟨idRead, layout, offset⟩ := reads.next layout offset idSize hasId
  obtain ⟨qtyRead, _⟩ := reads.next layout offset qtySize hasQty
  unfold decodeKillConfirm Printed.readEach
  simp only [qtyRead, idRead, symbolRead, ok_bind]

theorem decodeError_reads (reads : ReadsFields body convert read) (size : body.length = 4) :
    decodeError convert = (Printed.error body).readEach read := by
  have shape : body = [] ++ (body ++ []) := by simp
  obtain ⟨codeRead, _⟩ := reads.next shape rfl size (by decide)
  have codeRead : convert 0 3 = read body := codeRead
  unfold decodeError Printed.readEach
  simp only [codeRead]

end Decoders

section Framing
variable {w : Widths} {α : Type}

theorem Response.decodes {response : Response} (sendable : response.Sendable w)
    (positive : 1 ≤ w.qty ∧ 1 ≤ w.price ∧ 1 ≤ w.id) {convert : Nat → Nat → Except Fault α}
    {read : List UInt8 → Except Fault α} (reads : ReadsFields (response.frame w).body convert read) :
    decodeResponse w convert (response.frame w).body (response.frame w).head =
      some <$> (response.written w).readEach read := by
  cases response with
  | ack order c =>
    obtain ⟨symbol, qty, price, id, del⟩ := sendable
    exact congrArg (some <$> ·) (decodeAck_reads reads positive symbol (length_written qty)
      (length_written price) (length_written id) (length_written del)
      (by simp [frame, encode, ← symbol]))
  | fullFill order fillQty fillPrice =>
    obtain ⟨symbol, id, qty, price⟩ := sendable
    exact congrArg (some <$> ·) (decodeFullFill_reads reads positive symbol (length_written id)
      (length_written qty) (length_written price) (by simp [frame, encode, ← symbol]))
  | partialFill order fillQty remainingQty fillPrice =>
    obtain ⟨symbol, id, qty, left, price⟩ := sendable
    exact congrArg (some <$> ·) (decodePartialFill_reads reads positive symbol (length_written id)
      (length_written qty) (length_written left) (length_written price)
      (by simp [frame, encode, ← symbol]))
  | killConfirm order =>
    obtain ⟨symbol, id, qty⟩ := sendable
    exact congrArg (some <$> ·) (decodeKillConfirm_reads reads ⟨positive.1, positive.2.2⟩ symbol
      (length_written id) (length_written qty) (by simp [frame, encode, ← symbol]))
  | error code => exact congrArg (some <$> ·) (decodeError_reads reads (length_written sendable))

theorem Response.responseBodyLength_head (w : Widths) (response : Response) :
    responseBodyLength w (response.frame w).head = match response with
      | .ack _ _ => 2 + w.symbol + w.qty + w.price + 2 * w.id
      | .fullFill _ _ _ => 1 + w.symbol + w.id + w.qty + w.price
      | .partialFill _ _ _ _ => 1 + w.symbol + w.id + 2 * w.qty + w.price
      | .killConfirm _ => w.symbol + w.id + w.qty
      | .error _ => 4 := by
  cases response <;> rfl

theorem Response.body_length {response : Response} (sendable : response.Sendable w) :
    (response.frame w).body.length = responseBodyLength w (response.frame w).head := by
  rw [response.responseBodyLength_head]
  cases response with
  | ack order c =>
    obtain ⟨symbol, qty, price, id, del⟩ := sendable
    simp [frame, encode, length_written qty, length_written price, length_written id,
      length_written del, symbol]
    omega
  | fullFill order fillQty fillPrice =>
    obtain ⟨symbol, id, qty, price⟩ := sendable
    simp [frame, encode, length_written qty, length_written price, length_written id, symbol]
    omega
  | partialFill order fillQty remainingQty fillPrice =>
    obtain ⟨symbol, id, qty, left, price⟩ := sendable
    simp [frame, encode, length_written qty, length_written left, length_written price,
      length_written id, symbol]
    omega
  | killConfirm order =>
    obtain ⟨symbol, id, qty⟩ := sendable
    simp [frame, encode, length_written qty, length_written id, symbol]
    omega
  | error code => exact length_written sendable

/-- With one width for all numbers no body is empty, and none outgrows the buffer. -/
theorem Response.body_bounds {n : Nat} (symbol : 1 ≤ w.symbol) (positive : 1 ≤ n)
    (common : w.qty = n ∧ w.price = n ∧ w.id = n) (response : Response) :
    1 ≤ responseBodyLength w (response.frame w).head ∧
      responseBodyLength w (response.frame w).head ≤ maxResponseBodyBytes w := by
  rw [response.responseBodyLength_head]
  unfold maxResponseBodyBytes
  cases response with
  | ack order c => simp only; omega
  | fullFill order fillQty fillPrice => simp only; omega
  | partialFill order fillQty remainingQty fillPrice => simp only; omega
  | killConfirm order => simp only; omega
  | error code => simp only; omega

/-- The client's listener splits what the server sends into the messages that were sent, and
    hands `byte_conversion` the bytes that `number_to_bytes` wrote for each field. -/
theorem client_reframes_responses {n : Nat} (symbol : 1 ≤ w.symbol) (positive : 1 ≤ n)
    (common : w.qty = n ∧ w.price = n ∧ w.id = n) (responses : List Response)
    (sendable : ∀ response ∈ responses, response.Sendable w) :
    (responses.map (Response.encode w)).flatten.foldl (clientTCPListener w) {} =
      ⟨none, responses.map (Response.frame w)⟩ ∧
    ∀ response ∈ responses,
      response.encode w = (response.frame w).head :: (response.frame w).body ∧
      (response.frame w).body.length ≤ maxResponseBodyBytes w ∧
      decodeResponse w (fun first last => .ok (field (response.frame w).body first
        (last + 1 - first))) (response.frame w).body (response.frame w).head =
        .ok (some (response.written w)) ∧
      decodeResponse w (byteConversion (response.frame w).body) (response.frame w).body
        (response.frame w).head = some <$> (response.written w).readEach fun bytes =>
          byteConversion bytes 0 (bytes.length - 1) := by
  have widths : 1 ≤ w.qty ∧ 1 ≤ w.price ∧ 1 ≤ w.id := by omega
  constructor
  · have symbols : responses.map (Response.encode w) =
        (responses.map (Response.frame w)).map Frame.symbols := by
      rw [List.map_map]
      exact List.map_congr_left fun r _ => (r.frame_symbols w).symm
    rw [symbols]
    apply read_frames
    intro frame member
    obtain ⟨response, sent, rfl⟩ := List.mem_map.mp member
    have sized := Response.body_length (sendable response sent)
    obtain ⟨has, small⟩ := response.body_bounds symbol positive common
    refine ⟨List.ne_nil_of_length_pos (by omega), ?_⟩
    unfold bodyRead
    simp only
    rw [if_neg (by omega), sized]
  · intro response sent
    have small := (response.body_bounds symbol positive common).2
    rw [← Response.body_length (sendable response sent)] at small
    refine ⟨(response.frame_symbols w).symm, small, ?_, ?_⟩
    · rw [response.decodes (sendable response sent) widths (slices_reads _)]
      cases response <;> rfl
    · exact response.decodes (sendable response sent) widths (byteConversion_reads _)

theorem client_reframes_responses_killConfirm :
    ([Response.killConfirm { symbol := [65, 65, 80, 76], orderId := 7, qty := 5 },
      .error invalidOrderId].map (Response.encode widths)).flatten.foldl
        (clientTCPListener widths) {} =
      ⟨none, [⟨'K'.toUInt8, [65, 65, 80, 76, 0, 0, 0, 7, 0, 0, 0, 5]⟩,
        ⟨'J'.toUInt8, [0, 0, 0, 104]⟩]⟩ := by
  have sendable : ∀ response ∈ [
      Response.killConfirm { symbol := [65, 65, 80, 76], orderId := 7, qty := 5 },
      .error invalidOrderId], response.Sendable widths := by
    intro response member
    rcases List.mem_cons.mp member with rfl | member
    · unfold Response.Sendable FitsBytes
      decide
    · rw [List.mem_singleton.mp member]
      unfold Response.Sendable FitsBytes
      decide
  exact (client_reframes_responses (by decide) (by decide) ⟨rfl, rfl, rfl⟩ _ sendable).1

end Framing
end MarketBookExchange
