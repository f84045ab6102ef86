import MarketBookExchange.ClientRequests
import MarketBookExchange.ResponseFraming

/- The layout of the requests: the three decoders of the server, with whatever reads the
   numbers, and the bytes that each of them finds where the client wrote a field. -/
namespace MarketBookExchange
open Outcome

/-- What the three decoders read, with the numbers as `α`. -/
inductive Decoded (α : Type) where
  | sendOrder (orderType : OrderType) (symbol : List UInt8) (qty priceLevel : α)
  | killOrder (symbol : List UInt8) (delId : α)
  | modifyOrder (orderType : OrderType) (symbol : List UInt8) (qty priceLevel delId : α)
  deriving DecidableEq, Repr

def Decoded.order : Decoded Int → Order
  | sendOrder orderType symbol qty priceLevel =>
    { requestType := .sendOrder, orderType, symbol, qty, priceLevel }
  | killOrder symbol delId => { requestType := .killOrder, symbol, delId }
  | modifyOrder orderType symbol qty priceLevel delId =>
    { requestType := .modifyOrder, orderType, symbol, qty, priceLevel, delId }

def Decoded.readEach {α β : Type} (read : α → Except Fault β) :
    Decoded α → Except Fault (Decoded β)
  | sendOrder orderType symbol qty priceLevel => do
    pure (.sendOrder orderType symbol (← read qty) (← read priceLevel))
  | killOrder symbol delId => do
    pure (.killOrder symbol (← read delId))
  | modifyOrder orderType symbol qty priceLevel delId => do
    pure (.modifyOrder orderType symbol (← read qty) (← read priceLevel) (← read delId))

/- `convert` is `byte_conversion` on the message, from its first to its last index. -/
section Decoders
variable {α : Type} (w : Widths) (convert : Nat → Nat → Except Fault α) (message : List UInt8)

def decodeSendOrderWith : Except Fault (Decoded α) := do
  let orderType ← readSide message
  let symbol ← readSymbol message 2 w.symbol
  let qty ← convert (w.symbol + 2) (w.symbol + w.qty + 1)
  let priceLevel ← convert (w.symbol + w.qty + 2) (w.symbol + w.qty + w.price + 1)
  pure (.sendOrder orderType symbol qty priceLevel)

def decodeKillOrderWith : Except Fault (Decoded α) := do
  let symbol ← readSymbol message 1 w.symbol
  let delId ← convert (w.symbol + 1) (w.symbol + w.id)
  pure (.killOrder symbol delId)

def decodeModifyOrderWith : Except Fault (Decoded α) := do
  let orderType ← readSide message
  let symbol ← readSymbol message 2 w.symbol
  let qty ← convert (w.symbol + 2) (w.symbol + w.qty + 1)
  let priceLevel ← convert (w.symbol + w.qty + 2) (w.symbol + w.qty + w.price + 1)
  let delId ← convert (w.symbol + w.qty + w.price + 2) (w.symbol + w.qty + w.price + w.id + 1)
  pure (.modifyOrder orderType symbol qty priceLevel delId)

theorem decodeSendOrder_eq : decodeSendOrder w message =
    Decoded.order <$> decodeSendOrderWith w (byteConversion message) message := by
  unfold decodeSendOrder decodeSendOrderWith
  simp only [map_bind, map_pure]
  rfl

theorem decodeKillOrder_eq : decodeKillOrder w message =
    Decoded.order <$> decodeKillOrderWith w (byteConversion message) message := by
  unfold decodeKillOrder decodeKillOrderWith
  simp only [map_bind, map_pure]
  rfl

theorem decodeModifyOrder_eq : decodeModifyOrder w message =
    Decoded.order <$> decodeModifyOrderWith w (byteConversion message) message := by
  unfold decodeModifyOrder decodeModifyOrderWith
  simp only [map_bind, map_pure]
  rfl

end Decoders

namespace Request

def decoder : Request → Widths → List UInt8 → Except Fault Order
  | sendOrder .. => decodeSendOrder
  | sendModify .. => decodeModifyOrder
  | sendKill .. => decodeKillOrder

def decoderWith {α : Type} : Request → Widths → (Nat → Nat → Except Fault α) → List UInt8 →
    Except Fault (Decoded α)
  | sendOrder .. => decodeSendOrderWith
  | sendModify .. => decodeModifyOrderWith
  | sendKill .. => decodeKillOrderWith

theorem decoder_eq (request : Request) (w : Widths) (message : List UInt8) :
    request.decoder w message =
      Decoded.order <$> request.decoderWith w (byteConversion message) message := by
  cases request with
  | sendOrder => exact decodeSendOrder_eq w message
  | sendModify => exact decodeModifyOrder_eq w message
  | sendKill => exact decodeKillOrder_eq w message

/-- Its symbol has the width of symbols, and its numbers fit their fields. -/
def Sendable (w : Widths) : Request → Prop
  | sendOrder _ symbol priceLevel qty =>
    symbol.length = w.symbol ∧ FitsBytes w.qty qty ∧ FitsBytes w.price priceLevel
  | sendModify _ symbol orderId priceLevel qty =>
    symbol.length = w.symbol ∧ FitsBytes w.qty qty ∧ FitsBytes w.price priceLevel ∧
      FitsBytes w.id orderId
  | sendKill symbol orderId => symbol.length = w.symbol ∧ FitsBytes w.id orderId

def written (w : Widths) : Request → Decoded (List UInt8)
  | sendOrder orderType symbol priceLevel qty => .sendOrder (sideOf orderType) symbol
    (numberToBytes qty w.qty) (numberToBytes priceLevel w.price)
  | sendModify orderType symbol orderId priceLevel qty => .modifyOrder (sideOf orderType) symbol
    (numberToBytes qty w.qty) (numberToBytes priceLevel w.price) (numberToBytes orderId w.id)
  | sendKill symbol orderId => .killOrder symbol (numberToBytes orderId w.id)

end Request

section Layout
variable {α : Type} {w : Widths} {message : List UInt8} {convert : Nat → Nat → Except Fault α}
variable {read : List UInt8 → Except Fault α}

theorem ReadsFields.range (reads : ReadsFields message convert read)
    {front bytes rest : List UInt8} (layout : message = front ++ (bytes ++ rest)) {first last : Nat}
    (offset : front.length = first) (ends : last + 1 = first + bytes.length)
    (positive : 1 ≤ bytes.length) : convert first last = read bytes := by
  have here := (reads.next layout offset rfl positive).1
  rwa [show first + bytes.length - 1 = last by omega] at here

theorem readSymbol_append {front symbol rest : List UInt8} {first : Nat}
    (layout : message = front ++ (symbol ++ rest)) (offset : front.length = first)
    (size : symbol.length = w.symbol) : readSymbol message first w.symbol = .ok symbol := by
  apply (readSymbol_eq message first size).mpr
  rw [layout, ← offset, ← size]
  exact field_append front symbol rest

variable {letter orderType : UInt8} {symbol qty price id rest : List UInt8}

theorem sideToPrice_reads (reads : ReadsFields message convert read)
    (positive : 1 ≤ w.qty ∧ 1 ≤ w.price) (symbolSize : symbol.length = w.symbol)
    (qtySize : qty.length = w.qty) (priceSize : price.length = w.price)
    (layout : message = [letter, orderType] ++ (symbol ++ (qty ++ (price ++ rest)))) :
    readSide message = .ok (sideOf orderType) ∧
    readSymbol message 2 w.symbol = .ok symbol ∧
    convert (w.symbol + 2) (w.symbol + w.qty + 1) = read qty ∧
    convert (w.symbol + w.qty + 2) (w.symbol + w.qty + w.price + 1) = read price := by
  obtain ⟨hasQty, hasPrice⟩ := positive
  have first : message = ([letter, orderType] ++ symbol) ++ (qty ++ (price ++ rest)) := by
    rw [layout, List.append_assoc]
  have second : message = ([letter, orderType] ++ symbol ++ qty) ++ (price ++ rest) := by
    rw [first]
    simp only [List.append_assoc]
  constructor
  · rw [readSide_iff, layout]
    exact ⟨orderType, rfl, rfl⟩
  constructor
  · exact readSymbol_append layout rfl symbolSize
  constructor
  · apply reads.range first
    · simp [symbolSize]
    · omega
    · omega
  · apply reads.range second
    · simp [symbolSize, qtySize]
    · omega
    · omega

theorem decodeSendOrderWith_reads (reads : ReadsFields message convert read)
    (positive : 1 ≤ w.qty ∧ 1 ≤ w.price) (symbolSize : symbol.length = w.symbol)
    (qtySize : qty.length = w.qty) (priceSize : price.length = w.price)
    (layout : message = [letter, orderType] ++ (symbol ++ (qty ++ (price ++ rest)))) :
    decodeSendOrderWith w convert message =
      (Decoded.sendOrder (sideOf orderType) symbol qty price).readEach read := by
  obtain ⟨sideRead, symbolRead, qtyRead, priceRead⟩ :=
    sideToPrice_reads reads positive symbolSize qtySize priceSize layout
  unfold decodeSendOrderWith Decoded.readEach
  simp only [sideRead, symbolRead, qtyRead, priceRead, ok_bind]

theorem decodeModifyOrderWith_reads (reads : ReadsFields message convert read)
    (positive : 1 ≤ w.qty ∧ 1 ≤ w.price ∧ 1 ≤ w.id) (symbolSize : symbol.length = w.symbol)
    (qtySize : qty.length = w.qty) (priceSize : price.length = w.price)
    (idSize : id.length = w.id)
    (layout : message = [letter, orderType] ++ (symbol ++ (qty ++ (price ++ (id ++ rest))))) :
    decodeModifyOrderWith w convert message =
      (Decoded.modifyOrder (sideOf orderType) symbol qty price id).readEach read := by
  obtain ⟨hasQty, hasPrice, hasId⟩ := positive
  obtain ⟨sideRead, symbolRead, qtyRead, priceRead⟩ :=
    sideToPrice_reads reads ⟨hasQty, hasPrice⟩ symbolSize qtySize priceSize layout
  have third : message =
      ([letter, orderType] ++ symbol ++ qty ++ price) ++ (id ++ rest) := by
    rw [layout]
    simp only [List.append_assoc]
  have idRead : convert (w.symbol + w.qty + w.price + 2) (w.symbol + w.qty + w.price + w.id + 1) =
      read id := by
    apply reads.range third
    · simp [symbolSize, qtySize, priceSize]
      omega
    · omega
    · omega
  unfold decodeModifyOrderWith Decoded.readEach
  simp only [sideRead, symbolRead, qtyRead, priceRead, idRead, ok_bind]

theorem decodeKillOrderWith_reads (reads : ReadsFields message convert read) (positive : 1 ≤ w.id)
    (symbolSize : symbol.length = w.symbol) (idSize : id.length = w.id)
    (layout : message = [letter] ++ (symbol ++ (id ++ rest))) :
    decodeKillOrderWith w convert message = (Decoded.killOrder symbol id).readEach read := by
  have symbolRead : readSymbol message 1 w.symbol = .ok symbol := readSymbol_append layout rfl symbolSize
  have first : message = ([letter] ++ symbol) ++ (id ++ rest) := by rw [layout, List.append_assoc]
  have idRead : convert (w.symbol + 1) (w.symbol + w.id) = read id := by
    apply reads.range first
    · simp [symbolSize]
    · omega
    · omega
  unfold decodeKillOrderWith Decoded.readEach
  simp only [symbolRead, idRead, ok_bind]

theorem padMessage_length {message : List UInt8} (short : message.length ≤ w.frame) :
    (padMessage w message).length = w.frame := by
  unfold padMessage
  rw [List.length_append, List.length_replicate]
  omega

namespace Request
variable {request : Request}

theorem fields_length (sendable : request.Sendable w) :
    (request.fields w).length ≤ w.frame := by
  unfold Widths.frame
  cases request with
  | sendOrder orderType symbol priceLevel qty =>
    obtain ⟨symbolFits, qtyFits, priceFits⟩ := sendable
    simp [fields, symbolFits, length_written qtyFits, length_written priceFits]
    omega
  | sendModify orderType symbol orderId priceLevel qty =>
    obtain ⟨symbolFits, qtyFits, priceFits, idFits⟩ := sendable
    simp [fields, symbolFits, length_written qtyFits, length_written priceFits, length_written idFits]
    omega
  | sendKill symbol orderId =>
    obtain ⟨symbolFits, idFits⟩ := sendable
    simp [fields, symbolFits, length_written idFits]
    omega

/-- Whatever reads the numbers is given the bytes that were written for each. -/
theorem decoderWith_frame (positive : 1 ≤ w.qty ∧ 1 ≤ w.price ∧ 1 ≤ w.id)
    (sendable : request.Sendable w) (reads : ReadsFields (request.frame w) convert read) :
    request.decoderWith w convert (request.frame w) = (request.written w).readEach read := by
  obtain ⟨hasQty, hasPrice, hasId⟩ := positive
  cases request with
  | sendOrder orderType symbol priceLevel qty =>
    obtain ⟨symbolFits, qtyFits, priceFits⟩ := sendable
    apply decodeSendOrderWith_reads reads ⟨hasQty, hasPrice⟩ symbolFits
    · exact length_written qtyFits
    · exact length_written priceFits
    · unfold frame padMessage fields
      simp only [List.append_assoc]
      rfl
  | sendModify orderType symbol orderId priceLevel qty =>
    obtain ⟨symbolFits, qtyFits, priceFits, idFits⟩ := sendable
    apply decodeModifyOrderWith_reads reads ⟨hasQty, hasPrice, hasId⟩ symbolFits
    · exact length_written qtyFits
    · exact length_written priceFits
    · exact length_written idFits
    · unfold frame padMessage fields
      simp only [List.append_assoc]
      rfl
  | sendKill symbol orderId =>
    obtain ⟨symbolFits, idFits⟩ := sendable
    apply decodeKillOrderWith_reads reads hasId symbolFits
    · exact length_written idFits
    · unfold frame padMessage fields
      simp only [List.append_assoc]
      rfl

theorem decodeRequest_frame (w : Widths) (request : Request) :
    decodeRequest w (request.frame w) = some <$> request.decoder w (request.frame w) := by
  cases request <;> rfl

end Request

/-- Every frame of the client has the size of the server's read, selects its decoder, and
    gives `byte_conversion` the bytes that `number_to_bytes` wrote for each number. -/
theorem request_layout_agrees (positive : 1 ≤ w.symbol ∧ 1 ≤ w.qty ∧ 1 ≤ w.price ∧ 1 ≤ w.id)
    (request : Request) (sendable : request.Sendable w) :
    (request.frame w).length = 2 + w.symbol + w.qty + w.price + w.id ∧
    decodeRequest w (request.frame w) = some <$> request.decoder w (request.frame w) ∧
    request.decoderWith w (fun first last => .ok (field (request.frame w) first
      (last + 1 - first))) (request.frame w) = .ok (request.written w) ∧
    request.decoder w (request.frame w) = Decoded.order <$>
      (request.written w).readEach fun bytes => byteConversion bytes 0 (bytes.length - 1) := by
  constructor
  · exact padMessage_length (Request.fields_length sendable)
  constructor
  · exact request.decodeRequest_frame w
  constructor
  · rw [Request.decoderWith_frame positive.2 sendable (slices_reads _)]
    cases request <;> rfl
  · rw [request.decoder_eq, Request.decoderWith_frame positive.2 sendable (byteConversion_reads _)]

/-- A MODIFY with an id of two bytes and a price of three. -/
theorem request_layout_agrees_modify :
    (Request.sendModify 'S'.toUInt8 [84, 83, 76, 65] 258 66051 7).decoderWith ⟨4, 1, 3, 2⟩
      (fun first last => .ok (field ((Request.sendModify 'S'.toUInt8 [84, 83, 76, 65] 258 66051
        7).frame ⟨4, 1, 3, 2⟩) first (last + 1 - first)))
      ((Request.sendModify 'S'.toUInt8 [84, 83, 76, 65] 258 66051 7).frame ⟨4, 1, 3, 2⟩) =
    .ok (.modifyOrder .sell [84, 83, 76, 65] [7] [1, 2, 3] [1, 2]) := by
  have sendable : (Request.sendModify 'S'.toUInt8 [84, 83, 76, 65] 258 66051 7).Sendable
      ⟨4, 1, 3, 2⟩ := by
    unfold Request.Sendable FitsBytes
    decide
  exact (request_layout_agrees (by decide) _ sendable).2.2.1

end Layout
end MarketBookExchange
