import MarketBookExchange.Enums

/- The wire codecs of the server. The field widths are the four macros that server,
   client and subscriber share; the configured ones are `widths`. -/
namespace MarketBookExchange

structure Widths where
  symbol : Nat
  qty : Nat
  price : Nat
  id : Nat

def widths : Widths := ⟨symbolBytes, qtyBytes, priceBytes, idBytes⟩

def Widths.frame (w : Widths) : Nat := 2 + w.symbol + w.qty + w.price + w.id

/-- `message[i]`. The index that equals the length counts as past the end too: C++ answers it
    with the terminator 0, which is no byte that was read. -/
def readByte (message : List UInt8) (i : Nat) : Except Fault UInt8 :=
  match message[i]? with
  | some b => .ok b
  | none => .error .readPastEnd

/-- The bytes from index `last` downwards. Each is promoted to a 32-bit int before the
    shift, and the shifted int is sign extended to 64 bits. -/
def byteLoop (message : List UInt8) (last : Nat) :
    Nat → Nat → BitVec 64 → Except Fault (BitVec 64)
  | 0, _, ans => .ok ans
  | n + 1, cnt, ans => do
    let byte ← readByte message (last - cnt)
    if 8 * cnt ≥ 32 then throw Fault.shiftRange
    byteLoop message last n (cnt + 1)
      (ans ||| (byte.toBitVec.setWidth 32 <<< (8 * cnt)).signExtend 64)

def byteConversion (message : List UInt8) (first last : Nat) : Except Fault Int := do
  let ans ← byteLoop message last (last + 1 - first) 0 0
  pure ans.toInt

def readSymbol (message : List UInt8) (first count : Nat) : Except Fault (List UInt8) :=
  (List.range count).mapM fun i => readByte message (first + i)

def readSide (message : List UInt8) : Except Fault OrderType := do
  let side ← readByte message 1
  pure (if side = 'B'.toUInt8 then .buy else .sell)

def decodeSendOrder (w : Widths) (message : List UInt8) : Except Fault Order := do
  let orderType ← readSide message
  let symbol ← readSymbol message 2 w.symbol
  let qty ← byteConversion message (w.symbol + 2) (w.symbol + w.qty + 1)
  let priceLevel ← byteConversion message (w.symbol + w.qty + 2) (w.symbol + w.qty + w.price + 1)
  pure { orderType, requestType := .sendOrder, symbol, qty, priceLevel }

def decodeKillOrder (w : Widths) (message : List UInt8) : Except Fault Order := do
  let symbol ← readSymbol message 1 w.symbol
  let delId ← byteConversion message (w.symbol + 1) (w.symbol + w.id)
  -- The source leaves `order_type` of a KILL uninitialised; here it is the default, sell.
  pure { requestType := .killOrder, symbol, delId }

def decodeModifyOrder (w : Widths) (message : List UInt8) : Except Fault Order := do
  let orderType ← readSide message
  let symbol ← readSymbol message 2 w.symbol
  let qty ← byteConversion message (w.symbol + 2) (w.symbol + w.qty + 1)
  let priceLevel ← byteConversion message (w.symbol + w.qty + 2) (w.symbol + w.qty + w.price + 1)
  let delId ← byteConversion message (w.symbol + w.qty + w.price + 2)
    (w.symbol + w.qty + w.price + w.id + 1)
  pure { orderType, requestType := .modifyOrder, symbol, qty, priceLevel, delId }

/-- `while (number > 0)`: the low byte is pushed first. A long long has 8 bytes. -/
def pushBytes : Nat → Int → List UInt8
  | 0, _ => []
  | fuel + 1, number =>
    if number > 0 then UInt8.ofNat (number % 256).toNat :: pushBytes fuel (number / 256) else []

def numberToBytes (number : Int) (numBytes : Nat) : List UInt8 :=
  let msg := pushBytes 8 number
  (msg ++ List.replicate (numBytes - msg.length) 0).reverse

inductive Response where
  | ack (order : Order) (requestTypeChar : UInt8)
  | fullFill (order : Order) (fillQty fillPrice : Int)
  | partialFill (order : Order) (fillQty remainingQty fillPrice : Int)
  | killConfirm (order : Order)
  | error (code : Int)
  deriving DecidableEq, Repr

def sideChar (order : Order) : UInt8 :=
  if order.orderType = .buy then 'B'.toUInt8 else 'S'.toUInt8

def Response.encode (w : Widths) : Response → List UInt8
  | .ack order c =>
    ['A'.toUInt8, c, sideChar order] ++ order.symbol.take w.symbol ++
      numberToBytes order.qty w.qty ++ numberToBytes order.priceLevel w.price ++
      numberToBytes order.orderId w.id ++ numberToBytes order.delId w.id
  | .fullFill order fillQty fillPrice =>
    ['F'.toUInt8, sideChar order] ++ order.symbol.take w.symbol ++
      numberToBytes order.orderId w.id ++ numberToBytes fillQty w.qty ++
      numberToBytes fillPrice w.price
  | .partialFill order fillQty remainingQty fillPrice =>
    ['P'.toUInt8, sideChar order] ++ order.symbol.take w.symbol ++
      numberToBytes order.orderId w.id ++ numberToBytes fillQty w.qty ++
      numberToBytes remainingQty w.qty ++ numberToBytes fillPrice w.price
  | .killConfirm order =>
    ['K'.toUInt8] ++ order.symbol.take w.symbol ++
      numberToBytes order.orderId w.id ++ numberToBytes order.qty w.qty
  | .error code => ['J'.toUInt8] ++ numberToBytes code 4

def Response.orderId? : Response → Option Int
  | .ack order _ => some order.orderId
  | .fullFill order _ _ => some order.orderId
  | .partialFill order _ _ _ => some order.orderId
  | .killConfirm order => some order.orderId
  | .error _ => none

end MarketBookExchange
