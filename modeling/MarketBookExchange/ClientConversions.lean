import MarketBookExchange.Conversions
import MarketBookExchange.Lib.Frames

/- The client's side of the responses: how it cuts the stream and what it reads from each
   body. Its `byte_conversion` is the server's. -/
namespace MarketBookExchange
open Frames

def responseBodyLength (w : Widths) (type : UInt8) : Nat :=
  if type = 'A'.toUInt8 then 2 + w.symbol + w.qty + w.price + 2 * w.id
  else if type = 'F'.toUInt8 then 1 + w.symbol + w.id + w.qty + w.price
  else if type = 'P'.toUInt8 then 1 + w.symbol + w.id + 2 * w.qty + w.price
  else if type = 'K'.toUInt8 then w.symbol + w.id + w.qty
  else if type = 'J'.toUInt8 then 4
  else 0

def maxResponseBodyBytes (w : Widths) : Nat := 2 + w.symbol + w.qty + w.price + 2 * w.id

/-- How many bytes the listener reads after a type byte; 0: it reads the next type byte. -/
def bodyRead (w : Widths) (type : UInt8) : Nat :=
  let bodyLen := responseBodyLength w type
  if bodyLen ≤ 0 ∨ bodyLen > maxResponseBodyBytes w then 0 else bodyLen

/-- `ClientTCPListener`: what arrives, byte by byte, until the pending `async_read` has all it
    asked for. The frames are what the handlers got; what they print does not come back. -/
def clientTCPListener (w : Widths) : Reader UInt8 → UInt8 → Reader UInt8 :=
  Reader.next (bodyRead w)

def substr (message : List UInt8) (pos count : Nat) : Except Fault (List UInt8) :=
  if pos ≤ message.length then .ok ((message.drop pos).take count) else .error .readPastEnd

/-- What the five decoders print, with the numbers as `α`. -/
inductive Printed (α : Type) where
  | ack (type side : UInt8) (symbol : List UInt8) (qty price orderId delId : α)
  | fullFill (side : UInt8) (symbol : List UInt8) (orderId fillQty fillPrice : α)
  | partialFill (side : UInt8) (symbol : List UInt8) (orderId fillQty remaining fillPrice : α)
  | killConfirm (symbol : List UInt8) (orderId removedQty : α)
  | error (code : α)
  deriving DecidableEq, Repr

/- `convert` is `byte_conversion` on the body, from its first to its last index. -/
section Decoders
variable {α : Type} (w : Widths) (convert : Nat → Nat → Except Fault α) (body : List UInt8)

def decodeAck : Except Fault (Printed α) := do
  let off := 2 + w.symbol
  let qty ← convert off (off + w.qty - 1)
  let off := off + w.qty
  let price ← convert off (off + w.price - 1)
  let off := off + w.price
  let orderId ← convert off (off + w.id - 1)
  let off := off + w.id
  let delId ← convert off (off + w.id - 1)
  pure (.ack (← readByte body 0) (← readByte body 1) (← substr body 2 w.symbol) qty price orderId
    delId)

def decodeFullFill : Except Fault (Printed α) := do
  let off := 1 + w.symbol
  let orderId ← convert off (off + w.id - 1)
  let off := off + w.id
  let fillQty ← convert off (off + w.qty - 1)
  let off := off + w.qty
  let fillPrice ← convert off (off + w.price - 1)
  pure (.fullFill (← readByte body 0) (← substr body 1 w.symbol) orderId fillQty fillPrice)

def decodePartialFill : Except Fault (Printed α) := do
  let off := 1 + w.symbol
  let orderId ← convert off (off + w.id - 1)
  let off := off + w.id
  let fillQty ← convert off (off + w.qty - 1)
  let off := off + w.qty
  let remaining ← convert off (off + w.qty - 1)
  let off := off + w.qty
  let fillPrice ← convert off (off + w.price - 1)
  pure (.partialFill (← readByte body 0) (← substr body 1 w.symbol) orderId fillQty remaining
    fillPrice)

def decodeKillConfirm : Except Fault (Printed α) := do
  let off := w.symbol
  let orderId ← convert off (off + w.id - 1)
  let off := off + w.id
  let removedQty ← convert off (off + w.qty - 1)
  pure (.killConfirm (← substr body 0 w.symbol) orderId removedQty)

def decodeError : Except Fault (Printed α) := do
  pure (.error (← convert 0 3))

def decodeResponse (type : UInt8) : Except Fault (Option (Printed α)) :=
  if type = 'A'.toUInt8 then some <$> decodeAck w convert body
  else if type = 'F'.toUInt8 then some <$> decodeFullFill w convert body
  else if type = 'P'.toUInt8 then some <$> decodePartialFill w convert body
  else if type = 'K'.toUInt8 then some <$> decodeKillConfirm w convert body
  else if type = 'J'.toUInt8 then some <$> decodeError convert
  else pure none

end Decoders
end MarketBookExchange
