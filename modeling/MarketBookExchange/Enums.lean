import Mathlib.Algebra.Order.Ring.Int

/- The configured constants and the plain records of the server. `LL` (long long) is
   Int, without a bound; a 32-bit unsigned field is a Nat below 2^32 with explicit wrapping. -/
namespace MarketBookExchange

def symbolBytes : Nat := 4
def qtyBytes : Nat := 4
def priceBytes : Nat := 4
def idBytes : Nat := 4
def snapshotLen : Nat := 10
def snapshotFrequency : Int := 1
def numShards : Nat := 16

def malformedRequest : Int := 100
def symbolNotFound : Int := 101
def invalidQuantity : Int := 102
def invalidPrice : Int := 103
def invalidOrderId : Int := 104

inductive OrderType where
  | sell
  | buy
  deriving DecidableEq, Repr

inductive RequestType where
  | sendOrder
  | modifyOrder
  | killOrder
  deriving DecidableEq, Repr

/-- `symbol`, `orderType` and `requestType` have no initializer in the source; their
    defaults here stand for whatever the memory held. -/
structure Order where
  priceLevel : Int := 0
  qty : Int := 0
  symbol : List UInt8 := []
  orderType : OrderType := .sell
  requestType : RequestType := .sendOrder
  orderId : Int := 0
  delId : Int := 0
  sessionId : Int := 0
  deriving DecidableEq, Repr

structure ObSnapshot where
  buySide : List Order := List.replicate snapshotLen {}
  sellSide : List Order := List.replicate snapshotLen {}
  deriving DecidableEq, Repr

/-- What ends an operation early: the two resource limits, and the undefined
    behaviour and the endless loops that a correct run never meets. -/
inductive Fault where
  | poolExhausted    -- the exception thrown by OrderPool::acquire
  | tableCapacity    -- doubling the kill table leaves uint32
  | poolIndex        -- a node index outside the pool, NIL included
  | slotIndex        -- a slot index outside the kill table
  | endlessProbe     -- a probe loop that never meets its key or an empty slot
  | bitScanOfZero    -- clz64 or ctz64 of zero
  | endlessLoop      -- a while loop that outlives its bound
  | readPastEnd      -- a decoder reads at or past the end of its message
  | shiftRange       -- a shift of an int by 32 or more
  deriving DecidableEq, Repr

/-- The two limits the documentation lets a book run into. -/
def Fault.isLimit : Fault → Prop
  | .poolExhausted => True
  | .tableCapacity => True
  | _ => False

instance (e : Fault) : Decidable e.isLimit := by
  cases e <;> simp only [Fault.isLimit] <;> infer_instance

def Fault.ofTable : Fault → Prop
  | .tableCapacity => True
  | .slotIndex => True
  | .endlessProbe => True
  | _ => False

def uint32 : Nat := 2 ^ 32
def inc32 (n : Nat) : Nat := (n + 1) % uint32
def dec32 (n : Nat) : Nat := (n + (uint32 - 1)) % uint32

theorem inc32_of_lt {n : Nat} (h : n + 1 < uint32) : inc32 n = n + 1 := Nat.mod_eq_of_lt h

theorem dec32_of_pos {n : Nat} (pos : 0 < n) (h : n < uint32) : dec32 n = n - 1 := by
  simp only [dec32, uint32] at *
  omega

end MarketBookExchange
