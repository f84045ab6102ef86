import MarketBookExchange.Enums
import MarketBookExchange.Lib.Vec

/- The node pool with its spliced free list, and the intrusive FIFO of one price level. -/
namespace MarketBookExchange
open Vectors

def orderPoolInitialCap : Nat := 2 ^ 14
def orderPoolGrowthChunk : Nat := 2 ^ 14
def orderPoolMaxCap : Nat := 2 ^ 24
def nil : Nat := 0xFFFFFFFF

structure OrderNode where
  order : Order := {}
  prev : Nat := nil
  next : Nat := nil

structure OrderPool where
  nodes : Vec OrderNode
  freeHead : Nat

namespace OrderPool

def read (p : OrderPool) (i : Nat) : Except Fault OrderNode := p.nodes.read .poolIndex i

def write (p : OrderPool) (i : Nat) (n : OrderNode) : Except Fault OrderPool := do
  let nodes ← p.nodes.write .poolIndex i n
  pure { p with nodes }

/-- The new run is linked in index order; its last node is spliced onto the old list. -/
def grow (p : OrderPool) (count : Nat) : OrderPool :=
  if count = 0 then p
  else
    let oldSize := p.nodes.size
    let newSize := oldSize + count
    { nodes := ⟨newSize, fun i =>
        if i < oldSize then p.nodes.get i
        else if i + 1 < newSize then { next := i + 1 }
        else { next := p.freeHead }⟩
      freeHead := oldSize }

def new : OrderPool := grow ⟨Vec.empty {}, nil⟩ orderPoolInitialCap

def acquire (p : OrderPool) (order : Order) : Except Fault (Nat × OrderPool) := do
  let p ←
    if p.freeHead = nil then
      if p.nodes.size ≥ orderPoolMaxCap then throw Fault.poolExhausted
      else pure (p.grow (min orderPoolGrowthChunk (orderPoolMaxCap - p.nodes.size)))
    else pure p
  let idx := p.freeHead
  let node ← p.read idx
  let p ← p.write idx { order, prev := nil, next := nil }
  pure (idx, { p with freeHead := node.next })

def release (p : OrderPool) (idx : Nat) : Except Fault OrderPool := do
  let node ← p.read idx
  let p ← p.write idx { node with next := p.freeHead }
  pure { p with freeHead := idx }

end OrderPool

structure PriceLevel where
  head : Nat := nil
  tail : Nat := nil
  count : Nat := 0
  levelPrice : Int := 0

def PriceLevel.empty (lvl : PriceLevel) : Bool := lvl.count = 0

def levelPushBack (lvl : PriceLevel) (pool : OrderPool) (order : Order) :
    Except Fault (PriceLevel × OrderPool) := do
  let (idx, pool) ← pool.acquire order
  if lvl.tail = nil then
    pure ({ lvl with head := idx, tail := idx, count := inc32 lvl.count }, pool)
  else
    let last ← pool.read lvl.tail
    let pool ← pool.write lvl.tail { last with next := idx }
    let node ← pool.read idx
    let pool ← pool.write idx { node with prev := lvl.tail }
    pure ({ lvl with tail := idx, count := inc32 lvl.count }, pool)

def levelFront (lvl : PriceLevel) (pool : OrderPool) : Except Fault Order := do
  let node ← pool.read lvl.head
  pure node.order

/-- A write through the reference `level_front` returns. -/
def setLevelFront (lvl : PriceLevel) (pool : OrderPool) (order : Order) :
    Except Fault OrderPool := do
  let node ← pool.read lvl.head
  pool.write lvl.head { node with order }

def levelPopFront (lvl : PriceLevel) (pool : OrderPool) :
    Except Fault (PriceLevel × OrderPool) := do
  let idx := lvl.head
  let node ← pool.read idx
  let nxt := node.next
  let lvl := { lvl with head := nxt }
  let (lvl, pool) ←
    if nxt ≠ nil then do
      let second ← pool.read nxt
      let pool ← pool.write nxt { second with prev := nil }
      pure (lvl, pool)
    else pure ({ lvl with tail := nil }, pool)
  let pool ← pool.release idx
  pure ({ lvl with count := dec32 lvl.count }, pool)

end MarketBookExchange
