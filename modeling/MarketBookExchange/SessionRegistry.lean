import MarketBookExchange.Conversions

/- What a book sees of the sessions, and the record of what it did. -/
namespace MarketBookExchange

/-- Which session ids `SessionRegistry::lock` resolves at its n-th call. -/
abbrev Registry := Nat → Int → Bool

/-- `trade` and `evicted` are ghosts: the source keeps no record of them. -/
inductive Event where
  | trade (bid ask : Order) (fillQty fillPrice : Int)
  | evicted (order : Order)
  | write (sessionId : Int) (response : Response)
  | broadcast (snapshot : ObSnapshot) (symbol : List UInt8) (seqLen : Int)
  deriving DecidableEq, Repr

structure World where
  lookups : Nat := 0
  log : List Event := []
  deriving DecidableEq, Repr

namespace World

def record (w : World) (e : Event) : World := { w with log := w.log ++ [e] }

def lock (registry : Registry) (w : World) (sessionId : Int) : Bool × World :=
  (registry w.lookups sessionId, { w with lookups := w.lookups + 1 })

/-- `if (auto sp = lock(session_id)) sp->writeToClient(response)`. -/
def writeIfLocked (registry : Registry) (w : World) (sessionId : Int) (response : Response) :
    World :=
  let (sp, w) := w.lock registry sessionId
  if sp then w.record (.write sessionId response) else w

end World
end MarketBookExchange
