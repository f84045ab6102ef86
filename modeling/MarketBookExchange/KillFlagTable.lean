import MarketBookExchange.Enums
import MarketBookExchange.Lib.Vec
import MarketBookExchange.Lib.Outcome

/- The open-addressing kill table. Two key values are slot markers: -1 is an empty
   slot and -2 a tombstone, and nothing stops a caller from asking for them. -/
namespace MarketBookExchange
open Vectors Outcome

structure Slot where
  key : Int := -1
  value : Bool := false
  deriving DecidableEq, Repr

structure KillFlagTable where
  slots : Vec Slot
  mask : Nat := 0
  liveCount : Nat := 0
  tombstoneCount : Nat := 0

namespace KillFlagTable

def emptyKey : Int := -1
def tombstoneKey : Int := -2

/-- Fibonacci hashing on uint64, upper half. -/
def hashKey (key : Int) : Nat :=
  ((key % 2 ^ 64).toNat * 0x9E3779B97F4A7C15 % 2 ^ 64) >>> 32

/-- The loop of `locate_for_find` from slot `idx`. It does not change the table, so one
    that has seen every slot without an answer never ends. -/
def findFrom (t : KillFlagTable) (key : Int) : Nat → Nat → Except Fault (Option Nat)
  | 0, _ => .error .endlessProbe
  | fuel + 1, idx => do
    let s ← t.slots.read .slotIndex idx
    if s.key = key then pure (some idx)
    else if s.key = emptyKey then pure none
    else findFrom t key fuel ((idx + 1) % uint32 &&& t.mask)

def locateForFind (t : KillFlagTable) (key : Int) : Except Fault (Option Nat) :=
  t.findFrom key t.slots.size (hashKey key &&& t.mask)

def insertFrom (t : KillFlagTable) (key : Int) :
    Nat → Nat → Option Nat → Except Fault Nat
  | 0, _, _ => .error .endlessProbe
  | fuel + 1, idx, firstTombstone => do
    let s ← t.slots.read .slotIndex idx
    if s.key = key then pure idx
    else if s.key = emptyKey then pure (firstTombstone.getD idx)
    else
      let firstTombstone :=
        if s.key = tombstoneKey ∧ firstTombstone = none then some idx else firstTombstone
      insertFrom t key fuel ((idx + 1) % uint32 &&& t.mask) firstTombstone

def locateForInsert (t : KillFlagTable) (key : Int) : Except Fault Nat :=
  t.insertFrom key t.slots.size (hashKey key &&& t.mask) none

/-- One turn of the loop that moves the old slots into the fresh table. -/
def reinsert (t : KillFlagTable) (s : Slot) : Except Fault KillFlagTable :=
  if s.key ≠ emptyKey ∧ s.key ≠ tombstoneKey then do
    let idx ← t.locateForInsert s.key
    let slots ← t.slots.write .slotIndex idx s
    pure { t with slots, liveCount := inc32 t.liveCount }
  else pure t

/-- `slots.assign(new_capacity, Slot{})` and the resets around it. -/
def fresh (newCapacity : Nat) : KillFlagTable :=
  { slots := ⟨newCapacity, fun _ => {}⟩, mask := newCapacity - 1 }

def rehash (t : KillFlagTable) (newCapacity : Nat) : Except Fault KillFlagTable :=
  (List.range t.slots.size).foldlM (fun u i => u.reinsert (t.slots.get i)) (fresh newCapacity)

/-- `KillFlagTable()`: the old vector is empty, so only the fresh one remains. -/
def new : KillFlagTable := fresh (1 <<< 12)

/-- A doubling past uint32 would make the capacity 0; it ends the run here. -/
def maybeGrow (t : KillFlagTable) : Except Fault KillFlagTable :=
  if (t.liveCount + t.tombstoneCount + 1) * 10 ≥ t.slots.size * 6 then
    if t.slots.size * 2 ≥ uint32 then throw Fault.tableCapacity
    else t.rehash (t.slots.size * 2)
  else pure t

def set (t : KillFlagTable) (key : Int) (value : Bool) : Except Fault KillFlagTable := do
  let t ← t.maybeGrow
  let idx ← t.locateForInsert key
  let prev ← t.slots.read .slotIndex idx
  let t :=
    if prev.key ≠ key then
      { t with
        tombstoneCount :=
          if prev.key = tombstoneKey then dec32 t.tombstoneCount else t.tombstoneCount
        liveCount := inc32 t.liveCount }
    else t
  let slots ← t.slots.write .slotIndex idx { key, value }
  pure { t with slots }

/-- The pointer `find` returns is the slot it points into. -/
def find (t : KillFlagTable) (key : Int) : Except Fault (Option Nat) := t.locateForFind key

def deref (t : KillFlagTable) (kf : Nat) : Except Fault Bool := do
  let s ← t.slots.read .slotIndex kf
  pure s.value

def assign (t : KillFlagTable) (kf : Nat) (value : Bool) : Except Fault KillFlagTable := do
  let s ← t.slots.read .slotIndex kf
  let slots ← t.slots.write .slotIndex kf { s with value }
  pure { t with slots }

def erase (t : KillFlagTable) (key : Int) : Except Fault KillFlagTable := do
  match ← t.locateForFind key with
  | none => pure t
  | some idx =>
    let s ← t.slots.read .slotIndex idx
    let slots ← t.slots.write .slotIndex idx { s with key := tombstoneKey }
    pure { t with
      slots
      liveCount := dec32 t.liveCount
      tombstoneCount := inc32 t.tombstoneCount }

def isKilled (t : KillFlagTable) (key : Int) : Except Fault Bool := do
  match ← t.find key with
  | none => pure false
  | some kf => t.deref kf

abbrev TableEnds {α : Type} (x : Except Fault α) : Prop := Ends Fault.ofTable (fun _ => True) x

theorem tableEnds_bind {α β : Type} {x : Except Fault α} {f : α → Except Fault β}
    (first : TableEnds x) (next : ∀ a, TableEnds (f a)) : TableEnds (x >>= f) :=
  ends_bind first fun a _ => next a

theorem tableEnds_read (v : Vec Slot) (i : Nat) : TableEnds (v.read Fault.slotIndex i) := by
  unfold Vec.read
  split <;> trivial

theorem tableEnds_write (v : Vec Slot) (i : Nat) (s : Slot) :
    TableEnds (v.write Fault.slotIndex i s) := by
  unfold Vec.write
  split <;> trivial

theorem findFrom_ends (t : KillFlagTable) (key : Int) (fuel : Nat) :
    ∀ idx, TableEnds (t.findFrom key fuel idx) := by
  induction fuel with
  | zero => exact fun _ => trivial
  | succ fuel ih =>
    intro idx
    refine tableEnds_bind (tableEnds_read _ _) (fun s => ?_)
    split
    · trivial
    · split
      · trivial
      · exact ih _

theorem insertFrom_ends (t : KillFlagTable) (key : Int) (fuel : Nat) :
    ∀ idx firstTombstone, TableEnds (t.insertFrom key fuel idx firstTombstone) := by
  induction fuel with
  | zero => exact fun _ _ => trivial
  | succ fuel ih =>
    intro idx firstTombstone
    refine tableEnds_bind (tableEnds_read _ _) (fun s => ?_)
    split
    · trivial
    · split
      · trivial
      · exact ih _ _

theorem reinsert_ends (t : KillFlagTable) (s : Slot) : TableEnds (t.reinsert s) := by
  unfold reinsert
  split
  · refine tableEnds_bind (insertFrom_ends _ _ _ _ _) (fun idx => ?_)
    exact tableEnds_bind (tableEnds_write _ _ _) (fun _ => trivial)
  · trivial

theorem maybeGrow_ends (t : KillFlagTable) : TableEnds t.maybeGrow := by
  unfold maybeGrow
  split
  · split
    · trivial
    · exact ends_foldlM (fun u _ i _ => reinsert_ends u _) trivial
  · trivial

theorem set_ends (t : KillFlagTable) (key : Int) (value : Bool) : TableEnds (t.set key value) :=
  tableEnds_bind (maybeGrow_ends t) fun _ =>
    tableEnds_bind (insertFrom_ends _ _ _ _ _) fun _ =>
      tableEnds_bind (tableEnds_read _ _) fun _ =>
        tableEnds_bind (tableEnds_write _ _ _) fun _ => trivial

theorem find_ends (t : KillFlagTable) (key : Int) : TableEnds (t.find key) :=
  findFrom_ends _ _ _ _

theorem assign_ends (t : KillFlagTable) (kf : Nat) (value : Bool) :
    TableEnds (t.assign kf value) :=
  tableEnds_bind (tableEnds_read _ _) fun _ => tableEnds_bind (tableEnds_write _ _ _) fun _ => trivial

theorem erase_ends (t : KillFlagTable) (key : Int) : TableEnds (t.erase key) := by
  refine tableEnds_bind (findFrom_ends _ _ _ _) (fun found => ?_)
  cases found with
  | none => trivial
  | some idx =>
    exact tableEnds_bind (tableEnds_read _ _) fun _ =>
      tableEnds_bind (tableEnds_write _ _ _) fun _ => trivial

theorem isKilled_ends (t : KillFlagTable) (key : Int) : TableEnds (t.isKilled key) := by
  refine tableEnds_bind (find_ends _ _) (fun found => ?_)
  cases found with
  | none => trivial
  | some kf => exact tableEnds_bind (tableEnds_read _ _) fun _ => trivial

end KillFlagTable
end MarketBookExchange
