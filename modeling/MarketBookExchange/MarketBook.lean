import Mathlib.Logic.Function.Basic
import MarketBookExchange.OrderBook

/- The books of all symbols: a symbol's hash names its shard and its book there, and each
   shard takes its requests off a queue of its own. -/
namespace MarketBookExchange
open Outcome

/-- `memcpy` of four symbol bytes into a uint32 on a little-endian host. -/
def sym32 (symbol : List UInt8) : Nat :=
  (symbol.take symbolBytes).foldr (fun byte rest => byte.toNat + 256 * rest) 0

def mixedHash (symbol : List UInt8) : BitVec 64 :=
  BitVec.ofNat 64 (sym32 symbol) * 0x9E3779B97F4A7C15#64

def symbolHash (symbol : List UInt8) : Int := (mixedHash symbol).toInt

/-- The `shard_index` of `hash_symbol` for any `NUM_SHARDS`. -/
def shardOf (shards : Nat) (symbol : List UInt8) : Nat :=
  (mixedHash symbol >>> 48).toNat &&& (shards - 1)

def shardIndex (symbol : List UInt8) : Nat := shardOf numShards symbol

theorem shardOf_lt {shards : Nat} (pos : 0 < shards) (symbol : List UInt8) :
    shardOf shards symbol < shards := by
  have below : shardOf shards symbol ≤ shards - 1 := Nat.and_le_right
  omega

structure SymbolBook where
  book : OrderBook := {}
  seqLen : Int := 0

structure OrderBookShard where
  queue : List Order := []
  privMp : Int → Option SymbolBook := fun _ => none

structure MarketBook where
  shards : Nat → OrderBookShard := fun _ => {}
  currentId : Int := 1

namespace MarketBook

def setShard (mb : MarketBook) (s : Nat) (shard : OrderBookShard) : MarketBook :=
  { mb with shards := Function.update mb.shards s shard }

def setBook (mb : MarketBook) (s : Nat) (hash : Int) (entry : SymbolBook) : MarketBook :=
  mb.setShard s { mb.shards s with
    privMp := Function.update (mb.shards s).privMp hash (some entry) }

def symBytes (symbol : List UInt8) : List UInt8 :=
  symbol.take symbolBytes ++ List.replicate (symbolBytes - symbol.length) 0

/-- `priv_mp[symbol_hash]` builds an empty book where there is none. -/
def installOn (shards : Nat) (mb : MarketBook) (symbol : List UInt8) : MarketBook :=
  let sym := symBytes symbol
  match (mb.shards (shardOf shards sym)).privMp (symbolHash sym) with
  | some _ => mb
  | none => mb.setBook (shardOf shards sym) (symbolHash sym) {}

def newOn (shards : Nat) (symbols : List (List UInt8)) : MarketBook :=
  symbols.foldl (installOn shards) {}

def new (symbols : List (List UInt8)) : MarketBook := newOn numShards symbols

def assignOrderId (mb : MarketBook) : Int × MarketBook :=
  (mb.currentId, { mb with currentId := mb.currentId + 1 })

def submitOn (shards : Nat) (mb : MarketBook) (order : Order) : MarketBook :=
  let s := shardOf shards order.symbol
  mb.setShard s { mb.shards s with queue := (mb.shards s).queue ++ [order] }

def submitOrder (mb : MarketBook) (order : Order) : MarketBook := mb.submitOn numShards order

def processOne (registry : Registry) (mb : MarketBook) (w : World) (s : Nat) (order : Order)
    (hash : Int) : Except Fault (MarketBook × World) :=
  match (mb.shards s).privMp hash with
  | none => pure (mb, w.writeIfLocked registry order.sessionId (.error symbolNotFound))
  | some entry => do
    let seqLen := entry.seqLen + 1
    let (book, w) ← entry.book.process registry w order
    let mb := mb.setBook s hash { book, seqLen }
    if seqLen % snapshotFrequency = 0 then
      let snapshot ← book.createSnapshot
      pure (mb, w.record (.broadcast snapshot (order.symbol.take 4) seqLen))
    else pure (mb, w)

/-- `none`: the queue was empty. -/
def drainOne (registry : Registry) (mb : MarketBook) (w : World) (s : Nat) :
    Except Fault (Option (MarketBook × World)) :=
  match (mb.shards s).queue with
  | [] => pure none
  | order :: rest => do
    let mb := mb.setShard s { mb.shards s with queue := rest }
    let r ← mb.processOne registry w (shardIndex order.symbol) order (symbolHash order.symbol)
    pure (some r)

section Shards
variable (mb : MarketBook)

theorem setShard_queue (s k : Nat) (shard : OrderBookShard) :
    ((mb.setShard s shard).shards k).queue =
      if k = s then shard.queue else (mb.shards k).queue := by
  unfold setShard
  by_cases same : k = s
  · subst same
    simp
  · simp [same]

theorem setQueue_privMp (s k : Nat) (queue : List Order) :
    ((mb.setShard s { mb.shards s with queue }).shards k).privMp = (mb.shards k).privMp := by
  unfold setShard
  by_cases same : k = s
  · subst same
    simp
  · simp [same]

theorem submitOn_queue (shards : Nat) (order : Order) (s : Nat) :
    ((mb.submitOn shards order).shards s).queue =
      if s = shardOf shards order.symbol then (mb.shards s).queue ++ [order]
      else (mb.shards s).queue := by
  unfold submitOn
  simp only
  rw [setShard_queue]
  by_cases here : s = shardOf shards order.symbol
  · rw [if_pos here, if_pos here, here]
  · rw [if_neg here, if_neg here]

theorem submitOrder_queue (order : Order) (s : Nat) :
    ((mb.submitOrder order).shards s).queue =
      if s = shardIndex order.symbol then (mb.shards s).queue ++ [order]
      else (mb.shards s).queue := mb.submitOn_queue numShards order s

theorem submitOrder_privMp (order : Order) (s : Nat) :
    ((mb.submitOrder order).shards s).privMp = (mb.shards s).privMp :=
  setQueue_privMp mb _ s _

theorem setBook_queue {s : Nat} (hash : Int) (e : SymbolBook) (k : Nat) :
    ((mb.setBook s hash e).shards k).queue = (mb.shards k).queue := by
  unfold setBook
  rw [setShard_queue]
  split
  · rename_i same
    rw [same]
  · rfl

theorem setBook_self {s : Nat} (hash : Int) (e : SymbolBook) :
    ((mb.setBook s hash e).shards s).privMp hash = some e := by
  simp [setBook, setShard]

theorem setBook_other {s : Nat} {hash x : Int} {k : Nat} (ne : ¬ (k = s ∧ x = hash))
    (e : SymbolBook) : ((mb.setBook s hash e).shards k).privMp x = (mb.shards k).privMp x := by
  unfold setBook setShard
  by_cases shard : k = s
  · subst shard
    have other : x ≠ hash := fun same => ne ⟨rfl, same⟩
    simp [other]
  · simp [shard]

end Shards

section Calls
variable {registry : Registry} {mb mb' : MarketBook} {w w' : World} {s : Nat} {order : Order}
  {hash : Int}

/-- The request meets no book, or one that it is processed on. -/
theorem processOne_cases (ran : mb.processOne registry w s order hash = .ok (mb', w')) :
    ((mb.shards s).privMp hash = none ∧ mb' = mb ∧
      w' = w.writeIfLocked registry order.sessionId (.error symbolNotFound)) ∨
    ∃ entry book w₁, (mb.shards s).privMp hash = some entry ∧
      entry.book.process registry w order = .ok (book, w₁) ∧
      mb' = mb.setBook s hash { book, seqLen := entry.seqLen + 1 } ∧
      (w' = w₁ ∨ ∃ snapshot symbol n, w' = w₁.record (.broadcast snapshot symbol n)) := by
  unfold processOne at ran
  cases known : (mb.shards s).privMp hash with
  | none =>
    rw [known] at ran
    cases ran
    exact Or.inl ⟨rfl, rfl, rfl⟩
  | some entry =>
    rw [known] at ran
    obtain ⟨⟨book, w₁⟩, processed, ran⟩ := bind_ok ran
    refine Or.inr ⟨entry, book, w₁, rfl, processed, ?_⟩
    simp only at ran
    split at ran
    · obtain ⟨snapshot, _, ran⟩ := bind_ok ran
      cases ran
      exact ⟨rfl, Or.inr ⟨snapshot, _, _, rfl⟩⟩
    · cases ran
      exact ⟨rfl, Or.inl rfl⟩

theorem drainOne_cases (ran : mb.drainOne registry w s = .ok (some (mb', w'))) :
    ∃ order rest, (mb.shards s).queue = order :: rest ∧
      (mb.setShard s { mb.shards s with queue := rest }).processOne registry w
        (shardIndex order.symbol) order (symbolHash order.symbol) = .ok (mb', w') := by
  unfold drainOne at ran
  cases queue : (mb.shards s).queue with
  | nil =>
    rw [queue] at ran
    cases ran
  | cons order rest =>
    rw [queue] at ran
    obtain ⟨r, processed, ran⟩ := bind_ok ran
    cases ran
    exact ⟨order, rest, rfl, processed⟩

theorem processOne_keeps (ran : mb.processOne registry w s order hash = .ok (mb', w')) :
    mb'.currentId = mb.currentId ∧ ∀ k, (mb'.shards k).queue = (mb.shards k).queue := by
  rcases processOne_cases ran with ⟨_, rfl, _⟩ | ⟨e, book, w₁, _, _, rfl, _⟩
  · exact ⟨rfl, fun _ => rfl⟩
  · exact ⟨rfl, fun k => mb.setBook_queue hash _ k⟩

end Calls

section New
variable (shards : Nat) (symbols : List (List UInt8))

theorem newOn_books (s : Nat) : ((newOn shards symbols).shards s).queue = [] ∧
    ∀ hash entry, ((newOn shards symbols).shards s).privMp hash = some entry → entry = {} := by
  have all : ∀ mb : MarketBook, (∀ s, (mb.shards s).queue = [] ∧
      ∀ hash entry, (mb.shards s).privMp hash = some entry → entry = {}) →
      ∀ s, ((symbols.foldl (installOn shards) mb).shards s).queue = [] ∧
        ∀ hash entry, ((symbols.foldl (installOn shards) mb).shards s).privMp hash = some entry →
          entry = {} := by
    induction symbols with
    | nil => exact fun _ books => books
    | cons symbol symbols ih =>
      intro mb books
      apply ih
      intro k
      unfold installOn
      simp only
      split
      · exact books k
      · refine ⟨by rw [setBook_queue]; exact (books k).1, fun hash entry known => ?_⟩
        by_cases here : k = shardOf shards (symBytes symbol) ∧ hash = symbolHash (symBytes symbol)
        · rw [here.1, here.2, setBook_self] at known
          exact (Option.some.inj known).symm
        · rw [setBook_other _ here] at known
          exact (books k).2 hash entry known
  exact all {} (fun _ => ⟨rfl, fun _ _ known => by cases known⟩) s

theorem newOn_currentId : (newOn shards symbols).currentId = 1 := by
  have all : ∀ mb : MarketBook,
      (symbols.foldl (installOn shards) mb).currentId = mb.currentId := by
    induction symbols with
    | nil => exact fun _ => rfl
    | cons symbol symbols ih =>
      intro mb
      apply (ih _).trans
      unfold installOn
      simp only
      split <;> rfl
  exact all {}

end New
end MarketBook
end MarketBookExchange
