import MarketBookExchange.ServerInvariant
import MarketBookExchange.Lib.BigEndian

/- Symbols share shards and threads but no book: a symbol's hash is its own, and a request
   reads and writes only the book its hash names. -/
namespace MarketBookExchange
open Outcome Transitions BigEndian KillFlagTable

section Hash
variable {a b : List UInt8}

theorem sym32_eq (symbol : List UInt8) :
    sym32 symbol = value (symbol.take symbolBytes).reverse := by
  unfold sym32 value
  rw [List.reverse_reverse]
  induction symbol.take symbolBytes with
  | nil => rfl
  | cons byte rest ih => rw [List.foldr_cons, ih, List.map_cons, Nat.ofDigits_cons]

theorem sym32_lt (symbol : List UInt8) : sym32 symbol < 2 ^ 32 := by
  have bound := value_lt (symbol.take symbolBytes).reverse
  have short : (symbol.take symbolBytes).reverse.length ≤ symbolBytes := by
    rw [List.length_reverse, List.length_take]
    exact Nat.min_le_left _ _
  have power : 256 ^ (symbol.take symbolBytes).reverse.length ≤ 256 ^ symbolBytes :=
    Nat.pow_le_pow_right (by decide) short
  rw [sym32_eq]
  exact Nat.lt_of_lt_of_le bound power

theorem sym32_inj (la : a.length = symbolBytes) (lb : b.length = symbolBytes)
    (same : sym32 a = sym32 b) : a = b := by
  rw [sym32_eq, sym32_eq, List.take_of_length_le la.le, List.take_of_length_le lb.le] at same
  have reversed := value_inj (by rw [List.length_reverse, List.length_reverse, la, lb]) same
  exact List.reverse_injective reversed

/-- The multiplier of `hash_symbol` is odd, so a multiplication undoes it. -/
def mixInverse : BitVec 64 := 0xF1DE83E19937733D#64

theorem mixedHash_inverse (symbol : List UInt8) :
    mixedHash symbol * mixInverse = BitVec.ofNat 64 (sym32 symbol) := by
  unfold mixedHash
  rw [BitVec.mul_assoc, show 0x9E3779B97F4A7C15#64 * mixInverse = 1#64 by decide, BitVec.mul_one]

/-- No two 4-byte symbols have one hash. -/
theorem symbolHash_inj (la : a.length = symbolBytes) (lb : b.length = symbolBytes)
    (same : symbolHash a = symbolHash b) : a = b := by
  have mixed : mixedHash a = mixedHash b := BitVec.eq_of_toInt_eq same
  have words := congrArg (fun x => (x * mixInverse).toNat) mixed
  simp only [mixedHash_inverse, BitVec.toNat_ofNat] at words
  have low := sym32_lt a
  have low' := sym32_lt b
  rw [Nat.mod_eq_of_lt (by omega), Nat.mod_eq_of_lt (by omega)] at words
  exact sym32_inj la lb words

theorem shardIndex_lt (symbol : List UInt8) : shardIndex symbol < numShards :=
  shardOf_lt (by decide) symbol

end Hash
/-- The calls the server's threads make of the market book. -/
inductive MarketCall where
  | assignOrderId
  | submitOrder (order : Order)
  | drainOne (s : Nat)

inductive MarketStep : MarketBook → MarketCall → MarketBook → Prop
  | assignOrderId {mb : MarketBook} : MarketStep mb .assignOrderId mb.assignOrderId.2
  | submitOrder {mb : MarketBook} (order : Order) :
      MarketStep mb (.submitOrder order) (mb.submitOrder order)
  | drainOne {registry : Registry} {mb mb' : MarketBook} {s : Nat} {w w' : World}
      (drained : mb.drainOne registry w s = .ok (some (mb', w'))) : MarketStep mb (.drainOne s) mb'

abbrev MarketRun (symbols : List (List UInt8)) : List MarketCall → MarketBook → Prop :=
  Runs MarketStep (.new symbols)

namespace MarketBook

/-- The key under which `hash_symbol` places a symbol's book. -/
def place (symbol : List UInt8) : Nat × Int := (shardIndex symbol, symbolHash symbol)

def bookAt (mb : MarketBook) (key : Nat × Int) : Option SymbolBook :=
  (mb.shards key.1).privMp key.2

/-- `process_one` on a request, as `drain_one` calls it. -/
def serve (registry : Registry) (mb : MarketBook) (order : Order) :
    Except Fault (MarketBook × World) :=
  mb.processOne registry {} (shardIndex order.symbol) order (symbolHash order.symbol)

/-- The books are those of the configured symbols. -/
def OneEach (symbols : List (List UInt8)) (mb : MarketBook) : Prop :=
  ∀ key, (mb.bookAt key).isSome = true ↔ ∃ symbol ∈ symbols, key = place symbol

theorem place_inj {a b : List UInt8} (la : a.length = symbolBytes) (lb : b.length = symbolBytes)
    (same : place a = place b) : a = b :=
  symbolHash_inj la lb (congrArg Prod.snd same)

theorem symBytes_eq {symbol : List UInt8} (four : symbol.length = symbolBytes) :
    symBytes symbol = symbol := by
  unfold symBytes
  rw [four, Nat.sub_self, List.take_of_length_le four.le]
  exact List.append_nil _

theorem bookAt_setBook_self (mb : MarketBook) (key : Nat × Int) (e : SymbolBook) :
    (mb.setBook key.1 key.2 e).bookAt key = some e := setBook_self mb key.2 e

theorem bookAt_setBook_other (mb : MarketBook) {key other : Nat × Int} (ne : other ≠ key)
    (e : SymbolBook) : (mb.setBook key.1 key.2 e).bookAt other = mb.bookAt other := by
  apply setBook_other
  rintro ⟨shard, hash⟩
  exact ne (Prod.ext shard hash)

theorem isSome_setBook {mb : MarketBook} {key : Nat × Int} (there : (mb.bookAt key).isSome = true)
    (e : SymbolBook) (other : Nat × Int) :
    ((mb.setBook key.1 key.2 e).bookAt other).isSome = (mb.bookAt other).isSome := by
  by_cases same : other = key
  · subst same
    rw [bookAt_setBook_self, there]
    rfl
  · rw [bookAt_setBook_other mb same]

theorem isSome_installOn (mb : MarketBook) {symbol : List UInt8}
    (four : symbol.length = symbolBytes) (key : Nat × Int) :
    ((mb.installOn numShards symbol).bookAt key).isSome = true ↔
      (mb.bookAt key).isSome = true ∨ key = place symbol := by
  unfold installOn
  simp only [symBytes_eq four]
  rw [show shardOf numShards symbol = shardIndex symbol from rfl]
  cases known : (mb.shards (shardIndex symbol)).privMp (symbolHash symbol) with
  | some e =>
    have there : mb.bookAt (place symbol) = some e := known
    constructor
    · exact Or.inl
    · rintro (old | rfl)
      · exact old
      · rw [there]
        rfl
  | none =>
    by_cases same : key = place symbol
    · subst same
      have new := congrArg Option.isSome (bookAt_setBook_self mb (place symbol) {})
      exact iff_of_true new (Or.inr rfl)
    · have other := congrArg Option.isSome (bookAt_setBook_other mb same {})
      rw [or_iff_left same, ← other]
      exact Iff.rfl

theorem oneEach_new {symbols : List (List UInt8)}
    (four : ∀ symbol ∈ symbols, symbol.length = symbolBytes) : (new symbols).OneEach symbols := by
  have all : ∀ mb : MarketBook, ∀ key,
      ((symbols.foldl (installOn numShards) mb).bookAt key).isSome = true ↔
      (mb.bookAt key).isSome = true ∨ ∃ symbol ∈ symbols, key = place symbol := by
    induction symbols with
    | nil =>
      intro mb key
      simp
    | cons symbol symbols ih =>
      intro mb key
      rw [List.foldl_cons, ih (fun s hs => four s (by simp [hs])),
        isSome_installOn mb (four symbol (by simp)), or_assoc]
      simp
  intro key
  unfold new newOn
  rw [all]
  simp [bookAt]

theorem bookAt_setQueue (mb : MarketBook) (s : Nat) (queue : List Order) (key : Nat × Int) :
    (mb.setShard s { mb.shards s with queue }).bookAt key = mb.bookAt key := by
  unfold bookAt
  rw [setQueue_privMp]

theorem processOne_isSome {registry : Registry} {mb mb' : MarketBook} {w w' : World} {s : Nat}
    {order : Order} {hash : Int} (ran : mb.processOne registry w s order hash = .ok (mb', w'))
    (key : Nat × Int) : (mb'.bookAt key).isSome = (mb.bookAt key).isSome := by
  rcases processOne_cases ran with ⟨_, rfl, _⟩ | ⟨e, book, w₁, known, _, rfl, _⟩
  · rfl
  · have there : (mb.bookAt (s, hash)).isSome = true := by
      rw [show mb.bookAt (s, hash) = some e from known]
      rfl
    exact isSome_setBook there _ key

theorem oneEach_run {symbols : List (List UInt8)}
    (four : ∀ symbol ∈ symbols, symbol.length = symbolBytes) {trace : List MarketCall}
    {mb : MarketBook} (run : MarketRun symbols trace mb) : mb.OneEach symbols := by
  apply runs_invariant (fun _ mb => mb.OneEach symbols) (oneEach_new four) _ run
  intro trace mb call mb' h taken
  cases taken with
  | assignOrderId => exact h
  | submitOrder order =>
    intro key
    unfold submitOrder submitOn
    simp only
    rw [bookAt_setQueue]
    exact h key
  | drainOne drained =>
    obtain ⟨order, rest, _, processed⟩ := drainOne_cases drained
    intro key
    rw [processOne_isSome processed, bookAt_setQueue]
    exact h key

theorem setBook_comm (mb : MarketBook) {key other : Nat × Int} (ne : other ≠ key)
    (e e' : SymbolBook) : (mb.setBook key.1 key.2 e).setBook other.1 other.2 e' =
      (mb.setBook other.1 other.2 e').setBook key.1 key.2 e := by
  unfold setBook setShard
  congr 1
  by_cases shard : other.1 = key.1
  · have hash : other.2 ≠ key.2 := fun same => ne (Prod.ext shard same)
    rw [shard]
    simp only [Function.update_self, Function.update_idem]
    rw [Function.update_comm hash.symm]
  · simp only [Function.update_of_ne shard, Function.update_of_ne (Ne.symm shard)]
    rw [Function.update_comm (Ne.symm shard)]

end MarketBook

def SymbolBook.serve (registry : Registry) (e : SymbolBook) (order : Order) :
    Except Fault (SymbolBook × World) := do
  let seqLen := e.seqLen + 1
  let (book, w) ← e.book.process registry {} order
  if seqLen % snapshotFrequency = 0 then
    let snapshot ← book.createSnapshot
    pure ({ book, seqLen }, w.record (.broadcast snapshot (order.symbol.take 4) seqLen))
  else pure ({ book, seqLen }, w)

namespace MarketBook
variable {registry : Registry} {mb mb' : MarketBook} {order : Order} {w' : World}

theorem serve_none (absent : mb.bookAt (place order.symbol) = none) : mb.serve registry order =
    .ok (mb, World.writeIfLocked registry {} order.sessionId (.error symbolNotFound)) := by
  unfold serve processOne
  rw [show (mb.shards (shardIndex order.symbol)).privMp (symbolHash order.symbol) = none from absent]
  rfl

theorem serve_some {e : SymbolBook} (known : mb.bookAt (place order.symbol) = some e) :
    mb.serve registry order = e.serve registry order >>= fun r =>
      .ok (mb.setBook (shardIndex order.symbol) (symbolHash order.symbol) r.1, r.2) := by
  unfold serve processOne SymbolBook.serve
  rw [show (mb.shards (shardIndex order.symbol)).privMp (symbolHash order.symbol) = some e
    from known]
  simp only
  cases e.book.process registry {} order with
  | error fault => rfl
  | ok r =>
    simp only [ok_bind]
    split
    · cases r.1.createSnapshot with
      | error fault => rfl
      | ok snapshot => rfl
    · rfl

theorem serve_cases (ran : mb.serve registry order = .ok (mb', w')) :
    mb.bookAt (place order.symbol) = none ∧ mb' = mb ∧
      w' = World.writeIfLocked registry {} order.sessionId (.error symbolNotFound) ∨
    ∃ e e', mb.bookAt (place order.symbol) = some e ∧ e.serve registry order = .ok (e', w') ∧
      mb' = mb.setBook (shardIndex order.symbol) (symbolHash order.symbol) e' := by
  cases known : mb.bookAt (place order.symbol) with
  | none =>
    rw [serve_none known] at ran
    cases ran
    exact Or.inl ⟨rfl, rfl, rfl⟩
  | some e =>
    rw [serve_some known] at ran
    obtain ⟨⟨e', w₁⟩, served, ran⟩ := bind_ok ran
    cases ran
    exact Or.inr ⟨e, e', rfl, served, rfl⟩

theorem serve_other (ran : mb.serve registry order = .ok (mb', w')) {key : Nat × Int}
    (other : key ≠ place order.symbol) : mb'.bookAt key = mb.bookAt key := by
  rcases serve_cases ran with ⟨_, rfl, _⟩ | ⟨e, e', _, _, rfl⟩
  · rfl
  · exact bookAt_setBook_other mb other e'

theorem serve_of_book {e e' : SymbolBook} (known : mb.bookAt (place order.symbol) = some e)
    (served : e.serve registry order = .ok (e', w')) : mb.serve registry order =
      .ok (mb.setBook (shardIndex order.symbol) (symbolHash order.symbol) e', w') := by
  rw [serve_some known, served]
  rfl

theorem serve_commute {registry' : Registry} {order' : Order} {mb₁ mb₂ : MarketBook}
    {w w' : World} (ne : place order'.symbol ≠ place order.symbol)
    (first : mb.serve registry order = .ok (mb₁, w))
    (second : mb₁.serve registry' order' = .ok (mb₂, w')) :
    ∃ mb₁', mb.serve registry' order' = .ok (mb₁', w') ∧
      mb₁'.serve registry order = .ok (mb₂, w) := by
  have same := serve_other first ne
  rcases serve_cases first with ⟨absent, rfl, rfl⟩ | ⟨e, e₁, known, served, rfl⟩
  · refine ⟨mb₂, second, serve_none ?_⟩
    rw [serve_other second ne.symm, absent]
  · rcases serve_cases second with ⟨absent, rfl, rfl⟩ | ⟨e', e₁', known', served', rfl⟩
    · rw [same] at absent
      exact ⟨mb, serve_none absent, serve_of_book known served⟩
    · rw [same] at known'
      refine ⟨_, serve_of_book known' served', ?_⟩
      rw [← bookAt_setBook_other mb ne.symm e₁'] at known
      have again := serve_of_book known served
      have order := setBook_comm mb ne.symm e₁' e₁
      exact again.trans (congrArg (fun x => Except.ok (x, w)) order)

/-- Requests for two books that are both served are served in either order. -/
theorem serve_both {registry' : Registry} {order' : Order} {mb₁ mb₁' : MarketBook}
    {w w' : World} (ne : place order'.symbol ≠ place order.symbol)
    (first : mb.serve registry order = .ok (mb₁, w))
    (second : mb.serve registry' order' = .ok (mb₁', w')) :
    ∃ mb₂, mb₁.serve registry' order' = .ok (mb₂, w') ∧
      mb₁'.serve registry order = .ok (mb₂, w) := by
  have same := serve_other first ne
  rcases serve_cases second with ⟨missing, rfl, rfl⟩ | ⟨e', e₁', known', served', rfl⟩
  · exact ⟨mb₁, serve_none (same.trans missing), first⟩
  · have after := serve_of_book (same.trans known') served'
    obtain ⟨m, again, later⟩ := serve_commute ne first after
    cases second.symm.trans again
    exact ⟨_, after, later⟩

end MarketBook
def Silent (w w' : World) : Prop :=
  ∃ es, w'.log = w.log ++ es ∧ ∀ s, .write s (.error symbolNotFound) ∉ es

theorem silent_refl (w : World) : Silent w w := ⟨[], by simp, by simp⟩

theorem Silent.trans {w w' w'' : World} (h : Silent w w') (h' : Silent w' w'') :
    Silent w w'' := by
  obtain ⟨es, log, quiet⟩ := h
  obtain ⟨es', log', quiet'⟩ := h'
  refine ⟨es ++ es', by rw [log', log, List.append_assoc], fun s member => ?_⟩
  rcases List.mem_append.mp member with old | new
  · exact quiet s old
  · exact quiet' s new

theorem silent_record (w : World) {e : Event}
    (other : ∀ s, e ≠ .write s (.error symbolNotFound)) : Silent w (w.record e) := by
  refine ⟨[e], rfl, fun s member => ?_⟩
  exact other s (List.mem_singleton.mp member).symm

theorem silent_writeIfLocked (registry : Registry) (w : World) (sessionId : Int)
    {response : Response} (other : response ≠ .error symbolNotFound) :
    Silent w (w.writeIfLocked registry sessionId response) := by
  refine ⟨_, writeIfLocked_log registry w sessionId response, fun s member => ?_⟩
  exact other (mem_written member).2.symm

section Silent
variable (registry : Registry)

abbrev Quietly {α : Type} (w : World) (world : α → World) (x : Except Fault α) : Prop :=
  Ends (fun _ => True) (fun r => Silent w (world r)) x

theorem drainDead_silent (bestIsHigh : Bool) (fuel : Nat) : ∀ (side : BookSide) (s : Shared),
    Quietly s.world (fun r => r.2.world) (drainDead registry bestIsHigh fuel side s) := by
  induction fuel with
  | zero => exact fun _ _ => trivial
  | succ fuel ih =>
    intro side s
    unfold drainDead
    apply ends_bind (p := fun _ => True) (ends_any _)
    intro best _
    cases best with
    | none => exact silent_refl _
    | some idx =>
      apply ends_bind (p := fun _ => True) (ends_any _)
      intro front _
      apply ends_bind (p := fun _ => True) (ends_any _)
      intro killed _
      cases killed with
      | false => exact silent_refl _
      | true =>
        apply ends_bind (p := fun _ => True) (ends_any _)
        intro kt _
        apply ends_bind (p := fun _ => True) (ends_any _)
        intro popped _
        apply ends_mono (ih _ _)
        intro r later
        apply Silent.trans _ later
        apply Silent.trans (silent_writeIfLocked registry s.world front.sessionId
          (show Response.killConfirm front ≠ .error symbolNotFound by simp))
        exact silent_record _ (by simp)

theorem drainBoth_silent (b : OrderBook) (w : World) :
    Quietly w Prod.snd (b.drainBoth registry w) := by
  unfold OrderBook.drainBoth
  apply ends_bind (drainDead_silent registry true _ b.bids ⟨b.pool, b.killedOrders, w⟩)
  intro bids quiet
  apply ends_bind (drainDead_silent registry false _ b.asks bids.2)
  intro asks quiet'
  exact quiet.trans quiet'

theorem notifyFill_silent (kt : KillFlagTable) (w : World) (order : Order)
    (fillQty remainingQty fillPrice : Int) :
    Quietly w Prod.snd (notifyFill registry kt w order fillQty remainingQty fillPrice) := by
  have locked : Silent w (w.lock registry order.sessionId).2 := ⟨[], by simp [World.lock], by simp⟩
  unfold notifyFill
  simp only
  split
  · exact locked
  · split
    · apply ends_bind (p := fun _ => True) (ends_any _)
      intro kt' _
      exact locked.trans (silent_record _ (by simp))
    · exact locked.trans (silent_record _ (by simp))

theorem matchBest_silent (b : OrderBook) (w : World) :
    Quietly w (fun r => (r.map Prod.snd).getD w) (b.matchBest registry w) := by
  unfold OrderBook.matchBest
  apply ends_bind (p := fun _ => True) (ends_any _)
  intro best _
  cases best with
  | none => exact silent_refl _
  | some bidx =>
    apply ends_bind (p := fun _ => True) (ends_any _)
    intro best _
    cases best with
    | none => exact silent_refl _
    | some aidx =>
      apply ends_bind (p := fun _ => True) (ends_any _)
      intro bo _
      apply ends_bind (p := fun _ => True) (ends_any _)
      intro ao _
      split
      · exact silent_refl _
      · simp only
        apply ends_bind (p := fun _ => True) (ends_any _)
        intro pool _
        apply ends_bind (p := fun _ => True) (ends_any _)
        intro pool' _
        apply ends_bind (notifyFill_silent registry _ _ _ _ _ _)
        intro bid told
        apply ends_bind (notifyFill_silent registry _ _ _ _ _ _)
        intro ask told'
        have traded : Silent w ask.2 :=
          (silent_record w (by simp)).trans (told.trans told')
        split
        · apply ends_bind (p := fun _ => True) (ends_any _)
          intro bids _
          split
          · apply ends_bind (p := fun _ => True) (ends_any _)
            intro asks _
            exact traded
          · exact traded
        · simp only [pure_eq_ok, ok_bind]
          split
          · apply ends_bind (p := fun _ => True) (ends_any _)
            intro asks _
            exact traded
          · exact traded

theorem updateLoop_silent (fuel : Nat) : ∀ (b : OrderBook) (w : World),
    Quietly w Prod.snd (b.updateLoop registry fuel w) := by
  induction fuel with
  | zero => exact fun _ _ => trivial
  | succ fuel ih =>
    intro b w
    unfold OrderBook.updateLoop
    apply ends_bind (drainBoth_silent registry b w)
    intro drained quiet
    apply ends_bind (matchBest_silent registry drained.1 drained.2)
    intro made quiet'
    cases made with
    | none => exact quiet
    | some next =>
      apply ends_mono (ih next.1 next.2)
      intro r later
      exact quiet.trans (quiet'.trans later)

theorem killOrder_silent (b : OrderBook) (w : World) (order : Order) :
    Quietly w Prod.snd (b.killOrder registry w order) := by
  unfold OrderBook.killOrder
  apply ends_bind (p := fun _ => True) (ends_any _)
  intro found _
  cases found with
  | none => exact silent_writeIfLocked registry w order.sessionId (by decide)
  | some kf =>
    apply ends_bind (p := fun _ => True) (ends_any _)
    intro kt _
    exact silent_refl _

theorem dispatch_silent (b : OrderBook) (w : World) (order : Order) :
    Quietly w Prod.snd (b.dispatch registry w order) := by
  unfold OrderBook.dispatch
  cases order.requestType with
  | sendOrder =>
    apply ends_bind (p := fun _ => True) (ends_any _)
    intro b' _
    exact silent_refl _
  | modifyOrder =>
    apply ends_bind (killOrder_silent registry b w order)
    intro killed quiet
    apply ends_bind (p := fun _ => True) (ends_any _)
    intro b' _
    exact quiet
  | killOrder => exact killOrder_silent registry b w order

theorem process_silent (b : OrderBook) (w : World) (order : Order) :
    Quietly w Prod.snd (b.process registry w order) := by
  unfold OrderBook.process
  apply ends_bind (dispatch_silent registry b w order)
  intro dispatched quiet
  apply ends_mono (updateLoop_silent registry _ dispatched.1 dispatched.2)
  intro r later
  exact quiet.trans later

end Silent
namespace MarketBook

theorem drainOne_serve {registry : Registry} {mb mb' : MarketBook} {s : Nat} {w' : World}
    (drained : mb.drainOne registry {} s = .ok (some (mb', w'))) :
    ∃ order rest, (mb.shards s).queue = order :: rest ∧
      (mb.setShard s { mb.shards s with queue := rest }).serve registry order = .ok (mb', w') :=
  drainOne_cases drained

/-- Every configured symbol has a book and no request touches another symbol's; each request
    is served with what its own lookups find, whatever comes before or after it. -/
structure Isolates (symbols : List (List UInt8)) (mb : MarketBook) : Prop where
  books : mb.OneEach symbols
  missing : ∀ registry order, order.symbol.length = symbolBytes → order.symbol ∉ symbols →
    mb.serve registry order =
      .ok (mb, World.writeIfLocked registry {} order.sessionId (.error symbolNotFound))
  found : ∀ registry order mb' w', order.symbol.length = symbolBytes → order.symbol ∈ symbols →
    mb.serve registry order = .ok (mb', w') → ∀ s, .write s (.error symbolNotFound) ∉ w'.log
  others : ∀ registry order mb' w' symbol, order.symbol.length = symbolBytes →
    symbol.length = symbolBytes → symbol ≠ order.symbol →
    mb.serve registry order = .ok (mb', w') → mb'.bookAt (place symbol) = mb.bookAt (place symbol)
  both : ∀ registry registry' order order' mb₁ mb₁' w w', order.symbol.length = symbolBytes →
    order'.symbol.length = symbolBytes → order'.symbol ≠ order.symbol →
    mb.serve registry order = .ok (mb₁, w) → mb.serve registry' order' = .ok (mb₁', w') →
    ∃ mb₂, mb₁.serve registry' order' = .ok (mb₂, w') ∧ mb₁'.serve registry order = .ok (mb₂, w)
  commute : ∀ registry registry' order order' mb₁ mb₂ w w', order.symbol.length = symbolBytes →
    order'.symbol.length = symbolBytes → order'.symbol ≠ order.symbol →
    mb.serve registry order = .ok (mb₁, w) → mb₁.serve registry' order' = .ok (mb₂, w') →
    ∃ mb₁', mb.serve registry' order' = .ok (mb₁', w') ∧ mb₁'.serve registry order = .ok (mb₂, w)

theorem OneEach.configured {symbols : List (List UInt8)} {mb : MarketBook}
    (h : mb.OneEach symbols) (four : ∀ symbol ∈ symbols, symbol.length = symbolBytes)
    {symbol : List UInt8} (len : symbol.length = symbolBytes) :
    (mb.bookAt (place symbol)).isSome = true ↔ symbol ∈ symbols := by
  rw [h]
  constructor
  · rintro ⟨s, member, same⟩
    rwa [place_inj len (four s member) same]
  · exact fun member => ⟨symbol, member, rfl⟩

theorem SymbolBook.serve_silent {registry : Registry} {e e' : SymbolBook} {order : Order}
    {w : World} (served : e.serve registry order = .ok (e', w)) : Silent {} w := by
  obtain ⟨⟨book, w₁⟩, processed, served⟩ := bind_ok served
  have quiet := ends_ok (process_silent registry e.book {} order) processed
  simp only at served
  split at served
  · obtain ⟨snapshot, _, served⟩ := bind_ok served
    cases served
    exact quiet.trans (silent_record _ (by simp))
  · cases served
    exact quiet

theorem OneEach.isolates {symbols : List (List UInt8)} {mb : MarketBook} (h : mb.OneEach symbols)
    (four : ∀ symbol ∈ symbols, symbol.length = symbolBytes) : mb.Isolates symbols := by
  have apart : ∀ {a b : List UInt8}, a.length = symbolBytes → b.length = symbolBytes → a ≠ b →
      place a ≠ place b := fun la lb ne same => ne (place_inj la lb same)
  constructor
  · exact h
  · intro registry order len unknown
    apply serve_none
    rw [← h.configured four len] at unknown
    exact Option.not_isSome_iff_eq_none.mp unknown
  · intro registry order mb' w' len member ran
    rcases serve_cases ran with ⟨missing, _, _⟩ | ⟨e, e', _, served, _⟩
    · rw [← h.configured four len, missing] at member
      cases member
    · obtain ⟨es, log, silent⟩ := SymbolBook.serve_silent served
      rw [log]
      exact silent
  · intro registry order mb' w' symbol len len' ne ran
    exact serve_other ran (apart len' len ne)
  · intro registry registry' order order' mb₁ mb₁' w w' len len' ne first second
    exact serve_both (apart len' len ne) first second
  · intro registry registry' order order' mb₁ mb₂ w w' len len' ne first second
    exact serve_commute (apart len' len ne) first second

/-- The books are in order, and what is queued has an id of the server's. -/
structure Tracked (mb : MarketBook) : Prop where
  books : ∀ s hash e, (mb.shards s).privMp hash = some e → ∃ f, Tracks e.book f
  queued : ∀ s, ∀ o ∈ (mb.shards s).queue, 1 ≤ o.orderId

theorem Tracked.setBook {mb : MarketBook} (h : mb.Tracked) {s : Nat} {hash : Int}
    {e : SymbolBook} {f : FlagBook} (tracks : Tracks e.book f) : (mb.setBook s hash e).Tracked := by
  constructor
  · intro k x e' known
    by_cases here : k = s ∧ x = hash
    · obtain ⟨rfl, rfl⟩ := here
      rw [mb.setBook_self] at known
      cases known
      exact ⟨f, tracks⟩
    · rw [mb.setBook_other here] at known
      exact h.books k x e' known
  · intro k
    rw [mb.setBook_queue]
    exact h.queued k

/-- `process_one` returns unless the book runs into a limit. -/
theorem Tracked.processOne {mb : MarketBook} (h : mb.Tracked) (registry : Registry) (w : World)
    (s : Nat) {order : Order} (issued : 1 ≤ order.orderId) (hash : Int) :
    Ends Fault.isLimit (fun r => r.1.Tracked) (mb.processOne registry w s order hash) := by
  have ordinary : ∀ o, entry order = some o → Ordinary o.orderId := by
    intro o booked
    rw [entry_id booked]
    exact ordinary_of_nonneg (by omega)
  unfold MarketBook.processOne
  cases known : (mb.shards s).privMp hash with
  | none => exact h
  | some e =>
    obtain ⟨f, tracks⟩ := h.books s hash e known
    apply ends_bind (process_ends registry tracks w ordinary)
    rintro ⟨book, w₁⟩ ⟨f', tracks'⟩
    simp only at tracks' ⊢
    have kept : (mb.setBook s hash ⟨book, e.seqLen + 1⟩).Tracked := h.setBook tracks'
    split
    · rw [createSnapshot_tracks tracks']
      exact kept
    · exact kept

/-- The calls hand on only orders that have an id of the server's. -/
def Issued (trace : List MarketCall) : Prop :=
  ∀ order, .submitOrder order ∈ trace → 1 ≤ order.orderId

theorem tracked_run {symbols : List (List UInt8)} {trace : List MarketCall} {mb : MarketBook}
    (run : MarketRun symbols trace mb) (issued : Issued trace) : mb.Tracked := by
  induction run with
  | start =>
    constructor
    · intro s hash e known
      rw [(newOn_books numShards symbols s).2 hash e known]
      exact ⟨{}, tracks_new⟩
    · intro s o member
      rw [new, (newOn_books numShards symbols s).1] at member
      cases member
  | @next trace mb mb' call before taken ih =>
    have old := ih fun order member => issued order (List.mem_append_left _ member)
    cases taken with
    | assignOrderId => exact ⟨old.books, old.queued⟩
    | submitOrder order =>
      constructor
      · intro s
        rw [mb.submitOrder_privMp]
        exact old.books s
      · intro s o member
        rw [mb.submitOrder_queue] at member
        split at member
        · rcases List.mem_append.mp member with earlier | last
          · exact old.queued s o earlier
          · rw [List.mem_singleton.mp last]
            exact issued order (by simp)
        · exact old.queued s o member
    | @drainOne registry _ _ s w w' drained =>
      obtain ⟨order, rest, queue, ran⟩ := drainOne_cases drained
      have popped : (mb.setShard s { mb.shards s with queue := rest }).Tracked := by
        constructor
        · intro k
          rw [mb.setQueue_privMp]
          exact old.books k
        · intro k o member
          rw [mb.setShard_queue] at member
          split at member
          · exact old.queued s o (by rw [queue]; exact List.mem_cons_of_mem _ member)
          · exact old.queued k o member
      exact ends_ok (popped.processOne registry w _ (old.queued s order (by simp [queue])) _) ran

/-- In every market book the server can reach, the configured symbols are isolated, and a
    request is served unless its book runs into a limit. -/
theorem symbols_isolated (symbols : List (List UInt8))
    (four : ∀ symbol ∈ symbols, symbol.length = symbolBytes) :
    (∀ a b : List UInt8, a.length = symbolBytes → b.length = symbolBytes → a ≠ b →
      symbolHash a ≠ symbolHash b) ∧
    (∀ symbol ∈ symbols, shardIndex symbol < numShards ∧
      (new symbols).bookAt (place symbol) = some {}) ∧
    ∀ trace mb, MarketRun symbols trace mb → mb.Isolates symbols ∧
      (Issued trace → ∀ registry order, 1 ≤ order.orderId →
        (∃ mb' w, mb.serve registry order = .ok (mb', w)) ∨
        ∃ e : Fault, mb.serve registry order = .error e ∧ e.isLimit) := by
  refine ⟨fun a b la lb ne same => ne (symbolHash_inj la lb same), fun symbol member => ?_,
    fun trace mb run => ⟨(oneEach_run four run).isolates four, ?_⟩⟩
  · refine ⟨shardIndex_lt symbol, ?_⟩
    have there := ((oneEach_new four).configured four (four symbol member)).mpr member
    obtain ⟨e, known⟩ := Option.isSome_iff_exists.mp there
    rw [known, (newOn_books numShards symbols _).2 _ e known]
  · intro issued registry order numbered
    have ends := (tracked_run run issued).processOne registry {} (shardIndex order.symbol) numbered
      (symbolHash order.symbol)
    cases ran : mb.serve registry order with
    | ok r => exact Or.inl ⟨r.1, r.2, rfl⟩
    | error e => exact Or.inr ⟨e, rfl, ends_error ends ran⟩

def twoSymbols : List (List UInt8) := [[65, 65, 80, 76], [77, 83, 70, 84]]

def bidFor (symbol : List UInt8) (orderId priceLevel : Int) : Order :=
  { requestType := .sendOrder, orderType := .buy, symbol, qty := 5, priceLevel, orderId,
    sessionId := 1 }

def crossingOffer : Order :=
  { bidFor [65, 65, 80, 76] 2 90 with orderType := .sell, sessionId := 2 }

/-- With a bid at rest, an offer that trades and a bid for the other symbol come in either order;
    a bid for a third symbol is refused. -/
theorem symbols_isolated_twoSymbols : ∃ trace mb mb₁ mb₁' mb₂ w w',
    MarketRun twoSymbols trace mb ∧ Issued trace ∧
    mb.serve (fun _ _ => true) crossingOffer = .ok (mb₁, w) ∧
    tradesOf w.log = [.trade (bidFor [65, 65, 80, 76] 1 100) crossingOffer 5 90] ∧
    mb.serve (fun _ _ => true) (bidFor [77, 83, 70, 84] 3 100) = .ok (mb₁', w') ∧
    mb₁.serve (fun _ _ => true) (bidFor [77, 83, 70, 84] 3 100) = .ok (mb₂, w') ∧
    mb₁'.serve (fun _ _ => true) crossingOffer = .ok (mb₂, w) ∧
    mb.serve (fun _ _ => true) (bidFor [78, 70, 76, 88] 4 100) =
      .ok (mb, World.writeIfLocked (fun _ _ => true) {} 1 (.error symbolNotFound)) := by
  have seen : (do
      let resting ← (new twoSymbols).assignOrderId.2.serve (fun _ _ => true)
        (bidFor [65, 65, 80, 76] 1 100)
      let crossed ← resting.1.serve (fun _ _ => true) crossingOffer
      let _ ← resting.1.serve (fun _ _ => true) (bidFor [77, 83, 70, 84] 3 100)
      pure (tradesOf crossed.2.log)) =
    (.ok [.trade (bidFor [65, 65, 80, 76] 1 100) crossingOffer 5 90] :
      Except Fault (List Event)) := ok_of_toOption (by decide +kernel)
  obtain ⟨⟨mb, w₀⟩, rests, seen⟩ := bind_ok seen
  obtain ⟨⟨mb₁, w⟩, crosses, seen⟩ := bind_ok seen
  obtain ⟨⟨mb₁', w'⟩, other, seen⟩ := bind_ok seen
  have empty : ((new twoSymbols).assignOrderId.2.shards (shardIndex [65, 65, 80, 76])).queue = [] :=
    (newOn_books numShards twoSymbols _).1
  have drained := @drainOne_alone (fun _ _ => true) _ {} (bidFor [65, 65, 80, 76] 1 100) empty
  have initial : MarketRun twoSymbols [] _ := .start
  have numbered := initial.next .assignOrderId
  have queued := numbered.next (.submitOrder (bidFor [65, 65, 80, 76] 1 100))
  have run := queued.next (.drainOne (drained.trans
    (congrArg (fun r => r >>= fun r => Except.ok (some r)) rests)))
  have issued : Issued ([] ++ [.assignOrderId] ++
      [.submitOrder (bidFor [65, 65, 80, 76] 1 100)] ++
      [.drainOne (shardIndex [65, 65, 80, 76])]) := by
    intro order member
    simp at member
    subst member
    decide
  obtain ⟨_, _, all⟩ := symbols_isolated twoSymbols (by decide)
  obtain ⟨isolates, _⟩ := all _ mb run
  obtain ⟨mb₂, after, before⟩ := isolates.both _ _ crossingOffer (bidFor [77, 83, 70, 84] 3 100)
    mb₁ mb₁' w w' (by decide) (by decide) (by decide) crosses other
  refine ⟨_, mb, mb₁, mb₁', mb₂, w, w', run, issued, crosses, ?_, other, after, before, ?_⟩
  · exact Except.ok.inj seen
  · exact isolates.missing _ (bidFor [78, 70, 76, 88] 4 100) (by decide) (by decide)

end MarketBook
end MarketBookExchange
