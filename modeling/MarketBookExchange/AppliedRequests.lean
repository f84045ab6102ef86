import MarketBookExchange.ReceivedRequests
import MarketBookExchange.SequentialRuns
import MarketBookExchange.SymbolIsolation

/- Each accepted request is applied once, to the book of its symbol, by the one thread that has
   the symbol's shard, and after the earlier requests of its session for the symbol. -/
namespace MarketBookExchange
open Outcome Transitions

def ThreadAction.isProcess : ThreadAction → Bool
  | .process _ _ _ _ => true
  | _ => false

section Books
variable {shards : Nat}

/-- The book of a symbol, where `hash_symbol` places it. -/
def MarketBook.bookOn (shards : Nat) (mb : MarketBook) (symbol : List UInt8) : Option SymbolBook :=
  (mb.shards (shardOf shards symbol)).privMp (symbolHash symbol)

theorem length_symBytes (symbol : List UInt8) :
    (MarketBook.symBytes symbol).length = symbolBytes := by
  unfold MarketBook.symBytes
  rw [List.length_append, List.length_take, List.length_replicate]
  omega

theorem bookOn_setBook_self (mb : MarketBook) (symbol : List UInt8) (e : SymbolBook) :
    (mb.setBook (shardOf shards symbol) (symbolHash symbol) e).bookOn shards symbol = some e := by
  rw [MarketBook.bookOn, MarketBook.setBook_self]

theorem bookOn_setBook_other (mb : MarketBook) {symbol other : List UInt8}
    (len : symbol.length = symbolBytes) (len' : other.length = symbolBytes)
    (ne : other ≠ symbol) (e : SymbolBook) :
    (mb.setBook (shardOf shards symbol) (symbolHash symbol) e).bookOn shards other =
      mb.bookOn shards other := by
  rw [MarketBook.bookOn, MarketBook.setBook_other]
  · rfl
  · rintro ⟨_, hash⟩
    exact ne (symbolHash_inj len' len hash)

theorem bookOn_installOn (mb : MarketBook) (name : List UInt8) {symbol : List UInt8}
    (len : symbol.length = symbolBytes) : (mb.installOn shards name).bookOn shards symbol =
      if symbol = MarketBook.symBytes name then some ((mb.bookOn shards symbol).getD {})
      else mb.bookOn shards symbol := by
  unfold MarketBook.installOn
  simp only
  by_cases same : symbol = MarketBook.symBytes name
  · subst same
    rw [if_pos rfl]
    cases known : (mb.shards (shardOf shards (MarketBook.symBytes name))).privMp
        (symbolHash (MarketBook.symBytes name)) with
    | some e =>
      simp only
      rw [show mb.bookOn shards (MarketBook.symBytes name) = some e from known]
      rfl
    | none =>
      simp only
      rw [bookOn_setBook_self,
        show mb.bookOn shards (MarketBook.symBytes name) = none from known]
      rfl
  · rw [if_neg same]
    split
    · rfl
    · exact bookOn_setBook_other mb (length_symBytes name) len same _

/-- A symbol has a book if its 4 bytes are those of a configured name. -/
theorem bookOn_newOn (symbols : List (List UInt8)) {symbol : List UInt8}
    (len : symbol.length = symbolBytes) : (MarketBook.newOn shards symbols).bookOn shards symbol =
      if symbol ∈ symbols.map MarketBook.symBytes then some {} else none := by
  have all : ∀ mb : MarketBook, (symbols.foldl (MarketBook.installOn shards) mb).bookOn shards
      symbol = if symbol ∈ symbols.map MarketBook.symBytes then
        some ((mb.bookOn shards symbol).getD {}) else mb.bookOn shards symbol := by
    induction symbols with
    | nil => exact fun _ => rfl
    | cons name symbols ih =>
      intro mb
      rw [List.foldl_cons, ih, bookOn_installOn mb name len, List.map_cons]
      by_cases first : symbol = MarketBook.symBytes name
      · simp [first]
      · simp [first]
  exact all {}

theorem bookOn_submitOn (mb : MarketBook) (order : Order) (symbol : List UInt8) :
    (mb.submitOn shards order).bookOn shards symbol = mb.bookOn shards symbol := by
  rw [MarketBook.bookOn, MarketBook.submitOn, MarketBook.setQueue_privMp]
  rfl

theorem bookOn_popQueue (mb : MarketBook) (s : Nat) (symbol : List UInt8) :
    (mb.popQueue s).bookOn shards symbol = mb.bookOn shards symbol := by
  rw [MarketBook.bookOn, MarketBook.popQueue_privMp]
  rfl

theorem bookOn_quiet {threads : Nat} {e e' : Exchange} {action : ThreadAction}
    (other : action.isProcess = false) (taken : ThreadStep shards threads e action e')
    (symbol : List UInt8) :
    e'.server.market.bookOn shards symbol = e.server.market.bookOn shards symbol := by
  cases taken with
  | handler inHandler taken =>
    rw [MarketBook.bookOn, MarketBook.bookOn, Exchange.setServer, handler_shards inHandler taken]
  | submit acked => exact bookOn_submitOn e.server.market _ symbol
  | skip drains ready written empty => rfl
  | pop drains ready written head => exact bookOn_popQueue e.server.market _ symbol
  | process popped processed => simp [ThreadAction.isProcess] at other

end Books

/-- `process_one` has taken the request to a book. -/
def Applies (b : OrderBook) (order : Order) (b' : OrderBook) : Prop :=
  ∃ registry w, b.process registry {} order = .ok (b', w)

/-- The requests have been applied to a new book, one after the other. -/
abbrev BookRun : List Order → OrderBook → Prop := Runs Applies {}

/-- The book of each configured symbol has been through the symbol's requests, and nothing else;
    the other symbols have none. -/
structure Applied (shards : Nat) (symbols : List (List UInt8)) (reqs : List Order)
    (mb : MarketBook) : Prop where
  listed : ∀ symbol ∈ symbols.map MarketBook.symBytes, ∃ e, mb.bookOn shards symbol = some e ∧
    BookRun (forSymbol symbol reqs) e.book ∧ e.seqLen = (forSymbol symbol reqs).length
  unlisted : ∀ symbol, symbol.length = symbolBytes → symbol ∉ symbols.map MarketBook.symBytes →
    mb.bookOn shards symbol = none

theorem length_configured {symbols : List (List UInt8)} {symbol : List UInt8}
    (member : symbol ∈ symbols.map MarketBook.symBytes) : symbol.length = symbolBytes := by
  obtain ⟨name, _, rfl⟩ := List.mem_map.mp member
  exact length_symBytes name

section Applied
variable {shards threads : Nat} {symbols : List (List UInt8)} {trace : List ThreadAction}
variable {e : Exchange}

theorem applied_new : Applied shards symbols [] (.newOn shards symbols) := by
  constructor
  · intro symbol member
    refine ⟨{}, ?_, .start, rfl⟩
    rw [bookOn_newOn symbols (length_configured member), if_pos member]
  · intro symbol len other
    rw [bookOn_newOn symbols len, if_neg other]

namespace Applied
variable {reqs : List Order} {mb mb' : MarketBook}

theorem quiet (h : Applied shards symbols reqs mb)
    (same : ∀ symbol, mb'.bookOn shards symbol = mb.bookOn shards symbol) :
    Applied shards symbols reqs mb' := by
  constructor
  · intro symbol member
    rw [same]
    exact h.listed symbol member
  · intro symbol len other
    rw [same]
    exact h.unlisted symbol len other

theorem forSymbol_next (symbol : List UInt8) (reqs : List Order) (order : Order) :
    forSymbol symbol (reqs ++ [order]) =
      forSymbol symbol reqs ++ if order.symbol = symbol then [order] else [] := by
  rw [forSymbol_append]
  by_cases own : order.symbol = symbol <;> simp [forSymbol, own]

theorem process (h : Applied shards symbols reqs mb) {registry : Registry} {order : Order}
    (len : order.symbol.length = symbolBytes) {w : World}
    (ran : mb.processOne registry {} (shardOf shards order.symbol) order
      (symbolHash order.symbol) = .ok (mb', w)) :
    Applied shards symbols (reqs ++ [order]) mb' := by
  rcases MarketBook.processOne_cases ran with ⟨missing, rfl, _⟩ |
    ⟨e, book, w₁, known, called, rfl, _⟩
  · have unlisted : order.symbol ∉ symbols.map MarketBook.symBytes := by
      intro member
      obtain ⟨e, there, _⟩ := h.listed order.symbol member
      cases missing.symm.trans there
    constructor
    · intro symbol member
      have ne : order.symbol ≠ symbol := fun same => unlisted (by rw [same]; exact member)
      rw [forSymbol_next, if_neg ne, List.append_nil]
      exact h.listed symbol member
    · exact h.unlisted
  · have listed : order.symbol ∈ symbols.map MarketBook.symBytes := by
      by_contra other
      cases known.symm.trans (h.unlisted order.symbol len other)
    constructor
    · intro symbol member
      rw [forSymbol_next]
      by_cases own : order.symbol = symbol
      · subst own
        obtain ⟨e', there, run, counted⟩ := h.listed _ member
        cases known.symm.trans there
        refine ⟨_, bookOn_setBook_self mb order.symbol _, ?_, ?_⟩
        · rw [if_pos rfl]
          exact run.next ⟨registry, w₁, called⟩
        · rw [if_pos rfl, List.length_append, counted]
          rfl
      · rw [if_neg own, List.append_nil,
          bookOn_setBook_other mb len (length_configured member) (Ne.symm own)]
        exact h.listed symbol member
    · intro symbol len' other
      have ne : symbol ≠ order.symbol := fun same => other (by rw [same]; exact listed)
      rw [bookOn_setBook_other mb len len' ne]
      exact h.unlisted symbol len' other

end Applied

theorem applied_run (pos : 0 < shards) (threaded : 1 ≤ threads)
    (run : ExchangeRun shards threads symbols trace e) :
    Applied shards symbols (processed trace) e.server.market := by
  induction run with
  | start => exact applied_new
  | @next trace e e' action before taken ih =>
    have after := before.next taken
    cases kind : action.isProcess with
    | false =>
      have unprocessed : processed [action] = [] := by
        cases action with
        | process i s hash order => cases kind
        | _ => rfl
      rw [processed_append, unprocessed, List.append_nil]
      exact ih.quiet (bookOn_quiet kind taken)
    | true =>
      cases taken with
      | @process i s order registry market w popped ran =>
        have member : order ∈ forSymbol order.symbol (processed (trace ++
            [.process i (shardOf shards order.symbol) (symbolHash order.symbol) order])) := by
          rw [mem_forSymbol, processed_append]
          exact ⟨List.mem_append_right _ (List.mem_singleton_self _), rfl⟩
        have delivered := delivered_run pos threaded after order.symbol
        rw [processed_append]
        exact ih.process (delivered.fromWire order member).symbol ran
      | _ => cases kind

theorem drains_symbol (pos : 0 < shards) (threaded : 1 ≤ threads) (symbol : List UInt8) :
    ∃ i, Drains shards threads i (shardOf shards symbol) :=
  drains_some threaded (shardOf_lt pos symbol)

theorem processed_once (pos : 0 < shards) (threaded : 1 ≤ threads)
    (run : ExchangeRun shards threads symbols trace e) (order : Order) :
    (processed trace).count order ≤ 1 ∧ (order ∈ processed trace → order ∈ submitted trace) := by
  obtain ⟨i, drains⟩ := drains_symbol pos threaded order.symbol
  have count := submitted_count run drains
  have once := submitted_once run order
  constructor
  · omega
  · intro member
    have positive := List.count_pos_iff.mpr member
    apply List.count_pos_iff.mp
    omega

/-- With the queues empty, a submitted request that was not processed is in the hand of the
    thread of its shard. -/
theorem processed_or_held (pos : 0 < shards) (threaded : 1 ≤ threads)
    (run : ExchangeRun shards threads symbols trace e) (empty : ∀ s, s < shards → e.queue s = [])
    {order : Order} (member : order ∈ submitted trace) :
    ((∀ i, (e.worker i).popped ≠ some order) ∧ (processed trace).count order = 1) ∨
    (∃ i, Drains shards threads i (shardOf shards order.symbol) ∧
      e.worker i = ⟨shardOf shards order.symbol, some order⟩ ∧ order ∉ processed trace) := by
  obtain ⟨i, drains⟩ := drains_symbol pos threaded order.symbol
  have one : (submitted trace).count order = 1 := by
    have once := submitted_once run order
    have positive := List.count_pos_iff.mpr member
    omega
  have count := submitted_count run drains
  rw [empty _ (shardOf_lt pos order.symbol), List.count_nil, Nat.add_zero, one] at count
  by_cases held : ∃ j, (e.worker j).popped = some order
  · obtain ⟨j, popped⟩ := held
    obtain ⟨drains', shard⟩ := (placed_run run).held j order popped
    rw [← shard] at drains'
    have same := drains_once drains' drains
    subst same
    have hand : e.inHand j (shardOf shards order.symbol) = [order] := by
      unfold Exchange.inHand
      rw [if_pos shard.symm, popped, Option.toList_some]
    rw [hand, List.count_singleton_self] at count
    refine Or.inr ⟨j, drains, ?_, ?_⟩
    · rw [shard, ← popped]
    · apply List.count_eq_zero.mp
      omega
  · have free : ∀ j, (e.worker j).popped ≠ some order := fun j popped => held ⟨j, popped⟩
    have hand : (e.inHand i (shardOf shards order.symbol)).count order = 0 := by
      rw [List.count_eq_zero]
      unfold Exchange.inHand
      split
      · rw [Option.mem_toList]
        exact free i
      · exact List.not_mem_nil
    refine Or.inl ⟨free, ?_⟩
    omega

/-- What has been submitted is processed once, by the one thread that drains the shard of its
    symbol, and in the order in which its session sent its requests for the symbol. The book of
    a symbol has been through just the requests for it that were processed, in that order. With
    all queues empty, what is not processed yet is in the hand of its thread. -/
theorem requests_applied_once_in_order (pos : 0 < shards) (threaded : 1 ≤ threads)
    (run : ExchangeRun shards threads symbols trace e) :
    (∀ s, s < shards →
      ∃ i, Drains shards threads i s ∧ ∀ j, Drains shards threads j s → j = i) ∧
    (∀ i s hash order, .process i s hash order ∈ trace →
      Drains shards threads i s ∧ s = shardOf shards order.symbol ∧
        hash = symbolHash order.symbol) ∧
    Applied shards symbols (processed trace) e.server.market ∧
    (∀ order, (processed trace).count order ≤ 1 ∧
      (order ∈ processed trace → order ∈ submitted trace)) ∧
    ((∀ s, s < shards → e.queue s = []) → ∀ order ∈ submitted trace,
      ((∀ i, (e.worker i).popped ≠ some order) ∧ (processed trace).count order = 1) ∨
      (∃ i, Drains shards threads i (shardOf shards order.symbol) ∧
        e.worker i = ⟨shardOf shards order.symbol, some order⟩ ∧ order ∉ processed trace)) ∧
    ∀ session symbol,
      ofSession session symbol (processed trace) <+: ofSession session symbol (submitted trace) ∧
      (ofSession session symbol (processed trace)).map Order.request <+:
        sentBy session symbol trace := by
  refine ⟨fun s small => drains_unique threaded small, (placed_run run).calls,
    applied_run pos threaded run, processed_once pos threaded run,
    fun empty order member => processed_or_held pos threaded run empty member,
    fun session symbol => ?_⟩
  obtain ⟨i, drains⟩ := drains_symbol pos threaded symbol
  have served := processed_in_order run drains session
  exact ⟨served, (served.map _).trans (submitted_in_order run session symbol)⟩

/-- One shard and two matching threads: the last of them takes the requests of two sessions to
    their book, three of them from one session. -/
theorem requests_applied_once_in_order_fourRequests : ∃ trace e,
    ExchangeRun 1 2 [nflx] trace e ∧
    (∀ s, s < 1 → ∃ i, Drains 1 2 i s ∧ ∀ j, Drains 1 2 j s → j = i) ∧
    ofSession 1 nflx (processed trace) = [firstBidOrder, cancelRequest 3, cancelRequest 4] ∧
    (ofSession 1 nflx (processed trace)).map Order.request <+: sentBy 1 nflx trace ∧
    (∀ order ∈ submitted trace, (processed trace).count order = 1) ∧
    (∃ entry, e.server.market.bookOn 1 nflx = some entry ∧
      BookRun [firstBidOrder, firstOfferOrder, cancelRequest 3, cancelRequest 4] entry.book) := by
  obtain ⟨trace, e, run, quiet, subs, procs, _⟩ := fourRequests_run
  obtain ⟨unique, _, applied, once, empty, sent⟩ :=
    requests_applied_once_in_order (by decide) (by decide) run
  refine ⟨trace, e, run, unique, ?_, (sent 1 nflx).2, ?_, ?_⟩
  · rw [procs, subs]
    rfl
  · intro order member
    rcases empty (fun s _ => quiet.queue s) order member with ⟨_, counted⟩ | ⟨_, _, _, missed⟩
    · exact counted
    · exact absurd (by rw [procs]; exact member) missed
  · obtain ⟨entry, there, book, _⟩ := applied.listed nflx (by decide)
    rw [procs, subs] at book
    exact ⟨entry, there, book⟩

end Applied

end MarketBookExchange
