import MarketBookExchange.AppliedRequests
import MarketBookExchange.Lib.Datagrams
import MarketBookExchange.Lib.Simulation
import MarketBookExchange.OrderLifeCycle
import MarketBookExchange.PriceTimeSweep
import MarketBookExchange.SnapshotFeed

/- The exchange with its market data: each call of `process_one` starts a thread that sends a
   snapshot of the book, whenever it comes to run, over a network that promises nothing. -/
namespace MarketBookExchange
open Outcome Transitions Datagrams KillFlagTable

structure Broadcast where
  shard : Nat
  snapshot : ObSnapshot
  symbol : List UInt8
  seqLen : Int
  deriving DecidableEq

def Broadcast.port (b : Broadcast) : Nat := 30001 + b.shard

def Broadcast.datagram (b : Broadcast) : List UInt8 :=
  sendBroadcast widths snapshotLen b.snapshot b.symbol b.seqLen

def broadcasts (s : Nat) (log : List Event) : List Broadcast :=
  log.filterMap fun
    | .broadcast snapshot symbol seqLen => some ⟨s, snapshot, symbol, seqLen⟩
    | _ => none

structure Feed where
  exchange : Exchange
  net : Net Broadcast := {}

/-- What `snapshotListener` has decoded so far, on a socket bound to that port. -/
def Feed.heard (feed : Feed) (port : Nat) : List (Except SnapshotFault ClientSnapshot) :=
  (feed.net.received.filter fun b => b.port = port).map fun b =>
    getSnapshot widths snapshotLen (received snapshotLen b.datagram)

inductive FeedAction where
  | thread (action : ThreadAction)
  | process (i s : Nat) (hash : Int) (order : Order) (log : List Event)
  | network

/-- A step of the exchange, with the threads it starts, or a step of these or of the network. -/
inductive FeedStep (shards threads : Nat) : Feed → FeedAction → Feed → Prop
  | thread {feed : Feed} {action : ThreadAction} {e : Exchange}
      (other : action.isProcess = false)
      (taken : ThreadStep shards threads feed.exchange action e) :
      FeedStep shards threads feed (.thread action) { feed with exchange := e }
  | process {feed : Feed} {i s : Nat} {order : Order} {registry : Registry}
      {market : MarketBook} {w : World} (popped : feed.exchange.worker i = ⟨s, some order⟩)
      (processed : feed.exchange.server.market.processOne registry {}
        (shardOf shards order.symbol) order (symbolHash order.symbol) = .ok (market, w)) :
      FeedStep shards threads feed
        (.process i (shardOf shards order.symbol) (symbolHash order.symbol) order w.log)
        ⟨(feed.exchange.setServer ((feed.exchange.setMarket market).server.setOutbox
          (shardOf shards order.symbol) (messagesOf w.log))).setWorker i
            ⟨nextShard shards threads i s, none⟩,
          feed.net.post (broadcasts (shardOf shards order.symbol) w.log)⟩
  | network {feed : Feed} {net : Net Broadcast} (moved : Moves feed.net net) :
      FeedStep shards threads feed .network { feed with net }

abbrev FeedRun (shards threads : Nat) (symbols : List (List UInt8)) :
    List FeedAction → Feed → Prop :=
  Runs (FeedStep shards threads) { exchange :=
    ⟨{ market := .newOn shards symbols }, fun i => ⟨(shardRange shards threads i).1, none⟩⟩ }

def FeedAction.ofThread : FeedAction → Option ThreadAction
  | .thread action => some action
  | .process i s hash order _ => some (.process i s hash order)
  | .network => none

def threadActions (trace : List FeedAction) : List ThreadAction :=
  trace.filterMap FeedAction.ofThread

@[simp] theorem threadActions_append (trace more : List FeedAction) :
    threadActions (trace ++ more) = threadActions trace ++ threadActions more :=
  List.filterMap_append

section Feed
variable {shards threads : Nat} {symbols : List (List UInt8)} {trace : List FeedAction}
variable {feed : Feed}

theorem feed_simulates (shards threads : Nat) : Simulates (FeedStep shards threads)
    (ThreadStep shards threads) (fun _ _ => True) Feed.exchange FeedAction.ofThread := by
  constructor
  · intro _ feed action feed' seen _ taken sees
    cases taken with
    | thread other taken =>
      cases sees
      exact taken
    | process popped processed =>
      cases sees
      exact .process popped processed
    | network moved => cases sees
  · intro _ feed action feed' _ taken unseen
    cases taken with
    | thread other taken => cases unseen
    | process popped processed => cases unseen
    | network moved => rfl

theorem exchange_of_feed (run : FeedRun shards threads symbols trace feed) :
    ExchangeRun shards threads symbols (threadActions trace) feed.exchange :=
  (feed_simulates shards threads).run rfl (fun _ _ _ => trivial) run

theorem feed_of_exchange {actions : List ThreadAction} {e : Exchange}
    (run : ExchangeRun shards threads symbols actions e) :
    ∃ trace feed, FeedRun shards threads symbols trace feed ∧ threadActions trace = actions ∧
      feed.exchange = e ∧ feed.net.sent = [] := by
  induction run with
  | start => exact ⟨[], _, .start, rfl, rfl, rfl⟩
  | @next actions e e' action before taken ih =>
    obtain ⟨trace, feed, run, same, rfl, silent⟩ := ih
    cases quiet : action.isProcess with
    | false =>
      refine ⟨_, _, run.next (.thread quiet taken), ?_, rfl, silent⟩
      rw [threadActions_append, same]
      rfl
    | true =>
      cases taken with
      | process popped processed =>
        refine ⟨_, _, run.next (.process popped processed), ?_, rfl, silent⟩
        rw [threadActions_append, same]
        rfl
      | _ => cases quiet

end Feed

def processedFor (symbol : List UInt8) (trace : List FeedAction) : List Order :=
  forSymbol symbol (processed (threadActions trace))

def tradedFor (symbol : List UInt8) (trace : List FeedAction) : List Event :=
  trace.flatMap fun
    | .process _ _ _ order log => if order.symbol = symbol then tradesOf log else []
    | _ => []

def posted (trace : List FeedAction) : List Broadcast :=
  trace.flatMap fun
    | .process _ s _ _ log => broadcasts s log
    | _ => []

def LiveBook.snapshot (L : LiveBook) : ObSnapshot :=
  { buySide := snapshotSide (L .buy), sellSide := snapshotSide (L .sell) }

/-- The snapshot of a symbol after those requests. -/
def broadcastOf (shards : Nat) (symbol : List UInt8) (reqs : List Order) : Broadcast where
  shard := shardOf shards symbol
  snapshot := (LiveBook.run (fun _ => []) reqs).1.snapshot
  symbol
  seqLen := reqs.length

def tape (shards : Nat) (symbol : List UInt8) (reqs : List Order) : List Broadcast :=
  (List.range reqs.length).map fun k => broadcastOf shards symbol (reqs.take (k + 1))

theorem tape_append (shards : Nat) (symbol : List UInt8) (reqs : List Order) (order : Order) :
    tape shards symbol (reqs ++ [order]) =
      tape shards symbol reqs ++ [broadcastOf shards symbol (reqs ++ [order])] := by
  unfold tape
  rw [List.length_append, List.length_singleton, List.range_succ, List.map_append, List.map_singleton]
  congr 1
  · apply List.map_congr_left
    intro k member
    have early := List.mem_range.mp member
    rw [List.take_append_of_le_length (by omega)]
  · rw [List.take_of_length_le (by simp)]

section Calls
variable {registry : Registry} {mb mb' : MarketBook} {w w' : World} {s : Nat} {order : Order}
  {hash : Int}

theorem processOne_ok (ran : mb.processOne registry w s order hash = .ok (mb', w')) :
    ((mb.shards s).privMp hash = none ∧ mb' = mb ∧
      w' = w.writeIfLocked registry order.sessionId (.error symbolNotFound)) ∨
    ∃ e book w₁ snapshot, (mb.shards s).privMp hash = some e ∧
      e.book.process registry w order = .ok (book, w₁) ∧ book.createSnapshot = .ok snapshot ∧
      mb' = mb.setBook s hash { book, seqLen := e.seqLen + 1 } ∧
      w' = w₁.record (.broadcast snapshot (order.symbol.take 4) (e.seqLen + 1)) := by
  unfold MarketBook.processOne at ran
  cases known : (mb.shards s).privMp hash with
  | none =>
    rw [known] at ran
    cases ran
    exact Or.inl ⟨rfl, rfl, rfl⟩
  | some e =>
    rw [known] at ran
    obtain ⟨⟨book, w₁⟩, processed, ran⟩ := bind_ok ran
    simp only [snapshotFrequency, Int.emod_one, if_true] at ran
    obtain ⟨snapshot, made, ran⟩ := bind_ok ran
    cases ran
    exact Or.inr ⟨e, book, w₁, snapshot, rfl, processed, made, rfl, rfl⟩

@[simp] theorem broadcasts_append (s : Nat) (log more : List Event) :
    broadcasts s (log ++ more) = broadcasts s log ++ broadcasts s more := List.filterMap_append

theorem broadcasts_written (s : Nat) (told : Bool) (session : Int) (response : Response) :
    broadcasts s (written told session response) = [] := by
  unfold written
  cases told <;> rfl

theorem updateBook_broadcasts (registry : Registry) (f : FlagBook) (w : World) (s : Nat) :
    broadcasts s (f.updateBook registry w).2.log = broadcasts s w.log := by
  apply updateBook_rule registry (fun _ v => broadcasts s v.log = broadcasts s w.log)
  · intro g v t front rest same head
    rw [evict_log, broadcasts_append, same]
    unfold evictEvents
    rw [broadcasts_append, broadcasts_written]
    exact List.append_nil _
  · intro g v bo bids ao asks same buy sell _
    rw [tradeFronts_log, broadcasts_append, same]
    unfold tradeEvents
    simp only
    rw [← List.singleton_append, broadcasts_append, broadcasts_append, broadcasts_written,
      broadcasts_written]
    exact List.append_nil _
  · rfl

/-- A book that keeps to the market does so after one call of `process_one`, unless that runs
    into a limit. -/
theorem process_keeps {reqs : List Order} {b : OrderBook} {L : LiveBook} {es : List Event}
    (h : Market reqs b w L es) (ok : Admitted reqs order) :
    Ends Fault.isLimit (fun r => Market (reqs ++ [order]) r.1 r.2 (L.process order).1
      (es ++ (L.process order).2)) (b.process registry w order) := by
  apply ends_bind (dispatch_market registry h ok)
  exact fun _ after => updateBook_market registry after

theorem process_broadcasts {reqs : List Order} {b b' : OrderBook} {L : LiveBook} {es : List Event}
    (h : Market reqs b w L es) (ok : Admitted reqs order)
    (ran : b.process registry w order = .ok (b', w')) (s : Nat) :
    broadcasts s w'.log = broadcasts s w.log := by
  unfold OrderBook.process at ran
  obtain ⟨⟨b₁, w₁⟩, dispatched, updated⟩ := bind_ok ran
  obtain ⟨f, tracks, _⟩ := ends_ok (dispatch_market registry h ok) dispatched
  obtain ⟨_, told⟩ := ends_ok (updateBook_tracks registry tracks w₁) updated
  simp only at told
  rw [told, updateBook_broadcasts]
  rcases dispatch_answers dispatched with ⟨_, rfl⟩ | ⟨_, rfl⟩
  · rw [writeIfLocked_log, broadcasts_append, broadcasts_written, List.append_nil]
  · rfl

theorem Market.snapshot {reqs : List Order} {b : OrderBook} {L : LiveBook} {es : List Event}
    (h : Market reqs b w L es) : b.createSnapshot = .ok L.snapshot := by
  obtain ⟨f, tracks, shows, _⟩ := h
  rw [createSnapshot_tracks tracks, FlagBook.createSnapshot, shows.live, shows.live]
  rfl

theorem Market.alone {reqs : List Order} {b : OrderBook} {L : LiveBook} {es : List Event}
    (h : Market reqs b w L es) : Market reqs b {} L [] := by
  obtain ⟨f, tracks, shows, _⟩ := h
  exact ⟨f, tracks, shows, rfl⟩

end Calls

abbrev marketAfter (reqs : List Order) : LiveBook × List Event := LiveBook.run (fun _ => []) reqs

theorem marketAfter_append (reqs : List Order) (order : Order) :
    marketAfter (reqs ++ [order]) = (((marketAfter reqs).1.process order).1,
      (marketAfter reqs).2 ++ ((marketAfter reqs).1.process order).2) := by
  unfold marketAfter
  rw [LiveBook.run_append]
  simp [LiveBook.run]

/-- The book of a symbol, its trades and the threads started for it, after what has been
    processed for it. -/
structure BookKept (shards : Nat) (symbol : List UInt8) (trace : List FeedAction)
    (e : SymbolBook) : Prop where
  market : Market (processedFor symbol trace) e.book {} (marketAfter (processedFor symbol trace)).1 []
  seqLen : e.seqLen = (processedFor symbol trace).length
  trades : tradedFor symbol trace = (marketAfter (processedFor symbol trace)).2
  posts : (posted trace).filter (fun b => b.symbol = symbol) =
    tape shards symbol (processedFor symbol trace)

theorem BookKept.same {shards : Nat} {symbol : List UInt8} {trace trace' : List FeedAction}
    {e : SymbolBook} (h : BookKept shards symbol trace e)
    (reqs : processedFor symbol trace' = processedFor symbol trace)
    (trades : tradedFor symbol trace' = tradedFor symbol trace)
    (posts : (posted trace').filter (fun b => b.symbol = symbol) =
      (posted trace).filter fun b => b.symbol = symbol) : BookKept shards symbol trace' e := by
  constructor
  · rw [reqs]
    exact h.market
  · rw [reqs]
    exact h.seqLen
  · rw [trades, reqs]
    exact h.trades
  · rw [posts, reqs]
    exact h.posts

structure Unlisted (shards : Nat) (symbol : List UInt8) (trace : List FeedAction)
    (mb : MarketBook) : Prop where
  book : mb.bookOn shards symbol = none
  trades : tradedFor symbol trace = []

/-- Each symbol that is configured has a book that is kept. -/
structure Follows (shards : Nat) (symbols : List (List UInt8)) (trace : List FeedAction)
    (mb : MarketBook) : Prop where
  listed : ∀ symbol ∈ symbols.map MarketBook.symBytes,
    ∃ e, mb.bookOn shards symbol = some e ∧ BookKept shards symbol trace e
  unlisted : ∀ symbol, symbol.length = symbolBytes → symbol ∉ symbols.map MarketBook.symBytes →
    Unlisted shards symbol trace mb
  started : ∀ b ∈ posted trace, b.symbol ∈ symbols.map MarketBook.symBytes

section Follows
variable {shards threads : Nat} {symbols : List (List UInt8)} {trace : List FeedAction}
variable {feed : Feed} {symbol : List UInt8} {mb mb' : MarketBook}

theorem follows_new : Follows shards symbols [] (.newOn shards symbols) := by
  constructor
  · intro symbol member
    refine ⟨{}, ?_, market_new, rfl, rfl, rfl⟩
    rw [bookOn_newOn symbols (length_configured member), if_pos member]
  · intro symbol len other
    refine ⟨?_, rfl⟩
    rw [bookOn_newOn symbols len, if_neg other]
  · intro b member
    cases member

theorem Follows.quiet (h : Follows shards symbols trace mb) (action : FeedAction)
    (nothing : processed (threadActions [action]) = [])
    (still : ∀ symbol, tradedFor symbol [action] = []) (silent : posted [action] = [])
    (books : ∀ symbol, mb'.bookOn shards symbol = mb.bookOn shards symbol) :
    Follows shards symbols (trace ++ [action]) mb' := by
  have reqs : ∀ symbol, processedFor symbol (trace ++ [action]) = processedFor symbol trace := by
    intro symbol
    unfold processedFor
    rw [threadActions_append, processed_append, nothing, List.append_nil]
  have trades : ∀ symbol, tradedFor symbol (trace ++ [action]) = tradedFor symbol trace := by
    intro symbol
    have more := still symbol
    unfold tradedFor at more ⊢
    rw [List.flatMap_append, more, List.append_nil]
  have posts : posted (trace ++ [action]) = posted trace := by
    unfold posted at silent ⊢
    rw [List.flatMap_append, silent, List.append_nil]
  constructor
  · intro symbol member
    obtain ⟨e, known, kept⟩ := h.listed symbol member
    exact ⟨e, by rw [books, known], kept.same (reqs symbol) (trades symbol) (by rw [posts])⟩
  · intro symbol len other
    obtain ⟨nothing, made⟩ := h.unlisted symbol len other
    exact ⟨by rw [books, nothing], by rw [trades, made]⟩
  · rw [posts]
    exact h.started

section Process
variable {registry : Registry} {i : Nat} {order : Order} {w : World}

theorem process_adds (symbol : List UInt8) (s : Nat) (hash : Int) (log : List Event) :
    processedFor symbol (trace ++ [.process i s hash order log]) =
      processedFor symbol trace ++ (if order.symbol = symbol then [order] else []) ∧
    tradedFor symbol (trace ++ [.process i s hash order log]) =
      tradedFor symbol trace ++ (if order.symbol = symbol then tradesOf log else []) ∧
    posted (trace ++ [.process i s hash order log]) = posted trace ++ broadcasts s log := by
  constructor
  · unfold processedFor
    rw [threadActions_append, processed_append, forSymbol_append]
    congr 1
    simp [threadActions, FeedAction.ofThread, processed, forSymbol, List.filter_cons]
  · constructor
    · unfold tradedFor
      rw [List.flatMap_append]
      simp
    · unfold posted
      rw [List.flatMap_append]
      simp

/-- A request for which there is no book changes nothing. -/
theorem Follows.refuse (h : Follows shards symbols trace mb) {s : Nat} {hash : Int}
    {log : List Event} (missing : order.symbol ∉ symbols.map MarketBook.symBytes)
    (quiet : tradesOf log = []) (silent : broadcasts s log = []) :
    Follows shards symbols (trace ++ [.process i s hash order log]) mb := by
  have adds := fun symbol => @process_adds trace i order symbol s hash log
  constructor
  · intro symbol member
    have ne : order.symbol ≠ symbol := fun same => missing (by rw [same]; exact member)
    obtain ⟨e, known, kept⟩ := h.listed symbol member
    obtain ⟨reqs, traded, started⟩ := adds symbol
    rw [if_neg ne, List.append_nil] at reqs traded
    rw [silent, List.append_nil] at started
    exact ⟨e, known, kept.same reqs traded (by rw [started])⟩
  · intro symbol len other
    obtain ⟨unknown, trades⟩ := h.unlisted symbol len other
    refine ⟨unknown, ?_⟩
    rw [(adds symbol).2.1, trades, quiet, ite_self]
    rfl
  · rw [(adds order.symbol).2.2, silent, List.append_nil]
    exact h.started

/-- The book of the request's own symbol is kept, and one thread started for it. -/
theorem BookKept.process {e : SymbolBook} (kept : BookKept shards order.symbol trace e)
    (ok : Admitted (processedFor order.symbol trace) order)
    (len : order.symbol.length = symbolBytes) {book : OrderBook} {w₁ : World}
    (processed : e.book.process registry {} order = .ok (book, w₁)) {snapshot : ObSnapshot}
    (made : book.createSnapshot = .ok snapshot) {hash : Int} {log : List Event}
    (told : log = (w₁.record (.broadcast snapshot (order.symbol.take 4) (e.seqLen + 1))).log) :
    broadcasts (shardOf shards order.symbol) log = [broadcastOf shards order.symbol
      (processedFor order.symbol trace ++ [order])] ∧
    BookKept shards order.symbol (trace ++ [.process i (shardOf shards order.symbol) hash order
      log]) ⟨book, e.seqLen + 1⟩ := by
  subst told
  have four : order.symbol.take 4 = order.symbol := List.take_of_length_le len.le
  have market := ends_ok (process_keeps kept.market ok) processed
  have silent := process_broadcasts kept.market ok processed
  obtain ⟨_, _, _, trades⟩ := id market
  have shown := market.snapshot
  rw [made] at shown
  cases shown
  have startedNow : broadcasts (shardOf shards order.symbol) (w₁.record (.broadcast
      ((marketAfter (processedFor order.symbol trace)).1.process order).1.snapshot
      (order.symbol.take 4) (e.seqLen + 1))).log = [broadcastOf shards order.symbol
        (processedFor order.symbol trace ++ [order])] := by
    unfold World.record
    rw [broadcasts_append, silent, four, kept.seqLen]
    unfold broadcastOf
    have after := marketAfter_append (processedFor order.symbol trace) order
    unfold marketAfter at after ⊢
    rw [after]
    simp [broadcasts]
  have tradedNow : tradesOf (w₁.record (.broadcast
      ((marketAfter (processedFor order.symbol trace)).1.process order).1.snapshot
      (order.symbol.take 4) (e.seqLen + 1))).log =
        ((marketAfter (processedFor order.symbol trace)).1.process order).2 :=
    (tradesOf_told (Or.inr ⟨_, _, _, rfl⟩)).trans trades
  obtain ⟨reqs, traded, started⟩ := @process_adds trace i order order.symbol
    (shardOf shards order.symbol) hash _
  rw [startedNow] at started
  rw [tradedNow] at traded
  rw [if_pos rfl] at reqs traded
  refine ⟨startedNow, ?_⟩
  constructor
  · rw [reqs, marketAfter_append]
    exact market.alone
  · rw [reqs, kept.seqLen, List.length_append]
    rfl
  · rw [traded, reqs, marketAfter_append, kept.trades]
  · rw [started, List.filter_append, kept.posts, reqs, tape_append]
    simp [broadcastOf]

theorem Follows.process (h : Follows shards symbols trace mb)
    (ok : Admitted (processedFor order.symbol trace) order)
    (len : order.symbol.length = symbolBytes)
    (ran : mb.processOne registry {} (shardOf shards order.symbol) order
      (symbolHash order.symbol) = .ok (mb', w)) :
    Follows shards symbols (trace ++ [.process i (shardOf shards order.symbol)
      (symbolHash order.symbol) order w.log]) mb' := by
  rcases processOne_ok ran with ⟨absent, rfl, rfl⟩ |
    ⟨e, book, w₁, snapshot, known, processed, made, rfl, rfl⟩
  · -- no book: an answer to the session, and nothing else
    apply h.refuse
    · intro member
      obtain ⟨e, known, _⟩ := h.listed _ member
      rw [show mb'.bookOn shards order.symbol = none from absent] at known
      cases known
    · exact tradesOf_noted (noted_writeIfLocked registry {} order.sessionId _)
    · rw [writeIfLocked_log, broadcasts_append, broadcasts_written]
      rfl
  · have member : order.symbol ∈ symbols.map MarketBook.symBytes := by
      by_contra other
      have unknown := (h.unlisted order.symbol len other).book
      rw [show mb.bookOn shards order.symbol = some e from known] at unknown
      cases unknown
    obtain ⟨e', known', kept⟩ := h.listed _ member
    rw [show mb.bookOn shards order.symbol = some e from known] at known'
    cases known'
    obtain ⟨startedNow, kept'⟩ := kept.process ok len processed made rfl
    have adds := fun symbol => @process_adds trace i order symbol (shardOf shards order.symbol)
      (symbolHash order.symbol) (w₁.record (.broadcast snapshot (order.symbol.take 4)
        (e.seqLen + 1))).log
    constructor
    · intro symbol listed
      by_cases same : order.symbol = symbol
      · subst same
        exact ⟨_, bookOn_setBook_self mb order.symbol _, kept'⟩
      · obtain ⟨e', known', kept'⟩ := h.listed symbol listed
        obtain ⟨reqs, traded, started⟩ := adds symbol
        rw [if_neg same, List.append_nil] at reqs traded
        rw [startedNow] at started
        refine ⟨e', ?_, kept'.same reqs traded ?_⟩
        · rw [bookOn_setBook_other mb len (length_configured listed) (Ne.symm same), known']
        · rw [started, List.filter_append]
          simp [broadcastOf, same]
    · intro symbol len' other
      have ne : order.symbol ≠ symbol := fun same => other (by rw [← same]; exact member)
      obtain ⟨unknown, still⟩ := h.unlisted symbol len' other
      constructor
      · rw [bookOn_setBook_other mb len len' (Ne.symm ne), unknown]
      · rw [(adds symbol).2.1, if_neg ne, List.append_nil, still]
    · rw [(adds order.symbol).2.2, startedNow]
      intro b inAll
      rcases List.mem_append.mp inAll with old | new
      · exact h.started b old
      · rw [List.mem_singleton.mp new]
        exact member

end Process

theorem ids_accepted_sublist (l : List Order) : (ids (accepted l)).Sublist (ids l) := by
  induction l with
  | nil => exact List.Sublist.refl _
  | cons order l ih =>
    cases booked : entry order with
    | none =>
      have same : accepted (order :: l) = accepted l := by simp [accepted, booked]
      rw [same]
      exact ih.cons _
    | some o =>
      have more : ids (accepted (order :: l)) = order.orderId :: ids (accepted l) := by
        simp [accepted, ids, booked, entry_id booked]
      rw [more]
      exact ih.cons_cons _

theorem Delivered.admitted {reqs : List Order} {order : Order} {currentId : Int}
    (h : Delivered (reqs ++ [order]) currentId) : Admitted reqs order := by
  constructor
  · exact h.once.sublist (ids_accepted_sublist _)
  · intro o booked
    have low := (h.issued order (by simp)).1
    apply ordinary_of_nonneg
    rw [entry_id booked]
    omega

theorem delivered_feed (pos : 0 < shards) (threaded : 1 ≤ threads)
    (run : FeedRun shards threads symbols trace feed) (symbol : List UInt8) :
    Delivered (processedFor symbol trace) feed.exchange.server.market.currentId :=
  delivered_run pos threaded (exchange_of_feed run) symbol

theorem follows_run (pos : 0 < shards) (threaded : 1 ≤ threads)
    (run : FeedRun shards threads symbols trace feed) :
    Follows shards symbols trace feed.exchange.server.market := by
  induction run with
  | start => exact follows_new
  | @next trace feed feed' action before taken ih =>
    have after := before.next taken
    cases taken with
    | @thread action e other taken =>
      apply ih.quiet
      · cases action with
        | process => simp [ThreadAction.isProcess] at other
        | _ => rfl
      · exact fun _ => rfl
      · rfl
      · exact bookOn_quiet other taken
    | @process i s order registry market w popped processed =>
      have delivered := delivered_feed pos threaded after order.symbol
      rw [(process_adds order.symbol _ _ w.log).1, if_pos rfl] at delivered
      exact ih.process delivered.admitted (delivered.fromWire order (by simp)).symbol processed
    | network moved =>
      apply ih.quiet
      · rfl
      · exact fun _ => rfl
      · rfl
      · exact fun _ => rfl

theorem accounts_run (run : FeedRun shards threads symbols trace feed) :
    Accounts (posted trace) feed.net := by
  induction run with
  | start => exact accounts_new
  | @next trace feed feed' action before taken ih =>
    have grown : posted (trace ++ [action]) = posted trace ++ posted [action] := by
      unfold posted
      rw [List.flatMap_append]
    rw [grown]
    cases taken with
    | thread other taken =>
      rw [show posted [.thread _] = [] from rfl, List.append_nil]
      exact ih
    | @process i s order registry market w popped processed =>
      rw [show posted [.process i _ _ order w.log] = broadcasts (shardOf shards order.symbol) w.log
        from List.append_nil _]
      exact ih.post _
    | network moved =>
      rw [show posted [.network] = [] from rfl, List.append_nil]
      exact ih.moves moved

/-- However many shards and threads there are and however they take turns, the book of a
    symbol is what its requests make of an empty book one after the other, in the order in
    which they were submitted; and so are its trades, its sequence number and its snapshot. -/
theorem books_follow_requests (pos : 0 < shards) (threaded : 1 ≤ threads)
    (run : FeedRun shards threads symbols trace feed)
    (listed : symbol ∈ symbols.map MarketBook.symBytes) :
    processedFor symbol trace <+: forSymbol symbol (submitted (threadActions trace)) ∧
    tradedFor symbol trace = (marketAfter (processedFor symbol trace)).2 ∧
    ∃ e, feed.exchange.server.market.bookOn shards symbol = some e ∧
      e.seqLen = (processedFor symbol trace).length ∧
      (∀ t, e.book.live t = (marketAfter (processedFor symbol trace)).1 t) ∧
      e.book.createSnapshot = .ok (marketAfter (processedFor symbol trace)).1.snapshot := by
  obtain ⟨e, known, kept⟩ := (follows_run pos threaded run).listed symbol listed
  obtain ⟨f, tracks, shows, _⟩ := kept.market
  refine ⟨forSymbol_processed pos threaded (exchange_of_feed run) symbol, kept.trades, e, known,
    kept.seqLen, fun t => ?_, kept.market.snapshot⟩
  rw [live_eq tracks shows.ranked, shows.live]

end Follows

theorem processedFor_network (symbol : List UInt8) (trace : List FeedAction) :
    processedFor symbol (trace ++ [.network]) = processedFor symbol trace := by
  unfold processedFor
  rw [threadActions_append]
  exact congrArg _ (congrArg _ (List.append_nil _))

/-- The requests of two sessions have been processed, and a subscriber has received the last
    snapshot before the first one. -/
theorem fourRequests_feed : ∃ trace feed, FeedRun 1 2 [nflx] trace feed ∧
    processedFor nflx trace = fourOrders ∧
    feed.net.received = [broadcastOf 1 nflx fourOrders, broadcastOf 1 nflx [firstBidOrder]] ∧
    feed.exchange.server.market.currentId = 5 := by
  obtain ⟨before, e, exchange, _, subs, procs, counted, _⟩ := fourRequests_run
  obtain ⟨trace, feed, run, same, rfl, silent⟩ := feed_of_exchange exchange
  have reqs : processedFor nflx trace = fourOrders := by
    unfold processedFor
    rw [same, procs, subs]
    decide
  have started : posted trace = tape 1 nflx fourOrders := by
    have follows := follows_run (by decide) (by decide) run
    have listed : nflx ∈ [nflx].map MarketBook.symBytes := by decide
    obtain ⟨e, _, kept⟩ := follows.listed _ listed
    have posts := kept.posts
    rw [reqs, List.filter_eq_self.mpr] at posts
    · exact posts
    · intro b member
      have own := follows.started b member
      exact decide_eq_true (List.mem_singleton.mp own)
  have accounts := accounts_run run
  have once := accounts.once
  rw [silent, List.append_nil, started] at once
  have waiting : ∀ b ∈ tape 1 nflx fourOrders, b ∈ feed.net.waiting := fun b => once.mem_iff.mpr
  have deaf : feed.net.received = [] := by
    apply List.eq_nil_iff_forall_not_mem.mpr
    intro b member
    have sent := accounts.authentic b member
    rw [silent] at sent
    cases sent
  obtain ⟨net₁, net₂, send, arrive, heard, others⟩ := exists_delivery
    (waiting (broadcastOf 1 nflx fourOrders) (List.mem_map.mpr ⟨3, by decide, rfl⟩))
  obtain ⟨net₃, net₄, send', arrive', heard', _⟩ := exists_delivery
    (others (broadcastOf 1 nflx [firstBidOrder])
      (waiting _ (List.mem_map.mpr ⟨0, by decide, rfl⟩))
      fun same => by cases congrArg Broadcast.seqLen same)
  have last := (run.next (.network send)).next (.network arrive)
  have first := (last.next (.network send')).next (.network arrive')
  refine ⟨_, _, first, ?_, ?_, counted⟩
  · simp only [processedFor_network]
    exact reqs
  · show net₄.received = _
    rw [heard', heard, deaf]
    rfl

theorem books_follow_requests_fourRequests : ∃ trace feed,
    FeedRun 1 2 [nflx] trace feed ∧ processedFor nflx trace = fourOrders ∧
    tradedFor nflx trace = (marketAfter fourOrders).2 ∧
    ∃ e, feed.exchange.server.market.bookOn 1 nflx = some e ∧ e.seqLen = 4 ∧
      (∀ t, e.book.live t = (marketAfter fourOrders).1 t) ∧
      e.book.createSnapshot = .ok (marketAfter fourOrders).1.snapshot := by
  obtain ⟨trace, feed, run, reqs, _⟩ := fourRequests_feed
  have follows := books_follow_requests (by decide) (by decide) run
    (by decide : nflx ∈ [nflx].map MarketBook.symBytes)
  rw [reqs] at follows
  exact ⟨trace, feed, run, reqs, follows.2⟩

end MarketBookExchange
