import MarketBookExchange.ServerInvariant
import MarketBookExchange.LazyCancellation
import MarketBookExchange.KnownOrders

/- Requests that are answered with an error. A KILL without its target and a request without
   its symbol stop there; a MODIFY without its target goes on to book its order. -/
namespace MarketBookExchange
open RankedList Outcome KillFlagTable

/-- Two books with the same orders in the same places and the same kill flags. -/
structure SameBook (b b' : OrderBook) : Prop where
  resting : ∀ t slot, b'.levelOrders t slot = b.levelOrders t slot
  flags : ∀ key, b'.killedOrders.isKilled key = b.killedOrders.isKilled key
  known : ∀ key, b'.killedOrders.Present key ↔ b.killedOrders.Present key

theorem sameBook_refl (b : OrderBook) : SameBook b b :=
  ⟨fun _ _ => rfl, fun _ => rfl, fun _ => Iff.rfl⟩

/-- The same symbols have books, and the books are the same; `seq_len` is not compared. -/
def SameBooks (mb mb' : MarketBook) : Prop :=
  ∀ s hash, Option.Rel (fun e e' : SymbolBook => SameBook e.book e'.book)
    ((mb.shards s).privMp hash) ((mb'.shards s).privMp hash)

theorem sameBooks_refl (mb : MarketBook) : SameBooks mb mb := by
  intro s hash
  cases (mb.shards s).privMp hash with
  | none => exact .none
  | some e => exact .some (sameBook_refl _)

def MarketBook.level (mb : MarketBook) (symbol : List UInt8) (t : OrderType) (price : Int) :
    Option (List Order) :=
  ((mb.shards (shardIndex symbol)).privMp (symbolHash symbol)).map fun e =>
    e.book.levelOrders t (indexOf price)

theorem SameBooks.level {mb mb' : MarketBook} (same : SameBooks mb mb') (symbol : List UInt8)
    (t : OrderType) (price : Int) : mb'.level symbol t price = mb.level symbol t price := by
  have here := same (shardIndex symbol) (symbolHash symbol)
  unfold MarketBook.level
  generalize (mb.shards (shardIndex symbol)).privMp (symbolHash symbol) = e at here ⊢
  generalize (mb'.shards (shardIndex symbol)).privMp (symbolHash symbol) = e' at here ⊢
  cases here with
  | none => rfl
  | some books => exact congrArg some (books.resting t (indexOf price))

def AnsweredWithError (order : Order) (w : World) : Prop :=
  ∃ code, .write order.sessionId (.error code) ∈ w.log

section Errors
variable {registry : Registry} {reqs : List Order} {b b' : OrderBook} {f : FlagBook}
  {order : Order} {w w' : World}

theorem writeIfLocked_connected (connected : ∀ n, registry n order.sessionId = true)
    (code : Int) : (({} : World).writeIfLocked registry order.sessionId (.error code)).log =
      [.write order.sessionId (.error code)] := by
  rw [writeIfLocked_log, connected]
  rfl

theorem updateBook_errors (inside : ∀ t, ∀ o ∈ f.queue t, o.orderId ∈ ids (accepted reqs))
    {session code : Int} (member : .write session (.error code) ∈ (f.updateBook registry w).2.log) :
    .write session (.error code) ∈ w.log := by
  obtain ⟨es, logs, concerns⟩ := updateBook_concerns registry f w inside
  rw [logs] at member
  rcases List.mem_append.mp member with old | new
  · exact old
  · obtain ⟨id, _, about⟩ := concerns.messages _ _ new
    cases about

theorem kill_missing (h : AtRest reqs b f) (kind : order.requestType = .killOrder)
    (missing : b.Missing order) (ran : b.process registry w order = .ok (b', w')) :
    b' = b ∧ w' = w.writeIfLocked registry order.sessionId (.error invalidOrderId) := by
  have killed : b.dispatch registry w order =
      .ok (b, w.writeIfLocked registry order.sessionId (.error invalidOrderId)) := by
    unfold OrderBook.dispatch OrderBook.killOrder
    rw [kind, missing.2]
    rfl
  unfold OrderBook.process at ran
  rw [killed, ok_bind] at ran
  simp only [updateBook_same registry h.tracks h.quiet] at ran
  cases ran
  exact ⟨rfl, rfl⟩

/-- A MODIFY books its order whatever becomes of its target: it trades or it rests. -/
theorem modify_books (h : AtRest reqs b f) (kind : order.requestType = .modifyOrder)
    (unique : (ids (accepted (reqs ++ [order]))).Nodup)
    (ordinary : ∀ o, entry order = some o → Ordinary o.orderId)
    (checked : rejection order = none) (ran : b.process registry {} order = .ok (b', w'))
    (quiet : tradesOf w'.log = []) : ¬ SameBook b b' := by
  intro same
  have entered : entry order = some { order with delId := 0 } := by simp [entry, kind]
  obtain ⟨b₁, w₁, dispatched, _, rfl, rests⟩ := h.process unique ordinary checked ran
  have shows := h.sound.shows.dispatch registry {} unique
  obtain ⟨shows', trades⟩ := shows.updateBook registry w₁
  rw [trades] at quiet
  have absent := (List.append_eq_nil_iff.mp quiet).2
  have settled : ∀ L : LiveBook, L.settle.2 = [] → L.settle.1 = L := by
    intro L nothing
    cases trade : L.trade with
    | none => rw [LiveBook.settle_none trade]
    | some next =>
      rw [LiveBook.settle_some trade] at nothing
      cases nothing
  rw [settled _ absent] at shows'
  have booked : { order with delId := 0 } ∈ b'.liveLevel order.orderType
      (indexOf order.priceLevel) := by
    rw [liveLevel_eq rests.tracks, shows'.live]
    refine List.mem_filter.mpr ⟨?_, by simp⟩
    simp only [LiveBook.dispatch, kind, LiveBook.modify, LiveBook.send, Function.update_self]
    exact mem_insert.mpr (Or.inl rfl)
  have levels : b'.liveLevel order.orderType (indexOf order.priceLevel) =
      b.liveLevel order.orderType (indexOf order.priceLevel) := by
    unfold OrderBook.liveLevel
    rw [same.resting]
    simp only [same.flags]
  rw [levels, liveLevel_eq h.tracks] at booked
  have before := h.sound.known _ _ (List.mem_filter.mp (List.mem_filter.mp booked).1).1
  rw [ids_accepted_append _ entered] at unique
  exact (List.nodup_append.mp unique).2.2 _ before _ (by simp) rfl

theorem tradesOf_told {w₂ : World}
    (told : w = w₂ ∨ ∃ snapshot symbol n, w = w₂.record (.broadcast snapshot symbol n)) :
    tradesOf w.log = tradesOf w₂.log := by
  rcases told with rfl | ⟨_, _, _, rfl⟩
  · rfl
  · unfold World.record
    rw [tradesOf_append]
    exact List.append_nil _

theorem mem_told {w₂ : World}
    (told : w = w₂ ∨ ∃ snapshot symbol n, w = w₂.record (.broadcast snapshot symbol n))
    {session : Int} {response : Response} :
    .write session response ∈ w.log ↔ .write session response ∈ w₂.log := by
  rcases told with rfl | ⟨_, _, _, rfl⟩
  · exact Iff.rfl
  · simp [World.record]

theorem sameBooks_setBook {mb : MarketBook} {s : Nat} {hash : Int} {e e' : SymbolBook}
    (known : (mb.shards s).privMp hash = some e) :
    SameBooks mb (mb.setBook s hash e') ↔ SameBook e.book e'.book := by
  constructor
  · intro same
    have here := same s hash
    rw [known, MarketBook.setBook_self] at here
    cases here with
    | some h => exact h
  · intro same k x
    by_cases here : k = s ∧ x = hash
    · obtain ⟨rfl, rfl⟩ := here
      rw [known, MarketBook.setBook_self]
      exact .some same
    · rw [MarketBook.setBook_other mb here]
      exact sameBooks_refl mb k x

end Errors

/-- A MODIFY for a configured symbol whose target `find` does not find. -/
def MissedModify (mb : MarketBook) (s : Nat) (order : Order) : Prop :=
  order.requestType = .modifyOrder ∧ ∃ e,
    (mb.shards s).privMp (symbolHash order.symbol) = some e ∧
      e.book.killedOrders.find order.delId = .ok none

/-- In every reachable state, for every request that waits in a queue: if `process_one`
    answers it with an error then it trades nothing and changes no book, unless it is a
    MODIFY that misses its target, and only then. -/
theorem error_has_no_effect {symbols : List (List UInt8)} {present : Int → Prop}
    {trace : List Action} {server : Server} (run : ServerRun symbols present trace server)
    {s : Nat} {order : Order} (queued : order ∈ (server.market.shards s).queue)
    {registry : Registry} (connected : ∀ n, registry n order.sessionId = true)
    {market : MarketBook} {w : World}
    (ran : server.market.processOne registry {} s order (symbolHash order.symbol) =
      .ok (market, w)) :
    (AnsweredWithError order w → tradesOf w.log = [] ∧ SameBooks server.market market) ↔
      ¬ MissedModify server.market s order := by
  obtain ⟨g, h⟩ := consistent_run run
  obtain ⟨_, _, checked⟩ := h.queued s order queued
  rcases MarketBook.processOne_cases ran with ⟨absent, rfl, rfl⟩ |
    ⟨e, book, w₂, known, processed, rfl, told⟩
  · refine iff_of_true (fun _ => ⟨?_, sameBooks_refl _⟩) ?_
    · rw [writeIfLocked_connected connected]
      rfl
    · rintro ⟨_, e, known, _⟩
      rw [absent] at known
      cases known
  · obtain ⟨unique, ordinary⟩ := h.admits queued known
    have rest := h.books s _ e known
    obtain ⟨b₁, w₁, dispatched, _, matched, rests⟩ := rest.process unique ordinary checked processed
    rw [tradesOf_told told, sameBooks_setBook known]
    rcases dispatch_answers dispatched with ⟨missing, answered⟩ | ⟨found, silent⟩
    · cases kind : order.requestType with
      | sendOrder => exact absurd kind missing.1
      | killOrder =>
        -- nothing was left to match, so the book comes back as it was
        obtain ⟨rfl, rfl⟩ := kill_missing rest kind missing processed
        refine iff_of_true (fun _ => ⟨?_, sameBook_refl _⟩) ?_
        · rw [writeIfLocked_connected connected]
          rfl
        · rintro ⟨modify, _⟩
          rw [kind] at modify
          cases modify
      | modifyOrder =>
        refine iff_of_false (fun law => ?_) fun fine => fine ⟨kind, e, known, missing.2⟩
        have error : AnsweredWithError order w := by
          refine ⟨invalidOrderId, (mem_told told).mpr ?_⟩
          obtain ⟨es, logs, _⟩ := updateBook_concerns registry
            ((g.book s (symbolHash order.symbol)).dispatch registry {} order).1 w₁
            (rest.sound.shows.dispatch registry {} unique).known
          rw [matched, logs, answered, writeIfLocked_connected connected]
          simp
        obtain ⟨quiet, same⟩ := law error
        exact modify_books rest kind unique ordinary checked processed quiet same
    · refine iff_of_true ?_ ?_
      · rintro ⟨code, sent⟩
        have sent := (mem_told told).mp sent
        rw [matched] at sent
        have early := updateBook_errors (rest.sound.shows.dispatch registry {} unique).known sent
        rw [silent] at early
        cases early
      · rintro ⟨modify, e', known', missing⟩
        rw [known] at known'
        cases known'
        exact found ⟨by rw [modify]; simp, missing⟩

def aapl : List UInt8 := [65, 65, 80, 76]

def killUnknown : List UInt8 :=
  ['X'.toUInt8] ++ aapl ++ [0, 0, 0, 7] ++ List.replicate 9 ' '.toUInt8

def modifyUnknown : List UInt8 :=
  ['U'.toUInt8, 'B'.toUInt8] ++ aapl ++ [0, 0, 0, 5] ++ [0, 0, 0, 100] ++ [0, 0, 0, 7]

def firstRequest (order : Order) : MarketBook :=
  (MarketBook.new [aapl]).assignOrderId.2.submitOrder order

theorem run_first {message : List UInt8} {order request : Order} {c : UInt8}
    (received : receive widths message = .ok (.request order c))
    (numbered : request = { order with orderId := 1, sessionId := 1 }) :
    ∃ trace server, ServerRun [aapl] (fun _ => True) trace server ∧
      server.market = firstRequest request := by
  subst numbered
  have new : ServerRun [aapl] (fun _ => True) [] { market := .new [aapl] } := .start
  have idle : ({ market := .new [aapl] } : Server).stage 1 = .idle := rfl
  obtain ⟨more, server, run, market, _⟩ := run_request new idle received
  exact ⟨_, server, run, market⟩

def killRequest : Order :=
  { requestType := .killOrder, symbol := aapl, delId := 7, orderId := 1, sessionId := 1 }

def modifyRequest : Order :=
  { requestType := .modifyOrder, orderType := .buy, symbol := aapl, qty := 5, priceLevel := 100,
    delId := 7, orderId := 1, sessionId := 1 }

theorem error_has_no_effect_killUnknown : ∃ trace server market w,
    ServerRun [aapl] (fun _ => True) trace server ∧
    server.market.processOne (fun _ _ => true) {} (shardIndex aapl) killRequest
      (symbolHash aapl) = .ok (market, w) ∧
    ((AnsweredWithError killRequest w → tradesOf w.log = [] ∧ SameBooks server.market market) ↔
      ¬ MissedModify server.market (shardIndex aapl) killRequest) := by
  have received : receive widths killUnknown =
      .ok (.request { killRequest with orderId := 0, sessionId := 0 } 'X'.toUInt8) :=
    ok_of_toOption (by decide +kernel)
  obtain ⟨trace, server, run, market⟩ : ∃ trace server,
      ServerRun [aapl] (fun _ => True) trace server ∧ server.market = firstRequest killRequest :=
    run_first received rfl
  obtain ⟨⟨mb, w⟩, ran⟩ := exists_ok (x := (firstRequest killRequest).processOne (fun _ _ => true)
    {} (shardIndex aapl) killRequest (symbolHash aapl)) (by decide +kernel)
  have queued : killRequest ∈ ((firstRequest killRequest).shards (shardIndex aapl)).queue := by
    decide +kernel
  rw [← market] at queued ran
  exact ⟨trace, server, mb, w, run, ran, error_has_no_effect run queued (fun _ => rfl) ran⟩

/-- The MODIFY is answered with an error, and its bid rests where there was none. -/
theorem error_has_no_effect_fails : ∃ trace server market w,
    ServerRun [aapl] (fun _ => True) trace server ∧
    modifyRequest ∈ (server.market.shards (shardIndex aapl)).queue ∧
    server.market.processOne (fun _ _ => true) {} (shardIndex aapl) modifyRequest
      (symbolHash aapl) = .ok (market, w) ∧
    AnsweredWithError modifyRequest w ∧ ¬ SameBooks server.market market := by
  have received : receive widths modifyUnknown =
      .ok (.request { modifyRequest with orderId := 0, sessionId := 0 } 'U'.toUInt8) :=
    ok_of_toOption (by decide +kernel)
  obtain ⟨trace, server, run, market⟩ : ∃ trace server,
      ServerRun [aapl] (fun _ => True) trace server ∧ server.market = firstRequest modifyRequest :=
    run_first received rfl
  have queued : modifyRequest ∈ ((firstRequest modifyRequest).shards (shardIndex aapl)).queue := by
    decide +kernel
  have before : (firstRequest modifyRequest).level aapl .buy 100 = some [] := by decide +kernel
  have seen : (do
      let (mb, w) ← (firstRequest modifyRequest).processOne (fun _ _ => true) {}
        (shardIndex aapl) modifyRequest (symbolHash aapl)
      pure (mb.level aapl .buy 100, w.log.take 1)) =
    (Except.ok (some [{ modifyRequest with delId := 0 }],
      [.write 1 (.error invalidOrderId)]) : Except Fault (Option (List Order) × List Event)) :=
    ok_of_toOption (by decide +kernel)
  obtain ⟨⟨mb, w⟩, ran, seen⟩ := bind_ok seen
  simp only [pure_eq_ok, Except.ok.injEq, Prod.mk.injEq] at seen
  obtain ⟨after, answered⟩ := seen
  rw [← market] at queued before ran
  refine ⟨trace, server, mb, w, run, queued, ran, ⟨invalidOrderId, ?_⟩, fun same => ?_⟩
  · exact List.mem_of_mem_take (by rw [answered]; simp [modifyRequest])
  · rw [same.level, before] at after
    cases after

end MarketBookExchange
