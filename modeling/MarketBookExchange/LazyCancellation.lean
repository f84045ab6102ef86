import MarketBookExchange.LiveBook

/- Killing lazily or eagerly makes no difference to the market: the book and its eager
   variant trade alike whatever sessions each of them finds. -/
namespace MarketBookExchange
open RankedList Outcome KillFlagTable

/-- The orders of one level that `is_killed` does not skip. -/
def OrderBook.liveLevel (b : OrderBook) (t : OrderType) (slot : Nat) : List Order :=
  (b.levelOrders t slot).filter fun o =>
    (b.killedOrders.isKilled o.orderId).toOption = some false

/-- The book shows `L` to the market and has made the trades `es`. -/
def Market (reqs : List Order) (b : OrderBook) (w : World) (L : LiveBook) (es : List Event) :
    Prop :=
  ∃ f, Tracks b f ∧ Shows reqs f L ∧ tradesOf w.log = es

/-- What every request of a stream is assumed to satisfy, `reqs` being the stream so far. -/
structure Admitted (reqs : List Order) (order : Order) : Prop where
  unique : (ids (accepted (reqs ++ [order]))).Nodup
  ordinary : ∀ o, entry order = some o → Ordinary o.orderId

section Market
variable (registry : Registry) {reqs : List Order} {b : OrderBook} {w : World} {L : LiveBook}
  {es : List Event}

theorem market_new : Market [] {} {} (fun _ => []) [] :=
  ⟨{}, tracks_new, sound_new.shows, rfl⟩

theorem updateBook_market (h : Market reqs b w L es) :
    Ends Fault.isLimit (fun r => Market reqs r.1 r.2 L.settle.1 (es ++ L.settle.2))
      (b.updateBook registry w) := by
  obtain ⟨f, tracks, shows, rfl⟩ := h
  refine ends_mono (updateBook_tracks registry tracks w) ?_
  rintro ⟨b', w'⟩ ⟨tracks', same⟩
  simp only at tracks' same
  obtain ⟨shows', all⟩ := shows.updateBook registry w
  exact ⟨_, tracks', shows', by rw [same, all]⟩

theorem dispatch_market (h : Market reqs b w L es) {order : Order} (ok : Admitted reqs order) :
    Ends Fault.isLimit (fun r => Market (reqs ++ [order]) r.1 r.2 (L.dispatch order) es)
      (b.dispatch registry w order) := by
  obtain ⟨f, tracks, shows, rfl⟩ := h
  refine ends_mono (dispatch_tracks registry tracks w ok.ordinary) ?_
  rintro ⟨b', w'⟩ ⟨tracks', noted, _⟩
  exact ⟨_, tracks', shows.dispatch registry w ok.unique, tradesOf_noted noted⟩

theorem dispatchEager_market (h : Market reqs b w L es) {order : Order}
    (ok : Admitted reqs order) :
    Ends Fault.isLimit (fun r => Market (reqs ++ [order]) r.1 r.2 (L.dispatch order) es)
      (b.dispatchEager registry w order) := by
  obtain ⟨f, tracks, shows, rfl⟩ := h
  rw [OrderBook.dispatchEager, LiveBook.dispatch]
  obtain ⟨b₁, w₁, f₁, run, tracks₁, done, quiet⟩ :=
    killEager_tracks registry tracks shows.distinct shows.flagged w order
  have killed := shows.cancel done
  cases kind : order.requestType with
  | sendOrder =>
    refine ends_bind (sendOrder_tracks tracks order (ok.ordinary order (by simp [entry, kind]))) ?_
    intro b' tracks'
    exact ends_pure ⟨_, tracks', shows.send (by simp [entry, kind]) ok.unique, rfl⟩
  | modifyOrder =>
    simp only [OrderBook.modifyEager, run, ok_bind]
    refine ends_bind (sendOrder_tracks tracks₁ { order with delId := 0 }
      (ok.ordinary { order with delId := 0 } (by simp [entry, kind]))) ?_
    intro b' tracks'
    exact ends_pure ⟨_, tracks', killed.send (by simp [entry, kind]) ok.unique, quiet⟩
  | killOrder =>
    simp only [run]
    exact ⟨f₁, tracks₁, killed.untouched (by simp [entry, kind]), quiet⟩

end Market

/-- A book that keeps to the market over single requests does so over streams. -/
theorem stream_market (process : OrderBook → World → Order → Except Fault (OrderBook × World))
    (step : ∀ {reqs b w L es order}, Market reqs b w L es → Admitted reqs order →
      Ends Fault.isLimit (fun r => Market (reqs ++ [order]) r.1 r.2 (L.process order).1
        (es ++ (L.process order).2)) (process b w order)) (orders : List Order) :
    ∀ {reqs : List Order} {b : OrderBook} {w : World} {L : LiveBook} {es : List Event},
      Market reqs b w L es → (∀ pre order post, orders = pre ++ order :: post →
        Admitted (reqs ++ pre) order) →
      Ends Fault.isLimit (fun r => Market (reqs ++ orders) r.1 r.2 (L.run orders).1
        (es ++ (L.run orders).2))
        (orders.foldlM (fun (b, w) order => process b w order) (b, w)) := by
  induction orders with
  | nil =>
    intro reqs b w L es h _
    rw [List.append_nil, LiveBook.run, List.append_nil]
    exact h
  | cons order orders ih =>
    intro reqs b w L es h ok
    have first := ok [] order orders rfl
    rw [List.append_nil] at first
    rw [List.foldlM_cons]
    refine ends_bind (step h first) ?_
    rintro ⟨b₁, w₁⟩ h₁
    have rest := ih h₁ fun pre next post eq => by
      have here := ok (order :: pre) next post (by rw [eq]; rfl)
      rwa [List.append_cons] at here
    rw [List.append_assoc, List.append_assoc] at rest
    exact rest

section Streams
variable (registry : Registry) {orders : List Order}

/-- A stream with distinct positive ids and targets that are not negative. -/
structure Stream (orders : List Order) : Prop where
  unique : (ids (accepted orders)).Nodup
  positive : ∀ key ∈ ids (accepted orders), 1 ≤ key
  targets : ∀ order ∈ orders, order.requestType ≠ .sendOrder → 0 ≤ order.delId

theorem Stream.admitted (h : Stream orders) (pre : List Order) (order : Order)
    (post : List Order) (eq : orders = pre ++ order :: post) : Admitted pre order := by
  have unique := h.unique
  rw [eq, List.append_cons] at unique
  refine ⟨nodup_accepted_left unique, fun o booked => ordinary_of_nonneg ?_⟩
  have member : o.orderId ∈ ids (accepted orders) := by
    rw [eq, List.append_cons]
    refine mem_accepted_left ?_
    rw [ids_accepted_append pre booked]
    simp
  have := h.positive _ member
  omega

theorem run_market (h : Stream orders) :
    Ends Fault.isLimit (fun r => Market orders r.1 r.2 (LiveBook.run (fun _ => []) orders).1
      (LiveBook.run (fun _ => []) orders).2) (OrderBook.run registry {} {} orders) := by
  refine stream_market (fun b w order => b.process registry w order) ?_ orders
    market_new fun pre order post eq => ?_
  · intro reqs b w L es order market ok
    refine ends_bind (dispatch_market registry market ok) ?_
    rintro ⟨b', w'⟩ after
    exact updateBook_market registry after
  · rw [List.nil_append]
    exact h.admitted pre order post eq

theorem runEager_market (h : Stream orders) :
    Ends Fault.isLimit (fun r => Market orders r.1 r.2 (LiveBook.run (fun _ => []) orders).1
      (LiveBook.run (fun _ => []) orders).2) (OrderBook.runEager registry {} {} orders) := by
  refine stream_market (fun b w order => b.processEager registry w order) ?_ orders
    market_new fun pre order post eq => ?_
  · intro reqs b w L es order market ok
    refine ends_bind (dispatchEager_market registry market ok) ?_
    rintro ⟨b', w'⟩ after
    exact updateBook_market registry after
  · rw [List.nil_append]
    exact h.admitted pre order post eq

end Streams

theorem liveLevel_eq {b : OrderBook} {f : FlagBook} (tracks : Tracks b f) (t : OrderType)
    (slot : Nat) : b.liveLevel t slot =
      (liveOrders f.flags (f.queue t)).filter fun o => indexOf o.priceLevel = slot := by
  obtain ⟨q, rep, reads⟩ := tracks
  rw [OrderBook.liveLevel, levelOrders_eq rep, reads.queue, liveOrders, List.filter_filter,
    List.filter_filter]
  refine List.filter_congr fun o ho => ?_
  rw [rep.killed, isKilled_ok reads.rep (reads.ordinary t o ho), Bool.and_comm]
  cases (f.flags o.orderId).getD false <;> simp [Except.toOption]

/-- Two books that no one could tell apart by their trades, live orders and snapshots. -/
structure SameMarket (b b' : OrderBook) (w w' : World) : Prop where
  trades : tradesOf w.log = tradesOf w'.log
  live : ∀ t slot, b.liveLevel t slot = b'.liveLevel t slot
  snapshot : b.createSnapshot = b'.createSnapshot

theorem sameMarket_of_market {reqs : List Order} {b b' : OrderBook} {w w' : World} {L : LiveBook}
    {es : List Event} (h : Market reqs b w L es) (h' : Market reqs b' w' L es) :
    SameMarket b b' w w' := by
  obtain ⟨f, tracks, shows, trades⟩ := h
  obtain ⟨f', tracks', shows', trades'⟩ := h'
  refine ⟨trades.trans trades'.symm, fun t slot => ?_, ?_⟩
  · rw [liveLevel_eq tracks, liveLevel_eq tracks', shows.live, shows'.live]
  · rw [createSnapshot_tracks tracks, createSnapshot_tracks tracks', FlagBook.createSnapshot,
      FlagBook.createSnapshot, shows.live, shows.live, shows'.live, shows'.live]

namespace LiveBook

def Absent (id : Int) (L : LiveBook) : Prop := ∀ t, ∀ o ∈ L t, o.orderId ≠ id

def Untouched (id : Int) (e : Event) : Prop :=
  ∀ bid ask fillQty fillPrice, e = .trade bid ask fillQty fillPrice →
    bid.orderId ≠ id ∧ ask.orderId ≠ id

variable {id : Int} {L L' : LiveBook}

theorem Absent.send (h : Absent id L) {o : Order} (ne : o.orderId ≠ id) : Absent id (L.send o) := by
  intro t x hx
  rw [LiveBook.send] at hx
  by_cases side : t = o.orderType
  · subst side
    rw [Function.update_self] at hx
    rcases mem_insert.mp hx with rfl | old
    · exact ne
    · exact h _ x old
  · rw [Function.update_of_ne side] at hx
    exact h t x hx

theorem absent_kill : Absent id (L.kill id) := by
  intro t o ho
  simpa using (List.mem_filter.mp ho).2

theorem Absent.kill (h : Absent id L) (other : Int) : Absent id (L.kill other) :=
  fun t o ho => h t o (List.mem_filter.mp ho).1

theorem Absent.dispatch (h : Absent id L) {order : Order}
    (ne : ∀ o, entry order = some o → o.orderId ≠ id) : Absent id (L.dispatch order) := by
  rw [LiveBook.dispatch]
  cases kind : order.requestType with
  | sendOrder => exact h.send (ne order (by simp [entry, kind]))
  | modifyOrder => exact (h.kill _).send (ne { order with delId := 0 } (by simp [entry, kind]))
  | killOrder => exact h.kill _

theorem absent_dispatch {order : Order} (kind : order.requestType ≠ .sendOrder)
    (ne : ∀ o, entry order = some o → o.orderId ≠ order.delId) :
    Absent order.delId (L.dispatch order) := by
  rw [LiveBook.dispatch]
  cases kind' : order.requestType with
  | sendOrder => exact absurd kind' kind
  | modifyOrder => exact absent_kill.send (ne { order with delId := 0 } (by simp [entry, kind']))
  | killOrder => exact absent_kill

theorem Absent.trade (h : Absent id L) {e : Event} (step : L.trade = some (L', e)) :
    Absent id L' ∧ Untouched id e := by
  rw [LiveBook.trade] at step
  split at step
  · rename_i bo bids ao asks buy sell
    have bid := h .buy bo (by rw [buy]; simp)
    have ask := h .sell ao (by rw [sell]; simp)
    split at step
    · cases step
    · cases step
      refine ⟨?_, fun _ _ _ _ eq => by cases eq; exact ⟨bid, ask⟩⟩
      exact fillFronts_keep (P := fun _ o => o.orderId ≠ id) h buy sell (fun _ => bid) fun _ => ask
  · cases step

theorem Absent.settle (h : Absent id L) :
    Absent id L.settle.1 ∧ ∀ e ∈ L.settle.2, Untouched id e := by
  induction size : L.resting using Nat.strongRecOn generalizing L with
  | ind n ih =>
    cases step : L.trade with
    | none =>
      rw [settle_none step]
      exact ⟨h, fun e he => by cases he⟩
    | some r =>
      obtain ⟨L', e⟩ := r
      obtain ⟨after, apart⟩ := h.trade step
      obtain ⟨last, rest⟩ := ih _ (by rw [← size]; exact trade_resting step) after rfl
      rw [settle_some step]
      refine ⟨last, fun x hx => ?_⟩
      rcases List.mem_cons.mp hx with rfl | later
      · exact apart
      · exact rest x later

theorem Absent.run (orders : List Order) : ∀ {L : LiveBook}, Absent id L →
    (∀ key ∈ ids (accepted orders), key ≠ id) → ∀ e ∈ (L.run orders).2, Untouched id e := by
  induction orders with
  | nil => exact fun _ _ e he => by cases he
  | cons order orders ih =>
    intro L h ne e he
    have own : ∀ o, entry order = some o → o.orderId ≠ id := by
      intro o booked
      exact ne _ (by simp [accepted, ids, booked])
    obtain ⟨after, apart⟩ := (h.dispatch own).settle
    rcases List.mem_append.mp he with now | later
    · exact apart e now
    · exact ih after (fun key hk => ne key (mem_accepted_right hk)) e later

end LiveBook

/-- The book and its eager variant show the market the same, each with a registry of its
    own; neither ends in anything but a limit; and once a kill has been processed its target
    trades no more. -/
theorem lazy_is_eager (registry registry' : Registry) (reqs : List Order) (stream : Stream reqs) :
    (∀ b w b' w', OrderBook.run registry {} {} reqs = .ok (b, w) →
      OrderBook.runEager registry' {} {} reqs = .ok (b', w') → SameMarket b b' w w') ∧
    (∀ e, OrderBook.run registry {} {} reqs = .error e → e.isLimit) ∧
    (∀ e, OrderBook.runEager registry' {} {} reqs = .error e → e.isLimit) ∧
    ∀ pre kill post b₀ w₀ b w, reqs = pre ++ kill :: post → kill.requestType ≠ .sendOrder →
      kill.delId ∈ ids (accepted pre) → OrderBook.run registry {} {} pre = .ok (b₀, w₀) →
      OrderBook.run registry {} {} reqs = .ok (b, w) →
      ∃ later, tradesOf w.log = tradesOf w₀.log ++ later ∧
        ∀ bid ask fillQty fillPrice, .trade bid ask fillQty fillPrice ∈ later →
          bid.orderId ≠ kill.delId ∧ ask.orderId ≠ kill.delId := by
  have lazy := run_market registry stream
  have eager := runEager_market registry' stream
  refine ⟨fun b w b' w' run run' => sameMarket_of_market (ends_ok lazy run) (ends_ok eager run'),
    fun e failed => ends_error lazy failed, fun e failed => ends_error eager failed, ?_⟩
  intro pre kill post b₀ w₀ b w split kind earlier ran₀ ran
  have unique := stream.unique
  rw [split, show pre ++ kill :: post = pre ++ ([kill] ++ post) from rfl, accepted_append, ids,
    List.map_append] at unique
  have fresh : ∀ key ∈ ids (accepted (kill :: post)), key ≠ kill.delId := fun key later same =>
    (List.nodup_append.mp unique).2.2 _ earlier key later same.symm
  have before : Stream pre := by
    refine ⟨(List.nodup_append.mp unique).1, fun key h => stream.positive key ?_,
      fun order h => stream.targets order (by rw [split]; exact List.mem_append_left _ h)⟩
    rw [split]
    exact mem_accepted_left h
  obtain ⟨_, _, _, trades₀⟩ := ends_ok (run_market registry before) ran₀
  obtain ⟨_, _, _, trades⟩ := ends_ok lazy ran
  rw [split, LiveBook.run_append] at trades
  simp only at trades trades₀
  refine ⟨_, by rw [trades, trades₀], fun bid ask fillQty fillPrice member => ?_⟩
  have gone : LiveBook.Absent kill.delId
      ((LiveBook.run (fun _ => []) pre).1.dispatch kill) :=
    LiveBook.absent_dispatch kind fun o booked => fresh _ (by simp [accepted, ids, booked])
  obtain ⟨after, apart⟩ := gone.settle
  rcases List.mem_append.mp member with now | later
  · exact apart _ now bid ask fillQty fillPrice rfl
  · exact after.run post (fun key hk => fresh key (mem_accepted_right hk)) _ later bid ask fillQty
      fillPrice rfl

def killMiddle : List Order :=
  [sendRequest .buy 1 100 5, sendRequest .buy 2 100 5, sendRequest .buy 3 100 5,
    { requestType := .killOrder, delId := 2 }, sendRequest .sell 4 90 7]

/-- The lazy book finds all sessions, the eager one none. -/
theorem lazy_is_eager_killMiddle : ∃ b w b' w',
    OrderBook.run (fun _ _ => true) {} {} killMiddle = .ok (b, w) ∧
    OrderBook.runEager (fun _ _ => false) {} {} killMiddle = .ok (b', w') ∧
    SameMarket b b' w w' := by
  obtain ⟨⟨b, w⟩, run⟩ := exists_ok (x := OrderBook.run (fun _ _ => true) {} {} killMiddle)
    (by decide +kernel)
  obtain ⟨⟨b', w'⟩, run'⟩ := exists_ok
    (x := OrderBook.runEager (fun _ _ => false) {} {} killMiddle) (by decide +kernel)
  have stream : Stream killMiddle := ⟨by decide, by decide, by decide⟩
  exact ⟨b, w, b', w', run, run', (lazy_is_eager _ _ killMiddle stream).1 b w b' w' run run'⟩

end MarketBookExchange
