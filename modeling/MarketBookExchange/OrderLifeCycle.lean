import MarketBookExchange.OwnerView
import MarketBookExchange.SequentialRuns

/- Every order's life cycle on its owner's connection, over all interleavings. -/
namespace MarketBookExchange
open RankedList Outcome KillFlagTable Transitions

def Status.order? : Status → Option Order
  | .fresh => none
  | .assigned order => some order
  | .acked order => some order
  | .queued order => some order
  | .processed order => some order

/-- The ids that the trace says were assigned, and where the unacknowledged ones are. -/
structure Issued (trace : List Action) (g : Ghost) (server : Server) : Prop where
  orders : ∀ session order, .assign session order ∈ trace →
    order.sessionId = session ∧ (g.status order.orderId).order? = some order
  unacked : ∀ id order, g.status id = .assigned order →
    order.orderId = id ∧ ∃ c, server.stage order.sessionId = .assigned order c

section Issued
variable {trace : List Action} {g : Ghost} {server : Server} {session : Int} {order : Order}
  {c : UInt8}

theorem Issued.extend (h : Issued trace g server) {a : Action} {g' : Ghost} {server' : Server}
    (keeps : ∀ id order, (g.status id).order? = some order → (g'.status id).order? = some order)
    (new : ∀ session order, a = .assign session order →
      order.sessionId = session ∧ (g'.status order.orderId).order? = some order)
    (unacked : ∀ id order, g'.status id = .assigned order →
      order.orderId = id ∧ ∃ c, server'.stage order.sessionId = .assigned order c) :
    Issued (trace ++ [a]) g' server' := by
  refine ⟨?_, unacked⟩
  intro session order member
  rcases List.mem_append.mp member with old | last
  · obtain ⟨own, has⟩ := h.orders session order old
    exact ⟨own, keeps _ order has⟩
  · exact new session order (List.mem_singleton.mp last).symm

theorem order?_move {id : Int} {status : Status}
    (kept : (g.status id).order? = none ∨ status.order? = (g.status id).order?) (key : Int)
    (order : Order) (has : (g.status key).order? = some order) :
    ((g.move id status).status key).order? = some order := by
  by_cases same : key = id
  · subst same
    rw [Ghost.move_self]
    rcases kept with nothing | kept
    · rw [nothing] at has
      cases has
    · rwa [kept]
  · rwa [Ghost.move_other same]

theorem Issued.setStage (h : Issued trace g server) {id : Int}
    (status : g.status id = .assigned order) (other : ∀ c, server.stage session ≠ .assigned order c)
    (stage : Stage) :
    order.orderId = id ∧ ∃ c, (server.setStage session stage).stage order.sessionId =
      .assigned order c := by
  obtain ⟨shape, c, there⟩ := h.unacked id order status
  refine ⟨shape, c, ?_⟩
  rw [Server.setStage_other]
  · exact there
  · rintro rfl
    exact other c there

theorem Issued.assign (h : Issued trace g server) (held : Consistent g server)
    (decoded : server.stage session = .decoded order c) {numbered : Order}
    (given : numbered = { order with orderId := server.market.currentId, sessionId := session }) :
    Issued (trace ++ [.assign session numbered])
      (g.move server.market.currentId (.assigned numbered))
      ({ server with market := server.market.assignOrderId.2 }.setStage session
        (.assigned numbered c)) := by
  have id : numbered.orderId = server.market.currentId := by rw [given]
  have mine : numbered.sessionId = session := by rw [given]
  apply h.extend
  · apply order?_move
    rw [held.unissued]
    exact Or.inl rfl
  · intro _ _ same
    cases same
    refine ⟨mine, ?_⟩
    rw [id, Ghost.move_self]
    rfl
  · intro key o stands
    by_cases same : key = server.market.currentId
    · rw [same, Ghost.move_self] at stands
      cases stands
      refine ⟨id.trans same.symm, c, ?_⟩
      rw [mine, Server.setStage_self]
    · rw [Ghost.move_other same] at stands
      exact h.setStage stands (fun _ => by rw [decoded]; simp) _

theorem Issued.ack (h : Issued trace g server) (held : Consistent g server)
    (assigned : server.stage session = .assigned order c) :
    Issued (trace ++ [.ack session]) (g.move order.orderId (.acked order))
      ((server.write session (.ack order c)).setStage session (.acked order)) := by
  have stands := held.stages session
  rw [assigned] at stands
  apply h.extend
  · apply order?_move
    rw [stands.1]
    exact Or.inr rfl
  · intro _ _ same
    cases same
  · intro key o waits
    by_cases same : key = order.orderId
    · rw [same, Ghost.move_self] at waits
      cases waits
    · rw [Ghost.move_other same] at waits
      refine h.setStage waits (fun x there => ?_) _
      rw [assigned] at there
      cases there
      exact same (h.unacked key order waits).1.symm

theorem Issued.move (h : Issued trace g server) {a : Action} {id : Int} {status : Status}
    {server' : Server} (silent : ∀ session order, a ≠ .assign session order)
    (kept : status.order? = (g.status id).order?) (later : ∀ order, status ≠ .assigned order)
    (unacked : ∀ id order, g.status id = .assigned order →
      order.orderId = id ∧ ∃ c, server'.stage order.sessionId = .assigned order c)
    {g' : Ghost} (same : g'.status = (g.move id status).status) :
    Issued (trace ++ [a]) g' server' := by
  apply h.extend
  · rw [same]
    exact order?_move (Or.inr kept)
  · exact fun session order shape => absurd shape (silent session order)
  · intro key order stands
    rw [same] at stands
    by_cases here : key = id
    · rw [here, Ghost.move_self] at stands
      exact absurd stands (later order)
    · rw [Ghost.move_other here] at stands
      exact unacked key order stands

theorem Issued.push (h : Issued trace g server) (held : Consistent g server)
    (acked : server.stage session = .acked order) :
    Issued (trace ++ [.push session]) (g.move order.orderId (.queued order))
      ({ server with market := server.market.submitOrder order }.setStage session .idle) := by
  have stands := held.stages session
  rw [acked] at stands
  refine h.move ?_ ?_ ?_ ?_ rfl
  · intro _ _ shape
    cases shape
  · rw [stands.1]
    rfl
  · simp
  · exact fun id o waits => h.setStage waits (fun _ => by rw [acked]; simp) _

end Issued

/-- The owner has been told the truth about its orders, and it was told of every one. -/
def Followed (owner : Int) (trace : List Action) (server : Server) : Prop :=
  ∃ g, Consistent g server ∧ Tells owner g server ∧ Issued trace g server

theorem followed_new (owner : Int) (symbols : List (List UInt8)) :
    Followed owner [] { market := .new symbols } := by
  refine ⟨{}, consistent_new symbols, tells_new owner symbols, ?_⟩
  constructor
  · intro _ _ member
    cases member
  · intro _ _ stands
    cases stands

section Steps
variable {owner : Int} {trace : List Action} {g : Ghost} {server : Server} {registry : Registry}
  {s : Nat} {order : Order} {market : MarketBook} {w : World}

/-- Before it matches, a request is answered with an error at most. -/
theorem dispatch_quiet {b b₁ : OrderBook} {w₁ : World}
    (dispatched : b.dispatch registry {} order = .ok (b₁, w₁)) (session : Int) (m : Response)
    (member : .write session m ∈ w₁.log) : m.orderId? = none := by
  rcases dispatch_answers dispatched with ⟨_, rfl⟩ | ⟨_, rfl⟩
  · rw [writeIfLocked_log] at member
    unfold written at member
    split at member
    · simp only [List.nil_append, List.mem_singleton, Event.write.injEq] at member
      rw [member.2]
      rfl
    · cases member
  · cases member

theorem messagesOf_told {w₂ : World}
    (told : w = w₂ ∨ ∃ snapshot symbol n, w = w₂.record (.broadcast snapshot symbol n)) :
    messagesOf w.log = messagesOf w₂.log := by
  rcases told with rfl | ⟨_, _, _, rfl⟩
  · rfl
  · unfold World.record messagesOf
    rw [List.filterMap_append]
    exact List.append_nil _

theorem followed_pop (held : Consistent g server) (tells : Tells owner g server)
    (issued : Issued trace g server) (written : server.outbox s = [])
    (head : (server.market.shards s).queue.head? = some order)
    (connected : ∀ n, registry n owner = true)
    (drained : server.market.drainOne registry {} s = .ok (some (market, w))) :
    Followed owner (trace ++ [.pop s order])
      ({ server with market }.setOutbox s (messagesOf w.log)) := by
  have waits := held.queued s order (List.mem_of_mem_head? head)
  have kept : (Status.processed order).order? = (g.status order.orderId).order? := by
    rw [waits.1]
    rfl
  have silent : ∀ session o, Action.pop s order ≠ .assign session o := by
    intro _ _ shape
    cases shape
  cases held.popped head drained with
  | unknown absent same told =>
    rw [same, told]
    refine ⟨_, (held.pop head).messages _ _, tells.unknown held written head, ?_⟩
    apply issued.move silent kept
    · simp
    · exact issued.unacked
    · rfl
  | booked e book b₁ w₁ w₂ known stored processed dispatched sent matched rests told =>
    rw [matched] at told
    rw [stored]
    have advanced := (held.pop head).advance (e := ⟨book, e.seqLen + 1⟩) (Ghost.move_self _ _)
      waits.2.1 rests
    refine ⟨_, advanced.messages _ _, ?_, ?_⟩
    · exact tells.booked held written head connected known rfl rests (dispatch_quiet dispatched)
        (messagesOf_told told)
    · apply issued.move silent kept
      · simp
      · exact issued.unacked
      · rfl

theorem followed_step {present : Int → Prop} (here : present owner) {server' : Server} {a : Action}
    (h : Followed owner trace server) (step : Step present server a server') :
    Followed owner (trace ++ [a]) server' := by
  obtain ⟨g, held, tells, issued⟩ := h
  have silent : ∀ {a : Action}, (∀ session order, a ≠ .assign session order) →
      ∀ session order, a = .assign session order →
        order.sessionId = session ∧ (g.status order.orderId).order? = some order :=
    fun other session order shape => absurd shape (other session order)
  cases step with
  | accept idle decoded =>
    refine ⟨g, held.accept (receive_checked decoded), tells.accept _, ?_⟩
    apply issued.extend (fun _ _ has => has) (silent fun _ _ shape => by cases shape)
    exact fun id o stands => issued.setStage stands (fun _ => by rw [idle]; simp) _
  | refuse idle refused =>
    refine ⟨g, held.messages _ _, tells.refuse _, ?_⟩
    exact issued.extend (fun _ _ has => has) (silent fun _ _ shape => by cases shape) issued.unacked
  | assign decoded =>
    exact ⟨_, held.assign decoded rfl, tells.assign held _ _, issued.assign held decoded rfl⟩
  | ack assigned =>
    exact ⟨_, held.ack assigned, tells.ack held assigned, issued.ack held assigned⟩
  | push acked =>
    refine ⟨_, held.push acked, tells.push held acked, ?_⟩
    exact issued.push held acked
  | pop written head connected drained =>
    exact followed_pop held tells issued written head (connected owner here) drained
  | flush next =>
    refine ⟨g, held.messages _ _, tells.flush next, ?_⟩
    exact issued.extend (fun _ _ has => has) (silent fun _ _ shape => by cases shape) issued.unacked

theorem followed_run {symbols : List (List UInt8)} {present : Int → Prop} (here : present owner)
    (run : ServerRun symbols present trace server) : Followed owner trace server := by
  refine runs_invariant (Followed owner) (followed_new owner symbols) ?_ run
  intro _ _ _ _ h step
  exact followed_step here h step

end Steps

theorem Standing.fills {order : Order} {told pending : List Response} {life : Life}
    (h : Standing order told pending life) (fine : life ≠ .broken) :
    ∃ c later, told = .ack order c :: later ∧ Fills order.qty later := by
  obtain ⟨c, later, told, rfl⟩ := h
  exact ⟨c, later, told, Life.fills_of_follow later _ (Life.fine_prefix fine)⟩

/-- In every run, as long as its session is found, an order's messages are none before it is
    acknowledged, and then its ACK followed by fills that add up. -/
theorem order_life_cycle {symbols : List (List UInt8)} {present : Int → Prop}
    {trace : List Action} {server : Server} (run : ServerRun symbols present trace server)
    {owner : Int} (connected : present owner) {order : Order}
    (assigned : .assign owner order ∈ trace) :
    (about order.orderId (server.wire owner) = [] ∧
      ∃ c, server.stage owner = .assigned order c) ∨
    ∃ c later, about order.orderId (server.wire owner) = .ack order c :: later ∧
      Fills order.qty later := by
  obtain ⟨g, held, tells, issued⟩ := followed_run connected run
  obtain ⟨mine, has⟩ := issued.orders owner order assigned
  cases standing : g.status order.orderId with
  | fresh =>
    rw [standing] at has
    cases has
  | assigned o =>
    rw [standing] at has
    cases has
    refine Or.inl ⟨tells.unheard _ (Or.inr ⟨order, standing⟩), ?_⟩
    rw [← mine]
    exact (issued.unacked _ order standing).2
  | acked o =>
    rw [standing] at has
    cases has
    exact Or.inr ((tells.waiting _ order (Or.inl standing) mine).fills (by simp))
  | queued o =>
    rw [standing] at has
    cases has
    exact Or.inr ((tells.waiting _ order (Or.inr standing) mine).fills (by simp))
  | processed o =>
    rw [standing] at has
    cases has
    obtain ⟨life, fine, stands⟩ := tells.processed _ order standing mine
    exact Or.inr (stands.fills fine)

theorem order_life_cycle_fourRequests : ∃ trace server,
    ServerRun [nflx] (fun _ => True) trace server ∧
    .assign 1 firstBidOrder ∈ trace ∧ .assign 2 firstOfferOrder ∈ trace ∧
    about 1 (server.wire 1) = [.ack firstBidOrder 'O'.toUInt8,
      .partialFill { firstBidOrder with qty := 2 } 3 2 90,
      .killConfirm { firstBidOrder with qty := 2 }] ∧
    Fills 5 [.partialFill { firstBidOrder with qty := 2 } 3 2 90,
      .killConfirm { firstBidOrder with qty := 2 }] ∧
    about 2 (server.wire 2) = [.ack firstOfferOrder 'O'.toUInt8,
      .fullFill { firstOfferOrder with qty := 0 } 3 90] ∧
    Fills 3 [.fullFill { firstOfferOrder with qty := 0 } 3 90] := by
  obtain ⟨served, ran, orders, messages, _⟩ := fourRequests_served (Or.inr rfl)
  obtain ⟨trace, server, run, _, _, wires, assigned⟩ :=
    @runs_served (fun _ => True) _ _ _ (quiet_newOn numShards [nflx]) ran
  rw [orders] at assigned
  have bid : .assign 1 firstBidOrder ∈ trace := assigned firstBidOrder (by simp [fourOrders])
  have offer : .assign 2 firstOfferOrder ∈ trace := assigned firstOfferOrder (by simp [fourOrders])
  have bidTold : about 1 (server.wire 1) = [.ack firstBidOrder 'O'.toUInt8,
      .partialFill { firstBidOrder with qty := 2 } 3 2 90,
      .killConfirm { firstBidOrder with qty := 2 }] := by
    rw [wires, messages]
    rfl
  have offerTold : about 2 (server.wire 2) = [.ack firstOfferOrder 'O'.toUInt8,
      .fullFill { firstOfferOrder with qty := 0 } 3 90] := by
    rw [wires, messages]
    rfl
  refine ⟨trace, server, run, bid, offer, bidTold, ?_, offerTold, ?_⟩
  · rcases order_life_cycle run trivial bid with ⟨nothing, _⟩ | ⟨c, later, told, fills⟩
    · cases bidTold.symm.trans nothing
    · cases bidTold.symm.trans told
      exact fills
  · rcases order_life_cycle run trivial offer with ⟨nothing, _⟩ | ⟨c, later, told, fills⟩
    · cases offerTold.symm.trans nothing
    · cases offerTold.symm.trans told
      exact fills

end MarketBookExchange
