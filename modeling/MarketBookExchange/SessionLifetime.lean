import MarketBookExchange.SessionIndependence
import MarketBookExchange.SharedSockets

/- How long a session lives. The registry holds it weakly, so it is there as long as a pending
   or a running handler holds it; `readListener` arms the next read whatever became of the last. -/
namespace MarketBookExchange
open Outcome Transitions

def Stage.isIdle : Stage → Bool
  | .idle => true
  | _ => false

/-- `pending`: the session's read is issued and not yet completed. `failing`: its handler runs
    with an error. `failed`: the last read that completed did so with an error. -/
structure Connections where
  server : Server
  nextSessionId : Int := 1
  registered : Int → Bool := fun _ => false
  pending : Int → Bool := fun _ => false
  failing : Int → Bool := fun _ => false
  failed : Int → Bool := fun _ => false
  down : Bool := false

namespace Connections

def handling (c : Connections) (s : Int) : Bool := c.failing s || !(c.server.stage s).isIdle

/-- What `SessionRegistry::lock` finds. -/
def lock (c : Connections) (s : Int) : Bool := c.registered s && (c.pending s || c.handling s)

end Connections

def Server.deliver (server : Server) (messages : List (Int × Response)) : Server :=
  messages.foldl (fun server message => server.write message.1 message.2) server

namespace Connections

/-- `engineListener` makes a session, and `start` issues its first read. -/
def accept (c : Connections) : Connections :=
  { c with
    nextSessionId := c.nextSessionId + 1
    registered := Function.update c.registered c.nextSessionId true
    pending := Function.update c.pending c.nextSessionId true }

/-- A step of a handler whose read went well; its last statement issues the next read. -/
def handle (c : Connections) (s : Int) (server : Server) : Connections :=
  { c with
    server
    pending := Function.update c.pending s (server.stage s).isIdle
    failed := Function.update c.failed s false }

def readError (c : Connections) (s : Int) : Connections :=
  { c with
    pending := Function.update c.pending s false
    failing := Function.update c.failing s true
    failed := Function.update c.failed s true }

/-- With `ec` set the handler skips all but its last statement. -/
def rearm (c : Connections) (s : Int) : Connections :=
  { c with
    pending := Function.update c.pending s true
    failing := Function.update c.failing s false }

/-- A write to a broken connection throws, and takes the server down with its thread. -/
def drained (c : Connections) (market : MarketBook) (messages : List (Int × Response)) :
    Connections :=
  { c with
    server := { c.server with market }.deliver messages
    down := messages.any fun message => c.failed message.1 }

end Connections

def Action.session? : Action → Option Int
  | .read session _ => some session
  | .assign session _ => some session
  | .ack session => some session
  | .push session => some session
  | .pop _ _ => none
  | .flush _ => none

inductive LifeAction where
  | accept (session : Int)
  | handler (action : Action)
  | readError (session : Int)
  | rearm (session : Int)
  | drain (k : Nat) (messages : List (Int × Response))

/-- One step, as long as the server is up. -/
inductive LifeStep : Connections → LifeAction → Connections → Prop
  | accept {c : Connections} (up : c.down = false) :
      LifeStep c (.accept c.nextSessionId) c.accept
  | handler {c : Connections} {s : Int} {action : Action} {server : Server} (up : c.down = false)
      (acting : action.session? = some s)
      (ready : ∀ message, action = .read s message → c.pending s = true)
      (taken : Step (fun _ => False) c.server action server) :
      LifeStep c (.handler action) (c.handle s server)
  | readError {c : Connections} {s : Int} (up : c.down = false) (pending : c.pending s = true) :
      LifeStep c (.readError s) (c.readError s)
  | rearm {c : Connections} {s : Int} (up : c.down = false) (failing : c.failing s = true) :
      LifeStep c (.rearm s) (c.rearm s)
  | drain {c : Connections} {k : Nat} {market : MarketBook} {w : World} (up : c.down = false)
      (drained : c.server.market.drainOne (fun _ s => c.lock s) {} k = .ok (some (market, w))) :
      LifeStep c (.drain k (messagesOf w.log)) (c.drained market (messagesOf w.log))

abbrev LifeRun (symbols : List (List UInt8)) : List LifeAction → Connections → Prop :=
  Runs LifeStep { server := { market := .new symbols } }

def Later (c c' : Connections) : Prop := ∃ more, Runs LifeStep c more c'

def Passed (symbols : List (List UInt8)) (before : List LifeAction) (c₁ : Connections)
    (trace : List LifeAction) (c : Connections) : Prop :=
  LifeRun symbols before c₁ ∧ ∃ after, trace = before ++ after ∧ Runs LifeStep c₁ after c

/-- Nothing is read from the session or written to it any more; trading goes on as if it were
    there. -/
structure HungUp (c : Connections) (s : Int) : Prop where
  unread : c.pending s = false
  unlocked : c.handling s = false → c.lock s = false
  unwritten : c.handling s = false → ∀ k messages c', LifeStep c (.drain k messages) c' →
    ∀ response, (s, response) ∉ messages
  tradable : ∀ k registry market w market' w',
    c.server.market.drainOne (fun _ s => c.lock s) {} k = .ok (some (market, w)) →
    c.server.market.drainOne registry {} k = .ok (some (market', w')) →
    tradesOf w.log = tradesOf w'.log

section Lifetime
variable {c c' : Connections}

theorem deliver_keeps (messages : List (Int × Response)) : ∀ server : Server,
    (server.deliver messages).market = server.market ∧
    (server.deliver messages).stage = server.stage ∧
    (server.deliver messages).outbox = server.outbox := by
  induction messages with
  | nil => exact fun _ => ⟨rfl, rfl, rfl⟩
  | cons message messages ih => exact fun server => ih (server.write message.1 message.2)

theorem handler_stage {server server' : Server} {action : Action} {s : Int}
    (acting : action.session? = some s) (taken : Step (fun _ => False) server action server') {t : Int}
    (ne : t ≠ s) : server'.stage t = server.stage t := by
  cases taken with
  | accept idle decoded =>
    cases acting
    exact Server.setStage_other _ ne _
  | refuse idle refused => rfl
  | assign decoded =>
    cases acting
    exact Server.setStage_other _ ne _
  | ack assigned =>
    cases acting
    exact Server.setStage_other _ ne _
  | push acked =>
    cases acting
    exact Server.setStage_other _ ne _
  | pop written head connected drained => cases acting
  | flush next => cases acting

theorem handler_busy {server server' : Server} {action : Action} {s : Int}
    (acting : action.session? = some s) (taken : Step (fun _ => False) server action server') :
    (∃ message, action = .read s message) ∨ (server.stage s).isIdle = false := by
  cases taken with
  | accept idle decoded =>
    cases acting
    exact Or.inl ⟨_, rfl⟩
  | refuse idle refused =>
    cases acting
    exact Or.inl ⟨_, rfl⟩
  | assign decoded =>
    cases acting
    exact Or.inr (by rw [decoded]; rfl)
  | ack assigned =>
    cases acting
    exact Or.inr (by rw [assigned]; rfl)
  | push acked =>
    cases acting
    exact Or.inr (by rw [acked]; rfl)
  | pop written head connected drained => cases acting
  | flush next => cases acting

/-- A session that was accepted has a read pending or a handler running, for ever. -/
structure Chained (trace : List LifeAction) (c : Connections) : Prop where
  chain : ∀ s, c.registered s = true ↔ c.pending s = true ∨ c.handling s = true
  known : ∀ s, .readError s ∈ trace → c.registered s = true

theorem chained_new (symbols : List (List UInt8)) :
    Chained [] { server := { market := .new symbols } } := by
  constructor
  · intro s
    unfold Connections.handling
    simp [Stage.isIdle]
  · intro s error
    cases error

section Chains
variable {trace : List LifeAction}

theorem Chained.quiet (h : Chained trace c) {a : LifeAction} (quiet : ∀ s, a ≠ .readError s)
    (kept : ∀ s, c.registered s = true → c'.registered s = true)
    (chain : ∀ s, c'.registered s = true ↔ c'.pending s = true ∨ c'.handling s = true) :
    Chained (trace ++ [a]) c' := by
  constructor
  · exact chain
  · intro s error
    rcases List.mem_append.mp error with before | last
    · exact kept s (h.known s before)
    · exact absurd (List.mem_singleton.mp last).symm (quiet s)

theorem Chained.accept (h : Chained trace c) {s : Int} :
    Chained (trace ++ [.accept s]) c.accept := by
  apply h.quiet (by simp)
  · intro t registered
    unfold Connections.accept
    simp only
    by_cases own : t = c.nextSessionId
    · rw [own, Function.update_self]
    · rw [Function.update_of_ne own]
      exact registered
  · intro t
    unfold Connections.handling Connections.accept
    simp only
    by_cases own : t = c.nextSessionId
    · subst own
      simp
    · rw [Function.update_of_ne own, Function.update_of_ne own]
      exact h.chain t

theorem Chained.handle (h : Chained trace c) {s : Int} {action : Action} {server : Server}
    (acting : action.session? = some s) (ready : ∀ message, action = .read s message →
      c.pending s = true) (taken : Step (fun _ => False) c.server action server) :
    Chained (trace ++ [.handler action]) (c.handle s server) := by
  refine h.quiet (by simp) (fun _ known => known) fun t => ?_
  unfold Connections.handling Connections.handle
  simp only
  by_cases own : t = s
  · subst own
    have registered : c.registered t = true := by
      rw [h.chain]
      rcases handler_busy acting taken with ⟨message, read⟩ | busy
      · exact Or.inl (ready message read)
      · right
        unfold Connections.handling
        simp [busy]
    rw [registered, Function.update_self]
    cases (server.stage t).isIdle <;> simp
  · rw [Function.update_of_ne own, handler_stage acting taken own]
    exact h.chain t

theorem Chained.readError (h : Chained trace c) {s : Int} (pending : c.pending s = true) :
    Chained (trace ++ [.readError s]) (c.readError s) := by
  constructor
  · intro t
    have before := h.chain t
    unfold Connections.handling at before ⊢
    unfold Connections.readError
    simp only at before ⊢
    by_cases own : t = s
    · subst own
      simp [Function.update_self, before, pending]
    · rw [Function.update_of_ne own, Function.update_of_ne own]
      exact before
  · intro t error
    rcases List.mem_append.mp error with before | last
    · exact h.known t before
    · cases List.mem_singleton.mp last
      exact (h.chain s).mpr (Or.inl pending)

theorem Chained.rearm (h : Chained trace c) {s : Int} (failing : c.failing s = true) :
    Chained (trace ++ [.rearm s]) (c.rearm s) := by
  refine h.quiet (by simp) (fun _ known => known) fun t => ?_
  have before := h.chain t
  unfold Connections.handling at before ⊢
  unfold Connections.rearm
  simp only at before ⊢
  by_cases own : t = s
  · subst own
    simp [Function.update_self, before, failing]
  · rw [Function.update_of_ne own, Function.update_of_ne own]
    exact before

theorem Chained.drained (h : Chained trace c) (k : Nat) (market : MarketBook)
    (messages : List (Int × Response)) :
    Chained (trace ++ [.drain k messages]) (c.drained market messages) := by
  refine h.quiet (by simp) (fun _ known => known) fun t => ?_
  unfold Connections.handling Connections.drained
  simp only [(deliver_keeps messages { c.server with market }).2.1]
  exact h.chain t

theorem Chained.step (h : Chained trace c) {a : LifeAction} (taken : LifeStep c a c') :
    Chained (trace ++ [a]) c' := by
  cases taken with
  | accept up => exact h.accept
  | handler up acting ready taken => exact h.handle acting ready taken
  | readError up pending => exact h.readError pending
  | rearm up failing => exact h.rearm failing
  | drain up drained => exact h.drained _ _ _

end Chains

theorem chained_run {symbols : List (List UInt8)} {trace : List LifeAction}
    (run : LifeRun symbols trace c) : Chained trace c :=
  runs_invariant Chained (chained_new symbols) (fun _ _ _ _ h taken => h.step taken) run

/-- The registry finds every session that was ever accepted. -/
theorem Chained.locked {trace : List LifeAction} (h : Chained trace c) {s : Int}
    (registered : c.registered s = true) : c.lock s = true := by
  unfold Connections.lock
  rw [registered, Bool.true_and, Bool.or_eq_true]
  exact (h.chain s).mp registered

theorem later_refl : Later c c := ⟨[], .start⟩

theorem Later.before {c'' : Connections} {a : LifeAction} (taken : LifeStep c a c')
    (later : Later c' c'') : Later c c'' := by
  obtain ⟨more, run⟩ := later
  refine ⟨a :: more, ?_⟩
  induction run with
  | start => exact .next .start taken
  | next before step ih => exact .next ih step

theorem handler_next (up : c.down = false) {s : Int} {action : Action} {server : Server}
    (acting : action.session? = some s) (ready : ∀ message, action ≠ .read s message)
    (taken : Step (fun _ => False) c.server action server) :
    ∃ c', LifeStep c (.handler action) c' ∧ c'.down = false ∧ c'.server = server ∧
      c'.pending s = (server.stage s).isIdle :=
  ⟨_, .handler up acting (fun message read => absurd read (ready message)) taken, up, rfl,
    Function.update_self _ _ _⟩

theorem acked_later (up : c.down = false) {s : Int} {order : Order}
    (acked : c.server.stage s = .acked order) : ∃ c', Later c c' ∧ c'.pending s = true := by
  have acting : Action.session? (.push s) = some s := rfl
  obtain ⟨c', taken, _, _, pending⟩ := handler_next up acting (fun _ => by simp) (.push acked)
  rw [Server.setStage_self] at pending
  exact ⟨c', .before taken later_refl, pending⟩

theorem assigned_later (up : c.down = false) {s : Int} {order : Order} {char : UInt8}
    (assigned : c.server.stage s = .assigned order char) :
    ∃ c', Later c c' ∧ c'.pending s = true := by
  have acting : Action.session? (.ack s) = some s := rfl
  obtain ⟨c', taken, up', server, _⟩ := handler_next up acting (fun _ => by simp) (.ack assigned)
  have acked : c'.server.stage s = .acked order := by rw [server, Server.setStage_self]
  obtain ⟨c'', later, pending⟩ := acked_later up' acked
  exact ⟨c'', .before taken later, pending⟩

theorem decoded_later (up : c.down = false) {s : Int} {order : Order} {char : UInt8}
    (decoded : c.server.stage s = .decoded order char) :
    ∃ c', Later c c' ∧ c'.pending s = true := by
  obtain ⟨c', taken, up', server, _⟩ := handler_next up (s := s) rfl (fun _ => by simp)
    (.assign decoded)
  have assigned : ∃ given, c'.server.stage s = .assigned given char := by
    rw [server, Server.setStage_self]
    exact ⟨_, rfl⟩
  obtain ⟨given, assigned⟩ := assigned
  obtain ⟨c'', later, pending⟩ := assigned_later up' assigned
  exact ⟨c'', .before taken later, pending⟩

/-- Whatever became of its last read, the session comes to its next one. -/
theorem Chained.rearmed {trace : List LifeAction} (h : Chained trace c) (up : c.down = false)
    {s : Int} (registered : c.registered s = true) : ∃ c', Later c c' ∧ c'.pending s = true := by
  rcases (h.chain s).mp registered with pending | handling
  · exact ⟨c, later_refl, pending⟩
  · unfold Connections.handling at handling
    cases failing : c.failing s with
    | true => exact ⟨_, .before (.rearm up failing) later_refl, Function.update_self _ _ _⟩
    | false =>
      cases stands : c.server.stage s with
      | idle =>
        rw [failing, stands] at handling
        cases handling
      | decoded order char => exact decoded_later up stands
      | assigned order char => exact assigned_later up stands
      | acked order => exact acked_later up stands

theorem handler_outbox {server server' : Server} {action : Action} {s : Int}
    (acting : action.session? = some s) (taken : Step (fun _ => False) server action server') :
    server'.outbox = server.outbox := by
  cases taken with
  | accept idle decoded => rfl
  | refuse idle refused => rfl
  | assign decoded => rfl
  | ack assigned => rfl
  | push acked => rfl
  | pop written head connected drained => cases acting
  | flush next => cases acting

theorem Consistent.same {g : Ghost} {server server' : Server} (h : Consistent g server)
    (market : server'.market = server.market) (stage : server'.stage = server.stage) :
    Consistent g server' := by
  cases server'
  simp only at market stage
  subst market stage
  exact h.messages _ _

theorem consistent_life {symbols : List (List UInt8)} {trace : List LifeAction}
    (run : LifeRun symbols trace c) :
    (∃ g, Consistent g c.server) ∧ ∀ k, c.server.outbox k = [] := by
  refine runs_invariant (fun _ c => (∃ g, Consistent g c.server) ∧ ∀ k, c.server.outbox k = [])
    ⟨⟨{}, consistent_new symbols⟩, fun _ => rfl⟩ ?_ run
  rintro _ c a c' ⟨⟨g, h⟩, empty⟩ taken
  cases taken with
  | handler up acting ready taken =>
    refine ⟨consistent_step h taken, fun k => ?_⟩
    exact (congrFun (handler_outbox acting taken) k).trans (empty k)
  | @drain k market w up drained =>
    obtain ⟨order, rest, queue, _⟩ := MarketBook.drainOne_cases drained
    have head : (c.server.market.shards k).queue.head? = some order := by rw [queue]; rfl
    have absent : ∀ session : Int, (fun _ : Int => False) session →
        ∀ _ : Nat, c.lock session = true := fun _ never => never.elim
    obtain ⟨g', h'⟩ := consistent_step h (.pop (empty k) head absent drained)
    obtain ⟨sameMarket, stage, outbox⟩ := deliver_keeps (messagesOf w.log) { c.server with market }
    exact ⟨⟨g', h'.same sameMarket stage⟩, fun k => (congrFun outbox k).trans (empty k)⟩
  | _ => exact ⟨⟨g, h⟩, empty⟩

/-- A request trades the same whichever sessions are found while it is processed. -/
theorem trades_same {g : Ghost} {server : Server} (h : Consistent g server) {k : Nat}
    {registry registry' : Registry} {market market' : MarketBook} {w w' : World}
    (drained : server.market.drainOne registry {} k = .ok (some (market, w)))
    (drained' : server.market.drainOne registry' {} k = .ok (some (market', w'))) :
    tradesOf w.log = tradesOf w'.log := by
  obtain ⟨order, rest, queue, _⟩ := MarketBook.drainOne_cases drained
  have head : (server.market.shards k).queue.head? = some order := by rw [queue]; rfl
  have member : order ∈ (server.market.shards k).queue := by simp [queue]
  have told : ∀ {w w₂ : World}, (w = w₂ ∨ ∃ snapshot symbol n,
      w = w₂.record (.broadcast snapshot symbol n)) → tradesOf w.log = tradesOf w₂.log := by
    rintro w w₂ (rfl | ⟨_, _, _, rfl⟩)
    · rfl
    · simp [World.record, tradesOf, Event.isTrade]
  cases h.popped head drained with
  | unknown absent same told =>
    cases h.popped head drained' with
    | unknown absent' same' told' =>
      rw [told, told', tradesOf_noted (noted_writeIfLocked _ _ _ _),
        tradesOf_noted (noted_writeIfLocked _ _ _ _)]
    | booked e book b₁ w₁ w₂ known =>
      rw [absent] at known
      cases known
  | booked e book b₁ w₁ w₂ known stored processed dispatched sent matched rests said =>
    cases h.popped head drained' with
    | unknown absent' same' told' =>
      rw [absent'] at known
      cases known
    | booked e' book' b₁' w₁' w₂' known' stored' processed' dispatched' sent' matched' rests' said' =>
      rw [known] at known'
      cases known'
      obtain ⟨tracks, sound, _, _, _⟩ := h.books k _ e known
      obtain ⟨unique, ordinary⟩ := h.admits member known
      have start : InStep (g.book k (symbolHash order.symbol)) {}
          (g.book k (symbolHash order.symbol)) {} :=
        ⟨rfl, fun _ _ _ => rfl, sound.distinct, rfl⟩
      have sides := start.dispatch registry registry' sound unique
      obtain ⟨_, noted, _⟩ := ends_ok (dispatch_tracks registry tracks {} ordinary) dispatched
      obtain ⟨_, noted', _⟩ := ends_ok (dispatch_tracks registry' tracks {} ordinary) dispatched'
      have trades : tradesOf w₁'.log = tradesOf w₁.log :=
        (tradesOf_noted noted').trans (tradesOf_noted noted).symm
      have both := InStep.updateBook registry registry'
        ⟨sides.queue, sides.flags, sides.distinct, trades⟩
      rw [told said, told said', matched, matched']
      exact both.trades.symm

/-- The one part of hanging up that the code does. -/
theorem orders_stay_tradable {symbols : List (List UInt8)} {trace : List LifeAction}
    (run : LifeRun symbols trace c) {k : Nat} {registry : Registry} {market market' : MarketBook}
    {w w' : World}
    (drained : c.server.market.drainOne (fun _ s => c.lock s) {} k = .ok (some (market, w)))
    (drained' : c.server.market.drainOne registry {} k = .ok (some (market', w'))) :
    tradesOf w.log = tradesOf w'.log := by
  obtain ⟨⟨g, h⟩, _⟩ := consistent_life run
  exact trades_same h drained drained'

/-- The code hangs up on no session: what is asked of a session from a failed read on holds
    exactly as long as none of its reads has failed. -/
theorem hangs_up_iff {symbols : List (List UInt8)} {trace : List LifeAction}
    (run : LifeRun symbols trace c) (s : Int) :
    (∀ before c₁, Passed symbols before c₁ trace c → .readError s ∈ before →
      ∀ c', Later c₁ c' → HungUp c' s) ↔ .readError s ∉ trace := by
  constructor
  · intro hangs error
    obtain ⟨before, c₀, c₁, after, split, run₀, taken, run₁⟩ := runs_at run error
    have errored := run₀.next taken
    have up : c₁.down = false := by
      cases taken with
      | readError up pending => exact up
    have member : LifeAction.readError s ∈ before ++ [.readError s] := by simp
    have h := chained_run errored
    obtain ⟨c', later, pending⟩ := h.rearmed up (h.known s member)
    have unread := (hangs _ c₁ ⟨errored, after, split, run₁⟩ member c' later).unread
    rw [pending] at unread
    cases unread
  · intro nothing before c₁ passed error
    obtain ⟨after, split, _⟩ := passed.2
    rw [split] at nothing
    exact absurd (List.mem_append_left after error) nothing

theorem Chained.lock_eq {trace : List LifeAction} (h : Chained trace c) :
    c.lock = c.registered := by
  funext s
  cases registered : c.registered s with
  | true => exact h.locked registered
  | false =>
    unfold Connections.lock
    rw [registered, Bool.false_and]

/-- The handler of a session leaves the others, and the registry, as they were. -/
structure Beside (s : Int) (c c' : Connections) : Prop where
  down : c'.down = c.down
  registered : c'.registered = c.registered
  nextSessionId : c'.nextSessionId = c.nextSessionId
  failing : c'.failing = c.failing
  failed : ∀ t, t ≠ s → c'.failed t = c.failed t

theorem Beside.handle {s : Int} {c₀ : Connections} (h : Beside s c₀ c) (server : Server) :
    Beside s c₀ (c.handle s server) := by
  constructor
  · exact h.down
  · exact h.registered
  · exact h.nextSessionId
  · exact h.failing
  · intro t other
    unfold Connections.handle
    simp only [Function.update_of_ne other]
    exact h.failed t other

theorem life_request {symbols : List (List UInt8)} {trace : List LifeAction}
    (run : LifeRun symbols trace c) (up : c.down = false) {s : Int} (pending : c.pending s = true)
    (idle : c.server.stage s = .idle) {message : List UInt8} {order : Order} {char : UInt8}
    (received : receive widths message = .ok (.request order char)) :
    ∃ more c', LifeRun symbols (trace ++ more) c' ∧ Beside s c c' ∧
      c'.server.market = c.server.market.assignOrderId.2.submitOrder { order with
        orderId := c.server.market.assignOrderId.1, sessionId := s } ∧
      c'.pending s = true ∧ ∀ t, c'.server.stage t = c.server.stage t := by
  have read := run.next (.handler up rfl (fun _ _ => pending) (.accept idle received))
  have assign := read.next (.handler (s := s) up rfl (fun _ shape => by cases shape)
    (.assign (Server.setStage_self _ _ _)))
  have ack := assign.next (.handler (s := s) up rfl (fun _ shape => by cases shape)
    (.ack (Server.setStage_self _ _ _)))
  have push := ack.next (.handler (s := s) up rfl (fun _ shape => by cases shape)
    (.push (Server.setStage_self _ _ _)))
  simp only [List.append_assoc] at push
  have beside : Beside s c c := ⟨rfl, rfl, rfl, rfl, fun _ _ => rfl⟩
  refine ⟨_, _, push, (((beside.handle _).handle _).handle _).handle _, rfl, ?_, fun t => ?_⟩
  · unfold Connections.handle
    simp only [Function.update_self, Server.setStage_self, Stage.isIdle]
  · by_cases own : t = s
    · subst own
      exact (Server.setStage_self _ _ _).trans idle.symm
    · exact ((Server.setStage_other _ own _).trans (Server.setStage_other _ own _)).trans
        ((Server.setStage_other _ own _).trans (Server.setStage_other _ own _))

theorem hangs_up_iff_eof : ∃ trace c, LifeRun [appl] trace c ∧ .readError 1 ∈ trace ∧
    ¬ ∀ before c₁, Passed [appl] before c₁ trace c → .readError 1 ∈ before →
      ∀ c', Later c₁ c' → HungUp c' 1 := by
  have new : LifeRun [appl] [] { server := { market := .new [appl] } } := .start
  have accept := new.next (.accept rfl)
  have error := accept.next (.readError rfl (Function.update_self _ _ _))
  have member : LifeAction.readError 1 ∈ [] ++ [LifeAction.accept 1] ++ [.readError 1] := by simp
  exact ⟨_, _, error, member, fun hangs => (hangs_up_iff error 1).mp hangs member⟩

end Lifetime

def bidAppl : List UInt8 :=
  ['O'.toUInt8, 'B'.toUInt8] ++ appl ++ [0, 0, 0, 5] ++ [0, 0, 0, 100] ++
    List.replicate 4 ' '.toUInt8

def offerAppl : List UInt8 :=
  ['O'.toUInt8, 'S'.toUInt8] ++ appl ++ [0, 0, 0, 5] ++ [0, 0, 0, 100] ++
    List.replicate 4 ' '.toUInt8

def bidRequest : Order :=
  { orderType := .buy, symbol := appl, qty := 5, priceLevel := 100, orderId := 1, sessionId := 1 }

def offerRequest : Order :=
  { orderType := .sell, symbol := appl, qty := 5, priceLevel := 100, orderId := 2, sessionId := 2 }

theorem fill_told : ∃ m w m' w',
    ((MarketBook.new [appl]).assignOrderId.2.submitOrder bidRequest).drainOne
      (fun _ s => decide (s = 1)) {} 1 = .ok (some (m, w)) ∧ messagesOf w.log = [] ∧
    (m.assignOrderId.2.submitOrder offerRequest).drainOne
      (fun _ s => decide (s = 2 ∨ s = 1)) {} 1 = .ok (some (m', w')) ∧ m.currentId = 2 ∧
    (messagesOf w'.log).map Prod.fst = [1, 2] := by
  have seen : (do
      match ← ((MarketBook.new [appl]).assignOrderId.2.submitOrder bidRequest).drainOne
        (fun _ s => decide (s = 1)) {} 1 with
      | none => pure none
      | some r =>
        match ← (r.1.assignOrderId.2.submitOrder offerRequest).drainOne
          (fun _ s => decide (s = 2 ∨ s = 1)) {} 1 with
        | none => pure none
        | some r' => pure (some (messagesOf r.2.log, r.1.currentId,
            (messagesOf r'.2.log).map Prod.fst))) =
      (Except.ok (some ([], 2, [1, 2])) :
        Except Fault (Option (List (Int × Response) × Int × List Int))) :=
    ok_of_toOption (by decide +kernel)
  obtain ⟨r, first, seen⟩ := bind_ok seen
  cases r with
  | none => cases seen
  | some r =>
    obtain ⟨r', second, seen⟩ := bind_ok seen
    cases r' with
    | none => cases seen
    | some r' =>
      simp only [pure_eq_ok, Except.ok.injEq, Option.some.injEq, Prod.mk.injEq] at seen
      exact ⟨r.1, r.2, r'.1, r'.2, first, seen.1, second, seen.2⟩

theorem leaves_with_bid {m : MarketBook} {w : World}
    (first : ((MarketBook.new [appl]).assignOrderId.2.submitOrder bidRequest).drainOne
      (fun _ s => decide (s = 1)) {} 1 = .ok (some (m, w))) (silent : messagesOf w.log = []) :
    ∃ trace c, LifeRun [appl] trace c ∧ .readError 1 ∈ trace ∧ c.down = false ∧
      c.server.market = m ∧ (∀ t, c.server.stage t = .idle) ∧ c.pending 2 = true ∧
      (∀ s, c.registered s = decide (s = 2 ∨ s = 1)) ∧ c.failing 1 = false ∧
      c.failed 1 = true := by
  have received : receive widths bidAppl =
      .ok (.request { bidRequest with orderId := 0, sessionId := 0 } 'O'.toUInt8) :=
    ok_of_toOption (by decide +kernel)
  have new : LifeRun [appl] [] { server := { market := .new [appl] } } := .start
  have accept := new.next (.accept rfl)
  obtain ⟨_, c, bid, beside, market, pending, stage⟩ :=
    life_request (s := 1) accept rfl rfl rfl received
  have registered : ∀ s, c.registered s = decide (s = 1) := by
    intro s
    rw [beside.registered]
    unfold Connections.accept
    by_cases own : s = 1
    · simp [own]
    · simp [own]
  have found : (fun (_ : Nat) s => c.lock s) = fun _ s => decide (s = 1) := by
    funext _ s
    rw [(chained_run bid).lock_eq]
    exact registered s
  have drained : c.server.market.drainOne (fun _ s => c.lock s) {} 1 = .ok (some (m, w)) := by
    rw [found, market]
    exact first
  have rests := bid.next (.drain beside.down drained)
  rw [silent] at rests
  have error := rests.next (.readError (s := 1) rfl pending)
  have rearm := error.next (.rearm (s := 1) rfl (by simp [Connections.readError]))
  have second : c.nextSessionId = 2 := beside.nextSessionId
  refine ⟨_, _, rearm.next (.accept rfl), by simp, rfl, rfl, stage, ?_, fun s => ?_, ?_, ?_⟩
  · exact (Function.update_apply _ _ _ _).trans (if_pos second.symm)
  · refine (Function.update_apply _ _ _ _).trans ?_
    change (if s = c.nextSessionId then true else c.registered s) = _
    rw [second, registered]
    by_cases own : s = 2
    · simp [own]
    · simp [own]
  · simp [Connections.accept, Connections.rearm]
  · simp [Connections.accept, Connections.rearm, Connections.readError]

/-- The fill is written to session 1, and the server is gone. -/
theorem hangs_up_iff_fails : ∃ trace c messages c', LifeRun [appl] trace c ∧ c.down = false ∧
    .readError 1 ∈ trace ∧ c.handling 1 = false ∧ LifeStep c (.drain 1 messages) c' ∧
    (∃ response, (1, response) ∈ messages) ∧ c'.down = true ∧ ¬ HungUp c 1 := by
  obtain ⟨m, w, m', w', first, silent, second, count, told⟩ := fill_told
  obtain ⟨_, c, run, error, up, market, idle, waits, registered, rearmed, failed⟩ :=
    leaves_with_bid first silent
  have received : receive widths offerAppl =
      .ok (.request { offerRequest with orderId := 0, sessionId := 0 } 'O'.toUInt8) :=
    ok_of_toOption (by decide +kernel)
  obtain ⟨_, c', offer, beside, market', _, stage⟩ :=
    life_request (s := 2) run up waits (idle 2) received
  have down : c'.down = false := beside.down.trans up
  have unhandled : c'.handling 1 = false := by
    unfold Connections.handling
    rw [beside.failing, rearmed, stage, idle]
    rfl
  have found : (fun (_ : Nat) s => c'.lock s) = fun _ s => decide (s = 2 ∨ s = 1) := by
    funext _ s
    rw [(chained_run offer).lock_eq, beside.registered]
    exact registered s
  have filled : c'.server.market.drainOne (fun _ s => c'.lock s) {} 1 = .ok (some (m', w')) := by
    rw [found, market', market]
    change (m.assignOrderId.2.submitOrder { offerRequest with orderId := m.currentId }).drainOne
      _ _ _ = _
    rw [count]
    exact second
  have last := LifeStep.drain down filled
  have written : ∃ response, (1, response) ∈ messagesOf w'.log := by
    have member : (1 : Int) ∈ (messagesOf w'.log).map Prod.fst := by simp [told]
    obtain ⟨⟨_, response⟩, member, rfl⟩ := List.mem_map.mp member
    exact ⟨response, member⟩
  obtain ⟨response, member⟩ := written
  refine ⟨_, c', _, _, offer, down, List.mem_append_left _ error, unhandled, last,
    ⟨response, member⟩, ?_, fun hung => ?_⟩
  · refine List.any_eq_true.mpr ⟨_, member, ?_⟩
    exact (beside.failed 1 (by decide)).trans failed
  · exact hung.unwritten unhandled 1 _ _ last response member

end MarketBookExchange
