import MarketBookExchange.LifeCycle
import MarketBookExchange.ServerInvariant

/- What an owner's connection shows of each of its orders, action by action: up to the ACK its
   messages come from the session, after that from one shard. -/
namespace MarketBookExchange
open RankedList Outcome KillFlagTable Transitions

/-- By its ACK and what was `told` after it, with the `pending` messages an order is at `life`. -/
def Standing (order : Order) (told pending : List Response) (life : Life) : Prop :=
  ∃ c later, told = .ack order c :: later ∧
    (Life.live order.qty).follow (later ++ pending) = life

theorem Standing.flush {order : Order} {told now pending : List Response} {life : Life}
    (h : Standing order told (now ++ pending) life) :
    Standing order (told ++ now) pending life := by
  obtain ⟨c, later, rfl, stands⟩ := h
  exact ⟨c, later ++ now, rfl, by rwa [List.append_assoc]⟩

/-- What the owner was told so far and will be told by the last call of a shard. -/
def Server.told (server : Server) (owner id : Int) : List Response := about id (server.wire owner)

def Server.pending (server : Server) (owner : Int) (s : Nat) (id : Int) : List Response :=
  about id (sentTo owner (server.outbox s))

structure Tells (owner : Int) (g : Ghost) (server : Server) : Prop where
  unheard : ∀ id, (g.status id = .fresh ∨ ∃ order, g.status id = .assigned order) →
    server.told owner id = []
  waiting : ∀ id order, g.status id = .acked order ∨ g.status id = .queued order →
    order.sessionId = owner → Standing order (server.told owner id) [] (.live order.qty)
  processed : ∀ id order, g.status id = .processed order → order.sessionId = owner →
    ∃ life, life ≠ .broken ∧ Standing order (server.told owner id)
      (server.pending owner (shardIndex order.symbol) id) life
  resting : ∀ s hash e, (server.market.shards s).privMp hash = some e →
    ∀ t, ∀ o ∈ (g.book s hash).queue t, o.sessionId = owner → ∀ order,
      g.status o.orderId = .processed order →
      Standing order (server.told owner o.orderId)
        (server.pending owner (shardIndex order.symbol) o.orderId) (.live o.qty)
  outbox : ∀ s session m id, (session, m) ∈ server.outbox s → m.orderId? = some id →
    ∃ order, g.status id = .processed order ∧ shardIndex order.symbol = s

theorem tells_new (owner : Int) (symbols : List (List UInt8)) :
    Tells owner {} { market := .new symbols } := by
  constructor
  · exact fun _ _ => rfl
  · rintro _ _ (h | h) <;> cases h
  · intro _ _ h
    cases h
  · intro _ _ _ _ _ _ h
    cases h
  · intro _ _ _ _ h
    cases h

section Sessions
variable {owner : Int} {g : Ghost} {server : Server} {session : Int} {order : Order} {c : UInt8}

theorem told_write {id : Int} {m : Response} (other : session = owner → m.orderId? ≠ some id) :
    (server.write session m).told owner id = server.told owner id := by
  unfold Server.told Server.write
  by_cases same : owner = session
  · subst same
    simp [about, other rfl]
  · simp only [Function.update_of_ne same]

theorem told_write_self {id : Int} {m : Response} :
    (server.write owner m).told owner id = server.told owner id ++ about id [m] := by
  unfold Server.told Server.write
  simp only [Function.update_self, about_append]

theorem Tells.move (h : Tells owner g server) {server' : Server} {id : Int} {status : Status}
    (told : ∀ key, key ≠ id → server'.told owner key = server.told owner key)
    (outbox : server'.outbox = server.outbox)
    (books : ∀ s hash, (server'.market.shards s).privMp hash =
      (server.market.shards s).privMp hash)
    (unheard : (status = .fresh ∨ ∃ order, status = .assigned order) → server'.told owner id = [])
    (waiting : ∀ order, status = .acked order ∨ status = .queued order →
      order.sessionId = owner → Standing order (server'.told owner id) [] (.live order.qty))
    (before : ∀ order, g.status id ≠ .processed order)
    (after : ∀ order, status ≠ .processed order) : Tells owner (g.move id status) server' := by
  have pending : ∀ s key, server'.pending owner s key = server.pending owner s key := by
    intro s key
    unfold Server.pending
    rw [outbox]
  have done : ∀ key order, (g.move id status).status key = .processed order →
      key ≠ id ∧ g.status key = .processed order := by
    intro key order stands
    by_cases same : key = id
    · subst same
      rw [Ghost.move_self] at stands
      exact absurd stands (after order)
    · rw [Ghost.move_other same] at stands
      exact ⟨same, stands⟩
  constructor
  · intro key stands
    by_cases same : key = id
    · subst same
      rw [Ghost.move_self] at stands
      exact unheard stands
    · rw [Ghost.move_other same] at stands
      rw [told key same]
      exact h.unheard key stands
  · intro key order stands mine
    by_cases same : key = id
    · subst same
      rw [Ghost.move_self] at stands
      exact waiting order stands mine
    · rw [Ghost.move_other same] at stands
      rw [told key same]
      exact h.waiting key order stands mine
  · intro key order stands mine
    obtain ⟨other, stands⟩ := done key order stands
    rw [told key other, pending]
    exact h.processed key order stands mine
  · intro s hash e known t o ho mine order stands
    obtain ⟨other, stands⟩ := done _ order stands
    rw [told _ other, pending]
    rw [books] at known
    exact h.resting s hash e known t o ho mine order stands
  · intro s session m key member names
    rw [outbox] at member
    obtain ⟨order, stands, place⟩ := h.outbox s session m key member names
    refine ⟨order, ?_, place⟩
    rwa [Ghost.move_other]
    rintro rfl
    exact before order stands

theorem Tells.accept (h : Tells owner g server) (stage : Stage) :
    Tells owner g (server.setStage session stage) :=
  ⟨h.unheard, h.waiting, h.processed, h.resting, h.outbox⟩

theorem Tells.refuse (h : Tells owner g server) (code : Int) :
    Tells owner g (server.write session (.error code)) := by
  have told : ∀ id, (server.write session (.error code)).told owner id = server.told owner id :=
    fun id => told_write fun _ => by simp [Response.orderId?]
  constructor
  · intro id stands
    rw [told]
    exact h.unheard id stands
  · intro id order stands mine
    rw [told]
    exact h.waiting id order stands mine
  · intro id order stands mine
    rw [told]
    exact h.processed id order stands mine
  · intro s hash e known t o ho mine order stands
    rw [told]
    exact h.resting s hash e known t o ho mine order stands
  · exact h.outbox

theorem Tells.assign (h : Tells owner g server) (held : Consistent g server) (numbered : Order)
    (stage : Stage) : Tells owner (g.move server.market.currentId (.assigned numbered))
      ({ server with market := server.market.assignOrderId.2 }.setStage session stage) := by
  have fresh := held.unissued
  apply h.move
  · exact fun _ _ => rfl
  · rfl
  · exact fun _ _ => rfl
  · exact fun _ => h.unheard _ (Or.inl fresh)
  · rintro _ (stands | stands) <;> cases stands
  · rw [fresh]
    simp
  · simp

theorem Tells.ack (h : Tells owner g server) (held : Consistent g server)
    (assigned : server.stage session = .assigned order c) :
    Tells owner (g.move order.orderId (.acked order))
      ((server.write session (.ack order c)).setStage session (.acked order)) := by
  have stands := held.stages session
  rw [assigned] at stands
  obtain ⟨here, mine, _⟩ := stands
  have nothing := h.unheard _ (Or.inr ⟨order, here⟩)
  apply h.move
  · intro key other
    exact told_write fun _ => by simpa [Response.orderId?] using Ne.symm other
  · rfl
  · exact fun _ _ => rfl
  · rintro (stands | ⟨_, stands⟩) <;> cases stands
  · rintro _ (stands | stands) own
    · cases stands
      rw [mine] at own
      subst own
      refine ⟨c, [], ?_, rfl⟩
      rw [show ((server.write session (.ack order c)).setStage session (.acked order)).told session
        order.orderId = (server.write session (.ack order c)).told session order.orderId from rfl,
        told_write_self, nothing]
      simp [about, Response.orderId?]
    · cases stands
  · rw [here]
    simp
  · simp

theorem Tells.push (h : Tells owner g server) (held : Consistent g server)
    (acked : server.stage session = .acked order) :
    Tells owner (g.move order.orderId (.queued order))
      ({ server with market := server.market.submitOrder order }.setStage session .idle) := by
  have stands := held.stages session
  rw [acked] at stands
  obtain ⟨here, mine, _⟩ := stands
  apply h.move
  · exact fun _ _ => rfl
  · rfl
  · exact fun s hash => congrFun (server.market.submitOrder_privMp order s) hash
  · rintro (stands | ⟨_, stands⟩) <;> cases stands
  · rintro _ (stands | stands) own
    · cases stands
    · cases stands
      exact h.waiting _ order (Or.inl here) own
  · rw [here]
    simp
  · simp

theorem told_flush {s : Nat} {m : Response} {rest : List (Int × Response)} (id : Int) :
    ((server.write session m).setOutbox s rest).told owner id =
      server.told owner id ++ about id (sentTo owner [(session, m)]) := by
  by_cases same : session = owner
  · subst same
    rw [show sentTo session [(session, m)] = [m] by simp [sentTo]]
    exact told_write_self
  · rw [show sentTo owner [(session, m)] = [] by simp [sentTo, same]]
    exact (told_write fun equal => absurd equal same).trans (List.append_nil _).symm

theorem pending_flush {s : Nat} {m : Response} {rest : List (Int × Response)}
    (next : server.outbox s = (session, m) :: rest) (id : Int) :
    server.pending owner s id = about id (sentTo owner [(session, m)]) ++
      ((server.write session m).setOutbox s rest).pending owner s id := by
  unfold Server.pending Server.setOutbox
  simp only [Function.update_self]
  rw [next, ← about_append, ← sentTo_append]
  rfl

theorem Tells.flush (h : Tells owner g server) {s : Nat} {m : Response}
    {rest : List (Int × Response)} (next : server.outbox s = (session, m) :: rest) :
    Tells owner g ((server.write session m).setOutbox s rest) := by
  have fromShard : ∀ id, about id (sentTo owner [(session, m)]) ≠ [] →
      ∃ order, g.status id = .processed order ∧ shardIndex order.symbol = s := by
    intro id nonempty
    refine h.outbox s session m id (by rw [next]; simp) ?_
    by_contra other
    unfold about sentTo at nonempty
    by_cases same : session = owner <;> simp [same, other] at nonempty
  have standing : ∀ id order life, g.status id = .processed order →
      Standing order (server.told owner id) (server.pending owner (shardIndex order.symbol) id)
        life →
      Standing order (((server.write session m).setOutbox s rest).told owner id)
        (((server.write session m).setOutbox s rest).pending owner (shardIndex order.symbol) id)
        life := by
    intro id order life now stands
    rw [told_flush]
    by_cases here : shardIndex order.symbol = s
    · rw [here, pending_flush next] at stands
      rw [here]
      exact stands.flush
    · have nothing : about id (sentTo owner [(session, m)]) = [] := by
        by_contra nonempty
        obtain ⟨order', done, place⟩ := fromShard id nonempty
        rw [now] at done
        cases done
        exact here place
      have same : ((server.write session m).setOutbox s rest).pending owner
          (shardIndex order.symbol) id = server.pending owner (shardIndex order.symbol) id := by
        unfold Server.pending Server.setOutbox
        simp only [Function.update_of_ne here]
        rfl
      rw [nothing, List.append_nil, same]
      exact stands
  have quiet : ∀ id, (∀ order, g.status id ≠ .processed order) →
      ((server.write session m).setOutbox s rest).told owner id = server.told owner id := by
    intro id early
    rw [told_flush]
    by_contra changed
    obtain ⟨order, done, _⟩ := fromShard id fun nothing => changed (by rw [nothing, List.append_nil])
    exact early order done
  constructor
  · intro id now
    rw [quiet]
    · exact h.unheard id now
    · rcases now with now | ⟨_, now⟩ <;> simp [now]
  · intro id order now mine
    rw [quiet]
    · exact h.waiting id order now mine
    · rcases now with now | now <;> simp [now]
  · intro id order now mine
    obtain ⟨life, fine, stands⟩ := h.processed id order now mine
    exact ⟨life, fine, standing id order life now stands⟩
  · intro k hash e known t o ho mine order now
    exact standing _ order _ now (h.resting k hash e known t o ho mine order now)
  · intro k receiver m' id member names
    refine h.outbox k receiver m' id ?_ names
    by_cases same : k = s
    · subst same
      simp only [Server.setOutbox, Function.update_self] at member
      rw [next]
      exact List.mem_cons_of_mem _ member
    · simp only [Server.setOutbox, Function.update_of_ne same] at member
      exact member

end Sessions

def lifeBefore (g : Ghost) (server : Server) (owner id : Int) : Life :=
  match g.status id with
  | .processed order => (Life.live order.qty).follow (server.told owner id).tail
  | _ => .broken

theorem lifeBefore_eq {g : Ghost} {server : Server} {owner id : Int} {order : Order}
    (done : g.status id = .processed order) {life : Life}
    (stands : Standing order (server.told owner id) [] life) :
    lifeBefore g server owner id = life ∧ ∀ more,
      Standing order (server.told owner id) more (life.follow more) := by
  obtain ⟨c, later, told, stands⟩ := stands
  rw [List.append_nil] at stands
  constructor
  · unfold lifeBefore
    rw [done, told]
    exact stands
  · exact fun more => ⟨c, later, told, by rw [Life.follow_append, stands]⟩

section Pop
variable {owner : Int} {g : Ghost} {server : Server} {s : Nat} {order : Order}

def Server.pendingAfter (server : Server) (owner : Int) (s : Nat) (w : World) (k : Nat)
    (id : Int) : List Response :=
  if k = s then heard owner id w.log else server.pending owner k id

theorem pending_setOutbox {market : MarketBook} {w : World} (k : Nat) (id : Int) :
    (({ server with market } : Server).setOutbox s (messagesOf w.log)).pending owner k id =
      server.pendingAfter owner s w k id := by
  unfold Server.pending Server.pendingAfter Server.setOutbox
  by_cases same : k = s
  · subst same
    simp only [Function.update_self, if_pos]
    rfl
  · simp only [Function.update_of_ne same, if_neg same]
    rfl

theorem Tells.before (h : Tells owner g server) (held : Consistent g server)
    (written : server.outbox s = [])
    (head : (server.market.shards s).queue.head? = some order) {id : Int} {o : Order}
    (done : (g.move order.orderId (.processed order)).status id = .processed o)
    (mine : o.sessionId = owner) (place : shardIndex o.symbol = s) :
    ∃ life, life ≠ .broken ∧ Standing o (server.told owner id) [] life := by
  by_cases same : id = order.orderId
  · subst same
    rw [Ghost.move_self] at done
    cases done
    have waits := held.queued s order (List.mem_of_mem_head? head)
    exact ⟨_, by simp, h.waiting _ order (Or.inr waits.1) mine⟩
  · rw [Ghost.move_other same] at done
    obtain ⟨life, fine, stands⟩ := h.processed id o done mine
    have nothing : server.pending owner s id = [] := by
      unfold Server.pending
      rw [written]
      rfl
    rw [place, nothing] at stands
    exact ⟨life, fine, stands⟩

theorem Tells.pop (h : Tells owner g server) (held : Consistent g server)
    (written : server.outbox s = [])
    (head : (server.market.shards s).queue.head? = some order) (g' : Ghost)
    (status : g'.status = (g.move order.orderId (.processed order)).status)
    {market : MarketBook} {w : World}
    (sound : ∀ id, lifeBefore g' server owner id ≠ .broken →
      (lifeBefore g' server owner id).follow (heard owner id w.log) ≠ .broken)
    (names : ∀ session m id, (session, m) ∈ messagesOf w.log → m.orderId? = some id →
      ∃ o, g'.status id = .processed o ∧ shardIndex o.symbol = s)
    (resting : ∀ k hash e, (market.shards k).privMp hash = some e →
      ∀ t, ∀ o ∈ (g'.book k hash).queue t, o.sessionId = owner → ∀ o',
        g'.status o.orderId = .processed o' → Standing o' (server.told owner o.orderId)
          (server.pendingAfter owner s w (shardIndex o'.symbol) o.orderId) (.live o.qty)) :
    Tells owner g' (({ server with market } : Server).setOutbox s (messagesOf w.log)) := by
  have waits := (held.queued s order (List.mem_of_mem_head? head)).1
  have early : ∀ id, (∀ o, g'.status id ≠ .processed o) → g'.status id = g.status id := by
    intro id early
    rw [status] at early ⊢
    apply Ghost.move_other
    rintro rfl
    exact early order (Ghost.move_self _ _)
  constructor
  · intro id standing
    refine h.unheard id ?_
    rw [← early id]
    · exact standing
    · rcases standing with standing | ⟨_, standing⟩ <;> simp [standing]
  · intro id o standing mine
    refine h.waiting id o ?_ mine
    rw [← early id]
    · exact standing
    · rcases standing with standing | standing <;> simp [standing]
  · intro id o done mine
    rw [pending_setOutbox]
    unfold Server.pendingAfter
    by_cases place : shardIndex o.symbol = s
    · rw [if_pos place]
      obtain ⟨life, fine, stands⟩ := h.before held written head (by rw [← status, done]) mine place
      obtain ⟨eq, after⟩ := lifeBefore_eq done stands
      refine ⟨_, ?_, after _⟩
      rw [← eq]
      exact sound id (by rwa [eq])
    · rw [if_neg place]
      refine h.processed id o ?_ mine
      rw [status] at done
      by_cases same : id = order.orderId
      · subst same
        rw [Ghost.move_self] at done
        cases done
        exact absurd (held.queued s order (List.mem_of_mem_head? head)).2.1 place
      · rwa [Ghost.move_other same] at done
  · intro k hash e known t o ho mine o' done
    rw [pending_setOutbox]
    exact resting k hash e known t o ho mine o' done
  · intro k session m id member concerns
    by_cases same : k = s
    · subst same
      simp only [Server.setOutbox, Function.update_self] at member
      exact names session m id member concerns
    · simp only [Server.setOutbox, Function.update_of_ne same] at member
      obtain ⟨o, done, place⟩ := h.outbox k session m id member concerns
      refine ⟨o, ?_, place⟩
      rw [status, Ghost.move_other]
      · exact done
      · rintro rfl
        rw [waits] at done
        cases done

theorem heard_error {registry : Registry} {id session code : Int} (w : World) :
    heard owner id (w.writeIfLocked registry session (.error code)).log =
      heard owner id w.log := by
  rw [writeIfLocked_log, heard_append]
  unfold written
  split
  · simp [heard, messagesOf, sentTo, about, Response.orderId?]
  · exact List.append_nil _

/-- A resting order was processed before the one that is popped, by its own book. -/
theorem Consistent.rested (held : Consistent g server)
    (head : (server.market.shards s).queue.head? = some order) {k : Nat} {hash : Int}
    {e : SymbolBook} (known : (server.market.shards k).privMp hash = some e) {t : OrderType}
    {o o' : Order} (ho : o ∈ (g.book k hash).queue t)
    (done : (g.move order.orderId (.processed order)).status o.orderId = .processed o') :
    g.status o.orderId = .processed o' ∧ shardIndex o'.symbol = k ∧ symbolHash o'.symbol = hash := by
  have waits := (held.queued s order (List.mem_of_mem_head? head)).1
  obtain ⟨o'', owned, place⟩ := held.owners k hash _ ((held.books k hash e known).sound.known t o ho)
  have other : o.orderId ≠ order.orderId := by
    intro same
    rw [same, waits] at owned
    cases owned
  rw [Ghost.move_other other, owned] at done
  cases done
  exact ⟨owned, place⟩

theorem Tells.unknown (h : Tells owner g server) (held : Consistent g server)
    (written : server.outbox s = [])
    (head : (server.market.shards s).queue.head? = some order) {registry : Registry} {code : Int} :
    Tells owner (g.move order.orderId (.processed order))
      (({ server with market := server.market.popQueue s } : Server).setOutbox s
        (messagesOf
          (({} : World).writeIfLocked registry order.sessionId (.error code)).log)) := by
  have quiet : ∀ id, heard owner id
      (({} : World).writeIfLocked registry order.sessionId (.error code)).log = [] :=
    fun id => heard_error {}
  apply h.pop held written head (g.move order.orderId (.processed order)) rfl
  · intro id fine
    rwa [quiet]
  · intro session m id member names
    rw [writeIfLocked_log] at member
    unfold messagesOf MarketBookExchange.written at member
    split at member
    · simp only [List.nil_append, List.filterMap_cons, List.filterMap_nil, List.mem_singleton,
        Prod.mk.injEq] at member
      rw [member.2] at names
      cases names
    · cases member
  · intro k hash e known t o ho mine o' done
    rw [MarketBook.popQueue_privMp] at known
    obtain ⟨start, _⟩ := held.rested head known ho done
    have stands := h.resting k hash e known t o ho mine o' start
    unfold Server.pendingAfter
    split
    · rename_i here
      rw [quiet]
      rw [here, Server.pending, written] at stands
      exact stands
    · exact stands

theorem Tells.sent (h : Tells owner g server) (held : Consistent g server)
    (written : server.outbox s = [])
    (head : (server.market.shards s).queue.head? = some order) {registry : Registry}
    {e : SymbolBook}
    (known : (server.market.shards s).privMp (symbolHash order.symbol) = some e)
    {t : OrderType} {o o' : Order}
    (ho : o ∈ ((g.book s (symbolHash order.symbol)).dispatch registry {} order).1.queue t)
    (mine : o.sessionId = owner)
    (done : (g.move order.orderId (.processed order)).status o.orderId = .processed o') :
    shardIndex o'.symbol = s ∧ Standing o' (server.told owner o.orderId) [] (.live o.qty) := by
  rcases dispatch_resting ho with old | new
  · obtain ⟨standing, place, _⟩ := held.rested head known old done
    have stands := h.resting s _ e known t o old mine o' standing
    rw [place, Server.pending, written] at stands
    exact ⟨place, stands⟩
  · obtain ⟨waits, place, _⟩ := held.queued s order (List.mem_of_mem_head? head)
    have kept : o.orderId = order.orderId ∧ o.sessionId = order.sessionId ∧ o.qty = order.qty := by
      unfold entry at new
      split at new <;> cases new <;> exact ⟨rfl, rfl, rfl⟩
    obtain ⟨id, session, qty⟩ := kept
    rw [id, Ghost.move_self] at done
    cases done
    rw [id, qty]
    exact ⟨place, h.waiting _ order (Or.inr waits) (session.symm.trans mine)⟩

theorem mem_messagesOf {log : List Event} {session : Int} {m : Response} :
    (session, m) ∈ messagesOf log ↔ .write session m ∈ log := by
  unfold messagesOf
  rw [List.mem_filterMap]
  constructor
  · rintro ⟨event, member, shape⟩
    cases event <;> cases shape
    exact member
  · exact fun member => ⟨_, member, rfl⟩

theorem heard_nil {log : List Event} {id : Int}
    (other : ∀ session m, .write session m ∈ log → m.orderId? ≠ some id) :
    heard owner id log = [] := by
  unfold heard about
  rw [List.filter_eq_nil_iff]
  intro m member
  obtain ⟨⟨session, response⟩, sent, shape⟩ := List.mem_filterMap.mp member
  simp only at shape
  split at shape
  · cases shape
    simpa using other session m (mem_messagesOf.mp sent)
  · cases shape

theorem Concerns.unheard {known : List Int} {queue : OrderType → List Order} {es : List Event}
    (h : Concerns known queue es) {id : Int} (other : id ∉ known) : heard owner id es = [] := by
  apply heard_nil
  intro session m member names
  obtain ⟨key, inside, shape⟩ := h.messages session m member
  rw [names] at shape
  cases shape
  exact other inside

theorem Tells.served (h : Tells owner g server) (held : Consistent g server)
    (written : server.outbox s = [])
    (head : (server.market.shards s).queue.head? = some order) {registry : Registry}
    {e : SymbolBook} (known : (server.market.shards s).privMp (symbolHash order.symbol) = some e)
    (sound : Sound (g.reqs s (symbolHash order.symbol) ++ [order])
      ((g.book s (symbolHash order.symbol)).dispatch registry {} order).1)
    (owners : ∀ id ∈ ids (accepted (g.reqs s (symbolHash order.symbol) ++ [order])), ∃ o,
      (g.move order.orderId (.processed order)).status id = .processed o) :
    Served owner (lifeBefore (g.move order.orderId (.processed order)) server owner)
      ((g.book s (symbolHash order.symbol)).dispatch registry {} order).1.queue [] := by
  constructor
  · exact sound.distinct
  · intro t o ho
    rcases dispatch_resting ho with old | new
    · exact (held.books s _ e known).positive t o old
    · exact entry_positive (held.queued s order (List.mem_of_mem_head? head)).2.2 new
  · intro t o ho mine
    obtain ⟨o', done⟩ := owners _ (sound.known t o ho)
    exact (lifeBefore_eq done (h.sent held written head known ho mine done).2).1
  · exact fun id fine => fine

theorem Tells.booked (h : Tells owner g server) (held : Consistent g server)
    (written : server.outbox s = [])
    (head : (server.market.shards s).queue.head? = some order) {registry : Registry}
    (connected : ∀ n, registry n owner = true) {e e' : SymbolBook} {f₁ : FlagBook}
    {w w₁ : World} (known : (server.market.shards s).privMp (symbolHash order.symbol) = some e)
    (sent : f₁ = ((g.book s (symbolHash order.symbol)).dispatch registry {} order).1)
    (rests : AtRest (g.reqs s (symbolHash order.symbol) ++ [order]) e'.book
      (f₁.updateBook registry w₁).1)
    (quiet : ∀ session m, .write session m ∈ w₁.log → m.orderId? = none)
    (told : messagesOf w.log = messagesOf (f₁.updateBook registry w₁).2.log) :
    Tells owner ((g.move order.orderId (.processed order)).advance s (symbolHash order.symbol)
        order (f₁.updateBook registry w₁).1)
      (({ server with
          market := (server.market.popQueue s).setBook s (symbolHash order.symbol) e' } :
        Server).setOutbox s (messagesOf w.log)) := by
  have place := (held.queued s order (List.mem_of_mem_head? head)).2.1
  have owners := ((held.pop head).advance (e := e') (Ghost.move_self _ _) place rests).owners s
    (symbolHash order.symbol)
  rw [(Ghost.advance_self _ _).1] at owners
  have rest := held.books s _ e known
  have shows := rest.sound.shows.dispatch registry {} (held.admits (List.mem_of_mem_head? head)
    known).1
  have start := h.served held written head known shows.toSound fun id inside => by
    obtain ⟨o, done, _⟩ := owners id inside
    exact ⟨o, done⟩
  rw [← sent] at shows start
  have standing : ∀ t, ∀ o ∈ f₁.queue t, o.sessionId = owner → ∀ o',
      (g.move order.orderId (.processed order)).status o.orderId = .processed o' →
      shardIndex o'.symbol = s ∧ Standing o' (server.told owner o.orderId) [] (.live o.qty) := by
    intro t o ho mine o' done
    exact h.sent held written head known (by rwa [← sent]) mine done
  obtain ⟨es, logs, served⟩ := served_updateBook connected f₁ w₁ start
  obtain ⟨es', logs', concerns⟩ := updateBook_concerns registry f₁ w₁ shows.known
  rw [logs] at logs'
  obtain rfl := List.append_cancel_left logs'
  have heardAll : ∀ id, heard owner id w.log = heard owner id es := by
    intro id
    have early : heard owner id w₁.log = [] := heard_nil fun session m member => by
      rw [quiet session m member]
      simp
    rw [heard, told, logs, ← heard, heard_append, early, List.nil_append]
  refine h.pop held written head ((g.move order.orderId (.processed order)).advance s
    (symbolHash order.symbol) order (f₁.updateBook registry w₁).1) rfl ?_ ?_ ?_
  · intro id fine
    rw [heardAll]
    exact served.sound id fine
  · intro session m id member names
    rw [told, logs, mem_messagesOf] at member
    rcases List.mem_append.mp member with early | late
    · rw [quiet session m early] at names
      cases names
    · obtain ⟨key, known, shape⟩ := concerns.messages session m late
      rw [names] at shape
      cases shape
      obtain ⟨o, done, place, _⟩ := owners id known
      exact ⟨o, done, place⟩
  · intro k hash e₂ known₂ t o ho mine o' done
    by_cases here : k = s ∧ hash = symbolHash order.symbol
    · obtain ⟨rfl, rfl⟩ := here
      rw [(Ghost.advance_self _ _).2] at ho
      obtain ⟨before, member, id, session⟩ := updateBook_origin registry f₁ w₁ t o ho
      have done : (g.move order.orderId (.processed order)).status o.orderId = .processed o' := done
      rw [← id] at done
      obtain ⟨inShard, stands⟩ := standing t before member (session.trans mine) o' done
      obtain ⟨eq, after⟩ := lifeBefore_eq done stands
      have follows := served.follows t o ho mine
      rw [Server.pendingAfter, if_pos inShard, heardAll, ← id]
      rw [← id] at follows
      have stood := after (heard owner before.orderId es)
      rwa [← eq, follows] at stood
    · rw [MarketBook.setBook_other _ here] at known₂
      rw [(Ghost.advance_other here _).2] at ho
      rw [MarketBook.popQueue_privMp] at known₂
      obtain ⟨now, inShard, inBook⟩ := held.rested head known₂ ho done
      have stands := h.resting k hash e₂ known₂ t o ho mine o' now
      rw [inShard] at stands
      rw [Server.pendingAfter, inShard]
      by_cases same : k = s
      · -- another book of the same shard: none of the messages is about its orders
        rw [if_pos same, heardAll, concerns.unheard]
        · rw [same, Server.pending, written] at stands
          exact stands
        · intro inside
          obtain ⟨o'', owned, _, hashed⟩ := owners _ inside
          rw [show (Ghost.advance _ _ _ _ _).status o.orderId = _ from done] at owned
          cases owned
          exact here ⟨same, inBook.symm.trans hashed⟩
      · rw [if_neg same]
        exact stands

end Pop

end MarketBookExchange
