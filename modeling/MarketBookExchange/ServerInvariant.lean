import MarketBookExchange.BookAtRest

/- Where every request is that was given an id, and what keeps the ids of a book apart. -/
namespace MarketBookExchange
open RankedList Outcome KillFlagTable Transitions

inductive Status where
  | fresh
  | assigned (order : Order)
  | acked (order : Order)
  | queued (order : Order)
  | processed (order : Order)

/-- What the server does not record: where each id is, and each book with its requests. -/
structure Ghost where
  status : Int → Status := fun _ => .fresh
  reqs : Nat → Int → List Order := fun _ _ => []
  book : Nat → Int → FlagBook := fun _ _ => {}

def Ghost.move (g : Ghost) (id : Int) (status : Status) : Ghost :=
  { g with status := Function.update g.status id status }

def Ghost.advance (g : Ghost) (s : Nat) (hash : Int) (order : Order) (f : FlagBook) : Ghost :=
  { g with
    reqs := Function.update g.reqs s (Function.update (g.reqs s) hash (g.reqs s hash ++ [order]))
    book := Function.update g.book s (Function.update (g.book s) hash f) }

def Stage.Holds (g : Ghost) (session : Int) : Stage → Prop
  | .idle => True
  | .decoded order _ => rejection order = none
  | .assigned order _ => g.status order.orderId = .assigned order ∧ order.sessionId = session ∧
      rejection order = none
  | .acked order => g.status order.orderId = .acked order ∧ order.sessionId = session ∧
      rejection order = none

structure Consistent (g : Ghost) (server : Server) : Prop where
  counting : 1 ≤ server.market.currentId
  issued : ∀ id, g.status id ≠ .fresh → 1 ≤ id ∧ id < server.market.currentId
  stages : ∀ session, (server.stage session).Holds g session
  queued : ∀ s, ∀ order ∈ (server.market.shards s).queue,
    g.status order.orderId = .queued order ∧ shardIndex order.symbol = s ∧ rejection order = none
  distinct : ∀ s, (ids (server.market.shards s).queue).Nodup
  books : ∀ s hash entry, (server.market.shards s).privMp hash = some entry →
    AtRest (g.reqs s hash) entry.book (g.book s hash)
  owners : ∀ s hash, ∀ id ∈ ids (accepted (g.reqs s hash)), ∃ order,
    g.status id = .processed order ∧ shardIndex order.symbol = s ∧ symbolHash order.symbol = hash

theorem receive_checked {w : Widths} {message : List UInt8} {order : Order} {c : UInt8}
    (run : receive w message = .ok (.request order c)) : rejection order = none := by
  unfold receive at run
  obtain ⟨decoded, _, run⟩ := bind_ok run
  cases decoded with
  | none => cases run
  | some decoded =>
    simp only at run
    split at run
    · cases run
    · rename_i checked
      cases run
      exact checked

theorem consistent_new (symbols : List (List UInt8)) :
    Consistent {} { market := .new symbols } := by
  constructor
  · simp [MarketBook.new, MarketBook.newOn_currentId]
  · exact fun _ h => absurd rfl h
  · exact fun _ => trivial
  · intro s order h
    rw [MarketBook.new, (MarketBook.newOn_books numShards symbols s).1] at h
    cases h
  · intro s
    simp [MarketBook.new, (MarketBook.newOn_books numShards symbols s).1, ids]
  · intro s hash entry known
    rw [(MarketBook.newOn_books numShards symbols s).2 hash entry known]
    exact atRest_new
  · intro _ _ _ h
    simp [ids, accepted] at h

section Sessions
variable {g : Ghost} {server : Server} {session : Int} {order : Order} {c : UInt8}

theorem Ghost.move_self (id : Int) (status : Status) : (g.move id status).status id = status :=
  Function.update_self _ _ _

theorem Ghost.move_other {id key : Int} {status : Status} (ne : key ≠ id) :
    (g.move id status).status key = g.status key := Function.update_of_ne ne _ _

theorem Ghost.move_of_ne {id key : Int} {status : Status} (ne : g.status key ≠ g.status id) :
    (g.move id status).status key = g.status key :=
  Ghost.move_other fun same => ne (by rw [same])

theorem Stage.Holds.move {stage : Stage} (h : stage.Holds g session) {id : Int} (status : Status)
    (other : ∀ order, g.status id = .assigned order ∨ g.status id = .acked order →
      order.sessionId ≠ session) : stage.Holds (g.move id status) session := by
  cases stage with
  | idle => trivial
  | decoded order c => exact h
  | assigned order c =>
    obtain ⟨here, owner, checked⟩ := h
    refine ⟨?_, owner, checked⟩
    rw [Ghost.move_of_ne, here]
    intro same
    exact other order (Or.inl (by rw [← same, here])) owner
  | acked order =>
    obtain ⟨here, owner, checked⟩ := h
    refine ⟨?_, owner, checked⟩
    rw [Ghost.move_of_ne, here]
    intro same
    exact other order (Or.inr (by rw [← same, here])) owner

theorem stages_setStage {stage : Stage} (others : ∀ s, s ≠ session → (server.stage s).Holds g s)
    (new : stage.Holds g session) (s : Int) :
    ((server.setStage session stage).stage s).Holds g s := by
  by_cases same : s = session
  · subst same
    rwa [Server.setStage_self]
  · rw [Server.setStage_other server same]
    exact others s same

theorem Consistent.messages (h : Consistent g server) (wire : Int → List Response)
    (outbox : Nat → List (Int × Response)) :
    Consistent g { server with wire, outbox } :=
  ⟨h.counting, h.issued, h.stages, h.queued, h.distinct, h.books, h.owners⟩

theorem Consistent.accept (h : Consistent g server) (checked : rejection order = none) :
    Consistent g (server.setStage session (.decoded order c)) :=
  ⟨h.counting, h.issued, stages_setStage (fun s _ => h.stages s) checked, h.queued, h.distinct,
    h.books, h.owners⟩

theorem Consistent.unissued (h : Consistent g server) :
    g.status server.market.currentId = .fresh := by
  by_contra used
  have below := (h.issued _ used).2
  omega

theorem Consistent.numbered (h : Consistent g server) {id : Int} {status : Status}
    (before : g.status id ≠ .fresh) (key : Int) (used : (g.move id status).status key ≠ .fresh) :
    1 ≤ key ∧ key < server.market.currentId := by
  apply h.issued
  by_cases same : key = id
  · rwa [same]
  · rwa [Ghost.move_other same] at used

/-- An id moves on. What is known of the other ids stays true. -/
theorem Consistent.moved (h : Consistent g server) {id : Int} {status : Status}
    (before : ∀ order, g.status id ≠ .processed order) (s : Nat) (hash : Int) (key : Int)
    (known : key ∈ ids (accepted (g.reqs s hash))) : ∃ order,
      (g.move id status).status key = .processed order ∧ shardIndex order.symbol = s ∧
        symbolHash order.symbol = hash := by
  obtain ⟨order, here, place⟩ := h.owners s hash key known
  refine ⟨order, ?_, place⟩
  rw [Ghost.move_of_ne, here]
  rw [here]
  exact fun same => before order same.symm

theorem Consistent.waiting (h : Consistent g server) {id : Int} {status : Status}
    (before : ∀ order, g.status id ≠ .queued order) (s : Nat) (order : Order)
    (member : order ∈ (server.market.shards s).queue) :
    (g.move id status).status order.orderId = .queued order ∧ shardIndex order.symbol = s ∧
      rejection order = none := by
  obtain ⟨here, place⟩ := h.queued s order member
  refine ⟨?_, place⟩
  rw [Ghost.move_of_ne, here]
  rw [here]
  exact fun same => before order same.symm

theorem Consistent.assign (h : Consistent g server)
    (decoded : server.stage session = .decoded order c) {numbered : Order}
    (given : numbered = { order with orderId := server.market.currentId, sessionId := session }) :
    Consistent (g.move server.market.currentId (.assigned numbered))
      ({ server with market := server.market.assignOrderId.2 }.setStage session
        (.assigned numbered c)) := by
  have fresh := h.unissued
  have checked := h.stages session
  rw [decoded] at checked
  have id : numbered.orderId = server.market.currentId := by rw [given]
  constructor
  · have counting := h.counting
    simp only [Server.setStage, MarketBook.assignOrderId]
    omega
  · intro key used
    simp only [Server.setStage, MarketBook.assignOrderId]
    by_cases same : key = server.market.currentId
    · have counting := h.counting
      omega
    · rw [Ghost.move_other same] at used
      have old := h.issued key used
      omega
  · apply stages_setStage
    · intro s _
      refine (h.stages s).move _ fun o stands => ?_
      rw [fresh] at stands
      rcases stands with stands | stands <;> cases stands
    · refine ⟨?_, by rw [given], ?_⟩
      · rw [id, Ghost.move_self]
      · rw [given]
        exact checked
  · exact h.waiting (by rw [fresh]; simp)
  · exact h.distinct
  · exact h.books
  · exact h.moved (by rw [fresh]; simp)

theorem Consistent.ack (h : Consistent g server)
    (assigned : server.stage session = .assigned order c) :
    Consistent (g.move order.orderId (.acked order))
      ((server.write session (.ack order c)).setStage session (.acked order)) := by
  have stands := h.stages session
  rw [assigned] at stands
  obtain ⟨here, owner, checked⟩ := stands
  constructor
  · exact h.counting
  · exact h.numbered (by rw [here]; simp)
  · apply stages_setStage
    · intro s ne
      refine (h.stages s).move _ fun o stands => ?_
      rw [here] at stands
      rcases stands with stands | stands
      · cases stands
        rw [owner]
        exact ne.symm
      · cases stands
    · exact ⟨Ghost.move_self _ _, owner, checked⟩
  · exact h.waiting (by rw [here]; simp)
  · exact h.distinct
  · exact h.books
  · exact h.moved (by rw [here]; simp)

theorem Consistent.push (h : Consistent g server) (acked : server.stage session = .acked order) :
    Consistent (g.move order.orderId (.queued order))
      ({ server with market := server.market.submitOrder order }.setStage session .idle) := by
  have stands := h.stages session
  rw [acked] at stands
  obtain ⟨here, owner, checked⟩ := stands
  have new : ∀ s, ∀ o ∈ (server.market.shards s).queue, o.orderId ≠ order.orderId := by
    intro s o member same
    have waits := (h.queued s o member).1
    rw [same, here] at waits
    cases waits
  constructor
  · exact h.counting
  · exact h.numbered (by rw [here]; simp)
  · apply stages_setStage
    · intro s ne
      refine (h.stages s).move _ fun o stands => ?_
      rw [here] at stands
      rcases stands with stands | stands
      · cases stands
      · cases stands
        rw [owner]
        exact ne.symm
    · trivial
  · intro s o member
    unfold Server.setStage at member
    rw [MarketBook.submitOrder_queue] at member
    by_cases same : s = shardIndex order.symbol
    · rw [if_pos same] at member
      rcases List.mem_append.mp member with old | last
      · exact h.waiting (by rw [here]; simp) s o old
      · rw [List.mem_singleton.mp last]
        exact ⟨Ghost.move_self _ _, same.symm, checked⟩
    · rw [if_neg same] at member
      exact h.waiting (by rw [here]; simp) s o member
  · intro s
    unfold Server.setStage
    rw [MarketBook.submitOrder_queue]
    by_cases same : s = shardIndex order.symbol
    · rw [if_pos same]
      simp only [ids, List.map_append]
      refine List.nodup_append.mpr ⟨h.distinct s, by simp, fun a ha b hb => ?_⟩
      obtain ⟨o, member, rfl⟩ := List.mem_map.mp ha
      rw [List.mem_singleton.mp hb]
      exact new s o member
    · rw [if_neg same]
      exact h.distinct s
  · intro s hash entry known
    unfold Server.setStage at known
    rw [MarketBook.submitOrder_privMp] at known
    exact h.books s hash entry known
  · exact h.moved (by rw [here]; simp)

end Sessions

section Matching
variable {g : Ghost} {server : Server} {registry : Registry} {s : Nat} {order : Order}
  {market : MarketBook} {w : World}

theorem Consistent.admits (h : Consistent g server)
    (member : order ∈ (server.market.shards s).queue) {hash : Int} {e : SymbolBook}
    (known : (server.market.shards s).privMp hash = some e) :
    (ids (accepted (g.reqs s hash ++ [order]))).Nodup ∧
      ∀ o, entry order = some o → Ordinary o.orderId := by
  have waits := (h.queued s order member).1
  have unique := (h.books s hash e known).unique
  have new : order.orderId ∉ ids (accepted (g.reqs s hash)) := by
    intro old
    obtain ⟨o, done, _⟩ := h.owners s hash _ old
    rw [waits] at done
    cases done
  constructor
  · cases booked : entry order with
    | none => rwa [accepted_append_none _ booked]
    | some o =>
      rw [ids_accepted_append _ booked, entry_id booked]
      refine List.nodup_append.mpr ⟨unique, by simp, fun a ha b hb same => ?_⟩
      rw [List.mem_singleton.mp hb] at same
      exact new (by rwa [← same])
  · intro o booked
    have issued := (h.issued order.orderId (by rw [waits]; simp)).1
    exact ordinary_of_nonneg (by rw [entry_id booked]; omega)

def MarketBook.popQueue (mb : MarketBook) (s : Nat) : MarketBook :=
  mb.setShard s { mb.shards s with queue := (mb.shards s).queue.tail }

theorem MarketBook.popQueue_privMp (mb : MarketBook) (k : Nat) :
    ((mb.popQueue s).shards k).privMp = (mb.shards k).privMp :=
  mb.setQueue_privMp s k _

theorem MarketBook.popQueue_queue (mb : MarketBook) (k : Nat) :
    ((mb.popQueue s).shards k).queue =
      if k = s then (mb.shards s).queue.tail else (mb.shards k).queue :=
  mb.setShard_queue s k _

theorem MarketBook.popQueue_submitOn {shards : Nat} {mb : MarketBook} {order : Order}
    (empty : (mb.shards (shardOf shards order.symbol)).queue = []) :
    (mb.submitOn shards order).popQueue (shardOf shards order.symbol) = mb := by
  have same : { mb.shards (shardOf shards order.symbol) with queue := [] } =
      mb.shards (shardOf shards order.symbol) := by
    rw [← empty]
  unfold MarketBook.popQueue MarketBook.submitOn MarketBook.setShard
  simp only [Function.update_self, Function.update_idem, empty, List.nil_append, List.tail_cons,
    same, Function.update_eq_self]

theorem MarketBook.drainOne_head {registry : Registry} {mb : MarketBook} {w : World}
    (head : (mb.shards s).queue.head? = some order) : mb.drainOne registry w s =
      (mb.popQueue s).processOne registry w (shardIndex order.symbol) order
        (symbolHash order.symbol) >>= fun r => .ok (some r) := by
  obtain ⟨rest, queue⟩ := List.head?_eq_some_iff.mp head
  unfold MarketBook.drainOne MarketBook.popQueue
  rw [queue]
  rfl

theorem MarketBook.drainOne_alone {registry : Registry} {mb : MarketBook} {w : World}
    {order : Order} (empty : (mb.shards (shardIndex order.symbol)).queue = []) :
    (mb.submitOrder order).drainOne registry w (shardIndex order.symbol) =
      mb.processOne registry w (shardIndex order.symbol) order (symbolHash order.symbol) >>=
        fun r => .ok (some r) := by
  have head : ((mb.submitOrder order).shards (shardIndex order.symbol)).queue.head? =
      some order := by
    rw [MarketBook.submitOrder_queue, if_pos rfl, empty]
    rfl
  rw [MarketBook.drainOne_head head, MarketBook.submitOrder, shardIndex,
    MarketBook.popQueue_submitOn empty]

inductive Popped (g : Ghost) (server : Server) (registry : Registry) (s : Nat) (order : Order)
    (market : MarketBook) (w : World) : Prop
  | unknown (absent : (server.market.shards s).privMp (symbolHash order.symbol) = none)
      (same : market = server.market.popQueue s)
      (told : w = ({} : World).writeIfLocked registry order.sessionId (.error symbolNotFound))
  | booked (e : SymbolBook) (book b₁ : OrderBook) (w₁ w₂ : World)
      (known : (server.market.shards s).privMp (symbolHash order.symbol) = some e)
      (stored : market = (server.market.popQueue s).setBook s (symbolHash order.symbol)
        { book, seqLen := e.seqLen + 1 })
      (processed : e.book.process registry {} order = .ok (book, w₂))
      (dispatched : e.book.dispatch registry {} order = .ok (b₁, w₁))
      (sent : Tracks b₁
        ((g.book s (symbolHash order.symbol)).dispatch registry {} order).1)
      (matched : w₂ = (((g.book s (symbolHash order.symbol)).dispatch registry {}
        order).1.updateBook registry w₁).2)
      (rests : AtRest (g.reqs s (symbolHash order.symbol) ++ [order]) book
        (((g.book s (symbolHash order.symbol)).dispatch registry {} order).1.updateBook registry
          w₁).1)
      (told : w = w₂ ∨ ∃ snapshot symbol n, w = w₂.record (.broadcast snapshot symbol n))

theorem Consistent.popped (h : Consistent g server)
    (head : (server.market.shards s).queue.head? = some order)
    (drained : server.market.drainOne registry {} s = .ok (some (market, w))) :
    Popped g server registry s order market w := by
  have member : order ∈ (server.market.shards s).queue := List.mem_of_mem_head? head
  obtain ⟨_, here, checked⟩ := h.queued s order member
  rw [MarketBook.drainOne_head head, here] at drained
  obtain ⟨_, ran, shape⟩ := bind_ok drained
  cases shape
  rcases MarketBook.processOne_cases ran with ⟨absent, same, told⟩ |
    ⟨e, book, w₂, known, processed, stored, told⟩
  · rw [MarketBook.popQueue_privMp] at absent
    exact .unknown absent same told
  · rw [MarketBook.popQueue_privMp] at known
    obtain ⟨unique, ordinary⟩ := h.admits member known
    obtain ⟨b₁, w₁, dispatched, sent, matched, rests⟩ :=
      (h.books s _ e known).process unique ordinary checked processed
    exact .booked e book b₁ w₁ w₂ known stored processed dispatched sent matched rests told

theorem Consistent.pop (h : Consistent g server)
    (head : (server.market.shards s).queue.head? = some order) :
    Consistent (g.move order.orderId (.processed order))
      { server with market := server.market.popQueue s } := by
  obtain ⟨rest, queue⟩ := List.head?_eq_some_iff.mp head
  have member : order ∈ (server.market.shards s).queue := by simp [queue]
  obtain ⟨here, place, _⟩ := h.queued s order member
  have nodup := h.distinct s
  rw [queue, ids, List.map_cons, List.nodup_cons] at nodup
  constructor
  · exact h.counting
  · exact h.numbered (by rw [here]; simp)
  · intro session
    refine (h.stages session).move _ fun o stands => ?_
    rw [here] at stands
    rcases stands with stands | stands <;> cases stands
  · intro k o waits
    have old : o ∈ (server.market.shards k).queue ∧ o.orderId ≠ order.orderId := by
      rw [MarketBook.popQueue_queue] at waits
      by_cases same : k = s
      · subst same
        rw [if_pos rfl, queue] at waits
        refine ⟨by rw [queue]; exact List.mem_cons_of_mem _ waits, fun equal => ?_⟩
        exact nodup.1 (by rw [← equal]; exact List.mem_map_of_mem waits)
      · rw [if_neg same] at waits
        refine ⟨waits, fun equal => ?_⟩
        obtain ⟨there, elsewhere, _⟩ := h.queued k o waits
        rw [equal, here] at there
        cases there
        exact same (elsewhere.symm.trans place)
    rw [Ghost.move_other old.2]
    exact h.queued k o old.1
  · intro k
    rw [MarketBook.popQueue_queue]
    by_cases same : k = s
    · rw [if_pos same, queue]
      exact nodup.2
    · rw [if_neg same]
      exact h.distinct k
  · intro k hash e known
    rw [MarketBook.popQueue_privMp] at known
    exact h.books k hash e known
  · exact h.moved (by rw [here]; simp)

theorem Ghost.advance_self (hash : Int) (f : FlagBook) :
    (g.advance s hash order f).reqs s hash = g.reqs s hash ++ [order] ∧
      (g.advance s hash order f).book s hash = f := by
  unfold Ghost.advance
  simp only [Function.update_self]
  exact ⟨trivial, trivial⟩

theorem Ghost.advance_other {hash x : Int} {k : Nat} (ne : ¬ (k = s ∧ x = hash)) (f : FlagBook) :
    (g.advance s hash order f).reqs k x = g.reqs k x ∧
      (g.advance s hash order f).book k x = g.book k x := by
  unfold Ghost.advance
  by_cases same : k = s
  · subst same
    simp only [Function.update_self]
    have other : x ≠ hash := fun equal => ne ⟨rfl, equal⟩
    rw [Function.update_of_ne other, Function.update_of_ne other]
    exact ⟨rfl, rfl⟩
  · simp only [Function.update_of_ne same]
    exact ⟨trivial, trivial⟩

theorem Consistent.advance (h : Consistent g server)
    (done : g.status order.orderId = .processed order) (place : shardIndex order.symbol = s)
    {e : SymbolBook} {f : FlagBook}
    (rests : AtRest (g.reqs s (symbolHash order.symbol) ++ [order]) e.book f) :
    Consistent (g.advance s (symbolHash order.symbol) order f)
      { server with market := server.market.setBook s (symbolHash order.symbol) e } := by
  constructor
  · exact h.counting
  · exact h.issued
  · exact h.stages
  · intro k o waits
    rw [MarketBook.setBook_queue] at waits
    exact h.queued k o waits
  · intro k
    rw [MarketBook.setBook_queue]
    exact h.distinct k
  · intro k x e' known
    by_cases here : k = s ∧ x = symbolHash order.symbol
    · obtain ⟨rfl, rfl⟩ := here
      rw [MarketBook.setBook_self] at known
      cases known
      rw [(Ghost.advance_self _ _).1, (Ghost.advance_self _ _).2]
      exact rests
    · rw [MarketBook.setBook_other _ here] at known
      rw [(Ghost.advance_other here f).1, (Ghost.advance_other here f).2]
      exact h.books k x e' known
  · intro k x key known
    by_cases here : k = s ∧ x = symbolHash order.symbol
    · obtain ⟨rfl, rfl⟩ := here
      rw [(Ghost.advance_self _ _).1] at known
      cases booked : entry order with
      | none =>
        rw [accepted_append_none _ booked] at known
        exact h.owners _ _ key known
      | some o =>
        rw [ids_accepted_append _ booked] at known
        rcases List.mem_append.mp known with old | new
        · exact h.owners _ _ key old
        · rw [List.mem_singleton.mp new, entry_id booked]
          exact ⟨order, done, place, rfl⟩
    · rw [(Ghost.advance_other here f).1] at known
      exact h.owners k x key known

end Matching

/-- Every step keeps the server consistent. -/
theorem consistent_step {present : Int → Prop} {g : Ghost} {server server' : Server} {a : Action}
    (h : Consistent g server) (step : Step present server a server') :
    ∃ g', Consistent g' server' := by
  cases step with
  | accept idle decoded => exact ⟨g, h.accept (receive_checked decoded)⟩
  | refuse idle refused => exact ⟨g, h.messages _ _⟩
  | assign decoded => exact ⟨_, h.assign decoded rfl⟩
  | ack assigned => exact ⟨_, h.ack assigned⟩
  | push acked => exact ⟨_, h.push acked⟩
  | flush next => exact ⟨g, h.messages _ _⟩
  | pop written head connected drained =>
    have waits := h.queued _ _ (List.mem_of_mem_head? head)
    cases h.popped head drained with
    | unknown absent same told =>
      rw [same]
      exact ⟨_, (h.pop head).messages _ _⟩
    | booked e book b₁ w₁ w₂ known stored processed dispatched sent matched rests told =>
      rw [stored]
      have advanced := (h.pop head).advance (e := ⟨book, e.seqLen + 1⟩) (Ghost.move_self _ _)
        waits.2.1 rests
      exact ⟨_, advanced.messages _ _⟩

theorem consistent_run {symbols : List (List UInt8)} {present : Int → Prop}
    {trace : List Action} {server : Server} (run : ServerRun symbols present trace server) :
    ∃ g, Consistent g server := by
  refine runs_invariant (fun _ server => ∃ g, Consistent g server)
    ⟨{}, consistent_new symbols⟩ ?_ run
  rintro _ _ _ _ ⟨g, h⟩ step
  exact consistent_step h step

end MarketBookExchange
