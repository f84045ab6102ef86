import MarketBookExchange.Quiescence
import MarketBookExchange.BookAtRest
import MarketBookExchange.KnownOrders
import MarketBookExchange.ClientRequests

/- The answer to a KILL. With every session there, the kill table has an entry for each
   resting order and no other; but the ids on the wire include its two slot markers. -/
namespace MarketBookExchange
open RankedList Outcome KillFlagTable LinearProbing BigEndian

/-- The orders the calls left in the book. -/
def bookedBy (cs : List Call) : List Order := cs.filterMap Call.booked

/-- The flags are those of the resting orders, each booked by a call and none twice. -/
structure Accounted (cs : List Call) (f : FlagBook) : Prop where
  distinct : (ids (f.queue .buy) ++ ids (f.queue .sell)).Nodup
  booked : ∀ t, ∀ o ∈ f.queue t, ∃ a ∈ bookedBy cs,
    a.orderId = o.orderId ∧ a.sessionId = o.sessionId
  flagged : ∀ t, ∀ o ∈ f.queue t, f.flags o.orderId ≠ none
  owned : Owned f.queue f.flags

theorem accounted_new : Accounted [] {} := by
  constructor
  · simp [ids]
  · intro _ _ h
    cases h
  · intro _ _ h
    cases h
  · intro _ known
    exact absurd rfl known

namespace Accounted
variable {registry : Registry} {cs : List Call} {f : FlagBook} {t : OrderType} {front : Order}
  {rest : List Order}

theorem leave (h : Accounted cs f) (head : f.queue t = front :: rest) :
    Accounted cs ⟨Function.update f.queue t rest, Function.update f.flags front.orderId none⟩ := by
  have alone := front_alone h.distinct head
  have old := rest_sublist head
  constructor
  · exact h.distinct.sublist (((old .buy).map _).append ((old .sell).map _))
  · exact fun u o ho => h.booked u o ((old u).subset ho)
  · intro u o ho
    simp only [Function.update_of_ne (alone u o ho)]
    exact h.flagged u o ((old u).subset ho)
  · exact h.owned.evict head

theorem reduce (h : Accounted cs f) (head : f.queue t = front :: rest) (fillQty : Int) :
    Accounted cs ⟨Function.update f.queue t (afterFill front fillQty :: rest), f.flags⟩ := by
  have same : ∀ u, ids (Function.update f.queue t (afterFill front fillQty :: rest) u) =
      ids (f.queue u) := by
    intro u
    by_cases side : u = t
    · subst side
      rw [Function.update_self, head]
      rfl
    · rw [Function.update_of_ne side]
  have old : ∀ u, ∀ o ∈ Function.update f.queue t (afterFill front fillQty :: rest) u,
      ∃ x ∈ f.queue u, x.orderId = o.orderId ∧ x.sessionId = o.sessionId := by
    intro u o ho
    by_cases side : u = t
    · subst side
      rw [Function.update_self] at ho
      rw [head]
      rcases List.mem_cons.mp ho with rfl | later
      · exact ⟨front, by simp, rfl, rfl⟩
      · exact ⟨o, by simp [later], rfl, rfl⟩
    · rw [Function.update_of_ne side] at ho
      exact ⟨o, ho, rfl, rfl⟩
  constructor
  · simp only [same]
    exact h.distinct
  · intro u o ho
    obtain ⟨x, hx, id, session⟩ := old u o ho
    obtain ⟨a, ha, id', session'⟩ := h.booked u x hx
    exact ⟨a, ha, id'.trans id, session'.trans session⟩
  · intro u o ho
    obtain ⟨x, hx, id, _⟩ := old u o ho
    rw [← id]
    exact h.flagged u x hx
  · intro key known
    obtain ⟨u, x, hx, id⟩ := h.owned key known
    have member : key ∈ ids (Function.update f.queue t (afterFill front fillQty :: rest) u) := by
      rw [same, ← id]
      exact List.mem_map_of_mem hx
    obtain ⟨o, ho, id'⟩ := List.mem_map.mp member
    exact ⟨u, o, ho, id'⟩

theorem fill (h : Accounted cs f) (head : f.queue t = front :: rest) {w : World}
    (told : registry w.lookups front.sessionId = true) (fillQty fillPrice : Int) :
    Accounted cs ⟨Function.update f.queue t (fillFront front rest fillQty),
      (notifyFlags registry f.flags w (afterFill front fillQty) fillQty (front.qty - fillQty)
        fillPrice).1⟩ := by
  unfold notifyFlags World.lock fillFront
  simp only [afterFill, told, Bool.not_true, Bool.false_eq_true, if_false]
  by_cases zero : front.qty - fillQty = 0
  · simp only [if_pos zero]
    exact h.leave head
  · simp only [if_neg zero]
    exact h.reduce head fillQty

theorem updateBook (h : Accounted cs f) (w : World)
    (connected : ∀ n, ∀ o ∈ bookedBy cs, registry n o.sessionId = true) :
    Accounted cs (f.updateBook registry w).1 := by
  have there : ∀ {g : FlagBook} {t : OrderType} {o : Order}, Accounted cs g → o ∈ g.queue t →
      ∀ n, registry n o.sessionId = true := by
    intro g t o hg ho n
    obtain ⟨a, ha, _, session⟩ := hg.booked t o ho
    rw [← session]
    exact connected n a ha
  apply updateBook_rule registry (fun g _ => Accounted cs g)
  · exact fun g v t front rest hg head => hg.leave head
  · intro g v bo bids ao asks hg buy sell _
    have bid := hg.fill (w := v.record (.trade bo ao (min bo.qty ao.qty) ao.priceLevel)) buy
      (there hg (t := .buy) (by rw [buy]; simp) _) (min bo.qty ao.qty) ao.priceLevel
    rw [update_buy] at bid
    have ask := fun w' => bid.fill (w := w') (t := .sell)
      (by rw [← sell]; rfl) (there hg (t := .sell) (by rw [sell]; simp) _) (min bo.qty ao.qty)
      ao.priceLevel
    simp only [update_sell] at ask
    exact ask _
  · exact h

theorem send (h : Accounted cs f) {c : Call} {o : Order} (booked : c.booked = some o)
    (fresh : o.orderId ∉ ids (bookedBy cs)) : Accounted (cs ++ [c]) (f.sendOrder o) := by
  have grown : bookedBy (cs ++ [c]) = bookedBy cs ++ [o] := by simp [bookedBy, booked]
  have new : ∀ t, ∀ x ∈ f.queue t, x.orderId ≠ o.orderId := by
    intro t x hx same
    obtain ⟨a, ha, id, _⟩ := h.booked t x hx
    apply fresh
    rw [← same, ← id]
    exact List.mem_map_of_mem ha
  constructor
  · exact distinct_sendOrder h.distinct new
  · intro t x hx
    rw [grown]
    rcases mem_sendOrder.mp hx with ⟨rfl, _⟩ | old
    · exact ⟨x, by simp, rfl, rfl⟩
    · obtain ⟨a, ha, same⟩ := h.booked t x old
      exact ⟨a, List.mem_append_left _ ha, same⟩
  · intro t x hx
    rcases mem_sendOrder.mp hx with ⟨rfl, _⟩ | old
    · simp [FlagBook.sendOrder]
    · simp only [FlagBook.sendOrder, Function.update_of_ne (new t x old)]
      exact h.flagged t x old
  · intro key known
    by_cases mine : key = o.orderId
    · exact ⟨o.orderType, o, mem_sendOrder.mpr (Or.inl ⟨rfl, rfl⟩), mine.symm⟩
    · simp only [FlagBook.sendOrder, Function.update_of_ne mine] at known
      obtain ⟨t, x, hx, id⟩ := h.owned key known
      exact ⟨t, x, mem_sendOrder.mpr (Or.inr hx), id⟩

theorem kill (h : Accounted cs f) (w : World) (order : Order) :
    Accounted cs (f.killOrder registry w order).1 := by
  rw [Reads.killOrder_fst]
  constructor
  · exact h.distinct
  · exact h.booked
  · exact fun t o ho nothing => h.flagged t o ho (markKilled_none_iff.mp nothing)
  · exact fun key known => h.owned key fun nothing => known (markKilled_none_iff.mpr nothing)

theorem unbooked (h : Accounted cs f) {c : Call} (nothing : c.booked = none) :
    Accounted (cs ++ [c]) f := by
  have same : bookedBy (cs ++ [c]) = bookedBy cs := by simp [bookedBy, nothing]
  constructor
  · exact h.distinct
  · rw [same]
    exact h.booked
  · exact h.flagged
  · exact h.owned

theorem call (h : Accounted cs f) (w : World) (c : Call)
    (unique : (ids (bookedBy (cs ++ [c]))).Nodup)
    (connected : ∀ n, ∀ o ∈ bookedBy cs, registry n o.sessionId = true) :
    Accounted (cs ++ [c]) (f.call registry w c) := by
  have fresh : ∀ o, c.booked = some o → o.orderId ∉ ids (bookedBy cs) := by
    intro o booked old
    rw [show bookedBy (cs ++ [c]) = bookedBy cs ++ [o] by simp [bookedBy, booked], ids,
      List.map_append] at unique
    exact (List.nodup_append.mp unique).2.2 _ old _ (by simp) rfl
  cases c with
  | sendOrder order => exact h.send rfl (fresh order rfl)
  | killOrder order => exact (h.kill w order).unbooked rfl
  | modifyOrder order =>
    have killed : Accounted cs (f.killOrder registry w order).1 := h.kill w order
    exact killed.send (c := .modifyOrder order) rfl (fresh { order with delId := 0 } rfl)
  | updateBook => exact (h.updateBook w connected).unbooked rfl
  | createSnapshot => exact h.unbooked rfl

end Accounted

theorem calls_accounted (registry : Registry) {w₀ : World} {cs : List Call}
    (unique : (ids (bookedBy cs)).Nodup) (assigned : ∀ id ∈ ids (bookedBy cs), 1 ≤ id)
    (connected : ∀ n, ∀ o ∈ bookedBy cs, registry n o.sessionId = true) {b : OrderBook}
    {w : World} (run : OrderBook.calls registry {} w₀ cs = .ok (b, w)) :
    ∃ f, Tracks b f ∧ Accounted cs f := by
  have ordinary : ∀ c ∈ cs, ∀ o ∈ c.booked, Ordinary o.orderId := by
    intro c hc o booked
    apply ordinary_of_nonneg
    have := assigned o.orderId (List.mem_map_of_mem (List.mem_filterMap.mpr ⟨c, hc, booked⟩))
    omega
  obtain ⟨f, tracks, accounted⟩ := calls_rule registry
    (P := fun done f => (ids (bookedBy done)).Nodup →
      (∀ n, ∀ o ∈ bookedBy done, registry n o.sessionId = true) → Accounted done f)
    (fun done f v c before unique connected => by
      have present : bookedBy (done ++ [c]) = bookedBy done ++ bookedBy [c] := List.filterMap_append
      rw [present] at connected
      have first := unique
      rw [present, ids, List.map_append] at first
      have old : ∀ n, ∀ o ∈ bookedBy done, registry n o.sessionId = true := by
        intro n o ho
        exact connected n o (List.mem_append_left _ ho)
      exact (before (List.nodup_append.mp first).1 old).call v c unique old)
    ordinary [] tracks_new (fun _ _ => accounted_new) run
  exact ⟨f, tracks, accounted unique connected⟩

/-- The probe for a key passes only other keys before an empty slot ends it. -/
def KillFlagTable.EmptyFirst (t : KillFlagTable) (key : Int) : Prop :=
  ∃ d < t.slots.size, (t.slots.get (slot t.slots.size (hashKey key) d)).key = emptyKey ∧
    ∀ e < d, (t.slots.get (slot t.slots.size (hashKey key) e)).key ≠ key

section Markers
variable {t : KillFlagTable}

theorem find_stop (inv : TableInv t) (key : Int) : ∃ d < t.slots.size,
    ((t.slots.get (slot t.slots.size (hashKey key) d)).key = key ∨
      (t.slots.get (slot t.slots.size (hashKey key) d)).key = emptyKey) ∧
    (∀ e < d, (t.slots.get (slot t.slots.size (hashKey key) e)).key ≠ key ∧
      (t.slots.get (slot t.slots.size (hashKey key) e)).key ≠ emptyKey) ∧
    t.find key = .ok (if (t.slots.get (slot t.slots.size (hashKey key) d)).key = key then
      some (slot t.slots.size (hashKey key) d) else none) := by
  obtain ⟨d, hd, stops, before⟩ := inv.stop key
  have run := findFrom_eq inv stops t.slots.size 0 (Nat.zero_le _) (by omega)
    (fun c _ high => before c high)
  rw [← inv.home] at run
  exact ⟨d, hd, stops, before, run⟩

theorem find_emptyKey (inv : TableInv t) : t.find emptyKey ≠ .ok none := by
  obtain ⟨d, _, stops, _, run⟩ := find_stop inv emptyKey
  rw [run, if_pos (stops.elim id id)]
  simp

theorem find_none_iff (inv : TableInv t) {key : Int} (other : key ≠ emptyKey) :
    t.find key = .ok none ↔ t.EmptyFirst key := by
  obtain ⟨d, hd, stops, before, run⟩ := find_stop inv key
  rw [run]
  constructor
  · intro nothing
    split at nothing
    · cases nothing
    · rename_i notHere
      exact ⟨d, hd, stops.resolve_left notHere, fun e he => (before e he).1⟩
  · rintro ⟨d', _, empty, passed⟩
    split
    · rename_i here
      rcases Nat.lt_trichotomy d d' with less | same | more
      · exact absurd here (passed d less)
      · subst same
        exact absurd (here.symm.trans empty) other
      · exact absurd empty (before d' more).2
    · rfl

end Markers

/-- The answer to a KILL is true: an error when no order with its target rests, else the
    order's flag, and no slot of the table but that order's. -/
structure Truthful (registry : Registry) (b : OrderBook) (w : World) (order : Order)
    (b' : OrderBook) (w' : World) : Prop where
  missing : (∀ t, ∀ o ∈ b.resting t, o.orderId ≠ order.delId) →
    b' = b ∧ w' = w.writeIfLocked registry order.sessionId (.error invalidOrderId)
  resting : (∃ t, ∃ o ∈ b.resting t, o.orderId = order.delId) → w' = w ∧
    (∃ kf < b.killedOrders.slots.size, (b.killedOrders.slots.get kf).key = order.delId ∧
      b' = { b with killedOrders := { b.killedOrders with
        slots := b.killedOrders.slots.set kf ⟨order.delId, true⟩ } }) ∧
    ∀ t, ∀ o ∈ b.resting t, b'.killedOrders.isKilled o.orderId =
      if o.orderId = order.delId then .ok true else b.killedOrders.isKilled o.orderId

section Answer
variable {cs : List Call} {b : OrderBook} {f : FlagBook}

theorem resting_flags (tracks : Tracks b f) :
    (∀ t, b.resting t = f.queue t) ∧ TableRep b.killedOrders f.flags := by
  obtain ⟨q, rep, reads⟩ := tracks
  constructor
  · intro t
    rw [resting_eq rep, reads.queue]
  · rw [rep.killed]
    exact reads.rep

theorem Accounted.rests_iff (h : Accounted cs f) (tracks : Tracks b f) (id : Int) :
    (∃ t, ∃ o ∈ b.resting t, o.orderId = id) ↔ f.flags id ≠ none := by
  obtain ⟨queues, _⟩ := resting_flags tracks
  simp only [queues]
  constructor
  · rintro ⟨t, o, ho, rfl⟩
    exact h.flagged t o ho
  · exact h.owned id

/-- A KILL is answered truly unless its target is a slot marker that some slot carries. -/
theorem truthful_iff (registry : Registry) (h : Accounted cs f) (tracks : Tracks b f) (w : World)
    (order : Order) :
    ∃ b' w', b.killOrder registry w order = .ok (b', w') ∧
      (Truthful registry b w order b' w' ↔
        (Ordinary order.delId ∨ b.killedOrders.find order.delId = .ok none)) := by
  obtain ⟨queues, rep⟩ := resting_flags tracks
  have rests := h.rests_iff tracks order.delId
  obtain ⟨found, looked, here, _⟩ := find_ok rep.inv order.delId
  unfold OrderBook.killOrder
  rw [looked, ok_bind]
  cases found with
  | none =>
    refine ⟨b, _, rfl, iff_of_true ?_ (Or.inr rfl)⟩
    have nothing := find_none rep looked
    constructor
    · exact fun _ => ⟨rfl, rfl⟩
    · exact fun present => absurd nothing (rests.mp present)
  | some kf =>
    obtain ⟨small, key⟩ := here kf rfl
    obtain ⟨kt, assigned, rep'⟩ := assign_ok rep small true
    have written := assign_eq small true
    rw [assigned, key] at written
    simp only [assigned, ok_bind]
    refine ⟨_, w, rfl, ?_⟩
    by_cases ordinary : Ordinary order.delId
    · apply iff_of_true _ (Or.inl ordinary)
      have flag : f.flags order.delId ≠ none := by
        rw [rep.flag_of_slot small ordinary key]
        simp
      rw [key, if_pos ordinary] at rep'
      constructor
      · intro missing
        obtain ⟨t, o, ho, same⟩ := rests.mpr flag
        exact absurd same (missing t o ho)
      · refine fun _ => ⟨rfl, ⟨kf, small, key, by rw [Except.ok.inj written]⟩, ?_⟩
        intro t o ho
        have known : Ordinary o.orderId := by
          by_contra marker
          exact (h.rests_iff tracks o.orderId).mp ⟨t, o, ho, rfl⟩ (rep.marker marker)
        rw [isKilled_ok rep' known, isKilled_ok rep known]
        by_cases same : o.orderId = order.delId
        · rw [if_pos same, same, Function.update_self, Option.getD_some]
        · rw [if_neg same, Function.update_of_ne same]
    · apply iff_of_false
      · intro truthful
        have nothing := rep.marker ordinary
        have answered := (truthful.missing fun t o ho same =>
          rests.mp ⟨t, o, ho, same⟩ nothing).2
        have lookups := congrArg World.lookups answered
        rw [writeIfLocked_lookups] at lookups
        omega
      · rintro (other | nothing)
        · exact ordinary other
        · cases nothing

end Answer
/-- The bytes DECODE_KILL_ORDER reads the target from. -/
def killIdBytes (message : List UInt8) : List UInt8 := field message (symbolBytes + 1) idBytes

theorem decodeKillOrder_ok {message : List UInt8}
    (whole : widths.symbol + widths.id < message.length) :
    ∃ order, decodeKillOrder widths message = .ok order ∧
      order.delId = signedValue (killIdBytes message) := by
  have symbol := (readSymbol_iff message widths.symbol 1 (field message 1 widths.symbol)).mpr
    ⟨length_field (by omega), rfl⟩
  have target : byteConversion message (widths.symbol + 1) (widths.symbol + widths.id) =
      .ok (signedValue (killIdBytes message)) := byteConversion_ok (by decide) (by decide)
    (show widths.symbol + 1 + widths.id ≤ message.length by omega)
  unfold decodeKillOrder
  rw [symbol, ok_bind, target, ok_bind]
  exact ⟨_, rfl, rfl⟩

/-- The bytes of a number are the only ones that decode to it. -/
theorem signedValue_inj {a b : List UInt8} (la : a.length = 4) (lb : b.length = 4) :
    signedValue a = signedValue b ↔ a = b := by
  constructor
  · intro same
    apply value_inj (la.trans lb.symm)
    have high := value_lt a
    have high' := value_lt b
    have words := BitVec.eq_of_toInt_eq same
    have numbers := congrArg BitVec.toNat words
    rw [BitVec.toNat_ofNat, BitVec.toNat_ofNat] at numbers
    rw [la] at high
    rw [lb] at high'
    omega
  · intro same
    rw [same]

/-- With the ids of `assign_order_id` and all their sessions there, a KILL is answered truly
    exactly when its id bytes are not those of -1, nor those of -2 while a tombstone comes
    before the first empty slot on the way of -2. -/
theorem kill_truthful (registry : Registry) (w₀ : World) (cs : List Call)
    (unique : (ids (bookedBy cs)).Nodup) (assigned : ∀ id ∈ ids (bookedBy cs), 1 ≤ id)
    (connected : ∀ n, ∀ o ∈ bookedBy cs, registry n o.sessionId = true) {b : OrderBook}
    {w : World} (run : OrderBook.calls registry {} w₀ cs = .ok (b, w)) (message : List UInt8)
    (whole : widths.symbol + widths.id < message.length) :
    ∃ order, decodeKillOrder widths message = .ok order ∧ ∀ orderId sessionId, ∃ b' w',
      b.killOrder registry w { order with orderId, sessionId } = .ok (b', w') ∧
      (Truthful registry b w { order with orderId, sessionId } b' w' ↔
        killIdBytes message ≠ [255, 255, 255, 255] ∧
        (killIdBytes message = [255, 255, 255, 254] →
          b.killedOrders.EmptyFirst tombstoneKey)) := by
  obtain ⟨f, tracks, accounted⟩ := calls_accounted registry unique assigned connected run
  obtain ⟨order, decoded, target⟩ := decodeKillOrder_ok whole
  refine ⟨order, decoded, fun orderId sessionId => ?_⟩
  obtain ⟨b', w', ran, truthful⟩ := truthful_iff registry accounted tracks w
    { order with orderId, sessionId }
  refine ⟨b', w', ran, truthful.trans ?_⟩
  have inv := (resting_flags tracks).2.inv
  have four : (killIdBytes message).length = 4 :=
    length_field (show widths.symbol + 1 + widths.id ≤ message.length by omega)
  have empty : order.delId = emptyKey ↔ killIdBytes message = [255, 255, 255, 255] := by
    rw [target, ← signedValue_inj four rfl]
    exact Iff.rfl
  have tombstone : order.delId = tombstoneKey ↔ killIdBytes message = [255, 255, 255, 254] := by
    rw [target, ← signedValue_inj four rfl]
    exact Iff.rfl
  rw [← tombstone, ne_eq, ← empty]
  simp only
  by_cases isEmpty : order.delId = emptyKey
  · have found := find_emptyKey inv
    simp [isEmpty, Ordinary, found]
  · by_cases isTombstone : order.delId = tombstoneKey
    · rw [find_none_iff inv isEmpty]
      simp [isTombstone, Ordinary, tombstoneKey, emptyKey]
    · simp [Ordinary, isEmpty, isTombstone]

def oneOrder : List Call :=
  [.sendOrder { orderId := 1, priceLevel := 10, qty := 5, orderType := .buy, sessionId := 3 }]

def killOne : List UInt8 := [88, 65, 65, 65, 65, 0, 0, 0, 1]

theorem kill_truthful_killOne : ∃ b w,
    OrderBook.calls (fun _ _ => true) {} {} oneOrder = .ok (b, w) ∧
    ∃ order, decodeKillOrder widths killOne = .ok order ∧ ∀ orderId sessionId, ∃ b' w',
      b.killOrder (fun _ _ => true) w { order with orderId, sessionId } = .ok (b', w') ∧
      (Truthful (fun _ _ => true) b w { order with orderId, sessionId } b' w' ↔
        killIdBytes killOne ≠ [255, 255, 255, 255] ∧
        (killIdBytes killOne = [255, 255, 255, 254] →
          b.killedOrders.EmptyFirst tombstoneKey)) := by
  obtain ⟨⟨b, w⟩, run⟩ := exists_ok (x := OrderBook.calls (fun _ _ => true) {} {} oneOrder)
    (by decide +kernel)
  exact ⟨b, w, run, kill_truthful (fun _ _ => true) {} oneOrder (by decide) (by decide)
    (fun _ _ _ => rfl) run killOne (by decide)⟩

def killEmptyKey : List UInt8 := [88, 65, 65, 65, 65, 255, 255, 255, 255]

/-- On a new book it flags an empty slot and nobody hears of an error. -/
theorem kill_truthful_fails : OrderBook.calls (fun _ _ => true) {} {} [] = .ok ({}, {}) ∧
    ∃ order b' w', decodeKillOrder widths killEmptyKey = .ok order ∧
      OrderBook.killOrder (fun _ _ => true) {} {} order = .ok (b', w') ∧
      (∀ t, OrderBook.resting {} t = []) ∧ w'.log = [] ∧
      ¬ Truthful (fun _ _ => true) {} {} order b' w' := by
  refine ⟨rfl, ?_⟩
  have whole : widths.symbol + widths.id < killEmptyKey.length := by decide
  obtain ⟨order, decoded, target⟩ := decodeKillOrder_ok whole
  have marker : order.delId = emptyKey := by
    rw [target]
    decide
  obtain ⟨b', w', ran, truthful⟩ := truthful_iff (fun _ _ => true) accounted_new
    tracks_new {} order
  obtain ⟨queues, rep⟩ := resting_flags tracks_new
  have found := find_emptyKey rep.inv
  rw [← marker] at found
  refine ⟨order, b', w', decoded, ran, queues, ?_, fun truth => ?_⟩
  · rcases killOrder_answers ran with ⟨nothing, _⟩ | ⟨_, same⟩
    · exact absurd nothing found
    · rw [same]
  · rcases truthful.mp truth with ordinary | nothing
    · exact ordinary.1 marker
    · exact found nothing

end MarketBookExchange
