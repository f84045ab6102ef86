import MarketBookExchange.MatchingRule
import MarketBookExchange.Server

/- An order as its owner hears of it: acknowledged, filled bit by bit, and ended by its last
   fill or by the confirmation of its kill. -/
namespace MarketBookExchange
open RankedList Outcome KillFlagTable

/-- What may follow an acknowledgement while `remaining` is left. -/
inductive Fills : Int → List Response → Prop
  | pending (remaining : Int) : Fills remaining []
  | partialFill {remaining : Int} {order : Order} {fillQty fillPrice : Int}
      {later : List Response} (left : 0 < remaining - fillQty)
      (rest : Fills (remaining - fillQty) later) :
      Fills remaining (.partialFill order fillQty (remaining - fillQty) fillPrice :: later)
  | fullFill (remaining : Int) (order : Order) (fillPrice : Int) :
      Fills remaining [.fullFill order remaining fillPrice]
  | killConfirm (order : Order) : Fills order.qty [.killConfirm order]

/-- The same as an automaton, which can also be followed message by message. -/
inductive Life where
  | live (remaining : Int)
  | ended
  | broken
  deriving DecidableEq

namespace Life

def next : Life → Response → Life
  | live remaining, .partialFill _ fillQty remainingQty _ =>
    if remainingQty = remaining - fillQty ∧ 0 < remainingQty then live remainingQty else broken
  | live remaining, .fullFill _ fillQty _ => if fillQty = remaining then ended else broken
  | live remaining, .killConfirm order => if order.qty = remaining then ended else broken
  | _, _ => broken

def follow (life : Life) (messages : List Response) : Life := messages.foldl next life

theorem follow_append (life : Life) (messages more : List Response) :
    life.follow (messages ++ more) = (life.follow messages).follow more := List.foldl_append

theorem follow_broken (messages : List Response) : broken.follow messages = broken := by
  induction messages with
  | nil => rfl
  | cons m messages ih => exact ih

theorem fine_prefix {life : Life} {messages more : List Response}
    (fine : life.follow (messages ++ more) ≠ broken) : life.follow messages ≠ broken := by
  intro wrong
  rw [follow_append, wrong, follow_broken] at fine
  exact fine rfl

theorem nothing_after {messages : List Response} (fine : ended.follow messages ≠ broken) :
    messages = [] := by
  cases messages with
  | nil => rfl
  | cons m messages => exact absurd (follow_broken messages) fine

theorem fills_of_follow (messages : List Response) : ∀ remaining : Int,
    (live remaining).follow messages ≠ broken → Fills remaining messages := by
  induction messages with
  | nil => exact fun remaining _ => .pending remaining
  | cons m messages ih =>
    intro remaining fine
    change ((live remaining).next m).follow messages ≠ broken at fine
    cases m with
    | ack order c => exact absurd (follow_broken messages) fine
    | error code => exact absurd (follow_broken messages) fine
    | partialFill order fillQty remainingQty fillPrice =>
      simp only [next] at fine
      split at fine
      · rename_i counted
        obtain ⟨rfl, left⟩ := counted
        exact .partialFill left (ih _ fine)
      · exact absurd (follow_broken messages) fine
    | fullFill order fillQty fillPrice =>
      simp only [next] at fine
      split at fine
      · rename_i all
        rw [all, nothing_after fine]
        exact .fullFill remaining order fillPrice
      · exact absurd (follow_broken messages) fine
    | killConfirm order =>
      simp only [next] at fine
      split at fine
      · rename_i all
        rw [← all, nothing_after fine]
        exact .killConfirm order
      · exact absurd (follow_broken messages) fine

end Life

def about (id : Int) (messages : List Response) : List Response :=
  messages.filter fun m => m.orderId? = some id

def sentTo (owner : Int) (messages : List (Int × Response)) : List Response :=
  messages.filterMap fun m => if m.1 = owner then some m.2 else none

def heard (owner id : Int) (es : List Event) : List Response :=
  about id (sentTo owner (messagesOf es))

section Heard
variable {owner id : Int}

theorem about_append (messages more : List Response) :
    about id (messages ++ more) = about id messages ++ about id more := List.filter_append _ _

theorem sentTo_append (messages more : List (Int × Response)) :
    sentTo owner (messages ++ more) = sentTo owner messages ++ sentTo owner more :=
  List.filterMap_append

theorem sentTo_cons (session : Int) (m : Response) (messages : List (Int × Response)) :
    sentTo owner ((session, m) :: messages) =
      (if owner = session then [m] else []) ++ sentTo owner messages := by
  unfold sentTo
  by_cases own : owner = session
  · simp [own]
  · simp [own, Ne.symm own]

theorem heard_append (es more : List Event) :
    heard owner id (es ++ more) = heard owner id es ++ heard owner id more := by
  unfold heard messagesOf
  rw [List.filterMap_append, sentTo_append, about_append]

theorem heard_written {told : Bool} {sessionId : Int} {m : Response}
    (connected : sessionId = owner → told = true) : heard owner id (written told sessionId m) =
      if sessionId = owner ∧ m.orderId? = some id then [m] else [] := by
  unfold written
  by_cases own : sessionId = owner
  · rw [connected own]
    by_cases same : m.orderId? = some id
    · simp [heard, messagesOf, sentTo, about, own, same]
    · simp [heard, messagesOf, sentTo, about, own, same]
  · cases told with
    | false => simp [heard, messagesOf, sentTo, about, own]
    | true => simp [heard, messagesOf, sentTo, about, own]

end Heard

/-- The owner's resting orders stand as their messages say, `life` being where each order
    stood before the events `es`. -/
structure Served (owner : Int) (life : Int → Life) (queue : OrderType → List Order)
    (es : List Event) : Prop where
  distinct : (ids (queue .buy) ++ ids (queue .sell)).Nodup
  positive : ∀ t, ∀ o ∈ queue t, 0 < o.qty
  follows : ∀ t, ∀ o ∈ queue t, o.sessionId = owner →
    (life o.orderId).follow (heard owner o.orderId es) = .live o.qty
  sound : ∀ id, life id ≠ .broken → (life id).follow (heard owner id es) ≠ .broken

section Served
variable {owner : Int} {life : Int → Life} {queue : OrderType → List Order} {es : List Event}

theorem Served.silent (h : Served owner life queue es) {more : List Event}
    (quiet : ∀ id, heard owner id more = []) : Served owner life queue (es ++ more) := by
  have same : ∀ id, heard owner id (es ++ more) = heard owner id es := by
    intro id
    rw [heard_append, quiet, List.append_nil]
  constructor
  · exact h.distinct
  · exact h.positive
  · intro t o ho mine
    rw [same]
    exact h.follows t o ho mine
  · intro id start
    rw [same]
    exact h.sound id start

theorem Served.serve (h : Served owner life queue es) {t : OrderType} {front : Order}
    {rest : List Order} (head : queue t = front :: rest) {new : List Order}
    (sub : (ids new).Sublist (ids (front :: rest))) {m : Response} {more : List Event}
    (told : ∀ id, heard owner id more =
      if front.sessionId = owner ∧ front.orderId = id then [m] else [])
    (kept : ∀ o ∈ new, o ∈ rest ∨ o.orderId = front.orderId ∧ o.sessionId = front.sessionId ∧
      0 < o.qty ∧ (Life.live front.qty).next m = .live o.qty)
    (fine : (Life.live front.qty).next m ≠ .broken) :
    Served owner life (Function.update queue t new) (es ++ more) := by
  have alone := front_alone h.distinct head
  have member : front ∈ queue t := by rw [head]; simp
  have other : ∀ id, front.orderId ≠ id → heard owner id (es ++ more) = heard owner id es := by
    intro id ne
    rw [heard_append, told, if_neg fun both => ne both.2, List.append_nil]
  have own : front.sessionId = owner →
      (life front.orderId).follow (heard owner front.orderId (es ++ more)) =
        (Life.live front.qty).next m := by
    intro own
    rw [heard_append, told, if_pos ⟨own, rfl⟩, Life.follow_append, h.follows t front member own]
    rfl
  have old : ∀ u o, o ∈ Function.update queue t new u →
      (o ∈ queue u ∧ o.orderId ≠ front.orderId) ∨ o ∈ new ∧ o ∉ rest := by
    intro u o ho
    by_cases side : u = t
    · subst side
      rw [Function.update_self] at ho
      by_cases behind : o ∈ rest
      · refine Or.inl ⟨by rw [head]; exact List.mem_cons_of_mem _ behind, alone u o ?_⟩
        rwa [Function.update_self]
      · exact Or.inr ⟨ho, behind⟩
    · rw [Function.update_of_ne side] at ho
      refine Or.inl ⟨ho, alone u o ?_⟩
      rwa [Function.update_of_ne side]
  constructor
  · refine h.distinct.sublist ?_
    cases t with
    | buy =>
      rw [Function.update_self, Function.update_of_ne (by simp), head]
      exact sub.append (List.Sublist.refl _)
    | sell =>
      rw [Function.update_self, Function.update_of_ne (by simp), head]
      exact (List.Sublist.refl _).append sub
  · intro u o ho
    rcases old u o ho with ⟨before, _⟩ | ⟨inNew, notBehind⟩
    · exact h.positive u o before
    · exact ((kept o inNew).resolve_left notBehind).2.2.1
  · intro u o ho mine
    rcases old u o ho with ⟨before, ne⟩ | ⟨inNew, notBehind⟩
    · rw [other _ ne.symm]
      exact h.follows u o before mine
    · obtain ⟨same, session, _, step⟩ := (kept o inNew).resolve_left notBehind
      rw [same, own (session.symm.trans mine), step]
  · intro id start
    by_cases same : front.orderId = id
    · subst same
      by_cases mine : front.sessionId = owner
      · rw [own mine]
        exact fine
      · rw [heard_append, told, if_neg fun both => mine both.1, List.append_nil]
        exact h.sound _ start
    · rw [other id same]
      exact h.sound id start

theorem Served.fill (h : Served owner life queue es) {t : OrderType} {front : Order}
    {rest : List Order} (head : queue t = front :: rest) {fillQty : Int}
    (enough : fillQty ≤ front.qty) (fillPrice : Int) (told : Bool)
    (connected : front.sessionId = owner → told = true) :
    Served owner life (Function.update queue t (fillFront front rest fillQty))
      (es ++ written told front.sessionId
        (fillNotice (afterFill front fillQty) fillQty (front.qty - fillQty) fillPrice)) := by
  have step : front.qty - fillQty ≠ 0 → (Life.live front.qty).next
      (fillNotice (afterFill front fillQty) fillQty (front.qty - fillQty) fillPrice) =
        .live (front.qty - fillQty) := by
    intro left
    rw [fillNotice, if_neg left]
    exact if_pos ⟨rfl, by omega⟩
  refine h.serve head ?_ (m := fillNotice (afterFill front fillQty) fillQty
    (front.qty - fillQty) fillPrice) ?_ ?_ ?_
  · rw [ids_fillFront front rest fillQty]
    exact List.sublist_append_right _ _
  · intro id
    rw [heard_written connected, fillNotice_orderId]
    simp only [afterFill, Option.some.injEq]
  · intro o ho
    rcases mem_fillFront ho with behind | ⟨rfl, left⟩
    · exact Or.inl behind
    · simp only [afterFill] at left
      refine Or.inr ⟨rfl, rfl, ?_, step left⟩
      simp only [afterFill]
      omega
  · by_cases left : front.qty - fillQty = 0
    · rw [fillNotice, if_pos left, Life.next, if_pos (by omega)]
      simp
    · rw [step left]
      simp

theorem served_updateBook {registry : Registry} (connected : ∀ n, registry n owner = true)
    (f : FlagBook) (w : World) (h : Served owner life f.queue []) :
    ∃ es, (f.updateBook registry w).2.log = w.log ++ es ∧
      Served owner life (f.updateBook registry w).1.queue es := by
  have start : ∃ es, w.log = w.log ++ es ∧ Served owner life f.queue es := ⟨[], by simp, h⟩
  refine updateBook_rule registry (fun g v => ∃ es, v.log = w.log ++ es ∧
    Served owner life g.queue es) ?_ ?_ f w start
  · rintro g v t front rest ⟨es, logs, served⟩ queue
    refine ⟨es ++ evictEvents registry v front, by rw [evict_log, logs, List.append_assoc], ?_⟩
    refine served.serve queue ?_ (m := .killConfirm front) ?_ ?_ ?_
    · exact List.sublist_cons_self _ _
    · intro id
      rw [evictEvents, heard_append, heard_written fun own => by rw [own, connected]]
      simp [heard, messagesOf, sentTo, about, Response.orderId?]
    · exact fun o ho => Or.inl ho
    · simp [Life.next]
  · rintro g v bo bids ao asks ⟨es, logs, served⟩ buy sell _
    refine ⟨es ++ tradeEvents registry v bo ao, by rw [tradeFronts_log, logs, List.append_assoc], ?_⟩
    have traded : Served owner life g.queue
        (es ++ [.trade bo ao (min bo.qty ao.qty) ao.priceLevel]) := served.silent fun _ => rfl
    have bid := traded.fill buy (min_le_left bo.qty ao.qty) ao.priceLevel
      (registry v.lookups bo.sessionId) fun own => by rw [own, connected]
    rw [update_buy] at bid
    have ask := bid.fill (t := .sell) sell (min_le_right bo.qty ao.qty) ao.priceLevel
      (registry (v.lookups + 1) ao.sessionId) fun own => by rw [own, connected]
    rw [update_sell, bySide_buy, List.append_assoc, List.append_assoc] at ask
    exact ask

end Served
end MarketBookExchange
