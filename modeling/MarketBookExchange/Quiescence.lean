import MarketBookExchange.QuietBook
import MarketBookExchange.RepresentationInvariant

/- Any mix of public calls leaves a book that one `UPDATE_BOOK` settles: it ends, the best
   fronts live and do not cross, and a second call finds nothing to do. -/
namespace MarketBookExchange
open Outcome KillFlagTable

/-- The order a call leaves in the book. -/
def Call.booked : Call → Option Order
  | .sendOrder order => some order
  | .modifyOrder order => some { order with delId := 0 }
  | .killOrder _ => none
  | .updateBook => none
  | .createSnapshot => none

namespace FlagBook

def call (registry : Registry) (f : FlagBook) (w : World) : Call → FlagBook
  | .sendOrder order => f.sendOrder order
  | .killOrder order => (f.killOrder registry w order).1
  | .modifyOrder order => (f.modifyOrder registry w order).1
  | .updateBook => (f.updateBook registry w).1
  | .createSnapshot => f

end FlagBook

section Calls
variable (registry : Registry) {b : OrderBook} {f : FlagBook}

theorem killOrder_tracks (h : Tracks b f) (w : World) (order : Order) :
    Ends Fault.isLimit (fun r => Tracks r.1 (f.killOrder registry w order).1)
      (b.killOrder registry w order) := by
  obtain ⟨q, rep, reads⟩ := h
  obtain ⟨r, run, reads', _⟩ := reads.killOrder registry w order
  apply ends_mono (tracks_ends (killOrder_simulates registry rep w order) (p := fun x => x = r)
    (by rw [run]; rfl))
  intro r' related
  obtain ⟨_, rfl, rep', _⟩ := related
  exact ⟨_, rep', reads'⟩

theorem call_tracks (h : Tracks b f) (w : World) (c : Call)
    (ordinary : ∀ o ∈ c.booked, Ordinary o.orderId) :
    Ends Fault.isLimit (fun r => Tracks r.1 (f.call registry w c)) (b.call registry w c) := by
  cases c with
  | sendOrder order =>
    apply ends_bind (sendOrder_tracks h order (ordinary order rfl))
    exact fun _ h' => h'
  | killOrder order => exact killOrder_tracks registry h w order
  | modifyOrder order =>
    apply ends_bind (killOrder_tracks registry h w order)
    intro r h'
    apply ends_bind (sendOrder_tracks h' _ (ordinary _ rfl))
    exact fun _ h'' => h''
  | updateBook => exact ends_mono (updateBook_tracks registry h w) fun _ h' => h'.1
  | createSnapshot =>
    simp only [OrderBook.call, createSnapshot_tracks h, ok_bind]
    exact h

theorem calls_rule {P : List Call → FlagBook → Prop}
    (keeps : ∀ done f w c, P done f → P (done ++ [c]) (f.call registry w c)) {cs : List Call}
    (ordinary : ∀ c ∈ cs, ∀ o ∈ c.booked, Ordinary o.orderId) (done : List Call)
    {b b' : OrderBook} {w w' : World} {f : FlagBook} (tracks : Tracks b f) (start : P done f)
    (run : b.calls registry w cs = .ok (b', w')) : ∃ f', Tracks b' f' ∧ P (done ++ cs) f' := by
  induction cs generalizing b w f done with
  | nil =>
    cases run
    rw [List.append_nil]
    exact ⟨f, tracks, start⟩
  | cons c cs ih =>
    rw [OrderBook.calls, List.foldlM_cons] at run
    obtain ⟨⟨b₁, w₁⟩, first, rest⟩ := bind_ok run
    have next := ends_ok (call_tracks registry tracks w c (ordinary c (by simp))) first
    have later := ih (fun c hc => ordinary c (by simp [hc])) _ next (keeps done f w c start) rest
    rwa [List.append_assoc] at later

end Calls

/-- A book nothing is left to do for, as its bitmaps, its levels and its kill table show it. -/
structure OrderBook.Quiescent (b : OrderBook) : Prop where
  alive : ∀ t slot, (b.side t).best (bestIsHigh t) = .ok (some slot) →
    ∃ front, levelFront ((b.side t).levels slot) b.pool = .ok front ∧
      b.killedOrders.isKilled front.orderId = .ok false
  apart : (∀ slot, ¬ b.bids.bitmap.Has slot) ∨ (∀ slot, ¬ b.asks.bitmap.Has slot) ∨
    ∃ bidx aidx bo ao, b.bids.best true = .ok (some bidx) ∧ b.asks.best false = .ok (some aidx) ∧
      levelFront (b.bids.levels bidx) b.pool = .ok bo ∧
      levelFront (b.asks.levels aidx) b.pool = .ok ao ∧ bo.priceLevel < ao.priceLevel

section Quiescent
variable {b : OrderBook} {f : FlagBook}

theorem side_empty {q : QueueBook} (rep : Represents b q) {t : OrderType} (vacant : q.queue t = [])
    (slot : Nat) : ¬ (b.side t).bitmap.Has slot := by
  obtain ⟨_, _, _, holds⟩ := rep.rep
  rw [(holds t).has_iff, vacant]
  simp

theorem quiescent_of_quiet (tracks : Tracks b f) (quiet : f.Quiet) : b.Quiescent := by
  obtain ⟨q, rep, reads⟩ := tracks
  constructor
  · intro t slot best
    rw [rep.rep.best_ok t] at best
    cases queue : q.queue t with
    | nil =>
      rw [queue] at best
      cases best
    | cons o rest =>
      rw [queue] at best
      cases best
      have front := rep.rep.front_ok queue
      rw [reads.queue] at queue
      have lives := quiet.alive t o (by rw [queue]; rfl)
      have ordinary := reads.ordinary t o (by rw [queue]; simp)
      exact ⟨o, front, by rw [rep.killed, isKilled_ok reads.rep ordinary, lives]⟩
  · cases buy : q.queue .buy with
    | nil => exact Or.inl (side_empty rep buy)
    | cons bo bids =>
      cases sell : q.queue .sell with
      | nil => exact Or.inr (Or.inl (side_empty rep sell))
      | cons ao asks =>
        have bid := rep.rep.best_ok .buy
        have ask := rep.rep.best_ok .sell
        have frontB := rep.rep.front_ok buy
        have frontA := rep.rep.front_ok sell
        rw [buy] at bid
        rw [sell] at ask
        rw [reads.queue] at buy sell
        have apart := quiet.apart bo ao (by rw [buy]; rfl) (by rw [sell]; rfl)
        exact Or.inr (Or.inr ⟨_, _, bo, ao, bid, ask, frontB, frontA, apart⟩)

end Quiescent

/-- After any calls `UPDATE_BOOK` ends, quiescent, and repeated it does nothing. What it takes
    for killed is what the kill table holds as killed. The ids are those of `assign_order_id`,
    which gives no slot marker. -/
theorem updateBook_settles (registry : Registry) (w₀ : World) (cs : List Call)
    (ordinary : ∀ c ∈ cs, ∀ o ∈ c.booked, Ordinary o.orderId) {b : OrderBook} {w : World}
    (run : OrderBook.calls registry {} w₀ cs = .ok (b, w)) :
    ∃ b' w', b.updateBook registry w = .ok (b', w') ∧ b'.Quiescent ∧ b'.KilledInTable ∧
      ∀ later, b'.updateBook later w' = .ok (b', w') := by
  obtain ⟨f, tracks, _⟩ := calls_rule registry (P := fun _ _ => True) (fun _ _ _ _ _ => trivial)
    ordinary [] tracks_new trivial run
  obtain ⟨b', ran, tracks'⟩ := updateBook_ends registry tracks w
  have quiet := updateBook_quiet registry f w
  exact ⟨b', _, ran, quiescent_of_quiet tracks' quiet, tracks'.killedInTable,
    fun later => updateBook_same later tracks' quiet _⟩

def unsettled : List Call :=
  [.sendOrder { orderId := 1, priceLevel := 12, qty := 5, orderType := .buy },
    .sendOrder { orderId := 2, priceLevel := 11, qty := 5, orderType := .buy },
    .sendOrder { orderId := 3, priceLevel := 9, qty := 7, orderType := .sell },
    .killOrder { delId := 1, requestType := .killOrder }]

theorem updateBook_settles_unsettled : ∃ b w,
    OrderBook.calls (fun _ _ => true) {} {} unsettled = .ok (b, w) ∧
    ∃ b' w', b.updateBook (fun _ _ => true) w = .ok (b', w') ∧ b'.Quiescent ∧
      b'.KilledInTable ∧ ∀ later, b'.updateBook later w' = .ok (b', w') := by
  obtain ⟨⟨b, w⟩, run⟩ := exists_ok (x := OrderBook.calls (fun _ _ => true) {} {} unsettled)
    (by decide +kernel)
  exact ⟨b, w, run, updateBook_settles (fun _ _ => true) {} unsettled (by decide) run⟩

end MarketBookExchange
