import MarketBookExchange.MatchingRule
import MarketBookExchange.Server

/- A book between two calls of `process_one`, and what such a call does to it. -/
namespace MarketBookExchange
open RankedList Outcome KillFlagTable

/-- The book after the requests `reqs`, with every queue and flag it holds. -/
structure AtRest (reqs : List Order) (b : OrderBook) (f : FlagBook) : Prop where
  tracks : Tracks b f
  sound : Sound reqs f
  quiet : f.Quiet
  unique : (ids (accepted reqs)).Nodup
  positive : ∀ t, ∀ o ∈ f.queue t, 0 < o.qty

theorem atRest_new : AtRest [] {} {} := by
  constructor
  · exact tracks_new
  · exact sound_new
  · exact quiet_new
  · simp [ids, accepted]
  · intro _ _ h
    cases h

/-- The kill target of KILL and MODIFY that the book has no entry for. -/
def OrderBook.Missing (b : OrderBook) (order : Order) : Prop :=
  order.requestType ≠ .sendOrder ∧ b.killedOrders.find order.delId = .ok none

section Process
variable {registry : Registry} {reqs : List Order} {b b' : OrderBook} {f : FlagBook}
  {w w' : World} {order : Order}

theorem killOrder_answers (ran : b.killOrder registry w order = .ok (b', w')) :
    (b.killedOrders.find order.delId = .ok none ∧ b' = b ∧
      w' = w.writeIfLocked registry order.sessionId (.error invalidOrderId)) ∨
    b.killedOrders.find order.delId ≠ .ok none ∧ w' = w := by
  unfold OrderBook.killOrder at ran
  obtain ⟨found, looked, ran⟩ := bind_ok ran
  cases found with
  | none =>
    cases ran
    exact Or.inl ⟨looked, rfl, rfl⟩
  | some kf =>
    obtain ⟨kt, _, ran⟩ := bind_ok ran
    cases ran
    exact Or.inr ⟨by rw [looked]; simp, rfl⟩

theorem dispatch_answers (ran : b.dispatch registry w order = .ok (b', w')) :
    (b.Missing order ∧ w' = w.writeIfLocked registry order.sessionId (.error invalidOrderId)) ∨
    ¬ b.Missing order ∧ w' = w := by
  unfold OrderBook.dispatch at ran
  cases kind : order.requestType with
  | sendOrder =>
    rw [kind] at ran
    obtain ⟨b₁, _, ran⟩ := bind_ok ran
    cases ran
    exact Or.inr ⟨fun missing => missing.1 kind, rfl⟩
  | modifyOrder =>
    rw [kind] at ran
    unfold OrderBook.modifyOrder at ran
    obtain ⟨⟨b₁, w₁⟩, killed, ran⟩ := bind_ok ran
    obtain ⟨b₂, _, ran⟩ := bind_ok ran
    cases ran
    rcases killOrder_answers killed with ⟨missing, _, told⟩ | ⟨found, quiet⟩
    · exact Or.inl ⟨⟨by rw [kind]; simp, missing⟩, told⟩
    · exact Or.inr ⟨fun missing => found missing.2, quiet⟩
  | killOrder =>
    rw [kind] at ran
    rcases killOrder_answers ran with ⟨missing, _, told⟩ | ⟨found, quiet⟩
    · exact Or.inl ⟨⟨by rw [kind]; simp, missing⟩, told⟩
    · exact Or.inr ⟨fun missing => found missing.2, quiet⟩

theorem entry_positive (checked : rejection order = none) {o : Order}
    (booked : entry order = some o) : 0 < o.qty := by
  unfold rejection at checked
  unfold entry at booked
  cases kind : order.requestType with
  | killOrder =>
    rw [kind] at booked
    cases booked
  | sendOrder =>
    rw [kind] at checked booked
    cases booked
    simp only [simpleReject] at checked
    split at checked
    · cases checked
    · split at checked
      · cases checked
      · omega
  | modifyOrder =>
    rw [kind] at checked booked
    cases booked
    simp only [simpleReject] at checked
    split at checked
    · cases checked
    · split at checked
      · cases checked
      · simp only
        omega

theorem dispatch_resting {t : OrderType} {o : Order}
    (ho : o ∈ (f.dispatch registry w order).1.queue t) :
    o ∈ f.queue t ∨ entry order = some o := by
  have sent : ∀ (g : FlagBook) (x : Order), g.queue = f.queue → entry order = some x →
      o ∈ (g.sendOrder x).queue t → o ∈ f.queue t ∨ entry order = some o := by
    intro g x same booked ho
    rcases mem_sendOrder.mp ho with ⟨rfl, _⟩ | old
    · exact Or.inr booked
    · exact Or.inl (by rwa [same] at old)
  have kept : (f.killOrder registry w order).1.queue = f.queue := by
    rw [Reads.killOrder_fst]
  unfold FlagBook.dispatch at ho
  cases kind : order.requestType with
  | sendOrder =>
    rw [kind] at ho
    exact sent f order rfl (by simp [entry, kind]) ho
  | modifyOrder =>
    rw [kind] at ho
    exact sent _ { order with delId := 0 } kept (by simp [entry, kind]) ho
  | killOrder =>
    rw [kind] at ho
    rw [← kept]
    exact Or.inl ho

theorem AtRest.process (h : AtRest reqs b f)
    (unique : (ids (accepted (reqs ++ [order]))).Nodup)
    (ordinary : ∀ o, entry order = some o → Ordinary o.orderId)
    (checked : rejection order = none) (ran : b.process registry w order = .ok (b', w')) :
    ∃ b₁ w₁, b.dispatch registry w order = .ok (b₁, w₁) ∧
      Tracks b₁ (f.dispatch registry w order).1 ∧
      w' = ((f.dispatch registry w order).1.updateBook registry w₁).2 ∧
      AtRest (reqs ++ [order]) b' ((f.dispatch registry w order).1.updateBook registry w₁).1 := by
  unfold OrderBook.process at ran
  obtain ⟨⟨b₁, w₁⟩, dispatched, updated⟩ := bind_ok ran
  obtain ⟨tracks, noted, _⟩ := ends_ok (dispatch_tracks registry h.tracks w ordinary) dispatched
  obtain ⟨tracks', told⟩ := ends_ok (updateBook_tracks registry tracks w₁) updated
  have shows := h.sound.shows.dispatch registry w unique
  refine ⟨b₁, w₁, dispatched, tracks, told, tracks', (shows.updateBook registry w₁).1.toSound,
    updateBook_quiet registry _ w₁, unique, ?_⟩
  apply updateBook_positive
  intro t o ho
  rcases dispatch_resting ho with old | new
  · exact h.positive t o old
  · exact entry_positive checked new

end Process
end MarketBookExchange
