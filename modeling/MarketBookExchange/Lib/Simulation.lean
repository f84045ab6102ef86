import MarketBookExchange.Lib.Transitions

/- A transition system seen as a coarser one. -/
namespace Transitions
variable {σ τ α β : Type} {step : σ → α → σ → Prop} {step' : τ → β → τ → Prop}
variable {start : σ} {start' : τ} {inv : List α → σ → Prop} {view : σ → τ} {seen : α → Option β}

/-- Where `inv` holds, an action that is seen is a step of the view, and an action that is not
    seen leaves the view alone. -/
structure Simulates (step : σ → α → σ → Prop) (step' : τ → β → τ → Prop)
    (inv : List α → σ → Prop) (view : σ → τ) (seen : α → Option β) : Prop where
  visible : ∀ trace s a s' b, inv trace s → step s a s' → seen a = some b →
    step' (view s) b (view s')
  silent : ∀ trace s a s', inv trace s → step s a s' → seen a = none → view s' = view s

/-- The view of a run is a run of what is seen of its actions. -/
theorem Simulates.run (sim : Simulates step step' inv view seen) (initial : view start = start')
    (always : ∀ trace s, Runs step start trace s → inv trace s) {trace : List α} {s : σ}
    (run : Runs step start trace s) : Runs step' start' (trace.filterMap seen) (view s) := by
  induction run with
  | start =>
    rw [initial]
    exact .start
  | @next trace s s' a before taken ih =>
    have holds := always trace s before
    rw [List.filterMap_append]
    cases present : seen a with
    | none =>
      rw [List.filterMap_cons_none present, List.filterMap_nil, List.append_nil,
        sim.silent trace s a s' holds taken present]
      exact ih
    | some b =>
      rw [List.filterMap_cons_some present, List.filterMap_nil]
      exact ih.next (sim.visible trace s a s' b holds taken present)

end Transitions
