import MarketBookExchange.Lib.Outcome

/- A walk over a list with a visitor that may stop it for good. -/
namespace Traversal
open Outcome
variable {ε ι κ σ : Type}

/-- Visits the elements in order while the visitor answers true. -/
def visitAll (fn : ι → σ → Except ε (Bool × σ)) : List ι → σ → Except ε (Bool × σ)
  | [], s => .ok (true, s)
  | i :: rest, s => do
    let (go, s) ← fn i s
    if go then visitAll fn rest s else pure (false, s)

section
variable {fn : ι → σ → Except ε (Bool × σ)}

theorem visitAll_append (l m : List ι) (s : σ) :
    visitAll fn (l ++ m) s = (do
      let (go, s) ← visitAll fn l s
      if go then visitAll fn m s else pure (false, s)) := by
  induction l generalizing s with
  | nil => rfl
  | cons i l ih =>
    rw [List.cons_append, visitAll, visitAll]
    cases run : fn i s with
    | error e => rfl
    | ok r =>
      obtain ⟨go, s'⟩ := r
      cases go with
      | false => rfl
      | true => exact ih s'

theorem visitAll_map (f : κ → ι) (l : List κ) (s : σ) :
    visitAll fn (l.map f) s = visitAll (fun k => fn (f k)) l s := by
  induction l generalizing s with
  | nil => rfl
  | cons k l ih =>
    rw [List.map_cons, visitAll, visitAll]
    simp only [ih]

theorem visitAll_flatMap (f : κ → List ι) (l : List κ) (s : σ) :
    visitAll fn (l.flatMap f) s = visitAll (fun k => visitAll fn (f k)) l s := by
  induction l generalizing s with
  | nil => rfl
  | cons k l ih =>
    rw [List.flatMap_cons, visitAll_append, visitAll]
    simp only [ih]

theorem visitAll_congr {fn' : ι → σ → Except ε (Bool × σ)} {l : List ι}
    (same : ∀ i ∈ l, ∀ s, fn i s = fn' i s) (s : σ) : visitAll fn l s = visitAll fn' l s := by
  induction l generalizing s with
  | nil => rfl
  | cons i l ih =>
    rw [visitAll, visitAll, same i (by simp)]
    simp only [ih (fun j hj => same j (by simp [hj]))]

theorem visitAll_congr_of {P : σ → Prop} {fn' : ι → σ → Except ε (Bool × σ)}
    (same : ∀ i s, P s → fn' i s = fn i s) (keeps : ∀ i s r, P s → fn i s = .ok r → P r.2)
    (l : List ι) (s : σ) (h : P s) : visitAll fn' l s = visitAll fn l s := by
  induction l generalizing s with
  | nil => rfl
  | cons i l ih =>
    rw [visitAll, visitAll, same i s h]
    cases run : fn i s with
    | error e => rfl
    | ok r =>
      obtain ⟨go, s'⟩ := r
      cases go with
      | false => rfl
      | true => exact ih s' (keeps i s _ h run)

end
end Traversal
