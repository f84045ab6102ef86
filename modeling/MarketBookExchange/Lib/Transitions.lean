import Mathlib.Data.List.Basic

/- Labelled transition systems: the states a system can be in after a trace of actions,
   and the induction that carries an invariant through its runs. -/
namespace Transitions
variable {σ α : Type} {step step' : σ → α → σ → Prop} {start : σ}

inductive Runs (step : σ → α → σ → Prop) (start : σ) : List α → σ → Prop
  | start : Runs step start [] start
  | next {trace : List α} {s s' : σ} {a : α} (before : Runs step start trace s)
      (taken : step s a s') : Runs step start (trace ++ [a]) s'

theorem runs_invariant (inv : List α → σ → Prop) (base : inv [] start)
    (keep : ∀ trace s a s', inv trace s → step s a s' → inv (trace ++ [a]) s')
    {trace : List α} {s : σ} (run : Runs step start trace s) : inv trace s := by
  induction run with
  | start => exact base
  | next before taken ih => exact keep _ _ _ _ ih taken

theorem runs_append {before more : List α} {s s' : σ} (run : Runs step start before s)
    (later : Runs step s more s') : Runs step start (before ++ more) s' := by
  induction later with
  | start => rwa [List.append_nil]
  | next _ taken ih =>
    rw [← List.append_assoc]
    exact ih.next taken

theorem runs_imp (weaker : ∀ s a s', step s a s' → step' s a s') {trace : List α} {s : σ}
    (run : Runs step start trace s) : Runs step' start trace s := by
  induction run with
  | start => exact .start
  | next before taken ih => exact .next ih (weaker _ _ _ taken)

theorem runs_at {trace : List α} {s : σ} (run : Runs step start trace s) {a : α}
    (member : a ∈ trace) : ∃ before s₁ s₂ after, trace = before ++ [a] ++ after ∧
      Runs step start before s₁ ∧ step s₁ a s₂ ∧ Runs step s₂ after s := by
  induction run with
  | start => cases member
  | next run taken ih =>
    rcases List.mem_append.mp member with earlier | last
    · obtain ⟨before, s₁, s₂, after, split, run₁, stands, run₂⟩ := ih earlier
      exact ⟨before, s₁, s₂, _, by rw [split, List.append_assoc], run₁, stands, run₂.next taken⟩
    · cases List.mem_singleton.mp last
      exact ⟨_, _, _, [], (List.append_nil _).symm, run, taken, .start⟩

end Transitions
