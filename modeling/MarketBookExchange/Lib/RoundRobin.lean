import MarketBookExchange.Lib.Transitions

/- A pointer that goes round the places from `lo` to `hi`, and what waits at one of them. -/
namespace RoundRobin
open Transitions
variable {lo hi p t : Nat}

def next (lo hi p : Nat) : Nat := if p + 1 < hi then p + 1 else lo

/-- How many turns it takes from a place to another. -/
def gap (lo hi p t : Nat) : Nat := if p ≤ t then t - p else (hi - p) + (t - lo)

theorem next_inside (inside : lo ≤ p ∧ p < hi) : lo ≤ next lo hi p ∧ next lo hi p < hi := by
  unfold next
  split <;> omega

theorem gap_lt (inside : lo ≤ p ∧ p < hi) (room : lo ≤ t ∧ t < hi) : gap lo hi p t < hi - lo := by
  unfold gap
  split <;> omega

theorem gap_next (inside : lo ≤ p ∧ p < hi) (room : lo ≤ t ∧ t < hi) (away : p ≠ t) :
    gap lo hi (next lo hi p) t + 1 = gap lo hi p t := by
  unfold gap next
  split <;> split <;> split <;> omega

theorem gap_next_self (room : lo ≤ t ∧ t < hi) : gap lo hi (next lo hi t) t + 1 = hi - lo := by
  unfold gap next
  split <;> split <;> omega

section Rounds
variable {σ α : Type} {step : σ → α → σ → Prop} {inv : List α → σ → Prop} {place : σ → Nat}
variable {turn : α → Bool} {served : List α → Nat} {k : Nat}

/-- A system whose turns move a pointer, and serve one request at a time at the place `t`. A
    turn there serves none only when `k` have been served already. -/
structure Rounds (step : σ → α → σ → Prop) (inv : List α → σ → Prop) (place : σ → Nat)
    (turn : α → Bool) (served : List α → Nat) (lo hi t k : Nat) : Prop where
  room : lo ≤ t ∧ t < hi
  inside : ∀ trace s, inv trace s → lo ≤ place s ∧ place s < hi
  moves : ∀ trace s a s', inv trace s → step s a s' →
    place s' = if turn a then next lo hi (place s) else place s
  serves : ∀ trace s a s', inv trace s → step s a s' → turn a → place s = t →
    served (trace ++ [a]) = served trace + 1 ∨ k ≤ served trace
  rests : ∀ trace s a s', inv trace s → step s a s' → ¬ turn a ∨ place s ≠ t →
    served (trace ++ [a]) = served trace
  grows : ∀ trace s a s', inv trace s → step s a s' → served trace ≤ served (trace ++ [a])

def turns (turn : α → Bool) (more : List α) : Nat := (more.filter turn).length

theorem turns_append (more : List α) (a : α) :
    turns turn (more ++ [a]) = turns turn more + if turn a then 1 else 0 := by
  unfold turns
  rw [List.filter_append, List.length_append, List.filter_singleton]
  cases turn a <;> rfl

theorem Rounds.balance (h : Rounds step inv place turn served lo hi t k) {trace : List α} {s : σ}
    (always : ∀ more s', Runs step s more s' → inv (trace ++ more) s') {more : List α} {s' : σ}
    (later : Runs step s more s') : k ≤ served (trace ++ more) ∨
      (hi - lo) * served (trace ++ more) + gap lo hi (place s) t =
        (hi - lo) * served trace + turns turn more + gap lo hi (place s') t := by
  induction later with
  | start =>
    right
    rw [List.append_nil]
    rfl
  | @next more s₁ s₂ a before taken ih =>
    have holds := always more s₁ before
    have inside := h.inside _ _ holds
    rw [← List.append_assoc, turns_append]
    rcases ih with enough | balance
    · exact Or.inl (Nat.le_trans enough (h.grows _ _ _ _ holds taken))
    · have moves := h.moves _ _ _ _ holds taken
      cases turned : turn a with
      | false =>
        rw [turned, if_neg (by decide)] at moves
        rw [h.rests _ _ _ _ holds taken (Or.inl (by simp [turned])), moves]
        exact Or.inr balance
      | true =>
        rw [turned, if_pos rfl] at moves
        by_cases here : place s₁ = t
        · rcases h.serves _ _ _ _ holds taken turned here with one | enough
          · right
            have back := gap_next_self h.room
            have zero : gap lo hi t t = 0 := by
              unfold gap
              rw [if_pos (Nat.le_refl t), Nat.sub_self]
            rw [here, zero] at balance
            rw [one, moves, here, Nat.mul_add, Nat.mul_one, if_pos rfl]
            omega
          · exact Or.inl (Nat.le_trans enough (h.grows _ _ _ _ holds taken))
        · right
          have nearer := gap_next inside h.room here
          rw [h.rests _ _ _ _ holds taken (Or.inr here), moves, if_pos rfl]
          omega

/-- As many rounds as requests are missing to `k` are enough. -/
theorem Rounds.in_time (h : Rounds step inv place turn served lo hi t k) {trace : List α} {s : σ}
    (always : ∀ more s', Runs step s more s' → inv (trace ++ more) s') {more : List α} {s' : σ}
    (later : Runs step s more s') {n : Nat} (missing : k ≤ served trace + n)
    (long : n * (hi - lo) ≤ turns turn more) : k ≤ served (trace ++ more) := by
  rcases h.balance always later with enough | balance
  · exact enough
  · have near := gap_lt (h.inside _ _ (always [] s .start)) h.room
    by_contra few
    have most : (hi - lo) * (served (trace ++ more) + 1) ≤ (hi - lo) * (served trace + n) :=
      Nat.mul_le_mul_left _ (by omega)
    rw [Nat.mul_add, Nat.mul_add, Nat.mul_one, Nat.mul_comm _ n] at most
    omega

end Rounds
end RoundRobin
