import Mathlib.Tactic.Basic

/- Calls on an object that may throw. The object stays as it was at the throw: nothing is
   rolled back. -/
namespace Throwing
variable {ε σ α β : Type}

/-- A call that changes nothing before the last point where it can throw. -/
def atomic (f : σ → Except ε (σ × α)) : EStateM ε σ α := fun s =>
  match f s with
  | .ok (s', a) => .ok a s'
  | .error e => .error e s

/-- What is seen of a call by who does not look at the object after a throw. -/
def forget (x : EStateM ε σ α) (s : σ) : Except ε (σ × α) :=
  match x s with
  | .ok a s' => .ok (s', a)
  | .error e _ => .error e

theorem bind_run (x : EStateM ε σ α) (f : α → EStateM ε σ β) (s : σ) :
    (x >>= f) s = match x s with
      | .ok a s' => f a s'
      | .error e s' => .error e s' := rfl

@[simp] theorem forget_pure (a : α) (s : σ) : forget (pure a : EStateM ε σ α) s = .ok (s, a) := rfl

@[simp] theorem forget_modify (f : σ → σ) (s : σ) :
    forget (modify f : EStateM ε σ Unit) s = .ok (f s, ()) := rfl

@[simp] theorem forget_atomic (f : σ → Except ε (σ × α)) (s : σ) : forget (atomic f) s = f s := by
  unfold forget atomic
  cases f s <;> rfl

@[simp] theorem forget_bind (x : EStateM ε σ α) (f : α → EStateM ε σ β) (s : σ) :
    forget (x >>= f) s = forget x s >>= fun r => forget (f r.2) r.1 := by
  unfold forget
  rw [bind_run]
  cases x s <;> rfl

theorem forget_error {x : EStateM ε σ α} {s s' : σ} {e : ε} (threw : x s = .error e s') :
    forget x s = .error e := by
  unfold forget
  rw [threw]

theorem atomic_error {f : σ → Except ε (σ × α)} {s s' : σ} {e : ε} :
    atomic f s = .error e s' ↔ f s = .error e ∧ s' = s := by
  unfold atomic
  cases f s with
  | ok r => simp
  | error e' =>
    simp only [EStateM.Result.error.injEq, Except.error.injEq]
    exact and_congr_right fun _ => eq_comm

theorem bind_error {x : EStateM ε σ α} {f : α → EStateM ε σ β} {s s' : σ} {e : ε} :
    (x >>= f) s = .error e s' ↔
      x s = .error e s' ∨ ∃ a s₁, x s = .ok a s₁ ∧ f a s₁ = .error e s' := by
  rw [bind_run]
  cases x s with
  | ok a s₁ =>
    constructor
    · exact fun threw => Or.inr ⟨a, s₁, rfl, threw⟩
    · rintro (threw | ⟨_, _, same, threw⟩)
      · cases threw
      · cases same
        exact threw
  | error e' s₁ => simp

theorem atomic_ok {f : σ → Except ε (σ × α)} {s s' : σ} {a : α} :
    atomic f s = .ok a s' ↔ f s = .ok (s', a) := by
  unfold atomic
  cases f s with
  | ok r =>
    simp only [EStateM.Result.ok.injEq, Except.ok.injEq, Prod.ext_iff]
    exact and_comm
  | error e => simp

end Throwing
