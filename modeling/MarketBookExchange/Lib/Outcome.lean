import Mathlib.Logic.Basic

/- Two computations that may end in a fault, compared outcome by outcome. A fault that
   `excuse` allows may end the first one at any point; every other outcome must match. -/
namespace Outcome
variable {ε α β γ δ : Type}

def Simulates (excuse : ε → Prop) (rel : α → β → Prop) : Except ε α → Except ε β → Prop
  | .ok a, .ok b => rel a b
  | .error e, .ok _ => excuse e
  | .error e, .error e' => excuse e ∨ e = e'
  | .ok _, .error _ => False

/-- `x` ends in a result of `good` or in a fault of `bad`. -/
def Ends (bad : ε → Prop) (good : α → Prop) : Except ε α → Prop
  | .ok a => good a
  | .error e => bad e

section Simulates
variable {excuse : ε → Prop} {rel : α → β → Prop} {rel' : γ → δ → Prop}

theorem simulates_pure {a : α} {b : β} (h : rel a b) :
    Simulates excuse rel (pure a) (pure b) := h

theorem simulates_excused {e : ε} (h : excuse e) (y : Except ε β) :
    Simulates excuse rel (.error e) y := by
  cases y with
  | ok b => exact h
  | error e' => exact Or.inl h

theorem simulates_bind {x : Except ε α} {y : Except ε β} {f : α → Except ε γ}
    {g : β → Except ε δ} (first : Simulates excuse rel x y)
    (next : ∀ a b, rel a b → Simulates excuse rel' (f a) (g b)) :
    Simulates excuse rel' (x >>= f) (y >>= g) := by
  cases x with
  | ok a =>
    cases y with
    | ok b => exact next a b first
    | error e' => exact first.elim
  | error e =>
    cases y with
    | ok b => exact simulates_excused (show excuse e from first) (g b)
    | error e' => exact first

theorem simulates_bind_run {x : Except ε α} {y : Except ε β} {f : α → Except ε γ}
    {g : β → Except ε δ} (first : Simulates excuse rel x y)
    (next : ∀ a b, x = .ok a → y = .ok b → rel a b → Simulates excuse rel' (f a) (g b)) :
    Simulates excuse rel' (x >>= f) (y >>= g) := by
  cases x with
  | ok a =>
    cases y with
    | ok b => exact next a b rfl rfl first
    | error e' => exact first.elim
  | error e =>
    cases y with
    | ok b => exact simulates_excused (show excuse e from first) (g b)
    | error e' => exact first

theorem simulates_mono {rel₂ : α → β → Prop} {x : Except ε α} {y : Except ε β}
    (h : Simulates excuse rel x y) (weaker : ∀ a b, rel a b → rel₂ a b) :
    Simulates excuse rel₂ x y := by
  cases x <;> cases y
  · exact h
  · exact h
  · exact h
  · exact weaker _ _ h

theorem simulates_bind_same {x : Except ε α} {f : α → Except ε γ} {g : α → Except ε δ}
    (next : ∀ a, x = .ok a → Simulates excuse rel' (f a) (g a)) :
    Simulates excuse rel' (x >>= f) (x >>= g) := by
  cases x with
  | ok a => exact next a rfl
  | error e => exact Or.inr rfl

theorem simulates_ok {x : Except ε α} {y : Except ε β} (h : Simulates excuse rel x y)
    {a : α} (run : x = .ok a) : ∃ b, y = .ok b ∧ rel a b := by
  subst run
  cases y with
  | ok b => exact ⟨b, rfl, h⟩
  | error e => exact h.elim

theorem simulates_error {x : Except ε α} {y : Except ε β} (h : Simulates excuse rel x y)
    {e : ε} (run : x = .error e) : excuse e ∨ y = .error e := by
  subst run
  cases y with
  | ok b => exact Or.inl h
  | error e' =>
    rcases h with h | h
    · exact Or.inl h
    · exact Or.inr (by rw [h])

end Simulates

section Ends
variable {bad : ε → Prop} {p : α → Prop} {q : β → Prop}

theorem ends_bind {x : Except ε α} {f : α → Except ε β} (first : Ends bad p x)
    (next : ∀ a, p a → Ends bad q (f a)) : Ends bad q (x >>= f) := by
  cases x with
  | ok a => exact next a first
  | error e => exact first

theorem ends_bind_run {x : Except ε α} {f : α → Except ε β} (first : Ends bad p x)
    (next : ∀ a, x = .ok a → p a → Ends bad q (f a)) : Ends bad q (x >>= f) := by
  cases x with
  | ok a => exact next a rfl first
  | error e => exact first

theorem ends_mono {p₂ : α → Prop} {x : Except ε α} (h : Ends bad p x)
    (weaker : ∀ a, p a → p₂ a) : Ends bad p₂ x := by
  cases x with
  | ok a => exact weaker a h
  | error e => exact h

theorem ends_weaken {bad₂ : ε → Prop} {x : Except ε α} (h : Ends bad p x)
    (worse : ∀ e, bad e → bad₂ e) : Ends bad₂ p x := by
  cases x with
  | ok a => exact h
  | error e => exact worse e h

theorem ends_of_simulates {excuse : ε → Prop} {rel : α → β → Prop} {x : Except ε α}
    {y : Except ε β} (sim : Simulates excuse rel x y) (ends : Ends bad q y) :
    Ends (fun e => excuse e ∨ bad e) (fun a => ∃ b, y = .ok b ∧ q b ∧ rel a b) x := by
  cases x with
  | ok a =>
    obtain ⟨b, run, related⟩ := simulates_ok sim rfl
    rw [run] at ends
    exact ⟨b, run, ends, related⟩
  | error e =>
    rcases simulates_error sim rfl with excused | same
    · exact Or.inl excused
    · rw [same] at ends
      exact Or.inr ends

theorem ends_any (x : Except ε α) : Ends (fun _ => True) (fun _ => True) x := by
  cases x with
  | ok a => trivial
  | error e => trivial

theorem ends_pure {a : α} (h : p a) : Ends bad p (pure a) := h

theorem ends_foldlM {inv : β → Prop} {f : β → α → Except ε β} {l : List α}
    (step : ∀ b, inv b → ∀ a ∈ l, Ends bad inv (f b a)) {b : β} (start : inv b) :
    Ends bad inv (l.foldlM f b) := by
  induction l generalizing b with
  | nil => exact start
  | cons a l ih =>
    rw [List.foldlM_cons]
    exact ends_bind (step b start a (by simp))
      (fun b' h => ih (fun b hb a ha => step b hb a (by simp [ha])) h)

theorem ends_error {x : Except ε α} (h : Ends bad p x) {e : ε} (run : x = .error e) :
    bad e := by
  subst run
  exact h

theorem ends_ok {x : Except ε α} (h : Ends bad p x) {a : α} (run : x = .ok a) : p a := by
  subst run
  exact h

end Ends

theorem bind_ok {x : Except ε α} {f : α → Except ε β} {b : β} (run : x >>= f = .ok b) :
    ∃ a, x = .ok a ∧ f a = .ok b := by
  cases x with
  | ok a => exact ⟨a, rfl, run⟩
  | error e => cases run

theorem exists_ok {x : Except ε α} (h : x.toOption.isSome = true) : ∃ a, x = .ok a := by
  cases x with
  | ok a => exact ⟨a, rfl⟩
  | error e => cases h

theorem exists_ok_some {x : Except ε (Option α)} (h : x.toOption.join.isSome = true) :
    ∃ a, x = .ok (some a) := by
  cases x with
  | error e => cases h
  | ok r =>
    cases r with
    | none => cases h
    | some a => exact ⟨a, rfl⟩

theorem ok_of_toOption {x : Except ε α} {a : α} (h : x.toOption = some a) : x = .ok a := by
  cases x with
  | ok b =>
    cases h
    rfl
  | error e => cases h

@[simp] theorem ok_bind (a : α) (f : α → Except ε β) : (Except.ok a >>= f) = f a := rfl

@[simp] theorem error_bind (e : ε) (f : α → Except ε β) :
    ((Except.error e : Except ε α) >>= f) = .error e := rfl

@[simp] theorem pure_eq_ok (a : α) : (pure a : Except ε α) = .ok a := rfl

@[simp] theorem throw_eq_error (e : ε) : (throw e : Except ε α) = .error e := rfl

end Outcome
