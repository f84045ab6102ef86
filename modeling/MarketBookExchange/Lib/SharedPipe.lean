import MarketBookExchange.Lib.Transitions
import Mathlib.Data.List.Perm.Basic

/- A pipe that several writers share. A call writes its message in one or more transfers, and
   transfers of different writers may alternate. -/
namespace SharedPipe
open Transitions
variable {ι α : Type}

/-- A call under way: what it has transferred, and what is left of its message. -/
structure Call (α : Type) where
  sent : List α
  left : List α
  deriving DecidableEq, Repr

def Call.message (c : Call α) : List α := c.sent ++ c.left

structure Pipe (ι α : Type) where
  bytes : List α := []
  call : ι → Option (Call α) := fun _ => none

inductive Event (ι α : Type) where
  | begin (i : ι) (message : List α)
  | transfer (i : ι) (part : List α)

def Pipe.begin [DecidableEq ι] (s : Pipe ι α) (i : ι) (message : List α) : Pipe ι α :=
  { s with call := Function.update s.call i (some ⟨[], message⟩) }

def Pipe.transfer [DecidableEq ι] (s : Pipe ι α) (i : ι) (sent part left : List α) : Pipe ι α where
  bytes := s.bytes ++ part
  call := Function.update s.call i (if left = [] then none else some ⟨sent ++ part, left⟩)

inductive Step [DecidableEq ι] : Pipe ι α → Event ι α → Pipe ι α → Prop
  | begin {s : Pipe ι α} {i : ι} {message : List α} (free : s.call i = none)
      (nonempty : message ≠ []) : Step s (.begin i message) (s.begin i message)
  | transfer {s : Pipe ι α} {i : ι} {sent part left : List α}
      (under : s.call i = some ⟨sent, part ++ left⟩) (nonempty : part ≠ []) :
      Step s (.transfer i part) (s.transfer i sent part left)

def Pipe.write [DecidableEq ι] (s : Pipe ι α) (i : ι) (message : List α) : Pipe ι α :=
  (s.begin i message).transfer i [] message []

theorem step_write [DecidableEq ι] (s : Pipe ι α) (i : ι) {message : List α}
    (nonempty : message ≠ []) :
    Step (s.begin i message) (.transfer i message) (s.write i message) := by
  apply Step.transfer _ nonempty
  rw [List.append_nil]
  exact Function.update_self _ _ _

theorem write_call [DecidableEq ι] {s : Pipe ι α} {i : ι} (free : s.call i = none)
    (message : List α) : (s.write i message).call = s.call := by
  change Function.update (Function.update s.call i _) i none = s.call
  rw [Function.update_idem, ← free, Function.update_eq_self]

def begun (trace : List (Event ι α)) : List (List α) :=
  trace.filterMap fun
    | .begin _ message => some message
    | .transfer _ _ => none

/-- No other writer is in the middle of its message. -/
def Alone (s : Pipe ι α) : Event ι α → Prop
  | .begin _ _ => True
  | .transfer i _ => ∀ j, j ≠ i → ∀ c, s.call j = some c → c.sent = []

/-- What came through is whole messages one after the other and at most a part of one more. Each
    message is there at most once, and with all calls returned nothing is missing. -/
def Unbroken (messages : List (List α)) (s : Pipe ι α) : Prop :=
  ∃ done rest, (done ++ rest).Perm messages ∧
    (s.bytes = done.flatten ∨
      ∃ message ∈ rest, ∃ part, part <+: message ∧ s.bytes = done.flatten ++ part) ∧
    ((∀ i, s.call i = none) → rest = [])

/-- `done` are the messages that are through, `active` the others with their writers, and
    `part` is what has been transferred of one of these. -/
structure Tidy (messages : List (List α)) (s : Pipe ι α) (done : List (List α))
    (active : List (ι × List α)) (part : List α) : Prop where
  all : (done ++ active.map Prod.snd).Perm messages
  writers : ∀ i m, (i, m) ∈ active ↔ ∃ c, s.call i = some c ∧ c.message = m
  once : active.Nodup
  bytes : s.bytes = done.flatten ++ part
  sent : ∀ i c, s.call i = some c → c.sent = [] ∨ c.sent = part
  owner : part = [] ∨ ∃ i c, s.call i = some c ∧ c.sent = part

theorem tidy_new : Tidy [] ({} : Pipe ι α) [] [] [] := by
  constructor
  · exact List.Perm.refl _
  · intro i m
    constructor
    · intro member
      cases member
    · rintro ⟨c, under, _⟩
      cases under
  · exact List.nodup_nil
  · rfl
  · intro i c under
    cases under
  · exact Or.inl rfl

namespace Tidy
variable {messages done : List (List α)} {s : Pipe ι α} {active : List (ι × List α)}
variable {part : List α}

theorem unbroken (h : Tidy messages s done active part) : Unbroken messages s := by
  refine ⟨done, active.map Prod.snd, h.all, ?_, fun idle => ?_⟩
  · rcases h.owner with nothing | ⟨i, c, under, sent⟩
    · left
      rw [h.bytes, nothing, List.append_nil]
    · right
      have member := (h.writers i c.message).mpr ⟨c, under, rfl⟩
      refine ⟨c.message, List.mem_map_of_mem member, part, ?_, h.bytes⟩
      rw [← sent]
      exact List.prefix_append _ _
  · rw [List.map_eq_nil_iff, List.eq_nil_iff_forall_not_mem]
    rintro ⟨i, m⟩ member
    obtain ⟨c, under, _⟩ := (h.writers i m).mp member
    rw [idle] at under
    cases under

variable [DecidableEq ι]

theorem begin (h : Tidy messages s done active part) {i : ι} {message : List α}
    (free : s.call i = none) :
    Tidy (messages ++ [message]) (s.begin i message) done ((i, message) :: active) part := by
  have self : (s.begin i message).call i = some ⟨[], message⟩ := Function.update_self _ _ _
  have other : ∀ {j}, j ≠ i → (s.begin i message).call j = s.call j :=
    fun ne => Function.update_of_ne ne _ _
  have inactive : ∀ m, (i, m) ∉ active := by
    intro m member
    obtain ⟨c, under, _⟩ := (h.writers i m).mp member
    rw [free] at under
    cases under
  constructor
  · have new := h.all.append_right [message]
    rw [List.append_assoc] at new
    exact ((List.perm_append_singleton message _).symm.append_left done).trans new
  · intro j m
    by_cases own : j = i
    · subst own
      rw [self, List.mem_cons]
      constructor
      · rintro (here | there)
        · cases here
          exact ⟨_, rfl, rfl⟩
        · exact absurd there (inactive m)
      · rintro ⟨c, under, shape⟩
        cases under
        exact Or.inl (by rw [← shape]; rfl)
    · rw [other own, ← h.writers j m, List.mem_cons]
      exact or_iff_right fun here => own (congrArg Prod.fst here)
  · exact List.nodup_cons.mpr ⟨inactive message, h.once⟩
  · exact h.bytes
  · intro j c under
    by_cases own : j = i
    · subst own
      rw [self] at under
      cases under
      exact Or.inl rfl
    · rw [other own] at under
      exact h.sent j c under
  · rcases h.owner with nothing | ⟨j, c, under, sent⟩
    · exact Or.inl nothing
    · have own : j ≠ i := by
        rintro rfl
        rw [free] at under
        cases under
      exact Or.inr ⟨j, c, by rw [other own]; exact under, sent⟩

theorem part_eq (h : Tidy messages s done active part) {i : ι} {c : Call α}
    (under : s.call i = some c)
    (alone : ∀ j, j ≠ i → ∀ c, s.call j = some c → c.sent = []) : part = c.sent := by
  rcases h.owner with absent | ⟨j, d, other, sent⟩
  · rcases h.sent i c under with nothing | shape
    · rw [absent, nothing]
    · exact shape.symm
  · by_cases own : j = i
    · subst own
      rw [under] at other
      cases other
      exact sent.symm
    · have nothing := alone j own d other
      rcases h.sent i c under with empty | shape
      · rw [← sent, nothing, empty]
      · exact shape.symm

theorem more (h : Tidy messages s done active part) {i : ι} {sent next left : List α}
    (under : s.call i = some ⟨sent, next ++ left⟩) (nonempty : left ≠ [])
    (alone : ∀ j, j ≠ i → ∀ c, s.call j = some c → c.sent = []) :
    Tidy messages (s.transfer i sent next left) done active (sent ++ next) := by
  have shape := h.part_eq under alone
  have self : (s.transfer i sent next left).call i = some ⟨sent ++ next, left⟩ :=
    (Function.update_self _ _ _).trans (if_neg nonempty)
  have other : ∀ {j}, j ≠ i → (s.transfer i sent next left).call j = s.call j :=
    fun ne => Function.update_of_ne ne _ _
  constructor
  · exact h.all
  · intro j m
    rw [h.writers j m]
    by_cases own : j = i
    · subst own
      simp only [under, self, Option.some.injEq, exists_eq_left', Call.message, List.append_assoc]
    · rw [other own]
  · exact h.once
  · change s.bytes ++ next = _
    rw [h.bytes, shape, List.append_assoc]
  · intro j c under'
    by_cases own : j = i
    · subst own
      rw [self] at under'
      cases under'
      exact Or.inr rfl
    · rw [other own] at under'
      exact Or.inl (alone j own c under')
  · exact Or.inr ⟨i, _, self, rfl⟩

theorem finish (h : Tidy messages s done active part) {i : ι} {sent next : List α}
    (under : s.call i = some ⟨sent, next ++ []⟩)
    (alone : ∀ j, j ≠ i → ∀ c, s.call j = some c → c.sent = []) :
    ∃ active', Tidy messages (s.transfer i sent next []) (done ++ [sent ++ next]) active' [] := by
  have shape := h.part_eq under alone
  have self : (s.transfer i sent next []).call i = none :=
    (Function.update_self _ _ _).trans (if_pos rfl)
  have other : ∀ {j}, j ≠ i → (s.transfer i sent next []).call j = s.call j :=
    fun ne => Function.update_of_ne ne _ _
  have member : (i, sent ++ next) ∈ active :=
    (h.writers i _).mpr ⟨_, under, by rw [Call.message, List.append_nil]⟩
  obtain ⟨before, after, split⟩ := List.append_of_mem member
  have perm : active.Perm ((i, sent ++ next) :: (before ++ after)) := by
    rw [split]
    exact List.perm_middle
  have once := perm.nodup_iff.mp h.once
  refine ⟨before ++ after, ?_⟩
  constructor
  · have moved := ((perm.map Prod.snd).append_left done).symm.trans h.all
    rw [List.map_cons] at moved
    rw [List.append_assoc]
    exact moved
  · intro j m
    have here := perm.mem_iff (a := (j, m))
    rw [List.mem_cons, h.writers j m] at here
    by_cases own : j = i
    · subst own
      rw [self]
      constructor
      · intro inside
        obtain ⟨c, under', shape'⟩ := here.mpr (Or.inr inside)
        rw [under] at under'
        cases under'
        rw [Call.message, List.append_nil] at shape'
        rw [← shape'] at inside
        exact absurd inside (List.nodup_cons.mp once).1
      · rintro ⟨c, under', _⟩
        cases under'
    · rw [other own, here]
      exact (or_iff_right fun same => own (congrArg Prod.fst same)).symm
  · exact (List.nodup_cons.mp once).2
  · change s.bytes ++ next = _
    rw [h.bytes, shape]
    simp
  · intro j c under'
    by_cases own : j = i
    · subst own
      rw [self] at under'
      cases under'
    · rw [other own] at under'
      exact Or.inl (alone j own c under')
  · exact Or.inl rfl

end Tidy

/-- If no writer transfers while another is in the middle of its message, no message is
    broken. -/
theorem alone_unbroken [DecidableEq ι] {trace : List (Event ι α)} {s : Pipe ι α}
    (run : Runs (fun s event s' => Step s event s' ∧ Alone s event) {} trace s) :
    Unbroken (begun trace) s := by
  have tidy : ∃ done active part, Tidy (begun trace) s done active part := by
    refine runs_invariant (fun trace s => ∃ done active part, Tidy (begun trace) s done active part)
      ⟨[], [], [], tidy_new⟩ ?_ run
    rintro trace s event s' ⟨done, active, part, h⟩ ⟨taken, alone⟩
    unfold begun at h ⊢
    rw [List.filterMap_append]
    cases taken with
    | begin free present => exact ⟨_, _, _, h.begin free⟩
    | @transfer i sent next left under present =>
      rw [List.filterMap_cons_none rfl, List.filterMap_nil, List.append_nil]
      by_cases last : left = []
      · subst last
        obtain ⟨active', h'⟩ := h.finish under alone
        exact ⟨_, _, _, h'⟩
      · exact ⟨_, _, _, h.more under last alone⟩
  obtain ⟨done, active, part, h⟩ := tidy
  exact h.unbroken

/-- Two writers at once can break a message: one of them transfers in the middle of the other's. -/
theorem torn [DecidableEq ι] {s : Pipe ι α} (idle : s.call = fun _ => none) {i j : ι} (ne : i ≠ j)
    {message first second : List α} (nonempty : message ≠ []) (firstNonempty : first ≠ [])
    (secondNonempty : second ≠ []) :
    ∃ s₁ s₂ s₃, Step ((s.begin i message).begin j (first ++ second)) (.transfer j first) s₁ ∧
      Step s₁ (.transfer i message) s₂ ∧ Step s₂ (.transfer j second) s₃ ∧
      (s₃.call = fun _ => none) ∧ s₃.bytes = s.bytes ++ (first ++ message ++ second) := by
  refine ⟨_, _, _, .transfer (Function.update_self _ _ _) firstNonempty,
    @Step.transfer ι α _ _ i [] message [] ?_ nonempty,
    @Step.transfer ι α _ _ j first second [] ?_ secondNonempty,
    ?_, ?_⟩
  · unfold Pipe.transfer Pipe.begin
    simp only
    rw [Function.update_of_ne ne, Function.update_of_ne ne, Function.update_self, List.append_nil]
  · unfold Pipe.transfer
    simp only
    rw [Function.update_of_ne ne.symm, Function.update_self, if_neg secondNonempty, List.nil_append,
      List.append_nil]
  · unfold Pipe.transfer Pipe.begin
    simp only [if_true, idle]
    funext k
    by_cases hj : k = j
    · rw [hj, Function.update_self]
    · rw [Function.update_of_ne hj]
      by_cases hi : k = i
      · rw [hi, Function.update_self]
      · rw [Function.update_of_ne hi, Function.update_of_ne hj, Function.update_of_ne hj,
          Function.update_of_ne hi]
  · simp [Pipe.transfer, Pipe.begin]

end SharedPipe
