import Mathlib.Logic.Function.Basic
import Mathlib.Data.List.Basic
import Mathlib.Data.Nat.ModEq
import Mathlib.Data.Nat.Find
import Mathlib.Tactic.ByContra

/- Open addressing over a circle of cells. A key is looked for along the path from its home
   cell; an empty cell ends the path, a tombstone does not. -/
namespace LinearProbing
variable {κ : Type}

inductive Cell (κ : Type) where
  | empty
  | tombstone
  | live (key : κ)

def Cell.isLive : Cell κ → Bool
  | .live _ => true
  | _ => false

def Cell.isTombstone : Cell κ → Bool
  | .tombstone => true
  | _ => false

def slot (size home d : Nat) : Nat := (home + d) % size

section Path
variable {size home d e i : Nat}

theorem slot_lt (pos : 0 < size) : slot size home d < size := Nat.mod_lt _ pos

theorem slot_zero : slot size home 0 = home % size := rfl

theorem slot_succ : (slot size home d + 1) % size = slot size home (d + 1) := by
  simp [slot, Nat.add_assoc]

theorem slot_inj (hd : d < size) (he : e < size) (same : slot size home d = slot size home e) :
    d = e := by
  have congr : Nat.ModEq size (home + d) (home + e) := same
  have cancel : Nat.ModEq size d e := Nat.ModEq.add_left_cancel' home congr
  have mods : d % size = e % size := cancel
  rwa [Nat.mod_eq_of_lt hd, Nat.mod_eq_of_lt he] at mods

theorem slot_surj (home : Nat) (small : i < size) : ∃ d < size, slot size home d = i := by
  have pos : 0 < size := Nat.lt_of_le_of_lt (Nat.zero_le _) small
  have low : home % size < size := Nat.mod_lt _ pos
  refine ⟨(i + (size - home % size)) % size, Nat.mod_lt _ pos, ?_⟩
  have home_eq := Nat.mod_add_div home size
  rw [slot, Nat.add_mod_mod, ← home_eq]
  have rearranged : home % size + size * (home / size) +
      (i + (size - (home % size + size * (home / size)) % size)) =
      i + size * (home / size + 1) := by
    rw [home_eq, Nat.mul_add, Nat.mul_one]
    omega
  rw [rearranged, Nat.add_mul_mod_self_left, Nat.mod_eq_of_lt small]

theorem exists_first (stop : Nat → Prop) [DecidablePred stop] (home : Nat)
    (present : ∃ i < size, stop i) :
    ∃ d < size, stop (slot size home d) ∧ ∀ e < d, ¬ stop (slot size home e) := by
  obtain ⟨i, small, stops⟩ := present
  obtain ⟨d, hd, rfl⟩ := slot_surj home small
  have found : ∃ d, stop (slot size home d) := ⟨d, stops⟩
  refine ⟨Nat.find found, ?_, Nat.find_spec found, fun e he => Nat.find_min found he⟩
  exact Nat.lt_of_le_of_lt (Nat.find_min' found stops) hd

end Path

/-- No key is stored twice, and no empty cell cuts a key off from its home. -/
structure Probed (size : Nat) (hash : κ → Nat) (cell : Nat → Cell κ) : Prop where
  unique : ∀ k i j, i < size → j < size → cell i = .live k → cell j = .live k → i = j
  chained : ∀ k d, d < size → cell (slot size (hash k) d) = .live k →
    ∀ e < d, cell (slot size (hash k) e) ≠ .empty

section Probed
variable {size : Nat} {hash : κ → Nat} {cell : Nat → Cell κ}

theorem probed_empty (size : Nat) (hash : κ → Nat) : Probed size hash fun _ => .empty := by
  constructor
  · intro _ _ _ _ _ h
    cases h
  · intro _ _ _ h
    cases h

theorem Probed.absent (p : Probed size hash cell) {k : κ} {d : Nat}
    (ended : cell (slot size (hash k) d) = .empty)
    (missed : ∀ e < d, cell (slot size (hash k) e) ≠ .live k) :
    ∀ i < size, cell i ≠ .live k := by
  intro i small here
  obtain ⟨e, he, rfl⟩ := slot_surj (hash k) small
  rcases Nat.lt_trichotomy e d with before | same | after
  · exact missed e before here
  · subst same
    rw [ended] at here
    cases here
  · exact p.chained k e he here d after ended

theorem Probed.put (p : Probed size hash cell) {k : κ} {d : Nat} (hd : d < size)
    (vacant : ∀ k', cell (slot size (hash k) d) ≠ .live k')
    (absent : ∀ i < size, cell i ≠ .live k)
    (reach : ∀ e < d, cell (slot size (hash k) e) ≠ .empty) :
    Probed size hash (Function.update cell (slot size (hash k) d) (.live k)) := by
  have stands : ∀ i < size, Function.update cell (slot size (hash k) d) (.live k) i = .live k →
      i = slot size (hash k) d := by
    intro i small here
    by_contra ne
    rw [Function.update_of_ne ne] at here
    exact absent i small here
  have pos : 0 < size := Nat.lt_of_le_of_lt (Nat.zero_le _) hd
  constructor
  · intro k' i j hi hj here there
    by_cases same : i = slot size (hash k) d
    · subst same
      rw [Function.update_self] at here
      cases here
      exact (stands j hj there).symm
    · by_cases same' : j = slot size (hash k) d
      · subst same'
        rw [Function.update_self] at there
        cases there
        exact absurd (stands i hi here) same
      · rw [Function.update_of_ne same] at here
        rw [Function.update_of_ne same'] at there
        exact p.unique k' i j hi hj here there
  · intro k' d' hd' here e he
    by_cases same : slot size (hash k') e = slot size (hash k) d
    · rw [same, Function.update_self]
      intro h
      cases h
    · rw [Function.update_of_ne same]
      by_cases landed : slot size (hash k') d' = slot size (hash k) d
      · rw [landed, Function.update_self] at here
        cases here
        have depth := slot_inj hd' hd landed
        subst depth
        exact reach e he
      · rw [Function.update_of_ne landed] at here
        exact p.chained k' d' hd' here e he

theorem Probed.drop (p : Probed size hash cell) (i : Nat) :
    Probed size hash (Function.update cell i .tombstone) := by
  have old : ∀ {j : Nat} {k : κ}, Function.update cell i .tombstone j = .live k →
      cell j = .live k := by
    intro j k here
    by_cases same : j = i
    · subst same
      rw [Function.update_self] at here
      cases here
    · rwa [Function.update_of_ne same] at here
  constructor
  · intro k j j' hj hj' here there
    exact p.unique k j j' hj hj' (old here) (old there)
  · intro k d hd here e he
    by_cases same : slot size (hash k) e = i
    · rw [same, Function.update_self]
      intro h
      cases h
    · rw [Function.update_of_ne same]
      exact p.chained k d hd (old here) e he

end Probed

def count (p : Cell κ → Bool) (size : Nat) (cell : Nat → Cell κ) : Nat :=
  (List.range size).countP fun i => p (cell i)

section Count
variable {p : Cell κ → Bool} {size : Nat} {cell : Nat → Cell κ}

theorem count_succ : count p (size + 1) cell = count p size cell + (p (cell size)).toNat := by
  rw [count, List.range_succ, List.countP_append, List.countP_singleton]
  cases p (cell size) <;> rfl

theorem count_congr {cell' : Nat → Cell κ} (same : ∀ i < size, cell' i = cell i) :
    count p size cell' = count p size cell := by
  refine List.countP_congr fun i hi => ?_
  rw [same i (List.mem_range.mp hi)]

theorem count_update (p : Cell κ → Bool) (cell : Nat → Cell κ) {i : Nat} (small : i < size)
    (c : Cell κ) :
    count p size (Function.update cell i c) + (p (cell i)).toNat =
      count p size cell + (p c).toNat := by
  induction size with
  | zero => exact absurd small (Nat.not_lt_zero _)
  | succ size ih =>
    rw [count_succ, count_succ]
    by_cases last : i = size
    · subst last
      have before : count p i (Function.update cell i c) = count p i cell :=
        count_congr fun j hj => Function.update_of_ne (Nat.ne_of_lt hj) _ _
      rw [Function.update_self, before]
      omega
    · rw [Function.update_of_ne (Ne.symm last)]
      have before := ih (by omega)
      omega

theorem count_pos {i : Nat} (small : i < size) (h : p (cell i) = true) :
    0 < count p size cell := by
  have updated := count_update p cell small (cell i)
  rw [Function.update_eq_self] at updated
  exact List.countP_pos_iff.mpr ⟨i, List.mem_range.mpr small, h⟩

/-- With fewer live cells and tombstones than cells, one cell is empty. -/
theorem exists_empty (room : count Cell.isLive size cell + count Cell.isTombstone size cell < size) :
    ∃ i < size, cell i = .empty := by
  by_contra none
  have full : ∀ n ≤ size, count Cell.isLive n cell + count Cell.isTombstone n cell = n := by
    intro n
    induction n with
    | zero => exact fun _ => rfl
    | succ n ih =>
      intro h
      have before := ih (by omega)
      rw [count_succ, count_succ]
      cases here : cell n with
      | empty => exact absurd ⟨n, by omega, here⟩ none
      | tombstone =>
        simp only [Cell.isLive, Cell.isTombstone, Bool.toNat_false, Bool.toNat_true]
        omega
      | live k =>
        simp only [Cell.isLive, Cell.isTombstone, Bool.toNat_false, Bool.toNat_true]
        omega
  exact absurd room (by rw [full size (Nat.le_refl _)]; exact Nat.lt_irrefl _)

end Count
end LinearProbing
