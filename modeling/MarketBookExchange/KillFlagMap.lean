import MarketBookExchange.KillFlagInvariant

/- Any sequence of calls on a new kill table, against the finite map it stands for. -/
namespace MarketBookExchange
open Vectors LinearProbing Outcome

namespace KillFlagTable

/-- A call from outside; `find` may be followed by a write through the pointer it returned. -/
inductive TableCall where
  | set (key : Int) (value : Bool)
  | find (key : Int) (written : Option Bool)
  | erase (key : Int)

namespace TableCall

def key : TableCall → Int
  | set key _ => key
  | find key _ => key
  | erase key => key

def run (t : KillFlagTable) : TableCall → Except Fault KillFlagTable
  | set key value => t.set key value
  | find key none => do
    let _ ← t.find key
    pure t
  | find key (some value) => do
    match ← t.find key with
    | none => pure t
    | some kf => t.assign kf value
  | erase key => t.erase key

/-- What the call does to the map. There is nothing to write through a null pointer. -/
def apply (m : Int → Option Bool) : TableCall → Int → Option Bool
  | set key value => Function.update m key (some value)
  | find _ none => m
  | find key (some value) => Function.update m key ((m key).map fun _ => value)
  | erase key => Function.update m key none

end TableCall

def runCalls (t : KillFlagTable) (calls : List TableCall) : Except Fault KillFlagTable :=
  calls.foldlM TableCall.run t

/-- The values last written, to the keys that were set and not erased since. -/
def lastWritten (calls : List TableCall) : Int → Option Bool :=
  calls.foldl TableCall.apply fun _ => none

/-- The table answers as the map `m` and is in order. -/
structure Refines (t : KillFlagTable) (m : Int → Option Bool) : Prop where
  missing : ∀ key, Ordinary key → (t.find key = .ok none ↔ m key = none)
  found : ∀ key v, Ordinary key →
    (m key = some v ↔ ∃ kf, t.find key = .ok (some kf) ∧ t.deref kf = .ok v)
  once : ∀ i j, i < t.slots.size → j < t.slots.size → Ordinary (t.slots.get i).key →
    (t.slots.get i).key = (t.slots.get j).key → i = j
  live : t.liveCount = (List.range t.slots.size).countP fun i => Ordinary (t.slots.get i).key
  tombstones : t.tombstoneCount =
    (List.range t.slots.size).countP fun i => (t.slots.get i).key = tombstoneKey
  capacity : (∃ k, t.slots.size = 2 ^ k) ∧ t.slots.size = t.mask + 1
  empty : ∃ i < t.slots.size, (t.slots.get i).key = emptyKey
  rehash : t.slots.size * 2 < uint32 → ∃ u, t.rehash (t.slots.size * 2) = .ok u ∧
    u.slots.size = t.slots.size * 2 ∧ u.tombstoneCount = 0 ∧ u.liveCount = t.liveCount ∧
    ∀ s : Slot, Ordinary s.key →
      ((∃ i < u.slots.size, u.slots.get i = s) ↔ ∃ i < t.slots.size, t.slots.get i = s)

section
variable {t : KillFlagTable} {m : Int → Option Bool}

theorem refines_of_rep (rep : TableRep t m) : t.Refines m := by
  have inv := rep.inv
  constructor
  · intro key ordinary
    obtain ⟨r, run, spec⟩ := find_ordinary rep ordinary
    rw [run]
    cases r with
    | none => exact iff_of_true rfl spec
    | some i =>
      rw [spec.2.2]
      exact iff_of_false (fun h => by cases h) fun h => by cases h
  · intro key v ordinary
    obtain ⟨r, run, spec⟩ := find_ordinary rep ordinary
    rw [run]
    cases r with
    | none =>
      rw [show m key = none from spec]
      refine iff_of_false (fun h => by cases h) ?_
      rintro ⟨_, h, _⟩
      cases h
    | some i =>
      obtain ⟨small, _, flag⟩ := spec
      have value : t.deref i = .ok (t.slots.get i).value := by
        rw [deref, Vec.read_ok small]
        rfl
      simp only [flag, Option.some.injEq, Except.ok.injEq, exists_eq_left', value]
  · intro i j hi hj ordinary same
    exact inv.probed.unique _ i j hi hj (cellOf_live.mpr ⟨rfl, ordinary⟩)
      (cellOf_live.mpr ⟨same.symm, ordinary⟩)
  · exact inv.live_eq
  · exact inv.tombstones_eq
  · obtain ⟨k, _, size⟩ := inv.shape
    have pos := inv.pos
    refine ⟨⟨k, size⟩, ?_⟩
    rw [inv.mask]
    omega
  · exact inv.exists_empty
  · intro small
    obtain ⟨u, run, moved, size, stones, live⟩ := rehash_ok rep small
    refine ⟨u, run, size, stones, live, ?_⟩
    intro s ordinary
    have old := rep.flags s.key s.value
    rw [moved.flags, and_iff_right ordinary, and_iff_right ordinary] at old
    exact old

theorem unset_ok (rep : TableRep t m) {c : TableCall} (notSet : ∀ key v, c ≠ .set key v)
    (ordinary : Ordinary c.key) : ∃ t', c.run t = .ok t' ∧ TableRep t' (c.apply m) := by
  cases c with
  | set key value => exact absurd rfl (notSet key value)
  | erase key => exact erase_ok rep ordinary
  | find key written =>
    have isKey : Ordinary key := ordinary
    obtain ⟨r, run, spec⟩ := find_ordinary rep isKey
    cases written with
    | none => exact ⟨t, by rw [TableCall.run, run]; rfl, rep⟩
    | some value =>
      rw [TableCall.run, run, ok_bind, TableCall.apply]
      cases r with
      | none =>
        rw [show m key = none from spec, Option.map_none, ← show m key = none from spec,
          Function.update_eq_self]
        exact ⟨t, rfl, rep⟩
      | some i =>
        obtain ⟨small, here, flag⟩ := spec
        obtain ⟨t', wrote, rep'⟩ := assign_ok rep small value
        rw [here, if_pos isKey] at rep'
        rw [flag]
        exact ⟨t', wrote, rep'⟩

/-- A `set` that has to double a table which uint32 has no room to double. -/
def Outgrown (t : KillFlagTable) : TableCall → Prop
  | .set _ _ => t.Loaded ∧ uint32 ≤ t.slots.size * 2
  | _ => False

theorem call_cases (rep : TableRep t m) (c : TableCall) (ordinary : Ordinary c.key) :
    (c.run t = .error .tableCapacity ∧ t.Outgrown c) ∨
    ∃ t', c.run t = .ok t' ∧ TableRep t' (c.apply m) := by
  cases c with
  | set key value =>
    rcases set_sized rep ordinary value with ⟨full, outgrown⟩ | ⟨t', run, rep', _⟩
    · exact Or.inl ⟨full, outgrown⟩
    · exact Or.inr ⟨t', run, rep'⟩
  | erase key => exact Or.inr (unset_ok rep (fun _ _ h => by cases h) ordinary)
  | find key written => exact Or.inr (unset_ok rep (fun _ _ h => by cases h) ordinary)

/-- Up to a call that fails the table has kept to its map. -/
theorem runCalls_cases (calls : List TableCall) : ∀ {t : KillFlagTable} {m : Int → Option Bool},
    TableRep t m → (∀ c ∈ calls, Ordinary c.key) →
    (∃ t', t.runCalls calls = .ok t' ∧ TableRep t' (calls.foldl TableCall.apply m)) ∨
    (t.runCalls calls = .error .tableCapacity ∧ ∃ before c after u,
      calls = before ++ c :: after ∧ t.runCalls before = .ok u ∧
      TableRep u (before.foldl TableCall.apply m) ∧ u.Outgrown c) := by
  unfold runCalls
  induction calls with
  | nil => exact fun rep _ => Or.inl ⟨_, rfl, rep⟩
  | cons c calls ih =>
    intro t m rep ordinary
    rw [List.foldlM_cons, List.foldl_cons]
    rcases call_cases rep c (ordinary c (by simp)) with ⟨full, outgrown⟩ | ⟨t', run, rep'⟩
    · rw [full]
      exact Or.inr ⟨rfl, [], c, calls, t, rfl, rfl, rep, outgrown⟩
    · rw [run, ok_bind]
      rcases ih rep' fun c' member => ordinary c' (List.mem_cons_of_mem _ member) with
        returned | ⟨failed, before, last, after, u, rfl, ran, kept, outgrown⟩
      · exact Or.inl returned
      · refine Or.inr ⟨failed, c :: before, last, after, u, rfl, ?_, kept, outgrown⟩
        rw [List.foldlM_cons, run, ok_bind]
        exact ran

end

/-- After any calls a new table answers as the map of what was last written. Only a `set` can
    fail, and only on a table that is due to be doubled and too large for that; up to there the
    table has answered as the map. No probe is endless. -/
theorem table_refines_map (calls : List TableCall) (ordinary : ∀ c ∈ calls, Ordinary c.key) :
    (∃ t, new.runCalls calls = .ok t ∧ t.Refines (lastWritten calls)) ∨
    (new.runCalls calls = .error .tableCapacity ∧ ∃ before c after t,
      calls = before ++ c :: after ∧ new.runCalls before = .ok t ∧
      t.Refines (lastWritten before) ∧ t.Outgrown c) := by
  rcases runCalls_cases calls new_rep ordinary with
    ⟨t, run, rep⟩ | ⟨full, before, c, after, t, split, ran, rep, outgrown⟩
  · exact Or.inl ⟨t, run, refines_of_rep rep⟩
  · exact Or.inr ⟨full, before, c, after, t, split, ran, refines_of_rep rep, outgrown⟩

def reuse : List TableCall :=
  [.set 7 false, .find 7 (some true), .erase 7, .find 7 (some false), .set 7 false]

theorem table_refines_map_reuse : ∃ t, new.runCalls reuse = .ok t ∧
    t.Refines (lastWritten reuse) ∧ (∃ kf, t.find 7 = .ok (some kf) ∧ t.deref kf = .ok false) ∧
    t.find 8 = .ok none := by
  obtain ⟨t, run⟩ := exists_ok (x := new.runCalls reuse) (by decide +kernel)
  rcases table_refines_map reuse (by decide) with ⟨u, ran, refines⟩ | ⟨failed, _⟩
  · cases run.symm.trans ran
    refine ⟨t, run, refines, ?_, ?_⟩
    · exact (refines.found 7 false (by decide)).mp (by decide)
    · exact (refines.missing 8 (by decide)).mpr (by decide)
  · cases run.symm.trans failed

end KillFlagTable
end MarketBookExchange
