import MarketBookExchange.KillFlagTable
import MarketBookExchange.Lib.LinearProbing

/- What the kill table stands for: a finite map from ids to flags. The two marker values
   are not ids, so looking them up finds an empty slot or a tombstone and changes no flag. -/
namespace MarketBookExchange
open Vectors LinearProbing Outcome

namespace KillFlagTable

/-- A key that is not one of the two slot markers. -/
def Ordinary (key : Int) : Prop := key ≠ emptyKey ∧ key ≠ tombstoneKey

instance (key : Int) : Decidable (Ordinary key) := inferInstanceAs (Decidable (_ ∧ _))

theorem ordinary_of_nonneg {key : Int} (h : 0 ≤ key) : Ordinary key := by
  simp only [Ordinary, emptyKey, tombstoneKey]
  omega

def cellOf (s : Slot) : Cell Int :=
  if s.key = emptyKey then .empty else if s.key = tombstoneKey then .tombstone else .live s.key

theorem cellOf_live {s : Slot} {key : Int} : cellOf s = .live key ↔ s.key = key ∧ Ordinary key := by
  unfold cellOf Ordinary
  split
  · simp_all
  · split
    · simp_all
    · simp only [Cell.live.injEq]
      constructor
      · rintro rfl
        exact ⟨rfl, ‹_›, ‹_›⟩
      · exact fun h => h.1

theorem cellOf_empty {s : Slot} : cellOf s = .empty ↔ s.key = emptyKey := by
  unfold cellOf
  split
  · simp_all
  · split <;> simp_all

theorem cellOf_tombstone {s : Slot} : cellOf s = .tombstone ↔ s.key = tombstoneKey := by
  unfold cellOf
  split
  · rename_i h
    simp [h, emptyKey, tombstoneKey]
  · split <;> simp_all

def cell (t : KillFlagTable) (i : Nat) : Cell Int := cellOf (t.slots.get i)

/-- The memory of the table, whatever flags it holds. -/
structure TableInv (t : KillFlagTable) : Prop where
  shape : ∃ k, 0 < k ∧ t.slots.size = 2 ^ k
  small : t.slots.size < uint32
  mask : t.mask = t.slots.size - 1
  probed : Probed t.slots.size hashKey t.cell
  live : t.liveCount = count Cell.isLive t.slots.size t.cell
  tombstones : t.tombstoneCount = count Cell.isTombstone t.slots.size t.cell
  room : t.liveCount + t.tombstoneCount < t.slots.size

/-- The table stores exactly the flags of `m`. -/
structure TableRep (t : KillFlagTable) (m : Int → Option Bool) : Prop where
  inv : TableInv t
  flags : ∀ key v, m key = some v ↔ Ordinary key ∧ ∃ i < t.slots.size, t.slots.get i = ⟨key, v⟩

section
variable {t : KillFlagTable}

theorem TableInv.pos (inv : TableInv t) : 0 < t.slots.size := by
  obtain ⟨k, _, size⟩ := inv.shape
  rw [size]
  exact Nat.two_pow_pos k

theorem TableInv.and_mask (inv : TableInv t) (n : Nat) : n &&& t.mask = n % t.slots.size := by
  obtain ⟨k, _, size⟩ := inv.shape
  rw [inv.mask, size]
  exact Nat.and_two_pow_sub_one_eq_mod n k

theorem isLive_cell (t : KillFlagTable) (i : Nat) :
    (t.cell i).isLive = decide (Ordinary (t.slots.get i).key) := by
  unfold cell cellOf Ordinary
  split
  · simp_all [Cell.isLive]
  · split <;> simp_all [Cell.isLive]

theorem isTombstone_cell (t : KillFlagTable) (i : Nat) :
    (t.cell i).isTombstone = decide ((t.slots.get i).key = tombstoneKey) := by
  unfold cell cellOf
  split
  · rename_i h
    simp [Cell.isTombstone, h, emptyKey, tombstoneKey]
  · split <;> simp_all [Cell.isTombstone]

theorem TableInv.live_eq (inv : TableInv t) :
    t.liveCount = (List.range t.slots.size).countP fun i => Ordinary (t.slots.get i).key := by
  rw [inv.live, count]
  simp only [isLive_cell]

theorem TableInv.tombstones_eq (inv : TableInv t) : t.tombstoneCount =
    (List.range t.slots.size).countP fun i => (t.slots.get i).key = tombstoneKey := by
  rw [inv.tombstones, count]
  simp only [isTombstone_cell]

theorem TableInv.advance (inv : TableInv t) (home d : Nat) :
    (slot t.slots.size home d + 1) % uint32 &&& t.mask = slot t.slots.size home (d + 1) := by
  have low : slot t.slots.size home d < t.slots.size := slot_lt inv.pos
  have wide := inv.small
  rw [Nat.mod_eq_of_lt (Nat.lt_of_le_of_lt low wide), inv.and_mask, slot_succ]

theorem TableInv.home (inv : TableInv t) (key : Int) :
    hashKey key &&& t.mask = slot t.slots.size (hashKey key) 0 := by
  rw [inv.and_mask, slot_zero]

theorem TableInv.exists_empty (inv : TableInv t) :
    ∃ i < t.slots.size, (t.slots.get i).key = emptyKey := by
  have room := inv.room
  rw [inv.live, inv.tombstones] at room
  obtain ⟨i, small, empty⟩ := LinearProbing.exists_empty room
  exact ⟨i, small, cellOf_empty.mp empty⟩

theorem TableInv.stop (inv : TableInv t) (key : Int) :
    ∃ d < t.slots.size,
      ((t.slots.get (slot t.slots.size (hashKey key) d)).key = key ∨
        (t.slots.get (slot t.slots.size (hashKey key) d)).key = emptyKey) ∧
      ∀ e < d, (t.slots.get (slot t.slots.size (hashKey key) e)).key ≠ key ∧
        (t.slots.get (slot t.slots.size (hashKey key) e)).key ≠ emptyKey := by
  obtain ⟨i, small, empty⟩ := inv.exists_empty
  obtain ⟨d, hd, stops, before⟩ := exists_first
    (fun i => (t.slots.get i).key = key ∨ (t.slots.get i).key = emptyKey) (hashKey key)
    ⟨i, small, Or.inr empty⟩
  exact ⟨d, hd, stops, fun e he => not_or.mp (before e he)⟩

theorem findFrom_eq (inv : TableInv t) {key : Int} {d : Nat}
    (stops : (t.slots.get (slot t.slots.size (hashKey key) d)).key = key ∨
      (t.slots.get (slot t.slots.size (hashKey key) d)).key = emptyKey) (fuel : Nat) :
    ∀ e ≤ d, d < e + fuel →
      (∀ c, e ≤ c → c < d → (t.slots.get (slot t.slots.size (hashKey key) c)).key ≠ key ∧
        (t.slots.get (slot t.slots.size (hashKey key) c)).key ≠ emptyKey) →
      t.findFrom key fuel (slot t.slots.size (hashKey key) e) =
        .ok (if (t.slots.get (slot t.slots.size (hashKey key) d)).key = key then
          some (slot t.slots.size (hashKey key) d) else none) := by
  induction fuel with
  | zero => exact fun e he short _ => absurd short (by omega)
  | succ fuel ih =>
    intro e he short passed
    rw [findFrom, Vec.read_ok (slot_lt inv.pos), ok_bind]
    by_cases last : e = d
    · subst last
      by_cases here : (t.slots.get (slot t.slots.size (hashKey key) e)).key = key
      · rw [if_pos here, if_pos here]
        rfl
      · rw [if_neg here, if_neg here, if_pos (stops.resolve_left here)]
        rfl
    · obtain ⟨other, used⟩ := passed e (Nat.le_refl _) (by omega)
      rw [if_neg other, if_neg used, inv.advance]
      exact ih (e + 1) (by omega) (by omega) (fun c low high => passed c (by omega) high)

theorem find_ok (inv : TableInv t) (key : Int) :
    ∃ r, t.find key = .ok r ∧
      (∀ i, r = some i → i < t.slots.size ∧ (t.slots.get i).key = key) ∧
      (r = none → Ordinary key → ∀ i < t.slots.size, (t.slots.get i).key ≠ key) := by
  obtain ⟨d, hd, stops, before⟩ := inv.stop key
  have run := findFrom_eq inv stops t.slots.size 0 (Nat.zero_le _) (by omega)
    (fun c _ high => before c high)
  rw [← inv.home] at run
  refine ⟨_, run, ?_, ?_⟩
  · intro i found
    split at found
    · cases found
      exact ⟨slot_lt inv.pos, ‹_›⟩
    · cases found
  · intro missing ordinary i small here
    split at missing
    · cases missing
    · rename_i notHere
      refine inv.probed.absent (k := key) (cellOf_empty.mpr (stops.resolve_left notHere)) ?_ i small
        (cellOf_live.mpr ⟨here, ordinary⟩)
      intro e he live
      exact (before e he).1 (cellOf_live.mp live).1

end

section
variable {t : KillFlagTable} {m : Int → Option Bool}

theorem TableRep.flag_of_slot (rep : TableRep t m) {i : Nat} (small : i < t.slots.size) {key : Int}
    (ordinary : Ordinary key) (here : (t.slots.get i).key = key) :
    m key = some (t.slots.get i).value :=
  (rep.flags key _).mpr ⟨ordinary, i, small, by rw [← here]⟩

theorem TableRep.none_of_absent (rep : TableRep t m) {key : Int}
    (absent : ∀ i < t.slots.size, (t.slots.get i).key ≠ key) : m key = none := by
  cases found : m key with
  | none => rfl
  | some v =>
    obtain ⟨_, i, small, here⟩ := (rep.flags key v).mp found
    exact absurd (by rw [here]) (absent i small)

theorem TableRep.marker (rep : TableRep t m) {key : Int} (marker : ¬ Ordinary key) :
    m key = none := by
  cases found : m key with
  | none => rfl
  | some v => exact absurd ((rep.flags key v).mp found).1 marker

/-- Where `find` returns null there is no flag, whatever the key. -/
theorem find_none (rep : TableRep t m) {key : Int} (run : t.find key = .ok none) :
    m key = none := by
  obtain ⟨r, found, _, missing⟩ := find_ok rep.inv key
  rw [run] at found
  cases found
  by_cases ordinary : Ordinary key
  · exact rep.none_of_absent (missing rfl ordinary)
  · exact rep.marker ordinary

theorem find_ordinary (rep : TableRep t m) {key : Int} (ordinary : Ordinary key) :
    ∃ r, t.find key = .ok r ∧
      match r with
      | some i => i < t.slots.size ∧ (t.slots.get i).key = key ∧
        m key = some (t.slots.get i).value
      | none => m key = none := by
  obtain ⟨r, run, found, missing⟩ := find_ok rep.inv key
  refine ⟨r, run, ?_⟩
  cases r with
  | none => exact rep.none_of_absent (missing rfl ordinary)
  | some i =>
    obtain ⟨small, here⟩ := found i rfl
    exact ⟨small, here, rep.flag_of_slot small ordinary here⟩

theorem isKilled_ok (rep : TableRep t m) {key : Int} (ordinary : Ordinary key) :
    t.isKilled key = .ok ((m key).getD false) := by
  obtain ⟨r, run, spec⟩ := find_ordinary rep ordinary
  rw [isKilled, run, ok_bind]
  cases r with
  | none =>
    simp only at spec
    rw [spec]
    rfl
  | some i =>
    obtain ⟨small, _, flag⟩ := spec
    have value : t.deref i = .ok (t.slots.get i).value := by
      rw [deref, Vec.read_ok small]
      rfl
    simp only [value, flag, Option.getD_some]

end
section
variable {t t' : KillFlagTable} {m : Int → Option Bool}

theorem cell_set {i : Nat} {s : Slot} (slots : t'.slots = t.slots.set i s) :
    t'.cell = Function.update t.cell i (cellOf s) := by
  funext j
  simp only [cell, slots, Vec.get_set, Function.update_apply]
  split <;> rfl

theorem TableInv.tombstones_pos (inv : TableInv t) {i : Nat} (small : i < t.slots.size)
    (stone : (t.slots.get i).key = tombstoneKey) : 0 < t.tombstoneCount := by
  rw [inv.tombstones]
  apply count_pos small
  rw [isTombstone_cell]
  exact decide_eq_true stone

theorem TableInv.reflag (inv : TableInv t) {i : Nat} {v : Bool}
    (slots : t'.slots = t.slots.set i ⟨(t.slots.get i).key, v⟩) (mask : t'.mask = t.mask)
    (live : t'.liveCount = t.liveCount) (tombstones : t'.tombstoneCount = t.tombstoneCount) :
    TableInv t' := by
  have size : t'.slots.size = t.slots.size := by rw [slots, Vec.size_set]
  have cells : t'.cell = t.cell := by
    rw [cell_set slots]
    exact Function.update_eq_self i t.cell
  refine ⟨?_, ?_, ?_, ?_, ?_, ?_, ?_⟩
  · rw [size]; exact inv.shape
  · rw [size]; exact inv.small
  · rw [mask, size]; exact inv.mask
  · rw [size, cells]; exact inv.probed
  · rw [live, size, cells]; exact inv.live
  · rw [tombstones, size, cells]; exact inv.tombstones
  · rw [live, tombstones, size]; exact inv.room

theorem flags_of_write (rep : TableRep t m) {i : Nat} {key : Int} {v : Bool}
    (ordinary : Ordinary key) (small : i < t.slots.size)
    (slots : t'.slots = t.slots.set i ⟨key, v⟩)
    (own : ∀ k, Ordinary k → (t.slots.get i).key = k → k = key)
    (absent : ∀ j < t.slots.size, (t.slots.get j).key = key → j = i) :
    ∀ k u, Function.update m key (some v) k = some u ↔
      Ordinary k ∧ ∃ j < t'.slots.size, t'.slots.get j = ⟨k, u⟩ := by
  intro k u
  have size : t'.slots.size = t.slots.size := by rw [slots, Vec.size_set]
  rw [size]
  by_cases same : k = key
  · subst same
    rw [Function.update_self]
    constructor
    · intro h
      cases h
      exact ⟨ordinary, i, small, by rw [slots, Vec.get_set_self]⟩
    · rintro ⟨_, j, hj, here⟩
      rw [slots, Vec.get_set] at here
      split at here
      · cases here
        rfl
      · rename_i ne
        exact absurd (absent j hj (by rw [here])) ne
  · rw [Function.update_of_ne same, rep.flags]
    constructor
    · rintro ⟨ok, j, hj, here⟩
      refine ⟨ok, j, hj, ?_⟩
      rw [slots, Vec.get_set_of_ne]
      · exact here
      · rintro rfl
        exact same (own k ok (by rw [here]))
    · rintro ⟨ok, j, hj, here⟩
      refine ⟨ok, j, hj, ?_⟩
      rw [slots, Vec.get_set] at here
      split at here
      · cases here
        exact absurd rfl same
      · exact here

theorem TableRep.put (rep : TableRep t m) {key : Int} (ordinary : Ordinary key) {d : Nat}
    (hd : d < t.slots.size) (v : Bool)
    (vacant : ¬ Ordinary (t.slots.get (slot t.slots.size (hashKey key) d)).key)
    (absent : ∀ j < t.slots.size, (t.slots.get j).key ≠ key)
    (reach : ∀ e < d, (t.slots.get (slot t.slots.size (hashKey key) e)).key ≠ emptyKey)
    (room : t.liveCount + t.tombstoneCount + 1 < t.slots.size)
    (slots : t'.slots = t.slots.set (slot t.slots.size (hashKey key) d) ⟨key, v⟩)
    (mask : t'.mask = t.mask) (live : t'.liveCount = inc32 t.liveCount)
    (tombstones : t'.tombstoneCount =
      if (t.slots.get (slot t.slots.size (hashKey key) d)).key = tombstoneKey then
        dec32 t.tombstoneCount
      else t.tombstoneCount) : TableRep t' (Function.update m key (some v)) := by
  have inv := rep.inv
  have wide := inv.small
  have low : slot t.slots.size (hashKey key) d < t.slots.size := slot_lt inv.pos
  have size : t'.slots.size = t.slots.size := by rw [slots, Vec.size_set]
  have becomes : cellOf ⟨key, v⟩ = .live key := cellOf_live.mpr ⟨rfl, ordinary⟩
  have cells := cell_set slots
  rw [becomes] at cells
  have notLive : ∀ k, t.cell (slot t.slots.size (hashKey key) d) ≠ .live k := by
    intro k here
    obtain ⟨same, ok⟩ := cellOf_live.mp here
    rw [← same] at ok
    exact vacant ok
  have lives := count_update Cell.isLive t.cell low (.live key)
  have tombs := count_update Cell.isTombstone t.cell low (.live key)
  have before : (t.cell (slot t.slots.size (hashKey key) d)).isLive = false := by
    cases here : t.cell (slot t.slots.size (hashKey key) d) with
    | live k => exact absurd here (notLive k)
    | empty => rfl
    | tombstone => rfl
  rw [← cells, ← inv.live, before] at lives
  rw [← cells, ← inv.tombstones] at tombs
  simp only [Cell.isLive, Cell.isTombstone, Bool.toNat_true, Bool.toNat_false] at lives tombs
  have liveNow : t'.liveCount = t.liveCount + 1 := by
    rw [live, inc32_of_lt]
    omega
  have tombsNow : t'.tombstoneCount = count Cell.isTombstone t.slots.size t'.cell ∧
      t'.tombstoneCount ≤ t.tombstoneCount := by
    rw [tombstones]
    split
    · rename_i stone
      have present := inv.tombstones_pos low stone
      have isStone : (t.cell (slot t.slots.size (hashKey key) d)).isTombstone = true := by
        rw [isTombstone_cell]
        exact decide_eq_true stone
      simp only [Cell.isTombstone] at isStone
      rw [isStone, Bool.toNat_true] at tombs
      rw [dec32_of_pos present (by omega)]
      omega
    · rename_i notStone
      have isEmpty : (t.cell (slot t.slots.size (hashKey key) d)).isTombstone = false := by
        rw [isTombstone_cell]
        exact decide_eq_false notStone
      simp only [Cell.isTombstone] at isEmpty
      rw [isEmpty, Bool.toNat_false] at tombs
      omega
  refine ⟨⟨?_, ?_, ?_, ?_, ?_, ?_, ?_⟩, ?_⟩
  · rw [size]; exact inv.shape
  · rw [size]; exact inv.small
  · rw [mask, size]; exact inv.mask
  · rw [size, cells]
    refine inv.probed.put hd notLive (fun j hj here => ?_) (fun e he here => ?_)
    · exact absent j hj (cellOf_live.mp here).1
    · exact reach e he (cellOf_empty.mp here)
  · rw [size]
    omega
  · rw [size]
    exact tombsNow.1
  · rw [size]
    have bound := tombsNow.2
    omega
  · refine flags_of_write rep ordinary low slots (fun k ok here => ?_) (fun j hj here => ?_)
    · rw [← here] at ok
      exact absurd ok vacant
    · exact absurd here (absent j hj)

theorem flags_of_drop (rep : TableRep t m) {i : Nat} {key : Int} {v : Bool}
    (ordinary : Ordinary key) (small : i < t.slots.size) (here : (t.slots.get i).key = key)
    (slots : t'.slots = t.slots.set i ⟨tombstoneKey, v⟩) :
    ∀ k u, Function.update m key none k = some u ↔
      Ordinary k ∧ ∃ j < t'.slots.size, t'.slots.get j = ⟨k, u⟩ := by
  intro k u
  have size : t'.slots.size = t.slots.size := by rw [slots, Vec.size_set]
  rw [size]
  by_cases same : k = key
  · subst same
    rw [Function.update_self]
    constructor
    · intro h
      cases h
    · rintro ⟨_, j, hj, there⟩
      rw [slots, Vec.get_set] at there
      split at there
      · cases there
        exact absurd rfl ordinary.2
      · rename_i ne
        have inSlot : (t.slots.get j).key = k := by rw [there]
        exact absurd (rep.inv.probed.unique k j i hj small (cellOf_live.mpr ⟨inSlot, ordinary⟩)
          (cellOf_live.mpr ⟨here, ordinary⟩)) ne
  · rw [Function.update_of_ne same, rep.flags]
    refine and_congr_right fun ok => ?_
    refine exists_congr fun j => and_congr_right fun _ => ?_
    rw [slots, Vec.get_set]
    split
    · rename_i stands
      subst stands
      constructor
      · intro h
        rw [h] at here
        exact absurd here same
      · intro h
        cases h
        exact absurd rfl ok.2
    · rfl

theorem TableRep.drop (rep : TableRep t m) {i : Nat} (small : i < t.slots.size) {key : Int}
    (ordinary : Ordinary key) (here : (t.slots.get i).key = key) (v : Bool)
    (slots : t'.slots = t.slots.set i ⟨tombstoneKey, v⟩) (mask : t'.mask = t.mask)
    (live : t'.liveCount = dec32 t.liveCount)
    (tombstones : t'.tombstoneCount = inc32 t.tombstoneCount) :
    TableRep t' (Function.update m key none) := by
  have inv := rep.inv
  have wide := inv.small
  have room := inv.room
  have size : t'.slots.size = t.slots.size := by rw [slots, Vec.size_set]
  have cells := cell_set slots
  rw [show cellOf ⟨tombstoneKey, v⟩ = .tombstone from cellOf_tombstone.mpr rfl] at cells
  have was : t.cell i = .live key := cellOf_live.mpr ⟨here, ordinary⟩
  have lives := count_update Cell.isLive t.cell small .tombstone
  have tombs := count_update Cell.isTombstone t.cell small .tombstone
  have present : 0 < t.liveCount := by
    rw [inv.live]
    exact count_pos small (by rw [was]; rfl)
  rw [← cells, ← inv.live, was] at lives
  rw [← cells, ← inv.tombstones, was] at tombs
  simp only [Cell.isLive, Cell.isTombstone, Bool.toNat_true, Bool.toNat_false] at lives tombs
  have liveNow : t'.liveCount = t.liveCount - 1 := by
    rw [live]
    exact dec32_of_pos present (by omega)
  have tombsNow : t'.tombstoneCount = t.tombstoneCount + 1 := by
    rw [tombstones]
    exact inc32_of_lt (by omega)
  refine ⟨⟨?_, ?_, ?_, ?_, ?_, ?_, ?_⟩, flags_of_drop rep ordinary small here slots⟩
  · rw [size]; exact inv.shape
  · rw [size]; exact inv.small
  · rw [mask, size]; exact inv.mask
  · rw [size, cells]; exact inv.probed.drop i
  · rw [size]; omega
  · rw [size]; omega
  · rw [size]; omega

theorem TableRep.overwrite (rep : TableRep t m) {i : Nat} (small : i < t.slots.size) {key : Int}
    (ordinary : Ordinary key) (here : (t.slots.get i).key = key) (v : Bool)
    (slots : t'.slots = t.slots.set i ⟨key, v⟩) (mask : t'.mask = t.mask)
    (live : t'.liveCount = t.liveCount) (tombstones : t'.tombstoneCount = t.tombstoneCount) :
    TableRep t' (Function.update m key (some v)) := by
  refine ⟨rep.inv.reflag (by rw [here]; exact slots) mask live tombstones, ?_⟩
  refine flags_of_write rep ordinary small slots (fun k _ same => same.symm.trans here) ?_
  intro j hj there
  exact rep.inv.probed.unique key j i hj small (cellOf_live.mpr ⟨there, ordinary⟩)
    (cellOf_live.mpr ⟨here, ordinary⟩)

end

section
variable {t : KillFlagTable} {m : Int → Option Bool}

theorem assign_eq {i : Nat} (small : i < t.slots.size) (v : Bool) : t.assign i v =
    .ok { t with slots := t.slots.set i ⟨(t.slots.get i).key, v⟩ } := by
  simp [assign, Vec.read_ok small, Vec.write_ok small]

theorem assign_ok (rep : TableRep t m) {i : Nat} (small : i < t.slots.size) (v : Bool) :
    ∃ t', t.assign i v = .ok t' ∧ TableRep t'
      (if Ordinary (t.slots.get i).key then Function.update m (t.slots.get i).key (some v)
        else m) := by
  refine ⟨_, assign_eq small v, ?_⟩
  split
  · rename_i ordinary
    exact rep.overwrite small ordinary rfl v rfl rfl rfl rfl
  · rename_i marker
    refine ⟨rep.inv.reflag rfl rfl rfl rfl, fun key u => ?_⟩
    rw [rep.flags]
    have same : ∀ j, Ordinary key → ((t.slots.set i { t.slots.get i with value := v }).get j =
        ⟨key, u⟩ ↔ t.slots.get j = ⟨key, u⟩) := by
      intro j ordinary
      rw [Vec.get_set]
      split
      · rename_i here
        subst here
        constructor
        · intro h
          cases h
          exact absurd ordinary marker
        · intro h
          rw [h] at marker
          exact absurd ordinary marker
      · rfl
    constructor
    · rintro ⟨ordinary, j, hj, here⟩
      exact ⟨ordinary, j, hj, (same j ordinary).mpr here⟩
    · rintro ⟨ordinary, j, hj, here⟩
      exact ⟨ordinary, j, hj, (same j ordinary).mp here⟩

theorem erase_ok (rep : TableRep t m) {key : Int} (ordinary : Ordinary key) :
    ∃ t', t.erase key = .ok t' ∧ TableRep t' (Function.update m key none) := by
  obtain ⟨r, run, spec⟩ := find_ordinary rep ordinary
  have located : t.locateForFind key = .ok r := run
  cases r with
  | none =>
    refine ⟨t, by rw [erase, located]; rfl, ?_⟩
    have same : Function.update m key none = m := by
      rw [← show m key = none from spec, Function.update_eq_self]
    rw [same]
    exact rep
  | some i =>
    obtain ⟨small, here, _⟩ := spec
    obtain ⟨t', defn⟩ : ∃ t' : KillFlagTable, t' =
        { t with
          slots := t.slots.set i { t.slots.get i with key := tombstoneKey }
          liveCount := dec32 t.liveCount
          tombstoneCount := inc32 t.tombstoneCount } := ⟨_, rfl⟩
    refine ⟨t', by rw [erase, located, defn]; simp [Vec.read_ok small, Vec.write_ok small], ?_⟩
    apply rep.drop small ordinary here (t.slots.get i).value
    · rw [defn]
    · rw [defn]
    · rw [defn]
    · rw [defn]

/-- What the insertion loop returns from any point of the path, with a tombstone in hand
    or not. -/
theorem insertFrom_cases (inv : TableInv t) {key : Int} {d : Nat}
    (stops : (t.slots.get (slot t.slots.size (hashKey key) d)).key = key ∨
      (t.slots.get (slot t.slots.size (hashKey key) d)).key = emptyKey) (fuel : Nat) :
    ∀ e ≤ d, d < e + fuel →
      (∀ c, e ≤ c → c < d → (t.slots.get (slot t.slots.size (hashKey key) c)).key ≠ key ∧
        (t.slots.get (slot t.slots.size (hashKey key) c)).key ≠ emptyKey) →
      ∀ firstTombstone : Option Nat,
      (∀ i, firstTombstone = some i → ∃ c < d, i = slot t.slots.size (hashKey key) c ∧
        (t.slots.get i).key = tombstoneKey) →
      ∃ c ≤ d, t.insertFrom key fuel (slot t.slots.size (hashKey key) e) firstTombstone =
          .ok (slot t.slots.size (hashKey key) c) ∧
        if (t.slots.get (slot t.slots.size (hashKey key) d)).key = key then c = d
        else (t.slots.get (slot t.slots.size (hashKey key) c)).key = tombstoneKey ∨ c = d := by
  induction fuel with
  | zero => exact fun e he short _ => absurd short (by omega)
  | succ fuel ih =>
    intro e he short passed firstTombstone held
    rw [insertFrom, Vec.read_ok (slot_lt inv.pos), ok_bind]
    by_cases last : e = d
    · subst last
      by_cases here : (t.slots.get (slot t.slots.size (hashKey key) e)).key = key
      · exact ⟨e, Nat.le_refl _, by rw [if_pos here, pure_eq_ok], by rw [if_pos here]⟩
      · rw [if_neg here, if_pos (stops.resolve_left here)]
        cases firstTombstone with
        | none =>
          refine ⟨e, Nat.le_refl _, ?_, by rw [if_neg here]; exact Or.inr rfl⟩
          rw [Option.getD_none, pure_eq_ok]
        | some i =>
          obtain ⟨c, hc, stands, stone⟩ := held i rfl
          rw [stands] at stone
          refine ⟨c, Nat.le_of_lt hc, ?_, by rw [if_neg here]; exact Or.inl stone⟩
          rw [Option.getD_some, pure_eq_ok, stands]
    · obtain ⟨other, used⟩ := passed e (Nat.le_refl _) (by omega)
      rw [if_neg other, if_neg used, inv.advance]
      refine ih (e + 1) (by omega) (by omega) (fun c low high => passed c (by omega) high) _ ?_
      intro i now
      split at now
      · rename_i stone
        have stands : slot t.slots.size (hashKey key) e = i := by injection now
        rw [← stands]
        exact ⟨e, by omega, rfl, stone.1⟩
      · exact held i now

/-- Where an id goes: its own slot, or one on its path that no other id uses. -/
theorem locateForInsert_ok (inv : TableInv t) {key : Int} (ordinary : Ordinary key) :
    ∃ d < t.slots.size, t.locateForInsert key = .ok (slot t.slots.size (hashKey key) d) ∧
      ((t.slots.get (slot t.slots.size (hashKey key) d)).key = key ∨
        ¬ Ordinary (t.slots.get (slot t.slots.size (hashKey key) d)).key ∧
        (∀ j < t.slots.size, (t.slots.get j).key ≠ key) ∧
        ∀ e < d, (t.slots.get (slot t.slots.size (hashKey key) e)).key ≠ emptyKey) := by
  obtain ⟨d, hd, stops, before⟩ := inv.stop key
  obtain ⟨c, hc, run, chosen⟩ := insertFrom_cases inv stops t.slots.size 0 (Nat.zero_le _)
    (by omega) (fun c _ high => before c high) none (by simp)
  rw [← inv.home] at run
  refine ⟨c, Nat.lt_of_le_of_lt hc hd, run, ?_⟩
  by_cases here : (t.slots.get (slot t.slots.size (hashKey key) d)).key = key
  · rw [if_pos here] at chosen
    subst chosen
    exact Or.inl here
  · rw [if_neg here] at chosen
    have ended := stops.resolve_left here
    refine Or.inr ⟨?_, ?_, fun e he => (before e (by omega)).2⟩
    · rcases chosen with stone | last
      · exact fun ok => ok.2 stone
      · subst last
        exact fun ok => ok.1 ended
    · intro j hj there
      refine inv.probed.absent (k := key) (cellOf_empty.mpr ended) ?_ j hj
        (cellOf_live.mpr ⟨there, ordinary⟩)
      intro e he live
      exact (before e he).1 (cellOf_live.mp live).1

theorem fresh_rep {k : Nat} (pos : 0 < k) (small : 2 ^ k < uint32) :
    TableRep (fresh (2 ^ k)) fun _ => none := by
  have cells : (fresh (2 ^ k)).cell = fun _ => .empty := by
    funext i
    exact cellOf_empty.mpr rfl
  have nothing : ∀ (p : Cell Int → Bool) (n : Nat), p .empty = false →
      count p n (fun _ => .empty) = 0 := by
    intro p n h
    rw [count, List.countP_eq_zero]
    simp [h]
  refine ⟨⟨⟨k, pos, rfl⟩, small, rfl, ?_, ?_, ?_, Nat.two_pow_pos k⟩, fun key v => ?_⟩
  · rw [cells]
    exact probed_empty _ _
  · rw [cells, nothing _ _ rfl]
    rfl
  · rw [cells, nothing _ _ rfl]
    rfl
  · constructor
    · intro h
      cases h
    · rintro ⟨ordinary, i, _, here⟩
      cases here
      exact absurd rfl ordinary.1

theorem new_rep : TableRep new fun _ => none := fresh_rep (k := 12) (by decide) (by decide)

end

section
variable {t : KillFlagTable} {m : Int → Option Bool}

def firstFlags (t : KillFlagTable) (m : Int → Option Bool) (n : Nat) (key : Int) : Option Bool :=
  if ∃ j < n, (t.slots.get j).key = key then m key else none

theorem firstFlags_succ (n : Nat) : firstFlags t m (n + 1) =
    Function.update (firstFlags t m n) (t.slots.get n).key (m (t.slots.get n).key) := by
  funext key
  rw [Function.update_apply]
  by_cases last : key = (t.slots.get n).key
  · rw [if_pos last, firstFlags, if_pos ⟨n, Nat.lt_succ_self n, last.symm⟩, last]
  · rw [if_neg last, firstFlags, firstFlags]
    have same : (∃ j < n + 1, (t.slots.get j).key = key) ↔ ∃ j < n, (t.slots.get j).key = key := by
      constructor
      · rintro ⟨j, hj, here⟩
        rcases Nat.lt_succ_iff_lt_or_eq.mp hj with before | rfl
        · exact ⟨j, before, here⟩
        · exact absurd here.symm last
      · rintro ⟨j, hj, here⟩
        exact ⟨j, Nat.lt_succ_of_lt hj, here⟩
    simp only [same]

theorem firstFlags_all (rep : TableRep t m) : firstFlags t m t.slots.size = m := by
  funext key
  rw [firstFlags]
  split
  · rfl
  · rename_i missing
    cases found : m key with
    | none => rfl
    | some v =>
      obtain ⟨_, i, small, here⟩ := (rep.flags key v).mp found
      exact absurd ⟨i, small, by rw [here]⟩ missing

theorem reinsert_eq (u : KillFlagTable) (s : Slot) : u.reinsert s =
    if Ordinary s.key then do
      let idx ← u.locateForInsert s.key
      let slots ← u.slots.write .slotIndex idx s
      pure { u with slots, liveCount := inc32 u.liveCount }
    else pure u := rfl

/-- Moving one more slot over: an id of the old table is not yet in the new one. -/
theorem reinsert_ok (rep : TableRep t m) {n : Nat} (hn : n < t.slots.size) {u : KillFlagTable}
    (moved : TableRep u (firstFlags t m n)) (stones : u.tombstoneCount = 0)
    (room : u.liveCount + 1 < u.slots.size) :
    ∃ u', u.reinsert (t.slots.get n) = .ok u' ∧ TableRep u' (firstFlags t m (n + 1)) ∧
      u'.tombstoneCount = 0 ∧
      u'.liveCount = u.liveCount + (if Ordinary (t.slots.get n).key then 1 else 0) ∧
      u'.slots.size = u.slots.size := by
  rw [firstFlags_succ]
  by_cases ordinary : Ordinary (t.slots.get n).key
  · obtain ⟨d, hd, run, place⟩ := locateForInsert_ok moved.inv ordinary
    have low : slot u.slots.size (hashKey (t.slots.get n).key) d < u.slots.size :=
      slot_lt moved.inv.pos
    have newKey : ∀ j < u.slots.size, (u.slots.get j).key ≠ (t.slots.get n).key := by
      intro j hj here
      have flag := moved.flag_of_slot hj ordinary here
      rw [firstFlags] at flag
      split at flag
      · rename_i earlier
        obtain ⟨j', hj', same⟩ := earlier
        have clash := rep.inv.probed.unique _ j' n (by omega) hn
          (cellOf_live.mpr ⟨same, ordinary⟩) (cellOf_live.mpr ⟨rfl, ordinary⟩)
        omega
      · cases flag
    have free := place.resolve_left (newKey _ low)
    have notStone : (u.slots.get (slot u.slots.size (hashKey (t.slots.get n).key) d)).key ≠
        tombstoneKey := by
      intro stone
      have present := moved.inv.tombstones_pos low stone
      omega
    have flag : m (t.slots.get n).key = some (t.slots.get n).value :=
      rep.flag_of_slot hn ordinary rfl
    obtain ⟨u', defn⟩ : ∃ u' : KillFlagTable, u' =
        { u with
          slots := u.slots.set (slot u.slots.size (hashKey (t.slots.get n).key) d) (t.slots.get n)
          liveCount := inc32 u.liveCount } := ⟨_, rfl⟩
    have wide := moved.inv.small
    have counted : u'.liveCount = u.liveCount + 1 := by
      rw [defn]
      exact inc32_of_lt (by omega)
    refine ⟨u', ?_, ?_, by rw [defn]; exact stones, by rw [if_pos ordinary, counted],
      by rw [defn]; rfl⟩
    · rw [reinsert_eq, if_pos ordinary, run, ok_bind, Vec.write_ok low, ok_bind, pure_eq_ok, defn]
    · rw [flag]
      refine moved.put ordinary hd _ free.1 newKey free.2.2 (by omega) (by rw [defn]) (by rw [defn])
        (by rw [defn]) ?_
      rw [if_neg notStone, defn]
  · refine ⟨u, ?_, ?_, stones, by rw [if_neg ordinary, Nat.add_zero], rfl⟩
    · rw [reinsert_eq, if_neg ordinary]
      rfl
    · rw [rep.marker ordinary, ← moved.marker ordinary, Function.update_eq_self]
      exact moved

theorem rehash_ok (rep : TableRep t m) (small : t.slots.size * 2 < uint32) :
    ∃ u, t.rehash (t.slots.size * 2) = .ok u ∧ TableRep u m ∧
      u.slots.size = t.slots.size * 2 ∧ u.tombstoneCount = 0 ∧ u.liveCount = t.liveCount := by
  obtain ⟨k, pos, size⟩ := rep.inv.shape
  have double : t.slots.size * 2 = 2 ^ (k + 1) := by rw [size, Nat.pow_succ]
  have two : 2 ≤ t.slots.size := by
    rw [size]
    exact Nat.le_self_pow (Nat.ne_of_gt pos) 2
  have walk : ∀ n ≤ t.slots.size, ∃ u,
      (List.range n).foldlM (fun u i => u.reinsert (t.slots.get i)) (fresh (t.slots.size * 2)) =
        .ok u ∧ TableRep u (firstFlags t m n) ∧ u.tombstoneCount = 0 ∧
      u.liveCount = ((List.range n).countP fun i => Ordinary (t.slots.get i).key) ∧
      u.slots.size = t.slots.size * 2 := by
    intro n
    induction n with
    | zero =>
      intro _
      have start := fresh_rep (k := k + 1) (Nat.succ_pos k) (by rw [← double]; exact small)
      rw [← double] at start
      have nothing : firstFlags t m 0 = fun _ => none := by
        funext key
        simp [firstFlags]
      exact ⟨_, rfl, by rw [nothing]; exact start, rfl, rfl, rfl⟩
    | succ n ih =>
      intro hn
      obtain ⟨u, run, moved, stones, counted, wide⟩ := ih (by omega)
      have few := List.countP_le_length (p := fun i => Ordinary (t.slots.get i).key)
        (l := List.range n)
      rw [List.length_range] at few
      obtain ⟨u', turn, moved', stones', counted', wide'⟩ :=
        reinsert_ok rep hn moved stones (by omega)
      refine ⟨u', ?_, moved', stones', ?_, by omega⟩
      · rw [List.range_succ, List.foldlM_append, run, ok_bind, List.foldlM_cons, turn]
        rfl
      · rw [counted', counted, List.range_succ, List.countP_append, List.countP_singleton]
        simp only [decide_eq_true_eq]
  obtain ⟨u, run, moved, stones, counted, wide⟩ := walk t.slots.size (Nat.le_refl _)
  rw [firstFlags_all rep] at moved
  exact ⟨u, run, moved, wide, stones, by rw [counted, rep.inv.live_eq]⟩

/-- The load at which `maybe_grow` doubles the table; tombstones count. -/
def Loaded (t : KillFlagTable) : Prop :=
  (t.liveCount + t.tombstoneCount + 1) * 10 ≥ t.slots.size * 6

instance (t : KillFlagTable) : Decidable t.Loaded :=
  inferInstanceAs (Decidable (_ ≥ _))

theorem maybeGrow_eq (t : KillFlagTable) : t.maybeGrow =
    if t.Loaded then
      if t.slots.size * 2 ≥ uint32 then throw Fault.tableCapacity
      else t.rehash (t.slots.size * 2)
    else pure t := rfl

/-- What `maybe_grow` leaves: the flags, room for one more, and no new tombstone. -/
structure Grown (t u : KillFlagTable) (m : Int → Option Bool) : Prop where
  rep : TableRep u m
  room : u.liveCount + u.tombstoneCount + 1 < u.slots.size
  size : u.slots.size = if t.Loaded then t.slots.size * 2 else t.slots.size
  stones : u.tombstoneCount ≤ t.tombstoneCount

theorem maybeGrow_cases (rep : TableRep t m) :
    (t.maybeGrow = .error .tableCapacity ∧ t.Loaded ∧ uint32 ≤ t.slots.size * 2) ∨
    ∃ u, t.maybeGrow = .ok u ∧ Grown t u m := by
  have room := rep.inv.room
  have pos := rep.inv.pos
  rw [maybeGrow_eq]
  by_cases loaded : t.Loaded
  · by_cases huge : t.slots.size * 2 ≥ uint32
    · exact Or.inl ⟨by rw [if_pos loaded, if_pos huge]; rfl, loaded, huge⟩
    · rw [if_pos loaded, if_neg huge]
      obtain ⟨u, run, moved, wide, stones, counted⟩ := rehash_ok rep (by omega)
      refine Or.inr ⟨u, run, moved, by omega, ?_, by omega⟩
      rw [wide, if_pos loaded]
  · refine Or.inr ⟨t, by rw [if_neg loaded]; rfl, rep, ?_, ?_, Nat.le_refl _⟩
    · unfold Loaded at loaded
      omega
    · rw [if_neg loaded]

theorem dec32_tombstones (inv : TableInv t) {i : Nat} (small : i < t.slots.size)
    (stone : (t.slots.get i).key = tombstoneKey) :
    dec32 t.tombstoneCount ≤ t.tombstoneCount := by
  have present := inv.tombstones_pos small stone
  have room := inv.room
  have wide := inv.small
  rw [dec32_of_pos present (by omega)]
  omega

/-- A `set` fails only to double the table. -/
theorem set_sized (rep : TableRep t m) {key : Int} (ordinary : Ordinary key) (v : Bool) :
    (t.set key v = .error .tableCapacity ∧ t.Loaded ∧ uint32 ≤ t.slots.size * 2) ∨
    ∃ t', t.set key v = .ok t' ∧ TableRep t' (Function.update m key (some v)) ∧
      (t'.slots.size = if t.Loaded then t.slots.size * 2 else t.slots.size) ∧
      t'.tombstoneCount ≤ t.tombstoneCount := by
  rcases maybeGrow_cases rep with ⟨full, loaded, huge⟩ | ⟨u, grown, more⟩
  · exact Or.inl ⟨by rw [set, full]; rfl, loaded, huge⟩
  right
  have moved := more.rep
  obtain ⟨d, hd, run, place⟩ := locateForInsert_ok moved.inv ordinary
  have low : slot u.slots.size (hashKey key) d < u.slots.size := slot_lt moved.inv.pos
  rw [set, grown, ok_bind, run, ok_bind, Vec.read_ok low, ok_bind]
  by_cases here : (u.slots.get (slot u.slots.size (hashKey key) d)).key = key
  · rw [if_neg (fun ne => ne here)]
    simp only [Vec.write_ok low, ok_bind, pure_eq_ok]
    exact ⟨_, rfl, moved.overwrite low ordinary here v rfl rfl rfl rfl, more.size, more.stones⟩
  · obtain ⟨vacant, absent, reach⟩ := place.resolve_left here
    rw [if_pos here]
    simp only [Vec.write_ok low, ok_bind, pure_eq_ok]
    refine ⟨_, rfl, moved.put ordinary hd v vacant absent reach more.room rfl rfl rfl rfl,
      more.size, ?_⟩
    simp only
    split
    · rename_i stone
      exact (dec32_tombstones moved.inv low stone).trans more.stones
    · exact more.stones

theorem set_cases (rep : TableRep t m) {key : Int} (ordinary : Ordinary key) (v : Bool) :
    t.set key v = .error .tableCapacity ∨
    ∃ t', t.set key v = .ok t' ∧ TableRep t' (Function.update m key (some v)) := by
  rcases set_sized rep ordinary v with ⟨full, _⟩ | ⟨t', run, rep', _⟩
  · exact Or.inl full
  · exact Or.inr ⟨t', run, rep'⟩

end

end KillFlagTable
end MarketBookExchange
