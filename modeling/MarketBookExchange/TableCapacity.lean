import MarketBookExchange.KillFlagMap
import Mathlib.Data.Finset.Card

/- How large the kill table grows. Tombstones count as load and a table that is full of them is
   doubled like any other, so its size follows the keys that were, not the keys that are. -/
namespace MarketBookExchange
open Vectors Outcome

namespace KillFlagTable

def TableCall.keep (keys : Finset Int) : TableCall → Finset Int
  | set key _ => insert key keys
  | find _ _ => keys
  | erase key => keys.erase key

/-- The keys that were set and not erased since. -/
def liveKeys (calls : List TableCall) : Finset Int := calls.foldl TableCall.keep ∅

section Count
variable {t : KillFlagTable} {m : Int → Option Bool}

theorem mem_keep {keys : Finset Int} (listed : ∀ key, key ∈ keys ↔ m key ≠ none) (c : TableCall)
    (key : Int) : key ∈ c.keep keys ↔ c.apply m key ≠ none := by
  cases c with
  | set k v =>
    unfold TableCall.keep TableCall.apply
    by_cases same : key = k
    · simp [same]
    · simp [same, listed]
  | find k written =>
    unfold TableCall.keep
    cases written with
    | none => exact listed key
    | some v =>
      unfold TableCall.apply
      by_cases same : key = k
      · subst same
        simp [listed]
      · simp [same, listed]
  | erase k =>
    unfold TableCall.keep TableCall.apply
    by_cases same : key = k
    · simp [same]
    · simp [same, listed]

theorem mem_liveKeys (calls : List TableCall) (key : Int) :
    key ∈ liveKeys calls ↔ lastWritten calls key ≠ none := by
  have walk : ∀ (keys : Finset Int) (m : Int → Option Bool),
      (∀ key, key ∈ keys ↔ m key ≠ none) → ∀ key,
      key ∈ calls.foldl TableCall.keep keys ↔ calls.foldl TableCall.apply m key ≠ none := by
    induction calls with
    | nil => exact fun _ _ shape => shape
    | cons c calls ih => exact fun keys m shape => ih _ _ (mem_keep shape c)
  exact walk ∅ _ (by simp) key

theorem liveCount_eq_card (rep : TableRep t m) {keys : Finset Int}
    (listed : ∀ key, key ∈ keys ↔ m key ≠ none) : t.liveCount = keys.card := by
  have image : keys = ((Finset.range t.slots.size).filter fun i =>
      Ordinary (t.slots.get i).key).image fun i => (t.slots.get i).key := by
    ext key
    rw [listed, Option.ne_none_iff_exists']
    simp only [rep.flags, Finset.mem_image, Finset.mem_filter, Finset.mem_range]
    constructor
    · rintro ⟨v, ordinary, i, small, here⟩
      exact ⟨i, ⟨small, by rwa [here]⟩, by rw [here]⟩
    · rintro ⟨i, ⟨small, ordinary⟩, rfl⟩
      exact ⟨(t.slots.get i).value, ordinary, i, small, rfl⟩
  have apart : Set.InjOn (fun i => (t.slots.get i).key)
      ((Finset.range t.slots.size).filter fun i => Ordinary (t.slots.get i).key) := by
    intro i hi j hj same
    rw [Finset.mem_coe, Finset.mem_filter, Finset.mem_range] at hi hj
    exact rep.inv.probed.unique _ i j hi.1 hj.1 (cellOf_live.mpr ⟨rfl, hi.2⟩)
      (cellOf_live.mpr ⟨same.symm, hi.2⟩)
  rw [image, Finset.card_image_of_injOn apart, rep.inv.live_eq, List.countP_eq_length_filter]
  rfl

end Count

theorem unset_size {t t' : KillFlagTable} {c : TableCall} (notSet : ∀ key v, c ≠ .set key v)
    (run : c.run t = .ok t') : t'.slots.size = t.slots.size := by
  cases c with
  | set key v => exact absurd rfl (notSet key v)
  | find key written =>
    cases written with
    | none =>
      obtain ⟨_, _, run⟩ := bind_ok run
      cases run
      rfl
    | some v =>
      obtain ⟨found, _, run⟩ := bind_ok run
      cases found with
      | none =>
        cases run
        rfl
      | some kf =>
        obtain ⟨s, _, run⟩ := bind_ok run
        obtain ⟨slots, wrote, run⟩ := bind_ok run
        cases run
        exact Vec.size_write wrote
  | erase key =>
    obtain ⟨found, _, run⟩ := bind_ok run
    cases found with
    | none =>
      cases run
      rfl
    | some idx =>
      obtain ⟨s, _, run⟩ := bind_ok run
      obtain ⟨slots, wrote, run⟩ := bind_ok run
      cases run
      exact Vec.size_write wrote

def AtMostLive (L : Nat) (calls : List TableCall) : Prop :=
  ∀ n, (liveKeys (calls.take n)).card ≤ L

/-- What is promised of the capacity, after each of the calls; a table that could not be
    doubled in uint32 was due to exceed it. -/
def CapacityBounded (L : Nat) (calls : List TableCall) : Prop :=
  ∀ n, match new.runCalls (calls.take n) with
    | .ok t => t.slots.size ≤ max 4096 (8 * (L + 1))
    | .error e => e = .tableCapacity ∧ uint32 ≤ 8 * (L + 1)

/-- Every `set` that is about to double the table finds a live key, the new one counted, for
    every four of its slots: it is not tombstones that make it double. -/
def GrowsForLive (calls : List TableCall) : Prop :=
  ∀ n key v t, calls[n]? = some (.set key v) → new.runCalls (calls.take n) = .ok t → t.Loaded →
    t.slots.size ≤ 4 * (t.liveCount + 1)

section Bound
variable {calls : List TableCall} {L : Nat}

theorem runCalls_append (t : KillFlagTable) (calls more : List TableCall) :
    t.runCalls (calls ++ more) = t.runCalls calls >>= fun u => u.runCalls more :=
  List.foldlM_append

theorem runCalls_next {t : KillFlagTable} {n : Nat} {c : TableCall} (next : calls[n]? = some c) :
    t.runCalls (calls.take (n + 1)) = t.runCalls (calls.take n) >>= fun u => c.run u := by
  rw [List.take_add_one, next, Option.toList_some, runCalls_append]
  congr 1
  funext u
  unfold runCalls
  rw [List.foldlM_cons]
  exact bind_pure _

theorem ordinary_of_pos {key : Int} (pos : 1 ≤ key) : Ordinary key :=
  ordinary_of_nonneg (by omega)

theorem runCalls_rep (keys : ∀ c ∈ calls, 1 ≤ c.key) {t : KillFlagTable}
    (run : new.runCalls calls = .ok t) : TableRep t (lastWritten calls) := by
  rcases runCalls_cases calls new_rep fun c hc => ordinary_of_pos (keys c hc) with
    ⟨u, ran, rep⟩ | ⟨failed, _⟩
  · cases run.symm.trans ran
    exact rep
  · cases run.symm.trans failed

theorem liveCount_le (live : AtMostLive L calls) {n : Nat} {t : KillFlagTable}
    (rep : TableRep t (lastWritten (calls.take n))) : t.liveCount ≤ L := by
  rw [liveCount_eq_card rep (mem_liveKeys _)]
  exact live n

/-- One more call keeps the bound, whether the table is doubled for it or not. -/
theorem capacity_of_growsForLive (keys : ∀ c ∈ calls, 1 ≤ c.key) (live : AtMostLive L calls)
    (growth : GrowsForLive calls) (n : Nat) :
    (∃ t, new.runCalls (calls.take n) = .ok t ∧ TableRep t (lastWritten (calls.take n)) ∧
      t.slots.size ≤ max 4096 (8 * (L + 1))) ∨
    (new.runCalls (calls.take n) = .error .tableCapacity ∧ uint32 ≤ 8 * (L + 1)) := by
  induction n with
  | zero => exact Or.inl ⟨new, rfl, new_rep, le_max_left _ _⟩
  | succ n ih =>
    cases next : calls[n]? with
    | none =>
      rw [List.take_add_one, next, Option.toList_none, List.append_nil]
      exact ih
    | some c =>
      have ordinary := ordinary_of_pos (keys c (List.mem_of_getElem? next))
      have written : lastWritten (calls.take (n + 1)) = c.apply (lastWritten (calls.take n)) := by
        unfold lastWritten
        rw [List.take_add_one, next, Option.toList_some, List.foldl_append]
        rfl
      rw [runCalls_next next, written]
      rcases ih with ⟨t, run, rep, small⟩ | ⟨run, huge⟩
      · rw [run, ok_bind]
        by_cases isSet : ∃ key v, c = .set key v
        · obtain ⟨key, v, rfl⟩ := isSet
          have few := liveCount_le live rep
          have enough := growth n key v t next run
          rcases set_sized rep ordinary v with ⟨full, loaded, wide⟩ | ⟨t', ran, rep', size, _⟩
          · have wider := enough loaded
            exact Or.inr ⟨full, by omega⟩
          · refine Or.inl ⟨t', ran, rep', ?_⟩
            rw [size]
            split
            · rename_i loaded
              have wider := enough loaded
              omega
            · exact small
        · have notSet : ∀ key v, c ≠ .set key v := fun key v same => isSet ⟨key, v, same⟩
          obtain ⟨t', ran, rep'⟩ := unset_ok rep notSet ordinary
          exact Or.inl ⟨t', ran, rep', by rwa [unset_size notSet ran]⟩
      · rw [run]
        exact Or.inr ⟨rfl, huge⟩

theorem find_stones {t t' : KillFlagTable} {key : Int} {written : Option Bool}
    (run : (TableCall.find key written).run t = .ok t') :
    t'.tombstoneCount = t.tombstoneCount := by
  cases written with
  | none =>
    obtain ⟨_, _, run⟩ := bind_ok run
    cases run
    rfl
  | some v =>
    obtain ⟨found, _, run⟩ := bind_ok run
    cases found with
    | none =>
      cases run
      rfl
    | some kf =>
      obtain ⟨s, _, run⟩ := bind_ok run
      obtain ⟨slots, _, run⟩ := bind_ok run
      cases run
      rfl

theorem CapacityBounded.last (bounded : CapacityBounded L calls) {t : KillFlagTable}
    (run : new.runCalls calls = .ok t) : t.slots.size ≤ max 4096 (8 * (L + 1)) := by
  have all := bounded calls.length
  rwa [List.take_length, run] at all

/-- With at most `L` live keys the capacity keeps to its bound after every call of a run in
    which no `set` doubles a table that the tombstones have filled. -/
theorem capacity_bounded_of_live_growth (keys : ∀ c ∈ calls, 1 ≤ c.key)
    (live : AtMostLive L calls) (growth : GrowsForLive calls) : CapacityBounded L calls := by
  intro n
  rcases capacity_of_growsForLive keys live growth n with ⟨t, run, _, small⟩ | ⟨run, huge⟩
  · rw [run]
    exact small
  · rw [run]
    exact ⟨rfl, huge⟩

theorem stones_of_no_erase (keys : ∀ c ∈ calls, 1 ≤ c.key)
    (kept : ∀ c ∈ calls, ∀ key, c ≠ .erase key) (n : Nat) {t : KillFlagTable}
    (run : new.runCalls (calls.take n) = .ok t) : t.tombstoneCount = 0 := by
  induction n generalizing t with
  | zero =>
    cases run
    rfl
  | succ n ih =>
    cases next : calls[n]? with
    | none =>
      rw [List.take_add_one, next, Option.toList_none, List.append_nil] at run
      exact ih run
    | some c =>
      have member := List.mem_of_getElem? next
      rw [runCalls_next next] at run
      obtain ⟨u, before, call⟩ := bind_ok run
      have clean := ih before
      cases c with
      | set key v =>
        have rep := runCalls_rep (fun c hc => keys c (List.mem_of_mem_take hc)) before
        rcases set_sized rep (ordinary_of_pos (keys _ member)) v with ⟨full, _⟩ | ⟨t', ran, _, _, few⟩
        · cases full.symm.trans call
        · cases ran.symm.trans call
          omega
      | find key written => rw [find_stones call, clean]
      | erase key => exact absurd rfl (kept _ member key)

theorem growsForLive_of_no_erase (keys : ∀ c ∈ calls, 1 ≤ c.key)
    (kept : ∀ c ∈ calls, ∀ key, c ≠ .erase key) : GrowsForLive calls := by
  intro n key v t next run loaded
  have clean := stones_of_no_erase keys kept n run
  unfold Loaded at loaded
  omega

end Bound

def freshSets (k : Nat) : List TableCall := (List.range k).map fun i : Nat => .set (i + 1) false

theorem freshSets_succ (k : Nat) : freshSets (k + 1) = freshSets k ++ [.set (k + 1) false] := by
  unfold freshSets
  rw [List.range_succ, List.map_append]
  rfl

theorem freshSets_set {k : Nat} {c : TableCall} (member : c ∈ freshSets k) :
    ∃ i < k, c = .set (i + 1) false := by
  obtain ⟨i, small, shape⟩ := List.mem_map.mp member
  exact ⟨i, List.mem_range.mp small, shape.symm⟩

theorem key_freshSets {k : Nat} : ∀ c ∈ freshSets k, 1 ≤ c.key := by
  intro c member
  obtain ⟨i, _, rfl⟩ := freshSets_set member
  show 1 ≤ (i : Int) + 1
  omega

theorem freshSets_growsForLive (k : Nat) : GrowsForLive (freshSets k) := by
  apply growsForLive_of_no_erase key_freshSets
  intro c member key same
  obtain ⟨i, _, rfl⟩ := freshSets_set member
  cases same

theorem card_liveKeys_freshSets (k : Nat) : (liveKeys (freshSets k)).card = k := by
  have all : liveKeys (freshSets k) = (Finset.range k).image fun i : Nat => (i : Int) + 1 := by
    induction k with
    | zero => rfl
    | succ k ih =>
      rw [freshSets_succ, Finset.range_add_one, Finset.image_insert, ← ih]
      unfold liveKeys
      rw [List.foldl_append]
      rfl
  rw [all, Finset.card_image_of_injective, Finset.card_range]
  intro i j same
  simp only at same
  omega

theorem take_freshSets (k n : Nat) : (freshSets k).take n = freshSets (min n k) := by
  unfold freshSets
  rw [← List.map_take, List.take_range]

/-- The first 2457 keys fit in the first table. -/
theorem runCalls_freshSets {k : Nat} (few : k ≤ 2457) : ∃ t, new.runCalls (freshSets k) = .ok t ∧
    t.slots.size = 4096 ∧ t.liveCount = k ∧ t.tombstoneCount = 0 := by
  induction k with
  | zero => exact ⟨new, rfl, rfl, rfl, rfl⟩
  | succ k ih =>
    obtain ⟨t, run, size, live, clean⟩ := ih (by omega)
    have rep := runCalls_rep key_freshSets run
    have ordinary : Ordinary ((k : Int) + 1) := ordinary_of_pos (by omega)
    have light : ¬ t.Loaded := by
      unfold Loaded
      omega
    rcases set_sized rep ordinary false with ⟨_, loaded, _⟩ | ⟨t', ran, _, sized, stones⟩
    · exact absurd loaded light
    · have grown : new.runCalls (freshSets (k + 1)) = .ok t' := by
        rw [freshSets_succ, runCalls_append, run, ok_bind]
        unfold runCalls
        rw [List.foldlM_cons, TableCall.run, ran]
        rfl
      refine ⟨t', grown, by rw [sized, if_neg light, size], ?_, by omega⟩
      rw [liveCount_eq_card (runCalls_rep key_freshSets grown) (mem_liveKeys _),
        card_liveKeys_freshSets]

theorem capacity_bounded_of_live_growth_fresh :
    AtMostLive 2458 (freshSets 2458) ∧ GrowsForLive (freshSets 2458) ∧
    CapacityBounded 2458 (freshSets 2458) ∧
    ∃ t, new.runCalls (freshSets 2458) = .ok t ∧ t.slots.size = 8192 := by
  have live : AtMostLive 2458 (freshSets 2458) := by
    intro n
    rw [take_freshSets, card_liveKeys_freshSets]
    exact Nat.min_le_right _ _
  have growth := freshSets_growsForLive 2458
  refine ⟨live, growth, capacity_bounded_of_live_growth key_freshSets live growth, ?_⟩
  obtain ⟨t, run, size, alive, clean⟩ := runCalls_freshSets (Nat.le_refl 2457)
  have rep := runCalls_rep key_freshSets run
  have loaded : t.Loaded := by
    unfold Loaded
    omega
  have ordinary : Ordinary 2458 := ordinary_of_pos (by decide)
  rcases set_sized rep ordinary false with
    ⟨_, _, huge⟩ | ⟨t', ran, _, sized, _⟩
  · unfold uint32 at huge
    omega
  · refine ⟨t', ?_, by rw [sized, if_pos loaded, size]⟩
    rw [freshSets_succ 2457, runCalls_append, run, ok_bind]
    unfold runCalls
    rw [List.foldlM_cons, TableCall.run]
    show (t.set 2458 false >>= _) = _
    rw [ran]
    rfl

/- One key after the other, each set and erased again, and each hashed to a slot of its own. -/
section Churn

/-- The multiplier's inverse, so that a key can be chosen for the upper half of its hash. -/
def hashedTo (low i : Nat) : Nat := (i * 2 ^ 32 + low) * 0xF1DE83E19937733D % 2 ^ 64

def keyAt (i : Nat) : Int :=
  if 1 ≤ hashedTo 0 i ∧ hashedTo 0 i < 2 ^ 63 then hashedTo 0 i else hashedTo 3578 i

theorem hashedTo_range {i : Nat} (few : i < 2458) :
    (1 ≤ hashedTo 0 i ∧ hashedTo 0 i < 2 ^ 63) ∨
    (1 ≤ hashedTo 3578 i ∧ hashedTo 3578 i < 2 ^ 63) := by
  have all : (List.range 2458).all (fun i =>
      (decide (1 ≤ hashedTo 0 i) && decide (hashedTo 0 i < 2 ^ 63)) ||
      (decide (1 ≤ hashedTo 3578 i) && decide (hashedTo 3578 i < 2 ^ 63))) = true := by
    decide +kernel
  have one := List.all_eq_true.mp all i (List.mem_range.mpr few)
  simpa only [Bool.or_eq_true, Bool.and_eq_true, decide_eq_true_eq] using one

theorem hashKey_hashedTo {low i : Nat} (small : low < 2 ^ 32) (slot : i < 2 ^ 32) :
    hashKey (hashedTo low i) = i := by
  have whole : i * 2 ^ 32 + low < 2 ^ 64 := by omega
  have inverse : 0xF1DE83E19937733D * 0x9E3779B97F4A7C15 % 2 ^ 64 = 1 := rfl
  have back : hashedTo low i * 0x9E3779B97F4A7C15 % 2 ^ 64 = i * 2 ^ 32 + low := by
    unfold hashedTo
    rw [Nat.mod_mul_mod, Nat.mul_assoc, Nat.mul_mod, inverse, Nat.mul_one, Nat.mod_mod,
      Nat.mod_eq_of_lt whole]
  have range : ((hashedTo low i : Int) % 2 ^ 64).toNat = hashedTo low i := by
    have below : hashedTo low i < 2 ^ 64 := Nat.mod_lt _ (by decide)
    omega
  unfold hashKey
  rw [range, back, Nat.shiftRight_eq_div_pow]
  omega

theorem keyAt_slot {i : Nat} (few : i < 2458) :
    1 ≤ keyAt i ∧ keyAt i < 2 ^ 63 ∧ hashKey (keyAt i) &&& 4095 = i := by
  have home : ∀ low < 2 ^ 32, hashKey (hashedTo low i) &&& 4095 = i := by
    intro low small
    rw [hashKey_hashedTo small (by omega), show 4095 = 2 ^ 12 - 1 from rfl,
      Nat.and_two_pow_sub_one_eq_mod]
    omega
  have range := hashedTo_range few
  unfold keyAt
  split
  · exact ⟨by omega, by omega, home 0 (by decide)⟩
  · exact ⟨by omega, by omega, home 3578 (by decide)⟩

def setErase (keys : List Int) : List TableCall :=
  keys.flatMap fun key => [.set key false, .erase key]

def churned (n : Nat) : KillFlagTable where
  slots := ⟨4096, fun i => if i < n then ⟨tombstoneKey, false⟩ else {}⟩
  mask := 4095
  tombstoneCount := n

theorem churned_zero : churned 0 = new := by
  unfold churned new fresh
  simp

def occupied (n : Nat) : KillFlagTable :=
  { churned n with
    slots := (churned n).slots.set n ⟨keyAt n, false⟩
    liveCount := 1 }

theorem set_churned {n : Nat} (few : n < 2457) :
    (churned n).set (keyAt n) false = .ok (occupied n) := by
  obtain ⟨pos, _, home⟩ := keyAt_slot (i := n) (by omega)
  have other : emptyKey ≠ keyAt n := Ne.symm (ordinary_of_pos pos).1
  have light : ¬ (churned n).Loaded := by
    unfold Loaded churned
    simp only
    omega
  have here : (churned n).slots.get n = {} := by simp [churned]
  have low : n < (churned n).slots.size := few.trans (show 2457 < 4096 by decide)
  have empty : (churned n).locateForInsert (keyAt n) = .ok n := by
    unfold locateForInsert
    rw [show (churned n).slots.size = 4095 + 1 from rfl, show (churned n).mask = 4095 from rfl,
      home, insertFrom, Vec.read_ok low, here, ok_bind]
    exact if_neg other
  have grown : (churned n).maybeGrow = .ok (churned n) := by
    rw [maybeGrow_eq, if_neg light]
    rfl
  unfold KillFlagTable.set
  rw [grown, ok_bind, empty, ok_bind, Vec.read_ok low, ok_bind, here]
  simp only [if_pos (show (-1 : Int) ≠ keyAt n from other)]
  rw [Vec.write_ok low]
  rfl

theorem erase_occupied {n : Nat} (few : n < 2457) :
    (occupied n).erase (keyAt n) = .ok (churned (n + 1)) := by
  obtain ⟨_, _, home⟩ := keyAt_slot (i := n) (by omega)
  have here : (occupied n).slots.get n = ⟨keyAt n, false⟩ := Vec.get_set_self _ _ _
  have low : n < (occupied n).slots.size := few.trans (show 2457 < 4096 by decide)
  have found : (occupied n).locateForFind (keyAt n) = .ok (some n) := by
    unfold locateForFind
    rw [show (occupied n).slots.size = 4095 + 1 from rfl, show (occupied n).mask = 4095 from rfl,
      home, findFrom, Vec.read_ok low, here, ok_bind]
    exact if_pos rfl
  have slots : (occupied n).slots.set n ⟨tombstoneKey, false⟩ = (churned (n + 1)).slots := by
    unfold occupied churned Vec.set
    simp only [Function.update_idem, Vec.mk.injEq, true_and]
    funext i
    by_cases same : i = n
    · subst same
      simp
    · rw [Function.update_of_ne same]
      simp only [show i < n + 1 ↔ i < n by omega]
  have stones : inc32 n = n + 1 := inc32_of_lt (Nat.lt_trans (Nat.succ_lt_succ few) (by decide))
  unfold KillFlagTable.erase
  rw [found, ok_bind]
  simp only [Vec.read_ok low, ok_bind, here, Vec.write_ok low, slots]
  unfold occupied churned
  simp only [stones, pure_eq_ok, Except.ok.injEq, KillFlagTable.mk.injEq, true_and, and_true]
  rfl

theorem runCalls_churn (n : Nat) (few : n ≤ 2457) :
    new.runCalls (setErase ((List.range n).map keyAt)) = .ok (churned n) := by
  induction n with
  | zero =>
    rw [churned_zero]
    rfl
  | succ n ih =>
    have split : setErase ((List.range (n + 1)).map keyAt) =
        setErase ((List.range n).map keyAt) ++ [.set (keyAt n) false, .erase (keyAt n)] := by
      unfold setErase
      rw [List.range_succ, List.map_append, List.flatMap_append]
      rfl
    rw [split, runCalls_append, ih (by omega), ok_bind]
    unfold runCalls
    rw [List.foldlM_cons, TableCall.run, set_churned (by omega), ok_bind, List.foldlM_cons,
      TableCall.run, erase_occupied (by omega)]
    rfl

theorem atMostLive_setErase (keys : List Int) (key : Int) (v : Bool) :
    AtMostLive 1 (setErase keys ++ [.set key v]) := by
  unfold AtMostLive liveKeys
  induction keys with
  | nil =>
    intro n
    cases n with
    | zero => simp
    | succ n => simp [setErase, TableCall.keep]
  | cons k keys ih =>
    intro n
    match n with
    | 0 => simp
    | 1 => simp [setErase, TableCall.keep]
    | n + 2 =>
      have again := ih n
      have clean : (insert k (∅ : Finset Int)).erase k = ∅ := by simp
      unfold setErase at again ⊢
      simp only [List.flatMap_cons, List.cons_append, List.nil_append, List.take_succ_cons,
        List.foldl_cons, TableCall.keep, clean]
      exact again

def overgrown : List TableCall :=
  setErase ((List.range 2457).map keyAt) ++ [.set (keyAt 2457) false]

theorem key_setErase {keys : List Int} {c : TableCall} (member : c ∈ setErase keys) :
    c.key ∈ keys := by
  unfold setErase at member
  obtain ⟨key, inside, shape⟩ := List.mem_flatMap.mp member
  rcases List.mem_cons.mp shape with rfl | erased
  · exact inside
  · rw [List.mem_singleton.mp erased]
    exact inside

theorem key_churn {n : Nat} (few : n ≤ 2458) {c : TableCall}
    (member : c ∈ setErase ((List.range n).map keyAt)) : 1 ≤ c.key ∧ c.key < 2 ^ 63 := by
  obtain ⟨i, small, shape⟩ := List.mem_map.mp (key_setErase member)
  rw [List.mem_range] at small
  obtain ⟨pos, long, _⟩ := keyAt_slot (i := i) (by omega)
  rw [← shape]
  exact ⟨pos, long⟩

theorem key_overgrown {c : TableCall} (member : c ∈ overgrown) : 1 ≤ c.key ∧ c.key < 2 ^ 63 := by
  unfold overgrown at member
  rcases List.mem_append.mp member with churn | last
  · exact key_churn (by decide) churn
  · obtain ⟨pos, long, _⟩ := keyAt_slot (i := 2457) (by decide)
    rw [List.mem_singleton.mp last]
    exact ⟨pos, long⟩

theorem runCalls_overgrown : ∃ t, new.runCalls overgrown = .ok t ∧ t.slots.size = 8192 := by
  have churn := runCalls_churn 2457 (Nat.le_refl _)
  have rep := runCalls_rep (fun c member => (key_churn (by decide) member).1) churn
  have full : (churned 2457).Loaded := by decide
  rcases set_sized rep (ordinary_of_pos (keyAt_slot (i := 2457) (by decide)).1) false with
    ⟨_, _, huge⟩ | ⟨t, ran, _, size, _⟩
  · exact absurd huge (by decide)
  · refine ⟨t, ?_, ?_⟩
    · unfold overgrown
      rw [runCalls_append, churn, ok_bind]
      unfold runCalls
      rw [List.foldlM_cons, TableCall.run, ran]
      rfl
    · rw [size, if_pos full]
      rfl

theorem capacity_bounded_of_live_growth_fails :
    (∀ c ∈ overgrown, 1 ≤ c.key ∧ c.key < 2 ^ 63) ∧ AtMostLive 1 overgrown ∧
    (∃ t, new.runCalls overgrown = .ok t ∧ t.slots.size = 8192) ∧
    ¬ CapacityBounded 1 overgrown := by
  have live : AtMostLive 1 overgrown := by
    unfold overgrown
    exact atMostLive_setErase _ _ _
  refine ⟨fun c => key_overgrown, live, runCalls_overgrown, fun bounded => ?_⟩
  obtain ⟨t, ran, size⟩ := runCalls_overgrown
  have last := bounded.last ran
  omega

end Churn
end KillFlagTable
end MarketBookExchange
