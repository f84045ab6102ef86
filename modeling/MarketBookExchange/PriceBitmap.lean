import MarketBookExchange.OrderPool
import MarketBookExchange.Lib.Traversal
import Mathlib.Tactic.ByContra

/- The two-level bitmap over price slots. A clear summary bit promises an empty word,
   so a best-price search scans one summary word and one word. -/
namespace MarketBookExchange
open Outcome Traversal

def priceWindowLog2 : Nat := 16
def priceWindow : Nat := 2 ^ priceWindowLog2
def priceMask : Nat := priceWindow - 1
def l0Words : Nat := priceWindow / 64
def l1Words : Nat := (l0Words + 63) / 64

/-- Despite its name, the index of the most significant set bit. -/
def clz64 (v : BitVec 64) : Except Fault Nat :=
  if v = 0 then .error .bitScanOfZero else .ok (63 - v.clz.toNat)

def ctz64 (v : BitVec 64) : Except Fault Nat :=
  if v = 0 then .error .bitScanOfZero else .ok v.ctz.toNat

structure PriceBitmap where
  l0 : Nat → BitVec 64 := fun _ => 0
  l1 : Nat → BitVec 64 := fun _ => 0

namespace PriceBitmap

def set (bmp : PriceBitmap) (idx : Nat) : PriceBitmap :=
  { l0 := Function.update bmp.l0 (idx >>> 6) (bmp.l0 (idx >>> 6) ||| 1#64 <<< (idx &&& 63))
    l1 := Function.update bmp.l1 (idx >>> 12)
      (bmp.l1 (idx >>> 12) ||| 1#64 <<< ((idx >>> 6) &&& 63)) }

def clear (bmp : PriceBitmap) (idx : Nat) : PriceBitmap :=
  let w := bmp.l0 (idx >>> 6) &&& ~~~(1#64 <<< (idx &&& 63))
  let l0 := Function.update bmp.l0 (idx >>> 6) w
  if w = 0 then
    { l0, l1 := Function.update bmp.l1 (idx >>> 12)
        (bmp.l1 (idx >>> 12) &&& ~~~(1#64 <<< ((idx >>> 6) &&& 63))) }
  else { bmp with l0 }

/-- The search loop of `find_highest` and `find_lowest`, over the summary words in
    the order given and with the bit scan given. -/
def findWith (scan : BitVec 64 → Except Fault Nat) (bmp : PriceBitmap) :
    List Nat → Except Fault (Option Nat)
  | [] => .ok none
  | w1 :: rest =>
    if bmp.l1 w1 ≠ 0 then do
      let b1 ← scan (bmp.l1 w1)
      let wordIdx := w1 * 64 + b1
      let b0 ← scan (bmp.l0 wordIdx)
      pure (some (wordIdx * 64 + b0))
    else findWith scan bmp rest

def findHighest (bmp : PriceBitmap) : Except Fault (Option Nat) :=
  bmp.findWith clz64 (List.range l1Words).reverse

def findLowest (bmp : PriceBitmap) : Except Fault (Option Nat) :=
  bmp.findWith ctz64 (List.range l1Words)

variable {σ : Type}

/-- `while (bits)`: call `fn` on the scanned bit, stop for good when it answers false,
    else clear the bit. A word has at most 64 bits to clear. -/
def visitBits (scan : BitVec 64 → Except Fault Nat) (fn : Nat → σ → Except Fault (Bool × σ)) :
    Nat → BitVec 64 → σ → Except Fault (Bool × σ)
  | 0, bits, s => if bits = 0 then .ok (true, s) else .error .endlessLoop
  | fuel + 1, bits, s =>
    if bits = 0 then .ok (true, s)
    else do
      let b ← scan bits
      let (go, s) ← fn b s
      if go then visitBits scan fn fuel (bits &&& ~~~(1#64 <<< b)) s
      else pure (false, s)

def forEachWith (scan : BitVec 64 → Except Fault Nat) (bmp : PriceBitmap)
    (fn : Nat → σ → Except Fault (Bool × σ)) : List Nat → σ → Except Fault σ
  | [], s => .ok s
  | w1 :: rest, s => do
    let (go, s) ← visitBits scan (fun b1 s =>
      let wordIdx := w1 * 64 + b1
      visitBits scan (fun b0 s => fn (wordIdx * 64 + b0) s) 64 (bmp.l0 wordIdx) s)
      64 (bmp.l1 w1) s
    if go then forEachWith scan bmp fn rest s else pure s

def forEachDescending (bmp : PriceBitmap) (fn : Nat → σ → Except Fault (Bool × σ)) (s : σ) :
    Except Fault σ :=
  bmp.forEachWith clz64 fn (List.range l1Words).reverse s

def forEachAscending (bmp : PriceBitmap) (fn : Nat → σ → Except Fault (Bool × σ)) (s : σ) :
    Except Fault σ :=
  bmp.forEachWith ctz64 fn (List.range l1Words) s

/-- The set of slots the bitmap stands for. -/
def Has (bmp : PriceBitmap) (i : Nat) : Prop := (bmp.l0 (i / 64)).getLsbD (i % 64) = true

/-- A summary bit is set exactly when its word is not zero. -/
def Summarized (bmp : PriceBitmap) : Prop :=
  ∀ w, (bmp.l1 (w / 64)).getLsbD (w % 64) = true ↔ bmp.l0 w ≠ 0

theorem shift_one_bit {k : Nat} (j : Nat) (small : k < 64) :
    (1#64 <<< k).getLsbD j = decide (j = k) := by
  rw [BitVec.getLsbD_shiftLeft]
  by_cases same : j = k
  · subst same; simp [small]
  · by_cases below : j < k
    · simp [below, same]
    · simp [same, BitVec.getLsbD_one]
      omega

theorem word_zero_iff (v : BitVec 64) : v = 0 ↔ ∀ j, j < 64 → v.getLsbD j = false := by
  constructor
  · intro h j _
    subst h
    simp
  · intro h
    apply BitVec.eq_of_getLsbD_eq
    intro j hj
    simpa using h j hj

theorem word_has_bit {v : BitVec 64} (h : v ≠ 0) : ∃ j, j < 64 ∧ v.getLsbD j = true := by
  by_contra none
  apply h
  rw [word_zero_iff]
  intro j hj
  by_contra set
  exact none ⟨j, hj, by simpa using set⟩

theorem and_63 (n : Nat) : n &&& 63 = n % 64 := Nat.and_two_pow_sub_one_eq_mod n 6
theorem shr_6 (n : Nat) : n >>> 6 = n / 64 := Nat.shiftRight_eq_div_pow n 6
theorem shr_12 (n : Nat) : n >>> 12 = n / 64 / 64 := by
  rw [Nat.shiftRight_eq_div_pow]
  omega

theorem set_l0 (bmp : PriceBitmap) (idx : Nat) : (bmp.set idx).l0 =
    Function.update bmp.l0 (idx / 64) (bmp.l0 (idx / 64) ||| 1#64 <<< (idx % 64)) := by
  simp only [set, shr_6, and_63]

theorem set_l1 (bmp : PriceBitmap) (idx : Nat) : (bmp.set idx).l1 =
    Function.update bmp.l1 (idx / 64 / 64)
      (bmp.l1 (idx / 64 / 64) ||| 1#64 <<< (idx / 64 % 64)) := by
  simp only [set, shr_6, shr_12, and_63]

theorem clear_l0 (bmp : PriceBitmap) (idx : Nat) : (bmp.clear idx).l0 =
    Function.update bmp.l0 (idx / 64) (bmp.l0 (idx / 64) &&& ~~~(1#64 <<< (idx % 64))) := by
  simp only [clear, shr_6, and_63]
  split <;> rfl

theorem clear_l1 (bmp : PriceBitmap) (idx : Nat) : (bmp.clear idx).l1 =
    if bmp.l0 (idx / 64) &&& ~~~(1#64 <<< (idx % 64)) = 0 then
      Function.update bmp.l1 (idx / 64 / 64)
        (bmp.l1 (idx / 64 / 64) &&& ~~~(1#64 <<< (idx / 64 % 64)))
    else bmp.l1 := by
  simp only [clear, shr_6, shr_12, and_63]
  split <;> rfl

theorem has_set (bmp : PriceBitmap) (idx j : Nat) : (bmp.set idx).Has j ↔ j = idx ∨ bmp.Has j := by
  have small : idx % 64 < 64 := Nat.mod_lt _ (by decide)
  simp only [Has, set_l0, Function.update_apply]
  by_cases word : j / 64 = idx / 64
  · simp only [word, if_true, BitVec.getLsbD_or, shift_one_bit _ small, Bool.or_eq_true,
      decide_eq_true_eq]
    constructor
    · rintro (h | h)
      · exact Or.inr h
      · exact Or.inl (by omega)
    · rintro (h | h)
      · exact Or.inr (by rw [h])
      · exact Or.inl h
  · simp only [word, if_false]
    constructor
    · exact Or.inr
    · rintro (h | h)
      · exact absurd (by rw [h]) word
      · exact h

theorem has_clear (bmp : PriceBitmap) (idx j : Nat) :
    (bmp.clear idx).Has j ↔ j ≠ idx ∧ bmp.Has j := by
  have small : idx % 64 < 64 := Nat.mod_lt _ (by decide)
  simp only [Has, clear_l0, Function.update_apply]
  by_cases word : j / 64 = idx / 64
  · have low : j % 64 < 64 := Nat.mod_lt _ (by decide)
    simp only [word, if_true, BitVec.getLsbD_and, BitVec.getLsbD_not, shift_one_bit _ small,
      Bool.and_eq_true, low, decide_true, Bool.true_and, Bool.not_eq_true', decide_eq_false_iff_not]
    constructor
    · rintro ⟨bit, ne⟩
      exact ⟨fun e => ne (by rw [e]), bit⟩
    · rintro ⟨ne, bit⟩
      exact ⟨bit, fun e => ne (by omega)⟩
  · simp only [word, if_false]
    exact ⟨fun h => ⟨fun e => word (by rw [e]), h⟩, fun h => h.2⟩

theorem summarized_set {bmp : PriceBitmap} (h : bmp.Summarized) (idx : Nat) :
    (bmp.set idx).Summarized := by
  have small : idx % 64 < 64 := Nat.mod_lt _ (by decide)
  have small' : idx / 64 % 64 < 64 := Nat.mod_lt _ (by decide)
  intro w
  have old := h w
  simp only [set_l0, set_l1, Function.update_apply]
  by_cases word : w = idx / 64
  · subst word
    simp only [if_true, BitVec.getLsbD_or, shift_one_bit _ small', Bool.or_eq_true,
      decide_true, or_true, true_iff]
    intro zero
    have bit := (word_zero_iff _).mp zero (idx % 64) small
    simp [shift_one_bit _ small] at bit
  · simp only [word, if_false]
    by_cases group : w / 64 = idx / 64 / 64
    · simp only [group, if_true, BitVec.getLsbD_or, shift_one_bit _ small', Bool.or_eq_true,
        decide_eq_true_eq]
      rw [← group, old]
      constructor
      · rintro (h | h)
        · exact h
        · exact absurd (by omega) word
      · exact Or.inl
    · simp only [group, if_false]
      exact old

theorem summarized_clear {bmp : PriceBitmap} (h : bmp.Summarized) (idx : Nat) :
    (bmp.clear idx).Summarized := by
  have small' : idx / 64 % 64 < 64 := Nat.mod_lt _ (by decide)
  intro w
  have old := h w
  simp only [clear_l0, clear_l1, Function.update_apply]
  generalize left : bmp.l0 (idx / 64) &&& ~~~(1#64 <<< (idx % 64)) = rest
  by_cases emptied : rest = 0
  · by_cases word : w = idx / 64
    · subst word
      simp [emptied, shift_one_bit _ small']
    · by_cases group : w / 64 = idx / 64 / 64
      · have low : w % 64 < 64 := Nat.mod_lt _ (by decide)
        have other : w % 64 ≠ idx / 64 % 64 := fun e => word (by omega)
        simp only [emptied, if_true, word, if_false, group, Function.update_self,
          BitVec.getLsbD_and, BitVec.getLsbD_not, shift_one_bit _ small', low, decide_true,
          other, decide_false, Bool.not_false, Bool.and_true]
        rw [← group, old]
      · simp only [emptied, if_true, word, if_false, Function.update_of_ne group]
        exact old
  · by_cases word : w = idx / 64
    · subst word
      have before : bmp.l0 (idx / 64) ≠ 0 := by
        intro zero
        rw [zero] at left
        exact emptied (by rw [← left]; simp)
      simp only [emptied, if_false, if_true, ne_eq, not_false_iff, iff_true]
      exact old.mpr before
    · simp only [emptied, word, if_false]
      exact old

theorem summarized_empty : Summarized {} := by
  intro w
  simp

theorem has_empty (j : Nat) : ¬ Has {} j := by
  simp [Has]

/-- What a best-price search needs of a bit scan: an extreme set bit of the word. -/
structure Scans (scan : BitVec 64 → Except Fault Nat) (le : Nat → Nat → Prop) : Prop where
  found : ∀ v, v ≠ 0 → ∃ b, scan v = .ok b ∧ b < 64 ∧ v.getLsbD b = true ∧
    ∀ j, v.getLsbD j = true → le j b

theorem scans_clz64 : Scans clz64 (· ≤ ·) := by
  constructor
  intro v real
  have bound := BitVec.clz_lt_iff_ne_zero.mpr real
  have small : v.clz.toNat < 64 := by simpa [BitVec.lt_def] using bound
  refine ⟨63 - v.clz.toNat, by rw [clz64, if_neg real], by omega, ?_, ?_⟩
  · exact BitVec.getLsbD_true_clz_of_ne_zero (by decide) real
  · intro j bit
    by_contra above
    have upper := BitVec.toNat_lt_two_pow_sub_clz (x := v)
    have zero : v.getLsbD j = false := by
      apply Nat.testBit_lt_two_pow
      exact Nat.lt_of_lt_of_le upper (Nat.pow_le_pow_right (by decide) (by omega))
    rw [zero] at bit
    cases bit

theorem scans_ctz64 : Scans ctz64 (· ≥ ·) := by
  constructor
  intro v real
  have bound := BitVec.ctz_lt_iff_ne_zero.mpr real
  have small : v.ctz.toNat < 64 := by simpa [BitVec.lt_def] using bound
  refine ⟨v.ctz.toNat, by rw [ctz64, if_neg real], small, BitVec.getLsbD_true_ctz_of_ne_zero real, ?_⟩
  intro j bit
  by_contra below
  rw [BitVec.getLsbD_false_of_lt_ctz (by omega)] at bit
  cases bit

theorem findWith_cases {scan : BitVec 64 → Except Fault Nat} {le : Nat → Nat → Prop}
    (scans : Scans scan le) {bmp : PriceBitmap} (sum : bmp.Summarized) (ws : List Nat) :
    (bmp.findWith scan ws = .ok none ∧ ∀ w ∈ ws, bmp.l1 w = 0) ∨
    ∃ pre w post b1 b0, ws = pre ++ w :: post ∧ (∀ v ∈ pre, bmp.l1 v = 0) ∧
      b1 < 64 ∧ b0 < 64 ∧ bmp.Has ((w * 64 + b1) * 64 + b0) ∧
      (∀ j, (bmp.l1 w).getLsbD j = true → le j b1) ∧
      (∀ j, (bmp.l0 (w * 64 + b1)).getLsbD j = true → le j b0) ∧
      bmp.findWith scan ws = .ok (some ((w * 64 + b1) * 64 + b0)) := by
  induction ws with
  | nil => exact Or.inl ⟨rfl, by simp⟩
  | cons w rest ih =>
    by_cases zero : bmp.l1 w = 0
    · have skip : bmp.findWith scan (w :: rest) = bmp.findWith scan rest := by
        simp [findWith, zero]
      rw [skip]
      rcases ih with ⟨run, all⟩ | ⟨pre, v, post, b1, b0, split, before, more⟩
      · exact Or.inl ⟨run, by simpa [zero] using all⟩
      · exact Or.inr ⟨w :: pre, v, post, b1, b0, by simp [split], by simpa [zero] using before, more⟩
    · obtain ⟨b1, run1, small1, bit1, best1⟩ := scans.found _ zero
      have word : bmp.l0 (w * 64 + b1) ≠ 0 := by
        have summary := sum (w * 64 + b1)
        have group : (w * 64 + b1) / 64 = w := by omega
        have place : (w * 64 + b1) % 64 = b1 := by omega
        rw [group, place] at summary
        exact summary.mp bit1
      obtain ⟨b0, run0, small0, bit0, best0⟩ := scans.found _ word
      refine Or.inr ⟨[], w, rest, b1, b0, rfl, by simp, small1, small0, ?_, best1, best0, ?_⟩
      · have high : ((w * 64 + b1) * 64 + b0) / 64 = w * 64 + b1 := by omega
        have low : ((w * 64 + b1) * 64 + b0) % 64 = b0 := by omega
        simpa [Has, high, low] using bit0
      · rw [findWith, if_pos zero, run1]
        simp [run0]

theorem has_summary {bmp : PriceBitmap} (sum : bmp.Summarized) {i : Nat} (h : bmp.Has i) :
    (bmp.l1 (i / 64 / 64)).getLsbD (i / 64 % 64) = true := by
  rw [sum (i / 64)]
  intro zero
  simp [Has, zero] at h

theorem l1_ne_zero_of_has {bmp : PriceBitmap} (sum : bmp.Summarized) {i : Nat} (h : bmp.Has i) :
    bmp.l1 (i / 64 / 64) ≠ 0 := by
  intro zero
  have bit := has_summary sum h
  simp [zero] at bit

theorem summary_word_lt {i : Nat} (h : i < priceWindow) : i / 64 / 64 < l1Words := by
  simp only [priceWindow, priceWindowLog2, l1Words, l0Words] at *
  omega

theorem findHighest_spec {bmp : PriceBitmap} (sum : bmp.Summarized)
    (window : ∀ i, bmp.Has i → i < priceWindow) :
    (bmp.findHighest = .ok none ∧ ∀ i, ¬ bmp.Has i) ∨
    ∃ i, bmp.findHighest = .ok (some i) ∧ bmp.Has i ∧ ∀ j, bmp.Has j → j ≤ i := by
  rcases findWith_cases scans_clz64 sum (List.range l1Words).reverse with
    ⟨run, all⟩ | ⟨pre, w, post, b1, b0, split, before, small1, small0, has, best1, best0, run⟩
  · refine Or.inl ⟨run, fun i h => ?_⟩
    exact l1_ne_zero_of_has sum h (all _ (by simpa using summary_word_lt (window i h)))
  · refine Or.inr ⟨_, run, has, fun j h => ?_⟩
    have order : (pre ++ w :: post).Pairwise (· > ·) := by
      rw [← split, List.pairwise_reverse]
      exact List.pairwise_lt_range
    have member : j / 64 / 64 ∈ pre ++ w :: post := by
      rw [← split]
      simpa using summary_word_lt (window j h)
    have groups : j / 64 / 64 ≤ w := by
      rcases List.mem_append.mp member with early | late
      · exact absurd (before _ early) (l1_ne_zero_of_has sum h)
      · rcases List.mem_cons.mp late with same | later
        · exact Nat.le_of_eq same
        · exact Nat.le_of_lt ((List.pairwise_cons.mp (List.pairwise_append.mp order).2.1).1 _ later)
    by_cases group : j / 64 / 64 = w
    · have words := best1 (j / 64 % 64) (by rw [← group]; exact has_summary sum h)
      by_cases word : j / 64 = w * 64 + b1
      · have bits := best0 (j % 64) (by rw [← word]; exact h)
        omega
      · omega
    · omega

theorem findLowest_spec {bmp : PriceBitmap} (sum : bmp.Summarized)
    (window : ∀ i, bmp.Has i → i < priceWindow) :
    (bmp.findLowest = .ok none ∧ ∀ i, ¬ bmp.Has i) ∨
    ∃ i, bmp.findLowest = .ok (some i) ∧ bmp.Has i ∧ ∀ j, bmp.Has j → i ≤ j := by
  rcases findWith_cases scans_ctz64 sum (List.range l1Words) with
    ⟨run, all⟩ | ⟨pre, w, post, b1, b0, split, before, small1, small0, has, best1, best0, run⟩
  · refine Or.inl ⟨run, fun i h => ?_⟩
    exact l1_ne_zero_of_has sum h (all _ (by simpa using summary_word_lt (window i h)))
  · refine Or.inr ⟨_, run, has, fun j h => ?_⟩
    have order : (pre ++ w :: post).Pairwise (· < ·) := by
      rw [← split]
      exact List.pairwise_lt_range
    have member : j / 64 / 64 ∈ pre ++ w :: post := by
      rw [← split]
      simpa using summary_word_lt (window j h)
    have groups : w ≤ j / 64 / 64 := by
      rcases List.mem_append.mp member with early | late
      · exact absurd (before _ early) (l1_ne_zero_of_has sum h)
      · rcases List.mem_cons.mp late with same | later
        · exact Nat.le_of_eq same.symm
        · exact Nat.le_of_lt ((List.pairwise_cons.mp (List.pairwise_append.mp order).2.1).1 _ later)
    by_cases group : j / 64 / 64 = w
    · have words := best1 (j / 64 % 64) (by rw [← group]; exact has_summary sum h)
      by_cases word : j / 64 = w * 64 + b1
      · have bits := best0 (j % 64) (by rw [← word]; exact h)
        omega
      · omega
    · omega

theorem clear_bit (v : BitVec 64) {b : Nat} (small : b < 64) {j : Nat} (low : j < 64) :
    (v &&& ~~~(1#64 <<< b)).getLsbD j = (v.getLsbD j && decide (j ≠ b)) := by
  rw [BitVec.getLsbD_and, BitVec.getLsbD_not, shift_one_bit j small]
  by_cases same : j = b <;> simp [low, same]

/-- The `while (bits)` loop visits the set bits in the order its scan prefers. -/
theorem visitBits_eq {scan : BitVec 64 → Except Fault Nat} {le : Nat → Nat → Prop}
    (scans : Scans scan le) {order : List Nat} (mem : ∀ b, b ∈ order ↔ b < 64)
    (sorted : order.Pairwise fun x y => ¬ le x y) (fn : Nat → σ → Except Fault (Bool × σ))
    (fuel : Nat) : ∀ bits s, (order.filter bits.getLsbD).length ≤ fuel →
      visitBits scan fn fuel bits s = visitAll fn (order.filter bits.getLsbD) s := by
  have noBits : ∀ bits : BitVec 64, bits = 0 → order.filter bits.getLsbD = [] := by
    rintro _ rfl
    simp
  induction fuel with
  | zero =>
    intro bits s room
    have zero : bits = 0 := by
      by_contra real
      obtain ⟨j, low, bit⟩ := word_has_bit real
      have member : j ∈ order.filter bits.getLsbD :=
        List.mem_filter.mpr ⟨(mem j).mpr low, bit⟩
      exact absurd (List.length_pos_of_mem member) (by omega)
    rw [visitBits, if_pos zero, noBits bits zero]
    rfl
  | succ fuel ih =>
    intro bits s room
    by_cases zero : bits = 0
    · rw [visitBits, if_pos zero, noBits bits zero]
      rfl
    · obtain ⟨b, run, small, bit, best⟩ := scans.found bits zero
      obtain ⟨pre, post, split⟩ := List.append_of_mem ((mem b).mpr small)
      have away := sorted
      rw [split, List.pairwise_append] at away
      have early : ∀ j ∈ pre, bits.getLsbD j = false := by
        intro j hj
        by_contra set
        exact away.2.2 j hj b (by simp) (best j (by simpa using set))
      have fresh : ∀ j, j ∈ post → j ≠ b := by
        intro j hj same
        subst same
        exact (List.pairwise_cons.mp away.2.1).1 j hj (best j bit)
      have now : order.filter bits.getLsbD = b :: post.filter bits.getLsbD := by
        rw [split, List.filter_append, List.filter_cons_of_pos bit,
          List.filter_eq_nil_iff.mpr (fun j hj => by simp [early j hj])]
        rfl
      have later : order.filter (bits &&& ~~~(1#64 <<< b)).getLsbD =
          post.filter bits.getLsbD := by
        have rest : ∀ j ∈ order, (bits &&& ~~~(1#64 <<< b)).getLsbD j =
            (bits.getLsbD j && decide (j ≠ b)) := fun j hj =>
          clear_bit bits small ((mem j).mp hj)
        rw [List.filter_congr rest, split, List.filter_append, List.filter_cons_of_neg (by simp),
          List.filter_eq_nil_iff.mpr (fun j hj => by simp [early j hj]), List.nil_append]
        exact List.filter_congr fun j hj => by simp [fresh j hj]
      rw [visitBits, if_neg zero, run, now, visitAll]
      rw [now, List.length_cons] at room
      simp only [ok_bind, ih _ _ (by rw [later]; omega), later]

/-- The slots whose bits are set, in the order the loops over a level-two word, a
    level-one word and a bit meet them. -/
def slotsIn (order : List Nat) (bmp : PriceBitmap) (ws : List Nat) : List Nat :=
  ws.flatMap fun w1 => (order.filter (bmp.l1 w1).getLsbD).flatMap fun b1 =>
    (order.filter (bmp.l0 (w1 * 64 + b1)).getLsbD).map fun b0 => (w1 * 64 + b1) * 64 + b0

theorem forEachWith_eq {scan : BitVec 64 → Except Fault Nat} {le : Nat → Nat → Prop}
    (scans : Scans scan le) {order : List Nat} (mem : ∀ b, b ∈ order ↔ b < 64)
    (sorted : order.Pairwise fun x y => ¬ le x y) (room : order.length ≤ 64)
    (bmp : PriceBitmap) (fn : Nat → σ → Except Fault (Bool × σ)) (ws : List Nat) (s : σ) :
    bmp.forEachWith scan fn ws s = (visitAll fn (slotsIn order bmp ws) s).map Prod.snd := by
  have short : ∀ v : BitVec 64, (order.filter v.getLsbD).length ≤ 64 := fun v =>
    Nat.le_trans (List.length_filter_le _ _) room
  have word : ∀ w1 s, visitBits scan (fun b1 s =>
      visitBits scan (fun b0 s => fn ((w1 * 64 + b1) * 64 + b0) s) 64 (bmp.l0 (w1 * 64 + b1)) s)
      64 (bmp.l1 w1) s = visitAll fn (slotsIn order bmp [w1]) s := by
    intro w1 s
    rw [visitBits_eq scans mem sorted _ 64 _ _ (short _), slotsIn, List.flatMap_singleton,
      visitAll_flatMap]
    refine visitAll_congr (fun b1 _ s => ?_) s
    rw [visitBits_eq scans mem sorted _ 64 _ _ (short _), visitAll_map]
  induction ws generalizing s with
  | nil => rfl
  | cons w1 rest ih =>
    have cut : slotsIn order bmp (w1 :: rest) = slotsIn order bmp [w1] ++ slotsIn order bmp rest := by
      simp [slotsIn]
    rw [forEachWith, word, cut, visitAll_append]
    cases visitAll fn (slotsIn order bmp [w1]) s with
    | error e => rfl
    | ok r =>
      obtain ⟨go, s'⟩ := r
      cases go with
      | false => rfl
      | true => exact ih s'

theorem mem_slotsIn {order : List Nat} (mem : ∀ b, b ∈ order ↔ b < 64) {bmp : PriceBitmap}
    (sum : bmp.Summarized) (window : ∀ i, bmp.Has i → i < priceWindow) {ws : List Nat}
    (words : ∀ w, w ∈ ws ↔ w < l1Words) (i : Nat) : i ∈ slotsIn order bmp ws ↔ bmp.Has i := by
  simp only [slotsIn, List.mem_flatMap, List.mem_map, List.mem_filter, mem, words]
  constructor
  · rintro ⟨w1, _, b1, _, b0, ⟨low, bit⟩, rfl⟩
    have high : ((w1 * 64 + b1) * 64 + b0) / 64 = w1 * 64 + b1 := by omega
    have rest : ((w1 * 64 + b1) * 64 + b0) % 64 = b0 := by omega
    simpa [Has, high, rest] using bit
  · intro has
    refine ⟨i / 64 / 64, summary_word_lt (window i has), i / 64 % 64,
      ⟨Nat.mod_lt _ (by decide), has_summary sum has⟩, i % 64, ⟨Nat.mod_lt _ (by decide), ?_⟩, ?_⟩
    · have back : i / 64 / 64 * 64 + i / 64 % 64 = i / 64 := by omega
      rw [back]
      exact has
    · omega

/-- Nested loops over digits in one direction meet the slots in that direction. -/
theorem sorted_slotsIn {r : Nat → Nat → Prop} {order : List Nat} (low : ∀ b ∈ order, b < 64)
    (shift : ∀ x y a b, r x y → a < 64 → b < 64 → r (x * 64 + a) (y * 64 + b))
    (within : ∀ x a b, r a b → r (x * 64 + a) (x * 64 + b)) (sorted : order.Pairwise r)
    (bmp : PriceBitmap) {ws : List Nat} (words : ws.Pairwise r) :
    (slotsIn order bmp ws).Pairwise r := by
  have small : ∀ {v : BitVec 64} {b : Nat}, b ∈ order.filter v.getLsbD → b < 64 := fun h =>
    low _ (List.mem_filter.mp h).1
  refine List.pairwise_flatMap.mpr ⟨fun w1 _ => ?_, words.imp ?_⟩
  · refine List.pairwise_flatMap.mpr ⟨fun b1 _ => ?_, (sorted.filter _).imp_of_mem ?_⟩
    · exact List.pairwise_map.mpr ((sorted.filter _).imp fun h => within _ _ _ h)
    · intro b1 b1' h1 h1' before x hx y hy
      obtain ⟨b0, h0, rfl⟩ := List.mem_map.mp hx
      obtain ⟨b0', h0', rfl⟩ := List.mem_map.mp hy
      exact shift _ _ _ _ (within _ _ _ before) (small h0) (small h0')
  · intro w1 w1' before x hx y hy
    obtain ⟨b1, h1, hx⟩ := List.mem_flatMap.mp hx
    obtain ⟨b1', h1', hy⟩ := List.mem_flatMap.mp hy
    obtain ⟨b0, h0, rfl⟩ := List.mem_map.mp hx
    obtain ⟨b0', h0', rfl⟩ := List.mem_map.mp hy
    exact shift _ _ _ _ (shift _ _ _ _ before (small h1) (small h1')) (small h0) (small h0')

theorem forEachDescending_spec {bmp : PriceBitmap} (sum : bmp.Summarized)
    (window : ∀ i, bmp.Has i → i < priceWindow) :
    ∃ slots : List Nat, slots.Pairwise (· > ·) ∧ (∀ i, i ∈ slots ↔ bmp.Has i) ∧
      ∀ (fn : Nat → σ → Except Fault (Bool × σ)) (s : σ),
        bmp.forEachDescending fn s = (visitAll fn slots s).map Prod.snd := by
  have sorted : ∀ n, (List.range n).reverse.Pairwise (· > ·) := fun n => by
    rw [List.pairwise_reverse]
    exact List.pairwise_lt_range
  refine ⟨slotsIn (List.range 64).reverse bmp (List.range l1Words).reverse, ?_, ?_, ?_⟩
  · exact sorted_slotsIn (by simp) (fun _ _ _ _ _ _ _ => by omega) (fun _ _ _ _ => by omega)
      (sorted 64) bmp (sorted l1Words)
  · exact mem_slotsIn (by simp) sum window (by simp)
  · intro fn s
    refine forEachWith_eq scans_clz64 (by simp) ((sorted 64).imp ?_) (by simp) bmp fn _ s
    intro x y greater
    omega

theorem forEachAscending_spec {bmp : PriceBitmap} (sum : bmp.Summarized)
    (window : ∀ i, bmp.Has i → i < priceWindow) :
    ∃ slots : List Nat, slots.Pairwise (· < ·) ∧ (∀ i, i ∈ slots ↔ bmp.Has i) ∧
      ∀ (fn : Nat → σ → Except Fault (Bool × σ)) (s : σ),
        bmp.forEachAscending fn s = (visitAll fn slots s).map Prod.snd := by
  have sorted : ∀ n, (List.range n).Pairwise (· < ·) := fun n => List.pairwise_lt_range
  refine ⟨slotsIn (List.range 64) bmp (List.range l1Words), ?_, ?_, ?_⟩
  · exact sorted_slotsIn (by simp) (fun _ _ _ _ _ _ _ => by omega) (fun _ _ _ _ => by omega)
      (sorted 64) bmp (sorted l1Words)
  · exact mem_slotsIn (by simp) sum window (by simp)
  · intro fn s
    refine forEachWith_eq scans_ctz64 (by simp) ((sorted 64).imp ?_) (by simp) bmp fn _ s
    intro x y less
    omega

end PriceBitmap
end MarketBookExchange
