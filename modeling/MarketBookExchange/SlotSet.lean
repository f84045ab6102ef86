import MarketBookExchange.PriceBitmap
import Mathlib.Data.Finset.Max
import Mathlib.Data.Finset.Sort

/- The bitmap as a set of slots: what the two searches and the two traversals make of any
   history of sets and clears. -/
namespace MarketBookExchange
open Outcome Traversal

inductive BitmapCall where
  | set (idx : Nat)
  | clear (idx : Nat)

namespace BitmapCall

def idx : BitmapCall → Nat
  | set idx => idx
  | clear idx => idx

def run (bmp : PriceBitmap) : BitmapCall → PriceBitmap
  | set idx => bmp.set idx
  | clear idx => bmp.clear idx

def apply (slots : Finset Nat) : BitmapCall → Finset Nat
  | set idx => insert idx slots
  | clear idx => slots.erase idx

end BitmapCall

def slotsLeft (calls : List BitmapCall) : Finset Nat := calls.foldl BitmapCall.apply ∅

namespace PriceBitmap
variable {bmp : PriceBitmap} {slots : Finset Nat}

/-- The bitmap holds the slots, all in the window, and its summary is right. -/
structure Holds (bmp : PriceBitmap) (slots : Finset Nat) : Prop where
  summarized : bmp.Summarized
  has : ∀ i, bmp.Has i ↔ i ∈ slots
  window : ∀ i ∈ slots, i < priceWindow

theorem holds_new : Holds {} ∅ := by
  constructor
  · exact summarized_empty
  · intro i
    exact iff_of_false (has_empty i) (Finset.notMem_empty i)
  · intro i member
    exact absurd member (Finset.notMem_empty i)

theorem Holds.call (h : Holds bmp slots) (c : BitmapCall) (small : c.idx < priceWindow) :
    Holds (c.run bmp) (c.apply slots) := by
  cases c with
  | set idx =>
    constructor
    · exact summarized_set h.summarized idx
    · intro i
      unfold BitmapCall.run BitmapCall.apply
      rw [has_set, Finset.mem_insert, h.has]
    · intro i member
      rcases Finset.mem_insert.mp member with same | old
      · rw [same]
        exact small
      · exact h.window i old
  | clear idx =>
    constructor
    · exact summarized_clear h.summarized idx
    · intro i
      unfold BitmapCall.run BitmapCall.apply
      rw [has_clear, Finset.mem_erase, h.has]
    · intro i member
      exact h.window i (Finset.mem_of_mem_erase member)

theorem holds_calls (calls : List BitmapCall) : ∀ {bmp : PriceBitmap} {slots : Finset Nat},
    Holds bmp slots → (∀ c ∈ calls, c.idx < priceWindow) →
    Holds (calls.foldl BitmapCall.run bmp) (calls.foldl BitmapCall.apply slots) := by
  induction calls with
  | nil => exact fun h _ => h
  | cons c calls ih =>
    intro bmp slots h small
    apply ih
    · exact h.call c (small c (by simp))
    · exact fun c' member => small c' (by simp [member])

/-- What is asked of a bitmap that stands for a set of slots. Each result is that of the code
    with every bit scan checked, so no scan is of zero. -/
structure Refines (bmp : PriceBitmap) (slots : Finset Nat) : Prop where
  summary : ∀ w, (bmp.l1 (w / 64)).getLsbD (w % 64) = true ↔ bmp.l0 w ≠ 0
  highest : bmp.findHighest = .ok (if h : slots.Nonempty then some (slots.max' h) else none)
  lowest : bmp.findLowest = .ok (if h : slots.Nonempty then some (slots.min' h) else none)
  descending : ∀ {σ : Type} (fn : Nat → σ → Except Fault (Bool × σ)) (s : σ),
    bmp.forEachDescending fn s = (visitAll fn (slots.sort (· ≥ ·)) s).map Prod.snd
  ascending : ∀ {σ : Type} (fn : Nat → σ → Except Fault (Bool × σ)) (s : σ),
    bmp.forEachAscending fn s = (visitAll fn (slots.sort (· ≤ ·)) s).map Prod.snd

theorem Holds.sort_eq (h : Holds bmp slots) {order : List Nat} {r : Nat → Nat → Prop}
    [DecidableRel r] [IsTrans Nat r] [Std.Antisymm r] [Std.Total r] (sorted : order.Pairwise r)
    (distinct : order.Nodup) (mem : ∀ i, i ∈ order ↔ bmp.Has i) : order = slots.sort r := by
  have same : order.toFinset = slots := by
    ext i
    rw [List.mem_toFinset, mem, h.has]
  rw [← same]
  exact ((List.toFinset_sort r distinct).mpr sorted).symm

theorem Holds.refines (h : Holds bmp slots) : Refines bmp slots := by
  have window : ∀ i, bmp.Has i → i < priceWindow := fun i has => h.window i ((h.has i).mp has)
  constructor
  · exact h.summarized
  · rcases findHighest_spec h.summarized window with ⟨run, nothing⟩ | ⟨i, run, has, top⟩
    · have empty : ¬ slots.Nonempty := by
        rintro ⟨i, member⟩
        exact nothing i ((h.has i).mpr member)
      rw [run, dif_neg empty]
    · have member := (h.has i).mp has
      have greatest : slots.max' ⟨i, member⟩ = i := by
        apply Nat.le_antisymm
        · exact top _ ((h.has _).mpr (slots.max'_mem _))
        · exact slots.le_max' i member
      rw [run, dif_pos ⟨i, member⟩, greatest]
  · rcases findLowest_spec h.summarized window with ⟨run, nothing⟩ | ⟨i, run, has, bottom⟩
    · have empty : ¬ slots.Nonempty := by
        rintro ⟨i, member⟩
        exact nothing i ((h.has i).mpr member)
      rw [run, dif_neg empty]
    · have member := (h.has i).mp has
      have least : slots.min' ⟨i, member⟩ = i := by
        apply Nat.le_antisymm
        · exact slots.min'_le i member
        · exact bottom _ ((h.has _).mpr (slots.min'_mem _))
      rw [run, dif_pos ⟨i, member⟩, least]
  · intro σ fn s
    obtain ⟨order, sorted, mem, walk⟩ := forEachDescending_spec (σ := σ) h.summarized window
    rw [walk, h.sort_eq (sorted.imp fun more => Nat.le_of_lt more) (sorted.imp Nat.ne_of_gt) mem]
  · intro σ fn s
    obtain ⟨order, sorted, mem, walk⟩ := forEachAscending_spec (σ := σ) h.summarized window
    rw [walk, h.sort_eq (sorted.imp fun less => Nat.le_of_lt less) (sorted.imp Nat.ne_of_lt) mem]

/-- After any sets and clears of slots in the window a new bitmap stands for the set they
    leave. -/
theorem bitmap_refines_set (calls : List BitmapCall)
    (small : ∀ c ∈ calls, c.idx < priceWindow) :
    Refines (calls.foldl BitmapCall.run {}) (slotsLeft calls) :=
  (holds_calls calls holds_new small).refines

def sharedWord : List BitmapCall := [.set 70, .set 65535, .set 70, .clear 3, .set 64, .clear 65535]

theorem bitmap_refines_set_sharedWord :
    Refines (sharedWord.foldl BitmapCall.run {}) (slotsLeft sharedWord) :=
  bitmap_refines_set sharedWord (by decide)

end PriceBitmap
end MarketBookExchange
