import Mathlib.Logic.Function.Basic
import Mathlib.Data.List.Basic
import Mathlib.Data.List.Nodup
import Mathlib.Data.List.Perm.Basic

/- Intrusive lists over index-addressed links, and the division of a pool of indices
   among named lists. The links are two functions; `none` is the index that ends a list. -/
namespace LinkedCells
variable {ι P : Type}

/-- Following `next` from `head` visits the list, and `prev` mirrors it back to `before`. -/
def Linked (none : ι) (next prev : ι → ι) : ι → ι → List ι → Prop
  | _, head, [] => head = none
  | before, head, i :: rest =>
    head = i ∧ i ≠ none ∧ prev i = before ∧ Linked none next prev i (next i) rest

def Threaded (none : ι) (next : ι → ι) : ι → List ι → Prop
  | head, [] => head = none
  | head, i :: rest => head = i ∧ i ≠ none ∧ Threaded none next (next i) rest

section Links
variable {none before head : ι} {next prev next' prev' : ι → ι}

theorem linked_congr {l : List ι} (h : Linked none next prev before head l)
    (sameNext : ∀ i ∈ l, next' i = next i) (samePrev : ∀ i ∈ l, prev' i = prev i) :
    Linked none next' prev' before head l := by
  induction l generalizing before head with
  | nil => exact h
  | cons i rest ih =>
    obtain ⟨first, real, back, tail⟩ := h
    refine ⟨first, real, (samePrev i (by simp)).trans back, ?_⟩
    rw [sameNext i (by simp)]
    exact ih tail (fun j hj => sameNext j (by simp [hj])) (fun j hj => samePrev j (by simp [hj]))

theorem threaded_congr {l : List ι} (h : Threaded none next head l)
    (same : ∀ i ∈ l, next' i = next i) : Threaded none next' head l := by
  induction l generalizing head with
  | nil => exact h
  | cons i rest ih =>
    obtain ⟨first, real, tail⟩ := h
    refine ⟨first, real, ?_⟩
    rw [same i (by simp)]
    exact ih tail (fun j hj => same j (by simp [hj]))

theorem linked_head {l : List ι} (h : Linked none next prev before head l) :
    head = l.headD none := by
  cases l with
  | nil => exact h
  | cons i rest => exact h.1

/-- Appending one cell rewrites the last cell's `next` and the new cell's two links. -/
theorem linked_concat {i : ι} {l : List ι} (h : Linked none next prev before head l)
    (nodup : l.Nodup) (real : i ≠ none) (ends : next' i = none)
    (back : prev' i = l.getLastD before)
    (lastNext : ∀ j ∈ l, j = l.getLastD before → next' j = i)
    (sameNext : ∀ j ∈ l, j ≠ l.getLastD before → next' j = next j)
    (samePrev : ∀ j ∈ l, prev' j = prev j) :
    Linked none next' prev' before (if l = [] then i else head) (l ++ [i]) := by
  induction l generalizing before head with
  | nil => exact ⟨rfl, real, back, ends⟩
  | cons j rest ih =>
    obtain ⟨first, realj, backj, tail⟩ := h
    obtain ⟨fresh, nodupRest⟩ := List.nodup_cons.mp nodup
    have lastEq : (j :: rest).getLastD before = rest.getLastD j := by
      cases rest <;> simp [List.getLastD]
    refine ⟨by simp [first], realj, (samePrev j (by simp)).trans backj, ?_⟩
    have step := ih tail nodupRest (by rw [back, lastEq])
      (fun k hk e => lastNext k (by simp [hk]) (by rw [lastEq]; exact e))
      (fun k hk e => sameNext k (by simp [hk]) (by rw [lastEq]; exact e))
      (fun k hk => samePrev k (by simp [hk]))
    cases rest with
    | nil =>
      have link := lastNext j (by simp) (by simp [List.getLastD])
      simpa [link] using step
    | cons k rest =>
      have inner : j ≠ (k :: rest).getLastD j := by
        intro same
        have : (k :: rest).getLastD j ∈ k :: rest := by
          simp [List.getLastD]
        exact fresh (same ▸ this)
      rw [sameNext j (by simp) (by rw [lastEq]; exact inner)]
      simpa using step

theorem linked_next {i : ι} {pre post : List ι}
    (h : Linked none next prev before head (pre ++ i :: post)) : next i = post.headD none := by
  induction pre generalizing before head with
  | nil => exact linked_head h.2.2.2
  | cons j pre ih => exact ih h.2.2.2

theorem linked_prev {i : ι} {pre post : List ι}
    (h : Linked none next prev before head (pre ++ i :: post)) : prev i = pre.getLastD before := by
  induction pre generalizing before head with
  | nil => exact h.2.2.1
  | cons j pre ih =>
    rw [ih h.2.2.2]
    cases pre <;> simp [List.getLastD]

/-- Taking one cell out rewrites `next` of the cell before it and `prev` of the one after. -/
theorem linked_remove {i : ι} {pre post : List ι}
    (h : Linked none next prev before head (pre ++ i :: post))
    (nodup : (pre ++ i :: post).Nodup) (outside : before ∉ pre ++ i :: post)
    (sameNext : ∀ j ∈ pre ++ post, j ≠ pre.getLastD before → next' j = next j)
    (lastNext : pre ≠ [] → next' (pre.getLastD before) = next i)
    (samePrev : ∀ j ∈ pre ++ post, j ≠ post.headD none → prev' j = prev j)
    (headPrev : post ≠ [] → prev' (post.headD none) = pre.getLastD before) :
    Linked none next' prev' before (if pre = [] then next i else head) (pre ++ post) := by
  induction pre generalizing before head with
  | nil =>
    obtain ⟨_, _, _, tail⟩ := h
    simp only [List.nil_append, List.getLastD_nil, if_true] at *
    have away : ∀ k ∈ post, k ≠ before := fun k hk e => outside (by simp [← e, hk])
    cases post with
    | nil => exact tail
    | cons j rest =>
      obtain ⟨first, real, _, more⟩ := tail
      refine ⟨first, real, headPrev (by simp), ?_⟩
      rw [sameNext j (by simp) (away j (by simp))]
      refine linked_congr more (fun k hk => sameNext k (by simp [hk]) (away k (by simp [hk]))) ?_
      intro k hk
      have fresh : k ≠ j := by
        intro e
        subst e
        exact (List.nodup_cons.mp (List.nodup_cons.mp nodup).2).1 hk
      exact samePrev k (by simp [hk]) (by simpa using fresh)
  | cons j pre ih =>
    obtain ⟨first, real, back, tail⟩ := h
    obtain ⟨fresh, nodupRest⟩ := List.nodup_cons.mp nodup
    have lastEq : (j :: pre).getLastD before = pre.getLastD j := by
      cases pre <;> simp [List.getLastD]
    simp only [lastEq] at sameNext lastNext headPrev
    have notHead : post ≠ [] → j ≠ post.headD none := by
      intro nonempty e
      cases post with
      | nil => exact nonempty rfl
      | cons k rest =>
        simp only [List.headD_cons] at e
        exact fresh (by simp [e])
    have step := ih tail nodupRest fresh
      (fun k hk => sameNext k (by simp [hk]))
      (fun _ => lastNext (by simp))
      (fun k hk => samePrev k (by simp [hk])) headPrev
    refine ⟨by simp [first], real, ?_, ?_⟩
    · rw [← back]
      refine samePrev j (by simp) ?_
      cases post with
      | nil => simpa using real
      | cons k rest => exact notHead (by simp)
    · cases pre with
      | nil =>
        have link : next' j = next i := lastNext (by simp)
        rw [link]
        simpa using step
      | cons k pre =>
        have inner : j ≠ (k :: pre).getLastD j := by
          intro e
          have member : (k :: pre).getLastD j ∈ k :: pre := by simp [List.getLastD]
          exact fresh (by rw [e]; exact List.mem_append_left _ member)
        rw [sameNext j (by simp) inner]
        simpa using step

end Links

/-- Every index below `size` lies in exactly one list, once, and nothing else does. -/
structure Divided (size : Nat) (place : Nat → P) (cells : P → List Nat) : Prop where
  nodup : ∀ p, (cells p).Nodup
  mem : ∀ p i, i ∈ cells p ↔ i < size ∧ place i = p

namespace Divided
variable {size : Nat} {place : Nat → P} {cells : P → List Nat}

theorem lt_size (d : Divided size place cells) {p : P} {i : Nat} (h : i ∈ cells p) : i < size :=
  ((d.mem p i).mp h).1

theorem only (d : Divided size place cells) {p q : P} {i : Nat} (hp : i ∈ cells p)
    (hq : i ∈ cells q) : p = q :=
  (((d.mem p i).mp hp).2).symm.trans ((d.mem q i).mp hq).2

theorem ne_of_mem (d : Divided size place cells) {p q : P} {i j : Nat} (hp : i ∈ cells p)
    (hq : j ∈ cells q) (ne : p ≠ q) : i ≠ j := by
  intro same
  subst same
  exact ne (d.only hp hq)

theorem length_le (d : Divided size place cells) (p : P) : (cells p).length ≤ size := by
  have sub : cells p ⊆ List.range size := fun i hi => List.mem_range.mpr (d.lt_size hi)
  simpa using (d.nodup p).length_le_of_subset sub

theorem total_le (d : Divided size place cells) {ps : List P} (nodup : ps.Nodup) :
    (ps.flatMap cells).length ≤ size := by
  have distinct : (ps.flatMap cells).Nodup := by
    refine List.nodup_flatMap.mpr ⟨fun p _ => d.nodup p, ?_⟩
    refine nodup.imp ?_
    intro p q ne i hp hq
    exact ne (d.only hp hq)
  have sub : ps.flatMap cells ⊆ List.range size := by
    intro i hi
    obtain ⟨p, _, hp⟩ := List.mem_flatMap.mp hi
    exact List.mem_range.mpr (d.lt_size hp)
  simpa using distinct.length_le_of_subset sub

theorem size_le (d : Divided size place cells) {ps : List P}
    (all : ∀ p i, i ∈ cells p → p ∈ ps) : size ≤ (ps.flatMap cells).length := by
  have sub : List.range size ⊆ ps.flatMap cells := by
    intro i hi
    have here := (d.mem (place i) i).mpr ⟨List.mem_range.mp hi, rfl⟩
    exact List.mem_flatMap.mpr ⟨place i, all _ i here, here⟩
  simpa using List.nodup_range.length_le_of_subset sub

theorem move [DecidableEq P] (d : Divided size place cells) {p q : P} (pq : p ≠ q) {i : Nat}
    {lp lq : List Nat} (taken : (cells p).Perm (i :: lp)) (onto : lq.Perm (i :: cells q)) :
    Divided size (Function.update place i q)
      (Function.update (Function.update cells p lp) q lq) := by
  have inP : i ∈ cells p := taken.symm.subset (by simp)
  have notQ : i ∉ cells q := fun h => pq (d.only inP h)
  have nodupP : (i :: lp).Nodup := taken.nodup_iff.mp (d.nodup p)
  have membP : ∀ j, j ∈ lp ↔ j ∈ cells p ∧ j ≠ i := by
    intro j
    have := taken.mem_iff (a := j)
    have fresh := (List.nodup_cons.mp nodupP).1
    constructor
    · intro h
      exact ⟨this.mpr (by simp [h]), fun e => fresh (e ▸ h)⟩
    · rintro ⟨h, ne⟩
      rcases List.mem_cons.mp (this.mp h) with e | h
      · exact absurd e ne
      · exact h
  constructor
  · intro r
    by_cases rq : r = q
    · subst rq
      simp only [Function.update_self]
      exact onto.nodup_iff.mpr (List.nodup_cons.mpr ⟨notQ, d.nodup r⟩)
    · by_cases rp : r = p
      · subst rp
        simp only [Function.update_of_ne rq, Function.update_self]
        exact (List.nodup_cons.mp nodupP).2
      · simp only [Function.update_of_ne rq, Function.update_of_ne rp]
        exact d.nodup r
  · intro r j
    by_cases rq : r = q
    · subst rq
      simp only [Function.update_self, onto.mem_iff, List.mem_cons, d.mem]
      by_cases ji : j = i
      · subst ji
        simp [d.lt_size inP]
      · simp [ji]
    · by_cases rp : r = p
      · subst rp
        simp only [Function.update_of_ne rq, Function.update_self, membP, d.mem]
        by_cases ji : j = i
        · subst ji
          simp [Ne.symm rq]
        · simp [ji]
      · simp only [Function.update_of_ne rq, Function.update_of_ne rp, d.mem]
        by_cases ji : j = i
        · subst ji
          have := ((d.mem p j).mp inP).2
          simp [Ne.symm rq, this, Ne.symm rp]
        · simp [ji]

theorem extend [DecidableEq P] (d : Divided size place cells) (p : P) (count : Nat) :
    Divided (size + count) (fun i => if i < size then place i else p)
      (Function.update cells p (List.range' size count ++ cells p)) := by
  constructor
  · intro r
    by_cases rp : r = p
    · subst rp
      simp only [Function.update_self]
      refine List.nodup_append.mpr ⟨List.nodup_range', d.nodup r, ?_⟩
      intro a ha b hb same
      subst same
      have := d.lt_size hb
      simp [List.mem_range'_1] at ha
      omega
    · simp only [Function.update_of_ne rp]
      exact d.nodup r
  · intro r i
    by_cases rp : r = p
    · subst rp
      simp only [Function.update_self, List.mem_append, List.mem_range'_1, d.mem]
      by_cases small : i < size
      · simp only [small, true_and, if_true]
        constructor
        · rintro (h | h)
          · omega
          · exact ⟨by omega, h⟩
        · exact fun h => Or.inr h.2
      · simp only [small, false_and, or_false, if_false, and_true]
        omega
    · simp only [Function.update_of_ne rp, d.mem]
      by_cases small : i < size
      · simp only [small, if_true, true_and]
        exact ⟨fun h => ⟨by omega, h⟩, fun h => h.2⟩
      · simp [small, Ne.symm rp]

end Divided
end LinkedCells
