import MarketBookExchange.Lib.RankedList

/- A sorted map from keys to queues. Elements of one key share a queue in the order of
   their arrival, and no key has an empty one. -/
namespace SortedBuckets
open RankedList

/-- Cells in ascending rank, each with the queue of the elements of its rank. -/
structure Buckets {α κ : Type} (key : α → κ) (rank : κ → Int) where
  cells : List (κ × List α) := []
  sorted : (cells.map fun c => rank c.1).Pairwise (· < ·) := by exact List.Pairwise.nil
  filled : ∀ c ∈ cells, c.2 ≠ [] := by simp
  keyed : ∀ c ∈ cells, ∀ a ∈ c.2, rank (key a) = rank c.1 := by simp

variable {α κ : Type} {key : α → κ} {rank : κ → Int}

section Cells

def pushCells (key : α → κ) (rank : κ → Int) (a : α) : List (κ × List α) → List (κ × List α)
  | [] => [(key a, [a])]
  | (k, fifo) :: rest =>
    if rank (key a) < rank k then (key a, [a]) :: (k, fifo) :: rest
    else if rank (key a) = rank k then (k, fifo ++ [a]) :: rest
    else (k, fifo) :: pushCells key rank a rest

def popCells : List (κ × List α) → List (κ × List α)
  | (k, _ :: a :: fifo) :: rest => (k, a :: fifo) :: rest
  | _ :: rest => rest
  | [] => []

def mapCells (f : α → α) : List (κ × List α) → List (κ × List α)
  | (k, a :: fifo) :: rest => (k, f a :: fifo) :: rest
  | cells => cells

theorem pushCells_all {P : κ → Prop} {Q : κ → List α → Prop} (a : α) {l : List (κ × List α)}
    (old : ∀ c ∈ l, P c.1 ∧ Q c.1 c.2) (new : P (key a) ∧ Q (key a) [a])
    (more : ∀ c ∈ l, rank (key a) = rank c.1 → Q c.1 (c.2 ++ [a])) :
    ∀ c ∈ pushCells key rank a l, P c.1 ∧ Q c.1 c.2 := by
  induction l with
  | nil =>
    intro c hc
    rw [List.mem_singleton.mp hc]
    exact new
  | cons d rest ih =>
    obtain ⟨k, fifo⟩ := d
    have tail := ih (fun c hc => old c (by simp [hc])) (fun c hc => more c (by simp [hc]))
    intro c hc
    rw [pushCells] at hc
    split at hc
    · rcases List.mem_cons.mp hc with rfl | later
      · exact new
      · exact old c later
    · split at hc
      · rename_i same
        rcases List.mem_cons.mp hc with rfl | later
        · exact ⟨(old (k, fifo) (by simp)).1, more (k, fifo) (by simp) same⟩
        · exact old c (by simp [later])
      · rcases List.mem_cons.mp hc with rfl | later
        · exact old (k, fifo) (by simp)
        · exact tail c later

theorem pushCells_sorted (a : α) {l : List (κ × List α)}
    (sorted : (l.map fun c => rank c.1).Pairwise (· < ·)) :
    ((pushCells key rank a l).map fun c => rank c.1).Pairwise (· < ·) := by
  induction l with
  | nil => exact List.pairwise_singleton _ _
  | cons d rest ih =>
    obtain ⟨k, fifo⟩ := d
    obtain ⟨first, later⟩ := List.pairwise_cons.mp sorted
    rw [pushCells]
    split
    · rename_i less
      refine List.pairwise_cons.mpr ⟨fun r hr => ?_, sorted⟩
      rcases List.mem_cons.mp hr with rfl | behind
      · exact less
      · exact Int.lt_trans less (first r behind)
    · split
      · exact List.pairwise_cons.mpr ⟨first, later⟩
      · refine List.pairwise_cons.mpr ⟨fun r hr => ?_, ih later⟩
        obtain ⟨c, hc, rfl⟩ := List.mem_map.mp hr
        have above : rank k < rank (key a) := by omega
        exact (pushCells_all (Q := fun _ _ => True) (P := fun k' => rank k < rank k') a
          (fun c hc => ⟨first _ (List.mem_map_of_mem hc), trivial⟩) ⟨above, trivial⟩
          (fun _ _ _ => trivial) c hc).1

theorem popCells_sub (rank : κ → Int) (l : List (κ × List α)) :
    (∀ c ∈ popCells l, ∃ d ∈ l, d.1 = c.1 ∧ (∀ a ∈ c.2, a ∈ d.2) ∧ (d.2 ≠ [] → c.2 ≠ [])) ∧
    ((popCells l).map fun c => rank c.1).Sublist (l.map fun c => rank c.1) := by
  rcases l with _ | ⟨⟨k, ⟨⟩ | ⟨a, ⟨⟩ | ⟨b, fifo⟩⟩⟩, rest⟩
  · exact ⟨fun c hc => (by cases hc), List.Sublist.refl _⟩
  · exact ⟨fun c hc => ⟨c, by simp [show c ∈ rest from hc]⟩, List.sublist_cons_self _ _⟩
  · exact ⟨fun c hc => ⟨c, by simp [show c ∈ rest from hc]⟩, List.sublist_cons_self _ _⟩
  · refine ⟨fun c hc => ?_, List.Sublist.refl _⟩
    rcases List.mem_cons.mp hc with rfl | later
    · exact ⟨(k, a :: b :: fifo), by simp, rfl, fun x hx => List.mem_cons_of_mem _ hx, by simp⟩
    · exact ⟨c, by simp [later], rfl, fun _ h => h, fun h => h⟩

theorem mapCells_sub (rank : κ → Int) (f : α → α) (l : List (κ × List α)) :
    (∀ c ∈ mapCells f l, ∃ d ∈ l, d.1 = c.1 ∧ (∀ a ∈ c.2, a ∈ d.2 ∨ ∃ b ∈ d.2, a = f b) ∧
      (d.2 ≠ [] → c.2 ≠ [])) ∧
    (mapCells f l).map (fun c => rank c.1) = l.map fun c => rank c.1 := by
  rcases l with _ | ⟨⟨k, ⟨⟩ | ⟨b, fifo⟩⟩, rest⟩
  · exact ⟨fun c hc => (by cases hc), rfl⟩
  · exact ⟨fun c hc => ⟨c, hc, rfl, fun _ h => Or.inl h, fun h => h⟩, rfl⟩
  · refine ⟨fun c hc => ?_, rfl⟩
    rcases List.mem_cons.mp hc with rfl | later
    · refine ⟨(k, b :: fifo), by simp, rfl, fun a ha => ?_, by simp⟩
      rcases List.mem_cons.mp ha with rfl | behind
      · exact Or.inr ⟨b, by simp, rfl⟩
      · exact Or.inl (List.mem_cons_of_mem _ behind)
    · exact ⟨c, by simp [later], rfl, fun _ h => Or.inl h, fun h => h⟩

end Cells

namespace Buckets

def push (b : Buckets key rank) (a : α) : Buckets key rank where
  cells := pushCells key rank a b.cells
  sorted := pushCells_sorted a b.sorted
  filled := fun c hc => (pushCells_all (P := fun _ => True) (Q := fun _ fifo => fifo ≠ []) a
    (fun c hc => ⟨trivial, b.filled c hc⟩) ⟨trivial, by simp⟩ (fun _ _ _ => by simp) c hc).2
  keyed := fun c hc => (pushCells_all (P := fun _ => True)
    (Q := fun k fifo => ∀ a ∈ fifo, rank (key a) = rank k) a
    (fun c hc => ⟨trivial, b.keyed c hc⟩) ⟨trivial, by simp⟩ (fun c hc same x hx => by
      rcases List.mem_append.mp hx with old | new
      · exact b.keyed c hc x old
      · rw [List.mem_singleton.mp new, same]) c hc).2

def front (b : Buckets key rank) : Option α :=
  match b.cells with
  | (_, a :: _) :: _ => some a
  | _ => none

/-- A queue that runs empty takes its key along. -/
def popFront (b : Buckets key rank) : Buckets key rank where
  cells := popCells b.cells
  sorted := b.sorted.sublist (popCells_sub rank b.cells).2
  filled := fun c hc => by
    obtain ⟨d, hd, _, _, kept⟩ := (popCells_sub rank b.cells).1 c hc
    exact kept (b.filled d hd)
  keyed := fun c hc a ha => by
    obtain ⟨d, hd, same, sub, _⟩ := (popCells_sub rank b.cells).1 c hc
    rw [← same]
    exact b.keyed d hd a (sub a ha)

def mapFront (b : Buckets key rank) (f : α → α) (same : ∀ a, key (f a) = key a) :
    Buckets key rank where
  cells := mapCells f b.cells
  sorted := by
    rw [(mapCells_sub rank f b.cells).2]
    exact b.sorted
  filled := fun c hc => by
    obtain ⟨d, hd, _, _, kept⟩ := (mapCells_sub rank f b.cells).1 c hc
    exact kept (b.filled d hd)
  keyed := fun c hc a ha => by
    obtain ⟨d, hd, keys, sub, _⟩ := (mapCells_sub rank f b.cells).1 c hc
    rw [← keys]
    rcases sub a ha with old | ⟨x, hx, rfl⟩
    · exact b.keyed d hd a old
    · rw [same]
      exact b.keyed d hd x hx

def items (b : Buckets key rank) : List α := b.cells.flatMap Prod.snd

theorem front_eq (b : Buckets key rank) : b.front = b.items.head? := by
  obtain ⟨cells, sorted, filled, keyed⟩ := b
  rcases cells with _ | ⟨⟨k, ⟨⟩ | ⟨a, fifo⟩⟩, rest⟩
  · rfl
  · exact absurd rfl (filled (k, []) (by simp))
  · rfl

theorem items_popFront (b : Buckets key rank) : b.popFront.items = b.items.tail := by
  obtain ⟨cells, sorted, filled, keyed⟩ := b
  rcases cells with _ | ⟨⟨k, ⟨⟩ | ⟨a, ⟨⟩ | ⟨c, fifo⟩⟩⟩, rest⟩
  · rfl
  · exact absurd rfl (filled (k, []) (by simp))
  · rfl
  · rfl

theorem items_mapFront (b : Buckets key rank) (f : α → α) (same : ∀ a, key (f a) = key a) :
    (b.mapFront f same).items = b.items.modifyHead f := by
  obtain ⟨cells, sorted, filled, keyed⟩ := b
  rcases cells with _ | ⟨⟨k, ⟨⟩ | ⟨a, fifo⟩⟩, rest⟩
  · rfl
  · exact absurd rfl (filled (k, []) (by simp))
  · rfl

theorem items_pushCells (a : α) {l : List (κ × List α)}
    (sorted : (l.map fun c => rank c.1).Pairwise (· < ·)) (filled : ∀ c ∈ l, c.2 ≠ [])
    (keyed : ∀ c ∈ l, ∀ a ∈ c.2, rank (key a) = rank c.1) :
    (pushCells key rank a l).flatMap Prod.snd =
      insert (fun x => rank (key x)) a (l.flatMap Prod.snd) := by
  induction l with
  | nil => rfl
  | cons d rest ih =>
    obtain ⟨k, fifo⟩ := d
    obtain ⟨first, later⟩ := List.pairwise_cons.mp sorted
    have own : ∀ x ∈ fifo, rank (key x) = rank k := keyed (k, fifo) (by simp)
    have behind : ∀ x ∈ rest.flatMap Prod.snd, rank k < rank (key x) := by
      intro x hx
      obtain ⟨c, hc, inside⟩ := List.mem_flatMap.mp hx
      rw [keyed c (by simp [hc]) x inside]
      exact first _ (List.mem_map_of_mem hc)
    rw [pushCells, List.flatMap_cons]
    split
    · rename_i less
      rw [insert_eq_cons fun x hx => ?_]
      · rfl
      · rcases List.mem_append.mp hx with here | after
        · rw [own x here]
          exact less
        · exact Int.lt_trans less (behind x after)
    · rename_i notLess
      rw [insert_append fun x hx => by rw [own x hx]; omega]
      split
      · rename_i same
        rw [insert_eq_cons fun x hx => by rw [same]; exact behind x hx, List.flatMap_cons]
        simp
      · rw [List.flatMap_cons, ih later (fun c hc => filled c (by simp [hc]))
          fun c hc => keyed c (by simp [hc])]

/-- The map behaves as the ranked list of its elements. -/
theorem items_push (b : Buckets key rank) (a : α) :
    (b.push a).items = insert (fun x => rank (key x)) a b.items :=
  items_pushCells a b.sorted b.filled b.keyed

end Buckets
end SortedBuckets
