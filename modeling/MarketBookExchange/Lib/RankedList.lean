import Mathlib.Data.List.Sort

/- A queue kept in ascending rank, where an arrival stands behind everything of its own
   rank. This is a family of FIFO queues, one for each rank, laid end to end. -/
namespace RankedList
variable {α : Type}

def insert (rank : α → Int) (a : α) (l : List α) : List α :=
  l.orderedInsert (fun x y => rank x < rank y) a

def Ranked (rank : α → Int) (l : List α) : Prop := l.Pairwise fun x y => rank x ≤ rank y

section
variable {rank : α → Int}

@[simp] theorem insert_nil (a : α) : insert rank a [] = [a] := rfl

theorem insert_cons (a b : α) (l : List α) :
    insert rank a (b :: l) = if rank a < rank b then a :: b :: l else b :: insert rank a l := by
  simp [insert]

theorem insert_eq_cons {a : α} {l : List α} (h : ∀ b ∈ l, rank a < rank b) :
    insert rank a l = a :: l := by
  cases l with
  | nil => rfl
  | cons b l => rw [insert_cons, if_pos (h b (by simp))]

theorem insert_append {a : α} {l m : List α} (h : ∀ b ∈ l, rank b ≤ rank a) :
    insert rank a (l ++ m) = l ++ insert rank a m := by
  induction l with
  | nil => rfl
  | cons b l ih =>
    have le := h b (by simp)
    rw [List.cons_append, insert_cons, if_neg (by omega), ih fun c hc => h c (by simp [hc])]
    rfl

theorem perm_insert (a : α) (l : List α) : (insert rank a l).Perm (a :: l) :=
  List.perm_orderedInsert _ a l

@[simp] theorem mem_insert {a b : α} {l : List α} : b ∈ insert rank a l ↔ b = a ∨ b ∈ l := by
  rw [(perm_insert a l).mem_iff, List.mem_cons]

@[simp] theorem length_insert (a : α) (l : List α) :
    (insert rank a l).length = l.length + 1 := by
  have perm : (insert rank a l).Perm (a :: l) := perm_insert a l
  simpa using perm.length_eq

/-- A relation along the queue survives an arrival that stands right with everything of a
    rank up to its own before it and with the rest behind it. -/
theorem pairwise_insert {R : α → α → Prop} {l : List α} (h : l.Pairwise R) (ranked : Ranked rank l)
    {a : α} (before : ∀ b ∈ l, rank b ≤ rank a → R b a)
    (behind : ∀ b ∈ l, rank a < rank b → R a b) : (insert rank a l).Pairwise R := by
  induction l with
  | nil => simp
  | cons b l ih =>
    obtain ⟨least, tail⟩ := List.pairwise_cons.mp ranked
    obtain ⟨first, rest⟩ := List.pairwise_cons.mp h
    rw [insert_cons]
    split
    · rename_i less
      refine List.pairwise_cons.mpr ⟨fun c hc => ?_, h⟩
      refine behind c hc ?_
      rcases List.mem_cons.mp hc with same | later
      · subst same; exact less
      · have := least c later; omega
    · rename_i notLess
      refine List.pairwise_cons.mpr ⟨fun c hc => ?_, ?_⟩
      · rcases mem_insert.mp hc with same | old
        · subst same
          exact before b (by simp) (by omega)
        · exact first c old
      · exact ih rest tail (fun c hc => before c (by simp [hc])) (fun c hc => behind c (by simp [hc]))

theorem ranked_insert {l : List α} (h : Ranked rank l) (a : α) : Ranked rank (insert rank a l) :=
  pairwise_insert h h (fun _ _ le => le) fun _ _ lt => Int.le_of_lt lt

theorem filter_insert {l : List α} (h : Ranked rank l) (a : α) (p : α → Bool) :
    (insert rank a l).filter p =
      if p a then insert rank a (l.filter p) else l.filter p := by
  induction l with
  | nil => by_cases pa : p a <;> simp [pa]
  | cons b l ih =>
    obtain ⟨least, tail⟩ := List.pairwise_cons.mp h
    have step := ih tail
    rw [insert_cons]
    by_cases less : rank a < rank b
    · have front : ∀ m : List α, (∀ c ∈ m, rank a < rank c) → insert rank a m = a :: m := by
        intro m above
        cases m with
        | nil => rfl
        | cons c m => rw [insert_cons, if_pos (above c (by simp))]
      have above : ∀ c ∈ (b :: l).filter p, rank a < rank c := by
        intro c hc
        rcases List.mem_cons.mp (List.mem_of_mem_filter hc) with same | later
        · subst same; exact less
        · have := least c later; omega
      rw [if_pos less, front _ above, List.filter_cons]
    · rw [if_neg less, List.filter_cons, List.filter_cons, step]
      by_cases pa : p a <;> by_cases pb : p b <;> simp [pa, pb, insert_cons, less]

theorem filter_rank_insert {l : List α} (h : Ranked rank l) (a : α) (p : α → Bool)
    (oneRank : ∀ b ∈ l, p b → rank b = rank a) (pa : p a) :
    (insert rank a l).filter p = l.filter p ++ [a] := by
  rw [filter_insert h a p, if_pos pa]
  have same : ∀ b ∈ l.filter p, rank b = rank a := fun b hb =>
    oneRank b (List.mem_of_mem_filter hb) (List.mem_filter.mp hb).2
  generalize l.filter p = m at same
  induction m with
  | nil => rfl
  | cons b m ih =>
    rw [insert_cons, if_neg (by have := same b (by simp); omega),
      ih (fun c hc => same c (by simp [hc])), List.cons_append]

theorem ranked_sublist {l m : List α} (h : Ranked rank l) (sub : m.Sublist l) : Ranked rank m :=
  List.Pairwise.sublist sub h

theorem ranked_tail {a : α} {l : List α} (h : Ranked rank (a :: l)) : Ranked rank l :=
  (List.pairwise_cons.mp h).2

theorem ranked_head_le {a : α} {l : List α} (h : Ranked rank (a :: l)) :
    ∀ b ∈ l, rank a ≤ rank b :=
  (List.pairwise_cons.mp h).1

theorem ranked_replace_head {a a' : α} {l : List α} (h : Ranked rank (a :: l))
    (same : rank a' = rank a) : Ranked rank (a' :: l) := by
  refine List.pairwise_cons.mpr ⟨fun b hb => ?_, ranked_tail h⟩
  rw [same]
  exact ranked_head_le h b hb

theorem insert_congr {rank' : α → Int} {a : α} {l : List α}
    (same : ∀ b ∈ l, rank a < rank b ↔ rank' a < rank' b) :
    insert rank a l = insert rank' a l := by
  induction l with
  | nil => rfl
  | cons b l ih =>
    rw [insert_cons, insert_cons, ih (fun c hc => same c (by simp [hc]))]
    simp only [same b (by simp)]

/-- A ranked queue is its one-rank queues, laid end to end in rank order. -/
theorem eq_flatMap_filter {l : List α} (h : Ranked rank l) (ks : List Int)
    (order : ks.Pairwise (· < ·)) (cover : ∀ a ∈ l, rank a ∈ ks) :
    l = ks.flatMap fun k => l.filter fun a => rank a = k := by
  induction ks generalizing l with
  | nil =>
    cases l with
    | nil => rfl
    | cons a l => exact absurd (cover a (by simp)) (by simp)
  | cons k ks ih =>
    obtain ⟨least, tail⟩ := List.pairwise_cons.mp order
    have low : ∀ a ∈ l, k ≤ rank a := by
      intro a ha
      rcases List.mem_cons.mp (cover a ha) with same | later
      · omega
      · have := least _ later; omega
    have cut : l = (l.filter fun a => rank a = k) ++ l.filter fun a => ¬ rank a = k := by
      clear cover ih
      induction l with
      | nil => rfl
      | cons a l ih =>
        obtain ⟨above, more⟩ := List.pairwise_cons.mp h
        by_cases same : rank a = k
        · simp only [List.filter_cons, same, decide_true, if_true, not_true, decide_false,
            Bool.false_eq_true, if_false, List.cons_append]
          congr 1
          exact ih more (fun b hb => low b (by simp [hb]))
        · have none : l.filter (fun b => rank b = k) = [] := by
            rw [List.filter_eq_nil_iff]
            intro b hb
            have := above b hb
            have := low a (by simp)
            simp only [decide_eq_true_eq]
            omega
          have all : l.filter (fun b => ¬ rank b = k) = l := by
            rw [List.filter_eq_self]
            intro b hb
            have := above b hb
            have := low a (by simp)
            simp only [decide_eq_true_eq]
            omega
          rw [List.filter_cons_of_neg (by simpa using same),
            List.filter_cons_of_pos (by simpa using same), none, all]
          rfl
    have rest := ih (l := l.filter fun a => ¬ rank a = k)
      (ranked_sublist h List.filter_sublist) tail (by
        intro a ha
        have kept := List.mem_filter.mp ha
        have notK : ¬ rank a = k := by simpa using kept.2
        exact (List.mem_cons.mp (cover a kept.1)).resolve_left notK)
    rw [List.flatMap_cons]
    conv_lhs => rw [cut, rest]
    congr 1
    rw [List.flatMap_def, List.flatMap_def]
    congr 1
    refine List.map_congr_left fun j hj => ?_
    rw [List.filter_filter]
    refine List.filter_congr fun a _ => ?_
    have := least j hj
    by_cases same : rank a = j
    · simp [same]; omega
    · simp [same]

end
end RankedList
