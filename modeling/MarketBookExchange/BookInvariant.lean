import MarketBookExchange.PoolInvariant
import MarketBookExchange.QueueBook

/- One side of the book as a queue: each level's chain holds, in order, the queue's orders
   of that slot, and the bitmap marks the slots in use. -/
namespace MarketBookExchange
open LinkedCells RankedList Outcome

structure SideRep (pool : OrderPool) (cells : Place → List Nat) (t : OrderType)
    (side : BookSide) (l : List Order) : Prop where
  level : ∀ slot, LevelRep pool (side.levels slot) (cells (.level t slot))
  orders : ∀ slot, (cells (.level t slot)).map pool.order =
    l.filter fun o => indexOf o.priceLevel = slot
  bit : ∀ slot, side.bitmap.Has slot ↔ cells (.level t slot) ≠ []
  summarized : side.bitmap.Summarized
  ranked : Ranked (slotRank t) l

/-- Both sides over one pool, every node of which is on the free list or in one level. -/
def BookRep (pool : OrderPool) (sides : OrderType → BookSide) (queues : OrderType → List Order) :
    Prop :=
  ∃ place cells, PoolRep pool place cells ∧ ∀ t, SideRep pool cells t (sides t) (queues t)

namespace SideRep
variable {pool pool' : OrderPool} {cells cells' : Place → List Nat} {t : OrderType}
  {side : BookSide} {l l' : List Order}

theorem cells_nil_iff (rep : SideRep pool cells t side l) (slot : Nat) :
    cells (.level t slot) = [] ↔ ∀ o ∈ l, indexOf o.priceLevel ≠ slot := by
  rw [← List.map_eq_nil_iff (f := pool.order), rep.orders slot, List.filter_eq_nil_iff]
  simp

theorem has_iff (rep : SideRep pool cells t side l) (slot : Nat) :
    side.bitmap.Has slot ↔ ∃ o ∈ l, indexOf o.priceLevel = slot := by
  rw [rep.bit, ne_eq, rep.cells_nil_iff]
  simp

theorem window (rep : SideRep pool cells t side l) :
    ∀ slot, side.bitmap.Has slot → slot < priceWindow := by
  intro slot has
  obtain ⟨o, _, rfl⟩ := (rep.has_iff slot).mp has
  exact indexOf_lt _

theorem change (rep : SideRep pool cells t side l) {idx : Nat}
    (kept : Kept pool pool' cells cells' (.level t idx)) {lvl : PriceLevel} {bitmap : PriceBitmap}
    (lrep : LevelRep pool' lvl (cells' (.level t idx)))
    (orders : (cells' (.level t idx)).map pool'.order =
      l'.filter fun o => indexOf o.priceLevel = idx)
    (others : ∀ slot, slot ≠ idx → l'.filter (fun o => indexOf o.priceLevel = slot) =
      l.filter fun o => indexOf o.priceLevel = slot)
    (bits : ∀ slot, bitmap.Has slot ↔
      if slot = idx then cells' (.level t idx) ≠ [] else side.bitmap.Has slot)
    (summarized : bitmap.Summarized) (ranked : Ranked (slotRank t) l') :
    SideRep pool' cells' t ⟨Function.update side.levels idx lvl, bitmap⟩ l' := by
  have away : ∀ slot, slot ≠ idx → Place.level t slot ≠ .level t idx := by
    intro slot ne e
    injection e
    contradiction
  refine ⟨fun slot => ?_, fun slot => ?_, fun slot => ?_, summarized, ranked⟩
  · by_cases same : slot = idx
    · subst same
      simpa only [Function.update_self] using lrep
    · simpa only [Function.update_of_ne same] using
        kept.level (by simp) (away slot same) (rep.level slot)
  · by_cases same : slot = idx
    · subst same
      exact orders
    · rw [others slot same, kept.same _ (by simp) (away slot same), ← rep.orders slot]
      exact List.map_congr_left fun i hi => kept.order _ (by simp) (away slot same) i hi
  · rw [bits slot]
    by_cases same : slot = idx
    · rw [if_pos same, same]
    · rw [if_neg same, rep.bit slot, kept.same _ (by simp) (away slot same)]

theorem other (rep : SideRep pool cells t side l) {t' : OrderType} {idx : Nat}
    (kept : Kept pool pool' cells cells' (.level t' idx)) (ne : t ≠ t') :
    SideRep pool' cells' t side l := by
  have away : ∀ slot, Place.level t slot ≠ .level t' idx := by
    intro slot e
    injection e
    contradiction
  refine ⟨fun slot => kept.level (by simp) (away slot) (rep.level slot), fun slot => ?_,
    fun slot => ?_, rep.summarized, rep.ranked⟩
  · rw [kept.same _ (by simp) (away slot), ← rep.orders slot]
    exact List.map_congr_left fun i hi => kept.order _ (by simp) (away slot) i hi
  · rw [rep.bit slot, kept.same _ (by simp) (away slot)]

theorem front_cell (rep : SideRep pool cells t side l) {o : Order} {rest : List Order}
    (eq : l = o :: rest) : ∃ i more, cells (.level t (indexOf o.priceLevel)) = i :: more ∧
      pool.order i = o := by
  have orders := rep.orders (indexOf o.priceLevel)
  rw [eq, List.filter_cons_of_pos (by simp)] at orders
  obtain ⟨i, more, split, order, _⟩ := List.map_eq_cons_iff.mp orders
  exact ⟨i, more, split, order⟩

end SideRep

def bestIsHigh : OrderType → Bool
  | .buy => true
  | .sell => false

/-- The position of a slot on its side, best first. -/
def slotKey (t : OrderType) (slot : Nat) : Int :=
  match t with
  | .buy => -(slot : Int)
  | .sell => slot

theorem slotRank_eq (t : OrderType) (o : Order) :
    slotRank t o = slotKey t (indexOf o.priceLevel) := by
  cases t <;> rfl

theorem slotKey_inj {t : OrderType} {i j : Nat} : slotKey t i = slotKey t j ↔ i = j := by
  cases t <;> simp only [slotKey] <;> omega

/-- What each side's search finds is the slot that comes first on the side. -/
theorem BookSide.best_spec {side : BookSide} (summarized : side.bitmap.Summarized)
    (window : ∀ slot, side.bitmap.Has slot → slot < priceWindow) (t : OrderType) :
    (side.best (bestIsHigh t) = .ok none ∧ ∀ slot, ¬ side.bitmap.Has slot) ∨
    ∃ i, side.best (bestIsHigh t) = .ok (some i) ∧ side.bitmap.Has i ∧
      ∀ j, side.bitmap.Has j → slotKey t i ≤ slotKey t j := by
  cases t with
  | buy =>
    rcases PriceBitmap.findHighest_spec summarized window with ⟨run, none⟩ | ⟨i, run, has, top⟩
    · exact Or.inl ⟨run, none⟩
    · refine Or.inr ⟨i, run, has, fun j hj => ?_⟩
      have above := top j hj
      simp only [slotKey]
      omega
  | sell =>
    rcases PriceBitmap.findLowest_spec summarized window with ⟨run, none⟩ | ⟨i, run, has, low⟩
    · exact Or.inl ⟨run, none⟩
    · refine Or.inr ⟨i, run, has, fun j hj => ?_⟩
      have below := low j hj
      simp only [slotKey]
      omega

theorem SideRep.best_ok {pool : OrderPool} {cells : Place → List Nat} {t : OrderType}
    {side : BookSide} {l : List Order} (rep : SideRep pool cells t side l) :
    side.best (bestIsHigh t) = .ok (l.head?.map fun o => indexOf o.priceLevel) := by
  rcases BookSide.best_spec rep.summarized rep.window t with ⟨run, none⟩ | ⟨i, run, has, first⟩
  · rw [run]
    cases l with
    | nil => rfl
    | cons o rest => exact absurd ((rep.has_iff _).mpr ⟨o, by simp, rfl⟩) (none _)
  · rw [run]
    obtain ⟨x, hx, rfl⟩ := (rep.has_iff _).mp has
    cases l with
    | nil => simp at hx
    | cons o rest =>
      have up := first _ ((rep.has_iff _).mpr ⟨o, by simp, rfl⟩)
      have down : slotRank t o ≤ slotRank t x := by
        rcases List.mem_cons.mp hx with same | later
        · rw [same]
        · exact ranked_head_le rep.ranked x later
      rw [slotRank_eq, slotRank_eq] at down
      have same := slotKey_inj.mp (Int.le_antisymm up down)
      rw [List.head?_cons, Option.map_some, same]

theorem filter_head_of_ne {o : Order} {rest : List Order} {slot : Nat}
    (ne : slot ≠ indexOf o.priceLevel) :
    (o :: rest).filter (fun x => indexOf x.priceLevel = slot) =
      rest.filter fun x => indexOf x.priceLevel = slot :=
  List.filter_cons_of_neg (by simpa using Ne.symm ne)

def BookSide.afterLoss (side : BookSide) (idx : Nat) (lvl : PriceLevel) : BookSide :=
  if lvl.empty then ⟨Function.update side.levels idx lvl, side.bitmap.clear idx⟩
  else ⟨Function.update side.levels idx lvl, side.bitmap⟩

theorem BookSide.insert_eq (side : BookSide) (pool : OrderPool) (o : Order) :
    side.insert pool o = (do
      let pushed ← levelPushBack
        (if (side.levels (indexOf o.priceLevel)).empty then
          { side.levels (indexOf o.priceLevel) with levelPrice := o.priceLevel }
        else side.levels (indexOf o.priceLevel)) pool o
      pure (BookSide.setLevel ⟨side.levels,
        if (side.levels (indexOf o.priceLevel)).empty then side.bitmap.set (indexOf o.priceLevel)
        else side.bitmap⟩ (indexOf o.priceLevel) pushed.1, pushed.2)) := by
  unfold BookSide.insert
  by_cases none : (side.levels (indexOf o.priceLevel)).empty = true
  · simp only [if_pos none]
  · simp only [if_neg none]

namespace BookRep
variable {pool : OrderPool} {sides : OrderType → BookSide} {queues : OrderType → List Order}

theorem best_ok (rep : BookRep pool sides queues) (t : OrderType) :
    (sides t).best (bestIsHigh t) = .ok ((queues t).head?.map fun o => indexOf o.priceLevel) := by
  obtain ⟨place, cells, _, holds⟩ := rep
  exact (holds t).best_ok

theorem front_ok (rep : BookRep pool sides queues) {t : OrderType} {o : Order}
    {rest : List Order} (eq : queues t = o :: rest) :
    levelFront ((sides t).levels (indexOf o.priceLevel)) pool = .ok o := by
  obtain ⟨place, cells, prep, holds⟩ := rep
  obtain ⟨i, more, split, order⟩ := (holds t).front_cell eq
  rw [levelFront_ok prep ((holds t).level _) split, order]

theorem replace {pool' : OrderPool} {place' : Nat → Place} {cells cells' : Place → List Nat}
    (prep : PoolRep pool' place' cells') (holds : ∀ t, SideRep pool cells t (sides t) (queues t))
    {t : OrderType} {idx : Nat} (kept : Kept pool pool' cells cells' (.level t idx))
    {side' : BookSide} {l' : List Order} (rep : SideRep pool' cells' t side' l') :
    BookRep pool' (Function.update sides t side') (Function.update queues t l') := by
  refine ⟨place', cells', prep, fun u => ?_⟩
  by_cases same : u = t
  · subst same
    simpa only [Function.update_self] using rep
  · simp only [Function.update_of_ne same]
    exact (holds u).other kept same

theorem shrink {pool' : OrderPool} {place' : Nat → Place} {cells cells' : Place → List Nat}
    (prep' : PoolRep pool' place' cells') (holds : ∀ t, SideRep pool cells t (sides t) (queues t))
    {t : OrderType} {idx : Nat} (kept : Kept pool pool' cells cells' (.level t idx))
    {lvl' : PriceLevel} (lrep : LevelRep pool' lvl' (cells' (.level t idx)))
    (sameOrder : pool'.order = pool.order) (used : cells (.level t idx) ≠ []) {l' : List Order}
    (orders : (cells' (.level t idx)).map pool.order =
      l'.filter fun o => indexOf o.priceLevel = idx)
    (others : ∀ slot, slot ≠ idx → l'.filter (fun o => indexOf o.priceLevel = slot) =
      (queues t).filter fun o => indexOf o.priceLevel = slot)
    (ranked : Ranked (slotRank t) l') :
    BookRep pool' (Function.update sides t ((sides t).afterLoss idx lvl'))
      (Function.update queues t l') := by
  have old := holds t
  have emptied : lvl'.empty = true ↔ cells' (.level t idx) = [] := lrep.empty_iff
  obtain ⟨bitmap, bitmapEq⟩ : ∃ b : PriceBitmap, b =
      if lvl'.empty then (sides t).bitmap.clear idx else (sides t).bitmap := ⟨_, rfl⟩
  have side : (sides t).afterLoss idx lvl' =
      ⟨Function.update (sides t).levels idx lvl', bitmap⟩ := by
    rw [BookSide.afterLoss, bitmapEq]
    split <;> rfl
  rw [side]
  refine replace prep' holds kept (old.change kept lrep (by rw [sameOrder, orders]) others
    (fun slot => ?_) ?_ ranked)
  · rw [bitmapEq]
    by_cases same : slot = idx
    · rw [if_pos same]
      by_cases none : lvl'.empty = true
      · rw [if_pos none, PriceBitmap.has_clear]
        simp [same, emptied.mp none]
      · rw [if_neg none, old.bit, same]
        exact iff_of_true used fun e => none (emptied.mpr e)
    · rw [if_neg same]
      split
      · simp [PriceBitmap.has_clear, same]
      · rfl
  · rw [bitmapEq]
    split
    · exact PriceBitmap.summarized_clear old.summarized _
    · exact old.summarized

theorem popFront_ok (rep : BookRep pool sides queues) {t : OrderType} {o : Order}
    {rest : List Order} (eq : queues t = o :: rest) :
    ∃ side' pool', (sides t).popFront pool (indexOf o.priceLevel) = .ok (side', pool') ∧
      BookRep pool' (Function.update sides t side') (Function.update queues t rest) ∧
      pool'.nodes.size = pool.nodes.size := by
  obtain ⟨place, cells, prep, holds⟩ := rep
  have old := holds t
  obtain ⟨i, more, split, order⟩ := old.front_cell eq
  obtain ⟨lvl', pool', place', cells', run, prep', kept, cellsQ, lrep, sameOrder, size⟩ :=
    levelPopFront_ok prep (by simp) (old.level _) split
  have orders := old.orders (indexOf o.priceLevel)
  rw [split, eq, List.filter_cons_of_pos (by simp)] at orders
  have ranked := old.ranked
  rw [eq] at ranked
  refine ⟨_, pool', ?_, shrink prep' holds kept lrep sameOrder (by simp [split]) ?_ ?_
    (ranked_tail ranked), size⟩
  · rw [BookSide.popFront, run, BookSide.afterLoss]
    simp only [ok_bind]
    split <;> rfl
  · rw [cellsQ]
    exact (List.cons.inj orders).2
  · intro slot ne
    rw [eq, filter_head_of_ne ne]

theorem insert_cases (rep : BookRep pool sides queues) (t : OrderType) (o : Order) :
    (sides t).insert pool o = .error .poolExhausted ∨
    ∃ side' pool', (sides t).insert pool o = .ok (side', pool') ∧
      BookRep pool' (Function.update sides t side')
        (Function.update queues t (insert (slotRank t) o (queues t))) := by
  obtain ⟨place, cells, prep, holds⟩ := rep
  have old := holds t
  obtain ⟨lvl, lvlEq⟩ : ∃ lvl : PriceLevel, lvl =
      if ((sides t).levels (indexOf o.priceLevel)).empty then
        { (sides t).levels (indexOf o.priceLevel) with levelPrice := o.priceLevel }
      else (sides t).levels (indexOf o.priceLevel) := ⟨_, rfl⟩
  obtain ⟨bitmap, bitmapEq⟩ : ∃ b : PriceBitmap, b =
      if ((sides t).levels (indexOf o.priceLevel)).empty then
        (sides t).bitmap.set (indexOf o.priceLevel)
      else (sides t).bitmap := ⟨_, rfl⟩
  have oldLevel := old.level (indexOf o.priceLevel)
  have level : LevelRep pool lvl (cells (.level t (indexOf o.priceLevel))) := by
    rw [lvlEq]
    split
    · exact ⟨oldLevel.linked, oldLevel.tail, oldLevel.count⟩
    · exact oldLevel
  rw [BookSide.insert_eq, ← lvlEq, ← bitmapEq]
  rcases levelPushBack_cases prep (by simp) level o with
    full | ⟨lvl', pool', place', cells', run, prep', kept, lrep, orders⟩
  · exact Or.inl (by rw [full]; rfl)
  right
  have ranked := ranked_insert old.ranked o
  have grown : cells' (.level t (indexOf o.priceLevel)) ≠ [] := by
    intro none
    rw [none] at orders
    simp at orders
  have new : SideRep pool' cells' t
      ⟨Function.update (sides t).levels (indexOf o.priceLevel) lvl', bitmap⟩
      (insert (slotRank t) o (queues t)) := by
    refine old.change kept lrep ?_ ?_ ?_ ?_ ranked
    · rw [orders, old.orders]
      refine (filter_rank_insert old.ranked o _ (fun b _ same => ?_) (by simp)).symm
      exact slotRank_inj.mpr (by simpa using same)
    · intro slot ne
      rw [filter_insert old.ranked, if_neg (by simpa using Ne.symm ne)]
    · intro slot
      rw [bitmapEq]
      by_cases same : slot = indexOf o.priceLevel
      · rw [if_pos same]
        split
        · simp [PriceBitmap.has_set, same, grown]
        · rename_i nonempty
          rw [old.bit, same]
          have used : cells (.level t (indexOf o.priceLevel)) ≠ [] := fun e =>
            nonempty (oldLevel.empty_iff.mpr e)
          simp [used, grown]
      · rw [if_neg same]
        split
        · simp [PriceBitmap.has_set, same]
        · rfl
    · rw [bitmapEq]
      split
      · exact PriceBitmap.summarized_set old.summarized _
      · exact old.summarized
  refine ⟨_, pool', ?_, replace prep' holds kept new⟩
  rw [run]
  rfl

theorem setFront_ok (rep : BookRep pool sides queues) {t : OrderType} {o : Order}
    {rest : List Order} (eq : queues t = o :: rest) (o' : Order)
    (price : o'.priceLevel = o.priceLevel) :
    ∃ pool', setLevelFront ((sides t).levels (indexOf o.priceLevel)) pool o' = .ok pool' ∧
      BookRep pool' sides (Function.update queues t (o' :: rest)) ∧
      pool'.nodes.size = pool.nodes.size := by
  obtain ⟨place, cells, prep, holds⟩ := rep
  have old := holds t
  obtain ⟨i, more, split, order⟩ := old.front_cell eq
  obtain ⟨pool', run, prep', size, next, prev, orders⟩ :=
    setLevelFront_ok prep (old.level _) split o'
  have member : i ∈ cells (.level t (indexOf o.priceLevel)) := by simp [split]
  have kept : Kept pool pool' cells cells (.level t (indexOf o.priceLevel)) := by
    refine ⟨fun _ _ _ => rfl, fun _ _ _ _ _ => by rw [next], fun _ _ _ _ _ => by rw [prev], ?_⟩
    intro p _ ne j hj
    rw [orders, Function.update_of_ne (prep.divided.ne_of_mem hj member ne)]
  have front := old.orders (indexOf o.priceLevel)
  rw [split, eq, List.filter_cons_of_pos (by simp)] at front
  have fresh : ∀ j ∈ more, j ≠ i := by
    rintro j hj rfl
    have nodup := prep.divided.nodup (.level t (indexOf o.priceLevel))
    rw [split] at nodup
    exact (List.nodup_cons.mp nodup).1 hj
  have ranked := old.ranked
  rw [eq] at ranked
  have slots : slotRank t o' = slotRank t o := slotRank_inj.mpr (by rw [price])
  have same : ⟨Function.update (sides t).levels (indexOf o.priceLevel)
      ((sides t).levels (indexOf o.priceLevel)), (sides t).bitmap⟩ = sides t := by
    rw [Function.update_eq_self]
  have new : SideRep pool' cells t (sides t) (o' :: rest) := by
    rw [← same]
    refine old.change kept ((old.level _).congr (by simp [next]) (by simp [prev])) ?_ ?_ ?_
      old.summarized (ranked_replace_head ranked slots)
    · rw [split, List.filter_cons_of_pos (by simp [price]), List.map_cons, orders,
        Function.update_self, ← (List.cons.inj front).2]
      congr 1
      exact List.map_congr_left fun j hj => Function.update_of_ne (fresh j hj) _ _
    · intro slot ne
      rw [eq, filter_head_of_ne ne, filter_head_of_ne (by rw [price]; exact ne)]
    · intro slot
      by_cases here : slot = indexOf o.priceLevel
      · rw [if_pos here, old.bit, here]
      · rw [if_neg here]
  refine ⟨pool', run, ?_, size⟩
  have replaced := replace prep' holds kept new
  rwa [Function.update_eq_self] at replaced

end BookRep

theorem queue_eq_slots {t : OrderType} {l : List Order} (ranked : Ranked (slotRank t) l)
    {slots : List Nat} (sorted : slots.Pairwise fun i j => slotKey t i < slotKey t j)
    (cover : ∀ o ∈ l, indexOf o.priceLevel ∈ slots) :
    l = slots.flatMap fun slot => l.filter fun o => indexOf o.priceLevel = slot := by
  have cut := eq_flatMap_filter ranked (slots.map (slotKey t)) (List.pairwise_map.mpr sorted)
    (fun o ho => by rw [slotRank_eq]; exact List.mem_map_of_mem (cover o ho))
  rw [List.flatMap_map] at cut
  refine cut.trans ?_
  simp only [slotRank_eq, slotKey_inj]

def allSlots : OrderType → List Nat
  | .buy => (List.range priceWindow).reverse
  | .sell => List.range priceWindow

theorem sorted_allSlots (t : OrderType) :
    (allSlots t).Pairwise fun i j => slotKey t i < slotKey t j := by
  cases t with
  | buy =>
    refine List.pairwise_reverse.mpr (List.pairwise_lt_range.imp ?_)
    intro i j less
    simp only [slotKey]
    omega
  | sell =>
    refine List.pairwise_lt_range.imp ?_
    intro i j less
    simp only [slotKey]
    omega

theorem mem_allSlots {t : OrderType} {slot : Nat} : slot ∈ allSlots t ↔ slot < priceWindow := by
  cases t <;> simp [allSlots]

theorem SideRep.length_eq {pool : OrderPool} {cells : Place → List Nat} {t : OrderType}
    {side : BookSide} {l : List Order} (rep : SideRep pool cells t side l) :
    l.length = (((allSlots t).map (Place.level t)).flatMap cells).length := by
  have cut := queue_eq_slots rep.ranked (sorted_allSlots t)
    (fun o _ => mem_allSlots.mpr (indexOf_lt _))
  rw [cut, List.flatMap_map, List.length_flatMap, List.length_flatMap]
  simp only [← rep.orders, List.length_map]

def levelPlaces : List Place :=
  (allSlots .buy).map (Place.level .buy) ++ (allSlots .sell).map (Place.level .sell)

theorem nodup_places : (Place.free :: levelPlaces).Nodup := by
  have nodup : ∀ t, ((allSlots t).map (Place.level t)).Nodup := by
    intro t
    refine List.Nodup.map (fun i j same => by injection same) ?_
    refine (sorted_allSlots t).imp ?_
    rintro i j less rfl
    omega
  refine List.nodup_cons.mpr ⟨by simp [levelPlaces], ?_⟩
  refine List.nodup_append.mpr ⟨nodup .buy, nodup .sell, ?_⟩
  intro p hp q hq same
  obtain ⟨i, _, rfl⟩ := List.mem_map.mp hp
  obtain ⟨j, _, rfl⟩ := List.mem_map.mp hq
  exact absurd same (by simp)

theorem size_eq {pool : OrderPool} {place : Nat → Place} {cells : Place → List Nat}
    (prep : PoolRep pool place cells) {sides : OrderType → BookSide}
    {queues : OrderType → List Order} (holds : ∀ t, SideRep pool cells t (sides t) (queues t)) :
    pool.nodes.size =
      (cells .free).length + ((queues .buy).length + (queues .sell).length) := by
  have total : ((Place.free :: levelPlaces).flatMap cells).length =
      (cells .free).length + ((queues .buy).length + (queues .sell).length) := by
    unfold levelPlaces
    rw [List.flatMap_cons, List.flatMap_append, List.length_append, List.length_append,
      ← (holds .buy).length_eq, ← (holds .sell).length_eq]
  have listed : ∀ p i, i ∈ cells p → p ∈ Place.free :: levelPlaces := by
    intro p i member
    cases p with
    | free => simp
    | level t slot =>
      have small := (holds t).window slot (((holds t).bit slot).mpr (List.ne_nil_of_mem member))
      unfold levelPlaces
      cases t <;> simp [mem_allSlots, small]
  apply Nat.le_antisymm
  · rw [← total]
    exact prep.divided.size_le listed
  · rw [← total]
    exact prep.divided.total_le nodup_places

theorem BookRep.resting_le {pool : OrderPool} {sides : OrderType → BookSide}
    {queues : OrderType → List Order} (rep : BookRep pool sides queues) :
    (queues .buy).length + (queues .sell).length ≤ pool.nodes.size := by
  obtain ⟨place, cells, prep, holds⟩ := rep
  have total := size_eq prep holds
  omega

theorem BookRep.exhausted_iff {pool : OrderPool} {sides : OrderType → BookSide}
    {queues : OrderType → List Order} (rep : BookRep pool sides queues) (o : Order) :
    pool.acquire o = .error .poolExhausted ↔
      (queues .buy).length + (queues .sell).length = orderPoolMaxCap := by
  obtain ⟨place, cells, prep, holds⟩ := rep
  have total := size_eq prep holds
  have bound := prep.bound
  rw [acquire_exhausted_iff prep, ← List.length_eq_zero_iff]
  omega

end MarketBookExchange
