import MarketBookExchange.OrderPool
import MarketBookExchange.Lib.LinkedCells
import MarketBookExchange.Lib.Outcome

/- Where every pool node is: on the free list or in the chain of one level. The cells of
   a place are listed in chain order, and no node is in two places. -/
namespace MarketBookExchange
open Vectors LinkedCells Outcome

inductive Place where
  | free
  | level (side : OrderType) (slot : Nat)
  deriving DecidableEq

namespace OrderPool

def next (p : OrderPool) (i : Nat) : Nat := (p.nodes.get i).next
def prev (p : OrderPool) (i : Nat) : Nat := (p.nodes.get i).prev
def order (p : OrderPool) (i : Nat) : Order := (p.nodes.get i).order

def put (p : OrderPool) (i : Nat) (n : OrderNode) : OrderPool :=
  { p with nodes := p.nodes.set i n }

@[simp] theorem put_size (p : OrderPool) (i : Nat) (n : OrderNode) :
    (p.put i n).nodes.size = p.nodes.size := rfl

@[simp] theorem put_freeHead (p : OrderPool) (i : Nat) (n : OrderNode) :
    (p.put i n).freeHead = p.freeHead := rfl

theorem put_get (p : OrderPool) (i j : Nat) (n : OrderNode) :
    (p.put i n).nodes.get j = if j = i then n else p.nodes.get j := Vec.get_set _ _ _ _

theorem put_next (p : OrderPool) (i j : Nat) (n : OrderNode) :
    (p.put i n).next j = if j = i then n.next else p.next j := by
  simp only [next, put_get]
  split <;> rfl

theorem put_prev (p : OrderPool) (i j : Nat) (n : OrderNode) :
    (p.put i n).prev j = if j = i then n.prev else p.prev j := by
  simp only [prev, put_get]
  split <;> rfl

theorem put_order (p : OrderPool) (i j : Nat) (n : OrderNode) :
    (p.put i n).order j = if j = i then n.order else p.order j := by
  simp only [order, put_get]
  split <;> rfl

theorem read_ok {p : OrderPool} {i : Nat} (h : i < p.nodes.size) :
    p.read i = .ok (p.nodes.get i) := Vec.read_ok h _

theorem write_ok {p : OrderPool} {i : Nat} (h : i < p.nodes.size) (n : OrderNode) :
    p.write i n = .ok (p.put i n) := by
  simp [write, Vec.write_ok h, put]

end OrderPool

structure PoolRep (pool : OrderPool) (place : Nat → Place) (cells : Place → List Nat) :
    Prop where
  divided : Divided pool.nodes.size place cells
  bound : pool.nodes.size ≤ orderPoolMaxCap
  free : Threaded nil pool.next pool.freeHead (cells .free)

structure LevelRep (pool : OrderPool) (lvl : PriceLevel) (l : List Nat) : Prop where
  linked : Linked nil pool.next pool.prev nil lvl.head l
  tail : lvl.tail = l.getLastD nil
  count : lvl.count = l.length

theorem PoolRep.lt_nil {pool : OrderPool} {place : Nat → Place} {cells : Place → List Nat}
    (rep : PoolRep pool place cells) {p : Place} {i : Nat} (h : i ∈ cells p) :
    i < pool.nodes.size ∧ i ≠ nil := by
  have small := rep.divided.lt_size h
  have bound := rep.bound
  refine ⟨small, ?_⟩
  simp only [orderPoolMaxCap, nil] at *
  omega

theorem LevelRep.congr {pool pool' : OrderPool} {lvl : PriceLevel} {l : List Nat}
    (rep : LevelRep pool lvl l) (next : ∀ i ∈ l, pool'.next i = pool.next i)
    (prev : ∀ i ∈ l, pool'.prev i = pool.prev i) : LevelRep pool' lvl l :=
  ⟨linked_congr rep.linked next prev, rep.tail, rep.count⟩

theorem LevelRep.empty_iff {pool : OrderPool} {lvl : PriceLevel} {l : List Nat}
    (rep : LevelRep pool lvl l) : lvl.empty = true ↔ l = [] := by
  simp [PriceLevel.empty, rep.count]

theorem level_rep_new (pool : OrderPool) : LevelRep pool {} [] := ⟨rfl, rfl, rfl⟩

theorem threaded_run (next : Nat → Nat) (size total freeHead : Nat) (old : List Nat)
    (bound : total ≤ nil) (step : ∀ i, size ≤ i → i + 1 < total → next i = i + 1)
    (splice : ∀ i, size ≤ i → i + 1 = total → next i = freeHead)
    (rest : Threaded nil next freeHead old) (count : Nat) :
    ∀ k, size ≤ k → k + (count + 1) = total →
      Threaded nil next k (List.range' k (count + 1) ++ old) := by
  induction count with
  | zero =>
    intro k low last
    refine ⟨rfl, by omega, ?_⟩
    rw [splice k low (by omega)]
    exact rest
  | succ count ih =>
    intro k low last
    refine ⟨rfl, by omega, ?_⟩
    rw [step k low (by omega)]
    exact ih (k + 1) (by omega) (by omega)

theorem grow_get (pool : OrderPool) {count : Nat} (pos : 0 < count) (i : Nat) :
    (pool.grow count).nodes.get i =
      if i < pool.nodes.size then pool.nodes.get i
      else if i + 1 < pool.nodes.size + count then { next := i + 1 }
      else { next := pool.freeHead } := by
  simp [OrderPool.grow, Nat.ne_of_gt pos]

theorem grow_size (pool : OrderPool) (count : Nat) :
    (pool.grow count).nodes.size = pool.nodes.size + count := by
  unfold OrderPool.grow
  split
  · simp_all
  · rfl

theorem grow_freeHead (pool : OrderPool) {count : Nat} (pos : 0 < count) :
    (pool.grow count).freeHead = pool.nodes.size := by
  simp [OrderPool.grow, Nat.ne_of_gt pos]

theorem grow_rep {pool : OrderPool} {place : Nat → Place} {cells : Place → List Nat}
    (rep : PoolRep pool place cells) (count : Nat) (pos : 0 < count)
    (bound : pool.nodes.size + count ≤ orderPoolMaxCap) :
    PoolRep (pool.grow count) (fun i => if i < pool.nodes.size then place i else .free)
      (Function.update cells .free (List.range' pool.nodes.size count ++ cells .free)) := by
  refine ⟨?_, by rw [grow_size]; exact bound, ?_⟩
  · rw [grow_size]
    exact rep.divided.extend .free count
  · rw [grow_freeHead pool pos, Function.update_self]
    obtain ⟨k, rfl⟩ : ∃ k, count = k + 1 := ⟨count - 1, by omega⟩
    refine threaded_run _ pool.nodes.size (pool.nodes.size + (k + 1)) pool.freeHead (cells .free)
      ?_ ?_ ?_ ?_ k _ (Nat.le_refl _) rfl
    · simp only [orderPoolMaxCap, nil] at *
      omega
    · intro i low high
      simp only [OrderPool.next, grow_get pool pos, if_neg (Nat.not_lt.mpr low), if_pos high]
    · intro i low last
      simp only [OrderPool.next, grow_get pool pos, if_neg (Nat.not_lt.mpr low)]
      rw [if_neg (by omega)]
    · refine threaded_congr rep.free (fun i hi => ?_)
      simp only [OrderPool.next, grow_get pool pos, if_pos (rep.divided.lt_size hi)]

theorem pool_rep_new :
    PoolRep OrderPool.new (fun _ => .free)
      (Function.update (fun _ => []) .free (List.range' 0 orderPoolInitialCap)) := by
  have nothing : PoolRep ⟨Vec.empty {}, nil⟩ (fun _ => .free) (fun _ => []) := by
    refine ⟨⟨fun _ => List.nodup_nil, fun p i => ?_⟩, Nat.zero_le _, rfl⟩
    simp [Vec.empty]
  have grown := grow_rep nothing orderPoolInitialCap (by decide)
    (by simp [Vec.empty]; decide)
  simpa [OrderPool.new, Vec.empty] using grown

/-- The two pools agree on the chain of every level but the one at `q`. -/
structure Kept (pool pool' : OrderPool) (cells cells' : Place → List Nat) (q : Place) :
    Prop where
  same : ∀ p, p ≠ .free → p ≠ q → cells' p = cells p
  next : ∀ p, p ≠ .free → p ≠ q → ∀ i ∈ cells p, pool'.next i = pool.next i
  prev : ∀ p, p ≠ .free → p ≠ q → ∀ i ∈ cells p, pool'.prev i = pool.prev i
  order : ∀ p, p ≠ .free → p ≠ q → ∀ i ∈ cells p, pool'.order i = pool.order i

theorem Kept.level {pool pool' : OrderPool} {cells cells' : Place → List Nat} {p q : Place}
    (kept : Kept pool pool' cells cells' q) (real : p ≠ .free) (ne : p ≠ q) {lvl : PriceLevel}
    (rep : LevelRep pool lvl (cells p)) : LevelRep pool' lvl (cells' p) := by
  rw [kept.same p real ne]
  exact rep.congr (kept.next p real ne) (kept.prev p real ne)

theorem acquire_cases {pool : OrderPool} {place : Nat → Place} {cells : Place → List Nat}
    (rep : PoolRep pool place cells) (o : Order) :
    pool.acquire o = .error .poolExhausted ∨
    ∃ grown place' cells' idx rest, PoolRep grown place' cells' ∧ cells' .free = idx :: rest ∧
      (∀ p, p ≠ .free → cells' p = cells p) ∧
      (∀ p, p ≠ .free → ∀ i ∈ cells p, grown.nodes.get i = pool.nodes.get i) ∧
      pool.acquire o = .ok (idx,
        { grown.put idx { order := o } with freeHead := grown.next idx }) := by
  have finish : ∀ (grown : OrderPool) place' cells', PoolRep grown place' cells' →
      grown.freeHead ≠ nil → ∃ idx rest, cells' .free = idx :: rest ∧ grown.freeHead = idx ∧
        idx < grown.nodes.size := by
    intro grown place' cells' rep' real
    cases eq : cells' .free with
    | nil =>
      have link := rep'.free
      rw [eq] at link
      exact absurd link real
    | cons idx rest =>
      have link := rep'.free
      rw [eq] at link
      exact ⟨idx, rest, rfl, link.1, rep'.divided.lt_size (p := .free) (by simp [eq])⟩
  by_cases full : pool.freeHead = nil
  · by_cases exhausted : pool.nodes.size ≥ orderPoolMaxCap
    · left
      simp [OrderPool.acquire, full, exhausted]
    · right
      have room : 0 < min orderPoolGrowthChunk (orderPoolMaxCap - pool.nodes.size) := by
        simp only [orderPoolGrowthChunk, orderPoolMaxCap] at *
        omega
      have rep' := grow_rep rep _ room (by omega)
      have real : (pool.grow (min orderPoolGrowthChunk
          (orderPoolMaxCap - pool.nodes.size))).freeHead ≠ nil := by
        rw [grow_freeHead pool room]
        simp only [orderPoolMaxCap, nil] at *
        omega
      obtain ⟨idx, rest, split, head, small⟩ := finish _ _ _ rep' real
      refine ⟨_, _, _, idx, rest, rep', split, ?_, ?_, ?_⟩
      · intro p ne
        exact Function.update_of_ne ne _ _
      · intro p ne i hi
        rw [grow_get pool room, if_pos (rep.divided.lt_size hi)]
      · rw [OrderPool.acquire, if_pos full, if_neg exhausted]
        simp only [pure_eq_ok, ok_bind, head, OrderPool.read_ok small, OrderPool.write_ok small]
        rfl
  · right
    obtain ⟨idx, rest, split, head, small⟩ := finish _ _ _ rep full
    refine ⟨pool, place, cells, idx, rest, rep, split, fun _ _ => rfl, fun _ _ _ _ => rfl, ?_⟩
    rw [OrderPool.acquire, if_neg full]
    simp only [pure_eq_ok, ok_bind, head, OrderPool.read_ok small, OrderPool.write_ok small]
    rfl

abbrev PoolEnds {α : Type} (x : Except Fault α) : Prop :=
  Ends (fun e => e = Fault.poolIndex) (fun _ => True) x

theorem read_ends (p : OrderPool) (i : Nat) : PoolEnds (p.read i) := by
  unfold OrderPool.read Vec.read
  split <;> trivial

theorem write_ends (p : OrderPool) (i : Nat) (n : OrderNode) : PoolEnds (p.write i n) := by
  unfold OrderPool.write Vec.write
  split <;> trivial

theorem acquire_exhausted_iff {pool : OrderPool} {place : Nat → Place} {cells : Place → List Nat}
    (rep : PoolRep pool place cells) (o : Order) :
    pool.acquire o = .error .poolExhausted ↔
      cells .free = [] ∧ pool.nodes.size ≥ orderPoolMaxCap := by
  have free := rep.free
  have head : pool.freeHead = nil ↔ cells .free = [] := by
    cases eq : cells .free with
    | nil =>
      rw [eq] at free
      exact iff_of_true free rfl
    | cons idx rest =>
      rw [eq] at free
      obtain ⟨shape, real, _⟩ := free
      rw [shape]
      exact iff_of_false real (by simp)
  have finish : ∀ grown : OrderPool, PoolEnds (do
      let idx := grown.freeHead
      let node ← grown.read idx
      let p ← grown.write idx { order := o, prev := nil, next := nil }
      pure (idx, { p with freeHead := node.next })) :=
    fun grown => ends_bind (read_ends _ _) fun _ _ => ends_bind (write_ends _ _ _) fun _ _ => trivial
  rw [← head]
  unfold OrderPool.acquire
  by_cases full : pool.freeHead = nil
  · rw [if_pos full]
    by_cases exhausted : pool.nodes.size ≥ orderPoolMaxCap
    · rw [if_pos exhausted]
      exact iff_of_true rfl ⟨full, exhausted⟩
    · rw [if_neg exhausted]
      refine iff_of_false (fun threw => ?_) fun h => exhausted h.2
      cases ends_error (finish _) threw
  · rw [if_neg full]
    refine iff_of_false (fun threw => ?_) fun h => full h.1
    cases ends_error (finish _) threw

theorem Kept.trans_grown {pool grown pool' : OrderPool} {cells cells' cells'' : Place → List Nat}
    {q : Place} (sameCells : ∀ p, p ≠ .free → cells' p = cells p)
    (sameNodes : ∀ p, p ≠ .free → ∀ i ∈ cells p, grown.nodes.get i = pool.nodes.get i)
    (kept : Kept grown pool' cells' cells'' q) : Kept pool pool' cells cells'' q := by
  constructor
  · intro p real ne
    rw [kept.same p real ne, sameCells p real]
  all_goals
    intro p real ne i hi
    have hi' : i ∈ cells' p := by rw [sameCells p real]; exact hi
  · rw [kept.next p real ne i hi', OrderPool.next, sameNodes p real i hi, OrderPool.next]
  · rw [kept.prev p real ne i hi', OrderPool.prev, sameNodes p real i hi, OrderPool.prev]
  · rw [kept.order p real ne i hi', OrderPool.order, sameNodes p real i hi, OrderPool.order]

theorem getLastD_mem {l : List Nat} (h : l ≠ []) (d : Nat) : l.getLastD d ∈ l := by
  rw [List.getLastD_eq_getLast?, List.getLast?_eq_some_getLast h]
  exact List.getLast_mem h

structure Pushed (pool pool' : OrderPool) (last idx : Nat) (o : Order) : Prop where
  size : pool'.nodes.size = pool.nodes.size
  freeHead : pool'.freeHead = pool.next idx
  next : ∀ j, j ≠ idx → j ≠ last → pool'.next j = pool.next j
  prev : ∀ j, j ≠ idx → pool'.prev j = pool.prev j
  order : ∀ j, j ≠ idx → pool'.order j = pool.order j
  newNext : pool'.next idx = nil
  newPrev : pool'.prev idx = last
  newOrder : pool'.order idx = o
  lastNext : last ≠ nil → pool'.next last = idx

theorem pushed_rep {pool pool' : OrderPool} {place : Nat → Place} {cells : Place → List Nat}
    (rep : PoolRep pool place cells) {q : Place} (real : q ≠ .free) {idx : Nat} {rest : List Nat}
    (split : cells .free = idx :: rest) {lvl : PriceLevel} (lrep : LevelRep pool lvl (cells q))
    {o : Order} (lvl' : PriceLevel) (pushed : Pushed pool pool' lvl.tail idx o)
    (head : lvl'.head = if lvl.tail = nil then idx else lvl.head) (tail : lvl'.tail = idx)
    (count : lvl'.count = inc32 lvl.count) :
    ∃ place' cells', PoolRep pool' place' cells' ∧ Kept pool pool' cells cells' q ∧
      cells' q = cells q ++ [idx] ∧ LevelRep pool' lvl' (cells' q) ∧
      (cells' q).map pool'.order = (cells q).map pool.order ++ [o] := by
  have divided := rep.divided.move (Ne.symm real)
    (show (cells .free).Perm (idx :: rest) by rw [split])
    (List.perm_append_singleton idx (cells q))
  have inFree : idx ∈ cells .free := by simp [split]
  have idxReal := (rep.lt_nil inFree).2
  have freshQ : ∀ p, p ≠ .free → ∀ j ∈ cells p, j ≠ idx := fun p ne j hj =>
    rep.divided.ne_of_mem hj inFree ne
  have lastCases : cells q = [] ∧ lvl.tail = nil ∨ lvl.tail ∈ cells q ∧ lvl.tail ≠ nil := by
    by_cases none : cells q = []
    · exact Or.inl ⟨none, by rw [lrep.tail, none]; rfl⟩
    · have member := getLastD_mem none nil
      rw [← lrep.tail] at member
      exact Or.inr ⟨member, (rep.lt_nil member).2⟩
  have notLast : ∀ p, p ≠ q → ∀ j ∈ cells p, j ≠ nil → j ≠ lvl.tail := by
    intro p ne j hj realj same
    rcases lastCases with ⟨_, none⟩ | ⟨member, _⟩
    · exact realj (same.trans none)
    · exact rep.divided.ne_of_mem hj member ne same
  refine ⟨Function.update place idx q,
    Function.update (Function.update cells .free rest) q (cells q ++ [idx]),
    ⟨?_, ?_, ?_⟩, ⟨?_, ?_, ?_, ?_⟩, Function.update_self _ _ _, ?_, ?_⟩
  · rw [pushed.size]; exact divided
  · rw [pushed.size]; exact rep.bound
  · have old := rep.free
    rw [split] at old
    simp only [Function.update_of_ne (Ne.symm real), Function.update_self, pushed.freeHead]
    refine threaded_congr old.2.2 (fun j hj => ?_)
    have fresh : j ≠ idx := by
      intro same
      have nodup := rep.divided.nodup .free
      rw [split] at nodup
      exact (List.nodup_cons.mp nodup).1 (same ▸ hj)
    have member : j ∈ cells .free := by simp [split, hj]
    exact pushed.next j fresh (notLast .free (Ne.symm real) j member (rep.lt_nil member).2)
  · intro p ne pq
    simp only [Function.update_of_ne pq, Function.update_of_ne ne]
  · intro p ne pq j hj
    exact pushed.next j (freshQ p ne j hj) (notLast p pq j hj (rep.lt_nil hj).2)
  · intro p ne _ j hj
    exact pushed.prev j (freshQ p ne j hj)
  · intro p ne _ j hj
    exact pushed.order j (freshQ p ne j hj)
  · rw [Function.update_self]
    refine ⟨?_, by simp [tail], ?_⟩
    · have link := linked_concat
        lrep.linked (rep.divided.nodup q) idxReal pushed.newNext
        (by rw [pushed.newPrev, lrep.tail])
        (fun j hj same => by
          rw [same, ← lrep.tail]
          exact pushed.lastNext (by rw [lrep.tail, ← same]; exact (rep.lt_nil hj).2))
        (fun j hj ne => pushed.next j (freshQ q real j hj) (by rw [lrep.tail]; exact ne))
        (fun j hj => pushed.prev j (freshQ q real j hj))
      have heads : lvl'.head = if cells q = [] then idx else lvl.head := by
        rw [head]
        rcases lastCases with ⟨none, last⟩ | ⟨member, last⟩
        · simp [none, last]
        · have nonempty : cells q ≠ [] := List.ne_nil_of_mem member
          simp [nonempty, last]
      rw [heads]
      exact link
    · have room := divided.length_le q
      rw [Function.update_self] at room
      have bound := rep.bound
      rw [count, lrep.count, inc32_of_lt]
      · simp
      · simp only [List.length_append, List.length_singleton, orderPoolMaxCap, uint32] at *
        omega
  · rw [Function.update_self, List.map_append, List.map_singleton, pushed.newOrder]
    congr 1
    exact List.map_congr_left fun j hj => pushed.order j (freshQ q real j hj)

theorem levelPushBack_cases {pool : OrderPool} {place : Nat → Place} {cells : Place → List Nat}
    (rep : PoolRep pool place cells) {q : Place} (real : q ≠ .free) {lvl : PriceLevel}
    (lrep : LevelRep pool lvl (cells q)) (o : Order) :
    levelPushBack lvl pool o = .error .poolExhausted ∨
    ∃ lvl' pool' place' cells', levelPushBack lvl pool o = .ok (lvl', pool') ∧
      PoolRep pool' place' cells' ∧ Kept pool pool' cells cells' q ∧
      LevelRep pool' lvl' (cells' q) ∧
      (cells' q).map pool'.order = (cells q).map pool.order ++ [o] := by
  rcases acquire_cases rep o with full |
    ⟨grown, place1, cells1, idx, rest, rep1, split, sameCells, sameNodes, run⟩
  · exact Or.inl (by simp [levelPushBack, full])
  right
  have lrep1 : LevelRep grown lvl (cells1 q) := by
    rw [sameCells q real]
    exact lrep.congr (fun i hi => by rw [OrderPool.next, sameNodes q real i hi, OrderPool.next])
      (fun i hi => by rw [OrderPool.prev, sameNodes q real i hi, OrderPool.prev])
  have inFree : idx ∈ cells1 .free := by simp [split]
  have small := rep1.divided.lt_size inFree
  have sameOrders : (cells1 q).map grown.order = (cells q).map pool.order := by
    rw [sameCells q real]
    exact List.map_congr_left fun i hi => by
      rw [OrderPool.order, sameNodes q real i hi, OrderPool.order]
  by_cases none : lvl.tail = nil
  · have pushed : Pushed grown { grown.put idx { order := o } with freeHead := grown.next idx }
        lvl.tail idx o := by
      refine ⟨rfl, rfl, ?_, ?_, ?_, ?_, ?_, ?_, fun h => absurd none h⟩
      all_goals
        intros
        simp [OrderPool.next, OrderPool.prev, OrderPool.order, OrderPool.put_get, *]
    obtain ⟨place', cells', rep', kept, cellsQ, lrep', orders⟩ :=
      pushed_rep rep1 real split lrep1
        { lvl with head := idx, tail := idx, count := inc32 lvl.count } pushed
        (by simp [none]) rfl rfl
    refine ⟨_, _, place', cells', ?_, rep', kept.trans_grown sameCells sameNodes, lrep', ?_⟩
    · simp [levelPushBack, run, none]
    · rw [orders, sameOrders]
  · have member : lvl.tail ∈ cells1 q := by
      rw [lrep1.tail]
      refine getLastD_mem (fun e => none ?_) nil
      rw [lrep1.tail, e]
      rfl
    have lastSmall := rep1.divided.lt_size member
    have ne : lvl.tail ≠ idx := rep1.divided.ne_of_mem member inFree real
    obtain ⟨taken, takenEq⟩ : ∃ t : OrderPool,
        t = { grown.put idx { order := o } with freeHead := grown.next idx } := ⟨_, rfl⟩
    obtain ⟨linked, linkedEq⟩ : ∃ t : OrderPool,
        t = taken.put lvl.tail { taken.nodes.get lvl.tail with next := idx } := ⟨_, rfl⟩
    obtain ⟨pool', poolEq⟩ : ∃ t : OrderPool,
        t = linked.put idx { linked.nodes.get idx with prev := lvl.tail } := ⟨_, rfl⟩
    rw [← takenEq] at run
    have takenSize : taken.nodes.size = grown.nodes.size := by rw [takenEq]; rfl
    have linkedSize : linked.nodes.size = grown.nodes.size := by rw [linkedEq, ← takenSize]; rfl
    have pushed : Pushed grown pool' lvl.tail idx o := by
      subst poolEq linkedEq takenEq
      refine ⟨rfl, rfl, ?_, ?_, ?_, ?_, ?_, ?_, ?_⟩
      · intro j hj hlast
        simp [OrderPool.next, OrderPool.put_get, hj, hlast]
      · intro j hj
        by_cases last : j = lvl.tail <;> simp [OrderPool.prev, OrderPool.put_get, hj, last, ne]
      · intro j hj
        by_cases last : j = lvl.tail <;> simp [OrderPool.order, OrderPool.put_get, hj, last, ne]
      · simp [OrderPool.next, OrderPool.put_get, Ne.symm ne]
      · simp [OrderPool.prev, OrderPool.put_get]
      · simp [OrderPool.order, OrderPool.put_get, Ne.symm ne]
      · intro _
        simp [OrderPool.next, OrderPool.put_get, ne]
    obtain ⟨place', cells', rep', kept, cellsQ, lrep', orders⟩ :=
      pushed_rep rep1 real split lrep1 { lvl with tail := idx, count := inc32 lvl.count } pushed
        (by simp [none]) rfl rfl
    refine ⟨_, pool', place', cells', ?_, rep', kept.trans_grown sameCells sameNodes, lrep', ?_⟩
    · rw [levelPushBack, run]
      simp only [ok_bind, if_neg none, OrderPool.read_ok (takenSize ▸ lastSmall),
        OrderPool.write_ok (takenSize ▸ lastSmall), ← linkedEq,
        OrderPool.read_ok (linkedSize ▸ small), OrderPool.write_ok (linkedSize ▸ small), ← poolEq,
        pure_eq_ok]
    · rw [orders, sameOrders]

theorem levelFront_ok {pool : OrderPool} {place : Nat → Place} {cells : Place → List Nat}
    (rep : PoolRep pool place cells) {q : Place} {lvl : PriceLevel}
    (lrep : LevelRep pool lvl (cells q)) {i : Nat} {rest : List Nat}
    (split : cells q = i :: rest) : levelFront lvl pool = .ok (pool.order i) := by
  have head : lvl.head = i := by
    rw [linked_head lrep.linked, split]
    rfl
  have small := rep.divided.lt_size (p := q) (i := i) (by simp [split])
  simp [levelFront, head, OrderPool.read_ok small, OrderPool.order]

theorem setLevelFront_ok {pool : OrderPool} {place : Nat → Place} {cells : Place → List Nat}
    (rep : PoolRep pool place cells) {q : Place} {lvl : PriceLevel}
    (lrep : LevelRep pool lvl (cells q)) {i : Nat} {rest : List Nat}
    (split : cells q = i :: rest) (o : Order) :
    ∃ pool', setLevelFront lvl pool o = .ok pool' ∧ PoolRep pool' place cells ∧
      pool'.nodes.size = pool.nodes.size ∧ pool'.next = pool.next ∧ pool'.prev = pool.prev ∧
      pool'.order = Function.update pool.order i o := by
  have head : lvl.head = i := by
    rw [linked_head lrep.linked, split]
    rfl
  have small := rep.divided.lt_size (p := q) (i := i) (by simp [split])
  have next : (pool.put i { pool.nodes.get i with order := o }).next = pool.next := by
    funext j
    rw [OrderPool.put_next]
    split <;> simp_all [OrderPool.next]
  have prev : (pool.put i { pool.nodes.get i with order := o }).prev = pool.prev := by
    funext j
    rw [OrderPool.put_prev]
    split <;> simp_all [OrderPool.prev]
  refine ⟨pool.put i { pool.nodes.get i with order := o }, ?_, ⟨rep.divided, rep.bound, ?_⟩, rfl,
    next, prev, ?_⟩
  · simp [setLevelFront, head, OrderPool.read_ok small, OrderPool.write_ok small]
  · rw [next]
    exact rep.free
  · funext j
    rw [OrderPool.put_order, Function.update_apply]

structure Removed (pool pool' : OrderPool) (before i after : Nat) : Prop where
  size : pool'.nodes.size = pool.nodes.size
  freeHead : pool'.freeHead = i
  next : ∀ j, j ≠ i → j ≠ before → pool'.next j = pool.next j
  prev : ∀ j, j ≠ i → j ≠ after → pool'.prev j = pool.prev j
  order : pool'.order = pool.order
  freed : pool'.next i = pool.freeHead
  beforeNext : before ≠ nil → pool'.next before = after
  afterPrev : after ≠ nil → pool'.prev after = before

theorem removed_rep {pool pool' : OrderPool} {place : Nat → Place} {cells : Place → List Nat}
    (rep : PoolRep pool place cells) {q : Place} (real : q ≠ .free) {lvl : PriceLevel}
    (lrep : LevelRep pool lvl (cells q)) (lvl' : PriceLevel) {pre post : List Nat} {i : Nat}
    (split : cells q = pre ++ i :: post)
    (removed : Removed pool pool' (pre.getLastD nil) i (post.headD nil))
    (head : lvl'.head = if pre = [] then pool.next i else lvl.head)
    (tail : lvl'.tail = (pre ++ post).getLastD nil) (count : lvl'.count = dec32 lvl.count) :
    ∃ place' cells', PoolRep pool' place' cells' ∧ Kept pool pool' cells cells' q ∧
      cells' q = pre ++ post ∧ LevelRep pool' lvl' (cells' q) := by
  have nodup := rep.divided.nodup q
  rw [split] at nodup
  have divided := rep.divided.move real
    (show (cells q).Perm (i :: (pre ++ post)) by rw [split]; exact List.perm_middle)
    (List.Perm.refl (i :: cells .free))
  have member : i ∈ cells q := by simp [split]
  have fresh : ∀ j ∈ pre ++ post, j ≠ i := by
    intro j hj e
    subst e
    exact (List.nodup_cons.mp (List.perm_middle.nodup_iff.mp nodup)).1 hj
  have keep : ∀ j ∈ pre ++ post, j ∈ cells q := fun j hj => by
    rw [split]
    rcases List.mem_append.mp hj with h | h
    · simp [h]
    · simp [h]
  have nilOut : nil ∉ pre ++ i :: post := by
    rw [← split]
    exact fun h => (rep.lt_nil h).2 rfl
  have neighbours : ∀ p, p ≠ q → ∀ j ∈ cells p,
      j ≠ i ∧ j ≠ pre.getLastD nil ∧ j ≠ post.headD nil := by
    intro p ne j hj
    have realj := (rep.lt_nil hj).2
    refine ⟨rep.divided.ne_of_mem hj member ne, ?_, ?_⟩
    · intro e
      by_cases none : pre = []
      · exact realj (by rw [e, none]; rfl)
      · exact rep.divided.ne_of_mem hj (keep _ (List.mem_append_left _ (getLastD_mem none nil))) ne e
    · intro e
      cases post with
      | nil => exact realj e
      | cons k rest =>
        exact rep.divided.ne_of_mem hj (keep k (by simp)) ne e
  refine ⟨Function.update place i .free,
    Function.update (Function.update cells q (pre ++ post)) .free (i :: cells .free),
    ⟨?_, ?_, ?_⟩, ⟨?_, ?_, ?_, ?_⟩, ?_, ?_, ?_, ?_⟩
  · rw [removed.size]; exact divided
  · rw [removed.size]; exact rep.bound
  · rw [Function.update_self]
    refine ⟨removed.freeHead, (rep.lt_nil member).2, ?_⟩
    rw [removed.freed]
    refine threaded_congr rep.free (fun j hj => ?_)
    obtain ⟨n1, n2, _⟩ := neighbours .free (Ne.symm real) j hj
    exact removed.next j n1 n2
  · intro p ne pq
    simp only [Function.update_of_ne pq, Function.update_of_ne ne]
  · intro p _ pq j hj
    obtain ⟨n1, n2, _⟩ := neighbours p pq j hj
    exact removed.next j n1 n2
  · intro p _ pq j hj
    obtain ⟨n1, _, n3⟩ := neighbours p pq j hj
    exact removed.prev j n1 n3
  · intro p _ _ j _
    rw [removed.order]
  · rw [Function.update_of_ne real, Function.update_self]
  · rw [Function.update_of_ne real, Function.update_self, head]
    have old := lrep.linked
    rw [split] at old
    refine linked_remove old nodup nilOut ?_ ?_ ?_ ?_
    · intro j hj ne
      exact removed.next j (fresh j hj) ne
    · intro nonempty
      have last := keep _ (List.mem_append_left post (getLastD_mem nonempty nil))
      rw [removed.beforeNext (rep.lt_nil last).2, linked_next old]
    · intro j hj ne
      exact removed.prev j (fresh j hj) ne
    · intro nonempty
      refine removed.afterPrev ?_
      cases post with
      | nil => exact absurd rfl nonempty
      | cons k rest => exact (rep.lt_nil (keep k (by simp))).2
  · rw [Function.update_of_ne real, Function.update_self, tail]
  · have room := rep.divided.length_le q
    have bound := rep.bound
    rw [Function.update_of_ne real, Function.update_self, count, lrep.count, dec32_of_pos]
    · simp [split]
    · simp only [split, List.length_append, List.length_cons]
      omega
    · simp only [orderPoolMaxCap, uint32] at *
      omega

theorem levelPopFront_ok {pool : OrderPool} {place : Nat → Place} {cells : Place → List Nat}
    (rep : PoolRep pool place cells) {q : Place} (real : q ≠ .free) {lvl : PriceLevel}
    (lrep : LevelRep pool lvl (cells q)) {i : Nat} {rest : List Nat}
    (split : cells q = i :: rest) :
    ∃ lvl' pool' place' cells', levelPopFront lvl pool = .ok (lvl', pool') ∧
      PoolRep pool' place' cells' ∧ Kept pool pool' cells cells' q ∧ cells' q = rest ∧
      LevelRep pool' lvl' (cells' q) ∧ pool'.order = pool.order ∧
      pool'.nodes.size = pool.nodes.size := by
  have chain := lrep.linked
  rw [split] at chain
  have head : lvl.head = i := chain.1
  have small := rep.divided.lt_size (p := q) (i := i) (by simp [split])
  have nxt : pool.next i = rest.headD nil := linked_head chain.2.2.2
  have nodup := rep.divided.nodup q
  rw [split] at nodup
  cases rest with
  | nil =>
    obtain ⟨pool', poolEq⟩ : ∃ t : OrderPool,
        t = { pool.put i { pool.nodes.get i with next := pool.freeHead } with freeHead := i } :=
      ⟨_, rfl⟩
    have removed : Removed pool pool' nil i nil := by
      subst poolEq
      refine ⟨rfl, rfl, ?_, ?_, ?_, ?_, fun h => absurd rfl h, fun h => absurd rfl h⟩
      · intro j hj _
        simp [OrderPool.next, OrderPool.put_get, hj]
      · intro j hj _
        simp [OrderPool.prev, OrderPool.put_get, hj]
      · funext j
        by_cases same : j = i <;> simp [OrderPool.order, OrderPool.put_get, same]
      · simp [OrderPool.next, OrderPool.put_get]
    obtain ⟨place', cells', rep', kept, cellsQ, lrep'⟩ :=
      removed_rep rep real lrep { lvl with head := nil, tail := nil, count := dec32 lvl.count }
        (show cells q = [] ++ i :: [] from split) removed
        (by simpa using nxt.symm) rfl rfl
    refine ⟨_, pool', place', cells', ?_, rep', kept, cellsQ, lrep', removed.order, removed.size⟩
    have last : (pool.nodes.get i).next = nil := nxt
    simp [levelPopFront, head, OrderPool.read_ok small, last, OrderPool.release,
      OrderPool.write_ok small, poolEq]
  | cons k rest =>
    have inK : k ∈ cells q := by simp [split]
    have smallK := rep.divided.lt_size inK
    have realK := (rep.lt_nil inK).2
    have ne : k ≠ i := fun e => (List.nodup_cons.mp nodup).1 (by simp [e])
    obtain ⟨relinked, relinkedEq⟩ : ∃ t : OrderPool,
        t = pool.put k { pool.nodes.get k with prev := nil } := ⟨_, rfl⟩
    obtain ⟨pool', poolEq⟩ : ∃ t : OrderPool,
        t = { relinked.put i { relinked.nodes.get i with next := relinked.freeHead } with
          freeHead := i } := ⟨_, rfl⟩
    have sizeEq : relinked.nodes.size = pool.nodes.size := by rw [relinkedEq]; rfl
    have removed : Removed pool pool' nil i k := by
      subst poolEq relinkedEq
      refine ⟨rfl, rfl, ?_, ?_, ?_, ?_, fun h => absurd rfl h, ?_⟩
      · intro j hj _
        by_cases same : j = k <;> simp [OrderPool.next, OrderPool.put_get, hj, same, ne]
      · intro j hj notK
        simp [OrderPool.prev, OrderPool.put_get, hj, notK]
      · funext j
        by_cases same : j = i
        · simp [OrderPool.order, OrderPool.put_get, same, Ne.symm ne]
        · by_cases sameK : j = k <;> simp [OrderPool.order, OrderPool.put_get, same, sameK, ne]
      · simp [OrderPool.next, OrderPool.put_get]
      · intro _
        simp [OrderPool.prev, OrderPool.put_get, ne]
    obtain ⟨place', cells', rep', kept, cellsQ, lrep'⟩ :=
      removed_rep rep real lrep { lvl with head := k, count := dec32 lvl.count }
        (show cells q = [] ++ i :: k :: rest from split) removed
        (by simpa using nxt.symm)
        (by simp only [lrep.tail, split]; simp [List.getLastD]) rfl
    refine ⟨_, pool', place', cells', ?_, rep', kept, cellsQ, lrep', removed.order, removed.size⟩
    have link : (pool.nodes.get i).next = k := nxt
    simp only [levelPopFront, head, OrderPool.read_ok small, ok_bind, link, ne_eq, realK,
      not_false_iff, if_true, OrderPool.read_ok smallK, OrderPool.write_ok smallK, ← relinkedEq,
      pure_eq_ok, OrderPool.release, OrderPool.read_ok (sizeEq ▸ small),
      OrderPool.write_ok (sizeEq ▸ small)]
    rw [poolEq]

end MarketBookExchange
