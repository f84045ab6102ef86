import MarketBookExchange.Conservation

/- A variant of the book whose KILL takes its order out of the middle of the level at once,
   in place of marking it. Everything else is the book's own. -/
namespace MarketBookExchange
open LinkedCells RankedList Outcome Traversal KillFlagTable

namespace OrderPool

def setNext (p : OrderPool) (i nxt : Nat) : Except Fault OrderPool :=
  if i = nil then pure p
  else do
    let node ← p.read i
    p.write i { node with next := nxt }

def setPrev (p : OrderPool) (i prv : Nat) : Except Fault OrderPool :=
  if i = nil then pure p
  else do
    let node ← p.read i
    p.write i { node with prev := prv }

end OrderPool

/-- Unlinks and releases node `idx`, wherever it stands in the level. -/
def levelRemove (lvl : PriceLevel) (pool : OrderPool) (idx : Nat) :
    Except Fault (PriceLevel × OrderPool) := do
  let node ← pool.read idx
  let pool ← pool.setNext node.prev node.next
  let pool ← pool.setPrev node.next node.prev
  let pool ← pool.release idx
  pure ({ lvl with
    head := if node.prev = nil then node.next else lvl.head
    tail := if node.next = nil then node.prev else lvl.tail
    count := dec32 lvl.count }, pool)

def BookSide.remove (side : BookSide) (pool : OrderPool) (slot idx : Nat) :
    Except Fault (BookSide × OrderPool) := do
  let (lvl, pool) ← levelRemove (side.levels slot) pool idx
  let side := side.setLevel slot lvl
  if lvl.empty then pure ({ side with bitmap := side.bitmap.clear slot }, pool)
  else pure (side, pool)

def findInChain (pool : OrderPool) (id : Int) : Nat → Nat → Except Fault (Option Nat)
  | 0, cur => if cur = nil then pure none else throw Fault.endlessLoop
  | fuel + 1, cur =>
    if cur = nil then pure none
    else do
      let node ← pool.read cur
      if node.order.orderId = id then pure (some cur) else findInChain pool id fuel node.next

def findVisit (side : BookSide) (pool : OrderPool) (id : Int) (slot : Nat)
    (_ : Option (Nat × Nat)) : Except Fault (Bool × Option (Nat × Nat)) := do
  match ← findInChain pool id pool.nodes.size (side.levels slot).head with
  | some idx => pure (false, some (slot, idx))
  | none => pure (true, none)

/-- The slot and the node of the order with this id. -/
def BookSide.locate (side : BookSide) (pool : OrderPool) (id : Int) :
    Except Fault (Option (Nat × Nat)) :=
  side.bitmap.forEachAscending (findVisit side pool id) none

namespace OrderBook

/-- The target leaves its level and the kill table, and its owner hears of it. -/
def cancelled (registry : Registry) (b : OrderBook) (w : World) (order : Order) :
    Except Fault (OrderBook × World) := do
  let w := w.writeIfLocked registry order.sessionId (.killConfirm order)
  let killedOrders ← b.killedOrders.erase order.orderId
  pure ({ b with killedOrders }, w.record (.evicted order))

def killEager (registry : Registry) (b : OrderBook) (w : World) (order : Order) :
    Except Fault (OrderBook × World) := do
  match ← b.killedOrders.find order.delId with
  | none => pure (b, w.writeIfLocked registry order.sessionId (.error invalidOrderId))
  | some _ =>
    match ← b.bids.locate b.pool order.delId with
    | some (slot, idx) =>
      let node ← b.pool.read idx
      let (bids, pool) ← b.bids.remove b.pool slot idx
      { b with bids, pool }.cancelled registry w node.order
    | none =>
      match ← b.asks.locate b.pool order.delId with
      | some (slot, idx) =>
        let node ← b.pool.read idx
        let (asks, pool) ← b.asks.remove b.pool slot idx
        { b with asks, pool }.cancelled registry w node.order
      | none => pure (b, w)

def modifyEager (registry : Registry) (b : OrderBook) (w : World) (order : Order) :
    Except Fault (OrderBook × World) := do
  let (b, w) ← b.killEager registry w order
  let b ← b.sendOrder { order with delId := 0 }
  pure (b, w)

def dispatchEager (registry : Registry) (b : OrderBook) (w : World) (order : Order) :
    Except Fault (OrderBook × World) :=
  match order.requestType with
  | .sendOrder => do pure (← b.sendOrder order, w)
  | .modifyOrder => b.modifyEager registry w order
  | .killOrder => b.killEager registry w order

def processEager (registry : Registry) (b : OrderBook) (w : World) (order : Order) :
    Except Fault (OrderBook × World) := do
  let (b, w) ← b.dispatchEager registry w order
  b.updateBook registry w

def runEager (registry : Registry) (b : OrderBook) (w : World) (orders : List Order) :
    Except Fault (OrderBook × World) :=
  orders.foldlM (fun (b, w) order => b.processEager registry w order) (b, w)

end OrderBook

section Pool
variable (pool : OrderPool)

theorem setNext_ok {i : Nat} (real : i = nil ∨ i < pool.nodes.size) (nxt : Nat) :
    ∃ pool', pool.setNext i nxt = .ok pool' ∧ pool'.nodes.size = pool.nodes.size ∧
      pool'.freeHead = pool.freeHead ∧ pool'.prev = pool.prev ∧ pool'.order = pool.order ∧
      (∀ j, j ≠ i → pool'.next j = pool.next j) ∧ (i ≠ nil → pool'.next i = nxt) := by
  rw [OrderPool.setNext]
  by_cases nothing : i = nil
  · rw [if_pos nothing]
    exact ⟨pool, rfl, rfl, rfl, rfl, rfl, fun _ _ => rfl, fun h => absurd nothing h⟩
  · have small := real.resolve_left nothing
    rw [if_neg nothing, OrderPool.read_ok small, ok_bind, OrderPool.write_ok small]
    refine ⟨_, rfl, rfl, rfl, ?_, ?_, fun j ne => ?_, fun _ => ?_⟩
    · funext j
      by_cases same : j = i <;> simp [OrderPool.prev, OrderPool.put_get, same]
    · funext j
      by_cases same : j = i <;> simp [OrderPool.order, OrderPool.put_get, same]
    · simp [OrderPool.next, OrderPool.put_get, ne]
    · simp [OrderPool.next, OrderPool.put_get]

theorem setPrev_ok {i : Nat} (real : i = nil ∨ i < pool.nodes.size) (prv : Nat) :
    ∃ pool', pool.setPrev i prv = .ok pool' ∧ pool'.nodes.size = pool.nodes.size ∧
      pool'.freeHead = pool.freeHead ∧ pool'.next = pool.next ∧ pool'.order = pool.order ∧
      (∀ j, j ≠ i → pool'.prev j = pool.prev j) ∧ (i ≠ nil → pool'.prev i = prv) := by
  rw [OrderPool.setPrev]
  by_cases nothing : i = nil
  · rw [if_pos nothing]
    exact ⟨pool, rfl, rfl, rfl, rfl, rfl, fun _ _ => rfl, fun h => absurd nothing h⟩
  · have small := real.resolve_left nothing
    rw [if_neg nothing, OrderPool.read_ok small, ok_bind, OrderPool.write_ok small]
    refine ⟨_, rfl, rfl, rfl, ?_, ?_, fun j ne => ?_, fun _ => ?_⟩
    · funext j
      by_cases same : j = i <;> simp [OrderPool.next, OrderPool.put_get, same]
    · funext j
      by_cases same : j = i <;> simp [OrderPool.order, OrderPool.put_get, same]
    · simp [OrderPool.prev, OrderPool.put_get, ne]
    · simp [OrderPool.prev, OrderPool.put_get]

theorem release_ok {i : Nat} (small : i < pool.nodes.size) :
    ∃ pool', pool.release i = .ok pool' ∧ pool'.nodes.size = pool.nodes.size ∧
      pool'.freeHead = i ∧ pool'.prev = pool.prev ∧ pool'.order = pool.order ∧
      (∀ j, j ≠ i → pool'.next j = pool.next j) ∧ pool'.next i = pool.freeHead := by
  rw [OrderPool.release, OrderPool.read_ok small, ok_bind, OrderPool.write_ok small, ok_bind]
  refine ⟨_, rfl, rfl, rfl, ?_, ?_, fun j ne => ?_, ?_⟩
  · funext j
    by_cases same : j = i <;> simp [OrderPool.prev, OrderPool.put_get, same]
  · funext j
    by_cases same : j = i <;> simp [OrderPool.order, OrderPool.put_get, same]
  · simp [OrderPool.next, OrderPool.put_get, ne]
  · simp [OrderPool.next, OrderPool.put_get]

end Pool

theorem levelRemove_ok {pool : OrderPool} {place : Nat → Place} {cells : Place → List Nat}
    (rep : PoolRep pool place cells) {q : Place} (real : q ≠ .free) {lvl : PriceLevel}
    (lrep : LevelRep pool lvl (cells q)) {pre post : List Nat} {i : Nat}
    (split : cells q = pre ++ i :: post) :
    ∃ lvl' pool' place' cells', levelRemove lvl pool i = .ok (lvl', pool') ∧
      PoolRep pool' place' cells' ∧ Kept pool pool' cells cells' q ∧ cells' q = pre ++ post ∧
      LevelRep pool' lvl' (cells' q) ∧ pool'.order = pool.order := by
  have chain := lrep.linked
  rw [split] at chain
  have nodup := rep.divided.nodup q
  rw [split] at nodup
  have small := rep.divided.lt_size (p := q) (i := i) (by simp [split])
  have nxt : pool.next i = post.headD nil := linked_next chain
  have prv : pool.prev i = pre.getLastD nil := linked_prev chain
  have inside : ∀ j ∈ pre ++ post, j < pool.nodes.size ∧ j ≠ nil ∧ j ≠ i := by
    intro j hj
    have member : j ∈ cells q := by
      rw [split]
      rcases List.mem_append.mp hj with h | h <;> simp [h]
    refine ⟨rep.divided.lt_size member, (rep.lt_nil member).2, fun e => ?_⟩
    subst e
    exact (List.nodup_cons.mp (List.perm_middle.nodup_iff.mp nodup)).1 hj
  have before : pre = [] ∧ pre.getLastD nil = nil ∨ pre.getLastD nil ∈ pre := by
    by_cases nothing : pre = []
    · exact Or.inl ⟨nothing, by rw [nothing]; rfl⟩
    · exact Or.inr (getLastD_mem nothing nil)
  have after : post = [] ∧ post.headD nil = nil ∨ post.headD nil ∈ post := by
    cases post with
    | nil => exact Or.inl ⟨rfl, rfl⟩
    | cons k rest => exact Or.inr (by simp)
  have apart : pre.getLastD nil ≠ nil → pre.getLastD nil ≠ i := by
    intro nonempty
    rcases before with ⟨_, nothing⟩ | member
    · exact absurd nothing nonempty
    · exact (inside _ (List.mem_append_left _ member)).2.2
  have lowB : pre.getLastD nil = nil ∨ pre.getLastD nil < pool.nodes.size := by
    rcases before with ⟨_, nothing⟩ | member
    · exact Or.inl nothing
    · exact Or.inr (inside _ (List.mem_append_left _ member)).1
  have lowA : post.headD nil = nil ∨ post.headD nil < pool.nodes.size := by
    rcases after with ⟨_, nothing⟩ | member
    · exact Or.inl nothing
    · exact Or.inr (inside _ (List.mem_append_right _ member)).1
  obtain ⟨p₁, run₁, size₁, free₁, prev₁, order₁, next₁, set₁⟩ :=
    setNext_ok pool lowB (post.headD nil)
  obtain ⟨p₂, run₂, size₂, free₂, next₂, order₂, prev₂, set₂⟩ :=
    setPrev_ok p₁ (by rwa [size₁]) (pre.getLastD nil)
  obtain ⟨p₃, run₃, size₃, free₃, prev₃, order₃, next₃, set₃⟩ :=
    release_ok p₂ (i := i) (by rw [size₂, size₁]; exact small)
  have removed : Removed pool p₃ (pre.getLastD nil) i (post.headD nil) := by
    refine ⟨by rw [size₃, size₂, size₁], free₃, fun j ne neB => ?_, fun j ne neA => ?_,
      by rw [order₃, order₂, order₁], by rw [set₃, free₂, free₁],
      fun nonempty => ?_, fun nonempty => ?_⟩
    · rw [next₃ j ne, next₂, next₁ j neB]
    · rw [prev₃, prev₂ j neA, prev₁]
    · rw [next₃ _ (apart nonempty), next₂, set₁ nonempty]
    · rw [prev₃, set₂ nonempty]
  have head : (if pre.getLastD nil = nil then post.headD nil else lvl.head) =
      if pre = [] then pool.next i else lvl.head := by
    rcases before with ⟨nothing, last⟩ | member
    · rw [if_pos last, if_pos nothing, nxt]
    · rw [if_neg (inside _ (List.mem_append_left _ member)).2.1, if_neg fun nothing => by
        rw [nothing] at member
        cases member]
  have tail : (if post.headD nil = nil then pre.getLastD nil else lvl.tail) =
      (pre ++ post).getLastD nil := by
    cases post with
    | nil => simp
    | cons k rest =>
      rw [List.headD_cons, if_neg (inside k (by simp)).2.1, lrep.tail, split]
      simp [List.getLastD_eq_getLast?, List.getLast?_append, List.getLast?_cons_cons]
  obtain ⟨place', cells', rep', kept, cellsQ, lrep'⟩ := removed_rep rep real lrep
    { lvl with
      head := if pre.getLastD nil = nil then post.headD nil else lvl.head
      tail := if post.headD nil = nil then pre.getLastD nil else lvl.tail
      count := dec32 lvl.count } split removed head tail rfl
  refine ⟨_, p₃, place', cells', ?_, rep', kept, cellsQ, lrep', removed.order⟩
  simp only [levelRemove, OrderPool.read_ok small, ok_bind,
    show (pool.nodes.get i).prev = _ from prv, show (pool.nodes.get i).next = _ from nxt, run₁,
    run₂, run₃, pure_eq_ok]

theorem findInChain_eq {pool : OrderPool} (id : Int) {l : List Nat}
    (small : ∀ i ∈ l, i < pool.nodes.size) (fuel : Nat) : ∀ (before cur : Nat),
      Linked nil pool.next pool.prev before cur l → l.length ≤ fuel →
      findInChain pool id fuel cur = .ok (l.find? fun i => (pool.order i).orderId = id) := by
  induction l generalizing fuel with
  | nil =>
    intro before cur link _
    have ended : cur = nil := link
    cases fuel <;> simp [findInChain, ended]
  | cons i rest ih =>
    intro before cur link room
    obtain ⟨first, real, _, tail⟩ := link
    obtain ⟨fuel, rfl⟩ : ∃ k, fuel = k + 1 := ⟨fuel - 1, by simp at room; omega⟩
    subst first
    have next := ih (fun j hj => small j (by simp [hj])) fuel cur _ tail (by simpa using room)
    rw [findInChain, if_neg real, OrderPool.read_ok (small cur (by simp)), ok_bind]
    change (if (pool.order cur).orderId = id then pure (some cur)
      else findInChain pool id fuel (pool.next cur)) = _
    by_cases here : (pool.order cur).orderId = id
    · rw [if_pos here, List.find?_cons_of_pos (by simpa using here)]
      rfl
    · rw [if_neg here, List.find?_cons_of_neg (by simpa using here)]
      exact next

section Side
variable {pool : OrderPool} {place : Nat → Place} {cells : Place → List Nat} {t : OrderType}
  {side : BookSide} {l : List Order}

def Located (pool : OrderPool) (cells : Place → List Nat) (t : OrderType) (id : Int)
    (slots : List Nat) : Option (Nat × Nat) → Prop
  | some (slot, idx) => idx ∈ cells (.level t slot) ∧ (pool.order idx).orderId = id
  | none => ∀ slot ∈ slots, ∀ i ∈ cells (.level t slot), (pool.order i).orderId ≠ id

theorem visit_located (prep : PoolRep pool place cells) (rep : SideRep pool cells t side l)
    (id : Int) (slots : List Nat) : ∃ go r, visitAll (findVisit side pool id) slots none =
      .ok (go, r) ∧ Located pool cells t id slots r := by
  induction slots with
  | nil => exact ⟨true, none, rfl, fun slot h => by cases h⟩
  | cons slot rest ih =>
    have search := findInChain_eq id (fun i hi => prep.divided.lt_size hi) _ nil _
      (rep.level slot).linked (prep.divided.length_le _)
    rw [visitAll, findVisit, search]
    cases found : (cells (.level t slot)).find? fun i => (pool.order i).orderId = id with
    | some idx =>
      exact ⟨false, _, rfl, List.mem_of_find?_eq_some found,
        by simpa using List.find?_some found⟩
    | none =>
      obtain ⟨go, r, ran, located⟩ := ih
      refine ⟨go, r, ran, ?_⟩
      cases r with
      | some hit => exact located
      | none =>
        intro s hs i hi
        rcases List.mem_cons.mp hs with rfl | later
        · simpa using List.find?_eq_none.mp found i hi
        · exact located s later i hi

theorem locate_ok (prep : PoolRep pool place cells) (rep : SideRep pool cells t side l)
    (id : Int) : ∃ r, side.locate pool id = .ok r ∧
      match r with
      | some (slot, idx) => idx ∈ cells (.level t slot) ∧ (pool.order idx).orderId = id
      | none => ∀ o ∈ l, o.orderId ≠ id := by
  obtain ⟨slots, _, mem, walk⟩ := PriceBitmap.forEachAscending_spec rep.summarized rep.window
  obtain ⟨go, r, ran, located⟩ := visit_located prep rep id slots
  refine ⟨r, by rw [BookSide.locate, walk, ran]; rfl, ?_⟩
  cases r with
  | some hit => exact located
  | none =>
    intro o ho same
    have inLevel : o ∈ (cells (.level t (indexOf o.priceLevel))).map pool.order := by
      rw [rep.orders]
      exact List.mem_filter.mpr ⟨ho, by simp⟩
    obtain ⟨i, hi, eq⟩ := List.mem_map.mp inLevel
    have used := (mem _).mpr ((rep.has_iff (indexOf o.priceLevel)).mpr ⟨o, ho, rfl⟩)
    exact located _ used i hi (by rw [eq, same])

end Side

def without (id : Int) (l : List Order) : List Order := l.filter fun o => o.orderId ≠ id

theorem without_eq_self {id : Int} {l : List Order} (h : ∀ o ∈ l, o.orderId ≠ id) :
    without id l = l := List.filter_eq_self.mpr fun o ho => by simpa using h o ho

theorem without_split {order : Nat → Order} {pre post : List Nat} {i : Nat}
    (nodup : (ids ((pre ++ i :: post).map order)).Nodup) :
    without (order i).orderId ((pre ++ i :: post).map order) = (pre ++ post).map order := by
  rw [ids, List.map_map, List.map_append, List.map_cons] at nodup
  obtain ⟨fresh, _⟩ := List.nodup_cons.mp (List.perm_middle.nodup_iff.mp nodup)
  have others : ∀ o ∈ (pre ++ post).map order, o.orderId ≠ (order i).orderId := by
    intro o ho same
    obtain ⟨j, hj, rfl⟩ := List.mem_map.mp ho
    refine fresh ?_
    rw [← List.map_append]
    exact List.mem_map.mpr ⟨j, hj, same⟩
  rw [without, List.map_append, List.map_cons, List.filter_append,
    List.filter_cons_of_neg (by simp), ← List.filter_append, ← List.map_append]
  exact without_eq_self others

theorem BookRep.remove_cases {pool : OrderPool} {sides : OrderType → BookSide}
    {queues : OrderType → List Order} (rep : BookRep pool sides queues) (t : OrderType) (id : Int)
    (nodup : (ids (queues t)).Nodup) :
    ((sides t).locate pool id = .ok none ∧ ∀ o ∈ queues t, o.orderId ≠ id) ∨
    ∃ slot idx node side' pool', (sides t).locate pool id = .ok (some (slot, idx)) ∧
      pool.read idx = .ok node ∧ node.order ∈ queues t ∧ node.order.orderId = id ∧
      (sides t).remove pool slot idx = .ok (side', pool') ∧
      BookRep pool' (Function.update sides t side')
        (Function.update queues t (without id (queues t))) := by
  obtain ⟨place, cells, prep, holds⟩ := rep
  have old := holds t
  obtain ⟨r, ran, spec⟩ := locate_ok prep old id
  cases r with
  | none => exact Or.inl ⟨ran, spec⟩
  | some hit =>
    obtain ⟨slot, i⟩ := hit
    obtain ⟨inLevel, rfl⟩ := spec
    obtain ⟨pre, post, split⟩ := List.append_of_mem inLevel
    obtain ⟨lvl', pool', place', cells', run, prep', kept, cellsQ, lrep, sameOrder⟩ :=
      levelRemove_ok prep (by simp) (old.level slot) split
    have orders := old.orders slot
    have inSlot : pool.order i ∈ (queues t).filter fun o => indexOf o.priceLevel = slot := by
      rw [← orders]
      exact List.mem_map_of_mem inLevel
    obtain ⟨resting, here⟩ := List.mem_filter.mp inSlot
    have slotted : indexOf (pool.order i).priceLevel = slot := by simpa using here
    refine Or.inr ⟨slot, i, _, (sides t).afterLoss slot lvl', pool', ran,
      OrderPool.read_ok (prep.divided.lt_size inLevel), resting, rfl, ?_,
      shrink prep' holds kept lrep sameOrder (by simp [split]) ?_ ?_
        (ranked_sublist old.ranked List.filter_sublist)⟩
    · rw [BookSide.remove, run, BookSide.afterLoss]
      simp only [ok_bind]
      split <;> rfl
    · have sub : (ids ((cells (.level t slot)).map pool.order)).Nodup := by
        rw [orders]
        exact nodup.sublist (List.filter_sublist.map _)
      rw [split] at sub
      rw [cellsQ, without, List.filter_filter, ← without_split sub, ← split, orders, without,
        List.filter_filter]
      exact List.filter_congr fun o _ => Bool.and_comm _ _
    · intro s ne
      rw [without, List.filter_filter]
      refine List.filter_congr fun o ho => ?_
      by_cases stands : indexOf o.priceLevel = s
      · have other : o.orderId ≠ (pool.order i).orderId := by
          intro same
          have equal := eq_of_id nodup ho resting same
          rw [equal, slotted] at stands
          exact ne stands.symm
        simp [other]
      · simp [stands]

/-- What an eager kill leaves: no order with the id, and at most its flag gone. -/
structure Cancelled (f : FlagBook) (id : Int) (f' : FlagBook) : Prop where
  queue : ∀ t, f'.queue t = without id (f.queue t)
  flags : f'.flags = f.flags ∨ f'.flags = Function.update f.flags id none

theorem cancelled_self {f : FlagBook} {id : Int} (h : ∀ t, ∀ o ∈ f.queue t, o.orderId ≠ id) :
    Cancelled f id f := ⟨fun t => (without_eq_self (h t)).symm, Or.inl rfl⟩

section Kill
variable (registry : Registry) {b : OrderBook} {q : QueueBook} {f : FlagBook}

theorem cancelled_ok (reads : Reads q f) {node : Order} (ordinary : Ordinary node.orderId)
    {c : OrderBook} (rep : BookRep c.pool c.side fun t => without node.orderId (f.queue t))
    (killed : c.killedOrders = q.killedOrders) (w : World) :
    ∃ c' w' f', c.cancelled registry w node = .ok (c', w') ∧ Tracks c' f' ∧
      Cancelled f node.orderId f' ∧ tradesOf w'.log = tradesOf w.log := by
  obtain ⟨kt, erased, krep⟩ := erase_ok reads.rep ordinary
  refine ⟨{ c with killedOrders := kt }, _,
    ⟨fun t => without node.orderId (f.queue t), Function.update f.flags node.orderId none⟩, ?_,
    ⟨⟨fun t => without node.orderId (f.queue t), kt⟩, ⟨rep, rfl⟩, rfl, krep, fun t o ho => ?_⟩,
    ⟨fun _ => rfl, Or.inr rfl⟩, tradesOf_evict registry w node⟩
  · rw [OrderBook.cancelled, killed, erased]
    rfl
  · exact reads.ordinary t o (List.mem_filter.mp ho).1

theorem killEager_tracks (h : Tracks b f)
    (distinct : (ids (f.queue .buy) ++ ids (f.queue .sell)).Nodup)
    (flagged : ∀ t, ∀ o ∈ f.queue t, f.flags o.orderId ≠ none) (w : World) (order : Order) :
    ∃ b' w' f', b.killEager registry w order = .ok (b', w') ∧ Tracks b' f' ∧
      Cancelled f order.delId f' ∧ tradesOf w'.log = tradesOf w.log := by
  obtain ⟨q, rep, reads⟩ := h
  obtain ⟨buys, sells, apart⟩ := List.nodup_append.mp distinct
  obtain ⟨r, looked, _, missing⟩ := find_ok reads.rep.inv order.delId
  rw [← rep.killed] at looked
  rw [OrderBook.killEager, looked, ok_bind]
  have books := rep.rep
  rw [reads.queue] at books
  cases r with
  | none =>
    refine ⟨b, _, f, rfl, ⟨q, rep, reads⟩, cancelled_self fun t o ho same => ?_,
      tradesOf_noted (noted_writeIfLocked _ _ _ _)⟩
    refine flagged t o ho (reads.rep.none_of_absent fun i small => ?_)
    rw [same]
    exact missing rfl (by rw [← same]; exact reads.ordinary t o ho) i small
  | some kf =>
    rcases books.remove_cases .buy order.delId buys with
      ⟨noBid, notBids⟩ | ⟨slot, idx, node, side', pool', hit, read, member, same, ran, rep'⟩
    · rw [show b.bids.locate b.pool order.delId = _ from noBid, ok_bind]
      rcases books.remove_cases .sell order.delId sells with
        ⟨noAsk, notAsks⟩ | ⟨slot, idx, node, side', pool', hit, read, member, same, ran, rep'⟩
      · simp only [show b.asks.locate b.pool order.delId = _ from noAsk, ok_bind]
        refine ⟨b, w, f, rfl, ⟨q, rep, reads⟩, cancelled_self fun t => ?_, rfl⟩
        cases t
        · exact notAsks
        · exact notBids
      · simp only [show b.asks.locate b.pool order.delId = _ from hit, ok_bind, read,
          show b.asks.remove b.pool slot idx = _ from ran]
        rw [← same] at rep' notBids ⊢
        refine cancelled_ok registry (c := { b with asks := side', pool := pool' }) reads
          (reads.ordinary .sell _ member) ?_ rep.killed w
        have queues : (fun t => without node.order.orderId (f.queue t)) =
            bySide (f.queue .buy) (without node.order.orderId (f.queue .sell)) := by
          funext t
          cases t
          · rfl
          · exact without_eq_self notBids
        rw [queues]
        rwa [update_sell, update_sell] at rep'
    · rw [show b.bids.locate b.pool order.delId = _ from hit, ok_bind]
      simp only [read, ok_bind, show b.bids.remove b.pool slot idx = _ from ran]
      rw [← same] at rep' ⊢
      have notAsks : ∀ o ∈ f.queue .sell, o.orderId ≠ node.order.orderId := by
        intro o ho equal
        exact apart _ (List.mem_map_of_mem member) _ (List.mem_map_of_mem ho) equal.symm
      refine cancelled_ok registry (c := { b with bids := side', pool := pool' }) reads
        (reads.ordinary .buy _ member) ?_ rep.killed w
      have queues : (fun t => without node.order.orderId (f.queue t)) =
          bySide (without node.order.orderId (f.queue .buy)) (f.queue .sell) := by
        funext t
        cases t
        · exact without_eq_self notAsks
        · rfl
      rw [queues]
      rwa [update_buy, update_buy] at rep'

end Kill
end MarketBookExchange
