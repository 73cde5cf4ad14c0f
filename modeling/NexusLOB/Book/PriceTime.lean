import NexusLOB.Book.MapRefinement

/-!
# Price-time priority

The queries of a `MapOrderBook` answer from the flat list, and so does every run of calls: what the
engine returns is what the reference returns on the resting orders in arrival order.
-/

namespace NexusLOB.Lob

open Collections Resting

/-! ## Depth -/

theorem foldl_priceLevel (level : Level) (pl : PriceLevel) :
    level.foldl (fun pl x => { pl with
      totalQuantity := pl.totalQuantity + x.order.quantity, orderCount := pl.orderCount + 1 }) pl =
      { price := pl.price
        totalQuantity := pl.totalQuantity + (level.map fun x => x.order.quantity).sum
        orderCount := pl.orderCount + UInt32.ofNat level.length } := by
  induction level generalizing pl with
  | nil => simp
  | cons x level ih =>
    rw [List.foldl_cons, ih, List.map_cons, List.sum_cons, List.length_cons, UInt32.ofNat_add]
    simp only [PriceLevel.mk.injEq, true_and]
    refine ⟨Int64.add_assoc _ _ _, ?_⟩
    rw [UInt32.add_assoc, UInt32.add_comm 1]
    rfl

theorem priceLevel_eq (xs : List ListNode) (s : Side) (price : Int64) :
    Book.priceLevel price (nodesAt xs s price) = (ordersIn xs).priceLevel s price := by
  rw [Book.priceLevel, foldl_priceLevel, Resting.priceLevel, ← map_nodesAt, List.map_map,
    List.length_map]
  simp only [Int64.zero_add, UInt32.zero_add]
  rfl

theorem depth_zero (count : Nat) (levels : List (Int64 × Level)) :
    Book.depth 0 count levels = levels.map fun pl => Book.priceLevel pl.1 pl.2 := by
  induction levels generalizing count with
  | nil => rfl
  | cons pl levels ih =>
    rw [Book.depth, if_neg fun h => h.1 rfl, ih, List.map_cons]

/-- The loop stops after `maxLevels` levels. -/
theorem depth_eq_take {maxLevels count : Nat} (h : count < maxLevels)
    (levels : List (Int64 × Level)) :
    Book.depth maxLevels count levels =
      (levels.take (maxLevels - count)).map fun pl => Book.priceLevel pl.1 pl.2 := by
  induction levels generalizing count with
  | nil => simp [Book.depth]
  | cons pl levels ih =>
    rw [Book.depth, show maxLevels - count = maxLevels - (count + 1) + 1 by omega,
      List.take_succ_cons, List.map_cons]
    congr 1
    split
    · next hstop => rw [show maxLevels - (count + 1) = 0 by omega, List.take_zero, List.map_nil]
    · next hgo => exact ih (by omega)

/-! ## Queries -/

/-- Going to where a node lies finds its order. -/
theorem HasLevels.deref_location {b : MapOrderBook} {xs : List ListNode} (h : HasLevels b xs)
    (hplaces : (xs.map ListNode.it).Nodup) {x : ListNode} (hx : x ∈ xs) :
    b.deref x.location = some x.order := by
  have hat : x ∈ nodesAt xs x.order.side x.order.price := mem_nodesAt.mpr ⟨hx, rfl, rfl⟩
  have hlevel := (h _ _ _).mpr ⟨rfl, List.ne_nil_of_mem hat⟩
  have hlocate : Levels.find (b.side x.order.side) x.order.price = some x.order.price := by
    change (if (b.side x.order.side).contains x.order.price then _ else _) = _
    rw [OrderedMap.contains, hlevel]
    rfl
  have hvalue : Levels.value (b.side x.order.side) x.order.price =
      nodesAt xs x.order.side x.order.price := h.value_eq _ _
  have hnode : (nodesAt xs x.order.side x.order.price).find? (fun y => y.it = x.it) = some x :=
    find?_of_nodup_map (f := ListNode.it) (hplaces.sublist (List.filter_sublist.map _)) hat
  change (Levels.find (b.side x.order.side) x.order.price).bind _ = _
  rw [hlocate]
  change ((Levels.value (b.side x.order.side) x.order.price).find? fun y => y.it = x.it).map _ = _
  rw [hvalue, hnode]
  rfl

namespace Keeps

variable {b : MapOrderBook} {xs : List ListNode}

theorem depth_eq (h : Keeps b xs) (s : Side) (maxLevels : Nat) :
    Book.depth maxLevels 0 (b.side s).bindings = (ordersIn xs).depth s maxLevels := by
  have hlevel : ∀ prices : List Int64,
      (prices.map fun price => (price, nodesAt xs s price)).map
        (fun pl => Book.priceLevel pl.1 pl.2) = prices.map ((ordersIn xs).priceLevel s) := by
    intro prices
    rw [List.map_map]
    exact List.map_congr_left fun price _ => priceLevel_eq xs s price
  rw [Resting.depth, h.bindings]
  by_cases hmax : maxLevels = 0
  · rw [if_pos hmax, hmax, depth_zero, hlevel]
  · rw [if_neg hmax, depth_eq_take (Nat.pos_of_ne_zero hmax), Nat.sub_zero, ← List.map_take, hlevel]

theorem best_eq (h : Keeps b xs) (s : Side) :
    (Levels.best (b.side s)).map (Levels.key (b.side s)) = (ordersIn xs).best s := by
  change ((b.side s).bindings.head?.map Prod.fst).map (fun price => price) = _
  rw [h.bindings, Resting.best, List.head?_map, Option.map_map, Option.map_map]
  exact Option.map_id'

theorem getOrder_eq (h : Keeps b xs) (id : UInt64) : b.getOrder id = (ordersIn xs).getOrder id := by
  rw [Book.getOrder, h.index_eq, getOrder_ordersIn]
  cases hfind : xs.find? fun x => x.order.id = id with
  | none => rfl
  | some x => exact h.hasLevels.deref_location h.places (List.mem_of_find?_eq_some hfind)

theorem orderCount_eq (h : Keeps b xs) : b.orderCount = (ordersIn xs).orderCount := by
  have hperm : b.orderIndex_.keys.Perm (idsOf xs) := by
    refine (List.perm_ext_iff_of_nodup (OrderedMap.keys_nodup _) h.ids).mpr ?_
    intro id
    rw [OrderedMap.mem_keys_iff, h.mem_idsOf, Option.isSome_iff_exists]
  have hlength := hperm.length_eq
  rw [OrderedMap.keys, List.length_map, idsOf, List.length_map] at hlength
  rw [Book.orderCount, OrderedMap.size, hlength, Resting.orderCount, ordersIn, List.length_map]

theorem allOrders_eq (h : Keeps b xs) :
    b.allOrders = (ordersIn xs).byPriority .buy ++ (ordersIn xs).byPriority .sell := by
  have hside : ∀ s, Book.ordersOf (b.side s).bindings = (ordersIn xs).byPriority s := by
    intro s
    rw [← h.map_nodesOf, nodesOf, Book.ordersOf, List.map_flatMap]
  exact congrArg₂ (· ++ ·) (hside .buy) (hside .sell)

end Keeps

/-! ## Runs -/

/-- A call that may be made on the resting orders: an order that is added is not there yet. -/
def Resting.Admits (q : Resting) : Call → Prop
  | .addRestingOrder o _ => q.getOrder o.id = none
  | _ => True

/-- Each call of a run may be made. -/
def Resting.AdmitsAll (q : Resting) : List Call → Prop
  | [] => True
  | c :: calls => q.Admits c ∧ (q.call c).2.AdmitsAll calls

namespace Keeps

variable {b : MapOrderBook} {xs : List ListNode}

theorem call (h : Keeps b xs) {c : Call} (hc : (ordersIn xs).Admits c) :
    ∃ b' xs', b.call c = .ok (((ordersIn xs).call c).1, b') ∧ Keeps b' xs' ∧
      ordersIn xs' = ((ordersIn xs).call c).2 := by
  cases c with
  | newOrder id side price quantity sequence coins =>
    obtain ⟨b', xs', heq, hkeeps, hxs⟩ := h.newOrder id side price quantity sequence coins
    refine ⟨b', xs', ?_, hkeeps, hxs⟩
    rw [Book.call, heq]
    rfl
  | cancelOrder id =>
    obtain ⟨b', heq, hkeeps⟩ := h.cancelOrder id
    refine ⟨b', _, ?_, hkeeps, ordersIn_withoutId xs id⟩
    rw [Book.call, heq]
    rfl
  | modifyOrder id newPrice newQuantity newSequence coins =>
    obtain ⟨b', xs', heq, hkeeps, hxs⟩ := h.modifyOrder id newPrice newQuantity newSequence coins
    refine ⟨b', xs', ?_, hkeeps, hxs⟩
    rw [Book.call, heq]
    rfl
  | addRestingOrder o coins =>
    have hnone : (ordersIn xs).getOrder o.id = none := hc
    have hnew : o.id ∉ idsOf xs := by
      rw [h.mem_idsOf, ← OrderedMap.contains, h.contains_eq, hnone]
      exact Bool.false_ne_true
    refine ⟨_, _, rfl, h.addResting hnew coins, ?_⟩
    rw [ordersIn, List.map_append]
    rfl
  | reset symbol => exact ⟨_, _, rfl, Keeps.reset b symbol, rfl⟩

theorem run (h : Keeps b xs) {calls : List Call} (hcalls : (ordersIn xs).AdmitsAll calls) :
    ∃ b' xs', b.run calls = .ok (((ordersIn xs).run calls).1, b') ∧ Keeps b' xs' ∧
      ordersIn xs' = ((ordersIn xs).run calls).2 := by
  induction calls generalizing b xs with
  | nil => exact ⟨b, xs, rfl, h, rfl⟩
  | cons c calls ih =>
    obtain ⟨b₁, xs₁, hcall, h₁, hxs₁⟩ := h.call hcalls.1
    have hrest := hcalls.2
    rw [← hxs₁] at hrest
    obtain ⟨b₂, xs₂, hrun, h₂, hxs₂⟩ := ih h₁ hrest
    refine ⟨b₂, xs₂, ?_, h₂, ?_⟩
    · rw [Book.run, hcall]
      change (Book.run b₁ calls).bind _ = _
      rw [hrun, hxs₁]
      rfl
    · rw [hxs₂, hxs₁]
      rfl

end Keeps

/-- A call of a client or of `reset`; only the restore of a snapshot adds resting orders. -/
def Call.trades : Call → Bool
  | .addRestingOrder _ _ => false
  | _ => true

theorem Resting.admitsAll_of_trades {calls : List Call} (h : ∀ c ∈ calls, c.trades = true)
    (q : Resting) : q.AdmitsAll calls := by
  induction calls generalizing q with
  | nil => trivial
  | cons c calls ih =>
    obtain ⟨hc, hcalls⟩ := List.forall_mem_cons.mp h
    refine ⟨?_, ih hcalls _⟩
    cases c with
    | addRestingOrder o coins => cases hc
    | _ => trivial

/-- What a book tells is what the reference tells of the resting orders. -/
structure Shows {L : Side → Type} [∀ s, Levels (L s)] (b : Book L) (q : Resting) : Prop where
  getOrder : ∀ id, b.getOrder id = q.getOrder id
  orderCount : b.orderCount = q.orderCount
  bids : ∀ maxLevels, b.bids maxLevels = q.depth .buy maxLevels
  asks : ∀ maxLevels, b.asks maxLevels = q.depth .sell maxLevels
  bestBid : b.bestBid = q.best .buy
  bestAsk : b.bestAsk = q.best .sell

theorem Keeps.shows {b : MapOrderBook} {xs : List ListNode} (h : Keeps b xs) :
    Shows b (ordersIn xs) where
  getOrder := h.getOrder_eq
  orderCount := h.orderCount_eq
  bids := h.depth_eq .buy
  asks := h.depth_eq .sell
  bestBid := h.best_eq .buy
  bestAsk := h.best_eq .sell

/-- After any trading calls the engine has returned what the reference returns on the list of
resting orders, and its queries answer from that list. -/
theorem price_time_priority (symbol : Bytes) (calls : List Call)
    (hcalls : ∀ c ∈ calls, c.trades = true) :
    ∃ b : MapOrderBook, (Book.new symbol).run calls = .ok ((Resting.run [] calls).1, b) ∧
      Shows b (Resting.run [] calls).2 := by
  obtain ⟨b, xs, hrun, hkeeps, hxs⟩ :=
    (Keeps.new symbol).run (Resting.admitsAll_of_trades hcalls [])
  refine ⟨b, hrun, ?_⟩
  have hshows := hkeeps.shows
  rw [hxs] at hshows
  exact hshows

/-- Two bids at one price are filled in arrival order, after a better one. -/
theorem price_time_priority_three_bids :
    let calls : List Call :=
      [.newOrder 1 .buy 100 5 1 [], .newOrder 2 .buy 100 5 2 [], .newOrder 3 .buy 101 2 3 [],
       .newOrder 4 .sell 100 9 4 []]
    (Resting.run [] calls).1.getLast? = some (.fills
        [{ makerOrderId := 3, takerOrderId := 4, price := 101, quantity := 2, takerSide := .sell },
         { makerOrderId := 1, takerOrderId := 4, price := 100, quantity := 5, takerSide := .sell },
         { makerOrderId := 2, takerOrderId := 4, price := 100, quantity := 2,
           takerSide := .sell }]) ∧
      ∃ b : MapOrderBook, (Book.new []).run calls = .ok ((Resting.run [] calls).1, b) ∧
        Shows b (Resting.run [] calls).2 :=
  ⟨by decide +kernel, price_time_priority [] _ (by decide)⟩

end NexusLOB.Lob
