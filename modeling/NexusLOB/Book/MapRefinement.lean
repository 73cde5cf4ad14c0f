import NexusLOB.Book.Matching

/-!
# The map engine refines the flat list

`Keeps b xs` ties a `MapOrderBook` to the list nodes it holds, in arrival order: each level is the
part of `xs` with its side and price, no level is empty, and the index knows exactly the nodes of
`xs` by their ids. Every operation keeps the relation, with the reference operation on the orders
of `xs`.
-/

namespace NexusLOB.Lob

open Collections Resting

/-- The nodes at a side and price, in arrival order. -/
def nodesAt (xs : List ListNode) (s : Side) (price : Int64) : Level :=
  xs.filter fun x => x.order.side = s ∧ x.order.price = price

/-- The orders in the nodes. -/
def ordersIn (xs : List ListNode) : Resting := xs.map ListNode.order

structure Keeps (b : MapOrderBook) (xs : List ListNode) : Prop where
  level : ∀ s price level,
    (b.side s).find? price = some level ↔ level = nodesAt xs s price ∧ level ≠ []
  index : ∀ id loc,
    b.orderIndex_.find? id = some loc ↔ ∃ x ∈ xs, x.order.id = id ∧ x.location = loc
  ids : (idsOf xs).Nodup
  places : (xs.map ListNode.it).Nodup
  fresh : ∀ x ∈ xs, x.it < b.nextNode

/-- The part of `Keeps` about the levels, which also holds with two nodes of one id. -/
def HasLevels (b : MapOrderBook) (xs : List ListNode) : Prop :=
  ∀ s price level,
    (b.side s).find? price = some level ↔ level = nodesAt xs s price ∧ level ≠ []

theorem mem_nodesAt {xs : List ListNode} {s : Side} {price : Int64} {x : ListNode} :
    x ∈ nodesAt xs s price ↔ x ∈ xs ∧ x.order.side = s ∧ x.order.price = price := by
  simp [nodesAt]

theorem nodesAt_concat (xs : List ListNode) (x : ListNode) (s : Side) (price : Int64) :
    nodesAt (xs ++ [x]) s price =
      nodesAt xs s price ++ if x.order.side = s ∧ x.order.price = price then [x] else [] := by
  rw [nodesAt, List.filter_append, List.filter_singleton, Bool.cond_decide, nodesAt]

theorem map_nodesAt (xs : List ListNode) (s : Side) (price : Int64) :
    (nodesAt xs s price).map ListNode.order = (ordersIn xs).level s price := by
  rw [level, ordersIn, List.filter_map]
  rfl

theorem level_ordersIn_eq_nil {xs : List ListNode} {s : Side} {price : Int64} :
    (ordersIn xs).level s price = [] ↔ nodesAt xs s price = [] := by
  rw [← map_nodesAt, List.map_eq_nil_iff]

theorem getOrder_ordersIn (xs : List ListNode) (id : UInt64) :
    (ordersIn xs).getOrder id = (xs.find? fun x => x.order.id = id).map ListNode.order := by
  rw [Resting.getOrder, ordersIn, List.find?_map]
  rfl

theorem eq_of_id {xs : List ListNode} (hids : (idsOf xs).Nodup) {x y : ListNode} (hx : x ∈ xs)
    (hy : y ∈ xs) (h : x.order.id = y.order.id) : x = y :=
  List.inj_on_of_nodup_map hids hx hy h

theorem find?_of_nodup_map {α κ : Type} [DecidableEq κ] {f : α → κ} {xs : List α}
    (h : (xs.map f).Nodup) {x : α} (hx : x ∈ xs) : (xs.find? fun y => f y = f x) = some x := by
  cases hfind : xs.find? fun y => f y = f x with
  | none =>
    rw [List.find?_eq_none] at hfind
    exact absurd (decide_eq_true rfl) (hfind x hx)
  | some y =>
    have hy : f y = f x := by simpa using List.find?_some hfind
    exact congrArg some (List.inj_on_of_nodup_map h (List.mem_of_find?_eq_some hfind) hx hy)

/-! ## Views -/

namespace HasLevels

variable {b : MapOrderBook} {xs : List ListNode}

/-- The levels of a side are the priced parts of the list, best price first. -/
theorem bindings (h : HasLevels b xs) (s : Side) :
    (b.side s).bindings = ((ordersIn xs).prices s).map fun price => (price, nodesAt xs s price) := by
  refine OrderedMap.bindings_eq_of_find? (List.pairwise_map.mpr (prices_sorted (ordersIn xs) s)) ?_
  intro price level
  rw [h, List.mem_map]
  constructor
  · rintro ⟨rfl, hne⟩
    exact ⟨price, mem_prices.mpr fun he => hne (level_ordersIn_eq_nil.mp he), rfl⟩
  · rintro ⟨price', hprice, he⟩
    obtain ⟨rfl, rfl⟩ := Prod.mk.inj he
    exact ⟨rfl, fun he => mem_prices.mp hprice (level_ordersIn_eq_nil.mpr he)⟩

theorem value_eq (h : HasLevels b xs) (s : Side) (price : Int64) :
    ((b.side s).find? price).getD [] = nodesAt xs s price := by
  cases hfind : (b.side s).find? price with
  | some level => exact ((h s price level).mp hfind).1
  | none =>
    by_contra hne
    have hsome := (h s price _).mpr ⟨rfl, Ne.symm hne⟩
    rw [hfind] at hsome
    cases hsome

end HasLevels

namespace Keeps

variable {b : MapOrderBook} {xs : List ListNode}

theorem hasLevels (h : Keeps b xs) : HasLevels b xs := h.level

theorem bindings (h : Keeps b xs) (s : Side) :
    (b.side s).bindings = ((ordersIn xs).prices s).map fun price => (price, nodesAt xs s price) :=
  h.hasLevels.bindings s

theorem mem_nodesOf (h : Keeps b xs) {s : Side} {x : ListNode} :
    x ∈ nodesOf (b.side s).bindings ↔ x ∈ xs ∧ x.order.side = s := by
  rw [nodesOf, h.bindings, List.flatMap_map, List.mem_flatMap]
  constructor
  · rintro ⟨price, -, hx⟩
    obtain ⟨hx, hs, -⟩ := mem_nodesAt.mp hx
    exact ⟨hx, hs⟩
  · rintro ⟨hx, hs⟩
    have hat : x ∈ nodesAt xs s x.order.price := mem_nodesAt.mpr ⟨hx, hs, rfl⟩
    refine ⟨x.order.price, mem_prices.mpr ?_, hat⟩
    exact fun he => List.ne_nil_of_mem hat (level_ordersIn_eq_nil.mp he)

/-- What matching works through on a side, in order. -/
theorem map_nodesOf (h : Keeps b xs) (s : Side) :
    (nodesOf (b.side s).bindings).map ListNode.order = (ordersIn xs).byPriority s := by
  rw [nodesOf, h.bindings, List.flatMap_map, List.map_flatMap, byPriority]
  congr 1
  funext price
  exact map_nodesAt xs s price

theorem map_reached (h : Keeps b xs) (takerSide : Side) (limit : Int64) :
    (reached takerSide limit (b.side takerSide.opposite).bindings).map ListNode.order =
      (ordersIn xs).makers takerSide limit := by
  rw [makers, ← h.map_nodesOf, List.filter_map]
  rfl

theorem tidy (h : Keeps b xs) (s : Side) : Tidy (b.side s).bindings where
  price := by
    intro pl hpl x hx
    rw [h.bindings] at hpl
    obtain ⟨price, -, rfl⟩ := List.mem_map.mp hpl
    exact (mem_nodesAt.mp hx).2.2
  nonempty := by
    rintro ⟨price, level⟩ hpl
    rw [← OrderedMap.find?_eq_some_iff, h.level] at hpl
    exact hpl.2
  ids := by
    -- levels with different prices share no node
    have hinj : ∀ {x y : ListNode}, x ∈ xs → y ∈ xs → x.order.id = y.order.id → x = y :=
      fun hx hy he => eq_of_id h.ids hx hy he
    rw [idsOf, nodesOf, h.bindings, List.flatMap_map, List.map_flatMap, List.nodup_flatMap]
    constructor
    · intro price _
      exact h.ids.sublist (List.filter_sublist.map _)
    · refine (prices_sorted (ordersIn xs) s).imp ?_
      intro p p' hbetter
      refine List.disjoint_left.mpr ?_
      intro id hid hid'
      obtain ⟨x, hx, rfl⟩ := List.mem_map.mp hid
      obtain ⟨y, hy, he⟩ := List.mem_map.mp hid'
      obtain ⟨hx, -, hp⟩ := mem_nodesAt.mp hx
      obtain ⟨hy, -, hp'⟩ := mem_nodesAt.mp hy
      obtain rfl := hinj hy hx he
      rw [← hp, ← hp', (strictWeakBetter s).irrefl] at hbetter
      cases hbetter

/-- The index finds a node by its id. -/
theorem index_eq (h : Keeps b xs) (id : UInt64) :
    b.orderIndex_.find? id = (xs.find? fun x => x.order.id = id).map ListNode.location := by
  cases hfind : xs.find? fun x => x.order.id = id with
  | none =>
    cases hloc : b.orderIndex_.find? id with
    | none => rfl
    | some loc =>
      obtain ⟨x, hx, hid, -⟩ := (h.index id loc).mp hloc
      rw [List.find?_eq_none] at hfind
      exact absurd hid (by simpa using hfind x hx)
  | some x =>
    have hid := List.find?_some hfind
    exact (h.index id _).mpr ⟨x, List.mem_of_find?_eq_some hfind, by simpa using hid, rfl⟩

theorem contains_eq (h : Keeps b xs) (id : UInt64) :
    b.orderIndex_.contains id = ((ordersIn xs).getOrder id).isSome := by
  rw [OrderedMap.contains, h.index_eq, getOrder_ordersIn, Option.isSome_map, Option.isSome_map]

end Keeps

/-! ## Operations -/

section Sides

variable {L : Side → Type}

@[simp] theorem Book.side_setSide_self (b : Book L) (s : Side) (levels : L s) :
    (b.setSide s levels).side s = levels := by
  cases s <;> rfl

theorem Book.side_setSide_of_ne (b : Book L) {s s' : Side} (h : s' ≠ s) (levels : L s) :
    (b.setSide s levels).side s' = b.side s' := by
  cases s <;> cases s' <;> first | rfl | exact absurd rfl h

@[simp] theorem Book.side_with (b : Book L) (index : OrderIndex) (n : Nat) (s : Side) :
    ({ b with orderIndex_ := index, nextNode := n } : Book L).side s = b.side s := by
  cases s <;> rfl

theorem Book.symbol_setSide (b : Book L) (s : Side) (levels : L s) :
    (b.setSide s levels).symbol_ = b.symbol_ := by
  cases s <;> rfl

theorem Book.nextNode_setSide (b : Book L) (s : Side) (levels : L s) :
    (b.setSide s levels).nextNode = b.nextNode := by
  cases s <;> rfl

variable [∀ s, Levels (L s)]

/-- A side with the node of an iterator taken out of its level. -/
def takenOut {L : Type} [Levels L] (levels : L) (r : Levels.Ref L) (it : Nat) (price : Int64) : L :=
  let level := Book.eraseNode it (Levels.value levels r)
  if level = [] then Levels.remove (Levels.setValue levels r level) price
  else Levels.setValue levels r level

theorem Book.cancelOrder_of_locate {b : Book L} {id : UInt64} {loc : OrderLocation}
    {r : Levels.Ref (L loc.side)} (hindex : b.orderIndex_.find? id = some loc)
    (hlocate : Levels.locate (b.side loc.side) loc.price = .ok (some r)) :
    b.cancelOrder id = .ok (true,
      { b.setSide loc.side (takenOut (b.side loc.side) r loc.it loc.price) with
        orderIndex_ := b.orderIndex_.erase id }) := by
  rw [Book.cancelOrder, hindex]
  change ((Levels.locate (b.side loc.side) loc.price).bind _) = _
  rw [hlocate]
  rfl

theorem Book.matchOrders_eq {b : Book L} {takerSide : Side} {limit remaining : Int64}
    {takerId : UInt64} {r : List Fill × Int64 × L takerSide.opposite × OrderIndex}
    (hr : matchLevels takerSide limit takerId (Levels.size (b.side takerSide.opposite) + 1)
      remaining (b.side takerSide.opposite) b.orderIndex_ = r) :
    b.matchOrders takerSide limit remaining takerId =
      (r.1, r.2.1, { b.setSide takerSide.opposite r.2.2.1 with orderIndex_ := r.2.2.2 }) := by
  rw [Book.matchOrders, hr]

/-- A side with a level at a price. -/
def withLevel {L : Type} [Levels L] (levels : L) (price : Int64) (coins : Coins) : L :=
  if (Levels.find levels price).isSome then levels else Levels.insert levels price coins

theorem Book.addResting_of_find {b : Book L} {o : Order} {coins : Coins}
    {r : Levels.Ref (L o.side)}
    (hfind : Levels.find (withLevel (b.side o.side) o.price coins) o.price = some r) :
    b.addResting o coins =
      { b.setSide o.side (Levels.setValue (withLevel (b.side o.side) o.price coins) r
          (Levels.value (withLevel (b.side o.side) o.price coins) r ++
            [{ it := b.nextNode, order := o }])) with
        orderIndex_ := b.orderIndex_.insert o.id
          { side := o.side, price := o.price, it := b.nextNode }
        nextNode := b.nextNode + 1 } := by
  unfold withLevel at hfind ⊢
  unfold Book.addResting
  cases hold : Levels.find (b.side o.side) o.price with
  | none =>
    rw [hold, Option.isSome_none, if_neg Bool.false_ne_true] at hfind
    simp only [hold, hfind, Option.isSome_none, Bool.false_eq_true, if_false]
  | some r' =>
    rw [hold, Option.isSome_some, if_pos rfl, hold] at hfind
    obtain rfl := Option.some.inj hfind
    simp only [hold, Option.isSome_some, if_true]

end Sides

/-- Writing a level that exists, and dropping it if it is empty. -/
theorem find?_putLevel {s : Side} {m : MapLevels s} {price : Int64} {old : Level}
    (hold : m.find? price = some old) (level : Level) (price' : Int64) (level' : Level) :
    (if level = [] then (m.modify price fun _ => level).erase price
      else m.modify price fun _ => level).find? price' = some level' ↔
      if price' = price then level' = level ∧ level' ≠ [] else m.find? price' = some level' := by
  by_cases hp : price' = price
  · subst hp
    rw [if_pos rfl]
    split
    · next hempty =>
      rw [OrderedMap.find?_erase_self, hempty]
      exact iff_of_false (by simp) (fun h => h.2 h.1)
    · next hne =>
      rw [OrderedMap.find?_modify_self, hold, Option.map_some, Option.some.injEq, eq_comm]
      exact ⟨fun h => ⟨h, h ▸ hne⟩, And.left⟩
  · rw [if_neg hp]
    split
    · rw [OrderedMap.find?_erase_of_ne _ (Ne.symm hp),
        OrderedMap.find?_modify_of_ne _ _ (Ne.symm hp)]
    · rw [OrderedMap.find?_modify_of_ne _ _ (Ne.symm hp)]

theorem eraseNode_eq_filter {it : Nat} {xs : List ListNode} (h : (xs.map ListNode.it).Nodup) :
    Book.eraseNode it xs = xs.filter fun x => x.it ≠ it := by
  induction xs with
  | nil => rfl
  | cons x xs ih =>
    obtain ⟨hnot, hnodup⟩ := List.nodup_cons.mp h
    by_cases hx : x.it = it
    · have hall : xs.filter (fun x => x.it ≠ it) = xs := by
        rw [List.filter_eq_self]
        intro y hy
        refine decide_eq_true ?_
        rintro he
        exact hnot (List.mem_map.mpr ⟨y, hy, he.trans hx.symm⟩)
      rw [Book.eraseNode, List.eraseP_cons, List.filter_cons, hall]
      simp [hx]
    · rw [Book.eraseNode, List.eraseP_cons, List.filter_cons, ← ih hnodup]
      simp [hx, Book.eraseNode]

/-- All nodes but those with an id. -/
def withoutId (xs : List ListNode) (id : UInt64) : List ListNode :=
  xs.filter fun x => x.order.id ≠ id

theorem ordersIn_withoutId (xs : List ListNode) (id : UInt64) :
    ordersIn (withoutId xs id) = (ordersIn xs).without id := by
  rw [without, ordersIn, ordersIn, List.filter_map]
  rfl

theorem withoutId_of_not_mem {xs : List ListNode} {id : UInt64} (h : id ∉ idsOf xs) :
    withoutId xs id = xs := by
  rw [withoutId, List.filter_eq_self]
  intro x hx
  refine decide_eq_true ?_
  rintro rfl
  exact h (List.mem_map_of_mem hx)

theorem nodesAt_withoutId (xs : List ListNode) (id : UInt64) (s : Side) (price : Int64) :
    nodesAt (withoutId xs id) s price = withoutId (nodesAt xs s price) id := by
  rw [nodesAt, withoutId, List.filter_comm]
  rfl

namespace HasLevels

variable {b : MapOrderBook} {xs : List ListNode}

theorem of_empty (hside : ∀ s price, (b.side s).find? price = none) : HasLevels b [] := by
  intro s price level
  rw [hside]
  refine iff_of_false (by simp) ?_
  rintro ⟨rfl, hne⟩
  exact hne rfl

/-- A book with one side and the index replaced. -/
theorem of_setSide {s : Side} {m : MapLevels s} {index : OrderIndex} {n : Nat}
    (hself : ∀ price level, m.find? price = some level ↔ level = nodesAt xs s price ∧ level ≠ [])
    (hother : ∀ s' ≠ s, ∀ price level,
      (b.side s').find? price = some level ↔ level = nodesAt xs s' price ∧ level ≠ []) :
    HasLevels { b.setSide s m with orderIndex_ := index, nextNode := n } xs := by
  intro s' price level
  rw [Book.side_with]
  by_cases hs : s' = s
  · subst hs
    rw [Book.side_setSide_self]
    exact hself price level
  · rw [Book.side_setSide_of_ne b hs]
    exact hother s' hs price level

/-- A level is there after `withLevel`, empty if it is new, and the other levels are as before. -/
theorem find?_withLevel (h : HasLevels b xs) (s : Side) (price : Int64) (coins : Coins)
    (p : Int64) :
    OrderedMap.find? (withLevel (b.side s) price coins) p =
      if p = price then some (nodesAt xs s price) else (b.side s).find? p := by
  have hlevel : withLevel (b.side s) price coins =
      if (b.side s).contains price then b.side s else (b.side s).insert price [] := by
    change (if (if (b.side s).contains price then some price else none).isSome then _ else _) = _
    cases (b.side s).contains price <;> rfl
  have hvalue := h.value_eq s price
  cases hfind : (b.side s).find? price with
  | some level =>
    rw [hfind] at hvalue
    rw [OrderedMap.contains, hfind, Option.isSome_some, if_pos rfl] at hlevel
    rw [hlevel]
    split
    · next hp => rw [hp, hfind, ← hvalue]; rfl
    · rfl
  | none =>
    rw [hfind] at hvalue
    rw [OrderedMap.contains, hfind, Option.isSome_none, if_neg Bool.false_ne_true] at hlevel
    rw [hlevel]
    split
    · next hp => rw [hp, OrderedMap.find?_insert_self, ← hvalue]; rfl
    · next hp => rw [OrderedMap.find?_insert_of_ne _ _ (Ne.symm hp)]

/-- An order goes to the end of its level and of the list, and the index finds it by its id. -/
theorem addResting (h : HasLevels b xs) (o : Order) (coins : Coins) :
    HasLevels (b.addResting o coins) (xs ++ [{ it := b.nextNode, order := o }]) ∧
      (b.addResting o coins).orderIndex_ = b.orderIndex_.insert o.id
        { side := o.side, price := o.price, it := b.nextNode } ∧
      (b.addResting o coins).nextNode = b.nextNode + 1 := by
  have hm := h.find?_withLevel o.side o.price coins
  generalize hwith : withLevel (b.side o.side) o.price coins = m at hm
  have hself : m.find? o.price = some (nodesAt xs o.side o.price) := by rw [hm, if_pos rfl]
  have hbook : b.addResting o coins =
      { b.setSide o.side (m.modify o.price fun _ =>
          nodesAt xs o.side o.price ++ [{ it := b.nextNode, order := o }]) with
        orderIndex_ := b.orderIndex_.insert o.id
          { side := o.side, price := o.price, it := b.nextNode }
        nextNode := b.nextNode + 1 } := by
    have hfound : Levels.find m o.price = some o.price := by
      change (if m.contains o.price then some o.price else none) = _
      rw [OrderedMap.contains, hself]
      rfl
    have hvalue : Levels.value m o.price = nodesAt xs o.side o.price := by
      change (m.find? o.price).getD [] = _
      rw [hself]
      rfl
    rw [← hwith] at hfound
    rw [Book.addResting_of_find hfound, hwith, hvalue]
    rfl
  rw [hbook]
  refine ⟨of_setSide ?_ ?_, rfl, rfl⟩
  · intro price level
    by_cases hp : price = o.price
    · subst hp
      rw [OrderedMap.find?_modify_self, hself, nodesAt_concat, if_pos ⟨rfl, rfl⟩, Option.map_some,
        Option.some.injEq, eq_comm]
      refine ⟨fun he => ⟨he, ?_⟩, And.left⟩
      rw [he]
      exact List.append_ne_nil_of_right_ne_nil _ (List.cons_ne_nil _ _)
    · rw [OrderedMap.find?_modify_of_ne _ _ (Ne.symm hp), hm, if_neg hp, nodesAt_concat,
        if_neg fun he => hp he.2.symm, List.append_nil]
      exact h _ _ _
  · intro s hs price level
    rw [nodesAt_concat, if_neg fun he => hs he.1.symm, List.append_nil]
    exact h _ _ _

end HasLevels

section Places

variable {xs : List ListNode} {n : Nat}

theorem nodup_places_concat (hplaces : (xs.map ListNode.it).Nodup) (hfresh : ∀ x ∈ xs, x.it < n)
    (o : Order) : ((xs ++ [({ it := n, order := o } : ListNode)]).map ListNode.it).Nodup := by
  rw [List.map_append]
  refine List.nodup_append.mpr ⟨hplaces, List.nodup_singleton _, ?_⟩
  rintro it hmem it' hit' rfl
  obtain ⟨x, hx, rfl⟩ := List.mem_map.mp hmem
  exact Nat.ne_of_lt (hfresh x hx) (List.mem_singleton.mp hit')

theorem fresh_concat (hfresh : ∀ x ∈ xs, x.it < n) (o : Order) :
    ∀ x ∈ xs ++ [({ it := n, order := o } : ListNode)], x.it < n + 1 := by
  intro x hx
  rcases List.mem_append.mp hx with hx | hx
  · exact Nat.lt_succ_of_lt (hfresh x hx)
  · rw [List.mem_singleton.mp hx]
    exact Nat.lt_succ_self _

end Places

namespace Keeps

variable {b : MapOrderBook} {xs : List ListNode}

theorem mem_idsOf (h : Keeps b xs) {id : UInt64} : id ∈ idsOf xs ↔ (b.orderIndex_.find? id).isSome := by
  rw [Option.isSome_iff_exists]
  constructor
  · intro hid
    obtain ⟨x, hx, rfl⟩ := List.mem_map.mp hid
    exact ⟨x.location, (h.index _ _).mpr ⟨x, hx, rfl, rfl⟩⟩
  · rintro ⟨loc, hloc⟩
    obtain ⟨x, hx, rfl, -⟩ := (h.index _ _).mp hloc
    exact List.mem_map_of_mem hx

theorem of_empty (hside : ∀ s price, (b.side s).find? price = none)
    (hindex : ∀ id, b.orderIndex_.find? id = none) : Keeps b [] where
  level := HasLevels.of_empty hside
  index := fun id loc => iff_of_false (by simp [hindex]) (by simp)
  ids := List.nodup_nil
  places := List.nodup_nil
  fresh := fun x hx => absurd hx List.not_mem_nil

theorem new (symbol : Bytes) : Keeps (Book.new symbol) [] :=
  of_empty (fun s _ => by cases s <;> rfl) fun _ => rfl

theorem reset (b : MapOrderBook) (symbol : Bytes) : Keeps (b.reset symbol) [] :=
  of_empty (fun s _ => by cases s <;> rfl) fun _ => rfl

/-- A book with one side and the index replaced. -/
theorem of_setSide {s : Side} {m : MapLevels s} {index : OrderIndex} {n : Nat}
    (hself : ∀ price level, m.find? price = some level ↔ level = nodesAt xs s price ∧ level ≠ [])
    (hother : ∀ s' ≠ s, ∀ price level,
      (b.side s').find? price = some level ↔ level = nodesAt xs s' price ∧ level ≠ [])
    (hindex : ∀ id loc,
      index.find? id = some loc ↔ ∃ x ∈ xs, x.order.id = id ∧ x.location = loc)
    (hids : (idsOf xs).Nodup) (hplaces : (xs.map ListNode.it).Nodup) (hfresh : ∀ x ∈ xs, x.it < n) :
    Keeps { b.setSide s m with orderIndex_ := index, nextNode := n } xs where
  level := HasLevels.of_setSide hself hother
  index := hindex
  ids := hids
  places := hplaces
  fresh := hfresh

/-- In its level, the iterator and the id single out the same node. -/
theorem eraseNode_nodesAt (h : Keeps b xs) {x : ListNode} (hx : x ∈ xs) :
    Book.eraseNode x.it (nodesAt xs x.order.side x.order.price) =
      nodesAt (withoutId xs x.order.id) x.order.side x.order.price := by
  have hplaces : ((nodesAt xs x.order.side x.order.price).map ListNode.it).Nodup :=
    h.places.sublist (List.filter_sublist.map _)
  rw [eraseNode_eq_filter hplaces, nodesAt_withoutId, withoutId]
  refine List.filter_congr ?_
  intro y hy
  have hy := (mem_nodesAt.mp hy).1
  refine decide_eq_decide.mpr (not_congr ⟨?_, ?_⟩)
  · intro he
    rw [List.inj_on_of_nodup_map h.places hy hx he]
  · intro he
    rw [eq_of_id h.ids hy hx he]

/-- The other levels do not have the node. -/
theorem nodesAt_withoutId_of_ne (h : Keeps b xs) {x : ListNode} (hx : x ∈ xs) {s : Side}
    {price : Int64} (hne : ¬ (x.order.side = s ∧ x.order.price = price)) :
    nodesAt (withoutId xs x.order.id) s price = nodesAt xs s price := by
  rw [nodesAt_withoutId, withoutId_of_not_mem]
  intro hmem
  obtain ⟨y, hy, he⟩ := List.mem_map.mp hmem
  obtain ⟨hy, hat⟩ := mem_nodesAt.mp hy
  rw [eq_of_id h.ids hy hx he] at hat
  exact hne hat

theorem find?_erase_index (h : Keeps b xs) (id id' : UInt64) (loc : OrderLocation) :
    (b.orderIndex_.erase id).find? id' = some loc ↔
      ∃ x ∈ withoutId xs id, x.order.id = id' ∧ x.location = loc := by
  by_cases hid : id = id'
  · subst hid
    rw [OrderedMap.find?_erase_self]
    refine iff_of_false (by simp) ?_
    rintro ⟨y, hy, he, -⟩
    exact of_decide_eq_true (List.mem_filter.mp hy).2 he
  · rw [OrderedMap.find?_erase_of_ne _ hid, h.index]
    refine exists_congr ?_
    intro y
    rw [withoutId, List.mem_filter, decide_eq_true_eq, and_assoc]
    refine and_congr_right ?_
    intro _
    rw [iff_and_self]
    rintro ⟨rfl, -⟩
    exact Ne.symm hid

/-- Dropping a node from its level and from the index. -/
theorem cancelled (h : Keeps b xs) {x : ListNode} (hx : x ∈ xs) :
    ∃ b', b.cancelOrder x.order.id = .ok (true, b') ∧ Keeps b' (withoutId xs x.order.id) := by
  have hindex : b.orderIndex_.find? x.order.id = some x.location :=
    (h.index _ _).mpr ⟨x, hx, rfl, rfl⟩
  have hat : x ∈ nodesAt xs x.order.side x.order.price := mem_nodesAt.mpr ⟨hx, rfl, rfl⟩
  have hfind : (b.side x.order.side).find? x.order.price =
      some (nodesAt xs x.order.side x.order.price) :=
    (h.level _ _ _).mpr ⟨rfl, List.ne_nil_of_mem hat⟩
  have hlocate : Levels.locate (b.side x.order.side) x.order.price = .ok (some x.order.price) := by
    change (if (b.side x.order.side).contains x.order.price then _ else _) = _
    rw [OrderedMap.contains, hfind]
    rfl
  have hvalue : Levels.value (b.side x.order.side) x.order.price =
      nodesAt xs x.order.side x.order.price := h.hasLevels.value_eq _ _
  refine ⟨_, Book.cancelOrder_of_locate hindex hlocate, ?_⟩
  refine of_setSide ?_ ?_ (h.find?_erase_index _) ?_ ?_ ?_
  · intro price level
    refine (find?_putLevel hfind _ price level).trans ?_
    change (if _ then level = Book.eraseNode x.it (Levels.value (b.side x.order.side) _) ∧ _
      else _) ↔ _
    rw [hvalue, h.eraseNode_nodesAt hx]
    split
    · next hp =>
      rw [hp]
      rfl
    · next hp =>
      rw [h.level, h.nodesAt_withoutId_of_ne hx fun he => hp he.2.symm]
      rfl
  · intro s hs price level
    rw [h.level, h.nodesAt_withoutId_of_ne hx fun he => hs he.1.symm]
  · exact h.ids.sublist (List.filter_sublist.map _)
  · exact h.places.sublist (List.filter_sublist.map _)
  · intro y hy
    rw [Book.nextNode_setSide]
    exact h.fresh y (List.mem_filter.mp hy).1

theorem cancelOrder (h : Keeps b xs) (id : UInt64) :
    ∃ b', b.cancelOrder id = .ok (((ordersIn xs).cancelOrder id).1, b') ∧
      Keeps b' (withoutId xs id) := by
  rw [Resting.cancelOrder, ← h.contains_eq, OrderedMap.contains]
  by_cases hid : id ∈ idsOf xs
  · obtain ⟨x, hx, rfl⟩ := List.mem_map.mp hid
    rw [h.mem_idsOf.mp hid]
    exact h.cancelled hx
  · have hnone : b.orderIndex_.find? id = none := by
      rw [h.mem_idsOf] at hid
      simpa using hid
    refine ⟨b, ?_, ?_⟩
    · rw [Book.cancelOrder, hnone]
      rfl
    · rw [withoutId_of_not_mem hid]
      exact h

/-- A new order goes to the end of the list. -/
theorem addResting (h : Keeps b xs) {o : Order} (hid : o.id ∉ idsOf xs) (coins : Coins) :
    Keeps (b.addResting o coins) (xs ++ [{ it := b.nextNode, order := o }]) := by
  obtain ⟨hlevels, hindex, hnext⟩ := h.hasLevels.addResting o coins
  refine ⟨hlevels, ?_, ?_, ?_, ?_⟩
  · intro id loc
    rw [hindex]
    simp only [List.mem_append, List.mem_singleton, or_and_right, exists_or, exists_eq_left]
    by_cases hid' : o.id = id
    · subst hid'
      rw [OrderedMap.find?_insert_self, Option.some.injEq]
      refine ⟨fun he => Or.inr ⟨rfl, he⟩, ?_⟩
      rintro (⟨x, hx, he, -⟩ | ⟨-, he⟩)
      · exact absurd (List.mem_map.mpr ⟨x, hx, he⟩) hid
      · exact he
    · rw [OrderedMap.find?_insert_of_ne _ _ hid', h.index]
      exact ⟨Or.inl, fun he => he.resolve_right fun he => hid' he.1⟩
  · rw [idsOf, List.map_append]
    refine List.nodup_append.mpr ⟨h.ids, List.nodup_singleton _, ?_⟩
    rintro id hmem id' hid' rfl
    rw [List.mem_singleton.mp hid'] at hmem
    exact hid hmem
  · exact nodup_places_concat h.places h.fresh o
  · rw [hnext]
    exact fresh_concat h.fresh o

/-! ### Matching -/

theorem nodesAt_settled (fills : List Fill) (xs : List ListNode) (s : Side) (price : Int64) :
    nodesAt (xs.filterMap (ListNode.settle fills)) s price =
      (nodesAt xs s price).filterMap (ListNode.settle fills) := by
  apply Resting.filter_filterMap_comm
  intro x y hx
  have hloc := (ListNode.settle_same hx).2.2
  simp only [ListNode.location, OrderLocation.mk.injEq] at hloc
  rw [hloc.1, hloc.2.1]

theorem map_settled_sublist {β : Type} (fills : List Fill) (f : ListNode → β)
    (hf : ∀ x y : ListNode, x.settle fills = some y → f y = f x) (xs : List ListNode) :
    ((xs.filterMap (ListNode.settle fills)).map f).Sublist (xs.map f) := by
  induction xs with
  | nil => exact List.Sublist.slnil
  | cons x xs ih =>
    cases hx : x.settle fills with
    | none =>
      rw [List.filterMap_cons_none hx]
      exact ih.cons _
    | some y =>
      rw [List.filterMap_cons_some hx, List.map_cons, List.map_cons, hf x y hx]
      exact ih.cons_cons _

theorem ordersIn_settled (fills : List Fill) (xs : List ListNode) :
    ordersIn (xs.filterMap (ListNode.settle fills)) =
      (ordersIn xs).filterMap (Resting.settle fills) := by
  rw [ordersIn, ordersIn, List.map_filterMap, List.filterMap_map]
  refine List.filterMap_congr ?_
  intro x _
  rw [ListNode.settle, Option.map_map]
  exact Option.map_id'

section Sweep

variable {takerSide : Side} {limit remaining : Int64} {takerId : UInt64}
  {r : List Fill × Int64 × MapLevels takerSide.opposite × OrderIndex}

/-- The fills name orders of the other side only. -/
theorem settle_of_side_ne (h : Keeps b xs)
    (hswept : Swept takerSide limit takerId remaining (b.side takerSide.opposite).bindings
      b.orderIndex_ r) {x : ListNode} (hx : x ∈ xs) (hs : x.order.side ≠ takerSide.opposite) :
    x.settle r.1 = some x := by
  refine ListNode.settle_of_untouched ?_
  intro f hf he
  rw [hswept.fills] at hf
  obtain ⟨y, hy, hid⟩ := List.mem_map.mp (mem_idsOf_of_walk hf)
  obtain ⟨hy, hside⟩ := h.mem_nodesOf.mp (List.mem_filter.mp hy).1
  rw [eq_of_id h.ids hy hx (hid.trans he)] at hside
  exact hs hside

theorem level_swept (h : Keeps b xs)
    (hswept : Swept takerSide limit takerId remaining (b.side takerSide.opposite).bindings
      b.orderIndex_ r) (price : Int64) (level : Level) :
    r.2.2.1.find? price = some level ↔
      level = nodesAt (xs.filterMap (ListNode.settle r.1)) takerSide.opposite price ∧
        level ≠ [] := by
  rw [OrderedMap.find?_eq_some_iff, hswept.levels, List.mem_filterMap, nodesAt_settled]
  constructor
  · rintro ⟨⟨price', level'⟩, hmem, hsettle⟩
    rw [← OrderedMap.find?_eq_some_iff, h.level] at hmem
    obtain ⟨rfl, -⟩ := hmem
    unfold settleLevel at hsettle
    split at hsettle
    · cases hsettle
    · next hne =>
      obtain ⟨rfl, rfl⟩ := Prod.mk.inj (Option.some.inj hsettle)
      exact ⟨rfl, hne⟩
  · rintro ⟨rfl, hne⟩
    refine ⟨(price, nodesAt xs takerSide.opposite price), ?_, if_neg hne⟩
    rw [← OrderedMap.find?_eq_some_iff, h.level]
    refine ⟨rfl, ?_⟩
    intro hnil
    rw [hnil] at hne
    exact hne rfl

theorem nodesAt_settled_of_ne (h : Keeps b xs)
    (hswept : Swept takerSide limit takerId remaining (b.side takerSide.opposite).bindings
      b.orderIndex_ r) {s : Side} (hs : s ≠ takerSide.opposite) (price : Int64) :
    nodesAt (xs.filterMap (ListNode.settle r.1)) s price = nodesAt xs s price := by
  rw [nodesAt_settled, List.filterMap_congr (g := some), List.filterMap_some]
  intro x hx
  obtain ⟨hx, hside, -⟩ := mem_nodesAt.mp hx
  exact h.settle_of_side_ne hswept hx (hside.trans_ne hs)

theorem index_swept (h : Keeps b xs)
    (hswept : Swept takerSide limit takerId remaining (b.side takerSide.opposite).bindings
      b.orderIndex_ r) (id : UInt64) (loc : OrderLocation) :
    r.2.2.2.find? id = some loc ↔
      ∃ x ∈ xs.filterMap (ListNode.settle r.1), x.order.id = id ∧ x.location = loc := by
  rw [hswept.index, h.index]
  constructor
  · rintro ⟨⟨x, hx, hid, hloc⟩, hkept⟩
    have hsome : x.settle r.1 ≠ none := by
      by_cases hs : x.order.side = takerSide.opposite
      · exact hkept x (h.mem_nodesOf.mpr ⟨hx, hs⟩) hid
      · rw [h.settle_of_side_ne hswept hx hs]
        exact Option.some_ne_none x
    obtain ⟨y, hy⟩ := Option.ne_none_iff_exists'.mp hsome
    obtain ⟨-, hid', hloc'⟩ := ListNode.settle_same hy
    exact ⟨y, List.mem_filterMap.mpr ⟨x, hx, hy⟩, hid'.trans hid, hloc'.trans hloc⟩
  · rintro ⟨y, hy, hid, hloc⟩
    obtain ⟨x, hx, hxy⟩ := List.mem_filterMap.mp hy
    obtain ⟨-, hid', hloc'⟩ := ListNode.settle_same hxy
    refine ⟨⟨x, hx, hid'.symm.trans hid, hloc'.symm.trans hloc⟩, ?_⟩
    intro x' hx' hid''
    have hsame : x' = x :=
      eq_of_id h.ids (h.mem_nodesOf.mp hx').1 hx (hid''.trans (hid.symm.trans hid'))
    rw [hsame, hxy]
    exact Option.some_ne_none y

end Sweep

/-- Matching fills the orders within the limit as the flat walk does, and settles all nodes. -/
theorem matchOrders (h : Keeps b xs) (takerSide : Side) (limit remaining : Int64)
    (takerId : UInt64) :
    ∃ b', b.matchOrders takerSide limit remaining takerId =
        ((walkMakers takerSide takerId remaining ((ordersIn xs).makers takerSide limit)).1,
         (walkMakers takerSide takerId remaining ((ordersIn xs).makers takerSide limit)).2, b') ∧
      Keeps b' (xs.filterMap (ListNode.settle
        (walkMakers takerSide takerId remaining ((ordersIn xs).makers takerSide limit)).1)) := by
  have hswept := matchLevels_swept limit takerId _
    (b.side takerSide.opposite) rfl (h.tidy takerSide.opposite) (Nat.lt_succ_self _) remaining
    b.orderIndex_
  generalize hr : matchLevels takerSide limit takerId _ remaining (b.side takerSide.opposite)
    b.orderIndex_ = r at hswept
  have hfills := hswept.fills
  have hremains := hswept.remains
  rw [h.map_reached] at hfills hremains
  rw [← hfills, ← hremains]
  refine ⟨_, Book.matchOrders_eq hr, ?_⟩
  refine of_setSide (h.level_swept hswept) ?_ (h.index_swept hswept) ?_ ?_ ?_
  · intro s hs price level
    rw [h.level, h.nodesAt_settled_of_ne hswept hs]
  · exact h.ids.sublist (map_settled_sublist _ _ (fun x y hy => (ListNode.settle_same hy).2.1) xs)
  · exact h.places.sublist (map_settled_sublist _ _ (fun x y hy => (ListNode.settle_same hy).1) xs)
  · intro y hy
    obtain ⟨x, hx, hxy⟩ := List.mem_filterMap.mp hy
    rw [(ListNode.settle_same hxy).1, Book.nextNode_setSide]
    exact h.fresh x hx

theorem not_mem_idsOf_settled {fills : List Fill} {id : UInt64} (h : id ∉ idsOf xs) :
    id ∉ idsOf (xs.filterMap (ListNode.settle fills)) := fun hmem =>
  h ((map_settled_sublist fills _ (fun _ _ hy => (ListNode.settle_same hy).2.1) xs).subset hmem)

theorem newOrder (h : Keeps b xs) (id : UInt64) (side : Side) (price quantity : Int64)
    (sequence : UInt64) (coins : Coins) :
    ∃ b' xs', b.newOrder id side price quantity sequence coins =
        (((ordersIn xs).newOrder id side price quantity sequence).1, b') ∧
      Keeps b' xs' ∧ ordersIn xs' = ((ordersIn xs).newOrder id side price quantity sequence).2 := by
  unfold Book.newOrder Resting.newOrder
  rw [h.contains_eq]
  by_cases hq : quantity ≤ 0
  · rw [if_pos hq, if_pos (Or.inl hq)]
    exact ⟨b, xs, rfl, h, rfl⟩
  by_cases hid : ((ordersIn xs).getOrder id).isSome = true
  · rw [if_neg hq, if_pos hid, if_pos (Or.inr hid)]
    exact ⟨b, xs, rfl, h, rfl⟩
  rw [if_neg hq, if_neg hid, if_neg (not_or.mpr ⟨hq, hid⟩)]
  obtain ⟨b', hmatch, hb'⟩ := h.matchOrders side price quantity id
  rw [hmatch]
  have hnew : id ∉ idsOf xs := by
    rw [h.mem_idsOf, ← OrderedMap.contains, h.contains_eq]
    exact hid
  dsimp only
  split
  · refine ⟨_, _, rfl, hb'.addResting (not_mem_idsOf_settled hnew) coins, ?_⟩
    rw [ordersIn, List.map_append, ← ordersIn, ordersIn_settled]
    rfl
  · refine ⟨b', _, rfl, hb', ?_⟩
    rw [ordersIn_settled, List.append_nil]

theorem modifyOrder (h : Keeps b xs) (id : UInt64) (newPrice newQuantity : Int64)
    (newSequence : UInt64) (coins : Coins) :
    ∃ b' xs', b.modifyOrder id newPrice newQuantity newSequence coins =
        .ok (((ordersIn xs).modifyOrder id newPrice newQuantity newSequence).1, b') ∧
      Keeps b' xs' ∧
      ordersIn xs' = ((ordersIn xs).modifyOrder id newPrice newQuantity newSequence).2 := by
  unfold Book.modifyOrder Resting.modifyOrder
  rw [h.index_eq, getOrder_ordersIn]
  cases hfind : xs.find? fun x => x.order.id = id with
  | none => exact ⟨b, xs, rfl, h, rfl⟩
  | some x =>
    obtain ⟨b', hcancel, hb'⟩ := h.cancelOrder id
    rw [hcancel]
    dsimp only [Option.map_some]
    change ∃ b'' xs', (if newQuantity > 0 then _ else _) = _ ∧ _
    split
    · refine ⟨_, _, rfl, hb'.addResting ?_ coins, ?_⟩
      · intro hmem
        obtain ⟨y, hy, he⟩ := List.mem_map.mp hmem
        exact of_decide_eq_true (List.mem_filter.mp hy).2 he
      · rw [ordersIn, List.map_append, ← ordersIn, ordersIn_withoutId]
        rfl
    · refine ⟨b', _, rfl, hb', ?_⟩
      rw [ordersIn_withoutId, List.append_nil]

end Keeps

end NexusLOB.Lob
