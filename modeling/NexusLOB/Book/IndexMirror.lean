import NexusLOB.Book.Conservation

/-!
# The order index mirrors the levels

A `MapOrderBook` keeps every resting order twice: as a node of the list of its price level, and as
an entry of `orderIndex_` with the side, the price and the iterator of that node. `Mirrored` says
that the two agree, and that the levels hold nothing but sane orders. It is true after any sequence
of trading calls, makers removed in the middle of a sweep included, so no call follows an index
entry to a level or a node that is gone.
-/

namespace NexusLOB.Lob

open Collections Resting

/-- The list nodes of both sides. -/
def MapOrderBook.nodes (b : MapOrderBook) : List ListNode :=
  nodesOf b.bids_.bindings ++ nodesOf b.asks_.bindings

/-- The index knows exactly the nodes in the levels, and each node lies where it belongs. -/
structure MapOrderBook.Mirrored (b : MapOrderBook) : Prop where
  nonempty : ∀ s, ∀ pl ∈ (b.side s).bindings, pl.2 ≠ []
  placed : ∀ s, ∀ pl ∈ (b.side s).bindings, ∀ x ∈ pl.2, x.order.side = s ∧ x.order.price = pl.1
  positive : ∀ x ∈ MapOrderBook.nodes b, 0 < x.order.quantity
  ids : ((MapOrderBook.nodes b).map fun x => x.order.id).Nodup
  places : ((MapOrderBook.nodes b).map ListNode.it).Nodup
  index : ∀ id loc, b.orderIndex_.find? id = some loc ↔
    ∃ x ∈ MapOrderBook.nodes b, x.order.id = id ∧
      loc = { side := x.order.side, price := x.order.price, it := x.it }

/-- Whatever the index says of an id, there is a level, and the iterator points to a node of it
that holds the order. -/
def MapOrderBook.Resolves (b : MapOrderBook) : Prop :=
  ∀ id loc, b.orderIndex_.find? id = some loc →
    ∃ level x, (b.side loc.side).find? loc.price = some level ∧ x ∈ level ∧ x.it = loc.it ∧
      x.order.id = id ∧ b.getOrder id = some x.order

namespace Keeps

variable {b : MapOrderBook} {xs : List ListNode}

theorem mem_nodes (h : Keeps b xs) {x : ListNode} : x ∈ MapOrderBook.nodes b ↔ x ∈ xs := by
  have hbuy : x ∈ nodesOf b.bids_.bindings ↔ x ∈ xs ∧ x.order.side = .buy :=
    h.mem_nodesOf (s := .buy)
  have hsell : x ∈ nodesOf b.asks_.bindings ↔ x ∈ xs ∧ x.order.side = .sell :=
    h.mem_nodesOf (s := .sell)
  rw [MapOrderBook.nodes, List.mem_append, hbuy, hsell, ← and_or_left]
  refine and_iff_left ?_
  cases x.order.side with
  | buy => exact Or.inl rfl
  | sell => exact Or.inr rfl

/-- No node is in two levels. -/
theorem nodup_nodes (h : Keeps b xs) : (MapOrderBook.nodes b).Nodup := by
  refine List.Nodup.append ((h.tidy .buy).ids.of_map _) ((h.tidy .sell).ids.of_map _) ?_
  intro x hbuy hsell
  have hb : x ∈ xs ∧ x.order.side = .buy := (h.mem_nodesOf (s := .buy)).mp hbuy
  have hs : x ∈ xs ∧ x.order.side = .sell := (h.mem_nodesOf (s := .sell)).mp hsell
  rw [hb.2] at hs
  cases hs.2

theorem mirrored (h : Keeps b xs) (hsane : (ordersIn xs).Sane) : MapOrderBook.Mirrored b where
  nonempty := fun s => (h.tidy s).nonempty
  placed := by
    rintro s ⟨price, level⟩ hpl x hx
    rw [← OrderedMap.find?_eq_some_iff, h.level] at hpl
    rw [hpl.1] at hx
    exact (mem_nodesAt.mp hx).2
  positive := by
    intro x hx
    rw [toInt_pos]
    exact hsane.pos x.order (List.mem_map_of_mem (h.mem_nodes.mp hx))
  ids := by
    refine h.nodup_nodes.map_on ?_
    intro x hx y hy he
    exact eq_of_id h.ids (h.mem_nodes.mp hx) (h.mem_nodes.mp hy) he
  places := by
    refine h.nodup_nodes.map_on ?_
    intro x hx y hy he
    exact List.inj_on_of_nodup_map h.places (h.mem_nodes.mp hx) (h.mem_nodes.mp hy) he
  index := by
    intro id loc
    rw [h.index]
    refine exists_congr fun x => ?_
    rw [h.mem_nodes, eq_comm (a := x.location)]
    rfl

theorem resolves (h : Keeps b xs) : MapOrderBook.Resolves b := by
  intro id loc hloc
  obtain ⟨x, hx, rfl, rfl⟩ := (h.index id loc).mp hloc
  have hat : x ∈ nodesAt xs x.order.side x.order.price := mem_nodesAt.mpr ⟨hx, rfl, rfl⟩
  refine ⟨_, x, (h.level _ _ _).mpr ⟨rfl, List.ne_nil_of_mem hat⟩, hat, rfl, rfl, ?_⟩
  rw [h.getOrder_eq, getOrder_ordersIn, find?_of_nodup_map (f := fun x : ListNode => x.order.id) h.ids hx]
  rfl

end Keeps

/-- **The order index mirrors the levels.** After any trading calls on a new book, none of which
meets a missing level, index and levels agree, and every lookup through the index finds its
order. -/
theorem order_index_mirrors_levels (symbol : Bytes) (calls : List Call)
    (hcalls : ∀ c ∈ calls, c.trades = true) :
    ∃ (answers : List Answer) (b : MapOrderBook),
      (Book.new symbol : MapOrderBook).run calls = .ok (answers, b) ∧
      MapOrderBook.Mirrored b ∧ MapOrderBook.Resolves b := by
  obtain ⟨b, xs, hrun, hkeeps, hxs⟩ :=
    (Keeps.new symbol).run (Resting.admitsAll_of_trades hcalls [])
  have hsane := sane_run hcalls
  rw [← show ordersIn xs = (Resting.run [] calls).2 from hxs] at hsane
  exact ⟨_, b, hrun, hkeeps.mirrored hsane, hkeeps.resolves⟩

/-- A sweep over two levels that empties one, a move to another price and a cancellation. -/
theorem order_index_mirrors_levels_sweep :
    ∃ (answers : List Answer) (b : MapOrderBook),
      (Book.new [] : MapOrderBook).run
        [.newOrder 1 .sell 100 5 1 [], .newOrder 2 .sell 101 5 2 [], .newOrder 3 .buy 101 7 3 [],
         .modifyOrder 2 102 4 4 [], .newOrder 4 .buy 90 1 5 [], .cancelOrder 4] = .ok (answers, b) ∧
      MapOrderBook.Mirrored b ∧ MapOrderBook.Resolves b :=
  order_index_mirrors_levels [] _ (by decide)

end NexusLOB.Lob
