import NexusLOB.Book.Engine
import NexusLOB.Book.Reference

/-!
# The matching loops

What the two loops of `match` do on a map, told by the flat walk: the fills are those of walking the
orders within the limit level by level, a maker that is used up leaves its level and the index, and
a level that is used up leaves the map.
-/

namespace NexusLOB.Lob

open Collections Resting

/-! ## Quantities -/

theorem min_eq_ite (remaining quantity : Int64) :
    (if quantity < remaining then quantity else remaining) = min remaining quantity := by
  change _ = if remaining ≤ quantity then remaining else quantity
  by_cases h : quantity < remaining
  · rw [if_pos h, if_neg (Int64.not_le.mpr h)]
  · rw [if_neg h, if_pos (Int64.not_lt.mp h)]

/-- A maker is used up when it is not larger than its fill; a larger one takes all that remains. -/
theorem min_cases {remaining : Int64} (hpos : remaining > 0) (quantity : Int64) :
    min remaining quantity = quantity ∧ quantity - min remaining quantity ≤ 0 ∨
      min remaining quantity = remaining ∧ remaining < quantity ∧
        ¬ quantity - min remaining quantity ≤ 0 := by
  rw [← min_eq_ite]
  by_cases h : remaining < quantity
  · refine Or.inr ?_
    rw [if_neg (Int64.not_lt.mpr (Int64.le_of_lt h))]
    refine ⟨rfl, h, ?_⟩
    rw [gt_iff_lt, Int64.lt_iff_toInt_lt] at hpos
    rw [Int64.lt_iff_toInt_lt] at h
    rw [Int64.le_iff_toInt_le, Int64.toInt_sub]
    have hlt := quantity.toInt_lt
    have hzero : (0 : Int64).toInt = 0 := rfl
    rw [hzero] at hpos ⊢
    rw [Int.bmod_eq_of_le (by omega) (by omega)]
    omega
  · refine Or.inl ?_
    have heq : (if quantity < remaining then quantity else remaining) = quantity := by
      split
      · rfl
      · next hn => exact Int64.le_antisymm (Int64.not_lt.mp hn) (Int64.not_lt.mp h)
    rw [heq, Int64.sub_self]
    exact ⟨rfl, Int64.le_refl 0⟩

/-! ## The inner loop -/

namespace ListNode

def location (x : ListNode) : OrderLocation :=
  { side := x.order.side, price := x.order.price, it := x.it }

/-- A list node after the fills. -/
def settle (fills : List Fill) (x : ListNode) : Option ListNode :=
  (Resting.settle fills x.order).map fun o => { x with order := o }

theorem settle_same {fills : List Fill} {x y : ListNode} (h : x.settle fills = some y) :
    y.it = x.it ∧ y.order.id = x.order.id ∧ y.location = x.location := by
  obtain ⟨o, ho, rfl⟩ := Option.map_eq_some_iff.mp h
  obtain ⟨hid, hside, hprice, -⟩ := Resting.settle_same ho
  refine ⟨rfl, hid, ?_⟩
  simp only [location, hside, hprice]

theorem settle_of_untouched {fills : List Fill} {x : ListNode}
    (h : ∀ f ∈ fills, f.makerOrderId ≠ x.order.id) : x.settle fills = some x := by
  rw [settle, Resting.settle_of_untouched h]
  rfl

@[simp] theorem settle_nil (x : ListNode) : x.settle [] = some x :=
  settle_of_untouched fun _ hf => absurd hf List.not_mem_nil

theorem settle_append_left {fills more : List Fill} {x : ListNode}
    (h : ∀ f ∈ more, f.makerOrderId ≠ x.order.id) : x.settle (fills ++ more) = x.settle fills := by
  rw [settle, Resting.settle_append_left h, settle]

theorem settle_append_right (fills : List Fill) {more : List Fill} {x : ListNode}
    (h : ∀ f ∈ fills, f.makerOrderId ≠ x.order.id) : x.settle (fills ++ more) = x.settle more := by
  rw [settle, Resting.settle_append_right fills h, settle]

end ListNode

/-- The ids of nodes. -/
def idsOf (xs : List ListNode) : List UInt64 := xs.map fun x => x.order.id

theorem filterMap_settle_of_untouched {fills : List Fill} {xs : List ListNode}
    (h : ∀ f ∈ fills, f.makerOrderId ∉ idsOf xs) :
    xs.filterMap (ListNode.settle fills) = xs := by
  rw [List.filterMap_congr (g := some), List.filterMap_some]
  intro x hx
  refine ListNode.settle_of_untouched ?_
  rintro f hf he
  exact h f hf (he ▸ List.mem_map_of_mem hx)

theorem mem_idsOf_of_walk {takerSide : Side} {takerId : UInt64} {remaining : Int64}
    {xs : List ListNode} {f : Fill}
    (hf : f ∈ (walkMakers takerSide takerId remaining (xs.map ListNode.order)).1) :
    f.makerOrderId ∈ idsOf xs := by
  obtain ⟨o, ho, he⟩ := mem_of_walk hf
  obtain ⟨x, hx, rfl⟩ := List.mem_map.mp ho
  rw [he]
  exact List.mem_map_of_mem hx

/-- The orders at a level are filled as the flat walk fills them: used up makers leave the level
and the index, and what is left of the level means that nothing of the taker remains. -/
structure Filled (takerSide : Side) (takerId : UInt64) (remaining : Int64) (xs : Level)
    (index₀ : OrderIndex) (r : List Fill × Int64 × Level × OrderIndex) : Prop where
  fills : r.1 = (walkMakers takerSide takerId remaining (xs.map ListNode.order)).1
  remains : r.2.1 = (walkMakers takerSide takerId remaining (xs.map ListNode.order)).2
  level : r.2.2.1 = xs.filterMap (ListNode.settle r.1)
  index : ∀ id loc, r.2.2.2.find? id = some loc ↔
    index₀.find? id = some loc ∧ ∀ x ∈ xs, x.order.id = id → x.settle r.1 ≠ none
  done : r.2.2.1 ≠ [] → ¬ r.2.1 > 0

section Filled

variable {takerSide : Side} {takerId : UInt64} {remaining : Int64} {maker : ListNode} {rest : Level}
  {index : OrderIndex}

/-- Nothing remains of the taker. -/
theorem filled_of_done (hpos : ¬ remaining > 0) (xs : Level) :
    Filled takerSide takerId remaining xs index ([], remaining, xs, index) := by
  refine ⟨?_, ?_, ?_, ?_, fun _ => hpos⟩
  · rw [walkMakers_of_done hpos]
  · rw [walkMakers_of_done hpos]
  · exact (filterMap_settle_of_untouched fun f hf => absurd hf List.not_mem_nil).symm
  · intro id loc
    refine ⟨fun h => ⟨h, fun x _ _ => ?_⟩, And.left⟩
    rw [ListNode.settle_nil]
    exact Option.some_ne_none _

/-- The maker is used up and the taker goes on behind it. -/
theorem Filled.cons {f : Fill} {r : List Fill × Int64 × Level × OrderIndex}
    (hf : f = { makerOrderId := maker.order.id, takerOrderId := takerId, price := maker.order.price,
                quantity := min remaining maker.order.quantity, takerSide := takerSide })
    (hpos : remaining > 0) (hmin : min remaining maker.order.quantity = maker.order.quantity)
    (hne : ∀ x ∈ rest, maker.order.id ≠ x.order.id)
    (hrec : Filled takerSide takerId (remaining - min remaining maker.order.quantity) rest
      (index.erase maker.order.id) r) :
    Filled takerSide takerId remaining (maker :: rest) index (f :: r.1, r.2) := by
  have hmaker : ∀ fills, maker.settle (f :: fills) = none := by
    intro fills
    simp [hf, ListNode.settle, Resting.settle, hmin, Int64.lt_irrefl]
  have hrest : ∀ fills, ∀ x ∈ rest, x.settle (f :: fills) = x.settle fills := by
    intro fills x hx
    refine ListNode.settle_append_right [_] ?_
    intro g hg
    rw [List.mem_singleton.mp hg, hf]
    exact hne x hx
  refine ⟨?_, ?_, ?_, ?_, ?_⟩
  · simp only [List.map_cons, walkMakers, if_pos hpos, ← hrec.fills, hf]
  · simp only [List.map_cons, walkMakers, if_pos hpos, ← hrec.remains]
  · rw [hrec.level, List.filterMap_cons, hmaker]
    exact (List.filterMap_congr (hrest _)).symm
  · intro id loc
    rw [hrec.index]
    by_cases hid : maker.order.id = id
    · subst hid
      refine iff_of_false ?_ ?_
      · rintro ⟨h, -⟩
        rw [OrderedMap.find?_erase_self] at h
        cases h
      · rintro ⟨-, h⟩
        exact h maker List.mem_cons_self rfl (hmaker _)
    · rw [OrderedMap.find?_erase_of_ne _ hid]
      refine and_congr_right ?_
      intro _
      rw [List.forall_mem_cons]
      constructor
      · intro h
        refine ⟨fun he => absurd he hid, ?_⟩
        intro x hx he
        rw [hrest _ x hx]
        exact h x hx he
      · rintro ⟨-, h⟩ x hx he
        rw [← hrest _ x hx]
        exact h x hx he
  · exact hrec.done

/-- The maker takes all that remains. -/
theorem filled_of_kept {f : Fill}
    (hf : f = { makerOrderId := maker.order.id, takerOrderId := takerId, price := maker.order.price,
                quantity := min remaining maker.order.quantity, takerSide := takerSide })
    (hpos : remaining > 0) (hmin : min remaining maker.order.quantity = remaining)
    (hlt : remaining < maker.order.quantity) (hne : ∀ x ∈ rest, maker.order.id ≠ x.order.id) :
    Filled takerSide takerId remaining (maker :: rest) index
      ([f], remaining - min remaining maker.order.quantity,
        { maker with order := { maker.order with
            quantity := maker.order.quantity - min remaining maker.order.quantity } } :: rest,
        index) := by
  have hzero : remaining - min remaining maker.order.quantity = 0 := by
    rw [hmin, Int64.sub_self]
  have hdone : ¬ (0 : Int64) > 0 := by decide
  have hmaker : maker.settle [f] = some { maker with
      order := { maker.order with
        quantity := maker.order.quantity - min remaining maker.order.quantity } } := by
    simp [hf, ListNode.settle, Resting.settle, hmin, hlt]
  have hrest : ∀ x ∈ rest, x.settle [f] = some x := by
    intro x hx
    refine ListNode.settle_of_untouched ?_
    intro g hg
    rw [List.mem_singleton.mp hg, hf]
    exact hne x hx
  refine ⟨?_, ?_, ?_, ?_, ?_⟩
  · simp only [List.map_cons, walkMakers, if_pos hpos, hzero, walkMakers_of_done hdone, hf]
  · simp only [List.map_cons, walkMakers, if_pos hpos, hzero, walkMakers_of_done hdone]
  · rw [List.filterMap_cons, hmaker, List.filterMap_congr hrest, List.filterMap_some]
  · intro id loc
    refine ⟨fun h => ⟨h, ?_⟩, And.left⟩
    rw [List.forall_mem_cons]
    refine ⟨fun _ => ?_, fun x hx _ => ?_⟩
    · rw [hmaker]
      exact Option.some_ne_none _
    · rw [hrest x hx]
      exact Option.some_ne_none _
  · intro _
    rw [hzero]
    exact hdone

end Filled

theorem fillLevel_filled (takerSide : Side) (takerId : UInt64) (level : Level)
    (hids : (idsOf level).Nodup) (remaining : Int64) (index : OrderIndex) :
    Filled takerSide takerId remaining level index
      (fillLevel takerSide takerId remaining level index) := by
  induction level generalizing remaining index with
  | nil =>
    exact
      { fills := rfl, remains := rfl, level := rfl
        index := fun id loc => ⟨fun h => ⟨h, fun x hx => absurd hx List.not_mem_nil⟩, And.left⟩
        done := fun h => absurd rfl h }
  | cons maker rest ih =>
    obtain ⟨hnot, hids⟩ := List.nodup_cons.mp hids
    have hne : ∀ x ∈ rest, maker.order.id ≠ x.order.id := by
      intro x hx he
      exact hnot (List.mem_map.mpr ⟨x, hx, he.symm⟩)
    by_cases hpos : remaining > 0
    · rcases min_cases hpos maker.order.quantity with ⟨hmin, hle⟩ | ⟨hmin, hlt, hle⟩
      · simp only [fillLevel, if_pos hpos, min_eq_ite, if_pos hle]
        exact Filled.cons rfl hpos hmin hne (ih hids _ _)
      · simp only [fillLevel, if_pos hpos, min_eq_ite, if_neg hle]
        exact filled_of_kept rfl hpos hmin hlt hne
    · simp only [fillLevel, if_neg hpos]
      exact filled_of_done hpos _

/-! ## The outer loop -/

theorem outOfReach_eq (takerSide : Side) (limit price : Int64) :
    outOfReach takerSide limit price = !reaches takerSide limit price := by
  cases takerSide
  · simp only [outOfReach, reaches, ← Int64.not_le, decide_not]
  · simp only [outOfReach, reaches, gt_iff_lt, ← Int64.not_le, decide_not]

/-- A limit that does not reach a price reaches no worse one. -/
theorem not_reaches_of_better {takerSide : Side} {limit p p' : Int64}
    (hp : reaches takerSide limit p = false) (h : better takerSide.opposite p p' = true) :
    reaches takerSide limit p' = false := by
  cases takerSide with
  | buy =>
    simp only [reaches, decide_eq_false_iff_not, Int64.not_le, better, Side.opposite, less,
      decide_eq_true_eq] at *
    exact Int64.lt_trans hp h
  | sell =>
    simp only [reaches, decide_eq_false_iff_not, Int64.not_le, better, Side.opposite, greater,
      decide_eq_true_eq] at *
    exact Int64.lt_trans h hp

theorem matchLevels_of_done {L : Type} [Levels L] {takerSide : Side} {limit : Int64}
    {takerId : UInt64} {remaining : Int64} (h : ¬ remaining > 0) (rounds : Nat) (levels : L)
    (index : OrderIndex) :
    matchLevels takerSide limit takerId rounds remaining levels index =
      ([], remaining, levels, index) := by
  cases rounds with
  | zero => rfl
  | succ rounds => rw [matchLevels, if_neg h]

theorem matchLevels_of_best_none {L : Type} [Levels L] {levels : L}
    (h : Levels.best levels = none) (takerSide : Side) (limit : Int64) (takerId : UInt64)
    (rounds : Nat) (remaining : Int64) (index : OrderIndex) :
    matchLevels takerSide limit takerId rounds remaining levels index =
      ([], remaining, levels, index) := by
  cases rounds with
  | zero => rfl
  | succ rounds =>
    rw [matchLevels, h]
    split_ifs
    · rfl
    · rfl

theorem best_map {s : Side} (m : MapLevels s) : Levels.best m = m.begin?.map Prod.fst := rfl

theorem value_map_head {s : Side} {m : MapLevels s} {p : Int64} {level : Level}
    {levels : List (Int64 × Level)} (hm : m.bindings = (p, level) :: levels) :
    Levels.value m p = level := by
  change (m.find? p).getD [] = level
  rw [OrderedMap.find?_head hm]
  rfl

/-- A level after the fills, or nothing if it is empty. -/
def settleLevel (fills : List Fill) (b : Int64 × Level) : Option (Int64 × Level) :=
  if b.2.filterMap (ListNode.settle fills) = [] then none
  else some (b.1, b.2.filterMap (ListNode.settle fills))

/-- The nodes in a list of levels. -/
def nodesOf (levels : List (Int64 × Level)) : List ListNode := levels.flatMap Prod.snd

/-- The nodes in a list of levels within a taker's limit. -/
def reached (takerSide : Side) (limit : Int64) (levels : List (Int64 × Level)) : List ListNode :=
  (nodesOf levels).filter fun x => reaches takerSide limit x.order.price

theorem nodesOf_cons (b : Int64 × Level) (levels : List (Int64 × Level)) :
    nodesOf (b :: levels) = b.2 ++ nodesOf levels := rfl

theorem reached_cons_of_reaches {takerSide : Side} {limit : Int64} {b : Int64 × Level}
    (levels : List (Int64 × Level)) (hprice : ∀ x ∈ b.2, x.order.price = b.1)
    (h : reaches takerSide limit b.1 = true) :
    reached takerSide limit (b :: levels) = b.2 ++ reached takerSide limit levels := by
  rw [reached, nodesOf_cons, List.filter_append, reached]
  congr 1
  rw [List.filter_eq_self]
  intro x hx
  rw [hprice x hx, h]

theorem settleLevel_of_untouched {fills : List Fill} {levels : List (Int64 × Level)}
    (hne : ∀ b ∈ levels, b.2 ≠ []) (h : ∀ f ∈ fills, f.makerOrderId ∉ idsOf (nodesOf levels)) :
    levels.filterMap (settleLevel fills) = levels := by
  rw [List.filterMap_congr (g := some), List.filterMap_some]
  intro b hb
  have hsame : b.2.filterMap (ListNode.settle fills) = b.2 := by
    refine filterMap_settle_of_untouched ?_
    intro f hf hmem
    obtain ⟨x, hx, he⟩ := List.mem_map.mp hmem
    exact h f hf (List.mem_map.mpr ⟨x, List.mem_flatMap.mpr ⟨b, hb, hx⟩, he⟩)
  rw [settleLevel, hsame, if_neg (hne b hb)]

/-- The levels of a side as matching finds them. -/
structure Tidy (levels : List (Int64 × Level)) : Prop where
  price : ∀ b ∈ levels, ∀ x ∈ b.2, x.order.price = b.1
  nonempty : ∀ b ∈ levels, b.2 ≠ []
  ids : (idsOf (nodesOf levels)).Nodup

/-- The other side is filled as the flat walk over the orders within the limit fills it. -/
structure Swept (takerSide : Side) (limit : Int64) (takerId : UInt64) (remaining : Int64)
    (levels₀ : List (Int64 × Level)) (index₀ : OrderIndex)
    (r : List Fill × Int64 × MapLevels takerSide.opposite × OrderIndex) : Prop where
  fills : r.1 = (walkMakers takerSide takerId remaining
    ((reached takerSide limit levels₀).map ListNode.order)).1
  remains : r.2.1 = (walkMakers takerSide takerId remaining
    ((reached takerSide limit levels₀).map ListNode.order)).2
  levels : r.2.2.1.bindings = levels₀.filterMap (settleLevel r.1)
  index : ∀ id loc, r.2.2.2.find? id = some loc ↔
    index₀.find? id = some loc ∧ ∀ x ∈ nodesOf levels₀, x.order.id = id → x.settle r.1 ≠ none

theorem swept_of_no_fill {takerSide : Side} {limit : Int64} {takerId : UInt64} {remaining : Int64}
    {index : OrderIndex} {m : MapLevels takerSide.opposite} (htidy : Tidy m.bindings)
    (h : ¬ remaining > 0 ∨ reached takerSide limit m.bindings = []) :
    Swept takerSide limit takerId remaining m.bindings index ([], remaining, m, index) := by
  have hwalk : walkMakers takerSide takerId remaining
      ((reached takerSide limit m.bindings).map ListNode.order) = ([], remaining) := by
    rcases h with h | h
    · exact walkMakers_of_done h _
    · rw [h]
      rfl
  refine ⟨by rw [hwalk], by rw [hwalk], ?_, ?_⟩
  · exact (settleLevel_of_untouched htidy.nonempty fun f hf => absurd hf List.not_mem_nil).symm
  · intro id loc
    refine ⟨fun h => ⟨h, fun x _ _ => ?_⟩, And.left⟩
    rw [ListNode.settle_nil]
    exact Option.some_ne_none _

/-- One round that empties the best level and goes on with the others. -/
theorem Swept.cons {takerSide : Side} {limit : Int64} {takerId : UInt64} {remaining : Int64}
    {index : OrderIndex} {p : Int64} {level : Level} {levels : List (Int64 × Level)}
    {f : List Fill × Int64 × Level × OrderIndex}
    {r : List Fill × Int64 × MapLevels takerSide.opposite × OrderIndex}
    (htidy : Tidy ((p, level) :: levels)) (hreach : reaches takerSide limit p = true)
    (hf : Filled takerSide takerId remaining level index f) (hempty : f.2.2.1 = [])
    (hr : Swept takerSide limit takerId f.2.1 levels f.2.2.2 r) :
    Swept takerSide limit takerId remaining ((p, level) :: levels) index
      (f.1 ++ r.1, r.2) := by
  have hdisj := (List.nodup_append.mp (by simpa [idsOf, nodesOf_cons] using htidy.ids)).2.2
  -- fills at the best level name orders of that level only, later fills orders of later levels only
  have hfirst : ∀ g ∈ f.1, g.makerOrderId ∈ idsOf level := by
    intro g hg
    rw [hf.fills] at hg
    exact mem_idsOf_of_walk hg
  have hlater : ∀ g ∈ r.1, g.makerOrderId ∈ idsOf (nodesOf levels) := by
    intro g hg
    rw [hr.fills] at hg
    obtain ⟨x, hx, he⟩ := List.mem_map.mp (mem_idsOf_of_walk hg)
    exact List.mem_map.mpr ⟨x, (List.mem_filter.mp hx).1, he⟩
  have hlevel : ∀ x ∈ level, x.settle (f.1 ++ r.1) = x.settle f.1 := by
    intro x hx
    refine ListNode.settle_append_left ?_
    intro g hg he
    exact hdisj _ (List.mem_map_of_mem hx) _ (he ▸ hlater g hg) rfl
  have hlevels : ∀ x ∈ nodesOf levels, x.settle (f.1 ++ r.1) = x.settle r.1 := by
    intro x hx
    refine ListNode.settle_append_right f.1 ?_
    intro g hg he
    exact hdisj _ (he ▸ hfirst g hg) _ (List.mem_map_of_mem hx) rfl
  have hsplit := reached_cons_of_reaches levels (htidy.price _ List.mem_cons_self) hreach
  refine ⟨?_, ?_, ?_, ?_⟩
  · rw [hsplit, List.map_append, walkMakers_append, ← hf.fills, ← hf.remains, ← hr.fills]
  · rw [hsplit, List.map_append, walkMakers_append, ← hf.remains, ← hr.remains]
  · have hgone : settleLevel (f.1 ++ r.1) (p, level) = none := by
      rw [settleLevel, List.filterMap_congr hlevel, ← hf.level, if_pos hempty]
    rw [List.filterMap_cons, hgone, hr.levels]
    refine List.filterMap_congr ?_
    intro b hb
    have hsame : b.2.filterMap (ListNode.settle (f.1 ++ r.1)) =
        b.2.filterMap (ListNode.settle r.1) :=
      List.filterMap_congr fun x hx => hlevels x (List.mem_flatMap.mpr ⟨b, hb, hx⟩)
    rw [settleLevel, settleLevel, hsame]
  · intro id loc
    rw [hr.index, hf.index, and_assoc, nodesOf_cons]
    refine and_congr_right ?_
    intro _
    simp only [List.mem_append, or_imp, forall_and]
    refine and_congr ?_ ?_
    · refine forall₂_congr ?_
      intro x hx
      rw [hlevel x hx]
    · refine forall₂_congr ?_
      intro x hx
      rw [hlevels x hx]

/-- One round that leaves something at the best level, and so nothing of the taker. -/
theorem Swept.stop {takerSide : Side} {limit : Int64} {takerId : UInt64} {remaining : Int64}
    {index : OrderIndex} {p : Int64} {level : Level} {levels : List (Int64 × Level)}
    {f : List Fill × Int64 × Level × OrderIndex} {m : MapLevels takerSide.opposite}
    (htidy : Tidy ((p, level) :: levels)) (hreach : reaches takerSide limit p = true)
    (hf : Filled takerSide takerId remaining level index f) (hne : f.2.2.1 ≠ [])
    (hm : m.bindings = (p, f.2.2.1) :: levels) :
    Swept takerSide limit takerId remaining ((p, level) :: levels) index
      (f.1, f.2.1, m, f.2.2.2) := by
  have hdisj := (List.nodup_append.mp (by simpa [idsOf, nodesOf_cons] using htidy.ids)).2.2
  have hlater : ∀ g ∈ f.1, g.makerOrderId ∉ idsOf (nodesOf levels) := by
    intro g hg hmem
    rw [hf.fills] at hg
    exact hdisj _ (mem_idsOf_of_walk hg) _ hmem rfl
  have hsplit := reached_cons_of_reaches levels (htidy.price _ List.mem_cons_self) hreach
  have hdone : ¬ (walkMakers takerSide takerId remaining (level.map ListNode.order)).2 > 0 := by
    rw [← hf.remains]
    exact hf.done hne
  refine ⟨?_, ?_, ?_, ?_⟩
  · rw [hsplit, List.map_append, walkMakers_append, walkMakers_of_done hdone, ← hf.fills, List.append_nil]
  · rw [hsplit, List.map_append, walkMakers_append, walkMakers_of_done hdone, ← hf.remains]
  · have hkept : settleLevel f.1 (p, level) = some (p, f.2.2.1) := by
      rw [settleLevel, ← hf.level, if_neg hne]
    rw [List.filterMap_cons, hkept, hm, settleLevel_of_untouched
      (fun b hb => htidy.nonempty b (List.mem_cons_of_mem _ hb)) hlater]
  · intro id loc
    rw [hf.index, nodesOf_cons]
    refine and_congr_right ?_
    intro _
    rw [List.forall_mem_append, iff_self_and]
    intro _ x hx _
    rw [ListNode.settle_of_untouched]
    · exact Option.some_ne_none _
    · intro g hg he
      exact hlater g hg (he ▸ List.mem_map_of_mem hx)

/-- Nothing is within the limit if the best price is not. -/
theorem reached_eq_nil {takerSide : Side} {limit : Int64} {m : MapLevels takerSide.opposite}
    {p : Int64} {level : Level} {levels : List (Int64 × Level)}
    (hm : m.bindings = (p, level) :: levels) (htidy : Tidy ((p, level) :: levels))
    (hreach : reaches takerSide limit p = false) :
    reached takerSide limit ((p, level) :: levels) = [] := by
  have hsorted := m.sorted
  rw [hm] at hsorted
  rw [reached, List.filter_eq_nil_iff]
  intro x hx
  obtain ⟨b, hb, hxb⟩ := List.mem_flatMap.mp hx
  rw [htidy.price b hb x hxb]
  rcases List.mem_cons.mp hb with rfl | hb
  · simp [hreach]
  · simp [not_reaches_of_better hreach (List.rel_of_pairwise_cons hsorted hb)]

/-- The levels behind the best one. -/
theorem Tidy.tail {p : Int64} {level : Level} {levels : List (Int64 × Level)}
    (h : Tidy ((p, level) :: levels)) : Tidy levels where
  price := fun b hb => h.price b (List.mem_cons_of_mem _ hb)
  nonempty := fun b hb => h.nonempty b (List.mem_cons_of_mem _ hb)
  ids := (List.nodup_append.mp (by simpa [idsOf, nodesOf_cons] using h.ids)).2.1

theorem matchLevels_swept {takerSide : Side} (limit : Int64) (takerId : UInt64)
    (levels : List (Int64 × Level)) (m : MapLevels takerSide.opposite) (hm : m.bindings = levels)
    (htidy : Tidy levels) {rounds : Nat} (hrounds : levels.length < rounds) (remaining : Int64)
    (index : OrderIndex) :
    Swept takerSide limit takerId remaining levels index
      (matchLevels takerSide limit takerId rounds remaining m index) := by
  induction levels generalizing m rounds remaining index with
  | nil =>
    have hbest : Levels.best m = none := by
      rw [best_map, OrderedMap.begin?, hm]
      rfl
    rw [matchLevels_of_best_none hbest, ← hm]
    rw [← hm] at htidy
    refine swept_of_no_fill htidy (Or.inr ?_)
    rw [hm]
    rfl
  | cons b levels ih =>
    obtain ⟨p, level⟩ := b
    obtain ⟨rounds, rfl⟩ := Nat.exists_eq_add_of_lt (Nat.zero_lt_of_lt hrounds)
    rw [Nat.zero_add] at *
    by_cases hpos : remaining > 0
    swap
    · rw [matchLevels_of_done hpos, ← hm]
      rw [← hm] at htidy
      exact swept_of_no_fill htidy (Or.inl hpos)
    have hbest : Levels.best m = some p := by
      rw [best_map, OrderedMap.begin?, hm]
      rfl
    rw [matchLevels, if_pos hpos, hbest]
    change Swept takerSide limit takerId remaining ((p, level) :: levels) index
      (if outOfReach takerSide limit p then _ else _)
    rw [outOfReach_eq]
    cases hreach : reaches takerSide limit p with
    | false =>
      have hnil := reached_eq_nil hm htidy hreach
      rw [← hm] at htidy hnil
      rw [Bool.not_false, if_pos rfl, ← hm]
      exact swept_of_no_fill htidy (Or.inr hnil)
    | true =>
      have hids : (idsOf level).Nodup :=
        (List.nodup_append.mp (by simpa [idsOf, nodesOf_cons] using htidy.ids)).1
      have hf := fillLevel_filled takerSide takerId level hids
        remaining index
      rw [Bool.not_true, if_neg Bool.false_ne_true, value_map_head hm]
      generalize fillLevel takerSide takerId remaining level index = f at hf
      obtain ⟨fills, remaining', level', index'⟩ := f
      have hset : (Levels.setValue m p level' : MapLevels _).bindings = (p, level') :: levels :=
        OrderedMap.bindings_modify_head hm _
      dsimp only
      by_cases hempty : level' = []
      · rw [if_pos hempty]
        have herase : (Levels.remove (Levels.setValue m p level' : MapLevels _) p).bindings =
            levels := OrderedMap.bindings_erase_head hset
        have hr := ih _ herase htidy.tail (Nat.lt_of_succ_lt_succ hrounds) remaining' index'
        exact Swept.cons htidy hreach hf hempty hr
      · rw [if_neg hempty, matchLevels_of_done (hf.done hempty)]
        dsimp only
        rw [List.append_nil]
        exact Swept.stop htidy hreach hf hempty hset

end NexusLOB.Lob
