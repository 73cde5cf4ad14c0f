import Mathlib.Data.List.Dedup
import Mathlib.Data.List.Sort
import NexusLOB.Book.Types

/-!
# Price-time priority on a flat list

The reference book: the resting orders in arrival order and nothing else. An incoming order walks
the orders of the other side that its limit reaches, from the best price on and, at one price, from
the earliest arrival on.
-/

namespace NexusLOB.Lob

open Collections

/-- The resting orders in arrival order. -/
abbrev Resting := List Order

namespace Resting

/-- The orders resting at a price, earliest first. -/
def level (q : Resting) (s : Side) (price : Int64) : List Order :=
  q.filter fun o => o.side = s ∧ o.price = price

/-- The prices at which a side has orders, best first. -/
def prices (q : Resting) (s : Side) : List Int64 :=
  ((q.filter fun o => o.side = s).map Order.price).dedup.insertionSort
    fun a b => better s b a = false

/-- The orders of a side, best price first and earliest arrival first within a price. -/
def byPriority (q : Resting) (s : Side) : List Order := (q.prices s).flatMap (q.level s)

/-- A taker's limit reaches a price. -/
def reaches : Side → Int64 → Int64 → Bool
  | .buy, limit, price => price ≤ limit
  | .sell, limit, price => limit ≤ price

/-- Fill against the makers one after the other, as long as something remains. -/
def walkMakers (takerSide : Side) (takerId : UInt64) : Int64 → List Order → List Fill × Int64
  | remaining, [] => ([], remaining)
  | remaining, maker :: makers =>
    if remaining > 0 then
      let quantity := min remaining maker.quantity
      let f : Fill :=
        { makerOrderId := maker.id, takerOrderId := takerId, price := maker.price,
          quantity := quantity, takerSide := takerSide }
      let (fills, remaining) := walkMakers takerSide takerId (remaining - quantity) makers
      (f :: fills, remaining)
    else ([], remaining)

/-- An order after the fills: unchanged, smaller, or gone. -/
def settle (fills : List Fill) (o : Order) : Option Order :=
  match fills.find? fun f => f.makerOrderId = o.id with
  | none => some o
  | some f =>
    if f.quantity < o.quantity then some { o with quantity := o.quantity - f.quantity } else none

/-- The orders of the other side within the limit. -/
def makers (q : Resting) (takerSide : Side) (limit : Int64) : List Order :=
  (q.byPriority takerSide.opposite).filter fun o => reaches takerSide limit o.price

def getOrder (q : Resting) (id : UInt64) : Option Order := q.find? fun o => o.id = id

def newOrder (q : Resting) (id : UInt64) (side : Side) (price quantity : Int64)
    (sequence : UInt64) : List Fill × Resting :=
  if quantity ≤ 0 ∨ (q.getOrder id).isSome then ([], q)
  else
    let (fills, remaining) := walkMakers side id quantity (q.makers side price)
    (fills, q.filterMap (settle fills) ++
      if remaining > 0 then
        [{ id := id, side := side, price := price, quantity := remaining, sequence := sequence }]
      else [])

/-- All orders but one. -/
def without (q : Resting) (id : UInt64) : Resting := q.filter fun o => o.id ≠ id

def cancelOrder (q : Resting) (id : UInt64) : Bool × Resting := ((q.getOrder id).isSome, q.without id)

/-- The order moves to the end, with its new price, quantity and sequence. -/
def modifyOrder (q : Resting) (id : UInt64) (newPrice newQuantity : Int64) (newSequence : UInt64) :
    Bool × Resting :=
  match q.getOrder id with
  | none => (false, q)
  | some o =>
    (true, q.without id ++
      if newQuantity > 0 then
        [{ id := id, side := o.side, price := newPrice, quantity := newQuantity,
           sequence := newSequence }]
      else [])

def orderCount (q : Resting) : Nat := q.length

/-- Price, total quantity and number of orders of a level. -/
def priceLevel (q : Resting) (s : Side) (price : Int64) : PriceLevel :=
  { price := price, totalQuantity := ((q.level s price).map Order.quantity).sum,
    orderCount := UInt32.ofNat (q.level s price).length }

/-- The best `maxLevels` levels of a side, or all of them for 0. -/
def depth (q : Resting) (s : Side) (maxLevels : Nat) : List PriceLevel :=
  (if maxLevels = 0 then q.prices s else (q.prices s).take maxLevels).map (q.priceLevel s)

def best (q : Resting) (s : Side) : Option Int64 := (q.prices s).head?

def call (q : Resting) : Call → Answer × Resting
  | .newOrder orderId side price quantity sequence _ =>
    let (fills, q) := q.newOrder orderId side price quantity sequence
    (.fills fills, q)
  | .cancelOrder orderId =>
    let (found, q) := q.cancelOrder orderId
    (.success found, q)
  | .modifyOrder orderId newPrice newQuantity newSequence _ =>
    let (found, q) := q.modifyOrder orderId newPrice newQuantity newSequence
    (.success found, q)
  | .addRestingOrder o _ => (.void, q ++ [o])
  | .reset _ => (.void, [])

def run (q : Resting) : List Call → List Answer × Resting
  | [] => ([], q)
  | c :: calls =>
    let (answer, q) := q.call c
    let (answers, q) := q.run calls
    (answer :: answers, q)

/-! ## Facts -/

section Facts

variable {q : Resting} {s : Side}

theorem mem_level {price : Int64} {o : Order} :
    o ∈ q.level s price ↔ o ∈ q ∧ o.side = s ∧ o.price = price := by
  simp [level]

theorem mem_prices {price : Int64} : price ∈ q.prices s ↔ q.level s price ≠ [] := by
  simp only [prices, List.mem_insertionSort, List.mem_dedup, List.mem_map, List.mem_filter,
    decide_eq_true_eq]
  constructor
  · rintro ⟨o, ⟨ho, hs⟩, hp⟩
    exact List.ne_nil_of_mem (mem_level.mpr ⟨ho, hs, hp⟩)
  · intro h
    obtain ⟨o, ho⟩ := List.exists_mem_of_ne_nil _ h
    obtain ⟨ho, hs, hp⟩ := mem_level.mp ho
    exact ⟨o, ⟨ho, hs⟩, hp⟩

theorem mem_byPriority {o : Order} : o ∈ q.byPriority s ↔ o ∈ q ∧ o.side = s := by
  simp only [byPriority, List.mem_flatMap, mem_level]
  constructor
  · rintro ⟨price, -, ho, hs, -⟩
    exact ⟨ho, hs⟩
  · rintro ⟨ho, hs⟩
    refine ⟨o.price, ?_, ho, hs, rfl⟩
    rw [mem_prices]
    exact List.ne_nil_of_mem (mem_level.mpr ⟨ho, hs, rfl⟩)

instance (s : Side) : Std.Total fun a b : Int64 => better s b a = false where
  total a b := by
    cases hba : better s b a with
    | false => exact Or.inl rfl
    | true => exact Or.inr (cmp_asymm hba)

instance (s : Side) : IsTrans Int64 fun a b : Int64 => better s b a = false where
  trans a b c hba hcb := by
    cases hca : better s c a with
    | false => rfl
    | true =>
      rcases StrictWeak.cotrans b hca with h | h
      · rw [hcb] at h
        cases h
      · rw [hba] at h
        cases h

/-- The prices of a side get worse along the list. -/
theorem prices_sorted (q : Resting) (s : Side) :
    (q.prices s).Pairwise fun a b => better s a b = true := by
  have hle := List.pairwise_insertionSort (fun a b : Int64 => better s b a = false)
    ((q.filter fun o => o.side = s).map Order.price).dedup
  have hne : (q.prices s).Nodup := (List.perm_insertionSort _ _).nodup_iff.mpr (List.nodup_dedup _)
  refine (hle.and hne).imp ?_
  rintro a b ⟨hba, hab⟩
  rcases (cmp_or_of_ne hab : better s a b = true ∨ better s b a = true) with h | h
  · exact h
  · rw [hba] at h
    cases h

/-! ### Walking the makers -/

variable {takerSide : Side} {takerId : UInt64} {remaining : Int64}

theorem walkMakers_of_done (h : ¬ remaining > 0) (makers : List Order) :
    walkMakers takerSide takerId remaining makers = ([], remaining) := by
  cases makers with
  | nil => rfl
  | cons maker makers => rw [walkMakers, if_neg h]

theorem walkMakers_append (as bs : List Order) :
    walkMakers takerSide takerId remaining (as ++ bs) =
      ((walkMakers takerSide takerId remaining as).1 ++
        (walkMakers takerSide takerId (walkMakers takerSide takerId remaining as).2 bs).1,
       (walkMakers takerSide takerId (walkMakers takerSide takerId remaining as).2 bs).2) := by
  induction as generalizing remaining with
  | nil => rfl
  | cons a as ih =>
    by_cases h : remaining > 0
    · simp only [List.cons_append, walkMakers, if_pos h, ih]
    · rw [walkMakers_of_done h, walkMakers_of_done h]
      simp [walkMakers_of_done h]

/-- Every fill is against one of the makers. -/
theorem mem_of_walk {makers : List Order} {f : Fill}
    (hf : f ∈ (walkMakers takerSide takerId remaining makers).1) :
    ∃ o ∈ makers, f.makerOrderId = o.id := by
  induction makers generalizing remaining with
  | nil => cases hf
  | cons maker makers ih =>
    by_cases h : remaining > 0
    · simp only [walkMakers, if_pos h, List.mem_cons] at hf
      rcases hf with rfl | hf
      · exact ⟨maker, List.mem_cons_self, rfl⟩
      · obtain ⟨o, ho, he⟩ := ih hf
        exact ⟨o, List.mem_cons_of_mem _ ho, he⟩
    · rw [walkMakers_of_done h] at hf
      cases hf

/-- An order that no fill names is unchanged. -/
theorem settle_of_untouched {fills : List Fill} {o : Order}
    (h : ∀ f ∈ fills, f.makerOrderId ≠ o.id) : settle fills o = some o := by
  have hnone : (fills.find? fun f => f.makerOrderId = o.id) = none := by
    rw [List.find?_eq_none]
    simpa using h
  rw [settle, hnone]

theorem settle_append_left {fills more : List Fill} {o : Order}
    (h : ∀ f ∈ more, f.makerOrderId ≠ o.id) : settle (fills ++ more) o = settle fills o := by
  have hnone : (more.find? fun f => f.makerOrderId = o.id) = none := by
    rw [List.find?_eq_none]
    simpa using h
  rw [settle, settle, List.find?_append, hnone, Option.or_none]

theorem settle_append_right (fills : List Fill) {more : List Fill} {o : Order}
    (h : ∀ f ∈ fills, f.makerOrderId ≠ o.id) : settle (fills ++ more) o = settle more o := by
  have hnone : (fills.find? fun f => f.makerOrderId = o.id) = none := by
    rw [List.find?_eq_none]
    simpa using h
  rw [settle, settle, List.find?_append, hnone, Option.none_or]

/-- What an order keeps through its fills. -/
theorem settle_same {fills : List Fill} {o o' : Order} (h : settle fills o = some o') :
    o'.id = o.id ∧ o'.side = o.side ∧ o'.price = o.price ∧ o'.sequence = o.sequence := by
  unfold settle at h
  split at h
  · cases h
    exact ⟨rfl, rfl, rfl, rfl⟩
  · split at h
    · cases h
      exact ⟨rfl, rfl, rfl, rfl⟩
    · cases h

end Facts

/-! ## Lists with the same levels

What a book does depends on the order of arrival within each level only. -/

section Alike

variable {q q' : Resting}

/-- The same orders rest at every price, in the same order. -/
def Alike (q q' : Resting) : Prop := ∀ s price, q.level s price = q'.level s price

theorem Alike.prices_eq (h : q.Alike q') (s : Side) : q.prices s = q'.prices s := by
  have : Std.Irrefl fun a b : Int64 => better s a b = true :=
    ⟨fun a => by simp [(strictWeakBetter s).irrefl]⟩
  have : Std.Antisymm fun a b : Int64 => better s a b = true :=
    ⟨fun a b hab hba => by rw [cmp_asymm hab] at hba; cases hba⟩
  refine List.Pairwise.eq_of_mem_iff (prices_sorted q s) (prices_sorted q' s) ?_
  intro price
  rw [mem_prices, mem_prices, h s price]

theorem Alike.byPriority_eq (h : q.Alike q') (s : Side) : q.byPriority s = q'.byPriority s := by
  rw [byPriority, byPriority, h.prices_eq]
  congr 1
  funext price
  exact h s price

theorem Alike.perm (h : q.Alike q') : q.Perm q' := by
  rw [List.perm_iff_count]
  intro o
  have hcount : ∀ r : Resting, (r.level o.side o.price).count o = r.count o := by
    intro r
    rw [level, List.count_filter]
    exact decide_eq_true ⟨rfl, rfl⟩
  rw [← hcount q, ← hcount q', h o.side o.price]

theorem getOrder_eq_some (hids : (q.map Order.id).Nodup) {id : UInt64} {o : Order} :
    q.getOrder id = some o ↔ o ∈ q ∧ o.id = id := by
  constructor
  · intro h
    exact ⟨List.mem_of_find?_eq_some h, by simpa using List.find?_some h⟩
  · rintro ⟨ho, rfl⟩
    cases hfind : q.getOrder o.id with
    | none =>
      rw [getOrder, List.find?_eq_none] at hfind
      exact absurd (decide_eq_true rfl) (hfind o ho)
    | some o' =>
      have hid : o'.id = o.id := by simpa using List.find?_some hfind
      exact congrArg some
        (List.inj_on_of_nodup_map hids (List.mem_of_find?_eq_some hfind) ho hid)

theorem Alike.getOrder_eq (h : q.Alike q') (hids : (q.map Order.id).Nodup) (id : UInt64) :
    q.getOrder id = q'.getOrder id := by
  have hids' : (q'.map Order.id).Nodup := (h.perm.map Order.id).nodup_iff.mp hids
  ext o
  rw [getOrder_eq_some hids, getOrder_eq_some hids', h.perm.mem_iff]

theorem level_append (q r : Resting) (s : Side) (price : Int64) :
    level (q ++ r) s price = q.level s price ++ r.level s price := List.filter_append ..

theorem level_without (q : Resting) (id : UInt64) (s : Side) (price : Int64) :
    (q.without id).level s price = (q.level s price).filter fun o => o.id ≠ id := by
  rw [level, without, List.filter_comm]
  rfl

/-- A change that keeps what a filter looks at may be made before the filter or after it. -/
theorem filter_filterMap_comm {α : Type} {f : α → Option α} {P : α → Bool}
    (h : ∀ {a b}, f a = some b → P b = P a) (xs : List α) :
    (xs.filterMap f).filter P = (xs.filter P).filterMap f := by
  rw [List.filter_filterMap, List.filterMap_filter]
  apply List.filterMap_congr
  intro a _
  cases hf : f a with
  | none => rw [Option.filter_none, ite_self]
  | some b => rw [Option.filter_some, h hf]

/-- What the kept orders have of an attribute that stays, in the same order. -/
theorem map_filterMap_sublist {β : Type} (g : Order → β) {f : Order → Option Order}
    (hf : ∀ {o o'}, f o = some o' → g o' = g o) (q : Resting) :
    List.Sublist ((q.filterMap f).map g) (q.map g) := by
  induction q with
  | nil => exact List.Sublist.refl _
  | cons o q ih =>
    cases ho : f o with
    | none =>
      rw [List.filterMap_cons_none ho, List.map_cons]
      exact ih.cons _
    | some o' =>
      rw [List.filterMap_cons_some ho, List.map_cons, List.map_cons, hf ho]
      exact ih.cons_cons _

theorem level_settle (q : Resting) (fills : List Fill) (s : Side) (price : Int64) :
    level (q.filterMap (settle fills)) s price = (q.level s price).filterMap (settle fills) := by
  apply filter_filterMap_comm
  intro o o' ho
  obtain ⟨-, hside, hprice, -⟩ := settle_same ho
  rw [hside, hprice]

theorem Alike.append (h : q.Alike q') (r : Resting) : Alike (q ++ r) (q' ++ r) := by
  intro s price
  rw [level_append, level_append, h s price]

theorem Alike.without (h : q.Alike q') (id : UInt64) : (q.without id).Alike (q'.without id) := by
  intro s price
  rw [level_without, level_without, h s price]

theorem Alike.settle (h : q.Alike q') (fills : List Fill) :
    Alike (q.filterMap (Resting.settle fills)) (q'.filterMap (Resting.settle fills)) := by
  intro s price
  rw [level_settle, level_settle, h s price]

theorem Alike.newOrder (h : q.Alike q') (hids : (q.map Order.id).Nodup) (id : UInt64) (side : Side)
    (price quantity : Int64) (sequence : UInt64) :
    (q.newOrder id side price quantity sequence).1 =
        (q'.newOrder id side price quantity sequence).1 ∧
      (q.newOrder id side price quantity sequence).2.Alike
        (q'.newOrder id side price quantity sequence).2 := by
  have hmakers : q.makers side price = q'.makers side price := by
    rw [makers, makers, h.byPriority_eq]
  unfold Resting.newOrder
  rw [← h.getOrder_eq hids, ← hmakers]
  split
  · exact ⟨rfl, h⟩
  · exact ⟨rfl, (h.settle _).append _⟩

theorem Alike.cancelOrder (h : q.Alike q') (hids : (q.map Order.id).Nodup) (id : UInt64) :
    (q.cancelOrder id).1 = (q'.cancelOrder id).1 ∧
      (q.cancelOrder id).2.Alike (q'.cancelOrder id).2 := by
  unfold Resting.cancelOrder
  rw [← h.getOrder_eq hids]
  exact ⟨rfl, h.without id⟩

theorem Alike.modifyOrder (h : q.Alike q') (hids : (q.map Order.id).Nodup) (id : UInt64)
    (newPrice newQuantity : Int64) (newSequence : UInt64) :
    (q.modifyOrder id newPrice newQuantity newSequence).1 =
        (q'.modifyOrder id newPrice newQuantity newSequence).1 ∧
      (q.modifyOrder id newPrice newQuantity newSequence).2.Alike
        (q'.modifyOrder id newPrice newQuantity newSequence).2 := by
  unfold Resting.modifyOrder
  rw [← h.getOrder_eq hids]
  cases q.getOrder id with
  | none => exact ⟨rfl, h⟩
  | some o => exact ⟨rfl, (h.without id).append _⟩

/-- The orders side by side, best price first, earliest first within a price. -/
def listed (q : Resting) : Resting := q.byPriority .buy ++ q.byPriority .sell

theorem flatMap_ite {α β : Type} [DecidableEq α] {xs : List α} (hnodup : xs.Nodup) (a : α)
    (bs : List β) :
    (xs.flatMap fun x => if x = a then bs else []) = if a ∈ xs then bs else [] := by
  induction xs with
  | nil => rfl
  | cons x xs ih =>
    obtain ⟨hx, hxs⟩ := List.nodup_cons.mp hnodup
    rw [List.flatMap_cons, ih hxs]
    by_cases hxa : x = a
    · subst hxa
      rw [if_pos rfl, if_neg hx, if_pos List.mem_cons_self, List.append_nil]
    · rw [if_neg hxa, List.nil_append]
      simp only [List.mem_cons, Ne.symm hxa, false_or]

theorem level_byPriority (q : Resting) (s s' : Side) (price : Int64) :
    level (q.byPriority s) s' price = if s = s' then q.level s price else [] := by
  have hlevel : ∀ p, (q.level s p).filter (fun o => o.side = s' ∧ o.price = price) =
      if p = price then (if s = s' then q.level s price else []) else [] := by
    intro p
    rw [level, List.filter_filter]
    by_cases hp : p = price
    · subst hp
      rw [if_pos rfl]
      by_cases hs : s = s'
      · subst hs
        rw [if_pos rfl, level]
        refine List.filter_congr fun o _ => ?_
        rw [Bool.and_self]
      · rw [if_neg hs, List.filter_eq_nil_iff]
        intro o _
        simp only [Bool.and_eq_true, decide_eq_true_eq, not_and]
        rintro ⟨hs₂, -⟩ hs₁ -
        exact hs (hs₁.symm.trans hs₂)
    · rw [if_neg hp, List.filter_eq_nil_iff]
      intro o _
      simp only [Bool.and_eq_true, decide_eq_true_eq, not_and]
      rintro ⟨-, hp₂⟩ - hp₁
      exact hp (hp₁.symm.trans hp₂)
  have hnodup : (q.prices s).Nodup :=
    (List.perm_insertionSort _ _).nodup_iff.mpr (List.nodup_dedup _)
  rw [byPriority, level, List.filter_flatMap]
  simp only [hlevel]
  rw [flatMap_ite hnodup]
  split
  · rfl
  · next hmem =>
    rw [mem_prices, not_not] at hmem
    rw [hmem, ite_self]

theorem alike_listed (q : Resting) : q.Alike q.listed := by
  intro s price
  rw [listed, level_append, level_byPriority, level_byPriority]
  cases s <;> simp

end Alike

end Resting

end NexusLOB.Lob
