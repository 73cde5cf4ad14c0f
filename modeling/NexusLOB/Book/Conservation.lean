import Mathlib.Algebra.Ring.Int.Defs
import NexusLOB.Book.Crossing

/-!
# Quantities are conserved

An order gets a quantity when it is accepted or modified, and every fill that names it takes from
that quantity. Told on the flat list: one call moves from what is left of an order exactly what its
fills say, and over a whole lifetime the fills and what is left add up to the quantity it began
with. Sums are over the integers, so nothing hides in a wrap-around.
-/

namespace NexusLOB.Lob

open Collections

/-! ## Signed words -/

theorem toInt_min (a b : Int64) : (min a b).toInt = min a.toInt b.toInt := by
  change (if a ≤ b then a else b).toInt = _
  split_ifs with h
  · rw [Int64.le_iff_toInt_le] at h
    omega
  · rw [Int64.le_iff_toInt_le] at h
    omega

theorem toInt_pos {a : Int64} : 0 < a ↔ 0 < a.toInt := by
  rw [Int64.lt_iff_toInt_lt]
  rfl

/-- Taking a part of a positive quantity away does not wrap. -/
theorem toInt_sub_part {a b : Int64} (hb : 0 ≤ b.toInt) (hle : b.toInt ≤ a.toInt) :
    (a - b).toInt = a.toInt - b.toInt := by
  have hlt := a.toInt_lt
  rw [Int64.toInt_sub, Int.bmod_eq_of_le (by omega) (by omega)]

/-! ## Fills -/

/-- The quantity of some fills together. -/
def total (fills : List Fill) : Int := (fills.map fun f => f.quantity.toInt).sum

@[simp] theorem total_nil : total [] = 0 := rfl

@[simp] theorem total_cons (f : Fill) (fills : List Fill) :
    total (f :: fills) = f.quantity.toInt + total fills := rfl

theorem total_append (fills more : List Fill) : total (fills ++ more) = total fills + total more := by
  simp [total]

theorem total_nonneg {fills : List Fill} (h : ∀ f ∈ fills, 0 ≤ f.quantity.toInt) :
    0 ≤ total fills := by
  induction fills with
  | nil => exact Int.le_refl 0
  | cons f fills ih =>
    rw [List.forall_mem_cons] at h
    have := ih h.2
    rw [total_cons]
    omega

/-- What the fills take from a maker. -/
def made (fills : List Fill) (id : UInt64) : Int :=
  total (fills.filter fun f => f.makerOrderId = id)

/-- The fills of an answer that name an order, together. -/
def filled (id : UInt64) : Answer → Int
  | .fills fills => total (fills.filter fun f => f.makerOrderId = id ∨ f.takerOrderId = id)
  | _ => 0

namespace Resting

/-! ## One walk along the makers -/

/-- What `walkMakers` does to `remaining`. -/
structure Walked (takerSide : Side) (takerId : UInt64) (remaining : Int64) (makers : List Order)
    (fills : List Fill) (rest : Int64) : Prop where
  sum : total fills + rest.toInt = remaining.toInt
  rest_nonneg : 0 ≤ rest.toInt
  taker : ∀ f ∈ fills, f.takerOrderId = takerId ∧ f.takerSide = takerSide
  maker : ∀ f ∈ fills, ∃ o ∈ makers, f.makerOrderId = o.id ∧ 0 < f.quantity.toInt ∧
    f.quantity.toInt ≤ o.quantity.toInt
  makers : List.Sublist (fills.map Fill.makerOrderId) (makers.map Order.id)

theorem walked (takerSide : Side) (takerId : UInt64) {remaining : Int64} {makers : List Order}
    (hrem : 0 ≤ remaining.toInt) (hpos : ∀ o ∈ makers, 0 < o.quantity.toInt) :
    Walked takerSide takerId remaining makers
      (walkMakers takerSide takerId remaining makers).1
      (walkMakers takerSide takerId remaining makers).2 := by
  induction makers generalizing remaining with
  | nil =>
    exact ⟨Int.zero_add _, hrem, fun f hf => absurd hf List.not_mem_nil,
      fun f hf => absurd hf List.not_mem_nil, List.Sublist.refl []⟩
  | cons maker makers ih =>
    rw [List.forall_mem_cons] at hpos
    by_cases h : remaining > 0
    · have hmin := toInt_min remaining maker.quantity
      have hrem' : 0 < remaining.toInt := toInt_pos.mp h
      have hsub := toInt_sub_part (a := remaining) (b := min remaining maker.quantity)
        (by omega) (by omega)
      have hpart : 0 ≤ (remaining - min remaining maker.quantity).toInt := by omega
      have hrest := ih hpart hpos.2
      simp only [walkMakers, if_pos h]
      refine ⟨?_, hrest.rest_nonneg, ?_, ?_, hrest.makers.cons_cons maker.id⟩
      · have hsum := hrest.sum
        rw [total_cons]
        dsimp only
        omega
      · exact List.forall_mem_cons.mpr ⟨⟨rfl, rfl⟩, hrest.taker⟩
      · refine List.forall_mem_cons.mpr ⟨⟨maker, List.mem_cons_self, rfl, ?_, ?_⟩, ?_⟩
        · dsimp only
          omega
        · dsimp only
          omega
        · intro f hf
          obtain ⟨o, ho, hfo⟩ := hrest.maker f hf
          exact ⟨o, List.mem_cons_of_mem _ ho, hfo⟩
    · rw [walkMakers_of_done h]
      exact ⟨Int.zero_add _, hrem, fun f hf => absurd hf List.not_mem_nil,
        fun f hf => absurd hf List.not_mem_nil, List.nil_sublist _⟩

/-! ## Orders after the fills -/

/-- Keys that are all different pick out one element. -/
theorem filter_eq_singleton {α κ : Type} [DecidableEq κ] {f : α → κ} {xs : List α}
    (h : (xs.map f).Nodup) {x : α} (hx : x ∈ xs) : (xs.filter fun y => f y = f x) = [x] := by
  induction xs with
  | nil => cases hx
  | cons y ys ih =>
    rw [List.map_cons, List.nodup_cons] at h
    rcases List.mem_cons.mp hx with rfl | hx
    · have hrest : (ys.filter fun y => f y = f x) = [] := by
        rw [List.filter_eq_nil_iff]
        intro z hz heq
        exact h.1 (List.mem_map.mpr ⟨z, hz, of_decide_eq_true heq⟩)
      rw [List.filter_cons_of_pos (by simp), hrest]
    · have hne : f y ≠ f x := fun heq => h.1 (List.mem_map.mpr ⟨x, hx, heq.symm⟩)
      rw [List.filter_cons_of_neg (by simpa using hne), ih h.2 hx]

/-- What is left of an order that may be gone. -/
def quantityOf (o : Option Order) : Int := o.elim 0 fun o => o.quantity.toInt

/-- With one fill at most for each maker, and none larger than the maker, what is left of an order
is what the fills leave. -/
theorem quantityOf_settle {fills : List Fill} {o : Order}
    (hnodup : (fills.map Fill.makerOrderId).Nodup)
    (hle : ∀ f ∈ fills, f.makerOrderId = o.id →
      0 < f.quantity.toInt ∧ f.quantity.toInt ≤ o.quantity.toInt) :
    quantityOf (settle fills o) = o.quantity.toInt - made fills o.id := by
  rw [settle]
  cases hfind : fills.find? fun f => f.makerOrderId = o.id with
  | none =>
    have hnil : (fills.filter fun f => f.makerOrderId = o.id) = [] := by
      rw [List.filter_eq_nil_iff]
      exact List.find?_eq_none.mp hfind
    rw [made, hnil, total_nil, Int.sub_zero]
    rfl
  | some f =>
    have hf := List.mem_of_find?_eq_some hfind
    have hid : f.makerOrderId = o.id := by simpa using List.find?_some hfind
    have hone : (fills.filter fun g => g.makerOrderId = o.id) = [f] := by
      rw [← hid]
      exact filter_eq_singleton hnodup hf
    obtain ⟨hfpos, hfle⟩ := hle f hf hid
    rw [made, hone, total_cons, total_nil]
    dsimp only
    by_cases hlt : f.quantity < o.quantity
    · rw [if_pos hlt]
      have hsub := toInt_sub_part (a := o.quantity) (b := f.quantity) (by omega) hfle
      change (o.quantity - f.quantity).toInt = _
      omega
    · rw [if_neg hlt]
      rw [Int64.lt_iff_toInt_lt] at hlt
      change (0 : Int) = _
      omega

/-! ## Sane lists -/

/-- Orders with different ids, each with something left. -/
structure Sane (q : Resting) : Prop where
  ids : (q.map Order.id).Nodup
  pos : ∀ o ∈ q, 0 < o.quantity.toInt

theorem sane_nil : Sane [] := ⟨List.nodup_nil, fun _ ho => absurd ho List.not_mem_nil⟩

variable {q : Resting} {id : UInt64}

theorem getOrder_eq_none : q.getOrder id = none ↔ id ∉ q.map Order.id := by
  rw [getOrder, List.find?_eq_none, List.mem_map]
  constructor
  · rintro h ⟨o, ho, hid⟩
    exact h o ho (decide_eq_true hid)
  · intro h o ho hid
    exact h ⟨o, ho, of_decide_eq_true hid⟩

theorem getOrder_append (q r : Resting) (id : UInt64) :
    getOrder (q ++ r) id = (q.getOrder id).or (r.getOrder id) := List.find?_append

/-- An order that stays keeps its id, so an id is found again where it was. -/
theorem getOrder_filterMap {f : Order → Option Order}
    (hf : ∀ {o o'}, f o = some o' → o'.id = o.id) (hids : (q.map Order.id).Nodup) (id : UInt64) :
    getOrder (q.filterMap f) id = (q.getOrder id).bind f := by
  ext o'
  rw [getOrder_eq_some (hids.sublist (map_filterMap_sublist Order.id hf q)), Option.bind_eq_some_iff,
    List.mem_filterMap]
  constructor
  · rintro ⟨⟨o, ho, hfo⟩, hid⟩
    exact ⟨o, (getOrder_eq_some hids).mpr ⟨ho, (hf hfo).symm.trans hid⟩, hfo⟩
  · rintro ⟨o, hget, hfo⟩
    obtain ⟨ho, hid⟩ := (getOrder_eq_some hids).mp hget
    exact ⟨⟨o, ho, hfo⟩, (hf hfo).trans hid⟩

theorem getOrder_settle (hids : (q.map Order.id).Nodup) (fills : List Fill) (id : UInt64) :
    getOrder (q.filterMap (settle fills)) id = (q.getOrder id).bind (settle fills) :=
  getOrder_filterMap (fun hs => (settle_same hs).1) hids id

theorem getOrder_ite_of_ne {i : UInt64} {o : Order} (hne : i ≠ o.id) (P : Prop) [Decidable P] :
    getOrder (if P then [o] else []) i = none := by
  rw [getOrder_eq_none]
  split_ifs
  · rw [List.map_singleton, List.mem_singleton]
    exact hne
  · exact List.not_mem_nil

/-- A new order behind the others. -/
theorem Sane.concat {o : Order} (h : q.Sane) (hnew : q.getOrder o.id = none)
    (hpos : 0 < o.quantity.toInt) : Sane (q ++ [o]) := by
  constructor
  · rw [List.map_append, List.map_singleton]
    refine List.nodup_append.mpr ⟨h.ids, List.nodup_singleton _, ?_⟩
    intro i hi j hj heq
    have hid : i = o.id := heq.trans (List.mem_singleton.mp hj)
    exact getOrder_eq_none.mp hnew (hid ▸ hi)
  · intro o' ho'
    rcases List.mem_append.mp ho' with ho' | ho'
    · exact h.pos o' ho'
    · obtain rfl := List.mem_singleton.mp ho'
      exact hpos

/-! ## An accepted order -/

section Accepted

variable {side : Side} {price quantity : Int64} {fills : List Fill} {rest : Int64}

/-- The orders after an order of the list has been walked against them. -/
def afterFills (q : Resting) (id : UInt64) (side : Side) (price : Int64) (sequence : UInt64)
    (fills : List Fill) (rest : Int64) : Resting :=
  q.filterMap (settle fills) ++
    if rest > 0 then
      [{ id := id, side := side, price := price, quantity := rest, sequence := sequence }]
    else []

theorem newOrder_of_accepted (hq : 0 < quantity) (hnew : q.getOrder id = none)
    (sequence : UInt64) :
    q.newOrder id side price quantity sequence =
      ((walkMakers side id quantity (q.makers side price)).1,
        q.afterFills id side price sequence (walkMakers side id quantity (q.makers side price)).1
          (walkMakers side id quantity (q.makers side price)).2) := by
  have hno : ¬ (quantity ≤ 0 ∨ (q.getOrder id).isSome) := by
    rw [hnew]
    rintro (hle | hsome)
    · exact Int64.not_le.mpr hq hle
    · cases hsome
  rw [newOrder, if_neg hno]
  rfl

/-- An order is rejected and leaves everything as it is, or it is new and has a quantity. -/
theorem newOrder_cases (q : Resting) (id : UInt64) (side : Side) (price quantity : Int64)
    (sequence : UInt64) :
    q.newOrder id side price quantity sequence = ([], q) ∨ 0 < quantity ∧ q.getOrder id = none := by
  by_cases hrej : quantity ≤ 0 ∨ (q.getOrder id).isSome
  · exact Or.inl (if_pos hrej)
  · rw [not_or, Int64.not_le, Bool.not_eq_true, Option.isSome_eq_false_iff,
      Option.isNone_iff_eq_none] at hrej
    exact Or.inr hrej

/-- The walk of an accepted order. -/
theorem Sane.walked (h : q.Sane) (hq : 0 < quantity) (id : UInt64) :
    Walked side id quantity (q.makers side price)
      (walkMakers side id quantity (q.makers side price)).1
      (walkMakers side id quantity (q.makers side price)).2 := by
  have hpos := toInt_pos.mp hq
  exact Resting.walked side id (by omega) fun o ho => h.pos o (mem_makers.mp ho).1.1

variable (h : q.Sane) (hw : Walked side id quantity (q.makers side price) fills rest)
include h hw

/-- A fill takes a part of the resting order it names. -/
theorem Walked.of_resting {f : Fill} (hf : f ∈ fills) :
    ∃ o, q.getOrder f.makerOrderId = some o ∧ o.side = side.opposite ∧ 0 < f.quantity.toInt ∧
      f.quantity.toInt ≤ o.quantity.toInt := by
  obtain ⟨o, ho, hid, hpos, hle⟩ := hw.maker f hf
  obtain ⟨⟨ho, hside⟩, -⟩ := mem_makers.mp ho
  exact ⟨o, (getOrder_eq_some h.ids).mpr ⟨ho, hid.symm⟩, hside, hpos, hle⟩

theorem Walked.nodup : (fills.map Fill.makerOrderId).Nodup :=
  (nodup_makers h.ids side price).sublist hw.makers

theorem Walked.quantityOf_settle {o : Order} (ho : o ∈ q) :
    quantityOf (settle fills o) = o.quantity.toInt - made fills o.id := by
  refine Resting.quantityOf_settle (hw.nodup h) fun f hf hid => ?_
  obtain ⟨o', hget, -, hpos, hle⟩ := hw.of_resting h hf
  rw [hid, (getOrder_eq_some h.ids).mpr ⟨ho, rfl⟩] at hget
  obtain rfl := Option.some.inj hget
  exact ⟨hpos, hle⟩

theorem Walked.made_eq_zero {i : UInt64} (hi : q.getOrder i = none) : made fills i = 0 := by
  have hnil : (fills.filter fun f => f.makerOrderId = i) = [] := by
    rw [List.filter_eq_nil_iff]
    intro f hf hid
    obtain ⟨o, hget, -⟩ := hw.of_resting h hf
    rw [of_decide_eq_true hid, hi] at hget
    cases hget
  rw [made, hnil, total_nil]

theorem Walked.settle_pos {o o' : Order} (ho : o ∈ q) (hs : settle fills o = some o') :
    0 < o'.quantity.toInt := by
  unfold settle at hs
  split at hs
  · obtain rfl := Option.some.inj hs
    exact h.pos o ho
  · next f hfind =>
    split at hs
    · next hlt =>
      obtain rfl := Option.some.inj hs
      have hf := List.mem_of_find?_eq_some hfind
      have hid : f.makerOrderId = o.id := by simpa using List.find?_some hfind
      obtain ⟨o', hget, -, hpos, hle⟩ := hw.of_resting h hf
      rw [Int64.lt_iff_toInt_lt] at hlt
      have hsub := toInt_sub_part (a := o.quantity) (b := f.quantity) (by omega) (by omega)
      change 0 < (o.quantity - f.quantity).toInt
      omega
    · cases hs

/-- What is left of the orders that rested before. -/
theorem Walked.left_resting {i : UInt64} (hne : i ≠ id) (sequence : UInt64) :
    quantityOf ((q.afterFills id side price sequence fills rest).getOrder i) =
      quantityOf (q.getOrder i) - made fills i := by
  rw [afterFills, getOrder_append, getOrder_ite_of_ne hne, Option.or_none, getOrder_settle h.ids]
  cases hget : q.getOrder i with
  | none =>
    rw [hw.made_eq_zero h hget]
    rfl
  | some o =>
    obtain ⟨ho, hid⟩ := (getOrder_eq_some h.ids).mp hget
    rw [← hid]
    exact hw.quantityOf_settle h ho

/-- What is left of the order itself. -/
theorem Walked.left_taker (hnew : q.getOrder id = none) (sequence : UInt64) :
    quantityOf ((q.afterFills id side price sequence fills rest).getOrder id) = rest.toInt := by
  rw [afterFills, getOrder_append, getOrder_settle h.ids, hnew, Option.bind_none,
    Option.none_or]
  split_ifs with hpos
  · simp [getOrder, quantityOf]
  · have hrest := hw.rest_nonneg
    rw [gt_iff_lt, toInt_pos] at hpos
    change (0 : Int) = _
    omega

theorem Walked.sane (hnew : q.getOrder id = none) (sequence : UInt64) :
    Sane (q.afterFills id side price sequence fills rest) := by
  have hsettled : Sane (q.filterMap (settle fills)) := by
    refine ⟨h.ids.sublist (map_filterMap_sublist Order.id (fun hs => (settle_same hs).1) q), ?_⟩
    intro o ho
    obtain ⟨o₀, ho₀, hs⟩ := List.mem_filterMap.mp ho
    exact hw.settle_pos h ho₀ hs
  unfold afterFills
  split_ifs with hpos
  · refine hsettled.concat ?_ (toInt_pos.mp hpos)
    rw [getOrder_settle h.ids, hnew, Option.bind_none]
  · rw [List.append_nil]
    exact hsettled

end Accepted

/-! ## Other calls -/

theorem getOrder_without_self (q : Resting) (id : UInt64) : (q.without id).getOrder id = none := by
  rw [getOrder_eq_none, List.mem_map]
  rintro ⟨o, ho, hid⟩
  exact of_decide_eq_true (List.mem_filter.mp ho).2 hid

theorem getOrder_without_of_ne {i : UInt64} (hids : (q.map Order.id).Nodup) (hne : i ≠ id) :
    (q.without id).getOrder i = q.getOrder i := by
  have hids' : ((q.without id).map Order.id).Nodup := hids.sublist (List.filter_sublist.map _)
  ext o
  rw [getOrder_eq_some hids', getOrder_eq_some hids, without, List.mem_filter]
  constructor
  · rintro ⟨⟨ho, -⟩, hid⟩
    exact ⟨ho, hid⟩
  · rintro ⟨ho, hid⟩
    exact ⟨⟨ho, decide_eq_true (hid ▸ hne)⟩, hid⟩

theorem Sane.without (h : q.Sane) (id : UInt64) : (q.without id).Sane :=
  ⟨h.ids.sublist (List.filter_sublist.map _), fun o ho => h.pos o (List.mem_filter.mp ho).1⟩

end Resting

/-! ## Lifetimes -/

/-- A call gives an order its quantity: it is accepted, or it rests and is modified. `before` is the
order in the book before the call. -/
def Call.Opens (id : UInt64) (quantity : Int64) (before : Option Order) : Call → Prop
  | .newOrder i _ _ q _ _ => i = id ∧ q = quantity ∧ 0 < quantity ∧ before = none
  | .modifyOrder i _ q _ _ => i = id ∧ q = quantity ∧ 0 < quantity ∧ before ≠ none
  | _ => False

/-- A call takes an order out of the book or replaces it. -/
def Call.Ends (id : UInt64) : Call → Prop
  | .cancelOrder i => i = id
  | .modifyOrder i _ _ _ _ => i = id
  | .reset _ => True
  | _ => False

/-- A fill in the answer to a new order, after the fills `before` of the same answer: it names the
new order and another one that rests on the other side, and takes no more than is left of each. -/
structure ValidFill (getOrder : UInt64 → Option Order) (id : UInt64) (side : Side)
    (quantity : Int64) (before : List Fill) (f : Fill) : Prop where
  taker : f.takerOrderId = id
  takerSide : f.takerSide = side
  distinct : f.makerOrderId ≠ f.takerOrderId
  pos : 0 < f.quantity
  taker_live : f.quantity.toInt ≤ quantity.toInt - total before
  maker_live : ∃ o, getOrder f.makerOrderId = some o ∧ o.side = side.opposite ∧
    f.quantity.toInt ≤ o.quantity.toInt - made before f.makerOrderId

/-- Only new orders are answered with fills, and each of them is valid. -/
def Call.FillsValid (getOrder : UInt64 → Option Order) : Call → Answer → Prop
  | .newOrder id side _ quantity _ _, .fills fills =>
    ∀ before f after, fills = before ++ f :: after →
      ValidFill getOrder id side quantity before f
  | _, .fills _ => False
  | _, _ => True

namespace Resting

variable {q : Resting} {id : UInt64} {c : Call}

theorem Sane.call (h : q.Sane) (hc : c.trades = true) : (q.call c).2.Sane := by
  cases c with
  | newOrder i side price quantity sequence coins =>
    change (q.newOrder i side price quantity sequence).2.Sane
    rcases q.newOrder_cases i side price quantity sequence with hrej | ⟨hpos, hnew⟩
    · rw [hrej]
      exact h
    · rw [newOrder_of_accepted hpos hnew]
      exact (h.walked hpos i).sane h hnew sequence
  | cancelOrder i => exact h.without i
  | modifyOrder i newPrice newQuantity newSequence coins =>
    change (q.modifyOrder i newPrice newQuantity newSequence).2.Sane
    unfold Resting.modifyOrder
    cases q.getOrder i with
    | none => exact h
    | some o =>
      dsimp only
      split_ifs with hpos
      · exact (h.without i).concat (getOrder_without_self q i) (toInt_pos.mp hpos)
      · rw [List.append_nil]
        exact h.without i
  | addRestingOrder o coins => cases hc
  | reset symbol => exact sane_nil

/-- All fills of a walk name the taker. -/
theorem Walked.filled_taker {side : Side} {quantity : Int64} {makers : List Order}
    {fills : List Fill} {rest : Int64} (hw : Walked side id quantity makers fills rest) :
    filled id (.fills fills) = total fills := by
  have hall : (fills.filter fun f => f.makerOrderId = id ∨ f.takerOrderId = id) = fills := by
    rw [List.filter_eq_self]
    intro f hf
    exact decide_eq_true (Or.inr (hw.taker f hf).1)
  rw [filled, hall]

/-- Another order is named as a maker only. -/
theorem Walked.filled_maker {i : UInt64} {side : Side} {quantity : Int64} {makers : List Order}
    {fills : List Fill} {rest : Int64} (hw : Walked side i quantity makers fills rest)
    (hne : id ≠ i) : filled id (.fills fills) = made fills id := by
  have hsame : (fills.filter fun f => f.makerOrderId = id ∨ f.takerOrderId = id) =
      fills.filter fun f => f.makerOrderId = id := by
    refine List.filter_congr fun f hf => ?_
    have htaker : f.takerOrderId ≠ id := by
      rw [(hw.taker f hf).1]
      exact hne.symm
    simp [htaker]
  rw [filled, hsame, made]

/-- The call that opens a lifetime. -/
theorem Sane.opened (h : q.Sane) {quantity : Int64} (hc : c.Opens id quantity (q.getOrder id)) :
    filled id (q.call c).1 + quantityOf ((q.call c).2.getOrder id) = quantity.toInt := by
  cases c with
  | newOrder i side price quantity' sequence coins =>
    obtain ⟨rfl, rfl, hpos, hnew⟩ := hc
    have hw : Walked side i quantity' (q.makers side price) _ _ := h.walked hpos i
    change filled i (.fills (q.newOrder i side price quantity' sequence).1) +
      quantityOf ((q.newOrder i side price quantity' sequence).2.getOrder i) = _
    rw [newOrder_of_accepted hpos hnew, hw.filled_taker]
    dsimp only
    rw [hw.left_taker h hnew]
    exact hw.sum
  | modifyOrder i newPrice newQuantity newSequence coins =>
    obtain ⟨rfl, rfl, hpos, hrests⟩ := hc
    obtain ⟨o, ho⟩ := Option.ne_none_iff_exists'.mp hrests
    change 0 + quantityOf ((q.modifyOrder i newPrice newQuantity newSequence).2.getOrder i) = _
    rw [modifyOrder, ho]
    dsimp only
    rw [if_pos hpos, getOrder_append, getOrder_without_self, Option.none_or, Int.zero_add]
    simp [getOrder, quantityOf]
  | cancelOrder _ | addRestingOrder _ _ | reset _ => exact hc.elim

/-- A call during a lifetime. -/
theorem Sane.carried (h : q.Sane) (hc : c.trades = true) (hrests : q.getOrder id ≠ none)
    (hends : ¬ c.Ends id) :
    filled id (q.call c).1 + quantityOf ((q.call c).2.getOrder id) =
      quantityOf (q.getOrder id) := by
  cases c with
  | newOrder i side price quantity sequence coins =>
    change filled id (.fills (q.newOrder i side price quantity sequence).1) +
      quantityOf ((q.newOrder i side price quantity sequence).2.getOrder id) = _
    rcases q.newOrder_cases i side price quantity sequence with hrej | ⟨hpos, hnew⟩
    · rw [hrej]
      exact Int.zero_add _
    · have hne : id ≠ i := by
        rintro rfl
        exact hrests hnew
      have hw : Walked side i quantity (q.makers side price) _ _ := h.walked hpos i
      rw [newOrder_of_accepted hpos hnew, hw.filled_maker hne]
      dsimp only
      rw [hw.left_resting h hne]
      omega
  | cancelOrder i =>
    change 0 + quantityOf ((q.without i).getOrder id) = _
    rw [getOrder_without_of_ne h.ids (Ne.symm hends), Int.zero_add]
  | modifyOrder i newPrice newQuantity newSequence coins =>
    have hne : id ≠ i := Ne.symm hends
    change 0 + quantityOf ((q.modifyOrder i newPrice newQuantity newSequence).2.getOrder id) = _
    rw [modifyOrder, Int.zero_add]
    cases q.getOrder i with
    | none => rfl
    | some o =>
      dsimp only
      rw [getOrder_append, getOrder_ite_of_ne hne, Option.or_none, getOrder_without_of_ne h.ids hne]
  | addRestingOrder o coins => cases hc
  | reset symbol => exact absurd trivial hends

/-- The fills of one call. -/
theorem Sane.fillsValid (h : q.Sane) (hc : c.trades = true) :
    c.FillsValid q.getOrder (q.call c).1 := by
  cases c with
  | newOrder i side price quantity sequence coins =>
    change ∀ before f after,
      (q.newOrder i side price quantity sequence).1 = before ++ f :: after → _
    intro before f after hfills
    rcases q.newOrder_cases i side price quantity sequence with hrej | ⟨hq, hnew⟩
    · rw [hrej] at hfills
      exact absurd hfills.symm (by simp)
    · have hw : Walked side i quantity (q.makers side price) _ _ := h.walked hq i
      rw [newOrder_of_accepted hq hnew] at hfills
      dsimp only at hfills
      rw [hfills] at hw
      have hf : f ∈ before ++ f :: after := by simp
      obtain ⟨o, hget, hside, hpos, hle⟩ := hw.of_resting h hf
      refine ⟨(hw.taker f hf).1, (hw.taker f hf).2, ?_, toInt_pos.mpr hpos, ?_,
        ⟨o, hget, hside, ?_⟩⟩
      · rw [(hw.taker f hf).1]
        intro heq
        rw [heq, hnew] at hget
        cases hget
      · have hsum := hw.sum
        have hrest := hw.rest_nonneg
        have hafter : 0 ≤ total after := total_nonneg fun g hg => by
          obtain ⟨-, -, -, hgpos, -⟩ := hw.of_resting h (f := g) (by simp [hg])
          omega
        rw [total_append, total_cons] at hsum
        omega
      · -- an earlier fill of the same maker would repeat its id
        have hnil : (before.filter fun g => g.makerOrderId = f.makerOrderId) = [] := by
          rw [List.filter_eq_nil_iff]
          intro g hg heq
          have hnodup := hw.nodup h
          rw [List.map_append, List.map_cons, List.nodup_append] at hnodup
          exact hnodup.2.2 _ (List.mem_map.mpr ⟨g, hg, rfl⟩) _ List.mem_cons_self
            (of_decide_eq_true heq)
        rw [made, hnil, total_nil]
        omega
  | cancelOrder i => trivial
  | modifyOrder i newPrice newQuantity newSequence coins => trivial
  | addRestingOrder o coins => cases hc
  | reset symbol => trivial

/-- The order rests before each call, and none of them ends its lifetime. -/
def Lasts (q : Resting) (id : UInt64) : List Call → Prop
  | [] => True
  | c :: calls => q.getOrder id ≠ none ∧ ¬ c.Ends id ∧ (q.call c).2.Lasts id calls

/-- The calls of a lifetime. -/
theorem Sane.run (h : q.Sane) {calls : List Call} (hcalls : ∀ c ∈ calls, c.trades = true)
    (hlasts : q.Lasts id calls) :
    ((q.run calls).1.map (filled id)).sum + quantityOf ((q.run calls).2.getOrder id) =
      quantityOf (q.getOrder id) := by
  induction calls generalizing q with
  | nil => exact Int.zero_add _
  | cons c calls ih =>
    rw [List.forall_mem_cons] at hcalls
    obtain ⟨hrests, hends, hlasts⟩ := hlasts
    have hone := h.carried hcalls.1 hrests hends
    have hrest := ih (h.call hcalls.1) hcalls.2 hlasts
    change filled id (q.call c).1 + (((q.call c).2.run calls).1.map (filled id)).sum +
      quantityOf (((q.call c).2.run calls).2.getOrder id) = _
    omega

theorem sane_run {calls : List Call} (hcalls : ∀ c ∈ calls, c.trades = true) :
    Sane (Resting.run [] calls).2 := by
  induction calls using List.reverseRecOn with
  | nil => exact sane_nil
  | append_singleton calls c ih =>
    rw [run_concat]
    exact (ih fun d hd => hcalls d (List.mem_append_left _ hd)).call
      (hcalls c (List.mem_append_right _ List.mem_cons_self))

theorem lasts_of_forall {calls : List Call}
    (h : ∀ xs d ys, calls = xs ++ d :: ys →
      (q.run xs).2.getOrder id ≠ none ∧ ¬ d.Ends id) : q.Lasts id calls := by
  induction calls generalizing q with
  | nil => trivial
  | cons c calls ih =>
    obtain ⟨hrests, hends⟩ := h [] c calls rfl
    refine ⟨hrests, hends, ih fun xs d ys hsplit => ?_⟩
    exact h (c :: xs) d ys (by rw [hsplit]; rfl)

end Resting

/-! ## Books -/

section Books

variable {L : Side → Type} [∀ s, Levels (L s)]

/-- The lifetime that `c` opens goes on through `calls`: the order rests before each of them, and
none of them cancels or modifies it. -/
def Book.Lasts (b : Book L) (id : UInt64) (c : Call) (calls : List Call) : Prop :=
  ∀ xs d ys, calls = xs ++ d :: ys → ∀ answers b', b.run (c :: xs) = .ok (answers, b') →
    b'.getOrder id ≠ none ∧ ¬ d.Ends id

variable [LawfulLevels L]

theorem Tracks.lasts {b : Book L} {symbol : Bytes} {q : Resting} (h : Tracks b symbol q)
    {id : UInt64} {c : Call} {calls : List Call} (hcalls : ∀ d ∈ c :: calls, d.trades = true)
    (hlasts : b.Lasts id c calls) : (q.call c).2.Lasts id calls := by
  refine Resting.lasts_of_forall fun xs d ys hsplit => ?_
  have htrades : ∀ d' ∈ c :: xs, d'.trades = true := by
    intro d' hd'
    refine hcalls d' ?_
    rw [hsplit]
    exact List.mem_append_left (d :: ys) hd'
  obtain ⟨b', hrun, htracks⟩ := h.run (Resting.admitsAll_of_trades htrades q)
  have hstate := hlasts xs d ys hsplit _ b' hrun
  rw [htracks.shows.getOrder] at hstate
  exact hstate

/-- **Quantity conservation.** Any call of a run on an empty book, and the calls after it: the fills
it is answered with are valid, and if it opens the lifetime of an order that lasts through the
calls after it, the fills that name the order in this time and what is left of it in the end are
the quantity it was given. -/
theorem quantity_conserved (symbol : Bytes) (done : List Call) (c : Call) (calls : List Call)
    (hcalls : ∀ d ∈ done ++ c :: calls, d.trades = true) :
    ∃ answers, ∃ b : Book L, (Book.new symbol).run done = .ok (answers, b) ∧
      (∃ answer b', b.call c = .ok (answer, b') ∧ c.FillsValid b.getOrder answer) ∧
      ∀ id quantity, c.Opens id quantity (b.getOrder id) → b.Lasts id c calls →
        ∃ answers' b', b.run (c :: calls) = .ok (answers', b') ∧
          (answers'.map (filled id)).sum + Resting.quantityOf (b'.getOrder id) =
            quantity.toInt := by
  have hdone : ∀ d ∈ done, d.trades = true := fun d hd => hcalls d (List.mem_append_left _ hd)
  have hrest : ∀ d ∈ c :: calls, d.trades = true := fun d hd => hcalls d (List.mem_append_right _ hd)
  have hc : c.trades = true := hrest c List.mem_cons_self
  obtain ⟨b, hrun, h⟩ :=
    (Tracks.new symbol : Tracks (Book.new symbol : Book L) symbol []).run
      (Resting.admitsAll_of_trades hdone [])
  have hsane := Resting.sane_run hdone
  generalize (Resting.run [] done).2 = q at h hsane
  have hget : b.getOrder = q.getOrder := funext h.shows.getOrder
  refine ⟨_, b, hrun, ?_, fun id quantity hopens hlasts => ?_⟩
  · obtain ⟨b', hcall, -⟩ := h.call (Resting.admitsAll_of_trades hrest q).1
    refine ⟨_, b', hcall, ?_⟩
    rw [hget]
    exact hsane.fillsValid hc
  · obtain ⟨b', hrun', h'⟩ := h.run (Resting.admitsAll_of_trades hrest q)
    rw [hget] at hopens
    have hopened := hsane.opened hopens
    have hcarried := (hsane.call hc).run (fun d hd => hrest d (List.mem_cons_of_mem c hd))
      (h.lasts hrest hlasts)
    refine ⟨_, b', hrun', ?_⟩
    rw [h'.shows.getOrder]
    change filled id (q.call c).1 + (((q.call c).2.run calls).1.map (filled id)).sum +
      Resting.quantityOf (((q.call c).2.run calls).2.getOrder id) = _
    omega

end Books

/-- A book with one ask of 4. -/
def oneAsk : MapOrderBook := ((Book.new []).newOrder 1 .sell 100 4 1 []).2

/-- A bid of 9 takes the 4 and rests; as a maker it then gives 3 away, and 2 are left of it. -/
theorem quantity_conserved_three_orders :
    (Book.new []).run [.newOrder 1 .sell 100 4 1 []] = .ok ([.fills []], oneAsk) ∧
      ∃ answers, ∃ b : MapOrderBook,
        oneAsk.run [.newOrder 2 .buy 100 9 2 [], .newOrder 3 .sell 90 3 3 []] = .ok (answers, b) ∧
          (answers.map (filled 2)).sum + Resting.quantityOf (b.getOrder 2) = 9 ∧
          Resting.quantityOf (b.getOrder 2) = 2 := by
  have hstart : (Book.new []).run [.newOrder 1 .sell 100 4 1 []] = .ok ([.fills []], oneAsk) := rfl
  refine ⟨hstart, ?_⟩
  obtain ⟨answers, b, hrun, -, hall⟩ := quantity_conserved (L := MapLevels) []
    [.newOrder 1 .sell 100 4 1 []] (.newOrder 2 .buy 100 9 2 []) [.newOrder 3 .sell 90 3 3 []]
    (by decide)
  obtain ⟨rfl, rfl⟩ := Prod.mk.inj (Except.ok.inj (hrun.symm.trans hstart))
  have hlasts : oneAsk.Lasts 2 (.newOrder 2 .buy 100 9 2 []) [.newOrder 3 .sell 90 3 3 []] := by
    intro xs d ys hsplit answers b hrun
    cases xs with
    | nil =>
      obtain ⟨rfl, rfl⟩ := List.cons.inj hsplit
      obtain ⟨rfl, rfl⟩ := Prod.mk.inj (Except.ok.inj (hrun.symm.trans rfl))
      exact ⟨by decide, fun h => h⟩
    | cons x xs => cases xs <;> cases hsplit
  obtain ⟨answers, b, hrun, hsum⟩ := hall 2 9 ⟨rfl, rfl, by decide, by decide⟩ hlasts
  refine ⟨answers, b, hrun, hsum, ?_⟩
  obtain ⟨rfl, rfl⟩ := Prod.mk.inj (Except.ok.inj (hrun.symm.trans rfl))
  decide

end NexusLOB.Lob
