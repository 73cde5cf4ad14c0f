import NexusLOB.Book.Outcomes

/-!
# L2 depth

`bids` and `asks` add up the quantities at each price in a signed 64-bit word and count the orders
in an unsigned 32-bit one. Quantities are only checked to be positive when they come in, so the
sum of what rests at one price has no bound of its own: a level is shown exactly when its sum and
its count fit, and then no sum along the loop leaves the range either.
-/

namespace NexusLOB.Lob

open Codec OrderProtocol Resting

namespace Resting

/-- The prices of the first `maxLevels` levels of a side, best first; all of them for 0. -/
def shownPrices (q : Resting) (s : Side) (maxLevels : Nat) : List Int64 :=
  if maxLevels = 0 then q.prices s else (q.prices s).take maxLevels

/-- The quantities of some orders together. -/
def quantities (orders : List Order) : Int := (orders.map fun o => o.quantity.toInt).sum

/-- What is shown of the level at `p` is what rests there. -/
structure Exact (q : Resting) (s : Side) (p : Int64) (pl : PriceLevel) : Prop where
  price : pl.price = p
  inRange : ∀ part, part <+: q.level s p → quantities part ≤ Int64.maxValue.toInt
  total : pl.totalQuantity.toInt = quantities (q.level s p)
  count : pl.orderCount.toNat = (q.level s p).length

theorem quantities_cons (o : Order) (orders : List Order) :
    quantities (o :: orders) = o.quantity.toInt + quantities orders := rfl

theorem quantities_append (orders more : List Order) :
    quantities (orders ++ more) = quantities orders + quantities more := by
  simp [quantities]

theorem quantities_nonneg {orders : List Order} (h : ∀ o ∈ orders, 0 < o.quantity.toInt) :
    0 ≤ quantities orders := by
  induction orders with
  | nil => exact Int.le_refl 0
  | cons o orders ih =>
    rw [List.forall_mem_cons] at h
    have hrest := ih h.2
    rw [quantities_cons]
    omega

/-- A sum of words that fits is the sum of the quantities. -/
theorem toInt_sum {orders : List Order} (h : ∀ o ∈ orders, 0 < o.quantity.toInt)
    (hle : quantities orders ≤ Int64.maxValue.toInt) :
    (orders.map Order.quantity).sum.toInt = quantities orders := by
  induction orders with
  | nil => rfl
  | cons o orders ih =>
    rw [List.forall_mem_cons] at h
    have hrest := quantities_nonneg h.2
    have ho := h.1
    rw [quantities_cons] at hle
    have hsum := ih h.2 (by omega)
    rw [List.map_cons, List.sum_cons, quantities_cons, toInt_add_part (by omega) (by omega)
      (by omega), hsum]

theorem exact_priceLevel_iff {q : Resting} (h : q.Sane) (s : Side) (price : Int64) :
    q.Exact s price (q.priceLevel s price) ↔
      quantities (q.level s price) ≤ Int64.maxValue.toInt ∧ (q.level s price).length < 2 ^ 32 := by
  have hpos : ∀ o ∈ q.level s price, 0 < o.quantity.toInt := fun o ho => h.pos o (mem_level.mp ho).1
  constructor
  · intro hexact
    refine ⟨hexact.inRange _ (List.prefix_refl _), ?_⟩
    rw [← hexact.count]
    exact UInt32.toNat_lt _
  · rintro ⟨hsum, hcount⟩
    refine ⟨rfl, ?_, toInt_sum hpos hsum, ?_⟩
    · rintro part ⟨more, heq⟩
      rw [← heq] at hpos hsum
      have hmore := quantities_nonneg fun o ho => hpos o (List.mem_append_right _ ho)
      rw [quantities_append] at hsum
      omega
    · change (UInt32.ofNat (q.level s price).length).toNat = _
      rw [UInt32.toNat_ofNat', Nat.mod_eq_of_lt hcount]

/-- The depth of a side is exact if each level that is shown fits. -/
theorem depth_exact_iff {q : Resting} (h : q.Sane) (s : Side) (maxLevels : Nat) :
    List.Forall₂ (q.Exact s) (q.shownPrices s maxLevels) (q.depth s maxLevels) ↔
      ∀ price ∈ q.shownPrices s maxLevels, quantities (q.level s price) ≤ Int64.maxValue.toInt ∧
        (q.level s price).length < 2 ^ 32 := by
  change List.Forall₂ _ _ ((q.shownPrices s maxLevels).map (q.priceLevel s)) ↔ _
  rw [List.forall₂_map_right_iff, List.forall₂_same]
  exact forall₂_congr fun price _ => exact_priceLevel_iff h s price

theorem Alike.depth_eq {q q' : Resting} (h : q.Alike q') (s : Side) (maxLevels : Nat) :
    q.depth s maxLevels = q'.depth s maxLevels := by
  unfold depth
  rw [h.prices_eq]
  refine List.map_congr_left fun price _ => ?_
  rw [priceLevel, priceLevel, h s price]

theorem Alike.sane {q q' : Resting} (h : q.Alike q') (hq : q.Sane) : q'.Sane where
  ids := (h.perm.map Order.id).nodup_iff.mp hq.ids
  pos := fun o ho => hq.pos o (h.perm.mem_iff.mpr ho)

end Resting

section Machine

variable {L : Side → Type} [∀ s, Levels (L s)]

/-- `bids` or `asks`. -/
def Book.shown (b : Book L) : Side → Nat → List PriceLevel
  | .buy => b.bids
  | .sell => b.asks

variable [LawfulLevels L]

theorem Tracks.shown_eq {b : Book L} {symbol : Bytes} {q : Resting} (h : Tracks b symbol q)
    (s : Side) (maxLevels : Nat) : b.shown s maxLevels = q.depth s maxLevels := by
  cases s with
  | buy => exact h.shows.bids maxLevels
  | sell => exact h.shows.asks maxLevels

/-- The book lists the orders that the flat list has at each price, in the same order. -/
theorem Tracks.alike_allOrders {b : Book L} {symbol : Bytes} {q : Resting} (h : Tracks b symbol q) :
    q.Alike b.allOrders := by
  rw [h.allOrders_eq]
  exact q.alike_listed

/-- **L2 depth is exact where it fits.** In every state that commands lead to and for every
`maxLevels`: what `bids` and `asks` show is, level by level, what rests at the first `maxLevels`
prices, best first, if and only if at each of these prices the quantities add up to an `int64_t` and
the orders to a `uint32_t`. -/
theorem l2_depth_exact_iff {symbol : Bytes} {commands : List (Bytes × Coins)}
    {results : List Bytes} {m : LOBStateMachine L}
    (hrun : (LOBStateMachine.new symbol).applyAll commands = .ok (results, m)) (s : Side)
    (maxLevels : Nat) :
    List.Forall₂ (Resting.Exact m.book_.allOrders s)
        (Resting.shownPrices m.book_.allOrders s maxLevels) (m.book_.shown s maxLevels) ↔
      ∀ price ∈ Resting.shownPrices m.book_.allOrders s maxLevels,
        quantities (Resting.level m.book_.allOrders s price) ≤ Int64.maxValue.toInt ∧
          (Resting.level m.book_.allOrders s price).length < 2 ^ 32 := by
  obtain ⟨q, hq, hsane⟩ := LOBStateMachine.sane_of_applyAll hrun
  have halike := hq.alike_allOrders
  rw [hq.shown_eq, halike.depth_eq]
  exact depth_exact_iff (halike.sane hsane) s maxLevels

end Machine

/-- The commands of two bids at one price. -/
def twoBidCommands (quantity quantity' : Int64) : List (Bytes × Coins) :=
  [(encodeNew 1 .buy 100 quantity, []), (encodeNew 2 .buy 100 quantity', [])]

/-- The machine they lead to. -/
def twoBidMachine (quantity quantity' : Int64) : LOBStateMachine MapLevels :=
  { book_ := (((Book.new []).newOrder 1 .buy 100 quantity 1 []).2.newOrder 2 .buy 100 quantity' 2
      []).2
    nextSeq_ := 3 }

theorem l2_depth_exact_iff_two_bids :
    (LOBStateMachine.new []).applyAll (twoBidCommands 5 7) =
        .ok ([encodeNewResult [] true 5, encodeNewResult [] true 7], twoBidMachine 5 7) ∧
      List.Forall₂ (Resting.Exact (twoBidMachine 5 7).book_.allOrders .buy)
        (Resting.shownPrices (twoBidMachine 5 7).book_.allOrders .buy 1)
        ((twoBidMachine 5 7).book_.shown .buy 1) := by
  have hrun : (LOBStateMachine.new []).applyAll (twoBidCommands 5 7) =
      .ok ([encodeNewResult [] true 5, encodeNewResult [] true 7], twoBidMachine 5 7) := by
    rfl
  have hprices : Resting.shownPrices (twoBidMachine 5 7).book_.allOrders .buy 1 = [100] := by
    decide +kernel
  have hsum : quantities (Resting.level (twoBidMachine 5 7).book_.allOrders .buy 100) = 12 := by
    decide +kernel
  have hcount : (Resting.level (twoBidMachine 5 7).book_.allOrders .buy 100).length = 2 := by
    decide +kernel
  refine ⟨hrun, (l2_depth_exact_iff hrun .buy 1).mpr ?_⟩
  rw [hprices]
  intro price hprice
  rw [List.mem_singleton.mp hprice, hsum, hcount]
  exact ⟨by decide, by decide⟩

/-- Two of the largest bids at one price are shown with a total of `-2`. -/
theorem largest_bids_overflow :
    (LOBStateMachine.new []).applyAll
        (twoBidCommands 9223372036854775807 9223372036854775807) =
        .ok ([encodeNewResult [] true 9223372036854775807,
          encodeNewResult [] true 9223372036854775807],
          twoBidMachine 9223372036854775807 9223372036854775807) ∧
      (twoBidMachine 9223372036854775807 9223372036854775807).book_.bids 0 =
        [{ price := 100, totalQuantity := -2, orderCount := 2 }] ∧
      quantities (Resting.level
        (twoBidMachine 9223372036854775807 9223372036854775807).book_.allOrders .buy 100) =
        18446744073709551614 :=
  ⟨by rfl, by decide +kernel, by decide +kernel⟩

end NexusLOB.Lob
