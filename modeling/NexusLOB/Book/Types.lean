import Mathlib.Algebra.Ring.Nat
import NexusLOB.Collections.OrderedMap

/-!
# Orders, fills and price levels

The value types of the matching engines. Prices and quantities are signed and ids unsigned 64-bit
words, as in the source; arithmetic on them wraps around.

A level is a `std::list` of orders. The books keep iterators into these lists, so each list node
carries the address it was allocated at.
-/

namespace NexusLOB.Lob

open Collections

abbrev Bytes := List UInt8

inductive Side
  | buy
  | sell
  deriving DecidableEq, Repr

def Side.opposite : Side → Side
  | .buy => .sell
  | .sell => .buy

structure Order where
  id : UInt64 := 0
  side : Side := .buy
  price : Int64 := 0
  quantity : Int64 := 0
  sequence : UInt64 := 0
  deriving DecidableEq, Repr

structure Fill where
  makerOrderId : UInt64 := 0
  takerOrderId : UInt64 := 0
  price : Int64 := 0
  quantity : Int64 := 0
  takerSide : Side := .buy
  deriving DecidableEq, Repr

structure PriceLevel where
  price : Int64 := 0
  totalQuantity : Int64 := 0
  orderCount : UInt32 := 0
  deriving DecidableEq, Repr

/-- A node of a `std::list<Order>` and its address. -/
structure ListNode where
  it : Nat
  order : Order
  deriving DecidableEq, Repr

abbrev Level := List ListNode

/-- Where an order rests. -/
structure OrderLocation where
  side : Side
  price : Int64
  it : Nat
  deriving DecidableEq, Repr

/-- The comparator of a side's levels: bids from the highest price on, asks from the lowest. -/
def better : Side → Int64 → Int64 → Bool
  | .buy => greater
  | .sell => less

instance : StrictTotal (less (K := Int64)) := inferInstance

instance : StrictTotal (greater (K := Int64)) := inferInstance

instance strictTotalBetter : (s : Side) → StrictTotal (better s)
  | .buy => inferInstanceAs (StrictTotal (greater (K := Int64)))
  | .sell => inferInstanceAs (StrictTotal (less (K := Int64)))

instance strictWeakBetter (s : Side) : StrictWeak (better s) := (strictTotalBetter s).toStrictWeak

instance : StrictWeak (less (K := UInt64)) := inferInstance

/-- `unordered_map<uint64_t, OrderLocation>`, of which no iteration order is used. -/
abbrev OrderIndex := OrderedMap UInt64 OrderLocation less

/-! ## Calls of a book -/

/-- The outcomes of `dist(rng) < probability` in one call of `randomLevel`. -/
abbrev Coins := List Bool

/-- The mutations of `IOrderBook`. A call that may insert a level comes with the coin flips that the
skip list makes in it. -/
inductive Call
  | newOrder (orderId : UInt64) (side : Side) (price quantity : Int64) (sequence : UInt64)
      (coins : Coins)
  | cancelOrder (orderId : UInt64)
  | modifyOrder (orderId : UInt64) (newPrice newQuantity : Int64) (newSequence : UInt64)
      (coins : Coins)
  | addRestingOrder (o : Order) (coins : Coins)
  | reset (symbol : Bytes)
  deriving DecidableEq, Repr

/-- What a call returns. -/
inductive Answer
  | fills (fills : List Fill)
  | success (found : Bool)
  | void
  deriving DecidableEq, Repr

/-- An `Except` computation that ends well has ended well step by step. -/
theorem ok_of_bind {ε α β : Type} {x : Except ε α} {f : α → Except ε β} {b : β}
    (h : x.bind f = .ok b) : ∃ a, x = .ok a ∧ f a = .ok b := by
  cases x with
  | error e => cases h
  | ok a => exact ⟨a, rfl, h⟩

end NexusLOB.Lob
