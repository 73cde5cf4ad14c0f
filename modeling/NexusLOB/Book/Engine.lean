import NexusLOB.Book.SkipList
import NexusLOB.Book.Types

/-!
# The matching engine

`MapOrderBook` and `SkipListOrderBook` are the same code over two containers of price levels.
`Levels` lists what the code asks of a container and `Book` is the code. A call that inserts a
level takes the coin flips of the skip list as an argument; a map does not look at them.

The loop over levels removes a level or ends in every round, so as many rounds as there are levels
and one more are enough.
-/

namespace NexusLOB.Lob

open Collections

/-- `std::out_of_range`, thrown by `std::map::at`. -/
inductive OutOfRange
  | mapAt
  deriving DecidableEq, Repr

/-- A container of price levels in the order of its comparator. -/
class Levels (L : Type) where
  /-- A pointer to a level. -/
  Ref : Type
  empty : L
  size : L → Nat
  best : L → Option Ref
  find : L → Int64 → Option Ref
  /-- How `cancelOrder` gets at a level: a null pointer or an exception says that there is none. -/
  locate : L → Int64 → Except OutOfRange (Option Ref)
  key : L → Ref → Int64
  value : L → Ref → Level
  setValue : L → Ref → Level → L
  /-- Insert an empty level. -/
  insert : L → Int64 → Coins → L
  remove : L → Int64 → L
  toList : L → List (Int64 × Level)

/-- A book over containers `L .buy` and `L .sell`. -/
structure Book (L : Side → Type) where
  symbol_ : Bytes
  bids_ : L .buy
  asks_ : L .sell
  orderIndex_ : OrderIndex := .empty
  /-- The address of the next list node. -/
  nextNode : Nat := 0

/-! ## Matching -/

/-- The loop over one level: `level.front()` is matched until the level is empty or nothing
remains. If the maker is not used up, `min` took all that remained and the loop ends. -/
def fillLevel (takerSide : Side) (takerId : UInt64) :
    Int64 → Level → OrderIndex → List Fill × Int64 × Level × OrderIndex
  | remaining, [], index => ([], remaining, [], index)
  | remaining, maker :: rest, index =>
    if remaining > 0 then
      let matchQty := if maker.order.quantity < remaining then maker.order.quantity else remaining
      let f : Fill :=
        { makerOrderId := maker.order.id, takerOrderId := takerId, price := maker.order.price,
          quantity := matchQty, takerSide := takerSide }
      let quantity := maker.order.quantity - matchQty
      if quantity ≤ 0 then
        let (fills, remaining, level, index) :=
          fillLevel takerSide takerId (remaining - matchQty) rest (index.erase maker.order.id)
        (f :: fills, remaining, level, index)
      else
        ([f], remaining - matchQty,
          { maker with order := { maker.order with quantity := quantity } } :: rest, index)
    else ([], remaining, maker :: rest, index)

/-- The taker's limit excludes the best price of the other side. -/
def outOfReach : Side → Int64 → Int64 → Bool
  | .buy, takerPrice, bestPrice => takerPrice < bestPrice
  | .sell, takerPrice, bestPrice => takerPrice > bestPrice

/-- The loop over the levels of the other side. -/
def matchLevels {L : Type} [Levels L] (takerSide : Side) (takerPrice : Int64) (takerId : UInt64) :
    Nat → Int64 → L → OrderIndex → List Fill × Int64 × L × OrderIndex
  | 0, remaining, levels, index => ([], remaining, levels, index)
  | rounds + 1, remaining, levels, index =>
    if remaining > 0 then
      match Levels.best levels with
      | none => ([], remaining, levels, index)
      | some r =>
        let bestPrice := Levels.key levels r
        if outOfReach takerSide takerPrice bestPrice then ([], remaining, levels, index)
        else
          let (fills, remaining, level, index) :=
            fillLevel takerSide takerId remaining (Levels.value levels r) index
          let levels := Levels.setValue levels r level
          let levels := if level = [] then Levels.remove levels bestPrice else levels
          let (more, remaining, levels, index) :=
            matchLevels takerSide takerPrice takerId rounds remaining levels index
          (fills ++ more, remaining, levels, index)
    else ([], remaining, levels, index)

namespace Book

variable {L : Side → Type} [∀ s, Levels (L s)]

/-- The levels of a side. -/
def side (b : Book L) : (s : Side) → L s
  | .buy => b.bids_
  | .sell => b.asks_

def setSide (b : Book L) : (s : Side) → L s → Book L
  | .buy, levels => { b with bids_ := levels }
  | .sell, levels => { b with asks_ := levels }

/-- A book with no orders. -/
def new (symbol : Bytes) : Book L :=
  { symbol_ := symbol, bids_ := Levels.empty, asks_ := Levels.empty }

/-- The fills, what remains of the taker, and the book. -/
def matchOrders (b : Book L) (takerSide : Side) (takerPrice remaining : Int64) (takerId : UInt64) :
    List Fill × Int64 × Book L :=
  let levels := b.side takerSide.opposite
  let (fills, remaining, levels, index) := matchLevels takerSide takerPrice takerId
    (Levels.size levels + 1) remaining levels b.orderIndex_
  (fills, remaining, { b.setSide takerSide.opposite levels with orderIndex_ := index })

def addResting (b : Book L) (o : Order) (coins : Coins) : Book L :=
  let levels := b.side o.side
  let levels :=
    match Levels.find levels o.price with
    | some _ => levels
    | none => Levels.insert levels o.price coins
  match Levels.find levels o.price with
  | none => b
  | some r =>
    let level := Levels.value levels r ++ [{ it := b.nextNode, order := o }]
    { b.setSide o.side (Levels.setValue levels r level) with
      orderIndex_ := b.orderIndex_.insert o.id { side := o.side, price := o.price, it := b.nextNode }
      nextNode := b.nextNode + 1 }

def newOrder (b : Book L) (orderId : UInt64) (side : Side) (price quantity : Int64)
    (sequence : UInt64) (coins : Coins) : List Fill × Book L :=
  if quantity ≤ 0 then ([], b)
  else if b.orderIndex_.contains orderId then ([], b)
  else
    let (fills, remaining, b) := b.matchOrders side price quantity orderId
    if remaining > 0 then
      (fills, b.addResting { id := orderId, side := side, price := price, quantity := remaining,
                             sequence := sequence } coins)
    else (fills, b)

/-- `level.erase(listIt)`. -/
def eraseNode (it : Nat) (level : Level) : Level := level.eraseP fun x => x.it = it

def cancelOrder (b : Book L) (orderId : UInt64) : Except OutOfRange (Bool × Book L) :=
  match b.orderIndex_.find? orderId with
  | none => .ok (false, b)
  | some loc => do
    let levels := b.side loc.side
    let r ← Levels.locate levels loc.price
    let levels :=
      match r with
      | none => levels
      | some r =>
        let level := eraseNode loc.it (Levels.value levels r)
        let levels := Levels.setValue levels r level
        if level = [] then Levels.remove levels loc.price else levels
    return (true, { b.setSide loc.side levels with orderIndex_ := b.orderIndex_.erase orderId })

def modifyOrder (b : Book L) (orderId : UInt64) (newPrice newQuantity : Int64)
    (newSequence : UInt64) (coins : Coins) : Except OutOfRange (Bool × Book L) :=
  match b.orderIndex_.find? orderId with
  | none => .ok (false, b)
  | some loc => do
    let (_, b) ← b.cancelOrder orderId
    if newQuantity > 0 then
      return (true, b.addResting { id := orderId, side := loc.side, price := newPrice,
                                   quantity := newQuantity, sequence := newSequence } coins)
    else return (true, b)

/-! ## Snapshot support -/

def addRestingOrder (b : Book L) (o : Order) (coins : Coins) : Book L := b.addResting o coins

def reset (b : Book L) (symbol : Bytes) : Book L :=
  { b with symbol_ := symbol, bids_ := Levels.empty, asks_ := Levels.empty, orderIndex_ := .empty }

def ordersOf (levels : List (Int64 × Level)) : List Order :=
  levels.flatMap fun pl => pl.2.map ListNode.order

def allOrders (b : Book L) : List Order :=
  ordersOf (Levels.toList b.bids_) ++ ordersOf (Levels.toList b.asks_)

/-! ## Queries -/

/-- Dereference the iterator kept for an order. -/
def deref (b : Book L) (loc : OrderLocation) : Option Order :=
  let levels := b.side loc.side
  (Levels.find levels loc.price).bind fun r =>
    ((Levels.value levels r).find? fun x => x.it = loc.it).map ListNode.order

def getOrder (b : Book L) (orderId : UInt64) : Option Order :=
  (b.orderIndex_.find? orderId).bind b.deref

def orderCount (b : Book L) : Nat := b.orderIndex_.size

def symbol (b : Book L) : Bytes := b.symbol_

/-- The depth of one level. -/
def priceLevel (price : Int64) (level : Level) : PriceLevel :=
  level.foldl (fun pl x => { pl with
    totalQuantity := pl.totalQuantity + x.order.quantity, orderCount := pl.orderCount + 1 })
    { price := price }

/-- The loop of `bids` and `asks` over the levels that are left, after `count` of them. -/
def depth (maxLevels : Nat) : Nat → List (Int64 × Level) → List PriceLevel
  | _, [] => []
  | count, (price, level) :: rest =>
    priceLevel price level ::
      if maxLevels ≠ 0 ∧ count + 1 ≥ maxLevels then [] else depth maxLevels (count + 1) rest

def bids (b : Book L) (maxLevels : Nat) : List PriceLevel := depth maxLevels 0 (Levels.toList b.bids_)

def asks (b : Book L) (maxLevels : Nat) : List PriceLevel := depth maxLevels 0 (Levels.toList b.asks_)

def bestBid (b : Book L) : Option Int64 := (Levels.best b.bids_).map (Levels.key b.bids_)

def bestAsk (b : Book L) : Option Int64 := (Levels.best b.asks_).map (Levels.key b.asks_)

/-! ## Runs -/

def call (b : Book L) : Call → Except OutOfRange (Answer × Book L)
  | .newOrder orderId side price quantity sequence coins =>
    let (fills, b) := b.newOrder orderId side price quantity sequence coins
    .ok (.fills fills, b)
  | .cancelOrder orderId => do
    let (found, b) ← b.cancelOrder orderId
    return (.success found, b)
  | .modifyOrder orderId newPrice newQuantity newSequence coins => do
    let (found, b) ← b.modifyOrder orderId newPrice newQuantity newSequence coins
    return (.success found, b)
  | .addRestingOrder o coins => .ok (.void, b.addRestingOrder o coins)
  | .reset symbol => .ok (.void, b.reset symbol)

/-- Calls one after the other, with what each returned. -/
def run (b : Book L) : List Call → Except OutOfRange (List Answer × Book L)
  | [] => .ok ([], b)
  | c :: calls => do
    let (answer, b) ← b.call c
    let (answers, b) ← b.run calls
    return (answer :: answers, b)

end Book

/-! ## The map -/

/-- `std::map`: a pointer to a level is its key. -/
instance (s : Side) : Levels (OrderedMap Int64 Level (better s)) where
  Ref := Int64
  empty := .empty
  size := OrderedMap.size
  best m := m.begin?.map Prod.fst
  find m price := if m.contains price then some price else none
  locate m price := if m.contains price then .ok (some price) else .error .mapAt
  key _ r := r
  value m r := (m.find? r).getD []
  setValue m r level := m.modify r fun _ => level
  insert m price _ := m.insert price []
  remove m price := m.erase price
  toList m := m.bindings

abbrev MapLevels (s : Side) : Type := OrderedMap Int64 Level (better s)

abbrev MapOrderBook : Type := Book MapLevels

/-! ## The skip list -/

/-- `SkipList`: a level that is not found is passed over. -/
instance (s : Side) : Levels (SkipList Int64 Level (better s)) where
  Ref := Nat
  empty := .new 65536
  size := SkipList.size
  best := SkipList.best
  find := SkipList.find
  locate sl price := .ok (sl.find price)
  key sl := SkipList.keyAt sl.nodes
  value sl := SkipList.valueAt sl.nodes
  setValue := SkipList.setValue
  insert sl price coins := (sl.insert price [] coins).2
  remove sl price := (sl.remove price).2
  toList := SkipList.toList

abbrev SkipLevels (s : Side) : Type := SkipList Int64 Level (better s)

abbrev SkipListOrderBook : Type := Book SkipLevels

end NexusLOB.Lob
