import NexusLOB.Book.Engine
import NexusLOB.Protocol.OrderProtocol

/-!
# The replicated order book

`LOBStateMachine`: commands are decoded, run on the injected book and answered as bytes. Each
non-empty command takes a sequence number, whether it is accepted or not. A snapshot lists the
resting orders in the order of `allOrders`, and a restore adds them again one by one.
-/

namespace NexusLOB.Lob

open Codec OrderProtocol

structure LOBStateMachine (L : Side → Type) where
  book_ : Book L
  nextSeq_ : UInt64 := 1

namespace LOBStateMachine

variable {L : Side → Type} [∀ s, Levels (L s)]

/-- A machine with an empty book. -/
def new (symbol : Bytes) : LOBStateMachine L := { book_ := Book.new symbol }

def apply (m : LOBStateMachine L) (data : Bytes) (coins : Coins) :
    Except OutOfRange (Bytes × LOBStateMachine L) :=
  match data with
  | [] => .ok (encodeSimpleResult false, m)
  | op :: _ =>
    let seq := m.nextSeq_
    let m := { m with nextSeq_ := m.nextSeq_ + 1 }
    if op = opNew then
      match decodeNew data with
      | none => .ok (encodeSimpleResult false, m)
      | some (orderId, side, price, quantity) =>
        if quantity ≤ 0 ∨ (m.book_.getOrder orderId).isSome then .ok (encodeSimpleResult false, m)
        else
          let (fills, book) := m.book_.newOrder orderId side price quantity seq coins
          let filled := fills.foldl (fun filled f => filled + f.quantity) 0
          let remaining := quantity - filled
          .ok (encodeNewResult fills (remaining > 0) remaining, { m with book_ := book })
    else if op = opCxl then
      match decodeCancel data with
      | none => .ok (encodeSimpleResult false, m)
      | some orderId => do
        let (ok, book) ← m.book_.cancelOrder orderId
        return (encodeSimpleResult ok, { m with book_ := book })
    else if op = opMod then
      match decodeModify data with
      | none => .ok (encodeSimpleResult false, m)
      | some (orderId, newPrice, newQuantity) => do
        let (ok, book) ← m.book_.modifyOrder orderId newPrice newQuantity seq coins
        return (encodeSimpleResult ok, { m with book_ := book })
    else .ok (encodeSimpleResult false, m)

/-! ## Snapshots -/

def putOrder (o : Order) : Bytes :=
  putU64 o.id ++ [sideByte o.side] ++ putI64 o.price ++ putI64 o.quantity ++ putU64 o.sequence

def snapshot (m : LOBStateMachine L) : Bytes :=
  let sym := m.book_.symbol
  let orders := m.book_.allOrders
  putU64 m.nextSeq_ ++ putU32 (UInt32.ofNat sym.length) ++ sym ++
    putU32 (UInt32.ofNat orders.length) ++ orders.flatMap putOrder

def getOrder : Reader Order := fun data => do
  let (orderId, data) ← getU64 data
  let (s, data) ← getU8 data
  let side ← sideOf s
  let (price, data) ← getI64 data
  let (quantity, data) ← getI64 data
  let (sequence, data) ← getU64 data
  return ({ id := orderId, side := side, price := price, quantity := quantity,
            sequence := sequence }, data)

/-- The loop of `restore` over the orders that are left, the first of them being number `i`. It
ends early where an order cannot be read. -/
def restoreOrders (coins : Nat → Coins) : Nat → Nat → Bytes → Book L → Book L
  | 0, _, _, b => b
  | n + 1, i, data, b =>
    match getOrder data with
    | none => b
    | some (o, data) => restoreOrders coins n (i + 1) data (b.addRestingOrder o (coins i))

/-- What was read before bytes run out stays. -/
def restore (m : LOBStateMachine L) (data : Bytes) (coins : Nat → Coins) : LOBStateMachine L :=
  match getU64 data with
  | none => m
  | some (nextSeq, data) =>
    let m := { m with nextSeq_ := nextSeq }
    match getU32 data with
    | none => m
    | some (symLen, data) =>
      match getBytes symLen.toNat data with
      | none => m
      | some (sym, data) =>
        match getU32 data with
        | none => m
        | some (orderCount, data) =>
          { m with
            book_ := restoreOrders coins orderCount.toNat 0 data (m.book_.reset sym) }

/-! ## Direct reads -/

def bids (m : LOBStateMachine L) (maxLevels : Nat) : List PriceLevel := m.book_.bids maxLevels

def asks (m : LOBStateMachine L) (maxLevels : Nat) : List PriceLevel := m.book_.asks maxLevels

/-! ## Runs -/

/-- Commands one after the other, with the results. -/
def applyAll (m : LOBStateMachine L) :
    List (Bytes × Coins) → Except OutOfRange (List Bytes × LOBStateMachine L)
  | [] => .ok ([], m)
  | (data, coins) :: commands => do
    let (result, m) ← m.apply data coins
    let (results, m) ← m.applyAll commands
    return (result :: results, m)

end LOBStateMachine

end NexusLOB.Lob
