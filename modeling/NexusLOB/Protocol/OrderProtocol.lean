import NexusLOB.Book.Types
import NexusLOB.Codec.LittleEndian

/-!
# The order protocol

The commands that go through the log and the results of applying them, as byte strings. A decoder
reads its fields from the front and does not look at what follows them.
-/

namespace NexusLOB.Lob.OrderProtocol

open Codec

def opNew : UInt8 := 0x10

def opCxl : UInt8 := 0x11

def opMod : UInt8 := 0x12

def opShardedNew : UInt8 := 0x20

def opShardedCxl : UInt8 := 0x21

def opShardedMod : UInt8 := 0x22

/-- `static_cast<uint8_t>(side)`. -/
def sideByte : Side → UInt8
  | .buy => 0
  | .sell => 1

/-- A byte above 1 is no side. -/
def sideOf (s : UInt8) : Option Side :=
  if s > 1 then none else if s = 0 then some .buy else some .sell

@[simp] theorem sideOf_sideByte (side : Side) : sideOf (sideByte side) = some side := by
  cases side <;> rfl

/-! ## Commands -/

def encodeNew (orderId : UInt64) (side : Side) (price quantity : Int64) : Bytes :=
  opNew :: (putU64 orderId ++ (sideByte side :: (putI64 price ++ putI64 quantity)))

def encodeCancel (orderId : UInt64) : Bytes := opCxl :: putU64 orderId

def encodeModify (orderId : UInt64) (newPrice newQuantity : Int64) : Bytes :=
  opMod :: (putU64 orderId ++ (putI64 newPrice ++ putI64 newQuantity))

def decodeNew (data : Bytes) : Option (UInt64 × Side × Int64 × Int64) := do
  let (op, data) ← getU8 data
  if op ≠ opNew then none
  let (orderId, data) ← getU64 data
  let (s, data) ← getU8 data
  let side ← sideOf s
  let (price, data) ← getI64 data
  let (quantity, _) ← getI64 data
  return (orderId, side, price, quantity)

def decodeCancel (data : Bytes) : Option UInt64 := do
  let (op, data) ← getU8 data
  if op ≠ opCxl then none
  let (orderId, _) ← getU64 data
  return orderId

def decodeModify (data : Bytes) : Option (UInt64 × Int64 × Int64) := do
  let (op, data) ← getU8 data
  if op ≠ opMod then none
  let (orderId, data) ← getU64 data
  let (newPrice, data) ← getI64 data
  let (newQuantity, _) ← getI64 data
  return (orderId, newPrice, newQuantity)

theorem decodeNew_encodeNew (orderId : UInt64) (side : Side) (price quantity : Int64) :
    decodeNew (encodeNew orderId side price quantity) = some (orderId, side, price, quantity) := by
  have hend := getI64_putI64 quantity []
  rw [List.append_nil] at hend
  simp only [decodeNew, encodeNew, getU8_cons, getU64_putU64, getI64_putI64, sideOf_sideByte, hend,
    bind, Option.bind_some, ne_eq, not_true_eq_false, if_false, pure]

theorem decodeNew_encodeCancel (orderId : UInt64) : decodeNew (encodeCancel orderId) = none := rfl

/-! ## Commands with a symbol -/

def encodeShardedNew (symbol : Bytes) (orderId : UInt64) (side : Side) (price quantity : Int64) :
    Bytes :=
  opShardedNew ::
    (putStr symbol ++ (putU64 orderId ++ (sideByte side :: (putI64 price ++ putI64 quantity))))

def encodeShardedCancel (symbol : Bytes) (orderId : UInt64) : Bytes :=
  opShardedCxl :: (putStr symbol ++ putU64 orderId)

def encodeShardedModify (symbol : Bytes) (orderId : UInt64) (newPrice newQuantity : Int64) :
    Bytes :=
  opShardedMod :: (putStr symbol ++ (putU64 orderId ++ (putI64 newPrice ++ putI64 newQuantity)))

def decodeShardedNew (data : Bytes) : Option (Bytes × UInt64 × Side × Int64 × Int64) := do
  let (op, data) ← getU8 data
  if op ≠ opShardedNew then none
  let (symbol, data) ← getStr data
  let (orderId, data) ← getU64 data
  let (s, data) ← getU8 data
  let side ← sideOf s
  let (price, data) ← getI64 data
  let (quantity, _) ← getI64 data
  return (symbol, orderId, side, price, quantity)

def decodeShardedCancel (data : Bytes) : Option (Bytes × UInt64) := do
  let (op, data) ← getU8 data
  if op ≠ opShardedCxl then none
  let (symbol, data) ← getStr data
  let (orderId, _) ← getU64 data
  return (symbol, orderId)

def decodeShardedModify (data : Bytes) : Option (Bytes × UInt64 × Int64 × Int64) := do
  let (op, data) ← getU8 data
  if op ≠ opShardedMod then none
  let (symbol, data) ← getStr data
  let (orderId, data) ← getU64 data
  let (newPrice, data) ← getI64 data
  let (newQuantity, _) ← getI64 data
  return (symbol, orderId, newPrice, newQuantity)

/-! ## Results -/

def putFill (f : Fill) : Bytes :=
  putU64 f.makerOrderId ++ putU64 f.takerOrderId ++ putI64 f.price ++ putI64 f.quantity ++
    [sideByte f.takerSide]

def encodeNewResult (fills : List Fill) (rested : Bool) (remainingQty : Int64) : Bytes :=
  [1] ++ putU32 (UInt32.ofNat fills.length) ++ fills.flatMap putFill ++
    [if rested then 1 else 0] ++ putI64 remainingQty

def encodeSimpleResult (ok : Bool) : Bytes := [if ok then 1 else 0]

def decodeSimpleResult : Bytes → Option Bool
  | [] => none
  | b :: _ => some (b ≠ 0)

/-- `static_cast<Side>(s)` without a check. Of a byte above 1 one can only tell that it is not
`Side::Buy`. -/
def sideCast (s : UInt8) : Side := if s = 0 then .buy else .sell

def getFill : Reader Fill := fun data => do
  let (makerOrderId, data) ← getU64 data
  let (takerOrderId, data) ← getU64 data
  let (price, data) ← getI64 data
  let (quantity, data) ← getI64 data
  let (s, data) ← getU8 data
  return ({ makerOrderId := makerOrderId, takerOrderId := takerOrderId, price := price,
            quantity := quantity, takerSide := sideCast s }, data)

def getFills : Nat → Reader (List Fill)
  | 0, data => some ([], data)
  | n + 1, data => do
    let (f, data) ← getFill data
    let (fills, data) ← getFills n data
    return (f :: fills, data)

def decodeNewResult (data : Bytes) : Option (List Fill × Bool × Int64) := do
  let (ok, data) ← getU8 data
  if ok = 0 then none
  let (fillCount, data) ← getU32 data
  let (fills, data) ← getFills fillCount.toNat data
  let (r, data) ← getU8 data
  let (remainingQty, _) ← getI64 data
  return (fills, r ≠ 0, remainingQty)

@[simp] theorem getFill_putFill (f : Fill) (rest : Bytes) :
    getFill (putFill f ++ rest) = some (f, rest) := by
  have hside : sideCast (sideByte f.takerSide) = f.takerSide := by
    cases f.takerSide <;> rfl
  simp only [getFill, putFill, List.append_assoc, getU64_putU64, getI64_putI64, bind,
    Option.bind_some, List.cons_append, List.nil_append, getU8_cons, hside, pure]

theorem getFills_append (fills : List Fill) (rest : Bytes) :
    getFills fills.length (fills.flatMap putFill ++ rest) = some (fills, rest) := by
  induction fills with
  | nil => rfl
  | cons f fills ih =>
    rw [List.length_cons, getFills, List.flatMap_cons, List.append_assoc, getFill_putFill]
    simp only [bind, Option.bind_some, ih, pure]

/-- What is read back: the count is a 32-bit word, and what the reader takes for the rest begins
behind as many fills as it says. -/
theorem decodeNewResult_split (fills more : List Fill) (rested : Bool) (remainingQty : Int64)
    (hcount : (UInt32.ofNat (fills ++ more).length).toNat = fills.length) :
    decodeNewResult (encodeNewResult (fills ++ more) rested remainingQty) = (do
      let (r, data) ← getU8 (more.flatMap putFill ++
        ((if rested then 1 else 0) :: putI64 remainingQty))
      let (remainingQty, _) ← getI64 data
      return (fills, r ≠ 0, remainingQty)) := by
  have hbytes : encodeNewResult (fills ++ more) rested remainingQty =
      1 :: (putU32 (UInt32.ofNat (fills ++ more).length) ++ (fills.flatMap putFill ++
        (more.flatMap putFill ++ ((if rested then 1 else 0) :: putI64 remainingQty)))) := by
    simp only [encodeNewResult, List.flatMap_append, List.append_assoc, List.cons_append,
      List.nil_append]
  rw [hbytes, decodeNewResult]
  simp only [getU8_cons, bind, Option.bind_some, getU32_putU32, hcount, getFills_append]
  rfl

theorem decodeNewResult_encodeNewResult {fills : List Fill} (hcount : fills.length < 2 ^ 32)
    (rested : Bool) (remainingQty : Int64) :
    decodeNewResult (encodeNewResult fills rested remainingQty) =
      some (fills, rested, remainingQty) := by
  have hsplit := decodeNewResult_split fills [] rested remainingQty (by
    rw [List.append_nil, UInt32.toNat_ofNat', Nat.mod_eq_of_lt hcount])
  have hend := getI64_putI64 remainingQty []
  rw [List.append_nil] at hsplit hend
  rw [hsplit, List.flatMap_nil, List.nil_append, getU8_cons]
  simp only [bind, Option.bind_some, hend, pure]
  cases rested <;> rfl

end NexusLOB.Lob.OrderProtocol
