import NexusLOB.Protocol.OrderProtocol

/-!
# Text requests as order commands

`LOBCodec` turns a client's text request into a command for the log. The id of a new order is a
counter of the codec, which lives and dies with the process. Numbers are read by `std::stoll` and
`std::stoull`, which throw where there is no number or where it does not fit.
-/

namespace NexusLOB.Lob

open OrderProtocol

/-! ## Numbers in texts -/

/-- What `std::stoll` and `std::stoull` throw. -/
inductive ConversionError
  | invalidArgument
  | outOfRange
  deriving DecidableEq, Repr

/-- `isspace` in the C locale. -/
def isSpace (c : UInt8) : Bool := c = 0x20 ∨ 0x09 ≤ c ∧ c ≤ 0x0d

def isDigit (c : UInt8) : Bool := 0x30 ≤ c ∧ c ≤ 0x39

/-- The value of decimal digits. -/
def decimal (ds : Bytes) : Nat := ds.foldl (fun v d => 10 * v + (d.toNat - 0x30)) 0

/-- Blanks, a sign, and digits up to the first other character: whether the sign is a minus, and
the value of the digits. -/
def readNumber (s : Bytes) : Except ConversionError (Bool × Nat) :=
  let s := s.dropWhile isSpace
  let negative := s.head? = some 0x2d
  let s := if negative ∨ s.head? = some 0x2b then s.tail else s
  let ds := s.takeWhile isDigit
  if ds = [] then .error .invalidArgument else .ok (negative, decimal ds)

def stoll (s : Bytes) : Except ConversionError Int64 := do
  let (negative, v) ← readNumber s
  let v : Int := if negative then -v else v
  if v < Int64.minValue.toInt ∨ Int64.maxValue.toInt < v then .error .outOfRange
  else .ok (Int64.ofInt v)

/-- A minus is taken, and the result is the negated value as an unsigned word. -/
def stoull (s : Bytes) : Except ConversionError UInt64 := do
  let (negative, v) ← readNumber s
  if 2 ^ 64 ≤ v then .error .outOfRange
  else .ok (if negative then -UInt64.ofNat v else UInt64.ofNat v)

/-! ## Requests -/

inductive Op
  | set
  | get
  | del
  deriving DecidableEq, Repr

structure ClientRequest where
  op : Op
  key : Bytes := []
  value : Bytes := []
  deriving DecidableEq, Repr

/-- `"sell"`. -/
def sellKey : Bytes := [0x73, 0x65, 0x6c, 0x6c]

/-- The colon between price and quantity. -/
def colonByte : UInt8 := 0x3a

structure LOBCodec where
  nextOrderId_ : UInt64 := 1
  deriving DecidableEq, Repr

def LOBCodec.encode (c : LOBCodec) (req : ClientRequest) :
    Except ConversionError (Bytes × LOBCodec) :=
  match req.op with
  | .set =>
    let side := if req.key = sellKey then Side.sell else Side.buy
    match req.value.idxOf? colonByte with
    | none => .ok ([], c)
    | some colon => do
      let price ← stoll (req.value.take colon)
      let qty ← stoll (req.value.drop (colon + 1))
      let orderId := c.nextOrderId_
      return (encodeNew orderId side price qty, { c with nextOrderId_ := orderId + 1 })
  | .del => do
    let orderId ← stoull req.key
    return (encodeCancel orderId, c)
  | .get => .ok ([], c)

/-- A `SET` whose value is two numbers with a colon between them. -/
def ClientRequest.isOrder (req : ClientRequest) : Bool :=
  match req.op, req.value.idxOf? colonByte with
  | .set, some colon =>
    (stoll (req.value.take colon)).isOk && (stoll (req.value.drop (colon + 1))).isOk
  | _, _ => false

/-- The id of a `NEW` command. -/
def orderId (data : Bytes) : Option UInt64 := (decodeNew data).map Prod.fst

namespace LOBCodec

variable {c c' : LOBCodec} {req : ClientRequest} {data : Bytes}

/-- An order takes the counter as its id. -/
theorem encode_order (h : req.isOrder = true) :
    ∃ data, c.encode req = .ok (data, { c with nextOrderId_ := c.nextOrderId_ + 1 }) ∧
      orderId data = some c.nextOrderId_ := by
  unfold ClientRequest.isOrder at h
  unfold encode
  split at h
  · rename_i colon hop hcolon
    rw [Bool.and_eq_true] at h
    rw [hop]
    dsimp only
    rw [hcolon]
    dsimp only
    cases hprice : stoll (req.value.take colon) with
    | error e =>
      rw [hprice] at h
      exact absurd h.1 Bool.false_ne_true
    | ok price =>
      cases hqty : stoll (req.value.drop (colon + 1)) with
      | error e =>
        rw [hqty] at h
        exact absurd h.2 Bool.false_ne_true
      | ok qty =>
        refine ⟨_, rfl, ?_⟩
        rw [orderId, decodeNew_encodeNew]
        rfl
  · exact absurd h Bool.false_ne_true

/-- Every other request leaves the counter alone and makes no `NEW`. -/
theorem encode_other (h : req.isOrder = false) (hencode : c.encode req = .ok (data, c')) :
    c' = c ∧ orderId data = none := by
  unfold ClientRequest.isOrder at h
  unfold encode at hencode
  cases hop : req.op with
  | get =>
    rw [hop] at hencode
    cases hencode
    exact ⟨rfl, rfl⟩
  | del =>
    rw [hop] at hencode
    cases hid : stoull req.key with
    | error e =>
      rw [hid] at hencode
      cases hencode
    | ok id =>
      rw [hid] at hencode
      cases hencode
      refine ⟨rfl, ?_⟩
      rw [orderId, decodeNew_encodeCancel]
      rfl
  | set =>
    rw [hop] at h hencode
    cases hcolon : req.value.idxOf? colonByte with
    | none =>
      rw [hcolon] at hencode
      cases hencode
      exact ⟨rfl, rfl⟩
    | some colon =>
      rw [hcolon] at h hencode
      dsimp only at h hencode
      cases hprice : stoll (req.value.take colon) with
      | error e =>
        rw [hprice] at hencode
        cases hencode
      | ok price =>
        cases hqty : stoll (req.value.drop (colon + 1)) with
        | error e =>
          rw [hprice, hqty] at hencode
          cases hencode
        | ok qty =>
          rw [hprice, hqty] at h
          exact absurd h Bool.true_eq_false.mp

end LOBCodec

end NexusLOB.Lob
