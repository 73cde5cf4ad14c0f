import NexusLOB.Book.Results
import NexusLOB.Net.ClientServer

/-!
# The binary order server

`OrderClientServer` answers one frame at a time: it parses the fields, encodes the command again,
hands it to the submit callback and puts an opcode and a status in front of the result. The status
says whether the result is empty. `LOBStateMachine::apply` never returns an empty result, so a client
reads a success for a command that was rejected.
-/

namespace NexusLOB.Net

open Codec Lob OrderProtocol

namespace OrderWire

def opNew : UInt8 := 0x10

def opCxl : UInt8 := 0x11

def opMod : UInt8 := 0x12

def opBook : UInt8 := 0x04

def opErr : UInt8 := 0xff

end OrderWire

/-- The callbacks of the server, over the state they work on. One that is not set is `none`. -/
structure OrderClientServer (σ : Type) where
  submitCb_ : Option (Bytes → σ → Except OutOfRange (Bytes × σ)) := none
  readCb_ : Option (UInt32 → σ → List PriceLevel × List PriceLevel) := none
  isLeaderCb_ : Option Bool := none

namespace OrderClientServer

/-- Opcode, status 0, and the message with its length. -/
def makeError (msg : String) : Bytes := OrderWire.opErr :: 0 :: putStr (text msg)

/-! ## Handlers -/

def parseNew (p : Bytes) : Except String Bytes :=
  match getU64 p with
  | none => .error "bad frame"
  | some (orderId, p) =>
    match getU8 p with
    | none => .error "bad frame"
    | some (s, p) =>
      match sideOf s with
      | none => .error "bad side"
      | some side =>
        match getI64 p with
        | none => .error "bad frame"
        | some (price, p) =>
          match getI64 p with
          | none => .error "bad frame"
          | some (qty, _) => .ok (encodeNew orderId side price qty)

def parseCxl (p : Bytes) : Except String Bytes :=
  match getU64 p with
  | none => .error "bad frame"
  | some (orderId, _) => .ok (encodeCancel orderId)

def parseMod (p : Bytes) : Except String Bytes :=
  match getU64 p with
  | none => .error "bad frame"
  | some (orderId, p) =>
    match getI64 p with
    | none => .error "bad frame"
    | some (newPrice, p) =>
      match getI64 p with
      | none => .error "bad frame"
      | some (newQty, _) => .ok (encodeModify orderId newPrice newQty)

/-- Opcode, status, and the bytes of the result. -/
def reply (op : UInt8) (result : Bytes) : Bytes := op :: (if result.isEmpty then 0 else 1) :: result

variable {σ : Type}

/-- What the three handlers of commands have in common. -/
def handle (op : UInt8) (parse : Bytes → Except String Bytes) (s : OrderClientServer σ)
    (p : Bytes) (st : σ) : Except OutOfRange (Bytes × σ) :=
  if s.isLeaderCb_ ≠ some true then .ok (makeError "not leader", st)
  else
    match parse p with
    | .error msg => .ok (makeError msg, st)
    | .ok cmd =>
      match s.submitCb_ with
      | none => .ok (makeError "no submit handler", st)
      | some submit => do
        let (result, st) ← submit cmd st
        return (reply op result, st)

def handleNew (s : OrderClientServer σ) (p : Bytes) (st : σ) : Except OutOfRange (Bytes × σ) :=
  s.handle OrderWire.opNew parseNew p st

def handleCxl (s : OrderClientServer σ) (p : Bytes) (st : σ) : Except OutOfRange (Bytes × σ) :=
  s.handle OrderWire.opCxl parseCxl p st

def handleMod (s : OrderClientServer σ) (p : Bytes) (st : σ) : Except OutOfRange (Bytes × σ) :=
  s.handle OrderWire.opMod parseMod p st

def putLevels (levels : List PriceLevel) : Bytes :=
  putU32 (UInt32.ofNat levels.length) ++
    levels.flatMap fun pl => putI64 pl.price ++ putI64 pl.totalQuantity ++ putU32 pl.orderCount

/-- A frame without a number of levels asks for all of them. -/
def handleBook (s : OrderClientServer σ) (p : Bytes) (st : σ) : Bytes :=
  match s.readCb_ with
  | none => makeError "no book reader"
  | some read =>
    let maxLevels := ((getU32 p).map Prod.fst).getD 0
    let (bids, asks) := read maxLevels st
    OrderWire.opBook :: 1 :: (putLevels bids ++ putLevels asks)

/-- The response to a frame, by its opcode. -/
def respond (s : OrderClientServer σ) (opcode : UInt8) (payload : Bytes) (st : σ) :
    Except OutOfRange (Bytes × σ) :=
  if opcode = OrderWire.opNew then s.handleNew payload st
  else if opcode = OrderWire.opCxl then s.handleCxl payload st
  else if opcode = OrderWire.opMod then s.handleMod payload st
  else if opcode = OrderWire.opBook then .ok (s.handleBook payload st, st)
  else .ok (makeError "unknown opcode", st)

/-! ## Frames of commands -/

variable {L : Side → Type} [∀ s, Levels (L s)]

/-- The server of a leader: a command is applied to the machine. -/
def leading (coins : Coins) : OrderClientServer (LOBStateMachine L) where
  submitCb_ := some fun cmd m => m.apply cmd coins
  readCb_ := some fun maxLevels m => (m.book_.bids maxLevels.toNat, m.book_.asks maxLevels.toNat)
  isLeaderCb_ := some true

theorem parseNew_of_decodeNew {payload : Bytes} {id : UInt64} {side : Side}
    {price quantity : Int64}
    (h : decodeNew (opNew :: payload) = some (id, side, price, quantity)) :
    parseNew payload = .ok (encodeNew id side price quantity) := by
  obtain ⟨rest, hrest⟩ := decodeNew_eq_some_iff.mp h
  obtain rfl := (List.cons.inj hrest).2
  simp [parseNew]

theorem parseCxl_of_decodeCancel {payload : Bytes} {id : UInt64}
    (h : decodeCancel (opCxl :: payload) = some id) : parseCxl payload = .ok (encodeCancel id) := by
  obtain ⟨rest, hrest⟩ := decodeCancel_eq_some_iff.mp h
  obtain rfl := (List.cons.inj hrest).2
  simp [parseCxl]

theorem parseMod_of_decodeModify {payload : Bytes} {id : UInt64} {newPrice newQuantity : Int64}
    (h : decodeModify (opMod :: payload) = some (id, newPrice, newQuantity)) :
    parseMod payload = .ok (encodeModify id newPrice newQuantity) := by
  obtain ⟨rest, hrest⟩ := decodeModify_eq_some_iff.mp h
  obtain rfl := (List.cons.inj hrest).2
  simp [parseMod]

/-- A command is answered with the opcode of its frame and status 1, whatever became of it. -/
theorem handle_leading [LawfulLevels L] {m : LOBStateMachine L} (hm : m.Reachable) {op : UInt8}
    {parse : Bytes → Except String Bytes} {payload cmd : Bytes} (hparse : parse payload = .ok cmd)
    (coins : Coins) :
    ∃ result m', (leading coins).handle op parse payload m = .ok (op :: 1 :: result, m') := by
  obtain ⟨symbol, q, hq⟩ := hm.tracks
  obtain ⟨result, m', happly, hne, -⟩ := hq.result_read_back cmd coins
  have hreply : reply op result = op :: 1 :: result := by
    rw [reply, List.isEmpty_eq_false_iff.mpr hne]
    rfl
  refine ⟨result, m', ?_⟩
  simp only [handle, leading, hparse, happly, bind, Except.bind, pure, Except.pure, hreply]
  rfl

theorem respond_leading [LawfulLevels L] {m : LOBStateMachine L} (hm : m.Reachable) {op : UInt8}
    {payload : Bytes} (hframe : ¬ Undecodable (op :: payload)) (coins : Coins) :
    ∃ result m', (leading coins).respond op payload m = .ok (op :: 1 :: result, m') := by
  rcases Resting.decode_cases (op :: payload) with ⟨id, side, price, quantity, hnew, -⟩ |
    ⟨id, hcancel, -⟩ | ⟨id, newPrice, newQuantity, hmodify, -⟩ | hnone
  · obtain ⟨rest, hrest⟩ := Resting.op_of_decodeNew hnew
    cases hrest
    exact handle_leading hm (parseNew_of_decodeNew hnew) coins
  · obtain ⟨rest, hrest⟩ := Resting.op_of_decodeCancel hcancel
    cases hrest
    exact handle_leading hm (parseCxl_of_decodeCancel hcancel) coins
  · obtain ⟨rest, hrest⟩ := Resting.op_of_decodeModify hmodify
    cases hrest
    exact handle_leading hm (parseMod_of_decodeModify hmodify) coins
  · exact absurd hnone hframe

/-- In every state of a machine behind a leader, the response to a frame from which a command can be
read has the frame's opcode, and a status that says whether the command was accepted, exactly if it
was. -/
theorem response_status_truthful_iff [LawfulLevels L] {m : LOBStateMachine L} (hm : m.Reachable)
    {op : UInt8} {payload : Bytes} (hframe : ¬ Undecodable (op :: payload)) (coins : Coins) :
    ∃ response m', (leading coins).respond op payload m = .ok (response, m') ∧
      ((response[0]? = some op ∧ (response[1]? = some 1 ↔ m.Accepted (op :: payload))) ↔
        m.Accepted (op :: payload)) := by
  obtain ⟨result, m', hresponse⟩ := respond_leading hm hframe coins
  refine ⟨_, m', hresponse, ?_⟩
  constructor
  · rintro ⟨-, hstatus⟩
    exact hstatus.mp rfl
  · intro haccepted
    exact ⟨rfl, iff_of_true rfl haccepted⟩

/-- A bid into an empty book. -/
theorem response_status_truthful_iff_bid :
    ((LOBStateMachine.new [] : LOBStateMachine MapLevels).Reachable ∧
      ¬ Undecodable (encodeNew 1 .buy 100 5)) ∧
    ∃ response m', (leading []).respond opNew (encodeNew 1 .buy 100 5).tail
        (.new [] : LOBStateMachine MapLevels) = .ok (response, m') ∧ response[1]? = some 1 := by
  have hm : (LOBStateMachine.new [] : LOBStateMachine MapLevels).Reachable := .new []
  have hdecode := decodeNew_encodeNew 1 .buy 100 5
  have hframe : ¬ Undecodable (opNew :: (encodeNew 1 .buy 100 5).tail) := by
    rintro ⟨hnone, -⟩
    cases hdecode.symm.trans hnone
  have haccepted : (LOBStateMachine.new [] : LOBStateMachine MapLevels).Accepted
      (opNew :: (encodeNew 1 .buy 100 5).tail) :=
    Or.inl ⟨1, .buy, 100, 5, hdecode, by decide, rfl⟩
  obtain ⟨response, m', hresponse, hiff⟩ := response_status_truthful_iff hm hframe []
  exact ⟨⟨hm, hframe⟩, response, m', hresponse, (hiff.mpr haccepted).2.mpr haccepted⟩

/-- The cancellation of an order that does not rest is answered with status 1. -/
theorem rejected_cancel_reports_success :
    (LOBStateMachine.new [] : LOBStateMachine MapLevels).Reachable ∧
      ¬ (LOBStateMachine.new [] : LOBStateMachine MapLevels).Accepted (encodeCancel 7) ∧
      ∃ m', (leading []).respond opCxl (putU64 7) (.new [] : LOBStateMachine MapLevels) =
        .ok ([OrderWire.opCxl, 1, 0], m') := by
  refine ⟨.new [], ?_, _, rfl⟩
  rintro (⟨id, side, price, quantity, hdecode, -⟩ | ⟨id, hcancel, hresting⟩ |
    ⟨id, newPrice, newQuantity, hmodify, -⟩)
  · cases hdecode
  · exact hresting rfl
  · cases hmodify

end OrderClientServer

end NexusLOB.Net
