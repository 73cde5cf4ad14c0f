import Mathlib.Data.List.TakeWhile
import NexusLOB.Protocol.KVCodec
import NexusLOB.Protocol.OrderCommands

/-!
# Text requests

`ClientServer` splits a line into words, and `LOBCodec::encode` reads numbers from two of them.
`std::stoll` and `std::stoull` throw where there is no number, and nothing between them and the
client's thread catches. Where they do not throw they are lenient: they stop at the first character
that is no digit, and `std::stoull` takes a minus. A side is whatever is not `sell`.
-/

namespace NexusLOB.Net

open Lob OrderProtocol

/-- A text of the source as bytes. -/
def text (s : String) : Bytes := s.toList.map fun c => UInt8.ofNat c.toNat

/-! ## Lines -/

namespace ClientServer

/-- `::toupper` in the C locale. -/
def toUpper (c : UInt8) : UInt8 := if 0x61 ≤ c ∧ c ≤ 0x7a then c - 0x20 else c

/-- `iss >> word`: blanks are skipped, and the word goes to the next one. -/
def nextWord (s : Bytes) : Option (Bytes × Bytes) :=
  let s := s.dropWhile isSpace
  let word := s.takeWhile fun c => !isSpace c
  if word = [] then none else some (word, s.dropWhile fun c => !isSpace c)

def parseCommand (line : Bytes) : Option ClientRequest := do
  let (cmd, line) ← nextWord line
  let cmd := cmd.map toUpper
  if cmd = text "SET" then
    let (key, line) ← nextWord line
    let (value, _) ← nextWord line
    return { op := .set, key := key, value := value }
  else if cmd = text "GET" then
    let (key, _) ← nextWord line
    return { op := .get, key := key }
  else if cmd = text "DEL" then
    let (key, _) ← nextWord line
    return { op := .del, key := key }
  else none

end ClientServer

def badRequest : Kv.ClientResponse := { ok := false, err := text "bad request" }

/-- `Server::onClientRequest` up to the proposal: an answer right away, or the command to propose. An
exception of the codec goes through. -/
def onClientRequest (isLeader : Bool) (leaderId : Raft.NodeId) (c : LOBCodec) (req : ClientRequest) :
    Except ConversionError ((Kv.ClientResponse ⊕ Bytes) × LOBCodec) :=
  if isLeader then do
    let (data, c) ← c.encode req
    if data.isEmpty then return (.inl badRequest, c) else return (.inr data, c)
  else .ok (.inl { ok := false, err := text "not leader", leaderHint := leaderId }, c)

/-! ## What a line says -/

def sideText (key : Bytes) : Option Side :=
  if key = text "buy" then some .buy else if key = sellKey then some .sell else none

/-- A text that is a number and nothing else: a sign or none, and digits. -/
def integerText (s : Bytes) : Option Int :=
  let negative := s.head? = some 0x2d
  let ds := if negative ∨ s.head? = some 0x2b then s.tail else s
  if ds ≠ [] ∧ ds.all isDigit then
    some (if negative then -(decimal ds : Int) else decimal ds)
  else none

/-- The command has the side, price and quantity, or the order id, that the request writes. -/
inductive Written (req : ClientRequest) (data : Bytes) : Prop
  | order {before after : Bytes} {id : UInt64} {side : Side} {price quantity : Int64}
      (hop : req.op = .set) (hvalue : req.value = before ++ colonByte :: after)
      (hcolon : colonByte ∉ before) (hside : sideText req.key = some side)
      (hprice : integerText before = some price.toInt)
      (hquantity : integerText after = some quantity.toInt)
      (hdata : decodeNew data = some (id, side, price, quantity))
  | cancel {id : UInt64} (hop : req.op = .del) (hid : integerText req.key = some (id.toNat : Int))
      (hdata : decodeCancel data = some id)

/-- Encoding returns: nothing, which the server answers as a bad request, or what is written. -/
def Answered (c : LOBCodec) (req : ClientRequest) : Prop :=
  ∃ data c', c.encode req = .ok (data, c') ∧
    ((data = [] ∧ ∀ leaderId, onClientRequest true leaderId c req = .ok (.inl badRequest, c')) ∨
      Written req data)

/-- A number that a price or a quantity can be. -/
def InRange (v : Int) : Prop := Int64.minValue.toInt ≤ v ∧ v ≤ Int64.maxValue.toInt

/-- A `GET`, a `SET` without a colon, a `SET` of a side and two numbers, or a `DEL` of a number, all
in range. -/
inductive WellFormed (req : ClientRequest) : Prop
  | get (hop : req.op = .get)
  | noColon (hop : req.op = .set) (hcolon : colonByte ∉ req.value)
  | order {before after : Bytes} {side : Side} {price quantity : Int} (hop : req.op = .set)
      (hvalue : req.value = before ++ colonByte :: after) (hcolon : colonByte ∉ before)
      (hside : sideText req.key = some side) (hprice : integerText before = some price)
      (hprice' : InRange price) (hquantity : integerText after = some quantity)
      (hquantity' : InRange quantity)
  | cancel {id : Nat} (hop : req.op = .del) (hid : integerText req.key = some (id : Int))
      (hid' : id < 2 ^ 64)

/-! ## Numbers -/

theorem isSpace_of_isDigit {c : UInt8} (h : isDigit c = true) : isSpace c = false := by
  simp only [isDigit, decide_eq_true_eq, UInt8.le_iff_toNat_le] at h
  simp only [isSpace, decide_eq_false_iff_not, UInt8.le_iff_toNat_le, ← UInt8.toNat_inj]
  have hlo : (0x30 : UInt8).toNat = 48 := rfl
  have htab : (0x0d : UInt8).toNat = 13 := rfl
  have hblank : (0x20 : UInt8).toNat = 32 := rfl
  omega

/-- Digits behind a sign or none are read to their end. -/
theorem readNumber_eq {s ds : Bytes} (hspace : s.dropWhile isSpace = s)
    (htail : (if s.head? = some 0x2d ∨ s.head? = some 0x2b then s.tail else s) = ds)
    (hne : ds ≠ []) (hdigits : ∀ d ∈ ds, isDigit d = true) :
    readNumber s = .ok (decide (s.head? = some 0x2d), decimal ds) := by
  have htake : ds.takeWhile isDigit = ds := List.takeWhile_eq_self_iff.mpr hdigits
  simp only [readNumber, hspace, htail, htake, if_neg hne]

theorem readNumber_of_integerText {s : Bytes} {v : Int} (h : integerText s = some v) :
    ∃ negative n, readNumber s = .ok (negative, n) ∧ v = if negative then -(n : Int) else n := by
  simp only [integerText, Option.ite_none_right_eq_some, Option.some_inj] at h
  obtain ⟨⟨hne, hdigits⟩, rfl⟩ := h
  rw [List.all_eq_true] at hdigits
  refine ⟨_, _, readNumber_eq ?_ rfl hne hdigits, by simp only [decide_eq_true_eq]⟩
  -- neither a sign nor a digit is a blank
  apply List.dropWhile_eq_self_iff.mpr
  intro hlen
  cases s with
  | nil => exact absurd hlen (Nat.lt_irrefl 0)
  | cons c rest =>
    change ¬ isSpace c = true
    by_cases hsign : c = 0x2d ∨ c = 0x2b
    · rcases hsign with rfl | rfl <;> decide
    · have hds : c ∈ (if (c :: rest).head? = some 0x2d ∨ (c :: rest).head? = some 0x2b then
          (c :: rest).tail else c :: rest) := by
        rw [if_neg]
        · exact List.mem_cons_self
        · rwa [List.head?_cons, Option.some_inj, Option.some_inj]
      rw [isSpace_of_isDigit (hdigits c hds)]
      exact Bool.false_ne_true

theorem stoll_of_integerText {s : Bytes} {v : Int} (h : integerText s = some v) (hv : InRange v) :
    ∃ n : Int64, stoll s = .ok n ∧ n.toInt = v := by
  obtain ⟨negative, n, hread, rfl⟩ := readNumber_of_integerText h
  refine ⟨Int64.ofInt _, ?_, Int64.toInt_ofInt_of_le hv.1 ?_⟩
  · have hno : ¬ ((if negative then -(n : Int) else n) < Int64.minValue.toInt ∨
        Int64.maxValue.toInt < if negative then -(n : Int) else n) := by
      have hlo := hv.1
      have hhi := hv.2
      omega
    rw [stoll, hread]
    change (if _ then _ else _) = _
    rw [if_neg hno]
  · exact Int.lt_of_le_of_lt hv.2 (by decide)

theorem stoull_of_integerText {s : Bytes} {n : Nat} (h : integerText s = some (n : Int))
    (hn : n < 2 ^ 64) : ∃ id : UInt64, stoull s = .ok id ∧ id.toNat = n := by
  obtain ⟨negative, k, hread, hk⟩ := readNumber_of_integerText h
  have hword : (UInt64.ofNat n).toNat = n := by
    rw [UInt64.toNat_ofNat', Nat.mod_eq_of_lt hn]
  cases negative with
  | true =>
    -- only zero can be written with a minus
    rw [if_pos rfl] at hk
    obtain ⟨rfl, rfl⟩ : n = 0 ∧ k = 0 := by omega
    refine ⟨0, ?_, rfl⟩
    rw [stoull, hread]
    rfl
  | false =>
    rw [if_neg Bool.false_ne_true] at hk
    obtain rfl : k = n := by omega
    refine ⟨UInt64.ofNat k, ?_, hword⟩
    simp only [stoull, hread, bind, Except.bind, if_neg (Nat.not_le.mpr hn), Bool.false_eq_true,
      if_false]

/-! ## Requests -/

theorem idxOf?_append_cons {before after : Bytes} (h : colonByte ∉ before) :
    (before ++ colonByte :: after).idxOf? colonByte = some before.length := by
  induction before with
  | nil => rfl
  | cons b before ih =>
    rw [List.mem_cons, not_or] at h
    rw [List.cons_append, List.idxOf?_cons, if_neg, ih h.2]
    · rfl
    · rw [beq_iff_eq]
      exact Ne.symm h.1

section
variable {c : LOBCodec} {req : ClientRequest}

/-- What a `SET` with a colon encodes to. -/
theorem encode_set {before after : Bytes} (hop : req.op = .set)
    (hvalue : req.value = before ++ colonByte :: after) (hcolon : colonByte ∉ before) :
    c.encode req = (do
      let price ← stoll before
      let qty ← stoll after
      return (encodeNew c.nextOrderId_ (if req.key = sellKey then .sell else .buy) price qty,
        { c with nextOrderId_ := c.nextOrderId_ + 1 })) := by
  have htake : req.value.take before.length = before := by
    rw [hvalue, List.take_left]
  have hdrop : req.value.drop (before.length + 1) = after := by
    rw [hvalue, List.drop_append, List.drop_eq_nil_of_le (Nat.le_succ _), List.nil_append,
      Nat.add_sub_cancel_left]
    rfl
  unfold LOBCodec.encode
  rw [hop]
  dsimp only
  rw [hvalue, idxOf?_append_cons hcolon]
  dsimp only
  rw [← hvalue, htake, hdrop]

theorem encode_del (hop : req.op = .del) :
    c.encode req = (stoull req.key).map fun id => (encodeCancel id, c) := by
  unfold LOBCodec.encode
  rw [hop]
  dsimp only
  cases stoull req.key <;> rfl

theorem side_of_sideText {side : Side} (h : sideText req.key = some side) :
    (if req.key = sellKey then Side.sell else .buy) = side := by
  unfold sideText at h
  split_ifs at h with hbuy hsell
  · cases h
    have hne : text "buy" ≠ sellKey := by decide
    rw [if_neg (hbuy ▸ hne)]
  · cases h
    rw [if_pos hsell]

theorem onClientRequest_of_nil {c' : LOBCodec} (h : c.encode req = .ok ([], c'))
    (leaderId : Raft.NodeId) : onClientRequest true leaderId c req = .ok (.inl badRequest, c') := by
  rw [onClientRequest, if_pos rfl, h]
  rfl

theorem answered_of_wellFormed (h : WellFormed req) : Answered c req := by
  cases h with
  | get hop =>
    have hencode : c.encode req = .ok ([], c) := by
      unfold LOBCodec.encode
      rw [hop]
    exact ⟨[], c, hencode, Or.inl ⟨rfl, onClientRequest_of_nil hencode⟩⟩
  | noColon hop hcolon =>
    have hencode : c.encode req = .ok ([], c) := by
      unfold LOBCodec.encode
      rw [hop]
      dsimp only
      rw [List.idxOf?_eq_none_iff.mpr hcolon]
    exact ⟨[], c, hencode, Or.inl ⟨rfl, onClientRequest_of_nil hencode⟩⟩
  | order hop hvalue hcolon hside hprice hprice' hquantity hquantity' =>
    obtain ⟨price, hstoll, rfl⟩ := stoll_of_integerText hprice hprice'
    obtain ⟨quantity, hstoll', rfl⟩ := stoll_of_integerText hquantity hquantity'
    have hencode := encode_set (c := c) hop hvalue hcolon
    rw [hstoll, hstoll', side_of_sideText hside] at hencode
    exact ⟨_, _, hencode, Or.inr (.order hop hvalue hcolon hside hprice hquantity
      (decodeNew_encodeNew _ _ _ _))⟩
  | cancel hop hid hid' =>
    obtain ⟨id, hstoull, rfl⟩ := stoull_of_integerText hid hid'
    have hencode := encode_del (c := c) hop
    rw [hstoull] at hencode
    exact ⟨_, _, hencode, Or.inr (.cancel hop hid (decodeCancel_eq_some_iff.mpr
      (List.prefix_refl _)))⟩

theorem inRange_toInt (v : Int64) : InRange v.toInt := ⟨v.le_toInt, v.toInt_le⟩

theorem wellFormed_of_answered (h : Answered c req) : WellFormed req := by
  obtain ⟨data, c', hencode, ⟨rfl, -⟩ | hwritten⟩ := h
  · cases hop : req.op with
    | get => exact .get hop
    | set =>
      by_cases hcolon : colonByte ∈ req.value
      · obtain ⟨before, after, hvalue, hbefore⟩ := List.eq_append_cons_of_mem hcolon
        rw [encode_set hop hvalue hbefore] at hencode
        obtain ⟨price, -, hencode⟩ := ok_of_bind hencode
        obtain ⟨qty, -, hencode⟩ := ok_of_bind hencode
        cases hencode
      · exact .noColon hop hcolon
    | del =>
      rw [encode_del hop] at hencode
      cases hid : stoull req.key with
      | error e =>
        rw [hid] at hencode
        cases hencode
      | ok id =>
        rw [hid] at hencode
        cases hencode
  · cases hwritten with
    | order hop hvalue hcolon hside hprice hquantity _ =>
      exact .order hop hvalue hcolon hside hprice (inRange_toInt _) hquantity (inRange_toInt _)
    | cancel hop hid _ => exact .cancel hop hid (UInt64.toNat_lt _)

end

/-- A request from a line is answered, as a bad request or with the command that the line writes,
exactly if it is a `GET`, a `SET` without a colon, a `SET` of `buy` or `sell` and two numbers in
range, or a `DEL` of a number in range. -/
theorem text_request_answered_iff (c : LOBCodec) (line : Bytes) :
    ∀ req, ClientServer.parseCommand line = some req → (Answered c req ↔ WellFormed req) :=
  fun _ _ => ⟨wellFormed_of_answered, answered_of_wellFormed⟩

/-- A sell order of five at a price of minus three. -/
theorem text_request_answered_iff_sell :
    ClientServer.parseCommand (text "set sell -3:5") = some ⟨.set, text "sell", text "-3:5"⟩ ∧
      Answered {} ⟨.set, text "sell", text "-3:5"⟩ := by
  have hline : ClientServer.parseCommand (text "set sell -3:5") =
      some ⟨.set, text "sell", text "-3:5"⟩ := by
    decide +kernel
  have hprice : integerText (text "-3") = some (-3) := by decide +kernel
  have hquantity : integerText (text "5") = some 5 := by decide +kernel
  refine ⟨hline, (text_request_answered_iff {} _ _ hline).mpr ?_⟩
  exact .order rfl (rfl : _ = text "-3" ++ colonByte :: text "5") (by decide) rfl hprice
    ⟨by decide, by decide⟩ hquantity ⟨by decide, by decide⟩

/-- A price that is no number, and a number that is too large, leave `encode` as an exception. A
price is read up to the first character that is no digit, `SELL` is taken for a buy, and the id `-5`
for one near the end of the range. -/
theorem text_request_throws :
    ClientServer.parseCommand (text "SET buy abc:5") = some ⟨.set, text "buy", text "abc:5"⟩ ∧
      LOBCodec.encode {} ⟨.set, text "buy", text "abc:5"⟩ = .error .invalidArgument ∧
      onClientRequest true 1 {} ⟨.set, text "buy", text "abc:5"⟩ = .error .invalidArgument ∧
      LOBCodec.encode {} ⟨.del, text "99999999999999999999", []⟩ = .error .outOfRange ∧
      LOBCodec.encode {} ⟨.set, text "SELL", text "12abc:5"⟩ =
        .ok (encodeNew 1 .buy 12 5, { nextOrderId_ := 2 }) ∧
      LOBCodec.encode {} ⟨.del, text "-5", []⟩ = .ok (encodeCancel (-5), {}) := by
  decide +kernel

end NexusLOB.Net
