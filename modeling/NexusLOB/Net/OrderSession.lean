import NexusLOB.Book.Depth
import NexusLOB.Net.MessageFormat
import NexusLOB.Net.OrderClientServer
import NexusLOB.Net.TextSession

/-!
# A binary client's session

`OrderClientServer::handleClient` reads frames until one is empty, too long or cut short, and
answers each before it reads the next. Behind it runs a machine on either engine. A client cannot
tell it from a server that keeps a flat list of the resting orders: every byte that comes back is
the same, for any bytes that the client sends and any coins that the engine tosses.
-/

namespace NexusLOB.Net.OrderClientServer

open Codec Lob OrderProtocol

/-! ## Frames -/

/-- `1 << 20`. -/
def maxFrame : Nat := 2 ^ 20

/-- A length that is zero or too large ends the session, as a closed connection does. -/
def readFrame : Reader Bytes := fun stream =>
  match getU32 stream with
  | none => none
  | some (length, stream) =>
    if length = 0 ∨ maxFrame < length.toNat then none else getBytes length.toNat stream

def writeFrame (payload : Bytes) : Bytes := putStr payload

/-- The frames are those of the transport, with a smaller limit. -/
theorem readFrame_eq (stream : Bytes) :
    readFrame stream = (Wire.readFrame stream).filter fun r => r.1.length ≤ maxFrame := by
  unfold readFrame Wire.readFrame
  cases getU32 stream with
  | none => rfl
  | some r =>
    obtain ⟨length, stream⟩ := r
    have hmax : maxFrame ≤ Wire.maxBody := by decide
    dsimp only
    by_cases hzero : length = 0
    · rw [if_pos (Or.inl hzero), if_pos (Or.inl hzero)]
      rfl
    by_cases hlarge : Wire.maxBody < length.toNat
    · rw [if_pos (Or.inr hlarge), if_pos (Or.inr (Nat.lt_of_le_of_lt hmax hlarge))]
      rfl
    rw [if_neg (not_or.mpr ⟨hzero, hlarge⟩)]
    cases hread : getBytes length.toNat stream with
    | none =>
      rw [Option.filter_none, ite_self]
    | some r =>
      have hlen : r.1.length = length.toNat := (eq_of_getBytes hread).1
      rw [Option.filter_some, hlen]
      by_cases hle : length.toNat ≤ maxFrame
      · rw [if_neg (not_or.mpr ⟨hzero, Nat.not_lt.mpr hle⟩), if_pos (decide_eq_true hle)]
      · rw [if_pos (Or.inr (Nat.lt_of_not_le hle)), if_neg (by simpa using hle)]

theorem orderFrames :
    Records writeFrame readFrame fun b => b.length ≠ 0 ∧ b.length ≤ maxFrame where
  read_eq_some_iff {stream b rest} := by
    have hmax : maxFrame ≤ Wire.maxBody := by decide
    rw [readFrame_eq, Option.filter_eq_some_iff, Wire.frameRecords.read_eq_some_iff,
      decide_eq_true_eq]
    constructor
    · rintro ⟨⟨⟨hne, -⟩, heq⟩, hle⟩
      exact ⟨⟨hne, hle⟩, heq⟩
    · rintro ⟨⟨hne, hle⟩, heq⟩
      exact ⟨⟨⟨hne, hle.trans hmax⟩, heq⟩, hle⟩
  write_ne_nil b := Wire.frameRecords.write_ne_nil b

/-- What a client reads of the responses. -/
theorem strRecords : Records putStr getStr fun b => b.length < 2 ^ 32 where
  read_eq_some_iff := getStr_eq_some_iff
  write_ne_nil b := Wire.frameRecords.write_ne_nil b

/-! ## The session -/

section Session

variable {σ : Type}

/-- The body of the loop. An empty frame would end it, but none is read. -/
def handleFrame (s : OrderClientServer σ) (x : Session σ) (frame : Bytes) :
    Except OutOfRange (Session σ) :=
  match frame with
  | [] => .ok x
  | opcode :: payload => do
    let (response, st) ← s.respond opcode payload x.state
    return { state := st, sent := x.sent ++ writeFrame response }

/-- All bytes that come from the client, until it closes the connection. -/
def handleClient (s : OrderClientServer σ) (st : σ) (stream : Bytes) :
    Except OutOfRange (Session σ) :=
  (records readFrame stream).foldlM s.handleFrame { state := st }

end Session

/-! ## Two servers -/

variable {L : Side → Type} [∀ s, Levels (L s)]

/-- A leader's server over a machine, with the coins of the commands to come. -/
def engine : OrderClientServer (LOBStateMachine L × List Coins) where
  submitCb_ := some fun cmd x => do
    let (result, m) ← x.1.apply cmd (x.2.headD [])
    return (result, (m, x.2.tail))
  readCb_ := some fun maxLevels x =>
    (x.1.book_.bids maxLevels.toNat, x.1.book_.asks maxLevels.toNat)
  isLeaderCb_ := some true

/-- A leader's server over a flat list of orders and the next sequence number. -/
def flat : OrderClientServer (Resting × UInt64) where
  submitCb_ := some fun cmd y =>
    .ok ((y.1.apply cmd y.2).1, (y.1.apply cmd y.2).2, if cmd = [] then y.2 else y.2 + 1)
  readCb_ := some fun maxLevels y =>
    (y.1.depth .buy maxLevels.toNat, y.1.depth .sell maxLevels.toNat)
  isLeaderCb_ := some true

/-- The machine has the orders of the list, in the same order at each price. -/
def Lockstep [LawfulLevels L] (x : LOBStateMachine L × List Coins) (y : Resting × UInt64) : Prop :=
  (∃ symbol q, Tracks x.1.book_ symbol q ∧ q.Alike y.1) ∧ x.1.nextSeq_ = y.2

/-- The response repeats the opcode of the frame, or is an error. -/
def Answers (frame response : Bytes) : Prop :=
  response[0]? = frame[0]? ∨ response[0]? = some OrderWire.opErr

section Lockstep

variable [LawfulLevels L] {x : LOBStateMachine L × List Coins} {y : Resting × UInt64}

theorem Lockstep.handle (h : Lockstep x y) (op : UInt8) (parse : Bytes → Except String Bytes)
    (p : Bytes) : ∃ r x' y', engine.handle op parse p x = .ok (r, x') ∧
      flat.handle op parse p y = .ok (r, y') ∧ Lockstep x' y' ∧ Answers (op :: p) r := by
  cases hparse : parse p with
  | error msg =>
    refine ⟨makeError msg, x, y, ?_, ?_, h, Or.inr rfl⟩
    · simp [OrderClientServer.handle, engine, hparse]
    · simp [OrderClientServer.handle, flat, hparse]
  | ok cmd =>
    obtain ⟨⟨symbol, q, hq, halike⟩, hseq⟩ := h
    obtain ⟨m', happly, hq', hseq'⟩ := hq.apply cmd (x.2.headD [])
    obtain ⟨hresult, halike'⟩ := halike.apply hq.nodup cmd x.1.nextSeq_
    rw [hseq] at hresult halike' hseq' happly hq'
    refine ⟨reply op (y.1.apply cmd y.2).1, (m', x.2.tail),
      ((y.1.apply cmd y.2).2, if cmd = [] then y.2 else y.2 + 1), ?_, ?_,
      ⟨⟨symbol, _, hq', halike'⟩, hseq'⟩, Or.inl rfl⟩
    · simp only [OrderClientServer.handle, engine, hparse, happly, hresult, bind, Except.bind, pure,
        Except.pure]
      rfl
    · simp only [OrderClientServer.handle, flat, hparse, bind, Except.bind, pure, Except.pure]
      rfl

theorem Lockstep.handleBook (h : Lockstep x y) (p : Bytes) :
    engine.handleBook p x = flat.handleBook p y := by
  obtain ⟨⟨symbol, q, hq, halike⟩, -⟩ := h
  have hbids : ∀ n, x.1.book_.bids n = y.1.depth .buy n := fun n =>
    (hq.shown_eq .buy n).trans (halike.depth_eq .buy n)
  have hasks : ∀ n, x.1.book_.asks n = y.1.depth .sell n := fun n =>
    (hq.shown_eq .sell n).trans (halike.depth_eq .sell n)
  simp only [OrderClientServer.handleBook, engine, flat, hbids, hasks]

theorem Lockstep.respond (h : Lockstep x y) (opcode : UInt8) (payload : Bytes) :
    ∃ r x' y', engine.respond opcode payload x = .ok (r, x') ∧
      flat.respond opcode payload y = .ok (r, y') ∧ Lockstep x' y' ∧
      Answers (opcode :: payload) r := by
  unfold OrderClientServer.respond
  split_ifs with hnew hcxl hmod hbook
  · exact hnew ▸ h.handle OrderWire.opNew parseNew payload
  · exact hcxl ▸ h.handle OrderWire.opCxl parseCxl payload
  · exact hmod ▸ h.handle OrderWire.opMod parseMod payload
  · refine ⟨_, x, y, rfl, by rw [h.handleBook], h, Or.inl ?_⟩
    subst hbook
    rfl
  · exact ⟨_, x, y, rfl, rfl, h, Or.inr rfl⟩

/-- One frame after the other, both servers send the same. -/
theorem Lockstep.frames {frames : List Bytes} (hframes : ∀ frame ∈ frames, frame ≠ [])
    (h : Lockstep x y) (sent : Bytes) :
    ∃ x' y' responses, Lockstep x' y' ∧ List.Forall₂ Answers frames responses ∧
      frames.foldlM engine.handleFrame { state := x, sent := sent } =
        .ok { state := x', sent := sent ++ responses.flatMap writeFrame } ∧
      frames.foldlM flat.handleFrame { state := y, sent := sent } =
        .ok { state := y', sent := sent ++ responses.flatMap writeFrame } := by
  induction frames generalizing x y sent with
  | nil =>
    refine ⟨x, y, [], h, .nil, ?_, ?_⟩
    all_goals
      rw [List.flatMap_nil, List.append_nil]
      rfl
  | cons frame frames ih =>
    obtain ⟨hframe, hrest⟩ := List.forall_mem_cons.mp hframes
    obtain ⟨opcode, payload, rfl⟩ := List.exists_cons_of_ne_nil hframe
    obtain ⟨r, x₁, y₁, hx, hy, h₁, hr⟩ := h.respond opcode payload
    obtain ⟨x', y', responses, h', hall, hx', hy'⟩ := ih hrest h₁ (sent ++ writeFrame r)
    refine ⟨x', y', r :: responses, h', .cons hr hall, ?_, ?_⟩
    · rw [List.foldlM_cons, handleFrame, hx, List.flatMap_cons, ← List.append_assoc]
      exact hx'
    · rw [List.foldlM_cons, handleFrame, hy, List.flatMap_cons, ← List.append_assoc]
      exact hy'

end Lockstep

/-- An order, a frame that nobody knows, a look at the book, and a frame that breaks off. -/
def orderStream : Bytes :=
  writeFrame (encodeNew 1 .buy 100 5) ++ writeFrame [9] ++ writeFrame [OrderWire.opBook] ++ [7, 0]

end NexusLOB.Net.OrderClientServer
