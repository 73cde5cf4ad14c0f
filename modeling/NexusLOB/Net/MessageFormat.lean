import NexusLOB.Codec.Records
import NexusLOB.Net.RaftTransport
import NexusLOB.Storage.SnapshotFile

/-!
# Messages on the wire

`raft::Message` with the words and bytes of its fields, the body that `serializeMessage` writes for
it, and the two readers of the other side: `connLoop` cuts the stream into frames and
`deserializeMessage` reads a body. A stream that breaks off gives the messages whose frames arrived
as a whole. A body of at most 16 MiB has no field too long for its length.
-/

namespace NexusLOB.Net.Wire

open Codec
open Storage (Bytes Entry Snapshot)

/-- `raft::Message`, with the types of the message and of its entries as bytes. -/
structure Message where
  type : UInt8
  receiver : UInt64 := 0
  sender : UInt64 := 0
  term : UInt64 := 0
  logTerm : UInt64 := 0
  index : UInt64 := 0
  commit : UInt64 := 0
  reject : Bool := false
  rejectHint : UInt64 := 0
  entries : List Entry := []
  snapshot : Snapshot := {}
  context : Bytes := []
  deriving DecidableEq, Repr

/-! ## Writing -/

def putEntry (e : Entry) : Bytes := putU64 e.term ++ (putU64 e.index ++ (e.type :: putStr e.data))

def putSnapshot (s : Snapshot) : Bytes := putU64 s.term ++ (putU64 s.index ++ putStr s.data)

/-- What `serializeMessage` puts behind the length of the frame. -/
def body (m : Message) : Bytes :=
  m.type :: (putU64 m.receiver ++ (putU64 m.sender ++ (putU64 m.term ++ (putU64 m.logTerm ++
    (putU64 m.index ++ (putU64 m.commit ++ ((if m.reject then 1 else 0) ::
      (putU64 m.rejectHint ++ (putU32 (UInt32.ofNat m.entries.length) ++
        (m.entries.flatMap putEntry ++ (putSnapshot m.snapshot ++ putStr m.context)))))))))))

def serializeMessage (m : Message) : Bytes := putStr (body m)

/-! ## Reading -/

def readData : StateT Bytes Option Bytes := do
  let len ← getU32
  getBytes len.toNat

def readEntry : StateT Bytes Option Entry := do
  let term ← getU64
  let index ← getU64
  let type ← getU8
  let data ← readData
  return { term := term, index := index, type := type, data := data }

def readEntries : Nat → StateT Bytes Option (List Entry)
  | 0 => return []
  | n + 1 => do
    let e ← readEntry
    let es ← readEntries n
    return e :: es

def readBody : StateT Bytes Option Message := do
  let type ← getU8
  let receiver ← getU64
  let sender ← getU64
  let term ← getU64
  let logTerm ← getU64
  let index ← getU64
  let commit ← getU64
  let rej ← getU8
  let rejectHint ← getU64
  let nEntries ← getU32
  let entries ← readEntries nEntries.toNat
  let snapTerm ← getU64
  let snapIndex ← getU64
  let snapData ← readData
  let context ← readData
  return { type := type, receiver := receiver, sender := sender, term := term, logTerm := logTerm,
           index := index, commit := commit, reject := rej != 0, rejectHint := rejectHint,
           entries := entries,
           snapshot := { term := snapTerm, index := snapIndex, data := snapData },
           context := context }

/-- What follows the fields is not looked at. -/
def deserializeMessage (buf : Bytes) : Option Message := (readBody buf).map Prod.fst

/-- The largest body that is read. -/
def maxBody : Nat := 16 * 2 ^ 20

/-- One frame: a length that is zero or too large ends the loop, as a closed connection does. -/
def readFrame (stream : Bytes) : Option (Bytes × Bytes) :=
  match getU32 stream with
  | none => none
  | some (msgLen, stream) =>
    if msgLen = 0 ∨ maxBody < msgLen.toNat then none else getBytes msgLen.toNat stream

/-- The messages that `onRecv_` is called with. A body that cannot be read is passed over. -/
def connLoop (stream : Bytes) : List Message :=
  (records readFrame stream).filterMap deserializeMessage

/-! ## Bodies -/

/-- All lengths of a message fit their fields. -/
structure Message.Fits (m : Message) : Prop where
  entries : m.entries.length < 2 ^ 32
  data : ∀ e ∈ m.entries, e.data.length < 2 ^ 32
  snapshot : m.snapshot.data.length < 2 ^ 32
  context : m.context.length < 2 ^ 32

theorem readData_putStr {data : Bytes} (h : data.length < 2 ^ 32) (rest : Bytes) :
    readData (putStr data ++ rest) = some (data, rest) := getStr_putStr h rest

theorem readEntry_putEntry {e : Entry} (h : e.data.length < 2 ^ 32) (rest : Bytes) :
    readEntry (putEntry e ++ rest) = some (e, rest) := by
  simp only [readEntry, putEntry, List.append_assoc, List.cons_append, bind_apply, getU64_putU64,
    getU8_cons, readData_putStr h, Option.bind_some]
  rfl

theorem readEntries_append {es : List Entry} (h : ∀ e ∈ es, e.data.length < 2 ^ 32)
    (rest : Bytes) : readEntries es.length (es.flatMap putEntry ++ rest) = some (es, rest) := by
  induction es with
  | nil => rfl
  | cons e es ih =>
    obtain ⟨he, hes⟩ := List.forall_mem_cons.mp h
    simp only [List.length_cons, readEntries, List.flatMap_cons, List.append_assoc, bind_apply,
      readEntry_putEntry he, ih hes, Option.bind_some]
    rfl

/-- A body is read back, whatever follows it. -/
theorem readBody_body {m : Message} (h : m.Fits) (rest : Bytes) :
    readBody (body m ++ rest) = some (m, rest) := by
  have hcount : (UInt32.ofNat m.entries.length).toNat = m.entries.length :=
    UInt32.toNat_ofNat_of_lt' h.entries
  have hreject : ((if m.reject then 1 else 0 : UInt8) != 0) = m.reject := by
    cases m.reject <;> rfl
  simp only [body, putSnapshot, List.append_assoc, List.cons_append]
  unfold readBody
  refine (bind_of_eq_some (getU8_cons _ _)).trans ?_
  iterate 6 refine (bind_of_eq_some (getU64_putU64 _ _)).trans ?_
  refine (bind_of_eq_some (getU8_cons _ _)).trans ?_
  refine (bind_of_eq_some (getU64_putU64 _ _)).trans ?_
  refine (bind_of_eq_some (getU32_putU32 _ _)).trans ?_
  rw [hcount, hreject]
  refine (bind_of_eq_some (readEntries_append h.data _)).trans ?_
  iterate 2 refine (bind_of_eq_some (getU64_putU64 _ _)).trans ?_
  refine (bind_of_eq_some (readData_putStr h.snapshot _)).trans ?_
  exact bind_of_eq_some (readData_putStr h.context _)

theorem stable_readData : Stable readData := .bind .getU32 fun len => .getBytes len.toNat

theorem stable_readEntry : Stable readEntry :=
  .bind .getU64 fun _ => .bind .getU64 fun _ => .bind .getU8 fun _ =>
    .bind stable_readData fun _ => .pure _

theorem stable_readEntries (n : Nat) : Stable (readEntries n) := by
  induction n with
  | zero => exact .pure _
  | succ n ih => exact .bind stable_readEntry fun _ => .bind ih fun _ => .pure _

theorem stable_readBody : Stable readBody :=
  .bind .getU8 fun _ => .bind .getU64 fun _ => .bind .getU64 fun _ => .bind .getU64 fun _ =>
    .bind .getU64 fun _ => .bind .getU64 fun _ => .bind .getU64 fun _ => .bind .getU8 fun _ =>
    .bind .getU64 fun _ => .bind .getU32 fun n => .bind (stable_readEntries n.toNat) fun _ =>
    .bind .getU64 fun _ => .bind .getU64 fun _ => .bind stable_readData fun _ =>
    .bind stable_readData fun _ => .pure _

theorem deserializeMessage_body {m : Message} (h : m.Fits) : deserializeMessage (body m) = some m := by
  have hread := readBody_body h []
  rw [List.append_nil] at hread
  rw [deserializeMessage, hread]
  rfl

/-- No body that is cut short is read, although a reject flag other than 0 and 1 would be. -/
theorem deserializeMessage_torn {m : Message} (h : m.Fits) {buf : Bytes} (hbuf : buf <+: body m)
    (hne : buf ≠ body m) : deserializeMessage buf = none := by
  have hread := readBody_body h []
  rw [List.append_nil] at hread
  rw [deserializeMessage, stable_readBody.eq_none hread hbuf hne]
  rfl

/-! ## Lengths -/

theorem length_putEntry (e : Entry) : (putEntry e).length = e.data.length + 21 := by
  simp only [putEntry, List.length_append, List.length_cons, length_putU64, length_putStr]
  omega

theorem length_le_flatMap_putEntry (es : List Entry) :
    es.length ≤ (es.flatMap putEntry).length := by
  induction es with
  | nil => exact Nat.le_refl 0
  | cons e es ih =>
    rw [List.flatMap_cons, List.length_append, List.length_cons, length_putEntry]
    omega

theorem data_le_flatMap_putEntry {es : List Entry} {e : Entry} (h : e ∈ es) :
    e.data.length ≤ (es.flatMap putEntry).length := by
  obtain ⟨before, after, rfl⟩ := List.append_of_mem h
  rw [List.flatMap_append, List.flatMap_cons, List.length_append, List.length_append,
    length_putEntry]
  omega

theorem length_body (m : Message) :
    (body m).length = (m.entries.flatMap putEntry).length + m.snapshot.data.length +
      m.context.length + 86 := by
  simp only [body, putSnapshot, List.length_cons, List.length_append, length_putU64, length_putU32,
    length_putStr]
  omega

/-- The lengths of a body that can be received fit their fields. -/
theorem Message.fits_of_le {m : Message} (h : (body m).length ≤ maxBody) : m.Fits := by
  have hlen := length_body m
  have hmax : maxBody < 2 ^ 32 := by decide
  refine ⟨?_, ?_, ?_, ?_⟩
  · have hle := length_le_flatMap_putEntry m.entries
    omega
  · intro e he
    have hle := data_le_flatMap_putEntry he
    omega
  · omega
  · omega

/-! ## Frames -/

theorem eq_of_readFrame {stream b rest : Bytes} (h : readFrame stream = some (b, rest)) :
    (b.length ≠ 0 ∧ b.length ≤ maxBody) ∧ stream = putStr b ++ rest := by
  unfold readFrame at h
  cases hlen : getU32 stream with
  | none =>
    rw [hlen] at h
    cases h
  | some r =>
    obtain ⟨msgLen, stream'⟩ := r
    rw [hlen] at h
    dsimp only at h
    split at h
    · cases h
    · next hno =>
      obtain ⟨hlength, rfl⟩ := eq_of_getBytes h
      rw [not_or] at hno
      refine ⟨⟨?_, ?_⟩, ?_⟩
      · intro hzero
        exact hno.1 (UInt32.toNat_inj.mp (hlength.symm.trans hzero))
      · rw [hlength]
        exact Nat.not_lt.mp hno.2
      · rw [eq_of_getU32 hlen, putStr, hlength, UInt32.ofNat_toNat, List.append_assoc]

theorem readFrame_putStr {b : Bytes} (hne : b.length ≠ 0) (hle : b.length ≤ maxBody)
    (rest : Bytes) : readFrame (putStr b ++ rest) = some (b, rest) := by
  have hmax : maxBody < 2 ^ 32 := by decide
  have hlen : (UInt32.ofNat b.length).toNat = b.length :=
    UInt32.toNat_ofNat_of_lt' (Nat.lt_of_le_of_lt hle hmax)
  have hno : ¬ (UInt32.ofNat b.length = 0 ∨ maxBody < (UInt32.ofNat b.length).toNat) := by
    rw [← UInt32.toNat_inj, hlen]
    rintro (hzero | hlt)
    · exact hne hzero
    · exact Nat.not_lt.mpr hle hlt
  rw [readFrame, putStr, List.append_assoc, getU32_putU32]
  dsimp only
  rw [if_neg hno, getBytes_append hlen.symm]

theorem frameRecords :
    Records putStr readFrame fun b => b.length ≠ 0 ∧ b.length ≤ maxBody where
  read_eq_some_iff {stream b rest} := by
    constructor
    · exact eq_of_readFrame
    · rintro ⟨⟨hne, hle⟩, rfl⟩
      exact readFrame_putStr hne hle rest
  write_ne_nil b := by simp [putStr, putU32, leBytes]

/-- The frames that a stream holds as a whole, as messages. -/
theorem connLoop_isPrefix {msgs : List Message} (hmsgs : ∀ m ∈ msgs, (body m).length ≤ maxBody)
    {stream : Bytes} (h : stream <+: msgs.flatMap serializeMessage) :
    connLoop stream = whole serializeMessage msgs stream.length := by
  have hvalid : ∀ b ∈ msgs.map body, b.length ≠ 0 ∧ b.length ≤ maxBody := by
    intro b hb
    obtain ⟨m, hm, rfl⟩ := List.mem_map.mp hb
    have hlen := length_body m
    exact ⟨by omega, hmsgs m hm⟩
  have hframes : (msgs.map body).flatMap putStr = msgs.flatMap serializeMessage := by
    rw [List.flatMap_map]
    rfl
  rw [← hframes] at h
  rw [connLoop, frameRecords.records_isPrefix hvalid h, whole_map, List.filterMap_map]
  refine (List.filterMap_congr fun m hm => ?_).trans List.filterMap_some
  rw [Function.comp_apply]
  exact deserializeMessage_body (Message.fits_of_le (hmsgs m (mem_of_mem_whole hm)))

/-- Whatever part of a stream of frames has arrived, exactly the messages are delivered whose frames
are whole, with all their fields. A body that is cut short is not read. -/
theorem messages_delivered {msgs : List Message}
    (hmsgs : ∀ m ∈ msgs, (body m).length ≤ maxBody) :
    (∀ stream, stream <+: msgs.flatMap serializeMessage →
      connLoop stream = whole serializeMessage msgs stream.length) ∧
    (∀ m : Message, (body m).length ≤ maxBody → m.Fits) ∧
    ∀ m : Message, m.Fits → ∀ buf, buf <+: body m → buf ≠ body m →
      deserializeMessage buf = none :=
  ⟨fun _ => connLoop_isPrefix hmsgs, fun _ => Message.fits_of_le,
    fun _ hm _ => deserializeMessage_torn hm⟩

/-- A vote and a heartbeat, the second cut short. -/
theorem messages_delivered_cut_short :
    (∀ m ∈ [({ type := 3, term := 2 } : Message), { type := 8, term := 2 }],
      (body m).length ≤ maxBody) ∧
    connLoop (([({ type := 3, term := 2 } : Message), { type := 8, term := 2 }].flatMap
      serializeMessage).take 100) = [{ type := 3, term := 2 }] := by
  have hmsgs : ∀ m ∈ [({ type := 3, term := 2 } : Message), { type := 8, term := 2 }],
      (body m).length ≤ maxBody := by
    decide
  refine ⟨hmsgs, ?_⟩
  rw [(messages_delivered hmsgs).1 _ (List.take_prefix 100 _)]
  decide

/-! ## Messages of the nodes -/

def ofEntry (e : Raft.Entry) : Entry :=
  { term := UInt64.ofNat e.term, index := UInt64.ofNat e.index, type := entryTypeByte e.type,
    data := e.data }

/-- A message of a node, with its numbers as words. -/
def Message.ofRaft (m : Raft.Message) : Message where
  type := typeByte m.type
  receiver := UInt64.ofNat m.receiver
  sender := UInt64.ofNat m.sender
  term := UInt64.ofNat m.term
  logTerm := UInt64.ofNat m.logTerm
  index := UInt64.ofNat m.index
  commit := UInt64.ofNat m.commit
  reject := m.reject
  rejectHint := UInt64.ofNat m.rejectHint
  entries := m.entries.map ofEntry
  snapshot :=
    { term := UInt64.ofNat m.snapshot.term, index := UInt64.ofNat m.snapshot.index,
      data := m.snapshot.data }
  context := m.context

theorem putEntry_ofEntry (e : Raft.Entry) : putEntry (ofEntry e) = appendEntry e := by
  simp [putEntry, ofEntry, appendEntry, appendU64, appendData, appendU32, putStr]

/-- It is sent as the transport writes it. -/
theorem serializeMessage_ofRaft (m : Raft.Message) :
    serializeMessage (.ofRaft m) = Net.serializeMessage m := by
  have hentries : (m.entries.map ofEntry).flatMap putEntry = m.entries.flatMap appendEntry := by
    rw [List.flatMap_map]
    simp only [putEntry_ofEntry]
  have hbody : body (.ofRaft m) = messageBody m := by
    simp only [body, messageBody, Message.ofRaft, hentries, List.length_map, putSnapshot, putStr,
      appendData, appendU32, appendU64, List.append_assoc, List.cons_append, List.nil_append]
    rfl
  rw [serializeMessage, hbody]
  rfl

end NexusLOB.Net.Wire
