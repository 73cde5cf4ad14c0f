import NexusLOB.Codec.LittleEndian
import NexusLOB.Concurrency.Writers
import NexusLOB.Raft.Types

/-!
# The raft transport

Messages as frames on the connections to the peers. A frame is the length of the body and the body;
words are little-endian. Every peer has two connections, one for heartbeats and their responses and
one for everything else. `processReady` starts one thread for each message, and each thread writes
its frame by `writeAll`, a loop of `send` calls that write some of what is left. No lock is held, so
the calls of different threads can come in any order. A single message is sent by the loop itself,
which is the same as one thread.
-/

namespace NexusLOB.Net

open Codec Concurrency Raft

/-! ## Frames -/

/-- `static_cast<uint8_t>(m.type)`. -/
def typeByte : MessageType → UInt8
  | .msgPropose => 0
  | .msgApp => 1
  | .msgAppResp => 2
  | .msgVote => 3
  | .msgVoteResp => 4
  | .msgPreVote => 5
  | .msgPreVoteResp => 6
  | .msgSnap => 7
  | .msgHeartbeat => 8
  | .msgHeartbeatResp => 9
  | .msgUnreachable => 10
  | .msgSnapStatus => 11
  | .msgCheckQuorum => 12
  | .msgTransferLeader => 13
  | .msgTimeoutNow => 14
  | .msgReadIndex => 15
  | .msgReadIndexResp => 16

def entryTypeByte : EntryType → UInt8
  | .normal => 0
  | .confChange => 1
  | .confChangeV2 => 2

def appendU64 (v : Nat) : Bytes := putU64 (UInt64.ofNat v)

/-- A length field: `static_cast<uint32_t>(v)`. -/
def appendU32 (v : Nat) : Bytes := putU32 (UInt32.ofNat v)

/-- A byte string behind its length. -/
def appendData (data : Bytes) : Bytes := appendU32 data.length ++ data

def appendEntry (e : Entry) : Bytes :=
  appendU64 e.term ++ appendU64 e.index ++ [entryTypeByte e.type] ++ appendData e.data

def messageBody (m : Message) : Bytes :=
  [typeByte m.type] ++ appendU64 m.receiver ++ appendU64 m.sender ++ appendU64 m.term ++
    appendU64 m.logTerm ++ appendU64 m.index ++ appendU64 m.commit ++
    [if m.reject then 1 else 0] ++ appendU64 m.rejectHint ++
    appendU32 m.entries.length ++ m.entries.flatMap appendEntry ++
    appendU64 m.snapshot.term ++ appendU64 m.snapshot.index ++ appendData m.snapshot.data ++
    appendData m.context

def serializeMessage (m : Message) : Bytes := appendData (messageBody m)

/-! ## Connections -/

def isHeartbeat (t : MessageType) : Bool := t = .msgHeartbeat ∨ t = .msgHeartbeatResp

def channel (m : Message) : Nat := if isHeartbeat m.type then 1 else 0

/-- A peer and a channel. -/
abbrev Conn := NodeId × Nat

/-- The connection a message goes out on. -/
def conn (m : Message) : Conn := (m.receiver, channel m)

/-- The sender threads of a `Ready` before their first `send`. A message to a peer without a
connection is not written. -/
def senders (up : Conn → Bool) (rd : Ready) : Writers Conn UInt8 :=
  { writers := (rd.messages.filter fun m => up (conn m)).map fun m =>
      { key := conn m, rest := serializeMessage m } }

end NexusLOB.Net
