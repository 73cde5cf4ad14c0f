import Mathlib.Algebra.Ring.Nat
import NexusLOB.Collections.OrderedMap

/-!
# Raft data types

The value types of the raft library: log entries, roles, messages, persistent state and the
`Ready` bundle. Terms, indices and node ids are unsigned 64-bit counters in the source; they
are natural numbers here, which agrees with the source as long as none reaches `2 ^ 64`. Every
result about arbitrary messages is one about runs that stay below this bound: a message of the term
`2 ^ 64 - 1` would have the next campaign start in term 0. A private field of a source class keeps
its trailing underscore.
-/

namespace NexusLOB.Raft

open Collections

abbrev NodeId := Nat
abbrev Bytes := List UInt8

instance : StrictWeak (less (K := NodeId)) := inferInstance

instance : StrictWeak (less (K := Bytes)) := inferInstance

inductive EntryType
  | normal
  | confChange
  | confChangeV2
  deriving DecidableEq, Repr

inductive Role
  | follower
  | candidate
  | leader
  | preCandidate
  deriving DecidableEq, Repr

structure Entry where
  term : Nat := 0
  index : Nat := 0
  type : EntryType := .normal
  data : Bytes := []
  deriving DecidableEq, Repr

/-- The bytes an in-memory entry occupies besides its payload (LP64 layout). -/
def sizeofEntry : Nat := 48

/-- All raft RPCs and internal signals. -/
inductive MessageType
  | msgPropose
  | msgApp
  | msgAppResp
  | msgVote
  | msgVoteResp
  | msgPreVote
  | msgPreVoteResp
  | msgSnap
  | msgHeartbeat
  | msgHeartbeatResp
  | msgUnreachable
  | msgSnapStatus
  | msgCheckQuorum
  | msgTransferLeader
  | msgTimeoutNow
  | msgReadIndex
  | msgReadIndexResp
  deriving DecidableEq, Repr

structure Snapshot where
  term : Nat := 0
  index : Nat := 0
  data : Bytes := []
  deriving DecidableEq, Repr

/-- One struct for every message. `receiver` and `sender` are the source's `to` and `from`,
which are keywords here. -/
structure Message where
  type : MessageType
  receiver : NodeId := 0
  sender : NodeId := 0
  term : Nat := 0
  logTerm : Nat := 0
  index : Nat := 0
  commit : Nat := 0
  reject : Bool := false
  rejectHint : Nat := 0
  entries : List Entry := []
  snapshot : Snapshot := {}
  context : Bytes := []
  deriving DecidableEq, Repr

structure HardState where
  term : Nat := 0
  vote : NodeId := 0
  commit : Nat := 0
  deriving DecidableEq, Repr

structure ConfState where
  nodes : List NodeId := []
  learners : List NodeId := []
  deriving DecidableEq, Repr

structure InitialState where
  hardState : HardState
  confState : ConfState
  deriving DecidableEq, Repr

inductive ReadOnlyOption
  | safe
  | leaseBased
  deriving DecidableEq, Repr

structure ReadState where
  index : Nat := 0
  requestCtx : Bytes := []
  deriving DecidableEq, Repr

/-- The work `poll` hands to the application. `entriesRemoved` is never set by the source and
left out. -/
structure Ready where
  entries : List Entry := []
  hardState : HardState := {}
  messages : List Message := []
  committedEntries : List Entry := []
  snapshot : Option Snapshot := none
  readStates : List ReadState := []
  deriving DecidableEq, Repr

def makeHardState (t : Nat) (v : NodeId) (c : Nat) : HardState :=
  { term := t, vote := v, commit := c }

end NexusLOB.Raft
