import NexusLOB.Raft.Types

/-!
# Pending linearizable reads

`ReadOnly` tracks the read requests registered on a leader, keyed by the client's token.
-/

namespace NexusLOB.Raft

open Collections

structure ReadOnly where
  option_ : ReadOnlyOption := .safe
  pending_ : OrderedMap Bytes Nat less := .empty
  acks_ : OrderedMap Bytes (List NodeId) less := .empty
  recvQueue_ : List Bytes := []
  deriving DecidableEq, Repr

namespace ReadOnly

def add (r : ReadOnly) (index : Nat) (ctx : Bytes) : ReadOnly :=
  if r.pending_.contains ctx then r
  else { r with pending_ := r.pending_.insert ctx index, recvQueue_ := r.recvQueue_ ++ [ctx] }

def recvAck (r : ReadOnly) (m : Message) (quorum : Nat) : Option Nat × ReadOnly :=
  match r.pending_.find? m.context with
  | none => (none, r)
  | some index =>
    let ackList := (r.acks_.find? m.context).getD []
    let ackList := if m.sender ∈ ackList then ackList else ackList ++ [m.sender]
    let r := { r with acks_ := r.acks_.insert m.context ackList }
    if ackList.length + 1 ≥ quorum then (some index, r) else (none, r)

/-- The loop of `advance`: drop queued tokens up to and including `ctx`. -/
def popThrough (ctx : Bytes) (r : ReadOnly) : List Bytes → ReadOnly
  | [] => { r with recvQueue_ := [] }
  | front :: rest =>
    let r := { r with
      recvQueue_ := rest
      pending_ := r.pending_.erase front
      acks_ := r.acks_.erase front }
    if front = ctx then r else popThrough ctx r rest

def advance (r : ReadOnly) (ctx : Bytes) : Option Nat × ReadOnly :=
  match r.pending_.find? ctx with
  | none => (none, r)
  | some index => (some index, popThrough ctx r r.recvQueue_)

def reset (r : ReadOnly) : ReadOnly :=
  { r with pending_ := .empty, acks_ := .empty, recvQueue_ := [] }

end ReadOnly

end NexusLOB.Raft
