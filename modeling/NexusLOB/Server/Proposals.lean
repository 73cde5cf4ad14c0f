import NexusLOB.Raft.Cluster

/-!
# Clients waiting for their commands

`Server` runs the Ready loop of one node. A client's command is proposed, and the waiting client is
kept in `pending_` under the index that the log then ends at. The loop applies committed entries to
the state machine one by one, and whoever waits under the entry's index gets the result.

The client threads and the loop meet in two mutexes. A proposal and its registration happen in one
critical section of the raft mutex, so they are one step. `applyCommittedEntries` holds neither
while the state machine works: applying an entry and answering the client are two steps, and
proposals fall in between. The leadership check before the proposal is repeated by `propose`.
-/

namespace NexusLOB.App

open Raft Collections

/-- A client's slot. The entry is the one that `propose` built for its command, which the source
does not keep. -/
structure PendingProposal where
  rawResult : Bytes := []
  done : Bool := false
  entry : Entry
  deriving DecidableEq, Repr

/-- The server of one process: the state machine, the clients that ever waited, in the order in
which they came, and how far `applyCommittedEntries` has come. -/
structure Server (σ : Type) where
  fsm_ : σ
  appliedIndex_ : Nat := 0
  /-- A pointer to a slot is its place in this list. -/
  proposals : List PendingProposal := []
  pending_ : OrderedMap Nat Nat less := .empty
  /-- The entries of the `Ready` that are not yet applied. -/
  applying : List Entry := []
  /-- The entry that was applied last, while its client is not yet answered. -/
  answering : Option (Entry × Bytes) := none
  /-- The history of `apply` calls with their results. -/
  results : List (Entry × Bytes) := []

namespace Server

variable {σ : Type}

/-- `pending_[idx] = pending`. -/
def register (sv : Server σ) (idx : Nat) (e : Entry) : Server σ :=
  { sv with
    proposals := sv.proposals ++ [{ entry := e }]
    pending_ := sv.pending_.insert idx sv.proposals.length }

/-- The first half of an iteration of `applyCommittedEntries`. -/
def applyEntry (apply : σ → Bytes → Bytes × σ) (sv : Server σ) : Server σ :=
  match sv.answering, sv.applying with
  | none, e :: rest =>
    let (result, fsm) := apply sv.fsm_ e.data
    { sv with
      fsm_ := fsm
      appliedIndex_ := e.index
      applying := rest
      answering := some (e, result)
      results := sv.results ++ [(e, result)] }
  | _, _ => sv

/-- The second half: who waits under the entry's index gets the result. -/
def answer (sv : Server σ) : Server σ :=
  match sv.answering with
  | none => sv
  | some (e, result) =>
    match sv.pending_.find? e.index with
    | none => { sv with answering := none }
    | some k =>
      { sv with
        answering := none
        pending_ := sv.pending_.erase e.index
        proposals := sv.proposals.modify k fun p => { p with rawResult := result, done := true } }

end Server

/-- A cluster with the server of one of its members. -/
structure System (σ : Type) where
  cluster : Cluster
  server : Server σ

/-- Why a client is turned away at once. -/
structure Refusal where
  err : String
  leaderHint : NodeId := 0
  deriving DecidableEq, Repr

inductive SystemAction (Req : Type)
  | raft (a : Action)
  | onClientRequest (req : Req)
  | submitRaw (cmd : Bytes)
  | applyEntry
  | answer
  deriving Repr

/-- What the system is made of: the cluster, the member whose server is looked at, its state
machine and its codec. -/
structure Deployment (σ Req : Type) where
  setup : Setup
  self : NodeId
  apply : σ → Bytes → Bytes × σ
  fsm₀ : σ
  encode : Req → Bytes

namespace Deployment

variable {σ Req : Type} (d : Deployment σ Req)

def init : System σ := { cluster := Cluster.init d.setup, server := { fsm_ := d.fsm₀ } }

/-- The server's own node. -/
def peer (sys : System σ) : Peer := sys.cluster.peers d.self

/-- The critical section of a request: propose and register under the last index. -/
def propose (sys : System σ) (cmd : Bytes) : System σ :=
  let node := (d.peer sys).node
  let e : Entry := { term := node.term_, index := node.log_.lastIndex + 1, type := .normal, data := cmd }
  let c := sys.cluster.step d.setup (.run d.self (.propose cmd))
  { cluster := c
    server := sys.server.register (c.peers d.self).node.log_.lastIndex e }

/-- The slot the client waits on, or why it is turned away. -/
def onClientRequest (sys : System σ) (req : Req) : Except Refusal Nat × System σ :=
  let node := (d.peer sys).node
  if node.role_ ≠ .leader then
    (.error { err := "not leader", leaderHint := node.lead_ }, sys)
  else
    let data := d.encode req
    if data = [] then (.error { err := "bad request" }, sys)
    else (.ok sys.server.proposals.length, d.propose sys data)

/-- The slot the client waits on; without one it gets an empty result. -/
def submitRaw (sys : System σ) (cmd : Bytes) : Option Nat × System σ :=
  if (d.peer sys).node.role_ ≠ .leader then (none, sys)
  else (some sys.server.proposals.length, d.propose sys cmd)

/-- What an event of the own node means for the server: `poll` hands out committed entries, and a
crash loses the process. -/
def follow (sv : Server σ) (p : Peer) : Event → Server σ
  | .poll => if p.ready = none then { sv with applying := p.node.poll.1.committedEntries } else sv
  | .restart _ => { fsm_ := d.fsm₀ }
  | _ => sv

/-- The loop confirms a `Ready` only after its entries are applied. -/
def blocked (sv : Server σ) : Event → Bool
  | .advance => !sv.applying.isEmpty || sv.answering.isSome
  | _ => false

/-- An action of the cluster. -/
def raft (sys : System σ) (a : Action) : System σ :=
  match a with
  | .run n ev =>
    if n = d.self ∧ ev.isLocal then
      if blocked sys.server ev then sys
      else
        { cluster := sys.cluster.step d.setup a
          server := d.follow sys.server (d.peer sys) ev }
    else { sys with cluster := sys.cluster.step d.setup a }
  | .deliver _ _ => { sys with cluster := sys.cluster.step d.setup a }

/-- `applyCommittedEntries` comes after the messages of the `Ready` are sent. -/
def sentOut (sys : System σ) : Bool :=
  match (d.peer sys).ready with
  | some (.advance, _) => true
  | _ => false

def step (sys : System σ) : SystemAction Req → System σ
  | .raft a => d.raft sys a
  | .onClientRequest req => (d.onClientRequest sys req).2
  | .submitRaw cmd => (d.submitRaw sys cmd).2
  | .applyEntry =>
    if d.sentOut sys then { sys with server := sys.server.applyEntry d.apply } else sys
  | .answer => { sys with server := sys.server.answer }

def exec (acts : List (SystemAction Req)) : System σ := acts.foldl d.step d.init

end Deployment

end NexusLOB.App
