import NexusLOB.Raft.Driver
import NexusLOB.Raft.LogicalLog

/-!
# A cluster of peers

Peers with one set of voters and a network that may delay, reorder, duplicate or lose every
message: it keeps all messages ever sent, and any of them can be delivered at any time, any number
of times or never. The run also records, as a history variable, the log of each term's leader.
-/

namespace NexusLOB.Raft

/-- A cluster before its first step: every member is configured with the same voters, under its
own id, on an empty store. -/
structure Setup where
  members : List NodeId
  config : NodeId → Config
  conf : NodeId → ConfState
  draw : NodeId → Nat
  nodup : members.Nodup
  nonzero : 0 ∉ members
  id_eq : ∀ n ∈ members, (config n).id = n
  peers_perm : ∀ n ∈ members, (config n).peers.Perm members
  conf_perm : ∀ n ∈ members, (conf n).nodes = [] ∨ (conf n).nodes.Perm members

structure Cluster where
  peers : NodeId → Peer
  network : List Message
  leaderLog : Nat → List Entry

/-- What can happen: a message that was sent arrives, or a member's loop makes an event. -/
inductive Action
  | deliver (k draw : Nat)
  | run (n : NodeId) (ev : Event)
  deriving Repr

/-- The action is a crash, the loss of a node's memory. -/
def Action.isRestart : Action → Bool
  | .run _ (.restart _) => true
  | _ => false

/-- Messages that no peer sends: client requests and the transport's notices. -/
def Message.isLocal (m : Message) : Bool :=
  m.type = .msgPropose ∨ m.type = .msgReadIndex ∨ m.type = .msgUnreachable

/-- Events other than the arrival of a peer's message. -/
def Event.isLocal : Event → Bool
  | .step m _ => m.isLocal
  | _ => true

namespace Cluster

def init (s : Setup) : Cluster :=
  { peers := fun n => Peer.start (s.config n) (WriteAheadLog.fresh (s.conf n)) (s.draw n)
    network := []
    leaderLog := fun _ => [] }

/-- The history after node `p` acted: a leader's log is the log of its term. -/
def record (leaderLog : Nat → List Entry) (n : RawNode) : Nat → List Entry :=
  if n.role_ = .leader then Function.update leaderLog n.term_ n.log_.logical else leaderLog

def perform (c : Cluster) (n : NodeId) (ev : Event) : Cluster :=
  { peers := Function.update c.peers n ((c.peers n).handle ev).1
    network := c.network ++ ((c.peers n).handle ev).2
    leaderLog := record c.leaderLog ((c.peers n).handle ev).1.node }

def step (s : Setup) (c : Cluster) : Action → Cluster
  | .deliver k draw =>
    match c.network[k]? with
    | none => c
    | some m => if m.receiver ∈ s.members then c.perform m.receiver (.step m draw) else c
  | .run n ev => if n ∈ s.members ∧ ev.isLocal then c.perform n ev else c

/-- The state after a sequence of actions. -/
def exec (s : Setup) (acts : List Action) : Cluster := acts.foldl (step s) (init s)

end Cluster

end NexusLOB.Raft
