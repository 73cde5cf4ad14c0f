import NexusLOB.Raft.RawNode

/-!
# The Ready loop

`Peer` is a `RawNode` with the loop that drives it, `Server::raftLoop` and `Server::processReady`.
The loop ticks, steps received messages and polls; what `poll` hands out is then written to the
store (entries, then hard state), sent and applied, and `advance` confirms it. The raft mutex
protects the node, so between `poll` and `advance` only the calls of client threads, `propose`
and `readIndex`, can fall. A crash loses the node and keeps the store, and a restart builds a new
node on it.
-/

namespace NexusLOB.Raft

/-- How far the processing of a `Ready` has come: what is done next. -/
inductive Stage
  | persistEntries
  | persistHardState
  | send
  | advance
  deriving DecidableEq, Repr

structure Peer where
  config : Config
  node : RawNode
  /-- The `Ready` being processed, between `poll` and `advance`. -/
  ready : Option (Stage × Ready) := none
  /-- All committed entries handed out since the process started. -/
  delivered : List Entry := []
  deriving Repr

inductive Event
  | tick (draw : Nat)
  | step (m : Message) (draw : Nat)
  | propose (data : Bytes)
  | readIndex (ctx : Bytes)
  | poll
  | persistEntries
  | persistHardState
  | send
  | advance
  | restart (draw : Nat)
  deriving Repr

namespace Peer

/-- The node's store, which survives the node. -/
def storage (p : Peer) : WriteAheadLog := p.node.log_.storage_

/-- Write to the node's store. -/
def store (p : Peer) (f : WriteAheadLog → WriteAheadLog) : Peer :=
  { p with node := { p.node with log_ := { p.node.log_ with storage_ := f p.node.log_.storage_ } } }

/-- A process starting on a store. -/
def start (c : Config) (w : WriteAheadLog) (draw : Nat) : Peer :=
  { config := c, node := RawNode.new c w draw }

/-- `saveHardState` is skipped for a hard state that says nothing. -/
def saveHardState (p : Peer) (hs : HardState) : Peer :=
  if hs.term ≠ 0 ∨ hs.commit ≠ 0 then p.store fun w => w.saveHardState hs else p

/-- One event of the loop and the messages it sends. An event that the loop cannot make at this
point changes nothing. -/
def handle (p : Peer) (ev : Event) : Peer × List Message :=
  match ev, p.ready with
  | .tick draw, none => ({ p with node := (p.node.tick draw).2 }, [])
  | .step m draw, none => ({ p with node := p.node.step m draw }, [])
  | .propose data, _ => ({ p with node := (p.node.propose data).2 }, [])
  | .readIndex ctx, _ => ({ p with node := (p.node.readIndex ctx).2 }, [])
  | .poll, none =>
    ({ p with
       node := p.node.poll.2
       ready := some (.persistEntries, p.node.poll.1)
       delivered := p.delivered ++ p.node.poll.1.committedEntries }, [])
  | .persistEntries, some (.persistEntries, rd) =>
    ({ p.store (fun w => w.appendNoSync rd.entries) with
       ready := some (.persistHardState, rd) }, [])
  | .persistHardState, some (.persistHardState, rd) =>
    ({ p.saveHardState rd.hardState with ready := some (.send, rd) }, [])
  | .send, some (.send, rd) => ({ p with ready := some (.advance, rd) }, rd.messages)
  | .advance, some (.advance, _) => ({ p with node := p.node.advance, ready := none }, [])
  | .restart draw, _ => (start p.config p.storage draw, [])
  | _, _ => (p, [])

/-- What an event can do to a peer, with the messages it sends: one case for each call of the loop,
and one for an event that the loop cannot make at this point. -/
inductive Move (p : Peer) : Event → Peer × List Message → Prop
  | tick (draw : Nat) (hready : p.ready = none) :
    Move p (.tick draw) ({ p with node := (p.node.tick draw).2 }, [])
  | step (m : Message) (draw : Nat) (hready : p.ready = none) :
    Move p (.step m draw) ({ p with node := p.node.step m draw }, [])
  | propose (data : Bytes) : Move p (.propose data) ({ p with node := (p.node.propose data).2 }, [])
  | readIndex (ctx : Bytes) :
    Move p (.readIndex ctx) ({ p with node := (p.node.readIndex ctx).2 }, [])
  | poll (hready : p.ready = none) :
    Move p .poll ({ p with
      node := p.node.poll.2
      ready := some (.persistEntries, p.node.poll.1)
      delivered := p.delivered ++ p.node.poll.1.committedEntries }, [])
  | persistEntries (rd : Ready) (hready : p.ready = some (.persistEntries, rd)) :
    Move p .persistEntries ({ p.store (fun w => w.appendNoSync rd.entries) with
      ready := some (.persistHardState, rd) }, [])
  | persistHardState (rd : Ready) (hready : p.ready = some (.persistHardState, rd)) :
    Move p .persistHardState ({ p.saveHardState rd.hardState with ready := some (.send, rd) }, [])
  | send (rd : Ready) (hready : p.ready = some (.send, rd)) :
    Move p .send ({ p with ready := some (.advance, rd) }, rd.messages)
  | advance (rd : Ready) (hready : p.ready = some (.advance, rd)) :
    Move p .advance ({ p with node := p.node.advance, ready := none }, [])
  | restart (draw : Nat) : Move p (.restart draw) (start p.config p.storage draw, [])
  | stay (ev : Event) : Move p ev (p, [])

theorem handle_move (p : Peer) (ev : Event) : p.Move ev (p.handle ev) := by
  unfold handle
  split
  next draw hready => exact .tick draw hready
  next m draw hready => exact .step m draw hready
  next data => exact .propose data
  next ctx => exact .readIndex ctx
  next hready => exact .poll hready
  next rd hready => exact .persistEntries rd hready
  next rd hready => exact .persistHardState rd hready
  next rd hready => exact .send rd hready
  next rd hready => exact .advance rd hready
  next draw => exact .restart draw
  next => exact .stay _

/-- A run of one peer, the messages of all events discarded. -/
def exec (p : Peer) (evs : List Event) : Peer := evs.foldl (fun p ev => (p.handle ev).1) p

/-- `P` holds at every event of a run. -/
def Along (P : Peer → Event → Prop) : Peer → List Event → Prop
  | _, [] => True
  | p, ev :: evs => P p ev ∧ Along P (p.handle ev).1 evs

instance decidableAlong (P : Peer → Event → Prop) [∀ p ev, Decidable (P p ev)] :
    (p : Peer) → (evs : List Event) → Decidable (p.Along P evs)
  | _, [] => inferInstanceAs (Decidable True)
  | p, ev :: evs =>
    have := decidableAlong P (p.handle ev).1 evs
    inferInstanceAs (Decidable (P p ev ∧ Along P (p.handle ev).1 evs))

section Along

variable {P Q : Peer → Event → Prop} {p : Peer} {evs more : List Event}

theorem exec_append (p : Peer) (evs more : List Event) :
    p.exec (evs ++ more) = (p.exec evs).exec more := List.foldl_append

theorem along_append : p.Along P (evs ++ more) ↔ p.Along P evs ∧ (p.exec evs).Along P more := by
  induction evs generalizing p with
  | nil => exact ⟨fun h => ⟨trivial, h⟩, And.right⟩
  | cons ev evs ih =>
    simp only [List.cons_append, Along, ih, and_assoc]
    rfl

theorem along_of_forall (h : ∀ ev ∈ evs, ∀ p, P p ev) : p.Along P evs := by
  induction evs generalizing p with
  | nil => trivial
  | cons ev evs ih =>
    exact ⟨h ev List.mem_cons_self p, ih fun ev' hev' => h ev' (List.mem_cons_of_mem _ hev')⟩

theorem Along.and (h : p.Along P evs) (h' : p.Along Q evs) :
    p.Along (fun p ev => P p ev ∧ Q p ev) evs := by
  induction evs generalizing p with
  | nil => trivial
  | cons ev evs ih => exact ⟨⟨h.1, h'.1⟩, ih h.2 h'.2⟩

/-- What every event preserves, a run preserves. -/
theorem Along.preserves {I : Peer → Prop} (h : p.Along P evs)
    (hstep : ∀ {p ev}, I p → P p ev → I (p.handle ev).1) (h₀ : I p) : I (p.exec evs) := by
  induction evs generalizing p with
  | nil => exact h₀
  | cons ev evs ih => exact ih h.2 (hstep h₀ h.1)

end Along

end Peer

end NexusLOB.Raft
