import NexusLOB.Raft.Driver
import NexusLOB.Raft.ReadRound

/-!
# Received snapshots

A follower that steps a `MsgSnap` moves its commit and applied marks to the snapshot at once, and
the snapshot waits in the unstable log. `poll` does not look for it there: no `Ready` carries a
snapshot, and the state machine goes on with the entries behind it.
-/

namespace NexusLOB.Raft

/-- No `Ready` that is being processed carries a snapshot. -/
def Peer.Plain (p : Peer) : Prop := ∀ {stage rd}, p.ready = some (stage, rd) → rd.snapshot = none

theorem Peer.Plain.of_ready {p p' : Peer} (h : p.Plain) {stage stage' : Stage} {rd : Ready}
    (hready : p.ready = some (stage, rd)) (hready' : p'.ready = some (stage', rd)) : p'.Plain := by
  intro stage'' rd'' h''
  rw [hready'] at h''
  cases h''
  exact h hready

theorem Peer.Plain.handle {p : Peer} (h : p.Plain) (ev : Event) : (p.handle ev).1.Plain := by
  have hmove := p.handle_move ev
  generalize p.handle ev = q at hmove ⊢
  cases hmove with
  | poll =>
    intro stage rd hrd
    cases hrd
    rfl
  | persistEntries rd hready =>
    apply h.of_ready hready
    rfl
  | persistHardState rd hready =>
    apply h.of_ready hready
    rfl
  | send rd hready =>
    apply h.of_ready hready
    rfl
  | advance =>
    intro stage rd hrd
    cases hrd
  | restart =>
    intro stage rd hrd
    cases hrd
  | _ => exact @h

theorem Peer.Plain.exec {p : Peer} (h : p.Plain) (evs : List Event) : (p.exec evs).Plain := by
  induction evs generalizing p with
  | nil => exact h
  | cons ev evs ih => exact ih (h.handle ev)

theorem step_snap {n : RawNode} {m : Message} (hr : n.role_ = .follower) (hty : m.type = .msgSnap)
    (ht : m.term = n.term_) (draw : Nat) : n.step m draw = n.stepFollowerSnap m := by
  simp only [RawNode.step, hty, raiseTerm_of_le ht.le, RawNode.dispatch, hr, RawNode.stepFollower, ht,
    Nat.lt_irrefl, if_false]

/-- A follower steps a snapshot of its leader. It takes the snapshot for applied, the next `poll`
does not hand it out, and neither does any `Ready` of the run that goes on from there. -/
theorem snapshot_never_delivered {n : RawNode} {m : Message} (hr : n.role_ = .follower)
    (hty : m.type = .msgSnap) (ht : m.term = n.term_) (draw : Nat) (c : Config)
    (evs : List Event) :
    (n.step m draw).log_.appliedIndex = m.snapshot.index ∧
      (n.step m draw).poll.1.snapshot ≠ some m.snapshot ∧
      ∀ stage rd, (Peer.exec { config := c, node := n.step m draw } evs).ready = some (stage, rd) →
        rd.snapshot ≠ some m.snapshot := by
  have hplain : Peer.Plain { config := c, node := n.step m draw } := by
    intro stage rd hrd
    cases hrd
  refine ⟨?_, (Option.some_ne_none _).symm, ?_⟩
  · rw [step_snap hr hty ht]
    rfl
  · intro stage rd hrd
    rw [hplain.exec evs hrd]
    exact (Option.some_ne_none _).symm

/-- A snapshot of five entries, from the leader of term 1. -/
def fiveEntries : Message :=
  { type := .msgSnap, receiver := 2, sender := 1, term := 1
    snapshot := { term := 1, index := 5, data := [7] } }

/-- Node 2 without entries, after a heartbeat of that leader. -/
def heardLeader : RawNode :=
  (oneOfThree 2).step { type := .msgHeartbeat, receiver := 2, sender := 1, term := 1 } 1

theorem snapshot_never_delivered_five_entries :
    heardLeader.log_.commitIndex < fiveEntries.snapshot.index ∧
      (heardLeader.step fiveEntries 1).poll.1.snapshot ≠ some fiveEntries.snapshot :=
  ⟨by decide, (snapshot_never_delivered (by decide) (by decide) (by decide) 1 {} []).2.1⟩

/-- The node counts five entries as applied and has handed out neither them nor the snapshot. -/
theorem snapshot_skipped :
    heardLeader.term_ = fiveEntries.term ∧ heardLeader.log_.appliedIndex = 0 ∧
      (heardLeader.step fiveEntries 1).log_.appliedIndex = 5 ∧
      (heardLeader.step fiveEntries 1).poll.1.snapshot = none ∧
      (heardLeader.step fiveEntries 1).poll.1.committedEntries = [] := by
  decide

end NexusLOB.Raft
