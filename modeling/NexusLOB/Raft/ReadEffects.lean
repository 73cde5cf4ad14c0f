import NexusLOB.Raft.NodeEffects

/-!
# What a call does to the pending reads

The reads of a node are its `ReadOnly` and the `ReadState`s it has not handed out yet. A leader's
calls other than `readIndex`, `MsgReadIndex` and an acknowledgement that carries a token leave them
alone.
-/

namespace NexusLOB.Raft

open Collections

/-- The part of a node its reads depend on. -/
structure ReadView where
  role : Role
  term : Nat
  voters : List NodeId
  readOnly : ReadOnly
  readStates : List ReadState

def RawNode.readView (n : RawNode) : ReadView :=
  { role := n.role_, term := n.term_, voters := n.voters_, readOnly := n.readOnly_,
    readStates := n.readStates_ }

variable {n : RawNode} {m : Message}

/-! ## Calls that leave the reads alone -/

theorem Worked.readView {n' : RawNode} (h : Worked n n') : n'.readView = n.readView := by
  obtain ⟨_, _, _, rfl⟩ := h
  rfl

theorem tick_readView (hr : n.role_ = .leader) (draw : Nat) :
    (n.tick draw).2.readView = n.readView := by
  unfold RawNode.tick
  rw [if_pos hr]
  dsimp only
  split
  · exact (heartbeats_worked { n with tickCount_ := n.tickCount_ + 1 } []).readView
  · rfl

/-! ## Registration -/

theorem readIndex_readView (n : RawNode) (ctx : Bytes) :
    (n.readIndex ctx).2.readView =
      if (n.readIndex ctx).1 then
        { n.readView with readOnly := n.readOnly_.add n.log_.commitIndex ctx }
      else n.readView := by
  unfold RawNode.readIndex
  split
  · rfl
  · split
    · rfl
    · dsimp only
      split
      · exact (heartbeats_worked _ ctx).readView
      · rfl

theorem ReadOnly.add_of_not_pending {r : ReadOnly} {i : Nat} {ctx : Bytes}
    (h : r.pending_.find? ctx = none) :
    r.add i ctx =
      { r with pending_ := r.pending_.insert ctx i, recvQueue_ := r.recvQueue_ ++ [ctx] } := by
  have hno : ¬ r.pending_.contains ctx = true := by
    rw [OrderedMap.contains, h]
    exact Bool.false_ne_true
  rw [add, if_neg hno]

theorem leader_of_readIndex {ctx : Bytes} (h : (n.readIndex ctx).1 = true) : n.role_ = .leader := by
  by_contra hr
  rw [RawNode.readIndex, if_pos hr] at h
  cases h

/-- A read that is accepted and does not wait yet is registered at the commit index. -/
theorem find?_readIndex {ctx : Bytes} (h : (n.readIndex ctx).1 = true)
    (hnew : n.readOnly_.pending_.find? ctx = none) :
    (n.readIndex ctx).2.readOnly_.pending_.find? ctx = some n.log_.commitIndex := by
  have hview := readIndex_readView n ctx
  rw [if_pos h] at hview
  have hro : (n.readIndex ctx).2.readOnly_ = n.readOnly_.add n.log_.commitIndex ctx :=
    congrArg ReadView.readOnly hview
  rw [hro, ReadOnly.add_of_not_pending hnew]
  exact OrderedMap.find?_insert_self _ _ _

/-! ## Acknowledgements -/

/-- Count an acknowledgement and drop what it answers: the read-index part of a heartbeat
response. -/
def ReadOnly.serve (r : ReadOnly) (m : Message) (quorum : Nat) : Option Nat × ReadOnly :=
  match r.recvAck m quorum with
  | (none, r) => (none, r)
  | (some _, r) => r.advance m.context

def ReadView.serve (v : ReadView) (m : Message) : ReadView :=
  let served := v.readOnly.serve m (v.voters.length / 2 + 1)
  { v with
    readOnly := served.2
    readStates := v.readStates ++ (served.1.map fun i => ⟨i, m.context⟩).toList }

theorem ackRead_readView (hctx : m.context ≠ []) :
    (n.ackRead m).readView = n.readView.serve m := by
  have hserve : n.readView.serve m =
      { n.readView with
        readOnly := (n.readOnly_.serve m n.quorum).2
        readStates := n.readStates_ ++
          ((n.readOnly_.serve m n.quorum).1.map fun i => ⟨i, m.context⟩).toList } := rfl
  rw [hserve, ReadOnly.serve, RawNode.ackRead, if_neg hctx]
  generalize n.readOnly_.recvAck m n.quorum = ack
  obtain ⟨ackIndex, r⟩ := ack
  cases ackIndex with
  | none =>
    rw [Option.map_none, Option.toList_none, List.append_nil]
    rfl
  | some _ =>
    dsimp only
    generalize r.advance m.context = adv
    obtain ⟨idx, r'⟩ := adv
    cases idx with
    | none =>
      rw [Option.map_none, Option.toList_none, List.append_nil]
      rfl
    | some i =>
      dsimp only
      split <;> rfl

/-- The messages that count as an acknowledgement of a pending read. -/
def RawNode.Acks (n : RawNode) (m : Message) : Prop :=
  m.type = .msgHeartbeatResp ∧ m.term = n.term_ ∧ m.context ≠ [] ∧ n.pr_.contains m.sender

instance (n : RawNode) (m : Message) : Decidable (n.Acks m) :=
  inferInstanceAs (Decidable (_ ∧ _ ∧ _ ∧ _))

theorem stepLeaderHeartbeatResp_readView (n : RawNode) (m : Message) :
    (n.stepLeaderHeartbeatResp m).readView =
      if m.context ≠ [] ∧ n.pr_.contains m.sender then n.readView.serve m else n.readView := by
  unfold RawNode.stepLeaderHeartbeatResp
  rw [OrderedMap.contains]
  cases n.pr_.find? m.sender with
  | none => simp
  | some pr =>
    have hsent : (if pr.state = .replicate then n.sendAppend m.sender
        else if pr.state = .probe ∧ ¬ pr.paused then n.sendAppend m.sender else n).readView =
        n.readView := by
      split_ifs
      · exact (sendAppend_worked n _).readView
      · exact (sendAppend_worked n _).readView
      · rfl
    dsimp only
    generalize (if pr.state = .replicate then _ else _ : RawNode) = n' at hsent ⊢
    by_cases hctx : m.context = []
    · rw [RawNode.ackRead, if_pos hctx, if_neg (fun h => h.1 hctx)]
      exact hsent
    · rw [ackRead_readView hctx, hsent, if_pos ⟨hctx, rfl⟩]

theorem raiseTerm_of_le (ht : m.term ≤ n.term_) (draw : Nat) : n.raiseTerm m draw = n := by
  rw [RawNode.raiseTerm, if_neg (fun h => Nat.not_lt.mpr ht h.1)]

section Leader

variable (hr : n.role_ = .leader) (ht : m.term ≤ n.term_)
include hr ht

theorem step_heartbeatResp_readView (hty : m.type = .msgHeartbeatResp) (draw : Nat) :
    (n.step m draw).readView = if n.Acks m then n.readView.serve m else n.readView := by
  have hstep : n.step m draw =
      if m.term < n.term_ then n.rejectStale m else n.stepLeaderHeartbeatResp m := by
    simp only [RawNode.step, hty, raiseTerm_of_le ht, RawNode.dispatch, hr, RawNode.stepLeader]
  rw [hstep]
  split
  · next hstale =>
    have hno : ¬ n.Acks m := fun h => by
      have heq := h.2.1
      omega
    rw [(rejectStale_worked n m).readView, if_neg hno]
  · have heq : m.term = n.term_ := by omega
    have hacks : n.Acks m ↔ m.context ≠ [] ∧ n.pr_.contains m.sender :=
      ⟨fun h => h.2.2, fun h => ⟨hty, heq, h⟩⟩
    rw [stepLeaderHeartbeatResp_readView]
    simp only [hacks]

/-- What the step of a message does to the reads of a node that stays leader. -/
theorem step_readView (hty : m.type ≠ .msgReadIndex) (draw : Nat) :
    (n.step m draw).readView = if n.Acks m then n.readView.serve m else n.readView := by
  by_cases hbeat : m.type = .msgHeartbeatResp
  · exact step_heartbeatResp_readView hr ht hbeat draw
  · rw [if_neg (fun h => hbeat h.1)]
    unfold RawNode.step
    split
    · rfl
    · exact (stepSnapStatus_worked n m).readView
    · dsimp only
      rw [raiseTerm_of_le ht, RawNode.dispatch, hr]
      dsimp only
      split
      · exact (rejectStale_worked n m).readView
      · unfold RawNode.stepLeader
        split
        · exact (propose_worked n _).readView
        · exact (stepLeaderAppResp_worked n m).readView
        · contradiction
        · contradiction
        · rfl

end Leader

end NexusLOB.Raft
