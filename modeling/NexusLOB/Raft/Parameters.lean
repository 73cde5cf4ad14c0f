import NexusLOB.Raft.ElectionPossible

/-!
# The parameters of a node

The timeouts and limits of a node come from its configuration and no call changes them.
-/

namespace NexusLOB.Raft

section Calls

variable (n : RawNode) (m : Message) (draw : Nat)

theorem params_of_tenure {n n' : RawNode} (h : n'.tenure = n.tenure) : n'.params = n.params :=
  congrArg Prod.snd h

theorem campaign_params : (n.campaign draw).params = n.params :=
  congrArg Prod.snd (campaign_tenure n draw)

theorem stepFollower_params : (n.stepFollower m draw).params = n.params := by
  unfold RawNode.stepFollower
  split
  · exact params_of_tenure (forward_tenure n m)
  · rw [stepFollowerApp_eq]
    split_ifs <;> rfl
  · rw [stepFollowerHeartbeat_eq]
    rfl
  · rfl
  · unfold RawNode.stepFollowerVote
    dsimp only
    split_ifs <;> rfl
  · unfold RawNode.stepFollowerVote
    dsimp only
    split_ifs <;> rfl
  · exact params_of_tenure (forward_tenure n m)
  · rfl
  · exact campaign_params _ _
  · rfl

theorem stepCandidate_params : (n.stepCandidate m draw).params = n.params := by
  unfold RawNode.stepCandidate
  split
  · exact params_of_tenure (pollVote_tenure _ _ _)
  · exact params_of_tenure (pollVote_tenure _ _ _)
  · dsimp only
    rw [stepFollower_params]
    split_ifs <;> rfl
  · dsimp only
    rw [stepFollower_params]
    split_ifs <;> rfl
  · dsimp only
    rw [stepFollower_params]
    split_ifs <;> rfl
  · exact campaign_params _ _
  · rfl

theorem step_params : (n.step m draw).params = n.params := by
  have hraise : (n.raiseTerm m draw).params = n.params := by
    unfold RawNode.raiseTerm
    split_ifs <;> rfl
  unfold RawNode.step
  split
  · rfl
  · exact params_of_tenure (stepSnapStatus_worked n m).tenure
  · dsimp only
    rw [← hraise]
    split_ifs
    · exact params_of_tenure (rejectStale_worked _ m).tenure
    · unfold RawNode.dispatch
      split
      · exact params_of_tenure (stepLeader_tenure _ m)
      · exact stepCandidate_params _ m draw
      · exact stepCandidate_params _ m draw
      · exact stepFollower_params _ m draw

theorem tick_params : (n.tick draw).2.params = n.params := by
  unfold RawNode.tick RawNode.tickElection
  dsimp only
  split_ifs
  · exact params_of_tenure (heartbeats_worked { n with tickCount_ := n.tickCount_ + 1 } []).tenure
  · rfl
  · exact campaign_params _ _
  · rfl

end Calls

/-- No event of a running process changes the parameters. -/
theorem handle_params (p : Peer) {ev : Event} (hlive : ∀ draw, ev ≠ .restart draw) :
    (p.handle ev).1.node.params = p.node.params := by
  have hmove := p.handle_move ev
  generalize p.handle ev = q at hmove ⊢
  cases hmove with
  | restart draw => exact absurd rfl (hlive draw)
  | persistHardState rd hready =>
    unfold Peer.saveHardState
    split_ifs <;> rfl
  | tick draw => exact tick_params p.node draw
  | step m draw => exact step_params p.node m draw
  | propose data => exact params_of_tenure (propose_worked p.node data).tenure
  | readIndex ctx => exact params_of_tenure ((tenure_closed p.node).readIndex rfl ctx)
  | advance => exact params_of_tenure (advance_tenure p.node)
  | poll | persistEntries | send | stay => rfl

end NexusLOB.Raft
