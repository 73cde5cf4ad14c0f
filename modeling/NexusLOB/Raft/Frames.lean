import NexusLOB.Raft.RawNode

/-!
# What a call leaves alone

Sending to a peer changes its progress and queues one message (`Posted`). The other work of a
leader touches the progress map, the queue and the log (`Worked`), and no call within a term touches
the ballot or what is configured (`RawNode.tenure`). The modules that follow one part of a node read
off from here that most calls do not concern it. What sending keeps, the calls that serve reads keep
as well (`SendClosed`).
-/

namespace NexusLOB.Raft

variable {n n' n'' : RawNode} {m : Message}

/-! ## Sending to one peer -/

/-- `n'` is `n` after an attempt to send an append or a snapshot to `target`. -/
inductive Posted (n : RawNode) (target : NodeId) : RawNode → Prop
  | silent : Posted n target n
  | snapshot {p : Progress} {m : Message} (hp : n.pr_.find? target = some p)
      (hm : m.receiver = target) :
      Posted n target ({ n with
        pr_ := n.pr_.modify target fun pr => pr.becomeSnapshot n.log_.snapshot.index }.send m)
  | append {p p' : Progress} {ents : List Entry} {m : Message} (hp : n.pr_.find? target = some p)
      (hp' : RawNode.afterAppend p ents = some p') (hm : m.receiver = target) :
      Posted n target ({ n with pr_ := n.pr_.modify target fun _ => p' }.send m)

theorem sendSnapshot_posted (n : RawNode) (target : NodeId) :
    Posted n target (n.sendSnapshot target) := by
  unfold RawNode.sendSnapshot
  split
  · exact .silent
  · rename_i p hp
    dsimp only
    split
    · exact .silent
    · exact .snapshot hp rfl

theorem sendAppend_posted (n : RawNode) (target : NodeId) :
    Posted n target (n.sendAppend target) := by
  have hsnap := sendSnapshot_posted n target
  unfold RawNode.sendAppend
  split
  · exact .silent
  rename_i p hp
  split
  · exact .silent
  split
  · exact hsnap
  dsimp only
  split
  · exact hsnap
  split
  · exact hsnap
  split
  · exact .silent
  split
  · exact .silent
  rename_i p' hp'
  exact .append hp hp' rfl

theorem sendAppend_log (n : RawNode) (target : NodeId) : (n.sendAppend target).log_ = n.log_ := by
  have hpost := sendAppend_posted n target
  generalize n.sendAppend target = n' at hpost ⊢
  cases hpost <;> rfl

/-- What holds of a node and is kept for every single peer holds after the loop over the peers. -/
theorem forPeers_induction {P : RawNode → Prop} {f : RawNode → NodeId → RawNode} (h : P n)
    (hf : ∀ n id, P n → P (f n id)) : P (n.forPeers f) := by
  unfold RawNode.forPeers
  generalize n.pr_.keys = keys
  induction keys generalizing n with
  | nil => exact h
  | cons id rest ih =>
    rw [List.foldl_cons]
    refine ih ?_
    split
    · exact h
    · exact hf n id h

theorem broadcastAppend_log (n : RawNode) : n.broadcastAppend.log_ = n.log_ := by
  unfold RawNode.broadcastAppend
  refine forPeers_induction (P := fun n' => n'.log_ = n.log_) rfl ?_
  intro n' id h
  rw [sendAppend_log, h]

/-! ## Serving reads -/

/-- A property of nodes that sending and a change of the pending reads keep. -/
structure SendClosed (P : RawNode → Prop) : Prop where
  sendAppend : ∀ {n}, P n → ∀ id, P (n.sendAppend id)
  heartbeat : ∀ {n}, P n → ∀ id ctx, P (n.send (n.heartbeat id ctx))
  answer : ∀ {n}, P n → ∀ {m}, m.type = .msgReadIndexResp → P (n.send m)
  reads : ∀ {n}, P n → ∀ ro rs reqs,
    P { n with readOnly_ := ro, readStates_ := rs, readRequestors_ := reqs }

namespace SendClosed

variable {P : RawNode → Prop} (hP : SendClosed P)
include hP

theorem broadcastAppend (h : P n) : P n.broadcastAppend :=
  forPeers_induction h fun _ id hn => hP.sendAppend hn id

theorem heartbeats (h : P n) (ctx : Bytes) :
    P (n.forPeers fun n id => n.send (n.heartbeat id ctx)) :=
  forPeers_induction h fun _ id hn => hP.heartbeat hn id ctx

theorem readIndex (h : P n) (ctx : Bytes) : P (n.readIndex ctx).2 := by
  have hadd := hP.reads h (n.readOnly_.add n.log_.commitIndex ctx) n.readStates_ n.readRequestors_
  unfold RawNode.readIndex
  dsimp only
  split_ifs
  · exact h
  · exact h
  · exact hP.heartbeats hadd ctx
  · exact hadd

theorem ackRead (h : P n) (m : Message) : P (n.ackRead m) := by
  unfold RawNode.ackRead
  dsimp only
  split
  · exact h
  split
  · exact hP.reads h _ _ _
  split
  · exact hP.reads h _ _ _
  split
  · exact hP.reads h _ _ _
  · exact hP.answer (hP.reads h _ _ _) rfl

theorem stepLeaderHeartbeatResp (h : P n) (m : Message) : P (n.stepLeaderHeartbeatResp m) := by
  unfold RawNode.stepLeaderHeartbeatResp
  split
  · exact h
  · refine hP.ackRead ?_ m
    split_ifs
    · exact hP.sendAppend h _
    · exact hP.sendAppend h _
    · exact h

theorem stepLeaderReadIndex (h : P n) (m : Message) : P (n.stepLeaderReadIndex m) := by
  have hadd := hP.reads h (n.readOnly_.add n.log_.commitIndex m.context) n.readStates_
  unfold RawNode.stepLeaderReadIndex
  dsimp only
  split_ifs
  · exact h
  · exact hP.heartbeats (hadd _) m.context
  · exact hadd _
  · exact hP.heartbeats (hadd n.readRequestors_) m.context
  · exact hadd n.readRequestors_

end SendClosed

/-! ## The work of a leader -/

/-- `n'` is `n` up to the progress map, the queued messages and the log. -/
def Worked (n n' : RawNode) : Prop :=
  ∃ pr msgs log, n' = { n with pr_ := pr, msgs_ := msgs, log_ := log }

theorem Worked.refl (n : RawNode) : Worked n n := ⟨_, _, _, rfl⟩

theorem Worked.trans (h : Worked n n') (h' : Worked n' n'') : Worked n n'' := by
  obtain ⟨_, _, _, rfl⟩ := h
  obtain ⟨_, _, _, rfl⟩ := h'
  exact ⟨_, _, _, rfl⟩

theorem Worked.role (h : Worked n n') : n'.role_ = n.role_ := by
  obtain ⟨_, _, _, rfl⟩ := h
  rfl

theorem Worked.term (h : Worked n n') : n'.term_ = n.term_ := by
  obtain ⟨_, _, _, rfl⟩ := h
  rfl

theorem send_worked (n : RawNode) (m : Message) : Worked n (n.send m) := ⟨_, _, _, rfl⟩

theorem sendAppend_worked (n : RawNode) (target : NodeId) : Worked n (n.sendAppend target) := by
  have hpost := sendAppend_posted n target
  generalize n.sendAppend target = n' at hpost ⊢
  cases hpost <;> exact ⟨_, _, _, rfl⟩

theorem heartbeats_worked (n : RawNode) (ctx : Bytes) :
    Worked n (n.forPeers fun n id => n.send (n.heartbeat id ctx)) :=
  forPeers_induction (.refl n) fun n' id h => h.trans (send_worked n' (n'.heartbeat id ctx))

theorem broadcastAppend_worked (n : RawNode) : Worked n n.broadcastAppend :=
  forPeers_induction (.refl n) fun n' id h => h.trans (sendAppend_worked n' id)

theorem propose_worked (n : RawNode) (data : Bytes) : Worked n (n.propose data).2 := by
  unfold RawNode.propose
  split
  · exact .refl n
  · exact Worked.trans ⟨_, _, _, rfl⟩ (broadcastAppend_worked _)

theorem maybeCommit_worked (n : RawNode) : Worked n n.maybeCommit.2 := by
  unfold RawNode.maybeCommit
  dsimp only
  split
  · exact ⟨_, _, _, rfl⟩
  · exact .refl n

theorem stepLeaderAppResp_worked (n : RawNode) (m : Message) :
    Worked n (n.stepLeaderAppResp m) := by
  unfold RawNode.stepLeaderAppResp
  split
  · exact .refl n
  · split
    · exact Worked.trans ⟨_, _, _, rfl⟩ (sendAppend_worked _ _)
    · have hcommit : Worked n _ := Worked.trans ⟨_, _, _, rfl⟩ (maybeCommit_worked
        { n with pr_ := n.pr_.modify m.sender (RawNode.acceptProgress m.index) })
      dsimp only
      generalize RawNode.maybeCommit _ = res at hcommit ⊢
      obtain ⟨committed, n'⟩ := res
      have hsent : Worked n (if committed = true then n'.broadcastAppend else n') := by
        split
        · exact hcommit.trans (broadcastAppend_worked n')
        · exact hcommit
      split
      · split
        · exact hsent.trans (sendAppend_worked _ _)
        · exact hsent
      · exact hsent

theorem stepSnapStatus_worked (n : RawNode) (m : Message) : Worked n (n.stepSnapStatus m) := by
  unfold RawNode.stepSnapStatus
  split
  · exact .refl n
  · split
    · exact ⟨_, _, _, rfl⟩
    · exact Worked.trans ⟨_, _, _, rfl⟩ (maybeCommit_worked _)

theorem rejectStale_worked (n : RawNode) (m : Message) : Worked n (n.rejectStale m) := by
  unfold RawNode.rejectStale
  dsimp only
  split <;> exact ⟨_, _, _, rfl⟩

/-! ## Campaigns -/

/-- A request of `term` for a log that ends in `logTerm` at `index`. -/
def voteRequest (candidate voter : NodeId) (term logTerm index : Nat) : Message :=
  { type := .msgVote, receiver := voter, sender := candidate, term := term, logTerm := logTerm,
    index := index }

/-- The vote request of a candidate. -/
def RawNode.request (n : RawNode) (voter : NodeId) : Message :=
  voteRequest n.id_ voter n.term_ n.log_.lastTerm n.log_.lastIndex

/-- A loop that queues one message for every other node. -/
theorem foldl_send {f : RawNode → NodeId → Message}
    (hf : ∀ n ms v, f { n with msgs_ := ms } v = f n v) (ids : List NodeId) (n : RawNode) :
    ids.foldl (fun n id => if id = n.id_ then n else n.send (f n id)) n =
      { n with msgs_ := n.msgs_ ++ (ids.filter (· ≠ n.id_)).map (f n) } := by
  induction ids generalizing n with
  | nil => simp
  | cons v ids ih =>
    rw [List.foldl_cons]
    by_cases hv : v = n.id_
    · rw [if_pos hv, ih, List.filter_cons_of_neg (by simp [hv])]
    · have hsame : f (n.send (f n v)) = f n := funext fun w => hf n _ w
      rw [if_neg hv, ih, List.filter_cons_of_pos (by simp [hv]), List.map_cons, hsame]
      change _ = { n with msgs_ := n.msgs_ ++ ([f n v] ++ _) }
      rw [← List.append_assoc]
      rfl

/-- A campaign that needs other votes asks for them. -/
theorem campaign_eq {draw : Nat} (hq : n.quorum ≠ 1) : n.campaign draw =
    { n.becomeCandidate draw with
      msgs_ := n.msgs_ ++
        (n.voters_.filter (· ≠ n.id_)).map (n.becomeCandidate draw).request } := by
  have hcand : ¬ (n.becomeCandidate draw).quorum = 1 := hq
  unfold RawNode.campaign
  dsimp only
  rw [if_neg hcand]
  exact foldl_send (f := RawNode.request) (fun _ _ _ => rfl) n.voters_ (n.becomeCandidate draw)

theorem campaign_alone {draw : Nat} (hq : n.quorum = 1) :
    n.campaign draw = (n.becomeCandidate draw).becomeLeader := if_pos hq

/-! ## Calls within a term -/

/-- The term and the vote, as a hard state has them. -/
def RawNode.ballot (n : RawNode) : Nat × NodeId := (n.term_, n.vote_)

/-- The election and heartbeat timeouts, the size limit of an append and the in-flight window. -/
def RawNode.params (n : RawNode) : Nat × Nat × Nat × Nat :=
  (n.electionTick_, n.heartbeatTick_, n.maxSizePerMsg_, n.maxInflightMsgs_)

/-- What changes with the term or never. -/
def RawNode.tenure (n : RawNode) : (Nat × NodeId) × (Nat × Nat × Nat × Nat) := (n.ballot, n.params)

theorem Worked.tenure (h : Worked n n') : n'.tenure = n.tenure := by
  obtain ⟨_, _, _, rfl⟩ := h
  rfl

theorem tenure_closed (n : RawNode) : SendClosed fun n' => n'.tenure = n.tenure where
  sendAppend := fun h id => (sendAppend_worked _ id).tenure.trans h
  heartbeat := fun h _ _ => h
  answer := fun h _ _ => h
  reads := fun h _ _ _ => h

theorem becomeLeader_tenure (n : RawNode) : n.becomeLeader.tenure = n.tenure := by
  unfold RawNode.becomeLeader
  dsimp only
  rw [(broadcastAppend_worked _).tenure]
  split <;> rfl

theorem pollVote_tenure (n : RawNode) (voter : NodeId) (granted : Bool) :
    (n.pollVote voter granted).tenure = n.tenure := by
  unfold RawNode.pollVote
  dsimp only
  split_ifs
  · rfl
  · exact becomeLeader_tenure _
  · rfl
  · rfl

theorem stepLeader_tenure (n : RawNode) (m : Message) : (n.stepLeader m).tenure = n.tenure := by
  unfold RawNode.stepLeader
  split
  · exact (propose_worked n _).tenure
  · exact (stepLeaderAppResp_worked n m).tenure
  · exact (tenure_closed n).stepLeaderHeartbeatResp rfl m
  · exact (tenure_closed n).stepLeaderReadIndex rfl m
  · rfl

theorem forward_tenure (n : RawNode) (m : Message) : (n.forward m).tenure = n.tenure := by
  unfold RawNode.forward
  split <;> rfl

theorem campaign_tenure (n : RawNode) (draw : Nat) :
    (n.campaign draw).tenure = ((n.term_ + 1, n.id_), n.params) := by
  by_cases hq : n.quorum = 1
  · rw [campaign_alone hq, becomeLeader_tenure]
    rfl
  · rw [campaign_eq hq]
    rfl

/-- The messages of a leader, as its followers handle them. -/
theorem stepFollower_leader_tenure
    (hty : m.type = .msgApp ∨ m.type = .msgHeartbeat ∨ m.type = .msgSnap) (draw : Nat) :
    (n.stepFollower m draw).tenure = n.tenure := by
  unfold RawNode.stepFollower
  rcases hty with hty | hty | hty
  · rw [hty]
    unfold RawNode.stepFollowerApp
    dsimp only
    split <;> rfl
  · rw [hty]
    unfold RawNode.stepFollowerHeartbeat
    dsimp only
    split <;> rfl
  · rw [hty]
    rfl

theorem advance_tenure (n : RawNode) : n.advance.tenure = n.tenure := by
  unfold RawNode.advance
  dsimp only
  split_ifs <;> rfl

end NexusLOB.Raft
