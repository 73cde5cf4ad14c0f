import NexusLOB.Raft.ReadEffects

/-!
# A round of a linearizable read

`readIndex` sends heartbeats that carry the client's token, and the leader counts the responses that
carry it back. A follower's response carries no token: a round leaves the reads of the leader where
they were, whoever takes part in it.
-/

namespace NexusLOB.Raft

open Collections

/-- The messages a call queued. -/
def RawNode.queued (before after : RawNode) : List Message := after.msgs_.drop before.msgs_.length

/-- The heartbeats of a read that go to a node. -/
def RawNode.readHeartbeats (l : RawNode) (ctx : Bytes) (f : RawNode) : List Message :=
  (l.queued (l.readIndex ctx).2).filter fun m =>
    decide (m.type = .msgHeartbeat ∧ m.receiver = f.id_ ∧ m.context = ctx)

/-- What a node answers when it steps them. -/
def RawNode.readAnswers (l : RawNode) (ctx : Bytes) (draw : Nat) (f : RawNode) : List Message :=
  f.queued ((l.readHeartbeats ctx f).foldl (fun f m => f.step m draw) f)

/-- The leader registers a read, the nodes of `q` step its heartbeats and the leader steps their
answers. -/
def RawNode.readRound (l : RawNode) (ctx : Bytes) (draw : Nat) (q : List RawNode) : RawNode :=
  (q.flatMap (l.readAnswers ctx draw)).foldl (fun l m => l.step m draw) (l.readIndex ctx).2

/-! ## Heartbeats -/

/-- After some calls a node of term `t` has queued only messages of a kind. -/
structure Queues (P : Message → Prop) (n n' : RawNode) : Prop where
  term : n'.term_ = n.term_
  msgs : ∃ ms, n'.msgs_ = n.msgs_ ++ ms ∧ ∀ m ∈ ms, P m

theorem Queues.refl (P : Message → Prop) (n : RawNode) : Queues P n n :=
  ⟨rfl, [], (List.append_nil _).symm, fun _ h => absurd h List.not_mem_nil⟩

theorem Queues.send {P : Message → Prop} {n n' : RawNode} {m : Message} (h : Queues P n n')
    (hm : P m) : Queues P n (n'.send m) := by
  obtain ⟨ms, hms, hall⟩ := h.msgs
  refine ⟨h.term, ms ++ [m], ?_, ?_⟩
  · rw [RawNode.send, hms, List.append_assoc]
  · intro m' hm'
    rcases List.mem_append.mp hm' with hold | hnew
    · exact hall m' hold
    · rw [List.mem_singleton.mp hnew]
      exact hm

theorem Queues.queued {P : Message → Prop} {n n' : RawNode} (h : Queues P n n') :
    ∀ m ∈ n.queued n', P m := by
  obtain ⟨ms, hms, hall⟩ := h.msgs
  rw [RawNode.queued, hms, List.drop_left]
  exact hall

/-- A heartbeat of term `t`. -/
def Message.BeatOf (t : Nat) (m : Message) : Prop := m.type = .msgHeartbeat ∧ m.term = t

theorem readIndex_queues (l : RawNode) (ctx : Bytes) :
    Queues (Message.BeatOf l.term_) l (l.readIndex ctx).2 := by
  unfold RawNode.readIndex
  split
  · exact Queues.refl _ l
  · split
    · exact Queues.refl _ l
    · dsimp only
      have hreg : Queues (Message.BeatOf l.term_) l
          { l with readOnly_ := l.readOnly_.add l.log_.commitIndex ctx } :=
        ⟨rfl, [], (List.append_nil _).symm, fun _ h => absurd h List.not_mem_nil⟩
      split
      · apply forPeers_induction (P := Queues (Message.BeatOf l.term_) l) hreg
        intro n id h
        exact h.send ⟨rfl, h.term⟩
      · exact hreg

/-! ## Answers -/

/-- A heartbeat response of term `t` without a token. -/
def Message.BareResp (t : Nat) (m : Message) : Prop :=
  m.type = .msgHeartbeatResp ∧ m.term = t ∧ m.context = []

/-- A follower answers the heartbeat of its leader without the token. -/
theorem step_heartbeat_queues {f f' : RawNode} {m : Message} (hf' : f'.role_ = .follower)
    (h : Queues (Message.BareResp f.term_) f f') (hm : m.BeatOf f.term_) (draw : Nat) :
    (f'.step m draw).role_ = .follower ∧
      Queues (Message.BareResp f.term_) f (f'.step m draw) := by
  have hterm : m.term = f'.term_ := hm.2.trans h.term.symm
  have hstep : f'.step m draw = f'.stepFollowerHeartbeat m := by
    simp only [RawNode.step, hm.1, raiseTerm_of_le hterm.le, RawNode.dispatch, hf',
      RawNode.stepFollower, hterm, Nat.lt_irrefl, if_false]
  rw [hstep, RawNode.stepFollowerHeartbeat]
  dsimp only
  split
  · exact ⟨hf', Queues.send ⟨h.term, h.msgs⟩ ⟨rfl, h.term, rfl⟩⟩
  · exact ⟨hf', Queues.send ⟨h.term, h.msgs⟩ ⟨rfl, h.term, rfl⟩⟩

theorem steps_heartbeat_queues {f f' : RawNode} (hf' : f'.role_ = .follower)
    (h : Queues (Message.BareResp f.term_) f f') {ms : List Message}
    (hms : ∀ m ∈ ms, m.BeatOf f.term_) (draw : Nat) :
    Queues (Message.BareResp f.term_) f (ms.foldl (fun f m => f.step m draw) f') := by
  induction ms generalizing f' with
  | nil => exact h
  | cons m ms ih =>
    obtain ⟨hm, hms⟩ := List.forall_mem_cons.mp hms
    obtain ⟨hrole, hqueues⟩ := step_heartbeat_queues hf' h hm draw
    exact ih hrole hqueues hms

theorem readAnswers_bare {l f : RawNode} (hf : f.role_ = .follower) (ht : f.term_ = l.term_)
    (ctx : Bytes) (draw : Nat) : ∀ m ∈ l.readAnswers ctx draw f, m.BareResp l.term_ := by
  have hbeats : ∀ m ∈ l.readHeartbeats ctx f, m.BeatOf f.term_ := by
    intro m hm
    rw [ht]
    exact (readIndex_queues l ctx).queued m (List.mem_of_mem_filter hm)
  rw [← ht]
  exact (steps_heartbeat_queues hf (Queues.refl _ f) hbeats draw).queued

/-! ## The round -/

/-- A response without a token leaves the leader's reads alone. -/
theorem step_bare_readView {l : RawNode} {m : Message} (hr : l.role_ = .leader)
    (hm : m.BareResp l.term_) (draw : Nat) : (l.step m draw).readView = l.readView := by
  rw [step_heartbeatResp_readView hr hm.2.1.le hm.1]
  exact if_neg (fun h => h.2.2.1 hm.2.2)

theorem steps_bare_readView {l : RawNode} (hr : l.role_ = .leader) {ms : List Message}
    (hms : ∀ m ∈ ms, m.BareResp l.term_) (draw : Nat) :
    (ms.foldl (fun l m => l.step m draw) l).readView = l.readView := by
  induction ms generalizing l with
  | nil => rfl
  | cons m ms ih =>
    obtain ⟨hm, hms⟩ := List.forall_mem_cons.mp hms
    have hview := step_bare_readView hr hm draw
    have hrole : (l.step m draw).role_ = .leader := (congrArg ReadView.role hview).trans hr
    have hterm : (l.step m draw).term_ = l.term_ := congrArg ReadView.term hview
    rw [List.foldl_cons, ih hrole (hterm ▸ hms), hview]

theorem readRound_readStates {l : RawNode} (hl : l.role_ = .leader) (ctx : Bytes) (draw : Nat)
    {q : List RawNode} (hq : ∀ f ∈ q, f.role_ = .follower ∧ f.term_ = l.term_) :
    (l.readRound ctx draw q).readStates_ = l.readStates_ := by
  have hview := readIndex_readView l ctx
  have hkept : (l.readIndex ctx).2.role_ = l.role_ ∧ (l.readIndex ctx).2.term_ = l.term_ ∧
      (l.readIndex ctx).2.readStates_ = l.readStates_ := by
    split at hview
    · exact ⟨congrArg ReadView.role hview, congrArg ReadView.term hview,
        congrArg ReadView.readStates hview⟩
    · exact ⟨congrArg ReadView.role hview, congrArg ReadView.term hview,
        congrArg ReadView.readStates hview⟩
  have hms : ∀ m ∈ q.flatMap (l.readAnswers ctx draw), m.BareResp (l.readIndex ctx).2.term_ := by
    intro m hm
    obtain ⟨f, hf, hm⟩ := List.mem_flatMap.mp hm
    rw [hkept.2.1]
    exact readAnswers_bare (hq f hf).1 (hq f hf).2 ctx draw m hm
  have hround := steps_bare_readView (hkept.1.trans hl) hms draw
  exact (congrArg ReadView.readStates hround).trans hkept.2.2

/-- A leader registers a read, any followers of its term step the heartbeats and the leader their
responses. The next `poll` has a `ReadState` of that token and index exactly if one was waiting
before the read was registered. -/
theorem read_round_answered_iff {l : RawNode} (hl : l.role_ = .leader) (ctx : Bytes) (draw : Nat)
    {q : List RawNode} (hq : ∀ f ∈ q, f.role_ = .follower ∧ f.term_ = l.term_) :
    { index := l.log_.commitIndex, requestCtx := ctx } ∈
        (l.readRound ctx draw q).poll.1.readStates ↔
      { index := l.log_.commitIndex, requestCtx := ctx } ∈ l.readStates_ := by
  change _ ∈ (l.readRound ctx draw q).readStates_ ↔ _
  rw [readRound_readStates hl ctx draw hq]

/-- A node of a cluster of three that has just started. -/
def oneOfThree (id : NodeId) : RawNode :=
  .new { id := id, electionTick := 1, peers := [1, 2, 3] } (WriteAheadLog.fresh {}) 1

/-- Node 1, elected in term 1 by node 2. -/
def electedOfThree : RawNode :=
  ((oneOfThree 1).campaign 1).step { type := .msgVoteResp, receiver := 1, sender := 2, term := 1 } 1

/-- Node 2 after its vote. -/
def electorOfThree : RawNode :=
  (oneOfThree 2).step { type := .msgVote, receiver := 2, sender := 1, term := 1 } 1

theorem read_round_answered_iff_elector :
    electedOfThree.role_ = .leader ∧
      ({ index := 0, requestCtx := [9] } ∈
          (electedOfThree.readRound [9] 1 [electorOfThree]).poll.1.readStates ↔
        { index := 0, requestCtx := [9] } ∈ electedOfThree.readStates_) := by
  have hl : electedOfThree.role_ = .leader := by decide
  refine ⟨hl, read_round_answered_iff hl [9] 1 ?_⟩
  intro f hf
  rw [List.mem_singleton.mp hf]
  decide

/-- Node 2 and the leader are a quorum and node 2 steps the heartbeat that carries the token, but
the read is not answered. -/
theorem read_round_unanswered :
    (electedOfThree.role_ = .leader ∧ electedOfThree.quorum = 2 ∧
        electedOfThree.readOnly_.option_ = .safe ∧
        electedOfThree.readOnly_.pending_.find? [9] = none ∧
        electorOfThree.role_ = .follower ∧ electorOfThree.term_ = electedOfThree.term_ ∧
        (electedOfThree.readHeartbeats [9] electorOfThree).map Message.context = [[9]]) ∧
      (electedOfThree.readRound [9] 1 [electorOfThree]).poll.1.readStates = [] := by
  decide

end NexusLOB.Raft
