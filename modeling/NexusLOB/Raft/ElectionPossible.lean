import NexusLOB.Raft.Exchange
import NexusLOB.Raft.InOrder
import NexusLOB.Raft.Safety
import Mathlib.Data.Prod.Lex
import Mathlib.Data.Finset.Max

/-!
# No state of a cluster is stuck

From every state that a cluster of two or more members can reach, with crashes, lost and repeated
messages and competing candidates before, clocks, loops and deliveries alone can bring about a new
leader. The members first finish the `Ready` they are working on. If the member whose log is as up
to date as any other's leads, the request of another candidate makes it a follower: somebody voted
for the leader of the highest term and does not lead. Then it times out until its term is above all
terms and asks the others, who raise their terms, have no vote in the new one and grant it.
-/

namespace NexusLOB.Raft

open Consensus

/-! ## One node -/

def voteGrant (voter candidate : NodeId) (term : Nat) : Message :=
  { type := .msgVoteResp, receiver := candidate, sender := voter, term := term }

section Node

variable {n : RawNode} {m : Message} {draw : Nat}

/-- A request of a later term makes any node a follower before it answers. -/
theorem step_request_eq (hty : m.type = .msgVote) (hterm : n.term_ < m.term) :
    n.step m draw = (n.becomeFollower m.term 0 draw).stepFollowerVote m := by
  have hraise : n.raiseTerm m draw = n.becomeFollower m.term 0 draw :=
    if_pos ⟨hterm, by rw [hty]; decide, by rw [hty]; decide⟩
  unfold RawNode.step
  simp only [hty, hraise]
  rw [if_neg (show ¬ m.term < (n.becomeFollower m.term 0 draw).term_ from Nat.lt_irrefl m.term)]
  change (n.becomeFollower m.term 0 draw).stepFollower m draw = _
  unfold RawNode.stepFollower
  rw [hty]

/-- A node behind the candidate in term and in log grants the request. -/
theorem step_request (hty : m.type = .msgVote) (hterm : n.term_ < m.term)
    (hup : n.logUpToDate m = true) : n.step m draw =
    { n.becomeFollower m.term 0 draw with
      vote_ := m.sender
      msgs_ := n.msgs_ ++ [voteGrant n.id_ m.sender m.term] } := by
  have hgrant : (n.becomeFollower m.term 0 draw).logUpToDate m = true := hup
  have hvote : (n.becomeFollower m.term 0 draw).vote_ = 0 := rfl
  rw [step_request_eq hty hterm]
  unfold RawNode.stepFollowerVote
  simp only [hgrant, hvote, hty, true_or, decide_true, Bool.and_self, if_true, and_self,
    Bool.not_true]
  rfl

/-- Whatever the answer, the node does not lead afterwards and has the log it had. -/
theorem step_request_office (hty : m.type = .msgVote) (hterm : n.term_ < m.term) :
    (n.step m draw).role_ = .follower ∧ (n.step m draw).log_ = n.log_ := by
  rw [step_request_eq hty hterm]
  unfold RawNode.stepFollowerVote
  dsimp only
  split_ifs <;> exact ⟨rfl, rfl⟩

/-- A candidate counts a vote of its term. -/
theorem step_grant (hr : n.role_ = .candidate) (hty : m.type = .msgVoteResp)
    (hterm : m.term = n.term_) (hrej : m.reject = false) :
    n.step m draw = n.pollVote m.sender true := by
  have hraise : n.raiseTerm m draw = n := if_neg fun h => absurd h.1 (by omega)
  unfold RawNode.step
  simp only [hty, hraise]
  rw [if_neg (by omega)]
  unfold RawNode.dispatch
  rw [hr]
  dsimp only
  unfold RawNode.stepCandidate
  rw [hty, hrej]
  rfl

theorem pollVote_new {v : NodeId} (hv : v ∉ n.votes_) : n.pollVote v true =
    if n.votes_.length + 1 ≥ n.quorum then
      { n with votes_ := n.votes_ ++ [v] }.becomeLeader
    else { n with votes_ := n.votes_ ++ [v] } := by
  unfold RawNode.pollVote
  rw [if_neg hv, if_pos rfl]
  dsimp only
  rw [List.length_append]
  rfl

theorem becomeLeader_role (n : RawNode) : n.becomeLeader.role_ = .leader :=
  (becomeLeader_dispatched n).role.trans (elected_office n).1

end Node

/-! ## One loop -/

namespace Peer

/-- The messages of a run of one peer. -/
def sends (p : Peer) : List Event → List Message
  | [] => []
  | ev :: evs => (p.handle ev).2 ++ (p.handle ev).1.sends evs

/-- The rest of the processing of a `Ready`. -/
def finish : List Event := [.persistEntries, .persistHardState, .send, .advance]

variable {p : Peer} {draw : Nat}

theorem Settled.ends {l l' : RaftLog} (h : Settled l l') (hwf : l.WF) :
    l'.lastTerm = l.lastTerm ∧ l'.lastIndex = l.lastIndex := by
  rw [h.wf.lastTerm_eq, hwf.lastTerm_eq, h.logical]
  exact ⟨rfl, hwf.lastIndex_congr h.wf h.logical⟩

theorem finish_ready (p : Peer) : (p.exec finish).ready = none := by
  cases hready : p.ready with
  | none => simp [exec, finish, handle, hready]
  | some x =>
    obtain ⟨stage, rd⟩ := x
    cases stage <;> simp [exec, finish, handle, hready]

/-- A whole round of the loop. -/
theorem exec_round (h : p.ready = none) :
    p.exec (.poll :: finish) = p.processReady.1 ∧
      p.sends (.poll :: finish) = p.processReady.2 := by
  refine ⟨rfl, ?_⟩
  simp only [processReady, finish, sends, handle, h, List.nil_append, List.append_nil]

/-- The clock runs until it comes to the limit. -/
theorem exec_clock (hready : p.ready = none) {limit : Nat} {n' : RawNode}
    (hwait : ∀ k, k + 1 < limit →
      ({ p.node with tickCount_ := k }.tick draw).2 = { p.node with tickCount_ := k + 1 })
    (hfire : ∀ k, limit ≤ k + 1 → ({ p.node with tickCount_ := k }.tick draw).2 = n') :
    ∃ k, p.exec (List.replicate k (.tick draw)) = { p with node := n' } := by
  generalize hd : limit - (p.node.tickCount_ + 1) = d
  have htick : (p.handle (.tick draw)).1 = { p with node := (p.node.tick draw).2 } := by
    simp only [handle, hready]
  induction d generalizing p with
  | zero =>
    refine ⟨1, ?_⟩
    change (p.handle (.tick draw)).1 = _
    rw [htick]
    exact congrArg (fun n => { p with node := n }) (hfire p.node.tickCount_ (by omega))
  | succ d ih =>
    have hone : (p.handle (.tick draw)).1 =
        { p with node := { p.node with tickCount_ := p.node.tickCount_ + 1 } } := by
      rw [htick]
      exact congrArg (fun n => { p with node := n }) (hwait p.node.tickCount_ (by omega))
    obtain ⟨k, hk⟩ := ih
      (p := { p with node := { p.node with tickCount_ := p.node.tickCount_ + 1 } })
      hready hwait hfire (by dsimp only; omega) (by simp only [handle, hready])
    refine ⟨k + 1, ?_⟩
    rw [List.replicate_succ]
    change exec (p.handle (.tick draw)).1 _ = _
    rw [hone, hk]

/-- The clock runs until a node that does not lead campaigns. -/
theorem exec_timeout (hready : p.ready = none) (hr : p.node.role_ ≠ .leader)
    (hq : p.node.quorum ≠ 1) (draw : Nat) : ∃ k,
      p.exec (List.replicate k (.tick draw)) = { p with node := p.node.campaign draw } := by
  refine exec_clock hready (fun k (hk : k + 1 < p.node.randomizedElectionTick_) => ?_)
    fun k hk => ?_
  · simp only [RawNode.tick, if_neg hr, RawNode.tickElection]
    rw [if_neg (Nat.not_le.mpr hk)]
  · simp only [RawNode.tick, if_neg hr, RawNode.tickElection]
    rw [if_pos hk]
    change { p.node.campaign draw with tickCount_ := 0 } = p.node.campaign draw
    rw [campaign_eq hq]
    rfl

/-- A candidate that asked for votes above term `bound`, with its log as it was. -/
structure Stands (n : RawNode) (bound : Nat) (n' : RawNode) : Prop where
  role : n'.role_ = .candidate
  term : bound < n'.term_
  id : n'.id_ = n.id_
  voters : n'.voters_ = n.voters_
  log : n'.log_ = n.log_
  votes : n'.votes_ = [n.id_]
  asked : ∀ v ∈ n.voters_, v ≠ n.id_ → n'.request v ∈ n'.msgs_

theorem stands_campaign {n : RawNode} (hq : n.quorum ≠ 1) {bound : Nat} (hb : bound ≤ n.term_) :
    Stands n bound (n.campaign draw) := by
  rw [campaign_eq hq]
  refine ⟨rfl, Nat.lt_succ_of_le hb, rfl, rfl, rfl, rfl, fun v hv hne => ?_⟩
  refine List.mem_append_right _ (List.mem_map.mpr ⟨v, ?_, rfl⟩)
  exact List.mem_filter.mpr ⟨hv, by simpa using hne⟩

/-- A node that does not lead can get above any term. -/
theorem exec_stands (hready : p.ready = none) (hr : p.node.role_ ≠ .leader)
    (hq : p.node.quorum ≠ 1) (draw bound : Nat) : ∃ k n',
      p.exec (List.replicate k (.tick draw)) = { p with node := n' } ∧ Stands p.node bound n' := by
  generalize hd : bound - p.node.term_ = d
  induction d generalizing p with
  | zero =>
    obtain ⟨k, hk⟩ := exec_timeout hready hr hq draw
    exact ⟨k, _, hk, stands_campaign hq (by omega)⟩
  | succ d ih =>
    obtain ⟨k, hk⟩ := exec_timeout hready hr hq draw
    have hone : Stands p.node p.node.term_ (p.node.campaign draw) :=
      stands_campaign hq (Nat.le_refl _)
    have hterm : (p.node.campaign draw).term_ = p.node.term_ + 1 := by
      rw [campaign_eq hq]
      rfl
    obtain ⟨k', n', hk', hst⟩ := ih (p := { p with node := p.node.campaign draw }) hready
      (by dsimp only; rw [hone.role]; decide)
      (by dsimp only; rw [RawNode.quorum, hone.voters]; exact hq)
      (by dsimp only; omega)
    refine ⟨k + k', n', ?_, hst.role, hst.term, hst.id.trans hone.id,
      hst.voters.trans hone.voters, hst.log.trans hone.log, ?_, ?_⟩
    · rw [List.replicate_add, exec_append, hk, hk']
    · rw [hst.votes, hone.id]
    · intro v hv hne
      exact hst.asked v (by rw [hone.voters]; exact hv) (by rw [hone.id]; exact hne)

end Peer

/-! ## What goes on by itself -/

/-- The loop's own events, with `draw` for every timeout drawn: nothing of the clients and no
crash. -/
def Event.Routine (draw : Nat) : Event → Prop
  | .tick d => d = draw
  | .poll | .persistEntries | .persistHardState | .send | .advance => True
  | .step _ _ | .propose _ | .readIndex _ | .restart _ => False

def Action.Routine (draw : Nat) : Action → Prop
  | .deliver _ d => d = draw
  | .run _ ev => ev.Routine draw

theorem RaftLog.heeds_of_type {l : RaftLog} {leaderLog : Nat → List Entry} {m : Message}
    {ty : MessageType} (hty : m.type = ty) (hne : ty ≠ .msgApp ∧ ty ≠ .msgHeartbeat) :
    l.Heeds leaderLog m :=
  ⟨fun h => absurd (hty.symm.trans h) hne.1, fun h => absurd (hty.symm.trans h) hne.2⟩

namespace Cluster

/-- The second state can follow the first by itself, over messages that are heeded. -/
def Goes (s : Setup) (draw : Nat) (c c' : Cluster) : Prop :=
  ∃ acts : List Action, (∀ a ∈ acts, a.Routine draw) ∧ c.HeededRun s acts ∧
    acts.foldl (step s) c = c'

/-- A cluster in a run of any kind. -/
structure Live (s : Setup) (c : Cluster) : Prop where
  simulates : ∃ e r, Simulates s False c e r
  inOrder : InOrder s c

/-- From `c` to `c'` member `v`, with its node at `n`, went through a round of its loop. -/
structure Rounds (c : Cluster) (v : NodeId) (n : RawNode) (c' : Cluster) : Prop where
  peers : c'.peers =
    Function.update c.peers v (Peer.processReady { c.peers v with node := n }).1
  grows : ∀ m ∈ c.network, m ∈ c'.network
  sent : ∀ m ∈ n.msgs_, m ∈ c'.network
  idle : (c'.peers v).Idle
  node : ∃ l', Peer.Settled n.log_ l' ∧ (c'.peers v).node =
    { n with
      log_ := l', msgs_ := [], readStates_ := []
      lastReadyLastIndex_ := 0, lastReadyApplied_ := 0 }

section Goes

variable {s : Setup} {draw : Nat} {c c' c'' : Cluster} {i v : NodeId}

theorem Goes.refl (s : Setup) (draw : Nat) (c : Cluster) : Goes s draw c c :=
  ⟨[], List.forall_mem_nil _, trivial, rfl⟩

theorem Goes.trans (h : Goes s draw c c') (h' : Goes s draw c' c'') : Goes s draw c c'' := by
  obtain ⟨acts, hacts, hheed, rfl⟩ := h
  obtain ⟨more, hmore, hheed', rfl⟩ := h'
  refine ⟨acts ++ more, fun a ha => ?_, (heededRun_append c acts more).mpr ⟨hheed, hheed'⟩,
    List.foldl_append⟩
  rcases List.mem_append.mp ha with ha | ha
  · exact hacts a ha
  · exact hmore a ha

/-- A message that was sent and is heeded arrives. -/
theorem goes_deliver {m : Message} (hm : m ∈ c.network) (hr : m.receiver ∈ s.members)
    (hheed : (c.peers m.receiver).node.log_.Heeds c.leaderLog m) :
    Goes s draw c (c.perform m.receiver (.step m draw)) := by
  obtain ⟨k, hk⟩ := List.mem_iff_getElem?.mp hm
  refine ⟨[.deliver k draw], fun a ha => ?_, ⟨?_, trivial⟩, ?_⟩
  · rw [List.mem_singleton.mp ha]
    rfl
  · intro m' hm' _ _ _
    rw [hk] at hm'
    cases hm'
    exact hheed
  · simp only [List.foldl_cons, List.foldl_nil, step, hk, if_pos hr]

/-- The loop of one member goes on. -/
theorem goes_run (hi : i ∈ s.members) (draw : Nat) (evs : List Event)
    (hevs : ∀ ev ∈ evs, ev.Routine draw) (c : Cluster) : ∃ c', Goes s draw c c' ∧
      c'.peers = Function.update c.peers i ((c.peers i).exec evs) ∧
      c'.network = c.network ++ (c.peers i).sends evs := by
  induction evs generalizing c with
  | nil =>
    refine ⟨c, .refl s draw c, ?_, (List.append_nil _).symm⟩
    exact (Function.update_eq_self i c.peers).symm
  | cons ev evs ih =>
    have hroutine := hevs ev List.mem_cons_self
    have hloc : ev.isLocal = true := by
      cases ev <;> first | rfl | exact hroutine.elim
    have hheed : c.Heeded s (.run i ev) := by
      cases ev <;> trivial
    have hone : Goes s draw c (c.perform i ev) := by
      refine ⟨[.run i ev], fun a ha => ?_, ⟨hheed, trivial⟩, if_pos ⟨hi, hloc⟩⟩
      rw [List.mem_singleton.mp ha]
      exact hroutine
    have hself : (c.perform i ev).peers i = ((c.peers i).handle ev).1 := Function.update_self ..
    obtain ⟨c', hgo, hpeers, hnet⟩ :=
      ih (fun ev' h => hevs ev' (List.mem_cons_of_mem _ h)) (c.perform i ev)
    rw [hself] at hpeers hnet
    refine ⟨c', hone.trans hgo, ?_, ?_⟩
    · rw [hpeers]
      exact Function.update_idem ..
    · rw [hnet]
      exact List.append_assoc ..

theorem Live.step (h : Live s c) {a : Action}
    (hcrash : a.isRestart = true → 1 < s.members.length) : Live s (c.step s a) := by
  obtain ⟨e, r, hsim⟩ := h.simulates
  obtain ⟨e', r', hsim', -⟩ := hsim.step a (fun hf => hf.elim) fun _ => hcrash
  exact ⟨⟨e', r', hsim'⟩, h.inOrder.step hsim a⟩

theorem Live.run (h : Live s c) {acts : List Action}
    (hcrash : ∀ a ∈ acts, a.isRestart = true → 1 < s.members.length) :
    Live s (acts.foldl (Cluster.step s) c) := by
  induction acts generalizing c with
  | nil => exact h
  | cons a rest ih =>
    exact ih (h.step (hcrash a List.mem_cons_self))
      fun a' ha' => hcrash a' (List.mem_cons_of_mem _ ha')

theorem Live.goes (h : Live s c) (hgo : Goes s draw c c') : Live s c' := by
  obtain ⟨acts, hacts, -, rfl⟩ := hgo
  refine h.run fun a ha hre => ?_
  have hroutine := hacts a ha
  unfold Action.isRestart at hre
  split at hre
  · exact hroutine.elim
  · cases hre

theorem Live.wf (h : Live s c) (hi : i ∈ s.members) : (c.peers i).node.log_.WF :=
  (h.inOrder i hi).sound.wf

theorem Live.idle (h : Live s c) (hi : i ∈ s.members) (hready : (c.peers i).ready = none) :
    (c.peers i).Idle :=
  ⟨hready, ((h.inOrder i hi).idle hready).1, ((h.inOrder i hi).idle hready).2⟩

theorem Live.id (h : Live s c) (hi : i ∈ s.members) : (c.peers i).node.id_ = i := by
  obtain ⟨e, r, hsim⟩ := h.simulates
  exact (hsim.peer i hi).id

theorem Live.voters (h : Live s c) (hi : i ∈ s.members) :
    (c.peers i).node.voters_.Perm s.members := by
  obtain ⟨e, r, hsim⟩ := h.simulates
  exact (hsim.peer i hi).tracks.voters

theorem Rounds.self {n : RawNode} (h : Rounds c v n c') :
    c'.peers v = (Peer.processReady { c.peers v with node := n }).1 := by
  rw [h.peers]
  exact Function.update_self ..

theorem Rounds.other {n : RawNode} (h : Rounds c v n c') (hi : i ≠ v) :
    c'.peers i = c.peers i := by
  rw [h.peers]
  exact Function.update_of_ne hi ..

/-- After a call of its node a member goes through a round of its loop. -/
theorem Live.rounds (h : Live s c') (hv : v ∈ s.members) (hready : (c.peers v).ready = none)
    {n : RawNode} (hpeers : c'.peers = Function.update c.peers v { c.peers v with node := n })
    (hgrows : ∀ m ∈ c.network, m ∈ c'.network) (draw : Nat) :
    ∃ c'', Goes s draw c' c'' ∧ Rounds c v n c'' := by
  have hself : c'.peers v = { c.peers v with node := n } := by
    rw [hpeers]
    exact Function.update_self ..
  have hready' : (c'.peers v).ready = none := by
    rw [hself]
    exact hready
  obtain ⟨c'', hgo, hpeers', hnet⟩ := goes_run hv draw (.poll :: Peer.finish)
    (by simp [Peer.finish, Event.Routine]) c'
  obtain ⟨hexec, hsends⟩ := Peer.exec_round hready'
  obtain ⟨hsent, hidle, hspec⟩ := Peer.processReady_spec (h.idle hv hready') (h.wf hv)
  rw [hexec] at hpeers'
  rw [hsends, hsent] at hnet
  have hself' : c''.peers v = (c'.peers v).processReady.1 := by
    rw [hpeers']
    exact Function.update_self ..
  rw [← hself', hself] at hspec
  rw [← hself'] at hidle
  rw [hself] at hpeers' hnet
  refine ⟨c'', hgo, ?_, fun m hm => ?_, fun m hm => ?_, hidle, hspec⟩
  · rw [hpeers', hpeers]
    exact Function.update_idem ..
  · rw [hnet]
    exact List.mem_append_left _ (hgrows m hm)
  · rw [hnet]
    exact List.mem_append_right _ hm

/-- A member takes a message and goes through a round of its loop. -/
theorem Live.receive (h : Live s c) {m : Message} (hm : m ∈ c.network) (hv : m.receiver = v)
    (hmem : v ∈ s.members) (hready : (c.peers v).ready = none)
    (hheed : (c.peers v).node.log_.Heeds c.leaderLog m) (draw : Nat) :
    ∃ c', Goes s draw c c' ∧ Rounds c v ((c.peers v).node.step m draw) c' := by
  subst hv
  have hhandle : (c.peers m.receiver).handle (.step m draw) =
      ({ c.peers m.receiver with node := (c.peers m.receiver).node.step m draw }, []) := by
    simp only [Peer.handle, hready]
  have hgo : Goes s draw c (c.perform m.receiver (.step m draw)) := goes_deliver hm hmem hheed
  obtain ⟨c', hgo', hround⟩ := (h.goes hgo).rounds (c := c) hmem hready
    (show (c.perform m.receiver (.step m draw)).peers = _ by simp only [perform, hhandle]; rfl)
    (fun m' hm' => List.mem_append_left _ hm') draw
  exact ⟨c', hgo.trans hgo', hround⟩

/-- The clock of a member runs until its node does something, and it goes through a round of its
loop. -/
theorem Live.ticks (h : Live s c) (hv : v ∈ s.members) (hready : (c.peers v).ready = none)
    {k : Nat} {n : RawNode}
    (hexec : (c.peers v).exec (List.replicate k (.tick draw)) = { c.peers v with node := n }) :
    ∃ c', Goes s draw c c' ∧ Rounds c v n c' := by
  obtain ⟨c₁, hgo₁, hpeers₁, hnet₁⟩ := goes_run hv draw (List.replicate k (.tick draw))
    (fun ev hev => by rw [List.eq_of_mem_replicate hev]; rfl) c
  rw [hexec] at hpeers₁
  obtain ⟨c₂, hgo₂, hround⟩ := (h.goes hgo₁).rounds hv hready hpeers₁ (fun m hm => by
    rw [hnet₁]
    exact List.mem_append_left _ hm) draw
  exact ⟨c₂, hgo₁.trans hgo₂, hround⟩

/-- All members finish what they are at. -/
theorem goes_finish {ms : List NodeId} (hms : ∀ v ∈ ms, v ∈ s.members) (draw : Nat)
    (c : Cluster) : ∃ c', Goes s draw c c' ∧ (∀ v ∈ ms, (c'.peers v).ready = none) := by
  induction ms generalizing c with
  | nil => exact ⟨c, .refl s draw c, List.forall_mem_nil _⟩
  | cons v ms ih =>
    obtain ⟨c₁, hgo₁, hdone⟩ := ih (fun u hu => hms u (List.mem_cons_of_mem _ hu)) c
    obtain ⟨c₂, hgo₂, hpeers, -⟩ := goes_run (hms v List.mem_cons_self) draw Peer.finish
      (by simp [Peer.finish, Event.Routine]) c₁
    refine ⟨c₂, hgo₁.trans hgo₂, fun u hu => ?_⟩
    rw [hpeers]
    by_cases huv : u = v
    · rw [huv, Function.update_self]
      exact Peer.finish_ready _
    · rw [Function.update_of_ne huv]
      exact hdone u ((List.mem_cons.mp hu).resolve_left huv)

end Goes

/-! ## A candidate -/

/-- Member `i` stands in term `t`: it has voted for itself, and its requests are under way. -/
structure Candidacy (s : Setup) (c : Cluster) (i : NodeId) (t : Nat) : Prop where
  ready : (c.peers i).ready = none
  role : (c.peers i).node.role_ = .candidate
  term : (c.peers i).node.term_ = t
  votes : (c.peers i).node.votes_ = [i]
  quiet : (c.peers i).node.msgs_ = []
  asked : ∀ v ∈ s.members, v ≠ i → voteRequest i v t (c.peers i).node.log_.lastTerm
    (c.peers i).node.log_.lastIndex ∈ c.network

/-- The log of `v` is not more up to date than that of `i`. -/
def Behind (c : Cluster) (v i : NodeId) : Prop :=
  (c.peers v).node.log_.lastTerm < (c.peers i).node.log_.lastTerm ∨
    (c.peers v).node.log_.lastTerm = (c.peers i).node.log_.lastTerm ∧
      (c.peers v).node.log_.lastIndex ≤ (c.peers i).node.log_.lastIndex

/-- The logs of all members end as they did. -/
def SameEnds (c c' : Cluster) : Prop :=
  ∀ v, (c'.peers v).node.log_.lastTerm = (c.peers v).node.log_.lastTerm ∧
    (c'.peers v).node.log_.lastIndex = (c.peers v).node.log_.lastIndex

section Candidate

variable {s : Setup} {draw : Nat} {c c' : Cluster} {i v : NodeId} {t : Nat}

theorem Candidacy.congr (h : Candidacy s c i t) (hp : c'.peers i = c.peers i)
    (hnet : ∀ m ∈ c.network, m ∈ c'.network) : Candidacy s c' i t := by
  obtain ⟨hready, hrole, hterm, hvotes, hquiet, hasked⟩ := h
  rw [← hp] at hready hrole hterm hvotes hquiet hasked
  exact ⟨hready, hrole, hterm, hvotes, hquiet, fun v hv hvi => hnet _ (hasked v hv hvi)⟩

theorem Behind.sameEnds (h : Behind c v i) (hs : SameEnds c c') : Behind c' v i := by
  unfold Behind
  rw [(hs v).1, (hs v).2, (hs i).1, (hs i).2]
  exact h

/-- A member that does not lead can stand above any term. -/
theorem Live.stand (h : Live s c) (hi : i ∈ s.members) (hcard : 1 < s.members.length)
    (hready : (c.peers i).ready = none) (hrole : (c.peers i).node.role_ ≠ .leader)
    (bound draw : Nat) : ∃ c' t, Goes s draw c c' ∧ bound < t ∧ Candidacy s c' i t ∧
      SameEnds c c' ∧ ∀ u ≠ i, c'.peers u = c.peers u := by
  have hid := h.id hi
  have hlen := (h.voters hi).length_eq
  have hq : (c.peers i).node.quorum ≠ 1 := by
    rw [RawNode.quorum, hlen]
    omega
  obtain ⟨k, n', hexec, hst⟩ := Peer.exec_stands hready hrole hq draw bound
  obtain ⟨c', hgo, hround⟩ := h.ticks hi hready hexec
  obtain ⟨l', hset, hnode⟩ := hround.node
  rw [hst.log] at hset
  have hends := hset.ends (h.wf hi)
  refine ⟨c', n'.term_, hgo, hst.term, ⟨hround.idle.ready, ?_, ?_, ?_, ?_, ?_⟩, fun v => ?_,
    fun u hu => hround.other hu⟩
  · rw [hnode]
    exact hst.role
  · rw [hnode]
  · rw [hnode, ← hid]
    exact hst.votes
  · rw [hnode]
  · intro v hv hne
    have hask := hst.asked v ((h.voters hi).mem_iff.mpr hv) (by rw [hid]; exact hne)
    rw [RawNode.request, hst.id, hst.log, hid] at hask
    rw [hnode, hends.1, hends.2]
    exact hround.sent _ hask
  · by_cases hvi : v = i
    · rw [hvi, hnode]
      exact hends
    · rw [hround.other hvi]
      exact ⟨rfl, rfl⟩

/-- Some member's log is as up to date as any other's. -/
theorem exists_best (c : Cluster) (hcard : 1 < s.members.length) :
    ∃ i ∈ s.members, ∀ v ∈ s.members, Behind c v i := by
  have hne : s.members.toFinset.Nonempty := by
    rw [List.toFinset_nonempty_iff]
    rintro hnil
    rw [hnil] at hcard
    exact absurd hcard (by decide)
  obtain ⟨i, hi, hmax⟩ := s.members.toFinset.exists_max_image
    (fun v => toLex ((c.peers v).node.log_.lastTerm, (c.peers v).node.log_.lastIndex)) hne
  exact ⟨i, List.mem_toFinset.mp hi,
    fun v hv => Prod.Lex.toLex_le_toLex.mp (hmax v (List.mem_toFinset.mpr hv))⟩

/-- Somebody does not lead: of those who voted for the leader of the highest term, nobody has. -/
theorem Live.exists_not_leader (h : Live s c) (hcard : 1 < s.members.length) :
    ∃ v ∈ s.members, (c.peers v).node.role_ ≠ .leader := by
  obtain ⟨e, r, hsim⟩ := h.simulates
  by_contra hall
  push Not at hall
  have hne : s.members.toFinset.Nonempty := by
    rw [List.toFinset_nonempty_iff]
    rintro hnil
    rw [hnil] at hcard
    exact absurd hcard (by decide)
  obtain ⟨i, hi, hmax⟩ := s.members.toFinset.exists_max_image
    (fun v => (c.peers v).node.term_) hne
  have him := List.mem_toFinset.mp hi
  have hinv := (hsim.peer i him).tracks.election
  obtain ⟨Q, hQ, hgrants⟩ := (hinv.won (hsim.won him (hall i him))).quorum
  obtain ⟨v, hvQ, hvi⟩ := hQ.exists_ne (by rwa [List.toFinset_card_of_nodup s.nodup]) i
  have hvm : v ∈ s.members := List.mem_toFinset.mp (hQ.1 hvQ)
  have hvoter : e.voter v = (c.peers v).node.core.voter (c.peers v).draft := by
    rw [← (hsim.peer v hvm).tracks.voter, show (c.peers v).node.core.id = v from
      (hsim.peer v hvm).id]
  have hkeeps := (hinv.voter v).keeps (Or.inr (Or.inr ((hgrants v hvQ).resolve_left hvi)))
  rw [hvoter] at hkeeps
  rcases hkeeps with hlt | ⟨-, -, hrole⟩
  · exact absurd (hmax v (hQ.1 hvQ)) (Nat.not_le.mpr hlt)
  · have hlead : (c.peers v).node.role_ = .leader := hall v hvm
    change (c.peers v).node.role_.abs = _ at hrole
    rw [hlead] at hrole
    cases hrole

/-- A request of a later term makes its receiver a follower. -/
theorem Live.step_down (h : Live s c) (hi : i ∈ s.members)
    (hready : ∀ v ∈ s.members, (c.peers v).ready = none) {m : Message} (hm : m ∈ c.network)
    (hty : m.type = .msgVote) (hr : m.receiver = i) (hterm : (c.peers i).node.term_ < m.term)
    (draw : Nat) : ∃ c', Goes s draw c c' ∧ (c'.peers i).node.role_ = .follower ∧
      (∀ v ∈ s.members, (c'.peers v).ready = none) ∧ SameEnds c c' := by
  obtain ⟨hrole, hlog⟩ : ((c.peers i).node.step m draw).role_ = .follower ∧
      ((c.peers i).node.step m draw).log_ = (c.peers i).node.log_ := step_request_office hty hterm
  obtain ⟨c₁, hgo₁, hround⟩ := h.receive hm hr hi (hready i hi)
    (RaftLog.heeds_of_type hty (by decide)) draw
  obtain ⟨l', hset, hnode⟩ := hround.node
  refine ⟨c₁, hgo₁, ?_, fun v hv => ?_, fun v => ?_⟩
  · rw [hnode]
    exact hrole
  · by_cases hvi : v = i
    · rw [hvi]
      exact hround.idle.ready
    · rw [hround.other hvi]
      exact hready v hv
  · by_cases hvi : v = i
    · rw [hlog] at hset
      rw [hvi, hnode]
      exact hset.ends (h.wf hi)
    · rw [hround.other hvi]
      exact ⟨rfl, rfl⟩

/-- A member whose log is as up to date as any other's can be made not to lead. -/
theorem Live.depose (h : Live s c) (hcard : 1 < s.members.length)
    (hready : ∀ v ∈ s.members, (c.peers v).ready = none) (draw : Nat) : ∃ c' i, Goes s draw c c' ∧
      i ∈ s.members ∧ (∀ v ∈ s.members, (c'.peers v).ready = none) ∧
      (c'.peers i).node.role_ ≠ .leader ∧ ∀ v ∈ s.members, Behind c' v i := by
  obtain ⟨i, hi, hbest⟩ := exists_best c hcard
  by_cases hlead : (c.peers i).node.role_ = .leader
  · obtain ⟨v, hv, hrole⟩ := h.exists_not_leader hcard
    have hvi : i ≠ v := by
      rintro rfl
      exact hrole hlead
    obtain ⟨c₁, t, hgo₁, hlt, hcand, hends, hsame⟩ :=
      h.stand hv hcard (hready v hv) hrole (c.peers i).node.term_ draw
    have hask := hcand.asked i hi hvi
    have hlive₁ := h.goes hgo₁
    have hpi : c₁.peers i = c.peers i := hsame i hvi
    have hready₁ : ∀ u ∈ s.members, (c₁.peers u).ready = none := by
      intro u hu
      by_cases huv : u = v
      · rw [huv]
        exact hcand.ready
      · rw [hsame u huv]
        exact hready u hu
    obtain ⟨c₂, hgo₂, hrole₂, hready₂, hends₂⟩ := hlive₁.step_down hi hready₁ hask rfl rfl
      (by rw [hpi]; exact hlt) draw
    refine ⟨c₂, i, hgo₁.trans hgo₂, hi, hready₂, by rw [hrole₂]; decide, fun u hu => ?_⟩
    exact ((hbest u hu).sameEnds hends).sameEnds hends₂
  · exact ⟨c, i, .refl s draw c, hi, hready, hlead, hbest⟩

end Candidate

/-! ## The vote -/

/-- A member that will grant a request of term `t` of `i`. -/
structure Willing (c : Cluster) (i : NodeId) (t : Nat) (v : NodeId) : Prop where
  ready : (c.peers v).ready = none
  term : (c.peers v).node.term_ < t
  behind : Behind c v i

/-- A member that granted it, and whose vote is under way. -/
structure Pledged (c : Cluster) (i : NodeId) (t : Nat) (v : NodeId) : Prop where
  ready : (c.peers v).ready = none
  role : (c.peers v).node.role_ = .follower
  term : (c.peers v).node.term_ = t
  persisted : (c.peers v).node.log_.unstable_.entries_ = []
  quiet : (c.peers v).node.msgs_ = []
  granted : voteGrant v i t ∈ c.network

/-- Member `i` is short of votes in term `t`, and those of the members in `rest` are under way. -/
structure Tally (s : Setup) (c : Cluster) (i : NodeId) (t : Nat) (rest : List NodeId) : Prop where
  ready : (c.peers i).ready = none
  role : (c.peers i).node.role_ = .candidate
  term : (c.peers i).node.term_ = t
  short : (c.peers i).node.votes_.length < s.members.length / 2 + 1
  unheard : ∀ v ∈ rest, v ∉ (c.peers i).node.votes_
  count : (c.peers i).node.votes_.length + rest.length = s.members.length
  granted : ∀ v ∈ rest, voteGrant v i t ∈ c.network

section Vote

variable {s : Setup} {draw : Nat} {c c' : Cluster} {i v : NodeId} {t : Nat} {rest : List NodeId}

theorem Pledged.congr (h : Pledged c i t v) (hp : c'.peers v = c.peers v)
    (hnet : ∀ m ∈ c.network, m ∈ c'.network) : Pledged c' i t v := by
  obtain ⟨hready, hrole, hterm, hper, hquiet, hgr⟩ := h
  rw [← hp] at hready hrole hterm hper hquiet
  exact ⟨hready, hrole, hterm, hper, hquiet, hnet _ hgr⟩

/-- A willing member that is asked sends its vote. -/
theorem Willing.grants (hw : Willing c i t v) (h : Live s c) (hv : v ∈ s.members)
    (hm : voteRequest i v t (c.peers i).node.log_.lastTerm (c.peers i).node.log_.lastIndex ∈
      c.network) (draw : Nat) : ∃ c', Goes s draw c c' ∧ (∀ u ≠ v, c'.peers u = c.peers u) ∧
      (∀ m ∈ c.network, m ∈ c'.network) ∧ Pledged c' i t v := by
  let m := voteRequest i v t (c.peers i).node.log_.lastTerm (c.peers i).node.log_.lastIndex
  have hup : (c.peers v).node.logUpToDate m = true := by
    have hb := hw.behind
    unfold Behind at hb
    simp only [RawNode.logUpToDate, Bool.or_eq_true, Bool.and_eq_true, decide_eq_true_eq]
    change (c.peers i).node.log_.lastTerm > _ ∨ (c.peers i).node.log_.lastTerm = _ ∧
      (c.peers i).node.log_.lastIndex ≥ _
    omega
  have hstep : (c.peers v).node.step m draw = _ := step_request rfl hw.term hup
  obtain ⟨c', hgo, hround⟩ := h.receive (m := m) (v := v) hm rfl hv hw.ready
    (RaftLog.heeds_of_type (show m.type = .msgVote from rfl) (by decide)) draw
  rw [hstep] at hround
  obtain ⟨l', hset, hnode⟩ := hround.node
  refine ⟨c', hgo, fun u hu => hround.other hu, hround.grows, hround.idle.ready, ?_, ?_, ?_, ?_, ?_⟩
  · rw [hnode]
    rfl
  · rw [hnode]
    rfl
  · rw [hnode]
    exact hset.persisted
  · rw [hnode]
  · refine hround.sent _ (List.mem_append_right _ ?_)
    rw [h.id hv]
    exact List.mem_singleton.mpr rfl

/-- All willing members grant the request. -/
theorem Live.pledges (h : Live s c) (hcand : Candidacy s c i t)
    (hrest : ∀ v ∈ rest, v ∈ s.members ∧ v ≠ i ∧ Willing c i t v) (hnd : rest.Nodup) (draw : Nat) :
    ∃ c', Goes s draw c c' ∧ Candidacy s c' i t ∧ (∀ v ∉ rest, c'.peers v = c.peers v) ∧
      ∀ v ∈ rest, Pledged c' i t v := by
  induction rest with
  | nil => exact ⟨c, .refl s draw c, hcand, fun _ _ => rfl, List.forall_mem_nil _⟩
  | cons v rest ih =>
    rw [List.nodup_cons] at hnd
    obtain ⟨hv, hvi, hw⟩ := hrest v List.mem_cons_self
    obtain ⟨c₁, hgo₁, hcand₁, hsame₁, hpl₁⟩ :=
      ih (fun u hu => hrest u (List.mem_cons_of_mem _ hu)) hnd.2
    have hpi : c₁.peers i = c.peers i := by
      refine hsame₁ i fun hir => ?_
      exact (hrest i (List.mem_cons_of_mem _ hir)).2.1 rfl
    have hw₁ : Willing c₁ i t v := by
      obtain ⟨hready, hterm, hbehind⟩ := hw
      unfold Behind at hbehind
      rw [← hsame₁ v hnd.1] at hready hterm hbehind
      rw [← hpi] at hbehind
      exact ⟨hready, hterm, hbehind⟩
    obtain ⟨c₂, hgo₂, hsame₂, hnet₂, hpl₂⟩ :=
      hw₁.grants (h.goes hgo₁) hv (hcand₁.asked v hv hvi) draw
    have hpi₂ : c₂.peers i = c₁.peers i := hsame₂ i (Ne.symm hvi)
    refine ⟨c₂, hgo₁.trans hgo₂, hcand₁.congr hpi₂ hnet₂, fun u hu => ?_, fun u hu => ?_⟩
    · rw [List.mem_cons, not_or] at hu
      rw [hsame₂ u hu.1, hsame₁ u hu.2]
    · rcases List.mem_cons.mp hu with rfl | hu
      · exact hpl₂
      · exact (hpl₁ u hu).congr (hsame₂ u fun huv => hnd.1 (huv ▸ hu)) hnet₂

/-- A candidate that gets all votes wins with one of them; nobody else does anything. -/
theorem Tally.wins (h : Tally s c i t rest) (hlive : Live s c) (hi : i ∈ s.members)
    (hcard : 1 < s.members.length) (hnd : rest.Nodup) (draw : Nat) : ∃ c' vs, Goes s draw c c' ∧
      c'.peers = Function.update c.peers i { c.peers i with
        node := { (c.peers i).node with votes_ := vs }.becomeLeader } ∧
      c'.network = c.network := by
  induction rest generalizing c with
  | nil =>
    have hshort := h.short
    have hcount := h.count
    rw [List.length_nil] at hcount
    omega
  | cons v rest ih =>
    rw [List.nodup_cons] at hnd
    have hnew : v ∉ (c.peers i).node.votes_ := h.unheard v List.mem_cons_self
    have hq : (c.peers i).node.quorum = s.members.length / 2 + 1 := by
      rw [RawNode.quorum, (hlive.voters hi).length_eq]
    have hgo : Goes s draw c (c.perform i (.step (voteGrant v i t) draw)) :=
      goes_deliver (h.granted v List.mem_cons_self) hi
        (RaftLog.heeds_of_type (show (voteGrant v i t).type = .msgVoteResp from rfl) (by decide))
    have hhandle : (c.peers i).handle (.step (voteGrant v i t) draw) =
        ({ c.peers i with node := (c.peers i).node.pollVote v true }, []) := by
      simp only [Peer.handle, h.ready]
      rw [step_grant h.role rfl h.term.symm rfl]
      rfl
    have hpeers : (c.perform i (.step (voteGrant v i t) draw)).peers =
        Function.update c.peers i
          { c.peers i with node := (c.peers i).node.pollVote v true } := by
      simp only [perform, hhandle]
    have hnet : (c.perform i (.step (voteGrant v i t) draw)).network = c.network := by
      simp only [perform, hhandle, List.append_nil]
    rw [pollVote_new hnew] at hpeers
    by_cases hwon : (c.peers i).node.votes_.length + 1 ≥ (c.peers i).node.quorum
    · rw [if_pos hwon] at hpeers
      exact ⟨_, _, hgo, hpeers, hnet⟩
    rw [if_neg hwon] at hpeers
    have hself := congrFun hpeers i
    rw [Function.update_self] at hself
    obtain ⟨c', vs, hgo', hpeers', hnet'⟩ :=
      ih (c := c.perform i (.step (voteGrant v i t) draw))
        { ready := by rw [hself]; exact h.ready
          role := by rw [hself]; exact h.role
          term := by rw [hself]; exact h.term
          short := by
            rw [hself, List.length_append]
            rw [hq] at hwon
            exact Nat.lt_of_not_le hwon
          unheard := by
            intro u hu hmem
            rw [hself] at hmem
            rcases List.mem_append.mp hmem with hmem | hmem
            · exact h.unheard u (List.mem_cons_of_mem _ hu) hmem
            · rw [List.mem_singleton.mp hmem] at hu
              exact hnd.1 hu
          count := by
            have hcount := h.count
            rw [hself, List.length_append]
            simp only [List.length_cons, List.length_nil] at hcount ⊢
            omega
          granted := by
            rw [hnet]
            exact fun u hu => h.granted u (List.mem_cons_of_mem _ hu) }
        (hlive.goes hgo) hnd.2
    refine ⟨c', vs, hgo.trans hgo', ?_, hnet'.trans hnet⟩
    rw [hpeers', hself, hpeers, Function.update_idem]

/-- **A new leader.** Some member can stand in a term `t`, have the votes of all others, and take
office with the log it had. -/
theorem Live.takeover (h : Live s c) (hcard : 1 < s.members.length) (draw : Nat) :
    ∃ c₀ c' i t vs, Goes s draw c c₀ ∧ Goes s draw c₀ c' ∧ i ∈ s.members ∧ Candidacy s c₀ i t ∧
      (∀ v ∈ s.members, v ≠ i → Pledged c₀ i t v) ∧
      c'.peers = Function.update c₀.peers i { c₀.peers i with
        node := { (c₀.peers i).node with votes_ := vs }.becomeLeader } ∧
      c'.network = c₀.network := by
  obtain ⟨c₁, hgo₁, hready₁⟩ := goes_finish (fun v hv => hv) draw (s := s) c
  obtain ⟨c₂, i, hgo₂, hi, hready₂, hrole, hbest⟩ :=
    (h.goes hgo₁).depose hcard hready₁ draw
  have hlive₂ := (h.goes hgo₁).goes hgo₂
  let bound := s.members.toFinset.sup fun v => (c₂.peers v).node.term_
  obtain ⟨c₃, t, hgo₃, hlt, hcand, hends, hsame⟩ :=
    hlive₂.stand hi hcard (hready₂ i hi) hrole bound draw
  have hmem : ∀ v ∈ s.members.erase i, v ∈ s.members ∧ v ≠ i := fun v hv =>
    ⟨List.mem_of_mem_erase hv, fun heq => s.nodup.not_mem_erase (heq ▸ hv)⟩
  have hwilling : ∀ v ∈ s.members.erase i, v ∈ s.members ∧ v ≠ i ∧ Willing c₃ i t v := by
    intro v hv
    obtain ⟨hvm, hvi⟩ := hmem v hv
    have hterm : (c₂.peers v).node.term_ ≤ bound :=
      Finset.le_sup (f := fun v => (c₂.peers v).node.term_) (List.mem_toFinset.mpr hvm)
    refine ⟨hvm, hvi, ?_, ?_, (hbest v hvm).sameEnds hends⟩
    · rw [hsame v hvi]
      exact hready₂ v hvm
    · rw [hsame v hvi]
      exact Nat.lt_of_le_of_lt hterm hlt
  obtain ⟨c₄, hgo₄, hcand₄, -, hpl⟩ :=
    (hlive₂.goes hgo₃).pledges hcand hwilling (s.nodup.erase i) draw
  have htally : Tally s c₄ i t (s.members.erase i) := by
    refine ⟨hcand₄.ready, hcand₄.role, hcand₄.term, ?_, fun v hv hvot => ?_, ?_,
      fun v hv => (hpl v hv).granted⟩
    · rw [hcand₄.votes, List.length_singleton]
      omega
    · rw [hcand₄.votes, List.mem_singleton] at hvot
      exact (hmem v hv).2 hvot
    · rw [hcand₄.votes, List.length_erase_of_mem hi, List.length_singleton]
      omega
  obtain ⟨c₅, vs, hgo₅, hpeers, hnet⟩ := htally.wins
    ((hlive₂.goes hgo₃).goes hgo₄) hi hcard (s.nodup.erase i) draw
  refine ⟨c₄, c₅, i, t, vs, hgo₁.trans (hgo₂.trans (hgo₃.trans hgo₄)), hgo₅, hi, hcand₄,
    fun v hv hvi => hpl v ((List.mem_erase_of_ne hvi).mpr hv), hpeers, hnet⟩

end Vote

theorem live_exec {s : Setup} (hcard : 1 < s.members.length) (acts : List Action) :
    Live s (exec s acts) :=
  Live.run ⟨simulates_init s False, inOrder_init s⟩ fun _ _ _ => hcard

end Cluster

/-- **Leaders stay possible.** From every state of every run of a cluster of two or more members,
whatever was lost or crashed before, the members' clocks and loops and the arrival of messages can
bring about a leader, without any client. Every timeout drawn on the way is the given one. -/
theorem election_possible (s : Setup) (hcard : 1 < s.members.length) (acts : List Action)
    (draw : Nat) : ∃ more : List Action, (∀ a ∈ more, a.Routine draw) ∧
      ∃ i ∈ s.members, ((Cluster.exec s (acts ++ more)).peers i).node.role_ = .leader := by
  obtain ⟨c₀, c', i, t, vs, hgo₀, hgo, hi, -, -, hpeers, -⟩ :=
    (Cluster.live_exec hcard acts).takeover hcard draw
  obtain ⟨more, hmore, -, rfl⟩ := hgo₀.trans hgo
  refine ⟨more, hmore, i, hi, ?_⟩
  rw [Cluster.exec, List.foldl_append]
  change ((more.foldl (Cluster.step s) (Cluster.exec s acts)).peers i).node.role_ = _
  rw [hpeers, Function.update_self]
  exact becomeLeader_role _

/-- Node 1 leads, commits an entry and crashes. -/
def leaderless : List Action := replication ++ [.run 1 (.restart 10)]

theorem election_possible_trio : 1 < trio.members.length ∧
    (∀ i ∈ trio.members, ((Cluster.exec trio leaderless).peers i).node.role_ ≠ .leader) ∧
    ∃ more : List Action, (∀ a ∈ more, a.Routine 12) ∧
      ∃ i ∈ trio.members, ((Cluster.exec trio (leaderless ++ more)).peers i).node.role_ = .leader :=
  ⟨by decide, by decide +kernel, election_possible trio (by decide) leaderless 12⟩

end NexusLOB.Raft
