import NexusLOB.Raft.Safety

/-!
# What a crash cannot take back

A member speaks only after its hard state is written. A vote request that was ever sent has its
term in the sender's store, and a vote that was ever granted is there too, until a later term
replaces it. That holds at every moment of every run, with nodes crashing between any two steps.
A node that leads at two moments in the same term has only added entries of that term in between.
-/

namespace NexusLOB.Raft

open Consensus

theorem voteOf_eq_some {v c : NodeId} (h : voteOf v = some c) : v = c := by
  unfold voteOf at h
  split_ifs at h
  exact Option.some.inj h

section Durable

variable {s : Setup} {strict : Prop} {c : Cluster} {e : Election.State NodeId}
  {r : Replication.State NodeId Entry} {i : NodeId}

/-- The stored ballot of a member, as the election system has it. -/
theorem Simulates.durable (h : Simulates s strict c e r) (hi : i ∈ s.members) :
    (e.voter i).durable = (c.peers i).storage.ballot := by
  have hp := h.peer i hi
  have hv : e.voter i = (c.peers i).node.core.voter (c.peers i).draft := by
    rw [← hp.tracks.voter, show (c.peers i).node.core.id = i from hp.id]
  rw [hv]
  rfl

theorem Simulates.inv (h : Simulates s strict c e r) (hi : i ∈ s.members) :
    Election.Inv s.members e := (h.peer i hi).tracks.election

theorem Simulates.mem_sent (h : Simulates s strict c e r) {m : Message} (hm : m ∈ c.network)
    {x : Election.Mail NodeId} (hx : mailOf m = some x) : x ∈ e.sent := by
  rw [h.sent]
  exact ⟨m, hm, hx⟩

/-- A vote request that was sent has its term in the sender's store. -/
theorem Simulates.request_stored (h : Simulates s strict c e r) (hi : i ∈ s.members) {m : Message}
    (hm : m ∈ c.network) (hty : m.type = .msgVote) :
    m.sender ∈ s.members ∧ m.term ≤ (c.peers m.sender).storage.hardState_.term := by
  have hsent : .request m.term m.sender ∈ e.sent := h.mem_sent hm (by simp only [mailOf, hty])
  have hmem := ((h.inv hi).sent_request hsent).2
  have hle := ((h.inv hi).voter m.sender).sent_request hsent
  rw [h.durable hmem] at hle
  exact ⟨hmem, hle⟩

/-- A vote that was sent is in the voter's store, or the store is in a later term. -/
theorem Simulates.grant_stored (h : Simulates s strict c e r) (hi : i ∈ s.members) {m : Message}
    (hm : m ∈ c.network) (hty : m.type = .msgVoteResp) (hrej : m.reject = false) :
    m.sender ∈ s.members ∧ (m.term < (c.peers m.sender).storage.hardState_.term ∨
      (c.peers m.sender).storage.hardState_.term = m.term ∧
        (c.peers m.sender).storage.hardState_.vote = m.receiver) := by
  have hsent : .grant m.term m.sender m.receiver ∈ e.sent :=
    h.mem_sent hm (by simp [mailOf, hty, hrej])
  have hmem := (h.inv hi).sent_grant hsent
  have hkeeps := ((h.inv hi).voter m.sender).sent_grant_durable hsent
  rw [h.durable hmem] at hkeeps
  refine ⟨hmem, ?_⟩
  rcases hkeeps with hlater | ⟨hterm, hvote⟩
  · exact Or.inl hlater
  · exact Or.inr ⟨hterm, voteOf_eq_some hvote⟩

end Durable

/-- **Leader append-only.** In every run of more than one member, crashes included, a node that
leads at two moments in one term has the log it had, followed by entries of that term. -/
theorem leader_append_only (s : Setup) (hcard : 1 < s.members.length) (acts more : List Action)
    {i : NodeId} (hi : i ∈ s.members)
    (hlead : ((Cluster.exec s acts).peers i).node.role_ = .leader)
    (hlead' : ((Cluster.exec s (acts ++ more)).peers i).node.role_ = .leader)
    (hterm : ((Cluster.exec s (acts ++ more)).peers i).node.term_ =
      ((Cluster.exec s acts).peers i).node.term_) :
    ∃ ext, ((Cluster.exec s (acts ++ more)).peers i).node.log_.logical =
        ((Cluster.exec s acts).peers i).node.log_.logical ++ ext ∧
      ∀ en ∈ ext, en.term = ((Cluster.exec s acts).peers i).node.term_ := by
  obtain ⟨e, r, e', r', h, h', hl⟩ :=
    simulates_exec s False acts more (fun hf => hf.elim) fun _ => hcard
  obtain ⟨hlog, hel⟩ := h.leads hi hlead
  obtain ⟨hlog', -⟩ := h'.leads hi hlead'
  rw [hlog, hlog', hterm]
  exact hl.grows.leaderLog hel

/-- Node 1 leads from its election on and takes a proposal. -/
theorem leader_append_only_trio :
    ∃ ext, ((Cluster.exec trio (election ++ [.run 1 (.propose [7])])).peers 1).node.log_.logical =
        ((Cluster.exec trio election).peers 1).node.log_.logical ++ ext ∧
      ∀ en ∈ ext, en.term = ((Cluster.exec trio election).peers 1).node.term_ :=
  leader_append_only trio (by decide) election [.run 1 (.propose [7])] (by decide)
    (by decide +kernel) (by decide +kernel) (by decide +kernel)

end NexusLOB.Raft
