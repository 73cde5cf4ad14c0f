import NexusLOB.Raft.ReadEffects
import NexusLOB.Raft.Safety

/-!
# Freshness of read indexes

A leader registers a read at its commit index. Once it has committed an entry of its own term, that
index covers everything committed in earlier terms, because all of it lies in the leader's log before
any entry of its own. A leader that has not may register an index its predecessor has long passed.
-/

namespace NexusLOB.Raft

open Collections Consensus

/-- A node after the first `k` actions of a run. -/
def nodeAt (s : Setup) (acts : List Action) (k : Nat) (n : NodeId) : RawNode :=
  ((Cluster.exec s (acts.take k)).peers n).node

section Facts

variable {s : Setup} {e : Election.State NodeId} {r : Replication.State NodeId Entry}
  {c : Cluster} {i : NodeId}

/-- No entry of a log is of a later term than the node. -/
theorem Simulates.termAt_le (h : Simulates s True c e r) (hi : i ∈ s.members) (k : Nat) :
    termAt Entry.term (c.peers i).node.log_.logical k ≤ (c.peers i).node.term_ := by
  rcases Nat.eq_zero_or_pos k with rfl | hpos
  · exact Nat.zero_le _
  rcases Nat.lt_or_ge (c.peers i).node.log_.logical.length k with hgt | hle
  · rw [termAt_of_gt hgt]
    exact Nat.zero_le _
  · have ht := (h.peer i hi).tracks
    obtain ⟨a, ha, hterm⟩ := exists_mem_termAt Entry.term hpos hle
    have hmem : a ∈ (r.replica (c.peers i).node.core.id).log := by
      rw [ht.replica.log]
      exact ha
    have hbound := (ht.complete trivial).log_le hmem
    rw [ht.replica.term] at hbound
    rw [hterm]
    exact hbound

/-- Terms do not fall along a log. -/
theorem Simulates.termAt_mono (h : Simulates s True c e r) (hi : i ∈ s.members) {j k : Nat}
    (hjk : j ≤ k) (hk : k ≤ (c.peers i).node.log_.logical.length) :
    termAt Entry.term (c.peers i).node.log_.logical j ≤
      termAt Entry.term (c.peers i).node.log_.logical k := by
  apply (h.rooted hi).termAt_mono _ hjk hk
  intro t a ha
  exact ((h.peer i hi).tracks.complete trivial).leaderLog_le ha

/-- The term at the commit index, in the node's own terms. -/
theorem Simulates.term_commit (h : Simulates s True c e r) (hi : i ∈ s.members) :
    (c.peers i).node.log_.term (c.peers i).node.log_.commitIndex =
      termAt Entry.term (c.peers i).node.log_.logical (c.peers i).node.log_.commitIndex := by
  have ht := (h.peer i hi).tracks
  apply ht.wf.term_eq
  have hle := (ht.complete trivial).commit_le (c.peers i).node.core.id
  rw [ht.replica.commit, ht.replica.log] at hle
  exact hle

end Facts

/-- A leader whose commit index is at an entry of its own term has committed all that was committed
in earlier terms. -/
theorem commitIndex_le_of_own_term {s : Setup} {acts : List Action}
    (hrun : (Cluster.init s).HeededRun s acts) (j k : Nat) {i m : NodeId} (hi : i ∈ s.members)
    (hm : m ∈ s.members) (hlm : (nodeAt s acts k m).role_ = .leader)
    (hlt : (nodeAt s acts j i).term_ < (nodeAt s acts k m).term_)
    (hown : (nodeAt s acts k m).log_.term (nodeAt s acts k m).log_.commitIndex =
      (nodeAt s acts k m).term_) :
    (nodeAt s acts j i).log_.commitIndex ≤ (nodeAt s acts k m).log_.commitIndex := by
  obtain ⟨e, r, e', r', h, h', -⟩ := simulates_moments hrun j k
  obtain ⟨p, hlen, hp, hp'⟩ := committed_isPrefix hrun j k hi hm hlm hlt
  by_contra hgt
  -- otherwise the leader's own entry stands before one of an earlier term
  have hle : (nodeAt s acts k m).log_.commitIndex ≤ p.length := by
    rw [hlen]
    exact Nat.le_of_not_le hgt
  have hmono := h'.termAt_mono hm hle hp'.length_le
  rw [← termAt_eq_of_isPrefix hp' le_rfl, termAt_eq_of_isPrefix hp le_rfl] at hmono
  have hbound := h.termAt_le hi p.length
  have hterm := (h'.term_commit hm).symm.trans hown
  unfold nodeAt at hlt hterm hmono
  omega

/-- In a run whose messages are heeded let `m` accept a read after `k` actions and register it,
with an entry of its own term at its commit index. The index it registers is not below what any
node of an earlier term, leader or not, has committed at any moment. -/
theorem read_index_fresh (s : Setup) (acts : List Action)
    (hrun : (Cluster.init s).HeededRun s acts) (j k : Nat) {i m : NodeId} (hi : i ∈ s.members)
    (hm : m ∈ s.members) (hlt : (nodeAt s acts j i).term_ < (nodeAt s acts k m).term_)
    {ctx : Bytes} (hread : ((nodeAt s acts k m).readIndex ctx).1 = true)
    (hown : (nodeAt s acts k m).log_.term (nodeAt s acts k m).log_.commitIndex =
      (nodeAt s acts k m).term_)
    {index : Nat} (hnew : (nodeAt s acts k m).readOnly_.pending_.find? ctx = none)
    (hreg : ((nodeAt s acts k m).readIndex ctx).2.readOnly_.pending_.find? ctx = some index) :
    (nodeAt s acts j i).log_.commitIndex ≤ index := by
  have hindex := find?_readIndex hread hnew
  rw [hreg] at hindex
  rw [Option.some.inj hindex]
  exact commitIndex_le_of_own_term hrun j k hi hm (leader_of_readIndex hread) hlt hown

/-- Node 1 replicates an entry to node 2 and commits it. Before node 2 hears of that it leads in
term 2, elected by node 3. -/
def staleRead : List Action := List.flatten
  [election, [.run 1 (.propose [7])], cycle 1, [.deliver 6 1], cycle 2, [.deliver 7 1], cycle 1,
    [.run 2 (.tick 1)], cycle 2, [.deliver 9 1], cycle 3, [.deliver 10 1]]

/-- Node 2 goes on and commits the entry of its own term with node 3. -/
def freshRead : List Action := List.flatten
  [staleRead, cycle 2, [.deliver 12 1], cycle 3, [.deliver 13 1], cycle 2, [.deliver 14 1], cycle 3,
    [.deliver 15 1]]

theorem read_index_fresh_own_entry :
    (Cluster.init trio).HeededRun trio freshRead ∧ (nodeAt trio freshRead 56 1).role_ = .leader ∧
      (nodeAt trio freshRead 56 1).log_.commitIndex ≤ 2 := by
  have hrun : (Cluster.init trio).HeededRun trio freshRead := by decide +kernel
  refine ⟨hrun, by decide +kernel, ?_⟩
  exact read_index_fresh trio freshRead hrun 56 80 (by decide) (by decide : (2 : NodeId) ∈ [1, 2, 3])
    (by decide +kernel) (by decide +kernel : ((nodeAt trio freshRead 80 2).readIndex [9]).1 = true)
    (by decide +kernel) (by decide +kernel) (by decide +kernel)

/-- The new leader accepts a read and registers it at index 0, while the leader before it has
committed index 1. -/
theorem read_index_stale :
    (Cluster.init trio).HeededRun trio staleRead ∧
      ((nodeAt trio staleRead 56 1).role_ = .leader ∧ (nodeAt trio staleRead 56 1).term_ = 1 ∧
        (nodeAt trio staleRead 56 1).log_.commitIndex = 1) ∧
      (nodeAt trio staleRead 56 2).term_ = 2 ∧
      ((nodeAt trio staleRead 56 2).readIndex [9]).1 = true ∧
      ((nodeAt trio staleRead 56 2).readIndex [9]).2.readOnly_.pending_.find? [9] = some 0 := by
  decide +kernel

end NexusLOB.Raft
