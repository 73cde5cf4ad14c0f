import NexusLOB.Raft.ClusterRefinement

/-!
# Safety of a cluster

Election safety and log matching hold in every run, with lost, repeated and reordered messages and
with crashes. State machine safety and leader completeness hold in runs whose messages the
receivers' logs heed. Two short runs show what happens otherwise: a heartbeat makes a node commit
an entry its leader never wrote, and an old append takes an acknowledged entry away.
-/

namespace NexusLOB.Raft

open Consensus

/-! ## Runs of three nodes -/

/-- Three members that campaign on their first tick. -/
def trio : Setup where
  members := [1, 2, 3]
  config := fun n => { id := n, electionTick := 1, peers := [1, 2, 3] }
  conf := fun _ => {}
  draw := fun _ => 1
  nodup := by decide
  nonzero := by decide
  id_eq := fun _ _ => rfl
  peers_perm := fun _ _ => List.Perm.refl _
  conf_perm := fun _ _ => Or.inl rfl

/-- Node `n` handles one `Ready`. -/
def cycle (n : NodeId) : List Action :=
  [.run n .poll, .run n .persistEntries, .run n .persistHardState, .run n .send, .run n .advance]

/-- Node 1 is elected by node 2 and sends its first append, which node 2 accepts. -/
def election : List Action := List.flatten
  [[.run 1 (.tick 1)], cycle 1, [.deliver 0 1], cycle 2, [.deliver 2 1], cycle 1, [.deliver 3 1],
    cycle 2, [.deliver 5 1]]

/-- Node 1 replicates an entry to node 2, commits it and tells node 2 so. -/
def replication : List Action := List.flatten
  [election, [.run 1 (.propose [7])], cycle 1, [.deliver 6 1], cycle 2, [.deliver 7 1], cycle 1,
    [.run 1 (.tick 1)], cycle 1, [.deliver 8 1], cycle 2]

/-! ## Election safety -/

theorem eq_of_length_le_one {α : Type} {l : List α} (h : l.length ≤ 1) {a b : α} (ha : a ∈ l)
    (hb : b ∈ l) : a = b := by
  match l, h with
  | [], _ => cases ha
  | [_], _ => rw [List.mem_singleton.mp ha, List.mem_singleton.mp hb]

section Facts

variable {s : Setup} {strict : Prop} {e : Election.State NodeId}
  {r : Replication.State NodeId Entry} {c : Cluster} {i : NodeId} {p : Peer}

/-- A leader is in the ledger. -/
theorem Simulates.won (h : Simulates s strict c e r) (hi : i ∈ s.members)
    (hr : (c.peers i).node.role_ = .leader) : ((c.peers i).node.term_, i) ∈ e.won := by
  have hp := h.peer i hi
  have hv : e.voter i = (c.peers i).node.core.voter (c.peers i).draft := by
    rw [← hp.tracks.voter, show (c.peers i).node.core.id = i from hp.id]
  have hlead : (e.voter i).role = .leader := by
    rw [hv, Core.voter, show (c.peers i).node.core.role = .leader from hr]
    rfl
  have hwon := hp.tracks.election.leads hlead
  rw [hv] at hwon
  exact hwon

/-- A leader's log is the log of its term. -/
theorem PeerOk.leads (h : PeerOk s strict e r i p) (hr : p.node.role_ = .leader) :
    p.node.log_.logical = r.leaderLog p.node.term_ ∧ p.node.term_ ∈ r.elected := by
  have hrole : (r.replica p.node.core.id).role = .leader := by
    rw [h.tracks.replica.role, show p.node.core.role = .leader from hr]
    rfl
  have hl := h.tracks.matching.leads hrole
  rw [h.tracks.replica.log, h.tracks.replica.term] at hl
  exact hl

theorem Simulates.leads (h : Simulates s strict c e r) (hi : i ∈ s.members)
    (hr : (c.peers i).node.role_ = .leader) :
    (c.peers i).node.log_.logical = r.leaderLog (c.peers i).node.term_ ∧
      (c.peers i).node.term_ ∈ r.elected :=
  (h.peer i hi).leads hr

/-- A node's log is rooted in the leaders' logs. -/
theorem Simulates.rooted (h : Simulates s strict c e r) (hi : i ∈ s.members) :
    Rooted Entry.term r.leaderLog (c.peers i).node.log_.logical := by
  have ht := (h.peer i hi).tracks
  have hlog := ht.matching.log (c.peers i).node.core.id
  rw [ht.replica.log] at hlog
  exact hlog

end Facts

/-- **Election safety.** In every run, restarts included, two nodes that lead in the same term, at
whatever moments, are the same node. -/
theorem election_safety (s : Setup) (acts more : List Action) {i j : NodeId}
    (hi : i ∈ s.members) (hj : j ∈ s.members)
    (hli : ((Cluster.exec s acts).peers i).node.role_ = .leader)
    (hlj : ((Cluster.exec s (acts ++ more)).peers j).node.role_ = .leader)
    (hterm : ((Cluster.exec s acts).peers i).node.term_ =
      ((Cluster.exec s (acts ++ more)).peers j).node.term_) : i = j := by
  rcases Nat.lt_or_ge 1 s.members.length with hcard | hle
  · obtain ⟨e, r, e', r', h, h', hlater⟩ :=
      simulates_exec s False acts more (fun hf => hf.elim) fun _ => hcard
    have hwi := hlater.won (h.won hi hli)
    have hwj := h'.won hj hlj
    rw [hterm] at hwi
    exact (h'.peer j hj).tracks.election.unique hwi hwj
  · exact eq_of_length_le_one hle hi hj

theorem election_safety_trio :
    ((Cluster.exec trio election).peers 1).node.role_ = .leader ∧ (1 : NodeId) = 1 :=
  ⟨by decide +kernel, election_safety trio election [] (by decide) (by decide) (by decide +kernel)
    (by decide +kernel) (by decide +kernel)⟩

/-! ## Log matching -/

/-- **Log matching.** In every state of every run, restarts included, two logs whose entries at
`k` have the same term are equal up to `k`. -/
theorem log_matching (s : Setup) (acts : List Action) {i j : NodeId} (hi : i ∈ s.members)
    (hj : j ∈ s.members) {k : Nat}
    (hki : k ≤ ((Cluster.exec s acts).peers i).node.log_.lastIndex)
    (hkj : k ≤ ((Cluster.exec s acts).peers j).node.log_.lastIndex)
    (hterm : ((Cluster.exec s acts).peers i).node.log_.term k =
      ((Cluster.exec s acts).peers j).node.log_.term k) :
    ((Cluster.exec s acts).peers i).node.log_.logical.take k =
      ((Cluster.exec s acts).peers j).node.log_.logical.take k := by
  rcases Nat.lt_or_ge 1 s.members.length with hcard | hle
  · obtain ⟨e, r, -, -, h, -, -⟩ :=
      simulates_exec s False acts [] (fun hf => hf.elim) fun _ => hcard
    have hwi := (h.peer i hi).tracks.wf
    have hwj := (h.peer j hj).tracks.wf
    have hli : k ≤ ((Cluster.exec s acts).peers i).node.log_.logical.length :=
      hwi.lastIndex_eq ▸ hki
    have hlj : k ≤ ((Cluster.exec s acts).peers j).node.log_.logical.length :=
      hwj.lastIndex_eq ▸ hkj
    have hti := hwi.term_eq hli
    have htj := hwj.term_eq hlj
    exact (h.rooted hi).matches (h.rooted hj) k hli hlj (hti.symm.trans (hterm.trans htj))
  · rw [eq_of_length_le_one hle hi hj]

/-- Node 1 replicates two entries to node 2 with one append. -/
def pairReplicated (a b : Bytes) : List Action := List.flatten
  [election, [.run 1 (.propose a), .run 1 (.propose b)], cycle 1, [.deliver 7 1], cycle 2]

theorem log_matching_trio :
    ((Cluster.exec trio (pairReplicated [7] [8])).peers 1).node.log_.logical.map Entry.data =
        [[7], [8]] ∧
      ((Cluster.exec trio (pairReplicated [7] [8])).peers 1).node.log_.logical.take 2 =
        ((Cluster.exec trio (pairReplicated [7] [8])).peers 2).node.log_.logical.take 2 :=
  ⟨by decide +kernel, log_matching trio (pairReplicated [7] [8]) (by decide) (by decide)
    (by decide +kernel) (by decide +kernel) (by decide +kernel)⟩

/-! ## State machine safety -/

/-- **State machine safety.** In every run whose messages are heeded, entries handed out at one
index by two nodes are the same. -/
theorem state_machine_safety (s : Setup) (acts : List Action)
    (hrun : (Cluster.init s).HeededRun s acts) {i j : NodeId} (hi : i ∈ s.members)
    (hj : j ∈ s.members) {a b : Entry} (ha : a ∈ ((Cluster.exec s acts).peers i).delivered)
    (hb : b ∈ ((Cluster.exec s acts).peers j).delivered) (hidx : a.index = b.index) :
    a.term = b.term ∧ a.data = b.data := by
  obtain ⟨e, r, -, -, h, -, -⟩ :=
    simulates_exec s True acts [] (fun _ => by rwa [List.append_nil]) fun hst => absurd trivial hst
  have hc := (h.peer i hi).tracks.complete trivial
  obtain ⟨-, hh⟩ := (h.peer i hi).delivered a ha
  obtain ⟨-, hh'⟩ := (h.peer j hj).delivered b hb
  obtain ⟨t, k, hcom, hk, hget⟩ := hc.handed hh
  obtain ⟨t', k', hcom', hk', hget'⟩ := hc.handed hh'
  rw [← hidx] at hk' hget'
  have heq := hc.committed_agree hcom hcom' hk hk'
  rw [hget, hget'] at heq
  cases heq
  exact ⟨rfl, rfl⟩

theorem state_machine_safety_trio :
    (Cluster.init trio).HeededRun trio replication ∧
      ∀ a ∈ ((Cluster.exec trio replication).peers 1).delivered,
        ∀ b ∈ ((Cluster.exec trio replication).peers 2).delivered,
          a.index = b.index → a.term = b.term ∧ a.data = b.data :=
  ⟨by decide +kernel, fun _ ha _ hb => state_machine_safety trio replication (by decide +kernel)
    (by decide) (by decide) ha hb⟩

/-- Node 3 leads in term 1 and proposes; node 1, which never saw that entry, leads in term 2 with
node 2 and commits its own entry; its heartbeat then reaches node 3. -/
def strayHeartbeat : List Action := List.flatten
  [[.run 3 (.tick 1)], cycle 3, [.deliver 0 1], cycle 1, [.deliver 2 1, .run 3 (.propose [7])],
    cycle 3, [.run 1 (.tick 1)], cycle 1, [.deliver 5 1], cycle 2,
    [.deliver 7 1, .run 1 (.propose [8])], cycle 1, [.deliver 8 1], cycle 2, [.deliver 10 1],
    cycle 1, [.deliver 11 1], cycle 2, [.deliver 12 1], cycle 1, [.run 1 (.tick 1)], cycle 1,
    [.deliver 14 1], cycle 3]

/-- A follower commits up to the heartbeat's index whatever its entries there are. -/
theorem heartbeat_commits_stray_entry :
    ((Cluster.exec trio strayHeartbeat).peers 1).delivered =
        [{ term := 2, index := 1, data := [8] }] ∧
      ((Cluster.exec trio strayHeartbeat).peers 3).delivered =
        [{ term := 1, index := 1, data := [7] }] := by
  decide +kernel

/-! ## Leader completeness -/

/-- Two moments of a run, whichever comes first. -/
theorem simulates_moments {s : Setup} {acts : List Action}
    (hrun : (Cluster.init s).HeededRun s acts) (j k : Nat) :
    ∃ e r e' r', Simulates s True (Cluster.exec s (acts.take j)) e r ∧
      Simulates s True (Cluster.exec s (acts.take k)) e' r' ∧
      (Later e r e' r' ∨ Later e' r' e r) := by
  have heeded : ∀ n, (Cluster.init s).HeededRun s (acts.take n) := by
    intro n
    rw [← List.take_append_drop n acts] at hrun
    exact ((Cluster.heededRun_append _ _ _).mp hrun).1
  rcases Nat.le_total j k with hjk | hkj
  · obtain ⟨more, hmore⟩ := take_prefix_of_le (l := acts) hjk
    obtain ⟨e, r, e', r', h, h', hl⟩ := simulates_exec s True (acts.take j) more
      (fun _ => hmore ▸ heeded k) fun hst => absurd trivial hst
    exact ⟨e, r, e', r', h, hmore ▸ h', Or.inl hl⟩
  · obtain ⟨more, hmore⟩ := take_prefix_of_le (l := acts) hkj
    obtain ⟨e, r, e', r', h, h', hl⟩ := simulates_exec s True (acts.take k) more
      (fun _ => hmore ▸ heeded j) fun hst => absurd trivial hst
    exact ⟨e', r', e, r, hmore ▸ h', h, Or.inr hl⟩

theorem exists_getElem?_of_isPrefix {α : Type} {p l l' : List α} (h : p <+: l) (h' : p <+: l')
    {n : Nat} (hn : n < p.length) : ∃ a, l[n]? = some a ∧ l'[n]? = some a := by
  refine ⟨p[n], ?_, ?_⟩
  · rw [← getElem?_eq_of_isPrefix h hn, List.getElem?_eq_getElem hn]
  · rw [← getElem?_eq_of_isPrefix h' hn, List.getElem?_eq_getElem hn]

section Leaders

variable {s : Setup} {e : Election.State NodeId} {r : Replication.State NodeId Entry}
  {c : Cluster} {i : NodeId}

/-- What a node has committed, as the replica it stands for. -/
theorem Simulates.commitKept (h : Simulates s True c e r) (hi : i ∈ s.members) :
    ∃ x : Replication.Replica NodeId Entry, x.term = (c.peers i).node.term_ ∧
      x.log = (c.peers i).node.log_.logical ∧ x.commit = (c.peers i).node.log_.committed_ ∧
      Replication.CommitKept Entry.term s.members.toFinset r x := by
  have ht := (h.peer i hi).tracks
  exact ⟨_, ht.replica.term, ht.replica.log, ht.replica.commit, (ht.complete trivial).commit _⟩

end Leaders

/-- What a node has committed at one moment is a prefix of the log of whoever leads a greater term
at another. -/
theorem committed_isPrefix {s : Setup} {acts : List Action}
    (hrun : (Cluster.init s).HeededRun s acts) (j k : Nat) {i m : NodeId} (hi : i ∈ s.members)
    (hm : m ∈ s.members)
    (hlm : ((Cluster.exec s (acts.take k)).peers m).node.role_ = .leader)
    (hlt : ((Cluster.exec s (acts.take j)).peers i).node.term_ <
      ((Cluster.exec s (acts.take k)).peers m).node.term_) :
    ∃ p, p.length = ((Cluster.exec s (acts.take j)).peers i).node.log_.committed_ ∧
      p <+: ((Cluster.exec s (acts.take j)).peers i).node.log_.logical ∧
      p <+: ((Cluster.exec s (acts.take k)).peers m).node.log_.logical := by
  obtain ⟨e, r, e', r', h, h', hl⟩ := simulates_moments hrun j k
  obtain ⟨x, hxt, hxl, hxc, hkept⟩ := h.commitKept hi
  obtain ⟨hlog, hel⟩ := h'.leads hm hlm
  rw [← hxt] at hlt
  rw [← hxc, ← hxl, hlog]
  rcases hl with hl | hl
  · exact ((h'.peer m hm).tracks.complete trivial).kept_later hl.grows hkept hlt hel
  · exact ((h.peer i hi).tracks.complete trivial).kept_earlier hl.grows hkept hlt hel

/-- **Leader completeness.** In a run whose messages are heeded, let `m` lead after `k` actions,
in a greater term than `i` is in after `j` actions, before or after. Whatever `i` has committed
there, as a leader or not, is entry for entry in the log of `m`. -/
theorem leader_completeness (s : Setup) (acts : List Action)
    (hrun : (Cluster.init s).HeededRun s acts) (j k : Nat) {i m : NodeId} (hi : i ∈ s.members)
    (hm : m ∈ s.members)
    (hlm : ((Cluster.exec s (acts.take k)).peers m).node.role_ = .leader)
    (hlt : ((Cluster.exec s (acts.take j)).peers i).node.term_ <
      ((Cluster.exec s (acts.take k)).peers m).node.term_) {n : Nat}
    (hn : n < ((Cluster.exec s (acts.take j)).peers i).node.log_.committed_) :
    ∃ a, ((Cluster.exec s (acts.take j)).peers i).node.log_.logical[n]? = some a ∧
      ((Cluster.exec s (acts.take k)).peers m).node.log_.logical[n]? = some a := by
  obtain ⟨p, hlen, hp, hp'⟩ := committed_isPrefix hrun j k hi hm hlm hlt
  exact exists_getElem?_of_isPrefix hp hp' (by rw [hlen]; exact hn)

/-- Node 2 leads in term 2 after it replicated node 1's entry. -/
def succession : List Action := List.flatten
  [replication, [.run 2 (.tick 1)], cycle 2, [.deliver 12 1], cycle 3, [.deliver 13 1]]

theorem leader_completeness_trio :
    (Cluster.init trio).HeededRun trio succession ∧
      ∃ a, ((Cluster.exec trio (succession.take 55)).peers 1).node.log_.logical[0]? = some a ∧
        ((Cluster.exec trio (succession.take 68)).peers 2).node.log_.logical[0]? = some a :=
  ⟨by decide +kernel, leader_completeness trio succession (by decide +kernel) 55 68 (by decide)
    (by decide) (by decide +kernel) (by decide +kernel) (by decide +kernel)⟩

/-- Node 1 sends two appends, of one and of two entries; node 2 accepts the longer one first, then
the shorter one, which cuts its log, and both replies reach node 1. Node 2 then leads in term 2. -/
def lateAppend : List Action := List.flatten
  [election, [.run 1 (.propose [7]), .run 1 (.propose [8])], cycle 1, [.deliver 7 1, .deliver 6 1],
    cycle 2, [.deliver 8 1, .run 2 (.tick 1)], cycle 2, [.deliver 11 1], cycle 3, [.deliver 12 1]]

/-- An append that arrives late takes away entries the follower acknowledged, and a leader is
elected without an entry that was committed. -/
theorem late_append_loses_committed_entry :
    let c := Cluster.exec trio lateAppend
    ((c.peers 1).node.role_ = .leader ∧ (c.peers 1).node.term_ = 1 ∧
        (c.peers 1).node.log_.committed_ = 2 ∧
        (c.peers 1).node.log_.logical.map Entry.data = [[7], [8]]) ∧
      (c.peers 2).node.role_ = .leader ∧ (c.peers 2).node.term_ = 2 ∧
        (c.peers 2).node.log_.logical.map Entry.data = [[7], []] := by
  decide +kernel

end NexusLOB.Raft
