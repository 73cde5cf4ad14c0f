import NexusLOB.Raft.Safety
import NexusLOB.Raft.SingleMember

/-!
# Written entries

The entries that a node of a cluster can ever hold at an index under a term. With several members
these are the entries of the term's leader; a single member has only its own log. Entries that were
written stay so, crashes of other nodes included, and no two of them share term and index.
-/

namespace NexusLOB.Raft

open Consensus

namespace Cluster

/-- As seen from member `i`, `e` was written at its index in its term. -/
def Wrote (s : Setup) (i : NodeId) (c : Cluster) (e : Entry) : Prop :=
  1 ≤ e.index ∧
    if 1 < s.members.length then (c.leaderLog e.term)[e.index - 1]? = some e
    else (c.peers i).node.log_.logical[e.index - 1]? = some e

/-- What is known of the states of a cluster in which nodes may crash. -/
structure Sane (s : Setup) (i : NodeId) (c : Cluster) : Prop where
  many : 1 < s.members.length → ∃ e r, Simulates s False c e r
  solitary : s.members.length ≤ 1 → Solitary i (c.peers i)
  network : s.members.length ≤ 1 → ∀ m ∈ c.network, m.ClientTo i

section Sane

variable {s : Setup} {i : NodeId} {c : Cluster} {e e' : Entry}

theorem Wrote.unique (h : Wrote s i c e) (h' : Wrote s i c e') (ht : e.term = e'.term)
    (hidx : e.index = e'.index) : e = e' := by
  have hw := h.2
  have hw' := h'.2
  rw [← ht, ← hidx] at hw'
  split_ifs at hw hw'
  · exact Option.some.inj (hw.symm.trans hw')
  · exact Option.some.inj (hw.symm.trans hw')

theorem sane_init (s : Setup) {i : NodeId} (hi : i ∈ s.members) : Sane s i (init s) where
  many := fun _ => simulates_init s False
  solitary := fun _ => solitary_start (s.id_eq i hi) (plain_fresh _) _
  network := fun _ _ hm => absurd hm List.not_mem_nil

/-- Only the node `i` acts in a cluster of one. -/
theorem eq_of_mem_of_length_le_one (hi : i ∈ s.members) (hcard : s.members.length ≤ 1) {j : NodeId}
    (hj : j ∈ s.members) : j = i := eq_of_length_le_one hcard hj hi

/-- An event of the only member. -/
theorem Sane.perform (h : Sane s i c) (hcard : s.members.length ≤ 1) {ev : Event}
    (hev : ev.FromClients) :
    Sane s i (c.perform i ev) ∧ ((∃ draw, ev = .restart draw) ∨
      (c.peers i).node.log_.logical <+: ((c.perform i ev).peers i).node.log_.logical) := by
  obtain ⟨hsol, hsent, hgrow⟩ := (h.solitary hcard).handle hev
  have hself : (c.perform i ev).peers i = ((c.peers i).handle ev).1 := Function.update_self ..
  refine ⟨⟨fun hmany => absurd hmany (by omega), fun _ => hself ▸ hsol, fun _ m hm => ?_⟩,
    hself ▸ hgrow⟩
  rcases List.mem_append.mp hm with hm | hm
  · exact h.network hcard m hm
  · exact hsent m hm

/-- An action of a cluster of one. -/
theorem Sane.step_single (h : Sane s i c) (hi : i ∈ s.members) (hcard : s.members.length ≤ 1)
    (a : Action) :
    Sane s i (c.step s a) ∧ ((∃ draw, a = .run i (.restart draw)) ∨
      (c.peers i).node.log_.logical <+: ((c.step s a).peers i).node.log_.logical) := by
  cases a with
  | deliver k draw =>
    simp only [Cluster.step]
    split
    · exact ⟨h, Or.inr List.prefix_rfl⟩
    · rename_i m hk
      split_ifs with hm
      · have hrec := eq_of_mem_of_length_le_one hi hcard hm
        have hlocal : (Event.step m draw).FromClients :=
          h.network hcard m (List.mem_of_getElem? hk) hrec
        rw [hrec]
        obtain ⟨hs, hgrow⟩ := h.perform hcard hlocal
        refine ⟨hs, Or.inr (hgrow.resolve_left ?_)⟩
        rintro ⟨_, hf⟩
        cases hf
      · exact ⟨h, Or.inr List.prefix_rfl⟩
  | run n ev =>
    simp only [Cluster.step]
    split_ifs with hrun
    · obtain rfl := eq_of_mem_of_length_le_one hi hcard hrun.1
      have hev : ev.FromClients := by
        cases ev with
        | step m draw => exact hrun.2
        | _ => trivial
      obtain ⟨hs, hgrow⟩ := h.perform hcard hev
      refine ⟨hs, hgrow.imp_left ?_⟩
      rintro ⟨draw, rfl⟩
      exact ⟨draw, rfl⟩
    · exact ⟨h, Or.inr List.prefix_rfl⟩

/-- Entries that the leaders wrote stay written. -/
theorem getElem?_leaderLog_of_later {s : Setup} {c c' : Cluster} {el el' : Election.State NodeId}
    {r r' : Replication.State NodeId Entry} (h : Simulates s False c el r)
    (h' : Simulates s False c' el' r') (hi : i ∈ s.members) (hl : Later el r el' r') {t k : Nat}
    (he : (c.leaderLog t)[k]? = some e) : (c'.leaderLog t)[k]? = some e := by
  rw [← h.leaderLog] at he
  rw [← h'.leaderLog]
  have ht : t ∈ r.elected := by
    by_contra hne
    rw [(h.peer i hi).tracks.matching.unelected hne] at he
    cases he
  exact getElem?_eq_some_of_isPrefix (hl.grows.leaderLog_isPrefix ht) he

/-- Every action keeps the cluster sane, and written entries unless the only member crashes. -/
theorem Sane.step (h : Sane s i c) (hi : i ∈ s.members) (a : Action) :
    Sane s i (c.step s a) ∧
      ((∃ draw, a = .run i (.restart draw)) ∨ ∀ e, Wrote s i c e → Wrote s i (c.step s a) e) := by
  rcases Nat.lt_or_ge 1 s.members.length with hcard | hcard
  · obtain ⟨el, r, hsim⟩ := h.many hcard
    obtain ⟨el', r', hsim', hlater⟩ := hsim.step a (fun hf => hf.elim) fun _ _ => hcard
    refine ⟨⟨fun _ => ⟨el', r', hsim'⟩, fun hle => absurd hcard (by omega),
      fun hle => absurd hcard (by omega)⟩, Or.inr ?_⟩
    rintro e ⟨h1, hw⟩
    rw [if_pos hcard] at hw
    refine ⟨h1, ?_⟩
    rw [if_pos hcard]
    exact getElem?_leaderLog_of_later hsim hsim' hi hlater hw
  · obtain ⟨hs, hgrow⟩ := h.step_single hi hcard a
    refine ⟨hs, hgrow.imp_right ?_⟩
    rintro hp e ⟨h1, hw⟩
    rw [if_neg (by omega)] at hw
    refine ⟨h1, ?_⟩
    rw [if_neg (by omega)]
    exact getElem?_eq_some_of_isPrefix hp hw

/-- Entries handed out were written. -/
theorem Sane.delivered (h : Sane s i c) (hi : i ∈ s.members) (he : e ∈ (c.peers i).delivered) :
    Wrote s i c e := by
  rcases Nat.lt_or_ge 1 s.members.length with hcard | hcard
  · obtain ⟨el, r, hsim⟩ := h.many hcard
    obtain ⟨h1, hh⟩ := (hsim.peer i hi).delivered e he
    refine ⟨h1, ?_⟩
    rw [if_pos hcard, ← hsim.leaderLog]
    exact (hsim.peer i hi).tracks.matching.handed hh
  · obtain ⟨h1, hget⟩ := (h.solitary hcard).delivered e he
    refine ⟨h1, ?_⟩
    rw [if_neg (by omega)]
    exact hget

/-- The log of a member in such a state. -/
theorem Sane.wf (h : Sane s i c) (hi : i ∈ s.members) : (c.peers i).node.log_.WF := by
  rcases Nat.lt_or_ge 1 s.members.length with hcard | hcard
  · obtain ⟨el, r, hsim⟩ := h.many hcard
    exact (hsim.peer i hi).tracks.wf
  · exact (h.solitary hcard).inStep.sound.wf

theorem Sane.term_ne_zero (h : Sane s i c) (hi : i ∈ s.members)
    (hr : (c.peers i).node.role_ = .leader) : (c.peers i).node.term_ ≠ 0 := by
  rcases Nat.lt_or_ge 1 s.members.length with hcard | hcard
  · obtain ⟨el, r, hsim⟩ := h.many hcard
    have hel := (hsim.leads hi hr).2
    exact Nat.ne_of_gt ((hsim.peer i hi).tracks.matching.elected_pos hel)
  · refine (h.solitary hcard).inStep.sound.term_pos ?_
    rw [show (c.peers i).node.view.role = .leader from hr]
    decide

/-- What a leader proposes is written, if its log takes it. -/
theorem Sane.proposed (h : Sane s i c) (hi : i ∈ s.members)
    (hr : (c.peers i).node.role_ = .leader)
    (hc : (c.peers i).node.log_.committed_ ≤ (c.peers i).node.log_.lastIndex) (cmd : Bytes) :
    ((c.step s (.run i (.propose cmd))).peers i).node.log_.lastIndex =
        (c.peers i).node.log_.lastIndex + 1 ∧
      Wrote s i (c.step s (.run i (.propose cmd)))
        ⟨(c.peers i).node.term_, (c.peers i).node.log_.lastIndex + 1, .normal, cmd⟩ := by
  have hs' := (h.step hi (.run i (.propose cmd))).1
  have hnode : ((c.step s (.run i (.propose cmd))).peers i).node = ((c.peers i).node.propose cmd).2 := by
    simp only [Cluster.step, Event.isLocal, and_true, if_pos hi, Cluster.perform,
      Function.update_self, Peer.handle]
  have hwf := h.wf hi
  have hlog := propose_log (c.peers i).node cmd
  rw [if_pos hr] at hlog
  obtain ⟨hwf', hlogical⟩ : ((c.peers i).node.propose cmd).2.log_.WF ∧
      ((c.peers i).node.propose cmd).2.log_.logical = (c.peers i).node.log_.logical ++
        [⟨(c.peers i).node.term_, (c.peers i).node.log_.lastIndex + 1, .normal, cmd⟩] := by
    rw [hlog]
    rcases hwf.append_one (e := ⟨_, _, .normal, cmd⟩) rfl (h.term_ne_zero hi hr) with
      ⟨-, hlt⟩ | ⟨hwf', hlogical, -⟩
    · omega
    · exact ⟨hwf', hlogical⟩
  have hlen : (c.peers i).node.log_.lastIndex = (c.peers i).node.log_.logical.length :=
    hwf.lastIndex_eq
  have hget : ((c.peers i).node.propose cmd).2.log_.logical[(c.peers i).node.log_.lastIndex]? =
      some ⟨(c.peers i).node.term_, (c.peers i).node.log_.lastIndex + 1, .normal, cmd⟩ := by
    rw [hlogical, hlen, List.getElem?_concat_length]
  refine ⟨?_, Nat.le_add_left 1 _, ?_⟩
  · rw [hnode, hwf'.lastIndex_eq, hlogical, List.length_append, hlen]
    rfl
  · rw [Nat.add_sub_cancel]
    split_ifs with hcard
    · -- the leader's log is that of its term
      obtain ⟨el, r, hsim⟩ := hs'.many hcard
      obtain ⟨hrole, hterm⟩ := propose_office (c.peers i).node cmd
      have hl := (hsim.leads hi (by rw [hnode, hrole, hr])).1
      rw [hnode, hterm, hsim.leaderLog] at hl
      rw [← hl]
      exact hget
    · rw [hnode]
      exact hget

end Sane

end Cluster

end NexusLOB.Raft
