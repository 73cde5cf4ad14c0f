import NexusLOB.Raft.Persisting
import NexusLOB.Raft.Written

/-!
# The members of a cluster hand out one sequence

Every message that a member sends is one a correct peer sends, so each member hands out the
entries at 1, 2, 3 and so on since its process started. In a run whose messages are heeded two
members hand out the same entry at an index. What they have handed out are therefore beginnings of
one sequence of entries, and what was handed out once stays so.
-/

namespace NexusLOB.Raft

open Consensus

section Regular

variable {s : Setup} {strict : Prop} {e : Election.State NodeId}
  {r : Replication.State NodeId Entry}

/-- A message that the replication system issued is one of a correct peer. -/
theorem Sound.regular (h : Sound s strict e r) {m : Message} (hm : Known r m) : m.Regular := by
  have happ : m.type = .msgApp → m.index ≤ (r.leaderLog m.term).length ∧
      m.logTerm = termAt Entry.term (r.leaderLog m.term) m.index ∧
      m.entries <+: (r.leaderLog m.term).drop m.index := by
    intro hty
    simp only [Known, hty] at hm
    exact (h.matching.issued _ hm).2
  refine ⟨?_, fun hty => continues_of_slice (h.indexed m.term) (happ hty).2.2, fun hty => ?_⟩
  · intro hty
    simp only [Known, hty] at hm
  · obtain ⟨hle, hpt, -⟩ := happ hty
    rcases Nat.eq_zero_or_pos m.index with h0 | hpos
    · exact Or.inl h0
    · right
      obtain ⟨en, hen, ht⟩ := exists_mem_termAt Entry.term hpos hle
      obtain ⟨k, hk⟩ := List.mem_iff_getElem?.mp hen
      rw [hpt, ht]
      exact (h.indexed m.term k en hk).2

end Regular

namespace Cluster

/-- Every member's loop is between two events, with the entries handed out in order. -/
def InOrder (s : Setup) (c : Cluster) : Prop := ∀ i ∈ s.members, InStep (c.peers i)

theorem inOrder_init (s : Setup) : InOrder s (init s) :=
  fun i _ => inStep_start (s.config i) (plain_fresh (s.conf i)) (s.draw i)

section Step

variable {s : Setup} {strict : Prop} {c : Cluster} {e : Election.State NodeId}
  {r : Replication.State NodeId Entry}

theorem InOrder.perform (h : InOrder s c) (n : NodeId) {ev : Event} (hev : ev.Lawful) :
    InOrder s (c.perform n ev) := by
  intro i hi
  by_cases hin : i = n
  · subst hin
    simp only [Cluster.perform, Function.update_self]
    exact (h i hi).handle_lawful hev
  · simp only [Cluster.perform, Function.update_of_ne hin]
    exact h i hi

theorem InOrder.step (h : InOrder s c) (hsim : Simulates s strict c e r) (a : Action) :
    InOrder s (c.step s a) := by
  cases a with
  | deliver k draw =>
    simp only [Cluster.step]
    split
    · exact h
    · rename_i m hk
      split_ifs with hm
      · exact h.perform _ ((hsim.peer _ hm).tracks.regular
          (hsim.network m (List.mem_of_getElem? hk)))
      · exact h
  | run n ev =>
    simp only [Cluster.step]
    split_ifs with hrun
    · refine h.perform _ ?_
      cases ev with
      | step m draw => exact regular_of_isLocal hrun.2
      | _ => trivial
    · exact h

end Step

end Cluster

theorem InStep.delivered_index {p : Peer} (h : InStep p) {k : Nat} {a : Entry}
    (hk : p.delivered[k]? = some a) : a.index = k + 1 := by
  have hidx : (p.delivered.map Entry.index)[k]? = some a.index := by
    rw [List.getElem?_map, hk]
    rfl
  rw [h.delivered] at hidx
  obtain ⟨_, hval⟩ := List.getElem?_eq_some_iff.mp hidx
  rw [List.getElem_range'] at hval
  omega

/-- An entry handed out stands at its own index. -/
theorem InStep.getElem?_delivered {p : Peer} (h : InStep p) {a : Entry} (ha : a ∈ p.delivered) :
    1 ≤ a.index ∧ p.delivered[a.index - 1]? = some a := by
  obtain ⟨k, hk⟩ := List.mem_iff_getElem?.mp ha
  have hidx := h.delivered_index hk
  exact ⟨by omega, by rw [hidx, Nat.add_sub_cancel, hk]⟩

/-- Without a crash, what was handed out stays handed out. -/
theorem handle_delivered_isPrefix (p : Peer) {ev : Event} (hlive : ∀ draw, ev ≠ .restart draw) :
    p.delivered <+: (p.handle ev).1.delivered := by
  have hmove := p.handle_move ev
  generalize p.handle ev = q at hmove ⊢
  cases hmove with
  | poll hready => exact List.prefix_append _ _
  | persistHardState rd hready =>
    unfold Peer.saveHardState
    split_ifs
    · exact List.prefix_rfl
    · exact List.prefix_rfl
  | restart draw => exact absurd rfl (hlive draw)
  | _ => exact List.prefix_rfl

namespace Cluster

/-- A cluster in a run whose messages are heeded. -/
structure Heeding (s : Setup) (c : Cluster) : Prop where
  simulates : ∃ e r, Simulates s True c e r
  inOrder : InOrder s c

section Heeding

variable {s : Setup} {c : Cluster} {i j : NodeId}

theorem heeding_init (s : Setup) : Heeding s (init s) := ⟨simulates_init s True, inOrder_init s⟩

theorem Heeding.step (h : Heeding s c) {a : Action} (ha : c.Heeded s a) :
    Heeding s (c.step s a) := by
  obtain ⟨e, r, hsim⟩ := h.simulates
  obtain ⟨e', r', hsim', -⟩ := hsim.step a (fun _ => ha) fun hst => absurd trivial hst
  exact ⟨⟨e', r', hsim'⟩, h.inOrder.step hsim a⟩

theorem Heeding.run (h : Heeding s c) {acts : List Action} (hacts : c.HeededRun s acts) :
    Heeding s (acts.foldl (Cluster.step s) c) := by
  induction acts generalizing c with
  | nil => exact h
  | cons a rest ih => exact ih (h.step hacts.1) hacts.2

/-- A later state of the same run: the leaders' logs and what is handed out only grow. -/
structure Onward (c c' : Cluster) : Prop where
  leaderLog : ∀ t, c.leaderLog t <+: c'.leaderLog t
  delivered : ∀ i, (c.peers i).delivered <+: (c'.peers i).delivered

theorem Onward.refl (c : Cluster) : Onward c c :=
  ⟨fun _ => List.prefix_rfl, fun _ => List.prefix_rfl⟩

theorem Onward.trans {c₁ c₂ c₃ : Cluster} (h : Onward c₁ c₂) (h' : Onward c₂ c₃) :
    Onward c₁ c₃ :=
  ⟨fun t => (h.leaderLog t).trans (h'.leaderLog t), fun i => (h.delivered i).trans (h'.delivered i)⟩

theorem perform_delivered (n : NodeId) {ev : Event} (hlive : ∀ draw, ev ≠ .restart draw)
    (i : NodeId) : (c.peers i).delivered <+: ((c.perform n ev).peers i).delivered := by
  by_cases hin : i = n
  · subst hin
    simp only [Cluster.perform, Function.update_self]
    exact handle_delivered_isPrefix _ hlive
  · simp only [Cluster.perform, Function.update_of_ne hin]
    exact List.prefix_rfl

/-- A heeded action is no action, or an event of one member that is not a crash. -/
theorem Heeded.cases {a : Action} (ha : c.Heeded s a) : c.step s a = c ∨
    ∃ i ∈ s.members, ∃ ev, (∀ draw, ev ≠ .restart draw) ∧ c.step s a = c.perform i ev := by
  cases a with
  | deliver k draw =>
    simp only [Cluster.step]
    split
    · exact Or.inl rfl
    · split_ifs with hi
      · refine Or.inr ⟨_, hi, _, ?_, rfl⟩
        intro draw heq
        cases heq
      · exact Or.inl rfl
  | run n ev =>
    simp only [Cluster.step]
    split_ifs with hi
    · refine Or.inr ⟨n, hi.1, ev, ?_, rfl⟩
      rintro draw rfl
      exact ha
    · exact Or.inl rfl

theorem Heeded.delivered {a : Action} (ha : c.Heeded s a) (i : NodeId) :
    (c.peers i).delivered <+: ((c.step s a).peers i).delivered := by
  rcases ha.cases with heq | ⟨j, -, ev, hlive, heq⟩
  · rw [heq]
  · rw [heq]
    exact perform_delivered j hlive i

theorem Heeding.onward (h : Heeding s c) (hi : i ∈ s.members) {a : Action} (ha : c.Heeded s a) :
    Onward c (c.step s a) := by
  refine ⟨fun t => ?_, ha.delivered⟩
  obtain ⟨e, r, hsim⟩ := h.simulates
  obtain ⟨e', r', hsim', hl⟩ := hsim.step a (fun _ => ha) fun hst => absurd trivial hst
  rw [← hsim.leaderLog, ← hsim'.leaderLog]
  by_cases ht : t ∈ r.elected
  · exact hl.grows.leaderLog_isPrefix ht
  · rw [(hsim.peer i hi).tracks.matching.unelected ht]
    exact List.nil_prefix

/-- An entry that is handed out is in the log of its term's leader. -/
theorem Heeding.written (h : Heeding s c) (hi : i ∈ s.members) {a : Entry}
    (ha : a ∈ (c.peers i).delivered) : (c.leaderLog a.term)[a.index - 1]? = some a := by
  obtain ⟨e, r, hsim⟩ := h.simulates
  rw [← hsim.leaderLog]
  exact (hsim.peer i hi).tracks.matching.handed ((hsim.peer i hi).delivered a ha).2

/-- What two members hand out at one index is one entry. -/
theorem Heeding.agree (h : Heeding s c) (hi : i ∈ s.members) (hj : j ∈ s.members) {a b : Entry}
    (ha : a ∈ (c.peers i).delivered) (hb : b ∈ (c.peers j).delivered)
    (hidx : a.index = b.index) : a = b := by
  obtain ⟨e, r, hsim⟩ := h.simulates
  have hc := (hsim.peer i hi).tracks.complete trivial
  obtain ⟨t, k, hcom, hk, hget⟩ := hc.handed ((hsim.peer i hi).delivered a ha).2
  obtain ⟨t', k', hcom', hk', hget'⟩ := hc.handed ((hsim.peer j hj).delivered b hb).2
  rw [← hidx] at hk' hget'
  have heq := hc.committed_agree hcom hcom' hk hk'
  rw [hget, hget'] at heq
  exact Option.some.inj heq

/-- Of two members one has handed out a beginning of what the other has. -/
theorem Heeding.comparable (h : Heeding s c) (hi : i ∈ s.members) (hj : j ∈ s.members)
    (hlen : (c.peers i).delivered.length ≤ (c.peers j).delivered.length) :
    (c.peers i).delivered <+: (c.peers j).delivered := by
  refine List.prefix_iff_getElem?.mpr fun k hk => ?_
  have ha := List.getElem?_eq_getElem hk
  have hb := List.getElem?_eq_getElem (Nat.lt_of_lt_of_le hk hlen)
  have hidx := (h.inOrder i hi).delivered_index ha
  have hidx' := (h.inOrder j hj).delivered_index hb
  rw [hb, h.agree hi hj (List.getElem_mem hk) (List.getElem_mem _) (hidx.trans hidx'.symm)]

/-- All members hand out beginnings of one sequence. -/
theorem Heeding.exists_order (h : Heeding s c) :
    ∃ order, ∀ i ∈ s.members, (c.peers i).delivered <+: order := by
  refine exists_isPrefix_of_comparable fun i hi j hj => ?_
  rcases Nat.le_total (c.peers i).delivered.length (c.peers j).delivered.length with hle | hle
  · exact Or.inl (h.comparable hi hj hle)
  · exact Or.inr (h.comparable hj hi hle)

/-- A member's log takes what is proposed to it as the leader. -/
theorem Heeding.committed_le (h : Heeding s c) (hi : i ∈ s.members) :
    (c.peers i).node.log_.committed_ ≤ (c.peers i).node.log_.lastIndex := by
  obtain ⟨e, r, hsim⟩ := h.simulates
  have ht := (hsim.peer i hi).tracks
  have hle := (ht.complete trivial).commit_le (c.peers i).node.core.id
  rw [ht.replica.commit, ht.replica.log, ← ht.wf.lastIndex_eq] at hle
  exact hle

/-- A leader's log is that of its term. -/
theorem Heeding.leads (h : Heeding s c) (hi : i ∈ s.members)
    (hr : (c.peers i).node.role_ = .leader) :
    (c.peers i).node.log_.logical = c.leaderLog (c.peers i).node.term_ ∧
      (c.peers i).node.term_ ≠ 0 := by
  obtain ⟨e, r, hsim⟩ := h.simulates
  obtain ⟨hlog, hel⟩ := hsim.leads hi hr
  rw [← hsim.leaderLog]
  exact ⟨hlog, Nat.ne_of_gt ((hsim.peer i hi).tracks.matching.elected_pos hel)⟩

/-- A command proposed to a leader is the next entry of its term's log. -/
theorem Heeding.proposed (h : Heeding s c) (hi : i ∈ s.members)
    (hr : (c.peers i).node.role_ = .leader) (cmd : Bytes) {e : Entry}
    (he : e = ⟨(c.peers i).node.term_, (c.peers i).node.log_.lastIndex + 1, .normal, cmd⟩) :
    ((c.step s (.run i (.propose cmd))).peers i).node.log_.lastIndex = e.index ∧
      (c.leaderLog e.term).length < e.index ∧
      ((c.step s (.run i (.propose cmd))).leaderLog e.term)[e.index - 1]? = some e := by
  subst he
  have hwf : (c.peers i).node.log_.WF := (h.inOrder i hi).sound.wf
  have hnode : ((c.step s (.run i (.propose cmd))).peers i).node =
      ((c.peers i).node.propose cmd).2 := by
    simp only [Cluster.step, hi, Event.isLocal, and_self, if_true, Cluster.perform,
      Function.update_self, Peer.handle]
  have hlog := propose_log (c.peers i).node cmd
  rw [if_pos hr] at hlog
  have hlen : (c.peers i).node.log_.lastIndex = (c.peers i).node.log_.logical.length :=
    hwf.lastIndex_eq
  obtain ⟨hlead, hpos⟩ := h.leads hi hr
  have hheed : c.Heeded s (.run i (.propose cmd)) := trivial
  obtain ⟨hrole, hterm⟩ := propose_office (c.peers i).node cmd
  have hlead' := ((h.step hheed).leads hi (by rw [hnode, hrole, hr])).1
  rw [hnode, hterm] at hlead'
  rcases hwf.append_one
      (e := ⟨(c.peers i).node.term_, (c.peers i).node.log_.lastIndex + 1, .normal, cmd⟩) rfl hpos
    with ⟨-, hlt⟩ | ⟨hwf', hlogical, -⟩
  · have := h.committed_le hi
    exact absurd hlt (by omega)
  · rw [← hlog] at hwf' hlogical
    refine ⟨?_, ?_, ?_⟩
    · rw [hnode, hwf'.lastIndex_eq, hlogical, List.length_append, hlen]
      rfl
    · change (c.leaderLog (c.peers i).node.term_).length < _
      rw [← hlead, ← hlen]
      exact Nat.lt_succ_self _
    · change ((c.step s (.run i (.propose cmd))).leaderLog (c.peers i).node.term_)[
        (c.peers i).node.log_.lastIndex + 1 - 1]? = _
      rw [← hlead', hlogical, Nat.add_sub_cancel, hlen, List.getElem?_concat_length]

end Heeding

end Cluster

end NexusLOB.Raft
