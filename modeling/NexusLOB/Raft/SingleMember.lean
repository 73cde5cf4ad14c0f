import NexusLOB.Raft.Cluster
import NexusLOB.Raft.Delivery

/-!
# A cluster of one member

A node that is the only member hears nothing but client messages: everything else it sends goes to
other nodes. Its log loses no entry while the process lives, crashes included.
-/

namespace NexusLOB.Raft

open Collections

/-! ## What a node sends to itself -/

/-- A message to the node `i` is a client message. -/
def Message.ClientTo (i : NodeId) (m : Message) : Prop := m.receiver = i → m.isLocal = true

/-- `n'` comes from `n` by queueing messages, of which only client messages go to `n` itself. -/
structure Sends (n n' : RawNode) : Prop where
  id : n'.id_ = n.id_
  msgs : ∀ m ∈ n'.msgs_, m ∈ n.msgs_ ∨ m.ClientTo n.id_

section Sends

variable {n n' n'' : RawNode}

theorem Sends.quiet (hid : n'.id_ = n.id_) (hm : n'.msgs_ = n.msgs_) : Sends n n' :=
  ⟨hid, fun _ h => Or.inl (hm ▸ h)⟩

theorem Sends.refl (n : RawNode) : Sends n n := .quiet rfl rfl

theorem Sends.trans (h : Sends n n') (h' : Sends n' n'') : Sends n n'' := by
  refine ⟨h'.id.trans h.id, fun m hm => ?_⟩
  rcases h'.msgs m hm with hm | hm
  · exact h.msgs m hm
  · exact Or.inr (h.id ▸ hm)

theorem sends_send {m : Message} (h : m.ClientTo n.id_) : Sends n (n.send m) := by
  refine ⟨rfl, fun m' hm' => ?_⟩
  rcases List.mem_append.mp hm' with hm' | hm'
  · exact Or.inl hm'
  · rw [List.mem_singleton.mp hm']
    exact Or.inr h

theorem sends_other {m : Message} (h : m.receiver ≠ n.id_) : Sends n (n.send m) :=
  sends_send fun hr => absurd hr h

theorem sendAppend_sends {target : NodeId} (h : target ≠ n.id_) : Sends n (n.sendAppend target) := by
  have hpost := sendAppend_posted n target
  generalize n.sendAppend target = n' at hpost ⊢
  cases hpost with
  | silent => exact .refl n
  | snapshot hp hm =>
    have hmod : Sends n { n with
        pr_ := n.pr_.modify target fun pr => pr.becomeSnapshot n.log_.snapshot.index } :=
      .quiet rfl rfl
    exact hmod.trans (sends_other (by rw [hm]; exact h))
  | @append p p' ents m hp hp' hm =>
    have hmod : Sends n { n with pr_ := n.pr_.modify target fun _ => p' } := .quiet rfl rfl
    exact hmod.trans (sends_other (by rw [hm]; exact h))

theorem forPeers_sends {f : RawNode → NodeId → RawNode}
    (hf : ∀ n id, id ≠ n.id_ → Sends n (f n id)) (n : RawNode) : Sends n (n.forPeers f) := by
  unfold RawNode.forPeers
  generalize n.pr_.keys = keys
  induction keys generalizing n with
  | nil => exact .refl n
  | cons id rest ih =>
    rw [List.foldl_cons]
    split_ifs with hid
    · exact ih n
    · exact (hf n id hid).trans (ih _)

theorem broadcastAppend_sends (n : RawNode) : Sends n n.broadcastAppend :=
  forPeers_sends (fun _ _ h => sendAppend_sends h) n

/-- A change that queues nothing, then an append to every peer. -/
theorem Sends.broadcast (hid : n'.id_ = n.id_) (hm : n'.msgs_ = n.msgs_) :
    Sends n n'.broadcastAppend := (Sends.quiet hid hm).trans (broadcastAppend_sends n')

theorem propose_sends (n : RawNode) (data : Bytes) : Sends n (n.propose data).2 := by
  unfold RawNode.propose
  split
  · exact .refl n
  · exact .broadcast rfl rfl

theorem heartbeats_sends (hid : n'.id_ = n.id_) (hm : n'.msgs_ = n.msgs_) (ctx : Bytes) :
    Sends n (n'.forPeers fun n id => n.send (n.heartbeat id ctx)) :=
  (Sends.quiet hid hm).trans (forPeers_sends (fun _ _ h => sends_other h) n')

theorem readIndex_sends (n : RawNode) (ctx : Bytes) : Sends n (n.readIndex ctx).2 := by
  unfold RawNode.readIndex
  dsimp only
  split_ifs
  · exact .refl n
  · exact .refl n
  · apply heartbeats_sends <;> rfl
  · exact .quiet rfl rfl

theorem becomeLeader_sends (n : RawNode) : Sends n n.becomeLeader := by
  unfold RawNode.becomeLeader
  dsimp only
  split_ifs
  · exact .broadcast rfl rfl
  · exact .broadcast rfl rfl

theorem campaign_sends (n : RawNode) (draw : Nat) : Sends n (n.campaign draw) := by
  by_cases hq : n.quorum = 1
  · have hc : Sends n (n.becomeCandidate draw) := .quiet rfl rfl
    rw [campaign_alone hq]
    exact hc.trans (becomeLeader_sends _)
  · rw [campaign_eq hq]
    refine ⟨rfl, fun m hm => ?_⟩
    rcases List.mem_append.mp hm with hm | hm
    · exact Or.inl hm
    · obtain ⟨v, hv, rfl⟩ := List.mem_map.mp hm
      have hne : v ≠ n.id_ := of_decide_eq_true (List.mem_filter.mp hv).2
      exact Or.inr fun hr => absurd hr hne

theorem tick_sends (n : RawNode) (draw : Nat) : Sends n (n.tick draw).2 := by
  unfold RawNode.tick RawNode.tickElection
  dsimp only
  split_ifs
  · have hb : Sends n { n with tickCount_ := n.tickCount_ + 1 } := .quiet rfl rfl
    have hh := forPeers_sends (f := RawNode.sendHeartbeat) (fun _ _ h => sends_other h)
      { n with tickCount_ := n.tickCount_ + 1 }
    exact (hb.trans hh).trans (.quiet rfl rfl)
  · exact .quiet rfl rfl
  · have hb : Sends n { n with tickCount_ := n.tickCount_ + 1 } := .quiet rfl rfl
    exact (hb.trans (campaign_sends _ draw)).trans (.quiet rfl rfl)
  · exact .quiet rfl rfl

theorem stepLeaderReadIndex_sends (n : RawNode) (m : Message) :
    Sends n (n.stepLeaderReadIndex m) := by
  unfold RawNode.stepLeaderReadIndex
  dsimp only
  split_ifs
  · exact .refl n
  · apply heartbeats_sends <;> rfl
  · exact .quiet rfl rfl
  · apply heartbeats_sends <;> rfl
  · exact .quiet rfl rfl

theorem forward_sends {m : Message} (hm : m.isLocal = true) (n : RawNode) :
    Sends n (n.forward m) := by
  unfold RawNode.forward
  split_ifs
  · exact .refl n
  · exact sends_send fun _ => hm

/-- A client message makes the node send to itself at most that message. -/
theorem step_sends (n : RawNode) {m : Message} (hm : m.isLocal = true) (draw : Nat) :
    Sends n (n.step m draw) := by
  have hty : m.type = .msgPropose ∨ m.type = .msgReadIndex ∨ m.type = .msgUnreachable := by
    simpa [Message.isLocal] using hm
  have hraise : Sends n (n.raiseTerm m draw) := by
    unfold RawNode.raiseTerm
    split_ifs
    · exact .quiet rfl rfl
    · exact .refl n
  have hdispatch : m.type = .msgPropose ∨ m.type = .msgReadIndex →
      ∀ n' : RawNode, Sends n' (n'.dispatch m draw) := by
    intro hty n'
    unfold RawNode.dispatch RawNode.stepLeader RawNode.stepCandidate RawNode.stepFollower
    rcases hty with hty | hty <;> simp only [hty] <;> split
    · exact propose_sends n' _
    · exact .refl n'
    · exact .refl n'
    · exact forward_sends hm n'
    · exact stepLeaderReadIndex_sends n' m
    · exact .refl n'
    · exact .refl n'
    · exact forward_sends hm n'
  rcases hty with hty | hty | hty
  · simp only [RawNode.step, RawNode.rejectStale, hty]
    split_ifs
    · exact hraise
    · exact hraise.trans (hdispatch (Or.inl hty) _)
  · simp only [RawNode.step, RawNode.rejectStale, hty]
    split_ifs
    · exact hraise
    · exact hraise.trans (hdispatch (Or.inr hty) _)
  · simp only [RawNode.step, hty]
    exact .quiet rfl rfl

end Sends

/-! ## The member's run -/

/-- Events that bring the node nothing but client messages. -/
def Event.FromClients : Event → Prop
  | .step m _ => m.isLocal = true
  | _ => True

/-- The only member `i` of a cluster. -/
structure Solitary (i : NodeId) (p : Peer) : Prop where
  inStep : InStep p
  id : p.node.id_ = i
  config : p.config.id = i
  queued : ∀ m ∈ p.node.msgs_, m.ClientTo i
  messages : ∀ {stage rd}, p.ready = some (stage, rd) → ∀ m ∈ rd.messages, m.ClientTo i
  delivered : ∀ e ∈ p.delivered, 1 ≤ e.index ∧ p.node.log_.logical[e.index - 1]? = some e

section Solitary

variable {i : NodeId} {p : Peer}

theorem regular_of_isLocal {m : Message} (h : m.isLocal = true) : m.Regular := by
  have hty : m.type = .msgPropose ∨ m.type = .msgReadIndex ∨ m.type = .msgUnreachable := by
    simpa [Message.isLocal] using h
  constructor
  · rcases hty with hty | hty | hty <;> simp [hty]
  · rcases hty with hty | hty | hty <;> simp [hty]
  · rcases hty with hty | hty | hty <;> simp [hty]

/-- Client messages never make a node drop an entry. -/
theorem Effects.logical_isPrefix {l₀ : RaftLog} {msg : Option Message} {n n' : RawNode}
    (he : Effects l₀ msg n n') (hm : ∀ {m}, msg = some m → m.isLocal = true)
    (hs : n.view.Sound) : n.log_.logical <+: n'.log_.logical := by
  have hpres : n'.view.Sound ∧ n.log_.logical <+: n'.view.log.logical := by
    refine he.preserves (P := fun v => v.Sound ∧ n.log_.logical <+: v.log.logical) ?_
      ⟨hs, List.prefix_rfl⟩
    rintro v v' heff ⟨hv, hlog⟩
    refine ⟨(hv.effect heff fun h => regular_of_isLocal (hm h)).1, hlog.trans ?_⟩
    have hne : ∀ {m : Message} {t : MessageType}, msg = some m → m.type = t → t ≠ .msgPropose →
        t ≠ .msgReadIndex → t ≠ .msgUnreachable → False := by
      rintro m t hmsg rfl h₁ h₂ h₃
      have := hm hmsg
      simp [Message.isLocal, h₁, h₂, h₃] at this
    cases heff with
    | turn | lead | track | commit => exact List.prefix_rfl
    | @append e hr ht hi =>
      have hpos := hv.term_pos (by rw [hr]; decide)
      rcases hv.wf.append_one hi (ht ▸ hpos) with ⟨heq, -⟩ | ⟨-, hlog', -⟩
      · rw [heq]
      · dsimp only
        rw [hlog']
        exact List.prefix_append _ _
    | accept hmsg hty => exact (hne hmsg hty nofun nofun nofun).elim
    | heartbeat hmsg hty => exact (hne hmsg hty nofun nofun nofun).elim
    | restore hmsg hty => exact (hne hmsg hty nofun nofun nofun).elim
  exact hpres.2

/-- What the next peer is when the log only grew. -/
structure Solitary.Next (i : NodeId) (p p' : Peer) : Prop where
  id : p'.node.id_ = i
  config : p'.config = p.config
  queued : ∀ m ∈ p'.node.msgs_, m.ClientTo i
  messages : ∀ {stage rd}, p'.ready = some (stage, rd) → ∀ m ∈ rd.messages, m.ClientTo i
  delivered : ∀ e ∈ p'.delivered, e ∈ p.delivered ∨
    1 ≤ e.index ∧ p.node.log_.logical[e.index - 1]? = some e
  grows : p.node.log_.logical <+: p'.node.log_.logical

theorem Solitary.Next.solitary {p' : Peer} (hn : Solitary.Next i p p') (h : Solitary i p)
    (hin : InStep p') : Solitary i p' where
  inStep := hin
  id := hn.id
  config := hn.config ▸ h.config
  queued := hn.queued
  messages := hn.messages
  delivered := by
    intro e he
    obtain ⟨h1, hget⟩ : 1 ≤ e.index ∧ p.node.log_.logical[e.index - 1]? = some e := by
      rcases hn.delivered e he with he | he
      · exact h.delivered e he
      · exact he
    exact ⟨h1, Consensus.getElem?_eq_some_of_isPrefix hn.grows hget⟩

/-- A call of the node. -/
theorem Solitary.call (h : Solitary i p) {l₀ : RaftLog} {msg : Option Message} {n' : RawNode}
    (he : Effects l₀ msg p.node n') (hs : Sends p.node n')
    (hm : ∀ {m}, msg = some m → m.isLocal = true) : Solitary.Next i p { p with node := n' } where
  id := hs.id.trans h.id
  config := rfl
  queued := by
    intro m hmem
    rcases hs.msgs m hmem with hmem | hmem
    · exact h.queued m hmem
    · exact h.id ▸ hmem
  messages := h.messages
  delivered := fun _ he => Or.inl he
  grows := he.logical_isPrefix hm h.inStep.sound

theorem Solitary.poll (h : Solitary i p) :
    Solitary.Next i p { p with
      node := p.node.poll.2
      ready := some (.persistEntries, p.node.poll.1)
      delivered := p.delivered ++ p.node.poll.1.committedEntries } where
  id := h.id
  config := rfl
  queued := nofun
  messages := by
    rintro stage rd ⟨⟩
    exact h.queued
  delivered := by
    intro e he
    rcases List.mem_append.mp he with he | he
    · exact Or.inl he
    · obtain ⟨j, hj⟩ := List.mem_iff_getElem?.mp he
      obtain ⟨hidx, -, hget⟩ := committedEntries_index h.inStep.sound.wf hj
      refine Or.inr ⟨by omega, ?_⟩
      rw [hidx, Nat.add_sub_cancel]
      exact hget
  grows := List.prefix_rfl

/-- One event other than a restart. -/
theorem Solitary.next (h : Solitary i p) {ev : Event} (hev : ev.FromClients)
    (hlive : ∀ draw, ev ≠ .restart draw) :
    Solitary.Next i p (p.handle ev).1 ∧ ∀ m ∈ (p.handle ev).2, m.ClientTo i := by
  have hstay : Solitary.Next i p p :=
    ⟨h.id, rfl, h.queued, h.messages, fun _ he => Or.inl he, List.prefix_rfl⟩
  have hmove := p.handle_move ev
  generalize p.handle ev = q at hmove ⊢
  cases hmove with
  | tick draw hready =>
    exact ⟨h.call (tick_effects p.node draw) (tick_sends p.node draw) nofun, nofun⟩
  | step m draw hready =>
    refine ⟨h.call (step_effects p.node m draw) (step_sends p.node hev draw) ?_, nofun⟩
    rintro m' ⟨⟩
    exact hev
  | propose data =>
    exact ⟨h.call (propose_effects p.node data) (propose_sends p.node data) nofun, nofun⟩
  | readIndex ctx =>
    exact ⟨h.call (readIndex_effects p.node ctx) (readIndex_sends p.node ctx) nofun, nofun⟩
  | poll hready => exact ⟨h.poll, nofun⟩
  | persistEntries rd hready =>
    have hwf := h.inStep.sound.wf
    have hgrow : p.node.log_.logical <+:
        RaftLog.logical { p.node.log_ with
          storage_ := p.node.log_.storage_.appendNoSync rd.entries } := by
      rcases (h.inStep.pending hready).persistEntries hwf with ⟨hnil, -⟩ | ⟨l', rfl, -, hlog, -, -⟩
      · rw [hnil]
        exact List.prefix_rfl
      · rw [hlog]
    refine ⟨{ hstay with messages := ?_, grows := hgrow }, nofun⟩
    rintro stage rd' ⟨⟩
    exact h.messages hready
  | persistHardState rd hready =>
    have hm : ∀ {stage rd'}, some (Stage.send, rd) = some (stage, rd') →
        ∀ m ∈ rd'.messages, m.ClientTo i := by
      rintro stage rd' ⟨⟩
      exact h.messages hready
    refine ⟨?_, nofun⟩
    unfold Peer.saveHardState
    split_ifs
    · exact { hstay with messages := hm }
    · exact { hstay with messages := hm }
  | send rd hready =>
    refine ⟨{ hstay with messages := ?_ }, h.messages hready⟩
    rintro stage rd' ⟨⟩
    exact h.messages hready
  | advance rd hready =>
    obtain ⟨l', -, hlog, -, -, -, heq⟩ :=
      (h.inStep.pending hready).advance h.inStep.sound.wf nofun
    dsimp only
    rw [heq]
    exact ⟨{ hstay with messages := nofun, grows := by rw [hlog] }, nofun⟩
  | restart draw => exact absurd rfl (hlive draw)
  | stay => exact ⟨hstay, nofun⟩

theorem solitary_start {c : Config} (hc : c.id = i) {w : WriteAheadLog} (hw : w.Plain)
    (draw : Nat) : Solitary i (Peer.start c w draw) :=
  ⟨inStep_start c hw draw, hc, hc, nofun, nofun, nofun⟩

/-- Every event keeps the member alone with its clients; only a restart may lose entries. -/
theorem Solitary.handle (h : Solitary i p) {ev : Event} (hev : ev.FromClients) :
    Solitary i (p.handle ev).1 ∧ (∀ m ∈ (p.handle ev).2, m.ClientTo i) ∧
      ((∃ draw, ev = .restart draw) ∨
        p.node.log_.logical <+: (p.handle ev).1.node.log_.logical) := by
  by_cases hr : ∃ draw, ev = .restart draw
  · obtain ⟨draw, rfl⟩ := hr
    have hwf := h.inStep.sound.wf
    exact ⟨solitary_start h.config ⟨hwf.dummy, hwf.snapIndex, hwf.stored⟩ draw, nofun,
      Or.inl ⟨draw, rfl⟩⟩
  · have hlive : ∀ draw, ev ≠ .restart draw := fun draw heq => hr ⟨draw, heq⟩
    obtain ⟨hn, hm⟩ := h.next hev hlive
    have hreg : ev.Regular := by
      cases ev with
      | step m draw => exact regular_of_isLocal hev
      | restart draw => exact hlive draw rfl
      | _ => trivial
    exact ⟨hn.solitary h (h.inStep.handle hreg), hm, Or.inr hn.grows⟩

end Solitary

end NexusLOB.Raft
