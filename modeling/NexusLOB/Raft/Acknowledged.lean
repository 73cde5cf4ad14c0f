import NexusLOB.Raft.FollowerAppend
import NexusLOB.Raft.ReadyLoop

/-!
# Acknowledged entries are kept

A follower that hears from the leader of one term: appends that carry slices of the leader's log,
and heartbeats, in any order and any number of times. An accepting reply names an index, and up to
it the follower's log agrees with the leader's from then on. The Ready loop stores the entries
before the reply is sent, so the same holds of the store. The one thing asked of the appends is
that `maybeAppend` takes them carefully and does not skip them as committed.
-/

namespace NexusLOB.Raft

open Consensus

/-- A message that the leader of term `t` sent while its log was `leaderLog` or a part of it. -/
def Message.OfLeader (t : Nat) (leaderLog : List Entry) (m : Message) : Prop :=
  m.term = t ∧ (m.type = .msgHeartbeat ∨
    m.type = .msgApp ∧ m.index ≤ leaderLog.length ∧
      m.logTerm = termAt Entry.term leaderLog m.index ∧ m.entries <+: leaderLog.drop m.index)

instance (t : Nat) (leaderLog : List Entry) (m : Message) : Decidable (m.OfLeader t leaderLog) :=
  inferInstanceAs (Decidable (_ ∧ _))

/-- What happens to a follower while it hears only that leader. -/
def Event.OfLeader (t : Nat) (leaderLog : List Entry) : Event → Prop
  | .step m _ => m.OfLeader t leaderLog
  | .restart _ => False
  | _ => True

instance (t : Nat) (leaderLog : List Entry) : (ev : Event) → Decidable (ev.OfLeader t leaderLog)
  | .step m _ => inferInstanceAs (Decidable (m.OfLeader t leaderLog))
  | .restart _ => inferInstanceAs (Decidable False)
  | .tick _ | .propose _ | .readIndex _ | .poll | .persistEntries | .persistHardState | .send
  | .advance => inferInstanceAs (Decidable True)

/-- An accepting reply to an append of term `t`. -/
def Message.Acknowledges (t : Nat) (m : Message) : Prop :=
  m.type = .msgAppResp ∧ m.reject = false ∧ m.term = t

/-- The first `i` entries of the leader's log are the first `i` of `log`. -/
def Holds (leaderLog : List Entry) (i : Nat) (log : List Entry) : Prop :=
  i ≤ leaderLog.length ∧ leaderLog.take i <+: log

instance (leaderLog : List Entry) (i : Nat) (log : List Entry) : Decidable (Holds leaderLog i log) :=
  inferInstanceAs (Decidable (_ ∧ _))

namespace Peer

/-- An append whose entries the log takes over without harm: it is taken carefully, and none of its
entries is skipped because the commit index is already above a conflict. -/
def Takes (leaderLog : List Entry) (p : Peer) : Event → Prop
  | .step m _ => p.ready = none → m.type = .msgApp → p.node.term_ ≤ m.term →
      p.node.log_.term m.index = m.logTerm →
      p.node.log_.Careful leaderLog m.index m.entries ∧
        (p.node.log_.findConflict m.entries ≤ p.node.log_.committed_ →
          p.node.log_.findConflict m.entries = 0)
  | _ => True

instance (leaderLog : List Entry) (p : Peer) : (ev : Event) → Decidable (p.Takes leaderLog ev)
  | .step _ _ => inferInstanceAs (Decidable (_ = none → _ → _ → _ → _))
  | .tick _ | .restart _ | .propose _ | .readIndex _ | .poll | .persistEntries | .persistHardState
  | .send | .advance => inferInstanceAs (Decidable True)

end Peer

/-! ## Calls that leave the log alone -/

/-- `n'` is a node that does not lead, with the log of `n` and no new accepting reply. -/
structure Aside (n n' : RawNode) : Prop where
  role : n'.role_ ≠ .leader
  voters : n'.voters_ = n.voters_
  log : n'.log_ = n.log_
  last : n'.lastReadyLastIndex_ = n.lastReadyLastIndex_
  applied : n'.lastReadyApplied_ = n.lastReadyApplied_
  msgs : ∀ {t m}, m ∈ n'.msgs_ → m.Acknowledges t → m ∈ n.msgs_

section Aside

variable {n n' n'' : RawNode}

theorem Aside.refl (h : n.role_ ≠ .leader) : Aside n n :=
  ⟨h, rfl, rfl, rfl, rfl, fun hm _ => hm⟩

theorem Aside.trans (h : Aside n n') (h' : Aside n' n'') : Aside n n'' where
  role := h'.role
  voters := h'.voters.trans h.voters
  log := h'.log.trans h.log
  last := h'.last.trans h.last
  applied := h'.applied.trans h.applied
  msgs := fun hm ha => h.msgs (h'.msgs hm ha) ha

theorem Aside.send (h : n.role_ ≠ .leader) {m : Message}
    (hm : m.type = .msgAppResp → m.reject = true) : Aside n (n.send m) := by
  refine ⟨h, rfl, rfl, rfl, rfl, ?_⟩
  intro t m' hmem ha
  rcases List.mem_append.mp hmem with hold | hnew
  · exact hold
  · obtain rfl := List.mem_singleton.mp hnew
    have := ha.2.1.symm.trans (hm ha.1)
    exact absurd this (by decide)

theorem aside_becomeFollower (n : RawNode) (t : Nat) (lead : NodeId) (draw : Nat) :
    Aside n (n.becomeFollower t lead draw) :=
  ⟨nofun, rfl, rfl, rfl, rfl, fun hm _ => hm⟩

/-- In a cluster of at least two, a campaign does not win by itself. -/
theorem aside_campaign (h : 1 < n.voters_.length) (draw : Nat) : Aside n (n.campaign draw) := by
  have hq : n.quorum ≠ 1 := by
    change n.voters_.length / 2 + 1 ≠ 1
    omega
  rw [campaign_eq hq]
  refine ⟨nofun, rfl, rfl, rfl, rfl, fun hm ha => ?_⟩
  rcases List.mem_append.mp hm with hold | hnew
  · exact hold
  · obtain ⟨v, -, rfl⟩ := List.mem_map.mp hnew
    cases ha.1

theorem aside_tick (hr : n.role_ ≠ .leader) (h : 1 < n.voters_.length) (draw : Nat) :
    Aside n (n.tick draw).2 := by
  have hcount : Aside n { n with tickCount_ := n.tickCount_ + 1 } :=
    ⟨hr, rfl, rfl, rfl, rfl, fun hm _ => hm⟩
  unfold RawNode.tick
  rw [if_neg hr]
  unfold RawNode.tickElection
  dsimp only
  split_ifs
  · have hc := aside_campaign (n := { n with tickCount_ := n.tickCount_ + 1 }) h draw
    exact hcount.trans (hc.trans ⟨hc.role, rfl, rfl, rfl, rfl, fun hm _ => hm⟩)
  · exact hcount

theorem propose_of_not_leader (hr : n.role_ ≠ .leader) (data : Bytes) :
    n.propose data = (false, n) := if_pos hr

theorem readIndex_of_not_leader (hr : n.role_ ≠ .leader) (ctx : Bytes) :
    n.readIndex ctx = (false, n) := if_pos hr

/-- A message of a leader is refused as stale, or a follower of its term handles it. -/
theorem step_ofLeader {t : Nat} {leaderLog : List Entry} {m : Message}
    (hm : m.OfLeader t leaderLog) (hr : n.role_ ≠ .leader) (draw : Nat) :
    Aside n (n.step m draw) ∨ n.term_ ≤ t ∧ ∃ n₁, Aside n n₁ ∧ n₁.term_ = t ∧
      n.step m draw = n₁.stepFollower m draw := by
  obtain ⟨rfl, hty⟩ := hm
  have hty : m.type = .msgHeartbeat ∨ m.type = .msgApp := hty.imp_right And.left
  have hstep : n.step m draw =
      if m.term < (n.raiseTerm m draw).term_ then (n.raiseTerm m draw).rejectStale m
      else (n.raiseTerm m draw).dispatch m draw := by
    rcases hty with h | h <;> simp only [RawNode.step, h]
  rw [hstep]
  rcases Nat.lt_trichotomy m.term n.term_ with hlt | heq | hgt
  · have hraise : n.raiseTerm m draw = n := if_neg (by omega)
    rw [hraise, if_pos hlt]
    left
    rcases hty with h | h
    · simp only [RawNode.rejectStale, h]
      exact .send hr fun _ => rfl
    · simp only [RawNode.rejectStale, h]
      exact .send hr fun _ => rfl
  · have hraise : n.raiseTerm m draw = n := if_neg (by omega)
    rw [hraise, if_neg (by omega)]
    refine Or.inr ⟨heq.ge, ?_⟩
    unfold RawNode.dispatch
    -- a candidate first becomes a follower of the same term
    have hcand : n.stepCandidate m draw =
        (n.becomeFollower m.term m.sender draw).stepFollower m draw := by
      rcases hty with h | h <;> simp only [RawNode.stepCandidate, h, if_pos heq]
    cases hrole : n.role_ with
    | leader => exact absurd hrole hr
    | candidate => exact ⟨_, aside_becomeFollower n _ _ _, rfl, hcand⟩
    | preCandidate => exact ⟨_, aside_becomeFollower n _ _ _, rfl, hcand⟩
    | follower => exact ⟨n, .refl hr, heq.symm, rfl⟩
  · have hpre : m.type ≠ .msgPreVote ∧ m.type ≠ .msgPreVoteResp := by
      rcases hty with h | h <;> rw [h] <;> decide
    have hraise : n.raiseTerm m draw = n.becomeFollower m.term 0 draw := if_pos ⟨hgt, hpre⟩
    have hself : ¬ m.term < (n.becomeFollower m.term 0 draw).term_ := Nat.lt_irrefl m.term
    rw [hraise, if_neg hself]
    exact Or.inr ⟨hgt.le, _, aside_becomeFollower n _ _ _, rfl, rfl⟩

end Aside

/-! ## A follower and its leader's log -/

/-- A follower of the leader of term `t`: its logs match the leader's, and every accepting reply
that is queued, or carried by the `Ready` under way, is backed by the log, and once the entries of
that `Ready` are written also by the store. -/
structure Following (t : Nat) (leaderLog : List Entry) (p : Peer) : Prop where
  role : p.node.role_ ≠ .leader
  voters : 1 < p.node.voters_.length
  wf : p.node.log_.WF
  logical : Matches Entry.term p.node.log_.logical leaderLog
  stored : Matches Entry.term p.node.log_.storage_.stored leaderLog
  idle : p.ready = none → p.node.lastReadyLastIndex_ = 0 ∧ p.node.lastReadyApplied_ = 0
  pending : ∀ {stage rd}, p.ready = some (stage, rd) →
    Pending p.node stage rd ∧ rd.entries = p.node.log_.unstable_.entries_
  queued : ∀ {m}, m ∈ p.node.msgs_ → m.Acknowledges t →
    Holds leaderLog m.index p.node.log_.logical
  carried : ∀ {stage rd m}, p.ready = some (stage, rd) → m ∈ rd.messages → m.Acknowledges t →
    Holds leaderLog m.index p.node.log_.logical ∧
      (stage ≠ .persistEntries → Holds leaderLog m.index p.storage.stored)

/-- What is held at `p` is held at `p'`. -/
structure Keeps (leaderLog : List Entry) (p p' : Peer) : Prop where
  logical : ∀ {i}, Holds leaderLog i p.node.log_.logical → Holds leaderLog i p'.node.log_.logical
  stored : ∀ {i}, Holds leaderLog i p.node.log_.logical → Holds leaderLog i p.storage.stored →
    Holds leaderLog i p'.storage.stored

section Following

variable {t : Nat} {leaderLog : List Entry} {p p' : Peer}

theorem Keeps.refl (leaderLog : List Entry) (p : Peer) : Keeps leaderLog p p := ⟨id, fun _ => id⟩

theorem Keeps.trans {p'' : Peer} (h : Keeps leaderLog p p') (h' : Keeps leaderLog p' p'') :
    Keeps leaderLog p p'' :=
  ⟨fun hi => h'.logical (h.logical hi), fun hi hs => h'.stored (h.logical hi) (h.stored hi hs)⟩

/-- A call that leaves the log alone. -/
theorem Following.aside (h : Following t leaderLog p) {n' : RawNode} (ha : Aside p.node n') :
    Following t leaderLog { p with node := n' } ∧ Keeps leaderLog p { p with node := n' } := by
  obtain ⟨hrole, hvoters, hlog, hlast, happ, hmsgs⟩ := ha
  refine ⟨⟨hrole, hvoters ▸ h.voters, hlog ▸ h.wf, hlog ▸ h.logical, hlog ▸ h.stored, ?_, ?_, ?_, ?_⟩,
    ?_, ?_⟩
  · intro hready
    exact ⟨hlast.trans (h.idle hready).1, happ.trans (h.idle hready).2⟩
  · intro stage rd hready
    obtain ⟨hp, he⟩ := h.pending hready
    exact ⟨hp.of_eq hlog hlast happ, hlog ▸ he⟩
  · intro m hm ha
    exact hlog ▸ h.queued (hmsgs hm ha) ha
  · intro stage rd m hready hm ha
    have hc := h.carried hready hm ha
    unfold Peer.storage at hc ⊢
    rw [show ({ p with node := n' } : Peer).node.log_ = p.node.log_ from hlog]
    exact hc
  · intro i hi
    exact hlog ▸ hi
  · intro i _ hi
    unfold Peer.storage at hi ⊢
    rw [show ({ p with node := n' } : Peer).node.log_ = p.node.log_ from hlog]
    exact hi

/-- A message that gives the log a new end, or moves the commit index. -/
theorem Following.relog (h : Following t leaderLog p) (hready : p.ready = none) {n' : RawNode}
    (hrole : n'.role_ ≠ .leader) (hvoters : n'.voters_ = p.node.voters_)
    (hlast : n'.lastReadyLastIndex_ = p.node.lastReadyLastIndex_)
    (happ : n'.lastReadyApplied_ = p.node.lastReadyApplied_) (hwf : n'.log_.WF)
    (hst : n'.log_.storage_ = p.node.log_.storage_)
    (hmatch : Matches Entry.term n'.log_.logical leaderLog)
    (hkeep : ∀ {i}, Holds leaderLog i p.node.log_.logical → Holds leaderLog i n'.log_.logical)
    (hmsgs : ∀ {m}, m ∈ n'.msgs_ → m.Acknowledges t →
      m ∈ p.node.msgs_ ∨ Holds leaderLog m.index n'.log_.logical) :
    Following t leaderLog { p with node := n' } ∧ Keeps leaderLog p { p with node := n' } := by
  refine ⟨⟨hrole, hvoters ▸ h.voters, hwf, hmatch, ?_, ?_, ?_, ?_, ?_⟩, hkeep, ?_⟩
  · rw [show ({ p with node := n' } : Peer).node.log_.storage_ = _ from hst]
    exact h.stored
  · intro _
    exact ⟨hlast.trans (h.idle hready).1, happ.trans (h.idle hready).2⟩
  · intro stage rd hrd
    exact absurd (hready.symm.trans hrd) (by simp)
  · intro m hm ha
    rcases hmsgs hm ha with hold | hheld
    · exact hkeep (h.queued hold ha)
    · exact hheld
  · intro stage rd m hrd
    exact absurd (hready.symm.trans hrd) (by simp)
  · intro i _ hi
    unfold Peer.storage at hi ⊢
    rw [show ({ p with node := n' } : Peer).node.log_.storage_ = _ from hst]
    exact hi

theorem Following.heartbeat (h : Following t leaderLog p) (hready : p.ready = none) (m : Message) :
    Following t leaderLog { p with node := p.node.stepFollowerHeartbeat m } ∧
      Keeps leaderLog p { p with node := p.node.stepFollowerHeartbeat m } := by
  have hto : (p.node.log_.commitTo m.commit).storage_ = p.node.log_.storage_ ∧
      (p.node.log_.commitTo m.commit).unstable_ = p.node.log_.unstable_ := by
    unfold RaftLog.commitTo
    split_ifs <;> exact ⟨rfl, rfl⟩
  obtain ⟨hwf, hlog⟩ := h.wf.of_logical_eq (p.node.log_.commitTo m.commit) hto.1 hto.2
  rw [stepFollowerHeartbeat_eq]
  refine h.relog hready h.role rfl rfl rfl hwf hto.1 ?_ ?_ ?_
  · change Matches Entry.term (p.node.log_.commitTo m.commit).logical leaderLog
    rw [hlog]
    exact h.logical
  · intro i hi
    change Holds leaderLog i (p.node.log_.commitTo m.commit).logical
    rwa [hlog]
  · intro m' hm' ha
    rcases List.mem_append.mp hm' with hold | hnew
    · exact Or.inl hold
    · obtain rfl := List.mem_singleton.mp hnew
      exact nomatch ha.1

theorem Following.append (h : Following t leaderLog p) (hready : p.ready = none)
    (hidx : Indexed leaderLog) {m : Message} (hm : m.OfLeader t leaderLog)
    (hty : m.type = .msgApp)
    (htake : p.node.log_.term m.index = m.logTerm →
      p.node.log_.Careful leaderLog m.index m.entries ∧
        (p.node.log_.findConflict m.entries ≤ p.node.log_.committed_ →
          p.node.log_.findConflict m.entries = 0)) :
    Following t leaderLog { p with node := p.node.stepFollowerApp m } ∧
      Keeps leaderLog p { p with node := p.node.stepFollowerApp m } := by
  obtain ⟨-, hslice⟩ := hm
  obtain ⟨-, hprev, hpt, hents⟩ := hslice.resolve_left (by rw [hty]; decide)
  rw [stepFollowerApp_eq]
  by_cases hmatch : p.node.log_.term m.index = m.logTerm
  · obtain ⟨hcare, hskip⟩ := htake hmatch
    have hacc : p.node.log_.Accepts leaderLog m.index m.entries :=
      ⟨h.wf, hidx, h.logical, h.stored, hprev, hents, hmatch.trans hpt⟩
    rw [RaftLog.maybeAppend_of_eq hmatch]
    have hwf := (h.wf.reconcile hacc.continues hacc.prev_pos).1
    obtain ⟨hwf', hlog⟩ := hwf.of_logical_eq { p.node.log_.reconcile m.index m.entries with
      committed_ := if m.commit > p.node.log_.committed_ then
        min m.commit (m.index + m.entries.length) else p.node.log_.committed_ } rfl rfl
    have hkeep : ∀ {i}, Holds leaderLog i p.node.log_.logical →
        Holds leaderLog i (p.node.log_.reconcile m.index m.entries).logical :=
      fun hi => ⟨hi.1, hacc.keeps hcare hi.2 (List.take_prefix _ _)⟩
    have hnew : Holds leaderLog (m.index + m.entries.length)
        (p.node.log_.reconcile m.index m.entries).logical := by
      refine ⟨hacc.last_le, ?_⟩
      rcases hacc.holds hcare with hheld | ⟨j, e, he, hne, hle⟩
      · exact hheld
      · obtain ⟨hne0, hfle⟩ := RaftLog.findConflict_le hacc.continues he hne
        exact absurd (hskip (hfle.trans hle)) hne0
    have hsource : Matches Entry.term (p.node.log_.reconcile m.index m.entries).logical
        leaderLog := by
      rcases hacc.source with hp | hp | hp
      · exact h.logical.of_isPrefix hp
      · rw [hp]
        exact h.stored
      · rw [hp]
        exact matches_take _ _ _
    rw [← hlog] at hkeep hnew hsource
    refine h.relog hready h.role rfl rfl rfl hwf' RaftLog.reconcile_storage hsource hkeep ?_
    intro m' hm' ha
    rcases List.mem_append.mp hm' with hold | hin
    · exact Or.inl hold
    · obtain rfl := List.mem_singleton.mp hin
      exact Or.inr hnew
  · rw [RaftLog.maybeAppend_of_ne hmatch]
    have ha : Aside p.node { p.node with lead_ := m.sender, tickCount_ := 0 } :=
      ⟨h.role, rfl, rfl, rfl, rfl, fun hm _ => hm⟩
    exact h.aside (ha.trans (.send ha.role fun _ => rfl))

theorem Following.step (h : Following t leaderLog p) (hready : p.ready = none)
    (hidx : Indexed leaderLog) {m : Message} (hm : m.OfLeader t leaderLog) (draw : Nat)
    (htake : p.Takes leaderLog (.step m draw)) :
    Following t leaderLog { p with node := p.node.step m draw } ∧
      Keeps leaderLog p { p with node := p.node.step m draw } := by
  rcases step_ofLeader hm h.role draw with ha | ⟨hle, n₁, ha, hterm, heq⟩
  · exact h.aside ha
  · obtain ⟨h₁, hk₁⟩ := h.aside ha
    rw [heq]
    rcases hm.2 with hty | ⟨hty, -⟩
    · have hfol : n₁.stepFollower m draw = n₁.stepFollowerHeartbeat m := by
        simp only [RawNode.stepFollower, hty]
      rw [hfol]
      obtain ⟨h₂, hk₂⟩ := h₁.heartbeat hready m
      exact ⟨h₂, hk₁.trans hk₂⟩
    · have hfol : n₁.stepFollower m draw = n₁.stepFollowerApp m := by
        simp only [RawNode.stepFollower, hty]
      rw [hfol]
      obtain ⟨h₂, hk₂⟩ := h₁.append hready hidx hm hty (by
        rw [show ({ p with node := n₁ } : Peer).node.log_ = p.node.log_ from ha.log]
        exact htake hready hty (hm.1 ▸ hle))
      exact ⟨h₂, hk₁.trans hk₂⟩

theorem Following.poll (h : Following t leaderLog p) (hready : p.ready = none)
    (delivered : List Entry) :
    Following t leaderLog { p with
      node := p.node.poll.2, ready := some (.persistEntries, p.node.poll.1),
      delivered := delivered } where
  role := h.role
  voters := h.voters
  wf := h.wf
  logical := h.logical
  stored := h.stored
  idle := nofun
  pending := by
    intro stage rd hrd
    cases hrd
    exact ⟨pending_poll h.wf (h.idle hready).1 (h.idle hready).2, rfl⟩
  queued := nofun
  carried := by
    intro stage rd m hrd hm ha
    cases hrd
    exact ⟨h.queued hm ha, fun hst => absurd rfl hst⟩

/-- The store takes over the whole log: a follower has no entries beyond those of its `Ready`. -/
theorem Following.stores (h : Following t leaderLog p) {rd : Ready}
    (hready : p.ready = some (.persistEntries, rd)) :
    ∃ l' : RaftLog,
      l' = { p.node.log_ with storage_ := p.node.log_.storage_.appendNoSync rd.entries } ∧ l'.WF ∧
      l'.logical = p.node.log_.logical ∧ l'.storage_.stored = p.node.log_.logical ∧
      Pending { p.node with log_ := l' } .persistHardState rd := by
  obtain ⟨hpend, hents⟩ := h.pending hready
  rcases hpend.persistEntries h.wf with ⟨hnil, hp⟩ | ⟨l', hl, hwf, hlog, hst, hp⟩
  · have hstored := RaftLog.logical_of_nil (hents.symm.trans hnil)
    refine ⟨p.node.log_, ?_, h.wf, rfl, hstored.symm, hp⟩
    rw [hnil]
    rfl
  · refine ⟨l', hl, hwf, hlog, ?_, hp⟩
    by_cases hne : p.node.log_.unstable_.entries_ = []
    · rw [hents, hne] at hl
      rw [hl, RaftLog.logical_of_nil hne]
      rfl
    · rw [hst, hents, ← h.wf.length_logical hne, List.take_length]

theorem Following.persistEntries (h : Following t leaderLog p) {rd : Ready}
    (hready : p.ready = some (.persistEntries, rd)) :
    Following t leaderLog { p.store (fun w => w.appendNoSync rd.entries) with
        ready := some (.persistHardState, rd) } ∧
      Keeps leaderLog p { p.store (fun w => w.appendNoSync rd.entries) with
        ready := some (.persistHardState, rd) } := by
  obtain ⟨l', hl, hwf, hlog, hst, hp⟩ := h.stores hready
  unfold Peer.store
  rw [← hl]
  refine ⟨⟨h.role, h.voters, hwf, hlog ▸ h.logical, hst ▸ h.logical, nofun, ?_, ?_, ?_⟩, ?_, ?_⟩
  · rintro stage rd' ⟨⟩
    refine ⟨hp, (h.pending hready).2.trans ?_⟩
    rw [hl]
  · intro m hm ha
    exact hlog ▸ h.queued hm ha
  · rintro stage rd' m ⟨⟩ hm ha
    have hheld := (h.carried hready hm ha).1
    exact ⟨hlog ▸ hheld, fun _ => hst ▸ hheld⟩
  · intro i hi
    exact hlog ▸ hi
  · intro i hi _
    exact hst ▸ hi

/-- The later stages of a `Ready`: the log is the same, whatever else the store takes down. -/
theorem Following.proceed (h : Following t leaderLog p) {stage : Stage} {rd : Ready}
    (hready : p.ready = some (stage, rd)) (hst : stage ≠ .persistEntries) (stage' : Stage)
    {l' : RaftLog} (hwf : l'.WF) (hun : l'.unstable_ = p.node.log_.unstable_)
    (hlog : l'.logical = p.node.log_.logical)
    (hstored : l'.storage_.stored = p.node.log_.storage_.stored)
    (hpend : Pending { p.node with log_ := l' } stage' rd) :
    Following t leaderLog { p with
        node := { p.node with log_ := l' }, ready := some (stage', rd) } ∧
      Keeps leaderLog p { p with
        node := { p.node with log_ := l' }, ready := some (stage', rd) } := by
  refine ⟨⟨h.role, h.voters, hwf, hlog ▸ h.logical, hstored ▸ h.stored, nofun, ?_, ?_, ?_⟩, ?_, ?_⟩
  · rintro stage rd' ⟨⟩
    exact ⟨hpend, (h.pending hready).2.trans (congrArg _ hun.symm)⟩
  · intro m hm ha
    exact hlog ▸ h.queued hm ha
  · rintro stage rd' m ⟨⟩ hm ha
    obtain ⟨hheld, hsto⟩ := h.carried hready hm ha
    refine ⟨hlog ▸ hheld, fun _ => ?_⟩
    exact (show l'.storage_.stored = p.storage.stored from hstored) ▸ hsto hst
  · intro i hi
    exact hlog ▸ hi
  · intro i _ hi
    exact (show l'.storage_.stored = p.storage.stored from hstored) ▸ hi

theorem Following.persistHardState (h : Following t leaderLog p) {rd : Ready}
    (hready : p.ready = some (.persistHardState, rd)) :
    Following t leaderLog { p.saveHardState rd.hardState with ready := some (.send, rd) } ∧
      Keeps leaderLog p { p.saveHardState rd.hardState with ready := some (.send, rd) } := by
  have hp := (h.pending hready).1
  unfold Peer.saveHardState
  split_ifs
  · exact h.proceed hready nofun .send (h.wf.saveHardState rd.hardState) rfl rfl rfl
      { hp with stored := fun _ => hp.stored nofun }
  · exact h.proceed hready nofun .send h.wf rfl rfl rfl { hp with stored := fun _ => hp.stored nofun }

theorem Following.send (h : Following t leaderLog p) {rd : Ready}
    (hready : p.ready = some (.send, rd)) :
    Following t leaderLog { p with ready := some (.advance, rd) } ∧
      Keeps leaderLog p { p with ready := some (.advance, rd) } := by
  have hp := (h.pending hready).1
  exact h.proceed hready nofun .advance h.wf rfl rfl rfl { hp with stored := fun _ => hp.stored nofun }

theorem Following.advance (h : Following t leaderLog p) {rd : Ready}
    (hready : p.ready = some (.advance, rd)) :
    Following t leaderLog { p with node := p.node.advance, ready := none } ∧
      Keeps leaderLog p { p with node := p.node.advance, ready := none } := by
  obtain ⟨l', hwf, hlog, hsto, -, -, heq⟩ := (h.pending hready).1.advance h.wf nofun
  rw [heq]
  refine ⟨⟨h.role, h.voters, hwf, hlog ▸ h.logical, hsto ▸ h.stored, fun _ => ⟨rfl, rfl⟩, nofun,
    ?_, nofun⟩, ?_, ?_⟩
  · intro m hm ha
    exact hlog ▸ h.queued hm ha
  · intro i hi
    exact hlog ▸ hi
  · intro i _ hi
    change Holds leaderLog i l'.storage_.stored
    rw [hsto]
    exact hi

/-- One event. -/
theorem Following.handle (h : Following t leaderLog p) (hidx : Indexed leaderLog) {ev : Event}
    (hev : ev.OfLeader t leaderLog) (htake : p.Takes leaderLog ev) :
    Following t leaderLog (p.handle ev).1 ∧ Keeps leaderLog p (p.handle ev).1 := by
  have hstay : Following t leaderLog p ∧ Keeps leaderLog p p := ⟨h, .refl _ p⟩
  have hmove := p.handle_move ev
  generalize p.handle ev = q at hmove ⊢
  cases hmove with
  | tick draw => exact h.aside (aside_tick h.role h.voters draw)
  | step m draw hready => exact h.step hready hidx hev draw htake
  | propose data =>
    rw [propose_of_not_leader h.role]
    exact hstay
  | readIndex ctx =>
    rw [readIndex_of_not_leader h.role]
    exact hstay
  | poll hready => exact ⟨h.poll hready _, id, fun _ => id⟩
  | persistEntries rd hready => exact h.persistEntries hready
  | persistHardState rd hready => exact h.persistHardState hready
  | send rd hready => exact h.send hready
  | advance rd hready => exact h.advance hready
  | restart => exact hev.elim
  | stay => exact hstay

theorem Following.run (h : Following t leaderLog p) (hidx : Indexed leaderLog) {evs : List Event}
    (hevs : ∀ ev ∈ evs, ev.OfLeader t leaderLog) (htake : p.Along (Peer.Takes leaderLog) evs) :
    Following t leaderLog (p.exec evs) ∧ Keeps leaderLog p (p.exec evs) := by
  have halong := htake.and (Peer.along_of_forall (P := fun _ ev => ev.OfLeader t leaderLog)
    fun ev hev _ => hevs ev hev)
  refine halong.preserves (I := fun p' => Following t leaderLog p' ∧ Keeps leaderLog p p') ?_
    ⟨h, .refl _ p⟩
  intro p' ev hI hev
  obtain ⟨h', hk'⟩ := hI.1.handle hidx hev.2 hev.1
  exact ⟨h', hI.2.trans hk'⟩

end Following

/-- A follower before it has replied to the leader of term `t`: the loop is between two polls, and
its log and its store match the leader's log. -/
structure Unheard (t : Nat) (leaderLog : List Entry) (p : Peer) : Prop where
  ready : p.ready = none
  last : p.node.lastReadyLastIndex_ = 0
  applied : p.node.lastReadyApplied_ = 0
  role : p.node.role_ = .follower
  voters : 1 < p.node.voters_.length
  wf : p.node.log_.WF
  logical : Matches Entry.term p.node.log_.logical leaderLog
  stored : Matches Entry.term p.node.log_.storage_.stored leaderLog
  msgs : ∀ {m}, m ∈ p.node.msgs_ → ¬ m.Acknowledges t

theorem Unheard.following {t : Nat} {leaderLog : List Entry} {p : Peer}
    (h : Unheard t leaderLog p) : Following t leaderLog p where
  role := by
    rw [h.role]
    decide
  voters := h.voters
  wf := h.wf
  logical := h.logical
  stored := h.stored
  idle := fun _ => ⟨h.last, h.applied⟩
  pending := fun hrd => absurd (h.ready.symm.trans hrd) nofun
  queued := fun hm ha => absurd ha (h.msgs hm)
  carried := fun hrd => absurd (h.ready.symm.trans hrd) nofun

/-- **Acknowledged entries are kept.** Whenever the follower has queued an accepting reply, its log
agrees with the leader's up to the reply's index in all that follows; and whenever a `Ready` whose
entries are written carries the reply, so does its store. -/
theorem acknowledged_kept {t : Nat} {leaderLog : List Entry} {p : Peer}
    (hp : Unheard t leaderLog p) (hidx : Indexed leaderLog) (evs more : List Event)
    (hevs : ∀ ev ∈ evs ++ more, ev.OfLeader t leaderLog)
    (htake : p.Along (Peer.Takes leaderLog) (evs ++ more)) {m : Message} (hm : m.Acknowledges t) :
    (m ∈ (p.exec evs).node.msgs_ →
        Holds leaderLog m.index (p.exec (evs ++ more)).node.log_.logical) ∧
      ∀ {stage rd}, (p.exec evs).ready = some (stage, rd) → m ∈ rd.messages →
        stage ≠ .persistEntries → Holds leaderLog m.index (p.exec (evs ++ more)).storage.stored := by
  obtain ⟨htake₁, htake₂⟩ := Peer.along_append.mp htake
  have hevs₁ : ∀ ev ∈ evs, ev.OfLeader t leaderLog :=
    fun ev hev => hevs ev (List.mem_append_left _ hev)
  have hevs₂ : ∀ ev ∈ more, ev.OfLeader t leaderLog :=
    fun ev hev => hevs ev (List.mem_append_right _ hev)
  obtain ⟨h, -⟩ := hp.following.run hidx hevs₁ htake₁
  obtain ⟨-, hkeep⟩ := h.run hidx hevs₂ htake₂
  rw [Peer.exec_append]
  refine ⟨fun hq => hkeep.logical (h.queued hq hm), ?_⟩
  intro stage rd hrd hc hst
  obtain ⟨hheld, hsto⟩ := h.carried hrd hc hm
  exact hkeep.stored hheld (hsto hst)

/-! ## A late append -/

/-- Node 2 of three, on an empty store. -/
def newcomer : Peer :=
  .start { id := 2, electionTick := 1, peers := [1, 2, 3] } (WriteAheadLog.fresh {}) 1

def twoEntries : List Entry :=
  [{ term := 1, index := 1, data := [7] }, { term := 1, index := 2, data := [8] }]

/-- Node 1 sends the first `k` of its two entries. -/
def firstEntries (k : Nat) : Message :=
  { type := .msgApp, receiver := 2, sender := 1, term := 1, entries := twoEntries.take k }

theorem newcomer_unheard : Unheard 1 twoEntries newcomer where
  ready := rfl
  last := rfl
  applied := rfl
  role := rfl
  voters := by decide
  wf := (RaftLog.wf_new (w := WriteAheadLog.fresh {}) nofun rfl indexed_nil).1
  logical := matches_take Entry.term twoEntries 0
  stored := matches_take Entry.term twoEntries 0
  msgs := nofun

theorem indexed_twoEntries : Indexed twoEntries := by
  intro i e he
  match i with
  | 0 => cases he; decide
  | 1 => cases he; decide
  | i + 2 => cases he

/-- The reply to an append of two entries. -/
def secondReply : Message :=
  { type := .msgAppResp, receiver := 1, sender := 2, term := 1, index := 2 }

theorem acknowledged_kept_newcomer :
    secondReply ∈ (newcomer.exec [.step (firstEntries 1) 1, .step (firstEntries 2) 1]).node.msgs_ ∧
      Holds twoEntries 2 (newcomer.exec ([.step (firstEntries 1) 1, .step (firstEntries 2) 1] ++
        [.poll])).node.log_.logical :=
  have hin : secondReply ∈
      (newcomer.exec [.step (firstEntries 1) 1, .step (firstEntries 2) 1]).node.msgs_ := by
    decide +kernel
  ⟨hin, (acknowledged_kept newcomer_unheard indexed_twoEntries _ [.poll] (by decide +kernel)
    (by decide +kernel) ⟨rfl, rfl, rfl⟩).1 hin⟩

/-- The append of one entry arrives after the append of two and takes the second entry away, which
the reply of the same `Ready` acknowledges. -/
theorem late_append_drops_acknowledged :
    let evs := [.step (firstEntries 2) 1, .step (firstEntries 1) 1]
    let p := newcomer.exec (evs ++ [.poll, .persistEntries])
    (∀ ev ∈ evs ++ [.poll, .persistEntries], ev.OfLeader 1 twoEntries) ∧
      secondReply ∈ (newcomer.exec evs).node.msgs_ ∧ p.node.term_ = 1 ∧
      p.ready.map (fun r => (r.1, r.2.messages.contains secondReply)) =
        some (.persistHardState, true) ∧
      p.node.log_.logical = twoEntries.take 1 ∧ p.storage.stored = twoEntries.take 1 := by
  decide +kernel

end NexusLOB.Raft
