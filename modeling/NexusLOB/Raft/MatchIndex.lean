import NexusLOB.Raft.Driver
import NexusLOB.Raft.Leadership

/-!
# Match indexes during a leadership

What a leader knows its peers to hold. Accepts raise it, and rejects and `MsgUnreachable` leave it
alone. A successful `MsgSnapStatus` takes it from the pending snapshot index after `becomeProbe` has
cleared that index: the peer that has just caught up counts as holding nothing.
-/

namespace NexusLOB.Raft

open Collections

/-- The event belongs to the leadership: the node still leads its term after it. -/
def Peer.InOffice (p : Peer) (ev : Event) : Prop :=
  (p.handle ev).1.node.role_ = .leader ∧ (p.handle ev).1.node.term_ = p.node.term_

instance (p : Peer) (ev : Event) : Decidable (p.InOffice ev) := inferInstanceAs (Decidable (_ ∧ _))

/-- The step of a message that reports a snapshot as installed. -/
def Message.snapDone (m : Message) : Prop := m.type = .msgSnapStatus ∧ m.reject = false

instance (m : Message) : Decidable m.snapDone := inferInstanceAs (Decidable (_ ∧ _))

/-- No match index of another peer goes down from `n` to `n'`, and if `m` reports a snapshot as
installed, its sender has at least that snapshot. -/
def RawNode.MatchGrows (n : RawNode) (m : Option Message) (n' : RawNode) : Prop :=
  ∀ v ≠ n.id_, ∀ q q', n.pr_.find? v = some q → n'.pr_.find? v = some q' →
    q.matchIndex ≤ q'.matchIndex ∧
      (∀ m' ∈ m, m'.snapDone → m'.sender = v → q.state = .snapshot →
        q.pendingSnapshotIndex ≤ q'.matchIndex)

/-- The message that an event steps. -/
def Peer.stepped (p : Peer) : Event → Option Message
  | .step m _ => if p.ready.isNone then some m else none
  | .tick _ | .propose _ | .readIndex _ | .poll | .persistEntries | .persistHardState | .send
  | .advance | .restart _ => none

def Peer.MatchGrows (p : Peer) (ev : Event) : Prop :=
  p.node.MatchGrows (p.stepped ev) (p.handle ev).1.node

/-- A peer of which a report that its snapshot is installed takes nothing away. -/
def Progress.Unharmed (q : Progress) : Prop :=
  if q.state = .snapshot then q.matchIndex = 0 ∧ q.pendingSnapshotIndex = 0
  else q.matchIndex ≤ q.pendingSnapshotIndex

instance (q : Progress) : Decidable q.Unharmed := inferInstanceAs (Decidable (ite _ _ _))

/-- No peer is harmed by a report that its snapshot is installed. -/
def Peer.SparesMatch (p : Peer) (ev : Event) : Prop :=
  ∀ m ∈ p.stepped ev, m.snapDone → m.sender ≠ p.node.id_ →
    ∀ q ∈ p.node.pr_.find? m.sender, q.Unharmed

instance (p : Peer) (ev : Event) : Decidable (p.SparesMatch ev) :=
  inferInstanceAs (Decidable (∀ m ∈ p.stepped ev, _ → _ → ∀ q ∈ p.node.pr_.find? m.sender, _))

section Served

variable {n n' : RawNode} {m : Message}

/-- A peer's match index after any other message is not below the one before. -/
theorem hear_matchIndex (hno : ¬ m.snapDone) (q : Progress) :
    q.matchIndex ≤ (q.hear m).matchIndex := by
  unfold Progress.hear
  split
  · unfold RawNode.rejectProgress Progress.maybeDecrFromRejectHint Progress.becomeProbe
    dsimp only
    split_ifs <;> exact Nat.le_refl _
  · unfold RawNode.acceptProgress Progress.update Progress.becomeReplicate
    dsimp only
    split_ifs <;> exact Nat.le_max_left _ _
  · rename_i hty hrej
    exact absurd ⟨hty, hrej⟩ hno
  · exact Nat.le_refl _

/-- After the report of an installed snapshot it is the index that `becomeProbe` left pending. -/
theorem hear_snapDone (h : m.snapDone) (q : Progress) :
    (q.hear m).matchIndex = if q.state = .snapshot then 0 else q.pendingSnapshotIndex := by
  unfold Progress.hear
  rw [h.1, h.2]
  rfl

/-- One message. -/
theorem Served.matchGrows_iff (h : Served n m n') :
    n.MatchGrows (some m) n' ↔
      (m.snapDone → m.sender ≠ n.id_ → ∀ q ∈ n.pr_.find? m.sender, q.Unharmed) := by
  constructor
  · intro hgrow hdone hsender q hq
    obtain ⟨q', hq'⟩ := (h.find hsender).mpr ⟨q, hq⟩
    have hears : n.Hears m := ⟨contains_of_find hq, Or.inr (Or.inr hdone.1)⟩
    have hsent := h.sent hsender hq hq'
    rw [if_pos ⟨rfl, hears⟩] at hsent
    obtain ⟨hle, hsnap⟩ := hgrow m.sender hsender q q' hq hq'
    have hmatch := hsent.matchIndex
    rw [hear_snapDone hdone] at hmatch
    unfold Progress.Unharmed
    by_cases hs : q.state = .snapshot
    · have hpend := hsnap m rfl hdone rfl hs
      rw [if_pos hs] at hmatch ⊢
      omega
    · rw [if_neg hs] at hmatch ⊢
      omega
  · intro hcond v hv q q' hq hq'
    have hsent := h.sent hv hq hq'
    by_cases hheard : v = m.sender ∧ n.Hears m
    · rw [if_pos hheard] at hsent
      obtain ⟨rfl, hears⟩ := hheard
      by_cases hdone : m.snapDone
      · have hun := hcond hdone hv q hq
        have hmatch := hsent.matchIndex
        rw [hear_snapDone hdone] at hmatch
        unfold Progress.Unharmed at hun
        by_cases hs : q.state = .snapshot
        · rw [if_pos hs] at hun hmatch
          exact ⟨by omega, fun m' hm' _ _ _ => by omega⟩
        · rw [if_neg hs] at hun hmatch
          exact ⟨by omega, fun m' hm' _ _ hs' => absurd hs' hs⟩
      · refine ⟨?_, ?_⟩
        · rw [hsent.matchIndex]
          exact hear_matchIndex hdone q
        · rintro m' ⟨⟩ hdone'
          exact absurd hdone' hdone
    · rw [if_neg hheard] at hsent
      refine ⟨hsent.matchIndex.ge, ?_⟩
      rintro m' ⟨⟩ hdone rfl
      exact absurd ⟨rfl, contains_of_find hq, Or.inr (Or.inr hdone.1)⟩ hheard

/-- Calls that hear nothing. -/
theorem matchGrows_of_find (h : ∀ v ≠ n.id_, ∀ q q', n.pr_.find? v = some q →
    n'.pr_.find? v = some q' → q'.matchIndex = q.matchIndex) : n.MatchGrows none n' := by
  intro v hv q q' hq hq'
  refine ⟨(h v hv q q' hq hq').ge, ?_⟩
  intro m' hm'
  cases hm'

theorem Dispatched.matchGrows (h : Dispatched n n') : n.MatchGrows none n' :=
  matchGrows_of_find fun _ _ _ _ hq hq' => (h.sent hq hq').matchIndex

theorem matchGrows_of_pr (h : n'.pr_ = n.pr_) : n.MatchGrows none n' := by
  refine matchGrows_of_find fun v _ q q' hq hq' => ?_
  rw [h, hq] at hq'
  rw [Option.some.inj hq']

theorem propose_matchGrows (hr : n.role_ = .leader) (data : Bytes) :
    n.MatchGrows none (n.propose data).2 := by
  refine matchGrows_of_find fun v hv q q' hq hq' => ?_
  exact ((propose_dispatched hr data).sent (by rw [find_proposed hv]; exact hq) hq').matchIndex

theorem advance_pr (n : RawNode) : n.advance.pr_ = n.pr_ := by
  unfold RawNode.advance
  dsimp only
  split_ifs <;> rfl

end Served

section Office

variable {p : Peer} {ev : Event}

/-- Events that step no message. -/
theorem Peer.matchGrows_of_none (hr : p.node.role_ = .leader) (hin : p.InOffice ev)
    (hno : p.stepped ev = none) : p.MatchGrows ev := by
  unfold Peer.MatchGrows
  rw [hno]
  unfold Peer.InOffice at hin
  have hmove := p.handle_move ev
  generalize p.handle ev = r at hmove hin ⊢
  cases hmove with
  | tick draw => exact (tick_dispatched _ hr draw).matchGrows
  | step m draw hready =>
    rw [Peer.stepped, hready] at hno
    cases hno
  | propose data => exact propose_matchGrows hr data
  | readIndex ctx => exact (readIndex_dispatched _ ctx).matchGrows
  | poll | persistEntries | send | stay => exact matchGrows_of_pr rfl
  | persistHardState rd =>
    unfold Peer.saveHardState
    split
    · exact matchGrows_of_pr rfl
    · exact matchGrows_of_pr rfl
  | advance => exact matchGrows_of_pr (advance_pr p.node)
  | restart => cases hin.1

/-- One event of a leadership. -/
theorem Peer.matchGrows_iff (hr : p.node.role_ = .leader) (hin : p.InOffice ev) :
    p.MatchGrows ev ↔ p.SparesMatch ev := by
  cases hm : p.stepped ev with
  | none =>
    refine ⟨fun _ m hm' => ?_, fun _ => Peer.matchGrows_of_none hr hin hm⟩
    rw [hm] at hm'
    cases hm'
  | some m =>
    -- only the step of a message between two `Ready`s steps one
    obtain ⟨draw, rfl, hready⟩ : ∃ draw, ev = .step m draw ∧ p.ready = none := by
      cases ev with
      | step m' draw =>
        rw [Peer.stepped] at hm
        split at hm
        · rename_i hnone
          obtain rfl := Option.some.inj hm
          exact ⟨draw, rfl, Option.isNone_iff_eq_none.mp hnone⟩
        · cases hm
      | tick | propose | readIndex | poll | persistEntries | persistHardState | send | advance
      | restart => cases hm
    have hstep : (p.handle (.step m draw)).1.node = p.node.step m draw := by
      simp only [Peer.handle, hready]
    have hserved : Served p.node m (p.node.step m draw) := by
      refine step_served hr ?_
      rw [← hstep]
      exact hin.2
    unfold Peer.MatchGrows Peer.SparesMatch
    rw [hm, hstep, hserved.matchGrows_iff]
    constructor
    · rintro h m' ⟨⟩
      exact h
    · intro h
      exact h m rfl

end Office

/-- **Match indexes of a leadership.** Along any sequence of events of one leadership, no peer's
match index goes down and an installed snapshot counts as held, exactly if every report of an
installed snapshot is about a peer that it does not harm. -/
theorem match_index_grows_iff {p : Peer} (hr : p.node.role_ = .leader) {evs : List Event}
    (hin : p.Along Peer.InOffice evs) :
    p.Along Peer.MatchGrows evs ↔ p.Along Peer.SparesMatch evs := by
  induction evs generalizing p with
  | nil => exact Iff.rfl
  | cons ev evs ih =>
    exact and_congr (Peer.matchGrows_iff hr hin.1) (ih hin.1.1 hin.2)

/-- A member of three that leads term 2 on a store compacted up to its second entry. -/
def compactedLeader : Peer :=
  (Peer.start { id := 1, electionTick := 1, peers := [1, 2, 3] }
    { entries_ := [{}, { term := 1, index := 1 }, { term := 1, index := 2 }]
      hardState_ := { term := 1 }, snapIndex_ := 2, snapTerm_ := 1 } 1).exec
    [.tick 1, .step { type := .msgVoteResp, receiver := 1, sender := 2, term := 2 } 1]

/-- Node 2 lacks everything, so it is sent the snapshot; it installs it and says so. -/
def catchUp : List Event :=
  [.step { type := .msgAppResp, receiver := 1, sender := 2, term := 2, reject := true, index := 2 } 1,
    .step { type := .msgAppResp, receiver := 1, sender := 2, term := 2, index := 2 } 1]

theorem match_index_grows_catchUp :
    compactedLeader.node.role_ = .leader ∧ compactedLeader.Along Peer.MatchGrows catchUp :=
  ⟨by decide +kernel,
    (match_index_grows_iff (by decide +kernel) (by decide +kernel)).mpr (by decide +kernel)⟩

/-- The transport then reports that the snapshot arrived, and the leader no longer counts node 2
as holding it. -/
theorem snapshot_report_forgets_match :
    let before := compactedLeader.exec catchUp
    let after := before.node.step
      { type := .msgSnapStatus, receiver := 1, sender := 2, term := 2 } 1
    before.node.role_ = .leader ∧ after.role_ = .leader ∧ after.term_ = before.node.term_ ∧
      (before.node.pr_.find? 2).map (fun q => (q.state, q.matchIndex, q.pendingSnapshotIndex)) =
        some (.snapshot, 2, 2) ∧
      (after.pr_.find? 2).map Progress.matchIndex = some 0 := by
  decide +kernel

end NexusLOB.Raft
