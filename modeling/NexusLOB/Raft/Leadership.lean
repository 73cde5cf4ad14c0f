import NexusLOB.Raft.LogView
import NexusLOB.Raft.ReadEffects

/-!
# One leadership

What a node does with the progress of its peers from the election it wins until it loses its term.
A message first changes the progress of its sender (`Progress.hear`), a confirmation may then move
the commit index, and at the end appends and snapshots go out (`Dispatched`), which leave the match
and the next index of every peer alone. `Served` lists these ways; what holds during a leadership
is proved from it case by case.
-/

namespace NexusLOB.Raft

open Collections

/-! ## Sending -/

/-- The progress of a peer to which appends or a snapshot were sent. `snap` is the index of the
sender's snapshot. -/
structure Progress.Sent (snap : Nat) (p p' : Progress) : Prop where
  matchIndex : p'.matchIndex = p.matchIndex
  nextIndex : p'.nextIndex = p.nextIndex
  state : p'.state = p.state ∧ p'.pendingSnapshotIndex = p.pendingSnapshotIndex ∨
    p'.state = .snapshot ∧ p'.pendingSnapshotIndex = snap

theorem Progress.Sent.refl (snap : Nat) (p : Progress) : p.Sent snap p :=
  ⟨rfl, rfl, Or.inl ⟨rfl, rfl⟩⟩

theorem Progress.Sent.trans {snap : Nat} {p p' p'' : Progress} (h : p.Sent snap p')
    (h' : p'.Sent snap p'') : p.Sent snap p'' := by
  refine ⟨h'.matchIndex.trans h.matchIndex, h'.nextIndex.trans h.nextIndex, ?_⟩
  rcases h'.state with ⟨hs', hp'⟩ | hsnap
  · rw [hs', hp']
    exact h.state
  · exact Or.inr hsnap

/-- A peer that is not being sent a snapshot afterwards was not sent one before. -/
theorem Progress.Sent.state_eq {snap : Nat} {p p' : Progress} (h : p.Sent snap p')
    (hne : p'.state ≠ .snapshot) : p'.state = p.state := by
  rcases h.state with ⟨hs, -⟩ | ⟨hs, -⟩
  · exact hs
  · exact absurd hs hne

/-- `n'` is `n` after it sent messages. -/
structure Dispatched (n n' : RawNode) : Prop where
  log : n'.log_ = n.log_
  role : n'.role_ = n.role_
  term : n'.term_ = n.term_
  id : n'.id_ = n.id_
  voters : n'.voters_ = n.voters_
  mark : n'.lastReadyLastIndex_ = n.lastReadyLastIndex_
  keys : n'.pr_.keys = n.pr_.keys
  sent : ∀ {v p p'}, n.pr_.find? v = some p → n'.pr_.find? v = some p' →
    p.Sent n.log_.snapshot.index p'

section Dispatched

variable {n n' n'' : RawNode}

/-- Nothing changes that a leadership is about. -/
theorem Dispatched.quiet (hlog : n'.log_ = n.log_) (hrole : n'.role_ = n.role_)
    (hterm : n'.term_ = n.term_) (hid : n'.id_ = n.id_) (hvoters : n'.voters_ = n.voters_)
    (hmark : n'.lastReadyLastIndex_ = n.lastReadyLastIndex_) (hpr : n'.pr_ = n.pr_) :
    Dispatched n n' := by
  refine ⟨hlog, hrole, hterm, hid, hvoters, hmark, by rw [hpr], ?_⟩
  intro v p p' hp hp'
  rw [hpr, hp] at hp'
  obtain rfl := Option.some.inj hp'
  exact .refl _ p

theorem Dispatched.refl (n : RawNode) : Dispatched n n := .quiet rfl rfl rfl rfl rfl rfl rfl

theorem Dispatched.find (h : Dispatched n n') {v : NodeId} {p : Progress}
    (hp : n.pr_.find? v = some p) : ∃ p', n'.pr_.find? v = some p' := by
  rw [← OrderedMap.mem_keys_iff, h.keys, OrderedMap.mem_keys_iff]
  exact ⟨p, hp⟩

theorem Dispatched.find_old (h : Dispatched n n') {v : NodeId} {p' : Progress}
    (hp : n'.pr_.find? v = some p') :
    ∃ p, n.pr_.find? v = some p ∧ p.Sent n.log_.snapshot.index p' := by
  have hkey : ∃ p, n.pr_.find? v = some p := by
    rw [← OrderedMap.mem_keys_iff, ← h.keys, OrderedMap.mem_keys_iff]
    exact ⟨p', hp⟩
  obtain ⟨p, hold⟩ := hkey
  exact ⟨p, hold, h.sent hold hp⟩

theorem Dispatched.trans (h : Dispatched n n') (h' : Dispatched n' n'') : Dispatched n n'' where
  log := h'.log.trans h.log
  role := h'.role.trans h.role
  term := h'.term.trans h.term
  id := h'.id.trans h.id
  voters := h'.voters.trans h.voters
  mark := h'.mark.trans h.mark
  keys := h'.keys.trans h.keys
  sent := by
    intro v p p'' hp hp''
    obtain ⟨p', hp'⟩ := h.find hp
    have hsent' := h'.sent hp' hp''
    rw [h.log] at hsent'
    exact (h.sent hp hp').trans hsent'

/-- Only the progress of one peer changes, as by sending to it. -/
theorem dispatched_modify {target : NodeId} {p q : Progress} (hp : n.pr_.find? target = some p)
    {f : Progress → Progress} (hf : f p = q) (hq : p.Sent n.log_.snapshot.index q) :
    Dispatched n { n with pr_ := n.pr_.modify target f } := by
  refine ⟨rfl, rfl, rfl, rfl, rfl, rfl, OrderedMap.keys_modify _ _ _, ?_⟩
  intro v r r' hr hr'
  by_cases hv : target = v
  · subst hv
    rw [OrderedMap.find?_modify_self, hr] at hr'
    rw [hp] at hr
    obtain rfl := Option.some.inj hr
    obtain rfl := Option.some.inj hr'
    rw [hf]
    exact hq
  · rw [OrderedMap.find?_modify_of_ne _ _ hv, hr] at hr'
    obtain rfl := Option.some.inj hr'
    exact .refl _ r

theorem send_dispatched (n : RawNode) (m : Message) : Dispatched n (n.send m) :=
  .quiet rfl rfl rfl rfl rfl rfl rfl

theorem afterAppend_sent {p p' : Progress} {ents : List Entry}
    (h : RawNode.afterAppend p ents = some p') (snap : Nat) : p.Sent snap p' := by
  obtain ⟨hnext, hmatch, hpend⟩ := afterAppend_bounds h
  refine ⟨hmatch, hnext, Or.inl ⟨?_, hpend⟩⟩
  unfold RawNode.afterAppend at h
  simp only [Option.map_eq_some_iff] at h
  obtain ⟨q, hq, rfl⟩ := h
  have hqp : q.state = p.state := by
    split at hq
    · rw [Option.map_eq_some_iff] at hq
      obtain ⟨f, -, rfl⟩ := hq
      rfl
    · rw [Option.some.inj hq]
  split_ifs <;> exact hqp

theorem sendAppend_dispatched (n : RawNode) (target : NodeId) :
    Dispatched n (n.sendAppend target) := by
  have hpost := sendAppend_posted n target
  generalize n.sendAppend target = n' at hpost ⊢
  cases hpost with
  | silent => exact .refl n
  | snapshot hp hm =>
    have hmod : Dispatched n { n with
        pr_ := n.pr_.modify target fun pr => pr.becomeSnapshot n.log_.snapshot.index } :=
      dispatched_modify hp rfl ⟨rfl, rfl, Or.inr ⟨rfl, rfl⟩⟩
    exact hmod.trans (send_dispatched _ _)
  | @append p p' ents m hp hp' hm =>
    have hmod : Dispatched n { n with pr_ := n.pr_.modify target fun _ => p' } :=
      dispatched_modify hp rfl (afterAppend_sent hp' _)
    exact hmod.trans (send_dispatched _ _)

theorem dispatched_closed (n : RawNode) : SendClosed (Dispatched n) where
  sendAppend := fun h id => h.trans (sendAppend_dispatched _ id)
  heartbeat := fun h _ _ => h.trans (send_dispatched _ _)
  answer := fun h _ _ => h.trans (send_dispatched _ _)
  reads := fun h _ _ _ => h.trans (.quiet rfl rfl rfl rfl rfl rfl rfl)

theorem broadcastAppend_dispatched (n : RawNode) : Dispatched n n.broadcastAppend :=
  (dispatched_closed n).broadcastAppend (.refl n)

end Dispatched

/-! ## Hearing from a peer -/

/-- What a message of a peer changes in its progress. -/
def Progress.hear (m : Message) (p : Progress) : Progress :=
  match m.type, m.reject with
  | .msgAppResp, true => RawNode.rejectProgress m.index m.rejectHint p
  | .msgAppResp, false => RawNode.acceptProgress m.index p
  | .msgSnapStatus, false =>
    { p.becomeProbe with
      matchIndex := p.becomeProbe.pendingSnapshotIndex
      nextIndex := p.becomeProbe.pendingSnapshotIndex + 1 }
  | _, _ => p.becomeProbe

namespace RawNode

/-- A message that changes the progress of its sender. -/
def Hears (n : RawNode) (m : Message) : Prop :=
  n.pr_.contains m.sender = true ∧ (m.type = .msgAppResp ∧ m.term = n.term_ ∨
    m.type = .msgUnreachable ∨ m.type = .msgSnapStatus)

instance (n : RawNode) (m : Message) : Decidable (n.Hears m) := inferInstanceAs (Decidable (_ ∧ _))

/-- The node with the progress of the sender changed. -/
def heard (n : RawNode) (m : Message) : RawNode :=
  { n with pr_ := n.pr_.modify m.sender (Progress.hear m) }

/-- The node with the entry of a proposal in its log and its own progress up to date. -/
def proposed (n : RawNode) (data : Bytes) : RawNode :=
  let e : Entry := { term := n.term_, index := n.log_.lastIndex + 1, type := .normal, data := data }
  { n with
    log_ := (n.log_.append [e]).2
    pr_ := if n.pr_.contains n.id_ then n.pr_ else n.pr_.insert n.id_ {} }.markSelf

end RawNode

/-- The ways in which a leader that stays in office handles a message. -/
inductive Served (n : RawNode) (m : Message) : RawNode → Prop
  | ignored {n' : RawNode} (hno : ¬ n.Hears m) (h : Dispatched n n') : Served n m n'
  | noted {n' : RawNode} (hm : n.Hears m)
      (hno : m.reject = true ∨ m.type = .msgUnreachable) (h : Dispatched (n.heard m) n') :
      Served n m n'
  | confirmed {n' : RawNode} (hm : n.Hears m) (hrej : m.reject = false)
      (hty : m.type = .msgAppResp ∨ m.type = .msgSnapStatus)
      (h : Dispatched (n.heard m).maybeCommit.2 n') : Served n m n'
  | proposed {n' : RawNode} {data : Bytes} (hty : m.type = .msgPropose)
      (h : Dispatched (n.proposed data) n') : Served n m n'

section Served

variable {n : RawNode} {m : Message}

theorem contains_of_find {v : NodeId} {p : Progress} (hp : n.pr_.find? v = some p) :
    n.pr_.contains v = true := by
  rw [OrderedMap.contains, hp]
  rfl

theorem not_hears_of_find (hp : n.pr_.find? m.sender = none) : ¬ n.Hears m := by
  intro h
  have hc := h.1
  rw [OrderedMap.contains, hp] at hc
  cases hc

theorem not_hears_of_type (h1 : m.type ≠ .msgAppResp) (h2 : m.type ≠ .msgUnreachable)
    (h3 : m.type ≠ .msgSnapStatus) : ¬ n.Hears m := by
  rintro ⟨-, ⟨hty, -⟩ | hty | hty⟩
  · exact h1 hty
  · exact h2 hty
  · exact h3 hty

/-- A peer's progress after it was heard. -/
theorem find_heard (n : RawNode) (m : Message) (v : NodeId) :
    (n.heard m).pr_.find? v =
      if v = m.sender then (n.pr_.find? v).map (Progress.hear m) else n.pr_.find? v := by
  by_cases hv : v = m.sender
  · subst hv
    rw [if_pos rfl]
    exact OrderedMap.find?_modify_self _ _ _
  · rw [if_neg hv]
    exact OrderedMap.find?_modify_of_ne _ _ (Ne.symm hv)

theorem propose_dispatched (hr : n.role_ = .leader) (data : Bytes) :
    Dispatched (n.proposed data) (n.propose data).2 := by
  unfold RawNode.propose
  rw [if_neg (not_not_intro hr)]
  exact broadcastAppend_dispatched _

theorem stepUnreachable_served (hty : m.type = .msgUnreachable) :
    Served n m (n.stepUnreachable m) := by
  cases hp : n.pr_.find? m.sender with
  | none =>
    refine .ignored (not_hears_of_find hp) ?_
    refine ⟨rfl, rfl, rfl, rfl, rfl, rfl, OrderedMap.keys_modify _ _ _, ?_⟩
    intro v p p' hold hnew
    have hv : m.sender ≠ v := by
      rintro rfl
      rw [hp] at hold
      cases hold
    change (n.pr_.modify _ _).find? v = some p' at hnew
    rw [OrderedMap.find?_modify_of_ne _ _ hv, hold] at hnew
    obtain rfl := Option.some.inj hnew
    exact .refl _ p
  | some p =>
    refine .noted ⟨contains_of_find hp, Or.inr (Or.inl hty)⟩ (Or.inr hty) ?_
    have heq : n.stepUnreachable m = n.heard m := by
      have hhear : Progress.hear m = Progress.becomeProbe := by
        funext p
        simp only [Progress.hear, hty]
      rw [RawNode.stepUnreachable, RawNode.heard, hhear]
    rw [heq]
    exact .refl _

theorem stepSnapStatus_served (hty : m.type = .msgSnapStatus) :
    Served n m (n.stepSnapStatus m) := by
  unfold RawNode.stepSnapStatus
  split
  · rename_i hp
    exact .ignored (not_hears_of_find hp) (.refl n)
  · rename_i p hp
    have hears : n.Hears m := ⟨contains_of_find hp, Or.inr (Or.inr hty)⟩
    cases hrej : m.reject with
    | true =>
      rw [if_pos rfl]
      refine .noted hears (Or.inl hrej) ?_
      have hhear : Progress.hear m = Progress.becomeProbe := by
        funext p
        simp only [Progress.hear, hty, hrej]
      rw [RawNode.heard, hhear]
      exact .refl _
    | false =>
      rw [if_neg (by decide)]
      refine .confirmed hears hrej (Or.inr hty) ?_
      have hhear : Progress.hear m = fun p =>
          { p.becomeProbe with
            matchIndex := p.becomeProbe.pendingSnapshotIndex
            nextIndex := p.becomeProbe.pendingSnapshotIndex + 1 } := by
        funext p
        simp only [Progress.hear, hty, hrej]
      rw [RawNode.heard, hhear]
      exact .refl _

theorem stepLeaderAppResp_served (hty : m.type = .msgAppResp) (ht : m.term = n.term_) :
    Served n m (n.stepLeaderAppResp m) := by
  unfold RawNode.stepLeaderAppResp
  split
  · rename_i hp
    exact .ignored (not_hears_of_find hp) (.refl n)
  · rename_i p hp
    have hears : n.Hears m := ⟨contains_of_find hp, Or.inl ⟨hty, ht⟩⟩
    cases hrej : m.reject with
    | true =>
      rw [if_pos rfl]
      refine .noted hears (Or.inl hrej) ?_
      have hhear : Progress.hear m = RawNode.rejectProgress m.index m.rejectHint := by
        funext p
        simp only [Progress.hear, hty, hrej]
      rw [RawNode.heard, hhear]
      exact sendAppend_dispatched _ _
    | false =>
      rw [if_neg (by decide)]
      refine .confirmed hears hrej (Or.inl hty) ?_
      have hhear : Progress.hear m = RawNode.acceptProgress m.index := by
        funext p
        simp only [Progress.hear, hty, hrej]
      rw [RawNode.heard, hhear]
      dsimp only
      generalize RawNode.maybeCommit _ = res
      obtain ⟨committed, n₂⟩ := res
      have hsent : Dispatched n₂ (if committed = true then n₂.broadcastAppend else n₂) := by
        split
        · exact broadcastAppend_dispatched _
        · exact .refl _
      dsimp only
      split
      · split
        · exact hsent.trans (sendAppend_dispatched _ _)
        · exact hsent
      · exact hsent

theorem rejectStale_dispatched (n : RawNode) (m : Message) : Dispatched n (n.rejectStale m) := by
  unfold RawNode.rejectStale
  dsimp only
  split <;> first | exact send_dispatched n _ | exact .refl n

theorem stepLeader_served (hr : n.role_ = .leader) (ht : m.type = .msgAppResp → m.term = n.term_)
    (h2 : m.type ≠ .msgUnreachable) (h3 : m.type ≠ .msgSnapStatus) :
    Served n m (n.stepLeader m) := by
  unfold RawNode.stepLeader
  split <;> rename_i hty
  · exact .proposed hty (propose_dispatched hr _)
  · exact stepLeaderAppResp_served hty (ht hty)
  · exact .ignored (not_hears_of_type (by rw [hty]; decide) h2 h3)
      ((dispatched_closed n).stepLeaderHeartbeatResp (.refl n) m)
  · exact .ignored (not_hears_of_type (by rw [hty]; decide) h2 h3)
      ((dispatched_closed n).stepLeaderReadIndex (.refl n) m)
  · exact .ignored (not_hears_of_type (by assumption) h2 h3) (.refl n)

/-- A step never lowers the term. -/
theorem dispatch_term_le (hl : m.type ≠ .msgPreVote → m.type ≠ .msgPreVoteResp → m.term = n.term_)
    (draw : Nat) : n.term_ ≤ (n.dispatch m draw).term_ := by
  have heff : Effects n.log_ (some m) n (n.dispatch m draw) := dispatch_effects rfl hl draw
  refine heff.preserves (P := fun v => n.term_ ≤ v.term) ?_ (Nat.le_refl _)
  intro v v' he hv
  cases he with
  | turn ht => exact Nat.le_trans hv ht
  | lead | track | append | commit | accept | heartbeat | restore => exact hv

/-- **A message during a leadership.** -/
theorem step_served (hr : n.role_ = .leader) {draw : Nat} (ht : (n.step m draw).term_ = n.term_) :
    Served n m (n.step m draw) := by
  unfold RawNode.step at ht ⊢
  split at ht
  · exact stepUnreachable_served (by assumption)
  · exact stepSnapStatus_served (by assumption)
  · rename_i h2 h3
    dsimp only at ht ⊢
    by_cases hraise : m.term > n.term_ ∧ m.type ≠ .msgPreVote ∧ m.type ≠ .msgPreVoteResp
    · -- a higher term ends the leadership
      have hup : n.raiseTerm m draw = n.becomeFollower m.term 0 draw := if_pos hraise
      have hnew : ¬ m.term < (n.becomeFollower m.term 0 draw).term_ := Nat.lt_irrefl _
      rw [hup, if_neg hnew] at ht
      have hle : m.term ≤ ((n.becomeFollower m.term 0 draw).dispatch m draw).term_ :=
        dispatch_term_le (n := n.becomeFollower m.term 0 draw) (fun _ _ => rfl) draw
      omega
    · have hsame : n.raiseTerm m draw = n := if_neg hraise
      rw [hsame]
      by_cases hstale : m.term < n.term_
      · rw [if_pos hstale]
        refine .ignored ?_ (rejectStale_dispatched n m)
        rintro ⟨-, ⟨-, heq⟩ | hty | hty⟩
        · omega
        · exact h2 hty
        · exact h3 hty
      · rw [if_neg hstale, RawNode.dispatch, hr]
        refine stepLeader_served hr (fun hty => ?_) h2 h3
        by_contra hne
        exact hraise ⟨by omega, by rw [hty]; decide, by rw [hty]; decide⟩

/-- The commit rule touches no progress. -/
theorem maybeCommit_frame (n : RawNode) :
    n.maybeCommit.2.pr_ = n.pr_ ∧ n.maybeCommit.2.log_.snapshot = n.log_.snapshot ∧
      n.maybeCommit.2.log_.lastIndex = n.log_.lastIndex := by
  obtain ⟨k, heq⟩ := maybeCommit_eq n
  rw [heq]
  exact ⟨rfl, rfl, rfl⟩

theorem maybeCommit_office (n : RawNode) :
    n.maybeCommit.2.role_ = n.role_ ∧ n.maybeCommit.2.term_ = n.term_ :=
  ⟨(maybeCommit_worked n).role, (maybeCommit_worked n).term⟩

theorem append_snapshot (l : RaftLog) (ents : List Entry) :
    (l.append ents).2.snapshot = l.snapshot := by
  cases ents with
  | nil => rfl
  | cons e rest =>
    simp only [RaftLog.append]
    split_ifs
    · rfl
    · simp only [RaftLog.snapshot, LogUnstable.append_snapshot]

/-- A proposal changes no peer's progress. -/
theorem find_proposed {v : NodeId} (hv : v ≠ n.id_) (data : Bytes) :
    (n.proposed data).pr_.find? v = n.pr_.find? v := by
  unfold RawNode.proposed RawNode.markSelf
  dsimp only
  rw [OrderedMap.find?_modify_of_ne _ _ (Ne.symm hv)]
  split
  · rfl
  · exact OrderedMap.find?_insert_of_ne _ _ (Ne.symm hv)

/-- The progress of a peer after a message: what hearing it and then sending make of it. -/
theorem Served.sent {n' : RawNode} (h : Served n m n') {v : NodeId} (hv : v ≠ n.id_)
    {p p' : Progress} (hp : n.pr_.find? v = some p) (hp' : n'.pr_.find? v = some p') :
    (if v = m.sender ∧ n.Hears m then p.hear m else p).Sent n.log_.snapshot.index p' := by
  -- the progress between hearing and sending
  have hfind : n.Hears m → (n.heard m).pr_.find? v =
      some (if v = m.sender ∧ n.Hears m then p.hear m else p) := by
    intro hm
    rw [find_heard]
    by_cases hvs : v = m.sender
    · rw [if_pos hvs, if_pos ⟨hvs, hm⟩, hp]
      rfl
    · rw [if_neg hvs, if_neg fun hc => hvs hc.1, hp]
  cases h with
  | ignored hno h =>
    rw [if_neg fun hc => hno hc.2]
    exact h.sent hp hp'
  | noted hm _ h => exact h.sent (hfind hm) hp'
  | confirmed hm _ _ h =>
    obtain ⟨hpr, hsnap, -⟩ := maybeCommit_frame (n.heard m)
    have hsent := h.sent (by rw [hpr]; exact hfind hm) hp'
    rw [hsnap] at hsent
    exact hsent
  | @proposed data hty h =>
    have hno : ¬ n.Hears m :=
      not_hears_of_type (by rw [hty]; decide) (by rw [hty]; decide) (by rw [hty]; decide)
    rw [if_neg fun hc => hno hc.2]
    have hsent := h.sent (by rw [find_proposed hv]; exact hp) hp'
    have hlog : (n.proposed data).log_.snapshot = n.log_.snapshot := append_snapshot _ _
    rw [hlog] at hsent
    exact hsent

/-- A message neither adds nor drops a peer. -/
theorem Served.find {n' : RawNode} (h : Served n m n') {v : NodeId} (hv : v ≠ n.id_) :
    (∃ p', n'.pr_.find? v = some p') ↔ ∃ p, n.pr_.find? v = some p := by
  have hheard : (n.heard m).pr_.keys = n.pr_.keys := OrderedMap.keys_modify _ _ _
  rw [← OrderedMap.mem_keys_iff]
  cases h with
  | ignored _ h => rw [h.keys, OrderedMap.mem_keys_iff]
  | noted _ _ h => rw [h.keys, hheard, OrderedMap.mem_keys_iff]
  | confirmed _ _ _ h =>
    rw [h.keys, (maybeCommit_frame (n.heard m)).1, hheard, OrderedMap.mem_keys_iff]
  | proposed _ h => rw [h.keys, OrderedMap.mem_keys_iff, find_proposed hv]

end Served

/-! ## Elections and client calls -/

namespace RawNode

/-- The part of `becomeLeader` before the first appends go out. -/
def elected (n : RawNode) : RawNode :=
  let n := { n with role_ := .leader, lead_ := n.id_, tickCount_ := 0, pr_ := n.resetProgress }
  let n := n.markSelf
  let n := { n with pr_ := n.pr_.modify n.id_ Progress.becomeReplicate }
  if n.log_.lastIndex ≥ n.log_.firstIndex then
    let noop : Entry := { term := n.term_, index := n.log_.lastIndex + 1, type := .normal }
    { n with log_ := (n.log_.append [noop]).2 }.markSelf
  else n

end RawNode

section Election

variable (n : RawNode)

theorem becomeLeader_dispatched : Dispatched n.elected n.becomeLeader :=
  broadcastAppend_dispatched n.elected

theorem elected_office : n.elected.role_ = .leader ∧ n.elected.term_ = n.term_ ∧
    n.elected.id_ = n.id_ ∧ n.elected.voters_ = n.voters_ ∧
    n.elected.lastReadyLastIndex_ = n.lastReadyLastIndex_ := by
  unfold RawNode.elected
  dsimp only
  split <;> exact ⟨rfl, rfl, rfl, rfl, rfl⟩

theorem elected_log : n.elected.log_ =
    if n.log_.lastIndex ≥ n.log_.firstIndex then
      (n.log_.append [{ term := n.term_, index := n.log_.lastIndex + 1, type := .normal }]).2
    else n.log_ := by
  unfold RawNode.elected
  dsimp only
  split
  · rename_i hge
    rw [if_pos (show n.log_.lastIndex ≥ n.log_.firstIndex from hge)]
    rfl
  · rename_i hge
    rw [if_neg (show ¬ n.log_.lastIndex ≥ n.log_.firstIndex from hge)]
    rfl

/-- The progress of the other peers is the fresh one. -/
theorem find_elected {v : NodeId} (hv : v ≠ n.id_) :
    n.elected.pr_.find? v = n.resetProgress.find? v := by
  have hmod : ∀ (pr : OrderedMap NodeId Progress less) f, (pr.modify n.id_ f).find? v = pr.find? v :=
    fun pr f => OrderedMap.find?_modify_of_ne _ _ (Ne.symm hv)
  unfold RawNode.elected RawNode.markSelf
  dsimp only
  split
  · exact (hmod _ _).trans ((hmod _ _).trans (hmod _ _))
  · exact (hmod _ _).trans (hmod _ _)

/-- A new leader tracks exactly the voters and itself. -/
theorem find_resetProgress {v : NodeId} (hv : v ≠ n.id_) :
    n.resetProgress.find? v = if v ∈ n.voters_ then
      some ((Progress.new n.maxInflightMsgs_ (v ∈ n.learners_)).reset n.log_.lastIndex)
    else none := by
  -- the loop over the voters, from a map that is already filled for some
  have hfill : ∀ (voters : List NodeId) (pr : OrderedMap NodeId Progress less),
      (voters.foldl (fun pr id => pr.insert id ((Progress.new n.maxInflightMsgs_
        (id ∈ n.learners_)).reset n.log_.lastIndex)) pr).find? v =
      if v ∈ voters then
        some ((Progress.new n.maxInflightMsgs_ (v ∈ n.learners_)).reset n.log_.lastIndex)
      else pr.find? v := by
    intro voters
    induction voters with
    | nil => exact fun _ => rfl
    | cons id rest ih =>
      intro pr
      rw [List.foldl_cons, ih]
      by_cases hmem : v ∈ rest
      · rw [if_pos hmem, if_pos (List.mem_cons_of_mem _ hmem)]
      · rw [if_neg hmem]
        by_cases hid : id = v
        · subst hid
          rw [OrderedMap.find?_insert_self, if_pos List.mem_cons_self]
        · rw [OrderedMap.find?_insert_of_ne _ _ hid,
            if_neg (List.not_mem_cons_of_ne_of_not_mem (Ne.symm hid) hmem)]
  unfold RawNode.resetProgress
  dsimp only
  split
  · exact hfill _ _
  · rw [OrderedMap.find?_insert_of_ne _ _ (Ne.symm hv)]
    exact hfill _ _

/-- `n'` is `n` right after it won an election. -/
def Elects (n n' : RawNode) : Prop :=
  ∃ n₀ : RawNode, n₀.log_ = n.log_ ∧ n₀.id_ = n.id_ ∧ n₀.voters_ = n.voters_ ∧
    n₀.lastReadyLastIndex_ = n.lastReadyLastIndex_ ∧ Dispatched n₀.elected n'

variable {n} in
theorem campaign_elects {draw : Nat} (h : (n.campaign draw).role_ = .leader) :
    Elects n (n.campaign draw) := by
  by_cases hq : n.quorum = 1
  · rw [campaign_alone hq]
    exact ⟨n.becomeCandidate draw, rfl, rfl, rfl, rfl, becomeLeader_dispatched _⟩
  · rw [campaign_eq hq] at h
    cases h

variable {n} in
theorem pollVote_elects {voter : NodeId} {granted : Bool} (hr : n.role_ ≠ .leader)
    (h : (n.pollVote voter granted).role_ = .leader) : Elects n (n.pollVote voter granted) := by
  unfold RawNode.pollVote at h ⊢
  dsimp only at h ⊢
  split_ifs at h ⊢
  · exact absurd h hr
  · exact ⟨{ n with votes_ := n.votes_ ++ [voter] }, rfl, rfl, rfl, rfl, becomeLeader_dispatched _⟩
  · exact absurd h hr
  · exact absurd h hr

variable {n} in
theorem stepFollower_elects {m : Message} {draw : Nat} (hr : n.role_ = .follower)
    (h : (n.stepFollower m draw).role_ = .leader) : Elects n (n.stepFollower m draw) := by
  have hno : ¬ n.role_ = .leader := by rw [hr]; decide
  unfold RawNode.stepFollower at h ⊢
  split at h
  · exact absurd (h.symm.trans (by unfold RawNode.forward; split <;> rfl)).symm hno
  · rw [stepFollowerApp_eq] at h
    exact absurd h hno
  · rw [stepFollowerHeartbeat_eq] at h
    exact absurd h hno
  · exact absurd h hno
  · exact absurd (h.symm.trans (by unfold RawNode.stepFollowerVote; dsimp only; split <;> rfl)).symm hno
  · exact absurd (h.symm.trans (by unfold RawNode.stepFollowerVote; dsimp only; split <;> rfl)).symm hno
  · exact absurd (h.symm.trans (by unfold RawNode.forward; split <;> rfl)).symm hno
  · exact absurd h hno
  · exact campaign_elects h
  · exact absurd h hno

variable {n} in
theorem stepCandidate_elects {m : Message} {draw : Nat} (hr : n.role_ = .candidate ∨
    n.role_ = .preCandidate) (ht : m.type = .msgApp ∨ m.type = .msgHeartbeat ∨
    m.type = .msgSnap → m.term = n.term_) (h : (n.stepCandidate m draw).role_ = .leader) :
    Elects n (n.stepCandidate m draw) := by
  have hno : n.role_ ≠ .leader := by
    rcases hr with hr | hr <;> rw [hr] <;> decide
  have hfollow : m.term = n.term_ → ((if m.term = n.term_ then n.becomeFollower m.term m.sender draw
      else n).stepFollower m draw).role_ = .leader → Elects n ((if m.term = n.term_ then
        n.becomeFollower m.term m.sender draw else n).stepFollower m draw) := by
    intro hterm hlead
    rw [if_pos hterm] at hlead ⊢
    exact stepFollower_elects (n := n.becomeFollower m.term m.sender draw) rfl hlead
  unfold RawNode.stepCandidate at h ⊢
  split at h <;> rename_i hty
  · exact pollVote_elects hno h
  · exact pollVote_elects hno h
  · exact hfollow (ht (Or.inl hty)) h
  · exact hfollow (ht (Or.inr (Or.inl hty))) h
  · exact hfollow (ht (Or.inr (Or.inr hty))) h
  · exact campaign_elects h
  · exact absurd h hno

theorem readIndex_dispatched (ctx : Bytes) : Dispatched n (n.readIndex ctx).2 :=
  (dispatched_closed n).readIndex (.refl n) ctx

theorem tick_dispatched (hr : n.role_ = .leader) (draw : Nat) :
    Dispatched n (n.tick draw).2 := by
  have hcount : Dispatched n { n with tickCount_ := n.tickCount_ + 1 } :=
    .quiet rfl rfl rfl rfl rfl rfl rfl
  have hreset : ∀ n : RawNode, Dispatched n { n with tickCount_ := 0 } :=
    fun _ => .quiet rfl rfl rfl rfl rfl rfl rfl
  unfold RawNode.tick
  rw [if_pos hr]
  dsimp only
  split_ifs
  · exact ((dispatched_closed n).heartbeats hcount []).trans (hreset _)
  · exact hcount

/-- How a node comes to lead by a step: it was the leader of this term already, or it wins an
election. -/
theorem step_leader_cases {m : Message} {draw : Nat} (h : (n.step m draw).role_ = .leader) :
    n.role_ = .leader ∧ (n.step m draw).term_ = n.term_ ∨ Elects n (n.step m draw) := by
  have hsend : ∀ n' : RawNode, Dispatched n n' → n'.role_ = .leader →
      n.role_ = .leader ∧ n'.term_ = n.term_ :=
    fun n' hd hr => ⟨hd.role.symm.trans hr, hd.term⟩
  unfold RawNode.step at h ⊢
  split at h
  · exact Or.inl ⟨h, rfl⟩
  · rename_i hty
    have hkeep : (n.stepSnapStatus m).role_ = n.role_ ∧ (n.stepSnapStatus m).term_ = n.term_ := by
      have hserved : Served n m (n.stepSnapStatus m) := stepSnapStatus_served hty
      have hcommit := maybeCommit_office (n.heard m)
      cases hserved with
      | ignored _ h => exact ⟨h.role, h.term⟩
      | noted _ _ h => exact ⟨h.role, h.term⟩
      | confirmed _ _ _ h => exact ⟨h.role.trans hcommit.1, h.term.trans hcommit.2⟩
      | proposed hprop => exact absurd (hty.symm.trans hprop) (by decide)
    exact Or.inl ⟨hkeep.1.symm.trans h, hkeep.2⟩
  · rename_i h2 h3
    dsimp only at h ⊢
    by_cases hraise : m.term > n.term_ ∧ m.type ≠ .msgPreVote ∧ m.type ≠ .msgPreVoteResp
    · have hup : n.raiseTerm m draw = n.becomeFollower m.term 0 draw := if_pos hraise
      have hnew : ¬ m.term < (n.becomeFollower m.term 0 draw).term_ := Nat.lt_irrefl _
      rw [hup, if_neg hnew] at h ⊢
      exact Or.inr (stepFollower_elects (n := n.becomeFollower m.term 0 draw) rfl h)
    · have hsame : n.raiseTerm m draw = n := if_neg hraise
      rw [hsame] at h ⊢
      by_cases hstale : m.term < n.term_
      · rw [if_pos hstale] at h ⊢
        exact Or.inl (hsend _ (rejectStale_dispatched n m) h)
      · rw [if_neg hstale] at h ⊢
        have hterm : m.type ≠ .msgPreVote → m.type ≠ .msgPreVoteResp → m.term = n.term_ := by
          intro hpv hpvr
          by_contra hne
          exact hraise ⟨by omega, hpv, hpvr⟩
        unfold RawNode.dispatch at h ⊢
        cases hr : n.role_ with
        | leader =>
          refine Or.inl ⟨rfl, ?_⟩
          have hserved : Served n m (n.stepLeader m) :=
            stepLeader_served hr (fun hty => hterm (by rw [hty]; decide) (by rw [hty]; decide)) h2 h3
          have hcommit := maybeCommit_office (n.heard m)
          cases hserved with
          | ignored _ h => exact h.term
          | noted _ _ h => exact h.term
          | confirmed _ _ _ h => exact h.term.trans hcommit.2
          | proposed _ h => exact h.term
        | candidate =>
          rw [hr] at h
          refine Or.inr (stepCandidate_elects (Or.inl hr) ?_ h)
          rintro (hty | hty | hty) <;> exact hterm (by rw [hty]; decide) (by rw [hty]; decide)
        | preCandidate =>
          rw [hr] at h
          refine Or.inr (stepCandidate_elects (Or.inr hr) ?_ h)
          rintro (hty | hty | hty) <;> exact hterm (by rw [hty]; decide) (by rw [hty]; decide)
        | follower =>
          rw [hr] at h
          exact Or.inr (stepFollower_elects hr h)

/-- The same for the clock. -/
theorem tick_leader_cases {draw : Nat} (h : (n.tick draw).2.role_ = .leader) :
    n.role_ = .leader ∨ Elects n (n.tick draw).2 := by
  by_cases hr : n.role_ = .leader
  · exact Or.inl hr
  · refine Or.inr ?_
    unfold RawNode.tick RawNode.tickElection at h ⊢
    rw [if_neg hr] at h ⊢
    dsimp only at h ⊢
    split at h
    · rename_i htick
      rw [if_pos htick]
      obtain ⟨n₀, hlog, hid, hvoters, hmark, hd⟩ :=
        campaign_elects (n := { n with tickCount_ := n.tickCount_ + 1 }) h
      exact ⟨n₀, hlog, hid, hvoters, hmark, hd.trans (.quiet rfl rfl rfl rfl rfl rfl rfl)⟩
    · exact absurd h hr

end Election

end NexusLOB.Raft
