import Mathlib.Logic.Relation
import NexusLOB.Consensus.Quorum
import NexusLOB.Raft.Frames

/-!
# What a call does to the node

Every call of a node between `poll` and `poll`, whatever its branches, is a sequence of a few
effects on its role, term, log and progress map. `Effect` lists them and each method has one lemma
that says which it has; invariants of single nodes are then proved effect by effect.
-/

namespace NexusLOB.Raft

open Collections

/-- The part of a node the effects are about. -/
structure View where
  role : Role
  term : Nat
  log : RaftLog
  pr : OrderedMap NodeId Progress less

def RawNode.view (n : RawNode) : View :=
  { role := n.role_, term := n.term_, log := n.log_, pr := n.pr_ }

/-- No peer is known to hold, or be sent a snapshot, beyond `b`. -/
def Bounded (pr : OrderedMap NodeId Progress less) (b : Nat) : Prop :=
  ∀ v p, pr.find? v = some p → p.matchIndex ≤ b ∧ p.pendingSnapshotIndex ≤ b

/-- The effects of a call on a node whose log was `l₀` before the call, made with `msg` if the
call is the step of a message. -/
inductive Effect (l₀ : RaftLog) (msg : Option Message) : View → View → Prop
  | turn {v : View} {role : Role} {t : Nat} (ht : v.term ≤ t)
      (hr : role = .follower ∨ (role = .candidate ∧ v.term < t)) :
      Effect l₀ msg v { v with role := role, term := t }
  | lead {v : View} {pr : OrderedMap NodeId Progress less} (hr : v.role ≠ .follower)
      (hm : ∀ {m}, msg = some m → m.type ≠ .msgAppResp)
      (hb : ∀ {b}, v.log.lastIndex ≤ b → Bounded pr b) :
      Effect l₀ msg v { v with role := .leader, pr := pr }
  | track {v : View} {pr : OrderedMap NodeId Progress less}
      (hb : ∀ {b}, v.log.lastIndex ≤ b → v.log.snapshot.index ≤ b →
        (∀ {m}, msg = some m → m.type = .msgAppResp → m.reject = false → v.role = .leader →
          m.term = v.term → m.index ≤ b) → Bounded v.pr b → Bounded pr b) :
      Effect l₀ msg v { v with pr := pr }
  | append {v : View} {e : Entry} (hr : v.role = .leader) (ht : e.term = v.term)
      (hi : e.index = v.log.lastIndex + 1) :
      Effect l₀ msg v { v with log := (v.log.append [e]).2 }
  | commit {v : View} {k : Nat}
      (hr : v.role = .leader ∨ ∃ m, msg = some m ∧ m.type = .msgSnapStatus)
      (hgt : v.log.committed_ < k) (ht : v.log.term k = v.term)
      (hk : ∀ {b}, v.log.lastIndex ≤ b → Bounded v.pr b → k ≤ b) :
      Effect l₀ msg v { v with log := { v.log with committed_ := k } }
  | accept {v : View} {m : Message} (hm : msg = some m) (hty : m.type = .msgApp)
      (hl : v.log = l₀) (ht : m.term = v.term) (hr : v.role = .follower) :
      Effect l₀ msg v { v with log := (v.log.maybeAppend m.index m.logTerm m.commit m.entries).2 }
  | heartbeat {v : View} {m : Message} (hm : msg = some m) (hty : m.type = .msgHeartbeat)
      (hl : v.log = l₀) (ht : m.term = v.term) :
      Effect l₀ msg v { v with log := v.log.commitTo m.commit }
  | restore {v : View} {m : Message} {pr : OrderedMap NodeId Progress less} (hm : msg = some m)
      (hty : m.type = .msgSnap) (hl : v.log = l₀) (ht : m.term = v.term) (hr : v.role = .follower) :
      Effect l₀ msg v { v with log := v.log.restore m.snapshot, pr := pr }

/-- `n'` comes from `n` by effects; what `poll` and `advance` keep for themselves and what is
configured stays. -/
structure Effects (l₀ : RaftLog) (msg : Option Message) (n n' : RawNode) : Prop where
  view : Relation.ReflTransGen (Effect l₀ msg) n.view n'.view
  id : n'.id_ = n.id_
  lastReadyLastIndex : n'.lastReadyLastIndex_ = n.lastReadyLastIndex_
  lastReadyApplied : n'.lastReadyApplied_ = n.lastReadyApplied_

section Effects

variable {l₀ : RaftLog} {msg : Option Message} {n n' n'' : RawNode}

theorem Effects.refl (n : RawNode) : Effects l₀ msg n n := ⟨.refl, rfl, rfl, rfl⟩

theorem Effects.trans (h : Effects l₀ msg n n') (h' : Effects l₀ msg n' n'') :
    Effects l₀ msg n n'' :=
  ⟨h.view.trans h'.view, h'.id.trans h.id,
    h'.lastReadyLastIndex.trans h.lastReadyLastIndex,
    h'.lastReadyApplied.trans h.lastReadyApplied⟩

/-- A change outside the view. -/
theorem Effects.quiet (hv : n'.view = n.view) (hid : n'.id_ = n.id_)
    (hl : n'.lastReadyLastIndex_ = n.lastReadyLastIndex_)
    (ha : n'.lastReadyApplied_ = n.lastReadyApplied_) : Effects l₀ msg n n' :=
  ⟨by rw [hv], hid, hl, ha⟩

theorem Effects.one (h : Effect l₀ msg n.view n'.view) (hid : n'.id_ = n.id_)
    (hl : n'.lastReadyLastIndex_ = n.lastReadyLastIndex_)
    (ha : n'.lastReadyApplied_ = n.lastReadyApplied_) : Effects l₀ msg n n' :=
  ⟨.single h, hid, hl, ha⟩

/-- What every effect preserves, a call preserves. -/
theorem Effects.preserves {P : View → Prop} (h : Effects l₀ msg n n')
    (hP : ∀ {v v'}, Effect l₀ msg v v' → P v → P v') (h₀ : P n.view) : P n'.view := by
  have hrun := h.view
  generalize n'.view = w at hrun
  induction hrun with
  | refl => exact h₀
  | tail _ hstep ih => exact hP hstep ih

theorem maybeAppend_storage (l : RaftLog) (prev pt lc : Nat) (ents : List Entry) :
    (l.maybeAppend prev pt lc ents).2.storage_ = l.storage_ := by
  unfold RaftLog.maybeAppend
  dsimp only
  split_ifs <;> rfl

/-- No call writes to the store. -/
theorem Effects.storage (h : Effects l₀ msg n n') : n'.log_.storage_ = n.log_.storage_ := by
  refine h.preserves (P := fun v => v.log.storage_ = n.log_.storage_) ?_ rfl
  intro v v' he hv
  cases he with
  | turn | lead | track | commit => exact hv
  | append =>
    simp only [RaftLog.append]
    split
    · exact hv
    · exact hv
  | accept => rw [maybeAppend_storage, hv]
  | heartbeat =>
    simp only [RaftLog.commitTo]
    split
    · exact hv
    · exact hv
  | restore => exact hv

/-! ## Progress -/

theorem Bounded.modify {pr : OrderedMap NodeId Progress less} {b : Nat} {id : NodeId}
    {f : Progress → Progress} (h : Bounded pr b)
    (hf : ∀ {p}, p.matchIndex ≤ b → p.pendingSnapshotIndex ≤ b →
      (f p).matchIndex ≤ b ∧ (f p).pendingSnapshotIndex ≤ b) : Bounded (pr.modify id f) b := by
  intro v p hp
  by_cases hv : id = v
  · subst hv
    rw [OrderedMap.find?_modify_self, Option.map_eq_some_iff] at hp
    obtain ⟨q, hq, rfl⟩ := hp
    exact hf (h _ _ hq).1 (h _ _ hq).2
  · rw [OrderedMap.find?_modify_of_ne _ _ hv] at hp
    exact h _ _ hp

theorem Bounded.mono {pr : OrderedMap NodeId Progress less} {b b' : Nat} (h : Bounded pr b)
    (hle : b ≤ b') : Bounded pr b' :=
  fun v p hp => ⟨(h v p hp).1.trans hle, (h v p hp).2.trans hle⟩

theorem Bounded.insert {pr : OrderedMap NodeId Progress less} {b : Nat} {id : NodeId}
    {q : Progress} (h : Bounded pr b) (hq : q.matchIndex ≤ b ∧ q.pendingSnapshotIndex ≤ b) :
    Bounded (pr.insert id q) b := by
  intro v p hp
  by_cases hv : id = v
  · subst hv
    rw [OrderedMap.find?_insert_self] at hp
    exact Option.some.inj hp ▸ hq
  · rw [OrderedMap.find?_insert_of_ne _ _ hv] at hp
    exact h _ _ hp

/-- Changing one peer's progress without raising what is known about it. -/
theorem effects_modify {id : NodeId} {f : Progress → Progress}
    (hf : ∀ {b p}, n.log_.lastIndex ≤ b → n.log_.snapshot.index ≤ b →
      p.matchIndex ≤ b → p.pendingSnapshotIndex ≤ b →
      (f p).matchIndex ≤ b ∧ (f p).pendingSnapshotIndex ≤ b) :
    Effects l₀ msg n { n with pr_ := n.pr_.modify id f } :=
  .one (.track fun hl hs _ hb => hb.modify (hf hl hs)) rfl rfl rfl

/-! ## Sending -/

theorem send_effects (n : RawNode) (m : Message) : Effects l₀ msg n (n.send m) :=
  .quiet rfl rfl rfl rfl

theorem afterAppend_bounds {p p' : Progress} {ents : List Entry}
    (h : RawNode.afterAppend p ents = some p') :
    p'.nextIndex = p.nextIndex ∧ p'.matchIndex = p.matchIndex ∧
      p'.pendingSnapshotIndex = p.pendingSnapshotIndex := by
  unfold RawNode.afterAppend at h
  simp only [Option.map_eq_some_iff] at h
  obtain ⟨q, hq, rfl⟩ := h
  have hqp : q.nextIndex = p.nextIndex ∧ q.matchIndex = p.matchIndex ∧
      q.pendingSnapshotIndex = p.pendingSnapshotIndex := by
    split at hq
    · rw [Option.map_eq_some_iff] at hq
      obtain ⟨f, -, rfl⟩ := hq
      exact ⟨rfl, rfl, rfl⟩
    · obtain rfl := Option.some.inj hq
      exact ⟨rfl, rfl, rfl⟩
  split_ifs <;> exact hqp

theorem sendAppend_effects (n : RawNode) (target : NodeId) :
    Effects l₀ msg n (n.sendAppend target) := by
  have hpost := sendAppend_posted n target
  generalize n.sendAppend target = n' at hpost ⊢
  cases hpost with
  | silent => exact .refl n
  | snapshot hp hm =>
    have hmod : Effects l₀ msg n { n with
        pr_ := n.pr_.modify target fun pr => pr.becomeSnapshot n.log_.snapshot.index } :=
      effects_modify fun _ hs hm _ => ⟨hm, hs⟩
    exact hmod.trans (send_effects _ _)
  | @append p p' ents m hp hp' hm =>
    obtain ⟨-, hm, hs⟩ := afterAppend_bounds hp'
    -- the new progress replaces the one that was found
    have hmod : Effects l₀ msg n { n with pr_ := n.pr_.modify target fun _ => p' } := by
      refine .one (.track fun _ _ _ hb => ?_) rfl rfl rfl
      intro v q hq
      by_cases hv : target = v
      · subst hv
        rw [OrderedMap.find?_modify_self, hp] at hq
        obtain rfl := Option.some.inj hq
        rw [hm, hs]
        exact hb _ _ hp
      · rw [OrderedMap.find?_modify_of_ne _ _ hv] at hq
        exact hb _ _ hq
    exact hmod.trans (send_effects _ _)

theorem effects_closed (n : RawNode) : SendClosed (Effects l₀ msg n) where
  sendAppend := fun h id => h.trans (sendAppend_effects _ id)
  heartbeat := fun h _ _ => h.trans (send_effects _ _)
  answer := fun h _ _ => h.trans (send_effects _ _)
  reads := fun h _ _ _ => h.trans (.quiet rfl rfl rfl rfl)

theorem broadcastAppend_effects (n : RawNode) : Effects l₀ msg n n.broadcastAppend :=
  (effects_closed n).broadcastAppend (.refl n)

/-! ## The leader -/

theorem markSelf_effects (n : RawNode) : Effects l₀ msg n n.markSelf :=
  effects_modify fun hl _ _ hs => ⟨hl, hs⟩

theorem append_effects {e : Entry} (hr : n.role_ = .leader) (ht : e.term = n.term_)
    (hi : e.index = n.log_.lastIndex + 1) :
    Effects l₀ msg n { n with log_ := (n.log_.append [e]).2 } :=
  .one (.append hr ht hi) rfl rfl rfl

theorem proposal_effects (n : RawNode) (data : Bytes) : Effects l₀ msg n (n.propose data).2 := by
  unfold RawNode.propose
  split_ifs with hr
  · exact .refl n
  · rw [not_not] at hr
    dsimp only
    refine Effects.trans ?_ (broadcastAppend_effects _)
    refine Effects.trans ?_ (markSelf_effects _)
    let e : Entry :=
      { term := n.term_, index := n.log_.lastIndex + 1, type := .normal, data := data }
    have happ : Effects l₀ msg n { n with log_ := (n.log_.append [e]).2 } :=
      append_effects hr rfl rfl
    refine happ.trans (.one (.track fun _ _ _ hb => ?_) rfl rfl rfl)
    dsimp only
    split
    · exact hb
    · exact hb.insert ⟨Nat.zero_le _, Nat.zero_le _⟩

theorem propose_effects (n : RawNode) (data : Bytes) : Effects n.log_ none n (n.propose data).2 :=
  proposal_effects n data

/-- A leader's proposal appends one entry to its log. -/
theorem propose_log (n : RawNode) (data : Bytes) :
    (n.propose data).2.log_ = if n.role_ = .leader then
      (n.log_.append [Entry.mk n.term_ (n.log_.lastIndex + 1) .normal data]).2 else n.log_ := by
  unfold RawNode.propose
  by_cases hr : n.role_ = .leader
  · rw [if_neg (not_not_intro hr), if_pos hr]
    exact broadcastAppend_log _
  · rw [if_pos hr, if_neg hr]

theorem propose_office (n : RawNode) (data : Bytes) :
    (n.propose data).2.role_ = n.role_ ∧ (n.propose data).2.term_ = n.term_ :=
  ⟨(propose_worked n data).role, (propose_worked n data).term⟩

theorem propose_accepts (n : RawNode) (data : Bytes) :
    (n.propose data).1 = true ↔ n.role_ = .leader := by
  unfold RawNode.propose
  by_cases hr : n.role_ = .leader
  · rw [if_neg (not_not_intro hr)]
    exact iff_of_true rfl hr
  · rw [if_pos hr]
    exact iff_of_false Bool.false_ne_true hr

/-- The quorum's index is one of the match indexes, the end of the log, or 0. -/
theorem quorumIndex_le (n : RawNode) {b : Nat} (hl : n.log_.lastIndex ≤ b) (hb : Bounded n.pr_ b) :
    (n.matchIndexes.insertionSort (· ≥ ·)).getD (n.quorum - 1) 0 ≤ b := by
  refine Consensus.getD_insertionSort_le (fun x hx => ?_) _
  rw [RawNode.matchIndexes, List.mem_map] at hx
  obtain ⟨⟨v, p⟩, hmem, rfl⟩ := hx
  dsimp only
  split
  · exact hl
  · exact (hb _ _ (n.pr_.find?_eq_some_iff.mpr hmem)).1

/-- `maybeCommit` moves the commit index up to the quorum's index, or does nothing. -/
theorem maybeCommit_cases (n : RawNode) :
    n.maybeCommit = (false, n) ∨
      ∃ k, k = (n.matchIndexes.insertionSort (· ≥ ·)).getD (n.quorum - 1) 0 ∧
        n.log_.committed_ < k ∧ n.log_.term k = n.term_ ∧
        n.maybeCommit = (true, { n with log_ := { n.log_ with committed_ := k } }) := by
  generalize hk : (n.matchIndexes.insertionSort (· ≥ ·)).getD (n.quorum - 1) 0 = k
  have hbody : n.maybeCommit = if k > n.log_.committed_ ∧ n.log_.term k = n.term_ then
      (true, { n with log_ := (n.log_.maybeCommit k n.term_).2 }) else (false, n) := by
    subst hk
    rfl
  by_cases hc : k > n.log_.committed_ ∧ n.log_.term k = n.term_
  · refine Or.inr ⟨k, rfl, hc.1, hc.2, ?_⟩
    rw [hbody, if_pos hc, RaftLog.maybeCommit, if_pos hc]
  · exact Or.inl (by rw [hbody, if_neg hc])

/-- Nothing but the commit index changes. -/
theorem maybeCommit_eq (n : RawNode) :
    ∃ k, n.maybeCommit.2 = { n with log_ := { n.log_ with committed_ := k } } := by
  rcases maybeCommit_cases n with heq | ⟨k, -, -, -, heq⟩
  · exact ⟨n.log_.committed_, by rw [heq]⟩
  · exact ⟨k, by rw [heq]⟩

theorem maybeCommit_effects
    (hr : n.role_ = .leader ∨ ∃ m, msg = some m ∧ m.type = .msgSnapStatus) :
    Effects l₀ msg n n.maybeCommit.2 := by
  rcases maybeCommit_cases n with heq | ⟨k, hk, hgt, hterm, heq⟩
  · rw [heq]
    exact .refl n
  · rw [heq]
    exact .one (.commit hr hgt hterm fun hl hb => hk ▸ quorumIndex_le n hl hb) rfl rfl rfl

theorem resetProgress_bounded (n : RawNode) {b : Nat} : Bounded n.resetProgress b := by
  have hfill : ∀ (voters : List NodeId) (pr : OrderedMap NodeId Progress less), Bounded pr b →
      Bounded (voters.foldl (fun pr id => pr.insert id ((Progress.new n.maxInflightMsgs_
        (id ∈ n.learners_)).reset n.log_.lastIndex)) pr) b := by
    intro voters
    induction voters with
    | nil => exact fun _ h => h
    | cons id rest ih =>
      intro pr h
      exact ih _ (h.insert ⟨Nat.zero_le _, Nat.zero_le _⟩)
  have hempty : Bounded (.empty : OrderedMap NodeId Progress less) b := fun _ _ h => nomatch h
  unfold RawNode.resetProgress
  dsimp only
  split
  · exact hfill _ _ hempty
  · exact (hfill _ _ hempty).insert ⟨Nat.zero_le _, Nat.zero_le _⟩

theorem becomeLeader_effects (hr : n.role_ ≠ .follower)
    (hm : ∀ {m}, msg = some m → m.type ≠ .msgAppResp) : Effects l₀ msg n n.becomeLeader := by
  let lead : RawNode :=
    { n with role_ := .leader, lead_ := n.id_, tickCount_ := 0, pr_ := n.resetProgress }
  have hlead : Effects l₀ msg n lead :=
    .one (.lead hr hm fun _ => resetProgress_bounded n) rfl rfl rfl
  have hmark := hlead.trans (markSelf_effects lead)
  have hrep : Effects l₀ msg n
      { lead.markSelf with pr_ := lead.markSelf.pr_.modify n.id_ Progress.becomeReplicate } :=
    hmark.trans (effects_modify fun _ _ hm hs => ⟨hm, hs⟩)
  unfold RawNode.becomeLeader
  refine Effects.trans ?_ (broadcastAppend_effects _)
  dsimp only
  split
  · exact (hrep.trans (append_effects rfl rfl rfl)).trans (markSelf_effects _)
  · exact hrep

theorem readIndex_effects (n : RawNode) (ctx : Bytes) :
    Effects n.log_ none n (n.readIndex ctx).2 :=
  (effects_closed n).readIndex (.refl n) ctx

theorem readIndex_log (n : RawNode) (ctx : Bytes) : (n.readIndex ctx).2.log_ = n.log_ := by
  unfold RawNode.readIndex
  dsimp only
  split_ifs
  · rfl
  · rfl
  · exact forPeers_induction (P := fun n' => n'.log_ = n.log_) rfl fun _ _ h => h
  · rfl

/-! ## Elections -/

theorem becomeFollower_effects {t : Nat} (ht : n.term_ ≤ t) (lead : NodeId) (draw : Nat) :
    Effects l₀ msg n (n.becomeFollower t lead draw) :=
  .one (.turn ht (Or.inl rfl)) rfl rfl rfl

theorem campaign_effects (n : RawNode) (draw : Nat)
    (hm : ∀ {m}, msg = some m → m.type ≠ .msgAppResp) : Effects l₀ msg n (n.campaign draw) := by
  have hcand : Effects l₀ msg n (n.becomeCandidate draw) :=
    .one (.turn (Nat.le_succ _) (Or.inr ⟨rfl, Nat.lt_succ_self _⟩)) rfl rfl rfl
  by_cases hq : n.quorum = 1
  · rw [campaign_alone hq]
    exact hcand.trans (becomeLeader_effects nofun hm)
  · rw [campaign_eq hq]
    exact hcand.trans (.quiet rfl rfl rfl rfl)

theorem pollVote_effects (hr : n.role_ ≠ .follower)
    (hm : ∀ {m}, msg = some m → m.type ≠ .msgAppResp) (voter : NodeId) (granted : Bool) :
    Effects l₀ msg n (n.pollVote voter granted) := by
  have hcount : Effects l₀ msg n { n with votes_ := n.votes_ ++ [voter] } := .quiet rfl rfl rfl rfl
  unfold RawNode.pollVote
  dsimp only
  split_ifs
  · exact .refl n
  · exact hcount.trans (becomeLeader_effects hr hm)
  · exact hcount
  · exact .refl n

end Effects

/-! ## Messages -/

section Messages

variable {l₀ : RaftLog} {n : RawNode} {m : Message}

theorem stepLeaderAppResp_effects (hr : n.role_ = .leader) (ht : m.term = n.term_)
    (hty : m.type = .msgAppResp) : Effects l₀ (some m) n (n.stepLeaderAppResp m) := by
  unfold RawNode.stepLeaderAppResp
  split
  · exact .refl n
  · split
    · have hmod : Effects l₀ (some m) n
          { n with pr_ := n.pr_.modify m.sender (RawNode.rejectProgress m.index m.rejectHint) } := by
        refine effects_modify fun _ _ hm hs => ?_
        unfold RawNode.rejectProgress Progress.maybeDecrFromRejectHint Progress.becomeProbe
        dsimp only
        split_ifs <;> exact ⟨hm, by omega⟩
      exact hmod.trans (sendAppend_effects _ _)
    · rename_i hrej
      have hrej' : m.reject = false := by simpa using hrej
      have hmod : Effects l₀ (some m) n
          { n with pr_ := n.pr_.modify m.sender (RawNode.acceptProgress m.index) } := by
        refine .one (.track fun _ _ hm hb => hb.modify fun hp hs => ?_) rfl rfl rfl
        have hi := hm rfl hty hrej' hr ht
        unfold RawNode.acceptProgress Progress.update Progress.becomeReplicate
        dsimp only
        split_ifs <;> exact ⟨Nat.max_le.mpr ⟨hp, hi⟩, hs⟩
      have hcom : Effects l₀ (some m) n _ := hmod.trans (maybeCommit_effects (Or.inl hr))
      dsimp only
      generalize RawNode.maybeCommit _ = res at hcom ⊢
      obtain ⟨committed, n₂⟩ := res
      have hsent : Effects l₀ (some m) n (if committed = true then n₂.broadcastAppend else n₂) := by
        split
        · exact hcom.trans (broadcastAppend_effects _)
        · exact hcom
      split
      · split
        · exact hsent.trans (sendAppend_effects _ _)
        · exact hsent
      · exact hsent

theorem stepLeader_effects (hr : n.role_ = .leader) (ht : m.type = .msgAppResp → m.term = n.term_) :
    Effects l₀ (some m) n (n.stepLeader m) := by
  unfold RawNode.stepLeader
  split
  · exact proposal_effects n _
  · rename_i hty
    exact stepLeaderAppResp_effects hr (ht hty) hty
  · exact (effects_closed n).stepLeaderHeartbeatResp (.refl n) m
  · exact (effects_closed n).stepLeaderReadIndex (.refl n) m
  · exact .refl n

theorem forward_effects (n : RawNode) (m : Message) : Effects l₀ (some m) n (n.forward m) := by
  unfold RawNode.forward
  split
  · exact .refl n
  · exact send_effects n _

theorem stepFollowerApp_eq (n : RawNode) (m : Message) :
    n.stepFollowerApp m =
      { n with
        lead_ := m.sender
        tickCount_ := 0
        log_ := (n.log_.maybeAppend m.index m.logTerm m.commit m.entries).2 }.send
          (if (n.log_.maybeAppend m.index m.logTerm m.commit m.entries).1 then
            { type := .msgAppResp, receiver := m.sender, sender := n.id_, term := n.term_,
              index := m.index + m.entries.length }
          else
            { type := .msgAppResp, receiver := m.sender, sender := n.id_, term := n.term_,
              reject := true, index := m.index,
              rejectHint :=
                (n.log_.maybeAppend m.index m.logTerm m.commit m.entries).2.lastIndex }) := by
  unfold RawNode.stepFollowerApp
  cases hok : (n.log_.maybeAppend m.index m.logTerm m.commit m.entries).1 <;> simp [hok]

theorem stepFollowerHeartbeat_eq (n : RawNode) (m : Message) :
    n.stepFollowerHeartbeat m =
      { n with lead_ := m.sender, tickCount_ := 0, log_ := n.log_.commitTo m.commit }.send
        { type := .msgHeartbeatResp, receiver := m.sender, sender := n.id_, term := n.term_ } := by
  unfold RawNode.stepFollowerHeartbeat
  by_cases hc : m.commit > n.log_.commitIndex
  · simp only [if_pos hc]
  · have hto : n.log_.commitTo m.commit = n.log_ := if_neg hc
    simp only [if_neg hc, hto]

theorem stepFollowerVote_effects (n : RawNode) (m : Message) :
    Effects l₀ (some m) n (n.stepFollowerVote m) := by
  unfold RawNode.stepFollowerVote
  dsimp only
  split <;> exact .quiet rfl rfl rfl rfl

theorem type_ne_of_eq {t t' : MessageType} (hty : m.type = t) (hne : t ≠ t') {m' : Message}
    (hm : some m = some m') : m'.type ≠ t' := by
  cases hm
  rw [hty]
  exact hne

theorem stepFollower_effects (hr : n.role_ = .follower) (hl : n.log_ = l₀)
    (ht : m.type ≠ .msgPreVote → m.type ≠ .msgPreVoteResp → m.term = n.term_) (draw : Nat) :
    Effects l₀ (some m) n (n.stepFollower m draw) := by
  unfold RawNode.stepFollower
  split <;> rename_i hty
  · exact forward_effects n m
  · have hterm := ht (by rw [hty]; decide) (by rw [hty]; decide)
    have hacc : Effect l₀ (some m) n.view _ := .accept rfl hty hl hterm hr
    rw [stepFollowerApp_eq]
    exact Effects.one hacc rfl rfl rfl
  · have hterm := ht (by rw [hty]; decide) (by rw [hty]; decide)
    have hbeat : Effect l₀ (some m) n.view _ := .heartbeat rfl hty hl hterm
    rw [stepFollowerHeartbeat_eq]
    exact Effects.one hbeat rfl rfl rfl
  · exact .one (.restore rfl hty hl (ht (by rw [hty]; decide) (by rw [hty]; decide)) hr) rfl rfl rfl
  · exact stepFollowerVote_effects n m
  · exact stepFollowerVote_effects n m
  · exact forward_effects n m
  · exact .quiet rfl rfl rfl rfl
  · exact campaign_effects n draw (type_ne_of_eq hty (by decide))
  · exact .refl n

theorem stepCandidate_effects (hr : n.role_ ≠ .follower) (hl : n.log_ = l₀)
    (ht : m.type ≠ .msgPreVote → m.type ≠ .msgPreVoteResp → m.term = n.term_) (draw : Nat) :
    Effects l₀ (some m) n (n.stepCandidate m draw) := by
  have hfollow : m.term = n.term_ → Effects l₀ (some m) n
      ((if m.term = n.term_ then n.becomeFollower m.term m.sender draw else n).stepFollower m
        draw) := by
    intro hterm
    rw [if_pos hterm]
    have hturn : Effects l₀ (some m) n (n.becomeFollower m.term m.sender draw) :=
      becomeFollower_effects hterm.ge _ _
    exact hturn.trans (stepFollower_effects (n := n.becomeFollower m.term m.sender draw) rfl hl
      (fun _ _ => rfl) draw)
  unfold RawNode.stepCandidate
  split <;> rename_i hty
  · exact pollVote_effects hr (type_ne_of_eq hty (by decide)) _ _
  · exact pollVote_effects hr (type_ne_of_eq hty (by decide)) _ _
  · exact hfollow (ht (by rw [hty]; decide) (by rw [hty]; decide))
  · exact hfollow (ht (by rw [hty]; decide) (by rw [hty]; decide))
  · exact hfollow (ht (by rw [hty]; decide) (by rw [hty]; decide))
  · exact campaign_effects n draw (type_ne_of_eq hty (by decide))
  · exact .refl n

theorem dispatch_effects (hl : n.log_ = l₀)
    (ht : m.type ≠ .msgPreVote → m.type ≠ .msgPreVoteResp → m.term = n.term_) (draw : Nat) :
    Effects l₀ (some m) n (n.dispatch m draw) := by
  unfold RawNode.dispatch
  split <;> rename_i hr
  · exact stepLeader_effects hr fun hty => ht (by rw [hty]; decide) (by rw [hty]; decide)
  · exact stepCandidate_effects (by rw [hr]; decide) hl ht draw
  · exact stepCandidate_effects (by rw [hr]; decide) hl ht draw
  · exact stepFollower_effects hr hl ht draw

theorem rejectStale_effects (n : RawNode) (m : Message) :
    Effects l₀ (some m) n (n.rejectStale m) := by
  unfold RawNode.rejectStale
  dsimp only
  split <;> first | exact send_effects n _ | exact .refl n

theorem stepSnapStatus_effects (hty : m.type = .msgSnapStatus) :
    Effects l₀ (some m) n (n.stepSnapStatus m) := by
  unfold RawNode.stepSnapStatus
  split
  · exact .refl n
  · split
    · refine effects_modify fun _ _ hm hs => ⟨hm, ?_⟩
      unfold Progress.becomeProbe
      dsimp only
      split
      · exact Nat.zero_le _
      · exact hs
    · refine Effects.trans (effects_modify fun _ _ _ hs => ?_)
        (maybeCommit_effects (Or.inr ⟨m, rfl, hty⟩))
      unfold Progress.becomeProbe
      dsimp only
      split
      · exact ⟨Nat.zero_le _, Nat.zero_le _⟩
      · exact ⟨hs, hs⟩

theorem stepUnreachable_effects (n : RawNode) (m : Message) :
    Effects l₀ (some m) n (n.stepUnreachable m) := by
  refine effects_modify fun _ _ hm hs => ⟨hm, ?_⟩
  unfold Progress.becomeProbe
  dsimp only
  split
  · exact Nat.zero_le _
  · exact hs

theorem step_effects (n : RawNode) (m : Message) (draw : Nat) :
    Effects n.log_ (some m) n (n.step m draw) := by
  have hraise : Effects n.log_ (some m) n (n.raiseTerm m draw) := by
    unfold RawNode.raiseTerm
    split
    · rename_i hgt
      exact becomeFollower_effects hgt.1.le _ _
    · exact .refl n
  have hlog : (n.raiseTerm m draw).log_ = n.log_ := by
    unfold RawNode.raiseTerm
    split <;> rfl
  -- a message that is not stale is of the node's term, unless it is a pre-vote
  have hterm : m.type ≠ .msgPreVote → m.type ≠ .msgPreVoteResp →
      m.term ≤ (n.raiseTerm m draw).term_ := by
    intro hpv hpvr
    unfold RawNode.raiseTerm
    split
    · exact le_rfl
    · rename_i hgt
      exact Nat.le_of_not_lt fun hlt => hgt ⟨hlt, hpv, hpvr⟩
  unfold RawNode.step
  split
  · exact stepUnreachable_effects n m
  · exact stepSnapStatus_effects (by assumption)
  · dsimp only
    split
    · exact hraise.trans (rejectStale_effects _ _)
    · rename_i hge
      refine hraise.trans (dispatch_effects hlog (fun hpv hpvr => ?_) draw)
      have := hterm hpv hpvr
      omega

theorem tick_effects (n : RawNode) (draw : Nat) : Effects n.log_ none n (n.tick draw).2 := by
  have hcount : Effects n.log_ none n { n with tickCount_ := n.tickCount_ + 1 } :=
    .quiet rfl rfl rfl rfl
  have hreset : ∀ n' : RawNode, Effects n.log_ none n' { n' with tickCount_ := 0 } :=
    fun _ => .quiet rfl rfl rfl rfl
  unfold RawNode.tick RawNode.tickElection
  dsimp only
  split_ifs
  · exact ((effects_closed n).heartbeats hcount []).trans (hreset _)
  · exact hcount
  · exact (hcount.trans (campaign_effects _ draw nofun)).trans (hreset _)
  · exact hcount

end Messages

end NexusLOB.Raft
