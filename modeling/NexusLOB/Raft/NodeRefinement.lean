import NexusLOB.Raft.NodeEffects
import NexusLOB.Raft.Refinement

/-!
# Every method of the node stays within reach

One lemma for each method of `RawNode`, from the small ones up to `step` and `tick`: from a node
that tracks states of the election and replication systems, the method leads to a node that can
be reached by steps of these systems.
-/

namespace NexusLOB.Raft

open Collections Consensus

/-! ## Progress -/

section Progress

variable {members : List NodeId} {id v : NodeId} {last : Nat}
  {pr : OrderedMap NodeId Progress less} {matched : NodeId → Nat}

/-- Changing one peer's progress within the bounds. -/
theorem ProgressOk.modify (h : ProgressOk members id last pr matched) {f : Progress → Progress}
    {matched' : NodeId → Nat} (hle : ∀ w, matched w ≤ matched' w)
    (hf : ∀ {p}, pr.find? v = some p → 1 ≤ (f p).nextIndex ∧ (f p).nextIndex ≤ last + 1 ∧
      (f p).matchIndex ≤ last ∧ (v ≠ id → (f p).matchIndex ≤ matched' v)) :
    ProgressOk members id last (pr.modify v f) matched' := by
  have hfind : ∀ {w p}, (pr.modify v f).find? w = some p →
      (w = v ∧ ∃ q, pr.find? v = some q ∧ f q = p) ∨ pr.find? w = some p := by
    intro w p hw
    by_cases hv : v = w
    · subst hv
      rw [OrderedMap.find?_modify_self, Option.map_eq_some_iff] at hw
      exact Or.inl ⟨rfl, hw⟩
    · rw [OrderedMap.find?_modify_of_ne _ _ hv] at hw
      exact Or.inr hw
  refine
    { keys := by
        rw [OrderedMap.keys_modify]
        exact h.keys
      next_pos := ?_
      next_le := ?_
      match_le := ?_
      match_acked := ?_ }
  · intro w p hw
    rcases hfind hw with ⟨-, q, hq, rfl⟩ | hw
    · exact (hf hq).1
    · exact h.next_pos hw
  · intro w p hw
    rcases hfind hw with ⟨-, q, hq, rfl⟩ | hw
    · exact (hf hq).2.1
    · exact h.next_le hw
  · intro w p hw
    rcases hfind hw with ⟨-, q, hq, rfl⟩ | hw
    · exact (hf hq).2.2.1
    · exact h.match_le hw
  · intro w p hw hne
    rcases hfind hw with ⟨rfl, q, hq, rfl⟩ | hw
    · exact (hf hq).2.2.2 hne
    · exact (h.match_acked hw hne).trans (hle w)

/-- A change that keeps the match index and keeps the next index within the log. -/
theorem ProgressOk.modify_next (h : ProgressOk members id last pr matched)
    {f : Progress → Progress}
    (hf : ∀ {p}, pr.find? v = some p → 1 ≤ (f p).nextIndex ∧ (f p).nextIndex ≤ last + 1 ∧
      (f p).matchIndex = p.matchIndex) :
    ProgressOk members id last (pr.modify v f) matched := by
  refine h.modify (fun _ => le_rfl) ?_
  intro p hp
  obtain ⟨h1, h2, h3⟩ := hf hp
  rw [h3]
  exact ⟨h1, h2, h.match_le hp, fun hne => h.match_acked hp hne⟩

/-- The node's own progress may be set to the end of its log. -/
theorem ProgressOk.modify_self (h : ProgressOk members id last pr matched)
    {f : Progress → Progress}
    (hf : ∀ {p}, pr.find? id = some p → (f p).nextIndex = last + 1 ∧ (f p).matchIndex ≤ last) :
    ProgressOk members id last (pr.modify id f) matched := by
  refine h.modify (fun _ => le_rfl) ?_
  intro p hp
  obtain ⟨h1, h2⟩ := hf hp
  exact ⟨by omega, by omega, h2, fun hne => absurd rfl hne⟩

theorem ProgressOk.becomeProbe (h : ProgressOk members id last pr matched) :
    ProgressOk members id last (pr.modify v Progress.becomeProbe) matched := by
  refine h.modify_next ?_
  intro p hp
  have hpos := h.next_pos hp
  have hle := h.next_le hp
  exact ⟨hpos, hle, rfl⟩

/-- A rejection moves the next index back, at most to the rejected one. -/
theorem rejectProgress_cases (rejected hint : Nat) (p : Progress) :
    (RawNode.rejectProgress rejected hint p).matchIndex = p.matchIndex ∧
      ((RawNode.rejectProgress rejected hint p).nextIndex = p.nextIndex ∨
        (RawNode.rejectProgress rejected hint p).nextIndex = p.matchIndex + 1 ∨
        1 ≤ (RawNode.rejectProgress rejected hint p).nextIndex ∧
          (RawNode.rejectProgress rejected hint p).nextIndex ≤ max rejected 1) := by
  simp only [RawNode.rejectProgress, Progress.maybeDecrFromRejectHint, Progress.becomeProbe]
  by_cases hs : p.state = .replicate
  · simp only [if_pos hs]
    by_cases hm : rejected ≤ p.matchIndex
    · simp [if_pos hm]
    · simp [if_neg hm]
  · simp only [if_neg hs]
    by_cases hlt : rejected < p.nextIndex - 1
    · simp [if_pos hlt]
    · simp only [if_neg hlt, true_and]
      split_ifs <;> omega

theorem ProgressOk.reject (h : ProgressOk members id last pr matched) {rejected hint : Nat}
    (hr : rejected ≤ last) :
    ProgressOk members id last (pr.modify v (RawNode.rejectProgress rejected hint)) matched := by
  refine h.modify_next ?_
  intro p hp
  have h1 := h.next_pos hp
  have h2 := h.next_le hp
  have h3 := h.match_le hp
  obtain ⟨hm, hn⟩ := rejectProgress_cases rejected hint p
  refine ⟨by omega, by omega, hm⟩

/-- An acceptance raises the match index and lets the next index follow it, or keeps it. -/
theorem acceptProgress_cases (i : Nat) (p : Progress) :
    (RawNode.acceptProgress i p).matchIndex = max p.matchIndex i ∧
      ((RawNode.acceptProgress i p).nextIndex = p.nextIndex ∨
        (RawNode.acceptProgress i p).nextIndex = i + 1 ∨
        (RawNode.acceptProgress i p).nextIndex = max p.matchIndex i + 1) := by
  simp only [RawNode.acceptProgress, Progress.update, Progress.becomeReplicate]
  cases p.state <;> simp

theorem ProgressOk.accept (h : ProgressOk members id last pr matched) {i : Nat} (hi : i ≤ last) :
    ProgressOk members id last (pr.modify v (RawNode.acceptProgress i))
      (Function.update matched v (max (matched v) i)) := by
  refine h.modify ?_ ?_
  · intro w
    by_cases hw : w = v
    · subst hw
      rw [Function.update_self]
      exact le_max_left _ _
    · rw [Function.update_of_ne hw]
  · intro p hp
    have h1 := h.next_pos hp
    have h2 := h.next_le hp
    have h3 := h.match_le hp
    obtain ⟨hm, hn⟩ := acceptProgress_cases i p
    rw [Function.update_self, hm]
    refine ⟨by omega, by omega, by omega, ?_⟩
    intro hne
    have h4 := h.match_acked hp hne
    omega

/-- The match indexes of all peers, `last` standing for the node itself. -/
theorem ProgressOk.quorum (h : ProgressOk members id last pr matched) (hnd : members.Nodup)
    (hid : id ∈ members) {indexes : List Nat}
    (hidx : indexes = pr.bindings.map fun b => if b.1 = id then last else b.2.matchIndex) {k : Nat}
    (hk : k = (indexes.insertionSort (· ≥ ·)).getD (members.length / 2 + 1 - 1) 0) :
    k ≤ last ∧ ∃ Q, Majority members.toFinset Q ∧ ∀ v ∈ Q, v = id ∨ k ≤ matched v := by
  have hlen : indexes.length = members.length := by
    rw [hidx, List.length_map, ← h.keys.length_eq, OrderedMap.keys, List.length_map]
  have hpos : 0 < members.length := List.length_pos_of_mem hid
  constructor
  · have hall : ∀ x ∈ indexes.insertionSort (· ≥ ·), x ≤ last := by
      intro x hx
      rw [List.mem_insertionSort, hidx, List.mem_map] at hx
      obtain ⟨⟨v, p⟩, hb, rfl⟩ := hx
      dsimp only
      split_ifs
      · exact le_rfl
      · exact h.match_le (pr.find?_eq_some_iff.mpr hb)
    rw [hk, List.getD_eq_getElem?_getD]
    cases hget : (indexes.insertionSort (· ≥ ·))[members.length / 2 + 1 - 1]? with
    | none => exact Nat.zero_le _
    | some x => exact hall x (List.mem_of_getElem? hget)
  · let reached := pr.bindings.filter fun b =>
      decide (k ≤ if b.1 = id then last else b.2.matchIndex)
    have hsub : (reached.map Prod.fst).Sublist pr.keys := List.Sublist.map _ List.filter_sublist
    refine ⟨(reached.map Prod.fst).toFinset, majority_of_nodup hnd (hsub.nodup pr.keys_nodup) ?_ ?_, ?_⟩
    · intro v hv
      exact h.keys.mem_iff.mp (hsub.subset hv)
    · have hcount := le_countP_insertionSort (l := indexes) (q := members.length / 2 + 1)
        (by omega) (by omega)
      rw [← hk, hidx, List.countP_map] at hcount
      rw [List.length_map, ← List.countP_eq_length_filter]
      exact hcount
    · intro v hv
      rw [List.mem_toFinset, List.mem_map] at hv
      obtain ⟨⟨v, p⟩, hb, rfl⟩ := hv
      rw [List.mem_filter, decide_eq_true_iff] at hb
      by_cases hv : v = id
      · exact Or.inl hv
      · right
        have hle := hb.2
        rw [if_neg hv] at hle
        exact hle.trans (h.match_acked (pr.find?_eq_some_iff.mpr hb.1) hv)

end Progress

section Methods

variable {s : Setup} {strict : Prop}
  {draft : Option (Election.Ballot NodeId × Set (Election.Mail NodeId))}
  {e : Election.State NodeId} {r : Replication.State NodeId Entry} {n : RawNode}

theorem Reach.wf {c : Core} (h : Reach s strict draft e r c) : c.log.WF := by
  obtain ⟨_, _, _, _, ht⟩ := h
  exact ht.wf

/-- The node leads, within reach. -/
structure Leads (s : Setup) (strict : Prop)
    (draft : Option (Election.Ballot NodeId × Set (Election.Mail NodeId)))
    (e : Election.State NodeId) (r : Replication.State NodeId Entry) (n : RawNode) : Prop where
  reach : Reach s strict draft e r n.core
  role : n.role_ = .leader

theorem Leads.progress (h : Leads s strict draft e r n) :
    ∃ matched, ProgressOk s.members n.id_ n.log_.lastIndex n.pr_ matched := by
  obtain ⟨_, r₁, _, _, ht⟩ := h.reach
  exact ⟨_, ht.replica.progress h.role⟩

/-! ## Sending -/

/-- Without a snapshot there is none to send. -/
theorem sendSnapshot_of_wf (h : n.log_.WF) (target : NodeId) : n.sendSnapshot target = n := by
  have hsnap : n.log_.snapshot.index = 0 := by
    simp [RaftLog.snapshot, h.snapshot, WriteAheadLog.snapshot, h.snapIndex]
  unfold RawNode.sendSnapshot
  simp only [hsnap]
  split <;> rfl

/-- `sendAppend` sends a slice of the log after the next index, or does nothing. -/
theorem sendAppend_cases (h : n.log_.WF) (target : NodeId) :
    n.sendAppend target = n ∨ ∃ p p' ents, n.pr_.find? target = some p ∧
      p'.nextIndex = p.nextIndex ∧ p'.matchIndex = p.matchIndex ∧
      ents <+: n.log_.logical.drop (p.nextIndex - 1) ∧
      n.sendAppend target = { n with pr_ := n.pr_.modify target fun _ => p' }.send
        { type := .msgApp, receiver := target, sender := n.id_, term := n.term_,
          logTerm := n.log_.term (p.nextIndex - 1), index := p.nextIndex - 1,
          commit := n.log_.commitIndex, entries := ents } := by
  unfold RawNode.sendAppend
  simp only [sendSnapshot_of_wf h]
  split
  · exact Or.inl rfl
  rename_i p hp
  split_ifs
  · exact Or.inl rfl
  · exact Or.inl rfl
  · exact Or.inl rfl
  split
  · exact Or.inl rfl
  rename_i ents hents
  split_ifs
  · exact Or.inl rfl
  split
  · exact Or.inl rfl
  rename_i p' hp'
  obtain ⟨hn, hm, -⟩ := afterAppend_bounds hp'
  exact Or.inr ⟨p, p', ents, hp, hn, hm, (h.slice_isPrefix hents).trans (List.take_prefix _ _), rfl⟩

theorem Leads.sendAppend (h : Leads s strict draft e r n) (target : NodeId) :
    Leads s strict draft e r (n.sendAppend target) := by
  rcases sendAppend_cases h.reach.wf target with heq | ⟨p, p', ents, hp, hn, hm, hents, heq⟩
  · rw [heq]
    exact h
  · rw [heq]
    obtain ⟨_, hpr⟩ := h.progress
    have hle := hpr.next_le hp
    have hset : Reach s strict draft e r
        { n.core with pr := n.pr_.modify target fun _ => p' } := by
      refine h.reach.set_progress fun _ hok => hok.modify_next ?_
      intro q hq
      obtain rfl : p = q := Option.some.inj (hp.symm.trans hq)
      exact ⟨hn ▸ hok.next_pos hp, hn ▸ hok.next_le hp, hm⟩
    refine ⟨hset.send_append h.role rfl rfl ?_ rfl hents rfl, h.role⟩
    change p.nextIndex - 1 ≤ n.log_.lastIndex
    omega

theorem Leads.send_heartbeat (h : Leads s strict draft e r n) (target : NodeId) (ctx : Bytes) :
    Leads s strict draft e r (n.send (n.heartbeat target ctx)) :=
  ⟨h.reach.send_heartbeat h.role rfl rfl rfl, h.role⟩

theorem leads_closed : SendClosed (Leads s strict draft e r) where
  sendAppend := Leads.sendAppend
  heartbeat := Leads.send_heartbeat
  answer := fun {n} h {m} hty => by
    refine ⟨h.reach.send_quiet ?_ fun r' => ?_, h.role⟩
    · simp [mailOf, hty]
    · simp [Known, hty]
  reads := fun h _ _ _ => ⟨h.reach, h.role⟩

theorem Leads.broadcastAppend (h : Leads s strict draft e r n) :
    Leads s strict draft e r n.broadcastAppend := leads_closed.broadcastAppend h

/-! ## The leader's own log -/

theorem Leads.markSelf (h : Leads s strict draft e r n) : Leads s strict draft e r n.markSelf :=
  ⟨h.reach.set_progress fun _ hok => hok.modify_self fun _ => ⟨rfl, le_rfl⟩, h.role⟩

/-- Appending an entry of the leader's term at the end of its log. -/
theorem Leads.append_entry (h : Leads s strict draft e r n) {en : Entry}
    (hterm : en.term = n.term_) (hidx : en.index = n.log_.lastIndex + 1) :
    Leads s strict draft e r { n with log_ := (n.log_.append [en]).2 } :=
  ⟨h.reach.append_entry h.role hterm hidx, h.role⟩

theorem Leads.propose (h : Leads s strict draft e r n) (data : Bytes) :
    Leads s strict draft e r (n.propose data).2 := by
  unfold RawNode.propose
  rw [if_neg (not_not_intro h.role)]
  let en : Entry :=
    { term := n.term_, index := n.log_.lastIndex + 1, type := .normal, data := data }
  have happ : Leads s strict draft e r { n with log_ := (n.log_.append [en]).2 } :=
    h.append_entry rfl rfl
  -- the leader is among its own peers, so nothing is inserted
  have hself : n.pr_.contains n.id_ = true := by
    obtain ⟨_, r₁, _, _, ht⟩ := h.reach
    have hmem := (ht.replica.progress h.role).keys.mem_iff.mpr ht.id_mem
    obtain ⟨p, hp⟩ := n.pr_.mem_keys_iff.mp hmem
    change (n.pr_.find? n.id_).isSome = true
    rw [show n.pr_.find? n.id_ = some p from hp]
    rfl
  simp only [hself, if_true]
  exact happ.markSelf.broadcastAppend

theorem Leads.maybeCommit (h : Leads s strict draft e r n) :
    Leads s strict draft e r n.maybeCommit.2 := by
  rcases maybeCommit_cases n with heq | ⟨k, hk, -, hterm, heq⟩
  · rw [heq]
    exact h
  · rw [heq]
    obtain ⟨_, r₀, _, _, ht₀⟩ := id h.reach
    have hq : n.quorum = s.members.length / 2 + 1 := ht₀.quorum_eq
    rw [hq] at hk
    refine ⟨h.reach.commit h.role hterm ?_ ?_, h.role⟩
    · exact ((ht₀.replica.progress h.role).quorum s.nodup ht₀.id_mem rfl hk).1
    · intro matched hok
      exact (hok.quorum s.nodup ht₀.id_mem rfl hk).2

/-! ## Elections -/

/-- The progress map of a new leader has one fresh entry for every voter. -/
theorem resetProgress_fill (voters : List NodeId) (fresh : NodeId → Progress)
    (pr : OrderedMap NodeId Progress less) :
    (∀ v, v ∈ (voters.foldl (fun pr id => pr.insert id (fresh id)) pr).keys ↔
      v ∈ voters ∨ v ∈ pr.keys) ∧
    ∀ v p, (voters.foldl (fun pr id => pr.insert id (fresh id)) pr).find? v = some p →
      p = fresh v ∨ pr.find? v = some p := by
  induction voters generalizing pr with
  | nil => exact ⟨by simp, fun _ _ hp => Or.inr hp⟩
  | cons id rest ih =>
    obtain ⟨hkeys, hfind⟩ := ih (pr.insert id (fresh id))
    have hins : ∀ v, v ∈ (pr.insert id (fresh id)).keys ↔ v = id ∨ v ∈ pr.keys := by
      intro v
      rw [OrderedMap.mem_keys_iff, OrderedMap.mem_keys_iff]
      by_cases hv : id = v
      · subst hv
        simp
      · rw [OrderedMap.find?_insert_of_ne _ _ hv]
        simp [Ne.symm hv]
    constructor
    · intro v
      rw [List.foldl_cons, hkeys, hins, List.mem_cons]
      tauto
    · intro v p hp
      rw [List.foldl_cons] at hp
      rcases hfind v p hp with heq | hins
      · exact Or.inl heq
      · by_cases hv : id = v
        · subst hv
          rw [OrderedMap.find?_insert_self] at hins
          exact Or.inl (Option.some.inj hins).symm
        · rw [OrderedMap.find?_insert_of_ne _ _ hv] at hins
          exact Or.inr hins

theorem resetProgress_ok (hid : n.id_ ∈ s.members) (hvoters : n.voters_.Perm s.members) :
    ProgressOk s.members n.id_ n.log_.lastIndex n.resetProgress fun _ => 0 := by
  obtain ⟨hkeys, hfind⟩ := resetProgress_fill n.voters_ (fun id =>
    (Progress.new n.maxInflightMsgs_ (id ∈ n.learners_)).reset n.log_.lastIndex) .empty
  have hself : (n.voters_.foldl (fun pr id => pr.insert id
      ((Progress.new n.maxInflightMsgs_ (id ∈ n.learners_)).reset n.log_.lastIndex))
      (.empty : OrderedMap NodeId Progress less)).contains n.id_ = true := by
    obtain ⟨p, hp⟩ := (OrderedMap.mem_keys_iff _).mp
      ((hkeys n.id_).mpr (Or.inl (hvoters.mem_iff.mpr hid)))
    rw [OrderedMap.contains, hp]
    rfl
  have hval : ∀ {v p}, n.resetProgress.find? v = some p →
      p.nextIndex = n.log_.lastIndex + 1 ∧ p.matchIndex = 0 := by
    intro v p hp
    rw [RawNode.resetProgress, if_pos hself] at hp
    rcases hfind v p hp with rfl | hnone
    · exact ⟨rfl, rfl⟩
    · cases hnone
  refine
    { keys := ?_
      next_pos := fun hp => by rw [(hval hp).1]; omega
      next_le := fun hp => (hval hp).1.le
      match_le := fun hp => by rw [(hval hp).2]; omega
      match_acked := fun hp _ => (hval hp).2.le }
  rw [RawNode.resetProgress, if_pos hself]
  refine (List.perm_ext_iff_of_nodup (OrderedMap.keys_nodup _) s.nodup).mpr fun v => ?_
  rw [hkeys, hvoters.mem_iff]
  exact or_iff_left (by simp [OrderedMap.keys, OrderedMap.empty])

theorem Reach.becomeLeader (h : Reach s strict draft e r n.core) (hr : n.role_ = .candidate)
    (hq : n.quorum ≤ n.votes_.length) : Leads s strict draft e r n.becomeLeader := by
  obtain ⟨_, r₀, _, _, ht₀⟩ := id h
  rw [show n.quorum = s.members.length / 2 + 1 from ht₀.quorum_eq] at hq
  -- the leader's own progress: the end of its log, in state `replicate`
  have hpr : ProgressOk s.members n.id_ n.log_.lastIndex
      ((n.resetProgress.modify n.id_ fun p =>
        { p with matchIndex := n.log_.lastIndex, nextIndex := n.log_.lastIndex + 1 }).modify
          n.id_ Progress.becomeReplicate) fun _ => 0 := by
    refine ((resetProgress_ok ht₀.id_mem ht₀.voters).modify_self
      fun _ => ⟨rfl, le_rfl⟩).modify_self ?_
    intro p hp
    rw [OrderedMap.find?_modify_self, Option.map_eq_some_iff] at hp
    obtain ⟨q, -, rfl⟩ := hp
    exact ⟨rfl, le_rfl⟩
  let lead : RawNode := { n with
    role_ := .leader
    lead_ := n.id_
    tickCount_ := 0
    pr_ := (n.resetProgress.modify n.id_ fun p =>
      { p with matchIndex := n.log_.lastIndex, nextIndex := n.log_.lastIndex + 1 }).modify
        n.id_ Progress.becomeReplicate }
  have hlead : Leads s strict draft e r lead := ⟨h.win hr hq hpr, rfl⟩
  let noop : Entry := { term := n.term_, index := n.log_.lastIndex + 1, type := .normal }
  have happ : Leads s strict draft e r { lead with log_ := (lead.log_.append [noop]).2 } :=
    hlead.append_entry rfl rfl
  unfold RawNode.becomeLeader
  refine Leads.broadcastAppend ?_
  dsimp only
  split
  · exact happ.markSelf
  · exact hlead

theorem Reach.campaign_node (h : Reach s strict draft e r n.core) (hr : n.role_ ≠ .leader)
    (draw : Nat) : Reach s strict draft e r (n.campaign draw).core := by
  have hcand : Reach s strict draft e r (n.becomeCandidate draw).core := h.campaign hr
  have hrole : (n.becomeCandidate draw).role_ = .candidate := rfl
  have hvotes : (n.becomeCandidate draw).votes_.length = 1 := rfl
  unfold RawNode.campaign
  generalize n.becomeCandidate draw = c at hcand hrole hvotes
  dsimp only
  split_ifs with hq
  · exact (hcand.becomeLeader hrole (by omega)).reach
  · generalize c.voters_ = voters
    induction voters generalizing c with
    | nil => exact hcand
    | cons id rest ih =>
      rw [List.foldl_cons]
      split_ifs with hid
      · exact ih c hcand hrole hvotes hq
      · exact ih _ (hcand.send_request hrole rfl rfl rfl rfl rfl) hrole hvotes hq

theorem Reach.pollVote (h : Reach s strict draft e r n.core) (hr : n.role_ = .candidate)
    {voter : NodeId} {granted : Bool}
    (hmail : granted = true → .grant n.term_ voter n.id_ ∈ e.sent) :
    Reach s strict draft e r (n.pollVote voter granted).core := by
  unfold RawNode.pollVote
  split_ifs with hv hg
  · exact h
  · have hcount : Reach s strict draft e r
        (RawNode.core { n with votes_ := n.votes_ ++ [voter] }) := h.count hr (hmail hg) hv
    dsimp only
    split_ifs with hq
    · exact (hcount.becomeLeader hr hq).reach
    · exact hcount
  · exact h

end Methods

/-! ## Messages -/

/-- What a node may assume about a message that arrives: it was sent. -/
structure Arrives (e : Election.State NodeId) (r : Replication.State NodeId Entry) (id : NodeId)
    (m : Message) : Prop where
  known : Known r m
  mail : ∀ {x}, mailOf m = some x → x ∈ e.sent ∧ m.receiver = id


section Handlers

variable {s : Setup} {strict : Prop}
  {draft : Option (Election.Ballot NodeId × Set (Election.Mail NodeId))}
  {e : Election.State NodeId} {r : Replication.State NodeId Entry} {n : RawNode} {m : Message}

/-! ### Leader -/

/-- A rejected append started inside the leader's log. -/
theorem Leads.refused_le (h : Leads s strict draft e r n) {i : Nat}
    (hm : .refuse n.term_ i ∈ r.issued) : i ≤ n.log_.lastIndex := by
  obtain ⟨_, r₁, hext, _, ht⟩ := h.reach
  have hrole : (r₁.replica n.core.id).role = .leader := by
    rw [ht.replica.role, show n.core.role = .leader from h.role]
    rfl
  have hok : i ≤ (r₁.leaderLog n.term_).length := ht.matching.issued _ (hext.grows.issued hm)
  have hlog := (ht.matching.leads hrole).1
  rw [ht.replica.log, ht.replica.term] at hlog
  rw [show n.log_.lastIndex = n.log_.logical.length from ht.wf.lastIndex_eq,
    show n.log_.logical = r₁.leaderLog n.term_ from hlog]
  exact hok

theorem Leads.stepLeaderAppResp (h : Leads s strict draft e r n) (hm : Known r m)
    (hty : m.type = .msgAppResp) (hterm : m.term = n.term_) :
    Leads s strict draft e r (n.stepLeaderAppResp m) := by
  unfold Known at hm
  rw [hty] at hm
  obtain ⟨hrefuse, haccept⟩ := hm
  unfold RawNode.stepLeaderAppResp
  split
  · exact h
  · split_ifs with hrej
    · have hle := h.refused_le (hterm ▸ hrefuse hrej)
      have hset : Leads s strict draft e r
          { n with pr_ := n.pr_.modify m.sender (RawNode.rejectProgress m.index m.rejectHint) } :=
        ⟨h.reach.set_progress fun _ hok => hok.reject hle, h.role⟩
      exact hset.sendAppend _
    · have hacc := haccept (by simpa using hrej)
      rw [hterm] at hacc
      have hack : Leads s strict draft e r
          { n with pr_ := n.pr_.modify m.sender (RawNode.acceptProgress m.index) } :=
        ⟨h.reach.ack_progress h.role hacc fun hi hok => hok.accept hi, h.role⟩
      have hcom := hack.maybeCommit
      dsimp only
      generalize RawNode.maybeCommit _ = res at hcom ⊢
      obtain ⟨committed, n₂⟩ := res
      have hsent : Leads s strict draft e r (if committed = true then n₂.broadcastAppend else n₂) := by
        split
        · exact hcom.broadcastAppend
        · exact hcom
      split
      · split
        · exact hsent.sendAppend _
        · exact hsent
      · exact hsent

theorem Leads.stepLeader (h : Leads s strict draft e r n) (hm : Known r m)
    (hterm : m.term = n.term_) : Leads s strict draft e r (n.stepLeader m) := by
  unfold RawNode.stepLeader
  split
  · exact h.propose _
  · exact h.stepLeaderAppResp hm (by assumption) hterm
  · exact leads_closed.stepLeaderHeartbeatResp h m
  · exact leads_closed.stepLeaderReadIndex h m
  · exact h

/-! ### Follower -/

theorem Reach.forward (h : Reach s strict draft e r n.core)
    (hty : m.type = .msgPropose ∨ m.type = .msgReadIndex) :
    Reach s strict draft e r (n.forward m).core := by
  unfold RawNode.forward
  split
  · exact h
  · refine h.send_quiet ?_ ?_
    · rcases hty with hty | hty <;> simp [mailOf, hty]
    · intro r'
      unfold Known
      rcases hty with hty | hty <;> simp [hty]

theorem Reach.stepFollowerApp (h : Reach s strict draft e r n.core) (hr : n.role_ = .follower)
    (hm : Known r m) (hty : m.type = .msgApp) (hterm : m.term = n.term_)
    (hheed : strict → n.log_.Heeds r.leaderLog m) :
    Reach s strict draft e r (n.stepFollowerApp m).core := by
  unfold Known at hm
  rw [hty] at hm
  dsimp only at hm
  rw [hterm] at hm
  by_cases hmatch : n.log_.term m.index = m.logTerm
  · have hcare : strict → n.log_.Careful (r.leaderLog n.term_) m.index m.entries := by
      intro hst
      rw [← hterm]
      exact (hheed hst).1 hty hmatch
    have hok : (n.log_.maybeAppend m.index m.logTerm m.commit m.entries).1 = true := by
      rw [RaftLog.maybeAppend_of_eq hmatch]
    have hacc := h.accept_append hr hm hmatch hcare
      (m := { type := .msgAppResp, receiver := m.sender, sender := n.id_, term := n.term_,
              index := m.index + m.entries.length }) rfl rfl rfl rfl rfl
    unfold RawNode.stepFollowerApp
    simp only [hok, if_true]
    exact hacc
  · unfold RawNode.stepFollowerApp
    simp only [RaftLog.maybeAppend_of_ne hmatch]
    exact h.send_refuse rfl rfl rfl (Or.inr ⟨_, _, _, hm⟩)

theorem commitTo_cases (l : RaftLog) (k : Nat) :
    l.commitTo k = l ∨ l.committed_ < k ∧ l.commitTo k = { l with committed_ := min k l.lastIndex } := by
  unfold RaftLog.commitTo
  split
  · exact Or.inr ⟨by assumption, rfl⟩
  · exact Or.inl rfl

theorem Reach.stepFollowerHeartbeat (h : Reach s strict draft e r n.core)
    (hr : n.role_ = .follower) (hm : Known r m) (hty : m.type = .msgHeartbeat)
    (hterm : m.term = n.term_) (hheed : strict → n.log_.Heeds r.leaderLog m) :
    Reach s strict draft e r (n.stepFollowerHeartbeat m).core := by
  unfold Known at hm
  rw [hty] at hm
  dsimp only at hm
  rw [hterm] at hm
  have hlog : Reach s strict draft e r { n.core with log := n.log_.commitTo m.commit } := by
    rcases commitTo_cases n.log_ m.commit with heq | ⟨hc, heq⟩
    · rw [heq]
      exact h
    · rw [heq]
      refine h.learn_commit hr hm hc ?_
      intro hst
      have hagree := (hheed hst).2 hty hc
      rwa [hterm] at hagree
  rw [stepFollowerHeartbeat_eq]
  exact hlog.send_quiet rfl fun _ => trivial

theorem logUpToDate_iff (h : n.log_.WF) :
    n.logUpToDate m = true →
      Replication.UpToDate Entry.term m.logTerm m.index n.log_.logical := by
  unfold RawNode.logUpToDate Replication.UpToDate
  rw [h.lastTerm_eq, h.lastIndex_eq]
  simp only [Bool.or_eq_true, Bool.and_eq_true, decide_eq_true_eq]
  omega

theorem Reach.stepFollowerVote (h : Reach s strict draft e r n.core) (hr : n.role_ = .follower)
    (hm : Arrives e r n.id_ m) (hty : m.type = .msgVote) (hterm : m.term = n.term_) :
    Reach s strict draft e r (n.stepFollowerVote m).core := by
  have hreq := hm.known
  unfold Known at hreq
  rw [hty] at hreq
  dsimp only at hreq
  rw [hterm] at hreq
  have hmail := (hm.mail (x := .request m.term m.sender) (by simp [mailOf, hty])).1
  rw [hterm] at hmail
  unfold RawNode.stepFollowerVote
  cases hg : decide (n.vote_ = 0 ∨ n.vote_ = m.sender) && n.logUpToDate m with
  | true =>
    rw [Bool.and_eq_true, decide_eq_true_iff] at hg
    have hgrant := h.grant hr
      (m := { type := .msgVoteResp, receiver := m.sender, sender := n.id_, term := n.term_ })
      rfl rfl rfl rfl hmail hreq hg.1 (logUpToDate_iff h.wf hg.2)
    simp only [hty, if_true, and_self]
    exact hgrant
  | false =>
    simp only [hty, if_true, Bool.false_eq_true, false_and, if_false]
    exact h.send_quiet rfl fun _ hf => absurd (show true = false from hf) (by decide)

theorem Reach.stepFollower (h : Reach s strict draft e r n.core) (hr : n.role_ = .follower)
    (hm : Arrives e r n.id_ m) (hterm : m.term = n.term_)
    (hheed : strict → n.log_.Heeds r.leaderLog m) (draw : Nat) :
    Reach s strict draft e r (n.stepFollower m draw).core := by
  have hk := hm.known
  unfold Known at hk
  unfold RawNode.stepFollower
  cases hty : m.type <;> simp only [hty] at hk ⊢ <;>
    first
    | exact h
    | exact hk.elim
    | skip
  · exact h.forward (Or.inl hty)
  · exact h.stepFollowerApp hr hm.known hty hterm hheed
  · exact h.stepFollowerVote hr hm hty hterm
  · exact h.stepFollowerHeartbeat hr hm.known hty hterm hheed
  · exact h.forward (Or.inr hty)

/-! ### Candidate -/

/-- A candidate that hears from the leader of its own term follows it. -/
theorem Reach.becomeFollower (h : Reach s strict draft e r n.core) (hr : n.role_ = .candidate)
    (lead : NodeId) (draw : Nat) :
    Reach s strict draft e r (n.becomeFollower n.term_ lead draw).core := h.yield hr

theorem Reach.stepCandidate (h : Reach s strict draft e r n.core) (hr : n.role_ = .candidate)
    (hm : Arrives e r n.id_ m) (hterm : m.term = n.term_)
    (hheed : strict → n.log_.Heeds r.leaderLog m) (draw : Nat) :
    Reach s strict draft e r (n.stepCandidate m draw).core := by
  have hk := hm.known
  unfold Known at hk
  have hfollow : Reach s strict draft e r
      ((n.becomeFollower n.term_ m.sender draw).stepFollower m draw).core :=
    (h.becomeFollower hr m.sender draw).stepFollower rfl hm hterm hheed draw
  unfold RawNode.stepCandidate
  cases hty : m.type <;> simp only [hty] at hk ⊢ <;>
    first
    | exact h
    | exact hk.elim
    | skip
  · rw [if_pos hterm, hterm]
    exact hfollow
  · refine h.pollVote hr ?_
    intro hg
    have hrej : m.reject = false := by simpa using hg
    obtain ⟨hmail, hto⟩ := hm.mail (x := .grant m.term m.sender m.receiver)
      (by simp [mailOf, hty, hrej])
    rwa [hterm, hto] at hmail
  · rw [if_pos hterm, hterm]
    exact hfollow

/-! ### All roles -/

theorem Reach.rejectStale (h : Reach s strict draft e r n.core) (hm : Known r m) :
    Reach s strict draft e r (n.rejectStale m).core := by
  unfold Known at hm
  unfold RawNode.rejectStale
  cases hty : m.type <;> simp only [hty] at hm ⊢ <;>
    first
    | exact h
    | exact hm.elim
    | skip
  · exact h.send_refuse rfl rfl rfl (Or.inl rfl)
  · exact h.send_quiet rfl fun _ hf => nomatch hf
  · exact h.send_quiet rfl fun _ => trivial

theorem Tracks.dispatch (ht : Tracks s strict draft e r n.core) (hm : Arrives e r n.id_ m)
    (hterm : m.term = n.term_) (hheed : strict → n.log_.Heeds r.leaderLog m) (draw : Nat) :
    Reach s strict draft e r (n.dispatch m draw).core := by
  have h := Reach.of_tracks ht
  unfold RawNode.dispatch
  cases hr : n.role_ with
  | leader => exact (Leads.stepLeader ⟨h, hr⟩ hm.known hterm).reach
  | candidate => exact h.stepCandidate hr hm hterm hheed draw
  | preCandidate => exact absurd hr ht.not_pre
  | follower => exact h.stepFollower hr hm hterm hheed draw

/-- A message of a later term makes the node a follower of that term first. -/
theorem Tracks.raise (ht : Tracks s strict draft e r n.core) (hm : Arrives e r n.id_ m)
    (hlt : n.term_ < m.term) (hheed : strict → n.log_.Heeds r.leaderLog m) (draw : Nat) :
    Reach s strict draft e r ((n.becomeFollower m.term 0 draw).dispatch m draw).core :=
  Reach.stepFollower (n := n.becomeFollower m.term 0 draw) (ht.adopt hlt) rfl hm rfl hheed draw

theorem Tracks.step (ht : Tracks s strict draft e r n.core) (hm : Arrives e r n.id_ m)
    (hheed : strict → n.term_ ≤ m.term → n.log_.Heeds r.leaderLog m) (draw : Nat) :
    Reach s strict draft e r (n.step m draw).core := by
  have h := Reach.of_tracks ht
  have hk := hm.known
  have hmain : m.type ≠ .msgPreVote → m.type ≠ .msgPreVoteResp → Reach s strict draft e r
      (if m.term < (n.raiseTerm m draw).term_ then (n.raiseTerm m draw).rejectStale m
        else (n.raiseTerm m draw).dispatch m draw).core := by
    intro hpv hpvr
    by_cases hgt : m.term > n.term_
    · have hraise : n.raiseTerm m draw = n.becomeFollower m.term 0 draw :=
        if_pos ⟨hgt, hpv, hpvr⟩
      rw [hraise, if_neg (show ¬ m.term < (n.becomeFollower m.term 0 draw).term_ from lt_irrefl _)]
      exact ht.raise hm hgt (fun hst => hheed hst hgt.le) draw
    · have hraise : n.raiseTerm m draw = n := if_neg fun hc => hgt hc.1
      rw [hraise]
      split_ifs with hlt
      · exact h.rejectStale hk
      · have hterm : m.term = n.term_ := by omega
        exact ht.dispatch hm hterm (fun hst => hheed hst hterm.ge) draw
  unfold Known at hk
  unfold RawNode.step
  split
  · exact h.set_progress fun _ hok => hok.becomeProbe
  · rename_i hty
    rw [hty] at hk
    exact hk.elim
  · refine hmain ?_ ?_
    · intro hty
      rw [hty] at hk
      exact hk.elim
    · intro hty
      rw [hty] at hk
      exact hk.elim

theorem Tracks.tick (ht : Tracks s strict draft e r n.core) (draw : Nat) :
    Reach s strict draft e r (n.tick draw).2.core := by
  have h := Reach.of_tracks ht
  unfold RawNode.tick
  split_ifs with hr
  · have hlead : Leads s strict draft e r { n with tickCount_ := n.tickCount_ + 1 } := ⟨h, hr⟩
    dsimp only
    split
    · exact (leads_closed.heartbeats hlead []).reach
    · exact hlead.reach
  · have hcount : Reach s strict draft e r
        (RawNode.core { n with tickCount_ := n.tickCount_ + 1 }) := h
    unfold RawNode.tickElection
    dsimp only
    split
    · exact hcount.campaign_node hr draw
    · exact hcount

/-- A proposal of a client; only a leader takes it. -/
theorem Tracks.propose (ht : Tracks s strict draft e r n.core) (data : Bytes) :
    Reach s strict draft e r (n.propose data).2.core := by
  have h := Reach.of_tracks ht
  by_cases hr : n.role_ = .leader
  · exact (Leads.propose ⟨h, hr⟩ data).reach
  · rw [RawNode.propose, if_pos hr]
    exact h

theorem Tracks.readIndex (ht : Tracks s strict draft e r n.core) (ctx : Bytes) :
    Reach s strict draft e r (n.readIndex ctx).2.core := by
  have h := Reach.of_tracks ht
  by_cases hr : n.role_ = .leader
  · exact (leads_closed.readIndex ⟨h, hr⟩ ctx).reach
  · rw [RawNode.readIndex, if_pos hr]
    exact h

end Handlers

end NexusLOB.Raft
