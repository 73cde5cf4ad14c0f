import NexusLOB.Raft.Leadership
import NexusLOB.Raft.Safety

/-!
# The leader commits all it may

A leader may commit an index of its own term that a quorum of its progress map holds. It looks for
such an index only in `maybeCommit`, when a peer confirms something. With two or more voters that
is enough: what the leader adds to its log itself is held by nobody else yet, and in the log of a
leader the entries of its own term are the last ones, so the largest index that a quorum holds
stands for all smaller ones. A single voter is its own quorum and is confirmed by nobody.
-/

namespace NexusLOB.Raft

open Collections Consensus

namespace RawNode

/-- The progress map counts a quorum that holds the log up to `N`. -/
def StoredOnQuorum (n : RawNode) (N : Nat) : Prop :=
  n.quorum ≤ n.matchIndexes.countP fun x => decide (N ≤ x)

/-- Everything of the leader's own term that a quorum holds is committed. -/
def CommitsAll (n : RawNode) : Prop :=
  ∀ N, n.log_.term N = n.term_ → n.StoredOnQuorum N → N ≤ n.log_.commitIndex

/-- The commit index of `n'` is where the rule wants it, and if it moved on the way from `n`, then
to an index that may be committed. -/
def CommitsByRule (n n' : RawNode) : Prop :=
  n'.CommitsAll ∧ (n.log_.commitIndex < n'.log_.commitIndex →
    n'.log_.term n'.log_.commitIndex = n'.term_ ∧ n'.StoredOnQuorum n'.log_.commitIndex)

instance (n : RawNode) (N : Nat) : Decidable (n.StoredOnQuorum N) :=
  inferInstanceAs (Decidable (_ ≤ _))

/-- How much of its log member `v` is known to hold. -/
def held (n : RawNode) (v : NodeId) : Nat :=
  if v = n.id_ then n.log_.lastIndex else ((n.pr_.find? v).map Progress.matchIndex).getD 0

end RawNode

section Counting

variable {n n' : RawNode} {N : Nat}

theorem matchIndexes_eq (n : RawNode) : n.matchIndexes = n.pr_.keys.map n.held := by
  unfold RawNode.matchIndexes OrderedMap.keys
  rw [List.map_map]
  refine List.map_congr_left fun b hb => ?_
  have hfind : n.pr_.find? b.1 = some b.2 := n.pr_.find?_eq_some_iff.mpr hb
  simp only [Function.comp, RawNode.held, hfind, Option.map_some, Option.getD_some]

theorem storedOnQuorum_iff : n.StoredOnQuorum N ↔
    n.quorum ≤ n.pr_.keys.countP fun v => decide (N ≤ n.held v) := by
  unfold RawNode.StoredOnQuorum
  rw [matchIndexes_eq, List.countP_map]
  rfl

/-- What only the leader itself holds is not on a quorum of two. -/
theorem not_storedOnQuorum_of_alone (hq : 2 ≤ n.quorum)
    (h : ∀ v ∈ n.pr_.keys, v ≠ n.id_ → n.held v < N) : ¬ n.StoredOnQuorum N := by
  rw [storedOnQuorum_iff]
  have hself : (n.pr_.keys.countP fun v => decide (N ≤ n.held v)) ≤
      n.pr_.keys.countP fun v => v == n.id_ := by
    refine List.countP_mono_left fun v hv hle => ?_
    rw [decide_eq_true_iff] at hle
    by_contra hne
    have := h v hv (fun heq => hne (beq_iff_eq.mpr heq))
    omega
  have hone : (n.pr_.keys.countP fun v => v == n.id_) ≤ 1 :=
    List.nodup_iff_count_le_one.mp n.pr_.keys_nodup n.id_
  omega

/-- The largest index that a quorum holds. -/
def RawNode.quorumIndex (n : RawNode) : Nat :=
  (n.matchIndexes.insertionSort (· ≥ ·)).getD (n.quorum - 1) 0

theorem quorum_pos (n : RawNode) : 1 ≤ n.quorum := Nat.le_add_left 1 _

theorem RawNode.StoredOnQuorum.le_quorumIndex (h : n.StoredOnQuorum N) : N ≤ n.quorumIndex :=
  le_getD_insertionSort (quorum_pos n) h

theorem storedOnQuorum_quorumIndex (h : 0 < n.quorumIndex) : n.StoredOnQuorum n.quorumIndex := by
  have hlen : n.quorum ≤ n.matchIndexes.length := by
    by_contra hgt
    have hzero : n.quorumIndex = 0 := by
      unfold RawNode.quorumIndex
      rw [List.getD_eq_getElem?_getD, List.getElem?_eq_none
        (by rw [List.length_insertionSort]; omega)]
      rfl
    omega
  exact le_countP_insertionSort (quorum_pos n) hlen

/-- No member is known to hold more than the leader's log has. -/
def RawNode.Covers (n : RawNode) : Prop := ∀ v ∈ n.pr_.keys, n.held v ≤ n.log_.lastIndex

theorem RawNode.Covers.quorumIndex_le (h : n.Covers) : n.quorumIndex ≤ n.log_.lastIndex := by
  refine getD_insertionSort_le (fun x hx => ?_) _
  rw [matchIndexes_eq] at hx
  obtain ⟨v, hv, rfl⟩ := List.mem_map.mp hx
  exact h v hv

/-- The entries of the leader's own term are the last ones of its log. -/
def RawNode.Tailed (n : RawNode) : Prop :=
  ∀ i j, 1 ≤ i → i ≤ j → j ≤ n.log_.lastIndex → n.log_.term i = n.term_ → n.log_.term j = n.term_

/-- **`maybeCommit` finds all there is.** -/
theorem maybeCommit_byRule (hc : n.Covers) (ht : n.Tailed) : n.CommitsByRule n.maybeCommit.2 := by
  have hreach : ∀ N, n.log_.term N = n.term_ → n.StoredOnQuorum N →
      N = 0 ∨ N ≤ n.quorumIndex ∧ n.log_.term n.quorumIndex = n.term_ := by
    intro N hN hst
    rcases Nat.eq_zero_or_pos N with h0 | hpos
    · exact Or.inl h0
    · have hle := hst.le_quorumIndex
      exact Or.inr ⟨hle, ht N _ hpos hle hc.quorumIndex_le hN⟩
  by_cases hup : n.quorumIndex > n.log_.commitIndex ∧ n.log_.term n.quorumIndex = n.term_
  · have heq : n.maybeCommit.2 =
        { n with log_ := { n.log_ with committed_ := n.quorumIndex } } := by
      rcases maybeCommit_cases n with hno | ⟨k, rfl, -, -, heq⟩
      · have htrue : n.maybeCommit.1 = true := by
          unfold RawNode.maybeCommit
          exact congrArg Prod.fst (if_pos hup)
        rw [hno] at htrue
        cases htrue
      · rw [heq]
        rfl
    rw [heq]
    refine ⟨fun N hN hst => ?_, fun _ => ⟨hup.2, ?_⟩⟩
    · rcases hreach N hN hst with rfl | ⟨hle, -⟩
      · exact Nat.zero_le _
      · exact hle
    · exact storedOnQuorum_quorumIndex (Nat.zero_lt_of_lt hup.1)
  · have heq : n.maybeCommit.2 = n := by
      unfold RawNode.maybeCommit
      exact congrArg Prod.snd (if_neg hup)
    rw [heq]
    refine ⟨fun N hN hst => ?_, fun hlt => absurd hlt (Nat.lt_irrefl _)⟩
    rcases hreach N hN hst with rfl | ⟨hle, hterm⟩
    · exact Nat.zero_le _
    · by_contra hgt
      exact hup ⟨by omega, hterm⟩

end Counting

theorem maybeCommit_held (n : RawNode) (v : NodeId) : n.maybeCommit.2.held v = n.held v := by
  obtain ⟨k, heq⟩ := maybeCommit_eq n
  rw [heq]
  rfl

theorem maybeCommit_quorum (n : RawNode) : n.maybeCommit.2.quorum = n.quorum := by
  obtain ⟨k, heq⟩ := maybeCommit_eq n
  rw [heq]
  rfl

/-! ## What is not a confirmation -/

/-- `n'` knows of its peers what `n` knew, and its log is at most longer. -/
structure Carried (n n' : RawNode) : Prop where
  term : n'.term_ = n.term_
  id : n'.id_ = n.id_
  quorum : n'.quorum = n.quorum
  commit : n'.log_.commitIndex = n.log_.commitIndex
  keys : n'.pr_.keys = n.pr_.keys
  held : ∀ v ∈ n.pr_.keys, v ≠ n.id_ → n'.held v = n.held v
  last : n.log_.lastIndex ≤ n'.log_.lastIndex
  terms : ∀ i ≤ n.log_.lastIndex, n'.log_.term i = n.log_.term i

section Carried

variable {n n' : RawNode}

theorem Carried.storedOnQuorum (h : Carried n n') {N : Nat} (hN : N ≤ n.log_.lastIndex) :
    n'.StoredOnQuorum N ↔ n.StoredOnQuorum N := by
  rw [storedOnQuorum_iff, storedOnQuorum_iff, h.quorum, h.keys]
  have hcount : (n.pr_.keys.countP fun v => decide (N ≤ n'.held v)) =
      n.pr_.keys.countP fun v => decide (N ≤ n.held v) := by
    refine List.countP_congr fun v hv => ?_
    by_cases hid : v = n.id_
    · have hlast := h.last
      have hself : n.held v = n.log_.lastIndex := if_pos hid
      have hself' : n'.held v = n'.log_.lastIndex := if_pos (hid.trans h.id.symm)
      rw [hself, hself', decide_eq_true_iff, decide_eq_true_iff]
      omega
    · rw [h.held v hv hid]
  rw [hcount]

/-- The rule is kept: of what the log has gained nobody else knows yet. -/
theorem RawNode.CommitsByRule.carried {n₀ : RawNode} (hrule : n₀.CommitsByRule n)
    (h : Carried n n') (hq : 2 ≤ n.quorum) (hc : n.Covers) : n₀.CommitsByRule n' := by
  refine ⟨fun N hN hst => ?_, fun hlt => ?_⟩
  · rw [h.commit]
    rcases Nat.lt_or_ge n.log_.lastIndex N with hgt | hle
    · refine absurd hst (not_storedOnQuorum_of_alone (h.quorum ▸ hq) fun v hv hid => ?_)
      rw [h.keys] at hv
      rw [h.id] at hid
      rw [h.held v hv hid]
      exact Nat.lt_of_le_of_lt (hc v hv) hgt
    · rw [h.terms N hle, h.term] at hN
      exact hrule.1 N hN ((h.storedOnQuorum hle).mp hst)
  · rw [h.commit] at hlt ⊢
    obtain ⟨hterm, hst⟩ := hrule.2 hlt
    have hle : n.log_.commitIndex ≤ n.log_.lastIndex := hst.le_quorumIndex.trans hc.quorumIndex_le
    exact ⟨by rw [h.terms _ hle, h.term, hterm], (h.storedOnQuorum hle).mpr hst⟩

theorem Carried.byRule (h : Carried n n') (hq : 2 ≤ n.quorum) (hc : n.Covers)
    (hall : n.CommitsAll) : n.CommitsByRule n' :=
  RawNode.CommitsByRule.carried ⟨hall, fun hlt => absurd hlt (Nat.lt_irrefl _)⟩ h hq hc

theorem Dispatched.held (h : Dispatched n n') {v : NodeId} (hv : v ≠ n.id_) :
    n'.held v = n.held v := by
  unfold RawNode.held
  rw [h.id, if_neg hv, if_neg hv]
  cases hp : n'.pr_.find? v with
  | some p' =>
    obtain ⟨p, hold, hsent⟩ := h.find_old hp
    rw [hold]
    exact hsent.matchIndex
  | none =>
    cases hold : n.pr_.find? v with
    | none => rfl
    | some p =>
      obtain ⟨p', hp'⟩ := h.find hold
      rw [hp] at hp'
      cases hp'

theorem Dispatched.carried (h : Dispatched n n') : Carried n n' where
  term := h.term
  id := h.id
  quorum := by rw [RawNode.quorum, h.voters]; rfl
  commit := by rw [h.log]
  keys := h.keys
  held := fun _ _ hv => h.held hv
  last := by rw [h.log]
  terms := fun _ _ => by rw [h.log]

theorem Carried.trans {n'' : RawNode} (h : Carried n n') (h' : Carried n' n'') : Carried n n'' where
  term := h'.term.trans h.term
  id := h'.id.trans h.id
  quorum := h'.quorum.trans h.quorum
  commit := h'.commit.trans h.commit
  keys := h'.keys.trans h.keys
  held := by
    intro v hv hid
    rw [h'.held v (h.keys ▸ hv) (h.id ▸ hid), h.held v hv hid]
  last := h.last.trans h'.last
  terms := by
    intro i hi
    rw [h'.terms i (hi.trans h.last), h.terms i hi]

/-- Rejections and failed deliveries leave the match index alone. -/
theorem hear_matchIndex_of_reject {m : Message}
    (hno : m.reject = true ∨ m.type = .msgUnreachable) (q : Progress) :
    (q.hear m).matchIndex = q.matchIndex := by
  unfold Progress.hear
  split
  · unfold RawNode.rejectProgress Progress.maybeDecrFromRejectHint Progress.becomeProbe
    dsimp only
    split_ifs <;> rfl
  · rename_i hty hrej
    rw [hty, hrej] at hno
    simp at hno
  · rename_i hty hrej
    rw [hty, hrej] at hno
    simp at hno
  · rfl

theorem heard_carried {m : Message} (hno : m.reject = true ∨ m.type = .msgUnreachable) :
    Carried n (n.heard m) where
  term := rfl
  id := rfl
  quorum := rfl
  commit := rfl
  keys := OrderedMap.keys_modify _ _ _
  held := by
    intro v _ hv
    unfold RawNode.held
    rw [find_heard, show (n.heard m).id_ = n.id_ from rfl, if_neg hv, if_neg hv]
    split
    · cases n.pr_.find? v with
      | none => rfl
      | some q => exact hear_matchIndex_of_reject hno q
    · rfl
  last := Nat.le_refl _
  terms := fun _ _ => rfl

/-- The log is stored, released or marked, and stays the same. -/
theorem carried_of_logical {l' : RaftLog} (hwf : n.log_.WF) (hwf' : l'.WF)
    (hlog : l'.logical = n.log_.logical) (hcom : l'.committed_ = n.log_.committed_)
    (hn : n'.log_ = l' ∧ n'.term_ = n.term_ ∧ n'.id_ = n.id_ ∧ n'.voters_ = n.voters_ ∧
      n'.pr_ = n.pr_) : Carried n n' := by
  obtain ⟨rfl, hterm, hid, hvoters, hpr⟩ := hn
  have hlast := hwf.lastIndex_congr hwf' hlog
  refine ⟨hterm, hid, by rw [RawNode.quorum, hvoters]; rfl, hcom, by rw [hpr], ?_, hlast.ge, ?_⟩
  · intro v _ hv
    unfold RawNode.held
    rw [hid, hpr, if_neg hv, if_neg hv]
  · intro i hi
    rw [hwf.lastIndex_eq] at hi
    rw [hwf'.term_eq (hlog ▸ hi), hwf.term_eq hi, hlog]

/-- A leader appends an entry of its own. -/
theorem carried_append (hwf : n.log_.WF) {e : Entry} (hi : e.index = n.log_.lastIndex + 1)
    (he : e.term ≠ 0) (hn : n'.log_ = (n.log_.append [e]).2 ∧ n'.term_ = n.term_ ∧
      n'.id_ = n.id_ ∧ n'.voters_ = n.voters_)
    (hkeys : n'.pr_.keys = n.pr_.keys) (hfind : ∀ v ≠ n.id_, n'.pr_.find? v = n.pr_.find? v) :
    Carried n n' := by
  obtain ⟨hlog, hterm, hid, hvoters⟩ := hn
  have hheld : ∀ v ∈ n.pr_.keys, v ≠ n.id_ → n'.held v = n.held v := by
    intro v _ hv
    unfold RawNode.held
    rw [hid, if_neg hv, if_neg hv, hfind v hv]
  have hquorum : n'.quorum = n.quorum := by
    rw [RawNode.quorum, hvoters]
    rfl
  rcases hwf.append_one hi he with ⟨heq, -⟩ | ⟨hwf', hlogical, -, hcom, -⟩
  · rw [heq] at hlog
    refine ⟨hterm, hid, hquorum, by rw [hlog], hkeys, hheld, by rw [hlog], fun i _ => by rw [hlog]⟩
  · rw [← hlog] at hwf' hlogical hcom
    refine ⟨hterm, hid, hquorum, hcom, hkeys, hheld, ?_, ?_⟩
    · rw [hwf.lastIndex_eq, hwf'.lastIndex_eq, hlogical, List.length_append]
      omega
    · intro i hi
      rw [hwf.lastIndex_eq] at hi
      rw [hwf'.term_eq (by rw [hlogical, List.length_append]; omega), hwf.term_eq hi, hlogical,
        ← termAt_eq_of_isPrefix (List.prefix_append _ _) hi]

theorem proposed_carried (hwf : n.log_.WF) (ht : n.term_ ≠ 0) (hid : n.id_ ∈ n.pr_.keys)
    (data : Bytes) : Carried n (n.proposed data) := by
  have hcontains : n.pr_.contains n.id_ = true := by
    obtain ⟨p, hp⟩ := n.pr_.mem_keys_iff.mp hid
    exact contains_of_find hp
  refine carried_append (e := ⟨n.term_, n.log_.lastIndex + 1, .normal, data⟩) hwf rfl ht
    ⟨rfl, rfl, rfl, rfl⟩ ?_ fun v hv => find_proposed hv data
  unfold RawNode.proposed RawNode.markSelf
  dsimp only
  rw [OrderedMap.keys_modify, if_pos hcontains]

end Carried

/-! ## One message, one event -/

section Served

variable {n n' : RawNode} {m : Message}

/-- What a leader of several voters needs to keep the rule. -/
structure RawNode.Able (n : RawNode) : Prop where
  wf : n.log_.WF
  term : n.term_ ≠ 0
  quorum : 2 ≤ n.quorum
  id : n.id_ ∈ n.pr_.keys
  covers : n.Covers
  tailed : n.Tailed

theorem Served.byRule (h : Served n m n') (ha : n.Able) (hc' : n'.Covers) (hall : n.CommitsAll) :
    n.CommitsByRule n' := by
  cases h with
  | ignored _ h => exact h.carried.byRule ha.quorum ha.covers hall
  | noted _ hno h =>
    exact ((heard_carried hno).trans h.carried).byRule ha.quorum ha.covers hall
  | confirmed _ _ _ h =>
    have hpr := (maybeCommit_frame (n.heard m)).1
    -- after hearing the message the leader knows what it knows in the end
    have hcov : (n.heard m).maybeCommit.2.Covers := by
      intro v hv
      by_cases hid : v = (n.heard m).maybeCommit.2.id_
      · exact le_of_eq (if_pos hid)
      · rw [← h.held hid, ← h.log]
        exact hc' v (by rw [h.keys]; exact hv)
    have hcov₀ : (n.heard m).Covers := by
      intro v hv
      rw [← maybeCommit_held, ← (maybeCommit_frame (n.heard m)).2.2]
      exact hcov v (by rw [hpr]; exact hv)
    have hrule : n.CommitsByRule (n.heard m).maybeCommit.2 := maybeCommit_byRule hcov₀ ha.tailed
    refine hrule.carried h.carried ?_ hcov
    rw [maybeCommit_quorum]
    exact ha.quorum
  | proposed _ h =>
    exact ((proposed_carried ha.wf ha.term ha.id _).trans h.carried).byRule ha.quorum ha.covers hall

theorem advance_office (n : RawNode) :
    n.advance.role_ = n.role_ ∧ n.advance.term_ = n.term_ := by
  unfold RawNode.advance
  dsimp only
  split_ifs <;> exact ⟨rfl, rfl⟩

theorem Elects.commit (h : Elects n n') : n'.log_.commitIndex = n.log_.commitIndex := by
  obtain ⟨n₀, hlog, -, -, -, hd⟩ := h
  rw [hd.log, elected_log, ← hlog]
  split_ifs
  · rcases RaftLog.append_one_cases n₀.log_ _ with ⟨heq, -⟩ | ⟨heq, -⟩
    · rw [heq]
    · rw [heq]
      rfl
  · rfl

/-- Of a new leader's peers nothing is known. -/
theorem Elects.held (h : Elects n n') {v : NodeId} (hv : v ≠ n'.id_) : n'.held v = 0 := by
  obtain ⟨n₀, -, -, -, -, hd⟩ := h
  have hid : v ≠ n₀.id_ := by
    rw [hd.id, (elected_office n₀).2.2.1] at hv
    exact hv
  have hide : v ≠ n₀.elected.id_ := by
    rw [(elected_office n₀).2.2.1]
    exact hid
  rw [hd.held hide]
  unfold RawNode.held
  rw [if_neg hide, find_elected n₀ hid, find_resetProgress n₀ hid]
  split_ifs <;> rfl

theorem Elects.byRule (h : Elects n n') (hq : 2 ≤ n'.quorum) : n.CommitsByRule n' := by
  refine ⟨fun N _ hst => ?_, fun hlt => ?_⟩
  · rcases Nat.eq_zero_or_pos N with rfl | hpos
    · exact Nat.zero_le _
    · refine absurd hst (not_storedOnQuorum_of_alone hq fun v _ hv => ?_)
      rw [h.held hv]
      exact hpos
  · rw [h.commit] at hlt
    exact absurd hlt (Nat.lt_irrefl _)

/-- How a peer comes to lead by an event. -/
theorem Peer.handle_leader_cases (p : Peer) (ev : Event)
    (h : (p.handle ev).1.node.role_ = .leader) :
    p.node.role_ = .leader ∧ (p.handle ev).1.node.term_ = p.node.term_ ∨
      Elects p.node (p.handle ev).1.node := by
  have hmove := p.handle_move ev
  generalize p.handle ev = r at hmove h ⊢
  cases hmove with
  | tick draw =>
    rcases tick_leader_cases p.node h with hr | he
    · exact Or.inl ⟨hr, (tick_dispatched _ hr draw).term⟩
    · exact Or.inr he
  | step m draw => exact step_leader_cases p.node h
  | propose data =>
    obtain ⟨hrole, hterm⟩ := propose_office p.node data
    exact Or.inl ⟨hrole.symm.trans h, hterm⟩
  | readIndex ctx =>
    have hd := readIndex_dispatched p.node ctx
    exact Or.inl ⟨hd.role.symm.trans h, hd.term⟩
  | poll | persistEntries | send | stay => exact Or.inl ⟨h, rfl⟩
  | persistHardState rd =>
    unfold Peer.saveHardState at h ⊢
    split at h
    · rename_i hs
      rw [if_pos hs]
      exact Or.inl ⟨h, rfl⟩
    · rename_i hs
      rw [if_neg hs]
      exact Or.inl ⟨h, rfl⟩
  | advance =>
    obtain ⟨hrole, hterm⟩ := advance_office p.node
    exact Or.inl ⟨hrole.symm.trans h, hterm⟩
  | restart => cases h

end Served

section Events

variable {s : Setup} {strict : Prop} {e e' : Election.State NodeId}
  {r r' : Replication.State NodeId Entry} {i : NodeId} {p : Peer}

theorem PeerOk.quorum (h : PeerOk s strict e r i p) (hcard : 1 < s.members.length) :
    2 ≤ p.node.quorum := by
  have hlen : p.node.voters_.length = s.members.length := h.tracks.voters.length_eq
  unfold RawNode.quorum
  omega

theorem PeerOk.covers (h : PeerOk s strict e r i p) (hr : p.node.role_ = .leader) :
    p.node.Covers := by
  intro v hv
  unfold RawNode.held
  split_ifs
  · exact le_rfl
  · obtain ⟨q, hq⟩ := p.node.pr_.mem_keys_iff.mp hv
    rw [hq]
    exact (h.tracks.replica.progress hr).match_le hq

theorem PeerOk.able (h : PeerOk s strict e r i p) (hcard : 1 < s.members.length)
    (hr : p.node.role_ = .leader) (ht : ∀ t, Tailed Entry.term t (r.leaderLog t)) :
    p.node.Able where
  wf := h.tracks.wf
  term := Nat.ne_of_gt (h.tracks.matching.elected_pos (h.leads hr).2)
  quorum := h.quorum hcard
  id := (h.tracks.replica.progress hr).keys.mem_iff.mpr h.tracks.id_mem
  covers := h.covers hr
  tailed := by
    have hwf : p.node.log_.WF := h.tracks.wf
    have htail := ht p.node.term_
    rw [← (h.leads hr).1] at htail
    intro a b ha hab hb
    rw [hwf.lastIndex_eq] at hb
    rw [hwf.term_eq (hab.trans hb), hwf.term_eq hb]
    exact htail a b ha hab hb

/-- One event of a peer. -/
theorem PeerOk.byRule (h : PeerOk s strict e r i p) {ev : Event}
    (h' : PeerOk s strict e' r' i (p.handle ev).1) (hcard : 1 < s.members.length)
    (ht : ∀ t, Tailed Entry.term t (r.leaderLog t))
    (hall : p.node.role_ = .leader → p.node.CommitsAll)
    (hr' : (p.handle ev).1.node.role_ = .leader) : p.node.CommitsByRule (p.handle ev).1.node := by
  rcases p.handle_leader_cases ev hr' with ⟨hr, hterm⟩ | helects
  · have ha := h.able hcard hr ht
    have hcov' := h'.covers hr'
    have hkeep : Carried p.node (p.handle ev).1.node → p.node.CommitsByRule (p.handle ev).1.node :=
      fun hc => hc.byRule ha.quorum ha.covers (hall hr)
    have hpend := @h.pending
    have hmove := p.handle_move ev
    generalize p.handle ev = res at hmove hterm hcov' hkeep ⊢
    cases hmove with
    | tick draw => exact hkeep (tick_dispatched _ hr draw).carried
    | step m draw => exact (step_served hr hterm).byRule ha hcov' (hall hr)
    | propose data =>
      exact hkeep ((proposed_carried ha.wf ha.term ha.id data).trans
        (propose_dispatched hr data).carried)
    | readIndex ctx => exact hkeep (readIndex_dispatched _ ctx).carried
    | poll | send | stay =>
      exact hkeep (carried_of_logical ha.wf ha.wf rfl rfl ⟨rfl, rfl, rfl, rfl, rfl⟩)
    | persistEntries rd hready =>
      rcases (hpend hready).persistEntries ha.wf with ⟨hnil, -⟩ | ⟨l', rfl, hwf, hlog, -, -⟩
      · rw [hnil] at hkeep ⊢
        exact hkeep (carried_of_logical ha.wf ha.wf rfl rfl ⟨rfl, rfl, rfl, rfl, rfl⟩)
      · exact hkeep (carried_of_logical ha.wf hwf hlog rfl ⟨rfl, rfl, rfl, rfl, rfl⟩)
    | persistHardState rd =>
      unfold Peer.saveHardState at hkeep ⊢
      split at hkeep
      · rename_i hs
        rw [if_pos hs]
        exact hkeep (carried_of_logical ha.wf (ha.wf.saveHardState rd.hardState) rfl rfl
          ⟨rfl, rfl, rfl, rfl, rfl⟩)
      · rename_i hs
        rw [if_neg hs]
        exact hkeep (carried_of_logical ha.wf ha.wf rfl rfl ⟨rfl, rfl, rfl, rfl, rfl⟩)
    | advance rd hready =>
      obtain ⟨l', hwf, hlog, -, hcom, -, heq⟩ := (hpend hready).advance ha.wf (by decide)
      refine hkeep (carried_of_logical ha.wf hwf hlog hcom ?_)
      dsimp only
      rw [heq]
      exact ⟨rfl, rfl, rfl, rfl, rfl⟩
    | restart => cases hr'
  · exact helects.byRule (h'.quorum hcard)

end Events

/-! ## Runs of a cluster -/

namespace Cluster

/-- An action is no action, or an event of one member. -/
theorem step_cases (s : Setup) (c : Cluster) (a : Action) :
    c.step s a = c ∨ ∃ i ∈ s.members, ∃ ev, c.step s a = c.perform i ev := by
  cases a with
  | deliver k draw =>
    simp only [Cluster.step]
    split
    · exact Or.inl rfl
    · split_ifs with hi
      · exact Or.inr ⟨_, hi, _, rfl⟩
      · exact Or.inl rfl
  | run i ev =>
    simp only [Cluster.step]
    split_ifs with hi
    · exact Or.inr ⟨i, hi.1, ev, rfl⟩
    · exact Or.inl rfl

/-- What is known of the states of a cluster of several members. -/
structure Ruled (s : Setup) (c : Cluster) : Prop where
  simulates : ∃ e r, Simulates s False c e r
  tailed : ∀ t, Tailed Entry.term t (c.leaderLog t)
  commitsAll : ∀ i ∈ s.members, (c.peers i).node.role_ = .leader → (c.peers i).node.CommitsAll

section Ruled

variable {s : Setup} {c : Cluster}

theorem ruled_init (s : Setup) : Ruled s (init s) where
  simulates := simulates_init s False
  tailed := fun _ => tailed_of_forall_ne fun _ he => absurd he List.not_mem_nil
  commitsAll := by
    intro i _ hr
    cases hr

/-- The log of a new leader has no entries of its term, except the one it starts with. -/
theorem Elects.tailed {n n' : RawNode} (h : Elects n n') (hwf : n.log_.WF) (hterm : n'.term_ ≠ 0)
    (hnew : ∀ en ∈ n.log_.logical, en.term ≠ n'.term_) :
    Tailed Entry.term n'.term_ n'.log_.logical := by
  obtain ⟨n₀, hlog, -, -, -, hd⟩ := h
  have hterm₀ : n₀.term_ = n'.term_ := by rw [hd.term, (elected_office n₀).2.1]
  rw [hd.log, elected_log, hlog, hterm₀]
  split_ifs
  · rcases hwf.append_one
      (e := { term := n'.term_, index := n.log_.lastIndex + 1, type := .normal }) rfl hterm with
      ⟨heq, -⟩ | ⟨-, hlogical, -⟩
    · rw [heq]
      exact tailed_of_forall_ne hnew
    · rw [hlogical]
      refine (tailed_of_forall_ne hnew).append fun en hen => ?_
      rw [List.mem_singleton.mp hen]
  · exact tailed_of_forall_ne hnew

/-- The leaders' logs keep their form. -/
theorem tailed_perform {e e' : Election.State NodeId} {r r' : Replication.State NodeId Entry}
    {i : NodeId} {ev : Event} (h : Simulates s False c e r)
    (h' : Simulates s False (c.perform i ev) e' r') (hl : Later e r e' r') (hi : i ∈ s.members)
    (ht : ∀ t, Tailed Entry.term t (c.leaderLog t)) (t : Nat) :
    Tailed Entry.term t ((c.perform i ev).leaderLog t) := by
  by_cases hel : t ∈ r.elected
  · obtain ⟨ext, heq, hext⟩ := hl.grows.leaderLog hel
    rw [← h'.leaderLog, heq, h.leaderLog]
    exact (ht t).append hext
  · have hnil : c.leaderLog t = [] := by
      rw [← h.leaderLog]
      exact (h.peer i hi).tracks.matching.unelected hel
    change Tailed Entry.term t (record c.leaderLog ((c.peers i).handle ev).1.node t)
    have hself : (c.perform i ev).peers i = ((c.peers i).handle ev).1 := Function.update_self ..
    unfold record
    split_ifs with hr
    · by_cases hterm : t = ((c.peers i).handle ev).1.node.term_
      · subst hterm
        rw [Function.update_self]
        have hok' := h'.peer i hi
        rw [hself] at hok'
        rcases (c.peers i).handle_leader_cases ev hr with ⟨hlead, hsame⟩ | helects
        · rw [hsame] at hel
          exact absurd ((h.peer i hi).leads hlead).2 hel
        · refine Elects.tailed helects (h.peer i hi).tracks.wf
            (Nat.ne_of_gt (hok'.tracks.matching.elected_pos (hok'.leads hr).2)) fun en hen heq => ?_
          -- an entry of that term would be in the log of its leader
          obtain ⟨k, hk⟩ := List.mem_iff_getElem?.mp hen
          have hroot := (h.rooted hi).getElem? hk
          rw [h.leaderLog, heq, hnil] at hroot
          cases hroot
      · rw [Function.update_of_ne hterm, hnil]
        exact tailed_of_forall_ne fun _ he => absurd he List.not_mem_nil
    · exact ht t

/-- One action. -/
theorem Ruled.step (h : Ruled s c) (hcard : 1 < s.members.length) (a : Action) :
    Ruled s (c.step s a) ∧ ∀ i ∈ s.members, ((c.step s a).peers i).node.role_ = .leader →
      (c.peers i).node.CommitsByRule ((c.step s a).peers i).node := by
  have hstay : ∀ i ∈ s.members, (c.peers i).node.role_ = .leader →
      (c.peers i).node.CommitsByRule (c.peers i).node :=
    fun i hi hr => ⟨h.commitsAll i hi hr, fun hlt => absurd hlt (Nat.lt_irrefl _)⟩
  obtain ⟨e, r, hsim⟩ := h.simulates
  obtain ⟨e', r', hsim', hl⟩ := hsim.step a (fun hf => hf.elim) fun _ _ => hcard
  rcases step_cases s c a with heq | ⟨j, hj, ev, heq⟩
  · rw [heq]
    exact ⟨h, hstay⟩
  · rw [heq] at hsim' ⊢
    have hrule : ∀ i ∈ s.members, ((c.perform j ev).peers i).node.role_ = .leader →
        (c.peers i).node.CommitsByRule ((c.perform j ev).peers i).node := by
      intro i hi hr
      by_cases hij : i = j
      · subst hij
        have hself : (c.perform i ev).peers i = ((c.peers i).handle ev).1 :=
          Function.update_self ..
        have hok' := hsim'.peer i hi
        rw [hself] at hok' hr ⊢
        refine (hsim.peer i hi).byRule hok' hcard ?_ (h.commitsAll i hi) hr
        rw [hsim.leaderLog]
        exact h.tailed
      · have hother : (c.perform j ev).peers i = c.peers i := Function.update_of_ne hij ..
        rw [hother] at hr ⊢
        exact hstay i hi hr
    exact ⟨⟨⟨e', r', hsim'⟩, tailed_perform hsim hsim' hl hj h.tailed,
      fun i hi hr => (hrule i hi hr).1⟩, hrule⟩

theorem ruled_exec (s : Setup) (hcard : 1 < s.members.length) (acts : List Action) :
    Ruled s (exec s acts) := by
  induction acts using List.reverseRecOn with
  | nil => exact ruled_init s
  | append_singleton acts a ih =>
    rw [exec, List.foldl_append]
    exact (ih.step hcard a).1

end Ruled

end Cluster

/-! ## A single voter -/

section Single

variable {n : RawNode}

/-- A leader that is its own quorum does not commit what it proposes. -/
theorem not_commitsAll_propose (hr : n.role_ = .leader) (hq : n.quorum = 1) (hwf : n.log_.WF)
    (ht : n.term_ ≠ 0) (hcom : n.log_.committed_ ≤ n.log_.lastIndex) (data : Bytes) :
    ¬ (n.propose data).2.CommitsAll := by
  have hd := propose_dispatched hr data
  obtain ⟨hwf', hlogical, hcom'⟩ : (n.proposed data).log_.WF ∧ (n.proposed data).log_.logical =
      n.log_.logical ++ [⟨n.term_, n.log_.lastIndex + 1, .normal, data⟩] ∧
      (n.proposed data).log_.committed_ = n.log_.committed_ := by
    rcases hwf.append_one (e := ⟨n.term_, n.log_.lastIndex + 1, .normal, data⟩) rfl ht with
      ⟨-, hlt⟩ | ⟨hwf', hlogical, -, hcom', -⟩
    · omega
    · exact ⟨hwf', hlogical, hcom'⟩
  have hlast : (n.proposed data).log_.lastIndex = n.log_.lastIndex + 1 := by
    rw [hwf'.lastIndex_eq, hlogical, hwf.lastIndex_eq, List.length_append]
    rfl
  intro hall
  have hle := hall (n.log_.lastIndex + 1) ?_ ?_
  · rw [hd.log, show (n.proposed data).log_.commitIndex = n.log_.committed_ from hcom'] at hle
    omega
  · rw [hd.log, hd.term, hwf'.term_eq (by rw [← hwf'.lastIndex_eq, hlast]), hlogical,
      hwf.lastIndex_eq, termAt_append_right (Nat.le_refl 1)]
    rfl
  · -- the leader itself holds the entry
    have hmem : n.id_ ∈ (n.proposed data).pr_.keys := by
      unfold RawNode.proposed RawNode.markSelf
      dsimp only
      rw [OrderedMap.keys_modify]
      split_ifs with hc
      · obtain ⟨q, hq⟩ := Option.isSome_iff_exists.mp hc
        exact n.pr_.mem_keys_iff.mpr ⟨q, hq⟩
      · exact OrderedMap.mem_keys_iff _ |>.mpr ⟨_, OrderedMap.find?_insert_self _ _ _⟩
    have hquorum : (n.propose data).2.quorum = 1 := by
      rw [RawNode.quorum, hd.voters]
      exact hq
    rw [storedOnQuorum_iff, hquorum, hd.keys, Nat.succ_le_iff, List.countP_pos_iff]
    refine ⟨n.id_, hmem, ?_⟩
    have hself : (n.propose data).2.held n.id_ = n.log_.lastIndex + 1 := by
      rw [RawNode.held, if_pos (show n.id_ = (n.propose data).2.id_ from hd.id.symm), hd.log, hlast]
    rw [hself]
    exact decide_eq_true (Nat.le_refl _)

/-- The clock before the election timeout. -/
theorem exec_waits {p : Peer} (hready : p.ready = none) (hr : p.node.role_ = .follower) {k : Nat}
    (hk : k = 0 ∨ p.node.tickCount_ + k < p.node.randomizedElectionTick_) :
    p.exec (List.replicate k (.tick 0)) =
      { p with node := { p.node with tickCount_ := p.node.tickCount_ + k } } := by
  induction k with
  | zero => rfl
  | succ k ih =>
    rw [List.replicate_succ', Peer.exec_append, ih (by omega)]
    have hno : ¬ p.node.tickCount_ + k + 1 ≥ p.node.randomizedElectionTick_ := by omega
    simp only [Peer.exec, List.foldl_cons, List.foldl_nil, Peer.handle, hready, RawNode.tick, hr,
      RawNode.tickElection, if_neg hno, reduceCtorEq, if_false]
    rfl

/-- The timeout of a node that is its own quorum. -/
theorem tick_wins (hr : n.role_ = .follower) (hq : n.quorum = 1)
    (hc : n.tickCount_ + 1 ≥ n.randomizedElectionTick_)
    (hempty : n.log_.lastIndex < n.log_.firstIndex) :
    (n.tick 0).2.role_ = .leader ∧ (n.tick 0).2.term_ = n.term_ + 1 ∧
      (n.tick 0).2.quorum = 1 ∧ (n.tick 0).2.log_ = n.log_ := by
  let m : RawNode := { n with tickCount_ := n.tickCount_ + 1 }.becomeCandidate 0
  have heq : (n.tick 0).2 = { m.becomeLeader with tickCount_ := 0 } := by
    have hno : ¬ n.role_ = .leader := by
      rw [hr]
      decide
    have hone : m.quorum = 1 := hq
    unfold RawNode.tick RawNode.tickElection RawNode.campaign
    rw [if_neg hno]
    dsimp only
    rw [if_pos hc, if_pos hone]
  have hd := becomeLeader_dispatched m
  obtain ⟨hrole, hterm, -, hvoters, -⟩ := elected_office m
  rw [heq]
  refine ⟨hd.role.trans hrole, hd.term.trans hterm, ?_, ?_⟩
  · change m.becomeLeader.quorum = 1
    rw [RawNode.quorum, hd.voters, hvoters]
    exact hq
  · change m.becomeLeader.log_ = n.log_
    rw [hd.log, elected_log]
    exact if_neg (Nat.not_le.mpr hempty)

end Single

/-- Calls of the node: a proposal, or the step of a message. -/
def Action.isCall : Action → Bool
  | .deliver _ _ => true
  | .run _ (.propose _) => true
  | .run _ (.step _ _) => true
  | .run _ _ => false

namespace Cluster

/-- Events of one member only. -/
theorem peers_foldl_run {s : Setup} {i : NodeId} (hi : i ∈ s.members) {evs : List Event}
    (hloc : ∀ ev ∈ evs, ev.isLocal = true) (c : Cluster) :
    ((evs.map (Action.run i)).foldl (step s) c).peers i = (c.peers i).exec evs := by
  induction evs generalizing c with
  | nil => rfl
  | cons ev evs ih =>
    have hstep : c.step s (.run i ev) = c.perform i ev :=
      if_pos ⟨hi, hloc ev List.mem_cons_self⟩
    rw [List.map_cons, List.foldl_cons, ih (fun ev' h => hloc ev' (List.mem_cons_of_mem _ h)), hstep]
    have hself : (c.perform i ev).peers i = ((c.peers i).handle ev).1 := Function.update_self ..
    rw [hself]
    rfl

/-- The only member of a cluster elects itself at its first timeout. -/
theorem single_leads (s : Setup) {i : NodeId} (hi : i ∈ s.members)
    (hone : s.members.length = 1) : ∃ acts : List Action,
      ((exec s acts).peers i).node.role_ = .leader ∧ ((exec s acts).peers i).node.term_ = 1 ∧
        ((exec s acts).peers i).node.quorum = 1 ∧
        ((exec s acts).peers i).node.log_ = RaftLog.new (.fresh (s.conf i)) := by
  let p : Peer := Peer.start (s.config i) (.fresh (s.conf i)) (s.draw i)
  have hq : p.node.quorum = 1 := by
    have hlen := (new_voters hi (w := .fresh (s.conf i)) rfl (s.draw i)).length_eq
    rw [hone] at hlen
    exact congrArg (· / 2 + 1) hlen
  let ticks := List.replicate (s.draw i - 1) (Event.tick 0) ++ [.tick 0]
  have hpeers : (exec s (ticks.map (Action.run i))).peers i = p.exec ticks := by
    refine peers_foldl_run hi (fun ev hev => ?_) (init s)
    rcases List.mem_append.mp hev with hev | hev
    · rw [List.eq_of_mem_replicate hev]
      rfl
    · rw [List.mem_singleton.mp hev]
      rfl
  have hwaits := exec_waits (p := p) (k := s.draw i - 1) rfl rfl (by
    change s.draw i - 1 = 0 ∨ 0 + (s.draw i - 1) < s.draw i
    omega)
  have hwins := tick_wins (n := { p.node with tickCount_ := p.node.tickCount_ + (s.draw i - 1) }) rfl
    hq (by
      change 0 + (s.draw i - 1) + 1 ≥ s.draw i
      omega) Nat.zero_lt_one
  refine ⟨ticks.map (Action.run i), ?_⟩
  rw [hpeers, Peer.exec_append, hwaits]
  exact hwins

end Cluster

/-- **The commit rule.** In every run of the cluster, right after every proposal and every step of
a message, a leader has committed every index of its term that its progress map counts on a quorum,
and its commit index moved only to such an index: exactly in the clusters that do not have just one
voter. -/
theorem commit_rule_iff (s : Setup) :
    (∀ acts a, a.isCall = true → ∀ i ∈ s.members,
      (((Cluster.exec s acts).step s a).peers i).node.role_ = .leader →
      ((Cluster.exec s acts).peers i).node.CommitsByRule
        (((Cluster.exec s acts).step s a).peers i).node) ↔
    s.members.length ≠ 1 := by
  constructor
  · intro h hone
    obtain ⟨i, hi⟩ : ∃ i, i ∈ s.members := by
      obtain ⟨i, hi⟩ := List.length_eq_one_iff.mp hone
      exact ⟨i, hi ▸ List.mem_singleton_self i⟩
    obtain ⟨acts, hr, hterm, hq, hlog⟩ := Cluster.single_leads s hi hone
    have hstep : (((Cluster.exec s acts).step s (.run i (.propose []))).peers i).node =
        (((Cluster.exec s acts).peers i).node.propose []).2 := by
      simp only [Cluster.step, Event.isLocal, and_true, if_pos hi, Cluster.perform,
        Function.update_self, Peer.handle]
    have hrule := h acts (.run i (.propose [])) rfl i hi
    rw [hstep, (propose_office _ _).1] at hrule
    refine not_commitsAll_propose hr hq ?_ (by rw [hterm]; decide) ?_ [] (hrule hr).1
    · rw [hlog]
      exact (RaftLog.wf_new (w := .fresh (s.conf i)) (List.cons_ne_nil _ _) rfl indexed_nil).1
    · rw [hlog]
      exact Nat.zero_le _
  · intro hne acts a _ i hi
    have hcard : 1 < s.members.length := by
      have hpos := List.length_pos_of_mem hi
      omega
    exact ((Cluster.ruled_exec s hcard acts).step hcard a).2 i hi

/-- A cluster of one node, which campaigns on its first tick. -/
def single : Setup where
  members := [1]
  config := fun n => { id := n, electionTick := 1, peers := [1] }
  conf := fun _ => {}
  draw := fun _ => 1
  nodup := by decide
  nonzero := by decide
  id_eq := fun _ _ => rfl
  peers_perm := by
    intro n hn
    rw [List.mem_singleton.mp hn]
  conf_perm := fun _ _ => Or.inl rfl

/-- The proposal of a single node is on its quorum of one and is not committed, also not after the
next round of its loop. -/
theorem single_proposal_uncommitted :
    let n := ((Cluster.exec single [.run 1 (.tick 1), .run 1 (.propose [7])]).peers 1).node
    n.role_ = .leader ∧ n.log_.term 1 = n.term_ ∧ n.StoredOnQuorum 1 ∧ n.log_.commitIndex = 0 ∧
      ((Cluster.exec single ([.run 1 (.tick 1), .run 1 (.propose [7])] ++ cycle 1)).peers
        1).node.log_.commitIndex = 0 := by
  decide +kernel

end NexusLOB.Raft
