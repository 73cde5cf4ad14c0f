import NexusLOB.Raft.CommitRule
import NexusLOB.Raft.LogRepair
import NexusLOB.Raft.Parameters

/-!
# How a new leader brings its followers up to date

The parts of a leadership that an exchange with one follower leaves out. While the leader speaks
to one follower, what it knows of the others does not change, and a peer that waits for the answer
to a probe is not sent anything. A follower that has persisted its log heeds every append of its
leader, and once it has the leader's last entry it can read its log. A round of the loop then
hands out all that is committed, which a follower learns from a heartbeat.
-/

namespace NexusLOB.Raft

open Collections Consensus

/-! ## The other followers -/

/-- From `n` to `n'` the leader spoke to `v` only: what the others hold is known as before, and
those that were paused are left alone. -/
structure Apart (v : NodeId) (n n' : RawNode) : Prop where
  id : n'.id_ = n.id_
  held : ∀ w, w ≠ v → w ≠ n.id_ → n'.held w = n.held w
  paused : ∀ w q, w ≠ v → w ≠ n.id_ → n.pr_.find? w = some q → q.paused = true →
    n'.pr_.find? w = some q

section Apart

variable {n n' n'' : RawNode} {v : NodeId} {q : Progress}

theorem sendAppend_paused (hq : n.pr_.find? v = some q) (hp : q.paused = true) :
    n.sendAppend v = n := by
  unfold RawNode.sendAppend
  rw [hq]
  exact if_pos hp

theorem broadcastAppend_paused (hq : n.pr_.find? v = some q) (hp : q.paused = true)
    (hv : v ≠ n.id_) : Passes v n n.broadcastAppend := by
  obtain ⟨n₁, hbefore, hafter⟩ := broadcastAppend_split (n.pr_.mem_keys_iff.mpr ⟨q, hq⟩) hv
  rw [sendAppend_paused (hbefore.find.trans hq) hp] at hafter
  exact hbefore.trans hafter

theorem Apart.of_progress (hid : n'.id_ = n.id_) (hpr : n'.pr_ = n.pr_) : Apart v n n' := by
  refine ⟨hid, fun w _ hw => ?_, fun w q _ _ hq _ => by rw [hpr]; exact hq⟩
  unfold RawNode.held
  rw [hid, hpr, if_neg hw, if_neg hw]

theorem Apart.trans (h : Apart v n n') (h' : Apart v n' n'') : Apart v n n'' where
  id := h'.id.trans h.id
  held := fun w hw hid => (h'.held w hw (h.id ▸ hid)).trans (h.held w hw hid)
  paused := fun w q hw hid hq hp => h'.paused w q hw (h.id ▸ hid) (h.paused w q hw hid hq hp) hp

theorem apart_modify (n : RawNode) (v : NodeId) (f : Progress → Progress) :
    Apart v n { n with pr_ := n.pr_.modify v f } := by
  have hfind : ∀ w, w ≠ v → (n.pr_.modify v f).find? w = n.pr_.find? w :=
    fun w hw => OrderedMap.find?_modify_of_ne _ _ (Ne.symm hw)
  refine ⟨rfl, fun w hw _ => ?_, fun w q hw _ hq _ => (hfind w hw).trans hq⟩
  unfold RawNode.held
  dsimp only
  rw [hfind w hw]

theorem apart_sendAppend (n : RawNode) (v : NodeId) : Apart v n (n.sendAppend v) where
  id := (sendAppend_dispatched n v).id
  held := fun _ _ hid => (sendAppend_dispatched n v).held hid
  paused := fun _ _ hw _ hq _ => (sendAppend_passes n (Ne.symm hw)).find.trans hq

theorem apart_broadcastAppend (n : RawNode) (v : NodeId) : Apart v n n.broadcastAppend where
  id := (broadcastAppend_dispatched n).id
  held := fun _ _ hid => (broadcastAppend_dispatched n).held hid
  paused := fun _ _ _ hid hq hp => (broadcastAppend_paused hq hp hid).find.trans hq

theorem apart_maybeCommit (n : RawNode) (v : NodeId) : Apart v n n.maybeCommit.2 := by
  obtain ⟨k, heq⟩ := maybeCommit_eq n
  rw [heq]
  exact .of_progress rfl rfl

/-- An answer of `v` concerns `v`. -/
theorem stepLeaderAppResp_apart (n : RawNode) (m : Message) :
    Apart m.sender n (n.stepLeaderAppResp m) := by
  unfold RawNode.stepLeaderAppResp
  split
  · exact .of_progress rfl rfl
  split_ifs
  · exact (apart_modify n _ _).trans (apart_sendAppend _ _)
  · have hcommit := (apart_modify n m.sender (RawNode.acceptProgress m.index)).trans
      (apart_maybeCommit _ _)
    have hcast := hcommit.trans (apart_broadcastAppend _ _)
    dsimp only
    split_ifs
    · split
      · split_ifs
        · exact hcast.trans (apart_sendAppend _ _)
        · exact hcast
      · exact hcast
    · split
      · split_ifs
        · exact hcommit.trans (apart_sendAppend _ _)
        · exact hcommit
      · exact hcommit

end Apart

/-! ## The first append -/

section First

variable {n : RawNode} {v : NodeId} {q : Progress}

/-- The log may grow behind an append. -/
theorem IsApp.mono {L L' : List Entry} {t : Nat} {i : NodeId} {m : Message}
    (h : IsApp L t i v m) (hpre : L <+: L') : IsApp L' t i v m where
  type := h.type
  receiver := h.receiver
  sender := h.sender
  term := h.term
  index_le := h.index_le.trans hpre.length_le
  logTerm := h.logTerm.trans (termAt_eq_of_isPrefix hpre h.index_le)
  entries := by
    obtain ⟨more, rfl⟩ := hpre
    rw [List.drop_append_of_le_length h.index_le]
    exact h.entries.trans (List.prefix_append _ _)

theorem Lead.toward {L : List Entry} {t : Nat} {i w : NodeId} (h : Lead L t i v n) (hw : w ≠ i) :
    Lead L t i w n :=
  ⟨h.role, h.term, h.id, hw, h.wf, h.logical, h.sliceable⟩

/-- What a new leader makes of its progress for a voter. -/
def RawNode.freshProgress (n : RawNode) (v : NodeId) : Progress :=
  { (Progress.new n.maxInflightMsgs_ (v ∈ n.learners_)).reset n.log_.lastIndex with paused := true }

/-- A new leader probes every other voter at the end of the log it had. -/
theorem becomeLeader_probes (hwf : n.log_.WF) (hterm : n.term_ ≠ 0)
    (hcom : n.log_.committed_ ≤ n.log_.lastIndex) (hv : v ∈ n.voters_) (hne : v ≠ n.id_)
    (hquiet : n.msgs_ = []) : ∃ m, IsApp n.becomeLeader.log_.logical n.term_ n.id_ v m ∧
      m.index = n.log_.lastIndex ∧ n.becomeLeader.pr_.find? v = some (n.freshProgress v) ∧
      appsTo v n.becomeLeader.msgs_ = [m] := by
  obtain ⟨hwf', hok, hlen⟩ := elected_readable hwf hterm hcom
  obtain ⟨hrole, hterm', hid, -⟩ := elected_office n
  have hlead : Lead n.elected.log_.logical n.term_ n.id_ v n.elected :=
    ⟨hrole, hterm', hid, hne, hwf', rfl, hok⟩
  let q := (Progress.new n.maxInflightMsgs_ (v ∈ n.learners_)).reset n.log_.lastIndex
  have hfind : n.elected.pr_.find? v = some q := by
    rw [find_elected n hne, find_resetProgress n hne, if_pos hv]
  obtain ⟨n₁, hbefore, hafter⟩ := broadcastAppend_split
    (n.elected.pr_.mem_keys_iff.mpr ⟨q, hfind⟩) (by rw [hid]; exact hne)
  obtain ⟨m, hm, hidx, hfind', hqueue⟩ :=
    (hlead.dispatched hbefore.toDispatched).sendAppend_probe (hbefore.find.trans hfind) rfl rfl
      (e := n.log_.lastIndex) rfl hlen
  rw [hbefore.apps, elected_msgs, hquiet] at hqueue
  refine ⟨m, ?_, hidx, hafter.find.trans hfind', hafter.apps.trans hqueue⟩
  rw [(becomeLeader_dispatched n).log]
  exact hm

/-- A proposal is not sent to a peer that is paused. -/
theorem propose_passes (hr : n.role_ = .leader) (hq : n.pr_.find? v = some q)
    (hp : q.paused = true) (hv : v ≠ n.id_) (data : Bytes) :
    (n.propose data).2.pr_.find? v = some q ∧
      appsTo v (n.propose data).2.msgs_ = appsTo v n.msgs_ := by
  have hfind : (n.proposed data).pr_.find? v = some q := (find_proposed hv data).trans hq
  have hpass : Passes v (n.proposed data) (n.propose data).2 := by
    unfold RawNode.propose
    rw [if_neg (not_not_intro hr)]
    exact broadcastAppend_paused hfind hp hv
  exact ⟨hpass.find.trans hfind, hpass.apps⟩

/-- A log that ends in entries that are not stored can be read. -/
theorem RaftLog.WF.sliceable_of_unstored {l : RaftLog} (h : l.WF)
    (hne : l.unstable_.entries_ ≠ []) : l.Sliceable := by
  have hwin := h.window
  rw [← WriteAheadLog.lastIndex_eq] at hwin
  refine Or.inr ?_
  rw [if_neg hne]
  exact Nat.le_trans hwin (Nat.le_max_right _ _)

/-- The log of a leader after a proposal. -/
theorem propose_readable (hr : n.role_ = .leader) (hwf : n.log_.WF) (hterm : n.term_ ≠ 0)
    (hcom : n.log_.committed_ ≤ n.log_.lastIndex) (data : Bytes) :
    (n.propose data).2.log_.WF ∧ (n.propose data).2.log_.Sliceable ∧
      (n.propose data).2.log_.logical =
        n.log_.logical ++ [⟨n.term_, n.log_.lastIndex + 1, .normal, data⟩] := by
  have hlog := propose_log n data
  rw [if_pos hr] at hlog
  rw [hlog]
  let e : Entry := ⟨n.term_, n.log_.lastIndex + 1, .normal, data⟩
  rcases hwf.append_one (e := e) rfl hterm with ⟨-, hlt⟩ | ⟨hwf', hlogical, -⟩
  · omega
  · refine ⟨hwf', hwf'.sliceable_of_unstored ?_, hlogical⟩
    rcases RaftLog.append_one_cases n.log_ e with ⟨-, hlt⟩ | ⟨heq, -⟩
    · change n.log_.lastIndex + 1 - 1 < _ at hlt
      omega
    · rw [heq, hwf.unstable_append_one (e := e) rfl]
      exact List.append_ne_nil_of_right_ne_nil _ (List.cons_ne_nil _ _)

/-- **A new leader that takes a command** has it at the end of its log, which it can read. -/
theorem becomeLeader_propose_lead (hwf : n.becomeLeader.log_.WF) (hterm : n.term_ ≠ 0)
    (hcom : n.becomeLeader.log_.committed_ ≤ n.becomeLeader.log_.lastIndex) (cmd : Bytes)
    (hv : v ≠ n.id_) :
    Lead (n.becomeLeader.log_.logical ++
        [⟨n.term_, n.becomeLeader.log_.lastIndex + 1, .normal, cmd⟩])
      n.term_ n.id_ v (n.becomeLeader.propose cmd).2 := by
  have hd := becomeLeader_dispatched n
  obtain ⟨-, hterm', hid, -⟩ := elected_office n
  have hrole : n.becomeLeader.role_ = .leader := becomeLeader_role n
  have hterm'' : n.becomeLeader.term_ = n.term_ := hd.term.trans hterm'
  obtain ⟨hwf₂, hok, hlog⟩ := propose_readable hrole hwf (by rw [hterm'']; exact hterm) hcom cmd
  obtain ⟨hrole₂, hterm₂⟩ := propose_office n.becomeLeader cmd
  rw [hterm''] at hlog
  exact ⟨hrole₂.trans hrole, hterm₂.trans hterm'',
    ((propose_dispatched hrole cmd).id.trans hd.id).trans hid, hv, hwf₂, hlog, hok⟩

/-- It still waits for the answer to its first append, which has not left yet. -/
theorem becomeLeader_propose_probes (hwf : n.log_.WF) (hterm : n.term_ ≠ 0)
    (hcom : n.log_.committed_ ≤ n.log_.lastIndex) (hv : v ∈ n.voters_) (hne : v ≠ n.id_)
    (hquiet : n.msgs_ = []) (cmd : Bytes) : ∃ m ∈ (n.becomeLeader.propose cmd).2.msgs_,
      IsApp n.becomeLeader.log_.logical n.term_ n.id_ v m ∧ m.index = n.log_.lastIndex ∧
      (n.becomeLeader.propose cmd).2.pr_.find? v = some (n.freshProgress v) := by
  have hid : n.becomeLeader.id_ = n.id_ :=
    (becomeLeader_dispatched n).id.trans (elected_office n).2.2.1
  obtain ⟨m, happ, hidx, hfind, hqueue⟩ := becomeLeader_probes hwf hterm hcom hv hne hquiet
  obtain ⟨hfind', hqueue'⟩ :=
    propose_passes (becomeLeader_role n) hfind rfl (by rw [hid]; exact hne) cmd
  have hmem : m ∈ appsTo v (n.becomeLeader.propose cmd).2.msgs_ := by
    rw [hqueue', hqueue]
    exact List.mem_singleton.mpr rfl
  exact ⟨m, (List.mem_filter.mp hmem).1, happ, hidx, hfind'⟩

end First

/-! ## What is under way -/

section Phase

variable {L : List Entry} {t k : Nat} {i v : NodeId} {x : Exchange}

theorem Phase.linked (h : Phase L t i v x k) : ∃ F q, Linked L t i v F q x := by
  cases h with
  | asked h => exact ⟨_, _, h⟩
  | refused h => exact ⟨_, _, h⟩
  | answered h => exact ⟨_, _, h⟩
  | flowing h => exact ⟨_, _, h⟩

theorem Phase.isApp (h : Phase L t i v x k) {m : Message}
    (hm : m ∈ x.toFollower) : IsApp L t i v m := by
  cases h with
  | asked h hs hmatch hn happ hf hl =>
    rw [hf, List.mem_singleton] at hm
    rw [hm]
    exact happ
  | refused h hs hmatch hn hpos he hr hrej hidx hf hl =>
    rw [hf] at hm
    cases hm
  | answered h hs hmatch hr hrej hshare hf hl =>
    rw [hf] at hm
    cases hm
  | flowing h hs hp hok hmatch happs => exact (happs m hm).1

theorem Phase.isResp (h : Phase L t i v x k) {r : Message}
    (hr : r ∈ x.toLeader) : IsResp t v r := by
  cases h with
  | asked h hs hmatch hn happ hf hl =>
    rw [hl] at hr
    cases hr
  | refused h hs hmatch hn hpos he hresp hrej hidx hf hl =>
    rw [hl, List.mem_singleton] at hr
    rw [hr]
    exact hresp
  | answered h hs hmatch hresp hrej hshare hf hl =>
    rw [hl, List.mem_singleton] at hr
    rw [hr]
    exact hresp
  | flowing h hs hp hok hmatch happs hresps => exact (hresps r hr).1

end Phase

/-! ## A follower that is spoken to -/

section Follower

variable {L F : List Entry} {t : Nat} {i v : NodeId} {p : Peer} {m : Message}

/-- A follower that has persisted its log heeds the appends of its leader. -/
theorem Follow.heeds (h : Follow L t i v F p) (hL : Indexed L) (hm : IsApp L t i v m)
    (leaderLog : Nat → List Entry) : p.node.log_.Heeds leaderLog m := by
  refine ⟨fun _ ht hc => ⟨?_, fun _ hne => absurd h.persisted hne⟩, fun hty => ?_⟩
  · have hle := (h.shares_ack hL hm ht hc).2.length_le
    have hack := hm.ack_le
    rw [List.length_take] at hle
    rw [h.wf.lastIndex_eq, h.logical]
    change m.ack ≤ _
    omega
  · rw [hm.type] at hty
    cases hty

/-- A persisted log is not changed by an append, or has entries to store afterwards. -/
theorem RaftLog.reconcile_unchanged {l : RaftLog} (hnil : l.unstable_.entries_ = []) {prev : Nat}
    {ents : List Entry} (hc : Continues prev ents) :
    l.reconcile prev ents = l ∨ (l.reconcile prev ents).unstable_.entries_ ≠ [] := by
  unfold RaftLog.reconcile
  rcases RaftLog.findConflict_cases l hc with ⟨h0, -⟩ | ⟨j, e, he, hf, -⟩
  · left
    have hcut : ∀ k, l.unstable_.truncateFrom k = l.unstable_ := fun k => if_pos hnil
    rw [if_pos h0]
    split_ifs
    · rw [hcut]
    · rfl
  · rw [if_neg (by omega), hf]
    split_ifs
    · exact Or.inl rfl
    · right
      have hdrop : ents.drop (prev + j + 1 - prev - 1) ≠ [] := by
        have hlt := (List.getElem?_eq_some_iff.mp he).1
        intro hd
        have hlen := congrArg List.length hd
        rw [List.length_drop, List.length_nil] at hlen
        omega
      cases hd : ents.drop (prev + j + 1 - prev - 1) with
      | nil => exact absurd hd hdrop
      | cons e' rest =>
        simp only [LogUnstable.append, LogUnstable.truncateAndAppend, hnil, if_true]
        exact List.cons_ne_nil _ _

/-- A follower that has the leader's whole log can read it. -/
def Readable (L : List Entry) (p : Peer) : Prop :=
  Shares L p.node.log_.logical L.length → p.node.log_.Sliceable

/-- An append leaves the log as readable as it was. -/
theorem Follow.readable (h : Follow L t i v F p) (hL : Indexed L) (hm : IsApp L t i v m)
    (hok : Readable L p) (draw : Nat) :
    Readable L (p.handle (.step m draw)).1.processReady.1 := by
  have hround : ∀ n' : RawNode, n'.lastReadyLastIndex_ = p.node.lastReadyLastIndex_ →
      n'.lastReadyApplied_ = p.node.lastReadyApplied_ → n'.log_.WF →
      (Shares L n'.log_.logical L.length → n'.log_.Sliceable) →
      Readable L (Peer.processReady { p with node := n' }).1 := by
    intro n' hlast happ hwf hread
    obtain ⟨-, -, l', hset, hnode⟩ := Peer.processReady_spec
      (p := { p with node := n' }) ⟨h.ready, hlast.trans h.last, happ.trans h.applied⟩ hwf
    unfold Readable
    rw [hnode]
    dsimp only
    rw [hset.logical]
    exact fun hs => hset.sliceable (hread hs)
  rw [h.handle_app hm, stepFollowerApp_eq]
  by_cases ht : p.node.log_.term m.index = m.logTerm
  · rw [RaftLog.maybeAppend_of_eq ht]
    have hacc := h.accepts hL hm ht
    obtain ⟨hwf, -⟩ := h.wf.reconcile hacc.continues hacc.prev_pos
    obtain ⟨hwf', hlog'⟩ := hwf.of_logical_eq
      { p.node.log_.reconcile m.index m.entries with
        committed_ := if m.commit > p.node.log_.committed_ then
          min m.commit (m.index + m.entries.length) else p.node.log_.committed_ } rfl rfl
    refine hround _ rfl rfl hwf' fun hs => ?_
    rcases RaftLog.reconcile_unchanged h.persisted hacc.continues with heq | hne
    · change RaftLog.Sliceable (p.node.log_.reconcile m.index m.entries)
      rw [heq]
      refine hok ?_
      have hs' := hlog' ▸ hs
      rw [heq] at hs'
      exact hs'
    · exact hwf'.sliceable_of_unstored hne
  · rw [RaftLog.maybeAppend_of_ne ht]
    exact hround _ rfl rfl h.wf hok

end Follower

/-! ## Handing out what is committed -/

section Delivery

variable {l : RaftLog} {p : Peer}

/-- From a log that can be read, all that is committed is handed out. -/
theorem RaftLog.WF.length_nextCommittedEntries (h : l.WF) (hok : l.Sliceable)
    (hcom : l.committed_ ≤ l.lastIndex) :
    (l.nextCommittedEntries true).length = l.committed_ - l.applied_ := by
  unfold RaftLog.nextCommittedEntries
  by_cases hle : l.committed_ ≤ l.applied_
  · rw [if_pos hle, List.length_nil]
    omega
  rw [if_neg hle]
  have hlo : l.firstIndex ≤ l.applied_ + 1 := by
    rw [h.firstIndex_eq]
    omega
  have hlt : l.applied_ + 1 < l.committed_ + 1 := by omega
  have hraw := RaftLog.length_raw hok hlo hlt (by omega) h.snapshot
  obtain ⟨ents, hslice, heq | ⟨heq, hshort⟩⟩ :=
    RaftLog.slice_cases hok hlo hlt (by omega) h.snapshot noLimit
  · rw [limitSize_noLimit] at heq
    rw [hslice, heq]
    change (l.rawStored _ _ ++ l.rawUnstable _ _).length = _
    rw [hraw]
    omega
  · rw [WriteAheadLog.collect_unlimited (Or.inr rfl), List.nil_append] at heq
    rw [heq] at hshort
    exact absurd hshort (Nat.lt_irrefl _)

/-- Between two rounds a member has handed out what it marked as applied. -/
theorem InStep.length_delivered (h : InStep p) (hready : p.ready = none) :
    p.delivered.length = p.node.log_.applied_ := by
  have hlen := congrArg List.length h.delivered
  rw [List.length_map, List.length_range', Peer.underWay, hready] at hlen
  exact hlen

/-- After a round all that was committed has been handed out. -/
theorem Peer.processReady_delivers (hready : p.ready = none)
    (hdel : p.delivered.length = p.node.log_.applied_) (hwf : p.node.log_.WF)
    (hok : p.node.log_.Sliceable) (hcom : p.node.log_.committed_ ≤ p.node.log_.lastIndex) {k : Nat}
    (hk : k ≤ p.node.log_.committed_) : k ≤ p.processReady.1.delivered.length := by
  rw [Peer.processReady_eq hready]
  change _ ≤ (p.delivered ++ p.node.log_.nextCommittedEntries true).length
  rw [List.length_append, hdel, hwf.length_nextCommittedEntries hok hcom]
  omega

end Delivery

/-! ## Heartbeats -/

section Heartbeats

variable {L F : List Entry} {t : Nat} {i v : NodeId} {n : RawNode} {p : Peer} {m : Message}

theorem broadcastHeartbeat_eq (n : RawNode) : n.broadcastHeartbeat =
    { n with msgs_ := n.msgs_ ++
        (n.pr_.keys.filter (· ≠ n.id_)).map fun v => n.heartbeat v [] } :=
  foldl_send (f := fun n v => n.heartbeat v []) (fun _ _ _ => rfl) n.pr_.keys n

/-- The clock runs until a leader sends heartbeats. -/
theorem Peer.exec_heartbeat (hready : p.ready = none) (hr : p.node.role_ = .leader) (draw : Nat) :
    ∃ k, p.exec (List.replicate k (.tick draw)) =
      { p with node := { p.node.broadcastHeartbeat with tickCount_ := 0 } } := by
  refine Peer.exec_clock hready (fun k (hk : k + 1 < p.node.heartbeatTick_) => ?_) fun k hk => ?_
  · simp only [RawNode.tick, if_pos hr]
    rw [if_neg (Nat.not_le.mpr hk)]
  · simp only [RawNode.tick, if_pos hr]
    rw [if_pos hk, broadcastHeartbeat_eq, broadcastHeartbeat_eq]
    rfl

/-- A heartbeat with the commit index at the end of a log that the follower shares is heeded. -/
theorem Follow.heeds_beat (h : Follow L t i v F p) (hs : Shares L F L.length)
    (hty : m.type = .msgHeartbeat) (hcom : m.commit = L.length) {leaderLog : Nat → List Entry}
    (hL : leaderLog m.term = L) : p.node.log_.Heeds leaderLog m := by
  refine ⟨fun happ => ?_, fun _ _ => ?_⟩
  · rw [hty] at happ
    cases happ
  · have hlen := hs.2.length_le
    rw [List.take_length] at hlen
    have hlast : min m.commit p.node.log_.lastIndex = L.length := by
      rw [hcom, h.wf.lastIndex_eq, h.logical]
      omega
    rw [hlast, hL, h.term_eq]
    exact hs.termAt_eq

/-- A follower that shares the whole log commits and hands out all of it on a heartbeat. -/
theorem Follow.beat (h : Follow L t i v F p) (hs : Shares L F L.length) (hok : Readable L p)
    (hin : InStep p) (hty : m.type = .msgHeartbeat) (hterm : m.term = t)
    (hcom : m.commit = L.length) (draw : Nat) :
    L.length ≤ (p.handle (.step m draw)).1.processReady.1.delivered.length := by
  have hterm' : m.term = p.node.term_ := by rw [hterm, h.term]
  have hstep : p.node.step m draw = p.node.stepFollowerHeartbeat m := by
    simp only [RawNode.step, hty, raiseTerm_of_le hterm'.le, RawNode.dispatch, h.role,
      RawNode.stepFollower, hterm', Nat.lt_irrefl, if_false]
  have hhandle : (p.handle (.step m draw)).1 =
      { p with node := p.node.stepFollowerHeartbeat m } := by
    simp only [Peer.handle, h.ready, hstep]
  have hlen := hs.2.length_le
  rw [List.take_length] at hlen
  have hlast : L.length ≤ p.node.log_.lastIndex := by
    rw [h.wf.lastIndex_eq, h.logical]
    exact hlen
  have hto : p.node.log_.commitTo m.commit = { p.node.log_ with committed_ := L.length } := by
    have hle := h.commit.1
    unfold RaftLog.commitTo
    rw [hcom]
    split_ifs
    · rw [Nat.min_eq_left hlast]
    · rw [show L.length = p.node.log_.committed_ by omega]
  have hread : p.node.log_.Sliceable := hok (by rw [h.logical]; exact hs)
  obtain ⟨hwf, -⟩ := h.wf.of_logical_eq { p.node.log_ with committed_ := L.length } rfl rfl
  rw [hhandle, stepFollowerHeartbeat_eq, hto]
  refine Peer.processReady_delivers ?_ ?_ ?_ ?_ ?_ (Nat.le_refl L.length)
  · exact h.ready
  · exact hin.length_delivered h.ready
  · exact hwf
  · exact hread
  · exact hlast

end Heartbeats

end NexusLOB.Raft
