import NexusLOB.Raft.Catchup

/-!
# A command can always be committed

From every state that a run of heeded messages can reach, clocks, loops and deliveries can bring
about a leader that takes a command and gets it handed out by every member. After the election the
leader exchanges appends and answers with one follower after the other until that follower has its
whole log. It then commits the log, as all members hold it, and its next heartbeat tells the others.
-/

namespace NexusLOB.Raft

open Collections Consensus

/-- The node leads, accepts the command and appends it to its log as the entry `e`. -/
structure Takes (n : RawNode) (cmd : Bytes) (e : Entry) : Prop where
  leads : n.role_ = .leader
  accepted : (n.propose cmd).1 = true
  entry : e = ⟨n.term_, n.log_.lastIndex + 1, .normal, cmd⟩
  appended : (n.propose cmd).2.log_.logical = n.log_.logical ++ [e]

namespace Cluster

/-- A cluster of several members in a run whose messages are heeded, with room for a message under
way to every peer. -/
structure Healthy (s : Setup) (c : Cluster) : Prop where
  heeding : Heeding s c
  ruled : Ruled s c
  room : ∀ i ∈ s.members, 1 ≤ (c.peers i).node.maxInflightMsgs_

section Healthy

variable {s : Setup} {c c' : Cluster} {i j : NodeId} {draw : Nat}

theorem Heeded.params {a : Action} (ha : c.Heeded s a) (i : NodeId) :
    ((c.step s a).peers i).node.params = (c.peers i).node.params := by
  rcases ha.cases with heq | ⟨j, -, ev, hlive, heq⟩
  · rw [heq]
  · rw [heq]
    by_cases hij : i = j
    · subst hij
      rw [show (c.perform i ev).peers i = ((c.peers i).handle ev).1 from Function.update_self ..]
      exact handle_params _ hlive
    · rw [show (c.perform j ev).peers i = c.peers i from Function.update_of_ne hij ..]

theorem Healthy.step (h : Healthy s c) (hcard : 1 < s.members.length) {a : Action}
    (ha : c.Heeded s a) : Healthy s (c.step s a) where
  heeding := h.heeding.step ha
  ruled := (h.ruled.step hcard a).1
  room := by
    intro i hi
    have hparams := congrArg (fun x : Nat × Nat × Nat × Nat => x.2.2.2) (ha.params i)
    change ((c.step s a).peers i).node.maxInflightMsgs_ = (c.peers i).node.maxInflightMsgs_
      at hparams
    rw [hparams]
    exact h.room i hi

theorem Healthy.run (h : Healthy s c) (hcard : 1 < s.members.length) {acts : List Action}
    (hacts : c.HeededRun s acts) : Healthy s (acts.foldl (Cluster.step s) c) := by
  induction acts generalizing c with
  | nil => exact h
  | cons a rest ih => exact ih (h.step hcard hacts.1) hacts.2

theorem healthy_init (hroom : ∀ i ∈ s.members, 1 ≤ (s.config i).maxInflightMsgs) :
    Healthy s (init s) := ⟨heeding_init s, ruled_init s, hroom⟩

theorem Healthy.goes (h : Healthy s c) (hcard : 1 < s.members.length) (hgo : Goes s draw c c') :
    Healthy s c' := by
  obtain ⟨acts, -, hacts, rfl⟩ := hgo
  exact h.run hcard hacts

theorem Healthy.live (h : Healthy s c) : Live s c := ⟨h.ruled.simulates, h.heeding.inOrder⟩

/-- What is handed out at an index is what any member has committed there. -/
theorem Heeding.handed_committed (h : Heeding s c) (hi : i ∈ s.members) (hj : j ∈ s.members)
    {a : Entry} (ha : a ∈ (c.peers j).delivered)
    (hle : a.index ≤ (c.peers i).node.log_.committed_) :
    (c.peers i).node.log_.logical[a.index - 1]? = some a := by
  obtain ⟨hpos, -⟩ := (h.inOrder j hj).getElem?_delivered ha
  obtain ⟨e, r, hsim⟩ := h.simulates
  obtain ⟨x, -, hxl, hxc, hkept⟩ := hsim.commitKept hi
  have hc := (hsim.peer i hi).tracks.complete trivial
  obtain ⟨t, k, hcom, hk, hget⟩ := hc.handed ((hsim.peer j hj).delivered a ha).2
  rw [← hxl]
  rw [← hxc] at hle
  rcases hkept with h0 | ⟨t', k', hcom', -, hk', hpre⟩
  · omega
  · have hmark := hcom'.mark.le_length
    have hlt : a.index - 1 < (r.upTo t' x.commit).length := by
      rw [Replication.State.upTo, List.length_take]
      omega
    rw [← getElem?_eq_of_isPrefix hpre hlt, Replication.State.upTo, List.getElem?_take,
      if_pos (by omega), ← hget]
    exact hc.committed_agree hcom' hcom (by omega) hk

/-- A follower's committed entries are its leader's. -/
theorem Heeding.shares_commit (h : Heeding s c) (hi : i ∈ s.members) (hj : j ∈ s.members)
    (hr : (c.peers i).node.role_ = .leader)
    (hterm : (c.peers j).node.term_ = (c.peers i).node.term_) :
    Shares (c.peers i).node.log_.logical (c.peers j).node.log_.logical
      (c.peers j).node.log_.committed_ := by
  obtain ⟨e, r, hsim⟩ := h.simulates
  obtain ⟨x, hxt, hxl, hxc, hkept⟩ := hsim.commitKept hj
  obtain ⟨hlog, hel⟩ := hsim.leads hi hr
  have hc := (hsim.peer i hi).tracks.complete trivial
  rw [← hxc, ← hxl, hlog]
  rcases hkept with h0 | ⟨t', k', hcom', ht', hk', hpre⟩
  · rw [h0]
    exact ⟨Nat.zero_le _, List.nil_prefix⟩
  · have hmark := hcom'.mark.le_length
    have hlen : (r.upTo t' x.commit).length = x.commit := by
      rw [Replication.State.upTo, List.length_take]
      omega
    have hlead : r.upTo t' x.commit <+: r.leaderLog (c.peers i).node.term_ :=
      (take_prefix_of_le hk').trans (hc.upTo_isPrefix hcom' (by rw [← hterm, ← hxt]; exact ht') hel)
    have htake := List.prefix_iff_eq_take.mp hlead
    rw [hlen] at htake
    refine ⟨hlen.symm.le.trans hlead.length_le, ?_⟩
    rw [← htake]
    exact hpre

end Healthy

/-! ## The exchange with one follower -/

/-- The two nodes of an exchange within a cluster. -/
def between (c : Cluster) (i v : NodeId) (toFollower toLeader : List Message) : Exchange :=
  { leader := c.peers i, follower := c.peers v, toFollower := toFollower, toLeader := toLeader }

/-- The leader `i` of term `t` with the log `L`, between two rounds. -/
structure Chairs (L : List Entry) (t : Nat) (i : NodeId) (p : Peer) : Prop where
  idle : p.Idle
  lead : ∀ v, v ≠ i → Lead L t i v p.node
  quiet : p.node.msgs_ = []

/-- What an exchange with `v` leaves alone: the other members, and what the leader knows of them. -/
structure SpokeTo (i v : NodeId) (c c' : Cluster) : Prop where
  apart : Apart v (c.peers i).node (c'.peers i).node
  others : ∀ u, u ≠ i → u ≠ v → c'.peers u = c.peers u
  grows : ∀ m ∈ c.network, m ∈ c'.network

section Exchange

variable {s : Setup} {c c' c'' : Cluster} {i v w : NodeId} {draw : Nat} {L F : List Entry} {t : Nat}
  {toFollower toLeader : List Message} {k : Nat}

theorem SpokeTo.refl (i v : NodeId) (c : Cluster) : SpokeTo i v c c :=
  ⟨.of_progress rfl rfl, fun _ _ _ => rfl, fun _ hm => hm⟩

theorem SpokeTo.trans (h : SpokeTo i v c c') (h' : SpokeTo i v c' c'') : SpokeTo i v c c'' where
  apart := h.apart.trans h'.apart
  others := fun u hi hv => (h'.others u hi hv).trans (h.others u hi hv)
  grows := fun m hm => h'.grows m (h.grows m hm)

/-- The round after a message. -/
theorem Rounds.handled {m : Message} (h : Rounds c v ((c.peers v).node.step m draw) c')
    (hready : (c.peers v).ready = none) :
    c'.peers v = ((c.peers v).handle (.step m draw)).1.processReady.1 ∧
      ∀ r ∈ ((c.peers v).handle (.step m draw)).1.processReady.2, r ∈ c'.network := by
  let p : Peer := { c.peers v with node := (c.peers v).node.step m draw }
  have hhandle : ((c.peers v).handle (.step m draw)).1 = p := by
    simp only [p, Peer.handle, hready]
  rw [hhandle, Peer.processReady_eq (p := p) hready]
  refine ⟨h.self.trans ?_, h.sent⟩
  rw [Peer.processReady_eq (p := p) hready]

/-- One append arrives. -/
theorem Healthy.deliver_follower (h : Healthy s c) (hv : v ∈ s.members) (hvi : v ≠ i)
    {m : Message} {rest : List Message}
    (hphase : Phase L t i v (c.between i v (m :: rest) toLeader) k) (hm : m ∈ c.network)
    (hread : Readable L (c.peers v)) (draw : Nat) : ∃ c' k' out, Goes s draw c c' ∧ k' < k ∧
      Phase L t i v (c'.between i v rest (toLeader ++ out)) k' ∧
      (∀ r ∈ out, r ∈ c'.network ∧ r.receiver = i) ∧ Readable L (c'.peers v) ∧
      c'.peers i = c.peers i ∧ SpokeTo i v c c' := by
  obtain ⟨F, q, hlink⟩ := hphase.linked
  have happ : IsApp L t i v m := hphase.isApp List.mem_cons_self
  have hL : Indexed L := by
    rw [← hlink.lead.logical]
    exact hlink.lead.wf.logical
  obtain ⟨c', hgo, hround⟩ := h.live.receive hm happ.receiver hv hlink.follow.ready
    (hlink.follow.heeds hL happ _) draw
  obtain ⟨hself, hsent⟩ := hround.handled hlink.follow.ready
  have hleader : c'.peers i = c.peers i := hround.other (Ne.symm hvi)
  obtain ⟨k', hlt, hphase'⟩ := hphase.deliver_follower rfl
    (Exchange.deliver_follower rfl hlink.lead.id draw)
  refine ⟨c', k', respsTo i ((c.peers v).handle (.step m draw)).1.processReady.2, hgo, hlt, ?_,
    fun r hr => ?_, ?_, hleader, ?_⟩
  · unfold between
    rw [hleader, hself]
    exact hphase'
  · obtain ⟨hmem, hr⟩ := List.mem_filter.mp hr
    exact ⟨hsent r hmem, (of_decide_eq_true hr).2⟩
  · rw [hself]
    exact hlink.follow.readable hL happ hread draw
  · refine ⟨?_, fun u _ huv => hround.other huv, hround.grows⟩
    rw [hleader]
    exact .of_progress rfl rfl

/-- One answer arrives. -/
theorem Healthy.deliver_leader (h : Healthy s c) (hi : i ∈ s.members) (hvi : v ≠ i)
    {r : Message} {rest : List Message}
    (hphase : Phase L t i v (c.between i v toFollower (r :: rest)) k) (hr : r ∈ c.network)
    (hrecv : r.receiver = i) (draw : Nat) : ∃ c' k' out, Goes s draw c c' ∧ k' < k ∧
      Phase L t i v (c'.between i v (toFollower ++ out) rest) k' ∧
      (∀ m ∈ out, m ∈ c'.network) ∧ c'.peers v = c.peers v ∧
      (c'.peers i).node.msgs_ = [] ∧ SpokeTo i v c c' := by
  obtain ⟨F, q, hlink⟩ := hphase.linked
  have hresp : IsResp t v r := hphase.isResp List.mem_cons_self
  obtain ⟨c', hgo, hround⟩ := h.live.receive hr hrecv hi hlink.idle.ready
    (RaftLog.heeds_of_type hresp.type (by decide)) draw
  obtain ⟨hself, hsent⟩ := hround.handled hlink.idle.ready
  have hfollower : c'.peers v = c.peers v := hround.other hvi
  obtain ⟨k', hlt, hphase'⟩ := hphase.deliver_leader rfl
    (Exchange.deliver_leader rfl hlink.follow.id draw)
  obtain ⟨l', -, hnode⟩ := hround.node
  refine ⟨c', k', appsTo v ((c.peers i).handle (.step r draw)).1.processReady.2, hgo, hlt, ?_,
    fun m hm => hsent m (List.mem_filter.mp hm).1, hfollower, by rw [hnode], ?_⟩
  · unfold between
    rw [hfollower, hself]
    exact hphase'
  · refine ⟨?_, fun u hui _ => hround.other hui, hround.grows⟩
    have hstep : (c.peers i).node.step r draw = (c.peers i).node.stepLeaderAppResp r :=
      hlink.lead.step_appResp hresp.type hresp.term draw
    have happ := stepLeaderAppResp_apart (c.peers i).node r
    rw [hresp.sender, ← hstep] at happ
    refine happ.trans (.of_progress ?_ ?_)
    · rw [hnode]
    · rw [hnode]

/-- **The exchange ends** with a follower that has the leader's log, as the leader knows. -/
theorem Healthy.exchange (h : Healthy s c) (hcard : 1 < s.members.length) (hi : i ∈ s.members)
    (hv : v ∈ s.members) (hvi : v ≠ i)
    (hphase : Phase L t i v (c.between i v toFollower toLeader) k)
    (hto : ∀ m ∈ toFollower, m ∈ c.network)
    (hback : ∀ r ∈ toLeader, r ∈ c.network ∧ r.receiver = i) (hread : Readable L (c.peers v))
    (hquiet : (c.peers i).node.msgs_ = []) (draw : Nat) :
    ∃ c' F q, Goes s draw c c' ∧ Linked L t i v F q (c'.between i v [] []) ∧
      q.matchIndex = L.length ∧ Shares L F L.length ∧ Readable L (c'.peers v) ∧
      (c'.peers i).node.msgs_ = [] ∧ SpokeTo i v c c' := by
  induction k using Nat.strongRecOn generalizing c toFollower toLeader with
  | ind k ih =>
    match toFollower, toLeader with
    | m :: rest, toLeader =>
      obtain ⟨c₁, k₁, out, hgo, hlt, hphase₁, hout, hread₁, hsame, hspoke⟩ :=
        h.deliver_follower hv hvi hphase (hto m List.mem_cons_self) hread draw
      obtain ⟨c₂, F, q, hgo₂, hlink, hmatch, hshare, hread₂, hquiet₂, hspoke₂⟩ :=
        ih k₁ hlt (h.goes hcard hgo) hphase₁
          (fun m' hm' => hspoke.grows _ (hto m' (List.mem_cons_of_mem _ hm'))) (by
            intro r hr
            rcases List.mem_append.mp hr with hr | hr
            · exact ⟨hspoke.grows _ (hback r hr).1, (hback r hr).2⟩
            · exact hout r hr)
          hread₁ (by rw [hsame]; exact hquiet)
      exact ⟨c₂, F, q, hgo.trans hgo₂, hlink, hmatch, hshare, hread₂, hquiet₂,
        hspoke.trans hspoke₂⟩
    | [], r :: rest =>
      obtain ⟨c₁, k₁, out, hgo, hlt, hphase₁, hout, hsame, hquiet₁, hspoke⟩ :=
        h.deliver_leader hi hvi hphase (hback r List.mem_cons_self).1
          (hback r List.mem_cons_self).2 draw
      obtain ⟨c₂, F, q, hgo₂, hlink, hmatch, hshare, hread₂, hquiet₂, hspoke₂⟩ :=
        ih k₁ hlt (h.goes hcard hgo) hphase₁ hout (by
            intro r' hr'
            obtain ⟨hnet, hrecv⟩ := hback r' (List.mem_cons_of_mem _ hr')
            exact ⟨hspoke.grows _ hnet, hrecv⟩)
          (by rw [hsame]; exact hread) hquiet₁
      exact ⟨c₂, F, q, hgo.trans hgo₂, hlink, hmatch, hshare, hread₂, hquiet₂,
        hspoke.trans hspoke₂⟩
    | [], [] =>
      cases hphase with
      | asked h hs hmatch hn happ hf hl => cases hf
      | refused h hs hmatch hn hpos he hresp hrej hidx hf hl => cases hl
      | answered h hs hmatch hresp hrej hshare hf hl => cases hl
      | flowing hlink hs hp hok hmatch happs hresps hwindow hdone =>
        obtain ⟨hend, hshare⟩ := hdone rfl rfl
        exact ⟨c, _, _, .refl s draw c, hlink, hend, hshare, hread, hquiet, .refl i v c⟩

end Exchange

/-! ## One follower after the other -/

/-- The leader waits for the answer of `v` to its first append, which is under way. -/
structure Probed (L : List Entry) (t : Nat) (i v : NodeId) (c : Cluster) (F : List Entry)
    (q : Progress) (m : Message) : Prop where
  linked : Linked L t i v F q (c.between i v [m] [])
  state : q.state = .probe
  paused : q.paused = true
  matchIndex : q.matchIndex = 0
  nextIndex : q.nextIndex = m.index + 1
  app : IsApp L t i v m
  sent : m ∈ c.network
  readable : Readable L (c.peers v)

/-- Follower `v` has the leader's log, and the leader knows it. -/
structure Synced (L : List Entry) (t : Nat) (i v : NodeId) (c : Cluster) (F : List Entry) :
    Prop where
  follow : Follow L t i v F (c.peers v)
  shares : Shares L F L.length
  readable : Readable L (c.peers v)
  held : (c.peers i).node.held v = L.length

section Sync

variable {s : Setup} {c c' : Cluster} {i v w : NodeId} {draw : Nat} {L F : List Entry} {t : Nat}
  {rest : List NodeId} {q : Progress} {m : Message}

theorem Probed.spokeTo (h : Probed L t i w c F q m) (hs : SpokeTo i v c c') (hwv : w ≠ v)
    (hchair : Chairs L t i (c'.peers i)) : Probed L t i w c' F q m := by
  obtain ⟨hlink, hstate, hpaused, hmatch, hnext, happ, hsent, hread⟩ := h
  have hwi : w ≠ i := hlink.lead.other
  have hpeer : c'.peers w = c.peers w := hs.others w hwi hwv
  have hid : (c.peers i).node.id_ = i := hlink.lead.id
  have hfind := hs.apart.paused w q hwv (by rw [hid]; exact hwi) hlink.find hpaused
  refine ⟨⟨hchair.idle, hchair.lead w hwi, hfind, ?_, ?_, hlink.room⟩, hstate, hpaused, hmatch,
    hnext, happ, hs.grows m hsent, by rw [hpeer]; exact hread⟩
  · change appsTo w (c'.peers i).node.msgs_ = []
    rw [hchair.quiet]
    rfl
  · change Follow L t i w F (c'.peers w)
    rw [hpeer]
    exact hlink.follow

theorem Synced.spokeTo (h : Synced L t i w c F) (hs : SpokeTo i v c c') (hwv : w ≠ v)
    (hwi : w ≠ i) (hid : (c.peers i).node.id_ = i) : Synced L t i w c' F := by
  have hpeer : c'.peers w = c.peers w := hs.others w hwi hwv
  refine ⟨by rw [hpeer]; exact h.follow, h.shares, by rw [hpeer]; exact h.readable, ?_⟩
  rw [hs.apart.held w hwv (by rw [hid]; exact hwi)]
  exact h.held

/-- The leader brings one follower up to date. -/
theorem Probed.sync (hp : Probed L t i v c F q m) (h : Healthy s c) (hcard : 1 < s.members.length)
    (hi : i ∈ s.members) (hv : v ∈ s.members) (hchair : Chairs L t i (c.peers i)) (draw : Nat) :
    ∃ c' F', Goes s draw c c' ∧ Synced L t i v c' F' ∧ Chairs L t i (c'.peers i) ∧
      SpokeTo i v c c' := by
  have hvi : v ≠ i := hp.linked.lead.other
  obtain ⟨c', F', q', hgo, hlink, hmatch, hshare, hread, hquiet, hspoke⟩ :=
    h.exchange hcard hi hv hvi
      (.asked hp.linked hp.state hp.matchIndex hp.nextIndex hp.app rfl rfl)
      (fun m' hm' => by rw [List.mem_singleton.mp hm']; exact hp.sent) (List.forall_mem_nil _)
      hp.readable hchair.quiet draw
  refine ⟨c', F', hgo, ⟨hlink.follow, hshare, hread, ?_⟩,
    ⟨hlink.idle, fun w hw => hlink.lead.toward hw, hquiet⟩, hspoke⟩
  have hfind : (c'.peers i).node.pr_.find? v = some q' := hlink.find
  have hid : (c'.peers i).node.id_ = i := hlink.lead.id
  unfold RawNode.held
  rw [if_neg (by rw [hid]; exact hvi), hfind]
  exact hmatch

/-- The leader brings all its followers up to date. -/
theorem Healthy.syncs (h : Healthy s c) (hcard : 1 < s.members.length) (hi : i ∈ s.members)
    (hrest : ∀ v ∈ rest, v ∈ s.members ∧ ∃ F q m, Probed L t i v c F q m) (hnd : rest.Nodup)
    (hchair : Chairs L t i (c.peers i)) (draw : Nat) : ∃ c', Goes s draw c c' ∧
      Chairs L t i (c'.peers i) ∧ (∀ v ∈ rest, ∃ F, Synced L t i v c' F) ∧
      ∀ w ∉ rest, w ≠ i → ∀ F, Synced L t i w c F → Synced L t i w c' F := by
  induction rest generalizing c with
  | nil =>
    exact ⟨c, .refl s draw c, hchair, List.forall_mem_nil _, fun _ _ _ _ hs => hs⟩
  | cons v rest ih =>
    rw [List.nodup_cons] at hnd
    obtain ⟨hv, F, q, m, hprobed⟩ := hrest v List.mem_cons_self
    have hvi : v ≠ i := hprobed.linked.lead.other
    have hid : (c.peers i).node.id_ = i := hprobed.linked.lead.id
    obtain ⟨c₁, F₁, hgo₁, hsync₁, hchair₁, hspoke⟩ :=
      hprobed.sync h hcard hi hv hchair draw
    obtain ⟨c₂, hgo₂, hchair₂, hall, hkeep⟩ := ih (h.goes hcard hgo₁) (fun w hw => by
        obtain ⟨hwm, F', q', m', hpr⟩ := hrest w (List.mem_cons_of_mem _ hw)
        have hwv : w ≠ v := fun heq => hnd.1 (heq ▸ hw)
        exact ⟨hwm, F', q', m', hpr.spokeTo hspoke hwv hchair₁⟩) hnd.2 hchair₁
    refine ⟨c₂, hgo₁.trans hgo₂, hchair₂, fun w hw => ?_, fun w hw hwi F' hs => ?_⟩
    · rcases List.mem_cons.mp hw with rfl | hw
      · exact ⟨F₁, hkeep w hnd.1 hvi F₁ hsync₁⟩
      · exact hall w hw
    · rw [List.mem_cons, not_or] at hw
      exact hkeep w hw.2 hwi F' (hs.spokeTo hspoke hw.1 hwi hid)

theorem Healthy.keys (h : Healthy s c) (hi : i ∈ s.members)
    (hr : (c.peers i).node.role_ = .leader) : (c.peers i).node.pr_.keys.Perm s.members := by
  obtain ⟨e, r, hsim⟩ := h.ruled.simulates
  exact ((hsim.peer i hi).tracks.replica.progress hr).keys

/-- **What all members hold is committed.** -/
theorem Healthy.commits (h : Healthy s c) (hcard : 1 < s.members.length) (hi : i ∈ s.members)
    (hchair : Chairs L t i (c.peers i)) (hlast : termAt Entry.term L L.length = t)
    (hall : ∀ v ∈ s.members, v ≠ i → (c.peers i).node.held v = L.length) :
    (c.peers i).node.log_.committed_ = L.length := by
  have hlead := hchair.lead (i + 1) (Nat.succ_ne_self i)
  have hkeys := h.keys hi hlead.role
  have hend : (c.peers i).node.log_.lastIndex = L.length := by
    rw [hlead.wf.lastIndex_eq, hlead.logical]
  have hquorum : (c.peers i).node.StoredOnQuorum L.length := by
    rw [storedOnQuorum_iff, List.countP_eq_length.mpr fun v hv => ?_, hkeys.length_eq,
      RawNode.quorum, (h.live.voters hi).length_eq]
    · omega
    · rw [decide_eq_true_iff]
      by_cases hvi : v = i
      · rw [hvi, RawNode.held, if_pos hlead.id.symm, hend]
      · rw [hall v (hkeys.mem_iff.mp hv) hvi]
  have hterm : (c.peers i).node.log_.term L.length = (c.peers i).node.term_ := by
    rw [hlead.wf.term_eq (by rw [hlead.logical]), hlead.logical, hlast, hlead.term]
  have hle : L.length ≤ (c.peers i).node.log_.committed_ :=
    h.ruled.commitsAll i hi hlead.role L.length hterm hquorum
  have hge := h.heeding.committed_le hi
  omega

/-! ## The heartbeat -/

/-- The heartbeat of the leader `i` of term `t` that has committed its log `L`. -/
structure Beats (L : List Entry) (t : Nat) (v : NodeId) (m : Message) : Prop where
  type : m.type = .msgHeartbeat
  receiver : m.receiver = v
  term : m.term = t
  commit : m.commit = L.length

/-- A leader that has committed its log hands it out and tells its followers. -/
theorem Healthy.heartbeat (h : Healthy s c) (hi : i ∈ s.members)
    (hchair : Chairs L t i (c.peers i)) (hcom : (c.peers i).node.log_.committed_ = L.length)
    (draw : Nat) : ∃ c', Goes s draw c c' ∧ (c'.peers i).node.role_ = .leader ∧
      (c'.peers i).node.term_ = t ∧ (c'.peers i).node.log_.logical = L ∧
      (c'.peers i).node.log_.committed_ = L.length ∧ L.length ≤ (c'.peers i).delivered.length ∧
      (∀ v ∈ s.members, v ≠ i → ∃ m ∈ c'.network, Beats L t v m) ∧
      ∀ u ≠ i, c'.peers u = c.peers u := by
  have hlead := hchair.lead (i + 1) (Nat.succ_ne_self i)
  have hkeys := h.keys hi hlead.role
  obtain ⟨k, hexec⟩ := Peer.exec_heartbeat hchair.idle.ready hlead.role draw
  rw [broadcastHeartbeat_eq] at hexec
  obtain ⟨c', hgo, hround⟩ := h.live.ticks hi hchair.idle.ready hexec
  obtain ⟨l', hset, hnode⟩ := hround.node
  refine ⟨c', hgo, ?_, ?_, ?_, ?_, ?_, fun v hv hvi => ?_, fun u hu => hround.other hu⟩
  · rw [hnode]
    exact hlead.role
  · rw [hnode]
    exact hlead.term
  · rw [hnode]
    exact hset.logical.trans hlead.logical
  · rw [hnode]
    exact hset.committed.trans hcom
  · rw [hround.self]
    refine Peer.processReady_delivers ?_ ?_ ?_ ?_ ?_ ?_
    · exact hchair.idle.ready
    · exact (h.heeding.inOrder i hi).length_delivered hchair.idle.ready
    · exact hlead.wf
    · exact hlead.sliceable
    · exact h.heeding.committed_le hi
    · exact hcom.symm.le
  · refine ⟨(c.peers i).node.heartbeat v [], hround.sent _ (List.mem_append_right _ ?_), rfl, rfl,
      hlead.term, hcom⟩
    refine List.mem_map.mpr ⟨v, List.mem_filter.mpr ⟨hkeys.mem_iff.mpr hv, ?_⟩, rfl⟩
    rw [decide_eq_true_iff, hlead.id]
    exact hvi

/-- The heartbeats arrive one after the other. -/
theorem Healthy.beats (h : Healthy s c) (hcard : 1 < s.members.length) (hi : i ∈ s.members)
    (hr : (c.peers i).node.role_ = .leader) (hterm : (c.peers i).node.term_ = t)
    (hlog : (c.peers i).node.log_.logical = L) (hnd : rest.Nodup)
    (hrest : ∀ v ∈ rest, v ∈ s.members ∧ v ≠ i ∧
      (∃ F, Follow L t i v F (c.peers v) ∧ Shares L F L.length) ∧ Readable L (c.peers v) ∧
      ∃ m ∈ c.network, Beats L t v m) (draw : Nat) : ∃ c', Goes s draw c c' ∧
      (∀ v ∈ rest, L.length ≤ (c'.peers v).delivered.length) ∧
      ∀ u ∉ rest, c'.peers u = c.peers u := by
  induction rest generalizing c with
  | nil => exact ⟨c, .refl s draw c, List.forall_mem_nil _, fun _ _ => rfl⟩
  | cons v rest ih =>
    rw [List.nodup_cons] at hnd
    obtain ⟨hv, hvi, ⟨F, hfollow, hshare⟩, hread, m, hm, hbeat⟩ := hrest v List.mem_cons_self
    have hL : c.leaderLog m.term = L := by
      rw [hbeat.term, ← hterm, ← (h.heeding.leads hi hr).1, hlog]
    obtain ⟨c₁, hgo₁, hround⟩ := h.live.receive hm hbeat.receiver hv hfollow.ready
      (hfollow.heeds_beat hshare hbeat.type hbeat.commit hL) draw
    have hleader : c₁.peers i = c.peers i := hround.other (Ne.symm hvi)
    obtain ⟨c₂, hgo₂, hdone, hsame⟩ := ih (h.goes hcard hgo₁) (by rw [hleader]; exact hr)
      (by rw [hleader]; exact hterm) (by rw [hleader]; exact hlog) hnd.2 (fun w hw => by
        obtain ⟨hwm, hwi, hfw, hrw, m', hm', hb⟩ := hrest w (List.mem_cons_of_mem _ hw)
        have hpeer : c₁.peers w = c.peers w := hround.other fun heq => hnd.1 (heq ▸ hw)
        rw [← hpeer] at hfw hrw
        exact ⟨hwm, hwi, hfw, hrw, m', hround.grows m' hm', hb⟩)
    refine ⟨c₂, hgo₁.trans hgo₂, fun w hw => ?_, fun u hu => ?_⟩
    · rcases List.mem_cons.mp hw with rfl | hw
      · rw [hsame w hnd.1, (hround.handled hfollow.ready).1]
        exact hfollow.beat hshare hread (h.heeding.inOrder w hv) hbeat.type hbeat.term
          hbeat.commit draw
      · exact hdone w hw
    · rw [List.mem_cons, not_or] at hu
      rw [hsame u hu.2, hround.other hu.1]

end Sync

/-! ## A new leader and its first command -/

section Proposal

variable {s : Setup} {c c₀ : Cluster} {i v : NodeId} {draw : Nat} {t : Nat} {vs : List NodeId}
  {cmd : Bytes} {L : List Entry}

/-- The leader takes a command. -/
theorem step_propose (hi : i ∈ s.members) (cmd : Bytes) :
    (c.step s (.run i (.propose cmd))).peers = Function.update c.peers i
      { c.peers i with node := ((c.peers i).node.propose cmd).2 } ∧
      (c.step s (.run i (.propose cmd))).network = c.network := by
  simp only [Cluster.step, hi, Event.isLocal, and_self, if_true, Cluster.perform, Peer.handle,
    List.append_nil]

theorem Healthy.takes (h : Healthy s c) (hi : i ∈ s.members)
    (hr : (c.peers i).node.role_ = .leader) (cmd : Bytes) :
    Takes (c.peers i).node cmd
      ⟨(c.peers i).node.term_, (c.peers i).node.log_.lastIndex + 1, .normal, cmd⟩ where
  leads := hr
  accepted := (propose_accepts _ _).mpr hr
  entry := rfl
  appended := (propose_readable hr (h.heeding.inOrder i hi).sound.wf (h.heeding.leads hi hr).2
    (h.heeding.committed_le hi) cmd).2.2

/-- A member that voted for the leader follows it. -/
theorem Pledged.follow (hp : Pledged c₀ i t v) (h : Healthy s c) (hi : i ∈ s.members)
    (hv : v ∈ s.members) (hpeer : c.peers v = c₀.peers v)
    (hchair : Chairs L t i (c.peers i)) :
    Follow L t i v (c.peers v).node.log_.logical (c.peers v) := by
  have hlead := hchair.lead (i + 1) (Nat.succ_ne_self i)
  obtain ⟨hready, hrole, hterm, hpersisted, hquiet, -⟩ := hp
  rw [← hpeer] at hready hrole hterm hpersisted hquiet
  obtain ⟨e, r, hsim⟩ := h.heeding.simulates
  have hmatch := (hsim.rooted hv).matches (hsim.rooted hi)
  have hshare := h.heeding.shares_commit hi hv hlead.role (hterm.trans hlead.term.symm)
  rw [hlead.logical] at hmatch hshare
  exact
    { h.live.idle hv hready with
      role := hrole, term := hterm, id := h.live.id hv, wf := h.live.wf hv, logical := rfl
      persisted := hpersisted, matching := hmatch, commit := hshare
      quiet := by rw [hquiet]; rfl }

/-- No member has an entry at an index of a term that its leader has not come to. -/
theorem Heeding.not_shares (h : Heeding s c) (hi : i ∈ s.members) (hv : v ∈ s.members)
    (hr : (c.peers i).node.role_ = .leader) {e : Entry}
    (he : e.term = (c.peers i).node.term_) :
    ¬ Shares ((c.peers i).node.log_.logical ++ [e]) (c.peers v).node.log_.logical
      ((c.peers i).node.log_.logical ++ [e]).length := by
  rintro ⟨-, hpre⟩
  rw [List.take_length] at hpre
  obtain ⟨ea, r, hsim⟩ := h.simulates
  have hk : (c.peers v).node.log_.logical[(c.peers i).node.log_.logical.length]? = some e := by
    rw [← getElem?_eq_of_isPrefix hpre (by rw [List.length_append]; exact Nat.lt_succ_self _),
      List.getElem?_concat_length]
  have hroot := (hsim.rooted hv).getElem? hk
  rw [he, ← (hsim.leads hi hr).1, List.getElem?_eq_none (Nat.le_refl _)] at hroot
  cases hroot

/-- The candidate that has won leads its term. -/
theorem Candidacy.leads (hcand : Candidacy s c₀ i t)
    (hpeers : c.peers = Function.update c₀.peers i { c₀.peers i with
      node := { (c₀.peers i).node with votes_ := vs }.becomeLeader }) :
    (c.peers i).node.role_ = .leader ∧ (c.peers i).node.term_ = t := by
  rw [hpeers, Function.update_self]
  exact ⟨becomeLeader_role _,
    ((becomeLeader_dispatched _).term.trans (elected_office _).2.1).trans hcand.term⟩

/-- **The first command of a new leader** is in its log, and all its followers are probed. -/
theorem Healthy.proposes (h₀ : Healthy s c₀) (hcard : 1 < s.members.length) (hi : i ∈ s.members)
    (hcand : Candidacy s c₀ i t) (hpl : ∀ v ∈ s.members, v ≠ i → Pledged c₀ i t v)
    (hgo : Goes s draw c₀ c)
    (hpeers : c.peers = Function.update c₀.peers i { c₀.peers i with
      node := { (c₀.peers i).node with votes_ := vs }.becomeLeader }) (cmd : Bytes)
    (hL : L = (c.peers i).node.log_.logical ++
      [⟨t, (c.peers i).node.log_.lastIndex + 1, .normal, cmd⟩]) : ∃ c',
      Goes s draw (c.step s (.run i (.propose cmd))) c' ∧ Chairs L t i (c'.peers i) ∧
      ∀ v ∈ s.members, v ≠ i → ∃ F q m, Probed L t i v c' F q m := by
  have h₁ := h₀.goes hcard hgo
  have h₂ := h₁.step hcard (show c.Heeded s (.run i (.propose cmd)) from trivial)
  let n : RawNode := { (c₀.peers i).node with votes_ := vs }
  have hid : n.id_ = i := h₀.live.id hi
  have hterm : n.term_ = t := hcand.term
  have hp₁ : c.peers i = { c₀.peers i with node := n.becomeLeader } := by
    rw [hpeers, Function.update_self]
  obtain ⟨hrole, hterm₁⟩ := hcand.leads hpeers
  have hpos : n.term_ ≠ 0 := by
    rw [hterm, ← hterm₁]
    exact (h₁.heeding.leads hi hrole).2
  have hnew : ∀ v ∈ s.members, ¬ Shares L (c.peers v).node.log_.logical L.length := by
    intro v hv
    rw [hL]
    exact h₁.heeding.not_shares hi hv hrole hterm₁.symm
  have hcom := h₁.heeding.committed_le hi
  have hwf := h₁.live.wf hi
  rw [hp₁] at hL hcom hwf
  have hlead : ∀ v, v ≠ i → Lead L t i v (n.becomeLeader.propose cmd).2 := by
    intro v hv
    have hlead := becomeLeader_propose_lead hwf hpos hcom cmd (hid ▸ hv)
    rw [hterm, hid, ← hL] at hlead
    exact hlead
  -- the leader's round
  obtain ⟨hpeers₂, hnet₂⟩ := step_propose (c := c) hi cmd
  obtain ⟨c₃, hgo₃, hround⟩ := h₂.live.rounds hi (by rw [hp₁]; exact hcand.ready) hpeers₂
    (fun m hm => by rw [hnet₂]; exact hm) draw
  have hidle := hround.idle
  have hsent := hround.sent
  obtain ⟨l', hset, hnode⟩ := hround.node
  rw [hp₁] at hsent hset hnode
  have hchair : Chairs L t i (c₃.peers i) := by
    refine ⟨hidle, fun v hv => ?_, by rw [hnode]⟩
    have h := hlead v hv
    rw [hnode]
    exact ⟨h.role, h.term, h.id, hv, hset.wf, hset.logical.trans h.logical,
      hset.sliceable h.sliceable⟩
  refine ⟨c₃, hgo₃, hchair, fun v hv hvi => ?_⟩
  have hpeer : c.peers v = c₀.peers v := by rw [hpeers, Function.update_of_ne hvi]
  have hpeer₃ : c₃.peers v = c.peers v := hround.other hvi
  have hfollow := (hpl v hv hvi).follow (h₂.goes hcard hgo₃) hi hv (hpeer₃.trans hpeer) hchair
  obtain ⟨m, hmsg, happ, hidx, hfind⟩ := becomeLeader_propose_probes (n := n) (h₀.live.wf hi)
    hpos (h₀.heeding.committed_le hi) ((h₀.live.voters hi).mem_iff.mpr hv) (hid ▸ hvi)
    hcand.quiet cmd
  rw [hterm, hid] at happ
  refine ⟨_, n.freshProgress v, m, ⟨hidle, hchair.lead v hvi, ?_, ?_, hfollow, ?_⟩, rfl, rfl, rfl,
    ?_, happ.mono (by rw [hL]; exact List.prefix_append _ _), hsent m hmsg, ?_⟩
  · change (c₃.peers i).node.pr_.find? v = _
    rw [hnode]
    exact hfind
  · change appsTo v (c₃.peers i).node.msgs_ = []
    rw [hchair.quiet]
    rfl
  · simpa [RawNode.freshProgress, Progress.new, Progress.reset, Inflights.new,
      Inflights.reset] using h₀.room i hi
  · rw [hidx]
    rfl
  · intro hshare
    rw [hpeer₃] at hshare
    exact absurd hshare (hnew v hv)

end Proposal

/-! ## The whole run -/

section Run

variable {s : Setup} {c c' : Cluster} {i : NodeId} {draw : Nat}

theorem Heeding.onward_run (h : Heeding s c) (hi : i ∈ s.members) {acts : List Action}
    (hacts : c.HeededRun s acts) : Onward c (acts.foldl (Cluster.step s) c) := by
  induction acts generalizing c with
  | nil => exact .refl c
  | cons a rest ih => exact (h.onward hi hacts.1).trans (ih (h.step hacts.1) hacts.2)

/-- A leader whose followers wait for its first append gets its log handed out everywhere. -/
theorem Healthy.delivers {L : List Entry} {t : Nat} (h : Healthy s c)
    (hcard : 1 < s.members.length) (hi : i ∈ s.members) (hchair : Chairs L t i (c.peers i))
    (hprobed : ∀ v ∈ s.members, v ≠ i → ∃ F q m, Probed L t i v c F q m)
    (hlast : termAt Entry.term L L.length = t) (draw : Nat) : ∃ c', Goes s draw c c' ∧
      (c'.peers i).node.log_.logical = L ∧ (c'.peers i).node.log_.committed_ = L.length ∧
      ∀ v ∈ s.members, L.length ≤ (c'.peers v).delivered.length := by
  have hother : ∀ v ∈ s.members.erase i, v ∈ s.members ∧ v ≠ i := fun v hv =>
    ⟨List.mem_of_mem_erase hv, fun heq => s.nodup.not_mem_erase (heq ▸ hv)⟩
  have hothers : ∀ v ∈ s.members, v ≠ i → v ∈ s.members.erase i := fun v hv hvi =>
    (List.mem_erase_of_ne hvi).mpr hv
  have hnd := s.nodup.erase i
  obtain ⟨c₁, hgo₁, hchair₁, hsync, -⟩ := h.syncs hcard hi
    (fun v hv => ⟨(hother v hv).1, hprobed v (hother v hv).1 (hother v hv).2⟩) hnd hchair draw
  have h₁ := h.goes hcard hgo₁
  have hcom : (c₁.peers i).node.log_.committed_ = L.length := by
    refine h₁.commits hcard hi hchair₁ hlast fun v hv hvi => ?_
    obtain ⟨F, hs⟩ := hsync v (hothers v hv hvi)
    exact hs.held
  obtain ⟨c₂, hgo₂, hrole, hterm, hlog, hcom₂, hdel, hbeats, hsame⟩ :=
    h₁.heartbeat hi hchair₁ hcom draw
  obtain ⟨c₃, hgo₃, hdone, hsame₃⟩ := (h₁.goes hcard hgo₂).beats hcard hi hrole hterm hlog hnd
    (fun v hv => by
      obtain ⟨hvm, hvi⟩ := hother v hv
      obtain ⟨F, hs⟩ := hsync v hv
      rw [hsame v hvi]
      exact ⟨hvm, hvi, ⟨F, hs.follow, hs.shares⟩, hs.readable, hbeats v hvm hvi⟩) draw
  have hleader : c₃.peers i = c₂.peers i := hsame₃ i s.nodup.not_mem_erase
  refine ⟨c₃, hgo₁.trans (hgo₂.trans hgo₃), by rw [hleader, hlog], by rw [hleader, hcom₂],
    fun v hv => ?_⟩
  by_cases hvi : v = i
  · rw [hvi, hleader]
    exact hdel
  · exact hdone v (hothers v hv hvi)

/-- **A new leader's first command** is new, and all members can come to hand it out. -/
theorem Healthy.command (h : Healthy s c) (hcard : 1 < s.members.length) (cmd : Bytes)
    (draw : Nat) : ∃ c₁ c₂ i e, Goes s draw c c₁ ∧ i ∈ s.members ∧
      Goes s draw (c₁.step s (.run i (.propose cmd))) c₂ ∧ Takes (c₁.peers i).node cmd e ∧
      (c₁.leaderLog e.term).length < e.index ∧
      ∀ v ∈ s.members, e ∈ (c₂.peers v).delivered := by
  obtain ⟨c₀, c₁, i, t, vs, hgo₀, hgo₁, hi, hcand, hpl, hpeers, -⟩ :=
    h.live.takeover hcard draw
  have h₀ := h.goes hcard hgo₀
  have h₁ := h₀.goes hcard hgo₁
  obtain ⟨hrole, hterm⟩ := hcand.leads hpeers
  obtain ⟨e, he⟩ : ∃ e : Entry, e = ⟨t, (c₁.peers i).node.log_.lastIndex + 1, .normal, cmd⟩ :=
    ⟨_, rfl⟩
  obtain ⟨-, hnew, -⟩ := h₁.heeding.proposed hi hrole cmd (hterm ▸ he)
  have htakes := h₁.takes hi hrole cmd
  rw [hterm, ← he] at htakes
  obtain ⟨L, hL⟩ : ∃ L, L = (c₁.peers i).node.log_.logical ++ [e] := ⟨_, rfl⟩
  have hlen : L.length = (c₁.peers i).node.log_.logical.length + 1 := by
    rw [hL, List.length_append]
    rfl
  have hend : L[L.length - 1]? = some e := by
    rw [hlen, hL, Nat.add_sub_cancel, List.getElem?_concat_length]
  have hlast : termAt Entry.term L L.length = t := by
    rw [hlen, hL, termAt_append_right (Nat.le_refl 1), he]
    rfl
  obtain ⟨c₂, hgo₂, hchair, hprobed⟩ := h₀.proposes hcard hi hcand hpl hgo₁ hpeers cmd (he ▸ hL)
  have h₂ := (h₁.step hcard (show c₁.Heeded s (.run i (.propose cmd)) from trivial)).goes hcard hgo₂
  obtain ⟨c₃, hgo₃, hlog, hcom, hdel⟩ := h₂.delivers hcard hi hchair hprobed hlast draw
  have h₃ := h₂.goes hcard hgo₃
  refine ⟨c₁, c₃, i, e, hgo₀.trans hgo₁, hi, hgo₂.trans hgo₃, htakes, hnew, fun v hv => ?_⟩
  -- what `v` hands out at the index of the command is what the leader has committed there
  have hlt : L.length - 1 < (c₃.peers v).delivered.length := by
    have hle := hdel v hv
    omega
  have hget := List.getElem?_eq_getElem hlt
  have hidx := (h₃.heeding.inOrder v hv).delivered_index hget
  have hmem := List.getElem_mem hlt
  have hcommitted := h₃.heeding.handed_committed hi hv hmem (by rw [hcom, hidx]; omega)
  rw [hidx, Nat.add_sub_cancel, hlog, hend, Option.some.injEq] at hcommitted
  rw [hcommitted]
  exact hmem

end Run

end Cluster

/-- **Commands can always be committed.** From every state of a run whose messages are heeded, the
members' clocks and loops and the arrival of heeded messages can bring about a leader that takes a
command and appends it as the entry `e`, and after it all members to hand out `e`, which none had
handed out before. There must be two or more members, with room for a message under way to each.
Every timeout drawn on the way is the given one. -/
theorem commit_possible (s : Setup) (hcard : 1 < s.members.length)
    (hroom : ∀ i ∈ s.members, 1 ≤ (s.config i).maxInflightMsgs) (acts : List Action)
    (hacts : (Cluster.init s).HeededRun s acts) (cmd : Bytes) (draw : Nat) :
    ∃ before after more : List Action, ∃ i ∈ s.members, ∃ e : Entry,
      more = before ++ .run i (.propose cmd) :: after ∧ (∀ a ∈ before ++ after, a.Routine draw) ∧
      Takes ((Cluster.exec s (acts ++ before)).peers i).node cmd e ∧
      (Cluster.init s).HeededRun s (acts ++ more) ∧
      ∀ v ∈ s.members, e ∉ ((Cluster.exec s acts).peers v).delivered ∧
        e ∈ ((Cluster.exec s (acts ++ more)).peers v).delivered := by
  have h := (Cluster.healthy_init hroom).run hcard hacts
  obtain ⟨c₁, c₂, i, e, ⟨before, hbefore, hheed₁, rfl⟩, hi, ⟨after, hafter, hheed₂, rfl⟩,
    htakes, hnew, hdel⟩ := h.command hcard cmd draw
  refine ⟨before, after, _, i, hi, e, rfl, fun a ha => ?_, ?_, ?_,
    fun v hv => ⟨fun hold => ?_, ?_⟩⟩
  · rcases List.mem_append.mp ha with ha | ha
    · exact hbefore a ha
    · exact hafter a ha
  · rw [Cluster.exec, List.foldl_append]
    exact htakes
  · refine (Cluster.heededRun_append _ _ _).mpr ⟨hacts, ?_⟩
    exact (Cluster.heededRun_append _ _ _).mpr ⟨hheed₁, trivial, hheed₂⟩
  · have hwritten := h.heeding.written hv hold
    have hgrown := getElem?_eq_some_of_isPrefix ((h.heeding.onward_run hi hheed₁).leaderLog e.term)
      hwritten
    have hlt := (List.getElem?_eq_some_iff.mp hgrown).1
    omega
  · rw [Cluster.exec, List.foldl_append, List.foldl_append]
    exact hdel v hv

/-- After node 1 led and committed an entry with node 2 alone. -/
theorem commit_possible_trio : 1 < trio.members.length ∧
    (∀ i ∈ trio.members, 1 ≤ (trio.config i).maxInflightMsgs) ∧
    (Cluster.init trio).HeededRun trio replication ∧
    ∃ before after more : List Action, ∃ i ∈ trio.members, ∃ e : Entry,
      more = before ++ .run i (.propose [9]) :: after ∧
      (∀ a ∈ before ++ after, a.Routine 12) ∧
      Takes ((Cluster.exec trio (replication ++ before)).peers i).node [9] e ∧
      (Cluster.init trio).HeededRun trio (replication ++ more) ∧
      ∀ v ∈ trio.members, e ∉ ((Cluster.exec trio replication).peers v).delivered ∧
        e ∈ ((Cluster.exec trio (replication ++ more)).peers v).delivered :=
  ⟨by decide, by decide, by decide +kernel,
    commit_possible trio (by decide) (by decide) replication (by decide +kernel) [9] 12⟩

end NexusLOB.Raft
