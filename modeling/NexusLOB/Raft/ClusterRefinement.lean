import NexusLOB.Raft.NodeRefinement
import NexusLOB.Raft.ReadyLoop

/-!
# The cluster refines elections and replication

`Simulates` relates a cluster to a state of the election system and a state of the replication
system. Every action of the cluster is matched by steps of the two systems, so their invariants
hold in every state of every run. In a `strict` run, without restarts and with messages that
every log heeds, the replication system is the strict one.
-/

namespace NexusLOB.Raft

open Collections Consensus

def Peer.draft (p : Peer) : Option (Election.Ballot NodeId × Set (Election.Mail NodeId)) :=
  p.ready.map fun x => x.2.draft

/-- A member's peer, next to states of the two systems. -/
structure PeerOk (s : Setup) (strict : Prop) (e : Election.State NodeId)
    (r : Replication.State NodeId Entry) (i : NodeId) (p : Peer) : Prop where
  tracks : Tracks s strict p.draft e r p.node.core
  id : p.node.id_ = i
  config : p.config = s.config i
  confState : p.node.log_.storage_.confState_ = s.conf i
  idle : p.ready = none → p.node.lastReadyLastIndex_ = 0 ∧ p.node.lastReadyApplied_ = 0
  pending : ∀ {stage rd}, p.ready = some (stage, rd) → Pending p.node stage rd
  messages : ∀ {stage rd}, p.ready = some (stage, rd) → ∀ m ∈ rd.messages, Known r m
  saved : ∀ {rd}, p.ready = some (.send, rd) →
    rd.hardState.term = 0 ∨ p.node.log_.storage_.ballot = rd.draft.1
  delivered : ∀ en ∈ p.delivered, 1 ≤ en.index ∧ (i, en.index - 1, en) ∈ r.handed

/-- The history of the second pair of states continues that of the first. -/
structure Later (e : Election.State NodeId) (r : Replication.State NodeId Entry)
    (e' : Election.State NodeId) (r' : Replication.State NodeId Entry) : Prop where
  won : e.won ⊆ e'.won
  grows : Replication.Grows Entry.term r r'

theorem Later.refl (e : Election.State NodeId) (r : Replication.State NodeId Entry) :
    Later e r e r := ⟨subset_rfl, .refl r⟩

theorem Later.trans {e₁ e₂ e₃ : Election.State NodeId}
    {r₁ r₂ r₃ : Replication.State NodeId Entry} (h : Later e₁ r₁ e₂ r₂) (h' : Later e₂ r₂ e₃ r₃) :
    Later e₁ r₁ e₃ r₃ := ⟨h.won.trans h'.won, h.grows.trans h'.grows⟩

structure Simulates (s : Setup) (strict : Prop) (c : Cluster) (e : Election.State NodeId)
    (r : Replication.State NodeId Entry) : Prop where
  peer : ∀ i ∈ s.members, PeerOk s strict e r i (c.peers i)
  sent : e.sent = mailSet c.network
  network : ∀ m ∈ c.network, Known r m
  leaderLog : r.leaderLog = c.leaderLog

section Lift

variable {s : Setup} {strict : Prop} {e e' : Election.State NodeId}
  {r r' : Replication.State NodeId Entry} {i j : NodeId} {p p' : Peer} {c : Cluster}

/-- A peer that does not move follows the systems. -/
theorem PeerOk.other (h : PeerOk s strict e r j p) (hs : Sound s strict e' r')
    (hv : e'.voter j = e.voter j) (hr : r'.replica j = r.replica j)
    (hg : Replication.Grows Entry.term r r') (hh : r.handed ⊆ r'.handed) :
    PeerOk s strict e' r' j p where
  __ := h
  tracks := { hs with
    id_mem := h.tracks.id_mem
    voters := h.tracks.voters
    voter := by
      rw [show p.node.core.id = j from h.id, hv, ← h.id]
      exact h.tracks.voter
    replica := by
      rw [show p.node.core.id = j from h.id, hr, ← h.id]
      exact h.tracks.replica
    not_pre := h.tracks.not_pre
    wf := h.tracks.wf
    msgs := fun m hm => (h.tracks.msgs m hm).mono hg.issued }
  messages := fun hrd m hm => (h.messages hrd m hm).mono hg.issued
  delivered := fun en hen => ⟨(h.delivered en hen).1, hh (h.delivered en hen).2⟩

/-- Another representation of the same log, with what is stored of it. -/
theorem ReplicaOk.relog {core : Core} {x : Replication.Replica NodeId Entry}
    (h : ReplicaOk s.members core x) {l' : RaftLog} (hlog : l'.logical = core.log.logical)
    (hcom : l'.committed_ = core.log.committed_) (hlast : l'.lastIndex = core.log.lastIndex)
    {stored : List Entry} (hst : stored = l'.storage_.stored) :
    ReplicaOk s.members { core with log := l' } { x with stored := stored } where
  term := h.term
  role := h.role
  log := h.log.trans hlog.symm
  stored := hst
  commit := h.commit.trans hcom.symm
  progress := fun hr => by
    rw [hlast]
    exact h.progress hr

/-- The recorded leaders' logs are those of the replication system. -/
theorem record_eq {draft : Option (Election.Ballot NodeId × Set (Election.Mail NodeId))}
    {n : RawNode} {leaderLog : Nat → List Entry} (ht : Tracks s strict draft e' r' n.core)
    (hll : ∀ t, (n.role_ = .leader ∧ t = n.term_) ∨ r'.leaderLog t = leaderLog t) :
    r'.leaderLog = Cluster.record leaderLog n := by
  funext t
  unfold Cluster.record
  by_cases hr : n.role_ = .leader
  · rw [if_pos hr]
    have hrole : (r'.replica n.core.id).role = .leader := by
      rw [ht.replica.role, show n.core.role = .leader from hr]
      rfl
    have hlog := (ht.matching.leads hrole).1
    rw [ht.replica.log, ht.replica.term] at hlog
    by_cases htt : t = n.term_
    · subst htt
      rw [Function.update_self]
      exact hlog.symm
    · rw [Function.update_of_ne htt]
      exact (hll t).resolve_left fun hl => htt hl.2
  · rw [if_neg hr]
    exact (hll t).resolve_left fun hl => hr hl.1

/-- What an event of peer `i` has to do to the two systems: it leads to `p'` and sends `ms`. -/
structure PeerStep (s : Setup) (strict : Prop) (i : NodeId) (e : Election.State NodeId)
    (r : Replication.State NodeId Entry) (e' : Election.State NodeId)
    (r' : Replication.State NodeId Entry) (p' : Peer) (ms : List Message) : Prop where
  peer : PeerOk s strict e' r' i p'
  voter : ∀ {m}, m ≠ i → e'.voter m = e.voter m
  replica : ∀ {m}, m ≠ i → r'.replica m = r.replica m
  later : Later e r e' r'
  handed : r.handed ⊆ r'.handed
  sent : e'.sent = e.sent ∪ mailSet ms
  known : ∀ m ∈ ms, Known r m
  leaderLog : ∀ t, (p'.node.role_ = .leader ∧ t = p'.node.term_) ∨ r'.leaderLog t = r.leaderLog t

/-- Lifting the event of one peer to the cluster. -/
theorem Simulates.perform (h : Simulates s strict c e r) {ev : Event} {ms : List Message}
    (hh : (c.peers i).handle ev = (p', ms)) (hp : PeerStep s strict i e r e' r' p' ms) :
    Simulates s strict (c.perform i ev) e' r' := by
  have hg := hp.later.grows
  refine
    { peer := ?_
      sent := ?_
      network := ?_
      leaderLog := ?_ }
  · intro j hj
    by_cases hji : j = i
    · subst hji
      simp only [Cluster.perform, hh, Function.update_self]
      exact hp.peer
    · simp only [Cluster.perform, hh, Function.update_of_ne hji]
      exact (h.peer j hj).other hp.peer.tracks.toSound (hp.voter hji) (hp.replica hji) hg hp.handed
  · simp only [Cluster.perform, hh]
    rw [hp.sent, h.sent, mailSet_append]
  · simp only [Cluster.perform, hh]
    intro m hm
    rcases List.mem_append.mp hm with hm | hm
    · exact (h.network m hm).mono hg.issued
    · exact (hp.known m hm).mono hg.issued
  · simp only [Cluster.perform, hh]
    rw [← h.leaderLog]
    exact record_eq hp.peer.tracks hp.leaderLog

/-- Events that are calls of the node. -/
theorem PeerOk.call (h : PeerOk s strict e r i p) {n' : RawNode} {l₀ : RaftLog}
    {msg : Option Message} (heff : Effects l₀ msg p.node n')
    (hreach : Reach s strict p.draft e r n'.core)
    (hpend : ∀ {stage rd}, p.ready = some (stage, rd) → Pending n' stage rd) :
    ∃ e' r', PeerStep s strict i e r e' r' { p with node := n' } [] := by
  obtain ⟨e', r', hext, hll, ht⟩ := hreach
  have hid : n'.id_ = i := heff.id.trans h.id
  rw [show n'.core.id = i from hid] at hext
  refine ⟨e', r', ?_, hext.voter, hext.replica, ⟨hext.won, hext.grows⟩, hext.handed.ge, ?_,
    fun m hm => (nomatch hm), hll⟩
  · exact
      { tracks := ht
        id := hid
        config := h.config
        confState := by rw [heff.storage, h.confState]
        idle := by
          intro hidle
          rw [heff.lastReadyLastIndex, heff.lastReadyApplied]
          exact h.idle hidle
        pending := hpend
        messages := fun hrd m hm => (h.messages hrd m hm).mono hext.grows.issued
        saved := by
          intro rd hrd
          have hsaved := h.saved hrd
          rw [← heff.storage] at hsaved
          exact hsaved
        delivered := by
          intro en hen
          rw [hext.handed]
          exact h.delivered en hen }
  · rw [hext.sent, mailSet_nil, Set.union_empty]

/-! ## Processing a `Ready` -/

/-- Handing out a stretch of the committed log. -/
theorem Sound.handOut (h : Sound s strict e r) {ents : List Entry} {a : Nat}
    (hents : ∀ k en, ents[k]? = some en →
      a + k < (r.replica i).commit ∧ (r.replica i).log[a + k]? = some en) :
    ∃ H, r.handed ⊆ H ∧ (∀ k en, ents[k]? = some en → (i, a + k, en) ∈ H) ∧
      Sound s strict e { r with handed := H } := by
  induction ents generalizing a r with
  | nil => exact ⟨r.handed, subset_rfl, fun k en hk => (nomatch hk), h⟩
  | cons en rest ih =>
    obtain ⟨hlt, hget⟩ := hents 0 en rfl
    have hstep : Replication.Step Entry.term s.members.toFinset strict i r _ := .handOut hlt hget
    have h₁ := h.step (Or.inl rfl) (Or.inr hstep) h.indexed h.elected h.grants
    obtain ⟨H, hsub, hmem, hs⟩ := ih (a := a + 1) h₁ (by
      intro k en' hk
      have := hents (k + 1) en' hk
      rwa [show a + 1 + k = a + (k + 1) by omega])
    refine ⟨H, (Set.subset_insert _ _).trans hsub, ?_, hs⟩
    intro k en' hk
    cases k with
    | zero =>
      obtain rfl := Option.some.inj hk
      exact hsub (Set.mem_insert _ _)
    | succ k =>
      have := hmem k en' hk
      rwa [show a + 1 + k = a + (k + 1) by omega] at this

theorem PeerOk.poll (h : PeerOk s strict e r i p) (hi : i ∈ s.members) (hidle : p.ready = none) :
    ∃ e' r', PeerStep s strict i e r e' r'
      { p with
        node := p.node.poll.2
        ready := some (.persistEntries, p.node.poll.1)
        delivered := p.delivered ++ p.node.poll.1.committedEntries } [] := by
  have ht := h.tracks
  have hcore : p.node.core.id = i := h.id
  have hdraft : p.draft = none := by rw [Peer.draft, hidle]; rfl
  have hvoter : e.voter i = p.node.core.voter none := by rw [← hdraft, ← hcore]; exact ht.voter
  -- the entries handed out are committed entries of the log
  have hents : ∀ k en, p.node.poll.1.committedEntries[k]? = some en →
      p.node.log_.applied_ + k < (r.replica i).commit ∧
        (r.replica i).log[p.node.log_.applied_ + k]? = some en := by
    intro k en hk
    obtain ⟨-, hlt, hget⟩ := committedEntries_index ht.wf hk
    rw [← hcore, ht.replica.commit, ht.replica.log]
    exact ⟨hlt, hget⟩
  obtain ⟨H, hsub, hmem, hs⟩ := ht.toSound.handOut hents
  have hE : Election.Step s.members e _ := .poll hi (by rw [hvoter]; rfl)
  have hwon := ht.election.won_put (n := i) (x := { e.voter i with
    draft := some (⟨(e.voter i).term, (e.voter i).vote⟩, (e.voter i).outbox), outbox := ∅ }) rfl rfl
  have hs' := hs.step (i := i) (Or.inr hE) (Or.inl rfl) hs.indexed (by rw [hwon]; exact hs.elected)
    hs.grants
  refine ⟨_, { r with handed := H }, ?_, fun hm => Function.update_of_ne hm _ _, fun _ => rfl,
    ⟨hwon.ge, { Replication.Grows.refl r with }⟩, hsub, by rw [mailSet_nil, Set.union_empty]; rfl,
    fun m hm => (nomatch hm), fun _ => Or.inr rfl⟩
  obtain ⟨hl, ha⟩ := h.idle hidle
  exact
    { tracks := { hs' with
        id_mem := ht.id_mem
        voters := ht.voters
        voter := by
          rw [show (RawNode.core p.node.poll.2).id = i from h.id]
          simp only [Election.State.put, Function.update_self, hvoter]
          change _ = { p.node.core.voter none with
            draft := some p.node.poll.1.draft, outbox := mailSet [] }
          rw [mailSet_nil]
          rfl
        replica := { ht.replica with }
        not_pre := ht.not_pre
        wf := ht.wf
        msgs := fun m hm => nomatch hm }
      id := h.id
      config := h.config
      confState := h.confState
      idle := fun hf => nomatch hf
      pending := by
        rintro stage rd ⟨⟩
        exact pending_poll ht.wf hl ha
      messages := by
        rintro stage rd ⟨⟩
        exact ht.msgs
      saved := fun hf => nomatch hf
      delivered := by
        intro en hen
        rcases List.mem_append.mp hen with hold | hnew
        · exact ⟨(h.delivered en hold).1, hsub (h.delivered en hold).2⟩
        · obtain ⟨k, hk⟩ := List.getElem?_of_mem hnew
          have hidx := (committedEntries_index ht.wf hk).1
          have hm := hmem k en hk
          rw [show p.node.log_.applied_ + k = en.index - 1 by omega] at hm
          exact ⟨by omega, hm⟩ }

theorem WriteAheadLog.ballot_appendNoSync (w : WriteAheadLog) (ents : List Entry) :
    (w.appendNoSync ents).ballot = w.ballot ∧
      (w.appendNoSync ents).confState_ = w.confState_ := by
  cases ents <;> exact ⟨rfl, rfl⟩

theorem PeerOk.persistEntries (h : PeerOk s strict e r i p) {rd : Ready}
    (hrd : p.ready = some (.persistEntries, rd)) :
    ∃ e' r', PeerStep s strict i e r e' r'
      { p.store (fun w => w.appendNoSync rd.entries) with
        ready := some (.persistHardState, rd) } [] := by
  obtain rfl : p.node.id_ = i := h.id
  have ht := h.tracks
  have hdraft : p.draft = some rd.draft := by rw [Peer.draft, hrd]; rfl
  rcases (h.pending hrd).persistEntries ht.wf with ⟨hnil, hpend⟩ | ⟨l', rfl, hwf, hlog, hst, hpend⟩
  · refine ⟨e, r, ?_, fun _ => rfl, fun _ => rfl, .refl e r, subset_rfl,
      by rw [mailSet_nil, Set.union_empty], fun m hm => (nomatch hm), fun _ => Or.inr rfl⟩
    rw [hnil]
    exact { h with
      tracks := by
        rw [hdraft] at ht
        exact ht
      idle := fun hf => nomatch hf
      pending := by
        rintro stage rd' ⟨⟩
        exact hpend
      messages := by
        rintro stage rd' ⟨⟩
        exact h.messages hrd
      saved := fun hf => nomatch hf }
  · obtain ⟨hballot, hconf⟩ := p.node.log_.storage_.ballot_appendNoSync rd.entries
    have hR : Replication.Step Entry.term s.members.toFinset strict p.node.id_ r _ :=
      .persist (k := p.node.log_.unstable_.offset_ - 1 + rd.entries.length)
    have hs := ht.toSound.step (Or.inl rfl) (Or.inr hR) ht.indexed ht.elected ht.grants
    refine ⟨e, _, ?_, fun _ => rfl, fun hm => hR.replica_of_ne hm, ⟨subset_rfl,
      ht.matching.grows hR⟩, subset_rfl, by rw [mailSet_nil, Set.union_empty],
      fun m hm => (nomatch hm), fun _ => Or.inr rfl⟩
    exact
      { tracks := { hs with
          id_mem := ht.id_mem
          voters := ht.voters
          voter := by
            have hv := ht.voter
            rw [hdraft] at hv
            exact hv.trans (congrArg (fun b => { p.node.core.voter (some rd.draft) with durable := b })
              hballot.symm)
          replica := by
            change ReplicaOk s.members _ ((r.put p.node.id_ _).replica p.node.id_)
            rw [Replication.State.put_self]
            exact ht.replica.relog hlog rfl (ht.wf.lastIndex_congr hwf hlog)
              ((congrArg _ ht.replica.log).trans hst.symm)
          not_pre := ht.not_pre
          wf := hwf
          msgs := ht.msgs }
        id := h.id
        config := h.config
        confState := hconf.trans h.confState
        idle := fun hf => nomatch hf
        pending := by
          rintro stage rd' ⟨⟩
          exact hpend
        messages := by
          rintro stage rd' ⟨⟩
          exact h.messages hrd
        saved := fun hf => nomatch hf
        delivered := h.delivered }

theorem PeerOk.persistHardState (h : PeerOk s strict e r i p) (hi : i ∈ s.members) {rd : Ready}
    (hrd : p.ready = some (.persistHardState, rd)) :
    ∃ e' r', PeerStep s strict i e r e' r'
      { p.saveHardState rd.hardState with ready := some (.send, rd) } [] := by
  obtain rfl : p.node.id_ = i := h.id
  have ht := h.tracks
  have hdraft : p.draft = some rd.draft := by rw [Peer.draft, hrd]; rfl
  have hpend : Pending p.node .send rd :=
    { h.pending hrd with stored := fun _ => (h.pending hrd).stored nofun }
  unfold Peer.saveHardState
  split_ifs with hsave
  · have hv := ht.voter
    rw [hdraft] at hv
    have hE : Election.Step s.members e _ :=
      .persist (n := p.node.id_) (b := rd.draft.1) hi (congrArg Election.Voter.draft hv)
    have hwon := ht.election.won_put (n := p.node.id_)
      (x := { e.voter p.node.id_ with durable := rd.draft.1 }) rfl rfl
    have hs := ht.toSound.step (i := p.node.id_) (Or.inr hE) (Or.inl rfl) ht.indexed
      (by rw [hwon]; exact ht.elected) ht.grants
    refine ⟨_, r, ?_, fun hm => Function.update_of_ne hm _ _, fun _ => rfl,
      ⟨hwon.ge, .refl r⟩, subset_rfl, by rw [mailSet_nil, Set.union_empty]; rfl,
      fun m hm => (nomatch hm), fun _ => Or.inr rfl⟩
    have hwf := ht.wf.saveHardState rd.hardState
    exact
      { tracks := { hs with
          id_mem := ht.id_mem
          voters := ht.voters
          voter := (Function.update_self _ _ _).trans
            (congrArg (fun x => { x with durable := rd.draft.1 }) hv)
          replica := { ht.replica with }
          not_pre := ht.not_pre
          wf := hwf
          msgs := ht.msgs }
        id := h.id
        config := h.config
        confState := h.confState
        idle := fun hf => nomatch hf
        pending := by
          rintro stage rd' ⟨⟩
          exact { hpend with }
        messages := by
          rintro stage rd' ⟨⟩
          exact h.messages hrd
        saved := by
          rintro rd' ⟨⟩
          exact Or.inr rfl
        delivered := h.delivered }
  · refine ⟨e, r, ?_, fun _ => rfl, fun _ => rfl, .refl e r, subset_rfl,
      by rw [mailSet_nil, Set.union_empty], fun m hm => (nomatch hm), fun _ => Or.inr rfl⟩
    exact { h with
      tracks := by
        rw [hdraft] at ht
        exact ht
      idle := fun hf => nomatch hf
      pending := by
        rintro stage rd' ⟨⟩
        exact hpend
      messages := by
        rintro stage rd' ⟨⟩
        exact h.messages hrd
      saved := by
        rintro rd' ⟨⟩
        left
        by_contra hne
        exact hsave (Or.inl hne) }

/-- Grants in a `Ready` were issued. -/
theorem grant_of_mem_mailSet {ms : List Message} (hms : ∀ m ∈ ms, Known r m) {t : Nat}
    {v n : NodeId} (h : .grant t v n ∈ mailSet ms) : .grant t v n ∈ r.issued := by
  obtain ⟨m, hm, hmail⟩ := h
  have hk := hms m hm
  unfold mailOf at hmail
  unfold Known at hk
  cases hty : m.type <;> simp only [hty] at hmail hk <;>
    try cases hmail
  split at hmail
  · cases hmail
  · cases hmail
    exact hk (by simpa using ‹¬ m.reject = true›)

theorem PeerOk.send (h : PeerOk s strict e r i p) (hi : i ∈ s.members) {rd : Ready}
    (hrd : p.ready = some (.send, rd)) :
    ∃ e' r', PeerStep s strict i e r e' r' { p with ready := some (.advance, rd) }
      rd.messages := by
  obtain rfl : p.node.id_ = i := h.id
  have ht := h.tracks
  have hdraft : p.draft = some rd.draft := by rw [Peer.draft, hrd]; rfl
  have hv := ht.voter
  rw [hdraft] at hv
  have hE : Election.Step s.members e { e with sent := e.sent ∪ rd.draft.2 } :=
    .send (n := p.node.id_) (b := rd.draft.1) hi (congrArg Election.Voter.draft hv) (by
      rcases h.saved hrd with h0 | hb
      · exact Or.inl h0
      · exact Or.inr ((congrArg Election.Voter.durable hv).trans hb))
  have hs := ht.toSound.step (i := p.node.id_) (Or.inr hE) (Or.inl rfl) ht.indexed ht.elected (by
    rintro t v n (hold | hnew)
    · exact ht.grants hold
    · exact grant_of_mem_mailSet (h.messages hrd) hnew)
  refine ⟨{ e with sent := e.sent ∪ rd.draft.2 }, r, ?_, fun _ => rfl, fun _ => rfl,
    ⟨subset_rfl, .refl r⟩, subset_rfl, rfl, h.messages hrd, fun _ => Or.inr rfl⟩
  exact
    { tracks := { hs with
        id_mem := ht.id_mem
        voters := ht.voters
        voter := hv
        replica := ht.replica
        not_pre := ht.not_pre
        wf := ht.wf
        msgs := ht.msgs }
      id := h.id
      config := h.config
      confState := h.confState
      idle := fun hf => nomatch hf
      pending := by
        rintro stage rd' ⟨⟩
        exact { h.pending hrd with stored := fun _ => (h.pending hrd).stored nofun }
      messages := by
        rintro stage rd' ⟨⟩
        exact h.messages hrd
      saved := fun hf => nomatch hf
      delivered := h.delivered }

theorem PeerOk.advance (h : PeerOk s strict e r i p) (hi : i ∈ s.members) {rd : Ready}
    (hrd : p.ready = some (.advance, rd)) :
    ∃ e' r', PeerStep s strict i e r e' r' { p with node := p.node.advance, ready := none } [] := by
  obtain rfl : p.node.id_ = i := h.id
  have ht := h.tracks
  obtain ⟨l', hwf, hlog, hsto, hcom, -, heq⟩ := (h.pending hrd).advance ht.wf nofun
  rw [heq]
  have hE : Election.Step s.members e _ := .finish (n := p.node.id_) hi
  have hwon := ht.election.won_put (n := p.node.id_)
    (x := { e.voter p.node.id_ with draft := none }) rfl rfl
  have hs := ht.toSound.step (i := p.node.id_) (Or.inr hE) (Or.inl rfl) ht.indexed
    (by rw [hwon]; exact ht.elected) ht.grants
  refine ⟨_, r, ?_, fun hm => Function.update_of_ne hm _ _, fun _ => rfl,
    ⟨hwon.ge, .refl r⟩, subset_rfl, by rw [mailSet_nil, Set.union_empty]; rfl,
    fun m hm => (nomatch hm), fun _ => Or.inr rfl⟩
  exact
    { tracks := { hs with
        id_mem := ht.id_mem
        voters := ht.voters
        voter := by
          refine (Function.update_self _ _ _).trans ?_
          have hv : e.voter p.node.id_ = p.node.core.voter p.draft := ht.voter
          rw [hv]
          exact congrArg (fun b => { p.node.core.voter none with durable := b })
            (congrArg WriteAheadLog.ballot hsto.symm)
        replica := ht.replica.relog hlog hcom (ht.wf.lastIndex_congr hwf hlog)
          (ht.replica.stored.trans (congrArg WriteAheadLog.stored hsto.symm))
        not_pre := ht.not_pre
        wf := hwf
        msgs := ht.msgs }
      id := h.id
      config := h.config
      confState := (congrArg WriteAheadLog.confState_ hsto).trans h.confState
      idle := fun _ => ⟨rfl, rfl⟩
      pending := fun hf => nomatch hf
      messages := fun hf => nomatch hf
      saved := fun hf => nomatch hf
      delivered := h.delivered }

/-- Every member is configured with all members as voters. -/
theorem new_voters (hi : i ∈ s.members) {w : WriteAheadLog} (hw : w.confState_ = s.conf i)
    (draw : Nat) : (RawNode.new (s.config i) w draw).voters_.Perm s.members := by
  have hpeers := s.peers_perm i hi
  have hne : (s.config i).peers ≠ [] := by
    intro hnil
    rw [hnil] at hpeers
    exact List.not_mem_nil (hpeers.mem_iff.mpr hi)
  unfold RawNode.new WriteAheadLog.initialState
  simp only [hw]
  by_cases hb : w.lastIndex = 0 ∧ (s.config i).peers ≠ []
  · simp only [if_pos hb]
    split_ifs <;> exact hpeers
  · simp only [if_neg hb]
    rcases s.conf_perm i hi with hnil | hperm
    · rw [if_pos ⟨hnil, hne⟩]
      exact hpeers
    · split_ifs
      · exact hpeers
      · exact hperm

/-- A crash and a restart on the store. Memory may only be lost when the run need not be strict,
and where a majority needs a second member. -/
theorem PeerOk.restart (h : PeerOk s strict e r i p) (hi : i ∈ s.members) (hst : ¬ strict)
    (hcard : 1 < s.members.length) (draw : Nat) :
    ∃ e' r', PeerStep s strict i e r e' r' (Peer.start p.config p.storage draw) [] := by
  obtain rfl : p.node.id_ = i := h.id
  have ht := h.tracks
  have hE : Election.Step s.members e _ := .restart (n := p.node.id_) hi hcard
  have hwon : (e.put p.node.id_ (e.voter p.node.id_).restarted).won = e.won :=
    Election.won_put_of_ne nofun
  have hR : Replication.Step Entry.term s.members.toFinset strict p.node.id_ r _ :=
    .restart (t := p.storage.hardState_.term) hst
  have hs := ht.toSound.step (Or.inr hE) (Or.inr hR) ht.indexed (by rw [hwon]; exact ht.elected)
    ht.grants
  obtain ⟨hwf, hlog⟩ := RaftLog.wf_new ht.wf.dummy ht.wf.snapIndex ht.wf.stored
  refine ⟨_, _, ?_, fun hm => Function.update_of_ne hm _ _, fun hm => hR.replica_of_ne hm,
    ⟨hwon.ge, ht.matching.grows hR⟩, subset_rfl, by rw [mailSet_nil, Set.union_empty]; rfl,
    fun m hm => (nomatch hm), fun _ => Or.inr rfl⟩
  have hid : p.config.id = p.node.id_ := by rw [h.config, s.id_eq _ hi]
  have hnew : RaftLog.new p.storage = { storage_ := p.storage } := RaftLog.new_eq ht.wf.snapIndex
  have hcore : (Peer.start p.config p.storage draw).node.core.id = p.node.id_ := hid
  have hsto : (Peer.start p.config p.storage draw).node.log_.storage_ = p.node.log_.storage_ := by
    change (RaftLog.new p.storage).storage_ = p.storage
    rw [hnew]
  exact
    { tracks := { hs with
        id_mem := hcore ▸ hi
        voters := by
          rw [h.config]
          exact new_voters hi h.confState draw
        voter := by
          rw [hcore]
          refine (Function.update_self _ _ _).trans ?_
          rw [show e.voter p.node.id_ = p.node.core.voter p.draft from ht.voter]
          unfold Core.voter
          rw [show (Peer.start p.config p.storage draw).node.core.log.storage_ = _ from hsto,
            show (Peer.start p.config p.storage draw).node.core.msgs = [] from rfl, mailSet_nil]
          rfl
        replica := by
          rw [hcore, Replication.State.put_self]
          exact
            { term := rfl
              role := rfl
              log := ht.replica.stored.trans hlog.symm
              stored := ht.replica.stored.trans (congrArg WriteAheadLog.stored hsto.symm)
              commit := (congrArg RaftLog.committed_ hnew).symm
              progress := fun hr => nomatch hr }
        not_pre := nofun
        wf := hwf
        msgs := fun m hm => nomatch hm }
      id := hid
      config := h.config
      confState := (congrArg WriteAheadLog.confState_ hsto).trans h.confState
      idle := fun _ => ⟨rfl, rfl⟩
      pending := fun hf => nomatch hf
      messages := fun hf => nomatch hf
      saved := fun hf => nomatch hf
      delivered := fun en hen => nomatch hen }

/-! ## All events -/

/-- An event the loop cannot make at this point. -/
theorem PeerOk.stay (h : PeerOk s strict e r i p) : PeerStep s strict i e r e r p [] :=
  ⟨h, fun _ => rfl, fun _ => rfl, .refl e r, subset_rfl, by rw [mailSet_nil, Set.union_empty],
    fun m hm => (nomatch hm), fun _ => Or.inr rfl⟩

theorem PeerOk.step (h : PeerOk s strict e r i p) (hidle : p.ready = none) {m : Message}
    (hm : Arrives e r i m)
    (hheed : strict → p.node.term_ ≤ m.term → p.node.log_.Heeds r.leaderLog m) (draw : Nat) :
    ∃ e' r', PeerStep s strict i e r e' r' { p with node := p.node.step m draw } [] := by
  refine h.call (step_effects p.node m draw) (h.tracks.step (h.id ▸ hm) hheed draw) ?_
  intro stage rd hrd
  rw [hidle] at hrd
  cases hrd

theorem PeerOk.tick (h : PeerOk s strict e r i p) (hidle : p.ready = none) (draw : Nat) :
    ∃ e' r', PeerStep s strict i e r e' r' { p with node := (p.node.tick draw).2 } [] := by
  refine h.call (tick_effects p.node draw) (h.tracks.tick draw) ?_
  intro stage rd hrd
  rw [hidle] at hrd
  cases hrd

theorem PeerOk.propose (h : PeerOk s strict e r i p) (data : Bytes) :
    ∃ e' r', PeerStep s strict i e r e' r' { p with node := (p.node.propose data).2 } [] := by
  refine h.call (propose_effects p.node data) (h.tracks.propose data) fun hrd => ?_
  refine (h.pending hrd).propose h.tracks.wf (fun hr => ?_) data
  have hrole : (r.replica p.node.core.id).role = .leader := by
    rw [h.tracks.replica.role, show p.node.core.role = .leader from hr]
    rfl
  have hpos := h.tracks.matching.elected_pos (h.tracks.matching.leads hrole).2
  rw [h.tracks.replica.term] at hpos
  exact Nat.one_le_iff_ne_zero.mp hpos

theorem PeerOk.readIndex (h : PeerOk s strict e r i p) (ctx : Bytes) :
    ∃ e' r', PeerStep s strict i e r e' r' { p with node := (p.node.readIndex ctx).2 } [] := by
  exact h.call (readIndex_effects p.node ctx) (h.tracks.readIndex ctx) fun hrd =>
    (h.pending hrd).readIndex ctx

theorem PeerOk.handle (h : PeerOk s strict e r i p) (hi : i ∈ s.members) (ev : Event)
    (hstep : ∀ m draw, ev = .step m draw → Arrives e r i m)
    (hheed : strict → ∀ m draw, ev = .step m draw → p.ready = none → p.node.term_ ≤ m.term →
      p.node.log_.Heeds r.leaderLog m)
    (hrestart : ∀ draw, ev = .restart draw → ¬ strict ∧ 1 < s.members.length) :
    ∃ e' r', PeerStep s strict i e r e' r' (p.handle ev).1 (p.handle ev).2 := by
  have hmove := p.handle_move ev
  generalize p.handle ev = q at hmove ⊢
  cases hmove with
  | tick draw hready => exact h.tick hready draw
  | step m draw hready =>
    exact h.step hready (hstep m draw rfl) (fun hst => hheed hst m draw rfl hready) draw
  | propose data => exact h.propose data
  | readIndex ctx => exact h.readIndex ctx
  | poll hready => exact h.poll hi hready
  | persistEntries rd hready => exact h.persistEntries hready
  | persistHardState rd hready => exact h.persistHardState hi hready
  | send rd hready => exact h.send hi hready
  | advance rd hready => exact h.advance hi hready
  | restart draw =>
    obtain ⟨hst, hcard⟩ := hrestart draw rfl
    exact h.restart hi hst hcard draw
  | stay => exact ⟨e, r, h.stay⟩

end Lift

/-! ## Runs -/

namespace Cluster

/-- The action neither loses memory nor delivers a message that the receiver's log does not
heed. -/
def Heeded (s : Setup) (c : Cluster) : Action → Prop
  | .deliver k _ => ∀ m ∈ c.network[k]?, m.receiver ∈ s.members →
      (c.peers m.receiver).ready.isNone → (c.peers m.receiver).node.term_ ≤ m.term →
      (c.peers m.receiver).node.log_.Heeds c.leaderLog m
  | .run _ (.restart _) => False
  | .run _ _ => True

instance (s : Setup) (c : Cluster) (a : Action) : Decidable (c.Heeded s a) :=
  match a with
  | .deliver k _ =>
    match h : c.network[k]? with
    | none => isTrue (fun _ hm => by rw [h] at hm; cases hm)
    | some m => decidable_of_iff (m.receiver ∈ s.members →
        (c.peers m.receiver).ready.isNone → (c.peers m.receiver).node.term_ ≤ m.term →
        (c.peers m.receiver).node.log_.Heeds c.leaderLog m) (by simp [Heeded, h])
  | .run _ (.restart _) => isFalse id
  | .run _ (.tick _) | .run _ (.step _ _) | .run _ (.propose _) | .run _ (.readIndex _)
  | .run _ .poll | .run _ .persistEntries | .run _ .persistHardState | .run _ .send
  | .run _ .advance => isTrue trivial

/-- Every action of the run is heeded in the state it starts from. -/
def HeededRun (s : Setup) : Cluster → List Action → Prop
  | _, [] => True
  | c, a :: rest => c.Heeded s a ∧ HeededRun s (c.step s a) rest

instance decidableHeededRun (s : Setup) : (c : Cluster) → (acts : List Action) →
    Decidable (HeededRun s c acts)
  | _, [] => isTrue trivial
  | c, a :: rest =>
    have := decidableHeededRun s (c.step s a) rest
    inferInstanceAs (Decidable (_ ∧ _))

theorem heededRun_append {s : Setup} (c : Cluster) (acts more : List Action) :
    HeededRun s c (acts ++ more) ↔
      HeededRun s c acts ∧ HeededRun s (acts.foldl (step s) c) more := by
  induction acts generalizing c with
  | nil => exact ⟨fun h => ⟨trivial, h⟩, And.right⟩
  | cons a rest ih =>
    simp only [List.cons_append, HeededRun, ih, List.foldl_cons, and_assoc]

end Cluster

section Run

variable {s : Setup} {strict : Prop} {e : Election.State NodeId}
  {r : Replication.State NodeId Entry} {c : Cluster}

/-- Every action is matched by steps of the two systems. Where the run need not be strict,
restarts are only matched in clusters of more than one member. -/
theorem Simulates.step (h : Simulates s strict c e r) (a : Action)
    (hheed : strict → c.Heeded s a)
    (hcard : ¬ strict → a.isRestart = true → 1 < s.members.length) :
    ∃ e' r', Simulates s strict (c.step s a) e' r' ∧ Later e r e' r' := by
  have hstay : ∃ e' r', Simulates s strict c e' r' ∧ Later e r e' r' := ⟨e, r, h, .refl e r⟩
  cases a with
  | deliver k draw =>
    simp only [Cluster.step]
    cases hk : c.network[k]? with
    | none => exact hstay
    | some m =>
      dsimp only
      split_ifs with hi
      · have hmem : m ∈ c.network := List.mem_of_getElem? hk
        obtain ⟨e', r', hp⟩ := (h.peer _ hi).handle hi (.step m draw)
          (by
            rintro m' draw' ⟨⟩
            refine ⟨h.network m hmem, fun hx => ⟨?_, rfl⟩⟩
            rw [h.sent]
            exact ⟨m, hmem, hx⟩)
          (by
            rintro hst m' draw' ⟨⟩ hready hterm
            rw [h.leaderLog]
            exact hheed hst m (by rw [hk]; rfl) hi (by rw [hready]; rfl) hterm)
          (fun _ hf => nomatch hf)
        exact ⟨e', r', h.perform rfl hp, hp.later⟩
      · exact hstay
  | run i ev =>
    simp only [Cluster.step]
    split_ifs with hrun
    · obtain ⟨hi, hlocal⟩ := hrun
      obtain ⟨e', r', hp⟩ := (h.peer _ hi).handle hi ev
        (by
          rintro m draw rfl
          have hty : m.type = .msgPropose ∨ m.type = .msgReadIndex ∨ m.type = .msgUnreachable := by
            simpa [Event.isLocal, Message.isLocal] using hlocal
          refine ⟨?_, ?_⟩
          · unfold Known
            rcases hty with hty | hty | hty <;> simp [hty]
          · intro x hx
            unfold mailOf at hx
            rcases hty with hty | hty | hty <;> simp [hty] at hx)
        (by
          rintro hst m draw rfl - -
          have hty : m.type = .msgPropose ∨ m.type = .msgReadIndex ∨ m.type = .msgUnreachable := by
            simpa [Event.isLocal, Message.isLocal] using hlocal
          constructor <;> intro hm <;> rcases hty with hty | hty | hty <;> simp [hty] at hm)
        (by
          rintro draw rfl
          exact ⟨hheed, hcard hheed rfl⟩)
      exact ⟨e', r', h.perform rfl hp, hp.later⟩
    · exact hstay

/-- The state of the cluster after the actions, from any state. -/
theorem Simulates.run (h : Simulates s strict c e r) (acts : List Action)
    (hheed : strict → c.HeededRun s acts) (hcard : ¬ strict → 1 < s.members.length) :
    ∃ e' r', Simulates s strict (acts.foldl (Cluster.step s) c) e' r' ∧ Later e r e' r' := by
  induction acts generalizing c e r with
  | nil => exact ⟨e, r, h, .refl e r⟩
  | cons a rest ih =>
    obtain ⟨e₁, r₁, h₁, hl₁⟩ := h.step a (fun hst => (hheed hst).1) fun hst _ => hcard hst
    obtain ⟨e₂, r₂, h₂, hl₂⟩ := ih h₁ fun hst => (hheed hst).2
    exact ⟨e₂, r₂, h₂, hl₁.trans hl₂⟩

/-- Empty logs, followers of term 0. -/
def initialReplica : Replication.Replica NodeId Entry :=
  { term := 0, role := .follower, log := [], stored := [], commit := 0, matched := fun _ => 0 }

theorem simulates_init (s : Setup) (strict : Prop) :
    ∃ e r, Simulates s strict (Cluster.init s) e r := by
  let e : Election.State NodeId :=
    { voter := fun n => ((Cluster.init s).peers n).node.core.voter none, sent := ∅, won := ∅ }
  let r : Replication.State NodeId Entry := .initial fun _ => initialReplica
  have hsound : Sound s strict e r :=
    { election := Election.Inv.init s.nodup rfl rfl fun n => ⟨rfl, mailSet_nil, rfl, le_rfl⟩
      matching := .initial fun _ => ⟨rfl, rfl, rfl⟩
      complete := fun _ => .initial fun _ => ⟨rfl, rfl, rfl, rfl⟩
      indexed := fun _ => indexed_nil
      elected := by simp [e, r, Replication.State.initial]
      grants := fun hm => hm.elim }
  refine ⟨e, r, ?_, mailSet_nil.symm, fun m hm => absurd hm List.not_mem_nil, rfl⟩
  intro i hi
  have hwf : (RaftLog.new (WriteAheadLog.fresh (s.conf i))).WF :=
    (RaftLog.wf_new (w := WriteAheadLog.fresh (s.conf i)) (List.cons_ne_nil _ _) rfl indexed_nil).1
  have hid : (s.config i).id = i := s.id_eq i hi
  have hcore : ((Cluster.init s).peers i).node.core.id = i := hid
  have hrole : ((Cluster.init s).peers i).node.core.role = .follower := rfl
  have hready : ((Cluster.init s).peers i).ready = none := rfl
  exact
    { tracks := { hsound with
        id_mem := by
          rw [hcore]
          exact hi
        voters := new_voters hi rfl (s.draw i)
        voter := by rw [hcore]; rfl
        replica :=
          { term := rfl
            role := rfl
            log := rfl
            stored := rfl
            commit := rfl
            progress := fun hr => absurd (hrole.symm.trans hr) (by decide) }
        not_pre := fun hr => absurd (hrole.symm.trans hr) (by decide)
        wf := hwf
        msgs := fun m hm => absurd hm List.not_mem_nil }
      id := hid
      config := rfl
      confState := rfl
      idle := fun _ => ⟨rfl, rfl⟩
      pending := fun hf => absurd (hready.symm.trans hf) (by simp)
      messages := fun hf => absurd (hready.symm.trans hf) (by simp)
      saved := fun hf => absurd (hready.symm.trans hf) (by simp)
      delivered := fun en hen => absurd hen List.not_mem_nil }

variable (s strict) in
/-- A run seen at an earlier and a later moment. -/
theorem simulates_exec (acts more : List Action)
    (hheed : strict → (Cluster.init s).HeededRun s (acts ++ more))
    (hcard : ¬ strict → 1 < s.members.length) :
    ∃ e r e' r', Simulates s strict (Cluster.exec s acts) e r ∧
      Simulates s strict (Cluster.exec s (acts ++ more)) e' r' ∧ Later e r e' r' := by
  obtain ⟨e₀, r₀, h₀⟩ := simulates_init s strict
  obtain ⟨e, r, h, -⟩ := h₀.run acts
    (fun hst => ((Cluster.heededRun_append _ acts more).mp (hheed hst)).1) hcard
  obtain ⟨e', r', h', hl⟩ := h.run more
    (fun hst => ((Cluster.heededRun_append _ acts more).mp (hheed hst)).2) hcard
  rw [← List.foldl_append] at h'
  exact ⟨e, r, e', r', h, h', hl⟩

end Run

end NexusLOB.Raft
