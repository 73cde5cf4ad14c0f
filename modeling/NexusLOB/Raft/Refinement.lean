import NexusLOB.Consensus.Completeness
import NexusLOB.Raft.Cluster
import NexusLOB.Raft.FollowerAppend

/-!
# The node as a voter and a replica

The part of a `RawNode` that matters for safety is seen twice: as a voter of the election system
and as a replica of the replication system. `Tracks` ties a node to a state of both, `Reach` says
that a node state can be reached from given states of both by steps of this node alone. Every
method of the node is then shown to preserve `Reach`.
-/

namespace NexusLOB.Raft

open Collections Consensus

/-! ## Abstraction -/

def Role.abs : Role → Consensus.Role
  | .follower => .follower
  | .candidate => .candidate
  | .leader => .leader
  | .preCandidate => .candidate

/-- Vote 0 is no vote. -/
def voteOf (v : NodeId) : Option NodeId := if v = 0 then none else some v

theorem voteOf_of_ne_zero {v : NodeId} (h : v ≠ 0) : voteOf v = some v := if_neg h

/-- The vote requests and grants among messages. -/
def mailOf (m : Message) : Option (Election.Mail NodeId) :=
  match m.type with
  | .msgVote => some (.request m.term m.sender)
  | .msgVoteResp => if m.reject then none else some (.grant m.term m.sender m.receiver)
  | _ => none

def mailSet (ms : List Message) : Set (Election.Mail NodeId) :=
  { x | ∃ m ∈ ms, mailOf m = some x }

theorem mem_mailSet {ms : List Message} {x : Election.Mail NodeId} :
    x ∈ mailSet ms ↔ ∃ m ∈ ms, mailOf m = some x := Iff.rfl

@[simp] theorem mailSet_nil : mailSet [] = ∅ := by
  simp [mailSet]

theorem mailSet_append (ms ms' : List Message) :
    mailSet (ms ++ ms') = mailSet ms ∪ mailSet ms' := by
  ext x
  simp only [Set.mem_union, mem_mailSet, List.mem_append, or_and_right, exists_or]

theorem mailSet_snoc_none {ms : List Message} {m : Message} (h : mailOf m = none) :
    mailSet (ms ++ [m]) = mailSet ms := by
  ext x
  simp [mem_mailSet, or_and_right, exists_or, h]

theorem mailSet_snoc_some {ms : List Message} {m : Message} {x : Election.Mail NodeId}
    (h : mailOf m = some x) : mailSet (ms ++ [m]) = insert x (mailSet ms) := by
  ext y
  simp only [mem_mailSet, List.mem_append, List.mem_singleton, or_and_right, exists_or,
    exists_eq_left, h, Option.some.injEq, Set.mem_insert_iff]
  rw [or_comm, eq_comm]

/-- The message was issued by a replica, or says nothing about logs and votes. -/
def Known (r : Replication.State NodeId Entry) (m : Message) : Prop :=
  match m.type with
  | .msgVote => .request m.term m.sender m.logTerm m.index ∈ r.issued
  | .msgVoteResp => m.reject = false → .grant m.term m.sender m.receiver ∈ r.issued
  | .msgApp => .append m.term m.index m.logTerm m.entries m.commit ∈ r.issued
  | .msgAppResp =>
    (m.reject = true → .refuse m.term m.index ∈ r.issued) ∧
      (m.reject = false → .accept m.term m.sender m.index ∈ r.issued)
  | .msgHeartbeat => .heartbeat m.term m.commit ∈ r.issued
  | .msgHeartbeatResp => True
  | .msgPropose => True
  | .msgReadIndex => True
  | .msgReadIndexResp => True
  | .msgUnreachable => True
  | _ => False

theorem Known.mono {r r' : Replication.State NodeId Entry} {m : Message}
    (hle : r.issued ⊆ r'.issued) (h : Known r m) : Known r' m := by
  unfold Known at *
  cases hm : m.type <;> simp only [hm] at h ⊢ <;>
    first
    | exact hle h
    | exact fun hr => hle (h hr)
    | exact ⟨fun hr => hle (h.1 hr), fun hr => hle (h.2 hr)⟩

/-- The fields of a node that safety is about. -/
structure Core where
  id : NodeId
  term : Nat
  vote : NodeId
  role : Role
  votes : List NodeId
  log : RaftLog
  voters : List NodeId
  pr : OrderedMap NodeId Progress less
  msgs : List Message

def RawNode.core (n : RawNode) : Core :=
  { id := n.id_, term := n.term_, vote := n.vote_, role := n.role_, votes := n.votes_,
    log := n.log_, voters := n.voters_, pr := n.pr_, msgs := n.msgs_ }

/-- The ballot and mail of a `Ready`. -/
def Ready.draft (rd : Ready) : Election.Ballot NodeId × Set (Election.Mail NodeId) :=
  (⟨rd.hardState.term, voteOf rd.hardState.vote⟩, mailSet rd.messages)

def WriteAheadLog.ballot (w : WriteAheadLog) : Election.Ballot NodeId :=
  ⟨w.hardState_.term, voteOf w.hardState_.vote⟩

/-- The node as a voter, next to the draft of the `Ready` being processed. -/
def Core.voter (c : Core)
    (draft : Option (Election.Ballot NodeId × Set (Election.Mail NodeId))) :
    Election.Voter NodeId :=
  { term := c.term, vote := voteOf c.vote, role := c.role.abs, votes := c.votes,
    outbox := mailSet c.msgs, draft := draft, durable := c.log.storage_.ballot }

/-- What a leader knows about its peers stays within its log and what they acknowledged. -/
structure ProgressOk (members : List NodeId) (id : NodeId) (last : Nat)
    (pr : OrderedMap NodeId Progress less) (matched : NodeId → Nat) : Prop where
  keys : pr.keys.Perm members
  next_pos : ∀ {v p}, pr.find? v = some p → 1 ≤ p.nextIndex
  next_le : ∀ {v p}, pr.find? v = some p → p.nextIndex ≤ last + 1
  match_le : ∀ {v p}, pr.find? v = some p → p.matchIndex ≤ last
  match_acked : ∀ {v p}, pr.find? v = some p → v ≠ id → p.matchIndex ≤ matched v

/-- The node as a replica. -/
structure ReplicaOk (members : List NodeId) (c : Core)
    (x : Replication.Replica NodeId Entry) : Prop where
  term : x.term = c.term
  role : x.role = c.role.abs
  log : x.log = c.log.logical
  stored : x.stored = c.log.storage_.stored
  commit : x.commit = c.log.committed_
  progress : c.role = .leader → ProgressOk members c.id c.log.lastIndex c.pr x.matched

/-- States of the two systems that satisfy their invariants and belong together. -/
structure Sound (s : Setup) (strict : Prop) (e : Election.State NodeId)
    (r : Replication.State NodeId Entry) : Prop where
  election : Election.Inv s.members e
  matching : Replication.Matching Entry.term r
  complete : strict → Replication.Complete Entry.term s.members.toFinset r
  indexed : ∀ t, Indexed (r.leaderLog t)
  elected : ∀ {t}, t ∈ r.elected ↔ ∃ m, (t, m) ∈ e.won
  grants : ∀ {t v n}, .grant t v n ∈ e.sent → .grant t v n ∈ r.issued

/-- A step of either system, or of both, keeps them sound. -/
theorem Sound.step {s : Setup} {strict : Prop} {e e' : Election.State NodeId}
    {r r' : Replication.State NodeId Entry} {i : NodeId} (h : Sound s strict e r)
    (hE : e' = e ∨ Election.Step s.members e e')
    (hR : r' = r ∨ Replication.Step Entry.term s.members.toFinset strict i r r')
    (hidx : ∀ t, Indexed (r'.leaderLog t)) (hel : ∀ {t}, t ∈ r'.elected ↔ ∃ m, (t, m) ∈ e'.won)
    (hg : ∀ {t v n}, .grant t v n ∈ e'.sent → .grant t v n ∈ r'.issued) : Sound s strict e' r' where
  election := by
    rcases hE with rfl | hE
    · exact h.election
    · exact h.election.step hE
  matching := by
    rcases hR with rfl | hR
    · exact h.matching
    · exact h.matching.step hR
  complete := by
    intro hst
    rcases hR with rfl | hR
    · exact h.complete hst
    · exact (h.complete hst).step hst h.matching hR
  indexed := hidx
  elected := hel
  grants := hg

/-- A node, and states of the two systems that describe it. -/
structure Tracks (s : Setup) (strict : Prop)
    (draft : Option (Election.Ballot NodeId × Set (Election.Mail NodeId)))
    (e : Election.State NodeId) (r : Replication.State NodeId Entry) (c : Core) : Prop
    extends Sound s strict e r where
  id_mem : c.id ∈ s.members
  voters : c.voters.Perm s.members
  voter : e.voter c.id = c.voter draft
  replica : ReplicaOk s.members c (r.replica c.id)
  not_pre : c.role ≠ .preCandidate
  wf : c.log.WF
  msgs : ∀ m ∈ c.msgs, Known r m

/-- Only node `i` moved. -/
structure Ext (i : NodeId) (e : Election.State NodeId) (r : Replication.State NodeId Entry)
    (e' : Election.State NodeId) (r' : Replication.State NodeId Entry) : Prop where
  sent : e'.sent = e.sent
  won : e.won ⊆ e'.won
  voter : ∀ {m}, m ≠ i → e'.voter m = e.voter m
  replica : ∀ {m}, m ≠ i → r'.replica m = r.replica m
  grows : Replication.Grows Entry.term r r'
  handed : r'.handed = r.handed

theorem Ext.refl (i : NodeId) (e : Election.State NodeId) (r : Replication.State NodeId Entry) :
    Ext i e r e r := ⟨rfl, subset_rfl, fun _ => rfl, fun _ => rfl, .refl r, rfl⟩

theorem Ext.trans {i : NodeId} {e₁ e₂ e₃ : Election.State NodeId}
    {r₁ r₂ r₃ : Replication.State NodeId Entry} (h : Ext i e₁ r₁ e₂ r₂) (h' : Ext i e₂ r₂ e₃ r₃) :
    Ext i e₁ r₁ e₃ r₃ :=
  ⟨h'.sent.trans h.sent, h.won.trans h'.won, fun hm => (h'.voter hm).trans (h.voter hm),
    fun hm => (h'.replica hm).trans (h.replica hm), h.grows.trans h'.grows,
    h'.handed.trans h.handed⟩

/-- The node state `c` can be reached from `e` and `r` by steps of the node itself. The leaders'
logs have only changed in the term the node leads. -/
def Reach (s : Setup) (strict : Prop)
    (draft : Option (Election.Ballot NodeId × Set (Election.Mail NodeId)))
    (e : Election.State NodeId) (r : Replication.State NodeId Entry) (c : Core) : Prop :=
  ∃ e' r', Ext c.id e r e' r' ∧
    (∀ t, (c.role = .leader ∧ t = c.term) ∨ r'.leaderLog t = r.leaderLog t) ∧
    Tracks s strict draft e' r' c

section Micro

variable {s : Setup} {strict : Prop}
  {draft : Option (Election.Ballot NodeId × Set (Election.Mail NodeId))}
  {e : Election.State NodeId} {r : Replication.State NodeId Entry} {c c' : Core}

theorem Reach.of_tracks (h : Tracks s strict draft e r c) : Reach s strict draft e r c :=
  ⟨e, r, .refl _ e r, fun _ => Or.inr rfl, h⟩

theorem Role.abs_inj {a b : Role} (ha : a ≠ .preCandidate) (hb : b ≠ .preCandidate)
    (h : a.abs = b.abs) : a = b := by
  cases a <;> cases b <;> simp_all [Role.abs]

theorem Tracks.id_ne_zero (h : Tracks s strict draft e r c) : c.id ≠ 0 := by
  intro h0
  exact s.nonzero (h0 ▸ h.id_mem)

theorem Tracks.quorum_eq (h : Tracks s strict draft e r c) :
    c.voters.length / 2 + 1 = s.members.length / 2 + 1 := by
  rw [h.voters.length_eq]

/-- A step of the replica alone: what the voter is made of stays the same. -/
theorem Reach.replicate (h : Reach s strict draft e r c) (hid : c'.id = c.id)
    (hvoters : c'.voters = c.voters) (hvoter : c'.voter draft = c.voter draft)
    (hpre : c'.role ≠ .preCandidate)
    (hstep : ∀ {e₁ r₁}, Ext c.id e r e₁ r₁ →
      (∀ t, (c.role = .leader ∧ t = c.term) ∨ r₁.leaderLog t = r.leaderLog t) →
      Tracks s strict draft e₁ r₁ c →
      ∃ r₂, Replication.Step Entry.term s.members.toFinset strict c.id r₁ r₂ ∧
        r₂.elected = r₁.elected ∧ r₂.handed = r₁.handed ∧ (∀ t, Indexed (r₂.leaderLog t)) ∧
        (∀ t, (c.role = .leader ∧ t = c.term) ∨ r₂.leaderLog t = r₁.leaderLog t) ∧
        ReplicaOk s.members c' (r₂.replica c.id) ∧ c'.log.WF ∧ ∀ m ∈ c'.msgs, Known r₂ m) :
    Reach s strict draft e r c' := by
  obtain ⟨e₁, r₁, hext, hll, ht⟩ := h
  obtain ⟨r₂, hs, hel, hh, hidx, hll₂, hrep, hwf, hmsgs⟩ := hstep hext hll ht
  have hterm : c'.term = c.term := congrArg Election.Voter.term hvoter
  have hrole : c'.role = c.role :=
    Role.abs_inj hpre ht.not_pre (congrArg Election.Voter.role hvoter)
  have hg := ht.matching.grows hs
  refine ⟨e₁, r₂, ?_, ?_, ?_⟩
  · exact hid ▸ hext.trans
      ⟨rfl, subset_rfl, fun _ => rfl, fun hm => hs.replica_of_ne hm, hg, hh⟩
  · intro t
    rw [hrole, hterm]
    rcases hll₂ t with hlead | heq₂
    · exact Or.inl hlead
    · rcases hll t with hlead | heq
      · exact Or.inl hlead
      · exact Or.inr (heq₂.trans heq)
  · exact
      { ht.toSound.step (Or.inl rfl) (Or.inr hs) hidx (hel ▸ ht.elected)
          fun hm => hg.issued (ht.grants hm) with
        id_mem := hid ▸ ht.id_mem
        voters := hvoters ▸ ht.voters
        voter := by rw [hid, hvoter, ht.voter]
        replica := hid ▸ hrep
        not_pre := hpre
        wf := hwf
        msgs := hmsgs }

/-- The voter without its outbox does not depend on messages that are no mail. -/
theorem Core.voter_send {m : Message} (h : mailOf m = none) :
    Core.voter { c with msgs := c.msgs ++ [m] } draft = c.voter draft := by
  simp only [Core.voter, mailSet_snoc_none h]

theorem known_snoc {r' : Replication.State NodeId Entry} {ms : List Message} {m : Message}
    (hms : ∀ m ∈ ms, Known r m) (hle : r.issued ⊆ r'.issued) (hm : Known r' m) :
    ∀ m' ∈ ms ++ [m], Known r' m' := by
  intro m' hm'
  rcases List.mem_append.mp hm' with hm' | hm'
  · exact (hms m' hm').mono hle
  · rw [List.mem_singleton.mp hm']
    exact hm

/-- Queue a message that a replica may issue now. -/
theorem Reach.send_issued (h : Reach s strict draft e r c) {m : Message} (hmail : mailOf m = none)
    (hstep : ∀ {e₁ r₁}, Ext c.id e r e₁ r₁ → Tracks s strict draft e₁ r₁ c →
      ∃ x, Replication.Step Entry.term s.members.toFinset strict c.id r₁ (r₁.issue x) ∧
        Known (r₁.issue x) m) :
    Reach s strict draft e r { c with msgs := c.msgs ++ [m] } := by
  have hpre : c.role ≠ .preCandidate := by
    obtain ⟨_, _, _, _, ht⟩ := h
    exact ht.not_pre
  refine h.replicate rfl rfl (Core.voter_send hmail) hpre ?_
  intro e₁ r₁ hext _ ht
  obtain ⟨x, hs, hk⟩ := hstep hext ht
  refine ⟨r₁.issue x, hs, rfl, rfl, ht.indexed, fun _ => Or.inr rfl, { ht.replica with }, ht.wf, ?_⟩
  exact known_snoc ht.msgs (Set.subset_insert _ _) hk

/-- Queue a message that says nothing about logs and votes. -/
theorem Reach.send_quiet (h : Reach s strict draft e r c) {m : Message} (hmail : mailOf m = none)
    (hk : ∀ r', Known r' m) : Reach s strict draft e r { c with msgs := c.msgs ++ [m] } := by
  obtain ⟨e₁, r₁, hext, hll, ht⟩ := h
  refine ⟨e₁, r₁, hext, hll, { ht with
    voter := by rw [Core.voter_send hmail, ← ht.voter]
    replica := { ht.replica with }
    msgs := known_snoc ht.msgs subset_rfl (hk r₁) }⟩

/-- A leader queues an append with a slice of its log. -/
theorem Reach.send_append (h : Reach s strict draft e r c) (hr : c.role = .leader) {m : Message}
    (hty : m.type = .msgApp) (hterm : m.term = c.term) (hprev : m.index ≤ c.log.lastIndex)
    (hlt : m.logTerm = c.log.term m.index) (hents : m.entries <+: c.log.logical.drop m.index)
    (hcom : m.commit = c.log.committed_) :
    Reach s strict draft e r { c with msgs := c.msgs ++ [m] } := by
  refine h.send_issued (by simp [mailOf, hty]) ?_
  intro e₁ r₁ _ ht
  have hlog := ht.replica.log
  have hrole : (r₁.replica c.id).role = .leader := by
    rw [ht.replica.role, hr]
    rfl
  have hle : m.index ≤ c.log.logical.length := by
    rw [← ht.wf.lastIndex_eq]
    exact hprev
  refine ⟨_, .sendAppend hrole (hlog ▸ hle) (hlog ▸ hents), ?_⟩
  unfold Known
  rw [hty, hlog, ht.replica.term, ht.replica.commit, hterm, hcom, hlt, ht.wf.term_eq hle]
  exact Set.mem_insert _ _

/-- A leader queues a heartbeat. -/
theorem Reach.send_heartbeat (h : Reach s strict draft e r c) (hr : c.role = .leader) {m : Message}
    (hty : m.type = .msgHeartbeat) (hterm : m.term = c.term) (hcom : m.commit = c.log.committed_) :
    Reach s strict draft e r { c with msgs := c.msgs ++ [m] } := by
  refine h.send_issued (by simp [mailOf, hty]) ?_
  intro e₁ r₁ _ ht
  have hrole : (r₁.replica c.id).role = .leader := by
    rw [ht.replica.role, hr]
    rfl
  refine ⟨_, .sendHeartbeat hrole, ?_⟩
  unfold Known
  rw [hty, ht.replica.term, ht.replica.commit, hterm, hcom]
  exact Set.mem_insert _ _

/-- A node refuses an append. -/
theorem Reach.send_refuse (h : Reach s strict draft e r c) {m : Message}
    (hty : m.type = .msgAppResp) (hterm : m.term = c.term) (hrej : m.reject = true)
    (hi : m.index = 0 ∨ ∃ pt ents lc, .append c.term m.index pt ents lc ∈ r.issued) :
    Reach s strict draft e r { c with msgs := c.msgs ++ [m] } := by
  refine h.send_issued (by simp [mailOf, hty]) ?_
  intro e₁ r₁ hext ht
  refine ⟨_, .refuse (i := m.index) ?_, ?_⟩
  · rw [ht.replica.term]
    rcases hi with h0 | ⟨pt, ents, lc, hm⟩
    · exact Or.inl h0
    · exact Or.inr ⟨pt, ents, lc, hext.grows.issued hm⟩
  · unfold Known
    rw [hty, ht.replica.term, hterm, hrej]
    exact ⟨fun _ => Set.mem_insert _ _, fun hf => nomatch hf⟩

/-- A leader changes what it knows about its peers, within what is acknowledged. -/
theorem Reach.set_progress (h : Reach s strict draft e r c)
    {pr : OrderedMap NodeId Progress less}
    (hpr : ∀ {matched}, c.role = .leader →
      ProgressOk s.members c.id c.log.lastIndex c.pr matched →
      ProgressOk s.members c.id c.log.lastIndex pr matched) :
    Reach s strict draft e r { c with pr := pr } := by
  obtain ⟨e₁, r₁, hext, hll, ht⟩ := h
  exact ⟨e₁, r₁, hext, hll, { ht with
    voter := ht.voter
    replica := { ht.replica with progress := fun hr => hpr hr (ht.replica.progress hr) } }⟩

/-- A leader counts an acknowledgement of `v`. -/
theorem Reach.ack_progress (h : Reach s strict draft e r c) (hr : c.role = .leader)
    {pr : OrderedMap NodeId Progress less} {v : NodeId} {i : Nat}
    (hm : .accept c.term v i ∈ r.issued)
    (hpr : ∀ {matched}, i ≤ c.log.lastIndex →
      ProgressOk s.members c.id c.log.lastIndex c.pr matched →
      ProgressOk s.members c.id c.log.lastIndex pr
        (Function.update matched v (max (matched v) i))) :
    Reach s strict draft e r { c with pr := pr } := by
  have hpre : c.role ≠ .preCandidate := by
    rw [hr]
    decide
  refine h.replicate rfl rfl rfl hpre ?_
  intro e₁ r₁ hext _ ht
  have hrole : (r₁.replica c.id).role = .leader := by
    rw [ht.replica.role, hr]
    rfl
  have hm₁ : .accept (r₁.replica c.id).term v i ∈ r₁.issued := by
    rw [ht.replica.term]
    exact hext.grows.issued hm
  have hi : i ≤ c.log.lastIndex := by
    have hok : i ≤ (r₁.leaderLog (r₁.replica c.id).term).length := ht.matching.issued _ hm₁
    rw [← (ht.matching.leads hrole).1, ht.replica.log] at hok
    rwa [ht.wf.lastIndex_eq]
  refine ⟨_, .ack hrole hm₁, rfl, rfl, ht.indexed, fun _ => Or.inr rfl, ?_, ht.wf, ht.msgs⟩
  rw [Replication.State.put_self]
  exact { ht.replica with progress := fun _ => hpr hi (ht.replica.progress hr) }

/-- A leader's progress after its log grew. -/
theorem ProgressOk.mono {id : NodeId} {last last' : Nat} {pr : OrderedMap NodeId Progress less}
    {matched : NodeId → Nat} (h : ProgressOk s.members id last pr matched) (hle : last ≤ last') :
    ProgressOk s.members id last' pr matched :=
  { h with
    next_le := fun hf => (h.next_le hf).trans (by omega)
    match_le := fun hf => (h.match_le hf).trans hle }

/-- A leader appends an entry of its term; a log that ends below the commit index refuses it. -/
theorem Reach.append_entry (h : Reach s strict draft e r c) (hr : c.role = .leader) {en : Entry}
    (hterm : en.term = c.term) (hidx : en.index = c.log.lastIndex + 1) :
    Reach s strict draft e r { c with log := (c.log.append [en]).2 } := by
  have hpre : c.role ≠ .preCandidate := by
    rw [hr]
    decide
  obtain ⟨e₀, r₀, hext₀, hll₀, ht₀⟩ := id h
  have hrole : ∀ {e₁ r₁}, Tracks s strict draft e₁ r₁ c → (r₁.replica c.id).role = .leader := by
    intro e₁ r₁ ht
    rw [ht.replica.role, hr]
    rfl
  have hpos : en.term ≠ 0 := by
    have hel := (ht₀.matching.leads (hrole ht₀)).2
    have := ht₀.matching.elected_pos hel
    rw [ht₀.replica.term] at this
    omega
  rcases ht₀.wf.append_one hidx hpos with ⟨heq, -⟩ | ⟨hwf, hlog, hst, hcom, -, -⟩
  · rw [heq]
    exact h
  · refine h.replicate rfl rfl ?_ hpre ?_
    · simp only [Core.voter, hst]
    intro e₁ r₁ hext _ ht
    have hen : en.term = (r₁.replica c.id).term := by rw [hterm, ht.replica.term]
    refine ⟨_, .propose (hrole ht) hen, rfl, rfl, ?_, ?_, ?_, hwf, ?_⟩
    · intro t
      by_cases htt : t = (r₁.replica c.id).term
      · subst htt
        simp only [Function.update_self, ht.replica.log]
        rw [← hlog]
        exact hwf.logical
      · simp only [Function.update_of_ne htt]
        exact ht.indexed t
    · intro t
      by_cases htt : t = c.term
      · exact Or.inl ⟨hr, htt⟩
      · rw [← ht.replica.term] at htt
        exact Or.inr (Function.update_of_ne htt _ _)
    · simp only [Replication.State.put_self]
      exact
        { term := ht.replica.term
          role := ht.replica.role
          log := by rw [hlog, ht.replica.log]
          stored := by rw [hst, ht.replica.stored]
          commit := by rw [hcom, ht.replica.commit]
          progress := by
            intro _
            refine (ht.replica.progress hr).mono ?_
            rw [hwf.lastIndex_eq, hlog, ht.wf.lastIndex_eq, List.length_append]
            omega }
    · exact ht.msgs

/-- A move of the voter together with at most one step of the replica. -/
theorem Tracks.move (ht : Tracks s strict draft e r c) (c' : Core) (hid : c'.id = c.id)
    (hvoters : c'.voters = c.voters)
    (hm : Election.Move (s.members.length / 2 + 1) e.sent c.id (c.voter draft) (c'.voter draft))
    {r₂ : Replication.State NodeId Entry}
    (hs : r₂ = r ∨ Replication.Step Entry.term s.members.toFinset strict c.id r r₂)
    (hel : ∀ {t}, t ∈ r₂.elected ↔ t ∈ r.elected ∨ (c'.role.abs = .leader ∧ t = c'.term))
    (hh : r₂.handed = r.handed) (hidx : ∀ t, Indexed (r₂.leaderLog t))
    (hrep : ReplicaOk s.members c' (r₂.replica c.id)) (hpre : c'.role ≠ .preCandidate)
    (hwf : c'.log.WF) (hmsgs : ∀ m ∈ c'.msgs, Known r₂ m) :
    Ext c.id e r (e.put c.id (c'.voter draft)) r₂ ∧
      Tracks s strict draft (e.put c.id (c'.voter draft)) r₂ c' := by
  have hg : Replication.Grows Entry.term r r₂ := by
    rcases hs with rfl | hs
    · exact .refl _
    · exact ht.matching.grows hs
  have hother : ∀ {m}, m ≠ c.id → r₂.replica m = r.replica m := by
    intro m hne
    rcases hs with rfl | hs
    · rfl
    · exact hs.replica_of_ne hne
  constructor
  · exact
      { sent := rfl
        won := Set.subset_union_left
        voter := fun hne => Function.update_of_ne hne _ _
        replica := hother
        grows := hg
        handed := hh }
  · have hel₂ : ∀ {t}, t ∈ r₂.elected ↔ ∃ m, (t, m) ∈ (e.put c.id (c'.voter draft)).won := by
      intro t
      rw [hel, ht.elected]
      constructor
      · rintro (⟨m, hm⟩ | ⟨hr, rfl⟩)
        · exact ⟨m, Or.inl hm⟩
        · exact ⟨c.id, Or.inr ⟨hr, rfl⟩⟩
      · rintro ⟨m, hm | ⟨hr, heq⟩⟩
        · exact Or.inl ⟨m, hm⟩
        · exact Or.inr ⟨hr, congrArg Prod.fst heq⟩
    exact
      { ht.toSound.step (Or.inr (.move ht.id_mem (ht.voter ▸ hm))) hs hidx hel₂
          fun hm => hg.issued (ht.grants hm) with
        id_mem := hid ▸ ht.id_mem
        voters := hvoters ▸ ht.voters
        voter := by
          rw [hid]
          exact Function.update_self _ _ _
        replica := hid ▸ hrep
        not_pre := hpre
        wf := hwf
        msgs := hmsgs }

/-- A voter that does not lead after its move does not add to the elected terms. -/
theorem elected_of_not_leader {S : Set Nat} {t t' : Nat} {ro : Consensus.Role} (h : ro ≠ .leader) :
    t ∈ S ↔ t ∈ S ∨ (ro = .leader ∧ t = t') :=
  ⟨Or.inl, fun hor => hor.resolve_right fun hand => h hand.1⟩

/-- The node enters a term, or stays in its own, as a follower or a candidate. -/
theorem Tracks.enter (ht : Tracks s strict draft e r c) (t : Nat) (vote : NodeId) {role : Role}
    (votes : List NodeId) (hrole : role = .follower ∨ role = .candidate)
    (hmove : Election.Move (s.members.length / 2 + 1) e.sent c.id (c.voter draft)
      (Core.voter { c with term := t, vote := vote, role := role, votes := votes } draft))
    (hstep : Replication.Step Entry.term s.members.toFinset strict c.id r
      (r.put c.id { r.replica c.id with term := t, role := role.abs })) :
    ∃ e' r', Ext c.id e r e' r' ∧ r'.leaderLog = r.leaderLog ∧
      Tracks s strict draft e' r' { c with term := t, vote := vote, role := role, votes := votes } := by
  have hno : role.abs ≠ .leader ∧ role ≠ .preCandidate ∧ role ≠ .leader := by
    rcases hrole with rfl | rfl <;> decide
  obtain ⟨hext, htr⟩ := ht.move
    { c with term := t, vote := vote, role := role, votes := votes } rfl rfl hmove (Or.inr hstep)
    (elected_of_not_leader hno.1) rfl ht.indexed
    (by
      rw [Replication.State.put_self]
      exact { ht.replica with
        term := rfl
        role := rfl
        progress := fun hr => absurd hr hno.2.2 })
    hno.2.1 ht.wf ht.msgs
  exact ⟨_, _, hext, rfl, htr⟩

/-- The node turns follower of a later term. -/
theorem Tracks.adopt (ht : Tracks s strict draft e r c) {t : Nat} (hlt : c.term < t) :
    Reach s strict draft e r { c with term := t, vote := 0, role := .follower, votes := [] } := by
  obtain ⟨e', r', hext, hlog, htr⟩ := ht.enter t 0 [] (Or.inl rfl) (.adopt hlt)
    (.follow (by rw [ht.replica.term]; exact hlt.le))
  exact ⟨e', r', hext, fun _ => Or.inr (by rw [hlog]), htr⟩

/-- A candidate turns follower of its own term. -/
theorem Reach.yield (h : Reach s strict draft e r c) (hr : c.role = .candidate) :
    Reach s strict draft e r { c with vote := 0, role := .follower, votes := [] } := by
  obtain ⟨e₁, r₁, hext₁, hll, ht⟩ := h
  obtain ⟨e', r', hext, hlog, htr⟩ := ht.enter c.term 0 [] (Or.inl rfl)
    (.yield (by rw [Core.voter, hr]; rfl)) (.follow (by rw [ht.replica.term]))
  refine ⟨e', r', hext₁.trans hext, fun t => Or.inr ?_, htr⟩
  rw [hlog]
  exact (hll t).resolve_left fun hl => absurd (hr.symm.trans hl.1) (by decide)

/-- The node starts an election. -/
theorem Reach.campaign (h : Reach s strict draft e r c) (hr : c.role ≠ .leader) :
    Reach s strict draft e r
      { c with term := c.term + 1, vote := c.id, role := .candidate, votes := [c.id] } := by
  obtain ⟨e₁, r₁, hext₁, hll, ht⟩ := h
  have hmove : Election.Move (s.members.length / 2 + 1) e₁.sent c.id (c.voter draft)
      (Core.voter { c with term := c.term + 1, vote := c.id, role := .candidate, votes := [c.id] }
        draft) := by
    rw [Core.voter, Core.voter, voteOf_of_ne_zero ht.id_ne_zero]
    exact .campaign
  obtain ⟨e', r', hext, hlog, htr⟩ := ht.enter (c.term + 1) c.id [c.id] (Or.inr rfl) hmove
    (.campaign (by rw [ht.replica.term]; omega))
  refine ⟨e', r', hext₁.trans hext, fun t => Or.inr ?_, htr⟩
  rw [hlog]
  exact (hll t).resolve_left fun hl => hr hl.1

/-- A candidate asks for a vote. -/
theorem Reach.send_request (h : Reach s strict draft e r c) (hr : c.role = .candidate) {m : Message}
    (hty : m.type = .msgVote) (hterm : m.term = c.term) (hsend : m.sender = c.id)
    (hlt : m.logTerm = c.log.lastTerm) (hli : m.index = c.log.lastIndex) :
    Reach s strict draft e r { c with msgs := c.msgs ++ [m] } := by
  obtain ⟨e₁, r₁, hext₁, hll, ht⟩ := h
  have hrole : (r₁.replica c.id).role = .candidate := by
    rw [ht.replica.role, hr]
    rfl
  have hstep : Replication.Step Entry.term s.members.toFinset strict c.id r₁ _ := .request hrole
  have hmail : mailOf m = some (.request c.term c.id) := by
    simp [mailOf, hty, hterm, hsend]
  have hmove : Election.Move (s.members.length / 2 + 1) e₁.sent c.id (c.voter draft)
      (Core.voter { c with msgs := c.msgs ++ [m] } draft) := by
    rw [Core.voter, Core.voter, mailSet_snoc_some hmail]
    exact .request (by rw [hr]; rfl)
  have hk : Known (r₁.issue (.request (r₁.replica c.id).term c.id
      (lastTerm Entry.term (r₁.replica c.id).log) (r₁.replica c.id).log.length)) m := by
    unfold Known
    rw [hty, ht.replica.term, ht.replica.log, hterm, hsend, hlt, hli, ht.wf.lastTerm_eq,
      ht.wf.lastIndex_eq]
    exact Set.mem_insert _ _
  obtain ⟨hext, htr⟩ := ht.move { c with msgs := c.msgs ++ [m] } rfl rfl hmove (Or.inr hstep)
    (elected_of_not_leader (by rw [hr]; decide)) rfl ht.indexed { ht.replica with } ht.not_pre ht.wf
    (known_snoc ht.msgs (Set.subset_insert _ _) hk)
  exact ⟨_, _, hext₁.trans hext, hll, htr⟩

/-- A follower grants its vote. -/
theorem Reach.grant (h : Reach s strict draft e r c) (hr : c.role = .follower) {m : Message}
    (hty : m.type = .msgVoteResp) (hterm : m.term = c.term) (hsend : m.sender = c.id)
    (hrej : m.reject = false) (hmail : .request c.term m.receiver ∈ e.sent) {lt li : Nat}
    (hreq : .request c.term m.receiver lt li ∈ r.issued) (hv : c.vote = 0 ∨ c.vote = m.receiver)
    (hup : Replication.UpToDate Entry.term lt li c.log.logical) :
    Reach s strict draft e r { c with vote := m.receiver, msgs := c.msgs ++ [m] } := by
  obtain ⟨e₁, r₁, hext₁, hll, ht⟩ := h
  rw [← hext₁.sent] at hmail
  have hne : m.receiver ≠ 0 := by
    intro h0
    exact s.nonzero (h0 ▸ (ht.election.sent_request hmail).2)
  have hrole : (r₁.replica c.id).role = .follower := by
    rw [ht.replica.role, hr]
    rfl
  have hstep : Replication.Step Entry.term s.members.toFinset strict c.id r₁ _ :=
    .grant hrole (by rw [ht.replica.term]; exact hext₁.grows.issued hreq)
      (by rw [ht.replica.log]; exact hup)
  have hgrant : mailOf m = some (.grant c.term c.id m.receiver) := by
    simp [mailOf, hty, hterm, hsend, hrej]
  have hmove : Election.Move (s.members.length / 2 + 1) e₁.sent c.id (c.voter draft)
      (Core.voter { c with vote := m.receiver, msgs := c.msgs ++ [m] } draft) := by
    rw [Core.voter, Core.voter, mailSet_snoc_some hgrant, voteOf_of_ne_zero hne]
    refine .grant (by rw [hr]; rfl) hmail ?_
    rcases hv with h0 | heq
    · exact Or.inl (by rw [h0]; rfl)
    · exact Or.inr (by rw [heq]; exact voteOf_of_ne_zero hne)
  have hk : Known (r₁.issue (.grant (r₁.replica c.id).term c.id m.receiver)) m := by
    unfold Known
    rw [hty, ht.replica.term, hterm, hsend]
    exact fun _ => Set.mem_insert _ _
  obtain ⟨hext, htr⟩ := ht.move { c with vote := m.receiver, msgs := c.msgs ++ [m] } rfl rfl hmove
    (Or.inr hstep) (elected_of_not_leader (by rw [hr]; decide)) rfl ht.indexed { ht.replica with }
    ht.not_pre ht.wf (known_snoc ht.msgs (Set.subset_insert _ _) hk)
  exact ⟨_, _, hext₁.trans hext, hll, htr⟩

/-- A candidate counts a vote. -/
theorem Reach.count (h : Reach s strict draft e r c) (hr : c.role = .candidate) {v : NodeId}
    (hmail : .grant c.term v c.id ∈ e.sent) (hv : v ∉ c.votes) :
    Reach s strict draft e r { c with votes := c.votes ++ [v] } := by
  obtain ⟨e₁, r₁, hext₁, hll, ht⟩ := h
  rw [← hext₁.sent] at hmail
  obtain ⟨hext, htr⟩ := ht.move { c with votes := c.votes ++ [v] } rfl rfl
    (.count (by rw [Core.voter, hr]; rfl) hmail hv) (Or.inl rfl)
    (elected_of_not_leader (by rw [hr]; decide)) rfl ht.indexed { ht.replica with } ht.not_pre ht.wf
    ht.msgs
  exact ⟨_, _, hext₁.trans hext, hll, htr⟩

/-- A candidate with a quorum of votes starts to lead. -/
theorem Reach.win (h : Reach s strict draft e r c) (hr : c.role = .candidate)
    (hq : s.members.length / 2 + 1 ≤ c.votes.length) {pr : OrderedMap NodeId Progress less}
    (hpr : ProgressOk s.members c.id c.log.lastIndex pr fun _ => 0) :
    Reach s strict draft e r { c with role := .leader, pr := pr } := by
  obtain ⟨e₁, r₁, hext₁, hll, ht⟩ := h
  have hcand : (e₁.voter c.id).role = .candidate := by
    rw [ht.voter, Core.voter, hr]
    rfl
  have hvotes : s.members.length / 2 + 1 ≤ (e₁.voter c.id).votes.length := by
    rw [ht.voter]
    exact hq
  have hterm : (e₁.voter c.id).term = (r₁.replica c.id).term := by
    rw [ht.voter, ht.replica.term]
    rfl
  obtain ⟨Q, hQ, hg⟩ := ht.election.votes_majority hcand hvotes
  have hrole : (r₁.replica c.id).role = .candidate := by
    rw [ht.replica.role, hr]
    rfl
  have hnew : (r₁.replica c.id).term ∉ r₁.elected := by
    intro hel
    obtain ⟨m, hm⟩ := ht.elected.mp hel
    exact ht.election.fresh hcand hvotes m (hterm ▸ hm)
  have hstep : Replication.Step Entry.term s.members.toFinset strict c.id r₁ _ :=
    .win hrole hQ (fun v hv => (hg v hv).imp id fun hm => ht.grants (hterm ▸ hm)) hnew
  obtain ⟨hext, htr⟩ := ht.move { c with role := .leader, pr := pr } rfl rfl
    (.win (by rw [Core.voter, hr]; rfl) hq) (Or.inr hstep)
    (by
      intro t
      rw [Set.mem_insert_iff, ht.replica.term, or_comm]
      exact or_congr_right ⟨fun heq => ⟨rfl, heq⟩, And.right⟩)
    rfl
    (by
      intro t
      by_cases htt : t = (r₁.replica c.id).term
      · subst htt
        simp only [Function.update_self, ht.replica.log]
        exact ht.wf.logical
      · simp only [Function.update_of_ne htt]
        exact ht.indexed t)
    (by
      simp only [Replication.State.put_self]
      exact { ht.replica with
        role := rfl
        progress := fun _ => hpr })
    nofun ht.wf ht.msgs
  refine ⟨_, _, hext₁.trans hext, fun t => ?_, htr⟩
  by_cases htt : t = c.term
  · exact Or.inl ⟨rfl, htt⟩
  · rw [← ht.replica.term] at htt
    right
    simp only [Function.update_of_ne htt]
    rcases hll t with ⟨hl, -⟩ | heq
    · rw [hr] at hl
      cases hl
    · exact heq

/-- A leader commits what a majority holds. -/
theorem Reach.commit (h : Reach s strict draft e r c) (hr : c.role = .leader) {k : Nat}
    (hk : c.log.term k = c.term) (hle : k ≤ c.log.lastIndex)
    (hq : ∀ {matched}, ProgressOk s.members c.id c.log.lastIndex c.pr matched →
      ∃ Q, Majority s.members.toFinset Q ∧ ∀ v ∈ Q, v = c.id ∨ k ≤ matched v) :
    Reach s strict draft e r { c with log := { c.log with committed_ := k } } := by
  refine h.replicate rfl rfl rfl (by rw [hr]; decide) ?_
  intro e₁ r₁ hext _ ht
  obtain ⟨Q, hQ, hm⟩ := hq (ht.replica.progress hr)
  have hrole : (r₁.replica c.id).role = .leader := by
    rw [ht.replica.role, hr]
    rfl
  have hterm : termAt Entry.term (r₁.replica c.id).log k = (r₁.replica c.id).term := by
    rw [ht.replica.log, ht.replica.term, ← hk]
    exact (ht.wf.term_eq (ht.wf.lastIndex_eq ▸ hle)).symm
  have hwf := (ht.wf.of_logical_eq { c.log with committed_ := k } rfl rfl).1
  refine ⟨_, .commit hrole hterm hQ hm, rfl, rfl, ht.indexed, fun _ => Or.inr rfl, ?_, hwf, ht.msgs⟩
  simp only [Replication.State.put_self]
  exact { ht.replica with
    commit := rfl
    progress := fun _ => ht.replica.progress hr }

/-- The log of the leader a follower follows has not changed since. -/
theorem leaderLog_eq_of_follower {r₁ : Replication.State NodeId Entry} (hr : c.role = .follower)
    (hll : ∀ t, (c.role = .leader ∧ t = c.term) ∨ r₁.leaderLog t = r.leaderLog t) (t : Nat) :
    r₁.leaderLog t = r.leaderLog t := by
  rcases hll t with ⟨hl, -⟩ | heq
  · rw [hr] at hl
    cases hl
  · exact heq

/-- What an append of its term's leader tells a follower. -/
theorem Tracks.accepts (ht : Tracks s strict draft e r c) {prev pt lc : Nat} {ents : List Entry}
    (hm : .append c.term prev pt ents lc ∈ r.issued) (hpt : c.log.term prev = pt) :
    c.log.Accepts (r.leaderLog c.term) prev ents := by
  obtain ⟨-, hprev, hpte, hents⟩ := ht.matching.issued _ hm
  exact
    { wf := ht.wf
      indexed := ht.indexed _
      logical := by
        rw [← ht.replica.log]
        exact (ht.matching.log _).matches (ht.matching.leaderLog _)
      stored := by
        rw [← ht.replica.stored]
        exact (ht.matching.stored _).matches (ht.matching.leaderLog _)
      prev_le := hprev
      entries := hents
      term_prev := hpt.trans hpte }

/-- A follower accepts an append of the leader of its term. -/
theorem Reach.accept_append (h : Reach s strict draft e r c) (hr : c.role = .follower)
    {prev pt lc : Nat} {ents : List Entry} (hm : .append c.term prev pt ents lc ∈ r.issued)
    (hpt : c.log.term prev = pt)
    (hcare : strict → c.log.Careful (r.leaderLog c.term) prev ents) {m : Message}
    (hty : m.type = .msgAppResp) (hterm : m.term = c.term) (hsend : m.sender = c.id)
    (hrej : m.reject = false) (hidx : m.index = prev + ents.length) :
    Reach s strict draft e r
      { c with log := (c.log.maybeAppend prev pt lc ents).2, msgs := c.msgs ++ [m] } := by
  have hmail : mailOf m = none := by simp [mailOf, hty]
  rw [RaftLog.maybeAppend_of_eq hpt]
  refine h.replicate rfl rfl ?_ (by rw [hr]; decide) ?_
  · simp only [Core.voter, mailSet_snoc_none hmail, RaftLog.reconcile_storage]
  intro e₁ r₁ hext hll ht
  have hm₁ := hext.grows.issued hm
  have hacc := ht.accepts hm₁ hpt
  have hcare₁ : strict → c.log.Careful (r₁.leaderLog c.term) prev ents := by
    intro hst
    rw [leaderLog_eq_of_follower hr hll]
    exact hcare hst
  have hcom : strict → c.log.committed_ ≤ c.log.logical.length := by
    intro hst
    rw [← ht.replica.log, ← ht.replica.commit]
    exact (ht.complete hst).commit_le c.id
  have hf := hacc.follows hcare₁ hcom
  have hwf := (ht.wf.reconcile hacc.continues hacc.prev_pos).1
  obtain ⟨hwf', hlog'⟩ := hwf.of_logical_eq { c.log.reconcile prev ents with
    committed_ := if lc > c.log.committed_ then min lc (prev + ents.length)
      else c.log.committed_ } rfl rfl
  have hrole : (r₁.replica c.id).role = .follower := by
    rw [ht.replica.role, hr]
    rfl
  rw [← ht.replica.log, ← ht.replica.stored, ← ht.replica.commit, ← ht.replica.term] at hf
  rw [← ht.replica.term] at hm₁
  have hstep : Replication.Step Entry.term s.members.toFinset strict c.id r₁ _ :=
    .append hrole hm₁ hf
  refine ⟨_, hstep, rfl, rfl, ht.indexed, fun _ => Or.inr rfl, ?_, hwf', ?_⟩
  · simp only [Replication.State.issue, Replication.State.put_self]
    exact
      { term := ht.replica.term
        role := ht.replica.role
        log := hlog'.symm
        stored := ht.replica.stored.trans (by rw [RaftLog.reconcile_storage])
        commit := by rw [ht.replica.commit]
        progress := fun hl => by
          rw [hr] at hl
          cases hl }
  · refine known_snoc ht.msgs (Set.subset_insert _ _) ?_
    unfold Known
    rw [hty, hterm, hsend, hrej, hidx, ht.replica.term]
    exact ⟨fun hf => (nomatch hf), fun _ => Set.mem_insert _ _⟩

/-- A follower learns a commit index from a heartbeat. -/
theorem Reach.learn_commit (h : Reach s strict draft e r c) (hr : c.role = .follower) {k : Nat}
    (hm : .heartbeat c.term k ∈ r.issued) (hk : c.log.committed_ < k)
    (hagree : strict → c.log.term (min k c.log.lastIndex) =
      termAt Entry.term (r.leaderLog c.term) (min k c.log.lastIndex)) :
    Reach s strict draft e r
      { c with log := { c.log with committed_ := min k c.log.lastIndex } } := by
  refine h.replicate rfl rfl rfl (by rw [hr]; decide) ?_
  intro e₁ r₁ hext hll ht
  have hrole : (r₁.replica c.id).role = .follower := by
    rw [ht.replica.role, hr]
    rfl
  have hlast := ht.wf.lastIndex_eq
  have hwf := (ht.wf.of_logical_eq { c.log with committed_ := min k c.log.lastIndex } rfl rfl).1
  have hstep : Replication.Step Entry.term s.members.toFinset strict c.id r₁ _ :=
    .heartbeat (k := k) hrole (by rw [ht.replica.term]; exact hext.grows.issued hm)
      (by rw [ht.replica.commit]; exact hk)
      (by
        intro hst
        have hag := hagree hst
        rw [← leaderLog_eq_of_follower hr hll, hlast, ht.wf.term_eq (Nat.min_le_right _ _)] at hag
        rw [ht.replica.log, ht.replica.term]
        refine ht.wf.logical.take_isPrefix ?_ (Nat.min_le_right _ _) hag
        rw [← ht.replica.log]
        exact (ht.matching.log _).matches (ht.matching.leaderLog _))
  refine ⟨_, hstep, rfl, rfl, ht.indexed, fun _ => Or.inr rfl, ?_, hwf, ht.msgs⟩
  simp only [Replication.State.put_self]
  exact { ht.replica with
    commit := by rw [ht.replica.log, hlast]
    progress := fun hl => by
      rw [hr] at hl
      cases hl }

end Micro

end NexusLOB.Raft
