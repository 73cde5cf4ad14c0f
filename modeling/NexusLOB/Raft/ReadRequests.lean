import NexusLOB.Raft.Driver
import NexusLOB.Raft.ReadRound

/-!
# Outstanding reads of a leader

Several reads can wait for their acknowledgements at once, in the order they were registered. When
one of them has its quorum, `advance` drops it together with all that were registered before it, but
only this one is answered. So a leader answers every read it drops exactly if no read has its quorum
before the reads in front of it.
-/

namespace NexusLOB.Raft

open Collections

/-! ## One acknowledgement -/

namespace ReadOnly

variable {r : ReadOnly} {m : Message} {quorum i : Nat} {ctx c : Bytes}

/-- The nodes that have acknowledged a read once this message is counted. -/
def ackers (r : ReadOnly) (m : Message) : List NodeId :=
  let ackList := (r.acks_.find? m.context).getD []
  if m.sender ∈ ackList then ackList else ackList ++ [m.sender]

theorem serve_of_not_pending (h : r.pending_.find? m.context = none) :
    r.serve m quorum = (none, r) := by
  rw [serve, recvAck, h]

theorem serve_of_waiting (h : r.pending_.find? m.context = some i)
    (hq : ¬ quorum ≤ (r.ackers m).length + 1) :
    r.serve m quorum = (none, { r with acks_ := r.acks_.insert m.context (r.ackers m) }) := by
  have hack : r.recvAck m quorum =
      (none, { r with acks_ := r.acks_.insert m.context (r.ackers m) }) := by
    rw [recvAck, h]
    exact if_neg hq
  rw [serve, hack]

theorem serve_of_quorum (h : r.pending_.find? m.context = some i)
    (hq : quorum ≤ (r.ackers m).length + 1) :
    r.serve m quorum = (some i, popThrough m.context
      { r with acks_ := r.acks_.insert m.context (r.ackers m) } r.recvQueue_) := by
  have hack : r.recvAck m quorum =
      (some i, { r with acks_ := r.acks_.insert m.context (r.ackers m) }) := by
    rw [recvAck, h]
    exact if_pos hq
  rw [serve, hack]
  dsimp only
  rw [advance, h]

theorem popThrough_cons (r : ReadOnly) (ctx : Bytes) (rest : List Bytes) :
    popThrough ctx r (ctx :: rest) =
      { r with recvQueue_ := rest, pending_ := r.pending_.erase ctx, acks_ := r.acks_.erase ctx } := by
  rw [popThrough]
  exact if_pos rfl

/-- What is dropped is not pending any more, and nothing becomes pending. -/
theorem find?_popThrough_none (r : ReadOnly) (queue : List Bytes)
    (h : r.pending_.find? c = none) : (popThrough ctx r queue).pending_.find? c = none := by
  induction queue generalizing r with
  | nil => exact h
  | cons front rest ih =>
    have herase : (r.pending_.erase front).find? c = none := by
      by_cases hc : front = c
      · rw [hc, OrderedMap.find?_erase_self]
      · rw [OrderedMap.find?_erase_of_ne _ hc, h]
    rw [popThrough]
    split
    · exact herase
    · exact ih _ herase

theorem find?_popThrough_front (r : ReadOnly) (front : Bytes) (rest : List Bytes) :
    (popThrough ctx r (front :: rest)).pending_.find? front = none := by
  rw [popThrough]
  split
  · exact OrderedMap.find?_erase_self _ _
  · exact find?_popThrough_none _ _ (OrderedMap.find?_erase_self _ _)

theorem find?_serve_none (h : r.pending_.find? c = none) :
    (r.serve m quorum).2.pending_.find? c = none := by
  cases hp : r.pending_.find? m.context with
  | none => rwa [serve_of_not_pending hp]
  | some i =>
    by_cases hq : quorum ≤ (r.ackers m).length + 1
    · rw [serve_of_quorum hp hq]
      exact find?_popThrough_none _ _ h
    · rw [serve_of_waiting hp hq]
      exact h

/-- The queue lists the pending reads. -/
structure Queued (r : ReadOnly) : Prop where
  nodup : r.recvQueue_.Nodup
  mem_iff : ∀ c, c ∈ r.recvQueue_ ↔ (r.pending_.find? c).isSome

theorem Queued.add (hr : r.Queued) (h : r.pending_.find? ctx = none) : (r.add i ctx).Queued := by
  have hnew : ctx ∉ r.recvQueue_ := by
    rw [hr.mem_iff, h]
    exact Bool.false_ne_true
  rw [add_of_not_pending h]
  refine ⟨?_, ?_⟩
  · exact List.nodup_append.mpr ⟨hr.nodup, List.nodup_singleton _, fun a ha b hb hab =>
      hnew (List.mem_singleton.mp hb ▸ hab ▸ ha)⟩
  · intro c
    rw [List.mem_append, List.mem_singleton, hr.mem_iff]
    by_cases hc : ctx = c
    · rw [hc, OrderedMap.find?_insert_self]
      exact iff_of_true (Or.inr rfl) rfl
    · rw [OrderedMap.find?_insert_of_ne _ _ hc]
      exact or_iff_left (Ne.symm hc)

/-- The first read in the queue is served. -/
theorem Queued.erase_front {rest : List Bytes} (hr : r.Queued)
    (hqueue : r.recvQueue_ = ctx :: rest) {acks : OrderedMap Bytes (List NodeId) less} :
    Queued { r with
      recvQueue_ := rest, pending_ := r.pending_.erase ctx, acks_ := acks } := by
  have hnodup := hr.nodup
  rw [hqueue, List.nodup_cons] at hnodup
  refine ⟨hnodup.2, ?_⟩
  intro c
  have hmem := hr.mem_iff c
  rw [hqueue, List.mem_cons] at hmem
  by_cases hc : ctx = c
  · rw [← hc, OrderedMap.find?_erase_self]
    exact iff_of_false hnodup.1 Bool.false_ne_true
  · rw [OrderedMap.find?_erase_of_ne _ hc, ← hmem, or_iff_right (Ne.symm hc)]

end ReadOnly

/-! ## What has become of the reads -/

/-- The reads of a leader: those that wait, all that were registered with their commit index, and
the answers given. -/
structure ReadHistory where
  readOnly : ReadOnly
  registered : List (Bytes × Nat)
  emitted : List ReadState

namespace ReadHistory

variable {h : ReadHistory} {m : Message} {quorum i : Nat} {ctx c : Bytes}

def register (h : ReadHistory) (i : Nat) (ctx : Bytes) : ReadHistory :=
  { h with readOnly := h.readOnly.add i ctx, registered := h.registered ++ [(ctx, i)] }

def serve (h : ReadHistory) (m : Message) (quorum : Nat) : ReadHistory :=
  { h with
    readOnly := (h.readOnly.serve m quorum).2
    emitted := h.emitted ++ ((h.readOnly.serve m quorum).1.map fun i => ⟨i, m.context⟩).toList }

/-- The answers to a read. -/
def answers (h : ReadHistory) (ctx : Bytes) : List ReadState :=
  h.emitted.filter fun rs => decide (rs.requestCtx = ctx)

/-- A registered read waits unanswered, or has one answer, with its own commit index. -/
structure Answered (h : ReadHistory) : Prop where
  queued : h.readOnly.Queued
  pending : ∀ c ∈ h.readOnly.recvQueue_, ∃ i, (c, i) ∈ h.registered
  emitted : ∀ rs ∈ h.emitted, ∃ i, (rs.requestCtx, i) ∈ h.registered
  read : ∀ {c i}, (c, i) ∈ h.registered →
    h.readOnly.pending_.find? c = some i ∧ h.answers c = [] ∨
      h.readOnly.pending_.find? c = none ∧ h.answers c = [⟨i, c⟩]

/-- A read was dropped without an answer. -/
structure Lost (h : ReadHistory) (c : Bytes) (i : Nat) : Prop where
  registered : (c, i) ∈ h.registered
  dropped : h.readOnly.pending_.find? c = none
  unanswered : h.answers c = []

theorem answers_append_of_ne {rs : ReadState} (hne : rs.requestCtx ≠ c) (es : List ReadState) :
    (es ++ [rs]).filter (fun rs => decide (rs.requestCtx = c)) =
      es.filter fun rs => decide (rs.requestCtx = c) := by
  rw [List.filter_append, List.filter_singleton, decide_eq_false hne, cond_false, List.append_nil]

theorem answers_append_self {rs : ReadState} (heq : rs.requestCtx = c) (es : List ReadState) :
    (es ++ [rs]).filter (fun rs => decide (rs.requestCtx = c)) =
      es.filter (fun rs => decide (rs.requestCtx = c)) ++ [rs] := by
  rw [List.filter_append, List.filter_singleton, decide_eq_true heq, cond_true]

/-! ### Registration -/

theorem Answered.not_pending (ha : h.Answered) (hnew : ctx ∉ h.registered.map Prod.fst) :
    h.readOnly.pending_.find? ctx = none ∧ h.answers ctx = [] := by
  have hno : ∀ i, (ctx, i) ∉ h.registered := fun i hi => hnew (List.mem_map_of_mem hi)
  constructor
  · by_contra hsome
    have hmem := (ha.queued.mem_iff ctx).mpr (Option.isSome_iff_ne_none.mpr hsome)
    obtain ⟨i, hi⟩ := ha.pending ctx hmem
    exact hno i hi
  · rw [answers, List.filter_eq_nil_iff]
    intro rs hrs heq
    obtain ⟨i, hi⟩ := ha.emitted rs hrs
    rw [of_decide_eq_true heq] at hi
    exact hno i hi

theorem Answered.register (ha : h.Answered) (hnew : ctx ∉ h.registered.map Prod.fst) :
    (h.register i ctx).Answered := by
  obtain ⟨hpend, hnone⟩ := ha.not_pending hnew
  have hadd := ReadOnly.add_of_not_pending (i := i) hpend
  refine ⟨ha.queued.add hpend, ?_, ?_, ?_⟩
  · intro c hc
    rw [ReadHistory.register, hadd] at hc
    rcases List.mem_append.mp hc with hold | hself
    · obtain ⟨j, hj⟩ := ha.pending c hold
      exact ⟨j, List.mem_append_left _ hj⟩
    · rw [List.mem_singleton.mp hself]
      exact ⟨i, List.mem_append_right _ (List.mem_singleton_self _)⟩
  · intro rs hrs
    obtain ⟨j, hj⟩ := ha.emitted rs hrs
    exact ⟨j, List.mem_append_left _ hj⟩
  · intro c j hj
    rw [ReadHistory.register, hadd]
    rcases List.mem_append.mp hj with hold | hself
    · have hne : ctx ≠ c := fun heq => hnew (heq ▸ List.mem_map_of_mem hold)
      dsimp only
      rw [OrderedMap.find?_insert_of_ne _ _ hne]
      exact ha.read hold
    · obtain ⟨rfl, rfl⟩ := Prod.mk.inj (List.mem_singleton.mp hself)
      exact Or.inl ⟨OrderedMap.find?_insert_self _ _ _, hnone⟩

theorem Lost.register (hl : h.Lost c i) (hne : ctx ≠ c) (j : Nat) : (h.register j ctx).Lost c i := by
  refine ⟨List.mem_append_left _ hl.registered, ?_, hl.unanswered⟩
  rw [ReadHistory.register, ReadOnly.add]
  split
  · exact hl.dropped
  · exact (OrderedMap.find?_insert_of_ne _ _ hne).trans hl.dropped

/-! ### Acknowledgement -/

/-- With this message the read has its quorum. -/
def Completes (r : ReadOnly) (m : Message) (quorum : Nat) : Prop :=
  (r.pending_.find? m.context).isSome ∧ quorum ≤ (r.ackers m).length + 1

instance (r : ReadOnly) (m : Message) (quorum : Nat) : Decidable (Completes r m quorum) :=
  inferInstanceAs (Decidable (_ ∧ _))

theorem serve_of_not_completes (hc : ¬ Completes h.readOnly m quorum) :
    ∃ acks, h.serve m quorum = { h with readOnly := { h.readOnly with acks_ := acks } } := by
  rw [serve]
  cases hp : h.readOnly.pending_.find? m.context with
  | none =>
    rw [ReadOnly.serve_of_not_pending hp, Option.map_none, Option.toList_none, List.append_nil]
    exact ⟨_, rfl⟩
  | some i =>
    have hq : ¬ quorum ≤ (h.readOnly.ackers m).length + 1 := fun hq => hc ⟨by rw [hp]; rfl, hq⟩
    rw [ReadOnly.serve_of_waiting hp hq, Option.map_none, Option.toList_none, List.append_nil]
    exact ⟨_, rfl⟩

theorem Answered.acks (ha : h.Answered) (acks : OrderedMap Bytes (List NodeId) less) :
    Answered { h with readOnly := { h.readOnly with acks_ := acks } } :=
  ⟨⟨ha.queued.nodup, ha.queued.mem_iff⟩, ha.pending, ha.emitted, ha.read⟩

/-- The first read in the queue has its quorum and is answered. -/
theorem Answered.serve_front (ha : h.Answered) (hc : Completes h.readOnly m quorum)
    (hfront : h.readOnly.recvQueue_.head? = some m.context) : (h.serve m quorum).Answered := by
  obtain ⟨rest, hqueue⟩ := List.head?_eq_some_iff.mp hfront
  obtain ⟨i, hi⟩ := Option.isSome_iff_exists.mp hc.1
  rw [serve, ReadOnly.serve_of_quorum hi hc.2, hqueue, ReadOnly.popThrough_cons]
  dsimp only
  rw [Option.map_some, Option.toList_some]
  refine ⟨ha.queued.erase_front hqueue, ?_, ?_, ?_⟩
  · intro c hc
    exact ha.pending c (hqueue ▸ List.mem_cons_of_mem _ hc)
  · intro rs hrs
    rcases List.mem_append.mp hrs with hold | hnew
    · exact ha.emitted rs hold
    · rw [List.mem_singleton.mp hnew]
      exact ha.pending m.context (hqueue ▸ List.mem_cons_self)
  · intro c j hj
    rw [answers]
    dsimp only
    by_cases hctx : m.context = c
    · subst hctx
      right
      rw [OrderedMap.find?_erase_self]
      rcases ha.read hj with ⟨hpend, hnone⟩ | ⟨hpend, -⟩
      · rw [hi] at hpend
        cases hpend
        refine ⟨rfl, ?_⟩
        have hself : (⟨i, m.context⟩ : ReadState).requestCtx = m.context := rfl
        rw [answers_append_self hself, ← answers, hnone, List.nil_append]
      · rw [hi] at hpend
        cases hpend
    · rw [OrderedMap.find?_erase_of_ne _ hctx, answers_append_of_ne hctx]
      exact ha.read hj

/-- Another read is in front of it and is dropped with it. -/
theorem Answered.serve_behind (ha : h.Answered) (hc : Completes h.readOnly m quorum)
    (hfront : h.readOnly.recvQueue_.head? ≠ some m.context) :
    ∃ c i, (h.serve m quorum).Lost c i := by
  obtain ⟨j, hj⟩ := Option.isSome_iff_exists.mp hc.1
  cases hqueue : h.readOnly.recvQueue_ with
  | nil =>
    have hmem := (ha.queued.mem_iff m.context).mpr hc.1
    rw [hqueue] at hmem
    exact absurd hmem List.not_mem_nil
  | cons front rest =>
    rw [hqueue, List.head?_cons] at hfront
    have hne : m.context ≠ front := fun heq => hfront (congrArg some heq.symm)
    have hmem : front ∈ h.readOnly.recvQueue_ := hqueue ▸ List.mem_cons_self
    obtain ⟨i, hi⟩ := ha.pending front hmem
    refine ⟨front, i, ⟨hi, ?_, ?_⟩⟩
    · rw [serve, ReadOnly.serve_of_quorum hj hc.2, hqueue]
      exact ReadOnly.find?_popThrough_front _ _ _
    · rw [serve, ReadOnly.serve_of_quorum hj hc.2, Option.map_some, Option.toList_some, answers]
      dsimp only
      rw [answers_append_of_ne hne]
      rcases ha.read hi with ⟨-, hnone⟩ | ⟨hpend, -⟩
      · exact hnone
      · have hsome := (ha.queued.mem_iff front).mp hmem
        rw [hpend] at hsome
        cases hsome

theorem Lost.serve (hl : h.Lost c i) (m : Message) (quorum : Nat) :
    (h.serve m quorum).Lost c i := by
  refine ⟨hl.registered, ReadOnly.find?_serve_none hl.dropped, ?_⟩
  by_cases hc : Completes h.readOnly m quorum
  · obtain ⟨j, hj⟩ := Option.isSome_iff_exists.mp hc.1
    have hne : m.context ≠ c := by
      rintro rfl
      rw [hl.dropped] at hj
      cases hj
    rw [ReadHistory.serve, ReadOnly.serve_of_quorum hj hc.2, Option.map_some, Option.toList_some,
      answers]
    dsimp only
    rw [answers_append_of_ne hne]
    exact hl.unanswered
  · obtain ⟨acks, hacks⟩ := serve_of_not_completes hc
    rw [hacks]
    exact hl.unanswered

end ReadHistory

/-! ## Runs of a leader -/

/-- A leader with the history of its reads. -/
structure ReadSession where
  peer : Peer
  registered : List (Bytes × Nat) := []
  emitted : List ReadState := []

namespace ReadSession

/-- Nothing has been registered yet. -/
def start (p : Peer) : ReadSession := { peer := p }

/-- The read an event registers: `readIndex` returns true. -/
def registers (n : RawNode) : Event → List (Bytes × Nat)
  | .readIndex ctx => if (n.readIndex ctx).1 then [(ctx, n.log_.commitIndex)] else []
  | _ => []

/-- One event, with the reads it registers and the `ReadState`s it emits. -/
def handle (s : ReadSession) (ev : Event) : ReadSession :=
  { peer := (s.peer.handle ev).1
    registered := s.registered ++ registers s.peer.node ev
    emitted := s.emitted ++
      (s.peer.handle ev).1.node.readStates_.drop s.peer.node.readStates_.length }

def exec (s : ReadSession) (evs : List Event) : ReadSession := evs.foldl handle s

def history (s : ReadSession) : ReadHistory :=
  { readOnly := s.peer.node.readOnly_, registered := s.registered, emitted := s.emitted }

/-- Events after which a leader is still leader, and reads that come by `readIndex`. -/
def Steady (p : Peer) : Event → Prop
  | .step m _ => m.term ≤ p.node.term_ ∧ m.type ≠ .msgReadIndex
  | .restart _ => False
  | _ => True

/-- A read that has its quorum is the first that waits. -/
def InTurn (p : Peer) : Event → Prop
  | .step m _ => p.ready = none → p.node.Acks m →
      ReadHistory.Completes p.node.readOnly_ m p.node.quorum →
      p.node.readOnly_.recvQueue_.head? = some m.context
  | _ => True

/-- What an event of a leader does to its reads. -/
inductive Turn (s s' : ReadSession) (ev : Event) : Prop
  | quiet (h : s'.history = s.history) (hturn : InTurn s.peer ev)
  | register (ctx : Bytes) (i : Nat) (h : s'.history = s.history.register i ctx)
      (hturn : InTurn s.peer ev)
  | serve (m : Message) (quorum : Nat) (h : s'.history = s.history.serve m quorum)
      (hturn : InTurn s.peer ev ↔
        (ReadHistory.Completes s.peer.node.readOnly_ m quorum →
          s.peer.node.readOnly_.recvQueue_.head? = some m.context))

section Turns

variable {s : ReadSession}

theorem history_handle {ev : Event} {ro : ReadOnly} {regs : List (Bytes × Nat)}
    {es : List ReadState} (hro : (s.peer.handle ev).1.node.readOnly_ = ro)
    (hregs : registers s.peer.node ev = regs)
    (hrs : (s.peer.handle ev).1.node.readStates_ = s.peer.node.readStates_ ++ es) :
    (s.handle ev).history =
      { readOnly := ro, registered := s.registered ++ regs, emitted := s.emitted ++ es } := by
  rw [history, handle, hro, hregs, hrs, List.drop_left]

/-- A call that leaves the reads alone. -/
theorem quiet_turn (hl : s.peer.node.role_ = .leader) {ev : Event}
    (hreg : registers s.peer.node ev = []) (hturn : InTurn s.peer ev)
    (hview : (s.peer.handle ev).1.node.readView = s.peer.node.readView) :
    (s.handle ev).peer.node.role_ = .leader ∧ Turn s (s.handle ev) ev := by
  have hro : (s.peer.handle ev).1.node.readOnly_ = s.peer.node.readOnly_ :=
    congrArg ReadView.readOnly hview
  have hrs : (s.peer.handle ev).1.node.readStates_ = s.peer.node.readStates_ ++ [] := by
    rw [List.append_nil]
    exact congrArg ReadView.readStates hview
  refine ⟨(congrArg ReadView.role hview).trans hl, .quiet ?_ hturn⟩
  rw [history_handle hro hreg hrs, List.append_nil, List.append_nil]
  rfl

theorem step_turn (hl : s.peer.node.role_ = .leader) {m : Message} {draw : Nat}
    (ht : m.term ≤ s.peer.node.term_) (hty : m.type ≠ .msgReadIndex) :
    (s.handle (.step m draw)).peer.node.role_ = .leader ∧
      Turn s (s.handle (.step m draw)) (.step m draw) := by
  cases hready : s.peer.ready with
  | some r =>
    refine quiet_turn hl rfl ?_ ?_
    · intro hnone
      rw [hready] at hnone
      cases hnone
    · simp only [Peer.handle, hready]
  | none =>
    have hview : (s.peer.handle (.step m draw)).1.node.readView =
        if s.peer.node.Acks m then s.peer.node.readView.serve m else s.peer.node.readView := by
      simp only [Peer.handle, hready]
      exact step_readView hl ht hty draw
    by_cases hacks : s.peer.node.Acks m
    · rw [if_pos hacks] at hview
      refine ⟨(congrArg ReadView.role hview).trans hl, .serve m s.peer.node.quorum ?_ ?_⟩
      · have hregs : registers s.peer.node (.step m draw) = [] := rfl
        rw [history_handle (congrArg ReadView.readOnly hview) hregs
          (congrArg ReadView.readStates hview), List.append_nil]
        rfl
      · exact ⟨fun h => h hready hacks, fun h _ _ => h⟩
    · rw [if_neg hacks] at hview
      exact quiet_turn hl rfl (fun _ h => absurd h hacks) hview

theorem readIndex_turn (hl : s.peer.node.role_ = .leader) (ctx : Bytes) :
    (s.handle (.readIndex ctx)).peer.node.role_ = .leader ∧
      Turn s (s.handle (.readIndex ctx)) (.readIndex ctx) := by
  have hview := readIndex_readView s.peer.node ctx
  cases hret : (s.peer.node.readIndex ctx).1 with
  | false =>
    rw [hret] at hview
    refine quiet_turn hl ?_ trivial hview
    rw [registers, hret]
    rfl
  | true =>
    rw [hret, if_pos rfl] at hview
    have hro : (s.peer.handle (.readIndex ctx)).1.node.readOnly_ =
        s.peer.node.readOnly_.add s.peer.node.log_.commitIndex ctx :=
      congrArg ReadView.readOnly hview
    have hrs : (s.peer.handle (.readIndex ctx)).1.node.readStates_ =
        s.peer.node.readStates_ ++ [] := by
      rw [List.append_nil]
      exact congrArg ReadView.readStates hview
    have hregs : registers s.peer.node (.readIndex ctx) =
        [(ctx, s.peer.node.log_.commitIndex)] := by
      rw [registers, hret, if_pos rfl]
    refine ⟨(congrArg ReadView.role hview).trans hl,
      .register ctx s.peer.node.log_.commitIndex ?_ trivial⟩
    rw [history_handle hro hregs hrs, List.append_nil]
    rfl

/-- `poll` hands out what is waiting; it was emitted before. -/
theorem poll_turn (hl : s.peer.node.role_ = .leader) :
    (s.handle .poll).peer.node.role_ = .leader ∧ Turn s (s.handle .poll) .poll := by
  cases hready : s.peer.ready with
  | some r =>
    refine quiet_turn hl rfl trivial ?_
    simp only [Peer.handle, hready]
  | none =>
    have hnode : (s.peer.handle .poll).1.node = s.peer.node.poll.2 := by
      simp only [Peer.handle, hready]
    refine ⟨?_, .quiet ?_ trivial⟩
    · rw [handle, hnode]
      exact hl
    · rw [history, handle, hnode]
      simp only [registers, RawNode.poll, List.drop_nil, List.append_nil]
      rfl

theorem advance_readView (n : RawNode) : n.advance.readView = n.readView := by
  unfold RawNode.advance
  dsimp only
  split <;> split <;> rfl

theorem saveHardState_readView (p : Peer) (hs : HardState) :
    (p.saveHardState hs).node.readView = p.node.readView := by
  unfold Peer.saveHardState
  split <;> rfl

/-- The calls that leave the reads of a leader alone. -/
theorem handle_readView {p : Peer} (hl : p.node.role_ = .leader) {ev : Event}
    (hstep : ∀ m draw, ev ≠ .step m draw) (hread : ∀ ctx, ev ≠ .readIndex ctx) (hpoll : ev ≠ .poll)
    (hlive : ∀ draw, ev ≠ .restart draw) : (p.handle ev).1.node.readView = p.node.readView := by
  have hmove := p.handle_move ev
  generalize p.handle ev = q at hmove ⊢
  cases hmove with
  | tick draw => exact tick_readView hl draw
  | step m draw => exact absurd rfl (hstep m draw)
  | propose data => exact (propose_worked _ data).readView
  | readIndex ctx => exact absurd rfl (hread ctx)
  | poll => exact absurd rfl hpoll
  | persistHardState rd => exact saveHardState_readView p rd.hardState
  | advance => exact advance_readView p.node
  | restart draw => exact absurd rfl (hlive draw)
  | persistEntries | send | stay => rfl

theorem handle_turn (hl : s.peer.node.role_ = .leader) {ev : Event} (hev : Steady s.peer ev) :
    (s.handle ev).peer.node.role_ = .leader ∧ Turn s (s.handle ev) ev := by
  cases ev with
  | step m draw => exact step_turn hl hev.1 hev.2
  | readIndex ctx => exact readIndex_turn hl ctx
  | poll => exact poll_turn hl
  | restart draw => exact hev.elim
  | _ =>
    refine quiet_turn hl rfl trivial ?_
    apply handle_readView hl <;> simp

end Turns

/-! ## Whole runs -/

section Runs

variable {s : ReadSession} {evs : List Event} {c : Bytes} {i : Nat}

theorem registered_isPrefix (s : ReadSession) (evs : List Event) :
    s.registered <+: (s.exec evs).registered := by
  induction evs generalizing s with
  | nil => exact List.prefix_rfl
  | cons ev evs ih => exact (List.prefix_append _ _).trans (ih (s.handle ev))

/-- Contexts are registered once. -/
theorem not_registered {ctx : Bytes} {ev : Event}
    (hreg : (s.handle ev).history = s.history.register i ctx)
    (hnodup : (((s.handle ev).exec evs).registered.map Prod.fst).Nodup) :
    ctx ∉ s.registered.map Prod.fst := by
  have hnow := hnodup.sublist ((registered_isPrefix _ _).sublist.map Prod.fst)
  have hlist : (s.handle ev).registered = s.registered ++ [(ctx, i)] :=
    congrArg ReadHistory.registered hreg
  rw [hlist, List.map_append] at hnow
  exact fun hmem => List.disjoint_of_nodup_append hnow hmem (List.mem_singleton_self ctx)

/-- A read that was dropped without an answer never gets one. -/
theorem lost_exec (hl : s.peer.node.role_ = .leader) (hlost : s.history.Lost c i)
    (hsteady : s.peer.Along Steady evs) (hnodup : ((s.exec evs).registered.map Prod.fst).Nodup) :
    (s.exec evs).history.Lost c i := by
  induction evs generalizing s with
  | nil => exact hlost
  | cons ev evs ih =>
    obtain ⟨hlead, hturn⟩ := handle_turn hl hsteady.1
    refine ih hlead ?_ hsteady.2 hnodup
    cases hturn with
    | quiet h _ =>
      rw [h]
      exact hlost
    | register ctx j h _ =>
      rw [h]
      apply hlost.register
      rintro rfl
      exact not_registered h hnodup (List.mem_map_of_mem hlost.registered)
    | serve m quorum h _ =>
      rw [h]
      exact hlost.serve m quorum

/-- As long as reads have their quorum in turn each is answered when it is dropped; the first one
out of turn takes another with it. -/
theorem answered_or_lost (hl : s.peer.node.role_ = .leader) (ha : s.history.Answered)
    (hsteady : s.peer.Along Steady evs) (hnodup : ((s.exec evs).registered.map Prod.fst).Nodup) :
    s.peer.Along InTurn evs ∧ (s.exec evs).history.Answered ∨
      ¬ s.peer.Along InTurn evs ∧ ∃ c i, (s.exec evs).history.Lost c i := by
  induction evs generalizing s with
  | nil => exact Or.inl ⟨trivial, ha⟩
  | cons ev evs ih =>
    obtain ⟨hlead, hturn⟩ := handle_turn hl hsteady.1
    have hgo : InTurn s.peer ev → (s.handle ev).history.Answered →
        s.peer.Along InTurn (ev :: evs) ∧ (s.exec (ev :: evs)).history.Answered ∨
          ¬ s.peer.Along InTurn (ev :: evs) ∧ ∃ c i, (s.exec (ev :: evs)).history.Lost c i := by
      intro hin ha'
      rcases ih hlead ha' hsteady.2 hnodup with ⟨hrest, hend⟩ | ⟨hrest, hend⟩
      · exact Or.inl ⟨⟨hin, hrest⟩, hend⟩
      · exact Or.inr ⟨fun h => hrest h.2, hend⟩
    cases hturn with
    | quiet h hin =>
      apply hgo hin
      rw [h]
      exact ha
    | register ctx j h hin =>
      apply hgo hin
      rw [h]
      exact ha.register (not_registered h hnodup)
    | serve m quorum h hin =>
      by_cases hc : ReadHistory.Completes s.peer.node.readOnly_ m quorum
      · by_cases hfront : s.peer.node.readOnly_.recvQueue_.head? = some m.context
        · apply hgo (hin.mpr fun _ => hfront)
          rw [h]
          exact ha.serve_front hc hfront
        · obtain ⟨c, i, hlost⟩ := ha.serve_behind hc hfront
          rw [← h] at hlost
          have hend : ((s.handle ev).exec evs).history.Lost c i :=
            lost_exec hlead hlost hsteady.2 hnodup
          exact Or.inr ⟨fun hall => hfront (hin.mp hall.1 hc), c, i, hend⟩
      · apply hgo (hin.mpr fun hc' => absurd hc' hc)
        obtain ⟨acks, hacks⟩ := ReadHistory.serve_of_not_completes (h := s.history) hc
        rw [h, hacks]
        exact ha.acks acks

theorem answered_start {p : Peer} (hpending : p.node.readOnly_.pending_ = .empty)
    (hqueue : p.node.readOnly_.recvQueue_ = []) : (start p).history.Answered := by
  refine ⟨⟨?_, ?_⟩, ?_, fun _ h => absurd h List.not_mem_nil,
    fun {_ _} h => absurd h List.not_mem_nil⟩
  · rw [history, start, hqueue]
    exact List.nodup_nil
  · intro c
    rw [history, start, hqueue, hpending, OrderedMap.find?_empty]
    exact iff_of_false List.not_mem_nil Bool.false_ne_true
  · intro c hc
    rw [history, start, hqueue] at hc
    exact absurd hc List.not_mem_nil

end Runs

/-- A leader that stays leader and has no read waiting registers reads of distinct contexts and
steps responses, in any order and with its other calls in between. Every registered read that does
not wait any more has been answered once, with the commit index of its registration, exactly if no
read had its quorum before one that was registered earlier and still waited. -/
theorem reads_answered_iff {p : Peer} (hl : p.node.role_ = .leader)
    (hpending : p.node.readOnly_.pending_ = .empty) (hqueue : p.node.readOnly_.recvQueue_ = [])
    {evs : List Event} (hsteady : p.Along Steady evs)
    (hnodup : (((start p).exec evs).registered.map Prod.fst).Nodup) :
    (∀ ctx i, (ctx, i) ∈ ((start p).exec evs).registered →
      ((start p).exec evs).peer.node.readOnly_.pending_.find? ctx = none →
      ((start p).exec evs).emitted.filter (fun rs => decide (rs.requestCtx = ctx)) =
        [⟨i, ctx⟩]) ↔
      p.Along InTurn evs := by
  rcases answered_or_lost (s := start p) hl (answered_start hpending hqueue) hsteady
    hnodup with ⟨hturns, ha⟩ | ⟨hturns, c, i, hlost⟩
  · refine iff_of_true ?_ hturns
    intro ctx i hreg hnone
    rcases ha.read hreg with ⟨hsome, -⟩ | ⟨-, hone⟩
    · exact absurd (hsome.symm.trans hnone) (Option.some_ne_none i)
    · exact hone
  · refine iff_of_false ?_ hturns
    intro h
    have hone := h c i hlost.registered hlost.dropped
    exact absurd (hone.symm.trans hlost.unanswered) (List.cons_ne_nil _ _)

/-- The leader of three nodes, in its loop. -/
def leaderOfThree : Peer := { config := { id := 1, peers := [1, 2, 3] }, node := electedOfThree }

/-- Node 2 acknowledges a read. -/
def ackOfTwo (ctx : Bytes) : Event :=
  .step { type := .msgHeartbeatResp, receiver := 1, sender := 2, term := 1, context := ctx } 1

/-- Two reads are acknowledged in their order. -/
theorem reads_answered_iff_two_in_order :
    leaderOfThree.Along InTurn [.readIndex [1], .readIndex [2], ackOfTwo [1], ackOfTwo [2]] ∧
      ∀ ctx i, (ctx, i) ∈ ((start leaderOfThree).exec
          [.readIndex [1], .readIndex [2], ackOfTwo [1], ackOfTwo [2]]).registered →
        ((start leaderOfThree).exec [.readIndex [1], .readIndex [2], ackOfTwo [1],
          ackOfTwo [2]]).peer.node.readOnly_.pending_.find? ctx = none →
        ((start leaderOfThree).exec [.readIndex [1], .readIndex [2], ackOfTwo [1],
          ackOfTwo [2]]).emitted.filter (fun rs => decide (rs.requestCtx = ctx)) = [⟨i, ctx⟩] := by
  have hsteady : leaderOfThree.Along Steady
      [.readIndex [1], .readIndex [2], ackOfTwo [1], ackOfTwo [2]] :=
    ⟨trivial, trivial, ⟨by decide, by decide⟩, ⟨by decide, by decide⟩, trivial⟩
  have hturns : leaderOfThree.Along InTurn
      [.readIndex [1], .readIndex [2], ackOfTwo [1], ackOfTwo [2]] :=
    ⟨trivial, trivial, fun _ _ _ => by decide, fun _ _ _ => by decide, trivial⟩
  exact ⟨hturns, (reads_answered_iff (by decide) (by decide) (by decide) hsteady
    (by decide)).mpr hturns⟩

/-- Of two reads the later one is acknowledged first. The earlier one is dropped with it and never
answered. -/
theorem earlier_read_dropped :
    let s := (start leaderOfThree).exec
      [.readIndex [1], .readIndex [2], ackOfTwo [2], ackOfTwo [1]]
    s.registered = [([1], 0), ([2], 0)] ∧ s.peer.node.role_ = .leader ∧
      s.peer.node.readOnly_.pending_.find? [1] = none ∧ s.emitted = [⟨0, [2]⟩] := by
  decide

end ReadSession

end NexusLOB.Raft
