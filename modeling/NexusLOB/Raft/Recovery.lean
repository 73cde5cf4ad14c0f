import NexusLOB.Raft.Persisting

/-!
# What a restart recovers

A record of what a process wrote is kept next to it: the hard state of the last `Ready` that was
saved, and the logical log at the `poll` of the last `Ready` whose entries were stored. In every
run, restarts included, the store holds exactly that. A node constructed on the store takes term,
vote and log from it, and starts with commit index 0 whatever the saved hard state says.
-/

namespace NexusLOB.Raft

/-- A peer and the record of its writes. -/
structure Ledger where
  peer : Peer
  /-- The logical log at the last `poll`. -/
  polled : List Entry := []
  /-- The logical log of the last `Ready` whose entries were stored. -/
  log : List Entry
  /-- The last hard state that was saved. -/
  hardState : HardState

namespace Ledger

def start (c : Config) (w : WriteAheadLog) (draw : Nat) : Ledger :=
  { peer := Peer.start c w draw, log := w.stored, hardState := w.hardState_ }

def handle (s : Ledger) (ev : Event) : Ledger :=
  match ev, s.peer.ready with
  | .poll, none =>
    { s with peer := (s.peer.handle ev).1, polled := s.peer.node.log_.logical }
  | .persistEntries, some (.persistEntries, _) =>
    { s with peer := (s.peer.handle ev).1, log := s.polled }
  | .persistHardState, some (.persistHardState, rd) =>
    { s with
      peer := (s.peer.handle ev).1
      -- a hard state that says nothing is not saved
      hardState := if rd.hardState.term ≠ 0 ∨ rd.hardState.commit ≠ 0 then rd.hardState
        else s.hardState }
  | _, _ => { s with peer := (s.peer.handle ev).1 }

def exec (s : Ledger) (evs : List Event) : Ledger := evs.foldl handle s

/-- The store holds what the record says, and the entries under way complete the polled log. -/
structure Kept (s : Ledger) : Prop where
  inStep : InStep s.peer
  hardState : s.peer.storage.hardState_ = s.hardState
  log : s.peer.storage.stored = s.log
  polled : ∀ rd, s.peer.ready = some (.persistEntries, rd) →
    if rd.entries = [] then s.peer.storage.stored = s.polled
    else s.peer.node.log_.logical.take s.peer.node.lastReadyLastIndex_ = s.polled

variable {s : Ledger}

/-- A call of the node that leaves the store alone, outside the processing of a `Ready`. -/
theorem Kept.call (h : s.Kept) {p : Peer} (hin : InStep p) (hp : p.ready = none)
    (hsto : p.storage = s.peer.storage) : Kept { s with peer := p } where
  inStep := hin
  hardState := by
    rw [hsto]
    exact h.hardState
  log := by
    rw [hsto]
    exact h.log
  polled := fun rd hrd => absurd (hp.symm.trans hrd) (by simp)

/-- A client's call at any time. -/
theorem Kept.client (h : s.Kept) {n : RawNode} {new : List Entry}
    (hin : InStep { s.peer with node := n }) (hsto : n.log_.storage_ = s.peer.storage)
    (hlast : n.lastReadyLastIndex_ = s.peer.node.lastReadyLastIndex_)
    (hlog : n.log_.logical = s.peer.node.log_.logical ++ new) :
    Kept { s with peer := { s.peer with node := n } } where
  inStep := hin
  hardState := by
    change n.log_.storage_.hardState_ = s.hardState
    rw [hsto]
    exact h.hardState
  log := by
    change n.log_.storage_.stored = s.log
    rw [hsto]
    exact h.log
  polled := by
    intro rd hrd
    have hpol := h.polled rd hrd
    change if rd.entries = [] then n.log_.storage_.stored = s.polled
      else n.log_.logical.take n.lastReadyLastIndex_ = s.polled
    rw [hsto, hlast, hlog]
    split_ifs at hpol ⊢ with hnil
    · exact hpol
    · -- the marks of the `Ready` lie inside the old log
      have hp := h.inStep.pending hrd
      have hwf : s.peer.node.log_.WF := h.inStep.sound.wf
      have hmark := hp.last
      rw [if_neg hnil] at hmark
      have hle := hp.entries.length_le
      have hpos := List.length_pos_iff.mpr hnil
      have hw : s.peer.node.log_.unstable_.entries_ ≠ [] := List.ne_nil_of_length_pos (by omega)
      have hlen := hwf.length_logical hw
      rw [List.take_append_of_le_length (by omega)]
      exact hpol

theorem Kept.poll (h : s.Kept) (hready : s.peer.ready = none) : Kept (s.handle .poll) := by
  have hpeer : s.peer.handle .poll = ({ s.peer with
      node := s.peer.node.poll.2
      ready := some (.persistEntries, s.peer.node.poll.1)
      delivered := s.peer.delivered ++ s.peer.node.poll.1.committedEntries }, []) := by
    simp only [Peer.handle, hready]
  have hself : s.handle .poll = { s with
      peer := (s.peer.handle .poll).1, polled := s.peer.node.log_.logical } := by
    simp only [handle, hready]
  have hwf : s.peer.node.log_.WF := h.inStep.sound.wf
  rw [hself, hpeer]
  refine ⟨h.inStep.poll hready, h.hardState, h.log, ?_⟩
  rintro rd ⟨⟩
  have hp := pending_poll hwf (h.inStep.idle hready).1 (h.inStep.idle hready).2
  have hents : s.peer.node.poll.1.entries = s.peer.node.log_.unstable_.entries_ := rfl
  split_ifs with hnil
  · exact (RaftLog.logical_of_nil (hents ▸ hnil)).symm
  · have hlast := hp.last
    rw [if_neg hnil, hents] at hlast
    have hlen := hwf.length_logical (hents ▸ hnil)
    apply List.take_of_length_le
    change s.peer.node.log_.logical.length ≤ s.peer.node.poll.2.lastReadyLastIndex_
    rw [hlast, hlen]
    change _ ≤ s.peer.node.log_.unstable_.offset_ + s.peer.node.log_.unstable_.entries_.length - 1
    have hpos := hwf.offset_pos (hents ▸ hnil)
    omega

theorem Kept.persistEntries (h : s.Kept) {rd : Ready}
    (hready : s.peer.ready = some (.persistEntries, rd)) : Kept (s.handle .persistEntries) := by
  have hpeer : s.peer.handle .persistEntries =
      ({ s.peer.store (fun w => w.appendNoSync rd.entries) with
         ready := some (.persistHardState, rd) }, []) := by
    simp only [Peer.handle, hready]
  have hself : s.handle .persistEntries = { s with
      peer := (s.peer.handle .persistEntries).1, log := s.polled } := by
    simp only [handle, hready]
  have hp := h.inStep.pending hready
  have hpol := h.polled rd hready
  have hhard : ∀ (w : WriteAheadLog) (ents : List Entry),
      (w.appendNoSync ents).hardState_ = w.hardState_ := by
    intro w ents
    cases ents <;> rfl
  rw [hself, hpeer]
  refine ⟨h.inStep.persistEntries hready, ?_, ?_, fun rd' hrd' => by cases hrd'⟩
  · change (s.peer.storage.appendNoSync rd.entries).hardState_ = s.hardState
    rw [hhard, h.hardState]
  · change (s.peer.storage.appendNoSync rd.entries).stored = s.polled
    by_cases hnil : rd.entries = []
    · rw [if_pos hnil] at hpol
      rw [hnil]
      exact hpol
    · rw [if_neg hnil] at hpol
      have hwf : s.peer.node.log_.WF := h.inStep.sound.wf
      have hmark := hp.last
      rw [if_neg hnil] at hmark
      have hle := hp.entries.length_le
      have hpos := List.length_pos_iff.mpr hnil
      have hoff := hwf.offset_pos (List.ne_nil_of_length_pos (by omega))
      rw [← hpol, hmark]
      refine (hwf.persist hp.entries hnil).2.2.trans ?_
      congr 1
      omega

theorem Kept.persistHardState (h : s.Kept) {rd : Ready}
    (hready : s.peer.ready = some (.persistHardState, rd)) :
    Kept (s.handle .persistHardState) := by
  have hpeer : s.peer.handle .persistHardState =
      ({ s.peer.saveHardState rd.hardState with ready := some (.send, rd) }, []) := by
    simp only [Peer.handle, hready]
  have hself : s.handle .persistHardState = { s with
      peer := (s.peer.handle .persistHardState).1
      hardState := if rd.hardState.term ≠ 0 ∨ rd.hardState.commit ≠ 0 then rd.hardState
        else s.hardState } := by
    simp only [handle, hready]
  have hin := h.inStep.persistHardState hready
  rw [hself, hpeer]
  unfold Peer.saveHardState at hin ⊢
  split_ifs at hin ⊢
  · exact ⟨hin, rfl, h.log, fun rd' hrd' => by cases hrd'⟩
  · exact ⟨hin, h.hardState, h.log, fun rd' hrd' => by cases hrd'⟩

/-- One event. -/
theorem Kept.handle (h : s.Kept) {ev : Event} (hev : ev.Lawful) : Kept (s.handle ev) := by
  have hin := h.inStep.handle_lawful hev
  have hmove := s.peer.handle_move ev
  cases ev with
  | tick draw =>
    have hself : s.handle (.tick draw) = { s with peer := (s.peer.handle (.tick draw)).1 } := rfl
    rw [hself]
    generalize s.peer.handle (.tick draw) = q at hmove hin ⊢
    cases hmove with
    | tick _ hready =>
      exact h.call hin hready (tick_effects s.peer.node draw).storage
    | stay => exact h
  | step m draw =>
    have hself : s.handle (.step m draw) = { s with peer := (s.peer.handle (.step m draw)).1 } :=
      rfl
    rw [hself]
    generalize s.peer.handle (.step m draw) = q at hmove hin ⊢
    cases hmove with
    | step _ _ hready => exact h.call hin hready (step_effects _ m draw).storage
    | stay => exact h
  | propose data =>
    have hext := extends_propose h.inStep.sound data
    have he := propose_effects s.peer.node data
    exact h.client hin he.storage he.lastReadyLastIndex hext.logical
  | readIndex ctx =>
    have he := readIndex_effects s.peer.node ctx
    have hlog : (s.peer.node.readIndex ctx).2.log_.logical =
        s.peer.node.log_.logical ++ [] := by
      rw [readIndex_log, List.append_nil]
    exact h.client hin he.storage he.lastReadyLastIndex hlog
  | poll =>
    cases hready : s.peer.ready with
    | none => exact h.poll hready
    | some r =>
      have hself : s.handle .poll = s := by
        simp only [Ledger.handle, Peer.handle, hready]
      rw [hself]
      exact h
  | persistEntries =>
    rcases hready : s.peer.ready with _ | ⟨_ | _ | _ | _, rd⟩
    case some.persistEntries => exact h.persistEntries hready
    all_goals
      have hself : s.handle .persistEntries = s := by
        simp only [Ledger.handle, Peer.handle, hready]
      rw [hself]
      exact h
  | persistHardState =>
    rcases hready : s.peer.ready with _ | ⟨_ | _ | _ | _, rd⟩
    case some.persistHardState => exact h.persistHardState hready
    all_goals
      have hself : s.handle .persistHardState = s := by
        simp only [Ledger.handle, Peer.handle, hready]
      rw [hself]
      exact h
  | send =>
    have hself : s.handle .send = { s with peer := (s.peer.handle .send).1 } := rfl
    rw [hself]
    generalize s.peer.handle .send = q at hmove hin ⊢
    cases hmove with
    | send rd hready => exact ⟨hin, h.hardState, h.log, fun rd' hrd' => by cases hrd'⟩
    | stay => exact h
  | advance =>
    have hself : s.handle .advance = { s with peer := (s.peer.handle .advance).1 } := rfl
    rw [hself]
    have hsto := handle_storage h.inStep (show Event.advance ≠ .persistEntries from nofun) nofun
    generalize s.peer.handle .advance = q at hmove hin hsto ⊢
    cases hmove with
    | advance rd hready => exact h.call hin rfl hsto
    | stay => exact h
  | restart draw =>
    exact h.call hin rfl
      (handle_storage h.inStep (show Event.restart draw ≠ .persistEntries from nofun) nofun)

theorem kept_start (c : Config) {w : WriteAheadLog} (hw : w.Plain) (draw : Nat) :
    Kept (start c w draw) := by
  have hsto : (Peer.start c w draw).storage = w := by
    change (RaftLog.new w).storage_ = w
    rw [RaftLog.new_eq hw.snapIndex]
  refine ⟨inStep_start c hw draw, ?_, ?_, fun rd hrd => by cases hrd⟩
  · exact congrArg WriteAheadLog.hardState_ hsto
  · exact congrArg WriteAheadLog.stored hsto

theorem Kept.run (h : s.Kept) {evs : List Event} (hevs : ∀ ev ∈ evs, ev.Lawful) :
    Kept (s.exec evs) := by
  induction evs generalizing s with
  | nil => exact h
  | cons ev evs ih =>
    exact ih (h.handle (hevs ev List.mem_cons_self)) fun ev' hev' =>
      hevs ev' (List.mem_cons_of_mem _ hev')

end Ledger

/-- What a restart is to find again: term and vote as saved, the stored log, and a commit index, in
the node and in its next `Ready`, not below the saved one. -/
structure RawNode.Recovers (n : RawNode) (hs : HardState) (log : List Entry) : Prop where
  term : n.term_ = hs.term
  vote : n.vote_ = hs.vote
  logical : n.log_.logical = log
  commit : hs.commit ≤ n.log_.commitIndex
  written : hs.commit ≤ n.poll.1.hardState.commit

/-- A crash at any point of any run of a process and its successors: the node constructed on the
store recovers what was saved exactly when the saved commit index is 0. -/
theorem recovers_iff (c : Config) {w : WriteAheadLog} (hw : w.Plain) (draw : Nat)
    (evs : List Event) (hevs : ∀ ev ∈ evs, ev.Lawful) (c' : Config) (draw' : Nat) :
    (RawNode.new c' ((Ledger.start c w draw).exec evs).peer.storage draw').Recovers
        ((Ledger.start c w draw).exec evs).hardState ((Ledger.start c w draw).exec evs).log ↔
      ((Ledger.start c w draw).exec evs).hardState.commit = 0 := by
  have h := (Ledger.kept_start c hw draw).run hevs
  generalize (Ledger.start c w draw).exec evs = s at h ⊢
  have hplain := h.inStep.plain
  have hnew : (RaftLog.new s.peer.storage).commitIndex = 0 := by
    rw [RaftLog.new_eq hplain.snapIndex]
    rfl
  constructor
  · intro hrec
    have hle : s.hardState.commit ≤ (RaftLog.new s.peer.storage).commitIndex := hrec.commit
    omega
  · intro hzero
    refine ⟨congrArg HardState.term h.hardState, congrArg HardState.vote h.hardState, ?_,
      by omega, by omega⟩
    change (RaftLog.new s.peer.storage).logical = s.log
    rw [(RaftLog.wf_new hplain.dummy hplain.snapIndex hplain.stored).2, h.log]

/-- Node 2 stores two entries before either is committed. -/
def twoStored : List Event := [.step (firstEntries 2) 1, .poll, .persistEntries, .persistHardState]

theorem twoStored_lawful : ∀ ev ∈ twoStored, ev.Lawful := by
  intro ev hev
  have hm : (firstEntries 2).Regular :=
    ⟨by decide, fun _ => continues_of_slice indexed_twoEntries List.prefix_rfl,
      fun _ => Or.inl rfl⟩
  simp only [twoStored, List.mem_cons, List.not_mem_nil, or_false] at hev
  rcases hev with rfl | rfl | rfl | rfl
  · exact hm
  all_goals trivial

/-- The record of a new node 2. -/
def newcomerLedger : Ledger :=
  .start { id := 2, electionTick := 1, peers := [1, 2, 3] } (.fresh {}) 1

theorem twoStored_recovers :
    (newcomerLedger.exec twoStored).log = twoEntries ∧
      (RawNode.new {} (newcomerLedger.exec twoStored).peer.storage 1).Recovers
        (newcomerLedger.exec twoStored).hardState (newcomerLedger.exec twoStored).log :=
  ⟨by decide +kernel,
    (recovers_iff _ (plain_fresh {}) 1 twoStored twoStored_lawful {} 1).mpr (by decide +kernel)⟩

/-- After two entries were committed and all of it was saved, a restarted node starts at commit
index 0, and its next `Ready` writes 0 over the saved 2. -/
theorem twoCommitted_forgotten :
    (newcomerLedger.exec twoCommitted).hardState.commit = 2 ∧
      (RawNode.new {} (newcomerLedger.exec twoCommitted).peer.storage 1).log_.commitIndex = 0 ∧
      (newcomerLedger.exec
        (twoCommitted ++ [.restart 1, .poll, .persistEntries, .persistHardState])).hardState.commit =
          0 := by
  decide +kernel

end NexusLOB.Raft
