import NexusLOB.Raft.Delivery

/-!
# Writing a `Ready` does not change the log

A node hands out its unstable entries, the application writes them over what the store holds from
their first index on, and clients propose before and after that write. `advance` then moves the
entries from the window to the store. The logical log is the same before and after it, and what is
still unstable are the entries that the log took of the proposals since the `poll`. A leader whose
log ends below its commit index accepts proposals that its log does not take.
-/

namespace NexusLOB.Raft

/-! ## Runs with restarts -/

/-- What can happen to a process and its successors: any event, with messages of correct peers. -/
def Event.Lawful : Event → Prop
  | .step m _ => m.Regular
  | _ => True

theorem InStep.plain {p : Peer} (h : InStep p) : p.storage.Plain :=
  ⟨h.sound.wf.dummy, h.sound.wf.snapIndex, h.sound.wf.stored⟩

theorem InStep.handle_lawful {p : Peer} (h : InStep p) {ev : Event} (hev : ev.Lawful) :
    InStep (p.handle ev).1 := by
  cases ev with
  | restart draw => exact inStep_start p.config h.plain draw
  | step m draw => exact h.handle hev
  | tick | propose | readIndex | poll | persistEntries | persistHardState | send | advance =>
    exact h.handle trivial

theorem InStep.run_lawful {p : Peer} (h : InStep p) {evs : List Event}
    (hevs : ∀ ev ∈ evs, ev.Lawful) : InStep (p.exec evs) := by
  have halong : p.Along (fun _ ev => ev.Lawful) evs :=
    Peer.along_of_forall fun ev hev _ => hevs ev hev
  exact halong.preserves (fun h hev => h.handle_lawful hev) h

/-! ## Proposals -/

namespace RawNode

def proposeAll (n : RawNode) (ds : List Bytes) : RawNode :=
  ds.foldl (fun n d => (n.propose d).2) n

/-- The entries of a list of proposals: the one that `propose` builds, for each it accepts. -/
def proposedEntries (n : RawNode) : List Bytes → List Entry
  | [] => []
  | d :: ds =>
    let e : Entry := { term := n.term_, index := n.log_.lastIndex + 1, type := .normal, data := d }
    (if (n.propose d).1 then [e] else []) ++ (n.propose d).2.proposedEntries ds

/-- Those of them that reach the log: a leader's, unless its log ends below its commit index. -/
def takenEntries (n : RawNode) (ds : List Bytes) : List Entry :=
  if n.role_ = .leader ∧ n.log_.committed_ ≤ n.log_.lastIndex then
    ds.mapIdx fun j d =>
      { term := n.term_, index := n.log_.lastIndex + 1 + j, type := .normal, data := d }
  else []

end RawNode

/-- `n'` is `n` with `new` behind its log. -/
structure Extends (n : RawNode) (new : List Entry) (n' : RawNode) : Prop where
  sound : n'.view.Sound
  logical : n'.log_.logical = n.log_.logical ++ new
  unstable : n'.log_.unstable_.entries_ = n.log_.unstable_.entries_ ++ new
  storage : n'.log_.storage_ = n.log_.storage_
  committed : n'.log_.committed_ = n.log_.committed_
  role : n'.role_ = n.role_
  term : n'.term_ = n.term_
  pending : ∀ {stage rd}, Pending n stage rd → Pending n' stage rd

section Proposals

variable {n n' n'' : RawNode} {new new' : List Entry}

theorem Extends.trans (h : Extends n new n') (h' : Extends n' new' n'') :
    Extends n (new ++ new') n'' where
  sound := h'.sound
  logical := by rw [h'.logical, h.logical, List.append_assoc]
  unstable := by rw [h'.unstable, h.unstable, List.append_assoc]
  storage := h'.storage.trans h.storage
  committed := h'.committed.trans h.committed
  role := h'.role.trans h.role
  term := h'.term.trans h.term
  pending := fun hp => h'.pending (h.pending hp)

theorem Extends.refl (h : n.view.Sound) : Extends n [] n :=
  ⟨h, (List.append_nil _).symm, (List.append_nil _).symm, rfl, rfl, rfl, rfl, fun hp => hp⟩

theorem Extends.lastIndex (h : Extends n new n') (hn : n.view.Sound) :
    n'.log_.lastIndex = n.log_.lastIndex + new.length := by
  have hwf : n'.log_.WF := h.sound.wf
  have hwf₀ : n.log_.WF := hn.wf
  rw [hwf.lastIndex_eq, hwf₀.lastIndex_eq, h.logical, List.length_append]

/-- One proposal. -/
theorem extends_propose (h : n.view.Sound) (d : Bytes) :
    Extends n (n.takenEntries [d]) (n.propose d).2 := by
  have hwf : n.log_.WF := h.wf
  have hterm : n.role_ = .leader → n.term_ ≠ 0 := fun hr =>
    h.term_pos (show n.role_ ≠ .follower by rw [hr]; decide)
  obtain ⟨hrole, ht⟩ := propose_office n d
  have hpend : ∀ {stage rd}, Pending n stage rd → Pending (n.propose d).2 stage rd :=
    fun hp => hp.propose hwf hterm d
  have hpos : (n.propose d).2.role_ ≠ .follower → (n.propose d).2.term_ ≠ 0 := by
    rw [hrole, ht]
    exact h.term_pos
  have hlog := propose_log n d
  -- the two ways in which the log stays as it is
  have hsame : (n.propose d).2.log_ = n.log_ → n.takenEntries [d] = [] →
      Extends n (n.takenEntries [d]) (n.propose d).2 := by
    intro heq hnil
    rw [hnil]
    refine ⟨⟨?_, hpos⟩, ?_, ?_, ?_, ?_, hrole, ht, hpend⟩
    · change RaftLog.WF (n.propose d).2.log_
      rw [heq]
      exact hwf
    · rw [heq, List.append_nil]
    · rw [heq, List.append_nil]
    · rw [heq]
    · rw [heq]
  by_cases hr : n.role_ = .leader
  · rw [if_pos hr] at hlog
    have hidx : (Entry.mk n.term_ (n.log_.lastIndex + 1) .normal d).index =
        n.log_.lastIndex + 1 := rfl
    rcases hwf.append_one hidx (hterm hr) with ⟨heq, hlt⟩ | ⟨hwf', hlog', hsto, hcom, -, hle⟩
    · rw [heq] at hlog
      exact hsame hlog (if_neg fun hacc => by omega)
    · have hnew : n.takenEntries [d] =
          [Entry.mk n.term_ (n.log_.lastIndex + 1) .normal d] := if_pos ⟨hr, hle⟩
      have hun : (n.log_.append [Entry.mk n.term_ (n.log_.lastIndex + 1) .normal d]).2.unstable_ =
          n.log_.unstable_.append [Entry.mk n.term_ (n.log_.lastIndex + 1) .normal d] := by
        rcases RaftLog.append_one_cases n.log_ (Entry.mk n.term_ (n.log_.lastIndex + 1) .normal d)
          with ⟨-, hlt⟩ | ⟨heq, -⟩
        · dsimp only at hlt
          omega
        · rw [heq]
      rw [hnew]
      refine ⟨⟨?_, hpos⟩, ?_, ?_, ?_, ?_, hrole, ht, hpend⟩
      · change RaftLog.WF (n.propose d).2.log_
        rw [hlog]
        exact hwf'
      · rw [hlog, hlog']
      · rw [hlog, hun, hwf.unstable_append_one hidx]
      · rw [hlog, hsto]
      · rw [hlog, hcom]
  · rw [if_neg hr] at hlog
    exact hsame hlog (if_neg fun hacc => hr hacc.1)

/-- The proposals after the first one. -/
theorem takenEntries_cons (h : n.view.Sound) (d : Bytes) (ds : List Bytes) :
    n.takenEntries (d :: ds) =
      n.takenEntries [d] ++ (n.propose d).2.takenEntries ds := by
  have hext := extends_propose h d
  have hlast := hext.lastIndex h
  by_cases hacc : n.role_ = .leader ∧ n.log_.committed_ ≤ n.log_.lastIndex
  · have hone : n.takenEntries [d] =
        [Entry.mk n.term_ (n.log_.lastIndex + 1) .normal d] := if_pos hacc
    rw [hone, List.length_singleton] at hlast
    have hrest : (n.propose d).2.takenEntries ds = ds.mapIdx fun j d' =>
        Entry.mk n.term_ (n.log_.lastIndex + 1 + 1 + j) .normal d' := by
      rw [RawNode.takenEntries, hext.role, hext.committed, hext.term, hlast,
        if_pos ⟨hacc.1, by omega⟩]
    rw [hone, hrest, RawNode.takenEntries, if_pos hacc, List.mapIdx_cons, List.singleton_append]
    congr 2
    funext j d'
    rw [Nat.add_assoc (n.log_.lastIndex + 1) 1 j, Nat.add_comm 1 j]
  · have hone : n.takenEntries [d] = [] := if_neg hacc
    rw [hone, List.length_nil, Nat.add_zero] at hlast
    rw [hone, RawNode.takenEntries, RawNode.takenEntries, hext.role, hext.committed, hlast,
      if_neg hacc, if_neg hacc, List.append_nil]

theorem extends_proposeAll (h : n.view.Sound) (ds : List Bytes) :
    Extends n (n.takenEntries ds) (n.proposeAll ds) := by
  induction ds generalizing n with
  | nil =>
    have hnil : n.takenEntries [] = [] := ite_self _
    rw [hnil]
    exact .refl h
  | cons d ds ih =>
    have hext := extends_propose h d
    rw [takenEntries_cons h]
    exact hext.trans (ih hext.sound)

theorem takenEntries_append (h : n.view.Sound) (ds ds' : List Bytes) :
    n.takenEntries (ds ++ ds') =
      n.takenEntries ds ++ (n.proposeAll ds).takenEntries ds' := by
  induction ds generalizing n with
  | nil =>
    have hnil : n.takenEntries [] = [] := ite_self _
    rw [hnil]
    rfl
  | cons d ds ih =>
    rw [List.cons_append, takenEntries_cons h, takenEntries_cons h d ds,
      ih (extends_propose h d).sound, List.append_assoc]
    rfl

/-- A node accepts what its log does not take if it leads and its log ends below its commit index,
and only then. -/
theorem proposedEntries_eq_iff (h : n.view.Sound) (ds : List Bytes) :
    n.proposedEntries ds = n.takenEntries ds ↔
      n.role_ ≠ .leader ∨ n.log_.committed_ ≤ n.log_.lastIndex ∨ ds = [] := by
  induction ds generalizing n with
  | nil =>
    have hnil : n.takenEntries [] = [] := ite_self _
    rw [hnil]
    exact iff_of_true rfl (Or.inr (Or.inr rfl))
  | cons d ds ih =>
    have hext := extends_propose h d
    have hlast := hext.lastIndex h
    have ih' := ih hext.sound
    rw [hext.role, hext.committed, hlast] at ih'
    rw [takenEntries_cons h, RawNode.proposedEntries]
    by_cases hr : n.role_ = .leader
    · rw [if_pos ((propose_accepts n d).mpr hr)]
      by_cases hle : n.log_.committed_ ≤ n.log_.lastIndex
      · have hone : n.takenEntries [d] =
            [Entry.mk n.term_ (n.log_.lastIndex + 1) .normal d] := if_pos ⟨hr, hle⟩
        rw [hone, List.append_cancel_left_eq, ih']
        exact iff_of_true (Or.inr (Or.inl (by omega))) (Or.inr (Or.inl hle))
      · have hnone : ∀ ds, n.takenEntries ds = [] := fun ds => if_neg fun hacc => hle hacc.2
        rw [← takenEntries_cons h, hnone]
        refine iff_of_false (List.cons_ne_nil _ _) ?_
        rintro (hno | hle' | hnil)
        · exact hno hr
        · exact hle hle'
        · cases hnil
    · have hone : n.takenEntries [d] = [] := if_neg fun hacc => hr hacc.1
      rw [if_neg (fun hacc => hr ((propose_accepts n d).mp hacc)), hone, List.append_cancel_left_eq,
        ih']
      exact iff_of_true (Or.inl hr) (Or.inl hr)

end Proposals

/-- Only the two writes of the loop change the store. -/
theorem handle_storage {p : Peer} (hp : InStep p) {ev : Event} (he : ev ≠ .persistEntries)
    (hs : ev ≠ .persistHardState) : (p.handle ev).1.storage = p.storage := by
  have hmove := p.handle_move ev
  generalize p.handle ev = q at hmove ⊢
  cases hmove with
  | tick draw =>
    exact (tick_effects p.node draw).storage
  | step m draw => exact (step_effects p.node m draw).storage
  | propose data =>
    exact (propose_effects p.node data).storage
  | readIndex ctx =>
    exact (readIndex_effects p.node ctx).storage
  | persistEntries => exact absurd rfl he
  | persistHardState => exact absurd rfl hs
  | advance rd hready =>
    obtain ⟨l', -, -, hsto, -, -, heq⟩ := (hp.pending hready).advance hp.sound.wf (by decide)
    change p.node.advance.log_.storage_ = p.node.log_.storage_
    rw [heq]
    exact hsto
  | restart draw =>
    change (RaftLog.new p.storage).storage_ = p.storage
    rw [RaftLog.new_eq hp.plain.snapIndex]
  | poll | send | stay => rfl

/-! ## The write -/

section Write

variable {n : RawNode}

/-- Write entries to the store of a node. -/
def RawNode.persist (n : RawNode) (ents : List Entry) : RawNode :=
  { n with log_ := { n.log_ with storage_ := n.log_.storage_.appendNoSync ents } }

/-- What a write of the entries under way keeps. -/
theorem Pending.persist {rd : Ready} (hp : Pending n .persistEntries rd) (h : n.view.Sound) :
    (n.persist rd.entries).view.Sound ∧ (n.persist rd.entries).log_.logical = n.log_.logical ∧
      Pending (n.persist rd.entries) .persistHardState rd := by
  rcases hp.persistEntries h.wf with ⟨hnil, hp'⟩ | ⟨l', rfl, hwf, hlog, -, hp'⟩
  · rw [hnil]
    exact ⟨h, rfl, hp'⟩
  · exact ⟨⟨hwf, h.term_pos⟩, hlog, hp'⟩

/-- `advance` drops exactly the entries of the `Ready` from the window. -/
theorem Pending.advance_window {stage : Stage} {rd : Ready} (hp : Pending n stage rd)
    (h : n.log_.WF) :
    n.advance.log_.unstable_ = if rd.entries = [] then n.log_.unstable_ else
      { n.log_.unstable_ with
        entries_ := n.log_.unstable_.entries_.drop rd.entries.length
        offset_ := n.log_.unstable_.offset_ + rd.entries.length } := by
  have happlied : ∀ (l : RaftLog) (i : Nat), (l.appliedTo i).unstable_ = l.unstable_ := by
    intro l i
    unfold RaftLog.appliedTo
    split_ifs <;> rfl
  have hadv : n.advance.log_.unstable_ =
      if n.lastReadyLastIndex_ > 0 then
        n.log_.unstable_.stableTo n.lastReadyLastIndex_ (n.log_.term n.lastReadyLastIndex_)
      else n.log_.unstable_ := by
    unfold RawNode.advance
    dsimp only
    split_ifs <;> first | rfl | exact happlied _ _
  have hlast := hp.last
  rw [hadv]
  by_cases hne : rd.entries = []
  · rw [if_pos hne] at hlast ⊢
    rw [if_neg (by omega)]
  · rw [if_neg hne] at hlast ⊢
    have hle := hp.entries.length_le
    have hpos := List.length_pos_iff.mpr hne
    have hw : n.log_.unstable_.entries_ ≠ [] := List.ne_nil_of_length_pos (by omega)
    have hoff := h.offset_pos hw
    have hdrop : n.lastReadyLastIndex_ + 1 - n.log_.unstable_.offset_ = rd.entries.length := by
      omega
    have hnext : n.lastReadyLastIndex_ + 1 = n.log_.unstable_.offset_ + rd.entries.length := by
      omega
    rw [if_pos (by omega), LogUnstable.stableTo, h.snapshot]
    dsimp only
    rw [if_neg (not_or.mpr ⟨hw, by omega⟩), hdrop, hnext, h.snapshot]

theorem Pending.advance_unstable {stage : Stage} {rd : Ready} (hp : Pending n stage rd)
    (h : n.log_.WF) :
    n.advance.log_.unstable_.entries_ = n.log_.unstable_.entries_.drop rd.entries.length := by
  rw [hp.advance_window h]
  split_ifs with hne
  · rw [hne, List.length_nil, List.drop_zero]
  · rfl

/-- The entries under way are written, with proposals before and after. -/
theorem Pending.proposals {rd : Ready} (hp : Pending n .persistEntries rd) (h : n.view.Sound)
    (before after : List Bytes) :
    let n' := ((n.proposeAll before).persist rd.entries).proposeAll after
    n'.log_.WF ∧ Pending n' .persistHardState rd ∧
      n'.log_.logical = n.log_.logical ++ n.takenEntries (before ++ after) ∧
      n'.log_.unstable_.entries_ =
        n.log_.unstable_.entries_ ++ n.takenEntries (before ++ after) := by
  intro n'
  have hext₁ := extends_proposeAll h before
  obtain ⟨hsound, hlog, hp'⟩ := (hext₁.pending hp).persist hext₁.sound
  have hext₂ := extends_proposeAll hsound after
  -- the write moves neither the end of the log nor the commit index
  have hafter : ((n.proposeAll before).persist rd.entries).takenEntries after =
      (n.proposeAll before).takenEntries after := by
    have hlast : ((n.proposeAll before).persist rd.entries).log_.lastIndex =
        (n.proposeAll before).log_.lastIndex :=
      RaftLog.WF.lastIndex_congr hext₁.sound.wf hsound.wf hlog
    rw [RawNode.takenEntries, RawNode.takenEntries, hlast]
    rfl
  have hun : ((n.proposeAll before).persist rd.entries).log_.unstable_.entries_ =
      n.log_.unstable_.entries_ ++ n.takenEntries before := hext₁.unstable
  rw [takenEntries_append h, ← hafter]
  refine ⟨hext₂.sound.wf, hext₂.pending hp', ?_, ?_⟩
  · rw [hext₂.logical, hlog, hext₁.logical, List.append_assoc]
  · rw [hext₂.unstable, hun, List.append_assoc]

/-- **When persisting is transparent.** A node in any state of a run, with no `Ready` under way: it
is polled, the entries are stored with proposals before and after, and `advance` confirms. `advance`
does not change the log and takes no entry from the window that was not in the `Ready`. The accepted
proposals are behind the log of the `poll`, and exactly their entries are still unstable, if and
only if the node does not lead, its log does not end below its commit index, or nothing is proposed.
-/
theorem persist_transparent_iff (c : Config) {w : WriteAheadLog} (hw : w.Plain) (draw : Nat)
    (evs : List Event) (hevs : ∀ ev ∈ evs, ev.Lawful)
    (hidle : ((Peer.start c w draw).exec evs).ready = none) (before after : List Bytes) :
    let n := ((Peer.start c w draw).exec evs).node
    let n' := (((n.poll.2.proposeAll before).persist n.poll.1.entries).proposeAll after)
    (n'.advance.log_.logical = n'.log_.logical ∧
      n'.advance.log_.lastIndex = n'.log_.lastIndex ∧
      n'.log_.unstable_.entries_ = n.poll.1.entries ++ n'.advance.log_.unstable_.entries_) ∧
    (n'.log_.logical = n.log_.logical ++ n.proposedEntries (before ++ after) ∧
        n'.advance.log_.unstable_.entries_ = n.proposedEntries (before ++ after) ↔
      n.role_ ≠ .leader ∨ n.log_.committed_ ≤ n.log_.lastIndex ∨ before ++ after = []) := by
  intro n n'
  have hin : InStep ((Peer.start c w draw).exec evs) := (inStep_start c hw draw).run_lawful hevs
  have hsound : n.poll.2.view.Sound := ⟨hin.sound.wf, hin.sound.term_pos⟩
  have hp₀ : Pending n.poll.2 .persistEntries n.poll.1 :=
    pending_poll hin.sound.wf (hin.idle hidle).1 (hin.idle hidle).2
  have hround : n'.log_.WF ∧ Pending n' .persistHardState n.poll.1 ∧
      n'.log_.logical = n.log_.logical ++ n.takenEntries (before ++ after) ∧
      n'.log_.unstable_.entries_ = n.poll.1.entries ++ n.takenEntries (before ++ after) :=
    hp₀.proposals hsound before after
  obtain ⟨hwf', hp', hlog', hwindow⟩ := hround
  obtain ⟨l', hwf, hlogical, -, -, -, hadv⟩ := hp'.advance hwf' (by decide)
  have hlog : n'.advance.log_.logical = n'.log_.logical := by
    rw [hadv]
    exact hlogical
  have hunstable : n'.advance.log_.unstable_.entries_ = n.takenEntries (before ++ after) := by
    rw [hp'.advance_unstable hwf', hwindow, List.drop_left]
  refine ⟨⟨hlog, ?_, by rw [hunstable, hwindow]⟩, ?_⟩
  · have hwf'' : n'.advance.log_.WF := by
      rw [hadv]
      exact hwf
    exact hwf'.lastIndex_congr hwf'' hlog
  · rw [hlog', hunstable, List.append_cancel_left_eq, and_self, eq_comm,
      proposedEntries_eq_iff ⟨hin.sound.wf, hin.sound.term_pos⟩]

end Write

/-- The only member of a group elects itself and takes a proposal. -/
def loneLeader : Peer :=
  (Peer.start { id := 1, electionTick := 1, peers := [1] } (.fresh {}) 1).exec
    [.tick 1, .propose [5]]

/-- A proposal before the write and one after it are what is unstable in the end. -/
theorem loneLeader_persists :
    (((loneLeader.node.poll.2.proposeAll [[6]]).persist loneLeader.node.poll.1.entries).proposeAll
        [[7]]).advance.log_.unstable_.entries_ = loneLeader.node.proposedEntries [[6], [7]] ∧
      (loneLeader.node.proposedEntries [[6], [7]]).map Entry.data = [[6], [7]] := by
  have hlawful : ∀ ev ∈ [Event.tick 1, .propose [5]], ev.Lawful := by
    intro ev hev
    rcases List.mem_cons.mp hev with rfl | hev
    · trivial
    · obtain rfl := List.mem_singleton.mp hev
      trivial
  refine ⟨?_, by decide +kernel⟩
  refine ((persist_transparent_iff _ (plain_fresh {}) 1 _ hlawful (by decide +kernel) [[6]]
    [[7]]).2.mpr (Or.inr (Or.inl ?_))).2
  decide +kernel

/-- An append of the first entry comes late, when both entries are known to be committed; then the
node is elected in term 2. -/
def electedShort : List Event :=
  [.step { firstEntries 2 with commit := 2 } 1, .step (firstEntries 1) 1, .tick 1,
    .step { type := .msgVoteResp, receiver := 2, sender := 3, term := 2 } 1]

theorem electedShort_lawful : ∀ ev ∈ electedShort, ev.Lawful := by
  intro ev hev
  simp only [electedShort, List.mem_cons, List.not_mem_nil, or_false] at hev
  rcases hev with rfl | rfl | rfl | rfl
  · exact ⟨by decide, fun _ => continues_of_slice indexed_twoEntries List.prefix_rfl,
      fun _ => Or.inl rfl⟩
  · exact ⟨by decide, fun _ => continues_of_slice indexed_twoEntries (List.take_prefix 1 _),
      fun _ => Or.inl rfl⟩
  · trivial
  · exact ⟨by decide, (fun h => by cases h), (fun h => by cases h)⟩

/-- The late append leaves the node with a log that ends below its commit index. As a leader it
accepts two proposals, and its log takes neither. -/
theorem electedShort_drops_proposals :
    let n := (newcomer.exec electedShort).node
    let n' := ((n.poll.2.proposeAll [[8]]).persist n.poll.1.entries).proposeAll [[9]]
    (∀ ev ∈ electedShort, ev.Lawful) ∧ (newcomer.exec electedShort).ready = none ∧
      n.role_ = .leader ∧ n.log_.committed_ = 2 ∧ n.log_.lastIndex = 1 ∧
      (n.proposedEntries [[8], [9]]).map Entry.data = [[8], [9]] ∧
      n'.log_.logical = n.log_.logical ∧ n'.advance.log_.unstable_.entries_ = [] := by
  refine ⟨electedShort_lawful, ?_⟩
  decide +kernel

end NexusLOB.Raft
