import NexusLOB.Raft.Acknowledged

/-!
# Committed entries are handed out in order

A node that takes no snapshots, in the Ready loop. Whatever messages arrive, whatever is proposed
between `poll` and `advance`, and wherever the commit index moves, the entries handed out since
the process started are those at 1, 2, 3 and so on: what was handed out and not yet confirmed
lies right above the applied index.
-/

namespace NexusLOB.Raft

/-- A message of a correct peer in a cluster without snapshots: the entries of an append follow
the entry before them. -/
structure Message.Regular (m : Message) : Prop where
  not_snap : m.type ≠ .msgSnap
  continues : m.type = .msgApp → Continues m.index m.entries
  prev : m.type = .msgApp → m.index = 0 ∨ m.logTerm ≠ 0

/-- What happens during one lifetime of the process. -/
def Event.Regular : Event → Prop
  | .step m _ => m.Regular
  | .restart _ => False
  | _ => True

/-! ## The log stays well formed -/

section Effect

variable {l₀ : RaftLog} {msg : Option Message} {v v' : View}

/-- The part of the loop's invariant that every call keeps. -/
structure View.Sound (v : View) : Prop where
  wf : v.log.WF
  term_pos : v.role ≠ .follower → v.term ≠ 0

theorem maybeAppend_applied (l : RaftLog) (prev pt lc : Nat) (ents : List Entry) :
    (l.maybeAppend prev pt lc ents).2.applied_ = l.applied_ := by
  unfold RaftLog.maybeAppend
  dsimp only
  split_ifs <;> rfl

theorem RaftLog.WF.maybeAppend {l : RaftLog} (h : l.WF) {prev pt : Nat} {ents : List Entry}
    (hc : Continues prev ents) (hp : prev = 0 ∨ pt ≠ 0) (lc : Nat) :
    (l.maybeAppend prev pt lc ents).2.WF := by
  by_cases ht : l.term prev = pt
  · rw [RaftLog.maybeAppend_of_eq ht]
    have hprev : l.term prev ≠ 0 ∨ prev = 0 := by
      rw [ht]
      exact hp.symm
    exact (h.reconcile hc hprev).1.set_committed _
  · rw [RaftLog.maybeAppend_of_ne ht]
    exact h

/-- Without snapshots, no call breaks the log or moves the applied index. -/
theorem View.Sound.effect (h : v.Sound) (he : Effect l₀ msg v v')
    (hm : ∀ {m}, msg = some m → m.Regular) :
    v'.Sound ∧ v'.log.applied_ = v.log.applied_ := by
  cases he with
  | @turn role t ht hr =>
    refine ⟨⟨h.wf, fun hne => ?_⟩, rfl⟩
    rcases hr with hr | ⟨-, hlt⟩
    · exact absurd hr hne
    · exact Nat.ne_of_gt (Nat.zero_lt_of_lt hlt)
  | lead hr => exact ⟨⟨h.wf, fun _ => h.term_pos hr⟩, rfl⟩
  | track => exact ⟨⟨h.wf, h.term_pos⟩, rfl⟩
  | @append e hr ht hi =>
    have hpos := h.term_pos (by rw [hr]; decide)
    rcases h.wf.append_one hi (ht ▸ hpos) with ⟨heq, -⟩ | ⟨hwf, -, -, -, happ, -⟩
    · rw [heq]
      exact ⟨⟨h.wf, h.term_pos⟩, rfl⟩
    · exact ⟨⟨hwf, h.term_pos⟩, happ⟩
  | commit => exact ⟨⟨h.wf.set_committed _, h.term_pos⟩, rfl⟩
  | accept hmsg hty =>
    have hreg := hm hmsg
    exact ⟨⟨h.wf.maybeAppend (hreg.continues hty) (hreg.prev hty) _, h.term_pos⟩,
      maybeAppend_applied _ _ _ _ _⟩
  | heartbeat =>
    dsimp only
    unfold RaftLog.commitTo
    split_ifs
    · exact ⟨⟨h.wf.set_committed _, h.term_pos⟩, rfl⟩
    · exact ⟨⟨h.wf, h.term_pos⟩, rfl⟩
  | restore hmsg hty => exact absurd hty (hm hmsg).not_snap

end Effect

/-! ## The loop -/

/-- How many entries the `Ready` under way hands out. -/
def Peer.underWay (p : Peer) : Nat :=
  match p.ready with
  | some (_, rd) => rd.committedEntries.length
  | none => 0

/-- The loop between two events. -/
structure InStep (p : Peer) : Prop where
  sound : p.node.view.Sound
  idle : p.ready = none → p.node.lastReadyLastIndex_ = 0 ∧ p.node.lastReadyApplied_ = 0
  pending : ∀ {stage rd}, p.ready = some (stage, rd) → Pending p.node stage rd
  delivered : p.delivered.map Entry.index = List.range' 1 (p.node.log_.applied_ + p.underWay)

theorem map_index_eq_range' {l : List Entry} {a : Nat}
    (h : ∀ j e, l[j]? = some e → e.index = a + j + 1) :
    l.map Entry.index = List.range' (a + 1) l.length := by
  refine List.ext_getElem (by simp) fun j hj _ => ?_
  have hj' : j < l.length := by simpa using hj
  rw [List.getElem_map, List.getElem_range', h j _ (List.getElem?_eq_getElem hj')]
  omega

section InStep

variable {p : Peer}

/-- A call of the node. -/
theorem InStep.call (h : InStep p) {l₀ : RaftLog} {msg : Option Message} {n' : RawNode}
    (he : Effects l₀ msg p.node n') (hm : ∀ {m}, msg = some m → m.Regular)
    (hpend : ∀ {stage rd}, p.ready = some (stage, rd) → Pending n' stage rd) :
    InStep { p with node := n' } := by
  have hpres : n'.view.Sound ∧ n'.view.log.applied_ = p.node.log_.applied_ := by
    refine he.preserves (P := fun v => v.Sound ∧ v.log.applied_ = p.node.log_.applied_) ?_
      ⟨h.sound, rfl⟩
    intro v v' heff hv
    obtain ⟨hs, happ⟩ := hv.1.effect heff hm
    exact ⟨hs, happ.trans hv.2⟩
  refine ⟨hpres.1, ?_, hpend, ?_⟩
  · intro hready
    exact ⟨he.lastReadyLastIndex.trans (h.idle hready).1, he.lastReadyApplied.trans (h.idle hready).2⟩
  · rw [show ({ p with node := n' } : Peer).node.log_.applied_ = p.node.log_.applied_ from hpres.2]
    exact h.delivered

theorem InStep.poll (h : InStep p) (hready : p.ready = none) :
    InStep { p with
      node := p.node.poll.2
      ready := some (.persistEntries, p.node.poll.1)
      delivered := p.delivered ++ p.node.poll.1.committedEntries } where
  sound := ⟨h.sound.wf, h.sound.term_pos⟩
  idle := nofun
  pending := by
    rintro stage rd ⟨⟩
    exact pending_poll h.sound.wf (h.idle hready).1 (h.idle hready).2
  delivered := by
    have hd := h.delivered
    rw [Peer.underWay, hready] at hd
    have hnew : p.node.poll.1.committedEntries.map Entry.index =
        List.range' (p.node.log_.applied_ + 1) p.node.poll.1.committedEntries.length :=
      map_index_eq_range' fun j e he => (committedEntries_index h.sound.wf he).1
    rw [List.map_append, hd, hnew, Nat.add_comm p.node.log_.applied_ 1]
    exact List.range'_append_1

theorem InStep.persistEntries (h : InStep p) {rd : Ready}
    (hready : p.ready = some (.persistEntries, rd)) :
    InStep { p.store (fun w => w.appendNoSync rd.entries) with
      ready := some (.persistHardState, rd) } := by
  have hd := h.delivered
  rw [Peer.underWay, hready] at hd
  rcases (h.pending hready).persistEntries h.sound.wf with ⟨hnil, hp⟩ | ⟨l', rfl, hwf, -, -, hp⟩
  · rw [hnil]
    refine ⟨⟨h.sound.wf, h.sound.term_pos⟩, nofun, ?_, hd⟩
    rintro stage rd' ⟨⟩
    exact hp
  · refine ⟨⟨hwf, h.sound.term_pos⟩, nofun, ?_, hd⟩
    rintro stage rd' ⟨⟩
    exact hp

theorem InStep.persistHardState (h : InStep p) {rd : Ready}
    (hready : p.ready = some (.persistHardState, rd)) :
    InStep { p.saveHardState rd.hardState with ready := some (.send, rd) } := by
  have hp := h.pending hready
  have hd := h.delivered
  rw [Peer.underWay, hready] at hd
  unfold Peer.saveHardState
  split_ifs
  · refine ⟨⟨h.sound.wf.saveHardState _, h.sound.term_pos⟩, nofun, ?_, hd⟩
    rintro stage rd' ⟨⟩
    exact { hp with stored := fun _ => hp.stored nofun }
  · refine ⟨⟨h.sound.wf, h.sound.term_pos⟩, nofun, ?_, hd⟩
    rintro stage rd' ⟨⟩
    exact { hp with stored := fun _ => hp.stored nofun }

theorem InStep.send (h : InStep p) {rd : Ready} (hready : p.ready = some (.send, rd)) :
    InStep { p with ready := some (.advance, rd) } := by
  have hp := h.pending hready
  have hd := h.delivered
  rw [Peer.underWay, hready] at hd
  refine ⟨h.sound, nofun, ?_, hd⟩
  rintro stage rd' ⟨⟩
  exact { hp with stored := fun _ => hp.stored nofun }

theorem InStep.advance (h : InStep p) {rd : Ready} (hready : p.ready = some (.advance, rd)) :
    InStep { p with node := p.node.advance, ready := none } := by
  have hd := h.delivered
  rw [Peer.underWay, hready] at hd
  obtain ⟨l', hwf, -, -, -, happ, heq⟩ := (h.pending hready).advance h.sound.wf nofun
  rw [heq]
  refine ⟨⟨hwf, h.sound.term_pos⟩, fun _ => ⟨rfl, rfl⟩, nofun, ?_⟩
  change p.delivered.map Entry.index = List.range' 1 l'.applied_
  rw [happ]
  exact hd

/-- One event. -/
theorem InStep.handle (h : InStep p) {ev : Event} (hev : ev.Regular) : InStep (p.handle ev).1 := by
  have hnone : ∀ {n' : RawNode}, p.ready = none →
      ∀ {stage rd}, p.ready = some (stage, rd) → Pending n' stage rd :=
    fun hready _ _ hrd => absurd (hready.symm.trans hrd) nofun
  have hmove := p.handle_move ev
  generalize p.handle ev = q at hmove ⊢
  cases hmove with
  | tick draw hready =>
    exact h.call (tick_effects p.node draw) nofun (hnone hready)
  | step m draw hready =>
    refine h.call (step_effects p.node m draw) ?_ (hnone hready)
    rintro m' ⟨⟩
    exact hev
  | propose data =>
    refine h.call (propose_effects p.node data) nofun fun hrd =>
      (h.pending hrd).propose h.sound.wf (fun hr => ?_) data
    exact h.sound.term_pos (show p.node.role_ ≠ .follower by rw [hr]; decide)
  | readIndex ctx =>
    exact h.call (readIndex_effects p.node ctx) nofun fun hrd => (h.pending hrd).readIndex ctx
  | poll hready => exact h.poll hready
  | persistEntries rd hready => exact h.persistEntries hready
  | persistHardState rd hready => exact h.persistHardState hready
  | send rd hready => exact h.send hready
  | advance rd hready => exact h.advance hready
  | restart => exact hev.elim
  | stay => exact h

theorem InStep.run (h : InStep p) {evs : List Event} (hevs : ∀ ev ∈ evs, ev.Regular) :
    InStep (p.exec evs) := by
  have halong : p.Along (fun _ ev => ev.Regular) evs := Peer.along_of_forall fun ev hev _ => hevs ev hev
  exact halong.preserves (fun h hev => h.handle hev) h

end InStep

/-- A store without a snapshot, as `replay` leaves it. -/
structure WriteAheadLog.Plain (w : WriteAheadLog) : Prop where
  dummy : w.entries_ ≠ []
  snapIndex : w.snapIndex_ = 0
  stored : Indexed w.stored

theorem plain_fresh (cs : ConfState) : (WriteAheadLog.fresh cs).Plain := ⟨nofun, rfl, indexed_nil⟩

theorem inStep_start (c : Config) {w : WriteAheadLog} (hw : w.Plain) (draw : Nat) :
    InStep (Peer.start c w draw) where
  sound := ⟨(RaftLog.wf_new hw.dummy hw.snapIndex hw.stored).1, fun hr => absurd rfl hr⟩
  idle := fun _ => ⟨rfl, rfl⟩
  pending := nofun
  delivered := by
    change [] = List.range' 1 ((RaftLog.new w).applied_ + 0)
    rw [RaftLog.new_eq hw.snapIndex]
    rfl

/-- **In-order exactly-once delivery.** The entries handed out since the process started have the
indices 1, 2, 3 and so on. -/
theorem delivered_in_order (c : Config) {w : WriteAheadLog} (hw : w.Plain) (draw : Nat)
    (evs : List Event) (hevs : ∀ ev ∈ evs, ev.Regular) :
    (((Peer.start c w draw).exec evs).delivered).map Entry.index =
      List.range' 1 ((Peer.start c w draw).exec evs).delivered.length := by
  have hd := ((inStep_start c hw draw).run hevs).delivered
  have hlen := congrArg List.length hd
  rw [List.length_map, List.length_range'] at hlen
  rw [hd, hlen]

/-- Node 2 takes two committed entries and handles them in one `Ready`. -/
def twoCommitted : List Event :=
  [.step { firstEntries 2 with commit := 2 } 1, .poll, .persistEntries, .persistHardState, .send,
    .advance]

theorem twoCommitted_regular : ∀ ev ∈ twoCommitted, ev.Regular := by
  intro ev hev
  have hm : ({ firstEntries 2 with commit := 2 } : Message).Regular :=
    ⟨by decide, fun _ => continues_of_slice indexed_twoEntries List.prefix_rfl,
      fun _ => Or.inl rfl⟩
  simp only [twoCommitted, List.mem_cons, List.not_mem_nil, or_false] at hev
  rcases hev with rfl | rfl | rfl | rfl | rfl | rfl
  · exact hm
  all_goals trivial

theorem delivered_in_order_newcomer :
    (newcomer.exec twoCommitted).delivered = twoEntries ∧
      (newcomer.exec twoCommitted).delivered.map Entry.index =
        List.range' 1 (newcomer.exec twoCommitted).delivered.length :=
  ⟨by decide +kernel, delivered_in_order _ (plain_fresh {}) 1 twoCommitted twoCommitted_regular⟩

end NexusLOB.Raft
