import NexusLOB.Raft.ProgressBounds

/-!
# Heartbeat responses

The answer to a heartbeat is the only sign of life a leader gets from a peer whose appends were
lost. `stepLeader` tries to send to such a peer again, but `sendAppend` still looks at what the lost
appends left behind: the pause of a probed peer, and the in-flight window of a replicating one.
Only a reply to an append clears them.
-/

namespace NexusLOB.Raft

open Collections

/-- An append can go to a peer: the peer is not paused, the entries from its next index on can be
read, there are some unless the peer is probed, and its window is not full. -/
def RawNode.ReadyFor (n : RawNode) (q : Progress) : Prop :=
  q.paused = false ∧
    (∃ ents, n.log_.slice q.nextIndex (n.log_.lastIndex + 1) n.maxSizePerMsg_ = .ok ents ∧
      (ents = [] → q.state = .probe)) ∧
    (q.state = .replicate → q.inflights.full = false)

/-- An append to `target` was queued from `n` to `n'`. -/
def RawNode.Appends (n : RawNode) (target : NodeId) (n' : RawNode) : Prop :=
  ∃ a ∈ n'.msgs_.drop n.msgs_.length, a.type = .msgApp ∧ a.receiver = target

section Queue

variable {n : RawNode} {target : NodeId} {q : Progress}

theorem sendSnapshot_queue (n : RawNode) (target : NodeId) :
    ∃ x, (n.sendSnapshot target).msgs_ = n.msgs_ ++ x ∧ ∀ a ∈ x, a.type = .msgSnap := by
  have hnil : ∃ x, n.msgs_ = n.msgs_ ++ x ∧ ∀ a ∈ x, a.type = .msgSnap :=
    ⟨[], (List.append_nil _).symm, fun a ha => absurd ha List.not_mem_nil⟩
  unfold RawNode.sendSnapshot
  split
  · exact hnil
  · dsimp only
    split
    · exact hnil
    · refine ⟨_, rfl, fun a ha => ?_⟩
      rw [List.mem_singleton.mp ha]

/-- `afterAppend` fails only on a full window. -/
theorem afterAppend_eq_none {ents : List Entry} :
    RawNode.afterAppend q ents = none ↔
      q.state = .replicate ∧ ents ≠ [] ∧ q.inflights.full = true := by
  unfold RawNode.afterAppend
  rw [Option.map_eq_none_iff]
  cases hs : q.state with
  | probe => simp
  | snapshot => simp
  | replicate =>
    cases hl : ents.getLast? with
    | none =>
      rw [List.getLast?_eq_none_iff] at hl
      simp [hl]
    | some e =>
      have hne : ents ≠ [] := by
        rintro rfl
        cases hl
      dsimp only
      rw [Option.map_eq_none_iff, Inflights.add]
      split_ifs with hfull
      · simp [hne, hfull]
      · simp [hfull]

/-- What `sendAppend` queues for a peer that needs no snapshot. -/
theorem sendAppend_queue (hq : n.pr_.find? target = some q) (hs : q.state ≠ .snapshot)
    (hn : n.log_.firstIndex ≤ q.nextIndex) :
    ∃ x, (n.sendAppend target).msgs_ = n.msgs_ ++ x ∧
      ((∃ a ∈ x, a.type = .msgApp ∧ a.receiver = target) ↔ n.ReadyFor q) := by
  have hnothing : ¬ n.ReadyFor q → ∃ x, n.msgs_ = n.msgs_ ++ x ∧
      ((∃ a ∈ x, a.type = .msgApp ∧ a.receiver = target) ↔ n.ReadyFor q) := by
    intro hno
    refine ⟨[], (List.append_nil _).symm, fun ⟨a, ha, _⟩ => absurd ha List.not_mem_nil,
      fun h => absurd h hno⟩
  unfold RawNode.sendAppend
  rw [hq]
  dsimp only
  by_cases hp : q.paused = true
  · rw [if_pos hp]
    exact hnothing fun h => by rw [h.1] at hp; cases hp
  rw [if_neg hp, if_neg hs, if_neg (Nat.not_lt.mpr hn)]
  have hp' : q.paused = false := by simpa using hp
  cases hsl : n.log_.slice q.nextIndex (n.log_.lastIndex + 1) n.maxSizePerMsg_ with
  | error e =>
    dsimp only
    obtain ⟨x, hx, hsnap⟩ := sendSnapshot_queue n target
    refine ⟨x, hx, ?_, ?_⟩
    · rintro ⟨a, ha, hty, -⟩
      exact absurd ((hsnap a ha).symm.trans hty) (by decide)
    · rintro ⟨-, ⟨ents, hok, -⟩, -⟩
      rw [hsl] at hok
      cases hok
  | ok ents =>
    dsimp only
    by_cases hempty : ents = [] ∧ q.state ≠ .probe
    · rw [if_pos hempty]
      refine hnothing ?_
      rintro ⟨-, ⟨ents', hok, himp⟩, -⟩
      rw [hsl] at hok
      cases hok
      exact hempty.2 (himp hempty.1)
    · rw [if_neg hempty]
      have hprobe : ents = [] → q.state = .probe := by
        intro hnil
        by_contra hne
        exact hempty ⟨hnil, hne⟩
      cases haft : RawNode.afterAppend q ents with
      | none =>
        obtain ⟨hrep, -, hfull⟩ := afterAppend_eq_none.mp haft
        refine hnothing fun h => ?_
        rw [h.2.2 hrep] at hfull
        cases hfull
      | some q' =>
        refine ⟨_, rfl, fun _ => ⟨hp', ⟨ents, hsl, hprobe⟩, fun hrep => ?_⟩,
          fun _ => ⟨_, List.mem_singleton_self _, rfl, rfl⟩⟩
        by_contra hfull
        have hne : ents ≠ [] := by
          intro hnil
          rw [hprobe hnil] at hrep
          cases hrep
        have hnone := afterAppend_eq_none.mpr ⟨hrep, hne, by simpa using hfull⟩
        rw [haft] at hnone
        cases hnone

/-- A counted acknowledgement queues nothing but the answer to a read. -/
theorem ackRead_queue (n : RawNode) (m : Message) :
    ∃ x, (n.ackRead m).msgs_ = n.msgs_ ++ x ∧ ∀ a ∈ x, a.type = .msgReadIndexResp := by
  have hnil : ∃ x, n.msgs_ = n.msgs_ ++ x ∧ ∀ a ∈ x, a.type = .msgReadIndexResp :=
    ⟨[], (List.append_nil _).symm, fun a ha => absurd ha List.not_mem_nil⟩
  unfold RawNode.ackRead
  dsimp only
  split
  · exact hnil
  split
  · exact hnil
  split
  · exact hnil
  split
  · exact hnil
  · refine ⟨_, rfl, fun a ha => ?_⟩
    rw [List.mem_singleton.mp ha]

end Queue

theorem step_heartbeatResp {n : RawNode} {m : Message} (hr : n.role_ = .leader)
    (hty : m.type = .msgHeartbeatResp) (ht : m.term = n.term_) (draw : Nat) :
    n.step m draw = n.stepLeaderHeartbeatResp m := by
  simp only [RawNode.step, hty, raiseTerm_of_le ht.le, RawNode.dispatch, hr, RawNode.stepLeader, ht,
    Nat.lt_irrefl, if_false]

/-- **Replication after a heartbeat response.** A leader, and a peer that needs no snapshot,
whatever it lacks. The peer's heartbeat response makes the leader queue an append to it exactly if
an append can go to it. -/
theorem heartbeatResp_appends_iff {n : RawNode} {m : Message} (hr : n.role_ = .leader)
    (hty : m.type = .msgHeartbeatResp) (ht : m.term = n.term_) {q : Progress}
    (hq : n.pr_.find? m.sender = some q) (hs : q.state ≠ .snapshot)
    (hn : n.log_.firstIndex ≤ q.nextIndex) (draw : Nat) :
    n.Appends m.sender (n.step m draw) ↔ n.ReadyFor q := by
  rw [step_heartbeatResp hr hty ht, RawNode.stepLeaderHeartbeatResp, hq]
  dsimp only
  -- what the leader queued before it looks at the read
  obtain ⟨n₁, hn₁, x, hx, hiff⟩ : ∃ n₁, (if q.state = .replicate then n.sendAppend m.sender
      else if q.state = .probe ∧ ¬ q.paused then n.sendAppend m.sender else n) = n₁ ∧
      ∃ x, n₁.msgs_ = n.msgs_ ++ x ∧
        ((∃ a ∈ x, a.type = .msgApp ∧ a.receiver = m.sender) ↔ n.ReadyFor q) := by
    refine ⟨_, rfl, ?_⟩
    cases hst : q.state with
    | snapshot => exact absurd hst hs
    | replicate =>
      rw [if_pos rfl]
      exact sendAppend_queue hq hs hn
    | probe =>
      rw [if_neg (by decide)]
      by_cases hp : q.paused = true
      · rw [if_neg fun h => h.2 hp]
        refine ⟨[], (List.append_nil _).symm, fun ⟨a, ha, _⟩ => absurd ha List.not_mem_nil,
          fun h => ?_⟩
        rw [h.1] at hp
        cases hp
      · rw [if_pos ⟨rfl, hp⟩]
        exact sendAppend_queue hq hs hn
  obtain ⟨y, hy, hread⟩ := ackRead_queue n₁ m
  rw [hn₁, RawNode.Appends, hy, hx, List.append_assoc, List.drop_left, ← hiff]
  constructor
  · rintro ⟨a, ha, happ⟩
    rcases List.mem_append.mp ha with hax | hay
    · exact ⟨a, hax, happ⟩
    · exact absurd ((hread a hay).symm.trans happ.1) (by decide)
  · rintro ⟨a, ha, happ⟩
    exact ⟨a, List.mem_append_left _ ha, happ⟩

/-- Node 2 answers a heartbeat of term 1. -/
def aliveTwo : Message := { type := .msgHeartbeatResp, receiver := 1, sender := 2, term := 1 }

/-- Node 2 replicates and both appends to it are lost; a third one goes out. -/
theorem heartbeatResp_appends_twoProposed :
    let n := (memberOne.exec twoProposed).node
    (n.pr_.find? 2).map (fun q => (q.state, q.matchIndex)) = some (.replicate, 0) ∧
      n.log_.lastIndex = 2 ∧ n.Appends 2 (n.step aliveTwo 1) := by
  intro n
  have hprogress : ∀ q ∈ n.pr_.find? 2, q.state = .replicate ∧ q.paused = false ∧
      q.inflights.full = false ∧ q.nextIndex = 1 := by decide +kernel
  have hslice : n.log_.slice 1 (n.log_.lastIndex + 1) n.maxSizePerMsg_ =
      .ok [{ term := 1, index := 1, data := [1] }, { term := 1, index := 2, data := [2] }] := by
    decide +kernel
  obtain ⟨q, hq⟩ : ∃ q, n.pr_.find? 2 = some q :=
    Option.isSome_iff_exists.mp (by decide +kernel)
  obtain ⟨hstate, hpaused, hroom, hnext⟩ := hprogress q hq
  refine ⟨by decide +kernel, by decide +kernel, ?_⟩
  exact (heartbeatResp_appends_iff (m := aliveTwo) (by decide +kernel) rfl (by decide +kernel) hq
    (by rw [hstate]; decide) (by rw [hnext]; decide +kernel) 1).mpr
    ⟨hpaused, ⟨_, by rw [hnext]; exact hslice, fun hnil => absurd hnil (List.cons_ne_nil _ _)⟩,
      fun _ => hroom⟩

/-- A new leader's first append to node 2 is lost, then something is proposed. Node 2 answers every
heartbeat and is sent nothing. -/
theorem lost_append_blocks :
    let n := (memberOne.exec [.tick 1,
      .step { type := .msgVoteResp, receiver := 1, sender := 2, term := 1 } 1, .propose [1]]).node
    n.role_ = .leader ∧ aliveTwo.term = n.term_ ∧ n.log_.firstIndex = 1 ∧ n.log_.lastIndex = 1 ∧
      (n.pr_.find? 2).map (fun q => (q.state, q.matchIndex, q.nextIndex)) = some (.probe, 0, 1) ∧
      (n.step aliveTwo 1).msgs_ = n.msgs_ := by
  decide +kernel

end NexusLOB.Raft
