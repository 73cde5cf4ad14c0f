import NexusLOB.Raft.Driver
import NexusLOB.Raft.NodeEffects

/-!
# One vote per term

What a call does to the ballot of a node, its term and its vote. Every call keeps a vote as long as
the term stays, with one exception: a candidate that hears from a leader of its own term becomes a
follower through `becomeFollower`, which clears the vote although the term does not grow. A vote of
the same term for somebody else is then possible.
-/

namespace NexusLOB.Raft

/-- From one ballot to a later one: the term does not shrink, and within a term a vote stays. -/
structure VoteKept (a b : Nat × NodeId) : Prop where
  term : a.1 ≤ b.1
  vote : a.1 = b.1 → a.2 ≠ 0 → b.2 = a.2

theorem VoteKept.refl (a : Nat × NodeId) : VoteKept a a := ⟨Nat.le_refl _, fun _ _ => rfl⟩

theorem VoteKept.trans {a b c : Nat × NodeId} (h : VoteKept a b) (h' : VoteKept b c) :
    VoteKept a c := by
  have hab := h.term
  have hbc := h'.term
  refine ⟨by omega, fun hterm hvote => ?_⟩
  have hb : b.2 = a.2 := h.vote (by omega) hvote
  rw [h'.vote (by omega) (by rw [hb]; exact hvote), hb]

theorem VoteKept.of_lt {a b : Nat × NodeId} (h : a.1 < b.1) : VoteKept a b :=
  ⟨Nat.le_of_lt h, fun heq => absurd heq (Nat.ne_of_lt h)⟩

theorem VoteKept.of_eq {a b : Nat × NodeId} (h : b = a) : VoteKept a b := h ▸ .refl a

variable {n : RawNode} {m : Message}

theorem VoteKept.of_tenure {n' : RawNode} (h : n'.tenure = n.tenure) :
    VoteKept n.ballot n'.ballot := .of_eq (congrArg Prod.fst h)

/-! ## Calls that change the ballot -/

theorem campaign_kept (n : RawNode) (draw : Nat) : VoteKept n.ballot (n.campaign draw).ballot := by
  have hballot : (n.campaign draw).ballot = (n.term_ + 1, n.id_) :=
    congrArg Prod.fst (campaign_tenure n draw)
  rw [hballot]
  exact .of_lt (Nat.lt_succ_self _)

/-- A follower votes only if it has not voted, or again for the same candidate. -/
theorem stepFollowerVote_kept (n : RawNode) (m : Message) :
    VoteKept n.ballot (n.stepFollowerVote m).ballot := by
  unfold RawNode.stepFollowerVote
  dsimp only
  by_cases hgrant : (decide (n.vote_ = 0 ∨ n.vote_ = m.sender) && n.logUpToDate m) = true ∧
      m.type = .msgVote
  · rw [if_pos hgrant]
    refine ⟨Nat.le_refl _, fun _ hvote => ?_⟩
    have hfree : n.vote_ = 0 ∨ n.vote_ = m.sender := by
      have hboth := hgrant.1
      rw [Bool.and_eq_true, decide_eq_true_eq] at hboth
      exact hboth.1
    exact (hfree.resolve_left hvote).symm
  · rw [if_neg hgrant]
    exact .refl _

theorem stepFollower_kept (n : RawNode) (m : Message) (draw : Nat) :
    VoteKept n.ballot (n.stepFollower m draw).ballot := by
  by_cases hty : m.type = .msgApp ∨ m.type = .msgHeartbeat ∨ m.type = .msgSnap
  · exact .of_tenure (stepFollower_leader_tenure hty draw)
  · simp only [not_or] at hty
    unfold RawNode.stepFollower
    split
    · exact .of_tenure (forward_tenure n m)
    · next h => exact absurd h hty.1
    · next h => exact absurd h hty.2.1
    · next h => exact absurd h hty.2.2
    · exact stepFollowerVote_kept n m
    · exact stepFollowerVote_kept n m
    · exact .of_tenure (forward_tenure n m)
    · exact .refl _
    · exact campaign_kept n draw
    · exact .refl _

/-- A candidate with a vote gives up to a leader of its own term. -/
def RawNode.Yields (n : RawNode) (m : Message) : Prop :=
  (n.role_ = .candidate ∨ n.role_ = .preCandidate) ∧ n.vote_ ≠ 0 ∧ m.term = n.term_ ∧
    (m.type = .msgApp ∨ m.type = .msgHeartbeat ∨ m.type = .msgSnap)

instance (n : RawNode) (m : Message) : Decidable (n.Yields m) :=
  inferInstanceAs (Decidable (_ ∧ _ ∧ _ ∧ _))

theorem stepCandidate_leader_ballot
    (hty : m.type = .msgApp ∨ m.type = .msgHeartbeat ∨ m.type = .msgSnap)
    (ht : m.term = n.term_) (draw : Nat) : (n.stepCandidate m draw).ballot = (n.term_, 0) := by
  have hstep : n.stepCandidate m draw =
      (n.becomeFollower m.term m.sender draw).stepFollower m draw := by
    unfold RawNode.stepCandidate
    rcases hty with h | h | h
    · simp only [h, if_pos ht]
    · simp only [h, if_pos ht]
    · simp only [h, if_pos ht]
  have hfollow : ((n.becomeFollower m.term m.sender draw).stepFollower m draw).ballot =
      (n.becomeFollower m.term m.sender draw).ballot :=
    congrArg Prod.fst (stepFollower_leader_tenure hty draw)
  rw [hstep, hfollow, ← ht]
  rfl

theorem stepCandidate_kept (hvote : (m.type = .msgApp ∨ m.type = .msgHeartbeat ∨
      m.type = .msgSnap) → m.term = n.term_ ∧ n.vote_ = 0) (draw : Nat) :
    VoteKept n.ballot (n.stepCandidate m draw).ballot := by
  by_cases hty : m.type = .msgApp ∨ m.type = .msgHeartbeat ∨ m.type = .msgSnap
  · obtain ⟨ht, hzero⟩ := hvote hty
    rw [stepCandidate_leader_ballot hty ht]
    exact ⟨Nat.le_refl _, fun _ hne => absurd hzero hne⟩
  · simp only [not_or] at hty
    unfold RawNode.stepCandidate
    split
    · exact .of_tenure (pollVote_tenure n _ _)
    · exact .of_tenure (pollVote_tenure n _ _)
    · next h => exact absurd h hty.1
    · next h => exact absurd h hty.2.1
    · next h => exact absurd h hty.2.2
    · exact campaign_kept n draw
    · exact .refl _

theorem dispatch_kept (ht : n.term_ ≤ m.term) (hraised : n.term_ < m.term →
      m.type = .msgPreVote ∨ m.type = .msgPreVoteResp) (hno : ¬ n.Yields m) (draw : Nat) :
    VoteKept n.ballot (n.dispatch m draw).ballot := by
  -- a candidate that is to follow a leader of its term has not voted
  have hvote : (n.role_ = .candidate ∨ n.role_ = .preCandidate) → (m.type = .msgApp ∨
      m.type = .msgHeartbeat ∨ m.type = .msgSnap) → m.term = n.term_ ∧ n.vote_ = 0 := by
    intro hr hty
    have heq : m.term = n.term_ := by
      by_contra hne
      rcases hraised (by omega) with h | h <;> rw [h] at hty <;> simp at hty
    refine ⟨heq, ?_⟩
    by_contra hne
    exact hno ⟨hr, hne, heq, hty⟩
  unfold RawNode.dispatch
  cases hr : n.role_ with
  | leader => exact .of_tenure (stepLeader_tenure n m)
  | candidate => exact stepCandidate_kept (hvote (Or.inl hr)) draw
  | preCandidate => exact stepCandidate_kept (hvote (Or.inr hr)) draw
  | follower => exact stepFollower_kept n m draw

/-- What the step of a message does to the ballot, unless the node yields. -/
theorem step_kept (hno : ¬ n.Yields m) (draw : Nat) :
    VoteKept n.ballot (n.step m draw).ballot := by
  unfold RawNode.step
  split
  · exact .refl _
  · exact .of_tenure (stepSnapStatus_worked n m).tenure
  · dsimp only
    unfold RawNode.raiseTerm
    split_ifs with hraise hstale hstale
    · exact absurd hstale (Nat.lt_irrefl _)
    · -- the node is a follower of the message's term now
      have hfollow : VoteKept (n.becomeFollower m.term 0 draw).ballot
          ((n.becomeFollower m.term 0 draw).dispatch m draw).ballot :=
        stepFollower_kept (n.becomeFollower m.term 0 draw) m draw
      have hlt : n.ballot.1 < (n.becomeFollower m.term 0 draw).ballot.1 := hraise.1
      exact (VoteKept.of_lt hlt).trans hfollow
    · exact .of_tenure (rejectStale_worked n m).tenure
    · refine dispatch_kept (by omega) (fun hlt => ?_) hno draw
      by_contra hty
      rw [not_or] at hty
      exact hraise ⟨hlt, hty⟩

/-- A node that yields loses its vote in the term it was cast in. -/
theorem step_yields (h : n.Yields m) (draw : Nat) : (n.step m draw).ballot = (n.term_, 0) := by
  obtain ⟨hr, -, ht, hty⟩ := h
  have hstep : n.step m draw = n.stepCandidate m draw := by
    have hraise : n.raiseTerm m draw = n := if_neg fun hgt => by omega
    have hdispatch : n.dispatch m draw = n.stepCandidate m draw := by
      unfold RawNode.dispatch
      rcases hr with hr | hr <;> rw [hr]
    unfold RawNode.step
    rcases hty with hty | hty | hty
    · simp only [hty, hraise]
      rw [if_neg (by omega), hdispatch]
    · simp only [hty, hraise]
      rw [if_neg (by omega), hdispatch]
    · simp only [hty, hraise]
      rw [if_neg (by omega), hdispatch]
  rw [hstep, stepCandidate_leader_ballot hty ht]

theorem tick_kept (n : RawNode) (draw : Nat) : VoteKept n.ballot (n.tick draw).2.ballot := by
  unfold RawNode.tick
  dsimp only
  split_ifs
  · exact .of_tenure (heartbeats_worked { n with tickCount_ := n.tickCount_ + 1 } []).tenure
  · exact .refl _
  · unfold RawNode.tickElection
    dsimp only
    split_ifs
    · exact campaign_kept _ draw
    · exact .refl _

/-! ## Runs -/

namespace Peer

variable {p : Peer} {evs : List Event}

def ballot (p : Peer) : Nat × NodeId := p.node.ballot

/-- The event makes a candidate give up its vote to a leader of its own term. -/
def Yields (p : Peer) : Event → Prop
  | .step m _ => p.ready = none ∧ p.node.Yields m
  | _ => False

instance (p : Peer) (ev : Event) : Decidable (p.Yields ev) := by
  cases ev <;> unfold Yields <;> infer_instance

/-- The hard state an event hands out for writing: that of a `Ready`. -/
def handedOut (p : Peer) (ev : Event) : List HardState :=
  match ev, p.ready with
  | .poll, none => [p.node.poll.1.hardState]
  | _, _ => []

/-- The hard states of the successive `Ready`s of a run. -/
def hardStates : Peer → List Event → List HardState
  | _, [] => []
  | p, ev :: evs => p.handedOut ev ++ hardStates (p.handle ev).1 evs

/-- In a run, a vote stays as long as the term does, in the states and in the hard states. -/
structure VotesOnce (p : Peer) (evs : List Event) : Prop where
  states : ∀ xs ys zs, evs = xs ++ ys ++ zs →
    (p.exec xs).node.term_ = (p.exec (xs ++ ys)).node.term_ → (p.exec xs).node.vote_ ≠ 0 →
      (p.exec (xs ++ ys)).node.vote_ = (p.exec xs).node.vote_
  written : (p.hardStates evs).Pairwise fun a b => a.term = b.term → a.vote ≠ 0 → b.vote = a.vote

/-- A hard state is handed out with the node's own ballot, which `poll` leaves alone. -/
theorem handedOut_cases (p : Peer) (ev : Event) :
    p.handedOut ev = [] ∨ ∃ hs : HardState, p.handedOut ev = [hs] ∧ (hs.term, hs.vote) = p.ballot ∧
      (p.handle ev).1.ballot = p.ballot := by
  unfold handedOut
  split
  · next hready =>
    refine Or.inr ⟨_, rfl, rfl, ?_⟩
    simp only [handle, hready]
    rfl
  · exact Or.inl rfl

/-- One event other than a restart. -/
theorem handle_kept {ev : Event} (hev : ∀ draw, ev ≠ .restart draw) (hno : ¬ p.Yields ev) :
    VoteKept p.ballot (p.handle ev).1.ballot := by
  have hmove := p.handle_move ev
  generalize p.handle ev = q at hmove ⊢
  cases hmove with
  | tick draw => exact tick_kept p.node draw
  | step m draw hready => exact step_kept (fun hy => hno ⟨hready, hy⟩) draw
  | propose data => exact .of_tenure (propose_worked p.node data).tenure
  | readIndex ctx => exact .of_tenure ((tenure_closed p.node).readIndex rfl ctx)
  | poll | persistEntries | send | stay => exact .refl _
  | persistHardState rd =>
    refine .of_eq ?_
    unfold saveHardState
    split_ifs <;> rfl
  | advance => exact .of_tenure (advance_tenure p.node)
  | restart draw => exact absurd rfl (hev draw)

section Run

variable (hevs : ∀ ev ∈ evs, ∀ draw, ev ≠ Event.restart draw)
  (hno : p.Along (fun p ev => ¬ p.Yields ev) evs)
include hevs hno

theorem exec_kept : VoteKept p.ballot (p.exec evs).ballot := by
  induction evs generalizing p with
  | nil => exact .refl _
  | cons ev evs ih =>
    have hone := handle_kept (hevs ev List.mem_cons_self) hno.1
    exact hone.trans (ih (fun ev' hev' => hevs ev' (List.mem_cons_of_mem _ hev')) hno.2)

/-- Every hard state of the run is one the ballot has led to. -/
theorem hardStates_kept :
    ∀ hs ∈ p.hardStates evs, VoteKept p.ballot (hs.term, hs.vote) := by
  induction evs generalizing p with
  | nil => exact fun hs hmem => absurd hmem List.not_mem_nil
  | cons ev evs ih =>
    intro hs hmem
    rw [hardStates, List.mem_append] at hmem
    rcases hmem with hnow | hlater
    · rcases p.handedOut_cases ev with hnil | ⟨hs', hone, hballot, -⟩
      · rw [hnil] at hnow
        exact absurd hnow List.not_mem_nil
      · rw [hone] at hnow
        obtain rfl := List.mem_singleton.mp hnow
        exact .of_eq hballot
    · have hone := handle_kept (hevs ev List.mem_cons_self) hno.1
      exact hone.trans
        (ih (fun ev' hev' => hevs ev' (List.mem_cons_of_mem _ hev')) hno.2 hs hlater)

theorem hardStates_pairwise :
    (p.hardStates evs).Pairwise fun a b => a.term = b.term → a.vote ≠ 0 → b.vote = a.vote := by
  induction evs generalizing p with
  | nil => exact List.Pairwise.nil
  | cons ev evs ih =>
    have hevs' := fun ev' hev' => hevs ev' (List.mem_cons_of_mem ev hev')
    have hrest := ih hevs' hno.2
    have hkept := hardStates_kept hevs' hno.2
    rw [hardStates]
    rcases p.handedOut_cases ev with hnil | ⟨hs', hone, hballot, hsame⟩
    · rw [hnil]
      exact hrest
    · rw [hone]
      refine List.Pairwise.cons (fun hs hmem => ?_) hrest
      have hlater := hkept hs hmem
      rw [hsame, ← hballot] at hlater
      exact hlater.vote

end Run

theorem not_yields_of_states (h : ∀ xs ys zs, evs = xs ++ ys ++ zs →
      (p.exec xs).node.term_ = (p.exec (xs ++ ys)).node.term_ → (p.exec xs).node.vote_ ≠ 0 →
        (p.exec (xs ++ ys)).node.vote_ = (p.exec xs).node.vote_) :
    p.Along (fun p ev => ¬ p.Yields ev) evs := by
  induction evs generalizing p with
  | nil => trivial
  | cons ev evs ih =>
    constructor
    · intro hy
      cases ev with
      | step m draw =>
        obtain ⟨hready, hy⟩ := hy
        have hafter : (p.exec [.step m draw]).node.ballot = (p.node.term_, 0) := by
          have hnode : (p.exec [.step m draw]).node = p.node.step m draw := by
            simp only [exec, List.foldl_cons, List.foldl_nil, handle, hready]
          rw [hnode, step_yields hy]
        have hkept := h [] [.step m draw] evs rfl (congrArg Prod.fst hafter).symm hy.2.1
        have hlost : (p.exec [.step m draw]).node.vote_ = 0 := congrArg Prod.snd hafter
        exact hy.2.1 (hkept.symm.trans hlost)
      | tick | propose | readIndex | poll | persistEntries | persistHardState | send | advance
        | restart => exact hy
    · refine ih fun xs ys zs heq hterm hvote => ?_
      exact h (ev :: xs) ys zs (by rw [heq]; rfl) hterm hvote

/-- **One vote per term.** In a run of one process from any state, with any ticks and messages, a
vote stays within its term, in the node and in what its `Ready`s write, exactly when no candidate
with a vote yields to a leader of its own term. -/
theorem votes_once_iff (p : Peer) (evs : List Event)
    (hevs : ∀ ev ∈ evs, ∀ draw, ev ≠ Event.restart draw) :
    p.VotesOnce evs ↔ p.Along (fun p ev => ¬ p.Yields ev) evs := by
  constructor
  · exact fun h => not_yields_of_states h.states
  · intro hno
    refine ⟨?_, hardStates_pairwise hevs hno⟩
    rintro xs ys zs rfl hterm hvote
    rw [List.append_assoc] at hevs hno
    have hno' := (along_append.mp (along_append.mp hno).2).1
    have hkept : VoteKept (p.exec xs).ballot ((p.exec xs).exec ys).ballot :=
      exec_kept (fun ev hev => hevs ev (by simp [hev])) hno'
    rw [exec_append] at hterm ⊢
    exact hkept.vote hterm hvote

/-- Node 1 of three, on an empty store. -/
def voterOne : Peer := .start { id := 1, electionTick := 1, peers := [1, 2, 3] } (.fresh {}) 1

/-- Node 1 votes for itself and hands the vote out for writing. -/
def ownVote : List Event := [.tick 1, .poll, .persistEntries, .persistHardState, .send, .advance]

theorem ownVote_once : voterOne.VotesOnce ownVote := by
  refine (votes_once_iff voterOne ownVote ?_).mpr (by decide +kernel)
  intro ev hev draw
  simp only [ownVote, List.mem_cons, List.not_mem_nil, or_false] at hev
  rcases hev with rfl | rfl | rfl | rfl | rfl | rfl <;> exact fun h => by cases h

/-- Node 2 won the election of term 1 with the vote of node 3. Its heartbeat reaches node 1 before
the request for node 1's vote does, and node 1 votes a second time in that term. -/
def lateRequest : List Event :=
  ownVote ++
    [.step { type := .msgHeartbeat, receiver := 1, sender := 2, term := 1 } 1,
      .step { type := .msgVote, receiver := 1, sender := 2, term := 1 } 1, .poll]

theorem lateRequest_votes_twice :
    (voterOne.exec ownVote).ballot = (1, 1) ∧ (voterOne.exec lateRequest).ballot = (1, 2) ∧
      (voterOne.hardStates lateRequest).map (fun hs => (hs.term, hs.vote)) = [(1, 1), (1, 2)] := by
  decide +kernel

end Peer

end NexusLOB.Raft
