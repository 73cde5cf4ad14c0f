import Mathlib.Algebra.Order.Ring.Nat
import NexusLOB.Raft.Exchange

/-!
# Log repair

A leader that was just elected and one follower of its term, with the appends of the one and the
answers of the other delivered in order. The leader first looks for the last entry that both logs
share, one append at a time and each further back than the one before. When the follower accepts,
the leader goes on from there; it may send the same entries twice, and every answer to them makes
it send again. A number that every delivery lowers bounds the exchange: while the leader searches
it counts the place it has come to, and afterwards each message weighs exponentially in what it
leaves to be sent. Nothing is left under way only when the follower has the whole log.
-/

namespace NexusLOB.Raft

open Collections Consensus

/-- A leader, a follower, and the messages under way between them. -/
structure Exchange where
  leader : Peer
  follower : Peer
  toFollower : List Message
  toLeader : List Message
  deriving Repr

inductive Recipient
  | leader
  | follower
  deriving DecidableEq, Repr

namespace Exchange

/-- The leader runs its loop, and its appends go out. -/
def start (leader follower : Peer) : Exchange :=
  { leader := leader.processReady.1
    follower := follower
    toFollower := appsTo follower.node.id_ leader.processReady.2
    toLeader := [] }

/-- The oldest message to one side is delivered, and the receiver runs its loop. -/
def deliver (x : Exchange) (side : Recipient) (draw : Nat) : Option Exchange :=
  match side with
  | .follower =>
    match x.toFollower with
    | [] => none
    | m :: rest =>
      let (p, sent) := (x.follower.handle (.step m draw)).1.processReady
      some { x with
        follower := p
        toFollower := rest
        toLeader := x.toLeader ++ respsTo x.leader.node.id_ sent }
  | .leader =>
    match x.toLeader with
    | [] => none
    | m :: rest =>
      let (p, sent) := (x.leader.handle (.step m draw)).1.processReady
      some { x with
        leader := p
        toLeader := rest
        toFollower := x.toFollower ++ appsTo x.follower.node.id_ sent }

/-- Deliveries in a given order; `none` if there is nothing to deliver at some point. -/
def run (x : Exchange) : List (Recipient × Nat) → Option Exchange
  | [] => some x
  | (side, draw) :: rest => (x.deliver side draw).bind fun x => x.run rest

/-- The leader knows that the follower has all its entries, and the follower has them. -/
def Repaired (x : Exchange) : Prop :=
  (x.leader.node.pr_.find? x.follower.node.id_).map Progress.matchIndex =
      some x.leader.node.log_.lastIndex ∧
    ∀ k, 1 ≤ k → k ≤ x.leader.node.log_.lastIndex →
      x.follower.node.log_.entryAt k = x.leader.node.log_.entryAt k

end Exchange

/-! ## The phases of the exchange -/

/-- The two nodes of an exchange between deliveries: the leader's log is `L`, the follower's `F`,
and `q` is what the leader knows of the follower. -/
structure Linked (L : List Entry) (t : Nat) (i v : NodeId) (F : List Entry) (q : Progress)
    (x : Exchange) : Prop where
  idle : x.leader.Idle
  lead : Lead L t i v x.leader.node
  find : x.leader.node.pr_.find? v = some q
  quiet : appsTo v x.leader.node.msgs_ = []
  follow : Follow L t i v F x.follower
  room : 1 ≤ q.inflights.buffer_.length

/-- The weight of the messages under way to a follower that replicates. -/
def Exchange.weight (L : List Entry) (x : Exchange) : Nat :=
  (x.toLeader.map fun r => 8 ^ (L.length - r.index)).sum +
    (x.toFollower.map fun m => 2 * 8 ^ (L.length - m.ack)).sum

/-- Where the exchange is, and how much is left of it. -/
inductive Phase (L : List Entry) (t : Nat) (i v : NodeId) : Exchange → Nat → Prop
  | asked {x : Exchange} {F : List Entry} {q : Progress} {m : Message}
      (h : Linked L t i v F q x) (hs : q.state = .probe) (hmatch : q.matchIndex = 0)
      (hn : q.nextIndex = m.index + 1) (hm : IsApp L t i v m) (hf : x.toFollower = [m])
      (hl : x.toLeader = []) : Phase L t i v x (8 ^ (L.length + 1) + 2 * (m.index + 1) + 1)
  | refused {x : Exchange} {F : List Entry} {q : Progress} {r : Message} {e : Nat}
      (h : Linked L t i v F q x) (hs : q.state = .probe) (hmatch : q.matchIndex = 0)
      (hn : q.nextIndex = e + 1) (hpos : 1 ≤ e) (he : e ≤ L.length) (hr : IsResp t v r)
      (hrej : r.reject = true) (hidx : r.index = e) (hf : x.toFollower = [])
      (hl : x.toLeader = [r]) : Phase L t i v x (8 ^ (L.length + 1) + 2 * (e + 1))
  | answered {x : Exchange} {F : List Entry} {q : Progress} {r : Message}
      (h : Linked L t i v F q x) (hs : q.state = .probe) (hmatch : q.matchIndex = 0)
      (hr : IsResp t v r) (hrej : r.reject = false) (hshare : Shares L F r.index)
      (hf : x.toFollower = []) (hl : x.toLeader = [r]) : Phase L t i v x (8 ^ (L.length + 1))
  | flowing {x : Exchange} {F : List Entry} {q : Progress}
      (h : Linked L t i v F q x) (hs : q.state = .replicate) (hp : q.paused = false)
      (hok : q.inflights.Ok) (hmatch : q.matchIndex ≤ L.length)
      (happs : ∀ m ∈ x.toFollower, IsApp L t i v m ∧ Shares L F m.index)
      (hresps : ∀ r ∈ x.toLeader, IsResp t v r ∧ r.reject = false ∧ Shares L F r.index)
      (hwindow : q.inflights.pending.Sublist
        (x.toLeader.map Message.index ++ x.toFollower.map Message.ack))
      (hdone : x.toLeader = [] → x.toFollower = [] →
        q.matchIndex = L.length ∧ Shares L F L.length) : Phase L t i v x (x.weight L)

section Deliveries

variable {L F : List Entry} {t : Nat} {i v : NodeId} {q q' : Progress} {x : Exchange}
  {r : Message}

/-- The leader's round after an answer. -/
theorem Linked.respond (h : Linked L t i v F q x) (hr : IsResp t v r) (draw : Nat)
    {out : List Message} (hlead : Lead L t i v (x.leader.node.stepLeaderAppResp r))
    (hfind : (x.leader.node.stepLeaderAppResp r).pr_.find? v = some q')
    (hqueue : appsTo v (x.leader.node.stepLeaderAppResp r).msgs_ = out)
    (hroom : q'.inflights.buffer_.length = q.inflights.buffer_.length) (rest more : List Message) :
    appsTo v (x.leader.handle (.step r draw)).1.processReady.2 = out ∧
      Linked L t i v F q' { x with
        leader := (x.leader.handle (.step r draw)).1.processReady.1
        toLeader := rest, toFollower := more } := by
  have hstep := h.lead.step_appResp hr.type hr.term draw
  have heff := step_effects x.leader.node r draw
  rw [hstep] at heff
  have hhandle : (x.leader.handle (.step r draw)).1 =
      { x.leader with node := x.leader.node.stepLeaderAppResp r } := by
    simp only [Peer.handle, h.idle.ready, hstep]
  have hidle : Peer.Idle { x.leader with node := x.leader.node.stepLeaderAppResp r } :=
    ⟨h.idle.ready, heff.lastReadyLastIndex.trans h.idle.last,
      heff.lastReadyApplied.trans h.idle.applied⟩
  obtain ⟨hsent, hidle', l', hset, hnode⟩ := Peer.processReady_spec hidle hlead.wf
  rw [hhandle]
  refine ⟨by rw [hsent]; exact hqueue, ?_⟩
  refine ⟨hidle', ?_, ?_, ?_, h.follow, by rw [hroom]; exact h.room⟩
  all_goals dsimp only; rw [hnode]
  · exact ⟨hlead.role, hlead.term, hlead.id, hlead.other, hset.wf, hset.logical.trans hlead.logical,
      hset.sliceable hlead.sliceable⟩
  · exact hfind
  · rfl

/-- The follower's round after an append. -/
theorem Linked.append {m : Message} (h : Linked L t i v F q x) (hm : IsApp L t i v m) (draw : Nat) :
    ∃ F' r, respsTo i (x.follower.handle (.step m draw)).1.processReady.2 = [r] ∧ IsResp t v r ∧
      (∀ e, Shares L F e → Shares L F' e) ∧
      (r.reject = false ∧ r.index = m.ack ∧ Shares L F' m.ack ∨
        r.reject = true ∧ r.index = m.index ∧ 1 ≤ m.index ∧ ¬ Shares L F m.index) ∧
      ∀ rest more, Linked L t i v F' q { x with
        follower := (x.follower.handle (.step m draw)).1.processReady.1
        toFollower := rest, toLeader := more } := by
  have hL : Indexed L := by
    rw [← h.lead.logical]
    exact h.lead.wf.logical
  obtain ⟨F', r, hfollow, hsent, hresp, hgrow, hans⟩ := h.follow.step hL hm draw
  exact ⟨F', r, hsent, hresp, hgrow, hans,
    fun _ _ => ⟨h.idle, h.lead, h.find, h.quiet, hfollow, h.room⟩⟩

/-- What an answer makes the leader send weighs less than the answer. -/
theorem sum_weight_lt {N e : Nat} {out : List Message} (hlen : out.length ≤ 2)
    (hack : ∀ m ∈ out, e < m.ack ∧ m.ack ≤ N) :
    (out.map fun m => 2 * 8 ^ (N - m.ack)).sum < 8 ^ (N - e) := by
  have hone : ∀ m ∈ out, 8 * 8 ^ (N - m.ack) ≤ 8 ^ (N - e) := by
    intro m hm
    obtain ⟨hlt, hle⟩ := hack m hm
    rw [← Nat.pow_succ']
    exact Nat.pow_le_pow_right (by decide) (by omega)
  have hpos : 0 < 8 ^ (N - e) := Nat.pow_pos (by decide)
  match out, hlen with
  | [], _ => exact hpos
  | [a], _ =>
    have ha := hone a List.mem_cons_self
    have hpa : 0 < 8 ^ (N - a.ack) := Nat.pow_pos (by decide)
    simp only [List.map_cons, List.map_nil, List.sum_cons, List.sum_nil]
    omega
  | [a, b], _ =>
    have ha := hone a List.mem_cons_self
    have hb := hone b (List.mem_cons_of_mem _ List.mem_cons_self)
    have hpa : 0 < 8 ^ (N - a.ack) := Nat.pow_pos (by decide)
    simp only [List.map_cons, List.map_nil, List.sum_cons, List.sum_nil]
    omega

/-- The window after an answer: what it still holds is still under way. -/
theorem sublist_dropWhile {pending acks : List Nat} {e : Nat} (h : pending.Sublist (e :: acks)) :
    (pending.dropWhile fun k => decide (k ≤ e)).Sublist acks := by
  cases h with
  | cons _ h => exact (List.dropWhile_sublist _).trans h
  | cons_cons _ h =>
    rw [List.dropWhile_cons, if_pos (decide_eq_true (Nat.le_refl e))]
    exact (List.dropWhile_sublist _).trans h

/-- **The leader takes an accept.** Afterwards the follower replicates. -/
theorem Linked.accept (h : Linked L t i v F q x) (hr : IsResp t v r) (hrej : r.reject = false)
    (hshare : Shares L F r.index) (hc : Confirmed r.index q (RawNode.acceptProgress r.index q))
    (hmatch : q.matchIndex ≤ L.length) {rest : List Message}
    (happs : ∀ m ∈ x.toFollower, IsApp L t i v m ∧ Shares L F m.index)
    (hresps : ∀ r ∈ rest, IsResp t v r ∧ r.reject = false ∧ Shares L F r.index)
    (hwindow : (RawNode.acceptProgress r.index q).inflights.pending.Sublist
      (rest.map Message.index ++ x.toFollower.map Message.ack)) (draw : Nat) :
    ∃ out, appsTo v (x.leader.handle (.step r draw)).1.processReady.2 = out ∧
      (out.map fun m => 2 * 8 ^ (L.length - m.ack)).sum < 8 ^ (L.length - r.index) ∧
      ∃ k, k = Exchange.weight L { x with
          leader := (x.leader.handle (.step r draw)).1.processReady.1
          toLeader := rest, toFollower := x.toFollower ++ out } ∧
        Phase L t i v { x with
          leader := (x.leader.handle (.step r draw)).1.processReady.1
          toLeader := rest, toFollower := x.toFollower ++ out } k := by
  obtain ⟨n₂, q', out, hlead₂, hmsgs, hpump, hlen, hstop⟩ :=
    h.lead.accept h.find hc hshare.1 hr.sender hrej rfl
  have hprog := hpump.progress
  have hqueue : appsTo v (x.leader.node.stepLeaderAppResp r).msgs_ = out := by
    rw [hpump.queue, hmsgs, h.quiet, List.nil_append]
  have hroom : q'.inflights.buffer_.length = q.inflights.buffer_.length :=
    hpump.capacity.trans hc.capacity
  obtain ⟨hsent, hlinked⟩ := h.respond hr draw (hlead₂.dispatched hpump.dispatched) hpump.find hqueue
    hroom rest (x.toFollower ++ out)
  have hmatch' : q'.matchIndex = max q.matchIndex r.index := by
    rw [hprog]
    exact hc.matchIndex
  have hle := hshare.1
  have hwindow' : q'.inflights.pending.Sublist
      (rest.map Message.index ++ (x.toFollower ++ out).map Message.ack) := by
    rw [hpump.pending, List.map_append, ← List.append_assoc]
    exact hwindow.append (List.Sublist.refl _)
  refine ⟨out, hsent, ?_, _, rfl, .flowing hlinked ?_ ?_ hpump.ok ?_ ?_ hresps hwindow' ?_⟩
  · refine sum_weight_lt hlen fun m hm => ?_
    obtain ⟨happ, hidx, hne⟩ := hpump.apps m hm
    have hpos := List.length_pos_iff.mpr hne
    have hack := happ.ack_le
    unfold Message.ack at hack ⊢
    omega
  · rw [hprog]
    exact hc.state
  · rw [hprog]
    exact hc.paused
  · rw [hmatch']
    omega
  · intro m hm
    rcases List.mem_append.mp hm with hm | hm
    · exact happs m hm
    · obtain ⟨happ, hidx, -⟩ := hpump.apps m hm
      exact ⟨happ, by rw [hidx]; exact hshare⟩
  · -- with nothing under way the window is empty, so the log was at its end
    rintro rfl hnil
    obtain ⟨hnone, rfl⟩ := List.append_eq_nil_iff.mp hnil
    have hempty : q'.inflights.pending = [] := by
      rw [hnone] at hwindow'
      exact List.sublist_nil.mp hwindow'
    have hend : r.index = L.length := by
      rcases hstop rfl with hend | hfull
      · exact hend
      · rw [Inflights.full_iff, hempty, List.length_nil] at hfull
        have := h.room
        omega
    rw [hmatch', ← hend]
    refine ⟨?_, hshare⟩
    omega

/-- A delivery to the follower. -/
theorem Exchange.deliver_follower {m : Message} {rest : List Message} (hx : x.toFollower = m :: rest)
    (hi : x.leader.node.id_ = i) (draw : Nat) : x.deliver .follower draw = some { x with
      follower := (x.follower.handle (.step m draw)).1.processReady.1
      toFollower := rest
      toLeader := x.toLeader ++ respsTo i (x.follower.handle (.step m draw)).1.processReady.2 } := by
  simp only [Exchange.deliver, hx, hi]

/-- A delivery to the leader. -/
theorem Exchange.deliver_leader {rest : List Message} (hx : x.toLeader = r :: rest)
    (hv : x.follower.node.id_ = v) (draw : Nat) : x.deliver .leader draw = some { x with
      leader := (x.leader.handle (.step r draw)).1.processReady.1
      toLeader := rest
      toFollower := x.toFollower ++ appsTo v (x.leader.handle (.step r draw)).1.processReady.2 } := by
  simp only [Exchange.deliver, hx, hv]

/-- Only what is under way is delivered. -/
theorem Exchange.deliver_cases {side : Recipient} {draw : Nat} {x' : Exchange}
    (hd : x.deliver side draw = some x') :
    (∃ m rest, side = .follower ∧ x.toFollower = m :: rest) ∨
      ∃ r rest, side = .leader ∧ x.toLeader = r :: rest := by
  cases side with
  | follower =>
    cases hx : x.toFollower with
    | nil => simp [Exchange.deliver, hx] at hd
    | cons m rest => exact Or.inl ⟨m, rest, rfl, rfl⟩
  | leader =>
    cases hx : x.toLeader with
    | nil => simp [Exchange.deliver, hx] at hd
    | cons r rest => exact Or.inr ⟨r, rest, rfl, rfl⟩

/-- **A delivery to the follower** leaves less to do. -/
theorem Phase.deliver_follower {k : Nat} (h : Phase L t i v x k) {draw : Nat} {m : Message}
    {rest : List Message} (hx : x.toFollower = m :: rest) {x' : Exchange}
    (hd : x.deliver .follower draw = some x') : ∃ k' < k, Phase L t i v x' k' := by
  cases h with
  | refused h hs hmatch hn hpos he hr hrej hidx hf hl => rw [hf] at hx; cases hx
  | answered h hs hmatch hr hrej hshare hf hl => rw [hf] at hx; cases hx
  | asked h hs hmatch hn hm hf hl =>
    rw [hf] at hx
    cases hx
    rw [Exchange.deliver_follower hf h.lead.id draw, Option.some.injEq] at hd
    obtain ⟨F', r, hsent, hr, hgrow, hans, hlink⟩ := h.append hm draw
    rw [hsent, hl, List.nil_append] at hd
    subst hd
    rcases hans with ⟨hrej, hidx, hshare⟩ | ⟨hrej, hidx, hpos, -⟩
    · exact ⟨_, by omega, .answered (hlink [] [r]) hs hmatch hr hrej (by rw [hidx]; exact hshare)
        rfl rfl⟩
    · exact ⟨_, by omega, .refused (hlink [] [r]) hs hmatch hn hpos hm.index_le hr hrej hidx rfl rfl⟩
  | flowing h hs hp hok hmatch happs hresps hwindow hdone =>
    obtain ⟨hm, hshare⟩ := happs m (by rw [hx]; exact List.mem_cons_self)
    rw [Exchange.deliver_follower hx h.lead.id draw, Option.some.injEq] at hd
    obtain ⟨F', r, hsent, hr, hgrow, hans, hlink⟩ := h.append hm draw
    rw [hsent] at hd
    rcases hans with ⟨hrej, hidx, hshare'⟩ | ⟨-, -, -, hnot⟩
    · subst hd
      refine ⟨_, ?_, .flowing (hlink rest (x.toLeader ++ [r])) hs hp hok hmatch ?_ ?_ ?_ ?_⟩
      · have hpos : 0 < 8 ^ (L.length - m.ack) := Nat.pow_pos (by decide)
        simp only [Exchange.weight, hx, List.map_append, List.sum_append, List.map_cons,
          List.sum_cons, List.map_nil, List.sum_nil, hidx]
        omega
      · intro m' hm'
        obtain ⟨happ, hs'⟩ := happs m' (by rw [hx]; exact List.mem_cons_of_mem _ hm')
        exact ⟨happ, hgrow _ hs'⟩
      · intro r' hr'
        rcases List.mem_append.mp hr' with hr' | hr'
        · obtain ⟨hresp, hok', hs'⟩ := hresps r' hr'
          exact ⟨hresp, hok', hgrow _ hs'⟩
        · rw [List.mem_singleton.mp hr']
          exact ⟨hr, hrej, by rw [hidx]; exact hshare'⟩
      · rw [hx] at hwindow
        simpa [hidx] using hwindow
      · intro hnil
        simp at hnil
    · exact absurd hshare hnot

/-- **A delivery to the leader** leaves less to do. -/
theorem Phase.deliver_leader {k : Nat} (h : Phase L t i v x k) {draw : Nat}
    {rest : List Message} (hx : x.toLeader = r :: rest) {x' : Exchange}
    (hd : x.deliver .leader draw = some x') : ∃ k' < k, Phase L t i v x' k' := by
  cases h with
  | asked h hs hmatch hn hm hf hl => rw [hl] at hx; cases hx
  | refused h hs hmatch hn hpos he hr hrej hidx hf hl =>
    rw [hl] at hx
    cases hx
    rw [Exchange.deliver_leader hl h.follow.id draw, Option.some.injEq] at hd
    obtain ⟨e', q', a, hlt, hlead, hfind, hs', hp', hn', hm', hcap, happ, haidx, hqueue⟩ :=
      h.lead.reject h.find hs hn hpos he hr.sender hrej hidx
    rw [h.quiet, List.nil_append] at hqueue
    obtain ⟨hsent, hlink⟩ := h.respond hr draw hlead hfind hqueue hcap [] [a]
    rw [hsent, hf, List.nil_append] at hd
    subst hd
    refine ⟨_, ?_, .asked hlink hs' (hm'.trans hmatch) ?_ happ rfl rfl⟩
    · omega
    · rw [haidx]
      exact hn'
  | answered h hs hmatch hr hrej hshare hf hl =>
    rw [hl] at hx
    cases hx
    rw [Exchange.deliver_leader hl h.follow.id draw, Option.some.injEq] at hd
    obtain ⟨hc, hpend⟩ := confirmed_of_probe (e := r.index) hs hmatch
    obtain ⟨out, hsent, hlt, k, rfl, hphase⟩ := h.accept hr hrej hshare hc (by omega)
      (by simp [hf]) (List.forall_mem_nil _) (by rw [hpend]; exact List.nil_sublist _) draw
    rw [hsent] at hd
    subst hd
    refine ⟨_, ?_, hphase⟩
    have hle : 8 ^ (L.length - r.index) ≤ 8 ^ (L.length + 1) :=
      Nat.pow_le_pow_right (by decide) (by omega)
    simp only [Exchange.weight, hf, List.nil_append, List.map_nil, List.sum_nil]
    omega
  | flowing h hs hp hok hmatch happs hresps hwindow hdone =>
    obtain ⟨hr, hrej, hshare⟩ := hresps r (by rw [hx]; exact List.mem_cons_self)
    rw [Exchange.deliver_leader hx h.follow.id draw, Option.some.injEq] at hd
    obtain ⟨hc, hpend⟩ := confirmed_of_replicate (e := r.index) hs hp hok
    rw [hx] at hwindow
    obtain ⟨out, hsent, hlt, k, rfl, hphase⟩ := h.accept hr hrej hshare hc hmatch
      happs (fun r' hr' => hresps r' (by rw [hx]; exact List.mem_cons_of_mem _ hr'))
      (by rw [hpend]; exact sublist_dropWhile hwindow) draw
    rw [hsent] at hd
    subst hd
    refine ⟨_, ?_, hphase⟩
    simp only [Exchange.weight, hx, List.map_append, List.sum_append, List.map_cons, List.sum_cons]
    omega

/-- **One delivery** leaves less to do. -/
theorem Phase.deliver {k : Nat} (h : Phase L t i v x k) {side : Recipient} {draw : Nat} {x' : Exchange}
    (hd : x.deliver side draw = some x') : ∃ k' < k, Phase L t i v x' k' := by
  rcases Exchange.deliver_cases hd with ⟨m, rest, rfl, hx⟩ | ⟨r, rest, rfl, hx⟩
  · exact h.deliver_follower hx hd
  · exact h.deliver_leader hx hd

/-- **A whole run**: there are no more deliveries than the first phase allows. -/
theorem Phase.run {k : Nat} (h : Phase L t i v x k) {sched : List (Recipient × Nat)} {x' : Exchange}
    (hrun : x.run sched = some x') : ∃ k', sched.length + k' ≤ k ∧ Phase L t i v x' k' := by
  induction sched generalizing x k with
  | nil =>
    rw [Exchange.run, Option.some.injEq] at hrun
    subst hrun
    exact ⟨k, by simp, h⟩
  | cons d rest ih =>
    obtain ⟨side, draw⟩ := d
    rw [Exchange.run] at hrun
    obtain ⟨x₁, hd, hrest⟩ := Option.bind_eq_some_iff.mp hrun
    obtain ⟨k₁, hlt, h₁⟩ := h.deliver hd
    obtain ⟨k', hle, h'⟩ := ih h₁ hrest
    exact ⟨k', by rw [List.length_cons]; omega, h'⟩

/-- With nothing under way the follower has the whole log. -/
theorem Phase.repaired {k : Nat} (h : Phase L t i v x k) (hf : x.toFollower = [])
    (hl : x.toLeader = []) : x.Repaired ∧ x.leader.node.log_.logical = L := by
  cases h with
  | asked h _ _ _ _ hf' => rw [hf'] at hf; cases hf
  | refused h _ _ _ _ _ _ _ _ _ hl' => rw [hl'] at hl; cases hl
  | answered h _ _ _ _ _ _ hl' => rw [hl'] at hl; cases hl
  | flowing h hs hp hok hmatch happs hresps hwindow hdone =>
    obtain ⟨hend, hle, hshare⟩ := hdone hl hf
    have hlast : x.leader.node.log_.lastIndex = L.length := by
      rw [h.lead.wf.lastIndex_eq, h.lead.logical]
    refine ⟨⟨?_, ?_⟩, h.lead.logical⟩
    · rw [h.follow.id, h.find, Option.map_some, hend, hlast]
    · intro k hk hkl
      rw [hlast] at hkl
      rw [List.take_length] at hshare
      have hlen := hshare.length_le
      rw [h.follow.wf.entryAt_eq hk (by rw [h.follow.logical]; omega),
        h.lead.wf.entryAt_eq hk (by rw [h.lead.logical]; exact hkl), h.follow.logical,
        h.lead.logical]
      obtain ⟨more, rfl⟩ := hshare
      rw [List.getElem?_append_left (by omega)]

/-- What is under way can be delivered, until nothing is left. -/
theorem Phase.ends {k : Nat} (h : Phase L t i v x k) :
    ∃ sched x', x.run sched = some x' ∧ x'.toFollower = [] ∧ x'.toLeader = [] := by
  induction k using Nat.strongRecOn generalizing x with
  | ind k ih =>
    have hgo : ∀ {side : Recipient} {x₁ : Exchange}, x.deliver side 0 = some x₁ →
        ∃ sched x', x.run sched = some x' ∧ x'.toFollower = [] ∧ x'.toLeader = [] := by
      intro side x₁ hd
      obtain ⟨k₁, hlt, h₁⟩ := h.deliver hd
      obtain ⟨sched, x', hrun, hquiet⟩ := ih k₁ hlt h₁
      exact ⟨(side, 0) :: sched, x', by rw [Exchange.run, hd]; exact hrun, hquiet⟩
    cases hf : x.toFollower with
    | cons m rest => exact hgo (Exchange.deliver_follower hf rfl 0)
    | nil =>
      cases hl : x.toLeader with
      | cons r rest => exact hgo (Exchange.deliver_leader hl rfl 0)
      | nil => exact ⟨[], x, rfl, hf, hl⟩

end Deliveries

/-! ## The start of the exchange -/

/-- The node of `p` has just become leader, `n` is what it was before, and `v` is a voter. -/
structure Peer.JustElected (p : Peer) (n : RawNode) (v : NodeId) : Prop extends p.Idle where
  node : p.node = n.becomeLeader
  wf : n.log_.WF
  term : n.term_ ≠ 0
  committed : n.log_.committed_ ≤ n.log_.lastIndex
  voter : v ∈ n.voters_
  other : v ≠ n.id_
  quiet : appsTo v n.msgs_ = []

section Start

variable {n : RawNode} {v : NodeId} {p : Peer}

/-- The log of a new leader: either it is empty, or its last entry is the unstored no-op. -/
theorem elected_readable (hwf : n.log_.WF) (hterm : n.term_ ≠ 0)
    (hcom : n.log_.committed_ ≤ n.log_.lastIndex) :
    n.elected.log_.WF ∧ n.elected.log_.Sliceable ∧
      n.log_.lastIndex ≤ n.elected.log_.logical.length := by
  have hlast := hwf.lastIndex_eq
  rw [elected_log]
  split_ifs with hge
  · let noop : Entry := { term := n.term_, index := n.log_.lastIndex + 1, type := .normal }
    rcases hwf.append_one (e := noop) rfl hterm with ⟨-, hlt⟩ | ⟨hwf', hlog, hst, -⟩
    · omega
    · refine ⟨hwf', ?_, by rw [hlog, List.length_append]; omega⟩
      have hne : (n.log_.append [noop]).2.unstable_.entries_ ≠ [] := by
        rcases RaftLog.append_one_cases n.log_ noop with ⟨-, hlt⟩ | ⟨heq, -⟩
        · dsimp only [noop] at hlt
          omega
        · rw [heq, hwf.unstable_append_one (e := noop) rfl]
          exact List.append_ne_nil_of_right_ne_nil _ (List.cons_ne_nil _ _)
      have hwin := hwf'.window
      rw [← WriteAheadLog.lastIndex_eq] at hwin
      refine Or.inr ?_
      rw [if_neg hne]
      exact Nat.le_trans hwin (Nat.le_max_right _ _)
  · exact ⟨hwf, Or.inl (by omega), by omega⟩

theorem elected_msgs (n : RawNode) : n.elected.msgs_ = n.msgs_ := by
  unfold RawNode.elected
  dsimp only
  split <;> rfl

/-- **The first round** of a new leader leaves its first append under way. -/
theorem Peer.JustElected.phase (h : p.JustElected n v) (hroom : 1 ≤ n.maxInflightMsgs_)
    {F : List Entry} {follower : Peer}
    (hf : Follow p.node.log_.logical n.term_ n.id_ v F follower) :
    ∃ k, Phase p.node.log_.logical n.term_ n.id_ v (Exchange.start p follower) k := by
  obtain ⟨hwf, hok, hlen⟩ := elected_readable h.wf h.term h.committed
  obtain ⟨hrole, hterm, hid, -⟩ := elected_office n
  have hdisp : Dispatched n.elected p.node := by
    rw [h.node]
    exact becomeLeader_dispatched n
  have hlead : Lead p.node.log_.logical n.term_ n.id_ v n.elected :=
    ⟨hrole, hterm, hid, h.other, hwf, by rw [hdisp.log], hok⟩
  -- the progress of the follower is the fresh one
  let q := (Progress.new n.maxInflightMsgs_ (v ∈ n.learners_)).reset n.log_.lastIndex
  have hfind : n.elected.pr_.find? v = some q := by
    rw [find_elected n h.other, find_resetProgress n h.other, if_pos h.voter]
  obtain ⟨n₁, hbefore, hafter⟩ := broadcastAppend_split
    ((OrderedMap.mem_keys_iff _).mpr ⟨q, hfind⟩) (by rw [hid]; exact h.other)
  obtain ⟨m, hm, hidx, hfind', hqueue⟩ :=
    (hlead.dispatched hbefore.toDispatched).sendAppend_probe (hbefore.find.trans hfind) rfl rfl
      (e := n.log_.lastIndex) rfl (by rw [hdisp.log]; exact hlen)
  rw [hbefore.apps, elected_msgs, h.quiet, List.nil_append] at hqueue
  have hnode : p.node = n.elected.broadcastAppend := h.node
  have hmsgs : appsTo v p.node.msgs_ = [m] := by
    rw [hnode, hafter.apps, hqueue]
  have hlead' := hlead.dispatched hdisp
  obtain ⟨hsent, hidle, l', hset, heq⟩ := Peer.processReady_spec h.toIdle hlead'.wf
  have hlinked : Linked p.node.log_.logical n.term_ n.id_ v F { q with paused := true }
      (Exchange.start p follower) := by
    refine ⟨hidle, ?_, ?_, ?_, hf, ?_⟩
    · unfold Exchange.start
      rw [heq]
      exact ⟨hlead'.role, hlead'.term, hlead'.id, hlead'.other, hset.wf, hset.logical,
        hset.sliceable hlead'.sliceable⟩
    · unfold Exchange.start
      rw [heq]
      change p.node.pr_.find? v = _
      rw [hnode, hafter.find, hfind']
    · unfold Exchange.start
      rw [heq]
      rfl
    · simpa [q, Progress.new, Progress.reset, Inflights.new, Inflights.reset] using hroom
  refine ⟨_, .asked hlinked rfl rfl (m := m) ?_ hm ?_ rfl⟩
  · rw [hidx]
    rfl
  · unfold Exchange.start
    rw [hf.id, hsent, hmsgs]

end Start

/-- **Log repair converges.** Whatever the sizes of the messages and in whatever order the two
sides are served, there are finitely many deliveries, and when nothing is under way any more the
follower has the leader's whole log and the leader knows it. -/
theorem log_repair_converges {n : RawNode} {v : NodeId} {leader follower : Peer} {F : List Entry}
    (hl : leader.JustElected n v) (hroom : 1 ≤ n.maxInflightMsgs_)
    (hf : Follow leader.node.log_.logical n.term_ n.id_ v F follower) :
    (∃ bound, ∀ sched x, (Exchange.start leader follower).run sched = some x →
      sched.length ≤ bound ∧
        (x.toFollower = [] → x.toLeader = [] →
          x.Repaired ∧ x.leader.node.log_.logical = leader.node.log_.logical)) ∧
    ∃ sched x, (Exchange.start leader follower).run sched = some x ∧
      x.toFollower = [] ∧ x.toLeader = [] := by
  obtain ⟨k, hphase⟩ := hl.phase hroom hf
  refine ⟨⟨k, fun sched x hrun => ?_⟩, hphase.ends⟩
  obtain ⟨k', hle, hphase'⟩ := hphase.run hrun
  exact ⟨by omega, hphase'.repaired⟩

/-- A node of a pair that restarts in term 3 with one stored entry of an earlier term. It sends one
entry in a message, and `window` messages at once. -/
def restarted (id : NodeId) (window term : Nat) : Peer :=
  Peer.start
    { id := id, peers := [1, 2], electionTick := 1, maxInflightMsgs := window, maxSizePerMsg := 1 }
    (((WriteAheadLog.fresh ⟨[1, 2], []⟩).saveHardState { term := 3 }).appendNoSync
      [{ term := term, index := 1, data := [7, 7] }]) 1

/-- Node 1 of the pair as the leader of term 3. -/
def restartedLeader (window : Nat) : Peer :=
  { restarted 1 window 1 with node := (restarted 1 window 1).node.becomeLeader }

theorem restarted_wf (id : NodeId) (window : Nat) {term : Nat} (ht : term ≠ 0) :
    (restarted id window term).node.log_.WF := by
  have hstored : Indexed (restarted id window term).node.log_.storage_.stored :=
    indexed_nil.snoc rfl ht
  exact (RaftLog.wf_new (List.cons_ne_nil _ _) rfl hstored).1

theorem restartedLeader_justElected {window : Nat} (hw : window ∈ [0, 1]) :
    (restartedLeader window).JustElected (restarted 1 window 1).node 2 := by
  have hidle : ∀ window ∈ [0, 1], (restartedLeader window).node.lastReadyLastIndex_ = 0 ∧
      (restartedLeader window).node.lastReadyApplied_ = 0 := by decide
  exact {
    ready := rfl
    last := (hidle window hw).1
    applied := (hidle window hw).2
    node := by rw [restartedLeader]
    wf := restarted_wf 1 window Nat.one_ne_zero
    term := Nat.succ_ne_zero 2
    committed := Nat.zero_le _
    voter := List.mem_cons_of_mem _ List.mem_cons_self
    other := Nat.succ_ne_self 1
    quiet := rfl }

/-- Node 2 has another entry at index 1. -/
theorem restarted_follow {window : Nat} (hw : window ∈ [0, 1]) :
    Follow (restartedLeader window).node.log_.logical 3 1 2
      [{ term := 2, index := 1, data := [7, 7] }] (restarted 2 window 2) := by
  have hlog : ∀ window ∈ [0, 1], (restartedLeader window).node.log_.logical =
      [{ term := 1, index := 1, data := [7, 7] }, { term := 3, index := 2 }] := by decide
  exact {
    ready := rfl
    last := rfl
    applied := rfl
    role := rfl
    term := rfl
    id := rfl
    wf := restarted_wf 2 window (Nat.succ_ne_zero 1)
    logical := rfl
    persisted := rfl
    matching := by
      rw [hlog window hw]
      intro k hk _ ht
      match k, hk with
      | 0, _ => rfl
      | 1, _ => exact absurd ht (by decide)
    commit := ⟨Nat.zero_le _, List.nil_prefix⟩
    quiet := rfl }

theorem log_repair_converges_restarted :
    (restartedLeader 1).JustElected (restarted 1 1 1).node 2 ∧
      ∃ sched x, (Exchange.start (restartedLeader 1) (restarted 2 1 2)).run sched = some x ∧
        x.Repaired := by
  have hl := restartedLeader_justElected (show 1 ∈ [0, 1] by decide)
  obtain ⟨⟨_, hruns⟩, sched, x, hrun, hf, ht⟩ :=
    log_repair_converges hl (Nat.le_refl 1) (restarted_follow (by decide))
  exact ⟨hl, sched, x, hrun, ((hruns sched x hrun).2 hf ht).1⟩

/-- A leader that may have no message under way stops after the first entry that the follower
accepts: node 1 with its two entries, and the other entry of node 2. -/
theorem empty_window_stops_repair :
    (restartedLeader 0).JustElected (restarted 1 0 1).node 2 ∧
      Follow (restartedLeader 0).node.log_.logical 3 1 2
        [{ term := 2, index := 1, data := [7, 7] }] (restarted 2 0 2) ∧
      ∃ x, (Exchange.start (restartedLeader 0) (restarted 2 0 2)).run
        [(.follower, 0), (.leader, 0), (.follower, 0), (.leader, 0)] = some x ∧
        x.toFollower = [] ∧ x.toLeader = [] ∧ ¬ x.Repaired := by
  refine ⟨restartedLeader_justElected (by decide), restarted_follow (by decide), ?_⟩
  let out := (Exchange.start (restartedLeader 0) (restarted 2 0 2)).run
    [(.follower, 0), (.leader, 0), (.follower, 0), (.leader, 0)]
  have hsome : out.isSome = true := by decide +kernel
  obtain ⟨x, hx⟩ := Option.isSome_iff_exists.mp hsome
  have hend : ∀ x ∈ out, x.toFollower = [] ∧ x.toLeader = [] ∧
      (x.leader.node.pr_.find? x.follower.node.id_).map Progress.matchIndex ≠
        some x.leader.node.log_.lastIndex := by decide +kernel
  obtain ⟨hf, hl, hmatch⟩ := hend x hx
  exact ⟨x, hx, hf, hl, fun h => hmatch h.1⟩

end NexusLOB.Raft
