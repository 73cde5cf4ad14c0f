import NexusLOB.Raft.FollowerAppend
import NexusLOB.Raft.HeartbeatResp
import NexusLOB.Raft.Inflights
import NexusLOB.Raft.Persisting
import NexusLOB.Raft.Slices

/-!
# Appends and their answers

The two halves of replication to one peer, seen apart from everything else the nodes do. A leader
sends appends out of its log, at most one at a time to a peer it probes and no more than the
in-flight window holds to a peer that replicates. A follower that has persisted its log accepts an
append exactly if it holds the entry before the new ones, and what the two logs share only grows.
-/

namespace NexusLOB.Raft

open Collections Consensus

/-! ## What a leader sends to one peer -/

/-- The appends to `v` among the messages. -/
def appsTo (v : NodeId) (ms : List Message) : List Message :=
  ms.filter fun m => decide (m.type = .msgApp ∧ m.receiver = v)

/-- The answers to appends that go to `i`. -/
def respsTo (i : NodeId) (ms : List Message) : List Message :=
  ms.filter fun m => decide (m.type = .msgAppResp ∧ m.receiver = i)

/-- The last index that an append brings its receiver to. -/
def Message.ack (m : Message) : Nat := m.index + m.entries.length

/-- An append of the leader `i` of term `t` to `v`, out of the log `L`. -/
structure IsApp (L : List Entry) (t : Nat) (i v : NodeId) (m : Message) : Prop where
  type : m.type = .msgApp
  receiver : m.receiver = v
  sender : m.sender = i
  term : m.term = t
  index_le : m.index ≤ L.length
  logTerm : m.logTerm = termAt Entry.term L m.index
  entries : m.entries <+: L.drop m.index

theorem IsApp.ack_le {L : List Entry} {t : Nat} {i v : NodeId} {m : Message}
    (h : IsApp L t i v m) : m.ack ≤ L.length := by
  have hlen := h.entries.length_le
  have hidx := h.index_le
  rw [List.length_drop] at hlen
  unfold Message.ack
  omega

/-- The leader `i` of term `t` with the log `L`, which it can read, and a peer `v`. -/
structure Lead (L : List Entry) (t : Nat) (i v : NodeId) (n : RawNode) : Prop where
  role : n.role_ = .leader
  term : n.term_ = t
  id : n.id_ = i
  other : v ≠ i
  wf : n.log_.WF
  logical : n.log_.logical = L
  sliceable : n.log_.Sliceable

/-- `n'` is `n` after it sent to other peers than `v`. -/
structure Passes (v : NodeId) (n n' : RawNode) : Prop extends Dispatched n n' where
  find : n'.pr_.find? v = n.pr_.find? v
  apps : appsTo v n'.msgs_ = appsTo v n.msgs_

section Sends

variable {L : List Entry} {t : Nat} {i v : NodeId} {n n' n'' : RawNode} {q : Progress}

theorem appsTo_append (v : NodeId) (ms ms' : List Message) :
    appsTo v (ms ++ ms') = appsTo v ms ++ appsTo v ms' := List.filter_append ..

theorem appsTo_append_of_none {ms x : List Message}
    (h : ∀ a ∈ x, ¬ (a.type = .msgApp ∧ a.receiver = v)) : appsTo v (ms ++ x) = appsTo v ms := by
  have hnil : appsTo v x = [] := List.filter_eq_nil_iff.mpr fun a ha => by
    rw [decide_eq_true_iff]
    exact h a ha
  rw [appsTo_append, hnil, List.append_nil]

theorem Lead.dispatched (h : Lead L t i v n) (hd : Dispatched n n') : Lead L t i v n' where
  role := hd.role.trans h.role
  term := hd.term.trans h.term
  id := hd.id.trans h.id
  other := h.other
  wf := hd.log ▸ h.wf
  logical := hd.log ▸ h.logical
  sliceable := hd.log ▸ h.sliceable

theorem Passes.refl (v : NodeId) (n : RawNode) : Passes v n n := ⟨.refl n, rfl, rfl⟩

theorem Passes.trans (h : Passes v n n') (h' : Passes v n' n'') : Passes v n n'' :=
  ⟨h.toDispatched.trans h'.toDispatched, h'.find.trans h.find, h'.apps.trans h.apps⟩

theorem sendAppend_passes (n : RawNode) {w : NodeId} (hw : w ≠ v) :
    Passes v n (n.sendAppend w) := by
  have hdisp := sendAppend_dispatched n w
  have hpost := sendAppend_posted n w
  generalize n.sendAppend w = n' at hdisp hpost ⊢
  cases hpost with
  | silent => exact .refl v n
  | snapshot hp hm =>
    refine ⟨hdisp, OrderedMap.find?_modify_of_ne _ _ hw, appsTo_append_of_none fun a ha hc => ?_⟩
    rw [List.mem_singleton.mp ha, hm] at hc
    exact hw hc.2
  | append hp hp' hm =>
    refine ⟨hdisp, OrderedMap.find?_modify_of_ne _ _ hw, appsTo_append_of_none fun a ha hc => ?_⟩
    rw [List.mem_singleton.mp ha, hm] at hc
    exact hw hc.2

/-- The loop over the peers, before and after it comes to `v`. -/
theorem foldl_passes {ids : List NodeId} (hids : v ∉ ids) (n : RawNode) :
    Passes v n (ids.foldl (fun n id => if id = n.id_ then n else n.sendAppend id) n) := by
  induction ids generalizing n with
  | nil => exact .refl v n
  | cons w ids ih =>
    rw [List.mem_cons, not_or] at hids
    rw [List.foldl_cons]
    split
    · exact ih hids.2 n
    · exact (sendAppend_passes n (Ne.symm hids.1)).trans (ih hids.2 _)

/-- A broadcast sends to `v` once. -/
theorem broadcastAppend_split (hv : v ∈ n.pr_.keys) (hne : v ≠ n.id_) :
    ∃ n₁, Passes v n n₁ ∧ Passes v (n₁.sendAppend v) n.broadcastAppend := by
  obtain ⟨a, b, hsplit⟩ := List.append_of_mem hv
  have hnodup := n.pr_.keys_nodup
  rw [hsplit] at hnodup
  have hmid := List.nodup_middle.mp hnodup
  rw [List.nodup_cons, List.mem_append, not_or] at hmid
  have ha := foldl_passes hmid.1.1 n
  refine ⟨_, ha, ?_⟩
  unfold RawNode.broadcastAppend RawNode.forPeers
  rw [hsplit, List.foldl_append, List.foldl_cons, if_neg (by rw [ha.id]; exact hne)]
  exact foldl_passes hmid.1.2 _

/-- The append with the entries `ents` behind `prev`. -/
def RawNode.appFor (n : RawNode) (v : NodeId) (prev : Nat) (ents : List Entry) : Message :=
  { type := .msgApp, receiver := v, sender := n.id_, term := n.term_,
    logTerm := n.log_.term prev, index := prev, commit := n.log_.commitIndex, entries := ents }

theorem Lead.isApp (h : Lead L t i v n) {prev : Nat} {ents : List Entry} (hle : prev ≤ L.length)
    (hents : ents <+: L.drop prev) : IsApp L t i v (n.appFor v prev ents) where
  type := rfl
  receiver := rfl
  sender := h.id
  term := h.term
  index_le := hle
  logTerm := by
    rw [← h.logical]
    exact h.wf.term_eq (by rw [h.logical]; exact hle)
  entries := hents

/-- What `sendAppend` does for a peer that is ready for it. -/
theorem Lead.sendAppend_eq (h : Lead L t i v n) (hq : n.pr_.find? v = some q)
    (hs : q.state ≠ .snapshot) (hp : q.paused = false) {e : Nat} (hn : q.nextIndex = e + 1)
    (he : e ≤ L.length) : ∃ ents, ents <+: L.drop e ∧ (e < L.length → ents ≠ []) ∧
      n.sendAppend v = if ents = [] ∧ q.state ≠ .probe then n else
        match RawNode.afterAppend q ents with
        | none => n
        | some q' => { n with pr_ := n.pr_.modify v fun _ => q' }.send (n.appFor v e ents) := by
  have hlen : n.log_.logical.length = L.length := by rw [h.logical]
  obtain ⟨ents, hslice, hpre, hne⟩ := h.wf.slice_rest h.sliceable
    (show 1 ≤ e + 1 by omega) (by omega) n.maxSizePerMsg_
  rw [Nat.add_sub_cancel, h.logical] at hpre
  refine ⟨ents, hpre, fun hlt => hne (by omega), ?_⟩
  unfold RawNode.sendAppend
  rw [hq]
  dsimp only
  rw [if_neg (by rw [hp]; decide), if_neg hs, hn, if_neg (by rw [h.wf.firstIndex_eq]; omega), hslice]
  rfl

theorem appsTo_appFor (ms : List Message) (v : NodeId) (prev : Nat) (ents : List Entry) :
    appsTo v (ms ++ [n.appFor v prev ents]) = appsTo v ms ++ [n.appFor v prev ents] := by
  rw [appsTo_append]
  congr 1
  exact List.filter_cons_of_pos (decide_eq_true ⟨rfl, rfl⟩)

/-- A probed peer that is not paused is sent one append and paused. -/
theorem Lead.sendAppend_probe (h : Lead L t i v n) (hq : n.pr_.find? v = some q)
    (hs : q.state = .probe) (hp : q.paused = false) {e : Nat} (hn : q.nextIndex = e + 1)
    (he : e ≤ L.length) : ∃ m, IsApp L t i v m ∧ m.index = e ∧
      (n.sendAppend v).pr_.find? v = some { q with paused := true } ∧
      appsTo v (n.sendAppend v).msgs_ = appsTo v n.msgs_ ++ [m] := by
  obtain ⟨ents, hpre, -, heq⟩ := h.sendAppend_eq hq (by rw [hs]; decide) hp hn he
  have hafter : RawNode.afterAppend q ents = some { q with paused := true } := by
    unfold RawNode.afterAppend
    simp only [hs, Option.map_some, if_pos]
  rw [if_neg fun hc => hc.2 hs, hafter] at heq
  refine ⟨n.appFor v e ents, h.isApp he hpre, rfl, ?_, ?_⟩
  · rw [heq]
    refine (OrderedMap.find?_modify_self _ _ _).trans ?_
    rw [hq]
    rfl
  · rw [heq]
    exact appsTo_appFor _ _ _ _

/-- From `n` to `n'` the leader sent `out` to `v`, a peer that replicates and is to get the entries
behind `e` next. -/
structure Pumped (L : List Entry) (t : Nat) (i v : NodeId) (e : Nat) (n : RawNode) (q : Progress)
    (n' : RawNode) (q' : Progress) (out : List Message) : Prop where
  dispatched : Dispatched n n'
  find : n'.pr_.find? v = some q'
  progress : q' = { q with inflights := q'.inflights }
  ok : q'.inflights.Ok
  capacity : q'.inflights.buffer_.length = q.inflights.buffer_.length
  queue : appsTo v n'.msgs_ = appsTo v n.msgs_ ++ out
  apps : ∀ m ∈ out, IsApp L t i v m ∧ m.index = e ∧ m.entries ≠ []
  pending : q'.inflights.pending = q.inflights.pending ++ out.map Message.ack

theorem Pumped.refl (e : Nat) (hq : n.pr_.find? v = some q) (hok : q.inflights.Ok) :
    Pumped L t i v e n q n q [] where
  dispatched := .refl n
  find := hq
  progress := rfl
  ok := hok
  capacity := rfl
  queue := (List.append_nil _).symm
  apps := fun _ hm => absurd hm List.not_mem_nil
  pending := (List.append_nil _).symm

theorem Pumped.trans {e : Nat} {q' q'' : Progress} {out out' : List Message}
    (h : Pumped L t i v e n q n' q' out) (h' : Pumped L t i v e n' q' n'' q'' out') :
    Pumped L t i v e n q n'' q'' (out ++ out') where
  dispatched := h.dispatched.trans h'.dispatched
  find := h'.find
  progress := by
    rw [h'.progress]
    conv_lhs => rw [h.progress]
  ok := h'.ok
  capacity := h'.capacity.trans h.capacity
  queue := by rw [h'.queue, h.queue, List.append_assoc]
  apps := by
    intro m hm
    rcases List.mem_append.mp hm with hm | hm
    · exact h.apps m hm
    · exact h'.apps m hm
  pending := by rw [h'.pending, h.pending, List.append_assoc, List.map_append]

/-- Sending to others around it changes nothing for `v`. -/
theorem Passes.pumped {e : Nat} {n₁ n₂ : RawNode} {q' : Progress} {out : List Message}
    (ha : Passes v n n₁) (h : Pumped L t i v e n₁ q n₂ q' out) (hb : Passes v n₂ n') :
    Pumped L t i v e n q n' q' out where
  dispatched := (ha.toDispatched.trans h.dispatched).trans hb.toDispatched
  find := hb.find.trans h.find
  progress := h.progress
  ok := h.ok
  capacity := h.capacity
  queue := by rw [hb.apps, h.queue, ha.apps]
  apps := h.apps
  pending := h.pending

/-- The last of the entries sent carries the index that the answer will. -/
theorem Lead.index_of_getLast (h : Lead L t i v n) {e : Nat} {ents : List Entry} {en : Entry}
    (hpre : ents <+: L.drop e) (hen : ents.getLast? = some en) : en.index = e + ents.length := by
  have hcont : Continues e ents := by
    refine continues_of_slice ?_ hpre
    rw [← h.logical]
    exact h.wf.logical
  rw [List.getLast?_eq_getElem?] at hen
  have hlt := (List.getElem?_eq_some_iff.mp hen).1
  have hindex := (hcont _ _ hen).1
  omega

/-- A replicating peer is sent the next entries, unless there are none or the window is full. -/
theorem Lead.sendAppend_replicate (h : Lead L t i v n) (hq : n.pr_.find? v = some q)
    (hs : q.state = .replicate) (hp : q.paused = false) {e : Nat} (hn : q.nextIndex = e + 1)
    (he : e ≤ L.length) (hok : q.inflights.Ok) : ∃ q' out,
      Pumped L t i v e n q (n.sendAppend v) q' out ∧ out.length ≤ 1 ∧
        (out = [] → e = L.length ∨ q'.inflights.full = true) := by
  obtain ⟨ents, hpre, hne, heq⟩ := h.sendAppend_eq hq (by rw [hs]; decide) hp hn he
  by_cases hnil : ents = []
  · rw [if_pos ⟨hnil, by rw [hs]; decide⟩] at heq
    refine ⟨q, [], ?_, Nat.zero_le _, fun _ => Or.inl ?_⟩
    · rw [heq]
      exact .refl e hq hok
    · by_contra hlt
      exact hne (by omega) hnil
  rw [if_neg fun hc => hnil hc.1] at heq
  cases hfull : q.inflights.full with
  | true =>
    rw [afterAppend_eq_none.mpr ⟨hs, hnil, hfull⟩] at heq
    refine ⟨q, [], ?_, Nat.zero_le _, fun _ => Or.inr hfull⟩
    rw [heq]
    exact .refl e hq hok
  | false =>
    obtain ⟨en, hen⟩ : ∃ en, ents.getLast? = some en := ⟨_, List.getLast?_eq_getLast_of_ne_nil hnil⟩
    have hack : en.index = e + ents.length := h.index_of_getLast hpre hen
    obtain ⟨f', hadd, hok', hcap, hpend⟩ := hok.add hfull en.index
    have hafter : RawNode.afterAppend q ents = some { q with inflights := f' } := by
      unfold RawNode.afterAppend
      simp only [hs, hen, hadd, Option.map_some, reduceCtorEq, if_false]
    rw [hafter] at heq
    refine ⟨{ q with inflights := f' }, [n.appFor v e ents], ?_, Nat.le_refl 1,
      fun hf => absurd hf (List.cons_ne_nil _ _)⟩
    rw [heq]
    refine
      { dispatched := (dispatched_modify hq rfl (afterAppend_sent hafter _)).trans
          (send_dispatched _ _)
        find := ?_
        progress := rfl
        ok := hok'
        capacity := hcap
        queue := appsTo_appFor _ _ _ _
        apps := ?_
        pending := ?_ }
    · refine (OrderedMap.find?_modify_self _ _ _).trans ?_
      rw [hq]
      rfl
    · intro m hm
      rw [List.mem_singleton.mp hm]
      exact ⟨h.isApp he hpre, rfl, hnil⟩
    · rw [hpend, hack]
      rfl

/-- A broadcast does the same for `v` as sending to it alone. -/
theorem Lead.broadcastAppend_replicate (h : Lead L t i v n) (hq : n.pr_.find? v = some q)
    (hs : q.state = .replicate) (hp : q.paused = false) {e : Nat} (hn : q.nextIndex = e + 1)
    (he : e ≤ L.length) (hok : q.inflights.Ok) : ∃ q' out,
      Pumped L t i v e n q n.broadcastAppend q' out ∧ out.length ≤ 1 := by
  obtain ⟨n₁, ha, hb⟩ := broadcastAppend_split (n.pr_.mem_keys_iff.mpr ⟨q, hq⟩)
    (by rw [h.id]; exact h.other)
  obtain ⟨q', out, hpump, hout, -⟩ := (h.dispatched ha.toDispatched).sendAppend_replicate
    (ha.find.trans hq) hs hp hn he hok
  exact ⟨q', out, ha.pumped hpump hb, hout⟩

end Sends

/-! ## What a leader does with an answer -/

section Answers

variable {L : List Entry} {t : Nat} {i v : NodeId} {n : RawNode} {q : Progress} {m : Message}

theorem Lead.step_appResp (h : Lead L t i v n) (hty : m.type = .msgAppResp) (ht : m.term = t)
    (draw : Nat) : n.step m draw = n.stepLeaderAppResp m := by
  have hterm : m.term = n.term_ := by rw [ht, h.term]
  simp only [RawNode.step, hty, raiseTerm_of_le hterm.le, RawNode.dispatch, h.role,
    RawNode.stepLeader, hterm, Nat.lt_irrefl, if_false]

/-- Only the commit index may change. -/
theorem Lead.maybeCommit (h : Lead L t i v n) : Lead L t i v n.maybeCommit.2 := by
  obtain ⟨k, heq⟩ := maybeCommit_eq n
  obtain ⟨hwf, hlog⟩ := h.wf.of_logical_eq { n.log_ with committed_ := k } rfl rfl
  rw [heq]
  exact ⟨h.role, h.term, h.id, h.other, hwf, hlog.trans h.logical, h.sliceable⟩

theorem maybeCommit_msgs (n : RawNode) : n.maybeCommit.2.msgs_ = n.msgs_ := by
  obtain ⟨k, heq⟩ := maybeCommit_eq n
  rw [heq]

/-- What an accept makes of the progress of a peer that was probed for the first time or
replicates. -/
structure Confirmed (e : Nat) (q q₁ : Progress) : Prop where
  state : q₁.state = .replicate
  paused : q₁.paused = false
  nextIndex : q₁.nextIndex = e + 1
  matchIndex : q₁.matchIndex = max q.matchIndex e
  ok : q₁.inflights.Ok
  capacity : q₁.inflights.buffer_.length = q.inflights.buffer_.length

theorem confirmed_of_probe {e : Nat} (hs : q.state = .probe) (hm : q.matchIndex = 0) :
    Confirmed e q (RawNode.acceptProgress e q) ∧
      (RawNode.acceptProgress e q).inflights.pending = [] := by
  have heq : RawNode.acceptProgress e q =
      Progress.becomeReplicate { q with matchIndex := max q.matchIndex e } := by
    unfold RawNode.acceptProgress Progress.update
    simp only [hs, reduceCtorEq, if_false, if_true]
  rw [heq]
  refine ⟨⟨rfl, rfl, ?_, rfl, Inflights.ok_reset _, rfl⟩, Inflights.pending_reset _⟩
  change max q.matchIndex e + 1 = e + 1
  rw [hm, Nat.zero_max]

theorem confirmed_of_replicate {e : Nat} (hs : q.state = .replicate) (hp : q.paused = false)
    (hok : q.inflights.Ok) : Confirmed e q (RawNode.acceptProgress e q) ∧
      (RawNode.acceptProgress e q).inflights.pending =
        q.inflights.pending.dropWhile fun x => decide (x ≤ e) := by
  have heq : RawNode.acceptProgress e q =
      { q with
        matchIndex := max q.matchIndex e
        nextIndex := e + 1
        inflights := q.inflights.freeTo e } := by
    unfold RawNode.acceptProgress Progress.update
    simp only [hs, reduceCtorEq, if_false, if_true]
  obtain ⟨hok', hcap, hpend⟩ := hok.freeTo e
  rw [heq]
  exact ⟨⟨hs, hp, rfl, rfl, hok', hcap⟩, hpend⟩

/-- The leader hears that `v` holds its log up to `e`. -/
theorem Lead.accept (h : Lead L t i v n) (hq : n.pr_.find? v = some q) {e : Nat}
    (hc : Confirmed e q (RawNode.acceptProgress e q)) (he : e ≤ L.length) (hsender : m.sender = v)
    (hrej : m.reject = false) (hidx : m.index = e) : ∃ n₂ q' out,
      Lead L t i v n₂ ∧ n₂.msgs_ = n.msgs_ ∧
        Pumped L t i v e n₂ (RawNode.acceptProgress e q) (n.stepLeaderAppResp m) q' out ∧
        out.length ≤ 2 ∧ (out = [] → e = L.length ∨ q'.inflights.full = true) := by
  let n₁ : RawNode := { n with pr_ := n.pr_.modify v (RawNode.acceptProgress e) }
  have hlead₁ : Lead L t i v n₁ :=
    ⟨h.role, h.term, h.id, h.other, h.wf, h.logical, h.sliceable⟩
  have hfind₁ : n₁.pr_.find? v = some (RawNode.acceptProgress e q) := by
    refine (OrderedMap.find?_modify_self _ _ _).trans ?_
    rw [hq]
    rfl
  have hlead₂ := hlead₁.maybeCommit
  have hfind₂ : n₁.maybeCommit.2.pr_.find? v = some (RawNode.acceptProgress e q) := by
    rw [(maybeCommit_frame n₁).1]
    exact hfind₁
  -- the broadcast after a commit
  obtain ⟨n₃, q₃, out₃, hn₃, hpump₃, hout₃⟩ : ∃ n₃ q₃ out₃,
      (if n₁.maybeCommit.1 then n₁.maybeCommit.2.broadcastAppend else n₁.maybeCommit.2) = n₃ ∧
      Pumped L t i v e n₁.maybeCommit.2 (RawNode.acceptProgress e q) n₃ q₃ out₃ ∧
      out₃.length ≤ 1 := by
    split
    · obtain ⟨q', out, hpump, hout⟩ := hlead₂.broadcastAppend_replicate hfind₂ hc.state hc.paused
        hc.nextIndex he hc.ok
      exact ⟨_, q', out, rfl, hpump, hout⟩
    · exact ⟨_, _, [], rfl, .refl e hfind₂ hc.ok, Nat.zero_le _⟩
  have hsame := hpump₃.progress
  have hstate₃ : q₃.state = .replicate := by
    rw [hsame]
    exact hc.state
  have heq : n.stepLeaderAppResp m = n₃.sendAppend v := by
    unfold RawNode.stepLeaderAppResp
    rw [hsender, hq, hidx, hrej]
    simp only [Bool.false_eq_true, if_false, n₁] at hn₃ ⊢
    simp only [hn₃, hpump₃.find, if_pos hstate₃]
  obtain ⟨q', out, hpump, hout, hstop⟩ := (hlead₂.dispatched hpump₃.dispatched).sendAppend_replicate
    hpump₃.find hstate₃ (by rw [hsame]; exact hc.paused) (by rw [hsame]; exact hc.nextIndex) he
    hpump₃.ok
  refine ⟨n₁.maybeCommit.2, q', out₃ ++ out, hlead₂, maybeCommit_msgs n₁, ?_, ?_, ?_⟩
  · rw [heq]
    exact hpump₃.trans hpump
  · rw [List.length_append]
    omega
  · intro hnil
    exact hstop (List.append_eq_nil_iff.mp hnil).2

/-- The leader hears that `v`, which it probes at `e`, does not hold entry `e`. -/
theorem Lead.reject (h : Lead L t i v n) (hq : n.pr_.find? v = some q) (hs : q.state = .probe)
    {e : Nat} (hn : q.nextIndex = e + 1) (hpos : 1 ≤ e) (he : e ≤ L.length) (hsender : m.sender = v)
    (hrej : m.reject = true) (hidx : m.index = e) : ∃ e' q' a, e' < e ∧
      Lead L t i v (n.stepLeaderAppResp m) ∧ (n.stepLeaderAppResp m).pr_.find? v = some q' ∧
      q'.state = .probe ∧ q'.paused = true ∧ q'.nextIndex = e' + 1 ∧
      q'.matchIndex = q.matchIndex ∧
      q'.inflights.buffer_.length = q.inflights.buffer_.length ∧ IsApp L t i v a ∧ a.index = e' ∧
      appsTo v (n.stepLeaderAppResp m).msgs_ = appsTo v n.msgs_ ++ [a] := by
  let next := if m.rejectHint < e then m.rejectHint + 1 else e
  have hnext : 1 ≤ next ∧ next ≤ e := by
    unfold next
    split_ifs <;> omega
  have hprog : RawNode.rejectProgress m.index m.rejectHint q =
      { q with nextIndex := next, state := .probe, paused := false } := by
    unfold RawNode.rejectProgress Progress.maybeDecrFromRejectHint Progress.becomeProbe
    rw [hidx]
    simp only [hs, hn, Nat.add_sub_cancel, Nat.lt_irrefl, reduceCtorEq, if_false]
    rw [if_neg (Nat.not_lt.mpr hnext.1)]
  let n₁ : RawNode :=
    { n with pr_ := n.pr_.modify v (RawNode.rejectProgress m.index m.rejectHint) }
  have hlead₁ : Lead L t i v n₁ :=
    ⟨h.role, h.term, h.id, h.other, h.wf, h.logical, h.sliceable⟩
  have hfind₁ : n₁.pr_.find? v =
      some { q with nextIndex := next, state := .probe, paused := false } := by
    refine (OrderedMap.find?_modify_self _ _ _).trans ?_
    rw [hq, Option.map_some, hprog]
  have heq : n.stepLeaderAppResp m = n₁.sendAppend v := by
    unfold RawNode.stepLeaderAppResp
    rw [hsender, hq, hrej]
    rfl
  obtain ⟨a, happ, haidx, hfind, hqueue⟩ := hlead₁.sendAppend_probe hfind₁ rfl rfl
    (e := next - 1) (show next = next - 1 + 1 by omega) (by omega)
  rw [heq]
  exact ⟨next - 1, _, a, by omega, hlead₁.dispatched (sendAppend_dispatched _ _), hfind, rfl, rfl,
    (show next = next - 1 + 1 by omega), rfl, rfl, happ, haidx, hqueue⟩

end Answers

/-! ## One round of the Ready loop -/

namespace Peer

/-- `Server::processReady` without interruption: poll, store, send, advance. -/
def processReady (p : Peer) : Peer × List Message :=
  let p := (p.handle .poll).1
  let p := (p.handle .persistEntries).1
  let p := (p.handle .persistHardState).1
  let (p, sent) := p.handle .send
  ((p.handle .advance).1, sent)

/-- No `Ready` is under way. -/
structure Idle (p : Peer) : Prop where
  ready : p.ready = none
  last : p.node.lastReadyLastIndex_ = 0
  applied : p.node.lastReadyApplied_ = 0

variable {p : Peer}

/-- The node after the entries and the hard state of its `Ready` are stored. -/
def stored (p : Peer) : RawNode :=
  (saveHardState { p with node := p.node.poll.2.persist p.node.poll.1.entries }
    p.node.poll.1.hardState).node

theorem processReady_eq (h : p.ready = none) : p.processReady =
    ({ p with
       node := p.stored.advance
       delivered := p.delivered ++ p.node.poll.1.committedEntries }, p.node.msgs_) := by
  have hsave : ∀ (p : Peer) (hs : HardState), (p.saveHardState hs).config = p.config ∧
      (p.saveHardState hs).delivered = p.delivered := by
    intro p hs
    unfold saveHardState
    split_ifs <;> exact ⟨rfl, rfl⟩
  have hnode : ∀ (p : Peer) (hs : HardState) (rd : Option (Stage × Ready)) (del : List Entry),
      (saveHardState { p with ready := rd, delivered := del } hs).node =
        (p.saveHardState hs).node := by
    intro p hs rd del
    unfold saveHardState
    split_ifs <;> rfl
  unfold processReady
  simp only [handle, h, hsave]
  refine Prod.ext ?_ rfl
  simp only [mk.injEq, true_and]
  refine ⟨rfl, congrArg RawNode.advance ?_, rfl⟩
  exact hnode { p with node := p.node.poll.2.persist p.node.poll.1.entries } _ _ _

/-- What a round leaves of the log: the same entries, all of them stored. -/
structure Settled (l l' : RaftLog) : Prop where
  wf : l'.WF
  logical : l'.logical = l.logical
  committed : l'.committed_ = l.committed_
  persisted : l'.unstable_.entries_ = []
  sliceable : l.Sliceable → l'.Sliceable

/-- **A round of the Ready loop** sends what was queued and changes nothing of the node but where
the log is kept. -/
theorem processReady_spec (h : p.Idle) (hwf : p.node.log_.WF) :
    p.processReady.2 = p.node.msgs_ ∧ p.processReady.1.Idle ∧
      ∃ l', Settled p.node.log_ l' ∧ p.processReady.1.node =
        { p.node with
          log_ := l', msgs_ := [], readStates_ := []
          lastReadyLastIndex_ := 0, lastReadyApplied_ := 0 } := by
  let rd := p.node.poll.1
  have hpend : Pending p.node.poll.2 .persistEntries rd := pending_poll hwf h.last h.applied
  -- the entries are stored
  obtain ⟨hwf₂, hlog₂, hpend₂⟩ : (p.node.poll.2.persist rd.entries).log_.WF ∧
      (p.node.poll.2.persist rd.entries).log_.logical = p.node.log_.logical ∧
      Pending (p.node.poll.2.persist rd.entries) .persistHardState rd := by
    rcases hpend.persistEntries hwf with ⟨hnil, hp⟩ | ⟨l', rfl, hwf', hlog, -, hp⟩
    · rw [hnil]
      exact ⟨hwf, rfl, hp⟩
    · exact ⟨hwf', hlog, hp⟩
  -- then the hard state
  obtain ⟨st, hst, hstored⟩ : ∃ st : WriteAheadLog,
      p.stored = { p.node.poll.2 with log_ := { p.node.log_ with storage_ := st } } ∧
      RaftLog.WF { p.node.log_ with storage_ := st } ∧
      RaftLog.logical { p.node.log_ with storage_ := st } = p.node.log_.logical ∧
      Pending p.stored .persistHardState rd := by
    unfold stored saveHardState
    split
    · exact ⟨_, rfl, hwf₂.saveHardState _, hlog₂, ⟨hpend₂.entries, hpend₂.last, hpend₂.stored,
        hpend₂.applied, hpend₂.committed⟩⟩
    · exact ⟨_, rfl, hwf₂, hlog₂, hpend₂⟩
  obtain ⟨hwf₃, hlog₃, hpend₃⟩ := hstored
  obtain ⟨l', hwf', hlog', -, hcom, -, heq⟩ :=
    hpend₃.advance (by rw [hst]; exact hwf₃) (by decide)
  rw [processReady_eq h.ready]
  refine ⟨rfl, ⟨h.ready, by rw [heq], by rw [heq]⟩, l', ?_, ?_⟩
  · have hlogical : l'.logical = p.node.log_.logical := by rw [hlog', hst, hlog₃]
    have hlast : l'.lastIndex = p.node.log_.lastIndex := hwf.lastIndex_congr hwf' hlogical
    have hwin := hpend₃.advance_window (by rw [hst]; exact hwf₃)
    rw [heq, hst] at hwin
    change l'.unstable_ = if p.node.log_.unstable_.entries_ = [] then p.node.log_.unstable_ else
      { p.node.log_.unstable_ with
        entries_ := p.node.log_.unstable_.entries_.drop p.node.log_.unstable_.entries_.length
        offset_ := p.node.log_.unstable_.offset_ + p.node.log_.unstable_.entries_.length } at hwin
    refine ⟨hwf', hlogical, by rw [hcom, hst], ?_, ?_⟩
    · rw [hwin]
      split_ifs with hnil
      · exact hnil
      · exact List.drop_length
    · intro hok
      by_cases hnil : p.node.log_.unstable_.entries_ = []
      · rw [if_pos hnil] at hwin
        unfold RaftLog.Sliceable at hok ⊢
        rw [hlast, hwf'.firstIndex_eq, hwin, if_pos hnil]
        rw [hwf.firstIndex_eq, if_pos hnil] at hok
        exact hok
      · rw [if_neg hnil] at hwin
        have hend := RaftLog.lastIndex_of_window hnil
        have hpos := List.length_pos_iff.mpr hnil
        refine Or.inr ?_
        rw [hlast, hend, hwin, if_pos List.drop_length]
        dsimp only
        omega
  · rw [heq, hst]
    rfl

end Peer

/-! ## What a follower does with an append -/

/-- The log `F` has the entries of `L` up to `e`. -/
def Shares (L F : List Entry) (e : Nat) : Prop := e ≤ L.length ∧ L.take e <+: F

theorem Shares.mono {L F : List Entry} {e e' : Nat} (h : Shares L F e) (hle : e' ≤ e) :
    Shares L F e' := ⟨hle.trans h.1, (take_prefix_of_le hle).trans h.2⟩

theorem Shares.termAt_eq {L F : List Entry} {e : Nat} (h : Shares L F e) :
    termAt Entry.term F e = termAt Entry.term L e := by
  have hle := h.1
  rw [← termAt_eq_of_isPrefix h.2 (by rw [List.length_take]; omega), termAt_take le_rfl]

/-- A follower `v` of the leader `i` of term `t`, with the persisted log `F`. -/
structure Follow (L : List Entry) (t : Nat) (i v : NodeId) (F : List Entry) (p : Peer) : Prop
    extends p.Idle where
  role : p.node.role_ = .follower
  term : p.node.term_ = t
  id : p.node.id_ = v
  wf : p.node.log_.WF
  logical : p.node.log_.logical = F
  persisted : p.node.log_.unstable_.entries_ = []
  matching : Matches Entry.term F L
  commit : Shares L F p.node.log_.committed_
  quiet : respsTo i p.node.msgs_ = []

/-- An answer of the follower. -/
structure IsResp (t : Nat) (v : NodeId) (m : Message) : Prop where
  type : m.type = .msgAppResp
  sender : m.sender = v
  term : m.term = t

section Follow

variable {L F : List Entry} {t : Nat} {i v : NodeId} {p : Peer} {m : Message}

/-- A persisted log knows the terms of its entries and no others. -/
theorem Follow.term_eq (h : Follow L t i v F p) (k : Nat) :
    p.node.log_.term k = termAt Entry.term F k := by
  rw [h.wf.term_eq_stored (Or.inl h.persisted), ← RaftLog.logical_of_nil h.persisted, h.logical]

theorem Follow.accepts (h : Follow L t i v F p) (hL : Indexed L) (hm : IsApp L t i v m)
    (ht : p.node.log_.term m.index = m.logTerm) : p.node.log_.Accepts L m.index m.entries where
  wf := h.wf
  indexed := hL
  logical := by
    rw [h.logical]
    exact h.matching
  stored := by
    rw [← RaftLog.logical_of_nil h.persisted, h.logical]
    exact h.matching
  prev_le := hm.index_le
  entries := hm.entries
  term_prev := ht.trans hm.logTerm

/-- Where the terms agree, the follower holds the leader's log. -/
theorem Follow.holds (h : Follow L t i v F p) (hL : Indexed L) {k : Nat} (hk : k ≤ L.length)
    (ht : p.node.log_.term k = termAt Entry.term L k) : Shares L F k := by
  rw [h.term_eq] at ht
  have hle : k ≤ F.length := by
    rcases Nat.eq_zero_or_pos k with rfl | hpos
    · exact Nat.zero_le _
    · have hne : termAt Entry.term F k ≠ 0 := by
        rw [ht]
        exact hL.termAt_ne_zero hpos hk
      exact le_length_of_termAt_ne_zero hne
  refine ⟨hk, ?_⟩
  rw [← h.matching k hle hk ht]
  exact List.take_prefix _ _

/-- Where an append finds nothing to change, the follower has what it brings. -/
theorem Follow.shares_ack (h : Follow L t i v F p) (hL : Indexed L) (hm : IsApp L t i v m)
    (ht : p.node.log_.term m.index = m.logTerm) (hc : p.node.log_.findConflict m.entries = 0) :
    Shares L F m.ack := by
  have hacc := h.accepts hL hm ht
  have hall : ∀ j e, j < m.entries.length → m.entries[j]? = some e →
      p.node.log_.term (m.index + j + 1) = e.term := by
    intro j e _ he
    rcases RaftLog.findConflict_cases p.node.log_ hacc.continues with ⟨-, hall⟩ | ⟨k, e', -, hf, -⟩
    · exact hall j e he
    · omega
  exact h.holds hL hm.ack_le (hacc.term_before le_rfl hall)

/-- The log after an accepted append. -/
theorem Follow.reconcile (h : Follow L t i v F p) (hL : Indexed L) (hm : IsApp L t i v m)
    (ht : p.node.log_.term m.index = m.logTerm) :
    ∃ F', (p.node.log_.reconcile m.index m.entries).WF ∧
      (p.node.log_.reconcile m.index m.entries).logical = F' ∧ Matches Entry.term F' L ∧
      (∀ e, Shares L F e → Shares L F' e) ∧ Shares L F' m.ack := by
  have hacc := h.accepts hL hm ht
  obtain ⟨hwf, hrec⟩ := h.wf.reconcile hacc.continues hacc.prev_pos
  generalize hlog : (p.node.log_.reconcile m.index m.entries).logical = F' at hrec
  refine ⟨F', hwf, rfl, ?_⟩
  cases hrec with
  | same hc =>
    rw [h.logical]
    exact ⟨h.matching, fun e he => he, h.shares_ack hL hm ht hc⟩
  | cut _ _ hne => exact absurd h.persisted hne
  | cleared _ _ hne => exact absurd h.persisted hne
  | @ignored j e he hne hle =>
    -- up to the commit index there is nothing to disagree about
    refine absurd ?_ hne
    rw [h.term_eq, hacc.term_entry he]
    exact (h.commit.mono hle).termAt_eq
  | @stored j e base he hne hgt hbase hall =>
    have hj : j < m.entries.length := (List.getElem?_eq_some_iff.mp he).1
    rw [hacc.stored_eq hj hbase hall]
    refine ⟨matches_take _ _ _, fun k hk => ?_, hm.ack_le, List.prefix_rfl⟩
    refine ⟨hk.1, take_prefix_of_le ?_⟩
    -- the conflict lies above what the logs share
    by_contra hlt
    refine hne ?_
    rw [h.term_eq, hacc.term_entry he]
    exact (hk.mono (by omega)).termAt_eq

/-- The follower before it runs its loop. -/
theorem Follow.processReady (h : p.Idle) (hrole : p.node.role_ = .follower)
    (hterm : p.node.term_ = t) (hid : p.node.id_ = v) (hwf : p.node.log_.WF)
    (hlog : p.node.log_.logical = F) (hmatch : Matches Entry.term F L)
    (hcom : Shares L F p.node.log_.committed_) : Follow L t i v F p.processReady.1 := by
  obtain ⟨-, hidle, l', hset, hnode⟩ := Peer.processReady_spec h hwf
  refine { hidle with
    role := ?_, term := ?_, id := ?_, wf := ?_, logical := ?_, persisted := ?_
    matching := hmatch, commit := ?_, quiet := ?_ }
  all_goals rw [hnode]
  · exact hrole
  · exact hterm
  · exact hid
  · exact hset.wf
  · exact hset.logical.trans hlog
  · exact hset.persisted
  · change Shares L F l'.committed_
    rw [hset.committed]
    exact hcom
  · rfl

/-- An append of the leader is handled as a follower handles it. -/
theorem Follow.handle_app (h : Follow L t i v F p) (hm : IsApp L t i v m) (draw : Nat) :
    (p.handle (.step m draw)).1 = { p with node := p.node.stepFollowerApp m } := by
  have hterm : m.term = p.node.term_ := by rw [hm.term, h.term]
  have hstep : p.node.step m draw = p.node.stepFollowerApp m := by
    simp only [RawNode.step, hm.type, raiseTerm_of_le hterm.le, RawNode.dispatch, h.role,
      RawNode.stepFollower, hterm, Nat.lt_irrefl, if_false]
  simp only [Peer.handle, h.ready, hstep]

/-- **One append at the follower.** It is accepted exactly if the follower holds the log up to the
entry before the new ones, and what it holds only grows. -/
theorem Follow.step (h : Follow L t i v F p) (hL : Indexed L) (hm : IsApp L t i v m) (draw : Nat) :
    ∃ F' r, Follow L t i v F' (p.handle (.step m draw)).1.processReady.1 ∧
      respsTo i (p.handle (.step m draw)).1.processReady.2 = [r] ∧ IsResp t v r ∧
      (∀ e, Shares L F e → Shares L F' e) ∧
      (r.reject = false ∧ r.index = m.ack ∧ Shares L F' m.ack ∨
        r.reject = true ∧ r.index = m.index ∧ 1 ≤ m.index ∧ ¬ Shares L F m.index) := by
  rw [h.handle_app hm, stepFollowerApp_eq]
  -- the answer is the only one that goes to the leader
  have hsent : ∀ (p' : Peer) (r : Message), p'.Idle → p'.node.log_.WF →
      p'.node.msgs_ = p.node.msgs_ ++ [r] → r.type = .msgAppResp → r.receiver = i →
      respsTo i p'.processReady.2 = [r] := by
    intro p' r hidle hwf hmsgs hty hrec
    rw [(Peer.processReady_spec hidle hwf).1, hmsgs]
    refine (List.filter_append ..).trans ?_
    rw [show p.node.msgs_.filter (fun m => decide (m.type = .msgAppResp ∧ m.receiver = i)) = []
      from h.quiet, List.nil_append]
    exact List.filter_cons_of_pos (decide_eq_true ⟨hty, hrec⟩)
  by_cases ht : p.node.log_.term m.index = m.logTerm
  · obtain ⟨F', hwf, hlog, hmatch, hgrow, hheld⟩ := h.reconcile hL hm ht
    obtain ⟨hwf', hlog'⟩ := hwf.of_logical_eq
      { p.node.log_.reconcile m.index m.entries with
        committed_ := if m.commit > p.node.log_.committed_ then
          min m.commit (m.index + m.entries.length) else p.node.log_.committed_ } rfl rfl
    let r : Message :=
      { type := .msgAppResp, receiver := m.sender, sender := p.node.id_, term := p.node.term_,
        index := m.index + m.entries.length }
    rw [RaftLog.maybeAppend_of_eq ht]
    refine ⟨F', r, Follow.processReady ⟨h.ready, h.last, h.applied⟩ h.role h.term h.id hwf'
      (hlog'.trans hlog) hmatch ?_, ?_, ⟨rfl, h.id, h.term⟩, hgrow, Or.inl ⟨rfl, rfl, hheld⟩⟩
    · change Shares L F' (if m.commit > p.node.log_.committed_ then
        min m.commit (m.index + m.entries.length) else p.node.log_.committed_)
      split_ifs
      · exact hheld.mono (Nat.min_le_right _ _)
      · exact hgrow _ h.commit
    · exact hsent _ r ⟨h.ready, h.last, h.applied⟩ hwf' rfl rfl hm.sender
  · have hno : ¬ Shares L F m.index := by
      intro hheld
      apply ht
      rw [h.term_eq, hheld.termAt_eq, hm.logTerm]
    have hpos : 1 ≤ m.index := by
      by_contra h0
      obtain h0 : m.index = 0 := by omega
      exact hno ⟨by omega, by rw [h0]; exact List.nil_prefix⟩
    let r : Message :=
      { type := .msgAppResp, receiver := m.sender, sender := p.node.id_, term := p.node.term_,
        reject := true, index := m.index, rejectHint := p.node.log_.lastIndex }
    rw [RaftLog.maybeAppend_of_ne ht]
    refine ⟨F, r, Follow.processReady ⟨h.ready, h.last, h.applied⟩ h.role h.term h.id h.wf
      h.logical h.matching h.commit, ?_, ⟨rfl, h.id, h.term⟩, fun _ he => he,
      Or.inr ⟨rfl, rfl, hpos, hno⟩⟩
    exact hsent _ r ⟨h.ready, h.last, h.applied⟩ h.wf rfl rfl hm.sender

end Follow

end NexusLOB.Raft
