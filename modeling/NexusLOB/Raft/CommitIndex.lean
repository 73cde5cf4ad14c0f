import NexusLOB.Raft.Delivery
import NexusLOB.Raft.LogView

/-!
# The commit index

`applied_ ≤ committed_ ≤ lastIndex` and a commit index that never goes back, for a node that is
fed by correct peers, snapshots included. Four places of the source can break this, and the runs
considered here keep clear of them:

* an append without a conflict cuts the log below the commit index, or moves the commit index back
  to its own last entry, or takes stale stored entries beyond the end of the log for its own;
* an append with a conflict at or below the commit index stores nothing and commits all the same;
* a snapshot that arrives late sets the commit index back;
* `advance` releases stored entries while a snapshot is pending, which no `Ready` ever confirms,
  and the log falls back to that snapshot.
-/

namespace NexusLOB.Raft

/-- Entries put into the window make it end with them, whatever it was. -/
theorem LogUnstable.append_window (u : LogUnstable) (e : Entry) (rest : List Entry) :
    (u.append (e :: rest)).snapshot_ = u.snapshot_ ∧ (u.append (e :: rest)).entries_ ≠ [] ∧
      (u.append (e :: rest)).offset_ + (u.append (e :: rest)).entries_.length =
        e.index + rest.length + 1 := by
  unfold LogUnstable.append LogUnstable.truncateAndAppend
  dsimp only
  split_ifs with hnil
  · exact ⟨rfl, by simp, by simp; omega⟩
  · exact ⟨rfl, by simp, by simp; omega⟩
  · exact ⟨rfl, by simp, by simp; omega⟩
  · refine ⟨rfl, by simp, ?_⟩
    have hpos := List.length_pos_iff.mpr hnil
    simp only [List.length_append, List.length_take, List.length_cons]
    omega

/-- The window keeps its beginning when the entries fall into it or right behind it. -/
theorem LogUnstable.append_offset {u : LogUnstable} {e : Entry} {rest : List Entry}
    (hlo : u.offset_ ≤ e.index) (hhi : e.index ≤ u.offset_ + u.entries_.length) :
    (u.append (e :: rest)).offset_ = u.offset_ := by
  unfold LogUnstable.append LogUnstable.truncateAndAppend
  dsimp only
  split_ifs with hnil hfirst hgap
  · simp only [hnil, List.length_nil] at hhi
    show e.index = u.offset_
    omega
  · show e.index = u.offset_
    omega
  · omega
  · rfl

namespace RaftLog

/-- An append, if it is accepted, leaves the commit index in order. -/
def Orderly (l : RaftLog) (m : Message) : Prop :=
  l.term m.index = m.logTerm →
    (l.findConflict m.entries = 0 → m.index + m.entries.length ≤ l.lastIndex ∧
      (m.index + m.entries.length < l.lastIndex → l.unstable_.entries_ ≠ [] →
        l.committed_ < max (m.index + m.entries.length + 1) l.unstable_.offset_)) ∧
    l.findConflict m.entries ≤ l.lastIndex + 1 ∧
    (l.committed_ < m.commit → l.committed_ ≤ m.index + m.entries.length ∧
      (l.findConflict m.entries ≠ 0 → l.findConflict m.entries ≤ l.committed_ →
        min m.commit (m.index + m.entries.length) ≤ l.lastIndex))

instance (l : RaftLog) (m : Message) : Decidable (l.Orderly m) :=
  inferInstanceAs (Decidable (_ → _))

/-- A log that was replaced by a snapshot: the snapshot is pending and the unstable entries start
right after it. -/
def Restored (l : RaftLog) : Prop :=
  ∃ s, l.unstable_.snapshot_ = some s ∧ l.unstable_.offset_ = s.index + 1 ∧
    s.index ≤ l.committed_

section Ends

variable {l : RaftLog}

theorem lastIndex_append {e : Entry} {rest : List Entry} :
    lastIndex { l with unstable_ := l.unstable_.append (e :: rest) } = e.index + rest.length := by
  obtain ⟨-, hne, hlen⟩ := l.unstable_.append_window e rest
  rw [lastIndex_of_window hne]
  simp only
  omega

theorem Restored.append {e : Entry} {rest : List Entry} (h : l.Restored)
    (hlo : l.committed_ < e.index) (hhi : e.index ≤ l.lastIndex + 1) :
    Restored { l with unstable_ := l.unstable_.append (e :: rest) } := by
  obtain ⟨s, hs, ho, hc⟩ := h
  have hend : l.lastIndex + 1 ≤ l.unstable_.offset_ + l.unstable_.entries_.length := by
    by_cases hnil : l.unstable_.entries_ = []
    · rw [lastIndex_of_pending hnil hs]
      omega
    · have := List.length_pos_iff.mpr hnil
      rw [lastIndex_of_window hnil]
      omega
  refine ⟨s, (l.unstable_.append_window e rest).1.trans hs, ?_, hc⟩
  exact (LogUnstable.append_offset (by omega) (by omega)).trans ho

/-- Without its unstable entries the log reaches up to where they began. -/
theorem lastIndex_cleared (h : l.WF ∨ l.Restored) :
    l.unstable_.offset_ ≤
      lastIndex { l with unstable_ := { l.unstable_ with entries_ := [] } } + 1 := by
  rcases h with h | ⟨s, hs, ho, -⟩
  · have hend : lastIndex { l with unstable_ := { l.unstable_ with entries_ := [] } } =
        l.storage_.lastIndex := by
      simp [lastIndex, LogUnstable.maybeLastIndex, h.snapshot]
    rw [hend, WriteAheadLog.lastIndex_eq]
    exact h.window
  · have hend : lastIndex { l with unstable_ := { l.unstable_ with entries_ := [] } } =
        s.index := by
      simp [lastIndex, LogUnstable.maybeLastIndex, hs]
    rw [hend]
    exact ho.le

/-- Cutting off what comes after `last` leaves the log up to there, and all below the unstable
entries. -/
theorem lastIndex_truncate (h : l.WF ∨ l.Restored) {last : Nat} (hlt : last < l.lastIndex)
    (hne : l.unstable_.entries_ ≠ []) :
    max (last + 1) l.unstable_.offset_ ≤
      lastIndex { l with unstable_ := l.unstable_.truncateFrom (last + 1) } + 1 := by
  have hclear := lastIndex_cleared h
  have hlast := lastIndex_of_window hne
  unfold LogUnstable.truncateFrom
  rw [if_neg hne]
  dsimp only at hclear ⊢
  split_ifs with hbelow hcut
  · omega
  · have hlen : (l.unstable_.entries_.take (last + 1 - l.unstable_.offset_)).length =
        last + 1 - l.unstable_.offset_ := by
      rw [List.length_take]
      omega
    by_cases hzero : last + 1 - l.unstable_.offset_ = 0
    · rw [hzero, List.take_zero]
      omega
    · rw [lastIndex_of_window (List.ne_nil_of_length_pos (by rw [hlen]; omega))]
      dsimp only
      rw [hlen]
      omega
  · omega

theorem truncate_of_nil {last : Nat} (h : l.unstable_.entries_ = []) :
    l.unstable_.truncateFrom last = l.unstable_ := if_pos h

/-- The entries from the conflict on. -/
theorem drop_conflict {prev : Nat} {ents : List Entry} (hc : Continues prev ents)
    (h0 : l.findConflict ents ≠ 0) :
    ∃ e rest, ents.drop (l.findConflict ents - prev - 1) = e :: rest ∧
      e.index = l.findConflict ents ∧ e.index + rest.length = prev + ents.length := by
  rcases findConflict_cases l hc with ⟨hz, -⟩ | ⟨j, e, he, hf, -, -⟩
  · exact absurd hz h0
  · have hj : j < ents.length := (List.getElem?_eq_some_iff.mp he).1
    have hej : ents[j] = e := (List.getElem?_eq_some_iff.mp he).2
    have hidx := (hc j e he).1
    refine ⟨e, ents.drop (j + 1), ?_, by omega, ?_⟩
    · rw [hf, show prev + j + 1 - prev - 1 = j by omega, List.drop_eq_getElem_cons hj, hej]
    · rw [List.length_drop]
      omega

/-- Where an accepted append leaves the end of the log. -/
theorem lastIndex_reconcile (h : l.WF ∨ l.Restored) {m : Message} (ho : l.Orderly m)
    (hm : l.term m.index = m.logTerm) (hc : Continues m.index m.entries)
    (hle : l.committed_ ≤ l.lastIndex) :
    l.committed_ ≤ (l.reconcile m.index m.entries).lastIndex ∧
      (l.committed_ < m.commit → l.committed_ ≤ m.index + m.entries.length ∧
        min m.commit (m.index + m.entries.length) ≤ (l.reconcile m.index m.entries).lastIndex) := by
  obtain ⟨hnone, -, hcom⟩ := ho hm
  unfold reconcile
  split_ifs with h0 hlt hskip
  · obtain ⟨hlast, hcut⟩ := hnone h0
    by_cases hne : l.unstable_.entries_ = []
    · rw [truncate_of_nil hne]
      exact ⟨hle, fun hm => ⟨(hcom hm).1, (Nat.min_le_right _ _).trans hlast⟩⟩
    · have hkept := lastIndex_truncate h hlt hne
      have habove := hcut hlt hne
      exact ⟨by omega, fun hm => ⟨(hcom hm).1, by omega⟩⟩
  · obtain ⟨hlast, -⟩ := hnone h0
    exact ⟨hle, fun hm => ⟨(hcom hm).1, (Nat.min_le_right _ _).trans hlast⟩⟩
  · exact ⟨hle, fun hm => ⟨(hcom hm).1, (hcom hm).2 h0 hskip⟩⟩
  · obtain ⟨e, rest, hdrop, hidx, hlen⟩ := drop_conflict hc h0
    rw [hdrop, lastIndex_append, hlen]
    exact ⟨by omega, fun hm => ⟨(hcom hm).1, Nat.min_le_right _ _⟩⟩

/-- A pending snapshot stays where it is. -/
theorem Restored.reconcile (h : l.Restored) {m : Message} (ho : l.Orderly m)
    (hm : l.term m.index = m.logTerm) (hc : Continues m.index m.entries) :
    (l.reconcile m.index m.entries).Restored := by
  obtain ⟨-, hend, -⟩ := ho hm
  unfold RaftLog.reconcile
  split_ifs with h0 hlt hskip
  · obtain ⟨s, hs, hoff, hsc⟩ := h
    have hframe : (l.unstable_.truncateFrom (m.index + m.entries.length + 1)).snapshot_ =
        l.unstable_.snapshot_ ∧ (l.unstable_.truncateFrom (m.index + m.entries.length + 1)).offset_ =
        l.unstable_.offset_ := by
      unfold LogUnstable.truncateFrom
      dsimp only
      split_ifs <;> exact ⟨rfl, rfl⟩
    exact ⟨s, hframe.1.trans hs, hframe.2.trans hoff, hsc⟩
  · exact h
  · exact h
  · obtain ⟨e, rest, hdrop, hidx, -⟩ := drop_conflict hc h0
    rw [hdrop]
    exact h.append (by omega) (by omega)

end Ends

end RaftLog

/-! ## Calls -/

/-- Messages of correct peers: appends carry consecutive entries, and a leader is told of no entry
it does not have. `msgSnapStatus` is nobody's message. -/
structure Message.Proper (n : RawNode) (m : Message) : Prop where
  not_status : m.type ≠ .msgSnapStatus
  continues : m.type = .msgApp → Continues m.index m.entries
  prev : m.type = .msgApp → m.index = 0 ∨ m.logTerm ≠ 0
  reply : m.type = .msgAppResp → m.reject = false → n.role_ = .leader → m.term = n.term_ →
    m.index ≤ n.log_.lastIndex

/-- The commit index lies between the applied index and the end of the log. A leader knows of no
entry beyond its log, so that no quorum makes it commit one. -/
structure View.Steady (v : View) : Prop where
  applied_le : v.log.applied_ ≤ v.log.committed_
  committed_le : v.log.committed_ ≤ v.log.lastIndex
  bounded : v.role = .leader → Bounded v.pr v.log.lastIndex
  term_pos : v.role ≠ .follower → v.term ≠ 0
  shape : v.log.WF ∨ v.log.Restored

/-- What a call may rely on while it handles `msg`. -/
structure View.Handling (n : RawNode) (msg : Option Message) (v : View) : Prop extends v.Steady where
  committed_ge : n.log_.committed_ ≤ v.log.committed_
  term_ge : n.term_ ≤ v.term
  reply : ∀ {m}, msg = some m → m.type = .msgAppResp → m.reject = false → v.role = .leader →
    m.term = v.term → m.index ≤ v.log.lastIndex

section Calls

variable {n : RawNode} {msg : Option Message} {v v' : View}

theorem View.Steady.snapshot_le (h : v.Steady) : v.log.snapshot.index ≤ v.log.lastIndex := by
  rcases h.shape with hwf | ⟨s, hs, -, hc⟩
  · have hnone := hwf.snapshot
    have hzero := hwf.snapIndex
    simp [RaftLog.snapshot, hnone, WriteAheadLog.snapshot, hzero]
  · have hle := h.committed_le
    simp only [RaftLog.snapshot, hs]
    omega

/-- A log that reaches its commit index, and for a leader does not end before the old one. -/
theorem View.Handling.relog (h : v.Handling n msg) {l' : RaftLog} (happ : l'.applied_ = v.log.applied_)
    (hge : v.log.committed_ ≤ l'.committed_) (hle : l'.committed_ ≤ l'.lastIndex)
    (hend : v.role = .leader → v.log.lastIndex ≤ l'.lastIndex) (hshape : l'.WF ∨ l'.Restored) :
    View.Handling n msg { v with log := l' } where
  applied_le := by
    rw [happ]
    exact h.applied_le.trans hge
  committed_le := hle
  bounded := fun hr => (h.bounded hr).mono (hend hr)
  term_pos := h.term_pos
  shape := hshape
  committed_ge := h.committed_ge.trans hge
  term_ge := h.term_ge
  reply := fun hm hty hrej hr hmt => (h.reply hm hty hrej hr hmt).trans (hend hr)

theorem View.Handling.append (h : v.Handling n msg) {e : Entry} (hr : v.role = .leader)
    (ht : e.term = v.term) (hi : e.index = v.log.lastIndex + 1) :
    View.Handling n msg { v with log := (v.log.append [e]).2 } := by
  rcases RaftLog.append_one_cases v.log e with ⟨heq, -⟩ | ⟨heq, hle⟩
  · rw [heq]
    exact h
  · have hterm : e.term ≠ 0 := by
      rw [ht]
      exact h.term_pos (by rw [hr]; decide)
    have hshape : (v.log.append [e]).2.WF ∨ (v.log.append [e]).2.Restored := by
      rcases h.shape with hwf | hres
      · rcases hwf.append_one hi hterm with ⟨-, hlt⟩ | ⟨hwf', -⟩
        · omega
        · exact Or.inl hwf'
      · rw [heq]
        exact Or.inr (hres.append (by omega) hi.le)
    have hend : (v.log.append [e]).2.lastIndex = v.log.lastIndex + 1 := by
      rw [heq, RaftLog.lastIndex_append, hi]
      rfl
    have hcom : (v.log.append [e]).2.committed_ = v.log.committed_ := by rw [heq]
    have happ : (v.log.append [e]).2.applied_ = v.log.applied_ := by rw [heq]
    have hcl := h.committed_le
    exact h.relog happ hcom.ge (by omega) (fun _ => by omega) hshape

/-- A follower accepts or refuses an append. -/
theorem View.Handling.accept (h : v.Handling n msg) {m : Message} (ho : v.log.Orderly m)
    (hc : Continues m.index m.entries) (hp : m.index = 0 ∨ m.logTerm ≠ 0)
    (hr : v.role = .follower) :
    View.Handling n msg
      { v with log := (v.log.maybeAppend m.index m.logTerm m.commit m.entries).2 } := by
  by_cases hmatch : v.log.term m.index = m.logTerm
  · obtain ⟨hle, hraise⟩ := RaftLog.lastIndex_reconcile h.shape ho hmatch hc h.committed_le
    have hshape : (v.log.reconcile m.index m.entries).WF ∨
        (v.log.reconcile m.index m.entries).Restored := by
      rcases h.shape with hwf | hres
      · exact Or.inl (hwf.reconcile hc (by rw [hmatch]; exact hp.symm)).1
      · exact Or.inr (hres.reconcile ho hmatch hc)
    rw [RaftLog.maybeAppend_of_eq hmatch]
    have hk : v.log.committed_ ≤ (if m.commit > v.log.committed_ then
          min m.commit (m.index + m.entries.length) else v.log.committed_) ∧
        (if m.commit > v.log.committed_ then min m.commit (m.index + m.entries.length)
          else v.log.committed_) ≤ (v.log.reconcile m.index m.entries).lastIndex := by
      split_ifs with hgt
      · obtain ⟨hlast, hmin⟩ := hraise hgt
        exact ⟨by omega, hmin⟩
      · exact ⟨le_rfl, hle⟩
    refine h.relog RaftLog.reconcile_applied hk.1 hk.2 (fun hl => ?_) ?_
    · rw [hr] at hl
      cases hl
    · rcases hshape with hwf | ⟨s, hs, hoff, hsc⟩
      · exact Or.inl (hwf.set_committed _)
      · rw [RaftLog.reconcile_committed] at hsc
        exact Or.inr ⟨s, hs, hoff, hsc.trans hk.1⟩
  · rw [RaftLog.maybeAppend_of_ne hmatch]
    exact h

theorem View.Handling.set_committed (h : v.Handling n msg) {k : Nat} (hge : v.log.committed_ ≤ k)
    (hle : k ≤ v.log.lastIndex) :
    View.Handling n msg { v with log := { v.log with committed_ := k } } := by
  refine h.relog rfl hge hle (fun _ => le_rfl) ?_
  rcases h.shape with hwf | ⟨s, hs, hoff, hsc⟩
  · exact Or.inl (hwf.set_committed k)
  · exact Or.inr ⟨s, hs, hoff, hsc.trans hge⟩

theorem View.Handling.heartbeat (h : v.Handling n msg) (k : Nat) :
    View.Handling n msg { v with log := v.log.commitTo k } := by
  have hle := h.committed_le
  unfold RaftLog.commitTo
  split_ifs with hgt
  · exact h.set_committed (by omega) (Nat.min_le_right _ _)
  · exact h

/-- A snapshot that is not behind the commit index. -/
theorem View.Handling.restore (h : v.Handling n msg) {snap : Snapshot}
    {pr : Collections.OrderedMap NodeId Progress Collections.less}
    (hle : v.log.committed_ ≤ snap.index) (hr : v.role = .follower) :
    View.Handling n msg { v with log := v.log.restore snap, pr := pr } where
  applied_le := le_rfl
  committed_le := le_rfl
  bounded := fun hl => absurd (hr.symm.trans hl) (by decide)
  term_pos := h.term_pos
  shape := Or.inr ⟨snap, rfl, rfl, le_rfl⟩
  committed_ge := h.committed_ge.trans hle
  term_ge := h.term_ge
  reply := fun _ _ _ hl => absurd (hr.symm.trans hl) (by decide)

/-- What is asked of a message that is not stale. -/
def RawNode.Guards (n : RawNode) (m : Message) : Prop :=
  n.term_ ≤ m.term → (m.type = .msgApp → n.log_.Orderly m) ∧
    (m.type = .msgSnap → n.log_.committed_ ≤ m.snapshot.index)

instance (n : RawNode) (m : Message) : Decidable (n.Guards m) := inferInstanceAs (Decidable (_ → _))

/-- One effect of a call. -/
theorem View.Handling.effect (h : v.Handling n msg) (he : Effect n.log_ msg v v')
    (hm : ∀ {m}, msg = some m → m.Proper n ∧ n.Guards m) : v'.Handling n msg := by
  cases he with
  | @turn role t ht hr =>
    have hnl : role ≠ .leader := by
      rcases hr with rfl | ⟨rfl, -⟩ <;> decide
    refine ⟨⟨h.applied_le, h.committed_le, fun hl => absurd hl hnl, fun hne => ?_, h.shape⟩,
      h.committed_ge, h.term_ge.trans ht, fun _ _ _ hl => absurd hl hnl⟩
    rcases hr with hr | ⟨-, hlt⟩
    · exact absurd hr hne
    · exact Nat.ne_of_gt (Nat.zero_lt_of_lt hlt)
  | lead hr hne hb =>
    exact ⟨⟨h.applied_le, h.committed_le, fun _ => hb le_rfl, fun _ => h.term_pos hr, h.shape⟩,
      h.committed_ge, h.term_ge, fun hmsg hty => absurd hty (hne hmsg)⟩
  | track hb =>
    exact ⟨⟨h.applied_le, h.committed_le,
      fun hr => hb le_rfl h.snapshot_le (fun hmsg hty hrej hr ht => h.reply hmsg hty hrej hr ht)
        (h.bounded hr), h.term_pos, h.shape⟩, h.committed_ge, h.term_ge, h.reply⟩
  | append hr ht hi => exact h.append hr ht hi
  | @commit k hr hgt ht hk =>
    rcases hr with hr | ⟨m, hmsg, hty⟩
    · exact h.set_committed hgt.le (hk le_rfl (h.bounded hr))
    · exact absurd hty (hm hmsg).1.not_status
  | accept hmsg hty hl ht hr =>
    obtain ⟨hprop, hguard⟩ := hm hmsg
    have ho := (hguard (ht ▸ h.term_ge)).1 hty
    rw [← hl] at ho
    exact h.accept ho (hprop.continues hty) (hprop.prev hty) hr
  | heartbeat hmsg hty hl ht => exact h.heartbeat _
  | restore hmsg hty hl ht hr =>
    have hle := ((hm hmsg).2 (ht ▸ h.term_ge)).2 hty
    rw [← hl] at hle
    exact h.restore hle hr

/-- A whole call. -/
theorem View.Steady.call (h : n.view.Steady) {n' : RawNode} (he : Effects n.log_ msg n n')
    (hm : ∀ {m}, msg = some m → m.Proper n ∧ n.Guards m) :
    n'.view.Steady ∧ n.log_.committed_ ≤ n'.log_.committed_ := by
  have hstart : n.view.Handling n msg :=
    ⟨h, le_rfl, le_rfl, fun hmsg => (hm hmsg).1.reply⟩
  have hend := he.preserves (P := fun v => v.Handling n msg) (fun heff hv => hv.effect heff hm) hstart
  exact ⟨hend.toSteady, hend.committed_ge⟩

end Calls

/-! ## The loop -/

namespace Peer

/-- Correct peers, and one lifetime of the process. -/
def Fed (p : Peer) : Event → Prop
  | .step m _ => m.Proper p.node
  | .restart _ => False
  | _ => True

/-- No event meets one of the places that disturb the commit index. -/
def Guarded (p : Peer) : Event → Prop
  | .step m _ => p.ready = none → p.node.Guards m
  | .advance => p.node.log_.unstable_.snapshot_ = none ∨ p.node.lastReadyLastIndex_ = 0
  | _ => True

instance (p : Peer) : (ev : Event) → Decidable (p.Guarded ev)
  | .step m _ => inferInstanceAs (Decidable (_ = none → p.node.Guards m))
  | .advance => inferInstanceAs (Decidable (_ ∨ _))
  | .tick _ | .restart _ | .propose _ | .readIndex _ | .poll | .persistEntries | .persistHardState
  | .send => inferInstanceAs (Decidable True)

end Peer

/-- The loop between two events. While a snapshot is pending nothing is released, so nothing need
be known about the `Ready` under way. -/
structure Ordered (p : Peer) : Prop where
  steady : p.node.view.Steady
  idle : p.ready = none → p.node.lastReadyLastIndex_ = 0 ∧ p.node.lastReadyApplied_ = 0
  pending : p.node.log_.unstable_.snapshot_ = none → ∀ {stage rd}, p.ready = some (stage, rd) →
    Pending p.node stage rd

section Ordered

variable {n : RawNode} {p : Peer}

theorem View.Steady.wf (h : n.view.Steady) (hs : n.log_.unstable_.snapshot_ = none) :
    n.log_.WF := by
  rcases h.shape with hwf | ⟨s, hsome, -, -⟩
  · exact hwf
  · exact absurd (hs.symm.trans hsome) nofun

/-- The same commit index and the same end of the log. -/
theorem View.Steady.of_eq (h : n.view.Steady) (l' : RaftLog) (happ : l'.applied_ ≤ l'.committed_)
    (hcom : l'.committed_ = n.log_.committed_) (hend : l'.lastIndex = n.log_.lastIndex)
    (hshape : l'.WF ∨ l'.Restored) : ({ n with log_ := l' } : RawNode).view.Steady where
  applied_le := happ
  committed_le := by
    change l'.committed_ ≤ l'.lastIndex
    rw [hcom, hend]
    exact h.committed_le
  bounded := fun hr => by
    change Bounded n.pr_ l'.lastIndex
    rw [hend]
    exact h.bounded hr
  term_pos := h.term_pos
  shape := hshape

/-- A call of the node. -/
theorem Ordered.call (h : Ordered p) {msg : Option Message} {n' : RawNode}
    (he : Effects p.node.log_ msg p.node n') (hm : ∀ {m}, msg = some m → m.Proper p.node ∧ p.node.Guards m)
    (hpend : n'.log_.unstable_.snapshot_ = none → ∀ {stage rd}, p.ready = some (stage, rd) →
      Pending n' stage rd) :
    Ordered { p with node := n' } ∧ p.node.log_.committed_ ≤ n'.log_.committed_ := by
  obtain ⟨hs, hge⟩ := h.steady.call he hm
  refine ⟨⟨hs, ?_, hpend⟩, hge⟩
  intro hready
  exact ⟨he.lastReadyLastIndex.trans (h.idle hready).1, he.lastReadyApplied.trans (h.idle hready).2⟩

theorem propose_snapshot (n : RawNode) (data : Bytes) :
    (n.propose data).2.log_.unstable_.snapshot_ = n.log_.unstable_.snapshot_ := by
  rw [propose_log]
  split_ifs
  · rcases RaftLog.append_one_cases n.log_ ⟨n.term_, n.log_.lastIndex + 1, .normal, data⟩ with
      ⟨heq, -⟩ | ⟨heq, -⟩
    · rw [heq]
    · rw [heq]
      exact (n.log_.unstable_.append_window _ _).1
  · rfl

/-- Writing the entries of the `Ready` does not move the end of the log. -/
theorem Ordered.persistEntries (h : Ordered p) {rd : Ready}
    (hready : p.ready = some (.persistEntries, rd)) :
    Ordered { p.store (fun w => w.appendNoSync rd.entries) with
      ready := some (.persistHardState, rd) } := by
  cases hs : p.node.log_.unstable_.snapshot_ with
  | none =>
    have hwf := h.steady.wf hs
    rcases (h.pending hs hready).persistEntries hwf with ⟨hnil, hp⟩ | ⟨l', rfl, hwf', hlog, -, hp⟩
    · rw [hnil]
      refine ⟨h.steady, nofun, fun _ => ?_⟩
      rintro stage rd' ⟨⟩
      exact hp
    · refine ⟨h.steady.of_eq _ h.steady.applied_le rfl (hwf.lastIndex_congr hwf' hlog) (Or.inl hwf'),
        nofun, fun _ => ?_⟩
      rintro stage rd' ⟨⟩
      exact hp
  | some snap =>
    have hend : RaftLog.lastIndex { p.node.log_ with
        storage_ := p.node.log_.storage_.appendNoSync rd.entries } = p.node.log_.lastIndex := by
      unfold RaftLog.lastIndex LogUnstable.maybeLastIndex
      simp only [hs]
      split_ifs <;> rfl
    have hres := h.steady.shape.resolve_left fun hwf => absurd (hwf.snapshot.symm.trans hs) nofun
    exact ⟨h.steady.of_eq _ h.steady.applied_le rfl hend (Or.inr hres), nofun,
      fun hnone => absurd (hnone.symm.trans hs) nofun⟩

/-- The later stages of a `Ready`. -/
theorem Ordered.proceed (h : Ordered p) {stage : Stage} {rd : Ready}
    (hready : p.ready = some (stage, rd)) (hst : stage ≠ .persistEntries) (stage' : Stage) :
    Ordered { p with ready := some (stage', rd) } := by
  refine ⟨h.steady, nofun, fun hs => ?_⟩
  rintro _ _ ⟨⟩
  have hp := h.pending hs hready
  exact { hp with stored := fun _ => hp.stored hst }

theorem Ordered.saveHardState (h : Ordered p) (hs : HardState) : Ordered (p.saveHardState hs) := by
  unfold Peer.saveHardState
  split_ifs
  · refine ⟨h.steady.of_eq _ h.steady.applied_le rfl rfl ?_, h.idle, fun hnone _ _ hrd => ?_⟩
    · exact h.steady.shape.imp (fun hwf => hwf.saveHardState hs) id
    · exact { h.pending hnone hrd with }
  · exact h

theorem Ordered.advance (h : Ordered p) {rd : Ready} (hready : p.ready = some (.advance, rd))
    (hg : p.node.log_.unstable_.snapshot_ = none ∨ p.node.lastReadyLastIndex_ = 0) :
    Ordered { p with node := p.node.advance, ready := none } ∧
      p.node.log_.committed_ ≤ p.node.advance.log_.committed_ := by
  cases hs : p.node.log_.unstable_.snapshot_ with
  | none =>
    have hp := h.pending hs hready
    have hwf := h.steady.wf hs
    obtain ⟨l', hwf', hlog, -, hcom, happ, heq⟩ := hp.advance hwf nofun
    rw [heq]
    have hle : l'.applied_ ≤ l'.committed_ := by
      have hold : p.node.log_.applied_ ≤ p.node.log_.committed_ := h.steady.applied_le
      rw [happ, hcom]
      rcases hp.committed with hnil | hle
      · rw [hnil]
        exact hold
      · exact hle
    have hst := h.steady.of_eq l' hle hcom (hwf.lastIndex_congr hwf' hlog) (Or.inl hwf')
    exact ⟨⟨{ hst with }, fun _ => ⟨rfl, rfl⟩, nofun⟩, hcom.ge⟩
  | some snap =>
    have hzero := hg.resolve_left (by rw [hs]; nofun)
    have hres := h.steady.shape.resolve_left fun hwf => absurd (hwf.snapshot.symm.trans hs) nofun
    have hadv : p.node.advance = { p.node with
        log_ := if p.node.lastReadyApplied_ > 0 then
          p.node.log_.appliedTo p.node.lastReadyApplied_ else p.node.log_
        lastReadyApplied_ := 0 } := by
      have hno : ¬ p.node.lastReadyLastIndex_ > 0 := by omega
      unfold RawNode.advance
      rw [if_neg hno]
      dsimp only
      by_cases hpos : p.node.lastReadyApplied_ > 0
      · rw [if_pos hpos, if_pos hpos]
      · rw [if_neg hpos, if_neg hpos, ← Nat.eq_zero_of_not_pos hpos]
    obtain ⟨a, hto, hle⟩ : ∃ a, (if p.node.lastReadyApplied_ > 0 then
        p.node.log_.appliedTo p.node.lastReadyApplied_ else p.node.log_) =
          { p.node.log_ with applied_ := a } ∧ a ≤ p.node.log_.committed_ := by
      unfold RaftLog.appliedTo
      split_ifs with hpos hout
      · exact ⟨_, rfl, h.steady.applied_le⟩
      · exact ⟨_, rfl, by omega⟩
      · exact ⟨_, rfl, h.steady.applied_le⟩
    rw [hadv, hto]
    have hst := h.steady.of_eq { p.node.log_ with applied_ := a } hle rfl rfl (Or.inr hres)
    exact ⟨⟨{ hst with }, fun _ => ⟨hzero, rfl⟩, nofun⟩, le_rfl⟩

/-- One event. -/
theorem Ordered.handle (h : Ordered p) {ev : Event} (hf : p.Fed ev) (hg : p.Guarded ev) :
    Ordered (p.handle ev).1 ∧ p.node.log_.committed_ ≤ (p.handle ev).1.node.log_.committed_ := by
  have hmove := p.handle_move ev
  generalize p.handle ev = q at hmove ⊢
  cases hmove with
  | tick draw hready =>
    exact h.call (tick_effects p.node draw) nofun fun _ _ _ hrd =>
      absurd (hready.symm.trans hrd) nofun
  | step m draw hready =>
    refine h.call (step_effects p.node m draw) ?_ fun _ _ _ hrd => absurd (hready.symm.trans hrd) nofun
    rintro m' ⟨⟩
    exact ⟨hf, hg hready⟩
  | propose data =>
    refine h.call (propose_effects p.node data) nofun fun hs _ _ hrd => ?_
    rw [propose_snapshot] at hs
    refine (h.pending hs hrd).propose (h.steady.wf hs) (fun hr => ?_) data
    exact h.steady.term_pos (show p.node.role_ ≠ .follower by rw [hr]; decide)
  | readIndex ctx =>
    refine h.call (readIndex_effects p.node ctx) nofun fun hs _ _ hrd => ?_
    rw [readIndex_log] at hs
    exact (h.pending hs hrd).readIndex ctx
  | poll hready =>
    refine ⟨⟨{ h.steady with }, nofun, fun hs => ?_⟩, le_rfl⟩
    rintro _ _ ⟨⟩
    exact pending_poll (h.steady.wf hs) (h.idle hready).1 (h.idle hready).2
  | persistEntries rd hready => exact ⟨h.persistEntries hready, le_rfl⟩
  | persistHardState rd hready =>
    have hsave := h.saveHardState rd.hardState
    have hkeep : (p.saveHardState rd.hardState).ready = p.ready ∧
        p.node.log_.committed_ ≤ (p.saveHardState rd.hardState).node.log_.committed_ := by
      unfold Peer.saveHardState
      split_ifs <;> exact ⟨rfl, le_rfl⟩
    exact ⟨hsave.proceed (hkeep.1.trans hready) nofun .send, hkeep.2⟩
  | send rd hready => exact ⟨h.proceed hready nofun .advance, le_rfl⟩
  | advance rd hready => exact h.advance hready hg
  | restart => exact hf.elim
  | stay => exact ⟨h, le_rfl⟩

theorem Ordered.run (h : Ordered p) {evs : List Event} (hf : p.Along Peer.Fed evs)
    (hg : p.Along Peer.Guarded evs) :
    Ordered (p.exec evs) ∧ p.node.log_.committed_ ≤ (p.exec evs).node.log_.committed_ := by
  refine (hf.and hg).preserves
    (I := fun p' => Ordered p' ∧ p.node.log_.committed_ ≤ p'.node.log_.committed_) ?_ ⟨h, le_rfl⟩
  intro p' ev hI hev
  obtain ⟨h', hle⟩ := hI.1.handle hev.1 hev.2
  exact ⟨h', hI.2.trans hle⟩

end Ordered

theorem ordered_start (c : Config) {w : WriteAheadLog} (hw : w.Plain) (draw : Nat) :
    Ordered (Peer.start c w draw) := by
  have hlog : (Peer.start c w draw).node.log_ = { storage_ := w } := RaftLog.new_eq hw.snapIndex
  have hwf := (RaftLog.wf_new hw.dummy hw.snapIndex hw.stored).1
  refine ⟨⟨?_, ?_, nofun, fun hr => absurd rfl hr, Or.inl hwf⟩, fun _ => ⟨rfl, rfl⟩, nofun⟩
  · change (Peer.start c w draw).node.log_.applied_ ≤ (Peer.start c w draw).node.log_.committed_
    rw [hlog]
  · change (Peer.start c w draw).node.log_.committed_ ≤ (Peer.start c w draw).node.log_.lastIndex
    rw [hlog]
    exact Nat.zero_le _

end NexusLOB.Raft
