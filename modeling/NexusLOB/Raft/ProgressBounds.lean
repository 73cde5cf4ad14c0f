import NexusLOB.Raft.CommitIndex
import NexusLOB.Raft.MatchIndex

/-!
# Next indexes during a leadership

A leader sends a peer the entries from its next index on. That index should lie above the peer's
match index and not beyond the end of the log. The handlers keep it there only for replies that
arrive in the state they were meant for:

* an accept sets the next index of a replicating peer right after the accepted entry, even if the
  peer is known to hold more;
* a reject sets the next index of a probed peer to the rejected entry or right after the end of the
  peer's log, even if the peer is known to hold more;
* a peer that is sent a snapshot keeps the next index it had, and accepts raise its match index
  past it; whatever makes it a probed peer again leaves the two as they are.

The end of the log itself moves back only when a pending snapshot hides released entries.
-/

namespace NexusLOB.Raft

open Collections

/-! ## The end of the log -/

namespace RaftLog

/-- The window is numbered from its offset and leaves no gap to the storage. -/
structure Joined (l : RaftLog) : Prop where
  dummy : l.storage_.entries_ ≠ []
  window : ∀ j e, l.unstable_.entries_[j]? = some e → e.index = l.unstable_.offset_ + j
  no_gap : l.unstable_.snapshot_ = none → l.unstable_.entries_ ≠ [] →
    l.unstable_.offset_ ≤ l.storage_.lastIndex + 1

variable {l : RaftLog}

theorem joined_new {w : WriteAheadLog} (hw : w.entries_ ≠ []) : (RaftLog.new w).Joined := by
  have hlog : (RaftLog.new w).storage_ = w ∧ (RaftLog.new w).unstable_ = {} := by
    unfold RaftLog.new
    dsimp only
    split <;> exact ⟨rfl, rfl⟩
  refine ⟨?_, ?_, ?_⟩
  · rw [hlog.1]
    exact hw
  · intro j e he
    rw [hlog.2] at he
    cases he
  · intro _ hne
    rw [hlog.2] at hne
    exact absurd rfl hne

/-- Another window over the same storage. -/
theorem Joined.of_window (h : l.Joined) {u : LogUnstable} (c a : Nat)
    (hwin : ∀ j e, u.entries_[j]? = some e → e.index = u.offset_ + j)
    (hgap : u.snapshot_ = none → u.entries_ ≠ [] → u.offset_ ≤ l.storage_.lastIndex + 1) :
    Joined { l with unstable_ := u, committed_ := c, applied_ := a } :=
  ⟨h.dummy, hwin, hgap⟩

/-- The entry right behind the log goes to the end of the window. -/
theorem unstable_append_next {e : Entry} (hi : e.index = l.lastIndex + 1) :
    l.unstable_.append [e] =
      { l.unstable_ with
        entries_ := l.unstable_.entries_ ++ [e]
        offset_ := if l.unstable_.entries_ = [] then l.lastIndex + 1 else l.unstable_.offset_ } := by
  unfold LogUnstable.append LogUnstable.truncateAndAppend
  by_cases hw : l.unstable_.entries_ = []
  · simp only [hw, if_true, hi, List.nil_append]
  · have hlast := lastIndex_of_window hw
    have hpos := List.length_pos_iff.mpr hw
    dsimp only
    rw [if_neg hw, if_neg (by omega), if_neg (by omega), if_neg hw,
      List.take_of_length_le (by omega)]

/-- What a leader's append does to the log: nothing, or it grows by one entry. -/
theorem append_next_cases {e : Entry} (hi : e.index = l.lastIndex + 1) :
    (l.append [e]).2 = l ∨
      (l.append [e]).2 = { l with unstable_ := l.unstable_.append [e] } ∧
        (l.append [e]).2.lastIndex = l.lastIndex + 1 := by
  rcases append_one_cases l e with ⟨heq, -⟩ | ⟨heq, -⟩
  · exact Or.inl heq
  · refine Or.inr ⟨heq, ?_⟩
    rw [heq, lastIndex_append, hi, List.length_nil]

theorem lastIndex_le_append {e : Entry} (hi : e.index = l.lastIndex + 1) :
    l.lastIndex ≤ (l.append [e]).2.lastIndex := by
  rcases append_next_cases hi with heq | ⟨-, hlast⟩
  · rw [heq]
  · omega

theorem Joined.append (h : l.Joined) {e : Entry} (hi : e.index = l.lastIndex + 1) :
    (l.append [e]).2.Joined := by
  rcases append_next_cases hi with heq | ⟨heq, -⟩
  · rw [heq]
    exact h
  · rw [heq, unstable_append_next hi]
    refine h.of_window _ _ ?_ ?_
    · intro j e' he
      dsimp only at he ⊢
      rcases Nat.lt_trichotomy j l.unstable_.entries_.length with hlt | rfl | hgt
      · rw [List.getElem?_append_left hlt] at he
        rw [if_neg (List.ne_nil_of_length_pos (by omega))]
        exact h.window j e' he
      · rw [List.getElem?_concat_length] at he
        obtain rfl := Option.some.inj he
        by_cases hw : l.unstable_.entries_ = []
        · rw [if_pos hw, hw, hi]
          rfl
        · have hlast := lastIndex_of_window hw
          have hpos := List.length_pos_iff.mpr hw
          rw [if_neg hw, hi, hlast]
          omega
      · rw [List.getElem?_eq_none (by simp; omega)] at he
        cases he
    · intro hs _
      dsimp only at hs ⊢
      by_cases hw : l.unstable_.entries_ = []
      · rw [if_pos hw, lastIndex_of_store hw hs]
      · rw [if_neg hw]
        exact h.no_gap hs hw

/-- Beyond the window only the storage answers, and only up to its end. -/
theorem le_storage_of_term {i : Nat} (ht : l.term i ≠ 0) (hs : l.unstable_.snapshot_ = none)
    (hi : l.unstable_.entries_ = [] ∨ l.lastIndex < i) : i ≤ l.storage_.lastIndex := by
  have hnone : l.unstable_.maybeTerm i = none := by
    unfold LogUnstable.maybeTerm
    simp only [hs]
    split
    · rfl
    · rcases hi with hw | hlt
      · simp only [LogUnstable.maybeLastIndex, hw, ne_eq, not_true_eq_false, if_false, hs]
      · by_cases hw : l.unstable_.entries_ = []
        · simp only [LogUnstable.maybeLastIndex, hw, ne_eq, not_true_eq_false, if_false, hs]
        · rw [lastIndex_of_window hw] at hlt
          simp only [LogUnstable.maybeLastIndex, ne_eq, hw, not_false_eq_true, if_true]
          rw [if_pos hlt]
  unfold RaftLog.term at ht
  split at ht
  · exact absurd rfl ht
  · rw [hnone] at ht
    dsimp only at ht
    unfold WriteAheadLog.term at ht
    split_ifs at ht with hout
    · exact absurd rfl ht
    · omega

/-- The entry before the first conflict is one the log has. -/
theorem term_before_conflict {prev pt : Nat} {ents : List Entry} (hc : Continues prev ents)
    (hp : prev = 0 ∨ pt ≠ 0) (ht : l.term prev = pt) (h0 : l.findConflict ents ≠ 0) :
    l.findConflict ents = 1 ∨ l.term (l.findConflict ents - 1) ≠ 0 := by
  rcases findConflict_cases l hc with ⟨hz, -⟩ | ⟨j, e, he, hf, -, hall⟩
  · exact absurd hz h0
  · have hj := (List.getElem?_eq_some_iff.mp he).1
    have hprev : l.term prev ≠ 0 ∨ prev = 0 := by
      rw [ht]
      exact hp.symm
    rcases term_ne_zero_of_agree hc hprev hj.le hall with hterm | hzero
    · refine Or.inr ?_
      rw [hf, Nat.add_sub_cancel]
      exact hterm
    · exact Or.inl (by omega)

/-- Cutting the window leaves a beginning of it. -/
theorem Joined.truncate (h : l.Joined) (i : Nat) :
    Joined { l with unstable_ := l.unstable_.truncateFrom i } := by
  have hcut : (l.unstable_.truncateFrom i).entries_ <+: l.unstable_.entries_ ∧
      (l.unstable_.truncateFrom i).offset_ = l.unstable_.offset_ := by
    unfold LogUnstable.truncateFrom
    dsimp only
    split_ifs
    · exact ⟨List.prefix_rfl, rfl⟩
    · exact ⟨List.nil_prefix, rfl⟩
    · exact ⟨List.take_prefix _ _, rfl⟩
    · exact ⟨List.prefix_rfl, rfl⟩
  refine h.of_window _ _ ?_ ?_
  · intro j e he
    have hj := (List.getElem?_eq_some_iff.mp he).1
    rw [Consensus.getElem?_eq_of_isPrefix hcut.1 hj] at he
    rw [hcut.2]
    exact h.window j e he
  · intro hs hne
    rw [LogUnstable.truncateFrom_snapshot] at hs
    rw [hcut.2]
    refine h.no_gap hs fun hnil => hne ?_
    rw [hnil, List.prefix_nil] at hcut
    exact hcut.1

/-- Entries that continue the log, or what the storage has behind it, at the end of the window. -/
theorem Joined.append_entries (h : l.Joined) {e : Entry} {rest : List Entry}
    (hc : ∀ j e', (e :: rest)[j]? = some e' → e'.index = e.index + j)
    (hbehind : l.unstable_.snapshot_ = none → l.unstable_.entries_ = [] ∨ l.lastIndex + 1 < e.index →
      e.index ≤ l.storage_.lastIndex + 1) :
    Joined { l with unstable_ := l.unstable_.append (e :: rest) } := by
  have hkeep := l.unstable_.append_snapshot (e :: rest)
  unfold LogUnstable.append LogUnstable.truncateAndAppend at hkeep ⊢
  dsimp only at hkeep ⊢
  split_ifs at hkeep ⊢ with hw hle hgap
  · exact h.of_window _ _ hc fun hs _ => hbehind hs (Or.inl hw)
  · refine h.of_window _ _ hc fun hs _ => ?_
    have := h.no_gap hs hw
    exact Nat.le_trans hle this
  · refine h.of_window _ _ hc fun hs _ => hbehind hs (Or.inr ?_)
    rw [lastIndex_of_window hw]
    omega
  · have hpos := List.length_pos_iff.mpr hw
    refine h.of_window _ _ ?_ fun hs _ => h.no_gap hs hw
    intro j e' he'
    dsimp only at he' ⊢
    have hlen : (l.unstable_.entries_.take (e.index - l.unstable_.offset_)).length =
        e.index - l.unstable_.offset_ := by
      rw [List.length_take]
      omega
    by_cases hj : j < e.index - l.unstable_.offset_
    · rw [List.getElem?_append_left (by omega), List.getElem?_take_of_lt hj] at he'
      exact h.window j e' he'
    · rw [List.getElem?_append_right (by omega), hlen] at he'
      have := hc _ e' he'
      omega

/-- A follower's append of consecutive entries. -/
theorem Joined.maybeAppend (h : l.Joined) {prev pt : Nat} {ents : List Entry}
    (hc : Continues prev ents) (hp : prev = 0 ∨ pt ≠ 0) (lc : Nat) :
    (l.maybeAppend prev pt lc ents).2.Joined := by
  by_cases ht : l.term prev = pt
  · rw [maybeAppend_of_eq ht]
    have hrec : (l.reconcile prev ents).Joined := by
      unfold reconcile
      split_ifs with h0 hend hcom
      · exact h.truncate _
      · exact h
      · exact h
      · obtain ⟨e, rest, hdrop, hidx, -⟩ := drop_conflict hc h0
        rw [hdrop]
        refine h.append_entries ?_ ?_
        · intro j e' he'
          rw [← hdrop, List.getElem?_drop] at he'
          rcases findConflict_cases l hc with ⟨hz, -⟩ | ⟨k, -, -, hf, -, -⟩
          · exact absurd hz h0
          · have := (hc _ e' he').1
            omega
        · intro hs hout
          rcases term_before_conflict hc hp ht h0 with hone | hne
          · omega
          · have hbefore := le_storage_of_term hne hs (hout.imp id fun hlt => by omega)
            omega
    exact ⟨hrec.dummy, hrec.window, hrec.no_gap⟩
  · rw [maybeAppend_of_ne ht]
    exact h

end RaftLog

/-- The appends of a correct leader: consecutive entries behind one that exists. -/
def Message.Coherent (m : Message) : Prop :=
  m.type = .msgApp → Continues m.index m.entries ∧ (m.index = 0 ∨ m.logTerm ≠ 0)

/-- No call breaks the window. -/
theorem joined_effects {l₀ : RaftLog} {msg : Option Message} {n n' : RawNode}
    (he : Effects l₀ msg n n') (hm : ∀ m ∈ msg, m.Coherent) (h : n.log_.Joined) :
    n'.log_.Joined := by
  refine he.preserves (P := fun v => v.log.Joined) ?_ h
  intro v v' heff hv
  cases heff with
  | turn | lead | track => exact hv
  | append _ _ hi => exact hv.append hi
  | commit => exact ⟨hv.dummy, hv.window, hv.no_gap⟩
  | accept hmsg hty =>
    obtain ⟨hc, hp⟩ := hm _ hmsg hty
    exact hv.maybeAppend hc hp _
  | heartbeat =>
    dsimp only
    unfold RaftLog.commitTo
    split_ifs
    · exact ⟨hv.dummy, hv.window, hv.no_gap⟩
    · exact hv
  | restore =>
    refine ⟨hv.dummy, ?_, ?_⟩
    · intro j e he
      cases he
    · intro hs
      cases hs

/-! ## The loop -/

/-- A `Ready` under way, as far as the end of the log depends on it. -/
structure Underway (n : RawNode) (stage : Stage) (rd : Ready) : Prop where
  entries : rd.entries <+: n.log_.unstable_.entries_
  mark : n.lastReadyLastIndex_ =
    if rd.entries = [] then 0 else n.log_.unstable_.offset_ + rd.entries.length - 1
  stored : stage ≠ .persistEntries → rd.entries ≠ [] → n.log_.unstable_.snapshot_ = none →
    n.log_.storage_.lastIndex = n.log_.unstable_.offset_ + rd.entries.length - 1

section Loop

variable {n : RawNode} {stage : Stage} {rd : Ready}

theorem underway_poll (h : n.log_.Joined) (hmark : n.lastReadyLastIndex_ = 0) :
    Underway n.poll.2 .persistEntries n.poll.1 where
  entries := List.prefix_rfl
  mark := by
    change (n.log_.unstable_.entries_.getLast?.map (·.index)).getD n.lastReadyLastIndex_ =
      if n.log_.unstable_.entries_ = [] then 0
      else n.log_.unstable_.offset_ + n.log_.unstable_.entries_.length - 1
    by_cases hne : n.log_.unstable_.entries_ = []
    · rw [hne, if_pos rfl]
      exact hmark
    · have hpos := List.length_pos_iff.mpr hne
      have hlast := h.window _ _ (List.getElem?_eq_getElem
        (show n.log_.unstable_.entries_.length - 1 < n.log_.unstable_.entries_.length by omega))
      rw [if_neg hne, List.getLast?_eq_getElem?, List.getElem?_eq_getElem (by omega)]
      simp only [Option.map_some, Option.getD_some, hlast]
      omega
  stored := fun hst => absurd rfl hst

theorem Underway.of_eq {n' : RawNode} (h : Underway n stage rd) (hlog : n'.log_ = n.log_)
    (hmark : n'.lastReadyLastIndex_ = n.lastReadyLastIndex_) : Underway n' stage rd := by
  refine ⟨?_, ?_, ?_⟩
  · rw [hlog]
    exact h.entries
  · rw [hlog, hmark]
    exact h.mark
  · rw [hlog]
    exact h.stored

/-- A leader's proposal while the `Ready` is processed. -/
theorem Underway.append (h : Underway n stage rd) {e : Entry} (hi : e.index = n.log_.lastIndex + 1)
    {n' : RawNode} (hlog : n'.log_ = (n.log_.append [e]).2)
    (hmark : n'.lastReadyLastIndex_ = n.lastReadyLastIndex_) : Underway n' stage rd := by
  rcases RaftLog.append_next_cases hi with heq | ⟨heq, -⟩
  · rw [heq] at hlog
    exact h.of_eq hlog hmark
  · -- with entries under way the window is not empty, and its offset stays
    have hne : rd.entries ≠ [] → n.log_.unstable_.entries_ ≠ [] := by
      intro hrd hnil
      have hp := h.entries
      rw [hnil, List.prefix_nil] at hp
      exact hrd hp
    rw [heq, RaftLog.unstable_append_next hi] at hlog
    refine ⟨?_, ?_, ?_⟩
    · rw [hlog]
      exact h.entries.trans (List.prefix_append _ _)
    · rw [hlog, hmark, h.mark]
      by_cases hrd : rd.entries = []
      · rw [if_pos hrd, if_pos hrd]
      · rw [if_neg hrd, if_neg hrd, if_neg (hne hrd)]
    · intro hst hrd hs
      rw [hlog] at hs ⊢
      dsimp only at hs ⊢
      rw [if_neg (hne hrd)]
      exact h.stored hst hrd hs

/-- Where the store ends after a batch that leaves no gap. -/
theorem lastIndex_appendNoSync {w : WriteAheadLog} (hw : w.entries_ ≠ []) {e : Entry}
    {rest : List Entry} (hgap : e.index ≤ w.lastIndex + 1) :
    (w.appendNoSync (e :: rest)).lastIndex = e.index + rest.length := by
  have hpos := List.length_pos_iff.mpr hw
  unfold WriteAheadLog.lastIndex at hgap ⊢
  unfold WriteAheadLog.appendNoSync
  dsimp only
  rw [List.length_append, List.length_cons]
  split_ifs with hin
  · unfold WriteAheadLog.lastIndex at hin
    rw [List.length_take]
    omega
  · unfold WriteAheadLog.lastIndex at hin
    omega

/-- Writing the entries of the `Ready` moves neither the window nor the end of the log. -/
theorem Underway.persist (h : Underway n .persistEntries rd) (hj : n.log_.Joined) {n' : RawNode}
    (hlog : n'.log_ = { n.log_ with storage_ := n.log_.storage_.appendNoSync rd.entries })
    (hmark : n'.lastReadyLastIndex_ = n.lastReadyLastIndex_) :
    n'.log_.Joined ∧ n'.log_.lastIndex = n.log_.lastIndex ∧ Underway n' .persistHardState rd := by
  cases hrd : rd.entries with
  | nil =>
    have hsame : n'.log_ = n.log_ := by
      rw [hlog, hrd]
      rfl
    refine ⟨by rw [hsame]; exact hj, by rw [hsame], ?_⟩
    have hof := h.of_eq hsame hmark
    exact ⟨hof.entries, hof.mark, fun _ hne => absurd hrd hne⟩
  | cons e rest =>
    have hp := h.entries
    rw [hrd] at hp
    have hne : n.log_.unstable_.entries_ ≠ [] := by
      intro hnil
      rw [hnil, List.prefix_nil] at hp
      cases hp
    have hidx : e.index = n.log_.unstable_.offset_ := by
      refine hj.window 0 e ?_
      rw [← Consensus.getElem?_eq_of_isPrefix hp (by simp)]
      rfl
    -- without a pending snapshot the batch starts inside the store or right behind it
    have hend : n.log_.unstable_.snapshot_ = none →
        (n.log_.storage_.appendNoSync rd.entries).lastIndex = e.index + rest.length := by
      intro hs
      rw [hrd]
      exact lastIndex_appendNoSync hj.dummy (by rw [hidx]; exact hj.no_gap hs hne)
    refine ⟨?_, ?_, ?_⟩
    · rw [hlog]
      refine ⟨?_, hj.window, fun hs _ => ?_⟩
      · rw [hrd]
        simp [WriteAheadLog.appendNoSync]
      · change _ ≤ (n.log_.storage_.appendNoSync rd.entries).lastIndex + 1
        rw [hend hs, ← hidx]
        omega
    · rw [hlog, RaftLog.lastIndex_of_window hne]
      exact RaftLog.lastIndex_of_window hne
    · refine ⟨?_, ?_, ?_⟩
      · rw [hlog]
        exact h.entries
      · rw [hlog, hmark]
        exact h.mark
      · intro _ _ hs
        rw [hlog] at hs ⊢
        change (n.log_.storage_.appendNoSync rd.entries).lastIndex = _
        rw [hend hs, hrd, hidx, List.length_cons]
        rfl

/-- Releasing the entries of the `Ready`. -/
theorem Underway.release (h : Underway n stage rd) (hj : n.log_.Joined)
    (hst : stage ≠ .persistEntries) (hs : n.log_.unstable_.snapshot_ = none)
    (hpos : n.lastReadyLastIndex_ > 0) (t : Nat) :
    (n.log_.stableTo n.lastReadyLastIndex_ t).Joined ∧
      (n.log_.stableTo n.lastReadyLastIndex_ t).lastIndex = n.log_.lastIndex := by
  have hmark := h.mark
  have hrd : rd.entries ≠ [] := by
    intro hnil
    rw [if_pos hnil] at hmark
    omega
  rw [if_neg hrd] at hmark
  have hlen := List.length_pos_iff.mpr hrd
  have hle := h.entries.length_le
  have hne : n.log_.unstable_.entries_ ≠ [] := List.ne_nil_of_length_pos (by omega)
  have hend := h.stored hst hrd hs
  have hu : n.log_.unstable_.stableTo n.lastReadyLastIndex_ t =
      { n.log_.unstable_ with
        entries_ := n.log_.unstable_.entries_.drop rd.entries.length
        offset_ := n.log_.unstable_.offset_ + rd.entries.length } := by
    unfold LogUnstable.stableTo
    simp only [hs]
    rw [if_neg (not_or.mpr ⟨hne, by omega⟩),
      show n.lastReadyLastIndex_ + 1 = n.log_.unstable_.offset_ + rd.entries.length by omega,
      Nat.add_sub_cancel_left]
  have hlog : n.log_.stableTo n.lastReadyLastIndex_ t = { n.log_ with unstable_ :=
      { n.log_.unstable_ with
        entries_ := n.log_.unstable_.entries_.drop rd.entries.length
        offset_ := n.log_.unstable_.offset_ + rd.entries.length } } := by
    rw [RaftLog.stableTo, hu]
  rw [hlog]
  constructor
  · refine hj.of_window _ _ ?_ fun _ _ => ?_
    · intro j e he
      dsimp only at he ⊢
      rw [List.getElem?_drop] at he
      rw [hj.window _ e he, Nat.add_assoc]
    · dsimp only
      omega
  · have hlast := RaftLog.lastIndex_of_window hne
    by_cases hw : n.log_.unstable_.entries_.drop rd.entries.length = []
    · have hend' : RaftLog.lastIndex { n.log_ with unstable_ :=
          { n.log_.unstable_ with
            entries_ := n.log_.unstable_.entries_.drop rd.entries.length
            offset_ := n.log_.unstable_.offset_ + rd.entries.length } } =
          n.log_.storage_.lastIndex := RaftLog.lastIndex_of_store hw hs
      have := List.drop_eq_nil_iff.mp hw
      omega
    · refine (RaftLog.lastIndex_of_window hw).trans ?_
      have hlt : rd.entries.length < n.log_.unstable_.entries_.length := by
        by_contra hge
        exact hw (List.drop_eq_nil_of_le (by omega))
      simp only [List.length_drop]
      omega

/-- `advance` keeps the end of the log unless it releases entries behind a pending snapshot. -/
theorem Underway.advance (h : Underway n stage rd) (hj : n.log_.Joined)
    (hst : stage ≠ .persistEntries)
    (hs : n.log_.unstable_.snapshot_ = none ∨ n.lastReadyLastIndex_ = 0) :
    n.advance.log_.Joined ∧ n.advance.log_.lastIndex = n.log_.lastIndex ∧
      n.advance.lastReadyLastIndex_ = 0 := by
  -- the second half only moves the applied mark
  have hsecond : ∀ n₁ : RawNode, n₁.log_.Joined → n₁.log_.lastIndex = n.log_.lastIndex →
      n₁.lastReadyLastIndex_ = 0 →
      ∀ n₂, n₂ = (if n₁.lastReadyApplied_ > 0 then
        { n₁ with log_ := n₁.log_.appliedTo n₁.lastReadyApplied_, lastReadyApplied_ := 0 } else n₁) →
      n₂.log_.Joined ∧ n₂.log_.lastIndex = n.log_.lastIndex ∧ n₂.lastReadyLastIndex_ = 0 := by
    rintro n₁ hj₁ hlast₁ hmark₁ n₂ rfl
    split
    · unfold RaftLog.appliedTo
      dsimp only
      split_ifs
      · exact ⟨hj₁, hlast₁, hmark₁⟩
      · exact ⟨⟨hj₁.dummy, hj₁.window, hj₁.no_gap⟩, hlast₁, hmark₁⟩
    · exact ⟨hj₁, hlast₁, hmark₁⟩
  by_cases hpos : n.lastReadyLastIndex_ > 0
  · have hnone := hs.resolve_right (by omega)
    obtain ⟨hj₁, hlast₁⟩ := h.release hj hst hnone hpos (n.log_.term n.lastReadyLastIndex_)
    refine hsecond
      { n with
        log_ := n.log_.stableTo n.lastReadyLastIndex_ (n.log_.term n.lastReadyLastIndex_)
        lastReadyLastIndex_ := 0 } hj₁ hlast₁ rfl _ ?_
    unfold RawNode.advance
    rw [if_pos hpos]
  · refine hsecond n hj rfl (by omega) _ ?_
    unfold RawNode.advance
    rw [if_neg hpos]

end Loop

/-! ## Replies -/

/-- What a leader whose log ends at `last` keeps about each of its peers. -/
structure Progress.Tracked (last : Nat) (q : Progress) : Prop where
  match_le : q.matchIndex ≤ last
  next_le : q.nextIndex ≤ last + 1
  lt : q.state ≠ .snapshot → q.matchIndex < q.nextIndex
  pending : q.state ≠ .snapshot → q.pendingSnapshotIndex = 0

/-- The reply comes in a state it is meant for: it names no entry beyond the log, an accept of a
replicating peer and a reject that moves the next index back stay above the match index, and a peer
that leaves the snapshot state is still below its next index. -/
def Progress.Fits (last : Nat) (m : Message) (q : Progress) : Prop :=
  match m.type, m.reject with
  | .msgAppResp, false => m.index ≤ last ∧ (q.state = .replicate → q.matchIndex ≤ m.index)
  | .msgAppResp, true =>
    q.state = .replicate ∨
      if m.index + 1 < q.nextIndex then q.state = .snapshot → q.matchIndex < q.nextIndex
      else (q.matchIndex = 0 ∨ q.matchIndex < min m.index (m.rejectHint + 1)) ∧
        min m.index (m.rejectHint + 1) ≤ last + 1
  | .msgSnapStatus, false => True
  | _, _ => q.state = .snapshot → q.matchIndex < q.nextIndex

instance (last : Nat) (m : Message) (q : Progress) : Decidable (q.Fits last m) := by
  unfold Progress.Fits
  split <;> infer_instance

namespace Progress

variable {last : Nat} {m : Message} {q q' : Progress}

theorem Tracked.mono (h : q.Tracked last) {last' : Nat} (hle : last ≤ last') : q.Tracked last' :=
  ⟨h.match_le.trans hle, h.next_le.trans (by omega), h.lt, h.pending⟩

theorem Tracked.sent (h : q.Tracked last) {snap : Nat} (hs : q.Sent snap q') : q'.Tracked last := by
  have hm := hs.matchIndex
  have hn := hs.nextIndex
  refine ⟨hm ▸ h.match_le, hn ▸ h.next_le, fun hne => ?_, fun hne => ?_⟩
  · have := h.lt (hs.state_eq hne ▸ hne)
    omega
  · rcases hs.state with ⟨hst, hp⟩ | ⟨hst, -⟩
    · exact hp.trans (h.pending (hst ▸ hne))
    · exact absurd hst hne

/-- A peer that is probed again. -/
theorem Tracked.becomeProbe (h : q.Tracked last)
    (hlt : q.state = .snapshot → q.matchIndex < q.nextIndex) : q.becomeProbe.Tracked last := by
  have hlt' : q.matchIndex < q.nextIndex := by
    by_cases hs : q.state = .snapshot
    · exact hlt hs
    · exact h.lt hs
  refine ⟨h.match_le, h.next_le, fun _ => hlt', fun _ => ?_⟩
  change (if q.state = .snapshot then 0 else q.pendingSnapshotIndex) = 0
  split
  · rfl
  · exact h.pending (by assumption)

theorem Tracked.accept (h : q.Tracked last) {i : Nat} (hi : i ≤ last)
    (hle : q.state = .replicate → q.matchIndex ≤ i) :
    (RawNode.acceptProgress i q).Tracked last := by
  have hmatch := h.match_le
  have hnext := h.next_le
  unfold RawNode.acceptProgress Progress.update Progress.becomeReplicate
  cases hs : q.state with
  | probe =>
    have hp := h.pending (by rw [hs]; decide)
    simp only [reduceCtorEq, if_false, if_true]
    refine ⟨?_, ?_, fun _ => ?_, fun _ => hp⟩ <;> dsimp only <;> omega
  | replicate =>
    have hp := h.pending (by rw [hs]; decide)
    have hle' := hle hs
    simp only [reduceCtorEq, if_false, if_true]
    refine ⟨?_, ?_, fun _ => ?_, fun _ => hp⟩ <;> dsimp only <;> omega
  | snapshot =>
    simp only [reduceCtorEq, if_false]
    refine ⟨?_, hnext, fun hne => absurd rfl hne, fun hne => absurd rfl hne⟩
    dsimp only
    omega

theorem Tracked.reject (h : q.Tracked last) {rejected hint : Nat}
    (hfit : q.state = .replicate ∨
      if rejected + 1 < q.nextIndex then q.state = .snapshot → q.matchIndex < q.nextIndex
      else (q.matchIndex = 0 ∨ q.matchIndex < min rejected (hint + 1)) ∧
        min rejected (hint + 1) ≤ last + 1) :
    (RawNode.rejectProgress rejected hint q).Tracked last := by
  have hmatch := h.match_le
  unfold RawNode.rejectProgress Progress.maybeDecrFromRejectHint
  by_cases hr : q.state = .replicate
  · have hns : q.state ≠ .snapshot := by rw [hr]; decide
    rw [if_pos hr]
    split_ifs
    · exact h.becomeProbe fun hs => absurd hs hns
    · have hnext : Tracked last { q with nextIndex := q.matchIndex + 1 } :=
        ⟨hmatch, by dsimp only; omega, fun _ => Nat.lt_succ_self _, h.pending⟩
      exact hnext.becomeProbe fun hs => absurd hs hns
  · have hfit' := hfit.resolve_left hr
    rw [if_neg hr]
    by_cases hold : rejected + 1 < q.nextIndex
    · rw [if_pos hold] at hfit'
      rw [if_pos (by omega)]
      exact h.becomeProbe hfit'
    · rw [if_neg hold] at hfit'
      rw [if_neg (by omega)]
      -- the new next index, spelled as in `Fits`
      have hback : (if (if hint < rejected then hint + 1 else rejected) < 1 then 1
          else if hint < rejected then hint + 1 else rejected) = max 1 (min rejected (hint + 1)) := by
        split_ifs <;> omega
      have hlt : q.matchIndex < max 1 (min rejected (hint + 1)) := by omega
      dsimp only
      rw [hback]
      have hnext : q.matchIndex < max 1 (min rejected (hint + 1)) ∧
          max 1 (min rejected (hint + 1)) ≤ last + 1 := ⟨hlt, by omega⟩
      have htr : Tracked last { q with nextIndex := max 1 (min rejected (hint + 1)) } :=
        ⟨hmatch, hnext.2, fun _ => hlt, h.pending⟩
      exact htr.becomeProbe fun _ => hlt

/-- A message that fits. -/
theorem Tracked.hear (h : q.Tracked last) (hfit : q.Fits last m) : (q.hear m).Tracked last := by
  unfold Progress.hear
  split
  · rename_i hty hrej
    simp only [Fits, hty, hrej] at hfit
    exact h.reject hfit
  · rename_i hty hrej
    simp only [Fits, hty, hrej] at hfit
    exact h.accept hfit.1 hfit.2
  · -- `becomeProbe` leaves no snapshot pending
    have hzero : q.becomeProbe.pendingSnapshotIndex = 0 := by
      change (if q.state = .snapshot then 0 else q.pendingSnapshotIndex) = 0
      split
      · rfl
      · exact h.pending (by assumption)
    refine ⟨?_, ?_, fun _ => ?_, fun _ => hzero⟩ <;> dsimp only <;> omega
  · rename_i hno1 hno2 hno3
    refine h.becomeProbe ?_
    unfold Fits at hfit
    split at hfit
    · rename_i hty hrej
      exact absurd hrej (hno2 hty)
    · rename_i hty hrej
      exact absurd hrej (hno1 hty)
    · rename_i hty hrej
      exact absurd hrej (hno3 hty)
    · exact hfit

end Progress

/-! ## The leader -/

/-- Every other peer that is probed or replicated to has its next index above its match index and
at most right behind the log. -/
def RawNode.InBounds (n : RawNode) : Prop :=
  ∀ v ≠ n.id_, ∀ q, n.pr_.find? v = some q → q.state ≠ .snapshot →
    q.matchIndex < q.nextIndex ∧ q.nextIndex ≤ n.log_.lastIndex + 1

def RawNode.Tracks (n : RawNode) : Prop :=
  ∀ v ≠ n.id_, ∀ q, n.pr_.find? v = some q → q.Tracked n.log_.lastIndex

theorem RawNode.Tracks.inBounds {n : RawNode} (h : n.Tracks) : n.InBounds := by
  intro v hv q hq hs
  have htr := h v hv q hq
  exact ⟨htr.lt hs, htr.next_le⟩

section Leader

variable {n n' : RawNode} {m : Message}

theorem RawNode.Tracks.dispatched (h : n.Tracks) (hd : Dispatched n n') : n'.Tracks := by
  intro v hv q' hq'
  rw [hd.id] at hv
  obtain ⟨q, hq, hsent⟩ := hd.find_old hq'
  rw [hd.log]
  exact (h v hv q hq).sent hsent

/-- Another log for the same progress, not shorter than the one before. -/
theorem RawNode.Tracks.relog (h : n.Tracks) (hid : n'.id_ = n.id_)
    (hpr : ∀ v ≠ n.id_, n'.pr_.find? v = n.pr_.find? v)
    (hle : n.log_.lastIndex ≤ n'.log_.lastIndex) : n'.Tracks := by
  intro v hv q hq
  rw [hid] at hv
  rw [hpr v hv] at hq
  exact (h v hv q hq).mono hle

theorem RawNode.Tracks.proposed (h : n.Tracks) (data : Bytes) : (n.proposed data).Tracks :=
  h.relog rfl (fun _ hv => find_proposed hv data) (RaftLog.lastIndex_le_append rfl)

theorem RawNode.Tracks.heard (h : n.Tracks) (hfit : m.sender ≠ n.id_ →
    ∀ q ∈ n.pr_.find? m.sender, q.Fits n.log_.lastIndex m) : (n.heard m).Tracks := by
  intro v hv q' hq'
  rw [find_heard] at hq'
  by_cases hvs : v = m.sender
  · subst hvs
    rw [if_pos rfl, Option.map_eq_some_iff] at hq'
    obtain ⟨q, hq, rfl⟩ := hq'
    exact (h _ hv q hq).hear (hfit hv q hq)
  · rw [if_neg hvs] at hq'
    exact h v hv q' hq'

/-- A message during a leadership. -/
theorem Served.tracks (hs : Served n m n') (h : n.Tracks) (hfit : n.Hears m → m.sender ≠ n.id_ →
    ∀ q ∈ n.pr_.find? m.sender, q.Fits n.log_.lastIndex m) : n'.Tracks := by
  cases hs with
  | ignored _ hd => exact h.dispatched hd
  | noted hm _ hd => exact (h.heard (hfit hm)).dispatched hd
  | confirmed hm _ _ hd =>
    obtain ⟨hpr, -, hlast⟩ := maybeCommit_frame (n.heard m)
    have hid : (n.heard m).maybeCommit.2.id_ = (n.heard m).id_ := by
      obtain ⟨k, heq⟩ := maybeCommit_eq (n.heard m)
      rw [heq]
    exact ((h.heard (hfit hm)).relog hid (fun v _ => by rw [hpr]) hlast.ge).dispatched hd
  | proposed _ hd => exact (h.proposed _).dispatched hd

/-- A new leader knows nothing about its peers and starts right behind its log. -/
theorem Elects.tracks (h : Elects n n') : n'.Tracks := by
  obtain ⟨n₀, -, -, -, -, hd⟩ := h
  refine RawNode.Tracks.dispatched ?_ hd
  intro v hv q hq
  rw [(elected_office n₀).2.2.1] at hv
  rw [find_elected n₀ hv, find_resetProgress n₀ hv] at hq
  have hlast : n₀.log_.lastIndex ≤ n₀.elected.log_.lastIndex := by
    rw [elected_log]
    split
    · exact RaftLog.lastIndex_le_append rfl
    · exact Nat.le_refl _
  split at hq
  · obtain rfl := Option.some.inj hq
    exact Progress.Tracked.mono
      ⟨Nat.zero_le _, Nat.le_refl _, fun _ => Nat.succ_pos _, fun _ => rfl⟩ hlast
  · cases hq

end Leader

/-! ## Runs -/

namespace Peer

/-- Appends come from correct leaders. -/
def Coherent (p : Peer) (ev : Event) : Prop := ∀ m ∈ p.stepped ev, m.Coherent

/-- Replies to a leader fit, and no released entry lies behind a pending snapshot. -/
def RepliesFit (p : Peer) : Event → Prop
  | .step m _ => p.ready = none → p.node.role_ = .leader → p.node.Hears m →
      m.sender ≠ p.node.id_ → ∀ q ∈ p.node.pr_.find? m.sender, q.Fits p.node.log_.lastIndex m
  | .advance => p.node.log_.unstable_.snapshot_ = none ∨ p.node.lastReadyLastIndex_ = 0
  | .tick _ | .propose _ | .readIndex _ | .poll | .persistEntries | .persistHardState | .send
  | .restart _ => True

instance (p : Peer) : (ev : Event) → Decidable (p.RepliesFit ev)
  | .step m _ => inferInstanceAs (Decidable (_ → _ → _ → _ → ∀ q ∈ p.node.pr_.find? m.sender, _))
  | .advance => inferInstanceAs (Decidable (_ ∨ _))
  | .tick _ | .propose _ | .readIndex _ | .poll | .persistEntries | .persistHardState | .send
  | .restart _ => isTrue trivial

end Peer

/-- The loop between two events. -/
structure Watched (p : Peer) : Prop where
  joined : p.node.log_.Joined
  tracks : p.node.role_ = .leader → p.node.Tracks
  idle : p.ready = none → p.node.lastReadyLastIndex_ = 0
  underway : ∀ {stage rd}, p.ready = some (stage, rd) → Underway p.node stage rd

section Watched

variable {p : Peer}

theorem watched_start (c : Config) {w : WriteAheadLog} (hw : w.entries_ ≠ []) (draw : Nat) :
    Watched (Peer.start c w draw) where
  joined := RaftLog.joined_new hw
  tracks := fun hr => absurd hr (by change Role.follower ≠ Role.leader; decide)
  idle := fun _ => rfl
  underway := fun hrd => by cases hrd

theorem Watched.step (h : Watched p) (hready : p.ready = none) {m : Message} {draw : Nat}
    (hm : m.Coherent) (hfit : p.RepliesFit (.step m draw)) :
    Watched { p with node := p.node.step m draw } where
  joined := by
    refine joined_effects (step_effects p.node m draw) ?_ h.joined
    rintro m' ⟨⟩
    exact hm
  tracks := fun hr => by
    rcases step_leader_cases p.node hr with ⟨hold, hterm⟩ | hel
    · exact (step_served hold hterm).tracks (h.tracks hold) (hfit hready hold)
    · exact hel.tracks
  idle := fun _ => (step_effects p.node m draw).lastReadyLastIndex.trans (h.idle hready)
  underway := fun hrd => absurd (hready.symm.trans hrd) (by simp)

theorem Watched.tick (h : Watched p) (hready : p.ready = none) (draw : Nat) :
    Watched { p with node := (p.node.tick draw).2 } := by
  have heff := tick_effects p.node draw
  refine ⟨joined_effects heff (fun m hm => by cases hm) h.joined, ?_,
    fun _ => heff.lastReadyLastIndex.trans (h.idle hready),
    fun hrd => absurd (hready.symm.trans hrd) (by simp)⟩
  intro hr
  rcases tick_leader_cases p.node hr with hold | hel
  · exact (h.tracks hold).dispatched (tick_dispatched p.node hold draw)
  · exact hel.tracks

theorem Watched.propose (h : Watched p) (data : Bytes) :
    Watched { p with node := (p.node.propose data).2 } := by
  have heff := propose_effects p.node data
  by_cases hr : p.node.role_ = .leader
  · have hd := propose_dispatched hr data
    refine ⟨joined_effects heff (fun m hm => by cases hm) h.joined,
      fun _ => ((h.tracks hr).proposed data).dispatched hd,
      fun hready => heff.lastReadyLastIndex.trans (h.idle hready), fun hrd => ?_⟩
    exact (h.underway hrd).append rfl hd.log heff.lastReadyLastIndex
  · have hsame : (p.node.propose data).2 = p.node := by
      rw [RawNode.propose, if_pos hr]
    rw [hsame]
    exact h

theorem Watched.readIndex (h : Watched p) (ctx : Bytes) :
    Watched { p with node := (p.node.readIndex ctx).2 } := by
  have hd := readIndex_dispatched p.node ctx
  refine ⟨?_, fun hr => (h.tracks (hd.role.symm.trans hr)).dispatched hd,
    fun hready => hd.mark.trans (h.idle hready),
    fun hrd => (h.underway hrd).of_eq hd.log hd.mark⟩
  change RaftLog.Joined (p.node.readIndex ctx).2.log_
  rw [hd.log]
  exact h.joined

/-- The store or the marks of the loop change, and nothing the leader tracks. -/
theorem Watched.relog (h : Watched p) {p' : Peer} (hjoined : p'.node.log_.Joined)
    (hrole : p'.node.role_ = p.node.role_) (hid : p'.node.id_ = p.node.id_)
    (hpr : p'.node.pr_ = p.node.pr_) (hlast : p'.node.log_.lastIndex = p.node.log_.lastIndex)
    (hidle : p'.ready = none → p'.node.lastReadyLastIndex_ = 0)
    (hunder : ∀ {stage rd}, p'.ready = some (stage, rd) → Underway p'.node stage rd) :
    Watched p' where
  joined := hjoined
  tracks := fun hr => (h.tracks (hrole.symm.trans hr)).relog hid (fun v _ => by rw [hpr]) hlast.ge
  idle := hidle
  underway := hunder

theorem Watched.persistEntries (h : Watched p) {rd : Ready}
    (hready : p.ready = some (.persistEntries, rd)) :
    Watched { p.store (fun w => w.appendNoSync rd.entries) with
      ready := some (.persistHardState, rd) } := by
  have hlog : (p.store fun w => w.appendNoSync rd.entries).node.log_ =
      { p.node.log_ with storage_ := p.node.log_.storage_.appendNoSync rd.entries } := rfl
  obtain ⟨hj, hlast, hu⟩ := (h.underway hready).persist h.joined hlog rfl
  refine h.relog hj rfl rfl rfl hlast (fun hrd => by cases hrd) ?_
  rintro stage rd' ⟨⟩
  exact hu

theorem Watched.persistHardState (h : Watched p) {rd : Ready}
    (hready : p.ready = some (.persistHardState, rd)) :
    Watched { p.saveHardState rd.hardState with ready := some (.send, rd) } := by
  have hu := h.underway hready
  have hstore : (p.saveHardState rd.hardState).node.log_.Joined ∧
      (p.saveHardState rd.hardState).node.log_.lastIndex = p.node.log_.lastIndex ∧
      (p.saveHardState rd.hardState).node.role_ = p.node.role_ ∧
      (p.saveHardState rd.hardState).node.id_ = p.node.id_ ∧
      (p.saveHardState rd.hardState).node.pr_ = p.node.pr_ ∧
      Underway (p.saveHardState rd.hardState).node .send rd := by
    unfold Peer.saveHardState
    split
    · exact ⟨⟨h.joined.dummy, h.joined.window, h.joined.no_gap⟩, rfl, rfl, rfl, rfl,
        ⟨hu.entries, hu.mark, fun _ => hu.stored (by decide)⟩⟩
    · exact ⟨h.joined, rfl, rfl, rfl, rfl,
        ⟨hu.entries, hu.mark, fun _ => hu.stored (by decide)⟩⟩
  obtain ⟨hj, hlast, hrole, hid, hpr, hu'⟩ := hstore
  refine h.relog hj hrole hid hpr hlast (fun hrd => by cases hrd) ?_
  rintro stage rd' ⟨⟩
  exact hu'

theorem Watched.advance (h : Watched p) {rd : Ready} (hready : p.ready = some (.advance, rd))
    (hs : p.node.log_.unstable_.snapshot_ = none ∨ p.node.lastReadyLastIndex_ = 0) :
    Watched { p with node := p.node.advance, ready := none } := by
  obtain ⟨hj, hlast, hmark⟩ := (h.underway hready).advance h.joined (by decide) hs
  have hkeep : p.node.advance.role_ = p.node.role_ ∧ p.node.advance.id_ = p.node.id_ := by
    unfold RawNode.advance
    dsimp only
    split_ifs <;> exact ⟨rfl, rfl⟩
  exact h.relog hj hkeep.1 hkeep.2 (advance_pr p.node) hlast (fun _ => hmark)
    fun hrd => by cases hrd

/-- One event. -/
theorem Watched.handle (h : Watched p) {ev : Event} (hm : p.Coherent ev) (hfit : p.RepliesFit ev) :
    Watched (p.handle ev).1 := by
  have hmove := p.handle_move ev
  generalize p.handle ev = r at hmove ⊢
  cases hmove with
  | tick draw hready => exact h.tick hready draw
  | step m draw hready =>
    refine h.step hready (hm m ?_) hfit
    rw [Peer.stepped, hready]
    rfl
  | propose data => exact h.propose data
  | readIndex ctx => exact h.readIndex ctx
  | poll hready =>
    refine ⟨h.joined, h.tracks, fun hrd => (by cases hrd), ?_⟩
    rintro stage rd ⟨⟩
    exact underway_poll h.joined (h.idle hready)
  | persistEntries rd hready => exact h.persistEntries hready
  | persistHardState rd hready => exact h.persistHardState hready
  | send rd hready =>
    have hu := h.underway hready
    refine ⟨h.joined, h.tracks, fun hrd => (by cases hrd), ?_⟩
    rintro stage rd' ⟨⟩
    exact ⟨hu.entries, hu.mark, fun _ => hu.stored (by decide)⟩
  | advance rd hready => exact h.advance hready hfit
  | restart draw => exact watched_start _ h.joined.dummy draw
  | stay => exact h

end Watched

/-- The first of three members, with nothing stored. -/
def memberOne : Peer := .start { id := 1, electionTick := 1, peers := [1, 2, 3] } .fresh 1

/-- It leads term 1 with two proposals of its own, and node 2 replicating. -/
def twoProposed : List Event :=
  [.tick 1, .step { type := .msgVoteResp, receiver := 1, sender := 2, term := 1 } 1,
    .step { type := .msgAppResp, receiver := 1, sender := 2, term := 1 } 1,
    .propose [1], .propose [2]]

/-- Node 2 has the first entries up to `i`. -/
def holdsUpTo (i : Nat) : Event :=
  .step { type := .msgAppResp, receiver := 1, sender := 2, term := 1, index := i } 1

theorem twoProposed_coherent (is : List Nat) :
    memberOne.Along Peer.Coherent (twoProposed ++ is.map holdsUpTo) := by
  refine Peer.along_of_forall fun ev hev p m hm hty => ?_
  have hno : ∀ m' draw, ev = .step m' draw → m'.type ≠ .msgApp := by
    rintro m' draw rfl
    simp only [twoProposed, holdsUpTo, List.cons_append, List.nil_append, List.mem_cons,
      Event.step.injEq, List.mem_map, reduceCtorEq, false_or] at hev
    rcases hev with ⟨rfl, -⟩ | ⟨rfl, -⟩ | ⟨i, -, rfl, -⟩ <;> exact MessageType.noConfusion
  cases ev with
  | step m' draw =>
    have hm' : m' = m := by
      rw [Peer.stepped] at hm
      split at hm
      · exact Option.some.inj hm
      · cases hm
    exact absurd (hm' ▸ hty) (hno m' draw rfl)
  | _ => cases hm

end NexusLOB.Raft
