import NexusLOB.Consensus.Replication
import NexusLOB.Raft.LogicalLog

/-!
# What a follower's append does to its log

`maybeAppend` has five outcomes for the logical log. Without a conflict the log stays, loses its
end, or, when the cut falls below the unstable offset, falls back to all that is stored. With a
conflict the entries are ignored if the conflict is not above the commit index, and otherwise
stored from the conflict on. In the last case the part below the conflict is the logical log, or
the stored one when the match was found beyond the logical end.
-/

namespace NexusLOB.Raft

open Consensus

/-- Entries that continue a log of length `prev`. -/
def Continues (prev : Nat) (ents : List Entry) : Prop :=
  ∀ j e, ents[j]? = some e → e.index = prev + j + 1 ∧ e.term ≠ 0

theorem Continues.tail {prev : Nat} {e : Entry} {rest : List Entry}
    (h : Continues prev (e :: rest)) : Continues (prev + 1) rest := by
  intro j e' he
  have := h (j + 1) e' he
  omega

theorem Continues.drop {prev : Nat} {ents : List Entry} (h : Continues prev ents) (j : Nat) :
    Continues (prev + j) (ents.drop j) := by
  intro i e he
  rw [List.getElem?_drop] at he
  have := h _ e he
  omega

theorem continues_of_slice {leaderLog ents : List Entry} {prev : Nat} (h : Indexed leaderLog)
    (hp : ents <+: leaderLog.drop prev) : Continues prev ents := by
  intro j e he
  have hj : j < ents.length := (List.getElem?_eq_some_iff.mp he).1
  have := h (prev + j) e (by rw [← List.getElem?_drop, ← getElem?_eq_of_isPrefix hp hj, he])
  omega

/-- Storing continuing entries after the first `k` of an indexed log. -/
theorem Indexed.append_continues {l ents : List Entry} (h : Indexed l)
    (hc : Continues l.length ents) : Indexed (l ++ ents) := by
  intro i e he
  rcases Nat.lt_or_ge i l.length with hlt | hge
  · rw [List.getElem?_append_left hlt] at he
    exact h i e he
  · rw [List.getElem?_append_right hge] at he
    have := hc _ e he
    omega

namespace RaftLog

section Reconcile

variable {l : RaftLog} {prev : Nat} {ents : List Entry}

/-- `findConflict` stops at the first entry whose term differs from the log's. -/
theorem findConflict_cases (l : RaftLog) (hc : Continues prev ents) :
    (l.findConflict ents = 0 ∧ ∀ j e, ents[j]? = some e → l.term (prev + j + 1) = e.term) ∨
      ∃ j e, ents[j]? = some e ∧ l.findConflict ents = prev + j + 1 ∧
        l.term (prev + j + 1) ≠ e.term ∧
        ∀ i e', i < j → ents[i]? = some e' → l.term (prev + i + 1) = e'.term := by
  induction ents generalizing prev with
  | nil => exact Or.inl ⟨rfl, fun j e he => nomatch he⟩
  | cons e rest ih =>
    have hidx : e.index = prev + 1 := (hc 0 e rfl).1
    rw [findConflict, hidx]
    by_cases hne : l.term (prev + 1) = e.term
    · rw [if_neg (not_not_intro hne)]
      rcases ih hc.tail with ⟨h0, hall⟩ | ⟨j, e', he', hf, hne', hall⟩
      · refine Or.inl ⟨h0, ?_⟩
        intro j e' he'
        cases j with
        | zero =>
          obtain rfl := Option.some.inj he'
          exact hne
        | succ j =>
          have := hall j e' he'
          rwa [show prev + 1 + j + 1 = prev + (j + 1) + 1 by omega] at this
      · refine Or.inr ⟨j + 1, e', he', by rw [hf]; omega, ?_, ?_⟩
        · rwa [show prev + 1 + j + 1 = prev + (j + 1) + 1 by omega] at hne'
        · intro i e'' hi he''
          cases i with
          | zero =>
            obtain rfl := Option.some.inj he''
            exact hne
          | succ i =>
            have := hall i e'' (by omega) he''
            rwa [show prev + 1 + i + 1 = prev + (i + 1) + 1 by omega] at this
    · rw [if_pos hne]
      exact Or.inr ⟨0, e, rfl, rfl, hne, fun i _ hi => absurd hi (by omega)⟩

/-- A conflict bounds the index that `findConflict` returns. -/
theorem findConflict_le (hc : Continues prev ents) {j : Nat} {e : Entry} (he : ents[j]? = some e)
    (hne : l.term (prev + j + 1) ≠ e.term) :
    l.findConflict ents ≠ 0 ∧ l.findConflict ents ≤ prev + j + 1 := by
  rcases findConflict_cases l hc with ⟨-, hall⟩ | ⟨j', e', -, hf, -, hall⟩
  · exact absurd (hall j e he) hne
  · have hle : j' ≤ j := by
      by_contra hlt
      exact hne (hall j e (by omega) he)
    omega

/-- The entry before the first conflict is one the log has. -/
theorem term_ne_zero_of_agree (hc : Continues prev ents) (hprev : l.term prev ≠ 0 ∨ prev = 0)
    {j : Nat} (hj : j ≤ ents.length)
    (hall : ∀ i e, i < j → ents[i]? = some e → l.term (prev + i + 1) = e.term) :
    l.term (prev + j) ≠ 0 ∨ prev + j = 0 := by
  cases j with
  | zero => exact hprev
  | succ i =>
    have hget : ents[i]? = some ents[i] := List.getElem?_eq_getElem hj
    left
    rw [← Nat.add_assoc, hall i _ (Nat.lt_succ_self i) hget]
    exact (hc i _ hget).2

/-- The log after an accepted append, before the commit index is looked at. -/
def reconcile (l : RaftLog) (prev : Nat) (ents : List Entry) : RaftLog :=
  if l.findConflict ents = 0 then
    if prev + ents.length < l.lastIndex then
      { l with unstable_ := l.unstable_.truncateFrom (prev + ents.length + 1) }
    else l
  else if l.findConflict ents ≤ l.committed_ then l
  else { l with unstable_ := l.unstable_.append (ents.drop (l.findConflict ents - prev - 1)) }

theorem maybeAppend_of_ne {pt lc : Nat} (h : l.term prev ≠ pt) :
    l.maybeAppend prev pt lc ents = (false, l) := by
  simp [maybeAppend, h]

theorem reconcile_committed : (l.reconcile prev ents).committed_ = l.committed_ := by
  unfold reconcile
  split_ifs <;> rfl

theorem reconcile_applied : (l.reconcile prev ents).applied_ = l.applied_ := by
  unfold reconcile
  split_ifs <;> rfl

theorem reconcile_storage : (l.reconcile prev ents).storage_ = l.storage_ := by
  unfold reconcile
  split_ifs <;> rfl

theorem maybeAppend_of_eq {pt : Nat} (h : l.term prev = pt) (lc : Nat) :
    l.maybeAppend prev pt lc ents = (true, { l.reconcile prev ents with
      committed_ := if lc > l.committed_ then min lc (prev + ents.length) else l.committed_ }) := by
  have hcom : (l.reconcile prev ents).committed_ = l.committed_ := reconcile_committed
  have hbody : l.maybeAppend prev pt lc ents =
      (true, if lc > (l.reconcile prev ents).committed_ then
        { l.reconcile prev ents with committed_ := min lc (prev + ents.length) }
        else l.reconcile prev ents) := by
    unfold maybeAppend
    rw [if_neg (not_not_intro h)]
    rfl
  rw [hbody, hcom]
  split_ifs with hlc
  · rfl
  · rw [← hcom]

/-- The logical log after an accepted append. -/
inductive Reconciled (l : RaftLog) (prev : Nat) (ents : List Entry) : List Entry → Prop
  | same (hc : l.findConflict ents = 0)
      (hend : l.logical.length ≤ prev + ents.length ∨ l.unstable_.entries_ = []) :
      Reconciled l prev ents l.logical
  | cut (hc : l.findConflict ents = 0) (hend : prev + ents.length < l.logical.length)
      (hne : l.unstable_.entries_ ≠ []) (ho : l.unstable_.offset_ ≤ prev + ents.length) :
      Reconciled l prev ents (l.logical.take (prev + ents.length))
  | cleared (hc : l.findConflict ents = 0) (hend : prev + ents.length < l.logical.length)
      (hne : l.unstable_.entries_ ≠ []) (ho : prev + ents.length < l.unstable_.offset_) :
      Reconciled l prev ents l.storage_.stored
  | ignored {j : Nat} {e : Entry} (he : ents[j]? = some e) (hne : l.term (prev + j + 1) ≠ e.term)
      (hle : prev + j + 1 ≤ l.committed_) : Reconciled l prev ents l.logical
  | stored {j : Nat} {e : Entry} {base : List Entry} (he : ents[j]? = some e)
      (hne : l.term (prev + j + 1) ≠ e.term) (hgt : l.committed_ < prev + j + 1)
      (hbase : base = l.logical ∧ prev + j ≤ l.logical.length ∨
        base = l.storage_.stored ∧ l.logical.length < prev + j ∧
          prev + j ≤ l.storage_.stored.length)
      (hall : ∀ i e', i < j → ents[i]? = some e' → l.term (prev + i + 1) = e'.term) :
      Reconciled l prev ents (base.take (prev + j) ++ ents.drop j)

/-- Changing only the unstable entries, with no gap and every entry in place. -/
theorem WF.of_unstable (h : l.WF) {u : LogUnstable} {log : List Entry}
    (hlog : RaftLog.logical { l with unstable_ := u } = log) (hs : u.snapshot_ = none)
    (hw : u.offset_ ≤ l.storage_.stored.length + 1) (hpos : u.entries_ ≠ [] → 1 ≤ u.offset_)
    (hi : Indexed log) : RaftLog.WF { l with unstable_ := u } :=
  ⟨h.dummy, h.snapIndex, hs, h.stored, hlog ▸ hi, hw, hpos⟩

/-- Cutting inside the unstable entries. -/
theorem WF.truncate_cut (h : l.WF) {last : Nat} (hne : l.unstable_.entries_ ≠ [])
    (hlt : last < l.logical.length) (ho : l.unstable_.offset_ ≤ last) :
    RaftLog.WF { l with unstable_ := l.unstable_.truncateFrom (last + 1) } ∧
      RaftLog.logical { l with unstable_ := l.unstable_.truncateFrom (last + 1) } =
        l.logical.take last := by
  have hpos := h.offset_pos hne
  have hw := h.window
  have hlen := h.length_logical hne
  have hun : l.unstable_.truncateFrom (last + 1) = { l.unstable_ with
      entries_ := l.unstable_.entries_.take (last + 1 - l.unstable_.offset_) } := by
    simp only [LogUnstable.truncateFrom, if_neg hne]
    rw [if_neg (by omega), if_pos (by omega)]
  have hne' : l.unstable_.entries_.take (last + 1 - l.unstable_.offset_) ≠ [] := by
    intro hnil
    have hl := congrArg List.length hnil
    rw [List.length_take, List.length_nil] at hl
    omega
  have hlog : RaftLog.logical { l with unstable_ := l.unstable_.truncateFrom (last + 1) } =
      l.logical.take last := by
    rw [hun, RaftLog.logical]
    simp only
    rw [if_neg hne', logical_of_ne_nil hne, List.take_append, List.length_take, List.take_take]
    congr 2 <;> omega
  refine ⟨h.of_unstable hlog ?_ ?_ ?_ (h.logical.take _), hlog⟩
  · rw [hun]; exact h.snapshot
  · rw [hun]; exact hw
  · intro _
    rw [hun]
    exact hpos

/-- Cutting at or below the offset leaves only what is stored. -/
theorem WF.truncate_clear (h : l.WF) {last : Nat} (hne : l.unstable_.entries_ ≠ [])
    (ho : last < l.unstable_.offset_) :
    RaftLog.WF { l with unstable_ := l.unstable_.truncateFrom (last + 1) } ∧
      RaftLog.logical { l with unstable_ := l.unstable_.truncateFrom (last + 1) } =
        l.storage_.stored := by
  have hlpos := List.length_pos_iff.mpr hne
  have hun : l.unstable_.truncateFrom (last + 1) = { l.unstable_ with entries_ := [] } := by
    simp only [LogUnstable.truncateFrom, if_neg hne]
    split
    · rfl
    · rw [if_pos (by omega), show last + 1 - l.unstable_.offset_ = 0 by omega, List.take_zero]
  have hlog : RaftLog.logical { l with unstable_ := l.unstable_.truncateFrom (last + 1) } =
      l.storage_.stored := by
    rw [hun, RaftLog.logical]
    simp
  refine ⟨h.of_unstable hlog ?_ ?_ ?_ h.stored, hlog⟩
  · rw [hun]; exact h.snapshot
  · rw [hun]; exact h.window
  · rw [hun]
    simp

/-- The unstable entries are replaced from their offset on. -/
theorem WF.append_replace (h : l.WF) {c : Nat} {toAppend : List Entry} (hne : toAppend ≠ [])
    (hi : Indexed (l.storage_.stored.take c ++ toAppend)) (hle : c ≤ l.storage_.stored.length)
    (hun : l.unstable_.append toAppend =
      { l.unstable_ with offset_ := c + 1, entries_ := toAppend }) :
    RaftLog.WF { l with unstable_ := l.unstable_.append toAppend } ∧
      RaftLog.logical { l with unstable_ := l.unstable_.append toAppend } =
        l.storage_.stored.take c ++ toAppend := by
  have hlog : RaftLog.logical { l with unstable_ := l.unstable_.append toAppend } =
      l.storage_.stored.take c ++ toAppend := by
    rw [hun, RaftLog.logical]
    simp [hne]
  refine ⟨h.of_unstable hlog ?_ ?_ ?_ hi, hlog⟩
  · rw [hun]; exact h.snapshot
  · rw [hun]
    simp only
    omega
  · rw [hun]
    simp

/-- The unstable entries are cut inside their window and go on with the new ones. -/
theorem WF.append_inside (h : l.WF) {c : Nat} {toAppend : List Entry} (hne : toAppend ≠ [])
    (hi : Indexed (l.logical.take c ++ toAppend)) (hune : l.unstable_.entries_ ≠ [])
    (hge : l.unstable_.offset_ ≤ c)
    (hun : l.unstable_.append toAppend = { l.unstable_ with
      entries_ := l.unstable_.entries_.take (c + 1 - l.unstable_.offset_) ++ toAppend }) :
    RaftLog.WF { l with unstable_ := l.unstable_.append toAppend } ∧
      RaftLog.logical { l with unstable_ := l.unstable_.append toAppend } =
        l.logical.take c ++ toAppend := by
  have hw := h.window
  have hpos := h.offset_pos hune
  have hlog : RaftLog.logical { l with unstable_ := l.unstable_.append toAppend } =
      l.logical.take c ++ toAppend := by
    rw [hun, RaftLog.logical]
    simp only
    rw [if_neg (by simp [hne]), logical_of_ne_nil hune, List.take_append, List.length_take,
      List.take_take, List.append_assoc, Nat.min_eq_right (by omega : l.unstable_.offset_ - 1 ≤ c),
      show c - min (l.unstable_.offset_ - 1) l.storage_.stored.length =
        c + 1 - l.unstable_.offset_ by omega]
  refine ⟨h.of_unstable hlog ?_ ?_ ?_ hi, hlog⟩
  · rw [hun]; exact h.snapshot
  · rw [hun]; exact hw
  · intro _
    rw [hun]
    exact hpos

/-- Storing entries from index `c` on, over a base that reaches up to it. -/
theorem WF.append_at (h : l.WF) {c : Nat} {toAppend base : List Entry} (hne : toAppend ≠ [])
    (hc : Continues c toAppend)
    (hbase : base = l.logical ∧ c ≤ l.logical.length ∨
      base = l.storage_.stored ∧ l.logical.length < c ∧ c ≤ l.storage_.stored.length) :
    RaftLog.WF { l with unstable_ := l.unstable_.append toAppend } ∧
      RaftLog.logical { l with unstable_ := l.unstable_.append toAppend } =
        base.take c ++ toAppend := by
  obtain ⟨e, rest, rfl⟩ := List.exists_cons_of_ne_nil hne
  have hidx : e.index = c + 1 := (hc 0 e rfl).1
  have hw := h.window
  have hbi : Indexed base := by
    rcases hbase with ⟨rfl, -⟩ | ⟨rfl, -, -⟩
    · exact h.logical
    · exact h.stored
  have hclen : c ≤ base.length := by
    rcases hbase with ⟨rfl, hle⟩ | ⟨rfl, -, hle⟩ <;> exact hle
  have hindexed : Indexed (base.take c ++ e :: rest) := by
    refine (hbi.take c).append_continues ?_
    rw [List.length_take, Nat.min_eq_left hclen]
    exact hc
  have hreplace : c ≤ l.storage_.stored.length → l.storage_.stored.take c = base.take c →
      l.unstable_.append (e :: rest) =
        { l.unstable_ with offset_ := c + 1, entries_ := e :: rest } →
      RaftLog.WF { l with unstable_ := l.unstable_.append (e :: rest) } ∧
      RaftLog.logical { l with unstable_ := l.unstable_.append (e :: rest) } =
        base.take c ++ e :: rest := by
    intro hle htake hun
    rw [← htake] at hindexed ⊢
    exact h.append_replace hne hindexed hle hun
  by_cases hune : l.unstable_.entries_ = []
  · have hlog := logical_of_nil hune
    refine hreplace ?_ ?_ ?_
    · rcases hbase with ⟨-, hle⟩ | ⟨-, -, hle⟩
      · rwa [hlog] at hle
      · exact hle
    · rcases hbase with ⟨rfl, -⟩ | ⟨rfl, -, -⟩
      · rw [hlog]
      · rfl
    · simp [LogUnstable.append, LogUnstable.truncateAndAppend, hune, hidx]
  · have hpos := h.offset_pos hune
    have hlen := h.length_logical hune
    have hupos := List.length_pos_iff.mpr hune
    rcases Nat.lt_or_ge c l.unstable_.offset_ with hlt | hge
    · -- at or before the unstable window
      have hb : base = l.logical := by
        rcases hbase with ⟨hb, -⟩ | ⟨-, hgt, -⟩
        · exact hb
        · omega
      refine hreplace (by omega) ?_ ?_
      · rw [hb, h.take_logical (by omega)]
      · simp only [LogUnstable.append, LogUnstable.truncateAndAppend, if_neg hune, hidx]
        rw [if_pos (by omega)]
    · rcases hbase with ⟨rfl, hle⟩ | ⟨rfl, hgt, hle⟩
      · -- inside the window
        apply h.append_inside hne hindexed hune hge
        simp only [LogUnstable.append, LogUnstable.truncateAndAppend, if_neg hune, hidx]
        rw [if_neg (by omega), if_neg (by omega)]
      · -- a gap above the window: the match was found among stale stored entries
        refine hreplace hle rfl ?_
        simp only [LogUnstable.append, LogUnstable.truncateAndAppend, if_neg hune, hidx]
        rw [if_neg (by omega), if_pos (by omega)]

/-- Without a conflict the log ends with the entries, if it can be cut there. -/
theorem WF.reconcile_agree (h : l.WF) (h0 : l.findConflict ents = 0) :
    (l.reconcile prev ents).WF ∧ Reconciled l prev ents (l.reconcile prev ents).logical := by
  have hlast := h.lastIndex_eq
  rw [RaftLog.reconcile, if_pos h0]
  split_ifs with hlt
  · rw [hlast] at hlt
    by_cases hune : l.unstable_.entries_ = []
    · have htr : l.unstable_.truncateFrom (prev + ents.length + 1) = l.unstable_ := by
        simp [LogUnstable.truncateFrom, hune]
      rw [htr]
      exact ⟨h, .same h0 (Or.inr hune)⟩
    · rcases Nat.lt_or_ge (prev + ents.length) l.unstable_.offset_ with ho | ho
      · obtain ⟨hwf, hlog⟩ := h.truncate_clear hune ho
        rw [hlog]
        exact ⟨hwf, .cleared h0 hlt hune ho⟩
      · obtain ⟨hwf, hlog⟩ := h.truncate_cut hune hlt ho
        rw [hlog]
        exact ⟨hwf, .cut h0 hlt hune ho⟩
  · exact ⟨h, .same h0 (Or.inl (by omega))⟩

/-- An accepted append keeps the log well formed and has one of the five outcomes. -/
theorem WF.reconcile (h : l.WF) (hc : Continues prev ents)
    (hprev : l.term prev ≠ 0 ∨ prev = 0) :
    (l.reconcile prev ents).WF ∧ Reconciled l prev ents (l.reconcile prev ents).logical := by
  rcases findConflict_cases l hc with ⟨h0, -⟩ | ⟨j, e, he, hf, hne, hall⟩
  · exact h.reconcile_agree h0
  · have hne0 : l.findConflict ents ≠ 0 := by omega
    by_cases hcom : prev + j + 1 ≤ l.committed_
    · have hrec : l.reconcile prev ents = l := by
        rw [RaftLog.reconcile, if_neg hne0, hf, if_pos hcom]
      rw [hrec]
      exact ⟨h, .ignored he hne hcom⟩
    · have hrec : l.reconcile prev ents =
          { l with unstable_ := l.unstable_.append (ents.drop j) } := by
        rw [RaftLog.reconcile, if_neg hne0, hf, if_neg hcom]
        congr 3
        omega
      have hj : j < ents.length := (List.getElem?_eq_some_iff.mp he).1
      -- the entry before the conflict was found in one of the two stores
      have hfound : prev + j ≤ l.logical.length ∨
          l.logical.length < prev + j ∧ prev + j ≤ l.storage_.stored.length := by
        rcases Nat.lt_or_ge l.logical.length (prev + j) with hgt | hle
        · refine Or.inr ⟨hgt, ?_⟩
          have hterm := (term_ne_zero_of_agree hc hprev hj.le hall).resolve_right (by omega)
          rw [h.term_eq_stale hgt] at hterm
          exact le_length_of_termAt_ne_zero hterm
        · exact Or.inl hle
      have hdrop : ents.drop j ≠ [] := by
        intro hnil
        have := List.drop_eq_nil_iff.mp hnil
        omega
      rw [hrec]
      rcases hfound with hle | ⟨hgt, hle⟩
      · obtain ⟨hwf, hlog⟩ := h.append_at hdrop (hc.drop j) (Or.inl ⟨rfl, hle⟩)
        rw [hlog]
        exact ⟨hwf, .stored he hne (by omega) (Or.inl ⟨rfl, hle⟩) hall⟩
      · obtain ⟨hwf, hlog⟩ := h.append_at hdrop (hc.drop j) (Or.inr ⟨rfl, hgt, hle⟩)
        rw [hlog]
        exact ⟨hwf, .stored he hne (by omega) (Or.inr ⟨rfl, hgt, hle⟩) hall⟩

end Reconcile

/-! ## Appends of a leader's entries -/

/-- The two ways in which an append without a conflict goes wrong are not taken: the entries do
not end beyond the log, where the match would be with stale stored entries, and the part that is
cut off does not begin with an entry of the leader's log. -/
def Careful (l : RaftLog) (leaderLog : List Entry) (prev : Nat) (ents : List Entry) : Prop :=
  l.findConflict ents = 0 → prev + ents.length ≤ l.lastIndex ∧
    (prev + ents.length < l.lastIndex → l.unstable_.entries_ ≠ [] →
      l.term (max (prev + ents.length + 1) l.unstable_.offset_) ≠
        termAt Entry.term leaderLog (max (prev + ents.length + 1) l.unstable_.offset_))

instance (l : RaftLog) (leaderLog : List Entry) (prev : Nat) (ents : List Entry) :
    Decidable (l.Careful leaderLog prev ents) :=
  inferInstanceAs (Decidable (_ → _))

/-- A message of a leader that the log can follow without harm: an append it takes carefully, or
a heartbeat whose commit index ends at an entry of the leader's log. -/
def Heeds (l : RaftLog) (leaderLog : Nat → List Entry) (m : Message) : Prop :=
  (m.type = .msgApp → l.term m.index = m.logTerm →
    l.Careful (leaderLog m.term) m.index m.entries) ∧
  (m.type = .msgHeartbeat → l.committed_ < m.commit →
    l.term (min m.commit l.lastIndex) =
      termAt Entry.term (leaderLog m.term) (min m.commit l.lastIndex))

instance (l : RaftLog) (leaderLog : Nat → List Entry) (m : Message) :
    Decidable (l.Heeds leaderLog m) :=
  inferInstanceAs (Decidable (_ ∧ _))

/-- A log and a leader's log that match, and a slice of the leader's log the follower accepts. -/
structure Accepts (l : RaftLog) (leaderLog : List Entry) (prev : Nat) (ents : List Entry) :
    Prop where
  wf : l.WF
  indexed : Indexed leaderLog
  logical : Matches Entry.term l.logical leaderLog
  stored : Matches Entry.term l.storage_.stored leaderLog
  prev_le : prev ≤ leaderLog.length
  entries : ents <+: leaderLog.drop prev
  term_prev : l.term prev = termAt Entry.term leaderLog prev

section Accepts

variable {l : RaftLog} {leaderLog : List Entry} {prev : Nat} {ents : List Entry}

theorem Accepts.last_le (h : Accepts l leaderLog prev ents) :
    prev + ents.length ≤ leaderLog.length := by
  have hlen := h.entries.length_le
  rw [List.length_drop] at hlen
  have := h.prev_le
  omega

theorem Accepts.continues (h : Accepts l leaderLog prev ents) : Continues prev ents :=
  continues_of_slice h.indexed h.entries

/-- The entry before the new ones is in the log, or there is none. -/
theorem Accepts.prev_pos (h : Accepts l leaderLog prev ents) : l.term prev ≠ 0 ∨ prev = 0 := by
  rcases Nat.eq_zero_or_pos prev with h0 | hpos
  · exact Or.inr h0
  · rw [h.term_prev]
    exact Or.inl (h.indexed.termAt_ne_zero hpos h.prev_le)

theorem Accepts.term_entry (h : Accepts l leaderLog prev ents) {j : Nat} {e : Entry}
    (he : ents[j]? = some e) : e.term = termAt Entry.term leaderLog (prev + j + 1) := by
  have hj : j < ents.length := (List.getElem?_eq_some_iff.mp he).1
  rw [getElem?_eq_of_isPrefix h.entries hj, List.getElem?_drop] at he
  simp [termAt, he]

/-- Equal terms inside the log. -/
theorem Accepts.take_logical (h : Accepts l leaderLog prev ents) {i : Nat}
    (hi : i ≤ l.logical.length) (hi' : i ≤ leaderLog.length)
    (ht : l.term i = termAt Entry.term leaderLog i) : l.logical.take i = leaderLog.take i :=
  h.logical i hi hi' (by rw [← h.wf.term_eq hi]; exact ht)

/-- Equal terms beyond the log, among stale stored entries. -/
theorem Accepts.take_stored (h : Accepts l leaderLog prev ents) {i : Nat}
    (hgt : l.logical.length < i) (hi : i ≤ l.storage_.stored.length) (hi' : i ≤ leaderLog.length)
    (ht : l.term i = termAt Entry.term leaderLog i) :
    l.storage_.stored.take i = leaderLog.take i :=
  h.stored i hi hi' (by rw [← h.wf.term_eq_stale hgt]; exact ht)

/-- If all entries before the `j`-th agree, so does the term right before it. -/
theorem Accepts.term_before (h : Accepts l leaderLog prev ents) {j : Nat} (hj : j ≤ ents.length)
    (hall : ∀ i e, i < j → ents[i]? = some e → l.term (prev + i + 1) = e.term) :
    l.term (prev + j) = termAt Entry.term leaderLog (prev + j) := by
  cases j with
  | zero => exact h.term_prev
  | succ i =>
    have hget := List.getElem?_eq_getElem (show i < ents.length by omega)
    rw [← Nat.add_assoc, hall i _ (by omega) hget]
    exact h.term_entry hget

/-- Without a conflict the log agrees with the leader's up to the last new entry it reaches. -/
theorem Accepts.take_last (h : Accepts l leaderLog prev ents) (hc : l.findConflict ents = 0)
    (hle : prev + ents.length ≤ l.logical.length) :
    l.logical.take (prev + ents.length) = leaderLog.take (prev + ents.length) := by
  refine h.take_logical hle h.last_le (h.term_before le_rfl ?_)
  intro i e _ he
  rcases findConflict_cases l h.continues with ⟨-, hall⟩ | ⟨j, e', -, hf, -, -⟩
  · exact hall i e he
  · omega

/-- What the log and the leader's log share ends before an index where their terms differ. -/
theorem Accepts.shared_lt (h : Accepts l leaderLog prev ents) {p : List Entry} {i : Nat}
    (hp : p <+: l.logical) (hp' : p <+: leaderLog)
    (hne : l.term i ≠ termAt Entry.term leaderLog i) : p.length < i := by
  by_contra hge
  have hi : i ≤ p.length := by omega
  apply hne
  rw [h.wf.term_eq (hi.trans hp.length_le), ← termAt_eq_of_isPrefix hp hi,
    termAt_eq_of_isPrefix hp' hi]

/-- Storing from the conflict on makes the log the leader's up to the last new entry. -/
theorem Accepts.stored_eq (h : Accepts l leaderLog prev ents) {j : Nat} {base : List Entry}
    (hj : j < ents.length)
    (hbase : base = l.logical ∧ prev + j ≤ l.logical.length ∨
      base = l.storage_.stored ∧ l.logical.length < prev + j ∧
        prev + j ≤ l.storage_.stored.length)
    (hall : ∀ i e, i < j → ents[i]? = some e → l.term (prev + i + 1) = e.term) :
    base.take (prev + j) ++ ents.drop j = leaderLog.take (prev + ents.length) := by
  have hlast := h.last_le
  have ht := h.term_before hj.le hall
  have hb : base.take (prev + j) = leaderLog.take (prev + j) := by
    rcases hbase with ⟨rfl, hle⟩ | ⟨rfl, hgt, hle⟩
    · exact h.take_logical hle (by omega) ht
    · exact h.take_stored hgt hle (by omega) ht
  have hd : ents.drop j = (leaderLog.drop (prev + j)).take (ents.length - j) := by
    conv_lhs => rw [← take_length_of_isPrefix h.entries]
    rw [List.drop_take, List.drop_drop]
  rw [hb, hd, ← List.take_add]
  congr 1
  omega

/-- What the log and the leader's log share survives a careful append. -/
theorem Accepts.keeps (h : Accepts l leaderLog prev ents) (hcare : l.Careful leaderLog prev ents)
    {p : List Entry} (hp : p <+: l.logical) (hp' : p <+: leaderLog) :
    p <+: (l.reconcile prev ents).logical := by
  have hlast := h.last_le
  have hcut : l.findConflict ents = 0 → prev + ents.length < l.logical.length →
      l.unstable_.entries_ ≠ [] → p.length < max (prev + ents.length + 1) l.unstable_.offset_ := by
    intro hc hlt hne
    exact h.shared_lt hp hp' ((hcare hc).2 (by rw [h.wf.lastIndex_eq]; exact hlt) hne)
  generalize hres : (l.reconcile prev ents).logical = log'
  have hrec := (h.wf.reconcile h.continues h.prev_pos).2
  rw [hres] at hrec
  cases hrec with
  | same hc hend' => exact hp
  | cut hc hlt hne ho =>
    have hshort := hcut hc hlt hne
    exact (prefix_take_iff_of_length (by omega)).mpr hp
  | cleared hc hlt hne ho =>
    have hshort := hcut hc hlt hne
    have hp'' := (prefix_take_iff_of_length (by omega : p.length ≤ l.unstable_.offset_ - 1)).mpr hp
    rw [h.wf.take_logical le_rfl] at hp''
    exact hp''.trans (List.take_prefix _ _)
  | ignored he hne hle => exact hp
  | @stored j e base he hne hgt hbase hall =>
    have hj : j < ents.length := (List.getElem?_eq_some_iff.mp he).1
    rw [h.stored_eq hj hbase hall]
    have hshort := h.shared_lt hp hp' (by rw [← h.term_entry he]; exact hne)
    exact (prefix_take_iff_of_length (by omega)).mpr hp'

/-- After a careful append the acknowledged entries are there, unless an entry was ignored because
the commit index had already passed it. -/
theorem Accepts.holds (h : Accepts l leaderLog prev ents) (hcare : l.Careful leaderLog prev ents) :
    leaderLog.take (prev + ents.length) <+: (l.reconcile prev ents).logical ∨
      ∃ j e, ents[j]? = some e ∧ l.term (prev + j + 1) ≠ e.term ∧ prev + j + 1 ≤ l.committed_ := by
  have hend : l.findConflict ents = 0 → prev + ents.length ≤ l.logical.length := by
    intro hc
    rw [← h.wf.lastIndex_eq]
    exact (hcare hc).1
  generalize hres : (l.reconcile prev ents).logical = log'
  have hrec := (h.wf.reconcile h.continues h.prev_pos).2
  rw [hres] at hrec
  cases hrec with
  | same hc hend' =>
    rw [← h.take_last hc (hend hc)]
    exact Or.inl (List.take_prefix _ _)
  | cut hc hlt hne ho =>
    rw [← h.take_last hc hlt.le]
    exact Or.inl List.prefix_rfl
  | cleared hc hlt hne ho =>
    rw [← h.take_last hc hlt.le, h.wf.take_logical (by omega)]
    exact Or.inl (List.take_prefix _ _)
  | ignored he hne hle => exact Or.inr ⟨_, _, he, hne, hle⟩
  | @stored j e base he hne hgt hbase hall =>
    have hj : j < ents.length := (List.getElem?_eq_some_iff.mp he).1
    rw [h.stored_eq hj hbase hall]
    exact Or.inl List.prefix_rfl

/-- Where the entries of the new log come from. -/
theorem Accepts.source (h : Accepts l leaderLog prev ents) :
    (l.reconcile prev ents).logical <+: l.logical ∨
      (l.reconcile prev ents).logical = l.storage_.stored ∨
      (l.reconcile prev ents).logical = leaderLog.take (prev + ents.length) := by
  generalize hres : (l.reconcile prev ents).logical = log'
  have hrec := (h.wf.reconcile h.continues h.prev_pos).2
  rw [hres] at hrec
  cases hrec with
  | same hc hend' => exact Or.inl List.prefix_rfl
  | cut hc hlt hne ho => exact Or.inl (List.take_prefix _ _)
  | cleared hc hlt hne ho => exact Or.inr (Or.inl rfl)
  | ignored he hne hle => exact Or.inl List.prefix_rfl
  | @stored j e base he hne hgt hbase hall =>
    exact Or.inr (Or.inr (h.stored_eq (List.getElem?_eq_some_iff.mp he).1 hbase hall))

/-- An accepted append is a step of a follower of the leader's log. -/
theorem Accepts.follows (h : Accepts l leaderLog prev ents) {strict : Prop}
    (hcare : strict → l.Careful leaderLog prev ents)
    (hcom : strict → l.committed_ ≤ l.logical.length) :
    Replication.Follows Entry.term strict leaderLog (prev + ents.length) l.committed_ l.logical
      l.storage_.stored (l.reconcile prev ents).logical := by
  refine ⟨h.source, fun hs _ hp hp' => h.keeps (hcare hs) hp hp', ?_⟩
  intro hs
  rcases h.holds (hcare hs) with hheld | ⟨j, e, he, hne, hle⟩
  · exact Or.inl hheld
  · have hlast := h.last_le
    have hj : j < ents.length := (List.getElem?_eq_some_iff.mp he).1
    have hin := hle.trans (hcom hs)
    refine Or.inr ⟨prev + j + 1, hle, hin, by omega, ?_⟩
    rw [← h.wf.term_eq hin, ← h.term_entry he]
    exact hne

end Accepts

end RaftLog

end NexusLOB.Raft
