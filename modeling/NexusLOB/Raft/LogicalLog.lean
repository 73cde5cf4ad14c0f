import NexusLOB.Consensus.Logs
import NexusLOB.Raft.RaftLog

/-!
# The logical log

The one log a `RaftLog` stands for: the stored entries below the unstable offset and the unstable
entries from it on. In a well-formed log without snapshots every read of the source is a read of
the logical log, with one exception: `term` looks past the logical end into whatever the storage
still holds there.
-/

namespace NexusLOB.Raft

open Consensus

/-! ## Positions -/

/-- Every entry carries its position as its index, and a term some leader had. -/
def Indexed (l : List Entry) : Prop := ∀ i e, l[i]? = some e → e.index = i + 1 ∧ e.term ≠ 0

theorem indexed_nil : Indexed [] := fun _ _ h => nomatch h

theorem Indexed.of_isPrefix {l l' : List Entry} (h : Indexed l') (hp : l <+: l') : Indexed l := by
  intro i e he
  have hi : i < l.length := (List.getElem?_eq_some_iff.mp he).1
  exact h i e (by rw [← getElem?_eq_of_isPrefix hp hi, he])

theorem Indexed.take {l : List Entry} (h : Indexed l) (n : Nat) : Indexed (l.take n) :=
  h.of_isPrefix (List.take_prefix n l)

theorem Indexed.snoc {l : List Entry} (h : Indexed l) {e : Entry} (hi : e.index = l.length + 1)
    (ht : e.term ≠ 0) : Indexed (l ++ [e]) := by
  intro i e' he
  rcases Nat.lt_trichotomy i l.length with hlt | heq | hgt
  · rw [List.getElem?_append_left hlt] at he
    exact h i e' he
  · subst heq
    rw [List.getElem?_concat_length] at he
    obtain rfl := Option.some.inj he
    exact ⟨hi, ht⟩
  · rw [List.getElem?_eq_none (by simp; omega)] at he
    cases he

theorem Indexed.term_ne_zero {l : List Entry} (h : Indexed l) : ∀ e ∈ l, e.term ≠ 0 := by
  intro e he
  obtain ⟨i, hi, rfl⟩ := List.getElem_of_mem he
  exact (h i _ (List.getElem?_eq_getElem hi)).2

theorem Indexed.termAt_ne_zero {l : List Entry} (h : Indexed l) {i : Nat} (h1 : 1 ≤ i)
    (h2 : i ≤ l.length) : termAt Entry.term l i ≠ 0 :=
  (termAt_ne_zero_iff h.term_ne_zero).mpr ⟨h1, h2⟩

/-- A log is that of a matching one up to an index where their terms agree. -/
theorem Indexed.take_isPrefix {l l' : List Entry} (h : Indexed l) (hm : Matches Entry.term l l')
    {i : Nat} (hi : i ≤ l.length) (ht : termAt Entry.term l i = termAt Entry.term l' i) :
    l.take i <+: l' := by
  rcases Nat.eq_zero_or_pos i with rfl | hpos
  · exact List.nil_prefix
  · have hi' : i ≤ l'.length := le_length_of_termAt_ne_zero (ht ▸ h.termAt_ne_zero hpos hi)
    rw [hm i hi hi' ht]
    exact List.take_prefix _ _

/-! ## The stored entries -/

/-- The entries of the store, without the dummy at index 0. -/
def WriteAheadLog.stored (w : WriteAheadLog) : List Entry := w.entries_.drop 1

theorem WriteAheadLog.lastIndex_eq (w : WriteAheadLog) : w.lastIndex = w.stored.length := by
  simp [WriteAheadLog.lastIndex, WriteAheadLog.stored]

theorem WriteAheadLog.drop_eq_stored (w : WriteAheadLog) {i : Nat} (h : 1 ≤ i) :
    w.entries_.drop i = w.stored.drop (i - 1) := by
  rw [WriteAheadLog.stored, List.drop_drop]
  congr 1
  omega

/-- What `RaftLog::term` makes of the store's answer. -/
theorem WriteAheadLog.term_eq (w : WriteAheadLog) (hs : w.snapIndex_ = 0) (i : Nat) :
    (match w.term i with | .ok t => t | .error _ => 0) = termAt Entry.term w.stored i := by
  unfold WriteAheadLog.term
  rw [WriteAheadLog.firstIndex, hs, WriteAheadLog.lastIndex_eq]
  by_cases h : i < 0 + 1 ∨ i > w.stored.length
  · rw [if_pos h]
    rcases h with h | h
    · obtain rfl : i = 0 := by omega
      rfl
    · exact (termAt_of_gt h).symm
  · rw [if_neg h]
    obtain ⟨j, rfl⟩ : ∃ j, i = j + 1 := ⟨i - 1, by omega⟩
    have hj : j < w.stored.length := by omega
    rw [termAt_eq_getElem hj]
    have hlt : j + 1 < w.entries_.length := by
      simp only [WriteAheadLog.stored, List.length_drop] at hj
      omega
    simp only [List.getD_eq_getElem?_getD, List.getElem?_eq_getElem hlt, Option.getD_some,
      WriteAheadLog.stored, List.getElem_drop]
    congr 2
    omega

namespace RaftLog

/-- The stored entries below the unstable offset, then the unstable ones. -/
def logical (l : RaftLog) : List Entry :=
  if l.unstable_.entries_ = [] then l.storage_.stored
  else l.storage_.stored.take (l.unstable_.offset_ - 1) ++ l.unstable_.entries_

/-- No snapshot anywhere, no gap between the two stores, every entry at its place. -/
structure WF (l : RaftLog) : Prop where
  dummy : l.storage_.entries_ ≠ []
  snapIndex : l.storage_.snapIndex_ = 0
  snapshot : l.unstable_.snapshot_ = none
  stored : Indexed l.storage_.stored
  logical : Indexed l.logical
  window : l.unstable_.offset_ ≤ l.storage_.stored.length + 1
  offset_pos : l.unstable_.entries_ ≠ [] → 1 ≤ l.unstable_.offset_

theorem logical_of_nil {l : RaftLog} (h : l.unstable_.entries_ = []) :
    l.logical = l.storage_.stored := by
  simp [logical, h]

theorem logical_of_ne_nil {l : RaftLog} (h : l.unstable_.entries_ ≠ []) :
    l.logical = l.storage_.stored.take (l.unstable_.offset_ - 1) ++ l.unstable_.entries_ := by
  simp [logical, h]

section WF

variable {l : RaftLog}

theorem WF.length_logical (h : l.WF) (hne : l.unstable_.entries_ ≠ []) :
    l.logical.length = l.unstable_.offset_ - 1 + l.unstable_.entries_.length := by
  have hw := h.window
  rw [logical_of_ne_nil hne, List.length_append, List.length_take]
  omega

theorem WF.firstIndex_eq (h : l.WF) : l.firstIndex = 1 := by
  simp [firstIndex, LogUnstable.maybeFirstIndex, h.snapshot, WriteAheadLog.firstIndex, h.snapIndex]

theorem WF.lastIndex_eq (h : l.WF) : l.lastIndex = l.logical.length := by
  unfold lastIndex LogUnstable.maybeLastIndex
  by_cases hne : l.unstable_.entries_ = []
  · simp [hne, h.snapshot, logical_of_nil hne, WriteAheadLog.lastIndex_eq]
  · have hpos := h.offset_pos hne
    rw [if_pos hne]
    simp only [h.length_logical hne]
    omega

theorem WF.lastIndex_congr (h : l.WF) {l' : RaftLog} (h' : l'.WF) (hlog : l'.logical = l.logical) :
    l'.lastIndex = l.lastIndex := by
  rw [h'.lastIndex_eq, hlog, h.lastIndex_eq]

/-- Where the unstable entries do not answer, the storage does. -/
theorem WF.term_eq_stored (h : l.WF) {i : Nat}
    (hi : l.unstable_.entries_ = [] ∨ i < l.unstable_.offset_ ∨ l.logical.length < i) :
    l.term i = termAt Entry.term l.storage_.stored i := by
  unfold term
  rw [h.firstIndex_eq]
  by_cases h0 : i = 0
  · subst h0
    rfl
  · have hnone : l.unstable_.maybeTerm i = none := by
      unfold LogUnstable.maybeTerm LogUnstable.maybeLastIndex
      rw [h.snapshot]
      by_cases hlt : i < l.unstable_.offset_
      · simp [hlt]
      · by_cases hne : l.unstable_.entries_ = []
        · simp [hlt, hne]
        · have hlen := h.length_logical hne
          have hpos := h.offset_pos hne
          have hgt : l.logical.length < i := by
            rcases hi with hi | hi | hi
            · exact absurd hi hne
            · exact absurd hi hlt
            · exact hi
          rw [if_neg hlt, if_pos hne]
          simp only
          rw [if_pos (by omega)]
    rw [if_neg (by omega), hnone]
    exact l.storage_.term_eq h.snapIndex i

theorem WF.term_eq_unstable (h : l.WF) {j : Nat} (hj : j < l.unstable_.entries_.length) :
    l.term (l.unstable_.offset_ + j) = termAt Entry.term l.unstable_.entries_ (j + 1) := by
  have hne : l.unstable_.entries_ ≠ [] := List.ne_nil_of_length_pos (by omega)
  have hpos := h.offset_pos hne
  unfold term
  rw [h.firstIndex_eq, if_neg (by omega)]
  have hsome : l.unstable_.maybeTerm (l.unstable_.offset_ + j) =
      some (termAt Entry.term l.unstable_.entries_ (j + 1)) := by
    unfold LogUnstable.maybeTerm LogUnstable.maybeLastIndex
    rw [if_neg (by omega), if_pos hne]
    simp only
    rw [if_neg (by omega), termAt_eq_getElem hj, Nat.add_sub_cancel_left,
      List.getD_eq_getElem?_getD, List.getElem?_eq_getElem hj, Option.getD_some]
  rw [hsome]

/-- Inside the log, `term` reads the logical log. -/
theorem WF.term_eq (h : l.WF) {i : Nat} (hi : i ≤ l.logical.length) :
    l.term i = termAt Entry.term l.logical i := by
  by_cases hne : l.unstable_.entries_ = []
  · rw [h.term_eq_stored (Or.inl hne), logical_of_nil hne]
  · have hlen := h.length_logical hne
    have hpos := h.offset_pos hne
    have hw := h.window
    rcases Nat.lt_or_ge i l.unstable_.offset_ with hlt | hge
    · rw [h.term_eq_stored (Or.inr (Or.inl hlt)), logical_of_ne_nil hne,
        ← termAt_eq_of_isPrefix (List.prefix_append _ _) (by rw [List.length_take]; omega),
        termAt_take (by omega)]
    · obtain ⟨j, rfl⟩ : ∃ j, i = l.unstable_.offset_ + j := ⟨i - l.unstable_.offset_, by omega⟩
      have hj : j < l.unstable_.entries_.length := by omega
      have htake : (l.storage_.stored.take (l.unstable_.offset_ - 1)).length =
          l.unstable_.offset_ - 1 := by
        rw [List.length_take]
        omega
      have hidx : l.unstable_.offset_ + j =
          (l.storage_.stored.take (l.unstable_.offset_ - 1)).length + (j + 1) := by
        rw [htake]
        omega
      rw [h.term_eq_unstable hj, logical_of_ne_nil hne]
      conv_rhs => rw [hidx, termAt_append_right (by omega)]

/-- Beyond the log, `term` reads what the storage still holds. -/
theorem WF.term_eq_stale (h : l.WF) {i : Nat} (hi : l.logical.length < i) :
    l.term i = termAt Entry.term l.storage_.stored i := h.term_eq_stored (Or.inr (Or.inr hi))

theorem WF.lastTerm_eq (h : l.WF) : l.lastTerm = Consensus.lastTerm Entry.term l.logical := by
  rw [lastTerm, h.lastIndex_eq, h.term_eq le_rfl]
  rfl

/-! ## Slices -/

theorem WF.take_logical (h : l.WF) {n : Nat} (hn : n ≤ l.unstable_.offset_ - 1) :
    l.logical.take n = l.storage_.stored.take n := by
  by_cases hne : l.unstable_.entries_ = []
  · rw [logical_of_nil hne]
  · have hw := h.window
    rw [logical_of_ne_nil hne, List.take_append_of_le_length (by rw [List.length_take]; omega),
      List.take_take, Nat.min_eq_left hn]

theorem WF.drop_logical (h : l.WF) (hne : l.unstable_.entries_ ≠ []) :
    l.logical.drop (l.unstable_.offset_ - 1) = l.unstable_.entries_ := by
  have hw := h.window
  rw [logical_of_ne_nil hne, List.drop_left' (by rw [List.length_take]; omega)]

/-- What the storage answers below the unstable offset is a slice of the logical log. -/
theorem WF.stored_slice (h : l.WF) {a b : Nat} (hab : a + b ≤ l.unstable_.offset_ - 1) :
    (l.storage_.stored.drop a).take b = (l.logical.drop a).take b := by
  rw [List.take_drop, List.take_drop, h.take_logical hab]

end WF

theorem collect_isPrefix (maxSize : Nat) (l : List Entry) (size : Nat) (acc : List Entry) :
    ∃ p, p <+: l ∧ WriteAheadLog.collect maxSize l size acc = acc ++ p := by
  induction l generalizing size acc with
  | nil => exact ⟨[], List.nil_prefix, by simp [WriteAheadLog.collect]⟩
  | cons e rest ih =>
    rw [WriteAheadLog.collect]
    split
    · exact ⟨[], List.nil_prefix, by simp⟩
    · obtain ⟨p, hp, heq⟩ := ih ((size + sizeofEntry + e.data.length) % 2 ^ 64) (acc ++ [e])
      exact ⟨e :: p, List.cons_prefix_cons.mpr ⟨rfl, hp⟩, by rw [heq]; simp⟩

theorem takeWithin_isPrefix (maxSize size : Nat) (l : List Entry) :
    takeWithin maxSize size l <+: l := by
  induction l generalizing size with
  | nil => simp [takeWithin]
  | cons e rest ih =>
    rw [takeWithin]
    split
    · exact List.nil_prefix
    · exact List.cons_prefix_cons.mpr ⟨rfl, ih _⟩

theorem limitSize_isPrefix (maxSize : Nat) (l : List Entry) : limitSize maxSize l <+: l := by
  cases l with
  | nil => exact List.nil_prefix
  | cons e rest =>
    rw [limitSize]
    split
    · exact List.cons_prefix_cons.mpr ⟨rfl, takeWithin_isPrefix _ _ _⟩
    · exact List.prefix_rfl

section Slice

variable {l : RaftLog} {lo hi maxSize : Nat}

/-- The stored part of a slice. -/
theorem WF.storage_entries (h : l.WF) (hi maxSize : Nat) (hlo : 1 ≤ lo)
    (hlt : lo < l.unstable_.offset_) :
    ∃ st, l.storage_.entries lo (min hi l.unstable_.offset_) maxSize = .ok st ∧
      st <+: (l.logical.drop (lo - 1)).take (min hi l.unstable_.offset_ - lo) := by
  have hw := h.window
  have hfirst : ¬ lo < l.storage_.firstIndex := by
    rw [WriteAheadLog.firstIndex, h.snapIndex]
    omega
  have hlast : ¬ min hi l.unstable_.offset_ > l.storage_.lastIndex + 1 := by
    rw [WriteAheadLog.lastIndex_eq]
    omega
  obtain ⟨p, hp, heq⟩ := collect_isPrefix maxSize
    ((l.storage_.entries_.drop lo).take (min hi l.unstable_.offset_ - lo)) 0 []
  refine ⟨p, ?_, ?_⟩
  · rw [WriteAheadLog.entries, if_neg hfirst, if_neg hlast, heq, List.nil_append]
  · rw [l.storage_.drop_eq_stored hlo] at hp
    rwa [h.stored_slice (by omega)] at hp

/-- The unstable part of a slice that starts inside the unstable entries. -/
theorem WF.unstable_slice (h : l.WF) (hi : Nat) (hle : l.unstable_.offset_ ≤ lo) :
    l.unstable_.slice lo hi <+: (l.logical.drop (lo - 1)).take (hi - lo) := by
  unfold LogUnstable.slice
  split
  · exact List.nil_prefix
  · by_cases hne : l.unstable_.entries_ = []
    · simp [hne]
    · have hpos := h.offset_pos hne
      rw [← h.drop_logical hne, List.drop_drop]
      rw [show l.unstable_.offset_ - 1 + (lo - l.unstable_.offset_) = lo - 1 by omega]

/-- A slice is a prefix of the logical log from `lo` on. -/
theorem WF.slice_isPrefix (h : l.WF) {ents : List Entry} (hs : l.slice lo hi maxSize = .ok ents) :
    ents <+: (l.logical.drop (lo - 1)).take (hi - lo) := by
  unfold slice at hs
  simp only at hs
  split at hs
  · obtain rfl := Except.ok.inj hs
    exact List.nil_prefix
  rename_i hlohi
  split at hs
  · cases hs
  rename_i hfirst
  rw [h.firstIndex_eq] at hfirst
  split at hs
  · cases hs
  by_cases hlt : lo < l.unstable_.offset_
  · obtain ⟨st, hst, hp⟩ := h.storage_entries hi maxSize (by omega) hlt
    rw [if_pos hlt, hst] at hs
    simp only at hs
    split at hs
    · -- the storage stopped early
      obtain rfl := Except.ok.inj hs
      exact hp.trans (take_prefix_of_le (by omega))
    · rename_i hfull
      have hlen : (l.logical.drop (lo - 1)).take (min hi l.unstable_.offset_ - lo) = st := by
        refine (hp.eq_of_length_le ?_).symm
        rw [List.length_take]
        omega
      obtain rfl := Except.ok.inj hs
      refine (limitSize_isPrefix _ _).trans ?_
      by_cases hhi : hi > l.unstable_.offset_
      · have hu := h.unstable_slice hi (le_refl l.unstable_.offset_)
        rw [if_pos hhi, Nat.max_eq_right (by omega), ← hlen, Nat.min_eq_right (by omega)]
        have hsplit : hi - lo = (l.unstable_.offset_ - lo) + (hi - l.unstable_.offset_) := by omega
        rw [hsplit, List.take_add, List.drop_drop,
          show lo - 1 + (l.unstable_.offset_ - lo) = l.unstable_.offset_ - 1 by omega]
        exact (List.prefix_append_right_inj _).mpr hu
      · rw [if_neg hhi, List.append_nil]
        exact hp.trans (take_prefix_of_le (by omega))
  · rw [if_neg hlt] at hs
    simp only [hlt, false_and, if_false, List.nil_append] at hs
    obtain rfl := Except.ok.inj hs
    refine (limitSize_isPrefix _ _).trans ?_
    split
    · rw [Nat.max_eq_left (by omega)]
      exact h.unstable_slice hi (by omega)
    · exact List.nil_prefix

/-- Entries handed out as committed are the logical log's, right after the applied ones. -/
theorem WF.nextCommittedEntries_isPrefix (h : l.WF) :
    l.nextCommittedEntries true <+: (l.logical.drop l.applied_).take (l.committed_ - l.applied_) := by
  unfold nextCommittedEntries
  split
  · exact List.nil_prefix
  · split
    · exact List.nil_prefix
    · rename_i ents hs
      have hp := h.slice_isPrefix hs
      rwa [Nat.add_sub_cancel, Nat.add_sub_add_right] at hp

end Slice

/-! ## Writes -/

section Writes

variable {l : RaftLog}

theorem WF.of_logical_eq (h : l.WF) (l' : RaftLog) (hst : l'.storage_ = l.storage_)
    (hun : l'.unstable_ = l.unstable_) : l'.WF ∧ l'.logical = l.logical := by
  have hlog : l'.logical = l.logical := by
    rw [RaftLog.logical, RaftLog.logical, hst, hun]
  refine ⟨⟨?_, ?_, ?_, ?_, ?_, ?_, ?_⟩, hlog⟩
  · rw [hst]; exact h.dummy
  · rw [hst]; exact h.snapIndex
  · rw [hun]; exact h.snapshot
  · rw [hst]; exact h.stored
  · rw [hlog]; exact h.logical
  · rw [hst, hun]; exact h.window
  · rw [hun]; exact h.offset_pos

theorem WF.set_committed (h : l.WF) (k : Nat) : WF { l with committed_ := k } :=
  (h.of_logical_eq { l with committed_ := k } rfl rfl).1

/-- An entry right after the end of the log is put after the unstable entries. -/
theorem WF.unstable_append_one (h : l.WF) {e : Entry} (hi : e.index = l.lastIndex + 1) :
    l.unstable_.append [e] = { l.unstable_ with
      offset_ := if l.unstable_.entries_ = [] then l.storage_.stored.length + 1
        else l.unstable_.offset_
      entries_ := l.unstable_.entries_ ++ [e] } := by
  have hlast := h.lastIndex_eq
  unfold LogUnstable.append LogUnstable.truncateAndAppend
  by_cases hne : l.unstable_.entries_ = []
  · rw [logical_of_nil hne] at hlast
    simp [hne, hi, hlast]
  · have hlen := h.length_logical hne
    have hpos := h.offset_pos hne
    have hlpos := List.length_pos_iff.mpr hne
    simp only [if_neg hne, hi, hlast, hlen]
    rw [if_neg (by omega), if_neg (by omega), List.take_of_length_le (by omega)]

theorem append_one_cases (l : RaftLog) (e : Entry) :
    (l.append [e]).2 = l ∧ e.index - 1 < l.committed_ ∨
      (l.append [e]).2 = { l with unstable_ := l.unstable_.append [e] } ∧
        l.committed_ ≤ e.index - 1 := by
  by_cases hc : e.index - 1 < l.committed_
  · exact Or.inl ⟨by simp only [append, if_pos hc], hc⟩
  · exact Or.inr ⟨by simp only [append, if_neg hc], by omega⟩

/-- The leader's append: refused when the log ends below the commit index. -/
theorem WF.append_one (h : l.WF) {e : Entry} (hi : e.index = l.lastIndex + 1) (ht : e.term ≠ 0) :
    (l.append [e]).2 = l ∧ l.lastIndex < l.committed_ ∨
      (l.append [e]).2.WF ∧ (l.append [e]).2.logical = l.logical ++ [e] ∧
        (l.append [e]).2.storage_ = l.storage_ ∧ (l.append [e]).2.committed_ = l.committed_ ∧
        (l.append [e]).2.applied_ = l.applied_ ∧ l.committed_ ≤ l.lastIndex := by
  have hlast := h.lastIndex_eq
  rcases append_one_cases l e with ⟨heq, hlt⟩ | ⟨hl', hle⟩
  · exact Or.inl ⟨heq, by omega⟩
  right
  have hun := h.unstable_append_one hi
  have hlog : (l.append [e]).2.logical = l.logical ++ [e] := by
    rw [hl', logical_of_ne_nil (by simp [hun])]
    simp only [hun]
    by_cases hne : l.unstable_.entries_ = []
    · simp [hne, logical_of_nil hne]
    · rw [if_neg hne, logical_of_ne_nil hne, List.append_assoc]
  refine ⟨⟨?_, ?_, ?_, ?_, ?_, ?_, ?_⟩, hlog, by rw [hl'], by rw [hl'], by rw [hl'], by omega⟩
  · rw [hl']; exact h.dummy
  · rw [hl']; exact h.snapIndex
  · rw [hl', hun]; exact h.snapshot
  · rw [hl']; exact h.stored
  · rw [hlog]
    exact h.logical.snoc (by rw [hi, hlast]) ht
  · rw [hl', hun]
    have hw := h.window
    simp only
    split <;> omega
  · intro _
    rw [hl', hun]
    simp only
    split
    · omega
    · rename_i hne
      exact h.offset_pos hne

/-- The first unstable entry sits at the unstable offset. -/
theorem WF.unstable_index (h : l.WF) {i : Nat} {e : Entry} (he : l.unstable_.entries_[i]? = some e) :
    e.index = l.unstable_.offset_ + i := by
  have hne : l.unstable_.entries_ ≠ [] := by
    intro hnil
    rw [hnil] at he
    cases he
  have hpos := h.offset_pos hne
  have hidx := (h.logical (l.unstable_.offset_ - 1 + i) e (by
    rw [← List.getElem?_drop, h.drop_logical hne]
    exact he)).1
  omega

/-- Storing the first unstable entries: the logical log does not change, and the store holds it up
to the last of them. -/
theorem WF.persist (h : l.WF) {ents : List Entry} (hp : ents <+: l.unstable_.entries_)
    (hne : ents ≠ []) :
    RaftLog.WF { l with storage_ := l.storage_.appendNoSync ents } ∧
      RaftLog.logical { l with storage_ := l.storage_.appendNoSync ents } = l.logical ∧
      (l.storage_.appendNoSync ents).stored =
        l.logical.take (l.unstable_.offset_ - 1 + ents.length) := by
  obtain ⟨e, rest, rfl⟩ := List.exists_cons_of_ne_nil hne
  have hune : l.unstable_.entries_ ≠ [] := by
    intro hnil
    rw [hnil, List.prefix_nil] at hp
    cases hp
  have hpos := h.offset_pos hune
  have hw := h.window
  have hfirst : e.index = l.unstable_.offset_ := by
    have := h.unstable_index (i := 0) (e := e) (by
      rw [← getElem?_eq_of_isPrefix hp (by simp)]
      rfl)
    omega
  have hstored : (l.storage_.appendNoSync (e :: rest)).stored =
      l.storage_.stored.take (l.unstable_.offset_ - 1) ++ (e :: rest) := by
    obtain ⟨d, st, hd⟩ := List.exists_cons_of_ne_nil h.dummy
    have hst : l.storage_.stored = st := by simp [WriteAheadLog.stored, hd]
    rw [hst] at hw
    simp only [WriteAheadLog.appendNoSync, hfirst, WriteAheadLog.lastIndex_eq,
      WriteAheadLog.stored, hd]
    obtain ⟨o, ho⟩ : ∃ o, l.unstable_.offset_ = o + 1 := ⟨l.unstable_.offset_ - 1, by omega⟩
    rw [ho] at hw ⊢
    split
    · simp
    · rw [Nat.add_sub_cancel, List.take_of_length_le (by omega)]
      simp
  have hlen : (l.storage_.stored.take (l.unstable_.offset_ - 1)).length =
      l.unstable_.offset_ - 1 := by
    rw [List.length_take]
    omega
  have hlog : RaftLog.logical { l with storage_ := l.storage_.appendNoSync (e :: rest) } =
      l.logical := by
    simp only [RaftLog.logical, if_neg hune]
    rw [hstored, List.take_append_of_le_length (by omega), List.take_take, Nat.min_self]
  have htake : (l.storage_.appendNoSync (e :: rest)).stored =
      l.logical.take (l.unstable_.offset_ - 1 + (e :: rest).length) := by
    have happ : (l.storage_.stored.take (l.unstable_.offset_ - 1) ++ l.unstable_.entries_).take
        ((l.storage_.stored.take (l.unstable_.offset_ - 1)).length + (e :: rest).length) =
        l.storage_.stored.take (l.unstable_.offset_ - 1) ++
          l.unstable_.entries_.take (e :: rest).length := List.take_length_add_append _
    rw [hlen, take_length_of_isPrefix hp] at happ
    rw [hstored, logical_of_ne_nil hune, happ]
  refine ⟨⟨?_, ?_, h.snapshot, ?_, ?_, ?_, h.offset_pos⟩, hlog, htake⟩
  · simp [WriteAheadLog.appendNoSync]
  · exact h.snapIndex
  · simp only
    rw [htake]
    exact h.logical.take _
  · rw [hlog]
    exact h.logical
  · simp only
    rw [hstored, List.length_append, hlen]
    omega

/-- Releasing unstable entries that are stored. -/
theorem WF.stableTo (h : l.WF) {k t : Nat} (hk : k ≤ l.unstable_.entries_.length) (hpos : 1 ≤ k)
    (hst : l.storage_.stored = l.logical.take (l.unstable_.offset_ - 1 + k)) :
    (l.stableTo (l.unstable_.offset_ + k - 1) t).WF ∧
      (l.stableTo (l.unstable_.offset_ + k - 1) t).logical = l.logical := by
  have hune : l.unstable_.entries_ ≠ [] := List.ne_nil_of_length_pos (by omega)
  have hopos := h.offset_pos hune
  have hlen := h.length_logical hune
  have hslen : l.storage_.stored.length = l.unstable_.offset_ - 1 + k := by
    rw [hst, List.length_take]
    omega
  have hl' : l.stableTo (l.unstable_.offset_ + k - 1) t = { l with unstable_ :=
      { l.unstable_ with entries_ := l.unstable_.entries_.drop k,
                         offset_ := l.unstable_.offset_ + k } } := by
    simp only [RaftLog.stableTo, LogUnstable.stableTo, h.snapshot]
    rw [if_neg (by simp only [hune, false_or]; omega)]
    congr 2
    · congr 1
      omega
    · omega
  have hlog : (l.stableTo (l.unstable_.offset_ + k - 1) t).logical = l.logical := by
    rw [hl']
    by_cases hd : l.unstable_.entries_.drop k = []
    · rw [logical_of_nil hd]
      simp only
      rw [hst, List.take_of_length_le]
      have := List.drop_eq_nil_iff.mp hd
      omega
    · rw [logical_of_ne_nil hd]
      simp only
      rw [List.take_of_length_le (by omega), hst]
      conv_rhs => rw [← List.take_append_drop (l.unstable_.offset_ - 1 + k) l.logical]
      rw [← h.drop_logical hune, List.drop_drop]
  refine ⟨⟨?_, ?_, ?_, ?_, ?_, ?_, ?_⟩, hlog⟩
  · rw [hl']; exact h.dummy
  · rw [hl']; exact h.snapIndex
  · rw [hl']; exact h.snapshot
  · rw [hl']; exact h.stored
  · rw [hlog]; exact h.logical
  · rw [hl']
    simp only
    omega
  · intro _
    rw [hl']
    simp only
    omega

/-- A log opened on a store without snapshot. -/
theorem new_eq {w : WriteAheadLog} (hs : w.snapIndex_ = 0) :
    RaftLog.new w = { storage_ := w } := by
  simp [RaftLog.new, WriteAheadLog.snapshot, WriteAheadLog.firstIndex, hs]

theorem wf_new {w : WriteAheadLog} (hd : w.entries_ ≠ []) (hs : w.snapIndex_ = 0)
    (hi : Indexed w.stored) : (RaftLog.new w).WF ∧ (RaftLog.new w).logical = w.stored := by
  rw [new_eq hs]
  refine ⟨⟨hd, hs, rfl, hi, by simpa [logical] using hi, by simp, by simp⟩, by simp [logical]⟩

end Writes

end RaftLog

end NexusLOB.Raft
