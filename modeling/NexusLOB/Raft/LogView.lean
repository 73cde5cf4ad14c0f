import NexusLOB.Raft.RaftLog

/-!
# A log read entry by entry

The logical log of a `RaftLog` as a lookup by index, for any storage and any unstable window: the
storage answers below the first unstable entry, the window from it on, and nothing lies outside
`firstIndex` and `lastIndex`. `term` is compared with this lookup. Inside the range the two always
agree. Outside, `term` hides the term of a snapshot and shows what the storage, or a window that
reaches below the snapshot, still holds there.
-/

namespace NexusLOB.Raft

/-- The term of an entry that may be missing. -/
def termOf (e : Option Entry) : Nat := (e.map Entry.term).getD 0

@[simp] theorem termOf_none : termOf none = 0 := rfl

@[simp] theorem termOf_some (e : Entry) : termOf (some e) = e.term := rfl

/-- The entry the store can read at `i`. -/
def WriteAheadLog.entryAt (w : WriteAheadLog) (i : Nat) : Option Entry :=
  if w.firstIndex ≤ i then w.entries_[i]? else none

theorem WriteAheadLog.entryAt_of_lt {w : WriteAheadLog} {i : Nat} (h : i < w.firstIndex) :
    w.entryAt i = none := if_neg (Nat.not_le.mpr h)

theorem WriteAheadLog.entryAt_of_le {w : WriteAheadLog} {i : Nat} (h : w.firstIndex ≤ i) :
    w.entryAt i = w.entries_[i]? := if_pos h

theorem WriteAheadLog.entryAt_eq_some {w : WriteAheadLog} {i : Nat} {e : Entry}
    (h : w.entryAt i = some e) : w.firstIndex ≤ i ∧ i ≤ w.lastIndex := by
  have hle : w.firstIndex ≤ i := by
    by_contra hlt
    rw [entryAt_of_lt (by omega)] at h
    cases h
  rw [entryAt_of_le hle] at h
  have hlen := (List.getElem?_eq_some_iff.mp h).1
  rw [lastIndex]
  omega

/-- What `RaftLog::term` makes of the store's answer. -/
theorem WriteAheadLog.term_eq_termOf (w : WriteAheadLog) (i : Nat) :
    (match w.term i with | .ok t => t | .error _ => 0) = termOf (w.entryAt i) := by
  unfold WriteAheadLog.term
  split_ifs with hout
  · rcases hout with hlt | hgt
    · rw [entryAt_of_lt hlt, termOf_none]
    · have hnone : w.entryAt i = none := by
        by_contra hne
        obtain ⟨e, he⟩ := Option.ne_none_iff_exists'.mp hne
        have := entryAt_eq_some he
        omega
      rw [hnone, termOf_none]
  · rw [entryAt_of_le (by omega), List.getD_eq_getElem?_getD]
    cases w.entries_[i]? with
    | none => rfl
    | some e => rfl

/-! ## Pending snapshots

The window changes without its snapshot. -/

theorem LogUnstable.append_snapshot (u : LogUnstable) (ents : List Entry) :
    (u.append ents).snapshot_ = u.snapshot_ := by
  cases ents with
  | nil => rfl
  | cons e rest =>
    rw [append, truncateAndAppend]
    dsimp only
    split_ifs <;> rfl

theorem LogUnstable.truncateFrom_snapshot (u : LogUnstable) (i : Nat) :
    (u.truncateFrom i).snapshot_ = u.snapshot_ := by
  unfold truncateFrom
  dsimp only
  split_ifs <;> rfl

namespace RaftLog

variable {l : RaftLog} {i : Nat}

/-- The entry of the logical log at `i`. -/
def entryAt (l : RaftLog) (i : Nat) : Option Entry :=
  if l.firstIndex ≤ i ∧ i ≤ l.lastIndex then
    if l.unstable_.entries_ = [] ∨ i < l.unstable_.offset_ then l.storage_.entryAt i
    else l.unstable_.entries_[i - l.unstable_.offset_]?
  else none

/-! ## Bounds -/

theorem firstIndex_eq_snapshotIndex (l : RaftLog) : l.firstIndex = l.snapshotIndex + 1 := by
  unfold firstIndex snapshotIndex LogUnstable.maybeFirstIndex
  cases l.unstable_.snapshot_ with
  | none => rfl
  | some s => rfl

theorem lastIndex_of_window (h : l.unstable_.entries_ ≠ []) :
    l.lastIndex = l.unstable_.offset_ + l.unstable_.entries_.length - 1 := by
  rw [lastIndex, LogUnstable.maybeLastIndex, if_pos h]

theorem lastIndex_of_pending {s : Snapshot} (h : l.unstable_.entries_ = [])
    (hs : l.unstable_.snapshot_ = some s) : l.lastIndex = s.index := by
  rw [lastIndex, LogUnstable.maybeLastIndex, if_neg (not_not_intro h), hs]

theorem lastIndex_of_store (h : l.unstable_.entries_ = []) (hs : l.unstable_.snapshot_ = none) :
    l.lastIndex = l.storage_.lastIndex := by
  rw [lastIndex, LogUnstable.maybeLastIndex, if_neg (not_not_intro h), hs]

theorem firstIndex_of_pending {s : Snapshot} (hs : l.unstable_.snapshot_ = some s) :
    l.firstIndex = s.index + 1 := by
  rw [firstIndex, LogUnstable.maybeFirstIndex, hs]

theorem firstIndex_of_store (hs : l.unstable_.snapshot_ = none) :
    l.firstIndex = l.storage_.firstIndex := by
  rw [firstIndex, LogUnstable.maybeFirstIndex, hs]

/-! ## Entries -/

theorem entryAt_of_out (h : i < l.firstIndex ∨ l.lastIndex < i) : l.entryAt i = none :=
  if_neg (by omega)

theorem entryAt_below (h1 : l.firstIndex ≤ i) (h2 : i ≤ l.lastIndex)
    (h : l.unstable_.entries_ = [] ∨ i < l.unstable_.offset_) :
    l.entryAt i = l.storage_.entryAt i := by
  rw [entryAt, if_pos ⟨h1, h2⟩, if_pos h]

theorem entryAt_window (h1 : l.firstIndex ≤ i) (h : l.unstable_.entries_ ≠ [])
    (ho : l.unstable_.offset_ ≤ i) :
    l.entryAt i = l.unstable_.entries_[i - l.unstable_.offset_]? := by
  have hlast := lastIndex_of_window h
  have hpos := List.length_pos_iff.mpr h
  by_cases h2 : i ≤ l.lastIndex
  · rw [entryAt, if_pos ⟨h1, h2⟩, if_neg (not_or.mpr ⟨h, by omega⟩)]
  · rw [entryAt_of_out (Or.inr (by omega)), List.getElem?_eq_none (by omega)]

theorem entryAt_eq_some {e : Entry} (h : l.entryAt i = some e) :
    l.firstIndex ≤ i ∧ i ≤ l.lastIndex := by
  by_contra hout
  rw [entryAt, if_neg hout] at h
  cases h

/-! ## Terms -/

/-- The first unstable entry's index bounds what `term` asks the storage for from above. -/
theorem term_below (hi : i ≠ l.firstIndex - 1) (ho : i < l.unstable_.offset_) :
    l.term i = termOf (l.storage_.entryAt i) := by
  have hnone : l.unstable_.maybeTerm i = none := by
    rw [LogUnstable.maybeTerm, if_pos ho]
    cases hs : l.unstable_.snapshot_ with
    | none => rfl
    | some s =>
      have hfirst := firstIndex_of_pending hs
      exact if_neg (by omega)
  rw [term, if_neg hi, hnone]
  exact l.storage_.term_eq_termOf i

theorem term_window (hi : i ≠ l.firstIndex - 1) (h : l.unstable_.entries_ ≠ [])
    (ho : l.unstable_.offset_ ≤ i) (hlast : i ≤ l.lastIndex) :
    l.term i = termOf l.unstable_.entries_[i - l.unstable_.offset_]? := by
  have hlast' := lastIndex_of_window h
  have hsome : l.unstable_.maybeTerm i =
      some (l.unstable_.entries_.getD (i - l.unstable_.offset_) {}).term := by
    rw [LogUnstable.maybeTerm, if_neg (by omega), LogUnstable.maybeLastIndex, if_pos h]
    exact if_neg (by omega)
  rw [term, if_neg hi, hsome, List.getD_eq_getElem?_getD]
  cases l.unstable_.entries_[i - l.unstable_.offset_]? with
  | none => rfl
  | some e => rfl

/-- Beyond the end of the log `term` answers from the storage. -/
theorem term_above (hi : i ≠ l.firstIndex - 1) (h : l.lastIndex < i) :
    l.term i = termOf (l.storage_.entryAt i) := by
  by_cases ho : i < l.unstable_.offset_
  · exact term_below hi ho
  · have hnone : l.unstable_.maybeTerm i = none := by
      rw [LogUnstable.maybeTerm, if_neg ho]
      rw [lastIndex] at h
      generalize l.unstable_.maybeLastIndex = last at h
      cases last with
      | none => rfl
      | some k => exact if_pos h
    rw [term, if_neg hi, hnone]
    exact l.storage_.term_eq_termOf i

/-- An empty window without a snapshot leaves every answer to the storage. -/
theorem term_of_store (hi : i ≠ l.firstIndex - 1) (h : l.unstable_.entries_ = [])
    (hs : l.unstable_.snapshot_ = none) : l.term i = termOf (l.storage_.entryAt i) := by
  have hnone : l.unstable_.maybeTerm i = none := by
    rw [LogUnstable.maybeTerm, LogUnstable.maybeLastIndex, if_neg (not_not_intro h), hs]
    exact ite_self _
  rw [term, if_neg hi, hnone]
  exact l.storage_.term_eq_termOf i

/-- Between the offset of an empty window and the snapshot index the window answers. -/
theorem term_of_pending {s : Snapshot} (h : l.unstable_.entries_ = [])
    (hs : l.unstable_.snapshot_ = some s) (ho : l.unstable_.offset_ ≤ i)
    (hlast : i ≤ l.lastIndex) : l.term i = 0 := by
  have hlast' := lastIndex_of_pending h hs
  rw [term]
  split_ifs
  · rfl
  · have hsome : l.unstable_.maybeTerm i = some 0 := by
      rw [LogUnstable.maybeTerm, if_neg (by omega), LogUnstable.maybeLastIndex,
        if_neg (not_not_intro h), hs, h]
      exact if_neg (by omega)
    rw [hsome]

/-- Inside its range the log answers with its own entries. -/
theorem term_eq_entryAt (h1 : l.firstIndex ≤ i) (h2 : i ≤ l.lastIndex) :
    l.term i = termOf (l.entryAt i) := by
  have hfirst := l.firstIndex_eq_snapshotIndex
  have hi : i ≠ l.firstIndex - 1 := by omega
  by_cases h : l.unstable_.entries_ = []
  · cases hs : l.unstable_.snapshot_ with
    | none => rw [term_of_store hi h hs, entryAt_below h1 h2 (Or.inl h)]
    | some s =>
      -- the log ends at the snapshot, so its range is empty
      have hlast := lastIndex_of_pending h hs
      have hfirst' := firstIndex_of_pending hs
      omega
  · by_cases ho : i < l.unstable_.offset_
    · rw [term_below hi ho, entryAt_below h1 h2 (Or.inr ho)]
    · rw [term_window hi h (by omega) h2, entryAt_window h1 h (by omega)]

theorem term_boundary (l : RaftLog) : l.term l.snapshotIndex = 0 :=
  if_pos (by rw [l.firstIndex_eq_snapshotIndex]; rfl)

/-! ## `term` against the logical log -/

/-- A snapshot stands before the first entry. -/
def HasSnapshot (l : RaftLog) : Prop :=
  l.unstable_.snapshot_ ≠ none ∨ 0 < l.storage_.snapIndex_

instance (l : RaftLog) : Decidable l.HasSnapshot := inferInstanceAs (Decidable (_ ∨ _))

/-- The term the logical log has at `i`: that of its entry, and that of the snapshot right before
the first one. -/
def logicalTerm (l : RaftLog) (i : Nat) : Nat :=
  if l.firstIndex ≤ i ∧ i ≤ l.lastIndex then termOf (l.entryAt i)
  else if l.HasSnapshot ∧ i = l.snapshotIndex then l.snapshotTerm
  else 0

/-- Nothing with a term is left where `term` looks outside the log: in the storage beyond the last
index or, below the window, before the snapshot, and in a window that reaches before the
snapshot. -/
structure NoLeftovers (l : RaftLog) : Prop where
  stored : ∀ i e, l.storage_.entryAt i = some e → i ≠ l.snapshotIndex →
    l.lastIndex < i ∨ (i < l.unstable_.offset_ ∧ i < l.snapshotIndex) → e.term = 0
  window : ∀ j e, l.unstable_.entries_[j]? = some e →
    l.unstable_.offset_ + j < l.snapshotIndex → e.term = 0

theorem termOf_eq_zero {o : Option Entry} (h : ∀ e, o = some e → e.term = 0) : termOf o = 0 := by
  cases o with
  | none => rfl
  | some e => exact h e rfl

theorem logicalTerm_boundary (h : l.HasSnapshot) :
    l.logicalTerm l.snapshotIndex = l.snapshotTerm := by
  have hfirst := l.firstIndex_eq_snapshotIndex
  rw [logicalTerm, if_neg (by omega), if_pos ⟨h, rfl⟩]

theorem logicalTerm_of_out (hi : i ≠ l.snapshotIndex) (h : i < l.firstIndex ∨ l.lastIndex < i) :
    l.logicalTerm i = 0 := by
  rw [logicalTerm, if_neg (by omega), if_neg (fun hb => hi hb.2)]

/-- With nothing left over `term` is 0 outside the log. -/
theorem NoLeftovers.term_eq_zero (h : l.NoLeftovers) (hi : i ≠ l.snapshotIndex)
    (hout : i < l.firstIndex ∨ l.lastIndex < i) : l.term i = 0 := by
  have hfirst := l.firstIndex_eq_snapshotIndex
  have hne : i ≠ l.firstIndex - 1 := by omega
  by_cases hlast : l.lastIndex < i
  · rw [term_above hne hlast]
    exact termOf_eq_zero fun e he => h.stored i e he hi (Or.inl hlast)
  · have hlt : i < l.snapshotIndex := by omega
    by_cases ho : i < l.unstable_.offset_
    · rw [term_below hne ho]
      exact termOf_eq_zero fun e he => h.stored i e he hi (Or.inr ⟨ho, hlt⟩)
    · by_cases hw : l.unstable_.entries_ = []
      · cases hs : l.unstable_.snapshot_ with
        | none =>
          rw [term_of_store hne hw hs, WriteAheadLog.entryAt_of_lt, termOf_none]
          rw [← firstIndex_of_store hs]
          omega
        | some s => exact term_of_pending hw hs (by omega) (by omega)
      · rw [term_window hne hw (by omega) (by omega)]
        refine termOf_eq_zero fun e he => h.window _ e he ?_
        omega

/-- A log that holds nothing but an installed snapshot of term 2. -/
def compacted : RaftLog := (RaftLog.new .fresh).restore { term := 2, index := 5 }

end RaftLog

end NexusLOB.Raft
