import NexusLOB.Raft.FollowerAppend
import NexusLOB.Raft.LogView

/-!
# What an accepted append stores

`maybeAppend` over any storage, with or without a snapshot, and any unstable window that fits it.
An accepted append should leave exactly the given entries behind `prev` and everything committed as
it was. It does so unless the entry before the new ones is none of the log's, a matching term hid
another entry or one beyond the end of the log, the conflict lies within the committed part, or the
cut behind the new entries takes away, or brings back, more than the tail.
-/

namespace NexusLOB.Raft

theorem WriteAheadLog.exists_entryAt {w : WriteAheadLog} {i : Nat} (h1 : w.firstIndex ≤ i)
    (h2 : i ≤ w.lastIndex) : ∃ e, w.entryAt i = some e := by
  rw [WriteAheadLog.lastIndex] at h2
  rw [WriteAheadLog.firstIndex] at h1
  rw [WriteAheadLog.entryAt_of_le h1]
  exact ⟨_, List.getElem?_eq_getElem (by omega)⟩

namespace RaftLog

variable {l : RaftLog} {prev i : Nat} {ents : List Entry}

/-- Every entry at its place with a term, the window above the snapshot and without a gap to what
lies below it. -/
structure Consistent (l : RaftLog) : Prop where
  mark : l.storage_.snapIndex_ < l.storage_.entries_.length
  stored : ∀ i e, l.storage_.entryAt i = some e → e.index = i ∧ e.term ≠ 0
  window : ∀ j e, l.unstable_.entries_[j]? = some e →
    e.index = l.unstable_.offset_ + j ∧ e.term ≠ 0
  above : l.unstable_.entries_ ≠ [] → l.firstIndex ≤ l.unstable_.offset_
  no_gap : l.unstable_.entries_ ≠ [] →
    l.unstable_.offset_ = l.firstIndex ∨ l.unstable_.offset_ ≤ l.storage_.lastIndex + 1
  pending : l.storage_.firstIndex ≤ l.firstIndex

/-- A consistent log has an entry at every index of its range. -/
theorem Consistent.exists_entryAt (h : l.Consistent) (h1 : l.firstIndex ≤ i)
    (h2 : i ≤ l.lastIndex) : ∃ e, l.entryAt i = some e := by
  have hp := h.pending
  by_cases hw : l.unstable_.entries_ = []
  · rw [entryAt_below h1 h2 (Or.inl hw)]
    cases hs : l.unstable_.snapshot_ with
    | none => exact WriteAheadLog.exists_entryAt (by omega) (by rwa [← lastIndex_of_store hw hs])
    | some s =>
      have hlast := lastIndex_of_pending hw hs
      have hfirst := firstIndex_of_pending hs
      omega
  · have hlast := lastIndex_of_window hw
    have hpos := List.length_pos_iff.mpr hw
    by_cases ho : i < l.unstable_.offset_
    · rw [entryAt_below h1 h2 (Or.inr ho)]
      have hgap := h.no_gap hw
      exact WriteAheadLog.exists_entryAt (by omega) (by omega)
    · rw [entryAt_window h1 hw (by omega)]
      exact ⟨_, List.getElem?_eq_getElem (by omega)⟩

/-! ## The log after each outcome -/

/-- What lies below entries that are stored from `c` on: the log, or, when they leave a gap behind
it, the storage. -/
def baseAt (l : RaftLog) (c i : Nat) : Option Entry :=
  if c ≤ l.lastIndex + 1 then l.entryAt i
  else if l.firstIndex ≤ i then l.storage_.entryAt i
  else none

theorem baseAt_of_lt (c : Nat) (h : i < l.firstIndex) : l.baseAt c i = none := by
  rw [baseAt, entryAt_of_out (Or.inl h), if_neg (Nat.not_le.mpr h), ite_self]

section Append

variable {c : Nat} {e : Entry} {rest : List Entry}

theorem firstIndex_unstable {u : LogUnstable} (h : u.snapshot_ = l.unstable_.snapshot_) :
    firstIndex { l with unstable_ := u } = l.firstIndex := by
  rw [firstIndex, firstIndex, LogUnstable.maybeFirstIndex, LogUnstable.maybeFirstIndex, h]

/-- The window is replaced. -/
theorem entryAt_replace {u : LogUnstable} (hs : u.snapshot_ = l.unstable_.snapshot_)
    (ho : u.offset_ = c) (he : u.entries_ = e :: rest) (hf : l.firstIndex ≤ c)
    (hbase : ∀ i, l.firstIndex ≤ i → i < c → l.baseAt c i = l.storage_.entryAt i) (i : Nat) :
    entryAt { l with unstable_ := u } i = if c ≤ i then (e :: rest)[i - c]? else l.baseAt c i := by
  have hfirst := firstIndex_unstable hs
  have hne : u.entries_ ≠ [] := by
    rw [he]
    exact List.cons_ne_nil _ _
  have hlast : lastIndex { l with unstable_ := u } = c + rest.length := by
    rw [lastIndex_of_window hne]
    simp only [ho, he, List.length_cons]
    omega
  split_ifs with hi
  · rw [entryAt_window (by omega) hne (by simpa only [ho] using hi)]
    simp only [ho, he]
  · by_cases hi' : l.firstIndex ≤ i
    · rw [entryAt_below (by omega) (by omega) (Or.inr (show i < u.offset_ by omega)),
        hbase i hi' (by omega)]
    · rw [entryAt_of_out (Or.inl (by omega)), baseAt_of_lt c (by omega)]

/-- The window is cut at `c` and goes on with the new entries. -/
theorem entryAt_extend {u : LogUnstable} (hs : u.snapshot_ = l.unstable_.snapshot_)
    (ho : u.offset_ = l.unstable_.offset_)
    (he : u.entries_ = l.unstable_.entries_.take (c - l.unstable_.offset_) ++ e :: rest)
    (hw : l.unstable_.entries_ ≠ []) (hf : l.firstIndex ≤ l.unstable_.offset_)
    (hlt : l.unstable_.offset_ < c) (hle : c ≤ l.lastIndex + 1) (i : Nat) :
    entryAt { l with unstable_ := u } i = if c ≤ i then (e :: rest)[i - c]? else l.baseAt c i := by
  have hfirst := firstIndex_unstable hs
  have hlast := lastIndex_of_window hw
  have hpos := List.length_pos_iff.mpr hw
  have hne : u.entries_ ≠ [] := by
    rw [he]
    exact List.append_ne_nil_of_right_ne_nil _ (List.cons_ne_nil _ _)
  have htake : (l.unstable_.entries_.take (c - l.unstable_.offset_)).length =
      c - l.unstable_.offset_ := by
    rw [List.length_take]
    omega
  have hlast' : lastIndex { l with unstable_ := u } = c + rest.length := by
    rw [lastIndex_of_window hne]
    simp only [ho, he, List.length_append, htake, List.length_cons]
    omega
  rw [baseAt, if_pos hle]
  by_cases hi : l.unstable_.offset_ ≤ i
  · rw [entryAt_window (by omega) hne (by simpa only [ho] using hi)]
    simp only [ho, he]
    split_ifs with hci
    · rw [List.getElem?_append_right (by omega), htake]
      congr 1
      omega
    · rw [List.getElem?_append_left (by omega), List.getElem?_take_of_lt (by omega),
        entryAt_window (by omega) hw hi]
  · rw [if_neg (by omega)]
    by_cases hi' : l.firstIndex ≤ i
    · rw [entryAt_below (by omega) (by omega) (Or.inr (show i < u.offset_ by omega)),
        entryAt_below hi' (by omega) (Or.inr (by omega))]
    · rw [entryAt_of_out (Or.inl (by omega)), entryAt_of_out (Or.inl (by omega))]

/-- The log after entries were stored from `c` on. -/
theorem Consistent.entryAt_append (h : l.Consistent) (hidx : e.index = c)
    (hf : l.firstIndex ≤ c) (rest : List Entry) (i : Nat) :
    entryAt { l with unstable_ := l.unstable_.append (e :: rest) } i =
      if c ≤ i then (e :: rest)[i - c]? else l.baseAt c i := by
  have hsnap := l.unstable_.append_snapshot (e :: rest)
  by_cases hw : l.unstable_.entries_ = []
  · have hun : l.unstable_.append (e :: rest) =
        { l.unstable_ with offset_ := c, entries_ := e :: rest } := by
      simp only [LogUnstable.append, LogUnstable.truncateAndAppend, if_pos hw, hidx]
    refine entryAt_replace hsnap (by rw [hun]) (by rw [hun]) hf (fun i h1 h2 => ?_) i
    rw [baseAt]
    split_ifs
    · exact entryAt_below h1 (by omega) (Or.inl hw)
    · rfl
  · have hlast := lastIndex_of_window hw
    have hpos := List.length_pos_iff.mpr hw
    have habove := h.above hw
    by_cases hin : l.unstable_.offset_ < c ∧ c ≤ l.lastIndex + 1
    · have hun : l.unstable_.append (e :: rest) = { l.unstable_ with
          entries_ := l.unstable_.entries_.take (c - l.unstable_.offset_) ++ e :: rest } := by
        simp only [LogUnstable.append, LogUnstable.truncateAndAppend, if_neg hw, hidx]
        rw [if_neg (by omega), if_neg (by omega)]
      exact entryAt_extend hsnap (by rw [hun]) (by rw [hun]) hw habove hin.1 hin.2 i
    · have hun : l.unstable_.append (e :: rest) =
          { l.unstable_ with offset_ := c, entries_ := e :: rest } := by
        simp only [LogUnstable.append, LogUnstable.truncateAndAppend, if_neg hw, hidx]
        split_ifs
        · rfl
        · rfl
        · omega
      refine entryAt_replace hsnap (by rw [hun]) (by rw [hun]) hf (fun i h1 h2 => ?_) i
      rw [baseAt]
      split_ifs
      · exact entryAt_below h1 (by omega) (Or.inr (by omega))
      · rfl

end Append

section Cut

variable {n : Nat} (hw : l.unstable_.entries_ ≠ []) (hn : n < l.lastIndex)
include hw hn

/-- Cutting inside the window. -/
theorem truncateFrom_inside (ho : l.unstable_.offset_ ≤ n) :
    l.unstable_.truncateFrom (n + 1) = { l.unstable_ with
      entries_ := l.unstable_.entries_.take (n + 1 - l.unstable_.offset_) } := by
  have hlast := lastIndex_of_window hw
  simp only [LogUnstable.truncateFrom, if_neg hw]
  rw [if_neg (by omega), if_pos (by omega)]

/-- Cutting at or below the offset. -/
theorem truncateFrom_all (ho : n < l.unstable_.offset_) :
    l.unstable_.truncateFrom (n + 1) = { l.unstable_ with entries_ := [] } := by
  have hlast := lastIndex_of_window hw
  simp only [LogUnstable.truncateFrom, if_neg hw]
  split_ifs
  · rfl
  · rw [show n + 1 - l.unstable_.offset_ = 0 by omega, List.take_zero]
  · omega

theorem cut_ne_nil (ho : l.unstable_.offset_ ≤ n) :
    (l.unstable_.truncateFrom (n + 1)).entries_ ≠ [] := by
  have hlast := lastIndex_of_window hw
  rw [truncateFrom_inside hw hn ho]
  apply List.ne_nil_of_length_pos
  rw [List.length_take]
  omega

theorem lastIndex_cut (ho : l.unstable_.offset_ ≤ n) :
    lastIndex { l with unstable_ := l.unstable_.truncateFrom (n + 1) } = n := by
  have hlast := lastIndex_of_window hw
  rw [lastIndex_of_window (cut_ne_nil hw hn ho)]
  simp only [truncateFrom_inside hw hn ho, List.length_take]
  omega

theorem entryAt_cut (ho : l.unstable_.offset_ ≤ n) (i : Nat) :
    entryAt { l with unstable_ := l.unstable_.truncateFrom (n + 1) } i =
      if i ≤ n then l.entryAt i else none := by
  have hlast := lastIndex_of_window hw
  have hlast' := lastIndex_cut hw hn ho
  have hne := cut_ne_nil hw hn ho
  have hun := truncateFrom_inside hw hn ho
  generalize l.unstable_.truncateFrom (n + 1) = u at hlast' hne hun ⊢
  have hoff : u.offset_ = l.unstable_.offset_ := by rw [hun]
  have hfirst : firstIndex { l with unstable_ := u } = l.firstIndex :=
    firstIndex_unstable (by rw [hun])
  split_ifs with hi
  · by_cases hi' : l.firstIndex ≤ i
    · by_cases hio : i < l.unstable_.offset_
      · rw [entryAt_below hi' (by omega) (Or.inr hio)]
        exact entryAt_below (by omega) (by omega) (Or.inr (show i < u.offset_ by omega))
      · have hents : u.entries_ =
            l.unstable_.entries_.take (n + 1 - l.unstable_.offset_) := by rw [hun]
        rw [entryAt_window hi' hw (by omega),
          entryAt_window (by omega) hne (show u.offset_ ≤ i by omega)]
        dsimp only
        rw [hents, hoff]
        exact List.getElem?_take_of_lt (by omega)
    · rw [entryAt_of_out (Or.inl (by omega)), entryAt_of_out (Or.inl (by omega))]
  · exact entryAt_of_out (Or.inr (by omega))

end Cut

/-- An emptied window over a storage shows all that is stored. -/
theorem entryAt_cleared_store {u : LogUnstable} (he : u.entries_ = []) (hs : u.snapshot_ = none)
    (i : Nat) :
    entryAt { l with unstable_ := u } i = l.storage_.entryAt i := by
  have hfirst : firstIndex { l with unstable_ := u } = l.storage_.firstIndex :=
    firstIndex_of_store hs
  have hlast : lastIndex { l with unstable_ := u } = l.storage_.lastIndex :=
    lastIndex_of_store he hs
  by_cases hin : l.storage_.firstIndex ≤ i ∧ i ≤ l.storage_.lastIndex
  · exact entryAt_below (by omega) (by omega) (Or.inl he)
  · rw [entryAt_of_out (by omega)]
    by_contra hne
    obtain ⟨e, he'⟩ := Option.ne_none_iff_exists'.mp (Ne.symm hne)
    exact hin (WriteAheadLog.entryAt_eq_some he')

/-- An emptied window behind a pending snapshot shows nothing. -/
theorem entryAt_cleared_pending {u : LogUnstable} {s : Snapshot} (he : u.entries_ = [])
    (hs : u.snapshot_ = some s) (i : Nat) : entryAt { l with unstable_ := u } i = none := by
  have hfirst : firstIndex { l with unstable_ := u } = s.index + 1 := firstIndex_of_pending hs
  have hlast : lastIndex { l with unstable_ := u } = s.index := lastIndex_of_pending he hs
  exact entryAt_of_out (by omega)

/-! ## Accepted appends -/

/-- What an accepted append is to leave. -/
structure Accepted (l : RaftLog) (prev pt : Nat) (ents : List Entry) (l' : RaftLog) : Prop where
  held : prev = 0 ∨ ∃ e, l.entryAt prev = some e ∧ e.term = pt
  reach : prev + ents.length ≤ l'.lastIndex
  stored : ∀ j e, ents[j]? = some e → l'.entryAt (prev + j + 1) = some e
  committed : ∀ i, i ≤ l.committed_ → l'.entryAt i = l.entryAt i

/-- The cut behind `n` takes away nothing that is committed and brings nothing back in its
place. -/
def CutsTail (l : RaftLog) (n : Nat) : Prop :=
  n < l.lastIndex → l.unstable_.entries_ ≠ [] →
    if l.unstable_.offset_ ≤ n then l.committed_ ≤ n
    else match l.unstable_.snapshot_ with
      | none => ∀ i, l.unstable_.offset_ ≤ i → i ≤ l.committed_ →
          l.storage_.entryAt i = l.entryAt i
      | some s => n ≤ s.index ∧ l.committed_ ≤ s.index

/-- The inputs for which an accepted append stores its entries. -/
structure Storable (l : RaftLog) (prev : Nat) (ents : List Entry) : Prop where
  held : prev = 0 ∨ (l.firstIndex ≤ prev ∧ prev ≤ l.lastIndex)
  agree : l.findConflict ents = 0 → ∀ j e, ents[j]? = some e → l.entryAt (prev + j + 1) = some e
  tail : l.findConflict ents = 0 → l.CutsTail (prev + ents.length)
  above : l.findConflict ents ≠ 0 →
    l.committed_ < l.findConflict ents ∧ l.firstIndex ≤ l.findConflict ents
  base : l.findConflict ents ≠ 0 → ∀ j e, ents[j]? = some e →
    prev + j + 1 < l.findConflict ents → l.baseAt (l.findConflict ents) (prev + j + 1) = some e
  kept : l.findConflict ents ≠ 0 → ∀ i, i ≤ l.committed_ →
    l.baseAt (l.findConflict ents) i = l.entryAt i

/-- `entryAt` and `lastIndex` do not depend on the commit index. -/
theorem accepted_committed_iff {pt k : Nat} {l' : RaftLog} :
    Accepted l prev pt ents { l' with committed_ := k } ↔ Accepted l prev pt ents l' :=
  ⟨fun h => ⟨h.held, h.reach, h.stored, h.committed⟩,
    fun h => ⟨h.held, h.reach, h.stored, h.committed⟩⟩

/-- The log has the entries `ents` behind `prev` already. -/
def Has (l : RaftLog) (prev : Nat) (ents : List Entry) : Prop :=
  (prev = 0 ∨ (l.firstIndex ≤ prev ∧ prev ≤ l.lastIndex)) ∧
    ∀ j e, ents[j]? = some e → l.entryAt (prev + j + 1) = some e

theorem Consistent.held_iff (h : l.Consistent) {pt : Nat} (ht : l.term prev = pt) :
    (prev = 0 ∨ ∃ e, l.entryAt prev = some e ∧ e.term = pt) ↔
      (prev = 0 ∨ (l.firstIndex ≤ prev ∧ prev ≤ l.lastIndex)) := by
  constructor
  · rintro (h0 | ⟨e, he, -⟩)
    · exact Or.inl h0
    · exact Or.inr (entryAt_eq_some he)
  · rintro (h0 | ⟨h1, h2⟩)
    · exact Or.inl h0
    · obtain ⟨e, he⟩ := h.exists_entryAt h1 h2
      refine Or.inr ⟨e, he, ?_⟩
      rw [← ht, term_eq_entryAt h1 h2, he, termOf_some]

section Accepted

variable {pt : Nat} (h : l.Consistent) (ht : l.term prev = pt)
include h ht

/-- An append that leaves the log as it is. -/
theorem Consistent.accepted_self_iff : Accepted l prev pt ents l ↔ l.Has prev ents := by
  rw [Has, ← h.held_iff ht]
  constructor
  · intro hacc
    exact ⟨hacc.held, hacc.stored⟩
  · rintro ⟨hheld, hstored⟩
    refine ⟨hheld, ?_, hstored, fun _ _ => rfl⟩
    rcases Nat.eq_zero_or_pos ents.length with hzero | hpos
    · rcases (h.held_iff ht).mp hheld with h0 | ⟨-, h2⟩
      · omega
      · omega
    · have hlast := hstored (ents.length - 1) _ (List.getElem?_eq_getElem (by omega))
      have := (entryAt_eq_some hlast).2
      omega

/-- The end of the window is cut off. -/
theorem Consistent.accepted_cut_iff (hw : l.unstable_.entries_ ≠ [])
    (hn : prev + ents.length < l.lastIndex) (ho : l.unstable_.offset_ ≤ prev + ents.length) :
    Accepted l prev pt ents
        { l with unstable_ := l.unstable_.truncateFrom (prev + ents.length + 1) } ↔
      l.Has prev ents ∧
      l.committed_ ≤ prev + ents.length := by
  rw [Has, ← h.held_iff ht]
  have habove := h.above hw
  have hentry := entryAt_cut hw hn ho
  constructor
  · intro hacc
    refine ⟨⟨hacc.held, fun j e he => ?_⟩, ?_⟩
    · have hj := (List.getElem?_eq_some_iff.mp he).1
      have := hacc.stored j e he
      rwa [hentry, if_pos (by omega)] at this
    · by_contra hcom
      have hkept := hacc.committed (prev + ents.length + 1) (by omega)
      obtain ⟨e, he⟩ := h.exists_entryAt (show l.firstIndex ≤ prev + ents.length + 1 by omega)
        (by omega)
      rw [hentry, if_neg (by omega), he] at hkept
      cases hkept
  · rintro ⟨⟨hheld, hstored⟩, hcom⟩
    refine ⟨hheld, by rw [lastIndex_cut hw hn ho], fun j e he => ?_, fun i hi => ?_⟩
    · have hj := (List.getElem?_eq_some_iff.mp he).1
      rw [hentry, if_pos (by omega)]
      exact hstored j e he
    · rw [hentry, if_pos (by omega)]

/-- The whole window is cut off and all that is stored comes back. -/
theorem Consistent.accepted_store_iff (hw : l.unstable_.entries_ ≠ [])
    (hn : prev + ents.length < l.lastIndex) (ho : prev + ents.length < l.unstable_.offset_)
    (hs : l.unstable_.snapshot_ = none) :
    Accepted l prev pt ents
        { l with unstable_ := l.unstable_.truncateFrom (prev + ents.length + 1) } ↔
      l.Has prev ents ∧
      ∀ i, l.unstable_.offset_ ≤ i → i ≤ l.committed_ → l.storage_.entryAt i = l.entryAt i := by
  rw [Has, ← h.held_iff ht]
  have hlast := lastIndex_of_window hw
  have hpos := List.length_pos_iff.mpr hw
  have hun := truncateFrom_all hw hn ho
  have hentry := entryAt_cleared_store (l := l)
    (u := l.unstable_.truncateFrom (prev + ents.length + 1)) (by rw [hun]) (by rw [hun, ← hs])
  have hlast' : lastIndex { l with
      unstable_ := l.unstable_.truncateFrom (prev + ents.length + 1) } = l.storage_.lastIndex :=
    lastIndex_of_store (by rw [hun]) (by rw [hun, ← hs])
  -- below the offset the log was the storage's before
  have hbelow : ∀ i, i < l.unstable_.offset_ → l.storage_.entryAt i = l.entryAt i := by
    intro i hi
    have hfirst := firstIndex_of_store hs
    by_cases hi' : l.firstIndex ≤ i
    · rw [entryAt_below hi' (by omega) (Or.inr hi)]
    · rw [WriteAheadLog.entryAt_of_lt (by omega), entryAt_of_out (Or.inl (by omega))]
  constructor
  · intro hacc
    refine ⟨⟨hacc.held, fun j e he => ?_⟩, fun i _ hi => ?_⟩
    · have hj := (List.getElem?_eq_some_iff.mp he).1
      rw [← hbelow _ (by omega), ← hentry]
      exact hacc.stored j e he
    · rw [← hentry]
      exact hacc.committed i hi
  · rintro ⟨⟨hheld, hstored⟩, hcom⟩
    refine ⟨hheld, ?_, fun j e he => ?_, fun i hi => ?_⟩
    · have hgap := h.no_gap hw
      have hmark := h.mark
      have hfirst := firstIndex_of_store hs
      rw [WriteAheadLog.firstIndex] at hfirst
      rw [hlast']
      rw [WriteAheadLog.lastIndex] at hgap ⊢
      omega
    · have hj := (List.getElem?_eq_some_iff.mp he).1
      rw [hentry, hbelow _ (by omega)]
      exact hstored j e he
    · rw [hentry]
      rcases Nat.lt_or_ge i l.unstable_.offset_ with hlt | hge
      · exact hbelow i hlt
      · exact hcom i hge hi

/-- The whole window is cut off behind a pending snapshot. -/
theorem Consistent.accepted_pending_iff {s : Snapshot} (hw : l.unstable_.entries_ ≠ [])
    (hn : prev + ents.length < l.lastIndex) (ho : prev + ents.length < l.unstable_.offset_)
    (hs : l.unstable_.snapshot_ = some s) :
    Accepted l prev pt ents
        { l with unstable_ := l.unstable_.truncateFrom (prev + ents.length + 1) } ↔
      l.Has prev ents ∧
      prev + ents.length ≤ s.index ∧ l.committed_ ≤ s.index := by
  rw [Has, ← h.held_iff ht]
  have hfirst := firstIndex_of_pending hs
  have habove := h.above hw
  have hlast := lastIndex_of_window hw
  have hpos := List.length_pos_iff.mpr hw
  have hun := truncateFrom_all hw hn ho
  have hentry := entryAt_cleared_pending (l := l) (s := s)
    (u := l.unstable_.truncateFrom (prev + ents.length + 1)) (by rw [hun]) (by rw [hun, ← hs])
  have hlast' : lastIndex { l with
      unstable_ := l.unstable_.truncateFrom (prev + ents.length + 1) } = s.index :=
    lastIndex_of_pending (by rw [hun]) (by rw [hun, ← hs])
  constructor
  · intro hacc
    have hreach := hacc.reach
    rw [hlast'] at hreach
    refine ⟨⟨hacc.held, fun j e he => ?_⟩, hreach, ?_⟩
    · have := hacc.stored j e he
      rw [hentry] at this
      cases this
    · by_contra hcom
      have hkept := hacc.committed l.firstIndex (by omega)
      obtain ⟨e, he⟩ := h.exists_entryAt (Nat.le_refl l.firstIndex) (by omega)
      rw [hentry, he] at hkept
      cases hkept
  · rintro ⟨⟨hheld, hstored⟩, hreach, hcom⟩
    refine ⟨hheld, by rw [hlast']; exact hreach, fun j e he => ?_, fun i hi => ?_⟩
    · have hj := (List.getElem?_eq_some_iff.mp he).1
      have := (entryAt_eq_some (hstored j e he)).1
      omega
    · rw [hentry, entryAt_of_out (Or.inl (by omega))]

/-- Without a conflict. -/
theorem Consistent.accepted_agree_iff (hc : l.findConflict ents = 0) :
    Accepted l prev pt ents (l.reconcile prev ents) ↔
      l.Has prev ents ∧
      l.CutsTail (prev + ents.length) := by
  rw [reconcile, if_pos hc, CutsTail]
  by_cases hn : prev + ents.length < l.lastIndex
  · rw [if_pos hn]
    by_cases hw : l.unstable_.entries_ = []
    · have hself : l.unstable_.truncateFrom (prev + ents.length + 1) = l.unstable_ := by
        rw [LogUnstable.truncateFrom, if_pos hw]
      rw [hself, h.accepted_self_iff ht]
      simp only [hw, ne_eq, not_true_eq_false, false_implies, implies_true, and_true]
    · simp only [hn, hw, ne_eq, not_false_eq_true, forall_const]
      by_cases ho : l.unstable_.offset_ ≤ prev + ents.length
      · rw [if_pos ho, h.accepted_cut_iff ht hw hn ho]
      · rw [if_neg ho]
        cases hs : l.unstable_.snapshot_ with
        | none => exact h.accepted_store_iff ht hw hn (by omega) hs
        | some s => exact h.accepted_pending_iff ht hw hn (by omega) hs
  · rw [if_neg hn, h.accepted_self_iff ht]
    simp only [hn, false_implies, and_true]

omit h ht in
/-- A log that has accepted the entries without a change has no other term at their places. -/
theorem Accepted.term_eq (hacc : Accepted l prev pt ents l) {k : Nat} {e : Entry}
    (he : ents[k]? = some e) : l.term (prev + k + 1) = e.term := by
  have hat := hacc.stored k e he
  have hrange := entryAt_eq_some hat
  rw [term_eq_entryAt hrange.1 hrange.2, hat, termOf_some]

/-- With a conflict. -/
theorem Consistent.accepted_conflict_iff (hcont : Continues prev ents)
    (hc : l.findConflict ents ≠ 0) :
    Accepted l prev pt ents (l.reconcile prev ents) ↔
      (prev = 0 ∨ (l.firstIndex ≤ prev ∧ prev ≤ l.lastIndex)) ∧
      (l.committed_ < l.findConflict ents ∧ l.firstIndex ≤ l.findConflict ents) ∧
      (∀ j e, ents[j]? = some e → prev + j + 1 < l.findConflict ents →
        l.baseAt (l.findConflict ents) (prev + j + 1) = some e) ∧
      ∀ i, i ≤ l.committed_ → l.baseAt (l.findConflict ents) i = l.entryAt i := by
  rcases findConflict_cases l hcont with ⟨h0, -⟩ | ⟨k, e, he, hk, hne, -⟩
  · exact absurd h0 hc
  have hklt := (List.getElem?_eq_some_iff.mp he).1
  rw [reconcile, if_neg hc, ← h.held_iff ht]
  by_cases hcom : l.findConflict ents ≤ l.committed_
  · -- the entry at the conflict would have to be the log's own
    rw [if_pos hcom]
    constructor
    · intro hacc
      exact absurd (hacc.term_eq he) hne
    · rintro ⟨-, ⟨hlt, -⟩, -⟩
      omega
  · rw [if_neg hcom, show l.findConflict ents - prev - 1 = k by omega]
    have hdrop : ents.drop k = e :: ents.drop (k + 1) := by
      rw [List.drop_eq_getElem_cons hklt, (List.getElem?_eq_some_iff.mp he).2]
    generalize ents.drop (k + 1) = rest at hdrop
    have hidx : e.index = l.findConflict ents := by
      rw [hk]
      exact (hcont k e he).1
    have hfirst := firstIndex_unstable (l.unstable_.append_snapshot (e :: rest))
    rw [hdrop]
    constructor
    · intro hacc
      have hf : l.firstIndex ≤ l.findConflict ents := by
        have := (entryAt_eq_some (hacc.stored k e he)).1
        omega
      have hentry := h.entryAt_append hidx hf rest
      refine ⟨hacc.held, ⟨by omega, hf⟩, fun j e' he' hj => ?_, fun i hi => ?_⟩
      · have := hacc.stored j e' he'
        rwa [hentry, if_neg (by omega)] at this
      · have := hacc.committed i hi
        rwa [hentry, if_neg (by omega)] at this
    · rintro ⟨hheld, ⟨hlt, hf⟩, hbase, hkept⟩
      have hentry := h.entryAt_append hidx hf rest
      have hstored : ∀ j e', ents[j]? = some e' →
          entryAt { l with unstable_ := l.unstable_.append (e :: rest) } (prev + j + 1) =
            some e' := by
        intro j e' he'
        rw [hentry]
        split_ifs with hj
        · rw [← hdrop, List.getElem?_drop, show k + (prev + j + 1 - l.findConflict ents) = j by
            omega, he']
        · exact hbase j e' he' (by omega)
      refine ⟨hheld, ?_, hstored, fun i hi => ?_⟩
      · have hlast := hstored (ents.length - 1) _ (List.getElem?_eq_getElem (by omega))
        have := (entryAt_eq_some hlast).2
        omega
      · rw [hentry, if_neg (by omega)]
        exact hkept i hi

end Accepted

/-- A log with nothing unstable over a storage without a snapshot. -/
theorem consistent_of_stored (hw : l.unstable_.entries_ = [])
    (hs : l.unstable_.snapshot_ = none) (hmark : l.storage_.snapIndex_ < l.storage_.entries_.length)
    (hstored : ∀ i e, l.storage_.entryAt i = some e → e.index = i ∧ e.term ≠ 0) :
    l.Consistent := by
  refine ⟨hmark, hstored, fun j e he => ?_, fun hne => absurd hw hne, fun hne => absurd hw hne,
    by rw [firstIndex_of_store hs]⟩
  rw [hw] at he
  cases he

theorem continues_singleton {e : Entry} (hidx : e.index = prev + 1) (ht : e.term ≠ 0) :
    Continues prev [e] := by
  intro j e' he
  cases j with
  | zero =>
    obtain rfl := Option.some.inj he
    exact ⟨hidx, ht⟩
  | succ j => cases he

/-- A log whose one stored entry is committed. -/
def heldOne : RaftLog :=
  { storage_ := { entries_ := [{}, { term := 1, index := 1 }] }, committed_ := 1 }

theorem consistent_heldOne : heldOne.Consistent := by
  refine consistent_of_stored rfl rfl (by decide) fun i e he => ?_
  match i with
  | 0 => cases he
  | 1 =>
    obtain rfl := Option.some.inj he
    decide
  | i + 2 => cases he

end RaftLog

end NexusLOB.Raft
