import NexusLOB.Storage.Overwrite

/-!
# Cutting the log behind a snapshot

`applySnapshot` shortens the vector to the entries up to the snapshot instead of keeping those above
it, writes the dummy entry without looking whether the vector reaches that far, and rewrites the
file from the old mark on. Only a snapshot of exactly the last entry leaves a log that a restart,
which applies the snapshot again, finds as it was.
-/

namespace NexusLOB.Storage

open Codec

namespace WriteAheadLog

/-- A snapshot is applied inside the vector, the log goes on above it as before, and the log opened
on the file is the same once the snapshot has been applied to it again. -/
def SnapshotKept (w : WriteAheadLog) (index term : UInt64) : Prop :=
  ∃ cut, w.applySnapshotChecked index term = some cut ∧
    cut.firstIndex = index.toNat + 1 ∧
    cut.lastIndex = max w.lastIndex index.toNat ∧
    (∀ i, index.toNat < i → cut.entries_[i]? = w.entries_[i]?) ∧
    ∃ again, (start cut.logBin).applySnapshotChecked index term = some again ∧
      again.firstIndex = cut.firstIndex ∧ again.lastIndex = cut.lastIndex ∧
      ∀ i, cut.firstIndex ≤ i → again.entries_[i]? = cut.entries_[i]?

/-- The records between the mark and a snapshot, and the dummy entry that stands for it. A snapshot
at the mark has none. -/
def marked (w : WriteAheadLog) (index term : UInt64) : Bytes :=
  (w.before index.toNat).flatMap writeEntry ++
    if w.snapIndex_ < index.toNat then writeEntry { index := index, term := term } else []

section
variable {w : WriteAheadLog} {index : UInt64} (hindex : index.toNat < w.entries_.length)
  (term : UInt64)
include hindex

theorem entries_applySnapshot :
    (w.applySnapshot index term).entries_ =
      w.entries_.take index.toNat ++ [{ index := index, term := term }] := by
  have hlen : (w.entries_.take index.toNat).length = index.toNat :=
    List.length_take_of_le (Nat.le_of_lt hindex)
  rw [applySnapshot, List.take_add_one, List.getElem?_eq_getElem hindex, Option.toList_some,
    List.set_append_right _ _ (Nat.le_of_eq hlen), hlen, Nat.sub_self]
  rfl

theorem length_applySnapshot :
    (w.applySnapshot index term).entries_.length = index.toNat + 1 := by
  rw [entries_applySnapshot hindex, List.length_append,
    List.length_take_of_le (Nat.le_of_lt hindex)]
  rfl

theorem getElem?_applySnapshot {i : Nat} (hi : index.toNat < i) :
    (w.applySnapshot index term).entries_[i]? = none := by
  apply List.getElem?_eq_none
  rw [length_applySnapshot hindex]
  exact hi

theorem logBin_applySnapshot : (w.applySnapshot index term).logBin = w.marked index term := by
  have hfile : (w.applySnapshot index term).logBin =
      ((w.applySnapshot index term).entries_.drop (w.snapIndex_ + 1)).flatMap writeEntry := rfl
  rw [hfile, marked]
  split
  · next hlt =>
    rw [entries_applySnapshot hindex, List.drop_append_of_le_length, List.flatMap_append,
      List.flatMap_singleton]
    · rfl
    · rw [List.length_take_of_le (Nat.le_of_lt hindex)]
      exact hlt
  · next hge =>
    have hnone : w.before index.toNat = [] := by
      apply List.drop_eq_nil_of_le
      rw [List.length_take]
      omega
    rw [List.drop_eq_nil_of_le, hnone]
    · rfl
    · rw [length_applySnapshot hindex]
      omega

end

theorem applySnapshotChecked_eq_some {w cut : WriteAheadLog} {index term : UInt64} :
    w.applySnapshotChecked index term = some cut ↔
      index.toNat < w.entries_.length ∧ cut = w.applySnapshot index term := by
  rw [applySnapshotChecked, Option.ite_none_right_eq_some, Option.some_inj, eq_comm (a := cut)]

theorem firstIndex_applySnapshot (w : WriteAheadLog) (index term : UInt64) :
    (w.applySnapshot index term).firstIndex = index.toNat + 1 := rfl

/-- A snapshot inside the vector leaves nothing above it, on both sides of a restart. -/
theorem snapshotKept_of_last {w : WriteAheadLog} {index term : UInt64}
    (hlast : index.toNat + 1 = w.entries_.length)
    (hread : index.toNat < (replay (w.marked index term)).length) : w.SnapshotKept index term := by
  have hindex : index.toNat < w.entries_.length := by omega
  have hagain : index.toNat < (start (w.applySnapshot index term).logBin).entries_.length := by
    rw [logBin_applySnapshot hindex]
    exact hread
  refine ⟨_, applySnapshotChecked_eq_some.mpr ⟨hindex, rfl⟩, firstIndex_applySnapshot w index term,
    ?_, ?_, _, applySnapshotChecked_eq_some.mpr ⟨hagain, rfl⟩, ?_, ?_, ?_⟩
  · rw [lastIndex, lastIndex, length_applySnapshot hindex]
    omega
  · intro i hi
    rw [getElem?_applySnapshot hindex term hi, List.getElem?_eq_none (by omega)]
  · rw [firstIndex_applySnapshot, firstIndex_applySnapshot]
  · rw [lastIndex, lastIndex, length_applySnapshot hindex, length_applySnapshot hagain]
  · intro i hi
    rw [getElem?_applySnapshot hindex term hi, getElem?_applySnapshot hagain term hi]

theorem last_of_snapshotKept {w : WriteAheadLog} {index term : UInt64}
    (h : w.SnapshotKept index term) :
    index.toNat + 1 = w.entries_.length ∧
      index.toNat < (replay (w.marked index term)).length := by
  obtain ⟨cut, hcut, -, hlast, -, again, hagain, -⟩ := h
  obtain ⟨hindex, rfl⟩ := applySnapshotChecked_eq_some.mp hcut
  obtain ⟨hread, -⟩ := applySnapshotChecked_eq_some.mp hagain
  refine ⟨?_, ?_⟩
  · rw [lastIndex, lastIndex, length_applySnapshot hindex] at hlast
    omega
  · rwa [logBin_applySnapshot hindex] at hread

/-- What is replayed reaches a snapshot above the old mark, whose dummy entry was written. -/
theorem lt_length_replay_marked {w : WriteAheadLog} {index term : UInt64}
    (hfits : ∀ e ∈ w.before index.toNat, e.Fits) :
    index.toNat < (replay (w.marked index term)).length ↔
      index = 0 ∨ w.snapIndex_ < index.toNat := by
  by_cases hmark : w.snapIndex_ < index.toNat
  · have hrow : ∀ e ∈ w.before index.toNat ++ [{ index := index, term := term }], e.Fits := by
      apply List.forall_mem_append.mpr ⟨hfits, ?_⟩
      intro e he
      rw [List.mem_singleton.mp he]
      exact Nat.two_pow_pos 32
    have hread := entryRecords.records_append hrow []
    rw [List.append_nil, List.flatMap_append, List.flatMap_singleton,
      Records.records_of_torn (rfl : readEntry [] = none), List.append_nil] at hread
    refine iff_of_true ?_ (Or.inr hmark)
    rw [replay, marked, if_pos hmark, hread, laid_concat, length_place]
    exact Nat.lt_of_lt_of_le (Nat.lt_succ_self _) (Nat.le_max_right _ _)
  · have hnone : w.before index.toNat = [] := by
      apply List.drop_eq_nil_of_le
      rw [List.length_take]
      omega
    rw [or_iff_left hmark, marked, if_neg hmark, hnone]
    change index.toNat < 1 ↔ _
    rw [Nat.lt_one_iff, ← UInt64.toNat_inj]
    rfl

/-- Applying a snapshot keeps the log above it exactly if it is of the last entry and the replay of
what is then in the file reaches it: the dummy entry is written only for a snapshot above the old
mark. -/
theorem snapshot_kept_iff (w : WriteAheadLog) (index term : UInt64) :
    (w.SnapshotKept index term ↔ index.toNat + 1 = w.entries_.length ∧
      index.toNat < (replay (w.marked index term)).length) ∧
    ((∀ e ∈ w.before index.toNat, e.Fits) → (w.SnapshotKept index term ↔
      index.toNat + 1 = w.entries_.length ∧ (index = 0 ∨ w.snapIndex_ < index.toNat))) := by
  have hgeneral : w.SnapshotKept index term ↔ index.toNat + 1 = w.entries_.length ∧
      index.toNat < (replay (w.marked index term)).length := by
    constructor
    · exact last_of_snapshotKept
    · rintro ⟨hlast, hread⟩
      exact snapshotKept_of_last hlast hread
  refine ⟨hgeneral, ?_⟩
  intro hfits
  rw [hgeneral, lt_length_replay_marked hfits]

/-- A log of three entries: a snapshot of the first loses the two above it, one beyond the log is
written outside the vector, and a snapshot applied a second time leaves an empty file, on which the
restart writes outside the vector. -/
theorem snapshot_drops_entries :
    ((start []).append [⟨1, 1, 0, [7]⟩, ⟨1, 2, 0, []⟩, ⟨1, 3, 0, [8]⟩]).applySnapshotChecked 1 1 =
        some ⟨writeEntry ⟨1, 1, 0, []⟩, [{}, ⟨1, 1, 0, []⟩], 1, 1⟩ ∧
      ((start []).append [⟨1, 1, 0, [7]⟩, ⟨1, 2, 0, []⟩, ⟨1, 3, 0, [8]⟩]).lastIndex = 3 ∧
      ((start []).append [⟨1, 1, 0, [7]⟩, ⟨1, 2, 0, []⟩, ⟨1, 3, 0, [8]⟩]).applySnapshotChecked 4 1 =
        none ∧
      (⟨writeEntry ⟨1, 1, 0, []⟩, [{}, ⟨1, 1, 0, []⟩], 1, 1⟩ : WriteAheadLog).applySnapshotChecked
        1 1 = some ⟨[], [{}, ⟨1, 1, 0, []⟩], 1, 1⟩ ∧
      (start []).applySnapshotChecked 1 1 = none := by
  decide

end WriteAheadLog

end NexusLOB.Storage
