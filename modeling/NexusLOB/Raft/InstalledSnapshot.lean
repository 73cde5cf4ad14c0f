import NexusLOB.Raft.FollowerAppend
import NexusLOB.Raft.LogView

/-!
# Entries behind an installed snapshot

`restore` puts the snapshot into the unstable part of the log, where it decides the first and the
last index as long as it stays. `stableTo` releases it only for the snapshot's own index and term;
the release of an entry behind it drops the entry from the window and keeps the snapshot. The log
then ends at the snapshot again, whatever the storage holds.
-/

namespace NexusLOB.Raft

namespace RaftLog

/-- `l` comes from `restore` of `snap` by appends that continue the log up to `n`, writes to the
storage, and releases of entries behind the snapshot. -/
inductive Installed (snap : Snapshot) : RaftLog → Nat → Prop
  | restore (l : RaftLog) : Installed snap (l.restore snap) snap.index
  | append {l : RaftLog} {n : Nat} {ents : List Entry} (h : Installed snap l n)
      (hc : Continues n ents) : Installed snap (l.append ents).2 (n + ents.length)
  | store {l : RaftLog} {n : Nat} (h : Installed snap l n) (w : WriteAheadLog) :
      Installed snap { l with storage_ := w } n
  | release {l : RaftLog} {n i : Nat} (h : Installed snap l n) (hs : snap.index < i) (hi : i ≤ n) :
      Installed snap (l.stableTo i (l.term i)) n

/-- What every such history keeps: the snapshot is pending, and a non-empty window ends at `n`. -/
structure Pinned (snap : Snapshot) (l : RaftLog) (n : Nat) : Prop where
  pending : l.unstable_.snapshot_ = some snap
  committed : l.committed_ = snap.index
  le : snap.index ≤ n
  window : l.unstable_.entries_ ≠ [] →
    l.unstable_.offset_ + l.unstable_.entries_.length = n + 1

variable {snap : Snapshot} {l : RaftLog} {n i : Nat}

theorem stableTo_of_behind (h : l.unstable_.snapshot_ = some snap) (hi : snap.index < i) (t : Nat) :
    (l.stableTo i t).unstable_ =
      if l.unstable_.entries_ = [] ∨ i < l.unstable_.offset_ then l.unstable_
      else { l.unstable_ with
        entries_ := l.unstable_.entries_.drop (i + 1 - l.unstable_.offset_), offset_ := i + 1 } := by
  simp only [stableTo, LogUnstable.stableTo, h]
  rw [if_neg (by omega), if_neg (by omega)]

theorem Pinned.append {ents : List Entry} (h : Pinned snap l n) (hc : Continues n ents) :
    Pinned snap (l.append ents).2 (n + ents.length) := by
  cases ents with
  | nil => exact h
  | cons e rest =>
    have hidx : e.index = n + 1 := (hc 0 e rfl).1
    have hcom := h.committed
    have hle := h.le
    simp only [RaftLog.append]
    rw [if_neg (by omega)]
    refine ⟨?_, h.committed, by omega, fun _ => ?_⟩
    · exact (l.unstable_.append_snapshot (e :: rest)).trans h.pending
    · simp only [LogUnstable.append, LogUnstable.truncateAndAppend]
      by_cases hw : l.unstable_.entries_ = []
      · rw [if_pos hw]
        dsimp only
        omega
      · have hend := h.window hw
        have hpos := List.length_pos_iff.mpr hw
        rw [if_neg hw, if_neg (by omega), if_neg (by omega)]
        simp only [List.length_append, List.length_take]
        omega

theorem Pinned.release (h : Pinned snap l n) (hs : snap.index < i) (hi : i ≤ n) (t : Nat) :
    Pinned snap (l.stableTo i t) n := by
  have hstable := stableTo_of_behind h.pending hs t
  refine ⟨?_, h.committed, h.le, ?_⟩
  · rw [hstable]
    split_ifs <;> exact h.pending
  · rw [hstable]
    split_ifs with hkeep
    · exact h.window
    · rw [not_or] at hkeep
      have hend := h.window hkeep.1
      intro _
      simp only [List.length_drop]
      omega

theorem Installed.pinned (h : Installed snap l n) : Pinned snap l n := by
  induction h with
  | restore l => exact ⟨rfl, rfl, Nat.le_refl _, fun h => absurd rfl h⟩
  | append _ hc ih => exact ih.append hc
  | store _ _ ih => exact ⟨ih.pending, ih.committed, ih.le, ih.window⟩
  | release _ hs hi ih => exact ih.release hs hi _

/-- Releasing everything leaves no unstable entry behind the snapshot. -/
theorem Pinned.release_all (h : Pinned snap l n) (hs : snap.index < n) (t : Nat) :
    (l.stableTo n t).unstable_.entries_ = [] := by
  rw [stableTo_of_behind h.pending hs t]
  split_ifs with hkeep
  · rcases hkeep with hnil | hlt
    · exact hnil
    · by_contra hw
      have hend := h.window hw
      have hpos := List.length_pos_iff.mpr hw
      omega
  · rw [not_or] at hkeep
    have hend := h.window hkeep.1
    exact List.drop_eq_nil_of_le (by omega)

/-- The entries behind an installed snapshot are gone from the log once they are released: it ends
at the snapshot, its last term is 0, and no slice up to the last entry can be read. -/
theorem installed_entries_hidden (h : Installed snap l n) (hn : snap.index < n) :
    (l.stableTo n (l.term n)).lastIndex = snap.index ∧
      (l.stableTo n (l.term n)).lastIndex ≠ n ∧
      (l.stableTo n (l.term n)).lastTerm = 0 ∧
      ∀ lo, snap.index < lo → lo ≤ n →
        (l.stableTo n (l.term n)).slice lo (n + 1) noLimit = .error "slice above last index" := by
  have hp := h.pinned
  have hp' := hp.release hn (Nat.le_refl n) (l.term n)
  have hnil := hp.release_all hn (l.term n)
  generalize l.stableTo n (l.term n) = l' at hp' hnil
  have hlast : l'.lastIndex = snap.index := lastIndex_of_pending hnil hp'.pending
  have hfirst : l'.firstIndex = snap.index + 1 := firstIndex_of_pending hp'.pending
  refine ⟨hlast, by omega, ?_, fun lo hlo hle => ?_⟩
  · have hsnap : l'.snapshotIndex = snap.index := by
      have := l'.firstIndex_eq_snapshotIndex
      omega
    rw [lastTerm, hlast, ← hsnap]
    exact l'.term_boundary
  · rw [slice, if_neg (by omega), if_neg (by omega), if_pos (by omega)]

/-- A snapshot up to 5, then entry 6 appended and stored next to the snapshot mark. -/
def snapAndOne : RaftLog :=
  { (((RaftLog.new .fresh).restore { term := 1, index := 5 }).append
      [{ term := 1, index := 6 }]).2 with
    storage_ := { entries_ := List.replicate 6 {} ++ [{ term := 1, index := 6 }]
                  snapIndex_ := 5, snapTerm_ := 1 } }

theorem installed_snapAndOne : Installed { term := 1, index := 5 } snapAndOne 6 := by
  have hc : Continues 5 [{ term := 1, index := 6 }] := by
    intro j e he
    cases j with
    | zero =>
      obtain rfl := Option.some.inj he
      decide
    | succ j => cases he
  exact .store (.append (.restore (.new .fresh)) hc) _

theorem snapAndOne_hidden : (snapAndOne.stableTo 6 (snapAndOne.term 6)).lastIndex ≠ 6 :=
  (installed_entries_hidden installed_snapAndOne (by decide)).2.1

/-- Entry 6 is the last one, with its term, until it is released; then it cannot be read. -/
theorem snapAndOne_loses_entry :
    snapAndOne.lastIndex = 6 ∧ snapAndOne.lastTerm = 1 ∧
      snapAndOne.storage_.entryAt 6 = some { term := 1, index := 6 } ∧
      (snapAndOne.stableTo 6 (snapAndOne.term 6)).lastIndex = 5 ∧
      (snapAndOne.stableTo 6 (snapAndOne.term 6)).lastTerm = 0 ∧
      (snapAndOne.stableTo 6 (snapAndOne.term 6)).slice 6 7 noLimit =
        .error "slice above last index" := by
  refine ⟨by decide, by decide, by decide, by decide, by decide, rfl⟩

end RaftLog

end NexusLOB.Raft
