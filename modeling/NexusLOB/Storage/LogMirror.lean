import NexusLOB.Storage.TornTail

/-!
# The file mirrors the log

A batch that begins inside the log has the file rewritten, another one is written behind what is
there; the replay puts entries at their indices, whichever way they came to the file. After any
calls whose batches leave no gap, the vector is the log in which each batch replaced what stood from
its first index on, and the file gives back the same vector.
-/

namespace NexusLOB.Storage

open Codec

/-! ## Logs as lists -/

/-- What a batch does to a log whose first entry has index 1. -/
def overwrite (log ents : List Entry) : List Entry :=
  match ents with
  | [] => log
  | e :: _ => log.take (e.index.toNat - 1) ++ ents

theorem Numbered.append {first : Nat} {es ents : List Entry} (hes : Numbered first es)
    (hents : Numbered (first + es.length) ents) : Numbered first (es ++ ents) := by
  induction es generalizing first with
  | nil => exact hents
  | cons e es ih =>
    refine ⟨hes.1, ih hes.2 ?_⟩
    rw [List.length_cons] at hents
    rwa [Nat.add_right_comm, Nat.add_assoc]

theorem Numbered.take {first : Nat} {es : List Entry} (h : Numbered first es) (n : Nat) :
    Numbered first (es.take n) := by
  induction es generalizing first n with
  | nil =>
    rw [List.take_nil]
    trivial
  | cons e es ih =>
    cases n with
    | zero => trivial
    | succ n => exact ⟨h.1, ih h.2 n⟩

/-- A batch with its first index in the log or right behind it leaves no gap. -/
theorem Numbered.overwrite {log ents : List Entry} {first : Nat} (hlog : Numbered 1 log)
    (hpos : 1 ≤ first) (hle : first ≤ log.length + 1) (hents : Numbered first ents) :
    Numbered 1 (overwrite log ents) := by
  cases ents with
  | nil => exact hlog
  | cons e es =>
    have hfirst : 1 + (log.take (first - 1)).length = first := by
      rw [List.length_take]
      omega
    rw [Storage.overwrite, hents.1]
    apply (hlog.take (first - 1)).append
    rwa [hfirst]

/-- Entries without a gap are laid out in their order. -/
theorem laid_of_numbered {es : List Entry} (h : Numbered 1 es) : laid es = {} :: es := by
  induction es using List.reverseRecOn with
  | nil => rfl
  | append_singleton es e ih =>
    have hes : Numbered 1 es := by
      have htake := h.take es.length
      rwa [List.take_left] at htake
    have hindex : e.index.toNat = ({} :: es : List Entry).length := by
      rw [h.getElem? (List.getElem?_concat_length : (es ++ [e])[es.length]? = some e),
        List.length_cons, Nat.add_comm]
    rw [laid_concat, ih hes, place, hindex, Nat.add_sub_cancel_left, List.replicate_one,
      List.set_append_right _ _ le_rfl, Nat.sub_self]
    rfl

namespace WriteAheadLog

/-! ## Calls -/

inductive Call where
  | append (ents : List Entry)
  | appendNoSync (ents : List Entry)
  deriving DecidableEq, Repr

def Call.ents : Call → List Entry
  | .append ents => ents
  | .appendNoSync ents => ents

def call (w : WriteAheadLog) : Call → WriteAheadLog
  | .append ents => w.append ents
  | .appendNoSync ents => w.appendNoSync ents

def run (w : WriteAheadLog) (calls : List Call) : WriteAheadLog := calls.foldl call w

theorem call_eq (w : WriteAheadLog) (c : Call) : w.call c = w.appendNoSync c.ents := by
  cases c <;> rfl

/-- Entries numbered from an index that the log has or that comes next, with lengths that fit. -/
def Follows (w : WriteAheadLog) (ents : List Entry) : Prop :=
  (∃ first, 1 ≤ first ∧ first ≤ w.lastIndex + 1 ∧ Numbered first ents) ∧ ∀ e ∈ ents, e.Fits

/-- Every call of a run has a batch for the log it finds. -/
def Admits : WriteAheadLog → List Call → Prop
  | _, [] => True
  | w, c :: calls => w.Follows c.ents ∧ Admits (w.call c) calls

/-! ## The vector and the list -/

/-- The vector holds a log without a gap behind the dummy entry. -/
structure Shows (w : WriteAheadLog) (log : List Entry) : Prop where
  mirrored : w.Mirrored
  entries : w.entries_ = {} :: log
  numbered : Numbered 1 log

theorem shows_start : (start []).Shows [] := ⟨mirrored_start, rfl, trivial⟩

theorem Shows.lastIndex {w : WriteAheadLog} {log : List Entry} (h : w.Shows log) :
    w.lastIndex = log.length := by
  rw [WriteAheadLog.lastIndex, h.entries]
  rfl

theorem Shows.entries_appendNoSync {w : WriteAheadLog} {log ents : List Entry} (h : w.Shows log)
    (hents : w.Follows ents) : (w.appendNoSync ents).entries_ = {} :: overwrite log ents := by
  obtain ⟨⟨first, hpos, hle, hnumbered⟩, -⟩ := hents
  rw [h.lastIndex] at hle
  cases ents with
  | nil => exact h.entries
  | cons e es =>
    have hfirst : e.index.toNat = first := hnumbered.1
    obtain ⟨k, rfl⟩ : ∃ k, first = k + 1 := ⟨first - 1, by omega⟩
    rw [appendNoSync, overwrite, h.lastIndex, hfirst, Nat.add_sub_cancel]
    split
    · change w.entries_.take (k + 1) ++ e :: es = _
      rw [h.entries, List.take_succ_cons, List.cons_append]
    · next hbehind =>
      change w.entries_ ++ e :: es = _
      rw [h.entries, List.take_of_length_le (by omega), List.cons_append]

theorem Shows.appendNoSync {w : WriteAheadLog} {log ents : List Entry} (h : w.Shows log)
    (hents : w.Follows ents) : (w.appendNoSync ents).Shows (overwrite log ents) := by
  refine ⟨?_, h.entries_appendNoSync hents, ?_⟩
  · apply h.mirrored.appendNoSync
    intro e he
    refine ⟨hents.2 e he, ?_⟩
    obtain ⟨⟨first, hpos, -, hnumbered⟩, -⟩ := hents
    rintro hzero
    have hge := hnumbered.le he
    rw [hzero] at hge
    have : first ≤ 0 := hge
    omega
  · obtain ⟨⟨first, hpos, hle, hnumbered⟩, -⟩ := hents
    rw [h.lastIndex] at hle
    exact h.numbered.overwrite hpos hle hnumbered

theorem Shows.run {w : WriteAheadLog} {log : List Entry} {calls : List Call} (h : w.Shows log)
    (hcalls : w.Admits calls) : (w.run calls).Shows ((calls.map Call.ents).foldl overwrite log) := by
  induction calls generalizing w log with
  | nil => exact h
  | cons c calls ih =>
    have hnext : (w.call c).Shows (overwrite log c.ents) := by
      rw [call_eq]
      exact h.appendNoSync hcalls.1
    exact ih hnext hcalls.2

/-- The dummy entry has index 0, the entries behind it their own. -/
theorem Shows.index {w : WriteAheadLog} {log : List Entry} (h : w.Shows log) {i : Nat} {e : Entry}
    (he : w.entries_[i]? = some e) : e.index.toNat = i := by
  rw [h.entries] at he
  cases i with
  | zero =>
    cases he
    rfl
  | succ i =>
    rw [List.getElem?_cons_succ] at he
    rw [h.numbered.getElem? he, Nat.add_comm]

theorem Shows.reopened {w : WriteAheadLog} {log : List Entry} (h : w.Shows log) :
    (start w.logBin).entries_ = w.entries_ := by
  have hdrop : w.entries_.drop 1 = log := by
    rw [h.entries]
    rfl
  have hfits := h.mirrored.fits
  rw [hdrop] at hfits
  have hread := entries_start hfits (rfl : readEntry [] = none)
  rw [List.append_nil] at hread
  rw [h.mirrored.logBin, hdrop, hread, laid_of_numbered h.numbered, h.entries]

/-- After any calls on an empty directory, each with a batch that is numbered from an index the log
has or that comes next, the vector is the dummy entry and the log in which every batch replaced what
stood from its first index on. An entry stands at its index, and a log opened on the file has the
same indices and entries. -/
theorem file_mirrors_log {calls : List Call} (hcalls : (start []).Admits calls) :
    ((start []).run calls).entries_ = {} :: (calls.map Call.ents).foldl overwrite [] ∧
      (∀ i (e : Entry), ((start []).run calls).entries_[i]? = some e → e.index.toNat = i) ∧
      (start ((start []).run calls).logBin).firstIndex = ((start []).run calls).firstIndex ∧
      (start ((start []).run calls).logBin).lastIndex = ((start []).run calls).lastIndex ∧
      (start ((start []).run calls).logBin).entries_ = ((start []).run calls).entries_ := by
  have hshows := shows_start.run hcalls
  generalize (start []).run calls = w at hshows ⊢
  refine ⟨hshows.entries, fun i e => hshows.index, ?_, ?_, hshows.reopened⟩
  · rw [firstIndex, firstIndex, hshows.mirrored.snapIndex]
    rfl
  · rw [WriteAheadLog.lastIndex, WriteAheadLog.lastIndex, hshows.reopened]

/-- Three entries, the last two of them overwritten by one of a later term. -/
theorem file_mirrors_log_overlap :
    (start []).Admits [.append [⟨1, 1, 0, [7]⟩, ⟨1, 2, 0, []⟩, ⟨1, 3, 0, [8]⟩],
      .appendNoSync [⟨2, 2, 0, [9]⟩]] ∧
    (start ((start []).run [.append [⟨1, 1, 0, [7]⟩, ⟨1, 2, 0, []⟩, ⟨1, 3, 0, [8]⟩],
      .appendNoSync [⟨2, 2, 0, [9]⟩]]).logBin).entries_ = [{}, ⟨1, 1, 0, [7]⟩, ⟨2, 2, 0, [9]⟩] := by
  have hcalls : (start []).Admits [.append [⟨1, 1, 0, [7]⟩, ⟨1, 2, 0, []⟩, ⟨1, 3, 0, [8]⟩],
      .appendNoSync [⟨2, 2, 0, [9]⟩]] := by
    refine ⟨⟨⟨1, by decide, by decide, rfl, rfl, rfl, trivial⟩, by decide⟩,
      ⟨⟨2, by decide, by decide, rfl, trivial⟩, by decide⟩, trivial⟩
  refine ⟨hcalls, ?_⟩
  rw [(file_mirrors_log hcalls).2.2.2.2]
  rfl

end WriteAheadLog

end NexusLOB.Storage
