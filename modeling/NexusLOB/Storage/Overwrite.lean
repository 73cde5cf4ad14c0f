import NexusLOB.Storage.LogFile

/-!
# Crashes while the log is overwritten

A batch that begins inside the log truncates the file and writes the entries before the batch again.
A crash in between loses every entry whose record has not been written again, although the batch
was not about it.
-/

namespace NexusLOB.Storage

open Codec

namespace WriteAheadLog

/-- The log has an entry: at its index, above the snapshot. -/
def Holds (w : WriteAheadLog) (e : Entry) : Prop :=
  w.snapIndex_ < e.index.toNat ∧ w.entries_[e.index.toNat]? = some e

instance (w : WriteAheadLog) (e : Entry) : Decidable (w.Holds e) :=
  inferInstanceAs (Decidable (_ ∧ _))

/-! ## States of a log -/

/-- A log whose file is whole and gives back what the log holds. An entry of the vector has its own
index; fillers of a reopened log have none. -/
structure Intact (w : WriteAheadLog) : Prop where
  length : 1 ≤ w.entries_.length
  indexed : ∀ i e, w.snapIndex_ < i → w.entries_[i]? = some e → e.index.toNat = i ∨ e.index = 0
  fits : ∀ i e, w.snapIndex_ < i → w.entries_[i]? = some e → e.Fits
  file : ∃ es : List Entry, (∀ e ∈ es, e.Fits) ∧ w.logBin = es.flatMap writeEntry
  replayed : ∀ e, w.Holds e → (start w.logBin).Holds e

/-- The entries a batch that begins at `first` leaves. -/
def before (w : WriteAheadLog) (first : Nat) : List Entry :=
  (w.entries_.take first).drop (w.snapIndex_ + 1)

theorem mem_before {w : WriteAheadLog} {first : Nat} {e : Entry} :
    e ∈ w.before first ↔ ∃ i, w.snapIndex_ < i ∧ i < first ∧ w.entries_[i]? = some e := by
  rw [before, List.mem_iff_getElem?]
  constructor
  · rintro ⟨k, hk⟩
    rw [List.getElem?_drop, List.getElem?_take] at hk
    split at hk
    · next hlt => exact ⟨w.snapIndex_ + 1 + k, by omega, hlt, hk⟩
    · cases hk
  · rintro ⟨i, hsnap, hlt, hi⟩
    refine ⟨i - (w.snapIndex_ + 1), ?_⟩
    have hsum : w.snapIndex_ + 1 + (i - (w.snapIndex_ + 1)) = i := by omega
    rw [List.getElem?_drop, hsum, List.getElem?_take_of_lt hlt, hi]

theorem before_succ {w : WriteAheadLog} {i : Nat} {e : Entry} (hsnap : w.snapIndex_ < i)
    (hi : w.entries_[i]? = some e) : w.before (i + 1) = w.before i ++ [e] := by
  have hlt : i < w.entries_.length := (List.getElem?_eq_some_iff.mp hi).1
  rw [before, List.take_add_one, hi, Option.toList_some, List.drop_append_of_le_length]
  · rfl
  · rw [List.length_take]
    omega

theorem before_isPrefix (w : WriteAheadLog) {i first : Nat} (h : i ≤ first) :
    w.before i <+: w.before first := by
  rw [before, before, List.drop_take, List.drop_take]
  exact List.take_prefix_take_left (Nat.sub_le_sub_right h _)

section
variable {w : WriteAheadLog} (hw : w.Intact)
include hw

theorem Intact.before_fits {first : Nat} {e : Entry} (he : e ∈ w.before first) : e.Fits := by
  obtain ⟨i, hsnap, -, hi⟩ := mem_before.mp he
  exact hw.fits i e hsnap hi

/-- Below `first` no two entries have one index. -/
theorem Intact.eq_of_mem_before {first : Nat} {e e' : Entry} (he : w.Holds e)
    (he' : e' ∈ w.before first) (hindex : e'.index = e.index) : e' = e := by
  obtain ⟨i, hsnap, -, hi⟩ := mem_before.mp he'
  rcases hw.indexed i e' hsnap hi with hown | hzero
  · rw [← hown, hindex, he.2] at hi
    exact (Option.some.inj hi).symm
  · have hpos := he.1
    rw [← hindex, hzero] at hpos
    exact absurd hpos (Nat.not_lt_zero _)

theorem Intact.not_mem_before {e : Entry} (he : w.Holds e) : e ∉ w.before e.index.toNat := by
  intro hmem
  obtain ⟨i, hsnap, hlt, hi⟩ := mem_before.mp hmem
  rcases hw.indexed i e hsnap hi with hown | hzero
  · omega
  · have hpos := he.1
    rw [hzero] at hpos
    exact absurd hpos (Nat.not_lt_zero _)

/-- Among entries from before the batch and the batch behind them, an entry is laid out exactly if
it is there with all that stands before it. -/
theorem Intact.getElem?_laid_iff {first : Nat} {ents : List Entry}
    (hents : ∀ e ∈ ents, first ≤ e.index.toNat) {done : List Entry}
    (hdone : done <+: w.before first ++ ents) {e : Entry} (he : w.Holds e)
    (hfirst : e.index.toNat < first) :
    (laid done)[e.index.toNat]? = some e ↔ w.before e.index.toNat ++ [e] <+: done := by
  constructor
  · intro hlaid
    have hmem : e ∈ done := by
      rcases mem_or_of_getElem?_laid hlaid with ⟨hmem, -⟩ | hfill
      · exact hmem
      · have hpos := he.1
        rw [hfill] at hpos
        exact absurd hpos (Nat.not_lt_zero _)
    have hhere : w.before e.index.toNat ++ [e] <+: w.before first ++ ents := by
      rw [← before_succ he.1 he.2]
      exact (w.before_isPrefix hfirst).trans (List.prefix_append _ _)
    rcases List.prefix_or_prefix_of_prefix hhere hdone with hle | hle
    · exact hle
    · rcases List.prefix_concat_iff.mp hle with heq | hshort
      · exact heq ▸ List.prefix_rfl
      · exact absurd (hshort.subset hmem) (hw.not_mem_before he)
  · intro hpre
    apply getElem?_foldl_place (Or.inl (hpre.subset List.mem_concat_self))
    intro e' he' hindex
    rcases List.mem_append.mp (hdone.subset he') with hold | hnew
    · exact hw.eq_of_mem_before he hold hindex
    · have hle := hents e' hnew
      rw [hindex] at hle
      omega

/-- Reopened on a prefix of what is written after the truncation, the log has an entry from before
the batch exactly if its record has been written again. -/
theorem Intact.survives_iff {first : Nat} {ents : List Entry}
    (hents : ∀ e ∈ ents, e.Fits ∧ first ≤ e.index.toNat) {p : Bytes}
    (hp : p <+: w.rewritten first ++ ents.flatMap writeEntry) {e : Entry} (he : w.Holds e)
    (hfirst : e.index.toNat < first) :
    (start p).Holds e ↔ (w.rewritten (e.index.toNat + 1)).length ≤ p.length := by
  have hall : ∀ e' ∈ w.before first ++ ents, e'.Fits :=
    List.forall_mem_append.mpr ⟨fun _ => hw.before_fits, fun e' he' => (hents e' he').1⟩
  have hrow : p <+: (w.before first ++ ents).flatMap writeEntry := by
    rw [List.flatMap_append]
    exact hp
  have hdone : whole writeEntry (w.before first ++ ents) p.length <+: w.before first ++ ents := by
    obtain ⟨next, torn, hnext, -⟩ := Records.isPrefix_split hrow
    exact ⟨next, hnext.symm⟩
  have hpos : 0 < e.index.toNat := Nat.lt_of_le_of_lt (Nat.zero_le _) he.1
  calc (start p).Holds e
    _ ↔ (laid (whole writeEntry (w.before first ++ ents) p.length))[e.index.toNat]? = some e := by
      rw [Holds, start_entries, entryRecords.records_isPrefix hall hrow]
      exact and_iff_right hpos
    _ ↔ w.before (e.index.toNat + 1) <+: whole writeEntry (w.before first ++ ents) p.length := by
      rw [hw.getElem?_laid_iff (fun e' he' => (hents e' he').2) hdone he hfirst,
        before_succ he.1 he.2]
    _ ↔ (w.rewritten (e.index.toNat + 1)).length ≤ p.length := by
      obtain ⟨rest, hrest⟩ := w.before_isPrefix hfirst
      rw [← hrest, List.append_assoc, Records.isPrefix_whole_iff]
      rfl

/-! ## Operations keep a log intact -/

/-- A batch goes behind entries that stay. -/
theorem Intact.push {first : Nat} {row ents : List Entry} (hents : Numbered first ents)
    (hfits : ∀ e ∈ ents, e.Fits) (hne : ents ≠ []) (hfirst : first ≤ w.entries_.length)
    (hrow : ∀ e ∈ row, e.Fits)
    (hold : ∀ e, w.Holds e → e.index.toNat < first → (laid row)[e.index.toNat]? = some e) :
    Intact { w with
      entries_ := w.entries_.take first ++ ents
      logBin := row.flatMap writeEntry ++ ents.flatMap writeEntry } := by
  have hlen : (w.entries_.take first).length = first := List.length_take_of_le hfirst
  have hat : ∀ {i e}, (w.entries_.take first ++ ents)[i]? = some e →
      i < first ∧ w.entries_[i]? = some e ∨ first ≤ i ∧ ents[i - first]? = some e := by
    intro i e hi
    by_cases hlt : i < first
    · rw [List.getElem?_append_left (by omega), List.getElem?_take_of_lt hlt] at hi
      exact Or.inl ⟨hlt, hi⟩
    · rw [List.getElem?_append_right (by omega), hlen] at hi
      exact Or.inr ⟨by omega, hi⟩
  have hboth : ∀ e ∈ row ++ ents, e.Fits := List.forall_mem_append.mpr ⟨hrow, hfits⟩
  refine ⟨?_, ?_, ?_, ⟨row ++ ents, hboth, List.flatMap_append.symm⟩, ?_⟩
  · have hpos := List.length_pos_iff.mpr hne
    rw [List.length_append]
    omega
  · intro i e hsnap hi
    rcases hat hi with ⟨-, hi⟩ | ⟨hle, hi⟩
    · exact hw.indexed i e hsnap hi
    · left
      rw [hents.getElem? hi]
      omega
  · intro i e hsnap hi
    rcases hat hi with ⟨-, hi⟩ | ⟨-, hi⟩
    · exact hw.fits i e hsnap hi
    · exact hfits e (List.mem_of_getElem? hi)
  · intro e he
    refine ⟨Nat.lt_of_le_of_lt (Nat.zero_le _) he.1, ?_⟩
    have hlaid : (start (row.flatMap writeEntry ++ ents.flatMap writeEntry)).entries_ =
        ents.foldl place (laid row) := by
      have hend := entries_start hboth (rfl : readEntry [] = none)
      rw [List.append_nil, List.flatMap_append] at hend
      rw [hend, laid, List.foldl_append]
      rfl
    rw [hlaid]
    rcases hat he.2 with ⟨hlt, hi⟩ | ⟨-, hi⟩
    · apply getElem?_foldl_place (Or.inr (hold e ⟨he.1, hi⟩ hlt))
      intro e' he' hindex
      have hle := hents.le he'
      rw [hindex] at hle
      omega
    · have hmem := List.mem_of_getElem? hi
      apply getElem?_foldl_place (Or.inl hmem)
      intro e' he' hindex
      exact hents.eq_of_index hmem he' hindex

theorem Intact.appendNoSync {first : Nat} {ents : List Entry} (hents : Numbered first ents)
    (hfits : ∀ e ∈ ents, e.Fits) (hfirst : first ≤ w.lastIndex + 1) :
    (w.appendNoSync ents).Intact := by
  cases ents with
  | nil => exact hw
  | cons e es =>
    have hlen := hw.length
    have hle : first ≤ w.entries_.length := by
      rw [lastIndex] at hfirst
      omega
    rw [WriteAheadLog.appendNoSync, hents.1]
    split
    · apply hw.push hents hfits (List.cons_ne_nil _ _) hle (fun _ => hw.before_fits)
      intro e' he' hlt
      apply getElem?_foldl_place (Or.inl (mem_before.mpr ⟨_, he'.1, hlt, he'.2⟩))
      intro e'' he'' hindex
      exact hw.eq_of_mem_before he' he'' hindex
    · next hgt =>
      have hall : w.entries_.take first = w.entries_ := by
        apply List.take_of_length_le
        rw [lastIndex] at hgt
        omega
      obtain ⟨row, hrow, hfile⟩ := hw.file
      have hpush := hw.push hents hfits (List.cons_ne_nil _ _) hle hrow (by
        intro e' he' _
        have hreplayed := (hw.replayed e' he').2
        have hlaid := entries_start hrow (rfl : readEntry [] = none)
        rw [List.append_nil] at hlaid
        rwa [hfile, hlaid] at hreplayed)
      rw [hall, ← hfile] at hpush
      exact hpush

/-- Nothing is left above a snapshot. -/
theorem Intact.applySnapshot {index : UInt64} (hindex : index.toNat < w.entries_.length)
    (term : UInt64) : (w.applySnapshot index term).Intact := by
  have hlen : ((w.entries_.take (index.toNat + 1)).set index.toNat
      { index := index, term := term }).length = index.toNat + 1 := by
    rw [List.length_set, List.length_take_of_le hindex]
  have hnone : ∀ {i e}, index.toNat < i →
      ((w.entries_.take (index.toNat + 1)).set index.toNat { index := index, term := term })[i]? ≠
        some e := by
    intro i e hlt
    rw [List.getElem?_eq_none (by omega)]
    exact Option.some_ne_none e |>.symm
  refine ⟨?_, ?_, ?_, ⟨_, ?_, rfl⟩, ?_⟩
  · rw [WriteAheadLog.applySnapshot, hlen]
    omega
  · intro i e hsnap hi
    exact absurd hi (hnone hsnap)
  · intro i e hsnap hi
    exact absurd hi (hnone hsnap)
  · intro e he
    obtain ⟨k, hk⟩ := List.mem_iff_getElem?.mp he
    rw [List.getElem?_drop] at hk
    by_cases hat : w.snapIndex_ + 1 + k = index.toNat
    · rw [hat, List.getElem?_set_self (by rw [List.length_take_of_le hindex]; omega)] at hk
      cases hk
      exact Nat.two_pow_pos 32
    · rw [List.getElem?_set_ne (Ne.symm hat), List.getElem?_take] at hk
      split at hk
      · exact hw.fits _ e (by omega) hk
      · cases hk
  · intro e he
    exact absurd he.2 (hnone he.1)

end

/-- A log opened on whole records. -/
theorem intact_start {row : List Entry} (hrow : ∀ e ∈ row, e.Fits) :
    (start (row.flatMap writeEntry)).Intact := by
  have hlaid := entries_start hrow (rfl : readEntry [] = none)
  rw [List.append_nil] at hlaid
  refine ⟨?_, ?_, ?_, ⟨row, hrow, rfl⟩, fun _ he => he⟩
  · rw [hlaid]
    exact one_le_length_laid row
  · intro i e _ hi
    rw [hlaid] at hi
    rcases mem_or_of_getElem?_laid hi with ⟨-, hindex⟩ | rfl
    · exact Or.inl hindex
    · exact Or.inr rfl
  · intro i e _ hi
    rw [hlaid] at hi
    rcases mem_or_of_getElem?_laid hi with ⟨hmem, -⟩ | rfl
    · exact hrow e hmem
    · exact Nat.two_pow_pos 32

/-- The states of a log, from an empty directory on. -/
inductive Reached : WriteAheadLog → Prop
  | fresh : Reached (start [])
  | appendNoSync {w : WriteAheadLog} {first : Nat} {ents : List Entry} (hw : Reached w)
      (hents : Numbered first ents) (hfits : ∀ e ∈ ents, e.Fits)
      (hfirst : first ≤ w.lastIndex + 1) : Reached (w.appendNoSync ents)
  | applySnapshot {w : WriteAheadLog} {index : UInt64} (hw : Reached w)
      (hindex : index.toNat < w.entries_.length) (term : UInt64) :
      Reached (w.applySnapshot index term)
  | restart {w : WriteAheadLog} (hw : Reached w) : Reached (start w.logBin)

theorem Reached.intact {w : WriteAheadLog} (h : w.Reached) : w.Intact := by
  induction h with
  | fresh => exact intact_start (fun _ he => absurd he List.not_mem_nil)
  | appendNoSync _ hents hfits hfirst ih => exact ih.appendNoSync hents hfits hfirst
  | applySnapshot _ hindex term ih => exact ih.applySnapshot hindex term
  | restart _ ih =>
    obtain ⟨row, hrow, hfile⟩ := ih.file
    rw [hfile]
    exact intact_start hrow

/-- A crash inside a batch that begins inside the log finds the file as it was, or with some of what
is written after the truncation. The entries before the batch survive exactly if the file was not
truncated yet or the records of all of them have been written again. -/
theorem overwrite_crash_safe_iff {w : WriteAheadLog} (hw : w.Reached) {n : Entry}
    {ents : List Entry} (hfirst : n.index.toNat ≤ w.lastIndex)
    (hents : ∀ e ∈ n :: ents, e.Fits ∧ n.index.toNat ≤ e.index.toNat) {p : Bytes}
    (hp : p = w.logBin ∨ p <+: (w.appendNoSync (n :: ents)).logBin) :
    (∀ e, w.Holds e → e.index.toNat < n.index.toNat → (start p).Holds e) ↔
      p = w.logBin ∨ ∀ e, w.Holds e → e.index.toNat < n.index.toNat →
        (w.rewritten (e.index.toNat + 1)).length ≤ p.length := by
  have hintact := hw.intact
  by_cases hsame : p = w.logBin
  · rw [hsame]
    exact iff_of_true (fun e he _ => hintact.replayed e he) (Or.inl rfl)
  · have hwritten := hp.resolve_left hsame
    rw [WriteAheadLog.appendNoSync, if_pos hfirst] at hwritten
    rw [or_iff_right hsame]
    apply forall_congr'
    intro e
    constructor
    · intro h he hlt
      exact (hintact.survives_iff hents hwritten he hlt).mp (h he hlt)
    · intro h he hlt
      exact (hintact.survives_iff hents hwritten he hlt).mpr (h he hlt)

/-- The file has just been truncated for a batch that begins at the second of two entries. -/
theorem overwrite_crash_safe_iff_truncated :
    ((start []).appendNoSync [⟨1, 1, 0, []⟩, ⟨1, 2, 0, []⟩]).Reached ∧
      ¬ ∀ e, ((start []).appendNoSync [⟨1, 1, 0, []⟩, ⟨1, 2, 0, []⟩]).Holds e →
        e.index.toNat < 2 → (start []).Holds e := by
  have hents : Numbered 1 [⟨1, 1, 0, []⟩, ⟨1, 2, 0, []⟩] := ⟨rfl, rfl, trivial⟩
  have hw : ((start []).appendNoSync [⟨1, 1, 0, []⟩, ⟨1, 2, 0, []⟩]).Reached :=
    Reached.fresh.appendNoSync hents (by decide) le_rfl
  refine ⟨hw, ?_⟩
  intro h
  have hiff := overwrite_crash_safe_iff hw (n := ⟨2, 2, 0, []⟩) le_rfl
    (by decide : ∀ e ∈ [(⟨2, 2, 0, []⟩ : Entry)], e.Fits ∧ 2 ≤ e.index.toNat)
    (Or.inr List.nil_prefix)
  rcases hiff.mp h with hfile | hwritten
  · exact absurd hfile (by decide)
  · exact absurd (hwritten ⟨1, 1, 0, []⟩ (by decide) (by decide)) (by decide)

/-- The truncated file has lost the entry before the batch. -/
theorem overwrite_crash_loses_entry :
    ((start []).appendNoSync [⟨1, 1, 0, []⟩, ⟨1, 2, 0, []⟩]).Holds ⟨1, 1, 0, []⟩ ∧
      [] <+: (((start []).appendNoSync [⟨1, 1, 0, []⟩, ⟨1, 2, 0, []⟩]).appendNoSync
        [⟨2, 2, 0, []⟩]).logBin ∧
      ¬ (start []).Holds ⟨1, 1, 0, []⟩ := by
  decide

end WriteAheadLog

end NexusLOB.Storage
