import NexusLOB.Storage.LogFile

/-!
# Torn tails

Reopened on a byte prefix of its file, a log holds the entries whose records are whole. The torn
beginning of a record stays in the file, and later appends go behind it. A second reopen gives back
what was appended, whatever that is, exactly if nothing torn was left.
-/

namespace NexusLOB.Storage

open Codec

namespace WriteAheadLog

/-- Batches that each go on where the log ends. -/
def Extends : WriteAheadLog → List (List Entry) → Prop
  | _, [] => True
  | w, ents :: batches => Numbered (w.lastIndex + 1) ents ∧ Extends (w.appendNoSync ents) batches

theorem appendNoSync_of_numbered {w : WriteAheadLog} {ents : List Entry}
    (h : Numbered (w.lastIndex + 1) ents) :
    w.appendNoSync ents =
      { w with logBin := w.logBin ++ ents.flatMap writeEntry, entries_ := w.entries_ ++ ents } := by
  cases ents with
  | nil => simp [appendNoSync]
  | cons e es =>
    have hfirst : ¬ e.index.toNat ≤ w.lastIndex := by
      rw [h.1]
      omega
    rw [appendNoSync, if_neg hfirst]

theorem logBin_of_extends {w : WriteAheadLog} {batches : List (List Entry)}
    (h : w.Extends batches) :
    (w.appendAll batches).logBin = w.logBin ++ batches.flatten.flatMap writeEntry := by
  induction batches generalizing w with
  | nil => simp [appendAll]
  | cons ents batches ih =>
    have hrest := ih h.2
    rw [appendNoSync_of_numbered h.1] at hrest
    rw [appendAll, List.foldl_cons, appendNoSync_of_numbered h.1, List.flatten_cons,
      List.flatMap_append, ← List.append_assoc]
    exact hrest

/-! ## The file mirrors the log -/

/-- The file holds the entries of the log, one record after the other. -/
structure Mirrored (w : WriteAheadLog) : Prop where
  fits : ∀ e ∈ w.entries_.drop 1, e.Fits
  length : 1 ≤ w.entries_.length
  logBin : w.logBin = (w.entries_.drop 1).flatMap writeEntry
  snapIndex : w.snapIndex_ = 0

theorem Mirrored.truncate {w : WriteAheadLog} (h : w.Mirrored) {first : Nat} (hfirst : 1 ≤ first) :
    (w.truncate first).Mirrored where
  fits e he := by
    apply h.fits
    rw [WriteAheadLog.truncate, List.drop_take] at he
    exact List.mem_of_mem_take he
  length := by
    have hlen := h.length
    rw [WriteAheadLog.truncate, List.length_take]
    omega
  logBin := by
    simp only [WriteAheadLog.truncate, rewritten, h.snapIndex]
  snapIndex := h.snapIndex

theorem Mirrored.push {w : WriteAheadLog} (h : w.Mirrored) {ents : List Entry}
    (hfits : ∀ e ∈ ents, e.Fits) :
    Mirrored { w with
      logBin := w.logBin ++ ents.flatMap writeEntry, entries_ := w.entries_ ++ ents } := by
  have hdrop : (w.entries_ ++ ents).drop 1 = w.entries_.drop 1 ++ ents :=
    List.drop_append_of_le_length h.length
  refine ⟨?_, ?_, ?_, h.snapIndex⟩
  · rw [hdrop]
    exact List.forall_mem_append.mpr ⟨h.fits, hfits⟩
  · rw [List.length_append]
    exact Nat.le_add_right_of_le h.length
  · rw [hdrop, List.flatMap_append, h.logBin]

theorem Mirrored.appendNoSync {w : WriteAheadLog} (h : w.Mirrored) {ents : List Entry}
    (hents : ∀ e ∈ ents, e.Fits ∧ e.index ≠ 0) : (w.appendNoSync ents).Mirrored := by
  cases ents with
  | nil => exact h
  | cons e es =>
    have hfits : ∀ e' ∈ e :: es, e'.Fits := fun e' he' => (hents e' he').1
    have hfirst : 1 ≤ e.index.toNat := by
      have hne := (hents e List.mem_cons_self).2
      have hpos : e.index.toNat ≠ 0 := fun h0 => hne (UInt64.toNat_inj.mp h0)
      omega
    rw [WriteAheadLog.appendNoSync]
    split
    · exact (h.truncate hfirst).push hfits
    · exact h.push hfits

theorem mirrored_appendAll {w : WriteAheadLog} (h : w.Mirrored) {batches : List (List Entry)}
    (hbatches : ∀ e ∈ batches.flatten, e.Fits ∧ e.index ≠ 0) : (w.appendAll batches).Mirrored := by
  induction batches generalizing w with
  | nil => exact h
  | cons ents batches ih =>
    rw [List.flatten_cons, List.forall_mem_append] at hbatches
    exact ih (h.appendNoSync hbatches.1) hbatches.2

theorem mirrored_start : (start []).Mirrored where
  fits _ he := absurd he List.not_mem_nil
  length := le_rfl
  logBin := rfl
  snapIndex := rfl

/-- The entries of a log whose records lie in the first `n` bytes of its file. -/
def complete (w : WriteAheadLog) (n : Nat) : List Entry := whole writeEntry (w.entries_.drop 1) n

/-- A byte prefix of the file: whole records, and the beginning of a further one. -/
theorem Mirrored.split {w : WriteAheadLog} (h : w.Mirrored) {p : Bytes} (hp : p <+: w.logBin) :
    ∃ torn, p = (w.complete p.length).flatMap writeEntry ++ torn ∧
      (∀ e ∈ w.complete p.length, e.Fits) ∧ readEntry torn = none := by
  rw [h.logBin] at hp
  obtain ⟨next, torn, hall, hsplit, htorn⟩ := Records.isPrefix_split hp
  have hfits := h.fits
  rw [hall, List.forall_mem_append] at hfits
  refine ⟨torn, hsplit, hfits.1, ?_⟩
  rcases htorn with rfl | ⟨e, rest, rfl, hprefix, hne⟩
  · rfl
  · exact entryRecords.read_torn (hfits.2 e List.mem_cons_self) hprefix hne

/-! ## Appending behind a torn record -/

/-- An entry whose record does not begin with a given byte. -/
def unlike (b : UInt8) (index : UInt64) : Entry := { term := if b = 0 then 1 else 0, index := index }

theorem head_writeEntry_unlike (b : UInt8) (index : UInt64) (rest : Bytes) :
    (writeEntry (unlike b index) ++ rest).head? ≠ some b := by
  have hhead : (writeEntry (unlike b index) ++ rest).head? =
      some (UInt8.ofNat (unlike b index).term.toNat) := rfl
  rw [hhead, unlike]
  intro h
  split at h
  · next hb =>
    rw [hb] at h
    cases h
  · next hb => exact hb (Option.some.inj h).symm

/-- Behind a torn record an entry of one record is lost, or another is read in its place. -/
theorem records_torn_unlike {b : UInt8} {torn : Bytes} (htorn : readEntry (b :: torn) = none)
    (index : UInt64) :
    records readEntry (b :: torn ++ writeEntry (unlike b index)) = [] ∨
      ∃ e, e ≠ unlike b index ∧
        records readEntry (b :: torn ++ writeEntry (unlike b index)) = [e] := by
  cases hread : readEntry (b :: torn ++ writeEntry (unlike b index)) with
  | none => exact Or.inl (Records.records_of_torn hread)
  | some r =>
    obtain ⟨e, rest⟩ := r
    refine Or.inr ⟨e, ?_, ?_⟩
    · rintro rfl
      obtain ⟨-, heq⟩ := eq_of_readEntry hread
      apply head_writeEntry_unlike b index rest
      rw [← heq]
      rfl
    · -- what is left is shorter than the record that was appended
      have hshort : rest.length < 21 := by
        have hspans := entryRecords.read_spans htorn hread
        rwa [length_writeEntry] at hspans
      rw [entryRecords.records_of_read hread,
        Records.records_of_torn (readEntry_of_short hshort)]

/-- The entry is not where it would stand in the log. -/
theorem place_ne_place {xs : List Entry} {e n : Entry} (hn : n.index.toNat = xs.length)
    (hpos : 1 ≤ xs.length) (hne : e ≠ n) : place xs e ≠ place xs n := by
  intro h
  have hat : (place xs e)[n.index.toNat]? = some n := by
    rw [h]
    exact getElem?_place_self xs n
  by_cases hi : n.index.toNat = e.index.toNat
  · rw [hi, getElem?_place_self] at hat
    exact hne (Option.some.inj hat)
  · rcases getElem?_place_of_ne xs hi with hold | ⟨-, hfill⟩
    · rw [hold, List.getElem?_eq_none (Nat.le_of_eq hn.symm)] at hat
      cases hat
    · rw [hfill] at hat
      have hzero : n = {} := (Option.some.inj hat).symm
      rw [hzero] at hn
      have hindex : (0 : Nat) = xs.length := hn
      omega

theorem laid_torn_ne {done : List Entry} {b : UInt8} {torn : Bytes} {index : UInt64}
    (htorn : readEntry (b :: torn) = none) (hindex : index.toNat = (laid done).length) :
    laid (done ++ records readEntry (b :: torn ++ writeEntry (unlike b index))) ≠
      laid (done ++ [unlike b index]) := by
  have hpos := one_le_length_laid done
  rcases records_torn_unlike htorn index with hnone | ⟨e, hne, hone⟩
  · rw [hnone, List.append_nil, laid_concat]
    intro h
    have hlen := congrArg List.length h
    rw [length_place, unlike] at hlen
    dsimp only at hlen
    omega
  · rw [hone, laid_concat, laid_concat]
    exact place_ne_place hindex hpos hne

/-- Behind whole records new ones are read back. -/
theorem kept_behind_whole {done : List Entry} {further : List (List Entry)}
    (hfits : ∀ e ∈ done, e.Fits) (hextends : (start (done.flatMap writeEntry)).Extends further)
    (hnew : ∀ e ∈ further.flatten, e.Fits) :
    (start ((start (done.flatMap writeEntry)).appendAll further).logBin).entries_ =
      laid (done ++ further.flatten) := by
  have hall : ∀ e ∈ done ++ further.flatten, e.Fits := List.forall_mem_append.mpr ⟨hfits, hnew⟩
  have hend := entries_start hall (rfl : readEntry [] = none)
  rw [List.append_nil, List.flatMap_append] at hend
  rw [logBin_of_extends hextends]
  exact hend

/-- Behind a torn record some entry that is appended is not read back. -/
theorem lost_behind_torn {done : List Entry} {b : UInt8} {torn : Bytes}
    (hfits : ∀ e ∈ done, e.Fits) (htorn : readEntry (b :: torn) = none)
    (hsize : (laid done).length < 2 ^ 64) :
    ∃ n : Entry, n.Fits ∧ (start (done.flatMap writeEntry ++ b :: torn)).Extends [[n]] ∧
      (start ((start (done.flatMap writeEntry ++ b :: torn)).appendAll [[n]]).logBin).entries_ ≠
        laid (done ++ [n]) := by
  -- its record must not begin as the torn one does
  have hindex : (UInt64.ofNat (laid done).length).toNat = (laid done).length := by
    rw [UInt64.toNat_ofNat', Nat.mod_eq_of_lt hsize]
  have hextends : (start (done.flatMap writeEntry ++ b :: torn)).Extends
      [[unlike b (UInt64.ofNat (laid done).length)]] := by
    have hpos := one_le_length_laid done
    refine ⟨⟨?_, trivial⟩, trivial⟩
    rw [lastIndex, entries_start hfits htorn]
    exact hindex.trans (by omega)
  refine ⟨unlike b (UInt64.ofNat (laid done).length), Nat.two_pow_pos 32, hextends, ?_⟩
  rw [logBin_of_extends hextends, start_entries, start_logBin, List.append_assoc,
    entryRecords.records_append hfits, List.flatten_singleton, List.flatMap_singleton]
  exact laid_torn_ne htorn hindex

/-- A crash leaves a byte prefix of the file of a log that batches were appended to. Whatever goes
on from the log reopened there, a second reopen gives back the entries that were complete and the
new ones behind them, exactly if the prefix ends where a record ends. -/
theorem torn_tail_survived_iff {batches : List (List Entry)} {p : Bytes}
    (hbatches : ∀ e ∈ batches.flatten, e.Fits ∧ e.index ≠ 0)
    (hp : p <+: ((start []).appendAll batches).logBin)
    (hsize : (start p).entries_.length < 2 ^ 64) :
    (∀ further, (start p).Extends further → (∀ e ∈ further.flatten, e.Fits) →
      (start ((start p).appendAll further).logBin).entries_ =
        laid (((start []).appendAll batches).complete p.length ++ further.flatten)) ↔
      p = (((start []).appendAll batches).complete p.length).flatMap writeEntry := by
  have hmirrored := mirrored_appendAll mirrored_start hbatches
  generalize (start []).appendAll batches = w at hp hmirrored ⊢
  obtain ⟨torn, hsplit, hfits, htorn⟩ := hmirrored.split hp
  generalize w.complete p.length = done at hsplit hfits ⊢
  subst hsplit
  constructor
  · intro h
    cases torn with
    | nil => rw [List.append_nil]
    | cons b torn =>
      rw [entries_start hfits htorn] at hsize
      obtain ⟨n, hn, hextends, hne⟩ := lost_behind_torn hfits htorn hsize
      refine absurd (h [[n]] hextends ?_) hne
      intro e he
      rw [List.mem_singleton.mp he]
      exact hn
  · intro h further hextends hnew
    rw [h] at hextends ⊢
    exact kept_behind_whole hfits hextends hnew

/-- One entry with its last byte missing. -/
theorem torn_tail_survived_iff_last_byte :
    ((∀ e ∈ [[(⟨1, 1, 0, [7]⟩ : Entry)]].flatten, e.Fits ∧ e.index ≠ 0) ∧
      (writeEntry ⟨1, 1, 0, [7]⟩).take 21 <+:
        ((start []).appendAll [[⟨1, 1, 0, [7]⟩]]).logBin) ∧
    ¬ ∀ further, (start ((writeEntry ⟨1, 1, 0, [7]⟩).take 21)).Extends further →
      (∀ e ∈ further.flatten, e.Fits) →
      (start ((start ((writeEntry ⟨1, 1, 0, [7]⟩).take 21)).appendAll further).logBin).entries_ =
        laid (((start []).appendAll [[⟨1, 1, 0, [7]⟩]]).complete 21 ++ further.flatten) := by
  have hbatches : ∀ e ∈ [[(⟨1, 1, 0, [7]⟩ : Entry)]].flatten, e.Fits ∧ e.index ≠ 0 := by
    intro e he
    rw [List.mem_singleton.mp he, Entry.Fits]
    decide
  have hp : (writeEntry ⟨1, 1, 0, [7]⟩).take 21 <+:
      ((start []).appendAll [[⟨1, 1, 0, [7]⟩]]).logBin := List.take_prefix 21 _
  refine ⟨⟨hbatches, hp⟩, ?_⟩
  intro h
  have hwhole := (torn_tail_survived_iff hbatches hp (by decide)).mp h
  exact absurd hwhole (by decide)

/-- The header of a record is left by the crash. The entry appended next is read as the payload the
torn one lacks: the second reopen has the torn entry with a payload of neither. -/
theorem torn_tail_swallows_entry :
    (start ((writeEntry ⟨1, 1, 0, [7]⟩).take 21)).lastIndex = 0 ∧
      ((start []).appendAll [[⟨1, 1, 0, [7]⟩]]).complete 21 = [] ∧
      (start ((start ((writeEntry ⟨1, 1, 0, [7]⟩).take 21)).appendAll
        [[⟨2, 1, 0, [9]⟩]]).logBin).entries_ = [{}, ⟨1, 1, 0, [2]⟩] ∧
      [{}, ⟨1, 1, 0, [2]⟩] ≠ laid ([] ++ [⟨2, 1, 0, [9]⟩]) := by
  decide

end WriteAheadLog

end NexusLOB.Storage
