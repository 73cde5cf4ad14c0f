import NexusLOB.Storage.WriteAheadLog

/-!
# Crashes while the hard state is replaced

`saveHardState` truncates `hardstate.bin` and writes the new record. The reader takes the bytes that
are there and leaves the rest of the fields at zero, so a crash inside the call shows as the new
record with zeros for what is missing.
-/

namespace NexusLOB.Storage

open Codec

/-! ## Short files -/

theorem readU64_append_zeros (f : Bytes) (n : Nat) :
    readU64 (f ++ List.replicate n 0) = readU64 f := by
  rw [readU64, readU64, List.take_append, List.take_replicate, leValue_append_zeros]

theorem readU64_putU64 (v : UInt64) (rest : Bytes) : readU64 (putU64 v ++ rest) = v := by
  rw [readU64, List.take_left' (length_putU64 v), putU64, leValue_leBytes_of_lt v.toNat_lt,
    UInt64.ofNat_toNat]

theorem putU64_readU64 {f : Bytes} (h : 8 ≤ f.length) : putU64 (readU64 f) = f.take 8 := by
  have hget : getU64 f = some (readU64 f, f.drop 8) := by
    rw [getU64, getBytes, if_pos h]
    rfl
  have hf := eq_of_getU64 hget
  rw [hf, List.take_left' (length_putU64 _), ← hf]

/-- Every field is read from its place, as far as the file goes. -/
theorem readHardState_eq (f : Bytes) :
    readHardState f = ⟨readU64 f, readU64 (f.drop 8), readU64 (f.drop 16)⟩ := by
  have hshort : ∀ {n}, f.length ≤ n → readU64 (f.drop n) = 0 := by
    intro n hn
    rw [List.drop_eq_nil_of_le hn]
    rfl
  rw [readHardState]
  dsimp only
  split
  · rw [hshort (by omega), hshort (by omega)]
  · rw [List.length_drop]
    split
    · rw [hshort (by omega : f.length ≤ 16)]
    · rw [List.drop_drop]

theorem readHardState_append_zeros (f : Bytes) (n : Nat) :
    readHardState (f ++ List.replicate n 0) = readHardState f := by
  simp only [readHardState_eq, List.drop_append, List.drop_replicate, readU64_append_zeros]

theorem readHardState_writeHardState (hs : HardState) : readHardState (writeHardState hs) = hs := by
  have hvote : (writeHardState hs).drop 8 = putU64 hs.vote ++ putU64 hs.commit := by
    rw [writeHardState, List.append_assoc, List.drop_left' (length_putU64 _)]
  have hcommit : (writeHardState hs).drop 16 = putU64 hs.commit ++ [] := by
    rw [← List.drop_drop (i := 8) (j := 8), hvote, List.drop_left' (length_putU64 _),
      List.append_nil]
  rw [readHardState_eq, hvote, hcommit, writeHardState, List.append_assoc, readU64_putU64,
    readU64_putU64, readU64_putU64]

theorem writeHardState_readHardState {f : Bytes} (h : f.length = 24) :
    writeHardState (readHardState f) = f := by
  have hvote : 8 ≤ (f.drop 8).length := by
    rw [List.length_drop]
    omega
  have hcommit : (f.drop 16).length = 8 := by
    rw [List.length_drop]
    omega
  rw [readHardState_eq, writeHardState, putU64_readU64 (by omega), putU64_readU64 hvote,
    putU64_readU64 (Nat.le_of_eq hcommit.symm), List.take_of_length_le (Nat.le_of_eq hcommit),
    ← List.drop_drop (i := 8) (j := 8), List.append_assoc, List.take_append_drop,
    List.take_append_drop]

/-- A short file is read as the record that has zeros for what is missing. -/
theorem readHardState_eq_iff {f : Bytes} (h : f.length ≤ 24) (hs : HardState) :
    readHardState f = hs ↔ f ++ List.replicate (24 - f.length) 0 = writeHardState hs := by
  have hlen : (f ++ List.replicate (24 - f.length) (0 : UInt8)).length = 24 := by
    rw [List.length_append, List.length_replicate]
    omega
  constructor
  · rintro rfl
    rw [← readHardState_append_zeros f (24 - f.length), writeHardState_readHardState hlen]
  · intro hf
    rw [← readHardState_append_zeros f (24 - f.length), hf, readHardState_writeHardState]

/-- A crash inside `saveHardState` finds the old file, or the beginning of the new record. What is
read then is the previous or the next hard state exactly if the file was not truncated yet, or what
has been written is one of the two records but for zeros at its end. -/
theorem hardState_replaced_iff {prev next : HardState} {old file : Option Bytes}
    (hold : old = some (writeHardState prev) ∨ old = none ∧ prev = {})
    (hfile : file = old ∨ ∃ p, p <+: writeHardState next ∧ file = some p) :
    (loadHardState file = prev ∨ loadHardState file = next) ↔
      file = old ∨ ∃ p, file = some p ∧
        (p ++ List.replicate (24 - p.length) 0 = writeHardState prev ∨
          p ++ List.replicate (24 - p.length) 0 = writeHardState next) := by
  by_cases hsame : file = old
  · refine iff_of_true (Or.inl ?_) (Or.inl hsame)
    rw [hsame]
    rcases hold with rfl | ⟨rfl, rfl⟩
    · exact readHardState_writeHardState prev
    · rfl
  · obtain ⟨p, hp, rfl⟩ := hfile.resolve_left hsame
    have hlen : p.length ≤ 24 := hp.length_le
    rw [or_iff_right hsame, loadHardState, readHardState_eq_iff hlen, readHardState_eq_iff hlen]
    constructor
    · intro h
      exact ⟨p, rfl, h⟩
    · rintro ⟨q, hq, h⟩
      cases hq
      exact h

/-- Only the commit index grows, and the crash comes after the term was written. -/
theorem hardState_replaced_iff_term_only :
    (some ((writeHardState ⟨5, 2, 4⟩).take 8) = some (writeHardState ⟨5, 2, 3⟩) ∨
      ∃ p, p <+: writeHardState ⟨5, 2, 4⟩ ∧ some ((writeHardState ⟨5, 2, 4⟩).take 8) = some p) ∧
    ¬ (loadHardState (some ((writeHardState ⟨5, 2, 4⟩).take 8)) = ⟨5, 2, 3⟩ ∨
      loadHardState (some ((writeHardState ⟨5, 2, 4⟩).take 8)) = ⟨5, 2, 4⟩) := by
  have hfile : some ((writeHardState ⟨5, 2, 4⟩).take 8) = some (writeHardState ⟨5, 2, 3⟩) ∨
      ∃ p, p <+: writeHardState ⟨5, 2, 4⟩ ∧ some ((writeHardState ⟨5, 2, 4⟩).take 8) = some p :=
    Or.inr ⟨_, List.take_prefix 8 _, rfl⟩
  refine ⟨hfile, ?_⟩
  intro h
  rcases (hardState_replaced_iff (Or.inl rfl) hfile).mp h with hsame | ⟨p, hp, hzeros⟩
  · exact absurd hsame (by decide)
  · cases hp
    exact absurd hzeros (by decide)

/-- The vote of term 5 is forgotten within the term. -/
theorem hardState_crash_forgets_vote :
    loadHardState (some (writeHardState ⟨5, 2, 3⟩)) = ⟨5, 2, 3⟩ ∧
      loadHardState (some ((writeHardState ⟨5, 2, 4⟩).take 8)) = ⟨5, 0, 0⟩ := by
  decide

end NexusLOB.Storage
