import Mathlib.Data.List.Induction
import NexusLOB.Storage.WriteAheadLog

/-!
# What a log file gives back

A record of the log is read exactly where one was written, so a file of records gives back its
entries and a byte prefix of it those whose records are whole. Laid out at their indices, each entry
stands where no later one has its index.
-/

namespace NexusLOB.Storage

open Codec

/-! ## Records of the log -/

/-- The length of the payload fits its field. -/
def Entry.Fits (e : Entry) : Prop := e.data.length < 2 ^ 32

instance (e : Entry) : Decidable e.Fits := inferInstanceAs (Decidable (_ < _))

theorem readEntry_writeEntry {e : Entry} (h : e.Fits) (rest : Bytes) :
    readEntry (writeEntry e ++ rest) = some (e, rest) := by
  have hlen : (UInt32.ofNat e.data.length).toNat = e.data.length := UInt32.toNat_ofNat_of_lt' h
  simp only [readEntry, writeEntry, List.append_assoc, List.cons_append, bind_apply,
    getU64_putU64, getU8_cons, getU32_putU32, hlen, getBytes_append, Option.bind_some]
  rfl

theorem eq_of_readEntry {e : Entry} {bs rest : Bytes} (h : readEntry bs = some (e, rest)) :
    e.Fits ∧ bs = writeEntry e ++ rest := by
  simp only [readEntry, bind_apply] at h
  obtain ⟨⟨term, bs₁⟩, hterm, h⟩ := Option.bind_eq_some_iff.mp h
  obtain ⟨⟨index, bs₂⟩, hindex, h⟩ := Option.bind_eq_some_iff.mp h
  obtain ⟨⟨type, bs₃⟩, htype, h⟩ := Option.bind_eq_some_iff.mp h
  obtain ⟨⟨len, bs₄⟩, hlen, h⟩ := Option.bind_eq_some_iff.mp h
  obtain ⟨⟨data, bs₅⟩, hdata, h⟩ := Option.bind_eq_some_iff.mp h
  cases h
  dsimp only at hindex htype hlen hdata ⊢
  obtain ⟨hlength, hbs₄⟩ := eq_of_getBytes hdata
  refine ⟨?_, ?_⟩
  · rw [Entry.Fits, hlength]
    exact len.toNat_lt
  · rw [eq_of_getU64 hterm, eq_of_getU64 hindex, eq_of_getU8 htype, eq_of_getU32 hlen, hbs₄]
    simp only [writeEntry, hlength, UInt32.ofNat_toNat, List.append_assoc, List.cons_append]

theorem entryRecords : Records writeEntry readEntry Entry.Fits where
  read_eq_some_iff {bs e rest} := by
    constructor
    · exact eq_of_readEntry
    · rintro ⟨hfits, rfl⟩
      exact readEntry_writeEntry hfits rest
  write_ne_nil e := by simp [writeEntry, putU64, leBytes]

theorem length_writeEntry (e : Entry) : (writeEntry e).length = e.data.length + 21 := by
  simp only [writeEntry, List.length_append, List.length_cons, length_putU64, length_putU32]
  omega

theorem readEntry_of_short {bs : Bytes} (h : bs.length < 21) : readEntry bs = none := by
  cases hread : readEntry bs with
  | none => rfl
  | some r =>
    obtain ⟨-, rfl⟩ := eq_of_readEntry hread
    rw [List.length_append, length_writeEntry] at h
    omega

/-! ## Entries at their indices -/

theorem length_place (xs : List Entry) (e : Entry) :
    (place xs e).length = max xs.length (e.index.toNat + 1) := by
  simp only [place, List.length_set, List.length_append, List.length_replicate]
  omega

theorem getElem?_place_self (xs : List Entry) (e : Entry) :
    (place xs e)[e.index.toNat]? = some e := by
  apply List.getElem?_set_self
  rw [List.length_append, List.length_replicate]
  omega

/-- Elsewhere stands what stood there, or a filler. -/
theorem getElem?_place_of_ne (xs : List Entry) {e : Entry} {i : Nat} (h : i ≠ e.index.toNat) :
    (place xs e)[i]? = xs[i]? ∨ xs[i]? = none ∧ (place xs e)[i]? = some {} := by
  rw [place, List.getElem?_set_ne (Ne.symm h)]
  by_cases hi : i < xs.length
  · exact Or.inl (List.getElem?_append_left hi)
  · rw [List.getElem?_append_right (by omega), List.getElem?_replicate,
      List.getElem?_eq_none (by omega : xs.length ≤ i)]
    split
    · exact Or.inr ⟨rfl, rfl⟩
    · exact Or.inl rfl

theorem laid_concat (es : List Entry) (e : Entry) : laid (es ++ [e]) = place (laid es) e := by
  rw [laid, List.foldl_append]
  rfl

theorem one_le_length_laid (es : List Entry) : 1 ≤ (laid es).length := by
  induction es using List.reverseRecOn with
  | nil => exact le_rfl
  | append_singleton es e ih =>
    rw [laid_concat, length_place]
    omega

/-- An entry stands at its index unless another one with that index comes later. -/
theorem getElem?_foldl_place {xs es : List Entry} {e : Entry}
    (he : e ∈ es ∨ xs[e.index.toNat]? = some e)
    (honly : ∀ e' ∈ es, e'.index = e.index → e' = e) :
    (es.foldl place xs)[e.index.toNat]? = some e := by
  induction es generalizing xs with
  | nil => exact he.resolve_left List.not_mem_nil
  | cons x es ih =>
    obtain ⟨hx, honly⟩ := List.forall_mem_cons.mp honly
    rw [List.foldl_cons]
    apply ih _ honly
    by_cases hi : x.index = e.index
    · right
      rw [hx hi]
      exact getElem?_place_self xs e
    · rcases he with he | hold
      · left
        rcases List.mem_cons.mp he with rfl | he
        · exact absurd rfl hi
        · exact he
      · right
        have hne : e.index.toNat ≠ x.index.toNat := fun h => hi (UInt64.toNat_inj.mp h).symm
        rcases getElem?_place_of_ne xs hne with hsame | ⟨hnone, -⟩
        · rw [hsame, hold]
        · rw [hnone] at hold
          cases hold

/-- What stands in a log that was laid out has its own index or is a filler. -/
theorem mem_or_of_getElem?_laid {es : List Entry} {i : Nat} {e : Entry}
    (h : (laid es)[i]? = some e) : e ∈ es ∧ e.index.toNat = i ∨ e = {} := by
  induction es using List.reverseRecOn with
  | nil => exact Or.inr (List.mem_singleton.mp (List.mem_of_getElem? h))
  | append_singleton es x ih =>
    rw [laid_concat] at h
    by_cases hi : i = x.index.toNat
    · rw [hi, getElem?_place_self] at h
      cases h
      exact Or.inl ⟨List.mem_concat_self, hi.symm⟩
    · rcases getElem?_place_of_ne (laid es) hi with hsame | ⟨-, hfill⟩
      · rw [hsame] at h
        rcases ih h with ⟨hmem, hindex⟩ | hdummy
        · exact Or.inl ⟨List.mem_append_left _ hmem, hindex⟩
        · exact Or.inr hdummy
      · rw [hfill] at h
        exact Or.inr (Option.some.inj h).symm

/-! ## Batches and reopening -/

/-- Entries with consecutive indices. -/
def Numbered : Nat → List Entry → Prop
  | _, [] => True
  | i, e :: es => e.index.toNat = i ∧ Numbered (i + 1) es

theorem Numbered.getElem? {first i : Nat} {es : List Entry} {e : Entry} (h : Numbered first es)
    (he : es[i]? = some e) : e.index.toNat = first + i := by
  induction es generalizing first i with
  | nil => cases he
  | cons x es ih =>
    cases i with
    | zero =>
      cases he
      exact h.1
    | succ i =>
      rw [List.getElem?_cons_succ] at he
      rw [ih h.2 he]
      omega

theorem Numbered.le {first : Nat} {es : List Entry} {e : Entry} (h : Numbered first es)
    (he : e ∈ es) : first ≤ e.index.toNat := by
  obtain ⟨i, hi⟩ := List.mem_iff_getElem?.mp he
  rw [h.getElem? hi]
  exact Nat.le_add_right first i

theorem Numbered.eq_of_index {first : Nat} {es : List Entry} {e e' : Entry} (h : Numbered first es)
    (he : e ∈ es) (he' : e' ∈ es) (hindex : e'.index = e.index) : e' = e := by
  obtain ⟨i, hi⟩ := List.mem_iff_getElem?.mp he
  obtain ⟨j, hj⟩ := List.mem_iff_getElem?.mp he'
  have hij : i = j := by
    have hsum := h.getElem? hi
    rw [← hindex, h.getElem? hj] at hsum
    omega
  rw [hij, hj] at hi
  exact Option.some.inj hi

namespace WriteAheadLog

@[simp] theorem start_logBin (bs : Bytes) : (start bs).logBin = bs := rfl

theorem start_entries (bs : Bytes) : (start bs).entries_ = laid (records readEntry bs) := rfl

theorem entries_start {done : List Entry} {torn : Bytes} (hfits : ∀ e ∈ done, e.Fits)
    (htorn : readEntry torn = none) :
    (start (done.flatMap writeEntry ++ torn)).entries_ = laid done := by
  rw [start_entries, entryRecords.records_append hfits, Records.records_of_torn htorn,
    List.append_nil]

end WriteAheadLog

end NexusLOB.Storage
