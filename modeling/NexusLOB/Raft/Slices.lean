import Mathlib.Algebra.Order.BigOperators.Group.List
import Mathlib.Algebra.Order.Ring.Nat
import NexusLOB.Raft.LogicalLog
import NexusLOB.Raft.LogView

/-!
# Slices of a log

`slice` reads `[lo, hi)` from the storage below the unstable offset and from the window above it.
When that offset sits where the window starts, or above everything stored while the window is
empty, a slice is the part of the logical log it asks for, cut to the size limit. The offset is 0
after a start over a storage that holds entries, and every read then finds nothing.
-/

namespace NexusLOB.Raft

open Consensus

/-! ## Sizes -/

/-- The bytes an entry counts for. -/
def entrySize (e : Entry) : Nat := e.data.length + sizeofEntry

def totalSize (ents : List Entry) : Nat := (ents.map entrySize).sum

@[simp] theorem totalSize_nil : totalSize [] = 0 := rfl

@[simp] theorem totalSize_cons (e : Entry) (ents : List Entry) :
    totalSize (e :: ents) = entrySize e + totalSize ents := rfl

@[simp] theorem totalSize_append (a b : List Entry) :
    totalSize (a ++ b) = totalSize a + totalSize b := by
  simp [totalSize]

theorem totalSize_le_of_sublist {a b : List Entry} (h : List.Sublist a b) :
    totalSize a ≤ totalSize b :=
  (h.map entrySize).sum_le_sum fun _ _ => Nat.zero_le _

theorem takeWithin_size {maxSize size : Nat} {ents : List Entry}
    (hfit : size + totalSize ents < 2 ^ 64) (hne : RaftLog.takeWithin maxSize size ents ≠ []) :
    size + totalSize (RaftLog.takeWithin maxSize size ents) ≤ maxSize := by
  induction ents generalizing size with
  | nil => exact absurd rfl hne
  | cons e rest ih =>
    rw [totalSize_cons] at hfit
    have hsize : (size + (e.data.length + sizeofEntry)) % 2 ^ 64 = size + entrySize e :=
      Nat.mod_eq_of_lt (show size + entrySize e < 2 ^ 64 by omega)
    rw [RaftLog.takeWithin, hsize] at hne ⊢
    split_ifs at hne ⊢ with hbig
    · exact absurd rfl hne
    · rw [totalSize_cons]
      by_cases hrest : RaftLog.takeWithin maxSize (size + entrySize e) rest = []
      · rw [hrest, totalSize_nil]
        omega
      · have := ih (by omega) hrest
        omega

theorem limitSize_size (maxSize : Nat) {ents : List Entry} (hfit : totalSize ents < 2 ^ 64) :
    totalSize (RaftLog.limitSize maxSize ents) ≤ maxSize ∨
      (RaftLog.limitSize maxSize ents).length ≤ 1 := by
  cases ents with
  | nil => exact Or.inl (Nat.zero_le _)
  | cons e rest =>
    rw [RaftLog.limitSize]
    split_ifs with hlim
    · rw [totalSize_cons] at hfit
      have hsize : (e.data.length + sizeofEntry) % 2 ^ 64 = entrySize e :=
        Nat.mod_eq_of_lt (show entrySize e < 2 ^ 64 by omega)
      rw [hsize]
      by_cases hrest : RaftLog.takeWithin maxSize (entrySize e) rest = []
      · right
        rw [hrest, List.length_singleton]
      · left
        rw [totalSize_cons]
        exact takeWithin_size hfit hrest
    · left
      rw [not_not] at hlim
      rw [hlim, noLimit]
      omega

theorem limitSize_noLimit (ents : List Entry) : RaftLog.limitSize noLimit ents = ents := by
  cases ents with
  | nil => rfl
  | cons e rest => rw [RaftLog.limitSize, if_neg (not_not_intro rfl)]

theorem limitSize_ne_nil (maxSize : Nat) {ents : List Entry} (h : ents ≠ []) :
    RaftLog.limitSize maxSize ents ≠ [] := by
  cases ents with
  | nil => exact absurd rfl h
  | cons e rest =>
    rw [RaftLog.limitSize]
    split_ifs
    · exact List.cons_ne_nil _ _
    · exact List.cons_ne_nil _ _

namespace WriteAheadLog

/-- A limit of 0, or of every 64-bit size, stops at nothing. -/
theorem collect_unlimited {maxSize : Nat} (h : maxSize = 0 ∨ maxSize = noLimit)
    (ents : List Entry) (size : Nat) (acc : List Entry) :
    collect maxSize ents size acc = acc ++ ents := by
  induction ents generalizing size acc with
  | nil => rw [collect, List.append_nil]
  | cons e rest ih =>
    have hmod := Nat.mod_lt (size + sizeofEntry + e.data.length) (show 0 < 2 ^ 64 by decide)
    have hgo : ¬ (maxSize ≠ 0 ∧ (size + sizeofEntry + e.data.length) % 2 ^ 64 > maxSize ∧
        acc ≠ []) := by
      rcases h with rfl | rfl
      · exact fun hstop => hstop.1 rfl
      · rw [noLimit]
        omega
    rw [collect, if_neg hgo, ih, List.append_assoc, List.singleton_append]

theorem collect_ne_nil {maxSize : Nat} {ents : List Entry} {size : Nat} {acc : List Entry}
    (h : acc ≠ [] ∨ ents ≠ []) : collect maxSize ents size acc ≠ [] := by
  induction ents generalizing size acc with
  | nil =>
    rw [collect]
    exact h.resolve_right (not_not_intro rfl)
  | cons e rest ih =>
    rw [collect]
    split_ifs with hstop
    · exact hstop.2.2
    · exact ih (Or.inl (by simp))

/-- What `collect` returns when it stops early is within the limit. -/
theorem collect_size {maxSize : Nat} {ents : List Entry} {size : Nat} {acc : List Entry}
    (hsize : size = totalSize acc) (hfit : totalSize acc + totalSize ents < 2 ^ 64)
    (hacc : totalSize acc ≤ maxSize ∨ acc.length ≤ 1)
    (hshort : (collect maxSize ents size acc).length < acc.length + ents.length) :
    totalSize (collect maxSize ents size acc) ≤ maxSize ∨
      (collect maxSize ents size acc).length ≤ 1 := by
  by_cases hzero : maxSize = 0
  · rw [collect_unlimited (Or.inl hzero), List.length_append] at hshort
    omega
  induction ents generalizing size acc with
  | nil =>
    rw [collect] at hshort
    exact absurd hshort (Nat.lt_irrefl _)
  | cons e rest ih =>
    rw [totalSize_cons] at hfit
    have hmod : (size + sizeofEntry + e.data.length) % 2 ^ 64 = totalSize (acc ++ [e]) := by
      rw [totalSize_append, totalSize_cons, totalSize_nil, hsize, entrySize]
      rw [entrySize] at hfit
      rw [Nat.mod_eq_of_lt (by omega)]
      omega
    rw [collect, hmod] at hshort ⊢
    split_ifs at hshort ⊢ with hstop
    · exact hacc
    · refine ih rfl ?_ ?_ ?_
      · simp only [totalSize_append, totalSize_cons, totalSize_nil]
        omega
      · by_cases hnil : acc = []
        · right
          rw [hnil, List.nil_append, List.length_singleton]
        · left
          by_contra hbig
          exact hstop ⟨hzero, by omega, hnil⟩
      · rw [List.length_append, List.length_singleton]
        rw [List.length_cons] at hshort
        omega

end WriteAheadLog

namespace RaftLog

variable {l : RaftLog} {lo hi maxSize : Nat}

/-- `ents` is what a slice `[lo, hi)` of the logical log should be. -/
structure Reads (l : RaftLog) (lo hi maxSize : Nat) (ents : List Entry) : Prop where
  within : ents.length ≤ hi - lo
  entry : ∀ j, j < ents.length → ents[j]? = l.entryAt (lo + j)
  nonempty : lo < hi → ents ≠ []
  whole : maxSize = noLimit → ents.length = hi - lo
  size : totalSize ents ≤ maxSize ∨ ents.length ≤ 1

/-- The offset sits right above what the storage answers for. -/
def Sliceable (l : RaftLog) : Prop :=
  l.lastIndex < l.firstIndex ∨
    if l.unstable_.entries_ = [] then l.lastIndex < l.unstable_.offset_
    else l.unstable_.offset_ ≤ max l.firstIndex (l.storage_.lastIndex + 1)

instance (l : RaftLog) : Decidable l.Sliceable := inferInstanceAs (Decidable (_ ∨ _))

/-- The logs a storage, whatever it holds, comes to by construction, appends of either kind, writes
to the storage and releases. -/
inductive Built : RaftLog → Prop
  | new (w : WriteAheadLog) : Built (RaftLog.new w)
  | append {l : RaftLog} (h : Built l) (ents : List Entry) : Built (l.append ents).2
  | maybeAppend {l : RaftLog} (h : Built l) (prev pt lc : Nat) (ents : List Entry) :
      Built (l.maybeAppend prev pt lc ents).2
  | persist {l : RaftLog} (h : Built l) (ents : List Entry) :
      Built { l with storage_ := l.storage_.appendNoSync ents }
  | stableTo {l : RaftLog} (h : Built l) (i t : Nat) : Built (l.stableTo i t)

/-- No call of these brings a snapshot in. -/
theorem Built.snapshot_eq_none (h : Built l) : l.unstable_.snapshot_ = none := by
  induction h with
  | new w =>
    unfold RaftLog.new
    dsimp only
    split_ifs <;> rfl
  | @append l _ ents ih =>
    cases ents with
    | nil => exact ih
    | cons e rest =>
      rw [RaftLog.append]
      dsimp only
      split_ifs
      · exact ih
      · exact (LogUnstable.append_snapshot _ _).trans ih
  | maybeAppend _ prev pt lc ents ih =>
    unfold RaftLog.maybeAppend
    dsimp only
    split_ifs <;>
      first
      | exact ih
      | exact (LogUnstable.truncateFrom_snapshot _ _).trans ih
      | exact (LogUnstable.append_snapshot _ _).trans ih
  | persist _ ents ih => exact ih
  | @stableTo l _ i t ih =>
    rw [RaftLog.stableTo, LogUnstable.stableTo]
    simp only [ih]
    split_ifs
    · exact ih
    · rfl

/-! ## The two parts of a slice -/

/-- The storage's part of `[lo, hi)`, without a size limit. -/
def rawStored (l : RaftLog) (lo hi : Nat) : List Entry :=
  (l.storage_.entries_.drop lo).take (min hi l.unstable_.offset_ - lo)

/-- The window's part of `[lo, hi)`. -/
def rawUnstable (l : RaftLog) (lo hi : Nat) : List Entry :=
  if hi > l.unstable_.offset_ then l.unstable_.slice (max lo l.unstable_.offset_) hi else []

theorem totalSize_raw_le (l : RaftLog) (lo hi : Nat) :
    totalSize (l.rawStored lo hi ++ l.rawUnstable lo hi) ≤
      totalSize l.storage_.entries_ + totalSize l.unstable_.entries_ := by
  have hstored : totalSize (l.rawStored lo hi) ≤ totalSize l.storage_.entries_ :=
    totalSize_le_of_sublist ((List.take_sublist _ _).trans (List.drop_sublist _ _))
  have hwin : totalSize (l.rawUnstable lo hi) ≤ totalSize l.unstable_.entries_ := by
    rw [rawUnstable, LogUnstable.slice]
    split_ifs
    · exact Nat.zero_le _
    · exact totalSize_le_of_sublist ((List.take_sublist _ _).trans (List.drop_sublist _ _))
    · exact Nat.zero_le _
  rw [totalSize_append]
  omega

section Parts

variable (hok : l.Sliceable) (hlo : l.firstIndex ≤ lo) (hlt : lo < hi)
  (hhi : hi ≤ l.lastIndex + 1)
include hok hlo hlt hhi

/-- Above the offset there is a window, and it reaches up to `hi`. -/
theorem window_in_range (ho : l.unstable_.offset_ < hi) :
    l.unstable_.entries_ ≠ [] ∧ hi ≤ l.unstable_.offset_ + l.unstable_.entries_.length := by
  rcases hok with hempty | hok
  · omega
  · split_ifs at hok with hw
    · omega
    · have hlast := lastIndex_of_window hw
      have hpos := List.length_pos_iff.mpr hw
      exact ⟨hw, by omega⟩

theorem rawUnstable_eq (ho : l.unstable_.offset_ < hi) :
    l.rawUnstable lo hi =
      (l.unstable_.entries_.drop (max lo l.unstable_.offset_ - l.unstable_.offset_)).take
        (hi - max lo l.unstable_.offset_) := by
  have hwin := (window_in_range hok hlo hlt hhi ho).2
  rw [rawUnstable, if_pos ho, LogUnstable.slice, if_neg (by omega)]

theorem length_rawUnstable :
    (l.rawUnstable lo hi).length = hi - max lo l.unstable_.offset_ := by
  by_cases ho : l.unstable_.offset_ < hi
  · have hwin := (window_in_range hok hlo hlt hhi ho).2
    rw [rawUnstable_eq hok hlo hlt hhi ho, List.length_take, List.length_drop]
    omega
  · rw [rawUnstable, if_neg ho, List.length_nil]
    omega

variable (hs : l.unstable_.snapshot_ = none)
include hs

theorem stored_in_range (ho : lo < l.unstable_.offset_) :
    l.storage_.firstIndex ≤ lo ∧ min hi l.unstable_.offset_ ≤ l.storage_.lastIndex + 1 := by
  have hfirst := firstIndex_of_store hs
  refine ⟨by omega, ?_⟩
  rcases hok with hempty | hok
  · omega
  · split_ifs at hok with hw
    · have hlast := lastIndex_of_store hw hs
      omega
    · omega

theorem length_rawStored :
    (l.rawStored lo hi).length = min hi l.unstable_.offset_ - lo := by
  rw [rawStored, List.length_take, List.length_drop]
  by_cases ho : lo < l.unstable_.offset_
  · have hrange := stored_in_range hok hlo hlt hhi hs ho
    rw [WriteAheadLog.lastIndex, WriteAheadLog.firstIndex] at hrange
    omega
  · omega

theorem length_raw : (l.rawStored lo hi ++ l.rawUnstable lo hi).length = hi - lo := by
  rw [List.length_append, length_rawStored hok hlo hlt hhi hs,
    length_rawUnstable hok hlo hlt hhi]
  omega

/-- Together the two parts are the logical log. -/
theorem getElem?_raw {j : Nat} (hj : j < hi - lo) :
    (l.rawStored lo hi ++ l.rawUnstable lo hi)[j]? = l.entryAt (lo + j) := by
  have hlen := length_rawStored hok hlo hlt hhi hs
  by_cases ho : lo + j < l.unstable_.offset_
  · have hrange := stored_in_range hok hlo hlt hhi hs (by omega)
    rw [List.getElem?_append_left (by omega),
      entryAt_below (by omega) (by omega) (Or.inr ho), WriteAheadLog.entryAt_of_le (by omega),
      rawStored, List.getElem?_take_of_lt (by omega), List.getElem?_drop]
  · have hwin := window_in_range hok hlo hlt hhi (by omega)
    rw [List.getElem?_append_right (by omega), entryAt_window (by omega) hwin.1 (by omega),
      rawUnstable_eq hok hlo hlt hhi (by omega), List.getElem?_take_of_lt (by omega),
      List.getElem?_drop, hlen]
    congr 1
    omega

/-- A prefix of the two parts that obeys the size rules is the slice asked for. -/
theorem Reads.of_isPrefix {ents : List Entry}
    (hp : ents <+: l.rawStored lo hi ++ l.rawUnstable lo hi) (hne : ents ≠ [])
    (hwhole : maxSize = noLimit → ents = l.rawStored lo hi ++ l.rawUnstable lo hi)
    (hsize : totalSize ents ≤ maxSize ∨ ents.length ≤ 1) : l.Reads lo hi maxSize ents := by
  have hlen := length_raw hok hlo hlt hhi hs
  have hle := hp.length_le
  refine ⟨by omega, fun j hj => ?_, fun _ => hne, fun hmax => ?_, hsize⟩
  · rw [getElem?_eq_of_isPrefix hp hj, getElem?_raw hok hlo hlt hhi hs (by omega)]
  · rw [hwhole hmax, hlen]

/-- The storage stops early, or both parts are joined and cut. -/
theorem slice_cases (maxSize : Nat) : ∃ ents, l.slice lo hi maxSize = .ok ents ∧
    (ents = limitSize maxSize (l.rawStored lo hi ++ l.rawUnstable lo hi) ∨
      ents = WriteAheadLog.collect maxSize (l.rawStored lo hi) 0 [] ∧
        ents.length < (l.rawStored lo hi).length) := by
  have hlen := length_rawStored hok hlo hlt hhi hs
  rw [slice]
  dsimp only
  rw [if_neg (by omega), if_neg (by omega), if_neg (by omega)]
  by_cases ho : lo < l.unstable_.offset_
  · have hrange := stored_in_range hok hlo hlt hhi hs ho
    have hentries : l.storage_.entries lo (min hi l.unstable_.offset_) maxSize =
        .ok (WriteAheadLog.collect maxSize (l.rawStored lo hi) 0 []) := by
      rw [WriteAheadLog.entries, if_neg (by omega), if_neg (by omega)]
      rfl
    obtain ⟨p, hp, hcollect⟩ := collect_isPrefix maxSize (l.rawStored lo hi) 0 []
    rw [List.nil_append] at hcollect
    rw [if_pos ho, hentries]
    dsimp only
    rw [hcollect]
    by_cases hshort : p.length < min hi l.unstable_.offset_ - lo
    · rw [if_pos ⟨ho, hshort⟩]
      exact ⟨p, rfl, Or.inr ⟨rfl, by omega⟩⟩
    · rw [if_neg (fun h => hshort h.2)]
      obtain rfl : p = l.rawStored lo hi := hp.eq_of_length_le (by omega)
      exact ⟨_, rfl, Or.inl rfl⟩
  · rw [if_neg ho]
    dsimp only
    rw [if_neg (fun h => ho h.1)]
    have hnil : l.rawStored lo hi = [] := List.length_eq_zero_iff.mp (by omega)
    rw [hnil]
    exact ⟨_, rfl, Or.inl rfl⟩

/-- Whatever the limit, a slice is a part of what it was asked for, with at least one entry. -/
theorem slice_isPrefix (maxSize : Nat) : ∃ ents, l.slice lo hi maxSize = .ok ents ∧
    ents <+: l.rawStored lo hi ++ l.rawUnstable lo hi ∧ ents ≠ [] := by
  have hraw := length_raw hok hlo hlt hhi hs
  obtain ⟨ents, hslice, rfl | ⟨rfl, hshort⟩⟩ := slice_cases hok hlo hlt hhi hs maxSize
  · exact ⟨_, hslice, limitSize_isPrefix _ _,
      limitSize_ne_nil _ (List.ne_nil_of_length_pos (by omega))⟩
  · obtain ⟨p, hp, hcollect⟩ := collect_isPrefix maxSize (l.rawStored lo hi) 0 []
    rw [List.nil_append] at hcollect
    refine ⟨_, hslice, ?_, WriteAheadLog.collect_ne_nil
      (Or.inr (List.ne_nil_of_length_pos (by omega)))⟩
    rw [hcollect]
    exact hp.trans (List.prefix_append _ _)

/-- Where the offset is right, a slice is what it should be. -/
theorem slice_reads
    (hfit : totalSize l.storage_.entries_ + totalSize l.unstable_.entries_ < 2 ^ 64) :
    ∃ ents, l.slice lo hi maxSize = .ok ents ∧ l.Reads lo hi maxSize ents := by
  have htotal := l.totalSize_raw_le lo hi
  obtain ⟨ents, hslice, hp, hne⟩ := slice_isPrefix hok hlo hlt hhi hs maxSize
  obtain ⟨ents', hslice', hcases⟩ := slice_cases hok hlo hlt hhi hs maxSize
  obtain rfl : ents = ents' := Except.ok.inj (hslice.symm.trans hslice')
  refine ⟨ents, hslice, Reads.of_isPrefix hok hlo hlt hhi hs hp hne ?_ ?_⟩
  · intro hmax
    rcases hcases with heq | ⟨heq, hshort⟩
    · rw [heq, hmax, limitSize_noLimit]
    · rw [WriteAheadLog.collect_unlimited (Or.inr hmax), List.nil_append] at heq
      rw [heq] at hshort
      exact absurd hshort (Nat.lt_irrefl _)
  · rcases hcases with heq | ⟨heq, hshort⟩
    · rw [heq]
      exact limitSize_size _ (by omega)
    · rw [heq] at hshort ⊢
      have hstored : totalSize (l.rawStored lo hi) < 2 ^ 64 := by
        rw [totalSize_append] at htotal
        omega
      refine WriteAheadLog.collect_size rfl ?_ (Or.inr (Nat.zero_le _)) ?_
      · rw [totalSize_nil]
        omega
      · rw [List.length_nil]
        omega

end Parts

/-- Read by index, a well-formed log is its logical log. -/
theorem WF.entryAt_eq (h : l.WF) {i : Nat} (h1 : 1 ≤ i) (h2 : i ≤ l.logical.length) :
    l.entryAt i = l.logical[i - 1]? := by
  have hfirst : l.firstIndex ≤ i := by
    rw [h.firstIndex_eq]
    exact h1
  have hlast : i ≤ l.lastIndex := by
    rw [h.lastIndex_eq]
    exact h2
  have hstore : l.storage_.entryAt i = l.storage_.stored[i - 1]? := by
    rw [WriteAheadLog.entryAt_of_le (by rw [WriteAheadLog.firstIndex, h.snapIndex]; exact h1),
      WriteAheadLog.stored, List.getElem?_drop]
    congr 1
    omega
  by_cases hne : l.unstable_.entries_ = []
  · rw [entryAt_below hfirst hlast (Or.inl hne), hstore, logical_of_nil hne]
  · have hpos := h.offset_pos hne
    have hw := h.window
    have htake : (l.storage_.stored.take (l.unstable_.offset_ - 1)).length =
        l.unstable_.offset_ - 1 := by
      rw [List.length_take]
      omega
    rw [logical_of_ne_nil hne]
    rcases Nat.lt_or_ge i l.unstable_.offset_ with hlt | hge
    · rw [entryAt_below hfirst hlast (Or.inr hlt), hstore,
        List.getElem?_append_left (by omega), List.getElem?_take_of_lt (by omega)]
    · rw [entryAt_window hfirst hne hge, List.getElem?_append_right (by omega), htake]
      congr 1
      omega

/-- A slice up to the end of a well-formed log. -/
theorem WF.slice_rest (h : l.WF) (hok : l.Sliceable) (h1 : 1 ≤ lo)
    (h2 : lo ≤ l.logical.length + 1) (maxSize : Nat) :
    ∃ ents, l.slice lo (l.lastIndex + 1) maxSize = .ok ents ∧
      ents <+: l.logical.drop (lo - 1) ∧ (lo ≤ l.logical.length → ents ≠ []) := by
  have hlast := h.lastIndex_eq
  rcases Nat.lt_or_ge l.logical.length lo with hgt | hle
  · refine ⟨[], ?_, List.nil_prefix, fun hle => by omega⟩
    rw [slice]
    exact if_pos (by omega)
  · have hlo : l.firstIndex ≤ lo := by
      rw [h.firstIndex_eq]
      exact h1
    obtain ⟨ents, hslice, -, hne⟩ :=
      RaftLog.slice_isPrefix hok hlo (show lo < l.lastIndex + 1 by omega) le_rfl h.snapshot maxSize
    exact ⟨ents, hslice, (h.slice_isPrefix hslice).trans (List.take_prefix _ _), fun _ => hne⟩

/-- With the offset elsewhere some slice finds nothing, or fails. -/
theorem sliceable_of_reads (hs : l.unstable_.snapshot_ = none)
    (h : ∀ lo hi, l.firstIndex ≤ lo → lo ≤ hi → hi ≤ l.lastIndex + 1 →
      ∃ ents, l.slice lo hi noLimit = .ok ents ∧ l.Reads lo hi noLimit ents) : l.Sliceable := by
  by_contra hbad
  rw [Sliceable, not_or] at hbad
  obtain ⟨hrange, hbad⟩ := hbad
  split_ifs at hbad with hw
  · -- the last entry is looked for in the empty window
    obtain ⟨ents, hslice, hreads⟩ :=
      h l.lastIndex (l.lastIndex + 1) (by omega) (by omega) (by omega)
    have hnil : l.slice l.lastIndex (l.lastIndex + 1) noLimit = .ok [] := by
      rw [slice]
      dsimp only
      rw [if_neg (by omega), if_neg (by omega), if_neg (by omega), if_neg (by omega)]
      dsimp only
      rw [if_neg (by omega), if_pos (by omega), LogUnstable.slice, hw, List.length_nil,
        if_pos (by omega)]
      rfl
    obtain rfl := Except.ok.inj (hslice.symm.trans hnil)
    exact hreads.nonempty (by omega) rfl
  · -- the entry below the window is looked for beyond the end of the storage
    have hlast := lastIndex_of_window hw
    have hpos := List.length_pos_iff.mpr hw
    obtain ⟨ents, hslice, -⟩ :=
      h (l.unstable_.offset_ - 1) l.unstable_.offset_ (by omega) (by omega) (by omega)
    have hfirst := firstIndex_of_store hs
    have herr : l.slice (l.unstable_.offset_ - 1) l.unstable_.offset_ noLimit =
        .error "entries: hi above lastIndex+1" := by
      rw [slice]
      dsimp only
      rw [if_neg (by omega), if_neg (by omega), if_neg (by omega), if_pos (by omega),
        Nat.min_self, WriteAheadLog.entries, if_neg (by omega), if_pos (by omega)]
    rw [herr] at hslice
    cases hslice

/-- Every slice of a log that was built over a storage is the part of the logical log it asks for
exactly when the unstable offset sits right above what the storage answers for. -/
theorem slice_reads_iff (h : Built l)
    (hfit : totalSize l.storage_.entries_ + totalSize l.unstable_.entries_ < 2 ^ 64) :
    (∀ lo hi maxSize, l.firstIndex ≤ lo → lo ≤ hi → hi ≤ l.lastIndex + 1 →
      ∃ ents, l.slice lo hi maxSize = .ok ents ∧ l.Reads lo hi maxSize ents) ↔ l.Sliceable := by
  have hs := h.snapshot_eq_none
  constructor
  · intro hall
    exact sliceable_of_reads hs fun lo hi hlo hle hhi => hall lo hi noLimit hlo hle hhi
  · intro hok lo hi maxSize hlo hle hhi
    rcases Nat.eq_or_lt_of_le hle with rfl | hlt
    · refine ⟨[], by rw [slice, if_pos (Nat.le_refl _)], ?_⟩
      exact ⟨Nat.zero_le _, fun j hj => absurd hj (Nat.not_lt_zero j),
        fun hlt => absurd hlt (Nat.lt_irrefl _), fun _ => (Nat.sub_self _).symm,
        Or.inl (Nat.zero_le _)⟩
    · exact slice_reads hok hlo hlt hhi hs hfit

def firstTwo : List Entry := [⟨1, 1, .normal, [1]⟩, ⟨1, 2, .normal, [2]⟩]

/-- Two entries in the storage, and two more in the window above them. -/
def splitLog : RaftLog :=
  let l := ((RaftLog.new .fresh).append firstTwo).2
  ((RaftLog.stableTo { l with storage_ := l.storage_.appendNoSync firstTwo } 2 1).append
    [⟨1, 3, .normal, [3]⟩, ⟨1, 4, .normal, [4]⟩]).2

/-- Of the four entries the limit allows three, the last of them from the window. -/
theorem splitLog_reads : splitLog.slice 1 5 150 = .ok (firstTwo ++ [⟨1, 3, .normal, [3]⟩]) ∧
    splitLog.Reads 1 5 150 (firstTwo ++ [⟨1, 3, .normal, [3]⟩]) := by
  have hbuilt : Built splitLog := .append (.stableTo (.persist (.append (.new _) _) _) _ _) _
  have hslice : splitLog.slice 1 5 150 = .ok (firstTwo ++ [⟨1, 3, .normal, [3]⟩]) := by decide
  obtain ⟨ents, hents, hreads⟩ := (slice_reads_iff hbuilt (by decide)).mpr (by decide) 1 5 150
    (by decide) (by decide) (by decide)
  obtain rfl := Except.ok.inj (hslice.symm.trans hents)
  exact ⟨hslice, hreads⟩

/-- A storage that already holds an entry when the log is constructed over it. -/
def oneStored : WriteAheadLog := { entries_ := [{}, { term := 1, index := 1 }] }

/-- The entry is in the log, but a slice over it is empty. -/
theorem oneStored_slice :
    (RaftLog.new oneStored).firstIndex = 1 ∧ (RaftLog.new oneStored).lastIndex = 1 ∧
      (RaftLog.new oneStored).entryAt 1 = some { term := 1, index := 1 } ∧
      (RaftLog.new oneStored).slice 1 2 noLimit = .ok [] := by
  refine ⟨by decide, by decide, by decide, rfl⟩

end RaftLog

end NexusLOB.Raft
