import NexusLOB.Storage.WriteAheadLog

/-!
# The snapshot file

`SnapshotFile::save` writes a temporary file and renames it, `load` reads the file under its proper
name. The calls of `save` that reach the disk are a list of operations. A crash leaves the state
between two of them, or a state within one: of a write any number of bytes, of a rename nothing or
all. The temporary file is never read, so only the rename can change what is loaded.
-/

namespace NexusLOB.Storage

open Codec

/-- `raft::Snapshot`. -/
structure Snapshot where
  term : UInt64 := 0
  index : UInt64 := 0
  data : Bytes := []
  deriving DecidableEq, Repr

/-- The bytes of the file: term, index, length and data. -/
def Snapshot.file (s : Snapshot) : Bytes :=
  putU64 s.term ++ (putU64 s.index ++ (putU32 (UInt32.ofNat s.data.length) ++ s.data))

def readSnapshot : StateT Bytes Option Snapshot := do
  let term ← getU64
  let index ← getU64
  let len ← getU32
  let data ← getBytes len.toNat
  return { term := term, index := index, data := data }

/-- The two files of the directory, each with its bytes if it is there. -/
structure Disk where
  /-- `snapshot.bin`. -/
  path_ : Option Bytes := none
  /-- `snapshot.bin.tmp`. -/
  tmp : Option Bytes := none
  deriving DecidableEq, Repr

/-! ## Saving and loading -/

/-- What `save` does to the disk, one call after the other. -/
inductive FileOp where
  /-- Open the temporary file with `trunc`. -/
  | openTmp
  | write (bs : Bytes)
  | renameFile
  /-- Remove the temporary file after a rename that failed. -/
  | removeTmp
  deriving DecidableEq, Repr

def FileOp.exec (d : Disk) : FileOp → Disk
  | .openTmp => { d with tmp := some [] }
  | .write bs => { d with tmp := d.tmp.map fun f => f ++ bs }
  | .renameFile => { path_ := d.tmp, tmp := none }
  | .removeTmp => { d with tmp := none }

namespace SnapshotFile

/-- The writes of `save`, which all go to the temporary file. -/
def writes (s : Snapshot) : List FileOp :=
  [.openTmp, .write (putU64 s.term), .write (putU64 s.index),
    .write (putU32 (UInt32.ofNat s.data.length))] ++
  (if s.data.isEmpty then [] else [.write s.data])

/-- `save`, with a rename that succeeds or fails. A directory in which the temporary file cannot be
opened is left as it is. -/
def save (s : Snapshot) (renamed : Bool) : List FileOp :=
  writes s ++ [if renamed then .renameFile else .removeTmp]

def completed (d : Disk) (ops : List FileOp) : Disk := ops.foldl FileOp.exec d

def load (d : Disk) : Option Snapshot := d.path_.bind fun f => (readSnapshot f).map Prod.fst

end SnapshotFile

/-- The states a crash can leave within an operation, the one before it included. -/
inductive FileOp.Within (d : Disk) : FileOp → Disk → Prop
  | before (op : FileOp) : Within d op d
  | partly {bs p : Bytes} (hp : p <+: bs) :
      Within d (.write bs) { d with tmp := d.tmp.map fun f => f ++ p }

/-- The states a crash can leave while operations are carried out. -/
inductive Crashed : List FileOp → Disk → Disk → Prop
  | within {op : FileOp} {d d' : Disk} (ops : List FileOp) (h : op.Within d d') :
      Crashed (op :: ops) d d'
  | later {op : FileOp} {ops : List FileOp} {d d' : Disk} (h : Crashed ops (op.exec d) d') :
      Crashed (op :: ops) d d'
  | after (d : Disk) : Crashed [] d d

/-! ## The record -/

/-- The length of the data fits its field. -/
def Snapshot.Fits (s : Snapshot) : Prop := s.data.length < 2 ^ 32

theorem readSnapshot_file {s : Snapshot} (h : s.Fits) (rest : Bytes) :
    readSnapshot (s.file ++ rest) = some (s, rest) := by
  have hlen : (UInt32.ofNat s.data.length).toNat = s.data.length := UInt32.toNat_ofNat_of_lt' h
  simp only [readSnapshot, Snapshot.file, List.append_assoc, bind_apply, getU64_putU64,
    getU32_putU32, hlen, getBytes_append, Option.bind_some]
  rfl

theorem eq_of_readSnapshot {s : Snapshot} {bs rest : Bytes}
    (h : readSnapshot bs = some (s, rest)) : s.Fits ∧ bs = s.file ++ rest := by
  simp only [readSnapshot, bind_apply] at h
  obtain ⟨⟨term, bs₁⟩, hterm, h⟩ := Option.bind_eq_some_iff.mp h
  obtain ⟨⟨index, bs₂⟩, hindex, h⟩ := Option.bind_eq_some_iff.mp h
  obtain ⟨⟨len, bs₃⟩, hlen, h⟩ := Option.bind_eq_some_iff.mp h
  obtain ⟨⟨data, bs₄⟩, hdata, h⟩ := Option.bind_eq_some_iff.mp h
  cases h
  dsimp only at hindex hlen hdata ⊢
  obtain ⟨hlength, hbs₃⟩ := eq_of_getBytes hdata
  refine ⟨?_, ?_⟩
  · rw [Snapshot.Fits, hlength]
    exact len.toNat_lt
  · rw [eq_of_getU64 hterm, eq_of_getU64 hindex, eq_of_getU32 hlen, hbs₃]
    simp only [Snapshot.file, hlength, UInt32.ofNat_toNat, List.append_assoc]

theorem snapshotRecords : Records Snapshot.file readSnapshot Snapshot.Fits where
  read_eq_some_iff {bs s rest} := by
    constructor
    · exact eq_of_readSnapshot
    · rintro ⟨hfits, rfl⟩
      exact readSnapshot_file hfits rest
  write_ne_nil s := by simp [Snapshot.file, putU64, leBytes]

namespace SnapshotFile

theorem load_of_path {d : Disk} {s : Snapshot} (hpath : d.path_ = some s.file) (hfits : s.Fits) :
    load d = some s := by
  have hread := readSnapshot_file hfits []
  rw [List.append_nil] at hread
  rw [load, hpath, Option.bind_some, hread]
  rfl

theorem load_of_path_torn {d : Disk} {s : Snapshot} {p : Bytes} (hfits : s.Fits)
    (hp : p <+: s.file) (hne : p ≠ s.file) (hpath : d.path_ = some p) : load d = none := by
  rw [load, hpath, Option.bind_some, snapshotRecords.read_torn hfits hp hne]
  rfl

/-! ## Crashes -/

/-- After the writes the temporary file has the whole record. -/
theorem completed_writes (d : Disk) (s : Snapshot) :
    completed d (writes s) = { d with tmp := some s.file } := by
  have hdata : completed d (writes s) = { d with tmp := some (putU64 s.term ++ putU64 s.index ++
      putU32 (UInt32.ofNat s.data.length) ++ s.data) } := by
    rw [writes]
    split
    · next hempty =>
      rw [List.isEmpty_iff.mp hempty, List.append_nil, List.append_nil]
      rfl
    · rfl
  rw [hdata, Snapshot.file, List.append_assoc, List.append_assoc]

theorem completed_save (d : Disk) (s : Snapshot) :
    completed d (save s true) = { path_ := some s.file, tmp := none } := by
  rw [save, completed, List.foldl_append]
  change (FileOp.exec (completed d (writes s)) .renameFile) = _
  rw [completed_writes]
  rfl

/-- Only a rename touches the file that is loaded. -/
theorem path_exec {d : Disk} {op : FileOp} (h : op ≠ .renameFile) :
    (op.exec d).path_ = d.path_ := by
  cases op with
  | renameFile => exact absurd rfl h
  | openTmp => rfl
  | write bs => rfl
  | removeTmp => rfl

theorem path_within {d d' : Disk} {op : FileOp} (h : op.Within d d') : d'.path_ = d.path_ := by
  cases h <;> rfl

/-- A crash among operations of which only the last may rename: the file that is loaded is the one
from before, or all has been carried out. -/
theorem path_of_crashed {ops : List FileOp} {last : FileOp} {d d' : Disk}
    (hops : ∀ op ∈ ops, op ≠ .renameFile) (h : Crashed (ops ++ [last]) d d') :
    d'.path_ = d.path_ ∨ d' = completed d (ops ++ [last]) := by
  induction ops generalizing d with
  | nil =>
    cases h with
    | within _ hwithin => exact Or.inl (path_within hwithin)
    | later hlater =>
      cases hlater
      exact Or.inr rfl
  | cons op ops ih =>
    obtain ⟨hop, hops⟩ := List.forall_mem_cons.mp hops
    cases h with
    | within _ hwithin => exact Or.inl (path_within hwithin)
    | later hlater =>
      rcases ih hops hlater with hpath | hend
      · exact Or.inl (hpath.trans (path_exec hop))
      · exact Or.inr hend

theorem ne_renameFile_of_writes (s : Snapshot) : ∀ op ∈ writes s, op ≠ .renameFile := by
  intro op hop
  rw [writes] at hop
  rcases List.mem_append.mp hop with hop | hop
  · simp only [List.mem_cons, List.not_mem_nil, or_false] at hop
    rcases hop with rfl | rfl | rfl | rfl <;> exact nofun
  · split at hop
    · cases hop
    · rw [List.mem_singleton.mp hop]
      exact nofun

/-- Whatever the directory held and wherever `save` is interrupted, `load` gives what it gave before
or the new snapshot, and after a save that was completed the new one. A snapshot saved earlier is
what `load` gives, and a file that is cut short gives none. -/
theorem snapshot_file_all_or_nothing {next : Snapshot} (hnext : next.Fits) (d : Disk) :
    (∀ prev : Option Snapshot, (∀ s ∈ prev, s.Fits) → d.path_ = prev.map Snapshot.file →
      load d = prev) ∧
    (∀ renamed d', Crashed (save next renamed) d d' → load d' = load d ∨ load d' = some next) ∧
    load (completed d (save next true)) = some next ∧
    ∀ p, p <+: next.file → p ≠ next.file → load { d with path_ := some p } = none := by
  have hsaved : load (completed d (save next true)) = some next := by
    rw [completed_save]
    exact load_of_path rfl hnext
  refine ⟨?_, ?_, hsaved, fun p hp hne => load_of_path_torn hnext hp hne rfl⟩
  · intro prev hfits hpath
    cases prev with
    | none =>
      rw [load, hpath]
      rfl
    | some s => exact load_of_path hpath (hfits s rfl)
  · intro renamed d' hcrash
    rw [save] at hcrash
    rcases path_of_crashed (ne_renameFile_of_writes next) hcrash with hpath | hend
    · left
      rw [load, load, hpath]
    · rw [← save] at hend
      cases renamed with
      | true =>
        right
        rw [hend, hsaved]
      | false =>
        left
        have hpath : d'.path_ = d.path_ := by
          rw [hend, save, completed, List.foldl_append]
          change (completed d (writes next)).path_ = d.path_
          rw [completed_writes]
        rw [load, load, hpath]

/-- A snapshot of two bytes over one of none, with the length and one byte of data written. -/
theorem snapshot_file_all_or_nothing_torn :
    (⟨2, 7, [1, 2]⟩ : Snapshot).Fits ∧
      Crashed (save ⟨2, 7, [1, 2]⟩ true) { path_ := some (Snapshot.file ⟨1, 3, []⟩) }
        { path_ := some (Snapshot.file ⟨1, 3, []⟩)
          tmp := some ((Snapshot.file ⟨2, 7, [1, 2]⟩).take 21) } ∧
      load { path_ := some (Snapshot.file ⟨1, 3, []⟩)
             tmp := some ((Snapshot.file ⟨2, 7, [1, 2]⟩).take 21) } = some ⟨1, 3, []⟩ := by
  have hfits : (⟨2, 7, [1, 2]⟩ : Snapshot).Fits := by
    rw [Snapshot.Fits]
    decide
  have hold : ∀ s ∈ some (⟨1, 3, []⟩ : Snapshot), s.Fits := by
    rintro s ⟨⟩
    exact Nat.two_pow_pos 32
  have hcrash : Crashed (save ⟨2, 7, [1, 2]⟩ true) { path_ := some (Snapshot.file ⟨1, 3, []⟩) }
      { path_ := some (Snapshot.file ⟨1, 3, []⟩)
        tmp := some ((Snapshot.file ⟨2, 7, [1, 2]⟩).take 21) } :=
    .later (.later (.later (.later (.within _ (.partly ⟨[2], rfl⟩)))))
  refine ⟨hfits, hcrash, ?_⟩
  rcases (snapshot_file_all_or_nothing hfits _).2.1 true _ hcrash with hprev | hnext
  · rw [hprev]
    exact (snapshot_file_all_or_nothing hfits _).1 (some ⟨1, 3, []⟩) hold rfl
  · exact absurd hnext (by decide)

end SnapshotFile

end NexusLOB.Storage
