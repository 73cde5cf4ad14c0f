import NexusLOB.Codec.Records

/-!
# The write-ahead log on disk

`WriteAheadLog` with the bytes of its files. A record of `log.bin` is a term, an index, a type and
the payload with its length in front; words are little-endian. A failed read of a record ends the
replay. What a short read of a word delivers stays in its low bytes, and `readHardState` leaves the
fields it does not come to at zero.
-/

namespace NexusLOB.Storage

open Codec

abbrev Bytes := List UInt8

/-- `raft::Entry` with its type as the byte that is stored. -/
structure Entry where
  term : UInt64 := 0
  index : UInt64 := 0
  type : UInt8 := 0
  data : Bytes := []
  deriving DecidableEq, Repr

structure HardState where
  term : UInt64 := 0
  vote : UInt64 := 0
  commit : UInt64 := 0
  deriving DecidableEq, Repr

/-! ## Records -/

def writeEntry (e : Entry) : Bytes :=
  putU64 e.term ++ (putU64 e.index ++ (e.type :: (putU32 (UInt32.ofNat e.data.length) ++ e.data)))

def readEntry : StateT Bytes Option Entry := do
  let term ← getU64
  let index ← getU64
  let type ← getU8
  let len ← getU32
  let data ← getBytes len.toNat
  return { term := term, index := index, type := type, data := data }

def writeHardState (hs : HardState) : Bytes := putU64 hs.term ++ putU64 hs.vote ++ putU64 hs.commit

/-- `readU64` into a word that is zero: the bytes that are there go to its low bytes. -/
def readU64 (f : Bytes) : UInt64 := UInt64.ofNat (leValue (f.take 8))

/-- A field is only read if the one before it was read as a whole. -/
def readHardState (f : Bytes) : HardState :=
  let term := readU64 f
  if f.length < 8 then { term := term }
  else
    let f := f.drop 8
    let vote := readU64 f
    if f.length < 8 then { term := term, vote := vote }
    else { term := term, vote := vote, commit := readU64 (f.drop 8) }

/-! ## Startup -/

/-- A missing file is the empty hard state. -/
def loadHardState : Option Bytes → HardState
  | none => {}
  | some f => readHardState f

/-- Grow the vector if needed and put the entry at its index. -/
def place (entries : List Entry) (e : Entry) : List Entry :=
  let i := e.index.toNat
  (entries ++ List.replicate (i + 1 - entries.length) ({} : Entry)).set i e

/-- Entries at their indices, over the dummy at index 0. -/
def laid (es : List Entry) : List Entry := es.foldl place [{}]

def replay (logBin : Bytes) : List Entry := laid (records readEntry logBin)

structure WriteAheadLog where
  /-- What `log.bin` holds. -/
  logBin : Bytes := []
  entries_ : List Entry := [{}]
  snapIndex_ : Nat := 0
  snapTerm_ : UInt64 := 0
  deriving DecidableEq, Repr

namespace WriteAheadLog

/-- The constructor, on a directory with the given `log.bin`. -/
def start (logBin : Bytes) : WriteAheadLog := { logBin := logBin, entries_ := replay logBin }

def firstIndex (w : WriteAheadLog) : Nat := w.snapIndex_ + 1

def lastIndex (w : WriteAheadLog) : Nat := w.entries_.length - 1

/-! ## Appending -/

/-- What a batch that begins inside the log writes back after truncating the file. -/
def rewritten (w : WriteAheadLog) (first : Nat) : Bytes :=
  ((w.entries_.take first).drop (w.snapIndex_ + 1)).flatMap writeEntry

/-- Cut the log before `first` and rewrite the file. -/
def truncate (w : WriteAheadLog) (first : Nat) : WriteAheadLog :=
  { w with entries_ := w.entries_.take first, logBin := w.rewritten first }

def appendNoSync (w : WriteAheadLog) (ents : List Entry) : WriteAheadLog :=
  match ents with
  | [] => w
  | e :: _ =>
    let first := e.index.toNat
    let w := if first ≤ w.lastIndex then w.truncate first else w
    { w with logBin := w.logBin ++ ents.flatMap writeEntry, entries_ := w.entries_ ++ ents }

/-- What was written is in the file already. -/
def sync (w : WriteAheadLog) : WriteAheadLog := w

def append (w : WriteAheadLog) (ents : List Entry) : WriteAheadLog := (w.appendNoSync ents).sync

def appendAll (w : WriteAheadLog) (batches : List (List Entry)) : WriteAheadLog :=
  batches.foldl appendNoSync w

/-- Cut the log behind a snapshot. The file is rewritten from the old `snapIndex_` on. A snapshot
index beyond the vector is written out of bounds by the source; here nothing is written then. -/
def applySnapshot (w : WriteAheadLog) (index term : UInt64) : WriteAheadLog :=
  let i := index.toNat
  let entries := (w.entries_.take (i + 1)).set i { index := index, term := term }
  { logBin := (entries.drop (w.snapIndex_ + 1)).flatMap writeEntry
    entries_ := entries
    snapIndex_ := i
    snapTerm_ := term }

/-- `applySnapshot`, failing where the dummy entry is written beyond the vector. -/
def applySnapshotChecked (w : WriteAheadLog) (index term : UInt64) : Option WriteAheadLog :=
  if index.toNat < w.entries_.length then some (w.applySnapshot index term) else none

end WriteAheadLog

end NexusLOB.Storage
