import NexusLOB.Raft.Types

/-!
# The storage behind a raft log

`WriteAheadLog` as the raft library sees it: the in-memory mirror of the log file, indexed by
absolute log index with a dummy entry at index 0, together with the saved hard state,
configuration and snapshot mark. A failed range check throws in the source; here it is an
`Except` with the source's text.
-/

namespace NexusLOB.Raft

structure WriteAheadLog where
  entries_ : List Entry
  hardState_ : HardState := {}
  confState_ : ConfState := {}
  snapIndex_ : Nat := 0
  snapTerm_ : Nat := 0
  deriving DecidableEq, Repr

namespace WriteAheadLog

/-- A store opened on an empty directory: `replay` leaves only the dummy entry. -/
def fresh (cs : ConfState := {}) : WriteAheadLog := { entries_ := [{}], confState_ := cs }

def initialState (w : WriteAheadLog) : InitialState := ⟨w.hardState_, w.confState_⟩

def firstIndex (w : WriteAheadLog) : Nat := w.snapIndex_ + 1

def lastIndex (w : WriteAheadLog) : Nat := w.entries_.length - 1

/-- The loop of `entries`: stop before the entry that exceeds `maxSize`, but return at least
one. Sizes are counted modulo `2 ^ 64`. -/
def collect (maxSize : Nat) : List Entry → Nat → List Entry → List Entry
  | [], _, result => result
  | e :: rest, size, result =>
    let size := (size + sizeofEntry + e.data.length) % 2 ^ 64
    if maxSize ≠ 0 ∧ size > maxSize ∧ result ≠ [] then result
    else collect maxSize rest size (result ++ [e])

def entries (w : WriteAheadLog) (lo hi : Nat) (maxSize : Nat) : Except String (List Entry) :=
  if lo < w.firstIndex then .error "entries: lo below firstIndex"
  else if hi > w.lastIndex + 1 then .error "entries: hi above lastIndex+1"
  else .ok (collect maxSize ((w.entries_.drop lo).take (hi - lo)) 0 [])

def term (w : WriteAheadLog) (i : Nat) : Except String Nat :=
  if i < w.firstIndex ∨ i > w.lastIndex then .error "term: index out of range"
  else .ok (w.entries_.getD i {}).term

def snapshot (w : WriteAheadLog) : Snapshot := { index := w.snapIndex_, term := w.snapTerm_ }

/-- Append a batch; a batch that starts inside the log first cuts the log there. -/
def appendNoSync (w : WriteAheadLog) (ents : List Entry) : WriteAheadLog :=
  match ents with
  | [] => w
  | e :: _ =>
    let first := e.index
    let kept := if first ≤ w.lastIndex then w.entries_.take first else w.entries_
    { w with entries_ := kept ++ ents }

def saveHardState (w : WriteAheadLog) (hs : HardState) : WriteAheadLog :=
  { w with hardState_ := hs }

end WriteAheadLog

end NexusLOB.Raft
