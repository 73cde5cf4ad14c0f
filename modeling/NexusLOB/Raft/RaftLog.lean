import NexusLOB.Raft.Storage
import NexusLOB.Raft.LogUnstable

/-!
# The replicated log

`RaftLog` reads as one log but is stitched from two stores: the storage below the unstable
offset and the unstable entries from it on. The source keeps a pointer to the storage; here the
storage is a field, and the application's writes to it are writes to that field.
-/

namespace NexusLOB.Raft

/-- The size limit that means no limit. -/
def noLimit : Nat := 2 ^ 64 - 1

structure RaftLog where
  storage_ : WriteAheadLog
  unstable_ : LogUnstable := {}
  committed_ : Nat := 0
  applied_ : Nat := 0
  deriving DecidableEq, Repr

namespace RaftLog

/-- The constructor: nothing is committed beyond the snapshot. -/
def new (storage : WriteAheadLog) : RaftLog :=
  let base : RaftLog :=
    { storage_ := storage, committed_ := storage.firstIndex - 1, applied_ := storage.firstIndex - 1 }
  let snap := storage.snapshot
  if snap.index > base.committed_ then
    { base with committed_ := snap.index, applied_ := snap.index }
  else base

def firstIndex (l : RaftLog) : Nat :=
  match l.unstable_.maybeFirstIndex with
  | some i => i
  | none => l.storage_.firstIndex

def lastIndex (l : RaftLog) : Nat :=
  match l.unstable_.maybeLastIndex with
  | some i => i
  | none => l.storage_.lastIndex

/-- The term of the entry at `i`; the storage's range error reads as term 0. -/
def term (l : RaftLog) (i : Nat) : Nat :=
  if i = l.firstIndex - 1 then 0
  else
    match l.unstable_.maybeTerm i with
    | some t => t
    | none =>
      match l.storage_.term i with
      | .ok t => t
      | .error _ => 0

def lastTerm (l : RaftLog) : Nat := l.term l.lastIndex

def commitIndex (l : RaftLog) : Nat := l.committed_

def appliedIndex (l : RaftLog) : Nat := l.applied_

def maybeCommit (l : RaftLog) (index : Nat) (t : Nat) : Bool × RaftLog :=
  if index > l.committed_ ∧ l.term index = t then (true, { l with committed_ := index })
  else (false, l)

def commitTo (l : RaftLog) (index : Nat) : RaftLog :=
  if index > l.committed_ then { l with committed_ := min index l.lastIndex } else l

/-- Keep the longest prefix whose size stays within `maxSize`, counted from `size` on. -/
def takeWithin (maxSize : Nat) : Nat → List Entry → List Entry
  | _, [] => []
  | size, e :: rest =>
    let size := (size + (e.data.length + sizeofEntry)) % 2 ^ 64
    if size > maxSize then [] else e :: takeWithin maxSize size rest

/-- The last part of `slice`: cut to `maxSize` but keep at least one entry. -/
def limitSize (maxSize : Nat) (ents : List Entry) : List Entry :=
  match ents with
  | [] => []
  | e :: rest =>
    if maxSize ≠ noLimit then
      e :: takeWithin maxSize ((e.data.length + sizeofEntry) % 2 ^ 64) rest
    else e :: rest

/-- Entries `[lo, hi)`, bounded by `maxSize` bytes. -/
def slice (l : RaftLog) (lo hi : Nat) (maxSize : Nat) : Except String (List Entry) :=
  let unstableOffset := l.unstable_.offset_
  if lo ≥ hi then .ok []
  else if lo < l.firstIndex then .error "slice below first index"
  else if hi > l.lastIndex + 1 then .error "slice above last index"
  else
    match (if lo < unstableOffset then l.storage_.entries lo (min hi unstableOffset) maxSize
        else .ok []) with
    | .error e => .error e
    | .ok stored =>
      -- storage returned fewer entries (it hit `maxSize`): return early
      if lo < unstableOffset ∧ stored.length < min hi unstableOffset - lo then .ok stored
      else
        let unstable :=
          if hi > unstableOffset then l.unstable_.slice (max lo unstableOffset) hi else []
        .ok (limitSize maxSize (stored ++ unstable))

def nextCommittedEntries (l : RaftLog) (allowConfChange : Bool) : List Entry :=
  if l.committed_ ≤ l.applied_ then []
  else
    match l.slice (l.applied_ + 1) (l.committed_ + 1) noLimit with
    | .error _ => []
    | .ok ents =>
      if allowConfChange then ents
      else ents.takeWhile fun e => e.type ≠ .confChange ∧ e.type ≠ .confChangeV2

def appliedTo (l : RaftLog) (i : Nat) : RaftLog :=
  if i < l.applied_ ∨ i > l.committed_ then l else { l with applied_ := i }

/-- The index of the first entry whose term differs from the log's, 0 when there is none. -/
def findConflict (l : RaftLog) (entries : List Entry) : Nat :=
  match entries with
  | [] => 0
  | e :: rest => if l.term e.index ≠ e.term then e.index else l.findConflict rest

/-- Follower append: `false` when the entry before the new ones does not match. -/
def maybeAppend (l : RaftLog) (prevLogIndex : Nat) (prevLogTerm : Nat) (leaderCommit : Nat)
    (entries : List Entry) : Bool × RaftLog :=
  if l.term prevLogIndex ≠ prevLogTerm then (false, l)
  else
    let lastNewIndex := prevLogIndex + entries.length
    let conflict := l.findConflict entries
    let l' :=
      if conflict = 0 then
        -- no conflict: entries beyond the new ones are cut off, in memory only
        if lastNewIndex < l.lastIndex then
          { l with unstable_ := l.unstable_.truncateFrom (lastNewIndex + 1) }
        else l
      -- a conflict below the commit index is accepted without storing anything
      else if conflict ≤ l.committed_ then l
      else
        let toAppend := entries.drop (conflict - prevLogIndex - 1)
        { l with unstable_ := l.unstable_.append toAppend }
    let l'' :=
      if leaderCommit > l'.committed_ then { l' with committed_ := min leaderCommit lastNewIndex }
      else l'
    (true, l'')

/-- Leader append; returns the last index. -/
def append (l : RaftLog) (entries : List Entry) : Nat × RaftLog :=
  match entries with
  | [] => (l.lastIndex, l)
  | e :: _ =>
    let after := e.index - 1
    if after < l.committed_ then (l.lastIndex, l)
    else
      let l' := { l with unstable_ := l.unstable_.append entries }
      (l'.lastIndex, l')

def restore (l : RaftLog) (snap : Snapshot) : RaftLog :=
  { l with
    committed_ := snap.index
    applied_ := snap.index
    unstable_ := l.unstable_.restore snap }

def snapshotIndex (l : RaftLog) : Nat :=
  match l.unstable_.snapshot_ with
  | some s => s.index
  | none => l.storage_.snapshot.index

def snapshotTerm (l : RaftLog) : Nat :=
  match l.unstable_.snapshot_ with
  | some s => s.term
  | none => l.storage_.snapshot.term

def snapshot (l : RaftLog) : Snapshot :=
  match l.unstable_.snapshot_ with
  | some s => s
  | none => l.storage_.snapshot

def unstableEntries (l : RaftLog) : List Entry := l.unstable_.entries_

def stableTo (l : RaftLog) (i : Nat) (t : Nat) : RaftLog :=
  { l with unstable_ := l.unstable_.stableTo i t }

end RaftLog

end NexusLOB.Raft
