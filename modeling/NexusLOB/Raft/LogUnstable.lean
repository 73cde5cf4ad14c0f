import NexusLOB.Raft.Types

/-!
# Entries not yet in storage

`LogUnstable` holds the tail of the log between the moment the algorithm appends it and the
moment the application confirms that it is stored.
-/

namespace NexusLOB.Raft

structure LogUnstable where
  entries_ : List Entry := []
  offset_ : Nat := 0
  snapshot_ : Option Snapshot := none
  deriving DecidableEq, Repr

namespace LogUnstable

def maybeFirstIndex (u : LogUnstable) : Option Nat :=
  match u.snapshot_ with
  | some s => some (s.index + 1)
  | none => none

def maybeLastIndex (u : LogUnstable) : Option Nat :=
  if u.entries_ ≠ [] then some (u.offset_ + u.entries_.length - 1)
  else match u.snapshot_ with
    | some s => some s.index
    | none => none

def maybeTerm (u : LogUnstable) (i : Nat) : Option Nat :=
  if i < u.offset_ then
    match u.snapshot_ with
    | some s => if s.index = i then some s.term else none
    | none => none
  else
    match u.maybeLastIndex with
    | none => none
    | some last =>
      if i > last then none else some (u.entries_.getD (i - u.offset_) {}).term

def stableTo (u : LogUnstable) (i : Nat) (t : Nat) : LogUnstable :=
  let release : LogUnstable :=
    if u.entries_ = [] ∨ i < u.offset_ then u
    else { u with entries_ := u.entries_.drop (i + 1 - u.offset_), offset_ := i + 1 }
  match u.snapshot_ with
  | some s =>
    if i = s.index ∧ t = s.term then { u with snapshot_ := none }
    else if i ≤ s.index then u
    else release
  | none => release

def restore (_ : LogUnstable) (snap : Snapshot) : LogUnstable :=
  { entries_ := [], snapshot_ := some snap, offset_ := snap.index + 1 }

def truncateFrom (u : LogUnstable) (fromIndex : Nat) : LogUnstable :=
  if u.entries_ = [] then u
  else if fromIndex < u.offset_ then { u with entries_ := [] }
  else
    let cut := fromIndex - u.offset_
    if cut < u.entries_.length then { u with entries_ := u.entries_.take cut } else u

def truncateAndAppend (u : LogUnstable) (entries : List Entry) : LogUnstable :=
  match entries with
  | [] => u
  | e :: _ =>
    let first := e.index
    if u.entries_ = [] then { u with offset_ := first, entries_ := entries }
    else
      let ourLast := u.offset_ + u.entries_.length - 1
      -- the new slice starts at or before our window: replace entirely
      if first ≤ u.offset_ then { u with offset_ := first, entries_ := entries }
      -- a gap above our window: replace as well
      else if first > ourLast + 1 then { u with offset_ := first, entries_ := entries }
      else { u with entries_ := u.entries_.take (first - u.offset_) ++ entries }

def append (u : LogUnstable) (entries : List Entry) : LogUnstable := u.truncateAndAppend entries

def slice (u : LogUnstable) (lo hi : Nat) : List Entry :=
  if lo < u.offset_ ∨ hi > u.offset_ + u.entries_.length ∨ lo > hi then []
  else (u.entries_.drop (lo - u.offset_)).take (hi - lo)

end LogUnstable

end NexusLOB.Raft
