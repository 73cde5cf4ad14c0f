import NexusLOB.Raft.Types

/-!
# Per-peer replication progress

`Inflights` is the ring buffer of unacknowledged append indices; `Progress` is what a leader
knows about one peer.
-/

namespace NexusLOB.Raft

inductive ProgressState
  | probe
  | replicate
  | snapshot
  deriving DecidableEq, Repr

structure Inflights where
  buffer_ : List Nat
  head_ : Nat := 0
  count_ : Nat := 0
  deriving DecidableEq, Repr

namespace Inflights

def new (capacity : Nat := 256) : Inflights := { buffer_ := List.replicate capacity 0 }

def full (f : Inflights) : Bool := f.count_ == f.buffer_.length

def count (f : Inflights) : Nat := f.count_

/-- `none` is the source's abort on a full buffer. -/
def add (f : Inflights) (index : Nat) : Option Inflights :=
  if f.full then none
  else
    let next := f.head_ + f.count_
    let next := if next ≥ f.buffer_.length then next - f.buffer_.length else next
    some { f with buffer_ := f.buffer_.set next index, count_ := f.count_ + 1 }

/-- The loop of `freeTo` with `left` slots still to look at: the number of slots freed and the
slot it stops at. -/
def freeLoop (buffer : List Nat) (target : Nat) : Nat → Nat → Nat → Nat × Nat
  | 0, i, idx => (i, idx)
  | left + 1, i, idx =>
    if target < buffer.getD idx 0 then (i, idx)
    else
      let idx := idx + 1
      let idx := if idx ≥ buffer.length then idx - buffer.length else idx
      freeLoop buffer target left (i + 1) idx

def freeTo (f : Inflights) (target : Nat) : Inflights :=
  if f.count_ = 0 then f
  else
    let (i, idx) := freeLoop f.buffer_ target f.count_ 0 f.head_
    let count := f.count_ - i
    { f with count_ := count, head_ := if count = 0 then 0 else idx }

def reset (f : Inflights) : Inflights := { f with count_ := 0, head_ := 0 }

end Inflights

structure Progress where
  matchIndex : Nat := 0
  nextIndex : Nat := 0
  state : ProgressState := .probe
  paused : Bool := false
  pendingSnapshotIndex : Nat := 0
  isLearner : Bool := false
  inflights : Inflights := .new
  deriving DecidableEq, Repr

namespace Progress

def new (inflightCapacity : Nat) (learner : Bool) : Progress :=
  { isLearner := learner, inflights := .new inflightCapacity }

def reset (p : Progress) (lastIndex : Nat) : Progress :=
  { p with
    matchIndex := 0
    nextIndex := lastIndex + 1
    state := .probe
    paused := false
    pendingSnapshotIndex := 0
    inflights := p.inflights.reset }

def update (p : Progress) (lastIndex : Nat) : Progress :=
  let p := { p with matchIndex := max p.matchIndex lastIndex }
  if p.state = .replicate then
    { p with nextIndex := lastIndex + 1, inflights := p.inflights.freeTo lastIndex }
  else p

def maybeDecrFromRejectHint (p : Progress) (rejected hint : Nat) : Bool × Progress :=
  if p.state = .replicate then
    if rejected ≤ p.matchIndex then (false, p)
    else (true, { p with nextIndex := p.matchIndex + 1 })
  else if rejected < p.nextIndex - 1 then (false, p)
  else
    let next := if hint < rejected then hint + 1 else rejected
    (true, { p with nextIndex := if next < 1 then 1 else next })

def becomeSnapshot (p : Progress) (snapshotIndex : Nat) : Progress :=
  { p with state := .snapshot, pendingSnapshotIndex := snapshotIndex, paused := true }

def becomeProbe (p : Progress) : Progress :=
  { p with
    pendingSnapshotIndex := if p.state = .snapshot then 0 else p.pendingSnapshotIndex
    state := .probe
    paused := false }

def becomeReplicate (p : Progress) : Progress :=
  { p with
    state := .replicate
    paused := false
    nextIndex := p.matchIndex + 1
    inflights := p.inflights.reset }

end Progress

end NexusLOB.Raft
