import Mathlib.Data.List.Sort
import NexusLOB.Raft.RaftLog
import NexusLOB.Raft.Progress
import NexusLOB.Raft.ReadOnly

/-!
# The raft state machine

`RawNode` and its operations. The source draws a new election timeout whenever a role changes;
the draw is an argument here. At most the last draw of one call is ever read, so one draw for
each call covers every behaviour of the source.

A range loop over the progress map visits its keys in order, as `std::map` does.
`prevHardStateEmpty_` and `lastReadyCommit_` are never read by the source and left out.
-/

namespace NexusLOB.Raft

open Collections

structure Config where
  id : NodeId := 0
  leaderId : NodeId := 0
  electionTick : Nat := 10
  heartbeatTick : Nat := 1
  maxSizePerMsg : Nat := 2 ^ 20
  maxInflightMsgs : Nat := 256
  peers : List NodeId := []
  learners : List NodeId := []
  readOnlyOption : ReadOnlyOption := .safe
  deriving DecidableEq, Repr

structure RawNode where
  id_ : NodeId
  lead_ : NodeId := 0
  term_ : Nat := 0
  vote_ : NodeId := 0
  role_ : Role := .follower
  electionTick_ : Nat
  heartbeatTick_ : Nat
  randomizedElectionTick_ : Nat := 0
  tickCount_ : Nat := 0
  votes_ : List NodeId := []
  log_ : RaftLog
  pr_ : OrderedMap NodeId Progress less := .empty
  readOnly_ : ReadOnly := {}
  voters_ : List NodeId := []
  learners_ : List NodeId := []
  msgs_ : List Message := []
  lastReadyLastIndex_ : Nat := 0
  lastReadyApplied_ : Nat := 0
  maxSizePerMsg_ : Nat
  maxInflightMsgs_ : Nat
  readStates_ : List ReadState := []
  readRequestors_ : OrderedMap Bytes NodeId less := .empty
  deriving DecidableEq, Repr

namespace RawNode

/-- The constructor, on a storage that may hold the state of an earlier process. -/
def new (c : Config) (storage : WriteAheadLog) (draw : Nat) : RawNode :=
  let init := storage.initialState
  let bootstrap := storage.lastIndex = 0 ∧ c.peers ≠ []
  let voters := if bootstrap then c.peers else init.confState.nodes
  let learners := if bootstrap then [] else init.confState.learners
  { id_ := c.id
    lead_ := c.leaderId
    electionTick_ := c.electionTick
    heartbeatTick_ := c.heartbeatTick
    log_ := RaftLog.new storage
    maxSizePerMsg_ := c.maxSizePerMsg
    maxInflightMsgs_ := c.maxInflightMsgs
    readOnly_ := { option_ := c.readOnlyOption }
    term_ := init.hardState.term
    vote_ := init.hardState.vote
    voters_ := if voters = [] ∧ c.peers ≠ [] then c.peers else voters
    learners_ := if learners = [] ∧ c.learners ≠ [] then c.learners else learners
    randomizedElectionTick_ := draw }

def quorum (n : RawNode) : Nat := n.voters_.length / 2 + 1

/-- Queue a message for the next `Ready`. -/
def send (n : RawNode) (m : Message) : RawNode := { n with msgs_ := n.msgs_ ++ [m] }

/-! ## Role transitions -/

def becomeFollower (n : RawNode) (term : Nat) (lead : NodeId) (draw : Nat) : RawNode :=
  { n with
    role_ := .follower
    term_ := term
    lead_ := lead
    vote_ := 0
    votes_ := []
    tickCount_ := 0
    randomizedElectionTick_ := draw
    readOnly_ := n.readOnly_.reset }

def becomeCandidate (n : RawNode) (draw : Nat) : RawNode :=
  { n with
    role_ := .candidate
    term_ := n.term_ + 1
    lead_ := 0
    vote_ := n.id_
    votes_ := [n.id_]
    tickCount_ := 0
    randomizedElectionTick_ := draw
    readOnly_ := n.readOnly_.reset }

/-! ## Replication -/

def sendSnapshot (n : RawNode) (target : NodeId) : RawNode :=
  match n.pr_.find? target with
  | none => n
  | some _ =>
    let snap := n.log_.snapshot
    if snap.index = 0 then n
    else
      let n := { n with pr_ := n.pr_.modify target fun pr => pr.becomeSnapshot snap.index }
      n.send { type := .msgSnap, receiver := target, sender := n.id_, term := n.term_,
               snapshot := snap }

/-- The progress of a peer after an append with `ents` was sent to it: the in-flight window
counts non-empty appends in `replicate`, and `probe` waits for the answer. -/
def afterAppend (pr : Progress) (ents : List Entry) : Option Progress :=
  let tracked : Option Progress :=
    match pr.state, ents.getLast? with
    | .replicate, some e => (pr.inflights.add e.index).map fun f => { pr with inflights := f }
    | _, _ => some pr
  tracked.map fun pr => if pr.state = .probe then { pr with paused := true } else pr

def sendAppend (n : RawNode) (target : NodeId) : RawNode :=
  match n.pr_.find? target with
  | none => n
  | some pr =>
    if pr.paused then n
    else if pr.state = .snapshot then n.sendSnapshot target
    else
      let next := pr.nextIndex
      if next < n.log_.firstIndex then n.sendSnapshot target
      else
        match n.log_.slice next (n.log_.lastIndex + 1) n.maxSizePerMsg_ with
        | .error _ => n.sendSnapshot target
        | .ok ents =>
          if ents = [] ∧ pr.state ≠ .probe then n
          else
            match afterAppend pr ents with
            -- the in-flight window is full
            | none => n
            | some pr' =>
              let m : Message :=
                { type := .msgApp, receiver := target, sender := n.id_, term := n.term_,
                  logTerm := n.log_.term (next - 1), index := next - 1,
                  commit := n.log_.commitIndex, entries := ents }
              { n with pr_ := n.pr_.modify target fun _ => pr' }.send m

/-- Apply `f` for every peer but this node itself, in the order of the progress map. -/
def forPeers (n : RawNode) (f : RawNode → NodeId → RawNode) : RawNode :=
  n.pr_.keys.foldl (fun n id => if id = n.id_ then n else f n id) n

def broadcastAppend (n : RawNode) : RawNode := n.forPeers sendAppend

def heartbeat (n : RawNode) (target : NodeId) (ctx : Bytes) : Message :=
  { type := .msgHeartbeat, receiver := target, sender := n.id_, term := n.term_,
    commit := n.log_.commitIndex, context := ctx }

def sendHeartbeat (n : RawNode) (target : NodeId) : RawNode := n.send (n.heartbeat target [])

def broadcastHeartbeat (n : RawNode) : RawNode := n.forPeers sendHeartbeat

/-- The match indexes of all peers, the node's own last index standing for itself. -/
def matchIndexes (n : RawNode) : List Nat :=
  n.pr_.bindings.map fun b => if b.1 = n.id_ then n.log_.lastIndex else b.2.matchIndex

/-- Commit the largest index a quorum holds, if its entry is of the current term. -/
def maybeCommit (n : RawNode) : Bool × RawNode :=
  let sorted := n.matchIndexes.insertionSort (· ≥ ·)
  let i := sorted.getD (n.quorum - 1) 0
  if i > n.log_.commitIndex ∧ n.log_.term i = n.term_ then
    (true, { n with log_ := (n.log_.maybeCommit i n.term_).2 })
  else (false, n)

def restore (n : RawNode) (snap : Snapshot) : RawNode :=
  let n := { n with log_ := n.log_.restore snap }
  { n with
    pr_ := n.pr_.keys.foldl
      (fun pr id => pr.modify id fun p =>
        if id = n.id_ then { p with matchIndex := snap.index, nextIndex := snap.index + 1 }
        else p.reset snap.index) n.pr_ }

/-! ## Election -/

/-- Set a peer's match index to `last` and its next index right after it. -/
def markSelf (n : RawNode) : RawNode :=
  { n with pr_ := n.pr_.modify n.id_ fun p =>
      { p with matchIndex := n.log_.lastIndex, nextIndex := n.log_.lastIndex + 1 } }

/-- The fresh progress map of a new leader. -/
def resetProgress (n : RawNode) : OrderedMap NodeId Progress less :=
  let fill := n.voters_.foldl
    (fun pr id => pr.insert id
      ((Progress.new n.maxInflightMsgs_ (id ∈ n.learners_)).reset n.log_.lastIndex)) .empty
  if fill.contains n.id_ then fill else fill.insert n.id_ {}

def becomeLeader (n : RawNode) : RawNode :=
  let n := { n with role_ := .leader, lead_ := n.id_, tickCount_ := 0, pr_ := n.resetProgress }
  let n := n.markSelf
  let n := { n with pr_ := n.pr_.modify n.id_ Progress.becomeReplicate }
  -- a no-op entry lets entries of earlier terms commit; an empty log gets none
  let n :=
    if n.log_.lastIndex ≥ n.log_.firstIndex then
      let noop : Entry := { term := n.term_, index := n.log_.lastIndex + 1, type := .normal }
      { n with log_ := (n.log_.append [noop]).2 }.markSelf
    else n
  n.broadcastAppend

def campaign (n : RawNode) (draw : Nat) : RawNode :=
  let n := n.becomeCandidate draw
  if n.quorum = 1 then n.becomeLeader
  else
    n.voters_.foldl
      (fun n id =>
        if id = n.id_ then n
        else n.send { type := .msgVote, receiver := id, sender := n.id_, term := n.term_,
                      logTerm := n.log_.lastTerm, index := n.log_.lastIndex }) n

def pollVote (n : RawNode) (voter : NodeId) (granted : Bool) : RawNode :=
  if voter ∈ n.votes_ then n
  else if granted then
    let n := { n with votes_ := n.votes_ ++ [voter] }
    if n.votes_.length ≥ n.quorum then n.becomeLeader else n
  else n

/-! ## Client calls -/

def propose (n : RawNode) (data : Bytes) : Bool × RawNode :=
  if n.role_ ≠ .leader then (false, n)
  else
    let e : Entry := { term := n.term_, index := n.log_.lastIndex + 1, type := .normal, data := data }
    let n := { n with log_ := (n.log_.append [e]).2 }
    let n := { n with pr_ := if n.pr_.contains n.id_ then n.pr_ else n.pr_.insert n.id_ {} }
    (true, n.markSelf.broadcastAppend)

def readIndex (n : RawNode) (ctx : Bytes) : Bool × RawNode :=
  if n.role_ ≠ .leader then (false, n)
  else if ctx = [] then (false, n)
  else
    let n := { n with readOnly_ := n.readOnly_.add n.log_.commitIndex ctx }
    if n.readOnly_.option_ = .safe then
      (true, n.forPeers fun n id => n.send (n.heartbeat id ctx))
    else (true, n)

/-! ## Message handlers -/

/-- A peer's progress after it rejected an append. -/
def rejectProgress (rejected hint : Nat) (pr : Progress) : Progress :=
  (pr.maybeDecrFromRejectHint rejected hint).2.becomeProbe

/-- A peer's progress after it accepted an append. -/
def acceptProgress (index : Nat) (pr : Progress) : Progress :=
  let pr := pr.update index
  if pr.state = .probe then pr.becomeReplicate else pr

def stepLeaderAppResp (n : RawNode) (m : Message) : RawNode :=
  match n.pr_.find? m.sender with
  | none => n
  | some _ =>
    if m.reject then
      let n := { n with pr_ := n.pr_.modify m.sender (rejectProgress m.index m.rejectHint) }
      n.sendAppend m.sender
    else
      let n := { n with pr_ := n.pr_.modify m.sender (acceptProgress m.index) }
      let (committed, n) := n.maybeCommit
      let n := if committed then n.broadcastAppend else n
      match n.pr_.find? m.sender with
      | some pr => if pr.state = .replicate then n.sendAppend m.sender else n
      | none => n

/-- The read-index part of a heartbeat response: count the ack and answer on a quorum. -/
def ackRead (n : RawNode) (m : Message) : RawNode :=
  if m.context = [] then n
  else
    let (ackIndex, ro) := n.readOnly_.recvAck m n.quorum
    let n := { n with readOnly_ := ro }
    match ackIndex with
    | none => n
    | some _ =>
      let (idx, ro) := n.readOnly_.advance m.context
      let n := { n with readOnly_ := ro }
      match idx with
      | none => n
      | some i =>
        let n := { n with readStates_ := n.readStates_ ++ [{ index := i, requestCtx := m.context }] }
        match n.readRequestors_.find? m.context with
        | none => n
        | some target =>
          let n := { n with readRequestors_ := n.readRequestors_.erase m.context }
          n.send { type := .msgReadIndexResp, receiver := target, sender := n.id_, term := n.term_,
                   index := i, context := m.context }

def stepLeaderHeartbeatResp (n : RawNode) (m : Message) : RawNode :=
  match n.pr_.find? m.sender with
  | none => n
  | some pr =>
    let n :=
      if pr.state = .replicate then n.sendAppend m.sender
      else if pr.state = .probe ∧ ¬ pr.paused then n.sendAppend m.sender
      else n
    n.ackRead m

def stepLeaderReadIndex (n : RawNode) (m : Message) : RawNode :=
  if m.context = [] then n
  else
    let n := { n with readOnly_ := n.readOnly_.add n.log_.commitIndex m.context }
    let n :=
      if m.sender ≠ n.id_ then
        { n with readRequestors_ := n.readRequestors_.insert m.context m.sender }
      else n
    if n.readOnly_.option_ = .safe then
      n.forPeers fun n id => n.send (n.heartbeat id m.context)
    else n

def stepLeader (n : RawNode) (m : Message) : RawNode :=
  match m.type with
  | .msgPropose =>
    (n.propose (match m.entries with | [] => [] | e :: _ => e.data)).2
  | .msgAppResp => n.stepLeaderAppResp m
  | .msgHeartbeatResp => n.stepLeaderHeartbeatResp m
  | .msgReadIndex => n.stepLeaderReadIndex m
  | _ => n

/-- Forward a client message to the known leader. -/
def forward (n : RawNode) (m : Message) : RawNode :=
  if n.lead_ = 0 then n else n.send { m with receiver := n.lead_ }

def stepFollowerApp (n : RawNode) (m : Message) : RawNode :=
  let n := { n with lead_ := m.sender, tickCount_ := 0 }
  let (ok, log) := n.log_.maybeAppend m.index m.logTerm m.commit m.entries
  let n := { n with log_ := log }
  let resp : Message :=
    { type := .msgAppResp, receiver := m.sender, sender := n.id_, term := n.term_, reject := !ok }
  if ok then n.send { resp with index := m.index + m.entries.length }
  else n.send { resp with index := m.index, rejectHint := n.log_.lastIndex }

def stepFollowerHeartbeat (n : RawNode) (m : Message) : RawNode :=
  let n := { n with lead_ := m.sender, tickCount_ := 0 }
  let n :=
    if m.commit > n.log_.commitIndex then { n with log_ := n.log_.commitTo m.commit } else n
  n.send { type := .msgHeartbeatResp, receiver := m.sender, sender := n.id_, term := n.term_ }

def stepFollowerSnap (n : RawNode) (m : Message) : RawNode :=
  let n := { n with lead_ := m.sender, tickCount_ := 0 }
  let n := n.restore m.snapshot
  n.send { type := .msgAppResp, receiver := m.sender, sender := n.id_, term := n.term_,
           index := m.snapshot.index }

/-- The candidate's log is at least as up to date as ours. -/
def logUpToDate (n : RawNode) (m : Message) : Bool :=
  decide (m.logTerm > n.log_.lastTerm) ||
    (decide (m.logTerm = n.log_.lastTerm) && decide (m.index ≥ n.log_.lastIndex))

def stepFollowerVote (n : RawNode) (m : Message) : RawNode :=
  let grant := decide (n.vote_ = 0 ∨ n.vote_ = m.sender) && n.logUpToDate m
  let n := n.send
    { type := if m.type = .msgVote then .msgVoteResp else .msgPreVoteResp
      receiver := m.sender, sender := n.id_, term := n.term_, reject := !grant }
  if grant ∧ m.type = .msgVote then { n with vote_ := m.sender, tickCount_ := 0 } else n

def stepFollower (n : RawNode) (m : Message) (draw : Nat) : RawNode :=
  match m.type with
  | .msgPropose => n.forward m
  | .msgApp => n.stepFollowerApp m
  | .msgHeartbeat => n.stepFollowerHeartbeat m
  | .msgSnap => n.stepFollowerSnap m
  | .msgVote => n.stepFollowerVote m
  | .msgPreVote => n.stepFollowerVote m
  | .msgReadIndex => n.forward m
  | .msgReadIndexResp =>
    { n with readStates_ := n.readStates_ ++ [{ index := m.index, requestCtx := m.context }] }
  | .msgTimeoutNow => n.campaign draw
  | _ => n

/-- Candidates and pre-candidates. -/
def stepCandidate (n : RawNode) (m : Message) (draw : Nat) : RawNode :=
  match m.type with
  | .msgVoteResp => n.pollVote m.sender (!m.reject)
  | .msgPreVoteResp => n.pollVote m.sender (!m.reject)
  | .msgApp | .msgHeartbeat | .msgSnap =>
    let n := if m.term = n.term_ then n.becomeFollower m.term m.sender draw else n
    n.stepFollower m draw
  | .msgTimeoutNow => n.campaign draw
  | _ => n

/-- The answer to a message of an earlier term. -/
def rejectStale (n : RawNode) (m : Message) : RawNode :=
  let resp (t : MessageType) : Message :=
    { type := t, receiver := m.sender, sender := n.id_, term := n.term_, reject := true }
  match m.type with
  | .msgApp => n.send (resp .msgAppResp)
  | .msgHeartbeat => n.send (resp .msgHeartbeatResp)
  | .msgSnap => n.send (resp .msgAppResp)
  | .msgVote => n.send (resp .msgVoteResp)
  | .msgPreVote => n.send (resp .msgPreVoteResp)
  | _ => n

def stepUnreachable (n : RawNode) (m : Message) : RawNode :=
  { n with pr_ := n.pr_.modify m.sender Progress.becomeProbe }

def stepSnapStatus (n : RawNode) (m : Message) : RawNode :=
  match n.pr_.find? m.sender with
  | none => n
  | some _ =>
    if m.reject then { n with pr_ := n.pr_.modify m.sender Progress.becomeProbe }
    else
      let n := { n with pr_ := n.pr_.modify m.sender fun p =>
        let p := p.becomeProbe
        { p with matchIndex := p.pendingSnapshotIndex, nextIndex := p.pendingSnapshotIndex + 1 } }
      n.maybeCommit.2

/-- Messages of a higher term make the node a follower of that term, except pre-votes. -/
def raiseTerm (n : RawNode) (m : Message) (draw : Nat) : RawNode :=
  if m.term > n.term_ ∧ m.type ≠ .msgPreVote ∧ m.type ≠ .msgPreVoteResp then
    n.becomeFollower m.term 0 draw
  else n

def dispatch (n : RawNode) (m : Message) (draw : Nat) : RawNode :=
  match n.role_ with
  | .leader => n.stepLeader m
  | .candidate => n.stepCandidate m draw
  | .preCandidate => n.stepCandidate m draw
  | .follower => n.stepFollower m draw

def step (n : RawNode) (m : Message) (draw : Nat) : RawNode :=
  match m.type with
  | .msgUnreachable => n.stepUnreachable m
  | .msgSnapStatus => n.stepSnapStatus m
  | _ =>
    let n := n.raiseTerm m draw
    if m.term < n.term_ then n.rejectStale m else n.dispatch m draw

/-! ## Clock -/

def tickElection (n : RawNode) (draw : Nat) : Bool × RawNode :=
  let n := { n with tickCount_ := n.tickCount_ + 1 }
  if n.tickCount_ ≥ n.randomizedElectionTick_ then
    (true, { n.campaign draw with tickCount_ := 0 })
  else (false, n)

def tick (n : RawNode) (draw : Nat) : Bool × RawNode :=
  if n.role_ = .leader then
    let n := { n with tickCount_ := n.tickCount_ + 1 }
    if n.tickCount_ ≥ n.heartbeatTick_ then (true, { n.broadcastHeartbeat with tickCount_ := 0 })
    else (false, n)
  else n.tickElection draw

/-! ## Ready protocol -/

def poll (n : RawNode) : Ready × RawNode :=
  let entries := n.log_.unstableEntries
  let committedEntries := n.log_.nextCommittedEntries true
  ({ entries := entries
     hardState := makeHardState n.term_ n.vote_ n.log_.commitIndex
     messages := n.msgs_
     committedEntries := committedEntries
     readStates := n.readStates_ },
   { n with
     lastReadyLastIndex_ := (entries.getLast?.map (·.index)).getD n.lastReadyLastIndex_
     lastReadyApplied_ := (committedEntries.getLast?.map (·.index)).getD n.lastReadyApplied_
     msgs_ := []
     readStates_ := [] })

def advance (n : RawNode) : RawNode :=
  let n :=
    if n.lastReadyLastIndex_ > 0 then
      { n with
        log_ := n.log_.stableTo n.lastReadyLastIndex_ (n.log_.term n.lastReadyLastIndex_)
        lastReadyLastIndex_ := 0 }
    else n
  if n.lastReadyApplied_ > 0 then
    { n with log_ := n.log_.appliedTo n.lastReadyApplied_, lastReadyApplied_ := 0 }
  else n

end RawNode

end NexusLOB.Raft
