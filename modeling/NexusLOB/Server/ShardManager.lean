import NexusLOB.Book.StateMachine
import NexusLOB.Book.MapRefinement
import NexusLOB.Raft.ElectionPossible

/-!
# One raft group for each symbol

`ShardManager` keeps a node, a store and an order book for each symbol. A shard is created when the
first command for its symbol is submitted. Its loop thread exists if `start` was called after that;
it ticks the node, writes what a `Ready` holds, applies what is committed and advances. It sends
nothing and receives nothing. The calls of `submit` run in threads of their own: they check the
role, propose, read the last index, register under it and wait, and no mutex is held around these
steps, so the loop and other calls come in between.

A shard is created on the files in the directory of its symbol. What opening them gives is part of
the call: earlier runs have written there, and so has any other shard whose symbol names the same
directory. As no shard ever hears from a peer, none ever commits an entry: the books stay as they
were created, and every call of `submit` that returns gives the empty result.
-/

namespace NexusLOB.Raft

/-- What a loop without a network does: everything but messages, reads and crashes. -/
def Event.Secluded : Event → Prop
  | .step _ _ | .readIndex _ | .restart _ => False
  | _ => True

section Secluded

variable {n : RawNode} {p : Peer}

theorem append_committed (l : RaftLog) (e : Entry) :
    (l.append [e]).2.committed_ = l.committed_ := by
  rcases RaftLog.append_one_cases l e with ⟨heq, -⟩ | ⟨heq, -⟩ <;> rw [heq]

theorem becomeLeader_committed (n : RawNode) :
    n.becomeLeader.log_.committed_ = n.log_.committed_ := by
  rw [(becomeLeader_dispatched n).log, elected_log]
  split_ifs
  · exact append_committed _ _
  · rfl

theorem campaign_committed (n : RawNode) (draw : Nat) :
    (n.campaign draw).log_.committed_ = n.log_.committed_ := by
  by_cases hq : n.quorum = 1
  · have hone : (n.becomeCandidate draw).quorum = 1 := hq
    unfold RawNode.campaign
    dsimp only
    rw [if_pos hone]
    exact becomeLeader_committed _
  · rw [campaign_eq hq]
    rfl

/-- The clock commits nothing. -/
theorem tick_committed (n : RawNode) (draw : Nat) :
    (n.tick draw).2.log_.committed_ = n.log_.committed_ := by
  by_cases hr : n.role_ = .leader
  · rw [(tick_dispatched n hr draw).log]
  · unfold RawNode.tick RawNode.tickElection
    rw [if_neg hr]
    dsimp only
    split_ifs
    · exact campaign_committed { n with tickCount_ := n.tickCount_ + 1 } draw
    · rfl

theorem propose_committed (n : RawNode) (data : Bytes) :
    (n.propose data).2.log_.committed_ = n.log_.committed_ := by
  by_cases hr : n.role_ = .leader
  · rw [(propose_dispatched hr data).log]
    exact append_committed _ _
  · unfold RawNode.propose
    rw [if_pos hr]

/-- Without messages nothing is committed. -/
theorem handle_committed (h : InStep p) {ev : Event} (hev : ev.Secluded) :
    (p.handle ev).1.node.log_.committed_ = p.node.log_.committed_ := by
  have hmove := p.handle_move ev
  generalize p.handle ev = q at hmove ⊢
  cases hmove with
  | tick draw => exact tick_committed _ _
  | propose data => exact propose_committed _ _
  | persistHardState rd =>
    unfold Peer.saveHardState
    dsimp only
    split_ifs <;> rfl
  | advance rd hready =>
    obtain ⟨l', -, -, -, hcom, -, heq⟩ := (h.pending hready).advance h.sound.wf (by decide)
    dsimp only
    rw [heq]
    exact hcom
  | step => exact hev.elim
  | readIndex => exact hev.elim
  | restart => exact hev.elim
  | _ => rfl

/-- The node leads only if it needs no other vote. -/
def Alone (n : RawNode) : Prop := n.role_ = .leader → n.quorum = 1

theorem Alone.dispatched {n' : RawNode} (h : Alone n) (hr : n.role_ = .leader)
    (hd : Dispatched n n') : Alone n' := by
  intro _
  rw [RawNode.quorum, hd.voters]
  exact h hr

theorem Alone.tick (h : Alone n) (draw : Nat) : Alone (n.tick draw).2 := by
  by_cases hr : n.role_ = .leader
  · exact h.dispatched hr (tick_dispatched n hr draw)
  intro hlead
  obtain ⟨n₀, -, -, hvoters, -, hd⟩ := (tick_leader_cases n hlead).resolve_left hr
  have hquorum : (n.tick draw).2.quorum = n.quorum := by
    rw [RawNode.quorum, hd.voters, (elected_office n₀).2.2.2.1, hvoters]
    rfl
  rw [hquorum]
  by_contra hq
  unfold RawNode.tick RawNode.tickElection at hlead
  rw [if_neg hr] at hlead
  dsimp only at hlead
  split_ifs at hlead
  · rw [campaign_eq (show { n with tickCount_ := n.tickCount_ + 1 }.quorum ≠ 1 from hq)] at hlead
    cases hlead
  · exact hr hlead

theorem Alone.propose (h : Alone n) (data : Bytes) : Alone (n.propose data).2 := by
  by_cases hr : n.role_ = .leader
  · exact Alone.dispatched (n := n.proposed data) h hr (propose_dispatched hr data)
  · unfold RawNode.propose
    rw [if_pos hr]
    exact h

/-- Without messages a node leads only alone. -/
theorem Alone.handle (h : Alone p.node) {ev : Event} (hev : ev.Secluded) :
    Alone (p.handle ev).1.node := by
  have hmove := p.handle_move ev
  generalize p.handle ev = q at hmove ⊢
  cases hmove with
  | tick draw => exact h.tick draw
  | propose data => exact h.propose data
  | persistHardState rd =>
    unfold Peer.saveHardState
    dsimp only
    split_ifs <;> exact h
  | advance rd hready =>
    unfold RawNode.advance
    dsimp only
    split_ifs <;> exact h
  | step => exact hev.elim
  | readIndex => exact hev.elim
  | restart => exact hev.elim
  | _ => exact h

end Secluded

end NexusLOB.Raft

namespace NexusLOB.App

open Raft Lob Collections

/-- What the manager reads of `AppConfig`; of the roster, the ids. -/
structure AppConfig where
  selfId : NodeId
  peers : List NodeId
  electionTick : Nat := 10
  heartbeatTick : Nat := 1
  maxSizePerMsg : Nat := 2 ^ 20
  maxInflightMsgs : Nat := 256
  deriving DecidableEq, Repr

def AppConfig.toRaftConfig (c : AppConfig) : Config :=
  { id := c.selfId, electionTick := c.electionTick, heartbeatTick := c.heartbeatTick,
    maxSizePerMsg := c.maxSizePerMsg, maxInflightMsgs := c.maxInflightMsgs, peers := c.peers }

/-- `Pending`, what a call waits for. -/
structure PendingResult where
  result : Raft.Bytes := []
  done : Bool := false
  deriving DecidableEq, Repr

/-- Where a call of `submit` is, after it found its shard: what it does next. -/
inductive SubmitPoint
  | checkRole
  | propose
  | lastIndex
  | register (idx : Nat)
  | wait
  /-- The wait is over, and the lock released. -/
  | woken
  | returned (result : Raft.Bytes)
  deriving DecidableEq, Repr

structure Submit where
  cmd : Raft.Bytes
  pending : PendingResult := {}
  point : SubmitPoint := .checkRole
  deriving DecidableEq, Repr

/-- Where the loop of a shard is. -/
inductive LoopPoint
  | check
  | poll
  | process
  | ended
  deriving DecidableEq, Repr

structure Shard where
  /-- The node with its store. -/
  peer : Peer
  fsm : LOBStateMachine MapLevels
  running : Bool := false
  /-- A thread that was started and not yet joined. -/
  loopThread : Option LoopPoint := none
  /-- The calls that ever found this shard. A pointer to a call's slot is its place here. -/
  calls : List Submit := []
  pending : OrderedMap Nat Nat less := .empty
  /-- The committed entries of the `Ready` that are not yet applied. -/
  applying : List Entry := []
  /-- The index applied last and the result, while its call is not yet answered. -/
  answering : Option (Nat × Raft.Bytes) := none

namespace Shard

def setPoint (sh : Shard) (k : Nat) (point : SubmitPoint) : Shard :=
  { sh with calls := sh.calls.modify k fun c => { c with point := point } }

/-- The next step of the call in place `k`. -/
def proceed (sh : Shard) (k : Nat) : Shard :=
  match sh.calls[k]? with
  | none => sh
  | some c =>
    match c.point with
    | .checkRole =>
      if sh.peer.node.role_ ≠ .leader then sh.setPoint k (.returned []) else sh.setPoint k .propose
    | .propose =>
      let proposed := { sh with peer := (sh.peer.handle (.propose c.cmd)).1 }
      if (sh.peer.node.propose c.cmd).1 then proposed.setPoint k .lastIndex
      else proposed.setPoint k (.returned [])
    | .lastIndex => sh.setPoint k (.register sh.peer.node.log_.lastIndex)
    | .register idx => { sh with pending := sh.pending.insert idx k }.setPoint k .wait
    | .wait => if c.pending.done || !sh.running then sh.setPoint k .woken else sh
    | .woken => sh.setPoint k (.returned (if c.pending.done then c.pending.result else []))
    | .returned _ => sh

/-- The entry under `idx` is applied: who waits under it gets the result. -/
def answer (sh : Shard) (idx : Nat) (result : Raft.Bytes) : Shard :=
  match sh.pending.find? idx with
  | none => { sh with answering := none }
  | some k =>
    { sh with
      answering := none
      pending := sh.pending.erase idx
      calls := sh.calls.modify k fun c => { c with pending := ⟨result, true⟩ } }

/-- The next step of `processReady`. The messages of the `Ready` are dropped. An exception of
`apply` leaves the thread, which ends the process. -/
def processReady (sh : Shard) : Option Shard :=
  match sh.peer.ready with
  | none => some sh
  | some (.persistEntries, _) => some { sh with peer := (sh.peer.handle .persistEntries).1 }
  | some (.persistHardState, _) => some { sh with peer := (sh.peer.handle .persistHardState).1 }
  | some (.send, _) => some { sh with peer := (sh.peer.handle .send).1 }
  | some (.advance, _) =>
    match sh.answering, sh.applying with
    | some (idx, result), _ => some (sh.answer idx result)
    | none, e :: rest =>
      match sh.fsm.apply e.data [] with
      | .error _ => none
      | .ok (result, fsm) =>
        some { sh with fsm := fsm, applying := rest, answering := some (e.index, result) }
    | none, [] =>
      some { sh with peer := (sh.peer.handle .advance).1, loopThread := some .check }

/-- The next step of `shardLoop`. `hasReady` is always true. -/
def shardLoop (sh : Shard) (draw : Nat) : Option Shard :=
  match sh.loopThread with
  | none | some .ended => some sh
  | some .check =>
    if sh.running then
      some { sh with peer := (sh.peer.handle (.tick draw)).1, loopThread := some .poll }
    else some { sh with loopThread := some .ended }
  | some .poll =>
    some { sh with
      applying := sh.peer.node.poll.1.committedEntries
      peer := (sh.peer.handle .poll).1
      loopThread := some .process }
  | some .process => sh.processReady

/-- `join` waits for the end of the loop. -/
def join (sh : Shard) : Shard :=
  if sh.loopThread = some .ended then { sh with loopThread := none } else sh

end Shard

structure ShardManager where
  config_ : AppConfig
  electionTick_ : Nat := 10
  heartbeatTick_ : Nat := 1
  shards_ : OrderedMap Raft.Bytes Shard less := .empty
  /-- The process has ended by an exception that nobody caught. -/
  terminated : Bool := false

inductive ShardAction
  | start
  /-- The first half of `stop`: the flags and the notification. -/
  | stop
  /-- The second half for one shard, when its loop has ended. -/
  | join (symbol : Raft.Bytes)
  /-- A call of `submit` finds its shard, or creates it on the opened store. Without one, as the
  directory is missing, it ends in an exception. -/
  | submit (symbol cmd : Raft.Bytes) (opened : Option WriteAheadLog) (draw : Nat)
  /-- A call for `symbol` makes its next step. -/
  | proceed (symbol : Raft.Bytes) (k : Nat)
  /-- The loop of `symbol` makes its next step. -/
  | loop (symbol : Raft.Bytes) (draw : Nat)
  deriving Repr

/-- What the call opens holds no snapshot. -/
def ShardAction.Plain : ShardAction → Prop
  | .submit _ _ opened _ => ∀ w ∈ opened, w.Plain
  | _ => True

namespace ShardManager

/-- The constructor. -/
def new (config : AppConfig) (electionTick : Nat := 10) (heartbeatTick : Nat := 1) : ShardManager :=
  { config_ := config, electionTick_ := electionTick, heartbeatTick_ := heartbeatTick }

/-- `createShard`, on what opening the symbol's directory gave. -/
def createShard (m : ShardManager) (wal : WriteAheadLog) (symbol : Raft.Bytes) (draw : Nat) :
    Shard :=
  let bc := m.config_.toRaftConfig
  let rc : Config :=
    { id := bc.id, electionTick := m.electionTick_, heartbeatTick := m.heartbeatTick_,
      maxSizePerMsg := bc.maxSizePerMsg, maxInflightMsgs := bc.maxInflightMsgs, peers := bc.peers }
  { peer := Peer.start rc wal draw, fsm := .new symbol }

/-- Assigning to a thread that is still joinable ends the process. -/
def start (m : ShardManager) : ShardManager :=
  if m.shards_.bindings.any fun b => b.2.loopThread.isSome then { m with terminated := true }
  else { m with shards_ := m.shards_.mapValues fun sh =>
    { sh with running := true, loopThread := some .check } }

def stop (m : ShardManager) : ShardManager :=
  { m with shards_ := m.shards_.mapValues fun sh => { sh with running := false } }

/-- The first part of `submit`, under `shardsMutex_`. -/
def submit (m : ShardManager) (symbol cmd : Raft.Bytes) (opened : Option WriteAheadLog)
    (draw : Nat) : ShardManager :=
  match (m.shards_.find? symbol).or (opened.map fun wal => m.createShard wal symbol draw) with
  | none => m
  | some sh =>
    { m with shards_ := m.shards_.insert symbol { sh with calls := sh.calls ++ [{ cmd := cmd }] } }

def loop (m : ShardManager) (symbol : Raft.Bytes) (draw : Nat) : ShardManager :=
  match m.shards_.find? symbol with
  | none => m
  | some sh =>
    match sh.shardLoop draw with
    | none => { m with terminated := true }
    | some sh' => { m with shards_ := m.shards_.insert symbol sh' }

def step (m : ShardManager) (a : ShardAction) : ShardManager :=
  if m.terminated then m
  else
    match a with
    | .start => m.start
    | .stop => m.stop
    | .join symbol => { m with shards_ := m.shards_.modify symbol Shard.join }
    | .submit symbol cmd opened draw => m.submit symbol cmd opened draw
    | .proceed symbol k => { m with shards_ := m.shards_.modify symbol fun sh => sh.proceed k }
    | .loop symbol draw => m.loop symbol draw

def exec (m : ShardManager) (acts : List ShardAction) : ShardManager := acts.foldl step m

end ShardManager

/-! ## Nothing is ever applied -/

namespace Shard

/-- A shard whose node has committed nothing, with its book as it was created. -/
structure Barren (symbol : Raft.Bytes) (sh : Shard) : Prop where
  inStep : InStep sh.peer
  committed : sh.peer.node.log_.committed_ = 0
  alone : Alone sh.peer.node
  fsm : sh.fsm = .new symbol
  applying : sh.applying = []
  answering : sh.answering = none
  calls : ∀ c ∈ sh.calls, c.pending.done = false ∧ ∀ r, c.point = .returned r → r = []

section Barren

variable {symbol : Raft.Bytes} {sh : Shard}

/-- Neither the flags nor the map of waiting calls matter. -/
theorem Barren.congr (h : sh.Barren symbol) {sh' : Shard} (hpeer : sh'.peer = sh.peer)
    (hfsm : sh'.fsm = sh.fsm) (happ : sh'.applying = sh.applying)
    (hans : sh'.answering = sh.answering) (hcalls : sh'.calls = sh.calls) : sh'.Barren symbol := by
  obtain ⟨hin, hcom, halone, hnew, hnone, hidle, hdone⟩ := h
  rw [← hpeer] at hin hcom halone
  rw [← hfsm] at hnew
  rw [← happ] at hnone
  rw [← hans] at hidle
  rw [← hcalls] at hdone
  exact ⟨hin, hcom, halone, hnew, hnone, hidle, hdone⟩

/-- The node of the shard makes an event. -/
theorem Barren.event (h : sh.Barren symbol) {ev : Event} (hev : ev.Secluded) :
    Barren symbol { sh with peer := (sh.peer.handle ev).1 } := by
  have hlawful : ev.Lawful := by
    cases ev <;> first | exact hev.elim | trivial
  exact ⟨h.inStep.handle_lawful hlawful, (handle_committed h.inStep hev).trans h.committed,
    h.alone.handle hev, h.fsm, h.applying, h.answering, h.calls⟩

/-- A call goes on, without a result. -/
theorem Barren.setPoint (h : sh.Barren symbol) (k : Nat) {point : SubmitPoint}
    (hp : ∀ r, point = .returned r → r = []) : (sh.setPoint k point).Barren symbol := by
  refine ⟨h.inStep, h.committed, h.alone, h.fsm, h.applying, h.answering, fun c hc => ?_⟩
  obtain ⟨i, hi⟩ := List.mem_iff_getElem?.mp hc
  simp only [Shard.setPoint, List.getElem?_modify] at hi
  cases hget : sh.calls[i]? with
  | none =>
    rw [hget] at hi
    cases hi
  | some c₀ =>
    have h₀ := h.calls c₀ (List.mem_of_getElem? hget)
    rw [hget] at hi
    split_ifs at hi
    · obtain rfl := Option.some.inj hi
      exact ⟨h₀.1, hp⟩
    · obtain rfl := Option.some.inj hi
      exact h₀

theorem Barren.proceed (h : sh.Barren symbol) (k : Nat) : (sh.proceed k).Barren symbol := by
  unfold Shard.proceed
  cases hget : sh.calls[k]? with
  | none => exact h
  | some c =>
    have hdone := (h.calls c (List.mem_of_getElem? hget)).1
    dsimp only
    split
    · split_ifs
      · exact h.setPoint k fun r hr => (SubmitPoint.returned.inj hr).symm
      · exact h.setPoint k nofun
    · have hev : Barren symbol { sh with peer := (sh.peer.handle (.propose c.cmd)).1 } :=
        h.event trivial
      split_ifs
      · exact hev.setPoint k nofun
      · exact hev.setPoint k fun r hr => (SubmitPoint.returned.inj hr).symm
    · exact h.setPoint k nofun
    · refine Barren.setPoint ?_ k nofun
      exact h.congr rfl rfl rfl rfl rfl
    · split_ifs
      · exact h.setPoint k nofun
      · exact h
    · refine h.setPoint k fun r hr => ?_
      rw [← SubmitPoint.returned.inj hr, hdone]
      rfl
    · exact h

theorem Barren.processReady (h : sh.Barren symbol) :
    ∃ sh', sh.processReady = some sh' ∧ sh'.Barren symbol := by
  unfold Shard.processReady
  split
  · exact ⟨_, rfl, h⟩
  · exact ⟨_, rfl, h.event trivial⟩
  · exact ⟨_, rfl, h.event trivial⟩
  · exact ⟨_, rfl, h.event trivial⟩
  · rw [h.answering, h.applying]
    have hev : Barren symbol { sh with peer := (sh.peer.handle .advance).1 } := h.event trivial
    exact ⟨_, rfl, hev.congr rfl rfl h.applying.symm h.answering.symm rfl⟩

theorem Barren.shardLoop (h : sh.Barren symbol) (draw : Nat) :
    ∃ sh', sh.shardLoop draw = some sh' ∧ sh'.Barren symbol := by
  unfold Shard.shardLoop
  split
  · exact ⟨_, rfl, h⟩
  · exact ⟨_, rfl, h⟩
  · split_ifs
    · have hev : Barren symbol { sh with peer := (sh.peer.handle (.tick draw)).1 } :=
        h.event trivial
      exact ⟨_, rfl, hev.congr rfl rfl rfl rfl rfl⟩
    · exact ⟨_, rfl, h.congr rfl rfl rfl rfl rfl⟩
  · have hnone : sh.peer.node.poll.1.committedEntries = [] := by
      change sh.peer.node.log_.nextCommittedEntries true = []
      unfold RaftLog.nextCommittedEntries
      rw [if_pos (by rw [h.committed]; exact Nat.zero_le _)]
    have hev : Barren symbol { sh with peer := (sh.peer.handle .poll).1 } := h.event trivial
    exact ⟨_, rfl, hev.congr rfl rfl (hnone.trans h.applying.symm) rfl rfl⟩
  · exact h.processReady

end Barren

end Shard

namespace ShardManager

/-- All shards are barren. -/
def Barren (m : ShardManager) : Prop :=
  ∀ symbol sh, m.shards_.find? symbol = some sh → sh.Barren symbol

variable {m : ShardManager}

theorem barren_createShard {w : WriteAheadLog} (hw : w.Plain) (symbol : Raft.Bytes) (draw : Nat) :
    (m.createShard w symbol draw).Barren symbol := by
  refine ⟨inStep_start _ hw draw, ?_, nofun, rfl, rfl, rfl, nofun⟩
  change (RaftLog.new w).committed_ = 0
  rw [RaftLog.new_eq hw.snapIndex]

/-- One shard is replaced. -/
theorem Barren.insert (h : m.Barren) {symbol : Raft.Bytes} {sh : Shard} (hsh : sh.Barren symbol) :
    Barren { m with shards_ := m.shards_.insert symbol sh } := by
  intro s sh' hfind
  by_cases hs : symbol = s
  · subst hs
    rw [OrderedMap.find?_insert_self] at hfind
    exact Option.some.inj hfind ▸ hsh
  · rw [OrderedMap.find?_insert_of_ne _ _ hs] at hfind
    exact h s sh' hfind

theorem Barren.mapValues (h : m.Barren) {f : Shard → Shard}
    (hf : ∀ {symbol sh}, Shard.Barren symbol sh → (f sh).Barren symbol) :
    Barren { m with shards_ := m.shards_.mapValues f } := by
  intro s sh' hfind
  rw [OrderedMap.find?_mapValues, Option.map_eq_some_iff] at hfind
  obtain ⟨sh, hsh, rfl⟩ := hfind
  exact hf (h s sh hsh)

theorem Barren.modify (h : m.Barren) (symbol : Raft.Bytes) {f : Shard → Shard}
    (hf : ∀ {sh}, Shard.Barren symbol sh → (f sh).Barren symbol) :
    Barren { m with shards_ := m.shards_.modify symbol f } := by
  intro s sh' hfind
  by_cases hs : symbol = s
  · subst hs
    rw [OrderedMap.find?_modify_self, Option.map_eq_some_iff] at hfind
    obtain ⟨sh, hsh, rfl⟩ := hfind
    exact hf (h _ sh hsh)
  · rw [OrderedMap.find?_modify_of_ne _ _ hs] at hfind
    exact h s sh' hfind

theorem Barren.submit (h : m.Barren) (symbol cmd : Raft.Bytes) {opened : Option WriteAheadLog}
    (hopened : ∀ w ∈ opened, w.Plain) (draw : Nat) : (m.submit symbol cmd opened draw).Barren := by
  have hsh : ∀ sh, (m.shards_.find? symbol).or
      (opened.map fun wal => m.createShard wal symbol draw) = some sh → sh.Barren symbol := by
    intro sh hsome
    rcases Option.or_eq_some_iff.mp hsome with hfind | ⟨-, hnew⟩
    · exact h symbol sh hfind
    · obtain ⟨w, hw, rfl⟩ := Option.map_eq_some_iff.mp hnew
      exact barren_createShard (hopened w hw) symbol draw
  unfold ShardManager.submit
  split
  · exact h
  · rename_i sh hsome
    have hold := hsh sh hsome
    refine h.insert ⟨hold.inStep, hold.committed, hold.alone, hold.fsm, hold.applying,
      hold.answering, fun c hc => ?_⟩
    rcases List.mem_append.mp hc with hc | hc
    · exact hold.calls c hc
    · rw [List.mem_singleton.mp hc]
      exact ⟨rfl, nofun⟩

theorem Barren.step (h : m.Barren) {a : ShardAction} (ha : a.Plain) : (m.step a).Barren := by
  unfold ShardManager.step
  split_ifs
  · exact h
  · cases a with
    | start =>
      dsimp only
      unfold start
      split_ifs
      · exact h
      · exact h.mapValues fun hsh => hsh.congr rfl rfl rfl rfl rfl
    | stop => exact h.mapValues fun hsh => hsh.congr rfl rfl rfl rfl rfl
    | join symbol =>
      refine h.modify symbol fun {sh} hsh => ?_
      unfold Shard.join
      split_ifs
      · exact hsh.congr rfl rfl rfl rfl rfl
      · exact hsh
    | submit symbol cmd opened draw => exact h.submit symbol cmd ha draw
    | proceed symbol k => exact h.modify symbol fun hsh => hsh.proceed k
    | loop symbol draw =>
      dsimp only
      unfold loop
      cases hfind : m.shards_.find? symbol with
      | none => exact h
      | some sh =>
        obtain ⟨sh', hloop, hsh'⟩ := (h symbol sh hfind).shardLoop draw
        simp only [hloop]
        exact h.insert hsh'

theorem Barren.run (h : m.Barren) {acts : List ShardAction} (hacts : ∀ a ∈ acts, a.Plain) :
    (m.exec acts).Barren := by
  induction acts generalizing m with
  | nil => exact h
  | cons a acts ih =>
    exact ih (h.step (hacts a List.mem_cons_self)) fun b hb => hacts b (List.mem_cons_of_mem a hb)

/-- **Shards never answer.** In every run of the manager, for every configuration and on any opened
stores without a snapshot, the book of every shard is as it was created and every call of `submit`
that returned gave the empty result. A call that is registered goes on only when the shard is
stopped. A shard leads only if one vote is its quorum. -/
theorem shards_never_answer (config : AppConfig) (electionTick heartbeatTick : Nat)
    (acts : List ShardAction) (hacts : ∀ a ∈ acts, a.Plain) (symbol : Raft.Bytes) (sh : Shard)
    (hsh : ((new config electionTick heartbeatTick).exec acts).shards_.find? symbol = some sh) :
    sh.fsm = .new symbol ∧
      (∀ c ∈ sh.calls, ∀ r, c.point = .returned r → r = []) ∧
      (sh.running = true → ∀ k c, sh.calls[k]? = some c → c.point = .wait → sh.proceed k = sh) ∧
      (sh.peer.node.role_ = .leader → sh.peer.node.quorum = 1) ∧ sh.peer.storage.Plain := by
  have hinit : (new config electionTick heartbeatTick).Barren := by
    intro s sh hfind
    rw [show (new config electionTick heartbeatTick).shards_.find? s = none from
      OrderedMap.find?_empty s] at hfind
    cases hfind
  have h := hinit.run hacts symbol sh hsh
  refine ⟨h.fsm, fun c hc => (h.calls c hc).2, fun hrun k c hget hwait => ?_, h.alone,
    h.inStep.plain⟩
  have hdone := (h.calls c (List.mem_of_getElem? hget)).1
  unfold Shard.proceed
  simp only [hget, hwait, hdone, hrun]
  rfl

/-- Two symbols and a node that is its only voter: it leads the shards that existed at the start,
and a second call for the first symbol proposes, registers and waits. There is no directory for a
third symbol. -/
def twoSymbols : List ShardAction :=
  [.submit [65] [1] (some .fresh) 1, .submit [66] [2] (some .fresh) 1, .proceed [65] 0, .start,
    .loop [65] 1, .loop [66] 1, .submit [65] [3] none 1, .proceed [65] 1, .loop [66] 1,
    .proceed [65] 1, .loop [65] 1, .proceed [65] 1, .submit [67] [4] none 1, .loop [65] 1,
    .proceed [65] 1, .loop [67] 1, .proceed [65] 1, .loop [65] 1, .loop [65] 1, .loop [65] 1]

theorem shards_never_answer_two : ∃ sh,
    ((new { selfId := 1, peers := [1] }).exec twoSymbols).shards_.find? [65] = some sh ∧
    sh.fsm = .new [65] ∧
      (∀ c ∈ sh.calls, ∀ r, c.point = .returned r → r = []) ∧
      (sh.running = true → ∀ k c, sh.calls[k]? = some c → c.point = .wait → sh.proceed k = sh) ∧
      (sh.peer.node.role_ = .leader → sh.peer.node.quorum = 1) ∧ sh.peer.storage.Plain := by
  have hplain : ∀ a ∈ twoSymbols, a.Plain := by
    simp [twoSymbols, ShardAction.Plain, plain_fresh]
  obtain ⟨sh, hsh⟩ := Option.isSome_iff_exists.mp (show (((new { selfId := 1, peers := [1] }).exec
    twoSymbols).shards_.find? [65]).isSome = true by decide +kernel)
  exact ⟨sh, hsh, shards_never_answer _ _ _ twoSymbols hplain [65] sh hsh⟩

end ShardManager

end NexusLOB.App
