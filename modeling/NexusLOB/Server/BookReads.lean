import NexusLOB.Book.StateMachine
import NexusLOB.Concurrency.Runs
import NexusLOB.Raft.Types
import Mathlib.Data.List.Induction

/-!
# Book reads while commands are applied

For a BOOK request the order server calls back into `Server`, which reads the bids and then the
asks. Each of the two reads takes the state machine's mutex for itself, and in ReadIndex mode each
waits for its own `ReadState`. The raft loop applies commands at any moment, also between the two
reads, and other requests run at the same time. A read gives up, with an empty side, if there is no
book reader, if a ReadIndex read starts on a node that does not lead, or if the server stops.

The two sides that a request returns are those of one state of the book if no change of the bids
between the two reads is followed by a change of the asks, and none is both at once.
-/

namespace NexusLOB.App

open Codec Collections Concurrency Lob

inductive ReadMode
  | readIndex
  | leaseBased
  | direct
  deriving DecidableEq, Repr

structure PendingRead where
  maxLevels : Nat := 0
  isBids : Bool := true
  result : List PriceLevel := []
  done : Bool := false
  deriving DecidableEq, Repr

/-- How far a call of the read-book callback is. -/
inductive BookPhase
  | readBids
  | awaitBids (slot : Nat)
  | readAsks (bids : List PriceLevel)
  | awaitAsks (bids : List PriceLevel) (slot : Nat)
  | returned (bids asks : List PriceLevel)
  deriving DecidableEq, Repr

structure BookRequest where
  maxLevels : Nat
  phase : BookPhase := .readBids
  deriving DecidableEq, Repr

/-- What the server's book reads work on. -/
structure BookServer (L : Side → Type) where
  readMode_ : ReadMode
  /-- Whether a book reader is set; it is the state machine. -/
  bookReader_ : Bool
  isLeader : Bool
  running_ : Bool := true
  fsm_ : LOBStateMachine L
  readTokenCounter_ : UInt64 := 1
  /-- A pointer to a slot is its place in this list. -/
  reads : List PendingRead := []
  pendingReads_ : OrderedMap Bytes Nat less := .empty
  /-- All calls of the read-book callback so far. -/
  requests : List BookRequest := []

inductive BookAction
  | apply (data : Bytes) (coins : Coins)
  | restore (data : Bytes) (coins : Nat → Coins)
  | lead (isLeader : Bool)
  | readBook (maxLevels : Nat)
  /-- The thread of request `i` takes its next step. -/
  | run (i : Nat)
  | handleReadState (token : Bytes)
  | stop

namespace BookServer

variable {L : Side → Type} [∀ s, Levels (L s)]

/-- `bookReader_->bids(maxLevels)` or `bookReader_->asks(maxLevels)`. -/
def side (m : LOBStateMachine L) (isBids : Bool) (maxLevels : Nat) : List PriceLevel :=
  if isBids then m.bids maxLevels else m.asks maxLevels

/-- A read up to its end, or up to the wait for its slot. -/
def readSide (s : BookServer L) (isBids : Bool) (maxLevels : Nat) :
    (List PriceLevel ⊕ Nat) × BookServer L :=
  if !s.bookReader_ then (.inl [], s)
  else
    match s.readMode_ with
    | .direct | .leaseBased => (.inl (side s.fsm_ isBids maxLevels), s)
    | .readIndex =>
      if !s.isLeader then (.inl [], s)
      else
        (.inr s.reads.length,
          { s with
            readTokenCounter_ := s.readTokenCounter_ + 1
            reads := s.reads ++ [{ maxLevels := maxLevels, isBids := isBids }]
            pendingReads_ := s.pendingReads_.insert (putU64 s.readTokenCounter_) s.reads.length })

def readBids (s : BookServer L) (maxLevels : Nat) : (List PriceLevel ⊕ Nat) × BookServer L :=
  s.readSide true maxLevels

def readAsks (s : BookServer L) (maxLevels : Nat) : (List PriceLevel ⊕ Nat) × BookServer L :=
  s.readSide false maxLevels

/-- The end of a ReadIndex read. Without a result the thread still waits. -/
def await (s : BookServer L) (slot : Nat) : Option (List PriceLevel) :=
  match s.reads[slot]? with
  | none => none
  | some p => if p.done then some p.result else if s.running_ then none else some []

/-- The slot gets its side of the book. -/
def fill (s : BookServer L) (p : PendingRead) : PendingRead :=
  { p with result := side s.fsm_ p.isBids p.maxLevels, done := true }

/-- One round of `handleReadStates`, once the state machine has applied up to the read index. -/
def handleReadState (s : BookServer L) (token : Bytes) : BookServer L :=
  match s.pendingReads_.find? token with
  | none => s
  | some slot =>
    if s.running_ then
      { s with
        reads := s.reads.modify slot s.fill
        pendingReads_ := s.pendingReads_.erase token }
    else s

/-- The next step of the read-book callback. -/
def progress (s : BookServer L) (r : BookRequest) : BookPhase × BookServer L :=
  match r.phase with
  | .readBids =>
    match s.readBids r.maxLevels with
    | (.inl bids, s) => (.readAsks bids, s)
    | (.inr slot, s) => (.awaitBids slot, s)
  | .awaitBids slot =>
    match s.await slot with
    | none => (r.phase, s)
    | some bids => (.readAsks bids, s)
  | .readAsks bids =>
    match s.readAsks r.maxLevels with
    | (.inl asks, s) => (.returned bids asks, s)
    | (.inr slot, s) => (.awaitAsks bids slot, s)
  | .awaitAsks bids slot =>
    match s.await slot with
    | none => (r.phase, s)
    | some asks => (.returned bids asks, s)
  | .returned .. => (r.phase, s)

def run (s : BookServer L) (i : Nat) : BookServer L :=
  match s.requests[i]? with
  | none => s
  | some r =>
    let (phase, s) := s.progress r
    { s with requests := s.requests.set i { r with phase := phase } }

/-- An exception of `apply` ends the loop. -/
def apply (s : BookServer L) (data : Bytes) (coins : Coins) : BookServer L :=
  match s.fsm_.apply data coins with
  | .error _ => s
  | .ok (_, fsm) => { s with fsm_ := fsm }

def step (s : BookServer L) : BookAction → BookServer L
  | .apply data coins => s.apply data coins
  | .restore data coins => { s with fsm_ := s.fsm_.restore data coins }
  | .lead isLeader => { s with isLeader := isLeader }
  | .readBook maxLevels => { s with requests := s.requests ++ [{ maxLevels := maxLevels }] }
  | .run i => s.run i
  | .handleReadState token => s.handleReadState token
  | .stop => { s with running_ := false }

def exec (s : BookServer L) (acts : List BookAction) : BookServer L := acts.foldl step s

/-! ## What a step does -/

end BookServer

/-- How far a call is: 1 while it fetches the bids, 2 while it fetches the asks, 3 at its end. -/
def BookPhase.stage : BookPhase → Nat
  | .readBids | .awaitBids _ => 1
  | .readAsks _ | .awaitAsks _ _ => 2
  | .returned .. => 3

theorem BookPhase.stage_pos (phase : BookPhase) : 1 ≤ phase.stage := by
  cases phase <;> simp [stage]

namespace BookServer

variable {L : Side → Type} [∀ s, Levels (L s)]

/-- The stage of request `i`, 0 before it comes. -/
def stage (s : BookServer L) (i : Nat) : Nat := ((s.requests[i]?).map fun r => r.phase.stage).getD 0

/-- The action `a` leaves the mode alone, and slots as they are until a `ReadState` fills them. -/
structure Frame (s : BookServer L) (a : BookAction) (s' : BookServer L) : Prop where
  readMode : s'.readMode_ = s.readMode_
  reads : ∀ {slot : Nat} {p : PendingRead}, s.reads[slot]? = some p →
    s'.reads[slot]? = some p ∨
      (∃ token, a = .handleReadState token) ∧ s'.reads[slot]? = some (s.fill p)

section Steps

variable {s : BookServer L} {a : BookAction} {i n slot : Nat}

theorem Frame.refl (s : BookServer L) : Frame s a s := ⟨rfl, Or.inl⟩

theorem readSide_frame (s : BookServer L) (isBids : Bool) (n : Nat) :
    Frame s a (s.readSide isBids n).2 ∧ (s.readSide isBids n).2.requests = s.requests := by
  unfold readSide
  by_cases hreader : (!s.bookReader_) = true
  · rw [if_pos hreader]
    exact ⟨.refl s, rfl⟩
  · rw [if_neg hreader]
    cases hmode : s.readMode_ with
    | direct => exact ⟨.refl s, rfl⟩
    | leaseBased => exact ⟨.refl s, rfl⟩
    | readIndex =>
      dsimp only
      split_ifs
      · exact ⟨.refl s, rfl⟩
      · refine ⟨⟨hmode.symm, fun hp => Or.inl ?_⟩, rfl⟩
        rw [List.getElem?_append_left (List.getElem?_eq_some_iff.mp hp).1]
        exact hp

theorem progress_frame (s : BookServer L) (r : BookRequest) :
    Frame s a (s.progress r).2 ∧ (s.progress r).2.requests = s.requests ∧
      r.phase.stage ≤ (s.progress r).1.stage := by
  have hbids := s.readSide_frame (a := a) true r.maxLevels
  have hasks := s.readSide_frame (a := a) false r.maxLevels
  unfold progress
  cases r.phase with
  | readBids =>
    dsimp only [readBids]
    split <;> rename_i heq <;> rw [heq] at hbids
    · exact ⟨hbids.1, hbids.2, Nat.le_succ 1⟩
    · exact ⟨hbids.1, hbids.2, Nat.le_refl _⟩
  | awaitBids slot =>
    dsimp only
    split
    · exact ⟨.refl s, rfl, Nat.le_refl _⟩
    · exact ⟨.refl s, rfl, Nat.le_succ 1⟩
  | readAsks bids =>
    dsimp only [readAsks]
    split <;> rename_i heq <;> rw [heq] at hasks
    · exact ⟨hasks.1, hasks.2, Nat.le_succ 2⟩
    · exact ⟨hasks.1, hasks.2, Nat.le_refl _⟩
  | awaitAsks bids slot =>
    dsimp only
    split
    · exact ⟨.refl s, rfl, Nat.le_refl _⟩
    · exact ⟨.refl s, rfl, Nat.le_succ 2⟩
  | returned bids asks => exact ⟨.refl s, rfl, Nat.le_refl _⟩

/-- What a step can do to the requests. -/
inductive Moves (s : BookServer L) : BookAction → BookServer L → Prop
  | other {a : BookAction} {s' : BookServer L} (hrequests : s'.requests = s.requests) : Moves s a s'
  | came (n : Nat) :
      Moves s (.readBook n) { s with requests := s.requests ++ [{ maxLevels := n }] }
  | ran {k : Nat} {r : BookRequest} (hr : s.requests[k]? = some r) :
      Moves s (.run k) { (s.progress r).2 with
        requests := s.requests.set k { r with phase := (s.progress r).1 } }

theorem step_moves (s : BookServer L) (a : BookAction) :
    Frame s a (s.step a) ∧ Moves s a (s.step a) := by
  cases a with
  | apply data coins =>
    simp only [step, apply]
    split <;> exact ⟨⟨rfl, Or.inl⟩, .other rfl⟩
  | readBook n => exact ⟨⟨rfl, Or.inl⟩, .came n⟩
  | run k =>
    simp only [step, run]
    split
    · exact ⟨.refl s, .other rfl⟩
    · rename_i r hr
      obtain ⟨hframe, hrequests, -⟩ := s.progress_frame r
      rw [hrequests]
      exact ⟨⟨hframe.readMode, hframe.reads⟩, .ran hr⟩
  | handleReadState token =>
    simp only [step, handleReadState]
    split
    · exact ⟨.refl s, .other rfl⟩
    · rename_i k _
      split_ifs
      · refine ⟨⟨rfl, fun {slot p} hp => ?_⟩, .other rfl⟩
        by_cases hk : k = slot
        · refine Or.inr ⟨⟨token, rfl⟩, ?_⟩
          rw [hk, List.getElem?_modify_eq, hp]
          rfl
        · left
          rw [List.getElem?_modify_ne _ _ hk]
          exact hp
      · exact ⟨.refl s, .other rfl⟩
  | _ => exact ⟨⟨rfl, Or.inl⟩, .other rfl⟩

/-- A request stays as it is, is new, or makes its own next step. -/
theorem step_request {r : BookRequest} (hr : (s.step a).requests[i]? = some r) :
    s.requests[i]? = some r ∨ r.phase = .readBids ∨
      ∃ r₀, s.requests[i]? = some r₀ ∧ a = .run i ∧ r = { r₀ with phase := (s.progress r₀).1 } ∧
        (s.step a).reads = (s.progress r₀).2.reads := by
  have hmoves := (s.step_moves a).2
  generalize s.step a = s' at hmoves hr ⊢
  cases hmoves with
  | other hrequests =>
    rw [hrequests] at hr
    exact Or.inl hr
  | came n =>
    rcases Nat.lt_or_ge i s.requests.length with hlt | hge
    · rw [List.getElem?_append_left hlt] at hr
      exact Or.inl hr
    · rw [List.getElem?_append_right hge] at hr
      rw [List.mem_singleton.mp (List.mem_of_getElem? hr)]
      exact Or.inr (Or.inl rfl)
  | @ran k r₀ hr₀ =>
    by_cases hk : k = i
    · subst hk
      rw [List.getElem?_set_self (List.getElem?_eq_some_iff.mp hr₀).1] at hr
      exact Or.inr (Or.inr ⟨r₀, hr₀, rfl, (Option.some.inj hr).symm, rfl⟩)
    · rw [List.getElem?_set_ne hk] at hr
      exact Or.inl hr

/-- A request never goes back. -/
theorem stage_le_step (s : BookServer L) (a : BookAction) : s.stage i ≤ (s.step a).stage i := by
  unfold stage
  cases hr : s.requests[i]? with
  | none => exact Nat.zero_le _
  | some r =>
    have hlt := (List.getElem?_eq_some_iff.mp hr).1
    have hmoves := (s.step_moves a).2
    generalize s.step a = s' at hmoves ⊢
    cases hmoves with
    | other hrequests => rw [hrequests, hr]
    | came n => rw [List.getElem?_append_left hlt, hr]
    | @ran k r₀ hr₀ =>
      by_cases hk : k = i
      · subst hk
        obtain rfl := Option.some.inj (hr.symm.trans hr₀)
        rw [List.getElem?_set_self hlt]
        exact (s.progress_frame (a := .run k) r).2.2
      · rw [List.getElem?_set_ne hk, hr]

end Steps

/-! ## What a request has read -/

/-- A side of the book after the first `k` actions. -/
def sideAt (s₀ : BookServer L) (acts : List BookAction) (isBids : Bool) (n k : Nat) :
    List PriceLevel :=
  side (stateAt step s₀ acts k).fsm_ isBids n

/-- The result is the side that the book had after `j` actions, when the request fetched it: by its
own step, or with a `ReadState`. -/
structure ReadAt (s₀ : BookServer L) (acts : List BookAction) (i : Nat) (isBids : Bool) (n : Nat)
    (result : List PriceLevel) (j : Nat) : Prop where
  action : acts[j]? = some (.run i) ∨ ∃ token, acts[j]? = some (.handleReadState token)
  fetches : (stateAt step s₀ acts j).stage i = if isBids then 1 else 2
  result : result = s₀.sideAt acts isBids n j

/-- A slot for a side. When it is filled, it holds what the book had after `lo` actions or more. -/
def Slot (s₀ : BookServer L) (acts : List BookAction) (i : Nat) (isBids : Bool) (n lo slot : Nat) :
    Prop :=
  (s₀.exec acts).readMode_ = .readIndex ∧ ∃ p, (s₀.exec acts).reads[slot]? = some p ∧
    p.isBids = isBids ∧ p.maxLevels = n ∧
      (p.done = true → ∃ j, lo ≤ j ∧ s₀.ReadAt acts i isBids n p.result j)

/-- What a request has so far was read from the book, the asks after the bids. -/
def Recorded (s₀ : BookServer L) (acts : List BookAction) (i n : Nat) : BookPhase → Prop
  | .readBids => True
  | .awaitBids slot => s₀.Slot acts i true n 0 slot
  | .readAsks bids => ∃ j, s₀.ReadAt acts i true n bids j
  | .awaitAsks bids slot => ∃ j, s₀.ReadAt acts i true n bids j ∧ s₀.Slot acts i false n (j + 1) slot
  | .returned bids asks => ∃ j₁, s₀.ReadAt acts i true n bids j₁ ∧
      ∃ j₂, j₁ < j₂ ∧ s₀.ReadAt acts i false n asks j₂

/-- Nothing makes a read give up: there is a book reader, and in ReadIndex mode the node leads and
the server is not stopped. -/
structure Serves (s : BookServer L) : Prop where
  reader : s.bookReader_ = true
  leads : s.readMode_ = .readIndex → s.isLeader = true
  runs : s.readMode_ = .readIndex → s.running_ = true

section Record

variable {s₀ : BookServer L} {acts : List BookAction} {a : BookAction} {i n lo slot j : Nat}
  {isBids : Bool} {result : List PriceLevel} {r : BookRequest}

theorem exec_snoc : s₀.exec (acts ++ [a]) = (s₀.exec acts).step a := by
  rw [exec, List.foldl_append]
  rfl

theorem ReadAt.before (h : s₀.ReadAt acts i isBids n result j) : j < acts.length := by
  rcases h.action with ha | ⟨_, ha⟩ <;> exact (List.getElem?_eq_some_iff.mp ha).1

theorem ReadAt.snoc (h : s₀.ReadAt acts i isBids n result j) :
    s₀.ReadAt (acts ++ [a]) i isBids n result j := by
  have hstate : stateAt step s₀ (acts ++ [a]) j = stateAt step s₀ acts j :=
    stateAt_append (Nat.le_of_lt h.before) [a]
  refine ⟨by rw [List.getElem?_append_left h.before]; exact h.action, ?_, ?_⟩
  · rw [hstate, h.fetches]
  · rw [sideAt, hstate, h.result]
    rfl

/-- A read of the present state. -/
theorem readAt_last (h : (s₀.exec acts).stage i = if isBids then 1 else 2)
    (ha : a = .run i ∨ ∃ token, a = .handleReadState token) :
    s₀.ReadAt (acts ++ [a]) i isBids n (side (s₀.exec acts).fsm_ isBids n) acts.length := by
  have hstate : stateAt step s₀ (acts ++ [a]) acts.length = s₀.exec acts := by
    rw [stateAt_append (Nat.le_refl _), stateAt_length]
    rfl
  refine ⟨?_, ?_, ?_⟩
  · simpa only [List.getElem?_concat_length, Option.some.injEq] using ha
  · rw [hstate, h]
  · rw [sideAt, hstate]

theorem Slot.snoc (h : s₀.Slot acts i isBids n lo slot) (hlo : lo ≤ acts.length)
    (hstage : (s₀.exec acts).stage i = if isBids then 1 else 2) :
    s₀.Slot (acts ++ [a]) i isBids n lo slot := by
  obtain ⟨hmode, p, hp, rfl, rfl, hdone⟩ := h
  have hframe := ((s₀.exec acts).step_moves a).1
  rw [Slot, exec_snoc, hframe.readMode]
  refine ⟨hmode, ?_⟩
  rcases hframe.reads hp with hp' | ⟨ha, hp'⟩
  · refine ⟨p, hp', rfl, rfl, fun hd => ?_⟩
    obtain ⟨j, hj, hread⟩ := hdone hd
    exact ⟨j, hj, hread.snoc⟩
  · exact ⟨_, hp', rfl, rfl, fun _ => ⟨acts.length, hlo, readAt_last hstage (Or.inr ha)⟩⟩

theorem stage_of_request (hr : (s₀.exec acts).requests[i]? = some r) :
    (s₀.exec acts).stage i = r.phase.stage := by
  rw [stage, hr]
  rfl

/-- A request that does not move keeps its record. -/
theorem Recorded.snoc (hr : (s₀.exec acts).requests[i]? = some r)
    (h : s₀.Recorded acts i n r.phase) : s₀.Recorded (acts ++ [a]) i n r.phase := by
  have hstage := stage_of_request hr
  cases hphase : r.phase with
  | readBids => trivial
  | awaitBids slot =>
    rw [hphase] at h hstage
    exact Slot.snoc h (Nat.zero_le _) hstage
  | readAsks bids =>
    rw [hphase] at h
    obtain ⟨j, hread⟩ := h
    exact ⟨j, hread.snoc⟩
  | awaitAsks bids slot =>
    rw [hphase] at h hstage
    obtain ⟨j, hread, hslot⟩ := h
    exact ⟨j, hread.snoc, hslot.snoc hread.before hstage⟩
  | returned bids asks =>
    rw [hphase] at h
    obtain ⟨j₁, hread₁, j₂, hlt, hread₂⟩ := h
    exact ⟨j₁, hread₁.snoc, j₂, hlt, hread₂.snoc⟩

/-- A read that does not give up reads the book now, or waits in a new slot. -/
theorem Serves.readSide {s : BookServer L} (h : s.Serves) (isBids : Bool) (n : Nat) :
    s.readSide isBids n = (.inl (side s.fsm_ isBids n), s) ∨
      s.readMode_ = .readIndex ∧ ∃ s', s.readSide isBids n = (.inr s.reads.length, s') ∧
        s'.reads[s.reads.length]? = some { maxLevels := n, isBids := isBids } := by
  unfold BookServer.readSide
  rw [if_neg (by rw [h.reader]; decide)]
  cases hmode : s.readMode_ with
  | direct => exact Or.inl rfl
  | leaseBased => exact Or.inl rfl
  | readIndex =>
    dsimp only
    rw [if_neg (by rw [h.leads hmode]; decide)]
    exact Or.inr ⟨rfl, _, rfl, List.getElem?_concat_length⟩

/-- A wait that does not give up goes on, or ends with what was read. -/
theorem Serves.await (h : (s₀.exec acts).Serves) (hslot : s₀.Slot acts i isBids n lo slot) :
    (s₀.exec acts).await slot = none ∨ ∃ result, (s₀.exec acts).await slot = some result ∧
      ∃ j, lo ≤ j ∧ s₀.ReadAt acts i isBids n result j := by
  obtain ⟨hmode, p, hp, -, -, hdone⟩ := hslot
  rw [BookServer.await, hp]
  dsimp only
  by_cases hd : p.done = true
  · rw [if_pos hd]
    exact Or.inr ⟨_, rfl, hdone hd⟩
  · rw [if_neg hd, if_pos (h.runs hmode)]
    exact Or.inl rfl

/-- The slot that a read has just been given. -/
theorem slot_new (hmode : (s₀.exec acts).readMode_ = .readIndex)
    (hnew : ((s₀.exec acts).step a).reads[slot]? = some { maxLevels := n, isBids := isBids }) :
    s₀.Slot (acts ++ [a]) i isBids n lo slot := by
  refine ⟨?_, { maxLevels := n, isBids := isBids }, ?_, rfl, rfl, fun hd => by cases hd⟩
  · rw [exec_snoc, ((s₀.exec acts).step_moves a).1.readMode, hmode]
  · rw [exec_snoc, hnew]

/-- The next step of the request itself. -/
theorem Recorded.progress (hr : (s₀.exec acts).requests[i]? = some r)
    (h : s₀.Recorded acts i r.maxLevels r.phase)
    (hserves : r.phase.stage ≤ 2 → (s₀.exec acts).Serves) (ha : a = .run i)
    (hreads : ((s₀.exec acts).step a).reads = ((s₀.exec acts).progress r).2.reads) :
    s₀.Recorded (acts ++ [a]) i r.maxLevels ((s₀.exec acts).progress r).1 := by
  have hkept := h.snoc (a := a) hr
  have hstage := stage_of_request hr
  cases hphase : r.phase with
  | readBids =>
    rw [hphase] at hserves hstage
    rcases (hserves (Nat.le_succ 1)).readSide true r.maxLevels with heq | ⟨hmode, s', heq, hnew⟩
    · simp only [BookServer.progress, hphase, readBids, heq]
      exact ⟨acts.length, readAt_last hstage (Or.inl ha)⟩
    · simp only [BookServer.progress, hphase, readBids, heq] at hreads ⊢
      exact slot_new hmode (by rw [hreads, hnew])
  | awaitBids slot =>
    rw [hphase] at h hserves
    rcases (hserves (Nat.le_succ 1)).await h with hnone | ⟨bids, hsome, j, -, hread⟩
    · simpa only [BookServer.progress, hphase, hnone] using hkept
    · simp only [BookServer.progress, hphase, hsome]
      exact ⟨j, hread.snoc⟩
  | readAsks bids =>
    rw [hphase] at h hserves hstage
    obtain ⟨j, hread⟩ := h
    rcases (hserves (Nat.le_refl 2)).readSide false r.maxLevels with heq | ⟨hmode, s', heq, hnew⟩
    · simp only [BookServer.progress, hphase, readAsks, heq]
      exact ⟨j, hread.snoc, acts.length, hread.before, readAt_last hstage (Or.inl ha)⟩
    · simp only [BookServer.progress, hphase, readAsks, heq] at hreads ⊢
      exact ⟨j, hread.snoc, slot_new hmode (by rw [hreads, hnew])⟩
  | awaitAsks bids slot =>
    rw [hphase] at h hserves
    obtain ⟨j, hread, hslot⟩ := h
    rcases (hserves (Nat.le_refl 2)).await hslot with hnone | ⟨asks, hsome, j₂, hlt, hread₂⟩
    · simpa only [BookServer.progress, hphase, hnone] using hkept
    · simp only [BookServer.progress, hphase, hsome]
      exact ⟨j, hread.snoc, j₂, hlt, hread₂.snoc⟩
  | returned bids asks => simpa only [BookServer.progress, hphase] using hkept

end Record

/-! ## One state of the book -/

section OneView

variable {s₀ : BookServer L} {acts : List BookAction} {i : Nat}

/-- The request has come and has not returned after the first `k` actions. -/
def RunsAt (s₀ : BookServer L) (acts : List BookAction) (i k : Nat) : Prop :=
  1 ≤ (stateAt step s₀ acts k).stage i ∧ (stateAt step s₀ acts k).stage i ≤ 2

/-- The server serves as long as the request runs. -/
def Served (s₀ : BookServer L) (acts : List BookAction) (i : Nat) : Prop :=
  ∀ k ≤ acts.length, s₀.RunsAt acts i k → (stateAt step s₀ acts k).Serves

/-- The two sides are those of one state that the book had during the request. -/
def OneView (s₀ : BookServer L) (acts : List BookAction) (i n : Nat) (bids asks : List PriceLevel) :
    Prop :=
  ∃ k ≤ acts.length, s₀.RunsAt acts i k ∧
    (bids, asks) = ((stateAt step s₀ acts k).fsm_.bids n, (stateAt step s₀ acts k).fsm_.asks n)

/-- The action at `p` leaves the side of the book as it is. -/
def Keeps (s₀ : BookServer L) (acts : List BookAction) (isBids : Bool) (n p : Nat) : Prop :=
  s₀.sideAt acts isBids n (p + 1) = s₀.sideAt acts isBids n p

/-- From `j₁` until `j₂` no action that changes the bids is followed by, or is, one that changes the
asks. -/
def Ordered (s₀ : BookServer L) (acts : List BookAction) (n j₁ j₂ : Nat) : Prop :=
  ∀ p q, j₁ ≤ p → p ≤ q → q < j₂ → s₀.Keeps acts true n p ∨ s₀.Keeps acts false n q

theorem recorded_exec (hstart : s₀.requests = []) (hserved : s₀.Served acts i) {r : BookRequest}
    (hr : (s₀.exec acts).requests[i]? = some r) : s₀.Recorded acts i r.maxLevels r.phase := by
  induction acts using List.reverseRecOn generalizing r with
  | nil =>
    rw [exec, List.foldl_nil, hstart] at hr
    cases hr
  | append_singleton acts a ih =>
    have hserved' : s₀.Served acts i := by
      intro k hk hruns
      have hstate : stateAt step s₀ (acts ++ [a]) k = stateAt step s₀ acts k :=
        stateAt_append hk [a]
      rw [RunsAt, ← hstate] at hruns
      rw [← hstate]
      exact hserved k (by rw [List.length_append]; omega) hruns
    rw [exec_snoc] at hr
    rcases step_request hr with hold | hnew | ⟨r₀, hr₀, ha, rfl, hreads⟩
    · exact (ih hserved' hold).snoc hold
    · rw [hnew]
      trivial
    · refine (ih hserved' hr₀).progress hr₀ (fun hend => ?_) ha hreads
      have hlast := hserved' acts.length (Nat.le_refl _)
      rw [RunsAt, stateAt_length] at hlast
      rw [show (acts.foldl step s₀).stage i = r₀.phase.stage from stage_of_request hr₀] at hlast
      exact hlast ⟨r₀.phase.stage_pos, hend⟩

theorem stage_mono {j k : Nat} (hjk : j ≤ k) :
    (stateAt step s₀ acts j).stage i ≤ (stateAt step s₀ acts k).stage i :=
  stateAt_mono (P := fun s : BookServer L => (stateAt step s₀ acts j).stage i ≤ s.stage i)
    (fun s a h => h.trans (s.stage_le_step a)) hjk (Nat.le_refl _)

theorem ReadAt.runsAt {isBids : Bool} {n j : Nat} {result : List PriceLevel}
    (h : s₀.ReadAt acts i isBids n result j) : s₀.RunsAt acts i j := by
  rw [RunsAt, h.fetches]
  cases isBids <;> decide

end OneView

instance (s₀ : BookServer L) (acts : List BookAction) (i k : Nat) :
    Decidable (s₀.RunsAt acts i k) := inferInstanceAs (Decidable (_ ∧ _))

instance (s₀ : BookServer L) (acts : List BookAction) (i n : Nat) (bids asks : List PriceLevel) :
    Decidable (s₀.OneView acts i n bids asks) :=
  inferInstanceAs (Decidable (∃ k, k ≤ acts.length ∧ _))

/-- A server with an empty book. -/
def fresh (readMode : ReadMode) (isLeader : Bool) : BookServer MapLevels :=
  { readMode_ := readMode, bookReader_ := true, isLeader := isLeader, fsm_ := .new [] }

/-- An ask of 5 at 101. -/
def restAsk : BookAction := .apply (OrderProtocol.encodeNew 1 .sell 101 5) []

/-- A ReadIndex read on the leader; between the two `ReadState`s an ask is added, then a bid. -/
def askThenBid : List BookAction :=
  [restAsk, .readBook 0, .run 0, .handleReadState (putU64 1), .run 0, .run 0,
    .apply (OrderProtocol.encodeNew 2 .sell 102 4) [],
    .apply (OrderProtocol.encodeNew 3 .buy 99 7) [], .handleReadState (putU64 2), .run 0]

/-- A request returns two sides that no state of the book had together while it ran. -/
def Torn (s₀ : BookServer L) (acts : List BookAction) : Prop :=
  ∃ i r bids asks, (s₀.exec acts).requests[i]? = some r ∧ r.phase = .returned bids asks ∧
    ¬ s₀.OneView acts i r.maxLevels bids asks

/-- A bid of 8 at 101, of which 3 rest. -/
def sweepAsk : BookAction := .apply (OrderProtocol.encodeNew 2 .buy 101 8) []

end BookServer

end NexusLOB.App
