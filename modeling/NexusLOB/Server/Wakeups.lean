import Mathlib.Logic.Relation
import NexusLOB.Concurrency.Monitor
import NexusLOB.Concurrency.Runs
import NexusLOB.Server.Proposals

/-!
# Clients that wait and are woken

A client waits on `pendingCv_` until the flag of its slot is set. `applyCommittedEntries` takes the
slot out of `pending_` under `pendingMutex_`, and writes the flag and calls `notify_one` after it
has released the mutex. All clients wait on the one condition variable.

Here the steps of `Server.answer` are apart, and so are those of a waiting client. The server keeps
running: `stop` wakes everybody. A client is forgotten if it is blocked with its flag set and its
notification is no longer to come. That happens in two ways: the notification comes between the
client's check and its block, or it wakes another client. In every run these are the only ways.
-/

namespace NexusLOB.App

open Raft Collections Concurrency

namespace Server

variable {σ : Type}

/-- `pending->done`. -/
def isDone (sv : Server σ) (k : Nat) : Bool := sv.proposals[k]?.any (·.done)

/-- The client's slot gets the result and the flag. -/
def complete (sv : Server σ) (k : Nat) (result : Bytes) : Server σ :=
  { sv with
    answering := none
    proposals := sv.proposals.modify k fun p => { p with rawResult := result, done := true } }

end Server

/-- How far the loop is with the entry it has applied. -/
inductive LoopPlace
  | atEntry
  /-- Client `k` is out of `pending_`. -/
  | found (k : Nat)
  /-- The flag of client `k` is set, and `notify_one` comes next. -/
  | flagged (k : Nat)
  deriving DecidableEq, Repr

/-- The server with `pendingMutex_` and `pendingCv_`. The thread of a client has the place of its
slot. -/
structure WaitingServer (σ : Type) where
  server : Server σ
  monitor : Monitor := {}
  place : LoopPlace := .atEntry
  /-- The history of `notify_one` calls: for whom each was made. -/
  notified : List Nat := []

inductive WaitAction
  /-- `onClientRequest` or `submitRaw` up to the wait. -/
  | propose (idx : Nat) (e : Entry)
  | lock (k : Nat)
  | check (k : Nat)
  | block (k : Nat)
  /-- `applyCommittedEntries` is called. -/
  | handOut (entries : List Entry)
  | applyEntry
  | take
  | setDone
  /-- `notify_one`, which wakes client `w` if any. -/
  | notifyOne (w : Nat)
  deriving Repr

namespace WaitingServer

variable {σ : Type}

/-- The registration needs the mutex as well. -/
def propose (s : WaitingServer σ) (idx : Nat) (e : Entry) : WaitingServer σ :=
  if s.monitor.holder = none then
    { s with server := s.server.register idx e, monitor := s.monitor.enter }
  else s

def handOut (s : WaitingServer σ) (entries : List Entry) : WaitingServer σ :=
  if s.place = .atEntry ∧ s.server.applying = [] ∧ s.server.answering = none then
    { s with server := { s.server with applying := entries } }
  else s

def applyEntry (apply : σ → Bytes → Bytes × σ) (s : WaitingServer σ) : WaitingServer σ :=
  if s.place = .atEntry then { s with server := s.server.applyEntry apply } else s

/-- The critical section of `applyCommittedEntries`. -/
def take (s : WaitingServer σ) : WaitingServer σ :=
  match s.place, s.server.answering with
  | .atEntry, some (e, _) =>
    if s.monitor.holder = none then
      match s.server.pending_.find? e.index with
      | none => { s with server := { s.server with answering := none } }
      | some k =>
        { s with
          server := { s.server with pending_ := s.server.pending_.erase e.index }
          place := .found k }
    else s
  | _, _ => s

def setDone (s : WaitingServer σ) : WaitingServer σ :=
  match s.place, s.server.answering with
  | .found k, some (_, result) =>
    { s with server := s.server.complete k result, place := .flagged k }
  | _, _ => s

def notifyOne (s : WaitingServer σ) (w : Nat) : WaitingServer σ :=
  match s.place with
  | .flagged k =>
    if s.monitor.mayWake w then
      { s with
        monitor := s.monitor.notifyOne w
        place := .atEntry
        notified := s.notified ++ [k] }
    else s
  | _ => s

def step (apply : σ → Bytes → Bytes × σ) (s : WaitingServer σ) : WaitAction → WaitingServer σ
  | .propose idx e => s.propose idx e
  | .lock k => { s with monitor := s.monitor.lock k }
  | .check k => { s with monitor := s.monitor.check k (s.server.isDone k) }
  | .block k => { s with monitor := s.monitor.block k }
  | .handOut entries => s.handOut entries
  | .applyEntry => s.applyEntry apply
  | .take => s.take
  | .setDone => s.setDone
  | .notifyOne w => s.notifyOne w

/-- Before the first client. -/
def start (fsm : σ) : WaitingServer σ := { server := { fsm_ := fsm } }

/-- A client that is blocked although its command is done is about to be notified. -/
def NoneForgotten (s : WaitingServer σ) : Prop :=
  ∀ k, s.monitor.Blocked k → s.server.isDone k = true → s.place = .flagged k

/-- A client does not block when its notification has been made, and the notification of a blocked
client wakes that client. -/
def Timely (s : WaitingServer σ) : WaitAction → Prop
  | .block k => s.monitor.Decided k → k ∉ s.notified
  | .notifyOne w => ∀ k, s.place = .flagged k → s.monitor.Blocked k → s.monitor.Blocked w → w = k
  | _ => True

/-- Every client is answered and notified at most once. -/
structure Tracked (s : WaitingServer σ) : Prop where
  waiting : ∀ {idx k}, s.server.pending_.find? idx = some k →
    k < s.server.proposals.length ∧ s.server.isDone k = false ∧ s.place ≠ .found k
  distinct : ∀ {i j k}, s.server.pending_.find? i = some k →
    s.server.pending_.find? j = some k → i = j
  found : ∀ {k}, s.place = .found k → k < s.server.proposals.length ∧ s.server.isDone k = false
  done : ∀ k, s.server.isDone k = true ↔ k ∈ s.notified ∨ s.place = .flagged k
  once : ∀ {k}, s.place = .flagged k → k ∉ s.notified

end WaitingServer

/-! ## The flags -/

namespace Server

variable {σ : Type} (sv : Server σ)

theorem isDone_register (idx : Nat) (e : Entry) (k : Nat) :
    (sv.register idx e).isDone k = sv.isDone k := by
  unfold isDone register
  rw [getElem?_concat]
  split_ifs with hk
  · rw [hk, List.getElem?_eq_none (Nat.le_refl _)]
    rfl
  · rfl

theorem isDone_complete {k : Nat} (hk : k < sv.proposals.length) (result : Bytes) (j : Nat) :
    (sv.complete k result).isDone j = true ↔ sv.isDone j = true ∨ j = k := by
  unfold isDone complete
  by_cases hj : j = k
  · subst hj
    rw [List.getElem?_modify_eq, List.getElem?_eq_getElem hk]
    exact iff_of_true rfl (Or.inr rfl)
  · rw [List.getElem?_modify_ne _ _ (Ne.symm hj)]
    exact (or_iff_left hj).symm

theorem applyEntry_proposals (apply : σ → Bytes → Bytes × σ) :
    (sv.applyEntry apply).proposals = sv.proposals ∧
      (sv.applyEntry apply).pending_ = sv.pending_ := by
  unfold applyEntry
  split
  · exact ⟨rfl, rfl⟩
  · exact ⟨rfl, rfl⟩

end Server

namespace WaitingServer

variable {σ : Type} {s : WaitingServer σ}

/-! ## Every step keeps track -/

theorem tracked_start (fsm : σ) : (start fsm).Tracked where
  waiting h := by cases h
  distinct h := by cases h
  found h := by cases h
  done k := by
    refine iff_of_false (by exact Bool.false_ne_true) ?_
    rintro (hk | hk) <;> cases hk
  once h := by cases h

namespace Tracked

/-- A step that leaves the slots, `pending_` and the loop's place alone. -/
theorem congr {s' : WaitingServer σ} (hs : s.Tracked)
    (hproposals : s'.server.proposals = s.server.proposals)
    (hpending : s'.server.pending_ = s.server.pending_) (hplace : s'.place = s.place)
    (hnotified : s'.notified = s.notified) : s'.Tracked := by
  have hdone : ∀ k, s'.server.isDone k = s.server.isDone k := fun k => by
    rw [Server.isDone, hproposals, Server.isDone]
  constructor
  · intro idx k h
    rw [hproposals, hdone, hplace]
    exact hs.waiting (hpending ▸ h)
  · intro i j k hi hj
    exact hs.distinct (hpending ▸ hi) (hpending ▸ hj)
  · intro k h
    rw [hproposals, hdone]
    exact hs.found (hplace ▸ h)
  · intro k
    rw [hdone, hplace, hnotified]
    exact hs.done k
  · intro k h
    rw [hnotified]
    exact hs.once (hplace ▸ h)

theorem propose (hs : s.Tracked) (idx : Nat) (e : Entry) : (s.propose idx e).Tracked := by
  unfold WaitingServer.propose
  split_ifs
  · constructor
    · intro i k h
      simp only [Server.isDone_register]
      simp only [Server.register, OrderedMap.find?_insert_eq, Function.update_apply] at h
      split_ifs at h with hi
      · -- the new client: no older client has its place
        cases h
        have hnew : s.server.isDone s.server.proposals.length = false := by
          rw [Server.isDone, List.getElem?_eq_none (Nat.le_refl _)]
          rfl
        refine ⟨by simp [Server.register], hnew, ?_⟩
        intro hplace
        exact Nat.lt_irrefl _ (hs.found hplace).1
      · obtain ⟨hk, hnot, hplace⟩ := hs.waiting h
        exact ⟨by simp only [Server.register, List.length_append]; omega, hnot, hplace⟩
    · intro i j k hi hj
      simp only [Server.register, OrderedMap.find?_insert_eq, Function.update_apply] at hi hj
      split_ifs at hi hj with hi' hj' hj'
      · rw [hi', hj']
      · cases hi
        exact absurd (hs.waiting hj).1 (Nat.lt_irrefl _)
      · cases hj
        exact absurd (hs.waiting hi).1 (Nat.lt_irrefl _)
      · exact hs.distinct hi hj
    · intro k h
      rw [Server.isDone_register]
      obtain ⟨hk, hnot⟩ := hs.found h
      exact ⟨by simp only [Server.register, List.length_append]; omega, hnot⟩
    · intro k
      rw [Server.isDone_register]
      exact hs.done k
    · exact hs.once
  · exact hs

theorem take (hs : s.Tracked) : s.take.Tracked := by
  unfold WaitingServer.take
  split
  · rename_i e result hplace hanswering
    split_ifs
    · split
      · exact hs.congr rfl rfl rfl rfl
      · rename_i k hk
        obtain ⟨hlt, hnot, -⟩ := hs.waiting hk
        constructor
        · intro i j h
          rw [OrderedMap.find?_erase_eq, Function.update_apply] at h
          split_ifs at h with hi
          obtain ⟨hj, hjnot, -⟩ := hs.waiting h
          refine ⟨hj, hjnot, ?_⟩
          -- the client that was found waits nowhere else
          rintro ⟨⟩
          exact hi (hs.distinct h hk)
        · intro i j l hi hj
          rw [OrderedMap.find?_erase_eq, Function.update_apply] at hi hj
          split_ifs at hi hj
          exact hs.distinct hi hj
        · rintro j ⟨⟩
          exact ⟨hlt, hnot⟩
        · intro j
          refine (hs.done j).trans (or_congr Iff.rfl (iff_of_false ?_ ?_))
          · rw [hplace]
            exact LoopPlace.noConfusion
          · exact LoopPlace.noConfusion
        · rintro j ⟨⟩
    · exact hs
  · exact hs

theorem setDone (hs : s.Tracked) : s.setDone.Tracked := by
  unfold WaitingServer.setDone
  split
  · rename_i k e result hplace hanswering
    obtain ⟨hlt, hnot⟩ := hs.found hplace
    have hlen : (s.server.complete k result).proposals.length = s.server.proposals.length :=
      List.length_modify ..
    constructor
    · intro i j h
      obtain ⟨hj, hjnot, hne⟩ := hs.waiting h
      refine ⟨hlen ▸ hj, ?_, LoopPlace.noConfusion⟩
      rw [← Bool.not_eq_true, Server.isDone_complete _ hlt]
      rintro (hdone | rfl)
      · exact Bool.false_ne_true (hjnot.symm.trans hdone)
      · exact hne hplace
    · exact hs.distinct
    · rintro j ⟨⟩
    · intro j
      rw [Server.isDone_complete _ hlt, hs.done j, hplace]
      constructor
      · rintro ((hj | hj) | rfl)
        · exact Or.inl hj
        · cases hj
        · exact Or.inr rfl
      · rintro (hj | hj)
        · exact Or.inl (Or.inl hj)
        · cases hj
          exact Or.inr rfl
    · rintro _ ⟨⟩ hk
      -- its flag was not set, so it has not been notified
      exact Bool.false_ne_true (hnot.symm.trans ((hs.done k).mpr (Or.inl hk)))
  · exact hs

theorem notifyOne (hs : s.Tracked) (w : Nat) : (s.notifyOne w).Tracked := by
  unfold WaitingServer.notifyOne
  split
  · rename_i k hplace
    split_ifs
    · constructor
      · intro i j h
        obtain ⟨hj, hjnot, -⟩ := hs.waiting h
        exact ⟨hj, hjnot, LoopPlace.noConfusion⟩
      · exact hs.distinct
      · rintro j ⟨⟩
      · intro j
        rw [hs.done j, hplace, List.mem_append, List.mem_singleton]
        constructor
        · rintro (hj | hj)
          · exact Or.inl (Or.inl hj)
          · cases hj
            exact Or.inl (Or.inr rfl)
        · rintro ((hj | rfl) | hj)
          · exact Or.inl hj
          · exact Or.inr rfl
          · cases hj
      · rintro j ⟨⟩
    · exact hs
  · exact hs

theorem step (apply : σ → Bytes → Bytes × σ) (hs : s.Tracked) (a : WaitAction) :
    (s.step apply a).Tracked := by
  cases a with
  | propose idx e => exact hs.propose idx e
  | lock k => exact hs.congr rfl rfl rfl rfl
  | check k => exact hs.congr rfl rfl rfl rfl
  | block k => exact hs.congr rfl rfl rfl rfl
  | handOut entries =>
    simp only [WaitingServer.step, handOut]
    split_ifs
    · exact hs.congr rfl rfl rfl rfl
    · exact hs
  | applyEntry =>
    simp only [WaitingServer.step, WaitingServer.applyEntry]
    split_ifs
    · obtain ⟨hproposals, hpending⟩ := s.server.applyEntry_proposals apply
      exact hs.congr hproposals hpending rfl rfl
    · exact hs
  | take => exact hs.take
  | setDone => exact hs.setDone
  | notifyOne w => exact hs.notifyOne w

end Tracked

/-! ## The steps make up those of the server -/

/-- What the server's parts can do to it: the coarse steps. -/
inductive Moves (apply : σ → Bytes → Bytes × σ) (sv : Server σ) : Server σ → Prop
  | stay : Moves apply sv sv
  | register (idx : Nat) (e : Entry) : Moves apply sv (sv.register idx e)
  | handOut (entries : List Entry) : sv.applying = [] → sv.answering = none →
      Moves apply sv { sv with applying := entries }
  | applyEntry : Moves apply sv (sv.applyEntry apply)
  | answer : Moves apply sv sv.answer

/-- The server with the write that is due for a client out of `pending_`. -/
def settled (s : WaitingServer σ) : Server σ :=
  match s.place, s.server.answering with
  | .found k, some (_, result) => s.server.complete k result
  | _, _ => s.server

theorem settled_of_place (h : ∀ k, s.place ≠ .found k) : s.settled = s.server := by
  unfold settled
  split
  · rename_i k _ _ hplace _
    exact absurd hplace (h k)
  · rfl

theorem complete_register {sv : Server σ} {k : Nat} (hk : k < sv.proposals.length)
    (result : Bytes) (idx : Nat) (e : Entry) :
    (sv.register idx e).complete k result = (sv.complete k result).register idx e := by
  simp only [Server.register, Server.complete, List.length_modify]
  rw [List.modify_eq_set_getElem?, List.modify_eq_set_getElem?, List.getElem?_append_left hk,
    List.getElem?_eq_getElem hk]
  simp only [Option.map_eq_map, Option.map_some, Option.getD_some, List.set_append_left _ _ hk]

theorem settled_propose (hs : s.Tracked) (idx : Nat) (e : Entry) :
    settled { s with server := s.server.register idx e, monitor := s.monitor.enter } =
      s.settled.register idx e := by
  unfold settled
  simp only [show (s.server.register idx e).answering = s.server.answering from rfl]
  split
  · rename_i hplace _
    exact complete_register (hs.found hplace).1 _ idx e
  · rfl

theorem settled_take (s : WaitingServer σ) :
    s.take.settled = s.settled ∨ s.take.settled = s.settled.answer := by
  unfold take
  split
  · rename_i e result hplace hanswering
    split_ifs
    · right
      have hsettled : s.settled = s.server := settled_of_place (by rw [hplace]; simp)
      rw [hsettled, Server.answer, hanswering]
      split
      · rename_i hfind
        simp only [hfind]
        exact settled_of_place (by simp [hplace])
      · rename_i k hfind
        simp only [hfind, settled, Server.complete, hanswering]
    · exact Or.inl rfl
  · exact Or.inl rfl

theorem settled_setDone (s : WaitingServer σ) : s.setDone.settled = s.settled := by
  unfold setDone
  split
  · rename_i k e result hplace hanswering
    simp only [settled, hplace, hanswering]
  · rfl

theorem settled_notifyOne (s : WaitingServer σ) (w : Nat) :
    (s.notifyOne w).settled = s.settled := by
  unfold notifyOne
  split
  · rename_i k hplace
    split_ifs
    · simp only [settled, hplace]
    · rfl
  · rfl

theorem settled_step (apply : σ → Bytes → Bytes × σ) (hs : s.Tracked) (a : WaitAction) :
    Moves apply s.settled (s.step apply a).settled := by
  cases a with
  | propose idx e =>
    simp only [step, propose]
    split_ifs
    · rw [settled_propose hs]
      exact .register idx e
    · exact .stay
  | lock k => exact .stay
  | check k => exact .stay
  | block k => exact .stay
  | handOut entries =>
    simp only [step, handOut]
    split_ifs with h
    · rw [settled_of_place (by simp [h.1]), settled_of_place (by simp [h.1])]
      exact .handOut entries h.2.1 h.2.2
    · exact .stay
  | applyEntry =>
    simp only [step, applyEntry]
    split_ifs with h
    · rw [settled_of_place (by simp [h]), settled_of_place (by simp [h])]
      exact .applyEntry
    · exact .stay
  | take =>
    rcases s.settled_take with h | h
    · simp only [step, h]
      exact .stay
    · simp only [step, h]
      exact .answer
  | setDone =>
    simp only [step, settled_setDone]
    exact .stay
  | notifyOne w =>
    simp only [step, settled_notifyOne]
    exact .stay

/-- Every run is, up to the write that is due, a run of the server in coarse steps. -/
theorem settled_run (apply : σ → Bytes → Bytes × σ) (fsm : σ) (acts : List WaitAction) :
    Relation.ReflTransGen (Moves apply) { fsm_ := fsm }
      (acts.foldl (step apply) (start fsm)).settled := by
  suffices h : ∀ s : WaitingServer σ, s.Tracked →
      Relation.ReflTransGen (Moves apply) s.settled (acts.foldl (step apply) s).settled from
    h (start fsm) (tracked_start fsm)
  induction acts with
  | nil => exact fun s _ => .refl
  | cons a acts ih => exact fun s hs => .head (settled_step apply hs a) (ih _ (hs.step apply a))

/-! ## Which step forgets a client -/

/-- A step that changes neither who is blocked, nor a flag, nor the loop's place. -/
theorem NoneForgotten.congr {s' : WaitingServer σ} (hn : s.NoneForgotten)
    (hblocked : ∀ k, s'.monitor.Blocked k ↔ s.monitor.Blocked k)
    (hdone : ∀ k, s'.server.isDone k = s.server.isDone k) (hplace : s'.place = s.place) :
    s'.NoneForgotten := by
  intro k hk hk'
  rw [hplace]
  exact hn k ((hblocked k).mp hk) ((hdone k).symm.trans hk')

theorem noneForgotten_block (hs : s.Tracked) (hn : s.NoneForgotten) (k : Nat) :
    NoneForgotten { s with monitor := s.monitor.block k } ↔
      (s.monitor.Decided k → k ∉ s.notified) := by
  constructor
  · intro hn' hdecided hk
    have hdone := (hs.done k).mpr (Or.inl hk)
    have hplace := hn' k ((s.monitor.blocked_block k k).mpr (Or.inr ⟨rfl, hdecided⟩)) hdone
    exact hs.once hplace hk
  · intro htimely j hj hdone
    rcases (s.monitor.blocked_block k j).mp hj with hj | ⟨rfl, hdecided⟩
    · exact hn j hj hdone
    · exact ((hs.done j).mp hdone).resolve_left (htimely hdecided)

theorem noneForgotten_take (hn : s.NoneForgotten) : s.take.NoneForgotten := by
  unfold take
  split
  · rename_i hplace hanswering
    split_ifs
    · split
      · exact hn
      · intro j hj hdone
        have hflagged := hn j hj hdone
        rw [hplace] at hflagged
        cases hflagged
    · exact hn
  · exact hn

theorem noneForgotten_setDone (hs : s.Tracked) (hn : s.NoneForgotten) :
    s.setDone.NoneForgotten := by
  unfold setDone
  split
  · rename_i k e result hplace hanswering
    intro j hj hdone
    rcases (s.server.isDone_complete (hs.found hplace).1 result j).mp hdone with hdone | rfl
    · have hflagged := hn j hj hdone
      rw [hplace] at hflagged
      cases hflagged
    · rfl
  · exact hn

theorem noneForgotten_notifyOne (hs : s.Tracked) (hn : s.NoneForgotten) (w : Nat) :
    (s.notifyOne w).NoneForgotten ↔
      ∀ k, s.place = .flagged k → s.monitor.Blocked k → s.monitor.Blocked w → w = k := by
  unfold notifyOne
  split
  · rename_i k hplace
    split_ifs with hwake
    · constructor
      · intro hn' j hj hblocked hw
        by_contra hne
        have hstill := (s.monitor.blocked_notifyOne w j).mpr ⟨hblocked, Ne.symm hne⟩
        have hflagged := hn' j hstill ((hs.done j).mpr (Or.inr hj))
        cases hflagged
      · intro htimely j hj hdone
        obtain ⟨hblocked, hne⟩ := (s.monitor.blocked_notifyOne w j).mp hj
        have hw := Monitor.blocked_of_mayWake hwake hblocked
        exact absurd (htimely j (hn j hblocked hdone) hblocked hw).symm hne
    · refine iff_of_true hn ?_
      intro j _ _ hw
      exact absurd (by rw [Monitor.mayWake, decide_eq_true hw, Bool.true_or]) hwake
  · rename_i hplace
    refine iff_of_true hn ?_
    intro j hj
    exact absurd hj (hplace j)

theorem noneForgotten_step (apply : σ → Bytes → Bytes × σ) (s : WaitingServer σ) (a : WaitAction)
    (hs : s.Tracked) (hn : s.NoneForgotten) : (s.step apply a).NoneForgotten ↔ s.Timely a := by
  cases a with
  | propose idx e =>
    refine iff_of_true ?_ trivial
    simp only [step, propose]
    split_ifs
    · exact hn.congr s.monitor.blocked_enter (s.server.isDone_register idx e) rfl
    · exact hn
  | lock k =>
    exact iff_of_true (hn.congr (s.monitor.blocked_lock k) (fun _ => rfl) rfl) trivial
  | check k =>
    exact iff_of_true (hn.congr (s.monitor.blocked_check k _) (fun _ => rfl) rfl) trivial
  | block k => exact noneForgotten_block hs hn k
  | handOut entries =>
    refine iff_of_true ?_ trivial
    simp only [step, handOut]
    split_ifs
    · exact hn
    · exact hn
  | applyEntry =>
    refine iff_of_true ?_ trivial
    simp only [step, applyEntry]
    split_ifs
    · refine hn.congr (fun _ => Iff.rfl) (fun k => ?_) rfl
      rw [Server.isDone, (s.server.applyEntry_proposals apply).1, Server.isDone]
    · exact hn
  | take => exact iff_of_true (noneForgotten_take hn) trivial
  | setDone => exact iff_of_true (noneForgotten_setDone hs hn) trivial
  | notifyOne w => exact noneForgotten_notifyOne hs hn w

/-- In every run, no client is ever forgotten exactly if every step is timely. -/
theorem no_client_is_forgotten_iff (apply : σ → Bytes → Bytes × σ) (fsm : σ)
    (acts : List WaitAction) :
    (∀ s ∈ states (step apply) (start fsm) acts, s.NoneForgotten) ↔
      EachStep (step apply) Timely (start fsm) acts := by
  refine forall_mem_states_iff (fun s a hs => hs.step apply a) (noneForgotten_step apply)
    (tracked_start fsm) ?_ acts
  intro k hblocked
  cases hblocked

/-- The entries of two clients. -/
def firstEntry : Entry := { term := 1, index := 1, type := .normal, data := [1] }

def secondEntry : Entry := { term := 1, index := 2, type := .normal, data := [2] }

/-- The loop takes the client out of `pending_` before the client checks its flag, and notifies it
before it blocks. -/
def notifiedTooEarly : List WaitAction :=
  [.propose 1 firstEntry, .handOut [firstEntry], .applyEntry, .take, .lock 0, .check 0, .setDone,
    .notifyOne 0, .block 0]

/-- Two clients are blocked, and the first one's notification wakes the second. -/
def notifiedAnother : List WaitAction :=
  [.propose 1 firstEntry, .propose 2 secondEntry, .lock 0, .check 0, .block 0, .lock 1, .check 1,
    .block 1, .handOut [firstEntry], .applyEntry, .take, .setDone, .notifyOne 1]

theorem a_client_is_forgotten :
    (∃ s ∈ states (step fun fsm data => (data, fsm)) (start ()) notifiedTooEarly,
      ¬ s.NoneForgotten) ∧
    ∃ s ∈ states (step fun fsm data => (data, fsm)) (start ()) notifiedAnother,
      ¬ s.NoneForgotten := by
  constructor
  · refine ⟨_, List.getLast_mem (by decide), fun h => ?_⟩
    exact absurd (h 0 (by decide) (by decide)) (by decide)
  · refine ⟨_, List.getLast_mem (by decide), fun h => ?_⟩
    exact absurd (h 0 (by decide) (by decide)) (by decide)

end WaitingServer

end NexusLOB.App
