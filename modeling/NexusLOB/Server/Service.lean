import NexusLOB.Raft.InOrder
import NexusLOB.Server.OwnResult

/-!
# Servers on every member

The whole service: a cluster in which each member runs a `Server` with clients of its own. A step is
a message that arrives at a member, or a step of one member's process, which is what that process
does in a deployment that looks at it alone.

A server applies exactly what its node hands out, in that order. The state of its state machine and
the result that it recorded for each entry are those of running the commands one after the other.
-/

namespace NexusLOB.App

open Raft Collections

/-- A cluster with the server of every member. -/
structure Service (σ : Type) where
  cluster : Cluster
  servers : NodeId → Server σ

/-- What the threads of one process do. -/
inductive ProcessAction (Req : Type)
  | run (ev : Event)
  | onClientRequest (req : Req)
  | submitRaw (cmd : Bytes)
  | applyEntry
  | answer
  deriving Repr

/-- The same in a system that looks at this process, that of node `n`. -/
def ProcessAction.inSystem {Req : Type} (n : NodeId) : ProcessAction Req → SystemAction Req
  | .run ev => .raft (.run n ev)
  | .onClientRequest req => .onClientRequest req
  | .submitRaw cmd => .submitRaw cmd
  | .applyEntry => .applyEntry
  | .answer => .answer

inductive ServiceAction (Req : Type)
  | deliver (k draw : Nat)
  | process (n : NodeId) (a : ProcessAction Req)
  deriving Repr

namespace Service

variable {σ : Type}

/-- What a process sees of the service: the cluster and its own server. -/
def system (sv : Service σ) (n : NodeId) : System σ :=
  { cluster := sv.cluster, server := sv.servers n }

def put (sv : Service σ) (n : NodeId) (sys : System σ) : Service σ :=
  { cluster := sys.cluster, servers := Function.update sv.servers n sys.server }

end Service

namespace Deployment

variable {σ Req : Type} (d : Deployment σ Req)

/-- The deployment with the server of member `n` looked at. -/
def seenFrom (n : NodeId) : Deployment σ Req := { d with self := n }

def serviceInit : Service σ :=
  { cluster := Cluster.init d.setup, servers := fun _ => { fsm_ := d.fsm₀ } }

def serviceStep (sv : Service σ) : ServiceAction Req → Service σ
  | .deliver k draw => { sv with cluster := sv.cluster.step d.setup (.deliver k draw) }
  | .process n a => sv.put n ((d.seenFrom n).step (sv.system n) (a.inSystem n))

def serviceExec (acts : List (ServiceAction Req)) : Service σ :=
  acts.foldl d.serviceStep d.serviceInit

/-- No process crashes, and no message arrives that the receiver's log does not heed. -/
def ServiceHeeded (sv : Service σ) : ServiceAction Req → Prop
  | .deliver k draw => sv.cluster.Heeded d.setup (.deliver k draw)
  | .process n (.run ev) => sv.cluster.Heeded d.setup (.run n ev)
  | .process _ _ => True

instance (sv : Service σ) (a : ServiceAction Req) : Decidable (d.ServiceHeeded sv a) :=
  match a with
  | .deliver k draw => inferInstanceAs (Decidable (sv.cluster.Heeded d.setup (.deliver k draw)))
  | .process n (.run ev) => inferInstanceAs (Decidable (sv.cluster.Heeded d.setup (.run n ev)))
  | .process _ (.onClientRequest _) | .process _ (.submitRaw _) | .process _ .applyEntry
  | .process _ .answer => isTrue trivial

def HeededService : Service σ → List (ServiceAction Req) → Prop
  | _, [] => True
  | sv, a :: rest => d.ServiceHeeded sv a ∧ HeededService (d.serviceStep sv a) rest

instance decidableHeededService : (sv : Service σ) → (acts : List (ServiceAction Req)) →
    Decidable (d.HeededService sv acts)
  | _, [] => isTrue trivial
  | sv, a :: rest =>
    have := decidableHeededService (d.serviceStep sv a) rest
    inferInstanceAs (Decidable (_ ∧ _))

theorem heededService_append (sv : Service σ) (acts more : List (ServiceAction Req)) :
    d.HeededService sv (acts ++ more) ↔
      d.HeededService sv acts ∧ d.HeededService (acts.foldl d.serviceStep sv) more := by
  induction acts generalizing sv with
  | nil => exact ⟨fun h => ⟨trivial, h⟩, And.right⟩
  | cons a rest ih => simp only [List.cons_append, HeededService, ih, List.foldl_cons, and_assoc]

end Deployment

/-! ## Running commands one after the other -/

/-- The state machine after a sequence of entries. -/
def runAll {σ : Type} (apply : σ → Bytes → Bytes × σ) (st : σ) (es : List Entry) : σ :=
  es.foldl (fun st e => (apply st e.data).2) st

theorem runAll_concat {σ : Type} (apply : σ → Bytes → Bytes × σ) (st : σ) (es : List Entry)
    (e : Entry) : runAll apply st (es ++ [e]) = (apply (runAll apply st es) e.data).2 := by
  rw [runAll, List.foldl_append]
  rfl

/-! ## A server and its own node -/

namespace Deployment

variable {σ Req : Type}

/-- A server between two steps, beside the node it serves. -/
structure Serves (d : Deployment σ Req) (p : Peer) (sv : Server σ) : Prop where
  /-- Whoever waits under an index proposed an entry there. -/
  waiting : ∀ {idx k}, sv.pending_.find? idx = some k →
    ∃ q, sv.proposals[k]? = some q ∧ q.entry.index = idx
  answering : ∀ {er}, sv.answering = some er → er ∈ sv.results
  /-- The entries handed out are applied in order, each once. -/
  applied : sv.results.map Prod.fst ++ sv.applying = p.delivered
  idle : p.ready = none → sv.applying = [] ∧ sv.answering = none
  /-- Each result is that of the command after those before it. -/
  sequential : ∀ {k e r}, sv.results[k]? = some (e, r) →
    r = (d.apply (runAll d.apply d.fsm₀ ((sv.results.map Prod.fst).take k)) e.data).1
  fsm : sv.fsm_ = runAll d.apply d.fsm₀ (sv.results.map Prod.fst)
  appliedIndex : sv.appliedIndex_ = ((sv.results.map Prod.fst).getLast?.map Entry.index).getD 0
  /-- A client that is done has the result of the entry at its index. -/
  done : ∀ q ∈ sv.proposals, q.done = true →
    ∃ e, (e, q.rawResult) ∈ sv.results ∧ e.index = q.entry.index

section Serves

variable {d : Deployment σ Req} {p : Peer} {sv : Server σ}

theorem serves_start (d : Deployment σ Req) (c : Config) (w : WriteAheadLog) (draw : Nat) :
    d.Serves (Peer.start c w draw) { fsm_ := d.fsm₀ } where
  waiting := nofun
  answering := nofun
  applied := rfl
  idle := fun _ => ⟨rfl, rfl⟩
  sequential := nofun
  fsm := rfl
  appliedIndex := rfl
  done := nofun

/-- The node moves and the server does not. -/
theorem Serves.move (h : d.Serves p sv) {p' : Peer} (hdel : p'.delivered = p.delivered)
    (hidle : p'.ready = none → p.ready = none ∨ sv.applying = [] ∧ sv.answering = none) :
    d.Serves p' sv where
  __ := h
  applied := h.applied.trans hdel.symm
  idle := by
    intro hready
    rcases hidle hready with hready | hdone
    · exact h.idle hready
    · exact hdone

/-- An event of the node that its loop can make, or a message that reaches it. -/
theorem Serves.follow (h : d.Serves p sv) {ev : Event} (hlive : ∀ draw, ev ≠ .restart draw)
    (hfree : blocked sv ev = false) : d.Serves (p.handle ev).1 (d.follow sv p ev) := by
  by_cases hpoll : ev = .poll ∧ p.ready = none
  · obtain ⟨rfl, hready⟩ := hpoll
    obtain ⟨hnil, hans⟩ := h.idle hready
    have hfollow : d.follow sv p .poll =
        { sv with applying := p.node.poll.1.committedEntries } := if_pos hready
    have hp : (p.handle .poll).1 = { p with
        node := p.node.poll.2
        ready := some (.persistEntries, p.node.poll.1)
        delivered := p.delivered ++ p.node.poll.1.committedEntries } := by
      simp only [Peer.handle, hready]
    rw [hfollow, hp]
    refine { h with applied := ?_, idle := fun hnone => absurd hnone (Option.some_ne_none _) }
    change _ = p.delivered ++ p.node.poll.1.committedEntries
    rw [← h.applied, hnil, List.append_nil]
  · have hsame : d.follow sv p ev = sv := by
      cases ev with
      | poll => exact if_neg fun hready => hpoll ⟨rfl, hready⟩
      | restart draw => exact absurd rfl (hlive draw)
      | _ => rfl
    rw [hsame]
    refine h.move (handle_delivered _ (fun heq hready => hpoll ⟨heq, hready⟩) hlive) ?_
    intro hnone
    by_cases hadv : ev = .advance
    · subst hadv
      right
      simpa [blocked] using hfree
    · exact Or.inl (handle_ready _ hadv hlive hnone)

theorem Serves.applyEntry (h : d.Serves p sv) (hready : p.ready ≠ none) :
    d.Serves p (sv.applyEntry d.apply) := by
  unfold Server.applyEntry
  split
  · rename_i e rest hans happ
    have hfst : (sv.results ++ [(e, (d.apply sv.fsm_ e.data).1)]).map Prod.fst =
        sv.results.map Prod.fst ++ [e] := List.map_append
    refine ⟨h.waiting, ?_, ?_, fun hnone => absurd hnone hready, ?_, ?_, ?_, ?_⟩
    · intro er her
      obtain rfl := Option.some.inj her
      exact List.mem_append_right _ (List.mem_singleton_self _)
    · change (sv.results ++ [_]).map Prod.fst ++ rest = p.delivered
      rw [← h.applied, happ, List.map_append, List.append_assoc]
      rfl
    · intro k e' r' hk
      dsimp only at hk ⊢
      rw [hfst]
      rcases Nat.lt_or_ge k sv.results.length with hlt | hge
      · rw [List.getElem?_append_left hlt] at hk
        rw [List.take_append_of_le_length (by rw [List.length_map]; exact Nat.le_of_lt hlt)]
        exact h.sequential hk
      · rw [List.getElem?_append_right hge] at hk
        obtain ⟨hz, heq⟩ := List.getElem?_eq_some_iff.mp hk
        obtain rfl : k = sv.results.length := by
          simp only [List.length_singleton] at hz
          omega
        obtain ⟨rfl, rfl⟩ : e = e' ∧ (d.apply sv.fsm_ e.data).1 = r' := by simpa using heq
        rw [List.take_left' (List.length_map _), ← h.fsm]
    · dsimp only
      rw [hfst, runAll_concat, ← h.fsm]
    · dsimp only
      rw [hfst, List.getLast?_concat]
      rfl
    · intro q hq hdone
      obtain ⟨e', he', hidx⟩ := h.done q hq hdone
      exact ⟨e', List.mem_append_left _ he', hidx⟩
  · exact h

/-- Whoever waits under the entry's index gets its result. -/
theorem Serves.answer (h : d.Serves p sv) : d.Serves p sv.answer := by
  unfold Server.answer
  split
  · exact h
  rename_i e result hans
  have hmem : (e, result) ∈ sv.results := h.answering hans
  split
  · exact { h with answering := nofun, idle := fun hnone => ⟨(h.idle hnone).1, rfl⟩ }
  rename_i k hk
  obtain ⟨q, hq, hidx⟩ := h.waiting hk
  refine { h with
    waiting := ?_, answering := nofun, idle := fun hnone => ⟨(h.idle hnone).1, rfl⟩, done := ?_ }
  · intro idx k' hk'
    have hne : e.index ≠ idx := by
      rintro rfl
      rw [show (sv.pending_.erase e.index).find? e.index = none from
        OrderedMap.find?_erase_self _ _] at hk'
      cases hk'
    dsimp only at hk' ⊢
    rw [OrderedMap.find?_erase_of_ne _ hne] at hk'
    obtain ⟨q', hq', hidx'⟩ := h.waiting hk'
    rw [List.getElem?_modify, hq']
    by_cases heq : k = k'
    · exact ⟨{ q' with rawResult := result, done := true }, by simp [heq], hidx'⟩
    · exact ⟨q', by simp [heq], hidx'⟩
  · intro q' hq' hdone
    dsimp only at hq' ⊢
    obtain ⟨j, hj⟩ := List.mem_iff_getElem?.mp hq'
    rw [List.getElem?_modify] at hj
    by_cases hkj : k = j
    · subst hkj
      rw [hq] at hj
      simp only [if_true, Option.map_eq_map, Option.map_some, Option.some.injEq] at hj
      rw [← hj]
      exact ⟨e, hmem, hidx.symm⟩
    · have hqj : sv.proposals[j]? = some q' := by simpa [hkj] using hj
      exact h.done q' (List.mem_of_getElem? hqj) hdone

/-- A client is registered under the index of the entry proposed for it. -/
theorem Serves.register (h : d.Serves p sv) (e : Entry) :
    d.Serves p (sv.register e.index e) := by
  refine { h with waiting := ?_, done := ?_ }
  · intro idx k hk
    simp only [Server.register] at hk ⊢
    by_cases hidx : e.index = idx
    · subst hidx
      rw [OrderedMap.find?_insert_self] at hk
      obtain rfl := Option.some.inj hk
      exact ⟨_, List.getElem?_concat_length, rfl⟩
    · rw [OrderedMap.find?_insert_of_ne _ _ hidx] at hk
      obtain ⟨q, hq, hqi⟩ := h.waiting hk
      refine ⟨q, ?_, hqi⟩
      rw [List.getElem?_append_left (List.getElem?_eq_some_iff.mp hq).1]
      exact hq
  · intro q hq hdone
    rcases List.mem_append.mp hq with hq | hq
    · exact h.done q hq hdone
    · rw [List.mem_singleton.mp hq] at hdone
      cases hdone

end Serves

end Deployment

end NexusLOB.App
