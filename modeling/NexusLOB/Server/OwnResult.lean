import NexusLOB.Raft.Written
import NexusLOB.Server.Proposals

/-!
# A client gets the result of its own command

Waiting clients are found by the index of the applied entry alone. That is the client's own entry
as long as no entry of another term is applied at an index where a client waits: then the entries
have the same term and index, and there is only one such entry. A run of three nodes shows a client
that gets the result of another leader's command.
-/

namespace NexusLOB.App

open Raft Collections

namespace Deployment

variable {σ Req : Type} (d : Deployment σ Req)

/-- If the node leads, its log takes a proposal. -/
def Takes (sys : System σ) : Prop :=
  (d.peer sys).node.role_ = .leader →
    (d.peer sys).node.log_.committed_ ≤ (d.peer sys).node.log_.lastIndex

instance (sys : System σ) : Decidable (d.Takes sys) := inferInstanceAs (Decidable (_ → _))

/-- The log takes what is proposed, and an entry is applied under a waiting client's index only in
the term in which the client's command was proposed. -/
def Guarded (sys : System σ) : SystemAction Req → Prop
  | .onClientRequest req => d.encode req ≠ [] → d.Takes sys
  | .submitRaw _ => d.Takes sys
  | .answer => ∀ er ∈ sys.server.answering, ∀ k ∈ sys.server.pending_.find? er.1.index,
      ∀ p ∈ sys.server.proposals[k]?, p.entry.term = er.1.term
  | _ => True

instance (sys : System σ) (a : SystemAction Req) : Decidable (d.Guarded sys a) :=
  match a with
  | .onClientRequest req => inferInstanceAs (Decidable (d.encode req ≠ [] → _))
  | .submitRaw _ => inferInstanceAs (Decidable (d.Takes sys))
  | .answer => inferInstanceAs (Decidable (∀ er ∈ sys.server.answering, _))
  | .raft _ | .applyEntry => isTrue trivial

/-- Every action of the run is guarded in the state it starts from. -/
def GuardedRun : System σ → List (SystemAction Req) → Prop
  | _, [] => True
  | sys, a :: rest => d.Guarded sys a ∧ GuardedRun (d.step sys a) rest

instance decidableGuardedRun : (sys : System σ) → (acts : List (SystemAction Req)) →
    Decidable (d.GuardedRun sys acts)
  | _, [] => isTrue trivial
  | sys, a :: rest =>
    have := decidableGuardedRun (d.step sys a) rest
    inferInstanceAs (Decidable (_ ∧ _))

/-- The entry was written in the cluster, as the server's member sees it. -/
def Wrote (c : Cluster) (e : Entry) : Prop := Cluster.Wrote d.setup d.self c e

/-- The server between two steps. -/
structure Tended (sys : System σ) : Prop where
  sane : Cluster.Sane d.setup d.self sys.cluster
  /-- Whoever waits under an index had an entry written there. -/
  waiting : ∀ {idx k}, sys.server.pending_.find? idx = some k →
    ∃ p, sys.server.proposals[k]? = some p ∧ p.entry.index = idx ∧ d.Wrote sys.cluster p.entry
  answering : ∀ {er}, sys.server.answering = some er → er ∈ sys.server.results
  /-- The entries handed out are applied in order, each once. -/
  applied : sys.server.results.map Prod.fst ++ sys.server.applying = (d.peer sys).delivered
  idle : (d.peer sys).ready = none →
    sys.server.applying = [] ∧ sys.server.answering = none
  done : ∀ p ∈ sys.server.proposals, p.done = true → (p.entry, p.rawResult) ∈ sys.server.results

end Deployment

/-! ## What an event does to the loop -/

theorem handle_delivered (p : Peer) {ev : Event} (hpoll : ev = .poll → p.ready ≠ none)
    (hlive : ∀ draw, ev ≠ .restart draw) : (p.handle ev).1.delivered = p.delivered := by
  have hmove := p.handle_move ev
  generalize p.handle ev = q at hmove ⊢
  cases hmove with
  | poll hready => exact absurd hready (hpoll rfl)
  | persistHardState rd =>
    unfold Peer.saveHardState
    split_ifs
    · rfl
    · rfl
  | restart draw => exact absurd rfl (hlive draw)
  | _ => rfl

/-- Only `advance` and a restart end the processing of a `Ready`. -/
theorem handle_ready (p : Peer) {ev : Event} (hadv : ev ≠ .advance)
    (hlive : ∀ draw, ev ≠ .restart draw) (h : (p.handle ev).1.ready = none) : p.ready = none := by
  have hmove := p.handle_move ev
  generalize p.handle ev = q at hmove h
  cases hmove with
  | tick draw hready => exact hready
  | step m draw hready => exact hready
  | poll hready => exact hready
  | advance => exact absurd rfl hadv
  | restart draw => exact absurd rfl (hlive draw)
  | propose | readIndex | stay => exact h
  | persistEntries | persistHardState | send => cases h

/-- The server's node moves by one of its own events or by a message that reaches it. -/
theorem step_peer (s : Setup) (c : Cluster) (i : NodeId) (a : Action) :
    (c.step s a).peers i = c.peers i ∨
      (∃ m draw, (∃ k, a = .deliver k draw) ∧
        (c.step s a).peers i = ((c.peers i).handle (.step m draw)).1) ∨
      ∃ ev, a = .run i ev ∧ ev.isLocal = true ∧
        (c.step s a).peers i = ((c.peers i).handle ev).1 := by
  cases a with
  | deliver k draw =>
    simp only [Cluster.step]
    split
    · exact Or.inl rfl
    · rename_i m hk
      split_ifs
      · by_cases hrec : i = m.receiver
        · refine Or.inr (Or.inl ⟨m, draw, ⟨k, rfl⟩, ?_⟩)
          simp only [Cluster.perform, hrec, Function.update_self]
        · exact Or.inl (Function.update_of_ne hrec _ _)
      · exact Or.inl rfl
  | run n ev =>
    simp only [Cluster.step]
    split_ifs with hrun
    · by_cases hn : i = n
      · subst hn
        exact Or.inr (Or.inr ⟨ev, rfl, hrun.2, Function.update_self ..⟩)
      · exact Or.inl (Function.update_of_ne hn _ _)
    · exact Or.inl rfl

namespace Deployment

/-! ## Every step keeps the server tended -/

section Steps

variable {σ Req : Type} {d : Deployment σ Req} {sys : System σ}

theorem tended_init (d : Deployment σ Req) (hself : d.self ∈ d.setup.members) :
    d.Tended d.init where
  sane := Cluster.sane_init d.setup hself
  waiting := nofun
  answering := nofun
  applied := rfl
  idle := fun _ => ⟨rfl, rfl⟩
  done := nofun

/-- An event that leaves the server alone. -/
theorem Tended.move (h : d.Tended sys) {c' : Cluster}
    (hsane : Cluster.Sane d.setup d.self c')
    (hwrote : ∀ e, d.Wrote sys.cluster e → d.Wrote c' e)
    (hdel : (c'.peers d.self).delivered = (d.peer sys).delivered)
    (hidle : (c'.peers d.self).ready = none → (d.peer sys).ready = none ∨
      sys.server.applying = [] ∧ sys.server.answering = none) :
    d.Tended { sys with cluster := c' } where
  sane := hsane
  waiting := by
    intro idx k hk
    obtain ⟨p, hp, hidx, hw⟩ := h.waiting hk
    exact ⟨p, hp, hidx, hwrote _ hw⟩
  answering := h.answering
  applied := h.applied.trans hdel.symm
  idle := by
    intro hready
    rcases hidle hready with hready | hdone
    · exact h.idle hready
    · exact hdone
  done := h.done

/-- An event of the server's own node that the loop can make. -/
theorem Tended.follow (h : d.Tended sys) {c' : Cluster} {ev : Event}
    (hsane : Cluster.Sane d.setup d.self c')
    (hwrote : (∃ draw, ev = .restart draw) ∨ ∀ e, d.Wrote sys.cluster e → d.Wrote c' e)
    (hpeer : c'.peers d.self = ((d.peer sys).handle ev).1)
    (hfree : blocked sys.server ev = false) :
    d.Tended { cluster := c', server := d.follow sys.server (d.peer sys) ev } := by
  by_cases hrestart : ∃ draw, ev = .restart draw
  · obtain ⟨draw, rfl⟩ := hrestart
    refine ⟨hsane, nofun, nofun, ?_, fun _ => ⟨rfl, rfl⟩, nofun⟩
    change [] = (c'.peers d.self).delivered
    rw [hpeer]
    rfl
  · have hlive : ∀ draw, ev ≠ .restart draw := fun draw heq => hrestart ⟨draw, heq⟩
    have hkeep := hwrote.resolve_left hrestart
    by_cases hpoll : ev = .poll ∧ (d.peer sys).ready = none
    · obtain ⟨rfl, hready⟩ := hpoll
      obtain ⟨hnil, hans⟩ := h.idle hready
      have hfollow : d.follow sys.server (d.peer sys) .poll =
          { sys.server with applying := (d.peer sys).node.poll.1.committedEntries } := if_pos hready
      have hp : c'.peers d.self = { d.peer sys with
          node := (d.peer sys).node.poll.2
          ready := some (.persistEntries, (d.peer sys).node.poll.1)
          delivered := (d.peer sys).delivered ++ (d.peer sys).node.poll.1.committedEntries } := by
        rw [hpeer]
        simp only [Peer.handle, hready]
      rw [hfollow]
      refine ⟨hsane, ?_, h.answering, ?_, ?_, h.done⟩
      · intro idx k hk
        obtain ⟨p, hp, hidx, hw⟩ := h.waiting hk
        exact ⟨p, hp, hidx, hkeep _ hw⟩
      · change _ = (c'.peers d.self).delivered
        rw [hp, ← h.applied, hnil, List.append_nil]
      · intro hnone
        change (c'.peers d.self).ready = none at hnone
        rw [hp] at hnone
        cases hnone
    · have hsame : d.follow sys.server (d.peer sys) ev = sys.server := by
        cases ev with
        | poll => exact if_neg fun hready => hpoll ⟨rfl, hready⟩
        | restart draw => exact absurd rfl (hlive draw)
        | _ => rfl
      rw [hsame]
      refine h.move hsane hkeep ?_ ?_
      · rw [hpeer]
        exact handle_delivered _ (fun heq hready => hpoll ⟨heq, hready⟩) hlive
      · rw [hpeer]
        intro hnone
        by_cases hadv : ev = .advance
        · subst hadv
          right
          simpa [blocked] using hfree
        · exact Or.inl (handle_ready _ hadv hlive hnone)

theorem Tended.raft (h : d.Tended sys) (hself : d.self ∈ d.setup.members) (a : Action) :
    d.Tended (d.raft sys a) := by
  obtain ⟨hsane, hwrote⟩ := h.sane.step hself a
  -- an action that is not an event of the own node leaves its process alone
  have hforeign : (∀ ev, ev.isLocal = true → a ≠ .run d.self ev) →
      d.Tended { sys with cluster := sys.cluster.step d.setup a } := by
    intro hne
    have hw := hwrote.resolve_left fun ⟨draw, heq⟩ => hne _ rfl heq
    rcases step_peer d.setup sys.cluster d.self a with hp | ⟨m, draw, -, hp⟩ | ⟨ev, heq, hl, -⟩
    · refine h.move hsane hw ?_ ?_
      · rw [hp]
        rfl
      · rw [hp]
        exact Or.inl
    · refine h.move hsane hw ?_ ?_
      · rw [hp]
        exact handle_delivered _ nofun nofun
      · rw [hp]
        intro hnone
        refine Or.inl (handle_ready _ ?_ ?_ hnone)
        · nofun
        · nofun
    · exact absurd heq (hne ev hl)
  cases a with
  | deliver k draw => exact hforeign nofun
  | run n ev =>
    simp only [Deployment.raft]
    split_ifs with hown hblocked
    · exact h
    · obtain ⟨rfl, hlocal⟩ := hown
      refine h.follow hsane ?_ ?_ (by simpa using hblocked)
      · refine hwrote.imp_left ?_
        rintro ⟨draw, heq⟩
        cases heq
        exact ⟨draw, rfl⟩
      · simp only [Cluster.step, hself, hlocal, and_self, if_true, Cluster.perform,
          Function.update_self, Deployment.peer]
    · refine hforeign ?_
      rintro ev' hl ⟨⟩
      exact hown ⟨rfl, hl⟩

/-- A command is proposed and its client registered. -/
theorem Tended.propose (h : d.Tended sys) (hself : d.self ∈ d.setup.members)
    (hr : (d.peer sys).node.role_ = .leader) (htakes : d.Takes sys) (cmd : Bytes) :
    d.Tended (d.propose sys cmd) := by
  obtain ⟨hsane, hwrote⟩ := h.sane.step hself (.run d.self (.propose cmd))
  have hkeep := hwrote.resolve_left nofun
  obtain ⟨hlast, hnew⟩ := h.sane.proposed hself hr (htakes hr) cmd
  have hpeer : (sys.cluster.step d.setup (.run d.self (.propose cmd))).peers d.self =
      { d.peer sys with node := ((d.peer sys).node.propose cmd).2 } := by
    simp only [Cluster.step, hself, Event.isLocal, and_self, if_true, Cluster.perform,
      Function.update_self, Deployment.peer, Peer.handle]
  refine ⟨hsane, ?_, h.answering, ?_, ?_, ?_⟩
  · intro idx k hk
    simp only [Deployment.propose, Server.register] at hk ⊢
    rw [hlast] at hk
    by_cases hidx : (sys.cluster.peers d.self).node.log_.lastIndex + 1 = idx
    · subst hidx
      rw [OrderedMap.find?_insert_self] at hk
      obtain rfl := Option.some.inj hk
      exact ⟨_, List.getElem?_concat_length, rfl, hnew⟩
    · rw [OrderedMap.find?_insert_of_ne _ _ hidx] at hk
      obtain ⟨p, hp, hpi, hw⟩ := h.waiting hk
      refine ⟨p, ?_, hpi, hkeep _ hw⟩
      rw [List.getElem?_append_left (List.getElem?_eq_some_iff.mp hp).1]
      exact hp
  · change _ = ((sys.cluster.step d.setup (.run d.self (.propose cmd))).peers d.self).delivered
    rw [hpeer]
    exact h.applied
  · intro hready
    change ((sys.cluster.step d.setup (.run d.self (.propose cmd))).peers d.self).ready = none
      at hready
    rw [hpeer] at hready
    exact h.idle hready
  · intro p hp hdone
    rcases List.mem_append.mp hp with hp | hp
    · exact h.done p hp hdone
    · rw [List.mem_singleton.mp hp] at hdone
      cases hdone

theorem Tended.applyEntry (h : d.Tended sys) (hsent : d.sentOut sys = true) :
    d.Tended { sys with server := sys.server.applyEntry d.apply } := by
  have hready : (d.peer sys).ready ≠ none := by
    intro hnone
    rw [sentOut, hnone] at hsent
    cases hsent
  unfold Server.applyEntry
  split
  · rename_i e rest hans happ
    refine ⟨h.sane, h.waiting, ?_, ?_, fun hnone => absurd hnone hready, ?_⟩
    · intro er her
      obtain rfl := Option.some.inj her
      exact List.mem_append_right _ (List.mem_singleton_self _)
    · change (sys.server.results ++ [_]).map Prod.fst ++ rest = (d.peer sys).delivered
      rw [← h.applied, happ, List.map_append, List.append_assoc]
      rfl
    · intro p hp hdone
      exact List.mem_append_left _ (h.done p hp hdone)
  · exact h

/-- The client that waits under the entry's index is the one that proposed it. -/
theorem Tended.answer (h : d.Tended sys) (hself : d.self ∈ d.setup.members)
    (hg : d.Guarded sys .answer) : d.Tended { sys with server := sys.server.answer } := by
  unfold Server.answer
  split
  · exact h
  rename_i e result hans
  have hmem : (e, result) ∈ sys.server.results := h.answering hans
  split
  · exact ⟨h.sane, h.waiting, nofun, h.applied, fun hnone => ⟨(h.idle hnone).1, rfl⟩, h.done⟩
  rename_i k hk
  obtain ⟨p, hp, hidx, hw⟩ := h.waiting hk
  have hdel : e ∈ (d.peer sys).delivered := by
    rw [← h.applied]
    exact List.mem_append_left _ (List.mem_map_of_mem hmem)
  have hown : p.entry = e :=
    hw.unique (h.sane.delivered hself hdel) (hg _ hans _ hk _ hp) hidx
  refine ⟨h.sane, ?_, nofun, h.applied, fun hnone => ⟨(h.idle hnone).1, rfl⟩, ?_⟩
  · intro idx k' hk'
    have hne : e.index ≠ idx := by
      rintro rfl
      rw [show (sys.server.pending_.erase e.index).find? e.index = none from
        OrderedMap.find?_erase_self _ _] at hk'
      cases hk'
    dsimp only at hk' ⊢
    rw [OrderedMap.find?_erase_of_ne _ hne] at hk'
    obtain ⟨q, hq, hqi, hqw⟩ := h.waiting hk'
    rw [List.getElem?_modify, hq]
    by_cases heq : k = k'
    · refine ⟨{ q with rawResult := result, done := true }, ?_, hqi, hqw⟩
      simp [heq]
    · exact ⟨q, by simp [heq], hqi, hqw⟩
  · intro q hq hdone
    dsimp only at hq ⊢
    obtain ⟨j, hj⟩ := List.mem_iff_getElem?.mp hq
    rw [List.getElem?_modify] at hj
    by_cases hkj : k = j
    · subst hkj
      rw [hp] at hj
      simp only [if_true, Option.map_eq_map, Option.map_some, Option.some.injEq] at hj
      rw [← hj]
      change (p.entry, result) ∈ sys.server.results
      rw [hown]
      exact hmem
    · have hqj : sys.server.proposals[j]? = some q := by simpa [hkj] using hj
      exact h.done q (List.mem_of_getElem? hqj) hdone

theorem Tended.step (h : d.Tended sys) (hself : d.self ∈ d.setup.members) {a : SystemAction Req}
    (hg : d.Guarded sys a) : d.Tended (d.step sys a) := by
  cases a with
  | raft a => exact h.raft hself a
  | onClientRequest req =>
    simp only [Deployment.step, Deployment.onClientRequest]
    split_ifs with hr hdata
    · exact h
    · exact h
    · exact h.propose hself (not_not.mp hr) (hg hdata) _
  | submitRaw cmd =>
    simp only [Deployment.step, Deployment.submitRaw]
    split_ifs with hr
    · exact h
    · exact h.propose hself (not_not.mp hr) hg cmd
  | applyEntry =>
    simp only [Deployment.step]
    split_ifs with hsent
    · exact h.applyEntry hsent
    · exact h
  | answer => exact h.answer hself hg

theorem Tended.run (h : d.Tended sys) (hself : d.self ∈ d.setup.members)
    {acts : List (SystemAction Req)} (hg : d.GuardedRun sys acts) :
    d.Tended (acts.foldl d.step sys) := by
  induction acts generalizing sys with
  | nil => exact h
  | cons a rest ih => exact ih (h.step hself hg.1) hg.2

end Steps

/-! ## Results -/

/-- **A client gets the result of its own command.** In every run whose steps are guarded, whatever
leaders come and go, a slot that is done holds what the state machine returned for the very entry
that was proposed for the client, and that entry was handed out as committed. -/
theorem client_gets_own_result {σ Req : Type} (d : Deployment σ Req)
    (hself : d.self ∈ d.setup.members) (acts : List (SystemAction Req))
    (hacts : d.GuardedRun d.init acts) {k : Nat} {p : PendingProposal}
    (hk : (d.exec acts).server.proposals[k]? = some p) (hdone : p.done = true) :
    (p.entry, p.rawResult) ∈ (d.exec acts).server.results ∧
      p.entry ∈ (d.peer (d.exec acts)).delivered := by
  have h : d.Tended (d.exec acts) := (tended_init d hself).run hself hacts
  have hres := h.done p (List.mem_of_getElem? hk) hdone
  refine ⟨hres, ?_⟩
  rw [← h.applied]
  exact List.mem_append_left _ (List.mem_map_of_mem hres)

/-- Three nodes, and on node 1 a server whose state machine returns what it is given. -/
def echo : Deployment Unit Bytes where
  setup := trio
  self := 1
  apply := fun st data => (data, st)
  fsm₀ := ()
  encode := fun req => req

/-- The loop of node 1 with the application of one committed entry. -/
def applyCycle : List (SystemAction Bytes) := List.flatten
  [((cycle 1).take 4).map .raft, [.applyEntry, .answer], ((cycle 1).drop 4).map .raft]

/-- Node 1 leads, and the command of its client is committed by node 2. -/
def servedRun : List (SystemAction Bytes) := List.flatten
  [election.map .raft, [.submitRaw [7]],
    (List.flatten [cycle 1, [.deliver 6 1], cycle 2, [.deliver 7 1]]).map .raft, applyCycle]

theorem client_gets_own_result_echo :
    echo.GuardedRun echo.init servedRun ∧
      (⟨1, 1, .normal, [7]⟩, [7]) ∈ (echo.exec servedRun).server.results ∧
      ⟨1, 1, .normal, [7]⟩ ∈ (echo.peer (echo.exec servedRun)).delivered :=
  ⟨by decide +kernel,
    client_gets_own_result echo (by decide) servedRun (by decide +kernel)
      (p := ⟨[7], true, ⟨1, 1, .normal, [7]⟩⟩) (k := 0) (by decide +kernel) rfl⟩

/-- Node 1 registers a client for its first entry and loses the lead to node 2, whose first entry
has the same index. -/
def overtakenRun : List (SystemAction Bytes) := List.flatten
  [election.map .raft, [.submitRaw [7]],
    (List.flatten
      [[.run 2 (.tick 1)], cycle 2, [.deliver 7 1], cycle 3, [.deliver 8 1], cycle 2,
        [.deliver 9 1], cycle 1, [.deliver 12 1, .run 2 (.propose [8])], cycle 2, [.deliver 13 1],
        cycle 1, [.deliver 14 1, .run 2 (.tick 1)], cycle 2, [.deliver 15 1]]).map .raft,
    applyCycle]

/-- The client of `[7]` gets the result of `[8]`, which another leader's client sent. -/
theorem client_gets_foreign_result :
    (echo.exec overtakenRun).server.proposals = [⟨[8], true, ⟨1, 1, .normal, [7]⟩⟩] ∧
      (echo.exec overtakenRun).server.results = [(⟨2, 1, .normal, [8]⟩, [8])] := by
  decide +kernel

end Deployment

end NexusLOB.App
