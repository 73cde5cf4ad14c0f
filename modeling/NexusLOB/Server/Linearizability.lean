import NexusLOB.Concurrency.Monitor
import NexusLOB.Server.Service

/-!
# The replicated service is linearizable

In a run of the whole service without crashes, in which every message that arrives is heeded, there
is one sequence of entries that all members hand out. Each answer, on whatever member, is what the
state machine returns for the entry at the client's index after the entries before it; it is the
client's own entry exactly when that entry has the term in which the client's command was proposed.
An entry of the sequence that a client proposed after another client was answered stands behind the
other's index: the leaders' logs did not hold it before, and everything up to the answered index
had already been handed out.
-/

namespace NexusLOB.App

open Raft Collections Concurrency

namespace Deployment

variable {σ Req : Type}

/-- The entry is new to the log of its term's leader. -/
def Fresh (c c' : Cluster) (e : Entry) : Prop :=
  (c.leaderLog e.term).length < e.index ∧ (c'.leaderLog e.term)[e.index - 1]? = some e

/-- What one process does in a step of a heeded run. -/
structure ProcessMove (d : Deployment σ Req) (n : NodeId) (sys sys' : System σ) : Prop where
  cluster : sys'.cluster = sys.cluster ∨ ∃ ev, sys.cluster.Heeded d.setup (.run n ev) ∧
    sys'.cluster = sys.cluster.step d.setup (.run n ev)
  serves : n ∈ d.setup.members → d.Serves (sys'.cluster.peers n) sys'.server
  grows : sys.server.proposals.length ≤ sys'.server.proposals.length
  slots : n ∈ d.setup.members → ∀ {k q}, sys'.server.proposals[k]? = some q →
    (∃ q₀, sys.server.proposals[k]? = some q₀ ∧ q₀.entry = q.entry) ∨
      sys.server.proposals.length ≤ k ∧ Fresh sys.cluster sys'.cluster q.entry

section Process

variable {d : Deployment σ Req} {n : NodeId} {sys : System σ}

theorem ProcessMove.stay (hs : n ∈ d.setup.members → d.Serves (sys.cluster.peers n) sys.server) :
    d.ProcessMove n sys sys :=
  ⟨Or.inl rfl, hs, Nat.le_refl _, fun _ _ _ hq => Or.inl ⟨_, hq, rfl⟩⟩

theorem step_run_peers {s : Setup} {c : Cluster} (hn : n ∈ s.members) {ev : Event}
    (hl : ev.isLocal = true) : (c.step s (.run n ev)).peers n = ((c.peers n).handle ev).1 := by
  simp only [Cluster.step, hn, hl, and_self, if_true, Cluster.perform, Function.update_self]

theorem step_run_peers_of_ne {s : Setup} {c : Cluster} {m : NodeId} (hne : m ≠ n) (ev : Event) :
    (c.step s (.run n ev)).peers m = c.peers m := by
  simp only [Cluster.step]
  split_ifs
  · simp only [Cluster.perform, Function.update_of_ne hne]
  · rfl

theorem follow_proposals (sv : Server σ) (p : Peer) {ev : Event}
    (hlive : ∀ draw, ev ≠ .restart draw) : (d.follow sv p ev).proposals = sv.proposals := by
  cases ev with
  | poll =>
    simp only [Deployment.follow]
    split_ifs
    · rfl
    · rfl
  | restart draw => exact absurd rfl (hlive draw)
  | _ => rfl

theorem processMove_run (hs : n ∈ d.setup.members → d.Serves (sys.cluster.peers n) sys.server)
    {ev : Event} (hev : sys.cluster.Heeded d.setup (.run n ev)) :
    d.ProcessMove n sys ((d.seenFrom n).raft sys (.run n ev)) := by
  have hlive : ∀ draw, ev ≠ .restart draw := by
    rintro draw rfl
    exact hev
  simp only [Deployment.raft]
  split_ifs with hown hblocked
  · exact .stay hs
  · have hprops : ((d.seenFrom n).follow sys.server ((d.seenFrom n).peer sys) ev).proposals =
        sys.server.proposals := follow_proposals _ _ hlive
    refine ⟨Or.inr ⟨ev, hev, rfl⟩, fun hn => ?_, by rw [hprops], fun _ k q hq => ?_⟩
    · have hf := (hs hn).follow hlive (by simpa using hblocked)
      dsimp only
      rw [show ((sys.cluster.step (d.seenFrom n).setup (.run n ev)).peers n) =
        ((sys.cluster.peers n).handle ev).1 from step_run_peers hn hown.2]
      exact hf
    · rw [hprops] at hq
      exact Or.inl ⟨q, hq, rfl⟩
  · have hstay : sys.cluster.step (d.seenFrom n).setup (.run n ev) = sys.cluster :=
      if_neg fun hrun => hown ⟨rfl, hrun.2⟩
    rw [hstay]
    exact .stay hs

/-- A command is proposed and its client registered. -/
theorem processMove_propose
    (hs : n ∈ d.setup.members → d.Serves (sys.cluster.peers n) sys.server)
    (h : sys.cluster.Heeding d.setup) (hr : (sys.cluster.peers n).node.role_ = .leader)
    (cmd : Bytes) : d.ProcessMove n sys ((d.seenFrom n).propose sys cmd) := by
  refine ⟨Or.inr ⟨.propose cmd, trivial, rfl⟩, fun hn => ?_, ?_, fun hn k q hq => ?_⟩
  · obtain ⟨hlast, -⟩ := h.proposed hn hr cmd rfl
    have hlive : ∀ draw, Event.propose cmd ≠ .restart draw := nofun
    have hreg := ((hs hn).follow hlive rfl).register
      ⟨(sys.cluster.peers n).node.term_, (sys.cluster.peers n).node.log_.lastIndex + 1, .normal,
        cmd⟩
    rw [← step_run_peers (s := d.setup) hn rfl, ← hlast] at hreg
    exact hreg
  · simp only [Deployment.propose, Server.register, List.length_append]
    exact Nat.le_add_right _ _
  · obtain ⟨-, hlt, hget⟩ := h.proposed hn hr cmd rfl
    simp only [Deployment.propose, Server.register, getElem?_concat] at hq
    split_ifs at hq with hk
    · right
      obtain rfl := Option.some.inj hq
      exact ⟨Nat.le_of_eq hk.symm, hlt, hget⟩
    · exact Or.inl ⟨q, hq, rfl⟩

/-- An answer fills a slot and leaves its entry. -/
theorem answer_entries (sv : Server σ) :
    sv.answer.proposals.map PendingProposal.entry = sv.proposals.map PendingProposal.entry := by
  unfold Server.answer
  split
  · rfl
  · split
    · rfl
    · rename_i k _
      refine List.ext_getElem? fun j => ?_
      simp only [List.getElem?_map, List.getElem?_modify]
      split_ifs
      · rw [Option.map_eq_map, Option.map_map]
        rfl
      · rw [Option.map_eq_map, Option.map_id']

theorem processMove_answer (hs : n ∈ d.setup.members → d.Serves (sys.cluster.peers n) sys.server) :
    d.ProcessMove n sys { sys with server := sys.server.answer } := by
  refine ⟨Or.inl rfl, fun hn => (hs hn).answer, ?_, fun _ k q hq => Or.inl ?_⟩
  · rw [← List.length_map (f := PendingProposal.entry), ← answer_entries, List.length_map]
  · have hentry : (sys.server.answer.proposals.map PendingProposal.entry)[k]? = some q.entry := by
      rw [List.getElem?_map, hq]
      rfl
    rw [answer_entries, List.getElem?_map] at hentry
    exact Option.map_eq_some_iff.mp hentry

/-- Every step of a process. -/
theorem processMove_step (hs : n ∈ d.setup.members → d.Serves (sys.cluster.peers n) sys.server)
    (h : sys.cluster.Heeding d.setup) {a : ProcessAction Req}
    (ha : ∀ {ev}, a = .run ev → sys.cluster.Heeded d.setup (.run n ev)) :
    d.ProcessMove n sys ((d.seenFrom n).step sys (a.inSystem n)) := by
  cases a with
  | run ev => exact processMove_run hs (ha rfl)
  | onClientRequest req =>
    simp only [ProcessAction.inSystem, Deployment.step, Deployment.onClientRequest]
    split_ifs with hr hdata
    · exact .stay hs
    · exact .stay hs
    · exact processMove_propose hs h (not_not.mp hr) _
  | submitRaw cmd =>
    simp only [ProcessAction.inSystem, Deployment.step, Deployment.submitRaw]
    split_ifs with hr
    · exact .stay hs
    · exact processMove_propose hs h (not_not.mp hr) cmd
  | applyEntry =>
    simp only [ProcessAction.inSystem, Deployment.step]
    split_ifs with hsent
    · have hready : (sys.cluster.peers n).ready ≠ none := by
        intro hnone
        rw [sentOut, show ((d.seenFrom n).peer sys).ready = none from hnone] at hsent
        cases hsent
      have hprops : (sys.server.applyEntry d.apply).proposals = sys.server.proposals := by
        unfold Server.applyEntry
        split
        · rfl
        · rfl
      refine ⟨Or.inl rfl, fun hn => (hs hn).applyEntry hready, Nat.le_of_eq ?_, fun _ k q hq => ?_⟩
      · exact (congrArg List.length hprops).symm
      · exact Or.inl ⟨q, by rw [← hprops]; exact hq, rfl⟩
    · exact .stay hs
  | answer => exact processMove_answer hs

end Process

/-! ## The whole service -/

/-- The service between two steps of a heeded run. -/
structure Attended (d : Deployment σ Req) (sv : Service σ) : Prop where
  heeding : sv.cluster.Heeding d.setup
  serves : ∀ n ∈ d.setup.members, d.Serves (sv.cluster.peers n) (sv.servers n)
  written : ∀ n ∈ d.setup.members, ∀ q ∈ (sv.servers n).proposals,
    (sv.cluster.leaderLog q.entry.term)[q.entry.index - 1]? = some q.entry

/-- What happened between a moment of a heeded run and a later one. -/
structure Since (d : Deployment σ Req) (sv₀ sv : Service σ) : Prop where
  onward : d.setup.members ≠ [] → sv₀.cluster.Onward sv.cluster
  grows : ∀ n, (sv₀.servers n).proposals.length ≤ (sv.servers n).proposals.length
  /-- Clients that came in between proposed entries that no leader had before. -/
  late : ∀ n ∈ d.setup.members, ∀ {k q}, (sv₀.servers n).proposals.length ≤ k →
    (sv.servers n).proposals[k]? = some q →
    (sv₀.cluster.leaderLog q.entry.term).length < q.entry.index

section Service

variable {d : Deployment σ Req} {sv₀ sv sv' : Service σ}

theorem attended_init (d : Deployment σ Req) : d.Attended d.serviceInit where
  heeding := Cluster.heeding_init d.setup
  serves := fun _ _ => serves_start d _ _ _
  written := nofun

theorem Since.refl (d : Deployment σ Req) (sv : Service σ) : d.Since sv sv where
  onward := fun _ => .refl _
  grows := fun _ => Nat.le_refl _
  late := by
    intro n _ k q hk hq
    exact absurd (List.getElem?_eq_some_iff.mp hq).1 (by omega)

/-- What one step of the service does. -/
structure ServiceMove (d : Deployment σ Req) (sv sv' : Service σ) : Prop where
  cluster : sv'.cluster = sv.cluster ∨ ∃ a, sv.cluster.Heeded d.setup a ∧
    sv'.cluster = sv.cluster.step d.setup a
  serves : ∀ n ∈ d.setup.members, d.Serves (sv'.cluster.peers n) (sv'.servers n)
  grows : ∀ n, (sv.servers n).proposals.length ≤ (sv'.servers n).proposals.length
  slots : ∀ n ∈ d.setup.members, ∀ {k q}, (sv'.servers n).proposals[k]? = some q →
    (∃ q₀, (sv.servers n).proposals[k]? = some q₀ ∧ q₀.entry = q.entry) ∨
      (sv.servers n).proposals.length ≤ k ∧ Fresh sv.cluster sv'.cluster q.entry

/-- A step of one process leaves the others alone. -/
theorem ProcessMove.put (h : d.Attended sv) {n : NodeId} {sys' : System σ}
    (hm : d.ProcessMove n (sv.system n) sys') : d.ServiceMove sv (sv.put n sys') where
  cluster := by
    rcases hm.cluster with heq | ⟨ev, hev, heq⟩
    · exact Or.inl heq
    · exact Or.inr ⟨.run n ev, hev, heq⟩
  serves := by
    intro m hmem
    by_cases hmn : m = n
    · subst hmn
      simp only [Service.put, Function.update_self]
      exact hm.serves hmem
    · simp only [Service.put, Function.update_of_ne hmn]
      rcases hm.cluster with heq | ⟨ev, -, heq⟩
      · rw [heq]
        exact h.serves m hmem
      · rw [heq, step_run_peers_of_ne hmn]
        exact h.serves m hmem
  grows := by
    intro m
    by_cases hmn : m = n
    · subst hmn
      simp only [Service.put, Function.update_self]
      exact hm.grows
    · simp only [Service.put, Function.update_of_ne hmn, Nat.le_refl]
  slots := by
    intro m hmem k q hq
    by_cases hmn : m = n
    · subst hmn
      simp only [Service.put, Function.update_self] at hq
      exact hm.slots hmem hq
    · simp only [Service.put, Function.update_of_ne hmn] at hq
      exact Or.inl ⟨q, hq, rfl⟩

theorem Attended.move (h : d.Attended sv) {a : ServiceAction Req} (ha : d.ServiceHeeded sv a) :
    d.ServiceMove sv (d.serviceStep sv a) := by
  cases a with
  | deliver k draw =>
    refine ⟨Or.inr ⟨.deliver k draw, ha, rfl⟩, fun n hn => ?_, fun _ => Nat.le_refl _,
      fun _ _ _ q hq => Or.inl ⟨q, hq, rfl⟩⟩
    rcases step_peer d.setup sv.cluster n (.deliver k draw) with hp | ⟨m, dr, -, hp⟩ | ⟨_, heq, -⟩
    · simp only [Deployment.serviceStep, hp]
      exact h.serves n hn
    · simp only [Deployment.serviceStep, hp]
      exact (h.serves n hn).follow (show ∀ draw, Event.step m dr ≠ .restart draw from nofun) rfl
    · cases heq
  | process n a =>
    refine ProcessMove.put h (processMove_step (h.serves n) h.heeding ?_)
    rintro ev rfl
    exact ha

theorem ServiceMove.onward (hm : d.ServiceMove sv sv') (h : d.Attended sv) {n : NodeId}
    (hn : n ∈ d.setup.members) : sv.cluster.Onward sv'.cluster := by
  rcases hm.cluster with heq | ⟨a, ha, heq⟩
  · rw [heq]
    exact .refl _
  · rw [heq]
    exact h.heeding.onward hn ha

theorem Attended.step (h : d.Attended sv) (hm : d.ServiceMove sv sv') : d.Attended sv' where
  heeding := by
    rcases hm.cluster with heq | ⟨a, ha, heq⟩
    · rw [heq]
      exact h.heeding
    · rw [heq]
      exact h.heeding.step ha
  serves := hm.serves
  written := by
    intro n hn q hq
    obtain ⟨k, hk⟩ := List.mem_iff_getElem?.mp hq
    rcases hm.slots n hn hk with ⟨q₀, hq₀, hent⟩ | ⟨-, -, hnew⟩
    · rw [← hent]
      exact Consensus.getElem?_eq_some_of_isPrefix ((hm.onward h hn).leaderLog _)
        (h.written n hn q₀ (List.mem_of_getElem? hq₀))
    · exact hnew

theorem Since.step (h₀ : d.Since sv₀ sv) (h : d.Attended sv) (hm : d.ServiceMove sv sv') :
    d.Since sv₀ sv' where
  onward := by
    intro hne
    obtain ⟨n, hn⟩ := List.exists_mem_of_ne_nil _ hne
    exact (h₀.onward hne).trans (hm.onward h hn)
  grows := fun n => (h₀.grows n).trans (hm.grows n)
  late := by
    intro n hn k q hk hq
    rcases hm.slots n hn hq with ⟨q₀, hq₀, hent⟩ | ⟨-, hlt, -⟩
    · rw [← hent]
      exact h₀.late n hn hk hq₀
    · have hle := ((h₀.onward (List.ne_nil_of_mem hn)).leaderLog q.entry.term).length_le
      omega

theorem Attended.run (h : d.Attended sv) {acts : List (ServiceAction Req)}
    (hacts : d.HeededService sv acts) :
    d.Attended (acts.foldl d.serviceStep sv) ∧ d.Since sv (acts.foldl d.serviceStep sv) := by
  suffices hgen : ∀ sv₁, d.Attended sv₁ → d.Since sv sv₁ → d.HeededService sv₁ acts →
      d.Attended (acts.foldl d.serviceStep sv₁) ∧ d.Since sv (acts.foldl d.serviceStep sv₁) from
    hgen sv h (.refl d sv) hacts
  clear hacts
  induction acts with
  | nil => exact fun sv₁ h₁ hs₁ _ => ⟨h₁, hs₁⟩
  | cons a rest ih =>
    intro sv₁ h₁ hs₁ hacts
    have hm := h₁.move hacts.1
    exact ih _ (h₁.step hm) (hs₁.step h₁ hm) hacts.2

end Service

/-! ## Linearizability -/

/-- The service shows what one state machine shows that runs the entries of `order` one after the
other: every answer is the result of the entry at the client's index, and every member has run a
beginning of the sequence. -/
structure Serial (d : Deployment σ Req) (order : List Entry) (sv : Service σ) : Prop where
  answered : ∀ n ∈ d.setup.members, ∀ q ∈ (sv.servers n).proposals, q.done = true →
    ∃ e, order[q.entry.index - 1]? = some e ∧ (e = q.entry ↔ e.term = q.entry.term) ∧
      q.rawResult =
        (d.apply (runAll d.apply d.fsm₀ (order.take (q.entry.index - 1))) e.data).1
  replica : ∀ n ∈ d.setup.members, (sv.servers n).appliedIndex_ ≤ order.length ∧
    (sv.servers n).fsm_ = runAll d.apply d.fsm₀ (order.take (sv.servers n).appliedIndex_)

section Results

variable {d : Deployment σ Req} {sv : Service σ} {order : List Entry}

theorem Serves.isPrefix {p : Peer} {sr : Server σ} (h : d.Serves p sr) :
    sr.results.map Prod.fst <+: p.delivered := ⟨_, h.applied⟩

theorem Serves.appliedIndex_eq {p : Peer} {sr : Server σ} (h : d.Serves p sr) (hp : InStep p) :
    sr.appliedIndex_ = (sr.results.map Prod.fst).length := by
  rw [h.appliedIndex]
  cases hl : (sr.results.map Prod.fst).getLast? with
  | none =>
    rw [List.getLast?_eq_none_iff.mp hl]
    rfl
  | some e =>
    have hpos : 0 < (sr.results.map Prod.fst).length := by
      rcases Nat.eq_zero_or_pos (sr.results.map Prod.fst).length with h0 | hpos
      · rw [List.length_eq_zero_iff.mp h0] at hl
        cases hl
      · exact hpos
    rw [List.getLast?_eq_getElem?] at hl
    have hidx := hp.delivered_index (Consensus.getElem?_eq_some_of_isPrefix h.isPrefix hl)
    change e.index = _
    omega

theorem Attended.serial (h : d.Attended sv)
    (horder : ∀ i ∈ d.setup.members, (sv.cluster.peers i).delivered <+: order) :
    d.Serial order sv where
  answered := by
    intro n hn q hq hdone
    obtain ⟨e, hres, hidx⟩ := (h.serves n hn).done q hq hdone
    obtain ⟨k, hk⟩ := List.mem_iff_getElem?.mp hres
    have hfst : ((sv.servers n).results.map Prod.fst)[k]? = some e := by
      rw [List.getElem?_map, hk]
      rfl
    have hdel := Consensus.getElem?_eq_some_of_isPrefix (h.serves n hn).isPrefix hfst
    have hpos := (h.heeding.inOrder n hn).delivered_index hdel
    have hbegins := (h.serves n hn).isPrefix.trans (horder n hn)
    obtain rfl : k = q.entry.index - 1 := by omega
    refine ⟨e, Consensus.getElem?_eq_some_of_isPrefix hbegins hfst, ⟨congrArg _, fun hterm => ?_⟩,
      ?_⟩
    · -- one entry of a term stands at an index
      have hw := h.heeding.written hn (List.mem_of_getElem? hdel)
      have hw' := h.written n hn q hq
      rw [hterm, hidx] at hw
      exact Option.some.inj (hw.symm.trans hw')
    · rw [← Consensus.take_eq_of_isPrefix hbegins
        (Nat.le_of_lt (List.getElem?_eq_some_iff.mp hfst).1)]
      exact (h.serves n hn).sequential hk
  replica := by
    intro n hn
    have hbegins := (h.serves n hn).isPrefix.trans (horder n hn)
    rw [(h.serves n hn).appliedIndex_eq (h.heeding.inOrder n hn),
      Consensus.take_length_of_isPrefix hbegins]
    exact ⟨hbegins.length_le, (h.serves n hn).fsm⟩

/-- An entry of the sequence that was proposed after a moment stands behind every index that was
answered by then. -/
theorem Since.index_lt {sv₀ : Service σ} (h₀ : d.Attended sv₀) (h : d.Since sv₀ sv)
    (horder : ∀ i ∈ d.setup.members, (sv.cluster.peers i).delivered <+: order) {n m : NodeId}
    (hn : n ∈ d.setup.members) (hm : m ∈ d.setup.members) {p q : PendingProposal}
    (hp : p ∈ (sv₀.servers n).proposals) (hdone : p.done = true) {k : Nat}
    (hk : (sv₀.servers m).proposals.length ≤ k) (hq : (sv.servers m).proposals[k]? = some q)
    (hown : order[q.entry.index - 1]? = some q.entry) : p.entry.index < q.entry.index := by
  obtain ⟨e, hres, hidx⟩ := (h₀.serves n hn).done p hp hdone
  have hlate := h.late m hm hk hq
  by_contra hle
  -- the member that answered had already handed out the entry at the later client's index
  have hdel : e ∈ (sv₀.cluster.peers n).delivered :=
    (h₀.serves n hn).isPrefix.subset (List.mem_map_of_mem hres)
  obtain ⟨hpos, hget⟩ := (h₀.heeding.inOrder n hn).getElem?_delivered hdel
  have hlt : q.entry.index - 1 < (sv₀.cluster.peers n).delivered.length := by
    have := (List.getElem?_eq_some_iff.mp hget).1
    omega
  have hthere := List.getElem?_eq_getElem hlt
  have hbegins := ((h.onward (List.ne_nil_of_mem hn)).delivered n).trans (horder n hn)
  rw [Consensus.getElem?_eq_of_isPrefix hbegins hlt, hown] at hthere
  have hmem : q.entry ∈ (sv₀.cluster.peers n).delivered := by
    rw [Option.some.inj hthere]
    exact List.getElem_mem hlt
  have hw := h₀.heeding.written hn hmem
  have := (List.getElem?_eq_some_iff.mp hw).1
  omega

end Results

/-- **Linearizability.** In every heeded run there is one sequence of entries that the whole
service shows. It respects real time: let a client be answered by the moment after `j` steps, and
let another client come after that moment whose entry is in the sequence; then the first one's
index is the smaller. -/
theorem service_linearizable (d : Deployment σ Req) (acts : List (ServiceAction Req))
    (hacts : d.HeededService d.serviceInit acts) :
    ∃ order, d.Serial order (d.serviceExec acts) ∧
      ∀ j, ∀ n ∈ d.setup.members, ∀ m ∈ d.setup.members,
        ∀ p ∈ ((d.serviceExec (acts.take j)).servers n).proposals, p.done = true →
        ∀ k q, ((d.serviceExec (acts.take j)).servers m).proposals.length ≤ k →
          ((d.serviceExec acts).servers m).proposals[k]? = some q →
          order[q.entry.index - 1]? = some q.entry → p.entry.index < q.entry.index := by
  obtain ⟨h, -⟩ := (attended_init d).run hacts
  obtain ⟨order, horder⟩ := h.heeding.exists_order
  refine ⟨order, h.serial horder, fun j n hn m hm p hp hdone k q hk hq hown => ?_⟩
  rw [← List.take_append_drop j acts] at hacts
  obtain ⟨hfirst, hrest⟩ := (d.heededService_append _ _ _).mp hacts
  obtain ⟨h₀, -⟩ := (attended_init d).run hfirst
  have hsince := (h₀.run hrest).2
  rw [← List.foldl_append, List.take_append_drop] at hsince
  exact hsince.index_lt h₀ horder hn hm hp hdone hk hq hown

/-- Node 1 handles one `Ready` and applies its committed entry. -/
def serveCycle : List (ServiceAction Bytes) :=
  [.run .poll, .run .persistEntries, .run .persistHardState, .run .send, .applyEntry, .answer,
    .run .advance].map (.process 1)

/-- An action of the cluster as one of the service. -/
def ofRaft : Action → ServiceAction Bytes
  | .deliver k draw => .deliver k draw
  | .run n ev => .process n (.run ev)

/-- Node 1 leads and serves two clients, one after the other, with node 2. -/
def twoServed : List (ServiceAction Bytes) := List.flatten
  [election.map ofRaft, [.process 1 (.submitRaw [7])],
    (List.flatten [cycle 1, [.deliver 6 1], cycle 2, [.deliver 7 1]]).map ofRaft, serveCycle,
    [.process 1 (.submitRaw [8])],
    (List.flatten [cycle 1, [.deliver 8 1], cycle 2, [.deliver 9 1]]).map ofRaft, serveCycle]

theorem service_linearizable_echo :
    ((echo.serviceExec twoServed).servers 1).proposals =
        [⟨[7], true, ⟨1, 1, .normal, [7]⟩⟩, ⟨[8], true, ⟨1, 2, .normal, [8]⟩⟩] ∧
      ∃ order, echo.Serial order (echo.serviceExec twoServed) :=
  ⟨by decide +kernel,
    (service_linearizable echo twoServed (by decide +kernel)).imp fun _ h => h.1⟩

end Deployment

end NexusLOB.App
