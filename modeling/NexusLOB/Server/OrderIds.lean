import NexusLOB.Book.SnapshotRestore
import NexusLOB.Protocol.LOBCodec
import NexusLOB.Raft.Safety

/-!
# Order ids

A leader's codec numbers the orders of its text clients. The counter belongs to the process: it
starts at 1 on every node and again after every restart, and it is not in the log. Order ids are
therefore unique in a run exactly if all orders were taken by one process, and no more of them than
the counter has values. Where that holds, no order is turned away as a duplicate.
-/

namespace NexusLOB.App

open Raft Lob OrderProtocol

/-! ## The model -/

/-- A process, by its node and how often that node was restarted before. -/
structure Process where
  node : NodeId
  life : Nat
  deriving DecidableEq, Repr

/-- A cluster with the codec of each node. -/
structure LobCluster where
  cluster : Cluster
  codecs : NodeId → LOBCodec := fun _ => {}
  /-- Commands between `encode` and `propose`. -/
  encoded : NodeId → List Lob.Bytes := fun _ => []
  lives : NodeId → Nat := fun _ => 0
  /-- The history of what `encode` returned, and in which process. -/
  produced : List (Process × Lob.Bytes) := []

inductive LobAction
  | raft (a : Action)
  | onClientRequest (n : NodeId) (req : ClientRequest)
  | submit (n : NodeId)
  deriving Repr

namespace LobCluster

def init (s : Setup) : LobCluster := { cluster := Cluster.init s }

/-- The process that runs node `n`. -/
def process (c : LobCluster) (n : NodeId) : Process := ⟨n, c.lives n⟩

def isLeader (c : LobCluster) (n : NodeId) : Bool := (c.cluster.peers n).node.role_ = .leader

/-- `encode` returned: an empty command is answered with "bad request". -/
def accept (c : LobCluster) (n : NodeId) (data : Lob.Bytes) (codec : LOBCodec) : LobCluster :=
  { c with
    codecs := Function.update c.codecs n codec
    encoded := if data = [] then c.encoded else Function.update c.encoded n (c.encoded n ++ [data])
    produced := c.produced ++ [(c.process n, data)] }

/-- The first half of `onClientRequest`. A request that throws takes no id. -/
def onClientRequest (c : LobCluster) (n : NodeId) (req : ClientRequest) : LobCluster :=
  if c.isLeader n then
    match (c.codecs n).encode req with
    | .error _ => c
    | .ok (data, codec) => c.accept n data codec
  else c

/-- A new process has a new codec. -/
def restart (c : LobCluster) (n : NodeId) : LobCluster :=
  { c with
    codecs := Function.update c.codecs n {}
    encoded := Function.update c.encoded n []
    lives := Function.update c.lives n (c.lives n + 1) }

def step (s : Setup) (c : LobCluster) : LobAction → LobCluster
  | .raft (.run n (.restart draw)) =>
    if n ∈ s.members then
      { c.restart n with cluster := c.cluster.step s (.run n (.restart draw)) }
    else c
  | .raft a => { c with cluster := c.cluster.step s a }
  | .onClientRequest n req => if n ∈ s.members then c.onClientRequest n req else c
  | .submit n =>
    match c.encoded n with
    | [] => c
    | data :: rest =>
      { c with
        cluster := c.cluster.step s (.run n (.propose data))
        encoded := Function.update c.encoded n rest }

def exec (s : Setup) (acts : List LobAction) : LobCluster := acts.foldl (step s) (init s)

/-- The ids of the `NEW` commands, each with the process that gave it. -/
def orders (c : LobCluster) : List (Process × UInt64) :=
  c.produced.filterMap fun x => (orderId x.2).map (x.1, ·)

/-! ## The property and the condition -/

/-- No two `NEW` commands carry the same id. -/
def UniqueIds (c : LobCluster) : Prop := (c.produced.filterMap fun x => orderId x.2).Nodup

end LobCluster

/-- `apply` finds a resting order with the id of the command. -/
def IsDuplicate {L : Side → Type} [∀ s, Levels (L s)] (m : LOBStateMachine L) (data : Lob.Bytes) :
    Prop :=
  ∃ id ∈ orderId data, (m.book_.getOrder id).isSome = true

/-- However the commands get into the log, each at most once and with empty entries between them,
no order meets a resting one with its id. -/
def LobCluster.NeverDuplicate (L : Side → Type) [∀ s, Levels (L s)] (c : LobCluster) : Prop :=
  ∀ (symbol : Lob.Bytes) (done rest : List (Lob.Bytes × Coins)) (data : Lob.Bytes) (coins : Coins)
    (results : List Lob.Bytes) (m : LOBStateMachine L),
    (((done ++ (data, coins) :: rest).map Prod.fst).filter (· ≠ [])).Subperm
        (c.produced.map Prod.snd) →
      (LOBStateMachine.new symbol : LOBStateMachine L).applyAll done = .ok (results, m) →
      ¬ IsDuplicate m data

namespace LobCluster

/-- The process that takes an order in this step, if any. -/
def placed (s : Setup) (c : LobCluster) : LobAction → List Process
  | .onClientRequest n req =>
    if n ∈ s.members ∧ c.isLeader n ∧ req.isOrder then [c.process n] else []
  | .raft _ | .submit _ => []

/-- The processes that take the orders of a run. -/
def placedBy (s : Setup) : LobCluster → List LobAction → List Process
  | _, [] => []
  | c, a :: rest => c.placed s a ++ placedBy s (c.step s a) rest

end LobCluster

/-- All orders are taken by one process, and each finds a new value of the counter. -/
def OneProcess (ps : List Process) : Prop :=
  (∀ p ∈ ps, ∀ q ∈ ps, p = q) ∧ ps.length ≤ 2 ^ 64

instance (ps : List Process) : Decidable (OneProcess ps) := inferInstanceAs (Decidable (_ ∧ _))

/-! ## The counters -/

/-- The first `n` values of a counter. -/
def firstIds (n : Nat) : List UInt64 := (List.range n).map fun i => UInt64.ofNat (i + 1)

theorem firstIds_succ (n : Nat) : firstIds (n + 1) = firstIds n ++ [UInt64.ofNat (n + 1)] := by
  rw [firstIds, firstIds, List.range_succ, List.map_append, List.map_singleton]

theorem nodup_firstIds {n : Nat} (h : n ≤ 2 ^ 64) : (firstIds n).Nodup := by
  refine List.Nodup.map_on ?_ List.nodup_range
  intro i hi j hj heq
  rw [List.mem_range] at hi hj
  have hmod := congrArg UInt64.toNat heq
  rw [UInt64.toNat_ofNat', UInt64.toNat_ofNat'] at hmod
  omega

theorem length_le_of_nodup {ids : List UInt64} (h : ids.Nodup) : ids.length ≤ 2 ^ 64 := by
  have hnat : (ids.map UInt64.toNat).Nodup := h.map fun _ _ => UInt64.toNat_inj.mp
  have hsub : ids.map UInt64.toNat ⊆ List.range (2 ^ 64) := by
    intro i hi
    obtain ⟨id, -, rfl⟩ := List.mem_map.mp hi
    exact List.mem_range.mpr id.toNat_lt
  have hle := (hnat.subperm hsub).length_le
  rwa [List.length_map, List.length_range] at hle

namespace LobCluster

/-- After a run in which `ps` took the orders: each process has given the first values of its
counter, and the running ones go on from there. -/
structure Counted (c : LobCluster) (ps : List Process) : Prop where
  processes : c.orders.map Prod.fst = ps
  numbered : ∀ p, (c.orders.filter (·.1 = p)).map Prod.snd = firstIds (ps.count p)
  next : ∀ n, (c.codecs n).nextOrderId_ = UInt64.ofNat (ps.count (c.process n) + 1)
  lived : ∀ p ∈ ps, p.life ≤ c.lives p.node

theorem counted_init (s : Setup) : Counted (init s) [] :=
  ⟨rfl, fun _ => rfl, fun _ => rfl, fun _ hp => absurd hp List.not_mem_nil⟩

variable {s : Setup} {c : LobCluster} {ps : List Process}

/-- Steps that neither encode nor restart. -/
theorem Counted.of_eq {c' : LobCluster} (h : c.Counted ps) (hcodecs : c'.codecs = c.codecs)
    (hlives : c'.lives = c.lives) (hproduced : c'.produced = c.produced) : c'.Counted ps := by
  refine ⟨?_, ?_, ?_, ?_⟩
  · rw [orders, hproduced]
    exact h.processes
  · rw [orders, hproduced]
    exact h.numbered
  · intro n
    rw [process, hcodecs, hlives]
    exact h.next n
  · rw [hlives]
    exact h.lived

/-- A new process has taken no order yet. -/
theorem Counted.restart (h : c.Counted ps) (n : NodeId) : (c.restart n).Counted ps := by
  refine ⟨h.processes, h.numbered, fun k => ?_, fun p hp => ?_⟩
  · by_cases hk : k = n
    · subst hk
      have hnew : (⟨k, c.lives k + 1⟩ : Process) ∉ ps := by
        intro hmem
        have := h.lived _ hmem
        dsimp only at this
        omega
      simp only [LobCluster.restart, process, Function.update_self, List.count_eq_zero_of_not_mem hnew]
      rfl
    · simp only [LobCluster.restart, process, Function.update_of_ne hk]
      exact h.next k
  · have hp' := h.lived p hp
    by_cases hk : p.node = n
    · subst hk
      simp only [LobCluster.restart, Function.update_self]
      omega
    · simp only [LobCluster.restart, Function.update_of_ne hk]
      exact hp'

theorem orders_accept (c : LobCluster) (n : NodeId) (data : Lob.Bytes) (codec : LOBCodec) :
    (c.accept n data codec).orders = c.orders ++ ((orderId data).map (c.process n, ·)).toList := by
  rw [orders, accept, List.filterMap_append]
  rfl

/-- The next id of the counter. -/
theorem Counted.accept_order (h : c.Counted ps) (n : NodeId) {data : Lob.Bytes}
    (hid : orderId data = some (c.codecs n).nextOrderId_) :
    (c.accept n data { c.codecs n with nextOrderId_ := (c.codecs n).nextOrderId_ + 1 }).Counted
      (ps ++ [c.process n]) := by
  have horders := c.orders_accept n data
    { c.codecs n with nextOrderId_ := (c.codecs n).nextOrderId_ + 1 }
  rw [hid, Option.map_some, Option.toList_some] at horders
  refine ⟨?_, fun p => ?_, fun k => ?_, fun p hp => ?_⟩
  · rw [horders, List.map_append, h.processes, List.map_singleton]
  · rw [horders, List.filter_append, List.map_append, h.numbered, List.count_append]
    by_cases hp : c.process n = p
    · subst hp
      rw [List.count_singleton_self, firstIds_succ, ← h.next n,
        List.filter_cons_of_pos (by simp), List.filter_nil, List.map_singleton]
    · rw [List.filter_cons_of_neg (by simpa using hp), List.filter_nil, List.map_nil,
        List.append_nil, List.count_singleton, if_neg (by simpa using hp), Nat.add_zero]
  · change (Function.update c.codecs n _ k).nextOrderId_ =
      UInt64.ofNat ((ps ++ [c.process n]).count (c.process k) + 1)
    rw [List.count_append]
    by_cases hk : k = n
    · subst hk
      rw [Function.update_self, List.count_singleton_self, UInt64.ofNat_add, ← h.next k]
      rfl
    · have hne : ¬ c.process n = c.process k := fun heq => hk (congrArg Process.node heq).symm
      rw [Function.update_of_ne hk, List.count_singleton, if_neg (by simpa using hne), Nat.add_zero]
      exact h.next k
  · rcases List.mem_append.mp hp with hp | hp
    · exact h.lived p hp
    · obtain rfl := List.mem_singleton.mp hp
      exact Nat.le_refl _

/-- The counter stays where no order is made. -/
theorem Counted.accept_other (h : c.Counted ps) (n : NodeId) {data : Lob.Bytes}
    (hid : orderId data = none) : (c.accept n data (c.codecs n)).Counted ps := by
  have horders := c.orders_accept n data (c.codecs n)
  rw [hid, Option.map_none, Option.toList_none, List.append_nil] at horders
  refine ⟨?_, ?_, fun k => ?_, h.lived⟩
  · rw [horders]
    exact h.processes
  · rw [horders]
    exact h.numbered
  · change (Function.update c.codecs n (c.codecs n) k).nextOrderId_ = _
    rw [Function.update_eq_self]
    exact h.next k

/-- A leader's codec gives the next id to an order, and none to any other request. -/
theorem Counted.onClientRequest (h : c.Counted ps) (n : NodeId) (req : ClientRequest) :
    (c.onClientRequest n req).Counted
      (ps ++ if c.isLeader n ∧ req.isOrder then [c.process n] else []) := by
  unfold LobCluster.onClientRequest
  by_cases hlead : c.isLeader n = true
  · rw [if_pos hlead]
    cases horder : req.isOrder with
    | true =>
      obtain ⟨data, hencode, hid⟩ := LOBCodec.encode_order (c := c.codecs n) horder
      rw [hencode, if_pos ⟨hlead, rfl⟩]
      exact h.accept_order n hid
    | false =>
      rw [if_neg (fun hand => Bool.false_ne_true hand.2), List.append_nil]
      cases hencode : (c.codecs n).encode req with
      | error e => exact h
      | ok r =>
        obtain ⟨data, codec⟩ := r
        obtain ⟨rfl, hid⟩ := LOBCodec.encode_other horder hencode
        exact h.accept_other n hid
  · rw [if_neg hlead, if_neg (fun hand => hlead hand.1), List.append_nil]
    exact h

theorem Counted.step (h : c.Counted ps) (a : LobAction) :
    (c.step s a).Counted (ps ++ c.placed s a) := by
  cases a with
  | raft a =>
    rw [placed, List.append_nil]
    cases a with
    | deliver k draw => exact h.of_eq rfl rfl rfl
    | run n ev =>
      cases ev with
      | restart draw =>
        rw [LobCluster.step]
        split_ifs
        · exact (h.restart n).of_eq rfl rfl rfl
        · exact h
      | _ => exact h.of_eq rfl rfl rfl
  | onClientRequest n req =>
    rw [LobCluster.step, placed]
    by_cases hn : n ∈ s.members
    · simp only [hn, if_true, true_and]
      exact h.onClientRequest n req
    · simp only [hn, if_false, false_and, List.append_nil]
      exact h
  | submit n =>
    rw [placed, List.append_nil, LobCluster.step]
    split
    · exact h
    · exact h.of_eq rfl rfl rfl

/-- The run lemma. -/
theorem Counted.run (h : c.Counted ps) (acts : List LobAction) :
    (acts.foldl (LobCluster.step s) c).Counted (ps ++ placedBy s c acts) := by
  induction acts generalizing c ps with
  | nil =>
    rw [placedBy, List.append_nil]
    exact h
  | cons a rest ih =>
    rw [placedBy, ← List.append_assoc, List.foldl_cons]
    exact ih (h.step a)

theorem map_snd_orders (c : LobCluster) :
    c.orders.map Prod.snd = c.produced.filterMap fun x => orderId x.2 := by
  rw [orders, List.map_filterMap]
  refine List.filterMap_congr fun x _ => ?_
  cases orderId x.2 with
  | none => rfl
  | some id => rfl

/-- Every process that takes orders gives the first of them the id 1. -/
theorem Counted.mem_orders (h : c.Counted ps) {p : Process} (hp : p ∈ ps) : (p, 1) ∈ c.orders := by
  obtain ⟨n, hn⟩ : ∃ n, ps.count p = n + 1 :=
    Nat.exists_eq_add_one.mpr (List.count_pos_iff.mpr hp)
  have hone : (1 : UInt64) ∈ (c.orders.filter (·.1 = p)).map Prod.snd := by
    rw [h.numbered, hn, firstIds]
    exact List.mem_map.mpr ⟨0, List.mem_range.mpr (Nat.succ_pos n), rfl⟩
  obtain ⟨⟨p', id⟩, hmem, rfl⟩ := List.mem_map.mp hone
  obtain ⟨hx, hp'⟩ := List.mem_filter.mp hmem
  rw [← of_decide_eq_true hp']
  exact hx

theorem Counted.uniqueIds_iff (h : c.Counted ps) : c.UniqueIds ↔ OneProcess ps := by
  rw [UniqueIds, ← map_snd_orders]
  have hlength : ps.length = (c.orders.map Prod.snd).length := by
    rw [← h.processes, List.length_map, List.length_map]
  constructor
  · intro hnodup
    refine ⟨fun p hp q hq => ?_, ?_⟩
    · have heq := List.inj_on_of_nodup_map hnodup (h.mem_orders hp) (h.mem_orders hq) rfl
      exact congrArg Prod.fst heq
    · rw [hlength]
      exact length_le_of_nodup hnodup
  · rintro ⟨hone, hle⟩
    cases hps : ps with
    | nil =>
      rw [hps, List.length_nil] at hlength
      rw [List.eq_nil_of_length_eq_zero hlength.symm]
      exact List.nodup_nil
    | cons p rest =>
      have hp : p ∈ ps := hps ▸ List.mem_cons_self
      have hall : c.orders.filter (·.1 = p) = c.orders := by
        refine List.filter_eq_self.mpr fun x hx => ?_
        have hmem : x.1 ∈ ps := h.processes ▸ List.mem_map_of_mem hx
        exact decide_eq_true (hone x.1 hmem p hp)
      rw [← hall, h.numbered]
      exact nodup_firstIds (Nat.le_trans List.count_le_length hle)

end LobCluster

/-! ## Duplicates in the book -/

/-- A command brings in no id but its own. -/
theorem ids_apply {q : Resting} {ids : List UInt64} {data : Lob.Bytes} {seq : UInt64}
    (hq : ∀ o ∈ q, o.id ∈ ids) (hdata : ∀ id ∈ orderId data, id ∈ ids) :
    ∀ o ∈ (q.apply data seq).2, o.id ∈ ids := by
  refine Resting.apply_cases (P := fun q => ∀ o ∈ q, o.id ∈ ids) hq ?_ ?_ ?_
  · intro id side price quantity hdecode o ho
    have hid : id ∈ ids := hdata id (by rw [orderId, hdecode]; rfl)
    unfold Resting.newOrder at ho
    split_ifs at ho
    · exact hq o ho
    · rcases List.mem_append.mp ho with ho | ho
      · obtain ⟨o₀, ho₀, hs⟩ := List.mem_filterMap.mp ho
        rw [(Resting.settle_same hs).1]
        exact hq o₀ ho₀
      · split_ifs at ho
        · rw [List.mem_singleton.mp ho]
          exact hid
        · exact absurd ho List.not_mem_nil
  · intro id o ho
    exact hq o (List.mem_filter.mp ho).1
  · intro id newPrice newQuantity o ho
    unfold Resting.modifyOrder at ho
    split at ho
    · exact hq o ho
    · rename_i o₀ hget
      rcases List.mem_append.mp ho with ho | ho
      · exact hq o (List.mem_filter.mp ho).1
      · split_ifs at ho
        · rw [List.mem_singleton.mp ho]
          have hfound := List.find?_some hget
          rw [← of_decide_eq_true hfound]
          exact hq o₀ (List.mem_of_find?_eq_some hget)
        · exact absurd ho List.not_mem_nil

/-- Empty entries are no orders. -/
theorem filterMap_orderId_filter (log : List Lob.Bytes) :
    (log.filter (· ≠ [])).filterMap orderId = log.filterMap orderId := by
  rw [List.filterMap_filter]
  refine List.filterMap_congr fun data _ => ?_
  cases data with
  | nil => rfl
  | cons op data => rfl

section Lawful

variable {L : Side → Type} [∀ s, Levels (L s)] [LawfulLevels L]

/-- The resting orders have ids of commands that were applied. -/
theorem getOrder_of_applyAll {symbol : Lob.Bytes} {done : List (Lob.Bytes × Coins)}
    {results : List Lob.Bytes} {m : LOBStateMachine L}
    (hrun : (LOBStateMachine.new symbol : LOBStateMachine L).applyAll done = .ok (results, m))
    {id : UInt64} (hid : (m.book_.getOrder id).isSome = true) :
    id ∈ done.filterMap fun c => orderId c.1 := by
  obtain ⟨q, hq, hids⟩ := (Tracks.new symbol).applyAll
    (P := fun q => ∀ o ∈ q, o.id ∈ done.filterMap fun c => orderId c.1)
    (fun c hc q seq hq => ids_apply hq fun id hid => List.mem_filterMap.mpr ⟨c, hc, hid⟩)
    hrun (fun _ ho => absurd ho List.not_mem_nil)
  rw [hq.shows.getOrder, Resting.getOrder] at hid
  obtain ⟨o, ho⟩ := Option.isSome_iff_exists.mp hid
  have hsame := List.find?_some ho
  rw [← of_decide_eq_true hsame]
  exact hids o (List.mem_of_find?_eq_some ho)

theorem LobCluster.UniqueIds.neverDuplicate {c : LobCluster} (h : c.UniqueIds) :
    c.NeverDuplicate L := by
  rintro symbol done rest data coins results m hlog hrun ⟨id, hid, hfound⟩
  -- the ids of the log are among those produced, so they differ
  have hproduced : ((c.produced.map Prod.snd).filterMap orderId).Nodup := by
    rw [List.filterMap_map]
    exact h
  have hnodup : (((done ++ (data, coins) :: rest).map Prod.fst).filterMap orderId).Nodup := by
    obtain ⟨log, hperm, hsub⟩ := hlog
    rw [← filterMap_orderId_filter]
    exact (hperm.filterMap orderId).nodup_iff.mp (hproduced.sublist (hsub.filterMap orderId))
  have hmem := getOrder_of_applyAll hrun hfound
  rw [List.map_append, List.map_cons, List.filterMap_append, List.filterMap_map,
    List.filterMap_cons_some hid, List.nodup_append] at hnodup
  exact hnodup.2.2 id hmem id List.mem_cons_self rfl

end Lawful

/-- `SET buy 100:5`. -/
def bidRequest : ClientRequest :=
  { op := .set, key := [0x62, 0x75, 0x79], value := [0x31, 0x30, 0x30, 0x3a, 0x35] }

/-- `SET sell 200:5`. -/
def offerRequest : ClientRequest :=
  { op := .set, key := sellKey, value := [0x32, 0x30, 0x30, 0x3a, 0x35] }

/-- Node 1 leads and takes a bid. -/
def bidRun : List LobAction :=
  election.map .raft ++ [.onClientRequest 1 bidRequest, .submit 1]

/-- The bid is committed on nodes 1 and 2, node 2 takes over and takes an offer, which is committed
too. -/
def failoverRun : List LobAction := List.flatten
  [bidRun,
    (List.flatten
      [cycle 1, [.deliver 6 1], cycle 2, [.deliver 7 1], cycle 1, [.run 1 (.tick 1)], cycle 1,
        [.deliver 8 1], cycle 2, [.run 2 (.tick 1)], cycle 2, [.deliver 12 1], cycle 3,
        [.deliver 13 1], cycle 2, [.deliver 14 1], cycle 1, [.deliver 16 1]]).map .raft,
    [.onClientRequest 2 offerRequest, .submit 2],
    (List.flatten [cycle 2, [.deliver 17 1], cycle 1, [.deliver 18 1], cycle 2]).map .raft]

end NexusLOB.App
