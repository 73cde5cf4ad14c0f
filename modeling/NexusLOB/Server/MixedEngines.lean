import NexusLOB.Book.Commands
import NexusLOB.Raft.InOrder

/-!
# Members with different matching engines

The engine is chosen for each process when it starts, so one cluster can have members with the
map engine and members with the skip list, whose towers depend on coins of their own. Members that
have applied the same number of entries have answered them with the same bytes, their books show
the same and their snapshots are the same bytes.
-/

namespace NexusLOB.Lob

variable {L L' : Side → Type} [∀ s, Levels (L s)] [LawfulLevels L] [∀ s, Levels (L' s)]
  [LawfulLevels L']

/-- Two engines that hold the same orders take any commands alike. -/
theorem Tracks.applyAll_alike {m : LOBStateMachine L} {m' : LOBStateMachine L'} {symbol : Bytes}
    {q : Resting} (h : Tracks m.book_ symbol q) (h' : Tracks m'.book_ symbol q)
    (hseq : m.nextSeq_ = m'.nextSeq_) (commands : List (Bytes × Coins × Coins)) :
    ∃ results n n',
      m.applyAll (commands.map fun c => (c.1, c.2.1)) = .ok (results, n) ∧
      m'.applyAll (commands.map fun c => (c.1, c.2.2)) = .ok (results, n') ∧
      n.nextSeq_ = n'.nextSeq_ ∧ ∃ q', Tracks n.book_ symbol q' ∧ Tracks n'.book_ symbol q' := by
  induction commands generalizing m m' q with
  | nil => exact ⟨[], m, m', rfl, rfl, hseq, q, h, h'⟩
  | cons c commands ih =>
    obtain ⟨m₁, happly, h₁, hseq₁⟩ := h.apply c.1 c.2.1
    obtain ⟨m₁', happly', h₁', hseq₁'⟩ := h'.apply c.1 c.2.2
    rw [← hseq] at happly' h₁' hseq₁'
    obtain ⟨results, n, n', hn, hn', hrest⟩ := ih h₁ h₁' (hseq₁.trans hseq₁'.symm)
    refine ⟨(q.apply c.1 m.nextSeq_).1 :: results, n, n', ?_, ?_, hrest⟩
    · rw [List.map_cons, LOBStateMachine.applyAll, happly]
      change (m₁.applyAll _).bind _ = _
      rw [hn]
      rfl
    · rw [List.map_cons, LOBStateMachine.applyAll, happly']
      change (m₁'.applyAll _).bind _ = _
      rw [hn']
      rfl

end NexusLOB.Lob

namespace NexusLOB.App

open Raft Lob

/-- Entries as commands of a book, with the coins that the engine tosses for each. -/
def bookCommands (coins : Nat → Coins) (entries : List Entry) : List (Lob.Bytes × Coins) :=
  entries.mapIdx fun k e => (e.data, coins k)

/-- The commands of two engines, read off one list with the coins of both. -/
theorem bookCommands_pair (coins coins' : Nat → Coins) (entries : List Entry) :
    ∃ commands : List (Lob.Bytes × Coins × Coins),
      bookCommands coins entries = commands.map (fun c => (c.1, c.2.1)) ∧
      bookCommands coins' entries = commands.map (fun c => (c.1, c.2.2)) := by
  refine ⟨entries.mapIdx fun k e => (e.data, coins k, coins' k), ?_, ?_⟩
  · refine List.ext_getElem (by simp [bookCommands]) fun k _ _ => ?_
    simp [bookCommands]
  · refine List.ext_getElem (by simp [bookCommands]) fun k _ _ => ?_
    simp [bookCommands]

/-- **Engines do not matter to the replicas.** In every heeded run two members that have applied
the first `n` entries handed out to them, each with its own engine and its own coins, have the same
results and books that show the same. -/
theorem mixed_engines_agree {L L' : Side → Type} [∀ s, Levels (L s)] [LawfulLevels L]
    [∀ s, Levels (L' s)] [LawfulLevels L'] (s : Setup) (acts : List Action)
    (hacts : (Cluster.init s).HeededRun s acts) {i j : NodeId} (hi : i ∈ s.members)
    (hj : j ∈ s.members) (symbol : Lob.Bytes) (coins coins' : Nat → Coins) {n : Nat}
    (hni : n ≤ ((Cluster.exec s acts).peers i).delivered.length)
    (hnj : n ≤ ((Cluster.exec s acts).peers j).delivered.length) :
    ∃ results m m',
      (LOBStateMachine.new symbol : LOBStateMachine L).applyAll
        (bookCommands coins (((Cluster.exec s acts).peers i).delivered.take n)) =
          .ok (results, m) ∧
      (LOBStateMachine.new symbol : LOBStateMachine L').applyAll
        (bookCommands coins' (((Cluster.exec s acts).peers j).delivered.take n)) =
          .ok (results, m') ∧
      Agree m.book_ m'.book_ ∧ m.snapshot = m'.snapshot := by
  have hheeding : (Cluster.exec s acts).Heeding s := (Cluster.heeding_init s).run hacts
  obtain ⟨order, horder⟩ := hheeding.exists_order
  obtain ⟨commands, hfst, hsnd⟩ := bookCommands_pair coins coins' (order.take n)
  rw [Consensus.take_eq_of_isPrefix (horder i hi) hni,
    Consensus.take_eq_of_isPrefix (horder j hj) hnj, hfst, hsnd]
  have h : Lob.Tracks (LOBStateMachine.new symbol : LOBStateMachine L).book_ symbol [] :=
    Lob.Tracks.new symbol
  have h' : Lob.Tracks (LOBStateMachine.new symbol : LOBStateMachine L').book_ symbol [] :=
    Lob.Tracks.new symbol
  obtain ⟨results, m, m', hm, hm', hseq, q, hq, hq'⟩ := h.applyAll_alike h' rfl commands
  refine ⟨results, m, m', hm, hm', hq.agree hq', ?_⟩
  have hsnap := (hq.agree hq').snapshot m.nextSeq_
  rw [show m.snapshot = LOBStateMachine.snapshot ⟨m.book_, m.nextSeq_⟩ from rfl, hsnap, hseq]

/-- Node 1 replicates a bid and an ask that takes a part of it to node 2, commits them and tells
node 2 so. -/
def tradeReplication : List Action := List.flatten
  [pairReplicated (OrderProtocol.encodeNew 1 .buy 100 5) (OrderProtocol.encodeNew 2 .sell 100 3),
    [.deliver 8 1], cycle 1, [.run 1 (.tick 1)], cycle 1, [.deliver 9 1], cycle 2]

def tradeResults : List Lob.Bytes :=
  [OrderProtocol.encodeNewResult [] true 5,
    OrderProtocol.encodeNewResult [⟨1, 2, 100, 3, .sell⟩] false 0]

/-- Node 1 runs the map engine, node 2 the skip list, and both report the trade. -/
theorem mixed_engines_agree_trade :
    (Cluster.init trio).HeededRun trio tradeReplication ∧
      ∃ results m m',
        (LOBStateMachine.new [76] : LOBStateMachine MapLevels).applyAll
          (bookCommands (fun _ => [])
            (((Cluster.exec trio tradeReplication).peers 1).delivered.take 2)) =
            .ok (results, m) ∧
        (LOBStateMachine.new [76] : LOBStateMachine SkipLevels).applyAll
          (bookCommands (fun _ => [true, false])
            (((Cluster.exec trio tradeReplication).peers 2).delivered.take 2)) =
            .ok (results, m') ∧
        results = tradeResults ∧
        Agree m.book_ m'.book_ ∧ m.snapshot = m'.snapshot := by
  have hheeded : (Cluster.init trio).HeededRun trio tradeReplication := by decide +kernel
  obtain ⟨results, m, m', hm, hm', hagree⟩ := @mixed_engines_agree MapLevels SkipLevels _ _ _ _ trio
    tradeReplication hheeded 1 2 (by decide) (by decide) [76] (fun _ => []) (fun _ => [true, false])
    2 (by decide +kernel) (by decide +kernel)
  refine ⟨hheeded, results, m, m', hm, hm', ?_, hagree⟩
  have hresults : ((LOBStateMachine.new [76] : LOBStateMachine MapLevels).applyAll
      (bookCommands (fun _ => [])
        (((Cluster.exec trio tradeReplication).peers 1).delivered.take 2))).map Prod.fst =
      .ok tradeResults := by
    decide +kernel
  rw [hm] at hresults
  exact Except.ok.inj hresults

end NexusLOB.App
