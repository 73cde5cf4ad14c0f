import NexusLOB.Raft.Driver
import NexusLOB.Raft.LogicalLog
import NexusLOB.Raft.NodeEffects

/-!
# The log along the Ready loop

Between `poll` and `advance` the node remembers how far the `Ready` reaches: `lastReadyLastIndex_`
and `lastReadyApplied_`. `Pending` ties these marks to the log while client calls may append to it.
-/

namespace NexusLOB.Raft

/-- A `Ready` under way. -/
structure Pending (n : RawNode) (stage : Stage) (rd : Ready) : Prop where
  entries : rd.entries <+: n.log_.unstable_.entries_
  last : n.lastReadyLastIndex_ =
    if rd.entries = [] then 0 else n.log_.unstable_.offset_ + rd.entries.length - 1
  stored : stage ≠ .persistEntries → rd.entries ≠ [] →
    n.log_.storage_.stored =
      n.log_.logical.take (n.log_.unstable_.offset_ - 1 + rd.entries.length)
  applied : n.lastReadyApplied_ =
    if rd.committedEntries = [] then 0 else n.log_.applied_ + rd.committedEntries.length
  committed : rd.committedEntries = [] ∨
    n.log_.applied_ + rd.committedEntries.length ≤ n.log_.committed_

section Pending

variable {n : RawNode} {stage : Stage} {rd : Ready}

/-- The entries `poll` hands out sit right after the applied ones. -/
theorem committedEntries_index (h : n.log_.WF) {j : Nat} {e : Entry}
    (he : (n.log_.nextCommittedEntries true)[j]? = some e) :
    e.index = n.log_.applied_ + j + 1 ∧ n.log_.applied_ + j < n.log_.committed_ ∧
      n.log_.logical[n.log_.applied_ + j]? = some e := by
  have hp := h.nextCommittedEntries_isPrefix
  have hj : j < (n.log_.nextCommittedEntries true).length := (List.getElem?_eq_some_iff.mp he).1
  rw [Consensus.getElem?_eq_of_isPrefix hp hj, List.getElem?_take] at he
  split at he
  · rename_i hlt
    rw [List.getElem?_drop] at he
    exact ⟨(h.logical _ _ he).1, by omega, he⟩
  · cases he

theorem getLast_index {l : List Entry} {a : Nat} (hne : l ≠ [])
    (hidx : ∀ j e, l[j]? = some e → e.index = a + j + 1) (d : Nat) :
    (l.getLast?.map (·.index)).getD d = a + l.length := by
  have hpos := List.length_pos_iff.mpr hne
  rw [List.getLast?_eq_getElem?, List.getElem?_eq_getElem (by omega)]
  have := hidx _ _ (List.getElem?_eq_getElem (show l.length - 1 < l.length by omega))
  simp only [Option.map_some, Option.getD_some, this]
  omega

theorem pending_poll (h : n.log_.WF) (hl : n.lastReadyLastIndex_ = 0)
    (ha : n.lastReadyApplied_ = 0) : Pending n.poll.2 .persistEntries n.poll.1 where
  entries := List.prefix_rfl
  last := by
    change (n.log_.unstable_.entries_.getLast?.map (·.index)).getD n.lastReadyLastIndex_ =
      if n.log_.unstable_.entries_ = [] then 0
      else n.log_.unstable_.offset_ + n.log_.unstable_.entries_.length - 1
    by_cases hne : n.log_.unstable_.entries_ = []
    · simp [hne, hl]
    · have hpos := h.offset_pos hne
      rw [if_neg hne, getLast_index (a := n.log_.unstable_.offset_ - 1) hne]
      · omega
      · intro j e he
        have := h.unstable_index he
        omega
  stored := fun hst => absurd rfl hst
  applied := by
    change ((n.log_.nextCommittedEntries true).getLast?.map (·.index)).getD n.lastReadyApplied_ =
      if n.log_.nextCommittedEntries true = [] then 0
      else n.log_.applied_ + (n.log_.nextCommittedEntries true).length
    by_cases hne : n.log_.nextCommittedEntries true = []
    · simp [hne, ha]
    · rw [if_neg hne, getLast_index hne fun j e he => (committedEntries_index h he).1]
  committed := by
    change n.log_.nextCommittedEntries true = [] ∨ n.log_.applied_ +
      (n.log_.nextCommittedEntries true).length ≤ n.log_.committed_
    by_cases hne : n.log_.nextCommittedEntries true = []
    · exact Or.inl hne
    · right
      have hpos := List.length_pos_iff.mpr hne
      have hlen := h.nextCommittedEntries_isPrefix.length_le
      rw [List.length_take] at hlen
      omega

/-- The entries are stored. -/
theorem Pending.persistEntries (hp : Pending n .persistEntries rd) (h : n.log_.WF) :
    rd.entries = [] ∧ Pending n .persistHardState rd ∨
      ∃ l' : RaftLog, l' = { n.log_ with storage_ := n.log_.storage_.appendNoSync rd.entries } ∧
        l'.WF ∧ l'.logical = n.log_.logical ∧
        l'.storage_.stored =
          n.log_.logical.take (n.log_.unstable_.offset_ - 1 + rd.entries.length) ∧
        Pending { n with log_ := l' } .persistHardState rd := by
  by_cases hne : rd.entries = []
  · exact Or.inl ⟨hne, { hp with stored := fun _ hne' => absurd hne hne' }⟩
  · obtain ⟨hwf, hlog, hst⟩ := h.persist hp.entries hne
    refine Or.inr ⟨_, rfl, hwf, hlog, hst, { hp with stored := ?_ }⟩
    intro _ _
    rw [hlog]
    exact hst

/-- Saving the hard state does not touch the log. -/
theorem RaftLog.WF.saveHardState {l : RaftLog} (h : l.WF) (hs : HardState) :
    RaftLog.WF { l with storage_ := l.storage_.saveHardState hs } :=
  ⟨h.dummy, h.snapIndex, h.snapshot, h.stored, h.logical, h.window, h.offset_pos⟩

/-- The marks of a `Ready` do not depend on what a leader appends after it. -/
theorem Pending.append (hp : Pending n stage rd) (h : n.log_.WF) {e : Entry}
    (hi : e.index = n.log_.lastIndex + 1) (ht : e.term ≠ 0) :
    Pending { n with log_ := (n.log_.append [e]).2 } stage rd := by
  rcases RaftLog.append_one_cases n.log_ e with ⟨heq, -⟩ | ⟨heq, hle⟩
  · rw [heq]
    exact hp
  · have hun := h.unstable_append_one hi
    have hlog : (n.log_.append [e]).2.logical = n.log_.logical ++ [e] := by
      rcases h.append_one hi ht with ⟨-, hlt⟩ | ⟨-, hlog, -⟩
      · omega
      · exact hlog
    -- with entries under way there are unstable ones, and the offset stays
    have hoff : rd.entries ≠ [] → n.log_.unstable_.entries_ ≠ [] := by
      intro hne hnil
      have := hp.entries
      rw [hnil, List.prefix_nil] at this
      exact hne this
    rw [heq] at hlog ⊢
    rw [hun] at hlog ⊢
    refine
      { entries := hp.entries.trans (List.prefix_append _ _)
        last := ?_
        stored := ?_
        applied := hp.applied
        committed := hp.committed }
    · have hlast := hp.last
      by_cases hne : rd.entries = []
      · simpa [hne] using hlast
      · simpa [hne, hoff hne] using hlast
    · intro hst hne
      have hlen := h.length_logical (hoff hne)
      have hpl := hp.entries.length_le
      have hstored := hp.stored hst hne
      simp only [if_neg (hoff hne)] at hlog ⊢
      rw [hlog, List.take_append_of_le_length (by omega)]
      exact hstored

theorem Pending.of_eq {n' : RawNode} (hp : Pending n stage rd) (hlog : n'.log_ = n.log_)
    (hl : n'.lastReadyLastIndex_ = n.lastReadyLastIndex_)
    (ha : n'.lastReadyApplied_ = n.lastReadyApplied_) : Pending n' stage rd := by
  constructor
  · rw [hlog]
    exact hp.entries
  · rw [hlog, hl]
    exact hp.last
  · rw [hlog]
    exact hp.stored
  · rw [hlog, ha]
    exact hp.applied
  · rw [hlog]
    exact hp.committed

/-- A proposal between `poll` and `advance`. -/
theorem Pending.propose (hp : Pending n stage rd) (h : n.log_.WF)
    (hterm : n.role_ = .leader → n.term_ ≠ 0) (data : Bytes) :
    Pending (n.propose data).2 stage rd := by
  have heff := propose_effects n data
  have hlog := propose_log n data
  by_cases hr : n.role_ = .leader
  · rw [if_pos hr] at hlog
    exact (hp.append h rfl (hterm hr)).of_eq hlog heff.lastReadyLastIndex heff.lastReadyApplied
  · rw [if_neg hr] at hlog
    exact hp.of_eq hlog heff.lastReadyLastIndex heff.lastReadyApplied

theorem Pending.readIndex (hp : Pending n stage rd) (ctx : Bytes) :
    Pending (n.readIndex ctx).2 stage rd := by
  have heff := readIndex_effects n ctx
  exact hp.of_eq (readIndex_log n ctx) heff.lastReadyLastIndex heff.lastReadyApplied

/-- The log after the first half of `advance`. -/
theorem Pending.release (hp : Pending n stage rd) (h : n.log_.WF) (hst : stage ≠ .persistEntries) :
    ∃ l₁ : RaftLog, l₁.WF ∧ l₁.logical = n.log_.logical ∧ l₁.storage_ = n.log_.storage_ ∧
      l₁.committed_ = n.log_.committed_ ∧ l₁.applied_ = n.log_.applied_ ∧
      (if n.lastReadyLastIndex_ > 0 then
        { n with
          log_ := n.log_.stableTo n.lastReadyLastIndex_ (n.log_.term n.lastReadyLastIndex_)
          lastReadyLastIndex_ := 0 }
        else n) = { n with log_ := l₁, lastReadyLastIndex_ := 0 } := by
  have hlast := hp.last
  by_cases hne : rd.entries = []
  · rw [if_pos hne] at hlast
    refine ⟨n.log_, h, rfl, rfl, rfl, rfl, ?_⟩
    rw [if_neg (by omega), ← hlast]
  · rw [if_neg hne] at hlast
    have hle := hp.entries.length_le
    have hpos := List.length_pos_iff.mpr hne
    have hoff := h.offset_pos (List.ne_nil_of_length_pos (by omega))
    have hstable := h.stableTo (t := n.log_.term n.lastReadyLastIndex_) hle hpos (hp.stored hst hne)
    rw [← hlast] at hstable
    refine ⟨_, hstable.1, hstable.2, rfl, rfl, rfl, ?_⟩
    rw [if_pos (by omega)]

/-- `advance` releases what is stored and marks as applied what was handed out. -/
theorem Pending.advance (hp : Pending n stage rd) (h : n.log_.WF) (hst : stage ≠ .persistEntries) :
    ∃ l' : RaftLog, l'.WF ∧ l'.logical = n.log_.logical ∧ l'.storage_ = n.log_.storage_ ∧
      l'.committed_ = n.log_.committed_ ∧
      l'.applied_ = n.log_.applied_ + rd.committedEntries.length ∧
      n.advance = { n with log_ := l', lastReadyLastIndex_ := 0, lastReadyApplied_ := 0 } := by
  obtain ⟨l₁, hwf, hlog, hsto, hcom, happ, heq⟩ := hp.release h hst
  have hadv : n.advance =
      if n.lastReadyApplied_ > 0 then
        { n with log_ := l₁.appliedTo n.lastReadyApplied_, lastReadyLastIndex_ := 0,
                 lastReadyApplied_ := 0 }
      else { n with log_ := l₁, lastReadyLastIndex_ := 0 } := by
    unfold RawNode.advance
    rw [heq]
  have happlied := hp.applied
  by_cases hne : rd.committedEntries = []
  · rw [if_pos hne] at happlied
    refine ⟨l₁, hwf, hlog, hsto, hcom, by rw [happ, hne]; rfl, ?_⟩
    rw [hadv, if_neg (by omega), ← happlied]
  · rw [if_neg hne] at happlied
    have hpos := List.length_pos_iff.mpr hne
    have hle := hp.committed.resolve_left hne
    have hto : l₁.appliedTo n.lastReadyApplied_ =
        { l₁ with applied_ := n.lastReadyApplied_ } := if_neg (by omega)
    obtain ⟨hwf', hlog'⟩ := hwf.of_logical_eq { l₁ with applied_ := n.lastReadyApplied_ } rfl rfl
    refine ⟨_, hwf', hlog'.trans hlog, hsto, hcom, happlied, ?_⟩
    rw [hadv, if_pos (by omega), hto]

end Pending

end NexusLOB.Raft
