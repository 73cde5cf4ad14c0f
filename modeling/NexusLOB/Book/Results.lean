import NexusLOB.Book.Outcomes
import NexusLOB.Protocol.LOBResults
import NexusLOB.Protocol.OrderCommands

/-!
# Accepted commands and their results

A command is accepted if it places an order or finds the one it cancels or modifies. The bytes of its
result then read back as a NEW result exactly if it placed an order, and as a success exactly if it
was accepted.
-/

namespace NexusLOB.Lob

open Codec OrderProtocol

/-! ## One decoder at a time -/

/-- A byte string that begins with an operation byte is read by no other decoder. -/
theorem decode_of_op {op : UInt8} {data : Bytes} :
    (op ≠ opNew → decodeNew (op :: data) = none) ∧
      (op ≠ opCxl → decodeCancel (op :: data) = none) ∧
      (op ≠ opMod → decodeModify (op :: data) = none) := by
  refine ⟨?_, ?_, ?_⟩
  · intro hop
    simp [decodeNew, hop]
  · intro hop
    simp [decodeCancel, hop]
  · intro hop
    simp [decodeModify, hop]

namespace Resting

variable {q : Resting} {data : Bytes} {id : UInt64} {side : Side}
  {price quantity newPrice newQuantity : Int64}

theorem op_of_decodeCancel (h : decodeCancel data = some id) : ∃ rest, data = opCxl :: rest := by
  obtain ⟨rest, rfl⟩ := decodeCancel_eq_some_iff.mp h
  exact ⟨_, rfl⟩

theorem op_of_decodeModify (h : decodeModify data = some (id, newPrice, newQuantity)) :
    ∃ rest, data = opMod :: rest := by
  obtain ⟨rest, rfl⟩ := decodeModify_eq_some_iff.mp h
  exact ⟨_, rfl⟩

/-- The command places an order. -/
def Places (q : Resting) (data : Bytes) : Prop :=
  ∃ id side price quantity, decodeNew data = some (id, side, price, quantity) ∧ 0 < quantity ∧
    q.getOrder id = none

/-- The command cancels or modifies an order that rests. -/
def Reaches (q : Resting) (data : Bytes) : Prop :=
  (∃ id, decodeCancel data = some id ∧ q.getOrder id ≠ none) ∨
    ∃ id newPrice newQuantity, decodeModify data = some (id, newPrice, newQuantity) ∧
      q.getOrder id ≠ none

/-- A command that decodes as one of the three, or as none. -/
theorem decode_cases (data : Bytes) :
    (∃ id side price quantity, decodeNew data = some (id, side, price, quantity) ∧
      decodeCancel data = none ∧ decodeModify data = none) ∨
    (∃ id, decodeCancel data = some id ∧ decodeNew data = none ∧ decodeModify data = none) ∨
    (∃ id newPrice newQuantity, decodeModify data = some (id, newPrice, newQuantity) ∧
      decodeNew data = none ∧ decodeCancel data = none) ∨ Undecodable data := by
  cases hnew : decodeNew data with
  | some fields =>
    obtain ⟨rest, rfl⟩ := op_of_decodeNew hnew
    exact Or.inl ⟨_, _, _, _, rfl, decode_of_op.2.1 (by decide), decode_of_op.2.2 (by decide)⟩
  | none =>
    cases hcancel : decodeCancel data with
    | some id =>
      obtain ⟨rest, rfl⟩ := op_of_decodeCancel hcancel
      exact Or.inr (Or.inl ⟨id, rfl, rfl, decode_of_op.2.2 (by decide)⟩)
    | none =>
      cases hmodify : decodeModify data with
      | some fields => exact Or.inr (Or.inr (Or.inl ⟨_, _, _, rfl, rfl, rfl⟩))
      | none => exact Or.inr (Or.inr (Or.inr ⟨hnew, hcancel, hmodify⟩))

theorem apply_of_decodeCancel (h : decodeCancel data = some id) (seq : UInt64) :
    q.apply data seq = (encodeSimpleResult (q.cancelOrder id).1, (q.cancelOrder id).2) := by
  obtain ⟨rest, rfl⟩ := op_of_decodeCancel h
  simp only [apply, h]
  rfl

theorem apply_of_decodeModify (h : decodeModify data = some (id, newPrice, newQuantity))
    (seq : UInt64) :
    q.apply data seq = (encodeSimpleResult (q.modifyOrder id newPrice newQuantity seq).1,
      (q.modifyOrder id newPrice newQuantity seq).2) := by
  obtain ⟨rest, rfl⟩ := op_of_decodeModify h
  simp only [apply, h]
  rfl

theorem apply_of_undecodable (h : Undecodable data) (seq : UInt64) :
    q.apply data seq = (encodeSimpleResult false, q) := by
  cases data with
  | nil => rfl
  | cons op rest =>
    simp only [apply, h.1, h.2.1, h.2.2]
    split_ifs <;> rfl

theorem fst_cancelOrder : (q.cancelOrder id).1 = (q.getOrder id).isSome := rfl

theorem fst_modifyOrder (seq : UInt64) :
    (q.modifyOrder id newPrice newQuantity seq).1 = (q.getOrder id).isSome := by
  unfold modifyOrder
  cases q.getOrder id <;> rfl

/-- What a command answers: a NEW result if it places an order, and otherwise a flag that says
whether it reaches one. -/
theorem apply_result (q : Resting) (data : Bytes) (seq : UInt64) :
    (q.Places data ∧ ¬ q.Reaches data ∧ ∃ fills rested remaining,
      (q.apply data seq).1 = encodeNewResult fills rested remaining) ∨
    (¬ q.Places data ∧ ∃ ok, (q.apply data seq).1 = encodeSimpleResult ok ∧
      (ok = true ↔ q.Reaches data)) := by
  rcases decode_cases data with ⟨id, side, price, quantity, hnew, hcancel, hmodify⟩ |
    ⟨id, hcancel, hnew, hmodify⟩ | ⟨id, newPrice, newQuantity, hmodify, hnew, hcancel⟩ |
    ⟨hnew, hcancel, hmodify⟩
  · have hreaches : ¬ q.Reaches data := by
      simp [Reaches, hcancel, hmodify]
    obtain ⟨rest, rfl⟩ := op_of_decodeNew hnew
    by_cases hno : quantity ≤ 0 ∨ (q.getOrder id).isSome
    · refine Or.inr ⟨?_, false, ?_, by simp [hreaches]⟩
      · rintro ⟨id', side', price', quantity', hnew', hpos, hfresh⟩
        cases hnew.symm.trans hnew'
        rcases hno with hle | hsome
        · exact Int64.not_le.mpr hpos hle
        · rw [hfresh] at hsome
          cases hsome
      · simp only [apply, if_true, hnew, if_pos hno]
    · refine Or.inl ⟨⟨id, side, price, quantity, hnew, ?_, ?_⟩, hreaches, ?_⟩
      · exact Int64.not_le.mp fun hle => hno (Or.inl hle)
      · exact Option.not_isSome_iff_eq_none.mp fun hsome => hno (Or.inr hsome)
      · simp only [apply, if_true, hnew, if_neg hno]
        exact ⟨_, _, _, rfl⟩
  · refine Or.inr ⟨by simp [Places, hnew], _, congrArg Prod.fst (apply_of_decodeCancel hcancel seq),
      ?_⟩
    simp [Reaches, hcancel, hmodify, fst_cancelOrder, Option.isSome_iff_ne_none]
  · refine Or.inr ⟨by simp [Places, hnew], _, congrArg Prod.fst (apply_of_decodeModify hmodify seq),
      ?_⟩
    simp [Reaches, hcancel, hmodify, fst_modifyOrder, Option.isSome_iff_ne_none]
  · refine Or.inr ⟨by simp [Places, hnew], false,
      congrArg Prod.fst (apply_of_undecodable ⟨hnew, hcancel, hmodify⟩ seq), ?_⟩
    simp [Reaches, hcancel, hmodify]

end Resting

/-! ## The machine -/

section Machine

variable {L : Side → Type} [∀ s, Levels (L s)]

namespace LOBStateMachine

/-- The states of a machine: an empty book, what a command makes of it, and what the restored
snapshot of another one is. -/
inductive Reachable : LOBStateMachine L → Prop
  | new (symbol : Bytes) : Reachable (.new symbol)
  | apply {m m' : LOBStateMachine L} {data result : Bytes} {coins : Coins} (hm : Reachable m)
      (happly : m.apply data coins = .ok (result, m')) : Reachable m'
  | restore {m source : LOBStateMachine L} (hm : Reachable m) (hsource : Reachable source)
      (hsymbol : source.book_.symbol.length < 2 ^ 32) (coins : Nat → Coins) :
      Reachable (m.restore source.snapshot coins)

/-- The command places an order, or cancels or modifies one that rests. -/
def Accepted (m : LOBStateMachine L) (data : Bytes) : Prop :=
  (∃ id side price quantity, m.Accepts data id side price quantity) ∨
    (∃ id, decodeCancel data = some id ∧ m.book_.getOrder id ≠ none) ∨
    ∃ id newPrice newQuantity, decodeModify data = some (id, newPrice, newQuantity) ∧
      m.book_.getOrder id ≠ none

variable [LawfulLevels L] {m : LOBStateMachine L}

theorem Reachable.tracks (hm : m.Reachable) : ∃ symbol q, Tracks m.book_ symbol q := by
  induction hm with
  | new symbol => exact ⟨symbol, [], Tracks.new symbol⟩
  | apply _ happly ih =>
    obtain ⟨symbol, q, hq⟩ := ih
    obtain ⟨m', happly', hq', -⟩ := hq.apply _ _
    cases happly.symm.trans happly'
    exact ⟨symbol, _, hq'⟩
  | restore _ _ hsymbol coins _ ih =>
    obtain ⟨symbol, q, hq⟩ := ih
    have hsym : _ = symbol := hq.symbol_eq
    rw [Book.symbol, hsym] at hsymbol
    exact ⟨symbol, _, (hq.restored_take hsymbol _ coins).2⟩

end LOBStateMachine

section Tracked

variable [LawfulLevels L] {m : LOBStateMachine L} {symbol : Bytes} {q : Resting}
  (h : Tracks m.book_ symbol q)
include h

theorem Tracks.places_iff {data : Bytes} :
    q.Places data ↔ ∃ id side price quantity, m.Accepts data id side price quantity := by
  constructor
  · rintro ⟨id, side, price, quantity, hdecode, hpos, hfresh⟩
    exact ⟨id, side, price, quantity, hdecode, hpos, (h.shows.getOrder id).trans hfresh⟩
  · rintro ⟨id, side, price, quantity, hdecode, hpos, hfresh⟩
    exact ⟨id, side, price, quantity, hdecode, hpos, (h.shows.getOrder id).symm.trans hfresh⟩

theorem Tracks.accepted_iff {data : Bytes} :
    m.Accepted data ↔ q.Places data ∨ q.Reaches data := by
  rw [LOBStateMachine.Accepted, ← h.places_iff, Resting.Reaches]
  simp only [h.shows.getOrder]

/-- What the result reads back as. -/
theorem Tracks.result_read_back (data : Bytes) (coins : Coins) :
    ∃ result m', m.apply data coins = .ok (result, m') ∧ result ≠ [] ∧
      (decodeNewResult result ≠ none ↔
        ∃ id side price quantity, m.Accepts data id side price quantity) ∧
      ((LOBCodec.decodeResult result).ok = true ↔ m.Accepted data) := by
  obtain ⟨m', happly, -⟩ := h.apply data coins
  refine ⟨_, m', happly, ?_⟩
  rw [h.accepted_iff, ← h.places_iff]
  rcases q.apply_result data m.nextSeq_ with
    ⟨hplaces, -, fills, rested, remaining, hresult⟩ | ⟨hplaces, ok, hresult, hok⟩
  · rw [hresult]
    refine ⟨List.cons_ne_nil _ _, iff_of_true ?_ hplaces, iff_of_true ?_ (Or.inl hplaces)⟩
    · exact decodeNewResult_encodeNewResult_ne_none fills rested remaining
    · exact LOBCodec.ok_decodeResult_new fills rested remaining
  · rw [hresult, LOBCodec.ok_decodeResult_simple, decodeNewResult_encodeSimpleResult, hok]
    refine ⟨List.cons_ne_nil _ _, iff_of_false (fun hne => hne rfl) hplaces, ?_⟩
    exact (or_iff_right hplaces).symm

end Tracked

/-- A NEW result is read back as it was written, and in every state a machine can be in the result of
a command reads as one exactly if the command placed an order, and as a success exactly if it was
accepted. -/
theorem results_read_back [LawfulLevels L] {m : LOBStateMachine L} (hm : m.Reachable) :
    (∀ fills rested remaining, fills.length < 2 ^ 32 →
      decodeNewResult (encodeNewResult fills rested remaining) = some (fills, rested, remaining)) ∧
    ∀ data coins, ∃ result m', m.apply data coins = .ok (result, m') ∧
      (decodeNewResult result ≠ none ↔
        ∃ id side price quantity, m.Accepts data id side price quantity) ∧
      ((LOBCodec.decodeResult result).ok = true ↔ m.Accepted data) := by
  refine ⟨fun fills rested remaining hcount =>
    decodeNewResult_encodeNewResult hcount rested remaining, ?_⟩
  intro data coins
  obtain ⟨symbol, q, hq⟩ := hm.tracks
  obtain ⟨result, m', happly, -, hnew, hok⟩ := hq.result_read_back data coins
  exact ⟨result, m', happly, hnew, hok⟩

end Machine

/-- Three bids at one price. A sale takes the first and a part of the next, and its result is read
back with the two fills; a cancellation of the third is accepted, one of an unknown order is not. -/
theorem results_read_back_requeue : ∃ m : LOBStateMachine MapLevels,
    m.Reachable ∧ m.book_.orderCount = 3 ∧
      (∃ result m', m.apply (encodeNew 6 .sell 100 4) [] = .ok (result, m') ∧
        decodeNewResult result = some ([⟨1, 6, 100, 3, .sell⟩, ⟨3, 6, 100, 1, .sell⟩], false, 0) ∧
        (LOBCodec.decodeResult result).ok = true ∧ m.Accepted (encodeNew 6 .sell 100 4)) ∧
      (∃ result m', m.apply (encodeCancel 2) [] = .ok (result, m') ∧
        decodeNewResult result = none ∧ (LOBCodec.decodeResult result).ok = true ∧
        m.Accepted (encodeCancel 2)) ∧
      ¬ m.Accepted (encodeCancel 7) := by
  obtain ⟨results, m, hrun, hend⟩ := requeue_run
  simp only [Prod.mk.injEq] at hend
  let fills : List Fill := [⟨1, 6, 100, 3, .sell⟩, ⟨3, 6, 100, 1, .sell⟩]
  let answer (data : Bytes) (m : LOBStateMachine MapLevels) := (m.apply data []).map Prod.fst
  have hnew := eq_of_applyAll hrun (answer (encodeNew 6 .sell 100 4))
    (y := .ok (encodeNewResult fills false 0)) (by decide +kernel)
  have hcancel := eq_of_applyAll hrun (answer (encodeCancel 2))
    (y := .ok (encodeSimpleResult true)) (by decide +kernel)
  have hmiss := eq_of_applyAll hrun (answer (encodeCancel 7))
    (y := .ok (encodeSimpleResult false)) (by decide +kernel)
  have hm : m.Reachable :=
    LOBStateMachine.applyAll_induction (P := fun _ m => m.Reachable) (n := 0)
      (fun h happly => .apply h happly) (.new [76]) hrun
  obtain ⟨hback, hread⟩ := results_read_back hm
  obtain ⟨_, m₁, happly₁, hplaced, hok₁⟩ := hread (encodeNew 6 .sell 100 4) []
  obtain ⟨_, m₂, happly₂, -, hok₂⟩ := hread (encodeCancel 2) []
  obtain ⟨_, m₃, happly₃, -, hok₃⟩ := hread (encodeCancel 7) []
  simp only [answer, happly₁, happly₂, happly₃, Except.map, Except.ok.injEq] at hnew hcancel hmiss
  subst hnew hcancel hmiss
  have hdecoded := hback fills false 0 (by decide)
  have haccepted : m.Accepted (encodeNew 6 .sell 100 4) := by
    refine Or.inl (hplaced.mp ?_)
    rw [hdecoded]
    exact Option.some_ne_none _
  refine ⟨m, hm, hend.2.1, ⟨_, m₁, happly₁, hdecoded, hok₁.mpr haccepted, haccepted⟩,
    ⟨_, m₂, happly₂, rfl, rfl, hok₂.mp rfl⟩, fun hmissed => ?_⟩
  exact Bool.false_ne_true (hok₃.mpr hmissed)

end NexusLOB.Lob
