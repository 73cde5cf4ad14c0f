import NexusLOB.Book.Results

/-!
# Commands with a symbol on their shard

The sharded commands have opcodes of their own, for which `LOBStateMachine::apply` has no case. A
machine answers them as it answers an unknown opcode: with a failure, and one sequence number gone.
They agree with the plain commands only where those are rejected too.
-/

namespace NexusLOB.Lob

open Codec OrderProtocol

/-- A command of a client, before it is encoded with or without a symbol. -/
inductive OrderCommand where
  | new (orderId : UInt64) (side : Side) (price quantity : Int64)
  | cancel (orderId : UInt64)
  | modify (orderId : UInt64) (newPrice newQuantity : Int64)
  deriving DecidableEq, Repr

namespace OrderCommand

def plain : OrderCommand → Bytes
  | new orderId side price quantity => encodeNew orderId side price quantity
  | cancel orderId => encodeCancel orderId
  | modify orderId newPrice newQuantity => encodeModify orderId newPrice newQuantity

def sharded (symbol : Bytes) : OrderCommand → Bytes
  | new orderId side price quantity => encodeShardedNew symbol orderId side price quantity
  | cancel orderId => encodeShardedCancel symbol orderId
  | modify orderId newPrice newQuantity => encodeShardedModify symbol orderId newPrice newQuantity

end OrderCommand

variable {L : Side → Type} [∀ s, Levels (L s)]

namespace LOBStateMachine

/-- The plain command does something: a NEW has a quantity and an id that does not rest, another one
an id that the index knows. -/
def Admits (m : LOBStateMachine L) : OrderCommand → Prop
  | .new orderId _ _ quantity => 0 < quantity ∧ m.book_.getOrder orderId = none
  | .cancel orderId => m.book_.orderIndex_.find? orderId ≠ none
  | .modify orderId _ _ => m.book_.orderIndex_.find? orderId ≠ none

/-- A sequence number is taken and nothing else is done. -/
def rejected (m : LOBStateMachine L) : Bytes × LOBStateMachine L :=
  (encodeSimpleResult false, { m with nextSeq_ := m.nextSeq_ + 1 })

theorem apply_sharded (m : LOBStateMachine L) (c : OrderCommand) (symbol : Bytes) (coins : Coins) :
    m.apply (c.sharded symbol) coins = .ok m.rejected := by
  cases c <;> rfl

section
variable {m : LOBStateMachine L} {coins : Coins}

theorem apply_new_eq_rejected_iff {orderId : UInt64} {side : Side} {price quantity : Int64} :
    m.apply (encodeNew orderId side price quantity) coins = .ok m.rejected ↔
      ¬ (0 < quantity ∧ m.book_.getOrder orderId = none) := by
  have hdecode := decodeNew_encodeNew orderId side price quantity
  unfold encodeNew at hdecode ⊢
  simp only [apply, if_true, hdecode]
  split_ifs with hno
  · refine iff_of_true rfl ?_
    rintro ⟨hpos, hfresh⟩
    rcases hno with hle | hsome
    · exact Int64.not_le.mpr hpos hle
    · rw [hfresh] at hsome
      cases hsome
  · refine iff_of_false ?_ fun hnot => hnot ⟨?_, ?_⟩
    · intro h
      cases h
    · exact Int64.not_le.mp fun hle => hno (Or.inl hle)
    · exact Option.not_isSome_iff_eq_none.mp fun hsome => hno (Or.inr hsome)

omit [∀ s, Levels (L s)] in
/-- A call of the book that answers with a flag, as `apply` passes it on. -/
theorem bind_eq_rejected_iff {call : Except OutOfRange (Bool × Book L)} {known : Prop}
    (hcall : ∀ b, call = .ok (false, b) ↔ ¬ known ∧ b = m.book_) :
    (call >>= fun r => pure (encodeSimpleResult r.1,
      { m with nextSeq_ := m.nextSeq_ + 1, book_ := r.2 })) =
        (.ok m.rejected : Except OutOfRange (Bytes × LOBStateMachine L)) ↔ ¬ known := by
  constructor
  · intro h
    obtain ⟨⟨ok, b⟩, hok, hresult⟩ := ok_of_bind h
    have hflag : ok = false := encodeSimpleResult_inj (congrArg Prod.fst (Except.ok.inj hresult))
    rw [hflag] at hok
    exact ((hcall b).mp hok).1
  · intro hknown
    rw [(hcall m.book_).mpr ⟨hknown, rfl⟩]
    rfl

theorem apply_cancel_eq_rejected_iff {orderId : UInt64} :
    m.apply (encodeCancel orderId) coins = .ok m.rejected ↔
      ¬ m.book_.orderIndex_.find? orderId ≠ none := by
  have hdecode : decodeCancel (encodeCancel orderId) = some orderId :=
    decodeCancel_eq_some_iff.mpr (List.prefix_refl _)
  have happly : m.apply (encodeCancel orderId) coins =
      (m.book_.cancelOrder orderId >>= fun r => pure (encodeSimpleResult r.1,
        { m with nextSeq_ := m.nextSeq_ + 1, book_ := r.2 })) := by
    unfold encodeCancel at hdecode ⊢
    simp only [apply, hdecode]
    rfl
  rw [happly]
  refine bind_eq_rejected_iff fun b => ?_
  rw [Book.cancelOrder_eq_false_iff, not_ne_iff]

theorem apply_modify_eq_rejected_iff {orderId : UInt64} {newPrice newQuantity : Int64} :
    m.apply (encodeModify orderId newPrice newQuantity) coins = .ok m.rejected ↔
      ¬ m.book_.orderIndex_.find? orderId ≠ none := by
  have hdecode : decodeModify (encodeModify orderId newPrice newQuantity) =
      some (orderId, newPrice, newQuantity) :=
    decodeModify_eq_some_iff.mpr (List.prefix_refl _)
  have happly : m.apply (encodeModify orderId newPrice newQuantity) coins =
      (m.book_.modifyOrder orderId newPrice newQuantity m.nextSeq_ coins >>= fun r =>
        pure (encodeSimpleResult r.1,
          { m with nextSeq_ := m.nextSeq_ + 1, book_ := r.2 })) := by
    unfold encodeModify at hdecode ⊢
    simp only [apply, hdecode]
    rfl
  rw [happly]
  refine bind_eq_rejected_iff fun b => ?_
  rw [Book.modifyOrder_eq_false_iff, not_ne_iff]

/-- A plain command is answered like a sharded one exactly if it is not admitted. -/
theorem apply_plain_eq_rejected_iff {c : OrderCommand} :
    m.apply c.plain coins = .ok m.rejected ↔ ¬ m.Admits c := by
  cases c with
  | new orderId side price quantity => exact apply_new_eq_rejected_iff
  | cancel orderId => exact apply_cancel_eq_rejected_iff
  | modify orderId newPrice newQuantity => exact apply_modify_eq_rejected_iff

end

end LOBStateMachine

/-- In any state, a command with the book's own symbol has the result and the effect of the plain
command, and one with another symbol leaves the book alone, exactly if the plain command is not
admitted. -/
theorem sharded_acts_like_plain_iff (m : LOBStateMachine L) (c : OrderCommand) (coins : Coins) :
    (m.apply (c.sharded m.book_.symbol) coins = m.apply c.plain coins ∧
      ∀ symbol, symbol ≠ m.book_.symbol → ∃ result m',
        m.apply (c.sharded symbol) coins = .ok (result, m') ∧ m'.book_ = m.book_) ↔
      ¬ m.Admits c := by
  rw [m.apply_sharded, eq_comm, LOBStateMachine.apply_plain_eq_rejected_iff, and_iff_left]
  intro symbol _
  exact ⟨_, _, m.apply_sharded c symbol coins, rfl⟩

/-- A bid sent to the shard of its symbol is rejected, although the book is empty. -/
theorem sharded_new_rejected :
    let m : LOBStateMachine MapLevels := .new [65]
    m.apply ((OrderCommand.new 1 .buy 100 5).sharded [65]) [] =
        .ok (encodeSimpleResult false, { m with nextSeq_ := 2 }) ∧
      ∃ m', m.apply (OrderCommand.new 1 .buy 100 5).plain [] =
        .ok (encodeNewResult [] true 5, m') ∧ m'.book_.orderCount = 1 := by
  intro m
  exact ⟨rfl, _, rfl, rfl⟩

end NexusLOB.Lob
