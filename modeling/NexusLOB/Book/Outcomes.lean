import NexusLOB.Book.Conservation
import NexusLOB.Book.SnapshotRestore

/-!
# The reported outcome of a NEW

`LOBStateMachine::apply` does not ask the book what became of an order: it adds up the fills that
`newOrder` returned and reports the difference to the quantity. Here both computations are told on
the flat list, where the walk along the makers says what is filled and what is left, and shown to
agree. What a client reads back is the outcome as long as the number of fills fits its 32-bit word.
-/

namespace NexusLOB.Lob

open Codec OrderProtocol Resting

/-! ## The sum of the fills -/

/-- A sum of two quantities that does not exceed the largest word does not wrap. -/
theorem toInt_add_part {a b : Int64} (ha : 0 ≤ a.toInt) (hb : 0 ≤ b.toInt)
    (hle : a.toInt + b.toInt ≤ Int64.maxValue.toInt) : (a + b).toInt = a.toInt + b.toInt := by
  change _ ≤ (9223372036854775807 : Int) at hle
  rw [Int64.toInt_add]
  exact Int.bmod_eq_of_le (by omega) (by omega)

/-- `filled += f.quantity` stays in range if the sum does. -/
theorem toInt_foldl_filled {fills : List Fill} (hpos : ∀ f ∈ fills, 0 < f.quantity.toInt)
    {filled : Int64} (hlo : 0 ≤ filled.toInt)
    (hhi : filled.toInt + total fills ≤ Int64.maxValue.toInt) :
    (fills.foldl (fun filled f => filled + f.quantity) filled).toInt =
      filled.toInt + total fills := by
  induction fills generalizing filled with
  | nil => exact (Int.add_zero _).symm
  | cons f fills ih =>
    rw [List.forall_mem_cons] at hpos
    rw [total_cons] at hhi ⊢
    have hrest := total_nonneg fun g hg => Int.le_of_lt (hpos.2 g hg)
    have hf := hpos.1
    have hadd := toInt_add_part hlo (Int.le_of_lt hf) (by omega)
    rw [List.foldl_cons, ih hpos.2 (by omega) (by omega), hadd]
    omega

/-- No sum of the first fills is above the sum of all. -/
theorem total_isPrefix_le {part fills : List Fill} (hpos : ∀ f ∈ fills, 0 < f.quantity.toInt)
    (hpre : part <+: fills) : total part ≤ total fills := by
  obtain ⟨more, rfl⟩ := hpre
  have hmore := total_nonneg fun f hf => Int.le_of_lt (hpos f (List.mem_append_right _ hf))
  rw [total_append]
  omega

/-! ## The outcome on the flat list -/

namespace Resting

section Walk

variable {side : Side} {id : UInt64} {quantity rest : Int64} {makers : List Order}
  {fills : List Fill}

theorem Walked.total_le (hw : Walked side id quantity makers fills rest) :
    total fills ≤ Int64.maxValue.toInt := by
  have hsum := hw.sum
  have hrest := hw.rest_nonneg
  have hmax := quantity.toInt_le
  omega

/-- What `apply` reports as remaining is what the walk left. -/
theorem Walked.remaining_eq (hw : Walked side id quantity makers fills rest) :
    quantity - fills.foldl (fun filled f => filled + f.quantity) 0 = rest := by
  have hpos : ∀ f ∈ fills, 0 < f.quantity.toInt := by
    intro f hf
    obtain ⟨o, -, -, hpos, -⟩ := hw.maker f hf
    exact hpos
  have hzero : (0 : Int64).toInt = 0 := rfl
  have hle := hw.total_le
  have hfilled : (fills.foldl (fun filled (f : Fill) => filled + f.quantity) (0 : Int64)).toInt =
      (0 : Int64).toInt + total fills :=
    toInt_foldl_filled hpos (Int.le_of_eq hzero.symm) (by omega)
  have hnonneg := total_nonneg fun f hf => Int.le_of_lt (hpos f hf)
  have hsum := hw.sum
  have hrest := hw.rest_nonneg
  rw [← Int64.toInt_inj, toInt_sub_part (by omega) (by omega)]
  omega

end Walk

/-- A command that decodes as NEW begins with its operation byte. -/
theorem op_of_decodeNew {data : Bytes} {fields : UInt64 × Side × Int64 × Int64}
    (h : decodeNew data = some fields) : ∃ rest, data = opNew :: rest := by
  cases data with
  | nil => cases h
  | cons op rest =>
    by_cases hop : op = opNew
    · exact ⟨rest, by rw [hop]⟩
    · simp [decodeNew, hop] at h

section Accepted

variable {q : Resting} {data : Bytes} {id : UInt64} {side : Side} {price quantity : Int64}

theorem Sane.walked_of_eq (h : q.Sane) (hpos : 0 < quantity) {fills : List Fill} {rest : Int64}
    (hwalk : walkMakers side id quantity (q.makers side price) = (fills, rest)) :
    Walked side id quantity (q.makers side price) fills rest := by
  have hw : Walked side id quantity (q.makers side price)
      (walkMakers side id quantity (q.makers side price)).1
      (walkMakers side id quantity (q.makers side price)).2 := h.walked hpos id
  rwa [hwalk] at hw

/-- What an accepted NEW answers and leaves, in terms of its walk along the makers. -/
theorem apply_accepted (h : q.Sane) (hdecode : decodeNew data = some (id, side, price, quantity))
    (hpos : 0 < quantity) (hnew : q.getOrder id = none) (seq : UInt64) {fills : List Fill}
    {rest : Int64} (hwalk : walkMakers side id quantity (q.makers side price) = (fills, rest)) :
    (q.newOrder id side price quantity seq).1 = fills ∧
      q.apply data seq = (encodeNewResult fills (rest > 0) rest,
        q.afterFills id side price seq fills rest) := by
  have hw := h.walked_of_eq hpos hwalk
  have hcall : q.newOrder id side price quantity seq =
      (fills, q.afterFills id side price seq fills rest) := by
    rw [newOrder_of_accepted hpos hnew seq, hwalk]
  refine ⟨by rw [hcall], ?_⟩
  obtain ⟨rest', rfl⟩ := op_of_decodeNew hdecode
  have hno : ¬ (quantity ≤ 0 ∨ (q.getOrder id).isSome) := by
    rw [hnew]
    rintro (hle | hsome)
    · exact Int64.not_le.mpr hpos hle
    · cases hsome
  simp only [apply, if_true, hdecode, if_neg hno, hcall, hw.remaining_eq]

/-- What rests of the order afterwards. -/
theorem getOrder_afterFills (h : q.Sane) (hnew : q.getOrder id = none) (seq : UInt64)
    (fills : List Fill) (rest : Int64) :
    (q.afterFills id side price seq fills rest).getOrder id =
      if rest > 0 then some { id := id, side := side, price := price, quantity := rest, sequence := seq }
      else none := by
  rw [afterFills, getOrder_append, getOrder_settle h.ids, hnew, Option.bind_none, Option.none_or]
  split_ifs
  · simp [getOrder]
  · rfl

/-- It is the last one of its level. -/
theorem level_afterFills {rest : Int64} (hrest : rest > 0) (q : Resting) (id : UInt64) (side : Side)
    (price : Int64) (seq : UInt64) (fills : List Fill) :
    (q.afterFills id side price seq fills rest).level side price =
      level (q.filterMap (settle fills)) side price ++
        [{ id := id, side := side, price := price, quantity := rest, sequence := seq }] := by
  rw [afterFills, if_pos hrest, level_append]
  simp [level]

end Accepted

theorem Sane.apply {q : Resting} (h : q.Sane) (data : Bytes) (seq : UInt64) :
    (q.apply data seq).2.Sane := by
  refine apply_cases h ?_ ?_ ?_
  · intro orderId side price quantity _
    exact h.call (c := .newOrder orderId side price quantity seq []) rfl
  · intro orderId
    exact h.call (c := .cancelOrder orderId) rfl
  · intro orderId newPrice newQuantity
    exact h.call (c := .modifyOrder orderId newPrice newQuantity seq []) rfl

end Resting

/-! ## The machine -/

section Machine

variable {L : Side → Type} [∀ s, Levels (L s)]

/-- The command places an order: it can be read, has a positive quantity and an id that does not
rest. -/
structure LOBStateMachine.Accepts (m : LOBStateMachine L) (data : Bytes) (orderId : UInt64)
    (side : Side) (price quantity : Int64) : Prop where
  decoded : decodeNew data = some (orderId, side, price, quantity)
  positive : 0 < quantity
  fresh : m.book_.getOrder orderId = none

/-- No command can be read from the bytes. -/
def Undecodable (data : Bytes) : Prop :=
  decodeNew data = none ∧ decodeCancel data = none ∧ decodeModify data = none

/-- The fills, `rested` and the remaining quantity of a result, against the order and the book after
it. -/
structure Outcome (b : Book L) (orderId : UInt64) (side : Side) (price quantity : Int64)
    (fills : List Fill) (rested : Bool) (remaining : Int64) : Prop where
  inRange : ∀ part, part <+: fills → 0 ≤ total part ∧ total part ≤ Int64.maxValue.toInt
  sum : total fills = quantity.toInt - remaining.toInt
  rests : rested = true ↔ b.getOrder orderId ≠ none
  order : rested = true → ∃ o orders, b.getOrder orderId = some o ∧ o.quantity = remaining ∧
    o.side = side ∧ o.price = price ∧ (price, orders) ∈ b.fifo side ∧ orders.getLast? = some o

/-- A cancellation fails where the index does not know the id, and then it does nothing. -/
theorem Book.cancelOrder_eq_false_iff {b b' : Book L} {id : UInt64} :
    b.cancelOrder id = .ok (false, b') ↔ b.orderIndex_.find? id = none ∧ b' = b := by
  unfold Book.cancelOrder
  cases b.orderIndex_.find? id with
  | none =>
    constructor
    · intro h
      cases h
      exact ⟨rfl, rfl⟩
    · rintro ⟨-, rfl⟩
      rfl
  | some loc =>
    refine iff_of_false ?_ fun h => Option.some_ne_none loc h.1
    intro h
    obtain ⟨r, -, h⟩ := ok_of_bind h
    cases h

theorem Book.modifyOrder_eq_false_iff {b b' : Book L} {id : UInt64} {newPrice newQuantity : Int64}
    {newSequence : UInt64} {coins : Coins} :
    b.modifyOrder id newPrice newQuantity newSequence coins = .ok (false, b') ↔
      b.orderIndex_.find? id = none ∧ b' = b := by
  unfold Book.modifyOrder
  cases b.orderIndex_.find? id with
  | none =>
    constructor
    · intro h
      cases h
      exact ⟨rfl, rfl⟩
    · rintro ⟨-, rfl⟩
      rfl
  | some loc =>
    refine iff_of_false ?_ fun h => Option.some_ne_none loc h.1
    intro h
    obtain ⟨r, -, h⟩ := ok_of_bind h
    dsimp only at h
    split_ifs at h <;> cases h

/-- A command leaves the book as it is, or is one of the three operations on it. -/
theorem LOBStateMachine.apply_cases {m m' : LOBStateMachine L} {data result : Bytes} {coins : Coins}
    (happly : m.apply data coins = .ok (result, m')) :
    m'.book_ = m.book_ ∨
      (∃ fields fills rested remaining, decodeNew data = some fields ∧
        result = encodeNewResult fills rested remaining) ∨
      (∃ orderId ok, decodeCancel data = some orderId ∧
        m.book_.cancelOrder orderId = .ok (ok, m'.book_) ∧ result = encodeSimpleResult ok) ∨
      ∃ orderId newPrice newQuantity ok,
        decodeModify data = some (orderId, newPrice, newQuantity) ∧
        m.book_.modifyOrder orderId newPrice newQuantity m.nextSeq_ coins = .ok (ok, m'.book_) ∧
        result = encodeSimpleResult ok := by
  cases data with
  | nil =>
    cases happly
    exact Or.inl rfl
  | cons op data =>
    unfold LOBStateMachine.apply at happly
    dsimp only at happly
    split_ifs at happly
    · cases hdecode : decodeNew (op :: data) with
      | none =>
        rw [hdecode] at happly
        cases happly
        exact Or.inl rfl
      | some fields =>
        rw [hdecode] at happly
        dsimp only at happly
        split_ifs at happly
        · cases happly
          exact Or.inl rfl
        · cases happly
          exact Or.inr (Or.inl ⟨fields, _, _, _, rfl, rfl⟩)
    · cases hdecode : decodeCancel (op :: data) with
      | none =>
        rw [hdecode] at happly
        cases happly
        exact Or.inl rfl
      | some orderId =>
        rw [hdecode] at happly
        obtain ⟨r, hcancel, happly⟩ := ok_of_bind happly
        cases happly
        exact Or.inr (Or.inr (Or.inl ⟨orderId, r.1, rfl, hcancel, rfl⟩))
    · cases hdecode : decodeModify (op :: data) with
      | none =>
        rw [hdecode] at happly
        cases happly
        exact Or.inl rfl
      | some fields =>
        rw [hdecode] at happly
        obtain ⟨r, hmodify, happly⟩ := ok_of_bind happly
        cases happly
        exact Or.inr (Or.inr (Or.inr ⟨_, _, _, r.1, rfl, hmodify, rfl⟩))
    · cases happly
      exact Or.inl rfl

theorem encodeSimpleResult_inj {ok ok' : Bool}
    (h : encodeSimpleResult ok = encodeSimpleResult ok') : ok = ok' := by
  revert h
  cases ok <;> cases ok' <;> decide

/-- A command that cannot be read or is answered with a failure does nothing to the book. -/
theorem LOBStateMachine.book_unchanged {m m' : LOBStateMachine L} {data result : Bytes}
    {coins : Coins} (happly : m.apply data coins = .ok (result, m'))
    (hfail : Undecodable data ∨ result = encodeSimpleResult false) : m'.book_ = m.book_ := by
  rcases apply_cases happly with hsame | ⟨fields, fills, rested, remaining, hdecode, hresult⟩ |
    ⟨orderId, ok, hdecode, hcancel, hresult⟩ |
    ⟨orderId, newPrice, newQuantity, ok, hdecode, hmodify, hresult⟩
  · exact hsame
  · rcases hfail with hnone | hfail
    · rw [hnone.1] at hdecode
      cases hdecode
    · rw [hresult] at hfail
      cases hfail
  · rcases hfail with hnone | hfail
    · rw [hnone.2.1] at hdecode
      cases hdecode
    · rw [encodeSimpleResult_inj (hresult.symm.trans hfail)] at hcancel
      exact (Book.cancelOrder_eq_false_iff.mp hcancel).2
  · rcases hfail with hnone | hfail
    · rw [hnone.2.2] at hdecode
      cases hdecode
    · rw [encodeSimpleResult_inj (hresult.symm.trans hfail)] at hmodify
      exact (Book.modifyOrder_eq_false_iff.mp hmodify).2

variable [LawfulLevels L]

/-- A machine that commands have led to holds resting orders with different ids and something
left. -/
theorem LOBStateMachine.sane_of_applyAll {symbol : Bytes} {commands : List (Bytes × Coins)}
    {results : List Bytes} {m : LOBStateMachine L}
    (hrun : (LOBStateMachine.new symbol).applyAll commands = .ok (results, m)) :
    ∃ q, Tracks m.book_ symbol q ∧ q.Sane :=
  (Tracks.new symbol).applyAll (fun c _ _ seq h => h.apply c.1 seq) hrun sane_nil

/-- **What is reported is what the book does.** -/
theorem Tracks.outcome {b : Book L} {symbol : Bytes} {q : Resting} {id : UInt64} {side : Side}
    {price quantity rest : Int64} {seq : UInt64} {fills : List Fill}
    (h : Tracks b symbol (q.afterFills id side price seq fills rest)) (hq : q.Sane)
    (hnew : q.getOrder id = none)
    (hw : Walked side id quantity (q.makers side price) fills rest) :
    Outcome b id side price quantity fills (rest > 0) rest := by
  have hget := (h.shows.getOrder id).trans (getOrder_afterFills hq hnew seq fills rest)
  have hpos : ∀ f ∈ fills, 0 < f.quantity.toInt := by
    intro f hf
    obtain ⟨o, -, -, hpos, -⟩ := hw.maker f hf
    exact hpos
  refine ⟨?_, ?_, ?_, ?_⟩
  · intro part hpre
    have hle := total_isPrefix_le hpos hpre
    have hmax := hw.total_le
    exact ⟨total_nonneg fun f hf => Int.le_of_lt (hpos f (hpre.subset hf)), by omega⟩
  · have hsum := hw.sum
    omega
  · rw [decide_eq_true_iff, hget]
    split_ifs with hrest <;> simp [hrest]
  · intro hrested
    have hrest : rest > 0 := of_decide_eq_true hrested
    rw [if_pos hrest] at hget
    have hlevel := level_afterFills hrest q id side price seq fills
    refine ⟨_, (q.afterFills id side price seq fills rest).level side price, hget, rfl, rfl, rfl,
      ?_, ?_⟩
    · rw [h.fifo_eq]
      refine List.mem_map.mpr ⟨price, mem_prices.mpr ?_, rfl⟩
      rw [hlevel]
      exact List.append_ne_nil_of_right_ne_nil _ (List.cons_ne_nil _ _)
    · rw [hlevel, List.getLast?_concat]

/-- **The reported outcome of a NEW matches the book.** In every state that commands lead to, the
result of an accepted NEW that makes fewer than `2 ^ 32` fills reads back as fills, `rested` and a
remaining quantity that agree with the order and with the book; a command that fails leaves the
book as it is. -/
theorem new_outcome_matches_book {symbol : Bytes} {commands : List (Bytes × Coins)}
    {results : List Bytes} {m : LOBStateMachine L}
    (hrun : (LOBStateMachine.new symbol).applyAll commands = .ok (results, m)) :
    (∀ data orderId side price quantity coins, m.Accepts data orderId side price quantity →
      (m.book_.newOrder orderId side price quantity m.nextSeq_ coins).1.length < 2 ^ 32 →
      ∃ result m' fills rested remaining, m.apply data coins = .ok (result, m') ∧
        decodeNewResult result = some (fills, rested, remaining) ∧
        Outcome m'.book_ orderId side price quantity fills rested remaining) ∧
    ∀ data coins result m', m.apply data coins = .ok (result, m') →
      Undecodable data ∨ result = encodeSimpleResult false → m'.book_ = m.book_ := by
  obtain ⟨q, hq, hsane⟩ := LOBStateMachine.sane_of_applyAll hrun
  refine ⟨?_, fun data coins result m' happly => LOBStateMachine.book_unchanged happly⟩
  intro data orderId side price quantity coins hacc hcount
  have hnew : q.getOrder orderId = none := (hq.shows.getOrder orderId).symm.trans hacc.fresh
  obtain ⟨⟨fills, rest⟩, hwalk⟩ :
      ∃ w, walkMakers side orderId quantity (q.makers side price) = w := ⟨_, rfl⟩
  have hw := hsane.walked_of_eq hacc.positive hwalk
  obtain ⟨hfills, happlied⟩ :=
    apply_accepted hsane hacc.decoded hacc.positive hnew m.nextSeq_ hwalk
  rw [(hq.newOrder orderId side price quantity m.nextSeq_ coins).1, hfills] at hcount
  obtain ⟨m', happly, hq', -⟩ := hq.apply data coins
  rw [happlied] at happly hq'
  exact ⟨_, m', fills, _, rest, happly, decodeNewResult_encodeNewResult hcount _ _,
    hq'.outcome hsane hnew hw⟩

end Machine

/-- An ask of 4 rests; a bid of 9 takes it and rests with 5. -/
theorem new_outcome_matches_book_partial :
    let m : LOBStateMachine MapLevels := { book_ := oneAsk, nextSeq_ := 2 }
    (LOBStateMachine.new []).applyAll [(encodeNew 1 .sell 100 4, [])] =
        .ok ([encodeNewResult [] true 4], m) ∧
      ∃ result m' fills rested remaining,
        m.apply (encodeNew 2 .buy 100 9) [] = .ok (result, m') ∧
        decodeNewResult result = some (fills, rested, remaining) ∧
        Outcome m'.book_ 2 .buy 100 9 fills rested remaining := by
  intro m
  have hrun : (LOBStateMachine.new []).applyAll [(encodeNew 1 .sell 100 4, [])] =
      .ok ([encodeNewResult [] true 4], m) := by
    rfl
  refine ⟨hrun, (new_outcome_matches_book hrun).1 _ 2 .buy 100 9 [] ⟨?_, ?_, ?_⟩ ?_⟩
  · exact decodeNew_encodeNew 2 .buy 100 9
  · decide
  · decide +kernel
  · decide +kernel

/-! ## More fills than the result can count -/

section Wrapped

/-- The fills against orders of quantity 1. -/
theorem walkMakers_ones (side : Side) (id : UInt64) {makers : List Order}
    (hone : ∀ o ∈ makers, o.quantity = 1) {remaining : Int64}
    (hrem : remaining.toInt = makers.length) :
    walkMakers side id remaining makers = (makers.map fun o =>
      { makerOrderId := o.id, takerOrderId := id, price := o.price, quantity := 1,
        takerSide := side }, 0) := by
  induction makers generalizing remaining with
  | nil =>
    have hzero : remaining = 0 := Int64.toInt_inj.mp hrem
    rw [walkMakers, hzero]
    rfl
  | cons o makers ih =>
    rw [List.forall_mem_cons] at hone
    rw [List.length_cons] at hrem
    have h1 : (1 : Int64).toInt = 1 := rfl
    have hpos : remaining > 0 := toInt_pos.mpr (by omega)
    have hmin : min remaining o.quantity = 1 := by
      rw [← Int64.toInt_inj, toInt_min, hone.1]
      omega
    have hsub := toInt_sub_part (a := remaining) (b := 1) (by omega) (by omega)
    have hrest := ih hone.2 (show (remaining - 1).toInt = makers.length by omega)
    simp only [walkMakers, if_pos hpos, hmin, hrest, List.map_cons]

/-- Asks of quantity 1 at one price, with the ids from 1 on. -/
def smallAsk (i : Nat) : Order :=
  { id := UInt64.ofNat (i + 1), side := .sell, price := 100, quantity := 1,
    sequence := UInt64.ofNat (i + 1) }

def smallAsks (n : Nat) : Resting := (List.range n).map smallAsk

theorem mem_smallAsks {n : Nat} {o : Order} (h : o ∈ smallAsks n) : ∃ i < n, o = smallAsk i := by
  obtain ⟨i, hi, rfl⟩ := List.mem_map.mp h
  exact ⟨i, List.mem_range.mp hi, rfl⟩

theorem smallAsks_succ (n : Nat) : smallAsks (n + 1) = smallAsks n ++ [smallAsk n] := by
  rw [smallAsks, List.range_succ, List.map_append]
  rfl

/-- The next id is new, and so is id 0. -/
theorem getOrder_smallAsks {n : Nat} (hn : n < 2 ^ 64 - 1) {id : Nat} (hid : id < 2 ^ 64)
    (hnew : id = 0 ∨ n < id) : getOrder (smallAsks n) (UInt64.ofNat id) = none := by
  rw [getOrder_eq_none]
  intro hmem
  obtain ⟨o, ho, hid'⟩ := List.mem_map.mp hmem
  obtain ⟨i, hi, rfl⟩ := mem_smallAsks ho
  have heq := congrArg UInt64.toNat hid'
  rw [smallAsk, UInt64.toNat_ofNat', UInt64.toNat_ofNat', Nat.mod_eq_of_lt (by omega),
    Nat.mod_eq_of_lt hid] at heq
  omega

theorem sane_smallAsks {n : Nat} (hn : n < 2 ^ 64 - 1) : (smallAsks n).Sane := by
  induction n with
  | zero => exact sane_nil
  | succ n ih =>
    rw [smallAsks_succ]
    exact (ih (by omega)).concat (getOrder_smallAsks (by omega) (by omega) (Or.inr (by omega)))
      Int.zero_lt_one

/-- An ask finds nobody to trade with. -/
theorem makers_sell_smallAsks (n : Nat) : (smallAsks n).makers .sell 100 = [] := by
  rw [List.eq_nil_iff_forall_not_mem]
  intro o ho
  obtain ⟨⟨ho, hside⟩, -⟩ := mem_makers.mp ho
  obtain ⟨i, -, rfl⟩ := mem_smallAsks ho
  cases hside

theorem filter_eq_self_smallAsks (n : Nat) {P : Order → Bool} (h : ∀ i, P (smallAsk i) = true) :
    (smallAsks n).filter P = smallAsks n := by
  rw [List.filter_eq_self]
  intro o ho
  obtain ⟨i, -, rfl⟩ := mem_smallAsks ho
  exact h i

/-- A bid at their price finds all of them, in their order. -/
theorem makers_buy_smallAsks {n : Nat} (hn : 0 < n) :
    (smallAsks n).makers .buy 100 = smallAsks n := by
  have hlevel : (smallAsks n).level .sell 100 = smallAsks n :=
    filter_eq_self_smallAsks n fun _ => rfl
  have hne : smallAsks n ≠ [] := by
    rw [smallAsks, ne_eq, List.map_eq_nil_iff, List.range_eq_nil]
    omega
  have hprices : (smallAsks n).prices .sell = [100] := by
    have hsorted := prices_sorted (smallAsks n) .sell
    have hall : ∀ p ∈ (smallAsks n).prices .sell, p = 100 := by
      intro p hp
      obtain ⟨o, ho⟩ := List.exists_mem_of_ne_nil _ (mem_prices.mp hp)
      obtain ⟨ho, -, hprice⟩ := mem_level.mp ho
      obtain ⟨i, -, rfl⟩ := mem_smallAsks ho
      exact hprice.symm
    have hmem : (100 : Int64) ∈ (smallAsks n).prices .sell := mem_prices.mpr (by rw [hlevel]; exact hne)
    generalize (smallAsks n).prices .sell = ps at hsorted hall hmem
    match ps with
    | [] => cases hmem
    | [p] => rw [hall p List.mem_cons_self]
    | p :: p' :: ps =>
      have hlt := (List.pairwise_cons.mp hsorted).1 p' List.mem_cons_self
      rw [hall p List.mem_cons_self, hall p' (List.mem_cons_of_mem _ List.mem_cons_self),
        (strictWeakBetter .sell).irrefl] at hlt
      cases hlt
  have hby : (smallAsks n).byPriority .sell = smallAsks n := by
    rw [byPriority, hprices, List.flatMap_cons, List.flatMap_nil, List.append_nil, hlevel]
  change ((smallAsks n).byPriority .sell).filter _ = _
  rw [hby]
  exact filter_eq_self_smallAsks n fun _ => rfl

/-- The commands that place them. -/
def askCommands (n : Nat) : List (Bytes × Coins) :=
  (List.range n).map fun i => (encodeNew (UInt64.ofNat (i + 1)) .sell 100 1, [])

theorem apply_smallAsk {n : Nat} (hn : n < 2 ^ 64 - 1) :
    ((smallAsks n).apply (encodeNew (UInt64.ofNat (n + 1)) .sell 100 1)
      (UInt64.ofNat (n + 1))).2 = smallAsks (n + 1) := by
  have hwalk : walkMakers .sell (UInt64.ofNat (n + 1)) 1 ((smallAsks n).makers .sell 100) =
      ([], 1) := by
    rw [makers_sell_smallAsks]
    rfl
  obtain ⟨-, happly⟩ := apply_accepted (sane_smallAsks hn)
    (decodeNew_encodeNew (UInt64.ofNat (n + 1)) .sell 100 1) (by decide)
    (getOrder_smallAsks hn (by omega) (Or.inr (Nat.lt_succ_self n))) (UInt64.ofNat (n + 1)) hwalk
  have hsame : (smallAsks n).filterMap (settle []) = smallAsks n :=
    (List.filterMap_congr fun _ _ => rfl).trans List.filterMap_some
  rw [happly, afterFills, hsame, smallAsks_succ]
  rfl

variable {L : Side → Type} [∀ s, Levels (L s)]

theorem LOBStateMachine.applyAll_concat {m m₁ m₂ : LOBStateMachine L}
    {commands : List (Bytes × Coins)} {results : List Bytes} {data result : Bytes} {coins : Coins}
    (h : m.applyAll commands = .ok (results, m₁)) (h' : m₁.apply data coins = .ok (result, m₂)) :
    m.applyAll (commands ++ [(data, coins)]) = .ok (results ++ [result], m₂) := by
  induction commands generalizing m results with
  | nil =>
    cases h
    rw [List.nil_append, LOBStateMachine.applyAll, h']
    rfl
  | cons c commands ih =>
    obtain ⟨r, hfirst, h⟩ := ok_of_bind h
    obtain ⟨rs, hrest, h⟩ := ok_of_bind h
    cases h
    rw [List.cons_append, LOBStateMachine.applyAll, hfirst]
    change (r.2.applyAll (commands ++ [(data, coins)])).bind _ = _
    rw [ih hrest]
    rfl

variable [LawfulLevels L]

theorem applyAll_askCommands {n : Nat} (hn : n < 2 ^ 64 - 1) :
    ∃ (results : List Bytes) (m : LOBStateMachine L),
      (LOBStateMachine.new []).applyAll (askCommands n) = .ok (results, m) ∧
      Tracks m.book_ [] (smallAsks n) ∧ m.nextSeq_ = UInt64.ofNat (n + 1) := by
  induction n with
  | zero => exact ⟨[], .new [], rfl, Tracks.new [], rfl⟩
  | succ n ih =>
    obtain ⟨results, m, hrun, htracks, hseq⟩ := ih (by omega)
    obtain ⟨m', happly, htracks', hseq'⟩ :=
      htracks.apply (encodeNew (UInt64.ofNat (n + 1)) .sell 100 1) []
    have hcommands : askCommands (n + 1) =
        askCommands n ++ [(encodeNew (UInt64.ofNat (n + 1)) .sell 100 1, [])] := by
      rw [askCommands, List.range_succ, List.map_append]
      rfl
    rw [hcommands]
    refine ⟨_, m', LOBStateMachine.applyAll_concat hrun happly, ?_, ?_⟩
    · rw [hseq, apply_smallAsk (by omega)] at htracks'
      exact htracks'
    · have hne : encodeNew (UInt64.ofNat (n + 1)) .sell 100 1 ≠ [] := List.cons_ne_nil _ _
      rw [hseq', hseq, if_neg hne, UInt64.ofNat_add (n + 1) 1]
      rfl

/-- As many fills as the count can hold and one more round of it: the reader sees no fill, and takes
the first bytes of the fills for the rest of the result. -/
theorem decodeNewResult_wrapped {fills : List Fill} {price quantity : Int64} {side : Side}
    (hcount : ((⟨1, 0, price, quantity, side⟩ : Fill) :: fills).length = 2 ^ 32) (rested : Bool)
    (remainingQty : Int64) :
    decodeNewResult (encodeNewResult (⟨1, 0, price, quantity, side⟩ :: fills) rested remainingQty) =
      some ([], true, 0) := by
  have hsplit := decodeNewResult_split [] (⟨1, 0, price, quantity, side⟩ :: fills) rested
    remainingQty (by
      rw [List.nil_append, hcount]
      rfl)
  have hbytes : ∀ rest : Bytes, putFill ⟨1, 0, price, quantity, side⟩ ++ rest =
      1 :: (putI64 0 ++ ([0, 0, 0, 0, 0, 0, 0] ++ (putI64 price ++ (putI64 quantity ++
        (sideByte side :: rest))))) := by
    intro rest
    simp only [putFill, List.append_assoc]
    rfl
  rw [List.nil_append] at hsplit
  rw [hsplit, List.flatMap_cons, List.append_assoc, hbytes, getU8_cons]
  simp only [bind, Option.bind_some, getI64_putI64, pure]
  rfl

/-- A bid for all the asks reports no fill, a rest and nothing remaining. -/
theorem bid_for_smallAsks {n : Nat} (hn : n = 2 ^ 32) :
    ∃ (results : List Bytes) (m : LOBStateMachine L) (result : Bytes) (m' : LOBStateMachine L),
      (LOBStateMachine.new []).applyAll (askCommands n) = .ok (results, m) ∧
      m.Accepts (encodeNew 0 .buy 100 4294967296) 0 .buy 100 4294967296 ∧
      m.apply (encodeNew 0 .buy 100 4294967296) [] = .ok (result, m') ∧
      decodeNewResult result = some ([], true, 0) ∧ m'.book_.getOrder 0 = none := by
  have hlt : n < 2 ^ 64 - 1 := by omega
  obtain ⟨results, m, hrun, htracks, -⟩ := applyAll_askCommands (L := L) hlt
  have hsane := sane_smallAsks hlt
  have hnew : getOrder (smallAsks n) 0 = none :=
    getOrder_smallAsks hlt (Nat.two_pow_pos 64) (Or.inl rfl)
  have hdecode := decodeNew_encodeNew 0 .buy 100 4294967296
  have hlen : (smallAsks n).length = n := by rw [smallAsks, List.length_map, List.length_range]
  have hwalk : walkMakers .buy 0 4294967296 ((smallAsks n).makers .buy 100) =
      ((smallAsks n).map fun o => ⟨o.id, 0, o.price, 1, .buy⟩, 0) := by
    rw [makers_buy_smallAsks (by omega)]
    refine walkMakers_ones .buy 0 ?_ ?_
    · intro o ho
      obtain ⟨i, -, rfl⟩ := mem_smallAsks ho
      rfl
    · rw [hlen, hn]
      rfl
  obtain ⟨-, happlied⟩ := apply_accepted hsane hdecode (by decide) hnew m.nextSeq_ hwalk
  obtain ⟨m', happly, htracks', -⟩ := htracks.apply (encodeNew 0 .buy 100 4294967296) []
  rw [happlied] at happly htracks'
  refine ⟨results, m, _, m', hrun, ⟨hdecode, by decide, ?_⟩, happly, ?_, ?_⟩
  · rw [htracks.shows.getOrder, hnew]
  · -- the first ask has id 1
    obtain ⟨k, rfl⟩ : ∃ k, n = k + 1 := ⟨n - 1, by omega⟩
    have hfirst : smallAsks (k + 1) = smallAsk 0 :: (List.range' 1 k).map smallAsk := by
      rw [smallAsks, List.range_eq_range', List.range'_succ, List.map_cons]
    rw [hfirst, List.map_cons]
    refine decodeNewResult_wrapped ?_ _ _
    rw [← hn, List.length_cons, List.length_map, List.length_map, List.length_range']
  · rw [htracks'.shows.getOrder, getOrder_afterFills hsane hnew, if_neg (by decide)]

theorem fill_count_wraps :
    ∃ (results : List Bytes) (m : LOBStateMachine MapLevels) (result : Bytes)
      (m' : LOBStateMachine MapLevels),
      (LOBStateMachine.new []).applyAll (askCommands (2 ^ 32)) = .ok (results, m) ∧
      m.Accepts (encodeNew 0 .buy 100 4294967296) 0 .buy 100 4294967296 ∧
      m.apply (encodeNew 0 .buy 100 4294967296) [] = .ok (result, m') ∧
      decodeNewResult result = some ([], true, 0) ∧ m'.book_.getOrder 0 = none :=
  bid_for_smallAsks rfl

end Wrapped

end NexusLOB.Lob
