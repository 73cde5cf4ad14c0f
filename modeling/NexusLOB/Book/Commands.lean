import NexusLOB.Book.Interchange

/-!
# Commands on the reference book

What `LOBStateMachine.apply` answers and leaves behind, in terms of the list of resting orders
alone. A machine over any lawful engine follows it, so a property of commands is shown once, for
the list: `Resting.apply_cases` says what a command can do to it.
-/

namespace NexusLOB.Lob

open Codec OrderProtocol

namespace Resting

/-- A command with the sequence number it has drawn. -/
def apply (q : Resting) (data : Bytes) (seq : UInt64) : Bytes × Resting :=
  match data with
  | [] => (encodeSimpleResult false, q)
  | op :: _ =>
    if op = opNew then
      match decodeNew data with
      | none => (encodeSimpleResult false, q)
      | some (orderId, side, price, quantity) =>
        if quantity ≤ 0 ∨ (q.getOrder orderId).isSome then (encodeSimpleResult false, q)
        else
          let (fills, q) := q.newOrder orderId side price quantity seq
          let filled := fills.foldl (fun filled f => filled + f.quantity) 0
          let remaining := quantity - filled
          (encodeNewResult fills (remaining > 0) remaining, q)
    else if op = opCxl then
      match decodeCancel data with
      | none => (encodeSimpleResult false, q)
      | some orderId =>
        let (ok, q) := q.cancelOrder orderId
        (encodeSimpleResult ok, q)
    else if op = opMod then
      match decodeModify data with
      | none => (encodeSimpleResult false, q)
      | some (orderId, newPrice, newQuantity) =>
        let (ok, q) := q.modifyOrder orderId newPrice newQuantity seq
        (encodeSimpleResult ok, q)
    else (encodeSimpleResult false, q)

/-- A command adds an order that is not there yet, takes one out, modifies one, or does nothing. -/
theorem apply_cases {P : Resting → Prop} {q : Resting} {data : Bytes} {seq : UInt64} (hsame : P q)
    (hnew : ∀ orderId side price quantity,
      decodeNew data = some (orderId, side, price, quantity) →
        P (q.newOrder orderId side price quantity seq).2)
    (hcancel : ∀ orderId, P (q.cancelOrder orderId).2)
    (hmodify : ∀ orderId newPrice newQuantity,
      P (q.modifyOrder orderId newPrice newQuantity seq).2) : P (q.apply data seq).2 := by
  unfold apply
  split
  · exact hsame
  split_ifs
  · split
    · exact hsame
    · rename_i hdecode
      split_ifs
      · exact hsame
      · exact hnew _ _ _ _ hdecode
  · split
    · exact hsame
    · exact hcancel _
  · split
    · exact hsame
    · exact hmodify _ _ _
  · exact hsame

/-- The answer and the levels depend on the levels only. -/
theorem Alike.apply {q q' : Resting} (h : q.Alike q') (hids : (q.map Order.id).Nodup) (data : Bytes)
    (seq : UInt64) :
    (q.apply data seq).1 = (q'.apply data seq).1 ∧ (q.apply data seq).2.Alike (q'.apply data seq).2 := by
  unfold Resting.apply
  split
  · exact ⟨rfl, h⟩
  split_ifs
  · split
    · exact ⟨rfl, h⟩
    · rename_i orderId side price quantity _
      rw [← h.getOrder_eq hids]
      split_ifs
      · exact ⟨rfl, h⟩
      · obtain ⟨hfills, hq⟩ := h.newOrder hids orderId side price quantity seq
        dsimp only
        rw [← hfills]
        exact ⟨rfl, hq⟩
  · split
    · exact ⟨rfl, h⟩
    · obtain ⟨hok, hq⟩ := h.cancelOrder hids _
      exact ⟨congrArg encodeSimpleResult hok, hq⟩
  · split
    · exact ⟨rfl, h⟩
    · obtain ⟨hok, hq⟩ := h.modifyOrder hids _ _ _ seq
      exact ⟨congrArg encodeSimpleResult hok, hq⟩
  · exact ⟨rfl, h⟩

end Resting

/-! ## Machines follow it -/

variable {L : Side → Type} [∀ s, Levels (L s)] [LawfulLevels L]

theorem Tracks.newOrder {b : Book L} {symbol : Bytes} {q : Resting} (h : Tracks b symbol q)
    (id : UInt64) (side : Side) (price quantity : Int64) (sequence : UInt64) (coins : Coins) :
    (b.newOrder id side price quantity sequence coins).1 =
        (q.newOrder id side price quantity sequence).1 ∧
      Tracks (b.newOrder id side price quantity sequence coins).2 symbol
        (q.newOrder id side price quantity sequence).2 := by
  obtain ⟨b', hcall, h'⟩ :=
    h.call (c := .newOrder id side price quantity sequence coins) trivial
  injection hcall with hcall
  obtain ⟨hfills, rfl⟩ := Prod.mk.inj hcall
  exact ⟨Answer.fills.inj hfills, h'⟩

omit [∀ s, Levels (L s)] [LawfulLevels L] in
/-- A call that answers with a flag and a book. -/
theorem eq_ok_of_success {r : Except OutOfRange (Bool × Book L)} {ok : Bool} {b' : Book L}
    (h : r.bind (fun r => .ok (Answer.success r.1, r.2)) = .ok (Answer.success ok, b')) :
    r = .ok (ok, b') := by
  cases r with
  | error e => cases h
  | ok r =>
    cases h
    rfl

theorem Tracks.cancelOrder {b : Book L} {symbol : Bytes} {q : Resting} (h : Tracks b symbol q)
    (id : UInt64) :
    ∃ b', b.cancelOrder id = .ok ((q.cancelOrder id).1, b') ∧
      Tracks b' symbol (q.cancelOrder id).2 := by
  obtain ⟨b', hcall, h'⟩ := h.call (c := .cancelOrder id) trivial
  exact ⟨b', eq_ok_of_success hcall, h'⟩

theorem Tracks.modifyOrder {b : Book L} {symbol : Bytes} {q : Resting} (h : Tracks b symbol q)
    (id : UInt64) (newPrice newQuantity : Int64) (newSequence : UInt64) (coins : Coins) :
    ∃ b', b.modifyOrder id newPrice newQuantity newSequence coins =
        .ok ((q.modifyOrder id newPrice newQuantity newSequence).1, b') ∧
      Tracks b' symbol (q.modifyOrder id newPrice newQuantity newSequence).2 := by
  obtain ⟨b', hcall, h'⟩ :=
    h.call (c := .modifyOrder id newPrice newQuantity newSequence coins) trivial
  exact ⟨b', eq_ok_of_success hcall, h'⟩

/-- A command never throws, and every non-empty one draws a number. -/
theorem Tracks.apply {m : LOBStateMachine L} {symbol : Bytes} {q : Resting}
    (h : Tracks m.book_ symbol q) (data : Bytes) (coins : Coins) :
    ∃ m', m.apply data coins = .ok ((q.apply data m.nextSeq_).1, m') ∧
      Tracks m'.book_ symbol (q.apply data m.nextSeq_).2 ∧
      m'.nextSeq_ = if data = [] then m.nextSeq_ else m.nextSeq_ + 1 := by
  cases data with
  | nil => exact ⟨m, rfl, h, rfl⟩
  | cons op data =>
    unfold LOBStateMachine.apply Resting.apply
    rw [if_neg (List.cons_ne_nil op data)]
    dsimp only
    split_ifs
    · cases decodeNew (op :: data) with
      | none => exact ⟨_, rfl, h, rfl⟩
      | some fields =>
        obtain ⟨orderId, side, price, quantity⟩ := fields
        dsimp only
        rw [h.shows.getOrder]
        split_ifs
        · exact ⟨_, rfl, h, rfl⟩
        · obtain ⟨hfills, h'⟩ := h.newOrder orderId side price quantity m.nextSeq_ coins
          rw [hfills]
          exact ⟨_, rfl, h', rfl⟩
    · cases decodeCancel (op :: data) with
      | none => exact ⟨_, rfl, h, rfl⟩
      | some orderId =>
        obtain ⟨b', hcancel, h'⟩ := h.cancelOrder orderId
        dsimp only
        rw [hcancel]
        exact ⟨_, rfl, h', rfl⟩
    · cases decodeModify (op :: data) with
      | none => exact ⟨_, rfl, h, rfl⟩
      | some fields =>
        obtain ⟨orderId, newPrice, newQuantity⟩ := fields
        obtain ⟨b', hmodify, h'⟩ := h.modifyOrder orderId newPrice newQuantity m.nextSeq_ coins
        dsimp only
        rw [hmodify]
        exact ⟨_, rfl, h', rfl⟩
    · exact ⟨_, rfl, h, rfl⟩

/-- What every command of a run keeps of the list holds at its end. -/
theorem Tracks.applyAll {P : Resting → Prop} {commands : List (Bytes × Coins)}
    (hstep : ∀ c ∈ commands, ∀ q seq, P q → P (q.apply c.1 seq).2) {m m' : LOBStateMachine L}
    {symbol : Bytes} {q : Resting} {results : List Bytes} (h : Tracks m.book_ symbol q)
    (hrun : m.applyAll commands = .ok (results, m')) (hq : P q) :
    ∃ q', Tracks m'.book_ symbol q' ∧ P q' := by
  induction commands generalizing m q results with
  | nil =>
    cases hrun
    exact ⟨q, h, hq⟩
  | cons c commands ih =>
    obtain ⟨m₁, happly, h₁, -⟩ := h.apply c.1 c.2
    rw [LOBStateMachine.applyAll, happly] at hrun
    change (m₁.applyAll commands).bind _ = _ at hrun
    cases hrest : m₁.applyAll commands with
    | error e =>
      rw [hrest] at hrun
      cases hrun
    | ok r =>
      rw [hrest] at hrun
      cases hrun
      exact ih (fun c hc => hstep c (List.mem_cons_of_mem _ hc)) h₁ hrest
        (hstep c List.mem_cons_self q m.nextSeq_ hq)

end NexusLOB.Lob
