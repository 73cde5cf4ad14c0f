import NexusLOB.Book.Commands

/-!
# Snapshot and restore

A restored machine lists its orders level by level instead of by arrival, which no command can tell
apart. `Twin` relates machines that hold the same levels and the same counter; they answer every
command with the same bytes and stay twins, whichever engines they run on.
-/

namespace NexusLOB.Lob

open Codec OrderProtocol

/-! ## The format -/

@[simp] theorem LOBStateMachine.getOrder_putOrder (o : Order) (rest : Bytes) :
    LOBStateMachine.getOrder (LOBStateMachine.putOrder o ++ rest) = some (o, rest) := by
  simp only [LOBStateMachine.getOrder, LOBStateMachine.putOrder, List.append_assoc, getU64_putU64,
    getI64_putI64, List.cons_append, List.nil_append, getU8_cons, sideOf_sideByte, bind, Option.bind_some, pure]

section Lawful

variable {L L' : Side → Type} [∀ s, Levels (L s)] [LawfulLevels L] [∀ s, Levels (L' s)]
  [LawfulLevels L']

/-- The loop over the orders adds each of them at the end. -/
theorem Tracks.restoreOrders {b : Book L} {symbol : Bytes} {q : Resting} (h : Tracks b symbol q)
    (orders : List Order) (hids : ((q ++ orders).map Order.id).Nodup) (coins : Nat → Coins) (i : Nat)
    (rest : Bytes) :
    Tracks (LOBStateMachine.restoreOrders coins orders.length i
      (orders.flatMap LOBStateMachine.putOrder ++ rest) b) symbol (q ++ orders) := by
  induction orders generalizing b q i with
  | nil =>
    rw [List.append_nil]
    exact h
  | cons o orders ih =>
    have hnew : q.Admits (.addRestingOrder o (coins i)) := by
      change q.getOrder o.id = none
      rw [Resting.getOrder, List.find?_eq_none]
      intro o' ho' hid
      rw [List.map_append, List.map_cons, List.nodup_append] at hids
      exact hids.2.2 _ (List.mem_map_of_mem ho') _ List.mem_cons_self (of_decide_eq_true hid)
    obtain ⟨b', hcall, h'⟩ := h.call hnew
    cases hcall
    rw [List.length_cons, LOBStateMachine.restoreOrders, List.flatMap_cons, List.append_assoc,
      LOBStateMachine.getOrder_putOrder]
    have hq : q ++ o :: orders = (q ++ [o]) ++ orders := by
      rw [List.append_assoc, List.singleton_append]
    rw [hq] at hids ⊢
    exact ih h' hids (i + 1)

/-- A snapshot of `2 ^ 32` orders or more counts them in 32 bits, so only the first ones come
back. -/
theorem Tracks.restored_take {m : LOBStateMachine L} {symbol : Bytes} {q : Resting}
    (h : Tracks m.book_ symbol q) (hsymbol : symbol.length < 2 ^ 32) (m' : LOBStateMachine L')
    (coins : Nat → Coins) :
    (m'.restore m.snapshot coins).nextSeq_ = m.nextSeq_ ∧
      Tracks (m'.restore m.snapshot coins).book_ symbol (q.listed.take (q.length % 2 ^ 32)) := by
  have hcount : (UInt32.ofNat q.listed.length).toNat = (q.listed.take (q.length % 2 ^ 32)).length := by
    have hle : q.length % 2 ^ 32 ≤ q.length := Nat.mod_le _ _
    rw [UInt32.toNat_ofNat', List.length_take, ← q.alike_listed.perm.length_eq]
    exact (Nat.min_eq_left hle).symm
  have hsym : (UInt32.ofNat symbol.length).toNat = symbol.length :=
    UInt32.toNat_ofNat_of_lt' hsymbol
  have hlisted : m.book_.allOrders = q.listed := h.allOrders_eq
  have horders : q.listed.flatMap LOBStateMachine.putOrder =
      (q.listed.take (q.length % 2 ^ 32)).flatMap LOBStateMachine.putOrder ++
        (q.listed.drop (q.length % 2 ^ 32)).flatMap LOBStateMachine.putOrder := by
    rw [← List.flatMap_append, List.take_append_drop]
  have hsnapshot : m.snapshot = putU64 m.nextSeq_ ++ (putU32 (UInt32.ofNat symbol.length) ++
      (symbol ++ (putU32 (UInt32.ofNat q.listed.length) ++
        q.listed.flatMap LOBStateMachine.putOrder))) := by
    rw [LOBStateMachine.snapshot, Book.symbol, h.symbol_eq, hlisted]
    simp only [List.append_assoc]
  rw [hsnapshot]
  unfold LOBStateMachine.restore
  simp only [getU64_putU64, getU32_putU32, hsym, getBytes_append rfl, hcount, true_and]
  rw [horders]
  have hids : (([] ++ q.listed.take (q.length % 2 ^ 32)).map Order.id).Nodup := by
    have hall : (q.listed.map Order.id).Nodup :=
      (q.alike_listed.perm.map Order.id).nodup_iff.mp h.nodup
    exact hall.sublist ((List.take_sublist _ _).map _)
  exact (Tracks.reset m'.book_ symbol).restoreOrders _ hids coins 0 _

/-- A restored snapshot gives the symbol, the counter and the listed orders. -/
theorem Tracks.restored {m : LOBStateMachine L} {symbol : Bytes} {q : Resting}
    (h : Tracks m.book_ symbol q) (hsymbol : symbol.length < 2 ^ 32) (hcount : q.length < 2 ^ 32)
    (m' : LOBStateMachine L') (coins : Nat → Coins) :
    (m'.restore m.snapshot coins).nextSeq_ = m.nextSeq_ ∧
      Tracks (m'.restore m.snapshot coins).book_ symbol q.listed := by
  have hall : q.listed.take (q.length % 2 ^ 32) = q.listed := by
    rw [Nat.mod_eq_of_lt hcount, q.alike_listed.perm.length_eq, List.take_length]
  rw [← hall]
  exact h.restored_take hsymbol m' coins

/-! ## Twins -/

/-- Machines that hold the same levels and the same counter. -/
def Twin (m : LOBStateMachine L) (m' : LOBStateMachine L') : Prop :=
  m.nextSeq_ = m'.nextSeq_ ∧
    ∃ symbol q q', Tracks m.book_ symbol q ∧ Tracks m'.book_ symbol q' ∧ q.Alike q'

namespace Twin

variable {m : LOBStateMachine L} {m' : LOBStateMachine L'}

theorem snapshot_eq (h : Twin m m') : m.snapshot = m'.snapshot := by
  obtain ⟨hseq, symbol, q, q', hb, hb', halike⟩ := h
  have horders : m.book_.allOrders = m'.book_.allOrders := by
    rw [hb.allOrders_eq, hb'.allOrders_eq, halike.byPriority_eq, halike.byPriority_eq]
  simp only [LOBStateMachine.snapshot, horders, Book.symbol, hb.symbol_eq, hb'.symbol_eq, hseq]

/-- Twins answer a command with the same bytes. -/
theorem apply (h : Twin m m') (data : Bytes) (coins coins' : Coins) :
    ∃ result n n', m.apply data coins = .ok (result, n) ∧ m'.apply data coins' = .ok (result, n') ∧
      Twin n n' := by
  obtain ⟨hseq, symbol, q, q', hb, hb', halike⟩ := h
  obtain ⟨n, hn, hbn, hseqn⟩ := hb.apply data coins
  obtain ⟨n', hn', hbn', hseqn'⟩ := hb'.apply data coins'
  obtain ⟨hresult, halike'⟩ := halike.apply hb.nodup data m.nextSeq_
  rw [← hseq] at hn' hbn' hseqn'
  rw [← hresult] at hn'
  exact ⟨_, n, n', hn, hn', hseqn.trans hseqn'.symm, symbol, _, _, hbn, hbn', halike'⟩

/-- Twins answer any commands with the same bytes and end as twins. -/
theorem applyAll (h : Twin m m') (commands : List (Bytes × Coins × Coins)) :
    ∃ results n n',
      m.applyAll (commands.map fun c => (c.1, c.2.1)) = .ok (results, n) ∧
      m'.applyAll (commands.map fun c => (c.1, c.2.2)) = .ok (results, n') ∧ Twin n n' := by
  induction commands generalizing m m' with
  | nil => exact ⟨[], m, m', rfl, rfl, h⟩
  | cons c commands ih =>
    obtain ⟨result, n, n', hn, hn', h₁⟩ := h.apply c.1 c.2.1 c.2.2
    obtain ⟨results, o, o', ho, ho', h₂⟩ := ih h₁
    refine ⟨result :: results, o, o', ?_, ?_, h₂⟩
    · rw [List.map_cons, LOBStateMachine.applyAll, hn]
      change (n.applyAll _).bind _ = _
      rw [ho]
      rfl
    · rw [List.map_cons, LOBStateMachine.applyAll, hn']
      change (n'.applyAll _).bind _ = _
      rw [ho']
      rfl

end Twin

/-- A machine that commands have led to holds some resting orders. -/
theorem LOBStateMachine.tracks_of_applyAll {symbol : Bytes} {commands : List (Bytes × Coins)}
    {results : List Bytes} {m : LOBStateMachine L}
    (hrun : (LOBStateMachine.new symbol).applyAll commands = .ok (results, m)) :
    ∃ symbol' q, Tracks m.book_ symbol' q := by
  obtain ⟨q, hq, -⟩ := (Tracks.new symbol).applyAll (P := fun _ => True)
    (fun _ _ _ _ _ => trivial) hrun trivial
  exact ⟨symbol, q, hq⟩

/-- The levels of a side with their orders, first in first out. -/
def Book.fifo (b : Book L) (s : Side) : List (Int64 × List Order) :=
  (Levels.toList (b.side s)).map fun pl => (pl.1, pl.2.map ListNode.order)

theorem Mirrors.fifo_eq {b : Book L} {mb : MapOrderBook} {xs : List ListNode} (h : Mirrors b mb)
    (hlevels : HasLevels mb xs) (s : Side) :
    b.fifo s = ((ordersIn xs).prices s).map fun price => (price, (ordersIn xs).level s price) := by
  rw [Book.fifo, h.toList_eq, hlevels.bindings, List.map_map]
  refine List.map_congr_left ?_
  intro price _
  exact Prod.ext rfl (map_nodesAt xs s price)

theorem Tracks.fifo_eq {b : Book L} {symbol : Bytes} {q : Resting} (h : Tracks b symbol q)
    (s : Side) : b.fifo s = (q.prices s).map fun price => (price, q.level s price) := by
  obtain ⟨mb, xs, hmirrors, hkeeps, -, rfl⟩ := h
  exact hmirrors.fifo_eq hkeeps.hasLevels s

/-- Restoring a snapshot into any machine gives a machine that nobody can tell from the one the
snapshot was taken of. -/
theorem restore_snapshot_lossless {symbol : Bytes} {commands : List (Bytes × Coins)}
    {results : List Bytes} {m : LOBStateMachine L}
    (hrun : (LOBStateMachine.new symbol).applyAll commands = .ok (results, m))
    (hsymbol : m.book_.symbol.length < 2 ^ 32) (hcount : m.book_.orderCount < 2 ^ 32)
    (m' : LOBStateMachine L') (coins : Nat → Coins) :
    (m'.restore m.snapshot coins).book_.symbol = m.book_.symbol ∧
      (m'.restore m.snapshot coins).nextSeq_ = m.nextSeq_ ∧
      (∀ s, (m'.restore m.snapshot coins).book_.fifo s = m.book_.fifo s) ∧
      ∀ later : List (Bytes × Coins × Coins), ∃ answers n n',
        m.applyAll (later.map fun c => (c.1, c.2.1)) = .ok (answers, n) ∧
        (m'.restore m.snapshot coins).applyAll (later.map fun c => (c.1, c.2.2)) =
          .ok (answers, n') ∧
        n.snapshot = n'.snapshot := by
  obtain ⟨symbol', q, hb⟩ := LOBStateMachine.tracks_of_applyAll hrun
  have hsym : m.book_.symbol = symbol' := hb.symbol_eq
  rw [hsym] at hsymbol
  rw [hb.shows.orderCount, Resting.orderCount] at hcount
  obtain ⟨hseq, hr⟩ := hb.restored hsymbol hcount m' coins
  have halike := q.alike_listed
  refine ⟨hr.symbol_eq.trans hsym.symm, hseq, ?_, ?_⟩
  · intro s
    rw [hr.fifo_eq, hb.fifo_eq, halike.prices_eq]
    refine List.map_congr_left ?_
    intro price _
    rw [halike s price]
  · intro later
    have htwin : Twin m (m'.restore m.snapshot coins) :=
      ⟨hseq.symm, symbol', q, q.listed, hb, hr, halike⟩
    obtain ⟨answers, n, n', hn, hn', h'⟩ := htwin.applyAll later
    exact ⟨answers, n, n', hn, hn', h'.snapshot_eq⟩

end Lawful

/-- What every command of a run keeps, counting commands, holds at its end. -/
theorem LOBStateMachine.applyAll_induction {L : Side → Type} [∀ s, Levels (L s)]
    {P : Nat → LOBStateMachine L → Prop}
    (hstep : ∀ {n m data coins result m'}, P n m → m.apply data coins = .ok (result, m') →
      P (n + 1) m') {n : Nat} {m m' : LOBStateMachine L} {commands : List (Bytes × Coins)}
    {results : List Bytes} (h : P n m) (hrun : m.applyAll commands = .ok (results, m')) :
    P (n + commands.length) m' := by
  induction commands generalizing m n results with
  | nil =>
    cases hrun
    exact h
  | cons c commands ih =>
    rw [LOBStateMachine.applyAll] at hrun
    cases happly : m.apply c.1 c.2 with
    | error e =>
      rw [happly] at hrun
      cases hrun
    | ok r =>
      rw [happly] at hrun
      change (r.2.applyAll commands).bind _ = _ at hrun
      cases hrest : r.2.applyAll commands with
      | error e =>
        rw [hrest] at hrun
        cases hrun
      | ok r' =>
        rw [hrest] at hrun
        cases hrun
        have hall := ih (hstep h happly) hrest
        rwa [List.length_cons, Nat.add_comm commands.length 1, ← Nat.add_assoc]

section Ends

variable {β : Type} {L : Side → Type} [∀ s, Levels (L s)] {m m' : LOBStateMachine L}
  {commands : List (Bytes × Coins)} {results : List Bytes}

/-- What is read off the machine at the end of a run. -/
theorem eq_of_applyAll (hrun : m.applyAll commands = .ok (results, m')) (f : LOBStateMachine L → β)
    {y : β} (h : (m.applyAll commands).map (fun r => f r.2) = .ok y) : f m' = y := by
  rw [hrun] at h
  exact Except.ok.inj h

theorem exists_of_applyAll {f : LOBStateMachine L → β} {y : β}
    (h : (m.applyAll commands).map (fun r => f r.2) = .ok y) :
    ∃ results m', m.applyAll commands = .ok (results, m') ∧ f m' = y := by
  cases hrun : m.applyAll commands with
  | error e =>
    rw [hrun] at h
    cases h
  | ok r => exact ⟨r.1, r.2, rfl, eq_of_applyAll hrun f h⟩

end Ends

/-- Three bids at one price; a sale takes a part of the first, and the second is modified, which
puts it behind the third. -/
def requeue : List (Bytes × Coins) :=
  [(encodeNew 1 .buy 100 5, []), (encodeNew 2 .buy 100 5, []), (encodeNew 3 .buy 100 5, []),
    (encodeNew 4 .sell 100 2, []), (encodeModify 2 100 9, [])]

theorem requeue_run : ∃ results m,
    (LOBStateMachine.new [76] : LOBStateMachine MapLevels).applyAll requeue = .ok (results, m) ∧
      (m.book_.symbol, m.book_.orderCount, m.book_.fifo .buy) = ([76], 3,
        [(100, [⟨1, .buy, 100, 3, 1⟩, ⟨3, .buy, 100, 5, 3⟩, ⟨2, .buy, 100, 9, 5⟩])]) :=
  exists_of_applyAll (by decide +kernel)

/-- A map machine after these commands, restored into a skip list machine that holds an ask. A sale
that takes the first bid and a part of the next does the same on both. -/
theorem restore_snapshot_lossless_requeue : ∃ results m results' m',
    (LOBStateMachine.new [76] : LOBStateMachine MapLevels).applyAll requeue = .ok (results, m) ∧
      (LOBStateMachine.new [88] : LOBStateMachine SkipLevels).applyAll
        [(encodeNew 9 .sell 50 1, [true])] = .ok (results', m') ∧
      (m.book_.orderCount, m'.book_.orderCount) = (3, 1) ∧
      (m'.restore m.snapshot fun _ => [true]).book_.symbol = m.book_.symbol ∧
      (m'.restore m.snapshot fun _ => [true]).nextSeq_ = m.nextSeq_ ∧
      (∀ s, (m'.restore m.snapshot fun _ => [true]).book_.fifo s = m.book_.fifo s) ∧
      ∃ answers n n', m.applyAll [(encodeNew 6 .sell 100 4, [])] = .ok (answers, n) ∧
        (m'.restore m.snapshot fun _ => [true]).applyAll [(encodeNew 6 .sell 100 4, [true])] =
          .ok (answers, n') ∧
        n.snapshot = n'.snapshot := by
  obtain ⟨results, m, hrun, hm⟩ := requeue_run
  obtain ⟨results', m', hrun', hm'⟩ : ∃ results' m',
      (LOBStateMachine.new [88] : LOBStateMachine SkipLevels).applyAll
        [(encodeNew 9 .sell 50 1, [true])] = .ok (results', m') ∧ m'.book_.orderCount = 1 :=
    exists_of_applyAll (by decide +kernel)
  simp only [Prod.mk.injEq] at hm
  obtain ⟨hsymbol, hcount, -⟩ := hm
  obtain ⟨hsymbol', hseq', hfifo', hlater⟩ := restore_snapshot_lossless hrun
    (by rw [hsymbol]; decide) (by rw [hcount]; decide) m' fun _ => [true]
  exact ⟨results, m, results', m', hrun, hrun', Prod.ext hcount hm', hsymbol', hseq', hfifo',
    hlater [(encodeNew 6 .sell 100 4, [], [true])]⟩

end NexusLOB.Lob
