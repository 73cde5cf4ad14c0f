import NexusLOB.Book.SnapshotRestore

/-!
# First in, first out is the order of the log

Every command takes the next sequence number, and an order that is added or modified is stamped
with it. Along any run of commands and restores of earlier snapshots the orders of a level stand in
the order of their stamps, and no stamp occurs twice. Two fixed widths bound this. The counter is a
64-bit word that starts at 1: the last command before it comes round to 0 is the one with number
`2 ^ 64 - 1`. And a snapshot writes the length of the book's symbol in 32 bits.
-/

namespace NexusLOB.Lob

open Codec OrderProtocol

namespace Resting

/-- All stamps are below `bound`, different, and increasing along each level. -/
structure Stamped (q : Resting) (bound : Nat) : Prop where
  below : ∀ o ∈ q, o.sequence.toNat < bound
  distinct : (q.map Order.sequence).Nodup
  fifo : ∀ s price, ((q.level s price).map Order.sequence).Pairwise (· < ·)

variable {q : Resting} {bound : Nat}

theorem stamped_nil (bound : Nat) : Stamped [] bound :=
  ⟨fun _ ho => absurd ho List.not_mem_nil, List.nodup_nil, fun _ _ => List.Pairwise.nil⟩

theorem Stamped.mono {bound' : Nat} (h : q.Stamped bound) (hle : bound ≤ bound') :
    q.Stamped bound' :=
  ⟨fun o ho => Nat.lt_of_lt_of_le (h.below o ho) hle, h.distinct, h.fifo⟩

/-- Some of the orders of the list, in the same order on each level. -/
theorem Stamped.of_sublist {q' : Resting} (h : q.Stamped bound)
    (hmem : ∀ o ∈ q', ∃ o₀ ∈ q, o₀.sequence = o.sequence)
    (hdistinct : (q'.map Order.sequence).Nodup)
    (hfifo : ∀ s price, List.Sublist ((q'.level s price).map Order.sequence)
      ((q.level s price).map Order.sequence)) : q'.Stamped bound := by
  refine ⟨fun o ho => ?_, hdistinct, fun s price => (h.fifo s price).sublist (hfifo s price)⟩
  obtain ⟨o₀, ho₀, hseq⟩ := hmem o ho
  rw [← hseq]
  exact h.below o₀ ho₀

theorem Stamped.filter (h : q.Stamped bound) (P : Order → Bool) :
    Stamped (q.filter P) bound := by
  refine h.of_sublist (fun o ho => ⟨o, (List.mem_filter.mp ho).1, rfl⟩)
    (h.distinct.sublist (List.filter_sublist.map _)) fun s price => ?_
  rw [level, List.filter_comm]
  exact List.filter_sublist.map _

/-- Fills leave the stamps alone. -/
theorem Stamped.settle (h : q.Stamped bound) (fills : List Fill) :
    Stamped (q.filterMap (Resting.settle fills)) bound := by
  have hseq : ∀ {o o' : Order}, Resting.settle fills o = some o' → o'.sequence = o.sequence :=
    fun hs => (settle_same hs).2.2.2
  refine h.of_sublist (fun o ho => ?_) (h.distinct.sublist (map_filterMap_sublist Order.sequence hseq q))
    fun s price => ?_
  · obtain ⟨o₀, ho₀, hs⟩ := List.mem_filterMap.mp ho
    exact ⟨o₀, ho₀, (hseq hs).symm⟩
  · rw [level_settle]
    exact map_filterMap_sublist Order.sequence hseq _

/-- An order stamped with the bound goes to the end. -/
theorem Stamped.concat (h : q.Stamped bound) {o : Order} (ho : o.sequence.toNat = bound) :
    Stamped (q ++ [o]) (bound + 1) := by
  have hlt : ∀ o' ∈ q, o'.sequence < o.sequence := by
    intro o' ho'
    have := h.below o' ho'
    rw [UInt64.lt_iff_toNat_lt]
    omega
  refine ⟨fun o' ho' => ?_, ?_, fun s price => ?_⟩
  · rcases List.mem_append.mp ho' with ho' | ho'
    · have := h.below o' ho'
      omega
    · obtain rfl := List.mem_singleton.mp ho'
      omega
  · rw [List.map_append, List.map_singleton]
    refine List.nodup_append.mpr ⟨h.distinct, List.nodup_singleton _, ?_⟩
    intro x hx y hy heq
    obtain ⟨o', ho', rfl⟩ := List.mem_map.mp hx
    have := hlt o' ho'
    rw [heq, List.mem_singleton.mp hy] at this
    exact UInt64.lt_irrefl _ this
  · rw [level_append, List.map_append]
    refine List.pairwise_append.mpr ⟨h.fifo s price, ?_, ?_⟩
    · have hone : List.Sublist (level [o] s price) [o] := List.filter_sublist
      exact (List.pairwise_singleton _ _).sublist (hone.map _)
    · intro x hx y hy
      obtain ⟨o', ho', rfl⟩ := List.mem_map.mp hx
      obtain ⟨o'', ho'', rfl⟩ := List.mem_map.mp hy
      obtain rfl := List.mem_singleton.mp (mem_level.mp ho'').1
      exact hlt o' (mem_level.mp ho').1

theorem Stamped.newOrder (h : q.Stamped bound) (id : UInt64) (side : Side)
    (price quantity : Int64) {sequence : UInt64} (hseq : sequence.toNat = bound) :
    (q.newOrder id side price quantity sequence).2.Stamped (bound + 1) := by
  unfold Resting.newOrder
  split
  · exact h.mono (Nat.le_succ _)
  · dsimp only
    split
    · exact (h.settle _).concat hseq
    · rw [List.append_nil]
      exact (h.settle _).mono (Nat.le_succ _)

theorem Stamped.modifyOrder (h : q.Stamped bound) (id : UInt64) (newPrice newQuantity : Int64)
    {newSequence : UInt64} (hseq : newSequence.toNat = bound) :
    (q.modifyOrder id newPrice newQuantity newSequence).2.Stamped (bound + 1) := by
  unfold Resting.modifyOrder
  cases q.getOrder id with
  | none => exact h.mono (Nat.le_succ _)
  | some o =>
    dsimp only
    split
    · exact (h.filter _).concat hseq
    · rw [List.append_nil]
      exact (h.filter _).mono (Nat.le_succ _)

/-- A command with the bound as its number. -/
theorem Stamped.apply (h : q.Stamped bound) (data : Bytes) {seq : UInt64} (hseq : seq.toNat = bound) :
    (q.apply data seq).2.Stamped (bound + 1) := by
  have hmono := h.mono (Nat.le_succ bound)
  refine apply_cases (P := fun q => q.Stamped (bound + 1)) hmono ?_ ?_ ?_
  · intro orderId side price quantity _
    exact h.newOrder orderId side price quantity hseq
  · intro orderId
    exact hmono.filter _
  · intro orderId newPrice newQuantity
    exact h.modifyOrder orderId newPrice newQuantity hseq

/-- The first of the listed orders, as a snapshot lists them. -/
theorem Stamped.listed_take (h : q.Stamped bound) (n : Nat) :
    Stamped (q.listed.take n) bound := by
  have hperm := q.alike_listed.perm
  refine h.of_sublist (fun o ho => ⟨o, hperm.mem_iff.mpr (List.mem_of_mem_take ho), rfl⟩) ?_
    fun s price => ?_
  · have hall : (q.listed.map Order.sequence).Nodup :=
      (hperm.map Order.sequence).nodup_iff.mp h.distinct
    exact hall.sublist ((List.take_sublist _ _).map _)
  · rw [q.alike_listed s price]
    exact ((List.take_sublist _ _).filter _).map _

end Resting

section Lawful

variable {L : Side → Type} [∀ s, Levels (L s)] [LawfulLevels L]

namespace LOBStateMachine

/-- A machine after `n` commands, with the snapshots taken on the way, any of which may be restored
at any time. -/
inductive Reached (symbol : Bytes) : LOBStateMachine L → Nat → List Bytes → Prop
  | new : Reached symbol (LOBStateMachine.new symbol) 0 []
  | apply {m m' : LOBStateMachine L} {n taken result} (data : Bytes) (coins : Coins)
      (h : Reached symbol m n taken) (hresult : m.apply data coins = .ok (result, m')) :
      Reached symbol m' (n + 1) taken
  | snapshot {m : LOBStateMachine L} {n taken} (h : Reached symbol m n taken) :
      Reached symbol m n (m.snapshot :: taken)
  | restore {m : LOBStateMachine L} {n taken data} (coins : Nat → Coins)
      (h : Reached symbol m n taken) (hdata : data ∈ taken) :
      Reached symbol (m.restore data coins) n taken

/-- After at most `n` commands the counter, without its wrap, is some `k` in `1 .. n + 1`, and all
stamps are below `k`. -/
def Logged (symbol : Bytes) (n : Nat) (m : LOBStateMachine L) : Prop :=
  ∃ q k, Tracks m.book_ symbol q ∧ m.nextSeq_ = UInt64.ofNat k ∧ k ≤ n + 1 ∧ q.Stamped k

variable {symbol : Bytes} {n : Nat} {m m' : LOBStateMachine L} {taken : List Bytes}

theorem Logged.mono {n' : Nat} (h : Logged symbol n m) (hle : n ≤ n') : Logged symbol n' m := by
  obtain ⟨q, k, hq, hseq, hk, hstamped⟩ := h
  exact ⟨q, k, hq, hseq, by omega, hstamped⟩

/-- A command draws one number, which at most one order gets. -/
theorem Logged.apply (h : Logged symbol n m) (hn : n + 1 < 2 ^ 64) {data : Bytes} {coins : Coins}
    {result : Bytes} (hresult : m.apply data coins = .ok (result, m')) :
    Logged symbol (n + 1) m' := by
  obtain ⟨q, k, hq, hseq, hk, hstamped⟩ := h
  obtain ⟨m₁, happly, hq', hnext⟩ := hq.apply data coins
  rw [hresult] at happly
  obtain ⟨-, rfl⟩ := Prod.mk.inj (Except.ok.inj happly)
  by_cases hdata : data = []
  · subst hdata
    exact ⟨q, k, hq', hnext.trans hseq, by omega, hstamped⟩
  · have hstamp : m.nextSeq_.toNat = k := by
      rw [hseq, UInt64.toNat_ofNat', Nat.mod_eq_of_lt (by omega)]
    rw [if_neg hdata, hseq] at hnext
    refine ⟨_, k + 1, hq', ?_, by omega, hstamped.apply data hstamp⟩
    rw [hnext, UInt64.ofNat_add]
    rfl

theorem Logged.restore (h : Logged symbol n m) (hsymbol : symbol.length < 2 ^ 32)
    (m' : LOBStateMachine L) (coins : Nat → Coins) :
    Logged symbol n (m'.restore m.snapshot coins) := by
  obtain ⟨q, k, hq, hseq, hk, hstamped⟩ := h
  obtain ⟨hnext, hq'⟩ := hq.restored_take hsymbol m' coins
  exact ⟨_, k, hq', hnext.trans hseq, hk, hstamped.listed_take _⟩

/-- The run lemma: the machine, and every machine whose snapshot was kept. -/
theorem Reached.logged (h : Reached symbol m n taken) (hsymbol : symbol.length < 2 ^ 32)
    (hn : n < 2 ^ 64) :
    Logged symbol n m ∧ ∀ data ∈ taken, ∃ m₀ : LOBStateMachine L, data = m₀.snapshot ∧
      Logged symbol n m₀ := by
  induction h with
  | new =>
    refine ⟨⟨[], 1, Tracks.new symbol, rfl, Nat.le_refl _, Resting.stamped_nil 1⟩, ?_⟩
    exact fun _ hdata => absurd hdata List.not_mem_nil
  | apply data coins h hresult ih =>
    obtain ⟨hm, htaken⟩ := ih (by omega)
    refine ⟨hm.apply hn hresult, fun data hdata => ?_⟩
    obtain ⟨m₀, rfl, hm₀⟩ := htaken data hdata
    exact ⟨m₀, rfl, hm₀.mono (Nat.le_succ _)⟩
  | @snapshot m n taken h ih =>
    obtain ⟨hm, htaken⟩ := ih hn
    refine ⟨hm, fun data hdata => ?_⟩
    rcases List.mem_cons.mp hdata with rfl | hdata
    · exact ⟨m, rfl, hm⟩
    · exact htaken data hdata
  | restore coins h hdata ih =>
    obtain ⟨hm, htaken⟩ := ih hn
    obtain ⟨m₀, rfl, hm₀⟩ := htaken _ hdata
    exact ⟨hm₀.restore hsymbol _ coins, htaken⟩

/-- Orders of a level stand in the order of their stamps, no stamp occurs twice, and until the
counter comes round all are below it. -/
theorem fifo_in_log_order (h : Reached symbol m n taken) (hsymbol : symbol.length < 2 ^ 32)
    (hn : n < 2 ^ 64) :
    (∀ s, ∀ level ∈ m.book_.fifo s, (level.2.map Order.sequence).Pairwise (· < ·)) ∧
      (m.book_.allOrders.map Order.sequence).Nodup ∧
      (n < 2 ^ 64 - 1 → ∀ o ∈ m.book_.allOrders, o.sequence < m.nextSeq_) := by
  obtain ⟨⟨q, k, hq, hseq, hk, hstamped⟩, -⟩ := h.logged hsymbol hn
  have hlisted : m.book_.allOrders = q.listed := hq.allOrders_eq
  have hperm := q.alike_listed.perm
  refine ⟨fun s level hlevel => ?_, ?_, fun hround o ho => ?_⟩
  · rw [hq.fifo_eq] at hlevel
    obtain ⟨price, -, rfl⟩ := List.mem_map.mp hlevel
    exact hstamped.fifo s price
  · rw [hlisted]
    exact (hperm.map Order.sequence).nodup_iff.mp hstamped.distinct
  · rw [hlisted] at ho
    have hlt := hstamped.below o (hperm.mem_iff.mpr ho)
    rw [UInt64.lt_iff_toNat_lt, hseq, UInt64.toNat_ofNat', Nat.mod_eq_of_lt (by omega)]
    exact hlt

omit [LawfulLevels L] in
/-- Commands with an unknown operation only draw numbers. -/
theorem Reached.idle (h : Reached symbol m n taken) (k : Nat) :
    Reached symbol { m with nextSeq_ := m.nextSeq_ + UInt64.ofNat k } (n + k) taken := by
  induction k with
  | zero =>
    have hzero : m.nextSeq_ + UInt64.ofNat 0 = m.nextSeq_ := UInt64.add_zero _
    rw [hzero]
    exact h
  | succ k ih =>
    rw [UInt64.ofNat_add, ← UInt64.add_assoc]
    exact .apply [0] [] ih rfl

/-- The length of a symbol of `2 ^ 32` bytes is written as 0, and its bytes are read as orders. -/
theorem restored_from_symbol {orders : List Order} {rest : Bytes}
    (hsymbol : symbol = putU32 (UInt32.ofNat orders.length) ++
      (orders.flatMap LOBStateMachine.putOrder ++ rest))
    (hlength : symbol.length = 2 ^ 32) (hcount : orders.length < 2 ^ 32)
    (hids : (orders.map Order.id).Nodup) (coins : Nat → Coins) :
    Tracks ((LOBStateMachine.new symbol : LOBStateMachine L).restore
      (LOBStateMachine.new symbol : LOBStateMachine L).snapshot coins).book_ [] orders := by
  have hnew : Tracks (LOBStateMachine.new symbol : LOBStateMachine L).book_ symbol [] :=
    Tracks.new symbol
  have hzero : (UInt32.ofNat symbol.length).toNat = 0 := by
    rw [UInt32.toNat_ofNat', hlength, Nat.mod_self]
  have hread : (UInt32.ofNat orders.length).toNat = orders.length :=
    UInt32.toNat_ofNat_of_lt' hcount
  have happend : ∀ tail : Bytes, symbol ++ tail = putU32 (UInt32.ofNat orders.length) ++
      (orders.flatMap LOBStateMachine.putOrder ++ (rest ++ tail)) := by
    intro tail
    rw [hsymbol]
    simp only [List.append_assoc]
  have hsnapshot : (LOBStateMachine.new symbol : LOBStateMachine L).snapshot =
      putU64 1 ++ (putU32 (UInt32.ofNat symbol.length) ++ ([] ++ (symbol ++ putU32 0))) := by
    have hempty : (LOBStateMachine.new symbol : LOBStateMachine L).book_.allOrders = [] :=
      hnew.allOrders_eq
    rw [LOBStateMachine.snapshot, Book.symbol, hnew.symbol_eq, hempty]
    simp only [List.append_assoc, List.flatMap_nil, List.append_nil, List.nil_append]
    rfl
  rw [hsnapshot, happend]
  unfold LOBStateMachine.restore
  simp only [getU64_putU64, getU32_putU32, hzero, getBytes_append List.length_nil, hread]
  exact (Tracks.reset _ []).restoreOrders orders hids coins 0 _

end LOBStateMachine

end Lawful

/-- A partial fill and a modification at one price, a snapshot, and the snapshot restored: the bids
stand as 1, 3, 2, with the stamps of the commands that placed them or modified them last. -/
theorem fifo_in_log_order_requeue : ∃ m : LOBStateMachine MapLevels,
    let m' := m.restore m.snapshot fun _ => []
    LOBStateMachine.Reached [76] m' 5 [m.snapshot] ∧
      (m'.book_.fifo .buy).map (fun level => level.2.map fun o => (o.id, o.quantity, o.sequence)) =
        [[(1, 3, 1), (3, 5, 3), (2, 9, 5)]] ∧
      (∀ s, ∀ level ∈ m'.book_.fifo s, (level.2.map Order.sequence).Pairwise (· < ·)) ∧
      (m'.book_.allOrders.map Order.sequence).Nodup ∧
      ((5 : Nat) < 2 ^ 64 - 1 → ∀ o ∈ m'.book_.allOrders, o.sequence < m'.nextSeq_) := by
  obtain ⟨results, m, hrun, -⟩ := requeue_run
  have hfifo := eq_of_applyAll hrun (y := [[(1, 3, 1), (3, 5, 3), (2, 9, 5)]])
    (fun m => ((m.restore m.snapshot fun _ => []).book_.fifo .buy).map fun level =>
      level.2.map fun o => (o.id, o.quantity, o.sequence)) (by decide +kernel)
  have hreached : LOBStateMachine.Reached [76] m 5 [] :=
    LOBStateMachine.applyAll_induction (P := fun n m => LOBStateMachine.Reached [76] m n [])
      (fun h happly => .apply _ _ h happly) .new hrun
  have h : LOBStateMachine.Reached [76] (m.restore m.snapshot fun _ => []) 5 [m.snapshot] :=
    .restore _ (.snapshot hreached) List.mem_cons_self
  exact ⟨m, h, hfifo, LOBStateMachine.fifo_in_log_order h (by decide) (by decide)⟩

/-- Two bids at one price with the same stamp. -/
def twoBids : List Order := [⟨1, .buy, 100, 5, 1⟩, ⟨2, .buy, 100, 5, 1⟩]

/-- A symbol of `2 ^ 32` bytes that reads like the end of a snapshot. -/
def longSymbol : Bytes :=
  putU32 (UInt32.ofNat twoBids.length) ++
    (twoBids.flatMap LOBStateMachine.putOrder ++ List.replicate (2 ^ 32 - 70) 0)

theorem length_longSymbol : longSymbol.length = 2 ^ 32 := by
  have horders : (twoBids.flatMap LOBStateMachine.putOrder).length = 66 := by decide
  rw [longSymbol, List.length_append, List.length_append, List.length_replicate, length_putU32,
    horders]
  rfl

/-- Where the counter and the snapshot's length field end. One bid and `2 ^ 64 - 2` unknown commands:
the counter is 0 and the bid with stamp 1 is not below it. A symbol of `2 ^ 32` bytes and no command
at all: the restored snapshot has two orders with one stamp. -/
theorem log_order_ends :
    (∃ m : LOBStateMachine MapLevels, LOBStateMachine.Reached [76] m (2 ^ 64 - 1) [] ∧
      m.nextSeq_ = 0 ∧ ∃ o ∈ m.book_.allOrders, ¬ o.sequence < m.nextSeq_) ∧
    ∃ m : LOBStateMachine MapLevels, ∃ taken, LOBStateMachine.Reached longSymbol m 0 taken ∧
      ¬ (m.book_.allOrders.map Order.sequence).Nodup := by
  constructor
  · have hnew : LOBStateMachine.Reached [76]
        ({ book_ := ((Book.new [76]).newOrder 7 .buy 100 5 1 []).2, nextSeq_ := 2 } :
          LOBStateMachine MapLevels) 1 [] :=
      .apply (opNew :: (putU64 7 ++ (sideByte .buy :: (putI64 100 ++ putI64 5)))) [] .new rfl
    refine ⟨_, hnew.idle (2 ^ 64 - 2), by decide, ⟨7, .buy, 100, 5, 1⟩, ?_, by decide⟩
    decide
  · have htracks : Tracks ((LOBStateMachine.new longSymbol : LOBStateMachine MapLevels).restore
        (LOBStateMachine.new longSymbol : LOBStateMachine MapLevels).snapshot fun _ => []).book_ []
          twoBids :=
      LOBStateMachine.restored_from_symbol rfl length_longSymbol (by decide) (by decide) _
    refine ⟨_, _, .restore (fun _ => []) (.snapshot .new) List.mem_cons_self, fun hnodup => ?_⟩
    rw [htracks.allOrders_eq] at hnodup
    have hbids := (((Resting.alike_listed twoBids).perm.map Order.sequence).nodup_iff).mpr hnodup
    exact absurd hbids (by decide)

end NexusLOB.Lob
