import NexusLOB.Codec.Records
import NexusLOB.Book.SnapshotRestore

/-!
# Restoring from any bytes

`restore` writes the counter as soon as its eight bytes are there, empties the book once the symbol
and the count are, and adds each order as it is read. `leading` is what stands whole in front of the
data, and the state after a restore is the one before with that written over it. Nothing here
assumes that the data is a snapshot or that its ids are distinct.
-/

namespace NexusLOB.Lob

open Codec Collections OrderProtocol

/-! ## A book with the nodes it was given -/

/-- The levels and the index of a book that was given the nodes `xs` one after the other. Of two
nodes with one id the index knows the later one. -/
structure Listed (b : MapOrderBook) (xs : List ListNode) : Prop where
  levels : HasLevels b xs
  index : ∀ id, b.orderIndex_.find? id =
    (xs.reverse.find? fun x => x.order.id = id).map ListNode.location
  places : (xs.map ListNode.it).Nodup
  fresh : ∀ x ∈ xs, x.it < b.nextNode

namespace Listed

variable {b : MapOrderBook} {xs : List ListNode}

theorem of_keeps_nil (h : Keeps b []) : Listed b [] where
  levels := h.level
  index := h.index_eq
  places := h.places
  fresh := h.fresh

theorem addResting (h : Listed b xs) (o : Order) (coins : Coins) :
    Listed (b.addResting o coins) (xs ++ [{ it := b.nextNode, order := o }]) := by
  obtain ⟨hlevels, hindex, hnext⟩ := h.levels.addResting o coins
  refine ⟨hlevels, ?_, nodup_places_concat h.places h.fresh o, ?_⟩
  · intro id
    rw [hindex, List.reverse_concat, List.find?_cons]
    by_cases hid : o.id = id
    · subst hid
      rw [OrderedMap.find?_insert_self, decide_eq_true rfl]
      rfl
    · rw [OrderedMap.find?_insert_of_ne _ _ hid, h.index, decide_eq_false hid]
  · rw [hnext]
    exact fresh_concat h.fresh o

theorem getOrder_eq (h : Listed b xs) (id : UInt64) :
    b.getOrder id = (ordersIn xs).reverse.find? fun o => o.id = id := by
  rw [Book.getOrder, h.index, ordersIn, ← List.map_reverse, List.find?_map]
  change _ = (xs.reverse.find? fun x => x.order.id = id).map ListNode.order
  cases hfind : xs.reverse.find? fun x => x.order.id = id with
  | none => rfl
  | some x =>
    exact h.levels.deref_location h.places (List.mem_reverse.mp (List.mem_of_find?_eq_some hfind))

end Listed

/-! ## States -/

/-- What there is to see of a machine: the counter, the symbol, the levels of each side with their
orders, and the order that each id stands for. -/
@[ext] structure State where
  nextSeq : UInt64
  symbol : Bytes
  levels : Side → List (Int64 × List Order)
  orders : UInt64 → Option Order

/-- What a snapshot says. -/
structure Image where
  nextSeq : UInt64
  symbol : Bytes
  orders : Resting

namespace Image

def bytes (img : Image) : Bytes :=
  putU64 img.nextSeq ++ (putStr img.symbol ++
    (putU32 (UInt32.ofNat img.orders.length) ++ img.orders.flatMap LOBStateMachine.putOrder))

/-- The lengths fit their words. -/
structure Fits (img : Image) : Prop where
  symbol : img.symbol.length < 2 ^ 32
  orders : img.orders.length < 2 ^ 32

/-- The state with these orders at their prices, in the order they are listed. -/
def state (img : Image) : State where
  nextSeq := img.nextSeq
  symbol := img.symbol
  levels s := (img.orders.prices s).map fun price => (price, img.orders.level s price)
  orders id := img.orders.reverse.find? fun o => o.id = id

end Image

/-- The data is a snapshot, down to the last byte, of a machine in this state. -/
def Describes (data : Bytes) (s : State) : Prop :=
  ∃ img : Image, img.Fits ∧ data = img.bytes ∧ s = img.state

/-- What stands whole in front of the data: the counter, and after it the symbol and as many orders
as are counted and complete. -/
def leading (data : Bytes) : Option (UInt64 × Option (Bytes × Resting)) := do
  let (nextSeq, data) ← getU64 data
  return (nextSeq, do
    let (sym, data) ← getStr data
    let (orderCount, data) ← getU32 data
    return (sym, readAll LOBStateMachine.getOrder orderCount.toNat data))

namespace State

/-- A state with what was read written over it. -/
def write (s : State) : Option (UInt64 × Option (Bytes × Resting)) → State
  | none => s
  | some (nextSeq, none) => { s with nextSeq := nextSeq }
  | some (nextSeq, some (sym, orders)) =>
    Image.state { nextSeq := nextSeq, symbol := sym, orders := orders }

/-- The state already has what was read. -/
def Has (s : State) : Option (UInt64 × Option (Bytes × Resting)) → Prop
  | none => True
  | some (nextSeq, none) => s.nextSeq = nextSeq
  | some (nextSeq, some (sym, orders)) =>
    s = Image.state { nextSeq := nextSeq, symbol := sym, orders := orders }

theorem write_eq_self_iff (s : State) (r : Option (UInt64 × Option (Bytes × Resting))) :
    s.write r = s ↔ s.Has r := by
  rcases r with _ | ⟨nextSeq, _ | ⟨sym, orders⟩⟩
  · exact iff_of_true rfl trivial
  · constructor
    · intro h
      exact (congrArg State.nextSeq h).symm
    · rintro rfl
      rfl
  · exact eq_comm

end State

theorem leading_bytes {img : Image} (h : img.Fits) :
    leading img.bytes = some (img.nextSeq, some (img.symbol, img.orders)) := by
  have hcount : (UInt32.ofNat img.orders.length).toNat = img.orders.length :=
    UInt32.toNat_ofNat_of_lt' h.orders
  have hread : readAll LOBStateMachine.getOrder img.orders.length
      (img.orders.flatMap LOBStateMachine.putOrder ++ []) = img.orders :=
    readAll_flatMap (fun o _ rest => LOBStateMachine.getOrder_putOrder o rest) []
  rw [List.append_nil] at hread
  simp only [leading, Image.bytes, getU64_putU64, getStr_putStr h.symbol, getU32_putU32, bind, pure,
    Option.bind_some, hcount, hread]

section Lawful

variable {L : Side → Type} [∀ s, Levels (L s)] [LawfulLevels L]

def LOBStateMachine.state (m : LOBStateMachine L) : State where
  nextSeq := m.nextSeq_
  symbol := m.book_.symbol
  levels := m.book_.fifo
  orders := m.book_.getOrder

/-- A book over lawful levels that was given the orders `q` since it was last reset. -/
def Given (b : Book L) (symbol : Bytes) (q : Resting) : Prop :=
  ∃ mb xs, Mirrors b mb ∧ Listed mb xs ∧ mb.symbol_ = symbol ∧ ordersIn xs = q

namespace Given

variable {b : Book L} {symbol : Bytes} {q : Resting}

theorem reset (b : Book L) (symbol : Bytes) : Given (b.reset symbol) symbol [] := by
  obtain ⟨mb, xs, hmirrors, hkeeps, hsymbol, hxs⟩ := Tracks.reset b symbol
  obtain rfl := List.map_eq_nil_iff.mp hxs
  exact ⟨mb, [], hmirrors, Listed.of_keeps_nil hkeeps, hsymbol, rfl⟩

theorem addRestingOrder (h : Given b symbol q) (o : Order) (coins : Coins) :
    Given (b.addRestingOrder o coins) symbol (q ++ [o]) := by
  obtain ⟨mb, xs, hmirrors, hlisted, hsymbol, rfl⟩ := h
  refine ⟨_, _, hmirrors.addResting o coins, hlisted.addResting o coins, ?_, List.map_append⟩
  rw [Book.symbol_addResting, hsymbol]

/-- The loop over the orders adds those it can read. -/
theorem restoreOrders (h : Given b symbol q) (coins : Nat → Coins) (n i : Nat) (data : Bytes) :
    Given (LOBStateMachine.restoreOrders coins n i data b) symbol
      (q ++ readAll LOBStateMachine.getOrder n data) := by
  induction n generalizing b q i data with
  | zero =>
    rw [readAll, List.append_nil]
    exact h
  | succ n ih =>
    rw [LOBStateMachine.restoreOrders, readAll]
    cases LOBStateMachine.getOrder data with
    | none =>
      rw [List.append_nil]
      exact h
    | some r =>
      have hrest := ih (h.addRestingOrder r.1 (coins i)) (i + 1) r.2
      rw [List.append_assoc, List.singleton_append] at hrest
      exact hrest

theorem fifo_eq (h : Given b symbol q) (s : Side) :
    b.fifo s = (q.prices s).map fun price => (price, q.level s price) := by
  obtain ⟨mb, xs, hmirrors, hlisted, -, rfl⟩ := h
  exact hmirrors.fifo_eq hlisted.levels s

/-- The state of a machine with the book. -/
theorem state_eq (h : Given b symbol q) (nextSeq : UInt64) :
    LOBStateMachine.state { book_ := b, nextSeq_ := nextSeq } =
      Image.state { nextSeq := nextSeq, symbol := symbol, orders := q } := by
  have hfifo := h.fifo_eq
  obtain ⟨mb, xs, hmirrors, hlisted, hsymbol, rfl⟩ := h
  refine State.ext rfl (hmirrors.symbol.trans hsymbol) (funext hfifo) ?_
  funext id
  exact (hmirrors.getOrder_eq id).trans (hlisted.getOrder_eq id)

end Given

/-- A restore writes what stands whole in front of the data over the state. -/
theorem LOBStateMachine.state_restore (m : LOBStateMachine L) (data : Bytes) (coins : Nat → Coins) :
    (m.restore data coins).state = m.state.write (leading data) := by
  unfold LOBStateMachine.restore leading
  cases getU64 data with
  | none => rfl
  | some r =>
    obtain ⟨nextSeq, data⟩ := r
    simp only [getStr, bind, pure, Option.bind_some]
    cases getU32 data with
    | none => rfl
    | some r =>
      obtain ⟨symLen, data⟩ := r
      simp only [Option.bind_some]
      cases getBytes symLen.toNat data with
      | none => rfl
      | some r =>
        obtain ⟨sym, data⟩ := r
        simp only [Option.bind_some]
        cases getU32 data with
        | none => rfl
        | some r =>
          exact ((Given.reset m.book_ sym).restoreOrders coins r.1.toNat 0 r.2).state_eq nextSeq

end Lawful

end NexusLOB.Lob
