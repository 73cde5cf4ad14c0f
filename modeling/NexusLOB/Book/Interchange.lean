import NexusLOB.Book.PriceTime
import NexusLOB.Book.SkipListMap
import NexusLOB.Book.StateMachine

/-!
# The two engines are interchangeable

`LawfulLevels` says that a container of price levels behaves as an ordered map. A book over such a
container moves in lockstep with a `MapOrderBook`: the same calls return the same, and the queries
agree. The skip list is lawful whatever its coins say.
-/

namespace NexusLOB.Lob

open Collections Resting

/-- Containers that behave as an ordered map of levels. -/
class LawfulLevels (L : Side → Type) [∀ s, Levels (L s)] where
  Holds : ∀ {s}, L s → MapLevels s → Prop
  /-- A pointer to a level of the container. -/
  Points : ∀ {s}, L s → Levels.Ref (L s) → Prop
  empty : ∀ {s}, Holds (Levels.empty : L s) .empty
  size : ∀ {s} {l : L s} {m}, Holds l m → Levels.size l = m.size
  best_none : ∀ {s} {l : L s} {m}, Holds l m → m.begin? = none → Levels.best l = none
  best_some : ∀ {s} {l : L s} {m pl}, Holds l m → m.begin? = some pl →
    ∃ r, Levels.best l = some r ∧ Points l r ∧ Levels.key l r = pl.1
  find_none : ∀ {s} {l : L s} {m price}, Holds l m → m.find? price = none →
    Levels.find l price = none
  find_some : ∀ {s} {l : L s} {m price level}, Holds l m → m.find? price = some level →
    ∃ r, Levels.find l price = some r ∧ Points l r ∧ Levels.key l r = price
  locate : ∀ {s} {l : L s} {m price level}, Holds l m → m.find? price = some level →
    Levels.locate l price = .ok (Levels.find l price)
  value : ∀ {s} {l : L s} {m r}, Holds l m → Points l r →
    m.find? (Levels.key l r) = some (Levels.value l r)
  setValue : ∀ {s} {l : L s} {m r}, Holds l m → Points l r → ∀ level,
    Holds (Levels.setValue l r level) (m.modify (Levels.key l r) fun _ => level)
  insert : ∀ {s} {l : L s} {m price}, Holds l m → m.find? price = none → ∀ coins,
    Holds (Levels.insert l price coins) (m.insert price [])
  remove : ∀ {s} {l : L s} {m}, Holds l m → ∀ price, Holds (Levels.remove l price) (m.erase price)
  toList : ∀ {s} {l : L s} {m}, Holds l m → Levels.toList l = m.bindings

instance : LawfulLevels MapLevels where
  Holds l m := l = m
  Points l price := ∃ level, l.find? price = some level
  empty := rfl
  size h := by rw [h]; rfl
  best_none {s l m} h hbegin := by
    subst h
    rw [best_map, hbegin]
    rfl
  best_some {s l m pl} h hbegin := by
    subst h
    refine ⟨pl.1, ?_, ⟨pl.2, ?_⟩, rfl⟩
    · rw [best_map, hbegin]
      rfl
    · rw [OrderedMap.find?_eq_some_iff]
      exact List.mem_of_head? hbegin
  find_none {s l m price} h hfind := by
    subst h
    change (if l.contains price then some price else none) = none
    rw [OrderedMap.contains, hfind]
    rfl
  find_some {s l m price level} h hfind := by
    subst h
    refine ⟨price, ?_, ⟨level, hfind⟩, rfl⟩
    change (if l.contains price then some price else none) = some price
    rw [OrderedMap.contains, hfind]
    rfl
  locate {s l m price level} h hfind := by
    subst h
    change (if l.contains price then Except.ok (some price) else _) =
      Except.ok (if l.contains price then some price else none)
    rw [OrderedMap.contains, hfind]
    rfl
  value {s l m r} h hr := by
    subst h
    obtain ⟨level, hlevel⟩ := hr
    change l.find? r = some ((l.find? r).getD [])
    rw [hlevel]
    rfl
  setValue h _ _ := by rw [← h]; rfl
  insert h _ _ := by rw [← h]; rfl
  remove h _ := by rw [← h]; rfl
  toList h := by rw [← h]; rfl

instance : LawfulLevels SkipLevels where
  Holds sl m := sl.Represents m
  Points sl p := p ∈ sl.pointers
  empty := SkipList.represents_new 65536
  size {s sl m} h := by
    obtain ⟨c, hrep, hm⟩ := h
    change sl.size = m.bindings.length
    rw [hm, SkipList.entriesAt, List.length_map, hrep.size]
  best_none {s sl m} h hbegin := by
    obtain ⟨c, hrep, hm⟩ := h
    change sl.best = none
    rw [OrderedMap.begin?, hm, SkipList.entriesAt, List.head?_map] at hbegin
    rw [hrep.best_eq]
    simpa using hbegin
  best_some {s sl m pl} h hbegin := by
    obtain ⟨c, hrep, hm⟩ := h
    rw [OrderedMap.begin?, hm, SkipList.entriesAt, List.head?_map] at hbegin
    obtain ⟨p, hp, rfl⟩ := Option.map_eq_some_iff.mp hbegin
    refine ⟨p, hrep.best_eq.trans hp, ?_, rfl⟩
    rw [hrep.pointers_eq]
    exact List.mem_of_head? hp
  find_none {s sl m price} h hfind := by
    change sl.find price = none
    rw [h.find_eq] at hfind
    simpa using hfind
  find_some {s sl m price level} h hfind := by
    rw [h.find_eq] at hfind
    obtain ⟨p, hp, -⟩ := Option.map_eq_some_iff.mp hfind
    obtain ⟨c, hrep, -⟩ := h
    obtain ⟨hon, heq⟩ := hrep.mem_of_find hp
    refine ⟨p, hp, ?_, equiv_eq.mp heq⟩
    rw [hrep.pointers_eq]
    refine SkipList.onward_subset sl c price ?_
    rw [hon]
    exact List.mem_cons_self
  locate _ _ := rfl
  value {s sl m p} h hp := by
    obtain ⟨c, hrep, hm⟩ := h
    rw [hrep.pointers_eq] at hp
    rw [OrderedMap.find?_eq_some_iff, hm]
    exact List.mem_map.mpr ⟨p, hp, rfl⟩
  setValue h hp level := h.setValue hp level
  insert h hnone coins := h.insert hnone [] coins
  remove h price := h.remove price
  toList h := h.toList_eq

section Lockstep

variable {L : Side → Type} [∀ s, Levels (L s)] [LawfulLevels L]

open LawfulLevels

/-! ## Matching -/

/-- The results of matching on a container and on the map it holds. -/
structure SameMatch {s : Side} (r : List Fill × Int64 × L s × OrderIndex)
    (r' : List Fill × Int64 × MapLevels s × OrderIndex) : Prop where
  fills : r.1 = r'.1
  remains : r.2.1 = r'.2.1
  levels : Holds r.2.2.1 r'.2.2.1
  index : r.2.2.2 = r'.2.2.2

/-- Pointers to one price in the container and in its map show the same level. -/
theorem value_lockstep {s : Side} {l : L s} {m : MapLevels s} {price : Int64} (h : Holds l m)
    {r : Levels.Ref (L s)} (hr : Points l r) (hkey : Levels.key l r = price)
    {r' : Levels.Ref (MapLevels s)} (hr' : Points (L := MapLevels) m r')
    (hkey' : Levels.key m r' = price) : Levels.value l r = Levels.value m r' := by
  have hl := LawfulLevels.value h hr
  have hm := LawfulLevels.value (L := MapLevels) rfl hr'
  rw [hkey] at hl
  rw [hkey', hl] at hm
  exact Option.some.inj hm

theorem setValue_lockstep {s : Side} {l : L s} {m : MapLevels s} {price : Int64} (h : Holds l m)
    {r : Levels.Ref (L s)} (hr : Points l r) (hkey : Levels.key l r = price)
    {r' : Levels.Ref (MapLevels s)} (hkey' : Levels.key m r' = price) (level : Level) :
    Holds (Levels.setValue l r level) (Levels.setValue m r' level) := by
  have hl := LawfulLevels.setValue h hr level
  rw [hkey] at hl
  have hm : Levels.setValue m r' level = m.modify price fun _ => level := by
    rw [← hkey']
    rfl
  rw [hm]
  exact hl

theorem matchLevels_lockstep {s : Side} {l : L s} {m : MapLevels s} (h : Holds l m)
    (takerSide : Side) (limit : Int64) (takerId : UInt64) (rounds : Nat) (remaining : Int64)
    (index : OrderIndex) :
    SameMatch (matchLevels takerSide limit takerId rounds remaining l index)
      (matchLevels takerSide limit takerId rounds remaining m index) := by
  induction rounds generalizing l m remaining index with
  | zero => exact ⟨rfl, rfl, h, rfl⟩
  | succ rounds ih =>
    unfold matchLevels
    by_cases hpos : remaining > 0
    swap
    · rw [if_neg hpos, if_neg hpos]
      exact ⟨rfl, rfl, h, rfl⟩
    rw [if_pos hpos, if_pos hpos]
    cases hbegin : m.begin? with
    | none =>
      have hmap : Levels.best m = none := LawfulLevels.best_none (L := MapLevels) rfl hbegin
      rw [LawfulLevels.best_none h hbegin, hmap]
      exact ⟨rfl, rfl, h, rfl⟩
    | some pl =>
      obtain ⟨r, hbest, hr, hkey⟩ := LawfulLevels.best_some h hbegin
      obtain ⟨r', hbest', hr', hkey'⟩ := LawfulLevels.best_some (L := MapLevels) (m := m) rfl hbegin
      rw [hbest, hbest']
      dsimp only
      rw [hkey, hkey', value_lockstep h hr hkey hr' hkey']
      split
      · exact ⟨rfl, rfl, h, rfl⟩
      generalize fillLevel takerSide takerId remaining (Levels.value m r') index = f
      obtain ⟨fills, remaining', level, index'⟩ := f
      have hset : Holds (Levels.setValue l r level) (Levels.setValue m r' level) :=
        setValue_lockstep h hr hkey hkey' level
      have hnext : Holds
          (if level = [] then Levels.remove (Levels.setValue l r level) pl.1
            else Levels.setValue l r level)
          (if level = [] then Levels.remove (Levels.setValue m r' level) pl.1
            else Levels.setValue m r' level) := by
        split
        · exact LawfulLevels.remove hset pl.1
        · exact hset
      have hrec := ih hnext remaining' index'
      dsimp only
      exact ⟨congrArg (fills ++ ·) hrec.fills, hrec.remains, hrec.levels, hrec.index⟩

/-! ## Books -/

/-- A book and the `MapOrderBook` it moves with. -/
structure Mirrors (b : Book L) (mb : MapOrderBook) : Prop where
  symbol : b.symbol_ = mb.symbol_
  levels : ∀ s, Holds (b.side s) (mb.side s)
  index : b.orderIndex_ = mb.orderIndex_
  nextNode : b.nextNode = mb.nextNode

namespace Mirrors

variable {b : Book L} {mb : MapOrderBook}

theorem setSide (h : Mirrors b mb) {s : Side} {l : L s} {m : MapLevels s} (hl : Holds l m)
    {index index' : OrderIndex} (hindex : index = index') {n n' : Nat} (hn : n = n') :
    Mirrors { b.setSide s l with orderIndex_ := index, nextNode := n }
      { mb.setSide s m with orderIndex_ := index', nextNode := n' } where
  symbol := by cases s <;> exact h.symbol
  levels s' := by
    rw [Book.side_with (b.setSide s l), Book.side_with (mb.setSide s m)]
    by_cases hs : s' = s
    · subst hs
      rw [Book.side_setSide_self, Book.side_setSide_self]
      exact hl
    · rw [Book.side_setSide_of_ne b hs, Book.side_setSide_of_ne mb hs]
      exact h.levels s'
  index := hindex
  nextNode := hn

theorem new (symbol : Bytes) : Mirrors (Book.new symbol : Book L) (Book.new symbol) where
  symbol := rfl
  levels s := by cases s <;> exact LawfulLevels.empty
  index := rfl
  nextNode := rfl

theorem reset (h : Mirrors b mb) (symbol : Bytes) : Mirrors (b.reset symbol) (mb.reset symbol) where
  symbol := rfl
  levels s := by cases s <;> exact LawfulLevels.empty
  index := rfl
  nextNode := h.nextNode

theorem matchOrders (h : Mirrors b mb) (takerSide : Side) (limit remaining : Int64)
    (takerId : UInt64) :
    (b.matchOrders takerSide limit remaining takerId).1 =
        (mb.matchOrders takerSide limit remaining takerId).1 ∧
      (b.matchOrders takerSide limit remaining takerId).2.1 =
        (mb.matchOrders takerSide limit remaining takerId).2.1 ∧
      Mirrors (b.matchOrders takerSide limit remaining takerId).2.2
        (mb.matchOrders takerSide limit remaining takerId).2.2 := by
  have hsame := matchLevels_lockstep (h.levels takerSide.opposite) takerSide limit takerId
    (mb.side takerSide.opposite).size.succ remaining mb.orderIndex_
  have hsize := LawfulLevels.size (h.levels takerSide.opposite)
  generalize hr' : matchLevels takerSide limit takerId _ remaining (mb.side takerSide.opposite)
    mb.orderIndex_ = r' at hsame
  generalize hr : matchLevels takerSide limit takerId _ remaining (b.side takerSide.opposite)
    mb.orderIndex_ = r at hsame
  rw [Nat.succ_eq_add_one, ← hsize, ← h.index] at hr
  rw [Book.matchOrders_eq hr, Book.matchOrders_eq hr']
  refine ⟨hsame.fills, hsame.remains, h.setSide hsame.levels hsame.index ?_⟩
  rw [Book.nextNode_setSide, Book.nextNode_setSide, h.nextNode]

theorem withLevel_holds {s : Side} {l : L s} {m : MapLevels s} (h : Holds l m) (price : Int64)
    (coins : Coins) :
    Holds (withLevel l price coins) (withLevel m price coins) ∧
      ∃ level, (withLevel m price coins).find? price = some level := by
  unfold withLevel
  cases hfind : m.find? price with
  | none =>
    have hmap : Levels.find m price = none := LawfulLevels.find_none (L := MapLevels) rfl hfind
    rw [LawfulLevels.find_none h hfind, hmap]
    exact ⟨LawfulLevels.insert h hfind coins, [], OrderedMap.find?_insert_self _ _ _⟩
  | some level =>
    obtain ⟨r, hr, -⟩ := LawfulLevels.find_some h hfind
    obtain ⟨r', hr', -⟩ := LawfulLevels.find_some (L := MapLevels) (m := m) rfl hfind
    rw [hr, hr']
    exact ⟨h, level, hfind⟩

/-- Writing the level at a price on both sides. -/
theorem setValue_holds {s : Side} {l : L s} {m : MapLevels s} (h : Holds l m) {price : Int64}
    {level : Level} (hfind : m.find? price = some level) :
    ∃ r r', Levels.find l price = some r ∧ Levels.find m price = some r' ∧
      Levels.value l r = Levels.value m r' ∧
      ∀ level', Holds (Levels.setValue l r level') (Levels.setValue m r' level') := by
  obtain ⟨r, hr, hpoints, hkey⟩ := LawfulLevels.find_some h hfind
  obtain ⟨r', hr', hpoints', hkey'⟩ := LawfulLevels.find_some (L := MapLevels) (m := m) rfl hfind
  exact ⟨r, r', hr, hr', value_lockstep h hpoints hkey hpoints' hkey',
    setValue_lockstep h hpoints hkey hkey'⟩

theorem takenOut_holds {s : Side} {l : L s} {m : MapLevels s} {r : Levels.Ref (L s)}
    {r' : Levels.Ref (MapLevels s)} (hvalue : Levels.value l r = Levels.value m r')
    (hset : ∀ level, Holds (Levels.setValue l r level) (Levels.setValue m r' level))
    (it : Nat) (price : Int64) : Holds (takenOut l r it price) (takenOut m r' it price) := by
  unfold takenOut
  rw [hvalue]
  dsimp only
  split
  · exact LawfulLevels.remove (hset _) price
  · exact hset _

theorem addResting (h : Mirrors b mb) (o : Order) (coins : Coins) :
    Mirrors (b.addResting o coins) (mb.addResting o coins) := by
  obtain ⟨hholds, level, hlevel⟩ := withLevel_holds (h.levels o.side) o.price coins
  obtain ⟨r, r', hr, hr', hvalue, hset⟩ := setValue_holds hholds hlevel
  rw [Book.addResting_of_find hr, Book.addResting_of_find hr', hvalue, h.index, h.nextNode]
  exact h.setSide (hset _) rfl rfl

theorem newOrder (h : Mirrors b mb) (id : UInt64) (side : Side) (price quantity : Int64)
    (sequence : UInt64) (coins : Coins) :
    (b.newOrder id side price quantity sequence coins).1 =
        (mb.newOrder id side price quantity sequence coins).1 ∧
      Mirrors (b.newOrder id side price quantity sequence coins).2
        (mb.newOrder id side price quantity sequence coins).2 := by
  unfold Book.newOrder
  rw [h.index]
  split
  · exact ⟨rfl, h⟩
  split
  · exact ⟨rfl, h⟩
  obtain ⟨hfills, hremains, hmirrors⟩ := h.matchOrders side price quantity id
  generalize b.matchOrders side price quantity id = r at hfills hremains hmirrors
  obtain ⟨fills, remaining, b₁⟩ := r
  dsimp only at hfills hremains hmirrors ⊢
  rw [hfills, hremains]
  split
  · exact ⟨rfl, hmirrors.addResting _ coins⟩
  · exact ⟨rfl, hmirrors⟩

theorem cancelOrder {xs : List ListNode} (h : Mirrors b mb) (hkeeps : Keeps mb xs) (id : UInt64) :
    ∃ found b' mb', b.cancelOrder id = .ok (found, b') ∧ mb.cancelOrder id = .ok (found, mb') ∧
      Mirrors b' mb' := by
  cases hindex : mb.orderIndex_.find? id with
  | none =>
    refine ⟨false, b, mb, ?_, ?_, h⟩
    · rw [Book.cancelOrder, h.index, hindex]
    · rw [Book.cancelOrder, hindex]
  | some loc =>
    -- the index points into a level, so the map's `at` does not throw
    obtain ⟨x, hx, -, rfl⟩ := (hkeeps.index id loc).mp hindex
    have hlevel : (mb.side x.order.side).find? x.order.price =
        some (nodesAt xs x.order.side x.order.price) :=
      (hkeeps.level _ _ _).mpr ⟨rfl, List.ne_nil_of_mem (mem_nodesAt.mpr ⟨hx, rfl, rfl⟩)⟩
    have hholds := h.levels x.order.side
    obtain ⟨r, r', hr, hr', hvalue, hset⟩ := setValue_holds hholds hlevel
    have hlocate := (LawfulLevels.locate hholds hlevel).trans (congrArg Except.ok hr)
    have hlocate' := (LawfulLevels.locate (L := MapLevels) (l := mb.side x.order.side) rfl
      hlevel).trans (congrArg Except.ok hr')
    have hindexb : b.orderIndex_.find? id = some x.location := by rw [h.index, hindex]
    refine ⟨true, _, _, Book.cancelOrder_of_locate hindexb hlocate,
      Book.cancelOrder_of_locate hindex hlocate',
      h.setSide (takenOut_holds hvalue hset _ _) (by rw [h.index]) ?_⟩
    rw [Book.nextNode_setSide, Book.nextNode_setSide, h.nextNode]

theorem modifyOrder {xs : List ListNode} (h : Mirrors b mb) (hkeeps : Keeps mb xs) (id : UInt64)
    (newPrice newQuantity : Int64) (newSequence : UInt64) (coins : Coins) :
    ∃ found b' mb', b.modifyOrder id newPrice newQuantity newSequence coins = .ok (found, b') ∧
      mb.modifyOrder id newPrice newQuantity newSequence coins = .ok (found, mb') ∧
      Mirrors b' mb' := by
  unfold Book.modifyOrder
  rw [h.index]
  cases mb.orderIndex_.find? id with
  | none => exact ⟨false, b, mb, rfl, rfl, h⟩
  | some loc =>
    obtain ⟨found, b₁, mb₁, hb₁, hmb₁, h₁⟩ := h.cancelOrder hkeeps id
    dsimp only
    rw [hb₁, hmb₁]
    change ∃ found' b' mb', (if newQuantity > 0 then _ else _) = _ ∧
      (if newQuantity > 0 then _ else _) = _ ∧ _
    split
    · exact ⟨true, _, _, rfl, rfl, h₁.addResting _ coins⟩
    · exact ⟨true, _, _, rfl, rfl, h₁⟩

theorem call {xs : List ListNode} (h : Mirrors b mb) (hkeeps : Keeps mb xs) (c : Call) :
    ∃ answer b' mb', b.call c = .ok (answer, b') ∧ mb.call c = .ok (answer, mb') ∧
      Mirrors b' mb' := by
  cases c with
  | newOrder id side price quantity sequence coins =>
    obtain ⟨hfills, hmirrors⟩ := h.newOrder id side price quantity sequence coins
    refine ⟨.fills (mb.newOrder id side price quantity sequence coins).1, _, _, ?_, rfl, hmirrors⟩
    rw [← hfills]
    rfl
  | cancelOrder id =>
    obtain ⟨found, b', mb', hb', hmb', h'⟩ := h.cancelOrder hkeeps id
    refine ⟨.success found, b', mb', ?_, ?_, h'⟩
    · rw [Book.call, hb']
      rfl
    · rw [Book.call, hmb']
      rfl
  | modifyOrder id newPrice newQuantity newSequence coins =>
    obtain ⟨found, b', mb', hb', hmb', h'⟩ :=
      h.modifyOrder hkeeps id newPrice newQuantity newSequence coins
    refine ⟨.success found, b', mb', ?_, ?_, h'⟩
    · rw [Book.call, hb']
      rfl
    · rw [Book.call, hmb']
      rfl
  | addRestingOrder o coins => exact ⟨_, _, _, rfl, rfl, h.addResting o coins⟩
  | reset symbol => exact ⟨_, _, _, rfl, rfl, h.reset symbol⟩

/-! ## Queries -/

theorem toList_eq (h : Mirrors b mb) (s : Side) :
    Levels.toList (b.side s) = (mb.side s).bindings := LawfulLevels.toList (h.levels s)

theorem best_eq (h : Mirrors b mb) (s : Side) :
    (Levels.best (b.side s)).map (Levels.key (b.side s)) =
      (Levels.best (mb.side s)).map (Levels.key (mb.side s)) := by
  have hholds := h.levels s
  cases hbegin : (mb.side s).begin? with
  | none =>
    have hmap : Levels.best (mb.side s) = none :=
      LawfulLevels.best_none (L := MapLevels) rfl hbegin
    rw [LawfulLevels.best_none hholds hbegin, hmap]
    rfl
  | some pl =>
    obtain ⟨r, hbest, -, hkey⟩ := LawfulLevels.best_some hholds hbegin
    obtain ⟨r', hbest', -, hkey'⟩ :=
      LawfulLevels.best_some (L := MapLevels) (m := mb.side s) rfl hbegin
    rw [hbest, hbest', Option.map_some, Option.map_some, hkey, hkey']

theorem getOrder_eq (h : Mirrors b mb) (id : UInt64) : b.getOrder id = mb.getOrder id := by
  unfold Book.getOrder
  rw [h.index]
  congr 1
  funext loc
  unfold Book.deref
  dsimp only
  have hholds := h.levels loc.side
  cases hfind : (mb.side loc.side).find? loc.price with
  | none =>
    have hmap : Levels.find (mb.side loc.side) loc.price = none :=
      LawfulLevels.find_none (L := MapLevels) rfl hfind
    rw [LawfulLevels.find_none hholds hfind, hmap]
    rfl
  | some level =>
    obtain ⟨r, r', hr, hr', hvalue, -⟩ := setValue_holds hholds hfind
    rw [hr, hr', Option.bind_some, Option.bind_some, hvalue]

end Mirrors

/-! ## Either engine against the flat list -/

/-- The symbol of a book after a call. -/
def Call.symbolAfter (symbol : Bytes) : Call → Bytes
  | .reset symbol' => symbol'
  | _ => symbol

section Symbol

omit [LawfulLevels L]

variable {b b' : Book L}

theorem Book.symbol_addResting (b : Book L) (o : Order) (coins : Coins) :
    (b.addResting o coins).symbol_ = b.symbol_ := by
  unfold Book.addResting
  dsimp only
  split
  · rfl
  · exact Book.symbol_setSide b o.side _

theorem Book.symbol_newOrder (b : Book L) (id : UInt64) (side : Side) (price quantity : Int64)
    (sequence : UInt64) (coins : Coins) :
    (b.newOrder id side price quantity sequence coins).2.symbol_ = b.symbol_ := by
  unfold Book.newOrder
  split
  · rfl
  split
  · rfl
  have hmatch : (b.matchOrders side price quantity id).2.2.symbol_ = b.symbol_ :=
    Book.symbol_setSide b side.opposite _
  dsimp only
  split
  · rw [Book.symbol_addResting, hmatch]
  · exact hmatch

theorem Book.symbol_cancelOrder {id : UInt64} {found : Bool}
    (h : b.cancelOrder id = .ok (found, b')) : b'.symbol_ = b.symbol_ := by
  unfold Book.cancelOrder at h
  split at h
  · cases h
    rfl
  · next loc hloc =>
    obtain ⟨r, -, h⟩ := ok_of_bind h
    cases h
    exact Book.symbol_setSide b loc.side _

theorem Book.symbol_modifyOrder {id : UInt64} {newPrice newQuantity : Int64} {newSequence : UInt64}
    {coins : Coins} {found : Bool}
    (h : b.modifyOrder id newPrice newQuantity newSequence coins = .ok (found, b')) :
    b'.symbol_ = b.symbol_ := by
  unfold Book.modifyOrder at h
  split at h
  · cases h
    rfl
  · next loc hloc =>
    obtain ⟨⟨found', b₁⟩, hcancel, h⟩ := ok_of_bind h
    change (if newQuantity > 0 then _ else _) = _ at h
    split at h
    · cases h
      rw [Book.symbol_addResting, Book.symbol_cancelOrder hcancel]
    · cases h
      exact Book.symbol_cancelOrder hcancel

theorem Book.symbol_call {c : Call} {answer : Answer} (h : b.call c = .ok (answer, b')) :
    b'.symbol_ = c.symbolAfter b.symbol_ := by
  cases c with
  | newOrder id side price quantity sequence coins =>
    cases h
    exact Book.symbol_newOrder b id side price quantity sequence coins
  | cancelOrder id =>
    obtain ⟨r, hcancel, h⟩ := ok_of_bind h
    cases h
    exact Book.symbol_cancelOrder hcancel
  | modifyOrder id newPrice newQuantity newSequence coins =>
    obtain ⟨r, hmodify, h⟩ := ok_of_bind h
    cases h
    exact Book.symbol_modifyOrder hmodify
  | addRestingOrder o coins =>
    cases h
    exact Book.symbol_addResting b o coins
  | reset symbol =>
    cases h
    rfl

end Symbol

/-- A book over lawful levels holds the resting orders `q` and trades `symbol`. -/
def Tracks (b : Book L) (symbol : Bytes) (q : Resting) : Prop :=
  ∃ mb xs, Mirrors b mb ∧ Keeps mb xs ∧ mb.symbol_ = symbol ∧ ordersIn xs = q

namespace Tracks

variable {b : Book L} {symbol : Bytes} {q : Resting}

theorem new (symbol : Bytes) : Tracks (Book.new symbol : Book L) symbol [] :=
  ⟨Book.new symbol, [], Mirrors.new symbol, Keeps.new symbol, rfl, rfl⟩

/-- A book that was reset, whatever it held before. -/
theorem reset (b : Book L) (symbol : Bytes) : Tracks (b.reset symbol) symbol [] := by
  let mb : MapOrderBook :=
    { symbol_ := symbol, bids_ := .empty, asks_ := .empty, nextNode := b.nextNode }
  refine ⟨mb, [], ⟨rfl, ?_, rfl, rfl⟩, ?_, rfl, rfl⟩
  · intro s
    cases s <;> exact LawfulLevels.empty
  · exact Keeps.of_empty (fun s _ => by cases s <;> rfl) fun _ => rfl

theorem call (h : Tracks b symbol q) {c : Call} (hc : q.Admits c) :
    ∃ b', b.call c = .ok ((q.call c).1, b') ∧ Tracks b' (c.symbolAfter symbol) (q.call c).2 := by
  obtain ⟨mb, xs, hmirrors, hkeeps, rfl, rfl⟩ := h
  obtain ⟨mb₁, xs₁, hcall, hkeeps₁, hxs₁⟩ := hkeeps.call hc
  obtain ⟨answer, b', mb', hb', hmb', hmirrors'⟩ := hmirrors.call hkeeps c
  rw [hcall] at hmb'
  cases hmb'
  exact ⟨b', hb', mb₁, xs₁, hmirrors', hkeeps₁, Book.symbol_call hcall, hxs₁⟩

theorem run (h : Tracks b symbol q) {calls : List Call} (hcalls : q.AdmitsAll calls) :
    ∃ b', b.run calls = .ok ((q.run calls).1, b') ∧
      Tracks b' (calls.foldl Call.symbolAfter symbol) (q.run calls).2 := by
  induction calls generalizing b symbol q with
  | nil => exact ⟨b, rfl, h⟩
  | cons c calls ih =>
    obtain ⟨b₁, hcall, h₁⟩ := h.call hcalls.1
    obtain ⟨b₂, hrun, h₂⟩ := ih h₁ hcalls.2
    refine ⟨b₂, ?_, h₂⟩
    rw [Book.run, hcall]
    change (b₁.run calls).bind _ = _
    rw [hrun]
    rfl

theorem shows (h : Tracks b symbol q) : Shows b q := by
  obtain ⟨mb, xs, hmirrors, hkeeps, -, rfl⟩ := h
  have hshows := hkeeps.shows
  refine ⟨?_, ?_, ?_, ?_, ?_, ?_⟩
  · intro id
    rw [hmirrors.getOrder_eq, hshows.getOrder]
  · rw [Book.orderCount, hmirrors.index, ← hshows.orderCount, Book.orderCount]
  · intro maxLevels
    rw [Book.bids, ← hshows.bids]
    exact congrArg (Book.depth maxLevels 0) (hmirrors.toList_eq .buy)
  · intro maxLevels
    rw [Book.asks, ← hshows.asks]
    exact congrArg (Book.depth maxLevels 0) (hmirrors.toList_eq .sell)
  · rw [← hshows.bestBid]
    exact hmirrors.best_eq .buy
  · rw [← hshows.bestAsk]
    exact hmirrors.best_eq .sell

theorem allOrders_eq (h : Tracks b symbol q) :
    b.allOrders = q.byPriority .buy ++ q.byPriority .sell := by
  obtain ⟨mb, xs, hmirrors, hkeeps, -, rfl⟩ := h
  rw [← hkeeps.allOrders_eq]
  exact congrArg₂ (fun bids asks => Book.ordersOf bids ++ Book.ordersOf asks)
    (hmirrors.toList_eq .buy) (hmirrors.toList_eq .sell)

theorem symbol_eq (h : Tracks b symbol q) : b.symbol_ = symbol := by
  obtain ⟨mb, xs, hmirrors, -, hsymbol, -⟩ := h
  rw [hmirrors.symbol, hsymbol]

/-- No id rests twice. -/
theorem nodup (h : Tracks b symbol q) : (q.map Order.id).Nodup := by
  obtain ⟨mb, xs, -, hkeeps, -, rfl⟩ := h
  have hids := hkeeps.ids
  rw [ordersIn, List.map_map]
  exact hids

end Tracks

/-! ## The engines side by side -/

/-- A call that `IOrderBook` allows: an order that is added does not rest yet. -/
def Book.admits (b : Book L) : Call → Bool
  | .addRestingOrder o _ => (b.getOrder o.id).isNone
  | _ => true

/-- Every call of a run is allowed when it is made. -/
def Book.admitsAll (b : Book L) : List Call → Bool
  | [] => true
  | c :: calls =>
    b.admits c &&
      match b.call c with
      | .ok (_, b) => b.admitsAll calls
      | .error _ => true

theorem Tracks.admitsAll {b : Book L} {symbol : Bytes} {q : Resting} (h : Tracks b symbol q)
    {calls : List Call} (hcalls : b.admitsAll calls = true) : q.AdmitsAll calls := by
  induction calls generalizing b symbol q with
  | nil => trivial
  | cons c calls ih =>
    rw [Book.admitsAll, Bool.and_eq_true] at hcalls
    have hc : q.Admits c := by
      cases c with
      | addRestingOrder o coins =>
        have hnone := hcalls.1
        rw [Book.admits, h.shows.getOrder] at hnone
        exact Option.isNone_iff_eq_none.mp hnone
      | _ => trivial
    obtain ⟨b', hcall, h'⟩ := h.call hc
    have hrest := hcalls.2
    rw [hcall] at hrest
    exact ⟨hc, ih h' hrest⟩

/-- Two books that answer all queries alike, and whose snapshots are the same bytes. -/
structure Agree {L' : Side → Type} [∀ s, Levels (L' s)] (b : Book L) (b' : Book L') : Prop where
  getOrder : ∀ id, b.getOrder id = b'.getOrder id
  orderCount : b.orderCount = b'.orderCount
  bids : ∀ maxLevels, b.bids maxLevels = b'.bids maxLevels
  asks : ∀ maxLevels, b.asks maxLevels = b'.asks maxLevels
  bestBid : b.bestBid = b'.bestBid
  bestAsk : b.bestAsk = b'.bestAsk
  allOrders : b.allOrders = b'.allOrders
  snapshot : ∀ nextSeq : UInt64, LOBStateMachine.snapshot ⟨b, nextSeq⟩ =
    LOBStateMachine.snapshot ⟨b', nextSeq⟩

theorem Tracks.agree {L' : Side → Type} [∀ s, Levels (L' s)] [LawfulLevels L'] {b : Book L}
    {b' : Book L'} {symbol : Bytes} {q : Resting} (h : Tracks b symbol q)
    (h' : Tracks b' symbol q) : Agree b b' := by
  have hs := h.shows
  have hs' := h'.shows
  have horders : b.allOrders = b'.allOrders := h.allOrders_eq.trans h'.allOrders_eq.symm
  refine ⟨?_, hs.orderCount.trans hs'.orderCount.symm, ?_, ?_,
    hs.bestBid.trans hs'.bestBid.symm, hs.bestAsk.trans hs'.bestAsk.symm, horders, ?_⟩
  · intro id
    rw [hs.getOrder, hs'.getOrder]
  · intro maxLevels
    rw [hs.bids, hs'.bids]
  · intro maxLevels
    rw [hs.asks, hs'.asks]
  · intro nextSeq
    simp only [LOBStateMachine.snapshot, horders, Book.symbol, h.symbol_eq, h'.symbol_eq]

end Lockstep

/-- Whatever calls are made and whatever the coins say, both engines return the same and agree
afterwards. -/
theorem engines_interchangeable (symbol : Bytes) (calls : List Call)
    (hcalls : (Book.new symbol : MapOrderBook).admitsAll calls = true) :
    ∃ answers mb sb, (Book.new symbol : MapOrderBook).run calls = .ok (answers, mb) ∧
      (Book.new symbol : SkipListOrderBook).run calls = .ok (answers, sb) ∧ Agree mb sb := by
  have hadmits := (Tracks.new symbol : Tracks (Book.new symbol : MapOrderBook) symbol []).admitsAll
    hcalls
  obtain ⟨mb, hmb, hmt⟩ :=
    (Tracks.new symbol : Tracks (Book.new symbol : MapOrderBook) symbol []).run hadmits
  obtain ⟨sb, hsb, hst⟩ :=
    (Tracks.new symbol : Tracks (Book.new symbol : SkipListOrderBook) symbol []).run hadmits
  exact ⟨_, mb, sb, hmb, hsb, hmt.agree hst⟩

/-- Two bids with towers of different heights, one added by a restore, and a sell that sweeps. -/
theorem engines_interchangeable_sweep :
    let calls : List Call :=
      [.addRestingOrder { id := 1, side := .buy, price := 100, quantity := 5, sequence := 1 }
         [true, true, false],
       .newOrder 2 .buy 101 3 2 [true, false], .newOrder 3 .sell 100 7 3 [], .cancelOrder 1]
    (Book.new [76] : MapOrderBook).admitsAll calls = true ∧
      ∃ answers mb sb, (Book.new [76] : MapOrderBook).run calls = .ok (answers, mb) ∧
        (Book.new [76] : SkipListOrderBook).run calls = .ok (answers, sb) ∧ Agree mb sb :=
  ⟨by decide +kernel, engines_interchangeable [76] _ (by decide +kernel)⟩

end NexusLOB.Lob
