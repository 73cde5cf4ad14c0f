import Mathlib.Data.List.Induction
import NexusLOB.Book.Interchange

/-!
# Crossed books

A book is crossed when its best bid reaches its best ask. `newOrder` first fills everything its
limit reaches, so what it leaves resting crosses nothing. `modifyOrder` rests the order at its new
price without matching it: the book stays uncrossed exactly if the new price does not reach the
best price of the other side.
-/

namespace NexusLOB.Lob

open Collections

namespace Resting

/-- Every bid is below every ask. -/
def Uncrossed (q : Resting) : Prop :=
  ∀ bid ∈ q, bid.side = .buy → ∀ ask ∈ q, ask.side = .sell → bid.price < ask.price

theorem reaches_buy_eq_false {limit price : Int64} : reaches .buy limit price = false ↔ limit < price := by
  rw [reaches, decide_eq_false_iff_not, Int64.not_le]

theorem reaches_sell_eq_false {limit price : Int64} :
    reaches .sell limit price = false ↔ price < limit := by
  rw [reaches, decide_eq_false_iff_not, Int64.not_le]

/-- A limit that does not reach the best price of a side reaches no order there. -/
theorem forall_not_reaches_iff (q : Resting) (takerSide : Side) (limit : Int64) :
    (∀ o ∈ q, o.side = takerSide.opposite → reaches takerSide limit o.price = false) ↔
      ∀ price, q.best takerSide.opposite = some price → reaches takerSide limit price = false := by
  constructor
  · intro h price hbest
    have hmem : price ∈ q.prices takerSide.opposite := List.mem_of_head? hbest
    obtain ⟨o, ho⟩ := List.exists_mem_of_ne_nil _ (mem_prices.mp hmem)
    obtain ⟨ho, hside, hprice⟩ := mem_level.mp ho
    rw [← hprice]
    exact h o ho hside
  · intro h o ho hside
    have hmem : o.price ∈ q.prices takerSide.opposite :=
      mem_prices.mpr (List.ne_nil_of_mem (mem_level.mpr ⟨ho, hside, rfl⟩))
    have hsorted := q.prices_sorted takerSide.opposite
    cases hprices : q.prices takerSide.opposite with
    | nil =>
      rw [hprices] at hmem
      cases hmem
    | cons price prices =>
      have hbest := h price (by rw [best, hprices]; rfl)
      rw [hprices] at hmem hsorted
      rcases List.mem_cons.mp hmem with he | hmem
      · rw [he]
        exact hbest
      · exact not_reaches_of_better hbest (List.rel_of_pairwise_cons hsorted hmem)

theorem uncrossed_iff_best {q : Resting} :
    q.Uncrossed ↔ ∀ bid ask, q.best .buy = some bid → q.best .sell = some ask → bid < ask := by
  have hask : ∀ limit : Int64,
      (∀ ask ∈ q, ask.side = .sell → limit < ask.price) ↔
        ∀ ask, q.best .sell = some ask → limit < ask := by
    intro limit
    have h := forall_not_reaches_iff q .buy limit
    simp only [reaches_buy_eq_false] at h
    exact h
  have hbid : ∀ ask : Int64,
      (∀ bid ∈ q, bid.side = .buy → bid.price < ask) ↔
        ∀ bid, q.best .buy = some bid → bid < ask := by
    intro ask
    have h := forall_not_reaches_iff q .sell ask
    simp only [reaches_sell_eq_false] at h
    exact h
  constructor
  · intro h bid ask hbest hbestAsk
    refine (hbid ask).mp ?_ bid hbest
    intro o ho hside
    exact (hask o.price).mp (h o ho hside) ask hbestAsk
  · intro h o ho hside
    refine (hask o.price).mpr ?_
    intro ask hbestAsk
    exact (hbid ask).mpr (fun bid hbest => h bid ask hbest hbestAsk) o ho hside

/-- An order at the end of the list crosses nothing if its limit reaches nothing. -/
theorem uncrossed_concat {q : Resting} {o : Order} :
    Uncrossed (q ++ [o]) ↔ q.Uncrossed ∧
      ∀ o' ∈ q, o'.side = o.side.opposite → reaches o.side o.price o'.price = false := by
  constructor
  · intro h
    refine ⟨?_, ?_⟩
    · intro bid hbid hbuy ask hask hsell
      exact h bid (List.mem_append_left _ hbid) hbuy ask (List.mem_append_left _ hask) hsell
    · intro o' ho' hside
      have hmem : o' ∈ q ++ [o] := List.mem_append_left _ ho'
      have hlast : o ∈ q ++ [o] := List.mem_append_right _ List.mem_cons_self
      cases ho : o.side with
      | buy =>
        rw [ho] at hside
        exact reaches_buy_eq_false.mpr (h o hlast ho o' hmem hside)
      | sell =>
        rw [ho] at hside
        exact reaches_sell_eq_false.mpr (h o' hmem hside o hlast ho)
  · rintro ⟨h, hfar⟩ bid hbid hbuy ask hask hsell
    rw [List.mem_append, List.mem_singleton] at hbid hask
    rcases hbid with hbid | rfl <;> rcases hask with hask | rfl
    · exact h bid hbid hbuy ask hask hsell
    · rw [hsell] at hfar
      exact reaches_sell_eq_false.mp (hfar bid hbid hbuy)
    · rw [hbuy] at hfar
      exact reaches_buy_eq_false.mp (hfar ask hask hsell)
    · rw [hbuy] at hsell
      cases hsell

/-! ## New orders -/

/-- If something of the taker remains, every maker it walked is used up. -/
theorem settle_eq_none_of_remains (takerSide : Side) (takerId : UInt64) (makers : List Order)
    (hids : (makers.map Order.id).Nodup) (remaining : Int64)
    (h : (walkMakers takerSide takerId remaining makers).2 > 0) :
    ∀ o ∈ makers, settle (walkMakers takerSide takerId remaining makers).1 o = none := by
  induction makers generalizing remaining with
  | nil =>
    intro o ho
    cases ho
  | cons maker makers ih =>
    obtain ⟨hnot, hids⟩ := List.nodup_cons.mp hids
    by_cases hpos : remaining > 0
    swap
    · rw [walkMakers_of_done hpos] at h
      exact absurd h hpos
    simp only [walkMakers, if_pos hpos] at h ⊢
    rcases min_cases hpos maker.quantity with ⟨hmin, -⟩ | ⟨hmin, -, -⟩
    · intro o ho
      rcases List.mem_cons.mp ho with rfl | ho
      · simp [settle, hmin, Int64.lt_irrefl]
      · have hne : maker.id ≠ o.id := fun he => hnot (List.mem_map.mpr ⟨o, ho, he.symm⟩)
        refine (settle_append_right [_] ?_).trans (ih hids _ h o ho)
        intro f hf
        rw [List.mem_singleton.mp hf]
        exact hne
    · -- the maker took all that remained
      rw [hmin, Int64.sub_self, walkMakers_of_done (by decide)] at h
      exact absurd h (by decide)

theorem mem_makers {q : Resting} {takerSide : Side} {limit : Int64} {o : Order} :
    o ∈ q.makers takerSide limit ↔
      (o ∈ q ∧ o.side = takerSide.opposite) ∧ reaches takerSide limit o.price = true := by
  rw [makers, List.mem_filter, mem_byPriority]

theorem nodup_makers {q : Resting} (hids : (q.map Order.id).Nodup) (takerSide : Side)
    (limit : Int64) : ((q.makers takerSide limit).map Order.id).Nodup := by
  have hlisted : (q.listed.map Order.id).Nodup :=
    (q.alike_listed.perm.map Order.id).nodup_iff.mp hids
  rw [listed, List.map_append, List.nodup_append] at hlisted
  have hside : ((q.byPriority takerSide.opposite).map Order.id).Nodup := by
    cases takerSide with
    | buy => exact hlisted.2.1
    | sell => exact hlisted.1
  exact hside.sublist (List.filter_sublist.map _)

theorem Uncrossed.newOrder {q : Resting} (h : q.Uncrossed) (hids : (q.map Order.id).Nodup)
    (id : UInt64) (side : Side) (price quantity : Int64) (sequence : UInt64) :
    (q.newOrder id side price quantity sequence).2.Uncrossed := by
  unfold Resting.newOrder
  split
  · exact h
  have hgone := settle_eq_none_of_remains side id (q.makers side price)
    (nodup_makers hids side price) quantity
  generalize walkMakers side id quantity (q.makers side price) = w at hgone
  obtain ⟨fills, remaining⟩ := w
  dsimp only at hgone ⊢
  -- what is left of an order stands where the order stood
  have hold : ∀ o ∈ q.filterMap (settle fills), ∃ o₀ ∈ q, settle fills o₀ = some o ∧
      o₀.side = o.side ∧ o₀.price = o.price := by
    intro o ho
    obtain ⟨o₀, ho₀, hsettle⟩ := List.mem_filterMap.mp ho
    obtain ⟨-, hside, hprice, -⟩ := settle_same hsettle
    exact ⟨o₀, ho₀, hsettle, hside.symm, hprice.symm⟩
  have hrest : Uncrossed (q.filterMap (settle fills)) := by
    intro bid hbid hbuy ask hask hsell
    obtain ⟨bid₀, hbid₀, -, hside, hprice⟩ := hold bid hbid
    obtain ⟨ask₀, hask₀, -, hside', hprice'⟩ := hold ask hask
    rw [← hprice, ← hprice']
    exact h bid₀ hbid₀ (hside.trans hbuy) ask₀ hask₀ (hside'.trans hsell)
  -- what the limit reached is gone
  have hfar : remaining > 0 → ∀ o ∈ q.filterMap (settle fills), o.side = side.opposite →
      reaches side price o.price = false := by
    intro hpos o ho hside
    obtain ⟨o₀, ho₀, hsettle, hside₀, hprice₀⟩ := hold o ho
    cases hreach : reaches side price o.price with
    | false => rfl
    | true =>
      have hmem : o₀ ∈ q.makers side price :=
        mem_makers.mpr ⟨⟨ho₀, hside₀.trans hside⟩, hprice₀ ▸ hreach⟩
      rw [hgone hpos o₀ hmem] at hsettle
      cases hsettle
  split
  · next hpos => exact uncrossed_concat.mpr ⟨hrest, hfar hpos⟩
  · rw [List.append_nil]
    exact hrest

/-! ## Calls -/

theorem Uncrossed.without {q : Resting} (h : q.Uncrossed) (id : UInt64) :
    (q.without id).Uncrossed := by
  intro bid hbid hbuy ask hask hsell
  exact h bid (List.mem_filter.mp hbid).1 hbuy ask (List.mem_filter.mp hask).1 hsell

/-- A modified order that stays in the book does not reach the other side at its new price. -/
def Clear (q : Resting) : Call → Prop
  | .modifyOrder id newPrice newQuantity _ _ =>
    ∀ o, q.getOrder id = some o → newQuantity > 0 →
      ∀ o' ∈ q, o'.side = o.side.opposite → reaches o.side newPrice o'.price = false
  | _ => True

theorem Uncrossed.modifyOrder_iff {q : Resting} (h : q.Uncrossed) (hids : (q.map Order.id).Nodup)
    (id : UInt64) (newPrice newQuantity : Int64) (newSequence : UInt64) (coins : Coins) :
    (q.modifyOrder id newPrice newQuantity newSequence).2.Uncrossed ↔
      q.Clear (.modifyOrder id newPrice newQuantity newSequence coins) := by
  change _ ↔ ∀ o, q.getOrder id = some o → newQuantity > 0 →
    ∀ o' ∈ q, o'.side = o.side.opposite → reaches o.side newPrice o'.price = false
  unfold Resting.modifyOrder
  cases hget : q.getOrder id with
  | none => exact iff_of_true h fun o ho => absurd ho (Option.some_ne_none o).symm
  | some o =>
    dsimp only
    by_cases hq : newQuantity > 0
    · rw [if_pos hq, uncrossed_concat]
      obtain ⟨ho, hid⟩ := (getOrder_eq_some hids).mp hget
      constructor
      · rintro ⟨-, hfar⟩ o₁ ho₁ - o' ho' hside
        obtain rfl := Option.some.inj ho₁
        refine hfar o' (List.mem_filter.mpr ⟨ho', decide_eq_true ?_⟩) hside
        -- an order of the other side has another id
        intro hid'
        rw [List.inj_on_of_nodup_map hids ho' ho (hid'.trans hid.symm)] at hside
        cases hs : o.side <;> rw [hs] at hside <;> cases hside
      · intro hclear
        refine ⟨h.without id, ?_⟩
        intro o' ho' hside
        exact hclear o rfl hq o' (List.mem_filter.mp ho').1 hside
    · rw [if_neg hq, List.append_nil]
      exact iff_of_true (h.without id) fun _ _ hpos => absurd hpos hq

/-- After a call on an uncrossed book the book is uncrossed exactly if the call was clear. -/
theorem Uncrossed.call_iff {q : Resting} (h : q.Uncrossed) (hids : (q.map Order.id).Nodup)
    {c : Call} (hc : c.trades = true) : (q.call c).2.Uncrossed ↔ q.Clear c := by
  cases c with
  | newOrder id side price quantity sequence coins =>
    exact iff_of_true (h.newOrder hids id side price quantity sequence) trivial
  | cancelOrder id => exact iff_of_true (h.without id) trivial
  | modifyOrder id newPrice newQuantity newSequence coins =>
    exact h.modifyOrder_iff hids id newPrice newQuantity newSequence coins
  | addRestingOrder o coins => cases hc
  | reset symbol => exact iff_of_true (fun _ hbid => absurd hbid List.not_mem_nil) trivial

end Resting

/-! ## Books -/

section Books

variable {L : Side → Type} [∀ s, Levels (L s)]

/-- One side is empty, or the best bid is below the best ask. -/
def Book.Uncrossed (b : Book L) : Prop :=
  ∀ bid ask, b.bestBid = some bid → b.bestAsk = some ask → bid < ask

/-- A resting order that is modified and stays in the book gets a price that does not reach the best
price of the other side. -/
def Book.clear (b : Book L) : Call → Bool
  | .modifyOrder id newPrice newQuantity _ _ =>
    match b.getOrder id with
    | none => true
    | some o =>
      newQuantity ≤ 0 ||
        match o.side with
        | .buy => b.bestAsk.all fun ask => newPrice < ask
        | .sell => b.bestBid.all fun bid => bid < newPrice
  | _ => true

variable [LawfulLevels L]

theorem Tracks.uncrossed_iff {b : Book L} {symbol : Bytes} {q : Resting} (h : Tracks b symbol q) :
    b.Uncrossed ↔ q.Uncrossed := by
  rw [Book.Uncrossed, h.shows.bestBid, h.shows.bestAsk, Resting.uncrossed_iff_best]

theorem Tracks.clear_iff {b : Book L} {symbol : Bytes} {q : Resting} (h : Tracks b symbol q)
    (c : Call) : b.clear c = true ↔ q.Clear c := by
  cases c with
  | modifyOrder id newPrice newQuantity newSequence coins =>
    change (match b.getOrder id with | none => true | some o => _) = true ↔
      ∀ o, q.getOrder id = some o → newQuantity > 0 →
        ∀ o' ∈ q, o'.side = o.side.opposite → Resting.reaches o.side newPrice o'.price = false
    rw [h.shows.getOrder]
    cases q.getOrder id with
    | none => exact iff_of_true rfl fun o ho => absurd ho (Option.some_ne_none o).symm
    | some o =>
      have hbest : (match o.side with
            | .buy => b.bestAsk.all fun ask => decide (newPrice < ask)
            | .sell => b.bestBid.all fun bid => decide (bid < newPrice)) = true ↔
          ∀ o' ∈ q, o'.side = o.side.opposite → Resting.reaches o.side newPrice o'.price = false := by
        rw [Resting.forall_not_reaches_iff, h.shows.bestAsk, h.shows.bestBid]
        cases o.side with
        | buy =>
          simp only [Side.opposite, Resting.reaches_buy_eq_false]
          cases q.best .sell <;> simp
        | sell =>
          simp only [Side.opposite, Resting.reaches_sell_eq_false]
          cases q.best .buy <;> simp
      dsimp only
      rw [Bool.or_eq_true, hbest, decide_eq_true_eq]
      constructor
      · rintro hor o₁ ho₁ hpos
        obtain rfl := Option.some.inj ho₁
        exact hor.resolve_left (Int64.not_le.mpr hpos)
      · intro hclear
        by_cases hpos : newQuantity > 0
        · exact Or.inr (hclear o rfl hpos)
        · exact Or.inl (Int64.not_lt.mp hpos)
  | _ => exact iff_of_true rfl trivial

end Books

/-! ## Runs -/

theorem Resting.run_concat (q : Resting) (calls : List Call) (c : Call) :
    (q.run (calls ++ [c])).2 = ((q.run calls).2.call c).2 := by
  induction calls generalizing q with
  | nil => rfl
  | cons c' calls ih => exact ih (q.call c').2

/-- The book is uncrossed after each of a sequence of calls exactly if each modification in it was
clear when it was made, on either engine. -/
theorem uncrossed_throughout_iff {L : Side → Type} [∀ s, Levels (L s)] [LawfulLevels L]
    (symbol : Bytes) (calls : List Call) (hcalls : ∀ c ∈ calls, c.trades = true) :
    (∀ done, done <+: calls → ∃ answers, ∃ b : Book L,
        (Book.new symbol).run done = .ok (answers, b) ∧ b.Uncrossed) ↔
      ∀ done c, done ++ [c] <+: calls → ∀ answers (b : Book L),
        (Book.new symbol).run done = .ok (answers, b) → b.clear c = true := by
  have htrades : ∀ {done}, done <+: calls → ∀ c ∈ done, c.trades = true :=
    fun hdone c hc => hcalls c (hdone.subset hc)
  -- the run up to any point, told by the flat list
  have hrun : ∀ {done}, done <+: calls → ∃ b : Book L,
      (Book.new symbol).run done = .ok ((Resting.run [] done).1, b) ∧
        Tracks b (done.foldl Call.symbolAfter symbol) (Resting.run [] done).2 :=
    fun hdone => (Tracks.new symbol).run (Resting.admitsAll_of_trades (htrades hdone) [])
  have hinit : ∀ {done : List Call} {c : Call}, done ++ [c] <+: calls → done <+: calls :=
    fun hdone => (List.prefix_append _ _).trans hdone
  have hlast : ∀ {done : List Call} {c : Call}, done ++ [c] <+: calls → c.trades = true :=
    fun hdone => htrades hdone _ (List.mem_append_right _ List.mem_cons_self)
  constructor
  · intro h done c hdone answers b hb
    have hstate : ∀ {done}, done <+: calls → (Resting.run [] done).2.Uncrossed := by
      intro done hdone
      obtain ⟨b, hb, htracks⟩ := hrun hdone
      obtain ⟨answers, b', hb', huncrossed⟩ := h done hdone
      rw [hb] at hb'
      cases hb'
      exact htracks.uncrossed_iff.mp huncrossed
    obtain ⟨b', hb', htracks⟩ := hrun (hinit hdone)
    rw [hb] at hb'
    cases hb'
    have hnext := hstate hdone
    rw [Resting.run_concat] at hnext
    exact (htracks.clear_iff c).mpr
      (((hstate (hinit hdone)).call_iff htracks.nodup (hlast hdone)).mp hnext)
  · intro h done hdone
    suffices hstate : (Resting.run [] done).2.Uncrossed by
      obtain ⟨b, hb, htracks⟩ := hrun hdone
      exact ⟨_, b, hb, htracks.uncrossed_iff.mpr hstate⟩
    induction done using List.reverseRecOn with
    | nil => exact fun _ hbid => absurd hbid List.not_mem_nil
    | append_singleton done c ih =>
      obtain ⟨b, hb, htracks⟩ := hrun (hinit hdone)
      rw [Resting.run_concat, (ih (hinit hdone)).call_iff htracks.nodup (hlast hdone)]
      exact (htracks.clear_iff c).mp (h done c hdone _ b hb)

/-- A bid that is modified to a price below the ask, on the skip list. -/
theorem uncrossed_throughout_iff_raised_bid :
    let calls : List Call :=
      [.newOrder 1 .buy 100 1 1 [true], .newOrder 2 .sell 105 1 2 [], .modifyOrder 1 104 1 3 []]
    (∀ c ∈ calls, c.trades = true) ∧
      ((∀ done, done <+: calls → ∃ answers, ∃ b : SkipListOrderBook,
          (Book.new []).run done = .ok (answers, b) ∧ b.Uncrossed) ↔
        ∀ done c, done ++ [c] <+: calls → ∀ answers (b : SkipListOrderBook),
          (Book.new []).run done = .ok (answers, b) → b.clear c = true) :=
  ⟨by decide, uncrossed_throughout_iff (L := SkipLevels) [] _ (by decide)⟩

/-- A bid that is modified to a price above the ask. -/
theorem crossed_by_modify :
    let calls : List Call :=
      [.newOrder 1 .buy 100 1 1 [], .newOrder 2 .sell 105 1 2 [], .modifyOrder 1 110 1 3 []]
    (∃ answers, ∃ b : MapOrderBook, (Book.new []).run calls = .ok (answers, b) ∧
        b.bestBid = some 110 ∧ b.bestAsk = some 105 ∧ ¬ b.Uncrossed) ∧
      ∃ answers, ∃ b : SkipListOrderBook, (Book.new []).run calls = .ok (answers, b) ∧
        b.bestBid = some 110 ∧ b.bestAsk = some 105 ∧ ¬ b.Uncrossed := by
  have hcross : ∀ {L : Side → Type} [∀ s, Levels (L s)] {b : Book L},
      b.bestBid = some 110 → b.bestAsk = some 105 → ¬ b.Uncrossed := by
    intro L _ b hbid hask huncrossed
    exact absurd (huncrossed 110 105 hbid hask) (by decide)
  intro calls
  refine ⟨⟨_, _, rfl, ?_, ?_, hcross ?_ ?_⟩, ⟨_, _, rfl, ?_, ?_, hcross ?_ ?_⟩⟩ <;> rfl

end NexusLOB.Lob
