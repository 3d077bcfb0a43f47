import BaboEngine.RelatedLists
import BaboEngine.StopQueues

/-!
# The mirrored book

Every side-dependent decision of a book is written twice. Two books are mirror images below `C`
if one has at `C - p` on one side what the other has at `p` on the other, up to the fill costs; a price of 0
stands for itself. Matching, insertion and the release of stops keep this.
-/

namespace BaboEngine
open RelatedLists

def TreeName.mirror : TreeName → TreeName
  | .bids => .asks
  | .asks => .bids
  | .stopBids => .stopAsks
  | .stopAsks => .stopBids

/-- Two prices opposite to each other, or both none. -/
def MirroredPrice (C p p' : Nat) : Prop := p = 0 ∧ p' = 0 ∨ 0 < p ∧ 0 < p' ∧ p + p' = C

/-- An order and its mirror image; the fill costs are left open. -/
structure Mirrored (C : Nat) (o o' : SimpleOrder) : Prop where
  state : o'.state = o.state
  isBuy : o'.isBuy = !o.isBuy
  orderQty : o'.orderQty = o.orderQty
  price : MirroredPrice C o.price o'.price
  stopPrice : MirroredPrice C o.stopPrice o'.stopPrice
  conditions : o'.conditions = o.conditions
  filledQty : o'.filledQty = o.filledQty
  reserved : o'.reserved = o.reserved
  orderId : o'.orderId = o.orderId

/-- An order on a side, where its key is not 0, and its mirror image on the other. -/
structure MirroredOn (C : Nat) (t : TreeName) (o o' : SimpleOrder) : Prop extends Mirrored C o o' where
  keyed : t.key o ≠ 0

/-- A trade and its mirror image. -/
structure MirroredTrade (C : Nat) (x x' : Trade) : Prop where
  taker : Mirrored C x.taker x'.taker
  maker : Mirrored C x.maker x'.maker
  priced : x.maker.price ≠ 0
  qty : x'.qty = x.qty

/-- A call of the listener and its mirror image: the fill costs are left open. -/
def MirroredEvent (C : Nat) : OrderEvent → OrderEvent → Prop
  | .onFill orderId matchedOrderId fillQty _, e => ∃ fillCost, e = .onFill orderId matchedOrderId fillQty fillCost
  | .onReplace orderId sizeDelta newPrice, e => ∃ newPrice', MirroredPrice C newPrice newPrice' ∧ e = .onReplace orderId sizeDelta newPrice'
  | e, e' => e' = e

section
variable {C : Nat} {o o' i i' m m' : SimpleOrder} {t : TreeName} {p p' q q' : Nat}

theorem TreeName.mirror_mirror (t : TreeName) : t.mirror.mirror = t := by cases t <;> rfl

theorem MirroredPrice.zero_iff (mirrored : MirroredPrice C p p') : p' = 0 ↔ p = 0 := by
  unfold MirroredPrice at mirrored
  omega

namespace Mirrored
variable (mirrored : Mirrored C o o')
include mirrored

theorem openQty : o'.openQty = o.openQty := by
  simp only [SimpleOrder.openQty,mirrored.orderQty,mirrored.filledQty,mirrored.reserved]

theorem allOrNone : o'.allOrNone = o.allOrNone := by simp only [SimpleOrder.allOrNone,mirrored.conditions]

theorem immediateOrCancel : o'.immediateOrCancel = o.immediateOrCancel := by
  simp only [SimpleOrder.immediateOrCancel,mirrored.conditions]

theorem side : o'.side = o.side.mirror := by
  simp only [SimpleOrder.side,mirrored.isBuy]
  cases o.isBuy <;> rfl

theorem opposite : o'.opposite = o.opposite.mirror := by
  simp only [SimpleOrder.opposite,mirrored.isBuy]
  cases o.isBuy <;> rfl

theorem stopSide : o'.stopSide = o.stopSide.mirror := by
  simp only [SimpleOrder.stopSide,mirrored.isBuy]
  cases o.isBuy <;> rfl

theorem key (t : TreeName) : MirroredPrice C (t.key o) (t.mirror.key o') := by
  cases t
  · exact mirrored.price
  · exact mirrored.price
  · exact mirrored.stopPrice
  · exact mirrored.stopPrice

theorem sized (fits : o.Sized) : o'.Sized :=
  ⟨by rw [mirrored.orderQty]; exact fits.orderQty,by rw [mirrored.filledQty]; exact fits.filledQty,
    by rw [mirrored.reserved]; exact fits.reserved⟩

theorem fill (q c c' : Nat) : Mirrored C (o.fill q c) (o'.fill q c') := by
  have openQty : ({ o' with filledQty := toU32 (o'.filledQty + q), filledCost := toU32 (o'.filledCost + c') } : SimpleOrder).openQty =
      ({ o with filledQty := toU32 (o.filledQty + q), filledCost := toU32 (o.filledCost + c) } : SimpleOrder).openQty := by
    simp only [SimpleOrder.openQty,mirrored.orderQty,mirrored.filledQty,mirrored.reserved]
  simp only [SimpleOrder.fill,openQty]
  split_ifs
  · exact ⟨rfl,mirrored.isBuy,mirrored.orderQty,mirrored.price,mirrored.stopPrice,mirrored.conditions,by rw [mirrored.filledQty],
      mirrored.reserved,mirrored.orderId⟩
  · exact ⟨mirrored.state,mirrored.isBuy,mirrored.orderQty,mirrored.price,mirrored.stopPrice,mirrored.conditions,
      by rw [mirrored.filledQty],mirrored.reserved,mirrored.orderId⟩

end Mirrored

theorem MirroredOn.fill (mirrored : MirroredOn C t o o') (q c c' : Nat) : MirroredOn C t (o.fill q c) (o'.fill q c') :=
  ⟨mirrored.toMirrored.fill q c c',by rw [t.key_fill]; exact mirrored.keyed⟩

theorem MirroredOn.priced (mirrored : MirroredOn C t o o') (resting : t = .bids ∨ t = .asks) : o.price ≠ 0 := by
  have keyed := mirrored.keyed
  rcases resting with rfl | rfl <;> exact keyed

/-- On opposite sides the better of two prices is opposite to the better. -/
theorem better_mirrored (mirrored : MirroredPrice C p p') (mirrored' : MirroredPrice C q q') (some : p ≠ 0) (some' : q ≠ 0) (t : TreeName) :
    t.mirror.type.better p' q' ↔ t.type.better p q := by
  unfold MirroredPrice at mirrored mirrored'
  cases t <;> simp only [TreeName.mirror,TreeName.type,OrderType.better] <;> omega

theorem crosses_mirrored (maker : Mirrored C m m') (some : m.price ≠ 0) (inc : Mirrored C i i') : crosses m' i' = crosses m i := by
  have makers := maker.price
  have prices := inc.price
  unfold MirroredPrice at makers prices
  unfold crosses
  rw [inc.isBuy]
  have isMarket : i'.price = marketOrderPrice ↔ i.price = marketOrderPrice := inc.price.zero_iff
  by_cases market : i.price = marketOrderPrice
  · rw [if_pos market,if_pos (isMarket.mpr market)]
  · have isPrice : ¬ i.price = 0 := market
    rw [if_neg market,if_neg fun market' => market (isMarket.mp market')]
    cases i.isBuy <;> simp only [Bool.not_true,Bool.not_false,Bool.false_eq_true,if_true,if_false,decide_eq_decide] <;> omega

end

/-! ## Matching -/

namespace Matching
variable {C : Nat} {t : TreeName} {i i' : SimpleOrder} {ms ms' : List SimpleOrder}

/-- A maker with what is taken of it, and its mirror image. -/
def MirroredTake (C : Nat) (t : TreeName) (m m' : SimpleOrder × Option Nat) : Prop := MirroredOn C t m.1 m'.1 ∧ m'.2 = m.2

theorem untouched_mirrored (makers : List.Forall₂ (MirroredOn C t) ms ms') :
    List.Forall₂ (MirroredTake C t) (ms.map fun o => (o,none)) (ms'.map fun o => (o,none)) :=
  List.rel_map (R := MirroredOn C t) (fun _ _ mirrored => ⟨mirrored,rfl⟩) makers

theorem allot_mirrored (inc : Mirrored C i i') (resting : t = .bids ∨ t = .asks) (makers : List.Forall₂ (MirroredOn C t) ms ms') :
    ∀ need, List.Forall₂ (MirroredTake C t) (allot i need ms) (allot i' need ms') := by
  induction makers with
  | nil => exact fun _ => .nil
  | @cons m m' ms ms' first rest ih =>
    intro need
    have crossed := crosses_mirrored first.toMirrored (first.priced resting) inc
    simp only [allot,crossed,first.allOrNone,first.openQty]
    split_ifs
    · exact untouched_mirrored (.cons first rest)
    · exact .cons ⟨first,rfl⟩ (ih need)
    · exact .cons ⟨first,rfl⟩ (ih _)

theorem total_mirrored {takes takes' : List (SimpleOrder × Option Nat)} (mirrored : List.Forall₂ (MirroredTake C t) takes takes') :
    total takes' = total takes := by
  induction mirrored with
  | nil => rfl
  | @cons m m' takes takes' first _ ih =>
    obtain ⟨m,q⟩ := m
    obtain ⟨m',q'⟩ := m'
    obtain rfl : q' = q := first.2
    cases q' with
    | none => rw [total_none,total_none,ih]
    | some q => rw [total_some,total_some,ih]

theorem takes_mirrored (inc : Mirrored C i i') (resting : t = .bids ∨ t = .asks) (makers : List.Forall₂ (MirroredOn C t) ms ms') :
    List.Forall₂ (MirroredTake C t) (takes i ms) (takes i' ms') := by
  have allots := allot_mirrored inc resting makers i.openQty
  have totals := total_mirrored allots
  simp only [takes,inc.allOrNone,inc.openQty,totals]
  split_ifs
  · exact untouched_mirrored makers
  · exact allots

theorem kept_mirrored (mirrored : MirroredOn C t i i') : List.Forall₂ (MirroredOn C t) (kept i) (kept i') := by
  simp only [kept,mirrored.openQty]
  split_ifs
  · exact .nil
  · exact .cons mirrored .nil

/-- What is left of two mirrored passes, and their trades. -/
structure MirroredPass (C : Nat) (t : TreeName) (r r' : Matching) : Prop where
  inc : Mirrored C r.inc r'.inc
  makers : List.Forall₂ (MirroredOn C t) r.makers r'.makers
  trades : List.Forall₂ (MirroredTrade C) r.trades r'.trades

theorem commit_mirrored {takes takes' : List (SimpleOrder × Option Nat)} (resting : t = .bids ∨ t = .asks)
    (mirrored : List.Forall₂ (MirroredTake C t) takes takes') :
    ∀ {i i' : SimpleOrder}, Mirrored C i i' → MirroredPass C t (commit i takes) (commit i' takes') := by
  induction mirrored with
  | nil => exact fun inc => ⟨inc,.nil,.nil⟩
  | @cons m m' takes takes' first _ ih =>
    intro i i' inc
    obtain ⟨m,q⟩ := m
    obtain ⟨m',q'⟩ := m'
    obtain ⟨maker,same⟩ := first
    obtain rfl : q' = q := same
    cases q' with
    | none =>
      obtain ⟨inc',makers,trades⟩ := ih inc
      exact ⟨inc',.cons maker makers,trades⟩
    | some q =>
      obtain ⟨inc',makers,trades⟩ := ih (inc.fill q (Market.cost m q) (Market.cost m' q))
      exact ⟨inc',List.rel_append (kept_mirrored (maker.fill q _ _)) makers,.cons ⟨inc,maker.toMirrored,maker.priced resting,rfl⟩ trades⟩

theorem against_mirrored (inc : Mirrored C i i') (sized : i.Sized) (resting : t = .bids ∨ t = .asks)
    (makers : List.Forall₂ (MirroredOn C t) ms ms') : MirroredPass C t (against i ms) (against i' ms') := by
  rw [against_eq sized,against_eq (inc.sized sized)]
  exact commit_mirrored resting (takes_mirrored inc resting makers) inc

end Matching

/-! ## Books -/

/-- The market prices, the calls of the listeners and the trades of two books. -/
structure MirroredMarket (C : Nat) (k k' : Market) : Prop where
  marketPrice : MirroredPrice C k.marketPrice k'.marketPrice
  observes : k.marketPrice ≠ 0
  events : List.Forall₂ (MirroredEvent C) k.events k'.events
  observed : List.Forall₂ (MirroredPrice C) k.observed k'.observed
  trades : List.Forall₂ (MirroredTrade C) k.trades k'.trades

namespace MirroredMarket
variable {C : Nat} {k k' : Market}

theorem emit (mirrored : MirroredMarket C k k') {e e' : OrderEvent} (event : MirroredEvent C e e') :
    MirroredMarket C (k.emit e) (k'.emit e') :=
  ⟨mirrored.marketPrice,mirrored.observes,List.rel_append mirrored.events (.cons event .nil),mirrored.observed,mirrored.trades⟩

theorem observe (mirrored : MirroredMarket C k k') {p p' : Nat} (prices : MirroredPrice C p p') (some : p ≠ 0) :
    MirroredMarket C (k.observe p) (k'.observe p') :=
  ⟨prices,some,mirrored.events,List.rel_append mirrored.observed (.cons prices .nil),mirrored.trades⟩

theorem trade (mirrored : MirroredMarket C k k') {x x' : Trade} (rel : MirroredTrade C x x') :
    MirroredMarket C (k.trade x) (k'.trade x') := by
  have event : MirroredEvent C (.onFill x.taker.orderId x.maker.orderId x.qty (Market.cost x.maker x.qty))
      (.onFill x'.taker.orderId x'.maker.orderId x'.qty (Market.cost x'.maker x'.qty)) := by
    rw [rel.taker.orderId,rel.maker.orderId,rel.qty]
    exact ⟨_,rfl⟩
  have told := (mirrored.observe rel.maker.price rel.priced).emit event
  exact ⟨told.marketPrice,told.observes,told.events,told.observed,List.rel_append mirrored.trades (.cons rel .nil)⟩

theorem tradeAll {xs xs' : List Trade} (rel : List.Forall₂ (MirroredTrade C) xs xs') :
    ∀ {k k' : Market}, MirroredMarket C k k' → MirroredMarket C (k.tradeAll xs) (k'.tradeAll xs') := by
  induction rel with
  | nil => exact fun mirrored => mirrored
  | cons first _ ih => exact fun mirrored => ih (mirrored.trade first)

end MirroredMarket

/-- Two books of which each side is the mirror image of the other side of the other. -/
structure MirroredBook (C : Nat) (b b' : Book) : Prop where
  side : ∀ t, List.Forall₂ (MirroredOn C t) (b.side t) (b'.side t.mirror)
  market : MirroredMarket C b.market b'.market

namespace MirroredBook
variable {C : Nat} {b b' : Book} {o o' : SimpleOrder} {t : TreeName} {hand hand' : List SimpleOrder}

theorem journal (mirrored : MirroredBook C b b') {k k' : Market} (market : MirroredMarket C k k') :
    MirroredBook C { b with market := k } { b' with market := k' } :=
  ⟨mirrored.side,market⟩

theorem emit (mirrored : MirroredBook C b b') {e e' : OrderEvent} (event : MirroredEvent C e e') :
    MirroredBook C (b.emit e) (b'.emit e') :=
  mirrored.journal (mirrored.market.emit event)

theorem put (mirrored : MirroredBook C b b') (t : TreeName) {os os' : List SimpleOrder} (orders : List.Forall₂ (MirroredOn C t) os os') :
    MirroredBook C (b.put t os) (b'.put t.mirror os') := by
  refine ⟨fun t' => ?_,mirrored.market⟩
  by_cases same : t' = t
  · subst same
    simpa [Book.put] using orders
  · have other : t'.mirror ≠ t.mirror := by
      intro image
      exact same (by rw [← t'.mirror_mirror,image,t.mirror_mirror])
    simpa [Book.put,Function.update_of_ne same,Function.update_of_ne other] using mirrored.side t'

theorem insertInto (mirrored : MirroredBook C b b') (order : MirroredOn C t o o') :
    MirroredBook C (b.insertInto t o) (b'.insertInto t.mirror o') :=
  mirrored.put t (orderedInsert_related order
    (fun _ _ other => better_mirrored (order.key t) (other.key t) order.keyed other.keyed t) (mirrored.side t))

theorem eraseFrom (mirrored : MirroredBook C b b') (t : TreeName) (id : Nat) :
    MirroredBook C (b.eraseFrom t id) (b'.eraseFrom t.mirror id) :=
  mirrored.put t (filter_related (fun x x' order => by simp only [order.orderId]) (mirrored.side t))

theorem pass (mirrored : MirroredBook C b b') (order : Mirrored C o o') (sized : o.Sized) :
    Matching.MirroredPass C o.opposite (b.pass o) (b'.pass o') := by
  unfold Book.pass
  rw [order.opposite]
  exact Matching.against_mirrored order sized o.opposite_cases (mirrored.side o.opposite)

theorem rests {r r' : SimpleOrder} (order : Mirrored C o o') (remainder : Mirrored C r r') : Book.Rests o' r' ↔ Book.Rests o r := by
  unfold Book.Rests marketOrderPrice
  rw [order.price.zero_iff,remainder.immediateOrCancel,remainder.openQty]

theorem submit (mirrored : MirroredBook C b b') (order : Mirrored C o o') (sized : o.Sized) :
    MirroredBook C (b.submit o) (b'.submit o') := by
  have passed := mirrored.pass order sized
  have terms := (Book.pass_inc (b := b) sized).1
  have matched : MirroredBook C (b.passed o) (b'.passed o') := by
    have puts := mirrored.put o.opposite passed.makers
    rw [← order.opposite] at puts
    have market := MirroredMarket.tradeAll passed.trades mirrored.market
    exact puts.journal ⟨market.marketPrice,market.observes,market.events,market.observed,market.trades⟩
  rw [Book.submit_eq,Book.submit_eq]
  by_cases stays : Book.Rests o (b.pass o).inc
  · have priced : (b.pass o).inc.side.key (b.pass o).inc ≠ 0 := by
      have isPrice : (b.pass o).inc.side.key (b.pass o).inc = (b.pass o).inc.price := by
        rcases (b.pass o).inc.side_cases with same | same <;> rw [same] <;> rfl
      rw [isPrice,terms.price]
      exact stays.1
    rw [if_pos stays,if_pos ((rests order passed.inc).mpr stays),passed.inc.side]
    exact matched.insertInto ⟨passed.inc,priced⟩
  · rw [if_neg stays,if_neg fun stays' => stays ((rests order passed.inc).mp stays')]
    exact matched

/-! ## Released stops -/

theorem isStopped (mirrored : MirroredBook C b b') (order : Mirrored C o o') (isStop : o.stopPrice ≠ 0) :
    b'.isStopped o' = b.isStopped o := by
  have stops := order.stopPrice
  have market := mirrored.market.marketPrice
  have observes := mirrored.market.observes
  unfold MirroredPrice at stops market
  unfold Book.isStopped
  rw [order.isBuy]
  cases o.isBuy <;> simp only [Bool.not_true,Bool.not_false,Bool.false_eq_true,if_true,if_false,decide_eq_decide] <;> omega

theorem parkStop (mirrored : MirroredBook C b b') (order : Mirrored C o o') (isStop : o.stopPrice ≠ 0) :
    MirroredBook C (b.parkStop o) (b'.parkStop o') := by
  have keyed : o.stopSide.key o ≠ 0 := by
    have isKey : o.stopSide.key o = o.stopPrice := by
      unfold SimpleOrder.stopSide
      cases o.isBuy <;> rfl
    rwa [isKey]
  have inserted := mirrored.insertInto (t := o.stopSide) ⟨order,keyed⟩
  rw [← order.stopSide] at inserted
  exact inserted.journal ⟨inserted.market.marketPrice,inserted.market.observes,inserted.market.events,inserted.market.observed,
    inserted.market.trades⟩

/-- The stops that are due, and those that are not, on both sides. -/
theorem due (mirrored : MirroredBook C b b') : List.Forall₂ (Mirrored C) b.dueBuys b'.dueSells ∧
    List.Forall₂ (Mirrored C) b.dueSells b'.dueBuys ∧ MirroredBook C b.scanned b'.scanned := by
  have market := mirrored.market.marketPrice
  have observes := mirrored.market.observes
  unfold MirroredPrice at market
  have buys := while_related (p := fun o => decide ¬ o.stopPrice > b.market.marketPrice)
    (q := fun o => decide ¬ o.stopPrice < b'.market.marketPrice) (fun o o' order => by
      have stops := order.stopPrice
      have keyed : o.stopPrice ≠ 0 := order.keyed
      unfold MirroredPrice at stops
      simp only [decide_eq_decide]
      omega) (mirrored.side .stopBids)
  have sells := while_related (p := fun o => decide ¬ o.stopPrice < b.market.marketPrice)
    (q := fun o => decide ¬ o.stopPrice > b'.market.marketPrice) (fun o o' order => by
      have stops := order.stopPrice
      have keyed : o.stopPrice ≠ 0 := order.keyed
      unfold MirroredPrice at stops
      simp only [decide_eq_decide]
      omega) (mirrored.side .stopAsks)
  refine ⟨buys.1.imp fun _ _ order => order.toMirrored,sells.1.imp fun _ _ order => order.toMirrored,?_,mirrored.market⟩
  intro t
  obtain ⟨stopBids,stopAsks,bids,asks⟩ := Book.side_scanned b
  obtain ⟨stopBids',stopAsks',bids',asks'⟩ := Book.side_scanned b'
  cases t with
  | bids =>
    rw [bids,show b'.scanned.side TreeName.bids.mirror = _ from asks']
    exact mirrored.side .bids
  | asks =>
    rw [asks,show b'.scanned.side TreeName.asks.mirror = _ from bids']
    exact mirrored.side .asks
  | stopBids =>
    rw [stopBids,show b'.scanned.side TreeName.stopBids.mirror = _ from stopAsks']
    exact buys.2
  | stopAsks =>
    rw [stopAsks,show b'.scanned.side TreeName.stopAsks.mirror = _ from stopBids']
    exact sells.2

theorem submitAll (fired : List.Forall₂ (Mirrored C) hand hand') : ∀ {b b' : Book}, (∀ o ∈ hand, o.Sized) → MirroredBook C b b' →
    MirroredBook C (b.submitAll hand) (b'.submitAll hand') := by
  induction fired with
  | nil => exact fun _ mirrored => mirrored
  | cons first _ ih =>
    intro b b' sized mirrored
    obtain ⟨sizedFirst,sizedRest⟩ := List.forall_mem_cons.mp sized
    exact ih sizedRest (mirrored.submit first sizedFirst)

/-- As only one side is released from, the order of the two scans makes no difference. -/
theorem fired (mirrored : MirroredBook C b b') (orderly : Book.Orderly b []) {p : Nat} (quiet : Book.QuietAt p b) :
    List.Forall₂ (Mirrored C) (b.dueBuys ++ b.dueSells) (b'.dueBuys ++ b'.dueSells) := by
  obtain ⟨buys,sells,_⟩ := mirrored.due
  cases quiet.one_side orderly with
  | inl none =>
    rw [none] at buys ⊢
    rw [List.forall₂_nil_left_iff.mp buys,List.nil_append,List.append_nil]
    exact sells
  | inr none =>
    rw [none] at sells ⊢
    rw [List.forall₂_nil_left_iff.mp sells,List.nil_append,List.append_nil]
    exact buys

theorem fire (mirrored : MirroredBook C b b') (orderly : Book.Orderly b []) {p : Nat} (quiet : Book.QuietAt p b) :
    MirroredBook C b.fire b'.fire := by
  have submitted := submitAll (mirrored.fired orderly quiet) orderly.dueSized mirrored.due.2.2
  have market := submitted.market
  exact submitted.journal ⟨market.marketPrice,market.observes,market.events,market.observed,market.trades⟩

theorem processTriggeredLoop (rounds : Nat) : ∀ {b b' : Book}, MirroredBook C b b' → Book.Orderly b [] → (∃ p, Book.QuietAt p b) →
    MirroredBook C (b.processTriggeredLoop rounds) (b'.processTriggeredLoop rounds) := by
  induction rounds with
  | zero => exact fun mirrored _ _ => mirrored
  | succ rounds ih =>
    rintro b b' mirrored orderly ⟨p,quiet⟩
    have fired := mirrored.fired orderly quiet
    have none : (b'.dueBuys ++ b'.dueSells).isEmpty = (b.dueBuys ++ b.dueSells).isEmpty := by
      rw [Bool.eq_iff_iff,List.isEmpty_iff_length_eq_zero,List.isEmpty_iff_length_eq_zero,fired.length_eq]
    unfold Book.processTriggeredLoop
    rw [none]
    split_ifs
    · exact mirrored
    · exact ih (mirrored.fire orderly quiet) (Book.orderly_preserved.fire orderly) ⟨_,orderly.quiet_fire⟩

theorem processTriggered (mirrored : MirroredBook C b b') (orderly : Book.Orderly b []) {p : Nat} (quiet : Book.QuietAt p b) :
    MirroredBook C b.processTriggered b'.processTriggered := by
  have count : b'.parkedCount = b.parkedCount := by
    have buys := (mirrored.side .stopBids).length_eq
    have sells := (mirrored.side .stopAsks).length_eq
    unfold Book.parkedCount
    simp only [TreeName.mirror] at buys sells
    omega
  unfold Book.processTriggered
  rw [count]
  exact processTriggeredLoop _ mirrored orderly ⟨p,quiet⟩

end MirroredBook

end BaboEngine
