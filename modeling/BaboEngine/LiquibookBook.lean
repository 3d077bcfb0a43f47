import BaboEngine.AdapterRuns
import BaboEngine.LiquibookAdapter

/-!
# The book of liquibook

Its multimaps hold the sides of the abstract book, entry by entry: matching is the one of the
abstract book (`matchRegularLoop_eq`), and so are insertion, the search of an order and the
range of a price.
-/

namespace BaboEngine
open Liquibook

/-- The tracker of an order at a pointer. -/
def SimpleOrder.tracker (o : SimpleOrder) (order : Nat) (conditions : UInt32) : Tracker := ⟨order,o.openQty,0,conditions⟩

/-- The key of an order. -/
def SimpleOrder.comparable (o : SimpleOrder) : ComparablePrice := ⟨o.isBuy,o.price⟩

/-- The entry of an order; `ptr` has the pointers of the ids. -/
def SimpleOrder.entry (ptr : Nat → Nat) (o : SimpleOrder) : ComparablePrice × Tracker :=
  (o.comparable,o.tracker (ptr o.orderId) ocNoConditions)

/-- The callback of a trade. -/
def Trade.callback (ptr : Nat → Nat) (taker : Nat) (t : Trade) : Callback := .fill taker (ptr t.maker.orderId) t.qty t.maker.price

/-- What a side of a plain book has. -/
structure PlainSide (t : TreeName) (os : List SimpleOrder) : Prop where
  sorted : Book.SortedSide t os
  nodup : (ids os).Nodup
  isBuy : ∀ o ∈ os, o.isBuy = decide (t = .bids)
  sized : ∀ o ∈ os, o.Sized
  each : ∀ o ∈ os, Book.PlainOrder o

theorem Book.Plain.plainSide {b : Book} {t : TreeName} (plain : b.Plain) (resting : t = .bids ∨ t = .asks) : PlainSide t (b.side t) :=
  ⟨plain.orderly.sorted t,plain.orderly.nodup t,fun _ member => plain.isBuy resting member,plain.orderly.sized.1 t,plain.each t⟩

theorem PlainSide.sublist {t : TreeName} {os os' : List SimpleOrder} (side : PlainSide t os) (sublist : os'.Sublist os) :
    PlainSide t os' :=
  ⟨side.sorted.sublist sublist,side.nodup.sublist (sublist.map _),fun o member => side.isBuy o (sublist.subset member),
    fun o member => side.sized o (sublist.subset member),fun o member => side.each o (sublist.subset member)⟩

theorem PlainSide.tail {t : TreeName} {o : SimpleOrder} {os : List SimpleOrder} (side : PlainSide t (o :: os)) : PlainSide t os :=
  side.sublist (List.sublist_cons_self ..)

namespace Liquibook
variable {t : TreeName} {p q : Nat}

/-- Easier to match is better. -/
theorem easier_eq (resting : t = .bids ∨ t = .asks) (some : 1 ≤ p) (some' : 1 ≤ q) (buySide : Bool) :
    ComparablePrice.easier ⟨decide (t = .bids),p⟩ ⟨buySide,q⟩ = decide (t.type.better p q) := by
  have priced : p ≠ marketOrderPrice := by
    show p ≠ 0
    omega
  have priced' : q ≠ marketOrderPrice := by
    show q ≠ 0
    omega
  rw [ComparablePrice.easier,if_neg priced,if_neg priced']
  rcases resting with rfl | rfl
  · exact decide_eq_decide.mpr Iff.rfl
  · exact decide_eq_decide.mpr Iff.rfl

/-- A key admits the price of an order if its order crosses. -/
theorem admits_eq {maker inc : SimpleOrder} (apart : maker.isBuy = !inc.isBuy) (some : 1 ≤ maker.price) (some' : 1 ≤ inc.price) :
    maker.comparable.admits inc.price = crosses maker inc := by
  have priced : maker.price ≠ marketOrderPrice := by
    show maker.price ≠ 0
    omega
  have priced' : inc.price ≠ marketOrderPrice := by
    show inc.price ≠ 0
    omega
  rw [ComparablePrice.admits,crosses,if_neg priced',SimpleOrder.comparable,apart]
  cases inc.isBuy <;> simp only [priced,priced',Bool.not_true,Bool.not_false,if_true,Bool.false_eq_true,if_false,or_false]
  · split_ifs <;> simp <;> omega
  · split_ifs <;> simp <;> omega

/-! ## Trackers -/

section
variable {o : SimpleOrder} {order : Nat} {conditions : UInt32}

theorem openQty_tracker (sized : o.Sized) : (o.tracker order conditions).openQty = o.openQty := by
  have isOpen := sized.openQty
  have small := sized.orderQty
  show toU32 ((o.openQty : Int) - 0) = _
  rw [Int.sub_zero]
  exact SimpleOrder.toU32_of_lt (by omega)

theorem filled_tracker (o : SimpleOrder) : (o.tracker order conditions).filled = decide (o.openQty = 0) := rfl

theorem fill_tracker (sized : o.Sized) (enough : q ≤ o.openQty) (c : Nat) :
    (o.tracker order conditions).fill q = some ((o.fill q c).tracker order conditions) := by
  have fits : ¬ q > (o.tracker order conditions).openQty_ := Nat.not_lt.mpr enough
  rw [Tracker.fill,if_neg fits,SimpleOrder.tracker,SimpleOrder.tracker,sized.openQty_fill enough]

theorem allOrNone_tracker (o : SimpleOrder) : (o.tracker order ocNoConditions).allOrNone = false := by
  show (ocNoConditions &&& ocAllOrNone != 0) = false
  decide

end

/-! ## Matching -/

section
variable {orders : List Order} {ptr : Nat → Nat} {inc maker : SimpleOrder} {taker : Nat}

/-- The object of an order has its price. -/
def Priced (orders : List Order) (order : Nat) (o : SimpleOrder) : Prop := ∃ lo, orders[order]? = some lo ∧ lo.price = o.price

theorem createTrade_eq (sized : inc.Sized) (sized' : maker.Sized) (known : Priced orders taker inc)
    (known' : Priced orders (ptr maker.orderId) maker) (price : 1 ≤ maker.price) (needs : inc.openQty ≠ 0) (opened : maker.openQty ≠ 0)
    (conditions : UInt32) (k : Tape) (c : Nat) :
    createTrade orders k (inc.tracker taker conditions) (maker.tracker (ptr maker.orderId) ocNoConditions) 4294967295 =
      some (⟨maker.price,k.callbacks ++ [.fill taker (ptr maker.orderId) (min inc.openQty maker.openQty) maker.price]⟩,
        (inc.fill (min inc.openQty maker.openQty) c).tracker taker conditions,
        (maker.fill (min inc.openQty maker.openQty) c).tracker (ptr maker.orderId) ocNoConditions,min inc.openQty maker.openQty) := by
  obtain ⟨own,read,_⟩ := known
  obtain ⟨other,read',isPrice⟩ := known'
  have priced : maker.price ≠ marketOrderPrice := by
    show maker.price ≠ 0
    omega
  have small : inc.openQty < 4294967296 := by
    have isOpen := sized.openQty
    have bound := sized.orderQty
    omega
  have quantity : min 4294967295 (min inc.openQty maker.openQty) = min inc.openQty maker.openQty := by omega
  have positive : min inc.openQty maker.openQty ≠ 0 := by omega
  have pointer : (inc.tracker taker conditions).order = taker := rfl
  have pointer' : (maker.tracker (ptr maker.orderId) ocNoConditions).order = ptr maker.orderId := rfl
  simp only [createTrade,pointer,pointer',read,read',isPrice,if_neg priced,openQty_tracker sized,openQty_tracker sized',quantity,
    if_neg positive,fill_tracker sized (Nat.min_le_left _ _) c,fill_tracker sized' (Nat.min_le_right _ _) c,Option.bind_eq_bind,
    Option.bind_some,Tape.push]
  rfl

/-- The loop matches as the abstract book does. -/
theorem matchRegularLoop_eq (conditions : UInt32) (makers : List SimpleOrder) :
    ∀ (inc : SimpleOrder) (k : Tape), inc.Sized → 1 ≤ inc.price →
    Priced orders taker inc → (∀ m ∈ makers, m.Sized ∧ Book.PlainOrder m ∧ m.isBuy = !inc.isBuy ∧ Priced orders (ptr m.orderId) m) →
    ∃ marketPrice matched, matchRegularLoop orders inc.price k (inc.tracker taker conditions) (makers.map (SimpleOrder.entry ptr)) =
      some (⟨marketPrice,k.callbacks ++ (Matching.regular inc makers).trades.map (Trade.callback ptr taker)⟩,
        (Matching.regular inc makers).inc.tracker taker conditions,
        (Matching.regular inc makers).makers.map (SimpleOrder.entry ptr),matched) := by
  induction makers with
  | nil =>
    intro inc k _ _ _ _
    refine ⟨k.marketPrice,false,?_⟩
    simp [matchRegularLoop,Matching.regular]
  | cons maker rest ih =>
    intro inc k sized price known each
    obtain ⟨⟨sized',plain,apart,known'⟩,eachRest⟩ := List.forall_mem_cons.mp each
    have admits : (maker.entry ptr).1.admits inc.price = crosses maker inc := admits_eq apart plain.price.1 price
    by_cases stop : inc.openQty = 0 ∨ crosses maker inc = false
    · refine ⟨k.marketPrice,false,?_⟩
      rw [Matching.regular_stop rest stop,List.map_cons,matchRegularLoop,filled_tracker,admits]
      cases stop with
      | inl done => simp [done]
      | inr apart => simp [apart]
    · have needs : inc.openQty ≠ 0 := fun done => stop (.inl done)
      have crossed : crosses maker inc := by simpa using fun apart => stop (.inr apart)
      have regular : maker.allOrNone = false := plain.regular.1
      have opened : maker.openQty ≠ 0 := Nat.pos_iff_ne_zero.mp plain.opened
      have traded : min inc.openQty maker.openQty > 0 := by omega
      have created := createTrade_eq sized sized' known known' plain.price.1 needs opened conditions k
        (Market.cost maker (min inc.openQty maker.openQty))
      rw [Matching.regular_take rest needs crossed (by simp [regular])]
      generalize min inc.openQty maker.openQty = q at created traded ⊢
      obtain ⟨marketPrice,matched,looped⟩ := ih (inc.fill q (Market.cost maker q))
        ⟨maker.price,k.callbacks ++ [.fill taker (ptr maker.orderId) q maker.price]⟩ (sized.fill _ _) (by simpa using price)
        (by simpa [Priced] using known) (fun m member => by simpa using eachRest m member)
      rw [SimpleOrder.fill_price] at looped
      have created' : createTrade orders k (inc.tracker taker conditions) (maker.entry ptr).2 4294967295 = _ := created
      have notAon : (maker.entry ptr).2.allOrNone = false := allOrNone_tracker maker
      refine ⟨marketPrice,true,?_⟩
      rw [List.map_cons,matchRegularLoop,filled_tracker,if_neg (by simpa using needs)]
      simp only [admits,crossed,notAon,created',looped,Option.bind_eq_bind,Option.bind_some,if_pos traded,filled_tracker]
      have entry' : ((maker.entry ptr).1,(maker.fill q (Market.cost maker q)).tracker (ptr maker.orderId) ocNoConditions) =
          (maker.fill q (Market.cost maker q)).entry ptr := by
        simp [SimpleOrder.entry,SimpleOrder.comparable]
      rw [entry',if_neg (by decide),if_neg (by decide)]
      by_cases full : (maker.fill q (Market.cost maker q)).openQty = 0
      · simp [Matching.trade,Matching.kept,full,Trade.callback]
      · simp [Matching.trade,Matching.kept,full,Trade.callback]

end

/-! ## Multimaps -/

section
variable {ptr : Nat → Nat} {o : SimpleOrder} {os L R : List SimpleOrder} {place : Nat}

theorem ahead_iff {x : SimpleOrder} (resting : t = .bids ∨ t = .asks) : Book.Ahead t o x ↔ t.type.better o.price x.price := by
  rcases resting with rfl | rfl <;> rfl

/-- The order of the keys of a side is the one of its prices. -/
theorem easier_comparable (resting : t = .bids ∨ t = .asks) (side : PlainSide t os) (member : o ∈ os) (priced : 1 ≤ p) :
    o.comparable.easier ⟨decide (t = .bids),p⟩ = decide (t.type.better o.price p) ∧
      ComparablePrice.easier ⟨decide (t = .bids),p⟩ o.comparable = decide (t.type.better p o.price) := by
  have price := (side.each o member).price.1
  refine ⟨?_,easier_eq resting priced price _⟩
  rw [SimpleOrder.comparable,side.isBuy o member]
  exact easier_eq resting price priced _

theorem insert_entry (resting : t = .bids ∨ t = .asks) (os : List SimpleOrder) : PlainSide t os → o.isBuy = decide (t = .bids) →
    1 ≤ o.price → TrackerMap.insert (o.entry ptr).1 (o.entry ptr).2 (os.map (SimpleOrder.entry ptr)) =
      (os.orderedInsert (Book.Ahead t) o).map (SimpleOrder.entry ptr) := by
  induction os with
  | nil => exact fun _ _ _ => rfl
  | cons x os ih =>
    intro side isBuy price
    have easier := (easier_comparable resting side List.mem_cons_self price).2
    rw [← isBuy] at easier
    have ahead : (o.entry ptr).1.easier (x.entry ptr).1 = true ↔ Book.Ahead t o x := by
      rw [ahead_iff resting]
      exact (Bool.eq_iff_iff.mp easier).trans decide_eq_true_iff
    rw [List.map_cons,TrackerMap.insert,List.orderedInsert_cons]
    by_cases better : Book.Ahead t o x
    · rw [if_pos (ahead.mpr better),if_pos better]
      rfl
    · rw [if_neg fun easier => better (ahead.mp easier),if_neg better,ih side.tail isBuy price]
      rfl

theorem findLoop_skip (key : ComparablePrice) (order : Nat) (rest : TrackerMap) (L : List SimpleOrder) : ∀ place,
    (∀ x ∈ L, ptr x.orderId ≠ order ∧ key.easier (x.entry ptr).1 = false) →
      TrackerMap.findLoop key order place (L.map (SimpleOrder.entry ptr) ++ rest) = TrackerMap.findLoop key order (place + L.length) rest := by
  induction L with
  | nil => exact fun _ _ => rfl
  | cons x L ih =>
    intro place each
    obtain ⟨⟨other,goesOn⟩,eachRest⟩ := List.forall_mem_cons.mp each
    have other' : ¬ (x.entry ptr).2.order = order := other
    rw [List.map_cons,List.cons_append,TrackerMap.findLoop,if_neg other',goesOn,if_neg (by simp),ih _ eachRest,List.length_cons]
    congr 1
    omega

/-- The lower bound of a price is behind the orders at better prices. -/
theorem lowerBound_entry (ptr : Nat → Nat) (resting : t = .bids ∨ t = .asks) (priced : 1 ≤ p) (os : List SimpleOrder) :
    PlainSide t os → ∃ A D, os = A ++ D ∧
      TrackerMap.lowerBound (os.map (SimpleOrder.entry ptr)) ⟨decide (t = .bids),p⟩ = A.length ∧
      (∀ x ∈ A, t.type.better x.price p) ∧ ∀ x ∈ D, ¬ t.type.better x.price p := by
  induction os with
  | nil => exact fun _ => ⟨[],[],rfl,rfl,by simp,by simp⟩
  | cons x os ih =>
    intro side
    have easier : (x.entry ptr).1.easier ⟨decide (t = .bids),p⟩ = _ := (easier_comparable resting side List.mem_cons_self priced).1
    by_cases better : t.type.better x.price p
    · obtain ⟨A,D,rfl,bound,above,notAbove⟩ := ih side.tail
      refine ⟨x :: A,D,rfl,?_,List.forall_mem_cons.mpr ⟨better,above⟩,notAbove⟩
      rw [TrackerMap.lowerBound] at bound ⊢
      simp only [List.map_cons,List.takeWhile_cons,easier,decide_eq_true better,if_true,List.length_cons,bound]
    · refine ⟨[],x :: os,rfl,?_,by simp,List.forall_mem_cons.mpr ⟨better,?_⟩⟩
      · simp [TrackerMap.lowerBound,easier,better]
      · intro y member above
        apply (List.pairwise_cons.mp side.sorted).1 y member
        rw [ahead_iff resting]
        exact OrderType.better_of_not_better above better

/-- The search finds an order at its place. -/
theorem findOnMarket_entry (resting : t = .bids ∨ t = .asks) (side : PlainSide t (L ++ o :: R))
    (apart : ∀ x ∈ L, ptr x.orderId ≠ ptr o.orderId) :
    TrackerMap.findOnMarket ((L ++ o :: R).map (SimpleOrder.entry ptr)) o.comparable (ptr o.orderId) = some L.length := by
  have inSide : o ∈ L ++ o :: R := by simp
  have price := (side.each o inSide).price.1
  have isKey : o.comparable = ⟨decide (t = .bids),o.price⟩ := by rw [SimpleOrder.comparable,side.isBuy o inSide]
  obtain ⟨A,D,split,bound,above,_⟩ := lowerBound_entry ptr resting price _ side
  have notAbove : o ∉ A := fun member => t.type.better_irrefl _ (above o member)
  obtain ⟨B,rfl,rfl⟩ : ∃ B, L = A ++ B ∧ D = B ++ o :: R := by
    rcases List.append_eq_append_iff.mp split with ⟨B,rfl,isD⟩ | ⟨B,rfl,isD⟩
    · cases B with
      | nil =>
        exact ⟨[],by simp,isD.symm⟩
      | cons x B =>
        obtain ⟨rfl,_⟩ := List.cons_eq_cons.mp isD
        simp at notAbove
    · exact ⟨B,rfl,isD⟩
  have notBehind : ∀ x ∈ B, o.comparable.easier x.comparable = false := by
    intro x member
    have sorted := (List.pairwise_append.mp side.sorted).2.2 x (List.mem_append_right _ member) o List.mem_cons_self
    rw [ahead_iff resting] at sorted
    rw [isKey,(easier_comparable resting side (by simp [member]) price).2]
    simpa using sorted
  have notSelf : o.comparable.easier o.comparable = false := by
    have better := (easier_comparable resting side inSide price).2
    rw [← isKey] at better
    rw [better]
    simpa using t.type.better_irrefl o.price
  rw [← isKey] at bound
  have dropped : ((A ++ B ++ o :: R).map (SimpleOrder.entry ptr)).drop A.length = (B ++ o :: R).map (SimpleOrder.entry ptr) := by
    rw [List.append_assoc,List.map_append,List.drop_left' (List.length_map _)]
  have found : TrackerMap.first ((A ++ B ++ o :: R).map (SimpleOrder.entry ptr)) o.comparable = some A.length := by
    have read := congrArg (fun m => m[0]?) dropped
    rw [List.getElem?_drop,Nat.add_zero] at read
    rw [TrackerMap.first,bound,read]
    cases B with
    | nil =>
      simp [SimpleOrder.entry,notSelf]
    | cons x B =>
      simp [SimpleOrder.entry,notBehind x List.mem_cons_self]
  have here : (o.entry ptr).2.order = ptr o.orderId := rfl
  rw [TrackerMap.findOnMarket,found,Option.bind_eq_bind,Option.bind_some,dropped,List.map_append,findLoop_skip,List.map_cons,
    TrackerMap.findLoop,if_pos here,List.length_append]
  intro x member
  exact ⟨apart x (List.mem_append_right _ member),notBehind x member⟩

/-- Where no price is better, the entries of a price come first. -/
theorem takeWhile_entry (ptr : Nat → Nat) (resting : t = .bids ∨ t = .asks) (priced : 1 ≤ p) (os : List SimpleOrder) :
    PlainSide t os → (∀ x ∈ os, ¬ t.type.better x.price p) →
      (os.map (SimpleOrder.entry ptr)).takeWhile (fun entry => !ComparablePrice.easier ⟨decide (t = .bids),p⟩ entry.1) =
        (os.filter fun o => o.price = p).map (SimpleOrder.entry ptr) := by
  induction os with
  | nil => exact fun _ _ => rfl
  | cons x os ih =>
    intro side notBetter
    obtain ⟨first,rest⟩ := List.forall_mem_cons.mp notBetter
    have easier : ComparablePrice.easier ⟨decide (t = .bids),p⟩ (x.entry ptr).1 = _ :=
      (easier_comparable resting side List.mem_cons_self priced).2
    by_cases here : x.price = p
    · have same : ¬ t.type.better p x.price := by
        rw [here]
        exact t.type.better_irrefl p
      simp only [List.map_cons,List.takeWhile_cons,easier,decide_eq_false same,Bool.not_false,if_true,ih side.tail rest,
        List.filter_cons,decide_eq_true here]
    · have worse : t.type.better p x.price := (OrderType.better_total t.type here).resolve_left first
      have none : os.filter (fun o => o.price = p) = [] := by
        apply List.filter_eq_nil_iff.mpr
        intro y member isPrice
        have sorted := (List.pairwise_cons.mp side.sorted).1 y member
        rw [ahead_iff resting,of_decide_eq_true isPrice] at sorted
        exact sorted worse
      simp [easier,worse,here,none]

/-- The entries of a price are the orders at it. -/
theorem equalRange_entry (ptr : Nat → Nat) (resting : t = .bids ∨ t = .asks) (priced : 1 ≤ p) (side : PlainSide t os) :
    TrackerMap.equalRange (os.map (SimpleOrder.entry ptr)) ⟨decide (t = .bids),p⟩ =
      (os.filter fun o => o.price = p).map (SimpleOrder.entry ptr) := by
  obtain ⟨A,D,rfl,bound,above,notAbove⟩ := lowerBound_entry ptr resting priced os side
  have none : A.filter (fun o => o.price = p) = [] := by
    apply List.filter_eq_nil_iff.mpr
    intro x member isPrice
    have better := above x member
    rw [of_decide_eq_true isPrice] at better
    exact t.type.better_irrefl p better
  rw [TrackerMap.equalRange,bound,List.map_append,List.drop_left' (List.length_map _),List.filter_append,none,List.nil_append]
  exact takeWhile_entry ptr resting priced D (side.sublist (List.sublist_append_right ..)) notAbove

/-- No order has the price of a market order. -/
theorem equalRange_market (ptr : Nat → Nat) (buySide : Bool) (side : PlainSide t os) :
    TrackerMap.equalRange (os.map (SimpleOrder.entry ptr)) ⟨buySide,marketOrderPrice⟩ = [] := by
  cases os with
  | nil => rfl
  | cons x os =>
    have priced : x.price ≠ marketOrderPrice := Nat.pos_iff_ne_zero.mp (side.each x List.mem_cons_self).price.1
    have notEasier : (x.entry ptr).1.easier ⟨buySide,marketOrderPrice⟩ = false := by
      simp [SimpleOrder.entry,SimpleOrder.comparable,ComparablePrice.easier,priced]
    have easier : ComparablePrice.easier ⟨buySide,marketOrderPrice⟩ (x.entry ptr).1 = true := by
      simp [SimpleOrder.entry,SimpleOrder.comparable,ComparablePrice.easier,priced]
    simp [TrackerMap.equalRange,TrackerMap.lowerBound,notEasier,easier]

end

end Liquibook

end BaboEngine
