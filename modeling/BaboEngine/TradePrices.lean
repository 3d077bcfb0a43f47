import BaboEngine.AdapterRuns

/-!
# The prices of trade reports

The book gives its listener the cost of a fill in 32 bits, and the adapter divides it by the
quantity again. The result is the price of the maker as long as the cost has not wrapped.
-/

namespace BaboEngine
open Simulation

/-- The cost of a fill, divided by its quantity. -/
theorem cost_div (maker : SimpleOrder) {qty : Nat} (positive : 0 < qty) :
    Market.cost maker qty / qty = maker.price ↔ qty * maker.price < 4294967296 := by
  have isCost : Market.cost maker qty = qty * maker.price % 4294967296 := by
    show toU32 ((qty : Int) * (maker.price : Int)) = _
    unfold toU32
    exact_mod_cast Int.toNat_natCast (qty * maker.price % 4294967296)
  rw [isCost]
  constructor
  · intro same
    by_contra large
    have wrapped : qty * maker.price % 4294967296 < 4294967296 := Nat.mod_lt _ (by decide)
    have back := Nat.div_mul_le_self (qty * maker.price % 4294967296) qty
    rw [same,Nat.mul_comm] at back
    omega
  · intro small
    rw [Nat.mod_eq_of_lt small,Nat.mul_div_cancel_left _ positive]

namespace Matching
open Ladder
variable {inc m : SimpleOrder} {makers : List SimpleOrder} {q : Nat}

/-- Among makers without conditions, what is taken of one is what the better ones leave open of the need. -/
theorem mem_allot (makers : List SimpleOrder) : ∀ need, BestFirst inc makers → (∀ m ∈ makers, m.allOrNone = false) →
    ((m,some q) ∈ allot inc need makers ↔ ∃ before later, makers = before ++ m :: later ∧ crosses m inc ∧ openTotal before < need ∧
      q = min (need - openTotal before) m.openQty) := by
  induction makers with
  | nil =>
    intro need _ _
    simp [allot]
  | cons maker rest ih =>
    intro need sorted regular
    obtain ⟨before,sorted'⟩ := List.pairwise_cons.mp sorted
    obtain ⟨notAon,regular'⟩ := List.forall_mem_cons.mp regular
    have here : (∃ B L, maker :: rest = B ++ m :: L ∧ crosses m inc ∧ openTotal B < need ∧ q = min (need - openTotal B) m.openQty) ↔
        (maker = m ∧ crosses m inc ∧ 0 < need ∧ q = min need m.openQty) ∨
          ∃ B L, rest = B ++ m :: L ∧ crosses m inc ∧ maker.openQty + openTotal B < need ∧
            q = min (need - (maker.openQty + openTotal B)) m.openQty := by
      constructor
      · rintro ⟨B,L,split,crossed,needs,isQty⟩
        cases B with
        | nil =>
          obtain ⟨rfl,_⟩ := List.cons_eq_cons.mp split
          exact .inl ⟨rfl,crossed,by simpa using needs,by simpa using isQty⟩
        | cons x B =>
          obtain ⟨rfl,split'⟩ := List.cons_eq_cons.mp split
          exact .inr ⟨B,L,split',crossed,by simpa using needs,by simpa using isQty⟩
      · rintro (⟨rfl,crossed,needs,isQty⟩ | ⟨B,L,rfl,crossed,needs,isQty⟩)
        · exact ⟨[],rest,rfl,crossed,by simpa using needs,by simpa using isQty⟩
        · exact ⟨maker :: B,L,rfl,crossed,by simpa using needs,by simpa using isQty⟩
    rw [here]
    unfold allot
    split_ifs with stop skipped
    · constructor
      · intro member
        obtain ⟨o,_,same⟩ := List.mem_map.mp member
        simp at same
      · rintro (⟨rfl,crossed,needs,_⟩ | ⟨B,L,rfl,crossed,needs,_⟩)
        · cases stop with
          | inl done => omega
          | inr apart => simp [crossed] at apart
        · cases stop with
          | inl done => omega
          | inr apart => simp [before m (by simp) crossed] at apart
    · simp [notAon] at skipped
    · have needs : need ≠ 0 := fun done => stop (.inl done)
      have crossed : crosses maker inc := by simpa using fun apart => stop (.inr apart)
      rw [List.mem_cons,ih _ sorted' regular']
      refine or_congr ?_ (exists_congr fun B => exists_congr fun L => ?_)
      · constructor
        · intro same
          obtain ⟨rfl,isQty⟩ := Prod.mk.inj same
          exact ⟨rfl,crossed,by omega,Option.some.inj isQty⟩
        · rintro ⟨rfl,_,_,rfl⟩
          rfl
      · refine and_congr_right fun _ => and_congr_right fun _ => ?_
        omega

/-- No fill of an order that comes to some makers, best first, costs more than 32 bits hold. -/
def CostsFit (inc : SimpleOrder) (makers : List SimpleOrder) : Prop := ∀ before maker later, makers = before ++ maker :: later →
  crosses maker inc → min (inc.openQty - openTotal before) maker.openQty * maker.price < 4294967296

end Matching

namespace Book
variable {b : Book} {o : SimpleOrder} {t : Trade}

/-- What an incoming order trades is what is allotted to it. -/
theorem Incoming.pairs (incoming : Incoming b o) (plain : Plain b) :
    (b.tradesOf o).map (fun t => (t.maker,t.qty)) = (Matching.allot o o.openQty (b.side o.opposite)).filterMap Matching.taken := by
  obtain ⟨_,opened,_,regular,_⟩ := incoming.fields
  unfold Book.tradesOf
  split_ifs with empty
  · rw [opened,empty,Matching.allot_done,List.filterMap_map]
    symm
    rw [List.map_nil,List.filterMap_eq_nil_iff]
    exact fun _ _ => rfl
  · have takesIs : Matching.takes o (b.side o.opposite) = Matching.allot o o.openQty (b.side o.opposite) := by
      simp [Matching.takes,regular]
    rw [← takesIs]
    exact (incoming.orderly plain empty).pass_trades

/-- The costs of the trades of an incoming order are in range when its makers fit. -/
theorem Incoming.costsFit (incoming : Incoming b o) (plain : Plain b) : (∀ t ∈ b.tradesOf o, t.qty * t.maker.price < 4294967296) ↔
    Matching.CostsFit o (b.side o.opposite) := by
  have sorted : Matching.BestFirst o (b.side o.opposite) := Book.bestFirst (plain.orderly.sorted _)
  have regular : ∀ m ∈ b.side o.opposite, m.allOrNone = false := fun m member => (plain.each _ m member).regular.1
  have taken : ∀ m q, (m,q) ∈ (b.tradesOf o).map (fun t => (t.maker,t.qty)) ↔ ∃ before later, b.side o.opposite = before ++ m :: later ∧
      crosses m o ∧ Ladder.openTotal before < o.openQty ∧ q = min (o.openQty - Ladder.openTotal before) m.openQty := by
    intro m q
    rw [incoming.pairs plain,Matching.mem_taken,Matching.mem_allot _ _ sorted regular]
  constructor
  · intro fit before maker later split crossed
    by_cases needs : Ladder.openTotal before < o.openQty
    · obtain ⟨t,member,same⟩ := List.mem_map.mp ((taken _ _).mpr ⟨before,later,split,crossed,needs,rfl⟩)
      obtain ⟨rfl,isQty⟩ := Prod.mk.inj same
      rw [← isQty]
      exact fit t member
    · rw [Nat.sub_eq_zero_of_le (by omega),Nat.zero_min,Nat.zero_mul]
      decide
  · intro fit t member
    obtain ⟨before,later,split,crossed,_,isQty⟩ := (taken t.maker t.qty).mp (List.mem_map.mpr ⟨t,member,rfl⟩)
    rw [isQty]
    exact fit before t.maker later split crossed

/-- The trades of an incoming order have different makers. -/
theorem Incoming.makers_nodup (incoming : Incoming b o) (plain : Plain b) : ((b.tradesOf o).map fun t => t.maker.orderId).Nodup := by
  have makers := congrArg (List.map fun x : SimpleOrder × Nat => x.1.orderId) (incoming.pairs plain)
  rw [List.map_map] at makers
  rw [show (b.tradesOf o).map (fun t => t.maker.orderId) = _ from makers]
  have inOrder := (Matching.taken_sublist (Matching.allot o o.openQty (b.side o.opposite))).map SimpleOrder.orderId
  rw [Matching.allot_makers,List.map_map] at inOrder
  exact (plain.orderly.nodup o.opposite).sublist inOrder

/-- The book that the order of a message comes to, and the order. -/
def brings (b : Book) : Message → Option (Book × SimpleOrder)
  | .newOrder o => some (b,o.order)
  | .cancel _ => none
  | .modify m => if b.findResting m.orderId.toNat = none then none else some (b.cancel m.orderId.toNat,m.order)

/-- The trade reports of an answer are those of the order that the message brings. -/
theorem answer_trades (b : Book) (m : Message) : (b.answer m).2.filter (·.type = .trade) = match b.brings m with
    | none => []
    | some (b',o) => (b'.tradesOf o).map (Trade.report m.sequenceNumber) := by
  have all : ∀ (seq : Nat) (ts : List Trade), (ts.map (Trade.report seq)).filter (·.type = .trade) = ts.map (Trade.report seq) := by
    intro seq ts
    apply List.filter_eq_self.mpr
    intro r member
    obtain ⟨t,_,rfl⟩ := List.mem_map.mp member
    rfl
  cases m with
  | newOrder o =>
    have ack : (Report.ack .orderAck o.sequenceNumber.toNat o.orderId.toNat o.side.toNat o.priceTicks.toInt o.quantity.toNat).type ≠ .trade := by
      simp [Report.ack,Report.ofType]
    simp only [answer,answerNewOrder,brings,List.cons_append]
    rw [List.filter_cons_of_neg (by simpa using ack),List.filter_append,all]
    split_ifs <;> simp [Report.ack,Report.ofType,Message.sequenceNumber]
  | cancel c =>
    simp only [answer,answerCancel,brings]
    split <;> simp [Report.ack,Report.ofType]
  | modify m =>
    simp only [answer,answerModify,brings]
    cases b.findResting m.orderId.toNat with
    | none => simp [Report.ack,Report.ofType]
    | some o =>
      simp only [List.filter_append,all]
      simp [Report.ack,Report.ofType,Message.sequenceNumber]

theorem Plain.brings {m : Message} {b' : Book} (plain : Plain b) (inRange : m.InRange) (admitted : b.Admits m)
    (isBrought : b.brings m = some (b',o)) :
    Plain b' ∧ Incoming b' o ∧ ∀ t, b'.side t = (b.side t).filter fun x => x.orderId ≠ m.orderId := by
  cases m with
  | newOrder n =>
    obtain ⟨rfl,rfl⟩ := Prod.mk.inj (Option.some.inj isBrought)
    refine ⟨plain,plain.newOrder inRange admitted,?_⟩
    intro t
    symm
    rw [List.filter_eq_self]
    intro x member
    have absent := plain.absent admitted t
    exact decide_eq_true fun same => absent (List.mem_map.mpr ⟨x,member,same⟩)
  | cancel c => simp [Book.brings] at isBrought
  | modify n =>
    cases found : b.findResting n.orderId.toNat with
    | none => simp [Book.brings,found] at isBrought
    | some x =>
      simp only [Book.brings,found,reduceCtorEq,↓reduceIte] at isBrought
      obtain ⟨rfl,rfl⟩ := Prod.mk.inj (Option.some.inj isBrought)
      obtain ⟨t,_,member,isId⟩ := findResting_some found
      obtain ⟨cancelIs,plain'⟩ := plain.cancel member
      rw [isId] at cancelIs plain'
      refine ⟨plain',plain.modified inRange member isId,?_⟩
      intro t'
      rw [cancelIs]
      show (b.eraseFrom t n.orderId.toNat).side t' = _
      rw [side_eraseFrom]
      split_ifs with same
      · rw [same]
        rfl
      · symm
        rw [List.filter_eq_self]
        intro y inSide
        exact decide_eq_true fun isY => same (plain.orderly.apart inSide member (isY.trans isId.symm))

end Book

namespace BabobookAdapter
variable {N : Capacity} {a a' : BabobookAdapter N} {b : Book} {d : Desk} {m : Message} {h : Pools N} {ms : List Message}
open MatchingBook

/-- The order that a message brings: a modify brings one if the order that it names rests. -/
def brings (a : BabobookAdapter N) : Message → Option SimpleOrder
  | .newOrder o => some o.order
  | .cancel _ => none
  | .modify m => if a.findResting m.orderId.toNat = some none then none else some m.order

/-- No fill of the order that a message brings costs more than 32 bits hold. A modified order is not among its own makers. -/
def CostsFit (a : BabobookAdapter N) (m : Message) : Prop := ∀ o, a.brings m = some o →
  ∀ os, (a.book.on o.opposite).snapshot = some os → Matching.CostsFit o (os.filter fun x => x.orderId ≠ m.orderId)

/-- A report has the price at which its maker rests, and a quantity that its maker has. -/
def AtMakersPrice (a : BabobookAdapter N) (r : Report) : Prop := ∃ t os maker, (t = .bids ∨ t = .asks) ∧ (a.book.on t).snapshot = some os ∧
  maker ∈ os ∧ maker.orderId = r.makerOrderId ∧ r.priceTicks = maker.price ∧ 0 < r.quantity ∧ r.quantity ≤ maker.openQty

/-- The trade reports that a message adds, each of another maker, are at the prices of their makers. -/
def TradesAtMakersPrices (a a' : BabobookAdapter N) : Prop := ∃ new, a'.reports = a.reports ++ new ∧
  ((new.filter (·.type = .trade)).map (·.makerOrderId)).Nodup ∧ ∀ r ∈ new, r.type = .trade → a.AtMakersPrice r

theorem brings_eq (rep : Represents True a.book b) (plain : b.Plain) (m : Message) : a.brings m = (b.brings m).map Prod.snd := by
  cases m with
  | newOrder | cancel => rfl
  | modify m =>
    obtain ⟨r,found,isFound⟩ := findResting_eq rep plain m.orderId.toNat
    cases resting : b.findResting m.orderId.toNat with
    | none =>
      obtain rfl : r = none := by simpa [resting] using isFound
      simp [brings,Book.brings,found,resting]
    | some o =>
      obtain ⟨x,rfl⟩ : ∃ x, r = some x := by
        cases r with
        | none => simp [resting] at isFound
        | some x => exact ⟨x,rfl⟩
      simp [brings,Book.brings,found,resting]

theorem costsFit_iff (rep : Represents True a.book b) (plain : b.Plain) (inRange : m.InRange) (admitted : b.Admits m) :
    a.CostsFit m ↔ ∀ b' o, b.brings m = some (b',o) → Matching.CostsFit o (b'.side o.opposite) := by
  unfold CostsFit
  rw [brings_eq rep plain]
  constructor
  · intro fit b' o isBrought
    rw [(plain.brings inRange admitted isBrought).2.2]
    exact fit o (by rw [isBrought]; rfl) _ (rep.snapshot _)
  · intro fit o isO os isSide
    obtain rfl : b.side o.opposite = os := Option.some.inj ((rep.snapshot _).symm.trans isSide)
    obtain ⟨⟨b',x⟩,isBrought,rfl⟩ := Option.map_eq_some_iff.mp isO
    rw [← (plain.brings inRange admitted isBrought).2.2]
    exact fit b' x isBrought

theorem atMakersPrice_iff (rep : Represents True a.book b) {r : Report} : a.AtMakersPrice r ↔ ∃ t maker, (t = .bids ∨ t = .asks) ∧
    maker ∈ b.side t ∧ maker.orderId = r.makerOrderId ∧ r.priceTicks = maker.price ∧ 0 < r.quantity ∧ r.quantity ≤ maker.openQty := by
  constructor
  · rintro ⟨t,os,maker,resting,isSide,facts⟩
    obtain rfl : b.side t = os := Option.some.inj ((rep.snapshot t).symm.trans isSide)
    exact ⟨t,maker,resting,facts⟩
  · rintro ⟨t,maker,resting,facts⟩
    exact ⟨t,_,maker,resting,rep.snapshot t,facts⟩

/-- The trade reports of one message. -/
theorem trades_iff (follows : Follows a d) (plain : d.book.Plain) (ok : d.Ok m) (follows' : Follows a' (d.step m)) :
    TradesAtMakersPrices a a' ↔ a.CostsFit m := by
  have reports : a'.reports = a.reports ++ (d.book.answer m).2 := by
    rw [follows'.reports,follows.reports]
    rfl
  have trades := d.book.answer_trades m
  have inTrades : ∀ r ∈ (d.book.answer m).2, r.type = .trade → r ∈ (d.book.answer m).2.filter (·.type = .trade) :=
    fun r member isTrade => List.mem_filter.mpr ⟨member,by simpa using isTrade⟩
  rw [costsFit_iff follows.book plain ok.1 ok.2]
  cases isBrought : d.book.brings m with
  | none =>
    rw [isBrought] at trades
    refine ⟨fun _ b' o no => by simp at no,fun _ => ⟨_,reports,by rw [trades]; exact List.nodup_nil,?_⟩⟩
    intro r member isTrade
    have inNone := inTrades r member isTrade
    rw [trades] at inNone
    exact absurd inNone List.not_mem_nil
  | some brought =>
    obtain ⟨b',o⟩ := brought
    rw [isBrought] at trades
    obtain ⟨plain',incoming,sides⟩ := plain.brings ok.1 ok.2 isBrought
    have resting := fun t member => List.mem_of_mem_filter (sides o.opposite ▸ (incoming.tradesOf plain' (t := t) member).1)
    constructor
    · rintro ⟨new,isNew,_,each⟩ b₁ o₁ same
      obtain ⟨rfl,rfl⟩ := Prod.mk.inj (Option.some.inj same)
      obtain rfl : (d.book.answer m).2 = new := List.append_cancel_left (reports.symm.trans isNew)
      apply (incoming.costsFit plain').mp
      intro t member
      have inFilter : t.report m.sequenceNumber ∈ (d.book.answer m).2.filter (·.type = .trade) := by
        rw [trades]
        exact List.mem_map_of_mem member
      obtain ⟨t',maker,_,inSide,isId,price,_⟩ := (atMakersPrice_iff follows.book).mp
        (each _ (List.mem_of_mem_filter inFilter) rfl)
      obtain ⟨_,rfl⟩ := plain.orderly.one_place inSide (resting t member) isId
      exact (cost_div _ (incoming.tradesOf plain' member).2.1).mp (Int.ofNat_inj.mp price)
    · intro fit
      refine ⟨_,reports,?_,?_⟩
      · rw [trades,List.map_map]
        exact incoming.makers_nodup plain'
      · intro r member isTrade
        have inMap := inTrades r member isTrade
        rw [trades] at inMap
        obtain ⟨t,inTradesOf,rfl⟩ := List.mem_map.mp inMap
        obtain ⟨_,positive,enough,_⟩ := incoming.tradesOf plain' inTradesOf
        have small := (incoming.costsFit plain').mpr (fit b' o rfl) t inTradesOf
        exact (atMakersPrice_iff follows.book).mpr ⟨_,t.maker,o.opposite_cases,resting t inTradesOf,rfl,
          congrArg Int.ofNat ((cost_div _ positive).mpr small),positive,enough⟩

/-- In a run of the adapter every trade report has the price of its maker, and a quantity that the maker has,
    if and only if no fill costs more than 32 bits hold. -/
theorem trade_prices_exact (h : Pools N) (admissible : Admissible h ms) : ∃ a, after h ms = some a ∧
    ((∀ before m later, ms = before ++ m :: later → ∀ a a', after h before = some a → a.step m = some a' → TradesAtMakersPrices a a') ↔
      ∀ before m later, ms = before ++ m :: later → ∀ a, after h before = some a → a.CostsFit m) := by
  have each : ∀ before m later, ms = before ++ m :: later → ∃ a a', after h before = some a ∧ a.step m = some a' ∧
      (TradesAtMakersPrices a a' ↔ a.CostsFit m) := by
    rintro before m later rfl
    have front : Admissible h ((before ++ [m]) ++ later) := by simpa using admissible
    obtain ⟨a,a',ran,stepped,follows,plain,ok,follows'⟩ := run_step_follows front.front
    exact ⟨a,a',ran,stepped,trades_iff follows plain ok follows'⟩
  obtain ⟨a,ran,_⟩ := run_follows h admissible.admitted
  refine ⟨a,ran,?_,?_⟩
  · intro right before m later split a₁ ran₁
    obtain ⟨a₂,a₃,ran₂,stepped,same⟩ := each before m later split
    obtain rfl : a₂ = a₁ := Option.some.inj (ran₂.symm.trans ran₁)
    exact same.mp (right before m later split a₂ a₃ ran₂ stepped)
  · intro fit before m later split a₁ a₁' ran₁ stepped₁
    obtain ⟨a₂,a₃,ran₂,stepped,same⟩ := each before m later split
    obtain rfl : a₂ = a₁ := Option.some.inj (ran₂.symm.trans ran₁)
    obtain rfl : a₃ = a₁' := Option.some.inj (stepped.symm.trans stepped₁)
    exact same.mpr (fit before m later split a₂ ran₂)

/-- A sell, a buy that fills half of it, and a modify of the rest that makes it a buy. -/
theorem trade_prices_exact_half : ∃ a : BabobookAdapter ⟨1,by decide,by decide⟩, after .empty [.newOrder ⟨1,1,100,10,1,0⟩,
      .newOrder ⟨2,2,101,5,0,1⟩,.modify ⟨1,3,99,7,0⟩] = some a ∧
    ((∀ before m later, [.newOrder ⟨1,1,100,10,1,0⟩,.newOrder ⟨2,2,101,5,0,1⟩,.modify ⟨1,3,99,7,0⟩] = before ++ m :: later →
        ∀ a a' : BabobookAdapter ⟨1,by decide,by decide⟩, after .empty before = some a → a.step m = some a' → TradesAtMakersPrices a a') ↔
      ∀ before m later, [.newOrder ⟨1,1,100,10,1,0⟩,.newOrder ⟨2,2,101,5,0,1⟩,.modify ⟨1,3,99,7,0⟩] = before ++ m :: later →
        ∀ a : BabobookAdapter ⟨1,by decide,by decide⟩, after .empty before = some a → a.CostsFit m) :=
  trade_prices_exact .empty (admissible_iff.mpr (by decide))

/-- A fill of 65536 at 65536 costs nothing in 32 bits, and is reported at the price zero. -/
theorem trade_prices_wrap : ∃ a a' : BabobookAdapter ⟨1,by decide,by decide⟩, after .empty [.newOrder ⟨1,1,65536,65536,1,0⟩] = some a ∧
    a.step (.newOrder ⟨2,2,65536,65536,0,0⟩) = some a' ∧ (a.book.on .asks).snapshot = some [.new false 65536 65536 0 0 1] ∧
    a'.reports = a.reports ++ [.ack .orderAck 2 2 0 65536 65536,⟨.trade,0,2,0,0,65536,1,2⟩] ∧ ¬ TradesAtMakersPrices a a' := by
  have admissible : Admissible (N := ⟨1,by decide,by decide⟩) .empty ([.newOrder ⟨1,1,65536,65536,1,0⟩] ++ [.newOrder ⟨2,2,65536,65536,0,0⟩]) :=
    admissible_iff.mpr (by decide)
  obtain ⟨a,a',ran,stepped,follows,plain,ok,follows'⟩ := run_step_follows admissible
  refine ⟨a,a',ran,stepped,follows.book.snapshot .asks,?_,?_⟩
  · rw [follows'.reports,follows.reports]
    decide
  · rw [trades_iff follows plain ok follows',costsFit_iff follows.book plain ok.1 ok.2]
    intro fit
    have small := fit _ _ rfl [] (.new false 65536 65536 0 0 1) [] rfl (by decide)
    exact absurd small (by decide)

end BabobookAdapter

end BaboEngine
