import BaboEngine.BookRefinement
import BaboEngine.Submissions

/-!
# Conservation of quantity

What an order has been filled is the sum of the fills that name it, and an order goes
only when it is filled or cancelled, when a replace leaves nothing of it, or when its
remainder may not rest.
-/

namespace BaboEngine
open Simulation

/-- What an event fills of the order with an id. -/
def OrderEvent.fills (id : Nat) : OrderEvent → Nat
  | .onFill orderId matchedOrderId fillQty _ => (if orderId = id then fillQty else 0) + if matchedOrderId = id then fillQty else 0
  | _ => 0

/-- The sum of the fills that name an id. -/
def Market.filled (k : Market) (id : Nat) : Nat := (k.events.map (OrderEvent.fills id)).sum

/-- An order that is open for what the fills have left of its quantity. -/
structure Accounted (k : Market) (o : SimpleOrder) : Prop where
  filled : o.filledQty = k.filled o.orderId
  left : o.openQty = o.orderQty - o.filledQty
  opened : 0 < o.openQty

theorem Accounted.of_filled {k k' : Market} {o : SimpleOrder} (accounted : Accounted k o)
    (same : k'.filled o.orderId = k.filled o.orderId) :
    Accounted k' o := ⟨accounted.filled.trans same.symm,accounted.left,accounted.opened⟩

/-- A trade of something that both parties have, between a buy and a sell. -/
structure Balanced (t : Trade) : Prop where
  positive : 1 ≤ t.qty
  taker : t.qty ≤ t.taker.openQty
  maker : t.qty ≤ t.maker.openQty
  sides : t.taker.isBuy ≠ t.maker.isBuy

namespace Book
variable {b b' : Book} {o x : SimpleOrder} {t : TreeName} {hand : List SimpleOrder} {c : Command} {k : Market} {id : Nat}

/-- A replace of a resting order leaves its quantity in range. -/
def SizesFit (b : Book) : Command → Prop
  | .replace orderId sizeDelta _ => ∀ o ∈ b.side .bids ++ b.side .asks, o.orderId = orderId.toNat →
      0 ≤ (o.orderQty : Int) + sizeDelta.toInt ∧ (o.orderQty : Int) + sizeDelta.toInt < 4294967296
  | _ => True

instance : (b : Book) → (c : Command) → Decidable (b.SizesFit c)
  | b, .replace orderId sizeDelta _ => inferInstanceAs (Decidable (∀ o ∈ b.side .bids ++ b.side .asks, o.orderId = orderId.toNat →
      0 ≤ (o.orderQty : Int) + sizeDelta.toInt ∧ (o.orderQty : Int) + sizeDelta.toInt < 4294967296))
  | _, .add _ _ _ _ _ _ => .isTrue trivial
  | _, .cancel _ => .isTrue trivial
  | _, .setMarketPrice _ => .isTrue trivial

theorem SizesFit.resting {orderId : UInt32} {sizeDelta : Int32} {newPrice : UInt64}
    (fits : b.SizesFit (.replace orderId sizeDelta newPrice))
    (resting : t = .bids ∨ t = .asks) (member : o ∈ b.side t) (isId : o.orderId = orderId.toNat) :
    0 ≤ (o.orderQty : Int) + sizeDelta.toInt ∧ (o.orderQty : Int) + sizeDelta.toInt < 4294967296 := by
  refine fits o ?_ isId
  rcases resting with rfl | rfl <;> simp [member]

/-! ## The fills of a submission -/

theorem filled_submit (sized : o.Sized) (id : Nat) : (b.submit o).market.filled id = b.market.filled id +
    ((if o.orderId = id then Matching.total (Matching.takes o (b.side o.opposite)) else 0) +
      Matching.takenFrom (Matching.takes o (b.side o.opposite)) id) := by
  have both : ∀ ts : List Trade, ((ts.map Trade.event).map (OrderEvent.fills id)).sum =
      (ts.map fun t => if t.taker.orderId = id then t.qty else 0).sum + (ts.map fun t => if t.maker.orderId = id then t.qty else 0).sum := by
    intro ts
    induction ts with
    | nil => rfl
    | cons t ts ih =>
      simp only [List.map_cons,List.sum_cons,ih]
      show (if t.taker.orderId = id then t.qty else 0) + (if t.maker.orderId = id then t.qty else 0) + _ = _
      omega
  unfold Market.filled
  rw [events_submit,List.map_append,List.sum_append,both,pass_eq sized,Matching.commit_filled_taker,Matching.commit_filled_maker]

theorem filled_emit {e : OrderEvent} (notFill : e.isFill = false) (id : Nat) : (b.emit e).market.filled id = b.market.filled id := by
  have nothing : e.fills id = 0 := by cases e <;> first | rfl | simp [OrderEvent.isFill] at notFill
  show ((b.market.events ++ [e]).map (OrderEvent.fills id)).sum = _
  rw [List.map_append,List.sum_append,List.map_singleton,List.sum_singleton,nothing]
  rfl

theorem takes_ids (o : SimpleOrder) (os : List SimpleOrder) : (Matching.takes o os).map (fun m => m.1.orderId) = ids os := by
  rw [ids,← congrArg (List.map (·.orderId)) (Matching.takes_makers o os),List.map_map]
  rfl

theorem mem_takes {m : SimpleOrder × Option Nat} (member : m ∈ Matching.takes o (b.side t)) : m.1 ∈ b.side t := by
  rw [← Matching.takes_makers o (b.side t)]
  exact List.mem_map_of_mem member

theorem Orderly.filled_taker (orderly : Orderly b (o :: hand)) : (b.submit o).market.filled o.orderId =
    b.market.filled o.orderId + Matching.total (Matching.takes o (b.side o.opposite)) := by
  have none : Matching.takenFrom (Matching.takes o (b.side o.opposite)) o.orderId = 0 :=
    Matching.takenFrom_absent fun m member => orderly.absent m.1 (mem_takes member)
  rw [filled_submit orderly.handSized,if_pos rfl,none,Nat.add_zero]

theorem Orderly.filled_maker (orderly : Orderly b (o :: hand)) {m : SimpleOrder × Option Nat}
    (member : m ∈ Matching.takes o (b.side o.opposite)) : (b.submit o).market.filled m.1.orderId =
      b.market.filled m.1.orderId + m.2.getD 0 := by
  have other : o.orderId ≠ m.1.orderId := (orderly.absent m.1 (mem_takes member)).symm
  have nodup : ((Matching.takes o (b.side o.opposite)).map fun m => m.1.orderId).Nodup := by
    rw [takes_ids]
    exact orderly.nodup _
  rw [filled_submit orderly.handSized,if_neg other,Matching.takenFrom_mem nodup member,Nat.zero_add]

theorem filled_others (sized : o.Sized) (notTaker : o.orderId ≠ id) (notMaker : ∀ m ∈ b.side o.opposite, m.orderId ≠ id) :
    (b.submit o).market.filled id = b.market.filled id := by
  have none : Matching.takenFrom (Matching.takes o (b.side o.opposite)) id = 0 :=
    Matching.takenFrom_absent fun m member => notMaker m.1 (mem_takes member)
  rw [filled_submit sized,if_neg notTaker,none,Nat.add_zero]

/-! ## Accounts -/

/-- Every order is accounted for, and ids that have not come in have no fills. -/
structure Accounts (b : Book) (hand : List SimpleOrder) : Prop where
  orders : Everywhere (Accounted b.market) b hand
  unseen : ∀ id ∉ b.market.seen, b.market.filled id = 0

theorem Everywhere.journal (orders : Everywhere (Accounted b.market) b hand) (same : ∀ id, k.filled id = b.market.filled id) :
    Everywhere (Accounted k) { b with market := k } hand :=
  ⟨fun t x member => (orders.1 t x member).of_filled (same _),fun x member => (orders.2 x member).of_filled (same _)⟩

theorem Orderly.unseen_absent (orderly : Orderly b hand) (unseen : id ∉ b.market.seen) :
    (∀ t, ∀ x ∈ b.side t, x.orderId ≠ id) ∧ ∀ x ∈ hand, x.orderId ≠ id := by
  have none := orderly.occurs id
  rw [if_neg unseen] at none
  constructor
  · rintro t x member rfl
    have := List.count_pos_iff.mpr (mem_ids member)
    have := b.count_le_occurs t x.orderId
    omega
  · rintro x member rfl
    have := List.count_pos_iff.mpr (mem_ids member)
    omega

/-- The others in hand are neither on a side nor the first one. -/
theorem Orderly.hand_apart (orderly : Orderly b (o :: hand)) (member : x ∈ hand) :
    o.orderId ≠ x.orderId ∧ ∀ t, ∀ y ∈ b.side t, y.orderId ≠ x.orderId := by
  have bound := orderly.occurs_le x.orderId
  have inHand := List.count_pos_iff.mpr (mem_ids member)
  rw [ids_cons,List.count_cons] at bound
  constructor
  · intro same
    rw [same] at bound
    simp only [beq_self_eq_true,↓reduceIte] at bound
    omega
  · intro t y inSide same
    have := List.count_pos_iff.mpr (mem_ids inSide)
    have := b.count_le_occurs t y.orderId
    rw [same] at *
    omega

/-- A maker that a trade leaves open. -/
theorem Orderly.accounted_maker (orderly : Orderly b (o :: hand)) (accounts : Accounts b (o :: hand)) {m : SimpleOrder} {q : Nat}
    (taken : (m,some q) ∈ Matching.takes o (b.side o.opposite)) :
    q ≤ m.openQty ∧ (m.fill q (Market.cost m q)).filledQty = (b.submit o).market.filled m.orderId ∧
      (m.fill q (Market.cost m q)).openQty = (m.fill q (Market.cost m q)).orderQty - (m.fill q (Market.cost m q)).filledQty := by
  have inSide : m ∈ b.side o.opposite := mem_takes taken
  have sized := orderly.sized.1 _ m inSide
  have allotted : (m,some q) ∈ Matching.allot o o.openQty (b.side o.opposite) := by
    rw [← Matching.takes_eq taken (by simp)]
    exact taken
  have enough := (Matching.allot_taken _ _ allotted rfl).2.1
  refine ⟨enough,?_,(sized.fill _ _).openQty⟩
  rw [sized.filledQty_fill enough,orderly.filled_maker taken,(accounts.orders.1 _ m inSide).filled]
  rfl

/-- What is left of the submitted order. -/
theorem Orderly.accounted_taker (orderly : Orderly b (o :: hand)) (accounts : Accounts b (o :: hand)) :
    (b.pass o).inc.filledQty = (b.submit o).market.filled o.orderId ∧
      (b.pass o).inc.openQty = (b.pass o).inc.orderQty - (b.pass o).inc.filledQty := by
  have sized := orderly.handSized
  have filled : (b.pass o).inc.filledQty = o.filledQty + Matching.total (Matching.takes o (b.side o.opposite)) := by
    rw [Book.pass_eq sized]
    exact Matching.commit_filled _ sized (Matching.total_takes_le o _)
  refine ⟨?_,(pass_inc sized).2.1.openQty⟩
  rw [filled,orderly.filled_taker,(accounts.orders.2 o (by simp)).filled]

theorem Accounts.submit (accounts : Accounts b (o :: hand)) (orderly : Orderly b (o :: hand)) : Accounts (b.submit o) hand := by
  refine ⟨⟨?_,?_⟩,?_⟩
  · intro t x member
    by_cases isOpposite : t = o.opposite
    · subst isOpposite
      rw [submit_opposite orderly.handSized,pass_eq orderly.handSized,Matching.commit_makers,List.mem_flatMap] at member
      obtain ⟨⟨m,taken⟩,inTakes,isLeft⟩ := member
      cases taken with
      | none =>
        obtain rfl := List.mem_singleton.mp isLeft
        exact (accounts.orders.1 _ x (mem_takes inTakes)).of_filled (orderly.filled_maker inTakes)
      | some q =>
        obtain ⟨_,filled,left⟩ := orderly.accounted_maker accounts inTakes
        rw [Matching.left_some,Matching.kept] at isLeft
        split_ifs at isLeft with closed
        · simp at isLeft
        · obtain rfl := List.mem_singleton.mp isLeft
          exact ⟨filled.trans (by rw [m.fill_orderId]),left,Nat.pos_of_ne_zero closed⟩
    · rcases mem_submit orderly.handSized member with old | ⟨same,_⟩ | ⟨_,rfl,rests⟩
      · refine (accounts.orders.1 t x old).of_filled (filled_others orderly.handSized (orderly.absent x old).symm ?_)
        intro m inOpposite same
        exact isOpposite (orderly.apart old inOpposite same.symm)
      · exact absurd same isOpposite
      · obtain ⟨filled,left⟩ := orderly.accounted_taker accounts
        have isId : (b.pass o).inc.orderId = o.orderId := (pass_inc orderly.handSized).1.orderId
        exact ⟨filled.trans (by rw [isId]),left,rests.2.2⟩
  · intro x member
    obtain ⟨other,apart⟩ := orderly.hand_apart member
    exact (accounts.orders.2 x (by simp [member])).of_filled (filled_others orderly.handSized other (apart _))
  · intro id unseen
    rw [seen_submit] at unseen
    obtain ⟨onSides,inHand⟩ := orderly.unseen_absent unseen
    rw [filled_others orderly.handSized (inHand o (by simp)) (onSides _)]
    exact accounts.unseen id unseen

/-- An order keeps its account when its size changes within the range and it does not collapse. -/
theorem Accounts.resized {sizeDelta : Int32} (accounts : Accounts b []) (orderly : Orderly b []) (member : o ∈ b.side t)
    (fits : 0 ≤ (o.orderQty : Int) + sizeDelta.toInt ∧ (o.orderQty : Int) + sizeDelta.toInt < 4294967296)
    (stays : ¬ Collapses o sizeDelta.toInt) :
    Accounts (b.edit t o.orderId fun o => o.modify sizeDelta.toInt priceUnchanged) [] := by
  refine ⟨⟨?_,by simp⟩,accounts.unseen⟩
  intro t' x inSide
  rcases mem_edit inSide with old | ⟨rfl,m,old,isO,rfl⟩
  · exact accounts.orders.1 t' x old
  · obtain rfl : m = o := List.inj_on_of_nodup_map (orderly.nodup t') old member isO
    obtain ⟨sameId,_,_,_,_,filledQty,_⟩ := m.modify_fields sizeDelta.toInt priceUnchanged
    obtain ⟨filled,left,opened⟩ := accounts.orders.1 t' m old
    have sized := (orderly.sized.1 t' m old).modify sizeDelta.toInt priceUnchanged
    obtain ⟨low,high⟩ := fits
    have orderQty := m.modify_orderQty priceUnchanged low high
    have bounded := sizeDelta.le_toInt
    refine ⟨by rw [filledQty,sameId]; exact filled,sized.openQty,?_⟩
    rw [sized.openQty,filledQty]
    cases Int.lt_or_le sizeDelta.toInt 0 with
    | inl reduces =>
      have less : toU32 (-sizeDelta.toInt) < m.openQty := Nat.lt_of_not_ge fun ge => stays ⟨reduces,ge⟩
      unfold toU32 at less
      omega
    | inr grows => omega

theorem accounts_preserved : Preserved Orderly (fun b c => b.Fresh c ∧ b.SizesFit c) Accounts where
  submit b o hand orderly accounts := accounts.submit orderly
  scan b _ accounts := by
    refine ⟨⟨fun t x member => accounts.orders.1 t x ((b.sublist_scanned t).subset member),?_⟩,accounts.unseen⟩
    intro x member
    rcases mem_due member with m | m <;> exact accounts.orders.1 _ x m
  released _ _ _ accounts := ⟨accounts.orders.journal fun _ => rfl,accounts.unseen⟩
  emit b hand e notFill _ accounts := by
    have same := filled_emit (b := b) notFill
    refine ⟨accounts.orders.journal same,?_⟩
    intro id unseen
    rw [seen_emit,List.mem_append,not_or] at unseen
    exact (same id).trans (accounts.unseen id unseen.1)
  arrive b isBuy price qty stopPrice conditions orderId admitted some _ accounts := by
    have same := filled_emit (b := b) (e := .onAccept orderId.toNat) rfl
    refine ⟨⟨fun t x member => (accounts.orders.1 t x member).of_filled (same _),?_⟩,?_⟩
    · refine List.forall_mem_singleton.mpr ⟨?_,(SimpleOrder.sized_new ..).openQty,?_⟩
      · exact ((same _).trans (accounts.unseen _ admitted.1)).symm
      · rw [(SimpleOrder.sized_new ..).openQty]
        show 0 < qty.toNat - 0
        omega
    · intro id unseen
      rw [seen_emit,List.mem_append,not_or] at unseen
      exact (same id).trans (accounts.unseen id unseen.1)
  park b o _ _ _ accounts := by
    refine ⟨⟨?_,by simp⟩,accounts.unseen⟩
    intro t x member
    rcases mem_insertInto member with old | ⟨_,rfl⟩
    · exact (accounts.orders.1 t x old).of_filled rfl
    · exact (accounts.orders.2 x (by simp)).of_filled rfl
  erase b t o _ _ accounts :=
    ⟨⟨fun t' x member => accounts.orders.1 t' x ((b.sublist_eraseFrom t t' o.orderId).subset member),by simp⟩,accounts.unseen⟩
  resize _ _ _ _ _ _ resting member isId admitted _ stays orderly accounts :=
    accounts.resized orderly member (admitted.2.resting resting member isId) stays
  reprice b t o orderId sizeDelta newPrice resting member isId admitted moves opened orderly accounts := by
    obtain ⟨sameId,_,_,_,_,filledQty,_⟩ := o.modify_fields sizeDelta.toInt newPrice.toNat
    have sized := (orderly.sized.1 t o member).modify sizeDelta.toInt newPrice.toNat
    refine ⟨⟨fun t' x inSide => accounts.orders.1 t' x ((b.sublist_eraseFrom t t' o.orderId).subset inSide),?_⟩,accounts.unseen⟩
    refine List.forall_mem_singleton.mpr ⟨?_,sized.openQty,Nat.pos_of_ne_zero opened⟩
    rw [filledQty,sameId]
    exact (accounts.orders.1 t o member).filled
  observe _ _ _ accounts := ⟨accounts.orders.journal fun _ => rfl,accounts.unseen⟩

theorem Orderly.opposite_isBuy {m : SimpleOrder} (orderly : Orderly b hand) (member : m ∈ b.side o.opposite) : m.isBuy ≠ o.isBuy := by
  intro equal
  have placed := orderly.placed _ m member
  unfold SimpleOrder.opposite SimpleOrder.side SimpleOrder.stopSide at placed
  rw [equal] at placed
  cases isBuy : o.isBuy <;> simp [isBuy] at placed

/-- Every trade is balanced. -/
theorem balanced_preserved {ok : Book → Command → Prop} : Preserved (fun b hand => Orderly b hand ∧ Accounts b hand) ok
    fun b _ => ∀ t ∈ b.market.trades, Balanced t where
  submit b o hand base all t member := by
    obtain ⟨orderly,accounts⟩ := base
    rw [trades_submit] at member
    cases List.mem_append.mp member with
    | inl old => exact all t old
    | inr new =>
      have inAllot := orderly.mem_trades new
      have inSide : t.maker ∈ b.side o.opposite := by
        rw [← Matching.allot_makers o (b.side o.opposite) o.openQty]
        exact List.mem_map_of_mem (f := Prod.fst) inAllot
      obtain ⟨_,enough,_,positive⟩ := Matching.allot_taken _ _ inAllot rfl
      have taker : o.SameTerms t.taker ∧ t.qty ≤ t.taker.openQty := by
        rw [pass_eq orderly.handSized] at new
        exact Matching.commit_takers _ orderly.handSized (Matching.total_takes_le o _) t new
      refine ⟨positive (accounts.orders.1 _ _ inSide).opened,taker.2,enough,?_⟩
      rw [taker.1.isBuy]
      exact (orderly.opposite_isBuy inSide).symm
  scan _ _ all := all
  released _ _ _ all := all
  emit _ _ _ _ _ all := all
  arrive _ _ _ _ _ _ _ _ _ _ all := all
  park _ _ _ _ _ all := all
  erase _ _ _ _ _ all := all
  resize _ _ _ _ _ _ _ _ _ _ _ _ _ all := all
  reprice _ _ _ _ _ _ _ _ _ _ _ _ _ all := all
  observe _ _ _ all := all

/-! ## What becomes of an order -/

/-- A submission of the order that may not rest leaves something of it. Whether it is a market order is told by its price then: a reprice
    of which the price is cut to zero makes it one. -/
structure Dropped (s : Submission) (o : SimpleOrder) : Prop where
  order : s.order.orderId = o.orderId
  mayNotRest : s.order.immediateOrCancel ∨ s.order.price = marketOrderPrice
  left : 0 < s.remainder.openQty

/-- An order on a side or in hand. -/
def Among (b : Book) (hand : List SimpleOrder) (x : SimpleOrder) : Prop := x ∈ hand ∨ ∃ t, x ∈ b.side t

/-- An order after the submissions since the journal `k`: it is there or in hand, or filled, or its remainder has been dropped. -/
structure Tracked (k : Market) (o : SimpleOrder) (b : Book) (hand : List SimpleOrder) : Prop where
  terms : ∀ x, b.Among hand x → x.orderId = o.orderId → x.orderQty = o.orderQty
  since : ∃ S, b.market.submissions = k.submissions ++ S ∧ ((∃ x, b.Among hand x ∧ x.orderId = o.orderId) ∨
    b.market.filled o.orderId = o.orderQty ∨ ∃ s ∈ S, Dropped s o)

/-- What a submission makes of the order. -/
theorem Orderly.taker_after (orderly : Orderly b (o :: hand)) (accounts : Accounts b (o :: hand)) :
    (∃ x ∈ (b.submit o).side o.side, x.orderId = o.orderId) ∨
      (b.submit o).market.filled o.orderId = o.orderQty ∨ Dropped (b.call o) o := by
  obtain ⟨same,_,remainder⟩ := pass_inc (b := b) orderly.handSized
  by_cases rests : Rests o (b.pass o).inc
  · left
    rw [submit_side orderly.handSized,if_pos rests]
    exact ⟨_,(List.mem_orderedInsert _).mpr (.inl rfl),same.orderId⟩
  · by_cases closed : (b.pass o).inc.openQty = 0
    · obtain ⟨filled,left⟩ := orderly.accounted_taker accounts
      obtain ⟨before,opened,some⟩ := accounts.orders.2 o (by simp)
      have after := orderly.filled_taker
      have most := Matching.total_takes_le o (b.side o.opposite)
      rw [closed,same.orderQty] at left
      right; left
      omega
    · refine .inr (.inr ⟨rfl,?_,Nat.pos_of_ne_zero closed⟩)
      show o.immediateOrCancel ∨ o.price = marketOrderPrice
      by_contra mayRest
      rw [not_or] at mayRest
      exact rests ⟨mayRest.2,by rw [same.immediateOrCancel]; simpa using mayRest.1,Nat.pos_of_ne_zero closed⟩

/-- What it makes of a maker. -/
theorem Orderly.maker_after (orderly : Orderly b (o :: hand)) (accounts : Accounts b (o :: hand)) {y : SimpleOrder}
    (member : y ∈ b.side o.opposite) : (∃ x ∈ (b.submit o).side o.opposite, x.orderId = y.orderId) ∨
      (b.submit o).market.filled y.orderId = y.orderQty := by
  have inMakers := member
  rw [← Matching.takes_makers o (b.side o.opposite)] at inMakers
  obtain ⟨⟨m,taken⟩,inTakes,rfl⟩ := List.mem_map.mp inMakers
  rw [submit_opposite orderly.handSized,Book.pass_eq orderly.handSized,Matching.commit_makers]
  cases taken with
  | none =>
    exact .inl ⟨m,List.mem_flatMap.mpr ⟨_,inTakes,by simp⟩,rfl⟩
  | some q =>
    by_cases closed : (m.fill q (Market.cost m q)).openQty = 0
    · obtain ⟨enough,filled,left⟩ := orderly.accounted_maker accounts inTakes
      obtain ⟨_,opened,some⟩ := accounts.orders.1 _ m member
      have sum := (orderly.sized.1 _ m member).filledQty_fill (c := Market.cost m q) enough
      rw [closed,m.fill_orderQty] at left
      right
      simp only
      omega
    · refine .inl ⟨_,List.mem_flatMap.mpr ⟨_,inTakes,?_⟩,m.fill_orderId q (Market.cost m q)⟩
      rw [Matching.left_some,Matching.kept,if_neg closed]
      exact List.mem_singleton.mpr rfl

/-- Orders on a side that a submission does not match against stay. -/
theorem submit_stays (sized : o.Sized) (member : x ∈ b.side t) (other : t ≠ o.opposite) : x ∈ (b.submit o).side t := by
  by_cases isSide : t = o.side
  · subst isSide
    rw [submit_side sized]
    split_ifs
    · exact (List.mem_orderedInsert _).mpr (.inr member)
    · exact member
  · rwa [submit_others sized isSide other]

/-- An order after a submission has the terms of one before it. -/
theorem among_submit (orderly : Orderly b (o :: hand)) (among : (b.submit o).Among hand x) :
    ∃ y, b.Among (o :: hand) y ∧ y.orderId = x.orderId ∧ y.orderQty = x.orderQty := by
  rcases among with inHand | ⟨t,inSide⟩
  · exact ⟨x,.inl (by simp [inHand]),rfl,rfl⟩
  · rcases orderly.terms_submit inSide with ⟨m,old,same⟩ | ⟨_,rfl,_⟩
    · exact ⟨m,.inr ⟨t,old⟩,same.orderId.symm,same.orderQty.symm⟩
    · have same := (pass_inc (b := b) orderly.handSized).1
      exact ⟨o,.inl (by simp),same.orderId.symm,same.orderQty.symm⟩

theorem tracked_carried (k : Market) (y : SimpleOrder) : Carried (fun b hand => Orderly b hand ∧ Accounts b hand) (Tracked k y) where
  submit b o hand base tracked := by
    obtain ⟨orderly,accounts⟩ := base
    obtain ⟨terms,S,submissionsAre,state⟩ := tracked
    refine ⟨?_,S ++ [b.call o],by rw [submissions_submit,submissionsAre,List.append_assoc],?_⟩
    · intro x among isId
      obtain ⟨x',among',sameId,sameQty⟩ := among_submit orderly among
      rw [← sameQty]
      exact terms x' among' (sameId.trans isId)
    by_cases after : ∃ x, (b.submit o).Among hand x ∧ x.orderId = y.orderId
    · exact .inl after
    by_cases before : ∃ x, b.Among (o :: hand) x ∧ x.orderId = y.orderId
    · obtain ⟨x,among,isId⟩ := before
      have isQty := terms x among isId
      rcases among with inHand | ⟨t,inSide⟩
      · rcases List.mem_cons.mp inHand with rfl | later
        · rcases orderly.taker_after accounts with ⟨x',inSide,same⟩ | filled | dropped
          · exact absurd ⟨x',.inr ⟨_,inSide⟩,same.trans isId⟩ after
          · exact .inr (.inl (by rw [← isId,← isQty]; exact filled))
          · exact .inr (.inr ⟨_,by simp,⟨dropped.order.trans isId,dropped.mayNotRest,dropped.left⟩⟩)
        · exact absurd ⟨x,.inl later,isId⟩ after
      · by_cases isOpposite : t = o.opposite
        · subst isOpposite
          rcases orderly.maker_after accounts inSide with ⟨x',inSide',same⟩ | filled
          · exact absurd ⟨x',.inr ⟨_,inSide'⟩,same.trans isId⟩ after
          · exact .inr (.inl (by rw [← isId,← isQty]; exact filled))
        · exact absurd ⟨x,.inr ⟨t,submit_stays orderly.handSized inSide isOpposite⟩,isId⟩ after
    · rcases state with present | filled | ⟨s,inS,dropped⟩
      · exact absurd present before
      · refine .inr (.inl ?_)
        rw [filled_others orderly.handSized (fun same => before ⟨o,.inl (by simp),same⟩) fun m inSide same => before ⟨m,.inr ⟨_,inSide⟩,same⟩]
        exact filled
      · exact .inr (.inr ⟨s,by simp [inS],dropped⟩)
  scan b base tracked := by
    have back : ∀ x, b.scanned.Among (b.dueBuys ++ b.dueSells) x → b.Among [] x := by
      rintro x (inHand | ⟨t,inSide⟩)
      · rcases mem_due inHand with m | m <;> exact .inr ⟨_,m⟩
      · exact .inr ⟨t,(b.sublist_scanned t).subset inSide⟩
    obtain ⟨terms,S,submissionsAre,state⟩ := tracked
    refine ⟨fun x among => terms x (back x among),S,submissionsAre,state.imp_left ?_⟩
    rintro ⟨x,among,isId⟩
    obtain ⟨t,inSide⟩ := among.resolve_left (by simp)
    cases mem_scanned inSide with
    | inl due => exact ⟨x,.inl due,isId⟩
    | inr stays => exact ⟨x,.inr ⟨t,stays⟩,isId⟩
  released _ _ _ tracked := ⟨tracked.terms,tracked.since⟩

/-! ## One command -/

/-- The orders that a command finds or accepts, with the quantity that it gives them. -/
inductive Enters (sides : TreeName → List SimpleOrder) : Command → SimpleOrder → Prop where
  | there c t o : o ∈ sides t → (∀ orderId sizeDelta newPrice, c = .replace orderId sizeDelta newPrice → t = .bids ∨ t = .asks →
      o.orderId ≠ orderId.toNat) → Enters sides c o
  | added isBuy price qty stopPrice conditions (orderId : UInt32) : qty.toNat ≠ 0 →
      Enters sides (.add isBuy price qty stopPrice conditions orderId) (.new isBuy price qty stopPrice conditions orderId)
  | replaced (orderId : UInt32) (sizeDelta : Int32) newPrice t o : t = .bids ∨ t = .asks → o ∈ sides t → o.orderId = orderId.toNat →
      Enters sides (.replace orderId sizeDelta newPrice) (o.modify sizeDelta.toInt priceUnchanged)

/-- Why an order is gone after a command. -/
inductive Departed (k k' : Market) (c : Command) (o : SimpleOrder) : Prop where
  | filled : k'.filled o.orderId = o.orderQty → Departed k k' c o
  | cancelled orderId : c = .cancel orderId → o.orderId = orderId.toNat → k'.events = k.events ++ [.onCancel o.orderId] → Departed k k' c o
  | emptied orderId sizeDelta newPrice : c = .replace orderId sizeDelta newPrice → o.orderId = orderId.toNat → o.openQty = 0 →
      Departed k k' c o
  | dropped S s : k'.submissions = k.submissions ++ S → s ∈ S → Dropped s o → Departed k k' c o

/-- The order is still there, with its quantity. -/
def Stays (sides : TreeName → List SimpleOrder) (o : SimpleOrder) : Prop :=
  ∃ t, ∃ x ∈ sides t, x.orderId = o.orderId ∧ x.orderQty = o.orderQty

theorem Tracked.result (tracked : Tracked k o b []) : Stays b.side o ∨ Departed k b.market c o := by
  obtain ⟨terms,S,submissionsAre,⟨x,among,isId⟩ | filled | ⟨s,inS,dropped⟩⟩ := tracked
  · obtain ⟨t,inSide⟩ := among.resolve_left (by simp)
    exact .inl ⟨t,x,inSide,isId,terms x (.inr ⟨t,inSide⟩) isId⟩
  · exact .inr (.filled filled)
  · exact .inr (.dropped S s submissionsAre inS dropped)

/-- The sides and the hand hold one order with an id. -/
theorem Orderly.unique {y : SimpleOrder} (orderly : Orderly b hand) (first : b.Among hand x) (second : b.Among hand y)
    (same : x.orderId = y.orderId) : x = y := by
  have bound := orderly.occurs_le x.orderId
  have mixed : ∀ z w : SimpleOrder, z ∈ hand → ∀ t, w ∈ b.side t → z.orderId = x.orderId → w.orderId = x.orderId → False := by
    intro z w inHand t inSide isZ isW
    have one := List.count_pos_iff.mpr (mem_ids inHand)
    have two := List.count_pos_iff.mpr (mem_ids inSide)
    rw [isZ] at one
    rw [isW] at two
    have := b.count_le_occurs t x.orderId
    omega
  rcases first with inHand | ⟨t,inSide⟩ <;> rcases second with inHand' | ⟨t',inSide'⟩
  · have nodup : (ids hand).Nodup := by
      rw [List.nodup_iff_count_le_one]
      intro id
      have := orderly.occurs_le id
      omega
    exact List.inj_on_of_nodup_map nodup inHand inHand' same
  · exact (mixed x y inHand t' inSide' rfl same.symm).elim
  · exact (mixed y x inHand' t inSide same.symm rfl).elim
  · obtain rfl := orderly.apart inSide inSide' same
    exact List.inj_on_of_nodup_map (orderly.nodup t) inSide inSide' same

/-- An order with its id that is there or in hand is tracked. -/
theorem Orderly.tracked {y : SimpleOrder} (orderly : Orderly b hand) (submissions : b.market.submissions = k.submissions)
    (among : b.Among hand y) (isId : y.orderId = o.orderId) (isQty : y.orderQty = o.orderQty) : Tracked k o b hand := by
  refine ⟨?_,[],by rw [submissions,List.append_nil],.inl ⟨y,among,isId⟩⟩
  intro x among' isId'
  rw [orderly.unique among' among (isId'.trans isId.symm)]
  exact isQty

theorem Tracked.processTriggered (tracked : Tracked k o b []) (orderly : Orderly b []) (accounts : Accounts b []) :
    Tracked k o b.processTriggered [] :=
  (((orderly_preserved.toCarried.above accounts_preserved.toCarried).above (tracked_carried k o)).processTriggered
    ⟨⟨orderly,accounts⟩,tracked⟩).2

theorem Tracked.goLive {y : SimpleOrder} (tracked : Tracked k y b [o]) (orderly : Orderly b [o]) (accounts : Accounts b [o]) :
    Tracked k y (b.submit o).processTriggered [] :=
  Tracked.processTriggered ((tracked_carried k y).submit b o [] ⟨orderly,accounts⟩ tracked) orderly.submit
    (accounts_preserved.submit b o [] orderly accounts)

/-- A reduction that closes an order would leave nothing of it open. -/
theorem Collapses.openQty {sizeDelta : Int32} (collapses : Collapses o sizeDelta.toInt) (sized : o.Sized)
    (fits : 0 ≤ (o.orderQty : Int) + sizeDelta.toInt ∧ (o.orderQty : Int) + sizeDelta.toInt < 4294967296) :
    (o.modify sizeDelta.toInt priceUnchanged).openQty = 0 := by
  obtain ⟨_,_,_,_,_,filledQty,_⟩ := o.modify_fields sizeDelta.toInt priceUnchanged
  have orderQty := o.modify_orderQty priceUnchanged fits.1 fits.2
  have opened := sized.openQty
  have small := sized.orderQty
  rw [(sized.modify _ _).openQty,filledQty]
  have reduction : toU32 (-sizeDelta.toInt) = (-sizeDelta.toInt).toNat := by
    unfold toU32
    have := sizeDelta.le_toInt
    omega
  obtain ⟨negative,enough⟩ := collapses
  rw [reduction] at enough
  omega

theorem Outcome.departed (outcome : Outcome b c b') (fresh : b.Fresh c) (fits : b.SizesFit c) (orderly : Orderly b [])
    (accounts : Accounts b []) {o : SimpleOrder} (enters : Enters b.side c o) : Stays b'.side o ∨ Departed b.market b'.market c o := by
  have stays : ∀ {t}, o ∈ b'.side t → Stays b'.side o ∨ Departed b.market b'.market c o := fun inSide => .inl ⟨_,o,inSide,rfl,rfl⟩
  cases outcome with
  | rejected isBuy price stopPrice conditions orderId qty empty =>
    cases enters with
    | there _ t _ member => exact stays member
    | added _ _ _ _ _ _ some => exact absurd empty some
  | parked isBuy price qty stopPrice conditions orderId new isNew =>
    cases enters with
    | there _ t _ member =>
      apply stays (t := t)
      show o ∈ ((b.emit _).insertInto new.stopSide new).side t
      rw [side_insertInto]
      split_ifs with same
      · rw [same] at member
        exact (List.mem_orderedInsert _).mpr (.inr member)
      · exact member
    | added =>
      apply stays (t := new.stopSide)
      show _ ∈ ((b.emit _).insertInto new.stopSide new).side new.stopSide
      rw [side_insertInto,if_pos rfl,isNew]
      exact (List.mem_orderedInsert _).mpr (.inl rfl)
  | live isBuy price qty stopPrice conditions orderId new isNew some =>
    subst isNew
    have arrived := orderly_preserved.arrive b isBuy price qty stopPrice conditions orderId fresh some trivial orderly
    have accounts₁ := accounts_preserved.arrive b isBuy price qty stopPrice conditions orderId ⟨fresh,trivial⟩ some orderly accounts
    refine (Tracked.goLive ?_ arrived accounts₁).result
    cases enters with
    | there _ t _ member => exact arrived.tracked rfl (.inr ⟨t,member⟩) rfl rfl
    | added => exact arrived.tracked rfl (.inl (by simp)) rfl rfl
  | cancelled orderId t x member isId =>
    cases enters with
    | there _ t' _ member' =>
      by_cases same : o.orderId = x.orderId
      · refine .inr (.cancelled orderId rfl (same.trans isId) ?_)
        rw [same]
        rfl
      · exact stays (mem_eraseFrom (b := b) member' fun _ => same)
  | cancelRejected =>
    cases enters with
    | there _ t _ member => exact stays member
  | replaceRejected orderId sizeDelta newPrice absent =>
    cases enters with
    | there _ t _ member => exact stays member
    | replaced _ _ _ t x resting member isId => exact absurd isId (absent t resting x member)
  | collapsed orderId sizeDelta newPrice t x resting member isId _ collapses =>
    cases enters with
    | there _ t' _ member' apart =>
      exact stays (mem_eraseFrom (b := b) member' fun same => by rw [isId]; exact apart _ _ _ rfl (same ▸ resting))
    | replaced _ _ _ t' y resting' member' isId' =>
      obtain rfl := orderly.unique (.inr ⟨t',member'⟩) (.inr ⟨t,member⟩) (isId'.trans isId.symm)
      refine .inr (.emptied orderId sizeDelta newPrice rfl ((y.modify_fields _ _).1.trans isId) ?_)
      exact collapses.openQty (orderly.sized.1 t y member) (fits.resting resting member isId)
  | resized orderId sizeDelta newPrice t x resting member isId _ large =>
    have edited : ∀ y t', y ∈ b.side t' → (t' = t → y.orderId ≠ x.orderId) →
        y ∈ (b.edit t x.orderId fun o => o.modify sizeDelta.toInt priceUnchanged).side t' := by
      intro y t' member' other
      rw [side_edit]
      split_ifs with same
      · exact List.mem_map.mpr ⟨y,by rwa [← same],if_neg (other same)⟩
      · exact member'
    cases enters with
    | there _ t' _ member' apart =>
      exact stays (edited o t' member' fun same => by rw [isId]; exact apart _ _ _ rfl (same ▸ resting))
    | replaced _ _ _ t' y resting' member' isId' =>
      obtain rfl := orderly.unique (.inr ⟨t',member'⟩) (.inr ⟨t,member⟩) (isId'.trans isId.symm)
      apply stays (t := t)
      show _ ∈ (b.edit t y.orderId fun o => o.modify sizeDelta.toInt priceUnchanged).side t
      rw [side_edit,if_pos rfl]
      exact List.mem_map.mpr ⟨y,member,if_pos rfl⟩
  | emptied orderId sizeDelta newPrice t x copy resting member isId _ isCopy empty =>
    cases enters with
    | there _ t' _ member' apart =>
      exact stays (mem_eraseFrom (b := b) member' fun same => by rw [isId]; exact apart _ _ _ rfl (same ▸ resting))
    | replaced _ _ _ t' y resting' member' isId' =>
      obtain rfl := orderly.unique (.inr ⟨t',member'⟩) (.inr ⟨t,member⟩) (isId'.trans isId.symm)
      refine .inr (.emptied orderId sizeDelta newPrice rfl ((y.modify_fields _ _).1.trans isId) ?_)
      rw [isCopy] at empty
      rw [← empty,y.modify_openQty]
  | repriced orderId sizeDelta newPrice t x copy resting member isId moves isCopy left =>
    subst isCopy
    have moved := orderly_preserved.emit _ _ (.onReplace x.orderId sizeDelta.toInt (x.modify sizeDelta.toInt newPrice.toNat).price) rfl
      trivial (orderly_preserved.reprice b t x orderId sizeDelta newPrice resting member isId trivial moves.1 left trivial orderly)
    have accounts₁ := accounts_preserved.emit _ _ (.onReplace x.orderId sizeDelta.toInt (x.modify sizeDelta.toInt newPrice.toNat).price) rfl
      (orderly_preserved.reprice b t x orderId sizeDelta newPrice resting member isId trivial moves.1 left trivial orderly)
      (accounts_preserved.reprice b t x orderId sizeDelta newPrice resting member isId ⟨fresh,fits⟩ moves.1 left orderly accounts)
    refine (Tracked.goLive ?_ moved accounts₁).result
    cases enters with
    | there _ t' _ member' apart =>
      refine moved.tracked rfl (.inr ⟨t',?_⟩) rfl rfl
      exact mem_eraseFrom (b := b) member' fun same => by rw [isId]; exact apart _ _ _ rfl (same ▸ resting)
    | replaced _ _ _ t' y resting' member' isId' =>
      obtain rfl := orderly.unique (.inr ⟨t',member'⟩) (.inr ⟨t,member⟩) (isId'.trans isId.symm)
      obtain ⟨sameId,_,_,_,_,_,_,sameQty,_⟩ := y.modify_fields sizeDelta.toInt newPrice.toNat
      obtain ⟨sameId',_,_,_,_,_,_,sameQty',_⟩ := y.modify_fields sizeDelta.toInt priceUnchanged
      exact moved.tracked rfl (.inl (by simp)) (sameId.trans sameId'.symm) (sameQty.trans sameQty'.symm)
  | observed px =>
    have orderly₁ := orderly_preserved.observe b px.toNat trivial orderly
    have accounts₁ := accounts_preserved.observe b px.toNat orderly accounts
    refine (Tracked.processTriggered ?_ orderly₁ accounts₁).result
    cases enters with
    | there _ t _ member => exact orderly₁.tracked rfl (.inr ⟨t,member⟩) rfl rfl

end Book

namespace MatchingBook
variable {N : Capacity} {m : MatchingBook N} {c : Command} {cs : List Command} {h : Pools N}

/-- A replace of a resting order leaves its quantity in range. -/
def SizesFit (m : MatchingBook N) : Command → Prop
  | .replace orderId sizeDelta _ => ∀ t, t = .bids ∨ t = .asks → ∀ os, (m.on t).snapshot = some os → ∀ o ∈ os,
      o.orderId = orderId.toNat → 0 ≤ (o.orderQty : Int) + sizeDelta.toInt ∧ (o.orderQty : Int) + sizeDelta.toInt < 4294967296
  | _ => True

theorem sizesFit_iff {b : Book} {exact : Prop} (rep : Represents exact m b) : m.SizesFit c ↔ b.SizesFit c := by
  cases c with
  | replace orderId sizeDelta newPrice => exact rep.all_resting _
  | add | cancel | setMarketPrice => exact Iff.rfl

theorem sizesFit_everyStep (once : NeverReused cs) : EveryStep SizesFit h cs ↔ Admitted Book.SizesFit Book.step .start cs :=
  everyStep_iff (fun _ _ _ rep => sizesFit_iff rep) once

/-- A book with all quantities accounted for. -/
structure Conserved (m : MatchingBook N) (sides : TreeName → List SimpleOrder) : Prop where
  snapshots : ∀ t, (m.on t).snapshot = some (sides t)
  orders : ∀ t, ∀ o ∈ sides t, Accounted m.market o
  trades : ∀ t ∈ m.market.trades, Balanced t
  journaled : Book.Journaled m.market

theorem conserved_of_book {b : Book} {exact : Prop} (rep : Represents exact m b) (accounts : Book.Accounts b [])
    (balanced : ∀ t ∈ b.market.trades, Balanced t) (journaled : Book.Journaled b.market) : Conserved m b.side := by
  refine ⟨rep.snapshot,?_,?_,?_⟩
  · rw [rep.market]
    exact accounts.orders.1
  · rw [rep.market]
    exact balanced
  · rw [rep.market]
    exact journaled

/-- Over a run and one more command: all quantities are accounted for, and every order that the command finds or
    accepts is there after it, or has gone for a reason. -/
theorem quantity_conserved (h : Pools N) (cs : List Command) (c : Command) (once : NeverReused (cs ++ [c]))
    (fits : EveryStep SizesFit h (cs ++ [c])) : ∃ m m' sides sides', after h cs = some m ∧ m.step c = some m' ∧
      Conserved m sides ∧ Conserved m' sides' ∧
      ∀ o, Book.Enters sides c o → Book.Stays sides' o ∨ Book.Departed m.market m'.market c o := by
  have admitted := once.admitted.and ((sizesFit_everyStep once).mp fits)
  obtain ⟨before,⟨fresh,fitting⟩,_⟩ := admitted_append.mp admitted
  obtain ⟨m,m',ran,stepped,rep,rep'⟩ := run_step_represents h once fun no : False => no.elim
  have ordered : Book.Preserved Book.Anything (fun b c => b.Fresh c ∧ b.SizesFit c) Book.Orderly :=
    Book.orderly_preserved.restrict fun _ _ both => both.1
  have base := (ordered.above Book.accounts_preserved).above (Book.balanced_preserved.and Book.journaled_preserved)
  have inv := base.run cs .start ⟨⟨Book.orderly_start,⟨⟨by simp [Book.start],by simp⟩,fun _ _ => rfl⟩⟩,
    by simp [Book.start,Market.start],⟨rfl,rfl⟩⟩ before
  have inv' := base.step ⟨fresh,fitting⟩ inv
  refine ⟨m,m',_,_,ran,stepped,conserved_of_book rep inv.1.2 inv.2.1 inv.2.2,conserved_of_book rep' inv'.1.2 inv'.2.1 inv'.2.2,?_⟩
  intro o enters
  rw [rep.market,rep'.market]
  exact (Book.step_outcome _ c).departed fresh fitting inv.1.1 inv.1.2 enters

/-- A sell that has been traded in part is made smaller and moved to another price. -/
theorem quantity_conserved_reprice : ∃ (m m' : MatchingBook ⟨1,by decide,by decide⟩) (sides sides' : TreeName → List SimpleOrder),
    after .empty [.add false 100 5 0 0 1,.add true 100 2 0 0 2] = some m ∧ m.step (.replace 1 (-1) 101) = some m' ∧
      Conserved m sides ∧ Conserved m' sides' ∧
      ∀ o, Book.Enters sides (.replace 1 (-1) 101) o → Book.Stays sides' o ∨ Book.Departed m.market m'.market (.replace 1 (-1) 101) o :=
  have once : NeverReused [.add false 100 5 0 0 1,.add true 100 2 0 0 2,.replace 1 (-1) 101] := by decide
  quantity_conserved .empty [.add false 100 5 0 0 1,.add true 100 2 0 0 2] (.replace 1 (-1) 101) once
    ((sizesFit_everyStep once).mpr (by decide))

end MatchingBook

end BaboEngine
