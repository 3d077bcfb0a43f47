import BaboEngine.LiquibookObjects

/-!
# Calls of the liquibook book

The liquibook adapter stands for the abstract book: its multimaps are the two sides, and every id
leads to an object that says what the book says of it. `Stands.cancel` and `Stands.add` carry
this through a call with its callbacks, and give the reports.
-/

namespace BaboEngine
open Liquibook

namespace LiquibookAdapter
variable {a : LiquibookAdapter} {b : Book} {o x : SimpleOrder} {t : TreeName} {id p : Nat}

/-- The pointers of the ids. -/
def ptr (a : LiquibookAdapter) (id : Nat) : Nat := (a.findOrder id).getD 0

structure Stands (a : LiquibookAdapter) (b : Book) : Prop where
  market : ∀ t, t = .bids ∨ t = .asks → a.book.market (decide (t = .bids)) = (b.side t).map (SimpleOrder.entry a.ptr)
  quiet : a.book.tape.callbacks = []
  numbered : Numbered a.all
  lastOrderId : a.lastOrderId = toU32 a.all.length
  shown : ∀ t, ∀ o ∈ b.side t, a.findOrder o.orderId = some (a.ptr o.orderId) ∧ Shown a.all (a.ptr o.orderId) o
  gone : ∀ id p, a.findOrder id = some p → (∀ t, id ∉ ids (b.side t)) → Dead a.all p
  apart : ∀ id id' p, a.findOrder id = some p → a.findOrder id' = some p → id = id'

/-- The reports and the counters of a message are apart from the orders. -/
theorem Stands.told (stands : Stands a b) (seq filled : Nat) (reports : List Report) :
    Stands { a with seq := seq, filled := filled, reports := reports } b :=
  ⟨stands.market,stands.quiet,stands.numbered,stands.lastOrderId,stands.shown,stands.gone,stands.apart⟩

theorem ptr_eq (found : a.findOrder id = some p) : a.ptr id = p := by rw [ptr,found,Option.getD_some]

/-! ## Looking for an order -/

theorem Stands.findResting_none (stands : Stands a b) (plain : b.Plain) (none : b.findResting id = none) :
    a.findResting id = some .none := by
  unfold findResting
  cases found : a.findOrder id with
  | none => rfl
  | some p =>
    obtain ⟨lo,read,dead⟩ := stands.gone id p found (plain.absent none)
    simp [read,dead]

theorem Stands.findResting_some (stands : Stands a b) (plain : b.Plain) (found : b.findResting id = some o) :
    ∃ lo, a.findResting id = some (some (a.ptr id,lo)) ∧ lo.Mirrors o := by
  obtain ⟨t,_,member,rfl⟩ := Book.findResting_some found
  obtain ⟨isPtr,lo,read,mirrors⟩ := stands.shown t o member
  have rests : resting lo = true := by
    rw [mirrors.resting (plain.orderly.sized.1 t o member)]
    exact decide_eq_true (Nat.pos_iff_ne_zero.mp (plain.each t o member).opened)
  refine ⟨lo,?_,mirrors⟩
  simp [findResting,isPtr,read,rests]

/-! ## Markets -/

end LiquibookAdapter

namespace Liquibook.OrderBook

/-- The book whose callbacks are being performed. -/
def cleared (b : OrderBook) : OrderBook := { b with tape := { b.tape with callbacks := [] } }

theorem market_withMarket (b : OrderBook) (isBuy isBuy' : Bool) (m : TrackerMap) :
    (b.withMarket isBuy m).market isBuy' = if isBuy' = isBuy then m else b.market isBuy' := by
  cases isBuy <;> cases isBuy' <;> rfl

@[simp] theorem market_push (b : OrderBook) (cb : Callback) (isBuy : Bool) : (b.push cb).market isBuy = b.market isBuy := rfl

@[simp] theorem tape_withMarket (b : OrderBook) (isBuy : Bool) (m : TrackerMap) : (b.withMarket isBuy m).tape = b.tape := by
  cases isBuy <;> rfl

@[simp] theorem tape_push (b : OrderBook) (cb : Callback) : (b.push cb).tape.callbacks = b.tape.callbacks ++ [cb] := rfl

end Liquibook.OrderBook

namespace LiquibookAdapter
variable {a : LiquibookAdapter} {b : Book} {o x : SimpleOrder} {t t' : TreeName} {id p : Nat}

theorem bids_iff (resting : t = .bids ∨ t = .asks) (resting' : t' = .bids ∨ t' = .asks) :
    decide (t' = .bids) = decide (t = .bids) ↔ t' = t := by
  rcases resting with rfl | rfl <;> rcases resting' with rfl | rfl <;> simp

/-- What the callbacks of a call make of the adapter. -/
theorem callBook_eq {f : OrderBook → List Order → Option OrderBook} {book : OrderBook} (called : f a.book a.all = some book) :
    a.callBook f = book.tape.callbacks.foldlM performCallback { a with book := book.cleared } := by
  rw [callBook,called]
  rfl

/-! ## Cancelling -/

/-- The call takes the entry of the order out of its map. -/
theorem Stands.cancel_book (stands : Stands a b) (plain : b.Plain) (resting : t = .bids ∨ t = .asks) (member : o ∈ b.side t) :
    ∃ book, a.book.cancel a.all (a.ptr o.orderId) = some book ∧
      book.tape.callbacks = [.cancel (a.ptr o.orderId),.bookUpdate] ∧
      ∀ t', t' = .bids ∨ t' = .asks → book.market (decide (t' = .bids)) =
        ((b.eraseFrom t o.orderId).side t').map (SimpleOrder.entry a.ptr) := by
  obtain ⟨_,lo,read,mirrors⟩ := stands.shown t o member
  obtain ⟨L,R,split⟩ := List.append_of_mem member
  have side := plain.plainSide resting
  have nodup := side.nodup
  have isBuy : o.isBuy = decide (t = .bids) := side.isBuy o member
  rw [split] at side nodup
  have pointers : ∀ x ∈ L, a.ptr x.orderId ≠ a.ptr o.orderId := by
    intro x inLeft same
    have inSide : x ∈ b.side t := by simp [split,inLeft]
    have found := (stands.shown t x inSide).1
    rw [same] at found
    exact ids_middle nodup x (List.mem_append_left _ inLeft) (stands.apart _ _ _ found (stands.shown t o member).1)
  have key : (⟨lo.isBuy,lo.price⟩ : ComparablePrice) = o.comparable := by rw [mirrors.isBuy,mirrors.price]; rfl
  have market : a.book.market lo.isBuy = (L ++ o :: R).map (SimpleOrder.entry a.ptr) := by
    rw [mirrors.isBuy,isBuy,stands.market t resting,split]
  refine ⟨((a.book.withMarket lo.isBuy (((L ++ o :: R).map (SimpleOrder.entry a.ptr)).eraseIdx L.length)).push
    (.cancel (a.ptr o.orderId))).push .bookUpdate,?_,?_,?_⟩
  · simp only [OrderBook.cancel,read,key,market,findOnMarket_entry resting side pointers,Option.bind_eq_bind,Option.bind_some]
  · simp [stands.quiet]
  intro t' resting'
  rw [OrderBook.market_push,OrderBook.market_push,OrderBook.market_withMarket,mirrors.isBuy,isBuy,Book.side_eraseFrom]
  by_cases same : t' = t
  · subst same
    rw [if_pos rfl,if_pos rfl,split,filter_middle nodup,List.map_append,List.map_append,List.map_cons,List.eraseIdx_append_of_length_le (by simp)]
    simp
  · rw [if_neg fun bids => same ((bids_iff resting resting').mp bids),if_neg same]
    exact stands.market t' resting'

theorem Stands.cancel (stands : Stands a b) (plain : b.Plain) (member : o ∈ b.side t) : ∃ book all,
    a.callBook (·.cancel · (a.ptr o.orderId)) = some { a with book := book, all := all } ∧ all.length = a.all.length ∧
      Stands { a with book := book, all := all } (b.cancel o.orderId) := by
  obtain ⟨book,called,callbacks,market⟩ := stands.cancel_book plain (plain.resting member) member
  obtain ⟨isPtr,lo,read,mirrors⟩ := stands.shown t o member
  have others : ∀ id p, a.findOrder id = some p → id ≠ o.orderId →
      (a.all.set (a.ptr o.orderId) lo.cancel)[p]? = a.all[p]? := by
    intro id p found other
    refine List.getElem?_set_ne ?_
    rintro rfl
    exact other (stands.apart _ _ _ found isPtr)
  refine ⟨book.cleared,a.all.set (a.ptr o.orderId) lo.cancel,?_,by simp,?_⟩
  · rw [callBook_eq called,callbacks]
    simp [performCallback,edit,read]
  · rw [(plain.cancel member).1]
    refine ⟨market,rfl,stands.numbered.set read (Order.cancel_orderId lo),by simpa using stands.lastOrderId,?_,?_,stands.apart⟩
    · intro t' x inSide
      have old : x ∈ b.side t' := (b.sublist_eraseFrom t t' o.orderId).subset inSide
      obtain ⟨isPtr',shown⟩ := stands.shown t' x old
      refine ⟨isPtr',?_⟩
      have other : x.orderId ≠ o.orderId := by
        intro same
        have present := mem_ids inSide
        rw [same] at present
        exact plain.orderly.erased_ids member t' present
      show Shown _ (a.ptr x.orderId) x
      unfold Shown
      rw [others _ _ isPtr' other]
      exact shown
    · intro id p found absent
      by_cases same : id = o.orderId
      · subst same
        obtain rfl : a.ptr o.orderId = p := ptr_eq found
        exact ⟨lo.cancel,List.getElem?_set_self (List.getElem?_eq_some_iff.mp read).1,lo.resting_cancel⟩
      · unfold Dead
        rw [others _ _ found same]
        refine stands.gone id p found fun t' present => absent t' ?_
        obtain ⟨x,inSide,rfl⟩ := List.mem_map.mp present
        exact mem_ids (Book.mem_eraseFrom inSide fun _ => same)

/-! ## Adding -/

/-- What the object of an order says before the book knows of it. -/
structure Fresh (lo : Order) (o : SimpleOrder) : Prop where
  state : lo.state = .osNew
  isBuy : lo.isBuy = o.isBuy
  price : lo.price = o.price
  orderQty : lo.orderQty = o.orderQty
  filledQty : lo.filledQty = o.filledQty
  stopPrice : lo.stopPrice = 0
  conditions : lo.conditions = o.conditions

theorem Fresh.accept {lo : Order} (fresh : Fresh lo o) (opened : o.openQty ≠ 0) : lo.accept.Mirrors o := by
  rw [Order.accept,if_pos fresh.state]
  exact ⟨fresh.isBuy,fresh.price,fresh.orderQty,fresh.filledQty,(if_neg opened).symm⟩

theorem incoming_conditions (incoming : b.Incoming o) : o.conditions = ocNoConditions ∨ o.conditions = ocImmediateOrCancel := by
  obtain ⟨_,_,_,_,_,rfl,isKind⟩ := incoming.isNew
  exact isKind

/-- The tracker of a new order. -/
theorem Fresh.tracker {lo : Order} (fresh : Fresh lo o) (incoming : b.Incoming o) (p : Nat) :
    Tracker.new p lo o.conditions = o.tracker p o.conditions := by
  have isOpen : o.openQty = o.orderQty := incoming.fields.2.1
  rw [Tracker.new,SimpleOrder.tracker,isOpen,fresh.orderQty,Order.allOrNone,Order.immediateOrCancel,fresh.conditions]
  cases incoming_conditions incoming with
  | inl same => simp [same,ocNoConditions]
  | inr same =>
    rw [same]
    simp only [Tracker.mk.injEq,true_and]
    decide

theorem decide_side (o : SimpleOrder) : decide (o.side = .bids) = o.isBuy ∧ decide (o.opposite = .bids) = !o.isBuy := by
  unfold SimpleOrder.side SimpleOrder.opposite
  cases o.isBuy <;> simp

theorem side_or_opposite (o : SimpleOrder) (resting : t = .bids ∨ t = .asks) : t = o.side ∨ t = o.opposite := by
  unfold SimpleOrder.side SimpleOrder.opposite
  cases o.isBuy <;> simpa [or_comm] using resting

/-- The book matches an order and keeps what is left of it as the abstract book does. -/
theorem addOrder_eq {B : OrderBook} {orders : List Order} {ptr : Nat → Nat} {lo : Order} (plain : b.Plain) (incoming : b.Incoming o)
    (market : ∀ t, t = .bids ∨ t = .asks → B.market (decide (t = .bids)) = (b.side t).map (SimpleOrder.entry ptr))
    (read : orders[ptr o.orderId]? = some lo) (isBuy : lo.isBuy = o.isBuy) (price : lo.price = o.price)
    (priced : ∀ m ∈ b.side o.opposite, Priced orders (ptr m.orderId) m) :
    ∃ B' matched, B.addOrder orders (o.tracker (ptr o.orderId) o.conditions) o.price =
        some (B',(b.pass o).inc.tracker (ptr o.orderId) o.conditions,matched) ∧
      B'.tape.callbacks = B.tape.callbacks ++ (b.pass o).trades.map (Trade.callback ptr (ptr o.orderId)) ∧
      ∀ t, t = .bids ∨ t = .asks → B'.market (decide (t = .bids)) = ((b.submit o).side t).map (SimpleOrder.entry ptr) := by
  obtain ⟨sized,isOpen,_,notAon,noConditions,_⟩ := incoming.fields
  obtain ⟨same,sizedInc,_⟩ := Book.pass_inc (b := b) sized
  have isRegular : b.pass o = .regular o (b.side o.opposite) := by simp [Book.pass,Matching.against,notAon]
  have opposite := plain.plainSide o.opposite_cases
  have own := plain.plainSide o.side_cases
  obtain ⟨marketPrice,matched,looped⟩ := matchRegularLoop_eq o.conditions (b.side o.opposite) o B.tape sized incoming.price
    ⟨lo,read,price⟩ fun m member => ⟨opposite.sized m member,opposite.each m member,
      (opposite.isBuy m member).trans (decide_side o).2,priced m member⟩
  rw [← isRegular] at looped
  have makers : B.market (!o.isBuy) = (b.side o.opposite).map (SimpleOrder.entry ptr) := by
    rw [← (decide_side o).2]
    exact market _ o.opposite_cases
  have notAon' : (o.tracker (ptr o.orderId) o.conditions).allOrNone = false := notAon
  have isIoc : ((b.pass o).inc.tracker (ptr o.orderId) o.conditions).immediateOrCancel = (b.pass o).inc.immediateOrCancel :=
    same.immediateOrCancel.symm
  have pointer : (o.tracker (ptr o.orderId) o.conditions).order = ptr o.orderId := rfl
  have rests : ((b.pass o).inc.openQty ≠ 0 ∧ (!(b.pass o).inc.immediateOrCancel) = true) ↔ Book.Rests o (b.pass o).inc := by
    have priced : ¬ o.price = marketOrderPrice := Nat.pos_iff_ne_zero.mp incoming.price
    rw [Book.Rests,gt_iff_lt,Nat.pos_iff_ne_zero,and_iff_right priced,and_comm]
  let B₁ : OrderBook := { B.withMarket (!o.isBuy) ((b.pass o).makers.map (SimpleOrder.entry ptr)) with
    tape := ⟨marketPrice,B.tape.callbacks ++ (b.pass o).trades.map (Trade.callback ptr (ptr o.orderId))⟩ }
  have market₁ : ∀ isBuy, B₁.market isBuy = if isBuy = !o.isBuy then (b.pass o).makers.map (SimpleOrder.entry ptr) else B.market isBuy :=
    fun isBuy => OrderBook.market_withMarket ..
  have opposite₁ : B₁.market (decide (o.opposite = .bids)) = ((b.submit o).side o.opposite).map (SimpleOrder.entry ptr) := by
    rw [(decide_side o).2,market₁,if_pos rfl,Book.submit_opposite sized]
  have side₁ : B₁.market o.isBuy = (b.side o.side).map (SimpleOrder.entry ptr) := by
    rw [market₁,if_neg (by simp),← (decide_side o).1]
    exact market _ o.side_cases
  simp only [OrderBook.addOrder,pointer,read,isBuy,makers,matchOrder,notAon',looped,openQty_tracker sizedInc,isIoc,rests,
    Option.bind_eq_bind,Option.bind_some,Bool.false_eq_true,if_false]
  by_cases stays : Book.Rests o (b.pass o).inc
  · refine ⟨B₁.withMarket o.isBuy ((B₁.market o.isBuy).insert ⟨o.isBuy,o.price⟩ ((b.pass o).inc.tracker (ptr o.orderId) o.conditions)),
      matched,if_pos stays,?_,?_⟩
    · exact congrArg Tape.callbacks (OrderBook.tape_withMarket B₁ _ _)
    · have entry : (⟨o.isBuy,o.price⟩,(b.pass o).inc.tracker (ptr o.orderId) o.conditions) = (b.pass o).inc.entry ptr := by
        have regular : o.immediateOrCancel = false := by
          rw [← same.immediateOrCancel]
          simpa using stays.2.1
        rw [SimpleOrder.entry,SimpleOrder.comparable,same.isBuy,same.price,same.orderId,noConditions regular]
      obtain ⟨key,tracker⟩ := Prod.mk.inj entry
      intro t resting
      rw [OrderBook.market_withMarket]
      rcases side_or_opposite o resting with rfl | rfl
      · rw [if_pos (decide_side o).1,side₁,Book.submit_side sized,if_pos stays,key,tracker]
        exact insert_entry resting _ own (same.isBuy.trans (decide_side o).1.symm) (same.price.symm ▸ incoming.price)
      · rw [if_neg (by rw [(decide_side o).2]; simp)]
        exact opposite₁
  · refine ⟨B₁,matched,if_neg stays,rfl,?_⟩
    intro t resting
    rcases side_or_opposite o resting with rfl | rfl
    · rw [Book.submit_side sized,if_neg stays,(decide_side o).1]
      exact side₁
    · exact opposite₁

theorem side_add (incoming : b.Incoming o) (plain : b.Plain) (some : o.orderQty ≠ 0) (t : TreeName) :
    (b.add o).side t = (b.submit o).side t := by
  rw [incoming.add_eq plain,if_neg some,Book.submit_eq,Book.submit_eq]
  show (if Book.Rests o (b.pass o).inc then _ else _ : Book).side t = _
  split_ifs <;> rfl

/-- The callbacks behind those of the trades. -/
def closing (p : Nat) (o remainder : SimpleOrder) : List Callback :=
  if o.immediateOrCancel ∧ remainder.openQty ≠ 0 then [.cancel p,.bookUpdate] else [.bookUpdate]

theorem Stands.add_book {lo : Order} (stands : Stands a b) (plain : b.Plain) (incoming : b.Incoming o)
    (found : a.findOrder o.orderId = some p) (read : a.all[p]? = some lo) (fresh : Fresh lo o) (some : o.orderQty ≠ 0) :
    ∃ book, (a.book.add a.all p o.conditions).map Prod.fst = .some book ∧
      book.tape.callbacks = .accept p :: (b.tradesOf o).map (Trade.callback a.ptr p) ++ closing p o (b.pass o).inc ∧
      ∀ t, t = .bids ∨ t = .asks → book.market (decide (t = .bids)) = ((b.add o).side t).map (SimpleOrder.entry a.ptr) := by
  obtain rfl : a.ptr o.orderId = p := ptr_eq found
  have notReady : ¬ lo.orderQty = 0 := by
    rw [fresh.orderQty]
    exact some
  have priced : ∀ m ∈ b.side o.opposite, Priced a.all (a.ptr m.orderId) m := by
    intro m member
    obtain ⟨_,lo,read,mirrors⟩ := stands.shown _ m member
    exact ⟨lo,read,mirrors.price⟩
  obtain ⟨B,matched,added,callbacks,market⟩ := addOrder_eq (B := a.book.push (.accept (a.ptr o.orderId))) plain incoming stands.market
    read fresh.isBuy fresh.price priced
  have trades : b.tradesOf o = (b.pass o).trades := if_neg some
  have tracker := fresh.tracker incoming (a.ptr o.orderId)
  have isIoc : ((b.pass o).inc.tracker (a.ptr o.orderId) o.conditions).immediateOrCancel = o.immediateOrCancel := rfl
  have filled : ((b.pass o).inc.tracker (a.ptr o.orderId) o.conditions).filled = decide ((b.pass o).inc.openQty = 0) := rfl
  simp only [OrderBook.add,read,if_neg notReady,fresh.stopPrice,tracker,fresh.price,added,isIoc,filled,Option.bind_eq_bind,Option.bind_some,
    side_add incoming plain some,trades,closing]
  rw [OrderBook.tape_push,stands.quiet,List.nil_append] at callbacks
  by_cases residual : o.immediateOrCancel = true ∧ (b.pass o).inc.openQty ≠ 0
  · refine ⟨(B.push (.cancel (a.ptr o.orderId))).push .bookUpdate,by simp [residual],?_,market⟩
    rw [OrderBook.tape_push,OrderBook.tape_push,callbacks,if_pos residual]
    simp
  · refine ⟨B.push .bookUpdate,by simp [residual],?_,market⟩
    rw [OrderBook.tape_push,callbacks,if_neg residual]
    simp

/-- The objects after the callbacks of an order that is added. -/
structure Settled (all all' : List Order) (ptr : Nat → Nat) (p : Nat) (o : SimpleOrder) (makers : List SimpleOrder)
    (r : Matching) : Prop where
  numbered : Numbered all'
  length : all'.length = all.length
  rests : Book.Rests o r.inc → Shown all' p r.inc
  ends : ¬ Book.Rests o r.inc → Dead all' p
  left : ∀ m ∈ r.makers, Shown all' (ptr m.orderId) m
  gone : ∀ m ∈ makers, m.orderId ∉ ids r.makers → Dead all' (ptr m.orderId)
  others : ∀ p', p' ≠ p → (∀ m ∈ makers, p' ≠ ptr m.orderId) → all'[p']? = all[p']?

/-- What is left of an immediate-or-cancel order is cancelled. -/
theorem Heard.settled {all : List Order} {ptr : Nat → Nat} {makers : List SimpleOrder} {r : Matching}
    (heard : Heard all a.all ptr p makers r)
    (same : o.SameTerms r.inc) (sized : r.inc.Sized) (price : 1 ≤ o.price) (apart : ∀ m ∈ makers, ptr m.orderId ≠ p)
    (apart' : ∀ m ∈ r.makers, ptr m.orderId ≠ p) : ∃ all', (closing p o r.inc).foldlM performCallback a = some { a with all := all' } ∧
      Settled all all' ptr p o makers r := by
  obtain ⟨lo,read,mirrors⟩ := heard.own
  have rests_iff : Book.Rests o r.inc ↔ o.immediateOrCancel = false ∧ r.inc.openQty ≠ 0 := by
    have priced : ¬ o.price = marketOrderPrice := Nat.pos_iff_ne_zero.mp price
    rw [Book.Rests,gt_iff_lt,Nat.pos_iff_ne_zero,and_iff_right priced,same.immediateOrCancel,Bool.not_eq_true']
  unfold closing
  by_cases residual : o.immediateOrCancel = true ∧ r.inc.openQty ≠ 0
  · have others : ∀ p', p' ≠ p → (a.all.set p lo.cancel)[p']? = a.all[p']? := fun p' other => List.getElem?_set_ne other.symm
    refine ⟨a.all.set p lo.cancel,?_,heard.numbered.set read (Order.cancel_orderId lo),by simp [heard.length],?_,?_,?_,?_,?_⟩
    · rw [if_pos residual]
      simp [performCallback,edit,read]
    · intro rests
      exact absurd (rests_iff.mp rests).1 (by simp [residual.1])
    · exact fun _ => ⟨lo.cancel,List.getElem?_set_self (List.getElem?_eq_some_iff.mp read).1,lo.resting_cancel⟩
    · intro m member
      unfold Shown
      rw [others _ (apart' m member)]
      exact heard.left m member
    · intro m member gone
      unfold Dead
      rw [others _ (apart m member)]
      exact heard.gone m member gone
    · intro p' other notMakers
      rw [others _ other]
      exact heard.others p' other notMakers
  · refine ⟨a.all,by rw [if_neg residual]; rfl,heard.numbered,heard.length,fun _ => heard.own,?_,heard.left,heard.gone,heard.others⟩
    intro ends
    have full : r.inc.openQty = 0 := by
      by_contra opened
      refine ends (rests_iff.mpr ⟨?_,opened⟩)
      simpa using fun isIoc => residual ⟨isIoc,opened⟩
    exact ⟨lo,read,by simpa [full] using mirrors.resting sized⟩

theorem Stands.ptr_ne {id' p' : Nat} (stands : Stands a b) (found : a.findOrder id = some p) (found' : a.findOrder id' = some p')
    (other : id ≠ id') : p ≠ p' := by
  rintro rfl
  exact other (stands.apart _ _ _ found found')

theorem maker_of_left (sized : o.Sized) (member : x ∈ (b.pass o).makers) : ∃ m ∈ b.side o.opposite, m.orderId = x.orderId :=
  List.mem_map.mp ((Book.pass_map (b := b) _ (fun o _ _ => o.fill_orderId _ _) sized).subset (mem_ids member))

theorem Stands.pointers_nodup (stands : Stands a b) (nodup : (ids (b.side t)).Nodup) : ((b.side t).map fun m => a.ptr m.orderId).Nodup := by
  have isMap : (b.side t).map (fun m => a.ptr m.orderId) = (ids (b.side t)).map a.ptr := by
    rw [ids,List.map_map]
    rfl
  rw [isMap]
  apply nodup.map_on
  intro id member id' member' same
  obtain ⟨x,inSide,rfl⟩ := List.mem_map.mp member
  obtain ⟨x',inSide',rfl⟩ := List.mem_map.mp member'
  apply stands.apart _ _ _ (stands.shown t x inSide).1
  rw [same]
  exact (stands.shown t x' inSide').1

/-- A maker has another pointer than the order that is brought. -/
theorem Stands.maker_ne (stands : Stands a b) (incoming : b.Incoming o) (found : a.findOrder o.orderId = some p) (member : x ∈ b.side t) :
    a.ptr x.orderId ≠ p :=
  stands.ptr_ne (stands.shown t x member).1 found fun isId => incoming.absent t (isId ▸ mem_ids member)

/-- The adapter stands for what the abstract book makes of an order. -/
theorem Stands.settled {all : List Order} {book : OrderBook} (stands : Stands a b) (plain : b.Plain) (incoming : b.Incoming o)
    (some : o.orderQty ≠ 0) (found : a.findOrder o.orderId = .some p) (settled : Settled a.all all a.ptr p o (b.side o.opposite) (b.pass o))
    (market : ∀ t, t = .bids ∨ t = .asks → book.market (decide (t = .bids)) = ((b.add o).side t).map (SimpleOrder.entry a.ptr))
    (quiet : book.tape.callbacks = []) : Stands { a with book := book, all := all } (b.add o) := by
  obtain ⟨sized,_⟩ := incoming.fields
  obtain ⟨same,_⟩ := Book.pass_inc (b := b) sized
  have isAdd := side_add incoming plain some
  refine ⟨market,quiet,settled.numbered,by rw [stands.lastOrderId,settled.length],?_,?_,stands.apart⟩
  · intro t x member
    rw [isAdd] at member
    by_cases isOpposite : t = o.opposite
    · subst isOpposite
      rw [Book.submit_opposite sized] at member
      obtain ⟨m,old,isId⟩ := maker_of_left sized member
      have isPtr := (stands.shown _ m old).1
      rw [isId] at isPtr
      exact ⟨isPtr,settled.left x member⟩
    · rcases Book.mem_submit sized member with old | ⟨opposite,_⟩ | ⟨_,rfl,rests⟩
      · obtain ⟨isPtr,shown⟩ := stands.shown t x old
        refine ⟨isPtr,?_⟩
        have notMaker : ∀ m ∈ b.side o.opposite, a.ptr x.orderId ≠ a.ptr m.orderId := by
          intro m maker
          refine stands.ptr_ne isPtr (stands.shown _ m maker).1 fun isId => isOpposite ?_
          exact (plain.orderly.one_place old maker isId).1
        show Shown all (a.ptr x.orderId) x
        unfold Shown
        rw [settled.others _ (stands.maker_ne incoming found old) notMaker]
        exact shown
      · exact absurd opposite isOpposite
      · rw [same.orderId]
        refine ⟨found.trans (congrArg _ (ptr_eq found).symm),?_⟩
        show Shown all (a.ptr o.orderId) _
        rw [ptr_eq found]
        exact settled.rests rests
  · intro id p' found' absent
    by_cases isOwn : id = o.orderId
    · subst isOwn
      obtain rfl : p = p' := Option.some.inj (found.symm.trans found')
      refine settled.ends fun rests => absent o.side ?_
      rw [isAdd,Book.submit_side sized,if_pos rests,← same.orderId]
      exact mem_ids ((List.mem_orderedInsert _).mpr (.inl rfl))
    · by_cases isMaker : id ∈ ids (b.side o.opposite)
      · obtain ⟨m,member,rfl⟩ := List.mem_map.mp isMaker
        obtain rfl : a.ptr m.orderId = p' := ptr_eq found'
        apply settled.gone m member
        have gone := absent o.opposite
        rwa [isAdd,Book.submit_opposite sized] at gone
      · have absent' : ∀ t, id ∉ ids (b.side t) := by
          intro t present
          by_cases isOpposite : t = o.opposite
          · exact isMaker (isOpposite ▸ present)
          · obtain ⟨x,member,rfl⟩ := List.mem_map.mp present
            apply absent t
            rw [isAdd]
            exact mem_ids (Book.submit_stays sized member isOpposite)
        show Dead all p'
        unfold Dead
        rw [settled.others p' (stands.ptr_ne found' found isOwn) ?_]
        · exact stands.gone id p' found' absent'
        · intro m member
          exact stands.ptr_ne found' (stands.shown _ m member).1 fun isId => isMaker (isId ▸ mem_ids member)

/-- The callbacks of the trades, after the order has been accepted. -/
theorem Stands.fills {lo : Order} (stands : Stands a b) (plain : b.Plain) (incoming : b.Incoming o) (room : a.all.length < a.lb2ext.size)
    (found : a.findOrder o.orderId = some p) (read : a.all[p]? = some lo) (fresh : Fresh lo o) (some : o.orderQty ≠ 0) (zero : a.filled = 0)
    (book : OrderBook) : ∃ all, ((b.pass o).trades.map (Trade.callback a.ptr p)).foldlM performCallback
        { a with book := book, all := a.all.set p lo.accept } = .some { a with
          book := book
          all := all
          reports := a.reports ++ (b.pass o).trades.map (a.report a.ptr p)
          filled := traded (b.pass o).trades } ∧
      Heard a.all all a.ptr p (b.side o.opposite) (b.pass o) := by
  obtain ⟨sized,isOpen,_,notAon,_⟩ := incoming.fields
  have opened : o.openQty ≠ 0 := isOpen ▸ some
  have bound : o.openQty < 4294967296 := isOpen ▸ sized.orderQty
  have isRegular : b.pass o = .regular o (b.side o.opposite) := by simp [Book.pass,Matching.against,notAon]
  have opposite := plain.plainSide o.opposite_cases
  have others : ∀ p', p' ≠ p → (a.all.set p lo.accept)[p']? = a.all[p']? := fun p' other => List.getElem?_set_ne other.symm
  have own : Shown (a.all.set p lo.accept) p o :=
    ⟨lo.accept,List.getElem?_set_self (List.getElem?_eq_some_iff.mp read).1,fresh.accept opened⟩
  have each : ∀ m ∈ b.side o.opposite, m.Sized ∧ Book.PlainOrder m ∧ a.ptr m.orderId ≠ p ∧
      Shown (a.all.set p lo.accept) (a.ptr m.orderId) m := by
    intro m member
    have notOwn := stands.maker_ne incoming found member
    refine ⟨opposite.sized m member,opposite.each m member,notOwn,?_⟩
    unfold Shown
    rw [others _ notOwn]
    exact (stands.shown _ m member).2
  obtain ⟨all,ran,heard⟩ := perform_fills a.ptr (b.side o.opposite) o { a with book := book, all := a.all.set p lo.accept }
    (stands.numbered.set read (Order.accept_orderId lo)) (by simpa using room) sized own each (stands.pointers_nodup opposite.nodup)
    (by show a.filled + _ < _; omega)
  rw [← isRegular] at ran heard
  refine ⟨all,ran.trans ?_,{ heard with
    length := heard.length.trans (by simp)
    others := fun p' other notMakers => (heard.others p' other notMakers).trans (others p' other) }⟩
  rw [zero,Nat.zero_add]
  rfl

theorem Stands.add {lo : Order} (stands : Stands a b) (plain : b.Plain) (incoming : b.Incoming o) (room : a.all.length < a.lb2ext.size)
    (found : a.findOrder o.orderId = some p) (read : a.all[p]? = some lo) (fresh : Fresh lo o) (zero : a.filled = 0) :
    ∃ book all, a.callBook (fun b all => (b.add all p o.conditions).map Prod.fst) = some { a with
        book := book
        all := all
        reports := a.reports ++ (b.tradesOf o).map (a.report a.ptr p)
        filled := traded (b.tradesOf o) } ∧ all.length = a.all.length ∧
      Stands { a with book := book, all := all } (b.add o) := by
  by_cases empty : o.orderQty = 0
  · have rejected : (a.book.add a.all p o.conditions).map Prod.fst = some (a.book.push (.reject p "size must be positive")) := by
      simp [OrderBook.add,read,fresh.orderQty,empty]
    have none : b.tradesOf o = [] := if_pos empty
    refine ⟨(a.book.push (.reject p "size must be positive")).cleared,a.all,(callBook_eq rejected).trans ?_,rfl,?_⟩
    · rw [OrderBook.tape_push,stands.quiet,none]
      simp [performCallback,traded,zero]
    · rw [incoming.add_eq plain,if_pos empty]
      exact ⟨stands.market,rfl,stands.numbered,stands.lastOrderId,stands.shown,stands.gone,stands.apart⟩
  · obtain ⟨sized,_⟩ := incoming.fields
    obtain ⟨same,sizedInc,_⟩ := Book.pass_inc (b := b) sized
    obtain ⟨book,added,callbacks,market⟩ := stands.add_book plain incoming found read fresh empty
    obtain ⟨all₁,ran,heard⟩ := stands.fills plain incoming room found read fresh empty zero book.cleared
    have notOwn : ∀ m ∈ (b.pass o).makers, a.ptr m.orderId ≠ p := by
      intro m member
      obtain ⟨m',old,isId⟩ := maker_of_left sized member
      rw [← isId]
      exact stands.maker_ne incoming found old
    obtain ⟨all₂,ended,settled⟩ := Heard.settled (o := o) (a := { a with
        book := book.cleared
        all := all₁
        reports := a.reports ++ (b.pass o).trades.map (a.report a.ptr p)
        filled := traded (b.pass o).trades }) heard same sizedInc incoming.price (fun m => stands.maker_ne incoming found) notOwn
    refine ⟨book.cleared,all₂,(callBook_eq added).trans ?_,settled.length,stands.settled plain incoming empty found settled market rfl⟩
    have trades : b.tradesOf o = (b.pass o).trades := if_neg empty
    have accepted : performCallback { a with book := book.cleared } (.accept p) =
        some { a with book := book.cleared, all := a.all.set p lo.accept } := by simp [performCallback,edit,read]
    rw [callbacks,trades,List.cons_append,List.foldlM_cons,accepted,Option.bind_eq_bind,Option.bind_some,List.foldlM_append,ran]
    exact ended

end LiquibookAdapter

end BaboEngine
