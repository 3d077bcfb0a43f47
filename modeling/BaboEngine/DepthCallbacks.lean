import BaboEngine.DepthOrderBook
import BaboEngine.LiquibookRuns

/-!
# The callbacks of a book with depth

Without what the depth reads, they are those of the book without depth, and where the depth throws nothing they do
the same to the adapter (`DepthAdapter.callBook_eq`). What it reads of them is known as well: `Stands.add_typed` and
`Stands.cancel_typed` give the quantities and the flags.
-/

namespace BaboEngine
open Liquibook

/-! ## The book without depth -/

namespace LiquibookDepth

/-- The tape without depth. -/
def TypedTape.plain (k : TypedTape) : Tape := ⟨k.marketPrice,k.callbacks.map TypedCallback.plain⟩

theorem createTrade_plain (orders : List Order) (k : TypedTape) (inbound current : Tracker) (maxQuantity : Nat) :
    (createTrade orders k inbound current maxQuantity).map (fun r => (r.1.plain,r.2)) =
      Liquibook.createTrade orders k.plain inbound current maxQuantity := by
  unfold createTrade Liquibook.createTrade
  cases orders[inbound.order]? with
  | none => rfl
  | some own =>
    cases orders[current.order]? with
    | none => rfl
    | some other =>
      have market : k.plain.marketPrice = k.marketPrice := rfl
      simp only [market,Option.bind_eq_bind,Option.bind_some]
      split_ifs <;> try rfl
      all_goals
        cases inbound.fill (min maxQuantity (min inbound.openQty current.openQty)) with
        | none => rfl
        | some filled =>
          cases current.fill (min maxQuantity (min inbound.openQty current.openQty)) with
          | none => rfl
          | some current' => simp [TypedTape.plain,TypedTape.push,Tape.push,TypedCallback.plain]

theorem matchRegularLoop_plain (orders : List Order) (price : Nat) (pos : TrackerMap) : ∀ (k : TypedTape) (inbound : Tracker),
    (matchRegularLoop orders price k inbound pos).map (fun r => (r.1.plain,r.2)) =
      Liquibook.matchRegularLoop orders price k.plain inbound pos := by
  induction pos with
  | nil => exact fun _ _ => rfl
  | cons entry pos ih =>
    intro k inbound
    unfold matchRegularLoop Liquibook.matchRegularLoop
    split_ifs <;> try rfl
    rw [← createTrade_plain]
    cases createTrade orders k inbound entry.2 4294967295 with
    | none => rfl
    | some r =>
      simp only [Option.bind_eq_bind,Option.bind_some,Option.map_some]
      rw [← ih]
      cases matchRegularLoop orders price r.1 r.2.1 pos with
      | none => rfl
      | some r' =>
        simp only [Option.bind_some,Option.map_some]
        split_ifs <;> rfl

namespace TypedBook
variable {b : TypedBook}

theorem market_plain (b : TypedBook) (isBuy : Bool) : b.plain.market isBuy = b.market isBuy := by
  cases isBuy <;> rfl

theorem addOrder_plain (b : TypedBook) (orders : List Order) (inbound : Tracker) (price : Nat) :
    (b.addOrder orders inbound price).map (fun r => (r.1.plain,r.2)) = b.plain.addOrder orders inbound price := by
  unfold addOrder OrderBook.addOrder matchOrder Liquibook.matchOrder
  cases orders[inbound.order]? with
  | none => rfl
  | some o =>
    simp only [Option.bind_eq_bind,Option.bind_some,market_plain]
    split_ifs with aon
    · rfl
    · have looped := matchRegularLoop_plain orders price (b.market !o.isBuy) b.tape inbound
      have isTape : b.plain.tape = b.tape.plain := rfl
      rw [isTape,← looped]
      cases matchRegularLoop orders price b.tape inbound (b.market !o.isBuy) with
      | none => rfl
      | some r =>
        simp only [Option.bind_some,Option.map_some]
        split_ifs <;> cases o.isBuy <;> rfl

theorem tape_withMarket (b : TypedBook) (isBuy : Bool) (m : TrackerMap) : (b.withMarket isBuy m).tape = b.tape := by
  cases isBuy <;> rfl

@[simp] theorem plain_push (b : TypedBook) (cb : TypedCallback) : (b.push cb).plain = b.plain.push cb.plain := by
  simp [plain,push,TypedTape.push,OrderBook.push,Tape.push]

/-- An order that is accepted has no quantity without depth. -/
theorem plain_setQuantity {order n : Nat} {cbs : List TypedCallback} (queued : b.tape.callbacks = .accept order n :: cbs) (quantity : Nat) :
    (b.setQuantity 0 quantity).plain = b.plain := by
  simp [plain,setQuantity,queued,TypedCallback.setQuantity,TypedCallback.plain]

theorem plain_idle {b : OrderBook} (quiet : b.tape.callbacks = []) : (idle b).plain = b := by
  obtain ⟨bids,asks,marketPrice,callbacks⟩ := b
  obtain rfl : callbacks = [] := quiet
  rfl

end TypedBook

end LiquibookDepth

/-! ## What is queued -/

open LiquibookDepth (TypedTape TypedCallback TypedBook ffNeitherFilled ffInboundFilled ffMatchedFilled ffBothFilled)

/-- The flags of the callback of a trade. -/
def Trade.fillFlags (t : Trade) : UInt8 :=
  let fillFlags := if t.taker.openQty - t.qty = 0 then ffNeitherFilled ||| ffInboundFilled else ffNeitherFilled
  if t.maker.openQty - t.qty = 0 then fillFlags ||| ffMatchedFilled else fillFlags

/-- The callback of a trade, as the depth hears it. -/
def Trade.typed (ptr : Nat → Nat) (taker : Nat) (t : Trade) : TypedCallback :=
  .fill taker (ptr t.maker.orderId) t.qty t.maker.price t.fillFlags

theorem Trade.fillFlags_inbound (t : Trade) :
    (t.fillFlags &&& (ffInboundFilled ||| ffBothFilled) != 0) = decide (t.taker.openQty - t.qty = 0) := by
  simp only [fillFlags]
  split_ifs with maker taker taker <;> simp only [taker] <;> decide

theorem Trade.fillFlags_matched (t : Trade) :
    (t.fillFlags &&& (ffMatchedFilled ||| ffBothFilled) != 0) = decide (t.maker.openQty - t.qty = 0) := by
  simp only [fillFlags]
  split_ifs with maker taker taker <;> simp only [maker] <;> decide

namespace LiquibookDepth
variable {orders : List Order} {ptr : Nat → Nat} {inc maker : SimpleOrder} {taker : Nat}

theorem createTrade_eq (sized : inc.Sized) (sized' : maker.Sized) (known : Priced orders taker inc)
    (known' : Priced orders (ptr maker.orderId) maker) (price : 1 ≤ maker.price) (needs : inc.openQty ≠ 0) (opened : maker.openQty ≠ 0)
    (conditions : UInt32) (k : TypedTape) (c : Nat) :
    createTrade orders k (inc.tracker taker conditions) (maker.tracker (ptr maker.orderId) ocNoConditions) 4294967295 =
      some (⟨maker.price,k.callbacks ++ [Trade.typed ptr taker ⟨inc,maker,min inc.openQty maker.openQty⟩]⟩,
        (inc.fill (min inc.openQty maker.openQty) c).tracker taker conditions,
        (maker.fill (min inc.openQty maker.openQty) c).tracker (ptr maker.orderId) ocNoConditions,min inc.openQty maker.openQty) := by
  obtain ⟨own,read,_⟩ := known
  obtain ⟨other,read',isPrice⟩ := known'
  have priced : maker.price ≠ marketOrderPrice := by
    show maker.price ≠ 0
    omega
  have small : inc.openQty < 4294967296 := by
    have isOpen := sized.openQty
    have bound := sized.orderQty
    omega
  have quantity : min 4294967295 (min inc.openQty maker.openQty) = min inc.openQty maker.openQty := by omega
  have positive : min inc.openQty maker.openQty ≠ 0 := by omega
  have pointer : (inc.tracker taker conditions).order = taker := rfl
  have pointer' : (maker.tracker (ptr maker.orderId) ocNoConditions).order = ptr maker.orderId := rfl
  have remains := sized.openQty_fill (c := c) (Nat.min_le_left inc.openQty maker.openQty)
  have remains' := sized'.openQty_fill (c := c) (Nat.min_le_right inc.openQty maker.openQty)
  simp only [createTrade,pointer,pointer',read,read',isPrice,if_neg priced,openQty_tracker sized,openQty_tracker sized',quantity,
    if_neg positive,fill_tracker sized (Nat.min_le_left _ _) c,fill_tracker sized' (Nat.min_le_right _ _) c,openQty_tracker (sized.fill _ _),
    openQty_tracker (sized'.fill _ _),remains,remains',Option.bind_eq_bind,Option.bind_some,TypedTape.push]
  rfl

/-- The loop queues the trades of the abstract book. -/
theorem matchRegularLoop_eq (conditions : UInt32) (makers : List SimpleOrder) :
    ∀ (inc : SimpleOrder) (k : TypedTape), inc.Sized → 1 ≤ inc.price →
    Priced orders taker inc → (∀ m ∈ makers, m.Sized ∧ Book.PlainOrder m ∧ m.isBuy = !inc.isBuy ∧ Priced orders (ptr m.orderId) m) →
    ∃ marketPrice left matched, matchRegularLoop orders inc.price k (inc.tracker taker conditions) (makers.map (SimpleOrder.entry ptr)) =
      some (⟨marketPrice,k.callbacks ++ (Matching.regular inc makers).trades.map (Trade.typed ptr taker)⟩,
        (Matching.regular inc makers).inc.tracker taker conditions,left,matched) := by
  induction makers with
  | nil =>
    intro inc k _ _ _ _
    exact ⟨k.marketPrice,[],false,by simp [matchRegularLoop,Matching.regular]⟩
  | cons maker rest ih =>
    intro inc k sized price known each
    obtain ⟨⟨sized',plain,apart,known'⟩,eachRest⟩ := List.forall_mem_cons.mp each
    have admits : (maker.entry ptr).1.admits inc.price = crosses maker inc := admits_eq apart plain.price.1 price
    by_cases stop : inc.openQty = 0 ∨ crosses maker inc = false
    · refine ⟨k.marketPrice,(maker :: rest).map (SimpleOrder.entry ptr),false,?_⟩
      rw [Matching.regular_stop rest stop,List.map_cons,matchRegularLoop,filled_tracker,admits]
      cases stop with
      | inl done => simp [done]
      | inr apart => simp [apart]
    · have needs : inc.openQty ≠ 0 := fun done => stop (.inl done)
      have crossed : crosses maker inc := by simpa using fun apart => stop (.inr apart)
      have regular : maker.allOrNone = false := plain.regular.1
      have opened : maker.openQty ≠ 0 := Nat.pos_iff_ne_zero.mp plain.opened
      have traded : min inc.openQty maker.openQty > 0 := by omega
      have created := createTrade_eq sized sized' known known' plain.price.1 needs opened conditions k
        (Market.cost maker (min inc.openQty maker.openQty))
      rw [Matching.regular_take rest needs crossed (by simp [regular])]
      generalize min inc.openQty maker.openQty = q at created traded ⊢
      obtain ⟨marketPrice,left,matched,looped⟩ := ih (inc.fill q (Market.cost maker q))
        ⟨maker.price,k.callbacks ++ [Trade.typed ptr taker ⟨inc,maker,q⟩]⟩ (sized.fill _ _) (by simpa using price)
        (by simpa [Priced] using known) (fun m member => by simpa using eachRest m member)
      rw [SimpleOrder.fill_price] at looped
      have created' : createTrade orders k (inc.tracker taker conditions) (maker.entry ptr).2 4294967295 = _ := created
      have notAon : (maker.entry ptr).2.allOrNone = false := allOrNone_tracker maker
      have queued : k.callbacks ++ [Trade.typed ptr taker ⟨inc,maker,q⟩] ++
          (Matching.regular (inc.fill q (Market.cost maker q)) rest).trades.map (Trade.typed ptr taker) =
          k.callbacks ++ ((Matching.regular (inc.fill q (Market.cost maker q)) rest).trade inc maker q).trades.map (Trade.typed ptr taker) := by
        simp [Matching.trade]
      simp only [List.map_cons,matchRegularLoop,filled_tracker,decide_eq_false needs,admits,crossed,notAon,created',looped,Option.bind_eq_bind,
        Option.bind_some,if_pos traded,queued]
      exact ⟨marketPrice,_,true,rfl⟩

end LiquibookDepth

namespace LiquibookAdapter
variable {a : LiquibookAdapter} {b : Book} {o : SimpleOrder} {t : TreeName} {p : Nat}

/-- The callbacks behind those of the trades, as the depth hears them. -/
def typedClosing (p : Nat) (o remainder : SimpleOrder) : List TypedCallback :=
  if o.immediateOrCancel ∧ remainder.openQty ≠ 0 then [.cancel p 0,.bookUpdate] else [.bookUpdate]

theorem Stands.addOrder_typed {lo : Order} {B : TypedBook} (stands : Stands a b) (plain : b.Plain) (incoming : b.Incoming o)
    (market : B.market (!o.isBuy) = (b.side o.opposite).map (SimpleOrder.entry a.ptr)) (read : a.all[a.ptr o.orderId]? = some lo)
    (isBuy : lo.isBuy = o.isBuy) (price : lo.price = o.price) :
    ∃ B' matched, B.addOrder a.all (o.tracker (a.ptr o.orderId) o.conditions) o.price =
        some (B',(b.pass o).inc.tracker (a.ptr o.orderId) o.conditions,matched) ∧
      B'.tape.callbacks = B.tape.callbacks ++ (b.pass o).trades.map (Trade.typed a.ptr (a.ptr o.orderId)) := by
  obtain ⟨sized,_,_,notAon,_⟩ := incoming.fields
  have isRegular : b.pass o = .regular o (b.side o.opposite) := by simp [Book.pass,Matching.against,notAon]
  have opposite := plain.plainSide o.opposite_cases
  obtain ⟨marketPrice,left,matched,looped⟩ := LiquibookDepth.matchRegularLoop_eq
    o.conditions (b.side o.opposite) o B.tape sized incoming.price ⟨lo,read,price⟩ fun m member => by
      obtain ⟨_,lo,read,mirrors⟩ := stands.shown _ m member
      exact ⟨opposite.sized m member,opposite.each m member,(opposite.isBuy m member).trans (decide_side o).2,lo,read,mirrors.price⟩
  rw [← isRegular] at looped
  have pointer : (o.tracker (a.ptr o.orderId) o.conditions).order = a.ptr o.orderId := rfl
  have notAon' : (o.tracker (a.ptr o.orderId) o.conditions).allOrNone = false := notAon
  simp only [TypedBook.addOrder,LiquibookDepth.matchOrder,pointer,read,isBuy,market,notAon',looped,Option.bind_eq_bind,Option.bind_some,
    Bool.false_eq_true,if_false]
  split_ifs
  · exact ⟨_,matched,rfl,congrArg TypedTape.callbacks (TypedBook.tape_withMarket ..)⟩
  · exact ⟨_,matched,rfl,rfl⟩

theorem Stands.add_typed {lo : Order} (stands : Stands a b) (plain : b.Plain) (incoming : b.Incoming o)
    (found : a.findOrder o.orderId = some p) (read : a.all[p]? = some lo) (fresh : Fresh lo o) (some : o.orderQty ≠ 0) :
    ∃ book, ((TypedBook.idle a.book).add a.all p o.conditions).map Prod.fst = .some book ∧
      book.tape.callbacks = .accept p (o.orderQty - (b.pass o).inc.openQty) :: (b.tradesOf o).map (Trade.typed a.ptr p) ++
        typedClosing p o (b.pass o).inc ∧ (a.book.add a.all p o.conditions).map Prod.fst = .some book.plain := by
  obtain rfl : a.ptr o.orderId = p := ptr_eq found
  obtain ⟨sized,isOpen,_⟩ := incoming.fields
  obtain ⟨same,sizedInc,isLeft⟩ := Book.pass_inc (b := b) sized
  have notReady : ¬ lo.orderQty = 0 := by
    rw [fresh.orderQty]
    exact some
  have makers : ((TypedBook.idle a.book).push (.accept (a.ptr o.orderId) 0)).market (!o.isBuy) = (b.side o.opposite).map (SimpleOrder.entry a.ptr) := by
    rw [← (decide_side o).2,← stands.market _ o.opposite_cases]
    cases decide (o.opposite = .bids) <;> rfl
  obtain ⟨B,matched,added,callbacks⟩ := stands.addOrder_typed plain incoming makers read fresh.isBuy fresh.price
  have added' : (a.book.push (.accept (a.ptr o.orderId))).addOrder a.all (o.tracker (a.ptr o.orderId) o.conditions) o.price =
      .some (B.plain,(b.pass o).inc.tracker (a.ptr o.orderId) o.conditions,matched) := by
    have erased := TypedBook.addOrder_plain ((TypedBook.idle a.book).push (.accept (a.ptr o.orderId) 0)) a.all
      (o.tracker (a.ptr o.orderId) o.conditions) o.price
    rw [added,TypedBook.plain_push,TypedBook.plain_idle stands.quiet] at erased
    exact erased.symm
  have trades : b.tradesOf o = (b.pass o).trades := if_neg some
  have tracker := fresh.tracker incoming (a.ptr o.orderId)
  have isIoc : ((b.pass o).inc.tracker (a.ptr o.orderId) o.conditions).immediateOrCancel = o.immediateOrCancel := rfl
  have filled : ((b.pass o).inc.tracker (a.ptr o.orderId) o.conditions).filled = decide ((b.pass o).inc.openQty = 0) := rfl
  have note : LiquibookDepth.filledQty ((b.pass o).inc.tracker (a.ptr o.orderId) o.conditions) lo = o.orderQty - (b.pass o).inc.openQty := by
    have less : (b.pass o).inc.openQty ≤ o.orderQty := by omega
    rw [LiquibookDepth.filledQty,openQty_tracker sizedInc,fresh.orderQty,← Int.ofNat_sub less]
    exact SimpleOrder.toU32_of_lt (Nat.lt_of_le_of_lt (Nat.sub_le ..) sized.orderQty)
  have queued : (B.setQuantity 0 (o.orderQty - (b.pass o).inc.openQty)).tape.callbacks =
      .accept (a.ptr o.orderId) (o.orderQty - (b.pass o).inc.openQty) :: (b.pass o).trades.map (Trade.typed a.ptr (a.ptr o.orderId)) := by
    show B.tape.callbacks.modify 0 _ = _
    rw [callbacks]
    rfl
  have erased := TypedBook.plain_setQuantity callbacks (o.orderQty - (b.pass o).inc.openQty)
  have none : (TypedBook.idle a.book).tape.callbacks.length = 0 := rfl
  simp only [TypedBook.add,OrderBook.add,read,if_neg notReady,fresh.stopPrice,tracker,fresh.price,added,added',isIoc,filled,note,none,trades,
    typedClosing,Option.bind_eq_bind,Option.bind_some]
  generalize B.setQuantity 0 (o.orderQty - (b.pass o).inc.openQty) = B' at queued erased ⊢
  by_cases residual : o.immediateOrCancel = true ∧ (b.pass o).inc.openQty ≠ 0
  · refine ⟨(B'.push (.cancel (a.ptr o.orderId) 0)).push .bookUpdate,by simp [residual],?_,?_⟩
    · simp [TypedBook.push,TypedTape.push,queued,residual]
    · simp [residual,erased,TypedCallback.plain]
  · refine ⟨B'.push .bookUpdate,by simp [residual],?_,?_⟩
    · rw [if_neg residual]
      simp [TypedBook.push,TypedTape.push,queued]
    · simp [residual,erased,TypedCallback.plain]

/-- The call finds the entry of the order, and the callback has what is open of it. -/
theorem Stands.cancel_typed (stands : Stands a b) (plain : b.Plain) (resting : t = .bids ∨ t = .asks) (member : o ∈ b.side t) :
    ∃ book, (TypedBook.idle a.book).cancel a.all (a.ptr o.orderId) = some book ∧
      book.tape.callbacks = [.cancel (a.ptr o.orderId) o.openQty,.bookUpdate] ∧
      a.book.cancel a.all (a.ptr o.orderId) = some book.plain := by
  obtain ⟨_,lo,read,mirrors⟩ := stands.shown t o member
  obtain ⟨L,R,split⟩ := List.append_of_mem member
  have side := plain.plainSide resting
  have isBuy : o.isBuy = decide (t = .bids) := side.isBuy o member
  have nodup := side.nodup
  rw [split] at side nodup
  have pointers : ∀ x ∈ L, a.ptr x.orderId ≠ a.ptr o.orderId := by
    intro x inLeft same
    have found := (stands.shown t x (by simp [split,inLeft])).1
    rw [same] at found
    exact ids_middle nodup x (List.mem_append_left _ inLeft) (stands.apart _ _ _ found (stands.shown t o member).1)
  have key : (⟨lo.isBuy,lo.price⟩ : ComparablePrice) = o.comparable := by rw [mirrors.isBuy,mirrors.price]; rfl
  have market : a.book.market lo.isBuy = (L ++ o :: R).map (SimpleOrder.entry a.ptr) := by
    rw [mirrors.isBuy,isBuy,stands.market t resting,split]
  have market' : (TypedBook.idle a.book).market lo.isBuy = (L ++ o :: R).map (SimpleOrder.entry a.ptr) := by
    rw [← market]
    cases lo.isBuy <;> rfl
  have entry : ((L ++ o :: R).map (SimpleOrder.entry a.ptr))[L.length]? = some (o.entry a.ptr) := by simp
  have isOpen : (o.entry a.ptr).2.openQty = o.openQty := openQty_tracker (side.sized o (by simp))
  have found := findOnMarket_entry resting side pointers
  refine ⟨(((TypedBook.idle a.book).withMarket lo.isBuy (((L ++ o :: R).map (SimpleOrder.entry a.ptr)).eraseIdx L.length)).push
    (.cancel (a.ptr o.orderId) o.openQty)).push .bookUpdate,?_,?_,?_⟩
  · simp only [TypedBook.cancel,read,key,market',found,entry,isOpen,Option.bind_eq_bind,Option.bind_some]
  · simp [TypedBook.push,TypedTape.push,TypedBook.tape_withMarket,TypedBook.idle]
  · have erased : ∀ m, ((TypedBook.idle a.book).withMarket lo.isBuy m).plain = a.book.withMarket lo.isBuy m := by
      intro m
      conv_rhs => rw [← TypedBook.plain_idle stands.quiet]
      cases lo.isBuy <;> rfl
    simp only [OrderBook.cancel,read,key,market,found,Option.bind_eq_bind,Option.bind_some,TypedBook.plain_push,erased,TypedCallback.plain]

end LiquibookAdapter

/-! ## What is performed -/

namespace Liquibook.Order

/-- What no callback changes. -/
def terms (lo : Order) : Bool × Nat × Nat := (lo.isBuy,lo.price,lo.orderQty)

theorem terms_fill (lo : Order) (q c : Nat) : (lo.fill q c).terms = lo.terms := by rw [fill_eq]; rfl

theorem terms_accept (lo : Order) : lo.accept.terms = lo.terms := by
  unfold accept
  split_ifs <;> rfl

theorem terms_cancel (lo : Order) : lo.cancel.terms = lo.terms := by
  unfold cancel
  split_ifs <;> rfl

end Liquibook.Order

namespace LiquibookDepth
variable {size : Nat}

/-- The objects have the same terms. -/
def SameTerms (all all' : List Order) : Prop := ∀ p : Nat, (all'[p]?).map Order.terms = (all[p]?).map Order.terms

theorem edit_terms {base base' : LiquibookAdapter} {order : Nat} {f : Order → Order} (terms : ∀ lo, (f lo).terms = lo.terms)
    (edited : base.edit order f = some base') : SameTerms base.all base'.all := by
  unfold LiquibookAdapter.edit at edited
  obtain ⟨lo,read,isEdit⟩ := Option.bind_eq_some_iff.mp edited
  obtain rfl := Option.some.inj isEdit
  intro p
  by_cases here : order = p
  · subst here
    show ((base.all.set order (f lo))[order]?).map _ = _
    rw [List.getElem?_set_self (List.getElem?_eq_some_iff.mp read).1,read]
    exact congrArg some (terms lo)
  · show ((base.all.set order (f lo))[p]?).map _ = _
    rw [List.getElem?_set_ne here]

theorem performCallback_terms {base base' : LiquibookAdapter} {cb : Callback} (performed : base.performCallback cb = some base') :
    SameTerms base.all base'.all := by
  cases cb with
  | accept order => exact edit_terms Order.terms_accept performed
  | cancel order => exact edit_terms Order.terms_cancel performed
  | reject order reason | cancelReject order reason | bookUpdate =>
    obtain rfl := Option.some.inj performed
    exact fun _ => rfl
  | fill order matchedOrder quantity price =>
    obtain ⟨a₁,told,performed₁⟩ := Option.bind_eq_some_iff.mp performed
    obtain ⟨a₂,edited,performed₂⟩ := Option.bind_eq_some_iff.mp performed₁
    have same : a₁.all = base.all := by
      unfold LiquibookAdapter.onFill at told
      split_ifs at told
      obtain ⟨_,_,told⟩ := Option.bind_eq_some_iff.mp told
      obtain ⟨_,_,told⟩ := Option.bind_eq_some_iff.mp told
      obtain ⟨_,_,told⟩ := Option.bind_eq_some_iff.mp told
      obtain ⟨_,_,told⟩ := Option.bind_eq_some_iff.mp told
      rw [← Option.some.inj told]
      rfl
    intro p
    rw [edit_terms (fun lo => Order.terms_fill lo _ _) performed₂ p,edit_terms (fun lo => Order.terms_fill lo _ _) edited p,same]

theorem terms_iff {lo lo' : Order} : lo'.terms = lo.terms ↔ lo'.isBuy = lo.isBuy ∧ lo'.price = lo.price ∧ lo'.orderQty = lo.orderQty := by
  simp [Order.terms]

/-- The same order in both tables, or none. -/
theorem SameTerms.read {all all' : List Order} (same : SameTerms all all') (p : Nat) :
    (all[p]? = none ∧ all'[p]? = none) ∨ ∃ lo lo', all[p]? = some lo ∧ all'[p]? = some lo' ∧
      lo'.isBuy = lo.isBuy ∧ lo'.price = lo.price ∧ lo'.orderQty = lo.orderQty ∧ isLimit lo' = isLimit lo := by
  have here := same p
  cases read : all[p]? with
  | none =>
    rw [read] at here
    exact .inl ⟨rfl,Option.map_eq_none_iff.mp here⟩
  | some lo =>
    rw [read] at here
    obtain ⟨lo',read',terms⟩ := Option.map_eq_some_iff.mp here
    obtain ⟨isBuy,price,orderQty⟩ := terms_iff.mp terms
    exact .inr ⟨lo,lo',rfl,read',isBuy,price,orderQty,by rw [isLimit,isLimit,price]⟩

namespace Depth

/-- The depth is told the callbacks of a call. -/
def hearAll (d : Depth size) (all : List Order) : List TypedCallback → Ending (Depth size) Unit
  | [] => .returned d ()
  | cb :: cbs => (d.hear all cb).andThen fun d => hearAll d all cbs

/-- The depth reads the terms of orders only. -/
theorem hear_congr {all all' : List Order} (same : SameTerms all all') (d : Depth size) (cb : TypedCallback) : d.hear all' cb = d.hear all cb := by
  cases cb with
  | accept order quantity =>
    rcases same.read order with ⟨none,none'⟩ | ⟨lo,lo',read,read',isBuy,price,orderQty,limit⟩
    · simp only [hear,none,none']
    · simp only [hear,read,read',onAccept,limit,isBuy,price,orderQty]
  | fill order matchedOrder quantity price flags =>
    rcases same.read order with ⟨none,none'⟩ | ⟨lo,lo',read,read',isBuy,price,orderQty,limit⟩
    · simp only [hear,none,none']
    · rcases same.read matchedOrder with ⟨none,none'⟩ | ⟨lo₂,lo₂',read₂,read₂',isBuy₂,price₂,_,limit₂⟩
      · simp only [hear,read,read',none,none']
      · simp only [hear,read,read',read₂,read₂',onFill,limit,limit₂,isBuy,price,isBuy₂,price₂]
  | cancel order quantity =>
    rcases same.read order with ⟨none,none'⟩ | ⟨lo,lo',read,read',isBuy,price,orderQty,limit⟩
    · simp only [hear,none,none']
    · simp only [hear,read,read',onCancel,limit,isBuy,price]
  | reject order reason | cancelReject order reason | bookUpdate => rfl

end Depth

namespace DepthAdapter
variable {a : DepthAdapter size} {base : LiquibookAdapter} {depth : Depth size}

/-- Where the depth throws nothing, the callbacks are performed as without depth. -/
theorem performAll {all : List Order} (cbs : List TypedCallback) : ∀ (a : DepthAdapter size) (base : LiquibookAdapter), SameTerms all a.base.all →
    a.depth.hearAll all cbs = .returned depth () → (cbs.map TypedCallback.plain).foldlM LiquibookAdapter.performCallback a.base = some base →
    cbs.foldlM performCallback a = some ⟨base,depth,a.caught⟩ := by
  induction cbs with
  | nil =>
    intro a base _ heard performed
    simp only [Depth.hearAll,Ending.returned.injEq] at heard
    obtain rfl : a.base = base := Option.some.inj performed
    rw [← heard.1]
    rfl
  | cons cb cbs ih =>
    intro a base same heard performed
    rw [List.map_cons,List.foldlM_cons] at performed
    obtain ⟨base₁,performed₁,performed⟩ := Option.bind_eq_some_iff.mp performed
    unfold Depth.hearAll at heard
    rw [← Depth.hear_congr same] at heard
    cases first : a.depth.hear a.base.all cb with
    | thrown what left => simp [first,Ending.andThen] at heard
    | undefined => simp [first,Ending.andThen] at heard
    | returned depth₁ value =>
      rw [first] at heard
      have performed₁' : a.performCallback cb = some ⟨base₁,depth₁,a.caught⟩ := by
        simp only [performCallback,first,performed₁,Option.bind_eq_bind,Option.bind_some]
      rw [List.foldlM_cons,performed₁']
      exact ih ⟨base₁,depth₁,a.caught⟩ base (fun p => (performCallback_terms performed₁ p).trans (same p)) heard performed

theorem callBook_eq {f : TypedBook → List Order → Option TypedBook} {g : OrderBook → List Order → Option OrderBook} {book : TypedBook}
    (called : f (.idle a.base.book) a.base.all = some book) (erased : g a.base.book a.base.all = some book.plain)
    (plain : a.base.callBook g = some base) (heard : a.depth.hearAll a.base.all book.tape.callbacks = .returned depth ()) :
    a.callBook f = some ⟨base,depth,a.caught⟩ := by
  rw [LiquibookAdapter.callBook_eq erased] at plain
  rw [callBook,called]
  exact performAll book.tape.callbacks _ base (fun _ => rfl) heard plain

end DepthAdapter

end LiquibookDepth

end BaboEngine
