import BaboEngine.BabobookAdapter
import BaboEngine.Conservation

/-!
# What a message does to a book

The answer of the abstract book to a message: the orders it leaves and the reports. The
messages never park a stop and never bring an all-or-none order, so a book that they have
made is plain: nothing on it but open orders without conditions.
-/

namespace BaboEngine
open Simulation

theorem SimpleOrder.openQty_new (isBuy : Bool) (price qty stopPrice conditions orderId : UInt32) :
    (SimpleOrder.new isBuy price qty stopPrice conditions orderId).openQty = qty.toNat :=
  (sized_new ..).openQty

/-- The report of a trade. -/
def Trade.report (seq : Nat) (t : Trade) : Report := { Report.ofType .trade with
  sequenceNumber := seq
  priceTicks := (Market.cost t.maker t.qty / t.qty : Nat)
  quantity := t.qty
  makerOrderId := t.maker.orderId
  takerOrderId := t.taker.orderId }

/-- Any other report. -/
def Report.ack (type : ReportType) (seq orderId side : Nat) (price : Int) (qty : Nat) : Report := { Report.ofType type with
  sequenceNumber := seq
  orderId := orderId
  side := side
  priceTicks := price
  quantity := qty }

/-- The quantity of some trades. -/
def traded (ts : List Trade) : Nat := (ts.map Trade.qty).sum

namespace Book

/-- The resting order of an id. -/
def findResting (b : Book) (id : Nat) : Option SimpleOrder :=
  match b.find .bids id with
  | some o => some o
  | none => b.find .asks id

/-- The trades of an order that is added. -/
def tradesOf (b : Book) (o : SimpleOrder) : List Trade := if o.orderQty = 0 then [] else (b.pass o).trades

def answerNewOrder (b : Book) (o : NewOrder) : Book × List Report :=
  let filled := traded (b.tradesOf o.order)
  let residual := if o.ioc ≠ 0 ∧ filled < o.quantity.toNat then
      [Report.ack .cancelAck o.sequenceNumber.toNat o.orderId.toNat o.side.toNat o.priceTicks.toInt (o.quantity.toNat - filled)]
    else []
  (b.add o.order,.ack .orderAck o.sequenceNumber.toNat o.orderId.toNat o.side.toNat o.priceTicks.toInt o.quantity.toNat ::
    (b.tradesOf o.order).map (Trade.report o.sequenceNumber.toNat) ++ residual)

def answerCancel (b : Book) (c : CancelOrder) : Book × List Report :=
  match b.findResting c.orderId.toNat with
  | some o => (b.cancel c.orderId.toNat,[.ack .cancelAck c.sequenceNumber.toNat c.orderId.toNat (if o.isBuy then 0 else 1) o.price 0])
  | none => (b,[.ack .cancelReject c.sequenceNumber.toNat c.orderId.toNat 0 0 0])

def answerModify (b : Book) (m : ModifyOrder) : Book × List Report :=
  match b.findResting m.orderId.toNat with
  | some _ =>
    let b := b.cancel m.orderId.toNat
    (b.add m.order,(b.tradesOf m.order).map (Trade.report m.sequenceNumber.toNat) ++
      [.ack .modifyAck m.sequenceNumber.toNat m.orderId.toNat m.side.toNat m.newPriceTicks.toInt m.newQuantity.toNat])
  | none => (b,[.ack .modifyReject m.sequenceNumber.toNat m.orderId.toNat 0 0 0])

def answer (b : Book) : Message → Book × List Report
  | .newOrder o => b.answerNewOrder o
  | .cancel c => b.answerCancel c
  | .modify m => b.answerModify m

/-! ## Plain books -/

/-- What holds of every order that rests. -/
structure PlainOrder (o : SimpleOrder) : Prop where
  conditions : o.conditions = ocNoConditions
  opened : 0 < o.openQty
  price : 1 ≤ o.price ∧ o.price < 4294967296
  orderId : o.orderId < 4294967296

structure Plain (b : Book) : Prop where
  orderly : Orderly b []
  noStops : ∀ t, t = .stopBids ∨ t = .stopAsks → b.side t = []
  each : ∀ t, ∀ o ∈ b.side t, PlainOrder o

/-- An order that a message brings to a book. -/
structure Incoming (b : Book) (o : SimpleOrder) : Prop where
  isNew : ∃ isBuy price qty conditions orderId, o = .new isBuy price qty 0 conditions orderId ∧
    (conditions = ocNoConditions ∨ conditions = ocImmediateOrCancel)
  price : 1 ≤ o.price
  absent : ∀ t, o.orderId ∉ ids (b.side t)

variable {b : Book} {o x : SimpleOrder} {t : TreeName} {id : Nat}

theorem PlainOrder.regular (plain : PlainOrder o) : o.allOrNone = false ∧ o.immediateOrCancel = false := by
  simp [SimpleOrder.allOrNone,SimpleOrder.immediateOrCancel,plain.conditions,ocNoConditions]

theorem Incoming.fields (incoming : Incoming b o) : o.Sized ∧ o.openQty = o.orderQty ∧ o.stopPrice = 0 ∧ o.allOrNone = false ∧
    (o.immediateOrCancel = false → o.conditions = ocNoConditions) ∧ o.price < 4294967296 ∧ o.orderId < 4294967296 := by
  obtain ⟨isBuy,price,qty,conditions,orderId,rfl,isKind⟩ := incoming.isNew
  refine ⟨SimpleOrder.sized_new ..,SimpleOrder.openQty_new ..,rfl,?_,?_,UInt32.toNat_lt price,UInt32.toNat_lt orderId⟩
  · rcases isKind with rfl | rfl
    · simp [SimpleOrder.allOrNone,SimpleOrder.new,ocNoConditions]
    · simpa [SimpleOrder.allOrNone,SimpleOrder.new] using (by decide : ocImmediateOrCancel &&& ocAllOrNone = 0)
  · rcases isKind with rfl | rfl <;> simp [SimpleOrder.immediateOrCancel,SimpleOrder.new,ocNoConditions,ocImmediateOrCancel]

theorem Incoming.orderly (incoming : Incoming b o) (plain : Plain b) (some : o.orderQty ≠ 0) :
    Orderly (b.emit (.onAccept o.orderId)) [o] := by
  obtain ⟨isBuy,price,qty,conditions,orderId,rfl,_⟩ := incoming.isNew
  exact orderly_absent.arrive b isBuy price qty 0 conditions orderId incoming.absent some trivial plain.orderly

theorem processTriggered_of_none (none : b.dueBuys ++ b.dueSells = []) : b.processTriggered = b := by
  rw [processTriggered,processTriggeredLoop,if_pos (by simp [none])]

theorem Incoming.add_eq (incoming : Incoming b o) (plain : Plain b) : b.add o =
    if o.orderQty = 0 then b.emit (.onReject o.orderId "size must be positive") else (b.emit (.onAccept o.orderId)).submit o := by
  obtain ⟨sized,_,noStop,_⟩ := incoming.fields
  have parked : ∀ t, t = .stopBids ∨ t = .stopAsks → ((b.emit (.onAccept o.orderId)).submit o).side t = [] :=
    fun t stop => (submit_stops sized stop).trans (plain.noStops t stop)
  have none : ((b.emit (.onAccept o.orderId)).submit o).dueBuys ++ ((b.emit (.onAccept o.orderId)).submit o).dueSells = [] := by
    rw [dueBuys,dueSells,parked _ (.inl rfl),parked _ (.inr rfl)]
    rfl
  have goesLive : ¬ (o.stopPrice ≠ 0 ∧ (b.emit (.onAccept o.orderId)).isStopped o = true) := fun stops => stops.1 noStop
  simp only [add,if_neg goesLive,processTriggered_of_none none]

/-! ## The trades of an incoming order -/

theorem Incoming.tradesOf (incoming : Incoming b o) (plain : Plain b) {t : Trade} (member : t ∈ b.tradesOf o) :
    t.maker ∈ b.side o.opposite ∧ 0 < t.qty ∧ t.qty ≤ t.maker.openQty ∧ t.taker.orderId = o.orderId := by
  unfold Book.tradesOf at member
  split_ifs at member with empty
  · simp at member
  · have orderly := incoming.orderly plain empty
    obtain ⟨_,fits,_,positive⟩ := Matching.allot_taken _ _ (orderly.mem_trades member) rfl
    have inMakers : t.maker ∈ b.side o.opposite := by
      rw [← Matching.allot_makers o (b.side o.opposite) o.openQty]
      exact List.mem_map_of_mem (orderly.mem_trades member)
    have taker := (Matching.commit_takers _ orderly.handSized (Matching.total_takes_le o _) t (orderly.pass_eq ▸ member)).1
    exact ⟨inMakers,positive (plain.each _ _ inMakers).opened,fits,taker.orderId⟩

theorem Incoming.traded_eq (incoming : Incoming b o) (plain : Plain b) : traded (b.tradesOf o) =
    if o.orderQty = 0 then 0 else Matching.total (Matching.takes o (b.side o.opposite)) := by
  unfold Book.tradesOf
  split_ifs with empty
  · rfl
  · have pairs : (b.pass o).trades.map (fun t => (t.maker,t.qty)) = _ := (incoming.orderly plain empty).pass_trades
    have quantities := congrArg (List.map Prod.snd) pairs
    rw [List.map_map] at quantities
    exact (congrArg List.sum quantities).trans (Matching.total_eq _).symm

theorem Incoming.traded_le (incoming : Incoming b o) (plain : Plain b) : traded (b.tradesOf o) ≤ o.orderQty := by
  rw [incoming.traded_eq plain,← incoming.fields.2.1]
  split_ifs
  · exact Nat.zero_le _
  · exact Matching.total_takes_le o _

theorem Incoming.events (incoming : Incoming b o) (plain : Plain b) : ∃ e, e.isFill = false ∧
    (b.add o).market.events = b.market.events ++ e :: (b.tradesOf o).map Trade.event := by
  rw [incoming.add_eq plain,Book.tradesOf]
  split_ifs
  · exact ⟨_,rfl,rfl⟩
  · refine ⟨.onAccept o.orderId,rfl,?_⟩
    rw [events_submit]
    exact List.append_assoc ..

/-! ## What a message leaves -/

theorem Incoming.plain (incoming : Incoming b o) (plain : Plain b) : Plain (b.add o) := by
  obtain ⟨sized,_,_,_,isPlain,price,orderId⟩ := incoming.fields
  rw [incoming.add_eq plain]
  split_ifs with empty
  · exact ⟨orderly_absent.emit _ _ _ rfl trivial plain.orderly,plain.noStops,plain.each⟩
  · have orderly := incoming.orderly plain empty
    refine ⟨orderly.submit,fun t stop => (submit_stops sized stop).trans (plain.noStops t stop),?_⟩
    intro t x member
    rcases mem_submit sized member with old | ⟨_,m,old,q,_,rfl,opened⟩ | ⟨_,rfl,_,rests,opened⟩
    · exact plain.each t x old
    · obtain ⟨conditions,_,price,orderId⟩ := plain.each t m old
      exact ⟨by simpa using conditions,by omega,by simpa using price,by simpa using orderId⟩
    · have same := (pass_inc (b := b.emit (.onAccept o.orderId)) sized).1
      refine ⟨?_,opened,?_,?_⟩
      · rw [same.conditions]
        rw [same.immediateOrCancel] at rests
        exact isPlain (by simpa using rests)
      · rw [same.price]
        exact ⟨incoming.price,price⟩
      · rw [same.orderId]
        exact orderId

theorem Plain.cancel (plain : Plain b) (member : o ∈ b.side t) : b.cancel o.orderId = (b.eraseFrom t o.orderId).emit (.onCancel o.orderId) ∧
    Plain (b.cancel o.orderId) := by
  have cancelIs := plain.orderly.cancel_eq member
  refine ⟨cancelIs,?_⟩
  rw [cancelIs]
  refine ⟨orderly_absent.emit _ _ _ rfl trivial (orderly_absent.erase b t o member trivial plain.orderly),?_,?_⟩
  · intro t' stop
    have none := b.sublist_eraseFrom t t' o.orderId
    rw [plain.noStops t' stop] at none
    exact List.eq_nil_of_sublist_nil none
  · exact fun t' x inSide => plain.each t' x ((b.sublist_eraseFrom t t' o.orderId).subset inSide)

end Book

end BaboEngine
