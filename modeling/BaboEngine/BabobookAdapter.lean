import BaboEngine.EngineApi
import BaboEngine.MatchingBook

/-!
# The babobook adapter

The functions follow `babobook_adapter.cpp`. The book calls its listener during `add`; as
the calls are kept in the journal of the book, the listener reads there those of the
last call. The transport accepts every report.
-/

namespace BaboEngine

/-- The native order of a message, stamped with its id. -/
def NewOrder.order (o : NewOrder) : SimpleOrder :=
  .new (o.side = 0) (castU32 o.priceTicks.toInt) o.quantity 0 (if o.ioc ≠ 0 then ocImmediateOrCancel else ocNoConditions)
    (castU32 o.orderId.toNat)

def ModifyOrder.order (m : ModifyOrder) : SimpleOrder :=
  .new (m.side = 0) (castU32 m.newPriceTicks.toInt) m.newQuantity 0 ocNoConditions (castU32 m.orderId.toNat)

structure BabobookAdapter (N : Capacity) where
  book : MatchingBook N
  seq : Nat
  filled : Nat
  reports : List Report

namespace BabobookAdapter
variable {N : Capacity}

/-- `engine_init`, with the pools as they are. -/
def engineInit (h : Heap N) : BabobookAdapter N := ⟨.start h,0,0,[]⟩

def pushReport (a : BabobookAdapter N) (r : Report) : BabobookAdapter N := { a with reports := a.reports ++ [r] }

def emitAck (a : BabobookAdapter N) (type : ReportType) (seq orderId side : Nat) (price : Int) (qty : Nat) : BabobookAdapter N :=
  a.pushReport { Report.ofType type with
    sequenceNumber := seq
    orderId := orderId
    side := side
    priceTicks := price
    quantity := qty }

/-- `Listener::on_fill`; it divides by the quantity. -/
def onFill (a : BabobookAdapter N) (taker maker qty cost : Nat) : Option (BabobookAdapter N) :=
  if qty = 0 then none
  else
    let a := a.pushReport { Report.ofType .trade with
      sequenceNumber := a.seq
      priceTicks := (cost / qty : Nat)
      quantity := qty
      makerOrderId := maker
      takerOrderId := taker }
    some { a with filled := toU64 (a.filled + qty) }

/-- The listener; only `on_fill` does something. -/
def listen (a : BabobookAdapter N) : OrderEvent → Option (BabobookAdapter N)
  | .onFill taker maker qty cost => a.onFill taker maker qty cost
  | _ => some a

/-- A call of the book, with what its listener does meanwhile. -/
def callBook (a : BabobookAdapter N) (f : MatchingBook N → Option (MatchingBook N)) : Option (BabobookAdapter N) := do
  let book ← f a.book
  (book.market.events.drop a.book.market.events.length).foldlM listen { a with book := book }

/-- The resting order of an id, and whether it is a bid. -/
def findResting (a : BabobookAdapter N) (id : Nat) : Option (Option (SimpleOrder × Bool)) := do
  match ← (a.book.on .bids).findOrder id with
  | some o => some (some (o,true))
  | none =>
    match ← (a.book.on .asks).findOrder id with
    | some o => some (some (o,false))
    | none => some none

def engineOnNewOrder (a : BabobookAdapter N) (o : NewOrder) : Option (BabobookAdapter N) := do
  let a := { a with seq := o.sequenceNumber.toNat, filled := 0 }
  let a := a.emitAck .orderAck o.sequenceNumber.toNat o.orderId.toNat o.side.toNat o.priceTicks.toInt o.quantity.toNat
  let a ← a.callBook (·.add o.order)
  if o.ioc ≠ 0 ∧ a.filled < o.quantity.toNat then
    some (a.emitAck .cancelAck o.sequenceNumber.toNat o.orderId.toNat o.side.toNat o.priceTicks.toInt
      (toU32 (o.quantity.toNat - a.filled)))
  else some a

def engineOnCancel (a : BabobookAdapter N) (c : CancelOrder) : Option (BabobookAdapter N) := do
  let id := (castU32 c.orderId.toNat).toNat
  match ← a.findResting id with
  | some (o,isBuy) => do
    let a ← a.callBook (·.cancel id)
    some (a.emitAck .cancelAck c.sequenceNumber.toNat c.orderId.toNat (if isBuy then 0 else 1) o.price 0)
  | none => some (a.emitAck .cancelReject c.sequenceNumber.toNat c.orderId.toNat 0 0 0)

def engineOnModify (a : BabobookAdapter N) (m : ModifyOrder) : Option (BabobookAdapter N) := do
  let a := { a with seq := m.sequenceNumber.toNat, filled := 0 }
  let id := (castU32 m.orderId.toNat).toNat
  match ← a.findResting id with
  | some _ => do
    let a ← a.callBook (·.cancel id)
    let a ← a.callBook (·.add m.order)
    some (a.emitAck .modifyAck m.sequenceNumber.toNat m.orderId.toNat m.side.toNat m.newPriceTicks.toInt m.newQuantity.toNat)
  | none => some (a.emitAck .modifyReject m.sequenceNumber.toNat m.orderId.toNat 0 0 0)

/-- The dispatch of `engine_on_batch`. -/
def step (a : BabobookAdapter N) : Message → Option (BabobookAdapter N)
  | .newOrder o => a.engineOnNewOrder o
  | .cancel c => a.engineOnCancel c
  | .modify m => a.engineOnModify m

/-! ## Queries -/

/-- The price at the best level of a tree, or what stands for none. -/
def bestOr (s : TreeState N) (none : Int) : Option Int :=
  match s.best with
  | some lvl => (s.level lvl).map fun d => (d.price : Int)
  | .none => some none

def int64Min : Int := -9223372036854775808
def int64Max : Int := 9223372036854775807

def engineQueryBestBid (a : BabobookAdapter N) : Option Int := bestOr (a.book.on .bids) int64Min

def engineQueryBestAsk (a : BabobookAdapter N) : Option Int := bestOr (a.book.on .asks) int64Max

/-- The loop over the orders of a tree: `total += it->open_qty()` at the price. -/
def sumAt (price : Nat) (os : List SimpleOrder) : Nat :=
  os.foldl (fun total o => if o.price = price then toU64 (total + o.openQty) else total) 0

def engineQueryDepthAt (a : BabobookAdapter N) (priceTicks : Int) (side : UInt8) : Option Nat :=
  ((a.book.on (if side = 0 then .bids else .asks)).orders).map (sumAt (toU32 priceTicks))

end BabobookAdapter

end BaboEngine
