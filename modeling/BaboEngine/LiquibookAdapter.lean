import BaboEngine.BabobookAdapter
import BaboEngine.Liquibook

/-!
# The liquibook adapter

The functions follow `liquibook_adapter.cpp`, and the callbacks the `NoDepthBook` of
`liqui_book_type.h`. The adapter keeps the orders itself; the book knows them by pointer,
and hears of the ids of the messages nowhere. An access past the end of a table is `none`.
-/

namespace BaboEngine
open Liquibook

/-- `std::vector` with its size and slots. -/
structure Table (α : Type) where
  size : Nat
  slot : Nat → α

namespace Table
variable {α : Type}

def get? (v : Table α) (i : Nat) : Option α := if i < v.size then some (v.slot i) else none

def set? (v : Table α) (i : Nat) (x : α) : Option (Table α) :=
  if i < v.size then some { v with slot := Function.update v.slot i x } else none

/-- The new slots hold `x`. -/
def resize (v : Table α) (n : Nat) (x : α) : Table α := ⟨n,fun i => if i < v.size then v.slot i else x⟩

end Table

structure LiquibookAdapter where
  book : OrderBook
  /-- `g_all`, where pointers point to. -/
  all : List Order
  /-- The counter of the class of the orders. -/
  lastOrderId : Nat
  orders : Table (Option Nat)
  lb2ext : Table Nat
  lbBuilt : Nat
  seq : Nat
  filled : Nat
  reports : List Report

namespace LiquibookAdapter

/-- `engine_init`, in a process that has made no order yet. -/
def engineInit : LiquibookAdapter := ⟨.new,[],0,⟨2097152,fun _ => none⟩,⟨2097152,fun _ => 0⟩,0,0,0,[]⟩

def pushReport (a : LiquibookAdapter) (r : Report) : LiquibookAdapter := { a with reports := a.reports ++ [r] }

def emitAck (a : LiquibookAdapter) (type : ReportType) (seq orderId side : Nat) (price : Int) (qty : Nat) : LiquibookAdapter :=
  a.pushReport { Report.ofType type with
    sequenceNumber := seq
    orderId := orderId
    side := side
    priceTicks := price
    quantity := qty }

/-- `Listener::on_fill`; it divides by the quantity. -/
def onFill (a : LiquibookAdapter) (taker maker qty cost : Nat) : Option LiquibookAdapter :=
  if qty = 0 then none
  else do
    let makerOrder ← a.all[maker]?
    let takerOrder ← a.all[taker]?
    let makerId ← a.lb2ext.get? makerOrder.orderId
    let takerId ← a.lb2ext.get? takerOrder.orderId
    let a := a.pushReport { Report.ofType .trade with
      sequenceNumber := a.seq
      priceTicks := (cost / qty : Nat)
      quantity := qty
      makerOrderId := makerId
      takerOrderId := takerId }
    some { a with filled := toU64 (a.filled + qty) }

/-- What is done to the order that a pointer points to. -/
def edit (a : LiquibookAdapter) (order : Nat) (f : Order → Order) : Option LiquibookAdapter := do
  let o ← a.all[order]?
  some { a with all := a.all.set order (f o) }

/-- `NoDepthBook::perform_callback`; the listener comes first. -/
def performCallback (a : LiquibookAdapter) : Callback → Option LiquibookAdapter
  | .accept order => a.edit order Order.accept
  | .fill order matchedOrder quantity price => do
    let a ← a.onFill order matchedOrder quantity (toU32 ((price : Int) * quantity))
    let fillCost := toU32 ((quantity : Int) * price)
    let a ← a.edit matchedOrder fun o => o.fill quantity fillCost
    a.edit order fun o => o.fill quantity fillCost
  | .cancel order => a.edit order Order.cancel
  | .reject _ _ | .cancelReject _ _ | .bookUpdate => some a

/-- `callback_now`; the callbacks queue no further ones. -/
def callbackNow (a : LiquibookAdapter) : Option LiquibookAdapter :=
  a.book.tape.callbacks.foldlM performCallback { a with book := { a.book with tape := { a.book.tape with callbacks := [] } } }

/-- A call of the book, up to its callbacks and with them. -/
def callBook (a : LiquibookAdapter) (f : OrderBook → List Order → Option OrderBook) : Option LiquibookAdapter := do
  let book ← f a.book a.all
  callbackNow { a with book := book }

def resting (o : Order) : Bool := o.state = .osAccepted ∧ o.openQty > 0

/-- `find_order`, a checked lookup. -/
def findOrder (a : LiquibookAdapter) (extId : Nat) : Option Nat := (a.orders.get? extId).join

/-- The order of an id, if it is resting. -/
def findResting (a : LiquibookAdapter) (extId : Nat) : Option (Option (Nat × Order)) :=
  match a.findOrder extId with
  | none => some none
  | some lo => do
    let o ← a.all[lo]?
    some (if resting o then some (lo,o) else none)

def makeOrder (a : LiquibookAdapter) (isBuy : Bool) (price qty cond : UInt32) : LiquibookAdapter × Nat :=
  let orderId := toU32 (a.lastOrderId + 1)
  ({ a with all := a.all ++ [.new isBuy price qty 0 cond orderId], lastOrderId := orderId },a.all.length)

def mapLbId (a : LiquibookAdapter) (lo extId : Nat) : Option LiquibookAdapter := do
  let o ← a.all[lo]?
  let lb2ext ← a.lb2ext.set? o.orderId extId
  some { a with lb2ext := lb2ext }

/-- What a new and a modify do alike: an order is built, indexed and added to the book. -/
def enter (a : LiquibookAdapter) (isBuy : Bool) (price qty cond : UInt32) (extId : Nat) : Option LiquibookAdapter := do
  let (a,lo) := a.makeOrder isBuy price qty cond
  let a ← a.mapLbId lo extId
  let orders ← a.orders.set? extId (some lo)
  { a with orders := orders }.callBook fun b all => (b.add all lo cond).map Prod.fst

def engineOnNewOrder (a : LiquibookAdapter) (o : NewOrder) : Option LiquibookAdapter := do
  let a := { a with seq := o.sequenceNumber.toNat, filled := 0 }
  let a := a.emitAck .orderAck o.sequenceNumber.toNat o.orderId.toNat o.side.toNat o.priceTicks.toInt o.quantity.toNat
  let cond := if o.ioc ≠ 0 then ocImmediateOrCancel else ocNoConditions
  let a ← a.enter (o.side = 0) (castU32 o.priceTicks.toInt) o.quantity cond o.orderId.toNat
  if o.ioc ≠ 0 ∧ a.filled < o.quantity.toNat then
    some (a.emitAck .cancelAck o.sequenceNumber.toNat o.orderId.toNat o.side.toNat o.priceTicks.toInt
      (toU32 (o.quantity.toNat - a.filled)))
  else some a

def engineOnCancel (a : LiquibookAdapter) (c : CancelOrder) : Option LiquibookAdapter := do
  match ← a.findResting c.orderId.toNat with
  | some (lo,o) => do
    let a ← a.callBook (·.cancel · lo)
    some (a.emitAck .cancelAck c.sequenceNumber.toNat c.orderId.toNat (if o.isBuy then 0 else 1) o.price 0)
  | none => some (a.emitAck .cancelReject c.sequenceNumber.toNat c.orderId.toNat 0 0 0)

def engineOnModify (a : LiquibookAdapter) (m : ModifyOrder) : Option LiquibookAdapter := do
  let a := { a with seq := m.sequenceNumber.toNat, filled := 0 }
  match ← a.findResting m.orderId.toNat with
  | some (lo,_) => do
    let a ← a.callBook (·.cancel · lo)
    let a ← a.enter (m.side = 0) (castU32 m.newPriceTicks.toInt) m.newQuantity ocNoConditions m.orderId.toNat
    some (a.emitAck .modifyAck m.sequenceNumber.toNat m.orderId.toNat m.side.toNat m.newPriceTicks.toInt m.newQuantity.toNat)
  | none => some (a.emitAck .modifyReject m.sequenceNumber.toNat m.orderId.toNat 0 0 0)

/-- The dispatch of `engine_on_batch`. -/
def step (a : LiquibookAdapter) : Message → Option LiquibookAdapter
  | .newOrder o => a.engineOnNewOrder o
  | .cancel c => a.engineOnCancel c
  | .modify m => a.engineOnModify m

/-- Room for the label of one more order. -/
def countBuilt (a : LiquibookAdapter) : LiquibookAdapter :=
  let lbBuilt := a.lbBuilt + 1
  if lbBuilt ≥ a.lb2ext.size then
    { a with lbBuilt := lbBuilt, lb2ext := a.lb2ext.resize (max (a.lb2ext.size * 2) (lbBuilt + 1)) 0 }
  else { a with lbBuilt := lbBuilt }

/-- Room for an id. -/
def makeRoom (a : LiquibookAdapter) (orderId : Nat) : LiquibookAdapter :=
  if orderId ≥ a.orders.size then { a with orders := a.orders.resize (max (a.orders.size * 2) (orderId + 1)) none } else a

/-- `engine_prebuild`. -/
def enginePrebuild (a : LiquibookAdapter) : Message → LiquibookAdapter
  | .cancel _ => a
  | .newOrder o => (a.makeRoom o.orderId.toNat).countBuilt
  | .modify _ => a.countBuilt

/-! ## Queries -/

def engineQueryBestBid (a : LiquibookAdapter) : Int :=
  match a.book.bids with
  | [] => BabobookAdapter.int64Min
  | entry :: _ => entry.1.price

def engineQueryBestAsk (a : LiquibookAdapter) : Int :=
  match a.book.asks with
  | [] => BabobookAdapter.int64Max
  | entry :: _ => entry.1.price

def engineQueryDepthAt (a : LiquibookAdapter) (priceTicks : Int) (side : UInt8) : Nat :=
  ((a.book.market (side = 0)).equalRange ⟨side = 0,toU32 priceTicks⟩).foldl (fun total entry => toU64 (total + entry.2.openQty)) 0

end LiquibookAdapter

end BaboEngine
