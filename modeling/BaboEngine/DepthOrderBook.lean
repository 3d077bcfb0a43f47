import BaboEngine.LiquibookAdapter
import BaboEngine.LiquibookDepth

/-!
# The liquibook adapter with depth

What the adapter is in the default build, where the book is a `SimpleOrderBook`: the depth hears of a callback before
the listener does (`depth_order_book.h`), so the callbacks have the quantities and the flags that it reads. What the
depth throws ends the callback, and `callback_now` catches it. Nobody listens to the depth.
-/

namespace BaboEngine.LiquibookDepth
open Liquibook

/-! ## Callbacks -/

def ffNeitherFilled : UInt8 := 0
def ffInboundFilled : UInt8 := 1
def ffMatchedFilled : UInt8 := 2
def ffBothFilled : UInt8 := 4

/-- `Callback`, with its quantity and its flags. -/
inductive TypedCallback where
  | accept (order quantity : Nat)
  | reject (order : Nat) (rejectReason : String)
  | fill (order matchedOrder quantity price : Nat) (flags : UInt8)
  | cancel (order quantity : Nat)
  | cancelReject (order : Nat) (rejectReason : String)
  | bookUpdate
deriving DecidableEq

namespace TypedCallback

/-- The quantity is written. -/
def setQuantity (quantity : Nat) : TypedCallback → TypedCallback
  | accept order _ => accept order quantity
  | fill order matchedOrder _ price flags => fill order matchedOrder quantity price flags
  | cancel order _ => cancel order quantity
  | cb => cb

/-- What it is without depth. -/
def plain : TypedCallback → Callback
  | accept order _ => .accept order
  | reject order rejectReason => .reject order rejectReason
  | fill order matchedOrder quantity price _ => .fill order matchedOrder quantity price
  | cancel order _ => .cancel order
  | cancelReject order rejectReason => .cancelReject order rejectReason
  | bookUpdate => .bookUpdate

end TypedCallback

/-- The market price and the queued callbacks. -/
structure TypedTape where
  marketPrice : Nat
  callbacks : List TypedCallback
deriving DecidableEq

def TypedTape.push (k : TypedTape) (cb : TypedCallback) : TypedTape := { k with callbacks := k.callbacks ++ [cb] }

/-! ## The book -/

structure TypedBook where
  bids : TrackerMap
  asks : TrackerMap
  tape : TypedTape
deriving DecidableEq

/-- `filled_qty` of a tracker of the order. -/
def filledQty (t : Tracker) (o : Order) : Nat := toU32 (o.orderQty - t.openQty)

def createTrade (orders : List Order) (k : TypedTape) (inbound current : Tracker) (maxQuantity : Nat) :
    Option (TypedTape × Tracker × Tracker × Nat) := do
  let own ← orders[inbound.order]?
  let other ← orders[current.order]?
  let crossPrice := other.price
  let crossPrice := if crossPrice = marketOrderPrice then own.price else crossPrice
  let crossPrice := if crossPrice = marketOrderPrice then k.marketPrice else crossPrice
  if crossPrice = marketOrderPrice then some (k,inbound,current,0)
  else
    let fillQty := min maxQuantity (min inbound.openQty current.openQty)
    if fillQty = 0 then some (k,inbound,current,0)
    else do
      let filled ← inbound.fill fillQty
      let current ← current.fill fillQty
      let fillFlags := ffNeitherFilled
      let fillFlags := if filled.openQty = 0 then fillFlags ||| ffInboundFilled else fillFlags
      let fillFlags := if current.openQty = 0 then fillFlags ||| ffMatchedFilled else fillFlags
      some ({ k with marketPrice := crossPrice }.push (.fill inbound.order current.order fillQty crossPrice fillFlags),filled,current,fillQty)

/-- The loop of `match_regular_order`, as without depth. -/
def matchRegularLoop (orders : List Order) (inboundPrice : Nat) : TypedTape → Tracker → TrackerMap →
    Option (TypedTape × Tracker × TrackerMap × Bool)
  | k, inbound, [] => some (k,inbound,[],false)
  | k, inbound, entry :: pos =>
    if inbound.filled then some (k,inbound,entry :: pos,false)
    else if !entry.1.admits inboundPrice then some (k,inbound,entry :: pos,false)
    else if entry.2.allOrNone then none
    else do
      let (k,inbound,current,traded) ← createTrade orders k inbound entry.2 4294967295
      let (k,inbound,rest,matched) ← matchRegularLoop orders inboundPrice k inbound pos
      if traded > 0 then some (k,inbound,if current.filled then rest else (entry.1,current) :: rest,true)
      else some (k,inbound,(entry.1,current) :: rest,matched)

def matchOrder (orders : List Order) (k : TypedTape) (inbound : Tracker) (inboundPrice : Nat) (currentOrders : TrackerMap) :
    Option (TypedTape × Tracker × TrackerMap × Bool) :=
  if inbound.allOrNone then none else matchRegularLoop orders inboundPrice k inbound currentOrders

namespace TypedBook

/-- The book between two calls, when nothing is queued. -/
def idle (b : OrderBook) : TypedBook := ⟨b.bids,b.asks,⟨b.tape.marketPrice,[]⟩⟩

def push (b : TypedBook) (cb : TypedCallback) : TypedBook := { b with tape := b.tape.push cb }

/-- The orders of one side. -/
def market (b : TypedBook) (isBuy : Bool) : TrackerMap := if isBuy then b.bids else b.asks

def withMarket (b : TypedBook) (isBuy : Bool) (m : TrackerMap) : TypedBook :=
  if isBuy then { b with bids := m } else { b with asks := m }

/-- The quantity of a callback that is already queued. -/
def setQuantity (b : TypedBook) (index quantity : Nat) : TypedBook :=
  { b with tape := { b.tape with callbacks := b.tape.callbacks.modify index (TypedCallback.setQuantity quantity) } }

def addOrder (b : TypedBook) (orders : List Order) (inbound : Tracker) (orderPrice : Nat) : Option (TypedBook × Tracker × Bool) := do
  let o ← orders[inbound.order]?
  let (k,inbound,left,matched) ← matchOrder orders b.tape inbound orderPrice (b.market !o.isBuy)
  let b := { b.withMarket (!o.isBuy) left with tape := k }
  if inbound.openQty ≠ 0 ∧ !inbound.immediateOrCancel then
    some (b.withMarket o.isBuy ((b.market o.isBuy).insert ⟨o.isBuy,orderPrice⟩ inbound),inbound,matched)
  else some (b,inbound,matched)

/-- `add` up to its callbacks. The accepted order is told what it has filled, and the rest of it is cancelled with the quantity 0. -/
def add (b : TypedBook) (orders : List Order) (order : Nat) (conditions : UInt32) : Option (TypedBook × Bool) := do
  let o ← orders[order]?
  if o.orderQty = 0 then some (b.push (.reject order "size must be positive"),false)
  else
    let acceptCbIndex := b.tape.callbacks.length
    let b := b.push (.accept order 0)
    if o.stopPrice ≠ 0 then none
    else do
      let (b,inbound,matched) ← b.addOrder orders (.new order o conditions) o.price
      let b := b.setQuantity acceptCbIndex (filledQty inbound o)
      let b := if inbound.immediateOrCancel ∧ !inbound.filled then b.push (.cancel order 0) else b
      some (b.push .bookUpdate,matched)

/-- `cancel` up to its callbacks. -/
def cancel (b : TypedBook) (orders : List Order) (order : Nat) : Option TypedBook := do
  let o ← orders[order]?
  match (b.market o.isBuy).findOnMarket ⟨o.isBuy,o.price⟩ order with
  | some place => do
    let entry ← (b.market o.isBuy)[place]?
    let openQty := entry.2.openQty
    some (((b.withMarket o.isBuy ((b.market o.isBuy).eraseIdx place)).push (.cancel order openQty)).push .bookUpdate)
  | none => some (b.push (.cancelReject order "not found"))

/-- The book without depth. -/
def plain (b : TypedBook) : OrderBook := ⟨b.bids,b.asks,⟨b.tape.marketPrice,b.tape.callbacks.map TypedCallback.plain⟩⟩

/-- The book whose callbacks are being performed. -/
def swapped (b : TypedBook) : OrderBook := ⟨b.bids,b.asks,⟨b.tape.marketPrice,[]⟩⟩

end TypedBook

/-! ## What the depth is told -/

/-- A call after another. -/
def Ending.andThen {σ α β : Type} : Ending σ α → (σ → Ending σ β) → Ending σ β
  | returned left _, f => f left
  | thrown what left, _ => thrown what left
  | undefined, _ => undefined

def isLimit (o : Order) : Bool := o.price > 0

namespace Depth
variable {size : Nat}

def onAccept (d : Depth size) (o : Order) (quantity : Nat) : Ending (Depth size) Unit :=
  if isLimit o then
    if quantity = o.orderQty then d.ignoreFillQty quantity o.isBuy else d.addOrder o.price o.orderQty o.isBuy
  else .returned d ()

def onFill (d : Depth size) (o matched : Order) (quantity : Nat) (inboundOrderFilled matchedOrderFilled : Bool) : Ending (Depth size) Unit :=
  (if isLimit matched then d.fillOrder matched.price quantity matchedOrderFilled matched.isBuy else .returned d ()).andThen fun d =>
    if isLimit o then d.fillOrder o.price quantity inboundOrderFilled o.isBuy else .returned d ()

def onCancel (d : Depth size) (o : Order) (quantity : Nat) : Ending (Depth size) Unit :=
  if isLimit o then (d.closeOrder o.price quantity o.isBuy).andThen fun d => .returned d () else .returned d ()

def onOrderBookChange (d : Depth size) : Depth size := if d.changed then d.published else d

/-- `OrderBook::perform_callback` up to the listener. -/
def hear (d : Depth size) (all : List Order) : TypedCallback → Ending (Depth size) Unit
  | .accept order quantity =>
    match all[order]? with
    | some o => d.onAccept o quantity
    | none => .undefined
  | .fill order matchedOrder quantity _ flags =>
    match all[order]?, all[matchedOrder]? with
    | some o, some matched => d.onFill o matched quantity (flags &&& (ffInboundFilled ||| ffBothFilled) != 0)
        (flags &&& (ffMatchedFilled ||| ffBothFilled) != 0)
    | _, _ => .undefined
  | .cancel order quantity =>
    match all[order]? with
    | some o => d.onCancel o quantity
    | none => .undefined
  | .bookUpdate => .returned d.onOrderBookChange ()
  | .reject _ _ | .cancelReject _ _ => .returned d ()

end Depth

/-! ## The adapter -/

/-- The adapter, whose book between two calls is the one of `base`; `caught` is what `callback_now` has written to `std::cerr`. -/
structure DepthAdapter (size : Nat) where
  base : LiquibookAdapter
  depth : Depth size
  caught : List String

namespace DepthAdapter
variable {size : Nat}

def engineInit (size : Nat) : DepthAdapter size := ⟨.engineInit,.new size,[]⟩

def enginePrebuild (a : DepthAdapter size) (m : Message) : DepthAdapter size := { a with base := a.base.enginePrebuild m }

/-- `SimpleOrderBook::perform_callback`, in the `try` of `callback_now`. -/
def performCallback (a : DepthAdapter size) (cb : TypedCallback) : Option (DepthAdapter size) :=
  match a.depth.hear a.base.all cb with
  | .returned depth _ => do
    let base ← a.base.performCallback cb.plain
    some { a with base := base, depth := depth }
  | .thrown what depth => some { a with depth := depth, caught := a.caught ++ ["Caught exception during callback: " ++ what] }
  | .undefined => none

/-- A call of the book with its callbacks. -/
def callBook (a : DepthAdapter size) (f : TypedBook → List Order → Option TypedBook) : Option (DepthAdapter size) := do
  let book ← f (.idle a.base.book) a.base.all
  book.tape.callbacks.foldlM performCallback { a with base := { a.base with book := book.swapped } }

def enter (a : DepthAdapter size) (isBuy : Bool) (price qty cond : UInt32) (extId : Nat) : Option (DepthAdapter size) := do
  let (base,lo) := a.base.makeOrder isBuy price qty cond
  let base ← base.mapLbId lo extId
  let orders ← base.orders.set? extId (some lo)
  callBook { a with base := { base with orders := orders } } fun b all => (b.add all lo cond).map Prod.fst

def engineOnNewOrder (a : DepthAdapter size) (o : NewOrder) : Option (DepthAdapter size) := do
  let base := { a.base with seq := o.sequenceNumber.toNat, filled := 0 }
  let base := base.emitAck .orderAck o.sequenceNumber.toNat o.orderId.toNat o.side.toNat o.priceTicks.toInt o.quantity.toNat
  let cond := if o.ioc ≠ 0 then ocImmediateOrCancel else ocNoConditions
  let a ← enter { a with base := base } (o.side = 0) (castU32 o.priceTicks.toInt) o.quantity cond o.orderId.toNat
  if o.ioc ≠ 0 ∧ a.base.filled < o.quantity.toNat then
    let residual := toU32 (o.quantity.toNat - a.base.filled)
    some { a with base := a.base.emitAck .cancelAck o.sequenceNumber.toNat o.orderId.toNat o.side.toNat o.priceTicks.toInt residual }
  else some a

def engineOnCancel (a : DepthAdapter size) (c : CancelOrder) : Option (DepthAdapter size) := do
  match ← a.base.findResting c.orderId.toNat with
  | some (lo,o) => do
    let a ← a.callBook (·.cancel · lo)
    some { a with base := a.base.emitAck .cancelAck c.sequenceNumber.toNat c.orderId.toNat (if o.isBuy then 0 else 1) o.price 0 }
  | none => some { a with base := a.base.emitAck .cancelReject c.sequenceNumber.toNat c.orderId.toNat 0 0 0 }

def engineOnModify (a : DepthAdapter size) (m : ModifyOrder) : Option (DepthAdapter size) := do
  let a := { a with base := { a.base with seq := m.sequenceNumber.toNat, filled := 0 } }
  match ← a.base.findResting m.orderId.toNat with
  | some (lo,_) => do
    let a ← a.callBook (·.cancel · lo)
    let a ← a.enter (m.side = 0) (castU32 m.newPriceTicks.toInt) m.newQuantity ocNoConditions m.orderId.toNat
    let base := a.base.emitAck .modifyAck m.sequenceNumber.toNat m.orderId.toNat m.side.toNat m.newPriceTicks.toInt m.newQuantity.toNat
    some { a with base := base }
  | none => some { a with base := a.base.emitAck .modifyReject m.sequenceNumber.toNat m.orderId.toNat 0 0 0 }

/-- The dispatch of `engine_on_batch`. -/
def step (a : DepthAdapter size) : Message → Option (DepthAdapter size)
  | .newOrder o => a.engineOnNewOrder o
  | .cancel c => a.engineOnCancel c
  | .modify m => a.engineOnModify m

end DepthAdapter

end BaboEngine.LiquibookDepth
