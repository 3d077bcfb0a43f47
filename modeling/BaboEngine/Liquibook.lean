import BaboEngine.SimpleOrder

/-!
# Liquibook

The book that `liquibook_adapter.cpp` compares with: the orders of `simple_order.h`, the
trackers and price keys of `order_tracker.h` and `comparable_price.h`, and of
`order_book.h` what the adapter calls, `add` and `cancel`. An order pointer is the place of the
order among all that were made. A multimap is the list of its entries, an iterator the
place of an entry. Unlike the other engine, this book calls nobody while it matches: it
queues callbacks and performs them before it returns.

The adapter asks for no stop and no all-or-none order. Where the source branches on
one, the result is `none`, as it is where a pointer dangles or a tracker throws.
-/

namespace BaboEngine.Liquibook

/-- `simple::SimpleOrder`. -/
structure Order where
  state : OrderState
  isBuy : Bool
  orderQty : Nat
  price : Nat
  stopPrice : Nat
  conditions : UInt32
  filledQty : Nat
  filledCost : Nat
  orderId : Nat
deriving DecidableEq

namespace Order

/-- The constructor, with the id that it takes from the counter of the class. -/
def new (isBuy : Bool) (price qty stopPrice conditions : UInt32) (orderId : Nat) : Order where
  state := .osNew
  isBuy := isBuy
  orderQty := qty.toNat
  price := price.toNat
  stopPrice := stopPrice.toNat
  conditions := conditions
  filledQty := 0
  filledCost := 0
  orderId := orderId

def allOrNone (o : Order) : Bool := o.conditions &&& ocAllOrNone != 0

def immediateOrCancel (o : Order) : Bool := o.conditions &&& ocImmediateOrCancel != 0

def openQty (o : Order) : Nat := if o.filledQty < o.orderQty then o.orderQty - o.filledQty else 0

def fill (o : Order) (fillQty fillCost : Nat) : Order :=
  let filled := { o with
    filledQty := toU32 (o.filledQty + fillQty)
    filledCost := toU32 (o.filledCost + fillCost) }
  if filled.openQty = 0 then { filled with state := .osComplete } else filled

def accept (o : Order) : Order := if o.state = .osNew then { o with state := .osAccepted } else o

def cancel (o : Order) : Order := if o.state ≠ .osComplete then { o with state := .osCancelled } else o

end Order

/-- `OrderTracker`. -/
structure Tracker where
  order : Nat
  openQty_ : Nat
  reserved : Int
  conditions : UInt32
deriving DecidableEq

namespace Tracker

/-- The constructor; the orders know their conditions. -/
def new (order : Nat) (o : Order) (conditions : UInt32) : Tracker where
  order := order
  openQty_ := o.orderQty
  reserved := 0
  conditions := conditions ||| (if o.allOrNone then ocAllOrNone else 0) ||| (if o.immediateOrCancel then ocImmediateOrCancel else 0)

def fill (t : Tracker) (qty : Nat) : Option Tracker :=
  if qty > t.openQty_ then none else some { t with openQty_ := t.openQty_ - qty }

def filled (t : Tracker) : Bool := t.openQty_ = 0

def openQty (t : Tracker) : Nat := toU32 (t.openQty_ - t.reserved)

def allOrNone (t : Tracker) : Bool := t.conditions &&& ocAllOrNone != 0

def immediateOrCancel (t : Tracker) : Bool := t.conditions &&& ocImmediateOrCancel != 0

end Tracker

structure ComparablePrice where
  buySide : Bool
  price : Nat
deriving DecidableEq

namespace ComparablePrice

/-- A trade with the other side is possible at the price `rhs`. -/
def admits (k : ComparablePrice) (rhs : Nat) : Bool :=
  if k.price = rhs then true
  else if k.buySide then rhs < k.price ∨ k.price = marketOrderPrice
  else k.price < rhs ∨ rhs = marketOrderPrice

/-- `operator <`: easier to match. -/
def easier (k rhs : ComparablePrice) : Bool :=
  if k.price = marketOrderPrice then rhs.price ≠ marketOrderPrice
  else if rhs.price = marketOrderPrice then false
  else if k.buySide then rhs.price < k.price
  else k.price < rhs.price

end ComparablePrice

/-- `std::multimap<ComparablePrice, Tracker>`. -/
abbrev TrackerMap := List (ComparablePrice × Tracker)

namespace TrackerMap

/-- A new entry comes behind those of its key. -/
def insert (key : ComparablePrice) (tracker : Tracker) : TrackerMap → TrackerMap
  | [] => [(key,tracker)]
  | entry :: rest => if key.easier entry.1 then (key,tracker) :: entry :: rest else entry :: insert key tracker rest

def lowerBound (m : TrackerMap) (key : ComparablePrice) : Nat := (m.takeWhile fun entry => entry.1.easier key).length

/-- `find`: the first entry of a key. -/
def first (m : TrackerMap) (key : ComparablePrice) : Option Nat := do
  let entry ← m[m.lowerBound key]?
  if key.easier entry.1 then none else some (m.lowerBound key)

/-- The entries of a key. -/
def equalRange (m : TrackerMap) (key : ComparablePrice) : TrackerMap :=
  (m.drop (m.lowerBound key)).takeWhile fun entry => !key.easier entry.1

/-- The loop of `find_on_market`, at the place of the first of the entries. -/
def findLoop (key : ComparablePrice) (order : Nat) : Nat → TrackerMap → Option Nat
  | _, [] => none
  | place, entry :: rest =>
    if entry.2.order = order then some place
    else if key.easier entry.1 then none
    else findLoop key order (place + 1) rest

def findOnMarket (m : TrackerMap) (key : ComparablePrice) (order : Nat) : Option Nat := do
  let place ← m.first key
  findLoop key order place (m.drop place)

end TrackerMap

/-- `Callback`. -/
inductive Callback where
  | accept (order : Nat)
  | reject (order : Nat) (rejectReason : String)
  | fill (order matchedOrder quantity price : Nat)
  | cancel (order : Nat)
  | cancelReject (order : Nat) (rejectReason : String)
  | bookUpdate
deriving DecidableEq

/-- The market price and the queued callbacks. -/
structure Tape where
  marketPrice : Nat
  callbacks : List Callback
deriving DecidableEq

def Tape.push (k : Tape) (cb : Callback) : Tape := { k with callbacks := k.callbacks ++ [cb] }

/-- `OrderBook`. -/
structure OrderBook where
  bids : TrackerMap
  asks : TrackerMap
  tape : Tape
deriving DecidableEq

/-- `create_trade`: the inbound and the current order after it, and the quantity. No stop is there to be checked. -/
def createTrade (orders : List Order) (k : Tape) (inbound current : Tracker) (maxQuantity : Nat) :
    Option (Tape × Tracker × Tracker × Nat) := do
  let own ← orders[inbound.order]?
  let other ← orders[current.order]?
  let crossPrice := other.price
  let crossPrice := if crossPrice = marketOrderPrice then own.price else crossPrice
  let crossPrice := if crossPrice = marketOrderPrice then k.marketPrice else crossPrice
  if crossPrice = marketOrderPrice then some (k,inbound,current,0)
  else
    let fillQty := min maxQuantity (min inbound.openQty current.openQty)
    if fillQty = 0 then some (k,inbound,current,0)
    else do
      let filled ← inbound.fill fillQty
      let current ← current.fill fillQty
      some ({ k with marketPrice := crossPrice }.push (.fill inbound.order current.order fillQty crossPrice),filled,current,fillQty)

/-- The loop of `match_regular_order`: the tape, the inbound order, the entries that are left, and whether there was a trade. -/
def matchRegularLoop (orders : List Order) (inboundPrice : Nat) : Tape → Tracker → TrackerMap → Option (Tape × Tracker × TrackerMap × Bool)
  | k, inbound, [] => some (k,inbound,[],false)
  | k, inbound, entry :: pos =>
    if inbound.filled then some (k,inbound,entry :: pos,false)
    else if !entry.1.admits inboundPrice then some (k,inbound,entry :: pos,false)
    else if entry.2.allOrNone then none
    else do
      let (k,inbound,current,traded) ← createTrade orders k inbound entry.2 4294967295
      let (k,inbound,rest,matched) ← matchRegularLoop orders inboundPrice k inbound pos
      if traded > 0 then some (k,inbound,if current.filled then rest else (entry.1,current) :: rest,true)
      else some (k,inbound,(entry.1,current) :: rest,matched)

def matchOrder (orders : List Order) (k : Tape) (inbound : Tracker) (inboundPrice : Nat) (currentOrders : TrackerMap) :
    Option (Tape × Tracker × TrackerMap × Bool) :=
  if inbound.allOrNone then none else matchRegularLoop orders inboundPrice k inbound currentOrders

namespace OrderBook

def new : OrderBook := ⟨[],[],⟨marketOrderPrice,[]⟩⟩

def push (b : OrderBook) (cb : Callback) : OrderBook := { b with tape := b.tape.push cb }

/-- The orders of one side. -/
def market (b : OrderBook) (isBuy : Bool) : TrackerMap := if isBuy then b.bids else b.asks

def withMarket (b : OrderBook) (isBuy : Bool) (m : TrackerMap) : OrderBook :=
  if isBuy then { b with bids := m } else { b with asks := m }

/-- `add_order`; there is no deferred order to look at. -/
def addOrder (b : OrderBook) (orders : List Order) (inbound : Tracker) (orderPrice : Nat) : Option (OrderBook × Tracker × Bool) := do
  let o ← orders[inbound.order]?
  let (k,inbound,left,matched) ← matchOrder orders b.tape inbound orderPrice (b.market !o.isBuy)
  let b := { b.withMarket (!o.isBuy) left with tape := k }
  if inbound.openQty ≠ 0 ∧ !inbound.immediateOrCancel then
    some (b.withMarket o.isBuy ((b.market o.isBuy).insert ⟨o.isBuy,orderPrice⟩ inbound),inbound,matched)
  else some (b,inbound,matched)

/-- `add` up to its callbacks. -/
def add (b : OrderBook) (orders : List Order) (order : Nat) (conditions : UInt32) : Option (OrderBook × Bool) := do
  let o ← orders[order]?
  if o.orderQty = 0 then some (b.push (.reject order "size must be positive"),false)
  else
    let b := b.push (.accept order)
    if o.stopPrice ≠ 0 then none
    else do
      let (b,inbound,matched) ← b.addOrder orders (.new order o conditions) o.price
      let b := if inbound.immediateOrCancel ∧ !inbound.filled then b.push (.cancel order) else b
      some (b.push .bookUpdate,matched)

/-- `cancel` up to its callbacks. -/
def cancel (b : OrderBook) (orders : List Order) (order : Nat) : Option OrderBook := do
  let o ← orders[order]?
  match (b.market o.isBuy).findOnMarket ⟨o.isBuy,o.price⟩ order with
  | some place => some (((b.withMarket o.isBuy ((b.market o.isBuy).eraseIdx place)).push (.cancel order)).push .bookUpdate)
  | none => some (b.push (.cancelReject order "not found"))

end OrderBook

end BaboEngine.Liquibook
