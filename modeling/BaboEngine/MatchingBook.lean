import BaboEngine.Ladder
import Mathlib.Logic.Function.Basic

/-!
# The matching book

The functions follow `matching_book.h`; as in a tree, a function is `none` where the
source would follow a dangling link and where a loop has not ended after more
rounds than there are slots in the pool. Prices, quantities and ids are typed as in
the source where they enter the book. The 32-bit signed sums and the negation in
`replace` wrap.

The listener is always set, and its calls are kept as a list. The journal also keeps
what the source does not: the trades, the submissions and the rounds of released
stops, each with the orders it found and left.
-/

namespace BaboEngine

/-- The calls of the listener. -/
inductive OrderEvent where
  | onAccept (orderId : Nat)
  | onReject (orderId : Nat) (reason : String)
  | onFill (orderId matchedOrderId fillQty fillCost : Nat)
  | onCancel (orderId : Nat)
  | onCancelReject (orderId : Nat) (reason : String)
  | onReplace (orderId : Nat) (sizeDelta : Int) (newPrice : Nat)
  | onReplaceReject (orderId : Nat) (reason : String)
deriving DecidableEq, Repr

/-- A trade, with both orders as they were just before it. -/
structure Trade where
  taker : SimpleOrder
  maker : SimpleOrder
  qty : Nat
deriving DecidableEq

/-- A call of `submit`: the market price, the order and the opposite side before and after the matching. -/
structure Submission where
  marketPrice : Nat
  order : SimpleOrder
  makers : List SimpleOrder
  trades : List Trade
  marketPriceLeft : Nat
  remainder : SimpleOrder
  makersLeft : List SimpleOrder
deriving DecidableEq

/-- A round of `process_triggered` that releases stops: the market price and the parked orders
    before it, the released orders, and the parked orders after it. -/
structure Round where
  marketPrice : Nat
  buys : List SimpleOrder
  sells : List SimpleOrder
  fired : List SimpleOrder
  buysLeft : List SimpleOrder
  sellsLeft : List SimpleOrder
deriving DecidableEq

/-- The market price, the calls of the listener, and the journal. -/
structure Market where
  marketPrice : Nat
  events : List OrderEvent
  observed : List Nat
  trades : List Trade
  submissions : List Submission
  rounds : List Round
  parked : List Nat
deriving DecidableEq

namespace Market

/-- Before the first command. -/
def start : Market := ⟨0,[],[],[],[],[],[]⟩

def emit (k : Market) (e : OrderEvent) : Market := { k with events := k.events ++ [e] }

/-- The market price is set or moved. -/
def observe (k : Market) (px : Nat) : Market := { k with marketPrice := px, observed := k.observed ++ [px] }

/-- The cost of a trade, `qty * px` in 32 bits. -/
def cost (maker : SimpleOrder) (qty : Nat) : Nat := toU32 (qty * maker.price)

/-- What a trade does beside filling the two orders. -/
def trade (k : Market) (t : Trade) : Market :=
  { (k.observe t.maker.price).emit (.onFill t.taker.orderId t.maker.orderId t.qty (cost t.maker t.qty)) with
    trades := k.trades ++ [t] }

def submitted (k : Market) (c : Submission) : Market := { k with submissions := k.submissions ++ [c] }

def released (k : Market) (r : Round) : Market := { k with rounds := k.rounds ++ [r] }

def park (k : Market) (orderId : Nat) : Market := { k with parked := k.parked ++ [orderId] }

end Market

/-- The four trees of a book. -/
inductive TreeName where
  | bids
  | asks
  | stopBids
  | stopAsks
deriving DecidableEq

namespace TreeName

def type : TreeName → OrderType
  | .bids => .BID
  | .asks => .ASK
  | .stopBids => .ASK
  | .stopAsks => .BID

/-- The key of an order in a tree: its limit price, or its stop price. -/
def key : TreeName → SimpleOrder → Nat
  | .bids, o => o.price
  | .asks, o => o.price
  | .stopBids, o => o.stopPrice
  | .stopAsks, o => o.stopPrice

end TreeName

/-- Where an order rests. -/
def SimpleOrder.side (o : SimpleOrder) : TreeName := if o.isBuy then .bids else .asks

/-- Where an order finds its makers. -/
def SimpleOrder.opposite (o : SimpleOrder) : TreeName := if o.isBuy then .asks else .bids

/-- Where a stop order is parked. -/
def SimpleOrder.stopSide (o : SimpleOrder) : TreeName := if o.isBuy then .stopBids else .stopAsks

def crosses (maker inc : SimpleOrder) : Bool :=
  if inc.price = marketOrderPrice then true
  else if inc.isBuy then maker.price ≤ inc.price
  else maker.price ≥ inc.price

/-! ## Matching against one tree -/

namespace TreeState
variable {N : Capacity}

/-- The orders of a tree without back-pointers, for the journal. -/
def snapshot (s : TreeState N) : Option (List SimpleOrder) := s.orders.map (List.map SimpleOrder.bare)

/-- The maker is the order in the slot `loc`; the flag says whether it is filled. -/
def executeTrade (opp : TreeState N) (k : Market) (inc : SimpleOrder) (loc : OrderLoc) (qty : Nat) :
    Option (TreeState N × Market × SimpleOrder × Bool) := do
  let maker ← opp.orderAt loc
  let cost := Market.cost maker qty
  let opp ← opp.editOrder loc (fun o => o.fill qty cost) (-qty)
  let maker' ← opp.orderAt loc
  some (opp,k.trade ⟨inc.bare,maker.bare,qty⟩,inc.fill qty cost,maker'.openQty = 0)

/-- `if (filled) opp.erase(id);` -/
def eraseIf (type : OrderType) (opp : TreeState N) (filled : Bool) (orderId : Nat) : Option (TreeState N) :=
  if filled then opp.erase type orderId else some opp

def matchRegularLoop (type : OrderType) : Nat → TreeState N → Market → SimpleOrder → Option OrderLoc →
    Option (TreeState N × Market × SimpleOrder)
  | 0, _, _, _, _ => none
  | _ + 1, opp, k, inc, none => some (opp,k,inc)
  | rounds + 1, opp, k, inc, some loc =>
    if inc.openQty = 0 then some (opp,k,inc) else do
      let maker ← opp.orderAt loc
      if !crosses maker inc then some (opp,k,inc)
      else if maker.allOrNone && maker.openQty > inc.openQty then do
        matchRegularLoop type rounds opp k inc (← opp.globalNext loc)
      else do
        let qty := min inc.openQty maker.openQty
        let following ← opp.globalNext loc
        let (opp,k,inc,filled) ← opp.executeTrade k inc loc qty
        let opp ← opp.eraseIf type filled maker.orderId
        matchRegularLoop type rounds opp k inc following

def matchRegularIncoming (type : OrderType) (opp : TreeState N) (k : Market) (inc : SimpleOrder) :
    Option (TreeState N × Market × SimpleOrder) := do
  matchRegularLoop type opp.walkBound opp k inc (← opp.ordersBegin)

/-- The first pass of `match_aon_incoming`: the rest of the plan, and the quantity planned in all. -/
def planLoop (opp : TreeState N) (inc : SimpleOrder) (needed : Nat) : Nat → Option OrderLoc → Nat →
    Option (List (Nat × Nat) × Nat)
  | 0, _, _ => none
  | _ + 1, none, planned => some ([],planned)
  | rounds + 1, some loc, planned =>
    if planned ≥ needed then some ([],planned) else do
      let maker ← opp.orderAt loc
      if !crosses maker inc then some ([],planned) else do
        let avail := maker.openQty
        let following ← opp.globalNext loc
        if maker.allOrNone then
          if avail ≤ needed - planned then do
            let (plan,total) ← opp.planLoop inc needed rounds following (toU32 (planned + avail))
            some ((maker.orderId,avail) :: plan,total)
          else opp.planLoop inc needed rounds following planned
        else do
          let take := min avail (needed - planned)
          let (plan,total) ← opp.planLoop inc needed rounds following (toU32 (planned + take))
          some ((maker.orderId,take) :: plan,total)

/-- The second pass of `match_aon_incoming`. -/
def commitPlan (type : OrderType) (opp : TreeState N) (k : Market) (inc : SimpleOrder) : List (Nat × Nat) →
    Option (TreeState N × Market × SimpleOrder)
  | [] => some (opp,k,inc)
  | (id,qty) :: plan =>
    match opp.orderIndex id with
    | none => opp.commitPlan type k inc plan
    | some loc => do
      let (opp,k,inc,filled) ← opp.executeTrade k inc loc qty
      let opp ← opp.eraseIf type filled id
      opp.commitPlan type k inc plan

def matchAonIncoming (type : OrderType) (opp : TreeState N) (k : Market) (inc : SimpleOrder) :
    Option (TreeState N × Market × SimpleOrder) := do
  let needed := inc.openQty
  let (plan,planned) ← opp.planLoop inc needed opp.walkBound (← opp.ordersBegin) 0
  if planned < needed then some (opp,k,inc) else opp.commitPlan type k inc plan

def matchAgainst (type : OrderType) (opp : TreeState N) (k : Market) (inc : SimpleOrder) :
    Option (TreeState N × Market × SimpleOrder) :=
  if inc.allOrNone then opp.matchAonIncoming type k inc else opp.matchRegularIncoming type k inc

/-- The scan of one stop tree: the parked orders up to the first that is not due leave it. -/
def releaseLoop (type : OrderType) (due : SimpleOrder → Bool) : Nat → TreeState N → Option OrderLoc →
    Option (TreeState N × List SimpleOrder)
  | 0, _, _ => none
  | _ + 1, s, none => some (s,[])
  | rounds + 1, s, some loc => do
    let o ← s.orderAt loc
    if !due o then some (s,[])
    else do
      let following ← s.globalNext loc
      let s ← s.erase type o.orderId
      let (s,fired) ← s.releaseLoop type due rounds following
      some (s,o :: fired)

def release (type : OrderType) (due : SimpleOrder → Bool) (s : TreeState N) : Option (TreeState N × List SimpleOrder) := do
  s.releaseLoop type due s.walkBound (← s.ordersBegin)

end TreeState

/-! ## The book -/

structure MatchingBook (N : Capacity) extends Heap N where
  tree : TreeName → NarbTree
  market : Market

/-- What an application asks of a book. -/
inductive Command where
  | add (isBuy : Bool) (price qty stopPrice conditions orderId : UInt32)
  | cancel (orderId : UInt32)
  | replace (orderId : UInt32) (sizeDelta : Int32) (newPrice : UInt64)
  | setMarketPrice (px : UInt64)
deriving DecidableEq

namespace MatchingBook
variable {N : Capacity}

/-- A book on some pools. -/
def start (h : Heap N) : MatchingBook N := { toHeap := h, tree := fun _ => .empty, market := .start }

/-- One of the trees, with the pools. -/
def on (m : MatchingBook N) (t : TreeName) : TreeState N := { toHeap := m.toHeap, toNarbTree := m.tree t }

/-- The book after an operation on one of its trees. -/
def put (m : MatchingBook N) (t : TreeName) (s : TreeState N) : MatchingBook N :=
  { m with toHeap := s.toHeap, tree := Function.update m.tree t s.toNarbTree }

def emit (m : MatchingBook N) (e : OrderEvent) : MatchingBook N := { m with market := m.market.emit e }

def eraseFrom (m : MatchingBook N) (t : TreeName) (orderId : Nat) : Option (MatchingBook N) := do
  let s ← (m.on t).erase t.type orderId
  some (m.put t s)

def insertInto (m : MatchingBook N) (t : TreeName) (o : SimpleOrder) : Option (MatchingBook N) := do
  let s ← (m.on t).insert t.type o (t.key o)
  some (m.put t s)

/-- The matching part of `submit`, with its record in the journal. -/
def matchOrder (m : MatchingBook N) (order : SimpleOrder) : Option (MatchingBook N × SimpleOrder) := do
  let opp := m.on order.opposite
  let makers ← opp.snapshot
  let (opp,market,remainder) ← opp.matchAgainst order.opposite.type m.market order
  let makersLeft ← opp.snapshot
  let call : Submission := ⟨m.market.marketPrice,order.bare,makers,market.trades.drop m.market.trades.length,market.marketPrice,
    remainder.bare,makersLeft⟩
  some ({ m.put order.opposite opp with market := market.submitted call },remainder)

def submit (m : MatchingBook N) (order : SimpleOrder) : Option (MatchingBook N) := do
  let isMarket := order.price = marketOrderPrice
  let (m,order) ← m.matchOrder order
  if ¬ isMarket ∧ !order.immediateOrCancel ∧ order.openQty > 0 then m.insertInto order.side order else some m

def isStopped (m : MatchingBook N) (o : SimpleOrder) : Bool :=
  if o.isBuy then m.market.marketPrice < o.stopPrice else m.market.marketPrice > o.stopPrice

def parkStop (m : MatchingBook N) (o : SimpleOrder) : Option (MatchingBook N) := do
  let m ← m.insertInto o.stopSide o
  some { m with market := m.market.park o.orderId }

/-- `for (auto& o : fired) submit(o);` -/
def submitAll (m : MatchingBook N) : List SimpleOrder → Option (MatchingBook N)
  | [] => some m
  | o :: fired => do (← m.submit o).submitAll fired

def releaseFrom (m : MatchingBook N) (t : TreeName) (due : SimpleOrder → Bool) :
    Option (MatchingBook N × List SimpleOrder) := do
  let (s,fired) ← (m.on t).release t.type due
  some (m.put t s,fired)

/-- The two scans of a round. -/
def scan (m : MatchingBook N) : Option (MatchingBook N × List SimpleOrder) := do
  let px := m.market.marketPrice
  let (m,buys) ← m.releaseFrom .stopBids fun o => ¬ o.stopPrice > px
  let (m,sells) ← m.releaseFrom .stopAsks fun o => ¬ o.stopPrice < px
  some (m,buys ++ sells)

/-- A round that has released some orders: they are submitted, and the round goes into the journal. -/
def fire (before m : MatchingBook N) (fired : List SimpleOrder) : Option (MatchingBook N) := do
  let buys ← (before.on .stopBids).snapshot
  let sells ← (before.on .stopAsks).snapshot
  let m ← m.submitAll fired
  let buysLeft ← (m.on .stopBids).snapshot
  let sellsLeft ← (m.on .stopAsks).snapshot
  let round : Round := ⟨before.market.marketPrice,buys,sells,fired.map SimpleOrder.bare,buysLeft,sellsLeft⟩
  some { m with market := m.market.released round }

def processTriggeredLoop : Nat → MatchingBook N → Option (MatchingBook N)
  | 0, _ => none
  | rounds + 1, m => do
    let (scanned,fired) ← m.scan
    if fired.isEmpty then some scanned
    else do processTriggeredLoop rounds (← m.fire scanned fired)

/-- Every round but the last releases an order, and there is a slot for each. -/
def processTriggered (m : MatchingBook N) : Option (MatchingBook N) :=
  m.processTriggeredLoop ((m.on .stopBids).walkBound + (m.on .stopAsks).walkBound)

def add (m : MatchingBook N) (order : SimpleOrder) : Option (MatchingBook N) :=
  if order.orderQty = 0 then some (m.emit (.onReject order.orderId "size must be positive"))
  else
    let m := m.emit (.onAccept order.orderId)
    if order.stopPrice ≠ 0 ∧ m.isStopped order then m.parkStop order
    else do (← m.submit order).processTriggered

/-- The first of some trees that holds an id. -/
def holder (m : MatchingBook N) (orderId : Nat) (ts : List TreeName) : Option TreeName :=
  ts.find? fun t => (m.tree t).orderIndex orderId |>.isSome

def cancel (m : MatchingBook N) (orderId : Nat) : Option (MatchingBook N) :=
  match m.holder orderId [.bids,.asks,.stopBids,.stopAsks] with
  | some t => do some ((← m.eraseFrom t orderId).emit (.onCancel orderId))
  | none => some (m.emit (.onCancelReject orderId "not found"))

/-- `replace` of a resting order that stays at its price. -/
def resize (m : MatchingBook N) (t : TreeName) (loc : OrderLoc) (o : SimpleOrder) (sizeDelta : Int) :
    Option (MatchingBook N) :=
  if sizeDelta < 0 ∧ toU32 (-sizeDelta) ≥ o.openQty then m.eraseFrom t o.orderId
  else do
    let s ← (m.on t).editOrder loc (fun o => o.modify sizeDelta priceUnchanged) sizeDelta
    some (m.put t s)

/-- `replace` of a resting order that gets another price. -/
def reprice (m : MatchingBook N) (t : TreeName) (o : SimpleOrder) (sizeDelta : Int) (newPrice : Nat) :
    Option (MatchingBook N) := do
  let m ← m.eraseFrom t o.orderId
  let copy := o.modify sizeDelta newPrice
  let m := m.emit (.onReplace o.orderId sizeDelta copy.price)
  if copy.openQty = 0 then some m
  else do (← m.submit copy).processTriggered

def replace (m : MatchingBook N) (orderId : Nat) (sizeDelta : Int) (newPrice : Nat) : Option (MatchingBook N) :=
  match m.holder orderId [.bids,.asks] with
  | none => some (m.emit (.onReplaceReject orderId "not found"))
  | some t => do
    let loc ← (m.tree t).orderIndex orderId
    let o ← (m.on t).orderAt loc
    if newPrice ≠ priceUnchanged ∧ newPrice ≠ o.price then m.reprice t o sizeDelta newPrice
    else do some ((← m.resize t loc o sizeDelta).emit (.onReplace orderId sizeDelta o.price))

def setMarketPrice (m : MatchingBook N) (px : Nat) : Option (MatchingBook N) :=
  { m with market := m.market.observe px }.processTriggered

def step (m : MatchingBook N) : Command → Option (MatchingBook N)
  | .add isBuy price qty stopPrice conditions orderId => m.add (.new isBuy price qty stopPrice conditions orderId)
  | .cancel orderId => m.cancel orderId.toNat
  | .replace orderId sizeDelta newPrice => m.replace orderId.toNat sizeDelta.toInt newPrice.toNat
  | .setMarketPrice px => m.setMarketPrice px.toNat

end MatchingBook

end BaboEngine
