import BaboEngine.MatchingBook

/-!
# The abstract book

A book as four lists of orders. A matching pass is one recursion over the makers, best
first, and a released stop is one of a prefix of its list. The commands are those of
the matching book; `BookRefinement` shows that the matching book computes them.
-/

namespace BaboEngine

/-- What a matching pass leaves of the incoming order and of the makers, and its trades. -/
structure Matching where
  inc : SimpleOrder
  makers : List SimpleOrder
  trades : List Trade
deriving DecidableEq

namespace Matching

/-- The maker that comes first stays as it is. -/
def pass (maker : SimpleOrder) (r : Matching) : Matching := { r with makers := maker :: r.makers }

/-- A filled order leaves. -/
def kept (o : SimpleOrder) : List SimpleOrder := if o.openQty = 0 then [] else [o]

/-- The maker that comes first trades. -/
def trade (inc maker : SimpleOrder) (qty : Nat) (r : Matching) : Matching :=
  { r with
    makers := kept (maker.fill qty (Market.cost maker qty)) ++ r.makers
    trades := ⟨inc,maker,qty⟩ :: r.trades }

/-- `match_regular_incoming`. -/
def regular : SimpleOrder → List SimpleOrder → Matching
  | inc, [] => ⟨inc,[],[]⟩
  | inc, maker :: rest =>
    if inc.openQty = 0 ∨ !crosses maker inc then ⟨inc,maker :: rest,[]⟩
    else if maker.allOrNone && maker.openQty > inc.openQty then (regular inc rest).pass maker
    else
      let qty := min inc.openQty maker.openQty
      (regular (inc.fill qty (Market.cost maker qty)) rest).trade inc maker qty

section
variable {inc maker : SimpleOrder} (rest : List SimpleOrder)

theorem regular_stop (stop : inc.openQty = 0 ∨ crosses maker inc = false) :
    regular inc (maker :: rest) = ⟨inc,maker :: rest,[]⟩ := by
  have stop' : inc.openQty = 0 ∨ (!crosses maker inc) = true := by simpa using stop
  rw [regular,if_pos stop']

theorem regular_skip (needs : inc.openQty ≠ 0) (crossed : crosses maker inc) (aon : maker.allOrNone)
    (larger : inc.openQty < maker.openQty) : regular inc (maker :: rest) = (regular inc rest).pass maker := by
  simp [regular,needs,crossed,aon,larger]

theorem regular_take (needs : inc.openQty ≠ 0) (crossed : crosses maker inc)
    (fits : maker.allOrNone → maker.openQty ≤ inc.openQty) : regular inc (maker :: rest) =
      (regular (inc.fill (min inc.openQty maker.openQty) (Market.cost maker (min inc.openQty maker.openQty))) rest).trade
        inc maker (min inc.openQty maker.openQty) := by
  have taken : (maker.allOrNone && decide (maker.openQty > inc.openQty)) = false := by
    cases aon : maker.allOrNone with
    | false => rfl
    | true => simpa using fits aon
  simp [regular,needs,crossed,taken]

end

/-- The plan of `match_aon_incoming`: for each maker what is to be taken of it, and the total. -/
def plan (inc : SimpleOrder) (needed : Nat) : List SimpleOrder → Nat → List (SimpleOrder × Option Nat) × Nat
  | [], planned => ([],planned)
  | maker :: rest, planned =>
    if planned ≥ needed ∨ !crosses maker inc then ((maker :: rest).map fun o => (o,none),planned)
    else if maker.allOrNone then
      if maker.openQty ≤ needed - planned then
        let (takes,total) := plan inc needed rest (toU32 (planned + maker.openQty))
        ((maker,some maker.openQty) :: takes,total)
      else
        let (takes,total) := plan inc needed rest planned
        ((maker,none) :: takes,total)
    else
      let take := min maker.openQty (needed - planned)
      let (takes,total) := plan inc needed rest (toU32 (planned + take))
      ((maker,some take) :: takes,total)

/-- The plan carried out. -/
def commit : SimpleOrder → List (SimpleOrder × Option Nat) → Matching
  | inc, [] => ⟨inc,[],[]⟩
  | inc, (maker,none) :: rest => (commit inc rest).pass maker
  | inc, (maker,some qty) :: rest => (commit (inc.fill qty (Market.cost maker qty)) rest).trade inc maker qty

/-- `match_aon_incoming`. -/
def aon (inc : SimpleOrder) (makers : List SimpleOrder) : Matching :=
  let (takes,total) := plan inc inc.openQty makers 0
  if total < inc.openQty then ⟨inc,makers,[]⟩ else commit inc takes

/-- `match_against`. -/
def against (inc : SimpleOrder) (makers : List SimpleOrder) : Matching :=
  if inc.allOrNone then aon inc makers else regular inc makers

end Matching

/-- The trades of a matching pass, one after the other. -/
def Market.tradeAll (k : Market) (trades : List Trade) : Market := trades.foldl Market.trade k

structure Book where
  side : TreeName → List SimpleOrder
  market : Market

namespace Book

def start : Book := ⟨fun _ => [],.start⟩

def emit (b : Book) (e : OrderEvent) : Book := { b with market := b.market.emit e }

def put (b : Book) (t : TreeName) (os : List SimpleOrder) : Book := { b with side := Function.update b.side t os }

/-- An order leaves one of the lists. -/
def eraseFrom (b : Book) (t : TreeName) (id : Nat) : Book := b.put t ((b.side t).filter (·.orderId ≠ id))

/-- The first of two orders has the strictly better key. -/
abbrev Ahead (t : TreeName) (o o' : SimpleOrder) : Prop := t.type.better (t.key o) (t.key o')

/-- An order comes behind all orders of a better or equal key. -/
def insertInto (b : Book) (t : TreeName) (o : SimpleOrder) : Book := b.put t ((b.side t).orderedInsert (Ahead t) o)

def matchOrder (b : Book) (o : SimpleOrder) : Book × SimpleOrder :=
  let makers := b.side o.opposite
  let r := Matching.against o makers
  let market := b.market.tradeAll r.trades
  let call : Submission := ⟨b.market.marketPrice,o,makers,r.trades,market.marketPrice,r.inc,r.makers⟩
  ({ b.put o.opposite r.makers with market := market.submitted call },r.inc)

/-- What is left of a submitted order rests, unless it is a market order or immediate-or-cancel. -/
def Rests (o remainder : SimpleOrder) : Prop :=
  ¬ o.price = marketOrderPrice ∧ !remainder.immediateOrCancel ∧ remainder.openQty > 0

instance (o remainder : SimpleOrder) : Decidable (Rests o remainder) :=
  inferInstanceAs (Decidable (_ ∧ _ ∧ _))

def submit (b : Book) (o : SimpleOrder) : Book :=
  let (b,remainder) := b.matchOrder o
  if Rests o remainder then b.insertInto remainder.side remainder else b

def isStopped (b : Book) (o : SimpleOrder) : Bool :=
  if o.isBuy then b.market.marketPrice < o.stopPrice else b.market.marketPrice > o.stopPrice

def parkStop (b : Book) (o : SimpleOrder) : Book :=
  let b := b.insertInto o.stopSide o
  { b with market := b.market.park o.orderId }

def submitAll (b : Book) : List SimpleOrder → Book
  | [] => b
  | o :: fired => (b.submit o).submitAll fired

/-- The parked buys that a scan releases. -/
def dueBuys (b : Book) : List SimpleOrder :=
  (b.side .stopBids).takeWhile fun o => ¬ o.stopPrice > b.market.marketPrice

/-- The parked sells that a scan releases. -/
def dueSells (b : Book) : List SimpleOrder :=
  (b.side .stopAsks).takeWhile fun o => ¬ o.stopPrice < b.market.marketPrice

/-- The book after the two scans. -/
def scanned (b : Book) : Book :=
  (b.put .stopBids ((b.side .stopBids).dropWhile fun o => ¬ o.stopPrice > b.market.marketPrice)).put .stopAsks
    ((b.side .stopAsks).dropWhile fun o => ¬ o.stopPrice < b.market.marketPrice)

/-- A round that releases some orders. -/
def fire (b : Book) : Book :=
  let fired := b.dueBuys ++ b.dueSells
  let b' := b.scanned.submitAll fired
  let round : Round := ⟨b.market.marketPrice,b.side .stopBids,b.side .stopAsks,fired,b'.side .stopBids,b'.side .stopAsks⟩
  { b' with market := b'.market.released round }

/-- The number of parked orders. -/
def parkedCount (b : Book) : Nat := (b.side .stopBids).length + (b.side .stopAsks).length

def processTriggeredLoop : Nat → Book → Book
  | 0, b => b
  | rounds + 1, b => if (b.dueBuys ++ b.dueSells).isEmpty then b else processTriggeredLoop rounds b.fire

def processTriggered (b : Book) : Book := b.processTriggeredLoop (b.parkedCount + 1)

def add (b : Book) (o : SimpleOrder) : Book :=
  if o.orderQty = 0 then b.emit (.onReject o.orderId "size must be positive")
  else
    let b := b.emit (.onAccept o.orderId)
    if o.stopPrice ≠ 0 ∧ b.isStopped o then b.parkStop o
    else (b.submit o).processTriggered

/-- The order with an id in one of the lists. -/
def find (b : Book) (t : TreeName) (id : Nat) : Option SimpleOrder := (b.side t).find? (·.orderId = id)

/-- The first of some lists that holds an id. -/
def holder (b : Book) (id : Nat) (ts : List TreeName) : Option TreeName := ts.find? fun t => (b.find t id).isSome

def cancel (b : Book) (id : Nat) : Book :=
  match b.holder id [.bids,.asks,.stopBids,.stopAsks] with
  | some t => (b.eraseFrom t id).emit (.onCancel id)
  | none => b.emit (.onCancelReject id "not found")

/-- The order with an id is edited where it is. -/
def edit (b : Book) (t : TreeName) (id : Nat) (f : SimpleOrder → SimpleOrder) : Book :=
  b.put t ((b.side t).map fun o => if o.orderId = id then f o else o)

def resize (b : Book) (t : TreeName) (o : SimpleOrder) (sizeDelta : Int) : Book :=
  if sizeDelta < 0 ∧ toU32 (-sizeDelta) ≥ o.openQty then b.eraseFrom t o.orderId
  else b.edit t o.orderId fun o => o.modify sizeDelta priceUnchanged

def reprice (b : Book) (t : TreeName) (o : SimpleOrder) (sizeDelta : Int) (newPrice : Nat) : Book :=
  let copy := o.modify sizeDelta newPrice
  let b := (b.eraseFrom t o.orderId).emit (.onReplace o.orderId sizeDelta copy.price)
  if copy.openQty = 0 then b else (b.submit copy).processTriggered

/-- `replace` of the order `o` of the list `t`. -/
def replaceOrder (b : Book) (t : TreeName) (o : SimpleOrder) (sizeDelta : Int) (newPrice : Nat) : Book :=
  if newPrice ≠ priceUnchanged ∧ newPrice ≠ o.price then b.reprice t o sizeDelta newPrice
  else (b.resize t o sizeDelta).emit (.onReplace o.orderId sizeDelta o.price)

def replace (b : Book) (id : Nat) (sizeDelta : Int) (newPrice : Nat) : Book :=
  match b.find .bids id with
  | some o => b.replaceOrder .bids o sizeDelta newPrice
  | none =>
    match b.find .asks id with
    | some o => b.replaceOrder .asks o sizeDelta newPrice
    | none => b.emit (.onReplaceReject id "not found")

def setMarketPrice (b : Book) (px : Nat) : Book := { b with market := b.market.observe px }.processTriggered

def step (b : Book) : Command → Book
  | .add isBuy price qty stopPrice conditions orderId => b.add (.new isBuy price qty stopPrice conditions orderId)
  | .cancel orderId => b.cancel orderId.toNat
  | .replace orderId sizeDelta newPrice => b.replace orderId.toNat sizeDelta.toInt newPrice.toNat
  | .setMarketPrice px => b.setMarketPrice px.toNat

end Book

end BaboEngine
