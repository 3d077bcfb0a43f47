import BaboEngine.BabobookAdapter
import BaboEngine.StableSort

/-!
# A ledger of reports

What can be known of a book from the reports alone. A ledger has the live orders in the
order of their arrival; a report enters, reduces, replaces or removes one. The stable sort
by price gives each side in price-time order.
-/

namespace BaboEngine
open StableSort

/-- A resting order, as far as reports tell. -/
structure Resting where
  orderId : Nat
  isBuy : Bool
  priceTicks : Int
  quantity : Int
deriving DecidableEq, Repr

namespace Resting

/-- Where an order rests. -/
def place (x : Resting) : Bool × Int := (x.isBuy,x.priceTicks)

/-- Bids go down in price, asks up. -/
def key (isBuy : Bool) (x : Resting) : Int := if isBuy then -x.priceTicks else x.priceTicks

/-- What is left of an order after some trades. -/
def minus (x : Resting) (qty : Nat) : Option Resting :=
  if x.quantity - qty = 0 then none else some { x with quantity := x.quantity - qty }

variable {x y : Resting} {q q' : Nat}

theorem minus_zero (opened : x.quantity ≠ 0) : x.minus 0 = some x := by
  rw [minus,if_neg (by omega)]
  congr 1
  show (⟨x.orderId,x.isBuy,x.priceTicks,x.quantity - (0 : Nat)⟩ : Resting) = x
  rw [Nat.cast_zero,Int.sub_zero]

theorem minus_some (left : x.minus q = some y) : x.quantity - q ≠ 0 ∧ y = { x with quantity := x.quantity - q } := by
  unfold minus at left
  split_ifs at left with gone
  exact ⟨gone,(Option.some.inj left).symm⟩

theorem minus_add (enough : (q : Int) + q' ≤ x.quantity) : (x.minus q).bind (fun y => y.minus q') = x.minus (q + q') := by
  by_cases gone : x.quantity - q = 0
  · have all : x.quantity - (q + q' : Nat) = 0 := by
      push_cast
      omega
    rw [minus,if_pos gone,minus,if_pos all]
    rfl
  · rw [minus,if_neg gone]
    show minus ⟨x.orderId,x.isBuy,x.priceTicks,x.quantity - q⟩ q' = _
    rw [minus,minus,Int.sub_sub,Nat.cast_add]

end Resting

/-- An entry of a ledger; `ackedBy` is the sequence number of the `OrderAck` that it is from. -/
structure Entry extends Resting where
  ackedBy : Option Nat
deriving DecidableEq, Repr

/-- The entries and the trades that have been read. -/
structure Ledger where
  entries : List Entry
  trades : List Report
deriving DecidableEq, Repr

/-- Zero entries vanish. -/
def live (es : List Entry) : List Entry := es.filter fun e => e.quantity ≠ 0

/-- A trade names an entry as its maker, or as its taker if the message of the trade has entered it. -/
def Entry.tradedBy (e : Entry) (r : Report) : Prop :=
  e.orderId = r.makerOrderId ∨ e.orderId = r.takerOrderId ∧ e.ackedBy = some r.sequenceNumber

instance (e : Entry) (r : Report) : Decidable (e.tradedBy r) := inferInstanceAs (Decidable (_ ∨ _))

def Entry.reduce (e : Entry) (r : Report) : Entry := if e.tradedBy r then { e with quantity := e.quantity - r.quantity } else e

namespace Ledger

def empty : Ledger := ⟨[],[]⟩

/-- What the trades of a sequence number have filled of their taker. -/
def takerFilled (l : Ledger) (seq orderId : Nat) : Nat :=
  ((l.trades.filter fun r => r.sequenceNumber = seq ∧ r.takerOrderId = orderId).map Report.quantity).sum

def read (l : Ledger) (r : Report) : Ledger :=
  match r.type with
  | .orderAck => { l with
      entries := live (l.entries ++ [⟨⟨r.orderId,r.side = 0,r.priceTicks,r.quantity⟩,some r.sequenceNumber⟩]) }
  | .trade => { entries := live (l.entries.map fun e => e.reduce r), trades := l.trades ++ [r] }
  | .cancelAck => { l with entries := l.entries.filter fun e => e.orderId ≠ r.orderId }
  | .modifyAck => { l with
      entries := live (l.entries.filter (fun e => e.orderId ≠ r.orderId) ++
        [⟨⟨r.orderId,r.side = 0,r.priceTicks,r.quantity - l.takerFilled r.sequenceNumber r.orderId⟩,none⟩]) }
  | .cancelReject => l
  | .modifyReject => l

/-- The ledger of some reports. -/
def ofReports (rs : List Report) : Ledger := rs.foldl read empty

def restings (l : Ledger) : List Resting := l.entries.map Entry.toResting

/-- One side, best price first and first come first. -/
def side (l : Ledger) (isBuy : Bool) : List Resting := sortBy (Resting.key isBuy) (l.restings.filter fun x => x.isBuy = isBuy)

/-- The highest bid. -/
def bestBid (l : Ledger) : Int := ((l.restings.filter fun x => x.isBuy = true).map Resting.priceTicks).foldr max BabobookAdapter.int64Min

/-- The lowest ask. -/
def bestAsk (l : Ledger) : Int := ((l.restings.filter fun x => x.isBuy = false).map Resting.priceTicks).foldr min BabobookAdapter.int64Max

def depthAt (l : Ledger) (priceTicks : Int) (isBuy : Bool) : Int :=
  ((l.restings.filter fun x => x.isBuy = isBuy ∧ x.priceTicks = priceTicks).map Resting.quantity).sum

/-! ## Reading trades -/

/-- What some trades take of an entry. -/
def taken (rs : List Report) (e : Entry) : Nat := ((rs.filter fun r => e.tradedBy r).map Report.quantity).sum

theorem taken_cons (r : Report) (rs : List Report) (e : Entry) : taken (r :: rs) e = taken [r] e + taken rs e := by
  by_cases named : e.tradedBy r <;> simp [taken,named]

/-- What some trades leave of an entry. -/
def rest (rs : List Report) (e : Entry) : Option Entry := (e.toResting.minus (taken rs e)).map fun x => { e with toResting := x }

theorem rest_some {rs : List Report} {e e' : Entry} (left : rest rs e = some e') : e'.ackedBy = e.ackedBy ∧
    e.toResting.minus (taken rs e) = some e'.toResting := by
  obtain ⟨x,isLeft,rfl⟩ := Option.map_eq_some_iff.mp left
  exact ⟨rfl,isLeft⟩

/-- The entries that are left, as resting orders. -/
theorem restings_rest (rs : List Report) (es : List Entry) (f : Nat → Nat) (all : ∀ e ∈ es, taken rs e = f e.orderId) :
    (es.filterMap (rest rs)).map Entry.toResting = (es.map Entry.toResting).filterMap fun x => x.minus (f x.orderId) := by
  rw [List.map_filterMap,List.filterMap_map]
  apply List.filterMap_congr
  intro e member
  simp only [rest,all e member,Option.map_map,Function.comp_def]
  exact Option.map_id'

theorem live_reduce (r : Report) (es : List Entry) : live (es.map fun e => e.reduce r) = es.filterMap (rest [r]) := by
  induction es with
  | nil => rfl
  | cons e es ih =>
    have tail : live ((e :: es).map fun e => e.reduce r) =
        (if (e.reduce r).quantity ≠ 0 then [e.reduce r] else []) ++ live (es.map fun e => e.reduce r) := by
      unfold live
      rw [List.map_cons,List.filter_cons]
      split_ifs with alive <;> simp_all
    rw [tail,ih]
    by_cases named : e.tradedBy r
    · have isTaken : taken [r] e = r.quantity := by simp [taken,named]
      by_cases gone : e.quantity - r.quantity = 0
      · simp [Entry.reduce,named,gone,rest,isTaken,Resting.minus]
      · simp [Entry.reduce,named,gone,rest,isTaken,Resting.minus]
    · have isTaken : taken [r] e = 0 := by simp [taken,named]
      by_cases gone : e.quantity = 0
      · simp [Entry.reduce,named,gone,rest,isTaken,Resting.minus]
      · simp [Entry.reduce,named,gone,rest,isTaken,Resting.minus]

theorem rest_add {r : Report} {rs : List Report} {e : Entry} (enough : taken (r :: rs) e ≤ e.quantity) :
    (rest [r] e).bind (rest rs) = rest (r :: rs) e := by
  rw [taken_cons] at enough
  have both : (e.toResting.minus (taken [r] e)).bind (fun y => y.minus (taken rs e)) = e.toResting.minus (taken [r] e + taken rs e) :=
    Resting.minus_add (by exact_mod_cast enough)
  rw [rest,rest,taken_cons r rs e,← both]
  cases first : e.toResting.minus (taken [r] e) with
  | none => rfl
  | some x =>
    obtain ⟨_,rfl⟩ := Resting.minus_some first
    rfl

/-- Trades are read one by one, and take what they take together. -/
theorem read_trades (rs : List Report) : ∀ l : Ledger, (∀ r ∈ rs, r.type = .trade) → (∀ e ∈ l.entries, e.quantity ≠ 0) →
    (∀ e ∈ l.entries, (taken rs e : Int) ≤ e.quantity) → rs.foldl read l = ⟨l.entries.filterMap (rest rs),l.trades ++ rs⟩ := by
  induction rs with
  | nil =>
    intro l _ opened _
    have same : l.entries.filterMap (rest []) = l.entries := by
      refine (List.filterMap_congr (g := some) ?_).trans List.filterMap_some
      intro e member
      have all : e.toResting.minus (taken [] e) = some e.toResting := Resting.minus_zero (opened e member)
      rw [rest,all]
      rfl
    simp [same]
  | cons r rs ih =>
    intro l trades opened enough
    obtain ⟨isTrade,trades'⟩ := List.forall_mem_cons.mp trades
    have first : l.read r = ⟨l.entries.filterMap (rest [r]),l.trades ++ [r]⟩ := by
      rw [read,isTrade,live_reduce]
    have kept : ∀ e' ∈ l.entries.filterMap (rest [r]), e'.quantity ≠ 0 ∧ (taken rs e' : Int) ≤ e'.quantity := by
      intro e' member
      obtain ⟨e,inEntries,left⟩ := List.mem_filterMap.mp member
      obtain ⟨sameAck,isLeft⟩ := rest_some left
      obtain ⟨alive,isX⟩ := Resting.minus_some isLeft
      have total := enough e inEntries
      rw [taken_cons] at total
      have sameId : e'.orderId = e.orderId := by rw [isX]
      have quantity : e'.quantity = e.quantity - taken [r] e := by rw [isX]
      have sameTaken : taken rs e' = taken rs e := by
        have named : ∀ r', e'.tradedBy r' ↔ e.tradedBy r' := by
          intro r'
          rw [Entry.tradedBy,Entry.tradedBy,sameId,sameAck]
        simp only [taken,named]
      rw [quantity,sameTaken]
      push_cast at total
      exact ⟨alive,by omega⟩
    rw [List.foldl_cons,first,ih _ trades' (fun e member => (kept e member).1) (fun e member => (kept e member).2),List.filterMap_filterMap]
    have each : ∀ e ∈ l.entries, (rest [r] e).bind (rest rs) = rest (r :: rs) e := fun e member => rest_add (enough e member)
    rw [List.filterMap_congr each]
    simp

end Ledger

end BaboEngine
