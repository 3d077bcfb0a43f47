import BaboEngine.Liquibook

/-!
# The depth of liquibook

`depth_level.h` and `depth.h`: the totals of the best `SIZE` prices of each side stand in an array, the bids before
the asks, and those of the worse prices in a map for each side. A pointer to a level is a place of the
array or a key of the map; the place behind the asks is past the array. A call may throw, and what it has
written until then stays.
-/

namespace BaboEngine.LiquibookDepth

def invalidLevelPrice : Nat := 0

/-- How a call ends, with what it leaves. -/
inductive Ending (σ α : Type) where
  | returned (left : σ) (value : α)
  | thrown (what : String) (left : σ)
  | undefined

structure DepthLevel where
  price : Nat
  orderCount : Nat
  aggregateQty : Nat
  isExcess : Bool
  /-- `none` if it was never written. -/
  lastChange : Option Nat
deriving DecidableEq

namespace DepthLevel

/-- A level of zeros. -/
def zero : DepthLevel := ⟨0,0,0,false,some 0⟩

/-- The constructor, with the flag that every user of it writes at once. -/
def new (isExcess : Bool) : DepthLevel := ⟨invalidLevelPrice,0,0,isExcess,none⟩

/-- `operator =`, which keeps the flag. -/
def assign (l rhs : DepthLevel) : DepthLevel := { l with
  price := rhs.price
  orderCount := rhs.orderCount
  aggregateQty := rhs.aggregateQty
  lastChange := if rhs.price ≠ invalidLevelPrice then rhs.lastChange else l.lastChange }

def init (l : DepthLevel) (price : Nat) (isExcess : Bool) : DepthLevel := { l with
  price := price
  orderCount := 0
  aggregateQty := 0
  isExcess := isExcess }

def addOrder (l : DepthLevel) (qty : Nat) : DepthLevel := { l with
  orderCount := toU32 (l.orderCount + 1)
  aggregateQty := toU32 (l.aggregateQty + qty) }

def increaseQty (l : DepthLevel) (qty : Nat) : DepthLevel := { l with aggregateQty := toU32 (l.aggregateQty + qty) }

def decreaseQty (l : DepthLevel) (qty : Nat) : DepthLevel := { l with aggregateQty := toU32 (l.aggregateQty - qty) }

/-- `close_order`; the value is whether the level is empty now. -/
def closeOrder (l : DepthLevel) (qty : Nat) : Ending DepthLevel Bool :=
  if l.orderCount = 0 then .thrown "DepthLevel::close_order order count too low" l
  else if l.orderCount = 1 then .returned { l with orderCount := 0, aggregateQty := 0 } true
  else
    let l := { l with orderCount := l.orderCount - 1 }
    if l.aggregateQty ≥ qty then .returned { l with aggregateQty := l.aggregateQty - qty } false
    else .thrown "DepthLevel::close_order level quantity too low" l

def changed (l : DepthLevel) (change : Nat) : DepthLevel := { l with lastChange := some change }

def changedSince (l : DepthLevel) (lastPublishedChange : Nat) : Bool := l.lastChange.any (· > lastPublishedChange)

end DepthLevel

/-- `std::map` with the levels of a side, the best price first. -/
abbrev LevelMap := List (Nat × DepthLevel)

/-- The order of the prices of a side. -/
def better (isBid : Bool) (p q : Nat) : Prop := if isBid then q < p else p < q

instance (isBid : Bool) (p q : Nat) : Decidable (better isBid p q) := by
  unfold better
  infer_instance

namespace LevelMap

def find (m : LevelMap) (price : Nat) : Option DepthLevel := m.lookup price

/-- `insert`, which leaves a key that is there alone. -/
def insert (isBid : Bool) (price : Nat) (l : DepthLevel) : LevelMap → LevelMap
  | [] => [(price,l)]
  | e :: m => if better isBid price e.1 then (price,l) :: e :: m else if price = e.1 then e :: m else e :: insert isBid price l m

def erase (m : LevelMap) (price : Nat) : LevelMap := m.filter (·.1 ≠ price)

/-- The level of a key is written. -/
def write (m : LevelMap) (price : Nat) (l : DepthLevel) : LevelMap := m.map fun e => if e.1 = price then (price,l) else e

end LevelMap

/-- `DepthLevel*`. -/
inductive Place where
  | slot (i : Nat)
  | excess (price : Nat)
deriving DecidableEq

structure Depth (size : Nat) where
  levels : Vector DepthLevel (size * 2)
  lastChange : Nat
  lastPublishedChange : Nat
  ignoreBidFillQty : Nat
  ignoreAskFillQty : Nat
  excessBidLevels : LevelMap
  excessAskLevels : LevelMap

namespace Depth
variable {size : Nat}

def new (size : Nat) : Depth size := ⟨.replicate _ .zero,0,0,0,0,[],[]⟩

/-- `bids` and `asks`: the first level of a side. -/
def first (size : Nat) (isBid : Bool) : Nat := if isBid then 0 else size

/-- `last_bid_level` and `last_ask_level`. -/
def last (size : Nat) (isBid : Bool) : Nat := first size isBid + (size - 1)

def level (d : Depth size) (i : Nat) : DepthLevel := (d.levels[i]?).getD .zero

def setLevel (d : Depth size) (i : Nat) (l : DepthLevel) : Depth size := { d with levels := d.levels.setIfInBounds i l }

def excess (d : Depth size) (isBid : Bool) : LevelMap := if isBid then d.excessBidLevels else d.excessAskLevels

def setExcess (d : Depth size) (isBid : Bool) (m : LevelMap) : Depth size :=
  if isBid then { d with excessBidLevels := m } else { d with excessAskLevels := m }

/-- `++last_change_`. -/
def bump (d : Depth size) : Depth size := { d with lastChange := toU32 (d.lastChange + 1) }

/-- What a pointer points to. -/
def read (d : Depth size) (isBid : Bool) : Place → Option DepthLevel
  | .slot i => d.levels[i]?
  | .excess price => (d.excess isBid).find price

def write (d : Depth size) (isBid : Bool) (l : DepthLevel) : Place → Depth size
  | .slot i => d.setLevel i l
  | .excess price => d.setExcess isBid ((d.excess isBid).write price l)

/-- The loop of `insert_level_before`, with one more than the current level. -/
def shiftDown (level : Nat) : Nat → Depth size → Depth size
  | 0, d => d
  | current + 1, d =>
    if current ≥ level then
      let d := d.setLevel (current + 1) ((d.level (current + 1)).assign (d.level current))
      let d := if (d.level current).price ≠ invalidLevelPrice then d.setLevel (current + 1) ((d.level (current + 1)).changed d.lastChange) else d
      shiftDown level current d
    else d

def insertLevelBefore (d : Depth size) (level : Nat) (isBid : Bool) (price : Nat) : Depth size :=
  let lastSideLevel := last size isBid
  let d :=
    if (d.level lastSideLevel).price ≠ invalidLevelPrice then
      let excessLevel := ((DepthLevel.new true).init 0 true).assign (d.level lastSideLevel)
      d.setExcess isBid ((d.excess isBid).insert isBid (d.level lastSideLevel).price excessLevel)
    else d
  let d := d.bump.shiftDown level lastSideLevel
  d.setLevel level ((d.level level).init price false)

/-- The loop of `find_level`, with the number of levels that are left of the side. -/
def findLoop (price : Nat) (isBid shouldCreate : Bool) (d : Depth size) : Nat → Nat → Depth size × Nat
  | 0, level => (d,level)
  | left + 1, level =>
    if (d.level level).price = price then (d,level)
    else if shouldCreate ∧ (d.level level).price = invalidLevelPrice then (d.setLevel level ((d.level level).init price false),level)
    else if isBid ∧ shouldCreate ∧ (d.level level).price < price then (d.insertLevelBefore level isBid price,level)
    else if !isBid ∧ shouldCreate ∧ (d.level level).price > price then (d.insertLevelBefore level isBid price,level)
    else findLoop price isBid shouldCreate d left (level + 1)

/-- `find_level`. It never gives a null pointer: a level that is not found and not created is the one past the side. -/
def findLevel (d : Depth size) (price : Nat) (isBid shouldCreate : Bool) : Depth size × Place :=
  let (d,level) := d.findLoop price isBid shouldCreate size (first size isBid)
  if level = first size isBid + size then
    match (d.excess isBid).find price with
    | some _ => (d,.excess price)
    | none =>
      if shouldCreate then
        (d.setExcess isBid ((d.excess isBid).insert isBid price ((DepthLevel.new true).init price true)),.excess price)
      else (d,.slot level)
  else (d,.slot level)

/-- The loop of `erase_level`, with the number of levels that are left before the last one. -/
def shiftUp (level : Nat) : Nat → Nat → Depth size → Depth size
  | 0, _, d => d
  | left + 1, current, d =>
    let d :=
      if (d.level current).price ≠ invalidLevelPrice ∨ current = level then
        let d := d.setLevel current ((d.level current).assign (d.level (current + 1)))
        d.setLevel current ((d.level current).changed d.lastChange)
      else d
    shiftUp level left (current + 1) d

/-- The last level of a side comes from the map, or is blank. -/
def refillLast (d : Depth size) (isBid : Bool) : Depth size :=
  match d.excess isBid with
  | best :: rest => (d.setLevel (last size isBid) ((d.level (last size isBid)).assign best.2)).setExcess isBid rest
  | [] => d.setLevel (last size isBid) (((d.level (last size isBid)).init invalidLevelPrice false).changed d.lastChange)

def eraseLevel (d : Depth size) (place : Place) (isBid : Bool) : Option (Depth size) := do
  let l ← d.read isBid place
  if l.isExcess then some (d.setExcess isBid ((d.excess isBid).erase l.price))
  else
    match place with
    | .excess _ => none
    | .slot level =>
      let lastSideLevel := last size isBid
      let d := d.bump.shiftUp level (lastSideLevel - level) level
      if level = lastSideLevel ∨ (d.level lastSideLevel).price ≠ invalidLevelPrice then
        let d := d.refillLast isBid
        some (d.setLevel lastSideLevel ((d.level lastSideLevel).changed d.lastChange))
      else some d

def addOrder (d : Depth size) (price qty : Nat) (isBid : Bool) : Ending (Depth size) Unit :=
  let lastChangeCopy := d.lastChange
  let (d,level) := d.findLevel price isBid true
  match d.read isBid level with
  | none => .undefined
  | some l =>
    let l := l.addOrder qty
    if !l.isExcess then
      let d := { d with lastChange := toU32 (lastChangeCopy + 1) }
      .returned (d.write isBid (l.changed (toU32 (lastChangeCopy + 1))) level) ()
    else .returned (d.write isBid l level) ()

def ignoreFillQty (d : Depth size) (qty : Nat) (isBid : Bool) : Ending (Depth size) Unit :=
  if isBid then
    if d.ignoreBidFillQty ≠ 0 then .thrown "Unexpected ignore_bid_fill_qty_" d else .returned { d with ignoreBidFillQty := qty } ()
  else
    if d.ignoreAskFillQty ≠ 0 then .thrown "Unexpected ignore_ask_fill_qty_" d else .returned { d with ignoreAskFillQty := qty } ()

/-- `close_order`; the value is whether a level was erased. -/
def closeOrder (d : Depth size) (price openQty : Nat) (isBid : Bool) : Ending (Depth size) Bool :=
  let (d,level) := d.findLevel price isBid false
  match d.read isBid level with
  | none => .undefined
  | some l =>
    match l.closeOrder openQty with
    | .returned l true =>
      match (d.write isBid l level).eraseLevel level isBid with
      | some d => .returned d true
      | none => .undefined
    | .returned l false => .returned (d.bump.write isBid (l.changed d.bump.lastChange) level) false
    | .thrown what l => .thrown what (d.write isBid l level)
    | .undefined => .undefined

def changeQtyOrder (d : Depth size) (price : Nat) (qtyDelta : Int) (isBid : Bool) : Ending (Depth size) Unit :=
  let (d,level) := d.findLevel price isBid false
  if qtyDelta = 0 then .returned d ()
  else
    match d.read isBid level with
    | none => .undefined
    | some l =>
      let l := if qtyDelta > 0 then l.increaseQty qtyDelta.toNat else l.decreaseQty qtyDelta.natAbs
      .returned (d.bump.write isBid (l.changed d.bump.lastChange) level) ()

/-- `fill_order`; the quantity is negated as an `int32_t`. -/
def fillOrder (d : Depth size) (price fillQty : Nat) (filled isBid : Bool) : Ending (Depth size) Unit :=
  if isBid ∧ d.ignoreBidFillQty ≠ 0 then .returned { d with ignoreBidFillQty := toU32 (d.ignoreBidFillQty - fillQty) } ()
  else if !isBid ∧ d.ignoreAskFillQty ≠ 0 then .returned { d with ignoreAskFillQty := toU32 (d.ignoreAskFillQty - fillQty) } ()
  else if filled then
    match d.closeOrder price fillQty isBid with
    | .returned d _ => .returned d ()
    | .thrown what d => .thrown what d
    | .undefined => .undefined
  else if toI32 fillQty = -2147483648 then .undefined
  else d.changeQtyOrder price (-toI32 fillQty) isBid

def changed (d : Depth size) : Bool := d.lastChange > d.lastPublishedChange

def published (d : Depth size) : Depth size := { d with lastPublishedChange := d.lastChange }

end Depth

end BaboEngine.LiquibookDepth
