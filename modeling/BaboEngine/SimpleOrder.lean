import Mathlib.Logic.Function.Basic
import Mathlib.Tactic.Common

/-!
# Orders

The order payload that the book keeps by value. Quantities, prices and costs
are 32-bit in the source; here they are natural numbers and every operation that
can leave the 32-bit range reduces its result (`toU32`, `toI32`).
-/

namespace BaboEngine

/-- An address in a pool: a block and a chunk of that block. The null pointer is `none`. -/
structure Ptr where
  block : Nat
  chunk : Nat
deriving DecidableEq, Repr

/-- Conversion to `std::uint32_t`. -/
def toU32 (x : Int) : Nat := (x % 4294967296).toNat

/-- Conversion to `std::int32_t`, two's complement. -/
def toI32 (x : Int) : Int := Int.bmod x 4294967296

inductive OrderState where
  | osNew
  | osAccepted
  | osComplete
  | osCancelled
  | osRejected
deriving DecidableEq, Repr

/-! The bits of `OrderConditions`. -/

def ocNoConditions : UInt32 := 0
def ocAllOrNone : UInt32 := 1
def ocImmediateOrCancel : UInt32 := 2
def ocFillOrKill : UInt32 := 3

def marketOrderPrice : Nat := 0
def priceUnchanged : Nat := 0

structure SimpleOrder where
  state : OrderState
  isBuy : Bool
  orderQty : Nat
  price : Nat
  stopPrice : Nat
  conditions : UInt32
  filledQty : Nat
  filledCost : Nat
  reserved : Int
  orderId : Nat
  level : Option Ptr
deriving DecidableEq, Repr

namespace SimpleOrder

/-- The default constructor, which fills the slots of a fresh node. -/
def empty : SimpleOrder where
  state := .osNew
  isBuy := false
  orderQty := 0
  price := 0
  stopPrice := 0
  conditions := 0
  filledQty := 0
  filledCost := 0
  reserved := 0
  orderId := 0
  level := none

/-- The constructor, with the id that the caller stamps on the order. -/
def new (isBuy : Bool) (price qty stopPrice conditions orderId : UInt32) : SimpleOrder where
  state := .osNew
  isBuy := isBuy
  orderQty := qty.toNat
  price := price.toNat
  stopPrice := stopPrice.toNat
  conditions := conditions
  filledQty := 0
  filledCost := 0
  reserved := 0
  orderId := orderId.toNat
  level := none

def openQty (o : SimpleOrder) : Nat :=
  if o.filledQty ≥ o.orderQty then 0
  else
    let remaining := o.orderQty - o.filledQty
    if o.reserved > 0 ∧ o.reserved.toNat < remaining then remaining - o.reserved.toNat
    else if o.reserved ≤ 0 then remaining else 0

def fill (o : SimpleOrder) (fillQty fillCost : Nat) : SimpleOrder :=
  let filled := { o with
    filledQty := toU32 (o.filledQty + fillQty)
    filledCost := toU32 (o.filledCost + fillCost) }
  if filled.openQty = 0 then { filled with state := .osComplete } else filled

def allOrNone (o : SimpleOrder) : Bool := o.conditions &&& ocAllOrNone != 0

def immediateOrCancel (o : SimpleOrder) : Bool := o.conditions &&& ocImmediateOrCancel != 0

/-- The 32-bit signed sum wraps; its overflow is looked at separately. -/
def modify (o : SimpleOrder) (sizeDelta : Int) (newPrice : Nat) : SimpleOrder :=
  let resized := { o with orderQty := toU32 (toI32 (toI32 o.orderQty + sizeDelta)) }
  if newPrice ≠ 0 then { resized with price := toU32 newPrice } else resized

/-! ## What the operations keep -/

theorem fill_cases (o : SimpleOrder) (fillQty fillCost : Nat) : ∃ st, o.fill fillQty fillCost = { o with
    state := st
    filledQty := toU32 (o.filledQty + fillQty)
    filledCost := toU32 (o.filledCost + fillCost) } := by
  simp only [fill]
  split_ifs
  · exact ⟨.osComplete,rfl⟩
  · exact ⟨o.state,rfl⟩

variable (o : SimpleOrder) (q c : Nat)

@[simp] theorem fill_orderId : (o.fill q c).orderId = o.orderId := by
  obtain ⟨st,filled⟩ := fill_cases o q c; rw [filled]
@[simp] theorem fill_level : (o.fill q c).level = o.level := by
  obtain ⟨st,filled⟩ := fill_cases o q c; rw [filled]
@[simp] theorem fill_isBuy : (o.fill q c).isBuy = o.isBuy := by
  obtain ⟨st,filled⟩ := fill_cases o q c; rw [filled]
@[simp] theorem fill_price : (o.fill q c).price = o.price := by
  obtain ⟨st,filled⟩ := fill_cases o q c; rw [filled]
@[simp] theorem fill_stopPrice : (o.fill q c).stopPrice = o.stopPrice := by
  obtain ⟨st,filled⟩ := fill_cases o q c; rw [filled]
@[simp] theorem fill_conditions : (o.fill q c).conditions = o.conditions := by
  obtain ⟨st,filled⟩ := fill_cases o q c; rw [filled]
@[simp] theorem fill_orderQty : (o.fill q c).orderQty = o.orderQty := by
  obtain ⟨st,filled⟩ := fill_cases o q c; rw [filled]
@[simp] theorem fill_reserved : (o.fill q c).reserved = o.reserved := by
  obtain ⟨st,filled⟩ := fill_cases o q c; rw [filled]
@[simp] theorem fill_filledQty : (o.fill q c).filledQty = toU32 (o.filledQty + q) := by
  obtain ⟨st,filled⟩ := fill_cases o q c; rw [filled]
@[simp] theorem fill_allOrNone : (o.fill q c).allOrNone = o.allOrNone := by simp [allOrNone]
@[simp] theorem fill_immediateOrCancel : (o.fill q c).immediateOrCancel = o.immediateOrCancel := by
  simp [immediateOrCancel]

theorem modify_cases (d : Int) (p : Nat) : o.modify d p = { o with
    orderQty := toU32 (toI32 (toI32 o.orderQty + d))
    price := if p ≠ 0 then toU32 p else o.price } := by
  simp only [modify]
  split_ifs <;> rfl

theorem modify_fields (d : Int) (p : Nat) : (o.modify d p).orderId = o.orderId ∧ (o.modify d p).level = o.level ∧
    (o.modify d p).isBuy = o.isBuy ∧ (o.modify d p).stopPrice = o.stopPrice ∧
    (o.modify d p).conditions = o.conditions ∧ (o.modify d p).filledQty = o.filledQty ∧
    (o.modify d p).reserved = o.reserved ∧ (o.modify d p).orderQty = toU32 (toI32 (toI32 o.orderQty + d)) ∧
    (o.modify d p).price = if p ≠ 0 then toU32 p else o.price := by
  simp [modify_cases]

/-- The open quantity does not depend on the price. -/
theorem modify_openQty (d : Int) (p p' : Nat) : (o.modify d p).openQty = (o.modify d p').openQty := by
  simp [modify_cases,openQty]

/-! ## Fields in range -/

/-- The fields of an order that the book has made fit their types, and nothing is reserved. -/
structure Sized (o : SimpleOrder) : Prop where
  orderQty : o.orderQty < 4294967296
  filledQty : o.filledQty < 4294967296
  reserved : o.reserved = 0

theorem toU32_lt (x : Int) : toU32 x < 4294967296 := by
  unfold toU32
  omega

theorem toU32_of_lt {n : Nat} (small : n < 4294967296) : toU32 n = n := by
  unfold toU32
  omega

theorem toU32_le (n : Nat) : toU32 n ≤ n := by
  unfold toU32
  omega

/-- Reducing a summand first makes no difference. -/
theorem toU32_add (a b : Int) : toU32 (toU32 a + b) = toU32 (a + b) := by
  unfold toU32
  omega

variable {o} {q c}

theorem sized_new (isBuy : Bool) (price qty stopPrice conditions orderId : UInt32) :
    (new isBuy price qty stopPrice conditions orderId).Sized :=
  ⟨UInt32.toNat_lt qty,by simp [new],rfl⟩

theorem Sized.fill (sized : o.Sized) (q c : Nat) : (o.fill q c).Sized :=
  ⟨by rw [fill_orderQty]; exact sized.orderQty,by rw [fill_filledQty]; exact toU32_lt _,
    by rw [fill_reserved]; exact sized.reserved⟩

theorem Sized.modify (sized : o.Sized) (d : Int) (p : Nat) : (o.modify d p).Sized := by
  obtain ⟨_,_,_,_,_,filledQty,reserved,orderQty,_⟩ := modify_fields o d p
  exact ⟨by rw [orderQty]; exact toU32_lt _,by rw [filledQty]; exact sized.filledQty,by rw [reserved]; exact sized.reserved⟩

theorem Sized.openQty (sized : o.Sized) : o.openQty = o.orderQty - o.filledQty := by
  simp only [SimpleOrder.openQty,sized.reserved]
  split_ifs <;> simp_all

/-- A fill that fits does not wrap. -/
theorem Sized.filledQty_fill (sized : o.Sized) (enough : q ≤ o.openQty) : (o.fill q c).filledQty = o.filledQty + q := by
  have inRange : o.filledQty + q < 4294967296 := by
    have := sized.orderQty
    have := sized.filledQty
    have := sized.openQty
    omega
  rw [fill_filledQty,show ((o.filledQty : Int) + (q : Int)) = ((o.filledQty + q : Nat) : Int) by push_cast; rfl,toU32_of_lt inRange]

/-- A fill takes its quantity off the open quantity. -/
theorem Sized.openQty_fill (sized : o.Sized) (enough : q ≤ o.openQty) : (o.fill q c).openQty = o.openQty - q := by
  have before := sized.openQty
  rw [(sized.fill q c).openQty,fill_orderQty,sized.filledQty_fill enough]
  omega

/-- A change of quantity that fits does not wrap. -/
theorem modify_orderQty {d : Int} (p : Nat) (fits : 0 ≤ (o.orderQty : Int) + d) (small : (o.orderQty : Int) + d < 4294967296) :
    ((o.modify d p).orderQty : Int) = o.orderQty + d := by
  obtain ⟨_,_,_,_,_,_,_,orderQty,_⟩ := o.modify_fields d p
  have reduced : ∀ x : Int, toI32 x % 4294967296 = x % 4294967296 := fun x => Int.bmod_emod (m := 4294967296)
  rw [orderQty,toU32,reduced,Int.add_emod,reduced,← Int.add_emod,Int.emod_eq_of_lt fits small,Int.toNat_of_nonneg fits]

end SimpleOrder

end BaboEngine
