import BaboEngine.SimpleOrder

/-!
# The interface of an engine

The messages and the reports of `matching_engine_api.h`. Messages are typed as in the
source; a report is filled from them and from the book, so its fields are numbers.
-/

namespace BaboEngine

/-- `static_cast<std::uint32_t>`. -/
def castU32 (x : Int) : UInt32 := .ofNat (toU32 x)

/-- Conversion to `std::uint64_t`. -/
def toU64 (x : Nat) : Nat := x % 18446744073709551616

theorem castU32_toNat {x : Int} (nonneg : 0 ≤ x) (small : x < 4294967296) : ((castU32 x).toNat : Int) = x := by
  have bound : toU32 x < 4294967296 := by
    unfold toU32
    omega
  rw [castU32,UInt32.toNat_ofNat_of_lt' (by show _ < 4294967296; omega)]
  unfold toU32
  omega

theorem toU64_of_lt {x : Nat} (small : x < 18446744073709551616) : toU64 x = x := Nat.mod_eq_of_lt small

/-- `new_order_t`. -/
structure NewOrder where
  orderId : UInt64
  sequenceNumber : UInt64
  priceTicks : Int64
  quantity : UInt32
  side : UInt8
  ioc : UInt8
deriving DecidableEq

/-- `cancel_t`. -/
structure CancelOrder where
  orderId : UInt64
  sequenceNumber : UInt64
deriving DecidableEq

/-- `modify_t`. -/
structure ModifyOrder where
  orderId : UInt64
  sequenceNumber : UInt64
  newPriceTicks : Int64
  newQuantity : UInt32
  side : UInt8
deriving DecidableEq

/-- `me_msg_t`. -/
inductive Message where
  | newOrder (o : NewOrder)
  | cancel (c : CancelOrder)
  | modify (m : ModifyOrder)
deriving DecidableEq

/-- `me_report_type_t`. -/
inductive ReportType where
  | orderAck
  | trade
  | cancelAck
  | modifyAck
  | cancelReject
  | modifyReject
deriving DecidableEq, Repr

/-- `me_report_t`. -/
structure Report where
  type : ReportType
  side : Nat
  sequenceNumber : Nat
  orderId : Nat
  priceTicks : Int
  quantity : Nat
  makerOrderId : Nat
  takerOrderId : Nat
deriving DecidableEq, Repr

/-- A report that says nothing but its type, `me_report_t r{}`. -/
def Report.ofType (type : ReportType) : Report := ⟨type,0,0,0,0,0,0,0⟩

namespace Message

def sequenceNumber : Message → Nat
  | .newOrder o => o.sequenceNumber.toNat
  | .cancel c => c.sequenceNumber.toNat
  | .modify m => m.sequenceNumber.toNat

def orderId : Message → Nat
  | .newOrder o => o.orderId.toNat
  | .cancel c => c.orderId.toNat
  | .modify m => m.orderId.toNat

/-- The price of the order that a message brings. -/
def priceTicks : Message → Option Int
  | .newOrder o => some o.priceTicks.toInt
  | .cancel _ => none
  | .modify m => some m.newPriceTicks.toInt

/-- The quantity of the order that a message brings. -/
def quantity : Message → Option Nat
  | .newOrder o => some o.quantity.toNat
  | .cancel _ => none
  | .modify m => some m.newQuantity.toNat

/-- Ids and prices are positive and fit into 32 bits. -/
def InRange (m : Message) : Prop :=
  (1 ≤ m.orderId ∧ m.orderId < 4294967296) ∧ ∀ p ∈ m.priceTicks, 1 ≤ p ∧ p < 4294967296

instance (m : Message) : Decidable m.InRange := inferInstanceAs (Decidable (_ ∧ _))

end Message

end BaboEngine
