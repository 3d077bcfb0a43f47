import BaboEngine.LiquibookDepth
import BaboEngine.Listings

/-!
# The levels of liquibook's depth

A side lists the totals of its prices, best first: the first `SIZE` of them in the array and the others in the map
(`Holds`). A level of the array that a call shifts has the stamp of its change, and a price that is listed is found, read
and written at its place (`findLevel_eq`, `Holds.read`).
-/

namespace BaboEngine.LiquibookDepth
open Listings

instance (isBid : Bool) : IsStrictTotalOrder Nat (better isBid) where
  trichotomous p q notLess notGreater := by
    cases isBid <;> simp only [better] at notLess notGreater <;> simp at notLess notGreater <;> omega
  irrefl p := by cases isBid <;> simp [better]
  trans p q r := by cases isBid <;> simp only [better] <;> simp <;> omega

/-- The totals of a price. -/
structure Tally where
  count : Nat
  qty : Nat
deriving DecidableEq

/-- The totals of a price, with one more order. -/
def Tally.added (o : Option Tally) (qty : Nat) : Tally :=
  match o with
  | none => ⟨1,qty⟩
  | some v => ⟨v.count + 1,v.qty + qty⟩

/-- The totals of a price, with one order less. -/
def Tally.closed (v : Tally) (qty : Nat) : Option Tally := if v.count = 1 then none else some ⟨v.count - 1,v.qty - qty⟩

namespace DepthLevel

def totals (l : DepthLevel) : Nat × Tally := (l.price,⟨l.orderCount,l.aggregateQty⟩)

/-- What a level of the array has without a price. -/
def blank : Nat × Tally := (invalidLevelPrice,⟨0,0⟩)

@[simp] theorem totals_assign (l rhs : DepthLevel) : (l.assign rhs).totals = rhs.totals := rfl
@[simp] theorem totals_changed (l : DepthLevel) (change : Nat) : (l.changed change).totals = l.totals := rfl

theorem totals_iff {l : DepthLevel} {p : Nat} {v : Tally} : l.totals = (p,v) ↔ l.price = p ∧ l.orderCount = v.count ∧ l.aggregateQty = v.qty := by
  obtain ⟨count,qty⟩ := v
  simp [totals]

theorem totals_addOrder {l : DepthLevel} {p q : Nat} {v : Tally} (totals : l.totals = (p,v)) (fits : v.count + 1 < 4294967296)
    (fits' : v.qty + q < 4294967296) : (l.addOrder q).totals = (p,⟨v.count + 1,v.qty + q⟩) := by
  obtain ⟨price,count,qty⟩ := totals_iff.mp totals
  refine totals_iff.mpr ⟨price,?_,?_⟩
  · rw [addOrder,count]
    exact SimpleOrder.toU32_of_lt fits
  · rw [addOrder,qty]
    exact SimpleOrder.toU32_of_lt fits'

theorem totals_decreaseQty {l : DepthLevel} {p q : Nat} {v : Tally} (totals : l.totals = (p,v)) (enough : q ≤ v.qty)
    (fits : v.qty < 4294967296) : (l.decreaseQty q).totals = (p,⟨v.count,v.qty - q⟩) := by
  obtain ⟨price,count,qty⟩ := totals_iff.mp totals
  refine totals_iff.mpr ⟨price,count,?_⟩
  rw [decreaseQty,qty,← Int.ofNat_sub enough]
  exact SimpleOrder.toU32_of_lt (by omega)

theorem assign_eq {l rhs : DepthLevel} (same : rhs.totals = l.totals) (noPrice : rhs.price = invalidLevelPrice) : l.assign rhs = l := by
  obtain ⟨price,tally⟩ := Prod.mk.inj same
  obtain ⟨orderCount,aggregateQty⟩ := Tally.mk.inj tally
  rw [assign,price,orderCount,aggregateQty,if_neg (by rw [not_not,← price]; exact noPrice)]

/-- A level that is copied over another one in a shift. -/
def pushed (l rhs : DepthLevel) (change : Nat) : DepthLevel :=
  if rhs.price ≠ invalidLevelPrice then (l.assign rhs).changed change else l.assign rhs

@[simp] theorem totals_pushed (l rhs : DepthLevel) (change : Nat) : (l.pushed rhs change).totals = rhs.totals := by
  unfold pushed
  split_ifs <;> rfl

@[simp] theorem isExcess_pushed (l rhs : DepthLevel) (change : Nat) : (l.pushed rhs change).isExcess = l.isExcess := by
  unfold pushed
  split_ifs <;> rfl

end DepthLevel

/-! ## The maps -/

namespace LevelMap
variable {isBid : Bool} {p : Nat} {l l' : DepthLevel} {X Y : LevelMap}

theorem find_mid (others : ∀ e ∈ X, e.1 ≠ p) : find (X ++ (p,l) :: Y) p = some l := by
  induction X with
  | nil => exact List.lookup_cons_self
  | cons e X ih =>
    obtain ⟨first,rest⟩ := List.forall_mem_cons.mp others
    have passed : (p == e.1) = false := beq_false_of_ne first.symm
    unfold find at ih ⊢
    rw [List.cons_append,List.lookup_cons,passed]
    exact ih rest

theorem find_absent {m : LevelMap} (others : ∀ e ∈ m, e.1 ≠ p) : m.find p = none := by
  induction m with
  | nil => rfl
  | cons e m ih =>
    obtain ⟨first,rest⟩ := List.forall_mem_cons.mp others
    have passed : (p == e.1) = false := beq_false_of_ne first.symm
    unfold find at ih ⊢
    rw [List.lookup_cons,passed]
    exact ih rest

theorem write_other {m : LevelMap} (others : ∀ e ∈ m, e.1 ≠ p) : m.write p l = m := by
  refine (List.map_congr_left fun e member => ?_).trans (List.map_id m)
  rw [if_neg (others e member)]
  rfl

theorem write_mid (left : ∀ e ∈ X, e.1 ≠ p) (right : ∀ e ∈ Y, e.1 ≠ p) : write (X ++ (p,l) :: Y) p l' = X ++ (p,l') :: Y := by
  have here : write (X ++ (p,l) :: Y) p l' = write X p l' ++ (p,l') :: write Y p l' := by simp [write]
  rw [here,write_other left,write_other right]

theorem erase_mid (left : ∀ e ∈ X, e.1 ≠ p) (right : ∀ e ∈ Y, e.1 ≠ p) : erase (X ++ (p,l) :: Y) p = X ++ Y := by
  have keep : ∀ m : LevelMap, (∀ e ∈ m, e.1 ≠ p) → m.filter (·.1 ≠ p) = m :=
    fun m others => List.filter_eq_self.mpr fun e member => decide_eq_true (others e member)
  rw [erase,List.filter_append,List.filter_cons_of_neg (by simp),keep X left,keep Y right]

theorem insert_mid (left : ∀ e ∈ X, better isBid e.1 p) (right : ∀ e ∈ Y, better isBid p e.1) :
    insert isBid p l (X ++ Y) = X ++ (p,l) :: Y := by
  induction X with
  | nil =>
    cases Y with
    | nil => rfl
    | cons e Y => exact if_pos (right e List.mem_cons_self)
  | cons e X ih =>
    obtain ⟨first,rest⟩ := List.forall_mem_cons.mp left
    have notHere : ¬ better isBid p e.1 := fun back => irrefl_of (better isBid) p (trans_of (better isBid) back first)
    have other : ¬ p = e.1 := by
      rintro rfl
      exact irrefl_of (better isBid) _ first
    rw [List.cons_append,insert,if_neg notHere,if_neg other,ih rest,List.cons_append]

theorem insert_first {m : LevelMap} (ahead : ∀ e ∈ m, better isBid p e.1) : m.insert isBid p l = (p,l) :: m :=
  insert_mid (X := []) (fun _ none => absurd none List.not_mem_nil) ahead

end LevelMap

/-! ## The array -/

namespace Depth
variable {size : Nat} {d d' : Depth size} {isBid isBid' : Bool} {i j k n p q : Nat} {l : DepthLevel} {m : LevelMap}

theorem level_setLevel_self (inside : i < size * 2) : (d.setLevel i l).level i = l := by
  rw [level,setLevel,Vector.getElem?_setIfInBounds_self_of_lt inside]
  rfl

theorem level_setLevel_ne (other : i ≠ j) : (d.setLevel i l).level j = d.level j := by
  rw [level,setLevel,Vector.getElem?_setIfInBounds_ne other]
  rfl

theorem setLevel_setLevel (d : Depth size) (i : Nat) (l l' : DepthLevel) : (d.setLevel i l).setLevel i l' = d.setLevel i l' := by
  simp only [setLevel,Vector.setIfInBounds_setIfInBounds]

@[simp] theorem level_bump (d : Depth size) (i : Nat) : d.bump.level i = d.level i := rfl
@[simp] theorem excess_bump (d : Depth size) (isBid : Bool) : d.bump.excess isBid = d.excess isBid := rfl
@[simp] theorem excess_setLevel (d : Depth size) (i : Nat) (l : DepthLevel) (isBid : Bool) : (d.setLevel i l).excess isBid = d.excess isBid := rfl
@[simp] theorem lastChange_setLevel (d : Depth size) (i : Nat) (l : DepthLevel) : (d.setLevel i l).lastChange = d.lastChange := rfl

theorem bump_congr (same : d'.lastChange = d.lastChange) : d'.bump.lastChange = d.bump.lastChange := by
  rw [bump,bump,same]

@[simp] theorem level_setExcess (d : Depth size) (isBid : Bool) (m : LevelMap) (i : Nat) : (d.setExcess isBid m).level i = d.level i := by
  cases isBid <;> rfl

@[simp] theorem lastChange_setExcess (d : Depth size) (isBid : Bool) (m : LevelMap) : (d.setExcess isBid m).lastChange = d.lastChange := by
  cases isBid <;> rfl

@[simp] theorem excess_setExcess_self (d : Depth size) (isBid : Bool) (m : LevelMap) : (d.setExcess isBid m).excess isBid = m := by
  cases isBid <;> rfl

@[simp] theorem excess_setExcess_not (d : Depth size) (isBid : Bool) (m : LevelMap) : (d.setExcess isBid m).excess (!isBid) = d.excess (!isBid) := by
  cases isBid <;> rfl

theorem read_slot (inside : i < size * 2) : d.read isBid (.slot i) = some (d.level i) := by
  rw [read,level,Vector.getElem?_eq_getElem inside,Option.getD_some]

/-- The levels of a side are in the array, apart from those of the other. -/
theorem first_add_lt (small : i < size) : first size isBid + i < size * 2 := by
  unfold first
  split_ifs <;> omega

theorem first_add_ne (small : i < size) (small' : j < size) : first size isBid + i ≠ first size (!isBid) + j := by
  cases isBid <;> simp [first] <;> omega

/-- What a call leaves alone: everything but one side and the counter of the changes. -/
structure Frame (isBid : Bool) (d d' : Depth size) : Prop where
  levels : ∀ i < size, d'.level (first size (!isBid) + i) = d.level (first size (!isBid) + i)
  excess : d'.excess (!isBid) = d.excess (!isBid)
  ignoreBid : d'.ignoreBidFillQty = d.ignoreBidFillQty
  ignoreAsk : d'.ignoreAskFillQty = d.ignoreAskFillQty
  published : d'.lastPublishedChange = d.lastPublishedChange

theorem Frame.refl (isBid : Bool) (d : Depth size) : Frame isBid d d := ⟨fun _ _ => rfl,rfl,rfl,rfl,rfl⟩

theorem Frame.trans {d'' : Depth size} (first : Frame isBid d d') (second : Frame isBid d' d'') : Frame isBid d d'' :=
  ⟨fun i small => (second.levels i small).trans (first.levels i small),second.excess.trans first.excess,
    second.ignoreBid.trans first.ignoreBid,second.ignoreAsk.trans first.ignoreAsk,second.published.trans first.published⟩

theorem frame_setLevel (d : Depth size) (small : i < size) (l : DepthLevel) : Frame isBid d (d.setLevel (first size isBid + i) l) :=
  ⟨fun _ small' => level_setLevel_ne (first_add_ne small small'),rfl,rfl,rfl,rfl⟩

theorem frame_setExcess (d : Depth size) (isBid : Bool) (m : LevelMap) : Frame isBid d (d.setExcess isBid m) := by
  refine ⟨fun _ _ => level_setExcess ..,excess_setExcess_not ..,?_,?_,?_⟩ <;> cases isBid <;> rfl

/-- Every level of the array, but maybe one, is as it was or has the stamp of the next change. -/
def Stamped (but : Place) (d d' : Depth size) : Prop :=
  ∀ i < size * 2, .slot i ≠ but → d'.level i = d.level i ∨ (d'.level i).lastChange = some d.bump.lastChange

/-! ## The two loops over levels -/

/-- Only levels are written. -/
def LevelsOnly (d d' : Depth size) : Prop := ∃ levels, d' = { d with levels := levels }

theorem LevelsOnly.trans {d'' : Depth size} (first : LevelsOnly d d') (second : LevelsOnly d' d'') : LevelsOnly d d'' := by
  obtain ⟨_,rfl⟩ := first
  obtain ⟨_,rfl⟩ := second
  exact ⟨_,rfl⟩

theorem shiftDown_succ (level current : Nat) (d : Depth size) (inside : current + 1 < size * 2) : shiftDown level (current + 1) d =
    if current ≥ level then shiftDown level current (d.setLevel (current + 1) ((d.level (current + 1)).pushed (d.level current) d.lastChange))
    else d := by
  have isHere : (d.setLevel (current + 1) ((d.level (current + 1)).assign (d.level current))).level (current + 1) = _ := level_setLevel_self inside
  have isOther : (d.setLevel (current + 1) ((d.level (current + 1)).assign (d.level current))).level current = _ := level_setLevel_ne (by omega)
  simp only [shiftDown,isHere,isOther,lastChange_setLevel,DepthLevel.pushed]
  split_ifs
  · rw [setLevel_setLevel]
  · rfl
  · rfl

theorem shiftDown_spec (level : Nat) : ∀ (current : Nat) (d : Depth size), current < size * 2 → LevelsOnly d (shiftDown level current d) ∧
    ∀ j, (shiftDown level current d).level j =
      if level < j ∧ j ≤ current then (d.level j).pushed (d.level (j - 1)) d.lastChange else d.level j := by
  intro current
  induction current with
  | zero =>
    intro d _
    refine ⟨⟨_,rfl⟩,fun j => ?_⟩
    rw [if_neg (by omega)]
    rfl
  | succ current ih =>
    intro d inside
    rw [shiftDown_succ level current d inside]
    by_cases goesOn : current ≥ level
    · rw [if_pos goesOn]
      obtain ⟨only,levels⟩ := ih (d.setLevel (current + 1) ((d.level (current + 1)).pushed (d.level current) d.lastChange)) (by omega)
      refine ⟨LevelsOnly.trans ⟨_,rfl⟩ only,fun j => ?_⟩
      rw [levels j]
      by_cases isHere : j = current + 1
      · subst isHere
        rw [if_neg (by omega),if_pos (by omega),level_setLevel_self inside]
        rfl
      · by_cases between : level < j ∧ j ≤ current
        · rw [if_pos between,if_pos (by omega),level_setLevel_ne (by omega),level_setLevel_ne (by omega)]
          rfl
        · rw [if_neg between,if_neg (by omega),level_setLevel_ne (by omega)]
    · rw [if_neg goesOn]
      refine ⟨⟨_,rfl⟩,fun j => ?_⟩
      rw [if_neg (by omega)]

/-- A level of the array in `erase_level`. -/
def pulled (d : Depth size) (erased j : Nat) : DepthLevel :=
  if (d.level j).price ≠ invalidLevelPrice ∨ j = erased then ((d.level j).assign (d.level (j + 1))).changed d.lastChange else d.level j

theorem shiftUp_spec (erased : Nat) : ∀ (left current : Nat) (d : Depth size), current + left < size * 2 →
    LevelsOnly d (shiftUp erased left current d) ∧
    ∀ j, (shiftUp erased left current d).level j = if current ≤ j ∧ j < current + left then d.pulled erased j else d.level j := by
  intro left
  induction left with
  | zero =>
    intro current d _
    refine ⟨⟨_,rfl⟩,fun j => ?_⟩
    rw [if_neg (by omega)]
    rfl
  | succ left ih =>
    intro current d inside
    have written : shiftUp erased (left + 1) current d = shiftUp erased left (current + 1) (d.setLevel current (d.pulled erased current)) := by
      have isHere : (d.setLevel current ((d.level current).assign (d.level (current + 1)))).level current = _ := level_setLevel_self (by omega)
      simp only [shiftUp,isHere,lastChange_setLevel,setLevel_setLevel,pulled]
      split_ifs
      · rfl
      · have same : d.setLevel current (d.level current) = d := by
          have inBounds : current < size * 2 := by omega
          have isLevel : d.levels.setIfInBounds current (d.level current) = d.levels := by
            rw [level,Vector.getElem?_eq_getElem inBounds,Option.getD_some]
            ext j small
            rw [Vector.getElem_setIfInBounds]
            split_ifs with same
            · subst same
              rfl
            · rfl
          rw [setLevel,isLevel]
        rw [same]
    rw [written]
    obtain ⟨only,levels⟩ := ih (current + 1) (d.setLevel current (d.pulled erased current)) (by omega)
    refine ⟨LevelsOnly.trans ⟨_,rfl⟩ only,fun j => ?_⟩
    rw [levels j]
    by_cases isHere : j = current
    · subst isHere
      rw [if_neg (by omega),if_pos (by omega),level_setLevel_self (by omega)]
    · by_cases between : current + 1 ≤ j ∧ j < current + 1 + left
      · rw [if_pos between,if_pos (by omega),pulled,pulled,level_setLevel_ne (by omega),level_setLevel_ne (by omega)]
        rfl
      · rw [if_neg between,if_neg (by omega),level_setLevel_ne (by omega)]

/-! ## Listed sides -/

/-- A side lists the totals of its prices. -/
structure Holds (d : Depth size) (isBid : Bool) (L : List (Nat × Tally)) : Prop where
  priced : ∀ e ∈ L, 0 < e.1
  shown : ∀ i < size, (d.level (first size isBid + i)).totals = L[i]?.getD DepthLevel.blank ∧ (d.level (first size isBid + i)).isExcess = false
  hidden : (d.excess isBid).map (fun e => e.2.totals) = L.drop size
  keyed : ∀ e ∈ d.excess isBid, e.1 = e.2.price ∧ e.2.isExcess = true

variable {L A B : List (Nat × Tally)} {v w : Tally}

theorem Holds.frame (holds : Holds d (!isBid) L) (frame : Frame isBid d d') : Holds d' (!isBid) L := by
  refine ⟨holds.priced,fun i small => ?_,?_,?_⟩
  · rw [frame.levels i small]
    exact holds.shown i small
  · rw [frame.excess]
    exact holds.hidden
  · rw [frame.excess]
    exact holds.keyed

theorem Holds.price (holds : Holds d isBid L) (small : i < size) :
    (d.level (first size isBid + i)).price = (L[i]?.getD DepthLevel.blank).1 := congrArg Prod.fst (holds.shown i small).1

/-- A level behind the last price has none, and one with a price is in the list. -/
theorem Holds.price_eq_zero (holds : Holds d isBid L) (small : i < size) :
    (d.level (first size isBid + i)).price = invalidLevelPrice ↔ L.length ≤ i := by
  rw [holds.price small]
  constructor
  · intro noPrice
    by_contra inList
    rw [List.getElem?_eq_getElem (Nat.lt_of_not_le inList),Option.getD_some] at noPrice
    have priced := holds.priced _ (List.getElem_mem (Nat.lt_of_not_le inList))
    rw [noPrice] at priced
    exact absurd priced (Nat.lt_irrefl 0)
  · intro past
    rw [List.getElem?_eq_none past]
    rfl

theorem keys_of_totals {X : LevelMap} (keyed : ∀ e ∈ X, e.1 = e.2.price) (totals : X.map (fun e => e.2.totals) = L) {P : Nat → Prop}
    (each : ∀ e ∈ L, P e.1) : ∀ e ∈ X, P e.1 := by
  intro e member
  rw [keyed e member]
  exact each e.2.totals (totals ▸ List.mem_map_of_mem member)

theorem ne_of_ahead (ahead : ∀ k ∈ m, better isBid k.1 p) : ∀ k ∈ m, k.1 ≠ p :=
  fun k member same => irrefl_of (better isBid) p (same ▸ ahead k member)

theorem ne_of_behind (behind : ∀ k ∈ m, better isBid p k.1) : ∀ k ∈ m, k.1 ≠ p :=
  fun k member same => irrefl_of (better isBid) p (same ▸ behind k member)

/-- The map is cut where the list of its totals is. -/
theorem Holds.hidden_at (holds : Holds d isBid (A ++ B)) (behind : size ≤ A.length) : ∃ X Y : LevelMap, d.excess isBid = X ++ Y ∧
    X.map (fun e => e.2.totals) = A.drop size ∧ Y.map (fun e => e.2.totals) = B ∧
      (∀ e ∈ X, e.1 = e.2.price) ∧ ∀ e ∈ Y, e.1 = e.2.price ∧ e.2.isExcess = true := by
  have hidden := holds.hidden
  rw [drop_enter_behind behind] at hidden
  obtain ⟨X,Y,split,left,right⟩ := List.map_eq_append_iff.mp hidden
  exact ⟨X,Y,split,left,right,fun e member => (holds.keyed e (by simp [split,member])).1,fun e member => holds.keyed e (by simp [split,member])⟩

/-- The place in the map of a price that is not listed. -/
theorem Holds.hidden_cut (holds : Holds d isBid (A ++ B)) (around : Around (better isBid) p A B) (behind : size ≤ A.length) :
    ∃ X Y : LevelMap, d.excess isBid = X ++ Y ∧ X.map (fun e => e.2.totals) = A.drop size ∧ Y.map (fun e => e.2.totals) = B ∧
      (∀ e ∈ X, better isBid e.1 p) ∧ ∀ e ∈ Y, better isBid p e.1 := by
  obtain ⟨X,Y,split,left,right,keyed,keyed'⟩ := holds.hidden_at behind
  refine ⟨X,Y,split,left,right,?_,?_⟩
  · exact keys_of_totals (P := (better isBid · p)) keyed left fun e member => around.left e (List.mem_of_mem_drop member)
  · exact keys_of_totals (P := better isBid p) (fun e member => (keyed' e member).1) right around.right

/-- The map around a price that is not in the array. -/
theorem Holds.hidden_split (holds : Holds d isBid (A ++ (p,v) :: B)) (around : Around (better isBid) p A B) (behind : size ≤ A.length) :
    ∃ X Y, ∃ l : DepthLevel, d.excess isBid = X ++ (p,l) :: Y ∧ X.map (fun e => e.2.totals) = A.drop size ∧ l.totals = (p,v) ∧
      Y.map (fun e => e.2.totals) = B ∧ l.isExcess = true ∧ (∀ e ∈ X, better isBid e.1 p) ∧ ∀ e ∈ Y, better isBid p e.1 := by
  obtain ⟨X,M,split,left,right,keyed,keyed'⟩ := holds.hidden_at behind
  obtain ⟨e,Y,rfl,isHere,rest⟩ := List.map_eq_cons_iff.mp right
  obtain ⟨⟨key,isExcess⟩,keyedRest⟩ := List.forall_mem_cons.mp keyed'
  have isPrice : e.2.price = p := congrArg Prod.fst isHere
  refine ⟨X,Y,e.2,?_,left,isHere,rest,isExcess,?_,?_⟩
  · rw [split,← isPrice,← key]
  · exact keys_of_totals (P := (better isBid · p)) keyed left fun e member => around.left e (List.mem_of_mem_drop member)
  · exact keys_of_totals (P := better isBid p) (fun e member => (keyedRest e member).1) rest around.right

/-- Where the totals of a price are that has the prices of `A` before it. -/
def placeOf (size : Nat) (isBid : Bool) (A : List (Nat × Tally)) (p : Nat) : Place :=
  if A.length < size then .slot (first size isBid + A.length) else .excess p

/-! ## Reading and writing a price -/

section
variable {shouldCreate : Bool}

theorem findLoop_pass (shouldCreate : Bool) (holds : Holds d isBid (A ++ B)) (left : ∀ e ∈ A, better isBid e.1 p) : ∀ i, i ≤ A.length → i ≤ size →
    d.findLoop p isBid shouldCreate size (first size isBid) = d.findLoop p isBid shouldCreate (size - i) (first size isBid + i) := by
  intro i
  induction i with
  | zero => intro _ _; rfl
  | succ i ih =>
    intro inLeft inArray
    rw [ih (by omega) (by omega)]
    have next : size - i = size - (i + 1) + 1 := by omega
    have isHere : (A ++ B)[i]? = some A[i] := by rw [List.getElem?_append_left (by omega),List.getElem?_eq_getElem]
    have price := holds.price (i := i) (by omega)
    rw [isHere,Option.getD_some] at price
    have ahead : better isBid A[i].1 p := left _ (List.getElem_mem _)
    have priced : 0 < A[i].1 := holds.priced _ (List.mem_append_left _ (List.getElem_mem _))
    have other : ¬ A[i].1 = p := fun same => irrefl_of (better isBid) p (same ▸ ahead)
    have valid : ¬ (shouldCreate = true ∧ A[i].1 = invalidLevelPrice) := fun blank => Nat.ne_of_gt priced blank.2
    have notLow : ¬ (isBid = true ∧ shouldCreate = true ∧ A[i].1 < p) := by
      rintro ⟨rfl,_,low⟩
      exact absurd ahead (by simp only [better,if_true]; omega)
    have notHigh : ¬ ((!isBid) = true ∧ shouldCreate = true ∧ A[i].1 > p) := by
      rintro ⟨isAsk,_,high⟩
      have isAsk' : isBid = false := by simpa using isAsk
      subst isAsk'
      exact absurd ahead (by simp only [better,Bool.false_eq_true,if_false]; omega)
    rw [next,findLoop,price,if_neg other,if_neg valid,if_neg notLow,if_neg notHigh]
    rfl

/-- A price that is listed is found where it is. -/
theorem findLevel_eq (holds : Holds d isBid (A ++ (p,v) :: B)) (around : Around (better isBid) p A B) :
    d.findLevel p isBid shouldCreate = (d,placeOf size isBid A p) := by
  unfold findLevel placeOf
  by_cases inArray : A.length < size
  · have here : d.findLoop p isBid shouldCreate size (first size isBid) = (d,first size isBid + A.length) := by
      have next : size - A.length = size - (A.length + 1) + 1 := by omega
      have price := holds.price inArray
      rw [List.getElem?_append_right (Nat.le_refl _),Nat.sub_self] at price
      rw [findLoop_pass _ holds around.left A.length (Nat.le_refl _) (by omega),next,findLoop,price]
      exact if_pos rfl
    rw [here,if_pos inArray]
    exact if_neg (by omega)
  · have past : d.findLoop p isBid shouldCreate size (first size isBid) = (d,first size isBid + size) := by
      rw [findLoop_pass _ holds around.left size (by omega) (Nat.le_refl _),Nat.sub_self]
      rfl
    obtain ⟨X,Y,l,split,_,_,_,_,ahead,_⟩ := holds.hidden_split around (Nat.le_of_not_lt inArray)
    rw [past,if_neg inArray]
    simp only [if_true,split,LevelMap.find_mid (ne_of_ahead ahead)]

end

/-- What is written at a price. -/
structure Written (d : Depth size) (isBid : Bool) (place : Place) (L : List (Nat × Tally)) (d' : Depth size) : Prop where
  holds : Holds d' isBid L
  frame : Frame isBid d d'
  others : ∀ i < size * 2, .slot i ≠ place → d'.level i = d.level i
  lastChange : d'.lastChange = d.lastChange

theorem Holds.read (holds : Holds d isBid (A ++ (p,v) :: B)) (around : Around (better isBid) p A B) :
    ∃ l : DepthLevel, d.read isBid (placeOf size isBid A p) = some l ∧ l.totals = (p,v) ∧ l.isExcess = decide (size ≤ A.length) ∧
      ∀ l' : DepthLevel, l'.isExcess = l.isExcess → ∀ w, l'.totals = (p,w) →
        Written d isBid (placeOf size isBid A p) (A ++ (p,w) :: B) (d.write isBid l' (placeOf size isBid A p)) ∧
        (d.write isBid l' (placeOf size isBid A p)).read isBid (placeOf size isBid A p) = some l' := by
  unfold placeOf
  have priced : ∀ w : Tally, ∀ e ∈ A ++ (p,w) :: B, 0 < e.1 := by
    intro w e member
    rcases List.mem_append.mp member with inLeft | later
    · exact holds.priced e (List.mem_append_left _ inLeft)
    · rcases List.mem_cons.mp later with rfl | inRight
      · exact holds.priced (p,v) (by simp)
      · exact holds.priced e (by simp [inRight])
  by_cases inArray : A.length < size
  · rw [if_pos inArray]
    have inside : first size isBid + A.length < size * 2 := first_add_lt inArray
    have shown := holds.shown A.length inArray
    rw [List.getElem?_append_right (Nat.le_refl _),Nat.sub_self] at shown
    refine ⟨_,read_slot inside,shown.1,by rw [shown.2]; simpa using inArray,fun l' flag w totals => ⟨⟨⟨priced w,fun i small => ?_,?_,holds.keyed⟩,
      frame_setLevel d inArray l',fun i _ other => ?_,rfl⟩,?_⟩⟩
    · by_cases isHere : i = A.length
      · subst isHere
        rw [write,level_setLevel_self inside,List.getElem?_append_right (Nat.le_refl _),Nat.sub_self]
        exact ⟨totals,flag.trans shown.2⟩
      · have same : (A ++ (p,w) :: B)[i]? = (A ++ (p,v) :: B)[i]? := by
          rw [getElem?_enter,getElem?_enter,if_neg isHere,if_neg isHere]
        rw [write,level_setLevel_ne (by omega),same]
        exact holds.shown i small
    · rw [write,excess_setLevel,holds.hidden,drop_enter inArray,drop_enter inArray]
    · exact level_setLevel_ne fun same => other (congrArg _ same.symm)
    · rw [write,read_slot inside,level_setLevel_self inside]
  · rw [if_neg inArray]
    have behind : size ≤ A.length := Nat.le_of_not_lt inArray
    obtain ⟨X,Y,l,split,left,isHere,right,flag,ahead,after⟩ := holds.hidden_split around behind
    have keyed : ∀ e ∈ X ++ (p,l) :: Y, e.1 = e.2.price ∧ e.2.isExcess = true := split ▸ holds.keyed
    have notLeft := ne_of_ahead ahead
    have notRight := ne_of_behind after
    have found : d.read isBid (.excess p) = some l := by
      rw [Depth.read,split]
      exact LevelMap.find_mid notLeft
    refine ⟨l,found,isHere,by rw [flag]; simpa using behind,fun l' flag' w totals => ?_⟩
    have written : d.write isBid l' (.excess p) = d.setExcess isBid (X ++ (p,l') :: Y) := by
      rw [write,split,LevelMap.write_mid notLeft notRight]
    rw [written]
    refine ⟨⟨⟨priced w,fun i small => ?_,?_,?_⟩,frame_setExcess ..,fun i _ _ => level_setExcess ..,lastChange_setExcess ..⟩,?_⟩
    · have same : (A ++ (p,w) :: B)[i]? = (A ++ (p,v) :: B)[i]? := by
        rw [List.getElem?_append_left (by omega),List.getElem?_append_left (by omega)]
      rw [level_setExcess,same]
      exact holds.shown i small
    · rw [excess_setExcess_self,drop_enter_behind behind,List.map_append,left,List.map_cons,right,totals]
    · rw [excess_setExcess_self]
      intro e member
      rcases List.mem_append.mp member with inLeft | later
      · exact keyed e (by simp [inLeft])
      · rcases List.mem_cons.mp later with rfl | inRight
        · exact ⟨(congrArg Prod.fst totals).symm,flag'.trans flag⟩
        · exact keyed e (by simp [inRight])
    · rw [Depth.read,excess_setExcess_self]
      exact LevelMap.find_mid notLeft

end Depth

end BaboEngine.LiquibookDepth
