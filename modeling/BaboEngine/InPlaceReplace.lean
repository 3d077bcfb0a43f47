import BaboEngine.Depth

/-!
# What a replace in place computes

The source adds a change of quantity in 32-bit signed arithmetic to an unsigned quantity and, apart
from that, to the total of the level. Here is exactly when this is integer arithmetic, and that
runs in which it is leave no order without open quantity and have no empty fill.
-/

namespace BaboEngine
open Simulation

/-- What `std::int32_t` holds. -/
def InI32 (x : Int) : Prop := -2147483648 ≤ x ∧ x < 2147483648

instance (x : Int) : Decidable (InI32 x) := inferInstanceAs (Decidable (_ ∧ _))

theorem toI32_of_lt {n : Nat} (small : n < 2147483648) : toI32 n = n := by
  unfold toI32
  exact Int.bmod_eq_of_le (by omega) (by omega)

theorem toI32_of_le {n : Nat} (large : 2147483648 ≤ n) (fits : n < 4294967296) : toI32 n = n - 4294967296 := by
  unfold toI32
  rw [Int.bmod_def]
  split_ifs <;> omega

/-- The quantity before and after a change lie in the same half of the 32-bit range. -/
def SameHalf (o : SimpleOrder) (sizeDelta : Int) : Prop :=
  o.orderQty < 2147483648 ∧ (o.orderQty : Int) + sizeDelta < 2147483648 ∨
    2147483648 ≤ o.orderQty ∧ 2147483648 ≤ (o.orderQty : Int) + sizeDelta ∧ (o.orderQty : Int) + sizeDelta < 4294967296

instance (o : SimpleOrder) (sizeDelta : Int) : Decidable (SameHalf o sizeDelta) := inferInstanceAs (Decidable (_ ∨ _))

section
variable {o : SimpleOrder} {sizeDelta : Int32}

/-- A reduction that does not take the order out is smaller than its open quantity. -/
theorem reduction_lt (stays : ¬ Book.Collapses o sizeDelta.toInt) (reduces : sizeDelta.toInt < 0) : -sizeDelta.toInt < o.openQty := by
  have low := sizeDelta.le_toInt
  have short : toU32 (-sizeDelta.toInt) < o.openQty := Nat.lt_of_not_ge fun ge => stays ⟨reduces,ge⟩
  unfold toU32 at short
  omega

/-- The sum that `modify` forms is in range and is the quantity afterwards exactly within one half. -/
theorem sameHalf_iff (sized : o.Sized) (opened : 0 < o.openQty) (stays : ¬ Book.Collapses o sizeDelta.toInt) (newPrice : Nat) :
    SameHalf o sizeDelta.toInt ↔ InI32 (toI32 o.orderQty + sizeDelta.toInt) ∧
      ((o.modify sizeDelta.toInt newPrice).orderQty : Int) = o.orderQty + sizeDelta.toInt := by
  have open' := sized.openQty
  have small := sized.orderQty
  have above : 1 ≤ (o.orderQty : Int) + sizeDelta.toInt := by
    by_cases reduces : sizeDelta.toInt < 0
    · have := reduction_lt stays reduces
      omega
    · omega
  have high := sizeDelta.toInt_lt
  constructor
  · intro half
    refine ⟨?_,o.modify_orderQty newPrice (by omega) ?_⟩
    · rcases half with ⟨before,after⟩ | ⟨before,after,_⟩
      · rw [toI32_of_lt before]
        exact ⟨by omega,after⟩
      · rw [toI32_of_le before small]
        exact ⟨by omega,by omega⟩
    · rcases half with ⟨_,after⟩ | ⟨_,_,after⟩ <;> omega
  · rintro ⟨⟨low,below⟩,exactly⟩
    have fits := (sized.modify sizeDelta.toInt newPrice).orderQty
    by_cases before : o.orderQty < 2147483648
    · rw [toI32_of_lt before] at below
      exact .inl ⟨before,below⟩
    · rw [toI32_of_le (by omega) small] at low
      exact .inr ⟨by omega,by omega,by omega⟩

end

namespace Book
variable {b : Book} {o : SimpleOrder} {t : TreeName} {cs : List Command}

/-- The order that a replace in place edits keeps its arithmetic in range. -/
def EditsFit (b : Book) : Command → Prop
  | .replace orderId sizeDelta newPrice => ∀ o ∈ b.side .bids ++ b.side .asks, o.orderId = orderId.toNat → ¬ Reprices o newPrice.toNat →
      sizeDelta.toInt ≠ -2147483648 ∧ (Collapses o sizeDelta.toInt ∨ SameHalf o sizeDelta.toInt)
  | _ => True

instance : (b : Book) → (c : Command) → Decidable (b.EditsFit c)
  | b, .replace orderId sizeDelta newPrice => inferInstanceAs (Decidable (∀ o ∈ b.side .bids ++ b.side .asks, o.orderId = orderId.toNat →
      ¬ Reprices o newPrice.toNat → sizeDelta.toInt ≠ -2147483648 ∧ (Collapses o sizeDelta.toInt ∨ SameHalf o sizeDelta.toInt)))
  | _, .add _ _ _ _ _ _ => .isTrue trivial
  | _, .cancel _ => .isTrue trivial
  | _, .setMarketPrice _ => .isTrue trivial

/-- No trade is empty. -/
theorem trades_positive {ok : Book → Command → Prop} :
    Preserved (fun b hand => Orderly b hand ∧ Everywhere (fun o => 0 < o.openQty) b hand) ok
    fun b _ => ∀ before c later, b.market.submissions = before ++ c :: later → ∀ trade ∈ c.trades, 0 < trade.qty := by
  refine submissions_preserved fun b o hand base trade member => ?_
  have inSide : trade.maker ∈ b.side o.opposite := by
    rw [← Matching.allot_makers o (b.side o.opposite) o.openQty]
    exact List.mem_map_of_mem (base.1.mem_trades member)
  exact (Matching.allot_taken _ _ (base.1.mem_trades member) rfl).2.2.2 (base.2.1 _ _ inSide)

theorem no_empty_fill (journaled : Journaled b.market)
    (positive : ∀ before c later, b.market.submissions = before ++ c :: later → ∀ trade ∈ c.trades, 0 < trade.qty) (id id' cost : Nat) :
    OrderEvent.onFill id id' 0 cost ∉ b.market.events := by
  intro member
  have isFill : OrderEvent.onFill id id' 0 cost ∈ b.market.trades.map Trade.event := by
    rw [← journaled.fills]
    exact List.mem_filter.mpr ⟨member,rfl⟩
  obtain ⟨trade,inTrades,isEvent⟩ := List.mem_map.mp isFill
  have isEmpty : trade.qty = 0 := (OrderEvent.onFill.inj isEvent).2.2.1
  rw [journaled.trades] at inTrades
  obtain ⟨c,inSubmissions,inCall⟩ := List.mem_flatMap.mp inTrades
  obtain ⟨before,later,split⟩ := List.append_of_mem inSubmissions
  have := positive before c later split trade inCall
  omega

/-- The orders at a price after an edit of one of them. -/
theorem openTotal_edit (nodup : (ids (b.side t)).Nodup) (member : o ∈ b.side t) {sizeDelta : Int}
    (edited : ((o.modify sizeDelta priceUnchanged).openQty : Int) = o.openQty + sizeDelta) :
    (Ladder.openTotal (((b.edit t o.orderId fun o => o.modify sizeDelta priceUnchanged).side t).filter
      fun x => t.key x = t.key o) : Int) = Ladder.openTotal ((b.side t).filter fun x => t.key x = t.key o) + sizeDelta := by
  have sameKey : ∀ x, t.key (if x.orderId = o.orderId then x.modify sizeDelta priceUnchanged else x) = t.key x := by
    intro x
    split_ifs
    · exact t.key_resized x sizeDelta
    · rfl
  rw [side_edit,if_pos rfl,List.filter_map]
  simp only [Function.comp_def,sameKey]
  exact Ladder.openTotal_map ((List.filter_sublist.map _).nodup nodup) (List.mem_filter.mpr ⟨member,by simp⟩) edited

/-- An edit within one half of the range is exact. -/
theorem Orderly.exact_of_half {orderId : UInt32} {sizeDelta : Int32} {newPrice : UInt64} (orderly : Orderly b [])
    (opened : 0 < o.openQty) (member : o ∈ b.side t) (isId : o.orderId = orderId.toNat) (half : SameHalf o sizeDelta.toInt) :
    b.Exact (.replace orderId sizeDelta newPrice) := by
  intro t' _ x found _ stays
  obtain ⟨inSide,isId'⟩ := find_some found
  obtain ⟨rfl,rfl⟩ := orderly.one_place inSide member (isId'.trans isId.symm)
  refine (resize_exact (orderly.sized.1 _ x inSide) opened stays ?_ _).2.1
  rcases half with ⟨_,after⟩ | ⟨_,_,after⟩ <;> omega

theorem EditsFit.inPlaceFits {c : Command} (fits : b.EditsFit c) : b.InPlaceFits c := by
  cases c with
  | replace orderId sizeDelta newPrice =>
    intro o member isId unmoved grows
    rcases (fits o member isId unmoved).2 with ⟨reduces,_⟩ | ⟨_,after⟩ | ⟨_,_,after⟩ <;> omega
  | add | cancel | setMarketPrice => trivial

end Book

namespace MatchingBook
variable {N : Capacity} {m m' : MatchingBook N} {b : Book} {c : Command} {cs : List Command} {h : Pools N} {t : TreeName} {o : SimpleOrder}

/-- The order that a replace in place edits keeps its arithmetic in range. -/
def EditsFit (m : MatchingBook N) : Command → Prop
  | .replace orderId sizeDelta newPrice => ∀ t, t = .bids ∨ t = .asks → ∀ os, (m.on t).snapshot = some os → ∀ o ∈ os,
      o.orderId = orderId.toNat → ¬ Book.Reprices o newPrice.toNat →
      sizeDelta.toInt ≠ -2147483648 ∧ (Book.Collapses o sizeDelta.toInt ∨ SameHalf o sizeDelta.toInt)
  | _ => True

theorem editsFit_iff {exact : Prop} (rep : Represents exact m b) : m.EditsFit c ↔ b.EditsFit c := by
  cases c with
  | replace orderId sizeDelta newPrice => exact rep.all_resting _
  | add | cancel | setMarketPrice => exact Iff.rfl

theorem editsFit_everyStep (once : NeverReused cs) : EveryStep EditsFit h cs ↔ Admitted Book.EditsFit Book.step .start cs :=
  everyStep_iff (fun _ _ _ rep => editsFit_iff rep) once

/-- The order `o` has become `o'` where it was, and its quantities and the total of its level have changed by
    what was asked for. -/
structure EditedBy (m m' : MatchingBook N) (t : TreeName) (o o' : SimpleOrder) (sizeDelta : Int) : Prop where
  stays : ∃ os, (m.on t).snapshot = some os ∧
    (m'.on t).snapshot = some (os.map fun x => if x.orderId = o.orderId then o' else x)
  addition : InI32 (toI32 o.orderQty + sizeDelta)
  orderQty : (o'.orderQty : Int) = o.orderQty + sizeDelta
  openQty : (o'.openQty : Int) = o.openQty + sizeDelta
  left : 1 ≤ o'.orderQty ∧ 1 ≤ o'.openQty
  total : ∃ ds ds' l l', (m.on t).priceLevels t.type = some ds ∧ (m'.on t).priceLevels t.type = some ds' ∧ l ∈ ds ∧ l' ∈ ds' ∧
    l.price = t.key o ∧ l'.price = t.key o ∧ (l'.quantity : Int) = l.quantity + sizeDelta

/-- What a replace in place is to do: it takes the order out or changes it exactly, and its arithmetic stays
    in range. -/
structure ReplacesExactly (m m' : MatchingBook N) (t : TreeName) (o : SimpleOrder) (sizeDelta : Int) : Prop where
  negation : sizeDelta < 0 → InI32 (-sizeDelta)
  outcome : (∀ t' os, (m'.on t').snapshot = some os → o.orderId ∉ ids os) ∨ ∃ o', EditedBy m m' t o o' sizeDelta

/-- When it does. -/
structure EditFits (m : MatchingBook N) (t : TreeName) (o : SimpleOrder) (sizeDelta : Int) : Prop where
  negation : sizeDelta ≠ -2147483648
  stays : ¬ Book.Collapses o sizeDelta → SameHalf o sizeDelta
  total : ¬ Book.Collapses o sizeDelta → ∀ ds, (m.on t).priceLevels t.type = some ds → ∀ l ∈ ds, l.price = t.key o →
    0 ≤ (l.quantity : Int) + sizeDelta ∧ (l.quantity : Int) + sizeDelta < 4294967296

section
variable {orderId : UInt32} {sizeDelta : Int32} {newPrice : UInt64}

theorem replace_in_place (orderly : Book.Orderly b []) (resting : t = .bids ∨ t = .asks) (member : o ∈ b.side t)
    (isId : o.orderId = orderId.toNat) (unmoved : ¬ Book.Reprices o newPrice.toNat) :
    b.step (.replace orderId sizeDelta newPrice) = (b.resize t o sizeDelta.toInt).emit (.onReplace o.orderId sizeDelta.toInt o.price) := by
  show b.replace orderId.toNat sizeDelta.toInt newPrice.toNat = _
  rw [← isId,orderly.replace_eq resting member,Book.replaceOrder,if_neg unmoved]

/-- The totals of two levels of which the second has the changed sum of the first. -/
theorem total_iff {T T' : Nat} {d : Int} (sum : (T' : Int) = T + d) :
    ((toU32 T' : Nat) : Int) = toU32 T + d ↔ 0 ≤ (toU32 T : Int) + d ∧ (toU32 T : Int) + d < 4294967296 := by
  unfold toU32
  omega

/-- The level of an order before and after an exact edit of it. -/
theorem levels_edited {b' : Book} (rep : Represents True m b) (rep' : Represents True m' b') (nodup : (ids (b.side t)).Nodup)
    (member : o ∈ b.side t) {d : Int} (edited : ((o.modify d priceUnchanged).openQty : Int) = o.openQty + d)
    (sideIs : b'.side t = (b.edit t o.orderId fun o => o.modify d priceUnchanged).side t) :
    (∃ ds ds' l l', (m.on t).priceLevels t.type = some ds ∧ (m'.on t).priceLevels t.type = some ds' ∧ l ∈ ds ∧ l' ∈ ds' ∧
      l.price = t.key o ∧ l'.price = t.key o ∧ (l'.quantity : Int) = l.quantity + d) ↔
    ∀ ds, (m.on t).priceLevels t.type = some ds → ∀ l ∈ ds, l.price = t.key o →
      0 ≤ (l.quantity : Int) + d ∧ (l.quantity : Int) + d < 4294967296 := by
  obtain ⟨ds,walked,levels⟩ := rep.levelsOf t
  obtain ⟨ds',walked',levels'⟩ := rep'.levelsOf t
  have sum := Book.openTotal_edit nodup member edited
  rw [← sideIs] at sum
  have before : ∀ l ∈ ds, l.price = t.key o → l.quantity = toU32 (Ladder.openTotal ((b.side t).filter fun x => t.key x = t.key o)) := by
    intro l inDs isPrice
    rw [levels.quantity l inDs,isPrice]
  have after : ∀ l ∈ ds', l.price = t.key o → l.quantity = toU32 (Ladder.openTotal ((b'.side t).filter fun x => t.key x = t.key o)) := by
    intro l inDs isPrice
    rw [levels'.quantity l inDs,isPrice]
  constructor
  · rintro ⟨_,_,l,l',isDs,isDs',inDs,inDs',isPrice,isPrice',changed⟩ ds₂ isDs₂ l₂ inDs₂ isPrice₂
    obtain rfl : ds₂ = ds := Option.some.inj (isDs₂.symm.trans walked)
    obtain rfl := Option.some.inj (isDs.symm.trans walked)
    obtain rfl := Option.some.inj (isDs'.symm.trans walked')
    rw [before l inDs isPrice,after l' inDs' isPrice'] at changed
    rw [before l₂ inDs₂ isPrice₂]
    exact (total_iff sum).mp changed
  · intro fits
    obtain ⟨l,inDs,isPrice⟩ := (levels.prices (t.key o)).mpr ⟨o,member,rfl⟩
    have edits : (o.modify d priceUnchanged) ∈ b'.side t := by
      rw [sideIs,Book.side_edit,if_pos rfl]
      exact List.mem_map.mpr ⟨o,member,if_pos rfl⟩
    obtain ⟨l',inDs',isPrice'⟩ := (levels'.prices (t.key o)).mpr ⟨_,edits,t.key_resized o d⟩
    refine ⟨ds,ds',l,l',walked,walked',inDs,inDs',isPrice,isPrice',?_⟩
    have inRange := fits ds walked l inDs isPrice
    rw [before l inDs isPrice] at inRange ⊢
    rw [after l' inDs' isPrice']
    exact (total_iff sum).mpr inRange

/-- A replace that edits an order in place is exact just when its arithmetic fits. -/
theorem editedBy_iff (rep : Represents True m b) (orderly : Book.Orderly b []) (opened : Book.Everywhere (fun o => 0 < o.openQty) b [])
    (resting : t = .bids ∨ t = .asks) (member : o ∈ b.side t) (isId : o.orderId = orderId.toNat)
    (unmoved : ¬ Book.Reprices o newPrice.toNat) (stays : ¬ Book.Collapses o sizeDelta.toInt)
    (rep' : Represents (b.Exact (.replace orderId sizeDelta newPrice)) m' (b.step (.replace orderId sizeDelta newPrice))) :
    (∃ o', EditedBy m m' t o o' sizeDelta.toInt) ↔ SameHalf o sizeDelta.toInt ∧
      ∀ ds, (m.on t).priceLevels t.type = some ds → ∀ l ∈ ds, l.price = t.key o →
        0 ≤ (l.quantity : Int) + sizeDelta.toInt ∧ (l.quantity : Int) + sizeDelta.toInt < 4294967296 := by
  have sized := orderly.sized.1 t o member
  have open' := opened.1 t o member
  have half := sameHalf_iff sized open' stays priceUnchanged
  have sideIs : (b.step (.replace orderId sizeDelta newPrice)).side t =
      (b.side t).map fun x => if x.orderId = o.orderId then o.modify sizeDelta.toInt priceUnchanged else x := by
    rw [replace_in_place orderly resting member isId unmoved,Book.resize,if_neg stays]
    show (b.edit t o.orderId _).side t = _
    rw [Book.side_edit,if_pos rfl]
    refine List.map_congr_left fun x inSide => ?_
    split_ifs with same
    · rw [(orderly.one_place inSide member same).2]
    · rfl
  have sideIs' : (b.step (.replace orderId sizeDelta newPrice)).side t =
      (b.edit t o.orderId fun o => o.modify sizeDelta.toInt priceUnchanged).side t := by
    rw [replace_in_place orderly resting member isId unmoved,Book.resize,if_neg stays]
    rfl
  have found : b.find t orderId.toNat = some o := by
    rw [← isId]
    exact orderly.find_eq member
  have exactly : SameHalf o sizeDelta.toInt → b.Exact (.replace orderId sizeDelta newPrice) :=
    orderly.exact_of_half open' member isId
  have levels := fun inHalf => levels_edited rep (rep'.weaken fun _ => exactly inHalf) (orderly.nodup t) member
    (exactly inHalf t resting o found unmoved stays) sideIs'
  constructor
  · rintro ⟨o',⟨os,isSide,isSide'⟩,addition,orderQty,_,_,total⟩
    obtain rfl : b.side t = os := Option.some.inj ((rep.snapshot t).symm.trans isSide)
    have same := Option.some.inj ((rep'.snapshot t).symm.trans isSide')
    rw [sideIs] at same
    have isEdit := List.map_inj_left.mp same o member
    rw [if_pos rfl,if_pos rfl] at isEdit
    rw [← isEdit] at orderQty
    have inHalf := half.mpr ⟨addition,orderQty⟩
    exact ⟨inHalf,(levels inHalf).mp total⟩
  · rintro ⟨inHalf,total⟩
    obtain ⟨addition,orderQty⟩ := half.mp inHalf
    have inRange : 0 < sizeDelta.toInt → (o.orderQty : Int) + sizeDelta.toInt < 4294967296 := by
      rcases inHalf with ⟨_,after⟩ | ⟨_,_,after⟩ <;> omega
    obtain ⟨_,openQty,left⟩ := Book.resize_exact sized open' stays inRange priceUnchanged
    have open'' := (sized.modify sizeDelta.toInt priceUnchanged).openQty
    exact ⟨o.modify sizeDelta.toInt priceUnchanged,⟨_,rep.snapshot t,by rw [rep'.snapshot t,sideIs]⟩,addition,orderQty,openQty,
      ⟨by omega,left⟩,(levels inHalf).mpr total⟩

theorem replacesExactly_iff (rep : Represents True m b) (orderly : Book.Orderly b [])
    (opened : Book.Everywhere (fun o => 0 < o.openQty) b [])
    (resting : t = .bids ∨ t = .asks) (member : o ∈ b.side t) (isId : o.orderId = orderId.toNat)
    (unmoved : ¬ Book.Reprices o newPrice.toNat)
    (rep' : Represents (b.Exact (.replace orderId sizeDelta newPrice)) m' (b.step (.replace orderId sizeDelta newPrice))) :
    ReplacesExactly m m' t o sizeDelta.toInt ↔ EditFits m t o sizeDelta.toInt := by
  have low := sizeDelta.le_toInt
  have negated : (sizeDelta.toInt < 0 → InI32 (-sizeDelta.toInt)) ↔ sizeDelta.toInt ≠ -2147483648 := by
    unfold InI32
    omega
  by_cases collapses : Book.Collapses o sizeDelta.toInt
  · have gone : ∀ t' os, (m'.on t').snapshot = some os → o.orderId ∉ ids os := by
      intro t' os isSide
      obtain rfl := Option.some.inj ((rep'.snapshot t').symm.trans isSide)
      rw [replace_in_place orderly resting member isId unmoved,Book.resize,if_pos collapses]
      exact orderly.erased_ids member t'
    exact ⟨fun exactly => ⟨negated.mp exactly.negation,fun stays => absurd collapses stays,fun stays => absurd collapses stays⟩,
      fun fits => ⟨negated.mpr fits.negation,.inl gone⟩⟩
  · have edited := editedBy_iff rep orderly opened resting member isId unmoved collapses rep'
    have there : ¬ ∀ t' os, (m'.on t').snapshot = some os → o.orderId ∉ ids os := by
      intro gone
      apply gone t _ (rep'.snapshot t)
      rw [replace_in_place orderly resting member isId unmoved,Book.resize,if_neg collapses]
      show o.orderId ∈ ids ((b.edit t o.orderId _).side t)
      rw [Book.side_edit,if_pos rfl]
      exact List.mem_map.mpr ⟨_,List.mem_map.mpr ⟨o,member,if_pos rfl⟩,(o.modify_fields ..).1⟩
    constructor
    · rintro ⟨negation,outcome⟩
      obtain ⟨half,total⟩ := edited.mp (outcome.resolve_left there)
      exact ⟨negated.mp negation,fun _ => half,fun _ => total⟩
    · rintro ⟨negation,stays,total⟩
      exact ⟨negated.mpr negation,.inr (edited.mpr ⟨stays collapses,total collapses⟩)⟩

end

/-- In a run whose edits in place keep their arithmetic in range every resting order is open and no fill is empty,
    and then the next edit in place is exact just when its arithmetic fits. -/
theorem in_place_replace_exact (h : Pools N) (orderId : UInt32) (sizeDelta : Int32) (newPrice : UInt64) (once : NeverReused cs)
    (fits : EveryStep EditsFit h cs) :
    ∃ (m m' : MatchingBook N) (sides : TreeName → List SimpleOrder), after h cs = some m ∧
      m.step (.replace orderId sizeDelta newPrice) = some m' ∧
      (∀ t, (m.on t).snapshot = some (sides t)) ∧ (∀ t, ∀ o ∈ sides t, 0 < o.openQty) ∧
      (∀ id id' cost, OrderEvent.onFill id id' 0 cost ∉ m.market.events) ∧
      ∀ t, t = .bids ∨ t = .asks → ∀ o ∈ sides t, o.orderId = orderId.toNat → ¬ Book.Reprices o newPrice.toNat →
        (ReplacesExactly m m' t o sizeDelta.toInt ↔ EditFits m t o sizeDelta.toInt) := by
  have admitted := once.admitted.and ((editsFit_everyStep once).mp fits)
  have inPlace : EveryStep InPlaceFits h cs := (inPlaceFits_everyStep once).mpr
    (admitted_imp (fun _ _ both => Book.EditsFit.inPlaceFits both.2) admitted)
  obtain ⟨opened,exactRun⟩ := opened_after once inPlace
  have exactly : True → ExactRun cs := fun _ => exactRun
  obtain ⟨m,ran,rep⟩ := run_represents h cs once exactly
  have orderly := orderly_after once
  obtain ⟨m',stepped,rep'⟩ := (rep.weaken fun _ => trivial).step orderly (c := .replace orderId sizeDelta newPrice) trivial id
  have ordered : Book.Preserved Book.Anything (fun b c => b.Fresh c ∧ b.InPlaceFits c) Book.Orderly :=
    Book.orderly_preserved.restrict fun _ _ both => both.1
  have inv := ((ordered.above Book.opened_preserved).above (Book.trades_positive.and Book.journaled_preserved)).run cs .start
    ⟨⟨Book.orderly_start,opened_start⟩,by simp [Book.start,Market.start],⟨rfl,rfl⟩⟩
    (admitted_imp (fun _ _ both => ⟨both.1,Book.EditsFit.inPlaceFits both.2⟩) admitted)
  refine ⟨m,m',_,ran,stepped,rep.snapshot,opened.1,?_,?_⟩
  · intro id id' cost
    rw [rep.market]
    exact Book.no_empty_fill inv.2.2 inv.2.1 id id' cost
  · intro t resting o member isId unmoved
    exact replacesExactly_iff rep orderly opened resting member isId unmoved rep'

/-- A reduction in place of an order that has been traded in part, in the upper half of the range. -/
theorem in_place_replace_exact_reduction : ∃ (m m' : MatchingBook ⟨1,by decide,by decide⟩) (sides : TreeName → List SimpleOrder),
    after .empty [.add false 100 4000000000 0 0 1,.add true 100 2 0 0 2,.replace 1 5 0] = some m ∧ m.step (.replace 1 (-7) 100) = some m' ∧
      (∀ t, (m.on t).snapshot = some (sides t)) ∧ (∀ t, ∀ o ∈ sides t, 0 < o.openQty) ∧
      (∀ id id' cost, OrderEvent.onFill id id' 0 cost ∉ m.market.events) ∧
      ∀ t, t = .bids ∨ t = .asks → ∀ o ∈ sides t, o.orderId = UInt32.toNat 1 → ¬ Book.Reprices o (UInt64.toNat 100) →
        (ReplacesExactly m m' t o (Int32.toInt (-7)) ↔ EditFits m t o (Int32.toInt (-7))) :=
  have once : NeverReused [.add false 100 4000000000 0 0 1,.add true 100 2 0 0 2,.replace 1 5 0] := by decide
  in_place_replace_exact .empty 1 (-7) 100 once ((editsFit_everyStep once).mpr (by decide))

/-- An order of the largest quantity is made one larger: it stays with no open quantity, and the next order
    that it crosses has an empty fill with it. -/
theorem in_place_replace_wraps : ∃ (m m' m'' : MatchingBook ⟨1,by decide,by decide⟩) (o : SimpleOrder),
    after .empty [.add true 100 4294967295 0 0 1] = some m ∧ m.step (.replace 1 1 0) = some m' ∧ m'.step (.add false 100 1 0 0 2) = some m'' ∧
      (m.on .bids).snapshot = some [o] ∧ o.openQty = 4294967295 ∧ ¬ ReplacesExactly m m' .bids o 1 ∧
      .onFill 2 1 0 0 ∈ m''.market.events := by
  have once : NeverReused ([.add true 100 4294967295 0 0 1] ++ [.replace 1 1 0]) := by decide
  obtain ⟨m,m',ran,stepped,rep,rep'⟩ := run_step_represents .empty once fun no : False => no.elim
  obtain ⟨m'',stepped',rep''⟩ := rep'.step (orderly_after once) (c := .add false 100 1 0 0 2)
    ((orderly_after once).absent_of_fresh (by decide)) False.elim
  refine ⟨m,m',m'',.new true 100 4294967295 0 0 1,ran,stepped,stepped',rep.snapshot .bids,by decide,?_,?_⟩
  · rintro ⟨_,gone | ⟨o',⟨os,isSide,isSide'⟩,_,_,_,left,_⟩⟩
    · exact gone .bids _ (rep'.snapshot .bids) (by decide)
    · obtain rfl := Option.some.inj ((rep.snapshot .bids).symm.trans isSide)
      have isEdit := Option.some.inj ((rep'.snapshot .bids).symm.trans isSide')
      have same : [(SimpleOrder.new true 100 4294967295 0 0 1).modify 1 0] = [o'] := isEdit
      obtain rfl := List.cons.inj same |>.1
      exact absurd left.2 (by decide)
  · rw [rep''.market]
    decide

end MatchingBook

end BaboEngine
