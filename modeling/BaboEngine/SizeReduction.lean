import BaboEngine.InPlaceReplace

/-!
# Reductions of size

A replace with a negative change either edits the order where it rests or cancels and resubmits it.
The first compares the change with the open quantity; the second subtracts it from the quantity in
32 bits. They agree as long as the quantity is not exceeded.
-/

namespace BaboEngine
open Simulation

namespace SimpleOrder
variable {o : SimpleOrder} {d : Int}

/-- A change that takes the quantity below zero wraps. -/
theorem modify_orderQty_wraps (p : Nat) (below : (o.orderQty : Int) + d < 0) (fits : -4294967296 ≤ (o.orderQty : Int) + d) :
    ((o.modify d p).orderQty : Int) = o.orderQty + d + 4294967296 := by
  obtain ⟨_,_,_,_,_,_,_,orderQty,_⟩ := o.modify_fields d p
  have reduced : ∀ x : Int, toI32 x % 4294967296 = x % 4294967296 := fun x => Int.bmod_emod (m := 4294967296)
  rw [orderQty,toU32,reduced,Int.add_emod,reduced,← Int.add_emod]
  omega

variable (sized : o.Sized)
include sized

/-- The open quantity after a reduction that the quantity allows. -/
theorem Sized.openQty_reduced (p : Nat) (reduces : d < 0) (allowed : -d ≤ o.orderQty) :
    ((o.modify d p).openQty : Int) = max 0 (o.openQty + d) := by
  obtain ⟨_,_,_,_,_,filledQty,_⟩ := o.modify_fields d p
  have small := sized.orderQty
  have before := sized.openQty
  have after := (sized.modify d p).openQty
  have orderQty := o.modify_orderQty (d := d) p (by omega) (by omega)
  omega

/-- The open quantity after a reduction by more than the quantity. -/
theorem Sized.openQty_wrapped (p : Nat) (opened : 0 < o.openQty) (low : -2147483648 < d) (exceeds : (o.orderQty : Int) < -d) :
    o.openQty < (o.modify d p).openQty := by
  obtain ⟨_,_,_,_,_,filledQty,_⟩ := o.modify_fields d p
  have before := sized.openQty
  have after := (sized.modify d p).openQty
  have orderQty := o.modify_orderQty_wraps (d := d) p (by omega) (by omega)
  omega

end SimpleOrder

namespace Book
variable {b : Book} {o : SimpleOrder} {hand : List SimpleOrder} {id Q : Nat} {S : List Submission}

/-- No order of an id has more than `Q` open, nor had one that was submitted after the submissions `S`. -/
structure Capped (id Q : Nat) (S : List Submission) (b : Book) (hand : List SimpleOrder) : Prop where
  orders : Everywhere (fun x => x.orderId = id → x.openQty ≤ Q) b hand
  calls : ∃ since, b.market.submissions = S ++ since ∧ ∀ c ∈ since, c.order.orderId = id → c.order.openQty ≤ Q

theorem capped_carried : Carried Orderly (Capped id Q S) where
  submit b o hand orderly capped := by
    obtain ⟨first,rest⟩ := List.forall_mem_cons.mp capped.orders.2
    refine ⟨⟨?_,rest⟩,?_⟩
    · intro t x member isId
      rcases mem_submit orderly.handSized member with old | ⟨_,m,old,q,inTakes,rfl,_⟩ | ⟨_,rfl,_⟩
      · exact capped.orders.1 t x old isId
      · rw [SimpleOrder.fill_orderId] at isId
        have most := capped.orders.1 t m old isId
        have taken : (m,some q) ∈ Matching.allot o o.openQty (b.side t) := by rwa [Matching.takes_eq inTakes (by simp)] at inTakes
        rw [(orderly.sized.1 t m old).openQty_fill (Matching.allot_taken _ _ taken rfl).2.1]
        omega
      · obtain ⟨same,_,remainder⟩ := pass_inc (b := b) orderly.handSized
        have most := first (same.orderId.symm.trans isId)
        rw [remainder]
        omega
    · obtain ⟨since,isSince,all⟩ := capped.calls
      refine ⟨since ++ [b.call o],by rw [submissions_submit,isSince,List.append_assoc],?_⟩
      intro c member
      cases List.mem_append.mp member with
      | inl old => exact all c old
      | inr new =>
        obtain rfl := List.mem_singleton.mp new
        exact first
  scan b _ capped := by
    refine ⟨⟨fun t x member => capped.orders.1 t x ((b.sublist_scanned t).subset member),?_⟩,capped.calls⟩
    intro x member
    rcases mem_due member with m | m <;> exact capped.orders.1 _ x m
  released _ _ _ capped := ⟨capped.orders,capped.calls⟩

/-- An order that goes live again never has more open than it came with. -/
theorem Orderly.resubmitted (orderly : Orderly b [o]) : ∃ since, (b.submit o).processTriggered.market.submissions =
      b.market.submissions ++ b.call o :: since ∧
    (∀ c ∈ since, c.order.orderId = o.orderId → c.order.openQty ≤ o.openQty) ∧
    ∀ t, ∀ x ∈ (b.submit o).processTriggered.side t, x.orderId = o.orderId → x.openQty ≤ o.openQty := by
  have arrived : Capped o.orderId o.openQty b.market.submissions b [o] :=
    ⟨⟨fun t x member isId => absurd isId (orderly.absent x member),by simp⟩,[],by simp,by simp⟩
  have submitted := capped_carried.submit b o [] orderly arrived
  have later : Capped o.orderId o.openQty (b.market.submissions ++ [b.call o]) (b.submit o) [] :=
    ⟨submitted.orders,[],by rw [submissions_submit,List.append_nil],by simp⟩
  obtain ⟨_,orders,since,isSince,all⟩ := (orderly_preserved.toCarried.above capped_carried).processTriggered ⟨orderly.submit,later⟩
  exact ⟨since,by rw [isSince,List.append_assoc,List.singleton_append],all,orders.1⟩

end Book

namespace MatchingBook
variable {N : Capacity} {m m' : MatchingBook N} {b b' : Book} {cs : List Command} {h : Pools N} {t : TreeName} {o : SimpleOrder}

/-- What a reduction is to do to an order: one by all that is open takes it out without a fill, one by less leaves it
    with the rest before it is matched, and none gives it more. -/
structure ReducesAlike (m m' : MatchingBook N) (o : SimpleOrder) (sizeDelta : Int) : Prop where
  gone : (o.openQty : Int) ≤ -sizeDelta → (∀ t os, (m'.on t).snapshot = some os → o.orderId ∉ ids os) ∧
    m'.market.events.filter OrderEvent.isFill = m.market.events.filter OrderEvent.isFill
  left : -sizeDelta < o.openQty → ∃ o', o'.orderId = o.orderId ∧ (o'.openQty : Int) = o.openQty + sizeDelta ∧
    (m'.market.submissions = m.market.submissions ∧ (∃ t os, (m'.on t).snapshot = some os ∧ o' ∈ os) ∨
      ∃ c since, m'.market.submissions = m.market.submissions ++ c :: since ∧ c.order = o')
  orders : ∀ t os, (m'.on t).snapshot = some os → ∀ x ∈ os, x.orderId = o.orderId → x.openQty ≤ o.openQty
  calls : ∃ since, m'.market.submissions = m.market.submissions ++ since ∧
    ∀ c ∈ since, c.order.orderId = o.orderId → c.order.openQty ≤ o.openQty

theorem ids_snapshot (rep : Represents False m b) (absent : ∀ t, o.orderId ∉ ids (b.side t)) :
    ∀ t os, (m.on t).snapshot = some os → o.orderId ∉ ids os := by
  intro t os isSide
  obtain rfl := Option.some.inj ((rep.snapshot t).symm.trans isSide)
  exact absent t

section
variable {orderId : UInt32} {sizeDelta : Int32} {newPrice : UInt64}
variable (rep : Represents False m b) (rep' : Represents False m' b') (orderly : Book.Orderly b []) (resting : t = .bids ∨ t = .asks)
  (member : o ∈ b.side t) (opened : 0 < o.openQty) (reduces : sizeDelta.toInt < 0) (low : sizeDelta.toInt ≠ -2147483648)
include rep rep' orderly

/-- The order leaves and the listener is told of nothing but the replace. -/
theorem reduces_gone (member : o ∈ b.side t) (enough : (o.openQty : Int) ≤ -sizeDelta.toInt) {price : Nat}
    (isErased : b' = (b.eraseFrom t o.orderId).emit (.onReplace o.orderId sizeDelta.toInt price)) : ReducesAlike m m' o sizeDelta.toInt := by
  have absent : ∀ t', o.orderId ∉ ids (b'.side t') := by
    intro t'
    rw [isErased]
    exact orderly.erased_ids member t'
  have market : b'.market = b.market.emit (.onReplace o.orderId sizeDelta.toInt price) := by rw [isErased]; rfl
  refine ⟨fun _ => ⟨ids_snapshot rep' absent,?_⟩,fun less => absurd less (by omega),?_,[],?_,by simp⟩
  · rw [rep'.market,rep.market,market]
    simp [Market.emit,OrderEvent.isFill]
  · intro t' os isSide x inSide isId
    obtain rfl := Option.some.inj ((rep'.snapshot t').symm.trans isSide)
    exact absurd (isId ▸ mem_ids inSide) (absent t')
  · rw [rep'.market,rep.market,market,List.append_nil]
    rfl

include member opened reduces

/-- A reduction in place. -/
theorem reduces_in_place {price : Nat} (isResized : b' = (b.resize t o sizeDelta.toInt).emit (.onReplace o.orderId sizeDelta.toInt price)) :
    ReducesAlike m m' o sizeDelta.toInt := by
  have least := sizeDelta.le_toInt
  by_cases collapses : Book.Collapses o sizeDelta.toInt
  · have enough : (o.openQty : Int) ≤ -sizeDelta.toInt := by
      have reached := collapses.2
      unfold toU32 at reached
      omega
    rw [Book.resize,if_pos collapses] at isResized
    exact reduces_gone rep rep' orderly member enough isResized
  · have less := reduction_lt collapses reduces
    rw [Book.resize,if_neg collapses] at isResized
    obtain ⟨_,openQty,_⟩ := Book.resize_exact (orderly.sized.1 t o member) opened collapses (by omega) priceUnchanged
    have isId := (o.modify_fields sizeDelta.toInt priceUnchanged).1
    have sides : ∀ t', b'.side t' = (b.edit t o.orderId fun o => o.modify sizeDelta.toInt priceUnchanged).side t' := by
      intro t'
      rw [isResized]
      rfl
    have market : b'.market = b.market.emit (.onReplace o.orderId sizeDelta.toInt price) := by rw [isResized]; rfl
    refine ⟨fun enough => absurd enough (by omega),fun _ => ?_,?_,[],?_,by simp⟩
    · refine ⟨_,isId,openQty,.inl ⟨?_,t,_,rep'.snapshot t,?_⟩⟩
      · rw [rep'.market,rep.market,market]
        rfl
      · rw [sides,Book.side_edit,if_pos rfl]
        exact List.mem_map.mpr ⟨o,member,if_pos rfl⟩
    · intro t' os isSide x inSide same
      obtain rfl := Option.some.inj ((rep'.snapshot t').symm.trans isSide)
      rw [sides] at inSide
      rcases Book.mem_edit inSide with old | ⟨_,y,old,isO,rfl⟩
      · rw [(orderly.one_place old member same).2]
      · obtain ⟨_,rfl⟩ := orderly.one_place old member isO
        omega
    · rw [rep'.market,rep.market,market,List.append_nil]
      rfl

include resting low

/-- A reduction with another price is as it should be just when the quantity allows it. -/
theorem reduces_reprice (isId : o.orderId = orderId.toNat) (moves : newPrice.toNat ≠ priceUnchanged)
    (isRepriced : b' = b.reprice t o sizeDelta.toInt newPrice.toNat) : ReducesAlike m m' o sizeDelta.toInt ↔ -sizeDelta.toInt ≤ o.orderQty := by
  have least := sizeDelta.le_toInt
  have sized := orderly.sized.1 t o member
  obtain ⟨copy,isCopy⟩ : ∃ copy, copy = o.modify sizeDelta.toInt newPrice.toNat := ⟨_,rfl⟩
  have copyId : copy.orderId = o.orderId := by rw [isCopy]; exact (o.modify_fields ..).1
  unfold Book.reprice at isRepriced
  simp only [← isCopy] at isRepriced
  by_cases empty : copy.openQty = 0
  · rw [if_pos empty] at isRepriced
    have allowed : -sizeDelta.toInt ≤ o.orderQty := by
      by_contra exceeds
      have := sized.openQty_wrapped newPrice.toNat opened (by omega) (by omega : (o.orderQty : Int) < -sizeDelta.toInt)
      rw [← isCopy] at this
      omega
    have reduced := sized.openQty_reduced newPrice.toNat reduces allowed
    rw [← isCopy] at reduced
    exact ⟨fun _ => allowed,fun _ => reduces_gone rep rep' orderly member (by omega) isRepriced⟩
  · rw [if_neg empty] at isRepriced
    have arrived := Book.orderly_preserved.emit _ _ (.onReplace o.orderId sizeDelta.toInt copy.price) rfl trivial
      (Book.orderly_preserved.reprice b t o orderId sizeDelta newPrice resting member isId trivial moves (by rwa [← isCopy]) trivial orderly)
    rw [← isCopy] at arrived
    obtain ⟨since,isSince,later,sides⟩ := arrived.resubmitted
    rw [← isRepriced] at isSince sides
    have calls : m'.market.submissions = m.market.submissions ++
        ((b.eraseFrom t o.orderId).emit (.onReplace o.orderId sizeDelta.toInt copy.price)).call copy :: since := by
      rw [rep'.market,rep.market,isSince]
      rfl
    constructor
    · rintro ⟨_,_,_,since',isSince',most⟩
      by_contra exceeds
      have wrapped := sized.openQty_wrapped newPrice.toNat opened (by omega) (by omega : (o.orderQty : Int) < -sizeDelta.toInt)
      rw [← isCopy] at wrapped
      rw [calls,List.append_cancel_left_eq] at isSince'
      have := most _ (by rw [← isSince']; exact List.mem_cons_self ..) copyId
      rw [Book.call_order] at this
      omega
    · intro allowed
      have reduced := sized.openQty_reduced newPrice.toNat reduces allowed
      rw [← isCopy] at reduced
      rw [copyId] at later sides
      refine ⟨fun enough => absurd enough (by omega),fun _ => ⟨copy,copyId,by omega,.inr ⟨_,since,calls,rfl⟩⟩,?_,_,calls,?_⟩
      · intro t' os isSide x inSide same
        obtain rfl := Option.some.inj ((rep'.snapshot t').symm.trans isSide)
        have := sides t' x inSide same
        omega
      · intro c inCalls same
        rcases List.mem_cons.mp inCalls with rfl | inSince
        · rw [Book.call_order]
          omega
        · have := later c inSince same
          omega

end

/-- After any run a reduction of an order with open quantity is the same on both paths just when the price stays or
    the reduction is not more than the quantity of the order. -/
theorem size_reduction (h : Pools N) (orderId : UInt32) (sizeDelta : Int32) (newPrice : UInt64) (once : NeverReused cs)
    (reduces : sizeDelta.toInt < 0) (low : sizeDelta.toInt ≠ -2147483648) :
    ∃ (m m' : MatchingBook N) (sides : TreeName → List SimpleOrder), after h cs = some m ∧
      m.step (.replace orderId sizeDelta newPrice) = some m' ∧ (∀ t, (m.on t).snapshot = some (sides t)) ∧
      ∀ t, t = .bids ∨ t = .asks → ∀ o ∈ sides t, o.orderId = orderId.toNat → 0 < o.openQty →
        (ReducesAlike m m' o sizeDelta.toInt ↔ ¬ Book.Reprices o newPrice.toNat ∨ -sizeDelta.toInt ≤ o.orderQty) := by
  obtain ⟨m,ran,rep⟩ := run_represents h cs once fun no : False => no.elim
  have orderly := orderly_after once
  obtain ⟨m',stepped,rep'⟩ := rep.step orderly (c := .replace orderId sizeDelta newPrice) trivial False.elim
  refine ⟨m,m',_,ran,stepped,rep.snapshot,?_⟩
  intro t resting o member isId opened
  have isStep : (Book.after cs).step (.replace orderId sizeDelta newPrice) =
      (Book.after cs).replaceOrder t o sizeDelta.toInt newPrice.toNat := by
    show (Book.after cs).replace orderId.toNat _ _ = _
    rw [← isId,orderly.replace_eq resting member]
  by_cases moves : Book.Reprices o newPrice.toNat
  · rw [Book.replaceOrder,if_pos moves] at isStep
    rw [reduces_reprice rep rep' orderly resting member opened reduces low isId moves.1 isStep]
    simp [moves]
  · rw [Book.replaceOrder,if_neg moves] at isStep
    simp [moves,reduces_in_place rep rep' orderly member opened reduces isStep]

/-- A sell that has been traded in part is reduced by more than is left of it, at another price. -/
theorem size_reduction_partly : ∃ (m m' : MatchingBook ⟨1,by decide,by decide⟩) (sides : TreeName → List SimpleOrder),
    after .empty [.add false 100 5 0 0 1,.add true 100 2 0 0 2] = some m ∧ m.step (.replace 1 (-4) 101) = some m' ∧
      (∀ t, (m.on t).snapshot = some (sides t)) ∧
      ∀ t, t = .bids ∨ t = .asks → ∀ o ∈ sides t, o.orderId = UInt32.toNat 1 → 0 < o.openQty →
        (ReducesAlike m m' o (Int32.toInt (-4)) ↔ ¬ Book.Reprices o (UInt64.toNat 101) ∨ -Int32.toInt (-4) ≤ o.orderQty) :=
  have once : NeverReused [.add false 100 5 0 0 1,.add true 100 2 0 0 2] := by decide
  size_reduction .empty 1 (-4) 101 once (by decide) (by decide)

/-- A reduction by more than the quantity, at another price, makes the order larger. -/
theorem size_reduction_wraps : ∃ (m m' : MatchingBook ⟨1,by decide,by decide⟩) (o o' : SimpleOrder),
    after .empty [.add true 100 5 0 0 1] = some m ∧ m.step (.replace 1 (-10) 101) = some m' ∧
      (m.on .bids).snapshot = some [o] ∧ o.openQty = 5 ∧ ¬ ReducesAlike m m' o (-10) ∧
      (m'.on .bids).snapshot = some [o'] ∧ o'.orderId = o.orderId ∧ o'.openQty = 4294967291 := by
  have once : NeverReused ([.add true 100 5 0 0 1] ++ [.replace 1 (-10) 101]) := by decide
  obtain ⟨m,m',ran,stepped,rep,rep'⟩ := run_step_represents (N := ⟨1,by decide,by decide⟩) .empty once fun no : False => no.elim
  obtain ⟨o',isLarger⟩ : ∃ o', o' = (SimpleOrder.new true 100 5 0 0 1).modify (-10) 101 := ⟨_,rfl⟩
  have rests : (m'.on .bids).snapshot = some [o'] := by
    rw [rep'.snapshot,isLarger]
    decide +kernel
  refine ⟨m,m',.new true 100 5 0 0 1,o',ran,stepped,rep.snapshot .bids,by decide,?_,rests,by rw [isLarger]; rfl,
    by rw [isLarger]; decide +kernel⟩
  intro alike
  apply (alike.gone (by decide)).1 .bids [o'] rests
  rw [isLarger]
  exact List.mem_singleton.mpr rfl

end MatchingBook

end BaboEngine
