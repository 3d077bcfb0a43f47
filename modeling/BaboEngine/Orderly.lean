import BaboEngine.BookSteps

/-!
# Orderly books

The invariant that all others rest on: no id occurs twice, every order fits its types and
is on a side of its own, and each side is sorted.
-/

namespace BaboEngine
open Simulation

theorem TreeName.key_fill (t : TreeName) (o : SimpleOrder) (q c : Nat) : t.key (o.fill q c) = t.key o :=
  (o.sameTerms_fill q c).key t

/-- A change of quantity keeps the key. -/
theorem TreeName.key_resized (t : TreeName) (o : SimpleOrder) (sizeDelta : Int) :
    t.key (o.modify sizeDelta priceUnchanged) = t.key o := by
  obtain ⟨_,_,_,stopPrice,_,_,_,_,price⟩ := o.modify_fields sizeDelta priceUnchanged
  have samePrice : (o.modify sizeDelta priceUnchanged).price = o.price := price
  cases t <;> simp [TreeName.key,samePrice,stopPrice]

/-- The id that a command brings. -/
def Command.added : Command → Option Nat
  | .add _ _ _ _ _ orderId => some orderId.toNat
  | _ => none

/-- No id is brought twice. -/
def NeverReused (cs : List Command) : Prop := (cs.filterMap Command.added).Nodup

instance (cs : List Command) : Decidable (NeverReused cs) := inferInstanceAs (Decidable (List.Nodup _))

namespace Book
variable {b : Book} {o o' : SimpleOrder} {t : TreeName} {id : Nat} {os hand : List SimpleOrder} {r : Round}

/-! ## Where an order comes from -/

/-- The orders after a submission: those that were there, makers that a trade has left open, and
    what is left of the order. -/
theorem mem_submit (sized : o.Sized) (member : o' ∈ (b.submit o).side t) : o' ∈ b.side t ∨
    (t = o.opposite ∧ ∃ m ∈ b.side t, ∃ q, (m,some q) ∈ Matching.takes o (b.side t) ∧ o' = m.fill q (Market.cost m q) ∧
      o'.openQty ≠ 0) ∨
    (t = o.side ∧ o' = (b.pass o).inc ∧ Rests o o') := by
  by_cases isOpposite : t = o.opposite
  · subst isOpposite
    rw [submit_opposite sized,pass_eq sized,Matching.commit_makers,List.mem_flatMap] at member
    obtain ⟨m,inTakes,isLeft⟩ := member
    have inMakers : m.1 ∈ b.side o.opposite := by
      rw [← Matching.takes_makers o (b.side o.opposite)]
      exact List.mem_map_of_mem inTakes
    rcases Matching.mem_left isLeft with rfl | ⟨q,taken,isFilled,opened⟩
    · exact .inl inMakers
    · refine .inr (.inl ⟨rfl,m.1,inMakers,q,?_,isFilled,opened⟩)
      rw [← taken]
      exact inTakes
  · by_cases isSide : t = o.side
    · subst isSide
      rw [submit_side sized] at member
      split_ifs at member with rests
      · rcases (List.mem_orderedInsert _).mp member with rfl | old
        · exact .inr (.inr ⟨rfl,rfl,rests⟩)
        · exact .inl old
      · exact .inl member
    · rw [submit_others sized isSide isOpposite] at member
      exact .inl member

theorem side_scanned (b : Book) : b.scanned.side .stopBids =
      (b.side .stopBids).dropWhile (fun o => ¬ o.stopPrice > b.market.marketPrice) ∧
    b.scanned.side .stopAsks = (b.side .stopAsks).dropWhile (fun o => ¬ o.stopPrice < b.market.marketPrice) ∧
    b.scanned.side .bids = b.side .bids ∧ b.scanned.side .asks = b.side .asks := ⟨rfl,rfl,rfl,rfl⟩

theorem sublist_scanned (b : Book) (t : TreeName) : (b.scanned.side t).Sublist (b.side t) := by
  cases t
  · exact .refl _
  · exact .refl _
  · exact List.dropWhile_sublist _
  · exact List.dropWhile_sublist _

theorem mem_due (member : o ∈ b.dueBuys ++ b.dueSells) : o ∈ b.side .stopBids ∨ o ∈ b.side .stopAsks :=
  (List.mem_append.mp member).imp (fun m => (List.takeWhile_sublist _).subset m) fun m => (List.takeWhile_sublist _).subset m

/-- A scan loses no order. -/
theorem mem_scanned (member : o ∈ b.side t) : o ∈ b.dueBuys ++ b.dueSells ∨ o ∈ b.scanned.side t := by
  cases t with
  | bids | asks => exact .inr member
  | stopBids =>
    rw [← List.takeWhile_append_dropWhile (p := fun o => decide ¬ o.stopPrice > b.market.marketPrice) (l := b.side .stopBids)] at member
    exact (List.mem_append.mp member).imp_left (List.mem_append_left _)
  | stopAsks =>
    rw [← List.takeWhile_append_dropWhile (p := fun o => decide ¬ o.stopPrice < b.market.marketPrice) (l := b.side .stopAsks)] at member
    exact (List.mem_append.mp member).imp_left (List.mem_append_right _)

theorem occurs_scanned (b : Book) (id : Nat) : b.scanned.occurs id + (ids (b.dueBuys ++ b.dueSells)).count id = b.occurs id := by
  obtain ⟨stopBids,stopAsks,bids,asks⟩ := side_scanned b
  have buys := count_while (fun o => ¬ o.stopPrice > b.market.marketPrice) (b.side .stopBids) id
  have sells := count_while (fun o => ¬ o.stopPrice < b.market.marketPrice) (b.side .stopAsks) id
  unfold occurs
  rw [stopBids,stopAsks,bids,asks,ids_append,List.count_append,dueBuys,dueSells]
  omega

theorem side_eraseFrom (b : Book) (t t' : TreeName) (id : Nat) : (b.eraseFrom t id).side t' =
    if t' = t then (b.side t).filter (·.orderId ≠ id) else b.side t' := by
  by_cases same : t' = t
  · subst same
    rw [if_pos rfl]
    exact Function.update_self ..
  · rw [if_neg same]
    exact Function.update_of_ne same ..

theorem sublist_eraseFrom (b : Book) (t t' : TreeName) (id : Nat) : ((b.eraseFrom t id).side t').Sublist (b.side t') := by
  rw [side_eraseFrom]
  split_ifs with same
  · rw [same]
    exact List.filter_sublist
  · exact .refl _

theorem mem_eraseFrom {t' : TreeName} (member : o ∈ b.side t') (other : t' = t → o.orderId ≠ id) : o ∈ (b.eraseFrom t id).side t' := by
  rw [side_eraseFrom]
  split_ifs with same
  · rw [same] at member
    exact List.mem_filter.mpr ⟨member,by simpa using other same⟩
  · exact member

theorem side_edit (b : Book) (t t' : TreeName) (id : Nat) (f : SimpleOrder → SimpleOrder) : (b.edit t id f).side t' =
    if t' = t then (b.side t).map (fun o => if o.orderId = id then f o else o) else b.side t' := by
  by_cases same : t' = t
  · subst same
    rw [if_pos rfl]
    exact Function.update_self ..
  · rw [if_neg same]
    exact Function.update_of_ne same ..

theorem mem_edit {f : SimpleOrder → SimpleOrder} {t' : TreeName} (member : o' ∈ (b.edit t id f).side t') :
    o' ∈ b.side t' ∨ t' = t ∧ ∃ o ∈ b.side t, o.orderId = id ∧ o' = f o := by
  rw [side_edit] at member
  split_ifs at member with same
  · obtain ⟨o,old,rfl⟩ := List.mem_map.mp member
    split_ifs with isId
    · exact .inr ⟨same,o,old,isId,rfl⟩
    · rw [same]
      exact .inl old
  · exact .inl member

theorem side_insertInto (b : Book) (t t' : TreeName) (o : SimpleOrder) : (b.insertInto t o).side t' =
    if t' = t then (b.side t).orderedInsert (Ahead t) o else b.side t' := by
  by_cases same : t' = t
  · subst same
    rw [if_pos rfl]
    exact Function.update_self ..
  · rw [if_neg same]
    exact Function.update_of_ne same ..

theorem mem_insertInto {t' : TreeName} (member : o' ∈ (b.insertInto t o).side t') : o' ∈ b.side t' ∨ t' = t ∧ o' = o := by
  rw [side_insertInto] at member
  split_ifs at member with same
  · rw [same]
    cases (List.mem_orderedInsert _).mp member with
    | inl isO => exact .inr ⟨rfl,isO⟩
    | inr old => exact .inl old
  · exact .inl member

/-! ## Sorted sides -/

/-- No order has a strictly worse key than one behind it. -/
def SortedSide (t : TreeName) (os : List SimpleOrder) : Prop := os.Pairwise fun o o' => ¬ Ahead t o' o

theorem sortedSide_iff : SortedSide t os ↔ (os.map t.key).Pairwise fun p q => ¬ t.type.better q p := by
  rw [List.pairwise_map]
  rfl

theorem sortedSide_orderedInsert (sorted : SortedSide t os) (o : SimpleOrder) : SortedSide t (os.orderedInsert (Ahead t) o) := by
  induction os with
  | nil => exact List.pairwise_singleton _ _
  | cons x os ih =>
    obtain ⟨first,rest⟩ := List.pairwise_cons.mp sorted
    rw [List.orderedInsert_cons]
    split_ifs with ahead
    · refine List.pairwise_cons.mpr ⟨?_,sorted⟩
      intro y member
      rcases List.mem_cons.mp member with rfl | inOs
      · exact OrderType.better_asymm ahead
      · intro better
        exact first y inOs (OrderType.better_trans better ahead)
    · refine List.pairwise_cons.mpr ⟨?_,ih rest⟩
      intro y member
      rcases (List.mem_orderedInsert _).mp member with rfl | inOs
      · exact ahead
      · exact first y inOs

/-- An order stands behind all that it is not ahead of. -/
theorem orderedInsert_split (sorted : SortedSide t os) (o : SimpleOrder) : ∃ xs ys, os = xs ++ ys ∧
    os.orderedInsert (Ahead t) o = xs ++ o :: ys ∧ (∀ x ∈ xs, ¬ Ahead t o x) ∧ ∀ y ∈ ys, Ahead t o y := by
  induction os with
  | nil => exact ⟨[],[],rfl,rfl,by simp,by simp⟩
  | cons x os ih =>
    obtain ⟨first,rest⟩ := List.pairwise_cons.mp sorted
    rw [List.orderedInsert_cons]
    split_ifs with ahead
    · refine ⟨[],x :: os,rfl,rfl,by simp,?_⟩
      intro y member
      rcases List.mem_cons.mp member with rfl | inOs
      · exact ahead
      · exact OrderType.better_of_not_better ahead (first y inOs)
    · obtain ⟨xs,ys,osIs,inserted,behind,before⟩ := ih rest
      refine ⟨x :: xs,ys,by rw [osIs]; rfl,by rw [inserted]; rfl,?_,before⟩
      exact List.forall_mem_cons.mpr ⟨ahead,behind⟩

/-! ## The invariant -/

/-- An added order brings an id that has not come in before. -/
def Fresh (b : Book) : Command → Prop
  | .add _ _ _ _ _ orderId => orderId.toNat ∉ b.market.seen
  | _ => True

instance : (b : Book) → (c : Command) → Decidable (b.Fresh c)
  | b, .add _ _ _ _ _ orderId => inferInstanceAs (Decidable (orderId.toNat ∉ b.market.seen))
  | _, .cancel _ => .isTrue trivial
  | _, .replace _ _ _ => .isTrue trivial
  | _, .setMarketPrice _ => .isTrue trivial

/-- An added order brings an id that is on no side. -/
def Absent (b : Book) : Command → Prop
  | .add _ _ _ _ _ orderId => ∀ t, orderId.toNat ∉ ids (b.side t)
  | _ => True

theorem occurs_eq_zero (absent : ∀ t, id ∉ ids (b.side t)) : b.occurs id = 0 := by
  simp [occurs,List.count_eq_zero_of_not_mem (absent _)]

structure Orderly (b : Book) (hand : List SimpleOrder) : Prop where
  occurs : ∀ id, b.occurs id + (ids hand).count id ≤ if id ∈ b.market.seen then 1 else 0
  sized : (∀ t, ∀ o ∈ b.side t, o.Sized) ∧ ∀ o ∈ hand, o.Sized
  placed : ∀ t, ∀ o ∈ b.side t, t = o.side ∨ t = o.stopSide
  sorted : ∀ t, SortedSide t (b.side t)

theorem Orderly.occurs_le (orderly : Orderly b hand) (id : Nat) : b.occurs id + (ids hand).count id ≤ 1 := by
  have bound := orderly.occurs id
  split_ifs at bound <;> omega

theorem Orderly.nodup (orderly : Orderly b hand) (t : TreeName) : (ids (b.side t)).Nodup := by
  rw [List.nodup_iff_count_le_one]
  intro id
  have := orderly.occurs_le id
  have := b.count_le_occurs t id
  omega

/-- An id is on one side only. -/
theorem Orderly.apart (orderly : Orderly b hand) {t t' : TreeName} (first : o ∈ b.side t) (second : o' ∈ b.side t')
    (same : o.orderId = o'.orderId) : t = t' := by
  by_contra other
  have both := b.count_two_le_occurs other o.orderId
  have := orderly.occurs_le o.orderId
  have one := List.count_pos_iff.mpr (mem_ids first)
  have two := List.count_pos_iff.mpr (mem_ids second)
  rw [← same] at two
  omega

/-- There is one order of an id, in one place. -/
theorem Orderly.one_place (orderly : Orderly b hand) {t t' : TreeName} (first : o ∈ b.side t) (second : o' ∈ b.side t')
    (same : o.orderId = o'.orderId) : t = t' ∧ o = o' := by
  obtain rfl := orderly.apart first second same
  exact ⟨rfl,List.inj_on_of_nodup_map (orderly.nodup t) first second same⟩

/-- An order in hand is on no side. -/
theorem Orderly.absent (orderly : Orderly b (o :: hand)) : ∀ x ∈ b.side t, x.orderId ≠ o.orderId := by
  intro x member same
  have := orderly.occurs_le o.orderId
  have := b.count_le_occurs t o.orderId
  have present := List.count_pos_iff.mpr (mem_ids member)
  rw [same] at present
  rw [ids_cons,List.count_cons_self] at *
  omega

theorem Orderly.handSized (orderly : Orderly b (o :: hand)) : o.Sized := orderly.sized.2 o (by simp)

/-- Fewer orders on the sides and in hand. -/
theorem Orderly.fewer {b' : Book} {hand' : List SimpleOrder} (orderly : Orderly b hand) (seen : b'.market.seen = b.market.seen)
    (occurs : ∀ id, b'.occurs id + (ids hand').count id ≤ b.occurs id + (ids hand).count id)
    (sized : ∀ o ∈ hand', o.Sized) (sublist : ∀ t, (b'.side t).Sublist (b.side t)) : Orderly b' hand' := by
  refine ⟨?_,⟨?_,sized⟩,?_,?_⟩
  · intro id
    rw [seen]
    exact (occurs id).trans (orderly.occurs id)
  · exact fun t o member => orderly.sized.1 t o ((sublist t).subset member)
  · exact fun t o member => orderly.placed t o ((sublist t).subset member)
  · exact fun t => (orderly.sorted t).sublist (sublist t)

theorem seen_tradeAll (k : Market) (ts : List Trade) : (k.tradeAll ts).seen = k.seen := by
  have none : (ts.map Trade.event).filterMap OrderEvent.added = [] := by
    rw [List.filterMap_map,List.filterMap_eq_nil_iff]
    intro t _
    rfl
  rw [Market.seen,Market.events_tradeAll,List.filterMap_append,none,List.append_nil]
  rfl

theorem seen_submit (b : Book) (o : SimpleOrder) : (b.submit o).market.seen = b.market.seen := by
  rw [submit_market]
  exact seen_tradeAll b.market _

theorem seen_emit (b : Book) (e : OrderEvent) : (b.emit e).market.seen = b.market.seen ++ e.added.toList := by
  show (b.market.events ++ [e]).filterMap OrderEvent.added = _
  rw [List.filterMap_append]
  cases e <;> rfl

theorem Orderly.submit (orderly : Orderly b (o :: hand)) : Orderly (b.submit o) hand := by
  have sized := orderly.handSized
  obtain ⟨same,sizedInc,_⟩ := pass_inc (b := b) sized
  refine ⟨?_,⟨?_,fun x member => orderly.sized.2 x (by simp [member])⟩,?_,?_⟩
  · intro id
    have bound := orderly.occurs id
    have := occurs_submit (b := b) sized id
    rw [seen_submit]
    rw [ids_cons,List.count_cons] at bound
    rw [List.count_singleton] at this
    omega
  · intro t x member
    rcases mem_submit sized member with old | ⟨_,m,old,q,_,rfl,_⟩ | ⟨_,rfl,_⟩
    · exact orderly.sized.1 t x old
    · exact (orderly.sized.1 t m old).fill _ _
    · exact sizedInc
  · intro t x member
    rcases mem_submit sized member with old | ⟨_,m,old,q,_,rfl,_⟩ | ⟨rfl,rfl,_⟩
    · exact orderly.placed t x old
    · have before := orderly.placed t m old
      have terms := m.sameTerms_fill q (Market.cost m q)
      rwa [terms.side,terms.stopSide]
    · exact .inl same.side.symm
  · intro t
    by_cases isOpposite : t = o.opposite
    · subst isOpposite
      rw [submit_opposite sized,sortedSide_iff]
      exact ((sortedSide_iff.mp (orderly.sorted _)).sublist
        (pass_map _ (fun x q c => (x.sameTerms_fill q c).key o.opposite) sized))
    · by_cases isSide : t = o.side
      · subst isSide
        rw [submit_side sized]
        split_ifs
        · exact sortedSide_orderedInsert (orderly.sorted _) _
        · exact orderly.sorted _
      · rw [submit_others sized isSide isOpposite]
        exact orderly.sorted t

/-- An erased order is on no side. -/
theorem Orderly.erased_ids (orderly : Orderly b hand) (member : o ∈ b.side t) (t' : TreeName) :
    o.orderId ∉ ids ((b.eraseFrom t o.orderId).side t') := by
  intro named
  obtain ⟨x,inSide,isId⟩ := List.mem_map.mp named
  obtain rfl := orderly.apart ((b.sublist_eraseFrom t t' _).subset inSide) member isId
  rw [side_eraseFrom,if_pos rfl] at inSide
  simpa [isId] using (List.mem_filter.mp inSide).2

/-- An erased order frees its id. -/
theorem occurs_eraseFrom (member : o ∈ b.side t) (id : Nat) :
    (b.eraseFrom t o.orderId).occurs id + [o.orderId].count id ≤ b.occurs id := by
  have := occurs_put b t ((b.side t).filter (·.orderId ≠ o.orderId)) id
  show (b.put t ((b.side t).filter (·.orderId ≠ o.orderId))).occurs id + _ ≤ _
  rw [List.count_singleton]
  by_cases same : o.orderId = id
  · subst same
    have gone : (ids ((b.side t).filter (·.orderId ≠ o.orderId))).count o.orderId = 0 := by
      rw [List.count_eq_zero]
      intro present
      obtain ⟨x,inFilter,isId⟩ := List.mem_map.mp present
      simpa [isId] using (List.mem_filter.mp inFilter).2
    have one := List.count_pos_iff.mpr (mem_ids member)
    simp only [beq_self_eq_true,↓reduceIte]
    omega
  · have less : (ids ((b.side t).filter (·.orderId ≠ o.orderId))).count id ≤ (ids (b.side t)).count id :=
      (List.filter_sublist.map _).count_le id
    have other : ¬ (o.orderId == id) = true := by simpa using same
    rw [if_neg other]
    omega

/-- What has come in stays so. -/
theorem seen_mono (b : Book) (e : OrderEvent) (id : Nat) :
    (if id ∈ b.market.seen then 1 else 0) ≤ if id ∈ (b.emit e).market.seen then 1 else 0 := by
  rw [seen_emit]
  split_ifs with before after
  · exact Nat.le_refl 1
  · exact absurd (List.mem_append_left _ before) after
  · exact Nat.zero_le 1
  · exact Nat.le_refl 0

theorem Orderly.arrive {isBuy : Bool} {price qty stopPrice conditions orderId : UInt32}
    (orderly : Orderly b []) (absent : ∀ t, orderId.toNat ∉ ids (b.side t)) :
    Orderly (b.emit (.onAccept orderId.toNat)) [.new isBuy price qty stopPrice conditions orderId] := by
  refine ⟨?_,⟨orderly.sized.1,?_⟩,orderly.placed,orderly.sorted⟩
  · intro id
    have bound := (orderly.occurs id).trans (b.seen_mono (.onAccept orderId.toNat) id)
    show b.occurs id + [orderId.toNat].count id ≤ _
    rw [List.count_singleton]
    by_cases same : orderId.toNat = id
    · subst same
      have none := occurs_eq_zero absent
      rw [seen_emit]
      simp only [OrderEvent.added,Option.toList_some,List.mem_append,List.mem_singleton,or_true,↓reduceIte,beq_self_eq_true]
      omega
    · have other : ¬ (orderId.toNat == id) = true := by simpa using same
      rw [if_neg other]
      exact (Nat.le_of_eq (by simp)).trans bound
  · intro o member
    obtain rfl := List.mem_singleton.mp member
    exact SimpleOrder.sized_new ..

theorem Orderly.park (orderly : Orderly b [o]) : Orderly (b.parkStop o) [] := by
  have occursIs := fun id => occurs_put b o.stopSide ((b.side o.stopSide).orderedInsert (Ahead o.stopSide) o) id
  refine ⟨?_,⟨?_,by simp⟩,?_,?_⟩
  · intro id
    have bound := orderly.occurs id
    have := occursIs id
    rw [count_orderedInsert,ids_cons,List.count_cons] at this
    rw [ids_cons,List.count_cons] at bound
    show (b.put o.stopSide ((b.side o.stopSide).orderedInsert (Ahead o.stopSide) o)).occurs id + _ ≤
      if id ∈ b.market.seen then 1 else 0
    rw [ids_nil,List.count_nil] at *
    omega
  · intro t x member
    rcases mem_insertInto member with old | ⟨_,rfl⟩
    · exact orderly.sized.1 t x old
    · exact orderly.handSized
  · intro t x member
    rcases mem_insertInto member with old | ⟨rfl,rfl⟩
    · exact orderly.placed t x old
    · exact .inr rfl
  · intro t
    show SortedSide t ((b.insertInto o.stopSide o).side t)
    rw [side_insertInto]
    split_ifs with same
    · rw [same]
      exact sortedSide_orderedInsert (orderly.sorted _) o
    · exact orderly.sorted t

/-- A change of size moves no order and renames none. -/
theorem Orderly.resized (orderly : Orderly b []) (t : TreeName) (id : Nat) (sizeDelta : Int) :
    Orderly (b.edit t id fun o => o.modify sizeDelta priceUnchanged) [] := by
  have terms : ∀ x : SimpleOrder, (x.modify sizeDelta priceUnchanged).orderId = x.orderId ∧
      (x.modify sizeDelta priceUnchanged).side = x.side ∧ (x.modify sizeDelta priceUnchanged).stopSide = x.stopSide ∧
      ∀ t : TreeName, t.key (x.modify sizeDelta priceUnchanged) = t.key x := by
    intro x
    obtain ⟨orderId,_,isBuy,_⟩ := x.modify_fields sizeDelta priceUnchanged
    exact ⟨orderId,by simp [SimpleOrder.side,isBuy],by simp [SimpleOrder.stopSide,isBuy],fun t => t.key_resized x _⟩
  have mapped : ∀ {β : Type} (f : SimpleOrder → β), (∀ x, f (x.modify sizeDelta priceUnchanged) = f x) →
      ((b.side t).map fun x => if x.orderId = id then x.modify sizeDelta priceUnchanged else x).map f = (b.side t).map f := by
    intro β f stable
    rw [List.map_map]
    refine List.map_congr_left fun x _ => ?_
    by_cases same : x.orderId = id <;> simp [same,stable]
  refine ⟨?_,⟨?_,by simp⟩,?_,?_⟩
  · intro id'
    refine le_trans (Nat.le_of_eq ?_) (orderly.occurs id')
    have changed := occurs_put b t ((b.side t).map fun x => if x.orderId = id then x.modify sizeDelta priceUnchanged else x) id'
    rw [ids,ids,mapped (fun x => x.orderId) fun x => (terms x).1] at changed
    exact congrArg (· + (ids []).count id') (Nat.add_right_cancel changed)
  · intro t' x member
    rcases mem_edit member with old | ⟨_,m,old,_,rfl⟩
    · exact orderly.sized.1 t' x old
    · exact (orderly.sized.1 t m old).modify _ _
  · intro t' x member
    rcases mem_edit member with old | ⟨rfl,m,old,_,rfl⟩
    · exact orderly.placed t' x old
    · rw [(terms m).2.1,(terms m).2.2.1]
      exact orderly.placed t' m old
  · intro t'
    rw [side_edit]
    split_ifs with same
    · rw [same,sortedSide_iff,mapped _ fun x => (terms x).2.2.2 t]
      exact sortedSide_iff.mp (orderly.sorted t)
    · exact orderly.sorted t'

theorem orderly_absent : Preserved Anything Absent Orderly where
  submit _ _ _ _ orderly := orderly.submit
  scan b _ orderly := by
    refine orderly.fewer rfl ?_ ?_ b.sublist_scanned
    · intro id
      exact Nat.le_of_eq (b.occurs_scanned id)
    · intro o member
      rcases mem_due member with m | m <;> exact orderly.sized.1 _ o m
  released _ _ _ orderly := ⟨orderly.occurs,orderly.sized,orderly.placed,orderly.sorted⟩
  emit b _ e _ _ orderly :=
    ⟨fun id => (orderly.occurs id).trans (b.seen_mono e id),orderly.sized,orderly.placed,orderly.sorted⟩
  arrive _ _ _ _ _ _ _ absent _ _ orderly := orderly.arrive absent
  park _ _ _ _ _ orderly := orderly.park
  erase b t o member _ orderly := by
    refine orderly.fewer rfl ?_ (by simp) (b.sublist_eraseFrom t · o.orderId)
    intro id
    have := occurs_eraseFrom member id
    rw [ids_nil,List.count_nil]
    omega
  resize _ t o _ sizeDelta _ _ _ _ _ _ _ _ orderly := orderly.resized t o.orderId sizeDelta.toInt
  reprice b t o _ sizeDelta newPrice _ member _ _ _ _ _ orderly := by
    refine orderly.fewer rfl ?_ ?_ (b.sublist_eraseFrom t · o.orderId)
    · intro id
      have isId : (o.modify sizeDelta.toInt newPrice.toNat).orderId = o.orderId := (o.modify_fields _ _).1
      rw [ids_cons,isId]
      exact (occurs_eraseFrom member id).trans (Nat.le_add_right _ _)
    · intro x inHand
      obtain rfl := List.mem_singleton.mp inHand
      exact (orderly.sized.1 t o member).modify _ _
  observe _ _ _ orderly := ⟨orderly.occurs,orderly.sized,orderly.placed,orderly.sorted⟩

/-- An id that has not come in is on no side. -/
theorem Orderly.absent_of_fresh {c : Command} (orderly : Orderly b hand) (fresh : b.Fresh c) : b.Absent c := by
  cases c with
  | add isBuy price qty stopPrice conditions orderId =>
    intro t present
    have unseen : orderId.toNat ∉ b.market.seen := fresh
    have bound := orderly.occurs orderId.toNat
    rw [if_neg unseen] at bound
    have := b.count_le_occurs t orderId.toNat
    have := List.count_pos_iff.mpr present
    omega
  | cancel | replace | setMarketPrice => trivial

theorem orderly_preserved : Preserved Anything Fresh Orderly :=
  { orderly_absent with
    arrive := fun b _ _ _ _ _ _ fresh some base orderly =>
      orderly_absent.arrive b _ _ _ _ _ _ (orderly.absent_of_fresh fresh) some base orderly
    resize := fun b t o _ _ _ resting member isId _ => orderly_absent.resize b t o _ _ _ resting member isId trivial
    reprice := fun b t o _ _ _ resting member isId _ => orderly_absent.reprice b t o _ _ _ resting member isId trivial }

theorem orderly_start : Orderly start [] := by
  refine ⟨fun id => ?_,⟨fun t o member => ?_,by simp⟩,fun t o member => ?_,fun t => List.Pairwise.nil⟩
  · simp [Book.occurs,start]
  · simp [start] at member
  · simp [start] at member

/-! ## Look-up by id -/

theorem Orderly.find_eq (orderly : Orderly b hand) (member : o ∈ b.side t) : b.find t o.orderId = some o := by
  cases found : b.find t o.orderId with
  | none =>
    have absent := List.find?_eq_none.mp found o member
    simp at absent
  | some o' =>
    obtain ⟨inSide,same⟩ := find_some found
    have unique := List.inj_on_of_nodup_map (orderly.nodup t) inSide member same
    rw [unique]

theorem Orderly.cancel_eq (orderly : Orderly b hand) (member : o ∈ b.side t) :
    b.cancel o.orderId = (b.eraseFrom t o.orderId).emit (.onCancel o.orderId) := by
  unfold cancel
  cases found : b.holder o.orderId [.bids,.asks,.stopBids,.stopAsks] with
  | none => exact absurd rfl (holder_none found (by cases t <;> simp) o member)
  | some t' =>
    obtain ⟨_,x,inSide,same⟩ := holder_some found
    rw [orderly.apart inSide member same]

theorem cancel_none (absent : ∀ t, ∀ x ∈ b.side t, x.orderId ≠ id) : b.cancel id = b.emit (.onCancelReject id "not found") := by
  unfold cancel
  cases found : b.holder id [.bids,.asks,.stopBids,.stopAsks] with
  | none => rfl
  | some t =>
    obtain ⟨_,x,inSide,same⟩ := holder_some found
    exact absurd same (absent t x inSide)

/-- An ask is not found among the bids. -/
theorem Orderly.bid_none (orderly : Orderly b hand) (member : o ∈ b.side .asks) : b.find .bids o.orderId = none := by
  cases other : b.find .bids o.orderId with
  | none => rfl
  | some o' =>
    obtain ⟨inSide,same⟩ := find_some other
    exact absurd (orderly.apart inSide member same) (by decide)

theorem Orderly.replace_eq (orderly : Orderly b hand) (resting : t = .bids ∨ t = .asks) (member : o ∈ b.side t) (sizeDelta : Int)
    (newPrice : Nat) : b.replace o.orderId sizeDelta newPrice = b.replaceOrder t o sizeDelta newPrice := by
  have found := orderly.find_eq member
  unfold replace
  rcases resting with rfl | rfl
  · rw [found]
  · rw [orderly.bid_none member,found]

/-! ## The rounds of released stops -/

theorem submitAll_stops (fired : List SimpleOrder) (stop : t = .stopBids ∨ t = .stopAsks) : ∀ b : Book, (∀ o ∈ fired, o.Sized) →
    (b.submitAll fired).side t = b.side t := by
  induction fired with
  | nil => exact fun b _ => rfl
  | cons o fired ih =>
    intro b sized
    obtain ⟨first,rest⟩ := List.forall_mem_cons.mp sized
    exact (ih (b.submit o) rest).trans (submit_stops first stop)

theorem Orderly.dueSized (orderly : Orderly b []) : ∀ o ∈ b.dueBuys ++ b.dueSells, o.Sized := by
  intro o member
  rcases mem_due member with m | m <;> exact orderly.sized.1 _ o m

/-- Nothing is parked during a round. -/
theorem Orderly.fire_stops (orderly : Orderly b []) (stop : t = .stopBids ∨ t = .stopAsks) : b.fire.side t = b.scanned.side t :=
  submitAll_stops _ stop b.scanned orderly.dueSized

/-- Every round but the last takes an order out of the stop trees. -/
theorem Orderly.parkedCount_fire (orderly : Orderly b []) :
    b.fire.parkedCount + (b.dueBuys ++ b.dueSells).length = b.parkedCount := by
  obtain ⟨stopBids,stopAsks,_,_⟩ := side_scanned b
  have buys := congrArg List.length (List.takeWhile_append_dropWhile (p := fun o => decide ¬ o.stopPrice > b.market.marketPrice)
    (l := b.side .stopBids))
  have sells := congrArg List.length (List.takeWhile_append_dropWhile (p := fun o => decide ¬ o.stopPrice < b.market.marketPrice)
    (l := b.side .stopAsks))
  rw [List.length_append] at buys sells
  unfold parkedCount
  rw [orderly.fire_stops (.inl rfl),orderly.fire_stops (.inr rfl),stopBids,stopAsks,List.length_append,dueBuys,dueSells]
  omega

theorem scanned_of_none (none : b.dueBuys ++ b.dueSells = []) : b.scanned = b := by
  obtain ⟨buys,sells⟩ := List.append_eq_nil_iff.mp none
  have whole : ∀ (due : SimpleOrder → Bool) (os : List SimpleOrder), os.takeWhile due = [] → os.dropWhile due = os := by
    intro due os empty
    have both := List.takeWhile_append_dropWhile (p := due) (l := os)
    rwa [empty,List.nil_append] at both
  unfold scanned
  rw [whole _ _ buys,whole _ _ sells]
  simp [put]

/-- More rounds than there are parked orders make no difference. -/
theorem processTriggeredLoop_enough (rounds : Nat) : ∀ (rounds' : Nat) (b : Book), Orderly b [] → b.parkedCount < rounds →
    b.parkedCount < rounds' → b.processTriggeredLoop rounds = b.processTriggeredLoop rounds' := by
  induction rounds with
  | zero => intro _ _ _ enough; omega
  | succ rounds ih =>
    intro rounds' b orderly enough enough'
    cases rounds' with
    | zero =>
      omega
    | succ rounds' =>
      unfold processTriggeredLoop
      split_ifs with none
      · rfl
      · have fewer := orderly.parkedCount_fire
        have some : (b.dueBuys ++ b.dueSells).length ≠ 0 := fun empty => none (by simpa using empty)
        exact ih rounds' b.fire (orderly_preserved.fire orderly) (by omega) (by omega)

/-! ## Ids that come in once -/

theorem carried_seen (seen : List Nat) : Carried Anything fun b _ => b.market.seen = seen where
  submit b o _ _ same := (seen_submit b o).trans same
  scan _ _ same := same
  released _ _ _ same := same

theorem Outcome.seen {b' : Book} {c : Command} (outcome : Outcome b c b') :
    b'.market.seen = b.market.seen ++ c.added.toList := by
  cases outcome with
  | rejected => exact seen_emit ..
  | parked => exact seen_emit ..
  | live => exact (carried_seen _).processTriggered ((seen_submit _ _).trans (seen_emit ..))
  | cancelled => exact seen_emit ..
  | cancelRejected => exact seen_emit ..
  | replaceRejected => exact seen_emit ..
  | collapsed => exact seen_emit ..
  | resized => exact seen_emit ..
  | emptied => exact seen_emit ..
  | repriced => exact (carried_seen _).processTriggered ((seen_submit _ _).trans (seen_emit ..))
  | observed => exact (carried_seen _).processTriggered (List.append_nil _).symm

theorem admitted_fresh (cs : List Command) : ∀ b : Book, (b.market.seen ++ cs.filterMap Command.added).Nodup →
    Admitted Fresh step b cs := by
  induction cs with
  | nil => exact fun b _ => trivial
  | cons c cs ih =>
    intro b nodup
    have moved : b.market.seen ++ (c :: cs).filterMap Command.added =
        (b.step c).market.seen ++ cs.filterMap Command.added := by
      rw [(step_outcome b c).seen,List.append_assoc]
      cases c <;> rfl
    refine ⟨?_,ih (b.step c) (by rwa [← moved])⟩
    cases c with
    | add isBuy price qty stopPrice conditions orderId =>
      intro seen
      exact (List.nodup_append.mp nodup).2.2 orderId.toNat seen orderId.toNat (by simp [Command.added]) rfl
    | cancel | replace | setMarketPrice => trivial

end Book

theorem NeverReused.admitted {cs : List Command} (once : NeverReused cs) : Admitted Book.Fresh Book.step .start cs :=
  Book.admitted_fresh cs .start once

end BaboEngine
