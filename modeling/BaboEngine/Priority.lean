import BaboEngine.BookRefinement
import BaboEngine.Queues
import BaboEngine.Submissions

/-!
# Price-time priority

An order came in when it was last submitted. Each side is in that order within a price,
and an incoming order takes its makers in the order of its opposite side.
-/

namespace BaboEngine

/-- A submission, made after those of `S`, respects price and time. -/
structure Fair (S : List Submission) (c : Submission) : Prop where
  best : c.makers.Pairwise (Before c.order.opposite (submitted S))
  inOrder : (c.trades.map Trade.maker).Sublist c.makers
  atLimit : ∀ t ∈ c.trades, crosses t.maker c.order
  filled : ∀ T t T', c.trades = T ++ t :: T' → T' ≠ [] → t.qty = t.maker.openQty
  passedOver : ∀ L m R, c.makers = L ++ m :: R → crosses m c.order → (∀ t ∈ c.trades, t.maker ≠ m) →
    (∃ t ∈ c.trades, t.maker ∈ R) →
    m.allOrNone ∧ c.order.openQty - ((c.trades.filter (·.maker ∈ L)).map Trade.qty).sum < m.openQty
  keeps : (ids c.makersLeft).Sublist (ids c.makers)
  left : c.order.allOrNone = false → 0 < c.remainder.openQty → ∀ m ∈ c.makersLeft, crosses m c.order → m.allOrNone

namespace Book
variable {b : Book} {o o' : SimpleOrder} {t : TreeName} {hand : List SimpleOrder} {cs : List Command}

/-! ## One submission -/

theorem Orderly.makers_nodup (orderly : Orderly b hand) (t : TreeName) : (b.side t).Nodup := (orderly.nodup t).of_map _

/-- All makers but the last are filled. -/
theorem Orderly.filled (orderly : Orderly b (o :: hand)) {T T' : List Trade} {t : Trade} (split : (b.pass o).trades = T ++ t :: T')
    (more : T' ≠ []) : t.qty = t.maker.openQty := by
  obtain ⟨t',T'',rfl⟩ := List.exists_cons_of_ne_nil more
  have pairs := orderly.trades_eq (t := t) (by simp [split])
  rw [split,List.map_append,List.map_cons] at pairs
  obtain ⟨L,R,allotIs,_,inR⟩ := List.filterMap_eq_append_iff.mp pairs.symm
  obtain ⟨L',x,R',rfl,_,isTaken,later⟩ := List.filterMap_eq_cons_iff.mp inR
  have isMaker : x = (t.maker,some t.qty) := by
    obtain ⟨maker,_ | q⟩ := x
    · simp at isTaken
    · obtain ⟨rfl,rfl⟩ : maker = t.maker ∧ q = t.qty := by simpa using isTaken
      rfl
  subst isMaker
  have next : (t'.maker,some t'.qty) ∈ R' := by
    rw [← Matching.mem_taken,later]
    simp
  rw [← List.append_assoc] at allotIs
  exact Matching.allot_full allotIs ⟨_,next,by simp⟩

/-- A crossing maker without a trade before one with a trade. -/
theorem Orderly.passedOver (orderly : Orderly b (o :: hand)) {L R : List SimpleOrder} {m : SimpleOrder}
    (split : b.side o.opposite = L ++ m :: R) (without : ∀ t ∈ (b.pass o).trades, t.maker ≠ m)
    (later : ∃ t ∈ (b.pass o).trades, t.maker ∈ R) :
    m.allOrNone ∧ o.openQty - (((b.pass o).trades.filter (·.maker ∈ L)).map Trade.qty).sum < m.openQty := by
  obtain ⟨t,member,inR⟩ := later
  have pairs := orderly.trades_eq member
  have inAllot := orderly.mem_trades member
  have nodup := orderly.makers_nodup o.opposite
  have makersIs := Matching.allot_makers o (b.side o.opposite) o.openQty
  rw [split,List.map_eq_append_iff] at makersIs
  obtain ⟨TL,rest,allotIs,isL,restIs⟩ := makersIs
  obtain ⟨x,TR,rfl,rfl,isR⟩ := List.map_eq_cons_iff.mp restIs
  rw [split,List.nodup_append,List.nodup_cons] at nodup
  obtain ⟨_,⟨notInR,_⟩,apart⟩ := nodup
  rw [split,allotIs] at inAllot pairs
  -- Nothing is taken of the maker, but something behind it.
  have none : x.2 = none := by
    by_contra some
    obtain ⟨q,taken⟩ := Option.ne_none_iff_exists'.mp some
    have inPairs : (x.1,q) ∈ (b.pass o).trades.map fun t => (t.maker,t.qty) := by
      rw [pairs,Matching.mem_taken,← taken]
      simp
    obtain ⟨t',member',same⟩ := List.mem_map.mp inPairs
    exact without t' member' (congrArg Prod.fst same)
  have behind : (t.maker,some t.qty) ∈ TR := by
    cases List.mem_append.mp inAllot with
    | inl before =>
      exact absurd rfl (apart t.maker (by rw [← isL]; exact List.mem_map_of_mem (f := Prod.fst) before) t.maker (by simp [inR]))
    | inr here =>
      cases List.mem_cons.mp here with
      | inl isX =>
        rw [← isX] at none
        simp at none
      | inr after => exact after
  obtain ⟨maker,quantity⟩ := x
  obtain rfl : quantity = Option.none := none
  have passed := Matching.allot_passed allotIs ⟨_,behind,by simp⟩
  -- What is taken before it is the sum of the trades there.
  have sum : (((b.pass o).trades.filter (·.maker ∈ L)).map Trade.qty).sum = Matching.total TL := by
    have filtered : ((b.pass o).trades.filter (·.maker ∈ L)).map (fun t => (t.maker,t.qty)) = TL.filterMap Matching.taken := by
      have commute : ((b.pass o).trades.filter (·.maker ∈ L)).map (fun t => (t.maker,t.qty)) =
          ((b.pass o).trades.map fun t => (t.maker,t.qty)).filter (·.1 ∈ L) := by
        rw [List.filter_map]
        rfl
      rw [commute,pairs,List.filterMap_append,List.filterMap_cons_none (Matching.taken_none maker),List.filter_append]
      have before : (TL.filterMap Matching.taken).filter (·.1 ∈ L) = TL.filterMap Matching.taken := by
        apply List.filter_eq_self.mpr
        rintro ⟨m,q⟩ inPairs
        have inL : m ∈ L := by
          rw [← isL]
          exact List.mem_map_of_mem (f := Prod.fst) (Matching.mem_taken.mp inPairs)
        simpa using inL
      have after : (TR.filterMap Matching.taken).filter (·.1 ∈ L) = [] := by
        rw [List.filter_eq_nil_iff]
        rintro ⟨m,q⟩ inPairs inL
        have inR : m ∈ R := by
          rw [← isR]
          exact List.mem_map_of_mem (f := Prod.fst) (Matching.mem_taken.mp inPairs)
        exact apart m (by simpa using inL) m (by simp [inR]) rfl
      rw [before,after,List.append_nil]
    rw [Matching.total_eq,← filtered,List.map_map]
    rfl
  rw [sum]
  exact passed

/-! ## The sides -/

/-- The resting orders are in order of price and of their last submission. -/
theorem resting_queued : Preserved Orderly Fresh fun b _ =>
    ∀ t, t = .bids ∨ t = .asks → Queued t (submitted b.market.submissions) (b.side t) where
  submit b o hand orderly all t resting := by
    have sized := orderly.handSized
    have isSubmitted : submitted (b.submit o).market.submissions = submitted b.market.submissions ++ [o.orderId] := by
      rw [submissions_submit]
      exact List.map_append
    have others : Queued t (submitted b.market.submissions ++ [o.orderId]) (b.side t) := (all t resting).append orderly.absent
    rw [isSubmitted]
    by_cases isOpposite : t = o.opposite
    · subst isOpposite
      rw [submit_opposite sized]
      exact others.sublist (pass_map _ (fun x q c => by rw [rank,rank,o.opposite.key_fill,x.fill_orderId]) sized)
    · by_cases isSide : t = o.side
      · subst isSide
        rw [submit_side sized]
        have isId : (b.pass o).inc.orderId = o.orderId := (pass_inc sized).1.orderId
        split_ifs
        · rw [← isId]
          exact (all _ resting).insert (by rw [isId]; exact orderly.absent) (orderly.sorted _)
        · exact others
      · rw [submit_others sized isSide isOpposite]
        exact others
  scan b _ all t resting := by
    have same : b.scanned.side t = b.side t := by rcases resting with rfl | rfl <;> rfl
    rw [same]
    exact all t resting
  released _ _ _ all := all
  emit _ _ _ _ _ all := all
  arrive _ _ _ _ _ _ _ _ _ _ all := all
  park b o _ _ _ all t resting := by
    have other : t ≠ o.stopSide := by
      unfold SimpleOrder.stopSide
      rcases resting with rfl | rfl <;> cases o.isBuy <;> decide
    have same : (b.parkStop o).side t = b.side t := (side_insertInto b o.stopSide t o).trans (if_neg other)
    rw [same]
    exact all t resting
  erase b t' o _ _ all t resting := (all t resting).sublist ((b.sublist_eraseFrom t' t o.orderId).map _)
  resize b t' o _ sizeDelta _ _ _ _ _ _ _ _ all t resting := by
    refine (all t resting).sublist (List.Sublist.refl _ |> Eq.subst ?_)
    rw [side_edit]
    split_ifs with same
    · rw [same,List.map_map]
      refine List.map_congr_left fun x _ => ?_
      obtain ⟨orderId,_⟩ := x.modify_fields sizeDelta.toInt priceUnchanged
      by_cases isId : x.orderId = o.orderId <;> simp [rank,isId,orderId,TreeName.key_resized]
    · rfl
  reprice b t' o _ _ _ _ _ _ _ _ _ _ all t resting := (all t resting).sublist ((b.sublist_eraseFrom t' t o.orderId).map _)
  observe _ _ _ all := all

/-! ## Whole runs -/

theorem Orderly.fair (orderly : Orderly b (o :: hand))
    (all : ∀ t, t = .bids ∨ t = .asks → Queued t (submitted b.market.submissions) (b.side t)) : Fair b.market.submissions (b.call o) where
  best := (all o.opposite o.opposite_cases).sorted
  inOrder := by
    have makers : (b.pass o).trades.map Trade.maker = ((b.pass o).trades.map fun t => (t.maker,t.qty)).map Prod.fst := by
      rw [List.map_map]
      rfl
    show ((b.pass o).trades.map Trade.maker).Sublist (b.side o.opposite)
    have inOrder := Matching.taken_sublist (Matching.takes o (b.side o.opposite))
    rwa [Matching.takes_makers,← orderly.pass_trades,← makers] at inOrder
  atLimit t member := (Matching.allot_taken _ _ (orderly.mem_trades member) rfl).1
  filled _ _ _ split more := orderly.filled split more
  passedOver _ _ _ split _ without later := orderly.passedOver split without later
  keeps := pass_map _ (fun x q c => x.fill_orderId q c) orderly.handSized
  left regular opened m member crossed := (orderly.left_aon regular opened m member crossed).1

theorem fair_preserved : Preserved (fun b hand => Orderly b hand ∧ ∀ t, t = .bids ∨ t = .asks →
    Queued t (submitted b.market.submissions) (b.side t)) Fresh fun b _ => ∀ before c later,
      b.market.submissions = before ++ c :: later → Fair before c :=
  submissions_preserved fun _ _ _ base => base.1.fair base.2

/-- A replace at an unchanged price submits nothing and keeps the order of the sides. -/
theorem Orderly.replace_inPlace (orderly : Orderly b []) (resting : t = .bids ∨ t = .asks) (member : o ∈ b.side t) (sizeDelta : Int)
    {newPrice : Nat} (unchanged : newPrice = priceUnchanged ∨ newPrice = o.price) :
    (b.replace o.orderId sizeDelta newPrice).market.submissions = b.market.submissions ∧
      ∀ t', (ids ((b.replace o.orderId sizeDelta newPrice).side t')).Sublist (ids (b.side t')) := by
  have stays : ¬ (newPrice ≠ priceUnchanged ∧ newPrice ≠ o.price) := fun moves => unchanged.elim moves.1 moves.2
  rw [orderly.replace_eq resting member,replaceOrder,if_neg stays]
  unfold resize
  split_ifs
  · exact ⟨rfl,fun t' => (b.sublist_eraseFrom t t' o.orderId).map _⟩
  · refine ⟨rfl,fun t' => ?_⟩
    show (ids ((b.edit t o.orderId fun o => o.modify sizeDelta priceUnchanged).side t')).Sublist _
    rw [side_edit]
    split_ifs with same
    · rw [same,ids,ids,List.map_map]
      refine List.Sublist.refl _ |> Eq.subst (List.map_congr_left fun x _ => ?_)
      obtain ⟨orderId,_⟩ := x.modify_fields sizeDelta priceUnchanged
      by_cases isId : x.orderId = o.orderId <;> simp [isId,orderId]
    · exact .refl _

end Book

namespace MatchingBook
variable {N : Capacity}

/-- Price-time priority in a book and its journal: each side is in order of price and of entry, every submission
    has taken its makers in that order, in full but for the last, and has passed over none that it
    could trade with, the listener is told of exactly these trades, and a replace at an
    unchanged price is no new entry. -/
structure PriceTime (m : MatchingBook N) : Prop where
  sides : ∀ t, t = .bids ∨ t = .asks → ∃ os, (m.on t).snapshot = some os ∧ Queued t (submitted m.market.submissions) os ∧
    ∀ o ∈ os, ∀ orderId sizeDelta newPrice, o.orderId = orderId.toNat → newPrice.toNat = priceUnchanged ∨ newPrice.toNat = o.price →
      ∃ m' os', m.step (.replace orderId sizeDelta newPrice) = some m' ∧ m'.market.submissions = m.market.submissions ∧
        (m'.on t).snapshot = some os' ∧ (ids os').Sublist (ids os)
  submissions : ∀ before c later, m.market.submissions = before ++ c :: later → Fair before c
  journaled : Book.Journaled m.market

/-- Every run keeps price-time priority. -/
theorem price_time_priority (h : Pools N) (cs : List Command) (once : NeverReused cs) :
    ∃ m, after h cs = some m ∧ PriceTime m := by
  obtain ⟨m,ran,rep⟩ := run_represents h cs once fun no : False => no.elim
  have base := Book.orderly_preserved.above Book.resting_queued
  have inv := ((base.above Book.fair_preserved).above Book.journaled_preserved).run cs .start
    ⟨⟨⟨Book.orderly_start,fun t _ => queued_nil t _⟩,by simp [Book.start,Market.start]⟩,⟨rfl,rfl⟩⟩ once.admitted
  obtain ⟨⟨⟨orderly,prioritized⟩,fair⟩,journaled⟩ := inv
  have sides := prioritized
  rw [← Book.after,← rep.market] at sides fair journaled
  refine ⟨m,ran,?_,fair,journaled⟩
  intro t resting
  refine ⟨_,rep.snapshot t,sides t resting,?_⟩
  intro o member orderId sizeDelta newPrice isId unchanged
  obtain ⟨m',stepped,rep'⟩ := rep.step orderly (c := .replace orderId sizeDelta newPrice) trivial fun no => no.elim
  have inPlace := Book.Orderly.replace_inPlace orderly resting member sizeDelta.toInt unchanged
  rw [isId] at inPlace
  refine ⟨m',_,stepped,?_,rep'.snapshot t,inPlace.2 t⟩
  rw [rep'.market,rep.market]
  exact inPlace.1

/-- Two sells, the better one later, and a buy that takes both. -/
theorem price_time_priority_sweep : ∃ m : MatchingBook ⟨1,by decide,by decide⟩, after .empty
    [.add false 101 5 0 0 1,.add false 100 3 0 0 2,.add true 101 4 0 0 3] = some m ∧ PriceTime m :=
  price_time_priority .empty _ (by decide)

end MatchingBook

end BaboEngine
