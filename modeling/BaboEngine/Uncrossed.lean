import BaboEngine.BookRefinement
import BaboEngine.Submissions

/-!
# Uncrossed books

An order rests after a matching pass that has left no maker it could trade with, unless
one of the two is all-or-none.
-/

namespace BaboEngine

/-- A command that adds an all-or-none order. -/
def Command.allOrNone : Command → Bool
  | .add isBuy price qty stopPrice conditions orderId => (SimpleOrder.new isBuy price qty stopPrice conditions orderId).allOrNone
  | _ => false

namespace Book
variable {b : Book} {o : SimpleOrder} {t : TreeName} {hand : List SimpleOrder}

/-- A bid and an ask whose prices cross are not both regular. -/
def Uncrossed (b : Book) : Prop :=
  ∀ bid ∈ b.side .bids, ∀ ask ∈ b.side .asks, bid.price ≥ ask.price → bid.allOrNone ∨ ask.allOrNone

/-- Fewer orders, or orders with the same terms. -/
theorem Uncrossed.of_terms {b' : Book} (uncrossed : Uncrossed b) (terms : ∀ t, t = .bids ∨ t = .asks → ∀ x ∈ b'.side t,
    ∃ m ∈ b.side t, x.price = m.price ∧ x.allOrNone = m.allOrNone) : Uncrossed b' := by
  intro bid inBids ask inAsks crossed
  obtain ⟨bid',oldBid,bidPrice,bidAon⟩ := terms .bids (.inl rfl) bid inBids
  obtain ⟨ask',oldAsk,askPrice,askAon⟩ := terms .asks (.inr rfl) ask inAsks
  rw [bidAon,askAon]
  rw [bidPrice,askPrice] at crossed
  exact uncrossed bid' oldBid ask' oldAsk crossed

theorem Uncrossed.sublist {b' : Book} (uncrossed : Uncrossed b) (sublist : ∀ t, (b'.side t).Sublist (b.side t)) : Uncrossed b' :=
  uncrossed.of_terms fun t _ x member => ⟨x,(sublist t).subset member,rfl,rfl⟩

/-- The remainder of an order does not cross a maker that its submission has left, both being regular. -/
theorem Orderly.remainder_apart (orderly : Orderly b (o :: hand)) {x : SimpleOrder} (rests : Rests o (b.pass o).inc)
    (left : x ∈ (b.submit o).side o.opposite) (crossed : crosses x o) : (b.pass o).inc.allOrNone ∨ x.allOrNone := by
  have same := (pass_inc (b := b) orderly.handSized).1
  rw [same.allOrNone]
  cases regular : o.allOrNone with
  | true => exact .inl rfl
  | false =>
    rw [submit_opposite orderly.handSized] at left
    exact .inr (orderly.left_aon regular rests.2.2 x left crossed).1

theorem uncrossed_preserved : Preserved Orderly Fresh fun b _ => Uncrossed b where
  submit b o hand orderly uncrossed := by
    have terms := (pass_inc (b := b) orderly.handSized).1
    intro bid inBids ask inAsks crossed
    rcases orderly.terms_submit inBids with ⟨bid',oldBid,sameBid⟩ | ⟨isSide,rfl,rests⟩
    · rcases orderly.terms_submit inAsks with ⟨ask',oldAsk,sameAsk⟩ | ⟨isSide,rfl,rests⟩
      · rw [sameBid.price,sameAsk.price] at crossed
        rw [sameBid.allOrNone,sameAsk.allOrNone]
        exact uncrossed bid' oldBid ask' oldAsk crossed
      · have sells : o.isBuy = false := by
          cases isBuy : o.isBuy with
          | false => rfl
          | true => simp [SimpleOrder.side,isBuy] at isSide
        have isOpposite : o.opposite = .bids := by simp [SimpleOrder.opposite,sells]
        rw [← isOpposite] at inBids
        refine (orderly.remainder_apart rests inBids ?_).symm
        rw [terms.price] at crossed
        simpa [crosses,sells,rests.1] using crossed
    · have buys : o.isBuy = true := by
        cases isBuy : o.isBuy with
        | true => rfl
        | false => simp [SimpleOrder.side,isBuy] at isSide
      have isOpposite : o.opposite = .asks := by simp [SimpleOrder.opposite,buys]
      rw [← isOpposite] at inAsks
      apply orderly.remainder_apart rests inAsks
      rw [terms.price] at crossed
      simpa [crosses,buys,rests.1] using crossed
  scan b _ uncrossed := uncrossed.sublist b.sublist_scanned
  released _ _ _ uncrossed := uncrossed
  emit _ _ _ _ _ uncrossed := uncrossed
  arrive _ _ _ _ _ _ _ _ _ _ uncrossed := uncrossed
  park b o _ _ _ uncrossed := by
    refine uncrossed.of_terms fun t resting x member => ?_
    have other : t ≠ o.stopSide := by
      unfold SimpleOrder.stopSide
      rcases resting with rfl | rfl <;> cases o.isBuy <;> decide
    rcases mem_insertInto member with old | ⟨same,_⟩
    · exact ⟨x,old,rfl,rfl⟩
    · exact absurd same other
  erase b t o _ _ uncrossed := uncrossed.sublist (b.sublist_eraseFrom t · o.orderId)
  resize b t o _ sizeDelta _ _ _ _ _ _ _ _ uncrossed := by
    refine uncrossed.of_terms fun t' _ x member => ?_
    rcases mem_edit member with old | ⟨rfl,m,old,_,rfl⟩
    · exact ⟨x,old,rfl,rfl⟩
    · obtain ⟨_,_,_,_,conditions,_,_,_,price⟩ := m.modify_fields sizeDelta.toInt priceUnchanged
      exact ⟨m,old,price,by simp [SimpleOrder.allOrNone,conditions]⟩
  reprice b t o _ _ _ _ _ _ _ _ _ _ uncrossed := uncrossed.sublist (b.sublist_eraseFrom t · o.orderId)
  observe _ _ _ uncrossed := uncrossed

/-- Without all-or-none orders among the commands there are none in the book. -/
theorem regular_preserved : Preserved Orderly (fun _ c => c.allOrNone = false) (Everywhere fun o => o.allOrNone = false) :=
  everywhere_preserved (fun _ _ same regular => same.allOrNone.trans regular)
    (fun o sizeDelta newPrice regular => by
      obtain ⟨_,_,_,_,conditions,_⟩ := o.modify_fields sizeDelta newPrice
      simpa [SimpleOrder.allOrNone,conditions] using regular)
    (fun _ _ _ _ _ _ _ regular => regular)

end Book

namespace MatchingBook
variable {N : Capacity}

/-- No run leaves a crossed book, but for all-or-none orders; without them every bid is
    strictly below every ask. -/
theorem never_crossed (h : Pools N) (cs : List Command) (once : NeverReused cs) : ∃ m bids asks, after h cs = some m ∧
    (m.on .bids).snapshot = some bids ∧ (m.on .asks).snapshot = some asks ∧
    (∀ bid ∈ bids, ∀ ask ∈ asks, bid.price ≥ ask.price → bid.allOrNone ∨ ask.allOrNone) ∧
    ((∀ c ∈ cs, c.allOrNone = false) → ∀ bid ∈ bids, ∀ ask ∈ asks, bid.price < ask.price) := by
  obtain ⟨m,ran,rep⟩ := run_represents h cs once fun no : False => no.elim
  have uncrossed := (Book.orderly_preserved.above Book.uncrossed_preserved).run cs .start
    ⟨Book.orderly_start,by simp [Book.Uncrossed,Book.start]⟩ once.admitted
  refine ⟨m,_,_,ran,rep.snapshot _,rep.snapshot _,uncrossed.2,?_⟩
  intro regular bid inBids ask inAsks
  have kept : Book.Preserved Book.Anything (fun b c => b.Fresh c ∧ c.allOrNone = false) Book.Orderly :=
    Book.orderly_preserved.restrict fun _ _ both => both.1
  have all := (kept.above (Book.regular_preserved.restrict fun _ _ both => both.2)).run cs .start
    ⟨Book.orderly_start,by simp [Book.Everywhere,Book.start]⟩ (once.admitted.and (Simulation.admitted_all regular Book.start))
  by_contra crossed
  cases uncrossed.2 bid inBids ask inAsks (Nat.le_of_not_lt crossed) with
  | inl aon => exact absurd (aon.symm.trans (all.2.1 .bids bid inBids)) (by decide)
  | inr aon => exact absurd (aon.symm.trans (all.2.1 .asks ask inAsks)) (by decide)

/-- A bid, an ask above it, and a stop that rests when a trade releases it. -/
theorem never_crossed_stop : ∃ (m : MatchingBook ⟨1,by decide,by decide⟩) (bids asks : List SimpleOrder), after .empty
      [.add true 100 5 0 0 1,.add false 102 5 0 0 2,.add true 101 5 102 0 3,.add true 102 1 0 0 4] = some m ∧
    (m.on .bids).snapshot = some bids ∧ (m.on .asks).snapshot = some asks ∧
    (∀ bid ∈ bids, ∀ ask ∈ asks, bid.price ≥ ask.price → bid.allOrNone ∨ ask.allOrNone) ∧
    ((∀ c ∈ [Command.add true 100 5 0 0 1,.add false 102 5 0 0 2,.add true 101 5 102 0 3,.add true 102 1 0 0 4],
      c.allOrNone = false) → ∀ bid ∈ bids, ∀ ask ∈ asks, bid.price < ask.price) :=
  never_crossed .empty _ (by decide)

end MatchingBook

end BaboEngine
