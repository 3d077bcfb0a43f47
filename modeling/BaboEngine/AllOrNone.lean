import BaboEngine.Entries

/-!
# All-or-none orders

An all-or-none order trades in full or not at all, as a taker and as a maker.
-/

namespace BaboEngine

/-- A submission keeps to all-or-none: such an order is filled by its makers or leaves everything as it
    was, such a maker is filled by one trade, and what the makers have, if none of them is
    all-or-none, decides whether the order is filled. -/
structure WholeOrNothing (c : Submission) : Prop where
  taker : c.order.allOrNone → c.trades = [] ∧ c.makersLeft = c.makers ∧ c.marketPriceLeft = c.marketPrice ∨
    (c.trades.map Trade.qty).sum = c.order.openQty
  maker : ∀ t ∈ c.trades, t.maker.allOrNone → t.qty = t.maker.openQty
  feasible : c.order.allOrNone → (∀ m ∈ c.makers, crosses m c.order → m.allOrNone = false) →
    (c.remainder.openQty = 0 ↔ c.order.openQty ≤ Matching.crossing c.order c.makers)

namespace Book
variable {b : Book} {o : SimpleOrder} {hand : List SimpleOrder}

/-- The trades of a submission take what the allotment says. -/
theorem Orderly.traded (orderly : Orderly b (o :: hand)) :
    ((b.pass o).trades.map Trade.qty).sum = Matching.total (Matching.takes o (b.side o.opposite)) := by
  have quantities : (b.pass o).trades.map Trade.qty = ((b.pass o).trades.map fun t => (t.maker,t.qty)).map Prod.snd := by
    rw [List.map_map]
    rfl
  rw [quantities,orderly.pass_trades,Matching.total_eq]

theorem Orderly.wholeOrNothing (orderly : Orderly b (o :: hand)) : WholeOrNothing (b.call o) where
  taker aon := by
    cases orderly.aon_takes aon with
    | inl nothing =>
      left
      show (b.pass o).trades = [] ∧ (b.pass o).makers = b.side o.opposite ∧
        (b.market.tradeAll (b.pass o).trades).marketPrice = b.market.marketPrice
      rw [nothing]
      exact ⟨rfl,rfl,rfl⟩
    | inr all => exact .inr (orderly.traded.trans all)
  maker t member aon := (Matching.allot_taken _ _ (orderly.mem_trades member) rfl).2.2.1 aon
  feasible aon regular := by
    have most : Matching.total (Matching.allot o o.openQty (b.side o.opposite)) = min o.openQty (Matching.crossing o (b.side o.opposite)) :=
      Matching.total_allot _ _ orderly.bestFirst regular
    have remainder := (pass_inc (b := b) orderly.handSized).2.2
    show (b.pass o).inc.openQty = 0 ↔ o.openQty ≤ Matching.crossing o (b.side o.opposite)
    rw [remainder]
    unfold Matching.takes
    split_ifs with short
    · rw [Matching.total_untouched]
      have := short.2
      omega
    · have notShort : ¬ Matching.total (Matching.allot o o.openQty (b.side o.opposite)) < o.openQty := fun lt => short ⟨aon,lt⟩
      omega

/-- An all-or-none order that has not been filled has no fill. -/
theorem unfilled_preserved : Preserved Orderly Fresh (Everywhere fun o => o.allOrNone → o.filledQty = 0) where
  submit b o hand orderly all := by
    obtain ⟨first,rest⟩ := List.forall_mem_cons.mp all.2
    refine ⟨?_,rest⟩
    intro t x member aon
    rcases mem_submit orderly.handSized member with old | ⟨rfl,m,old,q,taken,rfl,opened⟩ | ⟨_,rfl,rests⟩
    · exact all.1 t x old aon
    · -- A trade would have filled it.
      rw [SimpleOrder.fill_allOrNone] at aon
      have allotted : (m,some q) ∈ Matching.allot o o.openQty (b.side o.opposite) := by
        rw [← Matching.takes_eq taken (by simp)]
        exact taken
      have whole := (Matching.allot_taken _ _ allotted rfl).2.2.1 aon
      have filled := (orderly.sized.1 _ m old).openQty_fill (c := Market.cost m q) (Nat.le_of_eq whole)
      have isWhole : q = m.openQty := whole
      omega
    · have same := (pass_inc (b := b) orderly.handSized).1
      have remainder := (pass_inc (b := b) orderly.handSized).2.2
      have opened : (b.pass o).inc.openQty > 0 := rests.2.2
      rw [same.allOrNone] at aon
      cases orderly.aon_takes aon with
      | inl nothing =>
        rw [nothing]
        exact first aon
      | inr whole => omega
  scan b _ all := by
    refine ⟨fun t x member => all.1 t x ((b.sublist_scanned t).subset member),?_⟩
    intro x member
    rcases mem_due member with m | m <;> exact all.1 _ x m
  released _ _ _ all := all
  emit _ _ _ _ _ all := all
  arrive b isBuy price qty stopPrice conditions orderId _ _ _ all := ⟨all.1,List.forall_mem_singleton.mpr fun _ => rfl⟩
  park b o _ _ _ all := by
    refine ⟨?_,by simp⟩
    intro t x member
    rcases mem_insertInto member with old | ⟨_,rfl⟩
    · exact all.1 t x old
    · exact all.2 x (by simp)
  erase b t o _ _ all := ⟨fun t' x member => all.1 t' x ((b.sublist_eraseFrom t t' o.orderId).subset member),by simp⟩
  resize b t o _ sizeDelta _ _ _ _ _ _ _ _ all := by
    refine ⟨?_,by simp⟩
    intro t' x member aon
    rcases mem_edit member with old | ⟨_,m,old,_,rfl⟩
    · exact all.1 t' x old aon
    · obtain ⟨_,_,_,_,conditions,filledQty,_⟩ := m.modify_fields sizeDelta.toInt priceUnchanged
      rw [SimpleOrder.allOrNone,conditions] at aon
      rw [filledQty]
      exact all.1 t m old aon
  reprice b t o _ sizeDelta newPrice _ member _ _ _ _ _ all := by
    refine ⟨fun t' x inSide => all.1 t' x ((b.sublist_eraseFrom t t' o.orderId).subset inSide),?_⟩
    obtain ⟨_,_,_,_,conditions,filledQty,_⟩ := o.modify_fields sizeDelta.toInt newPrice.toNat
    refine List.forall_mem_singleton.mpr fun aon => ?_
    rw [SimpleOrder.allOrNone,conditions] at aon
    rw [filledQty]
    exact all.1 t o member aon
  observe _ _ _ all := all

end Book

namespace MatchingBook
variable {N : Capacity}

/-- In every run each submission keeps to all-or-none, no resting all-or-none order has a fill, the listener is told
    of the trades of the submissions, and each command enters its submissions: of a live order, a reprice and released stops. -/
theorem all_or_none (h : Pools N) (cs : List Command) (once : NeverReused cs) : ∃ m, after h cs = some m ∧
    (∀ c ∈ m.market.submissions, WholeOrNothing c) ∧
    (∀ t, ∃ os, (m.on t).snapshot = some os ∧ ∀ o ∈ os, o.allOrNone → o.filledQty = 0) ∧ Book.Journaled m.market ∧
    ∀ before c later, cs = before ++ c :: later → ∃ b b' S, contentsAfter h before = some b ∧
      contentsAfter h (before ++ [c]) = some b' ∧ b.Submits c b' S := by
  obtain ⟨m,ran,rep⟩ := run_represents h cs once fun no : False => no.elim
  have whole : Book.Preserved Book.Orderly Book.Fresh fun b _ => ∀ before c later, b.market.submissions = before ++ c :: later →
      WholeOrNothing c := Book.submissions_preserved fun b o hand orderly => orderly.wholeOrNothing
  have inv := (Book.orderly_preserved.above ((whole.and Book.unfilled_preserved).and Book.journaled_preserved)).run cs .start
    ⟨Book.orderly_start,⟨by simp [Book.start,Market.start],by simp [Book.Everywhere,Book.start]⟩,⟨rfl,rfl⟩⟩ once.admitted
  obtain ⟨_,⟨submissions,unfilled⟩,journaled⟩ := inv
  rw [← Book.after,← rep.market] at submissions journaled
  refine ⟨m,ran,?_,fun t => ⟨_,rep.snapshot t,unfilled.1 t⟩,journaled,?_⟩
  · intro c member
    obtain ⟨before,later,split⟩ := List.append_of_mem member
    exact submissions before c later split
  · rintro before c later rfl
    have once' : NeverReused ((before ++ [c]) ++ later) := by simpa using once
    have fresh := (Simulation.admitted_append.mp once'.left.admitted).2.1
    obtain ⟨S,submits⟩ := (orderly_after once.left).submits fresh
    refine ⟨_,_,S,contentsAfter_eq h once.left,contentsAfter_eq h once'.left,?_⟩
    have goes : Book.after (before ++ [c]) = (Book.after before).step c := List.foldl_append
    rwa [goes]

/-- A resting all-or-none sell is passed over by a buy that is too small, and is filled by a fill-or-kill buy. -/
theorem all_or_none_fill_or_kill : ∃ m : MatchingBook ⟨1,by decide,by decide⟩, after .empty
      [.add false 100 5 0 ocAllOrNone 1,.add true 100 3 0 0 2,.add true 100 5 0 ocFillOrKill 3] = some m ∧
    (∀ c ∈ m.market.submissions, WholeOrNothing c) ∧
    (∀ t, ∃ os, (m.on t).snapshot = some os ∧ ∀ o ∈ os, o.allOrNone → o.filledQty = 0) ∧ Book.Journaled m.market ∧
    ∀ before c later, [.add false 100 5 0 ocAllOrNone 1,.add true 100 3 0 0 2,.add true 100 5 0 ocFillOrKill 3] = before ++ c :: later →
      ∃ b b' S, contentsAfter (N := ⟨1,by decide,by decide⟩) .empty before = some b ∧
        contentsAfter (N := ⟨1,by decide,by decide⟩) .empty (before ++ [c]) = some b' ∧ b.Submits c b' S :=
  all_or_none .empty _ (by decide)

end MatchingBook

end BaboEngine
