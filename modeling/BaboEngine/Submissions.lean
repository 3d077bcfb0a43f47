import BaboEngine.Orderly

/-!
# Submissions

What every call of `submit` does, whatever the book and the order: what the journal
says of it, and which makers it leaves.
-/

namespace BaboEngine

/-- The ids of the submitted orders. -/
def submitted (S : List Submission) : List Nat := S.map (·.order.orderId)

namespace Book
variable {b : Book} {o o' m : SimpleOrder} {t : TreeName} {os hand : List SimpleOrder} {cs : List Command}

/-! ## The makers of a submission -/

/-- On a sorted side the makers that cross come first. -/
theorem bestFirst (sorted : SortedSide o.opposite os) : Matching.BestFirst o os := by
  apply sorted.imp
  intro m m' notAhead crossed
  unfold crosses at *
  by_cases market : o.price = marketOrderPrice
  · simp [market]
  · cases isBuy : o.isBuy with
    | true =>
      have notBetter : ¬ m'.price < m.price := by
        simpa [Ahead,SimpleOrder.opposite,isBuy,TreeName.type,TreeName.key,OrderType.better] using notAhead
      simp only [market,isBuy,↓reduceIte,decide_eq_true_eq] at crossed ⊢
      omega
    | false =>
      have notBetter : ¬ m'.price > m.price := by
        simpa [Ahead,SimpleOrder.opposite,isBuy,TreeName.type,TreeName.key,OrderType.better] using notAhead
      simp only [market,isBuy,↓reduceIte,decide_eq_true_eq,Bool.false_eq_true] at crossed ⊢
      omega

theorem Orderly.bestFirst (orderly : Orderly b (o :: hand)) : Matching.BestFirst o (b.side o.opposite) :=
  Book.bestFirst (orderly.sorted _)

theorem Orderly.pass_eq (orderly : Orderly b (o :: hand)) : b.pass o = .commit o (Matching.takes o (b.side o.opposite)) :=
  Book.pass_eq orderly.handSized

/-- A regular order is left open only when no maker that crosses could trade with it. -/
theorem Orderly.left_aon (orderly : Orderly b (o :: hand)) (regular : o.allOrNone = false) (left : 0 < (b.pass o).inc.openQty) :
    ∀ m ∈ (b.pass o).makers, crosses m o → m.allOrNone ∧ (b.pass o).inc.openQty < m.openQty := by
  intro m member crossed
  have remainder := (pass_inc (b := b) orderly.handSized).2.2
  have takesIs : Matching.takes o (b.side o.opposite) = Matching.allot o o.openQty (b.side o.opposite) := by
    simp [Matching.takes,regular]
  rw [takesIs] at remainder
  rw [orderly.pass_eq,takesIs,Matching.commit_makers,List.mem_flatMap] at member
  obtain ⟨x,inTakes,isLeft⟩ := member
  have inMakers : x.1 ∈ b.side o.opposite := by
    rw [← Matching.allot_makers o (b.side o.opposite) o.openQty]
    exact List.mem_map_of_mem inTakes
  rcases Matching.mem_left isLeft with rfl | ⟨q,taken,rfl,opened⟩
  · rcases Matching.allot_left _ _ orderly.bestFirst (by omega) x inTakes crossed with all | ⟨_,aon,larger⟩
    · obtain ⟨maker,quantity⟩ := x
      simp only at all
      subst all
      rw [Matching.left_some,Matching.kept] at isLeft
      split_ifs at isLeft with filled
      · simp at isLeft
      · have open' := (orderly.sized.1 _ maker inMakers).openQty_fill (c := Market.cost maker maker.openQty) (Nat.le_refl _)
        omega
    · exact ⟨aon,by rw [remainder]; exact larger⟩
  · rw [(x.1.sameTerms_fill q _).crosses_maker] at crossed
    rcases Matching.allot_left _ _ orderly.bestFirst (by omega) x inTakes crossed with all | ⟨none,_,_⟩
    · obtain rfl : q = x.1.openQty := Option.some.inj (taken.symm.trans all)
      have open' := (orderly.sized.1 _ x.1 inMakers).openQty_fill (c := Market.cost x.1 x.1.openQty) (Nat.le_refl _)
      omega
    · rw [taken] at none
      simp at none

/-- An all-or-none order takes nothing or all that it needs. -/
theorem Orderly.aon_takes (orderly : Orderly b (o :: hand)) (aon : o.allOrNone) : b.pass o = ⟨o,b.side o.opposite,[]⟩ ∨
    Matching.total (Matching.takes o (b.side o.opposite)) = o.openQty := by
  rw [orderly.pass_eq]
  unfold Matching.takes
  split_ifs with short
  · exact .inl (Matching.commit_untouched ..)
  · have most := Matching.total_allot_le o (b.side o.opposite) o.openQty
    right
    have notShort : ¬ Matching.total (Matching.allot o o.openQty (b.side o.opposite)) < o.openQty := fun lt => short ⟨aon,lt⟩
    omega

/-- The trades of a submission, maker by maker. -/
theorem Orderly.pass_trades (orderly : Orderly b (o :: hand)) : (b.pass o).trades.map (fun t => (t.maker,t.qty)) =
    (Matching.takes o (b.side o.opposite)).filterMap Matching.taken := by
  rw [orderly.pass_eq]
  exact Matching.commit_trades _ o

/-- The trades of a submission as pairs of a maker and a quantity. -/
theorem Orderly.mem_trades (orderly : Orderly b (o :: hand)) {t : Trade} (member : t ∈ (b.pass o).trades) :
    (t.maker,some t.qty) ∈ Matching.allot o o.openQty (b.side o.opposite) := by
  have inPairs : (t.maker,t.qty) ∈ (b.pass o).trades.map fun t => (t.maker,t.qty) := List.mem_map.mpr ⟨t,member,rfl⟩
  rw [orderly.pass_trades,Matching.mem_taken] at inPairs
  rw [← Matching.takes_eq inPairs (by simp)]
  exact inPairs

theorem Orderly.trades_eq (orderly : Orderly b (o :: hand)) {t : Trade} (member : t ∈ (b.pass o).trades) :
    (b.pass o).trades.map (fun t => (t.maker,t.qty)) =
      (Matching.allot o o.openQty (b.side o.opposite)).filterMap Matching.taken := by
  have inPairs : (t.maker,t.qty) ∈ (b.pass o).trades.map fun t => (t.maker,t.qty) := List.mem_map.mpr ⟨t,member,rfl⟩
  rw [orderly.pass_trades,Matching.mem_taken] at inPairs
  rw [orderly.pass_trades,Matching.takes_eq inPairs (by simp)]

/-! ## The terms of orders -/

/-- An order after a submission goes back to one before it, or is the order itself. -/
theorem Orderly.terms_submit (orderly : Orderly b (o :: hand)) {x : SimpleOrder} (member : x ∈ (b.submit o).side t) :
    (∃ m ∈ b.side t, m.SameTerms x) ∨ t = o.side ∧ x = (b.pass o).inc ∧ Rests o x := by
  rcases mem_submit orderly.handSized member with old | ⟨_,m,old,q,_,rfl,_⟩ | rested
  · exact .inl ⟨x,old,.refl x⟩
  · exact .inl ⟨m,old,m.sameTerms_fill _ _⟩
  · exact .inr rested

/-- Every order of the book and in hand. -/
def Everywhere (P : SimpleOrder → Prop) (b : Book) (hand : List SimpleOrder) : Prop :=
  (∀ t, ∀ o ∈ b.side t, P o) ∧ ∀ o ∈ hand, P o

/-- What fills and replaces keep, and every order has that comes in, holds everywhere. -/
theorem everywhere_preserved {P : SimpleOrder → Prop} {ok : Book → Command → Prop} (filled : ∀ o o', o.SameTerms o' → P o → P o')
    (modified : ∀ o sizeDelta newPrice, P o → P (o.modify sizeDelta newPrice))
    (added : ∀ b isBuy price qty stopPrice conditions orderId, ok b (.add isBuy price qty stopPrice conditions orderId) →
      P (.new isBuy price qty stopPrice conditions orderId)) : Preserved Orderly ok (Everywhere P) where
  submit b o hand orderly all := by
    obtain ⟨first,rest⟩ := List.forall_mem_cons.mp all.2
    refine ⟨?_,rest⟩
    intro t x member
    rcases orderly.terms_submit member with ⟨m,old,same⟩ | ⟨_,rfl,_⟩
    · exact filled m x same (all.1 t m old)
    · exact filled o _ (pass_inc orderly.handSized).1 first
  scan b _ all := by
    refine ⟨fun t x member => all.1 t x ((b.sublist_scanned t).subset member),?_⟩
    intro x member
    rcases mem_due member with m | m <;> exact all.1 _ x m
  released _ _ _ all := all
  emit _ _ _ _ _ all := all
  arrive b isBuy price qty stopPrice conditions orderId admitted _ _ all :=
    ⟨all.1,List.forall_mem_singleton.mpr (added b isBuy price qty stopPrice conditions orderId admitted)⟩
  park b o _ _ _ all := by
    refine ⟨?_,by simp⟩
    intro t x member
    rcases mem_insertInto member with old | ⟨_,rfl⟩
    · exact all.1 t x old
    · exact all.2 x (by simp)
  erase b t o _ _ all := ⟨fun t' x member => all.1 t' x ((b.sublist_eraseFrom t t' o.orderId).subset member),by simp⟩
  resize b t o _ sizeDelta _ _ _ _ _ _ _ _ all := by
    refine ⟨?_,by simp⟩
    intro t' x member
    rcases mem_edit member with old | ⟨_,m,old,_,rfl⟩
    · exact all.1 t' x old
    · exact modified m _ _ (all.1 t m old)
  reprice b t o _ sizeDelta newPrice _ member _ _ _ _ _ all :=
    ⟨fun t' x inSide => all.1 t' x ((b.sublist_eraseFrom t t' o.orderId).subset inSide),
      List.forall_mem_singleton.mpr (modified o _ _ (all.1 t o member))⟩
  observe _ _ _ all := all

/-! ## The journal -/

theorem call_order (b : Book) (o : SimpleOrder) : (b.call o).order = o := rfl

theorem submissions_submit (b : Book) (o : SimpleOrder) : (b.submit o).market.submissions = b.market.submissions ++ [b.call o] := by
  rw [submit_market]
  exact congrArg (· ++ [b.call o]) (Market.submissions_tradeAll ..)

theorem trades_submit (b : Book) (o : SimpleOrder) : (b.submit o).market.trades = b.market.trades ++ (b.pass o).trades := by
  rw [submit_market]
  exact Market.trades_tradeAll ..

theorem events_submit (b : Book) (o : SimpleOrder) :
    (b.submit o).market.events = b.market.events ++ (b.pass o).trades.map Trade.event := by
  rw [submit_market]
  exact Market.events_tradeAll ..

/-- What holds of each submission, when it is made, holds of all in the journal. -/
theorem submissions_preserved {S : List Submission → Submission → Prop} {Base : Book → List SimpleOrder → Prop} {ok : Book → Command → Prop}
    (each : ∀ b o hand, Base b (o :: hand) → S b.market.submissions (b.call o)) :
    Preserved Base ok fun b _ => ∀ before c later, b.market.submissions = before ++ c :: later → S before c where
  submit b o hand base all before c later split := by
    rw [submissions_submit] at split
    rcases List.eq_nil_or_concat later with rfl | ⟨later,last,rfl⟩
    · obtain ⟨rfl,same⟩ := List.append_inj' split rfl
      obtain rfl := List.singleton_inj.mp same
      exact each b o hand base
    · rw [List.concat_eq_append,← List.cons_append,← List.append_assoc] at split
      exact all before c later (List.append_inj_left' split rfl)
  scan _ _ all := all
  released _ _ _ all := all
  emit _ _ _ _ _ all := all
  arrive _ _ _ _ _ _ _ _ _ _ all := all
  park _ _ _ _ _ all := all
  erase _ _ _ _ _ all := all
  resize _ _ _ _ _ _ _ _ _ _ _ _ _ all := all
  reprice _ _ _ _ _ _ _ _ _ _ _ _ _ all := all
  observe _ _ _ all := all

/-- The trades are those of the submissions, and the fills that the listener is told of are those of the trades. -/
structure Journaled (k : Market) : Prop where
  trades : k.trades = k.submissions.flatMap Submission.trades
  fills : k.events.filter OrderEvent.isFill = k.trades.map Trade.event

theorem journaled_preserved {Base : Book → List SimpleOrder → Prop} {ok : Book → Command → Prop} :
    Preserved Base ok fun b _ => Journaled b.market where
  submit b o _ _ journaled := by
    constructor
    · rw [trades_submit,submissions_submit,List.flatMap_append,journaled.trades]
      simp [call]
    · have all : ((b.pass o).trades.map Trade.event).filter OrderEvent.isFill = (b.pass o).trades.map Trade.event := by
        apply List.filter_eq_self.mpr
        intro e member
        obtain ⟨t,_,rfl⟩ := List.mem_map.mp member
        rfl
      rw [events_submit,trades_submit,List.filter_append,journaled.fills,all,List.map_append]
  scan _ _ journaled := journaled
  released _ _ _ journaled := ⟨journaled.trades,journaled.fills⟩
  emit b _ e notFill _ journaled := by
    refine ⟨journaled.trades,?_⟩
    show (b.market.events ++ [e]).filter OrderEvent.isFill = _
    rw [List.filter_append,List.filter_cons_of_neg (by simpa using notFill),List.filter_nil,List.append_nil]
    exact journaled.fills
  arrive b _ _ _ _ _ orderId _ _ _ journaled := by
    refine ⟨journaled.trades,?_⟩
    show (b.market.events ++ [OrderEvent.onAccept orderId.toNat]).filter OrderEvent.isFill = _
    rw [List.filter_append]
    exact (List.append_nil _).trans journaled.fills
  park _ _ _ _ _ journaled := ⟨journaled.trades,journaled.fills⟩
  erase _ _ _ _ _ journaled := journaled
  resize _ _ _ _ _ _ _ _ _ _ _ _ _ journaled := journaled
  reprice _ _ _ _ _ _ _ _ _ _ _ _ _ journaled := journaled
  observe _ _ _ journaled := ⟨journaled.trades,journaled.fills⟩

end Book

end BaboEngine
