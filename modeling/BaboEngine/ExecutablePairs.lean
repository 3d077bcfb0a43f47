import BaboEngine.AllOrNone

/-!
# Executable pairs

A regular and an all-or-none order may rest across each other as long as the regular one is the
smaller. Matching, new prices and removals keep it so. An edit in place does not match again,
and is the only way in which such a pair becomes executable.
-/

namespace BaboEngine
open Simulation

/-- A resting regular order and a resting all-or-none order that it crosses and could fill on its own. -/
def Executable (sides : TreeName → List SimpleOrder) (r a : Nat) : Prop :=
  ∃ x y, (x ∈ sides .bids ∧ y ∈ sides .asks ∧ y.price ≤ x.price ∨ x ∈ sides .asks ∧ y ∈ sides .bids ∧ x.price ≤ y.price) ∧
    x.orderId = r ∧ y.orderId = a ∧ x.allOrNone = false ∧ y.allOrNone = true ∧ y.openQty ≤ x.openQty

namespace Book
variable {b b' : Book} {o x y : SimpleOrder} {t : TreeName} {hand : List SimpleOrder} {r a : Nat}

/-- The pair was there if its orders go back to orders with the same terms, of which the regular one was no smaller and
    the all-or-none one no larger. -/
theorem executable_of (same : ∀ t, t = .bids ∨ t = .asks → ∀ x ∈ b'.side t, x.orderId = r ∨ x.orderId = a → ∃ m ∈ b.side t,
    m.SameTerms x ∧ x.openQty ≤ m.openQty ∧ (x.allOrNone = true → m.openQty = x.openQty)) (pair : Executable b'.side r a) :
    Executable b.side r a := by
  obtain ⟨x,y,crossed,isR,isA,regular,aon,larger⟩ := pair
  have back : ∀ t t' : TreeName, (t = .bids ∨ t = .asks) → (t' = .bids ∨ t' = .asks) → x ∈ b'.side t → y ∈ b'.side t' →
      ∃ x' ∈ b.side t, ∃ y' ∈ b.side t', x'.price = x.price ∧ y'.price = y.price ∧ x'.orderId = r ∧ y'.orderId = a ∧
        x'.allOrNone = false ∧ y'.allOrNone = true ∧ y'.openQty ≤ x'.openQty := by
    intro t t' first second inSide inSide'
    obtain ⟨x',old,terms,most,_⟩ := same t first x inSide (.inl isR)
    obtain ⟨y',old',terms',_,equal⟩ := same t' second y inSide' (.inr isA)
    refine ⟨x',old,y',old',terms.price.symm,terms'.price.symm,?_,?_,?_,?_,?_⟩
    · rw [← isR,terms.orderId]
    · rw [← isA,terms'.orderId]
    · rw [← regular,terms.allOrNone]
    · rw [← aon,terms'.allOrNone]
    · have := equal aon
      omega
  rcases crossed with ⟨inBids,inAsks,prices⟩ | ⟨inAsks,inBids,prices⟩
  · obtain ⟨x',old,y',old',priceX,priceY,rest⟩ := back .bids .asks (.inl rfl) (.inr rfl) inBids inAsks
    exact ⟨x',y',.inl ⟨old,old',by omega⟩,rest⟩
  · obtain ⟨x',old,y',old',priceX,priceY,rest⟩ := back .asks .bids (.inr rfl) (.inl rfl) inAsks inBids
    exact ⟨x',y',.inr ⟨old,old',by omega⟩,rest⟩

theorem executable_sublist (sublist : ∀ t, (b'.side t).Sublist (b.side t)) (pair : Executable b'.side r a) : Executable b.side r a :=
  executable_of (fun t _ x member _ => ⟨x,(sublist t).subset member,.refl x,Nat.le_refl _,fun _ => rfl⟩) pair

/-- An order on the other side of a submission's order is what was there, and an all-or-none one is unchanged. -/
theorem Orderly.maker_back (orderly : Orderly b (o :: hand)) (member : x ∈ (b.submit o).side t) (other : t ≠ o.side) :
    ∃ m ∈ b.side t, m.SameTerms x ∧ x.openQty ≤ m.openQty ∧ (x.allOrNone = true → m.openQty = x.openQty) := by
  rcases mem_submit orderly.handSized member with old | ⟨_,m,old,q,inTakes,rfl,opened⟩ | ⟨isSide,_⟩
  · exact ⟨x,old,.refl x,Nat.le_refl _,fun _ => rfl⟩
  · have taken : (m,some q) ∈ Matching.allot o o.openQty (b.side t) := by rwa [Matching.takes_eq inTakes (by simp)] at inTakes
    obtain ⟨_,enough,whole,_⟩ := Matching.allot_taken _ _ taken rfl
    have left := (orderly.sized.1 t m old).openQty_fill (c := Market.cost m q) enough
    refine ⟨m,old,m.sameTerms_fill _ _,by omega,?_⟩
    intro aon
    rw [SimpleOrder.fill_allOrNone] at aon
    obtain rfl : q = m.openQty := whole aon
    omega
  · exact absurd isSide other

/-- A regular order does not rest where an all-or-none order crosses it that it could fill. -/
theorem Orderly.regular_rests (orderly : Orderly b (o :: hand)) (rests : Rests o (b.pass o).inc)
    (regular : (b.pass o).inc.allOrNone = false)
    (left : y ∈ (b.submit o).side o.opposite) (crossed : crosses y o) : (b.pass o).inc.openQty < y.openQty := by
  have same := (pass_inc (b := b) orderly.handSized).1
  rw [submit_opposite orderly.handSized] at left
  exact (orderly.left_aon (same.allOrNone.symm.trans regular) rests.2.2 y left crossed).2

/-- Nor does an all-or-none order where a regular order crosses it that could fill it. -/
theorem Orderly.aon_rests (orderly : Orderly b (o :: hand)) (rests : Rests o (b.pass o).inc) (aon : (b.pass o).inc.allOrNone = true)
    (left : x ∈ (b.submit o).side o.opposite) (regular : x.allOrNone = false) (crossed : crosses x o) :
    x.openQty < (b.pass o).inc.openQty := by
  have same := (pass_inc (b := b) orderly.handSized).1
  have remainder := (pass_inc (b := b) orderly.handSized).2.2
  have isAon : o.allOrNone := same.allOrNone.symm.trans aon
  have opened := rests.2.2
  rw [submit_opposite orderly.handSized] at left
  have short : Matching.total (Matching.allot o o.openQty (b.side o.opposite)) < o.openQty := by
    by_contra enough
    have takesIs : Matching.takes o (b.side o.opposite) = Matching.allot o o.openQty (b.side o.opposite) := by
      rw [Matching.takes,if_neg fun both => enough both.2]
    rw [takesIs] at remainder
    omega
  have nothing : b.pass o = ⟨o,b.side o.opposite,[]⟩ := by
    rw [orderly.pass_eq,Matching.takes,if_pos ⟨isAon,short⟩,Matching.commit_untouched]
  rw [nothing] at left ⊢
  obtain ⟨m,inAllot,isMaker⟩ : ∃ m ∈ Matching.allot o o.openQty (b.side o.opposite), m.1 = x := by
    rw [← Matching.allot_makers o (b.side o.opposite) o.openQty] at left
    exact List.mem_map.mp left
  subst isMaker
  rcases Matching.allot_left _ _ orderly.bestFirst short m inAllot crossed with all | ⟨_,notRegular,_⟩
  · have most := Matching.le_total inAllot all
    show m.1.openQty < o.openQty
    omega
  · rw [regular] at notRegular
    simp at notRegular

theorem Orderly.remainder_eq (orderly : Orderly b (o :: hand)) (member : x ∈ (b.submit o).side t) (isId : x.orderId = o.orderId) :
    t = o.side ∧ x = (b.pass o).inc ∧ Rests o x := by
  rcases mem_submit orderly.handSized member with old | ⟨_,m,old,q,_,rfl,_⟩ | rested
  · exact absurd isId (orderly.absent x old)
  · rw [SimpleOrder.fill_orderId] at isId
    exact absurd isId (orderly.absent m old)
  · exact rested

theorem crosses_bid {m : SimpleOrder} (isSide : .bids = o.side) (price : m.price ≤ o.price) : o.opposite = .asks ∧ crosses m o := by
  cases isBuy : o.isBuy with
  | false => simp [SimpleOrder.side,isBuy] at isSide
  | true => simp [SimpleOrder.opposite,crosses,isBuy,price]

theorem crosses_ask {m : SimpleOrder} (isSide : .asks = o.side) (price : o.price ≤ m.price) : o.opposite = .bids ∧ crosses m o := by
  cases isBuy : o.isBuy with
  | true => simp [SimpleOrder.side,isBuy] at isSide
  | false => simp [SimpleOrder.opposite,crosses,isBuy,price]

/-- A submission leaves no executable pair that was not there. -/
theorem Orderly.executable_submit (orderly : Orderly b (o :: hand)) (pair : Executable (b.submit o).side r a) : Executable b.side r a := by
  have terms := (pass_inc (b := b) orderly.handSized).1
  by_cases isR : r = o.orderId
  · obtain ⟨x,y,crossed,idX,_,regular,_,larger⟩ := pair
    rcases crossed with ⟨inBids,inAsks,prices⟩ | ⟨inAsks,inBids,prices⟩
    · obtain ⟨isSide,rfl,rests⟩ := orderly.remainder_eq inBids (idX.trans isR)
      obtain ⟨isOpposite,crosses⟩ := crosses_bid isSide (terms.price ▸ prices)
      rw [← isOpposite] at inAsks
      have := orderly.regular_rests rests regular inAsks crosses
      omega
    · obtain ⟨isSide,rfl,rests⟩ := orderly.remainder_eq inAsks (idX.trans isR)
      obtain ⟨isOpposite,crosses⟩ := crosses_ask isSide (terms.price ▸ prices)
      rw [← isOpposite] at inBids
      have := orderly.regular_rests rests regular inBids crosses
      omega
  · by_cases isA : a = o.orderId
    · obtain ⟨x,y,crossed,_,idY,regular,aon,larger⟩ := pair
      rcases crossed with ⟨inBids,inAsks,prices⟩ | ⟨inAsks,inBids,prices⟩
      · obtain ⟨isSide,rfl,rests⟩ := orderly.remainder_eq inAsks (idY.trans isA)
        obtain ⟨isOpposite,crosses⟩ := crosses_ask isSide (terms.price ▸ prices)
        rw [← isOpposite] at inBids
        have := orderly.aon_rests rests aon inBids regular crosses
        omega
      · obtain ⟨isSide,rfl,rests⟩ := orderly.remainder_eq inBids (idY.trans isA)
        obtain ⟨isOpposite,crosses⟩ := crosses_bid isSide (terms.price ▸ prices)
        rw [← isOpposite] at inAsks
        have := orderly.aon_rests rests aon inAsks regular crosses
        omega
    -- neither of the two is the order that was submitted
    · refine executable_of (fun t _ x member named => ?_) pair
      by_cases isSide : t = o.side
      · rcases mem_submit orderly.handSized member with old | ⟨isOpposite,_⟩ | ⟨_,rfl,_⟩
        · exact ⟨x,old,.refl x,Nat.le_refl _,fun _ => rfl⟩
        · exact absurd (isSide.symm.trans isOpposite) o.side_ne_opposite
        · rw [terms.orderId] at named
          exact (named.elim (fun same => isR same.symm) fun same => isA same.symm).elim
      · exact orderly.maker_back member isSide

/-- An edit in place of one of two orders. -/
def EditsInPlace (b : Book) (r a : Nat) : Command → Prop
  | .replace orderId _ newPrice => ∃ o ∈ b.side .bids ++ b.side .asks, o.orderId = orderId.toNat ∧ ¬ Reprices o newPrice.toNat ∧
      (o.orderId = r ∨ o.orderId = a)
  | _ => False

/-- Only an edit in place of one of the two makes a pair executable. -/
theorem executable_preserved (r a : Nat) : Preserved Orderly (fun b c => b.Fresh c ∧ ¬ b.EditsInPlace r a c)
    fun b _ => ¬ Executable b.side r a where
  submit _ _ _ orderly apart pair := apart (orderly.executable_submit pair)
  scan b _ apart pair := apart (executable_sublist b.sublist_scanned pair)
  released _ _ _ apart := apart
  emit _ _ _ _ _ apart := apart
  arrive _ _ _ _ _ _ _ _ _ _ apart := apart
  park b o _ _ _ apart pair := by
    refine apart (executable_of (fun t resting x member _ => ?_) pair)
    have other : t ≠ o.stopSide := by
      unfold SimpleOrder.stopSide
      rcases resting with rfl | rfl <;> cases o.isBuy <;> decide
    rcases mem_insertInto member with old | ⟨same,_⟩
    · exact ⟨x,old,.refl x,Nat.le_refl _,fun _ => rfl⟩
    · exact absurd same other
  erase b t o _ _ apart pair := apart (executable_sublist (b.sublist_eraseFrom t · o.orderId) pair)
  resize b t o orderId sizeDelta newPrice resting member isId admitted unmoved _ orderly apart pair := by
    have others : o.orderId ≠ r ∧ o.orderId ≠ a := by
      rw [← not_or]
      intro named
      refine admitted.2 ⟨o,?_,isId,unmoved,named⟩
      rcases resting with rfl | rfl <;> simp [member]
    refine apart (executable_of (fun t' _ x inSide named => ?_) pair)
    rcases mem_edit inSide with old | ⟨rfl,m,old,isO,rfl⟩
    · exact ⟨x,old,.refl x,Nat.le_refl _,fun _ => rfl⟩
    · rw [(m.modify_fields ..).1,isO] at named
      exact (named.elim others.1 others.2).elim
  reprice b t o _ _ _ _ _ _ _ _ _ _ apart pair := apart (executable_sublist (b.sublist_eraseFrom t · o.orderId) pair)
  observe _ _ _ apart := apart

end Book

namespace MatchingBook
variable {N : Capacity} {m : MatchingBook N} {b : Book} {c : Command} {cs : List Command} {h : Pools N}

/-- The same of a matching book. -/
def Stands (m : MatchingBook N) (r a : Nat) : Prop := ∃ sides, (∀ t, (m.on t).snapshot = some (sides t)) ∧ Executable sides r a

theorem stands_iff {exact : Prop} (rep : Represents exact m b) (r a : Nat) : m.Stands r a ↔ Executable b.side r a := by
  constructor
  · rintro ⟨sides,are,pair⟩
    have same : sides = b.side := funext fun t => Option.some.inj ((are t).symm.trans (rep.snapshot t))
    rwa [same] at pair
  · exact fun pair => ⟨b.side,rep.snapshot,pair⟩

/-- A pair becomes executable by an edit in place of one of its orders: it was not before, it is since, and the command
    leaves the price of the order. -/
def MadeInPlace (h : Pools N) (cs : List Command) (r a : Nat) : Prop :=
  ∃ before orderId sizeDelta newPrice later m t os o, cs = before ++ .replace orderId sizeDelta newPrice :: later ∧
    after h before = some m ∧ ¬ m.Stands r a ∧ (t = .bids ∨ t = .asks) ∧ (m.on t).snapshot = some os ∧ o ∈ os ∧
    o.orderId = orderId.toNat ∧ ¬ Book.Reprices o newPrice.toNat ∧ (o.orderId = r ∨ o.orderId = a) ∧
    ∀ since rest, later = since ++ rest → ∃ m', after h (before ++ .replace orderId sizeDelta newPrice :: since) = some m' ∧ m'.Stands r a

/-- In every state a regular order is smaller than an all-or-none order that it crosses, unless one of the two has been
    edited in place such that it is not, and both have stood so since. -/
theorem no_executable_pair (h : Pools N) (cs : List Command) (once : NeverReused cs) : ∃ m, after h cs = some m ∧
    ∀ r a, m.Stands r a → MadeInPlace h cs r a := by
  obtain ⟨m,ran,rep⟩ := run_represents h cs once fun no : False => no.elim
  refine ⟨m,ran,fun r a stands => ?_⟩
  have none : ¬ Executable Book.start.side r a := by simp [Executable,Book.start]
  have front : ∀ first rest, cs = first ++ rest → NeverReused first := by
    rintro first rest rfl
    exact List.Nodup.sublist ((List.sublist_append_left first rest).filterMap Command.added) once
  obtain ⟨before,c,later,split,notYet,kept⟩ := arisen (P := fun b : Book => Executable b.side r a) none cs ((stands_iff rep r a).mp stands)
  have orderly := orderly_after (front before _ split)
  have fresh : (Book.after before).Fresh c := admitted_iff.mp once.admitted before c later split
  have edits : (Book.after before).EditsInPlace r a c := by
    by_contra other
    have ordered : Book.Preserved Book.Anything (fun b c => b.Fresh c ∧ ¬ b.EditsInPlace r a c) Book.Orderly :=
      Book.orderly_preserved.restrict fun _ _ both => both.1
    have after := ((ordered.above (Book.executable_preserved r a)).step ⟨fresh,other⟩ ⟨orderly,notYet⟩).2
    have holds := kept [] later rfl
    rw [List.foldl_append] at holds
    exact after holds
  obtain ⟨m₀,ran₀,rep₀⟩ := run_represents h before (front before _ split) fun no : False => no.elim
  cases c with
  | replace orderId sizeDelta newPrice =>
    obtain ⟨o,member,isId,unmoved,named⟩ := edits
    obtain ⟨t,resting,inSide⟩ : ∃ t, (t = .bids ∨ t = .asks) ∧ o ∈ (Book.after before).side t := by
      cases List.mem_append.mp member with
      | inl inBids => exact ⟨.bids,.inl rfl,inBids⟩
      | inr inAsks => exact ⟨.asks,.inr rfl,inAsks⟩
    refine ⟨before,orderId,sizeDelta,newPrice,later,m₀,t,_,o,split,ran₀,?_,resting,rep₀.snapshot t,inSide,isId,unmoved,named,?_⟩
    · rw [stands_iff rep₀]
      exact notYet
    · intro since rest isLater
      have once' := front (before ++ .replace orderId sizeDelta newPrice :: since) rest (by rw [split,isLater]; simp)
      obtain ⟨m',ran',rep'⟩ := run_represents h _ once' fun no : False => no.elim
      exact ⟨m',ran',(stands_iff rep' r a).mpr (kept since rest isLater)⟩
  | add | cancel | setMarketPrice => exact edits.elim

/-- A regular bid that grows in place across an all-or-none ask. -/
theorem no_executable_pair_edit : ∃ m : MatchingBook ⟨1,by decide,by decide⟩,
    after .empty [.add false 100 10 0 1 1,.add true 100 5 0 0 2,.replace 2 5 0] = some m ∧
      ∀ r a, m.Stands r a → MadeInPlace (N := ⟨1,by decide,by decide⟩) .empty [.add false 100 10 0 1 1,.add true 100 5 0 0 2,.replace 2 5 0] r a :=
  no_executable_pair .empty _ (by decide)

/-- It can then fill the ask, and both are left standing. -/
theorem executable_pair_stands : ∃ m : MatchingBook ⟨1,by decide,by decide⟩,
    after .empty [.add false 100 10 0 1 1,.add true 100 5 0 0 2,.replace 2 5 0] = some m ∧ m.Stands 2 1 := by
  have once : NeverReused [.add false 100 10 0 1 1,.add true 100 5 0 0 2,.replace 2 5 0] := by decide
  obtain ⟨m,ran,rep⟩ := run_represents (N := ⟨1,by decide,by decide⟩) .empty _ once fun no : False => no.elim
  refine ⟨m,ran,(stands_iff rep 2 1).mpr ⟨(SimpleOrder.new true 100 5 0 0 2).modify 5 0,.new false 100 10 0 1 1,.inl ⟨?_,?_,?_⟩,?_⟩⟩
  all_goals decide

end MatchingBook

end BaboEngine
