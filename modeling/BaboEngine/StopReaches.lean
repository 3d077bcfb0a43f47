import BaboEngine.Entries

/-!
# Within reach

The prices at which an order trades are those of makers within its reach, which can be read off
the side that it goes to: the makers that cross it, as long as the open quantity of the regular
ones ahead does not fill it. Without all-or-none makers they are all of these. A maker that is
left open although it is within reach is the last one, if the makers up to it are regular.
-/

namespace BaboEngine

/-! ## The direction of a side -/

/-- Prices in the direction in which the orders of a side move the market: buys up, sells down. -/
def Ascends (isBuy : Bool) (p q : Nat) : Prop := if isBuy then p ≤ q else q ≤ p

instance (isBuy : Bool) (p q : Nat) : Decidable (Ascends isBuy p q) := inferInstanceAs (Decidable (if isBuy then p ≤ q else q ≤ p))

section
variable {isBuy : Bool} {p q r : Nat} {o : SimpleOrder}

theorem Ascends.refl (isBuy : Bool) (p : Nat) : Ascends isBuy p p := by
  cases isBuy <;> exact le_refl p

theorem Ascends.trans (first : Ascends isBuy p q) (second : Ascends isBuy q r) : Ascends isBuy p r := by
  cases isBuy
  · exact le_trans (α := Nat) second first
  · exact le_trans (α := Nat) first second

/-- A price that goes on in the direction of a stop reaches its trigger too. -/
theorem SimpleOrder.ReachedBy.onward (reached : o.ReachedBy p) (onward : Ascends o.isBuy p q) : o.ReachedBy q := by
  have first : Ascends o.isBuy o.stopPrice p := reached
  exact first.trans onward

/-- A stop of the other direction that a price reaches, has been reached by the prices before. -/
theorem SimpleOrder.ReachedBy.before (reached : o.ReachedBy q) (other : o.isBuy ≠ isBuy) (onward : Ascends isBuy p q) : o.ReachedBy p := by
  unfold ReachedBy Ascends at *
  cases side : o.isBuy <;> cases isBuy <;> simp_all <;> omega

end

namespace Matching
variable {inc : SimpleOrder} {m : SimpleOrder × Option Nat} {o z : SimpleOrder}

/-! ## Reach -/

/-- The makers within the reach of an order in need of some quantity. -/
def reach (inc : SimpleOrder) : Nat → List SimpleOrder → List SimpleOrder
  | _, [] => []
  | need, maker :: rest =>
    if need = 0 ∨ crosses maker inc = false then []
    else maker :: reach inc (if maker.allOrNone then need else need - maker.openQty) rest

theorem reach_done (inc : SimpleOrder) (makers : List SimpleOrder) : reach inc 0 makers = [] := by
  cases makers <;> simp [reach]

theorem reach_initial (makers : List SimpleOrder) : ∀ need, reach inc need makers <+: makers := by
  induction makers with
  | nil => exact fun _ => List.prefix_rfl
  | cons maker rest ih =>
    intro need
    unfold reach
    split_ifs
    · exact List.nil_prefix
    · exact (List.prefix_cons_inj maker).mpr (ih need)
    · exact (List.prefix_cons_inj maker).mpr (ih _)

/-- What trades is within reach, also of an order in need of more. -/
theorem taken_reach (makers : List SimpleOrder) : ∀ need need', need ≤ need' →
    (((allot inc need makers).filterMap taken).map Prod.fst).Sublist (reach inc need' makers) := by
  induction makers with
  | nil => exact fun _ _ _ => .slnil
  | cons maker rest ih =>
    intro need need' le
    have untouched : (((maker :: rest).map fun o => (o,(none : Option Nat))).filterMap taken) = [] := by simp
    unfold allot
    split_ifs with stop skipped
    · rw [untouched]
      exact List.nil_sublist _
    · rw [List.filterMap_cons_none (taken_none maker),reach,if_neg fun stop' => stop (stop'.imp_left fun done => by omega)]
      exact .cons _ (ih need _ (by simp [skipped.1,le]))
    · rw [List.filterMap_cons_some (taken_some maker _),List.map_cons,reach,if_neg fun stop' => stop (stop'.imp_left fun done => by omega)]
      exact .cons_cons _ (ih _ _ (by split_ifs <;> omega))

/-- Without all-or-none makers everything within reach trades. -/
theorem taken_eq_reach (makers : List SimpleOrder) : ∀ need, (∀ m ∈ makers, m.allOrNone = false) →
    ((allot inc need makers).filterMap taken).map Prod.fst = reach inc need makers := by
  induction makers with
  | nil => exact fun _ _ => rfl
  | cons maker rest ih =>
    intro need regular
    obtain ⟨notAon,regular'⟩ := List.forall_mem_cons.mp regular
    unfold allot reach
    by_cases stop : need = 0 ∨ crosses maker inc = false
    · rw [if_pos stop,if_pos stop]
      simp
    · rw [if_neg stop,if_neg stop,if_neg (by simp [notAon]),List.filterMap_cons_some (taken_some maker _),List.map_cons,notAon,
        ih _ regular']
      have left : need - min need maker.openQty = need - maker.openQty := by omega
      rw [left]
      rfl

/-- No more is taken than crosses. -/
theorem total_allot_crossing (makers : List SimpleOrder) : ∀ need, total (allot inc need makers) ≤ crossing inc makers := by
  induction makers with
  | nil => exact fun _ => le_refl 0
  | cons maker rest ih =>
    intro need
    by_cases crossed : crosses maker inc
    · have here : crossing inc (maker :: rest) = maker.openQty + crossing inc rest := by simp [crossing,crossed]
      rw [here]
      unfold allot
      split_ifs
      · rw [total_untouched]
        exact Nat.zero_le _
      · rw [total_none]
        exact (ih need).trans (Nat.le_add_left ..)
      · rw [total_some]
        exact Nat.add_le_add (Nat.min_le_right ..) (ih _)
    · rw [allot,if_pos (.inr (by simpa using crossed)),total_untouched]
      exact Nat.zero_le _

/-- A maker that trades and is left open has more than is taken. -/
theorem left_open {maker : SimpleOrder} {q : Nat} (sized : maker.Sized) (enough : q ≤ maker.openQty) (isLeft : o ∈ left (maker,some q)) :
    q < maker.openQty := by
  rw [left_some,kept] at isLeft
  split_ifs at isLeft with filled
  · cases isLeft
  · have remains := sized.openQty_fill (c := Market.cost maker q) enough
    omega

/-- A maker within reach that is left open is the last one, if the makers that the order `z` crosses are regular, and it is one of them. -/
theorem left_reach (makers : List SimpleOrder) : ∀ need, BestFirst z makers → (∀ m ∈ makers, crosses m z → m.allOrNone = false) →
    (makers.map (·.orderId)).Nodup → (∀ m ∈ makers, m.Sized) → m ∈ allot inc need makers → o ∈ left m → crosses m.1 z →
    m.1 ∈ reach inc need makers → (reach inc need makers).getLast? = some m.1 := by
  induction makers with
  | nil => simp [reach]
  | cons maker rest ih =>
    intro need sorted regular nodup sized member isLeft crossed within
    obtain ⟨before,sorted'⟩ := List.pairwise_cons.mp sorted
    obtain ⟨first,regular'⟩ := List.forall_mem_cons.mp regular
    obtain ⟨sizedMaker,sized'⟩ := List.forall_mem_cons.mp sized
    rw [List.map_cons,List.nodup_cons] at nodup
    have inMakers : m.1 ∈ maker :: rest := (reach_initial _ _).subset within
    have notAon : maker.allOrNone = false := by
      rcases List.mem_cons.mp inMakers with same | inRest
      · exact first (same ▸ crossed)
      · exact first (before m.1 inRest crossed)
    unfold reach at within ⊢
    by_cases stop : need = 0 ∨ crosses maker inc = false
    · rw [if_pos stop] at within
      cases within
    · rw [if_neg stop,notAon] at within ⊢
      simp only [Bool.false_eq_true,if_false] at within ⊢
      rw [allot,if_neg stop,if_neg (by simp [notAon])] at member
      rcases List.mem_cons.mp member with rfl | later
      · -- It is left open, and so the need ends with it.
        have more := left_open sizedMaker (Nat.min_le_right ..) isLeft
        have noNeed : need - maker.openQty = 0 := by omega
        rw [noNeed,reach_done]
        rfl
      · have inRest : m.1 ∈ rest := by
          have makersAre := allot_makers inc rest (need - min need maker.openQty)
          rw [← makersAre]
          exact List.mem_map_of_mem later
        have other : m.1 ≠ maker := fun same => nodup.1 (same ▸ List.mem_map_of_mem inRest)
        have isNeed : need - min need maker.openQty = need - maker.openQty := by omega
        rw [isNeed] at later
        have within' := (List.mem_cons.mp within).resolve_left other
        rw [List.getLast?_cons,ih _ sorted' regular' nodup.2 sized' later isLeft crossed within']
        rfl

/-- Behind a regular maker that is left open nothing trades. -/
theorem left_last {L R : List (SimpleOrder × Option Nat)} {need : Nat} {makers : List SimpleOrder} (split : allot inc need makers = L ++ m :: R)
    (sized : m.1.Sized) (regular : m.1.allOrNone = false) (isLeft : o ∈ left m) : ∀ y ∈ R, y.2 = none := by
  intro y member
  by_contra some
  obtain ⟨maker,_ | q⟩ := m
  · have aon := (allot_passed split ⟨y,member,some⟩).1
    simp [regular] at aon
  · obtain rfl := allot_full split ⟨y,member,some⟩
    exact absurd (left_open sized (le_refl _) isLeft) (Nat.lt_irrefl _)

end Matching

/-! ## The side that an order goes to -/

/-- The side that the orders of a direction trade with. -/
def against (isBuy : Bool) : TreeName := if isBuy then .asks else .bids

theorem opposite_eq (o : SimpleOrder) : o.opposite = against o.isBuy := rfl

namespace Book
variable {b : Book} {o m x z : SimpleOrder} {hand os : List SimpleOrder} {isBuy : Bool} {p q : Nat} {A : SimpleOrder → Prop}

/-- The makers within the reach of an order that is submitted next; those of an all-or-none order reach nothing if they are not enough. -/
def reach (b : Book) (o : SimpleOrder) : List SimpleOrder :=
  if o.allOrNone ∧ Matching.crossing o (b.side o.opposite) < o.openQty then [] else Matching.reach o o.openQty (b.side o.opposite)

theorem reach_sublist (b : Book) (o : SimpleOrder) : (b.reach o).Sublist (b.side o.opposite) := by
  unfold reach
  split_ifs
  · exact List.nil_sublist _
  · exact (Matching.reach_initial _ _).sublist

/-- The makers of a side stand in the direction in which they are traded. -/
theorem Orderly.ascends (orderly : Orderly b hand) (isBuy : Bool) : (b.side (against isBuy)).Pairwise fun m m' => Ascends isBuy m.price m'.price := by
  apply (orderly.sorted (against isBuy)).imp
  intro m m' notAhead
  cases isBuy
  · exact Nat.not_lt.mp notAhead
  · exact Nat.not_lt.mp notAhead

theorem Orderly.reach_ascends (orderly : Orderly b hand) (o : SimpleOrder) :
    ((b.reach o).map (·.price)).Pairwise (Ascends o.isBuy) := by
  rw [List.pairwise_map]
  exact (orderly.ascends o.isBuy).sublist (b.reach_sublist o)

/-- A maker that is not within reach comes behind those that are. -/
theorem Orderly.beyond_reach (orderly : Orderly b hand) (member : m ∈ b.side o.opposite) (without : m ∉ b.reach o) (within : x ∈ b.reach o) :
    Ascends o.isBuy x.price m.price := by
  unfold reach at without within
  split_ifs at without within
  · cases within
  · obtain ⟨rest,split⟩ : Matching.reach o o.openQty (b.side o.opposite) <+: b.side o.opposite := Matching.reach_initial _ _
    have sorted := orderly.ascends o.isBuy
    rw [← opposite_eq,← split] at sorted
    rw [← split] at member
    exact (List.pairwise_append.mp sorted).2.2 x within m ((List.mem_append.mp member).resolve_left without)

/-- An order trades at prices of makers within its reach, in their order. -/
theorem tradePrices_reach (b : Book) (o : SimpleOrder) : (b.tradePrices o).Sublist ((b.reach o).map (·.price)) := by
  have makers : b.tradePrices o = (((Matching.takes o (b.side o.opposite)).filterMap Matching.taken).map Prod.fst).map (·.price) := by
    rw [List.map_map]
    rfl
  rw [makers]
  apply List.Sublist.map
  have nothing : ((b.side o.opposite).map fun o => (o,(none : Option Nat))).filterMap Matching.taken = [] := by simp
  unfold Matching.takes reach
  by_cases short : o.allOrNone ∧ Matching.total (Matching.allot o o.openQty (b.side o.opposite)) < o.openQty
  · rw [if_pos short,nothing]
    exact List.nil_sublist _
  · have enough : ¬ (o.allOrNone ∧ Matching.crossing o (b.side o.opposite) < o.openQty) :=
      fun few => short ⟨few.1,(Matching.total_allot_crossing _ _).trans_lt few.2⟩
    rw [if_neg short,if_neg enough]
    exact Matching.taken_reach _ _ _ (le_refl _)

/-- Where no maker is all-or-none, they are the prices of all of them. -/
theorem Orderly.tradePrices_eq (orderly : Orderly b (o :: hand)) (regular : ∀ m ∈ b.side o.opposite, m.allOrNone = false) :
    b.tradePrices o = (b.reach o).map (·.price) := by
  have makers : b.tradePrices o = (((Matching.takes o (b.side o.opposite)).filterMap Matching.taken).map Prod.fst).map (·.price) := by
    rw [List.map_map]
    rfl
  have total := Matching.total_allot _ o.openQty orderly.bestFirst fun m member _ => regular m member
  rw [makers]
  congr 1
  unfold Matching.takes reach
  by_cases few : o.allOrNone ∧ Matching.crossing o (b.side o.opposite) < o.openQty
  · rw [if_pos few,if_pos ⟨few.1,by omega⟩]
    simp
  · rw [if_neg few,if_neg fun short => few ⟨short.1,by omega⟩]
    exact Matching.taken_eq_reach _ _ regular

/-- The price of a trade is that of a maker that crosses. -/
theorem mem_tradePrices (member : p ∈ b.tradePrices o) : ∃ m ∈ b.side o.opposite, crosses m o ∧ m.price = p := by
  obtain ⟨⟨m,q⟩,isTaken,rfl⟩ := List.mem_map.mp member
  have inTakes := Matching.mem_taken.mp isTaken
  have inAllot := inTakes
  rw [Matching.takes_eq inTakes (by simp)] at inAllot
  refine ⟨m,?_,(Matching.allot_taken _ _ inAllot rfl).1,rfl⟩
  rw [← Matching.takes_makers o (b.side o.opposite)]
  exact List.mem_map_of_mem inTakes

/-- What is left on the side that an order has gone to. -/
theorem Orderly.mem_left (orderly : Orderly b (o :: hand)) (member : m ∈ (b.submit o).side o.opposite) :
    ∃ x ∈ Matching.takes o (b.side o.opposite), m ∈ Matching.left x ∧ x.1 ∈ b.side o.opposite ∧ x.1.SameTerms m := by
  rw [submit_opposite orderly.handSized,orderly.pass_eq,Matching.commit_makers,List.mem_flatMap] at member
  obtain ⟨x,inTakes,isLeft⟩ := member
  refine ⟨x,inTakes,isLeft,?_,?_⟩
  · rw [← Matching.takes_makers o (b.side o.opposite)]
    exact List.mem_map_of_mem inTakes
  · rcases Matching.mem_left isLeft with rfl | ⟨q,_,rfl,_⟩
    · exact .refl _
    · exact x.1.sameTerms_fill _ _

/-- A regular maker that is left comes behind all prices at which the order has traded. -/
theorem Orderly.left_onward (orderly : Orderly b (o :: hand)) (member : m ∈ (b.submit o).side o.opposite) (regular : m.allOrNone = false)
    (traded : p ∈ b.tradePrices o) : Ascends o.isBuy p m.price := by
  obtain ⟨x,inTakes,isLeft,inSide,terms⟩ := orderly.mem_left member
  obtain ⟨⟨maker,q⟩,isTaken,rfl⟩ := List.mem_map.mp traded
  have taken := Matching.mem_taken.mp isTaken
  rw [Matching.takes_eq taken (by simp)] at inTakes taken
  have regular' : x.1.allOrNone = false := by rw [← terms.allOrNone,regular]
  obtain ⟨L,R,split⟩ := List.append_of_mem inTakes
  have last := Matching.left_last split (orderly.sized.1 _ _ inSide) regular' isLeft
  have sorted : ((L ++ x :: R).map Prod.fst).Pairwise fun m m' => Ascends o.isBuy m.price m'.price := by
    rw [← split,Matching.allot_makers]
    exact orderly.ascends o.isBuy
  rw [split] at taken
  rw [terms.price]
  rcases List.mem_append.mp taken with before | here
  · rw [List.map_append,List.pairwise_append] at sorted
    exact sorted.2.2 maker (List.mem_map_of_mem before) x.1 (by simp)
  · rcases List.mem_cons.mp here with rfl | later
    · exact .refl _ _
    · exact absurd (last _ later) (by simp)

/-- A maker that is left although it was within reach was the last one within reach, if the order has traded and the makers that the
    order `z` crosses are regular. -/
theorem Orderly.left_reach (orderly : Orderly b (o :: hand)) (member : m ∈ (b.submit o).side o.opposite) (traded : b.tradePrices o ≠ [])
    (same : z.isBuy = o.isBuy) (regular : ∀ m ∈ b.side o.opposite, crosses m z → m.allOrNone = false) (crossed : crosses m z) :
    ∃ y ∈ b.side o.opposite, y.SameTerms m ∧ (y ∈ b.reach o → ∀ r ∈ b.reach o, Ascends o.isBuy r.price y.price) := by
  obtain ⟨x,inTakes,isLeft,inSide,terms⟩ := orderly.mem_left member
  refine ⟨x.1,inSide,terms,?_⟩
  intro within r inReach
  obtain ⟨p,isPrice⟩ := List.exists_mem_of_ne_nil _ traded
  obtain ⟨⟨maker,q⟩,isTaken,_⟩ := List.mem_map.mp isPrice
  rw [Matching.takes_eq (Matching.mem_taken.mp isTaken) (by simp)] at inTakes
  have opposite : z.opposite = o.opposite := by rw [opposite_eq,opposite_eq,same]
  have sortedReach := orderly.reach_ascends o
  rw [List.pairwise_map] at sortedReach
  unfold reach at within inReach sortedReach
  split_ifs at within inReach sortedReach
  · cases within
  · have bestFirst : Matching.BestFirst z (b.side o.opposite) := opposite ▸ Book.bestFirst (orderly.sorted z.opposite)
    have crossed' : crosses x.1 z := by rwa [← terms.crosses_maker]
    have last := Matching.left_reach _ _ bestFirst regular (orderly.nodup o.opposite) (orderly.sized.1 o.opposite) inTakes isLeft crossed' within
    obtain ⟨init,isInit⟩ := List.getLast?_eq_some_iff.mp last
    rw [isInit] at inReach sortedReach
    rcases List.mem_append.mp inReach with before | isLast
    · exact (List.pairwise_append.mp sortedReach).2.2 r before x.1 (by simp)
    · rw [List.mem_singleton.mp isLast]
      exact .refl _ _

end Book

end BaboEngine
