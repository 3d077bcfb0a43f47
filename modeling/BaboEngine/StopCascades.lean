import BaboEngine.StopReaches

/-!
# Cascades of stops

The condition under which a command misses no stop, read off the book that it finds
(`Book.Settles`). The prices that it observes first come from the order that it sends or from
the market price that it sets; a stop that one of them reaches the last one has to reach. The
stops that are released then are all of one direction, and move the market in this direction if
the makers that they meet are regular; these makers must not stand where a price of theirs
reaches a stop of the other direction. Where the first prices release no stop of the other
direction, and no all-or-none orders are in the way, the condition is also necessary.
-/

namespace BaboEngine

/-- The stop order that a command adds. -/
def Command.stopOrder : Command → Option SimpleOrder
  | .add isBuy price qty stopPrice conditions orderId =>
    if qty = 0 ∨ stopPrice = 0 then none else some (.new isBuy price qty stopPrice conditions orderId)
  | _ => none

namespace Book
variable {b b₁ : Book} {o m x y z : SimpleOrder} {t : TreeName} {hand os P : List SimpleOrder} {d : Bool} {p q px : Nat} {c : Command}
  {A : SimpleOrder → Prop}

/-! ## The condition -/

def parked (b : Book) : List SimpleOrder := b.side .stopBids ++ b.side .stopAsks

/-- The makers within the reach of the order that a command sends. -/
def reached (b : Book) (c : Command) : List SimpleOrder := (b.sends c).elim [] b.reach

/-- The prices that a command observes first, at most. -/
def firstPrices (b : Book) (c : Command) : List Nat :=
  match c with
  | .setMarketPrice px => [px.toNat]
  | _ => (b.reached c).map (·.price)

/-- The makers that a released stop may meet: those on the side that it goes to, and the order that the command sends. -/
def meets (b : Book) (c : Command) (z : SimpleOrder) : List SimpleOrder :=
  ((b.side z.opposite).filter fun m => some m.orderId ≠ (b.sends c).map (·.orderId)) ++ (b.sends c).toList.filter fun o => o.isBuy ≠ z.isBuy

/-- A price sets off nothing that might turn: if it reaches a parked order, then the makers that the parked orders of its direction cross
    are regular and, beyond the reach of the order that is sent, at prices that reach no parked order of the other direction. -/
def Calm (b : Book) (c : Command) (px : Nat) : Prop := ∀ y ∈ b.parked, y.ReachedBy px →
  ∀ z ∈ b.parked, z.isBuy = y.isBuy → ∀ m ∈ b.meets c z, crosses m z →
    m.allOrNone = false ∧ (m ∈ b.reached c ∨ ∀ x ∈ b.parked, x.isBuy ≠ y.isBuy → ¬ x.ReachedBy m.price)

instance (b : Book) (c : Command) (px : Nat) : Decidable (b.Calm c px) :=
  inferInstanceAs (Decidable (∀ y ∈ b.parked, y.ReachedBy px → ∀ z ∈ b.parked, z.isBuy = y.isBuy → ∀ m ∈ b.meets c z, crosses m z →
    m.allOrNone = false ∧ (m ∈ b.reached c ∨ ∀ x ∈ b.parked, x.isBuy ≠ y.isBuy → ¬ x.ReachedBy m.price)))

/-- The condition on a command, and on the book that it finds. Before a sell stop comes in, a price has been observed; a parked order that
    one of the first prices reaches is reached by those that come after it; and the first prices are calm. -/
structure Settles (b : Book) (c : Command) : Prop where
  priced : ∀ o ∈ c.stopOrder, o.isBuy = false → b.market.observed ≠ []
  inOrder : (b.firstPrices c).Pairwise fun p q => ∀ x ∈ b.parked, x.ReachedBy p → x.ReachedBy q
  calm : ∀ px ∈ b.firstPrices c, b.Calm c px

instance (b : Book) (c : Command) : Decidable (b.Settles c) :=
  decidable_of_iff ((∀ o ∈ c.stopOrder, o.isBuy = false → b.market.observed ≠ []) ∧
      ((b.firstPrices c).Pairwise fun p q => ∀ x ∈ b.parked, x.ReachedBy p → x.ReachedBy q) ∧ ∀ px ∈ b.firstPrices c, b.Calm c px)
    ⟨fun ⟨priced,inOrder,calm⟩ => ⟨priced,inOrder,calm⟩,fun ⟨priced,inOrder,calm⟩ => ⟨priced,inOrder,calm⟩⟩

/-- The last of the first prices reaches parked orders of the direction of the order that is sent only, and this order meets no all-or-none
    orders. -/
def Direct (b : Book) (c : Command) : Prop := (∀ o ∈ b.sends c, ∀ m ∈ b.side o.opposite, m.allOrNone = false) ∧
  ∀ px ∈ (b.firstPrices c).getLast?, ∀ x ∈ b.parked, x.ReachedBy px → some x.isBuy = (b.sends c).map (·.isBuy)

instance (b : Book) (c : Command) : Decidable (b.Direct c) := inferInstanceAs (Decidable (_ ∧ _))

/-- What a command meets in which no stop is missed: a direct one meets the condition. -/
structure Needs (b : Book) (c : Command) : Prop where
  priced : ∀ o ∈ c.stopOrder, o.isBuy = false → b.market.observed ≠ []
  settles : b.Direct c → b.Settles c

theorem mem_parked : o ∈ b.parked ↔ ∃ t, (t = .stopBids ∨ t = .stopAsks) ∧ o ∈ b.side t := by
  simp [parked,or_and_right,exists_or]

/-! ## Orders of one direction -/

/-- What holds of a maker, also after it has traded. -/
def Lasting (A : SimpleOrder → Prop) : Prop := ∀ m m', m.SameTerms m' → A m → A m'

/-- What holds of all makers of a side, still holds of them when an order has gone there. -/
theorem Orderly.facing_submit (orderly : Orderly b (o :: hand)) (isBuy : o.isBuy = d) (lasting : Lasting A)
    (facing : ∀ m ∈ b.side (against d), A m) : ∀ m ∈ (b.submit o).side (against d), A m := by
  subst isBuy
  intro m member
  obtain ⟨x,_,_,inSide,terms⟩ := orderly.mem_left member
  exact lasting x.1 m terms (facing x.1 inSide)

/-- Orders of a direction trade at prices of the makers that they face. -/
theorem batchPrices_facing (lasting : Lasting A) (os : List SimpleOrder) : ∀ b : Book, Orderly b os → (∀ o ∈ os, o.isBuy = d) →
    (∀ m ∈ b.side (against d), A m) → (∀ p ∈ b.batchPrices os, ∃ o ∈ os, ∃ m, A m ∧ crosses m o ∧ m.price = p) ∧
      ∀ m ∈ (b.submitAll os).side (against d), A m := by
  induction os with
  | nil => exact fun b _ _ facing => ⟨by simp [batchPrices],facing⟩
  | cons o os ih =>
    intro b orderly isBuy facing
    obtain ⟨first,rest⟩ := List.forall_mem_cons.mp isBuy
    obtain ⟨prices,left⟩ := ih (b.submit o) orderly.submit rest (orderly.facing_submit first lasting facing)
    refine ⟨?_,left⟩
    intro p member
    cases List.mem_append.mp member with
    | inl now =>
      obtain ⟨m,inSide,crossed,isPrice⟩ := mem_tradePrices now
      rw [opposite_eq,first] at inSide
      exact ⟨o,List.mem_cons_self,m,facing m inSide,crossed,isPrice⟩
    | inr later =>
      obtain ⟨x,inRest,found⟩ := prices p later
      exact ⟨x,List.mem_cons_of_mem _ inRest,found⟩

/-- If the makers that they cross are regular, their prices go in one direction. -/
theorem batchPrices_ascend (os : List SimpleOrder) : ∀ b : Book, Orderly b os → (∀ o ∈ os, o.isBuy = d) →
    (∀ m ∈ b.side (against d), ∀ o ∈ os, crosses m o → m.allOrNone = false) → (b.batchPrices os).Pairwise (Ascends d) := by
  induction os with
  | nil => exact fun _ _ _ _ => .nil
  | cons o os ih =>
    intro b orderly isBuy regular
    obtain ⟨first,rest⟩ := List.forall_mem_cons.mp isBuy
    have lasting : Lasting fun m => ∀ o ∈ os, crosses m o → m.allOrNone = false := by
      intro m m' terms regular o member crossed
      rw [terms.allOrNone]
      exact regular o member (by rwa [← terms.crosses_maker])
    have regular' := orderly.facing_submit first lasting fun m member o' inRest => regular m member o' (List.mem_cons_of_mem _ inRest)
    refine List.pairwise_append.mpr ⟨?_,ih _ orderly.submit rest regular',?_⟩
    · exact first ▸ (orderly.reach_ascends o).sublist (b.tradePrices_reach o)
    · -- What the later orders cross comes behind the prices of this one.
      intro p traded q later
      have onward : Lasting fun m => ∀ o ∈ os, crosses m o → Ascends d p m.price := by
        intro m m' terms onward o member crossed
        rw [terms.price]
        exact onward o member (by rwa [← terms.crosses_maker])
      obtain ⟨x,inRest,m,behind,crossed,rfl⟩ := (batchPrices_facing onward os _ orderly.submit rest (by
        intro m member o' inRest crossed
        have inSide : m ∈ (b.submit o).side o.opposite := by rwa [opposite_eq,first]
        exact first ▸ orderly.left_onward inSide (regular' m member o' inRest crossed) traded)).1 q later
      exact behind x inRest crossed

/-! ## Rounds -/

/-- In a cascade only stops of one direction are released: a price at which one of them trades reaches no stop of the other direction. -/
structure Cascade (d : Bool) (P : List SimpleOrder) (A : SimpleOrder → Prop) (b : Book) : Prop where
  parked : ∀ o ∈ b.parked, o ∈ P
  facing : ∀ m ∈ b.side (against d), A m
  away : ∀ x ∈ b.parked, x.isBuy ≠ d → ¬ x.ReachedBy b.market.marketPrice

/-- The prices of the makers that are met reach no stop of the other direction. -/
def Clear (d : Bool) (P : List SimpleOrder) (A : SimpleOrder → Prop) : Prop :=
  ∀ m, A m → ∀ z ∈ P, z.isBuy = d → crosses m z → ∀ x ∈ P, x.isBuy ≠ d → ¬ x.ReachedBy m.price

theorem side_scanned_against (b : Book) (d : Bool) : b.scanned.side (against d) = b.side (against d) := by
  obtain ⟨_,_,bids,asks⟩ := b.side_scanned
  cases d
  · exact bids
  · exact asks

theorem Cascade.due (cascade : Cascade d P A b) (orderly : Orderly b []) : ∀ o ∈ b.dueBuys ++ b.dueSells, o ∈ P ∧ o.isBuy = d := by
  intro o isDue
  have inParked : o ∈ b.parked := List.mem_append.mpr (mem_due isDue)
  obtain ⟨t,stop,inSide⟩ := mem_parked.mp inParked
  refine ⟨cascade.parked o inParked,?_⟩
  by_contra other
  exact cascade.away o inParked other ((orderly.mem_due_iff stop inSide).mp isDue)

theorem Cascade.fire (cascade : Cascade d P A b) (orderly : Orderly b []) (lasting : Lasting A) (clear : Clear d P A) : Cascade d P A b.fire := by
  have due := cascade.due orderly
  have facing : ∀ m ∈ b.scanned.side (against d), A m := by
    rw [side_scanned_against]
    exact cascade.facing
  obtain ⟨prices,left⟩ := batchPrices_facing lasting _ b.scanned (orderly_preserved.scan b trivial orderly) (fun o member => (due o member).2) facing
  have still : ∀ o ∈ b.fire.parked, o ∈ b.parked ∧ o ∉ b.dueBuys ++ b.dueSells := by
    intro o member
    obtain ⟨t,stop,inSide⟩ := mem_parked.mp member
    rw [orderly.fire_stops stop] at inSide
    have before := (b.sublist_scanned t).subset inSide
    refine ⟨mem_parked.mpr ⟨t,stop,before⟩,?_⟩
    rw [orderly.mem_due_iff stop before]
    have isBuy := orderly.isBuy stop before
    unfold SimpleOrder.ReachedBy
    rcases stop with rfl | rfl
    · have later := (orderly.mem_dueBuys.2.mp inSide).2
      simpa [isBuy] using later
    · have later := (orderly.mem_dueSells.2.mp inSide).2
      simpa [isBuy] using later
  refine ⟨fun o member => cascade.parked o (still o member).1,left,?_⟩
  intro x member other
  rw [orderly.went_fire.marketPrice]
  cases last : (b.scanned.batchPrices (b.dueBuys ++ b.dueSells)).getLast? with
  | none => exact cascade.away x (still x member).1 other
  | some p =>
    obtain ⟨o,isDue,m,holds,crossed,rfl⟩ := prices p (List.mem_of_getLast? last)
    exact clear m holds o (due o isDue).1 (due o isDue).2 crossed x (cascade.parked x (still x member).1) other

/-- Every batch of released stops is one of parked orders of the direction, that face such makers. -/
theorem Cascade.releasesLoop (lasting : Lasting A) (clear : Clear d P A) (rounds : Nat) : ∀ b : Book, Orderly b [] → Cascade d P A b →
    ∀ y ∈ b.releasesLoop rounds, ∃ b' os, Orderly b' os ∧ (∀ o ∈ os, o ∈ P ∧ o.isBuy = d) ∧ (∀ m ∈ b'.side (against d), A m) ∧
      y = b'.batch os := by
  induction rounds with
  | zero => exact fun _ _ _ y member => absurd member List.not_mem_nil
  | succ rounds ih =>
    intro b orderly cascade y member
    unfold Book.releasesLoop at member
    split_ifs at member with none
    · cases member
    · rcases List.mem_cons.mp member with rfl | later
      · refine ⟨b.scanned,_,orderly_preserved.scan b trivial orderly,cascade.due orderly,?_,rfl⟩
        rw [side_scanned_against]
        exact cascade.facing
      · exact ih b.fire (orderly_preserved.fire orderly) (cascade.fire orderly lasting clear) y later

/-! ## The first batch -/

theorem Launch.reach (launch : Launch b o b₁) : b₁.reach o = b.reach o := by
  unfold Book.reach
  rw [launch.opposite]

theorem Launch.reached (launch : Launch b o b₁) (sent : b.sends c = some o) : b.reached c = b₁.reach o := by
  simp [Book.reached,sent,launch.reach]

theorem Launch.firstPrices (launch : Launch b o b₁) (sent : b.sends c = some o) : b.firstPrices c = (b₁.reach o).map (·.price) := by
  rw [← launch.reached sent]
  cases c with
  | setMarketPrice => cases sent
  | add | cancel | replace => rfl

theorem Launch.parked (launch : Launch b o b₁) : (b₁.submit o).parked = b.parked := by
  unfold Book.parked
  rw [launch.stops (.inl rfl),launch.stops (.inr rfl)]

/-- The first batch `f` of a command, and the book `b₂` in which the stops are looked at. -/
structure Opening (b : Book) (c : Command) (f : Batch) (b₂ : Book) : Prop where
  batches : b.batches c = f :: b₂.releases
  orderly : Orderly b₂ []
  parked : b₂.parked = b.parked
  marketPrice : b₂.market.marketPrice = f.prices.getLast?.getD b.market.marketPrice
  prices : f.prices.Sublist (b.firstPrices c)
  faced : ∀ px ∈ f.prices.getLast?, ∀ d, ∀ m ∈ b₂.side (against d), ∀ z, z.isBuy = d → crosses m z →
    (∀ m' ∈ b.meets c z, crosses m' z → m'.allOrNone = false) →
    ∃ y ∈ b.meets c z, y.SameTerms m ∧ (y ∈ b.reached c → Ascends d px y.price)

/-- A maker that a stop meets after an order has gone to matching, if the makers that it crosses are regular. -/
theorem Launch.faced (launch : Launch b o b₁) (sent : b.sends c = some o) (traded : px ∈ b₁.tradePrices o)
    (member : m ∈ (b₁.submit o).side (against z.isBuy)) (crossed : crosses m z)
    (regular : ∀ m' ∈ b.meets c z, crosses m' z → m'.allOrNone = false) :
    ∃ y ∈ b.meets c z, y.SameTerms m ∧ (y ∈ b.reached c → Ascends z.isBuy px y.price) := by
  have reached := launch.reached sent
  have meets : ∀ y, y ∈ b₁.side z.opposite → y ∈ b.side z.opposite → y ∈ b.meets c z := by
    intro y inSide inSide'
    have other := launch.orderly.absent y inSide
    simp [Book.meets,sent,inSide',other]
  rw [reached]
  by_cases same : z.isBuy = o.isBuy
  · -- The stop goes to the side that the order has traded with.
    have opposite : z.opposite = o.opposite := by rw [opposite_eq,opposite_eq,same]
    rw [← opposite_eq,opposite] at member
    have sides : ∀ y ∈ b₁.side o.opposite, y ∈ b.meets c z := by
      intro y inSide
      refine meets y (by rwa [opposite]) ?_
      rwa [opposite,← launch.opposite]
    obtain ⟨y,inSide,terms,last⟩ := launch.orderly.left_reach member (List.ne_nil_of_mem traded) same (fun y inSide => regular y (sides y inSide)) crossed
    refine ⟨y,sides y inSide,terms,?_⟩
    intro within
    obtain ⟨r,inReach,rfl⟩ := List.mem_map.mp ((b₁.tradePrices_reach o).subset traded)
    rw [same]
    exact last within r inReach
  · -- It goes to the side of the order, and finds there what is left of it.
    have isSide : against z.isBuy = o.side := by
      unfold against SimpleOrder.side
      cases isBuy : z.isBuy <;> cases isBuy' : o.isBuy <;> simp_all
    rw [isSide] at member
    rcases launch.orderly.terms_submit member with ⟨y,inSide,terms⟩ | ⟨_,rfl,_⟩
    · have inSide' := inSide
      rw [launch.sides] at inSide'
      replace inSide' := List.mem_of_mem_filter inSide'
      rw [← isSide,← opposite_eq] at inSide inSide'
      refine ⟨y,meets y inSide inSide',terms,?_⟩
      intro within
      have opposite := launch.orderly.apart inSide ((b₁.reach_sublist o).subset within) rfl
      rw [opposite_eq,isSide] at opposite
      exact absurd opposite o.side_ne_opposite
    · refine ⟨o,?_,(pass_inc launch.orderly.handSized).1,?_⟩
      · simp [Book.meets,sent,Ne.symm same]
      · intro within
        exact absurd rfl (launch.orderly.absent o ((b₁.reach_sublist o).subset within))

/-- A command begins with a first batch, or has none. -/
theorem Orderly.opening (orderly : Orderly b []) (fresh : b.Fresh c) : b.batches c = [] ∨ ∃ f b₂, Opening b c f b₂ := by
  cases sent : b.sends c with
  | some o =>
    obtain ⟨b₁,launch,_,batches⟩ := orderly.launch fresh sent
    have prices : (b₁.batch [o]).prices = b₁.tradePrices o := List.append_nil _
    have first := launch.firstPrices sent
    have went := went_submit (b := b₁) launch.orderly.handSized
    refine .inr ⟨b₁.batch [o],b₁.submit o,batches,launch.orderly.submit,launch.parked,?_,?_,?_⟩
    · rw [went.marketPrice,prices,launch.market.1]
    · rw [prices,first]
      exact b₁.tradePrices_reach o
    · rintro px last d m member z rfl crossed regular
      rw [prices] at last
      exact launch.faced sent (List.mem_of_getLast? last) member crossed regular
  | none =>
    cases c with
    | setMarketPrice px =>
      refine .inr ⟨⟨[],[px.toNat]⟩,{ b with market := b.market.observe px.toNat },rfl,orderly_preserved.observe b px.toNat trivial orderly,rfl,rfl,
        List.Sublist.refl _,?_⟩
      rintro p last d m member z rfl crossed regular
      refine ⟨m,?_,.refl m,?_⟩
      · have inSide : m ∈ b.side z.opposite := member
        simp [Book.meets,sent,inSide]
      · intro within
        simp [Book.reached,sent] at within
    | add | cancel | replace => exact .inl (batches_none sent (by simp)).1

/-! ## No stop is missed -/

/-- Before a sell stop comes in, a price has been observed; and of a parked order that a price of some batch reaches, the last price of a
    batch reaches the trigger too. -/
structure MissesNone (b : Book) (c : Command) : Prop where
  priced : ∀ o ∈ c.stopOrder, o.isBuy = false → b.market.observed ≠ []
  released : ∀ o ∈ b.parked, ∀ px ∈ pricesOf (b.batches c), o.ReachedBy px → ∃ x ∈ b.batches c, x.Releases o

/-- A parked order that is due is reached. -/
theorem Orderly.due_reached (orderly : Orderly b []) (isDue : y ∈ b.dueBuys ++ b.dueSells) :
    y ∈ b.parked ∧ y.ReachedBy b.market.marketPrice := by
  have parked : y ∈ b.parked := List.mem_append.mpr (mem_due isDue)
  obtain ⟨t,stop,inSide⟩ := mem_parked.mp parked
  exact ⟨parked,(orderly.mem_due_iff stop inSide).mp isDue⟩

theorem QuietAt.not_reached (quiet : QuietAt p b) (orderly : Orderly b []) (parked : x ∈ b.parked) : ¬ x.ReachedBy p := by
  obtain ⟨t,stop,inSide⟩ := mem_parked.mp parked
  have isBuy := orderly.isBuy stop inSide
  unfold SimpleOrder.ReachedBy
  rcases stop with rfl | rfl
  · simpa [isBuy] using quiet.buys x inSide
  · simpa [isBuy] using quiet.sells x inSide

/-- No price reaches parked orders of both directions. -/
theorem QuietAt.one_direction (quiet : QuietAt p b) (orderly : Orderly b []) (first : x ∈ b.parked) (second : y ∈ b.parked)
    (reached : x.ReachedBy px) (reached' : y.ReachedBy px) : x.isBuy = y.isBuy := by
  have notX := quiet.not_reached orderly first
  have notY := quiet.not_reached orderly second
  unfold SimpleOrder.ReachedBy at *
  cases isBuy : x.isBuy <;> cases isBuy' : y.isBuy <;> simp [isBuy,isBuy'] at * <;> omega

section
variable {f : Batch} {b₂ : Book}

/-- An order is due behind the first batch only if the last price of it reaches the order. -/
theorem Opening.due_reached (opening : Opening b c f b₂) (orderly : Orderly b []) (quiet : QuietAt b.market.marketPrice b)
    (isDue : y ∈ b₂.dueBuys ++ b₂.dueSells) : y ∈ b.parked ∧ ∃ px ∈ f.prices.getLast?, b₂.market.marketPrice = px ∧ y.ReachedBy px := by
  obtain ⟨parked,reached⟩ := opening.orderly.due_reached isDue
  rw [opening.parked] at parked
  rw [opening.marketPrice] at reached ⊢
  refine ⟨parked,?_⟩
  cases last : f.prices.getLast? with
  | none =>
    rw [last] at reached
    exact absurd reached (quiet.not_reached orderly parked)
  | some px =>
    rw [last] at reached
    exact ⟨px,rfl,rfl,reached⟩

/-- The regular makers at prices that reach no parked order of the other direction. -/
def Harmless (b : Book) (d : Bool) (m : SimpleOrder) : Prop := ∀ z ∈ b.parked, z.isBuy = d → crosses m z →
  m.allOrNone = false ∧ ∀ x ∈ b.parked, x.isBuy ≠ d → ¬ x.ReachedBy m.price

theorem lasting_harmless (b : Book) (d : Bool) : Lasting (b.Harmless d) := by
  intro m m' terms harmless z parked isBuy crossed
  rw [terms.allOrNone,terms.price]
  exact harmless z parked isBuy (by rwa [← terms.crosses_maker])

/-- What is released after calm prices is a cascade, in which only harmless makers are met. -/
theorem Opening.cascade (opening : Opening b c f b₂) (orderly : Orderly b []) (quiet : QuietAt b.market.marketPrice b)
    (calm : ∀ px ∈ b.firstPrices c, b.Calm c px) (isDue : y ∈ b₂.dueBuys ++ b₂.dueSells) :
    Cascade y.isBuy b.parked (b.Harmless y.isBuy) b₂ := by
  obtain ⟨parked,px,last,isPrice,reached⟩ := opening.due_reached orderly quiet isDue
  have away : ∀ x ∈ b.parked, x.isBuy ≠ y.isBuy → ¬ x.ReachedBy px :=
    fun x inParked other reached' => other (quiet.one_direction orderly inParked parked reached' reached)
  refine ⟨fun o member => by rwa [← opening.parked],?_,?_⟩
  · intro m member z inParked isBuy crossed
    have calm' := calm px (opening.prices.subset (List.mem_of_getLast? last)) y parked reached z inParked isBuy
    obtain ⟨maker,met,terms,onward⟩ := opening.faced px last _ m member z isBuy crossed fun m' met crossed' => (calm' m' met crossed').1
    obtain ⟨regular,within | beyond⟩ := calm' maker met (by rwa [← terms.crosses_maker])
    · -- The last maker within reach may be left open; its price has gone on in the direction.
      refine ⟨terms.allOrNone.trans regular,fun x inParked' other reached' => away x inParked' other ?_⟩
      rw [terms.price] at reached'
      exact reached'.before other (onward within)
    · rw [terms.allOrNone,terms.price]
      exact ⟨regular,beyond⟩
  · intro x inParked other
    rw [isPrice]
    rw [opening.parked] at inParked
    exact away x inParked other

/-- The last one of a list comes behind each of the others. -/
theorem last_of_pairwise {α : Type} {R : α → α → Prop} {l : List α} {p : α} (pairwise : l.Pairwise R) (member : p ∈ l) :
    ∃ last ∈ l.getLast?, p = last ∨ R p last := by
  rcases List.eq_nil_or_concat l with rfl | ⟨init,last,rfl⟩
  · cases member
  · rw [List.concat_eq_append] at *
    refine ⟨last,by simp,?_⟩
    rcases List.mem_append.mp member with before | here
    · exact .inr ((List.pairwise_append.mp pairwise).2.2 p before last (by simp))
    · exact .inl (List.mem_singleton.mp here)

/-- A batch of such a cascade releases every parked order that one of its prices reaches. -/
theorem Cascade.releases {x : Batch} (cascade : Cascade d b.parked (b.Harmless d) b₂) (orderly : Orderly b₂ []) (released : x ∈ b₂.releases)
    (observed : px ∈ x.prices) (parked : o ∈ b.parked) (reached : o.ReachedBy px) : x.Releases o := by
  have lasting := lasting_harmless b d
  have clear : Clear d b.parked (b.Harmless d) := fun m harmless z inParked isBuy crossed => (harmless z inParked isBuy crossed).2
  obtain ⟨b',os,orderly',due,facing,rfl⟩ := cascade.releasesLoop lasting clear _ b₂ orderly _ released
  have isBuy : ∀ o ∈ os, o.isBuy = d := fun o member => (due o member).2
  have sameWay : o.isBuy = d := by
    by_contra other
    obtain ⟨z,member,m,harmless,crossed,rfl⟩ := (batchPrices_facing lasting os b' orderly' isBuy facing).1 px observed
    exact clear m harmless z (due z member).1 (due z member).2 crossed o parked other reached
  have ascend : (b'.batchPrices os).Pairwise (Ascends d) := batchPrices_ascend os b' orderly' isBuy fun m member z inBatch crossed =>
    (facing m member z (due z inBatch).1 (due z inBatch).2 crossed).1
  obtain ⟨last,isLast,same | onward⟩ := last_of_pairwise ascend observed
  · exact ⟨last,isLast,same ▸ reached⟩
  · exact ⟨last,isLast,reached.onward (sameWay ▸ onward)⟩

theorem due_of_released {y : Batch} (released : y ∈ b.releases) : ∃ o, o ∈ b.dueBuys ++ b.dueSells := by
  unfold releases Book.releasesLoop at released
  split_ifs at released with none
  · cases released
  · exact List.exists_mem_of_ne_nil _ fun empty => none (by simp [empty])

/-- Under the condition no stop is missed. -/
theorem Settles.missesNone (settles : b.Settles c) (orderly : Orderly b []) (quiet : QuietAt b.market.marketPrice b) (fresh : b.Fresh c) :
    b.MissesNone c := by
  refine ⟨settles.priced,?_⟩
  intro x parked px observed reached
  rcases orderly.opening fresh with none | ⟨f,b₂,opening⟩
  · rw [none] at observed
    cases observed
  · rw [opening.batches] at observed ⊢
    rw [List.exists_mem_cons_iff]
    rcases List.mem_append.mp observed with first | later
    · -- The prices of the first batch are in order, and so its last one reaches the stop.
      left
      obtain ⟨last,isLast,same | later⟩ := last_of_pairwise (settles.inOrder.sublist opening.prices) first
      · exact ⟨last,isLast,same ▸ reached⟩
      · exact ⟨last,isLast,later x parked reached⟩
    · right
      obtain ⟨batch,released,inBatch⟩ := List.mem_flatMap.mp later
      refine ⟨batch,released,?_⟩
      obtain ⟨y,isDue⟩ : ∃ y, y ∈ b₂.dueBuys ++ b₂.dueSells := due_of_released released
      exact (opening.cascade orderly quiet settles.calm isDue).releases opening.orderly released inBatch parked reached

end

/-! ## The condition is necessary -/

/-- What is left behind an order that meets no all-or-none orders, is a cascade in its direction, if its last price reaches no stops of
    the other one. -/
theorem Launch.cascade (launch : Launch b o b₁) (regular : ∀ m ∈ b₁.side o.opposite, m.allOrNone = false)
    (last : px ∈ (b₁.tradePrices o).getLast?) (away : ∀ x ∈ b.parked, x.isBuy ≠ o.isBuy → ¬ x.ReachedBy px) :
    Cascade o.isBuy b.parked (fun m => Ascends o.isBuy px m.price) (b₁.submit o) := by
  refine ⟨fun x member => by rwa [← launch.parked],?_,?_⟩
  · intro m member
    rw [← opposite_eq] at member
    obtain ⟨x,_,_,inSide,terms⟩ := launch.orderly.mem_left member
    exact launch.orderly.left_onward member (terms.allOrNone.trans (regular x.1 inSide)) (List.mem_of_getLast? last)
  · intro x member other
    have isPrice : (b₁.submit o).market.marketPrice = px := by
      rw [(went_submit launch.orderly.handSized).marketPrice,last]
      rfl
    rw [isPrice]
    exact away x (by rwa [← launch.parked]) other

/-- A price of such an order reaches no stops of the other direction, if none is missed. -/
theorem Launch.same_way (launch : Launch b o b₁) (batches : b.batches c = b₁.batchesOf o) (none : b.MissesNone c)
    (regular : ∀ m ∈ b₁.side o.opposite, m.allOrNone = false)
    (away : ∀ px ∈ (b₁.tradePrices o).getLast?, ∀ x ∈ b.parked, x.isBuy ≠ o.isBuy → ¬ x.ReachedBy px)
    (traded : p ∈ b₁.tradePrices o) (parked : x ∈ b.parked) (reached : x.ReachedBy p) : x.isBuy = o.isBuy := by
  by_contra other
  have first : (b₁.batch [o]).prices = b₁.tradePrices o := List.append_nil _
  have observed : p ∈ pricesOf (b.batches c) := by
    rw [batches]
    exact List.mem_append_left _ (by rwa [first])
  obtain ⟨y,member,px,isLast,reached'⟩ := none.released x parked p observed reached
  rw [batches] at member
  rcases List.mem_cons.mp member with rfl | released
  · rw [first] at isLast
    exact away px isLast x parked other reached'
  · -- The released orders meet makers behind the last price, and if one of them reaches the stop, so does this price.
    have last := List.getLast?_eq_some_getLast (List.ne_nil_of_mem traded)
    have away' := away _ last
    have lasting : Lasting fun m => Ascends o.isBuy ((b₁.tradePrices o).getLast (List.ne_nil_of_mem traded)) m.price := by
      intro m m' terms behind
      rwa [terms.price]
    have cascade := launch.cascade regular last away'
    obtain ⟨b',os,orderly',due,facing,rfl⟩ := cascade.releasesLoop lasting
      (fun m behind z _ _ _ x parked other reached => away' x parked other (reached.before other behind)) _ _ launch.orderly.submit _ released
    obtain ⟨_,_,m,behind,_,rfl⟩ := (batchPrices_facing lasting os b' orderly' (fun o member => (due o member).2) facing).1 px
      (List.mem_of_getLast? isLast)
    exact away' x parked other (reached'.before other behind)

/-- A direct command that misses no stop meets the condition. -/
theorem MissesNone.settles (none : b.MissesNone c) (orderly : Orderly b []) (fresh : b.Fresh c) (direct : b.Direct c) : b.Settles c := by
  obtain ⟨regular,away⟩ := direct
  cases sent : b.sends c with
  | some o =>
    obtain ⟨b₁,launch,_,batches⟩ := orderly.launch fresh sent
    have regular' : ∀ m ∈ b.side o.opposite, m.allOrNone = false := regular o sent
    have first : b.firstPrices c = (b₁.reach o).map (·.price) := launch.firstPrices sent
    have prices : b₁.tradePrices o = b.firstPrices c := by rw [first,launch.orderly.tradePrices_eq (by rwa [launch.opposite])]
    have sameWay : ∀ px ∈ b.firstPrices c, ∀ x ∈ b.parked, x.ReachedBy px → x.isBuy = o.isBuy := by
      rw [← prices]
      intro px traded x parked reached
      refine launch.same_way batches none (by rwa [launch.opposite]) ?_ traded parked reached
      intro last isLast x parked other reached
      rw [prices] at isLast
      have same := away last isLast x parked reached
      rw [sent] at same
      exact other (Option.some.inj same)
    refine ⟨none.priced,?_,?_⟩
    · rw [first]
      apply List.Pairwise.imp_of_mem _ (launch.orderly.reach_ascends o)
      intro p q traded _ onward x parked reached
      have same := sameWay p (by rwa [first]) x parked reached
      exact reached.onward (same ▸ onward)
    · intro px traded y parked reached z inParked isBuy m met crossed
      have same := sameWay px traded y parked reached
      have opposite : z.opposite = o.opposite := by rw [opposite_eq,opposite_eq,isBuy,same]
      have inSide : m ∈ b.side o.opposite := by
        have other : o.isBuy = z.isBuy := by rw [isBuy,same]
        have onSide : m ∈ b.side z.opposite ∧ ¬ m.orderId = o.orderId := by simpa [Book.meets,sent,other] using met
        rw [← opposite]
        exact onSide.1
      refine ⟨regular' m inSide,or_iff_not_imp_left.mpr fun without x inParked' other reached' => other ?_⟩
      rw [first] at traded
      obtain ⟨r,within,rfl⟩ := List.mem_map.mp traded
      rw [launch.reached sent] at without
      have beyond := launch.orderly.beyond_reach (by rwa [launch.opposite]) without within
      have before := reached'.before (by rwa [← same]) beyond
      exact (sameWay r.price (by rwa [first]) x inParked' before).trans same.symm
  | none =>
    have still : ∀ px ∈ b.firstPrices c, ∀ x ∈ b.parked, ¬ x.ReachedBy px := by
      cases c with
      | setMarketPrice p =>
        intro px isPrice x parked reached
        obtain rfl := List.mem_singleton.mp isPrice
        cases away _ rfl x parked reached
      | add | cancel | replace => simp [firstPrices,Book.reached,sent]
    refine ⟨none.priced,?_,?_⟩
    · exact List.pairwise_of_forall_mem_list fun p traded q _ x parked reached => absurd reached (still p traded x parked)
    · exact fun px traded y parked reached => absurd reached (still px traded y parked)

end Book

end BaboEngine
