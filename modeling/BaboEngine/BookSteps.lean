import BaboEngine.Allotment
import BaboEngine.Simulation

/-!
# Steps of the abstract book

What a book keeps over any run. An invariant speaks of a book and of the orders in
hand: those that have come in, have been released or have been taken out for a new
price, and are not submitted yet. `Preserved` lists what is to be shown of one;
`Preserved.run` is the induction over runs and over the rounds of released stops.
-/

namespace BaboEngine
open Simulation

/-- The ids of some orders. -/
def ids (os : List SimpleOrder) : List Nat := os.map (·.orderId)

@[simp] theorem ids_nil : ids [] = [] := rfl
@[simp] theorem ids_cons (o : SimpleOrder) (os : List SimpleOrder) : ids (o :: os) = o.orderId :: ids os := rfl
@[simp] theorem ids_append (os os' : List SimpleOrder) : ids (os ++ os') = ids os ++ ids os' := List.map_append

theorem mem_ids {o : SimpleOrder} {os : List SimpleOrder} (member : o ∈ os) : o.orderId ∈ ids os := List.mem_map.mpr ⟨o,member,rfl⟩

section
variable {o : SimpleOrder} {L R : List SimpleOrder}

theorem ids_middle (nodup : (ids (L ++ o :: R)).Nodup) : ∀ x ∈ L ++ R, x.orderId ≠ o.orderId := by
  intro x member same
  rw [ids_append,ids_cons,List.nodup_middle,List.nodup_cons,← ids_append] at nodup
  exact nodup.1 (same ▸ mem_ids member)

/-- Where no id occurs twice, the removal of an id is the removal of its order. -/
theorem filter_middle (nodup : (ids (L ++ o :: R)).Nodup) : (L ++ o :: R).filter (·.orderId ≠ o.orderId) = L ++ R := by
  rw [List.filter_append,List.filter_cons_of_neg (by simp),← List.filter_append]
  exact List.filter_eq_self.mpr fun x member => by simpa using ids_middle nodup x member

end

/-- The id of an order that is accepted or rejected. -/
def OrderEvent.added : OrderEvent → Option Nat
  | .onAccept id => some id
  | .onReject id _ => some id
  | _ => none

/-- Events other than fills. -/
def OrderEvent.isFill : OrderEvent → Bool
  | .onFill .. => true
  | _ => false

/-- The ids that have come in so far. -/
def Market.seen (k : Market) : List Nat := k.events.filterMap OrderEvent.added

namespace SimpleOrder
variable (o : SimpleOrder)

theorem side_ne_opposite : o.side ≠ o.opposite := by
  unfold side opposite
  cases o.isBuy <;> decide

theorem side_cases : o.side = .bids ∨ o.side = .asks := by
  unfold side
  cases o.isBuy <;> simp

theorem opposite_cases : o.opposite = .bids ∨ o.opposite = .asks := by
  unfold opposite
  cases o.isBuy <;> simp

variable {o} {o' : SimpleOrder}

theorem SameTerms.side (same : SameTerms o o') : o'.side = o.side := by simp [SimpleOrder.side,same.isBuy]
theorem SameTerms.stopSide (same : SameTerms o o') : o'.stopSide = o.stopSide := by simp [SimpleOrder.stopSide,same.isBuy]

end SimpleOrder

/-- The call of the listener for a trade. -/
def Trade.event (t : Trade) : OrderEvent :=
  .onFill t.taker.orderId t.maker.orderId t.qty (Market.cost t.maker t.qty)

namespace Market
variable (k : Market) (t : Trade) (ts : List Trade)

@[simp] theorem tradeAll_nil : k.tradeAll [] = k := rfl
@[simp] theorem tradeAll_cons : k.tradeAll (t :: ts) = (k.trade t).tradeAll ts := rfl

/-- What the trades of a pass do to the journal. -/
theorem tradeAll_fields (ts : List Trade) : ∀ k : Market, (k.tradeAll ts).events = k.events ++ ts.map Trade.event ∧
    (k.tradeAll ts).observed = k.observed ++ ts.map (·.maker.price) ∧ (k.tradeAll ts).trades = k.trades ++ ts ∧
    (k.tradeAll ts).submissions = k.submissions ∧ (k.tradeAll ts).rounds = k.rounds ∧ (k.tradeAll ts).parked = k.parked ∧
    (k.tradeAll ts).marketPrice = ((ts.map (·.maker.price)).getLast?).getD k.marketPrice := by
  induction ts with
  | nil => intro k; simp
  | cons t ts ih =>
    intro k
    obtain ⟨events,observed,trades,submissions,rounds,parked,marketPrice⟩ := ih (k.trade t)
    refine ⟨?_,?_,?_,submissions,rounds,parked,?_⟩
    · rw [tradeAll_cons,events]
      simp [Market.trade,Market.emit,Market.observe,Trade.event]
    · rw [tradeAll_cons,observed]
      simp [Market.trade,Market.emit,Market.observe]
    · rw [tradeAll_cons,trades]
      simp [Market.trade]
    · rw [tradeAll_cons,marketPrice,List.map_cons,List.getLast?_cons]
      rfl

@[simp] theorem events_tradeAll : (k.tradeAll ts).events = k.events ++ ts.map Trade.event := (tradeAll_fields ts k).1
@[simp] theorem observed_tradeAll : (k.tradeAll ts).observed = k.observed ++ ts.map (·.maker.price) := (tradeAll_fields ts k).2.1
@[simp] theorem trades_tradeAll : (k.tradeAll ts).trades = k.trades ++ ts := (tradeAll_fields ts k).2.2.1
@[simp] theorem submissions_tradeAll : (k.tradeAll ts).submissions = k.submissions := (tradeAll_fields ts k).2.2.2.1
@[simp] theorem rounds_tradeAll : (k.tradeAll ts).rounds = k.rounds := (tradeAll_fields ts k).2.2.2.2.1
@[simp] theorem parked_tradeAll : (k.tradeAll ts).parked = k.parked := (tradeAll_fields ts k).2.2.2.2.2.1
theorem marketPrice_tradeAll : (k.tradeAll ts).marketPrice = ((ts.map (·.maker.price)).getLast?).getD k.marketPrice :=
  (tradeAll_fields ts k).2.2.2.2.2.2

end Market

namespace Book
variable {b : Book} {o : SimpleOrder} {t : TreeName} {id : Nat} {os hand : List SimpleOrder}

/-! ## The parts of a submission -/

/-- What the opposite side does to a submitted order. -/
def pass (b : Book) (o : SimpleOrder) : Matching := .against o (b.side o.opposite)

/-- The record of a submission. -/
def call (b : Book) (o : SimpleOrder) : Submission :=
  ⟨b.market.marketPrice,o,b.side o.opposite,(b.pass o).trades,(b.market.tradeAll (b.pass o).trades).marketPrice,(b.pass o).inc,
    (b.pass o).makers⟩

theorem pass_eq (sized : o.Sized) : b.pass o = .commit o (Matching.takes o (b.side o.opposite)) :=
  Matching.against_eq sized _

theorem pass_inc (sized : o.Sized) : o.SameTerms (b.pass o).inc ∧ (b.pass o).inc.Sized ∧
    (b.pass o).inc.openQty = o.openQty - Matching.total (Matching.takes o (b.side o.opposite)) := by
  rw [pass_eq sized]
  exact Matching.commit_inc _ sized (Matching.total_takes_le o _)

/-- The book after the matching of an order. -/
def passed (b : Book) (o : SimpleOrder) : Book :=
  { b.put o.opposite (b.pass o).makers with market := (b.market.tradeAll (b.pass o).trades).submitted (b.call o) }

theorem submit_eq (b : Book) (o : SimpleOrder) : b.submit o =
    if Rests o (b.pass o).inc then (b.passed o).insertInto (b.pass o).inc.side (b.pass o).inc else b.passed o := rfl

theorem submit_market (b : Book) (o : SimpleOrder) :
    (b.submit o).market = (b.market.tradeAll (b.pass o).trades).submitted (b.call o) := by
  rw [submit_eq]
  split_ifs <;> rfl

/-- After a submission the opposite side holds the makers that are left. -/
theorem submit_opposite (sized : o.Sized) : (b.submit o).side o.opposite = (b.pass o).makers := by
  have other : (b.pass o).inc.side ≠ o.opposite := by
    rw [(pass_inc sized).1.side]
    exact o.side_ne_opposite
  rw [submit_eq]
  split_ifs
  · show Function.update (Function.update b.side o.opposite (b.pass o).makers) (b.pass o).inc.side _ o.opposite = _
    rw [Function.update_of_ne other.symm,Function.update_self]
  · exact Function.update_self ..

/-- What is left of the order comes to its own side, if it rests. -/
theorem submit_side (sized : o.Sized) : (b.submit o).side o.side =
    if Rests o (b.pass o).inc then (b.side o.side).orderedInsert (Ahead o.side) (b.pass o).inc else b.side o.side := by
  have isSide : (b.pass o).inc.side = o.side := (pass_inc sized).1.side
  have other := o.side_ne_opposite
  rw [submit_eq]
  split_ifs with rests
  · show Function.update (Function.update b.side o.opposite (b.pass o).makers) (b.pass o).inc.side
      (List.orderedInsert (Ahead (b.pass o).inc.side) (b.pass o).inc
        (Function.update b.side o.opposite (b.pass o).makers (b.pass o).inc.side)) o.side = _
    rw [isSide,Function.update_self,Function.update_of_ne other]
  · exact Function.update_of_ne other ..

theorem submit_others (sized : o.Sized) (notSide : t ≠ o.side) (notOpposite : t ≠ o.opposite) : (b.submit o).side t = b.side t := by
  have isSide : (b.pass o).inc.side = o.side := (pass_inc sized).1.side
  rw [submit_eq]
  split_ifs
  · show Function.update (Function.update b.side o.opposite (b.pass o).makers) (b.pass o).inc.side _ t = _
    rw [isSide,Function.update_of_ne notSide,Function.update_of_ne notOpposite]
  · exact Function.update_of_ne notOpposite ..

theorem submit_stops (sized : o.Sized) (stop : t = .stopBids ∨ t = .stopAsks) : (b.submit o).side t = b.side t := by
  refine submit_others sized ?_ ?_
  · rcases stop with rfl | rfl <;> rcases o.side_cases with same | same <;> rw [same] <;> decide
  · rcases stop with rfl | rfl <;> rcases o.opposite_cases with same | same <;> rw [same] <;> decide

/-! ## How often an id occurs -/

/-- How often an id occurs on the four sides. -/
def occurs (b : Book) (id : Nat) : Nat :=
  (ids (b.side .bids)).count id + (ids (b.side .asks)).count id + (ids (b.side .stopBids)).count id +
    (ids (b.side .stopAsks)).count id

theorem occurs_put (b : Book) (t : TreeName) (os : List SimpleOrder) (id : Nat) :
    (b.put t os).occurs id + (ids (b.side t)).count id = b.occurs id + (ids os).count id := by
  cases t <;> simp [occurs,put] <;> omega

theorem count_le_occurs (b : Book) (t : TreeName) (id : Nat) : (ids (b.side t)).count id ≤ b.occurs id := by
  cases t <;> unfold occurs <;> omega

theorem count_two_le_occurs (b : Book) {t t' : TreeName} (other : t ≠ t') (id : Nat) :
    (ids (b.side t)).count id + (ids (b.side t')).count id ≤ b.occurs id := by
  cases t <;> cases t' <;> first | exact absurd rfl other | (unfold occurs; omega)

theorem count_orderedInsert (t : TreeName) (o : SimpleOrder) (os : List SimpleOrder) (id : Nat) :
    (ids (os.orderedInsert (Ahead t) o)).count id = (ids (o :: os)).count id :=
  ((List.perm_orderedInsert (Ahead t) o os).map _).count_eq id

theorem count_while (due : SimpleOrder → Bool) (os : List SimpleOrder) (id : Nat) :
    (ids (os.takeWhile due)).count id + (ids (os.dropWhile due)).count id = (ids os).count id := by
  rw [← List.count_append,← ids_append,List.takeWhile_append_dropWhile]

theorem pass_map {β : Type} (f : SimpleOrder → β) (stable : ∀ o q c, f (o.fill q c) = f o) (sized : o.Sized) :
    ((b.pass o).makers.map f).Sublist ((b.side o.opposite).map f) := by
  have makersIs := congrArg (List.map f) (Matching.takes_makers o (b.side o.opposite))
  rw [pass_eq sized,Matching.commit_makers,← makersIs,List.map_map]
  exact Matching.left_map f stable _

theorem count_pass (sized : o.Sized) (id : Nat) : (ids (b.pass o).makers).count id ≤ (ids (b.side o.opposite)).count id :=
  (pass_map _ (fun o _ _ => o.fill_orderId _ _) sized).count_le id

/-- A submission brings no more than the order in hand. -/
theorem occurs_submit (sized : o.Sized) (id : Nat) : (b.submit o).occurs id ≤ b.occurs id + [o.orderId].count id := by
  have isSide : (b.pass o).inc.side = o.side := (pass_inc sized).1.side
  have isId : (b.pass o).inc.orderId = o.orderId := (pass_inc sized).1.orderId
  have fewer := count_pass (b := b) sized id
  have passed := occurs_put b o.opposite (b.pass o).makers id
  rw [submit_eq]
  split_ifs
  · show ((b.put o.opposite (b.pass o).makers).put (b.pass o).inc.side
      (((b.put o.opposite (b.pass o).makers).side (b.pass o).inc.side).orderedInsert (Ahead _) (b.pass o).inc)).occurs id ≤ _
    have rested := occurs_put (b.put o.opposite (b.pass o).makers) (b.pass o).inc.side
      (((b.put o.opposite (b.pass o).makers).side (b.pass o).inc.side).orderedInsert (Ahead (b.pass o).inc.side) (b.pass o).inc) id
    rw [count_orderedInsert,ids_cons,List.count_cons,isId] at rested
    rw [List.count_singleton]
    omega
  · show (b.put o.opposite (b.pass o).makers).occurs id ≤ _
    omega

/-! ## What a command can do -/

theorem find_some (found : b.find t id = some o) : o ∈ b.side t ∧ o.orderId = id :=
  ⟨List.mem_of_find?_eq_some found,by simpa using List.find?_some found⟩

theorem find_none (found : b.find t id = none) : ∀ o ∈ b.side t, o.orderId ≠ id := by
  simpa [find] using found

theorem holder_some {ts : List TreeName} (found : b.holder id ts = some t) : t ∈ ts ∧ ∃ o ∈ b.side t, o.orderId = id := by
  refine ⟨List.mem_of_find?_eq_some found,?_⟩
  have isFound : (b.find t id).isSome := List.find?_some (p := fun t => (b.find t id).isSome) found
  obtain ⟨o,isFound⟩ := Option.isSome_iff_exists.mp isFound
  exact ⟨o,find_some isFound⟩

theorem holder_none {ts : List TreeName} (found : b.holder id ts = none) (member : t ∈ ts) : ∀ o ∈ b.side t, o.orderId ≠ id := by
  have notFound := List.find?_eq_none.mp found t member
  exact find_none (by simpa using notFound)

/-- A replace in place takes the order out. -/
abbrev Collapses (o : SimpleOrder) (sizeDelta : Int) : Prop := sizeDelta < 0 ∧ toU32 (-sizeDelta) ≥ o.openQty

/-- A replace is not in place. -/
abbrev Reprices (o : SimpleOrder) (newPrice : Nat) : Prop := newPrice ≠ priceUnchanged ∧ newPrice ≠ o.price

/-- The ways in which a command ends. -/
inductive Outcome (b : Book) : Command → Book → Prop where
  | rejected isBuy price stopPrice conditions orderId (qty : UInt32) : qty.toNat = 0 →
      Outcome b (.add isBuy price qty stopPrice conditions orderId) (b.emit (.onReject orderId.toNat "size must be positive"))
  | parked isBuy price qty stopPrice conditions orderId o : o = SimpleOrder.new isBuy price qty stopPrice conditions orderId →
      qty.toNat ≠ 0 → o.stopPrice ≠ 0 → b.isStopped o →
      Outcome b (.add isBuy price qty stopPrice conditions orderId) ((b.emit (.onAccept orderId.toNat)).parkStop o)
  | live isBuy price qty stopPrice conditions orderId o : o = SimpleOrder.new isBuy price qty stopPrice conditions orderId →
      qty.toNat ≠ 0 → ¬ (o.stopPrice ≠ 0 ∧ b.isStopped o) →
      Outcome b (.add isBuy price qty stopPrice conditions orderId)
        ((b.emit (.onAccept orderId.toNat)).submit o).processTriggered
  | cancelled (orderId : UInt32) t o : o ∈ b.side t → o.orderId = orderId.toNat →
      Outcome b (.cancel orderId) ((b.eraseFrom t o.orderId).emit (.onCancel o.orderId))
  | cancelRejected (orderId : UInt32) : (∀ t, ∀ o ∈ b.side t, o.orderId ≠ orderId.toNat) →
      Outcome b (.cancel orderId) (b.emit (.onCancelReject orderId.toNat "not found"))
  | replaceRejected (orderId : UInt32) sizeDelta newPrice :
      (∀ t, t = .bids ∨ t = .asks → ∀ o ∈ b.side t, o.orderId ≠ orderId.toNat) →
      Outcome b (.replace orderId sizeDelta newPrice) (b.emit (.onReplaceReject orderId.toNat "not found"))
  | collapsed (orderId : UInt32) (sizeDelta : Int32) (newPrice : UInt64) t o : t = .bids ∨ t = .asks → o ∈ b.side t →
      o.orderId = orderId.toNat → ¬ Reprices o newPrice.toNat → Collapses o sizeDelta.toInt →
      Outcome b (.replace orderId sizeDelta newPrice)
        ((b.eraseFrom t o.orderId).emit (.onReplace o.orderId sizeDelta.toInt o.price))
  | resized (orderId : UInt32) (sizeDelta : Int32) (newPrice : UInt64) t o : t = .bids ∨ t = .asks → o ∈ b.side t →
      o.orderId = orderId.toNat → ¬ Reprices o newPrice.toNat → ¬ Collapses o sizeDelta.toInt →
      Outcome b (.replace orderId sizeDelta newPrice)
        ((b.edit t o.orderId fun o => o.modify sizeDelta.toInt priceUnchanged).emit (.onReplace o.orderId sizeDelta.toInt o.price))
  | emptied (orderId : UInt32) (sizeDelta : Int32) (newPrice : UInt64) t o copy : t = .bids ∨ t = .asks → o ∈ b.side t →
      o.orderId = orderId.toNat → Reprices o newPrice.toNat → copy = o.modify sizeDelta.toInt newPrice.toNat → copy.openQty = 0 →
      Outcome b (.replace orderId sizeDelta newPrice)
        ((b.eraseFrom t o.orderId).emit (.onReplace o.orderId sizeDelta.toInt copy.price))
  | repriced (orderId : UInt32) (sizeDelta : Int32) (newPrice : UInt64) t o copy : t = .bids ∨ t = .asks → o ∈ b.side t →
      o.orderId = orderId.toNat → Reprices o newPrice.toNat → copy = o.modify sizeDelta.toInt newPrice.toNat → copy.openQty ≠ 0 →
      Outcome b (.replace orderId sizeDelta newPrice)
        (((b.eraseFrom t o.orderId).emit (.onReplace o.orderId sizeDelta.toInt copy.price)).submit copy).processTriggered
  | observed (px : UInt64) :
      Outcome b (.setMarketPrice px) ({ b with market := b.market.observe px.toNat } : Book).processTriggered

theorem replaceOrder_outcome {orderId : UInt32} (sizeDelta : Int32) (newPrice : UInt64) (resting : t = .bids ∨ t = .asks)
    (found : b.find t orderId.toNat = some o) :
    Outcome b (.replace orderId sizeDelta newPrice) (b.replaceOrder t o sizeDelta.toInt newPrice.toNat) := by
  obtain ⟨member,isId⟩ := find_some found
  unfold replaceOrder
  split_ifs with moves
  · simp only [reprice]
    split_ifs with empty
    · exact .emptied orderId sizeDelta newPrice t o _ resting member isId moves rfl empty
    · exact .repriced orderId sizeDelta newPrice t o _ resting member isId moves rfl empty
  · unfold resize
    split_ifs with collapses
    · exact .collapsed orderId sizeDelta newPrice t o resting member isId moves collapses
    · exact .resized orderId sizeDelta newPrice t o resting member isId moves collapses

theorem step_outcome (b : Book) (c : Command) : Outcome b c (b.step c) := by
  cases c with
  | add isBuy price qty stopPrice conditions orderId =>
    show Outcome b _ (b.add (.new isBuy price qty stopPrice conditions orderId))
    simp only [add]
    split_ifs with empty stopped
    · exact .rejected isBuy price stopPrice conditions orderId qty empty
    · exact .parked isBuy price qty stopPrice conditions orderId _ rfl empty stopped.1 stopped.2
    · exact .live isBuy price qty stopPrice conditions orderId _ rfl empty stopped
  | cancel orderId =>
    show Outcome b _ (b.cancel orderId.toNat)
    unfold cancel
    cases found : b.holder orderId.toNat [.bids,.asks,.stopBids,.stopAsks] with
    | some t =>
      obtain ⟨_,o,member,isId⟩ := holder_some found
      simp only [← isId]
      exact .cancelled orderId t o member isId
    | none => exact .cancelRejected orderId fun t => holder_none found (by cases t <;> simp)
  | replace orderId sizeDelta newPrice =>
    show Outcome b _ (b.replace orderId.toNat sizeDelta.toInt newPrice.toNat)
    unfold replace
    cases bid : b.find .bids orderId.toNat with
    | some o => exact replaceOrder_outcome sizeDelta newPrice (.inl rfl) bid
    | none =>
      cases ask : b.find .asks orderId.toNat with
      | some o => exact replaceOrder_outcome sizeDelta newPrice (.inr rfl) ask
      | none =>
        refine .replaceRejected orderId sizeDelta newPrice ?_
        rintro t (rfl | rfl)
        · exact find_none bid
        · exact find_none ask
  | setMarketPrice px => exact .observed px

/-! ## Invariants -/

/-- The invariant that says nothing. -/
abbrev Anything : Book → List SimpleOrder → Prop := fun _ _ => True

/-- What an invariant is to be shown of for the rounds of released stops, where `Base` is known to hold throughout. -/
structure Carried (Base Inv : Book → List SimpleOrder → Prop) : Prop where
  submit : ∀ b o hand, Base b (o :: hand) → Inv b (o :: hand) → Inv (b.submit o) hand
  scan : ∀ b, Base b [] → Inv b [] → Inv b.scanned (b.dueBuys ++ b.dueSells)
  released : ∀ b r, Base b [] → Inv b [] → Inv { b with market := b.market.released r } []

/-- What it is to be shown of for the commands, of which those are considered that satisfy `ok`. -/
structure Preserved (Base : Book → List SimpleOrder → Prop) (ok : Book → Command → Prop)
    (Inv : Book → List SimpleOrder → Prop) : Prop extends Carried Base Inv where
  emit : ∀ b hand e, e.isFill = false → Base b hand → Inv b hand → Inv (b.emit e) hand
  arrive : ∀ b isBuy price qty stopPrice conditions orderId, ok b (.add isBuy price qty stopPrice conditions orderId) →
    qty.toNat ≠ 0 → Base b [] → Inv b [] →
    Inv (b.emit (.onAccept orderId.toNat)) [.new isBuy price qty stopPrice conditions orderId]
  park : ∀ b o, o.stopPrice ≠ 0 → b.isStopped o → Base b [o] → Inv b [o] → Inv (b.parkStop o) []
  erase : ∀ b t o, o ∈ b.side t → Base b [] → Inv b [] → Inv (b.eraseFrom t o.orderId) []
  resize : ∀ b t o orderId sizeDelta newPrice, t = .bids ∨ t = .asks → o ∈ b.side t → o.orderId = orderId.toNat →
    ok b (.replace orderId sizeDelta newPrice) → ¬ Reprices o newPrice.toNat → ¬ Collapses o sizeDelta.toInt →
    Base b [] → Inv b [] → Inv (b.edit t o.orderId fun o => o.modify sizeDelta.toInt priceUnchanged) []
  reprice : ∀ b t o orderId sizeDelta newPrice, t = .bids ∨ t = .asks → o ∈ b.side t → o.orderId = orderId.toNat →
    ok b (.replace orderId sizeDelta newPrice) → newPrice.toNat ≠ priceUnchanged →
    (o.modify sizeDelta.toInt newPrice.toNat).openQty ≠ 0 →
    Base b [] → Inv b [] → Inv (b.eraseFrom t o.orderId) [o.modify sizeDelta.toInt newPrice.toNat]
  observe : ∀ b px, Base b [] → Inv b [] → Inv { b with market := b.market.observe px } []

section
variable {Base Inv : Book → List SimpleOrder → Prop} {ok ok' : Book → Command → Prop} {c : Command} {cs : List Command}

theorem Carried.above (base : Carried Anything Base) (kept : Carried Base Inv) :
    Carried Anything fun b hand => Base b hand ∧ Inv b hand where
  submit b o hand _ inv := ⟨base.submit b o hand trivial inv.1,kept.submit b o hand inv.1 inv.2⟩
  scan b _ inv := ⟨base.scan b trivial inv.1,kept.scan b inv.1 inv.2⟩
  released b r _ inv := ⟨base.released b r trivial inv.1,kept.released b r inv.1 inv.2⟩

/-- An invariant shown on top of another one. -/
theorem Preserved.above (base : Preserved Anything ok Base) (kept : Preserved Base ok Inv) :
    Preserved Anything ok fun b hand => Base b hand ∧ Inv b hand where
  toCarried := base.toCarried.above kept.toCarried
  emit b hand e notFill _ inv := ⟨base.emit b hand e notFill trivial inv.1,kept.emit b hand e notFill inv.1 inv.2⟩
  arrive b isBuy price qty stopPrice conditions orderId admitted some _ inv :=
    ⟨base.arrive b isBuy price qty stopPrice conditions orderId admitted some trivial inv.1,
      kept.arrive b isBuy price qty stopPrice conditions orderId admitted some inv.1 inv.2⟩
  park b o isStop stopped _ inv := ⟨base.park b o isStop stopped trivial inv.1,kept.park b o isStop stopped inv.1 inv.2⟩
  erase b t o member _ inv := ⟨base.erase b t o member trivial inv.1,kept.erase b t o member inv.1 inv.2⟩
  resize b t o orderId sizeDelta newPrice resting member isId admitted unmoved stays _ inv :=
    ⟨base.resize b t o orderId sizeDelta newPrice resting member isId admitted unmoved stays trivial inv.1,
      kept.resize b t o orderId sizeDelta newPrice resting member isId admitted unmoved stays inv.1 inv.2⟩
  reprice b t o orderId sizeDelta newPrice resting member isId admitted moves left _ inv :=
    ⟨base.reprice b t o orderId sizeDelta newPrice resting member isId admitted moves left trivial inv.1,
      kept.reprice b t o orderId sizeDelta newPrice resting member isId admitted moves left inv.1 inv.2⟩
  observe b px _ inv := ⟨base.observe b px trivial inv.1,kept.observe b px inv.1 inv.2⟩

/-- Two invariants shown side by side. -/
theorem Preserved.and {Inv' : Book → List SimpleOrder → Prop} (first : Preserved Base ok Inv) (second : Preserved Base ok Inv') :
    Preserved Base ok fun b hand => Inv b hand ∧ Inv' b hand where
  submit b o hand base inv := ⟨first.submit b o hand base inv.1,second.submit b o hand base inv.2⟩
  scan b base inv := ⟨first.scan b base inv.1,second.scan b base inv.2⟩
  released b r base inv := ⟨first.released b r base inv.1,second.released b r base inv.2⟩
  emit b hand e notFill base inv := ⟨first.emit b hand e notFill base inv.1,second.emit b hand e notFill base inv.2⟩
  arrive b _ _ _ _ _ _ admitted some base inv :=
    ⟨first.arrive b _ _ _ _ _ _ admitted some base inv.1,second.arrive b _ _ _ _ _ _ admitted some base inv.2⟩
  park b o isStop stopped base inv := ⟨first.park b o isStop stopped base inv.1,second.park b o isStop stopped base inv.2⟩
  erase b t o member base inv := ⟨first.erase b t o member base inv.1,second.erase b t o member base inv.2⟩
  resize b t o _ _ _ resting member isId admitted unmoved stays base inv :=
    ⟨first.resize b t o _ _ _ resting member isId admitted unmoved stays base inv.1,
      second.resize b t o _ _ _ resting member isId admitted unmoved stays base inv.2⟩
  reprice b t o _ _ _ resting member isId admitted moves left base inv :=
    ⟨first.reprice b t o _ _ _ resting member isId admitted moves left base inv.1,
      second.reprice b t o _ _ _ resting member isId admitted moves left base inv.2⟩
  observe b px base inv := ⟨first.observe b px base inv.1,second.observe b px base inv.2⟩

/-- Fewer commands are considered. -/
theorem Preserved.restrict (preserved : Preserved Base ok Inv) (stronger : ∀ b c, ok' b c → ok b c) : Preserved Base ok' Inv :=
  { preserved with
    arrive := fun b _ _ _ _ _ _ admitted => preserved.arrive b _ _ _ _ _ _ (stronger b _ admitted)
    resize := fun b t o _ _ _ resting member isId admitted =>
      preserved.resize b t o _ _ _ resting member isId (stronger b _ admitted)
    reprice := fun b t o _ _ _ resting member isId admitted =>
      preserved.reprice b t o _ _ _ resting member isId (stronger b _ admitted) }

theorem Carried.submitAll (carried : Carried Anything Inv) (fired : List SimpleOrder) : ∀ b, Inv b fired → Inv (b.submitAll fired) [] := by
  induction fired with
  | nil => exact fun b inv => inv
  | cons o fired ih => exact fun b inv => ih (b.submit o) (carried.submit b o fired trivial inv)

theorem Carried.fire (carried : Carried Anything Inv) (inv : Inv b []) : Inv b.fire [] :=
  carried.released _ _ trivial (carried.submitAll _ _ (carried.scan b trivial inv))

theorem Carried.processTriggeredLoop (carried : Carried Anything Inv) (rounds : Nat) : ∀ b, Inv b [] →
    Inv (b.processTriggeredLoop rounds) [] := by
  induction rounds with
  | zero => exact fun b inv => inv
  | succ rounds ih =>
    intro b inv
    unfold Book.processTriggeredLoop
    split_ifs
    · exact inv
    · exact ih b.fire (carried.fire inv)

theorem Carried.processTriggered (carried : Carried Anything Inv) (inv : Inv b []) : Inv b.processTriggered [] :=
  carried.processTriggeredLoop _ b inv

theorem Preserved.outcome {b' : Book} (preserved : Preserved Anything ok Inv) (outcome : Outcome b c b') (admitted : ok b c)
    (inv : Inv b []) : Inv b' [] := by
  cases outcome with
  | rejected => exact preserved.emit _ _ _ rfl trivial inv
  | parked isBuy price qty stopPrice conditions orderId o isNew some isStop stopped =>
    subst isNew
    exact preserved.park _ _ isStop stopped trivial (preserved.arrive _ _ _ _ _ _ _ admitted some trivial inv)
  | live isBuy price qty stopPrice conditions orderId o isNew some =>
    subst isNew
    exact preserved.processTriggered (preserved.submit _ _ _ trivial (preserved.arrive _ _ _ _ _ _ _ admitted some trivial inv))
  | cancelled orderId t o member => exact preserved.emit _ _ _ rfl trivial (preserved.erase b t o member trivial inv)
  | cancelRejected => exact preserved.emit _ _ _ rfl trivial inv
  | replaceRejected => exact preserved.emit _ _ _ rfl trivial inv
  | collapsed orderId sizeDelta newPrice t o _ member =>
    exact preserved.emit _ _ _ rfl trivial (preserved.erase b t o member trivial inv)
  | resized orderId sizeDelta newPrice t o resting member isId unmoved stays =>
    exact preserved.emit _ _ _ rfl trivial
      (preserved.resize b t o orderId sizeDelta newPrice resting member isId admitted unmoved stays trivial inv)
  | emptied orderId sizeDelta newPrice t o _ _ member =>
    exact preserved.emit _ _ _ rfl trivial (preserved.erase b t o member trivial inv)
  | repriced orderId sizeDelta newPrice t o copy resting member isId moves isCopy left =>
    subst isCopy
    exact preserved.processTriggered (preserved.submit _ _ _ trivial (preserved.emit _ _ _ rfl trivial
      (preserved.reprice b t o orderId sizeDelta newPrice resting member isId admitted moves.1 left trivial inv)))
  | observed px => exact preserved.processTriggered (preserved.observe b px.toNat trivial inv)

/-- An invariant is kept by every command. -/
theorem Preserved.step (preserved : Preserved Anything ok Inv) (admitted : ok b c) (inv : Inv b []) : Inv (b.step c) [] :=
  preserved.outcome (step_outcome b c) admitted inv

/-- An invariant holds after every run. -/
theorem Preserved.run (preserved : Preserved Anything ok Inv) (cs : List Command) : ∀ b, Inv b [] → Admitted ok Book.step b cs →
    Inv (cs.foldl Book.step b) [] := by
  induction cs with
  | nil => exact fun b inv _ => inv
  | cons c cs ih => exact fun b inv ⟨first,rest⟩ => ih (b.step c) (preserved.step first inv) rest

end

end Book

end BaboEngine
