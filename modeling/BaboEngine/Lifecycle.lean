import BaboEngine.Conservation

/-!
# The life of an order

What the listener hears of an order: a rejection, or that it is accepted, then its fills and
replaces, then at most that it is cancelled. Nothing is filled of an order that is parked or gone.
-/

namespace BaboEngine
open Simulation

/-- An event names an order, unless it refuses a cancel or a replace. -/
def OrderEvent.names (id : Nat) : OrderEvent → Bool
  | .onAccept orderId => orderId = id
  | .onReject orderId _ => orderId = id
  | .onFill orderId matchedOrderId _ _ => orderId = id ∨ matchedOrderId = id
  | .onCancel orderId => orderId = id
  | .onReplace orderId _ _ => orderId = id
  | .onCancelReject .. => false
  | .onReplaceReject .. => false

/-- Fills and replaces. -/
def OrderEvent.inLife : OrderEvent → Bool
  | .onFill .. => true
  | .onReplace .. => true
  | _ => false

/-- The events that name an id. -/
def Market.history (k : Market) (id : Nat) : List OrderEvent := k.events.filter (OrderEvent.names id)

/-- The history of an order that is accepted and not cancelled. -/
def Living (id : Nat) (es : List OrderEvent) : Prop := ∃ mid, es = .onAccept id :: mid ∧ ∀ e ∈ mid, e.inLife

/-- The history of an order that is not there: it has not come in, is rejected, or has lived. -/
inductive Over (id : Nat) : List OrderEvent → Prop where
  | unseen : Over id []
  | rejected reason : Over id [.onReject id reason]
  | lived es : Living id es → Over id es
  | cancelled es : Living id es → Over id (es ++ [.onCancel id])

theorem Living.append {id : Nat} {es es' : List OrderEvent} (living : Living id es)
    (inLife : ∀ e ∈ es', e.inLife) : Living id (es ++ es') := by
  obtain ⟨mid,rfl,all⟩ := living
  refine ⟨mid ++ es',rfl,?_⟩
  intro e member
  cases List.mem_append.mp member with
  | inl old => exact all e old
  | inr new => exact inLife e new

/-- A trade names an order. -/
def Trade.names (t : Trade) (id : Nat) : Prop := t.taker.orderId = id ∨ t.maker.orderId = id

/-- A trade leaves an order no open quantity. -/
def Trade.exhausts (t : Trade) (id : Nat) : Prop :=
  t.taker.orderId = id ∧ t.qty = t.taker.openQty ∨ t.maker.orderId = id ∧ t.qty = t.maker.openQty

namespace Matching
variable {takes : List (SimpleOrder × Option Nat)}

/-- An order that a trade exhausts: a maker of which all is taken, or the incoming order, of which nothing is left. -/
theorem commit_exhausts (takes : List (SimpleOrder × Option Nat)) : ∀ {inc : SimpleOrder}, inc.Sized → total takes ≤ inc.openQty →
    ∀ t ∈ (commit inc takes).trades, ∀ id, t.exhausts id →
      inc.orderId = id ∧ total takes = inc.openQty ∨ t.maker.orderId = id ∧ (t.maker,some t.maker.openQty) ∈ takes := by
  induction takes with
  | nil => intro inc _ _ t member; simp [commit] at member
  | cons m takes ih =>
    intro inc sized enough t member id exhausts
    obtain ⟨maker,_ | q⟩ := m
    · exact (ih sized enough t member id exhausts).imp_right fun both => ⟨both.1,List.mem_cons_of_mem _ both.2⟩
    · rw [total_some] at enough ⊢
      rcases List.mem_cons.mp member with rfl | later
      · rcases exhausts with ⟨isId,whole⟩ | ⟨isId,whole⟩
        · have whole : q = inc.openQty := whole
          exact .inl ⟨isId,by omega⟩
        · have whole : q = maker.openQty := whole
          exact .inr ⟨isId,by simp [whole]⟩
      · have opened := sized.openQty_fill (q := q) (c := Market.cost maker q) (by omega)
        rcases ih (sized.fill q (Market.cost maker q)) (by omega) t later id exhausts with ⟨isId,all⟩ | ⟨isId,inTakes⟩
        · rw [inc.fill_orderId] at isId
          exact .inl ⟨isId,by omega⟩
        · exact .inr ⟨isId,List.mem_cons_of_mem _ inTakes⟩

/-- No trade of a pass names an order that one before it exhausts. -/
theorem commit_spent (takes : List (SimpleOrder × Option Nat)) : ∀ {inc : SimpleOrder}, inc.Sized → total takes ≤ inc.openQty →
    (takes.map fun m => m.1.orderId).Nodup → (∀ m ∈ takes, m.1.orderId ≠ inc.orderId) → (∀ m q, (m,some q) ∈ takes → 0 < q) →
    (commit inc takes).trades.Pairwise fun t t' => ∀ id, t.exhausts id → ¬ t'.names id := by
  induction takes with
  | nil => intro inc _ _ _ _ _; exact .nil
  | cons m takes ih =>
    intro inc sized enough nodup apart positive
    obtain ⟨notInRest,nodup'⟩ := List.nodup_cons.mp nodup
    obtain ⟨other,apart'⟩ := List.forall_mem_cons.mp apart
    have positive' : ∀ m q, (m,some q) ∈ takes → 0 < q := fun m q member => positive m q (List.mem_cons_of_mem _ member)
    obtain ⟨maker,_ | q⟩ := m
    · exact ih sized enough nodup' apart' positive'
    · rw [total_some] at enough
      have opened := sized.openQty_fill (q := q) (c := Market.cost maker q) (by omega)
      have sized' := sized.fill q (Market.cost maker q)
      refine List.pairwise_cons.mpr ⟨?_,ih sized' (by omega) nodup' (by simpa using apart') positive'⟩
      intro t later id exhausts names
      have taker := (commit_takers takes sized' (by omega) t later).1.orderId
      have pair : (t.maker,some t.qty) ∈ takes := by
        rw [← mem_taken,← commit_trades takes (inc.fill q (Market.cost maker q))]
        exact List.mem_map.mpr ⟨t,later,rfl⟩
      rw [inc.fill_orderId] at taker
      have makerId : t.maker.orderId ∈ takes.map fun m => m.1.orderId := List.mem_map.mpr ⟨_,pair,rfl⟩
      rcases exhausts with ⟨rfl,whole⟩ | ⟨rfl,_⟩
      · -- The incoming order is exhausted: nothing is left for a later trade.
        have whole : q = inc.openQty := whole
        have more : 0 < total takes := by
          rw [total_eq]
          exact List.sum_pos_iff_exists_pos_nat.mpr ⟨t.qty,List.mem_map.mpr ⟨_,mem_taken.mpr pair,rfl⟩,positive' _ _ pair⟩
        omega
      · cases names with
        | inl isTaker => exact other (isTaker.symm.trans taker)
        | inr isMaker =>
          rw [isMaker] at makerId
          exact notInRest makerId

end Matching

namespace Book
variable {b b' : Book} {o x : SimpleOrder} {t : TreeName} {hand hand' : List SimpleOrder} {c : Command} {k : Market} {id : Nat} {e : OrderEvent}

/-- An id on a side or in hand. -/
def Present (b : Book) (hand : List SimpleOrder) (id : Nat) : Prop := ∃ x, b.Among hand x ∧ x.orderId = id

/-! ## Histories -/

/-- What the listener has heard of every order. -/
structure Lived (b : Book) (hand : List SimpleOrder) : Prop where
  present : ∀ id, b.Present hand id → Living id (b.market.history id)
  absent : ∀ id, ¬ b.Present hand id → Over id (b.market.history id)
  unseen : ∀ id ∉ b.market.seen, b.market.history id = []

theorem history_emit (b : Book) (e : OrderEvent) (id : Nat) : (b.emit e).market.history id =
    b.market.history id ++ if e.names id then [e] else [] := by
  show (b.market.events ++ [e]).filter (OrderEvent.names id) = _
  rw [List.filter_append]
  congr 1
  split_ifs with named
  · exact List.filter_cons_of_pos named
  · exact List.filter_cons_of_neg named

/-- Orders leave. -/
theorem Lived.fewer (lived : Lived b hand) (events : b'.market.events = b.market.events)
    (ids : ∀ id, b'.Present hand' id → b.Present hand id) : Lived b' hand' := by
  have same : ∀ id, b'.market.history id = b.market.history id := fun id => congrArg (List.filter (OrderEvent.names id)) events
  refine ⟨?_,?_,?_⟩
  · intro id present
    rw [same]
    exact lived.present id (ids id present)
  · intro id _
    rw [same]
    by_cases before : b.Present hand id
    · exact .lived _ (lived.present id before)
    · exact lived.absent id before
  · intro id unseen
    rw [same]
    apply lived.unseen id
    rwa [Market.seen,events] at unseen

theorem Orderly.present_seen (orderly : Orderly b hand) (present : b.Present hand id) : id ∈ b.market.seen := by
  by_contra unseen
  obtain ⟨onSides,inHand⟩ := orderly.unseen_absent unseen
  obtain ⟨x,among | ⟨t,inSide⟩,isId⟩ := present
  · exact inHand x among isId
  · exact onSides t x inSide isId

/-- An event in the life of an order that is there. -/
theorem Lived.emit (lived : Lived b hand) (orderly : Orderly b hand)
    (inLife : ∀ id, e.names id → e.inLife ∧ b.Present hand id) (noOrder : e.added = none) :
    Lived (b.emit e) hand := by
  refine ⟨?_,?_,?_⟩
  · intro id present
    rw [history_emit]
    apply (lived.present id present).append
    split_ifs with named
    · exact List.forall_mem_singleton.mpr (inLife id named).1
    · simp
  · intro id absent
    rw [history_emit,if_neg fun named => absent (inLife id named).2,List.append_nil]
    exact lived.absent id absent
  · intro id unseen
    rw [seen_emit,noOrder,Option.toList_none,List.append_nil] at unseen
    rw [history_emit,if_neg fun named => unseen (orderly.present_seen (inLife id named).2),List.append_nil]
    exact lived.unseen id unseen

/-- The fills of a submission name orders that are there. -/
theorem Orderly.fills_present (orderly : Orderly b (o :: hand)) {t : Trade} (member : t ∈ (b.pass o).trades) :
    t.taker.orderId = o.orderId ∧ t.maker ∈ b.side o.opposite := by
  constructor
  · rw [Book.pass_eq orderly.handSized] at member
    exact (Matching.commit_takers _ orderly.handSized (Matching.total_takes_le o _) t member).1.orderId
  · rw [← Matching.allot_makers o (b.side o.opposite) o.openQty]
    exact List.mem_map_of_mem (f := Prod.fst) (orderly.mem_trades member)

theorem history_submit (b : Book) (o : SimpleOrder) (id : Nat) : (b.submit o).market.history id =
    b.market.history id ++ ((b.pass o).trades.map Trade.event).filter (OrderEvent.names id) := by
  unfold Market.history
  rw [events_submit,List.filter_append]

theorem lived_carried : Carried Orderly Lived where
  submit b o hand orderly lived := by
    have before : ∀ id, (b.submit o).Present hand id → b.Present (o :: hand) id := by
      rintro id ⟨x,among,isId⟩
      obtain ⟨y,among',sameId,_⟩ := among_submit orderly among
      exact ⟨y,among',sameId.trans isId⟩
    have fills : ∀ id, ∀ e ∈ ((b.pass o).trades.map Trade.event).filter (OrderEvent.names id), e.inLife ∧ b.Present (o :: hand) id := by
      intro id e member
      obtain ⟨isEvent,named⟩ := List.mem_filter.mp member
      obtain ⟨t,inTrades,rfl⟩ := List.mem_map.mp isEvent
      obtain ⟨taker,maker⟩ := orderly.fills_present inTrades
      refine ⟨rfl,?_⟩
      rcases (by simpa [OrderEvent.names,Trade.event] using named : t.taker.orderId = id ∨ t.maker.orderId = id) with isId | isId
      · exact ⟨o,.inl (by simp),taker.symm.trans isId⟩
      · exact ⟨t.maker,.inr ⟨_,maker⟩,isId⟩
    have still : ∀ id, ¬ b.Present (o :: hand) id → (b.submit o).market.history id = b.market.history id := by
      intro id absent
      rw [history_submit,List.eq_nil_iff_forall_not_mem.mpr fun e member => absent (fills id e member).2,List.append_nil]
    refine ⟨?_,?_,?_⟩
    · intro id present
      rw [history_submit]
      exact (lived.present id (before id present)).append fun e member => (fills id e member).1
    · intro id _
      by_cases present : b.Present (o :: hand) id
      · rw [history_submit]
        exact .lived _ ((lived.present id present).append fun e member => (fills id e member).1)
      · rw [still id present]
        exact lived.absent id present
    · intro id unseen
      rw [seen_submit] at unseen
      rw [still id fun present => unseen (orderly.present_seen present)]
      exact lived.unseen id unseen
  scan b _ lived := by
    refine lived.fewer rfl ?_
    rintro id ⟨x,inHand | ⟨t,inSide⟩,isId⟩
    · rcases mem_due inHand with m | m <;> exact ⟨x,.inr ⟨_,m⟩,isId⟩
    · exact ⟨x,.inr ⟨t,(b.sublist_scanned t).subset inSide⟩,isId⟩
  released _ _ _ lived := lived.fewer rfl fun _ present => present

/-- An order is accepted. -/
theorem Lived.arrive (lived : Lived b []) (orderly : Orderly b []) {new : SimpleOrder} (fresh : new.orderId ∉ b.market.seen) :
    Lived (b.emit (.onAccept new.orderId)) [new] := by
  have unknown := lived.unseen _ fresh
  have others : ∀ id, (b.emit (.onAccept new.orderId)).Present [new] id → id = new.orderId ∨ b.Present [] id := by
    rintro id ⟨x,inHand | onSide,isId⟩
    · rw [List.mem_singleton.mp inHand] at isId
      exact .inl isId.symm
    · exact .inr ⟨x,.inr onSide,isId⟩
  refine ⟨?_,?_,?_⟩
  · intro id present
    rw [history_emit]
    rcases others id present with rfl | before
    · rw [unknown]
      exact ⟨[],by simp [OrderEvent.names],by simp⟩
    · apply (lived.present id before).append
      have other : new.orderId ≠ id := fun same => fresh (by rw [same]; exact orderly.present_seen before)
      simp [OrderEvent.names,other]
  · intro id absent
    have other : new.orderId ≠ id := fun same => absent ⟨new,.inl (by simp),same⟩
    rw [history_emit,if_neg (by simpa [OrderEvent.names] using other),List.append_nil]
    exact lived.absent id fun ⟨x,among,isId⟩ => absent ⟨x,.inr (among.resolve_left (by simp)),isId⟩
  · intro id unseen
    rw [seen_emit,List.mem_append,not_or] at unseen
    have other : new.orderId ≠ id := fun same => unseen.2 (by simp [OrderEvent.added,same])
    rw [history_emit,if_neg (by simpa [OrderEvent.names] using other),List.append_nil]
    exact lived.unseen id unseen.1

/-- An event that says that an order is not there, or that there never is one. -/
theorem Lived.close (lived : Lived b []) (absent : ¬ b'.Present [] id) (market : b'.market = b.market)
    (names : ∀ id', e.names id' ↔ id' = id) (ended : Over id (b.market.history id ++ [e])) (seen : id ∈ (b.emit e).market.seen)
    (ids : ∀ id, b'.Present [] id → b.Present [] id) : Lived (b'.emit e) [] := by
  have history : ∀ id', (b'.emit e).market.history id' = b.market.history id' ++ if e.names id' then [e] else [] := by
    intro id'
    rw [history_emit,market]
  refine ⟨?_,?_,?_⟩
  · intro id' present
    have other : id' ≠ id := fun same => absent (same ▸ present)
    rw [history,if_neg fun named => other ((names id').mp named),List.append_nil]
    exact lived.present id' (ids id' present)
  · intro id' absent'
    rw [history]
    by_cases same : id' = id
    · subst same
      rw [if_pos ((names id').mpr rfl)]
      exact ended
    · rw [if_neg fun named => same ((names id').mp named),List.append_nil]
      by_cases before : b.Present [] id'
      · exact .lived _ (lived.present id' before)
      · exact lived.absent id' before
  · intro id' unseen
    have other : id' ≠ id := by
      rintro rfl
      apply unseen
      rw [seen_emit] at seen ⊢
      rwa [market]
    rw [history,if_neg fun named => other ((names id').mp named),List.append_nil]
    refine lived.unseen id' fun known => unseen ?_
    rw [seen_emit,market]
    exact List.mem_append_left _ known

/-- The other answers are about no order. -/
theorem Lived.refuse (lived : Lived b []) (nobody : ∀ id, e.names id = false) (noOrder : e.added = none) : Lived (b.emit e) [] := by
  have same : ∀ id, (b.emit e).market.history id = b.market.history id := by
    intro id
    rw [history_emit,nobody]
    exact List.append_nil _
  refine ⟨?_,?_,?_⟩
  · intro id present
    rw [same]
    exact lived.present id present
  · intro id absent
    rw [same]
    exact lived.absent id absent
  · intro id unseen
    rw [same]
    rw [seen_emit,noOrder,Option.toList_none,List.append_nil] at unseen
    exact lived.unseen id unseen

theorem present_eraseFrom {t : TreeName} {id id' : Nat} (present : (b.eraseFrom t id).Present [] id') : b.Present [] id' := by
  obtain ⟨x,among,isId⟩ := present
  obtain ⟨t',inSide⟩ := among.resolve_left (by simp)
  exact ⟨x,.inr ⟨t',(b.sublist_eraseFrom t t' id).subset inSide⟩,isId⟩

/-- An erased id is nowhere. -/
theorem Orderly.erased (orderly : Orderly b []) (member : o ∈ b.side t) : ¬ (b.eraseFrom t o.orderId).Present [] o.orderId := by
  rintro ⟨x,among,isId⟩
  obtain ⟨t',inSide⟩ := among.resolve_left (by simp)
  have named := mem_ids inSide
  rw [isId] at named
  exact orderly.erased_ids member t' named

theorem Lived.replaced (lived : Lived b []) (orderly : Orderly b []) (member : o ∈ b.side t) (sizeDelta : Int) (newPrice : Nat) :
    Lived (b.emit (.onReplace o.orderId sizeDelta newPrice)) [] := by
  refine lived.emit orderly ?_ rfl
  intro id named
  exact ⟨rfl,o,.inr ⟨t,member⟩,by simpa [OrderEvent.names] using named⟩

theorem Outcome.lived (outcome : Outcome b c b') (fresh : b.Fresh c) (orderly : Orderly b []) (lived : Lived b []) : Lived b' [] := by
  cases outcome with
  | rejected isBuy price stopPrice conditions orderId qty empty =>
    have unknown : b.market.history orderId.toNat = [] := lived.unseen _ fresh
    have absent : ¬ b.Present [] orderId.toNat := fun present => fresh (orderly.present_seen present)
    refine lived.close absent rfl ?_ ?_ ?_ fun _ present => present
    · intro id'
      simp [OrderEvent.names,eq_comm]
    · rw [unknown]
      exact .rejected _
    · rw [seen_emit]
      simp [OrderEvent.added]
  | parked isBuy price qty stopPrice conditions orderId o isNew some =>
    subst isNew
    have unseen : (SimpleOrder.new isBuy price qty stopPrice conditions orderId).orderId ∉ b.market.seen := fresh
    have arrived := lived.arrive orderly unseen
    refine arrived.fewer rfl ?_
    rintro id ⟨x,among,isId⟩
    obtain ⟨t,inSide⟩ := among.resolve_left (by simp)
    rcases mem_insertInto inSide with old | ⟨_,rfl⟩
    · exact ⟨x,.inr ⟨t,old⟩,isId⟩
    · exact ⟨_,.inl (by simp),isId⟩
  | live isBuy price qty stopPrice conditions orderId o isNew some =>
    subst isNew
    have unseen : (SimpleOrder.new isBuy price qty stopPrice conditions orderId).orderId ∉ b.market.seen := fresh
    have arrived := lived.arrive orderly unseen
    have orderly₁ := orderly_preserved.arrive b isBuy price qty stopPrice conditions orderId fresh some trivial orderly
    exact ((orderly_preserved.toCarried.above lived_carried).processTriggered
      ((orderly_preserved.toCarried.above lived_carried).submit _ _ _ trivial ⟨orderly₁,arrived⟩)).2
  | cancelled orderId t o member =>
    have present : b.Present [] o.orderId := ⟨o,.inr ⟨t,member⟩,rfl⟩
    refine lived.close (orderly.erased member) rfl ?_ (.cancelled _ (lived.present _ present)) ?_ fun _ => present_eraseFrom
    · intro id'
      simp [OrderEvent.names,eq_comm]
    · rw [seen_emit]
      exact List.mem_append_left _ (orderly.present_seen present)
  | cancelRejected => exact lived.refuse (fun _ => rfl) rfl
  | replaceRejected => exact lived.refuse (fun _ => rfl) rfl
  | collapsed orderId sizeDelta newPrice t o _ member =>
    exact (lived.replaced orderly member _ _).fewer rfl fun _ => present_eraseFrom (b := b)
  | emptied orderId sizeDelta newPrice t o copy _ member =>
    exact (lived.replaced orderly member _ _).fewer rfl fun _ => present_eraseFrom (b := b)
  | resized orderId sizeDelta newPrice t o _ member =>
    refine (lived.replaced orderly member _ _).fewer rfl ?_
    rintro id ⟨x,among,isId⟩
    obtain ⟨t',inSide⟩ := among.resolve_left (by simp)
    rcases mem_edit inSide with old | ⟨rfl,m,old,_,rfl⟩
    · exact ⟨x,.inr ⟨t',old⟩,isId⟩
    · exact ⟨m,.inr ⟨t',old⟩,(m.modify_fields _ _).1.symm.trans isId⟩
  | repriced orderId sizeDelta newPrice t o copy resting member isId moves isCopy left =>
    subst isCopy
    have orderly₁ := orderly_preserved.emit _ _ (.onReplace o.orderId sizeDelta.toInt (o.modify sizeDelta.toInt newPrice.toNat).price) rfl
      trivial (orderly_preserved.reprice b t o orderId sizeDelta newPrice resting member isId trivial moves.1 left trivial orderly)
    have moved : Lived ((b.eraseFrom t o.orderId).emit (.onReplace o.orderId sizeDelta.toInt (o.modify sizeDelta.toInt newPrice.toNat).price))
        [o.modify sizeDelta.toInt newPrice.toNat] := by
      refine (lived.replaced orderly member _ _).fewer rfl ?_
      rintro id ⟨x,inHand | onSide,isId⟩
      · rw [List.mem_singleton.mp inHand] at isId
        exact ⟨o,.inr ⟨t,member⟩,(o.modify_fields _ _).1.symm.trans isId⟩
      · exact present_eraseFrom (b := b) ⟨x,.inr onSide,isId⟩
    exact ((orderly_preserved.toCarried.above lived_carried).processTriggered
      ((orderly_preserved.toCarried.above lived_carried).submit _ _ _ trivial ⟨orderly₁,moved⟩)).2
  | observed px =>
    exact ((orderly_preserved.toCarried.above lived_carried).processTriggered
      ⟨orderly_preserved.observe b px.toNat trivial orderly,lived.fewer rfl fun _ present => present⟩).2

/-! ## Submissions and fills -/

/-- Resting orders have been submitted, parked ones have not, and a fill is one of a submitted order that takes and of one
    submitted before that makes. -/
structure Enlisted (b : Book) (hand : List SimpleOrder) : Prop where
  resting : ∀ t, t = .bids ∨ t = .asks → ∀ x ∈ b.side t, x.orderId ∈ submitted b.market.submissions
  parked : ∀ t, t = .stopBids ∨ t = .stopAsks → ∀ x ∈ b.side t, x.orderId ∉ submitted b.market.submissions
  known : ∀ id ∈ submitted b.market.submissions, id ∈ b.market.seen
  fills : ∀ before s later, b.market.submissions = before ++ s :: later → ∀ t ∈ s.trades,
    t.taker.orderId = s.order.orderId ∧ t.maker.orderId ∈ submitted before

theorem Enlisted.fewer (enlisted : Enlisted b hand) (submissions : b'.market.submissions = b.market.submissions)
    (seen : ∀ id ∈ b.market.seen, id ∈ b'.market.seen) (sides : ∀ t, ∀ x ∈ b'.side t, ∃ y ∈ b.side t, y.orderId = x.orderId) :
    Enlisted b' hand' := by
  refine ⟨?_,?_,?_,?_⟩
  · intro t resting x member
    obtain ⟨y,old,same⟩ := sides t x member
    rw [submissions,← same]
    exact enlisted.resting t resting y old
  · intro t stop x member
    obtain ⟨y,old,same⟩ := sides t x member
    rw [submissions,← same]
    exact enlisted.parked t stop y old
  · rw [submissions]
    exact fun id member => seen id (enlisted.known id member)
  · rw [submissions]
    exact enlisted.fills

theorem enlisted_carried : Carried Orderly Enlisted where
  submit b o hand orderly enlisted := by
    have isSubmitted : submitted (b.submit o).market.submissions = submitted b.market.submissions ++ [o.orderId] := by
      rw [submissions_submit]
      exact List.map_append
    refine ⟨?_,?_,?_,?_⟩
    · intro t resting x member
      rw [isSubmitted,List.mem_append,List.mem_singleton]
      rcases orderly.terms_submit member with ⟨m,old,same⟩ | ⟨_,rfl,_⟩
      · rw [same.orderId]
        exact .inl (enlisted.resting t resting m old)
      · exact .inr (pass_inc orderly.handSized).1.orderId
    · intro t stop x member
      rw [submit_stops orderly.handSized stop] at member
      rw [isSubmitted,List.mem_append,List.mem_singleton,not_or]
      exact ⟨enlisted.parked t stop x member,orderly.absent x member⟩
    · intro id member
      rw [isSubmitted,List.mem_append,List.mem_singleton] at member
      rw [seen_submit]
      rcases member with old | rfl
      · exact enlisted.known id old
      · exact orderly.present_seen ⟨o,.inl (by simp),rfl⟩
    · have each : Preserved (fun b hand => Orderly b hand ∧ Enlisted b hand) (fun _ _ => True) fun b _ => ∀ before s later,
          b.market.submissions = before ++ s :: later → ∀ t ∈ s.trades, t.taker.orderId = s.order.orderId ∧
            t.maker.orderId ∈ submitted before := by
        refine submissions_preserved (S := fun before s => ∀ t ∈ s.trades, t.taker.orderId = s.order.orderId ∧
            t.maker.orderId ∈ submitted before) ?_
        intro b o hand base t member
        obtain ⟨taker,maker⟩ := base.1.fills_present member
        exact ⟨taker,base.2.resting _ o.opposite_cases _ maker⟩
      exact each.submit b o hand ⟨orderly,enlisted⟩ enlisted.fills
  scan b _ enlisted := enlisted.fewer rfl (fun _ seen => seen) fun t x member => ⟨x,(b.sublist_scanned t).subset member,rfl⟩
  released _ _ _ enlisted := enlisted.fewer rfl (fun _ seen => seen) fun _ x member => ⟨x,member,rfl⟩

theorem Outcome.enlisted (outcome : Outcome b c b') (fresh : b.Fresh c) (orderly : Orderly b []) (enlisted : Enlisted b []) :
    Enlisted b' [] := by
  have emit : ∀ (b : Book) e, ∀ id ∈ b.market.seen, id ∈ (b.emit e).market.seen := by
    intro b e id member
    rw [seen_emit]
    exact List.mem_append_left _ member
  have erased : ∀ t id e (hand : List SimpleOrder), Enlisted ((b.eraseFrom t id).emit e) hand := fun t id e hand =>
    enlisted.fewer rfl (emit _ e) fun t' x member => ⟨x,(b.sublist_eraseFrom t t' id).subset member,rfl⟩
  have here : ∀ e (hand : List SimpleOrder), Enlisted (b.emit e) hand := fun e hand =>
    enlisted.fewer rfl (emit _ e) fun _ x member => ⟨x,member,rfl⟩
  have carried := orderly_preserved.toCarried.above enlisted_carried
  cases outcome with
  | rejected | cancelRejected | replaceRejected => exact here _ []
  | cancelled | collapsed | emptied => exact erased _ _ _ []
  | resized orderId sizeDelta newPrice t o _ member =>
    refine enlisted.fewer rfl (emit _ _) ?_
    intro t' x inSide
    rcases mem_edit inSide with old | ⟨rfl,m,old,_,rfl⟩
    · exact ⟨x,old,rfl⟩
    · exact ⟨m,old,(m.modify_fields _ _).1.symm⟩
  | parked isBuy price qty stopPrice conditions orderId o isNew some =>
    subst isNew
    have accepted := here (.onAccept orderId.toNat) []
    refine ⟨?_,?_,accepted.known,accepted.fills⟩
    · intro t resting x member
      rcases mem_insertInto member with old | ⟨rfl,_⟩
      · exact accepted.resting t resting x old
      · exfalso
        unfold SimpleOrder.stopSide at resting
        cases isBuy <;> simp [SimpleOrder.new] at resting
    · intro t stop x member
      rcases mem_insertInto member with old | ⟨rfl,rfl⟩
      · exact accepted.parked t stop x old
      · exact fun isSubmitted => fresh (enlisted.known _ isSubmitted)
  | live isBuy price qty stopPrice conditions orderId o isNew some =>
    subst isNew
    have orderly₁ := orderly_preserved.arrive b isBuy price qty stopPrice conditions orderId fresh some trivial orderly
    exact (carried.processTriggered (carried.submit _ _ _ trivial ⟨orderly₁,here _ _⟩)).2
  | repriced orderId sizeDelta newPrice t o copy resting member isId moves isCopy left =>
    subst isCopy
    have orderly₁ := orderly_preserved.emit _ _ (.onReplace o.orderId sizeDelta.toInt (o.modify sizeDelta.toInt newPrice.toNat).price) rfl
      trivial (orderly_preserved.reprice b t o orderId sizeDelta newPrice resting member isId trivial moves.1 left trivial orderly)
    exact (carried.processTriggered (carried.submit _ _ _ trivial ⟨orderly₁,erased _ _ _ _⟩)).2
  | observed px =>
    have observed : Enlisted { b with market := b.market.observe px.toNat } [] :=
      enlisted.fewer rfl (fun _ seen => seen) fun _ x member => ⟨x,member,rfl⟩
    exact (carried.processTriggered ⟨orderly_preserved.observe b px.toNat trivial orderly,observed⟩).2

/-! ## Orders without open quantity -/

/-- No trade names an order after one has left it no open quantity, and such an order is nowhere. -/
structure Spent (b : Book) (hand : List SimpleOrder) : Prop where
  trades : b.market.trades.Pairwise fun t t' => ∀ id, t.exhausts id → ¬ t'.names id
  gone : ∀ t ∈ b.market.trades, ∀ id, t.exhausts id → id ∈ b.market.seen ∧ ¬ b.Present hand id

theorem Spent.fewer (spent : Spent b hand) (trades : b'.market.trades = b.market.trades)
    (seen : ∀ id ∈ b.market.seen, id ∈ b'.market.seen)
    (ids : ∀ id ∈ b.market.seen, b'.Present hand' id → b.Present hand id) : Spent b' hand' := by
  refine ⟨by rw [trades]; exact spent.trades,?_⟩
  rw [trades]
  intro t member id exhausts
  obtain ⟨known,absent⟩ := spent.gone t member id exhausts
  exact ⟨seen id known,fun present => absent (ids id known present)⟩

/-- An order that a submission exhausts is not there after it. -/
theorem Orderly.exhausted_absent (orderly : Orderly b (o :: hand)) (accounts : Accounts b (o :: hand)) {t : Trade}
    (member : t ∈ (b.pass o).trades) (exhausts : t.exhausts id) : b.Present (o :: hand) id ∧ ¬ (b.submit o).Present hand id := by
  have sized := orderly.handSized
  have accounts' := accounts_preserved.submit b o hand orderly accounts
  have isWhole := member
  rw [Book.pass_eq sized] at isWhole
  -- What is left of it would have no open quantity.
  have closed : ∀ y : SimpleOrder, b.Among (o :: hand) y → (b.submit o).market.filled y.orderId = b.market.filled y.orderId + y.openQty →
      ¬ (b.submit o).Present hand y.orderId := by
    rintro y among filled ⟨x,among',isId⟩
    have account : ∀ {b : Book} {hand : List SimpleOrder} {x : SimpleOrder}, Accounts b hand → b.Among hand x → Accounted b.market x := by
      rintro b hand x accounts (inHand | ⟨t,inSide⟩)
      · exact accounts.orders.2 x inHand
      · exact accounts.orders.1 t x inSide
    obtain ⟨filledX,leftX,openX⟩ := account accounts' among'
    obtain ⟨filledY,leftY,openY⟩ := account accounts among
    obtain ⟨z,amongZ,sameId,sameQty⟩ := among_submit orderly among'
    obtain rfl := orderly.unique amongZ among (sameId.trans isId)
    rw [isId] at filledX
    omega
  rcases Matching.commit_exhausts _ sized (Matching.total_takes_le o _) t isWhole id exhausts with ⟨rfl,all⟩ | ⟨rfl,inTakes⟩
  · refine ⟨⟨o,.inl (by simp),rfl⟩,closed o (.inl (by simp)) ?_⟩
    rw [orderly.filled_taker,all]
  · have inSide : t.maker ∈ b.side o.opposite := mem_takes inTakes
    refine ⟨⟨t.maker,.inr ⟨_,inSide⟩,rfl⟩,closed t.maker (.inr ⟨_,inSide⟩) ?_⟩
    exact orderly.filled_maker inTakes

theorem spent_preserved : Preserved (fun b hand => Orderly b hand ∧ Accounts b hand) (fun b c => b.Fresh c ∧ b.SizesFit c) Spent where
  submit b o hand base spent := by
    obtain ⟨orderly,accounts⟩ := base
    have sized := orderly.handSized
    have before : ∀ id, (b.submit o).Present hand id → b.Present (o :: hand) id := by
      rintro id ⟨x,among,isId⟩
      obtain ⟨y,among',sameId,_⟩ := among_submit orderly among
      exact ⟨y,among',sameId.trans isId⟩
    constructor
    · rw [trades_submit,List.pairwise_append]
      refine ⟨spent.trades,?_,?_⟩
      · rw [Book.pass_eq sized]
        refine Matching.commit_spent _ sized (Matching.total_takes_le o _) ?_ (fun m member => orderly.absent m.1 (mem_takes member)) ?_
        · rw [takes_ids]
          exact orderly.nodup _
        · intro m q member
          have allotted : (m,some q) ∈ Matching.allot o o.openQty (b.side o.opposite) := by
            rw [← Matching.takes_eq member (by simp)]
            exact member
          exact (Matching.allot_taken _ _ allotted rfl).2.2.2 (accounts.orders.1 _ m (mem_takes member)).opened
      · intro t old t' new id exhausts names
        obtain ⟨taker,maker⟩ := orderly.fills_present new
        apply (spent.gone t old id exhausts).2
        rcases names with rfl | rfl
        · exact ⟨o,.inl (by simp),taker.symm⟩
        · exact ⟨t'.maker,.inr ⟨_,maker⟩,rfl⟩
    · intro t member id exhausts
      rw [trades_submit] at member
      rw [seen_submit]
      cases List.mem_append.mp member with
      | inl old =>
        obtain ⟨known,absent⟩ := spent.gone t old id exhausts
        exact ⟨known,fun present => absent (before id present)⟩
      | inr new =>
        obtain ⟨present,absent⟩ := orderly.exhausted_absent accounts new exhausts
        exact ⟨orderly.present_seen present,absent⟩
  scan b _ spent := by
    refine spent.fewer rfl (fun _ known => known) ?_
    rintro id _ ⟨x,inHand | ⟨t,inSide⟩,isId⟩
    · rcases mem_due inHand with m | m <;> exact ⟨x,.inr ⟨_,m⟩,isId⟩
    · exact ⟨x,.inr ⟨t,(b.sublist_scanned t).subset inSide⟩,isId⟩
  released _ _ _ spent := ⟨spent.trades,spent.gone⟩
  emit b hand e _ _ spent := by
    refine spent.fewer rfl (fun id known => ?_) fun _ _ present => present
    rw [seen_emit]
    exact List.mem_append_left _ known
  arrive b isBuy price qty stopPrice conditions orderId admitted _ _ spent := by
    refine spent.fewer rfl (fun id known => ?_) ?_
    · rw [seen_emit]
      exact List.mem_append_left _ known
    · rintro id known ⟨x,inHand | onSide,isId⟩
      · rw [List.mem_singleton.mp inHand] at isId
        rw [← isId] at known
        exact absurd known admitted.1
      · exact ⟨x,.inr onSide,isId⟩
  park b o _ _ _ spent := by
    refine spent.fewer rfl (fun _ known => known) ?_
    rintro id _ ⟨x,among,isId⟩
    obtain ⟨t,inSide⟩ := among.resolve_left (by simp)
    rcases mem_insertInto inSide with old | ⟨_,rfl⟩
    · exact ⟨x,.inr ⟨t,old⟩,isId⟩
    · exact ⟨x,.inl (by simp),isId⟩
  erase b t o _ _ spent := spent.fewer rfl (fun _ known => known) fun _ _ present => present_eraseFrom present
  resize b t o _ sizeDelta _ _ _ _ _ _ _ _ spent := by
    refine spent.fewer rfl (fun _ known => known) ?_
    rintro id _ ⟨x,among,isId⟩
    obtain ⟨t',inSide⟩ := among.resolve_left (by simp)
    rcases mem_edit inSide with old | ⟨rfl,m,old,_,rfl⟩
    · exact ⟨x,.inr ⟨t',old⟩,isId⟩
    · exact ⟨m,.inr ⟨t',old⟩,(m.modify_fields _ _).1.symm.trans isId⟩
  reprice b t o _ sizeDelta newPrice _ member _ _ _ _ _ spent := by
    refine spent.fewer rfl (fun _ known => known) ?_
    rintro id _ ⟨x,inHand | onSide,isId⟩
    · rw [List.mem_singleton.mp inHand] at isId
      exact ⟨o,.inr ⟨t,member⟩,(o.modify_fields _ _).1.symm.trans isId⟩
    · exact present_eraseFrom ⟨x,.inr onSide,isId⟩
  observe _ _ _ spent := ⟨spent.trades,spent.gone⟩

/-! ## Orders that are gone -/

/-- The fills that name an id. -/
def fillsOf (k : Market) (id : Nat) : List OrderEvent := k.events.filter fun e => e.isFill && e.names id

/-- An order that has come in and is not there does not come back, and no fill names it any more. -/
theorem gone_preserved (id : Nat) (fills : List OrderEvent) : Preserved Orderly Fresh fun b hand =>
    id ∈ b.market.seen ∧ ¬ b.Present hand id ∧ fillsOf b.market id = fills where
  submit b o hand orderly gone := by
    obtain ⟨known,absent,rfl⟩ := gone
    refine ⟨by rwa [seen_submit],?_,?_⟩
    · rintro ⟨x,among,isId⟩
      obtain ⟨y,among',sameId,_⟩ := among_submit orderly among
      exact absent ⟨y,among',sameId.trans isId⟩
    · have none : ((b.pass o).trades.map Trade.event).filter (fun e => e.isFill && e.names id) = [] := by
        rw [List.filter_eq_nil_iff]
        intro e member named
        obtain ⟨t,inTrades,rfl⟩ := List.mem_map.mp member
        obtain ⟨taker,maker⟩ := orderly.fills_present inTrades
        rcases (by simpa [OrderEvent.names,OrderEvent.isFill,Trade.event] using named :
          t.taker.orderId = id ∨ t.maker.orderId = id) with isId | isId
        · exact absent ⟨o,.inl (by simp),taker.symm.trans isId⟩
        · exact absent ⟨t.maker,.inr ⟨_,maker⟩,isId⟩
      unfold fillsOf
      rw [events_submit,List.filter_append,none,List.append_nil]
  scan b _ gone := by
    refine ⟨gone.1,?_,gone.2.2⟩
    rintro ⟨x,inHand | ⟨t,inSide⟩,isId⟩
    · rcases mem_due inHand with m | m <;> exact gone.2.1 ⟨x,.inr ⟨_,m⟩,isId⟩
    · exact gone.2.1 ⟨x,.inr ⟨t,(b.sublist_scanned t).subset inSide⟩,isId⟩
  released _ _ _ gone := gone
  emit b hand e notFill _ gone := by
    refine ⟨?_,gone.2.1,?_⟩
    · rw [seen_emit]
      exact List.mem_append_left _ gone.1
    · unfold fillsOf Book.emit Market.emit
      rw [List.filter_append,List.filter_cons_of_neg (by simp [notFill]),List.filter_nil,List.append_nil]
      exact gone.2.2
  arrive b isBuy price qty stopPrice conditions orderId fresh _ _ gone := by
    refine ⟨?_,?_,?_⟩
    · rw [seen_emit]
      exact List.mem_append_left _ gone.1
    · rintro ⟨x,inHand | onSide,isId⟩
      · rw [List.mem_singleton.mp inHand] at isId
        rw [← isId] at gone
        exact fresh gone.1
      · exact gone.2.1 ⟨x,.inr onSide,isId⟩
    · unfold fillsOf Book.emit Market.emit
      rw [List.filter_append,List.filter_cons_of_neg (by simp [OrderEvent.isFill]),List.filter_nil,List.append_nil]
      exact gone.2.2
  park b o _ _ _ gone := by
    refine ⟨gone.1,?_,gone.2.2⟩
    rintro ⟨x,among,isId⟩
    obtain ⟨t,inSide⟩ := among.resolve_left (by simp)
    rcases mem_insertInto inSide with old | ⟨_,rfl⟩
    · exact gone.2.1 ⟨x,.inr ⟨t,old⟩,isId⟩
    · exact gone.2.1 ⟨x,.inl (by simp),isId⟩
  erase b t o _ _ gone := ⟨gone.1,fun present => gone.2.1 (present_eraseFrom present),gone.2.2⟩
  resize b t o _ sizeDelta _ _ _ _ _ _ _ _ gone := by
    refine ⟨gone.1,?_,gone.2.2⟩
    rintro ⟨x,among,isId⟩
    obtain ⟨t',inSide⟩ := among.resolve_left (by simp)
    rcases mem_edit inSide with old | ⟨rfl,m,old,_,rfl⟩
    · exact gone.2.1 ⟨x,.inr ⟨t',old⟩,isId⟩
    · exact gone.2.1 ⟨m,.inr ⟨t',old⟩,(m.modify_fields _ _).1.symm.trans isId⟩
  reprice b t o _ sizeDelta newPrice _ member _ _ _ _ _ gone := by
    refine ⟨gone.1,?_,gone.2.2⟩
    rintro ⟨x,inHand | onSide,isId⟩
    · rw [List.mem_singleton.mp inHand] at isId
      exact gone.2.1 ⟨o,.inr ⟨t,member⟩,(o.modify_fields _ _).1.symm.trans isId⟩
    · exact gone.2.1 (present_eraseFrom ⟨x,.inr onSide,isId⟩)
  observe _ _ _ gone := gone

theorem seen_run (cs : List Command) : ∀ b : Book, (cs.foldl step b).market.seen = b.market.seen ++ cs.filterMap Command.added := by
  induction cs with
  | nil => exact fun b => (List.append_nil _).symm
  | cons c cs ih =>
    intro b
    rw [List.foldl_cons,ih,(step_outcome b c).seen,List.append_assoc]
    congr 1
    cases c <;> rfl

/-- Histories and enlistments hold after every run. -/
theorem lived_run (cs : List Command) : ∀ b : Book, Orderly b [] ∧ Lived b [] ∧ Enlisted b [] → Admitted Fresh step b cs →
    Lived (cs.foldl step b) [] ∧ Enlisted (cs.foldl step b) [] := by
  induction cs with
  | nil => exact fun b inv _ => inv.2
  | cons c cs ih =>
    rintro b ⟨orderly,lived,enlisted⟩ ⟨first,rest⟩
    have outcome := step_outcome b c
    exact ih (b.step c) ⟨orderly_preserved.step first orderly,outcome.lived first orderly lived,outcome.enlisted first orderly enlisted⟩ rest

theorem present_iff : b.Present [] id ↔ ∃ t, id ∈ ids (b.side t) := by
  constructor
  · rintro ⟨x,among,rfl⟩
    obtain ⟨t,inSide⟩ := among.resolve_left (by simp)
    exact ⟨t,mem_ids inSide⟩
  · rintro ⟨t,member⟩
    obtain ⟨x,inSide,isId⟩ := List.mem_map.mp member
    exact ⟨x,.inr ⟨t,inSide⟩,isId⟩

end Book

namespace MatchingBook
variable {N : Capacity} {m m' : MatchingBook N} {cs later : List Command} {h : Pools N}

/-- The orders of a book and what the listener has heard of all that came in. An order that a fill or a replace has left no open quantity
    is on no side any more. -/
structure Lifecycles (cs : List Command) (m : MatchingBook N) (sides : TreeName → List SimpleOrder) : Prop where
  snapshots : ∀ t, (m.on t).snapshot = some (sides t)
  once : ∀ id, (ids (sides .bids)).count id + (ids (sides .asks)).count id + (ids (sides .stopBids)).count id +
    (ids (sides .stopAsks)).count id ≤ 1
  opened : ∀ t, ∀ o ∈ sides t, 0 < o.openQty
  heard : ∀ id ∈ cs.filterMap Command.added, m.market.history id ≠ []
  there : ∀ id, (∃ t, id ∈ ids (sides t)) → Living id (m.market.history id)
  ended : ∀ id, (∀ t, id ∉ ids (sides t)) → Over id (m.market.history id)
  parked : ∀ t, t = .stopBids ∨ t = .stopAsks → ∀ o ∈ sides t, o.orderId ∉ submitted m.market.submissions
  fills : ∀ before s after, m.market.submissions = before ++ s :: after → ∀ t ∈ s.trades,
    t.taker.orderId = s.order.orderId ∧ t.maker.orderId ∈ submitted before
  spent : m.market.trades.Pairwise fun t t' => ∀ id, t.exhausts id → ¬ t'.names id
  journaled : Book.Journaled m.market

/-- A cancel or replace of the id is refused and changes nothing. -/
def Unknown (m : MatchingBook N) (id : Nat) : Prop := ∀ orderId : UInt32, orderId.toNat = id →
  m.step (.cancel orderId) = some (m.emit (.onCancelReject id "not found")) ∧
    ∀ sizeDelta newPrice, m.step (.replace orderId sizeDelta newPrice) = some (m.emit (.onReplaceReject id "not found"))

theorem unknown_of_book {b : Book} {exact : Prop} {id : Nat} (rep : Represents exact m b)
    (absent : ∀ t, id ∉ ids (b.side t)) : m.Unknown id := by
  have nowhere : ∀ ts, m.holder id ts = none := by
    intro ts
    rw [rep.holder]
    cases found : b.holder id ts with
    | none => rfl
    | some t =>
      obtain ⟨_,o,member,rfl⟩ := Book.holder_some found
      exact absurd (mem_ids member) (absent t)
  rintro orderId rfl
  refine ⟨?_,fun sizeDelta newPrice => ?_⟩
  · show m.cancel orderId.toNat = _
    unfold MatchingBook.cancel
    rw [nowhere]
  · show m.replace orderId.toNat sizeDelta.toInt newPrice.toNat = _
    unfold MatchingBook.replace
    rw [nowhere]

theorem lifecycles_of_book {exact : Prop} (rep : Represents exact m (.after cs)) (once : NeverReused cs)
    (fits : Admitted Book.SizesFit Book.step .start cs) : Lifecycles cs m (Book.after cs).side := by
  have ordered : Book.Preserved Book.Anything (fun b c => b.Fresh c ∧ b.SizesFit c) Book.Orderly :=
    Book.orderly_preserved.restrict fun _ _ both => both.1
  have base := (ordered.above Book.accounts_preserved).above (Book.spent_preserved.and Book.journaled_preserved)
  obtain ⟨⟨orderly,accounts⟩,spent,journaled⟩ := base.run cs .start ⟨⟨Book.orderly_start,⟨⟨by simp [Book.start],by simp⟩,fun _ _ => rfl⟩⟩,
    ⟨.nil,by simp [Book.start,Market.start]⟩,⟨rfl,rfl⟩⟩ (once.admitted.and fits)
  have nobody : ∀ id, ¬ Book.start.Present [] id := by
    rintro id ⟨x,inHand | ⟨t,inSide⟩,_⟩
    · simp at inHand
    · simp [Book.start] at inSide
  obtain ⟨lived,enlisted⟩ := Book.lived_run cs .start ⟨Book.orderly_start,
    ⟨fun id present => absurd present (nobody id),fun _ _ => .unseen,fun _ _ => rfl⟩,
    ⟨by simp [Book.start],by simp [Book.start],by simp [Book.start,Market.start,submitted],by simp [Book.start,Market.start]⟩⟩ once.admitted
  refine ⟨rep.snapshot,?_,fun t o member => (accounts.orders.1 t o member).opened,?_,?_,?_,?_,?_,?_,?_⟩
  · intro id
    have bound := orderly.occurs_le id
    unfold Book.occurs at bound
    exact (Nat.le_add_right ..).trans bound
  · intro id member none
    have seen : id ∈ (Book.after cs).market.seen := by
      rw [Book.after,Book.seen_run]
      exact List.mem_append_right _ member
    rw [← rep.market] at seen
    obtain ⟨e,inEvents,isAdded⟩ := List.mem_filterMap.mp seen
    have inHistory : e ∈ m.market.history id := by
      refine List.mem_filter.mpr ⟨inEvents,?_⟩
      cases e <;> simp_all [OrderEvent.added,OrderEvent.names]
    rw [none] at inHistory
    simp at inHistory
  · intro id present
    rw [rep.market]
    exact lived.present id (Book.present_iff.mpr present)
  · intro id absent
    rw [rep.market]
    refine lived.absent id fun present => ?_
    obtain ⟨t,member⟩ := Book.present_iff.mp present
    exact absent t member
  · rw [rep.market]
    exact enlisted.parked
  · rw [rep.market]
    exact enlisted.fills
  · rw [rep.market]
    exact spent.trades
  · rw [rep.market]
    exact journaled

/-- After every run each order is on one side at most and has lived as it should; one that is gone stays so after
    any further commands, no fill names it any more, and a cancel or a replace of it is refused. -/
theorem order_lifecycle (h : Pools N) (cs later : List Command) (once : NeverReused (cs ++ later))
    (fits : EveryStep SizesFit h (cs ++ later)) : ∃ m m' sides sides', after h cs = some m ∧ after h (cs ++ later) = some m' ∧
      Lifecycles cs m sides ∧ Lifecycles (cs ++ later) m' sides' ∧
      ∀ id ∈ cs.filterMap Command.added, (∀ t, id ∉ ids (sides t)) → (∀ t, id ∉ ids (sides' t)) ∧
        Book.fillsOf m'.market id = Book.fillsOf m.market id ∧ m'.Unknown id := by
  have fitting := (sizesFit_everyStep once).mp fits
  have once₁ : NeverReused cs := List.Nodup.sublist ((List.sublist_append_left cs later).filterMap Command.added) once
  obtain ⟨m,ran,rep⟩ := run_represents h cs once₁ fun no : False => no.elim
  obtain ⟨m',ran',rep'⟩ := run_represents h (cs ++ later) once fun no : False => no.elim
  refine ⟨m,m',_,_,ran,ran',lifecycles_of_book rep once₁ (admitted_append.mp fitting).1,lifecycles_of_book rep' once fitting,?_⟩
  intro id member absent
  have known : id ∈ (Book.after cs).market.seen := by
    rw [Book.after,Book.seen_run]
    exact List.mem_append_right _ member
  have notPresent : ¬ (Book.after cs).Present [] id := by
    intro present
    obtain ⟨t,inSide⟩ := Book.present_iff.mp present
    exact absent t inSide
  have gone := (Book.orderly_preserved.above (Book.gone_preserved id (Book.fillsOf (Book.after cs).market id))).run later (.after cs)
    ⟨orderly_after once₁,known,notPresent,rfl⟩ (admitted_append.mp once.admitted).2
  have isAfter : later.foldl Book.step (Book.after cs) = .after (cs ++ later) := (List.foldl_append ..).symm
  rw [isAfter] at gone
  have absent' : ∀ t, id ∉ ids ((Book.after (cs ++ later)).side t) := fun t inSide => gone.2.2.1 (Book.present_iff.mpr ⟨t,inSide⟩)
  refine ⟨absent',?_,unknown_of_book rep' absent'⟩
  rw [rep.market,rep'.market]
  exact gone.2.2.2

/-- A stop that is released and filled, and a replace of it. -/
theorem order_lifecycle_stop : ∃ (m m' : MatchingBook ⟨1,by decide,by decide⟩) (sides sides' : TreeName → List SimpleOrder),
    after .empty [.add true 0 2 103 0 1,.add false 104 2 0 0 2,.setMarketPrice 103] = some m ∧
      after .empty ([.add true 0 2 103 0 1,.add false 104 2 0 0 2,.setMarketPrice 103] ++ [.replace 1 1 0]) = some m' ∧
      Lifecycles [.add true 0 2 103 0 1,.add false 104 2 0 0 2,.setMarketPrice 103] m sides ∧
      Lifecycles ([.add true 0 2 103 0 1,.add false 104 2 0 0 2,.setMarketPrice 103] ++ [.replace 1 1 0]) m' sides' ∧
      ∀ id ∈ [.add true 0 2 103 0 1,.add false 104 2 0 0 2,.setMarketPrice 103].filterMap Command.added,
        (∀ t, id ∉ ids (sides t)) → (∀ t, id ∉ ids (sides' t)) ∧ Book.fillsOf m'.market id = Book.fillsOf m.market id ∧ m'.Unknown id :=
  have once : NeverReused ([.add true 0 2 103 0 1,.add false 104 2 0 0 2,.setMarketPrice 103] ++ [.replace 1 1 0]) := by decide
  order_lifecycle .empty _ _ once ((sizesFit_everyStep once).mpr (by decide))

end MatchingBook

end BaboEngine
