import BaboEngine.StopQueues

/-!
# Batches

A command sends orders to matching in batches: first the order that it brings itself, then the
released stops of each round. The stops are looked at after each batch, and so a parked order is
released if and only if the last price of some batch reaches its trigger.
-/

namespace BaboEngine

/-- A price reaches the trigger of a stop order. -/
def SimpleOrder.ReachedBy (o : SimpleOrder) (px : Nat) : Prop := if o.isBuy then o.stopPrice ≤ px else px ≤ o.stopPrice

instance (o : SimpleOrder) (px : Nat) : Decidable (o.ReachedBy px) :=
  inferInstanceAs (Decidable (if o.isBuy then o.stopPrice ≤ px else px ≤ o.stopPrice))

/-- Orders that are submitted one after the other, and the prices that are observed meanwhile. A market price
    that is set is a batch without orders. -/
structure Batch where
  orders : List SimpleOrder
  prices : List Nat
deriving DecidableEq

/-- All orders of some batches. -/
def sentOf (bs : List Batch) : List SimpleOrder := bs.flatMap Batch.orders

/-- All prices of some batches. -/
def pricesOf (bs : List Batch) : List Nat := bs.flatMap Batch.prices

/-- The last price of a batch, with which the scan works, reaches the trigger of an order. -/
def Batch.Releases (x : Batch) (o : SimpleOrder) : Prop := ∃ px ∈ x.prices.getLast?, o.ReachedBy px

/-- What the batches of a command do to the journal. -/
structure Went (k k' : Market) (orders : List SimpleOrder) (prices : List Nat) : Prop where
  submissions : ∃ S, k'.submissions = k.submissions ++ S ∧ submitted S = ids orders
  observed : k'.observed = k.observed ++ prices
  marketPrice : k'.marketPrice = prices.getLast?.getD k.marketPrice

section
variable {k k' k'' : Market} {os os' : List SimpleOrder} {ps ps' : List Nat}

/-- Nothing is submitted. -/
theorem went_still (submissions : k'.submissions = k.submissions) (observed : k'.observed = k.observed)
    (marketPrice : k'.marketPrice = k.marketPrice) : Went k k' [] [] :=
  ⟨⟨[],by rw [submissions,List.append_nil],rfl⟩,by rw [observed,List.append_nil],marketPrice⟩

theorem Went.trans (first : Went k k' os ps) (second : Went k' k'' os' ps') : Went k k'' (os ++ os') (ps ++ ps') := by
  obtain ⟨S,submissions,isOrders⟩ := first.submissions
  obtain ⟨S',submissions',isOrders'⟩ := second.submissions
  refine ⟨⟨S ++ S',?_,?_⟩,?_,?_⟩
  · rw [submissions',submissions,List.append_assoc]
  · unfold submitted at *
    rw [List.map_append,isOrders,isOrders',ids_append]
  · rw [second.observed,first.observed,List.append_assoc]
  · rw [second.marketPrice,first.marketPrice,List.getLast?_append]
    cases ps'.getLast? <;> rfl

end

namespace Book
variable {b b₁ : Book} {o o' : SimpleOrder} {t : TreeName} {hand os : List SimpleOrder} {p px id : Nat} {c : Command}

/-! ## The batches of a command -/

/-- The prices at which an order trades that is submitted next: those of the makers of which it takes. -/
def tradePrices (b : Book) (o : SimpleOrder) : List Nat :=
  ((Matching.takes o (b.side o.opposite)).filterMap Matching.taken).map (·.1.price)

def batchPrices (b : Book) : List SimpleOrder → List Nat
  | [] => []
  | o :: os => b.tradePrices o ++ (b.submit o).batchPrices os

def batch (b : Book) (os : List SimpleOrder) : Batch := ⟨os,b.batchPrices os⟩

/-- The batches of released stops. -/
def releasesLoop : Nat → Book → List Batch
  | 0, _ => []
  | rounds + 1, b =>
    if (b.dueBuys ++ b.dueSells).isEmpty then [] else b.scanned.batch (b.dueBuys ++ b.dueSells) :: releasesLoop rounds b.fire

def releases (b : Book) : List Batch := b.releasesLoop (b.parkedCount + 1)

/-- The batches when an order goes to matching. -/
def batchesOf (b : Book) (o : SimpleOrder) : List Batch := b.batch [o] :: (b.submit o).releases

/-- The batches when the order `o` of the list `t` is replaced. -/
def replaceBatches (b : Book) (t : TreeName) (o : SimpleOrder) (sizeDelta : Int) (newPrice : Nat) : List Batch :=
  let copy := o.modify sizeDelta newPrice
  if Reprices o newPrice ∧ copy.openQty ≠ 0 then
    ((b.eraseFrom t o.orderId).emit (.onReplace o.orderId sizeDelta copy.price)).batchesOf copy
  else []

/-- The batches of a command, from the book that it finds. -/
def batches (b : Book) : Command → List Batch
  | .add isBuy price qty stopPrice conditions orderId =>
    let o := SimpleOrder.new isBuy price qty stopPrice conditions orderId
    if o.orderQty = 0 ∨ o.stopPrice ≠ 0 ∧ b.isStopped o then [] else (b.emit (.onAccept o.orderId)).batchesOf o
  | .cancel _ => []
  | .replace orderId sizeDelta newPrice =>
    match b.find .bids orderId.toNat with
    | some o => b.replaceBatches .bids o sizeDelta.toInt newPrice.toNat
    | none =>
      match b.find .asks orderId.toNat with
      | some o => b.replaceBatches .asks o sizeDelta.toInt newPrice.toNat
      | none => []
  | .setMarketPrice px => ⟨[],[px.toNat]⟩ :: ({ b with market := b.market.observe px.toNat } : Book).releases

/-! ## What a command does -/

theorem went_submit (sized : o.Sized) : Went b.market (b.submit o).market [o] (b.tradePrices o) := by
  have prices : (b.pass o).trades.map (·.maker.price) = b.tradePrices o := by
    have pairs := Matching.commit_trades (Matching.takes o (b.side o.opposite)) o
    rw [← pass_eq sized] at pairs
    unfold tradePrices
    rw [← pairs,List.map_map]
    rfl
  refine ⟨⟨[b.call o],submissions_submit b o,rfl⟩,?_,?_⟩
  · rw [submit_market,← prices]
    exact Market.observed_tradeAll ..
  · rw [submit_market,← prices]
    exact Market.marketPrice_tradeAll ..

theorem went_submitAll (os : List SimpleOrder) :
    ∀ b : Book, (∀ o ∈ os, o.Sized) → Went b.market (b.submitAll os).market os (b.batchPrices os) := by
  induction os with
  | nil => exact fun b _ => went_still rfl rfl rfl
  | cons o os ih =>
    intro b sized
    obtain ⟨first,rest⟩ := List.forall_mem_cons.mp sized
    exact (went_submit first).trans (ih (b.submit o) rest)

theorem Orderly.went_fire (orderly : Orderly b []) :
    Went b.market b.fire.market (b.dueBuys ++ b.dueSells) (b.scanned.batchPrices (b.dueBuys ++ b.dueSells)) := by
  obtain ⟨submissions,observed,marketPrice⟩ := went_submitAll (b.dueBuys ++ b.dueSells) b.scanned orderly.dueSized
  exact ⟨submissions,observed,marketPrice⟩

theorem Orderly.isBuy (orderly : Orderly b hand) (stop : t = .stopBids ∨ t = .stopAsks) (member : o ∈ b.side t) :
    o.isBuy = decide (t = .stopBids) := by
  have placed := orderly.placed t o member
  unfold SimpleOrder.side SimpleOrder.stopSide at placed
  rcases stop with rfl | rfl <;> cases isBuy : o.isBuy <;> simp [isBuy] at placed ⊢

/-- The orders that a scan takes are the parked orders that the market price reaches. -/
theorem Orderly.mem_due_iff (orderly : Orderly b []) (stop : t = .stopBids ∨ t = .stopAsks) (member : o ∈ b.side t) :
    o ∈ b.dueBuys ++ b.dueSells ↔ o.ReachedBy b.market.marketPrice := by
  have isBuy := orderly.isBuy stop member
  unfold SimpleOrder.ReachedBy
  rw [List.mem_append,orderly.mem_dueBuys.1,orderly.mem_dueSells.1,isBuy]
  rcases stop with rfl | rfl
  · have other : o ∉ b.side .stopAsks := fun inSide => absurd (orderly.apart member inSide rfl) (by decide)
    simp [member,other]
  · have other : o ∉ b.side .stopBids := fun inSide => absurd (orderly.apart member inSide rfl) (by decide)
    simp [member,other]

/-- What the batches of released stops do. -/
structure Released (b : Book) (bs : List Batch) (b' : Book) : Prop where
  went : Went b.market b'.market (sentOf bs) (pricesOf bs)
  parked : ∀ o ∈ sentOf bs, o ∈ b.side .stopBids ∨ o ∈ b.side .stopAsks
  reached : ∀ t o, t = .stopBids ∨ t = .stopAsks → o ∈ b.side t →
    (o ∈ sentOf bs ↔ o.ReachedBy b.market.marketPrice ∨ ∃ x ∈ bs, x.Releases o)

/-- A price that does not reach an order, and then those of a batch. -/
theorem reached_last {ps : List Nat} (before : ¬ o.ReachedBy p) : o.ReachedBy (ps.getLast?.getD p) ↔
    ∃ px ∈ ps.getLast?, o.ReachedBy px := by
  cases ps.getLast? with
  | none => simp [before]
  | some px => simp

/-- No order is due. -/
theorem Orderly.released_none (orderly : Orderly b []) (none : b.dueBuys ++ b.dueSells = []) : Released b [] b := by
  refine ⟨went_still rfl rfl rfl,by simp [sentOf],?_⟩
  intro t o stop member
  have notDue : ¬ o.ReachedBy b.market.marketPrice := by
    rw [← orderly.mem_due_iff stop member,none]
    exact List.not_mem_nil
  simp [sentOf,notDue]

/-- A round, and the rounds behind it. -/
theorem Orderly.released_fire {bs : List Batch} {b' : Book} (orderly : Orderly b []) (rest : Released b.fire bs b') :
    Released b (b.scanned.batch (b.dueBuys ++ b.dueSells) :: bs) b' := by
  refine ⟨orderly.went_fire.trans rest.went,?_,?_⟩
  · intro o member
    cases List.mem_append.mp member with
    | inl due => exact mem_due due
    | inr later =>
      refine (rest.parked o later).imp (fun inSide => ?_) fun inSide => ?_
      · rw [orderly.fire_stops (.inl rfl)] at inSide
        exact (b.sublist_scanned _).subset inSide
      · rw [orderly.fire_stops (.inr rfl)] at inSide
        exact (b.sublist_scanned _).subset inSide
  · intro t o stop member
    show o ∈ (b.dueBuys ++ b.dueSells) ++ sentOf bs ↔ _
    rw [List.mem_append,orderly.mem_due_iff stop member]
    by_cases due : o.ReachedBy b.market.marketPrice
    · simp [due]
    · -- The order is still parked when the round is over.
      have inSide : o ∈ b.fire.side t := by
        rw [orderly.fire_stops stop]
        exact (mem_scanned member).resolve_left fun isDue => due ((orderly.mem_due_iff stop member).mp isDue)
      rw [rest.reached t o stop inSide,orderly.went_fire.marketPrice,reached_last due,List.exists_mem_cons_iff]
      exact or_congr_right (or_congr Iff.rfl Iff.rfl)

theorem releasesLoop_spec (rounds : Nat) : ∀ b : Book, Orderly b [] → b.parkedCount < rounds →
    Released b (b.releasesLoop rounds) (b.processTriggeredLoop rounds) := by
  induction rounds with
  | zero => intro _ _ enough; omega
  | succ rounds ih =>
    intro b orderly enough
    unfold releasesLoop processTriggeredLoop
    split_ifs with none
    · exact orderly.released_none (List.isEmpty_iff.mp none)
    · have fewer := orderly.parkedCount_fire
      have some : (b.dueBuys ++ b.dueSells).length ≠ 0 := fun empty => none (by simpa using empty)
      exact orderly.released_fire (ih b.fire (orderly_preserved.fire orderly) (by omega))

theorem Orderly.released (orderly : Orderly b []) : Released b b.releases b.processTriggered :=
  releasesLoop_spec _ b orderly (Nat.lt_succ_self _)

theorem Released.sent_iff {bs : List Batch} {b' : Book} (released : Released b bs b') (orderly : Orderly b []) (member : o ∈ b.side t) :
    o.orderId ∈ ids (sentOf bs) ↔ o ∈ sentOf bs := by
  constructor
  · intro isSent
    obtain ⟨x,inBatches,isId⟩ := List.mem_map.mp isSent
    cases released.parked x inBatches with
    | inl parked => rwa [← (orderly.one_place parked member isId).2]
    | inr parked => rwa [← (orderly.one_place parked member isId).2]
  · exact mem_ids

/-- What the batches of a command do: each order that is sent is a new one or was in the book before, and a parked
    order is sent if and only if the last price of some batch reaches it. -/
structure Sent (b : Book) (c : Command) (bs : List Batch) (b' : Book) : Prop where
  went : Went b.market b'.market (sentOf bs) (pricesOf bs)
  known : ∀ id ∈ ids (sentOf bs), c.added = some id ∨ ∃ t, id ∈ ids (b.side t)
  released : ∀ t o, t = .stopBids ∨ t = .stopAsks → o ∈ b.side t →
    (o.orderId ∈ ids (sentOf bs) ↔ ∃ x ∈ bs, x.Releases o)

theorem sent_still {b' : Book} (submissions : b'.market.submissions = b.market.submissions)
    (observed : b'.market.observed = b.market.observed)
    (marketPrice : b'.market.marketPrice = b.market.marketPrice) : Sent b c [] b' :=
  ⟨went_still submissions observed marketPrice,by simp [sentOf],by simp [sentOf]⟩

/-- An order goes to matching. -/
theorem Orderly.sent_submit (orderly : Orderly b₁ [o']) (quiet : QuietAt b.market.marketPrice b) (went : Went b.market b₁.market [] [])
    (stops : ∀ t, t = .stopBids ∨ t = .stopAsks → b₁.side t = b.side t)
    (known : c.added = some o'.orderId ∨ ∃ t, o'.orderId ∈ ids (b.side t)) :
    Sent b c (b₁.batchesOf o') (b₁.submit o').processTriggered := by
  have orderly' : Orderly (b₁.submit o') [] := orderly.submit
  have released := orderly'.released
  have stops' : ∀ t, t = .stopBids ∨ t = .stopAsks → (b₁.submit o').side t = b.side t :=
    fun t stop => (submit_stops orderly.handSized stop).trans (stops t stop)
  have all : Went b.market (b₁.submit o').market [o'] (b₁.batchPrices [o']) :=
    went.trans (went_submitAll [o'] b₁ (by simpa using orderly.handSized))
  refine ⟨all.trans released.went,?_,?_⟩
  · intro id member
    obtain ⟨x,inBatches,rfl⟩ := List.mem_map.mp member
    cases List.mem_append.mp inBatches with
    | inl isNew =>
      obtain rfl := List.mem_singleton.mp isNew
      exact known
    | inr later =>
      cases released.parked x later with
      | inl inSide => exact .inr ⟨_,mem_ids ((stops' _ (.inl rfl)) ▸ inSide)⟩
      | inr inSide => exact .inr ⟨_,mem_ids ((stops' _ (.inr rfl)) ▸ inSide)⟩
  · intro t o stop member
    have inSide : o ∈ (b₁.submit o').side t := by rwa [stops' t stop]
    have notReached : ¬ o.ReachedBy b.market.marketPrice := by
      have isBuy := orderly'.isBuy stop inSide
      unfold SimpleOrder.ReachedBy
      rcases stop with rfl | rfl
      · simpa [isBuy] using quiet.buys o member
      · simpa [isBuy] using quiet.sells o member
    have other : o.orderId ≠ o'.orderId := orderly.absent o (by rwa [stops t stop])
    show o.orderId ∈ o'.orderId :: ids (sentOf (b₁.submit o').releases) ↔ _
    rw [List.mem_cons,or_iff_right other,released.sent_iff orderly' inSide,released.reached t o stop inSide,all.marketPrice,
      reached_last notReached,batchesOf,List.exists_mem_cons_iff]
    rfl

/-- The market price is set. -/
theorem Orderly.sent_observed (orderly : Orderly b []) (px : Nat) :
    Sent b c (⟨[],[px]⟩ :: ({ b with market := b.market.observe px } : Book).releases)
      ({ b with market := b.market.observe px } : Book).processTriggered := by
  have orderly' := orderly_preserved.observe b px trivial orderly
  have released := orderly'.released
  have set : Went b.market (b.market.observe px) [] [px] := ⟨⟨[],by simp [Market.observe],rfl⟩,rfl,rfl⟩
  refine ⟨set.trans released.went,?_,?_⟩
  · intro id member
    obtain ⟨x,inBatches,rfl⟩ := List.mem_map.mp member
    cases released.parked x inBatches with
    | inl inSide => exact .inr ⟨_,mem_ids inSide⟩
    | inr inSide => exact .inr ⟨_,mem_ids inSide⟩
  · intro t o stop member
    show o.orderId ∈ ids (sentOf ({ b with market := b.market.observe px } : Book).releases) ↔ _
    rw [released.sent_iff orderly' member,released.reached t o stop member,List.exists_mem_cons_iff]
    apply or_congr_left
    simp [Batch.Releases,Market.observe]

theorem Orderly.batches_replace (orderly : Orderly b []) {orderId : UInt32} (sizeDelta : Int32) (newPrice : UInt64)
    (resting : t = .bids ∨ t = .asks)
    (member : o ∈ b.side t) (isId : o.orderId = orderId.toNat) :
    b.batches (.replace orderId sizeDelta newPrice) = b.replaceBatches t o sizeDelta.toInt newPrice.toNat := by
  have found := orderly.find_eq member
  rw [isId] at found
  rcases resting with rfl | rfl
  · simp only [batches,found]
  · have absent := orderly.bid_none member
    rw [isId] at absent
    simp only [batches,absent,found]

/-- What a command sends to matching. -/
theorem Orderly.sent (orderly : Orderly b []) (quiet : QuietAt b.market.marketPrice b) (fresh : b.Fresh c) :
    Sent b c (b.batches c) (b.step c) := by
  have outcome := step_outcome b c
  generalize b.step c = b' at outcome ⊢
  have notStop : ∀ t t' : TreeName, t = .bids ∨ t = .asks → t' = .stopBids ∨ t' = .stopAsks → ¬ t' = t := by
    rintro t t' (rfl | rfl) (rfl | rfl) <;> decide
  cases outcome with
  | rejected isBuy price stopPrice conditions orderId qty empty =>
    have none : b.batches (.add isBuy price qty stopPrice conditions orderId) = [] := if_pos (.inl empty)
    rw [none]
    exact sent_still rfl rfl rfl
  | parked isBuy price qty stopPrice conditions orderId o isNew some isStop stopped =>
    subst isNew
    have none : b.batches (.add isBuy price qty stopPrice conditions orderId) = [] := if_pos (.inr ⟨isStop,stopped⟩)
    rw [none]
    exact sent_still rfl rfl rfl
  | live isBuy price qty stopPrice conditions orderId o isNew some live =>
    subst isNew
    have one : b.batches (.add isBuy price qty stopPrice conditions orderId) = (b.emit (.onAccept orderId.toNat)).batchesOf _ :=
      if_neg fun no => no.elim some live
    rw [one]
    exact (orderly_preserved.arrive b _ _ _ _ _ _ fresh some trivial orderly).sent_submit quiet
      (went_still rfl rfl rfl) (fun _ _ => rfl) (.inl rfl)
  | cancelled | cancelRejected => exact sent_still rfl rfl rfl
  | replaceRejected orderId sizeDelta newPrice absent =>
    have none : b.batches (.replace orderId sizeDelta newPrice) = [] := by
      have bid : b.find .bids orderId.toNat = none := List.find?_eq_none.mpr fun x member => by simpa using absent _ (.inl rfl) x member
      have ask : b.find .asks orderId.toNat = none := List.find?_eq_none.mpr fun x member => by simpa using absent _ (.inr rfl) x member
      simp only [batches,bid,ask]
    rw [none]
    exact sent_still rfl rfl rfl
  | collapsed orderId sizeDelta newPrice t o resting member isId unmoved =>
    rw [orderly.batches_replace sizeDelta newPrice resting member isId,replaceBatches,if_neg fun moves => unmoved moves.1]
    exact sent_still rfl rfl rfl
  | resized orderId sizeDelta newPrice t o resting member isId unmoved =>
    rw [orderly.batches_replace sizeDelta newPrice resting member isId,replaceBatches,if_neg fun moves => unmoved moves.1]
    exact sent_still rfl rfl rfl
  | emptied orderId sizeDelta newPrice t o copy resting member isId moves isCopy empty =>
    subst isCopy
    rw [orderly.batches_replace sizeDelta newPrice resting member isId,replaceBatches,if_neg fun moves => moves.2 empty]
    exact sent_still rfl rfl rfl
  | repriced orderId sizeDelta newPrice t o copy resting member isId moves isCopy left =>
    subst isCopy
    rw [orderly.batches_replace sizeDelta newPrice resting member isId,replaceBatches,if_pos ⟨moves,left⟩]
    refine (orderly_preserved.emit _ _ _ rfl trivial (orderly_preserved.reprice b t o orderId sizeDelta newPrice resting member isId
      trivial moves.1 left trivial orderly)).sent_submit quiet (went_still rfl rfl rfl) (fun t' stop => ?_) (.inr ⟨t,?_⟩)
    · exact (side_eraseFrom b t t' o.orderId).trans (if_neg (notStop t t' resting stop))
    · rw [(o.modify_fields _ _).1]
      exact mem_ids member
  | observed px => exact orderly.sent_observed px.toNat

end Book

end BaboEngine
