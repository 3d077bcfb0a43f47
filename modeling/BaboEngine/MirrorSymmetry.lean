import BaboEngine.Mirror

/-!
# Mirrored runs

The mirror image of a run is a run of the mirrored commands: the listener is told the same, and
after every command the books are mirror images. A market price has to be observed first, since the
unset market price 0 has no mirror image.
-/

namespace BaboEngine
open RelatedLists Simulation

/-- The price opposite to a price below `C`. -/
def mirrorPrice (C p : Nat) : Nat := if p = 0 then 0 else C - p

/-- Buy and sell are swapped, and prices are opposite. -/
def Command.mirror (C : Nat) : Command → Command
  | .add isBuy price qty stopPrice conditions orderId =>
    .add (!isBuy) (.ofNat (mirrorPrice C price.toNat)) qty (.ofNat (mirrorPrice C stopPrice.toNat)) conditions orderId
  | .cancel orderId => .cancel orderId
  | .replace orderId sizeDelta newPrice => .replace orderId sizeDelta (.ofNat (mirrorPrice C newPrice.toNat))
  | .setMarketPrice px => .setMarketPrice (.ofNat (mirrorPrice C px.toNat))

/-- The prices of a command are below `C`, and it observes none that is 0. -/
def Command.Below (C : Nat) : Command → Prop
  | .add _ price _ stopPrice _ _ => price.toNat < C ∧ stopPrice.toNat < C
  | .cancel _ => True
  | .replace _ _ newPrice => newPrice.toNat < C
  | .setMarketPrice px => 1 ≤ px.toNat ∧ px.toNat < C

instance (C : Nat) : (c : Command) → Decidable (c.Below C)
  | .add _ price _ stopPrice _ _ => inferInstanceAs (Decidable (price.toNat < C ∧ stopPrice.toNat < C))
  | .cancel _ => .isTrue trivial
  | .replace _ _ newPrice => inferInstanceAs (Decidable (newPrice.toNat < C))
  | .setMarketPrice px => inferInstanceAs (Decidable (1 ≤ px.toNat ∧ px.toNat < C))

section
variable {C : Nat}

theorem mirrorPrice_spec {p : Nat} (below : p < C) : MirroredPrice C p (mirrorPrice C p) := by
  unfold MirroredPrice mirrorPrice
  split_ifs <;> omega

theorem mirrorPrice_le {p : Nat} : mirrorPrice C p ≤ C - 1 := by
  unfold mirrorPrice
  split_ifs <;> omega

theorem mirrored_uint32 (fits : C ≤ 4294967296) {p : UInt32} (below : p.toNat < C) :
    MirroredPrice C p.toNat (UInt32.ofNat (mirrorPrice C p.toNat)).toNat := by
  have most := mirrorPrice_le (C := C) (p := p.toNat)
  rw [UInt32.toNat_ofNat_of_lt' (by show _ < 4294967296; omega)]
  exact mirrorPrice_spec below

theorem mirrored_uint64 (fits : C ≤ 4294967296) {p : UInt64} (below : p.toNat < C) :
    MirroredPrice C p.toNat (UInt64.ofNat (mirrorPrice C p.toNat)).toNat := by
  have most := mirrorPrice_le (C := C) (p := p.toNat)
  rw [UInt64.toNat_ofNat_of_lt' (by show _ < 18446744073709551616; omega)]
  exact mirrorPrice_spec below

theorem added_mirror (C : Nat) (c : Command) : (c.mirror C).added = c.added := by cases c <;> rfl

theorem NeverReused.mirror {cs : List Command} (once : NeverReused cs) (C : Nat) : NeverReused (cs.map (Command.mirror C)) := by
  unfold NeverReused
  rw [List.filterMap_map]
  have same : Command.added ∘ Command.mirror C = Command.added := funext (added_mirror C)
  rwa [same]

end

/-- A change of an order and the opposite change of its mirror image. -/
theorem Mirrored.modify {C p p' : Nat} {o o' : SimpleOrder} (mirrored : Mirrored C o o') (fits : C ≤ 4294967296)
    (prices : MirroredPrice C p p') (d : Int) : Mirrored C (o.modify d p) (o'.modify d p') := by
  have none := prices.zero_iff
  have isPrice := mirrored.price
  unfold MirroredPrice at prices
  simp only [SimpleOrder.modify_cases]
  refine ⟨mirrored.state,mirrored.isBuy,by rw [mirrored.orderQty],?_,mirrored.stopPrice,mirrored.conditions,mirrored.filledQty,
    mirrored.reserved,mirrored.orderId⟩
  show MirroredPrice C (if p ≠ 0 then toU32 p else o.price) (if p' ≠ 0 then toU32 p' else o'.price)
  by_cases unchanged : p = 0
  · rw [if_neg (by simpa using unchanged),if_neg (by simpa using none.mpr unchanged)]
    exact isPrice
  · rw [if_pos unchanged,if_pos fun unchanged' => unchanged (none.mp unchanged'),SimpleOrder.toU32_of_lt (by omega),
      SimpleOrder.toU32_of_lt (by omega)]
    exact prices

namespace Book
variable {b : Book} {o : SimpleOrder} {t : TreeName} {id : Nat} {hand : List SimpleOrder}

theorem replace_none (absent : ∀ t, t = .bids ∨ t = .asks → ∀ x ∈ b.side t, x.orderId ≠ id) (sizeDelta : Int) (newPrice : Nat) :
    b.replace id sizeDelta newPrice = b.emit (.onReplaceReject id "not found") := by
  have none : ∀ t, t = .bids ∨ t = .asks → b.find t id = none := by
    intro t resting
    cases found : b.find t id with
    | none => rfl
    | some x =>
      obtain ⟨inSide,same⟩ := find_some found
      exact absurd same (absent t resting x inSide)
  unfold replace
  rw [none _ (.inl rfl),none _ (.inr rfl)]

end Book

namespace MirroredBook
variable {C : Nat} {b b' : Book} {o o' : SimpleOrder} {t : TreeName} {id : Nat}

/-- An id that is on no side of a book is on no side of its mirror image. -/
theorem absent (mirrored : MirroredBook C b b') (absent : ∀ x ∈ b.side t, x.orderId ≠ id) : ∀ x ∈ b'.side t.mirror, x.orderId ≠ id := by
  intro x' member
  obtain ⟨x,inSide,order⟩ := exists_left (mirrored.side t) member
  rw [order.orderId]
  exact absent x inSide

theorem goLive (mirrored : MirroredBook C b b') (order : Mirrored C o o') (orderly : Book.Orderly b [o]) {p : Nat}
    (quiet : Book.QuietAt p b) :
    MirroredBook C (b.submit o).processTriggered (b'.submit o').processTriggered :=
  (mirrored.submit order orderly.handSized).processTriggered orderly.submit (orderly.quiet_submit quiet)

theorem add (mirrored : MirroredBook C b b') (orderly : Book.Orderly b []) {p : Nat} (quiet : Book.QuietAt p b)
    {isBuy : Bool} {price qty stopPrice conditions orderId : UInt32} (fresh : b.Fresh (.add isBuy price qty stopPrice conditions orderId))
    (isOrder : o = .new isBuy price qty stopPrice conditions orderId) (order : Mirrored C o o') : MirroredBook C (b.add o) (b'.add o') := by
  have told : MirroredBook C (b.emit (.onAccept o.orderId)) (b'.emit (.onAccept o.orderId)) := mirrored.emit rfl
  simp only [Book.add,order.orderQty,order.orderId]
  by_cases empty : o.orderQty = 0
  · rw [if_pos empty,if_pos empty]
    exact mirrored.emit rfl
  · rw [if_neg empty,if_neg empty]
    have isStop : o'.stopPrice ≠ 0 ↔ o.stopPrice ≠ 0 := not_congr order.stopPrice.zero_iff
    have parks : (o'.stopPrice ≠ 0 ∧ (b'.emit (.onAccept o.orderId)).isStopped o') ↔
        o.stopPrice ≠ 0 ∧ (b.emit (.onAccept o.orderId)).isStopped o := by
      rw [isStop]
      exact and_congr_right fun some => by rw [told.isStopped order some]
    by_cases stopped : o.stopPrice ≠ 0 ∧ (b.emit (.onAccept o.orderId)).isStopped o
    · rw [if_pos stopped,if_pos (parks.mpr stopped)]
      exact told.parkStop order stopped.1
    · rw [if_neg stopped,if_neg fun stopped' => stopped (parks.mp stopped')]
      refine told.goLive order ?_ (p := p) ⟨quiet.buys,quiet.sells⟩
      have isQty : qty.toNat ≠ 0 := by
        rw [isOrder] at empty
        exact empty
      rw [isOrder]
      exact Book.orderly_preserved.arrive b _ _ _ _ _ _ fresh isQty trivial orderly

theorem cancel (mirrored : MirroredBook C b b') (orderly : Book.Orderly b []) (orderly' : Book.Orderly b' []) (id : Nat) :
    MirroredBook C (b.cancel id) (b'.cancel id) := by
  by_cases known : ∃ t, ∃ x ∈ b.side t, x.orderId = id
  · obtain ⟨t,x,member,rfl⟩ := known
    obtain ⟨x',member',order⟩ := exists_right (mirrored.side t) member
    have cancels := orderly'.cancel_eq member'
    rw [order.orderId] at cancels
    rw [orderly.cancel_eq member,cancels]
    exact (mirrored.eraseFrom t x.orderId).emit rfl
  · have absent : ∀ t, ∀ x ∈ b.side t, x.orderId ≠ id := fun t x member same => known ⟨t,x,member,same⟩
    have absent' : ∀ t, ∀ x ∈ b'.side t, x.orderId ≠ id := by
      intro t
      rw [← t.mirror_mirror]
      exact mirrored.absent (absent t.mirror)
    rw [Book.cancel_none absent,Book.cancel_none absent']
    exact mirrored.emit rfl

theorem edit (mirrored : MirroredBook C b b') (t : TreeName) (id : Nat) {f f' : SimpleOrder → SimpleOrder}
    (same : ∀ x x', MirroredOn C t x x' → MirroredOn C t (f x) (f' x')) : MirroredBook C (b.edit t id f) (b'.edit t.mirror id f') := by
  refine mirrored.put t (List.rel_map (R := MirroredOn C t) (fun x x' order => ?_) (mirrored.side t))
  simp only [order.orderId]
  split_ifs
  · exact same x x' order
  · exact order

theorem resize (mirrored : MirroredBook C b b') (fits : C ≤ 4294967296) (order : MirroredOn C t o o') (sizeDelta : Int) :
    MirroredBook C (b.resize t o sizeDelta) (b'.resize t.mirror o' sizeDelta) := by
  simp only [Book.resize,order.openQty,order.orderId]
  split_ifs
  · exact mirrored.eraseFrom t o.orderId
  · refine mirrored.edit t o.orderId fun x x' other => ⟨other.modify fits (.inl ⟨rfl,rfl⟩) sizeDelta,?_⟩
    rw [t.key_resized]
    exact other.keyed

theorem reprice (mirrored : MirroredBook C b b') (fits : C ≤ 4294967296) (orderly : Book.Orderly b []) {p : Nat} (quiet : Book.QuietAt p b)
    {orderId : UInt32} {sizeDelta : Int32} {newPrice : UInt64} {newPrice' : Nat} (resting : t = .bids ∨ t = .asks) (member : o ∈ b.side t)
    (isId : o.orderId = orderId.toNat) (order : MirroredOn C t o o') (moves : newPrice.toNat ≠ priceUnchanged)
    (prices : MirroredPrice C newPrice.toNat newPrice') :
    MirroredBook C (b.reprice t o sizeDelta.toInt newPrice.toNat) (b'.reprice t.mirror o' sizeDelta.toInt newPrice') := by
  have copies := order.toMirrored.modify fits prices sizeDelta.toInt
  have told := (mirrored.eraseFrom t o.orderId).emit (e := .onReplace o.orderId sizeDelta.toInt (o.modify sizeDelta.toInt newPrice.toNat).price)
    ⟨_,copies.price,rfl⟩
  simp only [Book.reprice,order.orderId,copies.openQty]
  by_cases empty : (o.modify sizeDelta.toInt newPrice.toNat).openQty = 0
  · rw [if_pos empty,if_pos empty]
    exact told
  · rw [if_neg empty,if_neg empty]
    have arrived := Book.orderly_preserved.reprice b t o orderId sizeDelta newPrice resting member isId trivial moves empty trivial orderly
    exact told.goLive copies (Book.orderly_preserved.emit _ _ _ rfl trivial arrived)
      (quiet.sublist fun t' _ => b.sublist_eraseFrom t t' o.orderId)

theorem replace (mirrored : MirroredBook C b b') (fits : C ≤ 4294967296) (orderly : Book.Orderly b []) (orderly' : Book.Orderly b' [])
    {p : Nat} (quiet : Book.QuietAt p b) (orderId : UInt32) (sizeDelta : Int32) (newPrice : UInt64) {newPrice' : Nat}
    (prices : MirroredPrice C newPrice.toNat newPrice') :
    MirroredBook C (b.replace orderId.toNat sizeDelta.toInt newPrice.toNat) (b'.replace orderId.toNat sizeDelta.toInt newPrice') := by
  by_cases known : ∃ t, (t = .bids ∨ t = .asks) ∧ ∃ x ∈ b.side t, x.orderId = orderId.toNat
  · obtain ⟨t,resting,o,member,isId⟩ := known
    obtain ⟨o',member',order⟩ := exists_right (mirrored.side t) member
    have resting' : t.mirror = .bids ∨ t.mirror = .asks := by rcases resting with rfl | rfl <;> simp [TreeName.mirror]
    have replaces := orderly.replace_eq resting member sizeDelta.toInt newPrice.toNat
    have replaces' := orderly'.replace_eq resting' member' sizeDelta.toInt newPrice'
    rw [isId] at replaces
    rw [order.orderId,isId] at replaces'
    rw [replaces,replaces']
    have same : Book.Reprices o' newPrice' ↔ Book.Reprices o newPrice.toNat := by
      have priced := order.priced resting
      have isPrice := order.price
      unfold MirroredPrice at prices isPrice
      unfold Book.Reprices priceUnchanged
      omega
    unfold Book.replaceOrder
    by_cases moves : Book.Reprices o newPrice.toNat
    · rw [if_pos moves,if_pos (same.mpr moves)]
      exact mirrored.reprice fits orderly quiet resting member isId order moves.1 prices
    · rw [if_neg moves,if_neg fun moves' => moves (same.mp moves'),order.orderId]
      exact (mirrored.resize fits order sizeDelta.toInt).emit ⟨_,order.price,rfl⟩
  · have absent : ∀ t, t = .bids ∨ t = .asks → ∀ x ∈ b.side t, x.orderId ≠ orderId.toNat :=
      fun t resting x member same => known ⟨t,resting,x,member,same⟩
    have absent' : ∀ t, t = .bids ∨ t = .asks → ∀ x ∈ b'.side t, x.orderId ≠ orderId.toNat := by
      rintro t (rfl | rfl)
      · exact mirrored.absent (t := .asks) (absent .asks (.inr rfl))
      · exact mirrored.absent (t := .bids) (absent .bids (.inl rfl))
    rw [Book.replace_none absent,Book.replace_none absent']
    exact mirrored.emit rfl

/-- A command and its mirror image keep two books mirror images. -/
theorem step (mirrored : MirroredBook C b b') (fits : C ≤ 4294967296) (orderly : Book.Orderly b []) (orderly' : Book.Orderly b' [])
    {p : Nat} (quiet : Book.QuietAt p b) {c : Command} (fresh : b.Fresh c) (below : c.Below C) :
    MirroredBook C (b.step c) (b'.step (c.mirror C)) := by
  cases c with
  | add isBuy price qty stopPrice conditions orderId =>
    refine mirrored.add orderly quiet fresh rfl ⟨rfl,rfl,rfl,?_,?_,rfl,rfl,rfl,rfl⟩
    · exact mirrored_uint32 fits below.1
    · exact mirrored_uint32 fits below.2
  | cancel orderId => exact mirrored.cancel orderly orderly' orderId.toNat
  | replace orderId sizeDelta newPrice =>
    exact mirrored.replace fits orderly orderly' quiet orderId sizeDelta newPrice (mirrored_uint64 fits below)
  | setMarketPrice px =>
    have some : px.toNat ≠ 0 := Nat.ne_of_gt below.1
    exact (mirrored.journal (mirrored.market.observe (mirrored_uint64 fits below.2) some)).processTriggered
      (Book.orderly_preserved.observe b px.toNat trivial orderly) (p := p) ⟨quiet.buys,quiet.sells⟩

/-- A run and its mirror image keep them so. -/
theorem run (fits : C ≤ 4294967296) (cs : List Command) : ∀ b b' : Book, MirroredBook C b b' → Book.Orderly b' [] →
    (Book.Orderly b [] ∧ ∀ t, t = .stopBids ∨ t = .stopAsks → Queued t b.market.parked (b.side t)) → Book.QuietAt b.market.marketPrice b →
    Admitted Book.Fresh Book.step b cs → Admitted Book.Fresh Book.step b' (cs.map (Command.mirror C)) → (∀ c ∈ cs, c.Below C) →
    MirroredBook C (cs.foldl Book.step b) ((cs.map (Command.mirror C)).foldl Book.step b') := by
  induction cs with
  | nil => exact fun _ _ mirrored _ _ _ _ _ _ => mirrored
  | cons c cs ih =>
    rintro b b' mirrored orderly' inv quiet ⟨fresh,rest⟩ ⟨fresh',rest'⟩ below
    obtain ⟨first,others⟩ := List.forall_mem_cons.mp below
    exact ih (b.step c) (b'.step (c.mirror C)) (mirrored.step fits inv.1 orderly' quiet fresh first)
      (Book.orderly_preserved.step fresh' orderly') ((Book.orderly_preserved.above Book.parked_queued).step fresh inv)
      ((Book.step_outcome b c).handled fresh inv.1 quiet inv.2).quiet rest rest' others

/-- The first observed price makes two empty books mirror images. -/
theorem observe_start {px px' : Nat} (prices : MirroredPrice C px px') (some : px ≠ 0) :
    MirroredBook C (Book.start.setMarketPrice px) (Book.start.setMarketPrice px') := by
  have mirrored : MirroredBook C { Book.start with market := Book.start.market.observe px }
      { Book.start with market := Book.start.market.observe px' } :=
    ⟨fun _ => .nil,prices,some,.nil,.cons prices .nil,.nil⟩
  exact mirrored.processTriggered (Book.orderly_preserved.observe .start px trivial Book.orderly_start) (p := px)
    ⟨by simp [Book.start],by simp [Book.start]⟩

theorem after (fits : C ≤ 4294967296) {px : UInt64} (some : 1 ≤ px.toNat) (below : px.toNat < C) {cs : List Command}
    (belows : ∀ c ∈ cs, c.Below C) (once : NeverReused cs) :
    MirroredBook C (.after (.setMarketPrice px :: cs)) (.after ((Command.setMarketPrice px :: cs).map (Command.mirror C))) := by
  have whole : NeverReused (.setMarketPrice px :: cs) := once
  have whole' : NeverReused ((Command.setMarketPrice px).mirror C :: cs.map (Command.mirror C)) := once.mirror C
  obtain ⟨fresh,admitted⟩ := whole.admitted
  obtain ⟨fresh',admitted'⟩ := whole'.admitted
  have inv := (Book.orderly_preserved.above Book.parked_queued).step fresh ⟨Book.orderly_start,fun t _ => queued_nil t _⟩
  have quiet := ((Book.step_outcome .start (.setMarketPrice px)).handled fresh Book.orderly_start
    ⟨by simp [Book.start],by simp [Book.start]⟩ fun t _ => queued_nil t _).quiet
  exact run fits cs _ _ (observe_start (mirrored_uint64 fits below) (Nat.ne_of_gt some)) (Book.orderly_preserved.step fresh' Book.orderly_start)
    inv quiet admitted admitted' belows

end MirroredBook

namespace MatchingBook
variable {N : Capacity} {C : Nat} {cs : List Command}

/-- What two mirrored books show: the orders of the four trees, the market prices, the calls of the listeners, the
    observed prices and the trades. -/
structure MirrorImages (C : Nat) (m m' : MatchingBook N) (sides sides' : TreeName → List SimpleOrder) : Prop where
  snapshots : ∀ t, (m.on t).snapshot = some (sides t) ∧ (m'.on t).snapshot = some (sides' t)
  sides : ∀ t, List.Forall₂ (Mirrored C) (sides t) (sides' t.mirror)
  marketPrice : MirroredPrice C m.market.marketPrice m'.market.marketPrice
  events : List.Forall₂ (MirroredEvent C) m.market.events m'.market.events
  observed : List.Forall₂ (MirroredPrice C) m.market.observed m'.market.observed
  trades : List.Forall₂ (MirroredTrade C) m.market.trades m'.market.trades

/-- After every run that begins with an observed price, and its mirror image on another book, the books are mirror images. -/
theorem mirror_symmetry (h h' : Pools N) (fits : C ≤ 4294967296) {px : UInt64} (observes : 1 ≤ px.toNat) (below : px.toNat < C)
    (belows : ∀ c ∈ cs, c.Below C) (once : NeverReused cs) : ∃ m m' sides sides', after h (.setMarketPrice px :: cs) = some m ∧
      after h' ((Command.setMarketPrice px :: cs).map (Command.mirror C)) = some m' ∧ MirrorImages C m m' sides sides' := by
  have mirrored := MirroredBook.after fits observes below belows once
  have once' := once.mirror C
  obtain ⟨m,ran,rep⟩ := run_represents h (.setMarketPrice px :: cs) once fun no : False => no.elim
  obtain ⟨m',ran',rep'⟩ := run_represents h' ((Command.setMarketPrice px :: cs).map (Command.mirror C)) once' fun no : False => no.elim
  obtain ⟨sides,marketPrice,_,events,observed,trades⟩ := mirrored
  rw [← rep.market,← rep'.market] at marketPrice events observed trades
  exact ⟨m,m',_,_,ran,ran',fun t => ⟨rep.snapshot t,rep'.snapshot t⟩,fun t => (sides t).imp fun _ _ order => order.toMirrored,
    marketPrice,events,observed,trades⟩

/-- A sell stop that a trade releases, and a market order that takes what is left. -/
theorem mirror_symmetry_stop : ∃ (m m' : MatchingBook ⟨1,by decide,by decide⟩) (sides sides' : TreeName → List SimpleOrder),
    after .empty [.setMarketPrice 100,.add false 90 4 95 0 1,.add true 94 3 0 0 2,.add false 94 1 0 0 3,.add true 0 9 0 0 4] = some m ∧
      after .empty ([.setMarketPrice 100,.add false 90 4 95 0 1,.add true 94 3 0 0 2,.add false 94 1 0 0 3,.add true 0 9 0 0 4].map
        (Command.mirror 150)) = some m' ∧ MirrorImages 150 m m' sides sides' :=
  mirror_symmetry .empty .empty (by decide) (by decide) (by decide) (by decide) (by decide)

end MatchingBook

end BaboEngine
