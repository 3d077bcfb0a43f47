import BaboEngine.LiquibookRuns
import BaboEngine.ReportQueries

/-!
# Equivalence of the adapters

Both adapters give the answers of the abstract book, so they are the same to whoever reads
their reports and asks their queries: `LiquibookAdapter.adapters_agree`. The counter of the liquibook orders has 32
bits, and a stream that brings it round mislabels a trade (`adapters_differ`).
-/

namespace BaboEngine
open Liquibook Simulation

/-- The first order of a side is at its first level. -/
theorem LevelsOf.first {t : TreeName} {os : List SimpleOrder} {ds : List PriceLevel} (levels : LevelsOf t os ds)
    (sorted : Book.SortedSide t os) : ds.head?.map PriceLevel.price = os.head?.map t.key := by
  cases ds with
  | nil => rw [levels.nil]; rfl
  | cons d ds =>
    obtain ⟨⟨o,member,isPrice⟩,noBetter⟩ := levels.head
    cases os with
    | nil => exact absurd member List.not_mem_nil
    | cons x os =>
      have notAhead : ¬ t.type.better d.price (t.key x) := by
        rw [← isPrice]
        rcases List.mem_cons.mp member with rfl | later
        · exact t.type.better_irrefl _
        · exact (List.pairwise_cons.mp sorted).1 o later
      have same : d.price = t.key x := by
        by_contra other
        cases OrderType.better_total t.type other with
        | inl ahead => exact notAhead ahead
        | inr behind => exact noBetter x List.mem_cons_self behind
      exact congrArg some same

/-! ## Queries -/

/-- The price of the best order of a side, or what stands for none. -/
def Book.bestOr (b : Book) (t : TreeName) (none : Int) : Int := ((b.side t).head?.map fun o => (o.price : Int)).getD none

namespace BabobookAdapter
variable {N : Capacity} {a : BabobookAdapter N} {d : Desk} {t : TreeName}

theorem bestOr_book (follows : Follows a d) (plain : d.book.Plain) (resting : t = .bids ∨ t = .asks) (none : Int) :
    bestOr (a.book.on t) none = some (d.book.bestOr t none) := by
  obtain ⟨ds,walked,levels⟩ := follows.book.levelsOf t
  have first := levels.first (plain.orderly.sorted t)
  have isKey : t.key = SimpleOrder.price := by rcases resting with rfl | rfl <;> rfl
  have cast := congrArg (Option.map fun n : Nat => (n : Int)) first
  rw [Option.map_map,Option.map_map,isKey] at cast
  rw [bestOr_eq walked,Book.bestOr]
  exact congrArg (fun p => some (Option.getD p none)) cast

end BabobookAdapter

namespace LiquibookAdapter
variable {a : LiquibookAdapter} {b : Book} {t : TreeName}

theorem Stands.bids (stands : Stands a b) : a.book.bids = (b.side .bids).map (SimpleOrder.entry a.ptr) := stands.market .bids (.inl rfl)

theorem Stands.asks (stands : Stands a b) : a.book.asks = (b.side .asks).map (SimpleOrder.entry a.ptr) := stands.market .asks (.inr rfl)

theorem Stands.bestBid (stands : Stands a b) : a.engineQueryBestBid = b.bestOr .bids BabobookAdapter.int64Min := by
  rw [engineQueryBestBid,stands.bids,Book.bestOr]
  cases b.side .bids <;> rfl

theorem Stands.bestAsk (stands : Stands a b) : a.engineQueryBestAsk = b.bestOr .asks BabobookAdapter.int64Max := by
  rw [engineQueryBestAsk,stands.asks,Book.bestOr]
  cases b.side .asks <;> rfl

/-- The entries of a price make up the sum over the side. -/
theorem Stands.depthAt (stands : Stands a b) (plain : b.Plain) (p : Int) (side : UInt8) :
    a.engineQueryDepthAt p side = BabobookAdapter.sumAt (toU32 p) (b.side (if side = 0 then .bids else .asks)) := by
  have resting : (if side = 0 then TreeName.bids else .asks) = .bids ∨ (if side = 0 then TreeName.bids else .asks) = .asks := by
    split_ifs <;> simp
  have isSide : decide ((if side = 0 then TreeName.bids else .asks) = .bids) = decide (side = 0) := by
    split_ifs with buys <;> simp [buys]
  have market := stands.market _ resting
  have plainSide := plain.plainSide resting
  rw [isSide] at market
  generalize (if side = 0 then TreeName.bids else .asks) = t at resting isSide market plainSide ⊢
  have range : TrackerMap.equalRange ((b.side t).map (SimpleOrder.entry a.ptr)) ⟨decide (side = 0),toU32 p⟩ =
      ((b.side t).filter fun o => o.price = toU32 p).map (SimpleOrder.entry a.ptr) := by
    cases Nat.eq_zero_or_pos (toU32 p) with
    | inl zero =>
      have none : (b.side t).filter (fun o => o.price = toU32 p) = [] := by
        refine List.filter_eq_nil_iff.mpr fun o member isPrice => ?_
        have price := (plainSide.each o member).price.1
        have isPrice' : o.price = toU32 p := of_decide_eq_true isPrice
        omega
      rw [none,zero]
      exact equalRange_market a.ptr _ plainSide
    | inr priced =>
      rw [← isSide]
      exact equalRange_entry a.ptr resting priced plainSide
  rw [engineQueryDepthAt,market,range,List.foldl_map,List.foldl_filter,BabobookAdapter.sumAt]
  refine List.foldl_ext _ _ _ fun total o member => ?_
  have isOpen : (o.entry a.ptr).2.openQty = o.openQty := openQty_tracker (plainSide.sized o member)
  rw [isOpen]
  simp only [decide_eq_true_eq]

/-! ## Agreement -/

/-- What both engines have to say: the reports so far, the best prices and the depths. -/
structure Agree {N : Capacity} (l : LiquibookAdapter) (a : BabobookAdapter N) : Prop where
  reports : l.reports = a.reports
  bestBid : a.engineQueryBestBid = some l.engineQueryBestBid
  bestAsk : a.engineQueryBestAsk = some l.engineQueryBestAsk
  depthAt : ∀ (priceTicks : Int) (side : UInt8), a.engineQueryDepthAt priceTicks side = some (l.engineQueryDepthAt priceTicks side)

/-- Adapters that follow one desk agree. -/
theorem Follows.agree {N : Capacity} {l : LiquibookAdapter} {a : BabobookAdapter N} {d : Desk} (left : l.Follows d) (right : a.Follows d)
    (plain : d.book.Plain) : Agree l a := by
  refine ⟨left.reports.trans right.reports.symm,?_,?_,?_⟩
  · rw [left.stands.bestBid]
    exact BabobookAdapter.bestOr_book right plain (.inl rfl) _
  · rw [left.stands.bestAsk]
    exact BabobookAdapter.bestOr_book right plain (.inr rfl) _
  · intro p side
    rw [left.stands.depthAt plain p side]
    exact BabobookAdapter.engineQueryDepthAt_book right p side

/-! ## A stream that brings the counter round -/

def sale : NewOrder := ⟨1,1,100,1,1,0⟩
def nothing : NewOrder := ⟨2,2,100,0,0,0⟩
def purchase : NewOrder := ⟨3,3,100,1,0,0⟩

/-- The sale rests at the first pointer, and the label of that pointer is lost when 2^32 orders have followed. -/
structure Jam (a : LiquibookAdapter) (d : Desk) (ms : List Message) : Prop where
  stands : Stands a d.book
  plain : d.book.Plain
  side : d.book.side = (Desk.start.step (.newOrder sale)).book.side
  room : Room a ms
  maker : a.findOrder 1 = some 0
  label : 4294967296 < a.all.length → a.label 0 = 2
  length : a.all.length + builds ms = 4294967298

theorem findResting_congr {b b' : Book} (side : b.side = b'.side) (id : Nat) : b.findResting id = b'.findResting id := by
  rw [Book.findResting,Book.findResting,Book.find,Book.find,Book.find,Book.find,side]

theorem tradesOf_congr {b b' : Book} (side : b.side = b'.side) (o : SimpleOrder) : b.tradesOf o = b'.tradesOf o := by
  rw [Book.tradesOf,Book.tradesOf,Book.pass,Book.pass,side]

theorem Jam.step {d : Desk} {ms : List Message} (jam : Jam a d (.newOrder nothing :: ms)) :
    ∃ a', a.step (.newOrder nothing) = some a' ∧ Jam a' (d.step (.newOrder nothing)) ms := by
  have admitted : d.book.Admits (.newOrder nothing) := (findResting_congr jam.side _).trans (by decide)
  have inRange : (Message.newOrder nothing).InRange := by decide
  have inTable := jam.room.ids nothing List.mem_cons_self
  obtain ⟨book,all,stepped,length,stands⟩ := jam.stands.newOrder jam.plain inRange admitted jam.room
  have total : a.all.length + (1 + builds ms) = 4294967298 := jam.length
  have isLabel : toU32 (a.lastOrderId + 1) = toU32 (a.all.length + 1) := by rw [jam.stands.lastOrderId,SimpleOrder.toU32_add]
  refine ⟨_,stepped,stands.told .. ,jam.plain.answer inRange admitted,jam.side,jam.room.grown ⟨length.le,rfl,rfl⟩,?_,?_,?_⟩
  · exact (findOrder_asked inTable 1).trans jam.maker
  · intro many
    have many' : 4294967296 < all.length := many
    show Function.update a.lb2ext.slot (toU32 (a.lastOrderId + 1)) 2 (toU32 (0 + 1)) = 2
    by_cases here : toU32 (a.lastOrderId + 1) = toU32 (0 + 1)
    · rw [here,Function.update_self]
    · rw [Function.update_of_ne (Ne.symm here)]
      refine jam.label (lt_of_le_of_ne (by omega) fun round => here ?_)
      rw [isLabel,← round]
      decide
  · show all.length + builds ms = _
    omega

/-- A sale, orders that are empty, and a purchase. -/
def stream (n : Nat) : List Message := .newOrder sale :: (List.replicate n (.newOrder nothing) ++ [.newOrder purchase])

theorem builds_stream (n : Nat) : builds (List.replicate n (.newOrder nothing) ++ [.newOrder purchase]) = n + 1 := by
  simp [builds,Message.builds]

theorem Jam.start {n : Nat} (round : n = 4294967296) : ∃ a, (prebuilt (stream n)).step (.newOrder sale) = some a ∧
    Jam a (Desk.start.step (.newOrder sale)) (List.replicate n (.newOrder nothing) ++ [.newOrder purchase]) := by
  have pre := prebuilt_spec (stream n)
  obtain ⟨stands,_,room⟩ := pre.start
  have inRange : (Message.newOrder sale).InRange := by decide
  have admitted : Book.start.Admits (.newOrder sale) := by decide
  have inTable := room.ids sale List.mem_cons_self
  obtain ⟨book,all,stepped,length,stands'⟩ := stands.newOrder Book.plain_start inRange admitted room
  have none : (prebuilt (stream n)).all.length = 0 := by rw [pre.all]; rfl
  have total := builds_stream n
  refine ⟨_,stepped,stands'.told .. ,Book.plain_start.answer inRange admitted,rfl,room.grown ⟨length.le,rfl,rfl⟩,?_,?_,?_⟩
  · refine (findOrder_asked inTable 1).trans ((if_pos (by decide)).trans ?_)
    rw [none]
  · intro many
    have many' : 4294967296 < all.length := many
    omega
  · show all.length + _ = _
    omega

/-- The last order of the stream trades with the sale, under the label that has come in its place. -/
theorem Jam.trade {d : Desk} (jam : Jam a d [.newOrder purchase]) : ∃ a', a.step (.newOrder purchase) = some a' ∧
    a'.reports.getLast?.map Report.makerOrderId = some 2 := by
  have inRange : (Message.newOrder purchase).InRange := by decide
  have admitted : d.book.Admits (.newOrder purchase) := (findResting_congr jam.side _).trans (by decide)
  have inTable := jam.room.ids _ List.mem_cons_self
  obtain ⟨book,all,stepped,length,stands⟩ := jam.stands.newOrder jam.plain inRange admitted jam.room
  refine ⟨_,stepped,?_⟩
  obtain ⟨t,trades,isMaker⟩ : ∃ t, d.book.tradesOf purchase.order = [t] ∧ t.maker.orderId = 1 := by
    refine ⟨_,(tradesOf_congr jam.side _).trans rfl,rfl⟩
  have isPtr : (a.asked purchase).ptr 1 = 0 :=
    ptr_eq ((findOrder_asked inTable 1).trans jam.maker)
  have many : a.all.length + 1 = 4294967298 := jam.length
  have isLabel : toU32 (a.lastOrderId + 1) = 2 := by
    rw [jam.stands.lastOrderId,SimpleOrder.toU32_add]
    unfold toU32
    omega
  have label : (a.asked purchase).label 0 = 2 := by
    show Function.update a.lb2ext.slot (toU32 (a.lastOrderId + 1)) 3 (toU32 (0 + 1)) = 2
    rw [isLabel,Function.update_of_ne (by decide)]
    exact jam.label (by omega)
  have notIoc : ¬ (purchase.ioc ≠ 0) := by decide
  simp only [trades,notIoc,false_and,if_false,List.append_nil,List.map_cons,List.map_nil,List.getLast?_append,List.getLast?_singleton,
    Option.some_or,Option.map_some,LiquibookAdapter.report,isMaker,isPtr,label]

/-- The orders of the stream that are empty leave the sides of the book. -/
theorem admitted_nothing (n : Nat) : ∀ d : Desk, d.book.side = (Desk.start.step (.newOrder sale)).book.side →
    Admitted Desk.Ok Desk.step d (List.replicate n (.newOrder nothing)) ∧
      ((List.replicate n (.newOrder nothing)).foldl Desk.step d).book.side = (Desk.start.step (.newOrder sale)).book.side := by
  induction n with
  | zero => exact fun d side => ⟨trivial,side⟩
  | succ n ih =>
    intro d side
    have admitted : d.book.Admits (.newOrder nothing) := (findResting_congr side _).trans (by decide)
    obtain ⟨rest,side'⟩ := ih (d.step (.newOrder nothing)) side
    exact ⟨⟨⟨by decide,admitted⟩,rest⟩,side'⟩

/-- In the book the trade of the last order is with the sale. -/
theorem purchase_step {d : Desk} (side : d.book.side = (Desk.start.step (.newOrder sale)).book.side) :
    d.Ok (.newOrder purchase) ∧ (d.step (.newOrder purchase)).reports.getLast?.map Report.makerOrderId = some 1 := by
  have admitted : d.book.Admits (.newOrder purchase) := (findResting_congr side _).trans (by decide)
  obtain ⟨t,trades,isMaker⟩ : ∃ t, d.book.tradesOf purchase.order = [t] ∧ t.maker.orderId = 1 :=
    ⟨_,(tradesOf_congr side _).trans rfl,rfl⟩
  have notIoc : ¬ (purchase.ioc ≠ 0) := by decide
  refine ⟨⟨by decide,admitted⟩,?_⟩
  simp only [Desk.step,Book.answer,Book.answerNewOrder,trades,notIoc,false_and,if_false,List.append_nil,List.map_cons,List.map_nil,
    List.getLast?_append,List.getLast?_cons,Option.some_or,Option.map_some,Trade.report,isMaker]
  rfl

theorem stream_admitted (n : Nat) : Admitted Desk.Ok Desk.step Desk.start (stream n) ∧
    (Desk.after (stream n)).reports.getLast?.map Report.makerOrderId = some 1 := by
  obtain ⟨rest,side⟩ := admitted_nothing n (Desk.start.step (.newOrder sale)) rfl
  obtain ⟨last,maker⟩ := purchase_step side
  refine ⟨⟨by decide,admitted_append.mpr ⟨rest,last,trivial⟩⟩,?_⟩
  rw [Desk.after,stream,List.foldl_cons,List.foldl_append]
  exact maker

/-- The liquibook adapter has lost the label of the sale when the counter has come round. -/
theorem stream_mislabels {n : Nat} (round : n = 4294967296) : ∃ l, after (stream n) (stream n) = some l ∧
    l.reports.getLast?.map Report.makerOrderId = some 2 := by
  obtain ⟨l₁,step₁,jam₁⟩ := Jam.start round
  have matched : ∀ (a : LiquibookAdapter) (d : Desk) (m : Message) (ms : List Message), Jam a d (m :: ms) → m = .newOrder nothing →
      ∃ a', a.step m = some a' ∧ Jam a' (d.step m) ms := by
    rintro a d m ms jam rfl
    exact jam.step
  have all : ∀ m ∈ List.replicate n (Message.newOrder nothing), m = .newOrder nothing := fun m member => List.eq_of_mem_replicate member
  obtain ⟨l₂,ran₂,jam₂⟩ := run_foreseen matched [.newOrder purchase] _ l₁ _ jam₁ (admitted_all all _)
  obtain ⟨l₃,step₃,maker⟩ := jam₂.trade
  have ran₂' : (List.replicate n (Message.newOrder nothing)).foldlM LiquibookAdapter.step l₁ = some l₂ := ran₂
  refine ⟨l₃,?_,maker⟩
  have second : run LiquibookAdapter.step l₁ (List.replicate n (.newOrder nothing) ++ [.newOrder purchase]) = some l₃ := by
    rw [run,List.foldlM_append,ran₂']
    exact (run_cons l₂ _ []).trans (by rw [step₃]; rfl)
  rw [after,run,stream,List.foldlM_cons]
  exact (congrArg (Option.bind · _) step₁).trans second

/-! ## Runs -/

/-- The two adapters agree after every message of a stream that builds at most 2^32 orders. -/
theorem adapters_agree {N : Capacity} (h : Pools N) {whole : List Message} (admissible : BabobookAdapter.Admissible h whole)
    (few : builds whole ≤ 4294967296) : ∀ before later, whole = before ++ later →
      ∃ l a, after whole before = some l ∧ BabobookAdapter.after h before = some a ∧ Agree l a := by
  rintro before later rfl
  have admitted := admissible.front.admitted
  obtain ⟨l,ranLeft,left⟩ := run_follows admitted few
  obtain ⟨a,ranRight,right,plain⟩ := BabobookAdapter.run_follows h admitted
  exact ⟨l,a,ranLeft,ranRight,left.agree right plain⟩

/-- Two sells and a buy that misses them, an empty order, a cancel that comes twice, and a modify that turns a sell into a buy and trades. -/
theorem adapters_agree_flip :
    let whole : List Message := [.newOrder ⟨1,1,100,10,1,0⟩,.newOrder ⟨2,2,99,4,0,0⟩,.newOrder ⟨3,3,99,0,0,1⟩,.newOrder ⟨4,4,98,5,0,0⟩,
      .cancel ⟨4,5⟩,.cancel ⟨4,6⟩,.newOrder ⟨5,7,101,3,1,0⟩,.modify ⟨1,8,101,6,0⟩]
    ∀ before later, whole = before ++ later → ∃ (l : LiquibookAdapter) (a : BabobookAdapter ⟨1,by decide,by decide⟩),
      after whole before = some l ∧ BabobookAdapter.after .empty before = some a ∧ Agree l a :=
  adapters_agree .empty (BabobookAdapter.admissible_iff.mpr (by decide)) (by decide)

/-- The counter comes round after 2^32 orders: then the label of an order that still rests is overwritten. -/
theorem adapters_differ : BabobookAdapter.Admissible (.empty : Pools ⟨1,by decide,by decide⟩) (stream 4294967296) ∧
    ¬ ∃ (l : LiquibookAdapter) (a : BabobookAdapter ⟨1,by decide,by decide⟩), after (stream 4294967296) (stream 4294967296) = some l ∧
      BabobookAdapter.after .empty (stream 4294967296) = some a ∧ Agree l a := by
  obtain ⟨admitted,maker⟩ := stream_admitted 4294967296
  refine ⟨BabobookAdapter.admissible_iff.mpr admitted,?_⟩
  rintro ⟨l,a,ranLeft,ranRight,agree⟩
  obtain ⟨l',ranLeft',mislabelled⟩ := stream_mislabels rfl
  obtain ⟨a',ranRight',follows,_⟩ := BabobookAdapter.run_follows .empty admitted
  obtain rfl := Option.some.inj (ranLeft.symm.trans ranLeft')
  obtain rfl := Option.some.inj (ranRight.symm.trans ranRight')
  rw [agree.reports,follows.reports,maker] at mislabelled
  exact absurd mislabelled (by decide)

end LiquibookAdapter

end BaboEngine
