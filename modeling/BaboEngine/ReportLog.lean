import BaboEngine.AdapterRuns
import BaboEngine.ReportLedger

/-!
# The reports are a log of the book

Reading the reports of the adapter keeps the ledger the same as the book: at each price the
same orders, in the same order and with the same open quantities (`Logged`).
-/

namespace BaboEngine
open Simulation StableSort

/-- An order as a ledger has it. -/
def SimpleOrder.resting (o : SimpleOrder) : Resting := ⟨o.orderId,o.isBuy,o.price,o.openQty⟩

/-- What some trades fill of a maker. -/
def makerFilled (ts : List Trade) (id : Nat) : Nat := (ts.map fun t => if t.maker.orderId = id then t.qty else 0).sum

theorem Resting.minus_keeps {x y : Resting} {q : Nat} (left : x.minus q = some y) : y.orderId = x.orderId ∧ y.place = x.place := by
  rw [(minus_some left).2]
  exact ⟨rfl,rfl⟩

namespace Book
variable {b b' : Book} {o x : SimpleOrder} {t : TreeName} {id : Nat} {os : List SimpleOrder}

def restings (b : Book) : List Resting := (b.side .bids ++ b.side .asks).map SimpleOrder.resting

/-- The orders of the two sides in either order. -/
theorem Plain.restings (plain : Plain b) (o : SimpleOrder) :
    SameFibers Resting.place b.restings ((b.side o.side).map SimpleOrder.resting ++ (b.side o.opposite).map SimpleOrder.resting) := by
  rw [Book.restings,List.map_append]
  unfold SimpleOrder.side SimpleOrder.opposite
  split_ifs
  · exact .refl _
  · refine .append_comm ?_
    intro y first z second same
    obtain ⟨bid,inBids,rfl⟩ := List.mem_map.mp first
    obtain ⟨ask,inAsks,rfl⟩ := List.mem_map.mp second
    have buys : bid.isBuy = ask.isBuy := congrArg Prod.fst same
    rw [plain.isBuy (.inl rfl) inBids,plain.isBuy (.inr rfl) inAsks] at buys
    exact absurd buys (by decide)

theorem insert_fibers (sorted : SortedSide t os) (resting : t = .bids ∨ t = .asks) (o : SimpleOrder) :
    SameFibers Resting.place ((os.orderedInsert (Ahead t) o).map SimpleOrder.resting) (os.map SimpleOrder.resting ++ [o.resting]) := by
  obtain ⟨xs,ys,rfl,inserted,_,behind⟩ := orderedInsert_split sorted o
  rw [inserted,List.map_append,List.map_cons,List.map_append,List.append_assoc]
  apply SameFibers.append (.refl _)
  apply SameFibers.append_comm (l := [o.resting])
  intro y first z second same
  obtain rfl := List.mem_singleton.mp first
  obtain ⟨x,inYs,rfl⟩ := List.mem_map.mp second
  have ahead := behind x inYs
  have samePrice : o.price = x.price := Int.ofNat_inj.mp (congrArg Prod.snd same)
  have sameKey : t.key o = t.key x := by rcases resting with rfl | rfl <;> exact samePrice
  rw [Ahead,sameKey] at ahead
  exact t.type.better_irrefl _ ahead

/-! ## What the trades of an order leave -/

theorem minus_resting (sized : x.Sized) {q : Nat} (enough : q ≤ x.openQty) (c : Nat) :
    (Matching.kept (x.fill q c)).map SimpleOrder.resting = (x.resting.minus q).toList := by
  have left := sized.openQty_fill (c := c) enough
  unfold Matching.kept Resting.minus
  by_cases gone : x.openQty = q
  · have none : x.resting.quantity - q = 0 := by
      show (x.openQty : Int) - q = 0
      omega
    rw [if_pos (by omega),if_pos none]
    rfl
  · have some : ¬ x.resting.quantity - q = 0 := by
      show ¬ (x.openQty : Int) - q = 0
      omega
    rw [if_neg (by omega),if_neg some]
    simp only [SimpleOrder.resting,List.map_cons,List.map_nil,SimpleOrder.fill_orderId,SimpleOrder.fill_isBuy,SimpleOrder.fill_price,left,
      Option.toList_some,List.cons.injEq,Resting.mk.injEq,and_true,true_and]
    omega

/-- What is left of some makers, of which some are traded with. -/
theorem left_resting {f : Nat → Nat} (takes : List (SimpleOrder × Option Nat)) (each : ∀ m ∈ takes, m.1.Sized ∧ 0 < m.1.openQty ∧
      f m.1.orderId = m.2.getD 0 ∧ m.2.getD 0 ≤ m.1.openQty) : (takes.flatMap Matching.left).map SimpleOrder.resting =
    ((takes.map Prod.fst).map SimpleOrder.resting).filterMap fun x => x.minus (f x.orderId) := by
  induction takes with
  | nil => rfl
  | cons m takes ih =>
    obtain ⟨⟨sized,opened,isTaken,enough⟩,rest⟩ := List.forall_mem_cons.mp each
    obtain ⟨maker,quantity⟩ := m
    have here : (Matching.left (maker,quantity)).map SimpleOrder.resting = (maker.resting.minus (f maker.orderId)).toList := by
      rw [isTaken]
      cases quantity with
      | none =>
        have all : maker.resting.minus 0 = some maker.resting :=
          Resting.minus_zero (by show (maker.openQty : Int) ≠ 0; simp only at opened; omega)
        exact (congrArg Option.toList all).symm
      | some q => exact minus_resting sized enough _
    rw [List.flatMap_cons,List.map_append,here,ih rest,List.map_cons,List.map_cons]
    cases left : maker.resting.minus (f maker.orderId) with
    | none =>
      rw [List.filterMap_cons_none (f := fun x : Resting => x.minus (f x.orderId)) left]
      rfl
    | some y =>
      rw [List.filterMap_cons_some (f := fun x : Resting => x.minus (f x.orderId)) left]
      rfl

/-- What an order fills of the makers that it finds. -/
theorem Incoming.filled (incoming : Incoming b o) (plain : Plain b) (some : o.orderQty ≠ 0) {m : SimpleOrder × Option Nat}
    (member : m ∈ Matching.takes o (b.side o.opposite)) : makerFilled (b.tradesOf o) m.1.orderId = m.2.getD 0 ∧ m.2.getD 0 ≤ m.1.openQty := by
  obtain ⟨sized,_,_,regular,_⟩ := incoming.fields
  have nodup : ((Matching.takes o (b.side o.opposite)).map fun m => m.1.orderId).Nodup := by
    rw [takes_ids]
    exact plain.orderly.nodup _
  constructor
  · rw [Book.tradesOf,if_neg some,makerFilled,pass_eq sized,Matching.commit_filled_maker,Matching.takenFrom_mem nodup member]
  · obtain ⟨maker,_ | q⟩ := m
    · exact Nat.zero_le _
    · rw [Matching.takes_eq member (by simp)] at member
      exact (Matching.allot_taken _ _ member rfl).2.1

/-- An order that is no maker of an order that comes is not filled by it. -/
theorem Incoming.unfilled (incoming : Incoming b o) (plain : Plain b) (absent : ∀ m ∈ b.side o.opposite, m.orderId ≠ id) :
    makerFilled (b.tradesOf o) id = 0 := by
  apply List.sum_eq_zero_iff_forall_eq_nat.mpr
  intro q member
  obtain ⟨t,inTrades,rfl⟩ := List.mem_map.mp member
  exact if_neg (absent t.maker (incoming.tradesOf plain inTrades).1)

theorem Incoming.filled_le (incoming : Incoming b o) (plain : Plain b) (member : x ∈ b.side t) :
    makerFilled (b.tradesOf o) x.orderId ≤ x.openQty := by
  by_cases none : o.orderQty = 0
  · rw [Book.tradesOf,if_pos none]
    exact Nat.zero_le _
  · by_cases isMaker : ∃ m ∈ b.side o.opposite, m.orderId = x.orderId
    · obtain ⟨m,inMakers,same⟩ := isMaker
      obtain ⟨_,rfl⟩ := plain.orderly.one_place inMakers member same
      rw [← Matching.takes_makers o (b.side o.opposite)] at inMakers
      obtain ⟨m',inTakes,rfl⟩ := List.mem_map.mp inMakers
      obtain ⟨isFilled,enough⟩ := incoming.filled plain none inTakes
      rw [isFilled]
      exact enough
    · rw [incoming.unfilled plain fun m inMakers same => isMaker ⟨m,inMakers,same⟩]
      exact Nat.zero_le _

/-- What is left of an order that comes, if it rests. -/
def remainder (b : Book) (o : SimpleOrder) : List Resting :=
  if !o.immediateOrCancel ∧ traded (b.tradesOf o) < o.orderQty then
    [⟨o.orderId,o.isBuy,o.price,(o.orderQty : Int) - traded (b.tradesOf o)⟩]
  else []

/-- What is left of an order is what rests of it. -/
theorem Incoming.remainder_eq (incoming : Incoming b o) (plain : Plain b) (some : o.orderQty ≠ 0) :
    b.remainder o = if Rests o (b.pass o).inc then [(b.pass o).inc.resting] else [] := by
  obtain ⟨sized,opened,_⟩ := incoming.fields
  obtain ⟨same,_,left⟩ := pass_inc (b := b) sized
  have total := incoming.traded_eq plain
  rw [if_neg some] at total
  rw [← total,opened] at left
  have le := incoming.traded_le plain
  have price := incoming.price
  have rests : Rests o (b.pass o).inc ↔ (!o.immediateOrCancel) = true ∧ traded (b.tradesOf o) < o.orderQty := by
    unfold Rests marketOrderPrice
    rw [same.immediateOrCancel,left]
    constructor
    · rintro ⟨_,stays,open'⟩
      exact ⟨stays,by omega⟩
    · rintro ⟨stays,open'⟩
      exact ⟨by omega,stays,by omega⟩
  unfold Book.remainder
  by_cases stays : Rests o (b.pass o).inc
  · rw [if_pos stays,if_pos (rests.mp stays),SimpleOrder.resting,same.orderId,same.isBuy,same.price,left,Int.ofNat_sub le]
  · rw [if_neg stays,if_neg fun both => stays (rests.mpr both)]

theorem minus_unfilled {f : Nat → Nat} {xs : List SimpleOrder} (opened : ∀ x ∈ xs, 0 < x.openQty) (unfilled : ∀ x ∈ xs, f x.orderId = 0) :
    (xs.map SimpleOrder.resting).filterMap (fun x => x.minus (f x.orderId)) = xs.map SimpleOrder.resting := by
  refine (List.filterMap_congr (g := some) ?_).trans List.filterMap_some
  intro y member
  obtain ⟨x,inXs,rfl⟩ := List.mem_map.mp member
  have none : f x.resting.orderId = 0 := unfilled x inXs
  rw [none]
  apply Resting.minus_zero
  have here := opened x inXs
  show (x.openQty : Int) ≠ 0
  omega

/-- The resting orders after an order has come. -/
theorem Incoming.restings (incoming : Incoming b o) (plain : Plain b) : SameFibers Resting.place (b.add o).restings
    ((b.restings.filterMap fun x => x.minus (makerFilled (b.tradesOf o) x.orderId)) ++ b.remainder o) := by
  by_cases none : o.orderQty = 0
  · have sides : (b.add o).restings = b.restings := by
      rw [incoming.add_eq plain,if_pos none]
      rfl
    have noTrades : b.tradesOf o = [] := if_pos none
    have noRest : b.remainder o = [] := by
      rw [Book.remainder,if_neg]
      rintro ⟨_,lt⟩
      omega
    rw [sides,noRest,List.append_nil,Book.restings,minus_unfilled]
    · exact .refl _
    · intro x member
      cases List.mem_append.mp member with
      | inl inBids => exact (plain.each _ x inBids).opened
      | inr inAsks => exact (plain.each _ x inAsks).opened
    · intro x _
      rw [noTrades]
      rfl
  · have sized := incoming.fields.1
    have addIs := incoming.add_eq plain
    rw [if_neg none] at addIs
    have opposite : (b.add o).side o.opposite = (b.pass o).makers := by
      rw [addIs]
      exact submit_opposite sized
    have own : (b.add o).side o.side = if Rests o (b.pass o).inc then (b.side o.side).orderedInsert (Ahead o.side) (b.pass o).inc
        else b.side o.side := by
      rw [addIs]
      exact submit_side sized
    have makers : ((b.side o.opposite).map SimpleOrder.resting).filterMap (fun x => x.minus (makerFilled (b.tradesOf o) x.orderId)) =
        (b.pass o).makers.map SimpleOrder.resting := by
      rw [pass_eq sized,Matching.commit_makers,left_resting (f := makerFilled (b.tradesOf o)),Matching.takes_makers]
      intro m member
      have inSide := mem_takes member
      exact ⟨plain.orderly.sized.1 _ _ inSide,(plain.each _ _ inSide).opened,incoming.filled plain none member⟩
    have others : ((b.side o.side).map SimpleOrder.resting).filterMap (fun x => x.minus (makerFilled (b.tradesOf o) x.orderId)) =
        (b.side o.side).map SimpleOrder.resting := by
      apply minus_unfilled (fun x member => (plain.each _ x member).opened)
      intro x member
      refine incoming.unfilled plain fun m inMakers same => ?_
      exact o.side_ne_opposite (plain.orderly.apart member inMakers same.symm)
    have ownFibers : SameFibers Resting.place (((b.add o).side o.side).map SimpleOrder.resting)
        ((b.side o.side).map SimpleOrder.resting ++ b.remainder o) := by
      rw [own,incoming.remainder_eq plain none]
      split_ifs
      · exact insert_fibers (plain.orderly.sorted _) o.side_cases _
      · rw [List.append_nil]
        exact .refl _
    have fibers := (plain.restings o).filterMap (f := fun x => x.minus (makerFilled (b.tradesOf o) x.orderId))
      fun _ _ left => (Resting.minus_keeps left).2
    rw [List.filterMap_append,makers,others] at fibers
    refine (((incoming.plain plain).restings o).trans ?_).trans ((fibers.symm).append (.refl _))
    rw [opposite]
    apply (ownFibers.append (.refl _)).trans
    rw [List.append_assoc,List.append_assoc]
    refine SameFibers.append (.refl _) (.append_comm ?_)
    intro y first z second same
    obtain ⟨m,inMakers,rfl⟩ := List.mem_map.mp second
    have sameSide : y.isBuy = m.isBuy := congrArg Prod.fst same
    have isOpposite : m.isBuy = decide (o.opposite = .bids) := (incoming.plain plain).isBuy o.opposite_cases (by rwa [opposite])
    have isOwn : y.isBuy = o.isBuy := by
      unfold Book.remainder at first
      split_ifs at first
      · rw [List.mem_singleton.mp first]
      · simp at first
    rw [isOpposite,isOwn] at sameSide
    unfold SimpleOrder.opposite at sameSide
    split_ifs at sameSide with buys
    · simp [buys] at sameSide
    · simp [buys] at sameSide

/-- The resting orders after one has been cancelled. -/
theorem Plain.restings_cancel (plain : Plain b) (member : o ∈ b.side t) :
    (b.cancel o.orderId).restings = b.restings.filter fun x => x.orderId ≠ o.orderId := by
  have sides : ∀ t', (b.cancel o.orderId).side t' = (b.side t').filter fun x => x.orderId ≠ o.orderId := by
    intro t'
    rw [(plain.cancel member).1]
    show (b.eraseFrom t o.orderId).side t' = _
    rw [side_eraseFrom]
    split_ifs with same
    · rw [same]
    · symm
      rw [List.filter_eq_self]
      intro x inSide
      exact decide_eq_true fun isId => same (plain.orderly.apart inSide member isId)
  rw [Book.restings,Book.restings,sides,sides,← List.filter_append,List.filter_map]
  rfl

end Book

/-! ## The ledger and the book -/

/-- The ledger has the orders of the book, and knows of nothing but the messages so far. -/
structure Logged (seqs : List Nat) (l : Ledger) (b : Book) : Prop where
  same : SameFibers Resting.place l.restings b.restings
  acked : ∀ e ∈ l.entries, ∀ seq, e.ackedBy = some seq → seq ∈ seqs
  trades : ∀ r ∈ l.trades, r.sequenceNumber ∈ seqs

namespace Logged
variable {seqs : List Nat} {l : Ledger} {b : Book} {e : Entry} {o : SimpleOrder} {id seq : Nat}

/-- An entry is of an order that rests. -/
theorem entry (logged : Logged seqs l b) (member : e ∈ l.entries) :
    ∃ t o, (t = .bids ∨ t = .asks) ∧ o ∈ b.side t ∧ e.toResting = o.resting := by
  have inBook := logged.same.mem_iff.mp (List.mem_map_of_mem member)
  obtain ⟨o,inSides,isO⟩ := List.mem_map.mp inBook
  cases List.mem_append.mp inSides with
  | inl inBids => exact ⟨.bids,o,.inl rfl,inBids,isO.symm⟩
  | inr inAsks => exact ⟨.asks,o,.inr rfl,inAsks,isO.symm⟩

/-- An id is in the ledger when its order rests. -/
theorem ids_iff (logged : Logged seqs l b) (plain : b.Plain) : (∃ e ∈ l.entries, e.orderId = id) ↔ b.findResting id ≠ none := by
  constructor
  · rintro ⟨e,member,rfl⟩
    obtain ⟨t,o,resting,inSide,isO⟩ := logged.entry member
    rw [isO]
    show b.findResting o.orderId ≠ none
    rw [plain.findResting_eq inSide]
    simp
  · intro found
    obtain ⟨o,found⟩ := Option.ne_none_iff_exists'.mp found
    obtain ⟨t,resting,inSide,isId⟩ := Book.findResting_some found
    have inBook : o.resting ∈ b.restings := by
      refine List.mem_map_of_mem (List.mem_append.mpr ?_)
      rcases resting with rfl | rfl
      · exact .inl inSide
      · exact .inr inSide
    obtain ⟨e,member,isO⟩ := List.mem_map.mp (logged.same.mem_iff.mpr inBook)
    exact ⟨e,member,by rw [isO]; exact isId⟩

end Logged

theorem NewOrder.order_fields {o : NewOrder} (inRange : (Message.newOrder o).InRange) : o.order.orderId = o.orderId.toNat ∧
    o.order.isBuy = decide (o.side.toNat = 0) ∧ (o.order.price : Int) = o.priceTicks.toInt ∧ o.order.orderQty = o.quantity.toNat ∧
    o.order.immediateOrCancel = decide (o.ioc ≠ 0) := by
  obtain ⟨⟨_,small⟩,price⟩ := inRange
  obtain ⟨low,high⟩ := price _ rfl
  have small' : o.orderId.toNat < 4294967296 := small
  refine ⟨castU32_natCast small',?_,castU32_toNat (by omega) high,rfl,?_⟩
  · exact decide_eq_decide.mpr UInt8.toNat_inj.symm
  · by_cases ioc : o.ioc ≠ 0
    · simp [NewOrder.order,SimpleOrder.new,SimpleOrder.immediateOrCancel,ioc,ocImmediateOrCancel]
    · simp [NewOrder.order,SimpleOrder.new,SimpleOrder.immediateOrCancel,ioc,ocNoConditions]

theorem ModifyOrder.order_fields {m : ModifyOrder} (inRange : (Message.modify m).InRange) : m.order.orderId = m.orderId.toNat ∧
    m.order.isBuy = decide (m.side.toNat = 0) ∧ (m.order.price : Int) = m.newPriceTicks.toInt ∧ m.order.orderQty = m.newQuantity.toNat ∧
    m.order.immediateOrCancel = false := by
  obtain ⟨⟨_,small⟩,price⟩ := inRange
  obtain ⟨low,high⟩ := price _ rfl
  have small' : m.orderId.toNat < 4294967296 := small
  refine ⟨castU32_natCast small',?_,castU32_toNat (by omega) high,rfl,?_⟩
  · exact decide_eq_decide.mpr UInt8.toNat_inj.symm
  · simp [ModifyOrder.order,SimpleOrder.new,SimpleOrder.immediateOrCancel,ocNoConditions]

/-! ## What trades take of entries -/

section
variable {ts : List Trade} {e : Entry} {id seq : Nat}

theorem taken_report (t : Trade) (ts : List Trade) (e : Entry) : Ledger.taken ((t :: ts).map (Trade.report seq)) e =
    (if e.tradedBy (t.report seq) then t.qty else 0) + Ledger.taken (ts.map (Trade.report seq)) e := by
  rw [List.map_cons,Ledger.taken_cons]
  congr 1
  by_cases named : e.tradedBy (t.report seq)
  · have quantity : (t.report seq).quantity = t.qty := rfl
    simp [Ledger.taken,named,quantity]
  · simp [Ledger.taken,named]

/-- An entry that is not of the taker. -/
theorem taken_maker (takers : ∀ t ∈ ts, t.taker.orderId = id) (other : e.orderId = id → e.ackedBy ≠ some seq) :
    Ledger.taken (ts.map (Trade.report seq)) e = makerFilled ts e.orderId := by
  induction ts with
  | nil => rfl
  | cons t ts ih =>
    obtain ⟨first,rest⟩ := List.forall_mem_cons.mp takers
    have named : e.tradedBy (t.report seq) ↔ t.maker.orderId = e.orderId := by
      constructor
      · rintro (isMaker | ⟨isTaker,isAck⟩)
        · exact isMaker.symm
        · exact absurd isAck (other (isTaker.trans first))
      · exact fun isMaker => .inl isMaker.symm
    rw [taken_report,ih rest]
    simp only [named]
    rfl

/-- The entry of the taker. -/
theorem taken_taker (takers : ∀ t ∈ ts, t.taker.orderId = id) (isId : e.orderId = id) (isAck : e.ackedBy = some seq) :
    Ledger.taken (ts.map (Trade.report seq)) e = traded ts := by
  induction ts with
  | nil => rfl
  | cons t ts ih =>
    obtain ⟨first,rest⟩ := List.forall_mem_cons.mp takers
    have named : e.tradedBy (t.report seq) := .inr ⟨isId.trans first.symm,isAck⟩
    rw [taken_report,ih rest,if_pos named]
    rfl

end

namespace Logged
variable {seqs : List Nat} {l : Ledger} {b b' : Book} {e : Entry} {o : SimpleOrder} {id seq : Nat}

theorem opened (logged : Logged seqs l b) (plain : b.Plain) (member : e ∈ l.entries) : e.quantity ≠ 0 := by
  obtain ⟨t,o,_,inSide,isO⟩ := logged.entry member
  have open' := (plain.each t o inSide).opened
  rw [isO]
  show (o.openQty : Int) ≠ 0
  omega

end Logged

theorem Report.read_ack (l : Ledger) (seq id side : Nat) (price : Int) (qty : Nat) (opened : ∀ e ∈ l.entries, e.quantity ≠ 0) :
    l.read (.ack .orderAck seq id side price qty) =
      ⟨l.entries ++ live [⟨⟨id,decide (side = 0),price,qty⟩,some seq⟩],l.trades⟩ := by
  have alive : live l.entries = l.entries := List.filter_eq_self.mpr fun e member => by simpa using opened e member
  show (⟨live (l.entries ++ _),_⟩ : Ledger) = _
  rw [live,List.filter_append]
  exact congrArg (fun es => (⟨es ++ _,_⟩ : Ledger)) alive

/-- A `CancelAck` takes away the entries of its id. -/
theorem Report.read_cancelAck {es own : List Entry} (rs : List Report) {seq id side : Nat} {price : Int} {qty : Nat}
    (others : ∀ e ∈ es, e.orderId ≠ id) (isOwn : ∀ e ∈ own, e.orderId = id) :
    Ledger.read ⟨es ++ own,rs⟩ (.ack .cancelAck seq id side price qty) = ⟨es,rs⟩ := by
  have kept : es.filter (fun e => e.orderId ≠ id) = es := List.filter_eq_self.mpr fun e member => decide_eq_true (others e member)
  have gone : own.filter (fun e => e.orderId ≠ id) = [] := List.filter_eq_nil_iff.mpr fun e member => by simpa using isOwn e member
  show (⟨(es ++ own).filter fun e => e.orderId ≠ id,rs⟩ : Ledger) = _
  rw [List.filter_append,kept,gone,List.append_nil]

/-- A `ModifyAck` takes away the entry of its id and enters another one. -/
theorem Report.read_modifyAck {es : List Entry} {rs : List Report} {seq id side : Nat} {price : Int} {qty : Nat}
    (opened : ∀ e ∈ es, e.quantity ≠ 0) : Ledger.read ⟨es,rs⟩ (.ack .modifyAck seq id side price qty) =
      ⟨es.filter (fun e => e.orderId ≠ id) ++ live [⟨⟨id,decide (side = 0),price,qty - Ledger.takerFilled ⟨es,rs⟩ seq id⟩,none⟩],rs⟩ := by
  have alive : live (es.filter fun e => e.orderId ≠ id) = es.filter fun e => e.orderId ≠ id :=
    List.filter_eq_self.mpr fun e member => by simpa using opened e (List.mem_filter.mp member).1
  show (⟨live (es.filter (fun e => e.orderId ≠ id) ++ _),_⟩ : Ledger) = _
  rw [live,List.filter_append]
  exact congrArg (fun es => (⟨es ++ _,_⟩ : Ledger)) alive

namespace Logged
variable {seqs : List Nat} {l : Ledger} {b b' : Book} {o x : SimpleOrder} {e : Entry} {id seq : Nat}

/-- After the reports of a message. -/
theorem of_parts {l' : Ledger} (logged : Logged seqs l b) (ts : List Trade) (same : SameFibers Resting.place l'.restings b'.restings)
    (entries : ∀ e ∈ l'.entries, e.ackedBy = none ∨ e.ackedBy = some seq ∨ ∃ e' ∈ l.entries, e.ackedBy = e'.ackedBy)
    (trades : l'.trades = l.trades ++ ts.map (Trade.report seq)) : Logged (seqs ++ [seq]) l' b' := by
  refine ⟨same,?_,?_⟩
  · intro e member s isAck
    rcases entries e member with none | this | ⟨e',old,sameAck⟩
    · rw [none] at isAck
      cases isAck
    · rw [this] at isAck
      simp [Option.some.inj isAck]
    · exact List.mem_append_left _ (logged.acked e' old s (sameAck ▸ isAck))
  · intro r member
    rw [trades] at member
    cases List.mem_append.mp member with
    | inl old => exact List.mem_append_left _ (logged.trades r old)
    | inr new =>
      obtain ⟨t,_,rfl⟩ := List.mem_map.mp new
      exact List.mem_append_right _ (List.mem_singleton.mpr rfl)

/-- What is left of the entry of an order that has come. -/
theorem taker_left {ts : List Trade} (takers : ∀ t ∈ ts, t.taker.orderId = e.orderId) (isAck : e.ackedBy = some seq)
    (enough : (traded ts : Int) ≤ e.quantity) : (live [e]).filterMap (Ledger.rest (ts.map (Trade.report seq))) =
      if (traded ts : Int) < e.quantity then [{ e with quantity := e.quantity - traded ts }] else [] := by
  have isTaken := taken_taker takers rfl isAck
  by_cases empty : e.quantity = 0
  · rw [if_neg (by omega)]
    simp [live,empty]
  · have alive : live [e] = [e] := by simp [live,empty]
    rw [alive]
    by_cases left : (traded ts : Int) < e.quantity
    · have minus : e.toResting.minus (traded ts) = some { e.toResting with quantity := e.quantity - traded ts } := if_neg (by omega)
      have kept : Ledger.rest (ts.map (Trade.report seq)) e = some { e with quantity := e.quantity - traded ts } := by
        rw [Ledger.rest,isTaken,minus]
        rfl
      rw [if_pos left,List.filterMap_cons_some kept,List.filterMap_nil]
    · have minus : e.toResting.minus (traded ts) = none := if_pos (by omega)
      have gone : Ledger.rest (ts.map (Trade.report seq)) e = none := by
        rw [Ledger.rest,isTaken,minus]
        rfl
      rw [if_neg left,List.filterMap_cons_none gone,List.filterMap_nil]

/-- What is left of entries that are not of the taker. -/
theorem makers_left {ts : List Trade} {es : List Entry} (takers : ∀ t ∈ ts, t.taker.orderId = id)
    (others : ∀ e ∈ es, e.orderId = id → e.ackedBy ≠ some seq) :
    ((es.filterMap (Ledger.rest (ts.map (Trade.report seq)))).map Entry.toResting =
      (es.map Entry.toResting).filterMap fun x => x.minus (makerFilled ts x.orderId)) ∧
    ∀ e ∈ es.filterMap (Ledger.rest (ts.map (Trade.report seq))), ∃ e' ∈ es, e.orderId = e'.orderId ∧ e.ackedBy = e'.ackedBy := by
  refine ⟨Ledger.restings_rest _ _ _ fun e member => taken_maker takers (others e member),?_⟩
  intro e member
  obtain ⟨e',old,isLeft⟩ := List.mem_filterMap.mp member
  obtain ⟨sameAck,minus⟩ := Ledger.rest_some isLeft
  exact ⟨e',old,(Resting.minus_keeps minus).1,sameAck⟩

/-- The entries after the `OrderAck` of an order and its trades. -/
theorem read_order (logged : Logged seqs l b) (entry : Entry) (plain : b.Plain) (incoming : b.Incoming o) (isId : entry.orderId = o.orderId)
    (isQty : entry.quantity = o.orderQty) (isAck : entry.ackedBy = some seq) (absent : b.findResting o.orderId = none) :
    ∃ es, ((b.tradesOf o).map (Trade.report seq)).foldl Ledger.read ⟨l.entries ++ live [entry],l.trades⟩ =
      ⟨es ++ (if (traded (b.tradesOf o) : Int) < entry.quantity then [{ entry with quantity := entry.quantity - traded (b.tradesOf o) }] else []),
        l.trades ++ (b.tradesOf o).map (Trade.report seq)⟩ ∧
      es.map Entry.toResting = l.restings.filterMap (fun x => x.minus (makerFilled (b.tradesOf o) x.orderId)) ∧
      ∀ e ∈ es, e.orderId ≠ o.orderId ∧ ∃ e' ∈ l.entries, e.ackedBy = e'.ackedBy := by
  have takers : ∀ t ∈ b.tradesOf o, t.taker.orderId = o.orderId := fun t member => (incoming.tradesOf plain member).2.2.2
  have others : ∀ e ∈ l.entries, e.orderId ≠ o.orderId := fun e member same => (logged.ids_iff plain).mp ⟨e,member,same⟩ absent
  have notTaker : ∀ e ∈ l.entries, e.orderId = o.orderId → e.ackedBy ≠ some seq := fun e member same => absurd same (others e member)
  have enough : (traded (b.tradesOf o) : Int) ≤ entry.quantity := by
    rw [isQty]
    exact Int.ofNat_le.mpr (incoming.traded_le plain)
  obtain ⟨restings,kept⟩ := makers_left takers notTaker
  refine ⟨_,?_,restings,?_⟩
  · rw [← taker_left (fun t member => (takers t member).trans isId.symm) isAck enough,← List.filterMap_append]
    refine Ledger.read_trades _ _ ?_ ?_ ?_
    · intro r member
      obtain ⟨t,_,rfl⟩ := List.mem_map.mp member
      rfl
    · intro e member
      cases List.mem_append.mp member with
      | inl old => exact logged.opened plain old
      | inr new => simpa using (List.mem_filter.mp new).2
    · intro e member
      cases List.mem_append.mp member with
      | inl old =>
        obtain ⟨t,x,_,inSide,isX⟩ := logged.entry old
        rw [taken_maker takers (notTaker e old),isX]
        exact Int.ofNat_le.mpr (incoming.filled_le plain inSide)
      | inr new =>
        obtain rfl := List.mem_singleton.mp (List.mem_filter.mp new).1
        rw [taken_taker takers isId isAck]
        exact enough
  · intro e member
    obtain ⟨e',old,sameId,sameAck⟩ := kept e member
    rw [sameId]
    exact ⟨others e' old,e',old,sameAck⟩

/-- The ledger after a new order. -/
theorem newOrder {o : NewOrder} (logged : Logged seqs l b) (plain : b.Plain) (inRange : (Message.newOrder o).InRange)
    (admitted : b.Admits (.newOrder o)) : Logged (seqs ++ [o.sequenceNumber.toNat])
      ((b.answer (.newOrder o)).2.foldl Ledger.read l) (b.answer (.newOrder o)).1 := by
  have incoming := plain.newOrder inRange admitted
  obtain ⟨isId,isBuy,isPrice,isQty,isIoc⟩ := NewOrder.order_fields inRange
  let entry : Entry := ⟨⟨o.orderId.toNat,decide (o.side.toNat = 0),o.priceTicks.toInt,o.quantity.toNat⟩,some o.sequenceNumber.toNat⟩
  obtain ⟨es,isRead,restings,kept⟩ := logged.read_order entry plain incoming isId.symm (congrArg Nat.cast isQty.symm) rfl
    (by rw [isId]; exact admitted)
  have rests : b.remainder o.order = if o.ioc = 0 ∧ (traded (b.tradesOf o.order) : Int) < entry.quantity then
      [{ entry.toResting with quantity := entry.quantity - traded (b.tradesOf o.order) }] else [] := by
    rw [Book.remainder,isId,isBuy,isPrice,isQty,isIoc]
    simp [entry]
  have fibers := incoming.restings plain
  rw [rests] at fibers
  have small : (traded (b.tradesOf o.order) : Int) < entry.quantity ↔ traded (b.tradesOf o.order) < o.quantity.toNat := Int.ofNat_lt
  have read : (b.answer (.newOrder o)).2.foldl Ledger.read l =
      ⟨es ++ if o.ioc = 0 ∧ (traded (b.tradesOf o.order) : Int) < entry.quantity then
        [{ entry with quantity := entry.quantity - traded (b.tradesOf o.order) }] else [],
      l.trades ++ (b.tradesOf o.order).map (Trade.report o.sequenceNumber.toNat)⟩ := by
    show ((_ :: _) ++ _ : List Report).foldl Ledger.read l = _
    rw [List.foldl_append,List.foldl_cons,Report.read_ack l _ _ _ _ _ fun e member => logged.opened plain member]
    apply (congrArg (List.foldl Ledger.read · _) isRead).trans
    by_cases ioc : o.ioc = 0
    · simp only [ioc,ne_eq,not_true_eq_false,false_and,if_false,List.foldl_nil,true_and]
    · by_cases less : traded (b.tradesOf o.order) < o.quantity.toNat
      · have stays : ¬ (o.ioc = 0 ∧ (traded (b.tradesOf o.order) : Int) < entry.quantity) := fun both => ioc both.1
        simp only [if_pos (And.intro ioc less),if_pos (small.mpr less),if_neg stays,List.foldl_cons,List.foldl_nil,List.append_nil]
        exact Report.read_cancelAck _ (fun e member => isId ▸ (kept e member).1) fun e member => by rw [List.mem_singleton.mp member]
      · have full : ¬ (o.ioc ≠ 0 ∧ traded (b.tradesOf o.order) < o.quantity.toNat) := fun both => less both.2
        have stays : ¬ (o.ioc = 0 ∧ (traded (b.tradesOf o.order) : Int) < entry.quantity) := fun both => ioc both.1
        simp only [if_neg full,if_neg fun lt => less (small.mp lt),if_neg stays,List.foldl_nil]
  rw [read]
  refine logged.of_parts (b.tradesOf o.order) ?_ ?_ rfl
  · refine .trans ?_ fibers.symm
    rw [Ledger.restings,List.map_append,restings]
    refine (logged.same.filterMap fun _ _ left => (Resting.minus_keeps left).2).append ?_
    split_ifs
    · exact .refl _
    · exact .refl _
  · intro e member
    cases List.mem_append.mp member with
    | inl old => exact .inr (.inr (kept e old).2)
    | inr new =>
      refine .inr (.inl ?_)
      split_ifs at new
      · rw [List.mem_singleton.mp new]
      · simp at new

/-- The ledger after a cancel. -/
theorem cancel {c : CancelOrder} (logged : Logged seqs l b) (plain : b.Plain) : Logged (seqs ++ [c.sequenceNumber.toNat])
    ((b.answer (.cancel c)).2.foldl Ledger.read l) (b.answer (.cancel c)).1 := by
  show Logged _ ((b.answerCancel c).2.foldl Ledger.read l) (b.answerCancel c).1
  unfold Book.answerCancel
  cases found : b.findResting c.orderId.toNat with
  | none => exact logged.of_parts [] logged.same (fun e member => .inr (.inr ⟨e,member,rfl⟩)) (List.append_nil _).symm
  | some o =>
    obtain ⟨t,_,member,isId⟩ := Book.findResting_some found
    refine logged.of_parts [] ?_ ?_ (List.append_nil _).symm
    · have left := plain.restings_cancel member
      rw [isId] at left
      show SameFibers Resting.place ((l.entries.filter fun e => e.orderId ≠ c.orderId.toNat).map Entry.toResting) _
      rw [left]
      have filtered := logged.same.filter fun x => decide (x.orderId ≠ c.orderId.toNat)
      rw [Ledger.restings,List.filter_map] at filtered
      exact filtered
    · intro e inLeft
      exact .inr (.inr ⟨e,(List.mem_filter.mp inLeft).1,rfl⟩)

/-- The entries after the trades of an order for which another one has been cancelled. -/
theorem read_modified {t : TreeName} (logged : Logged seqs l b) (plain : b.Plain) (member : x ∈ b.side t)
    (incoming : (b.cancel x.orderId).Incoming o)
    (isId : o.orderId = x.orderId) (fresh : seq ∉ seqs) :
    ∃ es, (((b.cancel x.orderId).tradesOf o).map (Trade.report seq)).foldl Ledger.read l =
        ⟨es,l.trades ++ ((b.cancel x.orderId).tradesOf o).map (Trade.report seq)⟩ ∧
      es.map Entry.toResting = l.restings.filterMap (fun y => y.minus (makerFilled ((b.cancel x.orderId).tradesOf o) y.orderId)) ∧
      ∀ e ∈ es, ∃ e' ∈ l.entries, e.ackedBy = e'.ackedBy := by
  obtain ⟨cancelIs,plain'⟩ := plain.cancel member
  have takers : ∀ t ∈ (b.cancel x.orderId).tradesOf o, t.taker.orderId = o.orderId := fun t member => (incoming.tradesOf plain' member).2.2.2
  have notTaker : ∀ e ∈ l.entries, e.orderId = o.orderId → e.ackedBy ≠ some seq :=
    fun e member _ isAck => fresh (logged.acked e member seq isAck)
  obtain ⟨restings,kept⟩ := makers_left takers notTaker
  refine ⟨_,Ledger.read_trades _ _ ?_ ?_ ?_,restings,?_⟩
  · intro r member
    obtain ⟨t,_,rfl⟩ := List.mem_map.mp member
    rfl
  · exact fun e member => logged.opened plain member
  · intro e inEntries
    obtain ⟨t',y,_,inSide,isY⟩ := logged.entry inEntries
    rw [taken_maker takers (notTaker e inEntries),isY]
    apply Int.ofNat_le.mpr
    by_cases same : y.orderId = x.orderId
    · have noMaker : makerFilled ((b.cancel x.orderId).tradesOf o) y.orderId = 0 := by
        refine incoming.unfilled plain' fun m inMakers isMaker => ?_
        apply incoming.absent o.opposite
        have present := mem_ids inMakers
        rw [isMaker.trans same] at present
        rw [isId]
        exact present
      show makerFilled _ y.orderId ≤ _
      rw [noMaker]
      exact Nat.zero_le _
    · apply incoming.filled_le plain' (t := t')
      rw [cancelIs]
      show y ∈ (b.eraseFrom t x.orderId).side t'
      rw [Book.side_eraseFrom]
      split_ifs with isT
      · exact List.mem_filter.mpr ⟨isT ▸ inSide,decide_eq_true same⟩
      · exact inSide
  · intro e inLeft
    obtain ⟨e',old,_,sameAck⟩ := kept e inLeft
    exact ⟨e',old,sameAck⟩

theorem takerFilled_reports {ts : List Trade} {rs : List Report} (others : ∀ r ∈ rs, r.sequenceNumber ≠ seq)
    (takers : ∀ t ∈ ts, t.taker.orderId = id) (es : List Entry) :
    Ledger.takerFilled ⟨es,rs ++ ts.map (Trade.report seq)⟩ seq id = traded ts := by
  have old : rs.filter (fun r => r.sequenceNumber = seq ∧ r.takerOrderId = id) = [] := by
    rw [List.filter_eq_nil_iff]
    intro r member
    simp [others r member]
  have new : (ts.map (Trade.report seq)).filter (fun r => r.sequenceNumber = seq ∧ r.takerOrderId = id) = ts.map (Trade.report seq) := by
    rw [List.filter_eq_self]
    intro r member
    obtain ⟨t,inTrades,rfl⟩ := List.mem_map.mp member
    exact decide_eq_true ⟨rfl,takers t inTrades⟩
  rw [Ledger.takerFilled,List.filter_append,old,new,List.nil_append,List.map_map]
  rfl

/-- The ledger after a modify. -/
theorem modify {m : ModifyOrder} (logged : Logged seqs l b) (plain : b.Plain) (inRange : (Message.modify m).InRange)
    (fresh : m.sequenceNumber.toNat ∉ seqs) : Logged (seqs ++ [m.sequenceNumber.toNat])
      ((b.answer (.modify m)).2.foldl Ledger.read l) (b.answer (.modify m)).1 := by
  show Logged _ ((b.answerModify m).2.foldl Ledger.read l) (b.answerModify m).1
  unfold Book.answerModify
  cases found : b.findResting m.orderId.toNat with
  | none => exact logged.of_parts [] logged.same (fun e member => .inr (.inr ⟨e,member,rfl⟩)) (List.append_nil _).symm
  | some x =>
    obtain ⟨t,_,member,isId⟩ := Book.findResting_some found
    have incoming := plain.modified inRange member isId
    obtain ⟨sameId,isBuy,isPrice,isQty,isIoc⟩ := ModifyOrder.order_fields inRange
    have plain' := (plain.cancel member).2
    have cancelled := plain.restings_cancel member
    rw [← isId] at incoming sameId ⊢
    obtain ⟨es,isRead,restings,kept⟩ := logged.read_modified plain member incoming sameId fresh
    have fibers := incoming.restings plain'
    have le := incoming.traded_le plain'
    rw [isQty] at le
    have rests : (b.cancel x.orderId).remainder m.order = (live [⟨⟨x.orderId,decide (m.side.toNat = 0),m.newPriceTicks.toInt,
        (m.newQuantity.toNat : Int) - traded ((b.cancel x.orderId).tradesOf m.order)⟩,none⟩]).map Entry.toResting := by
      rw [Book.remainder,sameId,isBuy,isPrice,isQty,isIoc]
      by_cases left : traded ((b.cancel x.orderId).tradesOf m.order) < m.newQuantity.toNat
      · have opened : (m.newQuantity.toNat : Int) - traded ((b.cancel x.orderId).tradesOf m.order) ≠ 0 := by omega
        simp [live,left,opened]
      · have gone : (m.newQuantity.toNat : Int) - traded ((b.cancel x.orderId).tradesOf m.order) = 0 := by omega
        simp [live,left,gone]
    have opened : ∀ e ∈ es, e.quantity ≠ 0 := by
      intro e inEs
      have inLeft := List.mem_map_of_mem (f := Entry.toResting) inEs
      rw [restings] at inLeft
      obtain ⟨y,_,left⟩ := List.mem_filterMap.mp inLeft
      obtain ⟨some,isE⟩ := Resting.minus_some left
      rw [isE]
      exact some
    have takers : ∀ t ∈ (b.cancel x.orderId).tradesOf m.order, t.taker.orderId = x.orderId :=
      fun t inTrades => (incoming.tradesOf plain' inTrades).2.2.2.trans sameId
    have older : ∀ r ∈ l.trades, r.sequenceNumber ≠ m.sequenceNumber.toNat := by
      intro r old isSeq
      rw [← isSeq] at fresh
      exact fresh (logged.trades r old)
    have filled := takerFilled_reports older takers es
    show Logged _ (List.foldl Ledger.read l (_ ++ [_])) ((b.cancel x.orderId).add m.order)
    rw [List.foldl_append,isRead,List.foldl_cons,List.foldl_nil,Report.read_modifyAck opened,filled]
    refine logged.of_parts ((b.cancel x.orderId).tradesOf m.order) ?_ ?_ rfl
    · refine .trans ?_ fibers.symm
      rw [Ledger.restings,List.map_append,rests,cancelled]
      refine SameFibers.append ?_ (.refl _)
      have keeps : ∀ y z : Resting, y.minus (makerFilled ((b.cancel x.orderId).tradesOf m.order) y.orderId) = some z →
          decide (z.orderId ≠ x.orderId) = decide (y.orderId ≠ x.orderId) := fun y z left => by rw [(Resting.minus_keeps left).1]
      have commutes := fiber_filterMap keeps true l.restings
      simp only [fiber,decide_eq_true_eq] at commutes
      rw [← restings,List.filter_map] at commutes
      rw [show (es.filter fun e => decide (e.orderId ≠ x.orderId)).map Entry.toResting = _ from commutes]
      exact (logged.same.filter _).filterMap fun _ _ left => (Resting.minus_keeps left).2
    · intro e member
      cases List.mem_append.mp member with
      | inl old => exact .inr (.inr (kept e (List.mem_filter.mp old).1))
      | inr new =>
        rw [List.mem_singleton.mp (List.mem_filter.mp new).1]
        exact .inl rfl

end Logged

end BaboEngine
