import BaboEngine.Answers

/-!
# Runs of the adapter

The adapter gives the answers of the abstract book (`Follows.step`), and so do its runs
(`run_follows`). Its messages have ids and prices in range, and a new order does not bring
the id of an order that rests.
-/

namespace BaboEngine
open Simulation

theorem castU32_natCast {n : Nat} (small : n < 4294967296) : (castU32 n).toNat = n := by
  have cast := castU32_toNat (x := (n : Int)) (by omega) (by omega)
  exact_mod_cast cast

/-- The abstract book with the reports so far. -/
structure Desk where
  book : Book
  reports : List Report

namespace Book
variable {b : Book} {o : SimpleOrder} {id : Nat}

/-- A new order does not bring the id of an order that rests. -/
def Admits (b : Book) : Message → Prop
  | .newOrder o => b.findResting o.orderId.toNat = none
  | _ => True

instance : (b : Book) → (m : Message) → Decidable (b.Admits m)
  | b, .newOrder o => inferInstanceAs (Decidable (b.findResting o.orderId.toNat = none))
  | _, .cancel _ => .isTrue trivial
  | _, .modify _ => .isTrue trivial

theorem findResting_some (found : b.findResting id = some o) : ∃ t, (t = .bids ∨ t = .asks) ∧ o ∈ b.side t ∧ o.orderId = id := by
  unfold findResting at found
  cases bid : b.find .bids id with
  | some x =>
    rw [bid] at found
    obtain rfl := Option.some.inj found
    exact ⟨.bids,.inl rfl,find_some bid⟩
  | none =>
    rw [bid] at found
    exact ⟨.asks,.inr rfl,find_some found⟩

theorem Plain.absent (plain : Plain b) (none : b.findResting id = none) (t : TreeName) : id ∉ ids (b.side t) := by
  intro present
  obtain ⟨o,member,isId⟩ := List.mem_map.mp present
  unfold findResting at none
  cases bid : b.find .bids id with
  | some x => simp [bid] at none
  | none =>
    rw [bid] at none
    cases t with
    | bids => exact find_none bid o member isId
    | asks => exact find_none none o member isId
    | stopBids => simp [plain.noStops .stopBids (.inl rfl)] at member
    | stopAsks => simp [plain.noStops .stopAsks (.inr rfl)] at member

theorem Plain.findResting_eq (plain : Plain b) {t : TreeName} (member : o ∈ b.side t) :
    b.findResting o.orderId = some o := by
  cases found : b.findResting o.orderId with
  | none => exact absurd (mem_ids member) (plain.absent found t)
  | some x =>
    obtain ⟨t',_,inSide,isId⟩ := findResting_some found
    rw [(plain.orderly.one_place inSide member isId).2]

theorem Plain.resting (plain : Plain b) {t : TreeName} (member : o ∈ b.side t) : t = .bids ∨ t = .asks := by
  cases t with
  | bids => exact .inl rfl
  | asks => exact .inr rfl
  | stopBids | stopAsks => simp [plain.noStops] at member

/-- An order that rests is on the side that it says. -/
theorem Plain.isBuy (plain : Plain b) {t : TreeName} (resting : t = .bids ∨ t = .asks) (member : o ∈ b.side t) :
    o.isBuy = decide (t = .bids) := by
  have place := plain.orderly.placed t o member
  unfold SimpleOrder.side SimpleOrder.stopSide at place
  rcases resting with rfl | rfl <;> cases buys : o.isBuy <;> simp [buys] at place ⊢

/-! ## The orders that messages bring -/

theorem Plain.newOrder {o : NewOrder} (plain : Plain b) (inRange : (Message.newOrder o).InRange) (admitted : b.Admits (.newOrder o)) :
    Incoming b o.order := by
  obtain ⟨⟨_,small⟩,price⟩ := inRange
  obtain ⟨low,high⟩ := price _ rfl
  have small' : o.orderId.toNat < 4294967296 := small
  refine ⟨⟨_,_,_,_,_,rfl,?_⟩,?_,?_⟩
  · split_ifs
    · exact .inr rfl
    · exact .inl rfl
  · have isPrice := castU32_toNat (by omega) high
    show 1 ≤ (castU32 o.priceTicks.toInt).toNat
    omega
  · show ∀ t, (castU32 o.orderId.toNat).toNat ∉ _
    rw [castU32_natCast small']
    exact plain.absent admitted

theorem Plain.modified {m : ModifyOrder} {t : TreeName} (plain : Plain b) (inRange : (Message.modify m).InRange) (member : o ∈ b.side t)
    (isId : o.orderId = m.orderId.toNat) : Incoming (b.cancel m.orderId.toNat) m.order := by
  obtain ⟨⟨_,small⟩,price⟩ := inRange
  obtain ⟨low,high⟩ := price _ rfl
  have small' : m.orderId.toNat < 4294967296 := small
  refine ⟨⟨_,_,_,_,_,rfl,.inl rfl⟩,?_,?_⟩
  · have isPrice := castU32_toNat (by omega) high
    show 1 ≤ (castU32 m.newPriceTicks.toInt).toNat
    omega
  · show ∀ t, (castU32 m.orderId.toNat).toNat ∉ _
    rw [castU32_natCast small',← isId,(plain.cancel member).1]
    exact plain.orderly.erased_ids member

end Book

/-! ## The adapter -/

namespace MatchingBook
variable {N : Capacity} {m : MatchingBook N} {b : Book} {exact : Prop} {id : Nat}
open TreeState

theorem Represents.find (rep : Represents exact m b) (t : TreeName) (id : Nat) :
    ((m.on t).findOrder id).map (Option.map SimpleOrder.bare) = some (b.find t id) := by
  obtain ⟨ch,bl,held,sides,_⟩ := rep
  rw [find_flat (held.side t).toTree,flat_bareOrders,← sides t]
  rfl

end MatchingBook

namespace BabobookAdapter
variable {N : Capacity} {a : BabobookAdapter N} {b : Book} {id : Nat}
open MatchingBook

theorem findResting_eq (rep : Represents True a.book b) (plain : b.Plain) (id : Nat) : ∃ r, a.findResting id = some r ∧
    r.map (fun x => (x.1.bare,x.2)) = (b.findResting id).map fun o => (o,o.isBuy) := by
  have bids := rep.find .bids id
  have asks := rep.find .asks id
  cases foundBid : (a.book.on .bids).findOrder id with
  | none => simp [foundBid] at bids
  | some bid =>
    rw [foundBid] at bids
    have isBid : bid.map SimpleOrder.bare = b.find .bids id := Option.some.inj bids
    cases bid with
    | some o =>
      refine ⟨some (o,true),by simp [findResting,foundBid],?_⟩
      have found : b.find .bids id = some o.bare := isBid.symm
      have isBuy : o.bare.isBuy = true := plain.isBuy (.inl rfl) (Book.find_some found).1
      rw [Book.findResting,found]
      exact congrArg (fun buys => some (o.bare,buys)) isBuy.symm
    | none =>
      have noBid : b.find .bids id = none := isBid.symm
      cases foundAsk : (a.book.on .asks).findOrder id with
      | none => simp [foundAsk] at asks
      | some ask =>
        rw [foundAsk] at asks
        have isAsk : ask.map SimpleOrder.bare = b.find .asks id := Option.some.inj asks
        cases ask with
        | some o =>
          refine ⟨some (o,false),by simp [findResting,foundBid,foundAsk],?_⟩
          have found : b.find .asks id = some o.bare := isAsk.symm
          have isBuy : o.bare.isBuy = false := plain.isBuy (.inr rfl) (Book.find_some found).1
          rw [Book.findResting,noBid,found]
          exact congrArg (fun buys => some (o.bare,buys)) isBuy.symm
        | none =>
          have noAsk : b.find .asks id = none := isAsk.symm
          exact ⟨none,by simp [findResting,foundBid,foundAsk],by simp [Book.findResting,noBid,noAsk]⟩

/-! ## Calls of the book -/

theorem listen_trades (ts : List Trade) : ∀ a : BabobookAdapter N, (∀ t ∈ ts, 0 < t.qty) →
    a.filled + traded ts < 18446744073709551616 → (ts.map Trade.event).foldlM listen a =
      some { a with reports := a.reports ++ ts.map (Trade.report a.seq), filled := a.filled + traded ts } := by
  induction ts with
  | nil => intro a _ _; simp [traded]
  | cons t ts ih =>
    intro a positive small
    obtain ⟨first,rest⟩ := List.forall_mem_cons.mp positive
    have total : traded (t :: ts) = t.qty + traded ts := rfl
    have nonzero : t.qty ≠ 0 := by omega
    have heard : a.listen t.event = some { a with reports := a.reports ++ [t.report a.seq], filled := a.filled + t.qty } := by
      simp only [Trade.event,listen,onFill,if_neg nonzero,pushReport,toU64_of_lt (show a.filled + t.qty < _ by omega)]
      rfl
    rw [List.map_cons,List.foldlM_cons,heard]
    apply (ih _ rest (by show a.filled + t.qty + traded ts < _; omega)).trans
    simp [total,Nat.add_assoc]

/-- What a call of the book makes of the adapter. -/
theorem callBook_eq {f : MatchingBook N → Option (MatchingBook N)} {m : MatchingBook N} {e : OrderEvent} {ts : List Trade}
    (called : f a.book = some m) (notFill : e.isFill = false)
    (events : m.market.events = a.book.market.events ++ e :: ts.map Trade.event) (positive : ∀ t ∈ ts, 0 < t.qty)
    (small : a.filled + traded ts < 18446744073709551616) : a.callBook f =
      some { a with book := m, reports := a.reports ++ ts.map (Trade.report a.seq), filled := a.filled + traded ts } := by
  have silent : ∀ a : BabobookAdapter N, a.listen e = some a := by
    intro a
    cases e <;> first | rfl | simp [OrderEvent.isFill] at notFill
  simp only [callBook,called,events,List.drop_left,List.foldlM_cons,silent,Option.bind_eq_bind,Option.bind_some]
  exact listen_trades ts { a with book := m } positive small

/-- The adapter holds the orders of the desk's book, and has pushed its reports. -/
structure Follows (a : BabobookAdapter N) (d : Desk) : Prop where
  book : Represents True a.book d.book
  reports : a.reports = d.reports

variable {d : Desk} {o : SimpleOrder}

theorem add_eq (rep : Represents True a.book b) (plain : b.Plain) (incoming : b.Incoming o) (small : a.filled = 0) :
    ∃ m, Represents True m (b.add o) ∧ a.callBook (·.add o) = some { a with
      book := m
      reports := a.reports ++ (b.tradesOf o).map (Trade.report a.seq)
      filled := traded (b.tradesOf o) } := by
  obtain ⟨e,notFill,events⟩ := incoming.events plain
  have le := incoming.traded_le plain
  have bound := incoming.fields.1.orderQty
  have positive := fun t member => (incoming.tradesOf plain (t := t) member).2.1
  obtain ⟨isBuy,price,qty,conditions,orderId,rfl,_⟩ := incoming.isNew
  have absent : b.Absent (.add isBuy price qty 0 conditions orderId) := incoming.absent
  obtain ⟨m,added,rep'⟩ := rep.add plain.orderly absent
  rw [← rep'.market,← rep.market] at events
  have called := callBook_eq (a := a) (f := (·.add (.new isBuy price qty 0 conditions orderId))) added notFill events positive (by omega)
  rw [small,Nat.zero_add] at called
  exact ⟨m,rep',called⟩

theorem cancel_eq {t : TreeName} (rep : Represents True a.book b) (plain : b.Plain) (member : o ∈ b.side t) :
    ∃ m, Represents True m (b.cancel o.orderId) ∧ a.callBook (·.cancel o.orderId) = some { a with book := m } := by
  obtain ⟨m,cancelled,rep'⟩ := rep.cancel o.orderId
  have events : (b.cancel o.orderId).market.events = b.market.events ++ [.onCancel o.orderId] := by
    rw [(plain.cancel member).1]
    rfl
  rw [← rep'.market,← rep.market] at events
  refine ⟨m,rep',?_⟩
  simp [callBook,cancelled,events,listen]

end BabobookAdapter

namespace Desk

def start : Desk := ⟨.start,[]⟩

def step (d : Desk) (m : Message) : Desk := ⟨(d.book.answer m).1,d.reports ++ (d.book.answer m).2⟩

/-- The messages that the adapter may get. -/
def Ok (d : Desk) (m : Message) : Prop := m.InRange ∧ d.book.Admits m

instance (d : Desk) (m : Message) : Decidable (d.Ok m) := inferInstanceAs (Decidable (_ ∧ _))

def after (ms : List Message) : Desk := ms.foldl step start

end Desk

namespace Book
variable {b : Book} {m : Message}

/-- A message leaves a plain book. -/
theorem Plain.answer (plain : Plain b) (inRange : m.InRange) (admitted : b.Admits m) : Plain (b.answer m).1 := by
  cases m with
  | newOrder o => exact (plain.newOrder inRange admitted).plain plain
  | cancel c =>
    show Plain (b.answerCancel c).1
    unfold answerCancel
    cases found : b.findResting c.orderId.toNat with
    | none => exact plain
    | some o =>
      obtain ⟨t,_,member,isId⟩ := findResting_some found
      rw [← isId]
      exact (plain.cancel member).2
  | modify m =>
    show Plain (b.answerModify m).1
    unfold answerModify
    cases found : b.findResting m.orderId.toNat with
    | none => exact plain
    | some o =>
      obtain ⟨t,_,member,isId⟩ := findResting_some found
      have cancelled := (plain.cancel member).2
      rw [isId] at cancelled
      exact (plain.modified inRange member isId).plain cancelled

theorem plain_start : Plain start := ⟨orderly_start,fun _ _ => rfl,by simp [start]⟩

end Book

namespace BabobookAdapter
variable {N : Capacity} {a : BabobookAdapter N} {d : Desk} {m : Message}
open MatchingBook

theorem Follows.newOrder {o : NewOrder} (follows : Follows a d) (plain : d.book.Plain) (inRange : (Message.newOrder o).InRange)
    (admitted : d.book.Admits (.newOrder o)) : ∃ a', a.engineOnNewOrder o = some a' ∧ Follows a' (d.step (.newOrder o)) := by
  have incoming := plain.newOrder inRange admitted
  have le : traded (d.book.tradesOf o.order) ≤ o.quantity.toNat := incoming.traded_le plain
  have small : o.quantity.toNat < 4294967296 := UInt32.toNat_lt _
  obtain ⟨book,rep,called⟩ := add_eq (a := { a with
    seq := o.sequenceNumber.toNat
    filled := 0
    reports := a.reports ++ [.ack .orderAck o.sequenceNumber.toNat o.orderId.toNat o.side.toNat o.priceTicks.toInt o.quantity.toNat] })
    follows.book plain incoming rfl
  have residual : toU32 ((o.quantity.toNat : Int) - (traded (d.book.tradesOf o.order) : Nat)) =
      o.quantity.toNat - traded (d.book.tradesOf o.order) := by
    unfold toU32
    omega
  have called' : (emitAck { a with seq := o.sequenceNumber.toNat, filled := 0 } .orderAck o.sequenceNumber.toNat o.orderId.toNat
    o.side.toNat o.priceTicks.toInt o.quantity.toNat).callBook (·.add o.order) = _ := called
  simp only [engineOnNewOrder,called',residual,Option.bind_eq_bind,Option.bind_some,Desk.step,Book.answer,Book.answerNewOrder]
  split_ifs with left
  · exact ⟨_,rfl,rep,by simp [emitAck,pushReport,Report.ack,follows.reports]⟩
  · exact ⟨_,rfl,rep,by simp [follows.reports]⟩

theorem Follows.cancel {c : CancelOrder} (follows : Follows a d) (plain : d.book.Plain) (inRange : (Message.cancel c).InRange) :
    ∃ a', a.engineOnCancel c = some a' ∧ Follows a' (d.step (.cancel c)) := by
  have small : c.orderId.toNat < 4294967296 := inRange.1.2
  obtain ⟨r,found,isFound⟩ := findResting_eq follows.book plain c.orderId.toNat
  simp only [engineOnCancel,castU32_natCast small,found,Option.bind_eq_bind,Option.bind_some,Desk.step,Book.answer,Book.answerCancel]
  cases resting : d.book.findResting c.orderId.toNat with
  | none =>
    obtain rfl : r = none := by simpa [resting] using isFound
    exact ⟨_,rfl,follows.book,by simp [emitAck,pushReport,Report.ack,follows.reports]⟩
  | some o =>
    obtain ⟨t,_,member,isId⟩ := Book.findResting_some resting
    obtain ⟨m,rep,called⟩ := cancel_eq follows.book plain member
    rw [isId] at rep called
    rw [resting] at isFound
    obtain ⟨x,rfl,isO⟩ : ∃ x, r = some x ∧ (x.1.bare,x.2) = (o,o.isBuy) := by simpa using isFound
    obtain ⟨o',buys⟩ := x
    obtain ⟨rfl,isBuys⟩ := Prod.mk.inj isO
    obtain rfl : buys = o'.isBuy := isBuys
    simp only [called,Option.bind_some]
    refine ⟨_,rfl,rep,?_⟩
    simp only [emitAck,pushReport,follows.reports]
    rfl

theorem Follows.modify {m : ModifyOrder} (follows : Follows a d) (plain : d.book.Plain) (inRange : (Message.modify m).InRange) :
    ∃ a', a.engineOnModify m = some a' ∧ Follows a' (d.step (.modify m)) := by
  have small : m.orderId.toNat < 4294967296 := inRange.1.2
  obtain ⟨r,found,isFound⟩ := findResting_eq (a := { a with seq := m.sequenceNumber.toNat, filled := 0 }) follows.book plain m.orderId.toNat
  simp only [engineOnModify,castU32_natCast small,found,Option.bind_eq_bind,Option.bind_some,Desk.step,Book.answer,Book.answerModify]
  cases resting : d.book.findResting m.orderId.toNat with
  | none =>
    obtain rfl : r = none := by simpa [resting] using isFound
    exact ⟨_,rfl,follows.book,by simp [emitAck,pushReport,Report.ack,follows.reports]⟩
  | some o =>
    obtain ⟨t,_,member,isId⟩ := Book.findResting_some resting
    obtain ⟨m₁,rep₁,called₁⟩ := cancel_eq (a := { a with seq := m.sequenceNumber.toNat, filled := 0 }) follows.book plain member
    have plain₁ := (plain.cancel member).2
    rw [isId] at rep₁ called₁ plain₁
    obtain ⟨m₂,rep₂,called₂⟩ := add_eq (a := { a with book := m₁, seq := m.sequenceNumber.toNat, filled := 0 }) rep₁ plain₁
      (plain.modified inRange member isId) rfl
    obtain ⟨x,rfl⟩ : ∃ x, r = some x := by
      cases r with
      | none => simp [resting] at isFound
      | some x => exact ⟨x,rfl⟩
    simp only [called₁,called₂,Option.bind_some]
    exact ⟨_,rfl,rep₂,by simp [emitAck,pushReport,Report.ack,follows.reports]⟩

theorem Follows.step (follows : Follows a d) (plain : d.book.Plain) (ok : d.Ok m) : ∃ a', a.step m = some a' ∧ Follows a' (d.step m) := by
  cases m with
  | newOrder o => exact follows.newOrder plain ok.1 ok.2
  | cancel c => exact follows.cancel plain ok.1
  | modify m => exact follows.modify plain ok.1

/-! ## Runs -/

/-- The adapter after some messages, on some pools. -/
def after (h : Pools N) (ms : List Message) : Option (BabobookAdapter N) := run step (engineInit h.toHeap) ms

/-- What the adapter may get after the messages that it has got: ids and prices in range, and no new order with
    the id of an order that rests. -/
def Admissible (h : Pools N) (ms : List Message) : Prop := ∀ before m later, ms = before ++ m :: later → m.InRange ∧
  ∀ o, m = .newOrder o → ∀ a, after h before = some a → a.findResting o.orderId.toNat = some none

variable {h : Pools N} {ms : List Message}

theorem follows_start (h : Pools N) : Follows (engineInit h.toHeap) Desk.start := ⟨represents_start h,rfl⟩

theorem run_follows (h : Pools N) (admitted : Admitted Desk.Ok Desk.step Desk.start ms) :
    ∃ a, after h ms = some a ∧ Follows a (Desk.after ms) ∧ (Desk.after ms).book.Plain := by
  have matched : ∀ (a : BabobookAdapter N) (d : Desk) (m : Message), Follows a d ∧ d.book.Plain → d.Ok m →
      ∃ a', a.step m = some a' ∧ Follows a' (d.step m) ∧ (d.step m).book.Plain := by
    rintro a d m ⟨follows,plain⟩ ok
    obtain ⟨a',stepped,follows'⟩ := follows.step plain ok
    exact ⟨a',stepped,follows',plain.answer ok.1 ok.2⟩
  exact run_matched matched ms (engineInit h.toHeap) .start ⟨follows_start h,Book.plain_start⟩ admitted

theorem admits_iff {o : NewOrder} (follows : Follows a d) (plain : d.book.Plain) :
    a.findResting o.orderId.toNat = some none ↔ d.book.Admits (.newOrder o) := by
  obtain ⟨r,found,isFound⟩ := findResting_eq follows.book plain o.orderId.toNat
  rw [found,Option.some_inj]
  show _ ↔ d.book.findResting _ = none
  cases r <;> cases resting : d.book.findResting o.orderId.toNat <;> simp_all

theorem Admissible.front {later : List Message} (admissible : Admissible h (ms ++ later)) : Admissible h ms := by
  rintro before m later' rfl
  exact admissible before m (later' ++ later) (by simp)

theorem Admissible.admitted (admissible : Admissible h ms) : Admitted Desk.Ok Desk.step Desk.start ms := by
  induction ms using List.reverseRecOn with
  | nil => trivial
  | append_singleton ms m ih =>
    have admitted := ih admissible.front
    obtain ⟨a,ran,follows,plain⟩ := run_follows h admitted
    obtain ⟨inRange,notResting⟩ := admissible ms m [] rfl
    refine admitted_append.mpr ⟨admitted,⟨inRange,?_⟩,trivial⟩
    cases m with
    | newOrder o => exact (admits_iff follows plain).mp (notResting o rfl a ran)
    | cancel | modify => trivial

theorem admissible_iff : Admissible h ms ↔ Admitted Desk.Ok Desk.step Desk.start ms := by
  refine ⟨Admissible.admitted,?_⟩
  rintro admitted before m later rfl
  obtain ⟨first,ok,_⟩ := admitted_append.mp admitted
  obtain ⟨a,ran,follows,plain⟩ := run_follows h first
  refine ⟨ok.1,?_⟩
  rintro o rfl a' ran'
  obtain rfl : a = a' := Option.some.inj (ran.symm.trans ran')
  exact (admits_iff follows plain).mpr ok.2

/-- The messages of a run and one more. -/
theorem run_step_follows (admissible : Admissible h (ms ++ [m])) : ∃ a a', after h ms = some a ∧ a.step m = some a' ∧
    Follows a (Desk.after ms) ∧ (Desk.after ms).book.Plain ∧ (Desk.after ms).Ok m ∧ Follows a' ((Desk.after ms).step m) := by
  obtain ⟨first,ok,_⟩ := admitted_append.mp admissible.admitted
  obtain ⟨a,ran,follows,plain⟩ := run_follows h first
  obtain ⟨a',stepped,follows'⟩ := follows.step plain ok
  exact ⟨a,a',ran,stepped,follows,plain,ok,follows'⟩

end BabobookAdapter

end BaboEngine
