import BaboEngine.AdapterRuns
import BaboEngine.ReportLog

/-!
# How many reports a stream can have

The harness reserves room for two reports a message and a margin, and calls that a heuristic:
a crossing order has an acknowledgement and a trade for every maker that it meets. It is a
bound. The potential is the number of orders that rest: every trade but the last fills its
maker, and where the last one leaves its maker open nothing of the taker is left to rest or
to be cancelled.
-/

namespace BaboEngine
open Simulation

namespace Matching

/-- The trades of an allotment and the makers that it leaves. -/
def tradesAndLeft (takes : List (SimpleOrder × Option Nat)) : Nat := (takes.filterMap taken).length + (takes.flatMap left).length

@[simp] theorem tradesAndLeft_none (m : SimpleOrder) (takes : List (SimpleOrder × Option Nat)) :
    tradesAndLeft ((m,none) :: takes) = tradesAndLeft takes + 1 := by
  rw [tradesAndLeft,List.filterMap_cons_none (taken_none m),List.flatMap_cons,left_none,List.length_append,List.length_singleton]
  unfold tradesAndLeft
  omega

@[simp] theorem tradesAndLeft_some (m : SimpleOrder) (q : Nat) (takes : List (SimpleOrder × Option Nat)) :
    tradesAndLeft ((m,some q) :: takes) = tradesAndLeft takes + 1 + (kept (m.fill q (Market.cost m q))).length := by
  rw [tradesAndLeft,List.filterMap_cons_some (taken_some m q),List.flatMap_cons,left_some,List.length_append,List.length_cons]
  unfold tradesAndLeft
  omega

@[simp] theorem tradesAndLeft_untouched (makers : List SimpleOrder) : tradesAndLeft (makers.map fun o => (o,none)) = makers.length := by
  induction makers with
  | nil => rfl
  | cons maker rest ih => rw [List.map_cons,tradesAndLeft_none,ih,List.length_cons]

/-- A trade fills its maker, or it is the last one and the need is met. -/
theorem tradesAndLeft_allot (inc : SimpleOrder) (makers : List SimpleOrder) : ∀ need, (∀ o ∈ makers, o.Sized) →
    tradesAndLeft (allot inc need makers) ≤ makers.length + 1 ∧
      (total (allot inc need makers) < need → tradesAndLeft (allot inc need makers) ≤ makers.length) := by
  induction makers with
  | nil => intro need _; simp [allot,tradesAndLeft]
  | cons maker rest ih =>
    intro need sized
    obtain ⟨sizedMaker,sizedRest⟩ := List.forall_mem_cons.mp sized
    have untouched := tradesAndLeft_untouched (maker :: rest)
    unfold allot
    split_ifs
    · constructor <;> omega
    · have tail := ih need sizedRest
      rw [tradesAndLeft_none,total_none,List.length_cons]
      omega
    · have left := sizedMaker.openQty_fill (q := min need maker.openQty) (c := Market.cost maker (min need maker.openQty)) (min_le_right ..)
      have tail := ih (need - min need maker.openQty) sizedRest
      rw [tradesAndLeft_some,total_some,List.length_cons]
      by_cases fills : maker.openQty ≤ need
      · rw [kept,if_pos (by omega),List.length_nil]
        omega
      · have exhausted : need - min need maker.openQty = 0 := by omega
        rw [exhausted,allot_done,tradesAndLeft_untouched,total_untouched,kept,if_neg (by omega),List.length_singleton]
        omega

end Matching

namespace Book
variable {b : Book} {o : SimpleOrder} {m : Message} {t : TreeName}

/-- How many orders rest. -/
def restingCount (b : Book) : Nat := (b.side .bids).length + (b.side .asks).length

theorem restingCount_eq (b : Book) (o : SimpleOrder) : b.restingCount = (b.side o.side).length + (b.side o.opposite).length := by
  unfold restingCount SimpleOrder.side SimpleOrder.opposite
  cases o.isBuy
  · exact Nat.add_comm ..
  · rfl

/-- The trades of an incoming order, what it leaves on the book and what is left of it to be cancelled. -/
theorem Incoming.count (incoming : Incoming b o) (plain : Plain b) : (b.tradesOf o).length + (b.add o).restingCount +
    (if o.immediateOrCancel ∧ traded (b.tradesOf o) < o.orderQty then 1 else 0) ≤ b.restingCount + 1 := by
  obtain ⟨sized,whole,_,regular,_⟩ := incoming.fields
  have quantity := incoming.traded_eq plain
  rw [incoming.add_eq plain]
  by_cases empty : o.orderQty = 0
  · rw [if_pos empty,Book.tradesOf,if_pos empty,List.length_nil]
    show 0 + b.restingCount + _ ≤ _
    split_ifs <;> omega
  · rw [if_neg empty] at quantity ⊢
    have isAllot : Matching.takes o (b.side o.opposite) = Matching.allot o o.openQty (b.side o.opposite) := by simp [Matching.takes,regular]
    rw [isAllot] at quantity
    have passIs : b.pass o = .commit o (Matching.allot o o.openQty (b.side o.opposite)) := by rw [Book.pass_eq sized,isAllot]
    have open' : (b.pass o).inc.openQty = o.openQty - traded (b.tradesOf o) := by rw [(pass_inc sized).2.2,isAllot,quantity]
    have trades : (b.tradesOf o).length + (b.pass o).makers.length =
        Matching.tradesAndLeft (Matching.allot o o.openQty (b.side o.opposite)) := by
      rw [Matching.tradesAndLeft,← Matching.commit_trades _ o,← Matching.commit_makers _ o,← passIs,List.length_map,Book.tradesOf,if_neg empty]
    have bound := Matching.tradesAndLeft_allot o (b.side o.opposite) o.openQty (plain.orderly.sized.1 _)
    have own : (((b.emit (.onAccept o.orderId)).submit o).side o.side).length = (b.side o.side).length +
        if Rests o (b.pass o).inc then 1 else 0 := by
      rw [submit_side sized]
      show (if Rests o (b.pass o).inc then _ else b.side o.side).length = _
      split_ifs
      · exact List.orderedInsert_length ..
      · rfl
    have opposite : (((b.emit (.onAccept o.orderId)).submit o).side o.opposite).length = (b.pass o).makers.length :=
      congrArg List.length (submit_opposite sized)
    rw [restingCount_eq _ o,restingCount_eq b o,own,opposite]
    have same : (b.pass o).inc.immediateOrCancel = o.immediateOrCancel := (pass_inc sized).1.immediateOrCancel
    -- what is left of the order rests or is cancelled, not both
    by_cases rests : Rests o (b.pass o).inc
    · obtain ⟨_,live,opened⟩ := id rests
      rw [same] at live
      rw [if_pos rests,if_neg (fun cancels => by simp [cancels.1] at live)]
      have := bound.2 (by omega)
      omega
    · rw [if_neg rests]
      split_ifs with cancels
      · have := bound.2 (by omega)
        omega
      · omega

/-- An order that is cancelled rests no more. -/
theorem Plain.restingCount_cancel (plain : Plain b) (member : o ∈ b.side t) (resting : t = .bids ∨ t = .asks) :
    (b.cancel o.orderId).restingCount + 1 ≤ b.restingCount := by
  have fewer : ((b.side t).filter (·.orderId ≠ o.orderId)).length < (b.side t).length :=
    List.length_filter_lt_length_iff_exists.mpr ⟨o,member,by simp⟩
  rw [(plain.cancel member).1]
  show ((b.eraseFrom t o.orderId).side .bids).length + ((b.eraseFrom t o.orderId).side .asks).length + 1 ≤ _
  rw [side_eraseFrom,side_eraseFrom]
  unfold restingCount
  rcases resting with rfl | rfl
  · rw [if_pos rfl,if_neg (by decide)]
    omega
  · rw [if_neg (by decide),if_pos rfl]
    omega

/-- A message brings at most two reports more than it takes orders off the book. -/
theorem Plain.answer_count (plain : Plain b) (inRange : m.InRange) (admitted : b.Admits m) :
    (b.answer m).2.length + (b.answer m).1.restingCount ≤ b.restingCount + 2 := by
  cases m with
  | newOrder o =>
    have count := (plain.newOrder inRange admitted).count plain
    obtain ⟨_,_,_,quantity,ioc⟩ := NewOrder.order_fields inRange
    simp only [quantity,ioc,decide_eq_true_eq] at count
    simp only [Book.answer,answerNewOrder,List.length_append,List.length_cons,List.length_map]
    split_ifs at count ⊢
    · simp only [List.length_singleton]
      omega
    · simp only [List.length_nil]
      omega
  | cancel c =>
    simp only [Book.answer,answerCancel]
    cases found : b.findResting c.orderId.toNat with
    | none =>
      show 1 + b.restingCount ≤ _
      omega
    | some o =>
      obtain ⟨t,resting,member,isId⟩ := findResting_some found
      have fewer := plain.restingCount_cancel member resting
      rw [isId] at fewer
      show 1 + (b.cancel c.orderId.toNat).restingCount ≤ _
      omega
  | modify m =>
    simp only [Book.answer,answerModify]
    cases found : b.findResting m.orderId.toNat with
    | none =>
      show 1 + b.restingCount ≤ _
      omega
    | some o =>
      obtain ⟨t,resting,member,isId⟩ := findResting_some found
      have cancelled := (plain.cancel member).2
      have fewer := plain.restingCount_cancel member resting
      rw [isId] at cancelled fewer
      have count := (plain.modified inRange member isId).count cancelled
      simp only [List.length_append,List.length_map,List.length_singleton]
      omega

end Book

namespace Desk

/-- The reports of a stream and the orders that it leaves are at most two for each message. -/
theorem reports_bound {ms : List Message} (admitted : Admitted Desk.Ok Desk.step Desk.start ms) :
    (Desk.after ms).reports.length + (Desk.after ms).book.restingCount ≤ 2 * ms.length ∧ (Desk.after ms).book.Plain := by
  induction ms using List.reverseRecOn with
  | nil => exact ⟨le_refl 0,Book.plain_start⟩
  | append_singleton ms m ih =>
    obtain ⟨before,⟨inRange,admits⟩,_⟩ := admitted_append.mp admitted
    obtain ⟨bound,plain⟩ := ih before
    have more := plain.answer_count inRange admits
    rw [Desk.after,List.foldl_append]
    refine ⟨?_,plain.answer inRange admits⟩
    show ((Desk.after ms).reports ++ ((Desk.after ms).book.answer m).2).length + ((Desk.after ms).book.answer m).1.restingCount ≤ _
    rw [List.length_append,List.length_append,List.length_singleton]
    omega

end Desk

namespace BabobookAdapter
variable {N : Capacity}
open MatchingBook

/-- At every moment of a run the adapter has pushed at most two reports for a message, and as many fewer as orders rest. -/
theorem reports_bounded (h : Pools N) {ms : List Message} (admissible : Admissible h ms) : ∀ before later, ms = before ++ later →
    ∃ a b, after h before = some a ∧ Represents True a.book b ∧ a.reports.length + b.restingCount ≤ 2 * before.length := by
  rintro before later rfl
  have admitted := admissible.front.admitted
  obtain ⟨a,ran,follows,_⟩ := run_follows h admitted
  refine ⟨a,_,ran,follows.book,?_⟩
  rw [follows.reports]
  exact (Desk.reports_bound admitted).1

/-- Two sells and a buy that sweeps them and has some left. -/
theorem reports_bounded_sweep :
    let ms : List Message := [.newOrder ⟨1,1,100,10,1,0⟩,.newOrder ⟨2,2,101,4,1,0⟩,.newOrder ⟨3,3,101,20,0,0⟩]
    ∀ before later, ms = before ++ later → ∃ (a : BabobookAdapter ⟨1,by decide,by decide⟩) (b : Book), after .empty before = some a ∧
      Represents True a.book b ∧ a.reports.length + b.restingCount ≤ 2 * before.length :=
  reports_bounded .empty (admissible_iff.mpr (by decide))

end BabobookAdapter

end BaboEngine
