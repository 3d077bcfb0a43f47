import BaboEngine.ReportQueries

/-!
# The report stream

Whatever messages come, the ledger of the reports is the book of the adapter after each of
them, and it tells how the next one is answered.
-/

namespace BaboEngine
open Simulation

namespace Logged
variable {seqs : List Nat} {l : Ledger} {b : Book} {d : Desk} {m : Message} {ms : List Message} {id : Nat}

theorem step (logged : Logged seqs l d.book) (plain : d.book.Plain) (ok : d.Ok m) (fresh : m.sequenceNumber ∉ seqs) :
    Logged (seqs ++ [m.sequenceNumber]) ((d.book.answer m).2.foldl Ledger.read l) (d.step m).book := by
  cases m with
  | newOrder o => exact logged.newOrder plain ok.1 ok.2
  | cancel c => exact logged.cancel plain
  | modify m => exact logged.modify plain ok.1 fresh

theorem start : Logged [] .empty Book.start := ⟨.refl _,by simp [Ledger.empty],by simp [Ledger.empty]⟩

/-- The ledger of a run. -/
theorem run (admitted : Admitted Desk.Ok Desk.step Desk.start ms) (distinct : (ms.map Message.sequenceNumber).Nodup) :
    Logged (ms.map Message.sequenceNumber) (.ofReports (Desk.after ms).reports) (Desk.after ms).book ∧ (Desk.after ms).book.Plain := by
  induction ms using List.reverseRecOn with
  | nil => exact ⟨start,Book.plain_start⟩
  | append_singleton ms m ih =>
    obtain ⟨first,ok,_⟩ := admitted_append.mp admitted
    rw [List.map_append,List.map_singleton] at distinct ⊢
    obtain ⟨distinct',fresh⟩ := (List.nodup_append_comm.trans List.nodup_cons).mp distinct |>.symm
    obtain ⟨logged,plain⟩ := ih first distinct'
    have isStep : Desk.after (ms ++ [m]) = (Desk.after ms).step m := List.foldl_append
    have isRead : Ledger.ofReports ((Desk.after ms).step m).reports =
        ((Desk.after ms).book.answer m).2.foldl Ledger.read (.ofReports (Desk.after ms).reports) := List.foldl_append
    rw [isStep,isRead]
    exact ⟨logged.step plain ok fresh,plain.answer ok.1 ok.2⟩

/-- The entry of an id is its resting order. -/
theorem find (logged : Logged seqs l b) (plain : b.Plain) (id : Nat) :
    (l.entries.find? fun e => e.orderId = id).map Entry.toResting = (b.findResting id).map SimpleOrder.resting := by
  cases found : l.entries.find? fun e => e.orderId = id with
  | none =>
    have none : b.findResting id = none := by
      by_contra resting
      obtain ⟨e,member,isId⟩ := (logged.ids_iff plain).mpr resting
      simpa [isId] using List.find?_eq_none.mp found e member
    rw [none]
    rfl
  | some e =>
    have isId : e.orderId = id := by simpa using List.find?_some found
    obtain ⟨t,o,resting,inSide,isO⟩ := logged.entry (List.mem_of_find?_eq_some found)
    have sameId : o.orderId = id := by
      rw [isO] at isId
      exact isId
    rw [← sameId,plain.findResting_eq inSide,Option.map_some,Option.map_some,isO]

end Logged

/-- How the reports of a message have to begin or to end, by the ledger before it. -/
def Ledger.Answers (l : Ledger) (rs : List Report) : Message → Prop
  | .newOrder o => rs.head? = some (.ack .orderAck o.sequenceNumber.toNat o.orderId.toNat o.side.toNat o.priceTicks.toInt o.quantity.toNat)
  | .cancel c => match l.entries.find? fun e => e.orderId = c.orderId.toNat with
    | some e => rs = [.ack .cancelAck c.sequenceNumber.toNat c.orderId.toNat (if e.isBuy then 0 else 1) e.priceTicks 0]
    | none => rs = [.ack .cancelReject c.sequenceNumber.toNat c.orderId.toNat 0 0 0]
  | .modify m => match l.entries.find? fun e => e.orderId = m.orderId.toNat with
    | some _ => ∃ trades, (∀ r ∈ trades, r.type = .trade) ∧ rs = trades ++
        [.ack .modifyAck m.sequenceNumber.toNat m.orderId.toNat m.side.toNat m.newPriceTicks.toInt m.newQuantity.toNat]
    | none => rs = [.ack .modifyReject m.sequenceNumber.toNat m.orderId.toNat 0 0 0]

namespace Logged
variable {seqs : List Nat} {l : Ledger} {b : Book} {m : Message}

theorem answers (logged : Logged seqs l b) (plain : b.Plain) (m : Message) : l.Answers (b.answer m).2 m := by
  cases m with
  | newOrder o => rfl
  | cancel c =>
    have same := logged.find plain c.orderId.toNat
    simp only [Ledger.Answers,Book.answer,Book.answerCancel]
    cases inLedger : l.entries.find? fun e => e.orderId = c.orderId.toNat with
    | none =>
      have gone : b.findResting c.orderId.toNat = none := by simpa [inLedger] using same
      simp only [gone]
    | some e =>
      rw [inLedger] at same
      obtain ⟨o,resting,isO⟩ := Option.map_eq_some_iff.mp same.symm
      simp only [resting,← isO]
      rfl
  | modify m =>
    have same := logged.find plain m.orderId.toNat
    simp only [Ledger.Answers,Book.answer,Book.answerModify]
    cases inLedger : l.entries.find? fun e => e.orderId = m.orderId.toNat with
    | none =>
      have gone : b.findResting m.orderId.toNat = none := by simpa [inLedger] using same
      simp only [gone]
    | some e =>
      rw [inLedger] at same
      obtain ⟨o,resting,_⟩ := Option.map_eq_some_iff.mp same.symm
      simp only [resting]
      refine ⟨_,?_,rfl⟩
      intro r member
      obtain ⟨t,_,rfl⟩ := List.mem_map.mp member
      rfl

end Logged

/-- An immediate-or-cancel order does not rest. -/
theorem Book.Plain.ioc_gone {b : Book} {o : NewOrder} (plain : b.Plain) (inRange : (Message.newOrder o).InRange)
    (admitted : b.Admits (.newOrder o)) (ioc : o.ioc ≠ 0) : (b.answer (.newOrder o)).1.findResting o.orderId.toNat = none := by
  have incoming := plain.newOrder inRange admitted
  obtain ⟨isId,_,_,_,isIoc⟩ := NewOrder.order_fields inRange
  have noRest : b.remainder o.order = [] := by
    rw [Book.remainder,isIoc]
    simp [ioc]
  have fibers := incoming.restings plain
  rw [noRest,List.append_nil] at fibers
  by_contra resting
  obtain ⟨x,found⟩ := Option.ne_none_iff_exists'.mp resting
  obtain ⟨t,isResting,inSide,sameId⟩ := Book.findResting_some found
  have inBook : x.resting ∈ (b.add o.order).restings := by
    refine List.mem_map_of_mem (List.mem_append.mpr ?_)
    rcases isResting with rfl | rfl
    · exact .inl inSide
    · exact .inr inSide
  obtain ⟨y,old,left⟩ := List.mem_filterMap.mp (fibers.mem_iff.mp inBook)
  obtain ⟨z,inSides,rfl⟩ := List.mem_map.mp old
  have isZ : z.orderId = o.orderId.toNat := (Resting.minus_keeps left).1.symm.trans sameId
  cases List.mem_append.mp inSides with
  | inl inBids => exact plain.absent admitted .bids (isZ ▸ mem_ids inBids)
  | inr inAsks => exact plain.absent admitted .asks (isZ ▸ mem_ids inAsks)

namespace BabobookAdapter
variable {N : Capacity} {h : Pools N} {ms : List Message}
open MatchingBook

/-- The ledger is the book of the adapter: on each side the same orders in price-time order, none of them
    immediate-or-cancel, and the same answers to the queries, where the adapter cuts a price to 32 bits. -/
structure HasLedger (a : BabobookAdapter N) (l : Ledger) : Prop where
  sides : ∀ t, t = .bids ∨ t = .asks → ∃ os, (a.book.on t).snapshot = some os ∧
    os.map SimpleOrder.resting = l.side (decide (t = .bids)) ∧ ∀ o ∈ os, o.immediateOrCancel = false
  bestBid : a.engineQueryBestBid = some l.bestBid
  bestAsk : a.engineQueryBestAsk = some l.bestAsk
  depthAt : ∀ (p : Int) (side : UInt8), ∃ n : Nat, a.engineQueryDepthAt p side = some n ∧
    (n : Int) = l.depthAt (toU32 p) (decide (side = 0))

theorem Follows.hasLedger {a : BabobookAdapter N} {d : Desk} {seqs : List Nat} {l : Ledger} (follows : Follows a d) (plain : d.book.Plain)
    (logged : Logged seqs l d.book) : a.HasLedger l := by
  refine ⟨?_,engineQueryBestBid_eq follows plain logged,engineQueryBestAsk_eq follows plain logged,
    engineQueryDepthAt_eq follows plain logged⟩
  intro t resting
  exact ⟨_,follows.book.snapshot t,(logged.side_eq plain resting).symm,fun o member => (plain.each t o member).regular.2⟩

/-- After every message the ledger of the reports is the book. The reports of a message are those that
    the ledger before it calls for, and an immediate-or-cancel order does not rest after its message. -/
theorem report_stream_complete (h : Pools N) (admissible : Admissible h ms) (distinct : (ms.map Message.sequenceNumber).Nodup) :
    (∀ before later, ms = before ++ later → ∃ a, after h before = some a ∧ a.HasLedger (.ofReports a.reports)) ∧
    ∀ before m later, ms = before ++ m :: later → ∃ a a' rs, after h before = some a ∧ a.step m = some a' ∧
      a'.reports = a.reports ++ rs ∧ (Ledger.ofReports a.reports).Answers rs m ∧
      ∀ o, m = .newOrder o → o.ioc ≠ 0 → a'.findResting o.orderId.toNat = some none := by
  constructor
  · rintro before later rfl
    rw [List.map_append] at distinct
    have admitted := admissible.front.admitted
    obtain ⟨a,ran,follows,_⟩ := run_follows h admitted
    obtain ⟨logged,plain⟩ := Logged.run admitted distinct.of_append_left
    rw [← follows.reports] at logged
    exact ⟨a,ran,follows.hasLedger plain logged⟩
  · rintro before m later rfl
    rw [List.map_append] at distinct
    have front : Admissible h ((before ++ [m]) ++ later) := by simpa using admissible
    obtain ⟨a,a',ran,stepped,follows,plain,ok,follows'⟩ := run_step_follows front.front
    obtain ⟨logged,_⟩ := Logged.run front.front.front.admitted distinct.of_append_left
    refine ⟨a,a',((Desk.after before).book.answer m).2,ran,stepped,?_,?_,?_⟩
    · rw [follows'.reports,follows.reports]
      rfl
    · rw [follows.reports]
      exact logged.answers plain m
    · rintro o rfl ioc
      exact (admits_iff follows' (plain.answer ok.1 ok.2)).mpr (plain.ioc_gone ok.1 ok.2 ioc)

/-- A sell, an immediate-or-cancel buy for more than it, a buy that is modified to another price and a cancel that comes twice. -/
theorem report_stream_complete_run :
    let ms : List Message := [.newOrder ⟨1,1,100,10,1,0⟩,.newOrder ⟨2,2,101,15,0,1⟩,.newOrder ⟨3,3,99,7,0,0⟩,.modify ⟨3,4,98,5,0⟩,
      .cancel ⟨3,5⟩,.cancel ⟨3,6⟩]
    (∀ before later, ms = before ++ later → ∃ a : BabobookAdapter ⟨1,by decide,by decide⟩, after .empty before = some a ∧
      a.HasLedger (.ofReports a.reports)) ∧
    ∀ before m later, ms = before ++ m :: later → ∃ (a a' : BabobookAdapter ⟨1,by decide,by decide⟩) (rs : List Report),
      after .empty before = some a ∧ a.step m = some a' ∧ a'.reports = a.reports ++ rs ∧ (Ledger.ofReports a.reports).Answers rs m ∧
      ∀ o, m = .newOrder o → o.ioc ≠ 0 → a'.findResting o.orderId.toNat = some none :=
  report_stream_complete .empty (admissible_iff.mpr (by decide)) (by decide)

end BabobookAdapter

end BaboEngine
