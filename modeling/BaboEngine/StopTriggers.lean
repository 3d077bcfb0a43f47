import BaboEngine.StopCascades
import Mathlib.Data.List.Pairwise

/-!
# When a stop goes live

A stop order goes to matching when it comes in and the last observed price reaches its trigger,
or in a later command in which an observed price does. There are two exceptions. Before any price is
observed the market price is zero, which reaches the trigger of every sell. And a price that
reaches a parked order is missed if no batch of the command ends with one that does.
-/

namespace BaboEngine
open Simulation

/-- The ids of the orders that are submitted between two states of the journal. -/
def Market.sentUntil (k k' : Market) : List Nat := BaboEngine.submitted (k'.submissions.drop k.submissions.length)

/-- The prices that are observed between two states of the journal. -/
def Market.observedUntil (k k' : Market) : List Nat := k'.observed.drop k.observed.length

namespace Book
variable {b b' : Book} {o : SimpleOrder} {t : TreeName} {hand : List SimpleOrder} {id : Nat} {c : Command}

def IsParked (b : Book) (id : Nat) : Prop := ∃ t, (t = .stopBids ∨ t = .stopAsks) ∧ id ∈ ids (b.side t)

/-- The last observed price reaches the trigger of an order. -/
def LastReaches (b : Book) (o : SimpleOrder) : Prop := ∃ px ∈ b.market.observed.getLast?, o.ReachedBy px

/-- A price that reaches the trigger of an order is observed while it is parked. -/
def Reaches (b b' : Book) (o : SimpleOrder) : Prop := b.IsParked o.orderId ∧ ∃ px ∈ b.market.observedUntil b'.market, o.ReachedBy px

/-- Every stop order that is added in a run has gone to matching if and only if its trigger was reached. The book after
    some of the commands is `view`. -/
def StopsGoLive (view : List Command → Option Book) (cs : List Command) : Prop :=
  ∀ before c later rest o, cs = before ++ c :: (later ++ rest) → c.stopOrder = some o → ∀ b b', view before = some b →
    view (before ++ c :: later) = some b' → (o.orderId ∈ b.market.sentUntil b'.market ↔ b.LastReaches o ∨
      ∃ mid c' mid' b₁ b₂, later = mid ++ c' :: mid' ∧ view (before ++ c :: mid) = some b₁ ∧
        view (before ++ c :: (mid ++ [c'])) = some b₂ ∧ b₁.Reaches b₂ o)

/-! ## The order that comes in -/

theorem stopOrder_some (stop : c.stopOrder = some o) : ∃ isBuy price qty stopPrice conditions orderId,
    c = .add isBuy price qty stopPrice conditions orderId ∧ o = .new isBuy price qty stopPrice conditions orderId ∧
    o.orderQty ≠ 0 ∧ o.stopPrice ≠ 0 := by
  cases c with
  | add isBuy price qty stopPrice conditions orderId =>
    simp only [Command.stopOrder] at stop
    split_ifs at stop with none
    obtain rfl := Option.some.inj stop
    refine ⟨isBuy,price,qty,stopPrice,conditions,orderId,rfl,rfl,?_,?_⟩
    · exact fun empty => none (.inl (UInt32.toNat_inj.mp empty))
    · exact fun empty => none (.inr (UInt32.toNat_inj.mp empty))
  | cancel | replace | setMarketPrice => simp [Command.stopOrder] at stop

/-- An added stop order goes to matching if the market price reaches its trigger. -/
theorem sent_added (stop : c.stopOrder = some o) : o.orderId ∈ ids (sentOf (b.batches c)) ↔ o.ReachedBy b.market.marketPrice := by
  obtain ⟨isBuy,price,qty,stopPrice,conditions,orderId,rfl,rfl,some,isStop⟩ := stopOrder_some stop
  have stopped : b.isStopped (.new isBuy price qty stopPrice conditions orderId) ↔
      ¬ (SimpleOrder.new isBuy price qty stopPrice conditions orderId).ReachedBy b.market.marketPrice := by
    unfold isStopped SimpleOrder.ReachedBy
    split_ifs <;> simp
  simp only [batches]
  split_ifs with parks
  · have notReached := stopped.mp (parks.resolve_left some).2
    simp [sentOf,notReached]
  · have reached : (SimpleOrder.new isBuy price qty stopPrice conditions orderId).ReachedBy b.market.marketPrice := by
      by_contra notReached
      exact parks (.inr ⟨isStop,stopped.mpr notReached⟩)
    exact iff_of_true (by simp [sentOf,batchesOf,batch]) reached

/-- The market price is the last observed price, or zero. -/
theorem reached_market (stop : c.stopOrder = some o) (marketPrice : b.market.marketPrice = b.market.observed.getLast?.getD 0) :
    o.ReachedBy b.market.marketPrice ↔ b.LastReaches o ∨ o.isBuy = false ∧ b.market.observed = [] := by
  obtain ⟨_,_,_,_,_,_,_,_,_,isStop⟩ := stopOrder_some stop
  rw [marketPrice]
  unfold LastReaches
  rcases List.eq_nil_or_concat b.market.observed with none | ⟨observed,px,some⟩
  · rw [none]
    unfold SimpleOrder.ReachedBy
    cases isBuy : o.isBuy <;> simp [isStop]
  · rw [some,List.concat_eq_append,List.getLast?_append]
    simp

/-! ## One command -/

/-- The parked orders were parked before or are new, and are not among those that have been submitted. -/
def ParkedSince (k : Market) (P : Nat → Prop) (b : Book) : Prop := ∃ S, b.market.submissions = k.submissions ++ S ∧
  ∀ t, t = .stopBids ∨ t = .stopAsks → ∀ o ∈ b.side t, P o.orderId ∧ o.orderId ∉ submitted S

theorem parkedSince_carried (k : Market) (P : Nat → Prop) : Carried Orderly fun b _ => ParkedSince k P b where
  submit b o hand orderly since := by
    obtain ⟨S,submissions,parked⟩ := since
    refine ⟨S ++ [b.call o],by rw [submissions_submit,submissions,List.append_assoc],?_⟩
    intro t stop x member
    rw [submit_stops orderly.handSized stop] at member
    obtain ⟨known,notSent⟩ := parked t stop x member
    refine ⟨known,?_⟩
    have other := orderly.absent x member
    simp only [submitted,List.map_append,List.mem_append,not_or,List.map_singleton,List.mem_singleton] at notSent ⊢
    exact ⟨notSent,other⟩
  scan b _ since := by
    obtain ⟨S,submissions,parked⟩ := since
    exact ⟨S,submissions,fun t stop x member => parked t stop x ((b.sublist_scanned t).subset member)⟩
  released _ _ _ since := since

theorem ParkedSince.of_still {k : Market} {P : Nat → Prop} (submissions : b.market.submissions = k.submissions)
    (parked : ∀ t, t = .stopBids ∨ t = .stopAsks → ∀ o ∈ b.side t, P o.orderId) : ParkedSince k P b :=
  ⟨[],by rw [submissions,List.append_nil],fun t stop o member => ⟨parked t stop o member,List.not_mem_nil⟩⟩

theorem Orderly.parkedSince_step (orderly : Orderly b []) (fresh : b.Fresh c) :
    ParkedSince b.market (fun id => b.IsParked id ∨ ∃ o, c.stopOrder = some o ∧ o.orderId = id) (b.step c) := by
  have outcome := step_outcome b c
  generalize b.step c = b' at outcome ⊢
  have notStop : ∀ t t' : TreeName, t = .bids ∨ t = .asks → t' = .stopBids ∨ t' = .stopAsks → ¬ t' = t := by
    rintro t t' (rfl | rfl) (rfl | rfl) <;> decide
  have before : ∀ t, t = .stopBids ∨ t = .stopAsks → ∀ o ∈ b.side t, b.IsParked o.orderId := fun t stop o member => ⟨t,stop,mem_ids member⟩
  cases outcome with
  | rejected | cancelRejected | replaceRejected => exact .of_still rfl fun t stop o member => .inl (before t stop o member)
  | parked isBuy price qty stopPrice conditions orderId o isNew some isStop =>
    refine .of_still rfl fun t stop x member => ?_
    rcases mem_insertInto member with old | ⟨_,rfl⟩
    · exact .inl (before t stop x old)
    · subst isNew
      refine .inr ⟨_,if_neg ?_,rfl⟩
      rintro (rfl | rfl)
      · exact some rfl
      · exact isStop rfl
  | live isBuy price qty stopPrice conditions orderId o isNew some =>
    subst isNew
    have arrived := orderly_preserved.arrive b _ _ _ _ _ _ fresh some trivial orderly
    refine (orderly_preserved.toCarried.above (parkedSince_carried _ _)).processTriggered ⟨arrived.submit,?_⟩ |>.2
    exact (parkedSince_carried _ _).submit _ _ [] arrived (.of_still rfl fun t stop o member => .inl (before t stop o member))
  | cancelled orderId t o | collapsed orderId sizeDelta newPrice t o | emptied orderId sizeDelta newPrice t o =>
    exact .of_still rfl fun t' stop x member => .inl (before t' stop x ((b.sublist_eraseFrom t t' o.orderId).subset member))
  | resized orderId sizeDelta newPrice t o resting =>
    refine .of_still rfl fun t' stop x member => .inl (before t' stop x ?_)
    have inSide : x ∈ (b.edit t o.orderId _).side t' := member
    rwa [side_edit,if_neg (notStop t t' resting stop)] at inSide
  | repriced orderId sizeDelta newPrice t o copy resting member isId moves isCopy left =>
    subst isCopy
    have moved := orderly_preserved.emit _ _ (.onReplace o.orderId sizeDelta.toInt (o.modify sizeDelta.toInt newPrice.toNat).price) rfl trivial
      (orderly_preserved.reprice b t o orderId sizeDelta newPrice resting member isId trivial moves.1 left trivial orderly)
    refine (orderly_preserved.toCarried.above (parkedSince_carried _ _)).processTriggered ⟨moved.submit,?_⟩ |>.2
    exact (parkedSince_carried _ _).submit _ _ [] moved (.of_still rfl fun t' stop x inSide =>
      .inl (before t' stop x ((b.sublist_eraseFrom t t' o.orderId).subset inSide)))
  | observed px =>
    refine (orderly_preserved.toCarried.above (parkedSince_carried b.market _)).processTriggered
      ⟨orderly_preserved.observe b px.toNat trivial orderly,?_⟩ |>.2
    exact .of_still rfl fun t stop o member => .inl (before t stop o member)

/-- An order that has not been submitted does not rest. -/
def Unsent (k : Market) (id : Nat) (b : Book) : Prop := ∃ S, b.market.submissions = k.submissions ++ S ∧
  (id ∉ submitted S → ∀ t, t = .bids ∨ t = .asks → ∀ o ∈ b.side t, o.orderId ≠ id)

theorem Unsent.fewer {k : Market} (unsent : Unsent k id b) (submissions : b'.market.submissions = b.market.submissions)
    (resting : ∀ t, t = .bids ∨ t = .asks → ∀ o ∈ b'.side t, ∃ x ∈ b.side t, x.orderId = o.orderId) : Unsent k id b' := by
  obtain ⟨S,isSent,none⟩ := unsent
  refine ⟨S,submissions.trans isSent,?_⟩
  intro notSent t rests o member same
  obtain ⟨x,old,isId⟩ := resting t rests o member
  exact none notSent t rests x old (isId.trans same)

theorem unsent_preserved (k : Market) (id : Nat) : Preserved Orderly Fresh fun b _ => Unsent k id b where
  submit b o hand orderly unsent := by
    obtain ⟨S,submissions,none⟩ := unsent
    refine ⟨S ++ [b.call o],by rw [submissions_submit,submissions,List.append_assoc],?_⟩
    intro notSent t rests x member same
    simp only [submitted,List.map_append,List.mem_append,not_or,List.map_singleton,List.mem_singleton] at notSent
    rcases orderly.terms_submit member with ⟨m,old,terms⟩ | ⟨_,rfl,_⟩
    · exact none notSent.1 t rests m old (terms.orderId.symm.trans same)
    · exact notSent.2 (same.symm.trans (pass_inc orderly.handSized).1.orderId)
  scan b _ unsent := unsent.fewer rfl fun t _ o member => ⟨o,(b.sublist_scanned t).subset member,rfl⟩
  released _ _ _ unsent := unsent
  emit _ _ _ _ _ unsent := unsent
  arrive _ _ _ _ _ _ _ _ _ _ unsent := unsent
  park b o _ _ _ unsent := unsent.fewer rfl fun t rests x member => by
    refine ⟨x,(mem_insertInto member).resolve_right ?_,rfl⟩
    rintro ⟨same,_⟩
    unfold SimpleOrder.stopSide at same
    rcases rests with rfl | rfl <;> split_ifs at same
  erase b t o _ _ unsent := unsent.fewer rfl fun t' _ x member => ⟨x,(b.sublist_eraseFrom t t' o.orderId).subset member,rfl⟩
  resize b t o _ sizeDelta _ _ _ _ _ _ _ _ unsent := unsent.fewer rfl fun t' _ x member => by
    rcases mem_edit member with old | ⟨rfl,m,old,_,rfl⟩
    · exact ⟨x,old,rfl⟩
    · exact ⟨m,old,(m.modify_fields _ _).1.symm⟩
  reprice b t o _ _ _ _ _ _ _ _ _ _ unsent :=
    unsent.fewer rfl fun t' _ x member => ⟨x,(b.sublist_eraseFrom t t' o.orderId).subset member,rfl⟩
  observe _ _ _ unsent := unsent

/-! ## Runs -/

/-- An order has the terms of the stop order that came in under its id. -/
def Named (cs : List Command) (x : SimpleOrder) : Prop :=
  ∀ c ∈ cs, ∀ o, c.stopOrder = some o → o.orderId = x.orderId → x.isBuy = o.isBuy ∧ x.stopPrice = o.stopPrice

theorem stopOrder_added (stop : c.stopOrder = some o) : c.added = some o.orderId := by
  obtain ⟨_,_,_,_,_,_,rfl,rfl,_⟩ := stopOrder_some stop
  rfl

end Book

namespace NeverReused
variable {cs before later : List Command} {c c' : Command} {id : Nat}

theorem pairwise (once : NeverReused cs) : cs.Pairwise fun c c' => ∀ id, c.added = some id → ∀ id', c'.added = some id' → id ≠ id' :=
  List.pairwise_filterMap.mp once

theorem not_again (once : NeverReused (before ++ c :: later)) (added : c.added = some id) (member : c' ∈ later) : c'.added ≠ some id := by
  obtain ⟨_,here,_⟩ := List.pairwise_append.mp once.pairwise
  exact fun again => (List.pairwise_cons.mp here).1 c' member id added id again rfl

theorem unique (once : NeverReused cs) (first : c ∈ cs) (second : c' ∈ cs) (added : c.added = some id) (again : c'.added = some id) :
    c = c' := by
  have symm : Std.Symm fun c c' : Command => ∀ id, c.added = some id → ∀ id', c'.added = some id' → id ≠ id' :=
    ⟨fun c c' apart id first id' second same => apart id' second id first same.symm⟩
  by_contra other
  exact once.pairwise.forall first second other id added id again rfl

/-- A run is cut short. -/
theorem cut (once : NeverReused cs) (later : List Command) (split : cs = before ++ later) : NeverReused before := by
  subst split
  exact once.left

theorem fresh (once : NeverReused (before ++ c :: later)) : (Book.after before).Fresh c := (admitted_append.mp once.admitted).2.1

end NeverReused

namespace Book
variable {b b' : Book} {o x : SimpleOrder} {t : TreeName} {hand : List SimpleOrder} {id px : Nat} {c c' : Command}
  {cs before later rest : List Command}

theorem after_append (cs cs' : List Command) : Book.after (cs ++ cs') = cs'.foldl step (.after cs) := List.foldl_append

theorem named_after (once : NeverReused cs) (split : cs = before ++ later) : ∀ x ∈ (Book.after before).side t, Named cs x := by
  have each : Preserved Orderly (fun b c => Fresh b c ∧ c ∈ cs) (Everywhere (Named cs)) := by
    refine everywhere_preserved ?_ ?_ ?_
    · intro x x' same named c member o stop isId
      obtain ⟨isBuy,stopPrice⟩ := named c member o stop (isId.trans same.orderId)
      exact ⟨same.isBuy.trans isBuy,same.stopPrice.trans stopPrice⟩
    · intro x sizeDelta newPrice named c member o stop isId
      obtain ⟨sameId,_,sameBuy,sameStop,_⟩ := x.modify_fields sizeDelta newPrice
      obtain ⟨isBuy,stopPrice⟩ := named c member o stop (isId.trans sameId)
      exact ⟨sameBuy.trans isBuy,sameStop.trans stopPrice⟩
    · intro b isBuy price qty stopPrice conditions orderId ok c member o stop isId
      obtain rfl := once.unique ok.2 member rfl ((stopOrder_added stop).trans (congrArg some isId))
      obtain ⟨_,_,_,_,_,_,same,rfl,_⟩ := stopOrder_some stop
      injection same with isBuy _ _ stopPrice
      subst isBuy stopPrice
      exact ⟨rfl,rfl⟩
  have admitted : Admitted (fun b c => Fresh b c ∧ c ∈ cs) step .start before := by
    subst split
    exact once.left.admitted.and (admitted_all (fun c member => List.mem_append_left _ member) _)
  exact fun x member => (((orderly_preserved.restrict fun _ _ => And.left).above each).run before .start
    ⟨orderly_start,fun t o member => by simp [start] at member,by simp⟩ admitted).2.1 t x member

theorem Named.reached_iff (named : Named cs x) (member : c ∈ cs) (stop : c.stopOrder = some o) (isId : x.orderId = o.orderId) :
    x.ReachedBy px ↔ o.ReachedBy px := by
  obtain ⟨isBuy,stopPrice⟩ := named c member o stop isId.symm
  unfold SimpleOrder.ReachedBy
  rw [isBuy,stopPrice]

theorem quiet_after (once : NeverReused cs) : QuietAt (Book.after cs).market.marketPrice (Book.after cs) :=
  quiet_run cs .start ⟨orderly_start,fun t _ => queued_nil t _⟩ ⟨by simp [start],by simp [start]⟩ once.admitted

/-- What a command of a run sends to matching. -/
theorem sent_after (once : NeverReused (before ++ c :: later)) :
    Sent (.after before) c ((Book.after before).batches c) (.after (before ++ [c])) := by
  rw [after_append]
  exact (orderly_after once.left).sent (quiet_after once.left) once.fresh

theorem marketPrice_after (cs : List Command) (once : NeverReused cs) :
    (Book.after cs).market.marketPrice = (Book.after cs).market.observed.getLast?.getD 0 := by
  induction cs using List.reverseRecOn with
  | nil => rfl
  | append_singleton cs c ih =>
    have went := (sent_after once).went
    rw [went.marketPrice,went.observed,ih once.front,List.getLast?_append]
    cases (pricesOf ((Book.after cs).batches c)).getLast? <;> rfl

/-! ## What has been submitted since -/

theorem submissions_after (later : List Command) (once : NeverReused (before ++ later)) :
    (Book.after before).market.submissions <+: (Book.after (before ++ later)).market.submissions := by
  induction later using List.reverseRecOn with
  | nil => simp
  | append_singleton later c ih =>
    rw [← List.append_assoc] at once ⊢
    obtain ⟨S,submissions,_⟩ := (sent_after once).went.submissions
    exact (ih once.left).trans ⟨S,submissions.symm⟩

theorem sentUntil_self (k : Market) : k.sentUntil k = [] := by simp [Market.sentUntil,submitted]

theorem sentUntil_eq {k k' : Market} {S : List Submission} (submissions : k'.submissions = k.submissions ++ S) :
    k.sentUntil k' = submitted S := by
  rw [Market.sentUntil,submissions,List.drop_left]

/-- One command more. -/
theorem mem_sentUntil (once : NeverReused (before ++ (later ++ [c]))) :
    id ∈ (Book.after before).market.sentUntil (Book.after (before ++ (later ++ [c]))).market ↔
      id ∈ (Book.after before).market.sentUntil (Book.after (before ++ later)).market ∨
        id ∈ ids (sentOf ((Book.after (before ++ later)).batches c)) := by
  rw [← List.append_assoc] at once ⊢
  obtain ⟨S,submissions,isSent⟩ := (sent_after once).went.submissions
  have earlier := (submissions_after later once.left).length_le
  unfold Market.sentUntil
  rw [submissions,List.drop_append_of_le_length earlier,← isSent]
  simp [submitted]

/-- What has been submitted stays so. -/
theorem sentUntil_mono (rest : List Command) (once : NeverReused (before ++ (later ++ rest)))
    (isSent : id ∈ (Book.after before).market.sentUntil (Book.after (before ++ later)).market) :
    id ∈ (Book.after before).market.sentUntil (Book.after (before ++ (later ++ rest))).market := by
  induction rest using List.reverseRecOn with
  | nil => rwa [List.append_nil]
  | append_singleton rest c ih =>
    rw [← List.append_assoc later] at once ⊢
    have once' : NeverReused (before ++ (later ++ rest)) := by
      rw [← List.append_assoc] at once
      exact once.left
    exact (mem_sentUntil once).mpr (.inl (ih once'))

theorem observedUntil_after (once : NeverReused (before ++ c :: later)) :
    (Book.after before).market.observedUntil (Book.after (before ++ [c])).market = pricesOf ((Book.after before).batches c) := by
  unfold Market.observedUntil
  rw [(sent_after once).went.observed,List.drop_left]

/-- An order that is submitted in a run for the first time after it came in, has been parked until then. -/
theorem parked_until (once : NeverReused (before ++ c :: (later ++ c' :: rest))) (stop : c.stopOrder = some o)
    (notYet : o.orderId ∉ (Book.after before).market.sentUntil (Book.after (before ++ c :: later)).market)
    (isSent : o.orderId ∈ ids (sentOf ((Book.after (before ++ c :: later)).batches c'))) :
    ∃ t, ∃ x ∈ (Book.after (before ++ c :: later)).side t, (t = .stopBids ∨ t = .stopAsks) ∧ x.orderId = o.orderId := by
  have once₁ : NeverReused ((before ++ c :: later) ++ c' :: rest) := by simpa using once
  rcases (sent_after once₁).known _ isSent with again | ⟨t,present⟩
  · exact absurd again (once.not_again (stopOrder_added stop) (by simp))
  · obtain ⟨x,inSide,isId⟩ := List.mem_map.mp present
    refine ⟨t,x,inSide,?_,isId⟩
    -- Since it has not been submitted, it does not rest.
    have absent : ∀ t, o.orderId ∉ ids ((Book.after before).side t) := by
      have fresh := once.fresh
      obtain ⟨_,_,_,_,_,_,rfl,rfl,_⟩ := stopOrder_some stop
      exact (orderly_after once.left).absent_of_fresh fresh
    have unsent : Unsent (Book.after before).market o.orderId (Book.after before) :=
      ⟨[],by simp,fun _ t _ x member same => absent t (same ▸ mem_ids member)⟩
    have admitted := (admitted_append.mp once₁.left.admitted).2
    have ran := (orderly_preserved.above (unsent_preserved _ _)).run (c :: later) (.after before) ⟨orderly_after once.left,unsent⟩ admitted
    rw [← after_append] at ran
    obtain ⟨_,S,submissions,none⟩ := ran
    rw [sentUntil_eq submissions] at notYet
    cases t with
    | bids => exact absurd isId (none notYet _ (.inl rfl) x inSide)
    | asks => exact absurd isId (none notYet _ (.inr rfl) x inSide)
    | stopBids => exact .inl rfl
    | stopAsks => exact .inr rfl

/-- The prices that are observed in a later command. -/
theorem observed_later (once : NeverReused (before ++ c :: (later ++ c' :: rest))) :
    (Book.after (before ++ c :: later)).market.observedUntil (Book.after (before ++ c :: (later ++ [c']))).market =
      pricesOf ((Book.after (before ++ c :: later)).batches c') := by
  have once' : NeverReused ((before ++ c :: later) ++ c' :: rest) := by simpa using once
  have observed := observedUntil_after once'
  rwa [List.append_assoc,List.cons_append] at observed

/-- What is sent of the stop order that comes in. -/
theorem sent_first (once : NeverReused (before ++ c :: later)) (stop : c.stopOrder = some o) :
    o.orderId ∈ ids (sentOf ((Book.after before).batches c)) ↔
      (Book.after before).LastReaches o ∨ o.isBuy = false ∧ (Book.after before).market.observed = [] :=
  (sent_added stop).trans (reached_market stop (marketPrice_after before once.left))

/-- A parked order is sent if and only if the last price of some batch reaches it. -/
theorem sent_parked (once : NeverReused (before ++ c :: (later ++ c' :: rest))) (stop : c.stopOrder = some o)
    (isStopSide : t = .stopBids ∨ t = .stopAsks) (inSide : x ∈ (Book.after (before ++ c :: later)).side t) (isId : x.orderId = o.orderId) :
    (o.orderId ∈ ids (sentOf ((Book.after (before ++ c :: later)).batches c')) ↔
      ∃ y ∈ (Book.after (before ++ c :: later)).batches c', y.Releases x) ∧ ∀ px, x.ReachedBy px ↔ o.ReachedBy px := by
  have once' : NeverReused ((before ++ c :: later) ++ c' :: rest) := by simpa using once
  constructor
  · rw [← isId]
    exact (sent_after once').released t x isStopSide inSide
  · intro px
    exact (named_after once' rfl x inSide).reached_iff (c := c) (by simp) stop isId

theorem mem_pricesOf {bs : List Batch} {y : Batch} (member : y ∈ bs) (last : px ∈ y.prices.getLast?) : px ∈ pricesOf bs :=
  List.mem_flatMap.mpr ⟨y,member,List.mem_of_getLast? last⟩

/-- A stop order that is sent had its trigger reached. -/
theorem reached_of_sent (once : NeverReused (before ++ c :: (later ++ rest))) (stop : c.stopOrder = some o)
    (priced : o.isBuy = false → (Book.after before).market.observed ≠ [])
    (isSent : o.orderId ∈ (Book.after before).market.sentUntil (Book.after (before ++ c :: later)).market) :
    (Book.after before).LastReaches o ∨ ∃ mid c' mid', later = mid ++ c' :: mid' ∧
      (Book.after (before ++ c :: mid)).Reaches (Book.after (before ++ c :: (mid ++ [c']))) o := by
  rw [after_append] at isSent
  obtain ⟨first,c',later',split,notYet,since⟩ := arisen
    (P := fun b : Book => o.orderId ∈ (Book.after before).market.sentUntil b.market)
    (by rw [sentUntil_self]; exact List.not_mem_nil) (c :: later) isSent
  have now := since [] later' rfl
  simp only [← after_append] at notYet now
  have once' : NeverReused (before ++ (first ++ [c'])) := by
    rw [← List.cons_append,split] at once
    exact once.cut (later' ++ rest) (by simp)
  have here := ((mem_sentUntil once').mp now).resolve_left notYet
  cases first with
  | nil =>
    -- It is sent when it comes in.
    obtain ⟨rfl,rfl⟩ := List.cons_eq_cons.mp split
    rw [List.append_nil] at here
    refine .inl (((sent_first once stop).mp here).resolve_right ?_)
    exact fun unpriced => priced unpriced.1 unpriced.2
  | cons c₁ mid =>
    obtain ⟨rfl,rfl⟩ := List.cons_eq_cons.mp split
    have once₁ : NeverReused (before ++ c :: (mid ++ c' :: (later' ++ rest))) := by simpa using once
    obtain ⟨t,x,inSide,isStopSide,isId⟩ := parked_until once₁ stop notYet here
    obtain ⟨released,sameTrigger⟩ := sent_parked once₁ stop isStopSide inSide isId
    obtain ⟨y,member,px,last,reached⟩ := released.mp here
    refine .inr ⟨mid,c',later',rfl,⟨t,isStopSide,isId ▸ mem_ids inSide⟩,px,?_,(sameTrigger px).mp reached⟩
    rw [observed_later once₁]
    exact mem_pricesOf member last

/-- A stop order of which the trigger is reached is sent, if no command misses a stop. -/
theorem sent_of_reached (once : NeverReused (before ++ c :: (later ++ rest))) (stop : c.stopOrder = some o)
    (none : ∀ mid c' mid', later = mid ++ c' :: mid' → (Book.after (before ++ c :: mid)).MissesNone c')
    (reached : (Book.after before).LastReaches o ∨ ∃ mid c' mid', later = mid ++ c' :: mid' ∧
      (Book.after (before ++ c :: mid)).Reaches (Book.after (before ++ c :: (mid ++ [c']))) o) :
    o.orderId ∈ (Book.after before).market.sentUntil (Book.after (before ++ c :: later)).market := by
  have once₁ : NeverReused (before ++ c :: later) := once.cut rest (by simp)
  rcases reached with last | ⟨mid,c',mid',rfl,⟨t,isStopSide,present⟩,px,observed,reached⟩
  · have here := (sent_first once stop).mpr (.inl last)
    have once₂ : NeverReused (before ++ ([] ++ [c])) := once₁.cut later (by simp)
    have now := (mem_sentUntil once₂).mpr (.inr (by rwa [List.append_nil]))
    exact sentUntil_mono later once₁ now
  · obtain ⟨x,inSide,isId⟩ := List.mem_map.mp present
    have once₂ : NeverReused (before ++ c :: (mid ++ c' :: mid')) := once₁
    obtain ⟨released,sameTrigger⟩ := sent_parked once₂ stop isStopSide inSide isId
    rw [observed_later once₂] at observed
    have here := released.mpr ((none mid c' mid' rfl).released x (mem_parked.mpr ⟨t,isStopSide,inSide⟩) px observed ((sameTrigger px).mpr reached))
    have once₃ : NeverReused (before ++ ((c :: mid) ++ [c'])) := once₁.cut mid' (by simp)
    have now := (mem_sentUntil once₃).mpr (.inr here)
    have whole := sentUntil_mono mid' (by simpa using once₁) now
    simpa using whole

/-! ## Where a parked order comes from -/

/-- An order that is parked after a command was parked before it or has come in with it, and is not among those sent. -/
theorem parked_step (once : NeverReused (before ++ c :: later)) (parked : (Book.after (before ++ [c])).IsParked id) :
    ((Book.after before).IsParked id ∨ ∃ o, c.stopOrder = some o ∧ o.orderId = id) ∧
      id ∉ ids (sentOf ((Book.after before).batches c)) := by
  obtain ⟨S,submissions,all⟩ := (orderly_after once.left).parkedSince_step once.fresh
  obtain ⟨S',submissions',isSent⟩ := (sent_after once).went.submissions
  rw [after_append] at parked submissions'
  obtain rfl := List.append_cancel_left (submissions.symm.trans submissions')
  obtain ⟨t,stop,present⟩ := parked
  obtain ⟨x,inSide,rfl⟩ := List.mem_map.mp present
  rw [← isSent]
  exact all t stop x inSide

/-- A parked order has come in with one of the commands, and has not been sent since. -/
theorem parked_origin (once : NeverReused cs) (parked : (Book.after cs).IsParked id) :
    ∃ before c later o, cs = before ++ c :: later ∧ c.stopOrder = some o ∧ o.orderId = id ∧
      id ∉ (Book.after before).market.sentUntil (Book.after cs).market := by
  have none : ¬ Book.start.IsParked id := by
    rintro ⟨t,_,present⟩
    simp [start] at present
  obtain ⟨before,c,later,rfl,notYet,since⟩ := arisen (P := fun b : Book => b.IsParked id) none cs parked
  have parkedSince : ∀ mid rest, later = mid ++ rest → (Book.after (before ++ c :: mid)).IsParked id := since
  obtain ⟨old | ⟨o,stop,isId⟩,_⟩ := parked_step once (parkedSince [] later rfl)
  · exact absurd old notYet
  · refine ⟨before,c,later,o,rfl,stop,isId,?_⟩
    have notSent : ∀ mid rest, c :: later = mid ++ rest → id ∉ (Book.after before).market.sentUntil (Book.after (before ++ mid)).market := by
      intro mid
      induction mid using List.reverseRecOn with
      | nil =>
        intro _ _
        rw [List.append_nil,sentUntil_self]
        exact List.not_mem_nil
      | append_singleton mid c' ih =>
        intro rest split
        rw [split] at once
        have once' : NeverReused (before ++ (mid ++ [c'])) := once.cut rest (by simp)
        have once₁ : NeverReused ((before ++ mid) ++ [c']) := by rwa [List.append_assoc]
        rw [mem_sentUntil once',not_or]
        refine ⟨ih (c' :: rest) (by simpa using split),?_⟩
        have parked' : (Book.after ((before ++ mid) ++ [c'])).IsParked id := by
          cases mid with
          | nil =>
            obtain ⟨rfl,rfl⟩ := List.cons_eq_cons.mp split
            simpa using parkedSince [] later rfl
          | cons c₁ mid =>
            obtain ⟨rfl,rfl⟩ := List.cons_eq_cons.mp split
            simpa using parkedSince (mid ++ [c']) rest rfl
        exact (parked_step once₁ parked').2
    exact notSent (c :: later) [] (by simp)

/-- The books of a run have been read off. -/
def ReadsRun (view : List Command → Option Book) (cs : List Command) : Prop := ∀ before later, cs = before ++ later →
  view before = some (.after before)

theorem ReadsRun.split {view : List Command → Option Book} (reads : ReadsRun view cs) (seen : view before = some b) (later : List Command)
    (split : cs = before ++ later) : b = .after before :=
  Option.some.inj (seen.symm.trans (reads before later split))

theorem missesNone_of_stopsGoLive {view : List Command → Option Book} (reads : ReadsRun view (before ++ c :: later))
    (once : NeverReused (before ++ c :: later)) (live : StopsGoLive view (before ++ c :: later)) : (Book.after before).MissesNone c := by
  constructor
  · intro o stop isSell unpriced
    have once₁ : NeverReused (before ++ ([] ++ [c])) := once.cut later (by simp)
    have here := (sent_first once stop).mpr (.inr ⟨isSell,unpriced⟩)
    have isSent := (mem_sentUntil once₁).mpr (.inr (by rwa [List.append_nil]))
    rcases (live before c [] later o rfl stop _ _ (reads before _ rfl) (reads (before ++ [c]) later (by simp))).mp isSent with
      ⟨px,last,_⟩ | ⟨mid,c',mid',_,_,split,_⟩
    · simp [unpriced] at last
    · simp at split
  · intro x parked px observed reached
    obtain ⟨t,isStopSide,inSide⟩ := mem_parked.mp parked
    obtain ⟨first,c₀,mid,o,rfl,stop,isId,notSent⟩ := parked_origin once.left ⟨t,isStopSide,mem_ids inSide⟩
    have once₁ : NeverReused (first ++ c₀ :: (mid ++ c :: later)) := by simpa using once
    obtain ⟨released,sameTrigger⟩ := sent_parked once₁ stop isStopSide inSide isId.symm
    -- The property for the run up to this command, in which the order is parked and the price observed.
    have reaches : (Book.after (first ++ c₀ :: mid)).Reaches (Book.after (first ++ c₀ :: (mid ++ [c]))) o := by
      refine ⟨⟨t,isStopSide,isId ▸ mem_ids inSide⟩,px,?_,(sameTrigger px).mp reached⟩
      rwa [observed_later once₁]
    have whole := (live first c₀ (mid ++ [c]) later o (by simp) stop _ _
      (reads first (c₀ :: (mid ++ c :: later)) (by simp)) (reads _ later (by simp))).mpr
      (.inr ⟨mid,c,[],_,_,rfl,reads _ (c :: later) (by simp),reads _ later (by simp),reaches⟩)
    have once₂ : NeverReused (first ++ ((c₀ :: mid) ++ [c])) := once₁.cut later (by simp)
    rw [← isId] at notSent
    exact released.mp (((mem_sentUntil once₂).mp whole).resolve_left notSent)

/-- In a run every stop goes live when its trigger is reached if and only if no command misses one. -/
theorem stopsGoLive_iff {view : List Command → Option Book} (reads : ReadsRun view cs) (once : NeverReused cs) :
    StopsGoLive view cs ↔ ∀ before c later, cs = before ++ c :: later → (Book.after before).MissesNone c := by
  constructor
  · rintro live before c later rfl
    exact missesNone_of_stopsGoLive reads once live
  · rintro none before c later rest o rfl stop b b' seen seen'
    obtain rfl := reads.split seen _ rfl
    obtain rfl := reads.split seen' rest (by simp)
    have priced : o.isBuy = false → (Book.after before).market.observed ≠ [] := (none before c _ rfl).priced o stop
    constructor
    · intro isSent
      apply (reached_of_sent once stop priced isSent).imp_right
      rintro ⟨mid,c',mid',rfl,reaches⟩
      exact ⟨mid,c',mid',_,_,rfl,reads _ (c' :: mid' ++ rest) (by simp),reads _ (mid' ++ rest) (by simp),reaches⟩
    · intro reached
      refine sent_of_reached once stop (fun mid c' mid' split => ?_) (reached.imp_right ?_)
      · exact none _ c' (mid' ++ rest) (by simp [split])
      · rintro ⟨mid,c',mid',b₁,b₂,rfl,seen₁,seen₂,reaches⟩
        obtain rfl := reads.split seen₁ (c' :: mid' ++ rest) (by simp)
        obtain rfl := reads.split seen₂ (mid' ++ rest) (by simp)
        exact ⟨mid,c',mid',rfl,reaches⟩

/-- The condition is enough. -/
theorem stopsGoLive_of_settles {view : List Command → Option Book} (reads : ReadsRun view cs) (once : NeverReused cs)
    (settles : Admitted Settles step .start cs) : StopsGoLive view cs := by
  rw [stopsGoLive_iff reads once]
  rintro before c later rfl
  have here := admitted_iff.mp settles before c later rfl
  exact here.missesNone (orderly_after once.left) (quiet_after once.left) once.fresh

/-- And every command meets what is needed. -/
theorem needs_of_stopsGoLive {view : List Command → Option Book} (reads : ReadsRun view cs) (once : NeverReused cs)
    (live : StopsGoLive view cs) : Admitted Needs step .start cs := by
  rw [admitted_iff]
  rintro before c later rfl
  have none := missesNone_of_stopsGoLive reads once live
  exact ⟨none.priced,none.settles (orderly_after once.left) once.fresh⟩

end Book

namespace MatchingBook
variable {N : Capacity} {h : Pools N} {cs : List Command} {m : MatchingBook N} {b : Book}

/-- The condition on a command and on the contents of the book that it finds. -/
def Settles (m : MatchingBook N) (c : Command) : Prop := ∀ b, m.contents = some b → b.Settles c

def Needs (m : MatchingBook N) (c : Command) : Prop := ∀ b, m.contents = some b → b.Needs c

theorem reads_run (h : Pools N) (once : NeverReused cs) : Book.ReadsRun (contentsAfter h) cs := by
  rintro before later rfl
  exact contentsAfter_eq h once.left

end MatchingBook

end BaboEngine
