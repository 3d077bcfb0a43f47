import BaboEngine.BookRefinement
import BaboEngine.Queues
import BaboEngine.Submissions

/-!
# The stop queues

On return from a command no parked order is due. A round of `process_triggered` therefore
finds the orders of one side only that the market has come to, and takes a prefix of that
side; this goes on until no order is due, at the latest when none is parked.
-/

namespace BaboEngine

/-- Behind an order that is not due there is none that is. -/
theorem mem_while {due : SimpleOrder → Bool} {os : List SimpleOrder} (first : os.Pairwise fun x y => due y → due x) {o : SimpleOrder} :
    (o ∈ os.takeWhile due ↔ o ∈ os ∧ due o) ∧ (o ∈ os.dropWhile due ↔ o ∈ os ∧ ¬ due o) := by
  induction os with
  | nil => simp
  | cons x os ih =>
    obtain ⟨before,rest⟩ := List.pairwise_cons.mp first
    by_cases isDue : due x
    · rw [List.takeWhile_cons_of_pos isDue,List.dropWhile_cons_of_pos isDue,List.mem_cons,List.mem_cons]
      have := ih rest
      constructor
      · rw [this.1]
        constructor
        · rintro (rfl | ⟨member,yes⟩)
          · exact ⟨.inl rfl,isDue⟩
          · exact ⟨.inr member,yes⟩
        · rintro ⟨rfl | member,yes⟩
          · exact .inl rfl
          · exact .inr ⟨member,yes⟩
      · rw [this.2]
        constructor
        · rintro ⟨member,no⟩
          exact ⟨.inr member,no⟩
        · rintro ⟨rfl | member,no⟩
          · exact absurd isDue no
          · exact ⟨member,no⟩
    · rw [List.takeWhile_cons_of_neg isDue,List.dropWhile_cons_of_neg isDue]
      have none : ∀ y ∈ x :: os, ¬ due y := by
        intro y member yes
        rcases List.mem_cons.mp member with rfl | inOs
        · exact isDue yes
        · exact isDue (before y inOs yes)
      constructor
      · constructor
        · intro member
          simp at member
        · rintro ⟨member,yes⟩
          exact absurd yes (none o member)
      · exact ⟨fun member => ⟨member,none o member⟩,And.left⟩

namespace Book
variable {b : Book} {o : SimpleOrder} {t : TreeName} {hand : List SimpleOrder} {p : Nat} {c : Command}

/-! ## What a scan finds -/

theorem Orderly.buysFirst (orderly : Orderly b hand) (p : Nat) :
    (b.side .stopBids).Pairwise fun x y => decide (¬ y.stopPrice > p) = true → decide (¬ x.stopPrice > p) = true := by
  apply (orderly.sorted .stopBids).imp
  intro x y notAhead isDue
  have order : ¬ y.stopPrice < x.stopPrice := notAhead
  simp only [decide_eq_true_eq] at isDue ⊢
  omega

theorem Orderly.sellsFirst (orderly : Orderly b hand) (p : Nat) :
    (b.side .stopAsks).Pairwise fun x y => decide (¬ y.stopPrice < p) = true → decide (¬ x.stopPrice < p) = true := by
  apply (orderly.sorted .stopAsks).imp
  intro x y notAhead isDue
  have order : ¬ y.stopPrice > x.stopPrice := notAhead
  simp only [decide_eq_true_eq] at isDue ⊢
  omega

/-- The released buys are those that the market price has reached. -/
theorem Orderly.mem_dueBuys (orderly : Orderly b hand) :
    (o ∈ b.dueBuys ↔ o ∈ b.side .stopBids ∧ b.market.marketPrice ≥ o.stopPrice) ∧
      (o ∈ b.scanned.side .stopBids ↔ o ∈ b.side .stopBids ∧ b.market.marketPrice < o.stopPrice) := by
  obtain ⟨released,left⟩ := mem_while (orderly.buysFirst b.market.marketPrice) (o := o)
  refine ⟨released.trans (and_congr_right fun _ => ?_),left.trans (and_congr_right fun _ => ?_)⟩ <;>
    simp only [decide_eq_true_eq] <;> omega

/-- The released sells are those that the market price has reached. -/
theorem Orderly.mem_dueSells (orderly : Orderly b hand) :
    (o ∈ b.dueSells ↔ o ∈ b.side .stopAsks ∧ b.market.marketPrice ≤ o.stopPrice) ∧
      (o ∈ b.scanned.side .stopAsks ↔ o ∈ b.side .stopAsks ∧ o.stopPrice < b.market.marketPrice) := by
  obtain ⟨released,left⟩ := mem_while (orderly.sellsFirst b.market.marketPrice) (o := o)
  refine ⟨released.trans (and_congr_right fun _ => ?_),left.trans (and_congr_right fun _ => ?_)⟩ <;>
    simp only [decide_eq_true_eq] <;> omega

/-! ## Quiet books -/

/-- At a market price of `p` no parked order is due. -/
structure QuietAt (p : Nat) (b : Book) : Prop where
  buys : ∀ o ∈ b.side .stopBids, p < o.stopPrice
  sells : ∀ o ∈ b.side .stopAsks, o.stopPrice < p

theorem QuietAt.sublist {b' : Book} (quiet : QuietAt p b) (sublist : ∀ t, t = .stopBids ∨ t = .stopAsks → (b'.side t).Sublist (b.side t)) :
    QuietAt p b' :=
  ⟨fun o member => quiet.buys o ((sublist _ (.inl rfl)).subset member),
    fun o member => quiet.sells o ((sublist _ (.inr rfl)).subset member)⟩

theorem Orderly.quiet_scanned (orderly : Orderly b []) : QuietAt b.market.marketPrice b.scanned :=
  ⟨fun _ member => (orderly.mem_dueBuys.2.mp member).2,fun _ member => (orderly.mem_dueSells.2.mp member).2⟩

/-- A round leaves the parked orders that were not due at its beginning. -/
theorem Orderly.quiet_fire (orderly : Orderly b []) : QuietAt b.market.marketPrice b.fire :=
  orderly.quiet_scanned.sublist fun _ stop => by
    rw [orderly.fire_stops stop]

theorem Orderly.quiet_submit (orderly : Orderly b (o :: hand)) (quiet : QuietAt p b) : QuietAt p (b.submit o) :=
  quiet.sublist fun _ stop => by
    rw [submit_stops orderly.handSized stop]

/-- The market has moved one way only, so that on one side none is due. -/
theorem QuietAt.one_side (quiet : QuietAt p b) (orderly : Orderly b []) : b.dueBuys = [] ∨ b.dueSells = [] := by
  cases Nat.le_total b.market.marketPrice p with
  | inl le =>
    left
    rw [List.eq_nil_iff_forall_not_mem]
    intro o member
    obtain ⟨parked,reached⟩ := orderly.mem_dueBuys.1.mp member
    have := quiet.buys o parked
    omega
  | inr ge =>
    right
    rw [List.eq_nil_iff_forall_not_mem]
    intro o member
    obtain ⟨parked,reached⟩ := orderly.mem_dueSells.1.mp member
    have := quiet.sells o parked
    omega

/-! ## The rounds of one command -/

/-- What every round keeps, holds at the end of them, where moreover no parked order is due. -/
theorem processTriggeredLoop_rule {Inv : Book → Prop} (round : ∀ b, Orderly b [] → (∃ p, QuietAt p b) →
      b.dueBuys ++ b.dueSells ≠ [] → Inv b → Inv b.fire) (rounds : Nat) : ∀ b, Orderly b [] → (∃ p, QuietAt p b) → Inv b →
    b.parkedCount < rounds → QuietAt (b.processTriggeredLoop rounds).market.marketPrice (b.processTriggeredLoop rounds) ∧
      Inv (b.processTriggeredLoop rounds) := by
  induction rounds with
  | zero => intro _ _ _ _ enough; omega
  | succ rounds ih =>
    intro b orderly quiet inv enough
    unfold processTriggeredLoop
    split_ifs with none
    · have none' : b.dueBuys ++ b.dueSells = [] := List.isEmpty_iff.mp none
      have here := orderly.quiet_scanned
      rw [scanned_of_none none'] at here
      exact ⟨here,inv⟩
    · have some : b.dueBuys ++ b.dueSells ≠ [] := fun empty => none (List.isEmpty_iff.mpr empty)
      have fewer := orderly.parkedCount_fire
      have released := List.length_pos_iff.mpr some
      exact ih b.fire (orderly_preserved.fire orderly) ⟨_,orderly.quiet_fire⟩ (round b orderly quiet some inv) (by omega)

theorem processTriggered_rule (Inv : Book → Prop) (round : ∀ b, Orderly b [] → (∃ p, QuietAt p b) →
      b.dueBuys ++ b.dueSells ≠ [] → Inv b → Inv b.fire) (orderly : Orderly b []) (quiet : QuietAt p b) (inv : Inv b) :
    QuietAt b.processTriggered.market.marketPrice b.processTriggered ∧ Inv b.processTriggered :=
  processTriggeredLoop_rule round _ b orderly ⟨p,quiet⟩ inv (Nat.lt_succ_self _)

/-- A round of released stops: some orders are released, all from one side, from its front, and
    they are those that the market price has reached; each side is in order of stop price, nearest the
    market price `old` first, and of arrival. -/
structure InOrder (arrivals : List Nat) (r : Round) : Prop where
  some : r.fired ≠ []
  queues : Queued .stopBids arrivals r.buys ∧ Queued .stopAsks arrivals r.sells
  old : ∃ old, (∀ o ∈ r.buys, old < o.stopPrice) ∧ ∀ o ∈ r.sells, o.stopPrice < old
  oneSide : r.buys = r.fired ++ r.buysLeft ∧ r.sells = r.sellsLeft ∧ (∀ o ∈ r.fired, o.stopPrice ≤ r.marketPrice) ∨
    r.sells = r.fired ++ r.sellsLeft ∧ r.buys = r.buysLeft ∧ ∀ o ∈ r.fired, r.marketPrice ≤ o.stopPrice
  left : (∀ o ∈ r.buysLeft, r.marketPrice < o.stopPrice) ∧ ∀ o ∈ r.sellsLeft, o.stopPrice < r.marketPrice

/-- The rounds since the journal `k`, when `n` orders were parked. -/
structure RoundsSince (k : Market) (n : Nat) (b : Book) : Prop where
  parked : b.market.parked = k.parked
  queued : ∀ t, t = .stopBids ∨ t = .stopAsks → Queued t k.parked (b.side t)
  rounds : ∃ R, b.market.rounds = k.rounds ++ R ∧ R.length + b.parkedCount ≤ n ∧ ∀ r ∈ R, InOrder k.parked r

theorem submitAll_journal (fired : List SimpleOrder) : ∀ b : Book, (b.submitAll fired).market.parked = b.market.parked ∧
    (b.submitAll fired).market.rounds = b.market.rounds := by
  induction fired with
  | nil => exact fun b => ⟨rfl,rfl⟩
  | cons o fired ih =>
    intro b
    obtain ⟨parked,rounds⟩ := ih (b.submit o)
    rw [submit_market] at parked rounds
    exact ⟨parked.trans (Market.parked_tradeAll ..),rounds.trans (Market.rounds_tradeAll ..)⟩

/-- The record of a round. -/
def roundOf (b : Book) : Round :=
  ⟨b.market.marketPrice,b.side .stopBids,b.side .stopAsks,b.dueBuys ++ b.dueSells,b.fire.side .stopBids,b.fire.side .stopAsks⟩

theorem fire_journal (b : Book) : b.fire.market.parked = b.market.parked ∧ b.fire.market.rounds = b.market.rounds ++ [b.roundOf] := by
  obtain ⟨parked,rounds⟩ := submitAll_journal (b.dueBuys ++ b.dueSells) b.scanned
  exact ⟨parked,congrArg (· ++ [b.roundOf]) rounds⟩

theorem Orderly.roundOf_inOrder {arrivals : List Nat} (orderly : Orderly b []) (quiet : QuietAt p b) (some : b.dueBuys ++ b.dueSells ≠ [])
    (queued : ∀ t, t = .stopBids ∨ t = .stopAsks → Queued t arrivals (b.side t)) : InOrder arrivals b.roundOf := by
  obtain ⟨stopBids,stopAsks,_,_⟩ := side_scanned b
  have buysLeft := orderly.fire_stops (.inl rfl)
  have sellsLeft := orderly.fire_stops (.inr rfl)
  have buys : b.side .stopBids = b.dueBuys ++ b.fire.side .stopBids := by
    rw [buysLeft,stopBids]
    exact List.takeWhile_append_dropWhile.symm
  have sells : b.side .stopAsks = b.dueSells ++ b.fire.side .stopAsks := by
    rw [sellsLeft,stopAsks]
    exact List.takeWhile_append_dropWhile.symm
  refine ⟨some,⟨queued _ (.inl rfl),queued _ (.inr rfl)⟩,⟨p,quiet.buys,quiet.sells⟩,?_,orderly.quiet_fire.buys,orderly.quiet_fire.sells⟩
  show b.side .stopBids = (b.dueBuys ++ b.dueSells) ++ b.fire.side .stopBids ∧ b.side .stopAsks = b.fire.side .stopAsks ∧
      (∀ o ∈ b.dueBuys ++ b.dueSells, o.stopPrice ≤ b.market.marketPrice) ∨
    b.side .stopAsks = (b.dueBuys ++ b.dueSells) ++ b.fire.side .stopAsks ∧ b.side .stopBids = b.fire.side .stopBids ∧
      ∀ o ∈ b.dueBuys ++ b.dueSells, b.market.marketPrice ≤ o.stopPrice
  cases quiet.one_side orderly with
  | inl none =>
    right
    rw [none,List.nil_append] at buys ⊢
    exact ⟨sells,buys,fun o member => (orderly.mem_dueSells.1.mp member).2⟩
  | inr none =>
    left
    rw [none,List.nil_append] at sells
    rw [none,List.append_nil]
    exact ⟨buys,sells,fun o member => (orderly.mem_dueBuys.1.mp member).2⟩

theorem RoundsSince.fire {k : Market} {n : Nat} (since : RoundsSince k n b) (orderly : Orderly b []) (quiet : ∃ p, QuietAt p b)
    (some : b.dueBuys ++ b.dueSells ≠ []) : RoundsSince k n b.fire := by
  obtain ⟨p,quiet⟩ := quiet
  obtain ⟨parked,rounds⟩ := b.fire_journal
  obtain ⟨R,roundsAre,enough,all⟩ := since.rounds
  refine ⟨parked.trans since.parked,?_,R ++ [b.roundOf],?_,?_,?_⟩
  · intro t stop
    rw [orderly.fire_stops stop]
    exact (since.queued t stop).sublist ((b.sublist_scanned t).map _)
  · rw [rounds,roundsAre,List.append_assoc]
  · have fewer := orderly.parkedCount_fire
    have released := List.length_pos_iff.mpr some
    rw [List.length_append,List.length_singleton]
    omega
  · intro r member
    cases List.mem_append.mp member with
    | inl old => exact all r old
    | inr new =>
      obtain rfl := List.mem_singleton.mp new
      exact orderly.roundOf_inOrder quiet some since.queued

/-! ## The queues over a run -/

/-- The parked orders are in order of stop price and of arrival. -/
theorem parked_queued : Preserved Orderly Fresh fun b _ =>
    ∀ t, t = .stopBids ∨ t = .stopAsks → Queued t b.market.parked (b.side t) where
  submit b o hand orderly all t stop := by
    rw [submit_stops orderly.handSized stop,submit_market]
    show Queued t (b.market.tradeAll _).parked (b.side t)
    rw [Market.parked_tradeAll]
    exact all t stop
  scan b _ all t stop := (all t stop).sublist ((b.sublist_scanned t).map _)
  released _ _ _ all := all
  emit _ _ _ _ _ all := all
  arrive _ _ _ _ _ _ _ _ _ _ all := all
  park b o _ _ orderly all t stop := by
    show Queued t (b.market.parked ++ [o.orderId]) ((b.insertInto o.stopSide o).side t)
    rw [side_insertInto]
    split_ifs with same
    · subst same
      exact (all _ stop).insert orderly.absent (orderly.sorted _)
    · exact (all t stop).append orderly.absent
  erase b t' o _ _ all t stop := (all t stop).sublist ((b.sublist_eraseFrom t' t o.orderId).map _)
  resize b t' o _ _ _ resting _ _ _ _ _ _ all t stop := by
    have other : t ≠ t' := by rcases stop with rfl | rfl <;> rcases resting with rfl | rfl <;> decide
    rw [side_edit,if_neg other]
    exact all t stop
  reprice b t' o _ _ _ _ _ _ _ _ _ _ all t stop := (all t stop).sublist ((b.sublist_eraseFrom t' t o.orderId).map _)
  observe _ _ _ all := all

/-- The submissions since the journal `k`, the orders in hand, and the parked orders have different ids. -/
structure OnceSince (k : Market) (b : Book) (hand : List SimpleOrder) : Prop where
  submissions : ∃ S, b.market.submissions = k.submissions ++ S ∧ ∀ id, (S.map (·.order.orderId)).count id + (ids hand).count id +
    (ids (b.side .stopBids)).count id + (ids (b.side .stopAsks)).count id ≤ 1

theorem once_carried (k : Market) : Carried Orderly (OnceSince k) where
  submit b o hand orderly once := by
    obtain ⟨S,submissionsAre,one⟩ := once.submissions
    refine ⟨S ++ [b.call o],?_,?_⟩
    · rw [submissions_submit,submissionsAre,List.append_assoc]
    · intro id
      have before := one id
      rw [ids_cons,List.count_cons] at before
      rw [submit_stops orderly.handSized (.inl rfl),submit_stops orderly.handSized (.inr rfl),List.map_append,List.count_append,
        List.map_singleton,call_order,List.count_singleton]
      omega
  scan b _ once := by
    obtain ⟨S,submissionsAre,one⟩ := once.submissions
    obtain ⟨stopBids,stopAsks,_,_⟩ := side_scanned b
    refine ⟨S,submissionsAre,?_⟩
    intro id
    have buys := count_while (fun o => ¬ o.stopPrice > b.market.marketPrice) (b.side .stopBids) id
    have sells := count_while (fun o => ¬ o.stopPrice < b.market.marketPrice) (b.side .stopAsks) id
    have before := one id
    rw [ids_nil,List.count_nil] at before
    rw [stopBids,stopAsks,ids_append,List.count_append,dueBuys,dueSells]
    omega
  released _ _ _ once := ⟨once.submissions⟩

/-! ## One command -/

/-- What a command does to the stop queues. -/
structure Handled (b b' : Book) : Prop where
  quiet : QuietAt b'.market.marketPrice b'
  rounds : ∃ R, b'.market.rounds = b.market.rounds ++ R ∧ R.length ≤ b.parkedCount ∧ (R ≠ [] → b'.market.parked = b.market.parked) ∧
    ∀ r ∈ R, InOrder b.market.parked r
  once : ∃ S, b'.market.submissions = b.market.submissions ++ S ∧ (submitted S).Nodup

/-- Nothing has been done to the stop queues, the market price and the journal but for events. -/
structure Prelude (b b₁ : Book) : Prop where
  stops : ∀ t, t = .stopBids ∨ t = .stopAsks → b₁.side t = b.side t
  marketPrice : b₁.market.marketPrice = b.market.marketPrice
  parked : b₁.market.parked = b.market.parked
  rounds : b₁.market.rounds = b.market.rounds
  submissions : b₁.market.submissions = b.market.submissions

theorem Prelude.parkedCount {b₁ : Book} (prelude : Prelude b b₁) : b₁.parkedCount = b.parkedCount := by
  unfold Book.parkedCount
  rw [prelude.stops _ (.inl rfl),prelude.stops _ (.inr rfl)]

theorem handled_rounds {b₁ : Book} (quiet : ∃ p, QuietAt p b₁) (orderly : Orderly b₁ []) (once : OnceSince b.market b₁ [])
    (since : RoundsSince b.market b.parkedCount b₁) : Handled b b₁.processTriggered := by
  obtain ⟨p,quiet⟩ := quiet
  obtain ⟨quiet',since'⟩ := processTriggered_rule (RoundsSince b.market b.parkedCount)
    (fun _ orderly quiet some since => since.fire orderly quiet some) orderly quiet since
  have once' := (orderly_preserved.toCarried.above (once_carried b.market)).processTriggered ⟨orderly,once⟩
  obtain ⟨S,submissionsAre,one⟩ := once'.2.submissions
  obtain ⟨R,roundsAre,enough,all⟩ := since'.rounds
  refine ⟨quiet',⟨R,roundsAre,by omega,fun _ => since'.parked,all⟩,S,submissionsAre,?_⟩
  rw [List.nodup_iff_count_le_one]
  intro id
  have := one id
  unfold submitted
  omega

/-- An order goes live. -/
theorem Prelude.handled {b₁ : Book} (prelude : Prelude b b₁) (orderly : Orderly b₁ [o]) (quiet : QuietAt b.market.marketPrice b)
    (queued : ∀ t, t = .stopBids ∨ t = .stopAsks → Queued t b.market.parked (b.side t)) :
    Handled b (b₁.submit o).processTriggered := by
  have quiet₁ : QuietAt b.market.marketPrice b₁ := quiet.sublist fun t stop => by rw [prelude.stops t stop]
  have once₁ : OnceSince b.market b₁ [o] := by
    refine ⟨[],by rw [prelude.submissions,List.append_nil],fun id => ?_⟩
    have := orderly.occurs_le id
    unfold occurs at this
    rw [List.map_nil,List.count_nil]
    omega
  refine handled_rounds ⟨_,orderly.quiet_submit quiet₁⟩ orderly.submit ((once_carried b.market).submit b₁ o [] orderly once₁) ?_
  have stops : ∀ t, t = .stopBids ∨ t = .stopAsks → (b₁.submit o).side t = b.side t :=
    fun t stop => (submit_stops orderly.handSized stop).trans (prelude.stops t stop)
  refine ⟨?_,fun t stop => by rw [stops t stop]; exact queued t stop,[],?_,?_,by simp⟩
  · rw [submit_market]
    exact (Market.parked_tradeAll ..).trans prelude.parked
  · rw [submit_market,List.append_nil]
    exact (Market.rounds_tradeAll ..).trans prelude.rounds
  · unfold Book.parkedCount
    rw [stops _ (.inl rfl),stops _ (.inr rfl)]
    simp

/-- No order goes live. -/
theorem handled_still {b' : Book} (quiet : QuietAt b'.market.marketPrice b') (rounds : b'.market.rounds = b.market.rounds)
    (submissions : b'.market.submissions = b.market.submissions) : Handled b b' :=
  ⟨quiet,⟨[],by rw [rounds,List.append_nil],by simp,fun some => absurd rfl some,by simp⟩,
    [],by rw [submissions,List.append_nil],List.nodup_nil⟩

theorem QuietAt.parkStop (quiet : QuietAt b.market.marketPrice b) (stopped : b.isStopped o) :
    QuietAt b.market.marketPrice (b.parkStop o) := by
  unfold isStopped at stopped
  constructor
  · intro x member
    rcases mem_insertInto member with old | ⟨same,rfl⟩
    · exact quiet.buys x old
    · cases isBuy : x.isBuy with
      | true => simpa [isBuy] using stopped
      | false => simp [SimpleOrder.stopSide,isBuy] at same
  · intro x member
    rcases mem_insertInto member with old | ⟨same,rfl⟩
    · exact quiet.sells x old
    · cases isBuy : x.isBuy with
      | true => simp [SimpleOrder.stopSide,isBuy] at same
      | false => simpa [isBuy] using stopped

theorem Outcome.handled {b' : Book} (outcome : Outcome b c b') (fresh : b.Fresh c) (orderly : Orderly b [])
    (quiet : QuietAt b.market.marketPrice b) (queued : ∀ t, t = .stopBids ∨ t = .stopAsks → Queued t b.market.parked (b.side t)) :
    Handled b b' := by
  have notStop : ∀ t t' : TreeName, t = .bids ∨ t = .asks → t' = .stopBids ∨ t' = .stopAsks → ¬ t' = t := by
    rintro t t' (rfl | rfl) (rfl | rfl) <;> decide
  cases outcome with
  | rejected | cancelRejected | replaceRejected => exact handled_still ⟨quiet.buys,quiet.sells⟩ rfl rfl
  | parked isBuy price qty stopPrice conditions orderId o isNew some isStop stopped =>
    exact handled_still (QuietAt.parkStop (b := b.emit (.onAccept orderId.toNat)) ⟨quiet.buys,quiet.sells⟩ stopped) rfl rfl
  | live isBuy price qty stopPrice conditions orderId o isNew some =>
    subst isNew
    exact Prelude.handled ⟨fun _ _ => rfl,rfl,rfl,rfl,rfl⟩ (orderly_preserved.arrive b _ _ _ _ _ _ fresh some trivial orderly) quiet queued
  | cancelled orderId t o => exact handled_still (quiet.sublist fun t' _ => b.sublist_eraseFrom t t' o.orderId) rfl rfl
  | collapsed orderId sizeDelta newPrice t o =>
    exact handled_still (quiet.sublist fun t' _ => b.sublist_eraseFrom t t' o.orderId) rfl rfl
  | emptied orderId sizeDelta newPrice t o =>
    exact handled_still (quiet.sublist fun t' _ => b.sublist_eraseFrom t t' o.orderId) rfl rfl
  | resized orderId sizeDelta newPrice t o resting =>
    refine handled_still (quiet.sublist fun t' stop => ?_) rfl rfl
    show ((b.edit t o.orderId _).side t').Sublist (b.side t')
    rw [side_edit,if_neg (notStop t t' resting stop)]
  | repriced orderId sizeDelta newPrice t o copy resting member isId moves isCopy left =>
    subst isCopy
    refine Prelude.handled ⟨fun t' stop => ?_,rfl,rfl,rfl,rfl⟩ (orderly_preserved.emit _ _ _ rfl trivial
      (orderly_preserved.reprice b t o orderId sizeDelta newPrice resting member isId trivial moves.1 left trivial orderly)) quiet queued
    exact (side_eraseFrom b t t' o.orderId).trans (if_neg (notStop t t' resting stop))
  | observed px =>
    refine handled_rounds ⟨_,quiet.buys,quiet.sells⟩ (orderly_preserved.observe b px.toNat trivial orderly) ?_ ?_
    · refine ⟨[],by simp [Market.observe],fun id => ?_⟩
      have := orderly.occurs_le id
      unfold occurs at this
      rw [List.map_nil,List.count_nil]
      show 0 + (ids []).count id + (ids (b.side .stopBids)).count id + (ids (b.side .stopAsks)).count id ≤ 1
      omega
    · exact ⟨rfl,queued,[],by simp [Market.observe],by simp [Book.parkedCount],by simp⟩

/-- The parked orders of a reachable book are in order and none is due. -/
theorem quiet_run (cs : List Command) :
    ∀ b : Book, (Orderly b [] ∧ (∀ t, t = .stopBids ∨ t = .stopAsks → Queued t b.market.parked (b.side t))) →
    QuietAt b.market.marketPrice b → Simulation.Admitted Fresh step b cs →
    QuietAt (cs.foldl step b).market.marketPrice (cs.foldl step b) := by
  induction cs with
  | nil => exact fun b _ quiet _ => quiet
  | cons c cs ih =>
    intro b inv quiet ⟨first,rest⟩
    exact ih (b.step c) ((orderly_preserved.above parked_queued).step first inv)
      ((step_outcome b c).handled first inv.1 quiet inv.2).quiet rest

end Book

namespace MatchingBook
variable {N : Capacity}

/-- No parked order is due. -/
def Quiet (m : MatchingBook N) : Prop := ∃ buys sells, (m.on .stopBids).snapshot = some buys ∧ (m.on .stopAsks).snapshot = some sells ∧
  (∀ o ∈ buys, m.market.marketPrice < o.stopPrice) ∧ ∀ o ∈ sells, o.stopPrice < m.market.marketPrice

/-- The rounds of released stops between two states of a book, and what is submitted in them: no more rounds than parked
    orders, in each a prefix of one queue, and nothing submitted twice. -/
structure Triggered (m m' : MatchingBook N) : Prop where
  rounds : ∃ buys sells R, (m.on .stopBids).snapshot = some buys ∧ (m.on .stopAsks).snapshot = some sells ∧
    m'.market.rounds = m.market.rounds ++ R ∧ R.length ≤ buys.length + sells.length ∧
    (R ≠ [] → m'.market.parked = m.market.parked) ∧ ∀ r ∈ R, Book.InOrder m.market.parked r
  once : ∃ S, m'.market.submissions = m.market.submissions ++ S ∧ (submitted S).Nodup

theorem quiet_of_book {m : MatchingBook N} {b : Book} (rep : Represents False m b) (quiet : Book.QuietAt b.market.marketPrice b) :
    Quiet m := by
  refine ⟨_,_,rep.snapshot _,rep.snapshot _,?_⟩
  rw [rep.market]
  exact ⟨quiet.buys,quiet.sells⟩

/-- Every command of a run ends, and with no parked order due; the stops that it releases go in rounds. -/
theorem stop_queues (h : Pools N) (cs : List Command) (c : Command) (once : NeverReused (cs ++ [c])) :
    ∃ m m', after h cs = some m ∧ m.step c = some m' ∧ Quiet m ∧ Quiet m' ∧ Triggered m m' := by
  obtain ⟨before,fresh,_⟩ := Simulation.admitted_append.mp once.admitted
  have once' : NeverReused cs := by
    have sublist := (List.sublist_append_left cs [c]).filterMap Command.added
    exact List.Nodup.sublist sublist once
  obtain ⟨m,ran,rep⟩ := run_represents h cs once' fun no : False => no.elim
  obtain ⟨orderly,queued⟩ := (Book.orderly_preserved.above Book.parked_queued).run cs .start
    ⟨Book.orderly_start,fun t _ => queued_nil t _⟩ before
  have quiet := Book.quiet_run cs .start ⟨Book.orderly_start,fun t _ => queued_nil t _⟩ ⟨by simp [Book.start],by simp [Book.start]⟩ before
  obtain ⟨m',stepped,rep'⟩ := rep.step orderly (orderly.absent_of_fresh fresh) fun no => no.elim
  obtain ⟨quiet',⟨R,rounds,enough,parked,inOrder⟩,S,submissions,distinct⟩ :=
    (Book.step_outcome _ c).handled fresh orderly quiet queued
  refine ⟨m,m',ran,stepped,quiet_of_book rep quiet,quiet_of_book rep' quiet',⟨_,_,R,rep.snapshot _,rep.snapshot _,?_,enough,?_,?_⟩,S,?_,distinct⟩
  · rw [rep'.market,rep.market]
    exact rounds
  · rw [rep'.market,rep.market]
    exact parked
  · rw [rep.market]
    exact inOrder
  · rw [rep'.market,rep.market]
    exact submissions

/-- Two parked buys, of which a trade releases the nearer one. -/
theorem stop_queues_release : ∃ m m' : MatchingBook ⟨1,by decide,by decide⟩, after .empty
      [.add true 0 5 103 0 1,.add true 101 5 102 0 2,.add false 102 4 0 0 3] = some m ∧
    m.step (.add true 102 1 0 0 4) = some m' ∧ Quiet m ∧ Quiet m' ∧ Triggered m m' :=
  stop_queues .empty _ _ (by decide)

end MatchingBook

end BaboEngine
