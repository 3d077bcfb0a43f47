import BaboEngine.StopBatches

/-!
# What a command enters

A command that goes to matching sends an order or sets the market price. The submissions that it
enters into the journal lead from the resting orders that it finds to those that it leaves: each of
them finds as makers the orders that rest on the opposite side then. The order that is sent comes
first, and the parked orders that are gone afterwards are among the others.
-/

namespace BaboEngine

namespace Submission

/-- The sides after a submission. -/
def leave (e : Submission) (side : TreeName → List SimpleOrder) (t : TreeName) : List SimpleOrder :=
  if t = e.order.opposite then e.makersLeft
  else if t = e.order.side ∧ Book.Rests e.order e.remainder then (side t).orderedInsert (Book.Ahead t) e.remainder
  else side t

/-- Submissions lead from resting orders to resting orders. -/
def Leads : List Submission → (side side' : TreeName → List SimpleOrder) → Prop
  | [], side, side' => ∀ t, t = .bids ∨ t = .asks → side' t = side t
  | e :: S, side, side' => e.makers = side e.order.opposite ∧ Leads S (e.leave side) side'

variable {side side' side'' : TreeName → List SimpleOrder} {S : List Submission} {e : Submission} {t : TreeName}

theorem leave_congr (same : ∀ t, t = .bids ∨ t = .asks → side' t = side t) (resting : t = .bids ∨ t = .asks) :
    e.leave side' t = e.leave side t := by
  unfold leave
  rw [same t resting]

/-- The parked orders do not matter. -/
theorem Leads.still (leads : Leads S side side') (same : ∀ t, t = .bids ∨ t = .asks → side'' t = side' t) : Leads S side side'' := by
  induction S generalizing side with
  | nil => exact fun t resting => (same t resting).trans (leads t resting)
  | cons e S ih => exact ⟨leads.1,ih leads.2⟩

theorem Leads.start (leads : Leads S side side') (same : ∀ t, t = .bids ∨ t = .asks → side t = side'' t) : Leads S side'' side' := by
  induction S generalizing side side'' with
  | nil => exact fun t resting => (leads t resting).trans (same t resting)
  | cons e S ih => exact ⟨leads.1.trans (same _ (SimpleOrder.opposite_cases _)),ih leads.2 fun t resting => leave_congr same resting⟩

/-- One submission more. -/
theorem Leads.append (leads : Leads S side side') (makers : e.makers = side' e.order.opposite)
    (left : ∀ t, t = .bids ∨ t = .asks → side'' t = e.leave side' t) : Leads (S ++ [e]) side side'' := by
  induction S generalizing side with
  | nil =>
    refine ⟨makers.trans (leads _ (SimpleOrder.opposite_cases _)),?_⟩
    exact fun t resting => (left t resting).trans (leave_congr leads resting)
  | cons e' S ih => exact ⟨leads.1,ih leads.2⟩

end Submission

namespace Book
open Submission
variable {b b₁ : Book} {o x : SimpleOrder} {t : TreeName} {hand : List SimpleOrder} {c : Command}

/-! ## The order that is sent -/

/-- The order that a command sends to matching at once. -/
def sends (b : Book) : Command → Option SimpleOrder
  | .add isBuy price qty stopPrice conditions orderId =>
    let o := SimpleOrder.new isBuy price qty stopPrice conditions orderId
    if o.orderQty = 0 ∨ o.stopPrice ≠ 0 ∧ b.isStopped o then none else some o
  | .replace orderId sizeDelta newPrice => do
    let o ← (b.find .bids orderId.toNat).or (b.find .asks orderId.toNat)
    let copy := o.modify sizeDelta.toInt newPrice.toNat
    if Reprices o newPrice.toNat ∧ copy.openQty ≠ 0 then some copy else none
  | .cancel _ | .setMarketPrice _ => none

/-- The sides without the order of an id. -/
def without (b : Book) (id : Nat) (t : TreeName) : List SimpleOrder := (b.side t).filter (·.orderId ≠ id)

/-- The book that the order comes to that a command sends. -/
structure Launch (b : Book) (o : SimpleOrder) (b₁ : Book) : Prop where
  orderly : Orderly b₁ [o]
  market : b₁.market.marketPrice = b.market.marketPrice ∧ b₁.market.submissions = b.market.submissions
  sides : ∀ t, b₁.side t = b.without o.orderId t
  others : ∀ t, t ≠ o.side → b.without o.orderId t = b.side t

theorem without_absent {id : Nat} (absent : ∀ x ∈ b.side t, x.orderId ≠ id) : b.without id t = b.side t := by
  simpa [without] using absent

theorem Launch.opposite (launch : Launch b o b₁) : b₁.side o.opposite = b.side o.opposite :=
  (launch.sides _).trans (launch.others _ o.side_ne_opposite.symm)

theorem Launch.stops (launch : Launch b o b₁) (stop : t = .stopBids ∨ t = .stopAsks) : (b₁.submit o).side t = b.side t := by
  rw [submit_stops launch.orderly.handSized stop,launch.sides]
  apply launch.others
  intro same
  have side := o.side_cases
  rcases stop with rfl | rfl <;> simp [← same] at side

theorem launch_replace {orderId : UInt32} {sizeDelta : Int32} {newPrice : UInt64} (orderly : Orderly b []) (resting : t = .bids ∨ t = .asks)
    (found : b.find t orderId.toNat = some x) (moves : Reprices x newPrice.toNat)
    (left : (x.modify sizeDelta.toInt newPrice.toNat).openQty ≠ 0) : Launch b (x.modify sizeDelta.toInt newPrice.toNat)
      ((b.eraseFrom t x.orderId).emit (.onReplace x.orderId sizeDelta.toInt (x.modify sizeDelta.toInt newPrice.toNat).price)) := by
  obtain ⟨member,isId⟩ := find_some found
  obtain ⟨sameId,_,sameBuy,_⟩ := x.modify_fields sizeDelta.toInt newPrice.toNat
  have isSide : (x.modify sizeDelta.toInt newPrice.toNat).side = t := by
    have placed := orderly.placed t x member
    unfold SimpleOrder.side SimpleOrder.stopSide at *
    rw [sameBuy]
    rcases resting with rfl | rfl <;> cases isBuy : x.isBuy <;> simp_all
  have others : ∀ t', t' ≠ t → b.without x.orderId t' = b.side t' := fun t' other =>
    without_absent fun y inSide same => other (orderly.apart inSide member same)
  refine ⟨orderly_preserved.emit _ _ _ rfl trivial (orderly_preserved.reprice b t x orderId sizeDelta newPrice resting member isId trivial
    moves.1 left trivial orderly),⟨rfl,rfl⟩,?_,?_⟩
  · intro t'
    rw [sameId]
    refine (side_eraseFrom b t t' x.orderId).trans ?_
    split_ifs with same
    · rw [same]
      rfl
    · exact (others t' same).symm
  · intro t' other
    rw [isSide] at other
    rw [sameId]
    exact others t' other

/-- A command that sends an order begins with it. -/
theorem Orderly.launch (orderly : Orderly b []) (fresh : b.Fresh c) (sent : b.sends c = some o) :
    ∃ b₁, Launch b o b₁ ∧ b.step c = (b₁.submit o).processTriggered ∧ b.batches c = b₁.batchesOf o := by
  cases c with
  | add isBuy price qty stopPrice conditions orderId =>
    simp only [sends] at sent
    split_ifs at sent with none
    obtain rfl := Option.some.inj sent
    obtain ⟨some,live⟩ := not_or.mp none
    have arrived := orderly_preserved.arrive b _ _ _ _ _ _ fresh some trivial orderly
    have same : ∀ t, b.without orderId.toNat t = b.side t := fun t => without_absent arrived.absent
    exact ⟨b.emit (.onAccept orderId.toNat),⟨arrived,⟨rfl,rfl⟩,fun t => (same t).symm,fun t _ => same t⟩,(if_neg some).trans (if_neg live),
      if_neg none⟩
  | replace orderId sizeDelta newPrice =>
    obtain ⟨x,found,sent⟩ := Option.bind_eq_some_iff.mp sent
    dsimp only at sent
    split_ifs at sent with moves
    obtain rfl := Option.some.inj sent
    have batchesAre : ∀ t, b.replaceBatches t x sizeDelta.toInt newPrice.toNat =
        ((b.eraseFrom t x.orderId).emit (.onReplace x.orderId sizeDelta.toInt
          (x.modify sizeDelta.toInt newPrice.toNat).price)).batchesOf (x.modify sizeDelta.toInt newPrice.toNat) := fun t => if_pos moves
    have goes : ∀ t, b.replaceOrder t x sizeDelta.toInt newPrice.toNat =
        (((b.eraseFrom t x.orderId).emit (.onReplace x.orderId sizeDelta.toInt
          (x.modify sizeDelta.toInt newPrice.toNat).price)).submit (x.modify sizeDelta.toInt newPrice.toNat)).processTriggered :=
      fun t => (if_pos moves.1).trans (if_neg moves.2)
    cases bid : b.find .bids orderId.toNat with
    | some y =>
      obtain rfl : y = x := by simpa [bid] using found
      exact ⟨_,launch_replace orderly (.inl rfl) bid moves.1 moves.2,by simp only [step,replace,bid,goes],by simp only [batches,bid,batchesAre]⟩
    | none =>
      have ask : b.find .asks orderId.toNat = some x := by simpa [bid] using found
      exact ⟨_,launch_replace orderly (.inr rfl) ask moves.1 moves.2,by simp only [step,replace,bid,ask,goes],
        by simp only [batches,bid,ask,batchesAre]⟩
  | cancel | setMarketPrice => cases sent

theorem submissions_replaceOrder {sizeDelta : Int} {newPrice : Nat} (still : ¬ (Reprices o newPrice ∧ (o.modify sizeDelta newPrice).openQty ≠ 0)) :
    (b.replaceOrder t o sizeDelta newPrice).market.submissions = b.market.submissions := by
  simp only [replaceOrder,reprice,resize]
  split_ifs with moves empty
  · rfl
  · exact absurd ⟨moves,empty⟩ still
  · rfl
  · rfl

/-- A command that sends no order and sets no price has no batches, and enters nothing. -/
theorem batches_none (sent : b.sends c = none) (noPrice : ∀ px, c ≠ .setMarketPrice px) :
    b.batches c = [] ∧ (b.step c).market.submissions = b.market.submissions := by
  cases c with
  | add isBuy price qty stopPrice conditions orderId =>
    simp only [sends] at sent
    split_ifs at sent with none
    refine ⟨if_pos none,?_⟩
    simp only [step,add]
    split_ifs with empty parks
    · rfl
    · rfl
    · exact absurd none (not_or.mpr ⟨empty,parks⟩)
  | replace orderId sizeDelta newPrice =>
    simp only [sends,Option.bind_eq_bind] at sent
    simp only [batches,replaceBatches,step,replace]
    cases bid : b.find .bids orderId.toNat with
    | some x =>
      simp only [bid,Option.some_or,Option.bind_some] at sent ⊢
      split_ifs at sent with moves
      exact ⟨if_neg moves,submissions_replaceOrder moves⟩
    | none =>
      cases ask : b.find .asks orderId.toNat with
      | none => exact ⟨rfl,rfl⟩
      | some x =>
        simp only [bid,ask,Option.none_or,Option.bind_some] at sent ⊢
        split_ifs at sent with moves
        exact ⟨if_neg moves,submissions_replaceOrder moves⟩
  | cancel orderId =>
    refine ⟨rfl,?_⟩
    show (b.cancel orderId.toNat).market.submissions = _
    unfold cancel
    split <;> rfl
  | setMarketPrice px => exact absurd rfl (noPrice px)

/-! ## The entries -/

/-- The entries since the journal `k` lead from the resting orders of some sides to those of the book, and each order that was parked is
    still parked, is about to be submitted or is among the entries. -/
def EnteredSince (k : Market) (side : TreeName → List SimpleOrder) (b : Book) (hand : List SimpleOrder) : Prop :=
  ∃ S, b.market.submissions = k.submissions ++ S ∧ Leads S side b.side ∧
    ∀ t, t = .stopBids ∨ t = .stopAsks → ∀ o ∈ side t, o ∈ b.side t ∨ o ∈ hand ∨ o ∈ S.map Submission.order

theorem submit_leave (sized : o.Sized) (resting : t = .bids ∨ t = .asks) : (b.submit o).side t = (b.call o).leave b.side t := by
  show _ = if t = o.opposite then (b.pass o).makers
    else if t = o.side ∧ Rests o (b.pass o).inc then (b.side t).orderedInsert (Ahead t) (b.pass o).inc else b.side t
  by_cases opposite : t = o.opposite
  · rw [if_pos opposite,opposite]
    exact submit_opposite sized
  · have isSide : t = o.side := by
      unfold SimpleOrder.opposite SimpleOrder.side at *
      rcases resting with rfl | rfl <;> cases isBuy : o.isBuy <;> simp_all
    rw [if_neg opposite,isSide,submit_side sized]
    exact if_congr (by simp) rfl rfl

theorem enteredSince_carried (k : Market) (side : TreeName → List SimpleOrder) : Carried Orderly (EnteredSince k side) where
  submit b o hand orderly entered := by
    obtain ⟨S,submissions,leads,kept⟩ := entered
    refine ⟨S ++ [b.call o],by rw [submissions_submit,submissions,List.append_assoc],?_,?_⟩
    · exact leads.append rfl fun t resting => submit_leave orderly.handSized resting
    · intro t stop x member
      rw [submit_stops orderly.handSized stop]
      rcases kept t stop x member with parked | inHand | done
      · exact .inl parked
      · rcases List.mem_cons.mp inHand with rfl | later
        · exact .inr (.inr (by simp [call]))
        · exact .inr (.inl later)
      · exact .inr (.inr (by simp [done]))
  scan b _ entered := by
    obtain ⟨S,submissions,leads,kept⟩ := entered
    obtain ⟨_,_,bids,asks⟩ := b.side_scanned
    refine ⟨S,submissions,leads.still ?_,?_⟩
    · rintro t (rfl | rfl)
      · exact bids
      · exact asks
    · intro t stop x member
      rcases kept t stop x member with parked | inHand | done
      · exact (mem_scanned parked).symm.imp_right .inl
      · cases inHand
      · exact .inr (.inr done)
  released _ _ _ entered := entered

/-- What a command enters into the journal. -/
structure Submits (b : Book) (c : Command) (b' : Book) (S : List Submission) : Prop where
  submissions : b'.market.submissions = b.market.submissions ++ S
  sent : ∀ o ∈ b.sends c, S.head?.map Submission.order = some o ∧ Leads S (b.without o.orderId) b'.side
  set : ∀ px, c = .setMarketPrice px → Leads S b.side b'.side
  released : (b.sends c).isSome ∨ (∃ px, c = .setMarketPrice px) → ∀ t, t = .stopBids ∨ t = .stopAsks → ∀ o ∈ b.side t,
    o ∈ b'.side t ∨ o ∈ S.map Submission.order
  still : b.sends c = none → (∀ px, c ≠ .setMarketPrice px) → S = []

theorem Orderly.enteredSince (orderly : Orderly b []) : EnteredSince b.market b.side b.processTriggered [] :=
  ((orderly_preserved.toCarried.above (enteredSince_carried b.market b.side)).processTriggered
    ⟨orderly,[],by simp,fun _ _ => rfl,fun _ _ _ member => .inl member⟩).2

theorem Orderly.submits (orderly : Orderly b []) (fresh : b.Fresh c) : ∃ S, b.Submits c (b.step c) S := by
  cases sent : b.sends c with
  | some o =>
    obtain ⟨b₁,launch,goes,_⟩ := orderly.launch fresh sent
    have noPrice : ∀ px, c ≠ .setMarketPrice px := by
      rintro px rfl
      cases sent
    obtain ⟨S,submissions,leads,kept⟩ := launch.orderly.submit.enteredSince
    rw [← goes] at submissions leads kept
    have sides : b₁.side = b.without o.orderId := funext launch.sides
    refine ⟨b₁.call o :: S,?_,?_,fun px same => absurd same (noPrice px),?_,fun none => by simp [sent] at none⟩
    · rw [submissions,submissions_submit,launch.market.2,List.append_assoc]
      rfl
    · rintro x isSent
      obtain rfl : o = x := Option.some.inj (sent.symm.trans isSent)
      refine ⟨rfl,congrFun sides o.opposite,leads.start fun t resting => ?_⟩
      rw [← sides]
      exact submit_leave launch.orderly.handSized resting
    · intro _ t stop x member
      rw [← launch.stops stop] at member
      rcases kept t stop x member with parked | inHand | done
      · exact .inl parked
      · cases inHand
      · exact .inr (List.mem_cons_of_mem _ done)
  | none =>
    cases c with
    | setMarketPrice px =>
      obtain ⟨S,submissions,leads,kept⟩ := (orderly_preserved.observe b px.toNat trivial orderly).enteredSince
      refine ⟨S,submissions,fun o isSent => (by cases isSent),fun _ _ => leads,?_,fun _ other => absurd rfl (other px)⟩
      intro _ t stop x member
      rcases kept t stop x member with parked | inHand | done
      · exact .inl parked
      · cases inHand
      · exact .inr done
    | add | cancel | replace =>
      obtain ⟨_,submissions⟩ := batches_none sent (by simp)
      refine ⟨[],by rw [submissions,List.append_nil],fun o isSent => ?_,fun _ same => (by cases same),fun moved => ?_,fun _ _ => rfl⟩
      · rw [sent] at isSent
        cases isSent
      · simp [sent] at moved

end Book

end BaboEngine
