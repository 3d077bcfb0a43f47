import BaboEngine.DepthTracking
import BaboEngine.Ladder
import BaboEngine.LiquibookCalls

/-!
# What the depth should track

The totals of the orders of a side, price by price (`tally`), and what a call of the book makes of them: an order
comes, becomes smaller or leaves at one price. A level may have more than is open at its price (`overhang`), for
the rest of an immediate-or-cancel order is cancelled with the quantity 0.
-/

namespace BaboEngine.LiquibookDepth
open Ladder

/-- The orders at a price. -/
def atPrice (os : List SimpleOrder) (p : Nat) : List SimpleOrder := os.filter fun o => o.price = p

/-- The totals of the orders at each price, where a level has so much `surplus` over what is open. -/
def tally (surplus : Nat → Nat) (os : List SimpleOrder) (p : Nat) : Option Tally :=
  if atPrice os p = [] then none else some ⟨(atPrice os p).length,openTotal (atPrice os p) + surplus p⟩

variable {surplus surplus' : Nat → Nat} {os L R : List SimpleOrder} {o o' : SimpleOrder} {p q : Nat} {v : Tally}

theorem atPrice_mid_self : atPrice (L ++ o :: R) o.price = atPrice L o.price ++ o :: atPrice R o.price := by
  simp [atPrice]

theorem atPrice_mid_ne (other : p ≠ o.price) : atPrice (L ++ o :: R) p = atPrice (L ++ R) p := by
  simp [atPrice,other.symm]

theorem tally_mid_ne (other : p ≠ o.price) : tally surplus (L ++ o :: R) p = tally surplus (L ++ R) p := by
  rw [tally,tally,atPrice_mid_ne other]

/-- What a level has of one of its orders, and of the others. -/
theorem tally_mid_self : tally surplus (L ++ o :: R) o.price =
    some ⟨(atPrice (L ++ R) o.price).length + 1,openTotal (atPrice (L ++ R) o.price) + o.openQty + surplus o.price⟩ := by
  have split : atPrice (L ++ R) o.price = atPrice L o.price ++ atPrice R o.price := List.filter_append ..
  rw [tally,atPrice_mid_self,if_neg (by simp),split]
  simp only [List.length_append,List.length_cons,openTotal_append,openTotal_cons,Option.some.injEq,Tally.mk.injEq]
  omega

theorem tally_of_nil (none : atPrice os p = []) : tally surplus os p = .none := if_pos none

theorem tally_of_ne (some : atPrice os p ≠ []) : tally surplus os p = .some ⟨(atPrice os p).length,openTotal (atPrice os p) + surplus p⟩ := if_neg some

/-- An order that leaves. -/
theorem tally_close (held : tally surplus (L ++ o :: R) o.price = some v) :
    tally surplus (L ++ R) = Function.update (tally surplus (L ++ o :: R)) o.price (v.closed o.openQty) := by
  funext p
  by_cases here : p = o.price
  · subst here
    rw [tally_mid_self] at held
    obtain rfl := Option.some.inj held
    rw [Function.update_self,Tally.closed,tally]
    by_cases alone : atPrice (L ++ R) o.price = []
    · simp [alone]
    · have counted : ¬ (atPrice (L ++ R) o.price).length + 1 = 1 := by
        have := List.length_pos_iff.mpr alone
        omega
      rw [if_neg alone,if_neg counted]
      simp only [Option.some.injEq,Tally.mk.injEq]
      omega
  · rw [Function.update_of_ne here,tally_mid_ne here]

/-- An order that becomes smaller. -/
theorem tally_shrink (held : tally surplus (L ++ o :: R) o.price = some v) (price : o'.price = o.price)
    (less : o'.openQty + q = o.openQty) :
    tally surplus (L ++ o' :: R) = Function.update (tally surplus (L ++ o :: R)) o.price (some ⟨v.count,v.qty - q⟩) := by
  funext p
  by_cases here : p = o.price
  · subst here
    rw [tally_mid_self] at held
    obtain rfl := Option.some.inj held
    rw [Function.update_self,← price,tally_mid_self,price]
    simp only [Option.some.injEq,Tally.mk.injEq,true_and]
    omega
  · rw [Function.update_of_ne here,tally_mid_ne here,tally_mid_ne (price ▸ here)]

/-- An order that comes, with so much more than is open of it. -/
theorem tally_enter (same : ∀ p ≠ o.price, surplus' p = surplus p)
    (here : o.openQty + surplus' o.price = q + if atPrice (L ++ R) o.price = [] then 0 else surplus o.price) :
    tally surplus' (L ++ o :: R) = Function.update (tally surplus (L ++ R)) o.price (some (.added (tally surplus (L ++ R) o.price) q)) := by
  funext p
  by_cases isHere : p = o.price
  · subst isHere
    rw [Function.update_self,tally_mid_self]
    by_cases alone : atPrice (L ++ R) o.price = []
    · rw [if_pos alone] at here
      simp only [tally_of_nil alone,Tally.added,alone,List.length_nil,openTotal_nil,Option.some.injEq,Tally.mk.injEq,Nat.zero_add,
        true_and]
      omega
    · rw [if_neg alone] at here
      simp only [tally_of_ne alone,Tally.added,Option.some.injEq,Tally.mk.injEq,true_and]
      omega
  · rw [Function.update_of_ne isHere,tally_mid_ne isHere,tally,tally,same p isHere]

theorem openQty_le_tally (held : tally surplus (L ++ o :: R) o.price = some v) : 0 < v.count ∧ o.openQty ≤ v.qty := by
  rw [tally_mid_self] at held
  obtain rfl := Option.some.inj held
  exact ⟨Nat.succ_pos _,by dsimp only; omega⟩

/-- The orders of a price are no more than the quantity that is open of them. -/
theorem count_le_qty (each : ∀ o ∈ os, 0 < o.openQty) (held : tally surplus os p = some v) : v.count ≤ v.qty := by
  unfold tally at held
  split_ifs at held
  have counted : (atPrice os p).length ≤ openTotal (atPrice os p) := by
    unfold openTotal
    rw [← List.length_map SimpleOrder.openQty]
    apply List.length_le_sum_of_one_le
    intro q member
    obtain ⟨o,inSide,rfl⟩ := List.mem_map.mp member
    exact each o (List.mem_of_mem_filter inSide)
  rw [← Option.some.inj held]
  exact Nat.le_trans counted (Nat.le_add_right ..)

/-- What the depth keeps of an order that is cancelled with the quantity 0. -/
theorem tally_overhang {rest : Nat} (same : ∀ p' ≠ p, surplus' p' = surplus p')
    (here : surplus' p = (if atPrice os p = [] then 0 else surplus p) + rest) :
    tally surplus' os = Function.update (tally surplus os) p ((Tally.added (tally surplus os p) rest).closed 0) := by
  funext p'
  by_cases isHere : p' = p
  · subst isHere
    rw [Function.update_self]
    by_cases none : atPrice os p' = []
    · rw [tally_of_nil none,tally_of_nil none]
      rfl
    · have counted : ¬ (atPrice os p').length + 1 = 1 := by
        have := List.length_pos_iff.mpr none
        omega
      rw [if_neg none] at here
      rw [tally_of_ne none,tally_of_ne none,Tally.added,Tally.closed,if_neg counted]
      simp only [Option.some.injEq,Tally.mk.injEq]
      omega
  · rw [Function.update_of_ne isHere,tally,tally,same p' isHere]

/-! ## Fills -/

/-- What a fill leaves of the totals of a price. -/
def Tally.filled (v : Tally) (qty : Nat) (full : Bool) : Option Tally := if full then v.closed qty else some ⟨v.count,v.qty - qty⟩

/-- What a fill makes of a side whose order it takes from. -/
theorem tally_fill {front rest : List SimpleOrder} {maker : SimpleOrder} {c : Nat} (sized : maker.Sized) (enough : q ≤ maker.openQty)
    (held : tally surplus (front ++ maker :: rest) maker.price = some v) :
    tally surplus (front ++ (Matching.kept (maker.fill q c) ++ rest)) =
      Function.update (tally surplus (front ++ maker :: rest)) maker.price (v.filled q (decide (maker.openQty - q = 0))) := by
  have remains := sized.openQty_fill (c := c) enough
  unfold Matching.kept
  by_cases full : maker.openQty - q = 0
  · have all : q = maker.openQty := by omega
    rw [if_pos (remains.trans full),List.nil_append,Tally.filled,if_pos (decide_eq_true full),all]
    exact tally_close held
  · rw [if_neg (fun done => full (remains.symm.trans done)),List.singleton_append,Tally.filled,if_neg (by simpa using full)]
    exact tally_shrink held (SimpleOrder.fill_price ..) (by omega)

/-- No price has more than before a fill. -/
theorem tally_fill_le {front rest : List SimpleOrder} {maker : SimpleOrder} {c : Nat} {w : Tally} (sized : maker.Sized)
    (enough : q ≤ maker.openQty) (held : tally surplus (front ++ (Matching.kept (maker.fill q c) ++ rest)) p = some w) :
    ∃ v, tally surplus (front ++ maker :: rest) p = some v ∧ w.qty ≤ v.qty := by
  have before : tally surplus (front ++ maker :: rest) maker.price = _ := tally_mid_self
  rw [tally_fill sized enough before] at held
  by_cases here : p = maker.price
  · subst here
    refine ⟨_,before,?_⟩
    rw [Function.update_self,Tally.filled,Tally.closed] at held
    split_ifs at held <;> rw [← Option.some.inj held] <;> exact Nat.sub_le ..
  · rw [Function.update_of_ne here] at held
    exact ⟨w,held,Nat.le_refl _⟩

/-! ## Orders that are added -/

/-- An order that is inserted comes between others. -/
theorem orderedInsert_mid (t : TreeName) (o : SimpleOrder) (os : List SimpleOrder) :
    ∃ L R, os = L ++ R ∧ os.orderedInsert (Book.Ahead t) o = L ++ o :: R :=
  ⟨_,_,List.takeWhile_append_dropWhile.symm,List.orderedInsert_eq_take_drop ..⟩

/-- What the levels of a side have over what is open, after an order. The rest of an immediate-or-cancel order is cancelled with the
    quantity 0, so it stays until the level goes. -/
def overhang (surplus : TreeName → Nat → Nat) (b : Book) (o : SimpleOrder) : TreeName → Nat → Nat :=
  if o.orderQty = 0 ∨ (b.pass o).inc.openQty = 0 then surplus
  else
    let before := if atPrice (b.side o.side) o.price = [] then 0 else surplus o.side o.price
    let remainder := if o.immediateOrCancel then (b.pass o).inc.openQty else 0
    Function.update surplus o.side (Function.update (surplus o.side) o.price (before + remainder))

theorem overhang_side (surplus : TreeName → Nat → Nat) (b : Book) (o : SimpleOrder) :
    (∀ p ≠ o.price, overhang surplus b o o.side p = surplus o.side p) ∧
    (o.orderQty ≠ 0 → (b.pass o).inc.openQty ≠ 0 → overhang surplus b o o.side o.price =
      (if atPrice (b.side o.side) o.price = [] then 0 else surplus o.side o.price) + if o.immediateOrCancel then (b.pass o).inc.openQty else 0) ∧
    ((b.pass o).inc.openQty = 0 → overhang surplus b o o.side = surplus o.side) := by
  unfold overhang
  refine ⟨?_,?_,?_⟩
  · intro p other
    split_ifs <;> simp [other]
  · intro some' rests
    rw [if_neg (by simp [some',rests])]
    simp
  · intro filled
    rw [if_pos (.inr filled)]

theorem overhang_opposite (surplus : TreeName → Nat → Nat) (b : Book) (o : SimpleOrder) : overhang surplus b o o.opposite = surplus o.opposite := by
  rw [overhang]
  by_cases unchanged : o.orderQty = 0 ∨ (b.pass o).inc.openQty = 0
  · rw [if_pos unchanged]
  · rw [if_neg unchanged]
    exact Function.update_of_ne o.side_ne_opposite.symm ..

theorem rests_iff {o remainder : SimpleOrder} (priced : 1 ≤ o.price) (same : o.SameTerms remainder) :
    Book.Rests o remainder ↔ o.immediateOrCancel = false ∧ remainder.openQty ≠ 0 := by
  have priced : ¬ o.price = marketOrderPrice := Nat.pos_iff_ne_zero.mp priced
  rw [Book.Rests,gt_iff_lt,Nat.pos_iff_ne_zero,and_iff_right priced,same.immediateOrCancel,Bool.not_eq_true']

/-- The totals of the own side of an order, when what is left of it is added or cancelled. -/
def closed (f : Nat → Option Tally) (o remainder : SimpleOrder) : Nat → Option Tally :=
  if remainder.openQty = 0 then f
  else Function.update f o.price
    (if o.immediateOrCancel then (Tally.added (f o.price) remainder.openQty).closed 0 else some (.added (f o.price) remainder.openQty))

theorem tally_closed {b : Book} (surplus : TreeName → Nat → Nat) (priced : 1 ≤ o.price) (same : o.SameTerms (b.pass o).inc) (some : o.orderQty ≠ 0) :
    tally (overhang surplus b o o.side)
      (if Book.Rests o (b.pass o).inc then (b.side o.side).orderedInsert (Book.Ahead o.side) (b.pass o).inc else b.side o.side) =
        closed (tally (surplus o.side) (b.side o.side)) o (b.pass o).inc := by
  obtain ⟨elsewhere,here,filled⟩ := overhang_side surplus b o
  rw [if_congr (rests_iff priced same) rfl rfl,closed]
  by_cases full : (b.pass o).inc.openQty = 0
  · rw [if_neg fun rests => rests.2 full,if_pos full,filled full]
  replace here := here some full
  rw [if_neg full]
  cases isIoc : o.immediateOrCancel with
  | true =>
    simp only [isIoc,if_true] at here
    rw [if_neg fun rests => Bool.noConfusion rests.1,if_pos rfl]
    exact tally_overhang elsewhere here
  | false =>
    simp only [isIoc,Bool.false_eq_true,if_false,Nat.add_zero] at here
    obtain ⟨L,R,split,inserted⟩ := orderedInsert_mid o.side (b.pass o).inc (b.side o.side)
    have entered : tally (overhang surplus b o o.side) (L ++ (b.pass o).inc :: R) = _ := tally_enter (q := (b.pass o).inc.openQty)
      (same.price ▸ elsewhere) (by rw [same.price,here,split])
    rw [if_pos ⟨rfl,full⟩,inserted,entered,same.price,if_neg Bool.false_ne_true,split]

/-! ## Bounds -/

theorem Tally.closed_le {v w : Tally} {q : Nat} (left : v.closed q = some w) : w.qty ≤ v.qty := by
  unfold closed at left
  split_ifs at left
  rw [← Option.some.inj left]
  exact Nat.sub_le ..

theorem Tally.added_le {held : Option Tally} {n : Nat} (bounded : ∀ v, held = some v → v.qty ≤ n) (q : Nat) : (added held q).qty ≤ n + q := by
  cases held with
  | none => exact Nat.le_add_left ..
  | some v => exact Nat.add_le_add_right (bounded v rfl) q

theorem update_le {f : Nat → Option Tally} {x : Option Tally} {n p₀ : Nat} (others : ∀ p v, f p = some v → v.qty ≤ n)
    (here : ∀ v, x = some v → v.qty ≤ n) (held : Function.update f p₀ x p = some v) : v.qty ≤ n := by
  by_cases same : p = p₀
  · rw [same,Function.update_self] at held
    exact here v held
  · rw [Function.update_of_ne same] at held
    exact others p v held

theorem regular_tally_le (makers : List SimpleOrder) : ∀ (inc : SimpleOrder) (front : List SimpleOrder),
    (∀ m ∈ makers, m.Sized ∧ Book.PlainOrder m) → ∀ w, tally surplus (front ++ (Matching.regular inc makers).makers) p = some w →
      ∃ v, tally surplus (front ++ makers) p = some v ∧ w.qty ≤ v.qty := by
  induction makers with
  | nil => exact fun inc front _ w held => ⟨w,held,Nat.le_refl _⟩
  | cons maker rest ih =>
    intro inc front each w held
    obtain ⟨⟨sized,plain⟩,eachRest⟩ := List.forall_mem_cons.mp each
    by_cases stop : inc.openQty = 0 ∨ crosses maker inc = false
    · rw [Matching.regular_stop rest stop] at held
      exact ⟨w,held,Nat.le_refl _⟩
    · have needs : inc.openQty ≠ 0 := fun done => stop (.inl done)
      have crossed : crosses maker inc := by simpa using fun apart => stop (.inr apart)
      have regular : maker.allOrNone = false := plain.regular.1
      rw [Matching.regular_take rest needs crossed (by simp [regular])] at held
      have enough : min inc.openQty maker.openQty ≤ maker.openQty := Nat.min_le_right _ _
      generalize min inc.openQty maker.openQty = q at enough held
      rw [Matching.trade,← List.append_assoc] at held
      obtain ⟨v,held₁,le⟩ := ih _ _ eachRest w held
      rw [List.append_assoc] at held₁
      obtain ⟨v₁,held₂,le₁⟩ := tally_fill_le sized enough held₁
      exact ⟨v₁,held₂,le.trans le₁⟩

/-- No price of the depth has more than a quantity. -/
def Bounded (n : Nat) (surplus : TreeName → Nat → Nat) (b : Book) : Prop :=
  ∀ t, t = .bids ∨ t = .asks → ∀ p v, tally (surplus t) (b.side t) p = some v → v.qty ≤ n

variable {n : Nat} {surplus : TreeName → Nat → Nat} {b : Book}

theorem Bounded.add (bounded : Bounded n surplus b) (plain : b.Plain) (incoming : b.Incoming o) :
    Bounded (n + o.orderQty) (overhang surplus b o) (b.add o) := by
  by_cases some : o.orderQty = 0
  · rw [overhang,if_pos (.inl some),incoming.add_eq plain,if_pos some,some]
    exact bounded
  obtain ⟨sized,isOpen,_,notAon,_⟩ := incoming.fields
  obtain ⟨same,_,left⟩ := Book.pass_inc (b := b) sized
  have isRegular : b.pass o = .regular o (b.side o.opposite) := by simp [Book.pass,Matching.against,notAon]
  have opposite := plain.plainSide o.opposite_cases
  intro t resting p v held
  rw [LiquibookAdapter.side_add incoming plain some] at held
  rcases LiquibookAdapter.side_or_opposite o resting with rfl | rfl
  · rw [Book.submit_side sized,tally_closed surplus incoming.price same some,closed] at held
    have before := bounded _ o.side_cases
    have grown : ∀ p v, tally (surplus o.side) (b.side o.side) p = .some v → v.qty ≤ n + o.orderQty :=
      fun p v held => (before p v held).trans (Nat.le_add_right ..)
    have added := (Tally.added_le (before o.price) (b.pass o).inc.openQty).trans (Nat.add_le_add_left (m := o.orderQty) (by omega) n)
    split_ifs at held
    · exact grown p v held
    · exact update_le grown (fun w closed => (Tally.closed_le closed).trans added) held
    · exact update_le grown (fun w isAdded => Option.some.inj isAdded ▸ added) held
  · rw [Book.submit_opposite sized,overhang_opposite,isRegular] at held
    obtain ⟨v',held',le⟩ := regular_tally_le (b.side o.opposite) o [] (fun m member => ⟨opposite.sized m member,opposite.each m member⟩) v held
    exact (le.trans (bounded _ o.opposite_cases p v' held')).trans (Nat.le_add_right ..)

theorem Bounded.cancel {t : TreeName} (bounded : Bounded n surplus b) (plain : b.Plain) (member : o ∈ b.side t) :
    Bounded n surplus (b.cancel o.orderId) := by
  obtain ⟨L,R,split⟩ := List.append_of_mem member
  have nodup := plain.orderly.nodup t
  have before := bounded t (plain.resting member)
  rw [split] at before nodup
  intro t' resting' p v held
  rw [(plain.cancel member).1] at held
  have held : tally (surplus t') ((b.eraseFrom t o.orderId).side t') p = some v := held
  rw [Book.side_eraseFrom] at held
  by_cases same : t' = t
  · subst same
    have mid : tally (surplus t') (L ++ o :: R) o.price = _ := tally_mid_self
    rw [if_pos rfl,split,filter_middle nodup,tally_close mid] at held
    exact update_le before (fun w closed => (Tally.closed_le closed).trans (before _ _ mid)) held
  · rw [if_neg same] at held
    exact bounded t' resting' p v held

end BaboEngine.LiquibookDepth
