import BaboEngine.Book
import Mathlib.Algebra.Order.BigOperators.Group.List

/-!
# Allotments

Both ways of matching come to one: an allotment says for every maker, best first, how much
the incoming order takes of it, and is then carried out (`Matching.against_eq`). What holds
of matching passes is read off the allotment.
-/

namespace BaboEngine

/-! ## What a fill leaves -/

/-- Two versions of an order between which there are only fills. -/
structure SimpleOrder.SameTerms (o o' : SimpleOrder) : Prop where
  orderId : o'.orderId = o.orderId
  isBuy : o'.isBuy = o.isBuy
  price : o'.price = o.price
  stopPrice : o'.stopPrice = o.stopPrice
  conditions : o'.conditions = o.conditions
  orderQty : o'.orderQty = o.orderQty
  level : o'.level = o.level

namespace SimpleOrder
variable {o o' o'' : SimpleOrder}

theorem SameTerms.refl (o : SimpleOrder) : SameTerms o o := ⟨rfl,rfl,rfl,rfl,rfl,rfl,rfl⟩

theorem SameTerms.trans (first : SameTerms o o') (second : SameTerms o' o'') : SameTerms o o'' :=
  ⟨second.orderId.trans first.orderId,second.isBuy.trans first.isBuy,second.price.trans first.price,
    second.stopPrice.trans first.stopPrice,second.conditions.trans first.conditions,second.orderQty.trans first.orderQty,
    second.level.trans first.level⟩

theorem sameTerms_fill (o : SimpleOrder) (q c : Nat) : SameTerms o (o.fill q c) := ⟨by simp,by simp,by simp,by simp,by simp,by simp,by simp⟩

theorem SameTerms.allOrNone (same : SameTerms o o') : o'.allOrNone = o.allOrNone := by
  simp [SimpleOrder.allOrNone,same.conditions]

theorem SameTerms.immediateOrCancel (same : SameTerms o o') : o'.immediateOrCancel = o.immediateOrCancel := by
  simp [SimpleOrder.immediateOrCancel,same.conditions]

theorem SameTerms.crosses_taker (same : SameTerms o o') (maker : SimpleOrder) : crosses maker o' = crosses maker o := by
  simp [crosses,same.price,same.isBuy]

theorem SameTerms.crosses_maker (same : SameTerms o o') (inc : SimpleOrder) : crosses o' inc = crosses o inc := by
  simp [crosses,same.price]

theorem SameTerms.key (same : SameTerms o o') (t : TreeName) : t.key o' = t.key o := by
  cases t <;> simp [TreeName.key,same.price,same.stopPrice]

end SimpleOrder

namespace Matching
variable {inc inc' maker : SimpleOrder} {makers rest : List SimpleOrder}

/-! ## The allotment -/

/-- How much of each maker an order in need of some quantity takes. -/
def allot (inc : SimpleOrder) : Nat → List SimpleOrder → List (SimpleOrder × Option Nat)
  | _, [] => []
  | need, maker :: rest =>
    if need = 0 ∨ crosses maker inc = false then (maker :: rest).map fun o => (o,none)
    else if maker.allOrNone ∧ need < maker.openQty then (maker,none) :: allot inc need rest
    else (maker,some (min need maker.openQty)) :: allot inc (need - min need maker.openQty) rest

/-- The quantities that are taken. -/
def quantities (takes : List (SimpleOrder × Option Nat)) : List Nat := takes.filterMap Prod.snd

def total (takes : List (SimpleOrder × Option Nat)) : Nat := (quantities takes).sum

@[simp] theorem total_nil : total [] = 0 := rfl
@[simp] theorem total_none (m : SimpleOrder) (takes : List (SimpleOrder × Option Nat)) : total ((m,none) :: takes) = total takes := rfl
@[simp] theorem total_some (m : SimpleOrder) (q : Nat) (takes : List (SimpleOrder × Option Nat)) :
    total ((m,some q) :: takes) = q + total takes := by simp [total,quantities]
@[simp] theorem total_untouched (makers : List SimpleOrder) : total (makers.map fun o => (o,none)) = 0 := by
  simp [total,quantities]

theorem le_total {m : SimpleOrder × Option Nat} {q : Nat} {takes : List (SimpleOrder × Option Nat)} (member : m ∈ takes)
    (taken : m.2 = some q) : q ≤ total takes :=
  List.single_le_sum (fun _ _ => Nat.zero_le _) q (List.mem_filterMap.mpr ⟨m,member,taken⟩)

theorem allot_congr (same : inc.SameTerms inc') (makers : List SimpleOrder) : ∀ need, allot inc' need makers = allot inc need makers := by
  induction makers with
  | nil => intro need; rfl
  | cons maker rest ih =>
    intro need
    simp only [allot,same.crosses_taker,ih]

theorem allot_makers (inc : SimpleOrder) (makers : List SimpleOrder) : ∀ need, (allot inc need makers).map Prod.fst = makers := by
  induction makers with
  | nil => intro need; rfl
  | cons maker rest ih =>
    intro need
    unfold allot
    split_ifs
    · simp [Function.comp_def]
    · simp [ih]
    · simp [ih]

theorem total_allot_le (inc : SimpleOrder) (makers : List SimpleOrder) : ∀ need, total (allot inc need makers) ≤ need := by
  induction makers with
  | nil => intro need; exact Nat.zero_le _
  | cons maker rest ih =>
    intro need
    unfold allot
    split_ifs
    · rw [total_untouched]
      exact Nat.zero_le _
    · exact ih need
    · have rest := ih (need - min need maker.openQty)
      rw [total_some]
      omega

/-! ## Carrying out an allotment -/

theorem commit_untouched (inc : SimpleOrder) (makers : List SimpleOrder) : commit inc (makers.map fun o => (o,none)) = ⟨inc,makers,[]⟩ := by
  induction makers with
  | nil => rfl
  | cons maker rest ih =>
    rw [List.map_cons,commit,ih]
    rfl

theorem regular_eq (makers : List SimpleOrder) : ∀ {inc : SimpleOrder}, inc.Sized →
    regular inc makers = commit inc (allot inc inc.openQty makers) := by
  induction makers with
  | nil => intro inc _; rfl
  | cons maker rest ih =>
    intro inc sized
    by_cases stop : inc.openQty = 0 ∨ crosses maker inc = false
    · rw [regular_stop rest stop,allot,if_pos stop,commit_untouched]
    · have needs : inc.openQty ≠ 0 := fun done => stop (.inl done)
      have crossed : crosses maker inc := by simpa using fun apart => stop (.inr apart)
      by_cases skipped : maker.allOrNone ∧ inc.openQty < maker.openQty
      · rw [regular_skip rest needs crossed skipped.1 skipped.2,allot,if_neg stop,if_pos skipped,commit,ih sized]
      · have fits : maker.allOrNone → maker.openQty ≤ inc.openQty :=
          fun aon => Nat.le_of_not_lt fun larger => skipped ⟨aon,larger⟩
        have taken := sized.openQty_fill (c := Market.cost maker (min inc.openQty maker.openQty))
          (Nat.min_le_left inc.openQty maker.openQty)
        rw [regular_take rest needs crossed fits,allot,if_neg stop,if_neg skipped,commit,ih (sized.fill _ _),
          allot_congr (inc.sameTerms_fill _ _),taken]

theorem plan_eq (inc : SimpleOrder) {needed : Nat} (small : needed < 4294967296) (makers : List SimpleOrder) : ∀ sofar ≤ needed,
    plan inc needed makers sofar = (allot inc (needed - sofar) makers,sofar + total (allot inc (needed - sofar) makers)) := by
  induction makers with
  | nil => intro sofar _; rfl
  | cons maker rest ih =>
    intro sofar le
    have inRange : ∀ q, q ≤ needed - sofar → toU32 ((sofar : Int) + (q : Int)) = sofar + q := by
      intro q fits
      have small' : sofar + q < 4294967296 := by omega
      exact_mod_cast SimpleOrder.toU32_of_lt small'
    by_cases stop : needed - sofar = 0 ∨ crosses maker inc = false
    · have stop' : sofar ≥ needed ∨ (!crosses maker inc) = true := by
        cases stop with
        | inl done => exact .inl (by omega)
        | inr apart => exact .inr (by simp [apart])
      rw [plan,if_pos stop',allot,if_pos stop,total_untouched,Nat.add_zero]
    · have goes : ¬ (sofar ≥ needed ∨ (!crosses maker inc) = true) := by
        rintro (done | apart)
        · exact stop (.inl (by omega))
        · exact stop (.inr (by simpa using apart))
      rw [plan,if_neg goes,allot,if_neg stop]
      by_cases aon : maker.allOrNone
      · by_cases fits : maker.openQty ≤ needed - sofar
        · have notSkipped : ¬ (maker.allOrNone ∧ needed - sofar < maker.openQty) := fun skipped => by omega
          rw [if_pos aon,if_pos fits,if_neg notSkipped,inRange _ fits,ih _ (by omega),Nat.min_eq_right fits,Nat.sub_add_eq,
            total_some,Nat.add_assoc]
        · have skipped : maker.allOrNone ∧ needed - sofar < maker.openQty := ⟨aon,by omega⟩
          rw [if_pos aon,if_neg fits,if_pos skipped,ih sofar le,total_none]
      · have notSkipped : ¬ (maker.allOrNone ∧ needed - sofar < maker.openQty) := fun skipped => aon skipped.1
        have fits : min maker.openQty (needed - sofar) ≤ needed - sofar := Nat.min_le_right _ _
        rw [if_neg aon,if_neg notSkipped,Nat.min_comm (needed - sofar)]
        simp only [inRange _ fits]
        rw [ih _ (by omega),Nat.sub_add_eq,total_some,Nat.add_assoc]

/-- What an incoming order takes: an all-or-none order takes nothing if it cannot be filled. -/
def takes (inc : SimpleOrder) (makers : List SimpleOrder) : List (SimpleOrder × Option Nat) :=
  if inc.allOrNone ∧ total (allot inc inc.openQty makers) < inc.openQty then makers.map fun o => (o,none)
  else allot inc inc.openQty makers

theorem takes_makers (inc : SimpleOrder) (makers : List SimpleOrder) : (takes inc makers).map Prod.fst = makers := by
  unfold takes
  split_ifs
  · simp [Function.comp_def]
  · exact allot_makers inc makers _

theorem total_takes_le (inc : SimpleOrder) (makers : List SimpleOrder) : total (takes inc makers) ≤ inc.openQty := by
  unfold takes
  split_ifs
  · simp
  · exact total_allot_le inc makers _

/-- If anything is taken, then nothing stood in the way of the allotment. -/
theorem takes_eq {m : SimpleOrder × Option Nat} (member : m ∈ takes inc makers) (taken : m.2 ≠ none) :
    takes inc makers = allot inc inc.openQty makers := by
  unfold takes at member ⊢
  split_ifs at member ⊢ with short
  · obtain ⟨o,_,rfl⟩ := List.mem_map.mp member
    exact absurd rfl taken
  · rfl

/-- Both ways of matching carry out what the incoming order takes. -/
theorem against_eq (sized : inc.Sized) (makers : List SimpleOrder) : against inc makers = commit inc (takes inc makers) := by
  have small : inc.openQty < 4294967296 := by
    have := sized.openQty
    have := sized.orderQty
    omega
  have planIs := plan_eq inc small makers 0 (Nat.zero_le _)
  rw [Nat.sub_zero,Nat.zero_add] at planIs
  unfold against takes
  by_cases aon : inc.allOrNone
  · rw [if_pos aon,aon]
    simp only [Matching.aon,planIs,true_and]
    split_ifs
    · rw [commit_untouched]
    · rfl
  · rw [if_neg aon,if_neg fun both => aon both.1,regular_eq makers sized]

/-! ## What an allotment says of a maker -/

section
variable {m : SimpleOrder × Option Nat} {need q : Nat}

theorem allot_done (inc : SimpleOrder) (makers : List SimpleOrder) : allot inc 0 makers = makers.map fun o => (o,none) := by
  cases makers <;> simp [allot]

/-- A maker of which something is taken. -/
theorem allot_taken (makers : List SimpleOrder) : ∀ need, m ∈ allot inc need makers → m.2 = some q →
    crosses m.1 inc ∧ q ≤ m.1.openQty ∧ (m.1.allOrNone → q = m.1.openQty) ∧ (0 < m.1.openQty → 0 < q) := by
  induction makers with
  | nil => intro need member; simp [allot] at member
  | cons maker rest ih =>
    intro need member taken
    unfold allot at member
    split_ifs at member with stop skipped
    · obtain ⟨o,_,rfl⟩ := List.mem_map.mp member
      simp at taken
    · rcases List.mem_cons.mp member with rfl | inRest
      · simp at taken
      · exact ih need inRest taken
    · rcases List.mem_cons.mp member with rfl | inRest
      · obtain rfl := Option.some.inj taken
        have needs : need ≠ 0 := fun done => stop (.inl done)
        have crossed : crosses maker inc := by simpa using fun apart => stop (.inr apart)
        refine ⟨crossed,Nat.min_le_right _ _,?_,?_⟩
        · intro aon
          have fits : ¬ need < maker.openQty := fun larger => skipped ⟨aon,larger⟩
          exact Nat.min_eq_right (by omega)
        · simp only
          omega
      · exact ih _ inRest taken

/-- Behind the makers `L` the rest is allotted to the need that is left, if anything is. -/
theorem allot_split (L : List (SimpleOrder × Option Nat)) {R : List (SimpleOrder × Option Nat)} (goesOn : ∃ y ∈ m :: R, y.2 ≠ none) :
    ∀ {need makers}, allot inc need makers = L ++ m :: R → m :: R = allot inc (need - total L) (m.1 :: R.map Prod.fst) := by
  induction L with
  | nil =>
    intro need makers split
    have makersIs := allot_makers inc makers need
    rw [split] at makersIs
    rw [total_nil,Nat.sub_zero,show m.1 :: R.map Prod.fst = makers from makersIs,split,List.nil_append]
  | cons y L ih =>
    intro need makers split
    cases makers with
    | nil =>
      simp [allot] at split
    | cons maker rest =>
      unfold allot at split
      split_ifs at split with stop skipped
      · obtain ⟨x,member,taken⟩ := goesOn
        have inAll : x ∈ y :: L ++ m :: R := by
          rw [List.mem_append]
          exact .inr member
        rw [← split] at inAll
        obtain ⟨o,_,rfl⟩ := List.mem_map.mp inAll
        exact absurd rfl taken
      · obtain ⟨rfl,later⟩ := List.cons_eq_cons.mp split
        rw [total_none]
        exact ih later
      · obtain ⟨rfl,later⟩ := List.cons_eq_cons.mp split
        rw [total_some,Nat.sub_add_eq]
        have taken := ih later
        cases Nat.le_total need maker.openQty with
        | inl le => rwa [Nat.min_eq_left le] at taken ⊢
        | inr le => rwa [Nat.min_eq_right le] at taken ⊢

/-- A maker is filled before a later one trades. -/
theorem allot_full {makers : List SimpleOrder} {L R : List (SimpleOrder × Option Nat)}
    (split : allot inc need makers = L ++ (maker,some q) :: R)
    (later : ∃ y ∈ R, y.2 ≠ none) : q = maker.openQty := by
  have rest := allot_split L ⟨(maker,some q),by simp,by simp⟩ split
  unfold allot at rest
  split_ifs at rest with stop skipped
  · simp at rest
  · simp at rest
  · obtain ⟨same,restIs⟩ := List.cons_eq_cons.mp rest
    obtain rfl : q = min (need - total L) maker.openQty := by simpa using same
    cases Nat.lt_or_ge (need - total L) maker.openQty with
    | inl lt =>
      obtain ⟨y,member,taken⟩ := later
      rw [restIs,Nat.min_eq_left (Nat.le_of_lt lt),Nat.sub_self,allot_done] at member
      obtain ⟨o,_,rfl⟩ := List.mem_map.mp member
      exact absurd rfl taken
    | inr ge => exact Nat.min_eq_right ge

/-- A maker that is passed over by a trade is all-or-none and too large. -/
theorem allot_passed {makers : List SimpleOrder} {L R : List (SimpleOrder × Option Nat)}
    (split : allot inc need makers = L ++ (maker,none) :: R)
    (later : ∃ y ∈ R, y.2 ≠ none) : maker.allOrNone ∧ need - total L < maker.openQty := by
  obtain ⟨y,member,taken⟩ := later
  have rest := allot_split L ⟨y,by simp [member],taken⟩ split
  unfold allot at rest
  split_ifs at rest with stop skipped
  · have inRest : y ∈ (maker,none) :: R := by simp [member]
    rw [rest] at inRest
    obtain ⟨o,_,rfl⟩ := List.mem_map.mp inRest
    exact absurd rfl taken
  · exact ⟨by simpa using skipped.1,skipped.2⟩
  · simp at rest

/-- Behind a maker that does not cross there is none that does. -/
def BestFirst (inc : SimpleOrder) (makers : List SimpleOrder) : Prop := makers.Pairwise fun m m' => crosses m' inc → crosses m inc

/-- While there is need left, a maker that stays as it is does not cross or is all-or-none and too large. -/
theorem allot_left (makers : List SimpleOrder) : ∀ need, BestFirst inc makers → total (allot inc need makers) < need →
    ∀ m ∈ allot inc need makers, crosses m.1 inc → m.2 = some m.1.openQty ∨
      m.2 = none ∧ m.1.allOrNone ∧ need - total (allot inc need makers) < m.1.openQty := by
  induction makers with
  | nil => intro need _ _ m member; simp [allot] at member
  | cons maker rest ih =>
    intro need sorted short m member crossed
    obtain ⟨before,sorted'⟩ := List.pairwise_cons.mp sorted
    unfold allot at member short ⊢
    split_ifs at member short ⊢ with stop skipped
    · cases stop with
      | inl done => omega
      | inr apart =>
        obtain ⟨o,inMakers,rfl⟩ := List.mem_map.mp member
        rcases List.mem_cons.mp inMakers with rfl | inRest
        · rw [apart] at crossed
          exact absurd crossed (by simp)
        · rw [before o inRest crossed] at apart
          exact absurd apart (by simp)
    · rw [total_none] at short ⊢
      rcases List.mem_cons.mp member with rfl | inRest
      · exact .inr ⟨rfl,skipped.1,Nat.lt_of_le_of_lt (Nat.sub_le ..) skipped.2⟩
      · exact ih need sorted' short m inRest crossed
    · rw [total_some] at short ⊢
      rcases List.mem_cons.mp member with rfl | inRest
      · left
        rw [Nat.min_eq_right (by omega)]
      · rw [Nat.sub_add_eq]
        exact ih _ sorted' (by omega) m inRest crossed

/-- The open quantity of the makers that cross. -/
def crossing (inc : SimpleOrder) (makers : List SimpleOrder) : Nat :=
  ((makers.filter fun m => crosses m inc).map SimpleOrder.openQty).sum

/-- Without all-or-none makers as much is taken as there is. -/
theorem total_allot (makers : List SimpleOrder) : ∀ need, BestFirst inc makers →
    (∀ m ∈ makers, crosses m inc → m.allOrNone = false) → total (allot inc need makers) = min need (crossing inc makers) := by
  induction makers with
  | nil => intro need _ _; simp [allot,crossing]
  | cons maker rest ih =>
    intro need sorted regular
    obtain ⟨before,sorted'⟩ := List.pairwise_cons.mp sorted
    have rest' := fun need => ih need sorted' fun m member => regular m (by simp [member])
    by_cases crossed : crosses maker inc
    · have here : crossing inc (maker :: rest) = maker.openQty + crossing inc rest := by simp [crossing,crossed]
      have notAon := regular maker (by simp) crossed
      unfold allot
      split_ifs with stop skipped
      · rcases stop with rfl | apart
        · simp
        · rw [crossed] at apart
          exact absurd apart (by simp)
      · simp [notAon] at skipped
      · rw [total_some,rest',here]
        omega
    · have none : crossing inc (maker :: rest) = 0 := by
        have apart : (maker :: rest).filter (fun m => crosses m inc) = [] := by
          rw [List.filter_eq_nil_iff]
          intro m member isCrossing
          rcases List.mem_cons.mp member with rfl | inRest
          · exact crossed isCrossing
          · exact crossed (before m inRest isCrossing)
        simp [crossing,apart]
      have apart : crosses maker inc = false := by simpa using crossed
      rw [allot,if_pos (.inr apart),total_untouched,none,Nat.min_zero]

end

/-! ## What is left after it -/

section
variable {takes : List (SimpleOrder × Option Nat)}

/-- What is left of a maker. -/
def left : SimpleOrder × Option Nat → List SimpleOrder
  | (maker,none) => [maker]
  | (maker,some q) => kept (maker.fill q (Market.cost maker q))

/-- A trade with its quantity, or none. -/
def taken : SimpleOrder × Option Nat → Option (SimpleOrder × Nat)
  | (_,none) => none
  | (maker,some q) => some (maker,q)

@[simp] theorem left_none (maker : SimpleOrder) : left (maker,none) = [maker] := rfl
@[simp] theorem left_some (maker : SimpleOrder) (q : Nat) :
    left (maker,some q) = kept (maker.fill q (Market.cost maker q)) := rfl
@[simp] theorem taken_none (maker : SimpleOrder) : taken (maker,none) = none := rfl
@[simp] theorem taken_some (maker : SimpleOrder) (q : Nat) : taken (maker,some q) = some (maker,q) := rfl

theorem commit_makers (takes : List (SimpleOrder × Option Nat)) : ∀ inc, (commit inc takes).makers = takes.flatMap left := by
  induction takes with
  | nil => intro inc; rfl
  | cons m takes ih =>
    intro inc
    obtain ⟨maker,_ | q⟩ := m
    · simp [commit,pass,ih]
    · simp [commit,trade,ih]

theorem commit_trades (takes : List (SimpleOrder × Option Nat)) : ∀ inc,
    (commit inc takes).trades.map (fun t => (t.maker,t.qty)) = takes.filterMap taken := by
  induction takes with
  | nil => intro inc; rfl
  | cons m takes ih =>
    intro inc
    obtain ⟨maker,_ | q⟩ := m
    · rw [List.filterMap_cons_none (taken_none maker)]
      exact ih inc
    · rw [List.filterMap_cons_some (taken_some maker q),← ih]
      rfl

theorem mem_taken {m : SimpleOrder} {q : Nat} : (m,q) ∈ takes.filterMap taken ↔ (m,some q) ∈ takes := by
  rw [List.mem_filterMap]
  constructor
  · rintro ⟨⟨maker,_ | quantity⟩,member,isTaken⟩
    · simp at isTaken
    · obtain ⟨rfl,rfl⟩ : maker = m ∧ quantity = q := by simpa using isTaken
      exact member
  · exact fun member => ⟨_,member,rfl⟩

theorem total_eq (takes : List (SimpleOrder × Option Nat)) : total takes = ((takes.filterMap taken).map Prod.snd).sum := by
  induction takes with
  | nil => rfl
  | cons m takes ih =>
    obtain ⟨maker,_ | q⟩ := m
    · rw [total_none,List.filterMap_cons_none (taken_none maker),ih]
    · rw [total_some,List.filterMap_cons_some (taken_some maker q),List.map_cons,List.sum_cons,ih]

/-- The makers that trade, in order. -/
theorem taken_sublist (takes : List (SimpleOrder × Option Nat)) : ((takes.filterMap taken).map Prod.fst).Sublist (takes.map Prod.fst) := by
  induction takes with
  | nil => exact .slnil
  | cons m takes ih =>
    obtain ⟨maker,_ | q⟩ := m
    · rw [List.filterMap_cons_none (taken_none maker)]
      exact ih.cons _
    · rw [List.filterMap_cons_some (taken_some maker q)]
      exact ih.cons_cons _

theorem commit_inc (takes : List (SimpleOrder × Option Nat)) : ∀ {inc : SimpleOrder}, inc.Sized → total takes ≤ inc.openQty →
    inc.SameTerms (commit inc takes).inc ∧ (commit inc takes).inc.Sized ∧
      (commit inc takes).inc.openQty = inc.openQty - total takes := by
  induction takes with
  | nil => intro inc sized _; exact ⟨.refl inc,sized,rfl⟩
  | cons m takes ih =>
    intro inc sized enough
    obtain ⟨maker,_ | q⟩ := m
    · exact ih sized enough
    · rw [total_some] at enough
      have open' := sized.openQty_fill (q := q) (c := Market.cost maker q) (by omega)
      obtain ⟨same,sized',left⟩ := ih (sized.fill q (Market.cost maker q)) (by omega)
      refine ⟨(inc.sameTerms_fill _ _).trans same,sized',?_⟩
      show (commit _ takes).inc.openQty = _
      rw [left,open',total_some]
      omega

/-- The taker of each trade, just before it. -/
theorem commit_takers (takes : List (SimpleOrder × Option Nat)) : ∀ {inc : SimpleOrder}, inc.Sized → total takes ≤ inc.openQty →
    ∀ t ∈ (commit inc takes).trades, inc.SameTerms t.taker ∧ t.qty ≤ t.taker.openQty := by
  induction takes with
  | nil => intro inc _ _ t member; simp [commit] at member
  | cons m takes ih =>
    intro inc sized enough t member
    obtain ⟨maker,_ | q⟩ := m
    · exact ih sized enough t member
    · rw [total_some] at enough
      rcases List.mem_cons.mp member with rfl | later
      · exact ⟨.refl inc,by simp only; omega⟩
      · have open' := sized.openQty_fill (q := q) (c := Market.cost maker q) (by omega)
        obtain ⟨same,fits⟩ := ih (sized.fill q (Market.cost maker q)) (by omega) t later
        exact ⟨(inc.sameTerms_fill _ _).trans same,fits⟩

theorem commit_filled (takes : List (SimpleOrder × Option Nat)) : ∀ {inc : SimpleOrder}, inc.Sized → total takes ≤ inc.openQty →
    (commit inc takes).inc.filledQty = inc.filledQty + total takes := by
  induction takes with
  | nil => intro inc _ _; rfl
  | cons m takes ih =>
    intro inc sized enough
    obtain ⟨maker,_ | q⟩ := m
    · exact ih sized enough
    · rw [total_some] at enough ⊢
      have opened := sized.openQty_fill (q := q) (c := Market.cost maker q) (by omega)
      have filled := sized.filledQty_fill (q := q) (c := Market.cost maker q) (by omega)
      show (commit (inc.fill q (Market.cost maker q)) takes).inc.filledQty = _
      rw [ih (sized.fill q (Market.cost maker q)) (by omega),filled]
      omega

/-- What the order with an id gives as a taker. -/
theorem commit_filled_taker (takes : List (SimpleOrder × Option Nat)) (id : Nat) : ∀ inc : SimpleOrder,
    ((commit inc takes).trades.map fun t => if t.taker.orderId = id then t.qty else 0).sum =
      if inc.orderId = id then total takes else 0 := by
  induction takes with
  | nil => intro inc; simp [commit]
  | cons m takes ih =>
    intro inc
    obtain ⟨maker,_ | q⟩ := m
    · exact ih inc
    · have rest := ih (inc.fill q (Market.cost maker q))
      rw [SimpleOrder.fill_orderId] at rest
      show ((Trade.mk inc maker q :: (commit (inc.fill q (Market.cost maker q)) takes).trades).map _).sum = _
      rw [List.map_cons,List.sum_cons,rest,total_some]
      split_ifs <;> rfl

/-- What is taken of the maker with an id. -/
def takenFrom (takes : List (SimpleOrder × Option Nat)) (id : Nat) : Nat :=
  (takes.map fun m => if m.1.orderId = id then m.2.getD 0 else 0).sum

theorem commit_filled_maker (takes : List (SimpleOrder × Option Nat)) (id : Nat) : ∀ inc : SimpleOrder,
    ((commit inc takes).trades.map fun t => if t.maker.orderId = id then t.qty else 0).sum = takenFrom takes id := by
  induction takes with
  | nil => intro inc; rfl
  | cons m takes ih =>
    intro inc
    obtain ⟨maker,_ | q⟩ := m
    · apply (ih inc).trans
      simp [takenFrom]
    · show ((Trade.mk inc maker q :: (commit (inc.fill q (Market.cost maker q)) takes).trades).map _).sum = _
      rw [List.map_cons,List.sum_cons,ih]
      simp [takenFrom]

theorem takenFrom_absent {id : Nat} (absent : ∀ m ∈ takes, m.1.orderId ≠ id) : takenFrom takes id = 0 := by
  apply List.sum_eq_zero_iff_forall_eq_nat.mpr
  intro q member
  obtain ⟨m,inTakes,rfl⟩ := List.mem_map.mp member
  exact if_neg (absent m inTakes)

theorem takenFrom_mem {m : SimpleOrder × Option Nat} (nodup : (takes.map fun m => m.1.orderId).Nodup) (member : m ∈ takes) :
    takenFrom takes m.1.orderId = m.2.getD 0 := by
  obtain ⟨L,R,rfl⟩ := List.append_of_mem member
  rw [List.map_append,List.map_cons,List.nodup_middle,List.nodup_cons,← List.map_append] at nodup
  have apart : ∀ x ∈ L ++ R, x.1.orderId ≠ m.1.orderId := fun x inRest same => nodup.1 (List.mem_map.mpr ⟨x,inRest,same⟩)
  have before := takenFrom_absent fun x inL => apart x (List.mem_append_left _ inL)
  have after := takenFrom_absent fun x inR => apart x (List.mem_append_right _ inR)
  unfold takenFrom at before after ⊢
  rw [List.map_append,List.sum_append,before,List.map_cons,List.sum_cons,after,if_pos rfl]
  omega

theorem mem_left {m : SimpleOrder × Option Nat} {o : SimpleOrder} (member : o ∈ left m) :
    o = m.1 ∨ ∃ q, m.2 = some q ∧ o = m.1.fill q (Market.cost m.1 q) ∧ o.openQty ≠ 0 := by
  obtain ⟨maker,_ | q⟩ := m
  · exact .inl (List.mem_singleton.mp member)
  · right
    rw [left_some,kept] at member
    split_ifs at member with filled
    · simp at member
    · obtain rfl := List.mem_singleton.mp member
      exact ⟨q,rfl,rfl,filled⟩

/-- The makers that are left, in what a fill does not change. -/
theorem left_map {β : Type} (f : SimpleOrder → β) (stable : ∀ o q c, f (o.fill q c) = f o) (takes : List (SimpleOrder × Option Nat)) :
    ((takes.flatMap left).map f).Sublist (takes.map fun m => f m.1) := by
  induction takes with
  | nil => exact .slnil
  | cons m takes ih =>
    rw [List.flatMap_cons,List.map_append,List.map_cons]
    have here : ((left m).map f).Sublist [f m.1] := by
      obtain ⟨maker,_ | q⟩ := m
      · exact .refl _
      · rw [left_some,kept]
        split_ifs
        · exact List.nil_sublist _
        · simp [stable]
    exact here.append ih

end

end Matching

end BaboEngine
