import BaboEngine.Sides

/-!
# The passes over one side

The loops of the matching book over a tree are the recursions of the abstract book
over the list of its orders. In each proof the entries `D` are behind the iterator and
the entries `E` before it.
-/

namespace BaboEngine

namespace TreeState
variable {N : Capacity} {s : TreeState N} {t : TreeName} {exact : Prop} {ch : List Segment} {bl : List Block}

theorem TreeStep.refl (s : TreeState N) (ch : List Segment) (bl : List Block) : TreeStep s s ch ch bl bl :=
  ⟨framed_same fun _ _ => rfl,framed_same fun _ _ => rfl⟩

/-- The outcome of a matching pass over the entries behind `D`. -/
def Passed (t : TreeName) (exact : Prop) (s : TreeState N) (ch : List Segment) (bl : List Block) (k : Market)
    (D : List (OrderLoc × SimpleOrder)) (r : Matching) (result : Option (TreeState N × Market × SimpleOrder)) : Prop :=
  ∃ s' ch' bl' inc', result = some (s',k.tradeAll r.trades,inc') ∧ inc'.bare = r.inc ∧ Side t exact s' ch' bl' ∧
    bareOrders (entries bl') = bareOrders D ++ r.makers ∧ TreeStep s s' ch ch' bl bl'

/-! ## Regular orders -/

theorem Side.regularLoop (rounds : Nat) : ∀ {s : TreeState N} {ch : List Segment} {bl : List Block} (k : Market)
    (inc : SimpleOrder) (D E : List (OrderLoc × SimpleOrder)), Side t exact s ch bl → entries bl = D ++ E → E.length < rounds →
      Passed t exact s ch bl k D (.regular inc.bare (bareOrders E))
        (s.matchRegularLoop t.type rounds k inc (E.head?.map Prod.fst)) := by
  induction rounds with
  | zero => intro _ _ _ _ _ _ _ _ _ enough; omega
  | succ rounds ih =>
    intro s ch bl k inc D E side split enough
    cases E with
    | nil =>
      exact ⟨s,ch,bl,inc,rfl,rfl,side,by simp [split,Matching.regular],.refl s ch bl⟩
    | cons e E =>
      obtain ⟨l,maker⟩ := e
      obtain ⟨read,next⟩ := side.next split
      by_cases done : inc.openQty = 0
      · refine ⟨s,ch,bl,inc,?_,?_,side,?_,.refl s ch bl⟩ <;>
          simp [TreeState.matchRegularLoop,Matching.regular,done,Market.tradeAll,split]
      · by_cases crossed : crosses maker inc
        · have shorter : E.length < rounds := by simpa using enough
          by_cases skipped : maker.allOrNone ∧ inc.openQty < maker.openQty
          · obtain ⟨aon,larger⟩ := skipped
            obtain ⟨s',ch',bl',inc',run,isInc,side',ordersIs,treeStep⟩ :=
              ih k inc (D ++ [(l,maker)]) E side (by simp [split]) shorter
            have passes : Matching.regular inc.bare (maker.bare :: bareOrders E) =
                (Matching.regular inc.bare (bareOrders E)).pass maker.bare := Matching.regular_skip _ done crossed aon larger
            rw [bareOrders_cons,passes]
            refine ⟨s',ch',bl',inc',?_,isInc,side',by simpa [Matching.pass] using ordersIs,treeStep⟩
            have flag : (maker.allOrNone && decide (maker.openQty > inc.openQty)) = true := by simp [aon,larger]
            simp only [List.head?_cons,Option.map_some,TreeState.matchRegularLoop,done,read,next,crossed,flag,run,
              Bool.not_true,Bool.false_eq_true,Option.bind_eq_bind,Option.bind_some,↓reduceIte]
            rfl
          · have fits : maker.allOrNone → maker.openQty ≤ inc.openQty := fun aon => Nat.le_of_not_lt fun larger => skipped ⟨aon,larger⟩
            obtain ⟨s₁,s₂,ch₂,bl₂,K,traded,erased,side₂,entries₂,keptIs,step₂⟩ :=
              side.trade split (q := min inc.openQty maker.openQty) (Nat.min_le_right _ _) k inc
            obtain ⟨s',ch',bl',inc',run,isInc,side',ordersIs,treeStep⟩ :=
              ih (k.trade ⟨inc.bare,maker.bare,min inc.openQty maker.openQty⟩)
                (inc.fill (min inc.openQty maker.openQty) (Market.cost maker (min inc.openQty maker.openQty))) (D ++ K) E side₂
                (by rw [entries₂]) shorter
            rw [SimpleOrder.bare_fill] at run isInc ordersIs
            have trades : Matching.regular inc.bare (maker.bare :: bareOrders E) = (Matching.regular
                (inc.bare.fill (min inc.openQty maker.openQty) (Market.cost maker (min inc.openQty maker.openQty)))
                (bareOrders E)).trade inc.bare maker.bare (min inc.openQty maker.openQty) :=
              Matching.regular_take _ done crossed fits
            rw [bareOrders_cons,trades]
            refine ⟨s',ch',bl',inc',?_,isInc,side',?_,step₂.trans treeStep⟩
            · have flag : (maker.allOrNone && decide (maker.openQty > inc.openQty)) = false := by
                cases aon : maker.allOrNone with
                | false => rfl
                | true => simpa using fits aon
              simp only [List.head?_cons,Option.map_some,TreeState.matchRegularLoop,done,read,next,crossed,flag,traded,erased,
                run,Bool.not_true,Bool.false_eq_true,Option.bind_eq_bind,Option.bind_some,↓reduceIte]
              rfl
            · rw [ordersIs,bareOrders_append,keptIs,List.append_assoc]
              rfl
        · have apart : crosses maker inc = false := by simpa using crossed
          have apart' : crosses maker.bare inc.bare = false := apart
          refine ⟨s,ch,bl,inc,?_,?_,side,?_,.refl s ch bl⟩ <;>
            simp [TreeState.matchRegularLoop,Matching.regular,done,read,apart,apart',Market.tradeAll,split]

theorem Side.regular (side : Side t exact s ch bl) (k : Market) (inc : SimpleOrder) :
    Passed t exact s ch bl k [] (.regular inc.bare (bareOrders (entries bl))) (s.matchRegularIncoming t.type k inc) := by
  have run := side.regularLoop s.walkBound k inc [] (entries bl) rfl side.length_lt
  simp only [TreeState.matchRegularIncoming,side.ordersBegin,Option.bind_eq_bind,Option.bind_some]
  exact run

/-! ## All-or-none orders -/

/-- What the plan says of each maker, as the list of the source. -/
def planned (takes : List (SimpleOrder × Option Nat)) : List (Nat × Nat) :=
  takes.filterMap fun m => m.2.map fun q => (m.1.orderId,q)

theorem Stored.planLoop (stored : Stored s ch bl) (inc : SimpleOrder) (needed : Nat) (rounds : Nat) :
    ∀ (D E : List (OrderLoc × SimpleOrder)) (sofar : Nat), entries bl = D ++ E → E.length < rounds →
      s.planLoop inc needed rounds (E.head?.map Prod.fst) sofar =
        some (planned (Matching.plan inc.bare needed (bareOrders E) sofar).1,
          (Matching.plan inc.bare needed (bareOrders E) sofar).2) := by
  induction rounds with
  | zero => intro _ _ _ _ enough; omega
  | succ rounds ih =>
    intro D E sofar split enough
    cases E with
    | nil =>
      rfl
    | cons e E =>
      obtain ⟨l,maker⟩ := e
      obtain ⟨read,next⟩ := stored.next split
      have shorter : E.length < rounds := by simpa using enough
      have rest := fun sofar => ih (D ++ [(l,maker)]) E sofar (by simp [split]) shorter
      have none : ∀ os : List SimpleOrder, planned (os.map fun o => (o,none)) = [] := by
        intro os
        simp [planned]
      by_cases done : sofar ≥ needed
      · simp only [List.head?_cons,Option.map_some,TreeState.planLoop,done,Matching.plan,bareOrders_cons,true_or,none,↓reduceIte]
      · by_cases crossed : crosses maker inc
        · have crossed' : crosses maker.bare inc.bare := crossed
          by_cases aon : maker.allOrNone
          · by_cases fits : maker.openQty ≤ needed - sofar <;>
              simp only [List.head?_cons,Option.map_some,TreeState.planLoop,done,Matching.plan,bareOrders_cons,crossed,crossed',
                SimpleOrder.bare_openQty,SimpleOrder.bare_allOrNone,aon,fits,read,next,rest,Bool.not_true,Bool.false_eq_true,
                or_self,Option.bind_eq_bind,Option.bind_some,↓reduceIte,planned,List.filterMap_cons,Option.map_none,
                SimpleOrder.bare_orderId]
          · simp only [List.head?_cons,Option.map_some,TreeState.planLoop,done,Matching.plan,bareOrders_cons,crossed,crossed',
              SimpleOrder.bare_openQty,SimpleOrder.bare_allOrNone,aon,read,next,rest,Bool.not_true,Bool.false_eq_true,
              or_self,Option.bind_eq_bind,Option.bind_some,↓reduceIte,planned,List.filterMap_cons,SimpleOrder.bare_orderId]
        · have apart : crosses maker inc = false := by simpa using crossed
          have apart' : crosses maker.bare inc.bare = false := apart
          simp only [List.head?_cons,Option.map_some,TreeState.planLoop,done,read,apart,apart',Matching.plan,bareOrders_cons,
            Bool.not_false,or_true,none,Option.bind_eq_bind,Option.bind_some,↓reduceIte]

end TreeState

/-- The plan speaks of every maker, and takes no more of one than there is. -/
theorem Matching.plan_takes (inc : SimpleOrder) (needed : Nat) (makers : List SimpleOrder) : ∀ sofar,
    ((plan inc needed makers sofar).1.map Prod.fst = makers) ∧
      ∀ m ∈ (plan inc needed makers sofar).1, ∀ q, m.2 = some q → q ≤ m.1.openQty := by
  induction makers with
  | nil => intro sofar; simp [plan]
  | cons maker rest ih =>
    intro sofar
    have untouched : ((maker :: rest).map fun o => (o,(none : Option Nat))).map Prod.fst = maker :: rest := by
      simp [Function.comp_def]
    unfold plan
    split_ifs
    · exact ⟨untouched,by simp⟩
    · obtain ⟨all,bounded⟩ := ih (toU32 (sofar + maker.openQty))
      exact ⟨by simp [all],by simpa using bounded⟩
    · obtain ⟨all,bounded⟩ := ih sofar
      exact ⟨by simp [all],by simpa using bounded⟩
    · obtain ⟨all,bounded⟩ := ih (toU32 (sofar + (min maker.openQty (needed - sofar) : Nat)))
      refine ⟨congrArg (maker :: ·) all,List.forall_mem_cons.mpr ⟨?_,bounded⟩⟩
      rintro q ⟨⟩
      exact Nat.min_le_left _ _

namespace TreeState
variable {N : Capacity} {s : TreeState N} {t : TreeName} {exact : Prop} {ch : List Segment} {bl : List Block}

theorem Side.commitPlan (takes : List (SimpleOrder × Option Nat)) : ∀ {s : TreeState N} {ch : List Segment}
    {bl : List Block} (k : Market) (inc : SimpleOrder) (D E : List (OrderLoc × SimpleOrder)), Side t exact s ch bl →
      entries bl = D ++ E → takes.map Prod.fst = bareOrders E → (∀ m ∈ takes, ∀ q, m.2 = some q → q ≤ m.1.openQty) →
      Passed t exact s ch bl k D (.commit inc.bare takes) (s.commitPlan t.type k inc (planned takes)) := by
  induction takes with
  | nil =>
    intro s ch bl k inc D E side split all _
    obtain rfl : E = [] := List.map_eq_nil_iff.mp all.symm
    exact ⟨s,ch,bl,inc,rfl,rfl,side,by simp [split,Matching.commit],.refl s ch bl⟩
  | cons take takes ih =>
    intro s ch bl k inc D E side split all bounded
    cases E with
    | nil =>
      simp at all
    | cons e E =>
      obtain ⟨l,maker⟩ := e
      obtain ⟨_,quantity⟩ := take
      obtain ⟨rfl,others⟩ := List.cons_eq_cons.mp all
      obtain ⟨first,later⟩ := List.forall_mem_cons.mp bounded
      cases quantity with
      | none =>
        obtain ⟨s',ch',bl',inc',run,isInc,side',ordersIs,treeStep⟩ :=
          ih k inc (D ++ [(l,maker)]) E side (by simp [split]) others later
        exact ⟨s',ch',bl',inc',run,isInc,side',by simpa [Matching.commit,Matching.pass] using ordersIs,treeStep⟩
      | some q =>
        have found := (side.hosted.index maker.orderId l).mpr ⟨maker,by simp [split],rfl⟩
        obtain ⟨s₁,s₂,ch₂,bl₂,K,traded,erased,side₂,entries₂,keptIs,step₂⟩ := side.trade split (first q rfl) k inc
        obtain ⟨s',ch',bl',inc',run,isInc,side',ordersIs,treeStep⟩ := ih (k.trade ⟨inc.bare,maker.bare,q⟩)
          (inc.fill q (Market.cost maker q)) (D ++ K) E side₂ (by rw [entries₂]) others later
        rw [SimpleOrder.bare_fill] at run isInc ordersIs
        refine ⟨s',ch',bl',inc',?_,isInc,side',?_,step₂.trans treeStep⟩
        · have plannedIs : planned ((maker.bare,some q) :: takes) = (maker.orderId,q) :: planned takes := rfl
          rw [plannedIs]
          simp only [TreeState.commitPlan,found,traded,erased,Option.bind_eq_bind,Option.bind_some]
          exact run
        · rw [ordersIs,bareOrders_append,keptIs,List.append_assoc]
          rfl

theorem Side.aon (side : Side t exact s ch bl) (k : Market) (inc : SimpleOrder) :
    Passed t exact s ch bl k [] (.aon inc.bare (bareOrders (entries bl))) (s.matchAonIncoming t.type k inc) := by
  have planIs := side.toStored.planLoop inc inc.openQty s.walkBound [] (entries bl) 0 rfl side.length_lt
  obtain ⟨all,bounded⟩ := Matching.plan_takes inc.bare inc.openQty (bareOrders (entries bl)) 0
  simp only [TreeState.matchAonIncoming,side.ordersBegin,planIs,Option.bind_eq_bind,Option.bind_some]
  by_cases short : (Matching.plan inc.bare inc.openQty (bareOrders (entries bl)) 0).2 < inc.openQty
  · have result : Matching.aon inc.bare (bareOrders (entries bl)) = ⟨inc.bare,bareOrders (entries bl),[]⟩ := if_pos short
    rw [if_pos short,result]
    exact ⟨s,ch,bl,inc,rfl,rfl,side,rfl,.refl s ch bl⟩
  · have result : Matching.aon inc.bare (bareOrders (entries bl)) =
        .commit inc.bare (Matching.plan inc.bare inc.openQty (bareOrders (entries bl)) 0).1 := if_neg short
    rw [if_neg short,result]
    exact side.commitPlan _ k inc [] (entries bl) rfl all bounded

theorem Side.against (side : Side t exact s ch bl) (k : Market) (inc : SimpleOrder) :
    Passed t exact s ch bl k [] (.against inc.bare (bareOrders (entries bl))) (s.matchAgainst t.type k inc) := by
  unfold TreeState.matchAgainst Matching.against
  by_cases aon : inc.allOrNone
  · rw [if_pos aon,SimpleOrder.bare_allOrNone,if_pos aon]
    exact side.aon k inc
  · rw [if_neg aon,SimpleOrder.bare_allOrNone,if_neg aon]
    exact side.regular k inc

/-! ## Stops -/

theorem Side.releaseLoop {due : SimpleOrder → Bool} (dueBare : ∀ o, due o.bare = due o) (rounds : Nat) :
    ∀ {s : TreeState N} {ch : List Segment} {bl : List Block} (E : List (OrderLoc × SimpleOrder)), Side t exact s ch bl →
      entries bl = E → E.length < rounds → ∃ s' ch' bl' fired,
        s.releaseLoop t.type due rounds (E.head?.map Prod.fst) = some (s',fired) ∧ Side t exact s' ch' bl' ∧
        fired.map SimpleOrder.bare = (bareOrders E).takeWhile due ∧ (∀ o ∈ fired, ∃ e ∈ E, e.2 = o) ∧
        bareOrders (entries bl') = (bareOrders E).dropWhile due ∧ TreeStep s s' ch ch' bl bl' := by
  induction rounds with
  | zero => intro _ _ _ _ _ _ enough; omega
  | succ rounds ih =>
    intro s ch bl E side split enough
    cases E with
    | nil =>
      exact ⟨s,ch,bl,[],rfl,side,rfl,by simp,by simp [split],.refl s ch bl⟩
    | cons first E =>
      obtain ⟨l,o⟩ := first
      have split' : entries bl = [] ++ (l,o) :: E := split
      obtain ⟨read,next⟩ := side.next split'
      by_cases isDue : due o
      · have isDue' : due o.bare := by rw [dueBare]; exact isDue
        obtain ⟨s₁,ch₁,bl₁,erased,side₁,entries₁,step₁⟩ := side.erase split'
        obtain ⟨s',ch',bl',fired,run,side',firedIs,member,ordersIs,treeStep⟩ :=
          ih E side₁ (by simpa using entries₁) (by simpa using enough)
        refine ⟨s',ch',bl',o :: fired,?_,side',?_,?_,?_,step₁.trans treeStep⟩
        · simp only [List.head?_cons,Option.map_some,TreeState.releaseLoop,read,next,isDue,erased,run,Bool.not_true,
            Bool.false_eq_true,Option.bind_eq_bind,Option.bind_some,↓reduceIte]
        · rw [List.map_cons,firedIs,bareOrders_cons,List.takeWhile_cons_of_pos isDue']
        · refine List.forall_mem_cons.mpr ⟨⟨(l,o),by simp,rfl⟩,fun o' inFired => ?_⟩
          obtain ⟨e,inE,isO⟩ := member o' inFired
          exact ⟨e,by simp [inE],isO⟩
        · rw [ordersIs,bareOrders_cons,List.dropWhile_cons_of_pos isDue']
      · have notDue : due o = false := by simpa using isDue
        have notDue' : ¬ due o.bare = true := by rw [dueBare]; exact isDue
        refine ⟨s,ch,bl,[],?_,side,?_,by simp,?_,.refl s ch bl⟩
        · simp only [List.head?_cons,Option.map_some,TreeState.releaseLoop,read,notDue,Bool.not_false,Option.bind_eq_bind,
            Option.bind_some,↓reduceIte]
        · rw [bareOrders_cons,List.takeWhile_cons_of_neg notDue']
          rfl
        · rw [split,bareOrders_cons,List.dropWhile_cons_of_neg notDue']

theorem Side.release {due : SimpleOrder → Bool} (side : Side t exact s ch bl) (dueBare : ∀ o, due o.bare = due o) :
    ∃ s' ch' bl' fired, s.release t.type due = some (s',fired) ∧ Side t exact s' ch' bl' ∧
      fired.map SimpleOrder.bare = (bareOrders (entries bl)).takeWhile due ∧ (∀ o ∈ fired, ∃ e ∈ entries bl, e.2 = o) ∧
      bareOrders (entries bl') = (bareOrders (entries bl)).dropWhile due ∧ TreeStep s s' ch ch' bl bl' := by
  have run := side.releaseLoop dueBare s.walkBound (entries bl) rfl side.length_lt
  simpa only [TreeState.release,side.ordersBegin,Option.bind_eq_bind,Option.bind_some] using run

end TreeState

end BaboEngine
