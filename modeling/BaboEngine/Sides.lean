import BaboEngine.Orderly
import BaboEngine.TreeOps

/-!
# One side of the book

A tree under one of the four names, and what the operations of the matching book do
to it. A matching pass walks over the tree while it edits and erases; each
theorem gives its result as the pass of the abstract book over the orders that
are still to come.
-/

namespace BaboEngine

/-- The orders of some entries, without slots and back-pointers. -/
def bareOrders (E : List (OrderLoc × SimpleOrder)) : List SimpleOrder := E.map fun e => e.2.bare

@[simp] theorem bareOrders_nil : bareOrders [] = [] := rfl
@[simp] theorem bareOrders_cons (e : OrderLoc × SimpleOrder) (E : List (OrderLoc × SimpleOrder)) :
    bareOrders (e :: E) = e.2.bare :: bareOrders E := rfl
@[simp] theorem bareOrders_append (E E' : List (OrderLoc × SimpleOrder)) :
    bareOrders (E ++ E') = bareOrders E ++ bareOrders E' := by simp [bareOrders]

theorem flat_bareOrders (bl : List Block) : (Ladder.flat (ladder bl)).map Prod.snd = bareOrders (entries bl) :=
  flat_ladder_orders bl

theorem TreeName.key_bare (t : TreeName) (o : SimpleOrder) : t.key o.bare = t.key o := by cases t <;> rfl

namespace TreeState
variable {N : Capacity}

/-- A tree of the book: its keys are those of its name, its orders fit their types, and its totals are right
    as long as no order has been resized beyond what its type holds. -/
structure Side (t : TreeName) (exact : Prop) (s : TreeState N) (ch : List Segment) (bl : List Block) : Prop extends
    Tree t.type s ch bl where
  keyed : ∀ e ∈ Ladder.flat (ladder bl), e.1 = t.key e.2
  sized : ∀ o ∈ bareOrders (entries bl), o.Sized
  sound : exact → Ladder.Sound (ladder bl)

variable {s s' : TreeState N} {t : TreeName} {exact : Prop} {ch : List Segment} {bl : List Block}
variable {E E' : List (OrderLoc × SimpleOrder)} {l : OrderLoc} {o : SimpleOrder}

theorem Side.snapshot (side : Side t exact s ch bl) : s.snapshot = some (bareOrders (entries bl)) := by
  simp [TreeState.snapshot,side.orders,bareOrders,Function.comp_def]

theorem Side.ids_nodup (side : Side t exact s ch bl) : ((bareOrders (entries bl)).map (·.orderId)).Nodup := by
  have nodup := side.hosted.ids_nodup side.covers
  simpa [bareOrders,Function.comp_def] using nodup

/-! ## Insertion and removal -/

theorem absent_entries {id : Nat} (absent : ∀ o ∈ bareOrders (entries bl), o.orderId ≠ id) :
    ∀ e ∈ entries bl, e.2.orderId ≠ id :=
  fun e member => absent e.2.bare (List.mem_map.mpr ⟨e,member,rfl⟩)

theorem Side.insert {ord : SimpleOrder} (side : Side t exact s ch bl) (sized : ord.Sized)
    (fresh : ∀ o ∈ bareOrders (entries bl), o.orderId ≠ ord.orderId) : ∃ s' ch' bl',
    s.insert t.type ord (t.key ord) = some s' ∧ Side t exact s' ch' bl' ∧
      bareOrders (entries bl') = (bareOrders (entries bl)).orderedInsert (Book.Ahead t) ord.bare ∧
      TreeStep s s' ch ch' bl bl' := by
  obtain ⟨s',ch',bl',executed,tree',ladderIs,treeStep⟩ := side.toTree.insert (absent_entries fresh) (t.key ord)
  have flatIs : Ladder.flat (ladder bl') =
      (Ladder.flat (ladder bl)).orderedInsert (Ladder.Ahead t.type) (t.key ord,ord.bare) := by
    rw [ladderIs,Ladder.flat_place side.ladder_sorted]
  have ordersIs : bareOrders (entries bl') = (bareOrders (entries bl)).orderedInsert (Book.Ahead t) ord.bare := by
    rw [← flat_bareOrders,← flat_bareOrders,flatIs]
    refine List.map_orderedInsert (Ladder.Ahead t.type) (Book.Ahead t) Prod.snd _ _ ?_ ?_ <;> intro e member
    · rw [show Ladder.Ahead t.type e (t.key ord,ord.bare) = t.type.better e.1 (t.key ord) from rfl,side.keyed e member,
        ← t.key_bare ord]
    · rw [show Ladder.Ahead t.type (t.key ord,ord.bare) e = t.type.better (t.key ord) e.1 from rfl,side.keyed e member,
        ← t.key_bare ord]
  refine ⟨s',ch',bl',executed,⟨tree',?_,?_,?_⟩,ordersIs,treeStep⟩
  · intro e member
    rw [flatIs,List.mem_orderedInsert] at member
    rcases member with rfl | old
    · exact (t.key_bare ord).symm
    · exact side.keyed e old
  · intro o member
    rw [ordersIs,List.mem_orderedInsert] at member
    rcases member with rfl | old
    · exact SimpleOrder.sized_bare ord |>.mpr sized
    · exact side.sized o old
  · intro isExact
    rw [ladderIs]
    exact Ladder.sound_place (side.sound isExact) ord

theorem Side.erase (side : Side t exact s ch bl) (split : entries bl = E ++ (l,o) :: E') : ∃ s' ch' bl',
    s.erase t.type o.orderId = some s' ∧ Side t exact s' ch' bl' ∧ entries bl' = E ++ E' ∧
      TreeStep s s' ch ch' bl bl' := by
  obtain ⟨s',ch',bl',executed,tree',entriesIs,ladderIs,treeStep⟩ := side.toTree.erase split
  refine ⟨s',ch',bl',executed,⟨tree',?_,?_,?_⟩,entriesIs,treeStep⟩
  · intro e member
    rw [ladderIs,Ladder.flat_erase side.toTree.ids_nodup] at member
    exact side.keyed e (List.mem_filter.mp member).1
  · intro x member
    apply side.sized x
    rw [entriesIs,bareOrders_append] at member
    rw [split,bareOrders_append,bareOrders_cons]
    simp only [List.mem_append,List.mem_cons] at member ⊢
    tauto
  · intro isExact
    rw [ladderIs]
    exact Ladder.sound_erase (side.sound isExact) side.toTree.ids_nodup

/-- On the list of orders, the removal at a position is the removal of the id. -/
theorem Side.filter_eq (side : Side t exact s ch bl) (split : entries bl = E ++ (l,o) :: E') :
    (bareOrders (entries bl)).filter (·.orderId ≠ o.orderId) = bareOrders (E ++ E') := by
  have nodup := side.ids_nodup
  rw [split,bareOrders_append,bareOrders_cons] at nodup
  rw [split,bareOrders_append,bareOrders_cons,bareOrders_append]
  exact filter_middle nodup

/-- An order is edited in place; the totals stay right if its open quantity changes by `delta`. -/
theorem Side.edit {f : SimpleOrder → SimpleOrder} {exact' : Prop} (side : Side t exact s ch bl)
    (split : entries bl = E ++ (l,o) :: E') (delta : Int) (isId : (f o).orderId = o.orderId) (isLevel : (f o).level = o.level)
    (isBare : ∀ x, (f x).bare = f x.bare) (isKey : t.key (f o) = t.key o) (sized : (f o).Sized)
    (weaker : exact' → exact ∧ ((f o).openQty : Int) = o.openQty + delta) : ∃ s' bl',
    s.editOrder l f delta = some s' ∧ Side t exact' s' ch bl' ∧ entries bl' = E ++ (l,f o) :: E' ∧
      TreeStep s s' ch ch bl bl' := by
  obtain ⟨s',bl',executed,tree',entriesIs,ladderIs,treeStep⟩ := side.toTree.edit split isId isLevel (isBare o) delta
  refine ⟨s',bl',executed,⟨tree',?_,?_,?_⟩,entriesIs,treeStep⟩
  · intro e member
    rw [ladderIs,Ladder.flat_edit side.toTree.ids_nodup,List.mem_map] at member
    obtain ⟨e,old,rfl⟩ := member
    split_ifs with same
    · have inOrders : o.bare ∈ (Ladder.flat (ladder bl)).map Prod.snd := by
        rw [flat_bareOrders,split]
        simp
      obtain ⟨e',inFlat,isO⟩ := List.mem_map.mp inOrders
      obtain rfl : e = e' := List.inj_on_of_nodup_map side.toTree.ids_nodup old inFlat (by rw [same,isO]; rfl)
      rw [isO,← isBare o,t.key_bare,isKey,← t.key_bare o,← isO]
      exact side.keyed e old
    · exact side.keyed e old
  · intro x member
    rw [entriesIs,bareOrders_append,bareOrders_cons,List.mem_append,List.mem_cons] at member
    have old : x ∈ bareOrders E ∨ x ∈ bareOrders E' → x.Sized := by
      intro other
      apply side.sized x
      rw [split,bareOrders_append,bareOrders_cons,List.mem_append,List.mem_cons]
      tauto
    rcases member with before | rfl | behind
    · exact old (.inl before)
    · exact SimpleOrder.sized_bare (f o) |>.mpr sized
    · exact old (.inr behind)
  · intro isExact
    obtain ⟨isExact,open'⟩ := weaker isExact
    rw [ladderIs]
    refine Ladder.sound_edit (o := o.bare) (side.sound isExact) side.toTree.ids_nodup ?_ ?_
    · rw [flat_bareOrders,split]
      simp
    · rw [← isBare o]
      exact open'

/-! ## A trade -/

theorem Side.sizedAt (side : Side t exact s ch bl) (split : entries bl = E ++ (l,o) :: E') : o.Sized :=
  SimpleOrder.sized_bare o |>.mp (side.sized o.bare (by rw [split]; simp))

theorem Side.executeTrade (side : Side t exact s ch bl) (split : entries bl = E ++ (l,o) :: E') {q : Nat}
    (enough : q ≤ o.openQty) (k : Market) (inc : SimpleOrder) : ∃ s' bl', s.executeTrade k inc l q =
      some (s',k.trade ⟨inc.bare,o.bare,q⟩,inc.fill q (Market.cost o q),decide ((o.fill q (Market.cost o q)).openQty = 0)) ∧
      Side t exact s' ch bl' ∧ entries bl' = E ++ (l,o.fill q (Market.cost o q)) :: E' ∧ TreeStep s s' ch ch bl bl' := by
  obtain ⟨s',bl',executed,side',entriesIs,treeStep⟩ := side.edit split (-(q : Int))
    (f := fun o' => o'.fill q (Market.cost o q)) (by simp) (by simp) (fun x => x.bare_fill _ _)
    (t.key_fill o _ _) ((side.sizedAt split).fill _ _) (fun isExact : exact => ⟨isExact,by
      have taken := (side.sizedAt split).openQty_fill (c := Market.cost o q) enough
      rw [taken]
      omega⟩)
  refine ⟨s',bl',?_,side',entriesIs,treeStep⟩
  have read := (side.next split).1
  have read' := (side'.next entriesIs).1
  simp only [TreeState.executeTrade,read,executed,read',Option.bind_eq_bind,Option.bind_some]

/-- A trade with the order at a position, which leaves if it is filled. -/
theorem Side.trade (side : Side t exact s ch bl) (split : entries bl = E ++ (l,o) :: E') {q : Nat}
    (enough : q ≤ o.openQty) (k : Market) (inc : SimpleOrder) : ∃ (s₁ s₂ : TreeState N) (ch' : List Segment) (bl' : List Block)
    (K : List (OrderLoc × SimpleOrder)), s.executeTrade k inc l q =
      some (s₁,k.trade ⟨inc.bare,o.bare,q⟩,inc.fill q (Market.cost o q),decide ((o.fill q (Market.cost o q)).openQty = 0)) ∧
      s₁.eraseIf t.type ((o.fill q (Market.cost o q)).openQty = 0) o.orderId = some s₂ ∧
      Side t exact s₂ ch' bl' ∧ entries bl' = E ++ K ++ E' ∧
      bareOrders K = Matching.kept (o.bare.fill q (Market.cost o.bare q)) ∧ TreeStep s s₂ ch ch' bl bl' := by
  obtain ⟨s₁,bl₁,traded,side₁,entries₁,step₁⟩ := side.executeTrade split enough k inc
  have keptIs : ∀ {x : SimpleOrder}, Matching.kept x.bare = if x.openQty = 0 then [] else [x.bare] := rfl
  have asBare : o.bare.fill q (Market.cost o.bare q) = (o.fill q (Market.cost o q)).bare := (o.bare_fill _ _).symm
  by_cases filled : (o.fill q (Market.cost o q)).openQty = 0
  · obtain ⟨s₂,ch₂,bl₂,erased,side₂,entries₂,step₂⟩ := side₁.erase entries₁
    rw [SimpleOrder.fill_orderId] at erased
    refine ⟨s₁,s₂,ch₂,bl₂,[],traded,?_,side₂,by simpa using entries₂,?_,step₁.trans step₂⟩
    · simpa [eraseIf,filled] using erased
    · rw [asBare,keptIs,if_pos filled]
      rfl
  · refine ⟨s₁,s₁,ch,bl₁,[(l,o.fill q (Market.cost o q))],traded,by simp [eraseIf,filled],side₁,by simpa using entries₁,?_,step₁⟩
    rw [asBare,keptIs,if_neg filled]
    rfl

end TreeState

end BaboEngine
