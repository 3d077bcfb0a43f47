import BaboEngine.InPlace

/-!
# The operations of a tree, as operations on its ladder

Insertion, removal and edit once more, in terms of the ladder of a tree and of the
list of its orders with their slots.
-/

namespace BaboEngine
open DoublyLinked

theorem flat_ladder (bl : List Block) : Ladder.flat (ladder bl) =
    bl.flatMap fun b => b.orders.map fun e => (b.price,e.2.bare) := by
  simp [Ladder.flat,ladder,List.flatMap_map,Block.rung,Function.comp_def]

theorem flat_ladder_orders (bl : List Block) : (Ladder.flat (ladder bl)).map Prod.snd =
    (entries bl).map fun e => e.2.bare := by
  simp [flat_ladder,entries,List.map_flatMap,Function.comp_def]

namespace TreeState
variable {N : Capacity} {s s' : TreeState N} {type : OrderType} {ch : List Segment} {bl : List Block}
variable {l : OrderLoc} {E E' : List (OrderLoc × SimpleOrder)} {o : SimpleOrder} {f : SimpleOrder → SimpleOrder} {id : Nat}

theorem Hosted.ids_nodup (hosted : Hosted s ch bl) (covers : Covers ch bl) :
    ((entries bl).map fun e => e.2.orderId).Nodup := by
  have nodup := hosted.chained.locs_nodup
  rw [covers] at nodup
  apply nodup.of_map _ |>.map_on
  rintro ⟨l,o⟩ first ⟨l',o'⟩ second same
  obtain ⟨rfl,rfl⟩ := hosted.id_unique first second same
  rfl

theorem Tree.ids_nodup (tree : Tree type s ch bl) : ((Ladder.flat (ladder bl)).map fun e => e.2.orderId).Nodup := by
  have ids : (Ladder.flat (ladder bl)).map (fun e => e.2.orderId) = (entries bl).map fun e => e.2.orderId := by
    have orders := congrArg (List.map SimpleOrder.orderId) (flat_ladder_orders bl)
    simpa [List.map_map,Function.comp_def] using orders
  rw [ids]
  exact tree.hosted.ids_nodup tree.covers

/-- Where an order is among the blocks. -/
theorem Tree.locate (tree : Tree type s ch bl) (split : entries bl = E ++ (l,o) :: E') : ∃ B₁ b B₂ es₁ es₂,
    bl = B₁ ++ b :: B₂ ∧ b.orders = es₁ ++ (l,o) :: es₂ ∧ E = entries B₁ ++ es₁ ∧ E' = es₂ ++ entries B₂ := by
  have here : (l,o) ∈ entries bl := by simp [split]
  obtain ⟨b,inBl,inB⟩ := Hosted.block_of_entry here
  obtain ⟨B₁,B₂,rfl⟩ := List.append_of_mem inBl
  obtain ⟨es₁,es₂,orders⟩ := List.append_of_mem inB
  have whole : entries (B₁ ++ b :: B₂) = (entries B₁ ++ es₁) ++ (l,o) :: (es₂ ++ entries B₂) := by simp [orders]
  have nodup := tree.hosted.chained.locs_nodup
  rw [tree.covers,split] at nodup
  have distinct := nodup.of_map
  have apart := (List.nodup_cons.mp (List.nodup_middle.mp distinct)).1
  rw [List.mem_append,not_or] at apart
  rw [split] at whole
  obtain ⟨front,_,back⟩ := (List.append_cons_inj_of_notMem apart.1 apart.2).mp whole
  exact ⟨B₁,b,B₂,es₁,es₂,rfl,orders,front,back⟩

/-- The other blocks know nothing of an order, its own has it once. -/
theorem Tree.found {B₁ B₂ : List Block} {b : Block} {es₁ es₂ : List (OrderLoc × SimpleOrder)}
    (tree : Tree type s ch (B₁ ++ b :: B₂)) (orders : b.orders = es₁ ++ (l,o) :: es₂) :
    (∀ r ∈ ladder B₁, r.find o.orderId = none) ∧ b.rung.find o.orderId = some o.bare ∧
      ∀ e ∈ es₁ ++ es₂, e.2.orderId ≠ o.orderId := by
  have ids := tree.hosted.ids_nodup tree.covers
  simp only [entries_append,entries_cons,orders,List.map_append,List.map_cons,List.nodup_append,List.nodup_cons,
    List.mem_append,List.mem_cons,List.mem_map] at ids
  have others : ∀ e ∈ es₁ ++ es₂, e.2.orderId ≠ o.orderId := by
    intro e member
    cases List.mem_append.mp member with
    | inl m => exact ids.2.1.1.2.2 e.2.orderId ⟨e,m,rfl⟩ o.orderId (.inl rfl)
    | inr m => exact fun same => ids.2.1.1.2.1.1 ⟨e,m,same⟩
  refine ⟨?_,?_,others⟩
  · intro r member
    obtain ⟨c,inB,rfl⟩ := List.mem_map.mp member
    rw [Ladder.find_eq_none]
    intro o' inC
    obtain ⟨e,inOrders,rfl⟩ := List.mem_map.mp inC
    exact ids.2.2 e.2.orderId ⟨e,List.mem_flatMap.mpr ⟨c,inB,inOrders⟩,rfl⟩ o.orderId (.inl (.inr (.inl rfl)))
  · simp only [Rung.find,Block.rung,orders,List.map_append,List.map_cons,List.find?_append]
    have before : (es₁.map fun e => e.2.bare).find? (fun x => decide (x.orderId = o.orderId)) = none := by
      rw [List.find?_eq_none]
      intro x member
      obtain ⟨e,inEs,rfl⟩ := List.mem_map.mp member
      show ¬ decide (e.2.orderId = o.orderId) = true
      simpa using others e (by simp [inEs])
    rw [before]
    simp

/-- A tree depends on its own nodes and levels only. -/
theorem Tree.frame (tree : Tree type s ch bl) (same : s'.toNarbTree = s.toNarbTree) (nodesFit : s'.nodes.WellFormed)
    (levelsFit : s'.levels.WellFormed) (nodes : ∀ a ∈ ch.map Segment.ptr, s'.node a = s.node a)
    (levels : ∀ a ∈ bl.map Block.ptr, s'.level a = s.level a) : Tree type s' ch bl := by
  obtain ⟨⟨⟨_,_,⟨links,head,tail,nodup,holds⟩,slots,payload,owner,index,read,ptrs⟩,covers,segments⟩,
    ⟨⟨t,⟨shaped,root,once,inside⟩,inorder,valid⟩,threads,sorted,best⟩,blocks⟩ := tree
  have levels' : ∀ a ∈ type.ascending (bl.map Block.ptr), s'.level a = s.level a := fun a member => levels a (mem_ascending.mp member)
  have priceAt : ∀ a ∈ type.ascending (bl.map Block.ptr), s'.priceAt a = s.priceAt a := by
    intro a member
    simp [TreeState.priceAt,levels' a member]
  refine ⟨⟨⟨nodesFit,levelsFit,⟨?_,?_,?_,nodup,?_⟩,slots,?_,owner,?_,?_,ptrs⟩,covers,segments⟩,
    ⟨⟨t,⟨?_,?_,once,inside⟩,inorder,valid⟩,?_,?_,?_⟩,blocks⟩
  · exact linked_congr links fun a member => ⟨by simp [prevOf,nodes a member],by simp [nextOf,nodes a member]⟩
  · rw [same]
    exact head
  · rw [same]
    exact tail
  · intro g member
    rw [nodes g.ptr (List.mem_map_of_mem member)]
    exact holds g member
  · intro e member
    obtain ⟨g,inCh,i,_,isLoc⟩ : ∃ g ∈ ch, ∃ i ∈ g.slots, (⟨g.ptr,i⟩ : OrderLoc) = e.1 := by
      simpa [locs,Segment.locs] using slots e member
    have readOld := payload e member
    rw [← isLoc] at readOld ⊢
    simp only [orderAt] at readOld ⊢
    rw [nodes g.ptr (List.mem_map_of_mem inCh)]
    exact readOld
  · rw [same]
    exact index
  · intro b member
    rw [levels b.ptr (List.mem_map_of_mem member)]
    exact read b member
  · refine RedBlack.shaped_congr shaped fun a member => ?_
    simp only [cells]
    rw [levels' a (inside a member)]
  · rw [same]
    exact root
  · exact linked_congr threads fun a member => ⟨by simp [predOf,levels' a member],by simp [succOf,levels' a member]⟩
  · apply sorted.imp_of_mem
    intro a a' first second lt
    rw [priceAt a first,priceAt a' second]
    exact lt
  · rw [same]
    exact best

theorem Tree.insert {ord : SimpleOrder} (tree : Tree type s ch bl) (fresh : ∀ e ∈ entries bl, e.2.orderId ≠ ord.orderId)
    (price : Nat) : ∃ s' ch' bl', s.insert type ord price = some s' ∧ Tree type s' ch' bl' ∧
      ladder bl' = Ladder.place type price ord (ladder bl) ∧ TreeStep s s' ch ch' bl bl' := by
  obtain ⟨s',executed,ch',bl',tree',rungs,treeStep⟩ := insert_spec tree (tree.hosted.findOrder_none fresh).1 price
  exact ⟨s',ch',bl',executed,tree',rungs,treeStep⟩

theorem Tree.erase (tree : Tree type s ch bl) (split : entries bl = E ++ (l,o) :: E') :
    ∃ s' ch' bl', s.erase type o.orderId = some s' ∧ Tree type s' ch' bl' ∧ entries bl' = E ++ E' ∧
      ladder bl' = Ladder.erase o.orderId (ladder bl) ∧ TreeStep s s' ch ch' bl bl' := by
  obtain ⟨B₁,b,B₂,es₁,es₂,rfl,orders,rfl,rfl⟩ := tree.locate split
  obtain ⟨notBefore,here,others⟩ := tree.found orders
  obtain ⟨s',ch',bl',executed,blocksIs,tree',treeStep⟩ := erase_spec tree orders
  refine ⟨s',ch',bl',executed,tree',?_,?_,treeStep⟩
  · rw [blocksIs]
    by_cases empty : es₁ ++ es₂ = []
    · obtain ⟨rfl,rfl⟩ := List.append_eq_nil_iff.mp empty
      simp
    · have notEmpty : (es₁ ++ es₂).isEmpty = false := by simpa using empty
      simp [notEmpty,Block.keep]
  · have kept : b.rung.drop o.bare = (b.keep o (es₁ ++ es₂)).rung := by
      have filtered : (b.orders.map fun e => e.2.bare).filter (fun x => decide (x.orderId ≠ o.orderId)) =
          (es₁ ++ es₂).map fun e => e.2.bare := by
        have all : ∀ es : List (OrderLoc × SimpleOrder), (∀ e ∈ es, e.2.orderId ≠ o.orderId) →
            (es.map fun e => e.2.bare).filter (fun x => decide (x.orderId ≠ o.orderId)) = es.map fun e => e.2.bare := by
          intro es apart
          apply List.filter_eq_self.mpr
          intro x member
          obtain ⟨e,inEs,rfl⟩ := List.mem_map.mp member
          show decide (e.2.orderId ≠ o.orderId) = true
          simpa using apart e inEs
        rw [orders,List.map_append,List.map_cons,List.filter_append,List.map_append,all es₁ fun e m => others e (by simp [m])]
        congr 1
        rw [List.filter_cons_of_neg (by simp),all es₂ fun e m => others e (by simp [m])]
      simp only [Rung.drop,Block.rung,Block.keep,Rung.mk.injEq]
      exact ⟨trivial,rfl,trivial,filtered⟩
    rw [blocksIs,ladder_append,ladder_append,ladder_cons,Ladder.erase_here notBefore here,kept]
    by_cases empty : es₁ ++ es₂ = []
    · have isEmpty : (b.keep o (es₁ ++ es₂)).rung.orders.isEmpty = true := by simp [empty,Block.rung,Block.keep]
      rw [isEmpty,empty]
      simp
    · have notEmpty : (es₁ ++ es₂).isEmpty = false := by simpa using empty
      have notEmpty' : (b.keep o (es₁ ++ es₂)).rung.orders.isEmpty = false := by
        simpa [Block.rung,Block.keep] using empty
      rw [notEmpty,notEmpty']
      simp

/-- An id that is not in the tree. -/
theorem Tree.erase_absent (tree : Tree type s ch bl) (absent : ∀ e ∈ entries bl, e.2.orderId ≠ id) :
    s.erase type id = some s := by
  simp [TreeState.erase,(tree.hosted.findOrder_none absent).1]

theorem Tree.edit (tree : Tree type s ch bl) (split : entries bl = E ++ (l,o) :: E') (isId : (f o).orderId = o.orderId)
    (isLevel : (f o).level = o.level) (isBare : (f o).bare = f o.bare) (delta : Int) :
    ∃ s' bl', s.editOrder l f delta = some s' ∧ Tree type s' ch bl' ∧ entries bl' = E ++ (l,f o) :: E' ∧
      ladder bl' = Ladder.edit o.orderId f delta (ladder bl) ∧ TreeStep s s' ch ch bl bl' := by
  obtain ⟨B₁,b,B₂,es₁,es₂,rfl,orders,rfl,rfl⟩ := tree.locate split
  obtain ⟨notBefore,here,others⟩ := tree.found orders
  obtain ⟨s',executed,tree',treeStep⟩ := editOrder_spec tree orders isId isLevel delta
  refine ⟨s',_,executed,tree',by simp [Block.amend],?_,treeStep⟩
  have edited : b.rung.edit o.orderId f delta = (b.amend delta (es₁ ++ (l,f o) :: es₂)).rung := by
    have same : ∀ es : List (OrderLoc × SimpleOrder), (∀ e ∈ es, e.2.orderId ≠ o.orderId) →
        (es.map fun e => e.2.bare).map (fun x => if x.orderId = o.orderId then f x else x) = es.map fun e => e.2.bare := by
      intro es apart
      rw [List.map_map]
      apply List.map_congr_left
      intro e member
      have other : e.2.orderId ≠ o.orderId := apart e member
      simp [other]
    have mapped : (b.orders.map fun e => e.2.bare).map (fun x => if x.orderId = o.orderId then f x else x) =
        (es₁ ++ (l,f o) :: es₂).map fun e => e.2.bare := by
      rw [orders,List.map_append,List.map_cons,List.map_append,List.map_cons,same es₁ fun e m => others e (by simp [m]),
        same es₂ fun e m => others e (by simp [m]),List.map_append,List.map_cons,isBare]
      simp
    simp only [Rung.edit,Block.rung,Block.amend,Rung.mk.injEq]
    exact ⟨trivial,trivial,trivial,mapped⟩
  rw [ladder_append,ladder_append,ladder_cons,ladder_cons,Ladder.edit_here notBefore here,edited]

end TreeState

end BaboEngine
