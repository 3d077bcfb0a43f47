import BaboEngine.Simulation
import BaboEngine.TreeOps

/-!
# Runs of a tree

Any sequence of insertions and removals on a tree, compared with the same sequence on
a sorted list of orders.
-/

namespace BaboEngine
open RedBlack DoublyLinked Simulation

/-- The two operations on a tree. -/
inductive TreeOp where
  | insert (order : SimpleOrder) (price : Nat)
  | erase (orderId : Nat)

namespace TreeOp

/-- The operation on a tree. -/
def apply {N : Capacity} (type : OrderType) (s : TreeState N) : TreeOp → Option (TreeState N)
  | .insert order price => s.insert type order price
  | .erase orderId => s.erase type orderId

/-- The operation on a sorted list of orders, each with its key: an order goes behind all
    orders of a better or equal key and before all of a worse key. -/
def onList (type : OrderType) (l : List (Nat × SimpleOrder)) : TreeOp → List (Nat × SimpleOrder)
  | .insert order price => l.orderedInsert (fun e e' => type.better e.1 e'.1) (price,order.bare)
  | .erase orderId => l.filter (·.2.orderId ≠ orderId)

/-- An insertion brings an id that is not in the tree. -/
def Fresh (l : List (Nat × SimpleOrder)) : TreeOp → Prop
  | .insert order _ => ∀ e ∈ l, e.2.orderId ≠ order.orderId
  | .erase _ => True

instance : (l : List (Nat × SimpleOrder)) → (op : TreeOp) → Decidable (op.Fresh l)
  | l, .insert order _ => inferInstanceAs (Decidable (∀ e ∈ l, e.2.orderId ≠ order.orderId))
  | _, .erase _ => .isTrue trivial

end TreeOp

/-- The two pools in a state that their own operations lead to. -/
structure Pools (N : Capacity) extends Heap N where
  nodesWellFormed : nodes.WellFormed
  levelsWellFormed : levels.WellFormed

/-- Pools before their first use. -/
def Pools.empty {N : Capacity} : Pools N :=
  ⟨.empty,⟨[],[],AllocatorPool.owned_empty⟩,⟨[],[],AllocatorPool.owned_empty⟩⟩

/-- An empty tree on some pools. -/
def TreeState.start {N : Capacity} (h : Pools N) : TreeState N := { toHeap := h.toHeap, toNarbTree := .empty }

/-- The tree after a run from the empty tree. -/
def TreeState.after {N : Capacity} (type : OrderType) (h : Pools N) (ops : List TreeOp) : Option (TreeState N) :=
  run (TreeOp.apply type) (.start h) ops

/-- The sorted list after a run from the empty list. -/
def listAfter (type : OrderType) (ops : List TreeOp) : List (Nat × SimpleOrder) := ops.foldl (TreeOp.onList type) []

/-- Insertions bring ids that are not in the tree at that time. -/
def FreshIds (type : OrderType) (ops : List TreeOp) : Prop := Admitted TreeOp.Fresh (TreeOp.onList type) [] ops

instance (type : OrderType) (ops : List TreeOp) : Decidable (FreshIds type ops) :=
  inferInstanceAs (Decidable (Admitted TreeOp.Fresh (TreeOp.onList type) [] ops))

namespace TreeState
variable {N : Capacity} {s : TreeState N} {type : OrderType} {ch : List Segment} {bl : List Block}
variable {l : List (Nat × SimpleOrder)}

/-- The tree keeps its invariant and holds the orders of the list. -/
def Refines (type : OrderType) (s : TreeState N) (l : List (Nat × SimpleOrder)) : Prop :=
  ∃ ch bl, Tree type s ch bl ∧ Ladder.flat (ladder bl) = l

theorem mem_flat_ladder {id : Nat} (absent : ∀ e ∈ Ladder.flat (ladder bl), e.2.orderId ≠ id) :
    ∀ e ∈ entries bl, e.2.orderId ≠ id := by
  intro e member
  have inOrders : e.2.bare ∈ (Ladder.flat (ladder bl)).map Prod.snd := by
    rw [flat_ladder_orders]
    exact List.mem_map_of_mem (f := fun e => e.2.bare) member
  obtain ⟨e',inFlat,same⟩ := List.mem_map.mp inOrders
  have other := absent e' inFlat
  rw [same] at other
  exact other

theorem tree_start (h : Pools N) : Tree type (start h) [] [] := by
  refine ⟨⟨⟨h.nodesWellFormed,h.levelsWellFormed,⟨linked_nil,rfl,rfl,List.nodup_nil,by simp⟩,by simp,by simp,by simp,?_,by simp,List.nodup_nil⟩,
    rfl,by simp⟩,?_,by simp⟩
  · intro id l
    simp [start,NarbTree.empty]
  · have none : type.ascending (List.map Block.ptr []) = [] := by cases type <;> rfl
    rw [none]
    refine ⟨⟨.nil,⟨trivial,rfl,List.nodup_nil,by simp⟩,rfl,rfl,0,rfl⟩,linked_nil,List.Pairwise.nil,?_⟩
    cases type <;> rfl

/-- One operation. -/
theorem apply_refines (op : TreeOp) (refines : Refines type s l) (fresh : op.Fresh l) :
    ∃ s', op.apply type s = some s' ∧ Refines type s' (op.onList type l) := by
  obtain ⟨ch,bl,tree,rfl⟩ := refines
  cases op with
  | insert order price =>
    obtain ⟨s',ch',bl',executed,tree',ladderIs,_⟩ := tree.insert (mem_flat_ladder fresh) price
    refine ⟨s',executed,ch',bl',tree',?_⟩
    rw [ladderIs,Ladder.flat_place tree.ladder_sorted]
    rfl
  | erase id =>
    by_cases present : ∃ e ∈ entries bl, e.2.orderId = id
    · obtain ⟨⟨l,o⟩,member,rfl⟩ := present
      obtain ⟨E,E',split⟩ := List.append_of_mem member
      obtain ⟨s',ch',bl',executed,tree',_,ladderIs,_⟩ := tree.erase split
      refine ⟨s',executed,ch',bl',tree',?_⟩
      rw [ladderIs,Ladder.flat_erase tree.ids_nodup]
      rfl
    · have absent : ∀ e ∈ entries bl, e.2.orderId ≠ id := fun e member same => present ⟨e,member,same⟩
      refine ⟨s,tree.erase_absent absent,ch,bl,tree,?_⟩
      refine (List.filter_eq_self.mpr ?_).symm
      intro e member
      have inOrders := List.mem_map_of_mem (f := Prod.snd) member
      rw [flat_ladder_orders] at inOrders
      obtain ⟨e',inEntries,same⟩ := List.mem_map.mp inOrders
      have other := absent e' inEntries
      rw [← same]
      show decide (e'.2.orderId ≠ id) = true
      simpa using other

theorem run_refines (h : Pools N) (ops : List TreeOp) (fresh : FreshIds type ops) :
    ∃ s, after type h ops = some s ∧ Refines type s (listAfter type ops) :=
  run_matched (fun _ _ op => apply_refines op) ops (start h) [] ⟨[],[],tree_start h,rfl⟩ fresh

/-! ## The orders of a tree -/

theorem find_flat (tree : Tree type s ch bl) (id : Nat) : (s.findOrder id).map (Option.map SimpleOrder.bare) =
    some (((Ladder.flat (ladder bl)).map Prod.snd).find? (·.orderId = id)) := by
  rw [flat_ladder_orders,List.find?_map]
  by_cases present : ∃ e ∈ entries bl, e.2.orderId = id
  · obtain ⟨⟨l,o⟩,member,rfl⟩ := present
    rw [tree.hosted.findOrder_some member]
    cases found : (entries bl).find? ((fun x => decide (x.orderId = o.orderId)) ∘ fun e => e.2.bare) with
    | none =>
      have absent := List.find?_eq_none.mp found (l,o) member
      simp at absent
    | some e =>
      obtain ⟨l',o'⟩ := e
      have holds := List.find?_some found
      have same : o'.orderId = o.orderId := of_decide_eq_true holds
      obtain ⟨_,rfl⟩ := tree.hosted.id_unique member (List.mem_of_find?_eq_some found) same.symm
      rfl
  · have absent : ∀ e ∈ entries bl, e.2.orderId ≠ id := fun e member same => present ⟨e,member,same⟩
    have none : (entries bl).find? ((fun x => decide (x.orderId = id)) ∘ fun e => e.2.bare) = none := by
      rw [List.find?_eq_none]
      intro e member
      show ¬ decide (e.2.orderId = id) = true
      simpa using absent e member
    rw [(tree.hosted.findOrder_none absent).2,none]
    rfl

/-- Whatever the capacity of the nodes, the orders of a tree are those of a sorted list under
    the same operations, each with the payload it came with. -/
theorem orders_eq_sorted_list (h : Pools N) (ops : List TreeOp) (fresh : FreshIds type ops) :
    ∃ s, after type h ops = some s ∧
      s.orders.map (List.map SimpleOrder.bare) = some ((listAfter type ops).map Prod.snd) ∧
      ∀ id, (s.findOrder id).map (Option.map SimpleOrder.bare) =
        some (((listAfter type ops).map Prod.snd).find? (·.orderId = id)) := by
  obtain ⟨s,executed,ch,bl,tree,flat⟩ := run_refines h ops fresh
  refine ⟨s,executed,?_,?_⟩
  · rw [← flat,tree.orders,flat_ladder_orders]
    simp [Function.comp_def]
  · intro id
    rw [← flat]
    exact find_flat tree id

/-- Two sells at one price and one at a better price, in nodes of one slot; the first is taken out. -/
theorem orders_eq_sorted_list_sells : ∃ s : TreeState ⟨1,by decide,by decide⟩,
    after .ASK .empty [.insert (.new false 101 5 0 0 1) 101,.insert (.new false 101 6 0 0 2) 101,
      .insert (.new false 100 7 0 0 3) 100,.erase 1] = some s ∧
      s.orders.map (List.map SimpleOrder.bare) = some [.new false 100 7 0 0 3,.new false 101 6 0 0 2] ∧
      ∀ id, (s.findOrder id).map (Option.map SimpleOrder.bare) =
        some ([SimpleOrder.new false 100 7 0 0 3,.new false 101 6 0 0 2].find? (·.orderId = id)) :=
  orders_eq_sorted_list .empty _ (by decide)

/-! ## References between the structures of a tree -/

/-- How the index, the chain, the levels and the orders of a tree refer to each other: `ch` are the
    nodes with their live slots, `bl` the levels with their orders, `l` the orders with their keys. -/
structure CrossReferenced (type : OrderType) (s : TreeState N) (ch : List Segment) (bl : List Block)
    (l : List (Nat × SimpleOrder)) : Prop where
  links : Linked s.nextOf s.prevOf (ch.map Segment.ptr)
  chainHead : s.chainHead = (ch.map Segment.ptr).head?
  chainTail : s.chainTail = (ch.map Segment.ptr).getLast?
  once : (ch.map Segment.ptr).Nodup
  nodes : ∀ g ∈ ch, g.slots ≠ [] ∧ ∃ n fs, s.node g.ptr = some n ∧ n.Holds g.slots fs
  null : (s.chainHead = none ↔ l = []) ∧ (s.chainTail = none ↔ l = [])
  live : ∀ loc ∈ locs ch, s.orderAt loc ≠ none
  index : ∀ id loc, s.orderIndex id = some loc ↔ loc ∈ locs ch ∧ ∃ o, s.orderAt loc = some o ∧ o.orderId = id
  contiguous : locs ch = bl.flatMap fun b => b.orders.map Prod.fst
  ends : ∀ b ∈ bl, b.orders ≠ [] ∧ ∃ d, s.level b.ptr = some d ∧ d.price = b.price ∧
    d.head = b.orders.head?.map Prod.fst ∧ d.tail = b.orders.getLast?.map Prod.fst
  owner : ∀ b ∈ bl, ∀ e ∈ b.orders, s.orderAt e.1 = some e.2 ∧ e.2.level = some b.ptr
  keys : (bl.flatMap fun b => b.orders.map fun e => (b.price,e.2.bare)) = l
  bestFirst : bl.Pairwise fun b c => type.better b.price c.price
  levels : ∃ t, Shaped s.cells none t ∧ s.root = t.root ∧ t.inorder = type.ascending (bl.map Block.ptr)

theorem Tree.crossReferenced (tree : Tree type s ch bl) : CrossReferenced type s ch bl (Ladder.flat (ladder bl)) := by
  obtain ⟨⟨hosted,covers,segments⟩,priced,blocks⟩ := tree
  have chained := hosted.chained
  have slot : ∀ loc ∈ locs ch, ∃ o, (loc,o) ∈ entries bl := by
    intro loc member
    rw [covers] at member
    obtain ⟨⟨l,o⟩,inEntries,rfl⟩ := List.mem_map.mp member
    exact ⟨o,inEntries⟩
  have empty : ch = [] ↔ Ladder.flat (ladder bl) = [] := by
    have flatEmpty : Ladder.flat (ladder bl) = [] ↔ entries bl = [] := by
      rw [← List.map_eq_nil_iff (f := Prod.snd),flat_ladder_orders,List.map_eq_nil_iff]
    rw [flatEmpty,← List.map_eq_nil_iff (f := Prod.fst),← covers]
    constructor
    · rintro rfl
      rfl
    · intro none
      cases ch with
      | nil =>
        rfl
      | cons g post =>
        exact absurd (List.append_eq_nil_iff.mp none).1 (by simpa [Segment.locs] using segments g (by simp))
  refine ⟨chained.links,chained.head,chained.tail,chained.nodup,fun g member => ⟨segments g member,chained.holds g member⟩,
    ⟨?_,?_⟩,?_,?_,?_,?_,?_,(flat_ladder bl).symm,Tree.sorted ⟨⟨hosted,covers,segments⟩,priced,blocks⟩,?_⟩
  · rw [← empty,chained.head]
    simp
  · rw [← empty,chained.tail]
    simp
  · intro loc member
    obtain ⟨o,inEntries⟩ := slot loc member
    rw [hosted.payload _ inEntries]
    simp
  · intro id loc
    rw [hosted.index id loc]
    constructor
    · rintro ⟨o,member,isId⟩
      exact ⟨hosted.slots _ member,o,hosted.payload _ member,isId⟩
    · rintro ⟨member,o,read,isId⟩
      obtain ⟨o',inEntries⟩ := slot loc member
      obtain rfl : o' = o := Option.some.inj ((hosted.payload _ inEntries).symm.trans read)
      exact ⟨o',inEntries,isId⟩
  · rw [covers,entries,List.map_flatMap]
  · intro b member
    obtain ⟨d,read,body⟩ := hosted.read b member
    simp only [PriceLevel.body,LevelBody.mk.injEq] at body
    exact ⟨blocks b member,d,read,body.1,body.2.2.2.1,body.2.2.2.2⟩
  · intro b member e inB
    exact ⟨hosted.payload e (List.mem_flatMap.mpr ⟨b,member,inB⟩),hosted.owner b member e inB⟩
  · obtain ⟨t,indexed,order,_⟩ := priced.tree
    exact ⟨t,indexed.shaped,indexed.root,order⟩

/-- After any run all references of a tree agree. -/
theorem run_crossReferenced (h : Pools N) (ops : List TreeOp) (fresh : FreshIds type ops) :
    ∃ s ch bl, after type h ops = some s ∧ CrossReferenced type s ch bl (listAfter type ops) := by
  obtain ⟨s,executed,ch,bl,tree,flat⟩ := run_refines h ops fresh
  exact ⟨s,ch,bl,executed,flat ▸ tree.crossReferenced⟩

/-- One buy, and a second one at a worse price. -/
theorem run_crossReferenced_buys : ∃ (s : TreeState ⟨1,by decide,by decide⟩) (ch : List Segment) (bl : List Block),
    after .BID .empty [.insert (.new true 100 5 0 0 1) 100,.insert (.new true 99 6 0 0 2) 99] = some s ∧
      CrossReferenced .BID s ch bl [(100,.new true 100 5 0 0 1),(99,.new true 99 6 0 0 2)] :=
  run_crossReferenced .empty _ (by decide)

/-! ## The price index -/

/-- The removal of an order keeps the levels, or takes out its own and leaves the others as they are. -/
theorem Tree.erase_levels (tree : Tree type s ch bl) (id : Nat) : ∃ s' ps', s.erase type id = some s' ∧ Priced type s' ps' ∧
    (ps' = type.ascending (bl.map Block.ptr) ∨ ∃ as z bs, type.ascending (bl.map Block.ptr) = as ++ z :: bs ∧ ps' = as ++ bs ∧
      ∀ a ∈ as ++ bs, (s'.level a).map PriceLevel.body = (s.level a).map PriceLevel.body) := by
  by_cases present : ∃ e ∈ entries bl, e.2.orderId = id
  · obtain ⟨⟨l,o⟩,member,rfl⟩ := present
    obtain ⟨E,E',split⟩ := List.append_of_mem member
    obtain ⟨B₁,b,B₂,es₁,es₂,rfl,orders,_,_⟩ := tree.locate split
    obtain ⟨s',ch',bl',executed,blocksIs,tree',_⟩ := erase_spec tree orders
    refine ⟨s',_,executed,tree'.priced,?_⟩
    by_cases empty : es₁ ++ es₂ = []
    · right
      rw [empty] at blocksIs
      obtain rfl : bl' = B₁ ++ B₂ := blocksIs
      rw [List.map_append,List.map_cons,ascending_middle,List.map_append,ascending_append]
      refine ⟨_,_,_,rfl,rfl,?_⟩
      intro a inRest
      rw [← ascending_append,mem_ascending,← List.map_append] at inRest
      obtain ⟨c,inB,rfl⟩ := List.mem_map.mp inRest
      obtain ⟨d,read,body⟩ := tree.hosted.read c (by simp only [List.mem_append,List.mem_cons] at inB ⊢; tauto)
      obtain ⟨d',read',body'⟩ := tree'.hosted.read c inB
      rw [read,read',Option.map_some,Option.map_some,body,body']
    · left
      have notEmpty : (es₁ ++ es₂).isEmpty = false := by simpa using empty
      rw [blocksIs,notEmpty]
      simp [Block.keep]
  · have absent : ∀ e ∈ entries bl, e.2.orderId ≠ id := fun e member same => present ⟨e,member,same⟩
    exact ⟨s,_,tree.erase_absent absent,tree.priced,.inl rfl⟩

/-- After any run the levels form a valid red-black tree that is threaded in order of price; no
    operation follows a null link or runs on, and the removal of a level leaves the others alone. -/
theorem run_priced (h : Pools N) (ops : List TreeOp) (fresh : FreshIds type ops) :
    ∃ s ps, after type h ops = some s ∧ Priced type s ps ∧ ∀ id, ∃ s' ps', s.erase type id = some s' ∧
      Priced type s' ps' ∧ (ps' = ps ∨ ∃ as z bs, ps = as ++ z :: bs ∧ ps' = as ++ bs ∧
        ∀ a ∈ as ++ bs, (s'.level a).map PriceLevel.body = (s.level a).map PriceLevel.body) := by
  obtain ⟨s,executed,ch,bl,tree,_⟩ := run_refines h ops fresh
  exact ⟨s,_,executed,tree.priced,tree.erase_levels⟩

/-- Three levels, of which the middle one is removed again. -/
theorem run_priced_sells : ∃ (s : TreeState ⟨1,by decide,by decide⟩) (ps : List Ptr),
    after .ASK .empty [.insert (.new false 100 5 0 0 1) 100,.insert (.new false 101 6 0 0 2) 101,
      .insert (.new false 102 7 0 0 3) 102,.erase 2] = some s ∧ Priced .ASK s ps ∧
    ∀ id, ∃ s' ps', s.erase .ASK id = some s' ∧ Priced .ASK s' ps' ∧
      (ps' = ps ∨ ∃ as z bs, ps = as ++ z :: bs ∧ ps' = as ++ bs ∧
        ∀ a ∈ as ++ bs, (s'.level a).map PriceLevel.body = (s.level a).map PriceLevel.body) :=
  run_priced .empty _ (by decide)

end TreeState

end BaboEngine
