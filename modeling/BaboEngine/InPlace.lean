import BaboEngine.Erasure

/-!
# Editing an order where it is

A fill or a change of size writes to an order in its slot and to the total of its
level; everything else stays.
-/

namespace BaboEngine
open DoublyLinked

/-- A block in which an order was edited, so that it now has the orders `es`. -/
def Block.amend (b : Block) (delta : Int) (es : List (OrderLoc × SimpleOrder)) : Block :=
  { b with
    quantity := toU32 (b.quantity + delta)
    orders := es }

namespace TreeState
variable {N : Capacity} {s : TreeState N} {type : OrderType} {ch : List Segment} {B₁ B₂ : List Block} {b : Block}
variable {l : OrderLoc} {es₁ es₂ : List (OrderLoc × SimpleOrder)} {o : SimpleOrder} {f : SimpleOrder → SimpleOrder}

theorem modifyOrder_spec (hosted : Hosted s ch (B₁ ++ b :: B₂)) (orders : b.orders = es₁ ++ (l,o) :: es₂)
    (f : SimpleOrder → SimpleOrder) : ∃ s', s.modifyOrder l f = some s' ∧ NodeWrite s s' ∧ Chained s' ch ∧
      (∀ x, x ∉ ch.map Segment.ptr → s'.node x = s.node x) ∧
      ∀ m, s'.orderAt m = if m = l then some (f o) else s.orderAt m := by
  have here : (l,o) ∈ entries (B₁ ++ b :: B₂) := by simp [orders]
  obtain ⟨g,inCh,isNode,slot⟩ := mem_locs.mp (hosted.slots _ here)
  obtain ⟨pre,post,rfl⟩ := List.append_of_mem inCh
  obtain ⟨n,fs,read,holds,_⟩ := hosted.chained.read
  have payload := hosted.payload _ here
  simp only [isNode] at read payload
  have stored : n.slots l.index = o := by simpa [orderAt,read] using payload
  obtain ⟨n',n'Is⟩ : ∃ n' : PinNode N, n' =
      { n with slots := fun i => if i = l.index then f (n.slots i) else n.slots i } := ⟨_,rfl⟩
  have holds' : n'.Holds g.slots fs := PinNode.holds_links holds (by rw [n'Is]) (by rw [n'Is]) (by rw [n'Is])
    (by rw [n'Is]) (by rw [n'Is])
  have executed : s.modifyOrder l f = some (s.setNode l.pinLoc n') := by rw [n'Is]; exact modifyNode_eq read _
  have isLive : s.nodes.read l.pinLoc ≠ none := by
    rw [show s.nodes.read l.pinLoc = s.node l.pinLoc from rfl,read]
    simp
  have segment : g = ⟨l.pinLoc,g.slots⟩ := by rw [← isNode]
  refine ⟨_,executed,⟨rfl,rfl,fun wf => wf.write isLive n'⟩,?_,?_,?_⟩
  · have chained := hosted.chained
    rw [segment] at chained ⊢
    exact chained.setNode read (by rw [n'Is]) (by rw [n'Is]) holds'
  · intro x out
    have other : x ≠ l.pinLoc := by
      rintro rfl
      apply out
      rw [← isNode]
      simp
    rw [node_setNode,if_neg other]
  · intro m
    simp only [orderAt,node_setNode]
    by_cases sameNode : m.pinLoc = l.pinLoc
    · by_cases sameSlot : m.index = l.index
      · have same : m = l := by rw [show m = ⟨m.pinLoc,m.index⟩ from rfl,sameNode,sameSlot]
        simp [same,n'Is,stored]
      · have other : m ≠ l := fun h => sameSlot (h ▸ rfl)
        simp [sameNode,sameSlot,other,n'Is,read]
    · have other : m ≠ l := fun h => sameNode (h ▸ rfl)
      simp [sameNode,other]

/-- What an edit of the order in the slot `l` leaves: the order `o'` there, and its change of size in the level. -/
structure Edited (s s' : TreeState N) (ch : List Segment) (p : Ptr) (l : OrderLoc) (o' : SimpleOrder) (delta : Int) : Prop where
  tree : s'.toNarbTree = s.toNarbTree
  orderAt : ∀ m, s'.orderAt m = if m = l then some o' else s.orderAt m
  level : ∀ x, s'.level x = if p = x then (s.level x).map (fun d => { d with quantity := toU32 (d.quantity + delta) })
      else s.level x
  outside : ∀ x, x ∉ ch.map Segment.ptr → s'.node x = s.node x
  chained : Chained s' ch
  nodes : s'.nodes.WellFormed
  levels : s'.levels.WellFormed

theorem editOrder_run (hosted : Hosted s ch (B₁ ++ b :: B₂)) (orders : b.orders = es₁ ++ (l,o) :: es₂)
    (isLevel : (f o).level = o.level) (delta : Int) :
    ∃ s', s.editOrder l f delta = some s' ∧ Edited s s' ch b.ptr l (f o) delta := by
  obtain ⟨d,read,_⟩ := hosted.read b (by simp)
  obtain ⟨s₁,step₁,write₁,chained₁,outside₁,at₁⟩ := modifyOrder_spec hosted orders f
  have level₁ : ∀ x, s₁.level x = s.level x := fun x => by simp only [TreeState.level,write₁.levels]
  have owner : (f o).level = some b.ptr := isLevel.trans (hosted.owner b (by simp) (l,o) (by simp [orders]))
  obtain ⟨s₂,step₂,write₂,level₂⟩ := modifyLevel_run (s := s₁) (a := b.ptr)
    (fun d => { d with quantity := toU32 (d.quantity + delta) }) (by simp [level₁,read])
  have node₂ : ∀ x, s₂.node x = s₁.node x := fun x => by simp only [node,write₂.nodes]
  refine ⟨s₂,?_,?_,?_,?_,?_,write₂.chained chained₁,?_,?_⟩
  · simp only [editOrder,step₁,at₁,owner,step₂,Option.bind_eq_bind,Option.bind_some,↓reduceIte]
  · have fields := write₁.tree
    rw [← fields]
    cases e₁ : s₁.toNarbTree
    cases e₂ : s₂.toNarbTree
    have index := write₂.orderIndex
    have best := write₂.best
    have root := write₂.root
    have head := write₂.chainHead
    have tail := write₂.chainTail
    simp_all
  · intro m
    rw [← at₁ m]
    simp only [TreeState.orderAt,node₂]
  · intro x
    rw [level₂,level₁]
  · intro x out
    exact (node₂ x).trans (outside₁ x out)
  · rw [write₂.nodes]
    exact write₁.wellFormed hosted.nodes
  · exact write₂.wellFormed (by rw [write₁.levels]; exact hosted.levels)

/-- The other orders keep their payloads. -/
theorem mem_amend (hosted : Hosted s ch (B₁ ++ b :: B₂)) (covers : Covers ch (B₁ ++ b :: B₂))
    (orders : b.orders = es₁ ++ (l,o) :: es₂) {o' : SimpleOrder} {delta : Int} (e : OrderLoc × SimpleOrder) :
    e ∈ entries (B₁ ++ b.amend delta (es₁ ++ (l,o') :: es₂) :: B₂) ↔
      e = (l,o') ∨ e ∈ entries (B₁ ++ b :: B₂) ∧ e.1 ≠ l := by
  have nodup := hosted.chained.locs_nodup
  rw [covers] at nodup
  simp only [entries_append,entries_cons,orders,List.map_append,List.map_cons,List.nodup_append,List.nodup_cons,
    List.mem_append,List.mem_cons,List.mem_map] at nodup
  simp only [entries_append,entries_cons,orders,Block.amend,List.mem_append,List.mem_cons]
  grind

namespace Edited

variable {p : Ptr} {o' : SimpleOrder} {delta : Int}

theorem spine (edited : Edited s s' ch p l o' delta) (x : Ptr) :
    (s'.level x).map PriceLevel.spine = (s.level x).map PriceLevel.spine := by
  rw [edited.level]
  split_ifs
  · rw [Option.map_map]
    rfl
  · rfl

/-- The index still finds every order, since the edited one keeps its id. -/
theorem index (edited : Edited s s' ch p l o' delta) (hosted : Hosted s ch (B₁ ++ b :: B₂)) (covers : Covers ch (B₁ ++ b :: B₂))
    (orders : b.orders = es₁ ++ (l,o) :: es₂) (isId : o'.orderId = o.orderId) (id : Nat) (m : OrderLoc) :
    s'.orderIndex id = some m ↔
      ∃ x, (m,x) ∈ entries (B₁ ++ b.amend delta (es₁ ++ (l,o') :: es₂) :: B₂) ∧ x.orderId = id := by
  have here : (l,o) ∈ entries (B₁ ++ b :: B₂) := by simp [orders]
  have entry : ∀ e, e ∈ entries (B₁ ++ b.amend delta (es₁ ++ (l,o') :: es₂) :: B₂) ↔
      e = (l,o') ∨ e ∈ entries (B₁ ++ b :: B₂) ∧ e.1 ≠ l := mem_amend hosted covers orders
  rw [edited.tree,hosted.index id m]
  constructor
  · rintro ⟨x,member,same⟩
    by_cases isL : m = l
    · subst isL
      obtain rfl := hosted.entry_unique member here
      exact ⟨o',(entry _).mpr (.inl rfl),isId.trans same⟩
    · exact ⟨x,(entry _).mpr (.inr ⟨member,isL⟩),same⟩
  · rintro ⟨x,member,same⟩
    rcases (entry _).mp member with new | ⟨old,_⟩
    · obtain ⟨rfl,rfl⟩ := Prod.mk.inj new
      exact ⟨o,here,isId.symm.trans same⟩
    · exact ⟨x,old,same⟩

/-- The edit reaches the total of its own level alone. -/
theorem read (edited : Edited s s' ch b.ptr l o' delta) (hosted : Hosted s ch (B₁ ++ b :: B₂))
    (orders : b.orders = es₁ ++ (l,o) :: es₂) :
    ∀ c ∈ B₁ ++ b.amend delta (es₁ ++ (l,o') :: es₂) :: B₂, ∃ d, s'.level c.ptr = some d ∧
      d.body = ⟨c.price,c.quantity,c.count,c.orders.head?.map Prod.fst,c.orders.getLast?.map Prod.fst⟩ := by
  intro c member
  have apart := hosted.ptrs
  simp only [List.map_append,List.map_cons,List.nodup_append,List.nodup_cons,List.mem_map,List.mem_cons] at apart
  simp only [List.mem_append,List.mem_cons] at member
  rcases member with m | rfl | m
  · rw [edited.level,if_neg (fun same => apart.2.2 c.ptr ⟨c,m,rfl⟩ b.ptr (.inl rfl) same.symm)]
    exact hosted.read c (by simp [m])
  · obtain ⟨d,read,body⟩ := hosted.read b (by simp)
    have readB := edited.level b.ptr
    rw [if_pos rfl,read] at readB
    refine ⟨_,readB,?_⟩
    simp only [PriceLevel.body,LevelBody.mk.injEq] at body ⊢
    obtain ⟨price,quantity,count,head,tail⟩ := body
    refine ⟨price,by rw [quantity]; rfl,count,?_,?_⟩
    · rw [head,orders]
      cases es₁ <;> rfl
    · rw [tail,orders]
      simp only [Block.amend,getLast?_append_cons]
      cases es₂ <;> rfl
  · rw [edited.level,if_neg (fun same => apart.2.1.1 ⟨c,m,same.symm⟩)]
    exact hosted.read c (by simp [m])

theorem hosted (edited : Edited s s' ch b.ptr l o' delta) (hosted : Hosted s ch (B₁ ++ b :: B₂))
    (covers : Covers ch (B₁ ++ b :: B₂)) (orders : b.orders = es₁ ++ (l,o) :: es₂) (isId : o'.orderId = o.orderId)
    (owner : o'.level = some b.ptr) (covers' : Covers ch (B₁ ++ b.amend delta (es₁ ++ (l,o') :: es₂) :: B₂)) :
    Hosted s' ch (B₁ ++ b.amend delta (es₁ ++ (l,o') :: es₂) :: B₂) := by
  refine ⟨edited.nodes,edited.levels,edited.chained,?_,?_,?_,edited.index hosted covers orders isId,edited.read hosted orders,
    by simpa [Block.amend] using hosted.ptrs⟩
  · intro e member
    rw [covers']
    exact List.mem_map_of_mem member
  · intro e member
    rw [edited.orderAt]
    rcases (mem_amend hosted covers orders e).mp member with rfl | ⟨old,other⟩
    · simp
    · rw [if_neg other]
      exact hosted.payload e old
  · intro c member e inC
    simp only [List.mem_append,List.mem_cons] at member
    rcases member with m | rfl | m
    · exact hosted.owner c (by simp [m]) e inC
    · simp only [Block.amend,List.mem_append,List.mem_cons] at inC
      rcases inC with i | rfl | i
      · exact hosted.owner b (by simp) e (by rw [orders]; simp [i])
      · exact owner
      · exact hosted.owner b (by simp) e (by rw [orders]; simp [i])
    · exact hosted.owner c (by simp [m]) e inC

end Edited

/-- An edit that keeps the id and the level of the order. -/
theorem editOrder_spec (tree : Tree type s ch (B₁ ++ b :: B₂)) (orders : b.orders = es₁ ++ (l,o) :: es₂)
    (isId : (f o).orderId = o.orderId) (isLevel : (f o).level = o.level) (delta : Int) :
    ∃ s', s.editOrder l f delta = some s' ∧
      Tree type s' ch (B₁ ++ b.amend delta (es₁ ++ (l,f o) :: es₂) :: B₂) ∧
      TreeStep s s' ch ch (B₁ ++ b :: B₂) (B₁ ++ b.amend delta (es₁ ++ (l,f o) :: es₂) :: B₂) := by
  have owner : (f o).level = some b.ptr := isLevel.trans (tree.hosted.owner b (by simp) (l,o) (by simp [orders]))
  obtain ⟨s',executed,edited⟩ := editOrder_run tree.hosted orders isLevel delta
  have ptrs : (B₁ ++ b.amend delta (es₁ ++ (l,f o) :: es₂) :: B₂).map Block.ptr = (B₁ ++ b :: B₂).map Block.ptr := by
    simp [Block.amend]
  have sameLocs : (entries (B₁ ++ b.amend delta (es₁ ++ (l,f o) :: es₂) :: B₂)).map Prod.fst =
      (entries (B₁ ++ b :: B₂)).map Prod.fst := by simp [orders,Block.amend]
  have covers' : Covers ch (B₁ ++ b.amend delta (es₁ ++ (l,f o) :: es₂) :: B₂) := tree.covers.trans sameLocs.symm
  refine ⟨s',executed,⟨⟨edited.hosted tree.hosted tree.covers orders isId owner covers',covers',tree.segments⟩,?_,?_⟩,?_,?_⟩
  · rw [ptrs]
    exact tree.priced.of_spine (by rw [edited.tree]) (by rw [edited.tree]) edited.spine
  · intro c member
    simp only [List.mem_append,List.mem_cons] at member
    rcases member with m | rfl | m
    · exact tree.blocks c (by simp [m])
    · simp [Block.amend]
    · exact tree.blocks c (by simp [m])
  · exact framed_same fun x out => edited.outside x out
  · rw [ptrs]
    apply framed_same
    intro x out
    rw [edited.level,if_neg]
    rintro rfl
    simp at out

end TreeState

end BaboEngine
