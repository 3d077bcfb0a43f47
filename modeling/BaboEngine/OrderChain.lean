import BaboEngine.PriceLevels

/-!
# The order chain

The nodes of one side as a list of segments, a segment being a node and its
live slots in order (`Chained`), and the orders of the side as a list of blocks,
one for each level (`Hosted`). Relocations give orders new slots; `rename` tracks
that in the blocks, which otherwise stay as they are.
-/

namespace BaboEngine
open DoublyLinked

/-- A node of the chain with its live slots in order. -/
structure Segment where
  ptr : Ptr
  slots : List Nat

/-- The orders of a level, each with its slot, and the totals of the level. -/
structure Block where
  ptr : Ptr
  price : Nat
  quantity : Nat
  count : Nat
  orders : List (OrderLoc × SimpleOrder)

def Segment.locs (g : Segment) : List OrderLoc := g.slots.map fun i => ⟨g.ptr,i⟩

/-- The slots of a chain in order. -/
def locs (ch : List Segment) : List OrderLoc := ch.flatMap Segment.locs

/-- The orders of a side in order. -/
def entries (bl : List Block) : List (OrderLoc × SimpleOrder) := bl.flatMap Block.orders

@[simp] theorem locs_nil : locs [] = [] := rfl
@[simp] theorem locs_cons (g : Segment) (ch : List Segment) : locs (g :: ch) = g.locs ++ locs ch := rfl
@[simp] theorem locs_append (ch ch' : List Segment) : locs (ch ++ ch') = locs ch ++ locs ch' := by simp [locs]
@[simp] theorem entries_nil : entries [] = [] := rfl
@[simp] theorem entries_cons (b : Block) (bl : List Block) : entries (b :: bl) = b.orders ++ entries bl := rfl
@[simp] theorem entries_append (bl bl' : List Block) : entries (bl ++ bl') = entries bl ++ entries bl' := by
  simp [entries]

theorem mem_locs {ch : List Segment} {l : OrderLoc} : l ∈ locs ch ↔ ∃ g ∈ ch, g.ptr = l.pinLoc ∧ l.index ∈ g.slots := by
  simp only [locs,List.mem_flatMap,Segment.locs,List.mem_map]
  constructor
  · rintro ⟨g,member,i,slot,rfl⟩
    exact ⟨g,member,rfl,slot⟩
  · rintro ⟨g,member,same,slot⟩
    exact ⟨g,member,l.index,slot,by cases l; simp_all⟩

/-- Giving orders other slots. -/
def Block.rename (ρ : OrderLoc → OrderLoc) (b : Block) : Block := { b with orders := b.orders.map (Prod.map ρ id) }

theorem entries_rename (ρ : OrderLoc → OrderLoc) (bl : List Block) :
    entries (bl.map (Block.rename ρ)) = (entries bl).map (Prod.map ρ id) := by
  simp only [entries,List.flatMap_map,List.map_flatMap,Block.rename]

theorem rename_id (bl : List Block) : bl.map (Block.rename id) = bl := by
  have same : Block.rename id = id := by
    funext b
    simp [Block.rename]
  rw [same,List.map_id]

theorem rename_comp (ρ σ : OrderLoc → OrderLoc) (bl : List Block) :
    (bl.map (Block.rename ρ)).map (Block.rename σ) = bl.map (Block.rename (σ ∘ ρ)) := by
  simp only [List.map_map]
  congr 1
  funext b
  simp [Block.rename,Function.comp_def]

@[simp] theorem rename_ptrs (ρ : OrderLoc → OrderLoc) (bl : List Block) :
    (bl.map (Block.rename ρ)).map Block.ptr = bl.map Block.ptr := by
  simp only [List.map_map]
  rfl

/-- The renaming of one relocation. -/
def moved (old new : OrderLoc) (l : OrderLoc) : OrderLoc := if l = old then new else l

theorem moved_old (old new : OrderLoc) : moved old new old = new := by simp [moved]

theorem moved_other {old new l : OrderLoc} (other : l ≠ old) : moved old new l = l := by simp [moved,other]

theorem map_moved_of_not_mem {old new : OrderLoc} (ls : List OrderLoc) (out : old ∉ ls) : ls.map (moved old new) = ls := by
  refine List.map_congr_left (g := id) ?_ |>.trans (List.map_id ls)
  intro l member
  exact moved_other (fun same => out (same ▸ member))

/-- What the index of levels reads of a level. -/
structure LevelSpine where
  left : Option Ptr
  right : Option Ptr
  parent : Option Ptr
  pred : Option Ptr
  succ : Option Ptr
  color : RedBlack.Color
  price : Nat

def PriceLevel.spine (d : PriceLevel) : LevelSpine := ⟨d.left,d.right,d.parent,d.pred,d.succ,d.color,d.price⟩

/-- The cells of one kind that a step may change: those of `L`, of which the ones outside of `L'`
    die, and those of `L'`, of which the ones outside of `L` are born. -/
structure Framed {β : Type} (read read' : Ptr → Option β) (L L' : List Ptr) : Prop where
  outside : ∀ a, a ∉ L → a ∉ L' → read' a = read a
  fresh : ∀ a ∈ L', a ∉ L → read a = none
  gone : ∀ a ∈ L, a ∉ L' → read' a = none

section
variable {β : Type} {read read' read'' : Ptr → Option β} {L L' L'' : List Ptr}

theorem framed_same (outside : ∀ a, a ∉ L → read' a = read a) : Framed read read' L L :=
  ⟨fun a out _ => outside a out,fun _ member out => absurd member out,fun _ member out => absurd member out⟩

theorem Framed.trans (first : Framed read read' L L') (second : Framed read' read'' L' L'') :
    Framed read read'' L L'' := by
  refine ⟨?_,?_,?_⟩
  · intro a out out''
    by_cases mid : a ∈ L'
    · rw [first.fresh a mid out,second.gone a mid out'']
    · rw [second.outside a mid out'',first.outside a out mid]
  · intro a member out
    by_cases mid : a ∈ L'
    · exact first.fresh a mid out
    · rw [← first.outside a out mid]
      exact second.fresh a member mid
  · intro a member out
    by_cases mid : a ∈ L'
    · exact second.gone a mid out
    · rw [second.outside a mid out]
      exact first.gone a member mid

end

namespace TreeState
variable {N : Capacity} {s s' s'' : TreeState N} {type : OrderType}
variable {ch ch' pre post : List Segment} {bl : List Block} {a : Ptr} {n n' : PinNode N}

def nextOf (s : TreeState N) (a : Ptr) : Option Ptr := (s.node a).bind (·.nextNode)

def prevOf (s : TreeState N) (a : Ptr) : Option Ptr := (s.node a).bind (·.prevNode)

/-- The state after a write to a node. -/
def setNode (s : TreeState N) (a : Ptr) (n : PinNode N) : TreeState N := { s with nodes := s.nodes.write a n }

@[simp] theorem node_setNode (s : TreeState N) (a b : Ptr) (n : PinNode N) :
    (s.setNode a n).node b = if b = a then some n else s.node b := by
  simp [node,setNode]

theorem modifyNode_eq (read : s.node a = some n) (f : PinNode N → PinNode N) :
    s.modifyNode a f = some (s.setNode a (f n)) := by
  simp [modifyNode,read,setNode]

/-- A step that writes to live nodes and to nothing else. -/
structure NodeWrite (s s' : TreeState N) : Prop where
  levels : s'.levels = s.levels
  tree : s'.toNarbTree = s.toNarbTree
  wellFormed : s.nodes.WellFormed → s'.nodes.WellFormed

theorem NodeWrite.trans (first : NodeWrite s s') (second : NodeWrite s' s'') : NodeWrite s s'' :=
  ⟨second.levels.trans first.levels,second.tree.trans first.tree,fun wf => second.wellFormed (first.wellFormed wf)⟩

theorem modifyNode_run (f : PinNode N → PinNode N) (isLive : s.node a ≠ none) :
    ∃ s', s.modifyNode a f = some s' ∧ NodeWrite s s' ∧
      ∀ x, s'.node x = if a = x then (s.node x).map f else s.node x := by
  obtain ⟨n,read⟩ := Option.ne_none_iff_exists'.mp isLive
  refine ⟨_,modifyNode_eq read f,⟨rfl,rfl,fun wf => wf.write isLive _⟩,?_⟩
  intro x
  by_cases h : x = a
  · simp [h,read]
  · have : ¬ a = x := fun e => h e.symm
    simp [h,this]

/-- The chain of nodes, each with its list of slots. -/
structure Chained (s : TreeState N) (ch : List Segment) : Prop where
  links : Linked s.nextOf s.prevOf (ch.map Segment.ptr)
  head : s.chainHead = (ch.map Segment.ptr).head?
  tail : s.chainTail = (ch.map Segment.ptr).getLast?
  nodup : (ch.map Segment.ptr).Nodup
  holds : ∀ g ∈ ch, ∃ n fs, s.node g.ptr = some n ∧ n.Holds g.slots fs

/-- Memory holds the orders of the blocks in the slots of the chain, the index and the
    levels refer to those slots, and each order refers to its level. -/
structure Hosted (s : TreeState N) (ch : List Segment) (bl : List Block) : Prop where
  nodes : s.nodes.WellFormed
  levels : s.levels.WellFormed
  chained : Chained s ch
  slots : ∀ e ∈ entries bl, e.1 ∈ locs ch
  payload : ∀ e ∈ entries bl, s.orderAt e.1 = some e.2
  owner : ∀ b ∈ bl, ∀ e ∈ b.orders, e.2.level = some b.ptr
  index : ∀ id l, s.orderIndex id = some l ↔ ∃ o, (l,o) ∈ entries bl ∧ o.orderId = id
  read : ∀ b ∈ bl, ∃ d, s.level b.ptr = some d ∧ d.body =
    ⟨b.price,b.quantity,b.count,b.orders.head?.map Prod.fst,b.orders.getLast?.map Prod.fst⟩
  ptrs : (bl.map Block.ptr).Nodup

theorem Chained.read {g : Segment} (chained : Chained s (pre ++ g :: post)) :
    ∃ n fs, s.node g.ptr = some n ∧ n.Holds g.slots fs ∧ n.prevNode = (pre.map Segment.ptr).getLast? ∧
      n.nextNode = (post.map Segment.ptr).head? := by
  obtain ⟨n,fs,read,holds⟩ := chained.holds g (by simp)
  obtain ⟨before,behind⟩ := chained.links (pre.map Segment.ptr) g.ptr (post.map Segment.ptr) (by simp)
  exact ⟨n,fs,read,holds,by simpa [prevOf,read] using before,by simpa [nextOf,read] using behind⟩

theorem segment_locs_nodup {g : Segment} (nodup : g.slots.Nodup) : g.locs.Nodup :=
  nodup.map_on fun _ _ _ _ same => (OrderLoc.mk.injEq _ _ _ _ ▸ same).2

theorem Chained.locs_nodup (chained : Chained s ch) : (locs ch).Nodup := by
  refine List.nodup_flatMap.mpr ⟨?_,?_⟩
  · intro g member
    obtain ⟨n,fs,_,holds⟩ := chained.holds g member
    exact segment_locs_nodup (List.nodup_append.mp holds.nodup).1
  · apply (List.pairwise_map.mp chained.nodup).imp
    intro g h other l inG inH
    obtain ⟨i,_,rfl⟩ := List.mem_map.mp inG
    obtain ⟨j,_,same⟩ := List.mem_map.mp inH
    exact other (OrderLoc.mk.injEq _ _ _ _ ▸ same).1.symm

/-- Where a slot of the chain is: in one segment, behind the slots before it and before those behind it. -/
theorem Chained.position {L R : List OrderLoc} {l : OrderLoc} (chained : Chained s ch) (split : locs ch = L ++ l :: R) :
    ∃ pre us vs post, ch = pre ++ ⟨l.pinLoc,us ++ l.index :: vs⟩ :: post ∧
      L = locs pre ++ us.map (OrderLoc.mk l.pinLoc) ∧ R = vs.map (OrderLoc.mk l.pinLoc) ++ locs post := by
  have member : l ∈ locs ch := by simp [split]
  obtain ⟨⟨a,xs⟩,inCh,isPtr,slot⟩ := mem_locs.mp member
  obtain ⟨pre,post,rfl⟩ := List.append_of_mem inCh
  obtain ⟨us,vs,rfl⟩ := List.append_of_mem slot
  simp only at isPtr
  subst isPtr
  have whole : locs (pre ++ ⟨l.pinLoc,us ++ l.index :: vs⟩ :: post) =
      (locs pre ++ us.map (OrderLoc.mk l.pinLoc)) ++ l :: (vs.map (OrderLoc.mk l.pinLoc) ++ locs post) := by
    simp [Segment.locs]
  have distinct := split ▸ chained.locs_nodup
  have apart := (List.nodup_cons.mp (List.nodup_middle.mp distinct)).1
  rw [List.mem_append,not_or] at apart
  rw [split] at whole
  obtain ⟨front,_,back⟩ := (List.append_cons_inj_of_notMem apart.1 apart.2).mp whole
  exact ⟨pre,us,vs,post,rfl,front,back⟩

/-- The chain depends on the memory of its own nodes only. -/
theorem Chained.congr (chained : Chained s ch) (head : s'.chainHead = s.chainHead) (tail : s'.chainTail = s.chainTail)
    (same : ∀ g ∈ ch, s'.node g.ptr = s.node g.ptr) : Chained s' ch := by
  refine ⟨linked_congr chained.links ?_,head.trans chained.head,tail.trans chained.tail,chained.nodup,?_⟩
  · intro x member
    obtain ⟨g,inCh,rfl⟩ := List.mem_map.mp member
    simp only [nextOf,prevOf,same g inCh,and_self]
  · intro g member
    rw [same g member]
    exact chained.holds g member

/-- A node occurs once in the chain. -/
theorem Chained.segment_unique {g g' : Segment} (chained : Chained s ch) (member : g ∈ ch) (member' : g' ∈ ch)
    (same : g.ptr = g'.ptr) : g = g' :=
  List.inj_on_of_nodup_map chained.nodup member member' same

/-- A node of the chain gets other slots and keeps its neighbours. -/
theorem Chained.setNode {xs xs' : List Nat} {fs : List Nat} (chained : Chained s (pre ++ ⟨a,xs⟩ :: post))
    (read : s.node a = some n) (next : n'.nextNode = n.nextNode) (prev : n'.prevNode = n.prevNode)
    (holds : n'.Holds xs' fs) : Chained (s.setNode a n') (pre ++ ⟨a,xs'⟩ :: post) := by
  have ptrs : (pre ++ (⟨a,xs'⟩ : Segment) :: post).map Segment.ptr =
      (pre ++ (⟨a,xs⟩ : Segment) :: post).map Segment.ptr := by simp
  refine ⟨?_,?_,?_,?_,?_⟩
  · rw [ptrs]
    apply linked_congr chained.links
    intro x _
    by_cases same : x = a
    · subst same
      simp [nextOf,prevOf,read,next,prev]
    · simp [nextOf,prevOf,same]
  · rw [ptrs]
    exact chained.head
  · rw [ptrs]
    exact chained.tail
  · rw [ptrs]
    exact chained.nodup
  · intro g member
    simp only [List.mem_append,List.mem_cons] at member
    have apart := chained.nodup
    simp only [List.map_append,List.map_cons,List.nodup_append,List.nodup_cons,List.mem_cons,List.mem_map] at apart
    rcases member with inPre | rfl | inPost
    · have other : g.ptr ≠ a := fun same => apart.2.2 g.ptr ⟨g,inPre,rfl⟩ a (.inl rfl) same
      obtain ⟨m,fs',readG,holdsG⟩ := chained.holds g (by simp [inPre])
      exact ⟨m,fs',by simp [other,readG],holdsG⟩
    · exact ⟨n',fs,by simp,holds⟩
    · have other : g.ptr ≠ a := fun same => apart.2.1.1 ⟨g,inPost,same⟩
      obtain ⟨m,fs',readG,holdsG⟩ := chained.holds g (by simp [inPost])
      exact ⟨m,fs',by simp [other,readG],holdsG⟩

/-- The blocks cover the chain: every slot of it holds an order of theirs, in the same order. -/
def Covers (ch : List Segment) (bl : List Block) : Prop := locs ch = (entries bl).map Prod.fst

/-- What a step on the chain leaves: the index of levels, and all cells of other trees. -/
structure ChainStep (s s' : TreeState N) (ch ch' : List Segment) (bl : List Block) : Prop where
  best : s'.best = s.best
  root : s'.root = s.root
  spine : ∀ x, (s'.level x).map PriceLevel.spine = (s.level x).map PriceLevel.spine
  levels : ∀ x, x ∉ bl.map Block.ptr → s'.level x = s.level x
  nodes : Framed s.node s'.node (ch.map Segment.ptr) (ch'.map Segment.ptr)
  count : s'.levels.nbElements = s.levels.nbElements

theorem ChainStep.refl (s : TreeState N) (ch : List Segment) (bl : List Block) : ChainStep s s ch ch bl :=
  ⟨rfl,rfl,fun _ => rfl,fun _ _ => rfl,framed_same fun _ _ => rfl,rfl⟩

theorem ChainStep.trans {ch'' : List Segment} {bl' : List Block} (first : ChainStep s s' ch ch' bl)
    (second : ChainStep s' s'' ch' ch'' bl') (ptrs : bl'.map Block.ptr = bl.map Block.ptr) :
    ChainStep s s'' ch ch'' bl := by
  refine ⟨second.best.trans first.best,second.root.trans first.root,fun x => (second.spine x).trans (first.spine x),?_,
    first.nodes.trans second.nodes,second.count.trans first.count⟩
  intro x out
  rw [second.levels x (ptrs ▸ out),first.levels x out]

theorem Hosted.block_of_entry {e : OrderLoc × SimpleOrder} (member : e ∈ entries bl) : ∃ b ∈ bl, e ∈ b.orders := by
  simpa [entries] using member

/-- A slot holds one order. -/
theorem Hosted.entry_unique (hosted : Hosted s ch bl) {l : OrderLoc} {o o' : SimpleOrder} (first : (l,o) ∈ entries bl)
    (second : (l,o') ∈ entries bl) : o = o' := by
  have one := hosted.payload _ first
  have two := hosted.payload _ second
  exact Option.some.inj (one.symm.trans two)

/-- An order is in one block. -/
theorem Hosted.block_unique (hosted : Hosted s ch bl) {l : OrderLoc} {o o' : SimpleOrder} {b b' : Block} (inBl : b ∈ bl)
    (inBl' : b' ∈ bl) (first : (l,o) ∈ b.orders) (second : (l,o') ∈ b'.orders) : b.ptr = b'.ptr := by
  have same := hosted.entry_unique (List.mem_flatMap.mpr ⟨b,inBl,first⟩) (List.mem_flatMap.mpr ⟨b',inBl',second⟩)
  have one := hosted.owner b inBl _ first
  have two := hosted.owner b' inBl' _ second
  rw [← same] at two
  exact Option.some.inj (one.symm.trans two)

theorem head_rename (ρ : OrderLoc → OrderLoc) (es : List (OrderLoc × SimpleOrder)) :
    (es.map (Prod.map ρ id)).head?.map Prod.fst = (es.head?.map Prod.fst).map ρ := by
  simp [List.head?_map,Option.map_map,Function.comp_def]

theorem tail_rename (ρ : OrderLoc → OrderLoc) (es : List (OrderLoc × SimpleOrder)) :
    (es.map (Prod.map ρ id)).getLast?.map Prod.fst = (es.getLast?.map Prod.fst).map ρ := by
  simp [List.getLast?_map,Option.map_map,Function.comp_def]

/-! ## One relocation -/

/-- The references to an order that moved from the slot `old` to the slot `new` follow it. -/
theorem Hosted.move {old new : OrderLoc} {o : SimpleOrder} {L : Ptr} (hosted : Hosted s ch bl) (covers : Covers ch bl)
    (here : (old,o) ∈ entries bl) (isLevel : o.level = some L)
    (nodes : s'.nodes.WellFormed) (levels : s'.levels.WellFormed) (chained : Chained s' ch')
    (slots : locs ch' = (locs ch).map (moved old new)) (atNew : s'.orderAt new = some o)
    (others : ∀ l ∈ locs ch, l ≠ old → s'.orderAt l = s.orderAt l)
    (index : ∀ id, s'.orderIndex id = if id = o.orderId then some new else s.orderIndex id)
    (level : ∀ x, s'.level x = if L = x then (s.level x).map (fun d =>
      { d with tail := d.tail.map (moved old new), head := d.head.map (moved old new) }) else s.level x) :
    Hosted s' ch' (bl.map (Block.rename (moved old new))) ∧ Covers ch' (bl.map (Block.rename (moved old new))) := by
  have covers' : Covers ch' (bl.map (Block.rename (moved old new))) := by
    unfold Covers
    rw [slots,covers,entries_rename]
    simp [Function.comp_def]
  -- An entry of the renamed blocks is an old entry, at its new slot if it is the moved one.
  have entry : ∀ l o', (l,o') ∈ entries (bl.map (Block.rename (moved old new))) →
      ∃ l', (l',o') ∈ entries bl ∧ l = moved old new l' := by
    intro l o' member
    rw [entries_rename] at member
    obtain ⟨⟨l',o''⟩,member',same⟩ := List.mem_map.mp member
    simp only [Prod.map,id,Prod.mk.injEq] at same
    exact ⟨l',same.2 ▸ member',same.1.symm⟩
  refine ⟨⟨nodes,levels,chained,?_,?_,?_,?_,?_,by rw [rename_ptrs]; exact hosted.ptrs⟩,covers'⟩
  · intro e member
    rw [covers']
    exact List.mem_map_of_mem member
  · rintro ⟨l,o'⟩ member
    obtain ⟨l',member',rfl⟩ := entry l o' member
    by_cases same : l' = old
    · subst same
      rw [moved_old,atNew,hosted.entry_unique here member']
    · rw [moved_other same]
      exact (others l' (hosted.slots _ member') same).trans (hosted.payload _ member')
  · intro b member e inB
    obtain ⟨b',member',rfl⟩ := List.mem_map.mp member
    obtain ⟨e',inB',rfl⟩ := List.mem_map.mp inB
    exact hosted.owner b' member' e' inB'
  · intro id l
    rw [index id]
    by_cases same : id = o.orderId
    · rw [if_pos same]
      constructor
      · intro isNew
        refine ⟨o,?_,same.symm⟩
        rw [entries_rename,← Option.some.inj isNew]
        exact List.mem_map.mpr ⟨(old,o),here,by simp [moved_old]⟩
      · rintro ⟨o',member,isId⟩
        obtain ⟨l',member',rfl⟩ := entry l o' member
        have one := (hosted.index id l').mpr ⟨o',member',isId⟩
        have two := (hosted.index id old).mpr ⟨o,here,same.symm⟩
        rw [show l' = old from Option.some.inj (one.symm.trans two),moved_old]
    · rw [if_neg same,hosted.index id l]
      constructor
      · rintro ⟨o',member,isId⟩
        have other : l ≠ old := by
          rintro rfl
          rw [hosted.entry_unique member here] at isId
          exact same isId.symm
        refine ⟨o',?_,isId⟩
        rw [entries_rename]
        exact List.mem_map.mpr ⟨(l,o'),member,by simp [moved_other other]⟩
      · rintro ⟨o',member,isId⟩
        obtain ⟨l',member',rfl⟩ := entry l o' member
        have other : l' ≠ old := by
          rintro rfl
          rw [hosted.entry_unique member' here] at isId
          exact same isId.symm
        rw [moved_other other]
        exact ⟨o',member',isId⟩
  · intro b member
    obtain ⟨b',member',rfl⟩ := List.mem_map.mp member
    obtain ⟨d,read,body⟩ := hosted.read b' member'
    show ∃ d, s'.level b'.ptr = some d ∧ d.body = ⟨b'.price,b'.quantity,b'.count,
      (b'.orders.map (Prod.map (moved old new) id)).head?.map Prod.fst,
      (b'.orders.map (Prod.map (moved old new) id)).getLast?.map Prod.fst⟩
    rw [head_rename,tail_rename]
    by_cases isOwner : L = b'.ptr
    · refine ⟨_,by rw [level,if_pos isOwner,read]; rfl,?_⟩
      simp only [PriceLevel.body,LevelBody.mk.injEq] at body ⊢
      obtain ⟨price,quantity,count,head,tail⟩ := body
      exact ⟨price,quantity,count,by rw [head],by rw [tail]⟩
    · refine ⟨d,by rw [level,if_neg isOwner]; exact read,?_⟩
      -- The moved order is in no other block.
      have apart : ∀ e ∈ b'.orders, e.1 ≠ old := by
        rintro ⟨l,o'⟩ inB rfl
        obtain ⟨b,inBl,inB'⟩ := Hosted.block_of_entry here
        have one := hosted.owner b inBl _ inB'
        rw [hosted.block_unique inBl member' inB' inB] at one
        exact isOwner (Option.some.inj (isLevel.symm.trans one))
      have keep : ∀ x : Option (OrderLoc × SimpleOrder), (∀ e, x = some e → e ∈ b'.orders) →
          (x.map Prod.fst).map (moved old new) = x.map Prod.fst := by
        intro x inB
        cases x with
        | none => rfl
        | some e => simp [moved_other (apart e (inB e rfl))]
      rw [keep _ (fun e => List.mem_of_head?),keep _ (fun e => List.mem_of_getLast?)]
      exact body

theorem tail_moved (old new : OrderLoc) (d : PriceLevel) : (if d.tail = some old then { d with tail := some new } else d) =
    { d with tail := d.tail.map (moved old new) } := by
  rcases d with ⟨_,_,_,_,_,_,_,_,_,_ | h,_ | t⟩ <;> simp [moved] <;> split_ifs <;> rfl

theorem head_moved (old new : OrderLoc) (d : PriceLevel) : (if d.head = some old then { d with head := some new } else d) =
    { d with head := d.head.map (moved old new) } := by
  rcases d with ⟨_,_,_,_,_,_,_,_,_,_ | h,_ | t⟩ <;> simp [moved] <;> split_ifs <;> rfl

/-- What `relocate_tail_to_head` writes: the two nodes, the place of the order in the index, and the ends of its level. -/
structure Relocated (s s' : TreeState N) (old new : OrderLoc) (n m : PinNode N) (id : Nat) (L : Ptr) : Prop where
  node : ∀ x, s'.node x = if x = new.pinLoc then some m else if x = old.pinLoc then some n else s.node x
  orderIndex : ∀ i, s'.orderIndex i = if i = id then some new else s.orderIndex i
  level : ∀ x, s'.level x = if L = x then (s.level x).map (fun d =>
      { d with tail := d.tail.map (moved old new), head := d.head.map (moved old new) }) else s.level x
  nodes : s.nodes.WellFormed → s'.nodes.WellFormed
  levels : s.levels.WellFormed → s'.levels.WellFormed
  best : s'.best = s.best
  root : s'.root = s.root
  chainHead : s'.chainHead = s.chainHead
  chainTail : s'.chainTail = s.chainTail
  count : s'.levels.nbElements = s.levels.nbElements

theorem relocateTailToHead_run {b L : Ptr} {m m' : PinNode N} {o : SimpleOrder} {i j : Nat} (readA : s.node a = some n)
    (isTail : n.tail = some i)
    (stored : n.slots i = o) (isLevel : o.level = some L) (readL : s.level L ≠ none) (readB : s.node b = some m) (apart : b ≠ a)
    (added : m.prepend o = some (m',j)) (here : m'.slots j = o) :
    ∃ s', s.relocateTailToHead a b = some s' ∧ Relocated s s' ⟨a,i⟩ ⟨b,j⟩ (n.erase i) m' o.orderId L := by
  obtain ⟨s₁,s₁Is⟩ : ∃ s₁, s₁ = s.setNode a (n.erase i) := ⟨_,rfl⟩
  have step₁ : s.modifyNode a (fun n => n.erase i) = some s₁ := s₁Is ▸ modifyNode_eq readA _
  have readB₁ : s₁.node b = some m := by simp [s₁Is,apart,readB]
  obtain ⟨s₂,s₂Is⟩ : ∃ s₂, s₂ = s₁.setNode b m' := ⟨_,rfl⟩
  have step₂ : s₁.modifyNode b (fun _ => m') = some s₂ := s₂Is ▸ modifyNode_eq readB₁ _
  obtain ⟨s₃,s₃Is⟩ : ∃ s₃ : TreeState N, s₃ =
      { s₂ with orderIndex := fun id => if id = o.orderId then some ⟨b,j⟩ else s₂.orderIndex id } := ⟨_,rfl⟩
  have level₃ : ∀ x, s₃.level x = s.level x := fun x => by rw [s₃Is,s₂Is,s₁Is]; rfl
  obtain ⟨s₄,step₄,write₄,level₄⟩ := modifyLevel_run (s := s₃) (a := L)
    (fun d => if d.tail = some ⟨a,i⟩ then { d with tail := some ⟨b,j⟩ } else d) (by rw [level₃]; exact readL)
  obtain ⟨s₅,step₅,write₅,level₅⟩ := modifyLevel_run (s := s₄) (a := L)
    (fun d => if d.head = some ⟨a,i⟩ then { d with head := some ⟨b,j⟩ } else d) (by rw [level₄]; simpa [level₃] using readL)
  have write := write₄.trans write₅
  refine ⟨s₅,?_,?_,?_,?_,?_,?_,?_,?_,?_,?_,?_⟩
  · simp only [relocateTailToHead,readA,isTail,stored,isLevel,step₁,readB₁,added,step₂,here,← s₃Is,step₄,step₅,
      Option.bind_eq_bind,Option.bind_some]
  · intro x
    have node₃ : s₃.node x = if x = b then some m' else if x = a then some (n.erase i) else s.node x := by
      rw [s₃Is]
      show s₂.node x = _
      simp [s₂Is,s₁Is]
    rw [← node₃]
    simp only [node,write.nodes]
  · intro id
    rw [write.orderIndex,s₃Is,s₂Is,s₁Is]
    rfl
  · intro x
    rw [level₅,level₄,level₃]
    by_cases same : L = x
    · simp only [same,↓reduceIte,Option.map_map]
      congr 1
      funext e
      rw [Function.comp_apply,tail_moved,head_moved]
    · simp only [same,↓reduceIte]
  · intro wf
    rw [write.nodes,s₃Is]
    show s₂.nodes.WellFormed
    rw [s₂Is,s₁Is]
    refine (wf.write (by rw [show s.nodes.read a = s.node a from rfl,readA]; simp) _).write ?_ _
    rw [show (s.nodes.write a (n.erase i)).read b = (s.setNode a (n.erase i)).node b from rfl,← s₁Is,readB₁]
    simp
  · intro wf
    apply write.wellFormed
    rw [s₃Is,s₂Is,s₁Is]
    exact wf
  all_goals first | rw [write.best] | rw [write.root] | rw [write.chainHead] | rw [write.chainTail] | rw [write.count]
  all_goals rw [s₃Is,s₂Is,s₁Is]; rfl

/-- `relocate_tail_to_head`: the last order of a node becomes the first of the next node. -/
theorem relocateTailToHead_spec {b : Ptr} {xs ys : List Nat} {i : Nat}
    (hosted : Hosted s (pre ++ ⟨a,xs ++ [i]⟩ :: ⟨b,ys⟩ :: post) bl)
    (covers : Covers (pre ++ ⟨a,xs ++ [i]⟩ :: ⟨b,ys⟩ :: post) bl) (room : ys.length < N.val) :
    ∃ s' j, s.relocateTailToHead a b = some s' ∧
      Hosted s' (pre ++ ⟨a,xs⟩ :: ⟨b,j :: ys⟩ :: post) (bl.map (Block.rename (moved ⟨a,i⟩ ⟨b,j⟩))) ∧
      Covers (pre ++ ⟨a,xs⟩ :: ⟨b,j :: ys⟩ :: post) (bl.map (Block.rename (moved ⟨a,i⟩ ⟨b,j⟩))) ∧
      ChainStep s s' (pre ++ ⟨a,xs ++ [i]⟩ :: ⟨b,ys⟩ :: post) (pre ++ ⟨a,xs⟩ :: ⟨b,j :: ys⟩ :: post) bl ∧
      (⟨b,j⟩ : OrderLoc) ∉ locs (pre ++ ⟨a,xs ++ [i]⟩ :: ⟨b,ys⟩ :: post) := by
  have chained := hosted.chained
  have locsNodup := chained.locs_nodup
  have split : pre ++ (⟨a,xs ++ [i]⟩ : Segment) :: ⟨b,ys⟩ :: post = (pre ++ [⟨a,xs ++ [i]⟩]) ++ ⟨b,ys⟩ :: post := by simp
  obtain ⟨n,fs,readA,holdsA,_⟩ := chained.read
  obtain ⟨m,gs,readB,holdsB,_⟩ := (split ▸ chained).read
  have ab : b ≠ a := by
    have nodup := chained.nodup
    simp only [List.map_append,List.map_cons,List.nodup_append,List.nodup_cons,List.mem_cons] at nodup
    exact fun same => nodup.2.1.1 (.inl same.symm)
  -- The order that moves.
  have inLocs : (⟨a,i⟩ : OrderLoc) ∈ locs (pre ++ ⟨a,xs ++ [i]⟩ :: ⟨b,ys⟩ :: post) :=
    mem_locs.mpr ⟨⟨a,xs ++ [i]⟩,by simp,rfl,by simp⟩
  rw [covers] at inLocs
  obtain ⟨⟨l,o⟩,here,isOld⟩ := List.mem_map.mp inLocs
  simp only at isOld
  subst isOld
  have stored : n.slots i = o := by
    have payload := hosted.payload _ here
    simpa [orderAt,readA] using payload
  obtain ⟨blk,inBl,inBlk⟩ := Hosted.block_of_entry here
  have isLevel : o.level = some blk.ptr := hosted.owner blk inBl _ inBlk
  obtain ⟨d,readL,_⟩ := hosted.read blk inBl
  obtain ⟨erased,slotsA,nextA,prevA⟩ := PinNode.erase_spec holdsA
  rw [List.append_nil] at erased
  obtain ⟨j,rest,m',rfl,added,holdsB',put⟩ := PinNode.prepend_spec holdsB room o
  have jNew : j ∉ ys := fun member => (List.nodup_append.mp holdsB.nodup).2.2 j member j (by simp) rfl
  have newOut : (⟨b,j⟩ : OrderLoc) ∉ locs (pre ++ ⟨a,xs ++ [i]⟩ :: ⟨b,ys⟩ :: post) := by
    intro member
    obtain ⟨g,inCh,isB,slot⟩ := mem_locs.mp member
    have isSegment : g = ⟨b,ys⟩ := chained.segment_unique inCh (by simp) isB
    rw [isSegment] at slot
    exact jNew slot
  have isTail : n.tail = some i := by rw [holdsA.tail]; simp
  obtain ⟨s',executed,wrote⟩ := relocateTailToHead_run readA isTail stored isLevel (by simp [readL]) readB ab added put.here
  have chained' : Chained s' (pre ++ ⟨a,xs⟩ :: ⟨b,j :: ys⟩ :: post) := by
    have split' : pre ++ (⟨a,xs⟩ : Segment) :: ⟨b,ys⟩ :: post = (pre ++ [⟨a,xs⟩]) ++ ⟨b,ys⟩ :: post := by simp
    have first := chained.setNode readA nextA prevA erased
    have second := (split' ▸ first).setNode (by simpa [ab] using readB) put.nextNode put.prevNode holdsB'
    rw [List.append_assoc] at second
    refine second.congr wrote.chainHead wrote.chainTail fun g _ => ?_
    rw [wrote.node]
    simp
  have slots' : locs (pre ++ ⟨a,xs⟩ :: ⟨b,j :: ys⟩ :: post) =
      (locs (pre ++ ⟨a,xs ++ [i]⟩ :: ⟨b,ys⟩ :: post)).map (moved ⟨a,i⟩ ⟨b,j⟩) := by
    simp only [locs_append,locs_cons,Segment.locs,List.map_append,List.map_cons,List.map_nil,List.nodup_append,
      List.nodup_cons,List.mem_append,List.mem_cons] at locsNodup ⊢
    rw [map_moved_of_not_mem (locs pre) (by grind),map_moved_of_not_mem (List.map (OrderLoc.mk a) xs) (by grind),
      map_moved_of_not_mem (List.map (OrderLoc.mk b) ys) (by grind),map_moved_of_not_mem (locs post) (by grind),moved_old]
    simp
  have atNew : s'.orderAt ⟨b,j⟩ = some o := by
    simp [orderAt,wrote.node,put.here]
  have others : ∀ l ∈ locs (pre ++ ⟨a,xs ++ [i]⟩ :: ⟨b,ys⟩ :: post), l ≠ ⟨a,i⟩ → s'.orderAt l = s.orderAt l := by
    intro l member _
    simp only [orderAt,wrote.node]
    by_cases inB : l.pinLoc = b
    · have notJ : l.index ≠ j := by
        intro same
        have isNew : l = ⟨b,j⟩ := by rw [← inB,← same]
        exact newOut (by rw [← isNew]; exact member)
      simp only [inB,↓reduceIte,readB,Option.map_some,put.others l.index notJ]
    · by_cases inA : l.pinLoc = a
      · simp only [inA,ab.symm,↓reduceIte,readA,Option.map_some,slotsA]
      · simp only [inA,inB,↓reduceIte]
  obtain ⟨hosted',covers'⟩ := hosted.move covers here isLevel (wrote.nodes hosted.nodes) (wrote.levels hosted.levels) chained' slots' atNew others
    wrote.orderIndex wrote.level
  refine ⟨s',j,executed,hosted',covers',⟨wrote.best,wrote.root,?_,?_,?_,wrote.count⟩,newOut⟩
  · intro x
    rw [wrote.level x]
    split_ifs
    · simp only [Option.map_map]
      rfl
    · rfl
  · intro x out
    rw [wrote.level x,if_neg]
    rintro rfl
    exact out (List.mem_map.mpr ⟨blk,inBl,rfl⟩)
  · have ptrs : (pre ++ (⟨a,xs⟩ : Segment) :: ⟨b,j :: ys⟩ :: post).map Segment.ptr =
        (pre ++ (⟨a,xs ++ [i]⟩ : Segment) :: ⟨b,ys⟩ :: post).map Segment.ptr := by simp
    rw [ptrs]
    apply framed_same
    intro x out
    simp only [List.map_append,List.map_cons,List.mem_append,List.mem_cons,not_or] at out
    rw [wrote.node,if_neg out.2.2.1,if_neg out.2.1]

end TreeState

end BaboEngine
