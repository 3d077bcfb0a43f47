import BaboEngine.Iteration

/-!
# Removal from a tree

`erase` takes one order out and leaves all others in their slots. An emptied node and
an emptied level go back to their pools.
-/

namespace BaboEngine
open DoublyLinked

/-- A block that has lost the order `o` and keeps the orders `es`. -/
def Block.keep (b : Block) (o : SimpleOrder) (es : List (OrderLoc × SimpleOrder)) : Block :=
  { b with
    quantity := toU32 (b.quantity - o.openQty)
    count := toU32 (b.count - 1)
    orders := es }

namespace TreeState
variable {N : Capacity} {s s' s'' : TreeState N} {type : OrderType}
variable {ch ch' pre post : List Segment} {bl B₁ B₂ : List Block} {b : Block} {a lvl : Ptr}
variable {L R : List OrderLoc} {l loc : OrderLoc} {es es₁ es₂ : List (OrderLoc × SimpleOrder)} {o : SimpleOrder}

/-! ## The node -/

theorem linkForward_run (before following : Option Ptr) (isLive : ∀ p, before = some p → s.node p ≠ none) :
    ∃ s', s.linkForward before following = some s' ∧ s'.levels = s.levels ∧ s'.orderIndex = s.orderIndex ∧
      s'.best = s.best ∧ s'.root = s.root ∧ s'.chainTail = s.chainTail ∧
      s'.chainHead = (if before = none then following else s.chainHead) ∧
      (s.nodes.WellFormed → s'.nodes.WellFormed) ∧
      ∀ x, s'.node x = if before = some x then (s.node x).map (fun e => { e with nextNode := following }) else s.node x := by
  cases before with
  | none => exact ⟨{ s with chainHead := following },rfl,rfl,rfl,rfl,rfl,rfl,rfl,id,fun x => by simp [node]⟩
  | some p =>
    obtain ⟨s',executed,write,nodes⟩ := modifyNode_run (fun e => { e with nextNode := following }) (isLive p rfl)
    refine ⟨s',executed,write.levels,by rw [write.tree],by rw [write.tree],by rw [write.tree],by rw [write.tree],
      by rw [write.tree]; rfl,write.wellFormed,fun x => by simpa using nodes x⟩

theorem linkBackward_run (before following : Option Ptr) (isLive : ∀ p, following = some p → s.node p ≠ none) :
    ∃ s', s.linkBackward before following = some s' ∧ s'.levels = s.levels ∧ s'.orderIndex = s.orderIndex ∧
      s'.best = s.best ∧ s'.root = s.root ∧ s'.chainHead = s.chainHead ∧
      s'.chainTail = (if following = none then before else s.chainTail) ∧
      (s.nodes.WellFormed → s'.nodes.WellFormed) ∧
      ∀ x, s'.node x = if following = some x then (s.node x).map (fun e => { e with prevNode := before }) else s.node x := by
  cases following with
  | none => exact ⟨{ s with chainTail := before },rfl,rfl,rfl,rfl,rfl,rfl,rfl,id,fun x => by simp [node]⟩
  | some p =>
    obtain ⟨s',executed,write,nodes⟩ := modifyNode_run (fun e => { e with prevNode := before }) (isLive p rfl)
    refine ⟨s',executed,write.levels,by rw [write.tree],by rw [write.tree],by rw [write.tree],by rw [write.tree],
      by rw [write.tree]; rfl,write.wellFormed,fun x => by simpa using nodes x⟩

/-- A step on the nodes of a chain; `orderAt` keeps the orders of the slots in `ls`. -/
structure NodeStep (s s' : TreeState N) (ch ch' : List Segment) (ls : List OrderLoc) : Prop where
  levels : s'.levels = s.levels
  orderIndex : s'.orderIndex = s.orderIndex
  best : s'.best = s.best
  root : s'.root = s.root
  wellFormed : s'.nodes.WellFormed
  nodes : Framed s.node s'.node (ch.map Segment.ptr) (ch'.map Segment.ptr)
  orderAt : ∀ l ∈ ls, s'.orderAt l = s.orderAt l

/-- What `dropNode` leaves: the neighbours of `a` point past it, and its cell is free. -/
structure Dropped (s s' : TreeState N) (a : Ptr) (n : PinNode N) : Prop where
  node : ∀ x, s'.node x = if x = a then none else (s.node x).map fun e => { e with
      nextNode := if n.prevNode = some x then n.nextNode else e.nextNode
      prevNode := if n.nextNode = some x then n.prevNode else e.prevNode }
  levels : s'.levels = s.levels
  orderIndex : s'.orderIndex = s.orderIndex
  best : s'.best = s.best
  root : s'.root = s.root
  chainHead : s'.chainHead = if n.prevNode = none then n.nextNode else s.chainHead
  chainTail : s'.chainTail = if n.nextNode = none then n.prevNode else s.chainTail
  wellFormed : s'.nodes.WellFormed

theorem dropNode_run {n : PinNode N} (wf : s.nodes.WellFormed) (read : s.node a = some n)
    (before : ∀ p, n.prevNode = some p → s.node p ≠ none ∧ p ≠ a)
    (following : ∀ p, n.nextNode = some p → s.node p ≠ none ∧ p ≠ a) : ∃ s', s.dropNode a = some s' ∧ Dropped s s' a n := by
  obtain ⟨s₁,step₁,levels₁,index₁,best₁,root₁,tail₁,head₁,wf₁,node₁⟩ := linkForward_run (s := s) n.prevNode n.nextNode
    (fun p isPrev => (before p isPrev).1)
  obtain ⟨s₂,step₂,levels₂,index₂,best₂,root₂,head₂,tail₂,wf₂,node₂⟩ := linkBackward_run (s := s₁) n.prevNode n.nextNode
    (fun p isNext => by
      have live := (following p isNext).1
      rw [node₁]
      split_ifs <;> simp [live])
  have read₂ : s₂.node a = some n := by
    have notLast : n.prevNode ≠ some a := fun h => (before a h).2 rfl
    have notHead : n.nextNode ≠ some a := fun h => (following a h).2 rfl
    rw [node₂,if_neg notHead,node₁,if_neg notLast,read]
  obtain ⟨nodes₃,released,wf₃,reads₃,_⟩ := (wf₂ (wf₁ wf)).release (a := a) (by
    rw [show s₂.nodes.read a = s₂.node a from rfl,read₂]
    simp)
  obtain ⟨s₃,s₃Is⟩ : ∃ s₃ : TreeState N, s₃ = { s₂ with nodes := nodes₃ } := ⟨_,rfl⟩
  refine ⟨s₃,?_,?_,?_,?_,?_,?_,?_,?_,?_⟩
  · simp only [dropNode,read,step₁,step₂,released,← s₃Is,Option.bind_eq_bind,Option.bind_some]
  · intro x
    rw [show s₃.node x = nodes₃.read x by rw [s₃Is]; rfl,reads₃]
    by_cases same : x = a
    · rw [if_pos same,if_pos same]
    · rw [if_neg same,if_neg same,show s₂.nodes.read x = s₂.node x from rfl,node₂,node₁]
      cases s.node x <;> split_ifs <;> rfl
  · rw [s₃Is]
    exact levels₂.trans levels₁
  · rw [s₃Is]
    exact index₂.trans index₁
  · rw [s₃Is]
    exact best₂.trans best₁
  · rw [s₃Is]
    exact root₂.trans root₁
  · rw [s₃Is]
    exact head₂.trans head₁
  · rw [s₃Is]
    show s₂.chainTail = _
    rw [tail₂,tail₁]
  · rw [s₃Is]
    exact wf₃

/-- The nodes around one of the chain are alive, and none of them is that node. -/
theorem Chained.around {g₀ : Segment} (chained : Chained s (pre ++ g₀ :: post)) :
    ∀ g ∈ pre ++ post, s.node g.ptr ≠ none ∧ g.ptr ≠ g₀.ptr := by
  have apart := chained.nodup
  simp only [List.map_append,List.map_cons,List.nodup_append,List.nodup_cons,List.mem_cons] at apart
  intro g member
  have inCh : g ∈ pre ++ g₀ :: post := by
    simp only [List.mem_append,List.mem_cons] at member ⊢
    tauto
  obtain ⟨m,gs,readG,_⟩ := chained.holds g inCh
  refine ⟨by simp [readG],?_⟩
  cases List.mem_append.mp member with
  | inl m => exact fun same => apart.2.2 g.ptr (List.mem_map_of_mem m) g₀.ptr (.inl rfl) same
  | inr m =>
    intro same
    exact apart.2.1.1 (same ▸ List.mem_map_of_mem m)

theorem Dropped.chained {n : PinNode N} (dropped : Dropped s s' a n) (chained : Chained s (pre ++ ⟨a,[]⟩ :: post))
    (prev : n.prevNode = (pre.map Segment.ptr).getLast?) (next : n.nextNode = (post.map Segment.ptr).head?) :
    Chained s' (pre ++ post) := by
  have nodup := chained.nodup
  simp only [List.map_append,List.map_cons] at nodup
  have around := chained.around
  have distinct : (pre.map Segment.ptr ++ post.map Segment.ptr).Nodup := by
    refine List.Sublist.nodup ?_ nodup
    simp
  refine ⟨?_,?_,?_,by simpa using distinct,?_⟩
  · have old : Linked s.nextOf s.prevOf (pre.map Segment.ptr ++ a :: post.map Segment.ptr) := by
      simpa using chained.links
    rw [List.map_append]
    refine linked_remove old nodup ?_ ?_
    · intro y member
      rw [← List.map_append] at member
      obtain ⟨g,inCh,rfl⟩ := List.mem_map.mp member
      obtain ⟨m,readG⟩ := Option.ne_none_iff_exists'.mp (around g inCh).1
      simp only [nextOf,dropped.node,(around g inCh).2,readG,prev,next,↓reduceIte,Option.map_some,Option.bind_some]
      exact ⟨fun h => by rw [if_pos h],fun h => by rw [if_neg h]⟩
    · intro y member
      rw [← List.map_append] at member
      obtain ⟨g,inCh,rfl⟩ := List.mem_map.mp member
      obtain ⟨m,readG⟩ := Option.ne_none_iff_exists'.mp (around g inCh).1
      simp only [prevOf,dropped.node,(around g inCh).2,readG,prev,next,↓reduceIte,Option.map_some,Option.bind_some]
      exact ⟨fun h => by rw [if_pos h],fun h => by rw [if_neg h]⟩
  · rw [dropped.chainHead,prev,next,chained.head]
    cases pre <;> simp
  · rw [dropped.chainTail,prev,next,chained.tail]
    cases post with
    | nil => simp
    | cons g post => simp [List.getLast?_cons_cons]
  · intro g member
    have inCh : g ∈ pre ++ (⟨a,[]⟩ : Segment) :: post := by
      simp only [List.mem_append,List.mem_cons] at member ⊢
      tauto
    obtain ⟨m,gs,readG,holdsG⟩ := chained.holds g inCh
    refine ⟨_,gs,by rw [dropped.node,if_neg (around g member).2,readG]; rfl,?_⟩
    exact PinNode.holds_links holdsG rfl rfl rfl rfl rfl

/-- An empty node leaves the chain. -/
theorem dropNode_spec (wf : s.nodes.WellFormed) (chained : Chained s (pre ++ ⟨a,[]⟩ :: post)) :
    ∃ s', s.dropNode a = some s' ∧ Chained s' (pre ++ post) ∧
      NodeStep s s' (pre ++ ⟨a,[]⟩ :: post) (pre ++ post) (locs (pre ++ post)) := by
  obtain ⟨n,fs,read,_,prev,next⟩ := chained.read
  have around := chained.around
  have lastIn : ∀ p, n.prevNode = some p → s.node p ≠ none ∧ p ≠ a := by
    intro p isLast
    obtain ⟨g,member,rfl⟩ := List.mem_map.mp (List.mem_of_getLast? (prev ▸ isLast))
    exact around g (by simp [member])
  have headIn : ∀ p, n.nextNode = some p → s.node p ≠ none ∧ p ≠ a := by
    intro p isHead
    obtain ⟨g,member,rfl⟩ := List.mem_map.mp (List.mem_of_head? (next ▸ isHead))
    exact around g (by simp [member])
  obtain ⟨s',executed,dropped⟩ := dropNode_run wf read lastIn headIn
  refine ⟨s',executed,dropped.chained chained prev next,dropped.levels,dropped.orderIndex,dropped.best,dropped.root,
    dropped.wellFormed,⟨?_,?_,?_⟩,?_⟩
  · intro x out _
    simp only [List.map_append,List.map_cons,List.mem_append,List.mem_cons,not_or] at out
    have notLast : n.prevNode ≠ some x := fun h => out.1 (List.mem_of_getLast? (prev ▸ h))
    have notHead : n.nextNode ≠ some x := fun h => out.2.2 (List.mem_of_head? (next ▸ h))
    rw [dropped.node,if_neg out.2.1]
    cases s.node x <;> simp [notLast,notHead]
  · intro x member out
    simp only [List.map_append,List.map_cons,List.mem_append,List.mem_cons] at member out
    tauto
  · intro x member out
    have isA : x = a := by
      simp only [List.map_append,List.map_cons,List.mem_append,List.mem_cons] at member out
      tauto
    rw [dropped.node,if_pos isA]
  · intro l member
    obtain ⟨g,inCh,isNode,_⟩ := mem_locs.mp member
    simp only [orderAt,dropped.node,← isNode,(around g inCh).2,↓reduceIte,Option.map_map]
    rfl

/-- A slot is freed, and its node dropped if that was the last order in it. -/
theorem freeSlot_spec (wf : s.nodes.WellFormed) (chained : Chained s ch) (segments : ∀ g ∈ ch, g.slots ≠ [])
    (split : locs ch = L ++ l :: R) : ∃ s' ch', s.freeSlot l = some s' ∧ Chained s' ch' ∧ locs ch' = L ++ R ∧
      (∀ g ∈ ch', g.slots ≠ []) ∧ NodeStep s s' ch ch' (L ++ R) := by
  obtain ⟨pre,us,vs,post,rfl,rfl,rfl⟩ := chained.position split
  obtain ⟨n,fs,read,holds,prev,next⟩ := chained.read
  obtain ⟨erased,slots,nextN,prevN⟩ := PinNode.erase_spec holds
  have chained₁ := chained.setNode read nextN prevN erased
  obtain ⟨s₁,s₁Is⟩ : ∃ s₁, s₁ = s.setNode l.pinLoc (n.erase l.index) := ⟨_,rfl⟩
  rw [← s₁Is] at chained₁
  have step₁ : s.modifyNode l.pinLoc (fun n => n.erase l.index) = some s₁ := s₁Is ▸ modifyNode_eq read _
  have node₁ : ∀ x, s₁.node x = if x = l.pinLoc then some (n.erase l.index) else s.node x := by
    intro x
    rw [s₁Is,node_setNode]
  have read₁ : s₁.node l.pinLoc = some (n.erase l.index) := by simp [node₁]
  have wf₁ : s₁.nodes.WellFormed := by
    rw [s₁Is]
    exact wf.write (by rw [show s.nodes.read l.pinLoc = s.node l.pinLoc from rfl,read]; simp) _
  have at₁ : ∀ m, s₁.orderAt m = s.orderAt m := by
    intro m
    simp only [orderAt,node₁]
    split_ifs with same
    · simp [same,read,slots]
    · rfl
  have locsIs : locs (pre ++ ⟨l.pinLoc,us ++ vs⟩ :: post) =
      locs pre ++ us.map (OrderLoc.mk l.pinLoc) ++ (vs.map (OrderLoc.mk l.pinLoc) ++ locs post) := by
    simp [Segment.locs]
  have ptrs : (pre ++ (⟨l.pinLoc,us ++ vs⟩ : Segment) :: post).map Segment.ptr =
      (pre ++ (⟨l.pinLoc,us ++ l.index :: vs⟩ : Segment) :: post).map Segment.ptr := by simp
  have framed₁ : Framed s.node s₁.node ((pre ++ (⟨l.pinLoc,us ++ l.index :: vs⟩ : Segment) :: post).map Segment.ptr)
      ((pre ++ (⟨l.pinLoc,us ++ vs⟩ : Segment) :: post).map Segment.ptr) := by
    rw [ptrs]
    apply framed_same
    intro x out
    simp only [List.map_append,List.map_cons,List.mem_append,List.mem_cons,not_or] at out
    rw [node₁,if_neg out.2.1]
  have others : ∀ g ∈ pre ++ post, g.slots ≠ [] := fun g member => segments g (by
    simp only [List.mem_append,List.mem_cons] at member ⊢
    tauto)
  by_cases empty : us ++ vs = []
  · have isEmpty : (n.erase l.index).isEmpty = true := erased.isEmpty_iff.mpr empty
    rw [empty] at chained₁ locsIs framed₁
    obtain ⟨s₂,step₂,chained₂,nodeStep⟩ := dropNode_spec wf₁ chained₁
    refine ⟨s₂,pre ++ post,?_,chained₂,?_,others,?_,?_,?_,?_,nodeStep.wellFormed,framed₁.trans nodeStep.nodes,?_⟩
    · simp only [freeSlot,step₁,read₁,isEmpty,step₂,Option.bind_eq_bind,Option.bind_some,↓reduceIte]
    · rw [← locsIs]
      simp [Segment.locs]
    · rw [nodeStep.levels,s₁Is]; rfl
    · rw [nodeStep.orderIndex,s₁Is]; rfl
    · rw [nodeStep.best,s₁Is]; rfl
    · rw [nodeStep.root,s₁Is]; rfl
    · intro m member
      rw [nodeStep.orderAt m,at₁]
      rw [← locsIs] at member
      simpa [Segment.locs] using member
  · have notEmpty : (n.erase l.index).isEmpty = false := Bool.eq_false_iff.mpr fun h => empty (erased.isEmpty_iff.mp h)
    refine ⟨s₁,_,?_,chained₁,locsIs,?_,by rw [s₁Is]; rfl,by rw [s₁Is]; rfl,by rw [s₁Is]; rfl,by rw [s₁Is]; rfl,wf₁,
      framed₁,fun m _ => at₁ m⟩
    · simp only [freeSlot,step₁,read₁,notEmpty,Option.bind_eq_bind,Option.bind_some,Bool.false_eq_true,↓reduceIte]
    · intro g member
      simp only [List.mem_append,List.mem_cons] at member
      rcases member with m | rfl | m
      · exact others g (by simp [m])
      · exact empty
      · exact others g (by simp [m])

/-! ## The level -/

theorem LevelWrite.chained (write : LevelWrite s s') (chained : Chained s ch) : Chained s' ch :=
  chained.congr write.chainHead write.chainTail fun g _ => by simp only [node,write.nodes]

/-- The ends of the level move off the order that leaves. -/
theorem detachOrder_spec {d : PriceLevel} {L₀ R₀ : List OrderLoc} (chained : Chained s ch)
    (segments : ∀ g ∈ ch, g.slots ≠ []) (split : locs ch = (L₀ ++ es₁.map Prod.fst) ++ l :: (es₂.map Prod.fst ++ R₀))
    (read : s.level lvl = some d) (head : d.head = (es₁ ++ (l,o) :: es₂).head?.map Prod.fst)
    (tail : d.tail = (es₁ ++ (l,o) :: es₂).getLast?.map Prod.fst) :
    (d.head = some l ↔ es₁ = []) ∧ (d.tail = some l ↔ es₂ = []) ∧
      ∃ s', s.detachOrder lvl l (d.head = some l) (d.tail = some l) = some s' ∧ LevelWrite s s' ∧
        s'.level lvl = some { d with
          head := (es₁ ++ es₂).head?.map Prod.fst
          tail := (es₁ ++ es₂).getLast?.map Prod.fst } ∧ ∀ x, x ≠ lvl → s'.level x = s.level x := by
  have nodup := split ▸ chained.locs_nodup
  have out := (List.nodup_cons.mp (List.nodup_middle.mp nodup)).1
  simp only [List.mem_append,List.mem_map,not_or] at out
  have next := chained.globalNext segments split
  have prev := chained.globalPrev segments split
  have isHead : d.head = some l ↔ es₁ = [] := by
    rw [head]
    cases es₁ with
    | nil =>
      simp
    | cons e es₁ =>
      have other : e.1 ≠ l := fun same => out.1.2 ⟨e,by simp,same⟩
      simp [other]
  have isTail : d.tail = some l ↔ es₂ = [] := by
    rw [tail]
    rcases List.eq_nil_or_concat es₂ with rfl | ⟨es,e,rfl⟩
    · simp
    · have other : e.1 ≠ l := fun same => out.2.1 ⟨e,by simp,same⟩
      rw [List.concat_eq_append,← List.cons_append,← List.append_assoc,List.getLast?_concat]
      simp [other]
  have single : ∀ f : PriceLevel → PriceLevel, ∃ s', s.modifyLevel lvl f = some s' ∧ LevelWrite s s' ∧
      s'.level lvl = some (f d) ∧ ∀ x, x ≠ lvl → s'.level x = s.level x := by
    intro f
    obtain ⟨s',executed,write,levels⟩ := modifyLevel_run (s := s) (a := lvl) f (by simp [read])
    exact ⟨s',executed,write,by rw [levels,if_pos rfl,read]; rfl,fun x other => by rw [levels,if_neg other.symm]⟩
  refine ⟨isHead,isTail,?_⟩
  simp only [isHead,isTail]
  cases es₁ with
  | nil =>
    cases es₂ with
    | nil =>
      -- The only order of the level.
      obtain ⟨s',executed,write,here,others⟩ := single fun d => { d with head := none, tail := none }
      exact ⟨s',by simp [detachOrder,executed],write,here,others⟩
    | cons e₂ es₂ =>
      -- The first of several.
      have following : s.globalNext l = some (some e₂.1) := next
      obtain ⟨s',executed,write,here,others⟩ := single fun d => { d with head := some e₂.1 }
      refine ⟨s',by simp [detachOrder,advanceHead,retreatTail,following,executed],write,?_,others⟩
      rw [here,tail]
      simp [List.getLast?_cons_cons]
  | cons e₁ es₁ =>
    cases es₂ with
    | nil =>
      -- The last of several.
      have previous : s.globalPrev l = some ((e₁ :: es₁).getLast?.map Prod.fst) := by
        rw [prev,← List.getLast?_map]
        simp [List.getLast?_cons]
      obtain ⟨s',executed,write,here,others⟩ := single fun d => { d with tail := (e₁ :: es₁).getLast?.map Prod.fst }
      refine ⟨s',by simp [detachOrder,advanceHead,retreatTail,previous,executed],write,?_,others⟩
      rw [here,head]
      simp
    | cons e₂ es₂ =>
      -- In the middle.
      refine ⟨s,by simp [detachOrder,advanceHead,retreatTail],LevelWrite.refl s,?_,fun _ _ => rfl⟩
      have first : d.head = (e₁ :: es₁ ++ e₂ :: es₂).head?.map Prod.fst := by rw [head]; simp
      have last : d.tail = (e₁ :: es₁ ++ e₂ :: es₂).getLast?.map Prod.fst := by
        rw [tail,getLast?_append_cons,getLast?_append_cons,List.getLast?_cons_cons]
      rw [read,← first,← last]

theorem mem_keep {e : OrderLoc × SimpleOrder} (orders : b.orders = es₁ ++ (l,o) :: es₂)
    (member : e ∈ entries (B₁ ++ b.keep o (es₁ ++ es₂) :: B₂)) : e ∈ entries (B₁ ++ b :: B₂) := by
  simp only [entries_append,entries_cons,orders,Block.keep,List.mem_append,List.mem_cons] at member ⊢
  tauto

/-- What `erase` leaves before it looks at an empty level: the order `o` is out of the index, of its level, which has the
    orders `es` now, and of the chain, which has the slots `ls`. -/
structure Unlinked (s s' : TreeState N) (ch ch' : List Segment) (b : Block) (o : SimpleOrder)
    (es : List (OrderLoc × SimpleOrder)) (ls : List OrderLoc) : Prop where
  orderIndex : ∀ id, s'.orderIndex id = if id = o.orderId then none else s.orderIndex id
  level : ∃ d, s.level b.ptr = some d ∧ s'.level b.ptr = some { d with
      quantity := toU32 (b.quantity - o.openQty)
      count := toU32 (b.count - 1)
      head := es.head?.map Prod.fst
      tail := es.getLast?.map Prod.fst }
  others : ∀ x, x ≠ b.ptr → s'.level x = s.level x
  orderAt : ∀ l ∈ ls, s'.orderAt l = s.orderAt l
  chained : Chained s' ch'
  locs : locs ch' = ls
  segments : ∀ g ∈ ch', g.slots ≠ []
  nodes : s'.nodes.WellFormed
  levels : s'.levels.WellFormed
  framed : Framed s.node s'.node (ch.map Segment.ptr) (ch'.map Segment.ptr)
  best : s'.best = s.best
  root : s'.root = s.root
  count : s'.levels.nbElements = s.levels.nbElements

theorem unlink_run (stored : Stored s ch (B₁ ++ b :: B₂)) (orders : b.orders = es₁ ++ (l,o) :: es₂) :
    ∃ s₁ s₂ s₃ s₄ s₅ d ch', s₁ = { s with orderIndex := fun i => if i = o.orderId then none else s.orderIndex i } ∧
      s₁.modifyLevel b.ptr (fun d => { d with quantity := toU32 (d.quantity - o.openQty) }) = some s₂ ∧
      s₂.modifyLevel b.ptr (fun d => { d with count := toU32 (d.count - 1) }) = some s₃ ∧ s₃.level b.ptr = some d ∧
      (d.head = some l ↔ es₁ = []) ∧ (d.tail = some l ↔ es₂ = []) ∧
      s₃.detachOrder b.ptr l (d.head = some l) (d.tail = some l) = some s₄ ∧ s₄.freeSlot l = some s₅ ∧
      Unlinked s s₅ ch ch' b o (es₁ ++ es₂)
        (((entries B₁).map Prod.fst ++ es₁.map Prod.fst) ++ (es₂.map Prod.fst ++ (entries B₂).map Prod.fst)) := by
  obtain ⟨hosted,covers,segments⟩ := stored
  obtain ⟨d,read,body⟩ := hosted.read b (by simp)
  obtain ⟨s₁,s₁Is⟩ : ∃ s₁ : TreeState N, s₁ =
      { s with orderIndex := fun i => if i = o.orderId then none else s.orderIndex i } := ⟨_,rfl⟩
  have level₁ : ∀ x, s₁.level x = s.level x := fun x => by rw [s₁Is]; rfl
  obtain ⟨s₂,step₂,write₂,level₂⟩ := modifyLevel_run (s := s₁) (a := b.ptr)
    (fun d => { d with quantity := toU32 (d.quantity - o.openQty) }) (by simp [level₁,read])
  obtain ⟨s₃,step₃,write₃,level₃⟩ := modifyLevel_run (s := s₂) (a := b.ptr)
    (fun d => { d with count := toU32 (d.count - 1) }) (by simp [level₂,level₁,read])
  have chained₁ : Chained s₁ ch := hosted.chained.congr (by rw [s₁Is]) (by rw [s₁Is]) fun g _ => by rw [s₁Is]; rfl
  have chained₃ : Chained s₃ ch := (write₂.trans write₃).chained chained₁
  obtain ⟨d₃,d₃Is⟩ : ∃ d₃ : PriceLevel, d₃ =
      { d with quantity := toU32 (d.quantity - o.openQty), count := toU32 (d.count - 1) } := ⟨_,rfl⟩
  have read₃ : s₃.level b.ptr = some d₃ := by simp [level₃,level₂,level₁,read,d₃Is]
  simp only [PriceLevel.body,LevelBody.mk.injEq] at body
  obtain ⟨_,quantity,count,head,tail⟩ := body
  rw [orders] at head tail
  have split : locs ch = ((entries B₁).map Prod.fst ++ es₁.map Prod.fst) ++ l ::
      (es₂.map Prod.fst ++ (entries B₂).map Prod.fst) := by
    rw [covers]
    simp [orders]
  obtain ⟨isHead,isTail,s₄,step₄,write₄,here₄,others₄⟩ := detachOrder_spec chained₃ segments split read₃
    (by rw [d₃Is]; exact head) (by rw [d₃Is]; exact tail)
  have write := (write₂.trans write₃).trans write₄
  have nodes₄ : s₄.nodes = s.nodes := by rw [write.nodes,s₁Is]
  obtain ⟨s₅,ch',step₅,chained₅,locs₅,segments₅,nodeStep⟩ := freeSlot_spec (nodes₄ ▸ hosted.nodes) (write.chained chained₁)
    segments split
  have level₅ : ∀ x, s₅.level x = s₄.level x := fun x => by simp only [level,nodeStep.levels]
  refine ⟨s₁,s₂,s₃,s₄,s₅,d₃,ch',s₁Is,step₂,step₃,read₃,isHead,isTail,step₄,step₅,?_,⟨d,read,?_⟩,?_,?_,chained₅,locs₅,segments₅,
    nodeStep.wellFormed,?_,?_,?_,?_,?_⟩
  · intro id
    rw [nodeStep.orderIndex,write.orderIndex,s₁Is]
  · rw [level₅,here₄,d₃Is,quantity,count]
  · intro x other
    rw [level₅,others₄ x other,level₃,if_neg other.symm,level₂,if_neg other.symm,level₁]
  · intro m member
    rw [nodeStep.orderAt m member]
    simp only [orderAt,node,nodes₄]
  · rw [nodeStep.levels]
    exact write.wellFormed (by rw [s₁Is]; exact hosted.levels)
  · have framed := nodeStep.nodes
    rwa [show s₄.node = s.node from funext fun x => by simp only [node,nodes₄]] at framed
  · rw [nodeStep.best,write.best,s₁Is]
  · rw [nodeStep.root,write.root,s₁Is]
  · rw [nodeStep.levels,write.count,s₁Is]

namespace Unlinked

/-- The index without the order that left. -/
theorem index {ls : List OrderLoc} (unlinked : Unlinked s s' ch ch' b o (es₁ ++ es₂) ls) (hosted : Hosted s ch (B₁ ++ b :: B₂))
    (orders : b.orders = es₁ ++ (l,o) :: es₂) (out : l ∉ ls)
    (covers : Covers ch' (B₁ ++ b.keep o (es₁ ++ es₂) :: B₂)) (id : Nat) (m : OrderLoc) :
    s'.orderIndex id = some m ↔ ∃ x, (m,x) ∈ entries (B₁ ++ b.keep o (es₁ ++ es₂) :: B₂) ∧ x.orderId = id := by
  have here : (l,o) ∈ entries (B₁ ++ b :: B₂) := by simp [orders]
  rw [unlinked.orderIndex id]
  by_cases same : id = o.orderId
  · rw [if_pos same]
    simp only [reduceCtorEq,false_iff]
    rintro ⟨o',member,isId⟩
    obtain ⟨isL,_⟩ := hosted.id_unique (mem_keep orders member) here (isId.trans same)
    apply out
    rw [← unlinked.locs,covers,← isL]
    exact List.mem_map_of_mem (f := Prod.fst) member
  · rw [if_neg same,hosted.index id m]
    constructor
    · rintro ⟨o',member,isId⟩
      refine ⟨o',?_,isId⟩
      have other : (m,o') ≠ (l,o) := by
        intro h
        rw [(Prod.mk.inj h).2] at isId
        exact same isId.symm
      simp only [entries_append,entries_cons,orders,Block.keep,List.mem_append,List.mem_cons] at member ⊢
      tauto
    · rintro ⟨o',member,isId⟩
      exact ⟨o',mem_keep orders member,isId⟩

theorem read {ls : List OrderLoc} (unlinked : Unlinked s s' ch ch' b o es ls) (hosted : Hosted s ch (B₁ ++ b :: B₂)) :
    ∀ c ∈ B₁ ++ b.keep o es :: B₂, ∃ d, s'.level c.ptr = some d ∧
      d.body = ⟨c.price,c.quantity,c.count,c.orders.head?.map Prod.fst,c.orders.getLast?.map Prod.fst⟩ := by
  intro c member
  have apart := hosted.ptrs
  simp only [List.map_append,List.map_cons,List.nodup_append,List.nodup_cons,List.mem_map,List.mem_cons] at apart
  simp only [List.mem_append,List.mem_cons] at member
  rcases member with m | rfl | m
  · rw [unlinked.others c.ptr fun same => apart.2.2 c.ptr ⟨c,m,rfl⟩ b.ptr (.inl rfl) same]
    exact hosted.read c (by simp [m])
  · obtain ⟨d,read,body⟩ := hosted.read b (by simp)
    obtain ⟨d',read',after⟩ := unlinked.level
    obtain rfl : d' = d := Option.some.inj (read'.symm.trans read)
    refine ⟨_,after,?_⟩
    simp only [PriceLevel.body,LevelBody.mk.injEq] at body
    simp only [PriceLevel.body,Block.keep,body.1]
  · rw [unlinked.others c.ptr fun same => apart.2.1.1 ⟨c,m,same⟩]
    exact hosted.read c (by simp [m])

theorem chainStep {ls : List OrderLoc} (unlinked : Unlinked s s' ch ch' b o es ls) :
    ChainStep s s' ch ch' (B₁ ++ b :: B₂) := by
  refine ⟨unlinked.best,unlinked.root,?_,?_,unlinked.framed,unlinked.count⟩
  · intro x
    by_cases same : x = b.ptr
    · obtain ⟨d,read,after⟩ := unlinked.level
      rw [same,after,read]
      rfl
    · rw [unlinked.others x same]
  · intro x out
    apply unlinked.others x
    rintro rfl
    simp at out

end Unlinked

/-- What `erase` does before it looks at an empty level. -/
theorem unlink_spec (stored : Stored s ch (B₁ ++ b :: B₂)) (orders : b.orders = es₁ ++ (l,o) :: es₂) :
    ∃ s₁ s₂ s₃ s₄ s₅ d ch', s₁ = { s with orderIndex := fun i => if i = o.orderId then none else s.orderIndex i } ∧
      s₁.modifyLevel b.ptr (fun d => { d with quantity := toU32 (d.quantity - o.openQty) }) = some s₂ ∧
      s₂.modifyLevel b.ptr (fun d => { d with count := toU32 (d.count - 1) }) = some s₃ ∧ s₃.level b.ptr = some d ∧
      (d.head = some l ↔ es₁ = []) ∧ (d.tail = some l ↔ es₂ = []) ∧
      s₃.detachOrder b.ptr l (d.head = some l) (d.tail = some l) = some s₄ ∧ s₄.freeSlot l = some s₅ ∧
      Stored s₅ ch' (B₁ ++ b.keep o (es₁ ++ es₂) :: B₂) ∧ ChainStep s s₅ ch ch' (B₁ ++ b :: B₂) := by
  obtain ⟨s₁,s₂,s₃,s₄,s₅,d,ch',s₁Is,step₂,step₃,read₃,isHead,isTail,step₄,step₅,unlinked⟩ := unlink_run stored orders
  obtain ⟨hosted,covers,segments⟩ := stored
  have out : l ∉ ((entries B₁).map Prod.fst ++ es₁.map Prod.fst) ++ (es₂.map Prod.fst ++ (entries B₂).map Prod.fst) := by
    have nodup := hosted.chained.locs_nodup
    rw [covers] at nodup
    refine (List.nodup_cons.mp (List.nodup_middle.mp ?_)).1
    simpa [orders] using nodup
  have covers' : Covers ch' (B₁ ++ b.keep o (es₁ ++ es₂) :: B₂) := by
    unfold Covers
    rw [unlinked.locs]
    simp [Block.keep]
  refine ⟨s₁,s₂,s₃,s₄,s₅,d,ch',s₁Is,step₂,step₃,read₃,isHead,isTail,step₄,step₅,
    ⟨⟨unlinked.nodes,unlinked.levels,unlinked.chained,?_,?_,?_,unlinked.index hosted orders out covers',unlinked.read hosted,
      by simpa [Block.keep] using hosted.ptrs⟩,covers',unlinked.segments⟩,unlinked.chainStep⟩
  · intro e member
    rw [covers']
    exact List.mem_map_of_mem member
  · intro e member
    have inLocs : e.1 ∈ locs ch' := by
      rw [covers']
      exact List.mem_map_of_mem member
    rw [unlinked.orderAt e.1 (unlinked.locs ▸ inLocs)]
    exact hosted.payload e (mem_keep orders member)
  · intro c member e inC
    simp only [List.mem_append,List.mem_cons] at member
    rcases member with m | rfl | m
    · exact hosted.owner c (by simp [m]) e inC
    · apply hosted.owner b (by simp) e
      simp only [Block.keep,List.mem_append] at inC
      rw [orders]
      simp only [List.mem_append,List.mem_cons]
      tauto
    · exact hosted.owner c (by simp [m]) e inC

/-! ## The operation -/

/-- A level without orders leaves the tree. -/
theorem closeLevel_spec (stored : Stored s ch (B₁ ++ b :: B₂)) (empty : b.orders = [])
    (priced : Priced type s (type.ascending ((B₁ ++ b :: B₂).map Block.ptr))) :
    ∃ s', s.eraseLevel type b.ptr = some s' ∧ Stored s' ch (B₁ ++ B₂) ∧
      Priced type s' (type.ascending ((B₁ ++ B₂).map Block.ptr)) ∧ TreeStep s s' ch ch (B₁ ++ b :: B₂) (B₁ ++ B₂) := by
  obtain ⟨hosted,covers,segments⟩ := stored
  rw [List.map_append,List.map_cons,ascending_middle] at priced
  obtain ⟨s',executed,priced',erased⟩ := eraseLevel_spec hosted.levels priced
  rw [← ascending_append,← List.map_append] at priced'
  have node' : ∀ x, s'.node x = s.node x := fun x => by simp only [node,erased.nodes]
  have same : entries (B₁ ++ b :: B₂) = entries (B₁ ++ B₂) := by simp [empty]
  have sub : ∀ c ∈ B₁ ++ B₂, c ∈ B₁ ++ b :: B₂ := by
    intro c member
    simp only [List.mem_append,List.mem_cons] at member ⊢
    tauto
  have ptrs := hosted.ptrs
  rw [List.map_append,List.map_cons] at ptrs
  have distinct := List.nodup_cons.mp (List.nodup_middle.mp ptrs)
  rw [← List.map_append] at distinct
  have apart : ∀ c ∈ B₁ ++ B₂, c.ptr ≠ b.ptr := fun c member same => distinct.1 (same ▸ List.mem_map_of_mem member)
  refine ⟨s',executed,⟨⟨by rw [erased.nodes]; exact hosted.nodes,erased.wellFormed,
    hosted.chained.congr erased.chainHead erased.chainTail fun g _ => node' g.ptr,?_,?_,?_,?_,?_,distinct.2⟩,?_,segments⟩,
    priced',framed_same fun x _ => node' x,?_,?_,?_⟩
  · rw [← same]
    exact hosted.slots
  · rw [← same]
    intro e member
    simpa only [orderAt,node'] using hosted.payload e member
  · exact fun c member => hosted.owner c (sub c member)
  · rw [← same,erased.orderIndex]
    exact hosted.index
  · intro c member
    obtain ⟨d,read,body⟩ := hosted.read c (sub c member)
    have kept := erased.body c.ptr (apart c member)
    rw [read] at kept
    obtain ⟨d',read',body'⟩ := Option.map_eq_some_iff.mp kept
    exact ⟨d',read',body'.trans body⟩
  · unfold Covers
    rw [← same]
    exact covers
  · intro x out _
    apply erased.outside x
    rw [← ascending_middle,mem_ascending]
    simpa using out
  · intro x member out
    simp only [List.map_append,List.map_cons,List.mem_append,List.mem_cons] at member out
    tauto
  · intro x member out
    have isB : x = b.ptr := by
      simp only [List.map_append,List.map_cons,List.mem_append,List.mem_cons] at member out
      tauto
    rw [isB]
    exact erased.gone

theorem erase_spec (tree : Tree type s ch (B₁ ++ b :: B₂)) (orders : b.orders = es₁ ++ (l,o) :: es₂) :
    ∃ s' ch' bl', s.erase type o.orderId = some s' ∧
      bl' = B₁ ++ (if (es₁ ++ es₂).isEmpty then B₂ else b.keep o (es₁ ++ es₂) :: B₂) ∧ Tree type s' ch' bl' ∧
      TreeStep s s' ch ch' (B₁ ++ b :: B₂) bl' := by
  have here : (l,o) ∈ entries (B₁ ++ b :: B₂) := by simp [orders]
  have indexed := (tree.hosted.index o.orderId l).mpr ⟨o,here,rfl⟩
  have payload : s.orderAt l = some o := tree.hosted.payload _ here
  have owner : o.level = some b.ptr := tree.hosted.owner b (by simp) (l,o) (by simp [orders])
  obtain ⟨s₁,s₂,s₃,s₄,s₅,d,ch',rfl,step₂,step₃,read₃,isHead,isTail,step₄,step₅,stored₅,chainStep⟩ :=
    unlink_spec tree.toStored orders
  have ptrs : (B₁ ++ b.keep o (es₁ ++ es₂) :: B₂).map Block.ptr = (B₁ ++ b :: B₂).map Block.ptr := by simp [Block.keep]
  have priced₅ : Priced type s₅ (type.ascending ((B₁ ++ b.keep o (es₁ ++ es₂) :: B₂).map Block.ptr)) := by
    rw [ptrs]
    exact tree.priced.of_spine chainStep.root chainStep.best chainStep.spine
  have treeStep₅ := chainStep.treeStep ptrs
  have run : s.erase type o.orderId = if es₁ = [] ∧ es₂ = [] then s₅.eraseLevel type b.ptr else some s₅ := by
    simp only [isHead,isTail] at step₄
    simp only [erase,indexed,payload,owner,step₂,step₃,read₃,isHead,isTail,step₄,step₅,Option.bind_eq_bind,Option.bind_some]
  by_cases empty : es₁ = [] ∧ es₂ = []
  · have noOrders : es₁ ++ es₂ = [] := by simp [empty]
    obtain ⟨s₆,step₆,stored₆,priced₆,treeStep₆⟩ := closeLevel_spec stored₅ noOrders priced₅
    refine ⟨s₆,ch',_,by rw [run,if_pos empty]; exact step₆,rfl,?_,?_⟩
    · rw [noOrders]
      exact ⟨stored₆,priced₆,fun c member => tree.blocks c (by
        simp only [List.isEmpty_nil,↓reduceIte,List.mem_append,List.mem_cons] at member ⊢
        tauto)⟩
    · rw [noOrders]
      rw [noOrders] at treeStep₅ treeStep₆
      exact treeStep₅.trans treeStep₆
  · have someOrders : es₁ ++ es₂ ≠ [] := by simpa using empty
    have notEmpty : (es₁ ++ es₂).isEmpty = false := by simpa using empty
    refine ⟨s₅,ch',_,by rw [run,if_neg empty],rfl,?_,?_⟩
    · rw [notEmpty]
      refine ⟨stored₅,priced₅,?_⟩
      intro c member
      simp only [Bool.false_eq_true,↓reduceIte,List.mem_append,List.mem_cons] at member
      rcases member with m | rfl | m
      · exact tree.blocks c (by simp [m])
      · exact someOrders
      · exact tree.blocks c (by simp [m])
    · rw [notEmpty]
      exact treeStep₅

end TreeState

end BaboEngine
