import BaboEngine.ChainInsert
import BaboEngine.Ladder

/-!
# Insertion into a tree

The invariant of a tree (`Tree`): its chain holds the orders of its blocks and nothing
else, the blocks come best first, and the index of levels is in order. `insert`
keeps it, and puts the order at the end of the block of its price.
-/

namespace BaboEngine
open DoublyLinked

/-- Levels that are listed best first, in order of price. -/
def OrderType.ascending {α : Type} : OrderType → List α → List α
  | .BID, xs => xs.reverse
  | .ASK, xs => xs

/-- The cheaper of a better and a worse neighbour. -/
def OrderType.cheaper {α : Type} : OrderType → α → α → α
  | .BID, _, worse => worse
  | .ASK, better, _ => better

/-- The dearer of a better and a worse neighbour. -/
def OrderType.dearer {α : Type} : OrderType → α → α → α
  | .BID, better, _ => better
  | .ASK, _, worse => worse

/-- An order at the end of a block. -/
def Block.push (b : Block) (loc : OrderLoc) (o : SimpleOrder) : Block :=
  { b with
    quantity := toU32 (b.quantity + o.openQty)
    count := toU32 (b.count + 1)
    orders := b.orders ++ [(loc,o)] }

namespace TreeState
variable {N : Capacity} {s s' s'' : TreeState N} {type : OrderType}
variable {ch pre post : List Segment} {bl B₁ B₂ : List Block} {b : Block} {as bs : List Ptr} {a lvl : Ptr}
variable {ord : SimpleOrder} {L R : List OrderLoc} {l loc : OrderLoc}

/-- The chain holds the orders of the blocks and nothing else. -/
structure Stored (s : TreeState N) (ch : List Segment) (bl : List Block) : Prop where
  hosted : Hosted s ch bl
  covers : Covers ch bl
  segments : ∀ g ∈ ch, g.slots ≠ []

/-- The invariant of a tree with the nodes `ch` and the levels `bl`, best first. -/
structure Tree (type : OrderType) (s : TreeState N) (ch : List Segment) (bl : List Block) : Prop extends
    Stored s ch bl where
  priced : Priced type s (type.ascending (bl.map Block.ptr))
  blocks : ∀ b ∈ bl, b.orders ≠ []

/-! ## The index, best first -/

theorem mem_ascending {xs : List Ptr} : a ∈ type.ascending xs ↔ a ∈ xs := by
  cases type <;> simp [OrderType.ascending]

theorem ascending_middle (xs ys : List Ptr) (a : Ptr) : type.ascending (xs ++ a :: ys) =
    type.cheaper (type.ascending xs) (type.ascending ys) ++ a :: type.dearer (type.ascending xs) (type.ascending ys) := by
  cases type <;> simp [OrderType.ascending,OrderType.cheaper,OrderType.dearer]

theorem ascending_append (xs ys : List Ptr) : type.ascending (xs ++ ys) =
    type.cheaper (type.ascending xs) (type.ascending ys) ++ type.dearer (type.ascending xs) (type.ascending ys) := by
  cases type <;> simp [OrderType.ascending,OrderType.cheaper,OrderType.dearer]

theorem cheaper_last (xs ys : List Ptr) : (type.cheaper (type.ascending xs) (type.ascending ys)).getLast? =
    type.cheaper xs.getLast? ys.head? := by
  cases type <;> simp [OrderType.ascending,OrderType.cheaper]

theorem dearer_first (xs ys : List Ptr) : (type.dearer (type.ascending xs) (type.ascending ys)).head? =
    type.dearer xs.getLast? ys.head? := by
  cases type <;> simp [OrderType.ascending,OrderType.dearer]

/-- The index of levels depends on the spines only. -/
theorem Priced.of_spine {ps : List Ptr} (priced : Priced type s ps) (root : s'.root = s.root) (best : s'.best = s.best)
    (spine : ∀ x, (s'.level x).map PriceLevel.spine = (s.level x).map PriceLevel.spine) : Priced type s' ps := by
  have fields : ∀ x, s'.cells x = s.cells x ∧ s'.succOf x = s.succOf x ∧ s'.predOf x = s.predOf x ∧
      s'.priceAt x = s.priceAt x := by
    intro x
    have here := spine x
    unfold cells succOf predOf priceAt
    cases old : s.level x <;> cases new : s'.level x <;>
      simp_all [PriceLevel.spine,PriceLevel.cell]
  obtain ⟨⟨t,indexed,order,valid⟩,threads,sorted,bestIs⟩ := priced
  refine ⟨⟨t,indexed.congr indexed.inside root fun x _ => (fields x).1,order,valid⟩,
    linked_congr threads fun x _ => ⟨(fields x).2.2.1,(fields x).2.1⟩,?_,best.trans bestIs⟩
  apply sorted.imp
  intro x y less
  rw [(fields x).2.2.2,(fields y).2.2.2]
  exact less

/-- A level between its neighbours of the better and the worse side. -/
theorem Priced.neighbours (priced : Priced type s (type.ascending (as ++ a :: bs))) :
    ∃ d, s.level a = some d ∧ d.better type = as.getLast? ∧ d.worse type = bs.head? := by
  rw [ascending_middle] at priced
  obtain ⟨d,read,pred,succ,_⟩ := priced.read
  rw [cheaper_last] at pred
  rw [dearer_first] at succ
  exact ⟨d,read,by cases type <;> assumption,by cases type <;> assumption⟩

/-! ## The place in the chain -/

theorem Hosted.level_of (hosted : Hosted s ch (B₁ ++ b :: B₂)) : ∃ d, s.level b.ptr = some d ∧
    d.isEmpty = b.orders.isEmpty ∧ d.tail = b.orders.getLast?.map Prod.fst ∧ d.price = b.price := by
  obtain ⟨d,read,body⟩ := hosted.read b (by simp)
  simp only [PriceLevel.body,LevelBody.mk.injEq] at body
  refine ⟨d,read,?_,body.2.2.2.2,body.1⟩
  rw [PriceLevel.isEmpty,body.2.2.2.1]
  cases b.orders <;> rfl

/-- `chain_insert_after` at any slot of the chain. -/
theorem Stored.insertAfter (stored : Stored s ch bl) (split : locs ch = (L ++ [l]) ++ R) (ord : SimpleOrder) (lvl : Ptr) :
    ∃ s' loc, s.chainInsertAfter l ord lvl = some (s',loc) ∧ Inserted s s' ch bl ord lvl (L ++ [l]) loc := by
  obtain ⟨pre,us,vs,post,rfl,front,_⟩ := stored.hosted.chained.position (by simpa using split)
  obtain ⟨s',loc,executed,inserted⟩ := chainInsertAfter_spec stored.hosted stored.covers stored.segments ord lvl
  have target : locs (pre ++ [⟨l.pinLoc,us ++ [l.index]⟩]) = L ++ [l] := by
    rw [front]
    simp [Segment.locs]
  exact ⟨s',loc,executed,target ▸ inserted⟩

theorem placeInChain_spec (stored : Stored s ch (B₁ ++ b :: B₂)) (filled : ∀ c ∈ B₁, c.orders ≠ [])
    (priced : Priced type s (type.ascending ((B₁ ++ b :: B₂).map Block.ptr))) (ord : SimpleOrder) :
    ∃ d s' loc, s.level b.ptr = some d ∧ d.isEmpty = b.orders.isEmpty ∧
      s.placeInChain type b.ptr d ord = some (s',loc) ∧
      Inserted s s' ch (B₁ ++ b :: B₂) ord b.ptr ((entries (B₁ ++ [b])).map Prod.fst) loc := by
  obtain ⟨d,read,isEmpty,tail,_⟩ := stored.hosted.level_of
  obtain ⟨d',read',better,_⟩ := Priced.neighbours (by simpa using priced)
  obtain rfl : d' = d := Option.some.inj (read'.symm.trans read)
  have covers := stored.covers
  simp only [Covers,entries_append,entries_cons,List.map_append] at covers
  rcases ch with _ | ⟨g,post⟩
  · -- The first order of the side.
    have noOrders : (entries (B₁ ++ [b])).map Prod.fst = [] := by
      simp only [locs_nil,List.nil_eq,List.append_eq_nil_iff] at covers
      simp [covers.1,covers.2.1]
    have head : s.chainHead = none := stored.hosted.chained.head
    obtain ⟨s',loc,executed,inserted⟩ := chainFirst_spec stored.hosted stored.covers ord b.ptr
    exact ⟨d',s',loc,read,isEmpty,by simp only [placeInChain,head,executed],by rw [noOrders]; exact inserted⟩
  have head : s.chainHead = some g.ptr := stored.hosted.chained.head
  rcases List.eq_nil_or_concat b.orders with empty | ⟨es,e,orders⟩
  · rw [empty] at isEmpty
    rcases List.eq_nil_or_concat B₁ with rfl | ⟨C,c,rfl⟩
    · -- A new best level.
      obtain ⟨s',loc,executed,inserted⟩ := chainInsertHead_spec stored.hosted stored.covers stored.segments ord b.ptr
      refine ⟨d',s',loc,read,by rw [isEmpty,empty],?_,by simpa [empty] using inserted⟩
      have noBetter : d'.better type = none := better
      simp only [placeInChain,head,isEmpty,noBetter,executed,List.isEmpty_nil,Bool.not_true,Bool.false_eq_true,↓reduceIte]
    · -- Behind the last order of the next better level.
      rw [List.concat_eq_append] at *
      obtain ⟨es,e,orders⟩ := (List.eq_nil_or_concat c.orders).resolve_left (filled c (by simp))
      rw [List.concat_eq_append] at orders
      have regroup : (C ++ [c]) ++ b :: B₂ = C ++ c :: (b :: B₂) := by simp
      obtain ⟨dc,readC,_,tailC,_⟩ := Hosted.level_of (regroup ▸ stored.hosted)
      have isBetter : d'.better type = some c.ptr := by rw [better]; simp
      have isTail : dc.tail = some e.1 := by rw [tailC,orders]; simp
      obtain ⟨s',loc,executed,inserted⟩ := stored.insertAfter (l := e.1) (L := (entries C).map Prod.fst ++ es.map Prod.fst)
        (R := (entries B₂).map Prod.fst) (by rw [covers]; simp [orders,empty]) ord b.ptr
      refine ⟨d',s',loc,read,by rw [isEmpty,empty],?_,by simpa [orders,empty] using inserted⟩
      simp only [placeInChain,head,isEmpty,isBetter,readC,isTail,executed,List.isEmpty_nil,Bool.not_true,
        Bool.false_eq_true,↓reduceIte,Option.bind_eq_bind,Option.bind_some]
  · -- Behind the last order of its level.
    rw [List.concat_eq_append] at orders
    have notEmpty : d'.isEmpty = false := by rw [isEmpty,orders]; simp
    have isTail : d'.tail = some e.1 := by rw [tail,orders]; simp
    obtain ⟨s',loc,executed,inserted⟩ := stored.insertAfter (l := e.1) (L := (entries B₁).map Prod.fst ++ es.map Prod.fst)
      (R := (entries B₂).map Prod.fst) (by rw [covers]; simp [orders]) ord b.ptr
    refine ⟨d',s',loc,read,by rw [isEmpty],?_,by simpa [orders] using inserted⟩
    simp only [placeInChain,head,notEmpty,isTail,executed,Bool.not_false,↓reduceIte,Option.bind_eq_bind,Option.bind_some]

/-! ## The order in its level -/

theorem mem_push {o : SimpleOrder} {e : OrderLoc × SimpleOrder} : e ∈ entries (B₁ ++ b.push loc o :: B₂) ↔
    e ∈ entries (B₁ ++ b :: B₂) ∨ e = (loc,o) := by
  simp only [entries_append,entries_cons,Block.push,List.mem_append,List.mem_singleton]
  tauto

/-- What `record_order` writes: the order in the index, and in its level as the newest order. -/
structure Recorded (s s' : TreeState N) (b : Block) (loc : OrderLoc) (o : SimpleOrder) : Prop where
  nodes : s'.nodes = s.nodes
  orderIndex : ∀ id, s'.orderIndex id = if id = o.orderId then some loc else s.orderIndex id
  level : ∀ x, s'.level x = if b.ptr = x then (s.level x).map (fun d =>
      { d with
        head := if b.orders.isEmpty then some loc else d.head
        tail := some loc
        quantity := toU32 (d.quantity + o.openQty)
        count := toU32 (d.count + 1) }) else s.level x
  levels : s.levels.WellFormed → s'.levels.WellFormed
  best : s'.best = s.best
  root : s'.root = s.root
  chainHead : s'.chainHead = s.chainHead
  chainTail : s'.chainTail = s.chainTail
  count : s'.levels.nbElements = s.levels.nbElements

theorem recordOrder_run (s : TreeState N) (read : s.level b.ptr ≠ none) (loc : OrderLoc) (o : SimpleOrder) :
    ∃ s', s.recordOrder b.ptr b.orders.isEmpty loc o.orderId o.openQty = some s' ∧ Recorded s s' b loc o := by
  obtain ⟨s₁,step₁,write₁,level₁⟩ := modifyLevel_run (s := s) (a := b.ptr)
    (fun d => if b.orders.isEmpty then { d with head := some loc } else d) read
  obtain ⟨s₂,step₂,write₂,level₂⟩ := modifyLevel_run (s := s₁) (a := b.ptr) (fun d => { d with tail := some loc })
    (by simpa [level₁] using read)
  obtain ⟨s₃,s₃Is⟩ : ∃ s₃ : TreeState N, s₃ =
      { s₂ with orderIndex := fun i => if i = o.orderId then some loc else s₂.orderIndex i } := ⟨_,rfl⟩
  have level₃ : ∀ x, s₃.level x = s₂.level x := fun x => by rw [s₃Is]; rfl
  obtain ⟨s₄,step₄,write₄,level₄⟩ := modifyLevel_run (s := s₃) (a := b.ptr)
    (fun d => { d with quantity := toU32 (d.quantity + o.openQty) }) (by simpa [level₃,level₂,level₁] using read)
  obtain ⟨s₅,step₅,write₅,level₅⟩ := modifyLevel_run (s := s₄) (a := b.ptr)
    (fun d => { d with count := toU32 (d.count + 1) }) (by simpa [level₄,level₃,level₂,level₁] using read)
  have first := write₁.trans write₂
  have second := write₄.trans write₅
  refine ⟨s₅,?_,?_,?_,?_,?_,?_,?_,?_,?_,?_⟩
  · simp only [recordOrder,step₁,step₂,← s₃Is,step₄,step₅,Option.bind_eq_bind,Option.bind_some]
  · rw [second.nodes,s₃Is]
    exact first.nodes
  · intro id
    rw [second.orderIndex,s₃Is,first.orderIndex]
  · intro x
    rw [level₅,level₄,level₃,level₂,level₁]
    by_cases same : b.ptr = x
    · simp only [same,↓reduceIte,Option.map_map]
      congr 1
      funext e
      cases b.orders.isEmpty <;> rfl
    · simp only [same,↓reduceIte]
  · intro levels
    exact second.wellFormed (by rw [s₃Is]; exact first.wellFormed levels)
  · rw [second.best,s₃Is]
    exact first.best
  · rw [second.root,s₃Is]
    exact first.root
  · rw [second.chainHead,s₃Is]
    exact first.chainHead
  · rw [second.chainTail,s₃Is]
    exact first.chainTail
  · rw [second.count,s₃Is]
    exact first.count

namespace Recorded

variable {o : SimpleOrder}

theorem node (recorded : Recorded s s' b loc o) (x : Ptr) : s'.node x = s.node x := by
  simp only [TreeState.node,recorded.nodes]

/-- The index of the chain with the new order in it. -/
theorem index (recorded : Recorded s s' b loc o) (hosted : Hosted s ch (B₁ ++ b :: B₂))
    (fresh : ∀ e ∈ entries (B₁ ++ b :: B₂), e.2.orderId ≠ o.orderId) (id : Nat) (l : OrderLoc) :
    s'.orderIndex id = some l ↔ ∃ o', (l,o') ∈ entries (B₁ ++ b.push loc o :: B₂) ∧ o'.orderId = id := by
  rw [recorded.orderIndex id]
  by_cases same : id = o.orderId
  · rw [if_pos same]
    constructor
    · intro isLoc
      rw [← Option.some.inj isLoc]
      exact ⟨o,mem_push.mpr (.inr rfl),same.symm⟩
    · rintro ⟨o',member,isId⟩
      cases mem_push.mp member with
      | inl old => exact absurd (isId.trans same) (fresh _ old)
      | inr new =>
        simp only [Prod.mk.injEq] at new
        rw [new.1]
  · rw [if_neg same,hosted.index id l]
    constructor
    · rintro ⟨o',member,isId⟩
      exact ⟨o',mem_push.mpr (.inl member),isId⟩
    · rintro ⟨o',member,isId⟩
      cases mem_push.mp member with
      | inl old => exact ⟨o',old,isId⟩
      | inr new =>
        simp only [Prod.mk.injEq] at new
        rw [new.2] at isId
        exact absurd isId.symm same

/-- The levels of the chain with the new order in its own. -/
theorem read (recorded : Recorded s s' b loc o) (hosted : Hosted s ch (B₁ ++ b :: B₂)) :
    ∀ c ∈ B₁ ++ b.push loc o :: B₂, ∃ d, s'.level c.ptr = some d ∧
      d.body = ⟨c.price,c.quantity,c.count,c.orders.head?.map Prod.fst,c.orders.getLast?.map Prod.fst⟩ := by
  intro c member
  have apart := hosted.ptrs
  simp only [List.map_append,List.map_cons,List.nodup_append,List.nodup_cons,List.mem_map,List.mem_cons] at apart
  simp only [List.mem_append,List.mem_cons] at member
  rcases member with m | rfl | m
  · have other : ¬ b.ptr = c.ptr := fun same => apart.2.2 c.ptr ⟨c,m,rfl⟩ b.ptr (.inl rfl) same.symm
    rw [recorded.level,if_neg other]
    exact hosted.read c (by simp [m])
  · obtain ⟨d,read,body⟩ := hosted.read b (by simp)
    have readB := recorded.level b.ptr
    rw [if_pos rfl,read] at readB
    refine ⟨_,readB,?_⟩
    simp only [PriceLevel.body,LevelBody.mk.injEq] at body ⊢
    obtain ⟨price,quantity,count,head,tail⟩ := body
    refine ⟨price,by rw [quantity]; rfl,by rw [count]; rfl,?_,by simp [Block.push]⟩
    rw [head]
    cases orders : b.orders <;> simp [Block.push,orders]
  · have other : ¬ b.ptr = c.ptr := fun same => apart.2.1.1 ⟨c,m,same.symm⟩
    rw [recorded.level,if_neg other]
    exact hosted.read c (by simp [m])

theorem chainStep (recorded : Recorded s s' b loc o) : ChainStep s s' ch ch (B₁ ++ b :: B₂) := by
  refine ⟨recorded.best,recorded.root,?_,?_,framed_same fun x _ => recorded.node x,recorded.count⟩
  · intro x
    rw [recorded.level x]
    by_cases same : b.ptr = x
    · rw [if_pos same,Option.map_map]
      rfl
    · rw [if_neg same]
  · intro x out
    rw [recorded.level x,if_neg]
    rintro rfl
    simp at out

end Recorded

/-- The slot of the new order goes into its level and into the index. -/
theorem recordOrder_spec {o : SimpleOrder} (hosted : Hosted s ch (B₁ ++ b :: B₂))
    (slots : locs ch = (entries (B₁ ++ [b])).map Prod.fst ++ loc :: (entries B₂).map Prod.fst)
    (payload : s.orderAt loc = some o) (owner : o.level = some b.ptr)
    (fresh : ∀ e ∈ entries (B₁ ++ b :: B₂), e.2.orderId ≠ o.orderId) :
    ∃ s', s.recordOrder b.ptr b.orders.isEmpty loc o.orderId o.openQty = some s' ∧
      Hosted s' ch (B₁ ++ b.push loc o :: B₂) ∧ Covers ch (B₁ ++ b.push loc o :: B₂) ∧
      ChainStep s s' ch ch (B₁ ++ b :: B₂) := by
  obtain ⟨d,read,_⟩ := hosted.read b (by simp)
  obtain ⟨s',executed,recorded⟩ := recordOrder_run (b := b) s (by simp [read]) loc o
  have covers' : Covers ch (B₁ ++ b.push loc o :: B₂) := by
    unfold Covers
    rw [slots]
    simp [Block.push]
  refine ⟨s',executed,⟨?_,recorded.levels hosted.levels,?_,?_,?_,?_,recorded.index hosted fresh,recorded.read hosted,
    by simpa [Block.push] using hosted.ptrs⟩,covers',recorded.chainStep⟩
  · rw [recorded.nodes]; exact hosted.nodes
  · exact hosted.chained.congr recorded.chainHead recorded.chainTail (fun g _ => recorded.node g.ptr)
  · intro e member
    rw [covers']
    exact List.mem_map_of_mem member
  · intro e member
    simp only [orderAt,recorded.node]
    rcases mem_push.mp member with old | rfl
    · exact hosted.payload e old
    · exact payload
  · intro c member e inC
    simp only [List.mem_append,List.mem_cons] at member
    rcases member with m | rfl | m
    · exact hosted.owner c (by simp [m]) e inC
    · simp only [Block.push,List.mem_append,List.mem_singleton] at inC
      rcases inC with inB | rfl
      · exact hosted.owner b (by simp) e inB
      · exact owner
    · exact hosted.owner c (by simp [m]) e inC

/-- What an operation on a tree leaves of the cells of other trees. -/
structure TreeStep (s s' : TreeState N) (ch ch' : List Segment) (bl bl' : List Block) : Prop where
  nodes : Framed s.node s'.node (ch.map Segment.ptr) (ch'.map Segment.ptr)
  levels : Framed s.level s'.level (bl.map Block.ptr) (bl'.map Block.ptr)

theorem TreeStep.trans {ch' ch'' : List Segment} {bl' bl'' : List Block} (first : TreeStep s s' ch ch' bl bl')
    (second : TreeStep s' s'' ch' ch'' bl' bl'') : TreeStep s s'' ch ch'' bl bl'' :=
  ⟨first.nodes.trans second.nodes,first.levels.trans second.levels⟩

theorem ChainStep.treeStep {ch' : List Segment} {bl' : List Block} (chainStep : ChainStep s s' ch ch' bl)
    (ptrs : bl'.map Block.ptr = bl.map Block.ptr) : TreeStep s s' ch ch' bl bl' :=
  ⟨chainStep.nodes,by rw [ptrs]; exact framed_same chainStep.levels⟩

theorem Inserted.fresh (ρ : OrderLoc → OrderLoc) {id : Nat} (hosted : Hosted s ch bl) (fresh : s.orderIndex id = none) :
    ∀ e ∈ entries (bl.map (Block.rename ρ)), e.2.orderId ≠ id := by
  intro e member isId
  rw [entries_rename] at member
  obtain ⟨⟨l,o⟩,old,rfl⟩ := List.mem_map.mp member
  have indexed := (hosted.index id l).mpr ⟨o,old,isId⟩
  simp [fresh] at indexed

theorem placeOrder_spec (stored : Stored s ch (B₁ ++ b :: B₂)) (filled : ∀ c ∈ B₁, c.orders ≠ [])
    (priced : Priced type s (type.ascending ((B₁ ++ b :: B₂).map Block.ptr))) (fresh : s.orderIndex ord.orderId = none) :
    ∃ s' ch' ρ loc bl', s.placeOrder type b.ptr ord = some s' ∧
      bl' = B₁.map (Block.rename ρ) ++ (b.rename ρ).push loc { ord with level := some b.ptr } :: B₂.map (Block.rename ρ) ∧
      Stored s' ch' bl' ∧ Priced type s' (type.ascending (bl'.map Block.ptr)) ∧
      TreeStep s s' ch ch' (B₁ ++ b :: B₂) bl' := by
  obtain ⟨d,s₁,loc,read,isEmpty,step₁,⟨ρ,ch',R,hosted₁,locsIs,entriesIs,fixed,chainStep₁,segments⟩,payload⟩ :=
    placeInChain_spec stored filled priced ord
  have newOwner : ({ ord with level := some b.ptr } : SimpleOrder).level = some b.ptr := rfl
  have freshIn := Inserted.fresh ρ stored.hosted fresh
  simp only [List.map_append,List.map_cons] at hosted₁ entriesIs freshIn
  -- The slots before the new one are those of the better blocks and of its own.
  have front : (entries (B₁.map (Block.rename ρ) ++ [b.rename ρ])).map Prod.fst = (entries (B₁ ++ [b])).map Prod.fst := by
    have renamed : B₁.map (Block.rename ρ) ++ [b.rename ρ] = (B₁ ++ [b]).map (Block.rename ρ) := by simp
    rw [renamed,entries_rename,List.map_map]
    apply List.map_congr_left
    intro e member
    exact fixed e.1 (List.mem_map_of_mem member)
  have back : R = (entries (B₂.map (Block.rename ρ))).map Prod.fst := by
    have split : B₁.map (Block.rename ρ) ++ b.rename ρ :: B₂.map (Block.rename ρ) =
        (B₁.map (Block.rename ρ) ++ [b.rename ρ]) ++ B₂.map (Block.rename ρ) := by simp
    rw [split,entries_append,List.map_append,front] at entriesIs
    exact (List.append_cancel_left entriesIs).symm
  obtain ⟨s₂,step₂,hosted₂,covers₂,chainStep₂⟩ := recordOrder_spec (b := b.rename ρ) hosted₁
    (by rw [locsIs,front,back]) payload newOwner freshIn
  have chainStep := chainStep₁.trans chainStep₂ (by simp only [List.map_append,List.map_cons,rename_ptrs]; rfl)
  have ptrs : (B₁.map (Block.rename ρ) ++ (b.rename ρ).push loc { ord with level := some b.ptr } ::
      B₂.map (Block.rename ρ)).map Block.ptr = (B₁ ++ b :: B₂).map Block.ptr := by
    simp only [List.map_append,List.map_cons,rename_ptrs]
    rfl
  refine ⟨s₂,ch',ρ,loc,_,?_,rfl,⟨hosted₂,covers₂,segments⟩,?_,chainStep.treeStep ptrs⟩
  · have sameEmpty : (b.rename ρ).orders.isEmpty = b.orders.isEmpty := by simp [Block.rename]
    rw [sameEmpty] at step₂
    simp only [placeOrder,read,step₁,isEmpty,Option.bind_eq_bind,Option.bind_some]
    exact step₂
  · rw [ptrs]
    exact priced.of_spine chainStep.root chainStep.best chainStep.spine

end TreeState

/-- A block as a rung of the ladder. -/
def Block.rung (b : Block) : Rung := ⟨b.price,b.quantity,b.count,b.orders.map fun e => e.2.bare⟩

@[simp] theorem rung_rename (ρ : OrderLoc → OrderLoc) (b : Block) : (b.rename ρ).rung = b.rung := by
  simp [Block.rung,Block.rename]

/-- The ladder of some blocks. -/
def ladder (bl : List Block) : List Rung := bl.map Block.rung

@[simp] theorem ladder_append (bl bl' : List Block) : ladder (bl ++ bl') = ladder bl ++ ladder bl' := List.map_append

@[simp] theorem ladder_cons (b : Block) (bl : List Block) : ladder (b :: bl) = b.rung :: ladder bl := rfl

theorem ladder_rename (ρ : OrderLoc → OrderLoc) (bl : List Block) : ladder (bl.map (Block.rename ρ)) = ladder bl := by
  rw [ladder,List.map_map]
  exact List.map_congr_left fun b _ => rung_rename ρ b

theorem rung_push (b : Block) (loc : OrderLoc) (o : SimpleOrder) (lvl : Option Ptr) :
    (b.push loc { o with level := lvl }).rung = b.rung.add o := by
  simp only [Block.rung,Block.push,Rung.add,SimpleOrder.openQty,SimpleOrder.bare,List.map_append,List.map_cons,List.map_nil]

namespace TreeState
variable {N : Capacity} {s s' s'' : TreeState N} {type : OrderType}
variable {ch : List Segment} {bl B₁ B₂ : List Block} {b : Block} {a : Ptr} {ord : SimpleOrder} {price : Nat}

/-! ## The levels of a tree, best first -/

theorem Hosted.priceAt (hosted : Hosted s ch bl) (member : b ∈ bl) : s.priceAt b.ptr = b.price := by
  obtain ⟨d,read,body⟩ := hosted.read b member
  simp only [PriceLevel.body,LevelBody.mk.injEq] at body
  simp [TreeState.priceAt,read,body.1]

theorem bestOf_ascending (xs : List Ptr) : type.bestOf (type.ascending xs) = xs.head? := by
  cases type <;> simp [OrderType.bestOf,OrderType.ascending]

theorem Tree.best (tree : Tree type s ch bl) : s.best = (bl.map Block.ptr).head? :=
  tree.priced.best.trans (bestOf_ascending _)

theorem Tree.sorted (tree : Tree type s ch bl) : bl.Pairwise fun b c => type.better b.price c.price := by
  have byPtr : (bl.map Block.ptr).Pairwise fun x y => type.better (s.priceAt x) (s.priceAt y) := by
    have sorted := tree.priced.sorted
    cases type with
    | BID => exact List.pairwise_reverse.mp sorted
    | ASK => exact sorted
  apply (List.pairwise_map.mp byPtr).imp_of_mem
  intro b c inB inC better
  rwa [tree.hosted.priceAt inB,tree.hosted.priceAt inC] at better

theorem Tree.ladder_sorted (tree : Tree type s ch bl) : Ladder.Sorted type (ladder bl) :=
  List.pairwise_map.mpr tree.sorted

theorem ascending_split {xs as bs : List Ptr} (split : type.ascending xs = as ++ bs) : ∃ ys zs, xs = ys ++ zs ∧
    as = type.cheaper (type.ascending ys) (type.ascending zs) ∧ bs = type.dearer (type.ascending ys) (type.ascending zs) := by
  cases type with
  | BID =>
    have flipped : xs = bs.reverse ++ as.reverse := by
      rw [← List.reverse_append,← split]
      simp [OrderType.ascending]
    exact ⟨bs.reverse,as.reverse,flipped,by simp [OrderType.ascending,OrderType.cheaper],
      by simp [OrderType.ascending,OrderType.dearer]⟩
  | ASK => exact ⟨as,bs,split,rfl,rfl⟩

/-- What a search finds, best first. -/
theorem Tree.find (tree : Tree type s ch bl) (price : Nat) : ∃ sr, s.findNeighbors price = some sr ∧
    ((∃ B₁ b B₂, bl = B₁ ++ b :: B₂ ∧ b.price = price ∧ sr.existing = some b.ptr) ∨
      ∃ B₁ B₂, bl = B₁ ++ B₂ ∧ (∀ b ∈ B₁, type.better b.price price) ∧ (∀ b ∈ B₂, type.better price b.price) ∧
        sr = ⟨none,type.cheaper (B₁.map Block.ptr).getLast? (B₂.map Block.ptr).head?,
          type.dearer (B₁.map Block.ptr).getLast? (B₂.map Block.ptr).head?⟩) := by
  obtain ⟨sr,found,⟨as,a,bs,split,isPrice,existing⟩ | ⟨as,bs,split,below,above,rfl⟩⟩ :=
    findNeighbors_spec tree.hosted.levels tree.priced price
  · refine ⟨sr,found,.inl ?_⟩
    have member : a ∈ bl.map Block.ptr := mem_ascending.mp (by rw [split]; simp)
    obtain ⟨b,inBl,rfl⟩ := List.mem_map.mp member
    obtain ⟨B₁,B₂,rfl⟩ := List.append_of_mem inBl
    exact ⟨B₁,b,B₂,rfl,(tree.hosted.priceAt inBl).symm.trans isPrice,existing⟩
  · refine ⟨_,found,.inr ?_⟩
    obtain ⟨ys,zs,parts,rfl,rfl⟩ := ascending_split split
    obtain ⟨B₁,B₂,rfl,rfl,rfl⟩ := List.map_eq_append_iff.mp parts
    refine ⟨B₁,B₂,rfl,?_,?_,by rw [cheaper_last,dearer_first]⟩
    · intro b member
      have isPrice := tree.hosted.priceAt (b := b) (by simp [member])
      have inside : b.ptr ∈ type.ascending (B₁.map Block.ptr) := mem_ascending.mpr (List.mem_map_of_mem member)
      rw [← isPrice]
      cases type
      · exact above b.ptr inside
      · exact below b.ptr inside
    · intro b member
      have isPrice := tree.hosted.priceAt (b := b) (by simp [member])
      have inside : b.ptr ∈ type.ascending (B₂.map Block.ptr) := mem_ascending.mpr (List.mem_map_of_mem member)
      rw [← isPrice]
      cases type
      · exact below b.ptr inside
      · exact above b.ptr inside

/-! ## An order for an existing level -/

/-- What an insertion leaves. -/
structure InsertedAt (type : OrderType) (s s' : TreeState N) (ch : List Segment) (bl : List Block) (price : Nat)
    (ord : SimpleOrder) : Prop where
  result : ∃ ch' bl', Tree type s' ch' bl' ∧ ladder bl' = Ladder.place type price ord (ladder bl) ∧
    TreeStep s s' ch ch' bl bl'

theorem placeOrder_existing (B₁ B₂ : List Block) (b : Block) (tree : Tree type s ch (B₁ ++ b :: B₂))
    (fresh : s.orderIndex ord.orderId = none) :
    ∃ s', s.placeOrder type b.ptr ord = some s' ∧ InsertedAt type s s' ch (B₁ ++ b :: B₂) b.price ord := by
  obtain ⟨s',ch',ρ,loc,bl',executed,blocksIs,stored,priced,treeStep⟩ :=
    placeOrder_spec tree.toStored (fun c member => tree.blocks c (by simp [member])) tree.priced fresh
  have above : ∀ r ∈ ladder B₁, type.better r.price b.price := by
    intro r member
    obtain ⟨c,inB,rfl⟩ := List.mem_map.mp member
    exact (List.pairwise_append.mp tree.sorted).2.2 c inB b (by simp)
  refine ⟨s',executed,⟨ch',bl',⟨stored,priced,?_⟩,?_,treeStep⟩⟩
  · intro c member
    have kept : ∀ e ∈ B₁ ++ b :: B₂, (e.rename ρ).orders ≠ [] := fun e inOld => by
      simpa [Block.rename] using tree.blocks e inOld
    rw [blocksIs] at member
    simp only [List.mem_append,List.mem_cons,List.mem_map] at member
    rcases member with ⟨e,m,rfl⟩ | rfl | ⟨e,m,rfl⟩
    · exact kept e (by simp [m])
    · simp [Block.push]
    · exact kept e (by simp [m])
  · rw [blocksIs,ladder_append,ladder_cons,ladder_rename,ladder_rename,rung_push,rung_rename,ladder_append,ladder_cons,
      Ladder.place_here ord above rfl]

/-! ## An order for a new level -/

theorem makeLevel_spec (wf : s.levels.WellFormed) (price : Nat) : ∃ s' a, s.makeLevel price = some (s',a) ∧
    s.level a = none ∧ (∀ x, s'.level x = if x = a then some (.new price) else s.level x) ∧
    s'.levels.WellFormed ∧ s'.nodes = s.nodes ∧ s'.toNarbTree = s.toNarbTree := by
  obtain ⟨levels,a,allocated,wf',fresh,reads,_⟩ := wf.allocate (by decide) (PriceLevel.new price)
  refine ⟨{ s with levels := levels },a,?_,fresh,reads,wf',rfl,rfl⟩
  simp only [makeLevel,allocated,Option.bind_eq_bind,Option.bind_some]

/-- A level without orders in the tree. -/
theorem Stored.openLevel (stored : Stored s ch (B₁ ++ B₂)) (nodes : s'.nodes = s.nodes) (index : s'.orderIndex = s.orderIndex)
    (head : s'.chainHead = s.chainHead) (tail : s'.chainTail = s.chainTail) (wf : s'.levels.WellFormed)
    (fresh : s.level a = none) (body : ∀ x, (s'.level x).map PriceLevel.body =
      if x = a then some ⟨price,0,0,none,none⟩ else (s.level x).map PriceLevel.body) :
    Stored s' ch (B₁ ++ ⟨a,price,0,0,[]⟩ :: B₂) := by
  obtain ⟨hosted,covers,segments⟩ := stored
  have same : entries (B₁ ++ ⟨a,price,0,0,[]⟩ :: B₂) = entries (B₁ ++ B₂) := by simp
  have old : ∀ b, b ∈ B₁ ++ ⟨a,price,0,0,[]⟩ :: B₂ ↔ b = ⟨a,price,0,0,[]⟩ ∨ b ∈ B₁ ++ B₂ := by
    intro b
    simp only [List.mem_append,List.mem_cons]
    tauto
  have node' : ∀ x, s'.node x = s.node x := fun x => by simp only [node,nodes]
  have apart : ∀ b ∈ B₁ ++ B₂, b.ptr ≠ a := by
    rintro b member rfl
    obtain ⟨d,read,_⟩ := hosted.read b member
    simp [fresh] at read
  refine ⟨⟨nodes ▸ hosted.nodes,wf,hosted.chained.congr head tail fun g _ => node' g.ptr,?_,?_,?_,?_,?_,?_⟩,?_,segments⟩
  · rw [same]
    exact hosted.slots
  · rw [same]
    intro e member
    simpa only [orderAt,node'] using hosted.payload e member
  · intro b member e inB
    rcases (old b).mp member with rfl | inOld
    · simp at inB
    · exact hosted.owner b inOld e inB
  · rw [same,index]
    exact hosted.index
  · intro b member
    rcases (old b).mp member with rfl | inOld
    · have here := body a
      rw [if_pos rfl] at here
      obtain ⟨d,read,isBody⟩ := Option.map_eq_some_iff.mp here
      exact ⟨d,read,isBody⟩
    · obtain ⟨d,read,isBody⟩ := hosted.read b inOld
      have here := body b.ptr
      rw [if_neg (apart b inOld),read] at here
      obtain ⟨d',read',isBody'⟩ := Option.map_eq_some_iff.mp here
      exact ⟨d',read',isBody'.trans isBody⟩
  · have ptrs := hosted.ptrs
    simp only [List.map_append,List.map_cons] at ptrs ⊢
    refine List.nodup_middle.mpr (List.nodup_cons.mpr ⟨?_,ptrs⟩)
    rw [← List.map_append]
    intro member
    obtain ⟨b,inOld,isA⟩ := List.mem_map.mp member
    exact apart b inOld isA
  · unfold Covers
    rw [same]
    exact covers

/-- A new level between the levels of better and of worse prices, before its first order. -/
theorem openLevel_spec (B₁ B₂ : List Block) (tree : Tree type s ch (B₁ ++ B₂)) (above : ∀ b ∈ B₁, type.better b.price price)
    (below : ∀ b ∈ B₂, type.better price b.price) :
    ∃ s₁ a s₂, s.makeLevel price = some (s₁,a) ∧ s₁.neighborAwareInsert type a
        (type.cheaper (B₁.map Block.ptr).getLast? (B₂.map Block.ptr).head?)
        (type.dearer (B₁.map Block.ptr).getLast? (B₂.map Block.ptr).head?) = some s₂ ∧
      Stored s₂ ch (B₁ ++ ⟨a,price,0,0,[]⟩ :: B₂) ∧
      Priced type s₂ (type.ascending ((B₁ ++ (⟨a,price,0,0,[]⟩ : Block) :: B₂).map Block.ptr)) ∧
      s₂.orderIndex = s.orderIndex ∧ TreeStep s s₂ ch ch (B₁ ++ B₂) (B₁ ++ ⟨a,price,0,0,[]⟩ :: B₂) := by
  obtain ⟨s₁,a,step₁,unused,level₁,wf₁,nodes₁,fields₁⟩ := makeLevel_spec tree.hosted.levels price
  have apart : ∀ b ∈ B₁ ++ B₂, b.ptr ≠ a := by
    rintro b member rfl
    obtain ⟨d,read,_⟩ := tree.hosted.read b member
    simp [unused] at read
  have notIn : ∀ x ∈ (B₁ ++ B₂).map Block.ptr, x ≠ a := by
    intro x member
    obtain ⟨b,inOld,rfl⟩ := List.mem_map.mp member
    exact apart b inOld
  have priced₁ : Priced type s₁ (type.ascending ((B₁ ++ B₂).map Block.ptr)) := by
    apply tree.priced.congr (by rw [fields₁]) (by rw [fields₁])
    intro x member
    rw [level₁,if_neg (notIn x (mem_ascending.mp member))]
  have priceAt₁ : ∀ b ∈ B₁ ++ B₂, s₁.priceAt b.ptr = b.price := by
    intro b member
    rw [← tree.hosted.priceAt member]
    simp only [TreeState.priceAt,level₁,apart b member,↓reduceIte]
  -- The two sides of the new level, in order of price.
  rw [List.map_append,ascending_append] at priced₁
  have sides : (∀ x ∈ type.cheaper (type.ascending (B₁.map Block.ptr)) (type.ascending (B₂.map Block.ptr)),
      s₁.priceAt x < price) ∧
      ∀ x ∈ type.dearer (type.ascending (B₁.map Block.ptr)) (type.ascending (B₂.map Block.ptr)), price < s₁.priceAt x := by
    have better : ∀ x ∈ type.ascending (B₁.map Block.ptr), type.better (s₁.priceAt x) price := by
      intro x member
      obtain ⟨b,inB,rfl⟩ := List.mem_map.mp (mem_ascending.mp member)
      rw [priceAt₁ b (by simp [inB])]
      exact above b inB
    have worse : ∀ x ∈ type.ascending (B₂.map Block.ptr), type.better price (s₁.priceAt x) := by
      intro x member
      obtain ⟨b,inB,rfl⟩ := List.mem_map.mp (mem_ascending.mp member)
      rw [priceAt₁ b (by simp [inB])]
      exact below b inB
    cases type
    · exact ⟨worse,better⟩
    · exact ⟨better,worse⟩
  obtain ⟨s₂,step₂,priced₂,reindexed⟩ := neighborAwareInsert_spec (d := .new price) wf₁ priced₁ (by
      rw [← ascending_append,mem_ascending,← List.map_append]
      exact fun member => notIn a member rfl) (by simp [level₁]) ⟨rfl,rfl,rfl⟩ sides.1 sides.2
  rw [cheaper_last,dearer_first] at step₂
  rw [← ascending_middle] at priced₂
  have stored₂ : Stored s₂ ch (B₁ ++ ⟨a,price,0,0,[]⟩ :: B₂) := by
    refine tree.toStored.openLevel (reindexed.nodes.trans nodes₁) ?_ ?_ ?_ (reindexed.wellFormed wf₁) unused ?_
    · rw [reindexed.orderIndex,fields₁]
    · rw [reindexed.chainHead,fields₁]
    · rw [reindexed.chainTail,fields₁]
    · intro x
      rw [reindexed.body,level₁]
      split_ifs <;> rfl
  have treeStep₂ : TreeStep s s₂ ch ch (B₁ ++ B₂) (B₁ ++ ⟨a,price,0,0,[]⟩ :: B₂) := by
    refine ⟨framed_same fun x _ => by simp only [node,reindexed.nodes,nodes₁],?_,?_,?_⟩
    · intro x out out'
      have other : x ≠ a := by
        rintro rfl
        simp at out'
      rw [reindexed.outside x,level₁,if_neg other]
      rw [← ascending_middle,mem_ascending]
      simpa using out'
    · intro x member out
      have isNew : x = a := by
        simp only [List.map_append,List.map_cons,List.mem_append,List.mem_cons] at member out
        tauto
      rw [isNew,unused]
    · intro x member out
      simp only [List.map_append,List.map_cons,List.mem_append,List.mem_cons] at member out
      tauto
  exact ⟨s₁,a,s₂,step₁,step₂,stored₂,by simpa using priced₂,reindexed.orderIndex.trans (by rw [fields₁]),treeStep₂⟩

/-- A new level between the levels of better and of worse prices, with its first order. -/
theorem insertLevel_spec (B₁ B₂ : List Block) (tree : Tree type s ch (B₁ ++ B₂)) (above : ∀ b ∈ B₁, type.better b.price price)
    (below : ∀ b ∈ B₂, type.better price b.price) (fresh : s.orderIndex ord.orderId = none) :
    ∃ s', s.insertLevel type ord price (type.cheaper (B₁.map Block.ptr).getLast? (B₂.map Block.ptr).head?)
      (type.dearer (B₁.map Block.ptr).getLast? (B₂.map Block.ptr).head?) = some s' ∧
      InsertedAt type s s' ch (B₁ ++ B₂) price ord := by
  obtain ⟨s₁,a,s₂,step₁,step₂,stored₂,priced₂,index₂,treeStep₂⟩ := openLevel_spec B₁ B₂ tree above below
  obtain ⟨s₃,ch',ρ,loc,bl',step₃,blocksIs,stored₃,priced₃,treeStep₃⟩ := placeOrder_spec (b := ⟨a,price,0,0,[]⟩) stored₂
    (fun c member => tree.blocks c (by simp [member])) priced₂ (by rw [index₂]; exact fresh)
  refine ⟨s₃,?_,⟨ch',bl',⟨stored₃,priced₃,?_⟩,?_,treeStep₂.trans treeStep₃⟩⟩
  · simp only [insertLevel,step₁,step₂,step₃,Option.bind_eq_bind,Option.bind_some]
  · intro c member
    have kept : ∀ e ∈ B₁ ++ B₂, (e.rename ρ).orders ≠ [] := fun e inOld => by
      simpa [Block.rename] using tree.blocks e inOld
    rw [blocksIs] at member
    simp only [List.mem_append,List.mem_cons,List.mem_map] at member
    rcases member with ⟨e,m,rfl⟩ | rfl | ⟨e,m,rfl⟩
    · exact kept e (by simp [m])
    · simp [Block.push]
    · exact kept e (by simp [m])
  · rw [blocksIs,ladder_append,ladder_cons,ladder_rename,ladder_rename,rung_push,rung_rename,ladder_append,
      Ladder.place_between]
    · rfl
    · intro r member
      obtain ⟨c,inB,rfl⟩ := List.mem_map.mp member
      exact above c inB
    · intro r member
      obtain ⟨c,inB,rfl⟩ := List.mem_map.mp member
      exact below c inB

/-! ## The paths of `insert` -/

/-- Where an order goes: into a level there is, or into a new one between two neighbours. -/
inductive Target where
  | existing (lvl : Ptr)
  | between (pred succ : Option Ptr)
deriving DecidableEq

/-- Where the general path puts an order after its search. -/
def SearchResult.target (sr : SearchResult) : Target :=
  match sr.existing with
  | some lvl => .existing lvl
  | none => .between sr.pred sr.succ

/-- Where `insertBehind` puts an order. -/
def behindTarget (type : OrderType) (s : TreeState N) (price : Nat) (best : Ptr) (d : PriceLevel) : Option Target :=
  match d.worse type with
  | none =>
    match type with
    | .BID => some (.between none (some best))
    | .ASK => some (.between (some best) none)
  | some next => do
    let e ← s.level next
    if price = e.price then some (.existing next)
    else
      let lo := if d.price < e.price then best else next
      let hi := if d.price < e.price then next else best
      if price > (← s.level lo).price ∧ price < (← s.level hi).price then some (.between (some lo) (some hi))
      else (s.findNeighbors price).map SearchResult.target

/-- Where `insert` puts an order of some price. -/
def insertTarget (type : OrderType) (s : TreeState N) (price : Nat) : Option Target :=
  match s.best with
  | none => (s.findNeighbors price).map SearchResult.target
  | some best => do
    let d ← s.level best
    if price = d.price then some (.existing best)
    else if type.better price d.price then
      match type with
      | .BID => some (.between (some best) none)
      | .ASK => some (.between none (some best))
    else s.behindTarget type price best d

/-- The order goes where it is to go. -/
def insertAt (type : OrderType) (s : TreeState N) (order : SimpleOrder) (price : Nat) : Target → Option (TreeState N)
  | .existing lvl => s.placeOrder type lvl order
  | .between pred succ => s.insertLevel type order price pred succ

theorem insertGeneral_eq (s : TreeState N) (order : SimpleOrder) (price : Nat) : s.insertGeneral type order price =
    ((s.findNeighbors price).map SearchResult.target).bind (s.insertAt type order price) := by
  unfold insertGeneral
  cases s.findNeighbors price with
  | none => rfl
  | some sr =>
    rcases sr with ⟨_ | lvl,pred,succ⟩
    · rfl
    · rfl

theorem insertBehind_eq (s : TreeState N) (order : SimpleOrder) (price : Nat) (best : Ptr) (d : PriceLevel) :
    s.insertBehind type order price best d = (s.behindTarget type price best d).bind (s.insertAt type order price) := by
  unfold insertBehind behindTarget
  cases d.worse type with
  | none => cases type <;> rfl
  | some next =>
    simp only [Option.bind_eq_bind,insertGeneral_eq]
    cases s.level next with
    | none => rfl
    | some e =>
      simp only [Option.bind_some]
      by_cases same : price = e.price
      · simp only [same,↓reduceIte]
        rfl
      · simp only [same,↓reduceIte]
        cases s.level (if d.price < e.price then best else next) with
        | none => rfl
        | some lo =>
          cases s.level (if d.price < e.price then next else best) with
          | none => rfl
          | some hi =>
            simp only [Option.bind_some]
            split_ifs <;> rfl

/-- `insert` decides where the order goes, and puts it there. -/
theorem insert_eq (s : TreeState N) (order : SimpleOrder) (price : Nat) : s.insert type order price =
    (s.insertTarget type price).bind (s.insertAt type order price) := by
  unfold insert insertTarget
  cases s.best with
  | none => exact insertGeneral_eq s order price
  | some best =>
    simp only [Option.bind_eq_bind,insertBehind_eq]
    cases s.level best with
    | none => rfl
    | some d =>
      simp only [Option.bind_some]
      split_ifs
      · rfl
      · cases type <;> rfl
      · rfl

/-- The prices between two neighbours, whichever of them is the cheaper. -/
theorem between_iff {p q r : Nat} (better : type.better q r) : (p > (if q < r then q else r) ∧ p < (if q < r then r else q)) ↔
    type.better q p ∧ type.better p r := by
  cases type with
  | BID =>
    have less : r < q := better
    rw [if_neg (by omega),if_neg (by omega)]
    exact ⟨fun h => ⟨h.2,h.1⟩,fun h => ⟨h.2,h.1⟩⟩
  | ASK =>
    have less : q < r := better
    rw [if_pos less,if_pos less]
    exact Iff.rfl

/-- The levels of better and of worse prices are where a price parts them. -/
theorem parted_unique {C₁ C₂ : List Block} (same : B₁ ++ B₂ = C₁ ++ C₂) (above : ∀ b ∈ B₁, type.better b.price price)
    (below : ∀ b ∈ B₂, type.better price b.price) (above' : ∀ b ∈ C₁, type.better b.price price)
    (below' : ∀ b ∈ C₂, type.better price b.price) : B₁ = C₁ ∧ B₂ = C₂ := by
  rcases List.append_eq_append_iff.mp same with ⟨mid,rfl,rfl⟩ | ⟨mid,rfl,rfl⟩
  · cases mid with
    | nil =>
      simp
    | cons b mid =>
      exact absurd (below b (by simp)) (OrderType.better_asymm (above' b (by simp)))
  · cases mid with
    | nil =>
      simp
    | cons b mid =>
      exact absurd (below' b (by simp)) (OrderType.better_asymm (above b (by simp)))

/-- A search for the price of a level finds that level. -/
theorem Tree.target_existing (B₁ B₂ : List Block) (tree : Tree type s ch (B₁ ++ b :: B₂)) :
    (s.findNeighbors b.price).map SearchResult.target = some (.existing b.ptr) := by
  have inside : b ∈ B₁ ++ b :: B₂ := by simp
  obtain ⟨sr,found,⟨C₁,c,C₂,split,isPrice,existing⟩ | ⟨C₁,C₂,split,above,below,rfl⟩⟩ := tree.find b.price
  · have prices : ((B₁ ++ b :: B₂).map Block.price).Nodup := by
      refine List.pairwise_map.mpr (tree.sorted.imp ?_)
      intro x y better same
      rw [same] at better
      exact OrderType.better_irrefl type _ better
    have same : c = b := List.inj_on_of_nodup_map prices (by rw [split]; simp) inside isPrice
    rw [found,Option.map_some,SearchResult.target,existing,same]
  · rw [split] at inside
    cases List.mem_append.mp inside with
    | inl m => exact absurd (above b m) (OrderType.better_irrefl type _)
    | inr m => exact absurd (below b m) (OrderType.better_irrefl type _)

/-- A search for another price finds the levels that part it from the others. -/
theorem Tree.target_between (B₁ B₂ : List Block) (tree : Tree type s ch (B₁ ++ B₂)) (above : ∀ b ∈ B₁, type.better b.price price)
    (below : ∀ b ∈ B₂, type.better price b.price) : (s.findNeighbors price).map SearchResult.target =
      some (.between (type.cheaper (B₁.map Block.ptr).getLast? (B₂.map Block.ptr).head?)
        (type.dearer (B₁.map Block.ptr).getLast? (B₂.map Block.ptr).head?)) := by
  obtain ⟨sr,found,⟨C₁,c,C₂,split,isPrice,existing⟩ | ⟨C₁,C₂,split,above',below',rfl⟩⟩ := tree.find price
  · have inside : c ∈ B₁ ++ B₂ := by rw [split]; simp
    subst isPrice
    cases List.mem_append.mp inside with
    | inl m => exact absurd (above c m) (OrderType.better_irrefl type _)
    | inr m => exact absurd (below c m) (OrderType.better_irrefl type _)
  · obtain ⟨rfl,rfl⟩ := parted_unique split above below above' below'
    rw [found]
    rfl

theorem Tree.behindTarget {d : PriceLevel} (tree : Tree type s ch (b :: B₂)) (read : s.level b.ptr = some d)
    (isPrice : d.price = b.price) (worse : d.worse type = (B₂.map Block.ptr).head?) (better : type.better b.price price) :
    s.behindTarget type price b.ptr d = (s.findNeighbors price).map SearchResult.target := by
  have above : ∀ x ∈ [b], type.better x.price price := by simpa using better
  cases B₂ with
  | nil =>
    -- The best level is the only one.
    have alone : d.worse type = none := worse
    rw [Tree.target_between [b] [] tree above (by simp)]
    cases type <;> simp [TreeState.behindTarget,alone,OrderType.cheaper,OrderType.dearer]
  | cons c B₃ =>
    have isNext : d.worse type = some c.ptr := worse
    obtain ⟨e,readC,bodyC⟩ := tree.hosted.read c (by simp)
    have priceC : e.price = c.price := congrArg LevelBody.price bodyC
    have order : type.better b.price c.price := (List.pairwise_cons.mp tree.sorted).1 c (by simp)
    by_cases same : price = c.price
    · -- The price of the second level.
      rw [same,Tree.target_existing [b] B₃ tree]
      simp only [TreeState.behindTarget,isNext,readC,priceC,Option.bind_eq_bind,Option.bind_some,↓reduceIte]
    · have run : s.behindTarget type price b.ptr d =
          if price > (if b.price < c.price then b.price else c.price) ∧
            price < (if b.price < c.price then c.price else b.price) then
            some (.between (some (if b.price < c.price then b.ptr else c.ptr)) (some (if b.price < c.price then c.ptr else b.ptr)))
          else (s.findNeighbors price).map SearchResult.target := by
        by_cases less : b.price < c.price <;>
          simp only [TreeState.behindTarget,isNext,readC,priceC,isPrice,same,less,read,Option.bind_eq_bind,Option.bind_some,
            ↓reduceIte]
      by_cases between : type.better b.price price ∧ type.better price c.price
      · -- Between the first two levels.
        have below : ∀ x ∈ c :: B₃, type.better price x.price := by
          intro x member
          rcases List.mem_cons.mp member with rfl | member
          · exact between.2
          · have further := (List.pairwise_cons.mp (List.pairwise_cons.mp tree.sorted).2).1 x member
            exact OrderType.better_trans between.2 further
        rw [run,if_pos ((between_iff order).mpr between),Tree.target_between [b] (c :: B₃) tree above below]
        cases type with
        | BID =>
          have less : c.price < b.price := order
          simp [OrderType.cheaper,OrderType.dearer,Nat.not_lt_of_lt less]
        | ASK =>
          have less : b.price < c.price := order
          simp [OrderType.cheaper,OrderType.dearer,less]
      · rw [run,if_neg (fun h => between ((between_iff order).mp h))]

/-- The shortcuts of `insert` lead where the search leads. -/
theorem Tree.insertTarget (tree : Tree type s ch bl) (price : Nat) :
    s.insertTarget type price = (s.findNeighbors price).map SearchResult.target := by
  have best := tree.best
  cases bl with
  | nil =>
    have noBest : s.best = none := best
    simp only [TreeState.insertTarget,noBest]
  | cons b B₂ =>
    have isBest : s.best = some b.ptr := best
    obtain ⟨d,read,body⟩ := tree.hosted.read b (by simp)
    have atBest : Priced type s (type.ascending ([] ++ b.ptr :: B₂.map Block.ptr)) := tree.priced
    obtain ⟨d',read',_,worse⟩ := atBest.neighbours
    obtain rfl : d' = d := Option.some.inj (read'.symm.trans read)
    have isPrice : d'.price = b.price := congrArg LevelBody.price body
    by_cases same : price = b.price
    · rw [same,Tree.target_existing [] B₂ tree]
      simp only [TreeState.insertTarget,isBest,read,isPrice,Option.bind_eq_bind,Option.bind_some,↓reduceIte]
    · by_cases better : type.better price b.price
      · -- A new best level.
        have below : ∀ x ∈ b :: B₂, type.better price x.price := by
          intro x member
          rcases List.mem_cons.mp member with rfl | member
          · exact better
          · exact OrderType.better_trans better ((List.pairwise_cons.mp tree.sorted).1 x member)
        rw [Tree.target_between [] (b :: B₂) tree (by simp) below]
        simp only [TreeState.insertTarget,isBest,read,isPrice,same,better,Option.bind_eq_bind,Option.bind_some,↓reduceIte]
        cases type <;> rfl
      · have behind := (type.better_total same).resolve_left better
        rw [← tree.behindTarget read isPrice worse behind]
        simp only [TreeState.insertTarget,isBest,read,isPrice,same,better,Option.bind_eq_bind,Option.bind_some,↓reduceIte]

/-- Without its shortcuts `insert` does the same. -/
theorem Tree.insert_eq_general (tree : Tree type s ch bl) (ord : SimpleOrder) (price : Nat) :
    s.insert type ord price = s.insertGeneral type ord price := by
  rw [insert_eq,insertGeneral_eq,tree.insertTarget]

theorem insertGeneral_spec (tree : Tree type s ch bl) (fresh : s.orderIndex ord.orderId = none) (price : Nat) :
    ∃ s', s.insertGeneral type ord price = some s' ∧ InsertedAt type s s' ch bl price ord := by
  obtain ⟨sr,found,⟨B₁,b,B₂,rfl,rfl,existing⟩ | ⟨B₁,B₂,rfl,above,below,rfl⟩⟩ := tree.find price
  · obtain ⟨s',executed,inserted⟩ := placeOrder_existing B₁ B₂ b tree fresh
    refine ⟨s',?_,inserted⟩
    simp only [insertGeneral,found,existing,executed,Option.bind_eq_bind,Option.bind_some]
  · obtain ⟨s',executed,inserted⟩ := insertLevel_spec B₁ B₂ tree above below fresh
    refine ⟨s',?_,inserted⟩
    simp only [insertGeneral,found,executed,Option.bind_eq_bind,Option.bind_some]

theorem insert_spec (tree : Tree type s ch bl) (fresh : s.orderIndex ord.orderId = none) (price : Nat) :
    ∃ s', s.insert type ord price = some s' ∧ InsertedAt type s s' ch bl price ord := by
  rw [tree.insert_eq_general]
  exact insertGeneral_spec tree fresh price

end TreeState

end BaboEngine
