import BaboEngine.TreeRuns

/-!
# The relocation cascade

What `make_room` does to the chain of a tree that operations have led to: a full node
loses its last order to the next node, and that one, where it is full, its own last order
in turn. The sequence of orders stays, and so does every reference to an order that moves.
-/

namespace BaboEngine
open DoublyLinked

namespace TreeState
variable {N : Capacity} {s s' : TreeState N} {type : OrderType} {h : Pools N}
variable {ch pre post post' : List Segment} {bl : List Block} {ρ : OrderLoc → OrderLoc} {x : Ptr} {xs : List Nat}

/-- The states in which a node may be asked to make room: those a run leads to, and those inside an
    insertion, when a new level is in the index of levels and its first order is not yet in the chain. -/
inductive Reached (type : OrderType) (h : Pools N) : TreeState N → Prop
  | ran {ops : List TreeOp} {s : TreeState N} (fresh : FreshIds type ops) (run : after type h ops = some s) :
    Reached type h s
  | opened {ops : List TreeOp} {s s₁ s₂ : TreeState N} {sr : SearchResult} {a : Ptr} {price : Nat}
    (fresh : FreshIds type ops) (run : after type h ops = some s) (found : s.findNeighbors price = some sr)
    (absent : sr.existing = none) (made : s.makeLevel price = some (s₁,a))
    (inserted : s₁.neighborAwareInsert type a sr.pred sr.succ = some s₂) : Reached type h s₂

theorem Reached.stored (reached : Reached type h s) : ∃ ch bl, Stored s ch bl := by
  cases reached with
  | ran fresh run =>
    obtain ⟨s₀,executed,ch,bl,tree,_⟩ := run_refines h _ fresh
    obtain rfl : s₀ = s := Option.some.inj (executed.symm.trans run)
    exact ⟨ch,bl,tree.toStored⟩
  | @opened ops s₀ s₁ _ sr a price fresh run found absent made inserted =>
    obtain ⟨s',executed,ch,bl,tree,_⟩ := run_refines h _ fresh
    obtain rfl : s' = s₀ := Option.some.inj (executed.symm.trans run)
    obtain ⟨sr',found',⟨B₁,b,B₂,_,_,existing⟩ | ⟨B₁,B₂,rfl,above,below,rfl⟩⟩ := tree.find price
    · obtain rfl : sr' = sr := Option.some.inj (found'.symm.trans found)
      rw [absent] at existing
      simp at existing
    · obtain rfl := Option.some.inj (found'.symm.trans found)
      obtain ⟨s₁',a',s₂,step₁,step₂,stored,_⟩ := openLevel_spec B₁ B₂ tree above below
      obtain ⟨rfl,rfl⟩ := Prod.mk.inj (Option.some.inj (step₁.symm.trans made))
      obtain rfl := Option.some.inj (step₂.symm.trans inserted)
      exact ⟨_,_,stored⟩

/-- What `make_room` does to the full node `x` with the slots `xs`. The order in a slot `l` of the chain is in the slot
    `ρ l` afterwards. -/
structure RoomMade (s s' : TreeState N) (bl : List Block) (ρ : OrderLoc → OrderLoc) (pre : List Segment) (x : Ptr)
    (xs : List Nat) (post post' : List Segment) : Prop where
  /-- The nodes before `x` are as they were; all links, the head and the tail of the chain agree. -/
  chained : Chained s' (pre ++ ⟨x,xs.dropLast⟩ :: post')
  room : xs.dropLast.length = N.val - 1
  unmoved : ∀ l ∈ locs (pre ++ [⟨x,xs.dropLast⟩]), ρ l = l
  few : MovesAtMost 17 ρ
  slots : locs (pre ++ ⟨x,xs.dropLast⟩ :: post') = (locs (pre ++ ⟨x,xs⟩ :: post)).map ρ
  orders : (locs (pre ++ ⟨x,xs.dropLast⟩ :: post')).map s'.orderAt = (locs (pre ++ ⟨x,xs⟩ :: post)).map s.orderAt
  index : ∀ id, s'.orderIndex id = (s.orderIndex id).map ρ
  levels : ∀ b ∈ bl, s'.level b.ptr = (s.level b.ptr).map fun d => { d with head := d.head.map ρ, tail := d.tail.map ρ }
  filled : ∀ g ∈ pre ++ post', g.slots ≠ []
  nodes : OneMoreNode s (post.map Segment.ptr) (post'.map Segment.ptr)
  others : ∀ a, a ∉ (pre ++ ⟨x,xs⟩ :: post).map Segment.ptr → a ∉ (pre ++ ⟨x,xs.dropLast⟩ :: post').map Segment.ptr →
    s'.node a = s.node a

/-- A level is its place in the index of levels and its body. -/
theorem level_ext {d e : PriceLevel} (spine : d.spine = e.spine) (body : d.body = e.body) : d = e := by
  cases d
  cases e
  simp only [PriceLevel.spine,LevelSpine.mk.injEq,PriceLevel.body,LevelBody.mk.injEq] at spine body
  simp [spine,body]

/-- The index after orders got other slots. -/
theorem Hosted.index_rename {ch' : List Segment} (hosted : Hosted s ch bl) (hosted' : Hosted s' ch' (bl.map (Block.rename ρ)))
    (id : Nat) : s'.orderIndex id = (s.orderIndex id).map ρ := by
  cases was : s.orderIndex id with
  | none =>
    apply Option.eq_none_iff_forall_ne_some.mpr
    intro l isLoc
    obtain ⟨o,member,isId⟩ := (hosted'.index id l).mp isLoc
    exact Inserted.fresh ρ hosted was _ member isId
  | some l =>
    obtain ⟨o,member,isId⟩ := (hosted.index id l).mp was
    refine (hosted'.index id (ρ l)).mpr ⟨o,?_,isId⟩
    rw [entries_rename]
    exact List.mem_map.mpr ⟨(l,o),member,rfl⟩

/-- A level after orders got other slots. -/
theorem Hosted.level_rename {ch' : List Segment} {b : Block} (hosted : Hosted s ch bl)
    (hosted' : Hosted s' ch' (bl.map (Block.rename ρ)))
    (spine : (s'.level b.ptr).map PriceLevel.spine = (s.level b.ptr).map PriceLevel.spine) (member : b ∈ bl) :
    s'.level b.ptr = (s.level b.ptr).map fun d => { d with head := d.head.map ρ, tail := d.tail.map ρ } := by
  obtain ⟨d,read,body⟩ := hosted.read b member
  obtain ⟨d',read',body'⟩ := hosted'.read (b.rename ρ) (List.mem_map_of_mem member)
  have isHere : (b.rename ρ).ptr = b.ptr := rfl
  rw [isHere] at read'
  rw [read,read',Option.map_some,Option.map_some,Option.some.injEq] at spine
  rw [read,read',Option.map_some,Option.some.injEq]
  refine level_ext spine ?_
  simp only [PriceLevel.body,LevelBody.mk.injEq] at body body' ⊢
  obtain ⟨price,quantity,count,head,tail⟩ := body
  obtain ⟨price',quantity',count',head',tail'⟩ := body'
  refine ⟨price'.trans price.symm,quantity'.trans quantity.symm,count'.trans count.symm,?_,?_⟩
  · rw [head,head',← head_rename]
    rfl
  · rw [tail,tail',← tail_rename]
    rfl

theorem Stored.makeRoom (stored : Stored s (pre ++ ⟨x,xs⟩ :: post) bl) (full : xs.length = N.val) :
    ∃ s' ρ post', s.makeRoom x = some s' ∧ RoomMade s s' bl ρ pre x xs post post' := by
  obtain ⟨hosted,covers,segments⟩ := stored
  obtain ⟨s',ρ,post',executed,hosted',covers',chainStep,filled,unmoved,few,nodes⟩ :=
    makeRoom_spec hosted covers full (fun g member => segments g (by simp [member]))
  have slots : locs (pre ++ ⟨x,xs.dropLast⟩ :: post') = (locs (pre ++ ⟨x,xs⟩ :: post)).map ρ := by
    rw [covers',covers,entries_rename]
    simp [Function.comp_def]
  refine ⟨s',ρ,post',executed,hosted'.chained,by rw [List.length_dropLast,full],unmoved,few,slots,?_,
    hosted.index_rename hosted',fun b member => hosted.level_rename hosted' (chainStep.spine b.ptr) member,?_,nodes,
    chainStep.nodes.outside⟩
  · rw [slots,covers,List.map_map,List.map_map,List.map_map]
    apply List.map_congr_left
    rintro ⟨l,o⟩ member
    have before := hosted.payload _ member
    have behind := hosted'.payload (ρ l,o) (by rw [entries_rename]; exact List.mem_map.mpr ⟨(l,o),member,rfl⟩)
    exact behind.trans before.symm
  · intro g member
    cases List.mem_append.mp member with
    | inl inPre => exact segments g (by simp [inPre])
    | inr inPost => exact filled g inPost

/-- In every chain that operations lead to, a full node gets room for one order: its last order moves on to the next node,
    at most seventeen orders move at all, and the chain gets at most one node more. No order is put into a full node and
    the path stays within its array, where `makeRoom` would be `none`. -/
theorem makeRoom_frees (reached : Reached type h s) : ∃ ch bl, Stored s ch bl ∧
    ∀ pre x xs post n, ch = pre ++ ⟨x,xs⟩ :: post → s.node x = some n → n.full = true →
      ∃ s' ρ post', s.makeRoom x = some s' ∧ RoomMade s s' bl ρ pre x xs post post' := by
  obtain ⟨ch,bl,stored⟩ := reached.stored
  refine ⟨ch,bl,stored,?_⟩
  rintro pre x xs post n rfl read full
  obtain ⟨n',fs,read',holds,_⟩ := stored.hosted.chained.read
  obtain rfl : n' = n := Option.some.inj (read'.symm.trans read)
  exact stored.makeRoom (holds.full_iff.mp full)

/-- Two buys in nodes of one slot: the first node hands its order on. -/
theorem makeRoom_frees_buys : ∃ s s' : TreeState ⟨1,by decide,by decide⟩,
    after .BID .empty [.insert (.new true 100 5 0 0 1) 100,.insert (.new true 100 6 0 0 2) 100] = some s ∧
    ∃ ch bl ρ x xs post post', Stored s ch bl ∧ ch = ⟨x,xs⟩ :: post ∧ s.makeRoom x = some s' ∧
      RoomMade s s' bl ρ [] x xs post post' := by
  have fresh : FreshIds .BID [.insert (.new true 100 5 0 0 1) 100,.insert (.new true 100 6 0 0 2) 100] := by decide
  obtain ⟨s,ran,_⟩ := run_refines (N := ⟨1,by decide,by decide⟩) .empty _ fresh
  obtain ⟨ch,bl,stored,all⟩ := makeRoom_frees (.ran fresh ran)
  have head : s.chainHead ≠ none := by
    obtain rfl := Option.some.inj ran
    decide
  cases ch with
  | nil =>
    exact absurd stored.hosted.chained.head head
  | cons e post =>
    obtain ⟨x,xs⟩ := e
    -- A node of one slot that is not empty is full.
    obtain ⟨n,fs,read,holds⟩ := stored.hosted.chained.holds ⟨x,xs⟩ (by simp)
    have filled : 0 < xs.length := List.length_pos_iff.mpr (stored.segments ⟨x,xs⟩ (by simp))
    have one : xs.length + fs.length = 1 := holds.length
    have full : n.full = true := holds.full_iff.mpr (show xs.length = 1 by omega)
    obtain ⟨s',ρ,post',executed,made⟩ := all [] x xs post n rfl read full
    exact ⟨s,s',ran,⟨x,xs⟩ :: post,bl,ρ,x,xs,post,post',stored,rfl,executed,made⟩

end TreeState

end BaboEngine
