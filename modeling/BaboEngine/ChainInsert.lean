import BaboEngine.MakeRoom

/-!
# Putting an order into the chain

The insertions into the chain all end in one list operation on one node. What
they leave is stated once (`Inserted`): the new order behind a given prefix of the
slots, which none of the relocations on the way has touched.
-/

namespace BaboEngine
open DoublyLinked

namespace TreeState
variable {N : Capacity} {s s' s'' : TreeState N} {ch pre post : List Segment} {bl : List Block} {a lvl : Ptr}
variable {g : Segment} {ord : SimpleOrder} {L : List OrderLoc} {loc : OrderLoc}

/-- The order is in the slot `loc` behind the slots `L`; it is not yet in a block. The orders
    behind it may have new slots. -/
structure Inserted (s s' : TreeState N) (ch : List Segment) (bl : List Block) (ord : SimpleOrder) (lvl : Ptr)
    (L : List OrderLoc) (loc : OrderLoc) : Prop where
  result : ∃ ρ ch' R, Hosted s' ch' (bl.map (Block.rename ρ)) ∧ locs ch' = L ++ loc :: R ∧
    (entries (bl.map (Block.rename ρ))).map Prod.fst = L ++ R ∧ (∀ l ∈ L, ρ l = l) ∧ ChainStep s s' ch ch' bl ∧
    ∀ g ∈ ch', g.slots ≠ []
  stored : s'.orderAt loc = some { ord with level := some lvl }

/-- A list operation on a node puts the order into the free slot `j`, between `us` and `vs`. -/
def Puts (op : PinNode N → Option (PinNode N × Nat)) (us vs : List Nat) (ord : SimpleOrder) : Prop :=
  ∀ (n : PinNode N) (fs : List Nat), n.Holds (us ++ vs) fs → (us ++ vs).length < N.val → ∃ j rest n', fs = j :: rest ∧
    op n = some (n',j) ∧ n'.Holds (us ++ j :: vs) rest ∧ PinNode.Added n n' ord j

theorem puts_append (us : List Nat) (ord : SimpleOrder) : Puts (N := N) (·.append ord) us [] ord := by
  intro n fs holds room
  rw [List.append_nil] at holds room
  obtain ⟨j,rest,n',isFree,done,holds',added⟩ := PinNode.append_spec holds room ord
  exact ⟨j,rest,n',isFree,done,holds',added⟩

theorem puts_prepend (vs : List Nat) (ord : SimpleOrder) : Puts (N := N) (·.prepend ord) [] vs ord := by
  intro n fs holds room
  exact PinNode.prepend_spec holds room ord

theorem puts_insertAfter (us vs : List Nat) (i : Nat) (ord : SimpleOrder) :
    Puts (N := N) (·.insertAfter i ord) (us ++ [i]) vs ord := by
  intro n fs holds room
  have split : us ++ [i] ++ vs = us ++ i :: vs := by simp
  rw [split] at holds room
  obtain ⟨j,rest,n',isFree,done,holds',added⟩ := PinNode.insertAfter_spec holds room ord
  exact ⟨j,rest,n',isFree,done,by simpa using holds',added⟩

theorem putOrder_spec {us vs : List Nat} {op : PinNode N → Option (PinNode N × Nat)}
    (hosted : Hosted s (pre ++ ⟨a,us ++ vs⟩ :: post) bl) (room : (us ++ vs).length < N.val) (puts : Puts op us vs ord)
    (lvl : Ptr) : ∃ s' j, s.putOrder a op lvl = some (s',⟨a,j⟩) ∧ Hosted s' (pre ++ ⟨a,us ++ j :: vs⟩ :: post) bl ∧
      s'.orderAt ⟨a,j⟩ = some { ord with level := some lvl } ∧
      ChainStep s s' (pre ++ ⟨a,us ++ vs⟩ :: post) (pre ++ ⟨a,us ++ j :: vs⟩ :: post) bl := by
  obtain ⟨n,fs,read,holds,_⟩ := hosted.chained.read
  obtain ⟨j,rest,n',rfl,done,holds',added⟩ := puts n fs holds room
  have jNew : j ∉ us ++ vs := fun member => (List.nodup_append.mp holds.nodup).2.2 j member j (by simp) rfl
  have newOut : (⟨a,j⟩ : OrderLoc) ∉ locs (pre ++ ⟨a,us ++ vs⟩ :: post) := by
    intro member
    obtain ⟨g,inCh,isA,slot⟩ := mem_locs.mp member
    have isSegment : g = ⟨a,us ++ vs⟩ := hosted.chained.segment_unique inCh (by simp) isA
    rw [isSegment] at slot
    exact jNew slot
  have holds₂ : (setSlotLevel n' j lvl).Holds (us ++ j :: vs) rest := PinNode.holds_links holds' rfl rfl rfl rfl rfl
  have levelSame : ∀ x, (s.setNode a (setSlotLevel n' j lvl)).level x = s.level x := fun _ => rfl
  have isLive : s.nodes.read a ≠ none := by rw [show s.nodes.read a = s.node a from rfl,read]; simp
  refine ⟨s.setNode a (setSlotLevel n' j lvl),j,?_,⟨hosted.nodes.write isLive _,hosted.levels,?_,?_,?_,hosted.owner,
    hosted.index,hosted.read,hosted.ptrs⟩,?_,⟨rfl,rfl,fun _ => rfl,fun _ _ => rfl,?_,rfl⟩⟩
  · simp only [putOrder,read,done,modifyNode_eq read,Option.bind_eq_bind,Option.bind_some]
  · exact hosted.chained.setNode read added.nextNode added.prevNode holds₂
  · intro e member
    have old := hosted.slots e member
    simp only [locs_append,locs_cons,Segment.locs,List.map_append,List.map_cons,List.mem_append,List.mem_cons] at old ⊢
    tauto
  · intro e member
    rw [← hosted.payload e member]
    simp only [orderAt,node_setNode]
    by_cases here : e.1.pinLoc = a
    · have notJ : e.1.index ≠ j := by
        intro same
        have isNew : e.1 = ⟨a,j⟩ := by rw [← here,← same]
        exact newOut (isNew ▸ hosted.slots e member)
      simp only [here,↓reduceIte,read,Option.map_some,setSlotLevel,notJ,added.others _ notJ]
    · simp only [here,↓reduceIte]
  · simp [orderAt,setSlotLevel,added.here]
  · have ptrs : (pre ++ (⟨a,us ++ j :: vs⟩ : Segment) :: post).map Segment.ptr =
        (pre ++ (⟨a,us ++ vs⟩ : Segment) :: post).map Segment.ptr := by simp
    rw [ptrs]
    apply framed_same
    intro x out
    have other : x ≠ a := by
      rintro rfl
      simp at out
    rw [node_setNode,if_neg other]

/-- The result of putting an order into a node of the chain, as an insertion into the chain. -/
theorem inserted_of_put {us vs : List Nat} (ρ : OrderLoc → OrderLoc) {j : Nat}
    (first : ChainStep s s' ch (pre ++ ⟨a,us ++ vs⟩ :: post) bl)
    (second : ChainStep s' s'' (pre ++ ⟨a,us ++ vs⟩ :: post) (pre ++ ⟨a,us ++ j :: vs⟩ :: post)
      (bl.map (Block.rename ρ)))
    (covers : Covers (pre ++ ⟨a,us ++ vs⟩ :: post) (bl.map (Block.rename ρ)))
    (hosted : Hosted s'' (pre ++ ⟨a,us ++ j :: vs⟩ :: post) (bl.map (Block.rename ρ)))
    (stored : s''.orderAt ⟨a,j⟩ = some { ord with level := some lvl })
    (nonempty : ∀ g ∈ pre ++ post, g.slots ≠ []) (fixed : ∀ l ∈ locs (pre ++ [⟨a,us⟩]), ρ l = l) :
    Inserted s s'' ch bl ord lvl (locs (pre ++ [⟨a,us⟩])) ⟨a,j⟩ := by
  refine ⟨⟨ρ,_,vs.map (OrderLoc.mk a) ++ locs post,hosted,?_,?_,fixed,first.trans second (rename_ptrs _ _),?_⟩,stored⟩
  · simp [Segment.locs]
  · rw [← covers]
    simp [Segment.locs]
  · intro g member
    simp only [List.mem_append,List.mem_cons] at member
    rcases member with inPre | rfl | inPost
    · exact nonempty g (by simp [inPre])
    · simp
    · exact nonempty g (by simp [inPost])

/-- A put without relocations before it. -/
theorem inserted_directly {us vs : List Nat} {op : PinNode N → Option (PinNode N × Nat)}
    (hosted : Hosted s (pre ++ ⟨a,us ++ vs⟩ :: post) bl) (covers : Covers (pre ++ ⟨a,us ++ vs⟩ :: post) bl)
    (room : (us ++ vs).length < N.val) (puts : Puts op us vs ord) (lvl : Ptr)
    (nonempty : ∀ g ∈ pre ++ post, g.slots ≠ []) : ∃ s' loc, s.putOrder a op lvl = some (s',loc) ∧
      Inserted s s' (pre ++ ⟨a,us ++ vs⟩ :: post) bl ord lvl (locs (pre ++ [⟨a,us⟩])) loc := by
  obtain ⟨s',j,executed,hosted',stored,chainStep⟩ := putOrder_spec hosted room puts lvl
  refine ⟨s',⟨a,j⟩,executed,inserted_of_put id (ChainStep.refl _ _ _) ?_ ?_ ?_ stored nonempty (fun _ _ => rfl)⟩
  · rw [rename_id]; exact chainStep
  · rw [rename_id]; exact covers
  · rw [rename_id]; exact hosted'

/-- Room made in the node first. -/
theorem inserted_after_room {us vs xs : List Nat} {op : PinNode N → Option (PinNode N × Nat)}
    (hosted : Hosted s (pre ++ ⟨a,xs⟩ :: post) bl) (covers : Covers (pre ++ ⟨a,xs⟩ :: post) bl)
    (full : xs.length = N.val) (parts : xs.dropLast = us ++ vs) (puts : Puts op us vs ord) (lvl : Ptr)
    (nonempty : ∀ g ∈ pre ++ post, g.slots ≠ []) :
    ∃ s' s'' loc, s.makeRoom a = some s' ∧ s'.putOrder a op lvl = some (s'',loc) ∧
      Inserted s s'' (pre ++ ⟨a,xs⟩ :: post) bl ord lvl (locs (pre ++ [⟨a,us⟩])) loc := by
  obtain ⟨s₁,ρ,post',step₁,hosted₁,covers₁,chainStep₁,nonempty₁,fixed,_⟩ :=
    makeRoom_spec hosted covers full (fun g member => nonempty g (by simp [member]))
  rw [parts] at hosted₁ covers₁ chainStep₁ fixed
  have room : (us ++ vs).length < N.val := by
    have := N.pos
    rw [← parts,List.length_dropLast]
    omega
  obtain ⟨s₂,j,step₂,hosted₂,stored,chainStep₂⟩ := putOrder_spec hosted₁ room puts lvl
  refine ⟨s₁,s₂,⟨a,j⟩,step₁,step₂,inserted_of_put _ chainStep₁ chainStep₂ covers₁ hosted₂ stored ?_ ?_⟩
  · intro g member
    cases List.mem_append.mp member with
    | inl inPre => exact nonempty g (by simp [inPre])
    | inr inPost => exact nonempty₁ g inPost
  · intro l member
    apply fixed
    simp only [locs_append,locs_cons,Segment.locs,List.map_append,List.mem_append,locs_nil,List.append_nil] at member ⊢
    tauto

/-- A put into a fresh node. -/
theorem inserted_in_fresh {as bs : List Segment} {m : Ptr} (spliced : Spliced s s' as bs m)
    (hosted : Hosted s (as ++ bs) bl) (covers : Covers (as ++ bs) bl) (ord : SimpleOrder) (lvl : Ptr)
    (nonempty : ∀ g ∈ as ++ bs, g.slots ≠ []) : ∃ s'' loc, s'.putOrder m (·.append ord) lvl = some (s'',loc) ∧
      Inserted s s'' (as ++ bs) bl ord lvl (locs as) loc := by
  obtain ⟨hosted₁,covers₁,chainStep₁⟩ := spliced.hosted hosted covers
  have empty : Hosted s' (as ++ ⟨m,[] ++ []⟩ :: bs) (bl.map (Block.rename id)) := by rw [rename_id]; exact hosted₁
  have covered : Covers (as ++ ⟨m,[] ++ []⟩ :: bs) (bl.map (Block.rename id)) := by rw [rename_id]; exact covers₁
  obtain ⟨s₂,j,step₂,hosted₂,stored,chainStep₂⟩ := putOrder_spec empty N.pos (puts_append [] ord) lvl
  have inserted := inserted_of_put _ chainStep₁ chainStep₂ covered hosted₂ stored nonempty (fun _ _ => rfl)
  exact ⟨s₂,⟨m,j⟩,step₂,by simpa [Segment.locs] using inserted⟩

theorem chainFirst_spec (hosted : Hosted s [] bl) (covers : Covers [] bl) (ord : SimpleOrder) (lvl : Ptr) :
    ∃ s' loc, s.chainFirst ord lvl = some (s',loc) ∧ Inserted s s' [] bl ord lvl [] loc := by
  obtain ⟨nodes,m,allocated,wf,fresh,reads,_⟩ := hosted.nodes.allocate (by decide) (PinNode.new : PinNode N)
  obtain ⟨s₁,s₁Is⟩ : ∃ s₁ : TreeState N, s₁ = { s with nodes := nodes, chainHead := some m, chainTail := some m } :=
    ⟨_,rfl⟩
  have node₁ : ∀ y, s₁.node y = if y = m then some .new else s.node y := fun y => by rw [s₁Is]; exact reads y
  have spliced : Spliced s s₁ [] [] m := by
    refine ⟨by rw [s₁Is]; exact wf,fresh,⟨.new,by simp [node₁],PinNode.holds_new,rfl,rfl⟩,?_,by rw [s₁Is]; rfl,
      by rw [s₁Is]; rfl,by rw [s₁Is],by rw [s₁Is],by rw [s₁Is],by rw [s₁Is]⟩
    intro y other
    rw [node₁,if_neg other]
    cases s.node y <;> rfl
  obtain ⟨s₂,loc,step₂,inserted⟩ := inserted_in_fresh spliced hosted covers ord lvl (by simp)
  refine ⟨s₂,loc,?_,inserted⟩
  simp only [chainFirst,allocated,Option.bind_eq_bind,Option.bind_some,← s₁Is,step₂]

theorem chainInsertHead_spec (hosted : Hosted s (g :: post) bl) (covers : Covers (g :: post) bl)
    (nonempty : ∀ h ∈ g :: post, h.slots ≠ []) (ord : SimpleOrder) (lvl : Ptr) :
    ∃ s' loc, s.chainInsertHead ord lvl = some (s',loc) ∧ Inserted s s' (g :: post) bl ord lvl [] loc := by
  have atHead : Hosted s ([] ++ ⟨g.ptr,[] ++ g.slots⟩ :: post) bl := hosted
  obtain ⟨n,fs,read,holds,prev,next⟩ := atHead.chained.read
  have head : s.chainHead = some g.ptr := hosted.chained.head
  by_cases full : n.full = true
  · -- A fresh head node.
    obtain ⟨nodes,m,allocated,wf,fresh,reads,_⟩ := hosted.nodes.allocate (by decide) (PinNode.new : PinNode N)
    have other : g.ptr ≠ m := by
      intro same
      rw [show s.node g.ptr = s.nodes.read g.ptr from rfl,same,fresh] at read
      simp at read
    obtain ⟨s₁,s₁Is⟩ : ∃ s₁ : TreeState N, s₁ = { s with nodes := nodes } := ⟨_,rfl⟩
    have node₁ : ∀ y, s₁.node y = if y = m then some .new else s.node y := fun y => by rw [s₁Is]; exact reads y
    obtain ⟨s₂,step₂,write₂,node₂⟩ := modifyNode_run (s := s₁) (a := m) (fun e => { e with nextNode := some g.ptr })
      (by simp [node₁])
    obtain ⟨s₃,step₃,write₃,node₃⟩ := modifyNode_run (s := s₂) (a := g.ptr) (fun e => { e with prevNode := some m })
      (by simp [node₂,node₁,other,other.symm,read])
    have write := write₂.trans write₃
    obtain ⟨s₄,s₄Is⟩ : ∃ s₄ : TreeState N, s₄ = { s₃ with chainHead := some m } := ⟨_,rfl⟩
    have node₄ : ∀ y, s₄.node y = s₃.node y := fun y => by rw [s₄Is]; rfl
    have tree : s₃.toNarbTree = s.toNarbTree := by rw [write.tree,s₁Is]
    have spliced : Spliced s s₄ [] (g :: post) m := by
      refine ⟨?_,fresh,⟨{ (.new : PinNode N) with nextNode := some g.ptr },?_,?_,rfl,rfl⟩,?_,?_,?_,?_,?_,?_,?_⟩
      · rw [s₄Is]
        exact write.wellFormed (by rw [s₁Is]; exact wf)
      · simp [node₄,node₃,node₂,node₁,other]
      · exact PinNode.holds_links PinNode.holds_new rfl rfl rfl rfl rfl
      · intro y notM
        simp only [node₄,node₃,node₂,node₁,notM,notM.symm,List.map_nil,List.getLast?_nil,List.map_cons,List.head?_cons,
          Option.some.injEq,reduceCtorEq,↓reduceIte]
        by_cases isG : g.ptr = y
        · simp only [isG,↓reduceIte]
        · simp only [isG,↓reduceIte]
          cases s.node y <;> rfl
      · rw [s₄Is]; rfl
      · have tail := hosted.chained.tail
        rw [s₄Is]
        show s₃.chainTail = _
        rw [tree,tail]
        simp [List.getLast?_cons_cons]
      · rw [s₄Is]
        show s₃.levels = _
        rw [write.levels,s₁Is]
      · rw [s₄Is]
        show s₃.orderIndex = _
        rw [tree]
      · rw [s₄Is]
        show s₃.best = _
        rw [tree]
      · rw [s₄Is]
        show s₃.root = _
        rw [tree]
    obtain ⟨s₅,loc,step₅,inserted⟩ := inserted_in_fresh spliced hosted covers ord lvl nonempty
    refine ⟨s₅,loc,?_,inserted⟩
    simp only [chainInsertHead,head,read,full,allocated,← s₁Is,step₂,step₃,← s₄Is,step₅,Option.bind_eq_bind,
      Option.bind_some,Bool.not_true,Bool.false_eq_true,↓reduceIte]
  · have room : ([] ++ g.slots).length < N.val := by
      have notFull : ([] ++ g.slots).length ≠ N.val := fun h => full (holds.full_iff.mpr h)
      exact Nat.lt_of_le_of_ne atHead.chained.length_le notFull
    obtain ⟨s₁,loc,step₁,inserted⟩ := inserted_directly atHead covers room (puts_prepend g.slots ord) lvl
      (fun h member => nonempty h (by simp at member; simp [member]))
    refine ⟨s₁,loc,?_,by simpa [Segment.locs] using inserted⟩
    simp only [chainInsertHead,head,read,full,step₁,Option.bind_eq_bind,Option.bind_some,Bool.not_false,↓reduceIte]

theorem extendTail_spec (hosted : Hosted s (pre ++ [g]) bl) (covers : Covers (pre ++ [g]) bl)
    (nonempty : ∀ h ∈ pre ++ [g], h.slots ≠ []) (ord : SimpleOrder) (lvl : Ptr) :
    ∃ s' loc, s.extendTail g.ptr ord lvl = some (s',loc) ∧
      Inserted s s' (pre ++ [g]) bl ord lvl (locs (pre ++ [g])) loc := by
  obtain ⟨n,fs,read,holds,prev,next⟩ := hosted.chained.read
  obtain ⟨nodes,m,allocated,wf,fresh,reads,_⟩ := hosted.nodes.allocate (by decide) (PinNode.new : PinNode N)
  have other : g.ptr ≠ m := by
    intro same
    rw [show s.node g.ptr = s.nodes.read g.ptr from rfl,same,fresh] at read
    simp at read
  obtain ⟨s₁,s₁Is⟩ : ∃ s₁ : TreeState N, s₁ = { s with nodes := nodes } := ⟨_,rfl⟩
  have node₁ : ∀ y, s₁.node y = if y = m then some .new else s.node y := fun y => by rw [s₁Is]; exact reads y
  obtain ⟨s₂,step₂,write₂,node₂⟩ := modifyNode_run (s := s₁) (a := m) (fun e => { e with prevNode := some g.ptr })
    (by simp [node₁])
  obtain ⟨s₃,step₃,write₃,node₃⟩ := modifyNode_run (s := s₂) (a := g.ptr) (fun e => { e with nextNode := some m })
    (by simp [node₂,node₁,other,other.symm,read])
  have write := write₂.trans write₃
  obtain ⟨s₄,s₄Is⟩ : ∃ s₄ : TreeState N, s₄ = { s₃ with chainTail := some m } := ⟨_,rfl⟩
  have node₄ : ∀ y, s₄.node y = s₃.node y := fun y => by rw [s₄Is]; rfl
  have tree : s₃.toNarbTree = s.toNarbTree := by rw [write.tree,s₁Is]
  have spliced : Spliced s s₄ (pre ++ [g]) [] m := by
    refine ⟨?_,fresh,⟨{ (.new : PinNode N) with prevNode := some g.ptr },?_,?_,by simp,rfl⟩,?_,?_,?_,?_,?_,?_,?_⟩
    · rw [s₄Is]
      exact write.wellFormed (by rw [s₁Is]; exact wf)
    · simp [node₄,node₃,node₂,node₁,other]
    · exact PinNode.holds_links PinNode.holds_new rfl rfl rfl rfl rfl
    · intro y notM
      have isLast : ((pre ++ [g]).map Segment.ptr).getLast? = some g.ptr := by simp
      simp only [isLast,node₄,node₃,node₂,node₁,notM,notM.symm,List.map_nil,List.head?_nil,
        Option.some.injEq,reduceCtorEq,↓reduceIte]
      by_cases isG : g.ptr = y
      · simp only [isG,↓reduceIte]
      · simp only [isG,↓reduceIte]
        cases s.node y <;> rfl
    · have head := hosted.chained.head
      rw [s₄Is]
      show s₃.chainHead = _
      rw [tree,head]
      cases pre <;> simp
    · rw [s₄Is]
      simp
    · rw [s₄Is]
      show s₃.levels = _
      rw [write.levels,s₁Is]
    · rw [s₄Is]
      show s₃.orderIndex = _
      rw [tree]
    · rw [s₄Is]
      show s₃.best = _
      rw [tree]
    · rw [s₄Is]
      show s₃.root = _
      rw [tree]
  obtain ⟨s₅,loc,step₅,inserted⟩ := inserted_in_fresh spliced (by simpa using hosted) (by simpa using covers) ord lvl
    (by simpa using nonempty)
  refine ⟨s₅,loc,?_,by simpa using inserted⟩
  simp only [extendTail,allocated,← s₁Is,step₂,step₃,← s₄Is,step₅,Option.bind_eq_bind,Option.bind_some]

/-- `chain_insert_after`: the order comes right behind the anchor, which keeps its slot. -/
theorem chainInsertAfter_spec {us vs : List Nat} {i : Nat} (hosted : Hosted s (pre ++ ⟨a,us ++ i :: vs⟩ :: post) bl)
    (covers : Covers (pre ++ ⟨a,us ++ i :: vs⟩ :: post) bl)
    (nonempty : ∀ g ∈ pre ++ ⟨a,us ++ i :: vs⟩ :: post, g.slots ≠ []) (ord : SimpleOrder) (lvl : Ptr) :
    ∃ s' loc, s.chainInsertAfter ⟨a,i⟩ ord lvl = some (s',loc) ∧
      Inserted s s' (pre ++ ⟨a,us ++ i :: vs⟩ :: post) bl ord lvl (locs (pre ++ [⟨a,us ++ [i]⟩])) loc := by
  obtain ⟨n,fs,read,holds,prev,next⟩ := hosted.chained.read
  have others : ∀ g ∈ pre ++ post, g.slots ≠ [] := fun g member => nonempty g (by
    simp only [List.mem_append,List.mem_cons] at member ⊢; tauto)
  have regroup : us ++ i :: vs = (us ++ [i]) ++ vs := by simp
  by_cases full : n.full = true
  · have isFull : (us ++ i :: vs).length = N.val := holds.full_iff.mp full
    have distinct := (List.nodup_append.mp holds.nodup).1
    rcases List.eq_nil_or_concat vs with rfl | ⟨vs,k,rfl⟩
    · -- The anchor is the last order of its node.
      have isTail : some i = n.tail := by rw [holds.tail]; simp
      cases post with
      | nil =>
        have noNext : n.nextNode = none := next
        obtain ⟨s₁,loc,step₁,inserted⟩ := extendTail_spec hosted covers nonempty ord lvl
        refine ⟨s₁,loc,?_,inserted⟩
        simp only [chainInsertAfter,read,full,isTail,noNext,Option.bind_eq_bind,Option.bind_some,Bool.not_true,
          Bool.false_eq_true,↓reduceIte]
        exact step₁
      | cons h post =>
        have isNext : n.nextNode = some h.ptr := next
        have split : pre ++ (⟨a,us ++ [i]⟩ : Segment) :: h :: post =
            (pre ++ [⟨a,us ++ [i]⟩]) ++ ⟨h.ptr,[] ++ h.slots⟩ :: post := by simp
        have rest : ∀ g ∈ (pre ++ [⟨a,us ++ [i]⟩]) ++ post, g.slots ≠ [] := fun g member => nonempty g (by
          simp only [List.mem_append,List.mem_cons,List.not_mem_nil,or_false] at member ⊢; tauto)
        rw [split] at hosted covers ⊢
        obtain ⟨m,fs',readH,holdsH,_⟩ := hosted.chained.read
        have target : locs (pre ++ [(⟨a,us ++ [i]⟩ : Segment)]) =
            locs (pre ++ [⟨a,us ++ [i]⟩] ++ [⟨h.ptr,[]⟩]) := by simp [Segment.locs]
        rw [target]
        have run : s.chainInsertAfter ⟨a,i⟩ ord lvl = s.prependNext h.ptr ord lvl := by
          simp only [chainInsertAfter,read,full,isTail,isNext,Option.bind_eq_bind,Option.bind_some,Bool.not_true,
            Bool.false_eq_true,↓reduceIte]
        by_cases fullH : m.full = true
        · obtain ⟨s₁,s₂,loc,step₁,step₂,inserted⟩ := inserted_after_room hosted covers (holdsH.full_iff.mp fullH)
            (List.nil_append _).symm (puts_prepend _ ord) lvl rest
          refine ⟨s₂,loc,?_,inserted⟩
          simp only [run,prependNext,readH,fullH,step₁,step₂,Option.bind_eq_bind,Option.bind_some,↓reduceIte]
        · have room : ([] ++ h.slots).length < N.val := by
            have notFull : ([] ++ h.slots).length ≠ N.val := fun e => fullH (holdsH.full_iff.mpr e)
            exact Nat.lt_of_le_of_ne hosted.chained.length_le notFull
          obtain ⟨s₁,loc,step₁,inserted⟩ := inserted_directly hosted covers room (puts_prepend h.slots ord) lvl rest
          refine ⟨s₁,loc,?_,inserted⟩
          simp only [run,prependNext,readH,fullH,step₁,Option.bind_eq_bind,Option.bind_some,Bool.false_eq_true,
            ↓reduceIte]
    · -- The anchor is inside its node, whose last order makes room.
      have notTail : ¬ some i = n.tail := by
        rw [holds.tail,List.concat_eq_append]
        have last : (us ++ i :: (vs ++ [k])).getLast? = some k := by
          rw [← List.cons_append,← List.append_assoc,List.getLast?_concat]
        rw [last]
        intro same
        obtain rfl := Option.some.inj same
        simp only [List.concat_eq_append,List.nodup_append,List.nodup_cons,List.mem_append,List.mem_singleton] at distinct
        exact distinct.2.1.1 (.inr trivial)
      have parts : (us ++ i :: vs.concat k).dropLast = (us ++ [i]) ++ vs := by
        rw [List.concat_eq_append,show us ++ i :: (vs ++ [k]) = (us ++ i :: vs) ++ [k] by simp,List.dropLast_concat]
        simp
      obtain ⟨s₁,s₂,loc,step₁,step₂,inserted⟩ := inserted_after_room hosted covers isFull parts
        (puts_insertAfter us vs i ord) lvl others
      refine ⟨s₂,loc,?_,inserted⟩
      simp only [chainInsertAfter,read,full,notTail,step₁,step₂,Option.bind_eq_bind,Option.bind_some,Bool.not_true,
        Bool.false_eq_true,↓reduceIte]
  · have room : ((us ++ [i]) ++ vs).length < N.val := by
      have notFull : (us ++ i :: vs).length ≠ N.val := fun e => full (holds.full_iff.mpr e)
      rw [← regroup]
      exact Nat.lt_of_le_of_ne hosted.chained.length_le notFull
    rw [regroup] at hosted covers ⊢
    obtain ⟨s₁,loc,step₁,inserted⟩ := inserted_directly hosted covers room (puts_insertAfter us vs i ord) lvl others
    refine ⟨s₁,loc,?_,inserted⟩
    simp only [chainInsertAfter,read,full,step₁,Option.bind_eq_bind,Option.bind_some,Bool.not_false,↓reduceIte]

end TreeState

end BaboEngine
