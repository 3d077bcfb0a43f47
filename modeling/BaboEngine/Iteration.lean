import BaboEngine.Insertion

/-!
# Iteration over the orders of a tree

The links of the nodes and of the slots lead through the orders of a tree in order.
-/

namespace BaboEngine
open DoublyLinked

namespace TreeState
variable {N : Capacity} {s s' : TreeState N} {type : OrderType}
variable {ch : List Segment} {bl : List Block} {L R : List OrderLoc} {l : OrderLoc}

/-! ## One step -/

theorem Chained.globalNext (chained : Chained s ch) (segments : ∀ g ∈ ch, g.slots ≠ []) (split : locs ch = L ++ l :: R) :
    s.globalNext l = some R.head? := by
  obtain ⟨pre,us,vs,post,rfl,_,rfl⟩ := chained.position split
  obtain ⟨n,fs,read,holds,_,next⟩ := chained.read
  have behind : n.next l.index = vs.head? := (holds.linked us l.index vs rfl).2
  cases vs with
  | nil =>
    cases post with
    | nil =>
      have noNode : n.nextNode = none := next
      simp [TreeState.globalNext,read,behind,noNode]
    | cons g post =>
      have isNode : n.nextNode = some g.ptr := next
      obtain ⟨i,is,slots⟩ := List.exists_cons_of_ne_nil (segments g (by simp))
      obtain ⟨m,fs',readG,holdsG⟩ := chained.holds g (by simp)
      have head : m.head = some i := by rw [holdsG.head,slots]; rfl
      simp [TreeState.globalNext,read,behind,isNode,readG,head,Segment.locs,slots]
  | cons v vs =>
    simp [TreeState.globalNext,read,behind]

theorem Chained.globalPrev (chained : Chained s ch) (segments : ∀ g ∈ ch, g.slots ≠ []) (split : locs ch = L ++ l :: R) :
    s.globalPrev l = some L.getLast? := by
  obtain ⟨pre,us,vs,post,rfl,rfl,_⟩ := chained.position split
  obtain ⟨n,fs,read,holds,prev,_⟩ := chained.read
  have before : n.prev l.index = us.getLast? := (holds.linked us l.index vs rfl).1
  rcases List.eq_nil_or_concat us with rfl | ⟨us,u,rfl⟩
  · rcases List.eq_nil_or_concat pre with rfl | ⟨pre,g,rfl⟩
    · have noNode : n.prevNode = none := prev
      simp [TreeState.globalPrev,read,before,noNode]
    · have isNode : n.prevNode = some g.ptr := by simpa using prev
      obtain ⟨is,i,slots⟩ := (List.eq_nil_or_concat g.slots).resolve_left (segments g (by simp))
      obtain ⟨m,fs',readG,holdsG⟩ := chained.holds g (by simp)
      have tail : m.tail = some i := by rw [holdsG.tail,slots]; simp
      simp [TreeState.globalPrev,read,before,isNode,readG,tail,Segment.locs,slots]
  · rw [List.concat_eq_append,List.getLast?_concat] at before
    simp [TreeState.globalPrev,read,before]

theorem Stored.ordersBegin (stored : Stored s ch bl) : s.ordersBegin = some ((entries bl).head?.map Prod.fst) := by
  rw [← List.head?_map,← stored.covers]
  have head := stored.hosted.chained.head
  cases ch with
  | nil =>
    have noNode : s.chainHead = none := head
    simp [TreeState.ordersBegin,noNode]
  | cons g post =>
    have isNode : s.chainHead = some g.ptr := head
    obtain ⟨i,is,slots⟩ := List.exists_cons_of_ne_nil (stored.segments g (by simp))
    obtain ⟨m,fs,read,holds⟩ := stored.hosted.chained.holds g (by simp)
    have first : m.head = some i := by rw [holds.head,slots]; rfl
    simp [TreeState.ordersBegin,isNode,read,first,Segment.locs,slots]

/-- The step from one order to the next. -/
theorem Stored.next {E E' : List (OrderLoc × SimpleOrder)} {o : SimpleOrder} (stored : Stored s ch bl)
    (split : entries bl = E ++ (l,o) :: E') : s.orderAt l = some o ∧ s.globalNext l = some (E'.head?.map Prod.fst) := by
  constructor
  · exact stored.hosted.payload (l,o) (by simp [split])
  · rw [← List.head?_map]
    apply stored.hosted.chained.globalNext stored.segments (L := E.map Prod.fst)
    rw [stored.covers,split]
    simp

/-! ## The whole walk -/

theorem Stored.ordersFrom (stored : Stored s ch bl) (rounds : Nat) : ∀ E E' : List (OrderLoc × SimpleOrder),
    entries bl = E ++ E' → E'.length < rounds → s.ordersFrom rounds (E'.head?.map Prod.fst) = some (E'.map Prod.snd) := by
  induction rounds with
  | zero => intro E E' _ enough; omega
  | succ rounds ih =>
    intro E E' split enough
    cases E' with
    | nil =>
      rfl
    | cons e E' =>
      obtain ⟨l,o⟩ := e
      obtain ⟨read,next⟩ := stored.next split
      have rest := ih (E ++ [(l,o)]) E' (by simp [split]) (by simpa using enough)
      simp only [List.head?_cons,Option.map_some,TreeState.ordersFrom,read,next,rest,Option.bind_eq_bind,Option.bind_some,
        List.map_cons]

theorem locs_length_le {n : Nat} (each : ∀ g ∈ ch, g.slots.length ≤ n) : (locs ch).length ≤ ch.length * n := by
  induction ch with
  | nil => simp
  | cons g post ih =>
    have here := each g (by simp)
    have rest := ih fun h member => each h (by simp [member])
    simp only [locs_cons,Segment.locs,List.length_append,List.length_map,List.length_cons,Nat.add_mul]
    omega

/-- The pool has a slot for every order of the chain. -/
theorem Stored.length_lt (stored : Stored s ch bl) : (entries bl).length < s.walkBound := by
  have chained := stored.hosted.chained
  have total : (locs ch).length ≤ ch.length * N.val := by
    apply locs_length_le
    intro g member
    obtain ⟨n,fs,_,holds⟩ := chained.holds g member
    have := holds.length
    omega
  have nodes : ch.length ≤ s.nodes.nbElements := by
    have counted := stored.hosted.nodes.length_le chained.nodup (fun a member => by
      obtain ⟨g,inCh,rfl⟩ := List.mem_map.mp member
      obtain ⟨n,fs,read,_⟩ := chained.holds g inCh
      rw [show s.nodes.read g.ptr = s.node g.ptr from rfl,read]
      simp)
    simpa using counted
  have covers := congrArg List.length stored.covers
  simp only [List.length_map] at covers
  have bound := Nat.mul_le_mul_right N.val nodes
  unfold walkBound
  omega

/-- The orders of a tree are those of its blocks. -/
theorem Stored.orders (stored : Stored s ch bl) : s.orders = some ((entries bl).map Prod.snd) := by
  have walk := stored.ordersFrom s.walkBound [] (entries bl) rfl stored.length_lt
  simp only [TreeState.orders,stored.ordersBegin,walk,Option.bind_eq_bind,Option.bind_some]

/-! ## Look-up by id -/

/-- An id occurs once. -/
theorem Hosted.id_unique {l' : OrderLoc} {o o' : SimpleOrder} (hosted : Hosted s ch bl) (first : (l,o) ∈ entries bl)
    (second : (l',o') ∈ entries bl) (same : o.orderId = o'.orderId) : l = l' ∧ o = o' := by
  have one := (hosted.index o.orderId l).mpr ⟨o,first,rfl⟩
  have two := (hosted.index o.orderId l').mpr ⟨o',second,same.symm⟩
  obtain rfl : l = l' := Option.some.inj (one.symm.trans two)
  exact ⟨rfl,hosted.entry_unique first second⟩

theorem Hosted.findOrder_some {o : SimpleOrder} (hosted : Hosted s ch bl) (member : (l,o) ∈ entries bl) :
    s.findOrder o.orderId = some (some o) := by
  have indexed := (hosted.index o.orderId l).mpr ⟨o,member,rfl⟩
  have payload := hosted.payload _ member
  simp only at payload
  simp [findOrder,indexed,payload]

theorem Hosted.findOrder_none {id : Nat} (hosted : Hosted s ch bl) (absent : ∀ e ∈ entries bl, e.2.orderId ≠ id) :
    s.orderIndex id = none ∧ s.findOrder id = some none := by
  have noIndex : s.orderIndex id = none := by
    by_contra some
    obtain ⟨l,isLoc⟩ := Option.ne_none_iff_exists'.mp some
    obtain ⟨o,member,isId⟩ := (hosted.index id l).mp isLoc
    exact absent _ member isId
  exact ⟨noIndex,by simp [findOrder,noIndex]⟩

end TreeState

end BaboEngine
