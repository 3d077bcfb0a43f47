import BaboEngine.Orderly
import BaboEngine.Passes
import BaboEngine.TreeRuns

/-!
# The matching book computes the abstract book

The four trees of a book share two pools, and an operation on one of them leaves the
others alone because their nodes and levels are different cells (`Held.put`). On top
of that every function of the matching book succeeds and has the result of its
counterpart (`Represents`), so the runs of the two agree (`run_represents`).
-/

namespace BaboEngine
open DoublyLinked Simulation

/-- The trees in the order of their declaration. -/
def TreeName.all : List TreeName := [.bids,.asks,.stopBids,.stopAsks]

theorem TreeName.mem_all (t : TreeName) : t ∈ all := by cases t <;> decide

namespace MatchingBook
open TreeState
variable {N : Capacity} {m m' : MatchingBook N} {b : Book} {exact exact' : Prop} {t : TreeName} {o : SimpleOrder}
variable {ch : TreeName → List Segment} {bl : TreeName → List Block}

/-- The four trees with their nodes and levels, of which no two have any in common. -/
structure Held (exact : Prop) (m : MatchingBook N) (ch : TreeName → List Segment) (bl : TreeName → List Block) : Prop where
  side : ∀ t, Side t exact (m.on t) (ch t) (bl t)
  nodes : ∀ t t', t ≠ t' → ((ch t).map Segment.ptr).Disjoint ((ch t').map Segment.ptr)
  levels : ∀ t t', t ≠ t' → ((bl t).map Block.ptr).Disjoint ((bl t').map Block.ptr)

theorem on_put (m : MatchingBook N) (t : TreeName) (s : TreeState N) : (m.put t s).on t = s := by
  simp only [on,put,Function.update_self]

theorem on_put_other {t' : TreeName} (m : MatchingBook N) (s : TreeState N) (other : t' ≠ t) :
    (m.put t s).on t' = { toHeap := s.toHeap, toNarbTree := m.tree t' } := by
  simp only [on,put,Function.update_of_ne other]

/-- What a step on one tree does to a cell of another. -/
theorem untouched {β : Type} {read read' : Ptr → Option β} {L L' M : List Ptr} (framed : Framed read read' L L')
    (apart : L.Disjoint M) (live : ∀ a ∈ M, read a ≠ none) : ∀ a ∈ M, a ∉ L' ∧ read' a = read a := by
  intro a member
  have out : a ∉ L := fun inL => apart inL member
  have out' : a ∉ L' := fun inL' => live a member (framed.fresh a inL' out)
  exact ⟨out',framed.outside a out out'⟩

/-- The nodes and levels of a tree are in use. -/
theorem Held.live (held : Held exact m ch bl) (t : TreeName) : (∀ a ∈ (ch t).map Segment.ptr, m.nodes.read a ≠ none) ∧
    ∀ a ∈ (bl t).map Block.ptr, m.levels.read a ≠ none := by
  constructor
  · intro a member
    obtain ⟨g,inCh,rfl⟩ := List.mem_map.mp member
    obtain ⟨n,fs,read,_⟩ := (held.side t).hosted.chained.holds g inCh
    rw [show m.nodes.read g.ptr = some n from read]
    simp
  · intro a member
    obtain ⟨b,inBl,rfl⟩ := List.mem_map.mp member
    obtain ⟨d,read,_⟩ := (held.side t).hosted.read b inBl
    rw [show m.levels.read b.ptr = some d from read]
    simp

theorem Held.put {s : TreeState N} {ch' : List Segment} {bl' : List Block} (held : Held exact m ch bl)
    (side : Side t exact s ch' bl') (treeStep : TreeStep (m.on t) s (ch t) ch' (bl t) bl') :
    Held exact (m.put t s) (Function.update ch t ch') (Function.update bl t bl') := by
  have nodes := fun t' (other : t ≠ t') => untouched treeStep.nodes (held.nodes t t' other) (held.live t').1
  have levels := fun t' (other : t ≠ t') => untouched treeStep.levels (held.levels t t' other) (held.live t').2
  refine ⟨?_,?_,?_⟩
  · intro t'
    by_cases same : t' = t
    · subst same
      rw [on_put,Function.update_self,Function.update_self]
      exact side
    · rw [on_put_other m s same,Function.update_of_ne same,Function.update_of_ne same]
      have old := held.side t'
      exact ⟨old.toTree.frame rfl side.hosted.nodes side.hosted.levels (fun a member => (nodes t' (Ne.symm same) a member).2)
        (fun a member => (levels t' (Ne.symm same) a member).2),old.keyed,old.sized,old.sound⟩
  · intro t₁ t₂ other
    by_cases first : t₁ = t
    · subst first
      rw [Function.update_self,Function.update_of_ne other.symm]
      exact fun a inNew member => (nodes t₂ other a member).1 inNew
    · by_cases second : t₂ = t
      · subst second
        rw [Function.update_self,Function.update_of_ne first]
        exact fun a member inNew => (nodes t₁ (Ne.symm first) a member).1 inNew
      · rw [Function.update_of_ne first,Function.update_of_ne second]
        exact held.nodes t₁ t₂ other
  · intro t₁ t₂ other
    by_cases first : t₁ = t
    · subst first
      rw [Function.update_self,Function.update_of_ne other.symm]
      exact fun a inNew member => (levels t₂ other a member).1 inNew
    · by_cases second : t₂ = t
      · subst second
        rw [Function.update_self,Function.update_of_ne first]
        exact fun a member inNew => (levels t₁ (Ne.symm first) a member).1 inNew
      · rw [Function.update_of_ne first,Function.update_of_ne second]
        exact held.levels t₁ t₂ other

/-- The matching book holds the orders of the abstract book, and has its journal. -/
def Represents (exact : Prop) (m : MatchingBook N) (b : Book) : Prop :=
  ∃ ch bl, Held exact m ch bl ∧ (∀ t, b.side t = bareOrders (entries (bl t))) ∧ m.market = b.market

theorem Represents.snapshot (rep : Represents exact m b) (t : TreeName) : (m.on t).snapshot = some (b.side t) := by
  obtain ⟨ch,bl,held,sides,_⟩ := rep
  rw [(held.side t).snapshot,sides t]

/-- What holds of the orders that rest on the two sides of a book. -/
theorem Represents.all_resting (rep : Represents exact m b) (P : SimpleOrder → Prop) :
    (∀ t, t = .bids ∨ t = .asks → ∀ os, (m.on t).snapshot = some os → ∀ o ∈ os, P o) ↔ ∀ o ∈ b.side .bids ++ b.side .asks, P o := by
  constructor
  · intro all o member
    cases List.mem_append.mp member with
    | inl inBids => exact all _ (.inl rfl) _ (rep.snapshot _) o inBids
    | inr inAsks => exact all _ (.inr rfl) _ (rep.snapshot _) o inAsks
  · intro all t resting os isSnapshot o member
    obtain rfl : b.side t = os := Option.some.inj ((rep.snapshot t).symm.trans isSnapshot)
    refine all o (List.mem_append.mpr ?_)
    rcases resting with rfl | rfl
    · exact .inl member
    · exact .inr member

theorem Represents.market (rep : Represents exact m b) : m.market = b.market := by
  obtain ⟨_,_,_,_,market⟩ := rep
  exact market

/-- The totals may be given up. -/
theorem Represents.weaken (rep : Represents exact m b) (weaker : exact' → exact) : Represents exact' m b := by
  obtain ⟨ch,bl,⟨side,nodes,levels⟩,sides,market⟩ := rep
  exact ⟨ch,bl,⟨fun t => ⟨(side t).toTree,(side t).keyed,(side t).sized,fun isExact => (side t).sound (weaker isExact)⟩,nodes,levels⟩,
    sides,market⟩

/-! ## The cells of a book -/

/-- The nodes of the four trees. -/
def nodesOf (ch : TreeName → List Segment) : List Ptr := TreeName.all.flatMap fun t => (ch t).map Segment.ptr

/-- The levels of the four trees. -/
def levelsOf (bl : TreeName → List Block) : List Ptr := TreeName.all.flatMap fun t => (bl t).map Block.ptr

theorem mem_nodesOf {a : Ptr} : a ∈ nodesOf ch ↔ ∃ t, a ∈ (ch t).map Segment.ptr := by
  rw [nodesOf,List.mem_flatMap]
  exact exists_congr fun t => and_iff_right (TreeName.mem_all t)

theorem mem_levelsOf {a : Ptr} : a ∈ levelsOf bl ↔ ∃ t, a ∈ (bl t).map Block.ptr := by
  rw [levelsOf,List.mem_flatMap]
  exact exists_congr fun t => and_iff_right (TreeName.mem_all t)

/-- Pools of which some cells are those of a book. -/
structure Origin (N : Capacity) where
  heap : Heap N
  nodes : List Ptr
  levels : List Ptr

/-- Since it had the cells of its origin a book has touched no other ones but those that it has taken, and has
    kept none that it has given back. -/
structure Since (origin : Origin N) (m : MatchingBook N) (ch : TreeName → List Segment) (bl : TreeName → List Block) : Prop where
  nodes : Framed origin.heap.nodes.read m.nodes.read origin.nodes (nodesOf ch)
  levels : Framed origin.heap.levels.read m.levels.read origin.levels (levelsOf bl)

/-- A step on the cells of one of several trees is one on the cells of all. -/
theorem framed_update {β : Type} {read read' : Ptr → Option β} {M M' : List Ptr} (L L' : TreeName → List Ptr) (t : TreeName)
    (framed : Framed read read' (L t) (L' t)) (others : ∀ t', t' ≠ t → L' t' = L t') (mem : ∀ a, a ∈ M ↔ ∃ t, a ∈ L t)
    (mem' : ∀ a, a ∈ M' ↔ ∃ t, a ∈ L' t) : Framed read read' M M' := by
  refine ⟨?_,?_,?_⟩
  · intro a out out'
    exact framed.outside a (fun inL => out ((mem a).mpr ⟨t,inL⟩)) fun inL' => out' ((mem' a).mpr ⟨t,inL'⟩)
  · intro a member out
    obtain ⟨t',inL'⟩ := (mem' a).mp member
    by_cases same : t' = t
    · subst same
      exact framed.fresh a inL' fun inL => out ((mem a).mpr ⟨t',inL⟩)
    · rw [others t' same] at inL'
      exact absurd ((mem a).mpr ⟨t',inL'⟩) out
  · intro a member out'
    obtain ⟨t',inL⟩ := (mem a).mp member
    by_cases same : t' = t
    · subst same
      exact framed.gone a inL fun inL' => out' ((mem' a).mpr ⟨t',inL'⟩)
    · rw [← others t' same] at inL
      exact absurd ((mem' a).mpr ⟨t',inL⟩) out'

theorem Since.put {origin : Origin N} {s : TreeState N} {ch' : List Segment} {bl' : List Block} (since : Since origin m ch bl)
    (treeStep : TreeStep (m.on t) s (ch t) ch' (bl t) bl') : Since origin (m.put t s) (Function.update ch t ch') (Function.update bl t bl') := by
  refine ⟨since.nodes.trans ?_,since.levels.trans ?_⟩
  · refine framed_update (fun t => (ch t).map Segment.ptr) (fun t' => (Function.update ch t ch' t').map Segment.ptr) t ?_ ?_
      (fun _ => mem_nodesOf) fun _ => mem_nodesOf
    · simp only [Function.update_self]
      exact treeStep.nodes
    · intro t' other
      simp only [Function.update_of_ne other]
  · refine framed_update (fun t => (bl t).map Block.ptr) (fun t' => (Function.update bl t bl' t').map Block.ptr) t ?_ ?_
      (fun _ => mem_levelsOf) fun _ => mem_levelsOf
    · simp only [Function.update_self]
      exact treeStep.levels
    · intro t' other
      simp only [Function.update_of_ne other]

/-- The matching book holds the orders of the abstract book in cells that it has come to since an origin. -/
def RepresentsFrom (origin : Origin N) (exact : Prop) (m : MatchingBook N) (b : Book) : Prop :=
  ∃ ch bl, Held exact m ch bl ∧ (∀ t, b.side t = bareOrders (entries (bl t))) ∧ m.market = b.market ∧ Since origin m ch bl

variable {origin : Origin N}

theorem RepresentsFrom.represents (rep : RepresentsFrom origin exact m b) : Represents exact m b := by
  obtain ⟨ch,bl,held,sides,market,_⟩ := rep
  exact ⟨ch,bl,held,sides,market⟩

/-- Every state may be taken for an origin. -/
theorem Held.from_here (held : Held exact m ch bl) (sides : ∀ t, b.side t = bareOrders (entries (bl t))) (market : m.market = b.market) :
    RepresentsFrom ⟨m.toHeap,nodesOf ch,levelsOf bl⟩ exact m b :=
  ⟨ch,bl,held,sides,market,framed_same fun _ _ => rfl,framed_same fun _ _ => rfl⟩

theorem Represents.from_here (rep : Represents exact m b) : ∃ origin, RepresentsFrom origin exact m b := by
  obtain ⟨ch,bl,held,sides,market⟩ := rep
  exact ⟨_,held.from_here sides market⟩

/-- The journal may change on both sides alike. -/
theorem RepresentsFrom.journal (rep : RepresentsFrom origin exact m b) (f : Market → Market) :
    RepresentsFrom origin exact { m with market := f m.market } { b with market := f b.market } := by
  obtain ⟨ch,bl,⟨side,nodes,levels⟩,sides,market,since⟩ := rep
  exact ⟨ch,bl,⟨side,nodes,levels⟩,sides,congrArg f market,since.nodes,since.levels⟩

theorem RepresentsFrom.emit (rep : RepresentsFrom origin exact m b) (e : OrderEvent) : RepresentsFrom origin exact (m.emit e) (b.emit e) :=
  rep.journal fun k => k.emit e

/-- An operation on one of the trees. -/
theorem Held.represents {s : TreeState N} {ch' : List Segment} {bl' : List Block} {os : List SimpleOrder} (held : Held exact m ch bl)
    (sides : ∀ t, b.side t = bareOrders (entries (bl t))) (market : m.market = b.market) (since : Since origin m ch bl)
    (side : Side t exact s ch' bl')
    (treeStep : TreeStep (m.on t) s (ch t) ch' (bl t) bl') (orders : bareOrders (entries bl') = os) :
    RepresentsFrom origin exact (m.put t s) (b.put t os) := by
  refine ⟨_,_,held.put side treeStep,?_,market,since.put treeStep⟩
  intro t'
  by_cases same : t' = t
  · subst same
    simp [Book.put,orders]
  · simp [Book.put,Function.update_of_ne same,sides]

/-- An order of a side, with its slot. -/
theorem entry_of_mem {bl : List Block} {o : SimpleOrder} (member : o ∈ bareOrders (entries bl)) :
    ∃ l o' E E', entries bl = E ++ (l,o') :: E' ∧ o'.bare = o := by
  obtain ⟨⟨l,o'⟩,inEntries,rfl⟩ := List.mem_map.mp member
  obtain ⟨E,E',split⟩ := List.append_of_mem inEntries
  exact ⟨l,o',E,E',split,rfl⟩

theorem RepresentsFrom.eraseFrom (rep : RepresentsFrom origin exact m b) (member : o ∈ b.side t) :
    ∃ m', m.eraseFrom t o.orderId = some m' ∧ RepresentsFrom origin exact m' (b.eraseFrom t o.orderId) := by
  obtain ⟨ch,bl,held,sides,market,since⟩ := rep
  rw [sides t] at member
  obtain ⟨l,o',E,E',split,rfl⟩ := entry_of_mem member
  obtain ⟨s',ch',bl',erased,side',entriesIs,treeStep⟩ := (held.side t).erase split
  refine ⟨m.put t s',?_,?_⟩
  · simp only [MatchingBook.eraseFrom,SimpleOrder.bare_orderId,erased,Option.bind_eq_bind,Option.bind_some]
  · apply held.represents sides market since side' treeStep
    rw [entriesIs,sides t]
    exact ((held.side t).filter_eq split).symm

theorem RepresentsFrom.insertInto (rep : RepresentsFrom origin exact m b) (sized : o.Sized)
    (absent : ∀ x ∈ b.side t, x.orderId ≠ o.orderId) :
    ∃ m', m.insertInto t o = some m' ∧ RepresentsFrom origin exact m' (b.insertInto t o.bare) := by
  obtain ⟨ch,bl,held,sides,market,since⟩ := rep
  rw [sides t] at absent
  obtain ⟨s',ch',bl',inserted,side',orders,treeStep⟩ := (held.side t).insert sized absent
  refine ⟨m.put t s',?_,?_⟩
  · simp only [MatchingBook.insertInto,inserted,Option.bind_eq_bind,Option.bind_some]
  · apply held.represents sides market since side' treeStep
    rw [orders,sides t]

/-! ## Submission -/

theorem RepresentsFrom.matchOrder (rep : RepresentsFrom origin exact m b) (o : SimpleOrder) : ∃ m' o', m.matchOrder o = some (m',o') ∧
    o'.bare = (b.pass o.bare).inc ∧ RepresentsFrom origin exact m' (b.passed o.bare) := by
  obtain ⟨ch,bl,held,sides,market,since⟩ := rep
  have isOpposite : o.bare.opposite = o.opposite := rfl
  obtain ⟨s',ch',bl',inc',matched,isInc,side',orders,treeStep⟩ := (held.side o.opposite).against m.market o
  rw [← sides] at matched isInc orders
  have snapshot := (held.side o.opposite).snapshot
  rw [← sides] at snapshot
  have snapshot' := side'.snapshot
  rw [orders,bareOrders_nil,List.nil_append] at snapshot'
  have passIs : b.pass o.bare = .against o.bare (b.side o.opposite) := rfl
  rw [← passIs] at matched isInc orders snapshot'
  have journal : ((m.market.tradeAll (b.pass o.bare).trades).submitted ⟨m.market.marketPrice,o.bare,b.side o.opposite,
      (m.market.tradeAll (b.pass o.bare).trades).trades.drop m.market.trades.length,
      (m.market.tradeAll (b.pass o.bare).trades).marketPrice,inc'.bare,(b.pass o.bare).makers⟩) =
      (b.market.tradeAll (b.pass o.bare).trades).submitted (b.call o.bare) := by
    rw [Market.trades_tradeAll,List.drop_left,isInc,market]
    rfl
  refine ⟨{ m.put o.opposite s' with market := (b.market.tradeAll (b.pass o.bare).trades).submitted (b.call o.bare) },inc',?_,isInc,?_⟩
  · simp only [MatchingBook.matchOrder,snapshot,matched,snapshot',Option.bind_eq_bind,Option.bind_some,journal]
  · exact (held.represents sides market since side' treeStep orders).journal fun _ =>
      (b.market.tradeAll (b.pass o.bare).trades).submitted (b.call o.bare)

theorem RepresentsFrom.submit (rep : RepresentsFrom origin exact m b) (sized : o.Sized)
    (absent : ∀ x ∈ b.side o.side, x.orderId ≠ o.orderId) :
    ∃ m', m.submit o = some m' ∧ RepresentsFrom origin exact m' (b.submit o.bare) := by
  obtain ⟨m₁,o₁,matched,isInc,rep₁⟩ := rep.matchOrder o
  obtain ⟨same,sized',_⟩ := Book.pass_inc (b := b) (SimpleOrder.sized_bare o |>.mpr sized)
  rw [← isInc] at same sized'
  have isSide : o₁.side = o.side := same.side
  have isId : o₁.orderId = o.orderId := same.orderId
  have rests : Book.Rests o.bare (b.pass o.bare).inc ↔
      ¬ o.price = marketOrderPrice ∧ (!o₁.immediateOrCancel) = true ∧ o₁.openQty > 0 := by
    rw [← isInc]
    rfl
  rw [Book.submit_eq]
  by_cases stays : Book.Rests o.bare (b.pass o.bare).inc
  · have others : (b.passed o.bare).side o₁.side = b.side o₁.side := by
      rw [isSide]
      exact Function.update_of_ne o.side_ne_opposite ..
    obtain ⟨m₂,inserted,rep₂⟩ := rep₁.insertInto (t := o₁.side) (SimpleOrder.sized_bare o₁ |>.mp sized') (by
      rw [others,isSide,isId]
      exact absent)
    refine ⟨m₂,?_,?_⟩
    · simp only [MatchingBook.submit,matched,Option.bind_eq_bind,Option.bind_some]
      rw [if_pos (rests.mp stays)]
      exact inserted
    · rw [if_pos stays,← isInc]
      exact rep₂
  · refine ⟨m₁,?_,?_⟩
    · simp only [MatchingBook.submit,matched,Option.bind_eq_bind,Option.bind_some]
      rw [if_neg fun all => stays (rests.mpr all)]
    · rw [if_neg stays]
      exact rep₁

/-! ## Released stops -/

theorem RepresentsFrom.submitAll (fired : List SimpleOrder) : ∀ {m : MatchingBook N} {b : Book}, RepresentsFrom origin exact m b →
    Book.Orderly b (fired.map SimpleOrder.bare) →
    ∃ m', m.submitAll fired = some m' ∧ RepresentsFrom origin exact m' (b.submitAll (fired.map SimpleOrder.bare)) := by
  induction fired with
  | nil => exact fun rep _ => ⟨_,rfl,rep⟩
  | cons o fired ih =>
    intro m b rep orderly
    obtain ⟨m₁,submitted,rep₁⟩ := rep.submit (SimpleOrder.sized_bare o |>.mp orderly.handSized) orderly.absent
    obtain ⟨m₂,others,rep₂⟩ := ih rep₁ orderly.submit
    refine ⟨m₂,?_,rep₂⟩
    simp only [MatchingBook.submitAll,submitted,others,Option.bind_eq_bind,Option.bind_some]

theorem RepresentsFrom.releaseFrom (rep : RepresentsFrom origin exact m b) (t : TreeName) (due : SimpleOrder → Bool)
    (dueBare : ∀ o, due o.bare = due o) : ∃ m' fired, m.releaseFrom t due = some (m',fired) ∧
      fired.map SimpleOrder.bare = (b.side t).takeWhile due ∧ RepresentsFrom origin exact m' (b.put t ((b.side t).dropWhile due)) := by
  obtain ⟨ch,bl,held,sides,market,since⟩ := rep
  obtain ⟨s',ch',bl',fired,released,side',firedIs,_,orders,treeStep⟩ := (held.side t).release dueBare
  rw [← sides] at firedIs orders
  refine ⟨m.put t s',fired,?_,firedIs,held.represents sides market since side' treeStep orders⟩
  simp only [MatchingBook.releaseFrom,released,Option.bind_eq_bind,Option.bind_some]

theorem RepresentsFrom.scan (rep : RepresentsFrom origin exact m b) : ∃ m' fired, m.scan = some (m',fired) ∧
    fired.map SimpleOrder.bare = b.dueBuys ++ b.dueSells ∧ RepresentsFrom origin exact m' b.scanned := by
  obtain ⟨m₁,buys,released₁,buysAre,rep₁⟩ := rep.releaseFrom .stopBids
    (fun o => ¬ o.stopPrice > m.market.marketPrice) fun _ => rfl
  obtain ⟨m₂,sells,released₂,sellsAre,rep₂⟩ := rep₁.releaseFrom .stopAsks
    (fun o => ¬ o.stopPrice < m.market.marketPrice) fun _ => rfl
  rw [rep.represents.market] at buysAre sellsAre rep₁ rep₂
  refine ⟨m₂,buys ++ sells,?_,?_,rep₂⟩
  · simp only [MatchingBook.scan,released₁,released₂,Option.bind_eq_bind,Option.bind_some]
  · rw [List.map_append,buysAre,sellsAre]
    rfl

theorem RepresentsFrom.fire {scanned : MatchingBook N} {fired : List SimpleOrder} (rep : RepresentsFrom origin exact m b)
    (rep' : RepresentsFrom origin exact scanned b.scanned) (firedIs : fired.map SimpleOrder.bare = b.dueBuys ++ b.dueSells)
    (orderly : Book.Orderly b []) : ∃ m', MatchingBook.fire m scanned fired = some m' ∧ RepresentsFrom origin exact m' b.fire := by
  have inHand := Book.orderly_preserved.scan b trivial orderly
  rw [← firedIs] at inHand
  obtain ⟨m₁,submitted,rep₁⟩ := rep'.submitAll fired inHand
  rw [firedIs] at rep₁
  refine ⟨_,?_,rep₁.journal fun k => k.released ⟨b.market.marketPrice,b.side .stopBids,b.side .stopAsks,
    b.dueBuys ++ b.dueSells,(b.scanned.submitAll (b.dueBuys ++ b.dueSells)).side .stopBids,
    (b.scanned.submitAll (b.dueBuys ++ b.dueSells)).side .stopAsks⟩⟩
  simp only [MatchingBook.fire,rep.represents.snapshot,submitted,rep₁.represents.snapshot,firedIs,
    rep.represents.market,Option.bind_eq_bind,Option.bind_some]

theorem RepresentsFrom.processTriggeredLoop (rounds : Nat) : ∀ {m : MatchingBook N} {b : Book}, RepresentsFrom origin exact m b →
    Book.Orderly b [] → b.parkedCount < rounds →
    ∃ m', m.processTriggeredLoop rounds = some m' ∧ RepresentsFrom origin exact m' (b.processTriggeredLoop rounds) := by
  induction rounds with
  | zero => intro _ _ _ _ enough; omega
  | succ rounds ih =>
    intro m b rep orderly enough
    obtain ⟨scanned,fired,scan,firedIs,rep'⟩ := rep.scan
    by_cases none : b.dueBuys ++ b.dueSells = []
    · have noneFired : fired = [] := List.map_eq_nil_iff.mp (firedIs.trans none)
      rw [Book.scanned_of_none none] at rep'
      refine ⟨scanned,?_,?_⟩
      · simp [MatchingBook.processTriggeredLoop,scan,noneFired]
      · rw [Book.processTriggeredLoop,if_pos (by simp [none])]
        exact rep'
    · have someFired : fired ≠ [] := by
        rintro rfl
        exact none firedIs.symm
      obtain ⟨m₁,round,rep₁⟩ := rep.fire rep' firedIs orderly
      have fewer := orderly.parkedCount_fire
      have released : (b.dueBuys ++ b.dueSells).length ≠ 0 := fun empty => none (List.length_eq_zero_iff.mp empty)
      obtain ⟨m₂,rest,rep₂⟩ := ih rep₁ (Book.orderly_preserved.fire orderly) (by omega)
      refine ⟨m₂,?_,?_⟩
      · have notEmpty : fired.isEmpty = false := by simpa using someFired
        simp only [MatchingBook.processTriggeredLoop,scan,notEmpty,round,rest,Bool.false_eq_true,Option.bind_eq_bind,
          Option.bind_some,↓reduceIte]
      · have notEmpty : ¬ (b.dueBuys ++ b.dueSells).isEmpty = true := by simpa using none
        rw [Book.processTriggeredLoop,if_neg notEmpty]
        exact rep₂

/-- The loop over the rounds ends, and within the rounds it is given. -/
theorem RepresentsFrom.processTriggered (rep : RepresentsFrom origin exact m b) (orderly : Book.Orderly b []) :
    ∃ m', m.processTriggered = some m' ∧ RepresentsFrom origin exact m' b.processTriggered := by
  have enough : b.parkedCount < (m.on .stopBids).walkBound + (m.on .stopAsks).walkBound := by
    obtain ⟨ch,bl,held,sides,_⟩ := rep
    have buys := (held.side .stopBids).length_lt
    have sells := (held.side .stopAsks).length_lt
    unfold Book.parkedCount
    rw [sides,sides,bareOrders,bareOrders,List.length_map,List.length_map]
    omega
  obtain ⟨m',ran,rep'⟩ := rep.processTriggeredLoop _ orderly enough
  refine ⟨m',ran,?_⟩
  rw [Book.processTriggered,Book.processTriggeredLoop_enough _ _ b orderly (Nat.lt_succ_self _) enough]
  exact rep'

theorem RepresentsFrom.goLive (rep : RepresentsFrom origin exact m b) (orderly : Book.Orderly b [o.bare]) :
    ∃ m', (do (← m.submit o).processTriggered) = some m' ∧ RepresentsFrom origin exact m' (b.submit o.bare).processTriggered := by
  obtain ⟨m₁,submitted,rep₁⟩ := rep.submit (SimpleOrder.sized_bare o |>.mp orderly.handSized) orderly.absent
  obtain ⟨m₂,ran,rep₂⟩ := rep₁.processTriggered orderly.submit
  exact ⟨m₂,by simp only [submitted,ran,Option.bind_eq_bind,Option.bind_some],rep₂⟩

/-! ## The commands -/

theorem RepresentsFrom.add (rep : RepresentsFrom origin exact m b) (orderly : Book.Orderly b [])
    {isBuy : Bool} {price qty stopPrice conditions orderId : UInt32}
    (absent : b.Absent (.add isBuy price qty stopPrice conditions orderId)) :
    ∃ m', m.add (.new isBuy price qty stopPrice conditions orderId) = some m' ∧
      RepresentsFrom origin exact m' (b.add (.new isBuy price qty stopPrice conditions orderId)) := by
  obtain ⟨order,isOrder⟩ : ∃ o, o = SimpleOrder.new isBuy price qty stopPrice conditions orderId := ⟨_,rfl⟩
  have isBare : order.bare = order := by rw [isOrder]; rfl
  have isQty : order.orderQty = qty.toNat := by rw [isOrder]; rfl
  rw [← isOrder]
  simp only [MatchingBook.add,Book.add]
  by_cases empty : order.orderQty = 0
  · rw [if_pos empty,if_pos empty]
    exact ⟨_,rfl,rep.emit _⟩
  · rw [if_neg empty,if_neg empty]
    have rep₁ := rep.emit (.onAccept order.orderId)
    have orderly₁ : Book.Orderly (b.emit (.onAccept order.orderId)) [order.bare] := by
      rw [isBare,isOrder]
      exact Book.orderly_absent.arrive b _ _ _ _ _ _ absent (by rwa [isQty] at empty) trivial orderly
    have stopped : (m.emit (.onAccept order.orderId)).isStopped order = (b.emit (.onAccept order.orderId)).isStopped order := by
      simp only [MatchingBook.isStopped,Book.isStopped,rep₁.represents.market]
    rw [stopped]
    by_cases parks : order.stopPrice ≠ 0 ∧ (b.emit (.onAccept order.orderId)).isStopped order = true
    · rw [if_pos parks,if_pos parks]
      obtain ⟨m₂,inserted,rep₂⟩ := rep₁.insertInto (t := order.stopSide)
        (SimpleOrder.sized_bare order |>.mp orderly₁.handSized) orderly₁.absent
      refine ⟨{ m₂ with market := m₂.market.park order.orderId },?_,?_⟩
      · simp only [MatchingBook.parkStop,inserted,Option.bind_eq_bind,Option.bind_some]
      · have rep₃ := rep₂.journal fun k => k.park order.orderId
        rw [isBare] at rep₃
        exact rep₃
    · rw [if_neg parks,if_neg parks]
      have live := rep₁.goLive orderly₁
      rwa [isBare] at live

theorem Represents.indexed (rep : Represents exact m b) (t : TreeName) (id : Nat) :
    ((m.tree t).orderIndex id).isSome = (b.find t id).isSome := by
  obtain ⟨ch,bl,held,sides,_⟩ := rep
  have index := (held.side t).hosted.index id
  cases found : b.find t id with
  | none =>
    have absent : ∀ o ∈ b.side t, o.orderId ≠ id := by simpa [Book.find] using found
    rw [sides] at absent
    have noIndex : (m.tree t).orderIndex id = none := ((held.side t).hosted.findOrder_none (absent_entries absent)).1
    rw [noIndex]
    rfl
  | some o =>
    obtain ⟨member,isId⟩ := Book.find_some found
    rw [sides] at member
    obtain ⟨l,o',E,E',split,rfl⟩ := entry_of_mem member
    have isIndex : (m.tree t).orderIndex id = some l := (index l).mpr ⟨o',by rw [split]; simp,isId⟩
    rw [isIndex]
    rfl

theorem Represents.holder (rep : Represents exact m b) (id : Nat) (ts : List TreeName) : m.holder id ts = b.holder id ts := by
  simp only [MatchingBook.holder,Book.holder,rep.indexed]

theorem RepresentsFrom.cancel (rep : RepresentsFrom origin exact m b) (id : Nat) :
    ∃ m', m.cancel id = some m' ∧ RepresentsFrom origin exact m' (b.cancel id) := by
  unfold MatchingBook.cancel Book.cancel
  rw [rep.represents.holder]
  cases found : b.holder id [.bids,.asks,.stopBids,.stopAsks] with
  | none => exact ⟨_,rfl,rep.emit _⟩
  | some t =>
    obtain ⟨_,o,member,rfl⟩ := Book.holder_some found
    obtain ⟨m₁,erased,rep₁⟩ := rep.eraseFrom member
    refine ⟨_,?_,rep₁.emit (.onCancel o.orderId)⟩
    simp only [erased,Option.bind_eq_bind,Option.bind_some]

theorem Represents.locate (rep : Represents exact m b) (member : o ∈ b.side t) : ∃ loc o',
    (m.tree t).orderIndex o.orderId = some loc ∧ (m.on t).orderAt loc = some o' ∧ o'.bare = o := by
  obtain ⟨ch,bl,held,sides,_⟩ := rep
  rw [sides t] at member
  obtain ⟨l,o',E,E',split,rfl⟩ := entry_of_mem member
  exact ⟨l,o',((held.side t).hosted.index o'.orderId l).mpr ⟨o',by rw [split]; simp,rfl⟩,((held.side t).next split).1,rfl⟩

theorem RepresentsFrom.resize {l : OrderLoc} {o' : SimpleOrder} (rep : RepresentsFrom origin exact m b) (member : o ∈ b.side t)
    (index : (m.tree t).orderIndex o.orderId = some l) (read : (m.on t).orderAt l = some o') (sizeDelta : Int)
    (exactly : exact → ¬ (sizeDelta < 0 ∧ toU32 (-sizeDelta) ≥ o.openQty) →
      ((o.modify sizeDelta priceUnchanged).openQty : Int) = o.openQty + sizeDelta) :
    ∃ m', m.resize t l o' sizeDelta = some m' ∧ RepresentsFrom origin exact m' (b.resize t o sizeDelta) := by
  have erased := rep.eraseFrom member
  obtain ⟨ch,bl,held,sides,market,since⟩ := rep
  rw [sides t] at member
  obtain ⟨l₁,o₁,E,E',split,rfl⟩ := entry_of_mem member
  obtain rfl : l₁ = l := by
    have index₁ := ((held.side t).hosted.index o₁.orderId l₁).mpr ⟨o₁,by rw [split]; simp,rfl⟩
    exact Option.some.inj (index₁.symm.trans index)
  obtain rfl : o₁ = o' := Option.some.inj (((held.side t).next split).1.symm.trans read)
  unfold MatchingBook.resize Book.resize
  by_cases collapses : sizeDelta < 0 ∧ toU32 (-sizeDelta) ≥ o₁.openQty
  · obtain ⟨m₁,erases,rep₁⟩ := erased
    refine ⟨m₁,?_,?_⟩
    · rw [if_pos collapses]
      exact erases
    · rw [SimpleOrder.bare_openQty,if_pos collapses]
      exact rep₁
  · obtain ⟨orderId,level,_⟩ := o₁.modify_fields sizeDelta priceUnchanged
    obtain ⟨s',bl',edited,side',entriesIs,treeStep⟩ := (held.side t).edit split sizeDelta
      (f := fun o => o.modify sizeDelta priceUnchanged) orderId level (fun x => x.bare_modify _ _)
      (t.key_resized o₁ sizeDelta) (((held.side t).sizedAt split).modify _ _)
      (fun isExact : exact => ⟨isExact,by
        have opened := exactly isExact (by rwa [SimpleOrder.bare_openQty])
        rw [← SimpleOrder.bare_modify,SimpleOrder.bare_openQty,SimpleOrder.bare_openQty] at opened
        exact opened⟩)
    refine ⟨m.put t s',?_,?_⟩
    · rw [if_neg collapses,edited]
      rfl
    · rw [SimpleOrder.bare_openQty,if_neg collapses]
      apply held.represents sides market since side' treeStep
      have others : ∀ E₀ : List (OrderLoc × SimpleOrder), (∀ x ∈ bareOrders E₀, x.orderId ≠ o₁.orderId) →
          (bareOrders E₀).map (fun x => if x.orderId = o₁.bare.orderId then x.modify sizeDelta priceUnchanged else x) = bareOrders E₀ := by
        intro E₀ apart
        refine (List.map_congr_left ?_).trans (List.map_id _)
        intro x inE
        exact if_neg (apart x inE)
      have nodup := (held.side t).ids_nodup
      rw [split,bareOrders_append,bareOrders_cons,List.map_append,List.map_cons,List.nodup_middle,List.nodup_cons,
        ← List.map_append] at nodup
      have apart : ∀ x ∈ bareOrders E ++ bareOrders E', x.orderId ≠ o₁.orderId :=
        fun x inE same => nodup.1 (List.mem_map.mpr ⟨x,inE,same⟩)
      rw [sides t,split,entriesIs,bareOrders_append,bareOrders_append,bareOrders_cons,bareOrders_cons,List.map_append,List.map_cons,
        others E fun x inE => apart x (by simp [inE]),others E' fun x inE => apart x (by simp [inE]),if_pos rfl,
        SimpleOrder.bare_modify]

theorem RepresentsFrom.reprice {o' : SimpleOrder} (rep : RepresentsFrom origin exact m b) (orderly : Book.Orderly b [])
    (member : o ∈ b.side t)
    (isBare : o'.bare = o) {orderId : UInt32} {sizeDelta : Int32} {newPrice : UInt64} (isId : o.orderId = orderId.toNat)
    (resting : t = .bids ∨ t = .asks) (moves : newPrice.toNat ≠ priceUnchanged) :
    ∃ m', m.reprice t o' sizeDelta.toInt newPrice.toNat = some m' ∧
      RepresentsFrom origin exact m' (b.reprice t o sizeDelta.toInt newPrice.toNat) := by
  subst isBare
  obtain ⟨m₁,erased,rep₁⟩ := rep.eraseFrom member
  rw [SimpleOrder.bare_orderId] at erased
  have rep₂ := rep₁.emit (.onReplace o'.orderId sizeDelta.toInt (o'.modify sizeDelta.toInt newPrice.toNat).price)
  simp only [MatchingBook.reprice,Book.reprice,erased,Option.bind_eq_bind,Option.bind_some,← SimpleOrder.bare_modify,
    SimpleOrder.bare_openQty,SimpleOrder.bare_price,SimpleOrder.bare_orderId] at rep₂ ⊢
  by_cases empty : (o'.modify sizeDelta.toInt newPrice.toNat).openQty = 0
  · rw [if_pos empty,if_pos empty]
    exact ⟨_,rfl,rep₂⟩
  · rw [if_neg empty,if_neg empty]
    refine rep₂.goLive (Book.orderly_preserved.emit _ _ _ rfl trivial ?_)
    rw [SimpleOrder.bare_modify]
    refine Book.orderly_preserved.reprice b t o'.bare orderId sizeDelta newPrice resting member isId trivial moves ?_ trivial orderly
    rwa [← SimpleOrder.bare_modify,SimpleOrder.bare_openQty]

end MatchingBook

/-- A command that edits an order in place gives it the open quantity that was asked for. -/
def Book.Exact (b : Book) : Command → Prop
  | .replace orderId sizeDelta newPrice => ∀ t, t = .bids ∨ t = .asks → ∀ o, b.find t orderId.toNat = some o →
      ¬ (newPrice.toNat ≠ priceUnchanged ∧ newPrice.toNat ≠ o.price) →
      ¬ (sizeDelta.toInt < 0 ∧ toU32 (-sizeDelta.toInt) ≥ o.openQty) →
      ((o.modify sizeDelta.toInt priceUnchanged).openQty : Int) = o.openQty + sizeDelta.toInt
  | _ => True

namespace MatchingBook
open TreeState
variable {N : Capacity} {m m' : MatchingBook N} {b : Book} {exact : Prop} {t : TreeName} {o : SimpleOrder} {c : Command}

theorem RepresentsFrom.replaceHeld (rep : RepresentsFrom origin exact m b) (orderly : Book.Orderly b []) {orderId : UInt32}
    {sizeDelta : Int32}
    {newPrice : UInt64} (resting : t = .bids ∨ t = .asks) (found : b.find t orderId.toNat = some o)
    (exactly : exact → b.Exact (.replace orderId sizeDelta newPrice))
    (holds : b.holder orderId.toNat [.bids,.asks] = some t) :
    ∃ m', m.replace orderId.toNat sizeDelta.toInt newPrice.toNat = some m' ∧
      RepresentsFrom origin exact m' (b.replaceOrder t o sizeDelta.toInt newPrice.toNat) := by
  obtain ⟨member,isId⟩ := Book.find_some found
  unfold MatchingBook.replace Book.replaceOrder
  rw [rep.represents.holder,holds]
  obtain ⟨loc,o',index,read,isBare⟩ := rep.represents.locate member
  have index' : (m.tree t).orderIndex orderId.toNat = some loc := by rw [← isId]; exact index
  have price : o'.price = o.price := by rw [← isBare,SimpleOrder.bare_price]
  simp only [index',read,Option.bind_eq_bind,Option.bind_some,price]
  by_cases moves : newPrice.toNat ≠ priceUnchanged ∧ newPrice.toNat ≠ o.price
  · rw [if_pos moves,if_pos moves]
    exact rep.reprice orderly member isBare isId resting moves.1
  · rw [if_neg moves,if_neg moves]
    obtain ⟨m₁,resized,rep₁⟩ := rep.resize member index read sizeDelta.toInt
      fun isExact collapses => exactly isExact t resting o found moves collapses
    refine ⟨_,?_,rep₁.emit (.onReplace o.orderId sizeDelta.toInt o.price)⟩
    simp only [resized,isId,Option.bind_some]

theorem RepresentsFrom.replace (rep : RepresentsFrom origin exact m b) (orderly : Book.Orderly b []) {orderId : UInt32} {sizeDelta : Int32}
    {newPrice : UInt64} (exactly : exact → b.Exact (.replace orderId sizeDelta newPrice)) :
    ∃ m', m.replace orderId.toNat sizeDelta.toInt newPrice.toNat = some m' ∧
      RepresentsFrom origin exact m' (b.replace orderId.toNat sizeDelta.toInt newPrice.toNat) := by
  unfold Book.replace
  cases bid : b.find .bids orderId.toNat with
  | some o => exact rep.replaceHeld orderly (.inl rfl) bid exactly (by simp [Book.holder,bid])
  | none =>
    cases ask : b.find .asks orderId.toNat with
    | some o => exact rep.replaceHeld orderly (.inr rfl) ask exactly (by simp [Book.holder,bid,ask])
    | none =>
      refine ⟨_,?_,rep.emit _⟩
      have nowhere : b.holder orderId.toNat [.bids,.asks] = none := by simp [Book.holder,bid,ask]
      unfold MatchingBook.replace
      rw [rep.represents.holder,nowhere]

/-- Every command succeeds, and has the result of its counterpart. -/
theorem RepresentsFrom.step (rep : RepresentsFrom origin exact m b) (orderly : Book.Orderly b []) (absent : b.Absent c)
    (exactly : exact → b.Exact c) : ∃ m', m.step c = some m' ∧ RepresentsFrom origin exact m' (b.step c) := by
  cases c with
  | add isBuy price qty stopPrice conditions orderId => exact rep.add orderly absent
  | cancel orderId => exact rep.cancel orderId.toNat
  | replace orderId sizeDelta newPrice => exact rep.replace orderly exactly
  | setMarketPrice px =>
    exact (rep.journal fun k => k.observe px.toNat).processTriggered (Book.orderly_preserved.observe b px.toNat trivial orderly)

/-! ## Whatever the origin -/

theorem Represents.add (rep : Represents exact m b) (orderly : Book.Orderly b [])
    {isBuy : Bool} {price qty stopPrice conditions orderId : UInt32}
    (absent : b.Absent (.add isBuy price qty stopPrice conditions orderId)) :
    ∃ m', m.add (.new isBuy price qty stopPrice conditions orderId) = some m' ∧
      Represents exact m' (b.add (.new isBuy price qty stopPrice conditions orderId)) := by
  obtain ⟨origin,rep⟩ := rep.from_here
  obtain ⟨m',added,rep'⟩ := rep.add orderly absent
  exact ⟨m',added,rep'.represents⟩

theorem Represents.cancel (rep : Represents exact m b) (id : Nat) :
    ∃ m', m.cancel id = some m' ∧ Represents exact m' (b.cancel id) := by
  obtain ⟨origin,rep⟩ := rep.from_here
  obtain ⟨m',cancelled,rep'⟩ := rep.cancel id
  exact ⟨m',cancelled,rep'.represents⟩

theorem Represents.step (rep : Represents exact m b) (orderly : Book.Orderly b []) (absent : b.Absent c)
    (exactly : exact → b.Exact c) : ∃ m', m.step c = some m' ∧ Represents exact m' (b.step c) := by
  obtain ⟨origin,rep⟩ := rep.from_here
  obtain ⟨m',stepped,rep'⟩ := rep.step orderly absent exactly
  exact ⟨m',stepped,rep'.represents⟩

/-! ## Runs -/

/-- The matching book after a run from the empty book on some pools. -/
def after (h : Pools N) (cs : List Command) : Option (MatchingBook N) := run step (start h.toHeap) cs

theorem held_start (h : Pools N) : Held exact (start h.toHeap) (fun _ => []) fun _ => [] :=
  ⟨fun _ => ⟨tree_start h,by simp [ladder],by simp,fun _ => by simp [Ladder.Sound,ladder]⟩,fun _ _ _ => List.disjoint_nil_left _,
    fun _ _ _ => List.disjoint_nil_left _⟩

theorem represents_start (h : Pools N) : Represents exact (start h.toHeap) .start :=
  ⟨_,_,held_start h,fun _ => rfl,rfl⟩

end MatchingBook

/-- The abstract book after a run from the empty book. -/
def Book.after (cs : List Command) : Book := cs.foldl Book.step .start

/-- Every command that edits an order in place gives it the open quantity that was asked for. -/
def ExactRun (cs : List Command) : Prop := Admitted Book.Exact Book.step .start cs

theorem orderly_after {cs : List Command} (once : NeverReused cs) : Book.Orderly (.after cs) [] :=
  Book.orderly_preserved.run cs _ Book.orderly_start once.admitted

/-- In a run no command of the matching book fails, and the run leaves the orders and the journal of
    the abstract book. -/
theorem MatchingBook.run_represents {N : Capacity} {exact : Prop} (h : Pools N) (cs : List Command) (once : NeverReused cs)
    (exactly : exact → ExactRun cs) : ∃ m, after h cs = some m ∧ Represents exact m (.after cs) := by
  have matched : ∀ (m : MatchingBook N) (b : Book) (c : Command), Represents exact m b ∧ Book.Orderly b [] →
      b.Fresh c ∧ (exact → b.Exact c) →
      ∃ m', m.step c = some m' ∧ Represents exact m' (b.step c) ∧ Book.Orderly (b.step c) [] := by
    rintro m b c ⟨rep,orderly⟩ ⟨fresh,exactly⟩
    obtain ⟨m',stepped,rep'⟩ := rep.step orderly (orderly.absent_of_fresh fresh) exactly
    exact ⟨m',stepped,rep',Book.orderly_preserved.step fresh orderly⟩
  obtain ⟨m,ran,rep,_⟩ := run_matched matched cs (start h.toHeap) .start ⟨represents_start h,Book.orderly_start⟩
    (once.admitted.and (admitted_if exactly))
  exact ⟨m,ran,rep⟩

theorem NeverReused.left {cs cs' : List Command} (once : NeverReused (cs ++ cs')) : NeverReused cs :=
  List.Nodup.sublist ((List.sublist_append_left cs cs').filterMap Command.added) once

theorem NeverReused.front {cs : List Command} {c : Command} (once : NeverReused (cs ++ [c])) : NeverReused cs := once.left

namespace MatchingBook
variable {N : Capacity} {h : Pools N} {cs : List Command} {c : Command} {exact : Prop}

/-- A run and one more command. -/
theorem run_step_represents (h : Pools N) (once : NeverReused (cs ++ [c])) (exactly : exact → ExactRun (cs ++ [c])) :
    ∃ m m', after h cs = some m ∧ m.step c = some m' ∧ Represents exact m (.after cs) ∧ Represents exact m' ((Book.after cs).step c) := by
  have fresh := (Simulation.admitted_append.mp once.admitted).2.1
  obtain ⟨m,ran,rep⟩ := run_represents h cs once.front fun isExact => (Simulation.admitted_append.mp (exactly isExact)).1
  obtain ⟨m',stepped,rep'⟩ := rep.step (orderly_after once.front) ((orderly_after once.front).absent_of_fresh fresh)
    fun isExact => (Simulation.admitted_append.mp (exactly isExact)).2.1
  exact ⟨m,m',ran,stepped,rep,rep'⟩

/-- What is asked of every command of a run, when its turn comes. -/
def EveryStep (ok : MatchingBook N → Command → Prop) (h : Pools N) (cs : List Command) : Prop :=
  ∀ before c later, cs = before ++ c :: later → ∀ m, after h before = some m → ok m c

theorem everyStep_iff {ok : MatchingBook N → Command → Prop} {ok' : Book → Command → Prop}
    (same : ∀ m b c, Represents False m b → (ok m c ↔ ok' b c)) (once : NeverReused cs) :
    EveryStep ok h cs ↔ Simulation.Admitted ok' Book.step .start cs := by
  have represented : ∀ before later, cs = before ++ later → ∃ m, after h before = some m ∧ Represents False m (.after before) := by
    rintro before later rfl
    exact run_represents h before once.left fun no => no.elim
  rw [Simulation.admitted_iff]
  constructor
  · intro all before c later split
    obtain ⟨m,ran,rep⟩ := represented before (c :: later) split
    exact (same m _ c rep).mp (all before c later split m ran)
  · intro all before c later split m ran
    obtain ⟨m',ran',rep⟩ := represented before (c :: later) split
    obtain rfl : m' = m := Option.some.inj (ran'.symm.trans ran)
    exact (same m' _ c rep).mpr (all before c later split)

/-! ## The contents -/

/-- The orders of the four trees, and the journal. -/
def contents (m : MatchingBook N) : Option Book := do
  let bids ← (m.on .bids).snapshot
  let asks ← (m.on .asks).snapshot
  let stopBids ← (m.on .stopBids).snapshot
  let stopAsks ← (m.on .stopAsks).snapshot
  let side : TreeName → List SimpleOrder := fun
    | .bids => bids
    | .asks => asks
    | .stopBids => stopBids
    | .stopAsks => stopAsks
  some ⟨side,m.market⟩

/-- The contents of the book after some commands. -/
def contentsAfter (h : Pools N) (cs : List Command) : Option Book := (after h cs).bind contents

theorem contents_eq {m : MatchingBook N} {b : Book} (rep : Represents False m b) : m.contents = some b := by
  have sides : (fun | .bids => b.side .bids | .asks => b.side .asks | .stopBids => b.side .stopBids | .stopAsks => b.side .stopAsks :
      TreeName → List SimpleOrder) = b.side := by
    funext t
    cases t <;> rfl
  simp only [contents,rep.snapshot,Option.bind_eq_bind,Option.bind_some,rep.market,sides]

theorem contentsAfter_eq (h : Pools N) (once : NeverReused cs) : contentsAfter h cs = some (.after cs) := by
  obtain ⟨m,ran,rep⟩ := run_represents h cs once fun no : False => no.elim
  rw [contentsAfter,ran]
  exact contents_eq rep

/-- What is asked of the contents of each book that a run comes to. -/
theorem everyStep_contents {P : Book → Command → Prop} (once : NeverReused cs) :
    EveryStep (fun m c => ∀ b, m.contents = some b → P b c) h cs ↔ Simulation.Admitted P Book.step .start cs := by
  refine everyStep_iff (fun m b c rep => ?_) once
  rw [contents_eq rep]
  exact ⟨fun all => all b rfl,fun holds b' same => Option.some.inj same ▸ holds⟩

end MatchingBook

end BaboEngine
