import BaboEngine.TreeRuns

/-!
# Sweeps that erase

A traversal that reads an order, moves its iterator on, and only then may erase the order it has
read. The iterator is a slot that is not checked again; it stays the slot of a live order,
whatever the erasures do to nodes and levels.
-/

namespace BaboEngine
open Simulation

/-- A traversal: the tree, the iterator (`none` at the end) and the orders it has read. -/
structure Sweep (N : Capacity) where
  tree : TreeState N
  it : Option OrderLoc
  visited : List SimpleOrder

/-- `auto it = tree.orders_begin();` -/
def Sweep.start {N : Capacity} (s : TreeState N) : Option (Sweep N) := do
  some ⟨s,← s.ordersBegin,[]⟩

/-- `order = *it; ++it; if (erased) tree.erase(order.order_id_);`, where the iterator is not at the end. -/
def Sweep.step {N : Capacity} (type : OrderType) (w : Sweep N) (erased : Bool) : Option (Sweep N) := do
  let loc ← w.it
  let order ← w.tree.orderAt loc
  let it ← w.tree.globalNext loc
  let tree ← if erased then w.tree.erase type order.orderId else some w.tree
  some ⟨tree,it,w.visited ++ [order]⟩

/-- What is left of the orders visited. -/
def spared {α : Type} : List α → List Bool → List α
  | x :: xs, erased :: choices => if erased then spared xs choices else x :: spared xs choices
  | _, _ => []

theorem spared_map {α β : Type} (f : α → β) : ∀ (xs : List α) (choices : List Bool),
    (spared xs choices).map f = spared (xs.map f) choices
  | [], _ => rfl
  | _ :: _, [] => rfl
  | x :: xs, erased :: choices => by
    have rest := spared_map f xs choices
    cases erased with
    | false => simpa [spared] using rest
    | true => simpa [spared] using rest

namespace TreeState
variable {N : Capacity} {s : TreeState N} {type : OrderType} {w : Sweep N} {l : OrderLoc} {o : SimpleOrder}
variable {kept rest : List (OrderLoc × SimpleOrder)}

/-- A sweep with the orders `kept` behind it and the orders `rest` ahead of it, all in their slots. -/
structure Sweeping (type : OrderType) (w : Sweep N) (kept rest : List (OrderLoc × SimpleOrder)) : Prop where
  tree : ∃ ch bl, Tree type w.tree ch bl ∧ entries bl = kept ++ rest
  it : w.it = rest.head?.map Prod.fst

theorem Sweeping.step (sweeping : Sweeping type w kept ((l,o) :: rest)) (erased : Bool) : ∃ w', w.step type erased = some w' ∧
    Sweeping type w' (kept ++ spared [(l,o)] [erased]) rest ∧ w'.visited = w.visited ++ [o] := by
  obtain ⟨⟨ch,bl,tree,split⟩,it⟩ := sweeping
  obtain ⟨read,next⟩ := tree.toStored.next split
  have isHere : w.it = some l := it
  cases erased with
  | false =>
    refine ⟨⟨w.tree,rest.head?.map Prod.fst,w.visited ++ [o]⟩,?_,⟨⟨ch,bl,tree,by simp [spared,split]⟩,rfl⟩,rfl⟩
    simp only [Sweep.step,isHere,read,next,Option.bind_eq_bind,Option.bind_some,Bool.false_eq_true,↓reduceIte]
  | true =>
    obtain ⟨s',ch',bl',executed,tree',entriesIs,_⟩ := tree.erase split
    refine ⟨⟨s',rest.head?.map Prod.fst,w.visited ++ [o]⟩,?_,⟨⟨ch',bl',tree',by simp [spared,entriesIs]⟩,rfl⟩,rfl⟩
    simp only [Sweep.step,isHere,read,next,executed,Option.bind_eq_bind,Option.bind_some,↓reduceIte]

theorem Sweeping.run (choices : List Bool) : ∀ {w : Sweep N} {kept rest : List (OrderLoc × SimpleOrder)},
    Sweeping type w kept rest → choices.length ≤ rest.length → ∃ w', run (Sweep.step type) w choices = some w' ∧
      Sweeping type w' (kept ++ spared rest choices) (rest.drop choices.length) ∧
      w'.visited = w.visited ++ (rest.take choices.length).map Prod.snd := by
  induction choices with
  | nil =>
    intro w kept rest sweeping _
    refine ⟨w,rfl,?_,by simp⟩
    have none : spared rest [] = [] := by cases rest <;> rfl
    simpa [none] using sweeping
  | cons erased choices ih =>
    intro w kept rest sweeping enough
    cases rest with
    | nil =>
      simp at enough
    | cons e rest =>
      obtain ⟨l,o⟩ := e
      obtain ⟨w₁,step₁,sweeping₁,visited₁⟩ := sweeping.step erased
      obtain ⟨w₂,run₂,sweeping₂,visited₂⟩ := ih sweeping₁ (by simpa using enough)
      refine ⟨w₂,by rw [run_cons,step₁]; exact run₂,?_,by simp [visited₂,visited₁]⟩
      have first : spared ((l,o) :: rest) (erased :: choices) = spared [(l,o)] [erased] ++ spared rest choices := by
        cases erased <;> rfl
      rw [first,← List.append_assoc]
      exact sweeping₂

theorem Tree.sweeping {ch : List Segment} {bl : List Block} (tree : Tree type s ch bl) :
    ∃ w, Sweep.start s = some w ∧ w.tree = s ∧ w.visited = [] ∧ Sweeping type w [] (entries bl) := by
  refine ⟨⟨s,(entries bl).head?.map Prod.fst,[]⟩,?_,rfl,rfl,⟨ch,bl,tree,rfl⟩,rfl⟩
  simp only [Sweep.start,tree.toStored.ordersBegin,Option.bind_eq_bind,Option.bind_some]

/-- A sweep after as many steps as there are choices: it has read the first orders, the erased ones of them are gone, and its
    iterator is at the end or at the slot of a live order of the tree as it is now, the next one to read. -/
structure Swept (type : OrderType) (w : Sweep N) (os : List SimpleOrder) (choices : List Bool) : Prop where
  visited : w.visited = os.take choices.length
  orders : w.tree.orders = some (spared os choices ++ os.drop choices.length)
  ended : w.it = none ↔ choices.length = os.length
  live : ∃ ch bl, Tree type w.tree ch bl ∧ ∀ loc, w.it = some loc → loc ∈ locs ch ∧ w.tree.orderAt loc = os[choices.length]?

theorem Sweeping.swept {choices : List Bool} {es : List (OrderLoc × SimpleOrder)} (short : choices.length ≤ es.length)
    (sweeping : Sweeping type w (spared es choices) (es.drop choices.length))
    (visited : w.visited = (es.take choices.length).map Prod.snd) : Swept type w (es.map Prod.snd) choices := by
  obtain ⟨⟨ch,bl,tree,split⟩,it⟩ := sweeping
  refine ⟨by rw [visited,List.map_take],?_,?_,ch,bl,tree,?_⟩
  · rw [tree.orders,split,List.map_append,spared_map,List.map_drop]
  · rw [it,Option.map_eq_none_iff,List.head?_eq_none_iff,List.drop_eq_nil_iff,List.length_map]
    omega
  · intro loc isLoc
    rw [it] at isLoc
    obtain ⟨⟨l,o⟩,isNext,rfl⟩ := Option.map_eq_some_iff.mp isLoc
    have inEntries : (l,o) ∈ entries bl := by
      rw [split]
      exact List.mem_append_right _ (List.mem_of_mem_head? isNext)
    refine ⟨tree.hosted.slots _ inEntries,(tree.hosted.payload _ inEntries).trans ?_⟩
    rw [List.getElem?_map,← List.head?_drop,isNext]
    rfl

/-- Whichever of the orders it visits a sweep erases, from any tree that operations have led to: it reads all orders of the
    tree once each and in order, one at each step. -/
theorem sweep_visits_all (h : Pools N) (ops : List TreeOp) (fresh : FreshIds type ops) :
    ∃ s os start, after type h ops = some s ∧ s.orders = some os ∧ os.map SimpleOrder.bare = (listAfter type ops).map Prod.snd ∧
      (os.map SimpleOrder.orderId).Nodup ∧ Sweep.start s = some start ∧
      ∀ choices : List Bool, choices.length ≤ os.length →
        ∃ w, Simulation.run (Sweep.step type) start choices = some w ∧ Swept type w os choices := by
  obtain ⟨s,executed,ch,bl,tree,flat⟩ := run_refines h ops fresh
  obtain ⟨start,started,_,none,sweeping⟩ := tree.sweeping
  have ids : ((entries bl).map Prod.snd).map SimpleOrder.orderId = (entries bl).map fun e => e.2.orderId := by
    simp [Function.comp_def]
  refine ⟨s,(entries bl).map Prod.snd,start,executed,tree.orders,?_,ids ▸ tree.hosted.ids_nodup tree.covers,started,?_⟩
  · rw [← flat,flat_ladder_orders]
    simp [Function.comp_def]
  · intro choices short
    rw [List.length_map] at short
    obtain ⟨w,ran,sweeping',visited⟩ := sweeping.run choices short
    rw [none,List.nil_append] at visited
    exact ⟨w,ran,sweeping'.swept short visited⟩

/-- Three buys in nodes of one slot; the first and the last are erased as the sweep passes them. -/
theorem sweep_visits_all_buys : ∃ (s : TreeState ⟨1,by decide,by decide⟩) (os : List SimpleOrder) (w : Sweep ⟨1,by decide,by decide⟩),
    after .BID .empty [.insert (.new true 100 5 0 0 1) 100,.insert (.new true 100 6 0 0 2) 100,
      .insert (.new true 99 7 0 0 3) 99] = some s ∧ s.orders = some os ∧ Swept .BID w os [true,false,true] := by
  have fresh : FreshIds .BID [.insert (.new true 100 5 0 0 1) 100,.insert (.new true 100 6 0 0 2) 100,
    .insert (.new true 99 7 0 0 3) 99] := by decide
  obtain ⟨s,os,start,ran,orders,bare,_,_,all⟩ := sweep_visits_all (N := ⟨1,by decide,by decide⟩) .empty _ fresh
  have three : os.length = 3 := by
    have lengths := congrArg List.length bare
    rw [List.length_map] at lengths
    exact lengths
  obtain ⟨w,_,swept⟩ := all [true,false,true] (by simp [three])
  exact ⟨s,os,w,ran,orders,swept⟩

end TreeState

end BaboEngine
