import BaboEngine.Depth

/-!
# Clearing

A tree that is destroyed gives back the nodes along its chain and the levels along their
threads. The chain and the threads have every node and every level of the tree once, so no
release fails and none of them is left (`Tree.clear`).
-/

namespace BaboEngine
open DoublyLinked

/-- A loop of `clear`: the link of an element is read, then the element is released. -/
def AllocatorPool.releaseAll {T : Type} {N : Nat} (next : T → Option Ptr) (p : AllocatorPool T N) :
    Nat → Option Ptr → Option (AllocatorPool T N)
  | 0, _ => none
  | _ + 1, none => some p
  | rounds + 1, some a => do
    let v ← p.read a
    let p ← p.release (some a)
    p.releaseAll next rounds (next v)

/-- `clear`, which is the destructor of a tree. -/
def TreeState.clear {N : Capacity} (type : OrderType) (s : TreeState N) : Option (TreeState N) := do
  let nodes ← s.nodes.releaseAll (·.nextNode) (s.nodes.nbElements + 1) s.chainHead
  let levels ← s.levels.releaseAll (·.worse type) (s.levels.nbElements + 1) s.best
  some { nodes := nodes, levels := levels, toNarbTree := .empty }

namespace MatchingBook
variable {N : Capacity}

def clearTree (m : MatchingBook N) (t : TreeName) : Option (MatchingBook N) := do
  let s ← (m.on t).clear t.type
  some (m.put t s)

/-- The destructor of a book; its members are destroyed in the reverse order of their declaration. -/
def destroy (m : MatchingBook N) : Option (MatchingBook N) := do
  let m ← m.clearTree .stopAsks
  let m ← m.clearTree .stopBids
  let m ← m.clearTree .asks
  m.clearTree .bids

end MatchingBook

/-! ## The loops -/

/-- Elements that name one another in order are all released. -/
theorem AllocatorPool.releaseAll_spec {T : Type} {N : Nat} (next : T → Option Ptr) (L : List Ptr) :
    ∀ (p : AllocatorPool T N) (rounds : Nat),
    p.WellFormed → L.Nodup → (∀ as a bs, L = as ++ a :: bs → ∃ v, p.read a = some v ∧ next v = bs.head?) → L.length < rounds →
    ∃ p', p.releaseAll next rounds L.head? = some p' ∧ p'.WellFormed ∧ ∀ b, p'.read b = if b ∈ L then none else p.read b := by
  induction L with
  | nil =>
    intro p rounds wf _ _ enough
    obtain ⟨rounds,rfl⟩ := Nat.exists_eq_succ_of_ne_zero (by omega : rounds ≠ 0)
    exact ⟨p,rfl,wf,by simp⟩
  | cons a L ih =>
    intro p rounds wf nodup linked enough
    rw [List.length_cons] at enough
    obtain ⟨rounds,rfl⟩ := Nat.exists_eq_succ_of_ne_zero (by omega : rounds ≠ 0)
    obtain ⟨notAgain,nodup'⟩ := List.nodup_cons.mp nodup
    obtain ⟨v,read,isNext⟩ := linked [] a L rfl
    obtain ⟨p₁,released,wf₁,reads₁,_⟩ := wf.release (a := a) (by simp [read])
    obtain ⟨p',rest,wf',reads'⟩ := ih p₁ rounds wf₁ nodup' (by
      intro as x bs split
      obtain ⟨w,readX,isNextX⟩ := linked (a :: as) x bs (by rw [split]; rfl)
      have other : x ≠ a := by
        rintro rfl
        exact notAgain (by rw [split]; simp)
      exact ⟨w,by rw [reads₁,if_neg other,readX],isNextX⟩) (by omega)
    refine ⟨p',?_,wf',?_⟩
    · rw [List.head?_cons,releaseAll,read,← isNext] at *
      simp only [Option.bind_eq_bind,Option.bind_some,released]
      exact rest
    · intro b
      rw [reads',reads₁]
      by_cases isA : b = a
      · simp [isA]
      · simp [isA]

namespace TreeState
variable {N : Capacity} {s : TreeState N} {type : OrderType} {ch : List Segment} {bl : List Block}

theorem framed_released {β : Type} {read read' : Ptr → Option β} {L : List Ptr} (reads : ∀ b, read' b = if b ∈ L then none else read b) :
    Framed read read' L [] := by
  refine ⟨?_,?_,?_⟩
  · intro a out _
    rw [reads,if_neg out]
  · intro a member
    exact absurd member List.not_mem_nil
  · intro a member _
    rw [reads,if_pos member]

/-- The pool has a node for every segment. -/
theorem Tree.segments_lt (tree : Tree type s ch bl) : ch.length < s.nodes.nbElements + 1 := by
  have counted := tree.hosted.nodes.length_le tree.hosted.chained.nodup fun a member => by
    obtain ⟨g,inCh,rfl⟩ := List.mem_map.mp member
    obtain ⟨n,_,read,_⟩ := tree.hosted.chained.holds g inCh
    rw [show s.nodes.read g.ptr = some n from read]
    simp
  rw [List.length_map] at counted
  omega

theorem Tree.chainLinks (tree : Tree type s ch bl) (as : List Ptr) (a : Ptr) (bs : List Ptr) (split : ch.map Segment.ptr = as ++ a :: bs) :
    ∃ n, s.nodes.read a = some n ∧ n.nextNode = bs.head? := by
  obtain ⟨pre,rest,rfl,rfl,isRest⟩ := List.map_eq_append_iff.mp split
  obtain ⟨g,post,rfl,rfl,rfl⟩ := List.map_eq_cons_iff.mp isRest
  obtain ⟨n,_,read,_,_,isNext⟩ := tree.hosted.chained.read
  exact ⟨n,read,isNext⟩

theorem Tree.levelLinks (tree : Tree type s ch bl) (as : List Ptr) (a : Ptr) (bs : List Ptr) (split : bl.map Block.ptr = as ++ a :: bs) :
    ∃ d, s.levels.read a = some d ∧ d.worse type = bs.head? := by
  obtain ⟨pre,rest,rfl,rfl,isRest⟩ := List.map_eq_append_iff.mp split
  obtain ⟨b,post,rfl,rfl,rfl⟩ := List.map_eq_cons_iff.mp isRest
  obtain ⟨d,read,isWorse,_⟩ := tree.levelAt
  exact ⟨d,read,isWorse⟩

/-- Nothing is left of a tree that is cleared, and nothing else has changed. -/
theorem Tree.clear (tree : Tree type s ch bl) : ∃ s', s.clear type = some s' ∧ Tree type s' [] [] ∧ TreeStep s s' ch [] bl [] := by
  obtain ⟨nodes,releasedNodes,nodesFit,readNodes⟩ := AllocatorPool.releaseAll_spec PinNode.nextNode (ch.map Segment.ptr) s.nodes
    (s.nodes.nbElements + 1) tree.hosted.nodes tree.hosted.chained.nodup tree.chainLinks (by rw [List.length_map]; exact tree.segments_lt)
  obtain ⟨levels,releasedLevels,levelsFit,readLevels⟩ := AllocatorPool.releaseAll_spec (fun d => d.worse type) (bl.map Block.ptr) s.levels
    (s.levels.nbElements + 1) tree.hosted.levels tree.hosted.ptrs tree.levelLinks (by rw [List.length_map]; exact tree.levels_lt)
  rw [← tree.hosted.chained.head] at releasedNodes
  rw [← tree.best] at releasedLevels
  refine ⟨{ nodes := nodes, levels := levels, toNarbTree := .empty },?_,tree_start ⟨⟨nodes,levels⟩,nodesFit,levelsFit⟩,?_⟩
  · simp only [TreeState.clear,releasedNodes,releasedLevels,Option.bind_eq_bind,Option.bind_some]
  · exact ⟨framed_released readNodes,framed_released readLevels⟩

end TreeState

namespace MatchingBook
open TreeState
variable {N : Capacity} {m : MatchingBook N} {exact : Prop} {origin : Origin N}
variable {ch : TreeName → List Segment} {bl : TreeName → List Block}

theorem Held.clearTree (held : Held exact m ch bl) (since : Since origin m ch bl) (t : TreeName) : ∃ m', m.clearTree t = some m' ∧
    Held exact m' (Function.update ch t []) (Function.update bl t []) ∧
    Since origin m' (Function.update ch t []) (Function.update bl t []) := by
  obtain ⟨s',cleared,tree,treeStep⟩ := (held.side t).toTree.clear
  refine ⟨m.put t s',?_,held.put ⟨tree,?_,?_,?_⟩ treeStep,since.put treeStep⟩
  · simp only [MatchingBook.clearTree,cleared,Option.bind_eq_bind,Option.bind_some]
  · simp [ladder]
  · simp
  · simp [Ladder.Sound,ladder]

/-- A book that is destroyed gives back all its cells. -/
theorem Held.destroy (held : Held exact m ch bl) (since : Since origin m ch bl) : ∃ m', m.destroy = some m' ∧
    m'.nodes.WellFormed ∧ m'.levels.WellFormed ∧ Since origin m' (fun _ => []) fun _ => [] := by
  obtain ⟨m₁,cleared₁,held₁,since₁⟩ := held.clearTree since .stopAsks
  obtain ⟨m₂,cleared₂,held₂,since₂⟩ := held₁.clearTree since₁ .stopBids
  obtain ⟨m₃,cleared₃,held₃,since₃⟩ := held₂.clearTree since₂ .asks
  obtain ⟨m₄,cleared₄,held₄,since₄⟩ := held₃.clearTree since₃ .bids
  have noNodes : ∀ ch : TreeName → List Segment, Function.update (Function.update (Function.update (Function.update ch .stopAsks [])
      .stopBids []) .asks []) .bids [] = fun _ => [] := by
    intro ch
    funext t
    cases t <;> rfl
  have noLevels : ∀ bl : TreeName → List Block, Function.update (Function.update (Function.update (Function.update bl .stopAsks [])
      .stopBids []) .asks []) .bids [] = fun _ => [] := by
    intro bl
    funext t
    cases t <;> rfl
  rw [noNodes,noLevels] at since₄
  refine ⟨m₄,?_,(held₄.side .bids).hosted.nodes,(held₄.side .bids).hosted.levels,since₄⟩
  simp only [MatchingBook.destroy,cleared₁,cleared₂,cleared₃,cleared₄,Option.bind_eq_bind,Option.bind_some]

end MatchingBook

end BaboEngine
