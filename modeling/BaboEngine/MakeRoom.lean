import BaboEngine.OrderChain

/-!
# Making room in a full node

The walk that collects the path, the fresh node where the path ends in a full
one, and the ripple that moves one order from each node of the path to the next.
The order of all entries is the same before and after: only their slots change,
and none of the slots in front of the freed one.
-/

namespace BaboEngine
open DoublyLinked

namespace TreeState
variable {N : Capacity} {s s' : TreeState N} {pre mid post as bs : List Segment} {bl : List Block} {x m : Ptr}
variable {g : Segment} {xs : List Nat}

theorem Chained.length_le (chained : Chained s (pre ++ g :: post)) : g.slots.length ≤ N.val := by
  obtain ⟨n,fs,_,holds,_⟩ := chained.read
  have := holds.length
  omega

/-- The nodes of a path, all full but the last, which has room. -/
def Brimming (N : Capacity) : List Segment → Prop
  | [] => False
  | [g] => g.slots.length < N.val
  | g :: h :: rest => g.slots.length = N.val ∧ Brimming N (h :: rest)

/-- The walk stops at a node with room, or where all nodes up to the limit are full. -/
theorem cascadePath_spec : ∀ (hops : Nat) (path : List Ptr) (pre post : List Segment) (g : Segment),
    Chained s (pre ++ g :: post) → path.length + hops ≤ kMaxCascadeHops + 1 →
    ∃ mid rest last, post = mid ++ rest ∧ s.cascadePath hops path g.ptr = some (path ++ mid.map Segment.ptr,last.ptr) ∧
      (g :: mid).getLast? = some last ∧ mid.length ≤ hops ∧
      (Brimming N (g :: mid) ∨ (∀ h ∈ g :: mid, h.slots.length = N.val) ∧ (rest = [] ∨ mid.length = hops)) := by
  intro hops
  induction hops with
  | zero =>
    intro path pre post g chained _
    refine ⟨[],post,g,rfl,by simp [cascadePath],rfl,Nat.le_refl 0,?_⟩
    cases Nat.lt_or_ge g.slots.length N.val with
    | inl room => exact .inl room
    | inr full =>
      refine .inr ⟨?_,.inr rfl⟩
      intro h member
      rw [List.mem_singleton.mp member]
      exact Nat.le_antisymm chained.length_le full
  | succ hops ih =>
    intro path pre post g chained enough
    obtain ⟨n,fs,read,holds,_,next⟩ := chained.read
    by_cases full : n.full = true
    · have isFull : g.slots.length = N.val := holds.full_iff.mp full
      cases post with
      | nil =>
        refine ⟨[],[],g,rfl,?_,rfl,by simp,.inr ⟨?_,.inl rfl⟩⟩
        · simp only [List.map_nil,List.head?_nil] at next
          simp [cascadePath,read,full,next]
        · intro h member
          rw [List.mem_singleton.mp member]
          exact isFull
      | cons h post =>
        have further : Chained s ((pre ++ [g]) ++ h :: post) := by simpa using chained
        have isNext : n.nextNode = some h.ptr := by simpa using next
        obtain ⟨mid,rest,last,rfl,found,isLast,short,ends⟩ := ih (path ++ [h.ptr]) (pre ++ [g]) post h further (by simp; omega)
        have pushed : pushPath path h.ptr = some (path ++ [h.ptr]) := by
          simp only [pushPath]
          rw [if_pos (by omega)]
        refine ⟨h :: mid,rest,last,rfl,?_,?_,by simp; omega,?_⟩
        · simp only [cascadePath,read,full,isNext,pushed,found,Option.bind_eq_bind,Option.bind_some,↓reduceIte]
          simp
        · rw [List.getLast?_cons_cons]
          exact isLast
        · rcases ends with brimming | ⟨allFull,stop⟩
          · exact .inl ⟨isFull,brimming⟩
          · refine .inr ⟨?_,stop.imp id (fun h => by simp [h])⟩
            intro k member
            rcases List.mem_cons.mp member with rfl | member
            · exact isFull
            · exact allFull k member
    · refine ⟨[],post,g,rfl,by simp [cascadePath,read,full],rfl,by simp,.inl ?_⟩
      have notFull : g.slots.length ≠ N.val := fun h => full (holds.full_iff.mpr h)
      exact Nat.lt_of_le_of_ne chained.length_le notFull

/-! ## A fresh node in the chain -/

/-- The node `m` comes between the segments `as` and `bs`. -/
structure Spliced (s s' : TreeState N) (as bs : List Segment) (m : Ptr) : Prop where
  wellFormed : s'.nodes.WellFormed
  fresh : s.node m = none
  here : ∃ n : PinNode N, s'.node m = some n ∧ n.Holds [] (List.range N.val) ∧
    n.prevNode = (as.map Segment.ptr).getLast? ∧ n.nextNode = (bs.map Segment.ptr).head?
  others : ∀ y, y ≠ m → s'.node y = (s.node y).map fun e => { e with
    nextNode := if (as.map Segment.ptr).getLast? = some y then some m else e.nextNode
    prevNode := if (bs.map Segment.ptr).head? = some y then some m else e.prevNode }
  head : s'.chainHead = ((as.map Segment.ptr) ++ m :: bs.map Segment.ptr).head?
  tail : s'.chainTail = ((as.map Segment.ptr) ++ m :: bs.map Segment.ptr).getLast?
  levels : s'.levels = s.levels
  orderIndex : s'.orderIndex = s.orderIndex
  best : s'.best = s.best
  root : s'.root = s.root

theorem Spliced.hosted (spliced : Spliced s s' as bs m) (hosted : Hosted s (as ++ bs) bl) (covers : Covers (as ++ bs) bl) :
    Hosted s' (as ++ ⟨m,[]⟩ :: bs) bl ∧ Covers (as ++ ⟨m,[]⟩ :: bs) bl ∧
      ChainStep s s' (as ++ bs) (as ++ ⟨m,[]⟩ :: bs) bl := by
  have sameLocs : locs (as ++ ⟨m,[]⟩ :: bs) = locs (as ++ bs) := by simp [Segment.locs]
  have alive : ∀ g ∈ as ++ bs, g.ptr ≠ m := by
    intro g member same
    obtain ⟨n,fs,read,_⟩ := hosted.chained.holds g member
    rw [same,spliced.fresh] at read
    simp at read
  have nodup : ((as.map Segment.ptr) ++ m :: bs.map Segment.ptr).Nodup := by
    refine List.nodup_middle.mpr (List.nodup_cons.mpr ⟨?_,by simpa using hosted.chained.nodup⟩)
    intro member
    rw [← List.map_append] at member
    obtain ⟨g,inCh,same⟩ := List.mem_map.mp member
    exact alive g inCh same
  obtain ⟨n,here,holds,prev,next⟩ := spliced.here
  have level : ∀ y, s'.level y = s.level y := fun y => by simp only [TreeState.level,spliced.levels]
  have chained : Chained s' (as ++ ⟨m,[]⟩ :: bs) := by
    refine ⟨?_,by simpa using spliced.head,by simpa using spliced.tail,by simpa using nodup,?_⟩
    · have old : Linked s.nextOf s.prevOf (as.map Segment.ptr ++ bs.map Segment.ptr) := by
        simpa using hosted.chained.links
      have linked : Linked s'.nextOf s'.prevOf ((as.map Segment.ptr) ++ m :: bs.map Segment.ptr) := by
        refine linked_insert old nodup (by simpa [prevOf,here] using prev) (by simpa [nextOf,here] using next) ?_ ?_
        · intro y member
          rw [← List.map_append] at member
          obtain ⟨g,inCh,rfl⟩ := List.mem_map.mp member
          obtain ⟨e,fs,read,_⟩ := hosted.chained.holds g inCh
          simp only [nextOf,spliced.others g.ptr (alive g inCh),read,Option.map_some,Option.bind_some]
          exact ⟨fun h => by rw [if_pos h],fun h => by rw [if_neg h]⟩
        · intro y member
          rw [← List.map_append] at member
          obtain ⟨g,inCh,rfl⟩ := List.mem_map.mp member
          obtain ⟨e,fs,read,_⟩ := hosted.chained.holds g inCh
          simp only [prevOf,spliced.others g.ptr (alive g inCh),read,Option.map_some,Option.bind_some]
          exact ⟨fun h => by rw [if_pos h],fun h => by rw [if_neg h]⟩
      simpa using linked
    · intro g member
      have cases : g ∈ as ++ bs ∨ g = ⟨m,[]⟩ := by
        simp only [List.mem_append,List.mem_cons] at member ⊢
        tauto
      rcases cases with inCh | rfl
      · obtain ⟨e,fs,read,holdsG⟩ := hosted.chained.holds g inCh
        refine ⟨_,fs,by rw [spliced.others g.ptr (alive g inCh),read]; rfl,?_⟩
        exact PinNode.holds_links holdsG rfl rfl rfl rfl rfl
      · exact ⟨n,_,here,holds⟩
  refine ⟨⟨spliced.wellFormed,by rw [spliced.levels]; exact hosted.levels,chained,?_,?_,hosted.owner,?_,?_,hosted.ptrs⟩,
    sameLocs.trans covers,spliced.best,spliced.root,fun y => by rw [level],fun y _ => level y,?_,by rw [spliced.levels]⟩
  · rw [sameLocs]
    exact hosted.slots
  · intro e member
    obtain ⟨g,inCh,isNode,_⟩ := mem_locs.mp (hosted.slots e member)
    have other : e.1.pinLoc ≠ m := isNode ▸ alive g inCh
    rw [← hosted.payload e member]
    simp only [orderAt,spliced.others _ other,Option.map_map]
    rfl
  · rw [spliced.orderIndex]
    exact hosted.index
  · intro b member
    rw [level]
    exact hosted.read b member
  · have ptrs : (as ++ (⟨m,[]⟩ : Segment) :: bs).map Segment.ptr = as.map Segment.ptr ++ m :: bs.map Segment.ptr := by simp
    rw [ptrs,List.map_append]
    refine ⟨?_,?_,?_⟩
    · intro y out out'
      simp only [List.mem_append,List.mem_cons,not_or] at out out'
      have notLast : (as.map Segment.ptr).getLast? ≠ some y := fun h => out.1 (List.mem_of_getLast? h)
      have notFirst : (bs.map Segment.ptr).head? ≠ some y := fun h => out.2 (List.mem_of_head? h)
      rw [spliced.others y out'.2.1]
      cases s.node y <;> simp only [notLast,notFirst,↓reduceIte,Option.map_none,Option.map_some]
    · intro y member out
      simp only [List.mem_append,List.mem_cons,not_or] at member out
      have isNew : y = m := by tauto
      rw [isNew]
      exact spliced.fresh
    · intro y member out
      simp only [List.mem_append,List.mem_cons,not_or] at member out
      tauto

/-- `spliceNode`: a fresh node behind the last segment of `as`. -/
theorem spliceNode_spec (hosted : Hosted s (as ++ g :: bs) bl) :
    ∃ s' m, s.spliceNode g.ptr = some (s',m) ∧ Spliced s s' (as ++ [g]) bs m := by
  obtain ⟨n,fs,read,holds,_,next⟩ := hosted.chained.read
  obtain ⟨nodes,m,allocated,wf,fresh,reads,_⟩ := hosted.nodes.allocate (by decide) (PinNode.new : PinNode N)
  have nodeG : g.ptr ≠ m := by
    intro same
    rw [show s.node g.ptr = s.nodes.read g.ptr from rfl,same,fresh] at read
    simp at read
  obtain ⟨s₁,s₁Is⟩ : ∃ s₁ : TreeState N, s₁ = { s with nodes := nodes } := ⟨_,rfl⟩
  have node₁ : ∀ y, s₁.node y = if y = m then some .new else s.node y := fun y => by rw [s₁Is]; exact reads y
  obtain ⟨s₂,step₂,write₂,node₂⟩ := modifyNode_run (s := s₁) (a := m) (fun e => { e with prevNode := some g.ptr })
    (by simp [node₁])
  obtain ⟨s₃,step₃,write₃,node₃⟩ := modifyNode_run (s := s₂) (a := m) (fun e => { e with nextNode := n.nextNode })
    (by simp [node₂,node₁])
  obtain ⟨s₄,step₄,write₄,node₄⟩ := modifyNode_run (s := s₃) (a := g.ptr) (fun e => { e with nextNode := some m })
    (by simp [node₃,node₂,node₁,nodeG,nodeG.symm,read])
  have write := write₂.trans (write₃.trans write₄)
  have wf₄ : s₄.nodes.WellFormed := write.wellFormed (by rw [s₁Is]; exact wf)
  have here₄ : s₄.node m = some { (.new : PinNode N) with prevNode := some g.ptr, nextNode := n.nextNode } := by
    simp [node₄,node₃,node₂,node₁,nodeG]
  have others₄ : ∀ y, y ≠ m → s₄.node y =
      if g.ptr = y then (s.node y).map (fun e => { e with nextNode := some m }) else s.node y := by
    intro y other
    simp only [node₄,node₃,node₂,node₁,other,other.symm,↓reduceIte]
  have run : s.spliceNode g.ptr = (s₄.linkBackward (some m) n.nextNode).bind fun s => some (s,m) := by
    simp only [spliceNode,allocated,← s₁Is,show s₁.node g.ptr = some n by simp [node₁,nodeG,read],step₂,step₃,step₄,
      Option.bind_eq_bind,Option.bind_some]
  have isLast : ((as ++ [g]).map Segment.ptr).getLast? = some g.ptr := by simp
  have newHolds : ({ (.new : PinNode N) with prevNode := some g.ptr, nextNode := n.nextNode } : PinNode N).Holds []
      (List.range N.val) := PinNode.holds_links PinNode.holds_new rfl rfl rfl rfl rfl
  have tree : s₄.toNarbTree = s.toNarbTree := by rw [write.tree,s₁Is]
  have levels : s₄.levels = s.levels := by rw [write.levels,s₁Is]
  have head : s.chainHead = (((as ++ [g]).map Segment.ptr) ++ m :: bs.map Segment.ptr).head? := by
    rw [hosted.chained.head]
    cases as <;> simp
  cases bs with
  | nil =>
    simp only [List.map_nil,List.head?_nil] at next
    rw [next] at run
    refine ⟨{ s₄ with chainTail := some m },m,run,wf₄,fresh,⟨_,here₄,newHolds,isLast.symm,next⟩,?_,?_,by simp,levels,?_,
      ?_,?_⟩
    · intro y other
      rw [isLast]
      apply (others₄ y other).trans
      by_cases isG : g.ptr = y
      · simp only [isG,↓reduceIte,List.map_nil,List.head?_nil,reduceCtorEq]
      · simp only [isG,Option.some.injEq,↓reduceIte,List.map_nil,List.head?_nil,reduceCtorEq]
        cases s.node y <;> rfl
    · rw [← head,← tree]
    · rw [← tree]
    · rw [← tree]
    · rw [← tree]
  | cons h bs =>
    simp only [List.map_cons,List.head?_cons] at next
    rw [next] at run
    have distinct := hosted.chained.nodup
    simp only [List.map_append,List.map_cons,List.nodup_append,List.nodup_cons,List.mem_cons] at distinct
    have hg : h.ptr ≠ g.ptr := fun same => distinct.2.1.1 (.inl same.symm)
    obtain ⟨k,fs',readH,_⟩ := hosted.chained.holds h (by simp)
    have hm : h.ptr ≠ m := by
      intro same
      rw [show s.node h.ptr = s.nodes.read h.ptr from rfl,same,fresh] at readH
      simp at readH
    have readH₄ : s₄.node h.ptr = some k := by rw [others₄ h.ptr hm,if_neg hg.symm,readH]
    obtain ⟨s₅,step₅,write₅,node₅⟩ := modifyNode_run (s := s₄) (a := h.ptr) (fun e => { e with prevNode := some m })
      (by simp [readH₄])
    have tree₅ : s₅.toNarbTree = s.toNarbTree := write₅.tree.trans tree
    have tail : s.chainTail = (((as ++ [g]).map Segment.ptr) ++ m :: (h :: bs).map Segment.ptr).getLast? := by
      rw [hosted.chained.tail]
      simp only [List.map_append,List.map_cons,List.map_nil]
      rw [getLast?_append_cons,List.getLast?_cons_cons,getLast?_append_cons,List.getLast?_cons_cons]
    refine ⟨s₅,m,by rw [run]; simp only [linkBackward,step₅,Option.bind_some],write₅.wellFormed wf₄,fresh,
      ⟨_,by rw [node₅,if_neg hm]; exact here₄,newHolds,isLast.symm,next⟩,?_,?_,?_,write₅.levels.trans levels,?_,?_,?_⟩
    · intro y other
      rw [isLast,node₅,others₄ y other]
      simp only [List.map_cons,List.head?_cons,Option.some.injEq]
      by_cases isH : h.ptr = y
      · have notG : ¬ g.ptr = y := fun same => hg (isH.trans same.symm)
        simp only [isH,notG,↓reduceIte]
      · by_cases isG : g.ptr = y
        · simp only [isH,isG,↓reduceIte]
        · simp only [isH,isG,↓reduceIte]
          cases s.node y <;> rfl
    · rw [← head,← tree₅]
    · rw [← tail,← tree₅]
    · rw [← tree₅]
    · rw [← tree₅]
    · rw [← tree₅]

/-! ## The ripple -/

/-- At most `k` orders get another slot. -/
def MovesAtMost (k : Nat) (ρ : OrderLoc → OrderLoc) : Prop := ∃ ls : List OrderLoc, ls.length ≤ k ∧ ∀ l, l ∉ ls → ρ l = l

theorem movesAtMost_id : MovesAtMost 0 id := ⟨[],Nat.le_refl 0,fun _ _ => rfl⟩

theorem MovesAtMost.moved {k : Nat} {ρ : OrderLoc → OrderLoc} {old new : OrderLoc} (moves : MovesAtMost k ρ) :
    MovesAtMost (k + 1) (moved old new ∘ ρ) := by
  obtain ⟨ls,short,same⟩ := moves
  refine ⟨old :: ls,by simpa using short,?_⟩
  intro l out
  obtain ⟨other,out⟩ := not_or.mp (mt List.mem_cons.mpr out)
  rw [Function.comp_apply,same l out,moved_other other]

theorem MovesAtMost.mono {k k' : Nat} {ρ : OrderLoc → OrderLoc} (moves : MovesAtMost k ρ) (le : k ≤ k') : MovesAtMost k' ρ := by
  obtain ⟨ls,short,same⟩ := moves
  exact ⟨ls,short.trans le,same⟩

/-- What happens to the slots of a path, all but its first node moving one order in and one out. -/
theorem ripple_spec : ∀ (mid : List Segment) (s : TreeState N) (bl : List Block) (pre : List Segment) (x : Ptr)
    (xs : List Nat), Hosted s (pre ++ ⟨x,xs⟩ :: (mid ++ post)) bl → Covers (pre ++ ⟨x,xs⟩ :: (mid ++ post)) bl →
    Brimming N (⟨x,xs⟩ :: mid) →
    ∃ s' ρ mid' xs', s.ripple (x :: mid.map Segment.ptr) = some s' ∧
      Hosted s' (pre ++ ⟨x,xs'⟩ :: (mid' ++ post)) (bl.map (Block.rename ρ)) ∧
      Covers (pre ++ ⟨x,xs'⟩ :: (mid' ++ post)) (bl.map (Block.rename ρ)) ∧
      ChainStep s s' (pre ++ ⟨x,xs⟩ :: (mid ++ post)) (pre ++ ⟨x,xs'⟩ :: (mid' ++ post)) bl ∧
      mid'.map Segment.ptr = mid.map Segment.ptr ∧ (∀ g ∈ mid', g.slots ≠ []) ∧
      xs' = (if mid = [] then xs else xs.dropLast) ∧ xs'.length < N.val ∧
      (∀ l ∈ locs (pre ++ [⟨x,xs'⟩]), ρ l = l) ∧ MovesAtMost mid.length ρ := by
  intro mid
  induction mid with
  | nil =>
    intro s bl pre x xs hosted covers brimming
    refine ⟨s,id,[],xs,rfl,by rw [rename_id]; exact hosted,by rw [rename_id]; exact covers,ChainStep.refl _ _ _,rfl,by simp,
      rfl,brimming,fun _ _ => rfl,movesAtMost_id⟩
  | cons g mid ih =>
    intro s bl pre x xs hosted covers brimming
    obtain ⟨full,brimming⟩ := brimming
    have split : pre ++ (⟨x,xs⟩ : Segment) :: (g :: mid ++ post) = (pre ++ [⟨x,xs⟩]) ++ ⟨g.ptr,g.slots⟩ :: (mid ++ post) := by
      simp
    obtain ⟨s₁,ρ,mid',ys,step₁,hosted₁,covers₁,chainStep₁,ptrs₁,nonempty₁,ysIs,room,fixed₁,moves₁⟩ :=
      ih s bl (pre ++ [⟨x,xs⟩]) g.ptr g.slots (split ▸ hosted) (split ▸ covers) brimming
    obtain ⟨xs₀,i,rfl⟩ : ∃ xs₀ i, xs = xs₀ ++ [i] := by
      have positive := N.pos
      rcases List.eq_nil_or_concat xs with rfl | ⟨xs₀,i,rfl⟩
      · simp only [List.length_nil] at full
        omega
      · exact ⟨xs₀,i,by simp⟩
    have split' : (pre ++ [(⟨x,xs₀ ++ [i]⟩ : Segment)]) ++ ⟨g.ptr,ys⟩ :: (mid' ++ post) =
        pre ++ ⟨x,xs₀ ++ [i]⟩ :: ⟨g.ptr,ys⟩ :: (mid' ++ post) := by simp
    rw [split'] at hosted₁ covers₁ chainStep₁
    obtain ⟨s₂,j,step₂,hosted₂,covers₂,chainStep₂,_⟩ := relocateTailToHead_spec hosted₁ covers₁ room
    rw [rename_comp] at hosted₂ covers₂
    refine ⟨s₂,moved ⟨x,i⟩ ⟨g.ptr,j⟩ ∘ ρ,⟨g.ptr,j :: ys⟩ :: mid',xs₀,?_,hosted₂,covers₂,?_,by simp [ptrs₁],?_,by simp,?_,?_,
      moves₁.moved⟩
    · simp only [List.map_cons,ripple,step₁,step₂,Option.bind_eq_bind,Option.bind_some]
    · rw [split]
      exact chainStep₁.trans chainStep₂ (rename_ptrs _ _)
    · intro h member
      rcases List.mem_cons.mp member with rfl | member
      · simp
      · exact nonempty₁ h member
    · simp only [List.length_append,List.length_singleton] at full
      omega
    · intro l member
      have nodup := hosted.chained.locs_nodup
      simp only [locs_append,locs_cons,Segment.locs,List.map_append,List.map_cons,List.map_nil,List.nodup_append,
        List.mem_append,List.mem_cons,locs_nil,List.append_nil] at nodup member fixed₁
      have unmoved : ρ l = l := fixed₁ l (by tauto)
      rw [Function.comp_apply,unmoved]
      apply moved_other
      rintro rfl
      cases member with
      | inl inPre => exact nodup.2.2 _ inPre _ (by simp) rfl
      | inr inXs => exact nodup.2.1.1.2.2 _ inXs _ (by simp) rfl

theorem brimming_append {g : Segment} (room : g.slots.length < N.val) : ∀ segs : List Segment,
    (∀ h ∈ segs, h.slots.length = N.val) → Brimming N (segs ++ [g])
  | [], _ => room
  | [h], full => ⟨full h (by simp),room⟩
  | h :: k :: rest, full =>
    ⟨full h (by simp),brimming_append room (k :: rest) (fun x member => full x (by simp only [List.mem_cons] at *; tauto))⟩

/-- The chain has the same nodes as before, or a fresh one more. -/
def OneMoreNode (s : TreeState N) (ps ps' : List Ptr) : Prop :=
  ps' = ps ∨ ∃ as m bs, ps = as ++ bs ∧ ps' = as ++ m :: bs ∧ s.node m = none

/-- `make_room` on a full node: its last order leaves it, no slot in front of that one changes. -/
theorem makeRoom_spec (hosted : Hosted s (pre ++ ⟨x,xs⟩ :: post) bl) (covers : Covers (pre ++ ⟨x,xs⟩ :: post) bl)
    (full : xs.length = N.val) (nonempty : ∀ g ∈ post, g.slots ≠ []) :
    ∃ s' ρ post', s.makeRoom x = some s' ∧ Hosted s' (pre ++ ⟨x,xs.dropLast⟩ :: post') (bl.map (Block.rename ρ)) ∧
      Covers (pre ++ ⟨x,xs.dropLast⟩ :: post') (bl.map (Block.rename ρ)) ∧
      ChainStep s s' (pre ++ ⟨x,xs⟩ :: post) (pre ++ ⟨x,xs.dropLast⟩ :: post') bl ∧ (∀ g ∈ post', g.slots ≠ []) ∧
      (∀ l ∈ locs (pre ++ [⟨x,xs.dropLast⟩]), ρ l = l) ∧ MovesAtMost (kMaxCascadeHops + 1) ρ ∧
      OneMoreNode s (post.map Segment.ptr) (post'.map Segment.ptr) := by
  have started : pushPath [] x = some [x] := rfl
  obtain ⟨mid,rest,last,rfl,found,isLast,short,ends⟩ :=
    cascadePath_spec kMaxCascadeHops [x] pre post ⟨x,xs⟩ hosted.chained (by simp [kMaxCascadeHops])
  -- The last node of the walk.
  obtain ⟨front,frontIs⟩ : ∃ front, (⟨x,xs⟩ : Segment) :: mid = front ++ [last] := List.getLast?_eq_some_iff.mp isLast
  have chainIs : pre ++ (⟨x,xs⟩ : Segment) :: (mid ++ rest) = (pre ++ front) ++ last :: rest := by
    rw [← List.cons_append,frontIs]
    simp
  obtain ⟨n,fs,read,holds,_⟩ := (chainIs ▸ hosted.chained).read
  rcases ends with brimming | ⟨allFull,_⟩
  · have lastRoom : ¬ n.full = true := by
      rw [holds.full_iff]
      have tails : ∀ segs : List Segment, Brimming N segs → ∀ h, segs.getLast? = some h → h.slots.length < N.val := by
        intro segs
        induction segs with
        | nil => intro h; exact absurd h (by simp [Brimming])
        | cons g segs ih =>
          intro brimming h isLast
          cases segs with
          | nil => simp only [List.getLast?_singleton,Option.some.injEq] at isLast; exact isLast ▸ brimming
          | cons k segs => exact ih brimming.2 h (by rwa [List.getLast?_cons_cons] at isLast)
      have := tails _ brimming last isLast
      omega
    obtain ⟨s',ρ,mid',xs',executed,hosted',covers',chainStep,ptrs,nonempty',xsIs,_,fixed,moves⟩ :=
      ripple_spec mid s bl pre x xs hosted covers brimming
    have notAlone : mid ≠ [] := by
      rintro rfl
      have : xs.length < N.val := brimming
      omega
    rw [if_neg notAlone] at xsIs
    subst xsIs
    refine ⟨s',ρ,mid' ++ rest,?_,hosted',covers',chainStep,?_,fixed,moves.mono (by omega),.inl (by simp [ptrs])⟩
    · simp only [makeRoom,started,found,read,lastRoom,executed,List.singleton_append,Option.bind_eq_bind,
        Option.bind_some,↓reduceIte,Bool.false_eq_true]
    · intro g member
      cases List.mem_append.mp member with
      | inl inMid => exact nonempty' g inMid
      | inr inRest => exact nonempty g (by simp [inRest])
  · have isFull : n.full = true := holds.full_iff.mpr (allFull last (by rw [frontIs]; simp))
    obtain ⟨s₁,m,step₁,spliced⟩ := spliceNode_spec (chainIs ▸ hosted)
    have joined : (pre ++ front ++ [last]) ++ rest = pre ++ (⟨x,xs⟩ : Segment) :: (mid ++ rest) := by
      rw [chainIs]
      simp
    obtain ⟨hosted₁,covers₁,chainStep₁⟩ := spliced.hosted (joined ▸ hosted) (joined ▸ covers)
    have split : pre ++ front ++ [last] ++ (⟨m,[]⟩ : Segment) :: rest = pre ++ ⟨x,xs⟩ :: ((mid ++ [⟨m,[]⟩]) ++ rest) := by
      rw [List.append_assoc pre,← frontIs]
      simp
    rw [split] at hosted₁ covers₁ chainStep₁
    rw [joined] at chainStep₁
    have brimming : Brimming N (⟨x,xs⟩ :: (mid ++ [⟨m,[]⟩])) := 
      brimming_append (g := ⟨m,[]⟩) N.pos (⟨x,xs⟩ :: mid) allFull
    obtain ⟨s',ρ,mid',xs',executed,hosted',covers',chainStep,ptrs,nonempty',xsIs,_,fixed,moves⟩ :=
      ripple_spec (mid ++ [⟨m,[]⟩]) s₁ bl pre x xs hosted₁ covers₁ brimming
    rw [if_neg (by simp)] at xsIs
    subst xsIs
    have pushed : pushPath ([x] ++ mid.map Segment.ptr) m =
        some (x :: (mid ++ [(⟨m,[]⟩ : Segment)]).map Segment.ptr) := by
      simp only [pushPath]
      rw [if_pos]
      · simp
      · simp only [List.length_append,List.length_singleton,List.length_map]
        omega
    refine ⟨s',ρ,mid' ++ rest,?_,hosted',covers',chainStep₁.trans chainStep rfl,?_,fixed,
      moves.mono (by simpa using short),.inr ⟨mid.map Segment.ptr,m,rest.map Segment.ptr,by simp,by simp [ptrs],spliced.fresh⟩⟩
    · simp only [makeRoom,started,found,read,isFull,step₁,pushed,executed,Option.bind_eq_bind,Option.bind_some,↓reduceIte]
    · intro g member
      cases List.mem_append.mp member with
      | inl inMid => exact nonempty' g inMid
      | inr inRest => exact nonempty g (by simp [inRest])

end TreeState

end BaboEngine
