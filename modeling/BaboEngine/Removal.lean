import BaboEngine.Rebalance

/-!
# Taking a level out of the tree

`rb_delete_node`: a level with one child at most is replaced by that child, any
other by its successor, which is the minimum of its right subtree and stays at
its address.
-/

namespace BaboEngine
open RedBlack

namespace TreeState
variable {N : Capacity} {s s' : TreeState N} {F : Ptr → Prop}
variable {p q : List (Frame Ptr)} {t l r v : Shape Ptr} {c c' : Color} {y z u a : Ptr}

theorem cells_of_level {d : PriceLevel} (read : s.level a = some d) : s.cells a = some d.cell := by
  simp [cells,read]

theorem context_live {root hole : Option Ptr} (context : Context s.cells none root p hole) (isTop : top none p = some a) :
    s.level a ≠ none := by
  intro dead
  rcases p with _ | ⟨⟨c,b,r⟩ | ⟨c,l,b⟩,p⟩ <;> simp only [top_nil,top_cons,Frame.addr,reduceCtorEq,Option.some.injEq] at isTop
  · have here := context.1
    simp [cells,isTop,dead] at here
  · have here := context.1
    simp [cells,isTop,dead] at here

theorem shaped_live {o : Option Ptr} (shaped : Shaped s.cells o t) (isRoot : t.root = some a) : s.level a ≠ none := by
  intro dead
  cases t with
  | nil => simp at isRoot
  | node c l b r =>
    have here := shaped.1
    simp only [Shape.root_node,Option.some.injEq] at isRoot
    simp [cells,isRoot,dead] at here

/-- A subtree that is put in the place of the level `u`. -/
theorem transplant_spec {o : Option Ptr} {d : PriceLevel} (context : Context s.cells none s.root p (some u))
    (read : s.level u = some d) (parent : d.parent = top none p) (shaped : Shaped s.cells o v)
    (nodup : (before p ++ (v.inorder ++ after p)).Nodup) (outside : u ∉ before p)
    (inside : ∀ x ∈ before p ++ (v.inorder ++ after p), F x) :
    ∃ s', s.transplant u v.root = some s' ∧ Rewired F s s' ∧ Indexed F s' (zip p v) ∧
      ∀ x, x ∉ before p ++ (v.inorder ++ after p) → s'.level x = s.level x := by
  have apart := nodup
  simp only [List.nodup_append,List.mem_append] at apart
  have notRoot : ∀ x ∈ before p ++ after p, v.root ≠ some x := by
    intro x member isRoot
    have inside := Shape.root_mem isRoot
    rcases List.mem_append.mp member with m | m <;> grind
  have notTop : ∀ x ∈ v.inorder, top none p ≠ some x := by
    intro x member isTop
    rcases List.mem_append.mp (top_mem isTop) with m | m <;> grind
  obtain ⟨s₁,step₁,links₁,root₁,level₁⟩ := replaceChild_spec (s := s) (p := d.parent) (u := u) (v := v.root)
    (fun q isTop => context_live context (parent ▸ isTop))
  obtain ⟨s₂,step₂,links₂,root₂,level₂⟩ := modifyLevelIf_spec (s := s₁) (p := v.root)
    (f := fun e => { e with parent := d.parent }) (by
      intro x isRoot
      rw [level₁,if_neg (parent ▸ notTop x (Shape.root_mem isRoot))]
      exact shaped_live shaped isRoot) (fun _ => rfl)
  have kept : ∀ x, x ∉ before p ++ (v.inorder ++ after p) → s₂.level x = s.level x := by
    intro x out
    simp only [List.mem_append,not_or] at out
    have notTop' : top none p ≠ some x := fun isTop => by
      cases List.mem_append.mp (top_mem isTop) with
      | inl m => exact out.1 m
      | inr m => exact out.2.2 m
    have notRoot' : v.root ≠ some x := fun isRoot => out.2.1 (Shape.root_mem isRoot)
    simp only [level₂,level₁,parent,notTop',notRoot',↓reduceIte]
  refine ⟨s₂,?_,⟨links₁.trans links₂,fun x out => kept x (fun m => out (inside x m))⟩,
    indexed_zip ?_ ?_ nodup inside,kept⟩
  · simp only [transplant,read,step₁,step₂,Option.bind_eq_bind,Option.bind_some]
  · refine context_relink context ?_ outside ?_ (by rw [root₂,root₁,parent])
    · exact (List.Sublist.append_left (List.sublist_append_right _ _) _).nodup nodup
    · intro x member
      simp only [cells,level₂,level₁,notRoot x member,parent,↓reduceIte]
      split_ifs
      · simp only [Option.map_map]
        congr 1
        funext e
        simp
      · rfl
  · apply shaped_reparent (top none p) shaped (by grind)
    intro x member
    simp only [cells,level₂,level₁,parent,notTop x member,↓reduceIte]
    split_ifs
    · simp only [Option.map_map]
      rfl
    · rfl

/-- The walk down the left links ends at the first level of the subtree. -/
theorem treeMinimumLoop_spec (l : Shape Ptr) : ∀ (p : List (Frame Ptr)) (c : Color) (a : Ptr) (r : Shape Ptr)
    (rounds : Nat), Indexed F s (zip p (.node c l a r)) → l.inorder.length < rounds →
    ∃ q c' m r', s.treeMinimumLoop rounds a = some m ∧ zip q (.node c' .nil m r') = .node c l a r ∧ before q = [] := by
  induction l with
  | nil =>
    intro p c a r rounds indexed enough
    obtain ⟨k,rfl⟩ : ∃ k, rounds = k+1 := ⟨rounds-1,by simp only [Shape.inorder_nil,List.length_nil] at enough; omega⟩
    obtain ⟨d,read,left,_⟩ := indexed.read
    exact ⟨[],c,a,r,by simp [treeMinimumLoop,read,left],rfl,rfl⟩
  | node c' l' a' r' ih _ =>
    intro p c a r rounds indexed enough
    simp only [Shape.inorder_node,List.length_append,List.length_cons] at enough
    obtain ⟨k,rfl⟩ : ∃ k, rounds = k+1 := ⟨rounds-1,by omega⟩
    obtain ⟨d,read,left,_⟩ := indexed.read
    obtain ⟨q,d',m,r'',found,zipIs,first⟩ := ih (.left c a r :: p) c' a' r' k indexed (by omega)
    refine ⟨q ++ [.left c a r],d',m,r'',?_,by rw [zip_append,zipIs]; rfl,by simp [before_append,before,first]⟩
    simp [treeMinimumLoop,read,left,found]

/-! ## A level with two children -/

/-- The state between the two halves of the removal: `y` outside of the tree, owning
    the right subtree of `z`. -/
structure Detached (F : Ptr → Prop) (s : TreeState N) (p : List (Frame Ptr)) (c : Color) (l r : Shape Ptr)
    (z y : Ptr) : Prop where
  context : Context s.cells none s.root p (some z)
  left : Shaped s.cells (some z) l
  right : Shaped s.cells (some y) r
  old : ∃ d, s.level z = some d ∧ d.left = l.root ∧ d.parent = top none p ∧ d.color = c
  fresh : ∃ d, s.level y = some d ∧ d.right = r.root
  nodup : (before p ++ (l.inorder ++ z :: y :: r.inorder ++ after p)).Nodup
  inside : ∀ x ∈ before p ++ (l.inorder ++ z :: y :: r.inorder ++ after p), F x

theorem takePlace_spec (detached : Detached F s p c l r z y) (leftChild : l ≠ .nil) :
    ∃ s', s.takePlace z y = some s' ∧ Rewired F s s' ∧ Indexed F s' (zip p (.node c l y r)) := by
  obtain ⟨context,left,right,⟨dz,readZ,leftZ,parentZ,colorZ⟩,⟨dy,readY,rightY⟩,nodup,inside⟩ := detached
  have apart := nodup
  simp only [List.nodup_append,List.nodup_cons,List.mem_append,List.mem_cons] at apart
  have topOut : ∀ x, top none p = some x → x ≠ z ∧ x ≠ y ∧ x ∉ l.inorder ∧ x ∉ r.inorder := by
    intro x isTop
    rcases List.mem_append.mp (top_mem isTop) with m | m <;> grind
  have rootIn : ∀ x, l.root = some x → x ∈ l.inorder := fun x => Shape.root_mem
  obtain ⟨w,isRoot⟩ : ∃ w, l.root = some w := by
    cases l with
    | nil => exact absurd rfl leftChild
    | node c l w r => exact ⟨w,rfl⟩
  have notTopZ : top none p ≠ some z := fun h => (topOut z h).1 rfl
  have notTopY : top none p ≠ some y := fun h => (topOut y h).2.1 rfl
  have notTopW : top none p ≠ some w := fun h => (topOut w h).2.2.1 (rootIn w isRoot)
  have yz : y ≠ z := by grind
  have wz : w ≠ z := by have := rootIn w isRoot; grind
  have wy : w ≠ y := by have := rootIn w isRoot; grind
  obtain ⟨s₁,step₁,links₁,root₁,level₁⟩ := replaceChild_spec (s := s) (p := dz.parent) (u := z) (v := some y)
    (fun q isTop => context_live context (parentZ ▸ isTop))
  obtain ⟨s₂,step₂,links₂,root₂,level₂⟩ := modifyLevelIf_spec (s := s₁) (p := some y)
    (f := fun e => { e with parent := dz.parent }) (by
      intro x isY
      obtain rfl := Option.some.inj isY
      rw [level₁,parentZ,if_neg notTopY]
      simp [readY]) (fun _ => rfl)
  have readZ₂ : s₂.level z = some dz := by simp [level₂,level₁,parentZ,notTopZ,yz,readZ]
  obtain ⟨s₃,step₃,links₃,root₃,level₃⟩ := modifyLevel_spec (s := s₂) (a := y)
    (f := fun e => { e with left := dz.left }) (by simp [level₂,level₁,parentZ,notTopY,readY]) (fun _ => rfl)
  obtain ⟨s₄,step₄,links₄,root₄,level₄⟩ := modifyLevel_spec (s := s₃) (a := w)
    (f := fun e => { e with parent := some y }) (by
      simpa [level₃,level₂,level₁,parentZ,notTopW,wy.symm] using shaped_live left isRoot) (fun _ => rfl)
  obtain ⟨s₅,step₅,links₅,root₅,level₅⟩ := modifyLevel_spec (s := s₄) (a := y)
    (f := fun e => { e with color := dz.color }) (by
      simp [level₄,level₃,level₂,level₁,parentZ,notTopY,wy,readY]) (fun _ => rfl)
  have others : ∀ x, x ≠ y → x ≠ w → s₅.cells x =
      if top none p = some x then (s.cells x).map (Cell.relink z (some y)) else s.cells x := by
    intro x notY notW
    simp only [cells,level₅,level₄,level₃,level₂,level₁,parentZ,notY.symm,notW.symm,Option.some.injEq,↓reduceIte]
    split_ifs
    · simp only [Option.map_map]
      congr 1
      funext e
      simp
    · rfl
  have parts : (before p ++ ((Shape.node c l y r).inorder ++ after p)).Nodup := by
    refine List.Sublist.nodup ?_ nodup
    simp
  have member : ∀ x ∈ before p ++ ((Shape.node c l y r).inorder ++ after p), F x := by
    intro x m
    apply inside
    simp only [Shape.inorder_node,List.mem_append,List.mem_cons] at m ⊢
    tauto
  have rewired : Rewired F s s₅ := by
    apply rewired_of_cells (links₁.trans (links₂.trans (links₃.trans (links₄.trans links₅))))
    intro x out
    have notTop : top none p ≠ some x := fun isTop => out (inside x (by
      rcases List.mem_append.mp (top_mem isTop) with m | m <;> simp [m]))
    rw [others x (fun same => out (same ▸ inside y (by simp)))
      (fun same => out (same ▸ inside w (by simp [rootIn w isRoot]))),if_neg notTop]
  refine ⟨s₅,?_,rewired,indexed_zip ?_ ?_ parts member⟩
  · have leftIs : dz.left = some w := leftZ.trans isRoot
    rw [leftIs] at step₃
    simp only [takePlace,transplant,readZ,step₁,step₂,readZ₂,leftIs,step₃,step₄,setColor,step₅,Option.bind_eq_bind,
      Option.bind_some]
  · refine context_relink context ?_ (by grind) ?_
      (by rw [root₅,root₄,root₃,root₂,root₁,parentZ,Shape.root_node])
    · exact (List.Sublist.append_left (List.sublist_append_right _ _) _).nodup parts
    · intro x member
      apply others
      · rcases List.mem_append.mp member with m | m <;> grind
      · have := rootIn w isRoot
        rcases List.mem_append.mp member with m | m <;> grind
  · refine ⟨?_,?_,?_⟩
    · simp [cells,level₅,level₄,level₃,level₂,level₁,parentZ,notTopY,wy,readY,PriceLevel.cell,leftZ,rightY,colorZ]
    · apply shaped_reparent (some y) left (by grind)
      intro x member
      by_cases isW : x = w
      · subst isW
        simp only [cells,level₅,level₄,level₃,level₂,level₁,parentZ,notTopW,wy.symm,isRoot,Option.some.injEq,↓reduceIte,
          Option.map_map]
        rfl
      · have notTop : top none p ≠ some x := fun h => (topOut x h).2.2.1 member
        rw [others x (by grind) isW]
        have other : ¬ w = x := fun h => isW h.symm
        simp [notTop,isRoot,other]
    · apply shaped_congr right
      intro x member
      have notTop : top none p ≠ some x := fun h => (topOut x h).2.2.2 member
      rw [others x (by grind) (by have := rootIn w isRoot; grind),if_neg notTop]

/-- The successor takes over the right subtree of `z`, when that is not empty. -/
theorem adoptRight_spec {w : Ptr} {dy dz : PriceLevel} (above : Indexed F s (zip p (.node c l z v)))
    (readY : s.level y = some dy) (readZ : s.level z = some dz) (isRoot : v.root = some w)
    (parts : (before p ++ (l.inorder ++ z :: y :: v.inorder ++ after p)).Nodup)
    (member : ∀ x ∈ before p ++ (l.inorder ++ z :: y :: v.inorder ++ after p), F x) :
    ∃ s₂ s₃, s.modifyLevel y (fun e => { e with right := some w }) = some s₂ ∧
      s₂.modifyLevel w (fun e => { e with parent := some y }) = some s₃ ∧ Rewired F s s₃ ∧ Detached F s₃ p c l v z y := by
  obtain ⟨dz',readZ',leftZ,_,parentZ,colorZ⟩ := above.read
  obtain rfl : dz' = dz := Option.some.inj (readZ'.symm.trans readZ)
  have apart := parts
  simp only [List.nodup_append,List.nodup_cons,List.mem_append,List.mem_cons] at apart
  have inside : w ∈ v.inorder := Shape.root_mem isRoot
  have yw : y ≠ w := by grind
  have yz : y ≠ z := by grind
  have wz : w ≠ z := by grind
  obtain ⟨s₂,step₂,links₂,root₂,level₂⟩ := modifyLevel_spec (s := s) (a := y)
    (f := fun e => { e with right := some w }) (by simp [readY]) (fun _ => rfl)
  obtain ⟨s₃,step₃,links₃,root₃,level₃⟩ := modifyLevel_spec (s := s₂) (a := w)
    (f := fun e => { e with parent := some y }) (by
      rw [level₂,if_neg yw]
      apply above.live
      rw [inorder_zip]
      simp only [Shape.inorder_node,List.mem_append,List.mem_cons]
      tauto) (fun _ => rfl)
  have others : ∀ x, x ≠ y → x ≠ w → s₃.level x = s.level x := by
    intro x notY notW
    rw [level₃,if_neg notW.symm,level₂,if_neg notY.symm]
  have rewired : Rewired F s s₃ := by
    refine ⟨links₂.trans links₃,fun x out => others x ?_ ?_⟩
    · exact fun same => out (same ▸ member y (by simp))
    · exact fun same => out (same ▸ member w (by simp only [List.mem_append,List.mem_cons]; tauto))
  obtain ⟨context,_,left,right⟩ := above.focus
  refine ⟨s₂,s₃,step₂,step₃,rewired,?_,?_,?_,⟨dz',?_,leftZ,parentZ,colorZ⟩,⟨{ dy with right := some w },?_,isRoot.symm⟩,
    parts,member⟩
  · rw [root₃,root₂]
    apply context_congr context
    intro x member
    simp only [cells]
    rw [others x (by rcases List.mem_append.mp member with m | m <;> grind)
      (by rcases List.mem_append.mp member with m | m <;> grind)]
  · apply shaped_congr left
    intro x member
    simp only [cells]
    rw [others x (by grind) (by grind)]
  · apply shaped_reparent (some y) right (by grind)
    intro x member
    have notY : ¬ y = x := by grind
    simp only [cells,level₃,level₂,notY,↓reduceIte,isRoot,Option.some.injEq]
    split_ifs
    · simp only [Option.map_map]
      rfl
    · rfl
  · rw [others z yz.symm wz.symm]
    exact readZ
  · rw [level₃,if_neg yw.symm,level₂,if_pos rfl,readY]
    rfl

theorem detachSuccessor_spec (indexed : Indexed F s (zip (q ++ .right c l z :: p) (.node c' .nil y r))) :
    ∃ s', s.detachSuccessor z y = some (s',top none (q ++ .right c l y :: p)) ∧ Rewired F s s' ∧
      Detached F s' p c l (zip q r) z y := by
  have distinct := indexed.distinct
  obtain ⟨dy,readY,leftY,rightY,parentY,_⟩ := indexed.read
  have parts : (before p ++ (l.inorder ++ z :: y :: (zip q r).inorder ++ after p)).Nodup := by
    refine (List.Perm.nodup_iff ?_).mpr distinct
    simp only [inorder_zip,before_append,after_append,before,after,Shape.inorder_node,Shape.inorder_nil,
      List.nil_append,List.cons_append,List.append_assoc]
    refine List.Perm.append_left _ (List.Perm.append_left _ (List.Perm.cons z ?_))
    exact List.perm_middle.symm
  have member : ∀ x ∈ before p ++ (l.inorder ++ z :: y :: (zip q r).inorder ++ after p), F x := by
    intro x m
    apply indexed.member
    simp only [inorder_zip,before_append,after_append,before,after,Shape.inorder_node,Shape.inorder_nil,
      List.mem_append,List.mem_cons] at m ⊢
    tauto
  cases q with
  | nil =>
    -- The successor is the right child.
    have above : Indexed F s (zip p (.node c l z (.node c' .nil y r))) := indexed
    obtain ⟨context,_,left,_,_,right⟩ := above.focus
    obtain ⟨dz,readZ,leftZ,_,parentZ,colorZ⟩ := above.read
    have parentIs : dy.parent = some z := parentY
    refine ⟨s,?_,Rewired.refl s,context,left,right,⟨dz,readZ,leftZ,parentZ,colorZ⟩,⟨dy,readY,rightY⟩,parts,member⟩
    simp [detachSuccessor,readY,parentIs,Frame.addr]
  | cons f q =>
    -- The successor is deeper: its right subtree takes its place first.
    obtain ⟨context,_,_,shaped⟩ := indexed.focus
    have apart := distinct
    simp only [Shape.inorder_node,Shape.inorder_nil,List.nil_append,List.nodup_append,List.nodup_cons,List.mem_append,
      List.mem_cons] at apart
    obtain ⟨s₁,step₁,rewired₁,indexed₁,level₁⟩ := transplant_spec context readY parentY shaped
      (List.Sublist.nodup (by simp) distinct) (by grind) (fun x m => indexed.member x (by
        simp only [Shape.inorder_node,List.mem_append,List.mem_cons] at m ⊢; tauto))
    have above : Indexed F s₁ (zip p (.node c l z (zip (f :: q) r))) := by
      rw [zip_append] at indexed₁
      exact indexed₁
    have readY₁ : s₁.level y = some dy := by
      rw [level₁ y (by simp only [List.mem_append]; grind)]
      exact readY
    obtain ⟨dz,readZ,_,rightZ,_⟩ := above.read
    obtain ⟨w,isRoot⟩ := Option.isSome_iff_exists.mp
      (root_zip_isSome q (t := f.plug r) (by cases f <;> rfl))
    have rightIs : dz.right = some w := rightZ.trans isRoot
    obtain ⟨s₂,s₃,step₂,step₃,rewired,detached⟩ := adoptRight_spec above readY₁ readZ isRoot parts member
    refine ⟨s₃,?_,rewired₁.trans rewired,detached⟩
    have notParent : dy.parent ≠ some z := by
      rw [parentY]
      intro isParent
      have isAddr : f.addr = z := Option.some.inj isParent
      have onPath : f.addr ∈ before (f :: q) ++ after (f :: q) := addr_mem f q
      have apart' := parts
      rw [inorder_zip] at apart'
      simp only [List.nodup_append,List.nodup_cons,List.mem_append,List.mem_cons] at apart' onPath
      grind
    simp only [detachSuccessor,readY,notParent,rightY,step₁,readZ,rightIs,step₂,step₃,Option.bind_eq_bind,
      Option.bind_some,↓reduceIte]
    rw [parentY]
    rfl

/-- Where the removed cell was black, the focus below it lacks a black level. -/
theorem short_of_black {n : Nat} (balanced : Balanced n (.node .black l a r)) :
    ∃ m, n = m+1 ∧ Short m l ∧ Short m r := by
  cases n with
  | zero => exact absurd balanced balanced_black_zero
  | succ m =>
    have short : ∀ t : Shape Ptr, Balanced m t → Short m t := by
      intro t balanced
      cases color : t.color with
      | black => exact .inl ⟨color,balanced⟩
      | red => exact .inr ⟨color,balanced_paint balanced color⟩
    obtain ⟨left,right⟩ := balanced_black_succ.mp balanced
    exact ⟨m,rfl,short l left,short r right⟩

/-- The end of a removal: fix-up where the removed colour was black. -/
theorem finish_removal {n : Nat} (wf : s.levels.WellFormed) (indexed : Indexed F s (zip p t)) (room : Room n p)
    (red : c = .red → Balanced n t ∧ t.color = .black) (black : c = .black → ∃ m, n = m+1 ∧ Short m t) :
    ∃ s' u, (if c = .black then s.rbDeleteFixup t.root (top none p) else some s) = some s' ∧ Rewired F s s' ∧
      Indexed F s' u ∧ u.inorder = (zip p t).inorder ∧ Valid u := by
  cases c with
  | red =>
    obtain ⟨balanced,isBlack⟩ := red rfl
    exact ⟨s,_,by simp,Rewired.refl s,indexed,rfl,valid_zip balanced room (.inl isBlack)⟩
  | black =>
    obtain ⟨m,rfl,short⟩ := black rfl
    obtain ⟨s',u,executed,rest⟩ := rbDeleteFixup_spec wf indexed room short
    exact ⟨s',u,by simpa using executed,rest⟩

/-- Removal of a level: its address leaves the order of the tree, the rules hold again. -/
theorem rbDeleteNode_spec (wf : s.levels.WellFormed) (indexed : Indexed F s (zip p (.node c l z r)))
    (valid : Valid (zip p (.node c l z r))) : ∃ s' u, s.rbDeleteNode z = some s' ∧ Rewired F s s' ∧ Indexed F s' u ∧
      u.inorder = before p ++ (l.inorder ++ (r.inorder ++ after p)) ∧ Valid u := by
  obtain ⟨n,balanced,room,_⟩ := room_of_valid valid
  obtain ⟨d,read,left,right,parent,color⟩ := indexed.read
  obtain ⟨context,_,shapedL,shapedR⟩ := indexed.focus
  have distinct := indexed.distinct
  have apart := distinct
  simp only [Shape.inorder_node,List.nodup_append,List.nodup_cons,List.mem_append,List.mem_cons] at apart
  cases l with
  | nil =>
    obtain ⟨s₁,step₁,rewired₁,indexed₁,_⟩ := transplant_spec context read parent shapedR
      (List.Sublist.nodup (by simp) distinct) (by grind) (fun x m => indexed.member x (by
        simp only [Shape.inorder_node,List.mem_append,List.mem_cons] at m ⊢; tauto))
    obtain ⟨s₂,u,step₂,rewired₂,indexed₂,sameOrder,valid₂⟩ := finish_removal (c := c) (rewired₁.links.wellFormed wf) indexed₁ room
      (by rintro rfl; exact ⟨(balanced_red.mp balanced).2.1,(balanced_red.mp balanced).2.2.2⟩)
      (by rintro rfl; obtain ⟨m,total,_,short⟩ := short_of_black balanced; exact ⟨m,total,short⟩)
    refine ⟨s₂,u,?_,rewired₁.trans rewired₂,indexed₂,by rw [sameOrder,inorder_zip]; simp,valid₂⟩
    have noLeft : d.left = none := left
    simp only [rbDeleteNode,read,noLeft,right,parent,color,step₁,step₂,Option.bind_eq_bind,Option.bind_some]
  | node cl ll la lr =>
    cases r with
    | nil =>
      obtain ⟨s₁,step₁,rewired₁,indexed₁,_⟩ := transplant_spec context read parent shapedL
        (List.Sublist.nodup (by simp) distinct) (by grind) (fun x m => indexed.member x (by
          simp only [Shape.inorder_node,List.mem_append,List.mem_cons] at m ⊢; tauto))
      obtain ⟨s₂,u,step₂,rewired₂,indexed₂,sameOrder,valid₂⟩ := finish_removal (c := c) (rewired₁.links.wellFormed wf) indexed₁ room
        (by rintro rfl; exact ⟨(balanced_red.mp balanced).1,(balanced_red.mp balanced).2.2.1⟩)
        (by rintro rfl; obtain ⟨m,total,short,_⟩ := short_of_black balanced; exact ⟨m,total,short⟩)
      refine ⟨s₂,u,?_,rewired₁.trans rewired₂,indexed₂,by rw [sameOrder,inorder_zip]; simp,valid₂⟩
      have noRight : d.right = none := right
      have isLeft : d.left = some la := left
      simp only [Shape.root_node] at step₁ step₂
      simp only [rbDeleteNode,read,noRight,isLeft,parent,color,step₁,step₂,Option.bind_eq_bind,Option.bind_some]
    | node cr rl ra rr =>
      have below : Indexed F s (zip (.right c (.node cl ll la lr) z :: p) (.node cr rl ra rr)) := indexed
      have enough : rl.inorder.length < s.levels.nbElements + 1 := by
        have counted := wf.length_le indexed.nodup (fun a member => indexed.live member)
        rw [inorder_zip] at counted
        simp only [Shape.inorder_node,List.length_append,List.length_cons] at counted
        omega
      obtain ⟨q,cy,y,yr,found,zipIs,first⟩ := treeMinimumLoop_spec rl _ cr ra rr _ below enough
      rw [← zipIs,← zip_append] at below
      obtain ⟨dy,readY,_,rightY,_,colorY⟩ := below.read
      obtain ⟨s₁,step₁,rewired₁,detached⟩ := detachSuccessor_spec below
      obtain ⟨s₂,step₂,rewired₂,indexed₂⟩ := takePlace_spec detached (by simp)
      have replaced : Indexed F s₂ (zip (q ++ .right c (.node cl ll la lr) y :: p) yr) := by
        rw [zip_append]
        exact indexed₂
      have valid' : Valid (zip (q ++ .right c (.node cl ll la lr) z :: p) (.node cy .nil y yr)) := by
        rw [zip_append,zipIs]
        exact valid
      obtain ⟨k,balancedY,roomY,_⟩ := room_of_valid valid'
      obtain ⟨s₃,u,step₃,rewired₃,indexed₃,sameOrder,valid₃⟩ := finish_removal (c := cy)
        ((rewired₁.trans rewired₂).links.wellFormed wf) replaced (room_replace roomY)
        (by rintro rfl; exact ⟨(balanced_red.mp balancedY).2.1,(balanced_red.mp balancedY).2.2.2⟩)
        (by rintro rfl; obtain ⟨m,total,_,short⟩ := short_of_black balancedY; exact ⟨m,total,short⟩)
      refine ⟨s₃,u,?_,rewired₁.trans (rewired₂.trans rewired₃),indexed₃,?_,valid₃⟩
      · have isLeft : d.left = some la := left
        have isRight : d.right = some ra := right
        have minimum : s.treeMinimum ra = some y := found
        simp only [rbDeleteNode,read,isLeft,isRight,minimum,readY,step₁,step₂,colorY,rightY,step₃,Option.bind_eq_bind,
          Option.bind_some]
      · have order : y :: (yr.inorder ++ after q) = (Shape.node cr rl ra rr).inorder := by
          rw [← zipIs,inorder_zip,first]
          simp
        rw [sameOrder,inorder_zip,before_append,after_append,first,← order]
        simp [before,after]

end TreeState

end BaboEngine
