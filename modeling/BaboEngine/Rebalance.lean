import BaboEngine.PriceIndex

/-!
# Rebalancing

`insert_rebalance` and `rb_delete_fixup` seen at a focus of the tree. Each
case of the source is one lemma about the shape it finds and the shape it
leaves; the loops are inductions on the rounds, which the length of the path above the
focus bounds. None of the links they follow is null.
-/

namespace BaboEngine
open RedBlack

namespace TreeState
variable {N : Capacity} {s s' s'' : TreeState N} {F : Ptr → Prop}
variable {p : List (Frame Ptr)} {t l r b X Y L R : Shape Ptr} {c c' : Color} {x y g u a a' : Ptr} {xs : List Ptr}

/-- A tree with the levels `xs` in order that obeys the rules once its root is painted black. -/
def Repaired (F : Ptr → Prop) (s s' : TreeState N) (xs : List Ptr) : Prop :=
  Rewired F s s' ∧ ∃ t, Indexed F s' t ∧ t.inorder = xs ∧ Valid (t.paint .black)

theorem Repaired.after (rewired : Rewired F s s') (repaired : Repaired F s' s'' xs) : Repaired F s s'' xs := by
  obtain ⟨later,rest⟩ := repaired
  exact ⟨rewired.trans later,rest⟩

theorem paint_of_color (color : t.color = c) : t.paint c = t := by
  cases t with
  | nil => rfl
  | node d l a r => simp only [Shape.color_node] at color; simp [Shape.paint,color]

theorem balanced_paint {n : Nat} (balanced : Balanced n t) (red : t.color = .red) :
    Balanced (n+1) (t.paint .black) := by
  cases t with
  | nil => simp at red
  | node c l a r =>
    simp only [Shape.color_node] at red
    subst red
    rw [balanced_red] at balanced
    simp [Shape.paint,balanced]

theorem red_iff_node (red : Y.color = .red) : ∃ l a r, Y = .node .red l a r := by
  cases Y with
  | nil => simp at red
  | node c l a r =>
    simp only [Shape.color_node] at red
    exact ⟨l,a,r,by rw [red]⟩

/-! ## Insertion -/

/-- Red uncle to the right: the red moves two levels up. -/
theorem recolorLeft_spec (indexed : Indexed F s (zip p (.node .black (.node .red L u R) g (.node .red l y r)))) :
    ∃ s₁ s₂ s₃, s.setColor u .black = some s₁ ∧ s₁.setColor y .black = some s₂ ∧ s₂.setColor g .red = some s₃ ∧
      Rewired F s s₃ ∧ Indexed F s₃ (zip p (.node .red (.node .black L u R) g (.node .black l y r))) := by
  obtain ⟨s₁,step₁,rewired₁,indexed₁⟩ :=
    setColor_spec (s := s) (p := .left .black g (.node .red l y r) :: p) indexed .black
  obtain ⟨s₂,step₂,rewired₂,indexed₂⟩ :=
    setColor_spec (s := s₁) (p := .right .black (.node .black L u R) g :: p) indexed₁ .black
  obtain ⟨s₃,step₃,rewired₃,indexed₃⟩ := setColor_spec (s := s₂) (p := p) indexed₂ .red
  exact ⟨s₁,s₂,s₃,step₁,step₂,step₃,rewired₁.trans (rewired₂.trans rewired₃),indexed₃⟩

theorem recolorRight_spec (indexed : Indexed F s (zip p (.node .black (.node .red l y r) g (.node .red L u R)))) :
    ∃ s₁ s₂ s₃, s.setColor u .black = some s₁ ∧ s₁.setColor y .black = some s₂ ∧ s₂.setColor g .red = some s₃ ∧
      Rewired F s s₃ ∧ Indexed F s₃ (zip p (.node .red (.node .black l y r) g (.node .black L u R))) := by
  obtain ⟨s₁,step₁,rewired₁,indexed₁⟩ :=
    setColor_spec (s := s) (p := .right .black (.node .red l y r) g :: p) indexed .black
  obtain ⟨s₂,step₂,rewired₂,indexed₂⟩ :=
    setColor_spec (s := s₁) (p := .left .black g (.node .black L u R) :: p) indexed₁ .black
  obtain ⟨s₃,step₃,rewired₃,indexed₃⟩ := setColor_spec (s := s₂) (p := p) indexed₂ .red
  exact ⟨s₁,s₂,s₃,step₁,step₂,step₃,rewired₁.trans (rewired₂.trans rewired₃),indexed₃⟩

/-- Black uncle, red grandchild `x` on the outside: one rotation. -/
theorem raiseParentRight_spec (indexed : Indexed F s (zip p (.node .black (.node .red (.node c l x r) u R) g Y))) :
    ∃ s', s.raiseParentRight x = some s' ∧ Rewired F s s' ∧
      Indexed F s' (zip p (.node .black (.node c l x r) u (.node .red R g Y))) := by
  have outer : Indexed F s (zip (.left .red u R :: .left .black g Y :: p) (.node c l x r)) := indexed
  obtain ⟨dx,readX,_,_,parentX,_⟩ := outer.read
  obtain ⟨s₁,step₁,rewired₁,indexed₁⟩ := setColor_spec (s := s) (p := .left .black g Y :: p) indexed .black
  obtain ⟨d,read,_,_,parent,_⟩ := indexed₁.read
  obtain ⟨s₂,step₂,rewired₂,indexed₂⟩ := setColor_spec (s := s₁) (p := p) indexed₁ .red
  obtain ⟨s₃,step₃,rewired₃,indexed₃⟩ := rightRotate_spec (s := s₂) (p := p) indexed₂
  refine ⟨s₃,?_,rewired₁.trans (rewired₂.trans rewired₃),indexed₃⟩
  simp only [raiseParentRight,readX,parentX,top_cons,Frame.addr,step₁,read,parent,step₂,step₃,Option.bind_eq_bind,
    Option.bind_some]

theorem raiseParentLeft_spec (indexed : Indexed F s (zip p (.node .black Y g (.node .red L u (.node c l x r))))) :
    ∃ s', s.raiseParentLeft x = some s' ∧ Rewired F s s' ∧
      Indexed F s' (zip p (.node .black (.node .red Y g L) u (.node c l x r))) := by
  have outer : Indexed F s (zip (.right .red L u :: .right .black Y g :: p) (.node c l x r)) := indexed
  obtain ⟨dx,readX,_,_,parentX,_⟩ := outer.read
  obtain ⟨s₁,step₁,rewired₁,indexed₁⟩ := setColor_spec (s := s) (p := .right .black Y g :: p) indexed .black
  obtain ⟨d,read,_,_,parent,_⟩ := indexed₁.read
  obtain ⟨s₂,step₂,rewired₂,indexed₂⟩ := setColor_spec (s := s₁) (p := p) indexed₁ .red
  obtain ⟨s₃,step₃,rewired₃,indexed₃⟩ := leftRotate_spec (s := s₂) (p := p) indexed₂
  refine ⟨s₃,?_,rewired₁.trans (rewired₂.trans rewired₃),indexed₃⟩
  simp only [raiseParentLeft,readX,parentX,top_cons,Frame.addr,step₁,read,parent,step₂,step₃,Option.bind_eq_bind,
    Option.bind_some]

/-- The inner grandchild is first rotated to the outside, so that one of the two
    red levels below `g` is the outer one. -/
theorem straightenLeft_spec {f : Frame Ptr} (indexed : Indexed F s (zip (f :: .left .black g Y :: p) (.node .red l x r)))
    (red : f.color = .red) {n : Nat} (balanced : Balanced n (.node .red l x r))
    (room : Room n (f :: .left .black g Y :: p)) :
    ∃ s' x' l' r' u R, s.straightenLeft x f.addr = some (s',x') ∧ Rewired F s s' ∧
      Indexed F s' (zip p (.node .black (.node .red (.node .red l' x' r') u R) g Y)) ∧
      Balanced n (.node .red l' x' r') ∧ Balanced n R ∧ R.color = .black ∧
      (zip p (.node .black (.node .red (.node .red l' x' r') u R) g Y)).inorder =
        (zip (f :: .left .black g Y :: p) (.node .red l x r)).inorder := by
  rw [balanced_red] at balanced
  rcases f with ⟨c,u,R⟩ | ⟨c,L,u⟩ <;> simp only [Frame.color] at red <;> subst red
  · have below : Indexed F s (zip (.left .black g Y :: p) (.node .red (.node .red l x r) u R)) := indexed
    obtain ⟨d,readU,left,right,_⟩ := below.read
    have notRight : d.right ≠ some x := by
      rw [right]
      intro isRight
      have inside := Shape.root_mem isRight
      have distinct := below.distinct
      simp only [Shape.inorder_node,List.nodup_append,List.nodup_cons,List.mem_append,List.mem_cons] at distinct
      grind
    refine ⟨s,x,l,r,u,R,by simp [straightenLeft,Frame.addr,readU,notRight],Rewired.refl s,indexed,balanced_red.mpr balanced,room.1,room.2.1,rfl⟩
  · have below : Indexed F s (zip (.left .black g Y :: p) (.node .red L u (.node .red l x r))) := indexed
    obtain ⟨d,readU,left,right,_⟩ := below.read
    obtain ⟨s',executed,rewired,indexed'⟩ := leftRotate_spec below
    refine ⟨s',u,L,l,x,r,?_,rewired,indexed',?_,balanced.2.1,balanced.2.2.2,?_⟩
    · have isRight : d.right = some x := right
      simp [straightenLeft,Frame.addr,readU,isRight,executed]
    · exact balanced_red.mpr ⟨room.1,balanced.1,room.2.1,balanced.2.2.1⟩
    · simp [Frame.plug,inorder_zip]

theorem straightenRight_spec {f : Frame Ptr}
    (indexed : Indexed F s (zip (f :: .right .black Y g :: p) (.node .red l x r)))
    (red : f.color = .red) {n : Nat} (balanced : Balanced n (.node .red l x r))
    (room : Room n (f :: .right .black Y g :: p)) :
    ∃ s' x' l' r' u L, s.straightenRight x f.addr = some (s',x') ∧ Rewired F s s' ∧
      Indexed F s' (zip p (.node .black Y g (.node .red L u (.node .red l' x' r')))) ∧
      Balanced n (.node .red l' x' r') ∧ Balanced n L ∧ L.color = .black ∧
      (zip p (.node .black Y g (.node .red L u (.node .red l' x' r')))).inorder =
        (zip (f :: .right .black Y g :: p) (.node .red l x r)).inorder := by
  rw [balanced_red] at balanced
  rcases f with ⟨c,u,R⟩ | ⟨c,L,u⟩ <;> simp only [Frame.color] at red <;> subst red
  · have below : Indexed F s (zip (.right .black Y g :: p) (.node .red (.node .red l x r) u R)) := indexed
    obtain ⟨d,readU,left,right,_⟩ := below.read
    obtain ⟨s',executed,rewired,indexed'⟩ := rightRotate_spec below
    refine ⟨s',u,r,R,x,l,?_,rewired,indexed',?_,balanced.1,balanced.2.2.1,?_⟩
    · have isLeft : d.left = some x := left
      simp [straightenRight,Frame.addr,readU,isLeft,executed]
    · exact balanced_red.mpr ⟨balanced.2.1,room.1,balanced.2.2.2,room.2.1⟩
    · simp [Frame.plug,inorder_zip]
  · have below : Indexed F s (zip (.right .black Y g :: p) (.node .red L u (.node .red l x r))) := indexed
    obtain ⟨d,readU,left,right,_⟩ := below.read
    have notLeft : d.left ≠ some x := by
      rw [left]
      intro isLeft
      have inside := Shape.root_mem isLeft
      have distinct := below.distinct
      simp only [Shape.inorder_node,List.nodup_append,List.nodup_cons,List.mem_append,List.mem_cons] at distinct
      grind
    refine ⟨s,x,l,r,u,L,by simp [straightenRight,Frame.addr,readU,notLeft],Rewired.refl s,indexed,balanced_red.mpr balanced,room.1,room.2.1,rfl⟩

/-- The loop repairs a tree whose only fault can be that a focus and its parent are red. -/
def Rebalances (N : Capacity) (F : Ptr → Prop) (rounds : Nat) : Prop :=
  ∀ (s : TreeState N) (p : List (Frame Ptr)) (l r : Shape Ptr) (x : Ptr) (n : Nat),
    Indexed F s (zip p (.node .red l x r)) → Balanced n (.node .red l x r) → Room n p → p.length < rounds →
    ∃ s', insertRebalanceLoop rounds s x = some s' ∧ Repaired F s s' (zip p (.node .red l x r)).inorder

/-- The tree seen at a red parent of the focus. -/
theorem red_parent {n : Nat} {f : Frame Ptr} (indexed : Indexed F s (zip (f :: p) t)) (red : f.color = .red)
    (balanced : Balanced n t) (room : Room n (f :: p)) :
    ∃ L R, Indexed F s (zip p (.node .red L f.addr R)) ∧ (zip p (.node .red L f.addr R)).inorder = (zip (f :: p) t).inorder ∧
      Balanced n L ∧ Balanced n R ∧ Room n p ∧ RedRoom p := by
  rcases f with ⟨c,a,r⟩ | ⟨c,l,a⟩ <;> simp only [Frame.color] at red <;> subst red
  · exact ⟨t,r,indexed,rfl,balanced,room.1,room.2.2⟩
  · exact ⟨l,t,indexed,rfl,room.1,balanced,room.2.2⟩

/-- A round below the left child of the grandparent. -/
theorem insertRebalanceLoop_left {rounds n : Nat} {f : Frame Ptr} (ih : Rebalances N F rounds)
    (indexed : Indexed F s (zip (f :: .left .black g Y :: p) (.node .red l x r))) (red : f.color = .red)
    (balanced : Balanced n (.node .red l x r)) (room : Room n (f :: .left .black g Y :: p)) (enough : p.length + 1 < rounds) :
    ∃ s', insertRebalanceLoop (rounds+1) s x = some s' ∧
      Repaired F s s' (zip (f :: .left .black g Y :: p) (.node .red l x r)).inorder := by
  have notRoot : s.root ≠ some x := fun h => indexed.root_ne h.symm
  obtain ⟨dx,readX,_,_,parentX,_⟩ := indexed.read
  obtain ⟨L,R,above,sameOrder,leftOk,rightOk,outerRoom,_⟩ := red_parent indexed red balanced room
  obtain ⟨dp,readP,_,_,parentP,colorP⟩ := above.read
  obtain ⟨uncleOk,higher⟩ := outerRoom
  obtain ⟨dg,readG,leftG,rightG,_,_⟩ :=
    (show Indexed F s (zip p (.node .black (.node .red L f.addr R) g Y)) from above).read
  have uncle : s.colorOf Y.root = some Y.color :=
    (show Indexed F s (zip (.right .black (.node .red L f.addr R) g :: p) Y) from above).colorOf
  have isLeft : dg.left = some f.addr := leftG
  have parentG : dp.parent = some g := parentP
  cases colorY : Y.color with
  | red =>
    obtain ⟨yl,y,yr,rfl⟩ := red_iff_node colorY
    obtain ⟨s₁,s₂,s₃,step₁,step₂,step₃,rewired,indexed'⟩ := recolorLeft_spec (p := p) above
    obtain ⟨s',executed,repaired⟩ := ih s₃ p _ _ g (n+1) indexed'
      (balanced_red.mpr ⟨balanced_black_succ.mpr ⟨leftOk,rightOk⟩,balanced_paint uncleOk rfl,rfl,rfl⟩)
      higher (by omega)
    refine ⟨s',?_,?_⟩
    · have uncleRed : s.colorOf (some y) = some .red := uncle
      simp only [insertRebalanceLoop,notRoot,readX,parentX,top_cons,readP,colorP,parentG,readG,isLeft,rightG,
        Shape.root_node,uncleRed,step₁,step₂,step₃,executed,Option.bind_eq_bind,Option.bind_some,
        ↓reduceIte,reduceCtorEq]
    · apply Repaired.after rewired
      rw [← sameOrder]
      simpa [inorder_zip,Frame.plug] using repaired
  | black =>
    obtain ⟨s₁,x',l',r',u,R',step₁,rewired₁,indexed₁,focusOk,siblingOk,siblingBlack,sameOrder₁⟩ :=
      straightenLeft_spec indexed red balanced room
    obtain ⟨s₂,step₂,rewired₂,indexed₂⟩ := raiseParentRight_spec indexed₁
    obtain ⟨s',executed,repaired⟩ := ih s₂ (.left .black u (.node .red R' g Y) :: p) l' r' x' n indexed₂ focusOk
      ⟨balanced_red.mpr ⟨siblingOk,uncleOk,siblingBlack,colorY⟩,higher⟩ (by simpa using enough)
    refine ⟨s',?_,?_⟩
    · simp only [insertRebalanceLoop,notRoot,readX,parentX,top_cons,readP,colorP,parentG,readG,isLeft,rightG,
        uncle,colorY,step₁,step₂,executed,Option.bind_eq_bind,Option.bind_some,↓reduceIte,reduceCtorEq]
    · apply Repaired.after (rewired₁.trans rewired₂)
      rw [← sameOrder₁]
      simpa [inorder_zip,Frame.plug] using repaired

theorem insertRebalanceLoop_right {rounds n : Nat} {f : Frame Ptr} (ih : Rebalances N F rounds)
    (indexed : Indexed F s (zip (f :: .right .black Y g :: p) (.node .red l x r))) (red : f.color = .red)
    (balanced : Balanced n (.node .red l x r)) (room : Room n (f :: .right .black Y g :: p)) (enough : p.length + 1 < rounds) :
    ∃ s', insertRebalanceLoop (rounds+1) s x = some s' ∧
      Repaired F s s' (zip (f :: .right .black Y g :: p) (.node .red l x r)).inorder := by
  have notRoot : s.root ≠ some x := fun h => indexed.root_ne h.symm
  obtain ⟨dx,readX,_,_,parentX,_⟩ := indexed.read
  obtain ⟨L,R,above,sameOrder,leftOk,rightOk,outerRoom,_⟩ := red_parent indexed red balanced room
  obtain ⟨dp,readP,_,_,parentP,colorP⟩ := above.read
  obtain ⟨uncleOk,higher⟩ := outerRoom
  have grand : Indexed F s (zip p (.node .black Y g (.node .red L f.addr R))) := above
  obtain ⟨dg,readG,leftG,rightG,_,_⟩ := grand.read
  have uncle : s.colorOf Y.root = some Y.color :=
    (show Indexed F s (zip (.left .black g (.node .red L f.addr R) :: p) Y) from above).colorOf
  have notLeft : dg.left ≠ some f.addr := by
    rw [leftG]
    intro isLeft
    have inside := Shape.root_mem isLeft
    have distinct := grand.distinct
    simp only [Shape.inorder_node,List.nodup_append,List.nodup_cons,List.mem_append,List.mem_cons] at distinct
    grind
  have parentG : dp.parent = some g := parentP
  cases colorY : Y.color with
  | red =>
    obtain ⟨yl,y,yr,rfl⟩ := red_iff_node colorY
    obtain ⟨s₁,s₂,s₃,step₁,step₂,step₃,rewired,indexed'⟩ := recolorRight_spec (p := p) above
    obtain ⟨s',executed,repaired⟩ := ih s₃ p _ _ g (n+1) indexed'
      (balanced_red.mpr ⟨balanced_paint uncleOk rfl,balanced_black_succ.mpr ⟨leftOk,rightOk⟩,rfl,rfl⟩)
      higher (by omega)
    refine ⟨s',?_,?_⟩
    · have uncleRed : s.colorOf (some y) = some .red := uncle
      simp only [Shape.root_node] at leftG
      rw [leftG] at notLeft
      simp only [insertRebalanceLoop,notRoot,readX,parentX,top_cons,readP,colorP,parentG,readG,leftG,notLeft,
        uncleRed,step₁,step₂,step₃,executed,Option.bind_eq_bind,Option.bind_some,
        ↓reduceIte,reduceCtorEq]
    · apply Repaired.after rewired
      rw [← sameOrder]
      simpa [inorder_zip,Frame.plug] using repaired
  | black =>
    obtain ⟨s₁,x',l',r',u,L',step₁,rewired₁,indexed₁,focusOk,siblingOk,siblingBlack,sameOrder₁⟩ :=
      straightenRight_spec indexed red balanced room
    obtain ⟨s₂,step₂,rewired₂,indexed₂⟩ := raiseParentLeft_spec indexed₁
    obtain ⟨s',executed,repaired⟩ := ih s₂ (.right .black (.node .red Y g L') u :: p) l' r' x' n indexed₂ focusOk
      ⟨balanced_red.mpr ⟨uncleOk,siblingOk,colorY,siblingBlack⟩,higher⟩ (by simpa using enough)
    refine ⟨s',?_,?_⟩
    · rw [leftG] at notLeft
      simp only [insertRebalanceLoop,notRoot,readX,parentX,top_cons,readP,colorP,parentG,readG,leftG,notLeft,
        uncle,colorY,step₁,step₂,executed,Option.bind_eq_bind,Option.bind_some,↓reduceIte,reduceCtorEq]
    · apply Repaired.after (rewired₁.trans rewired₂)
      rw [← sameOrder₁]
      simpa [inorder_zip,Frame.plug] using repaired

theorem insertRebalanceLoop_spec (rounds : Nat) : Rebalances N F rounds := by
  induction rounds with
  | zero => intro _ _ _ _ _ _ _ _ _ enough; omega
  | succ rounds ih =>
    intro s p l r x n indexed balanced room enough
    cases p with
    | nil =>
      have atRoot : s.root = some x := indexed.root
      refine ⟨s,by simp [insertRebalanceLoop,atRoot],Rewired.refl s,_,indexed,rfl,rfl,n+1,?_⟩
      exact balanced_paint balanced rfl
    | cons f p =>
      simp only [List.length_cons] at enough
      cases color : f.color with
      | black =>
        have valid : Valid (zip (f :: p) (.node .red l x r)) := valid_zip balanced room (.inr color)
        have notRoot : s.root ≠ some x := fun h => indexed.root_ne h.symm
        obtain ⟨dx,readX,_,_,parentX,_⟩ := indexed.read
        obtain ⟨dp,readP,colorP⟩ : ∃ dp, s.level f.addr = some dp ∧ dp.color = f.color := by
          rcases f with ⟨c,a,r'⟩ | ⟨c,l',a⟩
          · obtain ⟨dp,readP,_,_,_,colorP⟩ := (show Indexed F s (zip p (.node c (.node .red l x r) a r')) from indexed).read
            exact ⟨dp,readP,colorP⟩
          · obtain ⟨dp,readP,_,_,_,colorP⟩ := (show Indexed F s (zip p (.node c l' a (.node .red l x r))) from indexed).read
            exact ⟨dp,readP,colorP⟩
        refine ⟨s,?_,Rewired.refl s,_,indexed,rfl,?_⟩
        · simp [insertRebalanceLoop,notRoot,readX,parentX,readP,colorP,color]
        · rw [paint_of_color valid.1]
          exact valid
      | red =>
        -- A red parent is not the root: there is a black grandparent.
        obtain ⟨_,_,_,_,_,_,_,black⟩ := red_parent indexed color balanced room
        cases p with
        | nil => exact absurd black (by simp [RedRoom])
        | cons h p =>
          simp only [List.length_cons] at enough
          rcases h with ⟨c,g,Y⟩ | ⟨c,Y,g⟩ <;> (simp only [RedRoom,Frame.color] at black; subst black)
          · exact insertRebalanceLoop_left ih indexed color balanced room (by omega)
          · exact insertRebalanceLoop_right ih indexed color balanced room (by omega)

/-! ## Removal -/

theorem balanced_succ_black {n : Nat} (balanced : Balanced (n+1) t) (black : t.color = .black) :
    ∃ l a r, t = .node .black l a r ∧ Balanced n l ∧ Balanced n r := by
  cases t with
  | nil => simp at balanced
  | node c l a r =>
    simp only [Shape.color_node] at black
    subst black
    exact ⟨l,a,r,rfl,balanced_black_succ.mp balanced⟩

/-- The sibling of a focus that lacks one black level is there. -/
theorem balanced_succ_node {n : Nat} (balanced : Balanced (n+1) t) : ∃ c l a r, t = .node c l a r := by
  cases t with
  | nil => simp at balanced
  | node c l a r => exact ⟨c,l,a,r,rfl⟩

/-- A red sibling, its parent then black, makes place for its black inner child. -/
theorem turnSiblingLeft_spec {m : Nat} (indexed : Indexed F s (zip p (.node c t a (.node c' l y r))))
    (room : Room (m+1) (.left c a (.node c' l y r) :: p)) :
    ∃ s' w q d l' r', s.turnSiblingLeft a y = some (s',w) ∧ Rewired F s s' ∧
      Indexed F s' (zip q (.node d t a (.node .black l' w r'))) ∧ Room (m+1) (.left d a (.node .black l' w r') :: q) ∧
      (zip q (.node d t a (.node .black l' w r'))).inorder = (zip p (.node c t a (.node c' l y r))).inorder ∧
      (d = .black → q.length = p.length) := by
  have sibling : s.colorOf (some y) = some c' :=
    (show Indexed F s (zip (.right c t a :: p) (.node c' l y r)) from indexed).colorOf
  cases c' with
  | black =>
    exact ⟨s,y,p,c,l,r,by simp [turnSiblingLeft,sibling],Rewired.refl s,indexed,room,rfl,fun _ => rfl⟩
  | red =>
    cases c with
    | red => exact absurd room.2.1 (by simp)
    | black =>
      obtain ⟨siblingOk,outer⟩ := room
      obtain ⟨leftOk,rightOk,leftBlack,rightBlack⟩ := balanced_red.mp siblingOk
      obtain ⟨s₁,step₁,rewired₁,indexed₁⟩ := setColor_spec (s := s) (p := .right .black t a :: p) indexed .black
      obtain ⟨s₂,step₂,rewired₂,indexed₂⟩ := setColor_spec (s := s₁) (p := p) indexed₁ .red
      obtain ⟨s₃,step₃,rewired₃,indexed₃⟩ := leftRotate_spec (s := s₂) (p := p) indexed₂
      obtain ⟨l',w,r',rfl,_⟩ := balanced_succ_black leftOk leftBlack
      have below : Indexed F s₃ (zip (.left .black y r :: p) (.node .red t a (.node .black l' w r'))) := indexed₃
      obtain ⟨da,readA,_,rightA,_⟩ := below.read
      refine ⟨s₃,w,.left .black y r :: p,.red,l',r',?_,rewired₁.trans (rewired₂.trans rewired₃),below,
        ⟨leftOk,rfl,⟨rightOk,outer⟩,rfl⟩,by simp [inorder_zip,Frame.plug],by simp⟩
      simp only [turnSiblingLeft,sibling,step₁,step₂,step₃,readA,rightA,Shape.root_node,Option.bind_eq_bind,
        Option.bind_some,↓reduceIte]

theorem turnSiblingRight_spec {m : Nat} (indexed : Indexed F s (zip p (.node c (.node c' l y r) a t)))
    (room : Room (m+1) (.right c (.node c' l y r) a :: p)) :
    ∃ s' w q d l' r', s.turnSiblingRight a y = some (s',w) ∧ Rewired F s s' ∧
      Indexed F s' (zip q (.node d (.node .black l' w r') a t)) ∧ Room (m+1) (.right d (.node .black l' w r') a :: q) ∧
      (zip q (.node d (.node .black l' w r') a t)).inorder = (zip p (.node c (.node c' l y r) a t)).inorder ∧
      (d = .black → q.length = p.length) := by
  have sibling : s.colorOf (some y) = some c' :=
    (show Indexed F s (zip (.left c a t :: p) (.node c' l y r)) from indexed).colorOf
  cases c' with
  | black =>
    exact ⟨s,y,p,c,l,r,by simp [turnSiblingRight,sibling],Rewired.refl s,indexed,room,rfl,fun _ => rfl⟩
  | red =>
    cases c with
    | red => exact absurd room.2.1 (by simp)
    | black =>
      obtain ⟨siblingOk,outer⟩ := room
      obtain ⟨leftOk,rightOk,leftBlack,rightBlack⟩ := balanced_red.mp siblingOk
      obtain ⟨s₁,step₁,rewired₁,indexed₁⟩ := setColor_spec (s := s) (p := .left .black a t :: p) indexed .black
      obtain ⟨s₂,step₂,rewired₂,indexed₂⟩ := setColor_spec (s := s₁) (p := p) indexed₁ .red
      obtain ⟨s₃,step₃,rewired₃,indexed₃⟩ := rightRotate_spec (s := s₂) (p := p) indexed₂
      obtain ⟨l',w,r',rfl,_⟩ := balanced_succ_black rightOk rightBlack
      have below : Indexed F s₃ (zip (.right .black l y :: p) (.node .red (.node .black l' w r') a t)) := indexed₃
      obtain ⟨da,readA,leftA,_⟩ := below.read
      refine ⟨s₃,w,.right .black l y :: p,.red,l',r',?_,rewired₁.trans (rewired₂.trans rewired₃),below,
        ⟨rightOk,rfl,⟨leftOk,outer⟩,rfl⟩,by simp [inorder_zip,Frame.plug],by simp⟩
      simp only [turnSiblingRight,sibling,step₁,step₂,step₃,readA,leftA,Shape.root_node,Option.bind_eq_bind,
        Option.bind_some,↓reduceIte]

/-- A red inner nephew is rotated to the outside. -/
theorem turnNephewLeft_spec {m : Nat} (indexed : Indexed F s (zip p (.node c t a (.node .black l y r))))
    (leftOk : Balanced m l) (rightOk : Balanced m r) (red : l.color ≠ .black ∨ r.color ≠ .black) :
    ∃ s' w l' r', s.turnNephewLeft a y = some (s',w) ∧ Rewired F s s' ∧
      Indexed F s' (zip p (.node c t a (.node .black l' w r'))) ∧ Balanced m l' ∧ Balanced m r' ∧ r'.color = .red ∧
      (zip p (.node c t a (.node .black l' w r'))).inorder = (zip p (.node c t a (.node .black l y r))).inorder := by
  have below : Indexed F s (zip (.right c t a :: p) (.node .black l y r)) := indexed
  obtain ⟨dy,readY,leftY,rightY,_⟩ := below.read
  have outer : s.colorOf r.root = some r.color :=
    (show Indexed F s (zip (.right .black l y :: .right c t a :: p) r) from indexed).colorOf
  cases color : r.color with
  | red =>
    refine ⟨s,y,l,r,?_,Rewired.refl s,indexed,leftOk,rightOk,color,rfl⟩
    simp [turnNephewLeft,readY,rightY,outer,color]
  | black =>
    have redLeft : l.color = .red := by
      cases h : l.color with
      | red => rfl
      | black => simp [h,color] at red
    obtain ⟨ll,w,lr,rfl⟩ := red_iff_node redLeft
    obtain ⟨llOk,lrOk,llBlack,lrBlack⟩ := balanced_red.mp leftOk
    obtain ⟨s₁,step₁,rewired₁,indexed₁⟩ := paint_spec (s := s) (p := .left .black y r :: .right c t a :: p) indexed .black
    obtain ⟨s₂,step₂,rewired₂,indexed₂⟩ := setColor_spec (s := s₁) (p := .right c t a :: p) indexed₁ .red
    obtain ⟨s₃,step₃,rewired₃,indexed₃⟩ := rightRotate_spec (s := s₂) (p := .right c t a :: p) indexed₂
    obtain ⟨da,readA,_,rightA,_⟩ :=
      (show Indexed F s₃ (zip p (.node c t a (.node .black ll w (.node .red lr y r)))) from indexed₃).read
    refine ⟨s₃,w,ll,.node .red lr y r,?_,rewired₁.trans (rewired₂.trans rewired₃),indexed₃,llOk,
      balanced_red.mpr ⟨lrOk,rightOk,lrBlack,color⟩,rfl,by simp [inorder_zip]⟩
    rw [Shape.root_node] at step₁
    simp only [turnNephewLeft,readY,rightY,leftY,outer,color,step₁,step₂,step₃,readA,rightA,Shape.root_node,
      Option.bind_eq_bind,Option.bind_some,↓reduceIte]

theorem turnNephewRight_spec {m : Nat} (indexed : Indexed F s (zip p (.node c (.node .black l y r) a t)))
    (leftOk : Balanced m l) (rightOk : Balanced m r) (red : r.color ≠ .black ∨ l.color ≠ .black) :
    ∃ s' w l' r', s.turnNephewRight a y = some (s',w) ∧ Rewired F s s' ∧
      Indexed F s' (zip p (.node c (.node .black l' w r') a t)) ∧ Balanced m l' ∧ Balanced m r' ∧ l'.color = .red ∧
      (zip p (.node c (.node .black l' w r') a t)).inorder = (zip p (.node c (.node .black l y r) a t)).inorder := by
  have below : Indexed F s (zip (.left c a t :: p) (.node .black l y r)) := indexed
  obtain ⟨dy,readY,leftY,rightY,_⟩ := below.read
  have outer : s.colorOf l.root = some l.color :=
    (show Indexed F s (zip (.left .black y r :: .left c a t :: p) l) from indexed).colorOf
  cases color : l.color with
  | red =>
    refine ⟨s,y,l,r,?_,Rewired.refl s,indexed,leftOk,rightOk,color,rfl⟩
    simp [turnNephewRight,readY,leftY,outer,color]
  | black =>
    have redRight : r.color = .red := by
      cases h : r.color with
      | red => rfl
      | black => simp [h,color] at red
    obtain ⟨rl,w,rr,rfl⟩ := red_iff_node redRight
    obtain ⟨rlOk,rrOk,rlBlack,rrBlack⟩ := balanced_red.mp rightOk
    obtain ⟨s₁,step₁,rewired₁,indexed₁⟩ := paint_spec (s := s) (p := .right .black l y :: .left c a t :: p) indexed .black
    obtain ⟨s₂,step₂,rewired₂,indexed₂⟩ := setColor_spec (s := s₁) (p := .left c a t :: p) indexed₁ .red
    obtain ⟨s₃,step₃,rewired₃,indexed₃⟩ := leftRotate_spec (s := s₂) (p := .left c a t :: p) indexed₂
    obtain ⟨da,readA,leftA,_⟩ :=
      (show Indexed F s₃ (zip p (.node c (.node .black (.node .red l y rl) w rr) a t)) from indexed₃).read
    refine ⟨s₃,w,.node .red l y rl,rr,?_,rewired₁.trans (rewired₂.trans rewired₃),indexed₃,
      balanced_red.mpr ⟨leftOk,rlOk,color,rlBlack⟩,rrOk,rfl,by simp [inorder_zip]⟩
    rw [Shape.root_node] at step₁
    simp only [turnNephewRight,readY,rightY,leftY,outer,color,step₁,step₂,step₃,readA,leftA,Shape.root_node,
      Option.bind_eq_bind,Option.bind_some,↓reduceIte]

/-- The rotation that pays the missing black level with a red nephew. -/
theorem borrowLeft_spec {m : Nat} (indexed : Indexed F s (zip p (.node c t a (.node .black l y r))))
    (room : Room (m+1) (.left c a (.node .black l y r) :: p)) (focusOk : Balanced m t)
    (red : l.color ≠ .black ∨ r.color ≠ .black) :
    ∃ s' u, s.borrowLeft a y = some s' ∧ Rewired F s s' ∧ Indexed F s' u ∧
      u.inorder = (zip p (.node c t a (.node .black l y r))).inorder ∧ Valid u := by
  obtain ⟨leftOk,rightOk⟩ := balanced_black_succ.mp room.rightSibling
  obtain ⟨s₁,w,l',r',step₁,rewired₁,indexed₁,leftOk',rightOk',red',sameOrder⟩ :=
    turnNephewLeft_spec indexed leftOk rightOk red
  obtain ⟨da,readA,_,_,_,colorA⟩ := indexed₁.read
  obtain ⟨s₂,step₂,rewired₂,indexed₂⟩ := setColor_spec (s := s₁) (p := .right c t a :: p) indexed₁ c
  obtain ⟨s₃,step₃,rewired₃,indexed₃⟩ := setColor_spec (s := s₂) (p := p) indexed₂ .black
  obtain ⟨dw,readW,_,rightW,_⟩ :=
    (show Indexed F s₃ (zip (.right .black t a :: p) (.node c l' w r')) from indexed₃).read
  obtain ⟨s₄,step₄,rewired₄,indexed₄⟩ :=
    paint_spec (s := s₃) (p := .right c l' w :: .right .black t a :: p) indexed₃ .black
  obtain ⟨s₅,step₅,rewired₅,indexed₅⟩ := leftRotate_spec (s := s₄) (p := p) indexed₄
  refine ⟨s₅,_,?_,rewired₁.trans (rewired₂.trans (rewired₃.trans (rewired₄.trans rewired₅))),indexed₅,?_,?_⟩
  · simp only [borrowLeft,step₁,readA,colorA,step₂,step₃,readW,rightW,step₄,step₅,Option.bind_eq_bind,
      Option.bind_some]
  · rw [← sameOrder]
    simp [inorder_zip]
  · have painted := balanced_paint rightOk' red'
    have black : (r'.paint .black).color = .black := by cases r' <;> simp [Shape.paint]
    cases c with
    | red =>
      exact valid_zip (n := m+1) (balanced_red.mpr ⟨balanced_black_succ.mpr ⟨focusOk,leftOk'⟩,painted,rfl,black⟩)
        room.2.2.1 (.inr room.2.2.2)
    | black =>
      exact valid_zip (n := m+2) (balanced_black_succ.mpr ⟨balanced_black_succ.mpr ⟨focusOk,leftOk'⟩,painted⟩)
        room.2 (.inl rfl)

theorem borrowRight_spec {m : Nat} (indexed : Indexed F s (zip p (.node c (.node .black l y r) a t)))
    (room : Room (m+1) (.right c (.node .black l y r) a :: p)) (focusOk : Balanced m t)
    (red : r.color ≠ .black ∨ l.color ≠ .black) :
    ∃ s' u, s.borrowRight a y = some s' ∧ Rewired F s s' ∧ Indexed F s' u ∧
      u.inorder = (zip p (.node c (.node .black l y r) a t)).inorder ∧ Valid u := by
  obtain ⟨leftOk,rightOk⟩ := balanced_black_succ.mp room.leftSibling
  obtain ⟨s₁,w,l',r',step₁,rewired₁,indexed₁,leftOk',rightOk',red',sameOrder⟩ :=
    turnNephewRight_spec indexed leftOk rightOk red
  obtain ⟨da,readA,_,_,_,colorA⟩ := indexed₁.read
  obtain ⟨s₂,step₂,rewired₂,indexed₂⟩ := setColor_spec (s := s₁) (p := .left c a t :: p) indexed₁ c
  obtain ⟨s₃,step₃,rewired₃,indexed₃⟩ := setColor_spec (s := s₂) (p := p) indexed₂ .black
  obtain ⟨dw,readW,leftW,_⟩ :=
    (show Indexed F s₃ (zip (.left .black a t :: p) (.node c l' w r')) from indexed₃).read
  obtain ⟨s₄,step₄,rewired₄,indexed₄⟩ :=
    paint_spec (s := s₃) (p := .left c w r' :: .left .black a t :: p) indexed₃ .black
  obtain ⟨s₅,step₅,rewired₅,indexed₅⟩ := rightRotate_spec (s := s₄) (p := p) indexed₄
  refine ⟨s₅,_,?_,rewired₁.trans (rewired₂.trans (rewired₃.trans (rewired₄.trans rewired₅))),indexed₅,?_,?_⟩
  · simp only [borrowRight,step₁,readA,colorA,step₂,step₃,readW,leftW,step₄,step₅,Option.bind_eq_bind,
      Option.bind_some]
  · rw [← sameOrder]
    simp [inorder_zip]
  · have painted := balanced_paint leftOk' red'
    have black : (l'.paint .black).color = .black := by cases l' <;> simp [Shape.paint]
    cases c with
    | red =>
      exact valid_zip (n := m+1) (balanced_red.mpr ⟨painted,balanced_black_succ.mpr ⟨rightOk',focusOk⟩,black,rfl⟩)
        room.2.2.1 (.inr room.2.2.2)
    | black =>
      exact valid_zip (n := m+2) (balanced_black_succ.mpr ⟨painted,balanced_black_succ.mpr ⟨rightOk',focusOk⟩⟩)
        room.2 (.inl rfl)

/-- A focus that lacks one black level: it is black, or red and pays by a new paint. -/
def Short (m : Nat) (t : Shape Ptr) : Prop :=
  t.color = .black ∧ Balanced m t ∨ t.color = .red ∧ Balanced (m+1) (t.paint .black)

theorem color_paint_black : (t.paint .black).color = .black := by
  cases t <;> simp [Shape.paint]

/-- The sibling turned red: the fault moves to the parent. -/
theorem short_parent {m : Nat} {d : Color} {f : Frame Ptr} (room : Room (m+1) (f :: p)) (color : f.color = d)
    (plugged : Balanced (m+1) (.node .black L a R)) :
    (d = .black → Short (m+1) (.node d L a R) ∧ Room (m+2) p) ∧
      (d = .red → Balanced (m+1) ((Shape.node d L a R).paint .black) ∧ Room (m+1) p) := by
  subst color
  rcases f with ⟨c,x,r⟩ | ⟨c,l,x⟩ <;> cases c
  · exact ⟨by simp [Frame.color],fun _ => ⟨plugged,room.2.2.1⟩⟩
  · exact ⟨fun _ => ⟨.inl ⟨rfl,plugged⟩,room.2⟩,by simp [Frame.color]⟩
  · exact ⟨by simp [Frame.color],fun _ => ⟨plugged,room.2.2.1⟩⟩
  · exact ⟨fun _ => ⟨.inl ⟨rfl,plugged⟩,room.2⟩,by simp [Frame.color]⟩

/-- What the loop of `rb_delete_fixup` leaves for its last line: a focus to paint black. -/
def Fixed (F : Ptr → Prop) (s s' : TreeState N) (x : Option Ptr) (xs : List Ptr) : Prop :=
  Rewired F s s' ∧ ∃ q u, Indexed F s' (zip q u) ∧ (zip q u).inorder = xs ∧ x = u.root ∧ Valid (zip q (u.paint .black))

theorem fixed_of_valid (rewired : Rewired F s s') (indexed : Indexed F s' t) (sameOrder : t.inorder = xs) (valid : Valid t) :
    Fixed F s s' s'.root xs := by
  refine ⟨rewired,[],t,indexed,sameOrder,indexed.root,?_⟩
  rw [zip_nil,paint_of_color valid.1]
  exact valid

theorem Fixed.after (rewired : Rewired F s s') {o : Option Ptr} (fixed : Fixed F s' s'' o xs) : Fixed F s s'' o xs := by
  obtain ⟨later,rest⟩ := fixed
  exact ⟨rewired.trans later,rest⟩

/-- A red focus ends the loop. -/
theorem rbDeleteFixupLoop_red {m rounds : Nat} {o : Option Ptr} (indexed : Indexed F s (zip p t))
    (red : t.color = .red) (painted : Balanced (m+1) (t.paint .black)) (room : Room (m+1) p) (some : 0 < rounds) :
    rbDeleteFixupLoop rounds s t.root o = .some (s,t.root) ∧ Fixed F s s t.root (zip p t).inorder := by
  obtain ⟨k,rfl⟩ : ∃ k, rounds = k+1 := ⟨rounds-1,by omega⟩
  refine ⟨?_,Rewired.refl s,p,t,indexed,rfl,rfl,valid_zip painted room (.inl color_paint_black)⟩
  simp only [rbDeleteFixupLoop,indexed.colorOf,red,Option.bind_eq_bind,Option.bind_some,↓reduceIte]
  split_ifs <;> rfl

/-- The loop takes a focus that lacks a black level to one that pays for it. -/
def FixesUp (N : Capacity) (F : Ptr → Prop) (rounds : Nat) : Prop :=
  ∀ (s : TreeState N) (p : List (Frame Ptr)) (t : Shape Ptr) (m : Nat),
    Indexed F s (zip p t) → Room (m+1) p → Short m t → p.length < rounds →
    ∃ s' x, rbDeleteFixupLoop rounds s t.root (top none p) = some (s',x) ∧ Fixed F s s' x (zip p t).inorder

/-- The loop goes on at the parent `a` of a sibling that turned red. -/
theorem FixesUp.raise {rounds m : Nat} {f : Frame Ptr} (ih : FixesUp N F rounds) (room : Room (m+1) (f :: p))
    (color : f.color = c) (plugged : Balanced (m+1) (.node .black L a R)) (indexed : Indexed F s (zip p (.node c L a R)))
    (enough : c = .black → p.length < rounds) (some : 0 < rounds) :
    ∃ s' x, rbDeleteFixupLoop rounds s (.some a) (top none p) = .some (s',x) ∧
      Fixed F s s' x (zip p (.node c L a R)).inorder := by
  obtain ⟨toBlack,toRed⟩ := short_parent room color plugged
  cases c with
  | black =>
    obtain ⟨short,outer⟩ := toBlack rfl
    exact ih s p _ (m+1) indexed outer short (enough rfl)
  | red =>
    obtain ⟨painted,outer⟩ := toRed rfl
    exact ⟨s,_,rbDeleteFixupLoop_red indexed rfl painted outer some⟩

/-- The loop ends at the root. -/
theorem rbDeleteFixupLoop_root {rounds : Nat} (some : 0 < rounds) (s : TreeState N) (o : Option Ptr) :
    rbDeleteFixupLoop rounds s s.root o = .some (s,s.root) := by
  obtain ⟨k,rfl⟩ : ∃ k, rounds = k+1 := ⟨rounds-1,by omega⟩
  simp [rbDeleteFixupLoop]

/-- A round at a left child. -/
theorem rbDeleteFixupLoop_left {rounds m : Nat} {W : Shape Ptr} (ih : FixesUp N F rounds)
    (indexed : Indexed F s (zip (.left c a W :: p) t)) (room : Room (m+1) (.left c a W :: p)) (black : t.color = .black)
    (focusOk : Balanced m t) (enough : p.length < rounds) :
    ∃ s' x, rbDeleteFixupLoop (rounds+1) s t.root (some a) = some (s',x) ∧
      Fixed F s s' x (zip (.left c a W :: p) t).inorder := by
  have notRoot : t.root ≠ s.root := indexed.root_ne
  have colorX := indexed.colorOf
  have above : Indexed F s (zip p (.node c t a W)) := indexed
  obtain ⟨dp,readP,leftP,rightP,_,_⟩ := above.read
  obtain ⟨c',l,y,r,rfl⟩ := balanced_succ_node room.rightSibling
  obtain ⟨s₁,w,q,d,l',r',step₁,rewired₁,indexed₁,room₁,sameOrder,shorter⟩ := turnSiblingLeft_spec above room
  have below : Indexed F s₁ (zip (.right d t a :: q) (.node .black l' w r')) := indexed₁
  obtain ⟨dw,readW,leftW,rightW,_⟩ := below.read
  have nearIs := (show Indexed F s₁ (zip (.left .black w r' :: .right d t a :: q) l') from indexed₁).colorOf
  have farIs := (show Indexed F s₁ (zip (.right .black l' w :: .right d t a :: q) r') from indexed₁).colorOf
  obtain ⟨nearOk,farOk⟩ := balanced_black_succ.mp room₁.rightSibling
  by_cases bothBlack : l'.color = .black ∧ r'.color = .black
  · obtain ⟨s₂,step₂,rewired₂,indexed₂⟩ := setColor_spec below .red
    have raised : Indexed F s₂ (zip q (.node d t a (.node .red l' w r'))) := indexed₂
    obtain ⟨da,readA,_,_,parentA,_⟩ := raised.read
    obtain ⟨s',x,executed,fixed⟩ := ih.raise room₁ rfl (balanced_black_succ.mpr
      ⟨focusOk,balanced_red.mpr ⟨nearOk,farOk,bothBlack.1,bothBlack.2⟩⟩) raised
      (fun isBlack => by rw [shorter isBlack]; exact enough) (by omega)
    refine ⟨s',x,?_,?_⟩
    · simp only [rbDeleteFixupLoop,notRoot,colorX,black,readP,leftP,rightP,Shape.root_node,
        step₁,readW,leftW,rightW,nearIs,farIs,bothBlack,and_self,step₂,readA,parentA,executed,
        Option.bind_eq_bind,Option.bind_some,↓reduceIte,reduceCtorEq]
    · apply Fixed.after (rewired₁.trans rewired₂)
      rw [show (zip (.left c a (.node c' l y r) :: p) t).inorder =
        (zip p (.node c t a (.node c' l y r))).inorder from rfl,← sameOrder]
      simpa [inorder_zip] using fixed
  · obtain ⟨s₂,u,step₂,rewired₂,indexed₂,sameOrder₂,valid⟩ := borrowLeft_spec indexed₁ room₁ focusOk
      (by rw [← not_and_or]; exact bothBlack)
    refine ⟨s₂,s₂.root,?_,fixed_of_valid (rewired₁.trans rewired₂) indexed₂ (sameOrder₂.trans sameOrder) valid⟩
    simp only [rbDeleteFixupLoop,notRoot,colorX,black,readP,leftP,rightP,Shape.root_node,
      step₁,readW,leftW,rightW,nearIs,farIs,bothBlack,step₂,rbDeleteFixupLoop_root (Nat.zero_lt_of_lt enough),
      Option.bind_eq_bind,Option.bind_some,↓reduceIte,reduceCtorEq]

theorem rbDeleteFixupLoop_right {rounds m : Nat} {W : Shape Ptr} (ih : FixesUp N F rounds)
    (indexed : Indexed F s (zip (.right c W a :: p) t)) (room : Room (m+1) (.right c W a :: p)) (black : t.color = .black)
    (focusOk : Balanced m t) (enough : p.length < rounds) :
    ∃ s' x, rbDeleteFixupLoop (rounds+1) s t.root (some a) = some (s',x) ∧
      Fixed F s s' x (zip (.right c W a :: p) t).inorder := by
  have notRoot : t.root ≠ s.root := indexed.root_ne
  have colorX := indexed.colorOf
  have above : Indexed F s (zip p (.node c W a t)) := indexed
  obtain ⟨dp,readP,leftP,_⟩ := above.read
  obtain ⟨c',l,y,r,rfl⟩ := balanced_succ_node room.leftSibling
  have notLeft : t.root ≠ some y := by
    intro isRoot
    have inside := Shape.root_mem isRoot
    have distinct := above.distinct
    simp only [Shape.inorder_node,List.nodup_append,List.nodup_cons,List.mem_append,List.mem_cons] at distinct
    grind
  obtain ⟨s₁,w,q,d,l',r',step₁,rewired₁,indexed₁,room₁,sameOrder,shorter⟩ := turnSiblingRight_spec above room
  have below : Indexed F s₁ (zip (.left d a t :: q) (.node .black l' w r')) := indexed₁
  obtain ⟨dw,readW,leftW,rightW,_⟩ := below.read
  have farIs := (show Indexed F s₁ (zip (.left .black w r' :: .left d a t :: q) l') from indexed₁).colorOf
  have nearIs := (show Indexed F s₁ (zip (.right .black l' w :: .left d a t :: q) r') from indexed₁).colorOf
  obtain ⟨farOk,nearOk⟩ := balanced_black_succ.mp room₁.leftSibling
  by_cases bothBlack : r'.color = .black ∧ l'.color = .black
  · obtain ⟨s₂,step₂,rewired₂,indexed₂⟩ := setColor_spec below .red
    have raised : Indexed F s₂ (zip q (.node d (.node .red l' w r') a t)) := indexed₂
    obtain ⟨da,readA,_,_,parentA,_⟩ := raised.read
    obtain ⟨s',x,executed,fixed⟩ := ih.raise room₁ rfl (balanced_black_succ.mpr
      ⟨balanced_red.mpr ⟨farOk,nearOk,bothBlack.2,bothBlack.1⟩,focusOk⟩) raised
      (fun isBlack => by rw [shorter isBlack]; exact enough) (by omega)
    refine ⟨s',x,?_,?_⟩
    · simp only [rbDeleteFixupLoop,notRoot,colorX,black,readP,leftP,Shape.root_node,notLeft,
        step₁,readW,leftW,rightW,nearIs,farIs,bothBlack,and_self,step₂,readA,parentA,executed,
        Option.bind_eq_bind,Option.bind_some,↓reduceIte,reduceCtorEq]
    · apply Fixed.after (rewired₁.trans rewired₂)
      rw [show (zip (.right c (.node c' l y r) a :: p) t).inorder =
        (zip p (.node c (.node c' l y r) a t)).inorder from rfl,← sameOrder]
      simpa [inorder_zip] using fixed
  · obtain ⟨s₂,u,step₂,rewired₂,indexed₂,sameOrder₂,valid⟩ := borrowRight_spec indexed₁ room₁ focusOk
      (by rw [← not_and_or]; exact bothBlack)
    refine ⟨s₂,s₂.root,?_,fixed_of_valid (rewired₁.trans rewired₂) indexed₂ (sameOrder₂.trans sameOrder) valid⟩
    simp only [rbDeleteFixupLoop,notRoot,colorX,black,readP,leftP,Shape.root_node,notLeft,
      step₁,readW,leftW,rightW,nearIs,farIs,bothBlack,step₂,rbDeleteFixupLoop_root (Nat.zero_lt_of_lt enough),
      Option.bind_eq_bind,Option.bind_some,↓reduceIte,reduceCtorEq]

theorem rbDeleteFixupLoop_spec (rounds : Nat) : FixesUp N F rounds := by
  induction rounds with
  | zero => intro _ _ _ _ _ _ _ enough; omega
  | succ rounds ih =>
    intro s p t m indexed room short enough
    rcases short with ⟨black,focusOk⟩ | ⟨red,painted⟩
    · rcases p with _ | ⟨⟨c,a,W⟩ | ⟨c,W,a⟩,p⟩
      · have atRoot : t.root = s.root := indexed.root.symm
        refine ⟨s,t.root,by simp [rbDeleteFixupLoop,atRoot],Rewired.refl s,[],t,indexed,rfl,rfl,color_paint_black,m,?_⟩
        rw [paint_of_color black]
        exact focusOk
      · exact rbDeleteFixupLoop_left ih indexed room black focusOk (by simpa using enough)
      · exact rbDeleteFixupLoop_right ih indexed room black focusOk (by simpa using enough)
    · exact ⟨s,_,rbDeleteFixupLoop_red indexed red painted room (by omega)⟩

/-- The rounds suffice: a path is no longer than the tree, whose levels are live. -/
theorem path_length_le (wf : s.levels.WellFormed) (indexed : Indexed F s (zip p t)) : p.length ≤ s.levels.nbElements := by
  have counted := wf.length_le indexed.nodup (fun a member => indexed.live member)
  have steps : ∀ p : List (Frame Ptr), p.length ≤ (before p).length + (after p).length := by
    intro p
    induction p with
    | nil => simp
    | cons f p ih => cases f <;> simp [before,after] <;> omega
  have := steps p
  rw [inorder_zip] at counted
  simp only [List.length_append] at counted
  omega

theorem rbDeleteFixup_spec {m : Nat} (wf : s.levels.WellFormed) (indexed : Indexed F s (zip p t)) (room : Room (m+1) p)
    (short : Short m t) : ∃ s' u, s.rbDeleteFixup t.root (top none p) = some s' ∧ Rewired F s s' ∧ Indexed F s' u ∧
      u.inorder = (zip p t).inorder ∧ Valid u := by
  have enough := path_length_le wf indexed
  obtain ⟨s₁,x,step₁,rewired₁,q,u,indexed₁,sameOrder,rfl,valid⟩ :=
    rbDeleteFixupLoop_spec (s.levels.nbElements + 1) s p t m indexed room short (by omega)
  obtain ⟨s₂,step₂,rewired₂,indexed₂⟩ := paint_spec indexed₁ .black
  refine ⟨s₂,_,?_,rewired₁.trans rewired₂,indexed₂,?_,valid⟩
  · simp only [rbDeleteFixup,step₁,step₂,Option.bind_eq_bind,Option.bind_some]
  · rw [← sameOrder]
    simp [inorder_zip]

theorem insertRebalance_spec (wf : s.levels.WellFormed) (indexed : Indexed F s (zip p (.node c .nil x .nil)))
    (valid : Valid (zip p .nil)) : ∃ s' u, s.insertRebalance x = some s' ∧ Rewired F s s' ∧ Indexed F s' u ∧
      u.inorder = (zip p (.node c .nil x .nil)).inorder ∧ Valid u := by
  obtain ⟨n,leaf,room,_⟩ := room_of_valid valid
  obtain ⟨s₁,step₁,rewired₁,indexed₁⟩ := setColor_spec indexed .red
  have enough := path_length_le (rewired₁.links.wellFormed wf) indexed₁
  have balanced : Balanced n (.node .red .nil x .nil) := balanced_red.mpr ⟨leaf,leaf,rfl,rfl⟩
  obtain ⟨s₂,step₂,rewired₂,t,indexed₂,sameOrder,painted⟩ :=
    insertRebalanceLoop_spec (s₁.levels.nbElements + 1) s₁ p .nil .nil x n indexed₁ balanced room (by omega)
  have nonempty : t ≠ .nil := by
    intro isNil
    rw [isNil,inorder_zip] at sameOrder
    simp at sameOrder
  obtain ⟨d,l,a,r,rfl⟩ : ∃ d l a r, t = .node d l a r := by
    cases t with
    | nil => exact absurd rfl nonempty
    | node d l a r => exact ⟨d,l,a,r,rfl⟩
  obtain ⟨s₃,step₃,rewired₃,indexed₃⟩ := setColor_spec (p := []) indexed₂ .black
  refine ⟨s₃,_,?_,rewired₁.trans (rewired₂.trans rewired₃),indexed₃,?_,painted⟩
  · have root : s₂.root = some a := indexed₂.root
    simp only [insertRebalance,step₁,step₂,root,step₃,Option.bind_eq_bind,Option.bind_some]
  · simpa [inorder_zip] using sameOrder

end TreeState

end BaboEngine
