import BaboEngine.NarbTree

/-!
# The price index of a tree

The red-black tree of levels in memory: `Indexed s t` says that the levels below
`root` are exactly the tree `t`. Rotations, recolourings and transplants act on a
focus of `t` (`zip`); the loops of `insert_rebalance` and `rb_delete_fixup` are
inductions over the path above the focus, and end within the rounds they are
given. All of them leave the other fields of every level as they are (`LinksOnly`), and the
levels of other trees altogether (`Rewired`).
-/

namespace BaboEngine
open RedBlack

/-- The fields of a level that belong to the red-black tree. -/
def PriceLevel.cell (d : PriceLevel) : Cell Ptr := ⟨d.left,d.right,d.parent,d.color⟩

/-- The other fields of a level. -/
structure LevelData where
  pred : Option Ptr
  succ : Option Ptr
  price : Nat
  quantity : Nat
  count : Nat
  head : Option OrderLoc
  tail : Option OrderLoc

def PriceLevel.data (d : PriceLevel) : LevelData := ⟨d.pred,d.succ,d.price,d.quantity,d.count,d.head,d.tail⟩

namespace TreeState
variable {N : Capacity} {s s' s'' : TreeState N}

/-- The red-black part of the memory of levels. -/
def cells (s : TreeState N) (a : Ptr) : Option (Cell Ptr) := (s.level a).map PriceLevel.cell

/-- The state after a write to a level. -/
def setLevel (s : TreeState N) (a : Ptr) (d : PriceLevel) : TreeState N :=
  { s with levels := s.levels.write a d }

@[simp] theorem level_setLevel (s : TreeState N) (a b : Ptr) (d : PriceLevel) :
    (s.setLevel a d).level b = if b = a then some d else s.level b := by
  simp [level,setLevel]

theorem modifyLevel_eq {a : Ptr} {d : PriceLevel} (read : s.level a = some d) (f : PriceLevel → PriceLevel) :
    s.modifyLevel a f = some (s.setLevel a (f d)) := by
  simp [modifyLevel,read,setLevel]

/-- A step that writes to live levels and to nothing else. -/
structure LevelWrite (s s' : TreeState N) : Prop where
  nodes : s'.nodes = s.nodes
  orderIndex : s'.orderIndex = s.orderIndex
  best : s'.best = s.best
  root : s'.root = s.root
  chainHead : s'.chainHead = s.chainHead
  chainTail : s'.chainTail = s.chainTail
  wellFormed : s.levels.WellFormed → s'.levels.WellFormed
  count : s'.levels.nbElements = s.levels.nbElements

theorem LevelWrite.refl (s : TreeState N) : LevelWrite s s := ⟨rfl,rfl,rfl,rfl,rfl,rfl,id,rfl⟩

theorem LevelWrite.trans (first : LevelWrite s s') (second : LevelWrite s' s'') : LevelWrite s s'' :=
  ⟨second.nodes.trans first.nodes,second.orderIndex.trans first.orderIndex,second.best.trans first.best,
    second.root.trans first.root,second.chainHead.trans first.chainHead,second.chainTail.trans first.chainTail,
    fun wf => second.wellFormed (first.wellFormed wf),second.count.trans first.count⟩

theorem levelWrite_setLevel {a : Ptr} (isLive : s.level a ≠ none) (d : PriceLevel) : LevelWrite s (s.setLevel a d) :=
  ⟨rfl,rfl,rfl,rfl,rfl,rfl,fun wf => wf.write isLive d,rfl⟩

/-- A step that changes nothing but tree links and colours of levels. -/
structure LinksOnly (s s' : TreeState N) : Prop where
  nodes : s'.nodes = s.nodes
  orderIndex : s'.orderIndex = s.orderIndex
  best : s'.best = s.best
  chainHead : s'.chainHead = s.chainHead
  chainTail : s'.chainTail = s.chainTail
  data : ∀ a, (s'.level a).map PriceLevel.data = (s.level a).map PriceLevel.data
  wellFormed : s.levels.WellFormed → s'.levels.WellFormed
  count : s'.levels.nbElements = s.levels.nbElements

theorem LinksOnly.refl (s : TreeState N) : LinksOnly s s := ⟨rfl,rfl,rfl,rfl,rfl,fun _ => rfl,id,rfl⟩

theorem LinksOnly.trans (first : LinksOnly s s') (second : LinksOnly s' s'') : LinksOnly s s'' :=
  ⟨second.nodes.trans first.nodes,second.orderIndex.trans first.orderIndex,second.best.trans first.best,
    second.chainHead.trans first.chainHead,second.chainTail.trans first.chainTail,
    fun a => (second.data a).trans (first.data a),fun wf => second.wellFormed (first.wellFormed wf),
    second.count.trans first.count⟩

theorem LinksOnly.root (s : TreeState N) (r : Option Ptr) : LinksOnly s { s with root := r } :=
  ⟨rfl,rfl,rfl,rfl,rfl,fun _ => rfl,id,rfl⟩

@[simp] theorem data_relink (u : Ptr) (v : Option Ptr) (e : PriceLevel) : (e.relink u v).data = e.data := by
  unfold PriceLevel.relink; split_ifs <;> rfl
@[simp] theorem data_relinkRight (u : Ptr) (v : Option Ptr) (e : PriceLevel) : (e.relinkRight u v).data = e.data := by
  unfold PriceLevel.relinkRight; split_ifs <;> rfl
@[simp] theorem cell_relink (u : Ptr) (v : Option Ptr) (e : PriceLevel) : (e.relink u v).cell = e.cell.relink u v := by
  by_cases h : e.left = some u <;> simp [PriceLevel.relink,Cell.relink,PriceLevel.cell,h]
@[simp] theorem cell_relinkRight (u : Ptr) (v : Option Ptr) (e : PriceLevel) :
    (e.relinkRight u v).cell = e.cell.relinkRight u v := by
  by_cases h : e.right = some u <;> simp [PriceLevel.relinkRight,Cell.relinkRight,PriceLevel.cell,h]

/-- Writing to one live level, or to none. -/
theorem modifyLevelIf_run {p : Option Ptr} (f : PriceLevel → PriceLevel) (isLive : ∀ a, p = some a → s.level a ≠ none) :
    ∃ s', s.modifyLevelIf p f = some s' ∧ LevelWrite s s' ∧
      ∀ x, s'.level x = if p = some x then (s.level x).map f else s.level x := by
  cases p with
  | none => exact ⟨s,rfl,LevelWrite.refl s,fun x => by simp⟩
  | some a =>
    obtain ⟨d,read⟩ := Option.ne_none_iff_exists'.mp (isLive a rfl)
    refine ⟨_,modifyLevel_eq read f,levelWrite_setLevel (isLive a rfl) (f d),?_⟩
    intro x
    by_cases h : x = a
    · simp [h,read]
    · have : ¬ a = x := fun e => h e.symm
      simp [h,this]

theorem modifyLevel_run {a : Ptr} (f : PriceLevel → PriceLevel) (isLive : s.level a ≠ none) :
    ∃ s', s.modifyLevel a f = some s' ∧ LevelWrite s s' ∧
      ∀ x, s'.level x = if a = x then (s.level x).map f else s.level x := by
  obtain ⟨s',executed,write,level⟩ := modifyLevelIf_run (p := some a) f
    (fun b h => by rw [← Option.some.inj h]; exact isLive)
  exact ⟨s',executed,write,fun x => by simpa using level x⟩

/-- The same with an `f` that leaves all but the tree links and the colour. -/
theorem modifyLevelIf_spec {p : Option Ptr} {f : PriceLevel → PriceLevel} (isLive : ∀ a, p = some a → s.level a ≠ none)
    (same : ∀ d, (f d).data = d.data) : ∃ s', s.modifyLevelIf p f = some s' ∧ LinksOnly s s' ∧ s'.root = s.root ∧
      ∀ x, s'.level x = if p = some x then (s.level x).map f else s.level x := by
  obtain ⟨s',executed,write,level⟩ := modifyLevelIf_run f isLive
  refine ⟨s',executed,⟨write.nodes,write.orderIndex,write.best,write.chainHead,write.chainTail,?_,write.wellFormed,
    write.count⟩,write.root,level⟩
  intro a
  rw [level a]
  split_ifs
  · cases s.level a with
    | none => rfl
    | some d => simp [same]
  · rfl

theorem modifyLevel_spec {a : Ptr} {f : PriceLevel → PriceLevel} (isLive : s.level a ≠ none)
    (same : ∀ d, (f d).data = d.data) : ∃ s', s.modifyLevel a f = some s' ∧ LinksOnly s s' ∧ s'.root = s.root ∧
      ∀ x, s'.level x = if a = x then (s.level x).map f else s.level x := by
  obtain ⟨s',executed,links,root,level⟩ := modifyLevelIf_spec (p := some a)
    (fun b h => by rw [← Option.some.inj h]; exact isLive) same
  exact ⟨s',executed,links,root,fun x => by simpa using level x⟩

theorem replaceChild_spec {p v : Option Ptr} {u : Ptr} (isLive : ∀ q, p = some q → s.level q ≠ none) :
    ∃ s', s.replaceChild p u v = some s' ∧ LinksOnly s s' ∧ s'.root = (if p = none then v else s.root) ∧
      ∀ x, s'.level x = if p = some x then (s.level x).map (.relink u v) else s.level x := by
  cases p with
  | none => exact ⟨_,rfl,LinksOnly.root s v,rfl,fun x => by simp; rfl⟩
  | some q =>
    obtain ⟨s',executed,links,root,level⟩ := modifyLevel_spec (f := .relink u v) (isLive q rfl) (data_relink u v)
    exact ⟨s',executed,links,by simpa using root,fun x => by simpa using level x⟩

theorem replaceChildRight_spec {p v : Option Ptr} {u : Ptr} (isLive : ∀ q, p = some q → s.level q ≠ none) :
    ∃ s', s.replaceChildRight p u v = some s' ∧ LinksOnly s s' ∧ s'.root = (if p = none then v else s.root) ∧
      ∀ x, s'.level x = if p = some x then (s.level x).map (.relinkRight u v) else s.level x := by
  cases p with
  | none => exact ⟨_,rfl,LinksOnly.root s v,rfl,fun x => by simp; rfl⟩
  | some q =>
    obtain ⟨s',executed,links,root,level⟩ := modifyLevel_spec (f := .relinkRight u v) (isLive q rfl)
      (data_relinkRight u v)
    exact ⟨s',executed,links,by simpa using root,fun x => by simpa using level x⟩

/-! ## Rotations -/

theorem leftRotate_cells {node pivot : Ptr} {d p : PriceLevel} (atNode : s.level node = some d)
    (right : d.right = some pivot) (atPivot : s.level pivot = some p) (distinct : node ≠ pivot)
    (mid : ∀ b, p.left = some b → b ≠ node ∧ b ≠ pivot ∧ s.level b ≠ none)
    (up : ∀ q, d.parent = some q → q ≠ node ∧ q ≠ pivot ∧ p.left ≠ some q ∧ s.level q ≠ none) :
    ∃ s', s.leftRotate node = some s' ∧ LinksOnly s s' ∧ s'.cells node = some ⟨d.left,p.left,some pivot,d.color⟩ ∧
      s'.cells pivot = some ⟨some node,p.right,d.parent,p.color⟩ ∧
      (∀ x, x ≠ node → x ≠ pivot → s'.cells x =
        if p.left = some x then (s.cells x).map (fun k => { k with parent := some node })
        else if d.parent = some x then (s.cells x).map (Cell.relink node (some pivot)) else s.cells x) ∧
      s'.root = if d.parent = none then some pivot else s.root := by
  have notMid : p.left ≠ some node := fun h => (mid node h).1 rfl
  have notMid' : p.left ≠ some pivot := fun h => (mid pivot h).2.1 rfl
  have notUp : d.parent ≠ some node := fun h => (up node h).1 rfl
  have notUp' : d.parent ≠ some pivot := fun h => (up pivot h).2.1 rfl
  obtain ⟨s₁,step₁,links₁,root₁,level₁⟩ := modifyLevel_spec (s := s) (a := node)
    (f := fun d => { d with right := p.left }) (by simp [atNode]) (fun _ => rfl)
  obtain ⟨s₂,step₂,links₂,root₂,level₂⟩ := modifyLevelIf_spec (s := s₁) (p := p.left)
    (f := fun d => { d with parent := some node })
    (by intro b h; obtain ⟨bNode,_,live⟩ := mid b h; simpa [level₁,bNode.symm] using live) (fun _ => rfl)
  have node₂ : s₂.level node = some { d with right := p.left } := by simp [level₂,level₁,notMid,atNode]
  obtain ⟨s₃,step₃,links₃,root₃,level₃⟩ := modifyLevel_spec (s := s₂) (a := pivot)
    (f := fun p => { p with parent := d.parent }) (by simp [level₂,level₁,notMid',distinct,atPivot]) (fun _ => rfl)
  obtain ⟨s₄,step₄,links₄,root₄,level₄⟩ := replaceChild_spec (s := s₃) (p := d.parent) (u := node)
    (v := some pivot) (by
      intro q h
      obtain ⟨qNode,qPivot,qMid,live⟩ := up q h
      simpa [level₃,level₂,level₁,qNode.symm,qPivot.symm,qMid] using live)
  obtain ⟨s₅,step₅,links₅,root₅,level₅⟩ := modifyLevel_spec (s := s₄) (a := pivot)
    (f := fun p => { p with left := some node })
    (by simp [level₄,level₃,level₂,level₁,notUp',notMid',distinct,atPivot]) (fun _ => rfl)
  obtain ⟨s₆,step₆,links₆,root₆,level₆⟩ := modifyLevel_spec (s := s₅) (a := node)
    (f := fun d => { d with parent := some pivot })
    (by simp [level₅,level₄,level₃,level₂,level₁,notUp,notMid,distinct.symm,atNode]) (fun _ => rfl)
  refine ⟨s₆,?_,links₁.trans (links₂.trans (links₃.trans (links₄.trans (links₅.trans links₆)))),?_,?_,?_,?_⟩
  · simp only [leftRotate,atNode,right,atPivot,Option.bind_eq_bind,Option.bind_some,step₁,step₂,node₂,step₃,step₄,
      step₅,step₆]
  · simp [cells,level₆,level₅,level₄,level₃,level₂,level₁,notUp,notMid,distinct.symm,atNode,PriceLevel.cell]
  · simp [cells,level₆,level₅,level₄,level₃,level₂,level₁,notUp',notMid',distinct,atPivot,PriceLevel.cell]
  · intro x notNode notPivot
    simp only [cells,level₆,level₅,level₄,level₃,level₂,level₁,notNode.symm,notPivot.symm,↓reduceIte]
    by_cases isMid : p.left = some x
    · have notParent : d.parent ≠ some x := fun h => (up x h).2.2.1 isMid
      simp only [isMid,notParent,↓reduceIte,Option.map_map]
      rfl
    · by_cases isUp : d.parent = some x
      · simp only [isMid,isUp,↓reduceIte,Option.map_map]
        congr 1
        funext e
        simp
      · simp only [isMid,isUp,↓reduceIte]
  · rw [root₆,root₅,root₄,root₃,root₂,root₁]

theorem rightRotate_cells {node pivot : Ptr} {d p : PriceLevel} (atNode : s.level node = some d)
    (left : d.left = some pivot) (atPivot : s.level pivot = some p) (distinct : node ≠ pivot)
    (mid : ∀ b, p.right = some b → b ≠ node ∧ b ≠ pivot ∧ s.level b ≠ none)
    (up : ∀ q, d.parent = some q → q ≠ node ∧ q ≠ pivot ∧ p.right ≠ some q ∧ s.level q ≠ none) :
    ∃ s', s.rightRotate node = some s' ∧ LinksOnly s s' ∧ s'.cells node = some ⟨p.right,d.right,some pivot,d.color⟩ ∧
      s'.cells pivot = some ⟨p.left,some node,d.parent,p.color⟩ ∧
      (∀ x, x ≠ node → x ≠ pivot → s'.cells x =
        if p.right = some x then (s.cells x).map (fun k => { k with parent := some node })
        else if d.parent = some x then (s.cells x).map (Cell.relinkRight node (some pivot)) else s.cells x) ∧
      s'.root = if d.parent = none then some pivot else s.root := by
  have notMid : p.right ≠ some node := fun h => (mid node h).1 rfl
  have notMid' : p.right ≠ some pivot := fun h => (mid pivot h).2.1 rfl
  have notUp : d.parent ≠ some node := fun h => (up node h).1 rfl
  have notUp' : d.parent ≠ some pivot := fun h => (up pivot h).2.1 rfl
  obtain ⟨s₁,step₁,links₁,root₁,level₁⟩ := modifyLevel_spec (s := s) (a := node)
    (f := fun d => { d with left := p.right }) (by simp [atNode]) (fun _ => rfl)
  obtain ⟨s₂,step₂,links₂,root₂,level₂⟩ := modifyLevelIf_spec (s := s₁) (p := p.right)
    (f := fun d => { d with parent := some node })
    (by intro b h; obtain ⟨bNode,_,live⟩ := mid b h; simpa [level₁,bNode.symm] using live) (fun _ => rfl)
  have node₂ : s₂.level node = some { d with left := p.right } := by simp [level₂,level₁,notMid,atNode]
  obtain ⟨s₃,step₃,links₃,root₃,level₃⟩ := modifyLevel_spec (s := s₂) (a := pivot)
    (f := fun p => { p with parent := d.parent }) (by simp [level₂,level₁,notMid',distinct,atPivot]) (fun _ => rfl)
  obtain ⟨s₄,step₄,links₄,root₄,level₄⟩ := replaceChildRight_spec (s := s₃) (p := d.parent) (u := node)
    (v := some pivot) (by
      intro q h
      obtain ⟨qNode,qPivot,qMid,live⟩ := up q h
      simpa [level₃,level₂,level₁,qNode.symm,qPivot.symm,qMid] using live)
  obtain ⟨s₅,step₅,links₅,root₅,level₅⟩ := modifyLevel_spec (s := s₄) (a := pivot)
    (f := fun p => { p with right := some node })
    (by simp [level₄,level₃,level₂,level₁,notUp',notMid',distinct,atPivot]) (fun _ => rfl)
  obtain ⟨s₆,step₆,links₆,root₆,level₆⟩ := modifyLevel_spec (s := s₅) (a := node)
    (f := fun d => { d with parent := some pivot })
    (by simp [level₅,level₄,level₃,level₂,level₁,notUp,notMid,distinct.symm,atNode]) (fun _ => rfl)
  refine ⟨s₆,?_,links₁.trans (links₂.trans (links₃.trans (links₄.trans (links₅.trans links₆)))),?_,?_,?_,?_⟩
  · simp only [rightRotate,atNode,left,atPivot,Option.bind_eq_bind,Option.bind_some,step₁,step₂,node₂,step₃,step₄,
      step₅,step₆]
  · simp [cells,level₆,level₅,level₄,level₃,level₂,level₁,notUp,notMid,distinct.symm,atNode,PriceLevel.cell]
  · simp [cells,level₆,level₅,level₄,level₃,level₂,level₁,notUp',notMid',distinct,atPivot,PriceLevel.cell]
  · intro x notNode notPivot
    simp only [cells,level₆,level₅,level₄,level₃,level₂,level₁,notNode.symm,notPivot.symm,↓reduceIte]
    by_cases isMid : p.right = some x
    · have notParent : d.parent ≠ some x := fun h => (up x h).2.2.1 isMid
      simp only [isMid,notParent,↓reduceIte,Option.map_map]
      rfl
    · by_cases isUp : d.parent = some x
      · simp only [isMid,isUp,↓reduceIte,Option.map_map]
        congr 1
        funext e
        simp
      · simp only [isMid,isUp,↓reduceIte]
  · rw [root₆,root₅,root₄,root₃,root₂,root₁]

/-! ## The tree in memory, seen at a focus -/

/-- The levels below `root` are the tree `t`; they all belong to `F`. -/
structure Indexed (F : Ptr → Prop) (s : TreeState N) (t : Shape Ptr) : Prop where
  shaped : Shaped s.cells none t
  root : s.root = t.root
  nodup : t.inorder.Nodup
  inside : ∀ a ∈ t.inorder, F a

/-- A step that changes nothing but tree links and colours of levels in `F`. -/
structure Rewired (F : Ptr → Prop) (s s' : TreeState N) : Prop where
  links : LinksOnly s s'
  outside : ∀ a, ¬ F a → s'.level a = s.level a

variable {F : Ptr → Prop}

theorem Rewired.refl (s : TreeState N) : Rewired F s s := ⟨LinksOnly.refl s,fun _ _ => rfl⟩

theorem Rewired.trans (first : Rewired F s s') (second : Rewired F s' s'') : Rewired F s s'' :=
  ⟨first.links.trans second.links,fun a out => (second.outside a out).trans (first.outside a out)⟩

/-- A level is its tree links and its other fields. -/
theorem level_eq_of_cells {a : Ptr} (cells : s'.cells a = s.cells a)
    (data : (s'.level a).map PriceLevel.data = (s.level a).map PriceLevel.data) : s'.level a = s.level a := by
  unfold TreeState.cells at cells
  cases h : s.level a with
  | none => simpa [h] using cells
  | some d =>
    rw [h] at cells data
    obtain ⟨e,read,cellIs⟩ := Option.map_eq_some_iff.mp cells
    rw [read] at data ⊢
    rcases d with ⟨l,r,p,c⟩
    rcases e with ⟨l',r',p',c'⟩
    simp only [PriceLevel.cell,PriceLevel.data,Cell.mk.injEq,Option.map_some,Option.some.injEq,LevelData.mk.injEq] at *
    simp [cellIs,data]

theorem rewired_of_cells (links : LinksOnly s s') (cells : ∀ a, ¬ F a → s'.cells a = s.cells a) : Rewired F s s' :=
  ⟨links,fun a out => level_eq_of_cells (cells a out) (links.data a)⟩

variable {p : List (Frame Ptr)} {t l r b : Shape Ptr} {c c' : Color} {a a' : Ptr}

theorem Indexed.focus (indexed : Indexed F s (zip p t)) :
    Context s.cells none s.root p t.root ∧ Shaped s.cells (top none p) t :=
  shaped_zip.mpr ⟨indexed.shaped,indexed.root⟩

theorem Indexed.distinct (indexed : Indexed F s (zip p t)) : (before p ++ (t.inorder ++ after p)).Nodup := by
  rw [← inorder_zip]
  exact indexed.nodup

theorem Indexed.member (indexed : Indexed F s (zip p t)) : ∀ x ∈ before p ++ (t.inorder ++ after p), F x := by
  rw [← inorder_zip]
  exact indexed.inside

theorem indexed_zip (context : Context s.cells none s.root p t.root) (shaped : Shaped s.cells (top none p) t)
    (nodup : (before p ++ (t.inorder ++ after p)).Nodup) (inside : ∀ x ∈ before p ++ (t.inorder ++ after p), F x) :
    Indexed F s (zip p t) := by
  obtain ⟨whole,root⟩ := shaped_zip.mp ⟨context,shaped⟩
  exact ⟨whole,root,by rw [inorder_zip]; exact nodup,by rw [inorder_zip]; exact inside⟩

/-- The level at the root of a focus. -/
theorem Indexed.read (indexed : Indexed F s (zip p (.node c l a r))) : ∃ d, s.level a = some d ∧ d.left = l.root ∧
    d.right = r.root ∧ d.parent = top none p ∧ d.color = c := by
  have here := indexed.focus.2.1
  simp only [cells,Option.map_eq_some_iff,PriceLevel.cell,Cell.mk.injEq] at here
  exact here

theorem Indexed.live (indexed : Indexed F s t) (member : a ∈ t.inorder) : s.level a ≠ none := by
  obtain ⟨p,c,l,r,zipIs⟩ := exists_focus t a member
  rw [← zipIs] at indexed
  obtain ⟨d,read,_⟩ := indexed.read
  simp [read]

theorem Indexed.colorOf (indexed : Indexed F s (zip p t)) : s.colorOf t.root = some t.color := by
  cases t with
  | nil => rfl
  | node c l a r =>
    obtain ⟨d,read,_,_,_,color⟩ := indexed.read
    simp [TreeState.colorOf,read,color]

/-- The root is a focus exactly where the path above it is empty. -/
theorem Indexed.root_ne {f : Frame Ptr} (indexed : Indexed F s (zip (f :: p) t)) : t.root ≠ s.root := by
  intro isRoot
  have some : (zip (f :: p) t).root.isSome := by
    rw [zip_cons]
    exact root_zip_isSome p (by cases f <;> rfl)
  obtain ⟨x,atRoot⟩ := Option.isSome_iff_exists.mp some
  have outside := root_zip_mem atRoot (by simp)
  rw [indexed.root,atRoot] at isRoot
  have inside := Shape.root_mem isRoot
  have distinct := indexed.distinct
  simp only [List.nodup_append,List.mem_append] at distinct
  cases List.mem_append.mp outside with
  | inl m => exact distinct.2.2 x m x (.inl inside) rfl
  | inr m => exact distinct.2.1.2.2 x inside x m rfl

theorem top_mem {q : Ptr} (isTop : top none p = some q) : q ∈ before p ++ after p := by
  cases p with
  | nil => simp at isTop
  | cons f p =>
    simp only [top_cons,Option.some.injEq] at isTop
    exact isTop ▸ addr_mem f p

theorem Indexed.live_path (indexed : Indexed F s (zip p t)) {q : Ptr} (isTop : top none p = some q) :
    s.level q ≠ none := by
  apply indexed.live
  rw [inorder_zip]
  rcases List.mem_append.mp (top_mem isTop) with m | m <;> simp [m]

/-- Painting one level. -/
theorem setColor_spec (indexed : Indexed F s (zip p (.node c l a r))) (c' : Color) :
    ∃ s', s.setColor a c' = some s' ∧ Rewired F s s' ∧ Indexed F s' (zip p (.node c' l a r)) := by
  obtain ⟨d,read,left,right,parent,color⟩ := indexed.read
  obtain ⟨s',executed,links,root,level⟩ := modifyLevel_spec (s := s) (a := a) (f := fun d => { d with color := c' })
    (by simp [read]) (fun _ => rfl)
  have member := indexed.member
  have distinct := indexed.distinct
  have others : ∀ x, x ≠ a → s'.cells x = s.cells x := by
    intro x other
    simp [cells,level,other.symm]
  have apart := distinct
  simp only [Shape.inorder_node,List.nodup_append,List.nodup_cons,List.mem_append,List.mem_cons] at apart
  obtain ⟨context,_,shapedL,shapedR⟩ := indexed.focus
  have rewired : Rewired F s s' := by
    apply rewired_of_cells links
    intro x out
    exact others x (fun same => out (same ▸ member a (by simp)))
  refine ⟨s',executed,rewired,indexed_zip ?_ ⟨?_,?_,?_⟩ distinct member⟩
  · rw [root]
    apply context_congr context
    intro x member
    apply others
    rcases List.mem_append.mp member with m | m <;> grind
  · simp [cells,level,read,PriceLevel.cell,left,right,parent]
  · exact shaped_congr shapedL (fun x m => others x (by grind))
  · exact shaped_congr shapedR (fun x m => others x (by grind))

/-- The guarded form of the same write. -/
theorem paint_spec (indexed : Indexed F s (zip p t)) (c' : Color) :
    ∃ s', s.modifyLevelIf t.root (fun e => { e with color := c' }) = some s' ∧ Rewired F s s' ∧
      Indexed F s' (zip p (t.paint c')) := by
  cases t with
  | nil => exact ⟨s,rfl,Rewired.refl s,indexed⟩
  | node c l a r => exact setColor_spec indexed c'

theorem leftRotate_spec (indexed : Indexed F s (zip p (.node c l a (.node c' b a' r)))) :
    ∃ s', s.leftRotate a = some s' ∧ Rewired F s s' ∧ Indexed F s' (zip p (.node c' (.node c l a b) a' r)) := by
  obtain ⟨d,atNode,left,right,parent,color⟩ := indexed.read
  have below : Indexed F s (zip (.right c l a :: p) (.node c' b a' r)) := indexed
  obtain ⟨e,atPivot,left',right',parent',color'⟩ := below.read
  have distinct := indexed.distinct
  have apart := distinct
  simp only [Shape.inorder_node,List.nodup_append,List.nodup_cons,List.mem_append,List.mem_cons] at apart
  have parts : (before p ++ ((Shape.node c' (.node c l a b) a' r).inorder ++ after p)).Nodup := by
    simpa using distinct
  obtain ⟨s',executed,links,nodeIs,pivotIs,others,root⟩ := leftRotate_cells atNode (by simp [right]) atPivot
    (by grind) (by
      intro x h
      have := Shape.root_mem (left' ▸ h)
      exact ⟨by grind,by grind,indexed.live (by rw [inorder_zip]; simp [this])⟩) (by
      intro q h
      rw [parent] at h
      have outside := List.mem_append.mp (top_mem h)
      refine ⟨by grind,by grind,?_,indexed.live_path h⟩
      intro isMid
      have := Shape.root_mem (left' ▸ isMid)
      grind)
  obtain ⟨context,shaped⟩ := indexed.focus
  have rotated : RotatedLeft s.cells s'.cells s.root s'.root p c c' l b r a a' :=
    ⟨by rw [nodeIs,left,left',color],by rw [pivotIs,right',parent,color'],
      by simpa only [left',parent] using others,by rw [root,parent]⟩
  obtain ⟨context',shaped'⟩ := rotate_left context shaped distinct rotated
  have member := indexed.member
  have rewired : Rewired F s s' := by
    apply rewired_of_cells links
    intro x out
    have notMid : e.left ≠ some x := fun isMid => out (member x (by simp [Shape.root_mem (left' ▸ isMid)]))
    have notTop : d.parent ≠ some x := fun isTop => out (member x (by
      rcases List.mem_append.mp (top_mem (parent ▸ isTop)) with m | m <;> simp [m]))
    rw [others x (fun same => out (member x (by simp [same]))) (fun same => out (member x (by simp [same]))),
      if_neg notMid,if_neg notTop]
  exact ⟨s',executed,rewired,indexed_zip context' shaped' parts (by simpa using member)⟩

theorem rightRotate_spec (indexed : Indexed F s (zip p (.node c (.node c' l a' b) a r))) :
    ∃ s', s.rightRotate a = some s' ∧ Rewired F s s' ∧ Indexed F s' (zip p (.node c' l a' (.node c b a r))) := by
  obtain ⟨d,atNode,left,right,parent,color⟩ := indexed.read
  have below : Indexed F s (zip (.left c a r :: p) (.node c' l a' b)) := indexed
  obtain ⟨e,atPivot,left',right',parent',color'⟩ := below.read
  have distinct := indexed.distinct
  have apart := distinct
  simp only [Shape.inorder_node,List.nodup_append,List.nodup_cons,List.mem_append,List.mem_cons] at apart
  have parts : (before p ++ ((Shape.node c' l a' (.node c b a r)).inorder ++ after p)).Nodup := by
    simpa using distinct
  obtain ⟨s',executed,links,nodeIs,pivotIs,others,root⟩ := rightRotate_cells atNode (by simp [left]) atPivot
    (by grind) (by
      intro x h
      have := Shape.root_mem (right' ▸ h)
      exact ⟨by grind,by grind,indexed.live (by rw [inorder_zip]; simp [this])⟩) (by
      intro q h
      rw [parent] at h
      have outside := List.mem_append.mp (top_mem h)
      refine ⟨by grind,by grind,?_,indexed.live_path h⟩
      intro isMid
      have := Shape.root_mem (right' ▸ isMid)
      grind)
  obtain ⟨context,shaped⟩ := indexed.focus
  have rotated : RotatedRight s.cells s'.cells s.root s'.root p c c' l b r a' a :=
    ⟨by rw [nodeIs,right,right',color],by rw [pivotIs,left',parent,color'],
      by simpa only [right',parent] using others,by rw [root,parent]⟩
  obtain ⟨context',shaped'⟩ := rotate_right context shaped distinct rotated
  have member := indexed.member
  have rewired : Rewired F s s' := by
    apply rewired_of_cells links
    intro x out
    have notMid : e.right ≠ some x := fun isMid => out (member x (by simp [Shape.root_mem (right' ▸ isMid)]))
    have notTop : d.parent ≠ some x := fun isTop => out (member x (by
      rcases List.mem_append.mp (top_mem (parent ▸ isTop)) with m | m <;> simp [m]))
    rw [others x (fun same => out (member x (by simp [same]))) (fun same => out (member x (by simp [same]))),
      if_neg notMid,if_neg notTop]
  exact ⟨s',executed,rewired,indexed_zip context' shaped' parts (by simpa using member)⟩

end TreeState

end BaboEngine
