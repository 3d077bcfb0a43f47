import Mathlib.Data.List.Nodup
import Mathlib.Logic.Function.Basic

/-!
# Red-black trees in linked memory

Binary trees whose nodes are cells of a memory, each with two children, a
parent link and a colour. A tree under construction is a focus together with
the path of frames above it (`zip`): a rotation or a recolouring changes the
focus and the innermost frames only. `Shaped` and `Context` say that a memory
holds a focus and a path, `Balanced` and `Room` that both obey the red-black
rules with a given black height at the hole.
-/

namespace BaboEngine.RedBlack

inductive Color where
  | red
  | black
deriving DecidableEq, Repr

/-- A binary tree of coloured cells. -/
inductive Shape (α : Type) where
  | nil
  | node (c : Color) (l : Shape α) (a : α) (r : Shape α)

/-- An ancestor of the hole: the hole is its left or its right child. -/
inductive Frame (α : Type) where
  | left (c : Color) (a : α) (r : Shape α)
  | right (c : Color) (l : Shape α) (a : α)

variable {α : Type}

namespace Shape

def root : Shape α → Option α
  | .nil => none
  | .node _ _ a _ => some a

/-- Missing children count as black. -/
def color : Shape α → Color
  | .nil => .black
  | .node c _ _ _ => c

def paint (c : Color) : Shape α → Shape α
  | .nil => .nil
  | .node _ l a r => .node c l a r

def inorder : Shape α → List α
  | .nil => []
  | .node _ l a r => l.inorder ++ a :: r.inorder

@[simp] theorem root_nil : (Shape.nil : Shape α).root = none := rfl
@[simp] theorem root_node (c : Color) (l : Shape α) (a : α) (r : Shape α) : (Shape.node c l a r).root = some a := rfl
@[simp] theorem color_nil : (Shape.nil : Shape α).color = .black := rfl
@[simp] theorem color_node (c : Color) (l : Shape α) (a : α) (r : Shape α) : (Shape.node c l a r).color = c := rfl
@[simp] theorem inorder_nil : (Shape.nil : Shape α).inorder = [] := rfl
@[simp] theorem inorder_node (c : Color) (l : Shape α) (a : α) (r : Shape α) :
    (Shape.node c l a r).inorder = l.inorder ++ a :: r.inorder := rfl
@[simp] theorem inorder_paint (c : Color) (t : Shape α) : (t.paint c).inorder = t.inorder := by
  cases t <;> rfl
@[simp] theorem root_paint (c : Color) (t : Shape α) : (t.paint c).root = t.root := by
  cases t <;> rfl

theorem root_mem {t : Shape α} {a : α} (isRoot : t.root = some a) : a ∈ t.inorder := by
  cases t with
  | nil => simp at isRoot
  | node c l b r =>
    simp only [root_node,Option.some.injEq] at isRoot
    simp [isRoot]

end Shape

namespace Frame

def color : Frame α → Color
  | .left c _ _ => c
  | .right c _ _ => c

def addr : Frame α → α
  | .left _ a _ => a
  | .right _ _ a => a

/-- The frame with the hole filled. -/
def plug (t : Shape α) : Frame α → Shape α
  | .left c a r => .node c t a r
  | .right c l a => .node c l a t

end Frame

/-- The tree that a path, innermost frame first, makes of its focus. -/
def zip : List (Frame α) → Shape α → Shape α
  | [], t => t
  | f :: p, t => zip p (f.plug t)

/-- The parent of the hole, `par` where the path is empty. -/
def top (par : Option α) : List (Frame α) → Option α
  | [] => par
  | f :: _ => some f.addr

/-- The cells in order before the hole. -/
def before : List (Frame α) → List α
  | [] => []
  | .left _ _ _ :: p => before p
  | .right _ l a :: p => before p ++ (l.inorder ++ [a])

/-- The cells in order behind the hole. -/
def after : List (Frame α) → List α
  | [] => []
  | .left _ a r :: p => a :: r.inorder ++ after p
  | .right _ _ _ :: p => after p

@[simp] theorem zip_nil (t : Shape α) : zip [] t = t := rfl
@[simp] theorem zip_cons (f : Frame α) (p : List (Frame α)) (t : Shape α) : zip (f :: p) t = zip p (f.plug t) := rfl
@[simp] theorem top_nil (par : Option α) : top par [] = par := rfl
@[simp] theorem top_cons (par : Option α) (f : Frame α) (p : List (Frame α)) : top par (f :: p) = some f.addr := rfl

theorem zip_append (q p : List (Frame α)) (t : Shape α) : zip (q ++ p) t = zip p (zip q t) := by
  induction q generalizing t with
  | nil => rfl
  | cons f q ih => exact ih (f.plug t)

theorem inorder_zip (p : List (Frame α)) (t : Shape α) :
    (zip p t).inorder = before p ++ (t.inorder ++ after p) := by
  induction p generalizing t with
  | nil => simp [before,after]
  | cons f p ih => cases f <;> simp [ih,Frame.plug,before,after]

theorem before_append (q p : List (Frame α)) : before (q ++ p) = before p ++ before q := by
  induction q with
  | nil => simp [before]
  | cons f q ih => cases f <;> simp [before,ih]

theorem after_append (q p : List (Frame α)) : after (q ++ p) = after q ++ after p := by
  induction q with
  | nil => simp [after]
  | cons f q ih => cases f <;> simp [after,ih]

theorem addr_mem (f : Frame α) (p : List (Frame α)) : f.addr ∈ before (f :: p) ++ after (f :: p) := by
  cases f <;> simp [before,after,Frame.addr]

theorem root_zip_isSome (p : List (Frame α)) {t : Shape α} (some : t.root.isSome) : (zip p t).root.isSome := by
  induction p generalizing t with
  | nil => exact some
  | cons f p ih => exact ih (by cases f <;> rfl)

/-- Above a path that is not empty, the root is one of its frames. -/
theorem root_zip_mem {p : List (Frame α)} {t : Shape α} {a : α} (isRoot : (zip p t).root = some a) (notEmpty : p ≠ []) :
    a ∈ before p ++ after p := by
  induction p generalizing t with
  | nil => exact absurd rfl notEmpty
  | cons f p ih =>
    cases p with
    | nil =>
      have : a = f.addr := by cases f <;> simpa [Frame.plug,Frame.addr,eq_comm] using isRoot
      exact this ▸ addr_mem f []
    | cons g p =>
      have inside := ih (t := f.plug t) isRoot (by simp)
      rcases List.mem_append.mp inside with m | m <;> cases f <;> simp [before,after,m]

/-- The in-order position between two parts of a tree is a hole of it. -/
theorem exists_hole : ∀ (t : Shape α) (as bs : List α), t.inorder = as ++ bs →
    ∃ p, zip p .nil = t ∧ before p = as ∧ after p = bs := by
  intro t
  induction t with
  | nil =>
    intro as bs split
    have ⟨asIs,bsIs⟩ := List.append_eq_nil_iff.mp split.symm
    exact ⟨[],rfl,asIs.symm,bsIs.symm⟩
  | node c l a r ihl ihr =>
    intro as bs split
    rcases List.append_eq_append_iff.mp (Shape.inorder_node c l a r ▸ split) with ⟨mid,asIs,rest⟩ | ⟨mid,lIs,rest⟩
    · cases mid with
      | nil =>
        obtain ⟨q,zipIs,beforeIs,afterIs⟩ := ihl l.inorder [] (by simp)
        refine ⟨q ++ [.left c a r],by rw [zip_append,zipIs]; rfl,?_,?_⟩
        · simp [before_append,before,beforeIs,asIs]
        · simpa [after_append,after,afterIs] using rest
      | cons x mid =>
        simp only [List.cons_append,List.cons.injEq] at rest
        obtain ⟨rfl,rIs⟩ := rest
        obtain ⟨q,zipIs,beforeIs,afterIs⟩ := ihr mid bs rIs
        refine ⟨q ++ [.right c l a],by rw [zip_append,zipIs]; rfl,?_,?_⟩
        · simp [before_append,before,beforeIs,asIs]
        · simp [after_append,after,afterIs]
    · obtain ⟨q,zipIs,beforeIs,afterIs⟩ := ihl as mid lIs
      refine ⟨q ++ [.left c a r],by rw [zip_append,zipIs]; rfl,?_,?_⟩
      · simp [before_append,before,beforeIs]
      · simp [after_append,after,afterIs,rest]

/-- Every cell of a tree is the root of a focus of it. -/
theorem exists_focus : ∀ (t : Shape α) (a : α), a ∈ t.inorder → ∃ p c l r, zip p (.node c l a r) = t := by
  intro t
  induction t with
  | nil => intro a member; simp at member
  | node c l b r ihl ihr =>
    intro a member
    simp only [Shape.inorder_node,List.mem_append,List.mem_cons] at member
    rcases member with inL | rfl | inR
    · obtain ⟨q,c',l',r',zipIs⟩ := ihl a inL
      exact ⟨q ++ [.left c b r],c',l',r',by rw [zip_append,zipIs]; rfl⟩
    · exact ⟨[],c,l,r,rfl⟩
    · obtain ⟨q,c',l',r',zipIs⟩ := ihr a inR
      exact ⟨q ++ [.right c l b],c',l',r',by rw [zip_append,zipIs]; rfl⟩

/-- The last cell before a hole is the innermost one that has the hole on its right. -/
theorem last_before : ∀ (p : List (Frame α)) (a : α), (before p).getLast? = some a →
    ∃ q c l p', p = q ++ .right c l a :: p' ∧ before q = [] := by
  intro p
  induction p with
  | nil => intro a last; simp [before] at last
  | cons f p ih =>
    intro a last
    rcases f with ⟨c,x,r⟩ | ⟨c,l,x⟩
    · obtain ⟨q,c',l',p',rfl,first⟩ := ih a last
      exact ⟨.left c x r :: q,c',l',p',rfl,first⟩
    · have isX : x = a := by simpa [before,← List.append_assoc] using last
      exact ⟨[],c,l,p,by rw [isX]; rfl,rfl⟩

/-- The first cell after a hole is the innermost one that has the hole on its left. -/
theorem first_after : ∀ (p : List (Frame α)) (a : α), (after p).head? = some a →
    ∃ q c r p', p = q ++ .left c a r :: p' ∧ after q = [] := by
  intro p
  induction p with
  | nil => intro a first; simp [after] at first
  | cons f p ih =>
    intro a first
    rcases f with ⟨c,x,r⟩ | ⟨c,l,x⟩
    · have isX : x = a := by simpa [after] using first
      exact ⟨[],c,r,p,by rw [isX]; rfl,rfl⟩
    · obtain ⟨q,c',r',p',rfl,last⟩ := ih a first
      exact ⟨.right c l x :: q,c',r',p',rfl,last⟩

/-! ## The red-black rules -/

/-- Black height `n`, equal on all paths, and no red cell with a red child. -/
def Balanced : Nat → Shape α → Prop
  | n, .nil => n = 0
  | n, .node .red l _ r => Balanced n l ∧ Balanced n r ∧ l.color = .black ∧ r.color = .black
  | 0, .node .black _ _ _ => False
  | n+1, .node .black l _ r => Balanced n l ∧ Balanced n r

/-- The innermost frame is there and is black: a red focus may stand below it. -/
def RedRoom : List (Frame α) → Prop
  | [] => False
  | f :: _ => f.color = .black

/-- A path obeys the rules around a hole for a black tree of black height `n`. -/
def Room : Nat → List (Frame α) → Prop
  | _, [] => True
  | n, .left .red _ r :: p => Balanced n r ∧ r.color = .black ∧ Room n p ∧ RedRoom p
  | n, .right .red l _ :: p => Balanced n l ∧ l.color = .black ∧ Room n p ∧ RedRoom p
  | n, .left .black _ r :: p => Balanced n r ∧ Room (n+1) p
  | n, .right .black l _ :: p => Balanced n l ∧ Room (n+1) p

theorem Room.rightSibling {n : Nat} {c : Color} {a : α} {r : Shape α} {p : List (Frame α)} (room : Room n (.left c a r :: p)) :
    Balanced n r := by
  cases c
  · exact room.1
  · exact room.1

theorem Room.leftSibling {n : Nat} {c : Color} {a : α} {l : Shape α} {p : List (Frame α)} (room : Room n (.right c l a :: p)) :
    Balanced n l := by
  cases c
  · exact room.1
  · exact room.1

@[simp] theorem balanced_nil {n : Nat} : Balanced n (.nil : Shape α) ↔ n = 0 := by
  cases n <;> simp [Balanced]
@[simp] theorem balanced_red {n : Nat} {l r : Shape α} {a : α} : Balanced n (.node .red l a r) ↔
    Balanced n l ∧ Balanced n r ∧ l.color = .black ∧ r.color = .black := by
  cases n <;> simp [Balanced]
@[simp] theorem balanced_black_succ {n : Nat} {l r : Shape α} {a : α} :
    Balanced (n+1) (.node .black l a r) ↔ Balanced n l ∧ Balanced n r := by
  simp [Balanced]
@[simp] theorem balanced_black_zero {l r : Shape α} {a : α} : ¬ Balanced 0 (.node .black l a r) := by
  simp [Balanced]

/-- A tree that obeys the rules and has a black root. -/
def Valid (t : Shape α) : Prop := t.color = .black ∧ ∃ n, Balanced n t

theorem valid_zip {p : List (Frame α)} {t : Shape α} {n : Nat} (balanced : Balanced n t) (room : Room n p)
    (fits : t.color = .black ∨ RedRoom p) : Valid (zip p t) := by
  induction p generalizing t n with
  | nil => exact ⟨fits.resolve_right (by simp [RedRoom]),n,balanced⟩
  | cons f p ih =>
    rcases f with ⟨c,a,r⟩ | ⟨c,l,a⟩ <;> cases c
    · obtain ⟨sibling,siblingBlack,outer,black⟩ := room
      have tBlack : t.color = .black := fits.resolve_right (by simp [RedRoom,Frame.color])
      exact ih (t := .node .red t a r) (n := n) (by simp [balanced,sibling,siblingBlack,tBlack]) outer (.inr black)
    · obtain ⟨sibling,outer⟩ := room
      exact ih (t := .node .black t a r) (n := n+1) (by simp [balanced,sibling]) outer (.inl rfl)
    · obtain ⟨sibling,siblingBlack,outer,black⟩ := room
      have tBlack : t.color = .black := fits.resolve_right (by simp [RedRoom,Frame.color])
      exact ih (t := .node .red l a t) (n := n) (by simp [balanced,sibling,siblingBlack,tBlack]) outer (.inr black)
    · obtain ⟨sibling,outer⟩ := room
      exact ih (t := .node .black l a t) (n := n+1) (by simp [balanced,sibling]) outer (.inl rfl)

/-- A focus of a valid tree and its path obey the rules with one black height. -/
theorem room_of_valid {p : List (Frame α)} {t : Shape α} (valid : Valid (zip p t)) :
    ∃ n, Balanced n t ∧ Room n p ∧ (t.color = .black ∨ RedRoom p) := by
  induction p generalizing t with
  | nil =>
    obtain ⟨black,n,balanced⟩ := valid
    exact ⟨n,balanced,trivial,.inl black⟩
  | cons f p ih =>
    obtain ⟨n,balanced,room,fits⟩ := ih valid
    rcases f with ⟨c,a,r⟩ | ⟨c,l,a⟩ <;> cases c <;> simp only [Frame.plug,Shape.color_node] at balanced fits
    · rw [balanced_red] at balanced
      obtain ⟨tOk,rOk,tBlack,rBlack⟩ := balanced
      exact ⟨n,tOk,⟨rOk,rBlack,room,fits.resolve_left (by simp)⟩,.inl tBlack⟩
    · cases n with
      | zero => exact absurd balanced balanced_black_zero
      | succ n =>
        obtain ⟨tOk,rOk⟩ := balanced_black_succ.mp balanced
        exact ⟨n,tOk,⟨rOk,room⟩,.inr rfl⟩
    · rw [balanced_red] at balanced
      obtain ⟨lOk,tOk,lBlack,tBlack⟩ := balanced
      exact ⟨n,tOk,⟨lOk,lBlack,room,fits.resolve_left (by simp)⟩,.inl tBlack⟩
    · cases n with
      | zero => exact absurd balanced balanced_black_zero
      | succ n =>
        obtain ⟨lOk,tOk⟩ := balanced_black_succ.mp balanced
        exact ⟨n,tOk,⟨lOk,room⟩,.inr rfl⟩

/-- The rules around the hole do not depend on which cells the frames are. -/
theorem room_replace {n : Nat} {q p : List (Frame α)} {c : Color} {l : Shape α} {a b : α}
    (room : Room n (q ++ .right c l a :: p)) : Room n (q ++ .right c l b :: p) := by
  induction q generalizing n with
  | nil => cases c <;> exact room
  | cons f q ih =>
    have redRoom : RedRoom (q ++ .right c l a :: p) → RedRoom (q ++ .right c l b :: p) := by
      cases q <;> exact id
    rcases f with ⟨d,x,r⟩ | ⟨d,s,x⟩ <;> cases d
    · exact ⟨room.1,room.2.1,ih room.2.2.1,redRoom room.2.2.2⟩
    · exact ⟨room.1,ih room.2⟩
    · exact ⟨room.1,room.2.1,ih room.2.2.1,redRoom room.2.2.2⟩
    · exact ⟨room.1,ih room.2⟩

/-! ## Trees in memory -/

/-- The links and the colour of a cell. -/
structure Cell (α : Type) where
  left : Option α
  right : Option α
  parent : Option α
  color : Color
deriving DecidableEq

variable {cell cell' : α → Option (Cell α)}

/-- The memory holds the tree, its root naming `par` as parent. -/
def Shaped (cell : α → Option (Cell α)) : Option α → Shape α → Prop
  | _, .nil => True
  | par, .node c l a r =>
    cell a = some ⟨l.root,r.root,par,c⟩ ∧ Shaped cell (some a) l ∧ Shaped cell (some a) r

/-- The memory holds the path: a tree rooted at `root` below `par`, with the
    link `hole` in the place of the focus. -/
def Context (cell : α → Option (Cell α)) (par root : Option α) : List (Frame α) → Option α → Prop
  | [], hole => root = hole
  | .left c a r :: p, hole =>
    cell a = some ⟨hole,r.root,top par p,c⟩ ∧ Shaped cell (some a) r ∧ Context cell par root p (some a)
  | .right c l a :: p, hole =>
    cell a = some ⟨l.root,hole,top par p,c⟩ ∧ Shaped cell (some a) l ∧ Context cell par root p (some a)

theorem shaped_congr {par : Option α} {t : Shape α} (shaped : Shaped cell par t)
    (same : ∀ a ∈ t.inorder, cell' a = cell a) : Shaped cell' par t := by
  induction t generalizing par with
  | nil => trivial
  | node c l a r ihl ihr =>
    obtain ⟨here,left,right⟩ := shaped
    refine ⟨by rw [same a (by simp)]; exact here,ihl left ?_,ihr right ?_⟩
    · intro x member; exact same x (by simp [member])
    · intro x member; exact same x (by simp [member])

theorem context_congr {par root hole : Option α} {p : List (Frame α)} (context : Context cell par root p hole)
    (same : ∀ a ∈ before p ++ after p, cell' a = cell a) : Context cell' par root p hole := by
  induction p generalizing hole with
  | nil => exact context
  | cons f p ih =>
    have outer : ∀ a ∈ before p ++ after p, cell' a = cell a := by
      intro a member
      apply same
      rcases List.mem_append.mp member with m | m <;> cases f <;> simp [before,after,m]
    rcases f with ⟨c,a,r⟩ | ⟨c,l,a⟩
    · obtain ⟨here,sibling,rest⟩ := context
      exact ⟨by rw [same a (by simp [after])]; exact here,
        shaped_congr sibling (fun x m => same x (by simp [after,m])),ih rest outer⟩
    · obtain ⟨here,sibling,rest⟩ := context
      exact ⟨by rw [same a (by simp [before])]; exact here,
        shaped_congr sibling (fun x m => same x (by simp [before,m])),ih rest outer⟩

/-- Memory holds a tree exactly when it holds any focus of it and its path. -/
theorem shaped_zip {par root : Option α} {p : List (Frame α)} {t : Shape α} :
    (Context cell par root p t.root ∧ Shaped cell (top par p) t) ↔
      (Shaped cell par (zip p t) ∧ root = (zip p t).root) := by
  induction p generalizing t with
  | nil => simp [Context,and_comm]
  | cons f p ih =>
    rw [zip_cons,← ih]
    rcases f with ⟨c,a,r⟩ | ⟨c,l,a⟩ <;> simp only [Context,Shaped,Frame.plug,Shape.root_node,top_cons,Frame.addr] <;> tauto

section
variable [DecidableEq α]

/-- Only the root of a tree knows its parent. -/
theorem shaped_reparent {par : Option α} (par' : Option α) {t : Shape α} (shaped : Shaped cell par t) (nodup : t.inorder.Nodup)
    (same : ∀ a ∈ t.inorder, cell' a = if t.root = some a then (cell a).map (fun k => { k with parent := par' })
      else cell a) : Shaped cell' par' t := by
  cases t with
  | nil => trivial
  | node c l a r =>
    obtain ⟨here,left,right⟩ := shaped
    have apart := List.nodup_append.mp nodup
    have notLeft : a ∉ l.inorder := fun m => apart.2.2 a m a (by simp) rfl
    have notRight : a ∉ r.inorder := (List.nodup_cons.mp apart.2.1).1
    refine ⟨by rw [same a (by simp)]; simp [here],shaped_congr left ?_,shaped_congr right ?_⟩
    · intro x member
      have other : a ≠ x := fun h => notLeft (h ▸ member)
      rw [same x (by simp [member])]
      simp [other]
    · intro x member
      have other : a ≠ x := fun h => notRight (h ▸ member)
      rw [same x (by simp [member])]
      simp [other]

/-- Exchanging a child link: the left one if it names `x`, else the right one. -/
def Cell.relink (x : α) (y : Option α) (k : Cell α) : Cell α :=
  if k.left = some x then { k with left := y } else { k with right := y }

/-- Putting another root into the hole of a path. -/
theorem context_relink {root root' : Option α} {p : List (Frame α)} {x : α} {y : Option α}
    (context : Context cell none root p (some x)) (nodup : (before p ++ after p).Nodup) (outside : x ∉ before p)
    (same : ∀ a ∈ before p ++ after p, cell' a = if top none p = some a then (cell a).map (Cell.relink x y)
      else cell a) (rootIs : root' = if top none p = none then y else root) : Context cell' none root' p y := by
  cases p with
  | nil =>
    simpa [Context] using rootIs
  | cons f p =>
    simp only [top_cons,reduceCtorEq,↓reduceIte] at rootIs
    subst rootIs
    simp only [top_cons,Option.some.injEq] at same
    rcases f with ⟨c,a,r⟩ | ⟨c,l,a⟩
    · obtain ⟨here,sibling,rest⟩ := context
      simp only [before,after,Frame.addr] at nodup same
      have apart := List.nodup_append.mp nodup
      refine ⟨by rw [same a (by simp)]; simp [here,Cell.relink],shaped_congr sibling ?_,context_congr rest ?_⟩
      · intro z member
        have other : a ≠ z := fun h => by
          have := (List.nodup_cons.mp apart.2.1).1
          exact this (by simp [h,member])
        rw [same z (by simp [member])]
        simp [other]
      · intro z member
        have other : a ≠ z := fun h => by
          cases List.mem_append.mp member with
          | inl m => exact apart.2.2 z m a (by simp) h.symm
          | inr m => exact (List.nodup_cons.mp apart.2.1).1 (by simp [h,m])
        rw [same z (by rcases List.mem_append.mp member with m | m <;> simp [m])]
        simp [other]
    · obtain ⟨here,sibling,rest⟩ := context
      simp only [before,after,Frame.addr] at nodup same outside
      have apart := List.nodup_append.mp nodup
      have inner := List.nodup_append.mp apart.1
      have notChild : l.root ≠ some x := fun h => outside (by simp [Shape.root_mem h])
      refine ⟨by rw [same a (by simp)]; simp [here,Cell.relink,notChild],shaped_congr sibling ?_,context_congr rest ?_⟩
      · intro z member
        have other : a ≠ z := fun h => (List.nodup_append.mp inner.2.1).2.2 z member a (by simp) h.symm
        rw [same z (by simp [member])]
        simp [other]
      · intro z member
        have other : a ≠ z := fun h => by
          cases List.mem_append.mp member with
          | inl m => exact inner.2.2 z m a (by simp) h.symm
          | inr m => exact apart.2.2 a (by simp) z m h
        rw [same z (by rcases List.mem_append.mp member with m | m <;> simp [m])]
        simp [other]

/-- The cells after a left rotation at `a`, whose right child `a'` takes its place. -/
structure RotatedLeft (cell cell' : α → Option (Cell α)) (root root' : Option α) (p : List (Frame α))
    (c c' : Color) (l b r : Shape α) (a a' : α) : Prop where
  node : cell' a = some ⟨l.root,b.root,some a',c⟩
  pivot : cell' a' = some ⟨some a,r.root,top none p,c'⟩
  others : ∀ x, x ≠ a → x ≠ a' → cell' x =
    if b.root = some x then (cell x).map (fun k => { k with parent := some a })
    else if top none p = some x then (cell x).map (Cell.relink a (some a')) else cell x
  root : root' = if top none p = none then some a' else root

theorem rotate_left {root root' : Option α} {p : List (Frame α)} {c c' : Color} {l b r : Shape α} {a a' : α}
    (context : Context cell none root p (some a))
    (shaped : Shaped cell (top none p) (.node c l a (.node c' b a' r)))
    (nodup : (before p ++ ((Shape.node c l a (.node c' b a' r)).inorder ++ after p)).Nodup)
    (rotated : RotatedLeft cell cell' root root' p c c' l b r a a') :
    Context cell' none root' p (some a') ∧ Shaped cell' (top none p) (.node c' (.node c l a b) a' r) := by
  obtain ⟨atNode,atPivot,others,rootIs⟩ := rotated
  obtain ⟨_,leftOk,_,midOk,rightOk⟩ := shaped
  simp only [Shape.inorder_node,List.append_assoc,List.cons_append] at nodup
  have distinct := nodup
  simp only [List.nodup_append,List.nodup_cons,List.mem_append,List.mem_cons] at distinct
  have topMem : ∀ x, top none p = some x → x ∈ before p ++ after p := by
    intro x isTop
    cases p with
    | nil => simp at isTop
    | cons f p =>
      simp only [top_cons,Option.some.injEq] at isTop
      exact isTop ▸ addr_mem f p
  have bMem : ∀ x, b.root = some x → x ∈ b.inorder := fun x => Shape.root_mem
  refine ⟨?_,atPivot,⟨atNode,?_,?_⟩,?_⟩
  · refine context_relink context ?_ ?_ ?_ rootIs
    · refine List.Sublist.nodup ?_ nodup
      exact List.Sublist.append_left (List.sublist_append_of_sublist_right
        (List.sublist_cons_of_sublist _ (List.sublist_append_of_sublist_right
          (List.sublist_cons_of_sublist _ (List.sublist_append_right _ _))))) _
    · intro member
      exact distinct.2.2 a member a (.inr (.inl rfl)) rfl
    · intro x member
      have notB : b.root ≠ some x := by
        intro isRoot
        have := bMem x isRoot
        rcases List.mem_append.mp member with m | m <;> grind
      rw [others x (by rcases List.mem_append.mp member with m | m <;> grind)
        (by rcases List.mem_append.mp member with m | m <;> grind)]
      simp [notB]
  · apply shaped_congr leftOk
    intro x member
    have notB : b.root ≠ some x := fun isRoot => by have := bMem x isRoot; grind
    have notTop : top none p ≠ some x := fun isTop => by
      rcases List.mem_append.mp (topMem x isTop) with m | m <;> grind
    rw [others x (by grind) (by grind)]
    simp [notB,notTop]
  · apply shaped_reparent _ midOk (by grind)
    intro x member
    have notTop : top none p ≠ some x := fun isTop => by
      rcases List.mem_append.mp (topMem x isTop) with m | m <;> grind
    rw [others x (by grind) (by grind)]
    simp [notTop]
  · apply shaped_congr rightOk
    intro x member
    have notB : b.root ≠ some x := fun isRoot => by have := bMem x isRoot; grind
    have notTop : top none p ≠ some x := fun isTop => by
      rcases List.mem_append.mp (topMem x isTop) with m | m <;> grind
    rw [others x (by grind) (by grind)]
    simp [notB,notTop]

end

/-! ## Mirror images -/

def Shape.mirror : Shape α → Shape α
  | .nil => .nil
  | .node c l a r => .node c r.mirror a l.mirror

def Frame.mirror : Frame α → Frame α
  | .left c a r => .right c r.mirror a
  | .right c l a => .left c a l.mirror

def Cell.mirror (k : Cell α) : Cell α := ⟨k.right,k.left,k.parent,k.color⟩

/-- A memory seen in a mirror. -/
def mirrored (cell : α → Option (Cell α)) (a : α) : Option (Cell α) := (cell a).map Cell.mirror

@[simp] theorem Shape.mirror_mirror (t : Shape α) : t.mirror.mirror = t := by
  induction t with
  | nil => rfl
  | node c l a r ihl ihr => simp only [Shape.mirror,ihl,ihr]

@[simp] theorem Shape.root_mirror (t : Shape α) : t.mirror.root = t.root := by cases t <;> rfl
@[simp] theorem Shape.inorder_mirror (t : Shape α) : t.mirror.inorder = t.inorder.reverse := by
  induction t with
  | nil => rfl
  | node c l a r ihl ihr => simp [Shape.mirror,ihl,ihr]

@[simp] theorem Frame.mirror_mirror (f : Frame α) : f.mirror.mirror = f := by cases f <;> simp [Frame.mirror]

theorem map_mirror_mirror (p : List (Frame α)) : (p.map Frame.mirror).map Frame.mirror = p := by
  simp [Function.comp_def]

@[simp] theorem top_mirror (par : Option α) (p : List (Frame α)) : top par (p.map Frame.mirror) = top par p := by
  cases p with
  | nil =>
    rfl
  | cons f p =>
    cases f <;> rfl

theorem before_mirror (p : List (Frame α)) : before (p.map Frame.mirror) = (after p).reverse := by
  induction p with
  | nil => rfl
  | cons f p ih => cases f <;> simp [before,after,Frame.mirror,ih]

theorem after_mirror (p : List (Frame α)) : after (p.map Frame.mirror) = (before p).reverse := by
  induction p with
  | nil => rfl
  | cons f p ih => cases f <;> simp [before,after,Frame.mirror,ih]

@[simp] theorem mirrored_mirrored (cell : α → Option (Cell α)) : mirrored (mirrored cell) = cell := by
  funext a
  cases h : cell a <;> simp [mirrored,h,Cell.mirror]

theorem shaped_mirror {par : Option α} {t : Shape α} (shaped : Shaped cell par t) :
    Shaped (mirrored cell) par t.mirror := by
  induction t generalizing par with
  | nil => trivial
  | node c l a r ihl ihr =>
    obtain ⟨here,left,right⟩ := shaped
    exact ⟨by simp [mirrored,here,Cell.mirror],ihr right,ihl left⟩

theorem context_mirror {par root hole : Option α} {p : List (Frame α)} (context : Context cell par root p hole) :
    Context (mirrored cell) par root (p.map Frame.mirror) hole := by
  induction p generalizing hole with
  | nil => exact context
  | cons f p ih =>
    rcases f with ⟨c,a,r⟩ | ⟨c,l,a⟩
    · obtain ⟨here,sibling,rest⟩ := context
      exact ⟨by simp [mirrored,here,Cell.mirror],shaped_mirror sibling,ih rest⟩
    · obtain ⟨here,sibling,rest⟩ := context
      exact ⟨by simp [mirrored,here,Cell.mirror],shaped_mirror sibling,ih rest⟩

section
variable [DecidableEq α]

/-- Exchanging a child link: the right one if it names `x`, else the left one. -/
def Cell.relinkRight (x : α) (y : Option α) (k : Cell α) : Cell α :=
  if k.right = some x then { k with right := y } else { k with left := y }

/-- The cells after a right rotation at `a`, whose left child `a'` takes its place. -/
structure RotatedRight (cell cell' : α → Option (Cell α)) (root root' : Option α) (p : List (Frame α))
    (c c' : Color) (l b r : Shape α) (a' a : α) : Prop where
  node : cell' a = some ⟨b.root,r.root,some a',c⟩
  pivot : cell' a' = some ⟨l.root,some a,top none p,c'⟩
  others : ∀ x, x ≠ a → x ≠ a' → cell' x =
    if b.root = some x then (cell x).map (fun k => { k with parent := some a })
    else if top none p = some x then (cell x).map (Cell.relinkRight a (some a')) else cell x
  root : root' = if top none p = none then some a' else root

theorem rotate_right {root root' : Option α} {p : List (Frame α)} {c c' : Color} {l b r : Shape α} {a' a : α}
    (context : Context cell none root p (some a))
    (shaped : Shaped cell (top none p) (.node c (.node c' l a' b) a r))
    (nodup : (before p ++ ((Shape.node c (.node c' l a' b) a r).inorder ++ after p)).Nodup)
    (rotated : RotatedRight cell cell' root root' p c c' l b r a' a) :
    Context cell' none root' p (some a') ∧ Shaped cell' (top none p) (.node c' l a' (.node c b a r)) := by
  obtain ⟨atNode,atPivot,others,rootIs⟩ := rotated
  have image : RotatedLeft (mirrored cell) (mirrored cell') root root' (p.map Frame.mirror) c c'
      r.mirror b.mirror l.mirror a a' := by
    refine ⟨by simp [mirrored,atNode,Cell.mirror],by simp [mirrored,atPivot,Cell.mirror],?_,by simpa using rootIs⟩
    intro x notNode notPivot
    simp only [mirrored,others x notNode notPivot,Shape.root_mirror,top_mirror]
    cases cell x with
    | none => split_ifs <;> rfl
    | some k =>
      split_ifs
      · rfl
      · simp only [Option.map_some,Cell.mirror,Cell.relink,Cell.relinkRight]
        split_ifs <;> rfl
      · rfl
  have flipped : (before (p.map Frame.mirror) ++
      ((Shape.node c r.mirror a (.node c' b.mirror a' l.mirror)).inorder ++ after (p.map Frame.mirror))).Nodup := by
    have whole := List.nodup_reverse.mpr nodup
    simpa [before_mirror,after_mirror] using whole
  obtain ⟨context',shaped'⟩ := rotate_left (context_mirror context) (by simpa [Shape.mirror] using shaped_mirror shaped)
    flipped image
  constructor
  · have back := context_mirror context'
    rwa [map_mirror_mirror,mirrored_mirrored] at back
  · simpa [Shape.mirror] using shaped_mirror shaped'

end

end BaboEngine.RedBlack
