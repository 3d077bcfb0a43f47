import BaboEngine.MemoryPool
import BaboEngine.PinNode
import BaboEngine.RedBlack

/-!
# The NARB tree

One side of a book: a red-black tree of price levels, threaded in price order,
over one chain of nodes that holds all orders of the side in priority order.
The functions follow `narb_tree.h`. A function is `none` where the source would
run into undefined behaviour (a null or dangling link followed, an order put into
a full node, a write past the end of `path`) and where a loop has not ended
after more rounds than there are levels in the pool; both are excluded below.
-/

namespace BaboEngine
open RedBlack (Color)

/-- The template parameter of a tree. -/
inductive OrderType where
  | BID
  | ASK
deriving DecidableEq, Repr

/-- The better of two prices: higher for bids, lower for asks. -/
def OrderType.better : OrderType → Nat → Nat → Prop
  | .BID, p, q => p > q
  | .ASK, p, q => p < q

instance : (type : OrderType) → (p q : Nat) → Decidable (type.better p q)
  | .BID, p, q => inferInstanceAs (Decidable (p > q))
  | .ASK, p, q => inferInstanceAs (Decidable (p < q))

/-- A slot of a node. The null location `{nullptr, 0}` is `none`. -/
structure OrderLoc where
  pinLoc : Ptr
  index : Nat
deriving DecidableEq, Repr

structure PriceLevel where
  left : Option Ptr
  right : Option Ptr
  parent : Option Ptr
  pred : Option Ptr
  succ : Option Ptr
  color : Color
  price : Nat
  quantity : Nat
  count : Nat
  head : Option OrderLoc
  tail : Option OrderLoc
deriving DecidableEq

namespace PriceLevel

def isEmpty (d : PriceLevel) : Bool := d.head.isNone

/-- The child link that names `u`, the left one before the right one, now names `v`. -/
def relink (u : Ptr) (v : Option Ptr) (e : PriceLevel) : PriceLevel :=
  if e.left = some u then { e with left := v } else { e with right := v }

/-- The child link that names `u`, the right one before the left one, now names `v`. -/
def relinkRight (u : Ptr) (v : Option Ptr) (e : PriceLevel) : PriceLevel :=
  if e.right = some u then { e with right := v } else { e with left := v }

/-- The neighbour on the better side. -/
def better (type : OrderType) (d : PriceLevel) : Option Ptr :=
  match type with
  | .BID => d.succ
  | .ASK => d.pred

/-- The neighbour on the worse side. -/
def worse (type : OrderType) (d : PriceLevel) : Option Ptr :=
  match type with
  | .BID => d.pred
  | .ASK => d.succ

/-- `make_level` sets every field of the descriptor it allocates. -/
def new (price : Nat) : PriceLevel where
  left := none
  right := none
  parent := none
  pred := none
  succ := none
  color := .red
  price := price
  quantity := 0
  count := 0
  head := none
  tail := none

end PriceLevel

/-- The two process-wide pools. -/
structure Heap (N : Capacity) where
  nodes : AllocatorPool (PinNode N) 128
  levels : AllocatorPool PriceLevel 1024

structure NarbTree where
  orderIndex : Nat → Option OrderLoc
  best : Option Ptr
  root : Option Ptr
  chainHead : Option Ptr
  chainTail : Option Ptr

/-- A tree before its first order. -/
def NarbTree.empty : NarbTree := ⟨fun _ => none,none,none,none,none⟩

/-- Pools before their first use. -/
def Heap.empty {N : Capacity} : Heap N := ⟨.empty,.empty⟩

/-- A tree together with the pools. -/
structure TreeState (N : Capacity) extends Heap N, NarbTree

namespace TreeState
variable {N : Capacity}

def level (s : TreeState N) (a : Ptr) : Option PriceLevel := s.levels.read a

def node (s : TreeState N) (a : Ptr) : Option (PinNode N) := s.nodes.read a

/-- A write through a pointer to a level, which must be live. -/
def modifyLevel (s : TreeState N) (a : Ptr) (f : PriceLevel → PriceLevel) : Option (TreeState N) :=
  (s.level a).map fun d => { s with levels := s.levels.write a (f d) }

/-- A write through a pointer to a node, which must be live. -/
def modifyNode (s : TreeState N) (a : Ptr) (f : PinNode N → PinNode N) : Option (TreeState N) :=
  (s.node a).map fun n => { s with nodes := s.nodes.write a (f n) }

/-- A write that the source guards with a null test. -/
def modifyLevelIf (s : TreeState N) (p : Option Ptr) (f : PriceLevel → PriceLevel) : Option (TreeState N) :=
  match p with
  | none => some s
  | some a => s.modifyLevel a f

/-- The order in a slot. -/
def orderAt (s : TreeState N) (l : OrderLoc) : Option SimpleOrder :=
  (s.node l.pinLoc).map fun n => n.slots l.index

/-! ## The price index -/

structure SearchResult where
  existing : Option Ptr
  pred : Option Ptr
  succ : Option Ptr
deriving DecidableEq

def findNeighborsLoop (s : TreeState N) (price : Nat) : Nat → Ptr → Option SearchResult
  | 0, _ => none
  | rounds + 1, curr => do
    let d ← s.level curr
    if price < d.price then
      match d.left with
      | none => some ⟨none,d.pred,some curr⟩
      | some l => s.findNeighborsLoop price rounds l
    else if price > d.price then
      match d.right with
      | none => some ⟨none,some curr,d.succ⟩
      | some r => s.findNeighborsLoop price rounds r
    else some ⟨some curr,d.pred,d.succ⟩

def findNeighbors (s : TreeState N) (price : Nat) : Option SearchResult :=
  match s.root with
  | none => some ⟨none,none,none⟩
  | some r => s.findNeighborsLoop price (s.levels.nbElements + 1) r

/-- `if (!up) _root = v; else if (u == up->left) up->left = v; else up->right = v;` -/
def replaceChild (s : TreeState N) (up : Option Ptr) (u : Ptr) (v : Option Ptr) : Option (TreeState N) :=
  match up with
  | none => some { s with root := v }
  | some q => s.modifyLevel q (.relink u v)

/-- `if (!up) _root = v; else if (u == up->right) up->right = v; else up->left = v;` -/
def replaceChildRight (s : TreeState N) (up : Option Ptr) (u : Ptr) (v : Option Ptr) : Option (TreeState N) :=
  match up with
  | none => some { s with root := v }
  | some q => s.modifyLevel q (.relinkRight u v)

def leftRotate (s : TreeState N) (node : Ptr) : Option (TreeState N) := do
  let d ← s.level node
  let pivot ← d.right
  let p ← s.level pivot
  let s ← s.modifyLevel node fun d => { d with right := p.left }
  let s ← s.modifyLevelIf p.left fun d => { d with parent := some node }
  let up := (← s.level node).parent
  let s ← s.modifyLevel pivot fun p => { p with parent := up }
  let s ← s.replaceChild up node (some pivot)
  let s ← s.modifyLevel pivot fun p => { p with left := some node }
  s.modifyLevel node fun d => { d with parent := some pivot }

def rightRotate (s : TreeState N) (node : Ptr) : Option (TreeState N) := do
  let d ← s.level node
  let pivot ← d.left
  let p ← s.level pivot
  let s ← s.modifyLevel node fun d => { d with left := p.right }
  let s ← s.modifyLevelIf p.right fun d => { d with parent := some node }
  let up := (← s.level node).parent
  let s ← s.modifyLevel pivot fun p => { p with parent := up }
  let s ← s.replaceChildRight up node (some pivot)
  let s ← s.modifyLevel pivot fun p => { p with right := some node }
  s.modifyLevel node fun d => { d with parent := some pivot }

def setColor (s : TreeState N) (a : Ptr) (c : Color) : Option (TreeState N) :=
  s.modifyLevel a fun d => { d with color := c }

/-- `color_of`: a null pointer counts as black. -/
def colorOf (s : TreeState N) : Option Ptr → Option Color
  | none => some .black
  | some a => (s.level a).map (·.color)

/-- `x->parent` black, `x->parent->parent` red and rotated to the right. -/
def raiseParentRight (s : TreeState N) (x : Ptr) : Option (TreeState N) := do
  let xp ← (← s.level x).parent
  let s ← s.setColor xp .black
  let g ← (← s.level xp).parent
  let s ← s.setColor g .red
  s.rightRotate g

/-- `x->parent` black, `x->parent->parent` red and rotated to the left. -/
def raiseParentLeft (s : TreeState N) (x : Ptr) : Option (TreeState N) := do
  let xp ← (← s.level x).parent
  let s ← s.setColor xp .black
  let g ← (← s.level xp).parent
  let s ← s.setColor g .red
  s.leftRotate g

/-- `if (x == x->parent->right) { x = x->parent; left_rotate(x); }` -/
def straightenLeft (s : TreeState N) (x xp : Ptr) : Option (TreeState N × Ptr) := do
  if (← s.level xp).right = some x then (s.leftRotate xp).map fun s => (s,xp) else some (s,x)

/-- `if (x == x->parent->left) { x = x->parent; right_rotate(x); }` -/
def straightenRight (s : TreeState N) (x xp : Ptr) : Option (TreeState N × Ptr) := do
  if (← s.level xp).left = some x then (s.rightRotate xp).map fun s => (s,xp) else some (s,x)

/-- The loop of `insert_rebalance`; `y && y->_color == RED` is `colorOf y = red`. -/
def insertRebalanceLoop : Nat → TreeState N → Ptr → Option (TreeState N)
  | 0, _, _ => none
  | rounds + 1, s, x =>
    if s.root = some x then some s else do
      let xp ← (← s.level x).parent
      let dp ← s.level xp
      if dp.color = .black then some s else do
        let g ← dp.parent
        let dg ← s.level g
        if dg.left = some xp then
          let y := dg.right
          if (← s.colorOf y) = .red then do
            let s ← s.setColor xp .black
            let s ← s.setColor (← y) .black
            let s ← s.setColor g .red
            insertRebalanceLoop rounds s g
          else do
            let (s,x) ← s.straightenLeft x xp
            let s ← s.raiseParentRight x
            insertRebalanceLoop rounds s x
        else
          let y := dg.left
          if (← s.colorOf y) = .red then do
            let s ← s.setColor xp .black
            let s ← s.setColor (← y) .black
            let s ← s.setColor g .red
            insertRebalanceLoop rounds s g
          else do
            let (s,x) ← s.straightenRight x xp
            let s ← s.raiseParentLeft x
            insertRebalanceLoop rounds s x

def insertRebalance (s : TreeState N) (x : Ptr) : Option (TreeState N) := do
  let s ← s.setColor x .red
  let s ← insertRebalanceLoop (s.levels.nbElements + 1) s x
  s.setColor (← s.root) .black

/-- `pred && !pred->right`. -/
def rightFree (s : TreeState N) : Option Ptr → Option Bool
  | none => some false
  | some p => (s.level p).map fun d => d.right.isNone

/-- The first part of `neighbor_aware_insert`: the new level becomes the root, the right
    child of its predecessor where that link is free, else the left child of its successor. -/
def attachLevel (s : TreeState N) (newNode : Ptr) (pred succ : Option Ptr) : Option (TreeState N) :=
  match s.root with
  | none => some { s with root := some newNode, best := some newNode }
  | some _ => do
    if ← s.rightFree pred then do
      let p ← pred
      let s ← s.modifyLevel p fun d => { d with right := some newNode }
      s.modifyLevel newNode fun d => { d with parent := some p }
    else do
      let q ← succ
      let s ← s.modifyLevel q fun d => { d with left := some newNode }
      s.modifyLevel newNode fun d => { d with parent := some q }

/-- The second part: the threads. -/
def threadLevel (s : TreeState N) (newNode : Ptr) (pred succ : Option Ptr) : Option (TreeState N) := do
  let s ← s.modifyLevel newNode fun d => { d with pred := pred, succ := succ }
  let s ← s.modifyLevelIf pred fun d => { d with succ := some newNode }
  s.modifyLevelIf succ fun d => { d with pred := some newNode }

/-- The third part: best is the minimum of the asks, the maximum of the bids. -/
def raiseBest (type : OrderType) (s : TreeState N) (newNode : Ptr) (pred succ : Option Ptr) : TreeState N :=
  match type with
  | .BID => if succ.isNone then { s with best := some newNode } else s
  | .ASK => if pred.isNone then { s with best := some newNode } else s

def neighborAwareInsert (type : OrderType) (s : TreeState N) (newNode : Ptr) (pred succ : Option Ptr) :
    Option (TreeState N) := do
  let s ← s.attachLevel newNode pred succ
  let s ← s.threadLevel newNode pred succ
  (raiseBest type s newNode pred succ).insertRebalance newNode

/-! ## Level removal -/

def treeMinimumLoop (s : TreeState N) : Nat → Ptr → Option Ptr
  | 0, _ => none
  | rounds + 1, n => do
    match (← s.level n).left with
    | none => some n
    | some l => s.treeMinimumLoop rounds l

def treeMinimum (s : TreeState N) (n : Ptr) : Option Ptr := s.treeMinimumLoop (s.levels.nbElements + 1) n

def transplant (s : TreeState N) (u : Ptr) (v : Option Ptr) : Option (TreeState N) := do
  let d ← s.level u
  let s ← s.replaceChild d.parent u v
  s.modifyLevelIf v fun e => { e with parent := d.parent }

/-- In a round of `rb_delete_fixup` whose `x` is a left child: a red sibling `w` is rotated away. -/
def turnSiblingLeft (s : TreeState N) (parent w : Ptr) : Option (TreeState N × Ptr) := do
  if (← s.colorOf (some w)) = .red then do
    let s ← s.setColor w .black
    let s ← s.setColor parent .red
    let s ← s.leftRotate parent
    let w ← (← s.level parent).right
    some (s,w)
  else some (s,w)

/-- In the same round, where the outer child of `w` is black: its red child is rotated up. -/
def turnNephewLeft (s : TreeState N) (parent w : Ptr) : Option (TreeState N × Ptr) := do
  let dw ← s.level w
  if (← s.colorOf dw.right) = .black then do
    let s ← s.modifyLevelIf dw.left fun e => { e with color := .black }
    let s ← s.setColor w .red
    let s ← s.rightRotate w
    let w ← (← s.level parent).right
    some (s,w)
  else some (s,w)

/-- In the same round, where a child of `w` is red: the rotations that end the loop. -/
def borrowLeft (s : TreeState N) (parent w : Ptr) : Option (TreeState N) := do
  let (s,w) ← s.turnNephewLeft parent w
  let s ← s.setColor w (← s.level parent).color
  let s ← s.setColor parent .black
  let s ← s.modifyLevelIf (← s.level w).right fun e => { e with color := .black }
  s.leftRotate parent

/-- `turnSiblingLeft` for an `x` that is a right child. -/
def turnSiblingRight (s : TreeState N) (parent w : Ptr) : Option (TreeState N × Ptr) := do
  if (← s.colorOf (some w)) = .red then do
    let s ← s.setColor w .black
    let s ← s.setColor parent .red
    let s ← s.rightRotate parent
    let w ← (← s.level parent).left
    some (s,w)
  else some (s,w)

/-- `turnNephewLeft` for an `x` that is a right child. -/
def turnNephewRight (s : TreeState N) (parent w : Ptr) : Option (TreeState N × Ptr) := do
  let dw ← s.level w
  if (← s.colorOf dw.left) = .black then do
    let s ← s.modifyLevelIf dw.right fun e => { e with color := .black }
    let s ← s.setColor w .red
    let s ← s.leftRotate w
    let w ← (← s.level parent).left
    some (s,w)
  else some (s,w)

/-- `borrowLeft` for an `x` that is a right child. -/
def borrowRight (s : TreeState N) (parent w : Ptr) : Option (TreeState N) := do
  let (s,w) ← s.turnNephewRight parent w
  let s ← s.setColor w (← s.level parent).color
  let s ← s.setColor parent .black
  let s ← s.modifyLevelIf (← s.level w).left fun e => { e with color := .black }
  s.rightRotate parent

def rbDeleteFixupLoop : Nat → TreeState N → Option Ptr → Option Ptr → Option (TreeState N × Option Ptr)
  | 0, _, _, _ => none
  | rounds + 1, s, x, xParent =>
    if x = s.root then some (s,x) else do
      if (← s.colorOf x) = .red then some (s,x) else do
        let parent ← xParent
        let dp ← s.level parent
        if x = dp.left then do
          let (s,w) ← s.turnSiblingLeft parent (← dp.right)
          let dw ← s.level w
          if (← s.colorOf dw.left) = .black ∧ (← s.colorOf dw.right) = .black then do
            let s ← s.setColor w .red
            rbDeleteFixupLoop rounds s (some parent) (← s.level parent).parent
          else do
            let s ← s.borrowLeft parent w
            rbDeleteFixupLoop rounds s s.root none
        else do
          let (s,w) ← s.turnSiblingRight parent (← dp.left)
          let dw ← s.level w
          if (← s.colorOf dw.right) = .black ∧ (← s.colorOf dw.left) = .black then do
            let s ← s.setColor w .red
            rbDeleteFixupLoop rounds s (some parent) (← s.level parent).parent
          else do
            let s ← s.borrowRight parent w
            rbDeleteFixupLoop rounds s s.root none

def rbDeleteFixup (s : TreeState N) (x xParent : Option Ptr) : Option (TreeState N) := do
  let (s,x) ← rbDeleteFixupLoop (s.levels.nbElements + 1) s x xParent
  s.modifyLevelIf x fun e => { e with color := .black }

/-- The successor `y` leaves its place below `z->right` and takes that subtree over; also `x_parent`. -/
def detachSuccessor (s : TreeState N) (z y : Ptr) : Option (TreeState N × Option Ptr) := do
  let dy ← s.level y
  if dy.parent = some z then some (s,some y)
  else do
    let s ← s.transplant y dy.right
    let zRight := (← s.level z).right
    let s ← s.modifyLevel y fun e => { e with right := zRight }
    let s ← s.modifyLevel (← zRight) fun e => { e with parent := some y }
    some (s,dy.parent)

/-- The detached successor takes the place, the left subtree and the colour of `z`. -/
def takePlace (s : TreeState N) (z y : Ptr) : Option (TreeState N) := do
  let s ← s.transplant z (some y)
  let dz ← s.level z
  let s ← s.modifyLevel y fun e => { e with left := dz.left }
  let s ← s.modifyLevel (← dz.left) fun e => { e with parent := some y }
  s.setColor y dz.color

def rbDeleteNode (s : TreeState N) (z : Ptr) : Option (TreeState N) := do
  let d ← s.level z
  match d.left,d.right with
  | none,_ => do
    let s ← s.transplant z d.right
    if d.color = .black then s.rbDeleteFixup d.right d.parent else some s
  | some _,none => do
    let s ← s.transplant z d.left
    if d.color = .black then s.rbDeleteFixup d.left d.parent else some s
  | some _,some r => do
    let y ← s.treeMinimum r
    let dy ← s.level y
    let (s,xParent) ← s.detachSuccessor z y
    let s ← s.takePlace z y
    if dy.color = .black then s.rbDeleteFixup dy.right xParent else some s

/-- The part of `erase_level` on `_best`. -/
def lowerBest (type : OrderType) (s : TreeState N) (z : Ptr) (d : PriceLevel) : TreeState N :=
  if s.best = some z then { s with best := d.worse type } else s

def eraseLevel (type : OrderType) (s : TreeState N) (z : Ptr) : Option (TreeState N) := do
  let d ← s.level z
  let s := lowerBest type s z d
  let s ← s.modifyLevelIf d.pred fun e => { e with succ := d.succ }
  let s ← s.modifyLevelIf d.succ fun e => { e with pred := d.pred }
  let s ← s.rbDeleteNode z
  let levels ← s.levels.release (some z)
  some { s with levels := levels }

/-! ## The order chain -/

def kMaxCascadeHops : Nat := 16

/-- `path[len++] = X`, with the bound of the array. -/
def pushPath (path : List Ptr) (x : Ptr) : Option (List Ptr) :=
  if path.length < kMaxCascadeHops + 2 then some (path ++ [x]) else none

/-- The walk of `make_room` towards the tail: the path and the last node of it. -/
def cascadePath (s : TreeState N) : Nat → List Ptr → Ptr → Option (List Ptr × Ptr)
  | 0, path, n => some (path,n)
  | hops + 1, path, n => do
    let d ← s.node n
    if d.full then
      match d.nextNode with
      | none => some (path,n)
      | some nx => s.cascadePath hops (← pushPath path nx) nx
    else some (path,n)

def relocateTailToHead (s : TreeState N) (src dst : Ptr) : Option (TreeState N) := do
  let n ← s.node src
  let sOld ← n.tail
  let oldLoc : OrderLoc := ⟨src,sOld⟩
  let moved := n.slots sOld
  let L ← moved.level
  let s ← s.modifyNode src fun n => n.erase sOld
  let m ← s.node dst
  let (m,sNew) ← m.prepend moved
  let s ← s.modifyNode dst fun _ => m
  let newLoc : OrderLoc := ⟨dst,sNew⟩
  let s := { s with orderIndex := fun id => if id = (m.slots sNew).orderId then some newLoc else s.orderIndex id }
  let s ← s.modifyLevel L fun d => if d.tail = some oldLoc then { d with tail := some newLoc } else d
  s.modifyLevel L fun d => if d.head = some oldLoc then { d with head := some newLoc } else d

/-- `for (int i = len - 2; i >= 0; --i) relocate_tail_to_head(path[i], path[i + 1]);` -/
def ripple (s : TreeState N) : List Ptr → Option (TreeState N)
  | x :: y :: rest => do
    let s ← s.ripple (y :: rest)
    s.relocateTailToHead x y
  | _ => some s

/-- The link from the node before, or the head of the chain. -/
def linkForward (s : TreeState N) (before following : Option Ptr) : Option (TreeState N) :=
  match before with
  | some p => s.modifyNode p fun e => { e with nextNode := following }
  | none => some { s with chainHead := following }

/-- The link from the node behind, or the tail of the chain. -/
def linkBackward (s : TreeState N) (before following : Option Ptr) : Option (TreeState N) :=
  match following with
  | some q => s.modifyNode q fun e => { e with prevNode := before }
  | none => some { s with chainTail := before }

/-- A fresh node behind the node `n`. -/
def spliceNode (s : TreeState N) (n : Ptr) : Option (TreeState N × Ptr) := do
  let (nodes,m) ← s.nodes.allocate .new
  let s := { s with nodes := nodes }
  let following := (← s.node n).nextNode
  let s ← s.modifyNode m fun e => { e with prevNode := some n }
  let s ← s.modifyNode m fun e => { e with nextNode := following }
  let s ← s.modifyNode n fun e => { e with nextNode := some m }
  let s ← s.linkBackward (some m) following
  some (s,m)

def makeRoom (s : TreeState N) (x : Ptr) : Option (TreeState N) := do
  let path ← pushPath [] x
  let (path,n) ← s.cascadePath kMaxCascadeHops path x
  if (← s.node n).full then do
    let (s,m) ← s.spliceNode n
    s.ripple (← pushPath path m)
  else s.ripple path

/-- `node->at(s)._level = lvl` after the order went into slot `s`. -/
def setSlotLevel (n : PinNode N) (s : Nat) (lvl : Ptr) : PinNode N :=
  { n with slots := fun i => if i = s then { n.slots i with level := some lvl } else n.slots i }

/-- One of the list operations of a node, then the back-pointer of the order. -/
def putOrder (s : TreeState N) (a : Ptr) (op : PinNode N → Option (PinNode N × Nat)) (lvl : Ptr) :
    Option (TreeState N × OrderLoc) := do
  let n ← s.node a
  let (n,slot) ← op n
  let s ← s.modifyNode a fun _ => setSlotLevel n slot lvl
  some (s,⟨a,slot⟩)

def chainFirst (s : TreeState N) (ord : SimpleOrder) (lvl : Ptr) : Option (TreeState N × OrderLoc) := do
  let (nodes,a) ← s.nodes.allocate .new
  let s := { s with nodes := nodes, chainHead := some a, chainTail := some a }
  s.putOrder a (·.append ord) lvl

def chainInsertHead (s : TreeState N) (ord : SimpleOrder) (lvl : Ptr) : Option (TreeState N × OrderLoc) := do
  let h ← s.chainHead
  let n ← s.node h
  if !n.full then s.putOrder h (·.prepend ord) lvl
  else do
    let (nodes,a) ← s.nodes.allocate .new
    let s := { s with nodes := nodes }
    let s ← s.modifyNode a fun e => { e with nextNode := some h }
    let s ← s.modifyNode h fun e => { e with prevNode := some a }
    let s := { s with chainHead := some a }
    s.putOrder a (·.append ord) lvl

/-- The full node `nX` is the last of the chain: a fresh tail node takes the order. -/
def extendTail (s : TreeState N) (nX : Ptr) (ord : SimpleOrder) (lvl : Ptr) : Option (TreeState N × OrderLoc) := do
  let (nodes,a) ← s.nodes.allocate .new
  let s := { s with nodes := nodes }
  let s ← s.modifyNode a fun e => { e with prevNode := some nX }
  let s ← s.modifyNode nX fun e => { e with nextNode := some a }
  let s := { s with chainTail := some a }
  s.putOrder a (·.append ord) lvl

/-- The order goes to the head of the node behind a full node. -/
def prependNext (s : TreeState N) (following : Ptr) (ord : SimpleOrder) (lvl : Ptr) :
    Option (TreeState N × OrderLoc) := do
  if (← s.node following).full then do
    let s ← s.makeRoom following
    s.putOrder following (·.prepend ord) lvl
  else s.putOrder following (·.prepend ord) lvl

def chainInsertAfter (s : TreeState N) (anchor : OrderLoc) (ord : SimpleOrder) (lvl : Ptr) :
    Option (TreeState N × OrderLoc) := do
  let nX := anchor.pinLoc
  let d ← s.node nX
  if !d.full then s.putOrder nX (·.insertAfter anchor.index ord) lvl
  else if some anchor.index = d.tail then
    match d.nextNode with
    | none => s.extendTail nX ord lvl
    | some following => s.prependNext following ord lvl
  else do
    let s ← s.makeRoom nX
    s.putOrder nX (·.insertAfter anchor.index ord) lvl

/-! ## Iteration -/

def globalNext (s : TreeState N) (loc : OrderLoc) : Option (Option OrderLoc) := do
  let n ← s.node loc.pinLoc
  match n.next loc.index with
  | some i => some (some ⟨loc.pinLoc,i⟩)
  | none =>
    match n.nextNode with
    | none => some none
    | some a => do
      let h ← (← s.node a).head
      some (some ⟨a,h⟩)

def globalPrev (s : TreeState N) (loc : OrderLoc) : Option (Option OrderLoc) := do
  let n ← s.node loc.pinLoc
  match n.prev loc.index with
  | some i => some (some ⟨loc.pinLoc,i⟩)
  | none =>
    match n.prevNode with
    | none => some none
    | some a => do
      let t ← (← s.node a).tail
      some (some ⟨a,t⟩)

def ordersBegin (s : TreeState N) : Option (Option OrderLoc) :=
  match s.chainHead with
  | none => some none
  | some a => do
    let h ← (← s.node a).head
    some (some ⟨a,h⟩)

/-- More than every slot of every node in the pool. -/
def walkBound (s : TreeState N) : Nat := s.nodes.nbElements * N.val + 1

/-- The orders from a location to the end of the chain. -/
def ordersFrom (s : TreeState N) : Nat → Option OrderLoc → Option (List SimpleOrder)
  | 0, _ => none
  | _ + 1, none => some []
  | rounds + 1, some loc => do
    let o ← s.orderAt loc
    let rest ← s.ordersFrom rounds (← s.globalNext loc)
    some (o :: rest)

/-- `for (it = orders_begin(); it != orders_end(); ++it)`: the orders it visits. -/
def orders (s : TreeState N) : Option (List SimpleOrder) := do
  s.ordersFrom s.walkBound (← s.ordersBegin)

/-! ## The operations -/

/-- The order's current payload, `some none` where the id is not in the tree. -/
def findOrder (s : TreeState N) (orderId : Nat) : Option (Option SimpleOrder) :=
  match s.orderIndex orderId with
  | none => some none
  | some loc => (s.orderAt loc).map some

/-- A write through a pointer to an order in its slot. -/
def modifyOrder (s : TreeState N) (loc : OrderLoc) (f : SimpleOrder → SimpleOrder) : Option (TreeState N) :=
  s.modifyNode loc.pinLoc fun n => { n with slots := fun i => if i = loc.index then f (n.slots i) else n.slots i }

/-- A write through a pointer to an order, then `_level->_quantity += delta` through its back-pointer. -/
def editOrder (s : TreeState N) (loc : OrderLoc) (f : SimpleOrder → SimpleOrder) (delta : Int) : Option (TreeState N) := do
  let s ← s.modifyOrder loc f
  let lvl ← (← s.orderAt loc).level
  s.modifyLevel lvl fun d => { d with quantity := toU32 (d.quantity + delta) }

def makeLevel (s : TreeState N) (price : Nat) : Option (TreeState N × Ptr) := do
  let (levels,a) ← s.levels.allocate (.new price)
  some ({ s with levels := levels },a)

/-- The part of `place_order` that finds the order its place in the chain: behind the last order
    of its level, or of the next better level where its own is empty. -/
def placeInChain (type : OrderType) (s : TreeState N) (lvl : Ptr) (d : PriceLevel) (order : SimpleOrder) :
    Option (TreeState N × OrderLoc) :=
  match s.chainHead with
  | none => s.chainFirst order lvl
  | some _ =>
    if !d.isEmpty then do s.chainInsertAfter (← d.tail) order lvl
    else
      match d.better type with
      | some better => do s.chainInsertAfter (← (← s.level better).tail) order lvl
      | none => s.chainInsertHead order lvl

/-- The part of `place_order` that enters the new slot into the level and the index. -/
def recordOrder (s : TreeState N) (lvl : Ptr) (levelWasEmpty : Bool) (loc : OrderLoc) (id qty : Nat) :
    Option (TreeState N) := do
  let s ← s.modifyLevel lvl fun d => if levelWasEmpty then { d with head := some loc } else d
  let s ← s.modifyLevel lvl fun d => { d with tail := some loc }
  let s := { s with orderIndex := fun i => if i = id then some loc else s.orderIndex i }
  let s ← s.modifyLevel lvl fun d => { d with quantity := toU32 (d.quantity + qty) }
  s.modifyLevel lvl fun d => { d with count := toU32 (d.count + 1) }

def placeOrder (type : OrderType) (s : TreeState N) (lvl : Ptr) (order : SimpleOrder) : Option (TreeState N) := do
  let d ← s.level lvl
  let (s,loc) ← s.placeInChain type lvl d order
  s.recordOrder lvl d.isEmpty loc order.orderId order.openQty

/-- A new level between two neighbours, then the order in it. -/
def insertLevel (type : OrderType) (s : TreeState N) (order : SimpleOrder) (price : Nat) (pred succ : Option Ptr) :
    Option (TreeState N) := do
  let (s,lvl) ← s.makeLevel price
  let s ← s.neighborAwareInsert type lvl pred succ
  s.placeOrder type lvl order

/-- The general path of `insert`. -/
def insertGeneral (type : OrderType) (s : TreeState N) (order : SimpleOrder) (price : Nat) : Option (TreeState N) := do
  let sr ← s.findNeighbors price
  match sr.existing with
  | some lvl => s.placeOrder type lvl order
  | none => s.insertLevel type order price sr.pred sr.succ

/-- The path of `insert` for a price worse than the best, between the best level and the next one. -/
def insertBehind (type : OrderType) (s : TreeState N) (order : SimpleOrder) (price : Nat) (best : Ptr)
    (d : PriceLevel) : Option (TreeState N) :=
  match d.worse type with
  | none =>
    match type with
    | .BID => s.insertLevel type order price none (some best)
    | .ASK => s.insertLevel type order price (some best) none
  | some next => do
    let e ← s.level next
    if price = e.price then s.placeOrder type next order
    else
      let lo := if d.price < e.price then best else next
      let hi := if d.price < e.price then next else best
      if price > (← s.level lo).price ∧ price < (← s.level hi).price then
        s.insertLevel type order price (some lo) (some hi)
      else s.insertGeneral type order price

def insert (type : OrderType) (s : TreeState N) (order : SimpleOrder) (price : Nat) : Option (TreeState N) :=
  match s.best with
  | none => s.insertGeneral type order price
  | some best => do
    let d ← s.level best
    if price = d.price then s.placeOrder type best order
    else if type.better price d.price then
      match type with
      | .BID => s.insertLevel type order price (some best) none
      | .ASK => s.insertLevel type order price none (some best)
    else s.insertBehind type order price best d

/-- Drop an emptied node out of the chain and return it to the pool. -/
def dropNode (s : TreeState N) (a : Ptr) : Option (TreeState N) := do
  let n ← s.node a
  let s ← s.linkForward n.prevNode n.nextNode
  let s ← s.linkBackward n.prevNode n.nextNode
  let nodes ← s.nodes.release (some a)
  some { s with nodes := nodes }

/-- The head of a level moves on when its first order leaves. -/
def advanceHead (s : TreeState N) (lvl : Ptr) (loc : OrderLoc) (wasHead : Bool) : Option (TreeState N) := do
  if wasHead then
    let following ← s.globalNext loc
    s.modifyLevel lvl fun d => { d with head := following }
  else some s

/-- The tail of a level moves back when its last order leaves. -/
def retreatTail (s : TreeState N) (lvl : Ptr) (loc : OrderLoc) (wasTail : Bool) : Option (TreeState N) := do
  if wasTail then
    let previous ← s.globalPrev loc
    s.modifyLevel lvl fun d => { d with tail := previous }
  else some s

/-- The part of `erase` on the ends of the level. -/
def detachOrder (s : TreeState N) (lvl : Ptr) (loc : OrderLoc) (wasHead wasTail : Bool) : Option (TreeState N) :=
  if wasHead && wasTail then s.modifyLevel lvl fun d => { d with head := none, tail := none }
  else do
    let s ← s.advanceHead lvl loc wasHead
    s.retreatTail lvl loc wasTail

/-- The part of `erase` on the node: the slot is freed, an emptied node is dropped. -/
def freeSlot (s : TreeState N) (loc : OrderLoc) : Option (TreeState N) := do
  let s ← s.modifyNode loc.pinLoc fun n => n.erase loc.index
  if (← s.node loc.pinLoc).isEmpty then s.dropNode loc.pinLoc else some s

def erase (type : OrderType) (s : TreeState N) (orderId : Nat) : Option (TreeState N) :=
  match s.orderIndex orderId with
  | none => some s
  | some loc => do
    let order ← s.orderAt loc
    let lvl ← order.level
    let s := { s with orderIndex := fun i => if i = orderId then none else s.orderIndex i }
    let s ← s.modifyLevel lvl fun d => { d with quantity := toU32 (d.quantity - order.openQty) }
    let s ← s.modifyLevel lvl fun d => { d with count := toU32 (d.count - 1) }
    let d ← s.level lvl
    let wasHead := d.head = some loc
    let wasTail := d.tail = some loc
    let s ← s.detachOrder lvl loc wasHead wasTail
    let s ← s.freeSlot loc
    if wasHead ∧ wasTail then s.eraseLevel type lvl else some s

end TreeState

end BaboEngine
