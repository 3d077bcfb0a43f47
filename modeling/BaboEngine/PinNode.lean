import BaboEngine.SimpleOrder
import BaboEngine.DoublyLinked
import Mathlib.Data.List.Perm.Subperm

/-!
# Nodes of the order chain

`PinNode N` is a bounded list inside an array: a doubly linked list over the
live slots and a free list over the others, both through `links`. Slots are
natural numbers and `npos` is `none`: the capacity is below `npos`, so no slot
number is `npos`. `Holds` is the invariant, with both lists spelled out.
-/

namespace BaboEngine
open DoublyLinked

/-- The compile-time capacity of a node, with the two static assertions on it. -/
structure Capacity where
  val : Nat
  pos : 0 < val
  lt_npos : val < 65535

structure Link where
  prev : Option Nat
  next : Option Nat

structure PinNode (N : Capacity) where
  nextNode : Option Ptr
  prevNode : Option Ptr
  slots : Nat → SimpleOrder
  links : Nat → Link
  head : Option Nat
  tail : Option Nat
  free : Option Nat
  size : Nat

namespace PinNode
variable {N : Capacity}

/-- The constructor threads the free list through `links`. -/
def new : PinNode N where
  nextNode := none
  prevNode := none
  slots := fun _ => .empty
  links := fun i => ⟨none,if i + 1 < N.val then some (i + 1) else none⟩
  head := none
  tail := none
  free := some 0
  size := 0

def isEmpty (n : PinNode N) : Bool := n.size = 0

def full (n : PinNode N) : Bool := n.size = N.val

def next (n : PinNode N) (s : Nat) : Option Nat := (n.links s).next

def prev (n : PinNode N) (s : Nat) : Option Nat := (n.links s).prev

def setNext (n : PinNode N) (s : Nat) (v : Option Nat) : PinNode N :=
  { n with links := fun i => if i = s then { n.links i with next := v } else n.links i }

def setPrev (n : PinNode N) (s : Nat) (v : Option Nat) : PinNode N :=
  { n with links := fun i => if i = s then { n.links i with prev := v } else n.links i }

/-- `if (p == npos) head_ = v; else links_[p].next = v;` -/
def setNextOrHead (n : PinNode N) (p v : Option Nat) : PinNode N :=
  match p with
  | none => { n with head := v }
  | some s => n.setNext s v

/-- `if (q == npos) tail_ = v; else links_[q].prev = v;` -/
def setPrevOrTail (n : PinNode N) (q v : Option Nat) : PinNode N :=
  match q with
  | none => { n with tail := v }
  | some s => n.setPrev s v

/-- A slot for the order; the assertion that the node is not full is checked. -/
def alloc (n : PinNode N) (order : SimpleOrder) : Option (PinNode N × Nat) :=
  if n.full then none
  else n.free.map fun slot =>
    ({ n with
      free := n.next slot
      slots := fun i => if i = slot then order else n.slots i
      size := n.size + 1 },slot)

def freeSlot (n : PinNode N) (s : Nat) : PinNode N :=
  { n.setNext s n.free with free := some s, size := n.size - 1 }

def linkFront (n : PinNode N) (s : Nat) : PinNode N :=
  { ((n.setPrev s none).setNext s n.head).setPrevOrTail n.head (some s) with head := some s }

def linkBack (n : PinNode N) (s : Nat) : PinNode N :=
  { ((n.setNext s none).setPrev s n.tail).setNextOrHead n.tail (some s) with tail := some s }

def spliceAfter (n : PinNode N) (ref s : Nat) : PinNode N :=
  (((n.setPrev s (some ref)).setNext s (n.next ref)).setNext ref (some s)).setPrevOrTail (n.next ref) (some s)

def append (n : PinNode N) (order : SimpleOrder) : Option (PinNode N × Nat) :=
  (n.alloc order).map fun (m,slot) => (m.linkBack slot,slot)

def prepend (n : PinNode N) (order : SimpleOrder) : Option (PinNode N × Nat) :=
  (n.alloc order).map fun (m,slot) => (m.linkFront slot,slot)

def insertAfter (n : PinNode N) (reference : Nat) (order : SimpleOrder) : Option (PinNode N × Nat) :=
  (n.alloc order).map fun (m,slot) => (m.spliceAfter reference slot,slot)

def erase (n : PinNode N) (s : Nat) : PinNode N :=
  let p := n.prev s
  let q := n.next s
  ((n.setNextOrHead p q).setPrevOrTail q p).freeSlot s

section Fields
variable (n : PinNode N) (p v : Option Nat) (s i : Nat)

@[simp] theorem next_setNext : (n.setNext s v).next i = if i = s then v else n.next i := by
  simp only [next,setNext]; split_ifs <;> rfl
@[simp] theorem prev_setNext : (n.setNext s v).prev i = n.prev i := by
  simp only [prev,setNext]; split_ifs <;> rfl
@[simp] theorem next_setPrev : (n.setPrev s v).next i = n.next i := by
  simp only [next,setPrev]; split_ifs <;> rfl
@[simp] theorem prev_setPrev : (n.setPrev s v).prev i = if i = s then v else n.prev i := by
  simp only [prev,setPrev]; split_ifs <;> rfl
@[simp] theorem next_setNextOrHead : (n.setNextOrHead p v).next i = if p = some i then v else n.next i := by
  cases p with
  | none => rfl
  | some t => simp [setNextOrHead,eq_comm]
@[simp] theorem prev_setNextOrHead : (n.setNextOrHead p v).prev i = n.prev i := by
  cases p with
  | none => rfl
  | some t => simp [setNextOrHead]
@[simp] theorem next_setPrevOrTail : (n.setPrevOrTail p v).next i = n.next i := by
  cases p with
  | none => rfl
  | some t => simp [setPrevOrTail]
@[simp] theorem prev_setPrevOrTail : (n.setPrevOrTail p v).prev i = if p = some i then v else n.prev i := by
  cases p with
  | none => rfl
  | some t => simp [setPrevOrTail,eq_comm]

@[simp] theorem head_setNextOrHead : (n.setNextOrHead p v).head = if p = none then v else n.head := by
  cases p <;> rfl
@[simp] theorem tail_setNextOrHead : (n.setNextOrHead p v).tail = n.tail := by cases p <;> rfl
@[simp] theorem head_setPrevOrTail : (n.setPrevOrTail p v).head = n.head := by cases p <;> rfl
@[simp] theorem tail_setPrevOrTail : (n.setPrevOrTail p v).tail = if p = none then v else n.tail := by
  cases p <;> rfl

/-- Relinking leaves everything but the links and the ends. -/
structure Relinked (n m : PinNode N) : Prop where
  nextNode : m.nextNode = n.nextNode
  prevNode : m.prevNode = n.prevNode
  slots : m.slots = n.slots
  free : m.free = n.free
  size : m.size = n.size

theorem relinked_setNextOrHead : Relinked n (n.setNextOrHead p v) := by cases p <;> exact ⟨rfl,rfl,rfl,rfl,rfl⟩
theorem relinked_setPrevOrTail : Relinked n (n.setPrevOrTail p v) := by cases p <;> exact ⟨rfl,rfl,rfl,rfl,rfl⟩

theorem Relinked.trans {n m l : PinNode N} (first : Relinked n m) (second : Relinked m l) : Relinked n l :=
  ⟨second.nextNode.trans first.nextNode,second.prevNode.trans first.prevNode,second.slots.trans first.slots,
    second.free.trans first.free,second.size.trans first.size⟩

theorem relinked_linkFront : Relinked n (n.linkFront s) :=
  ⟨(relinked_setPrevOrTail _ n.head (some s)).nextNode,(relinked_setPrevOrTail _ n.head (some s)).prevNode,
    (relinked_setPrevOrTail _ n.head (some s)).slots,(relinked_setPrevOrTail _ n.head (some s)).free,
    (relinked_setPrevOrTail _ n.head (some s)).size⟩

theorem relinked_linkBack : Relinked n (n.linkBack s) :=
  ⟨(relinked_setNextOrHead _ n.tail (some s)).nextNode,(relinked_setNextOrHead _ n.tail (some s)).prevNode,
    (relinked_setNextOrHead _ n.tail (some s)).slots,(relinked_setNextOrHead _ n.tail (some s)).free,
    (relinked_setNextOrHead _ n.tail (some s)).size⟩

theorem relinked_spliceAfter (ref : Nat) : Relinked n (n.spliceAfter ref s) :=
  ⟨(relinked_setPrevOrTail _ (n.next ref) (some s)).nextNode,(relinked_setPrevOrTail _ (n.next ref) (some s)).prevNode,
    (relinked_setPrevOrTail _ (n.next ref) (some s)).slots,(relinked_setPrevOrTail _ (n.next ref) (some s)).free,
    (relinked_setPrevOrTail _ (n.next ref) (some s)).size⟩

end Fields

/-! ## The invariant -/

/-- `xs` are the live slots in order, `fs` the free slots in the order of the free list. -/
structure Holds (n : PinNode N) (xs fs : List Nat) : Prop where
  slots : (xs ++ fs).Perm (List.range N.val)
  linked : Linked n.next n.prev xs
  head : n.head = xs.head?
  tail : n.tail = xs.getLast?
  free : n.free = fs.head?
  stacked : Stacked n.next fs
  size : n.size = xs.length

variable {n : PinNode N} {xs as bs fs : List Nat}

theorem Holds.nodup (holds : n.Holds xs fs) : (xs ++ fs).Nodup := holds.slots.nodup_iff.mpr List.nodup_range

theorem Holds.length (holds : n.Holds xs fs) : xs.length + fs.length = N.val := by
  simpa using holds.slots.length_eq

theorem Holds.full_iff (holds : n.Holds xs fs) : n.full = true ↔ xs.length = N.val := by
  simp [full,holds.size]

theorem Holds.isEmpty_iff (holds : n.Holds xs fs) : n.isEmpty = true ↔ xs = [] := by
  simp [isEmpty,holds.size]

theorem holds_new : (new : PinNode N).Holds [] (List.range N.val) := by
  refine ⟨by simp,linked_nil,rfl,rfl,?_,?_,rfl⟩
  · have := N.pos
    simp only [new]
    rw [List.head?_range,if_neg (by omega)]
  · -- A range from any start is stacked.
    have run : ∀ k i, i + k = N.val → Stacked (new : PinNode N).next (List.range' i k) := by
      intro k
      induction k with
      | zero => intro i _; trivial
      | succ k ih =>
        intro i total
        refine ⟨?_,ih (i+1) (by omega)⟩
        simp only [PinNode.next,new]
        cases k with
        | zero =>
          rw [if_neg (by omega)]; rfl
        | succ k =>
          rw [if_pos (by omega)]; rfl
    rw [List.range_eq_range']
    exact run N.val 0 (by omega)

/-- Only the links of the list and the three ends matter. -/
theorem holds_links {n' : PinNode N} (holds : n.Holds xs fs) (links : n'.links = n.links) (head : n'.head = n.head)
    (tail : n'.tail = n.tail) (free : n'.free = n.free) (size : n'.size = n.size) : n'.Holds xs fs := by
  have nextIs : n'.next = n.next := by funext s; simp [PinNode.next,links]
  have prevIs : n'.prev = n.prev := by funext s; simp [PinNode.prev,links]
  exact ⟨holds.slots,by rw [nextIs,prevIs]; exact holds.linked,head.trans holds.head,tail.trans holds.tail,
    free.trans holds.free,by rw [nextIs]; exact holds.stacked,size.trans holds.size⟩

/-- What an operation that adds an order at slot `s` does to the payloads and to
    the neighbours of the node. -/
structure Added (n n' : PinNode N) (order : SimpleOrder) (s : Nat) : Prop where
  here : n'.slots s = order
  others : ∀ i, i ≠ s → n'.slots i = n.slots i
  nextNode : n'.nextNode = n.nextNode
  prevNode : n'.prevNode = n.prevNode

theorem Added.relinked {m : PinNode N} {n' : PinNode N} {order : SimpleOrder} {s : Nat} (added : Added n m order s)
    (relinked : Relinked m n') : Added n n' order s :=
  ⟨by rw [relinked.slots,added.here],fun i other => by rw [relinked.slots,added.others i other],
    relinked.nextNode.trans added.nextNode,relinked.prevNode.trans added.prevNode⟩

theorem alloc_spec (holds : n.Holds xs fs) (room : xs.length < N.val) (order : SimpleOrder) :
    ∃ s rest m, fs = s :: rest ∧ n.alloc order = some (m,s) ∧ Added n m order s ∧ m.next = n.next ∧
      m.prev = n.prev ∧ m.head = n.head ∧ m.tail = n.tail ∧ m.free = rest.head? ∧ m.size = n.size + 1 := by
  have total := holds.length
  cases fs with
  | nil =>
    simp only [List.length_nil] at total; omega
  | cons s rest =>
    have notFull : ¬ n.full = true := by
      rw [holds.full_iff]
      omega
    have first : n.free = some s := holds.free
    have executed := show n.alloc order = some ({ n with
        free := n.next s
        slots := fun i => if i = s then order else n.slots i
        size := n.size + 1 },s) by
      simp only [alloc,notFull,first]; rfl
    refine ⟨s,rest,_,rfl,executed,⟨by simp,?_,rfl,rfl⟩,rfl,rfl,rfl,rfl,holds.stacked.1,rfl⟩
    intro i other
    simp [other]

/-- A slot from the free list linked between `as` and `bs`. -/
theorem holds_insert {n' : PinNode N} {s : Nat} {rest : List Nat} (holds : n.Holds (as ++ bs) (s :: rest))
    (free : n'.free = rest.head?) (size : n'.size = n.size + 1)
    (next : ∀ i, n'.next i = if i = s then bs.head? else if as.getLast? = some i then some s else n.next i)
    (prev : ∀ i, n'.prev i = if i = s then as.getLast? else if bs.head? = some i then some s else n.prev i)
    (head : n'.head = (as ++ s :: bs).head?) (tail : n'.tail = (as ++ s :: bs).getLast?) :
    n'.Holds (as ++ s :: bs) rest := by
  have moved : (as ++ s :: bs ++ rest).Perm (as ++ bs ++ s :: rest) := by
    simp only [List.append_assoc,List.cons_append]
    apply List.Perm.append_left as
    exact List.perm_middle.symm
  have nodup : (as ++ s :: bs ++ rest).Nodup := moved.nodup_iff.mpr holds.nodup
  have distinct := (List.nodup_append.mp nodup).1
  have sNew : s ∉ as ++ bs := by
    intro member
    exact (List.nodup_append.mp holds.nodup).2.2 s member s (by simp) rfl
  refine ⟨moved.trans holds.slots,?_,head,tail,free,?_,by rw [size,holds.size]; simp; omega⟩
  · refine linked_insert holds.linked distinct (by simp [prev]) (by simp [next]) ?_ ?_
    · intro y member
      have other : y ≠ s := fun h => sNew (h ▸ member)
      rw [next y]
      exact ⟨fun h => by simp [h,other],fun h => by simp [h,other]⟩
    · intro y member
      have other : y ≠ s := fun h => sNew (h ▸ member)
      rw [prev y]
      exact ⟨fun h => by simp [h,other],fun h => by simp [h,other]⟩
  · apply stacked_congr holds.stacked.2
    intro y member
    have other : y ≠ s := by
      intro h
      have := (List.nodup_append.mp holds.nodup).2.1
      exact (List.nodup_cons.mp this).1 (h ▸ member)
    have notLast : as.getLast? ≠ some y := by
      intro h
      exact (List.nodup_append.mp nodup).2.2 y (by simp [List.mem_of_getLast? h]) y member rfl
    simp [next y,other,notLast]

theorem append_spec (holds : n.Holds xs fs) (room : xs.length < N.val) (order : SimpleOrder) :
    ∃ s rest n', fs = s :: rest ∧ n.append order = some (n',s) ∧ n'.Holds (xs ++ [s]) rest ∧ Added n n' order s := by
  obtain ⟨s,rest,m,rfl,executed,added,next,prev,head,tail,free,size⟩ := alloc_spec holds room order
  have whole : n.Holds (xs ++ []) (s :: rest) := by simpa using holds
  have relinked := relinked_linkBack m s
  have sNew : s ∉ xs := fun member => (List.nodup_append.mp holds.nodup).2.2 s member s (by simp) rfl
  have lastOther : xs.getLast? ≠ some s := fun h => sNew (List.mem_of_getLast? h)
  refine ⟨s,rest,m.linkBack s,rfl,by simp only [append,executed]; rfl,?_,added.relinked relinked⟩
  refine holds_insert whole (by rw [relinked.free,free]) (by rw [relinked.size,size]) ?_ ?_ ?_ ?_
  · intro i
    show (((m.setNext s none).setPrev s m.tail).setNextOrHead m.tail (some s)).next i = _
    simp only [next_setNextOrHead,next_setPrev,next_setNext,tail,holds.tail,next,List.head?_nil]
    by_cases h : i = s
    · simp [h,lastOther]
    · simp [h]
  · intro i
    show (((m.setNext s none).setPrev s m.tail).setNextOrHead m.tail (some s)).prev i = _
    simp [tail,holds.tail,prev]
  · show (((m.setNext s none).setPrev s m.tail).setNextOrHead m.tail (some s)).head = _
    simp only [head_setNextOrHead]
    show (if m.tail = none then some s else m.head) = _
    rw [tail,holds.tail,head,holds.head]
    cases xs <;> simp
  · show some s = _
    simp

theorem prepend_spec (holds : n.Holds xs fs) (room : xs.length < N.val) (order : SimpleOrder) :
    ∃ s rest n', fs = s :: rest ∧ n.prepend order = some (n',s) ∧ n'.Holds (s :: xs) rest ∧ Added n n' order s := by
  obtain ⟨s,rest,m,rfl,executed,added,next,prev,head,tail,free,size⟩ := alloc_spec holds room order
  have whole : n.Holds ([] ++ xs) (s :: rest) := holds
  have relinked := relinked_linkFront m s
  have sNew : s ∉ xs := fun member => (List.nodup_append.mp holds.nodup).2.2 s member s (by simp) rfl
  have firstOther : xs.head? ≠ some s := fun h => sNew (List.mem_of_head? h)
  refine ⟨s,rest,m.linkFront s,rfl,by simp only [prepend,executed]; rfl,?_,added.relinked relinked⟩
  refine holds_insert whole (by rw [relinked.free,free]) (by rw [relinked.size,size]) ?_ ?_ ?_ ?_
  · intro i
    show (((m.setPrev s none).setNext s m.head).setPrevOrTail m.head (some s)).next i = _
    simp [head,holds.head,next]
  · intro i
    show (((m.setPrev s none).setNext s m.head).setPrevOrTail m.head (some s)).prev i = _
    simp only [prev_setPrevOrTail,prev_setNext,prev_setPrev,head,holds.head,prev,List.getLast?_nil]
    by_cases h : i = s
    · simp [h,firstOther]
    · simp [h]
  · show some s = _
    simp
  · show (((m.setPrev s none).setNext s m.head).setPrevOrTail m.head (some s)).tail = _
    simp only [tail_setPrevOrTail]
    show (if m.head = none then some s else m.tail) = _
    rw [head,holds.head,tail,holds.tail]
    cases xs <;> simp

theorem insertAfter_spec {reference : Nat} (holds : n.Holds (as ++ reference :: bs) fs)
    (room : (as ++ reference :: bs).length < N.val) (order : SimpleOrder) :
    ∃ s rest n', fs = s :: rest ∧ n.insertAfter reference order = some (n',s) ∧
      n'.Holds (as ++ reference :: s :: bs) rest ∧ Added n n' order s := by
  obtain ⟨s,rest,m,rfl,executed,added,next,prev,head,tail,free,size⟩ := alloc_spec holds room order
  have whole : n.Holds ((as ++ [reference]) ++ bs) (s :: rest) := by simpa using holds
  have relinked := relinked_spliceAfter m s reference
  have sNew : s ∉ as ++ reference :: bs :=
    fun member => (List.nodup_append.mp holds.nodup).2.2 s member s (by simp) rfl
  have refNew : reference ≠ s := fun h => sNew (by simp [h])
  have firstOther : bs.head? ≠ some s := fun h => sNew (by simp [List.mem_of_head? h])
  have following : n.next reference = bs.head? := (holds.linked as reference bs rfl).2
  have goalIs : as ++ reference :: s :: bs = (as ++ [reference]) ++ s :: bs := by simp
  refine ⟨s,rest,m.spliceAfter reference s,rfl,by simp only [insertAfter,executed]; rfl,?_,added.relinked relinked⟩
  rw [goalIs]
  refine holds_insert whole (by rw [relinked.free,free]) (by rw [relinked.size,size]) ?_ ?_ ?_ ?_
  · intro i
    simp only [spliceAfter,next_setPrevOrTail,next_setNext,next_setPrev,next,following,List.getLast?_append,
      List.getLast?_singleton,Option.some_or,Option.some.injEq]
    by_cases h : i = s
    · simp [h,refNew.symm]
    · by_cases h' : i = reference
      · simp [h',refNew]
      · have e : ¬ reference = i := fun e => h' e.symm
        simp [h,h',e]
  · intro i
    simp only [spliceAfter,prev_setPrevOrTail,prev_setNext,prev_setPrev,next,following,prev,List.getLast?_append,
      List.getLast?_singleton,Option.some_or]
    by_cases h : i = s
    · simp [h,firstOther]
    · simp [h]
  · simp only [spliceAfter,head_setPrevOrTail]
    show m.head = _
    rw [head,holds.head]
    cases as <;> simp
  · simp only [spliceAfter,tail_setPrevOrTail,next,following]
    show (if bs.head? = none then some s else m.tail) = _
    rw [tail,holds.tail]
    cases bs with
    | nil => simp
    | cons b bs => simp

theorem erase_spec {s : Nat} (holds : n.Holds (as ++ s :: bs) fs) :
    (n.erase s).Holds (as ++ bs) (s :: fs) ∧ (n.erase s).slots = n.slots ∧ (n.erase s).nextNode = n.nextNode ∧
      (n.erase s).prevNode = n.prevNode := by
  obtain ⟨before,behind⟩ := holds.linked as s bs rfl
  have nodup := holds.nodup
  have distinct := (List.nodup_append.mp nodup).1
  have moved : (as ++ bs ++ s :: fs).Perm (as ++ s :: bs ++ fs) := by
    simp only [List.append_assoc,List.cons_append]
    exact List.Perm.append_left as List.perm_middle
  have sOut : s ∉ as ++ bs := (List.nodup_cons.mp (List.nodup_middle.mp distinct)).1
  have apart := (List.nodup_append.mp nodup).2.2
  have relinked := (relinked_setNextOrHead n as.getLast? bs.head?).trans
    (relinked_setPrevOrTail (n.setNextOrHead as.getLast? bs.head?) bs.head? as.getLast?)
  have erased : n.erase s = ((n.setNextOrHead as.getLast? bs.head?).setPrevOrTail bs.head? as.getLast?).freeSlot s := by
    simp only [erase,before,behind]
  have nextIs : ∀ i, (n.erase s).next i =
      if i = s then fs.head? else if as.getLast? = some i then bs.head? else n.next i := by
    intro i
    rw [erased]
    show ((((n.setNextOrHead as.getLast? bs.head?).setPrevOrTail bs.head? as.getLast?)).setNext s _).next i = _
    simp [relinked.free,holds.free]
  have prevIs : ∀ i, (n.erase s).prev i = if bs.head? = some i then as.getLast? else n.prev i := by
    intro i
    rw [erased]
    show ((((n.setNextOrHead as.getLast? bs.head?).setPrevOrTail bs.head? as.getLast?)).setNext s _).prev i = _
    simp
  have headIs : (n.erase s).head = (as ++ bs).head? := by
    rw [erased]
    show ((n.setNextOrHead as.getLast? bs.head?).setPrevOrTail bs.head? as.getLast?).head = _
    simp only [head_setPrevOrTail,head_setNextOrHead,holds.head]
    cases as <;> simp
  have tailIs : (n.erase s).tail = (as ++ bs).getLast? := by
    rw [erased]
    show ((n.setNextOrHead as.getLast? bs.head?).setPrevOrTail bs.head? as.getLast?).tail = _
    simp only [tail_setPrevOrTail,tail_setNextOrHead,holds.tail]
    cases bs with
    | nil => simp
    | cons b bs => simp
  have sizeIs : (n.erase s).size = n.size - 1 := by
    rw [erased,← relinked.size]; rfl
  refine ⟨⟨moved.trans holds.slots,?_,headIs,tailIs,by rw [erased]; rfl,?_,?_⟩,?_,?_,?_⟩
  · refine linked_remove holds.linked distinct ?_ ?_
    · intro y member
      have other : y ≠ s := fun h => sOut (h ▸ member)
      rw [nextIs y]
      exact ⟨fun h => by simp [h,other],fun h => by simp [h,other]⟩
    · intro y member
      rw [prevIs y]
      exact ⟨fun h => by simp [h],fun h => by simp [h]⟩
  · refine ⟨by simp [nextIs s],stacked_congr holds.stacked ?_⟩
    intro y member
    have other : y ≠ s := fun h => apart s (by simp) y member h.symm
    have notLast : as.getLast? ≠ some y := fun h => apart y (by simp [List.mem_of_getLast? h]) y member rfl
    simp [nextIs y,other,notLast]
  · rw [sizeIs,holds.size]
    simp
  · rw [erased,← relinked.slots]; rfl
  · rw [erased,← relinked.nextNode]; rfl
  · rw [erased,← relinked.prevNode]; rfl

end PinNode

end BaboEngine
