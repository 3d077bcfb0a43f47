import BaboEngine.Clearing

/-!
# Books that share the pools

Any number of books on one thread take their nodes and levels from the same two pools. A
release of an element that is not in use fails, as does every access to one, so a run that
succeeds releases nothing twice and refers to nothing that it has released. After every
call the elements in use are those that the trees of the books reach, each from one tree.
-/

namespace BaboEngine
open Simulation

/-- What a book has of its own. -/
structure BookMembers where
  tree : TreeName → NarbTree
  market : Market

/-- The books of a thread, by their names, and the pools. -/
structure Books (N : Capacity) extends Heap N where
  alive : List Nat
  members : Nat → BookMembers

inductive BookCall where
  | construct (name : Nat)
  | call (name : Nat) (c : Command)
  | destroy (name : Nat)

def BookCall.name : BookCall → Nat
  | .construct i => i
  | .call i _ => i
  | .destroy i => i

namespace Books
variable {N : Capacity}

def start : Books N := { toHeap := .empty, alive := [], members := fun _ => ⟨fun _ => .empty,.start⟩ }

/-- A book with the pools. -/
def book (w : Books N) (i : Nat) : MatchingBook N := { toHeap := w.toHeap, tree := (w.members i).tree, market := (w.members i).market }

def put (w : Books N) (i : Nat) (m : MatchingBook N) : Books N :=
  { w with toHeap := m.toHeap, members := Function.update w.members i ⟨m.tree,m.market⟩ }

/-- A call. A book that is constructed is not alive before, the others are. -/
def step (w : Books N) : BookCall → Option (Books N)
  | .construct i =>
    if i ∈ w.alive then none
    else some { w with alive := i :: w.alive, members := Function.update w.members i ⟨fun _ => .empty,.start⟩ }
  | .call i c =>
    if i ∈ w.alive then ((w.book i).step c).map (w.put i) else none
  | .destroy i =>
    if i ∈ w.alive then ((w.book i).destroy).map fun m => { w.put i m with alive := w.alive.erase i } else none

def after (calls : List BookCall) : Option (Books N) := run step start calls

end Books

/-! ## What each book has been asked -/

/-- The commands that each book has got since it was constructed. -/
abbrev Lives := Nat → Option (List Command)

namespace Lives

def start : Lives := fun _ => none

def next (l : Lives) : BookCall → Lives
  | .construct i => Function.update l i (some [])
  | .call i c => Function.update l i ((l i).map fun cs => cs ++ [c])
  | .destroy i => Function.update l i none

/-- The calls go to live books, none of which gets an id twice. -/
def Ok (l : Lives) : BookCall → Prop
  | .construct i => l i = none
  | .call i c => l i ≠ none ∧ NeverReused ((l i).getD [] ++ [c])
  | .destroy i => l i ≠ none

instance : (l : Lives) → (c : BookCall) → Decidable (l.Ok c)
  | l, .construct i => inferInstanceAs (Decidable (l i = none))
  | l, .call i c => inferInstanceAs (Decidable (l i ≠ none ∧ NeverReused ((l i).getD [] ++ [c])))
  | l, .destroy i => inferInstanceAs (Decidable (l i ≠ none))

def after (calls : List BookCall) : Lives := calls.foldl next start

end Lives

/-- The calls of a thread. -/
def ValidCalls (calls : List BookCall) : Prop := Admitted Lives.Ok Lives.next .start calls

instance (calls : List BookCall) : Decidable (ValidCalls calls) := inferInstanceAs (Decidable (Admitted Lives.Ok Lives.next .start calls))

/-! ## Cells with owners -/

/-- The elements in use are the cells of those alive, and no two of these have one in common. -/
structure Partition {β : Type} (read : Ptr → Option β) (alive : List Nat) (cells : Nat → List Ptr) : Prop where
  live : ∀ a, read a ≠ none ↔ ∃ i ∈ alive, a ∈ cells i
  apart : ∀ i ∈ alive, ∀ j ∈ alive, i ≠ j → (cells i).Disjoint (cells j)

namespace Partition
variable {β : Type} {read read' : Ptr → Option β} {alive : List Nat} {cells : Nat → List Ptr} {L' : List Ptr} {i : Nat}

/-- What a step of one of them does to the cells of the others. -/
theorem others (partition : Partition read alive cells) (isAlive : i ∈ alive) (framed : Framed read read' (cells i) L') :
    ∀ j ∈ alive, j ≠ i → ∀ a ∈ cells j, a ∉ L' ∧ read' a = read a := by
  intro j isAlive' other
  exact MatchingBook.untouched framed (partition.apart i isAlive j isAlive' other.symm)
    fun a member => (partition.live a).mpr ⟨j,isAlive',member⟩

theorem step (partition : Partition read alive cells) (isAlive : i ∈ alive) (framed : Framed read read' (cells i) L')
    (live : ∀ a ∈ L', read' a ≠ none) : Partition read' alive (Function.update cells i L') := by
  have others := partition.others isAlive framed
  constructor
  · intro a
    constructor
    · intro used
      by_cases new : a ∈ L'
      · exact ⟨i,isAlive,by rwa [Function.update_self]⟩
      · have old : a ∉ cells i := fun inCells => used (framed.gone a inCells new)
        rw [framed.outside a old new] at used
        obtain ⟨j,isAlive',member⟩ := (partition.live a).mp used
        have other : j ≠ i := by
          rintro rfl
          exact old member
        exact ⟨j,isAlive',by rwa [Function.update_of_ne other]⟩
    · rintro ⟨j,isAlive',member⟩
      by_cases same : j = i
      · subst same
        rw [Function.update_self] at member
        exact live a member
      · rw [Function.update_of_ne same] at member
        rw [(others j isAlive' same a member).2]
        exact (partition.live a).mpr ⟨j,isAlive',member⟩
  · intro j isAlive₁ k isAlive₂ other
    by_cases first : j = i
    · subst first
      rw [Function.update_self,Function.update_of_ne other.symm]
      exact fun a new member => (others k isAlive₂ other.symm a member).1 new
    · by_cases second : k = i
      · subst second
        rw [Function.update_self,Function.update_of_ne first]
        exact fun a member new => (others j isAlive₁ first a member).1 new
      · rw [Function.update_of_ne first,Function.update_of_ne second]
        exact partition.apart j isAlive₁ k isAlive₂ other

/-- One more that has no cells. -/
theorem cons (partition : Partition read alive cells) (absent : i ∉ alive) : Partition read (i :: alive) (Function.update cells i []) := by
  have same : ∀ j ∈ alive, Function.update cells i [] j = cells j := by
    intro j isAlive
    refine Function.update_of_ne ?_ _ _
    rintro rfl
    exact absent isAlive
  constructor
  · intro a
    rw [partition.live]
    constructor
    · rintro ⟨j,isAlive,member⟩
      exact ⟨j,List.mem_cons_of_mem _ isAlive,by rwa [same j isAlive]⟩
    · rintro ⟨j,isAlive,member⟩
      rcases List.mem_cons.mp isAlive with rfl | isAlive'
      · rw [Function.update_self] at member
        exact absurd member List.not_mem_nil
      · rw [same j isAlive'] at member
        exact ⟨j,isAlive',member⟩
  · intro j isAlive₁ k isAlive₂ other
    rcases List.mem_cons.mp isAlive₁ with rfl | first
    · rw [Function.update_self]
      exact List.disjoint_nil_left _
    · rcases List.mem_cons.mp isAlive₂ with rfl | second
      · rw [Function.update_self]
        exact List.disjoint_nil_right _
      · rw [same j first,same k second]
        exact partition.apart j first k second other

/-- One fewer, of which no cells were left. -/
theorem erase (partition : Partition read alive cells) (none : cells i = []) : Partition read (alive.erase i) cells := by
  refine ⟨?_,fun j first k second => partition.apart j (List.mem_of_mem_erase first) k (List.mem_of_mem_erase second)⟩
  intro a
  rw [partition.live]
  constructor
  · rintro ⟨j,isAlive,member⟩
    have other : j ≠ i := by
      rintro rfl
      rw [none] at member
      exact List.not_mem_nil member
    exact ⟨j,(List.mem_erase_of_ne other).mpr isAlive,member⟩
  · rintro ⟨j,isAlive,member⟩
    exact ⟨j,List.mem_of_mem_erase isAlive,member⟩

end Partition

/-! ## The books and their cells -/

namespace Books
open MatchingBook
variable {N : Capacity} {w w' : Books N} {l : Lives} {ch : Nat → TreeName → List Segment} {bl : Nat → TreeName → List Block}

/-- A book holds the orders of the commands that it has got. -/
structure Keeps (m : MatchingBook N) (cs : List Command) (ch : TreeName → List Segment) (bl : TreeName → List Block) : Prop where
  once : NeverReused cs
  held : Held False m ch bl
  sides : ∀ t, (Book.after cs).side t = bareOrders (entries (bl t))
  market : m.market = (Book.after cs).market

/-- The books hold their orders in cells of their own, and nothing else is in use. -/
structure Shares (w : Books N) (l : Lives) (ch : Nat → TreeName → List Segment) (bl : Nat → TreeName → List Block) : Prop where
  nodup : w.alive.Nodup
  alive : ∀ i, i ∈ w.alive ↔ l i ≠ none
  fits : w.nodes.WellFormed ∧ w.levels.WellFormed
  keeps : ∀ i cs, l i = some cs → Keeps (w.book i) cs (ch i) (bl i)
  nodes : Partition w.nodes.read w.alive fun i => nodesOf (ch i)
  levels : Partition w.levels.read w.alive fun i => levelsOf (bl i)

theorem Shares.start : Shares (N := N) start .start (fun _ _ => []) fun _ _ => [] := by
  have noNodes : ∀ a, (Heap.empty : Heap N).nodes.read a = none := fun _ => rfl
  have noLevels : ∀ a, (Heap.empty : Heap N).levels.read a = none := fun _ => rfl
  refine ⟨List.nodup_nil,by simp [Books.start,Lives.start],⟨Pools.empty.nodesWellFormed,Pools.empty.levelsWellFormed⟩,
    by simp [Lives.start],⟨?_,by simp [Books.start]⟩,⟨?_,by simp [Books.start]⟩⟩
  · intro a
    simp [Books.start,noNodes a]
  · intro a
    simp [Books.start,noLevels a]

/-- A book is alone with cells that nobody else touches. -/
theorem held_congr {m m' : MatchingBook N} {ch : TreeName → List Segment} {bl : TreeName → List Block} {exact : Prop}
    (held : Held exact m ch bl)
    (tree : m'.tree = m.tree) (nodesFit : m'.nodes.WellFormed) (levelsFit : m'.levels.WellFormed)
    (nodes : ∀ a ∈ nodesOf ch, m'.nodes.read a = m.nodes.read a) (levels : ∀ a ∈ levelsOf bl, m'.levels.read a = m.levels.read a) :
    Held exact m' ch bl := by
  refine ⟨?_,held.nodes,held.levels⟩
  intro t
  have old := held.side t
  have same : (m'.on t).toNarbTree = (m.on t).toNarbTree := congrFun tree t
  exact ⟨old.toTree.frame same nodesFit levelsFit (fun a member => nodes a (mem_nodesOf.mpr ⟨t,member⟩))
    fun a member => levels a (mem_levelsOf.mpr ⟨t,member⟩),old.keyed,old.sized,old.sound⟩

theorem held_live {m : MatchingBook N} {ch : TreeName → List Segment} {bl : TreeName → List Block} {exact : Prop}
    (held : Held exact m ch bl) :
    (∀ a ∈ nodesOf ch, m.nodes.read a ≠ none) ∧ ∀ a ∈ levelsOf bl, m.levels.read a ≠ none := by
  constructor
  · intro a member
    obtain ⟨t,inCh⟩ := mem_nodesOf.mp member
    exact (held.live t).1 a inCh
  · intro a member
    obtain ⟨t,inBl⟩ := mem_levelsOf.mp member
    exact (held.live t).2 a inBl

theorem nodes_update (i : Nat) (ch' : TreeName → List Segment) :
    (fun j => nodesOf (Function.update ch i ch' j)) = Function.update (fun j => nodesOf (ch j)) i (nodesOf ch') :=
  funext fun j => Function.apply_update (fun _ => nodesOf) ch i ch' j

theorem levels_update (i : Nat) (bl' : TreeName → List Block) :
    (fun j => levelsOf (Function.update bl i bl' j)) = Function.update (fun j => levelsOf (bl j)) i (levelsOf bl') :=
  funext fun j => Function.apply_update (fun _ => levelsOf) bl i bl' j

variable {i : Nat} {m : MatchingBook N} {ch' : TreeName → List Segment} {bl' : TreeName → List Block}

/-- A book that has been worked on leaves the others alone. -/
theorem Shares.others (shares : Shares w l ch bl) (isAlive : i ∈ w.alive)
    (since : Since ⟨w.toHeap,nodesOf (ch i),levelsOf (bl i)⟩ m ch' bl') (fits : m.nodes.WellFormed ∧ m.levels.WellFormed)
    {j : Nat} {cs : List Command} (lives : l j = some cs) (other : j ≠ i) : Keeps ((w.put i m).book j) cs (ch j) (bl j) := by
  obtain ⟨once,held,sides,market⟩ := shares.keeps j cs lives
  have isAlive' : j ∈ w.alive := (shares.alive j).mpr (by simp [lives])
  have same : (w.put i m).members j = w.members j := Function.update_of_ne other _ _
  refine ⟨once,held_congr held ?_ fits.1 fits.2 ?_ ?_,sides,?_⟩
  · exact congrArg BookMembers.tree same
  · exact fun a member => (shares.nodes.others isAlive since.nodes j isAlive' other a member).2
  · exact fun a member => (shares.levels.others isAlive since.levels j isAlive' other a member).2
  · exact (congrArg BookMembers.market same).trans market

theorem Shares.call {c : Command} (shares : Shares w l ch bl) (ok : l.Ok (.call i c)) :
    ∃ m ch' bl', w.step (.call i c) = some (w.put i m) ∧ Since ⟨w.toHeap,nodesOf (ch i),levelsOf (bl i)⟩ m ch' bl' ∧
      Shares (w.put i m) (l.next (.call i c)) (Function.update ch i ch') (Function.update bl i bl') := by
  obtain ⟨lives,once⟩ := ok
  obtain ⟨cs,isCs⟩ := Option.ne_none_iff_exists'.mp lives
  rw [isCs,Option.getD_some] at once
  have isAlive : i ∈ w.alive := (shares.alive i).mpr lives
  obtain ⟨_,held,sides,market⟩ := shares.keeps i cs isCs
  have fresh := (admitted_append.mp once.admitted).2.1
  have orderly := orderly_after once.front
  obtain ⟨m,stepped,ch',bl',held',sides',market',since⟩ := (held.from_here sides market).step orderly (orderly.absent_of_fresh fresh)
    fun no => no.elim
  have isAfter : (Book.after cs).step c = Book.after (cs ++ [c]) := by
    rw [Book.after,Book.after,List.foldl_append]
    rfl
  rw [isAfter] at sides' market'
  have fits : m.nodes.WellFormed ∧ m.levels.WellFormed := ⟨(held'.side .bids).hosted.nodes,(held'.side .bids).hosted.levels⟩
  have isNext : l.next (.call i c) = Function.update l i (some (cs ++ [c])) := by rw [Lives.next,isCs]; rfl
  have own : (w.put i m).book i = m := by simp only [book,Books.put,Function.update_self]
  refine ⟨m,ch',bl',?_,since,?_⟩
  · rw [step,if_pos isAlive,stepped]
    rfl
  rw [isNext]
  refine ⟨shares.nodup,?_,fits,?_,?_,?_⟩
  · intro j
    by_cases same : j = i
    · subst same
      exact ⟨fun _ => by simp,fun _ => isAlive⟩
    · rw [Function.update_of_ne same]
      exact shares.alive j
  · intro j cs' lives'
    by_cases same : j = i
    · subst same
      rw [Function.update_self] at lives'
      obtain rfl := Option.some.inj lives'
      rw [Function.update_self,Function.update_self,own]
      exact ⟨once,held',sides',market'⟩
    · rw [Function.update_of_ne same] at lives'
      rw [Function.update_of_ne same,Function.update_of_ne same]
      exact shares.others isAlive since fits lives' same
  · rw [nodes_update]
    exact shares.nodes.step isAlive since.nodes (held_live held').1
  · rw [levels_update]
    exact shares.levels.step isAlive since.levels (held_live held').2

theorem Shares.construct (shares : Shares w l ch bl) (ok : l.Ok (.construct i)) :
    ∃ w', w.step (.construct i) = some w' ∧ w'.toHeap = w.toHeap ∧ (∀ j, j ≠ i → w'.members j = w.members j) ∧
      w'.alive = i :: w.alive ∧ Shares w' (l.next (.construct i)) (Function.update ch i fun _ => []) (Function.update bl i fun _ => []) := by
  have absent : i ∉ w.alive := fun isAlive => (shares.alive i).mp isAlive ok
  refine ⟨_,if_neg absent,rfl,fun j other => Function.update_of_ne other _ _,rfl,?_⟩
  refine ⟨List.nodup_cons.mpr ⟨absent,shares.nodup⟩,?_,shares.fits,?_,?_,?_⟩
  · intro j
    rw [List.mem_cons,Lives.next]
    by_cases same : j = i
    · subst same
      simp
    · rw [Function.update_of_ne same,← shares.alive j]
      exact or_iff_right same
  · intro j cs lives
    rw [Lives.next] at lives
    by_cases same : j = i
    · subst same
      rw [Function.update_self] at lives
      obtain rfl := Option.some.inj lives
      rw [Function.update_self,Function.update_self]
      refine ⟨List.nodup_nil,?_,fun _ => rfl,?_⟩
      · simp only [book,Function.update_self]
        exact held_start ⟨w.toHeap,shares.fits.1,shares.fits.2⟩
      · simp only [book,Function.update_self]
        rfl
    · rw [Function.update_of_ne same] at lives
      rw [Function.update_of_ne same,Function.update_of_ne same]
      simp only [book,Function.update_of_ne same]
      exact shares.keeps j cs lives
  · rw [nodes_update]
    exact shares.nodes.cons absent
  · rw [levels_update]
    exact shares.levels.cons absent

theorem Shares.destroy (shares : Shares w l ch bl) (ok : l.Ok (.destroy i)) :
    ∃ m, w.step (.destroy i) = some { w.put i m with alive := w.alive.erase i } ∧
      Since ⟨w.toHeap,nodesOf (ch i),levelsOf (bl i)⟩ m (fun _ => []) (fun _ => []) ∧
      Shares { w.put i m with alive := w.alive.erase i } (l.next (.destroy i)) (Function.update ch i fun _ => [])
        (Function.update bl i fun _ => []) := by
  have isAlive : i ∈ w.alive := (shares.alive i).mpr ok
  obtain ⟨cs,isCs⟩ := Option.ne_none_iff_exists'.mp ok
  obtain ⟨_,held,sides,market⟩ := shares.keeps i cs isCs
  have here : Since ⟨w.toHeap,nodesOf (ch i),levelsOf (bl i)⟩ (w.book i) (ch i) (bl i) := ⟨framed_same fun _ _ => rfl,framed_same fun _ _ => rfl⟩
  obtain ⟨m,destroyed,nodesFit,levelsFit,since⟩ := held.destroy here
  refine ⟨m,?_,since,?_⟩
  · rw [step,if_pos isAlive,destroyed]
    rfl
  refine ⟨shares.nodup.erase _,?_,⟨nodesFit,levelsFit⟩,?_,?_,?_⟩
  · intro j
    show j ∈ w.alive.erase i ↔ _
    rw [shares.nodup.mem_erase_iff,shares.alive j,Lives.next]
    by_cases same : j = i
    · simp [same]
    · simp [same]
  · intro j cs' lives
    rw [Lives.next] at lives
    by_cases same : j = i
    · subst same
      rw [Function.update_self] at lives
      cases lives
    · rw [Function.update_of_ne same] at lives
      rw [Function.update_of_ne same,Function.update_of_ne same]
      exact shares.others isAlive since ⟨nodesFit,levelsFit⟩ lives same
  · rw [nodes_update]
    exact (shares.nodes.step isAlive since.nodes (by simp [nodesOf])).erase (Function.update_self ..)
  · rw [levels_update]
    exact (shares.levels.step isAlive since.levels (by simp [levelsOf])).erase (Function.update_self ..)

end Books

end BaboEngine
