import BaboEngine.SharedPools

/-!
# The accounts of the pools

What is in use can be counted by going through the trees of all books: along the chains for
the nodes, along the threads for the levels. Each element is met once (`Accounts`), and a
call to one book leaves the orders and levels of the others as they are.
-/

namespace BaboEngine
open Simulation

/-- The elements along some links, from one on. -/
def walkFrom (next : Ptr → Option (Option Ptr)) : Nat → Option Ptr → Option (List Ptr)
  | 0, _ => none
  | _ + 1, none => some []
  | rounds + 1, some a => do
    let rest ← walkFrom next rounds (← next a)
    some (a :: rest)

theorem walkFrom_eq {next : Ptr → Option (Option Ptr)} (L : List Ptr) : ∀ rounds, (∀ as a bs, L = as ++ a :: bs → next a = some bs.head?) →
    L.length < rounds → walkFrom next rounds L.head? = some L := by
  induction L with
  | nil =>
    intro rounds _ enough
    obtain ⟨rounds,rfl⟩ := Nat.exists_eq_succ_of_ne_zero (by omega : rounds ≠ 0)
    rfl
  | cons a L ih =>
    intro rounds linked enough
    rw [List.length_cons] at enough
    obtain ⟨rounds,rfl⟩ := Nat.exists_eq_succ_of_ne_zero (by omega : rounds ≠ 0)
    have rest := ih rounds (fun as x bs split => linked (a :: as) x bs (by rw [split]; rfl)) (by omega)
    simp only [List.head?_cons,walkFrom,linked [] a L rfl,rest,Option.bind_eq_bind,Option.bind_some]

namespace TreeState
variable {N : Capacity} {s s' : TreeState N} {type : OrderType} {ch : List Segment} {bl : List Block}

/-- The nodes along the chain. -/
def chainNodes (s : TreeState N) : Option (List Ptr) :=
  walkFrom (fun a => (s.node a).map PinNode.nextNode) (s.nodes.nbElements + 1) s.chainHead

/-- The levels along their threads, best first. -/
def levelThread (s : TreeState N) (type : OrderType) : Option (List Ptr) :=
  walkFrom (fun a => (s.level a).map fun d => d.worse type) (s.levels.nbElements + 1) s.best

theorem Tree.chainNodes (tree : Tree type s ch bl) : s.chainNodes = some (ch.map Segment.ptr) := by
  rw [TreeState.chainNodes,tree.hosted.chained.head]
  refine walkFrom_eq _ _ ?_ (by rw [List.length_map]; exact tree.segments_lt)
  intro as a bs split
  obtain ⟨n,read,isNext⟩ := tree.chainLinks as a bs split
  rw [show s.node a = some n from read,Option.map_some,isNext]

theorem Tree.levelThread (tree : Tree type s ch bl) : s.levelThread type = some (bl.map Block.ptr) := by
  rw [TreeState.levelThread,tree.best]
  refine walkFrom_eq _ _ ?_ (by rw [List.length_map]; exact tree.levels_lt)
  intro as a bs split
  obtain ⟨d,read,isWorse⟩ := tree.levelLinks as a bs split
  rw [show s.level a = some d from read,Option.map_some,isWorse]

/-- The walk over the levels depends on the levels only. -/
theorem Tree.levelsFrom_congr (tree : Tree type s ch bl) (same : ∀ a ∈ bl.map Block.ptr, s'.level a = s.level a) : ∀ B' B : List Block,
    bl = B ++ B' → ∀ rounds rounds', B'.length < rounds → B'.length < rounds' →
    s'.levelsFrom type rounds' (B'.map Block.ptr).head? = s.levelsFrom type rounds (B'.map Block.ptr).head? := by
  intro B'
  induction B' with
  | nil =>
    intro B _ rounds rounds' enough enough'
    obtain ⟨rounds,rfl⟩ := Nat.exists_eq_succ_of_ne_zero (by omega : rounds ≠ 0)
    obtain ⟨rounds',rfl⟩ := Nat.exists_eq_succ_of_ne_zero (by omega : rounds' ≠ 0)
    rfl
  | cons b B' ih =>
    intro B split rounds rounds' enough enough'
    rw [List.length_cons] at enough enough'
    obtain ⟨rounds,rfl⟩ := Nat.exists_eq_succ_of_ne_zero (by omega : rounds ≠ 0)
    obtain ⟨rounds',rfl⟩ := Nat.exists_eq_succ_of_ne_zero (by omega : rounds' ≠ 0)
    have rest := ih (B ++ [b]) (by rw [split]; simp) rounds rounds' (by omega) (by omega)
    have here := same b.ptr (by rw [split]; simp)
    rw [split] at tree
    obtain ⟨d,read,isWorse,_⟩ := tree.levelAt
    rw [← isWorse] at rest
    simp only [List.map_cons,List.head?_cons,TreeState.levelsFrom,here,read,rest,Option.bind_eq_bind,Option.bind_some]

end TreeState

/-! ## Accounts -/

/-- The elements in use are as many as the pool counts, and each is a cell of one tree of one book. -/
structure Accounts {β : Type} (read : Ptr → Option β) (nbElements : Nat) (alive : List Nat) (cells : Nat → TreeName → List Ptr) : Prop where
  count : nbElements = (alive.map fun i => (TreeName.all.map fun t => (cells i t).length).sum).sum
  used : ∀ i ∈ alive, ∀ t, (cells i t).Nodup ∧ ∀ a ∈ cells i t, read a ≠ none
  owner : ∀ a, read a ≠ none → ∃! x : Nat × TreeName, x.1 ∈ alive ∧ a ∈ cells x.1 x.2

theorem Partition.accounts {T : Type} {n : Nat} {p : AllocatorPool T n} {alive : List Nat} {cells : Nat → TreeName → List Ptr}
    (partition : Partition p.read alive fun i => TreeName.all.flatMap (cells i)) (fits : p.WellFormed) (distinct : alive.Nodup)
    (nodup : ∀ i ∈ alive, ∀ t, (cells i t).Nodup) (apart : ∀ i ∈ alive, ∀ t t', t ≠ t' → (cells i t).Disjoint (cells i t')) :
    Accounts p.read p.getNbElements alive cells := by
  have mem : ∀ i a, a ∈ TreeName.all.flatMap (cells i) ↔ ∃ t, a ∈ cells i t := by
    intro i a
    rw [List.mem_flatMap]
    exact exists_congr fun t => and_iff_right t.mem_all
  have each : ∀ i ∈ alive, (TreeName.all.flatMap (cells i)).Nodup := by
    intro i isAlive
    refine List.nodup_flatMap.mpr ⟨fun t _ => nodup i isAlive t,?_⟩
    exact List.Nodup.pairwise_of_forall_ne (by decide) fun t _ t' _ other => apart i isAlive t t' other
  have all : (alive.flatMap fun i => TreeName.all.flatMap (cells i)).Nodup := by
    refine List.nodup_flatMap.mpr ⟨each,?_⟩
    exact distinct.pairwise_of_forall_ne fun i first j second other => partition.apart i first j second other
  refine ⟨?_,?_,?_⟩
  · rw [AllocatorPool.getNbElements,fits.count_eq all fun a => by rw [List.mem_flatMap,partition.live],List.length_flatMap]
    simp only [List.length_flatMap]
  · intro i isAlive t
    exact ⟨nodup i isAlive t,fun a member => (partition.live a).mpr ⟨i,isAlive,(mem i a).mpr ⟨t,member⟩⟩⟩
  · intro a used
    obtain ⟨i,isAlive,member⟩ := (partition.live a).mp used
    obtain ⟨t,inCells⟩ := (mem i a).mp member
    refine ⟨(i,t),⟨isAlive,inCells⟩,?_⟩
    rintro ⟨j,t'⟩ ⟨isAlive',inCells'⟩
    obtain rfl : j = i := by
      by_contra other
      exact partition.apart j isAlive' i isAlive other ((mem j a).mpr ⟨t',inCells'⟩) member
    have sameTree : t' = t := by
      by_contra other
      exact apart j isAlive t' t other inCells' inCells
    rw [sameTree]

namespace Books
open MatchingBook
variable {N : Capacity} {w w' : Books N} {l : Lives} {ch : Nat → TreeName → List Segment} {bl : Nat → TreeName → List Block}

/-- What the trees of the books reach is what the pools count. -/
def Accounted (w : Books N) : Prop := ∃ pins levels : Nat → TreeName → List Ptr,
  (∀ i ∈ w.alive, ∀ t, ((w.book i).on t).chainNodes = some (pins i t) ∧ ((w.book i).on t).levelThread t.type = some (levels i t)) ∧
  Accounts w.nodes.read w.nodes.getNbElements w.alive pins ∧ Accounts w.levels.read w.levels.getNbElements w.alive levels

theorem Shares.accounted (shares : Shares w l ch bl) : w.Accounted := by
  have keeps : ∀ i ∈ w.alive, Held False (w.book i) (ch i) (bl i) := by
    intro i isAlive
    obtain ⟨cs,isCs⟩ := Option.ne_none_iff_exists'.mp ((shares.alive i).mp isAlive)
    exact (shares.keeps i cs isCs).held
  refine ⟨fun i t => (ch i t).map Segment.ptr,fun i t => (bl i t).map Block.ptr,?_,?_,?_⟩
  · intro i isAlive t
    have tree := ((keeps i isAlive).side t).toTree
    exact ⟨tree.chainNodes,tree.levelThread⟩
  · exact shares.nodes.accounts shares.fits.1 shares.nodup (fun i isAlive t => ((keeps i isAlive).side t).hosted.chained.nodup)
      fun i isAlive => (keeps i isAlive).nodes
  · exact shares.levels.accounts shares.fits.2 shares.nodup (fun i isAlive t => ((keeps i isAlive).side t).hosted.ptrs)
      fun i isAlive => (keeps i isAlive).levels

/-- A book has the same orders and the same levels with the same totals. -/
structure Unchanged (w w' : Books N) (i : Nat) : Prop where
  alive : i ∈ w'.alive
  members : w'.members i = w.members i
  orders : ∀ t, ((w.book i).on t).orders ≠ none ∧ ((w'.book i).on t).orders = ((w.book i).on t).orders
  levels : ∀ t, ((w.book i).on t).priceLevels t.type ≠ none ∧ ((w'.book i).on t).priceLevels t.type = ((w.book i).on t).priceLevels t.type

/-- All that the trees of a book have reached is no longer in use. -/
def GivenBack (w w' : Books N) (i : Nat) : Prop := ∀ t,
  (∀ pins, ((w.book i).on t).chainNodes = some pins → ∀ a ∈ pins, w'.nodes.read a = none) ∧
  ∀ levels, ((w.book i).on t).levelThread t.type = some levels → ∀ a ∈ levels, w'.levels.read a = none

theorem unchanged {i : Nat} {ch : TreeName → List Segment} {bl : TreeName → List Block} (held : Held False (w.book i) ch bl)
    (held' : Held False (w'.book i) ch bl) (alive : i ∈ w'.alive) (members : w'.members i = w.members i)
    (levels : ∀ a ∈ levelsOf bl, w'.levels.read a = w.levels.read a) : Unchanged w w' i := by
  refine ⟨alive,members,?_,?_⟩
  · intro t
    rw [(held.side t).orders,(held'.side t).orders]
    exact ⟨by simp,rfl⟩
  · intro t
    have tree := (held.side t).toTree
    have tree' := (held'.side t).toTree
    obtain ⟨ds,walked,_⟩ := tree.priceLevels
    have same : ∀ a ∈ (bl t).map Block.ptr, ((w'.book i).on t).level a = ((w.book i).on t).level a :=
      fun a member => levels a (mem_levelsOf.mpr ⟨t,member⟩)
    refine ⟨by rw [walked]; simp,?_⟩
    rw [TreeState.priceLevels,TreeState.priceLevels,tree.best,tree'.best]
    exact tree.levelsFrom_congr same _ [] rfl _ _ tree.levels_lt tree'.levels_lt

/-- A call succeeds and concerns no other book than its own. -/
theorem Shares.step {c : BookCall} (shares : Shares w l ch bl) (ok : l.Ok c) : ∃ w' ch' bl', w.step c = some w' ∧
    Shares w' (l.next c) ch' bl' ∧ (∀ j ∈ w.alive, j ≠ c.name → Unchanged w w' j) ∧ ∀ i, c = .destroy i → GivenBack w w' i := by
  cases c with
  | construct i =>
    obtain ⟨w',stepped,sameHeap,members,alive,shares'⟩ := shares.construct ok
    refine ⟨w',_,_,stepped,shares',?_,by simp⟩
    intro j isAlive (other : j ≠ i)
    obtain ⟨cs,isCs⟩ := Option.ne_none_iff_exists'.mp ((shares.alive j).mp isAlive)
    have isCs' : l.next (.construct i) j = some cs := by rwa [Lives.next,Function.update_of_ne other]
    have held' := (shares'.keeps j cs isCs').held
    rw [Function.update_of_ne other,Function.update_of_ne other] at held'
    apply unchanged (shares.keeps j cs isCs).held held' (by simp [alive,isAlive]) (members j other)
    intro a _
    rw [sameHeap]
  | call i c =>
    obtain ⟨m,ch',bl',stepped,since,shares'⟩ := shares.call ok
    refine ⟨_,_,_,stepped,shares',?_,by simp⟩
    intro j isAlive (other : j ≠ i)
    obtain ⟨cs,isCs⟩ := Option.ne_none_iff_exists'.mp ((shares.alive j).mp isAlive)
    have fits : m.nodes.WellFormed ∧ m.levels.WellFormed := shares'.fits
    exact unchanged (shares.keeps j cs isCs).held (shares.others ((shares.alive i).mpr ok.1) since fits isCs other).held isAlive
      (Function.update_of_ne other _ _) fun a member => (shares.levels.others ((shares.alive i).mpr ok.1) since.levels j isAlive other a member).2
  | destroy i =>
    obtain ⟨m,stepped,since,shares'⟩ := shares.destroy ok
    refine ⟨_,_,_,stepped,shares',?_,?_⟩
    · intro j isAlive (other : j ≠ i)
      obtain ⟨cs,isCs⟩ := Option.ne_none_iff_exists'.mp ((shares.alive j).mp isAlive)
      have fits : m.nodes.WellFormed ∧ m.levels.WellFormed := shares'.fits
      exact unchanged (shares.keeps j cs isCs).held (shares.others ((shares.alive i).mpr ok) since fits isCs other).held
        ((List.mem_erase_of_ne other).mpr isAlive) (Function.update_of_ne other _ _)
        fun a member => (shares.levels.others ((shares.alive i).mpr ok) since.levels j isAlive other a member).2
    · rintro i' isDestroy t
      obtain rfl := BookCall.destroy.inj isDestroy
      obtain ⟨cs,isCs⟩ := Option.ne_none_iff_exists'.mp ok
      have tree := ((shares.keeps i cs isCs).held.side t).toTree
      rw [tree.chainNodes,tree.levelThread]
      constructor
      · rintro pins isPins a member
        obtain rfl := Option.some.inj isPins
        exact since.nodes.gone a (mem_nodesOf.mpr ⟨t,member⟩) (by simp [nodesOf])
      · rintro levels isLevels a member
        obtain rfl := Option.some.inj isLevels
        exact since.levels.gone a (mem_levelsOf.mpr ⟨t,member⟩) (by simp [levelsOf])

/-! ## Runs -/

theorem run_shares {calls : List BookCall} (valid : ValidCalls calls) :
    ∃ (w : Books N) (ch : Nat → TreeName → List Segment) (bl : Nat → TreeName → List Block), after calls = some w ∧
      Shares w (.after calls) ch bl := by
  have matched : ∀ (w : Books N) (l : Lives) (c : BookCall), (∃ ch bl, Shares w l ch bl) → l.Ok c →
      ∃ w', w.step c = some w' ∧ ∃ ch bl, Shares w' (l.next c) ch bl := by
    rintro w l c ⟨ch,bl,shares⟩ ok
    obtain ⟨w',ch',bl',stepped,shares',_⟩ := shares.step ok
    exact ⟨w',stepped,ch',bl',shares'⟩
  obtain ⟨w,ran,ch,bl,shares⟩ := run_matched matched calls start .start ⟨_,_,Shares.start⟩ valid
  exact ⟨w,ch,bl,ran,shares⟩

/-- However books are constructed, used and destroyed, no call releases an element twice or refers to one that is not in
    use, as none fails. After every call what the trees of the live books reach is what the pools count, each element
    once, and each book has the orders of its own commands. A call leaves the other books unchanged, and a book that is
    destroyed gives back all that its trees have reached. -/
theorem shared_pools {calls : List BookCall} (valid : ValidCalls calls) :
    (∀ before later, calls = before ++ later → ∃ w : Books N, after before = some w ∧ w.Accounted ∧
      ∀ i cs, Lives.after before i = some cs → i ∈ w.alive ∧ ∀ t, ((w.book i).on t).snapshot = some ((Book.after cs).side t)) ∧
    ∀ before c later, calls = before ++ c :: later → ∃ w w' : Books N, after before = some w ∧ w.step c = some w' ∧
      (∀ j ∈ w.alive, j ≠ c.name → Unchanged w w' j) ∧ ∀ i, c = .destroy i → GivenBack w w' i := by
  constructor
  · rintro before later rfl
    obtain ⟨w,ch,bl,ran,shares⟩ := run_shares (N := N) (admitted_append.mp valid).1
    refine ⟨w,ran,shares.accounted,?_⟩
    intro i cs isCs
    obtain ⟨_,held,sides,_⟩ := shares.keeps i cs isCs
    refine ⟨(shares.alive i).mpr (by simp [isCs]),?_⟩
    intro t
    rw [sides t]
    exact (held.side t).snapshot
  · rintro before c later rfl
    obtain ⟨first,ok,_⟩ := admitted_append.mp valid
    obtain ⟨w,ch,bl,ran,shares⟩ := run_shares (N := N) first
    obtain ⟨w',_,_,stepped,_,others⟩ := shares.step ok
    exact ⟨w,w',ran,stepped,others⟩

/-- A book that outlives another one with an order in each of its four trees. -/
theorem shared_pools_survivor :
    let calls : List BookCall := [.construct 1,.call 1 (.add true 80 10 0 0 1),.construct 2,.call 2 (.setMarketPrice 100),
      .call 2 (.add true 90 10 0 0 2),.call 2 (.add false 110 10 0 0 3),.call 2 (.add true 95 10 101 0 4),
      .call 2 (.add false 105 10 99 0 5),.destroy 2]
    (∀ before later, calls = before ++ later → ∃ w : Books ⟨1,by decide,by decide⟩, after before = some w ∧ w.Accounted ∧
      ∀ i cs, Lives.after before i = some cs → i ∈ w.alive ∧ ∀ t, ((w.book i).on t).snapshot = some ((Book.after cs).side t)) ∧
    ∀ before c later, calls = before ++ c :: later → ∃ w w' : Books ⟨1,by decide,by decide⟩, after before = some w ∧ w.step c = some w' ∧
      (∀ j ∈ w.alive, j ≠ c.name → Unchanged w w' j) ∧ ∀ i, c = .destroy i → GivenBack w w' i :=
  shared_pools (by decide)

end Books

end BaboEngine
