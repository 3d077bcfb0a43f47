import BaboEngine.SimpleOrder
import BaboEngine.DoublyLinked
import Mathlib.Data.List.Perm.Subperm
import Mathlib.Tactic.Ring

/-!
# The pool of memory chunks

`AllocatorPool` as the source has it: blocks of `N` chunks, a chunk holding
either an object or the link of the free list (`MemChunk` is a union), and one
counter that serves as the number of live objects and as the next fresh index.
An operation is `none` where the source would run into undefined behaviour:
an access to a block that is not there, a free list that runs into a live
object, the release of a chunk that holds no object.
-/

namespace BaboEngine
open DoublyLinked

inductive MemChunk (T : Type) where
  | storage (v : T)
  | next (p : Option Ptr)

structure AllocatorPool (T : Type) (N : Nat) where
  size : Nat
  nbElements : Nat
  maxAllocatedIndex : Nat
  freeList : Option Ptr
  /-- How many blocks there are; the block allocated as number `i` is `Ptr.block = i`. -/
  chunkList : Nat
  mem : Ptr → MemChunk T

namespace AllocatorPool
variable {T : Type} {N : Nat}

/-- A pool before its first use. -/
def empty : AllocatorPool T N := ⟨0,0,0,none,0,fun _ => .next none⟩

/-- The object at an address, `none` where the chunk holds none. -/
def read (p : AllocatorPool T N) (a : Ptr) : Option T :=
  match p.mem a with
  | .storage v => some v
  | .next _ => none

def write (p : AllocatorPool T N) (a : Ptr) (v : T) : AllocatorPool T N :=
  { p with mem := fun b => if b = a then .storage v else p.mem b }

/-- `&chunkList[index / N][index % N]`. -/
def getChunk (p : AllocatorPool T N) (index : Nat) : Option Ptr :=
  if index / N < p.chunkList then some ⟨index / N,index % N⟩ else none

/-- The chunks of a fresh block hold null links. -/
def addBlock (p : AllocatorPool T N) : AllocatorPool T N :=
  { p with
    chunkList := p.chunkList + 1
    size := p.size + N
    mem := fun a => if a.block = p.chunkList then .next none else p.mem a }

/-- The loop of `reserve`, which adds at least one index a round. -/
def reserveLoop (reserveSize : Nat) : Nat → AllocatorPool T N → AllocatorPool T N
  | 0, p => p
  | rounds + 1, p => if reserveSize ≥ p.size then reserveLoop reserveSize rounds p.addBlock else p

def reserve (p : AllocatorPool T N) (reserveSize : Nat) : AllocatorPool T N :=
  if reserveSize < p.size then p else reserveLoop reserveSize (reserveSize + 1 - p.size) p

/-- The bookkeeping of the fresh index `nbElements`: counted, its block there,
    the high-water mark raised. -/
def takeIndex (p : AllocatorPool T N) : AllocatorPool T N :=
  let index := p.nbElements
  let counted := { p with nbElements := index + 1 }
  let backed := if index ≥ counted.size then counted.reserve index else counted
  if index > backed.maxAllocatedIndex then { backed with maxAllocatedIndex := index } else backed

def allocate (p : AllocatorPool T N) (object : T) : Option (AllocatorPool T N × Ptr) :=
  match p.freeList with
  | some chunk =>
    match p.mem chunk with
    | .next following =>
      some ({ p.write chunk object with freeList := following, nbElements := p.nbElements + 1 },chunk)
    | .storage _ => none
  | none => do
    let chunk ← p.takeIndex.getChunk p.nbElements
    some (p.takeIndex.write chunk object,chunk)

def release (p : AllocatorPool T N) (pointer : Option Ptr) : Option (AllocatorPool T N) :=
  match pointer with
  | none => some p
  | some a =>
    match p.mem a with
    | .storage _ => some { p with
        mem := fun b => if b = a then .next p.freeList else p.mem b
        freeList := some a
        nbElements := p.nbElements - 1 }
    | .next _ => none

def getNbElements (p : AllocatorPool T N) : Nat := p.nbElements

def getSize (p : AllocatorPool T N) : Nat := p.size

/-! ## The invariant -/

/-- The address of index `i`, whether or not its block is there. -/
def addr (N : Nat) (i : Nat) : Ptr := ⟨i / N,i % N⟩

/-- The free list, as links of chunks. -/
def freeNext (p : AllocatorPool T N) (a : Ptr) : Option Ptr :=
  match p.mem a with
  | .next q => q
  | .storage _ => none

/-- `live` are the addresses handed out, `free` the free list: together they are
    the addresses of all indices ever used. -/
structure Owned (p : AllocatorPool T N) (live free : List Ptr) : Prop where
  carved : (live ++ free).Perm ((List.range (live.length + free.length)).map (addr N))
  objects : ∀ a, (∃ v, p.mem a = .storage v) ↔ a ∈ live
  count : p.nbElements = live.length
  blocks : p.size = p.chunkList * N
  within : live.length + free.length ≤ p.size
  head : p.freeList = free.head?
  links : Stacked p.freeNext free

/-- The invariant of a pool. -/
def WellFormed (p : AllocatorPool T N) : Prop := ∃ live free, p.Owned live free

theorem read_eq_some_iff {p : AllocatorPool T N} {a : Ptr} {v : T} : p.read a = some v ↔ p.mem a = .storage v := by
  unfold read
  cases h : p.mem a <;> simp

theorem read_isSome_iff {p : AllocatorPool T N} {a : Ptr} : p.read a ≠ none ↔ ∃ v, p.mem a = .storage v := by
  rw [Option.ne_none_iff_exists']
  simp only [read_eq_some_iff]

@[simp] theorem read_write (p : AllocatorPool T N) (a b : Ptr) (v : T) :
    (p.write a v).read b = if b = a then some v else p.read b := by
  unfold read write
  by_cases h : b = a <;> simp [h]

theorem addr_injective {i j : Nat} (same : addr N i = addr N j) : i = j := by
  simp only [addr,Ptr.mk.injEq] at same
  rw [← Nat.div_add_mod i N,← Nat.div_add_mod j N,same.1,same.2]

theorem addrs_nodup (n : Nat) : ((List.range n).map (addr N)).Nodup :=
  List.Nodup.map_on (fun _ _ _ _ => addr_injective) List.nodup_range

theorem owned_empty : (empty : AllocatorPool T N).Owned [] [] :=
  ⟨by simp,by simp [empty],rfl,by simp [empty],by simp,rfl,trivial⟩

variable {p : AllocatorPool T N} {live free : List Ptr}

theorem Owned.nodup (owned : p.Owned live free) : (live ++ free).Nodup :=
  owned.carved.nodup_iff.mpr (addrs_nodup _)

theorem Owned.distinct (owned : p.Owned live free) : live.Nodup := (List.nodup_append.mp owned.nodup).1

/-- A live address is not free. -/
theorem Owned.not_free (owned : p.Owned live free) {a : Ptr} (isLive : a ∈ live) : a ∉ free :=
  fun isFree => (List.nodup_append.mp owned.nodup).2.2 a isLive a isFree rfl

/-- A live address stays live when its object changes. -/
theorem Owned.write (owned : p.Owned live free) {a : Ptr} (isLive : a ∈ live) (v : T) :
    (p.write a v).Owned live free := by
  refine ⟨owned.carved,?_,owned.count,owned.blocks,owned.within,owned.head,?_⟩
  · intro b
    by_cases h : b = a
    · simp [AllocatorPool.write,h,isLive]
    · simp only [AllocatorPool.write,h,↓reduceIte]
      exact owned.objects b
  · apply stacked_congr owned.links
    intro b isFree
    have other : b ≠ a := fun h => owned.not_free isLive (h ▸ isFree)
    simp [freeNext,AllocatorPool.write,other]

theorem WellFormed.write (wf : p.WellFormed) {a : Ptr} (isLive : p.read a ≠ none) (v : T) :
    (p.write a v).WellFormed := by
  obtain ⟨live,free,owned⟩ := wf
  exact ⟨live,free,owned.write ((owned.objects a).mp (read_isSome_iff.mp isLive)) v⟩

/-- What `reserve` leaves: more blocks, the old ones untouched, no new objects. -/
structure Grown (p p' : AllocatorPool T N) : Prop where
  nbElements : p'.nbElements = p.nbElements
  maxAllocatedIndex : p'.maxAllocatedIndex = p.maxAllocatedIndex
  freeList : p'.freeList = p.freeList
  blocks : p'.size = p'.chunkList * N
  more : p.chunkList ≤ p'.chunkList
  kept : ∀ a, a.block < p.chunkList → p'.mem a = p.mem a
  fresh : ∀ a v, p'.mem a = .storage v → p.mem a = .storage v

theorem grown_refl (blocks : p.size = p.chunkList * N) : Grown p p :=
  ⟨rfl,rfl,rfl,blocks,Nat.le_refl _,fun _ _ => rfl,fun _ _ h => h⟩

theorem grown_addBlock (blocks : p.size = p.chunkList * N) : Grown p p.addBlock := by
  refine ⟨rfl,rfl,rfl,by simp only [addBlock,blocks]; ring,Nat.le_succ _,?_,?_⟩
  · intro a inside
    simp only [addBlock]
    rw [if_neg (by omega)]
  · intro a v stored
    simp only [addBlock] at stored
    split_ifs at stored
    exact stored

theorem Grown.trans {p p' p'' : AllocatorPool T N} (first : Grown p p') (second : Grown p' p'') : Grown p p'' := by
  refine ⟨by rw [second.nbElements,first.nbElements],by rw [second.maxAllocatedIndex,first.maxAllocatedIndex],
    by rw [second.freeList,first.freeList],second.blocks,Nat.le_trans first.more second.more,?_,?_⟩
  · intro a inside
    rw [second.kept a (Nat.lt_of_lt_of_le inside first.more),first.kept a inside]
  · intro a v stored
    exact first.fresh a v (second.fresh a v stored)

theorem reserveLoop_grown (positive : 0 < N) (r : Nat) : ∀ (rounds : Nat) (p : AllocatorPool T N),
    r + 1 - p.size ≤ rounds → p.size = p.chunkList * N →
    Grown p (reserveLoop r rounds p) ∧ r < (reserveLoop r rounds p).size := by
  intro rounds
  induction rounds with
  | zero =>
    intro p enough blocks
    exact ⟨grown_refl blocks,by simp only [reserveLoop]; omega⟩
  | succ rounds ih =>
    intro p enough blocks
    by_cases more : r ≥ p.size
    · have first := grown_addBlock blocks
      have sizeIs : (p.addBlock).size = p.size + N := rfl
      obtain ⟨grown,room⟩ := ih p.addBlock (by omega) first.blocks
      simp only [reserveLoop,more,↓reduceIte]
      exact ⟨first.trans grown,room⟩
    · simp only [reserveLoop,more,↓reduceIte]
      exact ⟨grown_refl blocks,by omega⟩

theorem reserve_grown (positive : 0 < N) (r : Nat) (blocks : p.size = p.chunkList * N) :
    Grown p (p.reserve r) ∧ r < (p.reserve r).size := by
  unfold reserve
  by_cases inside : r < p.size
  · simp only [inside,↓reduceIte]
    exact ⟨grown_refl blocks,trivial⟩
  · simp only [inside,↓reduceIte]
    exact reserveLoop_grown positive r _ p (Nat.le_refl _) blocks

theorem Owned.block_lt (owned : p.Owned live free) (positive : 0 < N) {a : Ptr} (used : a ∈ live ++ free) :
    a.block < p.chunkList := by
  obtain ⟨i,inside,rfl⟩ := List.mem_map.mp (owned.carved.mem_iff.mp used)
  have below : i < p.chunkList * N := by
    have := List.mem_range.mp inside
    have := owned.within
    rw [owned.blocks] at this
    omega
  exact (Nat.div_lt_iff_lt_mul positive).mpr below

theorem Owned.grow {p' : AllocatorPool T N} (owned : p.Owned live free) (positive : 0 < N) (grown : Grown p p') :
    p'.Owned live free := by
  have sizes : p.size ≤ p'.size := by
    rw [owned.blocks,grown.blocks]
    exact Nat.mul_le_mul_right N grown.more
  refine ⟨owned.carved,?_,by rw [grown.nbElements,owned.count],grown.blocks,Nat.le_trans owned.within sizes,
    by rw [grown.freeList,owned.head],?_⟩
  · intro a
    rw [← owned.objects a]
    constructor
    · rintro ⟨v,stored⟩
      exact ⟨v,grown.fresh a v stored⟩
    · rintro ⟨v,stored⟩
      have used : a ∈ live := (owned.objects a).mp ⟨v,stored⟩
      exact ⟨v,by rw [grown.kept a (owned.block_lt positive (by simp [used])),stored]⟩
  · apply stacked_congr owned.links
    intro a isFree
    simp only [freeNext,grown.kept a (owned.block_lt positive (by simp [isFree]))]

/-- The objects of a pool with no free chunk after `takeIndex`, all where they were. -/
structure Taken (p p' : AllocatorPool T N) (live : List Ptr) : Prop where
  blocks : p'.size = p'.chunkList * N
  head : p'.freeList = none
  objects : ∀ a, (∃ v, p'.mem a = .storage v) ↔ a ∈ live
  reads : ∀ a, p'.read a = p.read a

theorem takeIndex_spec (positive : 0 < N) (owned : p.Owned live []) :
    Taken p p.takeIndex live ∧ live.length < p.takeIndex.size ∧ p.takeIndex.nbElements = p.nbElements + 1 := by
  set counted : AllocatorPool T N := { p with nbElements := p.nbElements + 1 } with countedIs
  set backed := if p.nbElements ≥ counted.size then counted.reserve p.nbElements else counted with backedIs
  have growth : Grown counted backed ∧ live.length < backed.size := by
    rw [backedIs,← owned.count]
    split_ifs with full
    · exact reserve_grown positive _ owned.blocks
    · exact ⟨grown_refl owned.blocks,by omega⟩
  have takenIs : p.takeIndex.mem = backed.mem ∧ p.takeIndex.size = backed.size ∧
      p.takeIndex.chunkList = backed.chunkList ∧ p.takeIndex.nbElements = backed.nbElements ∧
      p.takeIndex.freeList = backed.freeList := by
    have unfolded : p.takeIndex = if p.nbElements > backed.maxAllocatedIndex then
        { backed with maxAllocatedIndex := p.nbElements } else backed := rfl
    rw [unfolded]
    split_ifs <;> exact ⟨rfl,rfl,rfl,rfl,rfl⟩
  obtain ⟨memIs,sizeIs,listIs,countIs,freeIs⟩ := takenIs
  obtain ⟨grown,room⟩ := growth
  have inBlock : ∀ a ∈ live, a.block < p.chunkList := fun a isLive => owned.block_lt positive (by simpa using isLive)
  refine ⟨⟨by rw [sizeIs,listIs,grown.blocks],by rw [freeIs,grown.freeList]; exact owned.head,?_,?_⟩,
    by rw [sizeIs]; exact room,by rw [countIs,grown.nbElements]⟩
  · intro a
    rw [memIs,← owned.objects a]
    constructor
    · rintro ⟨w,h⟩
      exact ⟨w,grown.fresh a w h⟩
    · rintro ⟨w,h⟩
      exact ⟨w,by rw [grown.kept a (inBlock a ((owned.objects a).mp ⟨w,h⟩))]; exact h⟩
  · intro a
    simp only [read,memIs]
    cases stored : p.mem a with
    | storage w =>
      have isLive := (owned.objects a).mp ⟨w,stored⟩
      have kept : backed.mem a = p.mem a := grown.kept a (inBlock a isLive)
      rw [kept,stored]
    | next q =>
      cases after : backed.mem a with
      | storage w =>
        have before : p.mem a = .storage w := grown.fresh a w after
        rw [stored] at before
        exact absurd before (by simp)
      | next q' => rfl

/-- With an empty free list: the next fresh index, in a new block if need be. -/
theorem allocate_carve (positive : 0 < N) (owned : p.Owned live []) (v : T) :
    ∃ p' a, p.allocate v = some (p',a) ∧ p'.Owned (a :: live) [] ∧ a ∉ live ∧
      ∀ b, p'.read b = if b = a then some v else p.read b := by
  obtain ⟨taken,inside,counted⟩ := takeIndex_spec positive owned
  have executed : p.allocate v = some (p.takeIndex.write (addr N live.length) v,addr N live.length) := by
    have chunk : p.takeIndex.getChunk p.nbElements = some (addr N live.length) := by
      unfold getChunk addr
      rw [owned.count,if_pos]
      rw [Nat.div_lt_iff_lt_mul positive,← taken.blocks]
      exact inside
    have empty : p.freeList = none := owned.head
    simp only [allocate,empty,chunk]
    rfl
  have unused : addr N live.length ∉ live := by
    intro member
    have used : addr N live.length ∈ live ++ [] := by simpa using member
    obtain ⟨i,below,same⟩ := List.mem_map.mp (owned.carved.mem_iff.mp used)
    have equal := addr_injective same
    have := List.mem_range.mp below
    simp only [List.length_nil,Nat.add_zero] at this
    omega
  refine ⟨_,_,executed,⟨?_,?_,?_,taken.blocks,?_,?_,trivial⟩,unused,?_⟩
  · have before := owned.carved
    simp only [List.append_nil,List.length_nil,Nat.add_zero] at before
    simp only [List.append_nil,List.length_cons,List.length_nil,Nat.add_zero,List.range_succ,
      List.map_append,List.map_cons,List.map_nil]
    exact (List.perm_append_singleton _ _).symm.trans (before.append_right _)
  · intro a
    by_cases h : a = addr N live.length
    · simp [AllocatorPool.write,h]
    · simp only [AllocatorPool.write,h,↓reduceIte,List.mem_cons,false_or]
      exact taken.objects a
  · simp only [AllocatorPool.write,counted,owned.count,List.length_cons]
  · simp only [AllocatorPool.write,List.length_cons,List.length_nil]
    omega
  · show p.takeIndex.freeList = none
    exact taken.head
  · intro b
    rw [read_write]
    by_cases h : b = addr N live.length
    · simp [h]
    · simp only [h,↓reduceIte]
      exact taken.reads b

/-- The head of the free list. -/
theorem allocate_reuse {a : Ptr} (owned : p.Owned live (a :: free)) (v : T) :
    ∃ p', p.allocate v = some (p',a) ∧ p'.Owned (a :: live) free ∧ a ∉ live ∧
      ∀ b, p'.read b = if b = a then some v else p.read b := by
  have unused : a ∉ live := fun member => owned.not_free member (by simp)
  obtain ⟨here,rest⟩ := owned.links
  have linkIs : p.mem a = .next free.head? := by
    cases h : p.mem a with
    | storage w => exact absurd ((owned.objects a).mp ⟨w,h⟩) unused
    | next q => simp only [freeNext,h] at here; rw [here]
  have executed : p.allocate v =
      some ({ p.write a v with freeList := free.head?, nbElements := p.nbElements + 1 },a) := by
    have isHead : p.freeList = some a := owned.head
    simp only [allocate,isHead,linkIs]
  refine ⟨_,executed,⟨?_,?_,?_,owned.blocks,?_,rfl,?_⟩,unused,?_⟩
  · have before := owned.carved
    simp only [List.length_cons] at before ⊢
    rw [show live.length + 1 + free.length = live.length + (free.length + 1) by omega]
    exact List.perm_middle.symm.trans before
  · intro b
    by_cases h : b = a
    · simp [AllocatorPool.write,h]
    · simp only [AllocatorPool.write,h,↓reduceIte,List.mem_cons,false_or]
      exact owned.objects b
  · simp only [List.length_cons,owned.count]
  · have := owned.within
    simp only [List.length_cons] at this ⊢
    simp only [AllocatorPool.write]
    omega
  · apply stacked_congr rest
    intro b isFree
    have other : b ≠ a := by
      intro h
      rw [h] at isFree
      exact (List.nodup_cons.mp (List.nodup_append.mp owned.nodup).2.1).1 isFree
    simp [freeNext,AllocatorPool.write,other]
  · intro b
    exact read_write p a b v

/-- Allocation hands out an address that was not live and stores the object there. -/
theorem allocate_owned (positive : 0 < N) (owned : p.Owned live free) (v : T) :
    ∃ p' a, p.allocate v = some (p',a) ∧ p'.Owned (a :: live) free.tail ∧ a ∉ live ∧
      ∀ b, p'.read b = if b = a then some v else p.read b := by
  cases free with
  | nil => exact allocate_carve positive owned v
  | cons a free =>
    obtain ⟨p',executed,after⟩ := allocate_reuse owned v
    exact ⟨p',a,executed,after⟩

/-- Release takes a live address back. -/
theorem release_owned (owned : p.Owned live free) {a : Ptr} (isLive : a ∈ live) :
    ∃ p', p.release (some a) = some p' ∧ p'.Owned (live.erase a) (a :: free) ∧
      ∀ b, p'.read b = if b = a then none else p.read b := by
  obtain ⟨v,stored⟩ := (owned.objects a).mpr isLive
  have lengthIs : (live.erase a).length + 1 = live.length := by
    rw [List.length_erase_of_mem isLive]
    have := List.length_pos_of_mem isLive
    omega
  have executed : p.release (some a) = some { p with
      mem := fun b => if b = a then .next p.freeList else p.mem b
      freeList := some a
      nbElements := p.nbElements - 1 } := by simp only [release,stored]
  refine ⟨_,executed,⟨?_,?_,?_,owned.blocks,?_,rfl,?_⟩,?_⟩
  · have before := owned.carved
    simp only [List.length_cons]
    rw [show (live.erase a).length + (free.length + 1) = live.length + free.length by omega]
    refine List.Perm.trans ?_ before
    exact List.perm_middle.trans ((List.perm_cons_erase isLive).symm.append_right free)
  · intro b
    by_cases h : b = a
    · simp [h,owned.distinct.not_mem_erase]
    · simp only [h,↓reduceIte]
      rw [owned.objects b,List.mem_erase_of_ne h]
  · have := owned.count
    show p.nbElements - 1 = (live.erase a).length
    omega
  · have := owned.within
    simp only [List.length_cons]
    omega
  · refine ⟨by simp only [freeNext,↓reduceIte]; exact owned.head,?_⟩
    apply stacked_congr owned.links
    intro b isFree
    have other : b ≠ a := fun h => owned.not_free isLive (h ▸ isFree)
    simp [freeNext,other]
  · intro b
    by_cases h : b = a <;> simp [read,h]

theorem WellFormed.allocate (positive : 0 < N) (wf : p.WellFormed) (v : T) :
    ∃ p' a, p.allocate v = some (p',a) ∧ p'.WellFormed ∧ p.read a = none ∧
      (∀ b, p'.read b = if b = a then some v else p.read b) ∧ p'.nbElements = p.nbElements + 1 := by
  obtain ⟨live,free,owned⟩ := wf
  obtain ⟨p',a,executed,owned',unused,reads⟩ := allocate_owned positive owned v
  refine ⟨p',a,executed,⟨_,_,owned'⟩,?_,reads,by rw [owned'.count,owned.count,List.length_cons]⟩
  by_contra stored
  exact unused ((owned.objects a).mp (read_isSome_iff.mp stored))

theorem WellFormed.release (wf : p.WellFormed) {a : Ptr} (isLive : p.read a ≠ none) :
    ∃ p', p.release (some a) = some p' ∧ p'.WellFormed ∧
      (∀ b, p'.read b = if b = a then none else p.read b) ∧ p'.nbElements + 1 = p.nbElements := by
  obtain ⟨live,free,owned⟩ := wf
  have member := (owned.objects a).mp (read_isSome_iff.mp isLive)
  obtain ⟨p',executed,owned',reads⟩ := release_owned owned member
  refine ⟨p',executed,⟨_,_,owned'⟩,reads,?_⟩
  rw [owned'.count,owned.count,List.length_erase_of_mem member]
  have := List.length_pos_of_mem member
  omega

/-- Distinct live addresses are no more than the pool counts. -/
theorem WellFormed.length_le (wf : p.WellFormed) {xs : List Ptr} (nodup : xs.Nodup)
    (isLive : ∀ a ∈ xs, p.read a ≠ none) : xs.length ≤ p.nbElements := by
  obtain ⟨live,free,owned⟩ := wf
  rw [owned.count]
  have sub : xs ⊆ live := fun a member => (owned.objects a).mp (read_isSome_iff.mp (isLive a member))
  exact (List.subperm_of_subset nodup sub).length_le

/-- The pool counts the live addresses. -/
theorem WellFormed.count_eq (wf : p.WellFormed) {xs : List Ptr} (nodup : xs.Nodup) (mem : ∀ a, a ∈ xs ↔ p.read a ≠ none) :
    p.nbElements = xs.length := by
  obtain ⟨live,free,owned⟩ := wf
  have distinct : live.Nodup := (List.nodup_append.mp (owned.carved.nodup_iff.mpr (List.nodup_range.map fun _ _ => addr_injective))).1
  rw [owned.count]
  refine ((List.perm_ext_iff_of_nodup distinct nodup).mpr ?_).length_eq
  intro a
  rw [mem,read_isSome_iff,owned.objects]

end AllocatorPool

end BaboEngine
