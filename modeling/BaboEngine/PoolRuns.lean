import BaboEngine.MemoryPool
import Mathlib.Data.List.Induction

/-!
# Runs of a pool

The pool with all that its users do: `allocateWithIndex`, `reserve` and `destroyAll` join the
two operations that the trees use. A run keeps a list of the objects that are live, each
at the address that the pool has returned for it.
-/

namespace BaboEngine.AllocatorPool
open DoublyLinked
variable {T : Type} {N : Nat}

/-- The null pointer behind the end. -/
def getElement (p : AllocatorPool T N) (index : Nat) : Option (Option Ptr) :=
  if index ≥ p.size then some none else (p.getChunk index).map some

/-- The search of `allocateWithIndex`, which ends with 0 where it finds nothing. -/
def indexOfLoop (p : AllocatorPool T N) (chunk : Ptr) : Nat → Nat → Option Nat
  | 0, _ => some 0
  | rounds + 1, i => do
    if (← p.getElement i) = some chunk then some i else p.indexOfLoop chunk rounds (i + 1)

def indexOf (p : AllocatorPool T N) (chunk : Ptr) : Option Nat := p.indexOfLoop chunk p.size 0

def allocateWithIndex (p : AllocatorPool T N) (object : T) : Option (AllocatorPool T N × Ptr × Nat) :=
  match p.freeList with
  | some chunk =>
    match p.mem chunk with
    | .next following => do
      let p := { p.write chunk object with freeList := following, nbElements := p.nbElements + 1 }
      let index ← p.indexOf chunk
      some (p,chunk,index)
    | .storage _ => none
  | none => do
    let chunk ← p.takeIndex.getChunk p.nbElements
    some (p.takeIndex.write chunk object,chunk,p.nbElements)

/-- The set of the free chunks that `destroyAll` builds. -/
def freeSet (p : AllocatorPool T N) : Nat → Option Ptr → Option (List Ptr)
  | 0, _ => none
  | _ + 1, none => some []
  | rounds + 1, some chunk =>
    match p.mem chunk with
    | .next following => (p.freeSet rounds following).map (chunk :: ·)
    | .storage _ => none

/-- The loop of `destroyAll`: the chunks whose objects it destroys. -/
def destroyLoop (p : AllocatorPool T N) (freed : List Ptr) : Nat → Nat → Option (List Ptr)
  | 0, _ => some []
  | rounds + 1, i =>
    if i ≤ p.maxAllocatedIndex ∧ i < p.size then do
      let chunk ← p.getChunk i
      let rest ← p.destroyLoop freed rounds (i + 1)
      some (if chunk ∈ freed then rest else chunk :: rest)
    else some []

/-- The pool afterwards, and the chunks on which a destructor has run. No object is left in them. -/
def destroyAll (p : AllocatorPool T N) : Option (AllocatorPool T N × List Ptr) :=
  if p.maxAllocatedIndex = 0 then some (p,[])
  else do
    let freed ← p.freeSet (p.size + 1) p.freeList
    let destroyed ← p.destroyLoop freed p.size 0
    some ({ p with
      nbElements := 0
      freeList := none
      mem := fun a => if a ∈ destroyed then .next none else p.mem a },destroyed)

/-! ## Runs -/

/-- A call of the pool. -/
inductive Request (T : Type) where
  | allocate (object : T)
  | allocateWithIndex (object : T)
  | reserve (reserveSize : Nat)
  | release (pointer : Option Ptr)
  | destroyAll

/-- A pool and the live objects with their addresses. -/
structure Custody (T : Type) (N : Nat) where
  pool : AllocatorPool T N
  live : List (Ptr × T)

namespace Custody

def start : Custody T N := ⟨.empty,[]⟩

def addresses (c : Custody T N) : List Ptr := c.live.map Prod.fst

def step (c : Custody T N) : Request T → Option (Custody T N)
  | .allocate object => (c.pool.allocate object).map fun (p,a) => ⟨p,(a,object) :: c.live⟩
  | .allocateWithIndex object => (c.pool.allocateWithIndex object).map fun (p,a,_) => ⟨p,(a,object) :: c.live⟩
  | .reserve reserveSize => some ⟨c.pool.reserve reserveSize,c.live⟩
  | .release pointer => (c.pool.release pointer).map fun p => ⟨p,c.live.filter fun e => some e.1 ≠ pointer⟩
  | .destroyAll => c.pool.destroyAll.map fun (p,destroyed) => ⟨p,c.live.filter fun e => e.1 ∉ destroyed⟩

/-- A pointer that is released is null or live. -/
def Permits (c : Custody T N) : Request T → Prop
  | .release (some a) => a ∈ c.addresses
  | _ => True

/-- A pool after some calls. -/
def after (requests : List (Request T)) : Option (Custody T N) := requests.foldlM step start

end Custody

/-! ## The high-water mark -/

variable {p p' : AllocatorPool T N} {live free : List Ptr} {a : Ptr} {v : T}

/-- No index above the mark has been used, and the mark is an index of the pool. -/
structure Marked (p : AllocatorPool T N) (used : Nat) : Prop where
  used : used ≤ p.maxAllocatedIndex + 1
  inside : p.maxAllocatedIndex = 0 ∨ p.maxAllocatedIndex < p.size

theorem takeIndex_mark (positive : 0 < N) (blocks : p.size = p.chunkList * N) :
    p.takeIndex.maxAllocatedIndex = max p.nbElements p.maxAllocatedIndex ∧ p.nbElements < p.takeIndex.size ∧ p.size ≤ p.takeIndex.size := by
  set counted : AllocatorPool T N := { p with nbElements := p.nbElements + 1 }
  obtain ⟨backed,isBacked,mark,room,le⟩ : ∃ backed, backed = (if p.nbElements ≥ counted.size then counted.reserve p.nbElements else counted) ∧
      backed.maxAllocatedIndex = p.maxAllocatedIndex ∧ p.nbElements < backed.size ∧ p.size ≤ backed.size := by
    refine ⟨_,rfl,?_⟩
    split_ifs with full
    · obtain ⟨grown,room⟩ := reserve_grown positive p.nbElements (p := counted) blocks
      refine ⟨grown.maxAllocatedIndex,room,?_⟩
      rw [blocks,grown.blocks]
      exact Nat.mul_le_mul_right N grown.more
    · exact ⟨rfl,Nat.lt_of_not_le full,Nat.le_refl _⟩
  have unfolded : p.takeIndex = if p.nbElements > backed.maxAllocatedIndex then
      { backed with maxAllocatedIndex := p.nbElements } else backed := by rw [isBacked]; rfl
  rw [unfolded]
  split_ifs with raised
  · refine ⟨?_,room,le⟩
    show p.nbElements = _
    omega
  · exact ⟨by omega,room,le⟩

theorem allocate_marked (positive : 0 < N) (owned : p.Owned live free) (marked : p.Marked (live.length + free.length))
    (allocated : p.allocate v = some (p',a)) : p'.Marked (live.length + 1 + free.tail.length) := by
  obtain ⟨used,inside⟩ := marked
  have head := owned.head
  cases free with
  | nil =>
    obtain ⟨mark,room,le⟩ := takeIndex_mark positive owned.blocks
    have count := owned.count
    simp only [allocate,head,List.head?_nil,Option.bind_eq_bind,Option.bind_eq_some_iff] at allocated
    obtain ⟨chunk,_,isSome⟩ := allocated
    obtain ⟨rfl,rfl⟩ := Prod.mk.inj (Option.some.inj isSome)
    constructor
    · show _ ≤ p.takeIndex.maxAllocatedIndex + 1
      simp only [List.tail_nil,List.length_nil]
      omega
    · show p.takeIndex.maxAllocatedIndex = 0 ∨ p.takeIndex.maxAllocatedIndex < p.takeIndex.size
      omega
  | cons b free =>
    cases stored : p.mem b with
    | storage w => simp [allocate,head,stored] at allocated
    | next following =>
      simp only [allocate,head,List.head?_cons,stored,Option.some.injEq,Prod.mk.injEq] at allocated
      obtain ⟨rfl,rfl⟩ := allocated
      refine ⟨?_,inside⟩
      show _ ≤ p.maxAllocatedIndex + 1
      simp only [List.tail_cons,List.length_cons] at used ⊢
      omega

/-! ## Indices -/

/-- Every index below the size has its chunk. -/
theorem getElement_of_lt {i : Nat} (positive : 0 < N) (blocks : p.size = p.chunkList * N) (inside : i < p.size) :
    p.getElement i = some (some (addr N i)) := by
  have there : i / N < p.chunkList := (Nat.div_lt_iff_lt_mul positive).mpr (blocks ▸ inside)
  rw [getElement,if_neg (Nat.not_le.mpr inside),getChunk,if_pos there]
  rfl

theorem indexOfLoop_spec (positive : 0 < N) (blocks : p.size = p.chunkList * N) : ∀ rounds i, i + rounds = p.size →
    (∃ j, i ≤ j ∧ j < p.size ∧ addr N j = a) → ∃ k, p.indexOfLoop a rounds i = some k ∧ p.getElement k = some (some a) := by
  intro rounds
  induction rounds with
  | zero =>
    rintro i total ⟨j,_,_,_⟩
    omega
  | succ rounds ih =>
    rintro i total ⟨j,le,inside,isAddr⟩
    have read := getElement_of_lt (i := i) positive blocks (by omega)
    by_cases here : addr N i = a
    · rw [here] at read
      exact ⟨i,by simp [indexOfLoop,read],read⟩
    · have later : i ≠ j := fun same => here (same ▸ isAddr)
      obtain ⟨k,found,isElement⟩ := ih (i + 1) (by omega) ⟨j,by omega,inside,isAddr⟩
      exact ⟨k,by simp [indexOfLoop,read,here,found],isElement⟩

/-- Where `allocateWithIndex` differs from `allocate`: it says the index of the chunk too. -/
theorem allocateWithIndex_owned (positive : 0 < N) (owned : p.Owned live free) (v : T) (allocated : p.allocate v = some (p',a))
    (owned' : p'.Owned (a :: live) free.tail) : ∃ i, p.allocateWithIndex v = some (p',a,i) ∧ p'.getElement i = some (some a) := by
  have head := owned.head
  have isCarved : a ∈ (List.range ((a :: live).length + free.tail.length)).map (addr N) :=
    owned'.carved.mem_iff.mp (List.mem_append_left _ List.mem_cons_self)
  obtain ⟨j,inRange,isAddr⟩ := List.mem_map.mp isCarved
  have inside : j < p'.size := Nat.lt_of_lt_of_le (List.mem_range.mp inRange) owned'.within
  cases free with
  | nil =>
    simp only [allocate,head,List.head?_nil,Option.bind_eq_bind,Option.bind_eq_some_iff] at allocated
    obtain ⟨chunk,isChunk,isSome⟩ := allocated
    obtain ⟨rfl,rfl⟩ := Prod.mk.inj (Option.some.inj isSome)
    refine ⟨p.nbElements,by simp only [allocateWithIndex,head,List.head?_nil,isChunk,Option.bind_eq_bind,Option.bind_some],?_⟩
    obtain ⟨_,room,_⟩ := takeIndex_mark positive owned.blocks
    unfold getChunk at isChunk
    split_ifs at isChunk
    obtain rfl := Option.some.inj isChunk
    exact getElement_of_lt positive owned'.blocks room
  | cons b free =>
    cases stored : p.mem b with
    | storage w => simp [allocate,head,stored] at allocated
    | next following =>
      simp only [allocate,head,List.head?_cons,stored,Option.some.injEq,Prod.mk.injEq] at allocated
      obtain ⟨rfl,rfl⟩ := allocated
      obtain ⟨k,found,isElement⟩ := indexOfLoop_spec positive owned'.blocks _ 0 (Nat.zero_add _) ⟨j,Nat.zero_le _,inside,isAddr⟩
      refine ⟨k,?_,isElement⟩
      simp only [allocateWithIndex,head,List.head?_cons,stored,indexOf,found,Option.bind_eq_bind,Option.bind_some]

/-! ## Destroying -/

theorem freeSet_spec : ∀ {free : List Ptr} {rounds : Nat}, Stacked p.freeNext free → (∀ a ∈ free, ∀ v, p.mem a ≠ .storage v) →
    free.length < rounds → p.freeSet rounds free.head? = some free
  | _, 0, _, _, short => absurd short (Nat.not_lt_zero _)
  | [], _ + 1, _, _, _ => rfl
  | a :: free, rounds + 1, ⟨here,rest⟩, noObject, short => by
    obtain ⟨first,others⟩ := List.forall_mem_cons.mp noObject
    have tail := freeSet_spec rest others (show free.length < rounds by simpa using short)
    cases stored : p.mem a with
    | storage v => exact absurd stored (first v)
    | next following =>
      have isNext : following = free.head? := by simpa [freeNext,stored] using here
      simp [freeSet,stored,isNext,tail]

theorem destroyLoop_spec (positive : 0 < N) (blocks : p.size = p.chunkList * N) (inside : p.maxAllocatedIndex < p.size) (freed : List Ptr) :
    ∀ rounds i, i + rounds = p.size → p.destroyLoop freed rounds i =
      some (((List.range' i (p.maxAllocatedIndex + 1 - i)).map (addr N)).filter fun a => a ∉ freed) := by
  intro rounds
  induction rounds with
  | zero =>
    intro i total
    rw [show p.maxAllocatedIndex + 1 - i = 0 by omega]
    rfl
  | succ rounds ih =>
    intro i total
    by_cases below : i ≤ p.maxAllocatedIndex
    · have chunk : p.getChunk i = some (addr N i) := by
        have element := getElement_of_lt (i := i) positive blocks (by omega)
        rw [getElement,if_neg (by omega)] at element
        simpa using element
      have rest := ih (i + 1) (by omega)
      rw [show p.maxAllocatedIndex + 1 - i = p.maxAllocatedIndex + 1 - (i + 1) + 1 by omega,List.range'_succ,List.map_cons,List.filter_cons]
      have goesOn : i ≤ p.maxAllocatedIndex ∧ i < p.size := ⟨below,by omega⟩
      simp only [destroyLoop,if_pos goesOn,chunk,rest,Option.bind_eq_bind,Option.bind_some]
      by_cases isFree : addr N i ∈ freed <;> simp [isFree]
    · have stops : ¬ (i ≤ p.maxAllocatedIndex ∧ i < p.size) := fun both => below both.1
      rw [destroyLoop,if_neg stops,show p.maxAllocatedIndex + 1 - i = 0 by omega]
      rfl

/-- The chunks up to the mark that are not free. -/
def unfreed (p : AllocatorPool T N) (free : List Ptr) : List Ptr :=
  ((List.range (p.maxAllocatedIndex + 1)).map (addr N)).filter fun a => a ∉ free

theorem destroyAll_owned (positive : 0 < N) (owned : p.Owned live free) (marked : p.Marked (live.length + free.length))
    (some : p.maxAllocatedIndex ≠ 0) : p.destroyAll = .some ({ p with
      nbElements := 0
      freeList := none
      mem := fun a => if a ∈ p.unfreed free then .next none else p.mem a },p.unfreed free) := by
  have inside : p.maxAllocatedIndex < p.size := marked.inside.resolve_left some
  have noObject : ∀ a ∈ free, ∀ v, p.mem a ≠ .storage v := by
    intro a isFree v stored
    exact owned.not_free ((owned.objects a).mp ⟨v,stored⟩) isFree
  have short : free.length < p.size + 1 := by
    have := owned.within
    omega
  have freed := freeSet_spec owned.links noObject short
  have destroyed := destroyLoop_spec positive owned.blocks inside free p.size 0 (Nat.zero_add _)
  rw [Nat.sub_zero,← List.range_eq_range'] at destroyed
  rw [destroyAll,if_neg some,owned.head,freed]
  simp only [destroyed,Option.bind_eq_bind,Option.bind_some]
  rfl

theorem Owned.live_unfreed (owned : p.Owned live free) (marked : p.Marked (live.length + free.length)) (isLive : a ∈ live) :
    a ∈ p.unfreed free := by
  have notFree := owned.not_free isLive
  obtain ⟨i,inRange,rfl⟩ := List.mem_map.mp (owned.carved.mem_iff.mp (List.mem_append_left _ isLive))
  have below := marked.used
  refine List.mem_filter.mpr ⟨List.mem_map_of_mem (List.mem_range.mpr ?_),by simpa using notFree⟩
  have := List.mem_range.mp inRange
  omega

/-- The chunks that are not free are the live ones if and only if every index up to the mark is in use or free. -/
theorem Owned.unfreed_perm (owned : p.Owned live free) (marked : p.Marked (live.length + free.length)) :
    (p.unfreed free).Perm live ↔ live.length + free.length = p.maxAllocatedIndex + 1 := by
  constructor
  · intro perm
    refine Nat.le_antisymm marked.used (Nat.le_of_not_lt fun less => ?_)
    -- The first index that is neither in use nor free.
    have unused : addr N (live.length + free.length) ∉ live ++ free := by
      intro member
      obtain ⟨i,inRange,same⟩ := List.mem_map.mp (owned.carved.mem_iff.mp member)
      have := List.mem_range.mp inRange
      have := addr_injective same
      omega
    refine unused (List.mem_append_left _ (perm.mem_iff.mp (List.mem_filter.mpr ⟨List.mem_map_of_mem (List.mem_range.mpr less),?_⟩)))
    simpa using fun isFree => unused (List.mem_append_right _ isFree)
  · intro all
    have carved := owned.carved
    rw [all] at carved
    have filtered := carved.symm.filter fun a => decide (a ∉ free)
    apply filtered.trans
    have keeps : live.filter (fun a => decide (a ∉ free)) = live :=
      List.filter_eq_self.mpr fun a isLive => decide_eq_true (owned.not_free isLive)
    have drops : free.filter (fun a => decide (a ∉ free)) = [] :=
      List.filter_eq_nil_iff.mpr fun a isFree => by simpa using isFree
    rw [List.filter_append,keeps,drops,List.append_nil]

/-! ## The invariant of a run -/

namespace Custody
variable {c c' : Custody T N} {requests before later : List (Request T)} {r : Request T}

/-- The pool owns the live addresses, and the objects are there. -/
structure Kept (c : Custody T N) (free : List Ptr) : Prop where
  owned : c.pool.Owned c.addresses free
  objects : ∀ e ∈ c.live, c.pool.read e.1 = some e.2
  marked : c.pool.Marked (c.addresses.length + free.length)

theorem kept_start : (start : Custody T N).Kept [] := ⟨owned_empty,by simp [start],⟨Nat.zero_le _,.inl rfl⟩⟩

/-- The live objects are still where they were. -/
def Stays (c : Custody T N) (p : AllocatorPool T N) : Prop := ∀ e ∈ c.live, p.read e.1 = some e.2

theorem Kept.allocate (positive : 0 < N) (kept : Kept c free) (v : T) : ∃ p a i, c.pool.allocate v = some (p,a) ∧
    c.pool.allocateWithIndex v = some (p,a,i) ∧ a ∉ c.addresses ∧ p.getElement i = some (some a) ∧ c.Stays p ∧
    Kept ⟨p,(a,v) :: c.live⟩ free.tail := by
  obtain ⟨p,a,allocated,owned',fresh,reads⟩ := allocate_owned positive kept.owned v
  obtain ⟨i,indexed,isElement⟩ := allocateWithIndex_owned positive kept.owned v allocated owned'
  have stays : c.Stays p := by
    intro e member
    have other : e.1 ≠ a := fun same => fresh (same ▸ List.mem_map_of_mem member)
    rw [reads,if_neg other,kept.objects e member]
  refine ⟨p,a,i,allocated,indexed,fresh,isElement,stays,owned',?_,?_⟩
  · refine List.forall_mem_cons.mpr ⟨?_,stays⟩
    rw [reads,if_pos rfl]
  · exact allocate_marked positive kept.owned kept.marked allocated

theorem Kept.reserve (positive : 0 < N) (kept : Kept c free) (n : Nat) :
    c.Stays (c.pool.reserve n) ∧ Kept ⟨c.pool.reserve n,c.live⟩ free := by
  obtain ⟨grown,_⟩ := reserve_grown positive n kept.owned.blocks
  have stays : c.Stays (c.pool.reserve n) := by
    intro e member
    have isLive : e.1 ∈ c.addresses := List.mem_map_of_mem member
    have same := grown.kept e.1 (kept.owned.block_lt positive (List.mem_append_left _ isLive))
    exact read_eq_some_iff.mpr (same.trans (read_eq_some_iff.mp (kept.objects e member)))
  have larger : c.pool.size ≤ (c.pool.reserve n).size := by
    rw [kept.owned.blocks,grown.blocks]
    exact Nat.mul_le_mul_right N grown.more
  refine ⟨stays,kept.owned.grow positive grown,stays,?_,?_⟩
  · rw [grown.maxAllocatedIndex]
    exact kept.marked.used
  · rw [grown.maxAllocatedIndex]
    exact kept.marked.inside.imp_right fun inside => Nat.lt_of_lt_of_le inside larger

/-- Release does not touch the mark. -/
theorem release_mark (released : p.release (some a) = some p') : p'.maxAllocatedIndex = p.maxAllocatedIndex ∧ p'.size = p.size := by
  unfold release at released
  cases stored : p.mem a with
  | next following => simp [stored] at released
  | storage v =>
    simp only [stored,Option.some.injEq] at released
    subst released
    exact ⟨rfl,rfl⟩

theorem Kept.release (kept : Kept c free) (isLive : a ∈ c.addresses) : ∃ p, c.pool.release (some a) = some p ∧
    (∀ e ∈ c.live, e.1 ≠ a → p.read e.1 = some e.2) ∧ Kept ⟨p,c.live.filter fun e => some e.1 ≠ some a⟩ (a :: free) := by
  obtain ⟨p,released,owned',reads⟩ := release_owned kept.owned isLive
  obtain ⟨mark,size⟩ := release_mark released
  have nodup : c.addresses.Nodup := kept.owned.distinct
  have stays : ∀ e ∈ c.live, e.1 ≠ a → p.read e.1 = some e.2 := by
    intro e member other
    rw [reads,if_neg other,kept.objects e member]
  have isErased : (⟨p,c.live.filter fun e => some e.1 ≠ some a⟩ : Custody T N).addresses = c.addresses.erase a := by
    rw [nodup.erase_eq_filter]
    show (c.live.filter _).map Prod.fst = (c.live.map Prod.fst).filter _
    rw [List.filter_map]
    refine congrArg _ (List.filter_congr fun e _ => ?_)
    by_cases same : e.1 = a <;> simp [same]
  have shorter : (c.addresses.erase a).length + 1 = c.addresses.length := by
    rw [List.length_erase_of_mem isLive]
    have := List.length_pos_of_mem isLive
    omega
  refine ⟨p,released,stays,isErased ▸ owned',?_,?_⟩
  · intro e member
    obtain ⟨old,other⟩ := List.mem_filter.mp member
    exact stays e old (by simpa using other)
  · have := kept.marked
    rw [isErased]
    refine ⟨?_,by rw [mark,size]; exact this.inside⟩
    rw [mark,List.length_cons]
    have := this.used
    omega

/-- What `destroyAll` destroys. -/
theorem Kept.destroyAll (positive : 0 < N) (kept : Kept c free) : ∃ p destroyed, c.pool.destroyAll = some (p,destroyed) ∧
    destroyed = (if c.pool.maxAllocatedIndex = 0 then [] else c.pool.unfreed free) ∧
    p.nbElements = (if c.pool.maxAllocatedIndex = 0 then c.pool.nbElements else 0) ∧
    ∃ free', Kept ⟨p,c.live.filter fun e => e.1 ∉ destroyed⟩ free' := by
  by_cases none : c.pool.maxAllocatedIndex = 0
  · refine ⟨c.pool,[],by rw [AllocatorPool.destroyAll,if_pos none],by rw [if_pos none],by rw [if_pos none],free,?_⟩
    have all : c.live.filter (fun e => e.1 ∉ ([] : List Ptr)) = c.live := by simp
    rw [all]
    exact kept
  · have destroyed := destroyAll_owned positive kept.owned kept.marked none
    refine ⟨_,_,destroyed,by rw [if_neg none],by rw [if_neg none],[],?_⟩
    have gone : c.live.filter (fun e => e.1 ∉ c.pool.unfreed free) = [] := by
      refine List.filter_eq_nil_iff.mpr fun e member => ?_
      simpa using kept.owned.live_unfreed kept.marked (List.mem_map_of_mem member)
    rw [gone]
    refine ⟨⟨by simp [addresses],?_,rfl,kept.owned.blocks,Nat.zero_le _,rfl,trivial⟩,by simp,⟨Nat.zero_le _,kept.marked.inside⟩⟩
    intro a
    refine ⟨?_,by simp [addresses]⟩
    rintro ⟨v,stored⟩
    simp only at stored
    split_ifs at stored with inUnfreed
    exact absurd (kept.owned.live_unfreed kept.marked ((kept.owned.objects a).mp ⟨v,stored⟩)) inUnfreed

/-- A permitted call has a result. -/
theorem Kept.step (positive : 0 < N) (kept : Kept c free) (permits : c.Permits r) : ∃ c' free', c.step r = some c' ∧ Kept c' free' := by
  cases r with
  | allocate v =>
    obtain ⟨p,a,_,allocated,_,_,_,_,kept'⟩ := kept.allocate positive v
    exact ⟨_,_,by rw [Custody.step,allocated]; rfl,kept'⟩
  | allocateWithIndex v =>
    obtain ⟨p,a,i,_,indexed,_,_,_,kept'⟩ := kept.allocate positive v
    exact ⟨_,_,by rw [Custody.step,indexed]; rfl,kept'⟩
  | reserve n => exact ⟨_,_,rfl,(kept.reserve positive n).2⟩
  | release pointer =>
    cases pointer with
    | none =>
      have all : c.live.filter (fun e => some e.1 ≠ none) = c.live := by simp
      exact ⟨c,free,by rw [Custody.step,all]; rfl,kept⟩
    | some a =>
      obtain ⟨p,released,_,kept'⟩ := kept.release permits
      exact ⟨_,_,by rw [Custody.step,released]; rfl,kept'⟩
  | destroyAll =>
    obtain ⟨p,destroyed,executed,_,_,free',kept'⟩ := kept.destroyAll positive
    exact ⟨_,free',by rw [Custody.step,executed]; rfl,kept'⟩

/-- Every call of a run is permitted when its turn comes. -/
def Permitted (N : Nat) (requests : List (Request T)) : Prop :=
  ∀ before r later, requests = before ++ r :: later → ∀ c : Custody T N, after before = some c → c.Permits r

/-- The calls of a list are permitted one after the other. -/
def PermittedFrom : Custody T N → List (Request T) → Prop
  | _, [] => True
  | c, r :: requests => c.Permits r ∧ match c.step r with
    | some c' => c'.PermittedFrom requests
    | none => True

instance : (c : Custody T N) → (r : Request T) → Decidable (c.Permits r)
  | c, .release (some a) => inferInstanceAs (Decidable (a ∈ c.addresses))
  | _, .release none | _, .allocate _ | _, .allocateWithIndex _ | _, .reserve _ | _, .destroyAll => .isTrue trivial

instance decidablePermittedFrom : (c : Custody T N) → (requests : List (Request T)) → Decidable (c.PermittedFrom requests)
  | _, [] => .isTrue trivial
  | c, r :: requests =>
    have : Decidable (match c.step r with | some c' => c'.PermittedFrom requests | none => True) :=
      match c.step r with
      | some c' => decidablePermittedFrom c' requests
      | none => .isTrue trivial
    inferInstanceAs (Decidable (_ ∧ _))

theorem permitted_of (permitted : (start : Custody T N).PermittedFrom requests) : Permitted N requests := by
  have each : ∀ (requests : List (Request T)) (c : Custody T N), c.PermittedFrom requests → ∀ before r later,
      requests = before ++ r :: later → ∀ c', before.foldlM step c = some c' → c'.Permits r := by
    intro requests
    induction requests with
    | nil => exact fun _ _ before r later split => by simp at split
    | cons first requests ih =>
      rintro c ⟨here,rest⟩ before r later split c' ran
      cases before with
      | nil =>
        obtain ⟨rfl,_⟩ := List.cons_eq_cons.mp split
        obtain rfl := Option.some.inj ran
        exact here
      | cons x before =>
        obtain ⟨rfl,split'⟩ := List.cons_eq_cons.mp split
        obtain ⟨c₁,stepped,ran'⟩ := Option.bind_eq_some_iff.mp ran
        rw [stepped] at rest
        exact ih c₁ rest before r later split' c' ran'
  exact each requests start permitted

theorem after_append (requests : List (Request T)) (r : Request T) :
    (after (requests ++ [r]) : Option (Custody T N)) = (after requests).bind fun c => c.step r := by
  unfold after
  rw [List.foldlM_append]
  cases List.foldlM step start requests with
  | none => rfl
  | some c => simp

theorem Permitted.front {more : List (Request T)} (permitted : Permitted N (requests ++ more)) : Permitted N requests := by
  rintro before r later rfl
  exact permitted before r (later ++ more) (by simp)

theorem Permitted.kept (positive : 0 < N) (permitted : Permitted N requests) :
    ∃ (c : Custody T N) (free : List Ptr), after requests = some c ∧ c.Kept free := by
  induction requests using List.reverseRecOn with
  | nil => exact ⟨start,[],rfl,kept_start⟩
  | append_singleton requests r ih =>
    obtain ⟨c,free,ran,kept⟩ := ih permitted.front
    obtain ⟨c',free',stepped,kept'⟩ := kept.step positive (permitted requests r [] rfl c ran)
    exact ⟨c',free',by rw [after_append,ran]; exact stepped,kept'⟩

/-! ## One owner at a time -/

/-- What holds at any time: every live object has an address of its own and is there, the pool counts them, and
    there is a chunk for every index. -/
structure Sound (c : Custody T N) : Prop where
  oneOwner : c.addresses.Nodup
  objects : ∀ e ∈ c.live, c.pool.read e.1 = some e.2
  counted : c.pool.getNbElements = c.live.length
  roomy : c.pool.getNbElements ≤ c.pool.getSize
  inRange : ∀ i < c.pool.getSize, ∃ a, c.pool.getChunk i = some a ∧ a.chunk < N

theorem Kept.sound (positive : 0 < N) (kept : Kept c free) : c.Sound := by
  have counted : c.pool.nbElements = c.live.length := by rw [kept.owned.count,addresses,List.length_map]
  refine ⟨kept.owned.distinct,kept.objects,counted,?_,?_⟩
  · have within := kept.owned.within
    have count := kept.owned.count
    show c.pool.nbElements ≤ c.pool.size
    omega
  · intro i inside
    refine ⟨addr N i,?_,Nat.mod_lt _ positive⟩
    have there : i / N < c.pool.chunkList := (Nat.div_lt_iff_lt_mul positive).mpr (kept.owned.blocks ▸ inside)
    rw [getChunk,if_pos there]
    rfl

/-- In every run the pool is sound, and whatever is called next has a result, leaves the other live objects where they
    are, and returns an address that no live object has, with its index if that is asked for. -/
theorem one_owner (two : 2 ≤ N) (permitted : Permitted N requests) : ∃ c : Custody T N, after requests = some c ∧ c.Sound ∧
    (∀ v, ∃ p a i, c.pool.allocate v = some (p,a) ∧ c.pool.allocateWithIndex v = some (p,a,i) ∧ a ∉ c.addresses ∧
      p.getElement i = some (some a) ∧ c.Stays p) ∧
    (∀ n, c.Stays (c.pool.reserve n)) ∧
    ∀ a ∈ c.addresses, ∃ p, c.pool.release (some a) = some p ∧ ∀ e ∈ c.live, e.1 ≠ a → p.read e.1 = some e.2 := by
  have positive : 0 < N := by omega
  obtain ⟨c,free,ran,kept⟩ := permitted.kept positive
  refine ⟨c,ran,kept.sound positive,?_,fun n => (kept.reserve positive n).1,?_⟩
  · intro v
    obtain ⟨p,a,i,allocated,indexed,fresh,isElement,stays,_⟩ := kept.allocate positive v
    exact ⟨p,a,i,allocated,indexed,fresh,isElement,stays⟩
  · intro a isLive
    obtain ⟨p,released,stays,_⟩ := kept.release isLive
    exact ⟨p,released,stays⟩

/-- Two objects come, the first one goes, and the next one takes its place and index. -/
theorem one_owner_reuse : ∃ c : Custody Nat 2, after [.allocate 1,.allocate 2,.reserve 5,.release (some ⟨0,0⟩)] = some c ∧ c.Sound ∧
    c.addresses = [⟨0,1⟩] ∧ ∃ p a, c.pool.allocateWithIndex 3 = some (p,a,0) ∧ a = ⟨0,0⟩ ∧ c.Stays p := by
  have permitted : Permitted 2 [.allocate 1,.allocate 2,.reserve 5,.release (some ⟨0,0⟩)] := permitted_of (by decide)
  obtain ⟨c,ran,sound,allocates,_⟩ := one_owner (by decide) permitted
  obtain rfl := Option.some.inj ran
  obtain ⟨p,a,i,_,indexed,_,_,stays⟩ := allocates 3
  obtain ⟨rfl,isIndex⟩ := Prod.mk.inj (Option.some.inj indexed)
  obtain ⟨rfl,rfl⟩ := Prod.mk.inj isIndex
  exact ⟨_,ran,sound,rfl,_,_,rfl,rfl,stays⟩

/-! ## Destroying the live objects -/

/-- `destroyAll` runs the destructor once on every live object and on nothing else, and nothing is counted afterwards. -/
def DestroysLive (c : Custody T N) : Prop :=
  ∃ p destroyed, c.pool.destroyAll = some (p,destroyed) ∧ destroyed.Perm c.addresses ∧ p.getNbElements = 0

end Custody

/-- The mark is zero and nothing is live, or it is not zero and every index up to it is live or free. -/
def UsedUpToMark (p : AllocatorPool T N) : Prop :=
  (p.maxAllocatedIndex = 0 ∧ p.nbElements = 0) ∨
  (p.maxAllocatedIndex ≠ 0 ∧ ∃ freed, follow p.freeNext (p.size + 1) p.freeList = some freed ∧
    p.nbElements + freed.length = p.maxAllocatedIndex + 1)

namespace Custody
variable {c : Custody T N} {requests : List (Request T)}

theorem Kept.follow (kept : Kept c free) : follow c.pool.freeNext (c.pool.size + 1) c.pool.freeList = some free := by
  rw [kept.owned.head]
  apply follow_stacked kept.owned.links
  have := kept.owned.within
  omega

theorem Kept.destroysLive (positive : 0 < N) (kept : Kept c free) : c.DestroysLive ↔ c.pool.UsedUpToMark := by
  obtain ⟨p,destroyed,executed,isDestroyed,count,_⟩ := kept.destroyAll positive
  have counted := kept.owned.count
  have exact_iff : c.DestroysLive ↔ destroyed.Perm c.addresses ∧ p.nbElements = 0 := by
    constructor
    · rintro ⟨p',destroyed',executed',perm,zero⟩
      obtain ⟨rfl,rfl⟩ := Prod.mk.inj (Option.some.inj (executed.symm.trans executed'))
      exact ⟨perm,zero⟩
    · exact fun ⟨perm,zero⟩ => ⟨p,destroyed,executed,perm,zero⟩
  rw [exact_iff,UsedUpToMark,kept.follow]
  by_cases none : c.pool.maxAllocatedIndex = 0
  · rw [if_pos none] at isDestroyed count
    rw [isDestroyed,count]
    constructor
    · exact fun ⟨_,zero⟩ => .inl ⟨none,zero⟩
    · rintro (⟨_,zero⟩ | ⟨some,_⟩)
      · refine ⟨?_,zero⟩
        rw [List.length_eq_zero_iff.mp (counted.symm.trans zero)]
      · exact absurd none some
  · rw [if_neg none] at isDestroyed count
    rw [isDestroyed,count,kept.owned.unfreed_perm kept.marked,← counted]
    constructor
    · exact fun ⟨all,_⟩ => .inr ⟨none,free,rfl,all⟩
    · rintro (⟨zero,_⟩ | ⟨_,freed,isFreed,all⟩)
      · exact absurd zero none
      · obtain rfl := Option.some.inj isFreed
        exact ⟨all,rfl⟩

/-- In every run each `destroyAll` destroys the live objects and nothing else if and only if every index up to
    the mark is in use or free when it is called. -/
theorem destroyAll_exact (two : 2 ≤ N) (permitted : Permitted N requests) :
    ∀ before later, requests = before ++ .destroyAll :: later → ∃ c : Custody T N, after before = some c ∧
      (c.DestroysLive ↔ c.pool.UsedUpToMark) := by
  rintro before later rfl
  have positive : 0 < N := by omega
  obtain ⟨c,free,ran,kept⟩ := permitted.front.kept positive
  exact ⟨c,ran,kept.destroysLive positive⟩

/-- Three objects, of which the second one is released. -/
theorem destroyAll_exact_three : ∃ c : Custody Nat 2, after [.allocate 1,.allocate 2,.allocate 3,.release (some ⟨0,1⟩)] = some c ∧
    (c.DestroysLive ↔ c.pool.UsedUpToMark) ∧ c.pool.UsedUpToMark := by
  have permitted : Permitted 2 ([.allocate 1,.allocate 2,.allocate 3,.release (some ⟨0,1⟩)] ++ .destroyAll :: []) := permitted_of (by decide)
  obtain ⟨c,ran,exact⟩ := destroyAll_exact (by decide) permitted _ _ rfl
  refine ⟨c,ran,exact,?_⟩
  obtain rfl := Option.some.inj ran
  exact .inr ⟨by decide,_,rfl,rfl⟩

/-- A single object is never destroyed; and what has been destroyed together is destroyed again with the next object. -/
theorem destroyAll_misses : (∃ c : Custody Nat 2, after [.allocate 1] = some c ∧ ¬ c.DestroysLive) ∧
    ∃ c : Custody Nat 2, after [.allocate 1,.allocate 2,.destroyAll,.allocate 3] = some c ∧ ¬ c.DestroysLive := by
  refine ⟨⟨_,rfl,?_⟩,⟨_,rfl,?_⟩⟩
  · rintro ⟨p,destroyed,executed,perm,_⟩
    obtain ⟨rfl,rfl⟩ := Prod.mk.inj (Option.some.inj executed)
    exact absurd perm.length_eq (by decide)
  · rintro ⟨p,destroyed,executed,perm,_⟩
    obtain ⟨rfl,rfl⟩ := Prod.mk.inj (Option.some.inj executed)
    exact absurd perm.length_eq (by decide)

end Custody

end BaboEngine.AllocatorPool
