import BaboEngine.Resizing

/-!
# The depth snapshot

`depth()` walks the levels of both sides, best first, and copies their totals. They are those of
the resting orders, and so the snapshot is the top of the book.
-/

namespace BaboEngine
open DoublyLinked Simulation

/-- A level of a depth snapshot. -/
structure DepthLevel where
  price : Nat
  aggregateQty : Nat
  orderCount : Nat
deriving DecidableEq, Repr

def invalidLevelPrice : Nat := 0

/-- An entry after `clear`. -/
def DepthLevel.empty : DepthLevel := ⟨invalidLevelPrice,0,0⟩

/-- The bids are the first `SIZE` levels, the asks the others. -/
abbrev Depth (SIZE : Nat) := Vector DepthLevel (SIZE * 2)

def Depth.clear {SIZE : Nat} (d : Depth SIZE) : Depth SIZE := d.map fun _ => .empty

namespace TreeState
variable {N : Capacity} {n : Nat}

/-- The loop of `fill_depth_side`, with the entries that are left. -/
def fillDepthLoop (s : TreeState N) (type : OrderType) (out : Nat) : Nat → Nat → Option Ptr → Vector DepthLevel n →
    Option (Vector DepthLevel n)
  | 0, _, _, levels => some levels
  | _ + 1, _, none, levels => some levels
  | left + 1, i, some a, levels => do
    let d ← s.level a
    s.fillDepthLoop type out left (i + 1) (d.worse type) (levels.setIfInBounds (out + i) ⟨toU32 d.price,d.quantity,d.count⟩)

def fillDepthSide (s : TreeState N) (type : OrderType) (SIZE out : Nat) (levels : Vector DepthLevel n) : Option (Vector DepthLevel n) :=
  s.fillDepthLoop type out SIZE 0 s.best levels

/-- The levels from one on, best first. -/
def levelsFrom (s : TreeState N) (type : OrderType) : Nat → Option Ptr → Option (List PriceLevel)
  | 0, _ => none
  | _ + 1, none => some []
  | rounds + 1, some a => do
    let d ← s.level a
    let rest ← s.levelsFrom type rounds (d.worse type)
    some (d :: rest)

/-- The levels of a tree, best first. -/
def priceLevels (s : TreeState N) (type : OrderType) : Option (List PriceLevel) :=
  s.levelsFrom type (s.levels.nbElements + 1) s.best

end TreeState

/-- What `depth()` returns, given the snapshot that was there before. -/
def MatchingBook.depth {N : Capacity} {SIZE : Nat} (m : MatchingBook N) (before : Depth SIZE) : Option (Depth SIZE) := do
  let levels ← (m.on .bids).fillDepthSide TreeName.bids.type SIZE 0 before.clear
  (m.on .asks).fillDepthSide TreeName.asks.type SIZE SIZE levels

namespace TreeState
variable {N : Capacity} {s : TreeState N} {type : OrderType} {ch : List Segment} {bl B B' : List Block} {n : Nat}

/-! ## The walk over the levels -/

theorem Tree.levelAt {b : Block} (tree : Tree type s ch (B ++ b :: B')) : ∃ d, s.level b.ptr = some d ∧
    d.worse type = (B'.map Block.ptr).head? ∧ d.price = b.price ∧ d.quantity = b.quantity ∧ d.count = b.count := by
  have priced := tree.priced
  rw [List.map_append,List.map_cons] at priced
  obtain ⟨d,read,_,worse⟩ := priced.neighbours
  obtain ⟨d',read',body⟩ := tree.hosted.read b (by simp)
  obtain rfl : d = d' := Option.some.inj (read.symm.trans read')
  simp only [PriceLevel.body,LevelBody.mk.injEq] at body
  exact ⟨d,read,worse,body.1,body.2.1,body.2.2.1⟩

/-- The descriptor of a block. -/
structure Describes (d : PriceLevel) (b : Block) : Prop where
  price : d.price = b.price
  quantity : d.quantity = b.quantity
  count : d.count = b.count

theorem Tree.levelsFrom (tree : Tree type s ch bl) (rounds : Nat) : ∀ B B' : List Block, bl = B ++ B' → B'.length < rounds →
    ∃ ds, s.levelsFrom type rounds (B'.map Block.ptr).head? = some ds ∧ List.Forall₂ Describes ds B' := by
  induction rounds with
  | zero => intro _ _ _ enough; omega
  | succ rounds ih =>
    intro B B' split enough
    cases B' with
    | nil =>
      exact ⟨[],rfl,.nil⟩
    | cons b B' =>
      rw [split] at tree ih
      obtain ⟨d,read,worse,price,quantity,count⟩ := tree.levelAt
      obtain ⟨ds,walked,same⟩ := ih (B ++ [b]) B' (by simp) (by simpa using enough)
      refine ⟨d :: ds,?_,.cons ⟨price,quantity,count⟩ same⟩
      rw [← worse] at walked
      simp only [List.map_cons,List.head?_cons,TreeState.levelsFrom,read,walked,Option.bind_eq_bind,Option.bind_some]

/-- The pool has a descriptor for every level. -/
theorem Tree.levels_lt (tree : Tree type s ch bl) : bl.length < s.levels.nbElements + 1 := by
  have counted := tree.hosted.levels.length_le tree.hosted.ptrs (fun a member => by
    obtain ⟨b,inBl,rfl⟩ := List.mem_map.mp member
    obtain ⟨d,read,_⟩ := tree.hosted.read b inBl
    rw [show s.levels.read b.ptr = s.level b.ptr from rfl,read]
    simp)
  rw [List.length_map] at counted
  omega

theorem Tree.priceLevels (tree : Tree type s ch bl) : ∃ ds, s.priceLevels type = some ds ∧ List.Forall₂ Describes ds bl := by
  obtain ⟨ds,walked,same⟩ := tree.levelsFrom (s.levels.nbElements + 1) [] bl rfl tree.levels_lt
  refine ⟨ds,?_,same⟩
  rw [TreeState.priceLevels,tree.best]
  exact walked

/-- The entry of a level. -/
def entryOf (d : PriceLevel) : DepthLevel := ⟨toU32 d.price,d.quantity,d.count⟩

/-- The copy goes over the same levels as the walk. -/
theorem fillDepthLoop_eq (rounds : Nat) : ∀ (a : Option Ptr) (ds : List PriceLevel), s.levelsFrom type rounds a = some ds →
    ∀ (left out i : Nat) (levels : Vector DepthLevel n), ∃ levels', s.fillDepthLoop type out left i a levels = some levels' ∧
      ∀ k (inside : k < n), levels'[k] = if out + i ≤ k ∧ k < out + i + left then ((ds.map entryOf)[k - (out + i)]?).getD levels[k]
        else levels[k] := by
  induction rounds with
  | zero => intro a ds walked; simp [TreeState.levelsFrom] at walked
  | succ rounds ih =>
    intro a ds walked left out i levels
    cases left with
    | zero =>
      refine ⟨levels,rfl,fun k _ => ?_⟩
      rw [if_neg (by omega)]
    | succ left =>
      cases a with
      | none =>
        obtain rfl : ds = [] := (Option.some.inj walked).symm
        refine ⟨levels,rfl,fun k _ => ?_⟩
        split_ifs <;> rfl
      | some a =>
        simp only [TreeState.levelsFrom,Option.bind_eq_bind,Option.bind_eq_some_iff] at walked
        obtain ⟨d,read,rest,walked',isDs⟩ := walked
        obtain rfl := Option.some.inj isDs
        obtain ⟨levels',filled,entries⟩ := ih _ rest walked' left out (i + 1) (levels.setIfInBounds (out + i) (entryOf d))
        refine ⟨levels',?_,?_⟩
        · simp only [fillDepthLoop,read,Option.bind_eq_bind,Option.bind_some]
          exact filled
        · intro k inside
          rw [entries k inside]
          by_cases here : out + i = k
          · subst here
            rw [if_neg (by omega),if_pos (by omega),Vector.getElem_setIfInBounds_self,Nat.sub_self]
            rfl
          · rw [Vector.getElem_setIfInBounds_ne inside here]
            by_cases within : out + (i + 1) ≤ k ∧ k < out + (i + 1) + left
            · rw [if_pos within,if_pos (by omega),List.map_cons,show k - (out + i) = k - (out + (i + 1)) + 1 by omega,
                List.getElem?_cons_succ]
            · rw [if_neg within,if_neg (by omega)]

/-! ## The levels of the orders -/

end TreeState

/-- The orders of a rung are those of its price. -/
theorem Ladder.flat_rung {type : OrderType} {rs : List Rung} {r : Rung} (sorted : Ladder.Sorted type rs) (member : r ∈ rs) :
    ((Ladder.flat rs).filter (·.1 = r.price)).map Prod.snd = r.orders := by
  induction rs with
  | nil => simp at member
  | cons r' rs ih =>
    obtain ⟨worse,sorted'⟩ := List.pairwise_cons.mp sorted
    rw [Ladder.flat_cons,List.filter_append,List.map_append]
    have own : ∀ q, ((r'.orders.map fun o => (r'.price,o)).filter (·.1 = q)).map Prod.snd = if r'.price = q then r'.orders else [] := by
      intro q
      split_ifs with same
      · simp [same,List.filter_map,Function.comp_def]
      · simp [same,List.filter_map,Function.comp_def]
    rcases List.mem_cons.mp member with rfl | later
    · have none : (Ladder.flat rs).filter (·.1 = r.price) = [] := by
        apply List.filter_eq_nil_iff.mpr
        intro e inFlat
        obtain ⟨q,inRs,isPrice,_⟩ := Ladder.mem_flat.mp inFlat
        have lower := worse q inRs
        rw [isPrice] at lower
        simp only [decide_eq_true_eq]
        intro same
        exact type.better_irrefl r.price (by rwa [same] at lower)
      rw [own,if_pos rfl,none]
      simp
    · have other : r'.price ≠ r.price := fun same => type.better_irrefl r'.price (by
        have lower := worse r later
        rwa [← same] at lower)
      rw [own,if_neg other,ih sorted' later,List.nil_append]

/-- The levels `ds` are those of the orders `os`: the prices at which there are orders, best first, each
    with the number and the open total of its orders in 32 bits. -/
structure LevelsOf (t : TreeName) (os : List SimpleOrder) (ds : List PriceLevel) : Prop where
  sorted : ds.Pairwise fun d d' => t.type.better d.price d'.price
  prices : ∀ p, (∃ d ∈ ds, d.price = p) ↔ ∃ o ∈ os, t.key o = p
  count : ∀ d ∈ ds, d.count = toU32 (os.filter fun o => t.key o = d.price).length
  quantity : ∀ d ∈ ds, d.quantity = toU32 (Ladder.openTotal (os.filter fun o => t.key o = d.price))

namespace TreeState
variable {N : Capacity} {s : TreeState N} {t : TreeName} {ch : List Segment} {bl : List Block}

theorem Describes.mem {ds : List PriceLevel} (same : List.Forall₂ Describes ds bl) {d : PriceLevel} (member : d ∈ ds) :
    ∃ b ∈ bl, Describes d b := by
  induction same with
  | nil => simp at member
  | cons first _ ih =>
    rcases List.mem_cons.mp member with rfl | later
    · exact ⟨_,by simp,first⟩
    · obtain ⟨b,inBl,describes⟩ := ih later
      exact ⟨b,by simp [inBl],describes⟩

theorem Describes.prices {ds : List PriceLevel} (same : List.Forall₂ Describes ds bl) : ds.map (·.price) = bl.map (·.price) := by
  induction same with
  | nil => rfl
  | cons first _ ih => rw [List.map_cons,List.map_cons,first.price,ih]

/-- The walk over the levels of one side of a book. -/
theorem Side.levelsOf (side : Side t True s ch bl) : ∃ ds, s.priceLevels t.type = some ds ∧
    LevelsOf t (bareOrders (entries bl)) ds := by
  obtain ⟨ds,walked,same⟩ := side.toTree.priceLevels
  have prices := Describes.prices same
  have atPrice : ∀ b ∈ bl, (bareOrders (entries bl)).filter (fun o => t.key o = b.price) = b.orders.map fun e => e.2.bare := by
    intro b inBl
    have rung := Ladder.flat_rung side.ladder_sorted (List.mem_map_of_mem inBl)
    rw [show b.orders.map (fun e => e.2.bare) = b.rung.orders from rfl,← rung,← flat_bareOrders,List.filter_map]
    refine congrArg _ (List.filter_congr ?_)
    intro e member
    simp only [Function.comp_apply,side.keyed e member]
    rfl
  refine ⟨ds,walked,?_,?_,?_,?_⟩
  · have sorted := side.ladder_sorted
    rw [Ladder.Sorted,ladder,List.pairwise_map] at sorted
    have sorted' : (ds.map (·.price)).Pairwise t.type.better := by
      rw [prices,List.pairwise_map]
      exact sorted
    exact List.pairwise_map.mp sorted'
  · intro p
    have inPrices : (∃ d ∈ ds, d.price = p) ↔ ∃ b ∈ bl, b.price = p := by
      rw [← List.mem_map,← List.mem_map,prices]
    rw [inPrices]
    constructor
    · rintro ⟨b,inBl,rfl⟩
      obtain ⟨e,inB⟩ := List.exists_mem_of_ne_nil _ (side.blocks b inBl)
      have here : e.2.bare ∈ (bareOrders (entries bl)).filter fun o => t.key o = b.price := by
        rw [atPrice b inBl]
        exact List.mem_map_of_mem inB
      exact ⟨e.2.bare,(List.mem_filter.mp here).1,by simpa using (List.mem_filter.mp here).2⟩
    · rintro ⟨o,member,rfl⟩
      rw [← flat_bareOrders] at member
      obtain ⟨e,inFlat,rfl⟩ := List.mem_map.mp member
      obtain ⟨r,inLadder,isPrice,_⟩ := Ladder.mem_flat.mp inFlat
      obtain ⟨b,inBl,rfl⟩ := List.mem_map.mp inLadder
      exact ⟨b,inBl,isPrice.trans (side.keyed e inFlat)⟩
  · intro d member
    obtain ⟨b,inBl,describes⟩ := Describes.mem same member
    rw [describes.price,describes.count,atPrice b inBl]
    exact (side.sound trivial b.rung (List.mem_map_of_mem inBl)).count
  · intro d member
    obtain ⟨b,inBl,describes⟩ := Describes.mem same member
    rw [describes.price,describes.quantity,atPrice b inBl]
    exact (side.sound trivial b.rung (List.mem_map_of_mem inBl)).quantity

end TreeState

/-- A price fits its type. -/
theorem priced_preserved {ok : Book → Command → Prop} : Book.Preserved Book.Orderly ok (Book.Everywhere fun o => o.price < 4294967296) := by
  refine Book.everywhere_preserved (fun o o' same small => ?_) (fun o sizeDelta newPrice small => ?_) ?_
  · rwa [same.price]
  · obtain ⟨_,_,_,_,_,_,_,_,price⟩ := o.modify_fields sizeDelta newPrice
    rw [price]
    split_ifs
    · exact SimpleOrder.toU32_lt _
    · exact small
  · intro _ _ price _ _ _ _ _
    exact price.toNat_lt

theorem priced_after {cs : List Command} (once : NeverReused cs) : Book.Everywhere (fun o => o.price < 4294967296) (.after cs) [] :=
  ((Book.orderly_preserved.above priced_preserved).run cs .start ⟨Book.orderly_start,by simp [Book.Everywhere,Book.start]⟩
    once.admitted).2

/-- The entries of a snapshot from `out` on are the first of some levels, and the others are empty. -/
def Shows {SIZE : Nat} (d : Depth SIZE) (out : Nat) (ds : List PriceLevel) : Prop :=
  ∀ i < SIZE, d[out + i]? = some (((ds.map fun l => (⟨l.price,l.quantity,l.count⟩ : DepthLevel))[i]?).getD .empty)

instance {SIZE : Nat} (d : Depth SIZE) (out : Nat) (ds : List PriceLevel) : Decidable (Shows d out ds) :=
  inferInstanceAs (Decidable (∀ i < SIZE, _))

namespace MatchingBook
open TreeState
variable {N : Capacity} {m : MatchingBook N} {b : Book} {cs : List Command} {SIZE : Nat}

theorem Represents.levelsOf (rep : Represents True m b) (t : TreeName) : ∃ ds, (m.on t).priceLevels t.type = some ds ∧
    LevelsOf t (b.side t) ds := by
  obtain ⟨ch,bl,held,sides,_⟩ := rep
  obtain ⟨ds,walked,levels⟩ := (held.side t).levelsOf
  exact ⟨ds,walked,by rwa [sides t]⟩

/-- Where the prices fit, nothing is lost in an entry. -/
theorem LevelsOf.entries {t : TreeName} {ds : List PriceLevel} (levels : LevelsOf t (b.side t) ds) (resting : t = .bids ∨ t = .asks)
    (priced : Book.Everywhere (fun o => o.price < 4294967296) b []) :
    ds.map entryOf = ds.map fun l => (⟨l.price,l.quantity,l.count⟩ : DepthLevel) := by
  refine List.map_congr_left fun d member => ?_
  obtain ⟨o,inSide,isPrice⟩ := (levels.prices d.price).mp ⟨d,member,rfl⟩
  have small := priced.1 t o inSide
  have isKey : t.key o = o.price := by rcases resting with rfl | rfl <;> rfl
  rw [isKey] at isPrice
  rw [entryOf,SimpleOrder.toU32_of_lt (by omega)]

theorem depth_shows {bids asks : List PriceLevel} (bidLevels : (m.on .bids).priceLevels TreeName.bids.type = some bids)
    (askLevels : (m.on .asks).priceLevels TreeName.asks.type = some asks) (before : Depth SIZE) : ∃ d, m.depth before = some d ∧
      (∀ i < SIZE, d[0 + i]? = some (((bids.map entryOf)[i]?).getD .empty)) ∧
      ∀ i < SIZE, d[SIZE + i]? = some (((asks.map entryOf)[i]?).getD .empty) := by
  obtain ⟨levels,filledBids,bidEntries⟩ := fillDepthLoop_eq _ _ bids bidLevels SIZE 0 0 before.clear
  obtain ⟨d,filledAsks,askEntries⟩ := fillDepthLoop_eq _ _ asks askLevels SIZE SIZE 0 levels
  have cleared : ∀ k (inside : k < SIZE * 2), before.clear[k] = .empty := by
    intro k inside
    simp [Depth.clear]
  refine ⟨d,?_,?_,?_⟩
  · simp only [depth,fillDepthSide,filledBids,Option.bind_eq_bind,Option.bind_some]
    exact filledAsks
  · intro i inSide
    rw [Vector.getElem?_eq_getElem (by omega),askEntries (0 + i) (by omega),if_neg (by omega),bidEntries (0 + i) (by omega),
      if_pos (by omega),cleared]
    simp
  · intro i inSide
    rw [Vector.getElem?_eq_getElem (by omega),askEntries (SIZE + i) (by omega),if_pos (by omega),bidEntries (SIZE + i) (by omega),
      if_neg (by omega),cleared]
    simp

/-- After a run in which no increase in place leaves 32 bits the levels of both sides are those of the resting
    orders, and a snapshot shows the best of them, whatever it replaces. -/
theorem depth_is_top_of_book (h : Pools N) (once : NeverReused cs) (fits : EveryStep InPlaceFits h cs) (before : Depth SIZE) :
    ∃ m bids asks bidLevels askLevels d, after h cs = some m ∧
      (m.on .bids).snapshot = some bids ∧ (m.on .bids).priceLevels TreeName.bids.type = some bidLevels ∧ LevelsOf .bids bids bidLevels ∧
      (m.on .asks).snapshot = some asks ∧ (m.on .asks).priceLevels TreeName.asks.type = some askLevels ∧ LevelsOf .asks asks askLevels ∧
      m.depth before = some d ∧ Shows d 0 bidLevels ∧ Shows d SIZE askLevels := by
  have exactly : True → ExactRun cs := fun _ => (opened_after once fits).2
  obtain ⟨m,ran,rep⟩ := run_represents h cs once exactly
  obtain ⟨bidLevels,walkedBids,bids⟩ := rep.levelsOf .bids
  obtain ⟨askLevels,walkedAsks,asks⟩ := rep.levelsOf .asks
  obtain ⟨d,snapshot,showsBids,showsAsks⟩ := depth_shows walkedBids walkedAsks before
  have priced := priced_after once
  rw [LevelsOf.entries bids (.inl rfl) priced] at showsBids
  rw [LevelsOf.entries asks (.inr rfl) priced] at showsAsks
  exact ⟨m,_,_,bidLevels,askLevels,d,ran,rep.snapshot _,walkedBids,bids,rep.snapshot _,walkedAsks,asks,snapshot,showsBids,showsAsks⟩

/-- Two bids of which one is made larger and partly filled, over a snapshot that was full. -/
theorem depth_is_top_of_book_bids : ∃ (m : MatchingBook ⟨1,by decide,by decide⟩) (bids asks : List SimpleOrder)
    (bidLevels askLevels : List PriceLevel) (d : Depth 2),
    after .empty [.add true 100 2 0 0 1,.add true 101 3 0 0 2,.replace 2 4 0,.add false 101 5 0 0 3] = some m ∧
      (m.on .bids).snapshot = some bids ∧ (m.on .bids).priceLevels TreeName.bids.type = some bidLevels ∧ LevelsOf .bids bids bidLevels ∧
      (m.on .asks).snapshot = some asks ∧ (m.on .asks).priceLevels TreeName.asks.type = some askLevels ∧ LevelsOf .asks asks askLevels ∧
      m.depth (.replicate 4 ⟨9,9,9⟩) = some d ∧ Shows d 0 bidLevels ∧ Shows d 2 askLevels :=
  have once : NeverReused [.add true 100 2 0 0 1,.add true 101 3 0 0 2,.replace 2 4 0,.add false 101 5 0 0 3] := by decide
  let stale : Depth 2 := .replicate 4 ⟨9,9,9⟩
  depth_is_top_of_book .empty once ((inPlaceFits_everyStep once).mpr (by decide)) stale

end MatchingBook

end BaboEngine
