import BaboEngine.TreeRuns

/-!
# The fast paths of `insert`

Where `insert` knows the neighbours of a new level without a search, they are those that
the search finds, and of the two child links that face each other between neighbours exactly
one is null. That link is also where a descent from the root ends.
-/

namespace BaboEngine
open RedBlack

namespace TreeState
variable {N : Capacity} {s s' : TreeState N} {type : OrderType} {F : Ptr → Prop}
variable {p : List (Frame Ptr)} {l r : Shape Ptr} {c : Color} {x : Ptr} {ps as bs : List Ptr} {ch : List Segment} {bl : List Block}
variable {pred succ : Option Ptr} {price : Nat}

/-! ## The free link between two neighbours -/

/-- `succ && !succ->left`, the counterpart of `rightFree`. -/
def leftFree (s : TreeState N) : Option Ptr → Option Bool
  | none => some false
  | some q => (s.level q).map fun d => d.left.isNone

/-- Where the hole is a right link, the first level after it has a left child on the path. -/
theorem leftFree_right (indexed : Indexed F s (zip (.right c l x :: p) .nil)) :
    s.leftFree (RedBlack.after (.right c l x :: p)).head? = some false := by
  cases first : (RedBlack.after (.right c l x :: p)).head? with
  | none => rfl
  | some y =>
    obtain ⟨q,c',r',p',pathIs,_⟩ := first_after p y first
    have whole : Indexed F s (zip p' (.node c' (zip (.right c l x :: q) .nil) y r')) := by
      have moved := indexed
      rw [pathIs,← List.cons_append,zip_append] at moved
      exact moved
    obtain ⟨e,readY,leftY,_⟩ := whole.read
    obtain ⟨w,isChild⟩ := Option.isSome_iff_exists.mp (root_zip_isSome q (t := Frame.plug .nil (.right c l x)) rfl)
    have left : e.left = some w := leftY.trans isChild
    simp [leftFree,readY,left]

/-- Where the hole is a left link, that is the link of the first level after it. -/
theorem leftFree_left (indexed : Indexed F s (zip (.left c x r :: p) .nil)) : s.leftFree (some x) = some true := by
  obtain ⟨e,readX,leftX,_⟩ := (show Indexed F s (zip p (.node c .nil x r)) from indexed).read
  have left : e.left = none := leftX
  simp [leftFree,readX,left]

/-- Between two neighbours one of the two links is free and the other one is taken. -/
theorem Priced.one_free (priced : Priced type s (as ++ bs)) (notEmpty : s.root ≠ none) :
    ∃ free, s.rightFree as.getLast? = some free ∧ s.leftFree bs.head? = some !free := by
  obtain ⟨t,indexed,order,_⟩ := priced.tree
  obtain ⟨p,rfl,rfl,rfl⟩ := exists_hole t as bs order
  cases p with
  | nil =>
    exact absurd indexed.root notEmpty
  | cons f p =>
    rcases f with ⟨c,x,r⟩ | ⟨c,l,x⟩
    · exact ⟨false,rightFree_left indexed,leftFree_left indexed⟩
    · have isPred : (before (.right c l x :: p)).getLast? = some x := by simp [before,← List.append_assoc]
      exact ⟨true,isPred ▸ rightFree_right indexed,leftFree_right indexed⟩

/-! ## The descent -/

/-- A child link of a level. -/
inductive ChildLink where
  | left
  | right
deriving DecidableEq

def descendLoop (s : TreeState N) (price : Nat) : Nat → Ptr → Option (Ptr × ChildLink)
  | 0, _ => none
  | rounds + 1, curr => do
    let d ← s.level curr
    if price < d.price then
      match d.left with
      | none => some (curr,.left)
      | some l => s.descendLoop price rounds l
    else if price > d.price then
      match d.right with
      | none => some (curr,.right)
      | some r => s.descendLoop price rounds r
    else none

/-- The null link where an ordinary insertion into a search tree ends, from the root down by price alone. -/
def descend (s : TreeState N) (price : Nat) : Option (Ptr × ChildLink) := do
  s.descendLoop price (s.levels.nbElements + 1) (← s.root)

/-- A new level at a child link. -/
def hang (s : TreeState N) (newNode : Ptr) : Ptr × ChildLink → Option (TreeState N)
  | (p,.right) => do
    let s ← s.modifyLevel p fun d => { d with right := some newNode }
    s.modifyLevel newNode fun d => { d with parent := some p }
  | (q,.left) => do
    let s ← s.modifyLevel q fun d => { d with left := some newNode }
    s.modifyLevel newNode fun d => { d with parent := some q }

/-- `attachLevel` without neighbours: by a descent. -/
def descendAttach (s : TreeState N) (newNode : Ptr) (price : Nat) : Option (TreeState N) :=
  match s.root with
  | none => some { s with root := some newNode, best := some newNode }
  | some _ => do s.hang newNode (← s.descend price)

/-- The search that finds no level ends at a free link of one of the neighbours, as the descent does. -/
theorem descendLoop_of_find (rounds : Nat) : ∀ a : Ptr, s.findNeighborsLoop price rounds a = some ⟨none,pred,succ⟩ →
    (∃ p, pred = some p ∧ s.rightFree pred = some true ∧ s.descendLoop price rounds a = some (p,.right)) ∨
      ∃ q, succ = some q ∧ s.leftFree succ = some true ∧ s.descendLoop price rounds a = some (q,.left) := by
  induction rounds with
  | zero => intro a found; simp [findNeighborsLoop] at found
  | succ rounds ih =>
    intro a found
    cases read : s.level a with
    | none => simp [findNeighborsLoop,read] at found
    | some d =>
      simp only [findNeighborsLoop,read,Option.bind_eq_bind,Option.bind_some] at found
      by_cases less : price < d.price
      · rw [if_pos less] at found
        cases left : d.left with
        | none =>
          simp only [left,Option.some.injEq,SearchResult.mk.injEq,true_and] at found
          obtain ⟨_,rfl⟩ := found
          exact .inr ⟨a,rfl,by simp [leftFree,read,left],by simp [descendLoop,read,less,left]⟩
        | some b =>
          simp only [left] at found
          have down : s.descendLoop price (rounds + 1) a = s.descendLoop price rounds b := by
            simp [descendLoop,read,less,left]
          rw [down]
          exact ih b found
      · rw [if_neg less] at found
        by_cases more : price > d.price
        · rw [if_pos more] at found
          cases right : d.right with
          | none =>
            simp only [right,Option.some.injEq,SearchResult.mk.injEq,true_and] at found
            obtain ⟨rfl,_⟩ := found
            exact .inl ⟨a,rfl,by simp [rightFree,read,right],by simp [descendLoop,read,less,more,right]⟩
          | some b =>
            simp only [right] at found
            have down : s.descendLoop price (rounds + 1) a = s.descendLoop price rounds b := by
              simp [descendLoop,read,less,more,right]
            rw [down]
            exact ih b found
        · rw [if_neg more] at found
          simp at found

/-- The neighbours that a search finds part the levels. -/
theorem Priced.parted (wf : s.levels.WellFormed) (priced : Priced type s ps) (found : s.findNeighbors price = some ⟨none,pred,succ⟩) :
    ∃ as bs, ps = as ++ bs ∧ pred = as.getLast? ∧ succ = bs.head? := by
  obtain ⟨sr,found',⟨_,_,_,_,_,existing⟩ | ⟨as,bs,split,_,_,rfl⟩⟩ := findNeighbors_spec wf priced price
  · obtain rfl := Option.some.inj (found'.symm.trans found)
    simp at existing
  · obtain ⟨_,rfl,rfl⟩ := SearchResult.mk.inj (Option.some.inj (found'.symm.trans found))
    exact ⟨as,bs,split,rfl,rfl⟩

/-- The neighbours lead to the same link as the descent. -/
theorem Priced.attach (wf : s.levels.WellFormed) (priced : Priced type s ps) (found : s.findNeighbors price = some ⟨none,pred,succ⟩)
    (a : Ptr) : s.attachLevel a pred succ = s.descendAttach a price := by
  obtain ⟨as,bs,rfl,rfl,rfl⟩ := priced.parted wf found
  cases root : s.root with
  | none => simp [attachLevel,descendAttach,root]
  | some r =>
    obtain ⟨free,predIs,succIs⟩ := priced.one_free (by simp [root])
    simp only [findNeighbors,root] at found
    rcases descendLoop_of_find _ r found with ⟨p,isPred,isFree,down⟩ | ⟨q,isSucc,isFree,down⟩
    · rw [isPred] at isFree
      simp only [attachLevel,descendAttach,root,descend,down,hang,isPred,isFree,Option.bind_eq_bind,Option.bind_some,↓reduceIte]
    · obtain rfl : free = false := by simpa [isFree] using succIs
      simp only [attachLevel,descendAttach,root,descend,down,hang,predIs,isSucc,Option.bind_eq_bind,Option.bind_some,
        ↓reduceIte,Bool.false_eq_true]

/-! ## The fast paths of a tree -/

theorem target_between_iff {sr : SearchResult} : sr.target = .between pred succ ↔ sr = ⟨none,pred,succ⟩ := by
  rcases sr with ⟨_ | lvl,_,_⟩
  · simp [SearchResult.target]
  · simp [SearchResult.target]

/-- A level that is not yet linked changes nothing for the tree. -/
theorem Tree.makeLevel {a : Ptr} (tree : Tree type s ch bl) (made : s.makeLevel price = some (s',a)) :
    Tree type s' ch bl ∧ a ∉ bl.map Block.ptr ∧ s'.level a = some (.new price) := by
  obtain ⟨s₁,a',executed,unused,level,wf,nodes,fields⟩ := makeLevel_spec tree.hosted.levels price
  obtain ⟨rfl,rfl⟩ := Prod.mk.inj (Option.some.inj (executed.symm.trans made))
  have absent : a' ∉ bl.map Block.ptr := by
    intro member
    obtain ⟨b,inBl,rfl⟩ := List.mem_map.mp member
    obtain ⟨d,read,_⟩ := tree.hosted.read b inBl
    simp [unused] at read
  refine ⟨tree.frame fields (nodes ▸ tree.hosted.nodes) wf (fun x _ => by simp only [node,nodes]) ?_,absent,by simp [level]⟩
  intro x member
  have other : x ≠ a' := fun same => absent (same ▸ member)
  rw [level,if_neg other]

/-- For an order of some price: `insert` puts it where the search of the general path does; of the links between the
    neighbours of a new level exactly one is null, and there the new level goes, as in an insertion by descent. -/
structure FastPathsAgree (type : OrderType) (s : TreeState N) (price : Nat) : Prop where
  decided : ∀ order, s.insert type order price = (s.insertTarget type price).bind (s.insertAt type order price)
  found : s.insertTarget type price = (s.findNeighbors price).map SearchResult.target
  oneFree : ∀ pred succ, s.insertTarget type price = some (.between pred succ) → s.root ≠ none →
    Xor (s.rightFree pred = some true) (s.leftFree succ = some true)
  attached : ∀ pred succ s₁ a, s.insertTarget type price = some (.between pred succ) → s.makeLevel price = some (s₁,a) →
    ∃ s₂, s₁.attachLevel a pred succ = some s₂ ∧ s₁.descendAttach a price = some s₂
  general : ∀ order, s.insert type order price = s.insertGeneral type order price

theorem Tree.fastPaths (tree : Tree type s ch bl) (price : Nat) : FastPathsAgree type s price := by
  refine ⟨fun order => insert_eq s order price,tree.insertTarget price,?_,?_,fun order => tree.insert_eq_general order price⟩
  · intro pred succ target notEmpty
    rw [tree.insertTarget] at target
    obtain ⟨sr,found,between⟩ := Option.map_eq_some_iff.mp target
    obtain rfl := target_between_iff.mp between
    obtain ⟨as,bs,split,rfl,rfl⟩ := tree.priced.parted tree.hosted.levels found
    obtain ⟨free,predIs,succIs⟩ := (split ▸ tree.priced).one_free notEmpty
    rw [predIs,succIs]
    cases free with
    | false => exact .inr ⟨rfl,by simp⟩
    | true => exact .inl ⟨rfl,by simp⟩
  · intro pred succ s₁ a target made
    obtain ⟨tree₁,absent,level₁⟩ := tree.makeLevel made
    -- The search does not see the new level.
    have target₁ : (s₁.findNeighbors price).map SearchResult.target = some (.between pred succ) := by
      rw [tree.insertTarget] at target
      obtain ⟨sr,found,⟨B₁,b,B₂,rfl,rfl,existing⟩ | ⟨B₁,B₂,rfl,above,below,rfl⟩⟩ := tree.find price
      · rw [Tree.target_existing B₁ B₂ tree] at target
        simp at target
      · rw [← target,Tree.target_between B₁ B₂ tree above below]
        exact Tree.target_between B₁ B₂ tree₁ above below
    obtain ⟨sr,found,between⟩ := Option.map_eq_some_iff.mp target₁
    obtain rfl := target_between_iff.mp between
    have attached := tree₁.priced.attach tree₁.hosted.levels found a
    obtain ⟨as,bs,split,rfl,rfl⟩ := tree₁.priced.parted tree₁.hosted.levels found
    obtain ⟨s₂,_,_,executed,_⟩ := attachLevel_spec (split ▸ tree₁.priced) (split ▸ mt mem_ascending.mp absent) level₁ ⟨rfl,rfl,rfl⟩
    exact ⟨s₂,executed,attached ▸ executed⟩

/-- After any run the shortcuts of `insert` do what its general path does. -/
theorem fastPaths_agree (h : Pools N) (ops : List TreeOp) (fresh : FreshIds type ops) :
    ∃ s, after type h ops = some s ∧ ∀ price, FastPathsAgree type s price := by
  obtain ⟨s,executed,ch,bl,tree,_⟩ := run_refines h ops fresh
  exact ⟨s,executed,tree.fastPaths⟩

/-- Two sells: the price between theirs is one of the shortcuts. -/
theorem fastPaths_agree_sells : ∃ s : TreeState ⟨1,by decide,by decide⟩,
    after .ASK .empty [.insert (.new false 100 5 0 0 1) 100,.insert (.new false 102 6 0 0 2) 102] = some s ∧
      ∀ price, FastPathsAgree .ASK s price :=
  fastPaths_agree .empty _ (by decide)

end TreeState

end BaboEngine
