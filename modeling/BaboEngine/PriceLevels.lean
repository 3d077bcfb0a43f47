import BaboEngine.Removal

/-!
# The levels of a tree

All that the book relies on about the levels of one side, cheapest first: they
form a valid red-black tree, `pred` and `succ` thread them in order of price, and
`_best` is the end that the side calls best (`Priced`). Search, insertion of a level
and removal of a level are stated over that list alone.
-/

namespace BaboEngine
open RedBlack DoublyLinked

/-- What a level says about its orders. -/
structure LevelBody where
  price : Nat
  quantity : Nat
  count : Nat
  head : Option OrderLoc
  tail : Option OrderLoc

def PriceLevel.body (d : PriceLevel) : LevelBody := ⟨d.price,d.quantity,d.count,d.head,d.tail⟩

/-- The best of some levels in order of price. -/
def OrderType.bestOf {α : Type} : OrderType → List α → Option α
  | .BID, xs => xs.getLast?
  | .ASK, xs => xs.head?

namespace TreeState
variable {N : Capacity} {s s' s'' : TreeState N} {type : OrderType} {F G : Ptr → Prop}
variable {p : List (Frame Ptr)} {t l r : Shape Ptr} {ps as bs : List Ptr} {price : Nat}

def priceAt (s : TreeState N) (a : Ptr) : Nat := (s.level a).elim 0 (·.price)

def predOf (s : TreeState N) (a : Ptr) : Option Ptr := (s.level a).bind (·.pred)

def succOf (s : TreeState N) (a : Ptr) : Option Ptr := (s.level a).bind (·.succ)

/-- The levels of a tree are `ps`, in order of price. -/
structure Priced (type : OrderType) (s : TreeState N) (ps : List Ptr) : Prop where
  tree : ∃ t, Indexed (· ∈ ps) s t ∧ t.inorder = ps ∧ Valid t
  threads : Linked s.succOf s.predOf ps
  sorted : ps.Pairwise fun a b => s.priceAt a < s.priceAt b
  best : s.best = type.bestOf ps

/-- A step on the index: of the levels in `F` the links may change, of the others nothing. -/
structure Reindexed (F : Ptr → Prop) (s s' : TreeState N) : Prop where
  nodes : s'.nodes = s.nodes
  orderIndex : s'.orderIndex = s.orderIndex
  chainHead : s'.chainHead = s.chainHead
  chainTail : s'.chainTail = s.chainTail
  body : ∀ a, (s'.level a).map PriceLevel.body = (s.level a).map PriceLevel.body
  outside : ∀ a, ¬ F a → s'.level a = s.level a
  wellFormed : s.levels.WellFormed → s'.levels.WellFormed
  count : s'.levels.nbElements = s.levels.nbElements

theorem Reindexed.trans (first : Reindexed F s s') (second : Reindexed F s' s'') : Reindexed F s s'' :=
  ⟨second.nodes.trans first.nodes,second.orderIndex.trans first.orderIndex,
    second.chainHead.trans first.chainHead,second.chainTail.trans first.chainTail,
    fun a => (second.body a).trans (first.body a),fun a out => (second.outside a out).trans (first.outside a out),
    fun wf => second.wellFormed (first.wellFormed wf),second.count.trans first.count⟩

theorem body_of_data {a : Ptr} (data : (s'.level a).map PriceLevel.data = (s.level a).map PriceLevel.data) :
    (s'.level a).map PriceLevel.body = (s.level a).map PriceLevel.body := by
  cases old : s.level a <;> cases new : s'.level a <;> simp_all [PriceLevel.data,PriceLevel.body]

theorem Rewired.reindexed (rewired : Rewired F s s') : Reindexed F s s' :=
  ⟨rewired.links.nodes,rewired.links.orderIndex,rewired.links.chainHead,rewired.links.chainTail,
    fun a => body_of_data (rewired.links.data a),rewired.outside,rewired.links.wellFormed,rewired.links.count⟩

theorem Reindexed.priceAt (reindexed : Reindexed F s s') (a : Ptr) : s'.priceAt a = s.priceAt a := by
  have body := reindexed.body a
  unfold TreeState.priceAt
  cases old : s.level a <;> cases new : s'.level a <;> simp_all [PriceLevel.body]

theorem threads_of_data (data : ∀ a, (s'.level a).map PriceLevel.data = (s.level a).map PriceLevel.data) :
    s'.succOf = s.succOf ∧ s'.predOf = s.predOf := by
  constructor
  · funext a
    have here := data a
    cases old : s.level a <;> cases new : s'.level a <;> simp_all [PriceLevel.data,succOf]
  · funext a
    have here := data a
    cases old : s.level a <;> cases new : s'.level a <;> simp_all [PriceLevel.data,predOf]

theorem Indexed.congr (indexed : Indexed F s t) (inside : ∀ a ∈ t.inorder, G a) (root : s'.root = s.root)
    (same : ∀ a ∈ t.inorder, s'.cells a = s.cells a) : Indexed G s' t :=
  ⟨shaped_congr indexed.shaped same,root.trans indexed.root,indexed.nodup,inside⟩

/-- The index depends on the memory of its own levels only. -/
theorem Priced.congr (priced : Priced type s ps) (root : s'.root = s.root) (best : s'.best = s.best)
    (same : ∀ a ∈ ps, s'.level a = s.level a) : Priced type s' ps := by
  obtain ⟨⟨t,indexed,order,valid⟩,threads,sorted,bestIs⟩ := priced
  refine ⟨⟨t,indexed.congr indexed.inside root ?_,order,valid⟩,linked_congr threads ?_,?_,best.trans bestIs⟩
  · intro a member
    simp only [cells,same a (order ▸ member)]
  · intro a member
    simp only [TreeState.predOf,TreeState.succOf,same a member,and_self]
  · apply sorted.imp_of_mem
    intro a b inA inB less
    simpa only [TreeState.priceAt,same a inA,same b inB] using less

theorem Priced.nodup (priced : Priced type s ps) : ps.Nodup := by
  obtain ⟨⟨t,indexed,rfl,_⟩,_⟩ := priced
  exact indexed.nodup

theorem Priced.live (priced : Priced type s ps) {a : Ptr} (member : a ∈ ps) : s.level a ≠ none := by
  obtain ⟨⟨t,indexed,rfl,_⟩,_⟩ := priced
  exact indexed.live member

/-- A level between its neighbours. -/
theorem Priced.read {a : Ptr} (priced : Priced type s (as ++ a :: bs)) :
    ∃ d, s.level a = some d ∧ d.pred = as.getLast? ∧ d.succ = bs.head? ∧ s.priceAt a = d.price := by
  obtain ⟨d,read⟩ := Option.ne_none_iff_exists'.mp (priced.live (a := a) (by simp))
  obtain ⟨before,behind⟩ := priced.threads as a bs rfl
  exact ⟨d,read,by simpa [predOf,read] using before,by simpa [succOf,read] using behind,by simp [priceAt,read]⟩

theorem Priced.before_lt {a : Ptr} (priced : Priced type s (as ++ a :: bs)) :
    (∀ x ∈ as, s.priceAt x < s.priceAt a) ∧ ∀ x ∈ bs, s.priceAt a < s.priceAt x := by
  have sorted := List.pairwise_append.mp priced.sorted
  exact ⟨fun x member => sorted.2.2 x member a (by simp),fun x member => (List.pairwise_cons.mp sorted.2.1).1 x member⟩

/-! ## Search -/

/-- What a search for a price must find: the level of that price, or the two levels
    between which it belongs. -/
def Located (s : TreeState N) (ps : List Ptr) (price : Nat) (sr : SearchResult) : Prop :=
  (∃ as a bs, ps = as ++ a :: bs ∧ s.priceAt a = price ∧ sr.existing = some a) ∨
    ∃ as bs, ps = as ++ bs ∧ (∀ a ∈ as, s.priceAt a < price) ∧ (∀ b ∈ bs, price < s.priceAt b) ∧
      sr = ⟨none,as.getLast?,bs.head?⟩

theorem findNeighborsLoop_spec (priced : Priced type s ps) (rounds : Nat) :
    ∀ (p : List (Frame Ptr)) (c : Color) (l r : Shape Ptr) (a : Ptr), Indexed F s (zip p (.node c l a r)) →
    (zip p (.node c l a r)).inorder = ps → (∀ x ∈ before p, s.priceAt x < price) →
    (∀ x ∈ after p, price < s.priceAt x) → (l.inorder ++ a :: r.inorder).length ≤ rounds →
    ∃ sr, s.findNeighborsLoop price rounds a = some sr ∧ Located s ps price sr := by
  induction rounds with
  | zero => intro p c l r a _ _ _ _ enough; simp at enough
  | succ rounds ih =>
    intro p c l r a indexed order below above enough
    obtain ⟨d,readA,left,right,_⟩ := indexed.read
    have split : ps = (before p ++ l.inorder) ++ a :: (r.inorder ++ after p) := by
      rw [← order,inorder_zip]
      simp
    have here := priced
    rw [split] at here
    obtain ⟨d',read',predIs,succIs,priceIs⟩ := here.read
    obtain rfl : d' = d := Option.some.inj (read'.symm.trans readA)
    obtain ⟨cheaper,dearer⟩ := here.before_lt
    simp only [List.length_append,List.length_cons] at enough
    rcases Nat.lt_trichotomy price d'.price with less | same | more
    · cases l with
      | nil =>
        have none : d'.left = none := left
        have run : s.findNeighborsLoop price (rounds+1) a = some ⟨Option.none,d'.pred,some a⟩ := by
          simp only [findNeighborsLoop,readA,Option.bind_eq_bind,Option.bind_some,less,none,↓reduceIte]
        refine ⟨_,run,.inr ⟨before p,a :: (r.inorder ++ after p),by simp [split],below,?_,?_⟩⟩
        · intro x member
          rcases List.mem_cons.mp member with rfl | member
          · omega
          · have := dearer x member
            omega
        · simpa using predIs
      | node c' l' a' r' =>
        have some : d'.left = some a' := left
        have run : s.findNeighborsLoop price (rounds+1) a = s.findNeighborsLoop price rounds a' := by
          simp only [findNeighborsLoop,readA,Option.bind_eq_bind,Option.bind_some,less,some,↓reduceIte]
        rw [run]
        refine ih (.left c a r :: p) c' l' r' a' indexed order below ?_ (by simp at enough ⊢; omega)
        intro x member
        rcases List.mem_cons.mp member with rfl | member
        · omega
        · have := dearer x member
          omega
    · refine ⟨⟨some a,d'.pred,d'.succ⟩,?_,.inl ⟨_,a,_,split,by omega,rfl⟩⟩
      simp only [findNeighborsLoop,readA,Option.bind_eq_bind,Option.bind_some,same,Nat.lt_irrefl,↓reduceIte]
    · have notLess : ¬ price < d'.price := by omega
      cases r with
      | nil =>
        have none : d'.right = none := right
        have run : s.findNeighborsLoop price (rounds+1) a = some ⟨Option.none,some a,d'.succ⟩ := by
          simp only [findNeighborsLoop,readA,Option.bind_eq_bind,Option.bind_some,notLess,more,none,↓reduceIte]
        refine ⟨_,run,.inr ⟨before p ++ l.inorder ++ [a],after p,by simp [split],?_,above,?_⟩⟩
        · intro x member
          cases List.mem_append.mp member with
          | inl member =>
            have := cheaper x member
            omega
          | inr member =>
            simp only [List.mem_singleton] at member
            subst member
            omega
        · simpa using succIs
      | node c' l' a' r' =>
        have some : d'.right = some a' := right
        have run : s.findNeighborsLoop price (rounds+1) a = s.findNeighborsLoop price rounds a' := by
          simp only [findNeighborsLoop,readA,Option.bind_eq_bind,Option.bind_some,notLess,more,some,↓reduceIte]
        rw [run]
        refine ih (.right c l a :: p) c' l' r' a' indexed order ?_ above (by simp at enough ⊢; omega)
        intro x member
        simp only [before,List.mem_append,List.mem_singleton] at member
        rcases member with member | member | rfl
        · exact below x member
        · have := cheaper x (by simp [member])
          omega
        · omega

theorem findNeighbors_spec (wf : s.levels.WellFormed) (priced : Priced type s ps) (price : Nat) :
    ∃ sr, s.findNeighbors price = some sr ∧ Located s ps price sr := by
  obtain ⟨t,indexed,order,_⟩ := priced.tree
  cases t with
  | nil =>
    have noRoot : s.root = none := indexed.root
    refine ⟨⟨none,none,none⟩,by simp [findNeighbors,noRoot],.inr ⟨[],[],by simpa using order.symm,by simp,by simp,rfl⟩⟩
  | node c l a r =>
    have isRoot : s.root = some a := indexed.root
    have counted := wf.length_le indexed.nodup (fun a member => indexed.live member)
    obtain ⟨sr,found,located⟩ : ∃ sr, s.findNeighborsLoop price (s.levels.nbElements + 1) a = some sr ∧
        Located s ps price sr :=
      findNeighborsLoop_spec priced (s.levels.nbElements + 1) [] c l r a indexed order (by simp [before]) (by simp [after])
        (by simp at counted ⊢; omega)
    exact ⟨sr,by simp [findNeighbors,isRoot,found],located⟩

/-! ## A new level -/

/-- A leaf put into a hole: its parent names it, nothing else changes. -/
theorem indexed_attach {f : Frame Ptr} {a : Ptr} {c : Color} (indexed : Indexed F s (zip (f :: p) .nil))
    (fresh : a ∉ before (f :: p) ++ after (f :: p)) (inside : ∀ x ∈ before (f :: p) ++ a :: after (f :: p), G x)
    (root : s'.root = s.root) (leaf : s'.cells a = some ⟨none,none,some f.addr,c⟩)
    (others : ∀ x, x ≠ a → s'.cells x = if f.addr = x then
      (s.cells x).map (fun k => match f with
        | .left _ _ _ => { k with left := some a }
        | .right _ _ _ => { k with right := some a }) else s.cells x) :
    Indexed G s' (zip (f :: p) (.node c .nil a .nil)) := by
  have distinct := indexed.distinct
  have parts : (before (f :: p) ++ ((Shape.node c .nil a .nil).inorder ++ after (f :: p))).Nodup := by
    simp only [Shape.inorder_nil,Shape.inorder_node,List.nil_append,List.cons_append] at distinct ⊢
    exact List.nodup_middle.mpr (List.nodup_cons.mpr ⟨fresh,distinct⟩)
  have keep : ∀ x ∈ before (f :: p) ++ after (f :: p), x ≠ f.addr → s'.cells x = s.cells x := by
    intro x member notParent
    rw [others x (fun same => fresh (same ▸ member)),if_neg notParent.symm]
  have parent := others f.addr (fun same => fresh (same ▸ addr_mem f p))
  rw [if_pos rfl] at parent
  refine indexed_zip ?_ ⟨leaf,trivial,trivial⟩ parts (by simpa using inside)
  obtain ⟨context,_⟩ := indexed.focus
  simp only [Shape.inorder_nil,List.nil_append] at distinct
  rcases f with ⟨d,x,r⟩ | ⟨d,l,x⟩
  · obtain ⟨here,sibling,outer⟩ := context
    simp only [before,after,List.nodup_append,List.nodup_cons,List.mem_append,List.mem_cons,Frame.addr]
      at distinct keep parent
    refine ⟨by rw [parent,here]; rfl,shaped_congr sibling ?_,root ▸ context_congr outer ?_⟩
    · intro y member
      exact keep y (by simp [member]) (by grind)
    · intro y member
      rcases List.mem_append.mp member with m | m <;> exact keep y (by simp [m]) (by grind)
  · obtain ⟨here,sibling,outer⟩ := context
    simp only [before,after,List.nodup_append,List.nodup_cons,List.mem_append,List.mem_cons,Frame.addr]
      at distinct keep parent
    refine ⟨by rw [parent,here]; rfl,shaped_congr sibling ?_,root ▸ context_congr outer ?_⟩
    · intro y member
      exact keep y (by simp [member]) (by grind)
    · intro y member
      rcases List.mem_append.mp member with m | m <;> exact keep y (by simp [m]) (by grind)

/-- What `attachLevel` changes: tree links of levels in `F`, and the best where it was the first level. -/
structure Attached (F : Ptr → Prop) (s s' : TreeState N) (ps : List Ptr) : Prop where
  nodes : s'.nodes = s.nodes
  orderIndex : s'.orderIndex = s.orderIndex
  chainHead : s'.chainHead = s.chainHead
  chainTail : s'.chainTail = s.chainTail
  data : ∀ a, (s'.level a).map PriceLevel.data = (s.level a).map PriceLevel.data
  outside : ∀ a, ¬ F a → s'.level a = s.level a
  wellFormed : s.levels.WellFormed → s'.levels.WellFormed
  count : s'.levels.nbElements = s.levels.nbElements
  best : ps ≠ [] → s'.best = s.best

theorem attached_of_links (links : LinksOnly s s') (cells : ∀ a, ¬ F a → s'.cells a = s.cells a) : Attached F s s' ps :=
  ⟨links.nodes,links.orderIndex,links.chainHead,links.chainTail,links.data,(rewired_of_cells links cells).outside,
    links.wellFormed,links.count,fun _ => links.best⟩

/-- Where the hole is a left link, the last level before it has a right child on the path. -/
theorem rightFree_left {c : Color} {x : Ptr} (indexed : Indexed F s (zip (.left c x r :: p) .nil)) :
    s.rightFree (before (.left c x r :: p)).getLast? = some false := by
  cases last : (before (.left c x r :: p)).getLast? with
  | none => rfl
  | some y =>
    obtain ⟨q,c',l',p',pathIs,_⟩ := last_before p y last
    have whole : Indexed F s (zip p' (.node c' l' y (zip (.left c x r :: q) .nil))) := by
      have moved := indexed
      rw [pathIs,← List.cons_append,zip_append] at moved
      exact moved
    obtain ⟨e,readY,_,rightY,_⟩ := whole.read
    obtain ⟨w,isChild⟩ := Option.isSome_iff_exists.mp (root_zip_isSome q (t := Frame.plug .nil (.left c x r)) rfl)
    have right : e.right = some w := rightY.trans isChild
    simp [rightFree,readY,right]

/-- Where the hole is a right link, that is the link of the last level before it. -/
theorem rightFree_right {c : Color} {x : Ptr} (indexed : Indexed F s (zip (.right c l x :: p) .nil)) :
    s.rightFree (some x) = some true := by
  obtain ⟨e,readX,_,rightX,_⟩ := (show Indexed F s (zip p (.node c l x .nil)) from indexed).read
  have right : e.right = none := rightX
  simp [rightFree,readX,right]

/-- The leaf `a` hung below `x`: the link `f` from above, which is `k` on the cell, and the one from below. -/
theorem hang_run {a x : Ptr} {d : PriceLevel} {f : PriceLevel → PriceLevel} {k : Cell Ptr → Cell Ptr} (isLive : s.level x ≠ none)
    (read : s.level a = some d) (leaf : d.left = none ∧ d.right = none ∧ d.parent = none) (apart : x ≠ a)
    (data : ∀ d, (f d).data = d.data) (cell : ∀ d, (f d).cell = k d.cell) :
    ∃ s₁ s₂, s.modifyLevel x f = some s₁ ∧ s₁.modifyLevel a (fun d => { d with parent := some x }) = some s₂ ∧
      LinksOnly s s₂ ∧ s₂.root = s.root ∧ s₂.cells a = some ⟨none,none,some x,d.color⟩ ∧
      ∀ y, y ≠ a → s₂.cells y = if x = y then (s.cells y).map k else s.cells y := by
  obtain ⟨s₁,step₁,links₁,root₁,level₁⟩ := modifyLevel_spec isLive data
  obtain ⟨s₂,step₂,links₂,root₂,level₂⟩ := modifyLevel_spec (s := s₁) (a := a)
    (f := fun d => { d with parent := some x }) (by simp [level₁,apart,read]) (fun _ => rfl)
  refine ⟨s₁,s₂,step₁,step₂,links₁.trans links₂,root₂.trans root₁,?_,?_⟩
  · simp [cells,level₂,level₁,apart,read,PriceLevel.cell,leaf]
  · intro y notA
    simp only [cells,level₂,level₁,notA.symm,↓reduceIte]
    split_ifs
    · simp only [Option.map_map,Function.comp_def,cell]
    · rfl

theorem attachLevel_spec {a : Ptr} {d : PriceLevel} (priced : Priced type s (as ++ bs)) (fresh : a ∉ as ++ bs)
    (read : s.level a = some d) (leaf : d.left = none ∧ d.right = none ∧ d.parent = none) :
    ∃ s' p c, s.attachLevel a as.getLast? bs.head? = some s' ∧ Attached (· ∈ as ++ a :: bs) s s' (as ++ bs) ∧
      Indexed (· ∈ as ++ a :: bs) s' (zip p (.node c .nil a .nil)) ∧ Valid (zip p .nil) ∧
      before p = as ∧ after p = bs := by
  obtain ⟨t,indexed,order,valid⟩ := priced.tree
  obtain ⟨p,rfl,beforeIs,afterIs⟩ := exists_hole t as bs order
  cases p with
  | nil =>
    have noRoot : s.root = none := indexed.root
    obtain rfl : as = [] := beforeIs.symm
    obtain rfl : bs = [] := afterIs.symm
    refine ⟨{ s with root := some a, best := some a },[],d.color,by simp [attachLevel,noRoot],
      ⟨rfl,rfl,rfl,rfl,fun _ => rfl,fun _ _ => rfl,id,rfl,fun h => absurd rfl h⟩,?_,valid,rfl,rfl⟩
    refine ⟨⟨?_,trivial,trivial⟩,rfl,by simp,by simp⟩
    have here : s.cells a = some d.cell := cells_of_level read
    show s.cells a = _
    rw [here]
    simp [PriceLevel.cell,leaf]
  | cons f p =>
    obtain ⟨r,isRoot⟩ : ∃ r, s.root = some r := by
      rw [indexed.root]
      exact Option.isSome_iff_exists.mp (root_zip_isSome p (by cases f <;> rfl))
    have onPath : f.addr ∈ as ++ bs := by
      rw [← beforeIs,← afterIs]
      exact addr_mem f p
    have notParent : f.addr ≠ a := fun same => fresh (same ▸ onPath)
    have inside : ∀ x ∈ before (f :: p) ++ a :: after (f :: p), x ∈ as ++ a :: bs := by
      rw [beforeIs,afterIs]
      exact fun x member => member
    have outside : a ∉ before (f :: p) ++ after (f :: p) := by
      rw [beforeIs,afterIs]
      exact fresh
    rcases f with ⟨c,x,r'⟩ | ⟨c,l,x⟩
    · -- The hole is a left link: the last level before it has a right child on the path.
      have isSucc : bs.head? = some x := by rw [← afterIs]; rfl
      have taken : s.rightFree as.getLast? = some false := beforeIs ▸ rightFree_left indexed
      simp only [Frame.addr] at onPath notParent
      obtain ⟨s₁,s₂,step₁,step₂,links,root,here,others⟩ := hang_run (f := fun d => { d with left := some a })
        (k := fun k => { k with left := some a }) (priced.live onPath) read leaf notParent (fun _ => rfl) (fun _ => rfl)
      refine ⟨s₂,.left c x r' :: p,d.color,?_,attached_of_links links ?_,indexed_attach indexed outside inside root here others,
        valid,beforeIs,afterIs⟩
      · simp only [attachLevel,isRoot,taken,isSucc,step₁,step₂,Option.bind_eq_bind,Option.bind_some,↓reduceIte,
          Bool.false_eq_true]
      · intro y out
        have notA : y ≠ a := fun same => out (by simp [same])
        have notX : x ≠ y := fun same => out (by rw [← same]; simp only [List.mem_append,List.mem_cons] at onPath ⊢; tauto)
        rw [others y notA,if_neg notX]
    · -- The hole is a right link.
      have isPred : as.getLast? = some x := by
        rw [← beforeIs]
        simp [before,← List.append_assoc]
      simp only [Frame.addr] at onPath notParent
      have free : s.rightFree (some x) = some true := rightFree_right indexed
      obtain ⟨s₁,s₂,step₁,step₂,links,root,here,others⟩ := hang_run (f := fun d => { d with right := some a })
        (k := fun k => { k with right := some a }) (priced.live onPath) read leaf notParent (fun _ => rfl) (fun _ => rfl)
      refine ⟨s₂,.right c l x :: p,d.color,?_,attached_of_links links ?_,indexed_attach indexed outside inside root here others,
        valid,beforeIs,afterIs⟩
      · simp only [attachLevel,isRoot,isPred,free,step₁,step₂,Option.bind_eq_bind,Option.bind_some,↓reduceIte]
      · intro y out
        have notA : y ≠ a := fun same => out (by simp [same])
        have notX : x ≠ y := fun same => out (by rw [← same]; simp only [List.mem_append,List.mem_cons] at onPath ⊢; tauto)
        rw [others y notA,if_neg notX]

/-- The new level threaded between its neighbours. -/
theorem threadLevel_spec {a : Ptr} (threads : Linked s.succOf s.predOf (as ++ bs)) (nodup : (as ++ a :: bs).Nodup)
    (isLive : ∀ x ∈ as ++ a :: bs, s.level x ≠ none) :
    ∃ s', s.threadLevel a as.getLast? bs.head? = some s' ∧ LevelWrite s s' ∧ s'.cells = s.cells ∧
      (∀ x, (s'.level x).map PriceLevel.body = (s.level x).map PriceLevel.body) ∧
      (∀ x, x ∉ as ++ a :: bs → s'.level x = s.level x) ∧ Linked s'.succOf s'.predOf (as ++ a :: bs) := by
  have lastIn : ∀ x, as.getLast? = some x → x ∈ as := fun x => List.mem_of_getLast?
  have headIn : ∀ x, bs.head? = some x → x ∈ bs := fun x => List.mem_of_head?
  have apart := nodup
  simp only [List.nodup_append,List.nodup_cons,List.mem_cons] at apart
  obtain ⟨s₁,step₁,write₁,level₁⟩ := modifyLevel_run (s := s) (a := a)
    (fun d => { d with pred := as.getLast?, succ := bs.head? }) (isLive a (by simp))
  obtain ⟨s₂,step₂,write₂,level₂⟩ := modifyLevelIf_run (s := s₁) (p := as.getLast?)
    (fun d => { d with succ := some a }) (by
      intro x last
      rw [level₁]
      split_ifs <;> simp [isLive x (by simp [lastIn x last])])
  obtain ⟨s₃,step₃,write₃,level₃⟩ := modifyLevelIf_run (s := s₂) (p := bs.head?)
    (fun d => { d with pred := some a }) (by
      intro x first
      rw [level₂,level₁]
      split_ifs <;> simp [isLive x (by simp [headIn x first])])
  refine ⟨s₃,by simp only [threadLevel,step₁,step₂,step₃,Option.bind_eq_bind,Option.bind_some],
    write₁.trans (write₂.trans write₃),?_,?_,?_,?_⟩
  · funext x
    simp only [cells,level₃,level₂,level₁]
    split_ifs <;> simp only [Option.map_map] <;> rfl
  · intro x
    simp only [level₃,level₂,level₁]
    split_ifs <;> simp only [Option.map_map] <;> rfl
  · intro x out
    simp only [List.mem_append,List.mem_cons,not_or] at out
    have notLast : as.getLast? ≠ some x := fun h => out.1 (lastIn x h)
    have notFirst : bs.head? ≠ some x := fun h => out.2.2 (headIn x h)
    have notA : ¬ a = x := fun h => out.2.1 h.symm
    simp [level₃,level₂,level₁,notLast,notFirst,notA]
  · have lastA : as.getLast? ≠ some a := fun h => apart.2.2 a (lastIn a h) a (.inl rfl) rfl
    have firstA : bs.head? ≠ some a := fun h => apart.2.1.1 (headIn a h)
    obtain ⟨d,read⟩ := Option.ne_none_iff_exists'.mp (isLive a (by simp))
    refine linked_insert threads nodup (by simp [predOf,level₃,level₂,level₁,lastA,firstA,read])
      (by simp [succOf,level₃,level₂,level₁,lastA,firstA,read]) ?_ ?_
    · intro y member
      have notA : ¬ a = y := by
        rcases List.mem_append.mp member with m | m <;> grind
      obtain ⟨e,readY⟩ := Option.ne_none_iff_exists'.mp
        (isLive y (by rcases List.mem_append.mp member with m | m <;> simp [m]))
      simp only [succOf,level₃,level₂,level₁,notA,readY,↓reduceIte]
      constructor <;> intro h <;> by_cases h' : bs.head? = some y <;> simp [h,h']
    · intro y member
      have notA : ¬ a = y := by
        rcases List.mem_append.mp member with m | m <;> grind
      obtain ⟨e,readY⟩ := Option.ne_none_iff_exists'.mp
        (isLive y (by rcases List.mem_append.mp member with m | m <;> simp [m]))
      simp only [predOf,level₃,level₂,level₁,notA,readY,↓reduceIte]
      constructor <;> intro h <;> by_cases h' : as.getLast? = some y <;> simp [h,h']

/-- The best after a new level between `as` and `bs`. -/
theorem bestOf_insert (type : OrderType) (as bs : List Ptr) (a : Ptr) (old : Option Ptr)
    (oldIs : as ++ bs ≠ [] → old = type.bestOf (as ++ bs)) :
    type.bestOf (as ++ a :: bs) = if (match type with | .BID => bs.head? | .ASK => as.getLast?).isNone then some a
      else old := by
  cases type with
  | BID =>
    cases bs with
    | nil =>
      simp [OrderType.bestOf]
    | cons b bs =>
      rw [oldIs (by simp)]
      simp [OrderType.bestOf]
  | ASK =>
    cases as with
    | nil =>
      simp [OrderType.bestOf]
    | cons b as =>
      rw [oldIs (by simp)]
      have last : (b :: as).getLast?.isNone = false := by simp [List.getLast?_cons]
      simp [OrderType.bestOf,last]

theorem neighborAwareInsert_spec {a : Ptr} {d : PriceLevel} (wf : s.levels.WellFormed) (priced : Priced type s (as ++ bs))
    (fresh : a ∉ as ++ bs) (read : s.level a = some d) (leaf : d.left = none ∧ d.right = none ∧ d.parent = none)
    (above : ∀ x ∈ as, s.priceAt x < d.price) (below : ∀ x ∈ bs, d.price < s.priceAt x) :
    ∃ s', s.neighborAwareInsert type a as.getLast? bs.head? = some s' ∧ Priced type s' (as ++ a :: bs) ∧
      Reindexed (· ∈ as ++ a :: bs) s s' := by
  have nodup : (as ++ a :: bs).Nodup := List.nodup_middle.mpr (List.nodup_cons.mpr ⟨fresh,priced.nodup⟩)
  obtain ⟨s₁,p,c,step₁,attached,indexed₁,valid,beforeIs,afterIs⟩ := attachLevel_spec priced fresh read leaf
  have threads₁ := threads_of_data attached.data
  have live₁ : ∀ x ∈ as ++ a :: bs, s₁.level x ≠ none := by
    intro x member dead
    have same := attached.data x
    rw [dead] at same
    have deadBefore : s.level x = none := by simpa using same.symm
    simp only [List.mem_append,List.mem_cons] at member
    rcases member with m | rfl | m
    · exact priced.live (by simp [m]) deadBefore
    · simp [read] at deadBefore
    · exact priced.live (by simp [m]) deadBefore
  obtain ⟨s₂,step₂,write₂,cells₂,body₂,outside₂,threads₂⟩ := threadLevel_spec (s := s₁)
    (by rw [threads₁.1,threads₁.2]; exact priced.threads) nodup live₁
  have best₂ : as ++ bs ≠ [] → s₂.best = type.bestOf (as ++ bs) := fun some => by
    rw [write₂.best,attached.best some,priced.best]
  obtain ⟨s₃,step₃,levels₃,root₃,best₃,nodes₃,index₃,head₃,tail₃⟩ : ∃ s₃ : TreeState N,
      raiseBest type s₂ a as.getLast? bs.head? = s₃ ∧ s₃.levels = s₂.levels ∧ s₃.root = s₂.root ∧
      s₃.best = type.bestOf (as ++ a :: bs) ∧ s₃.nodes = s₂.nodes ∧ s₃.orderIndex = s₂.orderIndex ∧
      s₃.chainHead = s₂.chainHead ∧ s₃.chainTail = s₂.chainTail := by
    refine ⟨_,rfl,?_⟩
    rw [bestOf_insert type as bs a s₂.best best₂]
    unfold raiseBest
    cases type <;> dsimp only <;> split_ifs <;> exact ⟨rfl,rfl,rfl,rfl,rfl,rfl,rfl⟩
  have level₃ : s₃.level = s₂.level := by funext x; simp only [level,levels₃]
  have indexed₃ : Indexed (· ∈ as ++ a :: bs) s₃ (zip p (.node c .nil a .nil)) := by
    apply indexed₁.congr indexed₁.inside (root₃.trans write₂.root)
    intro x _
    simp only [← cells₂]
    simp only [cells,level₃]
  have wf₃ : s₃.levels.WellFormed := by
    rw [levels₃]
    exact write₂.wellFormed (attached.wellFormed wf)
  obtain ⟨s₄,u,step₄,rewired,indexed₄,order,valid₄⟩ := insertRebalance_spec wf₃ indexed₃ valid
  have threads₄ := threads_of_data rewired.links.data
  have reindexed : Reindexed (· ∈ as ++ a :: bs) s s₃ := by
    refine ⟨?_,?_,?_,?_,?_,?_,fun _ => wf₃,?_⟩
    · rw [nodes₃,write₂.nodes,attached.nodes]
    · rw [index₃,write₂.orderIndex,attached.orderIndex]
    · rw [head₃,write₂.chainHead,attached.chainHead]
    · rw [tail₃,write₂.chainTail,attached.chainTail]
    · intro x
      rw [level₃,body₂,body_of_data (attached.data x)]
    · intro x out
      rw [level₃,outside₂ x out,attached.outside x out]
    · rw [levels₃,write₂.count,attached.count]
  have whole := reindexed.trans rewired.reindexed
  refine ⟨s₄,?_,⟨⟨u,?_,?_,valid₄⟩,?_,?_,?_⟩,whole⟩
  · simp only [neighborAwareInsert,step₁,step₂,step₃,step₄,Option.bind_eq_bind,Option.bind_some]
  · exact indexed₄
  · rw [order,inorder_zip,beforeIs,afterIs]
    simp
  · rw [threads₄.1,threads₄.2]
    have same : s₃.succOf = s₂.succOf ∧ s₃.predOf = s₂.predOf := by
      constructor <;> funext x <;> simp only [succOf,predOf,level₃]
    rw [same.1,same.2]
    exact threads₂
  · have prices : ∀ x, s₄.priceAt x = s.priceAt x := whole.priceAt
    have here : s.priceAt a = d.price := by simp [priceAt,read]
    have old := List.pairwise_append.mp priced.sorted
    simp only [prices]
    refine List.pairwise_append.mpr ⟨old.1,List.pairwise_cons.mpr ⟨?_,old.2.1⟩,?_⟩
    · intro x member
      rw [here]
      exact below x member
    · intro x inA y member
      rcases List.mem_cons.mp member with rfl | inB
      · rw [here]
        exact above x inA
      · exact old.2.2 x inA y inB
  · rw [rewired.links.best,best₃]

/-! ## Removal of a level -/

/-- What the removal of the level `z` leaves as it was. -/
structure LevelErased (F : Ptr → Prop) (s s' : TreeState N) (z : Ptr) : Prop where
  nodes : s'.nodes = s.nodes
  orderIndex : s'.orderIndex = s.orderIndex
  chainHead : s'.chainHead = s.chainHead
  chainTail : s'.chainTail = s.chainTail
  body : ∀ a, a ≠ z → (s'.level a).map PriceLevel.body = (s.level a).map PriceLevel.body
  gone : s'.level z = none
  outside : ∀ a, ¬ F a → s'.level a = s.level a
  wellFormed : s'.levels.WellFormed
  count : s'.levels.nbElements + 1 = s.levels.nbElements

theorem bestOf_erase (type : OrderType) {as bs : List Ptr} {z : Ptr} (nodup : (as ++ z :: bs).Nodup) :
    type.bestOf (as ++ bs) = if type.bestOf (as ++ z :: bs) = some z then
      (match type with | .BID => as.getLast? | .ASK => bs.head?) else type.bestOf (as ++ z :: bs) := by
  have apart := nodup
  simp only [List.nodup_append,List.nodup_cons,List.mem_cons] at apart
  cases type with
  | BID =>
    cases bs with
    | nil =>
      simp [OrderType.bestOf]
    | cons b bs =>
      have other : (as ++ z :: b :: bs).getLast? ≠ some z := by
        rw [getLast?_append_cons,List.getLast?_cons_cons]
        intro last
        exact apart.2.1.1 (List.mem_of_getLast? last)
      simp only [OrderType.bestOf,other,↓reduceIte]
      simp
  | ASK =>
    cases as with
    | nil =>
      simp [OrderType.bestOf]
    | cons b as =>
      have other : b ≠ z := fun same => apart.2.2 b (by simp) z (.inl rfl) same
      simp [OrderType.bestOf,other]

/-- What `eraseLevel` writes before it takes `z` out of the tree: the best level and the threads go past it. -/
structure Bypassed (type : OrderType) (s s' : TreeState N) (as bs : List Ptr) : Prop where
  level : ∀ x, s'.level x = (s.level x).map fun e => { e with
      succ := if as.getLast? = some x then bs.head? else e.succ
      pred := if bs.head? = some x then as.getLast? else e.pred }
  best : s'.best = type.bestOf (as ++ bs)
  root : s'.root = s.root
  nodes : s'.nodes = s.nodes
  orderIndex : s'.orderIndex = s.orderIndex
  chainHead : s'.chainHead = s.chainHead
  chainTail : s'.chainTail = s.chainTail
  wellFormed : s.levels.WellFormed → s'.levels.WellFormed
  count : s'.levels.nbElements = s.levels.nbElements

theorem bypass_run {z : Ptr} {d : PriceLevel} (priced : Priced type s (as ++ z :: bs)) (predIs : d.pred = as.getLast?)
    (succIs : d.succ = bs.head?) :
    ∃ s₂ s₃, (lowerBest type s z d).modifyLevelIf d.pred (fun e => { e with succ := d.succ }) = some s₂ ∧
      s₂.modifyLevelIf d.succ (fun e => { e with pred := d.pred }) = some s₃ ∧ Bypassed type s s₃ as bs := by
  obtain ⟨s₁,step₁,heap₁,index₁,root₁,head₁,tail₁,best₁⟩ : ∃ s₁ : TreeState N, lowerBest type s z d = s₁ ∧
      s₁.toHeap = s.toHeap ∧ s₁.orderIndex = s.orderIndex ∧ s₁.root = s.root ∧ s₁.chainHead = s.chainHead ∧
      s₁.chainTail = s.chainTail ∧ s₁.best = type.bestOf (as ++ bs) := by
    refine ⟨_,rfl,?_⟩
    rw [bestOf_erase type priced.nodup,← priced.best]
    unfold lowerBest
    split_ifs
    · refine ⟨rfl,rfl,rfl,rfl,rfl,?_⟩
      cases type
      · exact predIs
      · exact succIs
    · exact ⟨rfl,rfl,rfl,rfl,rfl,rfl⟩
  have level₁ : ∀ x, s₁.level x = s.level x := fun x => by simp only [level,heap₁]
  obtain ⟨s₂,step₂,write₂,level₂⟩ := modifyLevelIf_run (s := s₁) (p := d.pred) (fun e => { e with succ := d.succ }) (by
    intro x isPred
    rw [level₁]
    exact priced.live (by simp [List.mem_of_getLast? (predIs ▸ isPred)]))
  obtain ⟨s₃,step₃,write₃,level₃⟩ := modifyLevelIf_run (s := s₂) (p := d.succ) (fun e => { e with pred := d.pred }) (by
    intro x isSucc
    have alive : s.level x ≠ none := priced.live (by simp [List.mem_of_head? (succIs ▸ isSucc)])
    rw [level₂,level₁]
    split_ifs <;> simp [alive])
  have write := write₂.trans write₃
  refine ⟨s₂,s₃,by rw [step₁,step₂],step₃,?_,write.best.trans best₁,write.root.trans root₁,write.nodes.trans (by rw [heap₁]),
    write.orderIndex.trans index₁,write.chainHead.trans head₁,write.chainTail.trans tail₁,?_,by rw [write.count,heap₁]⟩
  · intro x
    rw [level₃,level₂,level₁,predIs,succIs]
    cases s.level x <;> split_ifs <;> rfl
  · exact fun wf => write.wellFormed (heap₁ ▸ wf)

namespace Bypassed

theorem cells (bypassed : Bypassed type s s' as bs) : s'.cells = s.cells := by
  funext x
  simp only [TreeState.cells,bypassed.level,Option.map_map]
  rfl

theorem body (bypassed : Bypassed type s s' as bs) (x : Ptr) :
    (s'.level x).map PriceLevel.body = (s.level x).map PriceLevel.body := by
  rw [bypassed.level,Option.map_map]
  rfl

theorem priceAt (bypassed : Bypassed type s s' as bs) (x : Ptr) : s'.priceAt x = s.priceAt x := by
  unfold TreeState.priceAt
  rw [bypassed.level]
  cases s.level x <;> rfl

theorem outside {x : Ptr} (bypassed : Bypassed type s s' as bs) (out : x ∉ as ++ bs) : s'.level x = s.level x := by
  simp only [List.mem_append,not_or] at out
  have notLast : as.getLast? ≠ some x := fun h => out.1 (List.mem_of_getLast? h)
  have notFirst : bs.head? ≠ some x := fun h => out.2 (List.mem_of_head? h)
  rw [bypassed.level]
  simp [notLast,notFirst]

theorem threads {z : Ptr} (bypassed : Bypassed type s s' as bs) (priced : Priced type s (as ++ z :: bs)) :
    Linked s'.succOf s'.predOf (as ++ bs) := by
  have alive : ∀ y ∈ as ++ bs, s.level y ≠ none :=
    fun y member => priced.live (by rcases List.mem_append.mp member with m | m <;> simp [m])
  refine linked_remove priced.threads priced.nodup ?_ ?_
  · intro y member
    obtain ⟨e,readY⟩ := Option.ne_none_iff_exists'.mp (alive y member)
    simp only [succOf,bypassed.level,readY,Option.map_some,Option.bind_some]
    exact ⟨fun h => by rw [if_pos h],fun h => by rw [if_neg h]⟩
  · intro y member
    obtain ⟨e,readY⟩ := Option.ne_none_iff_exists'.mp (alive y member)
    simp only [predOf,bypassed.level,readY,Option.map_some,Option.bind_some]
    exact ⟨fun h => by rw [if_pos h],fun h => by rw [if_neg h]⟩

end Bypassed

/-- A list without duplicates splits at `z` in one way. -/
theorem erase_middle {z : Ptr} {xs ys : List Ptr} (same : xs ++ z :: ys = as ++ z :: bs) (nodup : (as ++ z :: bs).Nodup) :
    xs ++ ys = as ++ bs := by
  have first : z ∉ as := fun m => (List.nodup_append.mp nodup).2.2 z m z (by simp) rfl
  have second : z ∉ xs := fun m => (List.nodup_append.mp (same ▸ nodup)).2.2 z m z (by simp) rfl
  have erased := congrArg (fun l => l.erase z) same
  simpa only [List.erase_append_right _ first,List.erase_append_right _ second,List.erase_cons_head] using erased

theorem eraseLevel_spec {z : Ptr} (wf : s.levels.WellFormed) (priced : Priced type s (as ++ z :: bs)) :
    ∃ s', s.eraseLevel type z = some s' ∧ Priced type s' (as ++ bs) ∧ LevelErased (· ∈ as ++ z :: bs) s s' z := by
  have apart := priced.nodup
  simp only [List.nodup_append,List.nodup_cons,List.mem_cons] at apart
  obtain ⟨d,read,predIs,succIs,_⟩ := priced.read
  obtain ⟨s₂,s₃,step₂,step₃,bypassed⟩ := bypass_run priced predIs succIs
  have wf₃ := bypassed.wellFormed wf
  obtain ⟨t,indexed,order,valid⟩ := priced.tree
  obtain ⟨p,c,l,r,rfl⟩ := exists_focus t z (by rw [order]; simp)
  have indexed₃ : Indexed (· ∈ as ++ z :: bs) s₃ (zip p (.node c l z r)) :=
    indexed.congr indexed.inside bypassed.root (fun x _ => by rw [bypassed.cells])
  obtain ⟨s₄,u,step₄,rewired,indexed₄,order₄,valid₄⟩ := rbDeleteNode_spec wf₃ indexed₃ valid
  have order' : u.inorder = as ++ bs := by
    have split : (before p ++ l.inorder) ++ z :: (r.inorder ++ after p) = as ++ z :: bs := by
      rw [← order,inorder_zip]
      simp
    rw [← erase_middle split priced.nodup,order₄]
    simp
  have live₄ : s₄.level z ≠ none := by
    intro dead
    have same := body_of_data (rewired.links.data z)
    rw [dead,bypassed.body,read] at same
    simp at same
  obtain ⟨levels,step₅,wf₅,read₅,count₅⟩ := (rewired.links.wellFormed wf₃).release live₄
  have level₅ : ∀ x, ({ s₄ with levels := levels } : TreeState N).level x = if x = z then none else s₄.level x := read₅
  have keep : ∀ x ∈ as ++ bs, x ≠ z := by
    intro x member
    rcases List.mem_append.mp member with m | m <;> grind
  refine ⟨{ s₄ with levels := levels },?_,⟨⟨u,?_,order',valid₄⟩,?_,?_,?_⟩,?_,?_,?_,?_,?_,?_,?_,wf₅,?_⟩
  · simp only [eraseLevel,read,step₂,step₃,step₄,step₅,Option.bind_eq_bind,Option.bind_some]
  · refine indexed₄.congr (fun x member => by rw [← order']; exact member) rfl ?_
    intro x member
    simp only [cells,level₅,keep x (order' ▸ member),↓reduceIte]
  · have same := threads_of_data rewired.links.data
    simp only [funext_iff,succOf,predOf] at same
    apply linked_congr (bypassed.threads priced)
    intro x member
    simp only [succOf,predOf,level₅,keep x member,↓reduceIte]
    exact ⟨same.2 x,same.1 x⟩
  · have prices : ∀ x ∈ as ++ bs, ({ s₄ with levels := levels } : TreeState N).priceAt x = s.priceAt x := by
      intro x member
      unfold TreeState.priceAt
      rw [level₅,if_neg (keep x member)]
      exact (rewired.reindexed.priceAt x).trans (bypassed.priceAt x)
    refine List.Pairwise.imp_of_mem ?_ (priced.sorted.sublist (by simp))
    intro x y inX inY less
    rw [prices x inX,prices y inY]
    exact less
  · exact rewired.links.best.trans bypassed.best
  · exact rewired.links.nodes.trans bypassed.nodes
  · exact rewired.links.orderIndex.trans bypassed.orderIndex
  · exact rewired.links.chainHead.trans bypassed.chainHead
  · exact rewired.links.chainTail.trans bypassed.chainTail
  · intro x other
    rw [level₅,if_neg other,body_of_data (rewired.links.data x),bypassed.body]
  · rw [level₅,if_pos rfl]
  · intro x out
    have other : x ≠ z := fun same => out (by simp [same])
    have past : x ∉ as ++ bs := by
      simp only [List.mem_append,List.mem_cons,not_or] at out ⊢
      exact ⟨out.1,out.2.2⟩
    rw [level₅,if_neg other,rewired.outside x out,bypassed.outside past]
  · rw [← bypassed.count,← rewired.links.count]
    exact count₅

end TreeState

end BaboEngine
