import BaboEngine.NarbTree
import Mathlib.Data.List.Sort
import Mathlib.Tactic.Ring

/-!
# Ladders

One side of a book without its memory: levels with their orders and totals, best
first. The operations of a tree have their counterparts here, and those have
theirs on the flat list of all orders, each with its key.
-/

namespace BaboEngine

namespace OrderType
variable {type : OrderType} {p q r : Nat}

theorem better_irrefl (type : OrderType) (p : Nat) : ¬ type.better p p := by
  cases type <;> exact Nat.lt_irrefl p

theorem better_asymm (better : type.better p q) : ¬ type.better q p := by
  cases type <;> exact Nat.lt_asymm better

theorem better_trans (first : type.better p q) (second : type.better q r) : type.better p r := by
  cases type
  · exact Nat.lt_trans second first
  · exact Nat.lt_trans first second

/-- What is not better than a worse price is worse too. -/
theorem better_of_not_better (first : type.better p q) (second : ¬ type.better r q) : type.better p r := by
  cases type
  · exact Nat.lt_of_le_of_lt (Nat.le_of_not_lt second) first
  · exact Nat.lt_of_lt_of_le first (Nat.le_of_not_lt second)

theorem better_total (type : OrderType) (other : p ≠ q) : type.better p q ∨ type.better q p := by
  cases type
  · exact (Nat.lt_or_gt_of_ne other).symm
  · exact Nat.lt_or_gt_of_ne other

end OrderType

/-- An order without its back-pointer. -/
def SimpleOrder.bare (o : SimpleOrder) : SimpleOrder := { o with level := none }

namespace SimpleOrder
variable (o : SimpleOrder)

@[simp] theorem bare_orderId : o.bare.orderId = o.orderId := rfl
@[simp] theorem bare_isBuy : o.bare.isBuy = o.isBuy := rfl
@[simp] theorem bare_price : o.bare.price = o.price := rfl
@[simp] theorem bare_stopPrice : o.bare.stopPrice = o.stopPrice := rfl
@[simp] theorem bare_openQty : o.bare.openQty = o.openQty := rfl
@[simp] theorem bare_allOrNone : o.bare.allOrNone = o.allOrNone := rfl
@[simp] theorem bare_immediateOrCancel : o.bare.immediateOrCancel = o.immediateOrCancel := rfl
@[simp] theorem bare_bare : o.bare.bare = o.bare := rfl

theorem bare_fill (q c : Nat) : (o.fill q c).bare = o.bare.fill q c := by
  unfold fill
  extract_lets filled filled'
  have same : filled'.openQty = filled.openQty := rfl
  rw [same]
  split_ifs <;> rfl

theorem bare_modify (d : Int) (p : Nat) : (o.modify d p).bare = o.bare.modify d p := by
  simp only [modify_cases,bare]

theorem sized_bare : o.bare.Sized ↔ o.Sized :=
  ⟨fun ⟨orderQty,filledQty,reserved⟩ => ⟨orderQty,filledQty,reserved⟩,
    fun ⟨orderQty,filledQty,reserved⟩ => ⟨orderQty,filledQty,reserved⟩⟩

end SimpleOrder

/-- A level with its orders. -/
structure Rung where
  price : Nat
  quantity : Nat
  count : Nat
  orders : List SimpleOrder

namespace Rung

/-- A level before its first order. -/
def new (price : Nat) : Rung := ⟨price,0,0,[]⟩

/-- An order comes in at the end. -/
def add (r : Rung) (o : SimpleOrder) : Rung :=
  { r with
    quantity := toU32 (r.quantity + o.openQty)
    count := toU32 (r.count + 1)
    orders := r.orders ++ [o.bare] }

/-- An order leaves. -/
def drop (r : Rung) (o : SimpleOrder) : Rung :=
  { r with
    quantity := toU32 (r.quantity - o.openQty)
    count := toU32 (r.count - 1)
    orders := r.orders.filter (·.orderId ≠ o.orderId) }

/-- An order is edited in place, and the total of the level with it. -/
def edit (r : Rung) (id : Nat) (f : SimpleOrder → SimpleOrder) (delta : Int) : Rung :=
  { r with
    quantity := toU32 (r.quantity + delta)
    orders := r.orders.map fun o => if o.orderId = id then f o else o }

/-- The order with an id. -/
def find (r : Rung) (id : Nat) : Option SimpleOrder := r.orders.find? (·.orderId = id)

end Rung

namespace Ladder
variable {type : OrderType} {price : Nat} {rs rs' : List Rung} {r : Rung} {id : Nat}

/-- The orders of a ladder, each with its key. -/
def flat (rs : List Rung) : List (Nat × SimpleOrder) := rs.flatMap fun r => r.orders.map fun o => (r.price,o)

@[simp] theorem flat_nil : flat [] = [] := rfl
@[simp] theorem flat_cons (r : Rung) (rs : List Rung) : flat (r :: rs) = (r.orders.map fun o => (r.price,o)) ++ flat rs :=
  rfl
@[simp] theorem flat_append (rs rs' : List Rung) : flat (rs ++ rs') = flat rs ++ flat rs' := by simp [flat]

/-- Each price once, best first. -/
def Sorted (type : OrderType) (rs : List Rung) : Prop := rs.Pairwise fun r r' => type.better r.price r'.price

theorem mem_flat {e : Nat × SimpleOrder} : e ∈ flat rs ↔ ∃ r ∈ rs, r.price = e.1 ∧ e.2 ∈ r.orders := by
  simp only [flat,List.mem_flatMap,List.mem_map]
  constructor
  · rintro ⟨r,member,o,inR,rfl⟩
    exact ⟨r,member,rfl,inR⟩
  · rintro ⟨r,member,same,inR⟩
    exact ⟨r,member,e.2,inR,by rw [same]⟩

/-! ## An order comes in -/

def place (type : OrderType) (price : Nat) (o : SimpleOrder) : List Rung → List Rung
  | [] => [(Rung.new price).add o]
  | r :: rs =>
    if r.price = price then r.add o :: rs
    else if type.better price r.price then (Rung.new price).add o :: r :: rs
    else r :: place type price o rs

theorem place_append (o : SimpleOrder) (above : ∀ r ∈ rs, type.better r.price price) :
    place type price o (rs ++ rs') = rs ++ place type price o rs' := by
  induction rs with
  | nil => rfl
  | cons r rs ih =>
    have better := above r (by simp)
    have other : r.price ≠ price := fun same => type.better_irrefl price (by rw [same] at better; exact better)
    simp only [List.cons_append,place,other,OrderType.better_asymm better,↓reduceIte]
    rw [ih fun r member => above r (by simp [member])]

theorem place_here (o : SimpleOrder) (above : ∀ r ∈ rs, type.better r.price price) (here : r.price = price) :
    place type price o (rs ++ r :: rs') = rs ++ r.add o :: rs' := by
  rw [place_append o above]
  simp [place,here]

theorem place_between (o : SimpleOrder) (above : ∀ r ∈ rs, type.better r.price price)
    (below : ∀ r ∈ rs', type.better price r.price) : place type price o (rs ++ rs') = rs ++ (Rung.new price).add o :: rs' := by
  rw [place_append o above]
  cases rs' with
  | nil => rfl
  | cons r rs' =>
    have better := below r (by simp)
    have other : r.price ≠ price := fun same => type.better_irrefl price (by rw [same] at better; exact better)
    simp [place,other,better]

/-- The first key is strictly better. -/
abbrev Ahead (type : OrderType) (e e' : Nat × SimpleOrder) : Prop := type.better e.1 e'.1

/-- An insertion passes by everything that it does not come before. -/
theorem orderedInsert_append {e : Nat × SimpleOrder} {xs ys : List (Nat × SimpleOrder)}
    (behind : ∀ x ∈ xs, ¬ Ahead type e x) :
    (xs ++ ys).orderedInsert (Ahead type) e = xs ++ ys.orderedInsert (Ahead type) e := by
  induction xs with
  | nil => rfl
  | cons x xs ih =>
    rw [List.cons_append,List.orderedInsert_cons,if_neg (behind x (by simp)),ih fun x member => behind x (by simp [member])]
    rfl

/-- An insertion stops at the first key that is worse. -/
theorem orderedInsert_ahead {e : Nat × SimpleOrder} {ys : List (Nat × SimpleOrder)} (ahead : ∀ y ∈ ys, Ahead type e y) :
    ys.orderedInsert (Ahead type) e = e :: ys := by
  cases ys with
  | nil => rfl
  | cons y ys => rw [List.orderedInsert_cons,if_pos (ahead y (by simp))]

/-- On the flat list an order goes behind all orders of a better or equal key. -/
theorem flat_place (sorted : Sorted type rs) (o : SimpleOrder) :
    flat (place type price o rs) = (flat rs).orderedInsert (Ahead type) (price,o.bare) := by
  induction rs with
  | nil => rfl
  | cons r rs ih =>
    obtain ⟨worse,sorted'⟩ := List.pairwise_cons.mp sorted
    have worseFlat : ∀ e ∈ flat rs, type.better r.price e.1 := by
      intro e member
      obtain ⟨r',inRs,isPrice,_⟩ := mem_flat.mp member
      rw [← isPrice]
      exact worse r' inRs
    by_cases here : r.price = price
    · have run : place type price o (r :: rs) = r.add o :: rs := by simp [place,here]
      rw [run,flat_cons,flat_cons,orderedInsert_append,orderedInsert_ahead]
      · simp [Rung.add,here]
      · intro e member
        rw [← here] at *
        exact worseFlat e member
      · intro e member
        obtain ⟨o',_,rfl⟩ := List.mem_map.mp member
        rw [← here]
        exact type.better_irrefl r.price
    · by_cases better : type.better price r.price
      · have run : place type price o (r :: rs) = (Rung.new price).add o :: r :: rs := by simp [place,here,better]
        rw [run,orderedInsert_ahead]
        · simp [Rung.add,Rung.new]
        · intro e member
          cases List.mem_append.mp member with
          | inl m =>
            obtain ⟨o',_,rfl⟩ := List.mem_map.mp m
            exact better
          | inr m => exact type.better_trans better (worseFlat e m)
      · have run : place type price o (r :: rs) = r :: place type price o rs := by simp [place,here,better]
        rw [run,flat_cons,flat_cons,orderedInsert_append,ih sorted']
        intro e member
        obtain ⟨o',_,rfl⟩ := List.mem_map.mp member
        exact better

/-! ## An order leaves -/

/-- The order with an id leaves, and its level with it if it was the only one there. -/
def erase (id : Nat) : List Rung → List Rung
  | [] => []
  | r :: rs =>
    match r.find id with
    | none => r :: erase id rs
    | some o => if (r.drop o).orders.isEmpty then rs else r.drop o :: rs

theorem erase_here {o : SimpleOrder} (others : ∀ r ∈ rs, r.find id = none) (here : r.find id = some o) :
    erase id (rs ++ r :: rs') = rs ++ if (r.drop o).orders.isEmpty then rs' else r.drop o :: rs' := by
  induction rs with
  | nil => simp [erase,here]
  | cons q rs ih =>
    have notHere := others q (by simp)
    simp only [List.cons_append,erase,notHere]
    rw [ih fun r member => others r (by simp [member])]

theorem find_eq_none : r.find id = none ↔ ∀ o ∈ r.orders, o.orderId ≠ id := by
  simp [Rung.find]

theorem filter_absent (absent : ∀ e ∈ flat rs, e.2.orderId ≠ id) : (flat rs).filter (·.2.orderId ≠ id) = flat rs :=
  List.filter_eq_self.mpr fun e member => by simpa using absent e member

/-- On the flat list exactly the order with the id leaves. -/
theorem flat_erase (distinct : ((flat rs).map (·.2.orderId)).Nodup) :
    flat (erase id rs) = (flat rs).filter (·.2.orderId ≠ id) := by
  induction rs with
  | nil => rfl
  | cons r rs ih =>
    rw [flat_cons,List.map_append,List.nodup_append] at distinct
    rw [flat_cons,List.filter_append]
    cases here : r.find id with
    | none =>
      have absent : (r.orders.map fun o => (r.price,o)).filter (·.2.orderId ≠ id) = r.orders.map fun o => (r.price,o) := by
        apply List.filter_eq_self.mpr
        intro e member
        obtain ⟨o,inR,rfl⟩ := List.mem_map.mp member
        simpa using find_eq_none.mp here o inR
      simp only [erase,here,flat_cons,ih distinct.2.1,absent]
    | some o =>
      have member := List.mem_of_find?_eq_some here
      have isId : o.orderId = id := by simpa using List.find?_some here
      have absent : ∀ e ∈ flat rs, e.2.orderId ≠ id := by
        intro e inRest same
        refine distinct.2.2 id ?_ id ?_ rfl
        · rw [List.map_map]
          exact List.mem_map.mpr ⟨o,member,isId⟩
        · exact List.mem_map.mpr ⟨e,inRest,same⟩
      have dropped : ((r.drop o).orders.map fun o => (r.price,o)) =
          (r.orders.map fun o => (r.price,o)).filter (·.2.orderId ≠ id) := by
        simp only [Rung.drop,isId,List.filter_map]
        rfl
      rw [filter_absent absent,← dropped]
      simp only [erase,here]
      split_ifs with empty
      · rw [List.isEmpty_iff.mp empty]
        rfl
      · rfl

/-! ## An order is edited -/

/-- The order with an id is edited in place. -/
def edit (id : Nat) (f : SimpleOrder → SimpleOrder) (delta : Int) : List Rung → List Rung
  | [] => []
  | r :: rs =>
    match r.find id with
    | none => r :: edit id f delta rs
    | some _ => r.edit id f delta :: rs

theorem edit_here {f : SimpleOrder → SimpleOrder} {delta : Int} {o : SimpleOrder} (others : ∀ r ∈ rs, r.find id = none)
    (here : r.find id = some o) : edit id f delta (rs ++ r :: rs') = rs ++ r.edit id f delta :: rs' := by
  induction rs with
  | nil => simp [edit,here]
  | cons q rs ih =>
    have notHere := others q (by simp)
    simp only [List.cons_append,edit,notHere]
    rw [ih fun r member => others r (by simp [member])]

/-- On the flat list exactly the order with the id changes. -/
theorem flat_edit {f : SimpleOrder → SimpleOrder} {delta : Int} (distinct : ((flat rs).map (·.2.orderId)).Nodup) :
    flat (edit id f delta rs) = (flat rs).map fun e => if e.2.orderId = id then (e.1,f e.2) else e := by
  induction rs with
  | nil => rfl
  | cons r rs ih =>
    rw [flat_cons,List.map_append,List.nodup_append] at distinct
    rw [flat_cons,List.map_append]
    cases here : r.find id with
    | none =>
      have same : (r.orders.map fun o => (r.price,o)).map (fun e => if e.2.orderId = id then (e.1,f e.2) else e) =
          r.orders.map fun o => (r.price,o) := by
        rw [List.map_map]
        apply List.map_congr_left
        intro o member
        simp [find_eq_none.mp here o member]
      simp only [edit,here,flat_cons,ih distinct.2.1,same]
    | some o =>
      have member := List.mem_of_find?_eq_some here
      have isId : o.orderId = id := by simpa using List.find?_some here
      have absent : ∀ e ∈ flat rs, e.2.orderId ≠ id := by
        intro e inRest same
        refine distinct.2.2 id ?_ id ?_ rfl
        · rw [List.map_map]
          exact List.mem_map.mpr ⟨o,member,isId⟩
        · exact List.mem_map.mpr ⟨e,inRest,same⟩
      have rest : (flat rs).map (fun e => if e.2.orderId = id then (e.1,f e.2) else e) = flat rs := by
        refine (List.map_congr_left ?_).trans (List.map_id _)
        intro e inRest
        simp [absent e inRest]
      have here' : ((r.edit id f delta).orders.map fun o => (r.price,o)) =
          (r.orders.map fun o => (r.price,o)).map fun e => if e.2.orderId = id then (e.1,f e.2) else e := by
        simp only [Rung.edit,List.map_map]
        apply List.map_congr_left
        intro o _
        by_cases same : o.orderId = id <;> simp [same]
      rw [rest,← here']
      simp only [edit,here]
      rfl

/-! ## Totals -/

/-- The open quantity of some orders. -/
def openTotal (os : List SimpleOrder) : Nat := (os.map SimpleOrder.openQty).sum

@[simp] theorem openTotal_nil : openTotal [] = 0 := rfl
@[simp] theorem openTotal_cons (o : SimpleOrder) (os : List SimpleOrder) : openTotal (o :: os) = o.openQty + openTotal os := by
  simp [openTotal]
@[simp] theorem openTotal_append (os os' : List SimpleOrder) : openTotal (os ++ os') = openTotal os + openTotal os' := by
  simp [openTotal]

/-- The totals of a level are those of its orders, in 32 bits. -/
structure Totalled (r : Rung) : Prop where
  quantity : r.quantity = toU32 (openTotal r.orders)
  count : r.count = toU32 r.orders.length

/-- Every level has the totals of its orders. -/
def Sound (rs : List Rung) : Prop := ∀ r ∈ rs, Totalled r

theorem Totalled.add (totalled : Totalled r) (o : SimpleOrder) : Totalled (r.add o) := by
  constructor
  · simp only [Rung.add,totalled.quantity,SimpleOrder.toU32_add,openTotal_append,openTotal_cons,openTotal_nil,
      SimpleOrder.bare_openQty]
    push_cast
    rfl
  · simp only [Rung.add,totalled.count,SimpleOrder.toU32_add,List.length_append,List.length_cons,List.length_nil]
    push_cast
    rfl

theorem totalled_new (price : Nat) : Totalled (Rung.new price) := ⟨rfl,rfl⟩

theorem sound_place (sound : Sound rs) (o : SimpleOrder) : Sound (place type price o rs) := by
  induction rs with
  | nil =>
    intro r member
    obtain rfl := List.mem_singleton.mp member
    exact (totalled_new price).add o
  | cons r rs ih =>
    obtain ⟨first,rest⟩ := List.forall_mem_cons.mp sound
    unfold place
    split_ifs
    · exact List.forall_mem_cons.mpr ⟨first.add o,rest⟩
    · exact List.forall_mem_cons.mpr ⟨(totalled_new price).add o,sound⟩
    · exact List.forall_mem_cons.mpr ⟨first,ih rest⟩

/-- The order that leaves takes its open quantity along. -/
theorem openTotal_filter {os : List SimpleOrder} {o : SimpleOrder} (distinct : (os.map (·.orderId)).Nodup) (member : o ∈ os) :
    openTotal (os.filter (·.orderId ≠ o.orderId)) + o.openQty = openTotal os ∧
      (os.filter (·.orderId ≠ o.orderId)).length + 1 = os.length := by
  induction os with
  | nil => simp at member
  | cons x os ih =>
    obtain ⟨out,rest⟩ := List.nodup_cons.mp distinct
    rcases List.mem_cons.mp member with rfl | inRest
    · have others : os.filter (·.orderId ≠ o.orderId) = os := by
        apply List.filter_eq_self.mpr
        intro y inOs
        have other : y.orderId ≠ o.orderId := fun same => out (List.mem_map.mpr ⟨y,inOs,same⟩)
        simpa using other
      have leaves : (o :: os).filter (·.orderId ≠ o.orderId) = os := by
        rw [List.filter_cons_of_neg (by simp),others]
      rw [leaves]
      simp [Nat.add_comm]
    · have other : x.orderId ≠ o.orderId := by
        intro same
        exact out (List.mem_map.mpr ⟨o,inRest,same.symm⟩)
      obtain ⟨sum,length⟩ := ih rest inRest
      have stays : (x :: os).filter (·.orderId ≠ o.orderId) = x :: os.filter (·.orderId ≠ o.orderId) :=
        List.filter_cons_of_pos (by simpa using other)
      rw [stays]
      simp only [openTotal_cons,List.length_cons]
      omega

theorem Totalled.drop {o : SimpleOrder} (totalled : Totalled r) (distinct : (r.orders.map (·.orderId)).Nodup)
    (member : o ∈ r.orders) : Totalled (r.drop o) := by
  obtain ⟨sum,length⟩ := openTotal_filter distinct member
  constructor
  · simp only [Rung.drop,totalled.quantity]
    rw [sub_eq_add_neg,SimpleOrder.toU32_add,← sum]
    congr 1
    push_cast
    ring
  · simp only [Rung.drop,totalled.count]
    rw [sub_eq_add_neg,SimpleOrder.toU32_add,← length]
    congr 1
    push_cast
    ring

theorem sound_erase (sound : Sound rs) (distinct : ((flat rs).map (·.2.orderId)).Nodup) : Sound (erase id rs) := by
  induction rs with
  | nil => exact sound
  | cons r rs ih =>
    obtain ⟨first,rest⟩ := List.forall_mem_cons.mp sound
    rw [flat_cons,List.map_append,List.nodup_append] at distinct
    unfold erase
    cases here : r.find id with
    | none => exact List.forall_mem_cons.mpr ⟨first,ih rest distinct.2.1⟩
    | some o =>
      simp only
      split_ifs
      · exact rest
      · refine List.forall_mem_cons.mpr ⟨first.drop ?_ (List.mem_of_find?_eq_some here),rest⟩
        simpa [List.map_map,Function.comp_def] using distinct.1

theorem openTotal_map {os : List SimpleOrder} {o : SimpleOrder} {f : SimpleOrder → SimpleOrder} {delta : Int}
    (distinct : (os.map (·.orderId)).Nodup) (member : o ∈ os) (edited : ((f o).openQty : Int) = o.openQty + delta) :
    (openTotal (os.map fun x => if x.orderId = o.orderId then f x else x) : Int) = openTotal os + delta := by
  induction os with
  | nil => simp at member
  | cons x os ih =>
    obtain ⟨out,rest⟩ := List.nodup_cons.mp distinct
    rcases List.mem_cons.mp member with rfl | inRest
    · have others : (os.map fun x => if x.orderId = o.orderId then f x else x) = os := by
        refine (List.map_congr_left ?_).trans (List.map_id _)
        intro y inOs
        have other : y.orderId ≠ o.orderId := fun same => out (List.mem_map.mpr ⟨y,inOs,same⟩)
        simp [other]
      simp only [List.map_cons,others,openTotal_cons,↓reduceIte]
      push_cast
      omega
    · have other : x.orderId ≠ o.orderId := by
        intro same
        exact out (List.mem_map.mpr ⟨o,inRest,same.symm⟩)
      have sum := ih rest inRest
      simp only [List.map_cons,other,openTotal_cons,↓reduceIte]
      push_cast
      omega

theorem sound_edit {o : SimpleOrder} {f : SimpleOrder → SimpleOrder} {delta : Int} (sound : Sound rs)
    (distinct : ((flat rs).map (·.2.orderId)).Nodup) (member : o ∈ (flat rs).map Prod.snd)
    (edited : ((f o).openQty : Int) = o.openQty + delta) : Sound (edit o.orderId f delta rs) := by
  induction rs with
  | nil => exact sound
  | cons r rs ih =>
    obtain ⟨first,rest⟩ := List.forall_mem_cons.mp sound
    have apart := distinct
    rw [flat_cons,List.map_append,List.nodup_append] at apart
    unfold edit
    cases here : r.find o.orderId with
    | none =>
      have notHere : o ∉ r.orders := fun inR => find_eq_none.mp here o inR rfl
      refine List.forall_mem_cons.mpr ⟨first,ih rest apart.2.1 ?_⟩
      simpa [List.map_map,Function.comp_def,notHere] using member
    | some x =>
      refine List.forall_mem_cons.mpr ⟨?_,rest⟩
      have ids : (r.orders.map (·.orderId)).Nodup := by simpa [List.map_map,Function.comp_def] using apart.1
      have inR := List.mem_of_find?_eq_some here
      have isId : x.orderId = o.orderId := by simpa using List.find?_some here
      -- Only one order of the ladder has the id.
      have same : x = o := by
        obtain ⟨e,inFlat,rfl⟩ := List.mem_map.mp member
        have inFlat' : (r.price,x) ∈ flat (r :: rs) := by simp [inR]
        have unique := List.inj_on_of_nodup_map distinct inFlat' inFlat isId
        rw [← unique]
      subst same
      constructor
      · simp only [Rung.edit,first.quantity,SimpleOrder.toU32_add,openTotal_map ids inR edited]
      · simp only [Rung.edit,first.count,List.length_map]

end Ladder

end BaboEngine
