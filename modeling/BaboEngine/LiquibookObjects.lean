import BaboEngine.LiquibookBook

/-!
# The orders of liquibook

The objects that pointers lead to are edited by the callbacks, after the book has matched. An
object that has heard of all that happened to its order says the same as the order of the
abstract book (`Mirrors`), and `perform_fills` carries this through the callbacks of a pass.
-/

namespace BaboEngine
open Liquibook

namespace Liquibook.Order
variable {lo : Order} {o : SimpleOrder}

/-- What the object of an accepted order says. -/
structure Mirrors (lo : Order) (o : SimpleOrder) : Prop where
  isBuy : lo.isBuy = o.isBuy
  price : lo.price = o.price
  orderQty : lo.orderQty = o.orderQty
  filledQty : lo.filledQty = o.filledQty
  state : lo.state = if o.openQty = 0 then .osComplete else .osAccepted

theorem openQty_eq (lo : Order) : lo.openQty = lo.orderQty - lo.filledQty := by
  unfold openQty
  split_ifs <;> omega

theorem fill_eq (lo : Order) (q c : Nat) : lo.fill q c = { lo with
    state := if lo.orderQty - toU32 (lo.filledQty + q) = 0 then .osComplete else lo.state
    filledQty := toU32 (lo.filledQty + q)
    filledCost := toU32 (lo.filledCost + c) } := by
  simp only [fill,openQty_eq]
  split_ifs <;> rfl

@[simp] theorem fill_orderId (lo : Order) (q c : Nat) : (lo.fill q c).orderId = lo.orderId := by rw [fill_eq]

@[simp] theorem accept_orderId (lo : Order) : lo.accept.orderId = lo.orderId := by
  unfold accept
  split_ifs <;> rfl

@[simp] theorem cancel_orderId (lo : Order) : lo.cancel.orderId = lo.orderId := by
  unfold cancel
  split_ifs <;> rfl

theorem Mirrors.fill (mirrors : lo.Mirrors o) (sized : o.Sized) (opened : o.openQty ≠ 0) (q c c' : Nat) :
    (lo.fill q c).Mirrors (o.fill q c') := by
  have isOpen := (sized.fill q c').openQty
  rw [SimpleOrder.fill_orderQty,SimpleOrder.fill_filledQty] at isOpen
  rw [fill_eq]
  refine ⟨by simpa using mirrors.isBuy,by simpa using mirrors.price,by simpa using mirrors.orderQty,?_,?_⟩
  · simp [mirrors.filledQty]
  · simp [isOpen,mirrors.orderQty,mirrors.filledQty,mirrors.state,opened]

/-- The adapter takes an order for resting if a quantity of it is open. -/
theorem Mirrors.resting (mirrors : lo.Mirrors o) (sized : o.Sized) : LiquibookAdapter.resting lo = decide (o.openQty ≠ 0) := by
  have isOpen : lo.openQty = o.openQty := by rw [openQty_eq,mirrors.orderQty,mirrors.filledQty,sized.openQty]
  rw [LiquibookAdapter.resting,isOpen,mirrors.state]
  by_cases done : o.openQty = 0
  · simp [done]
  · simp [done,Nat.pos_of_ne_zero done]

/-- An order is cancelled only while something of it is open. -/
theorem resting_cancel (lo : Order) : LiquibookAdapter.resting lo.cancel = false := by
  unfold cancel
  split_ifs with complete
  · simp [LiquibookAdapter.resting]
  · rw [not_not] at complete
    simp [LiquibookAdapter.resting,complete]

end Liquibook.Order

theorem Matching.mem_kept {o x : SimpleOrder} : x ∈ kept o ↔ x = o ∧ o.openQty ≠ 0 := by
  unfold kept
  split_ifs with full <;> simp [full]

/-! ## Tables of objects -/

/-- Every object has the id of its place. -/
def Numbered (all : List Order) : Prop := ∀ (p : Nat) lo, all[p]? = some lo → lo.orderId = toU32 (p + 1)

section
variable {all : List Order} {lo lo' : Order} {p : Nat}

theorem Numbered.set (numbered : Numbered all) (read : all[p]? = some lo) (same : lo'.orderId = lo.orderId) :
    Numbered (all.set p lo') := by
  intro p' x read'
  by_cases here : p = p'
  · subst here
    rw [List.getElem?_set_self (List.getElem?_eq_some_iff.mp read).1] at read'
    obtain rfl := Option.some.inj read'
    rw [same]
    exact numbered p lo read
  · rw [List.getElem?_set_ne here] at read'
    exact numbered p' x read'

theorem Numbered.push (numbered : Numbered all) (isId : lo.orderId = toU32 (all.length + 1)) : Numbered (all ++ [lo]) := by
  intro p x read
  rcases Nat.lt_trichotomy p all.length with old | rfl | past
  · rw [List.getElem?_append_left old] at read
    exact numbered p x read
  · rw [List.getElem?_concat_length] at read
    obtain rfl := Option.some.inj read
    exact isId
  · have out : (all ++ [lo]).length ≤ p := by
      rw [List.length_append,List.length_singleton]
      omega
    rw [List.getElem?_eq_none out] at read
    exact absurd read (by simp)

end

namespace LiquibookAdapter
variable {a : LiquibookAdapter}

/-- The id that the reverse map has for a pointer. -/
def label (a : LiquibookAdapter) (order : Nat) : Nat := a.lb2ext.slot (toU32 (order + 1))

/-- The report of a trade, with the ids of the reverse map. -/
def report (a : LiquibookAdapter) (ptr : Nat → Nat) (taker : Nat) (t : Trade) : Report :=
  { t.report a.seq with
    makerOrderId := a.label (ptr t.maker.orderId)
    takerOrderId := a.label taker }

theorem label_get {lo : Order} {order : Nat} (numbered : Numbered a.all) (room : a.all.length < a.lb2ext.size)
    (read : a.all[order]? = some lo) : a.lb2ext.get? lo.orderId = some (a.label order) := by
  have inAll : order < a.all.length := (List.getElem?_eq_some_iff.mp read).1
  have le := SimpleOrder.toU32_le (order + 1)
  have isId := numbered order lo read
  rw [Nat.cast_add,Nat.cast_one] at le
  rw [Table.get?,if_pos (by omega),isId]
  rfl

/-- The object of an order, at its pointer. -/
def Shown (all : List Order) (order : Nat) (o : SimpleOrder) : Prop := ∃ lo, all[order]? = some lo ∧ lo.Mirrors o

/-- An object that does not rest. -/
def Dead (all : List Order) (order : Nat) : Prop := ∃ lo, all[order]? = some lo ∧ resting lo = false

/-- The callback of a trade reports it and edits its two objects. -/
theorem perform_fill {inc maker : SimpleOrder} {ptr : Nat → Nat} {taker q : Nat} (numbered : Numbered a.all)
    (room : a.all.length < a.lb2ext.size) (sized : inc.Sized) (sized' : maker.Sized) (needs : inc.openQty ≠ 0) (opened : maker.openQty ≠ 0)
    (shown : Shown a.all taker inc) (shown' : Shown a.all (ptr maker.orderId) maker) (apart : ptr maker.orderId ≠ taker)
    (positive : q ≠ 0) (small : a.filled + q < 18446744073709551616) (c : Nat) :
    ∃ all, a.performCallback (Trade.callback ptr taker ⟨inc,maker,q⟩) = some { a with
        all := all
        reports := a.reports ++ [a.report ptr taker ⟨inc,maker,q⟩]
        filled := a.filled + q } ∧
      Numbered all ∧ all.length = a.all.length ∧ Shown all taker (inc.fill q c) ∧ Shown all (ptr maker.orderId) (maker.fill q c) ∧
      ∀ p, p ≠ taker → p ≠ ptr maker.orderId → all[p]? = a.all[p]? := by
  obtain ⟨own,readOwn,mirrors⟩ := shown
  obtain ⟨other,read,mirrors'⟩ := shown'
  have readOwn' : ∀ lo, (a.all.set (ptr maker.orderId) lo)[taker]? = some own := by
    intro lo
    rw [List.getElem?_set_ne apart]
    exact readOwn
  have inAll : taker < a.all.length := (List.getElem?_eq_some_iff.mp readOwn).1
  have inAll' : ptr maker.orderId < a.all.length := (List.getElem?_eq_some_iff.mp read).1
  have cost : toU32 ((maker.price : Int) * q) = Market.cost maker q := by rw [Market.cost,Int.mul_comm]
  generalize paid : toU32 ((q : Int) * maker.price) = d
  refine ⟨(a.all.set (ptr maker.orderId) (other.fill q d)).set taker (own.fill q d),?_,?_,by simp,?_,?_,?_⟩
  · simp only [performCallback,Trade.callback,onFill,if_neg positive,read,readOwn,label_get numbered room read,
      label_get numbered room readOwn,pushReport,toU64_of_lt small,cost,paid,edit,readOwn',Option.bind_eq_bind,Option.bind_some]
    rfl
  · exact (numbered.set read (Order.fill_orderId ..)).set (readOwn' _) (Order.fill_orderId own q d)
  · exact ⟨_,List.getElem?_set_self (by simpa using inAll),mirrors.fill sized needs q d c⟩
  · refine ⟨_,?_,mirrors'.fill sized' opened q d c⟩
    rw [List.getElem?_set_ne apart.symm]
    exact List.getElem?_set_self inAll'
  · intro p notTaker notMaker
    rw [List.getElem?_set_ne notTaker.symm,List.getElem?_set_ne notMaker.symm]

/-- The objects after the callbacks of a matching pass. -/
structure Heard (all all' : List Order) (ptr : Nat → Nat) (taker : Nat) (makers : List SimpleOrder) (r : Matching) : Prop where
  numbered : Numbered all'
  length : all'.length = all.length
  own : Shown all' taker r.inc
  left : ∀ m ∈ r.makers, Shown all' (ptr m.orderId) m
  gone : ∀ m ∈ makers, m.orderId ∉ ids r.makers → Dead all' (ptr m.orderId)
  others : ∀ p, p ≠ taker → (∀ m ∈ makers, p ≠ ptr m.orderId) → all'[p]? = all[p]?

/-- What is heard of the rest of a pass is heard after the trade with its first maker, whose object stays as this trade has
    left it. -/
theorem Heard.trade {all all₁ all' : List Order} {ptr : Nat → Nat} {taker q : Nat} {inc maker : SimpleOrder} {rest : List SimpleOrder}
    {r : Matching} (heard : Heard all₁ all' ptr taker rest r) (sized : maker.Sized) (apart : ptr maker.orderId ≠ taker)
    (notLater : ∀ m ∈ rest, ptr m.orderId ≠ ptr maker.orderId) (length : all₁.length = all.length)
    (shown : Shown all₁ (ptr maker.orderId) (maker.fill q (Market.cost maker q)))
    (others : ∀ p, p ≠ taker → p ≠ ptr maker.orderId → all₁[p]? = all[p]?) :
    Heard all all' ptr taker (maker :: rest) (r.trade inc maker q) := by
  have shown' : Shown all' (ptr maker.orderId) (maker.fill q (Market.cost maker q)) := by
    unfold Shown
    rw [heard.others _ apart fun m member => (notLater m member).symm]
    exact shown
  refine ⟨heard.numbered,heard.length.trans length,heard.own,?_,?_,?_⟩
  · intro m member
    cases List.mem_append.mp member with
    | inl kept =>
      obtain ⟨rfl,_⟩ := Matching.mem_kept.mp kept
      simpa using shown'
    | inr later => exact heard.left m later
  · intro m member gone
    have gone' : m.orderId ∉ ids r.makers := by
      intro present
      apply gone
      rw [Matching.trade,ids_append]
      exact List.mem_append_right _ present
    rcases List.mem_cons.mp member with rfl | later
    · obtain ⟨lo,read,mirrors⟩ := shown'
      refine ⟨lo,read,?_⟩
      have full : (m.fill q (Market.cost m q)).openQty = 0 := by
        by_contra isOpen
        apply gone
        rw [Matching.trade,ids_append]
        apply List.mem_append_left _
        simpa using mem_ids (Matching.mem_kept.mpr ⟨rfl,isOpen⟩)
      simpa [full] using mirrors.resting (sized.fill _ _)
    · exact heard.gone m later gone'
  · intro p notTaker notMakers
    obtain ⟨notMaker,notRest⟩ := List.forall_mem_cons.mp notMakers
    rw [heard.others p notTaker notRest]
    exact others p notTaker notMaker

/-- The callbacks of a pass report its trades and edit their objects. The induction follows the pass. -/
theorem perform_fills (ptr : Nat → Nat) {taker : Nat} (makers : List SimpleOrder) : ∀ (inc : SimpleOrder) (a : LiquibookAdapter),
    Numbered a.all → a.all.length < a.lb2ext.size → inc.Sized → Shown a.all taker inc →
    (∀ m ∈ makers, m.Sized ∧ Book.PlainOrder m ∧ ptr m.orderId ≠ taker ∧ Shown a.all (ptr m.orderId) m) →
    (makers.map fun m => ptr m.orderId).Nodup → a.filled + inc.openQty < 18446744073709551616 →
    ∃ all', ((Matching.regular inc makers).trades.map (Trade.callback ptr taker)).foldlM performCallback a = some { a with
        all := all'
        reports := a.reports ++ (Matching.regular inc makers).trades.map (a.report ptr taker)
        filled := a.filled + traded (Matching.regular inc makers).trades } ∧
      Heard a.all all' ptr taker makers (Matching.regular inc makers) := by
  induction makers with
  | nil =>
    intro inc a numbered _ _ shown _ _ _
    refine ⟨a.all,by simp [Matching.regular,traded],numbered,rfl,shown,by simp [Matching.regular],by simp,fun _ _ _ => rfl⟩
  | cons maker rest ih =>
    intro inc a numbered room sized shown each nodup small
    obtain ⟨⟨sized',plain,apart,shown'⟩,eachRest⟩ := List.forall_mem_cons.mp each
    obtain ⟨notLater,nodup'⟩ := List.nodup_cons.mp nodup
    by_cases stop : inc.openQty = 0 ∨ crosses maker inc = false
    · rw [Matching.regular_stop rest stop]
      refine ⟨a.all,by simp [traded],numbered,rfl,shown,?_,?_,fun _ _ _ => rfl⟩
      · exact fun m member => (each m member).2.2.2
      · exact fun m member gone => absurd (mem_ids member) gone
    · have needs : inc.openQty ≠ 0 := fun done => stop (.inl done)
      have crossed : crosses maker inc := by simpa using fun apart => stop (.inr apart)
      have regular : maker.allOrNone = false := plain.regular.1
      have opened : maker.openQty ≠ 0 := Nat.pos_iff_ne_zero.mp plain.opened
      rw [Matching.regular_take rest needs crossed (by simp [regular])]
      have positive : min inc.openQty maker.openQty ≠ 0 := by omega
      have enough : min inc.openQty maker.openQty ≤ inc.openQty := Nat.min_le_left _ _
      generalize min inc.openQty maker.openQty = q at positive enough ⊢
      obtain ⟨all₁,performed,numbered₁,length₁,own₁,maker₁,rest₁⟩ := perform_fill (q := q) numbered room sized sized' needs opened shown
        shown' apart positive (by omega) (Market.cost maker q)
      have notSame : ∀ m ∈ rest, ptr m.orderId ≠ ptr maker.orderId :=
        fun m member same => notLater (List.mem_map.mpr ⟨m,member,same⟩)
      have each₁ : ∀ m ∈ rest, m.Sized ∧ Book.PlainOrder m ∧ ptr m.orderId ≠ taker ∧ Shown all₁ (ptr m.orderId) m := by
        intro m member
        obtain ⟨sized',plain',apart',shown'⟩ := eachRest m member
        refine ⟨sized',plain',apart',?_⟩
        unfold Shown
        rw [rest₁ _ apart' (notSame m member)]
        exact shown'
      have remains := sized.openQty_fill (c := Market.cost maker q) enough
      obtain ⟨all',ran,heard⟩ := ih (inc.fill q (Market.cost maker q)) { a with
          all := all₁
          reports := a.reports ++ [a.report ptr taker ⟨inc,maker,q⟩]
          filled := a.filled + q } numbered₁ (length₁.symm ▸ room) (sized.fill _ _) own₁ each₁ nodup'
        (by rw [remains]; show a.filled + q + _ < _; omega)
      refine ⟨all',?_,heard.trade sized' apart notSame length₁ maker₁ rest₁⟩
      have report₁ : ∀ t, LiquibookAdapter.report { a with
          all := all₁
          reports := a.reports ++ [a.report ptr taker ⟨inc,maker,q⟩]
          filled := a.filled + q } ptr taker t = a.report ptr taker t := fun _ => rfl
      have total : ∀ ts, traded (⟨inc,maker,q⟩ :: ts) = q + traded ts := fun _ => rfl
      simp only [Matching.trade,List.map_cons,List.foldlM_cons,performed,Option.bind_eq_bind,Option.bind_some,total]
      rw [ran]
      simp [report₁,Nat.add_assoc]

end LiquibookAdapter

end BaboEngine
