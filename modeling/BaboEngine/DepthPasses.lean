import BaboEngine.DepthCallbacks
import BaboEngine.DepthTallies

/-!
# What the depth hears

The callbacks of a call turn the totals of the orders before it into those after it (`Counts.hear_add`,
`Counts.hear_cancel`). Nothing is thrown on the way, as long as no total can leave its 32 bits. An order that fills at
once is not added to the depth: what it is going to fill is ignored (`Awaits`).
-/

namespace BaboEngine.LiquibookDepth
open Liquibook

namespace Depth
variable {size : Nat} {d d' : Depth size} {isBid : Bool} {f g : Nat → Option Tally} {n k p q : Nat} {v : Tally}

/-- The quantity of which fills are ignored. -/
def ignored (d : Depth size) (isBid : Bool) : Nat := if isBid then d.ignoreBidFillQty else d.ignoreAskFillQty

/-- A side has the totals of a map, and ignores so much of the fills to come. -/
structure Tracks (d : Depth size) (isBid : Bool) (f : Nat → Option Tally) (n : Nat) : Prop where
  shows : Displays d isBid f
  ignored : d.ignored isBid = n

/-- A call that writes one side only. -/
structure Turns (d : Depth size) (isBid : Bool) (f : Nat → Option Tally) (n : Nat) (d' : Depth size) : Prop where
  tracks : Tracks d' isBid f n
  others : ∀ g k, Tracks d (!isBid) g k → Tracks d' (!isBid) g k
  marked : Marked d d'
  published : d'.lastPublishedChange = d.lastPublishedChange

theorem Makes.turns (makes : Makes d isBid f d') (ignored : d.ignored isBid = n) : Turns d isBid f n d' := by
  have frame := makes.frame
  have same : ∀ isBid', d'.ignored isBid' = d.ignored isBid' := by
    intro isBid'
    cases isBid'
    · exact frame.ignoreAsk
    · exact frame.ignoreBid
  exact ⟨⟨makes.shows,(same isBid).trans ignored⟩,fun g k tracks => ⟨tracks.shows.frame frame,(same _).trans tracks.ignored⟩,makes.marked,
    frame.published⟩

/-- The totals are in the levels. -/
theorem Displays.same (shows : Displays d isBid f) (levels : d'.levels = d.levels) (bids : d'.excessBidLevels = d.excessBidLevels)
    (asks : d'.excessAskLevels = d.excessAskLevels) : Displays d' isBid f := by
  obtain ⟨L,lists,holds⟩ := shows
  have level : ∀ i, d'.level i = d.level i := fun i => by rw [level,level,levels]
  have excess : d'.excess isBid = d.excess isBid := by rw [excess,excess,bids,asks]
  exact ⟨L,lists,holds.priced,fun i small => level _ ▸ holds.shown i small,excess ▸ holds.hidden,excess ▸ holds.keyed⟩

/-- `ignored` is written. -/
theorem turns_ignored (shows : Displays d isBid f) (levels : d'.levels = d.levels) (lastChange : d'.lastChange = d.lastChange)
    (published : d'.lastPublishedChange = d.lastPublishedChange) (bids : d'.excessBidLevels = d.excessBidLevels)
    (asks : d'.excessAskLevels = d.excessAskLevels) (here : d'.ignored isBid = n) (there : d'.ignored (!isBid) = d.ignored (!isBid)) :
    Turns d isBid f n d' :=
  ⟨⟨shows.same levels bids asks,here⟩,fun _ _ tracks => ⟨tracks.shows.same levels bids asks,there.trans tracks.ignored⟩,
    .inl ⟨lastChange,fun i _ => by rw [level,level,levels]⟩,published⟩

theorem fillOrder_spec (full : Bool) (tracks : Tracks d isBid f 0) (listed : f p = some v) (counted : 0 < v.count) (some' : 0 < q)
    (enough : q ≤ v.qty) (fits : v.qty < 4294967296) (half : full = false → 2 * q < 4294967296) :
    ∃ d', d.fillOrder p q full isBid = .returned d' () ∧ Turns d isBid (Function.update f p (v.filled q full)) 0 d' := by
  have unfolded : d.fillOrder p q full isBid = if full then (d.closeOrder p q isBid).andThen fun d => .returned d ()
      else if toI32 q = -2147483648 then .undefined else d.changeQtyOrder p (-toI32 q) isBid := by
    have none := tracks.ignored
    unfold fillOrder
    cases isBid with
    | true =>
      have bids : d.ignoreBidFillQty = 0 := none
      rw [if_neg (fun ignores => ignores.2 bids),if_neg (by simp)]
      split_ifs
      · cases d.closeOrder p q true <;> rfl
      · rfl
      · rfl
    | false =>
      have asks : d.ignoreAskFillQty = 0 := none
      rw [if_neg (by simp),if_neg (fun ignores => ignores.2 asks)]
      split_ifs
      · cases d.closeOrder p q false <;> rfl
      · rfl
      · rfl
  rw [unfolded]
  cases full with
  | true =>
    obtain ⟨d',closed,makes⟩ := closeOrder_spec tracks.shows listed counted fun _ => enough
    exact ⟨d',by rw [closed]; rfl,makes.turns tracks.ignored⟩
  | false =>
    have small : toI32 q = q := by
      have := half rfl
      unfold toI32
      rw [Int.bmod_eq_of_le] <;> omega
    obtain ⟨d',changed,makes⟩ := changeQtyOrder_spec tracks.shows listed some' enough fits
    refine ⟨d',?_,makes.turns tracks.ignored⟩
    rw [if_neg (by simp),small,if_neg (by omega)]
    exact changed

theorem fillOrder_ignored (tracks : Tracks d isBid f n) (some' : n ≠ 0) (enough : q ≤ n) (fits : n < 4294967296) (full : Bool) :
    ∃ d', d.fillOrder p q full isBid = .returned d' () ∧ Turns d isBid f (n - q) d' := by
  have less : toU32 ((n : Int) - q) = n - q := by
    rw [← Int.ofNat_sub enough]
    exact SimpleOrder.toU32_of_lt (by omega)
  obtain ⟨shows,ignored⟩ := tracks
  cases isBid with
  | true =>
    obtain rfl : d.ignoreBidFillQty = n := ignored
    refine ⟨{ d with ignoreBidFillQty := toU32 (d.ignoreBidFillQty - q) },if_pos ⟨rfl,some'⟩,?_⟩
    exact turns_ignored shows rfl rfl rfl rfl rfl less rfl
  | false =>
    obtain rfl : d.ignoreAskFillQty = n := ignored
    refine ⟨{ d with ignoreAskFillQty := toU32 (d.ignoreAskFillQty - q) },?_,?_⟩
    · rw [fillOrder,if_neg (by simp),if_pos ⟨rfl,some'⟩]
    · exact turns_ignored shows rfl rfl rfl rfl rfl less rfl

/-! ## Changes -/

/-- Nothing is published, at most `n` changes are counted, and a level that differs has the number of one of them. -/
def Changes (n : Nat) (d d' : Depth size) : Prop := d'.lastPublishedChange = d.lastPublishedChange ∧
  ∃ k ≤ n, d'.lastChange = toU32 (d.lastChange + k) ∧
    ∀ i < size * 2, d'.level i = d.level i ∨ ∃ j, 0 < j ∧ j ≤ k ∧ (d'.level i).lastChange = some (toU32 (d.lastChange + j))

theorem Turns.changes (turns : Turns d isBid f n d') (small : d.lastChange < 4294967296) : Changes 1 d d' := by
  refine ⟨turns.published,?_⟩
  rcases turns.marked with ⟨same,levels⟩ | ⟨next,levels⟩
  · exact ⟨0,Nat.zero_le _,same.trans (SimpleOrder.toU32_of_lt small).symm,fun i inside => .inl (levels i inside)⟩
  · refine ⟨1,Nat.le_refl _,next,fun i inside => (levels i inside).imp_right fun stamp => ⟨1,Nat.one_pos,Nat.le_refl _,?_⟩⟩
    rw [stamp,next]
    rfl

theorem Changes.refl (small : d.lastChange < 4294967296) : Changes 0 d d :=
  ⟨rfl,0,Nat.le_refl _,(SimpleOrder.toU32_of_lt small).symm,fun _ _ => .inl rfl⟩

theorem Changes.trans {d'' : Depth size} {m n : Nat} (first : Changes m d d') (second : Changes n d' d'') : Changes (m + n) d d'' := by
  obtain ⟨published,k,few,lastChange,levels⟩ := first
  obtain ⟨published',k',few',lastChange',levels'⟩ := second
  have later : ∀ j : Nat, toU32 ((d'.lastChange : Int) + j) = toU32 ((d.lastChange : Int) + (k + j : Nat)) := by
    intro j
    rw [lastChange]
    unfold toU32
    omega
  refine ⟨published'.trans published,k + k',by omega,by rw [lastChange',later],fun i inside => ?_⟩
  rcases levels' i inside with same | ⟨j,positive,most,stamp⟩
  · rw [same]
    exact (levels i inside).imp_right fun ⟨j,positive,most,stamp⟩ => ⟨j,positive,by omega,stamp⟩
  · exact .inr ⟨k + j,by omega,by omega,by rw [stamp,later]⟩

theorem Changes.small {n : Nat} (changes : Changes n d d') : d'.lastChange < 4294967296 := by
  obtain ⟨_,_,_,lastChange,_⟩ := changes
  rw [lastChange]
  exact SimpleOrder.toU32_lt _

/-! ## A matching pass -/

/-- The own side of an order that is being matched. It ignores the fills of an order that fills at once, and has any other with
    what is open of it. -/
def Awaits (d : Depth size) (isBid : Bool) (f : Nat → Option Tally) (p : Nat) (ignores : Bool) (rest : Nat) : Prop :=
  if ignores then Tracks d isBid f rest else Tracks d isBid (Function.update f p (some (.added (f p) rest))) 0

theorem added_pos (o : Option Tally) (n : Nat) : 0 < (Tally.added o n).count ∧ n ≤ (Tally.added o n).qty := by
  cases o with
  | none => exact ⟨Nat.one_pos,Nat.le_refl _⟩
  | some v => exact ⟨Nat.succ_pos _,Nat.le_add_left ..⟩

theorem added_less (o : Option Tally) {n q : Nat} (enough : q ≤ n) :
    Tally.added o (n - q) = ⟨(Tally.added o n).count,(Tally.added o n).qty - q⟩ := by
  cases o with
  | none => rfl
  | some v => simp only [Tally.added,Nat.add_sub_assoc enough]

theorem Awaits.fill {ignores : Bool} {rest : Nat} (awaits : Awaits d isBid f p ignores rest) (some' : 0 < q) (enough : q ≤ rest)
    (stays : ignores = false → q < rest) (fits : (Tally.added (f p) rest).qty < 4294967296) (half : ignores = false → 2 * q < 4294967296)
    (small : d.lastChange < 4294967296) :
    ∃ d', d.fillOrder p q (decide (rest - q = 0)) isBid = .returned d' () ∧ Awaits d' isBid f p ignores (rest - q) ∧
      (∀ g k, Tracks d (!isBid) g k → Tracks d' (!isBid) g k) ∧ Changes 1 d d' := by
  obtain ⟨counted,more⟩ := added_pos (f p) rest
  cases ignores with
  | true =>
    obtain ⟨d',filled,turns⟩ := fillOrder_ignored (p := p) awaits (by omega) enough (by omega) (decide (rest - q = 0))
    exact ⟨d',filled,turns.tracks,turns.others,turns.changes small⟩
  | false =>
    have notFull : decide (rest - q = 0) = false := decide_eq_false (by have := stays rfl; omega)
    obtain ⟨d',filled,turns⟩ := fillOrder_spec false awaits (Function.update_self ..) counted some' (by omega) fits fun _ => half rfl
    refine ⟨d',notFull ▸ filled,?_,turns.others,turns.changes small⟩
    have tracks := turns.tracks
    rw [Function.update_idem] at tracks
    show Tracks d' isBid (Function.update f p (some (.added (f p) (rest - q)))) 0
    rw [added_less _ enough]
    exact tracks

/-- The object of an order has its side and its price. -/
def Known (all : List Order) (order : Nat) (o : SimpleOrder) : Prop := ∃ lo, all[order]? = some lo ∧ lo.isBuy = o.isBuy ∧ lo.price = o.price

theorem isLimit_of {lo : Order} (priced : 1 ≤ lo.price) : isLimit lo = true := decide_eq_true priced

variable {all : List Order} {ptr : Nat → Nat} {taker : Nat}

theorem hear_trade {inc maker : SimpleOrder} (d : Depth size) (known : Known all taker inc) (known' : Known all (ptr maker.orderId) maker)
    (priced : 1 ≤ inc.price) (priced' : 1 ≤ maker.price) (q : Nat) : d.hear all (Trade.typed ptr taker ⟨inc,maker,q⟩) =
      (d.fillOrder maker.price q (decide (maker.openQty - q = 0)) maker.isBuy).andThen fun d =>
        d.fillOrder inc.price q (decide (inc.openQty - q = 0)) inc.isBuy := by
  obtain ⟨lo,read,isBuy,price⟩ := known
  obtain ⟨lo',read',isBuy',price'⟩ := known'
  have limit := isLimit_of (price ▸ priced)
  have limit' := isLimit_of (price' ▸ priced')
  simp only [Trade.typed,hear,read,read',onFill,limit,limit',isBuy,isBuy',price,price',Trade.fillFlags_inbound,Trade.fillFlags_matched,if_true]

theorem regular_done {inc : SimpleOrder} (done : inc.openQty = 0) (makers : List SimpleOrder) : (Matching.regular inc makers).inc = inc := by
  cases makers with
  | nil => rfl
  | cons maker rest => rw [Matching.regular_stop rest (.inl done)]

variable {surplus surplus' : Nat → Nat} {ignores : Bool}

theorem hearAll_cons {d₁ : Depth size} {cb : TypedCallback} (cbs : List TypedCallback) (first : d.hear all cb = .returned d₁ ()) :
    d.hearAll all (cb :: cbs) = d₁.hearAll all cbs := by
  rw [hearAll,first]
  rfl

theorem hearAll_append (cbs cbs' : List TypedCallback) : ∀ {d d₁ : Depth size}, d.hearAll all cbs = .returned d₁ () →
    d.hearAll all (cbs ++ cbs') = d₁.hearAll all cbs' := by
  induction cbs with
  | nil =>
    intro d d₁ heard
    simp only [hearAll,Ending.returned.injEq] at heard
    rw [← heard.1]
    rfl
  | cons cb cbs ih =>
    intro d d₁ heard
    unfold hearAll at heard
    rw [List.cons_append,hearAll]
    cases first : d.hear all cb with
    | returned left value =>
      rw [first] at heard
      exact ih heard
    | thrown what left => simp [first,Ending.andThen] at heard
    | undefined => simp [first,Ending.andThen] at heard

/-- The depth hears of a trade. -/
theorem hear_fill {inc maker : SimpleOrder} {front rest : List SimpleOrder} {c : Nat} (sized' : maker.Sized)
    (known : Known all taker inc) (known' : Known all (ptr maker.orderId) maker) (priced : 1 ≤ inc.price) (priced' : 1 ≤ maker.price)
    (apart : maker.isBuy = !inc.isBuy) (awaits : Awaits d inc.isBuy f inc.price ignores inc.openQty)
    (tracks : Tracks d (!inc.isBuy) (tally surplus (front ++ maker :: rest)) 0) (some' : 0 < q) (enough : q ≤ inc.openQty)
    (enough' : q ≤ maker.openQty) (least : q = inc.openQty ∨ q = maker.openQty) (stays : ignores = false → q < inc.openQty)
    (fits : (Tally.added (f inc.price) inc.openQty).qty < 4294967296)
    (bounded : ∀ p v, tally surplus (front ++ maker :: rest) p = some v → v.qty + inc.openQty < 4294967296) (small : d.lastChange < 4294967296) :
    ∃ d', d.hear all (Trade.typed ptr taker ⟨inc,maker,q⟩) = .returned d' () ∧
      Awaits d' inc.isBuy f inc.price ignores (inc.openQty - q) ∧
      Tracks d' (!inc.isBuy) (tally surplus (front ++ (Matching.kept (maker.fill q c) ++ rest))) 0 ∧ Changes 2 d d' := by
  have held : tally surplus (front ++ maker :: rest) maker.price = _ := tally_mid_self
  obtain ⟨counted,inLevel⟩ := openQty_le_tally held
  have total := bounded _ _ held
  generalize Tally.mk _ _ = v at held counted inLevel total
  have half : ¬ (q = inc.openQty ∧ q = maker.openQty) → 2 * q < 4294967296 := by
    cases least with
    | inl isAll => omega
    | inr isAll => omega
  rw [hear_trade d known known' priced priced' q,apart]
  obtain ⟨d₁,filled₁,turns₁⟩ := fillOrder_spec (decide (maker.openQty - q = 0)) tracks held counted some' (by omega) (by omega)
    fun notFull => half fun both => of_decide_eq_false notFull (by omega)
  have others := turns₁.others
  rw [Bool.not_not] at others
  have awaits₁ : Awaits d₁ inc.isBuy f inc.price ignores inc.openQty := by
    unfold Awaits at awaits ⊢
    split_ifs at awaits ⊢
    · exact others _ _ awaits
    · exact others _ _ awaits
  have changes₁ := turns₁.changes small
  obtain ⟨d₂,filled₂,awaits₂,others₂,changes₂⟩ := awaits₁.fill some' enough stays fits
    (fun notIgnored => half fun both => by have := stays notIgnored; omega) changes₁.small
  refine ⟨d₂,?_,awaits₂,?_,changes₁.trans changes₂⟩
  · rw [filled₁]
    exact filled₂
  · rw [tally_fill sized' enough' held]
    exact others₂ _ _ turns₁.tracks

/-- The depth hears of the trades of a pass. The induction follows the pass. -/
theorem hear_trades (makers : List SimpleOrder) : ∀ (inc : SimpleOrder) (d : Depth size) (front : List SimpleOrder), inc.Sized →
    Known all taker inc → 1 ≤ inc.price →
    (∀ m ∈ makers, m.Sized ∧ Book.PlainOrder m ∧ m.isBuy = !inc.isBuy ∧ Known all (ptr m.orderId) m) →
    Awaits d inc.isBuy f inc.price ignores inc.openQty → Tracks d (!inc.isBuy) (tally surplus (front ++ makers)) 0 →
    (ignores = false → (Matching.regular inc makers).inc.openQty ≠ 0) → (Tally.added (f inc.price) inc.openQty).qty < 4294967296 →
    (∀ p v, tally surplus (front ++ makers) p = some v → v.qty + inc.openQty < 4294967296) → d.lastChange < 4294967296 →
    ∃ d', d.hearAll all ((Matching.regular inc makers).trades.map (Trade.typed ptr taker)) = .returned d' () ∧
      Awaits d' inc.isBuy f inc.price ignores (Matching.regular inc makers).inc.openQty ∧
      Tracks d' (!inc.isBuy) (tally surplus (front ++ (Matching.regular inc makers).makers)) 0 ∧
      Changes (2 * (Matching.regular inc makers).trades.length) d d' := by
  induction makers with
  | nil =>
    intro inc d front _ _ _ _ awaits tracks _ _ _ small
    exact ⟨d,rfl,awaits,tracks,Changes.refl small⟩
  | cons maker rest ih =>
    intro inc d front sized known priced each awaits tracks stays fits bounded small
    obtain ⟨⟨sized',plain,apart,known'⟩,eachRest⟩ := List.forall_mem_cons.mp each
    by_cases stop : inc.openQty = 0 ∨ crosses maker inc = false
    · rw [Matching.regular_stop rest stop]
      exact ⟨d,rfl,awaits,tracks,Changes.refl small⟩
    · have needs : inc.openQty ≠ 0 := fun done => stop (.inl done)
      have crossed : crosses maker inc := by simpa using fun apart => stop (.inr apart)
      have regular : maker.allOrNone = false := plain.regular.1
      have opened : maker.openQty ≠ 0 := Nat.pos_iff_ne_zero.mp plain.opened
      rw [Matching.regular_take rest needs crossed (by simp [regular])] at stays ⊢
      have positive : 0 < min inc.openQty maker.openQty := by omega
      have enough : min inc.openQty maker.openQty ≤ inc.openQty := Nat.min_le_left _ _
      have enough' : min inc.openQty maker.openQty ≤ maker.openQty := Nat.min_le_right _ _
      have least : min inc.openQty maker.openQty = inc.openQty ∨ min inc.openQty maker.openQty = maker.openQty := by omega
      generalize min inc.openQty maker.openQty = q at positive enough enough' least stays ⊢
      have remains := sized.openQty_fill (c := Market.cost maker q) enough
      have stays' : ignores = false → q < inc.openQty := by
        intro counts
        by_contra all
        have done : (inc.fill q (Market.cost maker q)).openQty = 0 := by omega
        exact stays counts ((congrArg SimpleOrder.openQty (regular_done done rest)).trans done)
      obtain ⟨d₁,heard₁,awaits₁,tracks₁,changes₁⟩ := hear_fill (c := Market.cost maker q) sized' known known' priced plain.price.1 apart
        awaits tracks positive enough enough' least stays' fits bounded small
      have fits₁ : (Tally.added (f inc.price) (inc.openQty - q)).qty < 4294967296 := by
        rw [added_less _ enough]
        exact Nat.lt_of_le_of_lt (Nat.sub_le ..) fits
      have bounded₁ : ∀ p v, tally surplus (front ++ (Matching.kept (maker.fill q (Market.cost maker q)) ++ rest)) p = some v →
          v.qty + (inc.openQty - q) < 4294967296 := by
        intro p w held
        obtain ⟨v,before,le⟩ := tally_fill_le sized' enough' held
        have bound := bounded p v before
        omega
      rw [← List.append_assoc] at tracks₁ bounded₁
      rw [← remains] at awaits₁ fits₁ bounded₁
      obtain ⟨d₂,heard₂,awaits₂,tracks₂,changes₂⟩ := ih (inc.fill q (Market.cost maker q)) d₁
        (front ++ Matching.kept (maker.fill q (Market.cost maker q))) (sized.fill _ _) (by simpa [Known] using known) (by simpa using priced)
        (fun m member => by simpa using eachRest m member) (by simpa using awaits₁) (by simpa using tracks₁) stays (by simpa using fits₁)
        bounded₁ changes₁.small
      refine ⟨d₂,?_,by simpa [Matching.trade] using awaits₂,?_,?_⟩
      · rw [Matching.trade,List.map_cons,hearAll_cons _ heard₁]
        exact heard₂
      · rw [Matching.trade,← List.append_assoc]
        simpa using tracks₂
      · have changes := changes₁.trans changes₂
        rwa [Nat.add_comm 2,← Nat.mul_succ] at changes

/-! ## A call -/

theorem hear_accept {o : SimpleOrder} {lo : Order} (rest : Nat) (read : all[taker]? = some lo) (isBuy : lo.isBuy = o.isBuy)
    (price : lo.price = o.price) (orderQty : lo.orderQty = o.orderQty) (priced : 1 ≤ o.price) (some' : o.orderQty ≠ 0) (less : rest ≤ o.orderQty)
    (tracks : Tracks d o.isBuy f 0) (fits : (Tally.added (f o.price) o.orderQty).count < 4294967296)
    (fits' : (Tally.added (f o.price) o.orderQty).qty < 4294967296) (small : d.lastChange < 4294967296) :
    ∃ d', d.hear all (.accept taker (o.orderQty - rest)) = .returned d' () ∧
      Awaits d' o.isBuy f o.price (decide (rest = 0)) o.orderQty ∧
      (∀ g k, Tracks d (!o.isBuy) g k → Tracks d' (!o.isBuy) g k) ∧ Changes 1 d d' := by
  have limit := isLimit_of (price ▸ priced)
  simp only [hear,read,onAccept,limit,isBuy,price,orderQty,if_true]
  by_cases atOnce : rest = 0
  · rw [atOnce,Nat.sub_zero,if_pos rfl,decide_eq_true rfl]
    obtain ⟨shows,ignored⟩ := tracks
    unfold ignoreFillQty
    cases isBid : o.isBuy with
    | true =>
      rw [isBid] at shows ignored
      have none : ¬ d.ignoreBidFillQty ≠ 0 := not_not.mpr ignored
      have turns : Turns d true f o.orderQty { d with ignoreBidFillQty := o.orderQty } := turns_ignored shows rfl rfl rfl rfl rfl rfl rfl
      exact ⟨_,by rw [if_pos rfl,if_neg none],turns.tracks,turns.others,turns.changes small⟩
    | false =>
      rw [isBid] at shows ignored
      have none : ¬ d.ignoreAskFillQty ≠ 0 := not_not.mpr ignored
      have turns : Turns d false f o.orderQty { d with ignoreAskFillQty := o.orderQty } := turns_ignored shows rfl rfl rfl rfl rfl rfl rfl
      exact ⟨_,by rw [if_neg (by simp),if_neg none],turns.tracks,turns.others,turns.changes small⟩
  · have notAll : ¬ o.orderQty - rest = o.orderQty := by
      have positive := Nat.pos_of_ne_zero some'
      omega
    obtain ⟨d',added,makes⟩ := addOrder_spec tracks.shows priced fits fits'
    have turns := makes.turns tracks.ignored
    rw [if_neg notAll,decide_eq_false atOnce]
    exact ⟨d',added,turns.tracks,turns.others,turns.changes small⟩

/-- What the change of a book leaves of the depth. -/
theorem Tracks.published (tracks : Tracks d isBid f n) : Tracks d.onOrderBookChange isBid f n := by
  unfold onOrderBookChange
  split_ifs
  · exact ⟨tracks.shows.same rfl rfl rfl,tracks.ignored⟩
  · exact tracks

theorem hear_closing {o remainder : SimpleOrder} (known : Known all taker o) (priced : 1 ≤ o.price)
    (awaits : Awaits d o.isBuy f o.price (decide (remainder.openQty = 0)) remainder.openQty) (small : d.lastChange < 4294967296) :
    ∃ d', d.hearAll all (LiquibookAdapter.typedClosing taker o remainder) = .returned d'.onOrderBookChange () ∧
      Tracks d' o.isBuy (closed f o remainder) 0 ∧ (∀ g k, Tracks d (!o.isBuy) g k → Tracks d' (!o.isBuy) g k) ∧ Changes 1 d d' := by
  have updated : ∀ d : Depth size, d.hearAll all [.bookUpdate] = .returned d.onOrderBookChange () := fun _ => rfl
  have idle : Changes 1 d d := by
    obtain ⟨published,k,few,rest⟩ := Changes.refl small
    exact ⟨published,k,by omega,rest⟩
  unfold LiquibookAdapter.typedClosing closed
  by_cases full : remainder.openQty = 0
  · rw [if_neg fun residual => residual.2 full,if_pos full]
    rw [full] at awaits
    exact ⟨d,updated d,awaits,fun _ _ tracks => tracks,idle⟩
  rw [decide_eq_false full] at awaits
  have tracks : Tracks d o.isBuy (Function.update f o.price (some (.added (f o.price) remainder.openQty))) 0 := awaits
  rw [if_neg full]
  cases isIoc : o.immediateOrCancel with
  | true =>
    rw [if_pos ⟨rfl,full⟩,if_pos rfl]
    obtain ⟨lo,read,isBuy,price⟩ := known
    have limit := isLimit_of (price ▸ priced)
    obtain ⟨d',erased,makes⟩ := closeOrder_spec (q := 0) tracks.shows (Function.update_self ..) (added_pos _ _).1 fun _ => Nat.zero_le _
    have turns := makes.turns tracks.ignored
    rw [Function.update_idem] at turns
    have heard : d.hear all (.cancel taker 0) = .returned d' () := by
      simp only [hear,read,onCancel,limit,isBuy,price,erased,if_true]
      rfl
    refine ⟨d',?_,turns.tracks,turns.others,turns.changes small⟩
    rw [hearAll_cons _ heard]
    exact updated d'
  | false =>
    rw [if_neg fun residual => Bool.noConfusion residual.1,if_neg Bool.false_ne_true]
    exact ⟨d,updated d,tracks,fun _ _ tracks => tracks,idle⟩

/-- The depth has the totals of the resting orders, and of `surplus`. -/
structure Counts (d : Depth size) (surplus : TreeName → Nat → Nat) (b : Book) : Prop where
  sides : ∀ t, t = .bids ∨ t = .asks → Tracks d (decide (t = .bids)) (tally (surplus t) (b.side t)) 0
  small : d.lastChange < 4294967296

theorem Counts.published {surplus : TreeName → Nat → Nat} {b : Book} (counts : Counts d surplus b) : Counts d.onOrderBookChange surplus b := by
  refine ⟨fun t resting => (counts.sides t resting).published,?_⟩
  unfold onOrderBookChange
  split_ifs <;> exact counts.small

/-- The depth hears of an order that is added. -/
theorem Counts.hear_add {surplus : TreeName → Nat → Nat} {b : Book} {o : SimpleOrder} {lo : Order} (counts : Counts d surplus b) (plain : b.Plain)
    (incoming : b.Incoming o) (some' : o.orderQty ≠ 0) (read : all[taker]? = some lo) (isBuy : lo.isBuy = o.isBuy) (price : lo.price = o.price)
    (orderQty : lo.orderQty = o.orderQty) (known : ∀ m ∈ b.side o.opposite, Known all (ptr m.orderId) m)
    (bounded : ∀ t, t = .bids ∨ t = .asks → ∀ p v, tally (surplus t) (b.side t) p = some v → v.qty + o.orderQty < 4294967296) :
    ∃ d', d.hearAll all (.accept taker (o.orderQty - (b.pass o).inc.openQty) :: (b.tradesOf o).map (Trade.typed ptr taker) ++
        LiquibookAdapter.typedClosing taker o (b.pass o).inc) = .returned d'.onOrderBookChange () ∧
      Counts d' (overhang surplus b o) (b.add o) ∧ Changes (2 * (b.tradesOf o).length + 2) d d' := by
  obtain ⟨sized,isOpen,_,notAon,_⟩ := incoming.fields
  obtain ⟨same,sizedInc,left⟩ := Book.pass_inc (b := b) sized
  have isRegular : b.pass o = .regular o (b.side o.opposite) := by simp [Book.pass,Matching.against,notAon]
  have opposite := plain.plainSide o.opposite_cases
  obtain ⟨isBid,isAsk⟩ := LiquibookAdapter.decide_side o
  have own := counts.sides o.side o.side_cases
  have other := counts.sides o.opposite o.opposite_cases
  rw [isBid] at own
  rw [isAsk] at other
  have fits' : (Tally.added (tally (surplus o.side) (b.side o.side) o.price) o.orderQty).qty < 4294967296 := by
    cases held : tally (surplus o.side) (b.side o.side) o.price with
    | none =>
      have bound := sized.orderQty
      exact bound
    | some v => exact bounded _ o.side_cases _ v held
  have fits : (Tally.added (tally (surplus o.side) (b.side o.side) o.price) o.orderQty).count < 4294967296 := by
    cases held : tally (surplus o.side) (b.side o.side) o.price with
    | none => exact (by decide : 1 < 4294967296)
    | some v =>
      have counted := count_le_qty (fun x member => (plain.each o.side x member).opened) held
      have bound := bounded _ o.side_cases _ v held
      show v.count + 1 < 4294967296
      omega
  obtain ⟨d₁,accepted,awaits₁,others₁,changes₁⟩ := hear_accept (b.pass o).inc.openQty read isBuy price orderQty incoming.price some'
    (by omega) own fits fits' counts.small
  have each : ∀ m ∈ b.side o.opposite, m.Sized ∧ Book.PlainOrder m ∧ m.isBuy = !o.isBuy ∧ Known all (ptr m.orderId) m :=
    fun m member => ⟨opposite.sized m member,opposite.each m member,(opposite.isBuy m member).trans isAsk,known m member⟩
  rw [← isOpen] at awaits₁ fits' bounded
  obtain ⟨d₂,traded,awaits₂,other₂,changes₂⟩ := hear_trades (b.side o.opposite) o d₁ [] sized ⟨lo,read,isBuy,price⟩ incoming.price each
    awaits₁ (others₁ _ _ other) (fun counts => by rw [← isRegular]; exact of_decide_eq_false counts) fits' (bounded _ o.opposite_cases) changes₁.small
  rw [← isRegular] at traded awaits₂ other₂ changes₂
  obtain ⟨d₃,ended,own₃,others₃,changes₃⟩ := hear_closing ⟨lo,read,isBuy,price⟩ incoming.price awaits₂ changes₂.small
  have trades : b.tradesOf o = (b.pass o).trades := if_neg some'
  have changes := (changes₁.trans changes₂).trans changes₃
  refine ⟨d₃,?_,⟨?_,changes₃.small⟩,?_⟩
  · rw [trades,List.cons_append,hearAll_cons _ accepted,hearAll_append _ _ traded]
    exact ended
  · intro t resting
    rw [LiquibookAdapter.side_add incoming plain some']
    rcases LiquibookAdapter.side_or_opposite o resting with rfl | rfl
    · rw [isBid,Book.submit_side sized,tally_closed surplus incoming.price same some']
      exact own₃
    · rw [isAsk,Book.submit_opposite sized,overhang_opposite]
      exact others₃ _ _ other₂
  · rw [trades]
    have isSum : 2 * (b.pass o).trades.length + 2 = 1 + 2 * (b.pass o).trades.length + 1 := by omega
    rw [isSum]
    exact changes

/-- The depth hears of an order that is cancelled. -/
theorem Counts.hear_cancel {surplus : TreeName → Nat → Nat} {b : Book} {o : SimpleOrder} {t : TreeName} (counts : Counts d surplus b) (plain : b.Plain)
    (member : o ∈ b.side t) (known : Known all taker o) :
    ∃ d', d.hearAll all [.cancel taker o.openQty,.bookUpdate] = .returned d'.onOrderBookChange () ∧
      Counts d' surplus (b.cancel o.orderId) ∧ Changes 1 d d' := by
  have resting := plain.resting member
  have isBid : o.isBuy = decide (t = .bids) := plain.isBuy resting member
  obtain ⟨L,R,split⟩ := List.append_of_mem member
  have nodup := plain.orderly.nodup t
  have tracks := counts.sides t resting
  rw [split] at tracks nodup
  obtain ⟨lo,read,isBuy,price⟩ := known
  have limit := isLimit_of (price ▸ (plain.each t o member).price.1)
  have held : tally (surplus t) (L ++ o :: R) o.price = _ := tally_mid_self
  obtain ⟨counted,inLevel⟩ := openQty_le_tally held
  obtain ⟨d',closed,makes⟩ := closeOrder_spec (q := o.openQty) tracks.shows held counted fun _ => inLevel
  have turns := makes.turns tracks.ignored
  rw [← tally_close held] at turns
  have changes := turns.changes counts.small
  have heard : d.hear all (.cancel taker o.openQty) = .returned d' () := by
    simp only [hear,read,onCancel,limit,isBuy,price,isBid,closed,if_true]
    rfl
  refine ⟨d',?_,⟨?_,changes.small⟩,changes⟩
  · rw [hearAll_cons _ heard]
    rfl
  · intro t' resting'
    rw [(plain.cancel member).1]
    show Tracks d' _ (tally (surplus t') ((b.eraseFrom t o.orderId).side t')) 0
    rw [Book.side_eraseFrom]
    by_cases same : t' = t
    · subst same
      rw [if_pos rfl,split,filter_middle nodup]
      exact turns.tracks
    · rw [if_neg same]
      have other : decide (t' = .bids) = !decide (t = .bids) := by
        rcases resting with rfl | rfl <;> rcases resting' with rfl | rfl <;> simp at same ⊢
      rw [other]
      refine turns.others _ _ ?_
      rw [← other]
      exact counts.sides t' resting'

/-! ## Publication -/

/-- Everything is published, with at most `n` changes more, and a level that differs has changed since. -/
structure Told (n : Nat) (d d' : Depth size) : Prop where
  published : d'.lastPublishedChange = d'.lastChange
  more : d.lastChange ≤ d'.lastChange
  few : d'.lastChange ≤ d.lastChange + n
  levels : ∀ i < size * 2, d'.level i = d.level i ∨ ∃ c, (d'.level i).lastChange = some c ∧ d.lastChange < c

theorem Told.refl (published : d.lastPublishedChange = d.lastChange) (n : Nat) : Told n d d :=
  ⟨published,Nat.le_refl _,Nat.le_add_right ..,fun _ _ => .inl rfl⟩

theorem Told.trans {d'' : Depth size} {m n : Nat} (first : Told m d d') (second : Told n d' d'') : Told (m + n) d d'' := by
  obtain ⟨_,more,few,levels⟩ := first
  obtain ⟨published,more',few',levels'⟩ := second
  refine ⟨published,by omega,by omega,fun i inside => ?_⟩
  rcases levels' i inside with same | ⟨c,stamp,since⟩
  · rw [same]
    exact levels i inside
  · exact .inr ⟨c,stamp,by omega⟩

/-- A change is published as long as the counter of the changes has not come round. -/
theorem Changes.told {n : Nat} (changes : Changes n d d') (published : d.lastPublishedChange = d.lastChange) (fits : d.lastChange + n < 4294967296) :
    Told n d d'.onOrderBookChange := by
  obtain ⟨samePublished,k,few,lastChange,levels⟩ := changes
  have counted : ∀ j ≤ k, toU32 ((d.lastChange : Int) + j) = d.lastChange + j := by
    intro j most
    exact SimpleOrder.toU32_of_lt (n := d.lastChange + j) (by omega)
  rw [counted k (Nat.le_refl k)] at lastChange
  have same : d'.onOrderBookChange.lastChange = d'.lastChange ∧ ∀ i, d'.onOrderBookChange.level i = d'.level i := by
    unfold onOrderBookChange
    split_ifs <;> exact ⟨rfl,fun _ => rfl⟩
  refine ⟨?_,by omega,by omega,fun i inside => ?_⟩
  · unfold onOrderBookChange changed
    split_ifs with isChanged
    · rfl
    · have notMore := of_decide_eq_false (Bool.not_eq_true _ ▸ isChanged)
      omega
  · rw [same.2]
    refine (levels i inside).imp_right fun ⟨j,positive,most,stamp⟩ => ⟨_,stamp,?_⟩
    rw [counted j most]
    omega

end Depth

end BaboEngine.LiquibookDepth
