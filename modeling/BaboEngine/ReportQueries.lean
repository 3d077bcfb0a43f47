import BaboEngine.Depth
import BaboEngine.ReportLog

/-!
# Queries of the book and of the reports

A ledger that is the same as the book has its two sides in price-time order, its best prices
and its depths.
-/

namespace BaboEngine
open Simulation StableSort

theorem foldr_max_eq {α : Type} [LinearOrder α] {ps : List α} {m p : α} (member : p ∈ ps) (greatest : ∀ q ∈ ps, q ≤ p) (least : m ≤ p) :
    ps.foldr max m = p := by
  have le : ∀ qs : List α, (∀ q ∈ qs, q ≤ p) → qs.foldr max m ≤ p := by
    intro qs
    induction qs with
    | nil => exact fun _ => least
    | cons q qs ih =>
      intro all
      obtain ⟨first,rest⟩ := List.forall_mem_cons.mp all
      exact max_le first (ih rest)
  have ge : p ≤ ps.foldr max m := by
    clear greatest
    induction ps with
    | nil => exact absurd member List.not_mem_nil
    | cons q ps ih =>
      rcases List.mem_cons.mp member with rfl | later
      · exact le_max_left _ _
      · exact (ih later).trans (le_max_right _ _)
  exact le_antisymm (le ps greatest) ge

theorem foldr_min_eq {α : Type} [LinearOrder α] {ps : List α} {m p : α} (member : p ∈ ps) (least : ∀ q ∈ ps, p ≤ q) (greatest : p ≤ m) :
    ps.foldr min m = p :=
  @foldr_max_eq αᵒᵈ _ ps m p member least greatest

namespace LevelsOf
variable {t : TreeName} {os : List SimpleOrder} {d : PriceLevel} {ds : List PriceLevel}

theorem nil (levels : LevelsOf t os []) : os = [] := by
  apply List.eq_nil_iff_forall_not_mem.mpr
  intro o member
  obtain ⟨d,none,_⟩ := (levels.prices (t.key o)).mpr ⟨o,member,rfl⟩
  exact List.not_mem_nil none

/-- No order is better than the first level, and one is there. -/
theorem head (levels : LevelsOf t os (d :: ds)) : (∃ o ∈ os, t.key o = d.price) ∧ ∀ o ∈ os, ¬ t.type.better (t.key o) d.price := by
  refine ⟨(levels.prices d.price).mp ⟨d,List.mem_cons_self,rfl⟩,?_⟩
  intro o member better
  obtain ⟨d',inLevels,isPrice⟩ := (levels.prices (t.key o)).mpr ⟨o,member,rfl⟩
  rw [← isPrice] at better
  rcases List.mem_cons.mp inLevels with rfl | worse
  · exact t.type.better_irrefl _ better
  · exact OrderType.better_asymm better ((List.pairwise_cons.mp levels.sorted).1 d' worse)

end LevelsOf

namespace Logged
variable {seqs : List Nat} {l : Ledger} {b : Book} {t : TreeName}

/-- One side of the ledger is one side of the book. -/
theorem sideOf (logged : Logged seqs l b) (plain : b.Plain) (resting : t = .bids ∨ t = .asks) :
    SameFibers Resting.place (l.restings.filter fun x => x.isBuy = decide (t = .bids)) ((b.side t).map SimpleOrder.resting) := by
  have ofSide : ∀ t', (t' = .bids ∨ t' = .asks) → ((b.side t').map SimpleOrder.resting).filter (fun x => x.isBuy = decide (t = .bids)) =
      if t' = t then (b.side t').map SimpleOrder.resting else [] := by
    intro t' resting'
    split_ifs with same
    · refine List.filter_eq_self.mpr fun x member => ?_
      obtain ⟨o,inSide,rfl⟩ := List.mem_map.mp member
      rw [← same]
      exact decide_eq_true (plain.isBuy resting' inSide)
    · refine List.filter_eq_nil_iff.mpr fun x member => ?_
      obtain ⟨o,inSide,rfl⟩ := List.mem_map.mp member
      have buys : o.resting.isBuy = decide (t' = .bids) := plain.isBuy resting' inSide
      rw [buys]
      rcases resting with rfl | rfl <;> rcases resting' with rfl | rfl <;> simp at same ⊢
  have filtered := logged.same.filter fun x => decide (x.isBuy = decide (t = .bids))
  rw [Book.restings,List.map_append,List.filter_append,ofSide _ (.inl rfl),ofSide _ (.inr rfl)] at filtered
  rcases resting with rfl | rfl
  · simpa using filtered
  · simpa using filtered

/-- The orders of a side, as the ledger has them. -/
theorem mem_side (logged : Logged seqs l b) (plain : b.Plain) (resting : t = .bids ∨ t = .asks) {x : Resting} :
    x ∈ l.restings.filter (fun x => x.isBuy = decide (t = .bids)) ↔ ∃ o ∈ b.side t, o.resting = x :=
  (logged.sideOf plain resting).mem_iff.trans List.mem_map

theorem mem_prices (logged : Logged seqs l b) (plain : b.Plain) (resting : t = .bids ∨ t = .asks) {p : Int} :
    p ∈ (l.restings.filter fun x => x.isBuy = decide (t = .bids)).map Resting.priceTicks ↔ ∃ o ∈ b.side t, (o.price : Int) = p := by
  rw [List.mem_map]
  constructor
  · rintro ⟨x,member,rfl⟩
    obtain ⟨o,inSide,rfl⟩ := (logged.mem_side plain resting).mp member
    exact ⟨o,inSide,rfl⟩
  · rintro ⟨o,inSide,rfl⟩
    exact ⟨o.resting,(logged.mem_side plain resting).mpr ⟨o,inSide,rfl⟩,rfl⟩

/-- A side of the ledger is sorted as the book is. -/
theorem side_eq (logged : Logged seqs l b) (plain : b.Plain) (resting : t = .bids ∨ t = .asks) :
    l.side (decide (t = .bids)) = (b.side t).map SimpleOrder.resting := by
  refine (eq_sortBy ?_ ?_).symm
  · rw [Sorted,List.pairwise_map]
    refine (plain.orderly.sorted t).imp fun {o o'} behind => ?_
    unfold Book.Ahead at behind
    rcases resting with rfl | rfl
    · have le : ¬ o'.price > o.price := behind
      show -(o.price : Int) ≤ -(o'.price : Int)
      omega
    · have le : ¬ o'.price < o.price := behind
      show (o.price : Int) ≤ o'.price
      omega
  · apply SameFibers.by_key (logged.sideOf plain resting).symm (fun k => (decide (t = .bids),if decide (t = .bids) then -k else k))
    intro x k member
    have onSide : x.isBuy = decide (t = .bids) := by
      cases member with
      | inl inBook =>
        obtain ⟨o,inSide,rfl⟩ := List.mem_map.mp inBook
        exact plain.isBuy resting inSide
      | inr inLedger => exact of_decide_eq_true (List.mem_filter.mp inLedger).2
    rw [Resting.place,Prod.mk.injEq,onSide,Resting.key]
    rcases resting with rfl | rfl
    · simp only [decide_true,if_true,true_and]
      omega
    · simp

/-- The best prices of a side. -/
theorem bestBid_eq (logged : Logged seqs l b) (plain : b.Plain) {ds : List PriceLevel} (levels : LevelsOf .bids (b.side .bids) ds) :
    l.bestBid = (ds.head?.map fun d => (d.price : Int)).getD BabobookAdapter.int64Min := by
  have prices := fun p => logged.mem_prices (p := p) plain (.inl rfl : TreeName.bids = .bids ∨ TreeName.bids = .asks)
  rw [Ledger.bestBid]
  cases ds with
  | nil =>
    rw [levels.nil] at prices
    have none : (l.restings.filter fun x => x.isBuy = true).map Resting.priceTicks = [] :=
      List.eq_nil_iff_forall_not_mem.mpr fun p member => by simpa using (prices p).mp member
    rw [none]
    rfl
  | cons d ds =>
    obtain ⟨⟨o,inSide,isPrice⟩,noBetter⟩ := levels.head
    refine foldr_max_eq ((prices d.price).mpr ⟨o,inSide,congrArg Nat.cast isPrice⟩) ?_ ?_
    · intro q member
      obtain ⟨o',inSide',rfl⟩ := (prices q).mp member
      have le : ¬ o'.price > d.price := noBetter o' inSide'
      show (o'.price : Int) ≤ d.price
      omega
    · show (-9223372036854775808 : Int) ≤ d.price
      omega

theorem bestAsk_eq (logged : Logged seqs l b) (plain : b.Plain) {ds : List PriceLevel} (levels : LevelsOf .asks (b.side .asks) ds) :
    l.bestAsk = (ds.head?.map fun d => (d.price : Int)).getD BabobookAdapter.int64Max := by
  have prices := fun p => logged.mem_prices (p := p) plain (.inr rfl : TreeName.asks = .bids ∨ TreeName.asks = .asks)
  rw [Ledger.bestAsk]
  cases ds with
  | nil =>
    rw [levels.nil] at prices
    have none : (l.restings.filter fun x => x.isBuy = false).map Resting.priceTicks = [] :=
      List.eq_nil_iff_forall_not_mem.mpr fun p member => by simpa using (prices p).mp member
    rw [none]
    rfl
  | cons d ds =>
    obtain ⟨⟨o,inSide,isPrice⟩,noBetter⟩ := levels.head
    refine foldr_min_eq ((prices d.price).mpr ⟨o,inSide,congrArg Nat.cast isPrice⟩) ?_ ?_
    · intro q member
      obtain ⟨o',inSide',rfl⟩ := (prices q).mp member
      have le : ¬ o'.price < d.price := noBetter o' inSide'
      show (d.price : Int) ≤ o'.price
      omega
    · have small := (plain.each _ o inSide).price.2
      have isPrice' : o.price = d.price := isPrice
      show (d.price : Int) ≤ 9223372036854775807
      omega

theorem depthAt_eq (logged : Logged seqs l b) (plain : b.Plain) (resting : t = .bids ∨ t = .asks) (p : Nat) :
    l.depthAt p (decide (t = .bids)) = (((b.side t).filter fun o => o.price = p).map SimpleOrder.openQty).sum := by
  have perm := ((logged.sideOf plain resting).perm.filter fun x => decide (x.priceTicks = (p : Int))).map Resting.quantity
  have ofBook : (((b.side t).map SimpleOrder.resting).filter fun x => decide (x.priceTicks = (p : Int))).map Resting.quantity =
      ((b.side t).filter fun o => o.price = p).map fun o => (o.openQty : Int) := by
    rw [List.filter_map,List.map_map]
    refine congrArg _ (List.filter_congr fun o _ => decide_eq_decide.mpr ?_)
    exact Int.ofNat_inj
  rw [ofBook,List.filter_filter] at perm
  have cast : (((((b.side t).filter fun o => o.price = p).map SimpleOrder.openQty).sum : Nat) : Int) = _ :=
    map_list_sum (Nat.castAddMonoidHom Int) _
  rw [Ledger.depthAt,cast,List.map_map]
  refine Eq.trans ?_ perm.sum_eq
  congr 2
  exact List.filter_congr fun x _ => by simp [Bool.and_comm]

end Logged

namespace BabobookAdapter
variable {N : Capacity} {a : BabobookAdapter N} {d : Desk} {seqs : List Nat} {l : Ledger}
open MatchingBook

/-- The best price is that of the first level. -/
theorem bestOr_eq {s : TreeState N} {type : OrderType} {ds : List PriceLevel} (walked : s.priceLevels type = some ds) (none : Int) :
    bestOr s none = some ((ds.head?.map fun d => (d.price : Int)).getD none) := by
  unfold TreeState.priceLevels at walked
  unfold bestOr
  cases best : s.best with
  | none =>
    rw [best] at walked
    obtain rfl : ds = [] := (Option.some.inj walked).symm
    rfl
  | some lvl =>
    rw [best] at walked
    simp only [TreeState.levelsFrom,Option.bind_eq_bind,Option.bind_eq_some_iff] at walked
    obtain ⟨d,read,rest,_,isDs⟩ := walked
    obtain rfl := Option.some.inj isDs
    simp [read]

theorem engineQueryBestBid_eq (follows : Follows a d) (plain : d.book.Plain) (logged : Logged seqs l d.book) :
    a.engineQueryBestBid = some l.bestBid := by
  obtain ⟨ds,walked,levels⟩ := follows.book.levelsOf .bids
  rw [logged.bestBid_eq plain levels]
  exact bestOr_eq walked _

theorem engineQueryBestAsk_eq (follows : Follows a d) (plain : d.book.Plain) (logged : Logged seqs l d.book) :
    a.engineQueryBestAsk = some l.bestAsk := by
  obtain ⟨ds,walked,levels⟩ := follows.book.levelsOf .asks
  rw [logged.bestAsk_eq plain levels]
  exact bestOr_eq walked _

/-- The sum does not wrap if all the quantities together fit. -/
theorem sumAt_eq (price : Nat) (os : List SimpleOrder) (small : (os.map SimpleOrder.openQty).sum < 18446744073709551616) :
    sumAt price os = ((os.filter fun o => o.price = price).map SimpleOrder.openQty).sum := by
  have loop : ∀ (os : List SimpleOrder) (total : Nat), total + (os.map SimpleOrder.openQty).sum < 18446744073709551616 →
      os.foldl (fun total o => if o.price = price then toU64 (total + o.openQty) else total) total =
        total + ((os.filter fun o => o.price = price).map SimpleOrder.openQty).sum := by
    intro os
    induction os with
    | nil => exact fun _ _ => rfl
    | cons o os ih =>
      intro total fits
      rw [List.map_cons,List.sum_cons] at fits
      rw [List.foldl_cons]
      by_cases here : o.price = price
      · have kept : (o :: os).filter (fun o => o.price = price) = o :: os.filter fun o => o.price = price := by simp [here]
        rw [if_pos here,toU64_of_lt (by omega),ih _ (by omega),kept,List.map_cons,List.sum_cons,Nat.add_assoc]
      · have left : (o :: os).filter (fun o => o.price = price) = os.filter fun o => o.price = price := by simp [here]
        rw [if_neg here,ih _ (by omega),left]
  have all := loop os 0 (by omega)
  rw [Nat.zero_add] at all
  exact all

/-- The open quantities of a side fit in 64 bits, as its ids are different and fit in 32. -/
theorem openQty_total {b : Book} (plain : b.Plain) (t : TreeName) : ((b.side t).map SimpleOrder.openQty).sum < 18446744073709551616 := by
  have inRange : (ids (b.side t)).length ≤ 4294967296 := by
    have within : ids (b.side t) ⊆ List.range 4294967296 := by
      intro id member
      obtain ⟨o,inSide,rfl⟩ := List.mem_map.mp member
      exact List.mem_range.mpr (plain.each t o inSide).orderId
    have le := ((plain.orderly.nodup t).subperm within).length_le
    rwa [List.length_range] at le
  have each : ∀ q ∈ (b.side t).map SimpleOrder.openQty, q ≤ 4294967295 := by
    intro q member
    obtain ⟨o,inSide,rfl⟩ := List.mem_map.mp member
    have sized := plain.orderly.sized.1 t o inSide
    have isOpen := sized.openQty
    have small := sized.orderQty
    omega
  have total := List.sum_le_card_nsmul _ _ each
  rw [List.length_map,nsmul_eq_mul,Nat.cast_id] at total
  rw [ids,List.length_map] at inRange
  omega

/-- The query sums up the orders of a side. -/
theorem engineQueryDepthAt_book (follows : Follows a d) (p : Int) (side : UInt8) :
    a.engineQueryDepthAt p side = some (sumAt (toU32 p) (d.book.side (if side = 0 then .bids else .asks))) := by
  obtain ⟨os,walked,isBook⟩ := Option.map_eq_some_iff.mp (follows.book.snapshot (if side = 0 then .bids else .asks))
  rw [engineQueryDepthAt,walked,Option.map_some,← isBook,sumAt,sumAt,List.foldl_map]
  rfl

/-- The depth at any price, which the adapter cuts to 32 bits. -/
theorem engineQueryDepthAt_eq (follows : Follows a d) (plain : d.book.Plain) (logged : Logged seqs l d.book) (p : Int) (side : UInt8) :
    ∃ n : Nat, a.engineQueryDepthAt p side = some n ∧ (n : Int) = l.depthAt (toU32 p) (decide (side = 0)) := by
  have resting : ∃ t, (t = .bids ∨ t = .asks) ∧ (if side = 0 then TreeName.bids else .asks) = t ∧ decide (side = 0) = decide (t = .bids) := by
    by_cases buys : side = 0
    · exact ⟨.bids,.inl rfl,if_pos buys,by simp [buys]⟩
    · exact ⟨.asks,.inr rfl,if_neg buys,by simp [buys]⟩
  obtain ⟨t,isResting,isTree,isSide⟩ := resting
  refine ⟨_,engineQueryDepthAt_book follows p side,?_⟩
  rw [isTree,isSide,logged.depthAt_eq plain isResting,sumAt_eq _ _ (openQty_total plain t)]

end BabobookAdapter

end BaboEngine
