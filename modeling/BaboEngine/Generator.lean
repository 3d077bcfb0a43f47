import BaboEngine.Lifetimes
import BaboEngine.Workload
import Mathlib.Data.List.Sort

/-!
# The workload generator

`generate` of `generator.cpp`, with what the random numbers come to as a parameter. The clock
of the expansion never goes back, so the stable sort at the end has nothing to do: the
messages of an order stand together, in the order of its life (`lives_contiguous`). The harness
loads the file of a timeline that is not too long, and the adapters admit what it loads exactly
where the prices of the orders, also the changed ones, are in range (`generated_admissible_iff`).
-/

namespace BaboEngine.Generator
open Workload (Msg WorkloadMsg)
open Simulation

def maxLevel : Nat := 799

def msgNew : UInt8 := 0
def msgCancel : UInt8 := 1
def msgModify : UInt8 := 2

/-! ## What is drawn -/

/-- A round of phase 1: the mid price in ticks, the index that the search over the distribution function finds, and a quantity. -/
structure Placement where
  midTicks : Int64
  found : Nat
  qty : UInt32

/-- A round of phase 2: the outcomes of the comparisons, and the times that are drawn. -/
structure Life where
  isIoc : Bool
  modify : Bool
  tmod : Int64
  reprice : Bool
  cancel : Bool
  ttl : Int64
  dupCancel : Bool
  cancelGap : Int64
  dupModify : Bool
  modifyGap : Int64

/-- What the random numbers of a run come to. -/
structure Draws where
  placements : Nat → Placement
  swaps : (i : Nat) → Fin (i + 1)
  lives : Nat → Life

/-! ## Phase 1 -/

structure NewOrder where
  side : UInt8
  priceTicks : Int64
  qty : UInt32
  lvl : Nat
deriving DecidableEq

/-- `LevelSampler::sample`. -/
def sample (found : Nat) : Nat := if found > maxLevel then maxLevel else found

def place (count i : Nat) (p : Placement) : NewOrder :=
  let lvl := sample p.found
  let isBuy := decide (i < count / 2)
  let px := if isBuy then p.midTicks - Int64.ofNat (lvl + 1) else p.midTicks + Int64.ofNat (lvl + 1)
  let px := if px < 1 then 1 else px
  ⟨if isBuy then 0 else 1,px,p.qty,lvl⟩

def news (count : Nat) (draws : Draws) : List NewOrder := (List.range count).map fun i => place count i (draws.placements i)

/-! ## Phase 2 -/

/-- The loop of the shuffle, from `i` down. -/
def shuffleLoop (swaps : (i : Nat) → Fin (i + 1)) : Nat → Array Nat → Array Nat
  | 0, order => order
  | i + 1, order => shuffleLoop swaps i (order.swapIfInBounds (i + 1) (swaps (i + 1)))

def shuffled (count : Nat) (draws : Draws) : List Nat := (shuffleLoop draws.swaps (count - 1) (Array.range count)).toList

/-- A round of the loop that expands the lifecycle, from the time `now` on. -/
def lifecycle (now : Int64) (oid : UInt64) (n : NewOrder) (d : Life) : List Msg × Int64 :=
  let tl := [⟨now,msgNew,n.side,if d.isIoc then 1 else 0,n.qty,oid,n.priceTicks⟩]
  if d.isIoc then (tl,now + 1)
  else
    let mqty := n.qty + 1
    let (tl,now,mprice,modified) := if d.modify then
        let tmod := now + 30 + d.tmod
        let mprice := if d.reprice then n.priceTicks + (if n.side = 0 then 1 else -1) else n.priceTicks
        (tl ++ [⟨tmod,msgModify,n.side,0,mqty,oid,mprice⟩],tmod,mprice,true)
      else (tl,now,n.priceTicks,false)
    let (tl,now,cancelled) := if d.cancel then
        let tl := tl ++ [⟨now + d.ttl,msgCancel,n.side,0,n.qty,oid,n.priceTicks⟩]
        let now := now + d.ttl
        if d.dupCancel then
          let gap := 1 + d.cancelGap
          (tl ++ [⟨now + gap,msgCancel,n.side,0,n.qty,oid,n.priceTicks⟩],now + gap,true)
        else (tl,now,true)
      else (tl,now,false)
    let (tl,now) := if modified && cancelled && d.dupModify then
        let gap := 1 + d.modifyGap
        (tl ++ [⟨now + gap,msgModify,n.side,0,mqty,oid,mprice⟩],now + gap)
      else (tl,now)
    (tl,now + 1)

/-- The loop over the shuffled orders. -/
def expandLoop (news : List NewOrder) : Int64 → List (Nat × Life) → Option (List Msg)
  | _, [] => some []
  | now, (i,d) :: rest => do
    let n ← news[i]?
    let (tl,now) := lifecycle now (UInt64.ofNat i + 1) n d
    some (tl ++ (← expandLoop news now rest))

/-- `std::stable_sort` by the time. -/
def stableSort (tl : List Msg) : List Msg := tl.insertionSort fun a b => ¬ b.ts < a.ts

/-- The order in which the lives are expanded. -/
def arrivals (count : Nat) (draws : Draws) : List (Nat × Life) := (shuffled count draws).zipIdx.map fun p => (p.1,draws.lives p.2)

def generate (count : Nat) (draws : Draws) : Option (List Msg) := (expandLoop (news count draws) 0 (arrivals count draws)).map stableSort

/-! ## The life of an order -/

inductive Request where
  | new
  | modify
  | cancel
deriving DecidableEq

/-- The requests of an order, each with the time since the one before. -/
def Life.requests (d : Life) : List (Request × Int64) :=
  (.new,0) :: if d.isIoc then [] else
    (if d.modify then [(.modify,30 + d.tmod)] else []) ++
    (if d.cancel then (.cancel,d.ttl) :: if d.dupCancel then [(.cancel,1 + d.cancelGap)] else [] else []) ++
    if d.modify && d.cancel && d.dupModify then [(.modify,1 + d.modifyGap)] else []

/-- A request as a message. -/
def NewOrder.request (n : NewOrder) (oid : UInt64) (d : Life) (ts : Int64) : Request → Msg
  | .new => ⟨ts,msgNew,n.side,if d.isIoc then 1 else 0,n.qty,oid,n.priceTicks⟩
  | .modify => ⟨ts,msgModify,n.side,0,n.qty + 1,oid,if d.reprice then n.priceTicks + (if n.side = 0 then 1 else -1) else n.priceTicks⟩
  | .cancel => ⟨ts,msgCancel,n.side,0,n.qty,oid,n.priceTicks⟩

/-- Requests one after the other, and the time of the last one. -/
def timed (message : Int64 → Request → Msg) : Int64 → List (Request × Int64) → List Msg × Int64
  | now, [] => ([],now)
  | now, (q,delay) :: rest => (message (now + delay) q :: (timed message (now + delay) rest).1,(timed message (now + delay) rest).2)

theorem lifecycle_eq (now : Int64) (oid : UInt64) (n : NewOrder) (d : Life) : lifecycle now oid n d =
    ((timed (n.request oid d) now d.requests).1,(timed (n.request oid d) now d.requests).2 + 1) := by
  obtain ⟨isIoc,modify,tmod,reprice,cancel,ttl,dupCancel,cancelGap,dupModify,modifyGap⟩ := d
  cases isIoc
  · cases modify <;> cases cancel <;> cases dupCancel <;> cases dupModify <;>
      simp [lifecycle,Life.requests,timed,NewOrder.request,Int64.add_assoc]
  · simp [lifecycle,Life.requests,timed,NewOrder.request]

/-! ## The clock -/

/-- The longest time between two requests of an order. -/
def longest : Int := 2 ^ 24

/-- The times that are drawn are what the distributions can give. -/
structure Life.InBounds (d : Life) : Prop where
  tmod : 0 ≤ d.tmod.toInt ∧ d.tmod.toInt < 70
  ttl : 0 ≤ d.ttl.toInt ∧ d.ttl.toInt < longest
  cancelGap : 0 ≤ d.cancelGap.toInt ∧ d.cancelGap.toInt < 20
  modifyGap : 0 ≤ d.modifyGap.toInt ∧ d.modifyGap.toInt < 20

instance (d : Life) : Decidable d.InBounds :=
  decidable_of_iff ((0 ≤ d.tmod.toInt ∧ d.tmod.toInt < 70) ∧ (0 ≤ d.ttl.toInt ∧ d.ttl.toInt < longest) ∧
      (0 ≤ d.cancelGap.toInt ∧ d.cancelGap.toInt < 20) ∧ 0 ≤ d.modifyGap.toInt ∧ d.modifyGap.toInt < 20)
    ⟨fun ⟨tmod,ttl,cancelGap,modifyGap⟩ => ⟨tmod,ttl,cancelGap,modifyGap⟩,
      fun ⟨tmod,ttl,cancelGap,modifyGap⟩ => ⟨tmod,ttl,cancelGap,modifyGap⟩⟩

theorem toInt_add {a b : Int64} (low : -2 ^ 63 ≤ a.toInt + b.toInt) (high : a.toInt + b.toInt < 2 ^ 63) :
    (a + b).toInt = a.toInt + b.toInt := by
  rw [Int64.toInt_add]
  exact Int.bmod_eq_of_le (by omega) (by omega)

theorem Life.request_cases {d : Life} {q : Request × Int64} (member : q ∈ d.requests) : q = (.new,0) ∨ q = (.modify,30 + d.tmod) ∨
    q = (.cancel,d.ttl) ∨ q = (.cancel,1 + d.cancelGap) ∨ q = (.modify,1 + d.modifyGap) := by
  unfold requests at member
  split_ifs at member <;> simp at member <;> tauto

theorem Life.InBounds.delays {d : Life} (bounds : d.InBounds) : ∀ q ∈ d.requests, 0 ≤ q.2.toInt ∧ q.2.toInt ≤ longest := by
  have small : ∀ a b : Int64, a.toInt = 1 ∨ a.toInt = 30 → 0 ≤ b.toInt ∧ b.toInt < 70 → 0 ≤ (a + b).toInt ∧ (a + b).toInt ≤ longest := by
    intro a b fixed drawn
    rw [toInt_add (by omega) (by omega)]
    unfold longest
    omega
  intro q member
  rcases d.request_cases member with rfl | rfl | rfl | rfl | rfl
  · exact (by decide : 0 ≤ (0 : Int64).toInt ∧ (0 : Int64).toInt ≤ longest)
  · exact small 30 d.tmod (.inr rfl) bounds.tmod
  · exact ⟨bounds.ttl.1,bounds.ttl.2.le⟩
  · exact small 1 d.cancelGap (.inl rfl) (by have := bounds.cancelGap; omega)
  · exact small 1 d.modifyGap (.inl rfl) (by have := bounds.modifyGap; omega)

theorem length_requests (d : Life) : d.requests.length ≤ 5 := by
  unfold Life.requests
  split_ifs <;> simp

/-- The times of some messages ascend from one time to another. -/
structure Between (since until_ : Int64) (tl : List Msg) : Prop where
  sorted : tl.Pairwise fun a b => a.ts ≤ b.ts
  notBefore : ∀ m ∈ tl, since ≤ m.ts
  notAfter : ∀ m ∈ tl, m.ts ≤ until_
  forward : since ≤ until_

theorem Between.nil {now : Int64} : Between now now [] := ⟨.nil,by simp,by simp,Int64.le_refl now⟩

theorem Between.append {now mid last : Int64} {tl tl' : List Msg} (first : Between now mid tl) (second : Between mid last tl') :
    Between now last (tl ++ tl') where
  sorted := List.pairwise_append.mpr ⟨first.sorted,second.sorted,fun a inFirst b inSecond =>
    Int64.le_trans (first.notAfter a inFirst) (second.notBefore b inSecond)⟩
  notBefore m member := (List.mem_append.mp member).elim (first.notBefore m) fun later => Int64.le_trans first.forward (second.notBefore m later)
  notAfter m member := (List.mem_append.mp member).elim (fun early => Int64.le_trans (first.notAfter m early) second.forward) (second.notAfter m)
  forward := Int64.le_trans first.forward second.forward

theorem between_timed {message : Int64 → Request → Msg} (stamped : ∀ now q, (message now q).ts = now) (qs : List (Request × Int64)) :
    ∀ now : Int64, (∀ q ∈ qs, 0 ≤ q.2.toInt ∧ q.2.toInt ≤ longest) → 0 ≤ now.toInt → now.toInt + longest * qs.length < 2 ^ 63 →
      Between now (timed message now qs).2 (timed message now qs).1 ∧ (timed message now qs).2.toInt ≤ now.toInt + longest * qs.length := by
  induction qs with
  | nil => exact fun now _ _ _ => ⟨.nil,by simp [timed]⟩
  | cons q qs ih =>
    intro now delays positive small
    obtain ⟨first,rest⟩ := List.forall_mem_cons.mp delays
    rw [List.length_cons,Nat.cast_succ,Int.mul_add,Int.mul_one] at small
    have room : 0 ≤ longest * qs.length := Int.mul_nonneg (by decide) (Int.natCast_nonneg _)
    have moved : (now + q.2).toInt = now.toInt + q.2.toInt := toInt_add (by omega) (by omega)
    have onward : now ≤ now + q.2 := Int64.le_iff_toInt_le.mpr (by omega)
    obtain ⟨later,bound⟩ := ih (now + q.2) rest (by omega) (by omega)
    have one : Between now (now + q.2) [message (now + q.2) q.1] := by
      refine ⟨List.pairwise_singleton _ _,?_,?_,onward⟩
      · simp [stamped,onward]
      · simp [stamped]
    refine ⟨one.append later,?_⟩
    rw [List.length_cons,Nat.cast_succ,Int.mul_add,Int.mul_one]
    show (timed message (now + q.2) qs).2.toInt ≤ _
    omega

/-! ## The timeline -/

/-- A message without its time. -/
def untimed (m : Msg) : Msg := { m with ts := 0 }

/-- The requests of the order with the index `i`. -/
def messagesOf (n : NewOrder) (i : Nat) (d : Life) : List Msg := d.requests.map fun q => n.request (UInt64.ofNat i + 1) d 0 q.1

theorem untimed_timed (n : NewOrder) (i : Nat) (d : Life) (qs : List (Request × Int64)) : ∀ now : Int64,
    (timed (n.request (UInt64.ofNat i + 1) d) now qs).1.map untimed = qs.map fun q => n.request (UInt64.ofNat i + 1) d 0 q.1 := by
  induction qs with
  | nil => exact fun _ => rfl
  | cons q qs ih =>
    intro now
    obtain ⟨request,delay⟩ := q
    show untimed _ :: List.map untimed _ = _
    rw [ih,List.map_cons]
    cases request <;> rfl

/-- How far a round may take the clock. -/
def round : Int := 5 * longest + 1

theorem lifecycle_spec (n : NewOrder) (i : Nat) {d : Life} (bounds : d.InBounds) {now : Int64} (positive : 0 ≤ now.toInt)
    (small : now.toInt + round < 2 ^ 63) : Between now (lifecycle now (UInt64.ofNat i + 1) n d).2 (lifecycle now (UInt64.ofNat i + 1) n d).1 ∧
      (lifecycle now (UInt64.ofNat i + 1) n d).2.toInt ≤ now.toInt + round ∧
      (lifecycle now (UInt64.ofNat i + 1) n d).1.map untimed = messagesOf n i d := by
  have few : (d.requests.length : Int) ≤ 5 := by exact_mod_cast length_requests d
  have room : longest * d.requests.length ≤ longest * 5 := Int.mul_le_mul_of_nonneg_left few (by decide)
  unfold round at small ⊢
  have stamped : ∀ ts q, (n.request (UInt64.ofNat i + 1) d ts q).ts = ts := by
    intro ts q
    cases q <;> rfl
  obtain ⟨between,bound⟩ := between_timed stamped d.requests now bounds.delays positive (by omega)
  have forward := Int64.le_iff_toInt_le.mp between.forward
  rw [lifecycle_eq]
  have one : (1 : Int64).toInt = 1 := rfl
  have moved := toInt_add (a := (timed (n.request (UInt64.ofNat i + 1) d) now d.requests).2) (b := 1) (by omega) (by omega)
  refine ⟨?_,by show Int64.toInt (_ + 1) ≤ _; omega,untimed_timed n i d d.requests now⟩
  have tick : Between (timed (n.request (UInt64.ofNat i + 1) d) now d.requests).2
      ((timed (n.request (UInt64.ofNat i + 1) d) now d.requests).2 + 1) [] :=
    ⟨.nil,by simp,by simp,Int64.le_iff_toInt_le.mpr (by omega)⟩
  have later := between.append tick
  rwa [List.append_nil] at later

theorem expandLoop_spec {news : List NewOrder} (order : Nat → NewOrder) (lives : List (Nat × Life)) : ∀ now : Int64,
    (∀ p ∈ lives, news[p.1]? = some (order p.1) ∧ p.2.InBounds) → 0 ≤ now.toInt → now.toInt + round * lives.length < 2 ^ 63 →
    ∃ tl last, expandLoop news now lives = some tl ∧ Between now last tl ∧
      tl.map untimed = lives.flatMap fun p => messagesOf (order p.1) p.1 p.2 := by
  induction lives with
  | nil => exact fun now _ _ _ => ⟨[],now,rfl,.nil,rfl⟩
  | cons p lives ih =>
    intro now all positive small
    obtain ⟨⟨found,bounds⟩,rest⟩ := List.forall_mem_cons.mp all
    have room : 0 ≤ round * lives.length := Int.mul_nonneg (by decide) (Int.natCast_nonneg _)
    rw [List.length_cons,Nat.cast_succ,Int.mul_add,Int.mul_one] at small
    obtain ⟨between,bound,content⟩ := lifecycle_spec (order p.1) p.1 bounds positive (by omega)
    have forward := Int64.le_iff_toInt_le.mp between.forward
    obtain ⟨tl,last,expanded,later,contents⟩ := ih (lifecycle now (UInt64.ofNat p.1 + 1) (order p.1) p.2).2 rest (by omega) (by omega)
    refine ⟨_,last,?_,between.append later,?_⟩
    · obtain ⟨i,d⟩ := p
      simp only [expandLoop,found,expanded,Option.bind_eq_bind,Option.bind_some]
    · rw [List.map_append,content,contents,List.flatMap_cons]

/-! ## The run -/

theorem shuffleLoop_perm (swaps : (i : Nat) → Fin (i + 1)) (n : Nat) : ∀ order : Array Nat, (shuffleLoop swaps n order).toList.Perm order.toList := by
  induction n with
  | zero => exact fun _ => .refl _
  | succ n ih =>
    intro order
    refine (ih _).trans ?_
    unfold Array.swapIfInBounds
    split_ifs
    · exact Array.perm_iff_toList_perm.mp (Array.swap_perm ..)
    · exact .refl _
    · exact .refl _

theorem shuffled_perm (count : Nat) (draws : Draws) : (shuffled count draws).Perm (List.range count) := by
  have perm := shuffleLoop_perm draws.swaps (count - 1) (Array.range count)
  rwa [Array.toList_range] at perm

/-- What the distributions can give in a run of so many orders, with mid prices that leave room for the distances. -/
structure Draws.InBounds (draws : Draws) (count : Nat) : Prop where
  midTicks : ∀ i < count, 0 ≤ (draws.placements i).midTicks.toInt ∧ (draws.placements i).midTicks.toInt < 2 ^ 62
  lives : ∀ k < count, (draws.lives k).InBounds

/-- The order with the index `i`. -/
def orderOf (count : Nat) (draws : Draws) (i : Nat) : NewOrder := place count i (draws.placements i)

theorem news_getElem (count : Nat) (draws : Draws) {i : Nat} (inside : i < count) : (news count draws)[i]? = some (orderOf count draws i) := by
  simp [news,inside,orderOf]

theorem mem_arrivals {count : Nat} {draws : Draws} {p : Nat × Life} (member : p ∈ arrivals count draws) :
    p.1 < count ∧ ∃ k < count, p.2 = draws.lives k := by
  obtain ⟨⟨i,k⟩,inside,rfl⟩ := List.mem_map.mp member
  obtain ⟨_,small,isOrder⟩ := List.mem_zipIdx inside
  have length := (shuffled_perm count draws).length_eq
  rw [List.length_range] at length
  have inRange : i ∈ shuffled count draws := by
    rw [isOrder]
    exact List.getElem_mem _
  exact ⟨List.mem_range.mp ((shuffled_perm count draws).mem_iff.mp inRange),k,by omega,rfl⟩

theorem arrivals_map_fst (count : Nat) (draws : Draws) : (arrivals count draws).map Prod.fst = shuffled count draws := by
  rw [arrivals,List.map_map]
  exact List.zipIdx_map_fst ..

/-- The timeline as it is expanded is in the order of time. -/
theorem stableSort_of_sorted {tl : List Msg} (sorted : tl.Pairwise fun a b => a.ts ≤ b.ts) : stableSort tl = tl :=
  List.Pairwise.insertionSort_eq (sorted.imp fun le => Int64.not_lt.mpr le)

/-- The stable sort finds the timeline in order, one life after the other as the orders have been shuffled. -/
theorem generate_spec (count : Nat) (draws : Draws) (lives : ∀ k < count, (draws.lives k).InBounds) (few : count ≤ 2 ^ 32) :
    ∃ tl, generate count draws = some tl ∧ expandLoop (news count draws) 0 (arrivals count draws) = some tl ∧
      (tl.Pairwise fun a b => a.ts ≤ b.ts) ∧
      tl.map untimed = (arrivals count draws).flatMap fun p => messagesOf (orderOf count draws p.1) p.1 p.2 := by
  have all : ∀ p ∈ arrivals count draws, (news count draws)[p.1]? = some (orderOf count draws p.1) ∧ p.2.InBounds := by
    intro p member
    obtain ⟨inside,k,small,isLife⟩ := mem_arrivals member
    exact ⟨news_getElem count draws inside,isLife ▸ lives k small⟩
  have length : (arrivals count draws).length = count := by
    rw [← List.length_map Prod.fst,arrivals_map_fst,(shuffled_perm count draws).length_eq,List.length_range]
  have room : round * ((arrivals count draws).length : Int) ≤ round * 2 ^ 32 :=
    Int.mul_le_mul_of_nonneg_left (by rw [length]; exact_mod_cast few) (by decide)
  obtain ⟨tl,last,expanded,between,contents⟩ := expandLoop_spec (orderOf count draws) (arrivals count draws) 0 all (by decide) (by
    show 0 + _ < _
    unfold round longest at *
    omega)
  refine ⟨tl,?_,expanded,between.sorted,contents⟩
  rw [generate,expanded,Option.map_some,stableSort_of_sorted between.sorted]

/-! ## Ids and prices -/

theorem orderId_toNat {i count : Nat} (inside : i < count) (few : count ≤ 2 ^ 32) : (UInt64.ofNat i + 1).toNat = i + 1 := by
  rw [UInt64.toNat_add,UInt64.toNat_ofNat_of_lt' (by show i < 18446744073709551616; omega)]
  show (i + 1) % 18446744073709551616 = i + 1
  omega

theorem arrivals_perm (count : Nat) (draws : Draws) : ((arrivals count draws).map Prod.fst).Perm (List.range count) := by
  rw [arrivals_map_fst]
  exact shuffled_perm count draws

theorem request_orderId (n : NewOrder) (oid : UInt64) (d : Life) (ts : Int64) (q : Request) : (n.request oid d ts q).orderId = oid := by
  cases q <;> rfl

theorem request_type (n : NewOrder) (oid : UInt64) (d : Life) (ts : Int64) (q : Request) : (n.request oid d ts q).type ≤ 2 := by
  cases q with
  | new => exact (by decide : msgNew ≤ 2)
  | modify => exact (by decide : msgModify ≤ 2)
  | cancel => exact (by decide : msgCancel ≤ 2)

/-- The timeline is in order of time before it is sorted. The messages of an order stand together, in the order of the life that is drawn
    for it, and the timeline has no others of its id. -/
theorem lives_contiguous (count : Nat) (draws : Draws) (lives : ∀ k < count, (draws.lives k).InBounds) (few : count ≤ 2 ^ 32) :
    ∃ tl, expandLoop (news count draws) 0 (arrivals count draws) = some tl ∧ (tl.Pairwise fun a b => a.ts ≤ b.ts) ∧
      generate count draws = some tl ∧ ∀ i < count, ∃ k before later, (shuffled count draws)[k]? = some i ∧
      tl.map untimed = before ++ messagesOf (orderOf count draws i) i (draws.lives k) ++ later ∧
      ∀ m ∈ before ++ later, m.orderId.toNat ≠ i + 1 := by
  obtain ⟨tl,generated,expanded,sorted,contents⟩ := generate_spec count draws lives few
  refine ⟨tl,expanded,sorted,generated,?_⟩
  intro i inside
  have occurs : i ∈ shuffled count draws := (shuffled_perm count draws).mem_iff.mpr (List.mem_range.mpr inside)
  obtain ⟨k,small,isOrder⟩ := List.getElem_of_mem occurs
  have member : (i,draws.lives k) ∈ arrivals count draws :=
    List.mem_map.mpr ⟨(i,k),List.mk_mem_zipIdx_iff_getElem?.mpr (by rw [List.getElem?_eq_getElem small,isOrder]),rfl⟩
  obtain ⟨before,later,split⟩ := List.append_of_mem member
  have nodup := (arrivals_perm count draws).nodup_iff.mpr List.nodup_range
  rw [split] at contents nodup
  have apart : ∀ p ∈ before ++ later, p.1 ≠ i := by
    intro p member same
    rw [List.map_append,List.map_cons,List.nodup_middle,← List.map_append] at nodup
    exact (List.nodup_cons.mp nodup).1 (List.mem_map.mpr ⟨p,member,same⟩)
  refine ⟨k,_,_,by rw [List.getElem?_eq_getElem small,isOrder],
    by rw [contents,List.flatMap_append,List.flatMap_cons,← List.append_assoc],?_⟩
  intro m inOthers
  rw [← List.flatMap_append] at inOthers
  obtain ⟨p,isOther,inLife⟩ := List.mem_flatMap.mp inOthers
  obtain ⟨q,_,rfl⟩ := List.mem_map.mp inLife
  have arrives : p ∈ arrivals count draws := by
    rw [split]
    exact List.mem_append.mpr ((List.mem_append.mp isOther).imp_right (List.mem_cons_of_mem _))
  have small := (mem_arrivals arrives).1
  rw [request_orderId,orderId_toNat small few]
  have other := apart p isOther
  omega

/-- Two lives that are swapped by the shuffle: one with a modify and two cancels, and an IOC order. -/
theorem lives_contiguous_two :
    let draws : Draws := ⟨fun _ => ⟨33504,8,10⟩,fun _ => 0,fun k => ⟨k = 1,true,69,true,true,431,true,19,false,0⟩⟩
    ∃ tl, expandLoop (news 2 draws) 0 (arrivals 2 draws) = some tl ∧ (tl.Pairwise fun a b => a.ts ≤ b.ts) ∧
      generate 2 draws = some tl ∧ ∀ i < 2, ∃ k before later, (shuffled 2 draws)[k]? = some i ∧
      tl.map untimed = before ++ messagesOf (orderOf 2 draws i) i (draws.lives k) ++ later ∧
      ∀ m ∈ before ++ later, m.orderId.toNat ≠ i + 1 :=
  lives_contiguous 2 _ (by decide) (by decide)

/-! ## The stream that the adapters get -/

/-- The messages that the harness builds from the file of a timeline. -/
def prepared (tl : List Msg) : List Message := (tl.mapIdx Msg.sent).map WorkloadMsg.prepare

/-- The id that a message brings. -/
def newId (m : Msg) : Option Nat := if m.type = msgNew then some m.orderId.toNat else none

theorem newIds_prepared (tl : List Msg) : newIds (prepared tl) = tl.filterMap newId := by
  unfold prepared newIds
  induction tl using List.reverseRecOn with
  | nil => rfl
  | append_singleton tl m ih =>
    rw [List.mapIdx_concat,List.map_append,List.filterMap_append,List.filterMap_append,ih]
    congr 1
    by_cases isNew : m.type = 0
    · simp [Msg.sent,WorkloadMsg.prepare,newId,msgNew,isNew]
    · by_cases isCancel : m.type = 1
      · simp [Msg.sent,WorkloadMsg.prepare,newId,msgNew,isCancel]
      · simp [Msg.sent,WorkloadMsg.prepare,newId,msgNew,isNew,isCancel]

theorem newId_messagesOf (n : NewOrder) (i : Nat) (d : Life) : (messagesOf n i d).filterMap newId = [(UInt64.ofNat i + 1).toNat] := by
  unfold messagesOf Life.requests
  split_ifs <;> simp [NewOrder.request,newId,msgNew,msgModify,msgCancel]

theorem filterMap_untimed (tl : List Msg) : (tl.map untimed).filterMap newId = tl.filterMap newId := by
  rw [List.filterMap_map]
  rfl

/-- The id of a message, and the price of the order that it brings, are in the range of the adapters. -/
def InRange (m : Msg) : Prop := (1 ≤ m.orderId.toNat ∧ m.orderId.toNat < 4294967296) ∧
  (m.type ≠ msgCancel → 1 ≤ m.priceTicks.toInt ∧ m.priceTicks.toInt < 4294967296)

theorem inRange_sent (m : Msg) (seq : Nat) : ((m.sent seq).prepare).InRange ↔ InRange m := by
  unfold Message.InRange InRange
  by_cases isNew : m.type = 0
  · simp [Msg.sent,WorkloadMsg.prepare,isNew,Message.orderId,Message.priceTicks,msgCancel]
  · by_cases isCancel : m.type = 1
    · simp [Msg.sent,WorkloadMsg.prepare,isCancel,Message.orderId,Message.priceTicks,msgCancel]
    · simp [Msg.sent,WorkloadMsg.prepare,isNew,isCancel,Message.orderId,Message.priceTicks,msgCancel]

theorem mem_prepared {tl : List Msg} {m : Message} : m ∈ prepared tl ↔ ∃ (seq : Nat) (inside : seq < tl.length), (tl[seq].sent seq).prepare = m := by
  unfold prepared
  rw [List.mem_map]
  constructor
  · rintro ⟨w,member,rfl⟩
    obtain ⟨seq,inside,rfl⟩ := List.mem_mapIdx.mp member
    exact ⟨seq,inside,rfl⟩
  · rintro ⟨seq,inside,rfl⟩
    exact ⟨_,List.mem_mapIdx.mpr ⟨seq,inside,rfl⟩,rfl⟩

theorem inRange_prepared {tl : List Msg} : (∀ m ∈ prepared tl, m.InRange) ↔ ∀ m ∈ tl.map untimed, InRange m := by
  rw [List.forall_mem_map]
  constructor
  · intro all m member
    obtain ⟨seq,inside,rfl⟩ := List.getElem_of_mem member
    exact (inRange_sent tl[seq] seq).mp (all _ (mem_prepared.mpr ⟨seq,inside,rfl⟩))
  · intro all m member
    obtain ⟨seq,inside,rfl⟩ := mem_prepared.mp member
    exact (inRange_sent tl[seq] seq).mpr (all _ (List.getElem_mem inside))

/-! ## Prices -/

/-- The order is repriced. -/
def Life.Repriced (d : Life) : Prop := d.isIoc = false ∧ d.modify = true ∧ d.reprice = true

instance (d : Life) : Decidable d.Repriced := inferInstanceAs (Decidable (_ ∧ _ ∧ _))

theorem place_spec (count i : Nat) {p : Placement} (mid : 0 ≤ p.midTicks.toInt ∧ p.midTicks.toInt < 2 ^ 62) :
    1 ≤ (place count i p).priceTicks.toInt ∧ (place count i p).priceTicks.toInt < 2 ^ 62 + 1000 := by
  have level : sample p.found ≤ 799 := by
    unfold sample maxLevel
    split_ifs <;> omega
  have distance : (Int64.ofNat (sample p.found + 1)).toInt = sample p.found + 1 := by
    rw [Int64.toInt_ofNat_of_lt (by omega)]
    exact Int.natCast_succ _
  have one : (1 : Int64).toInt = 1 := rfl
  unfold place
  by_cases isBuy : i < count / 2
  · have below : (p.midTicks - Int64.ofNat (sample p.found + 1)).toInt = p.midTicks.toInt - (sample p.found + 1) := by
      rw [Int64.toInt_sub,distance]
      exact Int.bmod_eq_of_le (by omega) (by omega)
    simp only [isBuy,decide_true,if_true,Int64.lt_iff_toInt_lt,below,one]
    refine ⟨?_,?_⟩ <;> split_ifs <;> omega
  · have above : (p.midTicks + Int64.ofNat (sample p.found + 1)).toInt = p.midTicks.toInt + (sample p.found + 1) := by
      rw [toInt_add (by omega) (by omega),distance]
    simp only [isBuy,decide_false,Bool.false_eq_true,if_false,Int64.lt_iff_toInt_lt,above,one]
    refine ⟨?_,?_⟩ <;> split_ifs <;> omega

theorem modify_requested (d : Life) : (∃ q ∈ d.requests, q.1 = .modify) ↔ d.isIoc = false ∧ d.modify = true := by
  unfold Life.requests
  split_ifs <;> simp_all

/-- The prices of an order and of its reprice are in the range of the adapters. -/
def NewOrder.Fits (n : NewOrder) (d : Life) : Prop := n.priceTicks.toInt < 4294967296 ∧
  (d.Repriced → if n.side = 0 then n.priceTicks.toInt + 1 < 4294967296 else 1 < n.priceTicks.toInt)

theorem request_inRange {n : NewOrder} {oid : UInt64} (isId : 1 ≤ oid.toNat ∧ oid.toNat < 4294967296) (d : Life) (ts : Int64)
    (low : 1 ≤ n.priceTicks.toInt) (high : n.priceTicks.toInt < 2 ^ 62 + 1000) (fits : n.priceTicks.toInt < 4294967296) (q : Request) :
    InRange (n.request oid d ts q) ↔
      (q = .modify → d.reprice = true → if n.side = 0 then n.priceTicks.toInt + 1 < 4294967296 else 1 < n.priceTicks.toInt) := by
  have one : (1 : Int64).toInt = 1 := rfl
  have minus : (-1 : Int64).toInt = -1 := rfl
  have notCancel : msgModify ≠ msgCancel := by decide
  cases q with
  | new => simp [InRange,NewOrder.request,isId,low,fits]
  | cancel => simp [InRange,NewOrder.request,isId]
  | modify =>
    simp only [InRange,NewOrder.request,isId,true_and,and_self,ne_eq,notCancel,not_false_eq_true,forall_const]
    cases reprices : d.reprice with
    | false => simp [low,fits]
    | true =>
      simp only [if_true,forall_const]
      by_cases buys : n.side = 0
      · rw [if_pos buys,if_pos buys,toInt_add (by omega) (by omega),one]
        omega
      · rw [if_neg buys,if_neg buys,toInt_add (by omega) (by omega),minus]
        omega

/-- The messages of an order are in range exactly if its prices are. -/
theorem inRange_messagesOf {n : NewOrder} {i count : Nat} (inside : i < count) (few : count < 2 ^ 32 - 1) (d : Life)
    (low : 1 ≤ n.priceTicks.toInt) (high : n.priceTicks.toInt < 2 ^ 62 + 1000) :
    (∀ m ∈ messagesOf n i d, InRange m) ↔ n.Fits d := by
  have id := orderId_toNat inside (by omega)
  have isId : 1 ≤ (UInt64.ofNat i + 1).toNat ∧ (UInt64.ofNat i + 1).toNat < 4294967296 := by omega
  have requested := modify_requested d
  have first : ((.new,0) : Request × Int64) ∈ d.requests := List.mem_cons_self
  unfold messagesOf
  rw [List.forall_mem_map]
  constructor
  · intro all
    have fits : n.priceTicks.toInt < 4294967296 := ((all _ first).2 (by decide : msgNew ≠ msgCancel)).2
    refine ⟨fits,?_⟩
    rintro ⟨notIoc,modifies,reprices⟩
    obtain ⟨q,member,isModify⟩ := requested.mpr ⟨notIoc,modifies⟩
    exact (request_inRange isId d 0 low high fits q.1).mp (all q member) isModify reprices
  · rintro ⟨fits,repriced⟩ q member
    refine (request_inRange isId d 0 low high fits q.1).mpr fun isModify reprices => ?_
    obtain ⟨notIoc,modifies⟩ := requested.mp ⟨q,member,isModify⟩
    exact repriced ⟨notIoc,modifies,reprices⟩

/-! ## The file -/

theorem length_messagesOf (n : NewOrder) (i : Nat) (d : Life) : 1 ≤ (messagesOf n i d).length ∧ (messagesOf n i d).length ≤ 5 := by
  unfold messagesOf
  rw [List.length_map]
  exact ⟨by simp [Life.requests],length_requests d⟩

/-- A stream of lives brings every id once. -/
theorem newIds_lives {count : Nat} {draws : Draws} {tl : List Msg} (few : count ≤ 2 ^ 32)
    (contents : tl.map untimed = (arrivals count draws).flatMap fun p => messagesOf (orderOf count draws p.1) p.1 p.2) :
    (newIds (prepared tl)).Nodup := by
  have each : ∀ p ∈ arrivals count draws, (UInt64.ofNat p.1 + 1).toNat = p.1 + 1 := fun p member =>
    orderId_toNat (mem_arrivals member).1 few
  have ids : newIds (prepared tl) = ((arrivals count draws).map Prod.fst).map (· + 1) := by
    rw [newIds_prepared,← filterMap_untimed,contents,List.filterMap_flatMap,List.map_map]
    simp only [newId_messagesOf]
    rw [← List.map_eq_flatMap]
    exact List.map_congr_left each
  rw [ids]
  exact ((arrivals_perm count draws).nodup_iff.mpr List.nodup_range).map fun _ _ same => Nat.succ_injective same

theorem length_lives {count : Nat} {draws : Draws} {tl : List Msg}
    (contents : tl.map untimed = (arrivals count draws).flatMap fun p => messagesOf (orderOf count draws p.1) p.1 p.2) :
    count ≤ tl.length ∧ tl.length ≤ 5 * count := by
  have whole := congrArg List.length contents
  have length : (arrivals count draws).length = count := by
    rw [← List.length_map Prod.fst,(arrivals_perm count draws).length_eq,List.length_range]
  have each : ∀ ps : List (Nat × Life), ps.length ≤ (ps.flatMap fun p => messagesOf (orderOf count draws p.1) p.1 p.2).length ∧
      (ps.flatMap fun p => messagesOf (orderOf count draws p.1) p.1 p.2).length ≤ 5 * ps.length := by
    intro ps
    induction ps with
    | nil => simp
    | cons p ps ih =>
      have bounds := length_messagesOf (orderOf count draws p.1) p.1 p.2
      rw [List.flatMap_cons,List.length_append,List.length_cons]
      omega
  have bounds := each (arrivals count draws)
  rw [List.length_map] at whole
  omega

theorem types_lives {count : Nat} {draws : Draws} {tl : List Msg}
    (contents : tl.map untimed = (arrivals count draws).flatMap fun p => messagesOf (orderOf count draws p.1) p.1 p.2) :
    ∀ m ∈ tl, m.type ≤ 2 := by
  intro m member
  have inLives : untimed m ∈ (arrivals count draws).flatMap fun p => messagesOf (orderOf count draws p.1) p.1 p.2 :=
    contents ▸ List.mem_map_of_mem member
  obtain ⟨p,_,inLife⟩ := List.mem_flatMap.mp inLives
  obtain ⟨⟨q,_⟩,_,isRequest⟩ := List.mem_map.mp inLife
  have type : m.type = ((orderOf count draws p.1).request (UInt64.ofNat p.1 + 1) p.2 0 q).type := (congrArg Msg.type isRequest).symm
  rw [type]
  exact request_type ..

theorem inRange_lives {count : Nat} {draws : Draws} {tl : List Msg} (bounds : draws.InBounds count) (few : count < 2 ^ 32 - 1)
    (contents : tl.map untimed = (arrivals count draws).flatMap fun p => messagesOf (orderOf count draws p.1) p.1 p.2) :
    (∀ m ∈ prepared tl, m.InRange) ↔ ∀ p ∈ arrivals count draws, (orderOf count draws p.1).Fits p.2 := by
  rw [inRange_prepared,contents]
  simp only [List.mem_flatMap,forall_exists_index,and_imp]
  rw [forall_comm]
  refine forall_congr' fun p => ?_
  constructor
  · intro all member
    have inside := (mem_arrivals member).1
    obtain ⟨low,high⟩ := place_spec count p.1 (bounds.midTicks p.1 inside)
    exact (inRange_messagesOf inside few p.2 low high).mp fun m inLife => all m member inLife
  · intro good m member inLife
    have inside := (mem_arrivals member).1
    obtain ⟨low,high⟩ := place_spec count p.1 (bounds.midTicks p.1 inside)
    exact (inRange_messagesOf inside few p.2 low high).mpr (good member) m inLife

/-- The file of a generated timeline. The harness loads it if and only if the timeline is not too long, and what it then prepares is
    admissible to the adapters if and only if the prices of the orders, and those of the ones that are repriced, are in range. -/
theorem generated_admissible_iff {N : Capacity} (h : Pools N) {count : Nat} {draws : Draws} (bounds : draws.InBounds count)
    (any : 0 < count) (few : 5 * count < 4294967296) : ∃ tl, generate count draws = some tl ∧
      Workload.loadWorkload (Workload.writeBinary tl) = (if tl.length ≤ 100000000 then some (tl.mapIdx Msg.sent) else none) ∧
      (BabobookAdapter.Admissible h (prepared tl) ↔ ∀ p ∈ arrivals count draws, (orderOf count draws p.1).Fits p.2) := by
  obtain ⟨tl,generated,_,_,contents⟩ := generate_spec count draws bounds.lives (by omega)
  obtain ⟨some',short⟩ := length_lives contents
  refine ⟨tl,generated,?_,?_⟩
  · have fits : tl.length < 2 ^ 32 := by omega
    have complete := (Workload.writeBinary_complete fits).1
    rw [Workload.load_eq,Workload.messagesOf_writeBinary fits]
    refine if_congr ?_ rfl rfl
    rw [and_iff_right complete]
    constructor
    · intro inFormat
      exact Workload.writeBinary_counted fits inFormat
    · intro inside
      exact (Workload.writeBinary_inFormat (by omega) inside).mpr (types_lives contents)
  · rw [← inRange_lives bounds (by omega) contents]
    constructor
    · intro admissible m member
      obtain ⟨before,later,split⟩ := List.append_of_mem member
      exact (admissible before m later split).1
    · intro all
      exact BabobookAdapter.admissible_iff.mpr (Desk.admitted_of_fresh all (newIds_lives (by omega) contents))

/-- A sell at one tick, as a mid price of nothing gives it, is repriced to nothing. -/
theorem generated_admissible_iff_low :
    let draws : Draws := ⟨fun _ => ⟨0,0,10⟩,fun _ => 0,fun _ => ⟨false,true,0,true,false,0,false,0,false,0⟩⟩
    ∃ tl, generate 2 draws = some tl ∧
      Workload.loadWorkload (Workload.writeBinary tl) = (if tl.length ≤ 100000000 then some (tl.mapIdx Msg.sent) else none) ∧
      (BabobookAdapter.Admissible (.empty : Pools ⟨1,by decide,by decide⟩) (prepared tl) ↔
        ∀ p ∈ arrivals 2 draws, (orderOf 2 draws p.1).Fits p.2) :=
  generated_admissible_iff .empty ⟨by decide,by decide⟩ (by decide) (by decide)

end BaboEngine.Generator
