import BaboEngine.BookRefinement
import BaboEngine.Submissions

/-!
# Changes of quantity in place

A replace at an unchanged price edits the order where it rests. As long as no such edit takes a
quantity beyond 32 bits, resting orders are open and every edit changes the open quantity
by what was asked for.
-/

namespace BaboEngine
open Simulation

namespace Book
variable {b : Book} {o : SimpleOrder} {t : TreeName} {orderId : UInt32} {sizeDelta : Int32} {newPrice : UInt64}

/-- No increase in place takes a quantity beyond 32 bits. -/
def InPlaceFits (b : Book) : Command → Prop
  | .replace orderId sizeDelta newPrice => ∀ o ∈ b.side .bids ++ b.side .asks, o.orderId = orderId.toNat →
      ¬ Reprices o newPrice.toNat → 0 < sizeDelta.toInt → (o.orderQty : Int) + sizeDelta.toInt < 4294967296
  | _ => True

instance : (b : Book) → (c : Command) → Decidable (b.InPlaceFits c)
  | b, .replace orderId sizeDelta newPrice => inferInstanceAs (Decidable (∀ o ∈ b.side .bids ++ b.side .asks, o.orderId = orderId.toNat →
      ¬ Reprices o newPrice.toNat → 0 < sizeDelta.toInt → (o.orderQty : Int) + sizeDelta.toInt < 4294967296))
  | _, .add _ _ _ _ _ _ => .isTrue trivial
  | _, .cancel _ => .isTrue trivial
  | _, .setMarketPrice _ => .isTrue trivial

/-- An edit in place that does not take the order out. -/
theorem resize_exact (sized : o.Sized) (opened : 0 < o.openQty) (stays : ¬ Collapses o sizeDelta.toInt)
    (fits : 0 < sizeDelta.toInt → (o.orderQty : Int) + sizeDelta.toInt < 4294967296) (newPrice : Nat) :
    ((o.modify sizeDelta.toInt newPrice).orderQty : Int) = o.orderQty + sizeDelta.toInt ∧
      ((o.modify sizeDelta.toInt newPrice).openQty : Int) = o.openQty + sizeDelta.toInt ∧
      0 < (o.modify sizeDelta.toInt newPrice).openQty := by
  obtain ⟨_,_,_,_,_,filledQty,_⟩ := o.modify_fields sizeDelta.toInt newPrice
  have open' := sized.openQty
  have openAfter := (sized.modify sizeDelta.toInt newPrice).openQty
  have small := sized.orderQty
  have low := sizeDelta.le_toInt
  have less : sizeDelta.toInt < 0 → -sizeDelta.toInt < o.openQty := by
    intro reduces
    have short : toU32 (-sizeDelta.toInt) < o.openQty := Nat.lt_of_not_ge fun ge => stays ⟨reduces,ge⟩
    unfold toU32 at short
    omega
  have orderQty := o.modify_orderQty (d := sizeDelta.toInt) newPrice (by omega) (by omega)
  refine ⟨orderQty,?_,?_⟩ <;> omega

theorem InPlaceFits.resting (fits : b.InPlaceFits (.replace orderId sizeDelta newPrice)) (resting : t = .bids ∨ t = .asks)
    (member : o ∈ b.side t) (isId : o.orderId = orderId.toNat) (unmoved : ¬ Reprices o newPrice.toNat) :
    0 < sizeDelta.toInt → (o.orderQty : Int) + sizeDelta.toInt < 4294967296 := by
  refine fits o ?_ isId unmoved
  rcases resting with rfl | rfl <;> simp [member]

/-- Every order is open. -/
theorem opened_preserved : Preserved Orderly (fun b c => b.Fresh c ∧ b.InPlaceFits c) (Everywhere fun o => 0 < o.openQty) where
  submit b o hand orderly all := by
    refine ⟨?_,fun x member => all.2 x (by simp [member])⟩
    intro t x member
    rcases mem_submit orderly.handSized member with old | ⟨_,m,old,q,_,rfl,opened⟩ | ⟨_,rfl,rests⟩
    · exact all.1 t x old
    · exact Nat.pos_of_ne_zero opened
    · exact rests.2.2
  scan b _ all := by
    refine ⟨fun t x member => all.1 t x ((b.sublist_scanned t).subset member),?_⟩
    intro x member
    rcases mem_due member with m | m <;> exact all.1 _ x m
  released _ _ _ all := all
  emit _ _ _ _ _ all := all
  arrive b isBuy price qty stopPrice conditions orderId _ some _ all := by
    refine ⟨all.1,List.forall_mem_singleton.mpr ?_⟩
    rw [(SimpleOrder.sized_new ..).openQty]
    exact Nat.pos_of_ne_zero some
  park b o _ _ _ all := by
    refine ⟨?_,by simp⟩
    intro t x member
    rcases mem_insertInto member with old | ⟨_,rfl⟩
    · exact all.1 t x old
    · exact all.2 x (by simp)
  erase b t o _ _ all := ⟨fun t' x member => all.1 t' x ((b.sublist_eraseFrom t t' o.orderId).subset member),by simp⟩
  resize b t o orderId sizeDelta newPrice resting member isId admitted unmoved stays orderly all := by
    refine ⟨?_,by simp⟩
    intro t' x inSide
    rcases mem_edit inSide with old | ⟨rfl,m,old,isO,rfl⟩
    · exact all.1 t' x old
    · obtain rfl : m = o := List.inj_on_of_nodup_map (orderly.nodup t') old member isO
      exact (resize_exact (orderly.sized.1 t' m old) (all.1 t' m old) stays (admitted.2.resting resting old isId unmoved) _).2.2
  reprice b t o _ sizeDelta newPrice _ member _ _ _ opened _ all :=
    ⟨fun t' x inSide => all.1 t' x ((b.sublist_eraseFrom t t' o.orderId).subset inSide),
      List.forall_mem_singleton.mpr (Nat.pos_of_ne_zero opened)⟩
  observe _ _ _ all := all

/-- Where every order is open, a command whose edit fits is exact. -/
theorem InPlaceFits.exact {c : Command} (fits : b.InPlaceFits c) (orderly : Orderly b [])
    (opened : Everywhere (fun o => 0 < o.openQty) b []) :
    b.Exact c := by
  cases c with
  | replace orderId sizeDelta newPrice =>
    intro t resting o found unmoved stays
    obtain ⟨member,isId⟩ := find_some found
    exact (resize_exact (orderly.sized.1 t o member) (opened.1 t o member) stays (fits.resting resting member isId unmoved) _).2.1
  | add | cancel | setMarketPrice => trivial

/-- Every order is open after a run in which the edits fit, and the run is exact. -/
theorem opened_run (cs : List Command) : ∀ b : Book, Orderly b [] → Everywhere (fun o => 0 < o.openQty) b [] →
    Admitted (fun b c => b.Fresh c ∧ b.InPlaceFits c) step b cs →
    Everywhere (fun o => 0 < o.openQty) (cs.foldl step b) [] ∧ Admitted Exact step b cs := by
  have ordered : Preserved Anything (fun b c => b.Fresh c ∧ b.InPlaceFits c) Orderly := orderly_preserved.restrict fun _ _ both => both.1
  induction cs with
  | nil => exact fun b _ opened _ => ⟨opened,trivial⟩
  | cons c cs ih =>
    rintro b orderly opened ⟨first,rest⟩
    obtain ⟨orderly',opened'⟩ := (ordered.above opened_preserved).step first ⟨orderly,opened⟩
    obtain ⟨after,exact'⟩ := ih (b.step c) orderly' opened' rest
    exact ⟨after,first.2.exact orderly opened,exact'⟩

end Book

theorem opened_start : Book.Everywhere (fun o => 0 < o.openQty) .start [] := ⟨by simp [Book.start],by simp⟩

namespace MatchingBook
variable {N : Capacity} {m : MatchingBook N} {c : Command} {cs : List Command} {h : Pools N}

/-- No increase in place takes a quantity beyond 32 bits. -/
def InPlaceFits (m : MatchingBook N) : Command → Prop
  | .replace orderId sizeDelta newPrice => ∀ t, t = .bids ∨ t = .asks → ∀ os, (m.on t).snapshot = some os → ∀ o ∈ os,
      o.orderId = orderId.toNat → ¬ Book.Reprices o newPrice.toNat → 0 < sizeDelta.toInt →
      (o.orderQty : Int) + sizeDelta.toInt < 4294967296
  | _ => True

theorem inPlaceFits_iff {b : Book} {exact : Prop} (rep : Represents exact m b) : m.InPlaceFits c ↔ b.InPlaceFits c := by
  cases c with
  | replace orderId sizeDelta newPrice => exact rep.all_resting _
  | add | cancel | setMarketPrice => exact Iff.rfl

theorem inPlaceFits_everyStep (once : NeverReused cs) : EveryStep InPlaceFits h cs ↔ Admitted Book.InPlaceFits Book.step .start cs :=
  everyStep_iff (fun _ _ _ rep => inPlaceFits_iff rep) once

/-- A run in which the edits in place fit leaves open orders and exact totals. -/
theorem opened_after (once : NeverReused cs) (fits : EveryStep InPlaceFits h cs) :
    Book.Everywhere (fun o => 0 < o.openQty) (.after cs) [] ∧ ExactRun cs :=
  Book.opened_run cs .start Book.orderly_start opened_start (once.admitted.and ((inPlaceFits_everyStep once).mp fits))

end MatchingBook

end BaboEngine
