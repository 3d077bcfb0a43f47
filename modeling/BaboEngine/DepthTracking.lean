import BaboEngine.DepthLevels

/-!
# What liquibook's depth tracks

A call on an order edits the totals of its price and leaves the other side alone; a level that it writes in the
array has the stamp of the call (`Makes`). A price that comes in among the first ones pushes the last level of the
array into the map, and one that leaves draws the first of the map in.
-/

namespace BaboEngine.LiquibookDepth
open Listings

namespace Depth
variable {size : Nat} {d d' : Depth size} {isBid isBid' : Bool} {i j k n p q : Nat} {l : DepthLevel} {m : LevelMap}
  {L A B : List (Nat × Tally)} {v w : Tally}

/-! ## Erasing a price -/

theorem eraseLevel_hidden (holds : Holds d isBid (A ++ (p,v) :: B)) (around : Around (better isBid) p A B) (behind : size ≤ A.length) :
    ∃ d', d.eraseLevel (.excess p) isBid = some d' ∧ Holds d' isBid (A ++ B) ∧ Frame isBid d d' ∧ d'.lastChange = d.lastChange ∧
      ∀ i < size * 2, d'.level i = d.level i := by
  obtain ⟨X,Y,l,split,left,isHere,right,flag,ahead,after⟩ := holds.hidden_split around behind
  have found : d.read isBid (.excess p) = some l := by
    rw [read,split]
    exact LevelMap.find_mid (ne_of_ahead ahead)
  have price : l.price = p := congrArg Prod.fst isHere
  have erased : (d.excess isBid).erase l.price = X ++ Y := by
    rw [split,price,LevelMap.erase_mid (ne_of_ahead ahead) (ne_of_behind after)]
  refine ⟨d.setExcess isBid (X ++ Y),?_,⟨?_,fun i small => ?_,?_,?_⟩,frame_setExcess ..,lastChange_setExcess ..,fun i _ => level_setExcess ..⟩
  · simp only [eraseLevel,found,flag,erased,Option.bind_eq_bind,Option.bind_some,if_true]
  · exact fun e member => holds.priced e (by rcases List.mem_append.mp member with inLeft | inRight <;> simp [*])
  · have same : (A ++ B)[i]? = (A ++ (p,v) :: B)[i]? := by
      rw [List.getElem?_append_left (by omega),List.getElem?_append_left (by omega)]
    rw [level_setExcess,same]
    exact holds.shown i small
  · rw [excess_setExcess_self,drop_enter_behind behind,List.map_append,left,right]
  · rw [excess_setExcess_self]
    exact fun e member => holds.keyed e (by rw [split]; rcases List.mem_append.mp member with inLeft | inRight <;> simp [*])

/-- What comes to the last level of a side. -/
def comesLast (d : Depth size) (isBid : Bool) : DepthLevel :=
  match d.excess isBid with
  | best :: _ => (d.level (last size isBid)).assign best.2
  | [] => ((d.level (last size isBid)).init invalidLevelPrice false).changed d.lastChange

theorem refillLast_eq (d : Depth size) (isBid : Bool) :
    d.refillLast isBid = (d.setExcess isBid (d.excess isBid).tail).setLevel (last size isBid) (d.comesLast isBid) := by
  unfold refillLast comesLast
  cases isMap : d.excess isBid with
  | nil =>
    have same : d.setExcess isBid [] = d := by
      unfold excess at isMap
      unfold setExcess
      cases isBid <;> simp only [Bool.false_eq_true,if_false,if_true] at isMap ⊢ <;> rw [← isMap]
    exact congrArg (Depth.setLevel · _ _) same.symm
  | cons best rest => cases isBid <;> rfl

theorem last_lt (some : 0 < size) : last size isBid < size * 2 := first_add_lt (by omega)

/-- The loops write within one side. -/
theorem frame_of_levelsOnly (only : LevelsOnly d.bump d')
    (levels : ∀ i < size, d'.level (first size (!isBid) + i) = d.level (first size (!isBid) + i)) : Frame isBid d d' := by
  obtain ⟨_,rfl⟩ := only
  exact ⟨levels,rfl,rfl,rfl,rfl⟩

theorem LevelsOnly.excess (only : LevelsOnly d d') (isBid : Bool) : d'.excess isBid = d.excess isBid := by
  obtain ⟨_,rfl⟩ := only
  rfl

theorem LevelsOnly.lastChange (only : LevelsOnly d d') : d'.lastChange = d.lastChange := by
  obtain ⟨_,rfl⟩ := only
  rfl

theorem not_between (isBid : Bool) (small : i < size) (small' : k < size) :
    ¬ (first size isBid + k ≤ first size (!isBid) + i ∧ first size (!isBid) + i ≤ last size isBid) := by
  cases isBid <;> simp [first,last] <;> omega

/-- The totals that come up to a place when a price leaves. -/
theorem totals_pulled (holds : Holds d isBid (A ++ (p,v) :: B)) (behind : A.length ≤ i) (small : i + 1 < size) :
    (d.bump.pulled (first size isBid + A.length) (first size isBid + i)).totals = (A ++ B)[i]?.getD DepthLevel.blank ∧
      (d.bump.pulled (first size isBid + A.length) (first size isBid + i)).isExcess = false := by
  have here := holds.shown i (by omega)
  have next := holds.shown (i + 1) small
  have isNext : (A ++ B)[i]? = (A ++ (p,v) :: B)[i + 1]? := by rw [getElem?_leave (e := (p,v)),if_neg (by omega)]
  rw [isNext]
  unfold pulled
  split_ifs with moves
  · exact ⟨by rw [DepthLevel.totals_changed,DepthLevel.totals_assign]; exact next.1,here.2⟩
  · have noPrice : (d.level (first size isBid + i)).price = invalidLevelPrice := by
      by_contra valid
      exact moves (.inl valid)
    have past := (holds.price_eq_zero (by omega)).mp noPrice
    refine ⟨?_,here.2⟩
    rw [List.getElem?_eq_none (by omega)]
    rw [List.getElem?_eq_none past] at here
    exact here.1

/-- The depth when the levels behind the one that goes have been moved up. -/
structure MovedUp (d : Depth size) (isBid : Bool) (A B : List (Nat × Tally)) (d₁ : Depth size) : Prop where
  frame : Frame isBid d d₁
  excess : d₁.excess isBid = d.excess isBid
  lastChange : d₁.lastChange = d.bump.lastChange
  lastLevel : d₁.level (last size isBid) = d.level (last size isBid)
  shown : ∀ i, i + 1 < size → (d₁.level (first size isBid + i)).totals = (A ++ B)[i]?.getD DepthLevel.blank ∧
    (d₁.level (first size isBid + i)).isExcess = false
  stamped : ∀ i ≠ last size isBid, (i ≠ first size isBid + A.length ∧ d₁.level i = d.level i) ∨
    (d₁.level i).lastChange = some d.bump.lastChange

theorem shiftUp_erased (holds : Holds d isBid (A ++ (p,v) :: B)) (inArray : A.length < size) : MovedUp d isBid A B
    (shiftUp (first size isBid + A.length) (last size isBid - (first size isBid + A.length)) (first size isBid + A.length) d.bump) := by
  have isLast : last size isBid = first size isBid + (size - 1) := rfl
  have inside : last size isBid < size * 2 := last_lt (by omega)
  obtain ⟨only,levels⟩ := shiftUp_spec (first size isBid + A.length) (last size isBid - (first size isBid + A.length))
    (first size isBid + A.length) d.bump (by omega)
  refine ⟨frame_of_levelsOnly only fun i small => ?_,only.excess isBid,only.lastChange,?_,fun i small => ?_,fun i notLast => ?_⟩
  · have apart := not_between isBid small inArray
    rw [levels,if_neg (by omega)]
    rfl
  · rw [levels,if_neg (by omega)]
    rfl
  · rw [levels]
    split_ifs with between
    · exact totals_pulled holds (by omega) small
    · rw [getElem?_leave (e := (p,v)),if_pos (by omega)]
      exact holds.shown i (by omega)
  · rw [levels]
    unfold pulled
    split_ifs with between moves
    · exact .inr rfl
    · exact .inl ⟨fun isErased => moves (.inr isErased),rfl⟩
    · exact .inl ⟨by omega,rfl⟩

theorem getElem?_last (inArray : A.length < size) : (A ++ B)[size - 1]? = (A ++ (p,v) :: B)[size]? := by
  rw [getElem?_leave (e := (p,v)),if_neg (by omega),Nat.sub_add_cancel (by omega)]

/-- The first of the map comes to the last level, or nothing does. -/
theorem totals_comesLast (holds : Holds d isBid (A ++ (p,v) :: B)) (inArray : A.length < size) :
    (d.comesLast isBid).totals = (A ++ B)[size - 1]?.getD DepthLevel.blank ∧ (d.comesLast isBid).isExcess = false := by
  have hidden := holds.hidden
  have flag : (d.level (last size isBid)).isExcess = false := (holds.shown (size - 1) (by omega)).2
  rw [getElem?_last (p := p) (v := v) inArray,comesLast]
  cases isMap : d.excess isBid with
  | nil =>
    rw [isMap,List.map_nil] at hidden
    rw [List.getElem?_eq_none (List.drop_eq_nil_iff.mp hidden.symm)]
    exact ⟨rfl,rfl⟩
  | cons best rest =>
    rw [isMap,List.map_cons] at hidden
    have isBest : (A ++ (p,v) :: B)[size]? = some best.2.totals := by rw [← List.head?_drop,← hidden]; rfl
    rw [isBest]
    exact ⟨rfl,flag⟩

theorem Holds.left (holds : Holds d isBid (A ++ (p,v) :: B)) : ∀ e ∈ A ++ B, 0 < e.1 := by
  intro e member
  apply holds.priced e
  rcases List.mem_append.mp member with inLeft | inRight <;> simp [*]

/-- The last level is written as well. -/
theorem MovedUp.refill {d₁ : Depth size} (moved : MovedUp d isBid A B d₁) (holds : Holds d isBid (A ++ (p,v) :: B))
    (inArray : A.length < size) (totals : l.totals = (A ++ B)[size - 1]?.getD DepthLevel.blank) (flag : l.isExcess = false)
    (stamp : l.lastChange = some d₁.lastChange) {d' : Depth size}
    (isRefill : d' = (d₁.setExcess isBid (d.excess isBid).tail).setLevel (last size isBid) l) :
    Holds d' isBid (A ++ B) ∧ Frame isBid d d' ∧ d'.lastChange = d.bump.lastChange ∧
      ∀ i < size * 2, (i ≠ first size isBid + A.length ∧ d'.level i = d.level i) ∨ (d'.level i).lastChange = some d'.lastChange := by
  subst isRefill
  have isLast : last size isBid = first size isBid + (size - 1) := rfl
  have inside : last size isBid < size * 2 := last_lt (by omega)
  have counted : ((d₁.setExcess isBid (d.excess isBid).tail).setLevel (last size isBid) l).lastChange = d.bump.lastChange := by
    rw [lastChange_setLevel,lastChange_setExcess,moved.lastChange]
  refine ⟨⟨holds.left,fun i small => ?_,?_,?_⟩,(moved.frame.trans (frame_setExcess ..)).trans (frame_setLevel _ (by omega) _),counted,
    fun i small => ?_⟩
  · by_cases isEnd : i = size - 1
    · subst isEnd
      rw [← isLast,level_setLevel_self inside]
      exact ⟨totals,flag⟩
    · rw [level_setLevel_ne (by omega),level_setExcess]
      exact moved.shown i (by omega)
  · rw [excess_setLevel,excess_setExcess_self,List.map_tail,holds.hidden]
    exact (drop_leave inArray).symm
  · rw [excess_setLevel,excess_setExcess_self]
    exact fun e member => holds.keyed e (List.mem_of_mem_tail member)
  · rw [counted]
    by_cases isEnd : i = last size isBid
    · subst isEnd
      rw [level_setLevel_self inside,stamp,moved.lastChange]
      exact .inr rfl
    · rw [level_setLevel_ne (Ne.symm isEnd),level_setExcess]
      exact moved.stamped i isEnd

/-- The last level had no price, and stays as it is. -/
theorem MovedUp.blank {d₁ : Depth size} (moved : MovedUp d isBid A B d₁) (holds : Holds d isBid (A ++ (p,v) :: B))
    (inArray : A.length < size) (notErased : first size isBid + A.length ≠ last size isBid)
    (noPrice : (d.level (last size isBid)).price = invalidLevelPrice) :
    Holds d₁ isBid (A ++ B) ∧ ∀ i < size * 2, (i ≠ first size isBid + A.length ∧ d₁.level i = d.level i) ∨
      (d₁.level i).lastChange = some d₁.lastChange := by
  have isLast : last size isBid = first size isBid + (size - 1) := rfl
  have past := (holds.price_eq_zero (i := size - 1) (by omega)).mp noPrice
  refine ⟨⟨holds.left,fun i small => ?_,?_,?_⟩,fun i _ => ?_⟩
  · by_cases isEnd : i = size - 1
    · subst isEnd
      have here := holds.shown (size - 1) (by omega)
      rw [List.getElem?_eq_none past] at here
      rw [← isLast,moved.lastLevel,getElem?_last (p := p) (v := v) inArray,List.getElem?_eq_none (by omega)]
      exact here
    · exact moved.shown i (by omega)
  · simp only [List.length_append,List.length_cons] at past
    rw [moved.excess,holds.hidden,List.drop_eq_nil_of_le,List.drop_eq_nil_of_le] <;>
      simp only [List.length_append,List.length_cons] <;> omega
  · rw [moved.excess]
    exact holds.keyed
  · by_cases isEnd : i = last size isBid
    · exact .inl ⟨isEnd ▸ Ne.symm notErased,by rw [isEnd,moved.lastLevel]⟩
    · rw [moved.lastChange]
      exact moved.stamped i isEnd

theorem eraseLevel_shown (holds : Holds d isBid (A ++ (p,v) :: B)) (inArray : A.length < size) :
    ∃ d', d.eraseLevel (.slot (first size isBid + A.length)) isBid = some d' ∧ Holds d' isBid (A ++ B) ∧ Frame isBid d d' ∧
      d'.lastChange = d.bump.lastChange ∧ ∀ i < size * 2, (i ≠ first size isBid + A.length ∧ d'.level i = d.level i) ∨
        (d'.level i).lastChange = some d'.lastChange := by
  have moved := shiftUp_erased holds inArray
  have read : d.read isBid (.slot (first size isBid + A.length)) = some (d.level (first size isBid + A.length)) := read_slot (first_add_lt inArray)
  have flag := (holds.shown A.length inArray).2
  have inside : last size isBid < size * 2 := last_lt (by omega)
  simp only [eraseLevel,read,flag,Option.bind_eq_bind,Option.bind_some,Bool.false_eq_true,if_false,refillLast_eq,moved.lastLevel,moved.excess]
  generalize shiftUp _ _ _ d.bump = d₁ at moved ⊢
  by_cases refill : first size isBid + A.length = last size isBid ∨ (d.level (last size isBid)).price ≠ invalidLevelPrice
  · have same : (d₁.comesLast isBid).totals = (d.comesLast isBid).totals ∧ (d₁.comesLast isBid).isExcess = (d.comesLast isBid).isExcess := by
      unfold comesLast
      rw [moved.excess,moved.lastLevel]
      cases d.excess isBid <;> exact ⟨rfl,rfl⟩
    obtain ⟨totals,flag⟩ := totals_comesLast holds inArray
    rw [if_pos refill,setLevel_setLevel,level_setLevel_self inside]
    exact ⟨_,rfl,moved.refill (l := (d₁.comesLast isBid).changed _) holds inArray (same.1.trans totals) (same.2.trans flag)
      (congrArg some ((lastChange_setLevel ..).trans (lastChange_setExcess ..))) rfl⟩
  · rw [not_or,not_not] at refill
    obtain ⟨holds',stamped⟩ := moved.blank holds inArray refill.1 refill.2
    rw [if_neg (by rw [not_or,not_not]; exact refill)]
    exact ⟨_,rfl,holds',moved.frame,moved.lastChange,stamped⟩

/-! ## A new price -/

theorem Holds.enter (holds : Holds d isBid (A ++ B)) (priced : 0 < p) : ∀ e ∈ A ++ (p,w) :: B, 0 < e.1 := by
  intro e member
  rcases List.mem_append.mp member with inLeft | later
  · exact holds.priced e (List.mem_append_left _ inLeft)
  · rcases List.mem_cons.mp later with rfl | inRight
    · exact priced
    · exact holds.priced e (List.mem_append_right _ inRight)

/-- The map takes what the array has no room for. -/
theorem pushed_out (holds : Holds d isBid (A ++ B)) (ordered : (A ++ B).Pairwise fun e e' => better isBid e.1 e'.1)
    (inArray : A.length < size) : ∃ m : LevelMap, (if (d.level (last size isBid)).price ≠ invalidLevelPrice then
        d.setExcess isBid ((d.excess isBid).insert isBid (d.level (last size isBid)).price
          (((DepthLevel.new true).init 0 true).assign (d.level (last size isBid)))) else d) = d.setExcess isBid m ∧
      m.map (fun e => e.2.totals) = (A ++ (p,v) :: B).drop size ∧ ∀ e ∈ m, e.1 = e.2.price ∧ e.2.isExcess = true := by
  have isLast : last size isBid = first size isBid + (size - 1) := rfl
  have price := holds.price_eq_zero (i := size - 1) (by omega)
  rw [← isLast] at price
  by_cases full : (d.level (last size isBid)).price ≠ invalidLevelPrice
  · have long : size - 1 < (A ++ B).length := Nat.lt_of_not_le fun past => full (price.mpr past)
    have totals : (d.level (last size isBid)).totals = (A ++ B)[size - 1] := by
      rw [isLast,(holds.shown (size - 1) (by omega)).1,List.getElem?_eq_getElem long,Option.getD_some]
    have cut : (A ++ B).drop (size - 1) = (A ++ B)[size - 1] :: (A ++ B).drop size := by
      rw [List.drop_eq_getElem_cons long,Nat.sub_add_cancel (by omega)]
    have ahead : ∀ e ∈ d.excess isBid, better isBid (d.level (last size isBid)).price e.1 := by
      have tail := ordered.sublist (List.drop_sublist (size - 1) _)
      rw [cut] at tail
      have isPrice : (d.level (last size isBid)).price = ((A ++ B)[size - 1]).1 := congrArg Prod.fst totals
      rw [isPrice]
      exact keys_of_totals (fun e member => (holds.keyed e member).1) holds.hidden (List.pairwise_cons.mp tail).1
    refine ⟨_,if_pos full,?_,?_⟩
    · rw [LevelMap.insert_first ahead,drop_enter inArray,List.getElem?_eq_getElem long,← totals,← holds.hidden]
      rfl
    · rw [LevelMap.insert_first ahead]
      exact List.forall_mem_cons.mpr ⟨⟨rfl,rfl⟩,holds.keyed⟩
  · have past := price.mp (not_not.mp full)
    refine ⟨d.excess isBid,?_,?_,holds.keyed⟩
    · rw [if_neg full]
      cases isBid <;> rfl
    · rw [holds.hidden,drop_enter inArray,List.getElem?_eq_none past]
      rfl

/-- Pushing a blank onto a blank writes nothing. -/
theorem pushed_same (holds : Holds d isBid L) (small : j + 1 < size) (noPrice : (d.level (first size isBid + j)).price = invalidLevelPrice) :
    (d.level (first size isBid + (j + 1))).assign (d.level (first size isBid + j)) = d.level (first size isBid + (j + 1)) := by
  have past := (holds.price_eq_zero (i := j) (by omega)).mp noPrice
  have source := (holds.shown j (by omega)).1
  have target := (holds.shown (j + 1) small).1
  rw [List.getElem?_eq_none past] at source
  rw [List.getElem?_eq_none (by omega)] at target
  exact DepthLevel.assign_eq (source.trans target.symm) noPrice

/-- A level before one that has a price: the last level goes to the map if it has one. -/
theorem insertLevelBefore_spec (holds : Holds d isBid (A ++ B)) (ordered : (A ++ B).Pairwise fun e e' => better isBid e.1 e'.1)
    (inArray : A.length < size) (priced : 0 < p) :
    Holds (d.insertLevelBefore (first size isBid + A.length) isBid p) isBid (A ++ (p,⟨0,0⟩) :: B) ∧
    Frame isBid d (d.insertLevelBefore (first size isBid + A.length) isBid p) ∧
    (d.insertLevelBefore (first size isBid + A.length) isBid p).lastChange = d.bump.lastChange ∧
    Stamped (.slot (first size isBid + A.length)) d (d.insertLevelBefore (first size isBid + A.length) isBid p) := by
  have isLast : last size isBid = first size isBid + (size - 1) := rfl
  have here : first size isBid + A.length < size * 2 := first_add_lt inArray
  have inside : last size isBid < size * 2 := last_lt (by omega)
  obtain ⟨m,out,totals,keyed⟩ := pushed_out (p := p) (v := ⟨0,0⟩) holds ordered inArray
  obtain ⟨only,levels⟩ := shiftDown_spec (first size isBid + A.length) (last size isBid) (d.setExcess isBid m).bump inside
  generalize moved : shiftDown (first size isBid + A.length) (last size isBid) (d.setExcess isBid m).bump = d₁ at only levels
  have inserted : d.insertLevelBefore (first size isBid + A.length) isBid p =
      d₁.setLevel (first size isBid + A.length) ((d₁.level (first size isBid + A.length)).init p false) := by
    rw [← moved,insertLevelBefore,out]
  have lastChange₁ : d₁.lastChange = d.bump.lastChange := by
    rw [only.lastChange]
    exact bump_congr (lastChange_setExcess d isBid m)
  have level₁ : ∀ j, (d.setExcess isBid m).bump.level j = d.level j := fun j => by rw [level_bump,level_setExcess]
  have stamp : (d.setExcess isBid m).bump.lastChange = d.bump.lastChange := only.lastChange.symm.trans lastChange₁
  rw [inserted]
  refine ⟨⟨holds.enter priced,fun i small => ?_,?_,?_⟩,?_,?_,?_⟩
  · rw [getElem?_enter]
    split_ifs with left isHere
    · rw [level_setLevel_ne (by omega),levels,if_neg (by omega),level₁]
      exact holds.shown i small
    · subst isHere
      rw [level_setLevel_self here]
      exact ⟨rfl,rfl⟩
    · have before : first size isBid + i - 1 = first size isBid + (i - 1) := by omega
      rw [level_setLevel_ne (by omega),levels,if_pos (by omega),level₁,level₁,before,DepthLevel.totals_pushed,DepthLevel.isExcess_pushed]
      exact ⟨(holds.shown (i - 1) (by omega)).1,(holds.shown i small).2⟩
  · rw [excess_setLevel,only.excess,excess_bump,excess_setExcess_self]
    exact totals
  · rw [excess_setLevel,only.excess,excess_bump,excess_setExcess_self]
    exact keyed
  · refine (frame_setExcess d isBid m).trans (Frame.trans (frame_of_levelsOnly only fun i small => ?_) (frame_setLevel d₁ inArray _))
    have apart := not_between isBid small inArray
    rw [levels,if_neg (by omega)]
    rfl
  · rw [lastChange_setLevel,lastChange₁]
  · intro i _ other
    rw [level_setLevel_ne fun same => other (congrArg _ same.symm),levels]
    split_ifs with between
    · rw [level₁,level₁,stamp,DepthLevel.pushed]
      split_ifs with valid
      · exact .inr rfl
      · obtain ⟨j,rfl,small⟩ : ∃ j, i = first size isBid + (j + 1) ∧ j + 1 < size := ⟨i - first size isBid - 1,by omega,by omega⟩
        exact .inl (pushed_same holds small (not_not.mp valid))
    · exact .inl (level₁ i)

/-- A price behind all others, in a level that has none yet. -/
theorem findLevel_blank (holds : Holds d isBid A) (ahead : ∀ e ∈ A, better isBid e.1 p) (inArray : A.length < size) (priced : 0 < p) :
    ∃ d', d.findLevel p isBid true = (d',.slot (first size isBid + A.length)) ∧ Holds d' isBid (A ++ [(p,⟨0,0⟩)]) ∧ Frame isBid d d' ∧
      Stamped (.slot (first size isBid + A.length)) d d' := by
  have here : first size isBid + A.length < size * 2 := first_add_lt inArray
  have next : size - A.length = size - (A.length + 1) + 1 := by omega
  have holds' : Holds d isBid (A ++ []) := by rwa [List.append_nil]
  have passed := findLoop_pass true holds' ahead A.length (Nat.le_refl _) (by omega)
  have price := holds.price inArray
  have other : ¬ DepthLevel.blank.1 = p := Nat.ne_of_lt priced
  rw [List.getElem?_eq_none (Nat.le_refl _),Option.getD_none] at price
  refine ⟨d.setLevel (first size isBid + A.length) ((d.level (first size isBid + A.length)).init p false),?_,
    ⟨holds'.enter priced,fun i small => ?_,?_,holds.keyed⟩,frame_setLevel d inArray _,fun i _ other => ?_⟩
  · rw [findLevel,passed,next,findLoop,price,if_neg other,if_pos ⟨rfl,rfl⟩]
    exact if_neg (by omega)
  · rw [getElem?_enter,List.append_nil]
    split_ifs with left isHere
    · rw [level_setLevel_ne (by omega)]
      exact holds.shown i small
    · subst isHere
      rw [level_setLevel_self here]
      exact ⟨rfl,rfl⟩
    · have blank := holds.shown i small
      rw [List.getElem?_eq_none (by omega)] at blank
      rw [level_setLevel_ne (by omega),List.getElem?_eq_none (by omega)]
      exact blank
  · rw [excess_setLevel,holds.hidden,drop_enter inArray,List.append_nil,List.getElem?_eq_none (by omega)]
    rfl
  · exact .inl (level_setLevel_ne fun same => other (congrArg _ same.symm))

/-- A price before another one of the array. -/
theorem findLevel_before {b : Nat × Tally} (holds : Holds d isBid (A ++ b :: B)) (ahead : ∀ e ∈ A, better isBid e.1 p)
    (behind : better isBid p b.1) (inArray : A.length < size) : d.findLevel p isBid true =
      (d.insertLevelBefore (first size isBid + A.length) isBid p,.slot (first size isBid + A.length)) := by
  have next : size - A.length = size - (A.length + 1) + 1 := by omega
  have passed := findLoop_pass true holds ahead A.length (Nat.le_refl _) (by omega)
  have price := holds.price inArray
  have priced : 0 < b.1 := holds.priced b (by simp)
  have other : ¬ b.1 = p := fun same => irrefl_of (better isBid) p (by rw [same] at behind; exact behind)
  have valid : ¬ (true = true ∧ b.1 = invalidLevelPrice) := fun blank => Nat.ne_of_gt priced blank.2
  rw [List.getElem?_append_right (Nat.le_refl _),Nat.sub_self,List.getElem?_cons_zero,Option.getD_some] at price
  rw [findLevel,passed,next,findLoop,price,if_neg other,if_neg valid]
  cases isBid with
  | true =>
    have low : b.1 < p := by simpa only [better,if_true] using behind
    rw [if_pos ⟨rfl,rfl,low⟩]
    exact if_neg (by omega)
  | false =>
    have high : b.1 > p := by simpa only [better,Bool.false_eq_true,if_false] using behind
    rw [if_neg (by simp),if_pos ⟨rfl,rfl,high⟩]
    exact if_neg (by omega)

/-- A price behind those of the array. -/
theorem findLevel_hidden (holds : Holds d isBid (A ++ B)) (around : Around (better isBid) p A B) (priced : 0 < p) (behind : size ≤ A.length) :
    ∃ d', d.findLevel p isBid true = (d',.excess p) ∧ Holds d' isBid (A ++ (p,⟨0,0⟩) :: B) ∧ Frame isBid d d' ∧
      d'.lastChange = d.lastChange ∧ ∀ i, d'.level i = d.level i := by
  have past : d.findLoop p isBid true size (first size isBid) = (d,first size isBid + size) := by
    rw [findLoop_pass _ holds around.left size behind (Nat.le_refl _),Nat.sub_self]
    rfl
  obtain ⟨X,Y,split,left,right,ahead,after⟩ := holds.hidden_cut around behind
  have absent : LevelMap.find (X ++ Y) p = none := by
    apply LevelMap.find_absent
    intro e member
    cases List.mem_append.mp member with
    | inl inLeft => exact ne_of_ahead ahead e inLeft
    | inr inRight => exact ne_of_behind after e inRight
  refine ⟨d.setExcess isBid (X ++ (p,(DepthLevel.new true).init p true) :: Y),?_,⟨holds.enter priced,fun i small => ?_,?_,?_⟩,frame_setExcess ..,
    lastChange_setExcess ..,fun i => level_setExcess ..⟩
  · simp only [findLevel,past,if_true,split,absent,LevelMap.insert_mid ahead after]
  · have same : (A ++ (p,(⟨0,0⟩ : Tally)) :: B)[i]? = (A ++ B)[i]? := by
      rw [List.getElem?_append_left (by omega),List.getElem?_append_left (by omega)]
    rw [level_setExcess,same]
    exact holds.shown i small
  · rw [excess_setExcess_self,drop_enter_behind behind,List.map_append,left,List.map_cons,right]
    rfl
  · rw [excess_setExcess_self]
    intro e member
    rcases List.mem_append.mp member with inLeft | later
    · exact holds.keyed e (by simp [split,inLeft])
    · rcases List.mem_cons.mp later with rfl | inRight
      · exact ⟨rfl,rfl⟩
      · exact holds.keyed e (by simp [split,inRight])

/-- A price that is not listed is made where it belongs. -/
theorem findLevel_new (holds : Holds d isBid (A ++ B)) (ordered : (A ++ B).Pairwise fun e e' => better isBid e.1 e'.1)
    (around : Around (better isBid) p A B) (priced : 0 < p) : ∃ d', d.findLevel p isBid true = (d',placeOf size isBid A p) ∧
      Holds d' isBid (A ++ (p,⟨0,0⟩) :: B) ∧ Frame isBid d d' ∧ Stamped (placeOf size isBid A p) d d' ∧
      (size ≤ A.length → d'.lastChange = d.lastChange ∧ ∀ i, d'.level i = d.level i) := by
  unfold placeOf
  by_cases inArray : A.length < size
  · rw [if_pos inArray]
    cases B with
    | nil =>
      rw [List.append_nil] at holds
      obtain ⟨d',found,holds',frame,stamped⟩ := findLevel_blank holds around.left inArray priced
      exact ⟨d',found,holds',frame,stamped,fun past => by omega⟩
    | cons b B =>
      obtain ⟨holds',frame,_,stamped⟩ := insertLevelBefore_spec holds ordered inArray priced
      exact ⟨_,findLevel_before holds around.left (around.right b List.mem_cons_self) inArray,holds',frame,stamped,fun past => by omega⟩
  · obtain ⟨d',found,holds',frame,same⟩ := findLevel_hidden holds around priced (Nat.le_of_not_lt inArray)
    rw [if_neg inArray]
    exact ⟨d',found,holds',frame,fun i _ _ => .inl (same.2 i),fun _ => same⟩

/-! ## The calls on an order -/

/-- A side has the totals that a map gives. -/
def Displays (d : Depth size) (isBid : Bool) (f : Nat → Option Tally) : Prop := ∃ L, Lists (better isBid) f L ∧ Holds d isBid L

/-- A call counts one change, if any, and stamps with it every level of the array that it writes. -/
def Marked (d d' : Depth size) : Prop :=
  (d'.lastChange = d.lastChange ∧ ∀ i < size * 2, d'.level i = d.level i) ∨
  (d'.lastChange = d.bump.lastChange ∧ ∀ i < size * 2, d'.level i = d.level i ∨ (d'.level i).lastChange = some d'.lastChange)

/-- What a call on an order makes of the depth. -/
structure Makes (d : Depth size) (isBid : Bool) (f : Nat → Option Tally) (d' : Depth size) : Prop where
  shows : Displays d' isBid f
  frame : Frame isBid d d'
  marked : Marked d d'

variable {f : Nat → Option Tally}

theorem Displays.frame (shows : Displays d (!isBid) f) (frame : Frame isBid d d') : Displays d' (!isBid) f := by
  obtain ⟨L,lists,holds⟩ := shows
  exact ⟨L,lists,holds.frame frame⟩

theorem write_lastChange (d : Depth size) (isBid : Bool) (l : DepthLevel) (place : Place) (c : Nat) :
    ({ d with lastChange := c } : Depth size).write isBid l place = { d.write isBid l place with lastChange := c } := by
  cases place with
  | slot j => rfl
  | excess p => cases isBid <;> rfl

/-- A price is written, with the stamp of a change. -/
theorem Holds.makes {d₁ : Depth size} (holds : Holds d₁ isBid (A ++ (p,v) :: B)) (around : Around (better isBid) p A B)
    (frame : Frame isBid d d₁) (stamped : Stamped (placeOf size isBid A p) d d₁) (lists : Lists (better isBid) f (A ++ (p,w) :: B))
    (totals : l.totals = (p,w)) (flag : l.isExcess = decide (size ≤ A.length)) :
    Makes d isBid f { d₁.write isBid (l.changed d.bump.lastChange) (placeOf size isBid A p) with lastChange := d.bump.lastChange } := by
  obtain ⟨_,_,_,flag₁,writes⟩ := holds.read around
  obtain ⟨written,again⟩ := writes (l.changed d.bump.lastChange) (flag.trans flag₁.symm) w totals
  have writtenFrame := frame.trans written.frame
  refine ⟨⟨_,lists,⟨written.holds.priced,written.holds.shown,written.holds.hidden,written.holds.keyed⟩⟩,
    ⟨writtenFrame.levels,writtenFrame.excess,writtenFrame.ignoreBid,writtenFrame.ignoreAsk,writtenFrame.published⟩,.inr ⟨rfl,fun i small => ?_⟩⟩
  by_cases isHere : .slot i = placeOf size isBid A p
  · rw [← isHere,read_slot small] at again
    rw [← isHere]
    have isLevel := Option.some.inj again
    exact .inr (congrArg DepthLevel.lastChange isLevel)
  · have same := written.others i small isHere
    refine (stamped i small isHere).imp (fun old => same.trans old) fun new => ?_
    rw [← new]
    exact congrArg DepthLevel.lastChange same

theorem addOrder_spec (shows : Displays d isBid f) (priced : 0 < p) (fits : (Tally.added (f p) q).count < 4294967296)
    (fits' : (Tally.added (f p) q).qty < 4294967296) :
    ∃ d', d.addOrder p q isBid = .returned d' () ∧ Makes d isBid (Function.update f p (some (Tally.added (f p) q))) d' := by
  obtain ⟨L,lists,holds⟩ := shows
  obtain ⟨A,B,around,split⟩ := lists.split p
  -- With the price made, if it was not listed, the call is the same.
  have found : ∃ d₁ v, d.findLevel p isBid true = (d₁,placeOf size isBid A p) ∧ Holds d₁ isBid (A ++ (p,v) :: B) ∧ Frame isBid d d₁ ∧
      Stamped (placeOf size isBid A p) d d₁ ∧ (size ≤ A.length → d₁.lastChange = d.lastChange ∧ ∀ i, d₁.level i = d.level i) ∧
      Tally.added (f p) q = ⟨v.count + 1,v.qty + q⟩ ∧
      Lists (better isBid) (Function.update f p (some (Tally.added (f p) q))) (A ++ (p,Tally.added (f p) q) :: B) := by
    rcases split with ⟨absent,rfl⟩ | ⟨v,isHere,rfl⟩
    · obtain ⟨d₁,found,holds₁,frame₁,stamped₁,hidden₁⟩ := findLevel_new holds lists.ordered around priced
      refine ⟨d₁,⟨0,0⟩,found,holds₁,frame₁,stamped₁,hidden₁,?_,lists.enter around _⟩
      rw [absent]
      simp [Tally.added]
    · refine ⟨d,v,findLevel_eq holds around,holds,Frame.refl ..,fun _ _ _ => .inl rfl,fun _ => ⟨rfl,fun _ => rfl⟩,?_,lists.alter around _⟩
      rw [isHere]
      rfl
  obtain ⟨d₁,v,found,holds₁,frame₁,stamped₁,hidden₁,isAdded,lists'⟩ := found
  rw [isAdded] at fits fits'
  obtain ⟨l,read,totals,flag,writes⟩ := holds₁.read around
  have added : (l.addOrder q).totals = (p,Tally.added (f p) q) := isAdded ▸ DepthLevel.totals_addOrder totals fits fits'
  have flag' : (l.addOrder q).isExcess = decide (size ≤ A.length) := flag
  simp only [addOrder,found,read,flag']
  by_cases behind : size ≤ A.length
  · obtain ⟨lastChange₁,levels₁⟩ := hidden₁ behind
    obtain ⟨written,_⟩ := writes (l.addOrder q) rfl _ added
    refine ⟨_,if_neg (by simpa using behind),⟨_,lists',written.holds⟩,frame₁.trans written.frame,.inl ⟨written.lastChange.trans lastChange₁,?_⟩⟩
    intro i small
    refine (written.others i small ?_).trans (levels₁ i)
    rw [placeOf,if_neg (Nat.not_lt.mpr behind)]
    exact Place.noConfusion
  · refine ⟨_,if_pos (by simpa using behind),?_⟩
    rw [write_lastChange]
    exact holds₁.makes around frame₁ stamped₁ lists' added flag'

/-- The price of an order is listed, and one order leaves it. -/
theorem closeOrder_spec (shows : Displays d isBid f) (listed : f p = some v) (counted : 0 < v.count) (enough : 1 < v.count → q ≤ v.qty) :
    ∃ d', d.closeOrder p q isBid = .returned d' (decide (v.count = 1)) ∧
      Makes d isBid (Function.update f p (v.closed q)) d' := by
  obtain ⟨L,lists,holds⟩ := shows
  obtain ⟨A,B,around,⟨absent,_⟩ | ⟨v',isHere,rfl⟩⟩ := lists.split p
  · rw [listed] at absent
    cases absent
  obtain rfl : v = v' := Option.some.inj (listed.symm.trans isHere)
  obtain ⟨l,read,totals,flag,writes⟩ := holds.read around
  obtain ⟨price,count,qty⟩ := DepthLevel.totals_iff.mp totals
  simp only [closeOrder,findLevel_eq holds around,read,DepthLevel.closeOrder,count,Tally.closed]
  by_cases single : v.count = 1
  · -- The level is written, and then erased.
    obtain ⟨written,_⟩ := writes { l with orderCount := 0, aggregateQty := 0 } rfl ⟨0,0⟩ (DepthLevel.totals_iff.mpr ⟨price,rfl,rfl⟩)
    have notNone : ¬ (1 : Nat) = 0 := by decide
    simp only [single,if_neg notNone,if_true,decide_true]
    have erased := written.holds
    unfold placeOf at written erased ⊢
    by_cases inArray : A.length < size
    · rw [if_pos inArray] at written erased ⊢
      obtain ⟨d',ran,holds',frame',lastChange',levels'⟩ := eraseLevel_shown erased inArray
      have bumped : d'.lastChange = d.bump.lastChange := lastChange'.trans (bump_congr written.lastChange)
      rw [ran]
      refine ⟨d',rfl,⟨_,lists.leave around,holds'⟩,written.frame.trans frame',.inr ⟨bumped,fun i small => ?_⟩⟩
      refine (levels' i small).imp_left fun same => same.2.trans (written.others i small ?_)
      exact fun isHere => same.1 (Place.slot.inj isHere)
    · rw [if_neg inArray] at written erased ⊢
      obtain ⟨d',ran,holds',frame',lastChange',levels'⟩ := eraseLevel_hidden erased around (Nat.le_of_not_lt inArray)
      rw [ran]
      refine ⟨d',rfl,⟨_,lists.leave around,holds'⟩,written.frame.trans frame',.inl ⟨lastChange'.trans written.lastChange,fun i small => ?_⟩⟩
      exact (levels' i small).trans (written.others i small Place.noConfusion)
  · have notNone : ¬ v.count = 0 := by omega
    have enough' : l.aggregateQty ≥ q := by rw [qty]; exact enough (by omega)
    simp only [if_neg notNone,if_neg single,if_pos enough']
    refine ⟨_,by rw [decide_eq_false single],?_⟩
    rw [bump,write_lastChange]
    exact holds.makes around (Frame.refl ..) (fun _ _ _ => .inl rfl) (lists.alter around ⟨v.count - 1,v.qty - q⟩)
      (DepthLevel.totals_iff.mpr ⟨price,rfl,by rw [qty]⟩) flag

/-- An order of a listed price has become smaller. -/
theorem changeQtyOrder_spec (shows : Displays d isBid f) (listed : f p = some v) (some' : 0 < q) (enough : q ≤ v.qty)
    (fits : v.qty < 4294967296) :
    ∃ d', d.changeQtyOrder p (-q) isBid = .returned d' () ∧ Makes d isBid (Function.update f p (some ⟨v.count,v.qty - q⟩)) d' := by
  obtain ⟨L,lists,holds⟩ := shows
  obtain ⟨A,B,around,⟨absent,_⟩ | ⟨v',isHere,rfl⟩⟩ := lists.split p
  · rw [listed] at absent
    cases absent
  obtain rfl : v = v' := Option.some.inj (listed.symm.trans isHere)
  obtain ⟨l,read,totals,flag,writes⟩ := holds.read around
  have less : ¬ (-(q : Int) = 0) := by omega
  have notMore : ¬ (-(q : Int) > 0) := by omega
  have abs : (-(q : Int)).natAbs = q := by omega
  refine ⟨_,?_,holds.makes around (Frame.refl ..) (fun _ _ _ => .inl rfl) (lists.alter around _)
    (DepthLevel.totals_decreaseQty totals enough fits) flag⟩
  simp only [changeQtyOrder,findLevel_eq holds around,if_neg less,read,if_neg notMore,abs]
  rw [bump,write_lastChange]

end Depth

end BaboEngine.LiquibookDepth
