import Mathlib.Data.List.Pairwise
import Mathlib.Logic.Function.Basic
import Mathlib.Order.Defs.Unbundled
import Mathlib.Tactic.SplitIfs

/-!
# Listings

A finite map listed by a strict total order of its keys (`Lists`). Every key splits the list into
the entries before it and those behind it (`Lists.split`), and what is done to the map at the key is
done to the list between the two. The second part is about a list whose first entries are kept
apart from the others: an entry that comes in among them pushes one out, and one that leaves draws one in.
-/

namespace BaboEngine.Listings
variable {K V : Type} {before : K → K → Prop} {f : K → Option V} {L A B : List (K × V)} {k : K} {v w : V}

/-- The list has exactly the entries of the map, in the order of their keys. -/
structure Lists (before : K → K → Prop) (f : K → Option V) (L : List (K × V)) : Prop where
  ordered : L.Pairwise fun e e' => before e.1 e'.1
  mem_iff : ∀ k v, (k,v) ∈ L ↔ f k = some v

/-- A place for a key: what is before it, and what is behind it. -/
structure Around (before : K → K → Prop) (k : K) (A B : List (K × V)) : Prop where
  left : ∀ e ∈ A, before e.1 k
  right : ∀ e ∈ B, before k e.1

theorem Lists.others (lists : Lists before f (A ++ (k,w) :: B)) (k' : K) (v' : V) (other : k' ≠ k) :
    (k',v') ∈ A ++ B ↔ f k' = some v' := by
  rw [← lists.mem_iff]
  simp [other]

theorem lists_nil : Lists before (fun _ => (none : Option V)) [] := ⟨.nil,fun k v => by simp⟩

section
variable [IsStrictTotalOrder K before]

theorem Around.absent (around : Around before k A B) (v : V) : (k,v) ∉ A ++ B := by
  intro member
  cases List.mem_append.mp member with
  | inl inLeft => exact irrefl_of before k (around.left _ inLeft)
  | inr inRight => exact irrefl_of before k (around.right _ inRight)

/-- The place of a key in an ordered list. -/
theorem exists_around (ordered : L.Pairwise fun e e' => before e.1 e'.1) (k : K) :
    ∃ A B, Around before k A B ∧ (L = A ++ B ∨ ∃ v, L = A ++ (k,v) :: B) := by
  induction L with
  | nil => exact ⟨[],[],⟨by simp,by simp⟩,.inl rfl⟩
  | cons e L ih =>
    obtain ⟨first,rest⟩ := List.pairwise_cons.mp ordered
    rcases trichotomous_of before e.1 k with less | same | greater
    · obtain ⟨A,B,around,split⟩ := ih rest
      refine ⟨e :: A,B,⟨List.forall_mem_cons.mpr ⟨less,around.left⟩,around.right⟩,?_⟩
      cases split with
      | inl split => exact .inl (by rw [split]; rfl)
      | inr split =>
        obtain ⟨v,split⟩ := split
        exact .inr ⟨v,by rw [split]; rfl⟩
    · subst same
      exact ⟨[],L,⟨by simp,first⟩,.inr ⟨e.2,rfl⟩⟩
    · refine ⟨[],e :: L,⟨by simp,List.forall_mem_cons.mpr ⟨greater,?_⟩⟩,.inl rfl⟩
      exact fun e' member => trans_of before greater (first e' member)

theorem Lists.split (lists : Lists before f L) (k : K) :
    ∃ A B, Around before k A B ∧ ((f k = none ∧ L = A ++ B) ∨ ∃ v, f k = some v ∧ L = A ++ (k,v) :: B) := by
  obtain ⟨A,B,around,split⟩ := exists_around lists.ordered k
  refine ⟨A,B,around,?_⟩
  cases split with
  | inl split =>
    refine .inl ⟨?_,split⟩
    cases isValue : f k with
    | none => rfl
    | some v => exact absurd (split ▸ (lists.mem_iff k v).mpr isValue) (around.absent v)
  | inr split =>
    obtain ⟨v,split⟩ := split
    exact .inr ⟨v,(lists.mem_iff k v).mp (by simp [split]),split⟩

/-! ## What is done at a key -/

theorem ordered_around (around : Around before k A B) (left : A.Pairwise fun e e' => before e.1 e'.1)
    (right : B.Pairwise fun e e' => before e.1 e'.1) (v : V) : (A ++ (k,v) :: B).Pairwise fun e e' => before e.1 e'.1 := by
  refine List.pairwise_append.mpr ⟨left,List.pairwise_cons.mpr ⟨around.right,right⟩,?_⟩
  intro e inLeft e' member
  rcases List.mem_cons.mp member with rfl | inRight
  · exact around.left e inLeft
  · exact trans_of before (around.left e inLeft) (around.right e' inRight)

variable [DecidableEq K]

theorem mem_put_iff (around : Around before k A B) (others : ∀ k' v', k' ≠ k → ((k',v') ∈ A ++ B ↔ f k' = some v')) (v : V) (k' : K) (v' : V) :
    (k',v') ∈ A ++ (k,v) :: B ↔ Function.update f k (some v) k' = some v' := by
  by_cases isKey : k' = k
  · subst isKey
    rw [Function.update_self,List.mem_append,List.mem_cons]
    have absent := around.absent v'
    rw [List.mem_append,not_or] at absent
    simp [absent.1,absent.2,eq_comm]
  · rw [Function.update_of_ne isKey,← others k' v' isKey]
    simp [isKey]

/-- A key that is new. -/
theorem Lists.enter (lists : Lists before f (A ++ B)) (around : Around before k A B) (v : V) :
    Lists before (Function.update f k (some v)) (A ++ (k,v) :: B) := by
  obtain ⟨left,right,_⟩ := List.pairwise_append.mp lists.ordered
  exact ⟨ordered_around around left right v,mem_put_iff around (fun k' v' _ => lists.mem_iff k' v') v⟩

/-- A key with another value. -/
theorem Lists.alter (lists : Lists before f (A ++ (k,w) :: B)) (around : Around before k A B) (v : V) :
    Lists before (Function.update f k (some v)) (A ++ (k,v) :: B) := by
  obtain ⟨left,right,_⟩ := List.pairwise_append.mp lists.ordered
  exact ⟨ordered_around around left (List.pairwise_cons.mp right).2 v,mem_put_iff around lists.others v⟩

/-- A key that goes. -/
theorem Lists.leave (lists : Lists before f (A ++ (k,w) :: B)) (around : Around before k A B) :
    Lists before (Function.update f k none) (A ++ B) := by
  refine ⟨lists.ordered.sublist (List.Sublist.append_left (List.sublist_cons_self ..) _),fun k' v' => ?_⟩
  by_cases isKey : k' = k
  · subst isKey
    rw [Function.update_self]
    exact ⟨fun member => absurd member (around.absent v'),fun no => by cases no⟩
  · rw [Function.update_of_ne isKey]
    exact lists.others k' v' isKey

end

/-! ## The first entries apart from the others -/

section
variable {α : Type} {A B : List α} {e : α} {i n : Nat}

theorem getElem?_enter : (A ++ e :: B)[i]? = if i < A.length then (A ++ B)[i]? else if i = A.length then some e else (A ++ B)[i - 1]? := by
  split_ifs with left here
  · rw [List.getElem?_append_left left,List.getElem?_append_left left]
  · rw [List.getElem?_append_right (by omega),here,Nat.sub_self]
    rfl
  · obtain ⟨j,rfl⟩ : ∃ j, i = A.length + j + 1 := ⟨i - A.length - 1,by omega⟩
    rw [List.getElem?_append_right (by omega),List.getElem?_append_right (by omega)]
    have isNext : A.length + j + 1 - A.length = j + 1 := by omega
    have isHere : A.length + j + 1 - 1 - A.length = j := by omega
    rw [isNext,isHere,List.getElem?_cons_succ]

theorem getElem?_leave : (A ++ B)[i]? = if i < A.length then (A ++ e :: B)[i]? else (A ++ e :: B)[i + 1]? := by
  rw [getElem?_enter,getElem?_enter]
  split_ifs <;> first | rfl | omega

/-- The entry that is pushed out joins the others. -/
theorem drop_enter (shown : A.length < n) : (A ++ e :: B).drop n = (A ++ B)[n - 1]?.toList ++ (A ++ B).drop n := by
  obtain ⟨j,rfl⟩ : ∃ j, n = A.length + j + 1 := ⟨n - A.length - 1,by omega⟩
  have isNext : A.length + j + 1 - A.length = j + 1 := by omega
  have past : A.drop (A.length + j + 1) = [] := List.drop_eq_nil_of_le (by omega)
  rw [List.drop_append,List.drop_append,past,isNext,List.drop_succ_cons,List.nil_append,List.nil_append,List.getElem?_append_right (by omega)]
  have isHere : A.length + j + 1 - 1 - A.length = j := by omega
  rw [isHere]
  by_cases inRight : j < B.length
  · rw [List.getElem?_eq_getElem inRight,List.drop_eq_getElem_cons inRight]
    rfl
  · rw [List.getElem?_eq_none (by omega),List.drop_eq_nil_of_le (by omega),List.drop_eq_nil_of_le (by omega)]
    rfl

/-- An entry behind the first ones comes in among the others. -/
theorem drop_enter_behind (hidden : n ≤ A.length) (B : List α) : (A ++ B).drop n = A.drop n ++ B := List.drop_append_of_le_length hidden

/-- The first of the others is drawn in. -/
theorem drop_leave (shown : A.length < n) : (A ++ B).drop n = ((A ++ e :: B).drop n).tail := by
  rw [List.tail_drop]
  obtain ⟨j,rfl⟩ : ∃ j, n = A.length + j + 1 := ⟨n - A.length - 1,by omega⟩
  have isNext : A.length + j + 1 - A.length = j + 1 := by omega
  have isNext' : A.length + j + 1 + 1 - A.length = j + 1 + 1 := by omega
  have past : A.drop (A.length + j + 1) = [] := List.drop_eq_nil_of_le (by omega)
  have past' : A.drop (A.length + j + 1 + 1) = [] := List.drop_eq_nil_of_le (by omega)
  rw [List.drop_append,List.drop_append,past,past',isNext,isNext',List.drop_succ_cons]

end

end BaboEngine.Listings
