import Mathlib.Data.List.Forall2
import Mathlib.Data.List.Sort

/-!
# Lists related element by element

What `List.Forall₂` keeps beyond the operations of Mathlib's own list.
-/

namespace BaboEngine.RelatedLists

variable {α β : Type} {R : α → β → Prop} {xs : List α} {ys : List β}

theorem exists_right (related : List.Forall₂ R xs ys) {x : α} (member : x ∈ xs) : ∃ y ∈ ys, R x y := by
  induction related with
  | nil => simp at member
  | cons first _ ih =>
    rcases List.mem_cons.mp member with rfl | later
    · exact ⟨_,by simp,first⟩
    · obtain ⟨y,inYs,rel⟩ := ih later
      exact ⟨y,by simp [inYs],rel⟩

theorem exists_left (related : List.Forall₂ R xs ys) {y : β} (member : y ∈ ys) : ∃ x ∈ xs, R x y :=
  exists_right related.flip member

/-- The parts of two lists up to the first element that fails a test, and from it on. -/
theorem while_related {p : α → Bool} {q : β → Bool} (same : ∀ x y, R x y → q y = p x) (related : List.Forall₂ R xs ys) :
    List.Forall₂ R (xs.takeWhile p) (ys.takeWhile q) ∧ List.Forall₂ R (xs.dropWhile p) (ys.dropWhile q) := by
  induction related with
  | nil => exact ⟨.nil,.nil⟩
  | @cons x y xs ys first rest ih =>
    have test := same x y first
    cases holds : p x with
    | true =>
      rw [holds] at test
      rw [List.takeWhile_cons_of_pos holds,List.takeWhile_cons_of_pos test,List.dropWhile_cons_of_pos holds,List.dropWhile_cons_of_pos test]
      exact ⟨.cons first ih.1,ih.2⟩
    | false =>
      rw [holds] at test
      have fails : ¬ p x = true := by simp [holds]
      have fails' : ¬ q y = true := by simp [test]
      rw [List.takeWhile_cons_of_neg fails,List.takeWhile_cons_of_neg fails',List.dropWhile_cons_of_neg fails,List.dropWhile_cons_of_neg fails']
      exact ⟨.nil,.cons first rest⟩

theorem filter_related {p : α → Bool} {q : β → Bool} (same : ∀ x y, R x y → q y = p x) (related : List.Forall₂ R xs ys) :
    List.Forall₂ R (xs.filter p) (ys.filter q) :=
  List.rel_filter (fun x y rel => by simp [same x y rel]) related

/-- The insertion of related elements, in orders that agree on what is related. -/
theorem orderedInsert_related {r : α → α → Prop} {s : β → β → Prop} [DecidableRel r] [DecidableRel s] {x : α} {y : β} (rel : R x y)
    (same : ∀ a b, R a b → (s y b ↔ r x a)) (related : List.Forall₂ R xs ys) :
    List.Forall₂ R (xs.orderedInsert r x) (ys.orderedInsert s y) := by
  induction related with
  | nil => exact .cons rel .nil
  | @cons a b xs ys first rest ih =>
    rw [List.orderedInsert_cons,List.orderedInsert_cons]
    by_cases ahead : r x a
    · rw [if_pos ahead,if_pos ((same a b first).mpr ahead)]
      exact .cons rel (.cons first rest)
    · rw [if_neg ahead,if_neg fun ahead' => ahead ((same a b first).mp ahead')]
      exact .cons first ih

end BaboEngine.RelatedLists
