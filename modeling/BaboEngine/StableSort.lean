import Mathlib.Data.List.Sort

/-!
# Stable sorting

Two lists that have the same elements of each key, in the same order, differ only in how
the keys are interleaved (`SameFibers`). Insertion sort by the key keeps the fibers
(`sortBy_fibers`), and a sorted list is determined by them (`eq_of_fibers`).
-/

namespace BaboEngine.StableSort

section
variable {α κ : Type} [DecidableEq κ] {key : α → κ} {l l' l'' m m' : List α}

/-- The elements of one key, in their order. -/
def fiber (key : α → κ) (k : κ) (l : List α) : List α := l.filter fun a => key a = k

def SameFibers (key : α → κ) (l l' : List α) : Prop := ∀ k, fiber key k l = fiber key k l'

theorem mem_fiber {k : κ} {a : α} : a ∈ fiber key k l ↔ a ∈ l ∧ key a = k := by
  simp [fiber]

theorem fiber_append (k : κ) (l l' : List α) : fiber key k (l ++ l') = fiber key k l ++ fiber key k l' :=
  List.filter_append ..

/-- A list has no elements of a key that none of its elements has. -/
theorem fiber_eq_nil {k : κ} (other : ∀ a ∈ l, key a ≠ k) : fiber key k l = [] := by
  rw [fiber,List.filter_eq_nil_iff]
  intro a member
  simpa using other a member

theorem fiber_filterMap {f : α → Option α} (keeps : ∀ a b, f a = some b → key b = key a) (k : κ) (l : List α) :
    fiber key k (l.filterMap f) = (fiber key k l).filterMap f := by
  induction l with
  | nil => rfl
  | cons a l ih =>
    cases image : f a with
    | none =>
      rw [List.filterMap_cons_none image,ih]
      by_cases isKey : key a = k <;> simp [fiber,isKey,image]
    | some b =>
      have sameKey := keeps a b image
      rw [List.filterMap_cons_some image]
      by_cases isKey : key a = k
      · simpa [fiber,sameKey,isKey,image] using ih
      · simpa [fiber,sameKey,isKey] using ih

namespace SameFibers

theorem refl (l : List α) : SameFibers key l l := fun _ => rfl

theorem trans (first : SameFibers key l l') (second : SameFibers key l' l'') : SameFibers key l l'' :=
  fun k => (first k).trans (second k)

theorem symm (same : SameFibers key l l') : SameFibers key l' l := fun k => (same k).symm

theorem append (first : SameFibers key l l') (second : SameFibers key m m') : SameFibers key (l ++ m) (l' ++ m') := by
  intro k
  rw [fiber_append,fiber_append,first k,second k]

/-- Lists without a common key may change places. -/
theorem append_comm (apart : ∀ a ∈ l, ∀ b ∈ l', key a ≠ key b) : SameFibers key (l ++ l') (l' ++ l) := by
  intro k
  rw [fiber_append,fiber_append]
  by_cases here : ∃ a ∈ l, key a = k
  · obtain ⟨a,member,rfl⟩ := here
    rw [fiber_eq_nil (l := l') fun b inL' same => apart a member b inL' same.symm,List.append_nil,List.nil_append]
  · rw [fiber_eq_nil (l := l) fun a member same => here ⟨a,member,same⟩,List.append_nil,List.nil_append]

theorem filterMap {f : α → Option α} (same : SameFibers key l l') (keeps : ∀ a b, f a = some b → key b = key a) :
    SameFibers key (l.filterMap f) (l'.filterMap f) := by
  intro k
  rw [fiber_filterMap keeps,fiber_filterMap keeps,same k]

theorem filter (same : SameFibers key l l') (p : α → Bool) : SameFibers key (l.filter p) (l'.filter p) := by
  intro k
  have inside := congrArg (List.filter p) (same k)
  rw [fiber,fiber,List.filter_filter,List.filter_filter] at inside ⊢
  simpa only [Bool.and_comm] using inside

theorem mem_iff (same : SameFibers key l l') {a : α} : a ∈ l ↔ a ∈ l' := by
  have here := congrArg (a ∈ ·) (same (key a))
  simpa [mem_fiber] using here

theorem perm [DecidableEq α] (same : SameFibers key l l') : l.Perm l' := by
  rw [List.perm_iff_count]
  intro a
  have here := congrArg (List.count a) (same (key a))
  rwa [fiber,fiber,List.count_filter (by simp),List.count_filter (by simp)] at here

/-- The fibers of another key that is, on these lists, as fine as the first. -/
theorem by_key {κ' : Type} [DecidableEq κ'] {key' : α → κ'} (same : SameFibers key l l') (g : κ' → κ)
    (alike : ∀ a k, a ∈ l ∨ a ∈ l' → (key' a = k ↔ key a = g k)) : SameFibers key' l l' := by
  intro k
  have first : fiber key' k l = fiber key (g k) l := List.filter_congr fun a member => decide_eq_decide.mpr (alike a k (.inl member))
  have second : fiber key' k l' = fiber key (g k) l' := List.filter_congr fun a member => decide_eq_decide.mpr (alike a k (.inr member))
  rw [first,second,same (g k)]

end SameFibers

end

section
variable {α κ : Type} [LinearOrder κ] {key : α → κ} {l l' : List α}

def Sorted (key : α → κ) (l : List α) : Prop := l.Pairwise fun a b => key a ≤ key b

def sortBy (key : α → κ) (l : List α) : List α := l.insertionSort fun a b => key a ≤ key b

theorem sorted_sortBy (l : List α) : Sorted key (sortBy key l) :=
  List.pairwise_insertionSort _ l

theorem sortBy_fibers (l : List α) : SameFibers key (sortBy key l) l := by
  intro k
  have alike : (fiber key k l).Pairwise fun a b => key a ≤ key b := by
    refine List.Pairwise.imp_of_mem (R := fun _ _ => True) ?_ (List.pairwise_iff_forall_sublist.mpr fun _ => trivial)
    intro a b first second _
    rw [(mem_fiber.mp first).2,(mem_fiber.mp second).2]
  have inside : (fiber key k l).Sublist (sortBy key l) := List.sublist_insertionSort alike List.filter_sublist
  have inFiber := inside.filter fun a => key a = k
  rw [show (fiber key k l).filter (fun a => key a = k) = fiber key k l from List.filter_filter.trans (by simp [fiber])] at inFiber
  have sameLength : (fiber key k l).length = (fiber key k (sortBy key l)).length :=
    ((List.perm_insertionSort _ l).symm.filter fun a => key a = k).length_eq
  exact (inFiber.eq_of_length sameLength).symm

theorem eq_of_fibers (sorted : Sorted key l) (sorted' : Sorted key l') (same : SameFibers key l l') : l = l' := by
  induction l generalizing l' with
  | nil =>
    refine (List.eq_nil_iff_forall_not_mem.mpr ?_).symm
    intro a member
    exact List.not_mem_nil (same.mem_iff.mpr member)
  | cons a l ih =>
    cases l' with
    | nil =>
      exact absurd (same.mem_iff.mp List.mem_cons_self) List.not_mem_nil
    | cons b l' =>
      obtain ⟨least,rest⟩ := List.pairwise_cons.mp sorted
      obtain ⟨least',rest'⟩ := List.pairwise_cons.mp sorted'
      have le : key a ≤ key b := by
        rcases List.mem_cons.mp (same.mem_iff.mpr List.mem_cons_self) with rfl | inRest
        · exact le_refl _
        · exact least b inRest
      have ge : key b ≤ key a := by
        rcases List.mem_cons.mp (same.mem_iff.mp List.mem_cons_self) with rfl | inRest
        · exact le_refl _
        · exact least' a inRest
      have sameKey : key b = key a := le_antisymm ge le
      obtain ⟨rfl,_⟩ : a = b ∧ fiber key (key a) l = fiber key (key a) l' := by
        have first := same (key a)
        simpa [fiber,sameKey] using first
      have tails : SameFibers key l l' := by
        intro k
        have all := same k
        by_cases isKey : key a = k
        · simpa [fiber,isKey] using all
        · simpa [fiber,isKey] using all
      rw [ih rest rest' tails]

/-- A sorted list is the sorted form of every list with its fibers. -/
theorem eq_sortBy (sorted : Sorted key l) (same : SameFibers key l l') : l = sortBy key l' :=
  eq_of_fibers sorted (sorted_sortBy l') (same.trans (sortBy_fibers l').symm)

theorem sortBy_eq_iff : sortBy key l = sortBy key l' ↔ SameFibers key l l' := by
  constructor
  · intro same
    apply (sortBy_fibers l).symm.trans
    rw [same]
    exact sortBy_fibers l'
  · intro same
    exact eq_sortBy (sorted_sortBy l) ((sortBy_fibers l).trans same)

end

end BaboEngine.StableSort
