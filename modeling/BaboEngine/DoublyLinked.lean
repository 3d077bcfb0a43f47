import Mathlib.Data.List.Nodup
import Mathlib.Logic.Function.Basic

/-!
# Linked sequences of cells

Cells of any type that name their neighbours: `Linked` for cells with a link in
each direction, `Stacked` for cells with one link. Both are stated of the
link functions alone, so they apply to slots of an array, to nodes in memory
and to the threads of a tree alike.
-/

namespace BaboEngine.DoublyLinked

variable {α : Type} {next prev next' prev' : α → Option α}

/-- `next` and `prev` link exactly the cells `xs`, in this order: every cell
    names the cell before it and the cell after it. -/
def Linked (next prev : α → Option α) (xs : List α) : Prop :=
  ∀ as x bs, xs = as ++ x :: bs → prev x = as.getLast? ∧ next x = bs.head?

theorem linked_nil : Linked next prev [] := by
  intro as x bs split
  simp at split

/-- Only the links of the cells themselves matter. -/
theorem linked_congr {xs : List α} (linked : Linked next prev xs)
    (same : ∀ x ∈ xs, prev' x = prev x ∧ next' x = next x) : Linked next' prev' xs := by
  intro as x bs split
  obtain ⟨samePrev,sameNext⟩ := same x (by simp [split])
  rw [samePrev,sameNext]
  exact linked as x bs split

/-- Reading the cells backwards exchanges the links. -/
theorem linked_reverse {xs : List α} (linked : Linked next prev xs) : Linked prev next xs.reverse := by
  intro as x bs split
  have forward : xs = bs.reverse ++ x :: as.reverse := by
    rw [← List.reverse_reverse xs,split]
    simp
  obtain ⟨before,after⟩ := linked bs.reverse x as.reverse forward
  exact ⟨by rw [after,List.head?_reverse],by rw [before,List.getLast?_reverse]⟩

theorem getLast?_append_cons (as bs : List α) (x : α) : (as ++ x :: bs).getLast? = (x :: bs).getLast? := by
  rw [List.getLast?_append]
  cases h : (x :: bs).getLast? with
  | none => simp at h
  | some y => rfl

/-- A cell put between two neighbours that are made to name it. -/
theorem linked_insert {as bs : List α} {x : α} (linked : Linked next prev (as ++ bs)) (nodup : (as ++ x :: bs).Nodup)
    (before : prev' x = as.getLast?) (after : next' x = bs.head?)
    (relinkNext : ∀ y ∈ as ++ bs, (as.getLast? = some y → next' y = some x) ∧ (as.getLast? ≠ some y → next' y = next y))
    (relinkPrev : ∀ y ∈ as ++ bs, (bs.head? = some y → prev' y = some x) ∧ (bs.head? ≠ some y → prev' y = prev y)) :
    Linked next' prev' (as ++ x :: bs) := by
  intro us y vs split
  rcases List.append_eq_append_iff.mp split with ⟨mid,usIs,rest⟩ | ⟨mid,asIs,rest⟩
  · cases mid with
    | nil =>
      simp only [List.nil_append,List.cons.injEq] at rest
      obtain ⟨rfl,rfl⟩ := rest
      simp only [List.append_nil] at usIs
      exact ⟨usIs ▸ before,after⟩
    | cons z mid =>
      -- The cell lies behind the new one.
      simp only [List.cons_append,List.cons.injEq] at rest
      obtain ⟨rfl,bsIs⟩ := rest
      obtain ⟨oldPrev,oldNext⟩ := linked (as ++ mid) y vs (by rw [bsIs,List.append_assoc])
      have member : y ∈ as ++ bs := by simp [bsIs]
      have notBefore : as.getLast? ≠ some y := by
        intro last
        have inAs := List.mem_of_getLast? last
        rw [bsIs] at nodup
        have := (List.nodup_append.mp nodup).2.2 y inAs y (by simp)
        exact this rfl
      refine ⟨?_,by rw [(relinkNext y member).2 notBefore,oldNext]⟩
      cases mid with
      | nil =>
        rw [(relinkPrev y member).1 (by simp [bsIs]),usIs]
        simp
      | cons w mid =>
        have notFirst : bs.head? ≠ some y := by
          intro first
          simp only [bsIs,List.cons_append,List.head?_cons,Option.some.injEq] at first
          rw [bsIs,first] at nodup
          simp [List.nodup_append] at nodup
        rw [(relinkPrev y member).2 notFirst,oldPrev,usIs]
        rw [getLast?_append_cons,getLast?_append_cons,List.getLast?_cons_cons]
  · cases mid with
    | nil =>
      simp only [List.nil_append,List.cons.injEq] at rest
      obtain ⟨rfl,rfl⟩ := rest
      simp only [List.append_nil] at asIs
      exact ⟨asIs ▸ before,after⟩
    | cons z mid =>
      -- The cell lies in front of the new one.
      simp only [List.cons_append,List.cons.injEq] at rest
      obtain ⟨rfl,vsIs⟩ := rest
      obtain ⟨oldPrev,oldNext⟩ := linked us y (mid ++ bs) (by rw [asIs]; simp)
      have member : y ∈ as ++ bs := by simp [asIs]
      have notFirst : bs.head? ≠ some y := by
        intro first
        have inBs := List.mem_of_head? first
        have := (List.nodup_append.mp nodup).2.2 y (by simp [asIs]) y (by simp [inBs])
        exact this rfl
      refine ⟨by rw [(relinkPrev y member).2 notFirst,oldPrev],?_⟩
      cases mid with
      | nil =>
        rw [(relinkNext y member).1 (by simp [asIs]),vsIs]
        simp
      | cons w mid =>
        have notLast : as.getLast? ≠ some y := by
          intro last
          rw [asIs,getLast?_append_cons,List.getLast?_cons_cons] at last
          have inside := List.mem_of_getLast? last
          have distinct := (List.nodup_append.mp nodup).1
          rw [asIs] at distinct
          exact (List.nodup_cons.mp (List.nodup_append.mp distinct).2.1).1 inside
        rw [(relinkNext y member).2 notLast,oldNext,vsIs]
        simp

/-- A cell taken out, its neighbours made to name each other. -/
theorem linked_remove {as bs : List α} {x : α} (linked : Linked next prev (as ++ x :: bs)) (nodup : (as ++ x :: bs).Nodup)
    (relinkNext : ∀ y ∈ as ++ bs, (as.getLast? = some y → next' y = bs.head?) ∧ (as.getLast? ≠ some y → next' y = next y))
    (relinkPrev : ∀ y ∈ as ++ bs, (bs.head? = some y → prev' y = as.getLast?) ∧ (bs.head? ≠ some y → prev' y = prev y)) :
    Linked next' prev' (as ++ bs) := by
  intro us y vs split
  have member : y ∈ as ++ bs := by simp [split]
  have apart : ∀ z ∈ as, z ∉ bs := by
    intro z inAs inBs
    exact (List.nodup_append.mp nodup).2.2 z inAs z (by simp [inBs]) rfl
  have distinct : (as ++ bs).Nodup := by
    refine List.Sublist.nodup ?_ nodup
    simp
  rcases List.append_eq_append_iff.mp split with ⟨mid,usIs,rest⟩ | ⟨mid,asIs,rest⟩
  · obtain ⟨oldPrev,oldNext⟩ := linked (as ++ x :: mid) y vs (by rw [rest]; simp)
    have notBefore : as.getLast? ≠ some y := fun last => apart y (List.mem_of_getLast? last) (by simp [rest])
    refine ⟨?_,by rw [(relinkNext y member).2 notBefore,oldNext]⟩
    cases mid with
    | nil =>
      rw [(relinkPrev y member).1 (by simp [rest]),usIs]
      simp
    | cons w mid =>
      have notFirst : bs.head? ≠ some y := by
        intro first
        simp only [rest,List.cons_append,List.head?_cons,Option.some.injEq] at first
        rw [rest,first] at distinct
        simp [List.nodup_append] at distinct
      rw [(relinkPrev y member).2 notFirst,oldPrev,usIs]
      rw [getLast?_append_cons,getLast?_append_cons,List.getLast?_cons_cons]
  · cases mid with
    | nil =>
      simp only [List.nil_append,List.append_nil] at rest asIs
      obtain ⟨oldPrev,oldNext⟩ := linked (as ++ [x]) y vs (by rw [← rest]; simp)
      have notBefore : as.getLast? ≠ some y :=
        fun last => apart y (List.mem_of_getLast? last) (by simp [← rest])
      refine ⟨?_,by rw [(relinkNext y member).2 notBefore,oldNext]⟩
      rw [(relinkPrev y member).1 (by simp [← rest]),asIs]
    | cons z mid =>
      simp only [List.cons_append,List.cons.injEq] at rest
      obtain ⟨rfl,vsIs⟩ := rest
      obtain ⟨oldPrev,oldNext⟩ := linked us y (mid ++ x :: bs) (by rw [asIs]; simp)
      have notFirst : bs.head? ≠ some y := fun first => apart y (by simp [asIs]) (List.mem_of_head? first)
      refine ⟨by rw [(relinkPrev y member).2 notFirst,oldPrev],?_⟩
      cases mid with
      | nil =>
        rw [(relinkNext y member).1 (by simp [asIs]),vsIs]
        simp
      | cons w mid =>
        have notLast : as.getLast? ≠ some y := by
          intro last
          rw [asIs,getLast?_append_cons,List.getLast?_cons_cons] at last
          have inside := List.mem_of_getLast? last
          have distinct := (List.nodup_append.mp nodup).1
          rw [asIs] at distinct
          exact (List.nodup_cons.mp (List.nodup_append.mp distinct).2.1).1 inside
        rw [(relinkNext y member).2 notLast,oldNext,vsIs]
        simp

/-- `next` links the cells `xs` in this order and ends behind the last one. -/
def Stacked (next : α → Option α) : List α → Prop
  | [] => True
  | x :: xs => next x = xs.head? ∧ Stacked next xs

theorem stacked_congr : ∀ {xs : List α}, Stacked next xs → (∀ x ∈ xs, next' x = next x) → Stacked next' xs
  | [], _, _ => trivial
  | x :: xs, ⟨here,rest⟩, same =>
    ⟨by rw [same x (by simp),here],stacked_congr rest (fun y member => same y (by simp [member]))⟩

theorem stacked_of_linked : ∀ (as : List α) {xs : List α}, Linked next prev (as ++ xs) → Stacked next xs
  | _, [], _ => trivial
  | as, x :: xs, linked => by
    have further : Linked next prev ((as ++ [x]) ++ xs) := by simpa using linked
    exact ⟨(linked as x xs rfl).2,stacked_of_linked (as ++ [x]) further⟩

/-- The cells from a start on, if there are fewer than the bound. -/
def follow (next : α → Option α) : Nat → Option α → Option (List α)
  | 0, _ => none
  | _ + 1, none => some []
  | bound + 1, some x => (follow next bound (next x)).map (x :: ·)

theorem follow_stacked : ∀ {xs : List α} {bound : Nat}, Stacked next xs → xs.length < bound → follow next bound xs.head? = some xs
  | _, 0, _, short => absurd short (Nat.not_lt_zero _)
  | [], _ + 1, _, _ => rfl
  | x :: xs, bound + 1, ⟨here,rest⟩, short => by
    have tail := follow_stacked rest (show xs.length < bound by simpa using short)
    rw [List.head?_cons,follow,here,tail]
    rfl

end BaboEngine.DoublyLinked
