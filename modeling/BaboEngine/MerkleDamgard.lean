import Mathlib.Data.List.Basic

/-!
# Iterated hashing

A compression function `f` folded over the blocks of a message. Two messages whose hashes are
equal are equal, or among the compressions that were done for them there are two that
collide; for that the padding must be injective and its last block must determine the
number of blocks (`eq_or_collide`).
-/

namespace BaboEngine.MerkleDamgard

variable {S B M : Type} {f : S → B → S}

/-- The compressions that are done for some blocks. -/
def steps (f : S → B → S) : S → List B → List (S × B)
  | _, [] => []
  | h, b :: bs => (h,b) :: steps f (f h b) bs

/-- Two different inputs of the compression function, one of each list, with one output. -/
def Collide (f : S → B → S) (ps qs : List (S × B)) : Prop := ∃ p ∈ ps, ∃ q ∈ qs, p ≠ q ∧ f p.1 p.2 = f q.1 q.2

theorem Collide.mono {ps ps' qs qs' : List (S × B)} (collide : Collide f ps qs) (left : ps ⊆ ps') (right : qs ⊆ qs') : Collide f ps' qs' := by
  obtain ⟨p,inLeft,q,inRight,other,same⟩ := collide
  exact ⟨p,left inLeft,q,right inRight,other,same⟩

theorem steps_append (h : S) (bs bs' : List B) : steps f h (bs ++ bs') = steps f h bs ++ steps f (bs.foldl f h) bs' := by
  induction bs generalizing h with
  | nil => rfl
  | cons b bs ih => simp [steps,ih]

/-- As many blocks: the first compression in which the computations differ and after which they agree is a collision. -/
theorem blocks_eq_or_collide (bs : List B) : ∀ {h h' : S} {bs' : List B}, bs.length = bs'.length → bs.foldl f h = bs'.foldl f h' →
    (h = h' ∧ bs = bs') ∨ Collide f (steps f h bs) (steps f h' bs') := by
  induction bs with
  | nil =>
    rintro h h' (_ | ⟨b',bs'⟩) length same
    · exact .inl ⟨same,rfl⟩
    · simp at length
  | cons b bs ih =>
    rintro h h' (_ | ⟨b',bs'⟩) length same
    · simp at length
    · cases ih (Nat.succ.inj length) same with
      | inl agree =>
        obtain ⟨next,rfl⟩ := agree
        by_cases here : (h,b) = (h',b')
        · obtain ⟨rfl,rfl⟩ := Prod.mk.inj here
          exact .inl ⟨rfl,rfl⟩
        · exact .inr ⟨(h,b),List.mem_cons_self,(h',b'),List.mem_cons_self,here,next⟩
      | inr collide => exact .inr (collide.mono (List.subset_cons_self _ _) (List.subset_cons_self _ _))

/-- The last compressions have one output, so their blocks are the same or they collide. -/
theorem last_eq_or_collide {h h' : S} {bs bs' : List B} {z z' : B} (same : (bs ++ [z]).foldl f h = (bs' ++ [z']).foldl f h') :
    z = z' ∨ Collide f (steps f h (bs ++ [z])) (steps f h' (bs' ++ [z'])) := by
  rw [List.foldl_append,List.foldl_append] at same
  by_cases last : z = z'
  · exact .inl last
  · refine .inr ⟨(bs.foldl f h,z),?_,(bs'.foldl f h',z'),?_,fun pair => last (Prod.mk.inj pair).2,same⟩
    · simp [steps_append,steps]
    · simp [steps_append,steps]

theorem eq_or_collide {pad : M → List B} {h : S} {m m' : M} (some : pad m ≠ []) (some' : pad m' ≠ [])
    (last : (pad m).getLast? = (pad m').getLast? → (pad m).length = (pad m').length) (injective : pad m = pad m' → m = m')
    (same : (pad m).foldl f h = (pad m').foldl f h) : m = m' ∨ Collide f (steps f h (pad m)) (steps f h (pad m')) := by
  obtain ⟨bs,z,isPad⟩ := (List.eq_nil_or_concat (pad m)).resolve_left some
  obtain ⟨bs',z',isPad'⟩ := (List.eq_nil_or_concat (pad m')).resolve_left some'
  rw [List.concat_eq_append] at isPad isPad'
  have lastBlocks : z = z' ∨ Collide f (steps f h (pad m)) (steps f h (pad m')) := by
    rw [isPad,isPad'] at same ⊢
    exact last_eq_or_collide same
  cases lastBlocks with
  | inl isLast =>
    have length : (pad m).length = (pad m').length := last (by rw [isPad,isPad',isLast]; simp)
    cases blocks_eq_or_collide (pad m) length same with
    | inl agree => exact .inl (injective agree.2)
    | inr collide => exact .inr collide
  | inr collide => exact .inr collide

end BaboEngine.MerkleDamgard
