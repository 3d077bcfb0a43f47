import Mathlib.Order.Lattice
import Mathlib.Data.List.Pairwise

/-!
# Ordered maps

A map as the list of its entries, by ascending key. `insert` adds an entry or replaces the
value of one; a list of entries with ascending keys, inserted one by one, gives the map of
these entries (`foldl_insert`).
-/

namespace BaboEngine

/-- The entries of a map. -/
@[ext] structure OrderedMap (K V : Type) [LinearOrder K] where
  entries : List (K × V)
  ascending : entries.Pairwise fun e e' => e.1 < e'.1

namespace OrderedMap
variable {K V : Type} [LinearOrder K]

def empty : OrderedMap K V := ⟨[],.nil⟩

def find? (m : OrderedMap K V) (k : K) : Option V := m.entries.lookup k

def insertEntry (k : K) (v : V) : List (K × V) → List (K × V)
  | [] => [(k,v)]
  | e :: es => if k < e.1 then (k,v) :: e :: es else if k = e.1 then (k,v) :: es else e :: insertEntry k v es

theorem mem_insertEntry {k : K} {v : V} {e : K × V} {es : List (K × V)} (member : e ∈ insertEntry k v es) : e = (k,v) ∨ e ∈ es := by
  induction es with
  | nil => exact .inl (List.mem_singleton.mp member)
  | cons e' es ih =>
    unfold insertEntry at member
    split_ifs at member
    · exact List.mem_cons.mp member
    · exact (List.mem_cons.mp member).imp_right (List.mem_cons_of_mem _)
    · cases List.mem_cons.mp member with
      | inl isFirst => exact .inr (isFirst ▸ List.mem_cons_self)
      | inr later => exact (ih later).imp_right (List.mem_cons_of_mem _)

theorem ascending_insertEntry {es : List (K × V)} (k : K) (v : V) (ascending : es.Pairwise fun e e' => e.1 < e'.1) :
    (insertEntry k v es).Pairwise fun e e' => e.1 < e'.1 := by
  induction es with
  | nil => exact List.pairwise_singleton _ _
  | cons e es ih =>
    obtain ⟨first,rest⟩ := List.pairwise_cons.mp ascending
    unfold insertEntry
    split_ifs with less same
    · refine List.pairwise_cons.mpr ⟨?_,ascending⟩
      intro e' member
      cases List.mem_cons.mp member with
      | inl isFirst => rwa [isFirst]
      | inr later => exact less.trans (first e' later)
    · exact List.pairwise_cons.mpr ⟨fun e' later => by rw [same]; exact first e' later,rest⟩
    · refine List.pairwise_cons.mpr ⟨?_,ih rest⟩
      intro e' member
      cases mem_insertEntry member with
      | inl isNew =>
        rw [isNew]
        exact lt_of_le_of_ne (not_lt.mp less) (Ne.symm same)
      | inr later => exact first e' later

/-- `operator[]` with an assignment. -/
def insert (m : OrderedMap K V) (k : K) (v : V) : OrderedMap K V := ⟨insertEntry k v m.entries,ascending_insertEntry k v m.ascending⟩

variable {m : OrderedMap K V}

theorem lookup_cons_ne {k k' : K} (other : k' ≠ k) (v : V) (es : List (K × V)) : ((k,v) :: es).lookup k' = es.lookup k' := by
  rw [List.lookup_cons,beq_false_of_ne other]

theorem lookup_insertEntry (k k' : K) (v : V) (es : List (K × V)) :
    (insertEntry k v es).lookup k' = if k' = k then some v else es.lookup k' := by
  induction es with
  | nil =>
    by_cases isKey : k' = k
    · rw [if_pos isKey,isKey]
      exact List.lookup_cons_self
    · rw [if_neg isKey]
      exact lookup_cons_ne isKey v []
  | cons e es ih =>
    obtain ⟨key,value⟩ := e
    unfold insertEntry
    by_cases isKey : k' = k
    · rw [if_pos isKey] at ih ⊢
      split_ifs with less same
      · rw [isKey,List.lookup_cons_self]
      · rw [isKey,List.lookup_cons_self]
      · rw [lookup_cons_ne (isKey ▸ same),ih]
    · rw [if_neg isKey] at ih ⊢
      split_ifs with less same
      · exact lookup_cons_ne isKey v _
      · rw [lookup_cons_ne isKey,lookup_cons_ne fun isKey' => isKey (isKey'.trans same.symm)]
      · rw [List.lookup_cons,List.lookup_cons,ih]

theorem find?_insert (m : OrderedMap K V) (k : K) (v : V) (k' : K) : (m.insert k v).find? k' = if k' = k then some v else m.find? k' :=
  lookup_insertEntry k k' v m.entries

theorem insertEntry_last {k : K} {v : V} {es : List (K × V)} (above : ∀ e ∈ es, e.1 < k) : insertEntry k v es = es ++ [(k,v)] := by
  induction es with
  | nil => rfl
  | cons e es ih =>
    obtain ⟨first,rest⟩ := List.forall_mem_cons.mp above
    rw [insertEntry,if_neg first.not_gt,if_neg first.ne',ih rest]
    rfl

/-- Entries by ascending key. -/
theorem foldl_insert (es : List (K × V)) : ∀ m : OrderedMap K V, (m.entries ++ es).Pairwise (fun e e' => e.1 < e'.1) →
    (es.foldl (fun m e => m.insert e.1 e.2) m).entries = m.entries ++ es := by
  induction es with
  | nil => intro m _; exact (List.append_nil _).symm
  | cons e es ih =>
    intro m ascending
    have last : (m.insert e.1 e.2).entries = m.entries ++ [e] :=
      insertEntry_last fun e' member => (List.pairwise_append.mp ascending).2.2 e' member e List.mem_cons_self
    rw [List.foldl_cons,ih _ (by rwa [last,List.append_assoc]),last,List.append_assoc]
    rfl

theorem mem_of_find? {k : K} {v : V} (found : m.find? k = some v) : (k,v) ∈ m.entries := by
  unfold find? at found
  revert found
  induction m.entries with
  | nil => exact fun found => by cases found
  | cons e es ih =>
    intro found
    rw [List.lookup_cons] at found
    split at found
    next same =>
      obtain rfl := Option.some.inj found
      rw [eq_of_beq same]
      exact List.mem_cons_self
    next => exact List.mem_cons_of_mem _ (ih found)

theorem mem_foldl_insert {P : K × V → Prop} (es : List (K × V)) : ∀ m : OrderedMap K V, (∀ e ∈ m.entries, P e) → (∀ e ∈ es, P e) →
    ∀ e ∈ (es.foldl (fun m e => m.insert e.1 e.2) m).entries, P e := by
  induction es with
  | nil => exact fun _ old _ => old
  | cons e es ih =>
    intro m old new
    obtain ⟨first,rest⟩ := List.forall_mem_cons.mp new
    apply ih _ _ rest
    intro e' member
    cases mem_insertEntry member with
    | inl isNew => exact isNew ▸ first
    | inr isOld => exact old e' isOld

end OrderedMap

end BaboEngine
