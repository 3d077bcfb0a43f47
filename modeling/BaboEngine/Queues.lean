import BaboEngine.Orderly

/-!
# Queues

Time is not stored in a book. For each kind of side the journal has the ids in the order
in which they came in, and a side is sorted by key and then by that order.
-/

namespace BaboEngine

/-- When an id arrived: the number of arrivals up to and including its last one. -/
def lastAt (arrivals : List Nat) (id : Nat) : Nat := arrivals.length - arrivals.reverse.idxOf id

theorem lastAt_le (arrivals : List Nat) (id : Nat) : lastAt arrivals id ≤ arrivals.length := Nat.sub_le _ _

theorem lastAt_append (arrivals : List Nat) (new id : Nat) : lastAt (arrivals ++ [new]) id =
    if new = id then arrivals.length + 1 else lastAt arrivals id := by
  unfold lastAt
  rw [List.reverse_append,List.reverse_singleton,List.singleton_append,List.idxOf_cons,List.length_append,List.length_singleton]
  by_cases same : new = id
  · simp [same]
  · have other : (new == id) = false := by simpa using same
    rw [other,if_neg same]
    exact Nat.add_sub_add_right ..

/-- The first order has priority over the second: a better key, or the same key and an earlier arrival. -/
def Before (t : TreeName) (arrivals : List Nat) (o o' : SimpleOrder) : Prop :=
  Book.Ahead t o o' ∨ t.key o = t.key o' ∧ lastAt arrivals o.orderId < lastAt arrivals o'.orderId

/-- A side is in order of priority, and every order on it has arrived. -/
structure Queued (t : TreeName) (arrivals : List Nat) (os : List SimpleOrder) : Prop where
  sorted : os.Pairwise (Before t arrivals)
  arrived : ∀ o ∈ os, 0 < lastAt arrivals o.orderId

/-- What priority depends on. -/
def rank (t : TreeName) (o : SimpleOrder) : Nat × Nat := (t.key o,o.orderId)

variable {t : TreeName} {arrivals : List Nat} {os os' : List SimpleOrder} {o : SimpleOrder}

theorem queued_nil (t : TreeName) (arrivals : List Nat) : Queued t arrivals [] := ⟨.nil,by simp⟩

theorem Queued.sublist (queued : Queued t arrivals os) (sublist : (os'.map (rank t)).Sublist (os.map (rank t))) :
    Queued t arrivals os' := by
  have sorted : (os.map (rank t)).Pairwise fun p p' =>
      t.type.better p.1 p'.1 ∨ p.1 = p'.1 ∧ lastAt arrivals p.2 < lastAt arrivals p'.2 := List.pairwise_map.mpr queued.sorted
  have sorted' := List.pairwise_map.mp (sorted.sublist sublist)
  refine ⟨sorted',?_⟩
  intro o member
  obtain ⟨x,old,same⟩ := List.mem_map.mp (sublist.subset (List.mem_map_of_mem (f := rank t) member))
  have isId : x.orderId = o.orderId := congrArg Prod.snd same
  rw [← isId]
  exact queued.arrived x old

/-- The arrival of another id changes nothing. -/
theorem Queued.append (queued : Queued t arrivals os) {new : Nat} (absent : ∀ x ∈ os, x.orderId ≠ new) :
    Queued t (arrivals ++ [new]) os := by
  have same : ∀ x ∈ os, lastAt (arrivals ++ [new]) x.orderId = lastAt arrivals x.orderId := by
    intro x member
    rw [lastAt_append,if_neg (absent x member).symm]
  refine ⟨queued.sorted.imp_of_mem ?_,fun x member => by rw [same x member]; exact queued.arrived x member⟩
  intro x y first second before
  unfold Before
  rw [same x first,same y second]
  exact before

/-- The order that arrived last comes behind all orders of a better or equal key. -/
theorem Queued.insert (queued : Queued t arrivals os) (absent : ∀ x ∈ os, x.orderId ≠ o.orderId) (sorted : Book.SortedSide t os) :
    Queued t (arrivals ++ [o.orderId]) (os.orderedInsert (Book.Ahead t) o) := by
  have others := queued.append absent
  have last : lastAt (arrivals ++ [o.orderId]) o.orderId = arrivals.length + 1 := by rw [lastAt_append,if_pos rfl]
  have earlier : ∀ x ∈ os, lastAt (arrivals ++ [o.orderId]) x.orderId < arrivals.length + 1 := by
    intro x member
    rw [lastAt_append,if_neg (absent x member).symm]
    exact Nat.lt_succ_of_le (lastAt_le _ _)
  constructor
  · obtain ⟨xs,ys,rfl,inserted,behind,ahead⟩ := Book.orderedInsert_split sorted o
    obtain ⟨front,back,between⟩ := List.pairwise_append.mp others.sorted
    rw [inserted,List.pairwise_append,List.pairwise_cons]
    refine ⟨front,⟨fun y member => .inl (ahead y member),back⟩,?_⟩
    intro x member y second
    rcases List.mem_cons.mp second with rfl | inYs
    · by_cases same : t.key x = t.key y
      · exact .inr ⟨same,by rw [last]; exact earlier x (by simp [member])⟩
      · exact .inl ((t.type.better_total same).resolve_right (behind x member))
    · exact between x member y inYs
  · intro x member
    rcases (List.mem_orderedInsert _).mp member with rfl | old
    · rw [last]
      exact Nat.succ_pos _
    · exact others.arrived x old

end BaboEngine
