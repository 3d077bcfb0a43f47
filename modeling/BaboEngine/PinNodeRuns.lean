import BaboEngine.PinNode

/-!
# Runs of a node

A node is a bounded list with stable slots: what its operations make of the links is what they
make of an ordinary list whose entries carry their slots (`bounded_list`).
-/

namespace BaboEngine

namespace PinNode
open DoublyLinked
variable {N : Capacity} {n n' : PinNode N} {s : Nat} {fs : List Nat}

/-- The operations that change the orders of a node. -/
inductive Operation where
  | append (order : SimpleOrder)
  | prepend (order : SimpleOrder)
  | insertAfter (reference : Nat) (order : SimpleOrder)
  | erase (slot : Nat)

/-- The node after an operation, and the slot of the order that came or went. -/
def operate (n : PinNode N) : Operation → Option (PinNode N × Nat)
  | .append order => n.append order
  | .prepend order => n.prepend order
  | .insertAfter reference order => n.insertAfter reference order
  | .erase slot => some (n.erase slot,slot)

/-- An order with its slot. -/
abbrev Entry := Nat × SimpleOrder

/-- An operation on an ordinary list, the order that comes having the slot `s`. -/
def Operation.onList (s : Nat) : Operation → List Entry → List Entry
  | .append order, es => es ++ [(s,order)]
  | .prepend order, es => (s,order) :: es
  | .insertAfter reference order, es => es.flatMap fun e => if e.1 = reference then [e,(s,order)] else [e]
  | .erase slot, es => es.filter fun e => e.1 ≠ slot

/-- The slots of a list are live. -/
def slotsOf (es : List Entry) : List Nat := es.map Prod.fst

/-- An order comes only where there is room, and a slot that is named is live. -/
def Allowed (n : PinNode N) (es : List Entry) : Operation → Prop
  | .append _ | .prepend _ => n.full = false
  | .insertAfter reference _ => n.full = false ∧ reference ∈ slotsOf es
  | .erase slot => slot ∈ slotsOf es

instance (n : PinNode N) (es : List Entry) : (op : Operation) → Decidable (n.Allowed es op)
  | .append _ | .prepend _ => inferInstanceAs (Decidable (n.full = false))
  | .insertAfter reference _ => inferInstanceAs (Decidable (n.full = false ∧ reference ∈ slotsOf es))
  | .erase slot => inferInstanceAs (Decidable (slot ∈ slotsOf es))

/-- Some operations have made this node of a fresh one, and this list of the empty one. -/
inductive Reached : PinNode N → List Entry → Prop
  | fresh : Reached .new []
  | after {n n' : PinNode N} {es : List Entry} {s : Nat} (op : Operation) : Reached n es → n.Allowed es op →
      n.operate op = some (n',s) → Reached n' (op.onList s es)

variable {es : List Entry} {op : Operation}

/-- The node has the list, and `fs` as its free list. -/
structure Carries (n : PinNode N) (es : List Entry) (fs : List Nat) : Prop where
  holds : n.Holds (slotsOf es) fs
  payload : ∀ e ∈ es, n.slots e.1 = e.2

theorem Allowed.split {r : Nat} (live : r ∈ slotsOf es) : ∃ as x bs, es = as ++ (r,x) :: bs := by
  obtain ⟨⟨_,x⟩,member,rfl⟩ := List.mem_map.mp live
  obtain ⟨as,bs,split⟩ := List.append_of_mem member
  exact ⟨as,x,bs,split⟩

theorem slotsOf_append (as bs : List Entry) : slotsOf (as ++ bs) = slotsOf as ++ slotsOf bs := List.map_append

/-! ## Ordinary lists -/

/-- A slot that is in a list only once. -/
theorem apart_of_nodup {as bs : List Entry} {r : Nat} {x : SimpleOrder} (nodup : (slotsOf (as ++ (r,x) :: bs)).Nodup) :
    (∀ e ∈ as, e.1 ≠ r) ∧ ∀ e ∈ bs, e.1 ≠ r := by
  rw [slotsOf_append] at nodup
  have once : r ∉ slotsOf as ++ slotsOf bs := (List.nodup_cons.mp (List.nodup_middle.mp nodup)).1
  constructor
  · rintro e member rfl
    exact once (List.mem_append_left _ (List.mem_map_of_mem member))
  · rintro e member rfl
    exact once (List.mem_append_right _ (List.mem_map_of_mem member))

theorem onList_insertAfter {as bs : List Entry} {r : Nat} {x : SimpleOrder} (order : SimpleOrder)
    (nodup : (slotsOf (as ++ (r,x) :: bs)).Nodup) :
    (Operation.insertAfter r order).onList s (as ++ (r,x) :: bs) = as ++ (r,x) :: (s,order) :: bs := by
  have same : ∀ es : List Entry, (∀ e ∈ es, e.1 ≠ r) → (es.flatMap fun e => if e.1 = r then [e,(s,order)] else [e]) = es := by
    intro es
    induction es with
    | nil => exact fun _ => rfl
    | cons e es ih =>
      intro each
      obtain ⟨here,rest⟩ := List.forall_mem_cons.mp each
      rw [List.flatMap_cons,if_neg here,ih rest]
      rfl
  obtain ⟨before,behind⟩ := apart_of_nodup nodup
  rw [Operation.onList,List.flatMap_append,List.flatMap_cons,if_pos rfl,same as before,same bs behind]
  rfl

theorem onList_erase {as bs : List Entry} {r : Nat} {x : SimpleOrder} (nodup : (slotsOf (as ++ (r,x) :: bs)).Nodup) :
    (Operation.erase r).onList s (as ++ (r,x) :: bs) = as ++ bs := by
  obtain ⟨before,behind⟩ := apart_of_nodup nodup
  have kept : ∀ es : List Entry, (∀ e ∈ es, e.1 ≠ r) → es.filter (fun e => e.1 ≠ r) = es :=
    fun es each => List.filter_eq_self.mpr fun e member => decide_eq_true (each e member)
  rw [Operation.onList,List.filter_append,kept as before,List.filter_cons_of_neg (by simp),kept bs behind]

/-! ## What an operation does -/

theorem Carries.added {es' : List Entry} {fs' : List Nat} {order : SimpleOrder} (carries : Carries n es fs) (fresh : s ∉ slotsOf es)
    (holds : n'.Holds (slotsOf es') fs') (added : Added n n' order s) (each : ∀ e ∈ es', e ∈ es ∨ e = (s,order)) : Carries n' es' fs' := by
  refine ⟨holds,?_⟩
  intro e member
  rcases each e member with old | rfl
  · have other : e.1 ≠ s := fun same => fresh (same ▸ List.mem_map_of_mem old)
    rw [added.others e.1 other]
    exact carries.payload e old
  · exact added.here

/-- An allowed operation has a result, which carries the list that it makes, and no other order changes. -/
theorem Carries.operate (carries : Carries n es fs) (allowed : n.Allowed es op) : ∃ n' s fs', n.operate op = some (n',s) ∧
    Carries n' (op.onList s es) fs' ∧ ∀ e ∈ es, op ≠ .erase e.1 → e ∈ op.onList s es ∧ n'.slots e.1 = n.slots e.1 := by
  have nodup : (slotsOf es).Nodup := (List.nodup_append.mp carries.holds.nodup).1
  have room : n.full = false → (slotsOf es).length < N.val := by
    intro notFull
    have le := carries.holds.length
    have other : (slotsOf es).length ≠ N.val := fun same => by simp [carries.holds.full_iff.mpr same] at notFull
    omega
  have isFresh : ∀ {s rest}, fs = s :: rest → s ∉ slotsOf es := by
    rintro s rest rfl member
    exact (List.nodup_append.mp carries.holds.nodup).2.2 s member s List.mem_cons_self rfl
  have untouched : ∀ {n' s order}, Added n n' order s → s ∉ slotsOf es → ∀ e ∈ es, n'.slots e.1 = n.slots e.1 :=
    fun added fresh e member => added.others e.1 fun same => fresh (same ▸ List.mem_map_of_mem member)
  cases op with
  | append order =>
    obtain ⟨s,rest,n',isFs,executed,holds,added⟩ := append_spec carries.holds (room allowed) order
    have isList : slotsOf (es ++ [(s,order)]) = slotsOf es ++ [s] := slotsOf_append es _
    refine ⟨n',s,rest,executed,carries.added (isFresh isFs) (isList ▸ holds) added ?_,?_⟩
    · intro e member
      exact (List.mem_append.mp member).imp_right List.mem_singleton.mp
    · intro e member _
      exact ⟨List.mem_append_left _ member,untouched added (isFresh isFs) e member⟩
  | prepend order =>
    obtain ⟨s,rest,n',isFs,executed,holds,added⟩ := prepend_spec carries.holds (room allowed) order
    refine ⟨n',s,rest,executed,carries.added (isFresh isFs) (show n'.Holds (slotsOf ((s,order) :: es)) rest from holds) added ?_,?_⟩
    · intro e member
      exact (List.mem_cons.mp member).symm
    · intro e member _
      exact ⟨List.mem_cons_of_mem _ member,untouched added (isFresh isFs) e member⟩
  | insertAfter reference order =>
    obtain ⟨as,x,bs,rfl⟩ := Allowed.split allowed.2
    have isSlots : slotsOf (as ++ (reference,x) :: bs) = slotsOf as ++ reference :: slotsOf bs := slotsOf_append as _
    have lengths := room allowed.1
    have holds := carries.holds
    rw [isSlots] at holds lengths
    obtain ⟨s,rest,n',isFs,executed,holds',added⟩ := insertAfter_spec holds lengths order
    have isList : slotsOf (as ++ (reference,x) :: (s,order) :: bs) = slotsOf as ++ reference :: s :: slotsOf bs := slotsOf_append as _
    refine ⟨n',s,rest,executed,?_,?_⟩
    · rw [onList_insertAfter order nodup]
      apply carries.added (isFresh isFs) (isList ▸ holds') added
      intro e member
      simp only [List.mem_append,List.mem_cons] at member ⊢
      tauto
    · intro e member _
      rw [onList_insertAfter order nodup]
      refine ⟨?_,untouched added (isFresh isFs) e member⟩
      simp only [List.mem_append,List.mem_cons] at member ⊢
      tauto
  | erase slot =>
    obtain ⟨as,x,bs,rfl⟩ := Allowed.split allowed
    have isSlots : slotsOf (as ++ (slot,x) :: bs) = slotsOf as ++ slot :: slotsOf bs := slotsOf_append as _
    have holds := carries.holds
    rw [isSlots] at holds
    obtain ⟨holds',slots,_⟩ := erase_spec holds
    refine ⟨n.erase slot,slot,slot :: fs,rfl,?_,?_⟩
    · rw [onList_erase nodup]
      refine ⟨by rw [slotsOf_append]; exact holds',?_⟩
      intro e member
      rw [slots]
      apply carries.payload e
      simp only [List.mem_append,List.mem_cons] at member ⊢
      tauto
    · intro e member other
      refine ⟨List.mem_filter.mpr ⟨member,?_⟩,by rw [slots]⟩
      exact decide_eq_true fun same => other (by rw [same])

theorem Reached.carries (reached : Reached n es) : ∃ fs, Carries n es fs := by
  induction reached with
  | fresh => exact ⟨_,holds_new,by simp⟩
  | after op _ allowed operated ih =>
    obtain ⟨fs,carries⟩ := ih
    obtain ⟨n',s,fs',operated',carries',_⟩ := carries.operate allowed
    obtain ⟨rfl,rfl⟩ := Prod.mk.inj (Option.some.inj (operated.symm.trans operated'))
    exact ⟨fs',carries'⟩

/-! ## What a node is -/

/-- The node is a bounded list of these entries. -/
structure IsList (n : PinNode N) (es : List Entry) : Prop where
  forward : follow n.next (N.val + 1) n.head = some (slotsOf es)
  backward : follow n.prev (N.val + 1) n.tail = some (slotsOf es).reverse
  payload : ∀ e ∈ es, n.slots e.1 = e.2
  size : n.size = es.length
  inRange : (slotsOf es).Nodup ∧ ∀ s ∈ slotsOf es, s < N.val
  free : ∃ fs, follow n.next (N.val + 1) n.free = some fs ∧ fs.Nodup ∧ ∀ s, s ∈ fs ↔ s < N.val ∧ s ∉ slotsOf es

theorem Carries.isList (carries : Carries n es fs) : n.IsList es := by
  have nodup := carries.holds.nodup
  have total := carries.holds.length
  obtain ⟨⟨slots,linked,head,tail,free,stacked,size⟩,payload⟩ := carries
  have inRange : ∀ s, s ∈ slotsOf es ++ fs ↔ s < N.val := fun s => slots.mem_iff.trans List.mem_range
  refine ⟨?_,?_,payload,by rw [size,slotsOf,List.length_map],⟨(List.nodup_append.mp nodup).1,?_⟩,fs,?_,(List.nodup_append.mp nodup).2.1,?_⟩
  · rw [head]
    exact follow_stacked (stacked_of_linked [] linked) (by omega)
  · rw [tail,← List.head?_reverse]
    exact follow_stacked (stacked_of_linked [] (linked_reverse linked)) (by rw [List.length_reverse]; omega)
  · exact fun s member => (inRange s).mp (List.mem_append_left _ member)
  · rw [free]
    exact follow_stacked stacked (by omega)
  · intro s
    rw [← inRange s,List.mem_append]
    constructor
    · exact fun member => ⟨.inr member,fun live => (List.nodup_append.mp nodup).2.2 s live s member rfl⟩
    · exact fun ⟨both,notLive⟩ => both.resolve_left notLive

/-- Every node that the operations make of a fresh one is a bounded list, and the next operation leaves
    the slots and payloads of all orders that stay. -/
theorem bounded_list (reached : Reached n es) : n.IsList es ∧ ∀ op, n.Allowed es op → ∃ n' s, n.operate op = some (n',s) ∧
    n'.IsList (op.onList s es) ∧ ∀ e ∈ es, op ≠ .erase e.1 → e ∈ op.onList s es ∧ n'.slots e.1 = n.slots e.1 := by
  obtain ⟨fs,carries⟩ := reached.carries
  refine ⟨carries.isList,?_⟩
  intro op allowed
  obtain ⟨n',s,fs',operated,carries',others⟩ := carries.operate allowed
  exact ⟨n',s,operated,carries'.isList,others⟩

/-- A node of two slots: two orders come, the first one goes, and its slot is taken again, in front of the other order. -/
theorem bounded_list_reuse : ∃ n : PinNode ⟨2,by decide,by decide⟩, n.IsList [(0,.new true 9 1 0 0 3),(1,.new true 9 1 0 0 2)] ∧
    ∃ n' s, n.operate (.erase 1) = some (n',s) ∧ n'.IsList [(0,.new true 9 1 0 0 3)] := by
  have first := Reached.after (N := ⟨2,by decide,by decide⟩) (.append (.new true 9 1 0 0 1)) .fresh (by decide) rfl
  have second := first.after (.append (.new true 9 1 0 0 2)) (by decide) rfl
  have third := second.after (.erase 0) (by decide) rfl
  have last := third.after (.prepend (.new true 9 1 0 0 3)) (by decide) rfl
  obtain ⟨isList,steps⟩ := bounded_list last
  obtain ⟨n',s,operated,isList',_⟩ := steps (.erase 1) (by decide)
  obtain ⟨rfl,rfl⟩ := Prod.mk.inj (Option.some.inj operated)
  exact ⟨_,isList,_,_,rfl,isList'⟩

end PinNode

end BaboEngine
