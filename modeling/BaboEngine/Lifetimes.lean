import BaboEngine.Engines

/-!
# The lifetimes of orders

An order comes to the book with its NEW message and by no other. So a stream that brings every
id at most once is admissible (`admitted_of_fresh`), and an order that has been cancelled is
gone: whatever comes in between, a second cancel and a late modify of it are rejected and
change nothing (`stale_rejected`).
-/

namespace BaboEngine
open Simulation

namespace Book
variable {b : Book} {o : SimpleOrder} {m : Message} {t : TreeName} {id : Nat}

/-- No order of the id is on the book. -/
def Gone (b : Book) (id : Nat) : Prop := ∀ t, id ∉ ids (b.side t)

theorem Gone.findResting (gone : b.Gone id) : b.findResting id = none := by
  cases found : b.findResting id with
  | none => rfl
  | some o =>
    obtain ⟨t,_,member,rfl⟩ := findResting_some found
    exact absurd (mem_ids member) (gone t)

theorem Gone.eraseFrom (gone : b.Gone id) (t : TreeName) (other : Nat) : (b.eraseFrom t other).Gone id := by
  intro t' present
  obtain ⟨o,member,isId⟩ := List.mem_map.mp present
  exact gone t' (List.mem_map.mpr ⟨o,(b.sublist_eraseFrom t t' other).subset member,isId⟩)

/-- An incoming order brings its own id alone. -/
theorem Gone.add (gone : b.Gone id) (plain : Plain b) (incoming : Incoming b o) (other : o.orderId ≠ id) : (b.add o).Gone id := by
  rw [incoming.add_eq plain]
  split_ifs with empty
  · exact gone
  · intro t present
    obtain ⟨x,member,isId⟩ := List.mem_map.mp present
    have sized := incoming.fields.1
    rcases mem_submit sized member with old | ⟨_,m,old,q,_,rfl,_⟩ | ⟨_,rfl,_,_,_⟩
    · exact gone t (List.mem_map.mpr ⟨x,old,isId⟩)
    · exact gone t (List.mem_map.mpr ⟨m,old,by simpa using isId⟩)
    · have same := (pass_inc (b := b.emit (.onAccept o.orderId)) sized).1.orderId
      exact other (same.symm.trans isId)

theorem Gone.cancel (gone : b.Gone id) (plain : Plain b) (member : o ∈ b.side t) : (b.cancel o.orderId).Gone id := by
  rw [(plain.cancel member).1]
  exact gone.eraseFrom t o.orderId

/-- An id that is gone comes back with a NEW message alone. -/
theorem Gone.answer (gone : b.Gone id) (plain : Plain b) (inRange : m.InRange) (admitted : b.Admits m)
    (notNew : ∀ o, m = .newOrder o → o.orderId.toNat ≠ id) : (b.answer m).1.Gone id := by
  cases m with
  | newOrder o =>
    apply gone.add plain (plain.newOrder inRange admitted)
    have small : o.orderId.toNat < 4294967296 := inRange.1.2
    show (castU32 o.orderId.toNat).toNat ≠ id
    rw [castU32_natCast small]
    exact notNew o rfl
  | cancel c =>
    show (b.answerCancel c).1.Gone id
    unfold answerCancel
    cases found : b.findResting c.orderId.toNat with
    | none => exact gone
    | some o =>
      obtain ⟨t,_,member,isId⟩ := findResting_some found
      rw [← isId]
      exact gone.cancel plain member
  | modify m =>
    show (b.answerModify m).1.Gone id
    unfold answerModify
    cases found : b.findResting m.orderId.toNat with
    | none => exact gone
    | some o =>
      obtain ⟨t,_,member,isId⟩ := findResting_some found
      have cancelled := (plain.cancel member).2
      have gone' := gone.cancel plain member
      rw [isId] at cancelled gone'
      apply gone'.add cancelled (plain.modified inRange member isId)
      have small : m.orderId.toNat < 4294967296 := inRange.1.2
      show (castU32 m.orderId.toNat).toNat ≠ id
      rw [castU32_natCast small,← isId]
      rintro rfl
      exact gone t (mem_ids member)

/-- A cancel leaves no order of its id. -/
theorem Plain.gone_cancel (plain : Plain b) (c : CancelOrder) : (b.answer (.cancel c)).1.Gone c.orderId.toNat := by
  show (b.answerCancel c).1.Gone c.orderId.toNat
  unfold answerCancel
  cases found : b.findResting c.orderId.toNat with
  | none => exact plain.absent found
  | some o =>
    obtain ⟨t,_,member,isId⟩ := findResting_some found
    rw [← isId]
    show (b.cancel o.orderId).Gone o.orderId
    rw [(plain.cancel member).1]
    exact plain.orderly.erased_ids member

end Book

/-! ## Streams -/

/-- The ids that the NEW messages of a stream bring. -/
def newIds (ms : List Message) : List Nat := ms.filterMap fun
  | .newOrder o => some o.orderId.toNat
  | _ => none

theorem newIds_append (ms ms' : List Message) : newIds (ms ++ ms') = newIds ms ++ newIds ms' := List.filterMap_append ..

theorem mem_newIds {ms : List Message} {o : NewOrder} (member : .newOrder o ∈ ms) : o.orderId.toNat ∈ newIds ms :=
  List.mem_filterMap.mpr ⟨_,member,rfl⟩

namespace Desk
variable {d : Desk} {ms : List Message} {id : Nat}

theorem gone_run (ms : List Message) : ∀ d : Desk, d.book.Plain → d.book.Gone id → Admitted Desk.Ok Desk.step d ms → id ∉ newIds ms →
    (ms.foldl step d).book.Plain ∧ (ms.foldl step d).book.Gone id := by
  induction ms with
  | nil => exact fun d plain gone _ _ => ⟨plain,gone⟩
  | cons m ms ih =>
    intro d plain gone admitted fresh
    obtain ⟨⟨inRange,admits⟩,rest⟩ := admitted
    rw [show m :: ms = [m] ++ ms from rfl,newIds_append,List.mem_append,not_or] at fresh
    refine ih _ (plain.answer inRange admits) (gone.answer plain inRange admits ?_) rest fresh.2
    rintro o rfl rfl
    exact fresh.1 (mem_newIds List.mem_cons_self)

/-- A stream in range that brings every id at most once is admissible. -/
theorem admitted_of_fresh (inRange : ∀ m ∈ ms, m.InRange) (fresh : (newIds ms).Nodup) : Admitted Desk.Ok Desk.step Desk.start ms := by
  induction ms using List.reverseRecOn with
  | nil => trivial
  | append_singleton ms m ih =>
    rw [newIds_append,List.nodup_append] at fresh
    have before := ih (fun m member => inRange m (List.mem_append_left _ member)) fresh.1
    refine admitted_append.mpr ⟨before,⟨inRange m (by simp),?_⟩,trivial⟩
    cases m with
    | newOrder o =>
      have unseen : o.orderId.toNat ∉ newIds ms := fun seen => fresh.2.2 _ seen _ (mem_newIds List.mem_cons_self) rfl
      exact (gone_run ms start Book.plain_start (fun t => by simp [start,Book.start,ids]) before unseen).2.findResting
    | cancel c => trivial
    | modify m => trivial

end Desk

/-- The report that rejects a cancel or a modify. -/
def Message.rejection (m : Message) : Report :=
  .ack (match m with | .modify _ => .modifyReject | _ => .cancelReject) m.sequenceNumber m.orderId 0 0 0

theorem Book.Gone.answer_eq {b : Book} {m : Message} (gone : b.Gone m.orderId) (notNew : ∀ o, m ≠ .newOrder o) :
    b.answer m = (b,[m.rejection]) := by
  cases m with
  | newOrder o => exact absurd rfl (notNew o)
  | cancel c =>
    show b.answerCancel c = _
    rw [Book.answerCancel,show b.findResting c.orderId.toNat = none from gone.findResting]
    rfl
  | modify m =>
    show b.answerModify m = _
    rw [Book.answerModify,show b.findResting m.orderId.toNat = none from gone.findResting]
    rfl

/-- After a cancel, and as long as no new order brings its id again, an order is gone. -/
theorem Desk.gone_after {ms between : List Message} {c : CancelOrder} (admitted : Admitted Desk.Ok Desk.step Desk.start (ms ++ .cancel c :: between))
    (notNew : c.orderId.toNat ∉ newIds between) : (Desk.after (ms ++ .cancel c :: between)).book.Gone c.orderId.toNat := by
  obtain ⟨first,⟨inRange,admits⟩,rest⟩ := admitted_append.mp admitted
  obtain ⟨_,_,_,plain⟩ := BabobookAdapter.run_follows (.empty : Pools ⟨1,by decide,by decide⟩) first
  rw [Desk.after,List.foldl_append]
  exact (gone_run between _ (plain.answer inRange admits) (plain.gone_cancel c) rest notNew).2

/-- The messages of a run and one more. -/
theorem LiquibookAdapter.run_step_follows {ms later : List Message} {m : Message} (admitted : Admitted Desk.Ok Desk.step Desk.start (ms ++ [m]))
    (few : builds (ms ++ m :: later) ≤ 4294967296) : ∃ l l', LiquibookAdapter.after (ms ++ m :: later) ms = some l ∧ l.step m = some l' ∧
      l.Follows (Desk.after ms) ∧ l'.Follows ((Desk.after ms).step m) := by
  have split : ms ++ m :: later = (ms ++ [m]) ++ later := by simp
  obtain ⟨l,ran,follows⟩ := run_follows (admitted_append.mp admitted).1 few
  have few' : builds ((ms ++ [m]) ++ later) ≤ 4294967296 := split ▸ few
  obtain ⟨l',ran',follows'⟩ := run_follows admitted few'
  rw [← split,LiquibookAdapter.after,run,List.foldlM_append] at ran'
  have ran'' : ms.foldlM step (prebuilt (ms ++ m :: later)) = some l := ran
  rw [ran''] at ran'
  refine ⟨l,l',ran,?_,follows,?_⟩
  · simpa using ran'
  · rwa [Desk.after,List.foldl_append] at follows'

/-- In both adapters a second cancel and a late modify of an order that has been cancelled are rejected, whatever has come in between, and
    the book answers as before. -/
theorem stale_rejected {N : Capacity} (h : Pools N) {ms between later : List Message} {c : CancelOrder} {m : Message}
    (admissible : BabobookAdapter.Admissible h (ms ++ .cancel c :: between ++ m :: later)) (same : m.orderId = c.orderId.toNat)
    (notNew : c.orderId.toNat ∉ newIds (between ++ [m])) (few : builds (ms ++ .cancel c :: between ++ m :: later) ≤ 4294967296) :
    ∃ a a' l l' v, BabobookAdapter.after h (ms ++ .cancel c :: between) = some a ∧ a.step m = some a' ∧
      LiquibookAdapter.after (ms ++ .cancel c :: between ++ m :: later) (ms ++ .cancel c :: between) = some l ∧ l.step m = some l' ∧
      (a'.reports = a.reports ++ [m.rejection] ∧ l'.reports = l.reports ++ [m.rejection]) ∧
      ((BabobookAdapter.lib N).Gives a v ∧ (BabobookAdapter.lib N).Gives a' v) ∧
      LiquibookAdapter.lib.Gives l v ∧ LiquibookAdapter.lib.Gives l' v := by
  rw [newIds_append,List.mem_append,not_or] at notNew
  have split : ms ++ .cancel c :: between ++ m :: later = (ms ++ .cancel c :: between ++ [m]) ++ later := by simp
  have admissible' : BabobookAdapter.Admissible h (ms ++ .cancel c :: between ++ [m]) := by
    rw [split] at admissible
    exact admissible.front
  have gone := Desk.gone_after admissible'.front.admitted notNew.1
  rw [← same] at gone
  have stale : ∀ o, m ≠ .newOrder o := by
    rintro o rfl
    exact notNew.2 (same ▸ mem_newIds List.mem_cons_self)
  obtain ⟨a,a',ran,stepped,follows,plain,_,follows'⟩ := BabobookAdapter.run_step_follows admissible'
  obtain ⟨l,l',ranLeft,steppedLeft,left,left'⟩ := LiquibookAdapter.run_step_follows admissible'.admitted few
  have next : (Desk.after (ms ++ .cancel c :: between)).step m =
      ⟨(Desk.after (ms ++ .cancel c :: between)).book,(Desk.after (ms ++ .cancel c :: between)).reports ++ [m.rejection]⟩ := by
    rw [Desk.step,gone.answer_eq stale]
  rw [next] at follows' left'
  exact ⟨a,a',l,l',_,ran,stepped,ranLeft,steppedLeft,⟨by rw [follows'.reports,follows.reports],by rw [left'.reports,left.reports]⟩,
    ⟨follows.gives plain,follows'.gives plain⟩,left.gives plain,left'.gives plain⟩

/-- A buy is cancelled, another order takes its price, and a modify and a second cancel of the first one come late. -/
theorem stale_rejected_late :
    let ms : List Message := [.newOrder ⟨1,1,100,10,0,0⟩]
    let between : List Message := [.newOrder ⟨2,3,100,4,0,0⟩,.modify ⟨1,4,101,9,0⟩]
    ∃ (a a' : BabobookAdapter ⟨1,by decide,by decide⟩) (l l' : LiquibookAdapter) (v : Replies),
      BabobookAdapter.after .empty (ms ++ .cancel ⟨1,2⟩ :: between) = some a ∧ a.step (.cancel ⟨1,5⟩) = some a' ∧
      LiquibookAdapter.after (ms ++ .cancel ⟨1,2⟩ :: between ++ [.cancel ⟨1,5⟩]) (ms ++ .cancel ⟨1,2⟩ :: between) = some l ∧
      l.step (.cancel ⟨1,5⟩) = some l' ∧
      (a'.reports = a.reports ++ [.ack .cancelReject 5 1 0 0 0] ∧ l'.reports = l.reports ++ [.ack .cancelReject 5 1 0 0 0]) ∧
      ((BabobookAdapter.lib _).Gives a v ∧ (BabobookAdapter.lib _).Gives a' v) ∧
      LiquibookAdapter.lib.Gives l v ∧ LiquibookAdapter.lib.Gives l' v :=
  stale_rejected .empty (m := .cancel ⟨1,5⟩) (BabobookAdapter.admissible_iff.mpr (by decide)) rfl (by decide) (by decide)

end BaboEngine
