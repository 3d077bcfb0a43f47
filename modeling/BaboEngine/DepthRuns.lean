import BaboEngine.DepthPasses
import BaboEngine.LiquibookRuns
import BaboEngine.ReportBound

/-!
# Runs of the adapter with depth

The build with depth answers as the one without (`depth_run_answers`), and what its depth shows is exactly what rests, and
what immediate-or-cancel orders have left (`depth_run_shows`): as long as the quantities of a run stay in 32 bits
together.
-/

namespace BaboEngine
open Liquibook LiquibookDepth Simulation

/-- The quantity that a message brings. -/
def Message.brings : Message → Nat
  | .newOrder o => o.quantity.toNat
  | .cancel _ => 0
  | .modify m => m.newQuantity.toNat

/-- The quantity that some messages bring. -/
def brought (ms : List Message) : Nat := (ms.map Message.brings).sum

namespace LiquibookDepth.DepthAdapter
open LiquibookAdapter Depth
variable {size : Nat} {a : DepthAdapter size} {b : Book} {o : SimpleOrder} {surplus : TreeName → Nat → Nat} {extId n : Nat} {isBuy : Bool}
  {price qty cond : UInt32}

theorem enter_eq (room : toU32 (a.base.lastOrderId + 1) < a.base.lb2ext.size) (inTable : extId < a.base.orders.size) :
    a.enter isBuy price qty cond extId = callBook { a with base := a.base.entered isBuy price qty cond extId } fun b all =>
      (b.add all a.base.all.length cond).map Prod.fst := by
  have labelled : a.base.lb2ext.set? (toU32 (a.base.lastOrderId + 1)) extId =
      some { a.base.lb2ext with slot := Function.update a.base.lb2ext.slot (toU32 (a.base.lastOrderId + 1)) extId } := if_pos room
  have indexed : a.base.orders.set? extId (some a.base.all.length) =
      some { a.base.orders with slot := Function.update a.base.orders.slot extId (some a.base.all.length) } := if_pos inTable
  simp [enter,makeOrder,mapLbId,Order.new,labelled,indexed,entered]

/-- A call is as without depth, and the depth has the totals after it. -/
structure Calls (a : DepthAdapter size) (a' : DepthAdapter size) (surplus : TreeName → Nat → Nat) (b : Book) (changes : Nat) : Prop where
  counts : Counts a'.depth surplus b
  caught : a'.caught = a.caught
  told : a.depth.lastPublishedChange = a.depth.lastChange → a.depth.lastChange + changes < 4294967296 → Told changes a.depth a'.depth

theorem cancel_calls {t : TreeName} {base : LiquibookAdapter} (stands : Stands a.base b) (counts : Counts a.depth surplus b) (plain : b.Plain)
    (member : o ∈ b.side t) (called : a.base.callBook (·.cancel · (a.base.ptr o.orderId)) = some base) :
    ∃ a', a.callBook (·.cancel · (a.base.ptr o.orderId)) = some a' ∧ a'.base = base ∧ Calls a a' surplus (b.cancel o.orderId) 1 := by
  obtain ⟨book,queued,callbacks,erased⟩ := stands.cancel_typed plain (plain.resting member) member
  obtain ⟨_,lo,read,mirrors⟩ := stands.shown t o member
  obtain ⟨d,heard,counts',changes⟩ := counts.hear_cancel plain member ⟨lo,read,mirrors.isBuy,mirrors.price⟩
  rw [← callbacks] at heard
  exact ⟨_,callBook_eq queued erased called heard,rfl,counts'.published,rfl,changes.told⟩

theorem add_calls {p : Nat} {lo : Order} {base : LiquibookAdapter} (stands : Stands a.base b) (counts : Counts a.depth surplus b) (plain : b.Plain)
    (incoming : b.Incoming o) (found : a.base.findOrder o.orderId = some p) (read : a.base.all[p]? = some lo) (fresh : Fresh lo o)
    (bounded : Bounded n surplus b) (fits : n + o.orderQty < 4294967296)
    (called : a.base.callBook (fun b all => (b.add all p o.conditions).map Prod.fst) = some base) :
    ∃ a', a.callBook (fun b all => (b.add all p o.conditions).map Prod.fst) = some a' ∧ a'.base = base ∧
      Calls a a' (overhang surplus b o) (b.add o) (2 * (b.tradesOf o).length + 2) := by
  by_cases some' : o.orderQty = 0
  · have zero : lo.orderQty = 0 := fresh.orderQty.trans some'
    have queued : ((TypedBook.idle a.base.book).add a.base.all p o.conditions).map Prod.fst =
        some ((TypedBook.idle a.base.book).push (.reject p "size must be positive")) := by simp [TypedBook.add,read,zero]
    have erased : (a.base.book.add a.base.all p o.conditions).map Prod.fst =
        some ((TypedBook.idle a.base.book).push (.reject p "size must be positive")).plain := by
      rw [TypedBook.plain_push,TypedBook.plain_idle stands.quiet]
      simp [OrderBook.add,read,zero,TypedCallback.plain]
    have heard : a.depth.hearAll a.base.all ((TypedBook.idle a.base.book).push (.reject p "size must be positive")).tape.callbacks =
        .returned a.depth () := rfl
    have same : b.add o = b.emit (.onReject o.orderId "size must be positive") := by rw [incoming.add_eq plain,if_pos some']
    refine ⟨_,callBook_eq queued erased called heard,rfl,?_,rfl,fun published _ => Told.refl published _⟩
    rw [overhang,if_pos (.inl some'),same]
    exact ⟨counts.sides,counts.small⟩
  · obtain ⟨book,queued,callbacks,erased⟩ := stands.add_typed plain incoming found read fresh some'
    have known : ∀ m ∈ b.side o.opposite, Known a.base.all (a.base.ptr m.orderId) m := by
      intro m member
      obtain ⟨_,lo,read,mirrors⟩ := stands.shown _ m member
      exact ⟨lo,read,mirrors.isBuy,mirrors.price⟩
    obtain ⟨d,heard,counts',changes⟩ := counts.hear_add plain incoming some' read fresh.isBuy fresh.price fresh.orderQty known
      fun t resting p v held => Nat.lt_of_le_of_lt (Nat.add_le_add_right (bounded t resting p v held) _) fits
    rw [← callbacks] at heard
    exact ⟨_,callBook_eq queued erased called heard,rfl,counts'.published,rfl,changes.told⟩

/-- An order is built, indexed and added. -/
theorem enter_calls {base : LiquibookAdapter} (stands : Stands a.base b) (counts : Counts a.depth surplus b) (plain : b.Plain)
    (incoming : b.Incoming (.new isBuy price qty 0 cond (castU32 extId))) (small : extId < 4294967296)
    (room : a.base.all.length + 1 < a.base.lb2ext.size) (inTable : extId < a.base.orders.size) (bounded : Bounded n surplus b)
    (fits : n + qty.toNat < 4294967296) (entered : a.base.enter isBuy price qty cond extId = some base) :
    ∃ a', a.enter isBuy price qty cond extId = some a' ∧ a'.base = base ∧
      Calls a a' (overhang surplus b (.new isBuy price qty 0 cond (castU32 extId))) (b.add (.new isBuy price qty 0 cond (castU32 extId)))
        (2 * (b.tradesOf (.new isBuy price qty 0 cond (castU32 extId))).length + 2) := by
  have isId : (SimpleOrder.new isBuy price qty 0 cond (castU32 extId)).orderId = extId := castU32_natCast small
  have labelRoom : toU32 (a.base.lastOrderId + 1) < a.base.lb2ext.size := by
    have le := SimpleOrder.toU32_le (a.base.all.length + 1)
    rw [Nat.cast_add,Nat.cast_one] at le
    rw [stands.lastOrderId,SimpleOrder.toU32_add]
    omega
  have found : (a.base.entered isBuy price qty cond extId).findOrder (SimpleOrder.new isBuy price qty 0 cond (castU32 extId)).orderId =
      some a.base.all.length := by
    rw [isId,findOrder_entered isBuy price qty cond inTable,if_pos rfl]
  have stands' := stands.entered isBuy price qty cond inTable (isId ▸ incoming.absent)
  have read : (a.base.entered isBuy price qty cond extId).all[a.base.all.length]? = some _ := List.getElem?_concat_length
  rw [LiquibookAdapter.enter_eq labelRoom inTable] at entered
  rw [enter_eq labelRoom inTable]
  obtain ⟨a',called,isBase,calls⟩ := add_calls (a := { a with base := a.base.entered isBuy price qty cond extId }) stands' counts plain incoming
    found read ⟨rfl,rfl,rfl,rfl,rfl,rfl,rfl⟩ bounded fits entered
  exact ⟨a',called,isBase,calls.counts,calls.caught,calls.told⟩

end LiquibookDepth.DepthAdapter

/-! ## Messages -/

/-- A desk, with what the levels of the depth have over what is open, the surplus. -/
structure DepthLedger where
  desk : Desk
  surplus : TreeName → Nat → Nat

namespace DepthLedger

def start : DepthLedger := ⟨.start,fun _ _ => 0⟩

/-- What the orders leave over that a message adds. -/
def overAfter (l : DepthLedger) : Message → TreeName → Nat → Nat
  | .newOrder o => overhang l.surplus l.desk.book o.order
  | .cancel _ => l.surplus
  | .modify m =>
    match l.desk.book.findResting m.orderId.toNat with
    | some _ => overhang l.surplus (l.desk.book.cancel m.orderId.toNat) m.order
    | none => l.surplus

def step (l : DepthLedger) (m : Message) : DepthLedger := ⟨l.desk.step m,l.overAfter m⟩

def after (ms : List Message) : DepthLedger := ms.foldl step start

end DepthLedger

namespace LiquibookDepth.DepthAdapter
open LiquibookAdapter Depth
variable {size : Nat} {a : DepthAdapter size} {l : DepthLedger} {ms : List Message} {m : Message}

/-- The changes that a message makes, at most: each report stands for two, and an order that is modified is taken out as well. -/
def changesOf (d : Desk) (m : Message) : Nat := 2 * (d.book.answer m).2.length + 1

theorem Calls.mono {a a' : DepthAdapter size} {surplus : TreeName → Nat → Nat} {b : Book} {k n : Nat} (calls : Calls a a' surplus b k) (le : k ≤ n) :
    Calls a a' surplus b n := by
  refine ⟨calls.counts,calls.caught,fun published fits => ?_⟩
  have told := calls.told published (by omega)
  exact { told with few := told.few.trans (Nat.add_le_add_left le _) }

/-- The adapter's own reports leave the depth alone. -/
theorem Calls.rebase {a a' : DepthAdapter size} {surplus : TreeName → Nat → Nat} {b : Book} {k : Nat} (calls : Calls a a' surplus b k)
    (base base' : LiquibookAdapter) : Calls { a with base := base } { a' with base := base' } surplus b k :=
  ⟨calls.counts,calls.caught,calls.told⟩

theorem Calls.trans {a a' a'' : DepthAdapter size} {surplus surplus' : TreeName → Nat → Nat} {b b' : Book} {k n : Nat} (first : Calls a a' surplus b k)
    (second : Calls a' a'' surplus' b' n) : Calls a a'' surplus' b' (k + n) := by
  refine ⟨second.counts,second.caught.trans first.caught,fun published fits => ?_⟩
  have told := first.told published (by omega)
  have few := told.few
  exact told.trans (second.told told.published (by omega))

/-- What a message makes of the adapter and of the ledger. -/
structure Answers (a : DepthAdapter size) (l : DepthLedger) (m : Message) (n : Nat) (base : LiquibookAdapter) (a' : DepthAdapter size) : Prop where
  stepped : a.step m = some a'
  isBase : a'.base = base
  calls : Calls a a' (l.step m).surplus (l.step m).desk.book (changesOf l.desk m)
  bounded : Bounded (n + m.brings) (l.step m).surplus (l.step m).desk.book

variable {n : Nat} {base : LiquibookAdapter}

theorem newOrder_answers {o : NewOrder} (follows : Follows a.base l.desk) (plain : l.desk.book.Plain) (inRange : (Message.newOrder o).InRange)
    (admitted : l.desk.book.Admits (.newOrder o)) (room : Room a.base (.newOrder o :: ms)) (counts : Counts a.depth l.surplus l.desk.book)
    (bounded : Bounded n l.surplus l.desk.book) (fits : n + o.quantity.toNat < 4294967296) (answered : a.base.engineOnNewOrder o = some base) :
    ∃ a', Answers a l (.newOrder o) n base a' := by
  have incoming := plain.newOrder inRange admitted
  have labels : a.base.all.length + (1 + builds ms) < a.base.lb2ext.size := room.labels
  obtain ⟨base₁,entered,tail⟩ := Option.bind_eq_some_iff.mp answered
  let asked : LiquibookAdapter := emitAck { a.base with seq := o.sequenceNumber.toNat, filled := 0 } .orderAck o.sequenceNumber.toNat
    o.orderId.toNat o.side.toNat o.priceTicks.toInt o.quantity.toNat
  obtain ⟨a₁,entered',rfl,calls⟩ := enter_calls (a := { a with base := asked }) (follows.stands.told ..) counts plain incoming inRange.1.2
    (by show a.base.all.length + 1 < a.base.lb2ext.size; omega) (room.ids o List.mem_cons_self) bounded fits entered
  have told : (l.desk.book.tradesOf o.order).length + 1 ≤ (l.desk.book.answer (.newOrder o)).2.length := by
    simp [Book.answer,Book.answerNewOrder]
  have calls' : Calls a a₁ (overhang l.surplus l.desk.book o.order) (l.desk.book.add o.order) (changesOf l.desk (.newOrder o)) :=
    (calls.rebase a.base a₁.base).mono
      (show 2 * (l.desk.book.tradesOf o.order).length + 2 ≤ 2 * (l.desk.book.answer (.newOrder o)).2.length + 1 by omega)
  have bounded' : Bounded (n + o.quantity.toNat) (overhang l.surplus l.desk.book o.order) (l.desk.book.add o.order) := bounded.add plain incoming
  split_ifs at tail with residual
  · have acked := Option.some.inj tail
    refine ⟨{ a₁ with base := base },?_,rfl,⟨calls'.counts,calls'.caught,calls'.told⟩,bounded'⟩
    show Option.bind _ _ = _
    rw [entered',Option.bind_some,if_pos residual]
    exact congrArg (fun base => some { a₁ with base := base }) acked
  · obtain rfl := Option.some.inj tail
    refine ⟨a₁,?_,rfl,calls',bounded'⟩
    show Option.bind _ _ = _
    rw [entered',Option.bind_some,if_neg residual]

theorem cancel_answers {c : CancelOrder} (follows : Follows a.base l.desk) (plain : l.desk.book.Plain) (counts : Counts a.depth l.surplus l.desk.book)
    (bounded : Bounded n l.surplus l.desk.book) (answered : a.base.engineOnCancel c = some base) :
    ∃ a', Answers a l (.cancel c) n base a' := by
  cases resting : l.desk.book.findResting c.orderId.toNat with
  | none =>
    have none := follows.stands.findResting_none plain resting
    have isBook : (l.step (.cancel c)).desk.book = l.desk.book := by simp [DepthLedger.step,Desk.step,Book.answer,Book.answerCancel,resting]
    simp only [LiquibookAdapter.engineOnCancel,none,Option.bind_eq_bind,Option.bind_some] at answered
    have acked := Option.some.inj answered
    refine ⟨{ a with base := base },?_,rfl,⟨?_,rfl,fun published _ => Told.refl published _⟩,?_⟩
    · simp only [DepthAdapter.step,engineOnCancel,none,acked,Option.bind_eq_bind,Option.bind_some]
    · rw [isBook]
      exact counts
    · rw [isBook]
      exact bounded
  | some o =>
    obtain ⟨lo,found,mirrors⟩ := follows.stands.findResting_some plain resting
    obtain ⟨t,_,member,isId⟩ := Book.findResting_some resting
    have isBook : (l.step (.cancel c)).desk.book = l.desk.book.cancel o.orderId := by
      simp [DepthLedger.step,Desk.step,Book.answer,Book.answerCancel,resting,isId]
    simp only [LiquibookAdapter.engineOnCancel,found,Option.bind_eq_bind,Option.bind_some] at answered
    obtain ⟨base₁,called,tail⟩ := Option.bind_eq_some_iff.mp answered
    rw [← isId] at called
    obtain ⟨a₁,called',rfl,calls⟩ := cancel_calls follows.stands counts plain member called
    have acked := Option.some.inj tail
    refine ⟨{ a₁ with base := base },?_,rfl,?_,?_⟩
    · rw [isId] at called'
      simp only [DepthAdapter.step,engineOnCancel,found,called',acked,Option.bind_eq_bind,Option.bind_some]
    · rw [isBook]
      exact (calls.rebase a.base base).mono (by simp [changesOf])
    · rw [isBook]
      exact bounded.cancel plain member

theorem modify_answers {m : ModifyOrder} (follows : Follows a.base l.desk) (plain : l.desk.book.Plain) (inRange : (Message.modify m).InRange)
    (room : Room a.base (.modify m :: ms)) (counts : Counts a.depth l.surplus l.desk.book) (bounded : Bounded n l.surplus l.desk.book)
    (fits : n + m.newQuantity.toNat < 4294967296) (answered : a.base.engineOnModify m = some base) : ∃ a', Answers a l (.modify m) n base a' := by
  have stands := follows.stands.told m.sequenceNumber.toNat 0 a.base.reports
  cases resting : l.desk.book.findResting m.orderId.toNat with
  | none =>
    have none := stands.findResting_none plain resting
    have isBook : (l.step (.modify m)).desk.book = l.desk.book := by simp [DepthLedger.step,Desk.step,Book.answer,Book.answerModify,resting]
    have isOver : (l.step (.modify m)).surplus = l.surplus := by simp [DepthLedger.step,DepthLedger.overAfter,resting]
    simp only [LiquibookAdapter.engineOnModify,none,Option.bind_eq_bind,Option.bind_some] at answered
    have acked := Option.some.inj answered
    refine ⟨{ a with base := base },?_,rfl,⟨?_,rfl,fun published _ => Told.refl published _⟩,?_⟩
    · simp only [DepthAdapter.step,engineOnModify,none,acked,Option.bind_eq_bind,Option.bind_some]
    · rw [isBook,isOver]
      exact counts
    · rw [isBook,isOver]
      exact fun t resting p v held => (bounded t resting p v held).trans (Nat.le_add_right ..)
  | some o =>
    obtain ⟨lo,found,_⟩ := stands.findResting_some plain resting
    obtain ⟨t,_,member,isId⟩ := Book.findResting_some resting
    have plain₁ := (plain.cancel member).2
    have isBook : (l.step (.modify m)).desk.book = (l.desk.book.cancel m.orderId.toNat).add m.order := by
      simp [DepthLedger.step,Desk.step,Book.answer,Book.answerModify,resting]
    have isOver : (l.step (.modify m)).surplus = overhang l.surplus (l.desk.book.cancel m.orderId.toNat) m.order := by
      simp [DepthLedger.step,DepthLedger.overAfter,resting]
    obtain ⟨book₁,all₁,called₁,length₁,stands₁⟩ := stands.cancel plain member
    obtain ⟨a₁,called,isBase,calls₁⟩ := cancel_calls (a := { a with base := { a.base with seq := m.sequenceNumber.toNat, filled := 0 } }) stands
      counts plain member called₁
    rw [isId] at called₁ called stands₁ plain₁ calls₁
    have incoming := plain.modified inRange member isId
    have inTable : m.orderId.toNat < a.base.orders.size := isId ▸ inTable_of_found (stands.shown t o member).1
    have labels : a.base.all.length + (1 + builds ms) < a.base.lb2ext.size := room.labels
    simp only [LiquibookAdapter.engineOnModify,found,called₁,Option.bind_eq_bind,Option.bind_some] at answered
    obtain ⟨base₂,entered,tail⟩ := Option.bind_eq_some_iff.mp answered
    have acked := Option.some.inj tail
    obtain ⟨_,d₁,caught₁⟩ := a₁
    obtain rfl := isBase
    obtain ⟨a₂,entered',rfl,calls₂⟩ := enter_calls (a := ⟨_,d₁,caught₁⟩) stands₁ calls₁.counts plain₁ incoming inRange.1.2
      (by have length₁' : all₁.length = a.base.all.length := length₁
          show all₁.length + 1 < a.base.lb2ext.size
          omega) inTable (isId ▸ bounded.cancel plain member) fits entered
    have calls := calls₁.trans calls₂
    have told : (l.desk.book.answer (.modify m)).2.length = ((l.desk.book.cancel m.orderId.toNat).tradesOf m.order).length + 1 := by
      simp [Book.answer,Book.answerModify,resting]
    refine ⟨{ a₂ with base := base },?_,rfl,?_,?_⟩
    · simp only [DepthAdapter.step,engineOnModify,found,called,entered',Option.bind_eq_bind,Option.bind_some]
      exact congrArg (fun base => some { a₂ with base := base }) acked
    · rw [isBook,isOver]
      exact (calls.rebase a.base base).mono
        (show 1 + (2 * ((l.desk.book.cancel m.orderId.toNat).tradesOf m.order).length + 2) ≤
          2 * (l.desk.book.answer (.modify m)).2.length + 1 by omega)
    · rw [isBook,isOver]
      exact (isId ▸ bounded.cancel plain member : Bounded n l.surplus (l.desk.book.cancel m.orderId.toNat)).add plain₁ incoming

/-! ## Runs -/

/-- The adapter follows the desk, its depth the ledger, and what the messages to come bring still fits. -/
structure Keeps (a : DepthAdapter size) (l : DepthLedger) (ms : List Message) : Prop where
  follows : Follows a.base l.desk
  plain : l.desk.book.Plain
  room : Room a.base ms
  few : a.base.all.length + builds ms ≤ 4294967296
  counts : Counts a.depth l.surplus l.desk.book
  bounded : ∃ n, Bounded n l.surplus l.desk.book ∧ n + brought ms < 4294967296
  caught : a.caught = []

/-- The changes that some messages make, at most. -/
def changesOfAll : Desk → List Message → Nat
  | _, [] => 0
  | d, m :: ms => changesOf d m + changesOfAll (d.step m) ms

theorem changesOfAll_eq (ms : List Message) : ∀ d : Desk,
    changesOfAll d ms + 2 * d.reports.length = 2 * (ms.foldl Desk.step d).reports.length + ms.length := by
  induction ms with
  | nil => exact fun d => Nat.zero_add _
  | cons m ms ih =>
    intro d
    have rest := ih (d.step m)
    have pushed : (d.step m).reports.length = d.reports.length + (d.book.answer m).2.length := List.length_append
    rw [List.foldl_cons,List.length_cons,changesOfAll,changesOf]
    omega

/-- As an order brings two reports at most, a run makes at most five changes for a message. -/
theorem changesOfAll_bound {ms : List Message} (admitted : Admitted Desk.Ok Desk.step Desk.start ms) :
    changesOfAll Desk.start ms ≤ 5 * ms.length := by
  have total := changesOfAll_eq ms Desk.start
  have bound := (Desk.reports_bound admitted).1
  rw [show ms.foldl Desk.step Desk.start = Desk.after ms from rfl] at total
  omega

theorem changesOfAll_append (ms : List Message) (m : Message) : ∀ d : Desk,
    changesOfAll d (ms ++ [m]) = changesOfAll d ms + changesOf (ms.foldl Desk.step d) m := by
  induction ms with
  | nil => exact fun d => Nat.add_comm ..
  | cons m' ms ih =>
    intro d
    rw [List.cons_append,changesOfAll,ih,changesOfAll,List.foldl_cons,Nat.add_assoc]

theorem Keeps.step (keeps : Keeps a l (m :: ms)) (ok : l.desk.Ok m) : ∃ a', a.step m = some a' ∧ a.base.step m = some a'.base ∧
    Keeps a' (l.step m) ms ∧ (a.depth.lastPublishedChange = a.depth.lastChange → a.depth.lastChange + changesOf l.desk m < 4294967296 →
      Told (changesOf l.desk m) a.depth a'.depth) := by
  obtain ⟨follows,plain,room,few,counts,⟨n,bounded,fits⟩,caught⟩ := keeps
  have few' : a.base.all.length + (m.builds + builds ms) ≤ 4294967296 := few
  have fits' : n + (m.brings + brought ms) < 4294967296 := fits
  obtain ⟨base,answered,follows',grown⟩ := follows.step plain ok room (by omega)
  have length := grown.length
  obtain ⟨a',stepped,rfl,calls,bounded'⟩ : ∃ a', Answers a l m n base a' := by
    cases m with
    | newOrder o => exact newOrder_answers follows plain ok.1 ok.2 room counts bounded (Nat.lt_of_le_of_lt (by simp [Message.brings]) fits') answered
    | cancel c => exact cancel_answers follows plain counts bounded answered
    | modify m => exact modify_answers follows plain ok.1 room counts bounded (Nat.lt_of_le_of_lt (by simp [Message.brings]) fits') answered
  exact ⟨a',stepped,answered,⟨follows',plain.answer ok.1 ok.2,room.grown grown,by omega,calls.counts,⟨_,bounded',by omega⟩,calls.caught.trans caught⟩,
    calls.told⟩

theorem run_keeps {later : List Message} (ms : List Message) : ∀ (a : DepthAdapter size) (l : DepthLedger), Keeps a l (ms ++ later) →
    Admitted Desk.Ok Desk.step l.desk ms → ∃ a', run step a ms = some a' ∧ run LiquibookAdapter.step a.base ms = some a'.base ∧
      Keeps a' (ms.foldl DepthLedger.step l) later ∧
      (a.depth.lastPublishedChange = a.depth.lastChange → a.depth.lastChange + changesOfAll l.desk ms < 4294967296 →
        Told (changesOfAll l.desk ms) a.depth a'.depth) := by
  induction ms with
  | nil => exact fun a l keeps _ => ⟨a,rfl,rfl,keeps,fun published _ => Told.refl published _⟩
  | cons m ms ih =>
    rintro a l keeps ⟨ok,admitted⟩
    obtain ⟨a₁,stepped,based,keeps₁,told₁⟩ := keeps.step ok
    obtain ⟨a₂,ran,basedRun,keeps₂,told₂⟩ := ih a₁ (l.step m) keeps₁ admitted
    refine ⟨a₂,by rw [run_cons,stepped]; exact ran,by rw [run_cons,based]; exact basedRun,keeps₂,fun published fits => ?_⟩
    have fits' : a.depth.lastChange + (changesOf l.desk m + changesOfAll (l.step m).desk ms) < 4294967296 := fits
    have first := told₁ published (by omega)
    have more := first.few
    exact first.trans (told₂ first.published (by omega))

/-- The adapter after `engine_prebuild` of the messages of a run. -/
def prebuilt (size : Nat) (ms : List Message) : DepthAdapter size := ms.foldl enginePrebuild (engineInit size)

theorem prebuilt_eq (size : Nat) (ms : List Message) : prebuilt size ms = ⟨LiquibookAdapter.prebuilt ms,.new size,[]⟩ := by
  have each : ∀ (a : DepthAdapter size), ms.foldl enginePrebuild a = ⟨ms.foldl LiquibookAdapter.enginePrebuild a.base,a.depth,a.caught⟩ := by
    induction ms with
    | nil => exact fun _ => rfl
    | cons m ms ih => exact fun a => ih _
  exact each _

/-- The adapter after some messages of a run. -/
def after (size : Nat) (whole ms : List Message) : Option (DepthAdapter size) := run step (prebuilt size whole) ms

theorem new_shows (size : Nat) (isBid : Bool) : Displays (.new size) isBid (fun _ => none) := by
  have level : ∀ i, (Depth.new size).level i = .zero := by
    intro i
    by_cases inside : i < size * 2
    · simp [Depth.level,Depth.new,inside]
    · simp [Depth.level,Depth.new,inside]
  refine ⟨[],Listings.lists_nil,by simp,fun i _ => ?_,?_,?_⟩
  · rw [level]
    exact ⟨rfl,rfl⟩
  · cases isBid <;> simp [Depth.excess,Depth.new]
  · cases isBid <;> simp [Depth.excess,Depth.new]

theorem start_keeps (size : Nat) {ms : List Message} (few : builds ms ≤ 4294967296) (fits : brought ms < 4294967296) :
    Keeps (prebuilt size ms) .start ms := by
  have pre := prebuilt_spec ms
  obtain ⟨stands,labelled,room⟩ := pre.start
  have none : (LiquibookAdapter.prebuilt ms).all.length = 0 := by rw [pre.all]; rfl
  have empty : ∀ t p, tally (DepthLedger.start.surplus t) (DepthLedger.start.desk.book.side t) p = .none := fun _ _ => if_pos rfl
  rw [prebuilt_eq]
  refine ⟨⟨stands,labelled,pre.reports⟩,Book.plain_start,room,by show (LiquibookAdapter.prebuilt ms).all.length + _ ≤ _; omega,⟨?_,?_⟩,
    ⟨0,fun t _ p v held => ?_,by omega⟩,rfl⟩
  · intro t _
    rw [funext (empty t)]
    exact ⟨new_shows size _,by cases decide (t = .bids) <;> rfl⟩
  · exact Nat.zero_lt_succ _
  · rw [empty] at held
    cases held

/-- The build with depth reports what the build without reports, answers its queries alike, and throws nothing. -/
theorem depth_run_answers (size : Nat) {ms later : List Message} (admitted : Admitted Desk.Ok Desk.step Desk.start ms)
    (few : builds (ms ++ later) ≤ 4294967296) (fits : brought (ms ++ later) < 4294967296) :
    ∃ a, after size (ms ++ later) ms = some a ∧ LiquibookAdapter.after (ms ++ later) ms = some a.base ∧ a.caught = [] := by
  obtain ⟨a,ran,based,keeps,_⟩ := run_keeps ms _ _ (start_keeps size few fits) admitted
  rw [prebuilt_eq] at based
  exact ⟨a,ran,based,keeps.caught⟩

/-- A sell that an immediate-or-cancel buy takes a part of, and a buy that is reduced. -/
theorem depth_run_answers_partly :
    let ms : List Message := [.newOrder ⟨1,1,100,10,1,0⟩,.newOrder ⟨2,2,100,4,0,1⟩,.newOrder ⟨3,3,99,7,0,0⟩,.modify ⟨3,4,98,5,0⟩]
    ∃ a, after 5 (ms ++ []) ms = some a ∧ LiquibookAdapter.after (ms ++ []) ms = some a.base ∧ a.caught = [] :=
  depth_run_answers 5 (by decide) (by decide) (by decide)

/-- Two orders of a price have more together than 32 bits hold: what the first cancel does to its order is lost, and the second is not
    rejected. -/
example :
    let ms : List Message := [.newOrder ⟨1,1,100,3000000000,0,0⟩,.newOrder ⟨2,2,100,3000000000,0,0⟩,.cancel ⟨1,3⟩,.cancel ⟨1,4⟩]
    (after 5 ms ms).map (·.base.reports) ≠ (LiquibookAdapter.after ms ms).map (·.reports) := by decide

/-! ## What the depth shows -/

/-- The order of a message is cancelled if it does not fill at once. -/
def isImmediate : Message → Prop
  | .newOrder o => o.ioc ≠ 0
  | _ => False

theorem overhang_zero (b : Book) {o : SimpleOrder} (regular : o.immediateOrCancel = false) : overhang (fun _ _ => 0) b o = fun _ _ => 0 := by
  rw [overhang]
  by_cases unchanged : o.orderQty = 0 ∨ (b.pass o).inc.openQty = 0
  · rw [if_pos unchanged]
  · rw [if_neg unchanged,regular]
    simp

theorem over_zero (ms : List Message) : (∀ m ∈ ms, ¬ isImmediate m) → (DepthLedger.after ms).surplus = fun _ _ => 0 := by
  induction ms using List.reverseRecOn with
  | nil => exact fun _ => rfl
  | append_singleton ms m ih =>
    intro none
    have before := ih fun x member => none x (List.mem_append_left _ member)
    have notNow := none m (by simp)
    rw [DepthLedger.after,List.foldl_append]
    show (DepthLedger.after ms).overAfter m = _
    cases m with
    | newOrder o =>
      have notIoc : o.ioc = 0 := not_not.mp notNow
      rw [DepthLedger.overAfter,before]
      exact overhang_zero _ (by simp [NewOrder.order,notIoc,SimpleOrder.immediateOrCancel,SimpleOrder.new,ocNoConditions])
    | cancel c => exact before
    | modify m =>
      rw [DepthLedger.overAfter,before]
      cases (DepthLedger.after ms).desk.book.findResting m.orderId.toNat with
      | none => rfl
      | some o => exact overhang_zero _ (by simp [ModifyOrder.order,SimpleOrder.immediateOrCancel,SimpleOrder.new,ocNoConditions])

theorem ledger_desk (ms : List Message) : (DepthLedger.after ms).desk = Desk.after ms := by
  have each : ∀ l : DepthLedger, (ms.foldl DepthLedger.step l).desk = ms.foldl Desk.step l.desk := by
    induction ms with
    | nil => exact fun _ => rfl
    | cons m ms ih => exact fun l => ih _
  exact each _

/-- The levels of each side have the prices of the resting orders, best first, with their number and their open quantity, and with what
    immediate-or-cancel orders have left. -/
theorem depth_run_shows (size : Nat) {ms later : List Message} (admitted : Admitted Desk.Ok Desk.step Desk.start ms)
    (few : builds (ms ++ later) ≤ 4294967296) (fits : brought (ms ++ later) < 4294967296) :
    (∃ a, after size (ms ++ later) ms = some a ∧ ∀ t, t = .bids ∨ t = .asks →
      Displays a.depth (decide (t = .bids)) (tally ((DepthLedger.after ms).surplus t) ((Desk.after ms).book.side t))) ∧
    ((∀ m ∈ ms, ¬ isImmediate m) → (DepthLedger.after ms).surplus = fun _ _ => 0) := by
  obtain ⟨a,ran,_,keeps,_⟩ := run_keeps ms _ _ (start_keeps size few fits) admitted
  refine ⟨⟨a,ran,fun t resting => ?_⟩,over_zero ms⟩
  rw [← ledger_desk]
  exact (keeps.counts.sides t resting).shows

/-- A sell that an immediate-or-cancel buy takes a part of, and a buy that is reduced. -/
theorem depth_run_shows_partly :
    let ms : List Message := [.newOrder ⟨1,1,100,10,1,0⟩,.newOrder ⟨2,2,100,4,0,1⟩,.newOrder ⟨3,3,99,7,0,0⟩,.modify ⟨3,4,98,5,0⟩]
    (∃ a, after 5 (ms ++ []) ms = some a ∧ ∀ t, t = .bids ∨ t = .asks →
      Displays a.depth (decide (t = .bids)) (tally ((DepthLedger.after ms).surplus t) ((Desk.after ms).book.side t))) ∧
    ((∀ m ∈ ms, ¬ isImmediate m) → (DepthLedger.after ms).surplus = fun _ _ => 0) :=
  depth_run_shows 5 (by decide) (by decide) (by decide)

/-- An immediate-or-cancel order that finds nothing to take stays in the level of its price. -/
example :
    let ms : List Message := [.newOrder ⟨1,1,100,5,0,0⟩,.newOrder ⟨2,2,100,4,0,1⟩]
    (after 5 ms ms).map (fun a => (a.depth.level 0).totals) = some (100,⟨1,9⟩) := by decide

/-- Before and after every message everything is published, and a level of the array that the message changes has changed since, as long
    as the messages are not so many that the count of changes may come round. -/
theorem depth_run_published (size : Nat) {ms later : List Message} {m : Message}
    (admitted : Admitted Desk.Ok Desk.step Desk.start (ms ++ [m])) (few : builds (ms ++ m :: later) ≤ 4294967296)
    (fits : brought (ms ++ m :: later) < 4294967296) (counted : 5 * (ms ++ [m]).length < 4294967296) :
    ∃ a a', after size (ms ++ m :: later) ms = some a ∧ a.step m = some a' ∧ a.depth.changed = false ∧ a'.depth.changed = false ∧
      ∀ i < size * 2, a'.depth.level i ≠ a.depth.level i → (a'.depth.level i).changedSince a.depth.lastPublishedChange = true := by
  obtain ⟨admitted₁,ok,_⟩ := admitted_append.mp admitted
  obtain ⟨a,ran,_,keeps,told⟩ := run_keeps ms _ _ (start_keeps size few fits) admitted₁
  obtain ⟨a',stepped,_,_,told'⟩ := keeps.step (ledger_desk ms ▸ ok)
  have total := (changesOfAll_append ms m Desk.start).symm.trans_le (changesOfAll_bound admitted)
  have isDesk : ms.foldl Desk.step Desk.start = (DepthLedger.after ms).desk := (ledger_desk ms).symm
  rw [isDesk] at total
  have start : (prebuilt size (ms ++ m :: later)).depth = .new size := by rw [prebuilt_eq]
  rw [start] at told
  have none : (Depth.new size).lastChange = 0 := rfl
  have before := told rfl (show 0 + changesOfAll Desk.start ms < _ by omega)
  have few : a.depth.lastChange ≤ 0 + changesOfAll Desk.start ms := before.few
  have after := told' before.published (show a.depth.lastChange + changesOf (DepthLedger.after ms).desk m < _ by omega)
  have quiet : ∀ d : Depth size, d.lastPublishedChange = d.lastChange → d.changed = false := by
    intro d published
    rw [changed,published]
    exact decide_eq_false (Nat.lt_irrefl _)
  refine ⟨a,a',ran,stepped,quiet _ before.published,quiet _ after.published,fun i inside differs => ?_⟩
  obtain ⟨c,stamp,since⟩ := (after.levels i inside).resolve_left differs
  rw [DepthLevel.changedSince,stamp,before.published]
  exact decide_eq_true since

/-- A buy at a better price moves the levels of two others. -/
theorem depth_run_published_moved :
    let ms : List Message := [.newOrder ⟨1,1,100,5,0,0⟩,.newOrder ⟨2,2,101,4,0,0⟩]
    let m : Message := .newOrder ⟨3,3,102,6,0,0⟩
    ∃ a a', after 2 (ms ++ m :: []) ms = some a ∧ a.step m = some a' ∧ a.depth.changed = false ∧ a'.depth.changed = false ∧
      ∀ i < 2 * 2, a'.depth.level i ≠ a.depth.level i → (a'.depth.level i).changedSince a.depth.lastPublishedChange = true :=
  depth_run_published 2 (by decide) (by decide) (by decide) (by decide)

end LiquibookDepth.DepthAdapter

end BaboEngine
