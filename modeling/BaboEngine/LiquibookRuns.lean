import BaboEngine.LiquibookCalls

/-!
# Runs of the liquibook adapter

The adapter gives the answers of the abstract book as well (`Follows.step`), as long as no id of
its orders is given twice: the reverse map is indexed by them, and they are counted in 32
bits. What `engine_prebuild` makes room for is enough (`Fits`).
-/

namespace BaboEngine
open Liquibook Simulation

/-- A message builds an object. -/
def Message.builds : Message → Nat
  | .cancel _ => 0
  | _ => 1

/-- The objects that some messages build, at most. -/
def builds (ms : List Message) : Nat := (ms.map Message.builds).sum

namespace LiquibookAdapter
variable {a : LiquibookAdapter} {b : Book} {o : SimpleOrder} {id p extId : Nat} {isBuy : Bool} {price qty cond : UInt32}

/-- The adapter with the object of a message, when it calls the book. -/
def entered (a : LiquibookAdapter) (isBuy : Bool) (price qty cond : UInt32) (extId : Nat) : LiquibookAdapter := { a with
  all := a.all ++ [.new isBuy price qty 0 cond (toU32 (a.lastOrderId + 1))]
  lastOrderId := toU32 (a.lastOrderId + 1)
  lb2ext := { a.lb2ext with slot := Function.update a.lb2ext.slot (toU32 (a.lastOrderId + 1)) extId }
  orders := { a.orders with slot := Function.update a.orders.slot extId (some a.all.length) } }

theorem enter_eq (room : toU32 (a.lastOrderId + 1) < a.lb2ext.size) (inTable : extId < a.orders.size) :
    a.enter isBuy price qty cond extId = (a.entered isBuy price qty cond extId).callBook fun b all =>
      (b.add all a.all.length cond).map Prod.fst := by
  have labelled : a.lb2ext.set? (toU32 (a.lastOrderId + 1)) extId =
      some { a.lb2ext with slot := Function.update a.lb2ext.slot (toU32 (a.lastOrderId + 1)) extId } := if_pos room
  have indexed : a.orders.set? extId (some a.all.length) =
      some { a.orders with slot := Function.update a.orders.slot extId (some a.all.length) } := if_pos inTable
  simp [enter,makeOrder,mapLbId,Order.new,labelled,indexed,entered]

theorem findOrder_entered (isBuy : Bool) (price qty cond : UInt32) (inTable : extId < a.orders.size) (id : Nat) :
    (a.entered isBuy price qty cond extId).findOrder id =
    if id = extId then some a.all.length else a.findOrder id := by
  unfold findOrder Table.get? entered
  by_cases same : id = extId
  · subst same
    simp [inTable]
  · simp [same]

theorem Stands.read (stands : Stands a b) (found : a.findOrder id = some p) : p < a.all.length := by
  by_cases absent : ∀ t, id ∉ ids (b.side t)
  · obtain ⟨lo,read,_⟩ := stands.gone id p found absent
    exact (List.getElem?_eq_some_iff.mp read).1
  · obtain ⟨t,present⟩ : ∃ t, id ∈ ids (b.side t) := by simpa using absent
    obtain ⟨o,member,rfl⟩ := List.mem_map.mp present
    obtain ⟨isPtr,lo,read,_⟩ := stands.shown t o member
    obtain rfl : a.ptr o.orderId = p := ptr_eq found
    exact (List.getElem?_eq_some_iff.mp read).1

/-- The object of a message stands for nothing yet. -/
theorem Stands.entered (isBuy : Bool) (price qty cond : UInt32) (stands : Stands a b) (inTable : extId < a.orders.size)
    (absent : ∀ t, extId ∉ ids (b.side t)) :
    Stands (a.entered isBuy price qty cond extId) b := by
  have found_iff := findOrder_entered isBuy price qty cond inTable
  have old : ∀ t, ∀ x ∈ b.side t, (a.entered isBuy price qty cond extId).findOrder x.orderId = some (a.ptr x.orderId) ∧
      (a.entered isBuy price qty cond extId).ptr x.orderId = a.ptr x.orderId := by
    intro t x member
    have other : x.orderId ≠ extId := fun same => absent t (same ▸ mem_ids member)
    have found := found_iff x.orderId
    rw [if_neg other,(stands.shown t x member).1] at found
    exact ⟨found,ptr_eq found⟩
  have isOld : ∀ {p}, p < a.all.length → (a.entered isBuy price qty cond extId).all[p]? = a.all[p]? := fun small =>
    List.getElem?_append_left small
  have isId : toU32 (a.lastOrderId + 1) = toU32 (a.all.length + 1) := by rw [stands.lastOrderId,SimpleOrder.toU32_add]
  refine ⟨?_,stands.quiet,stands.numbered.push isId,?_,?_,?_,?_⟩
  · intro t resting
    refine (stands.market t resting).trans (List.map_congr_left fun x member => ?_)
    rw [SimpleOrder.entry,SimpleOrder.entry,(old t x member).2]
  · show toU32 (a.lastOrderId + 1) = toU32 ((a.all ++ [_]).length : Nat)
    rw [isId,List.length_append,List.length_singleton,Nat.cast_add,Nat.cast_one]
  · intro t x member
    obtain ⟨found,isPtr⟩ := old t x member
    obtain ⟨isPtr',shown⟩ := stands.shown t x member
    rw [isPtr]
    refine ⟨found,?_⟩
    unfold Shown
    rw [isOld (stands.read isPtr')]
    exact shown
  · intro id p found absent'
    rw [found_iff] at found
    unfold Dead
    split_ifs at found with same
    · obtain rfl := Option.some.inj found
      exact ⟨_,List.getElem?_concat_length,by simp [Order.new,resting]⟩
    · rw [isOld (stands.read found)]
      exact stands.gone id p found absent'
  · intro id id' p found found'
    rw [found_iff] at found found'
    split_ifs at found found' with same same' same'
    · rw [same,same']
    · obtain rfl := Option.some.inj found
      exact absurd (stands.read found') (Nat.lt_irrefl _)
    · obtain rfl := Option.some.inj found'
      exact absurd (stands.read found) (Nat.lt_irrefl _)
    · exact stands.apart _ _ _ found found'

/-- An order is built, indexed and added. -/
theorem Stands.enter (stands : Stands a b) (plain : b.Plain) (incoming : b.Incoming (.new isBuy price qty 0 cond (castU32 extId)))
    (small : extId < 4294967296) (zero : a.filled = 0) (room : a.all.length + 1 < a.lb2ext.size) (inTable : extId < a.orders.size) :
    ∃ book all, a.enter isBuy price qty cond extId = some { a.entered isBuy price qty cond extId with
        book := book
        all := all
        reports := a.reports ++ (b.tradesOf (.new isBuy price qty 0 cond (castU32 extId))).map
          ((a.entered isBuy price qty cond extId).report (a.entered isBuy price qty cond extId).ptr a.all.length)
        filled := traded (b.tradesOf (.new isBuy price qty 0 cond (castU32 extId))) } ∧ all.length = a.all.length + 1 ∧
      Stands { a.entered isBuy price qty cond extId with book := book, all := all } (b.add (.new isBuy price qty 0 cond (castU32 extId))) := by
  have isId : (SimpleOrder.new isBuy price qty 0 cond (castU32 extId)).orderId = extId := castU32_natCast small
  have absent : ∀ t, extId ∉ ids (b.side t) := isId ▸ incoming.absent
  have labelRoom : toU32 (a.lastOrderId + 1) < a.lb2ext.size := by
    have le := SimpleOrder.toU32_le (a.all.length + 1)
    rw [Nat.cast_add,Nat.cast_one] at le
    rw [stands.lastOrderId,SimpleOrder.toU32_add]
    omega
  have found : (a.entered isBuy price qty cond extId).findOrder (SimpleOrder.new isBuy price qty 0 cond (castU32 extId)).orderId =
      some a.all.length := by
    rw [isId,findOrder_entered isBuy price qty cond inTable,if_pos rfl]
  have length : (a.entered isBuy price qty cond extId).all.length = a.all.length + 1 := List.length_append
  obtain ⟨book,all,called,length',stands'⟩ :=
    (stands.entered isBuy price qty cond inTable absent).add plain incoming (by rw [length]; exact room) found
    List.getElem?_concat_length ⟨rfl,rfl,rfl,rfl,rfl,rfl,rfl⟩ zero
  exact ⟨book,all,(enter_eq labelRoom inTable).trans called,length'.trans length,stands'⟩

/-! ## Labels -/

/-- The reverse map gives back the ids. -/
def Labelled (a : LiquibookAdapter) : Prop := ∀ id p, a.findOrder id = some p → a.label p = id

theorem Labelled.told (labelled : Labelled a) (seq filled : Nat) (reports : List Report) :
    Labelled { a with seq := seq, filled := filled, reports := reports } := labelled

/-- As long as the counter has not come round, a new label overwrites no other. -/
theorem Labelled.entered (isBuy : Bool) (price qty cond : UInt32) (labelled : Labelled a) (stands : Stands a b)
    (inTable : extId < a.orders.size) (few : a.all.length < 4294967296) :
    Labelled (a.entered isBuy price qty cond extId) := by
  intro id p found
  have isId : toU32 (a.lastOrderId + 1) = toU32 (a.all.length + 1) := by rw [stands.lastOrderId,SimpleOrder.toU32_add]
  show Function.update a.lb2ext.slot (toU32 (a.lastOrderId + 1)) extId (toU32 (p + 1)) = id
  rw [findOrder_entered isBuy price qty cond inTable] at found
  rw [isId]
  split_ifs at found with same
  · obtain rfl := Option.some.inj found
    rw [Function.update_self,same]
  · have old := stands.read found
    have other : toU32 (p + 1) ≠ toU32 (a.all.length + 1) := by
      unfold toU32
      omega
    rw [Function.update_of_ne other]
    exact labelled id p found

theorem Labelled.report (labelled : Labelled a) {t : Trade} (maker : a.findOrder t.maker.orderId = some (a.ptr t.maker.orderId))
    (taker : a.findOrder t.taker.orderId = some p) : a.report a.ptr p t = t.report a.seq := by
  rw [LiquibookAdapter.report,labelled _ _ maker,labelled _ _ taker]
  rfl

/-- The reports of the trades of an order that is entered. -/
theorem Labelled.reports (labelled : Labelled a) (stands : Stands a b) (plain : b.Plain)
    (incoming : b.Incoming (.new isBuy price qty 0 cond (castU32 extId))) (small : extId < 4294967296) (inTable : extId < a.orders.size)
    (few : a.all.length < 4294967296) : (b.tradesOf (.new isBuy price qty 0 cond (castU32 extId))).map
        ((a.entered isBuy price qty cond extId).report (a.entered isBuy price qty cond extId).ptr a.all.length) =
      (b.tradesOf (.new isBuy price qty 0 cond (castU32 extId))).map (Trade.report a.seq) := by
  have isId : (SimpleOrder.new isBuy price qty 0 cond (castU32 extId)).orderId = extId := castU32_natCast small
  have stands' := stands.entered isBuy price qty cond inTable (isId ▸ incoming.absent)
  refine List.map_congr_left fun t member => ?_
  obtain ⟨maker,_,_,taker⟩ := incoming.tradesOf plain member
  apply (labelled.entered isBuy price qty cond stands inTable few).report (stands'.shown _ _ maker).1
  rw [taker,isId,findOrder_entered isBuy price qty cond inTable,if_pos rfl]

/-! ## Messages -/

/-- The room that the messages to come need. -/
structure Room (a : LiquibookAdapter) (ms : List Message) : Prop where
  labels : a.all.length + builds ms < a.lb2ext.size
  ids : ∀ o, .newOrder o ∈ ms → o.orderId.toNat < a.orders.size

/-- The adapter with the object of a new order, after the acknowledgement. -/
def asked (a : LiquibookAdapter) (o : NewOrder) : LiquibookAdapter :=
  entered { a with
    seq := o.sequenceNumber.toNat
    filled := 0
    reports := a.reports ++ [.ack .orderAck o.sequenceNumber.toNat o.orderId.toNat o.side.toNat o.priceTicks.toInt o.quantity.toNat] }
    (o.side = 0) (castU32 o.priceTicks.toInt) o.quantity (if o.ioc ≠ 0 then ocImmediateOrCancel else ocNoConditions) o.orderId.toNat

variable {ms : List Message}

theorem findOrder_asked {o : NewOrder} (inTable : o.orderId.toNat < a.orders.size) (id : Nat) :
    (a.asked o).findOrder id = if id = o.orderId.toNat then some a.all.length else a.findOrder id := by
  rw [asked]
  refine findOrder_entered _ _ _ _ ?_ id
  exact inTable

theorem Stands.newOrder {o : NewOrder} (stands : Stands a b) (plain : b.Plain) (inRange : (Message.newOrder o).InRange)
    (admitted : b.Admits (.newOrder o)) (room : Room a (.newOrder o :: ms)) : ∃ book all, a.engineOnNewOrder o = some { a.asked o with
        book := book
        all := all
        filled := traded (b.tradesOf o.order)
        reports := (a.asked o).reports ++ (b.tradesOf o.order).map ((a.asked o).report (a.asked o).ptr a.all.length) ++
          if o.ioc ≠ 0 ∧ traded (b.tradesOf o.order) < o.quantity.toNat then
            [.ack .cancelAck o.sequenceNumber.toNat o.orderId.toNat o.side.toNat o.priceTicks.toInt
              (o.quantity.toNat - traded (b.tradesOf o.order))]
          else [] } ∧
      all.length = a.all.length + 1 ∧ Stands { a.asked o with book := book, all := all } (b.add o.order) := by
  have incoming := plain.newOrder inRange admitted
  have le : traded (b.tradesOf o.order) ≤ o.quantity.toNat := incoming.traded_le plain
  have bound : o.quantity.toNat < 4294967296 := UInt32.toNat_lt _
  have inTable := room.ids o List.mem_cons_self
  have labels : a.all.length + (1 + builds ms) < a.lb2ext.size := room.labels
  obtain ⟨book,all,called,length,stands'⟩ := (stands.told o.sequenceNumber.toNat 0
    (a.reports ++ [.ack .orderAck o.sequenceNumber.toNat o.orderId.toNat o.side.toNat o.priceTicks.toInt o.quantity.toNat])).enter
      plain incoming inRange.1.2 rfl (by show a.all.length + 1 < a.lb2ext.size; omega) inTable
  refine ⟨book,all,?_,length,stands'⟩
  have residual : toU32 ((o.quantity.toNat : Int) - (traded (b.tradesOf o.order) : Nat)) = o.quantity.toNat - traded (b.tradesOf o.order) := by
    unfold toU32
    omega
  have called' : (emitAck { a with seq := o.sequenceNumber.toNat, filled := 0 } .orderAck o.sequenceNumber.toNat o.orderId.toNat
      o.side.toNat o.priceTicks.toInt o.quantity.toNat).enter (o.side = 0) (castU32 o.priceTicks.toInt) o.quantity
        (if o.ioc ≠ 0 then ocImmediateOrCancel else ocNoConditions) o.orderId.toNat = some { a.asked o with
      book := book
      all := all
      reports := (a.asked o).reports ++ (b.tradesOf o.order).map ((a.asked o).report (a.asked o).ptr a.all.length)
      filled := traded (b.tradesOf o.order) } := called
  simp only [engineOnNewOrder,called',residual,Option.bind_eq_bind,Option.bind_some]
  split_ifs
  · rfl
  · rw [List.append_nil]

/-- The adapter stands for the desk's book, knows its ids, and has pushed its reports. -/
structure Follows (a : LiquibookAdapter) (d : Desk) : Prop where
  stands : Stands a d.book
  labelled : Labelled a
  reports : a.reports = d.reports

/-- What a message may make of the tables. -/
structure Grown (a a' : LiquibookAdapter) (m : Message) : Prop where
  length : a'.all.length ≤ a.all.length + m.builds
  labels : a'.lb2ext.size = a.lb2ext.size
  orders : a'.orders.size = a.orders.size

variable {a' : LiquibookAdapter} {d : Desk} {m : Message}

theorem Room.grown (room : Room a (m :: ms)) (grown : Grown a a' m) : Room a' ms := by
  have labels : a.all.length + (m.builds + builds ms) < a.lb2ext.size := room.labels
  have length := grown.length
  refine ⟨by rw [grown.labels]; omega,?_⟩
  intro o member
  rw [grown.orders]
  exact room.ids o (List.mem_cons_of_mem _ member)

theorem Follows.newOrder {o : NewOrder} (follows : Follows a d) (plain : d.book.Plain) (inRange : (Message.newOrder o).InRange)
    (admitted : d.book.Admits (.newOrder o)) (room : Room a (.newOrder o :: ms)) (few : a.all.length < 4294967296) :
    ∃ a', a.engineOnNewOrder o = some a' ∧ Follows a' (d.step (.newOrder o)) ∧ Grown a a' (.newOrder o) := by
  have incoming := plain.newOrder inRange admitted
  have inTable := room.ids o List.mem_cons_self
  have stands := follows.stands.told o.sequenceNumber.toNat 0
    (a.reports ++ [.ack .orderAck o.sequenceNumber.toNat o.orderId.toNat o.side.toNat o.priceTicks.toInt o.quantity.toNat])
  have labelled := follows.labelled.told o.sequenceNumber.toNat 0
    (a.reports ++ [.ack .orderAck o.sequenceNumber.toNat o.orderId.toNat o.side.toNat o.priceTicks.toInt o.quantity.toNat])
  obtain ⟨book,all,answered,length,stands'⟩ := follows.stands.newOrder plain inRange admitted room
  have trades : (d.book.tradesOf o.order).map ((a.asked o).report (a.asked o).ptr a.all.length) =
    (d.book.tradesOf o.order).map (Trade.report o.sequenceNumber.toNat) := labelled.reports stands plain incoming inRange.1.2 inTable few
  rw [trades] at answered
  have entered : Labelled (a.asked o) := labelled.entered _ _ _ _ stands inTable few
  refine ⟨_,answered,⟨stands'.told .. ,entered,?_⟩,⟨length.le,rfl,rfl⟩⟩
  have reports : (a.asked o).reports = a.reports ++ [.ack .orderAck o.sequenceNumber.toNat o.orderId.toNat o.side.toNat o.priceTicks.toInt
    o.quantity.toNat] := rfl
  simp only [reports,follows.reports,Desk.step,Book.answer,Book.answerNewOrder]
  rw [List.append_assoc,List.append_assoc]
  rfl

theorem Follows.cancel {c : CancelOrder} (follows : Follows a d) (plain : d.book.Plain) :
    ∃ a', a.engineOnCancel c = some a' ∧ Follows a' (d.step (.cancel c)) ∧ Grown a a' (.cancel c) := by
  simp only [engineOnCancel,Desk.step,Book.answer,Book.answerCancel]
  cases resting : d.book.findResting c.orderId.toNat with
  | none =>
    rw [follows.stands.findResting_none plain resting]
    refine ⟨_,rfl,⟨follows.stands.told .. ,follows.labelled,?_⟩,⟨Nat.le_refl _,rfl,rfl⟩⟩
    simp [emitAck,pushReport,Report.ack,follows.reports]
  | some o =>
    obtain ⟨lo,found,mirrors⟩ := follows.stands.findResting_some plain resting
    obtain ⟨t,_,member,isId⟩ := Book.findResting_some resting
    obtain ⟨book,all,called,length,stands⟩ := follows.stands.cancel plain member
    rw [isId] at called stands
    simp only [found,called,Option.bind_eq_bind,Option.bind_some]
    refine ⟨_,rfl,⟨stands.told .. ,follows.labelled,?_⟩,⟨length.le,rfl,rfl⟩⟩
    simp [emitAck,pushReport,Report.ack,follows.reports,mirrors.isBuy,mirrors.price]

theorem inTable_of_found (found : a.findOrder id = some p) : id < a.orders.size := by
  by_contra past
  have none : a.orders.get? id = none := if_neg past
  simp [findOrder,none] at found

theorem Follows.modify {m : ModifyOrder} (follows : Follows a d) (plain : d.book.Plain) (inRange : (Message.modify m).InRange)
    (room : Room a (.modify m :: ms)) (few : a.all.length < 4294967296) :
    ∃ a', a.engineOnModify m = some a' ∧ Follows a' (d.step (.modify m)) ∧ Grown a a' (.modify m) := by
  have stands := follows.stands.told m.sequenceNumber.toNat 0 a.reports
  simp only [engineOnModify,Desk.step,Book.answer,Book.answerModify]
  cases resting : d.book.findResting m.orderId.toNat with
  | none =>
    rw [stands.findResting_none plain resting]
    refine ⟨_,rfl,⟨stands.told .. ,follows.labelled,?_⟩,⟨Nat.le_succ _,rfl,rfl⟩⟩
    simp [emitAck,pushReport,Report.ack,follows.reports]
  | some o =>
    obtain ⟨lo,found,_⟩ := stands.findResting_some plain resting
    obtain ⟨t,_,member,isId⟩ := Book.findResting_some resting
    obtain ⟨book₁,all₁,called₁,length₁,stands₁⟩ := stands.cancel plain member
    have plain₁ := (plain.cancel member).2
    rw [isId] at called₁ stands₁ plain₁
    have incoming := plain.modified inRange member isId
    have inTable : m.orderId.toNat < a.orders.size := isId ▸ inTable_of_found (stands.shown t o member).1
    have labels : a.all.length + (1 + builds ms) < a.lb2ext.size := room.labels
    have length₁' : all₁.length = a.all.length := length₁
    obtain ⟨book₂,all₂,called₂,length₂,stands₂⟩ := stands₁.enter plain₁ incoming inRange.1.2 rfl
      (by show all₁.length + 1 < a.lb2ext.size; omega) inTable
    have labelled : Labelled { a with book := book₁, all := all₁, seq := m.sequenceNumber.toNat, filled := 0 } := follows.labelled
    have few' : all₁.length < 4294967296 := by omega
    have trades := labelled.reports stands₁ plain₁ incoming inRange.1.2 inTable few'
    simp only [found,called₁,Option.bind_eq_bind,Option.bind_some]
    rw [trades] at called₂
    have entered := labelled.entered (m.side = 0) (castU32 m.newPriceTicks.toInt) m.newQuantity ocNoConditions stands₁ inTable few'
    rw [called₂,Option.bind_some]
    refine ⟨_,rfl,⟨stands₂.told .. ,entered,?_⟩,⟨?_,rfl,rfl⟩⟩
    · simp only [emitAck,pushReport,follows.reports]
      exact List.append_assoc ..
    · have length₂' : all₂.length = all₁.length + 1 := length₂
      show all₂.length ≤ a.all.length + 1
      omega

theorem Follows.step (follows : Follows a d) (plain : d.book.Plain) (ok : d.Ok m) (room : Room a (m :: ms))
    (few : a.all.length + m.builds ≤ 4294967296) : ∃ a', a.step m = some a' ∧ Follows a' (d.step m) ∧ Grown a a' m := by
  cases m with
  | newOrder o => exact follows.newOrder plain ok.1 ok.2 room few
  | cancel c => exact follows.cancel plain
  | modify m => exact follows.modify plain ok.1 room few

/-! ## Runs -/

/-- The adapter after `engine_prebuild` of the messages of a run. -/
def prebuilt (ms : List Message) : LiquibookAdapter := ms.foldl enginePrebuild engineInit

/-- What `engine_prebuild` leaves: room, and nothing else. -/
structure Prebuilt (a : LiquibookAdapter) (ms : List Message) : Prop where
  book : a.book = .new
  all : a.all = []
  lastOrderId : a.lastOrderId = 0
  reports : a.reports = []
  orders : ∀ id, a.orders.slot id = none
  lbBuilt : a.lbBuilt = builds ms
  labels : a.lbBuilt < a.lb2ext.size
  ids : ∀ o, .newOrder o ∈ ms → o.orderId.toNat < a.orders.size

theorem Prebuilt.countBuilt (pre : Prebuilt a ms) (one : m.builds = 1)
    (ids : ∀ o, .newOrder o ∈ ms ++ [m] → o.orderId.toNat < a.orders.size) :
    Prebuilt a.countBuilt (ms ++ [m]) := by
  obtain ⟨book,all,lastOrderId,reports,orders,lbBuilt,labels,_⟩ := pre
  have total : builds (ms ++ [m]) = a.lbBuilt + 1 := by simp [builds,lbBuilt,one]
  simp only [LiquibookAdapter.countBuilt]
  split_ifs with full
  · refine ⟨book,all,lastOrderId,reports,orders,total.symm,?_,ids⟩
    exact Nat.lt_of_lt_of_le (Nat.lt_succ_self _) (le_max_right _ _)
  · exact ⟨book,all,lastOrderId,reports,orders,total.symm,Nat.lt_of_not_le full,ids⟩

theorem Prebuilt.makeRoom (pre : Prebuilt a ms) (id : Nat) : Prebuilt (a.makeRoom id) ms ∧ id < (a.makeRoom id).orders.size := by
  unfold LiquibookAdapter.makeRoom
  split_ifs with past
  · refine ⟨{ pre with orders := ?_, ids := ?_ },?_⟩
    · intro i
      simp [Table.resize,pre.orders]
    · intro o member
      have old := pre.ids o member
      show o.orderId.toNat < max (a.orders.size * 2) (id + 1)
      omega
    · exact Nat.lt_of_lt_of_le (Nat.lt_succ_self _) (le_max_right _ _)
  · exact ⟨pre,Nat.lt_of_not_le past⟩

theorem prebuilt_spec (ms : List Message) : Prebuilt (prebuilt ms) ms := by
  induction ms using List.reverseRecOn with
  | nil => exact ⟨rfl,rfl,rfl,rfl,fun _ => rfl,rfl,by decide,by simp⟩
  | append_singleton ms m ih =>
    rw [prebuilt,List.foldl_append]
    cases m with
    | newOrder o =>
      obtain ⟨roomy,inTable⟩ := ih.makeRoom o.orderId.toNat
      apply roomy.countBuilt rfl
      intro o' member
      cases List.mem_append.mp member with
      | inl old => exact roomy.ids o' old
      | inr new =>
        obtain rfl : o' = o := by simpa using new
        exact inTable
    | cancel c =>
      refine { ih with lbBuilt := ih.lbBuilt.trans (by simp [builds,Message.builds]), ids := ?_ }
      intro o member
      exact ih.ids o (by simpa using member)
    | modify m =>
      apply ih.countBuilt rfl
      intro o member
      exact ih.ids o (by simpa using member)

theorem Prebuilt.start (pre : Prebuilt a ms) : Stands a .start ∧ Labelled a ∧ Room a ms := by
  obtain ⟨book,all,lastOrderId,reports,orders,lbBuilt,labels,inTable⟩ := pre
  have none : ∀ id, a.findOrder id = .none := by
    intro id
    rw [findOrder,Table.get?,orders]
    split_ifs <;> rfl
  refine ⟨⟨?_,by rw [book]; rfl,?_,by rw [lastOrderId,all]; rfl,?_,?_,?_⟩,?_,?_,inTable⟩
  · intro t resting
    rw [book]
    rcases resting with rfl | rfl <;> rfl
  · intro p lo read
    simp [all] at read
  · exact fun t o member => absurd member List.not_mem_nil
  · intro id p found
    simp [none] at found
  · intro id id' p found
    simp [none] at found
  · intro id p found
    simp [none] at found
  · simpa [all,lbBuilt] using labels

/-- The adapter after some messages of a run. -/
def after (whole ms : List Message) : Option LiquibookAdapter := run step (prebuilt whole) ms

theorem run_follows {later : List Message} (admitted : Admitted Desk.Ok Desk.step Desk.start ms)
    (few : builds (ms ++ later) ≤ 4294967296) : ∃ a, after (ms ++ later) ms = some a ∧ Follows a (Desk.after ms) := by
  have matched : ∀ (a : LiquibookAdapter) (d : Desk) (m : Message) (ms : List Message),
      (Follows a d ∧ d.book.Plain ∧ Room a (m :: ms) ∧ a.all.length + builds (m :: ms) ≤ 4294967296) → d.Ok m →
      ∃ a', a.step m = some a' ∧ Follows a' (d.step m) ∧ (d.step m).book.Plain ∧ Room a' ms ∧ a'.all.length + builds ms ≤ 4294967296 := by
    rintro a d m ms ⟨follows,plain,room,few⟩ ok
    have few' : a.all.length + (m.builds + builds ms) ≤ 4294967296 := few
    obtain ⟨a',stepped,follows',grown⟩ := follows.step plain ok room (by omega)
    have length := grown.length
    exact ⟨a',stepped,follows',plain.answer ok.1 ok.2,room.grown grown,by omega⟩
  have pre := prebuilt_spec (ms ++ later)
  obtain ⟨stands,labelled,room⟩ := pre.start
  have none : (prebuilt (ms ++ later)).all.length = 0 := by rw [pre.all]; rfl
  obtain ⟨a,ran,follows,_⟩ := run_foreseen (R := fun a d ms => Follows a d ∧ d.book.Plain ∧ Room a ms ∧
      a.all.length + builds ms ≤ 4294967296) matched later ms (prebuilt (ms ++ later)) Desk.start
    ⟨⟨stands,labelled,pre.reports⟩,Book.plain_start,room,by omega⟩ admitted
  exact ⟨a,ran,follows⟩

end LiquibookAdapter

end BaboEngine
