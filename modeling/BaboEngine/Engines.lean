import BaboEngine.AdapterEquivalence
import BaboEngine.Audit

/-!
# The adapters in the harness

Both adapters as engines of the harness. They keep the contract of `engine_on_batch`, only
ever add to their reports, and serve every admissible stream with the answers of the abstract
book.
-/

namespace BaboEngine
open Workload (WorkloadMsg)
open Simulation

/-- The answers of a book. -/
def Desk.replies (d : Desk) : Replies where
  bestBid := d.book.bestOr .bids BabobookAdapter.int64Min
  bestAsk := d.book.bestOr .asks BabobookAdapter.int64Max
  depthAt := fun priceTicks side => BabobookAdapter.sumAt (toU32 priceTicks) (d.book.side (if side = 0 then .bids else .asks))

/-- What an engine has pushed stays pushed. -/
def EngineLib.Appends {E : Type} (lib : EngineLib E) : Prop :=
  (∀ e m e', lib.dispatch e m = some e' → lib.reports e <+: lib.reports e') ∧ ∀ e e', lib.flush e = some e' → lib.reports e <+: lib.reports e'

/-- What steps keep that may fail, runs keep. -/
theorem foldlM_extends {σ ι α : Type} {f : σ → ι → Option σ} (out : σ → List α) (step : ∀ s i s', f s i = some s' → out s <+: out s')
    (is : List ι) : ∀ s s', is.foldlM f s = some s' → out s <+: out s' := by
  induction is with
  | nil =>
    intro s s' ran
    obtain rfl := Option.some.inj ran
    exact List.prefix_rfl
  | cons i is ih =>
    intro s s' ran
    rw [List.foldlM_cons] at ran
    obtain ⟨s₁,first,rest⟩ := Option.bind_eq_some_iff.mp ran
    exact (step s i s₁ first).trans (ih s₁ s' rest)

namespace BabobookAdapter
variable {N : Capacity} {a a' : BabobookAdapter N} {h : Pools N} {ms : List Message}

/-- The symbols that the adapter exports. -/
def lib (N : Capacity) : EngineLib (BabobookAdapter N) where
  onNewOrder := engineOnNewOrder
  onCancel := engineOnCancel
  onModify := engineOnModify
  flush := some
  queryBestBid := engineQueryBestBid
  queryBestAsk := engineQueryBestAsk
  queryDepthAt := engineQueryDepthAt
  prebuild := none
  onBatch := some fun a ms => ms.foldlM step a
  reports := reports

theorem dispatch_eq : (lib N).dispatch = step := by
  funext a m
  cases m <;> rfl

theorem batches : (lib N).Batches := by
  intro onBatch exported a ms
  obtain rfl := Option.some.inj exported
  rw [dispatch_eq]

theorem pushReport_extends (a : BabobookAdapter N) (r : Report) : a.reports <+: (a.pushReport r).reports := List.prefix_append ..

theorem listen_extends (a : BabobookAdapter N) (e : OrderEvent) (a' : BabobookAdapter N) (listened : a.listen e = some a') :
    a.reports <+: a'.reports := by
  unfold listen at listened
  split at listened
  · unfold onFill at listened
    split_ifs at listened with zero
    obtain rfl := Option.some.inj listened
    exact pushReport_extends ..
  · obtain rfl := Option.some.inj listened
    exact List.prefix_rfl

theorem callBook_extends {f : MatchingBook N → Option (MatchingBook N)} (called : a.callBook f = some a') : a.reports <+: a'.reports := by
  obtain ⟨book,_,listened⟩ := Option.bind_eq_some_iff.mp called
  have after : ({ a with book := book } : BabobookAdapter N).reports <+: a'.reports := foldlM_extends reports listen_extends _ _ _ listened
  exact after

theorem newOrder_extends {o : NewOrder} (done : a.engineOnNewOrder o = some a') : a.reports <+: a'.reports := by
  obtain ⟨a₁,added,last⟩ := Option.bind_eq_some_iff.mp done
  have before : a.reports <+: a₁.reports := (List.prefix_append _ _).trans (callBook_extends added)
  split_ifs at last with residual
  · obtain rfl := Option.some.inj last
    exact before.trans (pushReport_extends ..)
  · obtain rfl := Option.some.inj last
    exact before

theorem cancel_extends {c : CancelOrder} (done : a.engineOnCancel c = some a') : a.reports <+: a'.reports := by
  obtain ⟨found,_,last⟩ := Option.bind_eq_some_iff.mp done
  cases found with
  | some r =>
    obtain ⟨a₁,cancelled,last⟩ := Option.bind_eq_some_iff.mp last
    obtain rfl := Option.some.inj last
    exact (callBook_extends cancelled).trans (pushReport_extends ..)
  | none =>
    obtain rfl := Option.some.inj last
    exact pushReport_extends ..

theorem modify_extends {m : ModifyOrder} (done : a.engineOnModify m = some a') : a.reports <+: a'.reports := by
  obtain ⟨found,_,last⟩ := Option.bind_eq_some_iff.mp done
  cases found with
  | some r =>
    obtain ⟨a₁,cancelled,last⟩ := Option.bind_eq_some_iff.mp last
    obtain ⟨a₂,added,last⟩ := Option.bind_eq_some_iff.mp last
    obtain rfl := Option.some.inj last
    have before : ({ a with seq := m.sequenceNumber.toNat, filled := 0 } : BabobookAdapter N).reports <+: a₁.reports :=
      callBook_extends cancelled
    exact before.trans ((callBook_extends added).trans (pushReport_extends ..))
  | none =>
    obtain rfl := Option.some.inj last
    exact pushReport_extends ..

theorem appends : (lib N).Appends := by
  refine ⟨?_,?_⟩
  · intro a m a' done
    rw [dispatch_eq] at done
    cases m with
    | newOrder o => exact newOrder_extends done
    | cancel c => exact cancel_extends done
    | modify m => exact modify_extends done
  · intro a a' flushed
    obtain rfl := Option.some.inj flushed
    exact List.prefix_rfl

theorem Follows.gives {d : Desk} (follows : Follows a d) (plain : d.book.Plain) : (lib N).Gives a d.replies where
  bestBid := bestOr_book follows plain (.inl rfl) _
  bestAsk := bestOr_book follows plain (.inr rfl) _
  depthAt := engineQueryDepthAt_book follows
  flush := rfl

theorem serves (admissible : Admissible h ms) : (lib N).Serves (engineInit h.toHeap) ms fun ms => (Desk.after ms).replies := by
  rintro before later rfl
  obtain ⟨a,ran,follows,plain⟩ := run_follows h admissible.front.admitted
  exact ⟨a,by rw [dispatch_eq]; exact ran,follows.gives plain⟩

end BabobookAdapter

namespace LiquibookAdapter
variable {a a' : LiquibookAdapter} {ms : List Message}

/-- The symbols that the adapter exports. -/
def lib : EngineLib LiquibookAdapter where
  onNewOrder := engineOnNewOrder
  onCancel := engineOnCancel
  onModify := engineOnModify
  flush := some
  queryBestBid a := some a.engineQueryBestBid
  queryBestAsk a := some a.engineQueryBestAsk
  queryDepthAt a priceTicks side := some (a.engineQueryDepthAt priceTicks side)
  prebuild := some enginePrebuild
  onBatch := some fun a ms => ms.foldlM step a
  reports := reports

theorem dispatch_eq : lib.dispatch = step := by
  funext a m
  cases m <;> rfl

theorem batches : lib.Batches := by
  intro onBatch exported a ms
  obtain rfl := Option.some.inj exported
  rw [dispatch_eq]

theorem pushReport_extends (a : LiquibookAdapter) (r : Report) : a.reports <+: (a.pushReport r).reports := List.prefix_append ..

theorem edit_reports {order : Nat} {f : Liquibook.Order → Liquibook.Order} (edited : a.edit order f = some a') : a'.reports = a.reports := by
  obtain ⟨o,_,isEdit⟩ := Option.bind_eq_some_iff.mp edited
  obtain rfl := Option.some.inj isEdit
  rfl

theorem onFill_extends {taker maker qty cost : Nat} (filled : a.onFill taker maker qty cost = some a') : a.reports <+: a'.reports := by
  unfold onFill at filled
  split_ifs at filled with zero
  obtain ⟨_,_,filled⟩ := Option.bind_eq_some_iff.mp filled
  obtain ⟨_,_,filled⟩ := Option.bind_eq_some_iff.mp filled
  obtain ⟨_,_,filled⟩ := Option.bind_eq_some_iff.mp filled
  obtain ⟨_,_,filled⟩ := Option.bind_eq_some_iff.mp filled
  obtain rfl := Option.some.inj filled
  exact pushReport_extends ..

theorem performCallback_extends (a : LiquibookAdapter) (c : Liquibook.Callback) (a' : LiquibookAdapter) (done : a.performCallback c = some a') :
    a.reports <+: a'.reports := by
  unfold performCallback at done
  split at done
  · exact (edit_reports done) ▸ List.prefix_rfl
  · obtain ⟨a₁,filled,done⟩ := Option.bind_eq_some_iff.mp done
    obtain ⟨a₂,first,second⟩ := Option.bind_eq_some_iff.mp done
    rw [edit_reports second,edit_reports first]
    exact onFill_extends filled
  · exact (edit_reports done) ▸ List.prefix_rfl
  all_goals
    obtain rfl := Option.some.inj done
    exact List.prefix_rfl

theorem callBook_extends {f : Liquibook.OrderBook → List Liquibook.Order → Option Liquibook.OrderBook} (called : a.callBook f = some a') :
    a.reports <+: a'.reports := by
  obtain ⟨book,_,performed⟩ := Option.bind_eq_some_iff.mp called
  have after := foldlM_extends reports performCallback_extends _ _ _ performed
  exact after

theorem mapLbId_reports {lo extId : Nat} (mapped : a.mapLbId lo extId = some a') : a'.reports = a.reports := by
  obtain ⟨_,_,mapped⟩ := Option.bind_eq_some_iff.mp mapped
  obtain ⟨_,_,mapped⟩ := Option.bind_eq_some_iff.mp mapped
  obtain rfl := Option.some.inj mapped
  rfl

theorem enter_extends {isBuy : Bool} {price qty cond : UInt32} {extId : Nat} (entered : a.enter isBuy price qty cond extId = some a') :
    a.reports <+: a'.reports := by
  obtain ⟨a₁,mapped,entered⟩ := Option.bind_eq_some_iff.mp entered
  obtain ⟨orders,_,added⟩ := Option.bind_eq_some_iff.mp entered
  have same : a₁.reports = a.reports := (mapLbId_reports mapped).trans rfl
  rw [← same]
  have after := callBook_extends added
  exact after

theorem newOrder_extends {o : NewOrder} (done : a.engineOnNewOrder o = some a') : a.reports <+: a'.reports := by
  obtain ⟨a₁,entered,last⟩ := Option.bind_eq_some_iff.mp done
  have before : a.reports <+: a₁.reports := (List.prefix_append _ _).trans (enter_extends entered)
  split_ifs at last with residual
  · obtain rfl := Option.some.inj last
    exact before.trans (pushReport_extends ..)
  · obtain rfl := Option.some.inj last
    exact before

theorem cancel_extends {c : CancelOrder} (done : a.engineOnCancel c = some a') : a.reports <+: a'.reports := by
  obtain ⟨found,_,last⟩ := Option.bind_eq_some_iff.mp done
  cases found with
  | some r =>
    obtain ⟨a₁,cancelled,last⟩ := Option.bind_eq_some_iff.mp last
    obtain rfl := Option.some.inj last
    exact (callBook_extends cancelled).trans (pushReport_extends ..)
  | none =>
    obtain rfl := Option.some.inj last
    exact pushReport_extends ..

theorem modify_extends {m : ModifyOrder} (done : a.engineOnModify m = some a') : a.reports <+: a'.reports := by
  obtain ⟨found,_,last⟩ := Option.bind_eq_some_iff.mp done
  cases found with
  | some r =>
    obtain ⟨a₁,cancelled,last⟩ := Option.bind_eq_some_iff.mp last
    obtain ⟨a₂,entered,last⟩ := Option.bind_eq_some_iff.mp last
    obtain rfl := Option.some.inj last
    have before : ({ a with seq := m.sequenceNumber.toNat, filled := 0 } : LiquibookAdapter).reports <+: a₁.reports := callBook_extends cancelled
    exact before.trans ((enter_extends entered).trans (pushReport_extends ..))
  | none =>
    obtain rfl := Option.some.inj last
    exact pushReport_extends ..

theorem appends : lib.Appends := by
  refine ⟨?_,?_⟩
  · intro a m a' done
    rw [dispatch_eq] at done
    cases m with
    | newOrder o => exact newOrder_extends done
    | cancel c => exact cancel_extends done
    | modify m => exact modify_extends done
  · intro a a' flushed
    obtain rfl := Option.some.inj flushed
    exact List.prefix_rfl

theorem builds_le (ms : List Message) : builds ms ≤ ms.length := by
  induction ms with
  | nil => exact le_refl 0
  | cons m ms ih =>
    have one : m.builds ≤ 1 := by cases m <;> simp [Message.builds]
    have total : builds (m :: ms) = m.builds + builds ms := rfl
    rw [total,List.length_cons]
    omega

theorem builds_workload {workload : List WorkloadMsg} (few : workload.length < 4294967296) :
    builds (workload.map WorkloadMsg.prepare) ≤ 4294967296 := by
  have bound := builds_le (workload.map WorkloadMsg.prepare)
  rw [List.length_map] at bound
  omega

theorem Follows.gives {d : Desk} (follows : a.Follows d) (plain : d.book.Plain) : lib.Gives a d.replies where
  bestBid := congrArg some follows.stands.bestBid
  bestAsk := congrArg some follows.stands.bestAsk
  depthAt priceTicks side := congrArg some (follows.stands.depthAt plain priceTicks side)
  flush := rfl

theorem serves (admitted : Admitted Desk.Ok Desk.step Desk.start ms) (few : builds ms ≤ 4294967296) :
    lib.Serves (prebuilt ms) ms fun ms => (Desk.after ms).replies := by
  rintro before later rfl
  obtain ⟨first,_⟩ := admitted_append.mp admitted
  obtain ⟨a,ran,follows⟩ := run_follows first few
  obtain ⟨_,_,_,plain⟩ := BabobookAdapter.run_follows (.empty : Pools ⟨1,by decide,by decide⟩) first
  exact ⟨a,by rw [dispatch_eq]; exact ran,follows.gives plain⟩

end LiquibookAdapter

/-- The audit of babobook against liquibook, on a sell and a buy that takes a part of it. -/
theorem audit_exact_trade :
    let workload : List WorkloadMsg := [⟨0,1,0,10,1,1,100⟩,⟨0,0,0,4,2,2,101⟩]
    let lib := BabobookAdapter.lib ⟨1,by decide,by decide⟩
    let base := LiquibookAdapter.lib
    let prepared := workload.map WorkloadMsg.prepare
    ∃ r report, lib.perform .audit workload ⟨lib.prebuilt (.engineInit (Pools.empty).toHeap) prepared,[]⟩ (lib.calls prepared [0,1]) = some r ∧
      base.runStateAudit .engineInit workload r.snaps = some report ∧ report.ran = true ∧ report.checks = 3 * 2 ∧
      (0 ≤ report.mismatches ∧ report.mismatches ≤ report.checks ∧ ((64 : Int) ≤ 715827882 → report.checks < 2147483648)) ∧
      (report.passed = true ↔ [0,1] ≠ [] ∧ ∀ i ∈ [0,1], ∀ m, workload[i]? = some m →
        (Desk.after ((workload.take (i + 1)).map WorkloadMsg.prepare)).replies.snapshot i m =
          (Desk.after ((workload.take (i + 1)).map WorkloadMsg.prepare)).replies.snapshot i m) := by
  intro workload lib base prepared
  have admitted : Admitted Desk.Ok Desk.step Desk.start prepared := by decide
  have serves : lib.Serves (lib.prebuilt (.engineInit (Pools.empty).toHeap) prepared) prepared fun ms => (Desk.after ms).replies :=
    BabobookAdapter.serves (BabobookAdapter.admissible_iff.mpr admitted)
  have baseline : base.Serves (base.prebuilt .engineInit prepared) prepared fun ms => (Desk.after ms).replies :=
    LiquibookAdapter.serves admitted (by decide)
  exact EngineLib.audit_exact BabobookAdapter.batches serves baseline (by decide) (show auditPickIndices [7,4] 2 64 = some [0,1] by decide)

end BaboEngine
