import BaboEngine.CanonicalText
import BaboEngine.Engines
import BaboEngine.Handoff
import BaboEngine.ReportBound

/-!
# From the engine to the drainer

The two threads of the harness: the matcher makes the calls of the run, and every report is
pushed with `while (!push) cpu_pause()`; `drainer_main` takes reports out of the queue of
`transport.cpp`, counts them by type and collects them. The queue itself is not in the
repository; it is a parameter, which is to be a first-in first-out queue with room for
`QUEUE_CAPACITY` reports, each of its operations one step. Whatever the interleaving, the
drainer collects what the engine has reported, in order.
-/

namespace BaboEngine
open Workload (WorkloadMsg)
open FairSchedules Handoff Simulation

def queueCapacity : Nat := 2 ^ 20

def drainBatch : Nat := 256

/-- The values of `me_report_type_t`. -/
def ReportType.value : ReportType → UInt8
  | .orderAck => 0
  | .trade => 1
  | .cancelAck => 2
  | .modifyAck => 3
  | .cancelReject => 4
  | .modifyReject => 5

/-- The fields that `consume` copies; those of `me_report_t` have these widths. -/
def Report.collect (r : Report) : CollectedReport where
  type := r.type.value
  seq := .ofNat r.sequenceNumber
  side := .ofNat r.side
  orderId := .ofNat r.orderId
  priceTicks := .ofInt r.priceTicks
  quantity := .ofNat r.quantity
  makerOrderId := .ofNat r.makerOrderId
  takerOrderId := .ofNat r.takerOrderId

/-- What the drainer has counted and collected. -/
structure DrainState where
  orderAcks : UInt64
  trades : UInt64
  cancelAcks : UInt64
  modifyAcks : UInt64
  cancelRejects : UInt64
  modifyRejects : UInt64
  collected : List CollectedReport

namespace DrainState

def start : DrainState := ⟨0,0,0,0,0,0,[]⟩

/-- A round of the loop of `consume`. -/
def consume (s : DrainState) (r : Report) : DrainState :=
  let s := { s with collected := s.collected ++ [r.collect] }
  match r.type with
  | .orderAck => { s with orderAcks := s.orderAcks + 1 }
  | .trade => { s with trades := s.trades + 1 }
  | .cancelAck => { s with cancelAcks := s.cancelAcks + 1 }
  | .modifyAck => { s with modifyAcks := s.modifyAcks + 1 }
  | .cancelReject => { s with cancelRejects := s.cancelRejects + 1 }
  | .modifyReject => { s with modifyRejects := s.modifyRejects + 1 }

/-- How many reports are of a type. -/
def tally (type : ReportType) (rs : List Report) : UInt64 := .ofNat (rs.countP fun r => r.type = type)

/-- The state of a drainer that has had some reports. -/
def drained (rs : List Report) : DrainState where
  orderAcks := tally .orderAck rs
  trades := tally .trade rs
  cancelAcks := tally .cancelAck rs
  modifyAcks := tally .modifyAck rs
  cancelRejects := tally .cancelReject rs
  modifyRejects := tally .modifyReject rs
  collected := rs.map Report.collect

theorem tally_append (type : ReportType) (rs : List Report) (r : Report) :
    tally type (rs ++ [r]) = if r.type = type then tally type rs + 1 else tally type rs := by
  unfold tally
  rw [List.countP_append,List.countP_singleton]
  by_cases isType : r.type = type
  · simp [isType,UInt64.ofNat_add]
  · simp [isType]

theorem consume_drained (rs : List Report) (r : Report) : (drained rs).consume r = drained (rs ++ [r]) := by
  unfold consume drained
  simp only [tally_append,List.map_append,List.map_cons,List.map_nil]
  cases r.type <;> simp

theorem foldl_consume (rs : List Report) : rs.foldl consume start = drained rs := by
  induction rs using List.reverseRecOn with
  | nil => rfl
  | append_singleton rs r ih => rw [List.foldl_append,ih,List.foldl_cons,List.foldl_nil,consume_drained]

end DrainState

/-- The matcher thread: the engine, how many of its reports have been pushed, and the calls that are still to be made. A call is made
    when the reports of the calls before have been pushed; that the engine pushes them while it computes nobody can tell. -/
structure Matcher (E : Type) where
  run : Run E
  pushed : Nat
  calls : List Call

namespace EngineLib
variable {E Q : Type}

/-- A call that crashes never comes back. -/
def move (lib : EngineLib E) (mode : Mode) (workload : List WorkloadMsg) (q : Matcher E) : Move (Matcher E) Report :=
  match (lib.reports q.run.engine)[q.pushed]? with
  | some r => .push r { q with pushed := q.pushed + 1 }
  | none =>
    match q.calls with
    | [] => .halt
    | c :: cs =>
      match lib.call mode workload q.run c with
      | some run => .compute { q with run := run, calls := cs }
      | none => .compute q

/-- The queue, `drainer_main` and the matcher. -/
def protocol (lib : EngineLib E) (queue : Queue Report Q) (mode : Mode) (workload : List WorkloadMsg) :
    Protocol (Matcher E) Report DrainState Q where
  move := lib.move mode workload
  absorb := DrainState.consume
  queue := queue
  capacity := queueCapacity
  most := drainBatch
  room := by decide
  some := by decide

/-- Both threads after some turns; the engine is ready for its first call. -/
def session (lib : EngineLib E) (queue : Queue Report Q) (mode : Mode) (workload : List WorkloadMsg) (calls : List Call) (e : E)
    (turns : List Thread) : State (Matcher E) Report DrainState Q :=
  runTurns (lib.protocol queue mode workload).act (Handoff.start (lib.protocol queue mode workload) ⟨⟨e,[]⟩,0,calls⟩ .start) turns

/-- The reports travel whole: whatever the turns, the drainer has had the first reports, in order and each once; when it is done it has
    had them all, and every fair schedule comes to a turn from which on it is done. -/
structure Delivers (lib : EngineLib E) (queue : Queue Report Q) (mode : Mode) (workload : List WorkloadMsg) (calls : List Call) (e : E)
    (rs : List Report) : Prop where
  inOrder : ∀ turns, ∃ taken, taken <+: rs ∧ (lib.session queue mode workload calls e turns).sink = .drained taken
  complete : ∀ turns, (lib.session queue mode workload calls e turns).consumer = .done →
    (lib.session queue mode workload calls e turns).sink = .drained rs
  ends : ∀ sched, FairSchedules.Fair sched →
    ∃ n, ∀ k, n ≤ k → (lib.session queue mode workload calls e (firstTurns sched k)).consumer = .done

variable {lib : EngineLib E} {mode : Mode} {workload : List WorkloadMsg} {queue : Queue Report Q} {sound : Q → Prop} {items : Q → List Report}

theorem Appends.call (appends : lib.Appends) (batches : lib.Batches) (r : Run E) (c : Call) (r' : Run E)
    (called : lib.call mode workload r c = some r') : lib.reports r.engine <+: lib.reports r'.engine := by
  cases c with
  | onMessage m =>
    obtain ⟨e,done,rfl⟩ := Option.map_eq_some_iff.mp called
    exact appends.1 _ _ _ done
  | onBatch ms =>
    obtain ⟨onBatch,exported,called⟩ := Option.bind_eq_some_iff.mp called
    obtain ⟨e,done,rfl⟩ := Option.map_eq_some_iff.mp called
    rw [batches onBatch exported] at done
    exact foldlM_extends lib.reports appends.1 ms _ _ done
  | probe i =>
    obtain ⟨m,_,called⟩ := Option.bind_eq_some_iff.mp called
    obtain ⟨bid,_,called⟩ := Option.bind_eq_some_iff.mp called
    obtain ⟨ask,_,called⟩ := Option.bind_eq_some_iff.mp called
    obtain ⟨dep,_,called⟩ := Option.bind_eq_some_iff.mp called
    cases mode with
    | perf =>
      obtain rfl := Option.some.inj called
      exact List.prefix_rfl
    | audit =>
      obtain rfl := Option.some.inj called
      exact List.prefix_rfl
  | flush =>
    obtain ⟨e,done,rfl⟩ := Option.map_eq_some_iff.mp called
    exact appends.2 _ _ done

/-- The reports that are left are pushed, and then the calls go on. -/
theorem emits_reports (r : Run E) (cs : List Call) (xs : List Report)
    (emits : Emits (lib.move mode workload) ⟨r,(lib.reports r.engine).length,cs⟩ xs) (n : Nat) : ∀ k,
      k + n = (lib.reports r.engine).length → Emits (lib.move mode workload) ⟨r,k,cs⟩ ((lib.reports r.engine).drop k ++ xs) := by
  induction n with
  | zero =>
    intro k all
    rw [Nat.add_zero] at all
    rw [all,List.drop_length]
    exact emits
  | succ n ih =>
    intro k left
    have more : k < (lib.reports r.engine).length := by omega
    rw [List.drop_eq_getElem_cons more,List.cons_append]
    refine .push ?_ (ih (k + 1) (by omega))
    simp only [move,List.getElem?_eq_getElem more]

/-- A run that does not crash pushes its reports. -/
theorem emits_run (appends : lib.Appends) (batches : lib.Batches) (cs : List Call) : ∀ (r r' : Run E) (k : Nat),
    lib.perform mode workload r cs = some r' → k ≤ (lib.reports r.engine).length →
    Emits (lib.move mode workload) ⟨r,k,cs⟩ ((lib.reports r'.engine).drop k) := by
  induction cs with
  | nil =>
    intro r r' k ran left
    obtain rfl := Option.some.inj ran
    have halted : Emits (lib.move mode workload) ⟨r,(lib.reports r.engine).length,[]⟩ [] := .halt (by simp [move])
    have whole := emits_reports r [] [] halted ((lib.reports r.engine).length - k) k (by omega)
    rwa [List.append_nil] at whole
  | cons c cs ih =>
    intro r r' k ran left
    rw [perform_cons] at ran
    obtain ⟨r₁,called,rest⟩ := Option.bind_eq_some_iff.mp ran
    obtain ⟨new,isNew⟩ := appends.call batches r c r₁ called
    obtain ⟨later,isLater⟩ : lib.reports r₁.engine <+: lib.reports r'.engine :=
      foldlM_extends (fun r => lib.reports r.engine) (appends.call batches) cs r₁ r' rest
    have emits := ih r₁ r' (lib.reports r.engine).length rest (by rw [← isNew]; simp)
    have calling : lib.move mode workload ⟨r,(lib.reports r.engine).length,c :: cs⟩ = .compute ⟨r₁,(lib.reports r.engine).length,cs⟩ := by
      simp [move,called]
    have whole := emits_reports r (c :: cs) _ (.compute calling emits) ((lib.reports r.engine).length - k) k (by omega)
    have split : (lib.reports r'.engine).drop k =
        (lib.reports r.engine).drop k ++ (lib.reports r'.engine).drop (lib.reports r.engine).length := by
      rw [← isLater,← isNew,List.append_assoc,List.drop_append_of_le_length left,List.drop_left]
    rw [split]
    exact whole

/-- The engine of a run that is over has made all its calls. -/
theorem session_run (bounded : queue.Bounded queueCapacity sound items) (appends : lib.Appends) (batches : lib.Batches) {cs : List Call}
    {e : E} {r : Run E} (ran : lib.perform mode workload ⟨e,[]⟩ cs = some r) (turns : List Thread)
    (isDone : (lib.session queue mode workload cs e turns).consumer = .done) :
    (lib.session queue mode workload cs e turns).producer.run = r := by
  have emits : Emits (lib.protocol queue mode workload).move ⟨⟨e,[]⟩,0,cs⟩ (lib.reports r.engine) :=
    emits_run appends batches cs _ r 0 ran (Nat.zero_le _)
  have halted := ((Holds.start bounded DrainState.start emits).run bounded turns).halted isDone
  have left : lib.perform mode workload (lib.session queue mode workload cs e turns).producer.run
      (lib.session queue mode workload cs e turns).producer.calls = some r := by
    apply runTurns_producer (p := lib.protocol queue mode workload) (P := fun q => lib.perform mode workload q.run q.calls = some r)
    · intro q q' isCompute ran
      unfold protocol move at isCompute
      dsimp only at isCompute
      split at isCompute
      · cases isCompute
      · split at isCompute
        · cases isCompute
        next c cs isCalls =>
          rw [isCalls,perform_cons] at ran
          obtain ⟨r₁,called,rest⟩ := Option.bind_eq_some_iff.mp ran
          rw [called] at isCompute
          cases isCompute
          exact rest
    · intro q x q' isPush ran
      unfold protocol move at isPush
      dsimp only at isPush
      split at isPush
      · cases isPush
        exact ran
      · split at isPush
        · cases isPush
        · split at isPush <;> cases isPush
    · exact ran
  have noCalls : (lib.session queue mode workload cs e turns).producer.calls = [] := by
    unfold session protocol move at halted ⊢
    dsimp only at halted
    split at halted
    · cases halted
    · split at halted
      next none => exact none
      next => split at halted <;> cases halted
  rw [noCalls] at left
  exact Option.some.inj left

theorem delivers_run (bounded : queue.Bounded queueCapacity sound items) (appends : lib.Appends) (batches : lib.Batches) {cs : List Call}
    {e : E} {r : Run E} (ran : lib.perform mode workload ⟨e,[]⟩ cs = some r) :
    lib.Delivers queue mode workload cs e (lib.reports r.engine) := by
  have emits : Emits (lib.protocol queue mode workload).move ⟨⟨e,[]⟩,0,cs⟩ (lib.reports r.engine) :=
    emits_run appends batches cs _ r 0 ran (Nat.zero_le _)
  have holds := fun turns => (Holds.start bounded DrainState.start emits).run bounded turns
  refine ⟨fun turns => ?_,fun turns isDone => ?_,fun sched fair => ?_⟩
  · obtain ⟨taken,rest,split,absorbed,_⟩ := (holds turns).account
    refine ⟨taken,?_,absorbed.trans (DrainState.foldl_consume taken)⟩
    rw [split,List.append_assoc,List.append_assoc]
    exact List.prefix_append ..
  · exact ((holds turns).finished isDone).trans (DrainState.foldl_consume _)
  · obtain ⟨n,isDone⟩ := finishes bounded DrainState.start emits fair
    exact ⟨n,fun k after => (isDone k after).1⟩

end EngineLib

/-! ## The adapters -/

/-- A run of the adapter makes all its calls, and has the reports of the abstract book. -/
theorem babobook_performed {N : Capacity} {h : Pools N} (mode : Mode) {workload : List WorkloadMsg}
    (admissible : BabobookAdapter.Admissible h (workload.map WorkloadMsg.prepare)) (few : workload.length < 4294967296)
    {draws : List UInt64} {n : Int} {auditIdx : List Nat} (picked : auditPickIndices draws workload.length n = some auditIdx) :
    ∃ r, (BabobookAdapter.lib N).perform mode workload ⟨.engineInit h.toHeap,[]⟩
        ((BabobookAdapter.lib N).calls (workload.map WorkloadMsg.prepare) auditIdx) = some r ∧
      (BabobookAdapter.lib N).reports r.engine = (Desk.after (workload.map WorkloadMsg.prepare)).reports := by
  obtain ⟨a,after,ran⟩ := (BabobookAdapter.serves admissible).performed mode BabobookAdapter.batches few picked
  obtain ⟨a',ran',follows,_⟩ := BabobookAdapter.run_follows h admissible.admitted
  have reached := after.reached
  rw [BabobookAdapter.dispatch_eq] at reached
  obtain rfl : a' = a := Option.some.inj (ran'.symm.trans reached)
  exact ⟨_,ran,follows.reports⟩

/-- What the abstract book answers to an admissible workload is delivered through any queue that keeps the contract, in either mode and
    whatever is drawn. -/
theorem babobook_delivers {Q : Type} {queue : Queue Report Q} {sound : Q → Prop} {items : Q → List Report}
    (bounded : queue.Bounded queueCapacity sound items) {N : Capacity} (h : Pools N) (mode : Mode) {workload : List WorkloadMsg}
    (admissible : BabobookAdapter.Admissible h (workload.map WorkloadMsg.prepare)) (few : workload.length < 4294967296)
    {draws : List UInt64} {n : Int} {auditIdx : List Nat} (picked : auditPickIndices draws workload.length n = some auditIdx) :
    (BabobookAdapter.lib N).Delivers queue mode workload ((BabobookAdapter.lib N).calls (workload.map WorkloadMsg.prepare) auditIdx)
      (.engineInit h.toHeap) (Desk.after (workload.map WorkloadMsg.prepare)).reports := by
  obtain ⟨r,ran,reports⟩ := babobook_performed mode admissible few picked
  rw [← reports]
  exact EngineLib.delivers_run bounded BabobookAdapter.appends BabobookAdapter.batches ran

/-- Two sells, a buy that trades with one of them, and a cancel, probed after the second and the last. -/
theorem babobook_delivers_trade :
    let workload : List WorkloadMsg := [⟨0,1,0,10,1,1,100⟩,⟨0,1,0,5,2,2,101⟩,⟨0,0,1,12,3,3,100⟩,⟨1,0,0,0,4,2,0⟩]
    let lib := BabobookAdapter.lib ⟨1,by decide,by decide⟩
    lib.Delivers (Queue.list Report) .audit workload (lib.calls (workload.map WorkloadMsg.prepare) [1,3]) (.engineInit (Pools.empty).toHeap)
      (Desk.after (workload.map WorkloadMsg.prepare)).reports :=
  babobook_delivers (list_bounded queueCapacity) .empty .audit (BabobookAdapter.admissible_iff.mpr (by decide)) (by decide)
    (show auditPickIndices [7,11,1] 4 2 = some [1,3] by decide)

/-- The reports of the abstract book fit what is reserved for them. -/
theorem reports_fit {N : Capacity} {h : Pools N} {workload : List WorkloadMsg}
    (admissible : BabobookAdapter.Admissible h (workload.map WorkloadMsg.prepare)) :
    (Desk.after (workload.map WorkloadMsg.prepare)).reports.length ≤ workload.length * 2 + 1024 := by
  have bound := (Desk.reports_bound admissible.admitted).1
  rw [List.length_map] at bound
  omega

/-- So does what the drainer has collected, at every turn. -/
theorem collected_fit {Q : Type} {queue : Queue Report Q} {sound : Q → Prop} {items : Q → List Report}
    (bounded : queue.Bounded queueCapacity sound items) {N : Capacity} (h : Pools N) (mode : Mode) {workload : List WorkloadMsg}
    (admissible : BabobookAdapter.Admissible h (workload.map WorkloadMsg.prepare)) (few : workload.length < 4294967296)
    {draws : List UInt64} {n : Int} {auditIdx : List Nat} (picked : auditPickIndices draws workload.length n = some auditIdx)
    (turns : List Thread) : ((BabobookAdapter.lib N).session queue mode workload
      ((BabobookAdapter.lib N).calls (workload.map WorkloadMsg.prepare) auditIdx) (.engineInit h.toHeap) turns).sink.collected.length ≤
        workload.length * 2 + 1024 := by
  obtain ⟨r,ran,reports⟩ := babobook_performed mode admissible few picked
  have delivers := EngineLib.delivers_run bounded BabobookAdapter.appends BabobookAdapter.batches ran
  obtain ⟨taken,first,isSink⟩ := delivers.inOrder turns
  rw [isSink]
  show (taken.map Report.collect).length ≤ _
  rw [List.length_map]
  rw [reports] at first
  exact first.length_le.trans (reports_fit admissible)

end BaboEngine
