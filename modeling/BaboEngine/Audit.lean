import BaboEngine.Dispatch
import Mathlib.Algebra.Order.BigOperators.Group.List
import Mathlib.Algebra.Order.Ring.Int

/-!
# The state audit

`run_state_audit` replays the workload through a baseline engine and compares its answers with
those that were recorded of the engine under test. It counts the answers that differ, no more
and no less, so it passes if and only if the two engines answer alike at every probe
(`audit_exact`).
-/

namespace BaboEngine
open Workload (WorkloadMsg)

/-- The counters are an `int` each; `audit_exact` says for how many points they stay in its range. -/
structure AuditReport where
  ran : Bool
  passed : Bool
  checks : Int
  mismatches : Int
  note : String
deriving DecidableEq

/-- What an engine answers to the queries. -/
structure Replies where
  bestBid : Int
  bestAsk : Int
  depthAt : Int → UInt8 → Nat

/-- How many of the three answers of a snapshot differ. -/
def Replies.differences (v : Replies) (ut : QuerySnapshot) : Int :=
  (if v.bestBid ≠ ut.bestBid then 1 else 0) + (if v.bestAsk ≠ ut.bestAsk then 1 else 0) +
    (if v.depthAt ut.probePrice.toInt ut.probeSide ≠ ut.depth then 1 else 0)

/-- The snapshot that is recorded after a message. -/
def Replies.snapshot (v : Replies) (i : Nat) (m : WorkloadMsg) : QuerySnapshot :=
  ⟨i,v.bestBid,v.bestAsk,m.priceTicks,m.side,v.depthAt m.priceTicks.toInt m.side⟩

namespace EngineLib
variable {E : Type}

/-- `feed`; it builds the messages as the harness does. -/
def feed (lib : EngineLib E) (e : E) (m : WorkloadMsg) : Option E := lib.dispatch e m.prepare

/-- The loop of `run_state_audit` from the message `i` and the snapshot `cur` on. -/
def auditLoop (lib : EngineLib E) : Nat → List WorkloadMsg → List QuerySnapshot → E → AuditReport → Option (E × AuditReport)
  | i, m :: ms, ut :: uts, e, r => do
    let e ← lib.feed e m
    if ut.index ≠ i then lib.auditLoop (i + 1) ms (ut :: uts) e r
    else do
      let bb ← lib.queryBestBid e
      let ba ← lib.queryBestAsk e
      let dp ← lib.queryDepthAt e ut.probePrice.toInt ut.probeSide
      let r := { r with checks := r.checks + 3 }
      let r := if bb ≠ ut.bestBid then { r with mismatches := r.mismatches + 1 } else r
      let r := if ba ≠ ut.bestAsk then { r with mismatches := r.mismatches + 1 } else r
      let r := if dp ≠ ut.depth then { r with mismatches := r.mismatches + 1 } else r
      lib.auditLoop (i + 1) ms uts e r
  | _, _, _, e, r => some (e,r)

/-- `run_state_audit`, with a baseline that `engine_init` has left as `e`. -/
def runStateAudit (lib : EngineLib E) (e : E) (workload : List WorkloadMsg) (underTest : List QuerySnapshot) : Option AuditReport :=
  if underTest.isEmpty then some ⟨true,false,0,0,"no state snapshots were recorded"⟩
  else do
    let e := lib.prebuilt e (workload.map WorkloadMsg.prepare)
    let (e,r) ← lib.auditLoop 0 workload underTest e ⟨true,false,0,0,""⟩
    let _ ← lib.flush e
    let passed := decide (r.checks > 0 ∧ r.mismatches = 0)
    some { r with
      passed := passed
      note := if passed then "order-book state matched the baseline at every probe"
        else "engine_query_* answers diverged from the baseline" }

/-! ## Engines that answer -/

variable {lib : EngineLib E} {e e' : E} {ms : List WorkloadMsg} {vs us : List Message → Replies}

/-- The engine answers every query in this way. -/
structure Gives (lib : EngineLib E) (e : E) (v : Replies) : Prop where
  bestBid : lib.queryBestBid e = some v.bestBid
  bestAsk : lib.queryBestAsk e = some v.bestAsk
  depthAt : ∀ (priceTicks : Int) (side : UInt8), lib.queryDepthAt e priceTicks side = some (v.depthAt priceTicks side)
  flush : lib.flush e = some e

/-- The engine takes the messages of a stream, and its answers after some of them are `vs` of these. -/
def Serves (lib : EngineLib E) (e : E) (ms : List Message) (vs : List Message → Replies) : Prop :=
  ∀ before later, ms = before ++ later → ∃ e', before.foldlM lib.dispatch e = some e' ∧ lib.Gives e' (vs before)

/-- The engine as it is after some messages of a workload that it serves. -/
structure After (lib : EngineLib E) (e : E) (vs : List Message → Replies) (ms : List WorkloadMsg) (e' : E) : Prop where
  reached : (ms.map WorkloadMsg.prepare).foldlM lib.dispatch e = some e'
  gives : lib.Gives e' (vs (ms.map WorkloadMsg.prepare))

theorem Serves.start (serves : lib.Serves e (ms.map WorkloadMsg.prepare) vs) : lib.After e vs [] e := by
  obtain ⟨e',reached,gives⟩ := serves [] _ rfl
  obtain rfl := Option.some.inj reached
  exact ⟨rfl,gives⟩

theorem Serves.next {before later : List WorkloadMsg} {m : WorkloadMsg}
    (serves : lib.Serves e ((before ++ m :: later).map WorkloadMsg.prepare) vs) (after : lib.After e vs before e') :
    ∃ e'', lib.feed e' m = some e'' ∧ lib.After e vs (before ++ [m]) e'' := by
  obtain ⟨e'',reached,gives⟩ := serves ((before ++ [m]).map WorkloadMsg.prepare) (later.map WorkloadMsg.prepare) (by simp)
  refine ⟨e'',?_,reached,gives⟩
  rw [List.map_append,List.foldlM_append,after.reached] at reached
  simpa [feed] using reached

/-- The snapshots of a run. -/
def snapshots (vs : List Message → Replies) (workload : List WorkloadMsg) (idx : List Nat) : List QuerySnapshot :=
  idx.filterMap fun i => workload[i]?.map fun m => (vs ((workload.take (i + 1)).map WorkloadMsg.prepare)).snapshot i m

theorem snapshots_cons {before later : List WorkloadMsg} {m : WorkloadMsg} (idx : List Nat) :
    snapshots vs (before ++ m :: later) (before.length :: idx) =
      (vs ((before ++ [m]).map WorkloadMsg.prepare)).snapshot before.length m :: snapshots vs (before ++ m :: later) idx := by
  have front : (before ++ m :: later).take (before.length + 1) = before ++ [m] := by simp [List.take_append]
  have here : (before ++ m :: later)[before.length]? = some m := by simp
  rw [snapshots,List.filterMap_cons,here,Option.map_some,front]
  rfl

/-- The part of the indices that is still to come. -/
structure Ahead (i bound : Nat) (idx : List Nat) : Prop extends Indices bound idx where
  from_ : ∀ b ∈ idx, i ≤ b

theorem Ahead.tail {i b bound : Nat} {idx : List Nat} (ahead : Ahead i bound (b :: idx)) (here : i = b) : Ahead (i + 1) bound idx := by
  obtain ⟨first,rest⟩ := List.pairwise_cons.mp ahead.ascending
  refine ⟨⟨rest,fun k member => ahead.below k (List.mem_cons_of_mem _ member)⟩,fun k member => ?_⟩
  have later := first k member
  omega

theorem Ahead.skip {i b bound : Nat} {idx : List Nat} (ahead : Ahead i bound (b :: idx)) (other : i ≠ b) : Ahead (i + 1) bound (b :: idx) := by
  refine ⟨ahead.toIndices,fun k member => ?_⟩
  have first := ahead.from_ b List.mem_cons_self
  cases List.mem_cons.mp member with
  | inl isFirst => omega
  | inr later =>
    have above := (List.pairwise_cons.mp ahead.ascending).1 k later
    omega

/-- What a mode keeps of the snapshots. -/
def kept : Mode → List QuerySnapshot → List QuerySnapshot
  | .perf, _ => []
  | .audit, uts => uts

/-- A run goes through, and in audit mode it records the answers at the indices. -/
theorem Serves.records (mode : Mode) {workload : List WorkloadMsg} (serves : lib.Serves e (workload.map WorkloadMsg.prepare) vs)
    (later : List WorkloadMsg) :
    ∀ (before : List WorkloadMsg) (idx : List Nat) (e' : E) (snaps : List QuerySnapshot), workload = before ++ later →
      Ahead before.length workload.length idx → lib.After e vs before e' → ∃ e'', lib.After e vs workload e'' ∧
        lib.perform mode workload ⟨e',snaps⟩ (dispatchLoop idx before.length (later.map WorkloadMsg.prepare)) =
          some ⟨e'',snaps ++ kept mode (snapshots vs workload idx)⟩ := by
  induction later with
  | nil =>
    rintro before idx e' snaps rfl ahead after
    rw [List.append_nil] at ahead ⊢
    cases idx with
    | nil => exact ⟨e',after,by cases mode <;> simp [dispatchLoop,perform,snapshots,kept]⟩
    | cons b idx =>
      have above := ahead.from_ b List.mem_cons_self
      have below := ahead.below b List.mem_cons_self
      omega
  | cons m later ih =>
    rintro before idx e' snaps rfl ahead after
    obtain ⟨e₁,fed,after₁⟩ := serves.next after
    have fed' : lib.dispatch e' m.prepare = some e₁ := fed
    have length : (before ++ [m]).length = before.length + 1 := List.length_append
    have split : before ++ m :: later = (before ++ [m]) ++ later := by simp
    cases idx with
    | nil =>
      obtain ⟨e₂,after₂,ran⟩ := ih (before ++ [m]) [] e₁ snaps split ⟨⟨.nil,by simp⟩,by simp⟩ after₁
      refine ⟨e₂,after₂,?_⟩
      rw [length] at ran
      rw [List.map_cons,dispatchLoop,perform_cons,call,fed']
      exact ran
    | cons b idx =>
      rw [List.map_cons,dispatchLoop,perform_cons,call,fed']
      split_ifs with here
      · subst here
        obtain ⟨e₂,after₂,ran⟩ := ih (before ++ [m]) idx e₁
          (snaps ++ kept mode [(vs ((before ++ [m]).map WorkloadMsg.prepare)).snapshot before.length m]) split
          (by rw [length]; exact ahead.tail rfl) after₁
        refine ⟨e₂,after₂,?_⟩
        have isHere : (before ++ m :: later)[before.length]? = some m := by simp
        have probed : lib.probe mode (before ++ m :: later) ⟨e₁,snaps⟩ before.length =
            some ⟨e₁,snaps ++ kept mode [(vs ((before ++ [m]).map WorkloadMsg.prepare)).snapshot before.length m]⟩ := by
          rw [EngineLib.probe,isHere]
          cases mode <;> simp [after₁.gives.bestBid,after₁.gives.bestAsk,after₁.gives.depthAt,Replies.snapshot,kept]
        rw [length,List.append_assoc] at ran
        rw [Option.map_some,Option.bind_some,perform_cons,call,probed,snapshots_cons]
        refine ran.trans ?_
        cases mode <;> rfl
      · obtain ⟨e₂,after₂,ran⟩ := ih (before ++ [m]) (b :: idx) e₁ snaps split (by rw [length]; exact ahead.skip here) after₁
        rw [length] at ran
        exact ⟨e₂,after₂,ran⟩

/-- The replay counts three checks for a snapshot, and the answers that differ. -/
theorem Serves.audits {workload : List WorkloadMsg} (serves : lib.Serves e (workload.map WorkloadMsg.prepare) vs) (later : List WorkloadMsg) :
    ∀ (before : List WorkloadMsg) (uts : List QuerySnapshot) (e' : E) (r : AuditReport), workload = before ++ later →
      Ahead before.length workload.length (uts.map QuerySnapshot.index) → lib.After e vs before e' → ∃ e'', lib.flush e'' = some e'' ∧
        lib.auditLoop before.length later uts e' r = some (e'',{ r with
          checks := r.checks + 3 * uts.length
          mismatches := r.mismatches +
            (uts.map fun ut => (vs ((workload.take (ut.index + 1)).map WorkloadMsg.prepare)).differences ut).sum }) := by
  induction later with
  | nil =>
    rintro before uts e' r rfl ahead after
    cases uts with
    | nil => exact ⟨e',after.gives.flush,by simp [auditLoop]⟩
    | cons ut uts =>
      have above := ahead.from_ ut.index List.mem_cons_self
      have below := ahead.below ut.index List.mem_cons_self
      rw [List.append_nil] at below
      omega
  | cons m later ih =>
    rintro before uts e' r rfl ahead after
    cases uts with
    | nil => exact ⟨e',after.gives.flush,by simp [auditLoop]⟩
    | cons ut uts =>
      obtain ⟨e₁,fed,after₁⟩ := serves.next after
      have length : (before ++ [m]).length = before.length + 1 := List.length_append
      have split : before ++ m :: later = (before ++ [m]) ++ later := by simp
      rw [auditLoop,fed]
      by_cases here : ut.index = before.length
      · have ahead' := ahead.tail here.symm
        have front : (before ++ m :: later).take (ut.index + 1) = before ++ [m] := by
          rw [here]
          simp [List.take_append]
        obtain ⟨e₂,flushed,ran⟩ := ih (before ++ [m]) uts e₁ { r with
            checks := r.checks + 3
            mismatches := r.mismatches + (vs ((before ++ [m]).map WorkloadMsg.prepare)).differences ut } split
          (by rw [length]; exact ahead') after₁
        refine ⟨e₂,flushed,?_⟩
        rw [length] at ran
        have counted : ∀ v : Replies, (let r := { r with checks := r.checks + 3 }
            let r := if v.bestBid ≠ ut.bestBid then { r with mismatches := r.mismatches + 1 } else r
            let r := if v.bestAsk ≠ ut.bestAsk then { r with mismatches := r.mismatches + 1 } else r
            if v.depthAt ut.probePrice.toInt ut.probeSide ≠ ut.depth then { r with mismatches := r.mismatches + 1 } else r) =
            { r with checks := r.checks + 3, mismatches := r.mismatches + v.differences ut } := by
          intro v
          unfold Replies.differences
          split_ifs <;> simp [add_assoc]
        simp only [here,ne_eq,not_true_eq_false,if_false,after₁.gives.bestBid,after₁.gives.bestAsk,after₁.gives.depthAt,Option.bind_eq_bind,
          Option.bind_some]
        refine Eq.trans (congrArg (lib.auditLoop (before.length + 1) later uts e₁) (counted _)) (ran.trans ?_)
        rw [List.map_cons,List.sum_cons,front,List.length_cons]
        simp only [Option.some.injEq,Prod.mk.injEq,AuditReport.mk.injEq,true_and,and_true]
        exact ⟨by push_cast; ring,by ring⟩
      · obtain ⟨e₂,flushed,ran⟩ := ih (before ++ [m]) (ut :: uts) e₁ r split (by rw [length]; exact ahead.skip (Ne.symm here)) after₁
        rw [length] at ran
        refine ⟨e₂,flushed,?_⟩
        simp only [here,ne_eq,not_false_eq_true,if_true,Option.bind_eq_bind,Option.bind_some]
        exact ran

/-! ## The verdict -/

theorem differences_nonneg (v : Replies) (ut : QuerySnapshot) : 0 ≤ v.differences ut := by
  unfold Replies.differences
  split_ifs <;> decide

theorem differences_le (v : Replies) (ut : QuerySnapshot) : v.differences ut ≤ 3 := by
  unfold Replies.differences
  split_ifs <;> decide

theorem differences_sum (vs : List Message → Replies) (workload : List WorkloadMsg) (uts : List QuerySnapshot) :
    0 ≤ (uts.map fun ut => (vs ((workload.take (ut.index + 1)).map WorkloadMsg.prepare)).differences ut).sum ∧
      (uts.map fun ut => (vs ((workload.take (ut.index + 1)).map WorkloadMsg.prepare)).differences ut).sum ≤ 3 * uts.length := by
  induction uts with
  | nil => simp
  | cons ut uts ih =>
    have nonneg := differences_nonneg (vs ((workload.take (ut.index + 1)).map WorkloadMsg.prepare)) ut
    have most := differences_le (vs ((workload.take (ut.index + 1)).map WorkloadMsg.prepare)) ut
    rw [List.map_cons,List.sum_cons,List.length_cons]
    omega

/-- No answer differs from those of a snapshot. -/
theorem differences_snapshot (v u : Replies) (i : Nat) (m : WorkloadMsg) :
    u.differences (v.snapshot i m) = 0 ↔ u.snapshot i m = v.snapshot i m := by
  unfold Replies.differences Replies.snapshot
  simp only [QuerySnapshot.mk.injEq,true_and]
  split_ifs <;> simp_all

theorem snapshots_index (vs : List Message → Replies) {workload : List WorkloadMsg} {idx : List Nat} (below : ∀ i ∈ idx, i < workload.length) :
    (snapshots vs workload idx).map QuerySnapshot.index = idx := by
  induction idx with
  | nil => rfl
  | cons i idx ih =>
    obtain ⟨first,rest⟩ := List.forall_mem_cons.mp below
    rw [snapshots,List.filterMap_cons,List.getElem?_eq_getElem first]
    exact congrArg (i :: ·) (ih rest)

theorem mem_snapshots {workload : List WorkloadMsg} {idx : List Nat} {ut : QuerySnapshot} : ut ∈ snapshots vs workload idx ↔
    ∃ i ∈ idx, ∃ m, workload[i]? = some m ∧ (vs ((workload.take (i + 1)).map WorkloadMsg.prepare)).snapshot i m = ut := by
  simp only [snapshots,List.mem_filterMap,Option.map_eq_some_iff]

/-- The report on snapshots at ascending indices. -/
theorem Serves.report {workload : List WorkloadMsg}
    (serves : lib.Serves (lib.prebuilt e (workload.map WorkloadMsg.prepare)) (workload.map WorkloadMsg.prepare) vs)
    (uts : List QuerySnapshot) (indices : Indices workload.length (uts.map QuerySnapshot.index)) :
    ∃ report, lib.runStateAudit e workload uts = some report ∧ report.ran = true ∧ report.checks = 3 * uts.length ∧
      (0 ≤ report.mismatches ∧ report.mismatches ≤ report.checks) ∧ (report.passed = true ↔ uts ≠ [] ∧
        ∀ ut ∈ uts, (vs ((workload.take (ut.index + 1)).map WorkloadMsg.prepare)).differences ut = 0) := by
  obtain ⟨e',flushed,audited⟩ := serves.audits workload [] uts _ ⟨true,false,0,0,""⟩ rfl ⟨indices,fun _ _ => Nat.zero_le _⟩ serves.start
  unfold runStateAudit
  split_ifs with none
  · obtain rfl := List.isEmpty_iff.mp none
    exact ⟨_,rfl,rfl,rfl,⟨le_refl _,le_refl _⟩,by simp⟩
  · rw [List.isEmpty_iff] at none
    rw [List.length_nil] at audited
    simp only [audited,flushed,Option.bind_eq_bind,Option.bind_some]
    refine ⟨_,rfl,rfl,by simp,by simpa using differences_sum vs workload uts,?_⟩
    have counted : (3 : Int) * uts.length > 0 := by
      have positive := List.length_pos_iff.mpr none
      omega
    simp only [zero_add,counted,true_and,none,ne_eq,not_false_eq_true,decide_eq_true_eq]
    constructor
    · intro zero ut member
      refine List.all_zero_of_le_zero_le_of_sum_eq_zero ?_ zero (List.mem_map_of_mem member)
      intro d isDifference
      obtain ⟨ut',_,rfl⟩ := List.mem_map.mp isDifference
      exact differences_nonneg _ ut'
    · intro same
      rw [List.map_congr_left same]
      simp

/-- The calls of a run. -/
theorem Serves.performed (mode : Mode) {workload : List WorkloadMsg} (serves : lib.Serves e (workload.map WorkloadMsg.prepare) vs)
    (batches : lib.Batches) (few : workload.length < 4294967296) {draws : List UInt64} {n : Int} {auditIdx : List Nat}
    (picked : auditPickIndices draws workload.length n = some auditIdx) : ∃ e', lib.After e vs workload e' ∧
      lib.perform mode workload ⟨e,[]⟩ (lib.calls (workload.map WorkloadMsg.prepare) auditIdx) =
        some ⟨e',kept mode (snapshots vs workload auditIdx)⟩ := by
  have indices := (auditPickIndices_spec picked).1
  obtain ⟨e',after,recorded⟩ := serves.records mode workload [] auditIdx _ [] rfl ⟨indices,fun _ _ => Nat.zero_le _⟩ serves.start
  have recorded' : lib.perform mode workload ⟨e,[]⟩ (dispatchLoop auditIdx 0 (workload.map WorkloadMsg.prepare)) =
      some ⟨e',kept mode (snapshots vs workload auditIdx)⟩ := recorded
  refine ⟨e',after,?_⟩
  rw [batched_delivery batches few picked,perform_append,recorded',Option.bind_some,perform_cons,call,after.gives.flush]
  rfl

/-- The audit of a run in audit mode. It makes three checks at each pick, and it passes if and only if there is a pick and after every
    message that is picked both engines answer alike. Its counters stay within an `int` for up to 715827882 points; the harness takes 64. -/
theorem audit_exact {F : Type} {base : EngineLib F} {f : F} {workload : List WorkloadMsg} (batches : lib.Batches)
    (serves : lib.Serves (lib.prebuilt e (workload.map WorkloadMsg.prepare)) (workload.map WorkloadMsg.prepare) vs)
    (baseline : base.Serves (base.prebuilt f (workload.map WorkloadMsg.prepare)) (workload.map WorkloadMsg.prepare) us)
    (few : workload.length < 4294967296) {draws : List UInt64} {n : Int} {auditIdx : List Nat}
    (picked : auditPickIndices draws workload.length n = some auditIdx) : ∃ r report,
      lib.perform .audit workload ⟨lib.prebuilt e (workload.map WorkloadMsg.prepare),[]⟩
        (lib.calls (workload.map WorkloadMsg.prepare) auditIdx) = some r ∧ base.runStateAudit f workload r.snaps = some report ∧
      report.ran = true ∧ report.checks = 3 * auditIdx.length ∧
      (0 ≤ report.mismatches ∧ report.mismatches ≤ report.checks ∧ (n ≤ 715827882 → report.checks < 2147483648)) ∧
      (report.passed = true ↔ auditIdx ≠ [] ∧ ∀ i ∈ auditIdx, ∀ m, workload[i]? = some m →
        (us ((workload.take (i + 1)).map WorkloadMsg.prepare)).snapshot i m =
          (vs ((workload.take (i + 1)).map WorkloadMsg.prepare)).snapshot i m) := by
  obtain ⟨indices,many⟩ := auditPickIndices_spec picked
  obtain ⟨e',_,ran⟩ := serves.performed .audit batches few picked
  have index := snapshots_index vs indices.below
  have length : (snapshots vs workload auditIdx).length = auditIdx.length := by
    rw [← List.length_map QuerySnapshot.index,index]
  obtain ⟨report,isReport,isRan,checks,⟨nonneg,most⟩,passed⟩ := baseline.report (snapshots vs workload auditIdx) (by rw [index]; exact indices)
  refine ⟨_,report,ran,isReport,isRan,by rw [checks,length],⟨nonneg,most,fun points => by rw [checks,length]; omega⟩,
    passed.trans (and_congr ?_ ?_)⟩
  · rw [← List.length_pos_iff,length,List.length_pos_iff]
  · constructor
    · intro same i member m isMsg
      exact (differences_snapshot _ _ i m).mp (same _ (mem_snapshots.mpr ⟨i,member,m,isMsg,rfl⟩))
    · intro same ut member
      obtain ⟨i,isPick,m,isMsg,rfl⟩ := mem_snapshots.mp member
      exact (differences_snapshot _ _ i m).mpr (same i isPick m isMsg)

end EngineLib

end BaboEngine
