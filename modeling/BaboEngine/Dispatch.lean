import BaboEngine.EngineApi
import BaboEngine.Workload
import Mathlib.Data.Finset.Card
import Mathlib.Data.Finset.Dedup

/-!
# How the harness drives an engine

The calls of `main` in `harness.cpp`: the workload is delivered message by message or in
batches, with a probe of the book after each index that `audit_pick_indices` has picked. An
engine that keeps the contract of `engine_on_batch` does the same either way
(`batched_delivery`).
-/

namespace BaboEngine
open Workload (WorkloadMsg)

/-- `EngineLib`, with the reports that the engine has pushed. A call that crashes is `none`. -/
structure EngineLib (E : Type) where
  onNewOrder : E → NewOrder → Option E
  onCancel : E → CancelOrder → Option E
  onModify : E → ModifyOrder → Option E
  flush : E → Option E
  queryBestBid : E → Option Int
  queryBestAsk : E → Option Int
  queryDepthAt : E → Int → UInt8 → Option Nat
  prebuild : Option (E → Message → E)
  onBatch : Option (E → List Message → Option E)
  reports : E → List Report

/-- The message that is built before the clock starts; `load_workload` has let no other types through. -/
def Workload.WorkloadMsg.prepare (m : WorkloadMsg) : Message :=
  if m.type = 0 then .newOrder ⟨m.orderId,m.seq,m.priceTicks,m.qty,m.side,m.ioc⟩
  else if m.type = 1 then .cancel ⟨m.orderId,m.seq⟩
  else .modify ⟨m.orderId,m.seq,m.priceTicks,m.qty,m.side⟩

inductive Mode where
  | perf
  | audit
deriving DecidableEq

structure QuerySnapshot where
  index : Nat
  bestBid : Int
  bestAsk : Int
  probePrice : Int64
  probeSide : UInt8
  depth : Nat
deriving DecidableEq

/-! ## The picks -/

/-- `std::set::insert`, on the elements in their order. -/
def setInsert (x : Nat) : List Nat → List Nat
  | [] => [x]
  | y :: ys => if x < y then x :: y :: ys else if x = y then y :: ys else y :: setInsert x ys

theorem mem_setInsert {x z : Nat} {ys : List Nat} : z ∈ setInsert x ys ↔ z = x ∨ z ∈ ys := by
  induction ys with
  | nil => simp [setInsert]
  | cons y ys ih =>
    unfold setInsert
    split_ifs with less same
    · simp
    · simp [same]
    · rw [List.mem_cons,ih,List.mem_cons]
      tauto

theorem setInsert_ascending {x : Nat} {ys : List Nat} (ascending : ys.Pairwise (· < ·)) : (setInsert x ys).Pairwise (· < ·) := by
  induction ys with
  | nil => simp [setInsert]
  | cons y ys ih =>
    obtain ⟨first,rest⟩ := List.pairwise_cons.mp ascending
    unfold setInsert
    split_ifs with less same
    · refine List.pairwise_cons.mpr ⟨fun z member => ?_,ascending⟩
      cases List.mem_cons.mp member with
      | inl isFirst => rwa [isFirst]
      | inr later => exact less.trans (first z later)
    · exact ascending
    · refine List.pairwise_cons.mpr ⟨fun z member => ?_,ih rest⟩
      cases mem_setInsert.mp member with
      | inl isNew => omega
      | inr later => exact first z later

theorem length_setInsert (x : Nat) (ys : List Nat) : (setInsert x ys).length ≤ ys.length + 1 := by
  induction ys with
  | nil => exact le_refl 1
  | cons y ys ih =>
    unfold setInsert
    split_ifs
    · exact le_refl _
    · exact Nat.le_succ _
    · exact Nat.succ_le_succ ih

/-- The loop of `audit_pick_indices`, as far as the draws last. -/
def pickLoop (count want : Nat) : List Nat → List UInt64 → Option (List Nat)
  | picked, [] => if picked.length < want then none else some picked
  | picked, d :: ds => if picked.length < want then pickLoop count want (setInsert (d.toNat % count) picked) ds else some picked

def auditPickIndices (draws : List UInt64) (count : Nat) (n : Int) : Option (List Nat) :=
  if count = 0 ∨ n ≤ 0 then some [] else pickLoop count (min n.toNat count) [] draws

/-- The residues that are drawn. -/
def residues (count : Nat) (draws : List UInt64) : Finset Nat := (draws.map fun d => d.toNat % count).toFinset

theorem residues_cons (count : Nat) (d : UInt64) (ds : List UInt64) :
    residues count (d :: ds) = insert (d.toNat % count) (residues count ds) := by simp [residues]

/-- The picks are residues, in order and as many as are wanted, and they are found if there are enough residues. -/
theorem pickLoop_spec {count want : Nat} (ds : List UInt64) : ∀ picked : List Nat, picked.Pairwise (· < ·) → picked.length ≤ want →
    (∀ out, pickLoop count want picked ds = some out → out.Pairwise (· < ·) ∧ out.length = want ∧
      out.toFinset ⊆ picked.toFinset ∪ residues count ds) ∧
    (want ≤ (picked.toFinset ∪ residues count ds).card → ∃ out, pickLoop count want picked ds = some out) := by
  induction ds with
  | nil =>
    intro picked ascending few
    have none : residues count [] = ∅ := rfl
    rw [pickLoop,none,Finset.union_empty]
    split_ifs with short
    · refine ⟨fun out isOut => by simp at isOut,fun enough => ?_⟩
      have card := List.toFinset_card_le picked
      omega
    · refine ⟨?_,fun _ => ⟨picked,rfl⟩⟩
      rintro out ⟨⟩
      exact ⟨ascending,by omega,subset_refl _⟩
  | cons d ds ih =>
    intro picked ascending few
    have drawn : (setInsert (d.toNat % count) picked).toFinset = insert (d.toNat % count) picked.toFinset := by
      ext z
      simp [mem_setInsert]
    rw [pickLoop,residues_cons,Finset.union_insert,← Finset.insert_union,← drawn]
    split_ifs with short
    · exact ih _ (setInsert_ascending ascending) ((length_setInsert _ _).trans short)
    · refine ⟨?_,fun _ => ⟨picked,rfl⟩⟩
      rintro out ⟨⟩
      refine ⟨ascending,by omega,?_⟩
      rw [drawn]
      exact (Finset.subset_insert _ _).trans Finset.subset_union_left

/-- Indices in ascending order, below a bound. -/
structure Indices (bound : Nat) (idx : List Nat) : Prop where
  ascending : idx.Pairwise (· < ·)
  below : ∀ i ∈ idx, i < bound

theorem auditPickIndices_spec {draws : List UInt64} {count : Nat} {n : Int} {idx : List Nat}
    (picked : auditPickIndices draws count n = some idx) : Indices count idx ∧ idx.length = min n.toNat count := by
  unfold auditPickIndices at picked
  split_ifs at picked with none
  · obtain rfl := Option.some.inj picked
    exact ⟨⟨.nil,by simp⟩,by rw [List.length_nil]; omega⟩
  · obtain ⟨ascending,length,drawn⟩ := (pickLoop_spec draws [] .nil (Nat.zero_le _)).1 idx picked
    refine ⟨⟨ascending,?_⟩,length⟩
    intro i member
    have inDraws := drawn (List.mem_toFinset.mpr member)
    rw [List.toFinset_nil,Finset.empty_union,residues,List.mem_toFinset,List.mem_map] at inDraws
    obtain ⟨d,_,rfl⟩ := inDraws
    exact Nat.mod_lt _ (by omega)

theorem auditPickIndices_found {draws : List UInt64} {count : Nat} {n : Int} (enough : min n.toNat count ≤ (residues count draws).card) :
    ∃ idx, auditPickIndices draws count n = some idx := by
  unfold auditPickIndices
  split_ifs with none
  · exact ⟨[],rfl⟩
  · apply (pickLoop_spec draws [] .nil (Nat.zero_le _)).2
    rwa [List.toFinset_nil,Finset.empty_union]

/-- The loop ends if and only if enough different residues are drawn; the picks are as many as are wanted, in ascending order, each of
    them a residue. -/
theorem auditPickIndices_exact (draws : List UInt64) (count : Nat) (n : Int) :
    ((∃ idx, auditPickIndices draws count n = some idx) ↔ min n.toNat count ≤ (residues count draws).card) ∧
    ∀ idx, auditPickIndices draws count n = some idx → Indices count idx ∧ idx.length = min n.toNat count ∧ idx.toFinset ⊆ residues count draws := by
  have drawn : ∀ idx, auditPickIndices draws count n = some idx → idx.toFinset ⊆ residues count draws := by
    intro idx picked
    unfold auditPickIndices at picked
    split_ifs at picked with none
    · obtain rfl := Option.some.inj picked
      exact Finset.empty_subset _
    · have inDraws := ((pickLoop_spec draws [] .nil (Nat.zero_le _)).1 idx picked).2.2
      rwa [List.toFinset_nil,Finset.empty_union] at inDraws
  constructor
  · refine ⟨?_,auditPickIndices_found⟩
    rintro ⟨idx,picked⟩
    obtain ⟨indices,length⟩ := auditPickIndices_spec picked
    rw [← length,← List.toFinset_card_of_nodup (indices.ascending.imp fun less => Nat.ne_of_lt less)]
    exact Finset.card_le_card (drawn idx picked)
  · intro idx picked
    obtain ⟨indices,length⟩ := auditPickIndices_spec picked
    exact ⟨indices,length,drawn idx picked⟩

/-! ## The calls -/

inductive Call where
  | onMessage (m : Message)
  | onBatch (ms : List Message)
  | probe (i : Nat)
  | flush

/-- The loop over the messages from `i` on, with the indices from `audit_cur` on. -/
def dispatchLoop : List Nat → Nat → List Message → List Call
  | _, _, [] => []
  | [], i, m :: ms => .onMessage m :: dispatchLoop [] (i + 1) ms
  | b :: idx, i, m :: ms => .onMessage m :: if i = b then .probe i :: dispatchLoop idx (i + 1) ms else dispatchLoop (b :: idx) (i + 1) ms

/-- The loop over the indices, with the tail after the last probe. -/
def batchLoop (prepared : List Message) : Nat → List Nat → List Call
  | start, [] => if start < prepared.length then [.onBatch ((prepared.drop start).take (toU32 (prepared.length - start : Nat)))] else []
  | start, b :: idx => .onBatch ((prepared.drop start).take (toU32 (b - start + 1 : Nat))) :: .probe b :: batchLoop prepared (b + 1) idx

/-- An engine and the answers that have been recorded. -/
structure Run (E : Type) where
  engine : E
  snaps : List QuerySnapshot

namespace EngineLib
variable {E : Type}

/-- The calls of a run, up to the barrier. -/
def calls (lib : EngineLib E) (prepared : List Message) (auditIdx : List Nat) : List Call :=
  (match lib.onBatch with
  | some _ => batchLoop prepared 0 auditIdx
  | none => dispatchLoop auditIdx 0 prepared) ++ [.flush]

def dispatch (lib : EngineLib E) (e : E) : Message → Option E
  | .newOrder o => lib.onNewOrder e o
  | .cancel c => lib.onCancel e c
  | .modify m => lib.onModify e m

def probe (lib : EngineLib E) (mode : Mode) (workload : List WorkloadMsg) (r : Run E) (i : Nat) : Option (Run E) := do
  let m ← workload[i]?
  let bid ← lib.queryBestBid r.engine
  let ask ← lib.queryBestAsk r.engine
  let dep ← lib.queryDepthAt r.engine m.priceTicks.toInt m.side
  match mode with
  | .perf => some r
  | .audit => some { r with snaps := r.snaps ++ [⟨i,bid,ask,m.priceTicks,m.side,dep⟩] }

def call (lib : EngineLib E) (mode : Mode) (workload : List WorkloadMsg) (r : Run E) : Call → Option (Run E)
  | .onMessage m => (lib.dispatch r.engine m).map fun e => { r with engine := e }
  | .onBatch ms => do
    let onBatch ← lib.onBatch
    (onBatch r.engine ms).map fun e => { r with engine := e }
  | .probe i => lib.probe mode workload r i
  | .flush => (lib.flush r.engine).map fun e => { r with engine := e }

def perform (lib : EngineLib E) (mode : Mode) (workload : List WorkloadMsg) (r : Run E) (cs : List Call) : Option (Run E) :=
  cs.foldlM (lib.call mode workload) r

/-- The engine after the pass that precedes the clock. -/
def prebuilt (lib : EngineLib E) (e : E) (prepared : List Message) : E :=
  match lib.prebuild with
  | some prebuild => prepared.foldl prebuild e
  | none => e

/-- The contract of `engine_on_batch`: as if each message had been delivered alone. -/
def Batches (lib : EngineLib E) : Prop := ∀ onBatch, lib.onBatch = some onBatch → ∀ e ms, onBatch e ms = ms.foldlM lib.dispatch e

/-! ## Delivery in batches -/

variable {lib : EngineLib E} {mode : Mode} {workload : List WorkloadMsg}

theorem perform_cons (r : Run E) (c : Call) (cs : List Call) :
    lib.perform mode workload r (c :: cs) = (lib.call mode workload r c).bind fun r => lib.perform mode workload r cs := rfl

theorem perform_append (r : Run E) (cs cs' : List Call) :
    lib.perform mode workload r (cs ++ cs') = (lib.perform mode workload r cs).bind fun r => lib.perform mode workload r cs' := by
  rw [perform,List.foldlM_append]
  rfl

/-- Messages that are delivered one by one. -/
def deliver (lib : EngineLib E) (r : Run E) (ms : List Message) : Option (Run E) :=
  (ms.foldlM lib.dispatch r.engine).map fun e => { r with engine := e }

theorem deliver_cons (mode : Mode) (workload : List WorkloadMsg) (r : Run E) (m : Message) (ms : List Message) :
    lib.deliver r (m :: ms) = (lib.call mode workload r (.onMessage m)).bind fun r => lib.deliver r ms := by
  rw [deliver,List.foldlM_cons,call]
  cases lib.dispatch r.engine m <;> rfl

/-- Without a probe to come the loop only delivers. -/
theorem perform_tail (ms : List Message) : ∀ (i : Nat) (r : Run E),
    lib.perform mode workload r (dispatchLoop [] i ms) = lib.deliver r ms := by
  induction ms with
  | nil => exact fun _ _ => rfl
  | cons m ms ih =>
    intro i r
    rw [dispatchLoop,perform_cons,deliver_cons mode workload]
    exact Option.bind_congr fun r' _ => ih (i + 1) r'

/-- The loop up to its next probe. -/
theorem perform_segment {b : Nat} {idx : List Nat} (k : Nat) : ∀ {i : Nat} {ms : List Message} (r : Run E), i + k = b → k < ms.length →
    lib.perform mode workload r (dispatchLoop (b :: idx) i ms) = (lib.deliver r (ms.take (k + 1))).bind fun r =>
      (lib.probe mode workload r b).bind fun r => lib.perform mode workload r (dispatchLoop idx (b + 1) (ms.drop (k + 1))) := by
  induction k with
  | zero =>
    rintro i (_ | ⟨m,ms⟩) r rfl long
    · simp at long
    · rw [dispatchLoop,if_pos (Nat.add_zero i).symm,perform_cons,List.take_succ_cons,List.take_zero,deliver_cons mode workload,
        Option.bind_assoc]
      rfl
  | succ k ih =>
    rintro i (_ | ⟨m,ms⟩) r here long
    · simp at long
    · rw [dispatchLoop,if_neg (by omega),perform_cons,List.take_succ_cons,deliver_cons mode workload,
        Option.bind_assoc]
      exact Option.bind_congr fun r' _ => ih r' (by omega) (by simpa using long)

theorem Batches.call (batches : lib.Batches) {onBatch : E → List Message → Option E} (exported : lib.onBatch = some onBatch) (r : Run E)
    (ms : List Message) : lib.call mode workload r (.onBatch ms) = lib.deliver r ms := by
  simp [EngineLib.call,exported,batches onBatch exported,deliver]

theorem Batches.loop (batches : lib.Batches) {onBatch : E → List Message → Option E} (exported : lib.onBatch = some onBatch)
    {prepared : List Message} (few : prepared.length < 4294967296) (idx : List Nat) : ∀ (start : Nat) (r : Run E),
    Indices prepared.length idx → (∀ b ∈ idx, start ≤ b) →
      lib.perform mode workload r (batchLoop prepared start idx) = lib.perform mode workload r (dispatchLoop idx start (prepared.drop start)) := by
  have exact : ∀ n : Nat, n ≤ prepared.length → toU32 n = n := by
    intro n small
    unfold toU32
    omega
  induction idx with
  | nil =>
    intro start r _ _
    rw [batchLoop,perform_tail,exact _ (Nat.sub_le _ _)]
    split_ifs with more
    · rw [perform_cons,batches.call exported,List.take_of_length_le (by rw [List.length_drop])]
      exact Option.bind_fun_some _
    · rw [List.drop_of_length_le (by omega)]
      rfl
  | cons b idx ih =>
    intro start r indices above
    obtain ⟨first,rest⟩ := List.pairwise_cons.mp indices.ascending
    have small := indices.below b List.mem_cons_self
    have reached := above b List.mem_cons_self
    rw [batchLoop,exact _ (by omega),perform_cons,batches.call exported,
      perform_segment (b - start) r (by omega) (by rw [List.length_drop]; omega)]
    refine Option.bind_congr fun r' _ => ?_
    rw [perform_cons]
    refine Option.bind_congr fun r'' _ => ?_
    rw [ih (b + 1) r'' ⟨rest,fun i member => indices.below i (List.mem_cons_of_mem _ member)⟩ first,List.drop_drop]
    congr 3
    omega

/-- Whatever is drawn, the calls of a run have the effect and record the answers of a delivery message by message. -/
theorem batched_delivery (batches : lib.Batches) (few : workload.length < 4294967296) {draws : List UInt64} {n : Int}
    {auditIdx : List Nat} (picked : auditPickIndices draws workload.length n = some auditIdx) (r : Run E) :
    lib.perform mode workload r (lib.calls (workload.map WorkloadMsg.prepare) auditIdx) =
      lib.perform mode workload r (dispatchLoop auditIdx 0 (workload.map WorkloadMsg.prepare) ++ [.flush]) := by
  have length : (workload.map WorkloadMsg.prepare).length = workload.length := List.length_map _
  unfold calls
  split
  next onBatch exported =>
    have indices := (auditPickIndices_spec picked).1
    rw [← length] at few indices
    rw [perform_append,perform_append,batches.loop exported few auditIdx 0 r indices fun _ _ => Nat.zero_le _]
    rfl
  next => rfl

end EngineLib

end BaboEngine
