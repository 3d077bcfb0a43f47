import BaboEngine.FairSchedules
import Mathlib.Data.Nat.Basic

/-!
# Handing items over

A producer pushes its items into a bounded queue and tries again while the queue is full; a
consumer takes them out in batches while a flag is up, and when it is down until a batch
comes out empty. The queue is a parameter, of which only its contract is known (`Bounded`).
Under every schedule nothing is lost, doubled or reordered (`Holds.run`, `Holds.finished`),
and under every fair one the consumer finishes (`finishes`).
-/

namespace BaboEngine.Handoff
open FairSchedules

variable {S α D Q : Type}

/-! ## Queues -/

/-- The operations of a queue between two threads. A push may be refused, and then leaves the queue as it is. -/
structure Queue (α Q : Type) where
  create : Nat → Q
  tryPush : Q → α → Option Q
  front : Q → Option α
  pop : Q → Q

/-- The contract of a queue of some capacity: in its sound states it has items, first in first out, it refuses a push when
    it is full and only then, and it is popped only when it has an item. -/
structure Queue.Bounded (queue : Queue α Q) (capacity : Nat) (sound : Q → Prop) (items : Q → List α) : Prop where
  created : sound (queue.create capacity) ∧ items (queue.create capacity) = []
  pushed : ∀ s x, sound s → (items s).length < capacity → ∃ s', queue.tryPush s x = some s' ∧ sound s' ∧ items s' = items s ++ [x]
  refused : ∀ s x, sound s → capacity ≤ (items s).length → queue.tryPush s x = none
  front : ∀ s, sound s → queue.front s = (items s).head?
  popped : ∀ s x rest, sound s → items s = x :: rest → sound (queue.pop s) ∧ items (queue.pop s) = rest

namespace Queue.Bounded
variable {queue : Queue α Q} {capacity : Nat} {sound : Q → Prop} {items : Q → List α} {s s' : Q} {x : α}

/-- A push that succeeds has had room. -/
theorem accepted (bounded : queue.Bounded capacity sound items) (isSound : sound s) (accepted : queue.tryPush s x = some s') :
    (items s).length < capacity ∧ sound s' ∧ items s' = items s ++ [x] := by
  have room : (items s).length < capacity := by
    by_contra full
    rw [bounded.refused s x isSound (Nat.not_lt.mp full)] at accepted
    cases accepted
  obtain ⟨s₁,isNext,sound',items'⟩ := bounded.pushed s x isSound room
  obtain rfl := Option.some.inj (accepted.symm.trans isNext)
  exact ⟨room,sound',items'⟩

theorem front_none (bounded : queue.Bounded capacity sound items) (isSound : sound s) : queue.front s = none ↔ items s = [] := by
  rw [bounded.front s isSound,List.head?_eq_none_iff]

theorem front_some (bounded : queue.Bounded capacity sound items) (isSound : sound s) :
    queue.front s = some x ↔ ∃ rest, items s = x :: rest := by
  rw [bounded.front s isSound,List.head?_eq_some_iff]

end Queue.Bounded

/-- A list with its capacity. -/
def Queue.list (α : Type) : Queue α (Nat × List α) where
  create capacity := (capacity,[])
  tryPush s x := if s.2.length < s.1 then some (s.1,s.2 ++ [x]) else none
  front s := s.2.head?
  pop s := (s.1,s.2.tail)

theorem list_bounded (capacity : Nat) : (Queue.list α).Bounded capacity (fun s => s.1 = capacity) Prod.snd where
  created := ⟨rfl,rfl⟩
  pushed s x sound room := ⟨_,if_pos (sound ▸ room),sound,rfl⟩
  refused s x sound full := if_neg (by omega)
  front _ _ := rfl
  popped s x rest sound isItems := ⟨sound,congrArg List.tail isItems⟩

/-! ## The two threads -/

/-- What a producer does next. -/
inductive Move (S α : Type) where
  | compute (q : S)
  | push (x : α) (q : S)
  | halt

/-- Where the consumer is: about to read the flag, or taking out a batch, the last ones after the flag was down. -/
inductive Consumer (α : Type) where
  | asking
  | draining (last : Bool) (batch : List α)
  | done

namespace Consumer

def batch : Consumer α → List α
  | draining _ batch => batch
  | _ => []

def isLast : Consumer α → Bool
  | asking => false
  | draining last _ => last
  | done => true

end Consumer

structure State (S α D Q : Type) where
  producer : S
  queue : Q
  running : Bool
  consumer : Consumer α
  sink : D

inductive Thread where
  | producer
  | consumer
deriving DecidableEq

/-- The program of the producer, what the consumer does with an item, the queue, and the sizes of the queue and of a batch. -/
structure Protocol (S α D Q : Type) where
  move : S → Move S α
  absorb : D → α → D
  queue : Queue α Q
  capacity : Nat
  most : Nat
  room : 0 < capacity
  some : 0 < most

namespace Protocol

/-- A push that finds the queue full is tried again. The flag goes down when there is no more to push. -/
def produce (p : Protocol S α D Q) (s : State S α D Q) : State S α D Q :=
  match p.move s.producer with
  | .compute q => { s with producer := q }
  | .push x q =>
    match p.queue.tryPush s.queue x with
    | .some queue => { s with producer := q, queue := queue }
    | none => s
  | .halt => { s with running := false }

/-- The batch is complete. An empty one ends the consumer if the flag was down before. -/
def deliver (p : Protocol S α D Q) (s : State S α D Q) (last : Bool) (batch : List α) : State S α D Q := { s with
  sink := batch.foldl p.absorb s.sink
  consumer := if last then (if batch.isEmpty then .done else .draining true []) else .asking }

/-- While the batch has room the front of the queue is taken. -/
def consume (p : Protocol S α D Q) (s : State S α D Q) : State S α D Q :=
  match s.consumer with
  | .asking => { s with consumer := .draining (!s.running) [] }
  | .draining last batch =>
    if batch.length < p.most then
      match p.queue.front s.queue with
      | none => p.deliver s last batch
      | .some x => { s with queue := p.queue.pop s.queue, consumer := .draining last (batch ++ [x]) }
    else p.deliver s last batch
  | .done => s

def act (p : Protocol S α D Q) : Thread → State S α D Q → State S α D Q
  | .producer, s => p.produce s
  | .consumer, s => p.consume s

end Protocol

def start (p : Protocol S α D Q) (q : S) (sink : D) : State S α D Q := ⟨q,p.queue.create p.capacity,true,.asking,sink⟩

/-- A producer that is left to itself pushes these items and halts. -/
inductive Emits (move : S → Move S α) : S → List α → Prop where
  | halt {q : S} : move q = .halt → Emits move q []
  | compute {q q' : S} {xs : List α} : move q = .compute q' → Emits move q' xs → Emits move q xs
  | push {q q' : S} {x : α} {xs : List α} : move q = .push x q' → Emits move q' xs → Emits move q (x :: xs)

section
variable {move : S → Move S α} {q q' : S} {x : α} {xs : List α}

theorem Emits.of_halt (emits : Emits move q xs) (isHalt : move q = .halt) : xs = [] := by
  cases emits with
  | halt _ => rfl
  | compute isMove _ => simp [isMove] at isHalt
  | push isMove _ => simp [isMove] at isHalt

theorem Emits.of_compute (emits : Emits move q xs) (isCompute : move q = .compute q') : Emits move q' xs := by
  cases emits with
  | halt isMove => simp [isMove] at isCompute
  | compute isMove rest =>
    obtain rfl : _ = q' := by simpa [isMove] using isCompute
    exact rest
  | push isMove _ => simp [isMove] at isCompute

theorem Emits.of_push (emits : Emits move q xs) (isPush : move q = .push x q') : ∃ rest, xs = x :: rest ∧ Emits move q' rest := by
  cases emits with
  | halt isMove => simp [isMove] at isPush
  | compute isMove _ => simp [isMove] at isPush
  | push isMove rest =>
    obtain ⟨rfl,rfl⟩ : _ = x ∧ _ = q' := by simpa [isMove] using isPush
    exact ⟨_,rfl,rest⟩

end

variable {p : Protocol S α D Q} {sound : Q → Prop} {items : Q → List α} {sink : D} {xs : List α} {s : State S α D Q} {q q' : S} {x : α}

/-- What holds at every moment: the items are in the sink, in the batch, in the queue or still to come, in this order. -/
structure Holds (p : Protocol S α D Q) (sound : Q → Prop) (items : Q → List α) (sink : D) (xs : List α) (s : State S α D Q) : Prop where
  account : ∃ taken rest, xs = taken ++ s.consumer.batch ++ items s.queue ++ rest ∧ s.sink = taken.foldl p.absorb sink ∧
    Emits p.move s.producer rest
  sound : sound s.queue
  queue : (items s.queue).length ≤ p.capacity
  batch : s.consumer.batch.length ≤ p.most
  stopped : s.running = false → p.move s.producer = .halt
  last : s.consumer.isLast = true → s.running = false
  empty : s.consumer = .done → items s.queue = []

namespace Holds

theorem start (bounded : p.queue.Bounded p.capacity sound items) (sink : D) (emits : Emits p.move q xs) :
    Holds p sound items sink xs (start p q sink) where
  account := by
    refine ⟨[],xs,?_,rfl,emits⟩
    simp [Handoff.start,Consumer.batch,bounded.created.2]
  sound := bounded.created.1
  queue := by simp [Handoff.start,bounded.created.2]
  batch := Nat.zero_le _
  stopped := fun down => by simp [Handoff.start] at down
  last := fun last => by simp [Handoff.start,Consumer.isLast] at last
  empty := fun isDone => by simp [Handoff.start] at isDone

/-- While the producer has something to do the flag is up, and the consumer in its loop. -/
theorem up (holds : Holds p sound items sink xs s) (busy : p.move s.producer ≠ .halt) :
    s.running = true ∧ s.consumer.isLast = false := by
  have running : s.running = true := by
    by_contra down
    exact busy (holds.stopped (by simpa using down))
  refine ⟨running,?_⟩
  by_contra last
  have down := holds.last (by simpa using last)
  simp [running] at down

theorem produce (bounded : p.queue.Bounded p.capacity sound items) (holds : Holds p sound items sink xs s) :
    Holds p sound items sink xs (p.produce s) := by
  obtain ⟨taken,rest,split,absorbed,emits⟩ := holds.account
  unfold Protocol.produce
  split
  next q isCompute =>
    have up := (holds.up (by simp [isCompute])).1
    exact ⟨⟨taken,rest,split,absorbed,emits.of_compute isCompute⟩,holds.sound,holds.queue,holds.batch,fun down => by simp [up] at down,
      holds.last,holds.empty⟩
  next x q isPush =>
    obtain ⟨up,inLoop⟩ := holds.up (by simp [isPush])
    obtain ⟨rest',rfl,emits'⟩ := emits.of_push isPush
    split
    next queue accepted =>
      obtain ⟨room,sound',items'⟩ := bounded.accepted holds.sound accepted
      refine ⟨⟨taken,rest',by simp [split,items'],absorbed,emits'⟩,sound',?_,holds.batch,fun down => by simp [up] at down,
        holds.last,?_⟩
      · rw [items',List.length_append]
        exact room
      · intro isDone
        simp only at isDone
        simp [isDone,Consumer.isLast] at inLoop
    next => exact holds
  next isHalt => exact ⟨holds.account,holds.sound,holds.queue,holds.batch,fun _ => isHalt,fun _ => rfl,holds.empty⟩

theorem deliver {last : Bool} {batch : List α} (holds : Holds p sound items sink xs s) (isDraining : s.consumer = .draining last batch)
    (complete : batch.length < p.most → items s.queue = []) : Holds p sound items sink xs (p.deliver s last batch) := by
  obtain ⟨taken,rest,split,absorbed,emits⟩ := holds.account
  have isLast := holds.last
  rw [isDraining] at split isLast
  have after : (p.deliver s last batch).consumer.batch = [] := by
    unfold Protocol.deliver
    split_ifs <;> rfl
  have sinkAfter : (p.deliver s last batch).sink = (taken ++ batch).foldl p.absorb sink := by
    rw [List.foldl_append,← absorbed]
    rfl
  refine ⟨⟨taken ++ batch,rest,?_,sinkAfter,emits⟩,holds.sound,holds.queue,?_,holds.stopped,?_,?_⟩
  · rw [after,List.append_nil]
    exact split
  · rw [after]
    exact Nat.zero_le _
  · cases last with
    | true => exact fun _ => isLast rfl
    | false => exact fun last => by simp [Protocol.deliver,Consumer.isLast] at last
  · cases last with
    | true =>
      intro isDone
      have empty : batch = [] := by
        by_contra other
        simp [Protocol.deliver,other] at isDone
      apply complete
      rw [empty]
      exact p.some
    | false => exact fun isDone => by simp [Protocol.deliver] at isDone

theorem consume (bounded : p.queue.Bounded p.capacity sound items) (holds : Holds p sound items sink xs s) :
    Holds p sound items sink xs (p.consume s) := by
  obtain ⟨taken,rest,split,absorbed,emits⟩ := holds.account
  unfold Protocol.consume
  split
  next isAsking =>
    rw [isAsking] at split
    refine ⟨⟨taken,rest,split,absorbed,emits⟩,holds.sound,holds.queue,Nat.zero_le _,holds.stopped,?_,by simp⟩
    simp [Consumer.isLast]
  next last batch isDraining =>
    split_ifs with short
    · split
      next isEmpty => exact holds.deliver isDraining fun _ => (bounded.front_none holds.sound).mp isEmpty
      next x isFront =>
        obtain ⟨queue,isQueue⟩ := (bounded.front_some holds.sound).mp isFront
        obtain ⟨sound',items'⟩ := bounded.popped _ x queue holds.sound isQueue
        have isLast := holds.last
        have fits := holds.queue
        rw [isDraining] at split isLast
        rw [isQueue] at split fits
        refine ⟨⟨taken,rest,?_,absorbed,emits⟩,sound',?_,?_,holds.stopped,isLast,by simp⟩
        · simp [split,items',Consumer.batch]
        · rw [items']
          exact (Nat.le_succ _).trans fits
        · rw [Consumer.batch,List.length_append]
          exact short
    · exact holds.deliver isDraining fun short' => absurd short' short
  next => exact holds

theorem act (bounded : p.queue.Bounded p.capacity sound items) (t : Thread) (holds : Holds p sound items sink xs s) :
    Holds p sound items sink xs (p.act t s) := by
  cases t with
  | producer => exact holds.produce bounded
  | consumer => exact holds.consume bounded

theorem run (bounded : p.queue.Bounded p.capacity sound items) (turns : List Thread) (holds : Holds p sound items sink xs s) :
    Holds p sound items sink xs (runTurns p.act s turns) :=
  runTurns_keeps (fun t _ => Holds.act bounded t) turns holds

/-- The producer of a consumer that is done has nothing more to do. -/
theorem halted (holds : Holds p sound items sink xs s) (isDone : s.consumer = .done) : p.move s.producer = .halt :=
  holds.stopped (holds.last (by rw [isDone]; rfl))

/-- A consumer that is done has had every item. -/
theorem finished (holds : Holds p sound items sink xs s) (isDone : s.consumer = .done) : s.sink = xs.foldl p.absorb sink := by
  obtain ⟨taken,rest,split,absorbed,emits⟩ := holds.account
  obtain rfl := emits.of_halt (holds.halted isDone)
  rw [isDone,holds.empty isDone] at split
  rw [absorbed,split]
  simp [Consumer.batch]

end Holds

/-! ## The end of the run -/

theorem produce_halt (isHalt : p.move s.producer = .halt) (down : s.running = false) : p.produce s = s := by
  simp [Protocol.produce,isHalt,← down]

theorem produce_refused {q : S} (isPush : p.move s.producer = .push x q) (refused : p.queue.tryPush s.queue x = none) : p.produce s = s := by
  simp [Protocol.produce,isPush,refused]

theorem consume_keeps (p : Protocol S α D Q) (s : State S α D Q) : (p.consume s).producer = s.producer ∧
    (p.consume s).running = s.running := by
  unfold Protocol.consume
  split
  · exact ⟨rfl,rfl⟩
  · split_ifs
    · split
      · exact ⟨rfl,rfl⟩
      · exact ⟨rfl,rfl⟩
    · exact ⟨rfl,rfl⟩
  · exact ⟨rfl,rfl⟩

theorem consume_shorter (bounded : p.queue.Bounded p.capacity sound items) (isSound : sound s.queue) :
    (items (p.consume s).queue).length ≤ (items s.queue).length := by
  unfold Protocol.consume
  split
  · exact le_refl _
  · split_ifs
    · split
      · exact le_refl _
      next x isFront =>
        obtain ⟨rest,isQueue⟩ := (bounded.front_some isSound).mp isFront
        rw [isQueue,(bounded.popped _ x rest isSound isQueue).2]
        exact Nat.le_succ _
    · exact le_refl _
  · exact le_refl _

/-- When the producer has halted, a consumer that is done stays so. -/
theorem act_done (isDone : s.consumer = .done) (isHalt : p.move s.producer = .halt) (t : Thread) : (p.act t s).consumer = .done := by
  cases t with
  | producer => simp [Protocol.act,Protocol.produce,isHalt,isDone]
  | consumer => simp [Protocol.act,Protocol.consume,isDone]

/-- What the moves of the producer keep. -/
theorem runTurns_producer {P : S → Prop} (computes : ∀ q q', p.move q = .compute q' → P q → P q')
    (pushes : ∀ q x q', p.move q = .push x q' → P q → P q') (turns : List Thread) {s : State S α D Q} (kept : P s.producer) :
    P (runTurns p.act s turns).producer := by
  refine runTurns_keeps (P := fun s : State S α D Q => P s.producer) ?_ turns kept
  intro t s kept
  cases t with
  | producer =>
    show P (p.produce s).producer
    unfold Protocol.produce
    split
    next q isCompute => exact computes _ q isCompute kept
    next x q isPush =>
      split
      · exact pushes _ x q isPush kept
      · exact kept
    next => exact kept
  | consumer =>
    show P (p.consume s).producer
    rwa [(consume_keeps p s).1]

/-- How many turns a consumer in its loop needs before it takes an item out of a full queue. -/
def Consumer.delay (most : Nat) : Consumer α → Nat
  | .asking => 2
  | .draining _ batch => if batch.length < most then 1 else 3
  | .done => 0

def State.wait (p : Protocol S α D Q) (items : Q → List α) (s : State S α D Q) : Nat :=
  if (items s.queue).length < p.capacity then 0 else s.consumer.delay p.most

theorem wait_falls (bounded : p.queue.Bounded p.capacity sound items) (holds : Holds p sound items sink xs s)
    (full : ¬ (items s.queue).length < p.capacity) (inLoop : s.consumer.isLast = false) :
    (p.consume s).wait p items < s.wait p items := by
  have fits := holds.queue
  have room := p.room
  have some := p.some
  have before : s.wait p items = s.consumer.delay p.most := if_neg full
  rw [before]
  unfold Protocol.consume
  split
  next isAsking => simp [isAsking,State.wait,full,Consumer.delay,some]
  next last batch isDraining =>
    have notLast : last = false := by simpa [isDraining,Consumer.isLast] using inLoop
    rw [isDraining]
    split_ifs with short
    · split
      next isEmpty =>
        rw [(bounded.front_none holds.sound).mp isEmpty] at full
        simp [room] at full
      next y isFront =>
        obtain ⟨queue,isQueue⟩ := (bounded.front_some holds.sound).mp isFront
        have space : (items (p.queue.pop s.queue)).length < p.capacity := by
          rw [isQueue,List.length_cons] at fits
          rw [(bounded.popped _ y queue holds.sound isQueue).2]
          omega
        simp [State.wait,Consumer.delay,short,space]
    · simp [State.wait,Protocol.deliver,full,notLast,Consumer.delay,short]
  next isDone => simp [isDone,Consumer.isLast] at inLoop

/-- A push that waits succeeds. -/
theorem push_leads (bounded : p.queue.Bounded p.capacity sound items) (isPush : p.move q = .push x q') :
    LeadsTo p.act (fun s => Holds p sound items sink xs s ∧ s.producer = q) (fun s => Holds p sound items sink xs s ∧ s.producer = q') := by
  have pushes : ∀ s, Holds p sound items sink xs s → s.producer = q → (items s.queue).length < p.capacity →
      Holds p sound items sink xs (p.produce s) ∧ (p.produce s).producer = q' := by
    rintro s holds rfl room
    obtain ⟨queue,accepted,_⟩ := bounded.pushed s.queue x holds.sound room
    exact ⟨holds.produce bounded,by simp [Protocol.produce,isPush,accepted]⟩
  have inLoop : ∀ s, Holds p sound items sink xs s → s.producer = q → s.consumer.isLast = false := by
    rintro s holds rfl
    exact (holds.up (by simp [isPush])).2
  have refused : ∀ s, Holds p sound items sink xs s → s.producer = q → ¬ (items s.queue).length < p.capacity → p.produce s = s := by
    rintro s holds rfl full
    exact produce_refused isPush (bounded.refused _ _ holds.sound (Nat.not_lt.mp full))
  apply LeadsTo.of_rank (State.wait p items)
  intro n
  cases n with
  | zero =>
    have room : ∀ s, Holds p sound items sink xs s → s.producer = q → s.wait p items = 0 → (items s.queue).length < p.capacity := by
      intro s holds isProducer noWait
      by_contra full
      have falls := wait_falls bounded holds full (inLoop s holds isProducer)
      omega
    apply LeadsTo.of_helpful .producer
    · rintro s ⟨⟨holds,isProducer⟩,noWait⟩
      exact .inl (pushes s holds isProducer (room s holds isProducer noWait))
    · rintro (_ | _) s ⟨⟨holds,isProducer⟩,noWait⟩
      · exact .inr (.inl (pushes s holds isProducer (room s holds isProducer noWait)))
      · refine .inl ⟨⟨holds.consume bounded,(consume_keeps p s).1.trans isProducer⟩,?_⟩
        exact if_pos ((consume_shorter bounded holds.sound).trans_lt (room s holds isProducer noWait))
  | succ n =>
    have full : ∀ s : State S α D Q, s.wait p items = n + 1 → ¬ (items s.queue).length < p.capacity :=
      fun s wait room => by simp [State.wait,room] at wait
    have falls : ∀ s, Holds p sound items sink xs s → s.producer = q → s.wait p items = n + 1 → (p.consume s).wait p items < n + 1 :=
      fun s holds isProducer wait => (wait_falls bounded holds (full s wait) (inLoop s holds isProducer)).trans_eq wait
    apply LeadsTo.of_helpful .consumer
    · rintro s ⟨⟨holds,isProducer⟩,wait⟩
      exact .inr ⟨⟨holds.consume bounded,(consume_keeps p s).1.trans isProducer⟩,falls s holds isProducer wait⟩
    · rintro (_ | _) s ⟨⟨holds,isProducer⟩,wait⟩
      · rw [Protocol.act,refused s holds isProducer (full s wait)]
        exact .inl ⟨⟨holds,isProducer⟩,wait⟩
      · exact .inr (.inr ⟨⟨holds.consume bounded,(consume_keeps p s).1.trans isProducer⟩,falls s holds isProducer wait⟩)

/-- The producer comes to its end and takes the flag down. -/
theorem stops (bounded : p.queue.Bounded p.capacity sound items) {rest : List α} (emits : Emits p.move q rest) :
    LeadsTo p.act (fun s => Holds p sound items sink xs s ∧ s.producer = q) (fun s => Holds p sound items sink xs s ∧ s.running = false) := by
  induction emits with
  | @halt q isHalt =>
    have lowers : ∀ s, Holds p sound items sink xs s ∧ s.producer = q →
        Holds p sound items sink xs (p.produce s) ∧ (p.produce s).running = false := by
      rintro s ⟨holds,rfl⟩
      exact ⟨holds.produce bounded,by simp [Protocol.produce,isHalt]⟩
    apply LeadsTo.of_helpful .producer
    · exact lowers
    · rintro (_ | _) s held
      · exact .inr (lowers s held)
      · exact .inl ⟨held.1.consume bounded,(consume_keeps p s).1.trans held.2⟩
  | @compute q q' _ isCompute _ ih =>
    refine LeadsTo.trans ?_ ih
    have moves : ∀ s, Holds p sound items sink xs s ∧ s.producer = q →
        Holds p sound items sink xs (p.produce s) ∧ (p.produce s).producer = q' := by
      rintro s ⟨holds,rfl⟩
      exact ⟨holds.produce bounded,by simp [Protocol.produce,isCompute]⟩
    apply LeadsTo.of_helpful .producer
    · exact moves
    · rintro (_ | _) s held
      · exact .inr (moves s held)
      · exact .inl ⟨held.1.consume bounded,(consume_keeps p s).1.trans held.2⟩
  | push isPush _ ih => exact (push_leads bounded isPush).trans ih

/-- How far the consumer is from its end when the flag is down. -/
def State.remaining (items : Q → List α) (s : State S α D Q) : Nat := 2 * (items s.queue).length + s.consumer.batch.length +
  match s.consumer with
  | .draining false _ => 3
  | .asking => 2
  | .draining true _ => 1
  | .done => 0

theorem remaining_falls (bounded : p.queue.Bounded p.capacity sound items) (isSound : sound s.queue) (down : s.running = false) :
    s.consumer = .done ∨ (p.consume s).remaining items < s.remaining items := by
  unfold Protocol.consume
  split
  next isAsking => exact .inr (by simp [State.remaining,isAsking,down,Consumer.batch])
  next last batch isDraining =>
    have delivered : (p.deliver s last batch).remaining items < s.remaining items := by
      cases last with
      | false =>
        simp only [State.remaining,isDraining,Protocol.deliver,Consumer.batch,Bool.false_eq_true,if_false,List.length_nil]
        omega
      | true =>
        cases batch with
        | nil => simp [State.remaining,isDraining,Protocol.deliver,Consumer.batch]
        | cons y batch => simp [State.remaining,isDraining,Protocol.deliver,Consumer.batch]
    right
    split_ifs
    · split
      · exact delivered
      next y isFront =>
        obtain ⟨queue,isQueue⟩ := (bounded.front_some isSound).mp isFront
        have popped := (bounded.popped _ y queue isSound isQueue).2
        simp only [State.remaining,isDraining,isQueue,popped,Consumer.batch,List.length_append,List.length_cons,List.length_nil]
        cases last <;> simp only <;> omega
    · exact delivered
  next isDone => exact .inl isDone

/-- When the flag is down the consumer empties the queue. -/
theorem drains (bounded : p.queue.Bounded p.capacity sound items) :
    LeadsTo p.act (fun s => Holds p sound items sink xs s ∧ s.running = false)
      (fun s => Holds p sound items sink xs s ∧ s.consumer = .done) := by
  apply LeadsTo.of_rank (State.remaining items)
  intro n
  have progress : ∀ s, (Holds p sound items sink xs s ∧ s.running = false) ∧ s.remaining items = n →
      (Holds p sound items sink xs (p.consume s) ∧ (p.consume s).consumer = .done) ∨
      (Holds p sound items sink xs (p.consume s) ∧ (p.consume s).running = false) ∧ (p.consume s).remaining items < n := by
    rintro s ⟨⟨holds,down⟩,rfl⟩
    cases remaining_falls bounded holds.sound down with
    | inl isDone =>
      have stays : p.consume s = s := by simp [Protocol.consume,isDone]
      rw [stays]
      exact .inl ⟨holds,isDone⟩
    | inr falls => exact .inr ⟨⟨holds.consume bounded,(consume_keeps p s).2.trans down⟩,falls⟩
  apply LeadsTo.of_helpful .consumer
  · exact progress
  · rintro (_ | _) s held
    · rw [Protocol.act,produce_halt (held.1.1.stopped held.1.2) held.1.2]
      exact .inl held
    · exact .inr (progress s held)

/-- Every fair schedule comes to a turn from which on the consumer is done, the producer has halted and all items are in the sink. -/
theorem finishes (bounded : p.queue.Bounded p.capacity sound items) (sink : D) (emits : Emits p.move q xs) {sched : Nat → Thread}
    (fair : Fair sched) : ∃ n, ∀ k, n ≤ k → (runTurns p.act (start p q sink) (firstTurns sched k)).consumer = .done ∧
      (runTurns p.act (start p q sink) (firstTurns sched k)).sink = xs.foldl p.absorb sink := by
  obtain ⟨n,held⟩ := (stops bounded emits).trans (drains bounded) sched fair _ ⟨Holds.start bounded sink emits,rfl⟩
  have stays : ∀ t s, Holds p sound items sink xs s ∧ s.consumer = .done →
      Holds p sound items sink xs (p.act t s) ∧ (p.act t s).consumer = .done :=
    fun t s held => ⟨held.1.act bounded t,act_done held.2 (held.1.halted held.2) t⟩
  refine ⟨n,fun k after => ?_⟩
  obtain ⟨j,rfl⟩ := Nat.exists_eq_add_of_le after
  rw [firstTurns_add,runTurns_append]
  obtain ⟨holds,isDone⟩ := runTurns_keeps stays (firstTurns (later sched n) j) held
  exact ⟨isDone,holds.finished isDone⟩

end BaboEngine.Handoff
