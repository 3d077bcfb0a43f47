import Mathlib.Order.RelClasses
import Mathlib.Tactic.Common

/-!
# Fair schedules

Threads that share a state. A thread is deterministic, so a run is given by whose turn it is.
What comes about under every schedule that gives each thread infinitely many turns is proved
from the steps of the threads: by one thread that helps and others that do not harm
(`LeadsTo.of_helpful`), and by a rank that falls (`LeadsTo.of_rank`).
-/

namespace BaboEngine.FairSchedules

variable {S T : Type} {act : T → S → S} {P P' Q Q' R : S → Prop} {sched : Nat → T}

/-- The state after some turns. -/
def runTurns (act : T → S → S) (s : S) (turns : List T) : S := turns.foldl (fun s t => act t s) s

@[simp] theorem runTurns_nil (s : S) : runTurns act s [] = s := rfl

theorem runTurns_append (s : S) (turns turns' : List T) :
    runTurns act s (turns ++ turns') = runTurns act (runTurns act s turns) turns' := List.foldl_append ..

/-- What every step keeps, every run keeps. -/
theorem runTurns_keeps (keeps : ∀ t s, P s → P (act t s)) (turns : List T) : ∀ {s : S}, P s → P (runTurns act s turns) := by
  induction turns with
  | nil => exact fun holds => holds
  | cons t turns ih => exact fun holds => ih (keeps t _ holds)

/-- The first `n` turns of a schedule. -/
def firstTurns (sched : Nat → T) (n : Nat) : List T := (List.range n).map sched

def later (sched : Nat → T) (n : Nat) : Nat → T := fun k => sched (n + k)

theorem firstTurns_add (sched : Nat → T) (m n : Nat) : firstTurns sched (m + n) = firstTurns sched m ++ firstTurns (later sched m) n := by
  rw [firstTurns,List.range_add,List.map_append,List.map_map]
  rfl

theorem firstTurns_succ (sched : Nat → T) (n : Nat) : firstTurns sched (n + 1) = sched 0 :: firstTurns (later sched 1) n := by
  rw [Nat.add_comm,firstTurns_add]
  rfl

/-- Every thread has its turn again and again. -/
def Fair (sched : Nat → T) : Prop := ∀ t n, ∃ k, sched (n + k) = t

theorem Fair.later (fair : Fair sched) (n : Nat) : Fair (later sched n) := by
  intro t m
  obtain ⟨k,turn⟩ := fair t (n + m)
  exact ⟨k,by rw [FairSchedules.later,← Nat.add_assoc,turn]⟩

/-- From `P` every fair schedule comes to `Q`. -/
def LeadsTo (act : T → S → S) (P Q : S → Prop) : Prop :=
  ∀ sched, Fair sched → ∀ s, P s → ∃ n, Q (runTurns act s (firstTurns sched n))

namespace LeadsTo

theorem of_imp (imp : ∀ s, P s → Q s) : LeadsTo act P Q := fun _ _ s holds => ⟨0,imp s holds⟩

theorem trans (first : LeadsTo act P Q) (second : LeadsTo act Q R) : LeadsTo act P R := by
  intro sched fair s holds
  obtain ⟨m,reached⟩ := first sched fair s holds
  obtain ⟨n,reached'⟩ := second (later sched m) (fair.later m) _ reached
  exact ⟨m + n,by rwa [firstTurns_add,runTurns_append]⟩

theorem imp (leads : LeadsTo act P Q) (stronger : ∀ s, P' s → P s) (weaker : ∀ s, Q s → Q' s) : LeadsTo act P' Q' :=
  (of_imp stronger).trans (leads.trans (of_imp weaker))

theorem cases (first : LeadsTo act P R) (second : LeadsTo act Q R) : LeadsTo act (fun s => P s ∨ Q s) R := by
  intro sched fair s holds
  cases holds with
  | inl here => exact first sched fair s here
  | inr here => exact second sched fair s here

/-- The turn of the thread that helps comes, and the threads before it stay in `P` if they do not help themselves. -/
theorem of_helpful (t : T) (helps : ∀ s, P s → Q (act t s)) (harmless : ∀ u s, P s → P (act u s) ∨ Q (act u s)) :
    LeadsTo act P Q := by
  intro sched fair s holds
  obtain ⟨k,turn⟩ := fair t 0
  rw [Nat.zero_add] at turn
  clear fair
  induction k generalizing sched s with
  | zero => exact ⟨1,by rw [firstTurns_succ,turn]; exact helps s holds⟩
  | succ k ih =>
    cases harmless (sched 0) s holds with
    | inl stays =>
      obtain ⟨n,reached⟩ := ih (FairSchedules.later sched 1) _ stays (by rw [FairSchedules.later,Nat.add_comm,turn])
      exact ⟨n + 1,by rw [firstTurns_succ]; exact reached⟩
    | inr reached => exact ⟨1,by rw [firstTurns_succ]; exact reached⟩

/-- What leads to `Q` or to a smaller rank leads to `Q`. -/
theorem of_rank (rank : S → Nat) (falls : ∀ n, LeadsTo act (fun s => P s ∧ rank s = n) fun s => Q s ∨ P s ∧ rank s < n) :
    LeadsTo act P Q := by
  have all : ∀ n, LeadsTo act (fun s => P s ∧ rank s < n) Q := by
    intro n
    induction n with
    | zero => exact of_imp fun s below => absurd below.2 (Nat.not_lt_zero _)
    | succ n ih =>
      refine imp (cases ((falls n).trans (cases (of_imp fun _ reached => reached) ih)) ih) ?_ fun _ reached => reached
      rintro s ⟨holds,below⟩
      cases Nat.lt_succ_iff_lt_or_eq.mp below with
      | inl lower => exact .inr ⟨holds,lower⟩
      | inr here => exact .inl ⟨holds,here⟩
  intro sched fair s holds
  exact all (rank s + 1) sched fair s ⟨holds,Nat.lt_succ_self _⟩

end LeadsTo

end BaboEngine.FairSchedules
