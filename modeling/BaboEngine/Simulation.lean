import Mathlib.Data.List.Induction
import Mathlib.Tactic.Common

/-!
# Forward simulation

A machine whose steps may fail, and an abstract one whose steps may not. If every
admitted step of the abstract machine is matched by a step of the other that does
not fail, then so are whole runs.
-/

namespace BaboEngine.Simulation

variable {S A O : Type} {step : S → O → Option S} {next : A → O → A} {ok : A → O → Prop} {R : S → A → Prop}

/-- Every operation is admitted when its turn comes. -/
def Admitted (ok : A → O → Prop) (next : A → O → A) : A → List O → Prop
  | _, [] => True
  | a, o :: os => ok a o ∧ Admitted ok next (next a o) os

instance decidableAdmitted [∀ a o, Decidable (ok a o)] : (a : A) → (os : List O) → Decidable (Admitted ok next a os)
  | _, [] => .isTrue trivial
  | a, o :: os =>
    have := decidableAdmitted (next a o) os
    inferInstanceAs (Decidable (ok a o ∧ Admitted ok next (next a o) os))

theorem admitted_append {a : A} {os os' : List O} : Admitted ok next a (os ++ os') ↔
    Admitted ok next a os ∧ Admitted ok next (os.foldl next a) os' := by
  induction os generalizing a with
  | nil => simp [Admitted]
  | cons o os ih => simp [Admitted,ih,and_assoc]

theorem Admitted.and {ok' : A → O → Prop} {os : List O} : ∀ {a : A}, Admitted ok next a os → Admitted ok' next a os →
    Admitted (fun a o => ok a o ∧ ok' a o) next a os := by
  induction os with
  | nil => exact fun _ _ => trivial
  | cons o os ih => exact fun first second => ⟨⟨first.1,second.1⟩,ih first.2 second.2⟩

theorem admitted_iff {os : List O} : ∀ {a : A}, Admitted ok next a os ↔
    ∀ before o later, os = before ++ o :: later → ok (before.foldl next a) o := by
  induction os with
  | nil => simp [Admitted]
  | cons o os ih =>
    intro a
    rw [Admitted,ih]
    constructor
    · rintro ⟨first,rest⟩ before o' later split
      cases before with
      | nil =>
        obtain ⟨rfl,_⟩ := List.cons_eq_cons.mp split
        exact first
      | cons x before =>
        obtain ⟨rfl,split'⟩ := List.cons_eq_cons.mp split
        exact rest before o' later split'
    · intro all
      exact ⟨all [] o os rfl,fun before o' later split => all (o :: before) o' later (by rw [split]; rfl)⟩

theorem admitted_imp {ok' : A → O → Prop} (stronger : ∀ a o, ok a o → ok' a o) {a : A} {os : List O} (admitted : Admitted ok next a os) :
    Admitted ok' next a os :=
  admitted_iff.mpr fun before o later split => stronger _ o (admitted_iff.mp admitted before o later split)

theorem admitted_all {p : O → Prop} {os : List O} (all : ∀ o ∈ os, p o) : ∀ a : A, Admitted (fun _ o => p o) next a os := by
  induction os with
  | nil => exact fun _ => trivial
  | cons o os ih =>
    obtain ⟨first,rest⟩ := List.forall_mem_cons.mp all
    exact fun a => ⟨first,ih rest (next a o)⟩

theorem admitted_if {P : Prop} {os : List O} : ∀ {a : A}, (P → Admitted ok next a os) → Admitted (fun a o => P → ok a o) next a os := by
  induction os with
  | nil => exact fun _ => trivial
  | cons o os ih => exact fun admitted => ⟨fun h => (admitted h).1,ih fun h => (admitted h).2⟩

/-- What does not hold before a run and holds after it has arisen at one of the steps, and has held since. -/
theorem arisen {P : A → Prop} {a : A} (before : ¬ P a) (os : List O) : P (os.foldl next a) →
    ∃ first o later, os = first ++ o :: later ∧ ¬ P (first.foldl next a) ∧
      ∀ since rest, later = since ++ rest → P ((first ++ o :: since).foldl next a) := by
  induction os using List.reverseRecOn with
  | nil => exact fun holds => absurd holds before
  | append_singleton os o ih =>
    intro holds
    by_cases already : P (os.foldl next a)
    · obtain ⟨first,x,later,rfl,notYet,kept⟩ := ih already
      refine ⟨first,x,later ++ [o],by simp,notYet,?_⟩
      intro since rest split
      rcases List.eq_nil_or_concat rest with rfl | ⟨rest,last,rfl⟩
      · rw [List.append_nil] at split
        rw [← split]
        simpa using holds
      · rw [List.concat_eq_append,← List.append_assoc] at split
        exact kept since rest (List.append_inj_left' split rfl)
    · refine ⟨os,o,[],rfl,already,?_⟩
      intro since rest split
      obtain ⟨rfl,_⟩ := List.nil_eq_append_iff.mp split
      exact holds

/-- One step after the other. -/
def run (step : S → O → Option S) (s : S) (os : List O) : Option S := os.foldlM step s

@[simp] theorem run_nil (s : S) : run step s [] = some s := rfl

theorem run_cons (s : S) (o : O) (os : List O) : run step s (o :: os) = (step s o).bind fun s' => run step s' os := rfl

/-- A matched step matches runs. The relation may speak of the operations that are still to come. -/
theorem run_foreseen {R : S → A → List O → Prop}
    (matched : ∀ s a o os, R s a (o :: os) → ok a o → ∃ s', step s o = some s' ∧ R s' (next a o) os)
    (later : List O) (os : List O) : ∀ s a, R s a (os ++ later) → Admitted ok next a os →
      ∃ s', run step s os = some s' ∧ R s' (os.foldl next a) later := by
  induction os with
  | nil => exact fun s a related _ => ⟨s,rfl,related⟩
  | cons o os ih =>
    rintro s a related ⟨first,rest⟩
    obtain ⟨s₁,step₁,related₁⟩ := matched s a o _ related first
    obtain ⟨s₂,run₂,related₂⟩ := ih s₁ (next a o) related₁ rest
    exact ⟨s₂,by rw [run_cons,step₁]; exact run₂,related₂⟩

theorem run_matched (matched : ∀ s a o, R s a → ok a o → ∃ s', step s o = some s' ∧ R s' (next a o)) (os : List O) :
    ∀ s a, R s a → Admitted ok next a os → ∃ s', run step s os = some s' ∧ R s' (os.foldl next a) :=
  run_foreseen (R := fun s a _ => R s a) (fun s a o _ => matched s a o) [] os

end BaboEngine.Simulation
