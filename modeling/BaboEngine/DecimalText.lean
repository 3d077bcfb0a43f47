import Mathlib.Data.List.Sort
import Mathlib.Tactic.Ring

/-!
# Lines of decimal numbers

What `std::snprintf` writes for the conversions of integers, and what can be read back from
it: numbers that are joined by a separator, and lines that are joined by another one, are
determined by the text (`joined_inj`, `decimal_injective`).
-/

namespace BaboEngine.DecimalText

/-- A number in decimal, with a minus sign where it is negative. -/
def decimal : Int → List Char
  | .ofNat n => Nat.toDigits 10 n
  | .negSucc n => '-' :: Nat.toDigits 10 (n + 1)

/-- An argument of `std::snprintf`. -/
inductive Arg where
  | unsigned (n : Nat)
  | signed (i : Int)

def Arg.value : Arg → Int
  | .unsigned n => n
  | .signed i => i

/-- The output of `std::snprintf` with the conversions `%llu`, `%lld` and `%u`, for arguments that have the
    types of their conversions. -/
def printf : List Char → List Arg → Option (List Char)
  | '%' :: 'l' :: 'l' :: 'u' :: format, .unsigned n :: args => (printf format args).map (decimal n ++ ·)
  | '%' :: 'l' :: 'l' :: 'd' :: format, .signed i :: args => (printf format args).map (decimal i ++ ·)
  | '%' :: 'u' :: format, .unsigned n :: args => (printf format args).map (decimal n ++ ·)
  | '%' :: _, _ => none
  | c :: format, args => (printf format args).map (c :: ·)
  | [], [] => some []
  | [], _ :: _ => none

/-- What a buffer of `size` characters holds afterwards; nothing is said of output that is cut off. -/
def snprintf (size : Nat) (format : List Char) (args : List Arg) : Option (List Char) := do
  let line ← printf format args
  if line.length < size then some line else none

/-! ## Numbers -/

theorem digit_of_mem {n : Nat} {c : Char} (member : c ∈ Nat.toDigits 10 n) : c.isDigit = true :=
  Nat.isDigit_of_mem_toDigits (by decide) (by decide) member

theorem toDigits_injective {m n : Nat} (same : Nat.toDigits 10 m = Nat.toDigits 10 n) : m = n := by
  have read := congrArg (fun cs => Nat.ofDigitChars 10 cs 0) same
  simpa only [Nat.ofDigitChars_ten_toDigits] using read

/-- The digits of a number do not begin with a minus sign. -/
theorem toDigits_ne_minus (n : Nat) (cs : List Char) : Nat.toDigits 10 n ≠ '-' :: cs := by
  intro same
  have digit := digit_of_mem (n := n) (c := '-') (by rw [same]; exact List.mem_cons_self)
  exact absurd digit (by decide)

theorem decimal_injective {i j : Int} (same : decimal i = decimal j) : i = j := by
  cases i with
  | ofNat m =>
    cases j with
    | ofNat n => exact congrArg Int.ofNat (toDigits_injective same)
    | negSucc n => exact absurd same (toDigits_ne_minus m _)
  | negSucc m =>
    cases j with
    | ofNat n => exact absurd same.symm (toDigits_ne_minus n _)
    | negSucc n =>
      have digits := toDigits_injective (List.cons.inj same).2
      exact congrArg Int.negSucc (Nat.succ.inj digits)

theorem mem_decimal {i : Int} {c : Char} (member : c ∈ decimal i) : c.isDigit = true ∨ c = '-' := by
  cases i with
  | ofNat n => exact .inl (digit_of_mem member)
  | negSucc n =>
    cases List.mem_cons.mp member with
    | inl minus => exact .inr minus
    | inr digit => exact .inl (digit_of_mem digit)

theorem decimal_ne_nil (i : Int) : decimal i ≠ [] := by
  cases i with
  | ofNat n => exact Nat.toDigits_ne_nil
  | negSucc n => exact List.cons_ne_nil _ _

theorem length_decimal_unsigned {n k : Nat} (some : 0 < k) (small : n < 10 ^ k) : (decimal n).length ≤ k :=
  (Nat.length_toDigits_le_iff (by decide) some).mpr small

theorem length_decimal_signed {i : Int} {k : Nat} (some : 0 < k) (low : -10 ^ k < i) (high : i < 10 ^ k) :
    (decimal i).length ≤ k + 1 := by
  cases i with
  | ofNat n =>
    have small : n < 10 ^ k := by
      rw [Int.ofNat_eq_natCast] at high
      exact_mod_cast high
    exact (length_decimal_unsigned some small).trans (Nat.le_succ k)
  | negSucc n =>
    have small : n + 1 < 10 ^ k := by
      rw [Int.negSucc_eq] at low
      have below : ((n : Int) + 1) < 10 ^ k := by omega
      exact_mod_cast below
    exact Nat.succ_le_succ ((Nat.length_toDigits_le_iff (by decide) some).mpr small)

/-! ## Joined pieces -/

section
variable {sep : Char} {ls ls' : List (List Char)}

/-- Pieces without the separator are read back from what they are joined to. -/
theorem joined_inj (apart : ∀ l ∈ ls, sep ∉ l) (apart' : ∀ l ∈ ls', sep ∉ l) (some : ls ≠ []) (some' : ls' ≠ []) :
    [sep].intercalate ls = [sep].intercalate ls' ↔ ls = ls' := by
  refine ⟨?_,fun same => by rw [same]⟩
  intro same
  have read := congrArg (List.splitOn sep) same
  rwa [List.splitOn_intercalate sep apart some,List.splitOn_intercalate sep apart' some'] at read

theorem mem_joined {c : Char} (member : c ∈ [sep].intercalate ls) : c = sep ∨ ∃ l ∈ ls, c ∈ l := by
  induction ls with
  | nil => simp at member
  | cons l ls ih =>
    cases ls with
    | nil =>
      rw [List.intercalate_singleton] at member
      exact .inr ⟨l,List.mem_cons_self,member⟩
    | cons l' ls =>
      rw [List.intercalate_cons_cons] at member
      cases List.mem_append.mp member with
      | inl front =>
        cases List.mem_append.mp front with
        | inl inL => exact .inr ⟨l,List.mem_cons_self,inL⟩
        | inr isSep => exact .inl (List.mem_singleton.mp isSep)
      | inr back =>
        rcases ih back with isSep | ⟨l'',inLs,inL''⟩
        · exact .inl isSep
        · exact .inr ⟨l'',List.mem_cons_of_mem _ inLs,inL''⟩

theorem joined_ne_nil (some : ls ≠ []) (each : ∀ l ∈ ls, l ≠ []) : [sep].intercalate ls ≠ [] := by
  obtain ⟨l,ls,rfl⟩ := List.exists_cons_of_ne_nil some
  have first := each l List.mem_cons_self
  cases ls with
  | nil => rwa [List.intercalate_singleton]
  | cons l' ls =>
    rw [List.intercalate_cons_cons]
    simp [first]

theorem length_joined {k : Nat} (each : ∀ l ∈ ls, l.length ≤ k) : ([sep].intercalate ls).length ≤ ls.length * (k + 1) := by
  induction ls with
  | nil => simp
  | cons l ls ih =>
    obtain ⟨first,rest⟩ := List.forall_mem_cons.mp each
    have tail := ih rest
    cases ls with
    | nil =>
      rw [List.intercalate_singleton]
      simp
      omega
    | cons l' ls =>
      rw [List.intercalate_cons_cons]
      simp only [List.length_append,List.length_cons,List.length_nil,Nat.succ_mul] at tail ⊢
      omega

end

end BaboEngine.DecimalText
