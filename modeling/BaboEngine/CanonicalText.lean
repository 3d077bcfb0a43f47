import BaboEngine.DecimalText
import BaboEngine.StableSort
import Mathlib.Data.Prod.Lex

/-!
# The canonical text of a report stream

`build_canonical_text` of `correctness.cpp` sorts the collected reports and prints a line for
each. The text determines what is printed of the sorted reports, and nothing else.
-/

namespace BaboEngine
open DecimalText StableSort

structure CollectedReport where
  type : UInt8
  seq : UInt64
  side : UInt8
  orderId : UInt64
  priceTicks : Int64
  quantity : UInt32
  makerOrderId : UInt64
  takerOrderId : UInt64
deriving DecidableEq

namespace CollectedReport

/-- The comparison of the sort. -/
def before (a b : CollectedReport) : Prop := if a.seq ≠ b.seq then a.seq < b.seq else a.type < b.type

instance (a b : CollectedReport) : Decidable (a.before b) :=
  inferInstanceAs (Decidable (if a.seq ≠ b.seq then a.seq < b.seq else a.type < b.type))

/-- `std::stable_sort` with the comparison. -/
def stableSort (rs : List CollectedReport) : List CollectedReport := rs.insertionSort fun a b => ¬ b.before a

/-- The format of a line and its arguments, by the type of the report. -/
def format (r : CollectedReport) : Option (List Char × List Arg) :=
  match r.type with
  | 0 => some ("0,%llu,%u,%llu,%lld,%u".toList,[.unsigned r.seq.toNat,.unsigned r.side.toNat,.unsigned r.orderId.toNat,
      .signed r.priceTicks.toInt,.unsigned r.quantity.toNat])
  | 1 => some ("1,%llu,%lld,%u,%llu,%llu".toList,[.unsigned r.seq.toNat,.signed r.priceTicks.toInt,.unsigned r.quantity.toNat,
      .unsigned r.makerOrderId.toNat,.unsigned r.takerOrderId.toNat])
  | 2 => some ("2,%llu,%u,%llu,%lld".toList,[.unsigned r.seq.toNat,.unsigned r.side.toNat,.unsigned r.orderId.toNat,
      .signed r.priceTicks.toInt])
  | 3 => some ("3,%llu,%u,%llu,%lld,%u".toList,[.unsigned r.seq.toNat,.unsigned r.side.toNat,.unsigned r.orderId.toNat,
      .signed r.priceTicks.toInt,.unsigned r.quantity.toNat])
  | 4 => some ("4,%llu,%llu".toList,[.unsigned r.seq.toNat,.unsigned r.orderId.toNat])
  | 5 => some ("5,%llu,%llu".toList,[.unsigned r.seq.toNat,.unsigned r.orderId.toNat])
  | _ => none

/-- `sizeof(line)`. -/
def lineSize : Nat := 160

/-- One round of the loop, on the text so far and whether the next line is the first. -/
def appendLine (text : List Char × Bool) (r : CollectedReport) : Option (List Char × Bool) :=
  match r.format with
  | none => some text
  | some (format,args) => do
    let line ← snprintf lineSize format args
    some ((if text.2 then text.1 else text.1 ++ ['\n']) ++ line,false)

/-- The text, if no line is cut off. -/
def buildCanonicalText (rs : List CollectedReport) : Option (List Char) :=
  ((stableSort rs).foldlM appendLine ([],true)).map Prod.fst

/-- Two reports of one type agree on the fields that are printed of them. -/
def Agree (r r' : CollectedReport) : Prop := r.type = r'.type ∧
  match r.type with
  | 0 | 3 => r.seq = r'.seq ∧ r.side = r'.side ∧ r.orderId = r'.orderId ∧ r.priceTicks = r'.priceTicks ∧ r.quantity = r'.quantity
  | 1 => r.seq = r'.seq ∧ r.priceTicks = r'.priceTicks ∧ r.quantity = r'.quantity ∧ r.makerOrderId = r'.makerOrderId ∧
      r.takerOrderId = r'.takerOrderId
  | 2 => r.seq = r'.seq ∧ r.side = r'.side ∧ r.orderId = r'.orderId ∧ r.priceTicks = r'.priceTicks
  | _ => r.seq = r'.seq ∧ r.orderId = r'.orderId

variable {r r' : CollectedReport} {rs rs' : List CollectedReport}

/-! ## Lines -/

/-- The numbers of a line. -/
def cells (r : CollectedReport) : List Int :=
  match r.type with
  | 0 | 3 => [r.type.toNat,r.seq.toNat,r.side.toNat,r.orderId.toNat,r.priceTicks.toInt,r.quantity.toNat]
  | 1 => [1,r.seq.toNat,r.priceTicks.toInt,r.quantity.toNat,r.makerOrderId.toNat,r.takerOrderId.toNat]
  | 2 => [2,r.seq.toNat,r.side.toNat,r.orderId.toNat,r.priceTicks.toInt]
  | _ => [r.type.toNat,r.seq.toNat,r.orderId.toNat]

def line (r : CollectedReport) : List Char := [','].intercalate (r.cells.map decimal)

theorem type_cases (known : r.type ≤ 5) : r.type = 0 ∨ r.type = 1 ∨ r.type = 2 ∨ r.type = 3 ∨ r.type = 4 ∨ r.type = 5 := by
  have bound : r.type.toNat ≤ 5 := known
  simp only [← UInt8.toNat_inj]
  change r.type.toNat = 0 ∨ r.type.toNat = 1 ∨ r.type.toNat = 2 ∨ r.type.toNat = 3 ∨ r.type.toNat = 4 ∨ r.type.toNat = 5
  omega

theorem printf_format (known : r.type ≤ 5) : ∃ format args, r.format = some (format,args) ∧ printf format args = some r.line := by
  rcases type_cases known with is | is | is | is | is | is
  all_goals
    simp only [format,line,cells,is]
    exact ⟨_,_,rfl,rfl⟩

/-- Equal lines are of reports that agree. -/
theorem cells_inj (known : r.type ≤ 5) (known' : r'.type ≤ 5) : r.cells = r'.cells ↔ Agree r r' := by
  have head : ∀ r : CollectedReport, r.type ≤ 5 → r.cells.head? = some (r.type.toNat : Int) := by
    intro r known
    rcases type_cases known with is | is | is | is | is | is <;> simp [cells,is]
  by_cases type : r.type = r'.type
  · have type' := type.symm
    rw [Agree,← and_true (r.type = r'.type)]
    rcases type_cases known with is | is | is | is | is | is
    all_goals
      rw [is] at type'
      simp [cells,is,type',← UInt64.toNat_inj,← UInt32.toNat_inj,← UInt8.toNat_inj,← Int64.toInt_inj]
  · have apart : r.cells ≠ r'.cells := by
      intro same
      have heads := congrArg List.head? same
      rw [head r known,head r' known'] at heads
      exact type (UInt8.toNat_inj.mp (Int.ofNat_inj.mp (Option.some.inj heads)))
    exact ⟨fun same => absurd same apart,fun agree => absurd agree.1 type⟩

theorem cells_ne_nil (r : CollectedReport) : r.cells ≠ [] := by
  unfold cells
  split <;> exact List.cons_ne_nil _ _

/-- A separator is not part of a number. -/
theorem not_mem_decimals {sep : Char} (isSep : sep.isDigit = false ∧ sep ≠ '-') (is : List Int) : ∀ l ∈ is.map decimal, sep ∉ l := by
  intro l member inside
  obtain ⟨i,_,rfl⟩ := List.mem_map.mp member
  cases mem_decimal inside with
  | inl digit =>
    rw [isSep.1] at digit
    cases digit
  | inr minus => exact isSep.2 minus

theorem line_inj (known : r.type ≤ 5) (known' : r'.type ≤ 5) : r.line = r'.line ↔ Agree r r' := by
  have comma : (',').isDigit = false ∧ ',' ≠ '-' := by decide
  rw [← cells_inj known known',line,line,joined_inj (not_mem_decimals comma _) (not_mem_decimals comma _)
    (by simpa using cells_ne_nil r) (by simpa using cells_ne_nil r')]
  exact (List.map_injective_iff.mpr fun _ _ => decimal_injective).eq_iff

theorem newline_notin_line (r : CollectedReport) : '\n' ∉ r.line := by
  intro member
  rcases mem_joined member with isComma | ⟨l,inCells,inside⟩
  · exact absurd isComma (by decide)
  · exact not_mem_decimals (by decide) _ l inCells inside

theorem line_ne_nil (r : CollectedReport) : r.line ≠ [] := by
  apply joined_ne_nil (by simpa using cells_ne_nil r)
  intro l member
  obtain ⟨i,_,rfl⟩ := List.mem_map.mp member
  exact decimal_ne_nil i

/-- Six numbers of at most 64 bits fit. -/
theorem length_line (r : CollectedReport) : r.line.length < lineSize := by
  have small : ∀ n : Nat, n < 18446744073709551616 → (decimal n).length ≤ 20 := fun n lt =>
    length_decimal_unsigned (by decide) (lt.trans (by decide))
  have seq := small _ r.seq.toNat_lt
  have orderId := small _ r.orderId.toNat_lt
  have maker := small _ r.makerOrderId.toNat_lt
  have taker := small _ r.takerOrderId.toNat_lt
  have type := small _ (r.type.toNat_lt.trans (by decide))
  have side := small _ (r.side.toNat_lt.trans (by decide))
  have quantity := small _ (r.quantity.toNat_lt.trans (by decide))
  have price : (decimal r.priceTicks.toInt).length ≤ 20 := by
    have low := r.priceTicks.le_toInt
    have high := r.priceTicks.toInt_lt
    exact length_decimal_signed (k := 19) (by decide) (by omega) (by omega)
  have one : (decimal 1).length ≤ 20 := by decide
  have two : (decimal 2).length ≤ 20 := by decide
  have each : ∀ l ∈ r.cells.map decimal, l.length ≤ 20 := by
    unfold cells
    split <;> simp [seq,orderId,maker,taker,type,side,quantity,price,one,two]
  have few : r.cells.length ≤ 6 := by
    unfold cells
    split <;> simp
  have bound : r.line.length ≤ (r.cells.map decimal).length * 21 := length_joined each
  rw [List.length_map] at bound
  show r.line.length < 160
  omega

/-! ## The text -/

theorem appendLine_eq (known : r.type ≤ 5) (text : List Char) (first : Bool) :
    appendLine (text,first) r = some ((if first then text else text ++ ['\n']) ++ r.line,false) := by
  obtain ⟨format,args,isFormat,printed⟩ := printf_format known
  simp [appendLine,isFormat,snprintf,printed,length_line r]

/-- The lines after the first one. -/
theorem foldlM_appendLine (known : ∀ r ∈ rs, r.type ≤ 5) : ∀ text : List Char,
    rs.foldlM appendLine (text,false) = some (text ++ rs.flatMap fun r => '\n' :: r.line,false) := by
  induction rs with
  | nil => simp
  | cons r rs ih =>
    intro text
    obtain ⟨first,rest⟩ := List.forall_mem_cons.mp known
    rw [List.foldlM_cons,appendLine_eq first,Option.bind_eq_bind,Option.bind_some,ih rest]
    simp

theorem joined_cons (r : CollectedReport) (rs : List CollectedReport) :
    ['\n'].intercalate ((r :: rs).map line) = r.line ++ rs.flatMap fun r => '\n' :: r.line := by
  induction rs generalizing r with
  | nil => simp
  | cons r' rs ih =>
    have tail := ih r'
    rw [List.map_cons] at tail
    rw [List.map_cons,List.map_cons,List.intercalate_cons_cons,tail]
    simp

/-- The text is the lines of the sorted reports, joined by newlines. -/
theorem buildCanonicalText_eq (known : ∀ r ∈ rs, r.type ≤ 5) :
    buildCanonicalText rs = some (['\n'].intercalate ((stableSort rs).map line)) := by
  have known' : ∀ r ∈ stableSort rs, r.type ≤ 5 := fun r member => known r ((List.perm_insertionSort _ rs).mem_iff.mp member)
  unfold buildCanonicalText
  cases sorted : stableSort rs with
  | nil => rfl
  | cons r rs' =>
    rw [sorted] at known'
    obtain ⟨first,rest⟩ := List.forall_mem_cons.mp known'
    rw [List.foldlM_cons,appendLine_eq first,Option.bind_eq_bind,Option.bind_some,foldlM_appendLine rest,joined_cons]
    rfl

/-- Texts are equal if the lists of lines are. -/
theorem text_inj : ['\n'].intercalate (rs.map line) = ['\n'].intercalate (rs'.map line) ↔ rs.map line = rs'.map line := by
  refine ⟨?_,fun same => by rw [same]⟩
  intro same
  have lines : ∀ rs : List CollectedReport, ∀ l ∈ rs.map line, '\n' ∉ l ∧ l ≠ [] := by
    intro rs l member
    obtain ⟨r,_,rfl⟩ := List.mem_map.mp member
    exact ⟨newline_notin_line r,line_ne_nil r⟩
  have empty : ∀ rs : List CollectedReport, ['\n'].intercalate (rs.map line) = [] → rs.map line = [] := by
    intro rs none
    by_contra some
    exact joined_ne_nil some (fun l member => (lines rs l member).2) none
  by_cases none : rs.map line = []
  · rw [none] at same ⊢
    exact (empty rs' same.symm).symm
  · by_cases none' : rs'.map line = []
    · rw [none'] at same ⊢
      exact empty rs same
    · exact (joined_inj (fun l member => (lines rs l member).1) (fun l member => (lines rs' l member).1) none none').mp same

/-! ## The order of the lines -/

/-- What the sort compares. -/
def sortKey (r : CollectedReport) : ℕ ×ₗ ℕ := toLex (r.seq.toNat,r.type.toNat)

theorem before_iff : r.before r' ↔ r.sortKey < r'.sortKey := by
  rw [sortKey,sortKey,Prod.Lex.toLex_lt_toLex,before,← UInt64.lt_iff_toNat_lt,UInt64.toNat_inj,← UInt8.lt_iff_toNat_lt]
  by_cases same : r.seq = r'.seq
  · simp [same]
  · simp [same]

theorem stableSort_eq (rs : List CollectedReport) : stableSort rs = sortBy sortKey rs := by
  unfold stableSort sortBy
  congr 1
  funext a b
  rw [before_iff,not_lt]

theorem sortKey_iff (r : CollectedReport) (seq : UInt64) (type : UInt8) :
    r.sortKey = toLex (seq.toNat,type.toNat) ↔ r.seq = seq ∧ r.type = type := by
  rw [sortKey,EmbeddingLike.apply_eq_iff_eq,Prod.mk.injEq,UInt64.toNat_inj,UInt8.toNat_inj]

/-- Reports of which each message has the same ones of each type, in the same order, are sorted alike. -/
theorem stableSort_interleaved (same : ∀ seq type, rs.filter (fun r => r.seq = seq ∧ r.type = type) =
    rs'.filter fun r => r.seq = seq ∧ r.type = type) : stableSort rs = stableSort rs' := by
  rw [stableSort_eq,stableSort_eq,sortBy_eq_iff]
  intro k
  by_cases occurs : ∃ r ∈ rs ++ rs', r.sortKey = k
  · obtain ⟨r,_,rfl⟩ := occurs
    simp only [fiber,sortKey_iff _ r.seq r.type,← same r.seq r.type,show r.sortKey = toLex (r.seq.toNat,r.type.toNat) from rfl]
  · rw [fiber_eq_nil fun r member isKey => occurs ⟨r,List.mem_append_left _ member,isKey⟩,
      fiber_eq_nil fun r member isKey => occurs ⟨r,List.mem_append_right _ member,isKey⟩]

theorem lines_eq_iff (known : ∀ r ∈ rs, r.type ≤ 5) (known' : ∀ r ∈ rs', r.type ≤ 5) :
    rs.map line = rs'.map line ↔ List.Forall₂ Agree rs rs' := by
  induction rs generalizing rs' with
  | nil =>
    cases rs' with
    | nil => exact ⟨fun _ => .nil,fun _ => rfl⟩
    | cons r' rs' => exact ⟨fun same => (List.cons_ne_nil _ _ same.symm).elim,fun agree => by cases agree⟩
  | cons r rs ih =>
    cases rs' with
    | nil => exact ⟨fun same => (List.cons_ne_nil _ _ same).elim,fun agree => by cases agree⟩
    | cons r' rs' =>
      obtain ⟨first,rest⟩ := List.forall_mem_cons.mp known
      obtain ⟨first',rest'⟩ := List.forall_mem_cons.mp known'
      rw [List.map_cons,List.map_cons,List.cons_eq_cons,line_inj first first',ih rest rest',List.forall₂_cons]

/-- The lines of reports of the six types fit. The texts of two streams are equal if and only if as many reports
    are in them and these, when they are sorted, agree one by one on their types and on what is printed of them; in
    particular if each message has the same reports of each type in the same order. -/
theorem canonical_text_exact (known : ∀ r ∈ rs, r.type ≤ 5) (known' : ∀ r ∈ rs', r.type ≤ 5) :
    (∀ r ∈ rs, ∃ format args line, r.format = some (format,args) ∧ printf format args = some line ∧ line.length < lineSize) ∧
    ∃ text text', buildCanonicalText rs = some text ∧ buildCanonicalText rs' = some text' ∧
      (text = text' ↔ List.Forall₂ Agree (stableSort rs) (stableSort rs')) ∧
      ((∀ seq type, rs.filter (fun r => r.seq = seq ∧ r.type = type) = rs'.filter fun r => r.seq = seq ∧ r.type = type) →
        text = text') := by
  have sorted : ∀ {rs : List CollectedReport}, (∀ r ∈ rs, r.type ≤ 5) → ∀ r ∈ stableSort rs, r.type ≤ 5 :=
    fun {rs} known r member => known r ((List.perm_insertionSort _ rs).mem_iff.mp member)
  refine ⟨?_,_,_,buildCanonicalText_eq known,buildCanonicalText_eq known',?_,?_⟩
  · intro r member
    obtain ⟨format,args,isFormat,printed⟩ := printf_format (known r member)
    exact ⟨format,args,r.line,isFormat,printed,length_line r⟩
  · rw [text_inj,lines_eq_iff (sorted known) (sorted known')]
  · intro same
    rw [stableSort_interleaved same]

/-- An acknowledgement and a trade of one message, and the same reports the other way around. -/
theorem canonical_text_exact_swapped :
    let ack : CollectedReport := ⟨0,7,1,3,-2,5,0,0⟩
    let trade : CollectedReport := ⟨1,7,0,0,100,5,2,3⟩
    (∀ r ∈ [ack,trade], ∃ format args line, r.format = some (format,args) ∧ printf format args = some line ∧ line.length < lineSize) ∧
    ∃ text text', buildCanonicalText [ack,trade] = some text ∧ buildCanonicalText [trade,ack] = some text' ∧
      (text = text' ↔ List.Forall₂ Agree (stableSort [ack,trade]) (stableSort [trade,ack])) ∧
      ((∀ seq type, [ack,trade].filter (fun r => r.seq = seq ∧ r.type = type) =
        [trade,ack].filter fun r => r.seq = seq ∧ r.type = type) → text = text') :=
  canonical_text_exact (by decide) (by decide)

example : buildCanonicalText [⟨1,7,0,0,100,5,2,3⟩,⟨0,7,1,3,-2,5,0,0⟩] = some "0,7,1,3,-2,5\n1,7,100,5,2,3".toList := by decide

end CollectedReport

end BaboEngine
