import BaboEngine.CanonicalHash
import BaboEngine.OrderedMap
import Mathlib.Data.Char
import Mathlib.Data.List.Lex
import Mathlib.Data.List.TakeWhile

/-!
# The reference file

`reference/correctness_hash.txt` has a line for every hash that has been published. The
harness reads it into a map, skipping what is not a hash and a tag; `--write-reference` adds
its own entry and writes the map back. Whatever the file held, this changes the entry of its
tag and no other (`reference_update`), if `sscanf` can read the tag.
-/

namespace BaboEngine.ReferenceFile
open OrderedMap

/-- The entries, by tag. -/
abbrev Entries := OrderedMap (List Char) (List Char)

/-- `line[512]`. -/
def lineSize : Nat := 512

/-- The width in `%255s`. -/
def width : Nat := 255

/-! ## Reading -/

/-- The characters up to a newline, at most `n` of them. -/
def takeLine : Nat → List Char → List Char
  | 0, _ => []
  | _, [] => []
  | n + 1, c :: cs => if c = '\n' then [c] else c :: takeLine n cs

/-- What successive calls of `fgets` read; each one reads a character at least. -/
def fgetsLoop : Nat → List Char → List (List Char)
  | 0, _ => []
  | rounds + 1, cs =>
    if cs.isEmpty then []
    else takeLine (lineSize - 1) cs :: fgetsLoop rounds (cs.drop (takeLine (lineSize - 1) cs).length)

/-- `isspace` in the C locale. -/
def isSpace (c : Char) : Bool := c = ' ' || (9 ≤ c.toNat && c.toNat ≤ 13)

/-- `%255s`, with what it leaves of the line. -/
def scanString (cs : List Char) : Option (List Char × List Char) :=
  let cs := cs.dropWhile isSpace
  let token := (cs.takeWhile fun c => !isSpace c).take width
  if token.isEmpty then none else some (token,cs.drop token.length)

def hexDigits : List Char := "0123456789abcdef".toList

/-- The tag and the hash of a line, up to its first zero character. -/
def entryOf (line : List Char) : Option (List Char × List Char) := do
  let (hash,cs) ← scanString (line.takeWhile (· ≠ '\x00'))
  let (tag,_) ← scanString cs
  if hash.length ≠ 64 ∨ hash.any (· ∉ hexDigits) then none else some (tag,hash)

/-- `read_hash_file`. -/
def readHashFile (file : List Char) : Entries :=
  ((fgetsLoop file.length file).filterMap entryOf).foldl (fun out e => out.insert e.1 e.2) .empty

/-! ## Writing -/

/-- `"%s  %s\n"` with the hash and the tag. -/
def printEntry (e : List Char × List Char) : List Char := e.2 ++ ' ' :: ' ' :: e.1 ++ ['\n']

def printEntries (m : Entries) : List Char := m.entries.flatMap printEntry

/-- The file after `--write-reference`. -/
def writeReference (file wantTag computed : List Char) : List Char := printEntries ((readHashFile file).insert wantTag computed)

def wantTag (scenario : List Char) (seed : Nat) : List Char :=
  scenario ++ "_seed".toList ++ Nat.toDigits 10 seed ++ "_reports.txt".toList

/-! ## Entries -/

/-- Characters are checked one by one; there are too many to check a statement about all of them. -/
theorem forall_of_all {p : Char → Prop} [DecidablePred p] {cs : List Char} (all : cs.all (fun c => p c) = true) : ∀ c ∈ cs, p c :=
  fun c member => of_decide_eq_true (List.all_eq_true.mp all c member)

/-- A string that `%s` reads whole, if it is short. -/
structure Word (cs : List Char) : Prop where
  some : cs ≠ []
  plain : ∀ c ∈ cs, isSpace c = false ∧ c ≠ '\x00'

structure IsHash (hash : List Char) : Prop where
  length : hash.length = 64
  digits : ∀ c ∈ hash, c ∈ hexDigits

theorem IsHash.word {hash : List Char} (isHash : IsHash hash) : Word hash := by
  have plain : ∀ c ∈ hexDigits, isSpace c = false ∧ c ≠ '\x00' := forall_of_all (by decide)
  refine ⟨?_,fun c member => plain c (isHash.digits c member)⟩
  rintro rfl
  exact absurd isHash.length (by decide)

/-- An entry that can be read back. -/
structure Readable (e : List Char × List Char) : Prop where
  tag : Word e.1
  short : e.1.length ≤ width
  hash : IsHash e.2

variable {e : List Char × List Char} {cs rest token : List Char}

theorem scanString_spaces (spaces : List Char) (blank : ∀ c ∈ spaces, isSpace c = true) (word : Word token) (short : token.length ≤ width)
    (ends : ∀ c ∈ rest.head?, isSpace c = true) : scanString (spaces ++ token ++ rest) = some (token,rest) := by
  obtain ⟨some',plain⟩ := word
  have skipped : (spaces ++ token ++ rest).dropWhile isSpace = token ++ rest := by
    rw [List.append_assoc,List.dropWhile_append_of_pos blank]
    cases token with
    | nil => exact absurd rfl some'
    | cons c token => exact List.dropWhile_cons_of_neg (by simp [(plain c List.mem_cons_self).1])
  have read : (token ++ rest).takeWhile (fun c => !isSpace c) = token := by
    rw [List.takeWhile_append_of_pos fun c member => by simp [(plain c member).1]]
    cases rest with
    | nil => exact List.append_nil _
    | cons c rest =>
      rw [List.takeWhile_cons_of_neg (by simpa using ends c rfl),List.append_nil]
  unfold scanString
  simp only [skipped,read,List.take_of_length_le short,List.isEmpty_iff,some',if_false,List.drop_left]

theorem entryOf_printEntry (readable : Readable e) : entryOf (printEntry e) = some e := by
  obtain ⟨tag,short,hash⟩ := readable
  have plain : ∀ c ∈ printEntry e, c ≠ '\x00' := by
    intro c member
    simp only [printEntry,List.append_assoc,List.cons_append,List.mem_append,List.mem_cons,List.not_mem_nil,or_false] at member
    rcases member with inHash | rfl | rfl | inTag | rfl
    · exact (hash.word.plain c inHash).2
    · decide
    · decide
    · exact (tag.plain c inTag).2
    · decide
  have whole : (printEntry e).takeWhile (· ≠ '\x00') = printEntry e := List.takeWhile_eq_self_iff.mpr fun c member => by simpa using plain c member
  have first : scanString (printEntry e) = some (e.2,' ' :: ' ' :: e.1 ++ ['\n']) := by
    have scanned : scanString ([] ++ e.2 ++ (' ' :: ' ' :: e.1 ++ ['\n'])) = some (e.2,' ' :: ' ' :: e.1 ++ ['\n']) :=
      scanString_spaces [] (by simp) hash.word (by rw [hash.length]; decide) (by simp [isSpace])
    simpa [printEntry] using scanned
  have second : scanString (' ' :: ' ' :: e.1 ++ ['\n']) = some (e.1,['\n']) :=
    scanString_spaces [' ',' '] (by simp [isSpace]) tag short (by simp [isSpace])
  have good : ¬ (e.2.length ≠ 64 ∨ e.2.any (· ∉ hexDigits)) := by
    rw [List.any_eq_true]
    rintro (other | ⟨c,member,bad⟩)
    · exact other hash.length
    · exact of_decide_eq_true bad (hash.digits c member)
  simp only [entryOf,whole,first,second,Option.bind_eq_bind,Option.bind_some,good,if_false]

theorem takeLine_printed {line : List Char} : ∀ n, (∀ c ∈ line, c ≠ '\n') → line.length < n →
    takeLine n (line ++ '\n' :: rest) = line ++ ['\n'] := by
  induction line with
  | nil =>
    rintro (_ | n) _ long
    · simp at long
    · simp [takeLine]
  | cons c line ih =>
    rintro (_ | n) plain long
    · simp at long
    · obtain ⟨first,later⟩ := List.forall_mem_cons.mp plain
      rw [List.cons_append,takeLine,if_neg first,ih n later (Nat.lt_of_succ_lt_succ long)]
      rfl

/-- The lines of printed entries are read one by one. -/
theorem fgetsLoop_printed {es : List (List Char × List Char)} : ∀ rounds, (∀ e ∈ es, Readable e) → es.length ≤ rounds →
    fgetsLoop rounds (es.flatMap printEntry) = es.map printEntry := by
  induction es with
  | nil => rintro (_ | rounds) _ _ <;> rfl
  | cons e es ih =>
    rintro (_ | rounds) readable enough
    · simp at enough
    · obtain ⟨first,later⟩ := List.forall_mem_cons.mp readable
      have line : takeLine (lineSize - 1) (printEntry e ++ es.flatMap printEntry) = printEntry e := by
        have newline : isSpace '\n' = true := by decide
        have plain : ∀ c ∈ e.2 ++ ' ' :: ' ' :: e.1, c ≠ '\n' := by
          rintro c member rfl
          simp only [List.mem_append,List.mem_cons] at member
          rcases member with inHash | blank | blank | inTag
          · exact absurd (first.hash.word.plain _ inHash).1 (by simp [newline])
          · exact absurd blank (by decide)
          · exact absurd blank (by decide)
          · exact absurd (first.tag.plain _ inTag).1 (by simp [newline])
        have short : (e.2 ++ ' ' :: ' ' :: e.1).length < lineSize - 1 := by
          have tag : e.1.length ≤ 255 := first.short
          have hash := first.hash.length
          simp only [List.length_append,List.length_cons]
          show _ < 511
          omega
        have taken : takeLine (lineSize - 1) ((e.2 ++ ' ' :: ' ' :: e.1) ++ '\n' :: es.flatMap printEntry) = _ :=
          takeLine_printed (lineSize - 1) plain short
        simpa [printEntry] using taken
      have some' : (printEntry e ++ es.flatMap printEntry).isEmpty = false := by simp [printEntry]
      rw [List.flatMap_cons,fgetsLoop,some',if_neg (by decide),line,List.drop_left,ih rounds later (Nat.le_of_succ_le_succ enough)]
      rfl

/-! ## What has been read -/

theorem scanString_some (scanned : scanString cs = some (token,rest)) : token ≠ [] ∧ token.length ≤ width ∧
    (∀ c ∈ token, isSpace c = false ∧ c ∈ cs) ∧ ∀ c ∈ rest, c ∈ cs := by
  unfold scanString at scanned
  dsimp only at scanned
  split_ifs at scanned with none
  obtain ⟨rfl,rfl⟩ := Prod.mk.inj (Option.some.inj scanned)
  have inside : ∀ c ∈ cs.dropWhile isSpace, c ∈ cs := fun c member => (List.dropWhile_suffix _).subset member
  refine ⟨by simpa using none,List.length_take_le _ _,?_,fun c member => inside c (List.mem_of_mem_drop member)⟩
  intro c member
  have read := List.mem_of_mem_take member
  exact ⟨by simpa using List.mem_takeWhile_imp read,inside c ((List.takeWhile_prefix _).subset read)⟩

theorem readable_of_entryOf {line : List Char} (isEntry : entryOf line = some e) : Readable e := by
  obtain ⟨⟨hash,cs⟩,first,isEntry⟩ := Option.bind_eq_some_iff.mp isEntry
  obtain ⟨⟨tag,rest⟩,second,isEntry⟩ := Option.bind_eq_some_iff.mp isEntry
  dsimp only at isEntry
  split_ifs at isEntry with bad
  obtain rfl := Option.some.inj isEntry
  obtain ⟨_,_,_,left⟩ := scanString_some first
  obtain ⟨some',short,plain,_⟩ := scanString_some second
  have notZero : ∀ c ∈ line.takeWhile (· ≠ '\x00'), c ≠ '\x00' := fun c member => by simpa using List.mem_takeWhile_imp member
  rw [not_or,not_not] at bad
  refine ⟨⟨some',fun c member => ⟨(plain c member).1,notZero c (left c (plain c member).2)⟩⟩,short,bad.1,?_⟩
  intro c member
  by_contra other
  exact bad.2 (List.any_eq_true.mpr ⟨c,member,decide_eq_true other⟩)

theorem readable_readHashFile (file : List Char) : ∀ e ∈ (readHashFile file).entries, Readable e := by
  apply mem_foldl_insert (P := Readable)
  · exact fun e member => absurd member List.not_mem_nil
  · intro e member
    obtain ⟨line,_,isEntry⟩ := List.mem_filterMap.mp member
    exact readable_of_entryOf isEntry

/-- What has been written is read back. -/
theorem readHashFile_printEntries {m : Entries} (readable : ∀ e ∈ m.entries, Readable e) : readHashFile (printEntries m) = m := by
  have enough : m.entries.length ≤ (printEntries m).length := by
    unfold printEntries
    induction m.entries with
    | nil => exact le_refl 0
    | cons e es ih =>
      rw [List.flatMap_cons,List.length_append,List.length_cons]
      simp only [printEntry,List.length_append,List.length_singleton]
      omega
  have lines : ((m.entries.map printEntry).filterMap entryOf) = m.entries := by
    rw [List.filterMap_map]
    calc m.entries.filterMap (entryOf ∘ printEntry) = m.entries.filterMap some :=
          List.filterMap_congr fun e member => entryOf_printEntry (readable e member)
      _ = m.entries := List.filterMap_some
  apply OrderedMap.ext
  rw [readHashFile,show fgetsLoop (printEntries m).length (printEntries m) = _ from fgetsLoop_printed _ readable enough,lines]
  exact foldl_insert m.entries .empty m.ascending

/-! ## The reference of a scenario -/

/-- What the harness lets through as the name of a scenario. -/
structure IsScenario (scenario : List Char) : Prop where
  some : scenario ≠ []
  allowed : ∀ c ∈ scenario, c ∈ "abcdefghijklmnopqrstuvwxyzABCDEFGHIJKLMNOPQRSTUVWXYZ0123456789_-".toList

theorem plain_of_isDigit {c : Char} (digit : c.isDigit = true) : isSpace c = false ∧ c ≠ '\x00' := by
  simp only [Char.isDigit,Bool.and_eq_true,decide_eq_true_eq] at digit
  have low : 48 ≤ c.toNat := digit.1
  have other : ∀ d : Char, d.toNat < 48 → c ≠ d := by
    rintro d small rfl
    omega
  refine ⟨?_,other '\x00' (by decide)⟩
  have notBlank := other ' ' (by decide)
  simp only [isSpace,Bool.or_eq_false_iff,Bool.and_eq_false_imp,decide_eq_false_iff_not,decide_eq_true_eq]
  exact ⟨notBlank,fun _ => by omega⟩

theorem IsScenario.word {scenario : List Char} (isScenario : IsScenario scenario) (seed : Nat) : Word (wantTag scenario seed) := by
  refine ⟨by simp [wantTag,isScenario.some],?_⟩
  have allowed : ∀ c ∈ "abcdefghijklmnopqrstuvwxyzABCDEFGHIJKLMNOPQRSTUVWXYZ0123456789_-".toList, isSpace c = false ∧ c ≠ '\x00' :=
    forall_of_all (by decide)
  have texts : ∀ c ∈ "_seed".toList ++ "_reports.txt".toList, isSpace c = false ∧ c ≠ '\x00' := forall_of_all (by decide)
  intro c member
  simp only [wantTag,List.mem_append] at member
  rcases member with ((inScenario | inText) | inSeed) | inText
  · exact allowed c (isScenario.allowed c inScenario)
  · exact texts c (List.mem_append_left _ inText)
  · exact plain_of_isDigit (DecimalText.digit_of_mem inSeed)
  · exact texts c (List.mem_append_right _ inText)

theorem readHashFile_writeReference {file tag computed : List Char} (word : Word tag) (short : tag.length ≤ width) (isHash : IsHash computed) :
    readHashFile (writeReference file tag computed) = (readHashFile file).insert tag computed := by
  apply readHashFile_printEntries
  intro e member
  cases mem_insertEntry member with
  | inl isNew => exact isNew ▸ ⟨word,short,isHash⟩
  | inr isOld => exact readable_readHashFile file e isOld

/-- `--write-reference` replaces the entry of its tag and keeps the others, whatever the file held, provided that the tag is one that
    `sscanf` reads whole; a longer one is never found again. -/
theorem reference_update {scenario : List Char} (isScenario : IsScenario scenario) (seed : Nat) (file : List Char) {computed : List Char}
    (isHash : IsHash computed) :
    ((readHashFile (writeReference file (wantTag scenario seed) computed)).find? (wantTag scenario seed) = some computed ↔
      (wantTag scenario seed).length ≤ width) ∧
    ((wantTag scenario seed).length ≤ width → ∀ tag ≠ wantTag scenario seed,
      (readHashFile (writeReference file (wantTag scenario seed) computed)).find? tag = (readHashFile file).find? tag) := by
  have found := find?_insert (readHashFile file) (wantTag scenario seed) computed
  by_cases short : (wantTag scenario seed).length ≤ width
  · rw [readHashFile_writeReference (isScenario.word seed) short isHash]
    exact ⟨⟨fun _ => short,fun _ => by rw [found,if_pos rfl]⟩,fun _ tag other => by rw [found,if_neg other]⟩
  · refine ⟨⟨fun isFound => absurd ?_ short,fun fits => absurd fits short⟩,fun fits => absurd fits short⟩
    exact (readable_readHashFile _ _ (mem_of_find? isFound)).short

/-- The canonical scenario, in a file that begins with a line that is not an entry. -/
theorem reference_update_normal :
    let file := "no reference yet\n".toList
    let computed := List.replicate 64 'a'
    ((readHashFile (writeReference file (wantTag "normal".toList 23) computed)).find? (wantTag "normal".toList 23) = some computed ↔
      (wantTag "normal".toList 23).length ≤ width) ∧
    ((wantTag "normal".toList 23).length ≤ width → ∀ tag ≠ wantTag "normal".toList 23,
      (readHashFile (writeReference file (wantTag "normal".toList 23) computed)).find? tag = (readHashFile file).find? tag) :=
  reference_update ⟨by decide,forall_of_all (by decide)⟩ 23 _ ⟨by decide,forall_of_all (by decide)⟩

end BaboEngine.ReferenceFile
