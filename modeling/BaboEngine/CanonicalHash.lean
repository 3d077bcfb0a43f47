import BaboEngine.CanonicalText
import BaboEngine.Sha256

/-!
# The canonical hash of a report stream

`compute_canonical_hash` of `correctness.cpp` is the SHA-256 of the canonical text. Streams
that agree have the same hash, whatever the stack held; streams of the same hash agree, or two
compressions among those of the two texts collide (`canonical_hash_exact`).
-/

namespace BaboEngine
open DecimalText

/-- The bytes of a text; all its characters are ASCII. -/
def textBytes (text : List Char) : List UInt8 := text.map fun c => UInt8.ofNat c.toNat

theorem textBytes_injective {text : List Char} : ∀ {text' : List Char}, (∀ c ∈ text, c.toNat < 256) → (∀ c ∈ text', c.toNat < 256) →
    textBytes text = textBytes text' → text = text' := by
  induction text with
  | nil =>
    rintro (_ | ⟨c',text'⟩) _ _ same
    · rfl
    · simp [textBytes] at same
  | cons c text ih =>
    rintro (_ | ⟨c',text'⟩) ascii ascii' same
    · simp [textBytes] at same
    · obtain ⟨first,rest⟩ := List.forall_mem_cons.mp ascii
      obtain ⟨first',rest'⟩ := List.forall_mem_cons.mp ascii'
      obtain ⟨byte,bytes⟩ := List.cons.inj same
      have code := congrArg UInt8.toNat byte
      rw [UInt8.toNat_ofNat_of_lt' first,UInt8.toNat_ofNat_of_lt' first'] at code
      rw [Char.toNat_inj.mp code,ih rest rest' bytes]

namespace CollectedReport
variable {rs rs' : List CollectedReport}

/-- `compute_canonical_hash`, on a stack that holds `buf` where the context goes. -/
def computeCanonicalHash (buf : List UInt8) (size : buf.length = 64) (rs : List CollectedReport) : Option (List Char) :=
  (buildCanonicalText rs).map fun text => Sha256.hex buf size (textBytes text)

/-- The lines of the sorted reports. -/
def canonicalText (rs : List CollectedReport) : List Char := ['\n'].intercalate ((stableSort rs).map line)

theorem computeCanonicalHash_eq (buf : List UInt8) (size : buf.length = 64) (known : ∀ r ∈ rs, r.type ≤ 5) :
    computeCanonicalHash buf size rs = some (Sha256.hexDigits (Sha256.digest (textBytes (canonicalText rs)))) := by
  rw [computeCanonicalHash,buildCanonicalText_eq known,Option.map_some,Sha256.hex_eq]
  rfl

theorem ascii_canonicalText (rs : List CollectedReport) : ∀ c ∈ canonicalText rs, c.toNat < 256 := by
  have small : ∀ c : Char, c.isDigit = true → c.toNat < 256 := by
    intro c digit
    simp only [Char.isDigit,Bool.and_eq_true,decide_eq_true_eq] at digit
    have high : c.val.toNat ≤ 57 := digit.2
    show c.val.toNat < 256
    omega
  intro c member
  rcases mem_joined member with rfl | ⟨l,inLines,inLine⟩
  · decide
  · obtain ⟨r,_,rfl⟩ := List.mem_map.mp inLines
    rcases mem_joined inLine with rfl | ⟨cell,inCells,inCell⟩
    · decide
    · obtain ⟨i,_,rfl⟩ := List.mem_map.mp inCells
      rcases mem_decimal inCell with digit | rfl
      · exact small c digit
      · decide

theorem length_canonicalText (rs : List CollectedReport) : (canonicalText rs).length ≤ rs.length * lineSize := by
  have each : ∀ l ∈ (stableSort rs).map line, l.length ≤ 159 := by
    intro l member
    obtain ⟨r,_,rfl⟩ := List.mem_map.mp member
    exact Nat.le_of_lt_succ (length_line r)
  have bound : (canonicalText rs).length ≤ ((stableSort rs).map line).length * 160 := length_joined each
  rw [List.length_map] at bound
  rwa [show (stableSort rs).length = rs.length from List.length_insertionSort _ rs] at bound

/-- The texts of two streams are equal if their sorted reports agree. -/
theorem canonicalText_inj (known : ∀ r ∈ rs, r.type ≤ 5) (known' : ∀ r ∈ rs', r.type ≤ 5) :
    canonicalText rs = canonicalText rs' ↔ List.Forall₂ Agree (stableSort rs) (stableSort rs') := by
  have sorted : ∀ {rs : List CollectedReport}, (∀ r ∈ rs, r.type ≤ 5) → ∀ r ∈ stableSort rs, r.type ≤ 5 :=
    fun {rs} known r member => known r ((List.perm_insertionSort _ rs).mem_iff.mp member)
  rw [canonicalText,canonicalText,text_inj,lines_eq_iff (sorted known) (sorted known')]

/-- The hashes of two streams are what the harness takes for a hash, 64 lowercase hexadecimal digits. They are equal if the sorted
    reports agree, and only then unless the compressions of the two texts collide. -/
theorem canonical_hash_exact (buf buf' : List UInt8) (size : buf.length = 64) (size' : buf'.length = 64)
    (known : ∀ r ∈ rs, r.type ≤ 5) (known' : ∀ r ∈ rs', r.type ≤ 5) (few : rs.length < 2 ^ 53) (few' : rs'.length < 2 ^ 53) :
    ∃ hash hash', computeCanonicalHash buf size rs = some hash ∧ computeCanonicalHash buf' size' rs' = some hash' ∧
      (hash.length = 64 ∧ ∀ c ∈ hash, c ∈ "0123456789abcdef".toList) ∧
      (List.Forall₂ Agree (stableSort rs) (stableSort rs') → hash = hash') ∧
      (hash = hash' → List.Forall₂ Agree (stableSort rs) (stableSort rs') ∨
        Sha256.CollideOn (textBytes (canonicalText rs)) (textBytes (canonicalText rs'))) := by
  refine ⟨_,_,computeCanonicalHash_eq buf size known,computeCanonicalHash_eq buf' size' known',Sha256.hexDigits_digest _,?_,?_⟩
  · intro agree
    rw [(canonicalText_inj known known').mpr agree]
  · intro same
    have short : ∀ rs : List CollectedReport, rs.length < 2 ^ 53 → (textBytes (canonicalText rs)).length < 2 ^ 61 := by
      intro rs few
      have bound := length_canonicalText rs
      rw [textBytes,List.length_map]
      unfold lineSize at bound
      omega
    cases Sha256.digest_eq_or_collide (short rs few) (short rs' few') (Sha256.hexDigits_injective same) with
    | inl bytes =>
      have text := textBytes_injective (ascii_canonicalText rs) (ascii_canonicalText rs') bytes
      exact .inl ((canonicalText_inj known known').mp text)
    | inr collide => exact .inr collide

/-- A trade, and the same trade of another maker. -/
theorem canonical_hash_exact_makers :
    let trade : CollectedReport := ⟨1,7,0,0,100,5,2,3⟩
    let other : CollectedReport := ⟨1,7,0,0,100,5,4,3⟩
    ∃ hash hash', computeCanonicalHash (List.replicate 64 0) rfl [trade] = some hash ∧
      computeCanonicalHash (List.replicate 64 255) rfl [other] = some hash' ∧
      (hash.length = 64 ∧ ∀ c ∈ hash, c ∈ "0123456789abcdef".toList) ∧
      (List.Forall₂ Agree (stableSort [trade]) (stableSort [other]) → hash = hash') ∧
      (hash = hash' → List.Forall₂ Agree (stableSort [trade]) (stableSort [other]) ∨
        Sha256.CollideOn (textBytes (canonicalText [trade])) (textBytes (canonicalText [other]))) :=
  canonical_hash_exact _ _ rfl rfl (by decide) (by decide) (by decide) (by decide)

end CollectedReport

end BaboEngine
