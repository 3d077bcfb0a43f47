import BaboEngine.LittleEndian
import BaboEngine.MerkleDamgard

/-!
# SHA-256

The functions of `sha256.c`. A context reads a message in pieces of any sizes; what
`sha256_final` returns is the compression function folded over the padded message
(`final_eq`), and equal digests of two messages are of equal messages or show two
compressions that collide (`digest_eq_or_collide`).
-/

namespace BaboEngine.Sha256
open LittleEndian MerkleDamgard

/-! ## The compression function -/

def rotr (x n : UInt32) : UInt32 := (x >>> n) ||| (x <<< (32 - n))
def ch (x y z : UInt32) : UInt32 := (x &&& y) ^^^ (~~~x &&& z)
def maj (x y z : UInt32) : UInt32 := (x &&& y) ^^^ (x &&& z) ^^^ (y &&& z)
def ep0 (x : UInt32) : UInt32 := rotr x 2 ^^^ rotr x 13 ^^^ rotr x 22
def ep1 (x : UInt32) : UInt32 := rotr x 6 ^^^ rotr x 11 ^^^ rotr x 25
def sig0 (x : UInt32) : UInt32 := rotr x 7 ^^^ rotr x 18 ^^^ (x >>> 3)
def sig1 (x : UInt32) : UInt32 := rotr x 17 ^^^ rotr x 19 ^^^ (x >>> 10)

/-- The table `K`. -/
def roundConstants : List UInt32 := [
  0x428a2f98,0x71374491,0xb5c0fbcf,0xe9b5dba5,0x3956c25b,0x59f111f1,
  0x923f82a4,0xab1c5ed5,0xd807aa98,0x12835b01,0x243185be,0x550c7dc3,
  0x72be5d74,0x80deb1fe,0x9bdc06a7,0xc19bf174,0xe49b69c1,0xefbe4786,
  0x0fc19dc6,0x240ca1cc,0x2de92c6f,0x4a7484aa,0x5cb0a9dc,0x76f988da,
  0x983e5152,0xa831c66d,0xb00327c8,0xbf597fc7,0xc6e00bf3,0xd5a79147,
  0x06ca6351,0x14292967,0x27b70a85,0x2e1b2138,0x4d2c6dfc,0x53380d13,
  0x650a7354,0x766a0abb,0x81c2c92e,0x92722c85,0xa2bfe8a1,0xa81a664b,
  0xc24b8b70,0xc76c51a3,0xd192e819,0xd6990624,0xf40e3585,0x106aa070,
  0x19a4c116,0x1e376c08,0x2748774c,0x34b0bcb5,0x391c0cb3,0x4ed8aa4a,
  0x5b9cca4f,0x682e6ff3,0x748f82ee,0x78a5636f,0x84c87814,0x8cc70208,
  0x90befffa,0xa4506ceb,0xbef9a3f7,0xc67178f2]

/-- `state[8]`. -/
structure Words where
  a : UInt32
  b : UInt32
  c : UInt32
  d : UInt32
  e : UInt32
  f : UInt32
  g : UInt32
  h : UInt32
deriving DecidableEq

/-- The first 16 words of `w`. -/
def loadWords (p : List UInt8) : List UInt32 := (List.range 16).map fun i =>
  ((p.getD (i * 4) 0).toUInt32 <<< 24) ||| ((p.getD (i * 4 + 1) 0).toUInt32 <<< 16) |||
    ((p.getD (i * 4 + 2) 0).toUInt32 <<< 8) ||| (p.getD (i * 4 + 3) 0).toUInt32

/-- `w[64]`. -/
def schedule (p : List UInt8) : List UInt32 := (List.range' 16 48).foldl
  (fun w i => w ++ [sig1 (w.getD (i - 2) 0) + w.getD (i - 7) 0 + sig0 (w.getD (i - 15) 0) + w.getD (i - 16) 0]) (loadWords p)

/-- A round, with `K[i]` and `w[i]`. -/
def round (s : Words) (k : UInt32 × UInt32) : Words :=
  let t1 := s.h + ep1 s.e + ch s.e s.f s.g + k.1 + k.2
  let t2 := ep0 s.a + maj s.a s.b s.c
  ⟨t1 + t2,s.a,s.b,s.c,s.d + t1,s.e,s.f,s.g⟩

def transform (s : Words) (p : List UInt8) : Words :=
  let t := (roundConstants.zip (schedule p)).foldl round s
  ⟨s.a + t.a,s.b + t.b,s.c + t.c,s.d + t.d,s.e + t.e,s.f + t.f,s.g + t.g,s.h + t.h⟩

/-! ## Contexts -/

/-- `sha256_ctx`; less than a block is waiting in the buffer. -/
structure Ctx where
  state : Words
  bitlen : UInt64
  buf : List UInt8
  buflen : Nat
  size : buf.length = 64
  short : buflen < 64

/-- What `memcpy` and the stores leave of a buffer. -/
def store (buf : List UInt8) (i : Nat) (bs : List UInt8) : List UInt8 := buf.take i ++ bs ++ buf.drop (i + bs.length)

theorem length_store {buf : List UInt8} {i : Nat} {bs : List UInt8} (fits : i + bs.length ≤ buf.length) :
    (store buf i bs).length = buf.length := by
  unfold store
  simp only [List.length_append,List.length_take,List.length_drop]
  omega

theorem take_store {buf : List UInt8} {i : Nat} {bs : List UInt8} (fits : i + bs.length ≤ buf.length) :
    (store buf i bs).take (i + bs.length) = buf.take i ++ bs := by
  have length : (buf.take i ++ bs).length = i + bs.length := by
    rw [List.length_append,List.length_take]
    omega
  unfold store
  rw [← length,List.take_left]

def initial : Words :=
  ⟨0x6a09e667,0xbb67ae85,0x3c6ef372,0xa54ff53a,0x510e527f,0x9b05688c,0x1f83d9ab,0x5be0cd19⟩

/-- `sha256_init`; the buffer is left as it is. -/
def init (buf : List UInt8) (size : buf.length = 64) : Ctx := ⟨initial,0,buf,0,size,by decide⟩

/-- A round of the loop of `sha256_update`, which takes the first bytes. -/
def absorb (c : Ctx) (p : List UInt8) : Ctx :=
  let taken := p.take (64 - c.buflen)
  have fits : c.buflen + taken.length ≤ c.buf.length := by
    have size := c.size
    have short := c.short
    rw [List.length_take]
    omega
  let buf := store c.buf c.buflen taken
  have size : buf.length = 64 := (length_store fits).trans c.size
  if full : c.buflen + taken.length = 64 then ⟨transform c.state buf,c.bitlen + 512,buf,0,size,by decide⟩
  else ⟨c.state,c.bitlen,buf,c.buflen + taken.length,size,by have := c.size; omega⟩

/-- The loop of `sha256_update`. A round takes a byte at least, so there are no more rounds than bytes. -/
def updateLoop : Nat → Ctx → List UInt8 → Ctx
  | 0, c, _ => c
  | rounds + 1, c, p => if p.isEmpty then c else updateLoop rounds (absorb c p) (p.drop (64 - c.buflen))

def update (c : Ctx) (data : List UInt8) : Ctx := updateLoop data.length c data

/-- The bytes of `(uint8_t)(bits >> (s * 8))` for `s` from 7 down. -/
def lengthBytes (bits : UInt64) : List UInt8 := ([7,6,5,4,3,2,1,0] : List UInt64).map fun s => (bits >>> (s * 8)).toUInt8

def digestBytes (s : Words) : List UInt8 := [s.a,s.b,s.c,s.d,s.e,s.f,s.g,s.h].flatMap fun x : UInt32 =>
  [(x >>> 24).toUInt8,(x >>> 16).toUInt8,(x >>> 8).toUInt8,x.toUInt8]

def final (c : Ctx) : List UInt8 :=
  let bits := c.bitlen + UInt64.ofNat c.buflen * 8
  let buf := store c.buf c.buflen [0x80]
  let i := c.buflen + 1
  let (state,buf,i) := if i > 56 then
      let buf := store buf i (List.replicate (64 - i) 0)
      (transform c.state buf,buf,0)
    else (c.state,buf,i)
  let buf := store buf i (List.replicate (56 - i) 0)
  let buf := store buf 56 (lengthBytes bits)
  digestBytes (transform state buf)

def hexDigit (n : Nat) : Char := "0123456789abcdef".toList.getD n '0'

/-- The loop over the bytes of a digest. -/
def hexDigits (digest : List UInt8) : List Char := digest.flatMap fun b : UInt8 => [hexDigit (b >>> 4).toNat,hexDigit (b &&& 0xf).toNat]

/-- `sha256_hex`, on a stack that holds `buf`. -/
def hex (buf : List UInt8) (size : buf.length = 64) (data : List UInt8) : List Char := hexDigits (final (update (init buf size) data))

example : hex (List.replicate 64 7) rfl [97,98,99] = "ba7816bf8f01cfea414140de5dae2223b00361a396177a9cb410ff61f20015ad".toList := by
  decide +kernel

/-! ## What a context has read -/

/-- The context has compressed the blocks `bs`, and with what waits in its buffer they are the bytes `xs`. -/
structure Reads (c : Ctx) (bs : List (List UInt8)) (xs : List UInt8) : Prop where
  full : ∀ b ∈ bs, b.length = 64
  bytes : xs = bs.flatten ++ c.buf.take c.buflen
  state : c.state = bs.foldl transform initial
  bitlen : c.bitlen = UInt64.ofNat (512 * bs.length)

variable {c : Ctx} {bs : List (List UInt8)} {xs ys : List UInt8}

theorem Reads.init (buf : List UInt8) (size : buf.length = 64) : Reads (init buf size) [] [] := ⟨by simp,rfl,rfl,rfl⟩

theorem Reads.absorb (reads : Reads c bs xs) (p : List UInt8) : ∃ bs', Reads (absorb c p) bs' (xs ++ p.take (64 - c.buflen)) := by
  have size := c.size
  have short := c.short
  have fits : c.buflen + (p.take (64 - c.buflen)).length ≤ c.buf.length := by
    rw [List.length_take]
    omega
  have stored := take_store fits
  unfold Sha256.absorb
  by_cases full : c.buflen + (p.take (64 - c.buflen)).length = 64
  · have whole : store c.buf c.buflen (p.take (64 - c.buflen)) = c.buf.take c.buflen ++ p.take (64 - c.buflen) := by
      rw [← stored,full,List.take_of_length_le ((length_store fits).trans size).le]
    simp only [full,dite_true]
    refine ⟨bs ++ [store c.buf c.buflen (p.take (64 - c.buflen))],?_,?_,?_,?_⟩
    · intro b member
      cases List.mem_append.mp member with
      | inl old => exact reads.full b old
      | inr new => rw [List.mem_singleton.mp new,length_store fits,size]
    · show _ = (bs ++ [store c.buf c.buflen (p.take (64 - c.buflen))]).flatten ++ []
      rw [whole,reads.bytes]
      simp
    · rw [List.foldl_append,← reads.state]
      rfl
    · show c.bitlen + 512 = _
      rw [reads.bitlen,List.length_append,Nat.mul_add,UInt64.ofNat_add]
      rfl
  · simp only [full,dite_false]
    refine ⟨bs,reads.full,?_,reads.state,reads.bitlen⟩
    rw [stored,reads.bytes,List.append_assoc]

theorem Reads.updateLoop (rounds : Nat) : ∀ {c : Ctx} {bs : List (List UInt8)} {xs p : List UInt8}, Reads c bs xs → p.length ≤ rounds →
    ∃ bs', Reads (updateLoop rounds c p) bs' (xs ++ p) := by
  induction rounds with
  | zero =>
    intro c bs xs p reads few
    obtain rfl := List.length_eq_zero_iff.mp (Nat.le_zero.mp few)
    exact ⟨bs,by rw [List.append_nil]; exact reads⟩
  | succ rounds ih =>
    intro c bs xs p reads few
    rw [Sha256.updateLoop]
    split_ifs with none
    · obtain rfl := List.isEmpty_iff.mp none
      exact ⟨bs,by rw [List.append_nil]; exact reads⟩
    · have short := c.short
      have some := List.length_pos_iff.mpr fun isNil => none (List.isEmpty_iff.mpr isNil)
      obtain ⟨bs₁,reads₁⟩ := reads.absorb p
      obtain ⟨bs₂,reads₂⟩ := ih reads₁ (p := p.drop (64 - c.buflen)) (by rw [List.length_drop]; omega)
      rw [List.append_assoc,List.take_append_drop] at reads₂
      exact ⟨bs₂,reads₂⟩

/-- Whatever the sizes of the pieces. -/
theorem Reads.updates (chunks : List (List UInt8)) : ∀ {c : Ctx} {bs : List (List UInt8)} {xs : List UInt8}, Reads c bs xs →
    ∃ bs', Reads (chunks.foldl update c) bs' (xs ++ chunks.flatten) := by
  induction chunks with
  | nil => exact fun {c bs xs} reads => ⟨bs,by simpa using reads⟩
  | cons p chunks ih =>
    intro c bs xs reads
    obtain ⟨bs₁,reads₁⟩ := Reads.updateLoop p.length reads (le_refl _)
    obtain ⟨bs₂,reads₂⟩ := ih reads₁
    rw [List.append_assoc] at reads₂
    exact ⟨bs₂,reads₂⟩

/-! ## The padded message -/

/-- A one bit, zeros up to a multiple of the size of a block, and the number of bits. -/
def padding (n : Nat) : List UInt8 := 0x80 :: List.replicate ((119 - n % 64) % 64) 0 ++ lengthBytes (UInt64.ofNat (8 * n))

def padded (xs : List UInt8) : List UInt8 := xs ++ padding xs.length

def blocks (xs : List UInt8) : List (List UInt8) := pieces 64 ((padded xs).length / 64) (padded xs)

theorem length_lengthBytes (bits : UInt64) : (lengthBytes bits).length = 8 := rfl

theorem pieces_flatten {size : Nat} {bs : List (List UInt8)} (all : ∀ b ∈ bs, b.length = size) : pieces size bs.length bs.flatten = bs := by
  induction bs with
  | nil => rfl
  | cons b bs ih =>
    obtain ⟨first,rest⟩ := List.forall_mem_cons.mp all
    rw [List.length_cons,pieces,List.flatten_cons,← first,List.take_left,List.drop_left,first,ih rest]

theorem blocks_of_flatten (all : ∀ b ∈ bs, b.length = 64) (isPadded : padded xs = bs.flatten) : blocks xs = bs := by
  have length : bs.flatten.length = 64 * bs.length := by
    rw [List.length_flatten,List.map_congr_left all]
    simp [Nat.mul_comm]
  rw [blocks,isPadded,length,Nat.mul_div_cancel_left _ (by decide),pieces_flatten all]

/-- The blocks that `sha256_final` makes of what waits in the buffer. -/
def lastBlocks (t : List UInt8) (bits : UInt64) : List (List UInt8) :=
  if t.length + 1 > 56 then [t ++ 0x80 :: List.replicate (63 - t.length) 0,List.replicate 56 0 ++ lengthBytes bits]
  else [t ++ 0x80 :: List.replicate (55 - t.length) 0 ++ lengthBytes bits]

theorem lastBlocks_spec {t : List UInt8} (short : t.length < 64) {n : Nat} (rest : n % 64 = t.length) :
    (∀ b ∈ lastBlocks t (UInt64.ofNat (8 * n)), b.length = 64) ∧ (lastBlocks t (UInt64.ofNat (8 * n))).flatten = t ++ padding n := by
  unfold lastBlocks padding
  split_ifs with two
  · have zeros : (119 - n % 64) % 64 = (63 - t.length) + 56 := by omega
    refine ⟨?_,?_⟩
    · simp [length_lengthBytes]
      omega
    · rw [zeros,List.replicate_add]
      simp
  · have zeros : (119 - n % 64) % 64 = 55 - t.length := by omega
    refine ⟨?_,?_⟩
    · simp [length_lengthBytes]
      omega
    · rw [zeros]
      simp

/-- The buffer in the round of the last block. -/
theorem store_last {buf : List UInt8} {i : Nat} {bits : UInt64} (size : buf.length = 64) (room : i ≤ 56) :
    store (store buf i (List.replicate (56 - i) 0)) 56 (lengthBytes bits) = buf.take i ++ List.replicate (56 - i) 0 ++ lengthBytes bits := by
  have zeros : i + (List.replicate (56 - i) (0 : UInt8)).length = 56 := by
    rw [List.length_replicate]
    omega
  have fits : i + (List.replicate (56 - i) (0 : UInt8)).length ≤ buf.length := by omega
  have first := take_store fits
  have size₁ := length_store fits
  have fits₂ : 56 + (lengthBytes bits).length ≤ (store buf i (List.replicate (56 - i) 0)).length := by
    rw [size₁,size,length_lengthBytes]
  have second := take_store fits₂
  rw [zeros] at first
  rw [first,List.take_of_length_le (by rw [length_store fits₂,size₁,size,length_lengthBytes])] at second
  exact second

/-- The digest of a message, the compressions of its padded blocks. -/
def digest (xs : List UInt8) : List UInt8 := digestBytes ((blocks xs).foldl transform initial)

theorem Reads.cut (reads : Reads c bs xs) :
    (∀ b ∈ bs ++ lastBlocks (c.buf.take c.buflen) (UInt64.ofNat (8 * xs.length)), b.length = 64) ∧
      padded xs = (bs ++ lastBlocks (c.buf.take c.buflen) (UInt64.ofNat (8 * xs.length))).flatten := by
  have size := c.size
  have short := c.short
  have waiting : (c.buf.take c.buflen).length = c.buflen := by
    rw [List.length_take]
    omega
  have whole : bs.flatten.length = 64 * bs.length := by
    rw [List.length_flatten,List.map_congr_left reads.full]
    simp [Nat.mul_comm]
  have length : xs.length % 64 = (c.buf.take c.buflen).length := by
    rw [reads.bytes,List.length_append,whole,waiting]
    omega
  obtain ⟨all,flat⟩ := lastBlocks_spec (by rw [waiting]; exact short) length
  constructor
  · intro b member
    cases List.mem_append.mp member with
    | inl old => exact reads.full b old
    | inr last => exact all b last
  · rw [List.flatten_append,flat,← List.append_assoc,← reads.bytes]
    rfl

theorem Reads.blocks_eq (reads : Reads c bs xs) : blocks xs = bs ++ lastBlocks (c.buf.take c.buflen) (UInt64.ofNat (8 * xs.length)) :=
  blocks_of_flatten reads.cut.1 reads.cut.2

theorem Reads.final (reads : Reads c bs xs) : Sha256.final c = digest xs := by
  have size := c.size
  have short := c.short
  have waiting : (c.buf.take c.buflen).length = c.buflen := by
    rw [List.length_take]
    omega
  have bits : c.bitlen + UInt64.ofNat c.buflen * 8 = UInt64.ofNat (8 * xs.length) := by
    have length : xs.length = 64 * bs.length + c.buflen := by
      rw [reads.bytes,List.length_append,List.length_flatten,List.map_congr_left reads.full,waiting]
      simp [Nat.mul_comm]
    have total : 8 * xs.length = 512 * bs.length + c.buflen * 8 := by omega
    rw [reads.bitlen,total,UInt64.ofNat_add,UInt64.ofNat_mul c.buflen]
    rfl
  have fits : c.buflen + ([0x80] : List UInt8).length ≤ c.buf.length := by
    rw [List.length_singleton]
    omega
  have marked := take_store fits
  have size₁ := length_store fits
  rw [List.length_singleton] at marked
  unfold Sha256.final digest
  rw [bits,reads.blocks_eq,List.foldl_append,← reads.state,lastBlocks,waiting]
  by_cases two : c.buflen + 1 > 56
  · have fits₂ : c.buflen + 1 + (List.replicate (64 - (c.buflen + 1)) (0 : UInt8)).length ≤ (store c.buf c.buflen [0x80]).length := by
      rw [size₁,size,List.length_replicate]
      omega
    have filled := take_store fits₂
    have size₂ := length_store fits₂
    rw [marked,List.length_replicate,List.take_of_length_le (by rw [size₂,size₁,size]; omega)] at filled
    simp only [two,if_true,List.foldl_cons,List.foldl_nil]
    rw [store_last (size₂.trans (size₁.trans size)) (by decide),filled]
    have zeros : 64 - (c.buflen + 1) = 63 - c.buflen := by omega
    simp [zeros]
  · simp only [two,if_false,List.foldl_cons,List.foldl_nil]
    rw [store_last (size₁.trans size) (by omega),marked]
    have zeros : 56 - (c.buflen + 1) = 55 - c.buflen := by omega
    simp [zeros]

/-- The digest depends on the bytes alone, not on the pieces in which they come nor on what was in the buffer. -/
theorem digest_of_chunks (buf : List UInt8) (size : buf.length = 64) (chunks : List (List UInt8)) :
    final (chunks.foldl update (init buf size)) = digest chunks.flatten := by
  obtain ⟨bs,reads⟩ := (Reads.init buf size).updates chunks
  rw [List.nil_append] at reads
  exact reads.final

/-- Three pieces over two blocks, the second of them across the boundary, on a stack of ones. -/
theorem digest_of_chunks_three :
    final ([List.replicate 60 97,List.replicate 10 98,List.replicate 50 99].foldl update (init (List.replicate 64 255) rfl)) =
      digest [List.replicate 60 97,List.replicate 10 98,List.replicate 50 99].flatten :=
  digest_of_chunks _ rfl _

/-! ## Collisions -/

/-- There is a context that has read a message. -/
theorem exists_reads (xs : List UInt8) : ∃ c bs, Reads c bs xs := by
  obtain ⟨bs,reads⟩ := (Reads.init (List.replicate 64 0) rfl).updates [xs]
  exact ⟨_,bs,by simpa using reads⟩

theorem flatten_blocks (xs : List UInt8) : (blocks xs).flatten = padded xs := by
  obtain ⟨c,bs,reads⟩ := exists_reads xs
  rw [reads.blocks_eq,reads.cut.2]

/-- The last block ends with the length. -/
theorem blocks_ends (xs : List UInt8) : ∃ bs w, blocks xs = bs ++ [w ++ lengthBytes (UInt64.ofNat (8 * xs.length))] := by
  obtain ⟨c,bs,reads⟩ := exists_reads xs
  rw [reads.blocks_eq,lastBlocks]
  split_ifs
  · exact ⟨bs ++ [_],_,by rw [List.append_assoc]; rfl⟩
  · exact ⟨bs,_,rfl⟩

theorem lengthBytes_injective {n m : UInt64} (same : lengthBytes n = lengthBytes m) : n = m := by
  simp only [lengthBytes,List.map_cons,List.map_nil,List.cons.injEq,← UInt8.toNat_inj,UInt64.toNat_toUInt8,UInt64.toNat_shiftRight] at same
  obtain ⟨b7,b6,b5,b4,b3,b2,b1,b0,_⟩ := same
  have small := n.toNat_lt
  have small' := m.toNat_lt
  apply UInt64.toNat_inj.mp
  simp [Nat.shiftRight_eq_div_pow] at b7 b6 b5 b4 b3 b2 b1 b0
  omega

theorem wordBytes_injective {x y : UInt32} (b3 : (x >>> 24).toUInt8 = (y >>> 24).toUInt8) (b2 : (x >>> 16).toUInt8 = (y >>> 16).toUInt8)
    (b1 : (x >>> 8).toUInt8 = (y >>> 8).toUInt8) (b0 : x.toUInt8 = y.toUInt8) : x = y := by
  simp only [← UInt8.toNat_inj,UInt32.toNat_toUInt8,UInt32.toNat_shiftRight] at b3 b2 b1 b0
  have small := x.toNat_lt
  have small' := y.toNat_lt
  apply UInt32.toNat_inj.mp
  simp [Nat.shiftRight_eq_div_pow] at b3 b2 b1 b0
  omega

theorem digestBytes_injective {s t : Words} (same : digestBytes s = digestBytes t) : s = t := by
  simp only [digestBytes,List.flatMap_cons,List.flatMap_nil,List.cons_append,List.nil_append,List.cons.injEq] at same
  obtain ⟨a3,a2,a1,a0,b3,b2,b1,b0,c3,c2,c1,c0,d3,d2,d1,d0,e3,e2,e1,e0,f3,f2,f1,f0,g3,g2,g1,g0,h3,h2,h1,h0,_⟩ := same
  cases s
  cases t
  rw [Words.mk.injEq]
  exact ⟨wordBytes_injective a3 a2 a1 a0,wordBytes_injective b3 b2 b1 b0,wordBytes_injective c3 c2 c1 c0,wordBytes_injective d3 d2 d1 d0,
    wordBytes_injective e3 e2 e1 e0,wordBytes_injective f3 f2 f1 f0,wordBytes_injective g3 g2 g1 g0,wordBytes_injective h3 h2 h1 h0⟩

/-- Among the compressions of two messages there are two that collide. -/
def CollideOn (xs ys : List UInt8) : Prop := Collide transform (steps transform initial (blocks xs)) (steps transform initial (blocks ys))

/-- Below 2^61 bytes the length fits into its eight bytes. -/
theorem eq_of_lengthBytes (few : xs.length < 2 ^ 61) (few' : ys.length < 2 ^ 61)
    (same : lengthBytes (UInt64.ofNat (8 * xs.length)) = lengthBytes (UInt64.ofNat (8 * ys.length))) : xs.length = ys.length := by
  have equal := congrArg UInt64.toNat (lengthBytes_injective same)
  rw [UInt64.toNat_ofNat_of_lt' (by show _ < 18446744073709551616; omega),
    UInt64.toNat_ofNat_of_lt' (by show _ < 18446744073709551616; omega)] at equal
  omega

theorem length_of_last (few : xs.length < 2 ^ 61) (few' : ys.length < 2 ^ 61) (same : (blocks xs).getLast? = (blocks ys).getLast?) :
    xs.length = ys.length := by
  obtain ⟨bs,w,isBlocks⟩ := blocks_ends xs
  obtain ⟨bs',w',isBlocks'⟩ := blocks_ends ys
  rw [isBlocks,isBlocks',List.getLast?_append,List.getLast?_append,List.getLast?_singleton,List.getLast?_singleton] at same
  exact eq_of_lengthBytes few few' (List.append_inj_right' (Option.some.inj same) rfl)

theorem digest_eq_or_collide (few : xs.length < 2 ^ 61) (few' : ys.length < 2 ^ 61) (same : digest xs = digest ys) :
    xs = ys ∨ CollideOn xs ys := by
  have some : ∀ zs, blocks zs ≠ [] := by
    intro zs
    obtain ⟨bs,w,isBlocks⟩ := blocks_ends zs
    simp [isBlocks]
  apply eq_or_collide (some xs) (some ys)
  · intro last
    have length := length_of_last few few' last
    have count : ∀ zs, (blocks zs).length = (padded zs).length / 64 := by
      intro zs
      rw [← flatten_blocks]
      obtain ⟨c,bs,reads⟩ := exists_reads zs
      rw [reads.blocks_eq,List.length_flatten,List.map_congr_left reads.cut.1]
      simp
    rw [count,count,padded,padded,List.length_append,List.length_append,length]
  · intro same
    have length := length_of_last few few' (congrArg List.getLast? same)
    have whole := congrArg List.flatten same
    rw [flatten_blocks,flatten_blocks] at whole
    exact List.append_inj_left whole length
  · exact digestBytes_injective same

/-! ## Hexadecimal digits -/

theorem hexDigit_injective : ∀ m < 16, ∀ n < 16, hexDigit m = hexDigit n → m = n := by decide

theorem mem_hexDigit : ∀ n < 16, hexDigit n ∈ "0123456789abcdef".toList := by decide

theorem highDigit (b : UInt8) : (b >>> 4).toNat = b.toNat / 16 := by simp [Nat.shiftRight_eq_div_pow]

theorem lowDigit (b : UInt8) : (b &&& 0xf).toNat = b.toNat % 16 := by
  rw [UInt8.toNat_and]
  exact Nat.and_two_pow_sub_one_eq_mod b.toNat 4

theorem byte_of_digits {a b : UInt8} (high : hexDigit (a >>> 4).toNat = hexDigit (b >>> 4).toNat)
    (low : hexDigit (a &&& 0xf).toNat = hexDigit (b &&& 0xf).toNat) : a = b := by
  have smallA := a.toNat_lt
  have smallB := b.toNat_lt
  rw [highDigit,highDigit] at high
  rw [lowDigit,lowDigit] at low
  have highSame := hexDigit_injective _ (by omega) _ (by omega) high
  have lowSame := hexDigit_injective _ (by omega) _ (by omega) low
  apply UInt8.toNat_inj.mp
  omega

theorem hexDigits_injective {ds : List UInt8} : ∀ {es : List UInt8}, hexDigits ds = hexDigits es → ds = es := by
  induction ds with
  | nil =>
    rintro (_ | ⟨e,es⟩) same
    · rfl
    · simp [hexDigits] at same
  | cons d ds ih =>
    rintro (_ | ⟨e,es⟩) same
    · simp [hexDigits] at same
    · simp only [hexDigits,List.flatMap_cons,List.cons_append,List.nil_append,List.cons.injEq] at same
      obtain ⟨high,low,rest⟩ := same
      rw [byte_of_digits high low,ih rest]

theorem length_digest (xs : List UInt8) : (digest xs).length = 32 := rfl

theorem hexDigits_digest (xs : List UInt8) : (hexDigits (digest xs)).length = 64 ∧
    ∀ c ∈ hexDigits (digest xs), c ∈ "0123456789abcdef".toList := by
  constructor
  · have two : ∀ ds : List UInt8, (hexDigits ds).length = 2 * ds.length := by
      intro ds
      unfold hexDigits
      rw [List.length_flatMap]
      simp [Nat.mul_comm]
    rw [two,length_digest]
  · intro c member
    obtain ⟨b,_,isDigit⟩ := List.mem_flatMap.mp member
    have small := b.toNat_lt
    rcases List.mem_cons.mp isDigit with rfl | isDigit
    · exact mem_hexDigit _ (by rw [highDigit]; omega)
    · rw [List.mem_singleton.mp isDigit]
      exact mem_hexDigit _ (by rw [lowDigit]; omega)

theorem hex_eq (buf : List UInt8) (size : buf.length = 64) (data : List UInt8) : hex buf size data = hexDigits (digest data) := by
  obtain ⟨bs,reads⟩ := (Reads.init buf size).updates [data]
  rw [List.nil_append,List.flatten_singleton] at reads
  exact congrArg hexDigits reads.final

end BaboEngine.Sha256
