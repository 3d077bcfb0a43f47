import Mathlib.Tactic.Ring

/-!
# Little-endian numbers and files of records

Numbers as their bytes, the lowest byte first; a file as what is left to read of it; and
files cut into pieces of one size.
-/

namespace BaboEngine.LittleEndian

variable {size n k : Nat} {file : List UInt8}

/-! ## Numbers -/

/-- The lowest `k` bytes of a number. -/
def bytes : Nat → Nat → List UInt8
  | 0, _ => []
  | k + 1, n => UInt8.ofNat n :: bytes k (n / 256)

/-- The number of some bytes. -/
def value : List UInt8 → Nat
  | [] => 0
  | b :: bs => b.toNat + 256 * value bs

@[simp] theorem length_bytes : ∀ k n : Nat, (bytes k n).length = k
  | 0, _ => rfl
  | k + 1, n => by rw [bytes,List.length_cons,length_bytes k]

theorem value_bytes : ∀ k n : Nat, value (bytes k n) = n % 256 ^ k
  | 0, n => by simp [bytes,value,Nat.mod_one]
  | k + 1, n => by
    have lowest : (UInt8.ofNat n).toNat = n % 256 := by simp
    rw [bytes,value,value_bytes k,lowest,Nat.pow_succ',Nat.mod_mul]

def u32 (bs : List UInt8) : UInt32 := UInt32.ofNat (value bs)

def u64 (bs : List UInt8) : UInt64 := UInt64.ofNat (value bs)

def i64 (bs : List UInt8) : Int64 := (u64 bs).toInt64

@[simp] theorem u32_bytes (n : Nat) : u32 (bytes 4 n) = UInt32.ofNat n := by
  apply UInt32.toNat_inj.mp
  simp [u32,value_bytes]

@[simp] theorem u64_bytes (n : Nat) : u64 (bytes 8 n) = UInt64.ofNat n := by
  apply UInt64.toNat_inj.mp
  simp [u64,value_bytes]

/-! ## Files -/

/-- Read a block of `n` bytes in full. -/
def fread (n : Nat) (file : List UInt8) : Option (List UInt8 × List UInt8) :=
  if n ≤ file.length then some (file.take n,file.drop n) else none

/-- The `k` bytes from the offset `o` on. -/
def slice (o k : Nat) (file : List UInt8) : List UInt8 := (file.drop o).take k

/-- Reading on from the offset `o`. -/
theorem fread_drop {o : Nat} (enough : o + n ≤ file.length) : fread n (file.drop o) = some (slice o n file,file.drop (o + n)) := by
  have room : n ≤ (file.drop o).length := by rw [List.length_drop]; omega
  rw [fread,if_pos room,List.drop_drop,slice]

theorem fread_drop_short {o : Nat} (short : file.length < o + n) (positive : 0 < n) : fread n (file.drop o) = none := by
  have noRoom : ¬ n ≤ (file.drop o).length := by rw [List.length_drop]; omega
  rw [fread,if_neg noRoom]

theorem slice_take {o m : Nat} (inside : o + k ≤ m) : slice o k (file.take m) = slice o k file := by
  have room : k ≤ m - o := by omega
  rw [slice,slice,List.drop_take,List.take_take,Nat.min_eq_left room]

/-- The first `n` pieces of a file. -/
def pieces (size : Nat) : Nat → List UInt8 → List (List UInt8)
  | 0, _ => []
  | n + 1, file => file.take size :: pieces size n (file.drop size)

theorem pieces_take : ∀ (n : Nat) (file : List UInt8), pieces size n (file.take (size * n)) = pieces size n file
  | 0, _ => rfl
  | n + 1, file => by
    have room : size ≤ size * (n + 1) := Nat.le_mul_of_pos_right size (by omega)
    have rest : size * (n + 1) - size = size * n := by rw [Nat.mul_succ]; omega
    rw [pieces,pieces,List.take_take,Nat.min_eq_left room,List.drop_take,rest,pieces_take n]

end BaboEngine.LittleEndian
