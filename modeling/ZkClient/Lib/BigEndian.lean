import Mathlib.Data.Nat.Bitwise
import Mathlib.Tactic.Ring

/-!
# Big-endian numbers

Fixed-width big-endian encodings of natural numbers as bytes, and the two machine integers built on them: `be32` and
`be64` are the network byte order of `int32_t` and `int64_t`, read back by `ofBe32` and `ofBe64`.
-/

namespace BigEndian

/-- The `k` low-order bytes of `v`, most significant first. -/
def encode : Nat → Nat → List UInt8
  | 0, _ => []
  | k + 1, v => UInt8.ofNat (v / 256 ^ k) :: encode k v

/-- The number whose base-256 digits are the given bytes, most significant first. -/
def decode : List UInt8 → Nat
  | [] => 0
  | b :: bs => b.toNat * 256 ^ bs.length + decode bs

@[simp] theorem length_encode (k v : Nat) : (encode k v).length = k := by
  induction k with
  | zero => rfl
  | succ k ih => simp [encode, ih]

theorem decode_lt (bs : List UInt8) : decode bs < 256 ^ bs.length := by
  induction bs with
  | nil => simp [decode]
  | cons b bs ih =>
    have hb : b.toNat + 1 ≤ 256 := b.toNat_lt
    have hm := Nat.mul_le_mul_right (256 ^ bs.length) hb
    simp only [decode, List.length_cons, Nat.pow_succ]
    rw [Nat.add_mul] at hm
    omega

theorem decode_encode (k v : Nat) : decode (encode k v) = v % 256 ^ k := by
  induction k with
  | zero => simp [encode, decode, Nat.mod_one]
  | succ k ih =>
    have hb : (UInt8.ofNat (v / 256 ^ k)).toNat = v / 256 ^ k % 256 := by simp [UInt8.toNat_ofNat']
    rw [encode, decode, length_encode, ih, hb, Nat.pow_succ, Nat.mod_mul, Nat.mul_comm, Nat.add_comm]

theorem encode_decode (bs : List UInt8) : encode bs.length (decode bs) = bs := by
  have key : ∀ (bs : List UInt8) (m : Nat), encode bs.length (m * 256 ^ bs.length + decode bs) = bs := by
    intro bs
    induction bs with
    | nil => intro m; rfl
    | cons b bs ih =>
      intro m
      have hlt := decode_lt bs
      have hpos : 0 < 256 ^ bs.length := Nat.pow_pos (by decide)
      have hsplit : m * 256 ^ (bs.length + 1) + (b.toNat * 256 ^ bs.length + decode bs) =
          (m * 256 + b.toNat) * 256 ^ bs.length + decode bs := by ring
      have hdiv : ((m * 256 + b.toNat) * 256 ^ bs.length + decode bs) / 256 ^ bs.length = m * 256 + b.toNat := by
        rw [Nat.add_comm, Nat.add_mul_div_right _ _ hpos, Nat.div_eq_of_lt hlt, Nat.zero_add]
      have hbyte : UInt8.ofNat (m * 256 + b.toNat) = b := by
        apply UInt8.toNat_inj.1
        have := b.toNat_lt
        rw [UInt8.toNat_ofNat']
        omega
      simp only [List.length_cons, encode, decode]
      rw [hsplit, hdiv, hbyte, ih]
  simpa using key bs 0

/-! ### Machine integers -/

/-- `htonl` followed by a copy: the four bytes of an `int32_t` in network order. -/
def be32 (x : Int32) : List UInt8 := encode 4 x.toUInt32.toNat

/-- The eight bytes of an `int64_t` in network order. -/
def be64 (x : Int64) : List UInt8 := encode 8 x.toUInt64.toNat

/-- A copy followed by `ntohl`. -/
def ofBe32 (bs : List UInt8) : Int32 := (UInt32.ofNat (decode bs)).toInt32

/-- A copy followed by `ntohll`. -/
def ofBe64 (bs : List UInt8) : Int64 := (UInt64.ofNat (decode bs)).toInt64

@[simp] theorem length_be32 (x : Int32) : (be32 x).length = 4 := length_encode ..

@[simp] theorem length_be64 (x : Int64) : (be64 x).length = 8 := length_encode ..

@[simp] theorem ofBe32_be32 (x : Int32) : ofBe32 (be32 x) = x := by
  have hlt := x.toUInt32.toNat_lt
  rw [ofBe32, be32, decode_encode, Nat.mod_eq_of_lt (by simpa using hlt), UInt32.ofNat_toNat]
  rfl

@[simp] theorem ofBe64_be64 (x : Int64) : ofBe64 (be64 x) = x := by
  have hlt := x.toUInt64.toNat_lt
  rw [ofBe64, be64, decode_encode, Nat.mod_eq_of_lt (by simpa using hlt), UInt64.ofNat_toNat]
  rfl

theorem be32_ofBe32 {bs : List UInt8} (h : bs.length = 4) : be32 (ofBe32 bs) = bs := by
  have hlt := decode_lt bs
  have hnat : (UInt32.ofNat (decode bs)).toInt32.toUInt32.toNat = decode bs := by
    rw [h] at hlt
    show (UInt32.ofNat (decode bs)).toNat = decode bs
    rw [UInt32.toNat_ofNat']
    exact Nat.mod_eq_of_lt (by simpa using hlt)
  rw [be32, ofBe32, hnat, ← h, encode_decode]

theorem be64_ofBe64 {bs : List UInt8} (h : bs.length = 8) : be64 (ofBe64 bs) = bs := by
  have hlt := decode_lt bs
  have hnat : (UInt64.ofNat (decode bs)).toInt64.toUInt64.toNat = decode bs := by
    rw [h] at hlt
    show (UInt64.ofNat (decode bs)).toNat = decode bs
    rw [UInt64.toNat_ofNat']
    exact Nat.mod_eq_of_lt (by simpa using hlt)
  rw [be64, ofBe64, hnat, ← h, encode_decode]

end BigEndian
