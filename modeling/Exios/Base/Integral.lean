import Exios.Base.Bytes

namespace Exios

/-!
# Base — integral types

An integral type has a size in bytes and is signed or not; its values are the integers in its
range.  Negative values are represented in two's complement and the host is little-endian, so
the representation of a value is `Bytes.le` of its residue, and a conversion picks the value
of the target type with the same residue.

* `IntegralType.ofBytes_bytes`, `IntegralType.bytes_ofBytes` — a value and its representation
  determine each other;
* `IntegralType.Value.bytes_convert` — a conversion between types of one size keeps the bytes.
-/

/-- An integral type.  `bool` is the unsigned type of one byte, of which it uses two values. -/
structure IntegralType where
  /-- `sizeof(T)`. -/
  size : Nat
  /-- `std::is_signed_v<T>`. -/
  signed : Bool
deriving DecidableEq, Repr

namespace IntegralType

/-- `std::uint16_t`. -/
def uint16 : IntegralType := ⟨2, false⟩
/-- `std::int16_t`. -/
def int16 : IntegralType := ⟨2, true⟩
/-- `std::uint32_t`. -/
def uint32 : IntegralType := ⟨4, false⟩

/-- The number of values. -/
def modulus (T : IntegralType) : Nat := 256 ^ T.size

/-- The integer is in the range of the type. -/
def Fits (T : IntegralType) (z : Int) : Prop :=
  if T.signed then -(T.modulus : Int) ≤ z * 2 ∧ z * 2 < T.modulus else 0 ≤ z ∧ z < T.modulus

/-- A value of the type. -/
@[ext]
structure Value (T : IntegralType) where
  val : Int
  fits : T.Fits val

/-- The integer of the type's range with the same residue. -/
def wrap (T : IntegralType) (z : Int) : Int :=
  if T.signed then z.bmod T.modulus else z % T.modulus

theorem modulus_pos (T : IntegralType) : 0 < T.modulus := Nat.pow_pos (by decide)

/-- What a conversion picks is in range. -/
theorem wrap_fits (T : IntegralType) (z : Int) : T.Fits (T.wrap z) := by
  have hpos := T.modulus_pos
  rw [Fits, wrap]
  split
  · have hlo : -((T.modulus : Int) / 2) ≤ z.bmod T.modulus := Int.le_bmod hpos
    have hhi : z.bmod T.modulus ≤ ((T.modulus : Int) - 1) / 2 := Int.bmod_le hpos
    omega
  · exact ⟨Int.emod_nonneg z (by omega), Int.emod_lt_of_pos z (by omega)⟩

/-- The conversion of an integer. -/
def ofInt (T : IntegralType) (z : Int) : T.Value := ⟨T.wrap z, T.wrap_fits z⟩

/-- The conversion of a value to another integral type. -/
def Value.convert {T : IntegralType} (U : IntegralType) (v : T.Value) : U.Value := U.ofInt v.val

/-- The object representation of a value. -/
def Value.bytes {T : IntegralType} (v : T.Value) : List (BitVec 8) :=
  Bytes.le T.size (v.val % T.modulus).toNat

/-- The value with a given object representation. -/
def ofBytes (T : IntegralType) (bytes : List (BitVec 8)) : T.Value := T.ofInt (Bytes.value bytes)

/-! ### Residues -/

/-- A conversion keeps the residue. -/
theorem wrap_emod (T : IntegralType) (z : Int) : T.wrap z % T.modulus = z % T.modulus := by
  rw [wrap]
  split
  · exact Int.bmod_emod
  · exact Int.emod_emod z _

/-- A conversion keeps an integer that is in range. -/
theorem wrap_of_fits {T : IntegralType} {z : Int} (h : T.Fits z) : T.wrap z = z := by
  rw [Fits] at h
  rw [wrap]
  split
  · rename_i hs
    rw [if_pos hs] at h
    exact Int.bmod_eq_of_le_mul_two h.1 h.2
  · rename_i hs
    rw [if_neg hs] at h
    exact Int.emod_eq_of_lt h.1 h.2

/-- A conversion only looks at the residue. -/
theorem wrap_congr {T : IntegralType} {z w : Int} (h : z % T.modulus = w % T.modulus) :
    T.wrap z = T.wrap w := by
  rw [wrap, wrap]
  split
  · rw [← Int.emod_bmod z, h, Int.emod_bmod]
  · exact h

/-! ### Representations -/

@[simp] theorem Value.length_bytes {T : IntegralType} (v : T.Value) : v.bytes.length = T.size :=
  Bytes.length_le _ _

/-- The representation of a converted integer. -/
theorem bytes_ofInt (T : IntegralType) (z : Int) :
    (T.ofInt z).bytes = Bytes.le T.size (z % T.modulus).toNat := by
  rw [Value.bytes, ofInt, wrap_emod]

/-- **A value is recovered from its bytes.** -/
theorem ofBytes_bytes {T : IntegralType} (v : T.Value) : T.ofBytes v.bytes = v := by
  have hpos := T.modulus_pos
  have hlo : 0 ≤ v.val % T.modulus := Int.emod_nonneg v.val (by omega)
  have hhi : v.val % T.modulus < T.modulus := Int.emod_lt_of_pos v.val (by omega)
  have hvalue : (Bytes.value v.bytes : Int) = v.val % T.modulus := by
    have hlt : (v.val % T.modulus).toNat < 256 ^ T.size := by
      rw [← modulus]
      omega
    rw [Value.bytes, Bytes.value_le, Nat.mod_eq_of_lt hlt]
    omega
  ext
  calc T.wrap (Bytes.value v.bytes) = T.wrap (v.val % T.modulus) := by rw [hvalue]
    _ = T.wrap v.val := wrap_congr (Int.emod_emod v.val _)
    _ = v.val := wrap_of_fits v.fits

/-- **The bytes of a value read from memory** are those that were read. -/
theorem bytes_ofBytes {T : IntegralType} {bytes : List (BitVec 8)} (h : bytes.length = T.size) :
    (T.ofBytes bytes).bytes = bytes := by
  have hlt : Bytes.value bytes < T.modulus := by
    rw [modulus, ← h]
    exact Bytes.value_lt bytes
  have hres : ((Bytes.value bytes : Int) % T.modulus).toNat = Bytes.value bytes := by
    rw [Int.emod_eq_of_lt (by omega) (by omega)]
    rfl
  rw [ofBytes, bytes_ofInt, hres, ← h, Bytes.le_value]

/-- Values with the same bytes are equal. -/
theorem Value.bytes_injective {T : IntegralType} {v w : T.Value} (h : v.bytes = w.bytes) :
    v = w := by
  rw [← ofBytes_bytes v, h, ofBytes_bytes]

/-- A conversion to its own type keeps a value. -/
theorem Value.convert_self {T : IntegralType} (v : T.Value) : v.convert T = v := by
  ext
  exact wrap_of_fits v.fits

/-- **A conversion between types of one size keeps the bytes**, whatever their signedness. -/
theorem Value.bytes_convert {T U : IntegralType} (h : U.size = T.size) (v : T.Value) :
    (v.convert U).bytes = v.bytes := by
  have hmod : U.modulus = T.modulus := by rw [modulus, modulus, h]
  rw [Value.convert, bytes_ofInt, Value.bytes, h, hmod]

end IntegralType

end Exios
