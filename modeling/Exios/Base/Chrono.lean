import Exios.Base.Integral
import Mathlib.Data.Nat.GCD.Basic

namespace Exios

/-!
# Base — durations in integral ticks

`std::chrono::duration` counts ticks of a fixed length in an integral type.  Comparing two
durations, or converting one, multiplies the count by a factor known at compile time, in the
common type of the representation and `std::intmax_t`: that product may be out of range, and is
then wrapped around by an unsigned type and not defined in a signed one.

* `Ratio` — `std::ratio`, the length of a tick in seconds;
* `Ticks` — a duration; `Ticks.wholeNanoseconds` is its exact value;
* `Ticks.isZero`, `Ticks.toNanoseconds` — the comparison with zero and the conversion, as they are
  computed;
* `Ticks.toNanoseconds_eq_iff` — the conversion is exact if and only if its product is in range.
-/

namespace IntegralType

/-- `std::intmax_t`, which is also the representation of `std::chrono::nanoseconds`. -/
def int64 : IntegralType := ⟨8, true⟩
/-- `std::uintmax_t`. -/
def uint64 : IntegralType := ⟨8, false⟩

instance (T : IntegralType) (z : Int) : Decidable (T.Fits z) :=
  inferInstanceAs (Decidable (if T.signed then _ else _))

/-- The product of two values: wrapped around in an unsigned type; in a signed type, one that is
    out of range is not defined. -/
def mul (T : IntegralType) (a b : Int) : Option Int :=
  if T.Fits (a * b) then some (a * b) else if T.signed then none else some (T.wrap (a * b))

/-- A product that is in range. -/
theorem mul_of_fits {T : IntegralType} {a b : Int} (h : T.Fits (a * b)) :
    T.mul a b = some (a * b) := if_pos h

/-- `std::common_type_t<T, std::intmax_t>`: of two types of one size the unsigned one, else the
    larger. -/
def withIntmax (T : IntegralType) : IntegralType := if T.size < int64.size then int64 else T

/-- The common type has at least the 64 bits of `std::intmax_t`. -/
theorem le_withIntmax_modulus (T : IntegralType) : 2 ^ 64 ≤ T.withIntmax.modulus := by
  rw [withIntmax]
  split
  · exact Nat.le_refl _
  · rename_i hsize
    have hle : 8 ≤ T.size := Nat.le_of_not_lt hsize
    calc 2 ^ 64 = 256 ^ 8 := rfl
      _ ≤ T.modulus := Nat.pow_le_pow_right (by omega) hle

end IntegralType

/-- `std::ratio`: a positive fraction in lowest terms. -/
structure Ratio where
  num : Nat
  den : Nat
  num_pos : 0 < num
  den_pos : 0 < den
  reduced : num.Coprime den
  /-- Both are of type `std::intmax_t`. -/
  den_fits : den < 2 ^ 63

/-- `std::nano::den`. -/
def nano : Nat := 1000000000

namespace Ratio

/-- What the number of nanoseconds in a tick is divided by to bring it to lowest terms. -/
def divisor (p : Ratio) : Nat := Nat.gcd (p.num * nano) p.den

/-- `CF::num`, where `CF` is the length of a tick in nanoseconds. -/
def factor (p : Ratio) : Nat := p.num * nano / p.divisor

/-- `CF::den`. -/
def quotient (p : Ratio) : Nat := p.den / p.divisor

/-- The length of a tick in the common unit of a comparison with nanoseconds. -/
def commonFactor (p : Ratio) : Nat := p.num * (Nat.lcm p.den nano / p.den)

theorem divisor_pos (p : Ratio) : 0 < p.divisor := Nat.gcd_pos_of_pos_right _ p.den_pos

/-- The division that brings a tick to lowest terms leaves no remainder in its numerator. -/
theorem factor_mul (p : Ratio) : p.factor * p.divisor = p.num * nano :=
  Nat.div_mul_cancel (Nat.gcd_dvd_left _ _)

/-- Nor does it in the denominator. -/
theorem quotient_mul (p : Ratio) : p.quotient * p.divisor = p.den :=
  Nat.div_mul_cancel (Nat.gcd_dvd_right _ _)

theorem quotient_pos (p : Ratio) : 0 < p.quotient :=
  Nat.div_pos (Nat.le_of_dvd p.den_pos (Nat.gcd_dvd_right _ _)) p.divisor_pos

/-- The divisor of a conversion is a positive number of 64 bits, so dividing by it cannot
    overflow. -/
theorem quotient_lt (p : Ratio) : p.quotient < 2 ^ 63 :=
  Nat.lt_of_le_of_lt (Nat.div_le_self _ _) p.den_fits

/-- A comparison multiplies by a positive number, so it cannot turn a count that is not zero into
    zero unless it overflows. -/
theorem commonFactor_pos (p : Ratio) : 0 < p.commonFactor := by
  have hle : p.den ≤ Nat.lcm p.den nano :=
    Nat.le_of_dvd (Nat.lcm_pos p.den_pos (by decide)) (Nat.dvd_lcm_left _ _)
  exact Nat.mul_pos p.num_pos (Nat.div_pos hle p.den_pos)

end Ratio

/-- `std::chrono::duration<Rep, Period>` for an integral `Rep`. -/
structure Ticks where
  rep : IntegralType
  count : rep.Value
  period : Ratio

namespace Ticks

/-- The type in which the count is multiplied. -/
def common (d : Ticks) : IntegralType := d.rep.withIntmax

/-- The duration in whole nanoseconds, rounded down. -/
def wholeNanoseconds (d : Ticks) : Int :=
  d.count.val * (d.period.num * nano : Nat) / (d.period.den : Nat)

/-- `d == std::chrono::nanoseconds::zero()`: both sides in the common unit. -/
def isZero (d : Ticks) : Option Bool :=
  (d.common.mul d.count.val d.period.commonFactor).map (fun product => decide (product = 0))

/-- `std::chrono::duration_cast<std::chrono::nanoseconds>(d)`. -/
def toNanoseconds (d : Ticks) : Option Int :=
  (d.common.mul d.count.val d.period.factor).map (fun product =>
    IntegralType.int64.wrap (product.tdiv d.period.quotient))

/-- The product of the conversion is in the range of its type. -/
def Converts (d : Ticks) : Prop := d.common.Fits (d.count.val * d.period.factor)

instance (d : Ticks) : Decidable d.Converts :=
  inferInstanceAs (Decidable (IntegralType.Fits _ _))

/-- The product of the comparison is in the range of its type. -/
def Compares (d : Ticks) : Prop := d.common.Fits (d.count.val * d.period.commonFactor)

instance (d : Ticks) : Decidable d.Compares :=
  inferInstanceAs (Decidable (IntegralType.Fits _ _))

variable {d : Ticks}

/-- The exact value in lowest terms. -/
theorem wholeNanoseconds_eq (d : Ticks) :
    d.wholeNanoseconds = d.count.val * d.period.factor / d.period.quotient := by
  have hpos : (0 : Int) < d.period.divisor := by exact_mod_cast d.period.divisor_pos
  rw [wholeNanoseconds, ← d.period.factor_mul, ← d.period.quotient_mul]
  push_cast
  rw [← Int.mul_assoc, Int.mul_ediv_mul_of_pos_left _ _ hpos]

/-- A comparison in range is the one of the counts. -/
theorem isZero_of_compares (h : d.Compares) : d.isZero = some (decide (d.count.val = 0)) := by
  have hpos := d.period.commonFactor_pos
  rw [isZero, IntegralType.mul_of_fits h, Option.map_some]
  congr 2
  rw [Int.mul_eq_zero]
  exact propext (or_iff_left (by omega))

/-- What is not negative has no negative number of nanoseconds. -/
theorem wholeNanoseconds_nonneg (h : 0 ≤ d.count.val) : 0 ≤ d.wholeNanoseconds :=
  Int.ediv_nonneg (Int.mul_nonneg h (Int.natCast_nonneg _)) (Int.natCast_nonneg _)

/-- What is at least a nanosecond has a positive count. -/
theorem count_pos (h : 1 ≤ d.wholeNanoseconds) : 0 < d.count.val := by
  by_contra hneg
  have hle : d.count.val * (d.period.num * nano : Nat) ≤ 0 :=
    Int.mul_nonpos_of_nonpos_of_nonneg (by omega) (Int.natCast_nonneg _)
  have hdiv : d.wholeNanoseconds ≤ 0 := by
    have := Int.ediv_le_ediv (c := (d.period.den : Int)) (by exact_mod_cast d.period.den_pos) hle
    rwa [Int.zero_ediv] at this
  omega

/-- A conversion in range is exact. -/
theorem toNanoseconds_of_converts (hcount : 0 ≤ d.count.val)
    (hrepresentable : d.wholeNanoseconds < 2 ^ 63) (h : d.Converts) :
    d.toNanoseconds = some d.wholeNanoseconds := by
  have hproduct : 0 ≤ d.count.val * d.period.factor :=
    Int.mul_nonneg hcount (Int.natCast_nonneg _)
  have hdiv : (d.count.val * d.period.factor).tdiv d.period.quotient = d.wholeNanoseconds := by
    rw [wholeNanoseconds_eq, Int.tdiv_eq_ediv_of_nonneg hproduct]
  have hnonneg : 0 ≤ d.wholeNanoseconds := by
    rw [wholeNanoseconds_eq]
    exact Int.ediv_nonneg hproduct (Int.natCast_nonneg _)
  have hfits : IntegralType.int64.Fits d.wholeNanoseconds := by
    show -(2 ^ 64 : Int) ≤ d.wholeNanoseconds * 2 ∧ d.wholeNanoseconds * 2 < 2 ^ 64
    omega
  rw [toNanoseconds, IntegralType.mul_of_fits h, Option.map_some, hdiv,
    IntegralType.wrap_of_fits hfits]

/-- Wrapping a product around takes away more than the division rounds off. -/
theorem wrapped_lt {x m q : Int} (hx : m ≤ x) (hq : 0 < q) (hle : q ≤ m) :
    x % m / q < x / q := by
  have hsplit : x % m + q ≤ x := by
    have hdiv : 1 ≤ x / m := by
      rw [Int.le_ediv_iff_mul_le (by omega)]
      omega
    have hmul : m * 1 ≤ m * (x / m) := Int.mul_le_mul_of_nonneg_left hdiv (by omega)
    have hmod := Int.mul_ediv_add_emod x m
    omega
  have hle' : (x % m + q) / q ≤ x / q := Int.ediv_le_ediv hq hsplit
  have hstep : (x % m + 1 * q) / q = x % m / q + 1 :=
    Int.add_mul_ediv_right _ _ (by omega)
  rw [Int.one_mul] at hstep
  omega

/-- A conversion out of range is wrong, or not defined. -/
theorem toNanoseconds_of_not_converts (hcount : 0 ≤ d.count.val)
    (hrepresentable : d.wholeNanoseconds < 2 ^ 63) (h : ¬ d.Converts) :
    d.toNanoseconds ≠ some d.wholeNanoseconds := by
  have hproduct : 0 ≤ d.count.val * d.period.factor :=
    Int.mul_nonneg hcount (Int.natCast_nonneg _)
  have hmod : 2 ^ 64 ≤ d.common.modulus := d.rep.le_withIntmax_modulus
  rw [Converts] at h
  rw [toNanoseconds, IntegralType.mul, if_neg h]
  rw [IntegralType.Fits] at h
  by_cases hsigned : d.common.signed = true
  · -- a signed product that is out of range
    rw [if_pos hsigned]
    simp
  · rw [if_neg hsigned] at h ⊢
    have hwrap : d.common.wrap (d.count.val * d.period.factor)
        = d.count.val * d.period.factor % d.common.modulus := by
      rw [IntegralType.wrap, if_neg hsigned]
    have hq := d.period.quotient_pos
    have hqlt := d.period.quotient_lt
    have hlt := wrapped_lt (x := d.count.val * d.period.factor) (m := d.common.modulus)
      (q := d.period.quotient) (by omega) (by omega) (by omega)
    rw [← wholeNanoseconds_eq] at hlt
    -- what is left is in the range of the target, so nothing is wrapped again
    have hrest : 0 ≤ d.count.val * d.period.factor % d.common.modulus :=
      Int.emod_nonneg _ (by omega)
    have hnonneg : 0 ≤ d.count.val * d.period.factor % d.common.modulus / d.period.quotient :=
      Int.ediv_nonneg hrest (Int.natCast_nonneg _)
    rw [Option.map_some, hwrap, Int.tdiv_eq_ediv_of_nonneg hrest]
    generalize hv :
      d.count.val * d.period.factor % d.common.modulus / d.period.quotient = v at hlt hnonneg
    have hfits : IntegralType.int64.Fits v := by
      show -(2 ^ 64 : Int) ≤ v * 2 ∧ v * 2 < 2 ^ 64
      omega
    rw [IntegralType.wrap_of_fits hfits, ne_eq, Option.some.injEq]
    omega

/-- **A conversion is exact if and only if its product is in range.** -/
theorem toNanoseconds_eq_iff (hcount : 0 ≤ d.count.val)
    (hrepresentable : d.wholeNanoseconds < 2 ^ 63) :
    d.toNanoseconds = some d.wholeNanoseconds ↔ d.Converts := by
  constructor
  · intro heq
    by_contra h
    exact toNanoseconds_of_not_converts hcount hrepresentable h heq
  · exact toNanoseconds_of_converts hcount hrepresentable

end Ticks

end Exios
