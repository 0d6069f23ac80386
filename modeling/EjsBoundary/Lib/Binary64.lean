import EjsBoundary.Lib.Json
import Mathlib.Algebra.Order.Field.Power
import Mathlib.Algebra.Field.Rat
import Mathlib.Tactic.FieldSimp
import Mathlib.Tactic.Ring

/-!
# `EjsBoundary.Lib.Binary64`: the numbers that doubles stand for

A double is a sign, an exponent of 11 bits and a fraction of 52. `value` is the number it stands
for, none for an infinity or a NaN, and `ofInt` is the conversion from an integer, rounded to the
nearest double and to the even one of two. Up to 2^53 nothing is rounded (`value_ofInt`).
-/

set_option autoImplicit false

namespace EjsBoundary.Lib

namespace Double

/-! ### The fields -/

def sign (d : Double) : Nat := d.bits.toNat / 2 ^ 63

def exponent (d : Double) : Nat := d.bits.toNat / 2 ^ 52 % 2 ^ 11

def fraction (d : Double) : Nat := d.bits.toNat % 2 ^ 52

/-- The number a double stands for, unless it is an infinity or a NaN. -/
def value (d : Double) : Option ℚ :=
  let signed (q : ℚ) := if d.sign = 0 then q else -q
  if d.exponent = 2047 then none
  -- Zero and the subnormal numbers have no leading one.
  else if d.exponent = 0 then some (signed (d.fraction * 2 ^ (-1074 : ℤ)))
  else some (signed ((2 ^ 52 + d.fraction : ℕ) * 2 ^ ((d.exponent : ℤ) - 1075)))

/-- The integer a double stands for, if it does. -/
def integer? (d : Double) : Option Int :=
  match d.value with
  | some q => if q.den = 1 then some q.num else none
  | none => none

/-! ### From an integer -/

/-- `m / 2 ^ shift`, rounded to the nearest integer and to the even one of two. -/
def roundShift (m shift : Nat) : Nat :=
  let q := m / 2 ^ shift
  let r := m % 2 ^ shift
  if 2 ^ shift < 2 * r ∨ (2 ^ shift = 2 * r ∧ q % 2 = 1) then q + 1 else q

/-- The exponent and the fraction of a positive integer, as one number: a fraction that is rounded
up to 2^52 carries into the exponent. -/
def magnitudeBits (m : Nat) : Nat :=
  let top := m.log2
  if top ≤ 52 then (1022 + top) * 2 ^ 52 + m * 2 ^ (52 - top)
  else (1022 + top) * 2 ^ 52 + roundShift m (top - 52)

/-- The conversion from an integer of at most 64 bits. -/
def ofInt (i : Int) : Double :=
  if i = 0 then ⟨0⟩
  else ⟨UInt64.ofNat ((if i < 0 then 2 ^ 63 else 0) + magnitudeBits i.natAbs)⟩

example : ofInt 1 = ⟨0x3FF0000000000000⟩ ∧ ofInt (-3) = ⟨0xC008000000000000⟩ ∧
    ofInt (2 ^ 53 + 1) = ⟨0x4340000000000000⟩ ∧ ofInt (2 ^ 53 + 3) = ⟨0x4340000000000002⟩ := by
  decide

/-! ### Integers that are not rounded -/

/-- Up to 2^53 the fields say exactly what the integer is. -/
theorem magnitudeBits_eq {m : Nat} (hpos : 0 < m) (hle : m ≤ 2 ^ 53) :
    ∃ e f : Nat, e ≤ 53 ∧ f < 2 ^ 52 ∧ magnitudeBits m = (1023 + e) * 2 ^ 52 + f ∧
      (m : ℚ) = (2 ^ 52 + f : ℕ) * 2 ^ ((e : ℤ) - 52) := by
  have hlow : 2 ^ m.log2 ≤ m := Nat.log2_self_le (by omega)
  have hhigh : m < 2 ^ (m.log2 + 1) := Nat.lt_log2_self
  by_cases htop : m.log2 ≤ 52
  · -- The fraction is the integer moved up to 53 bits, without the leading one.
    have hsplit : 2 ^ m.log2 * 2 ^ (52 - m.log2) = 2 ^ 52 := by
      rw [← Nat.pow_add]
      congr 1
      omega
    have hM : 2 ^ 52 ≤ m * 2 ^ (52 - m.log2) := by
      rw [← hsplit]
      exact Nat.mul_le_mul_right _ hlow
    have hM' : m * 2 ^ (52 - m.log2) < 2 ^ 53 := by
      have hlt : m * 2 ^ (52 - m.log2) < 2 ^ (m.log2 + 1) * 2 ^ (52 - m.log2) :=
        Nat.mul_lt_mul_of_pos_right hhigh (Nat.two_pow_pos _)
      have hsum : 2 ^ (m.log2 + 1) * 2 ^ (52 - m.log2) = 2 ^ 53 := by
        rw [← Nat.pow_add]
        congr 1
        omega
      omega
    refine ⟨m.log2, m * 2 ^ (52 - m.log2) - 2 ^ 52, by omega, by omega, ?_, ?_⟩
    · rw [magnitudeBits, if_pos htop]
      omega
    · rw [Nat.add_sub_cancel' hM, Nat.cast_mul, Nat.cast_pow, Nat.cast_ofNat, mul_assoc,
        ← zpow_natCast, ← zpow_add₀ (by norm_num), Nat.cast_sub htop]
      norm_num
  · -- Only 2^53 itself has 54 bits.
    have htop' : m.log2 = 53 := by
      have hlt : 2 ^ m.log2 < 2 ^ 54 := by omega
      have := (Nat.pow_lt_pow_iff_right (by decide)).mp hlt
      omega
    have hm : m = 2 ^ 53 := by
      rw [htop'] at hlow
      omega
    subst hm
    exact ⟨53, 0, by omega, by omega, by decide, by norm_num⟩

/-- A double by its fields. -/
theorem value_of_fields {d : Double} {s e f : Nat} {q : ℚ} (he : e ≤ 53)
    (hf : f < 2 ^ 52) (hbits : d.bits.toNat = s * 2 ^ 63 + ((1023 + e) * 2 ^ 52 + f))
    (hq : q = (2 ^ 52 + f : ℕ) * 2 ^ ((e : ℤ) - 52)) :
    d.value = some (if s = 0 then q else -q) := by
  have hsign : d.sign = s := by
    rw [sign, hbits]
    omega
  have hexponent : d.exponent = 1023 + e := by
    rw [exponent, hbits]
    omega
  have hfraction : d.fraction = f := by
    rw [fraction, hbits]
    omega
  have hscale : ((1023 + e : ℕ) : ℤ) - 1075 = (e : ℤ) - 52 := by
    rw [Nat.cast_add]
    ring
  rw [value, hexponent, if_neg (by omega), if_neg (by omega), hsign, hfraction, hscale, hq]

/-- Up to 2^53 the conversion is exact. -/
theorem value_ofInt {i : Int} (h : i.natAbs ≤ 2 ^ 53) : (ofInt i).value = some (i : ℚ) := by
  by_cases hzero : i = 0
  · subst hzero
    have hexponent : (ofInt 0).exponent = 0 := by decide
    have hfraction : (ofInt 0).fraction = 0 := by decide
    rw [value, hexponent, hfraction]
    simp
  · obtain ⟨e, f, he, hf, hbits, hm⟩ := magnitudeBits_eq (Int.natAbs_pos.mpr hzero) h
    by_cases hneg : i < 0
    · have htoNat : (ofInt i).bits.toNat = 1 * 2 ^ 63 + ((1023 + e) * 2 ^ 52 + f) := by
        rw [ofInt, if_neg hzero, if_pos hneg, hbits, UInt64.toNat_ofNat']
        omega
      have habs : (i : ℚ) = -(i.natAbs : ℚ) := by
        have hcast : ((i.natAbs : ℤ) : ℚ) = ((-i : ℤ) : ℚ) :=
          congrArg _ (Int.ofNat_natAbs_of_nonpos (Int.le_of_lt hneg))
        rw [Int.cast_natCast, Int.cast_neg] at hcast
        rw [hcast, neg_neg]
      rw [value_of_fields he hf htoNat hm, if_neg (by decide), habs]
    · have htoNat : (ofInt i).bits.toNat = 0 * 2 ^ 63 + ((1023 + e) * 2 ^ 52 + f) := by
        rw [ofInt, if_neg hzero, if_neg hneg, hbits, UInt64.toNat_ofNat']
        omega
      have habs : (i : ℚ) = (i.natAbs : ℚ) := by
        have hcast : ((i.natAbs : ℤ) : ℚ) = (i : ℚ) :=
          congrArg _ (Int.natAbs_of_nonneg (Int.not_lt.mp hneg))
        exact hcast.symm
      rw [value_of_fields he hf htoNat hm, if_pos rfl, habs]

end Double

end EjsBoundary.Lib
