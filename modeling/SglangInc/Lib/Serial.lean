import Mathlib.Tactic.Ring
import Mathlib.Tactic.Positivity
import Mathlib.Tactic.Zify

/-!
# Serial Numbers

Counters that run without bound, seen through a fixed number of bits.

A protocol counts packets in `v` bits and compares two counters by the sign
of their difference. The counter itself is an integer `a`; what travels is
`BitVec.ofInt v a`. Comparison by sign is right as long as the two integers
are less than half the range apart (`slt_sub`). A counter kept in the upper
bits of a wider word is compared the same way, since shifting it there is
multiplication by a power of two (`shiftLeft_low`), and comes back unchanged
(`setWidth_ushiftRight`).
-/

namespace SglangInc.Serial

open BitVec

variable {w : Nat}

/-- Two counters less than half the range apart are ordered by the sign of
    their difference. -/
theorem slt_sub (hw : 0 < w) (a b : Int) (lo : -2 ^ (w - 1) ≤ a - b) (hi : a - b < 2 ^ (w - 1)) :
    (BitVec.ofInt w a - BitVec.ofInt w b).slt 0 = true ↔ a < b := by
  rw [slt_iff_toInt_lt, sub_eq_add_neg, ← ofInt_neg, ← ofInt_add, ← Int.sub_eq_add_neg,
    toInt_ofInt_eq_self hw lo hi, show (0 : BitVec w).toInt = 0 from toInt_zero]
  omega

theorem toNat_ofInt_cast (a : Int) : ((BitVec.ofInt w a).toNat : Int) = a % 2 ^ w := by
  rw [toNat_ofInt, Int.toNat_of_nonneg (Int.emod_nonneg _ (by positivity))]
  push_cast
  rfl

/-- Fewer bits of a counter. -/
theorem setWidth_ofInt (v k : Nat) (a : Int) :
    (BitVec.ofInt (v + k) a).setWidth v = BitVec.ofInt v a := by
  apply eq_of_toNat_eq
  rw [toNat_setWidth]
  zify
  rw [toNat_ofInt_cast, toNat_ofInt_cast, pow_add, Int.emod_emod_of_dvd _ (Dvd.intro _ rfl)]

/-- A word whose low `v` bits hold the counter `a`, shifted left until
    nothing else is left. -/
theorem shiftLeft_low (v k : Nat) (x : BitVec (v + k)) (a : Int)
    (h : x.setWidth v = BitVec.ofInt v a) : x <<< k = BitVec.ofInt (v + k) (a * 2 ^ k) := by
  have hmod : (x.toNat : Int) % 2 ^ v = a % 2 ^ v := by
    rw [← toNat_ofInt_cast a, ← h, toNat_setWidth]
    push_cast
    rfl
  apply eq_of_toNat_eq
  rw [toNat_shiftLeft, Nat.shiftLeft_eq]
  zify
  rw [toNat_ofInt_cast, pow_add, mul_comm, mul_comm a, mul_comm (2 ^ v : Int),
    Int.mul_emod_mul_of_pos _ _ (by positivity), Int.mul_emod_mul_of_pos _ _ (by positivity), hmod]

/-- The low bits of a counter shifted back down are the counter again. -/
theorem setWidth_ushiftRight (v k : Nat) (a : Int) :
    (BitVec.ofInt (v + k) (a * 2 ^ k) >>> k).setWidth v = BitVec.ofInt v a := by
  rw [← shiftLeft_low v k (BitVec.ofInt (v + k) a) a (setWidth_ofInt v k a), ← setWidth_ofInt v k a]
  ext i hi
  simp only [getElem_setWidth, getLsbD_ushiftRight, getLsbD_shiftLeft]
  simp [show k + i < v + k by omega]

end SglangInc.Serial
