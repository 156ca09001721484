import Mathlib.Algebra.Group.Int.Defs
import Mathlib.Data.Finset.Card

/-!
# Machine counters that do not wrap

A 64-bit counter that is stepped and does not become zero has not wrapped, so that its value over
the natural numbers steps with it. A positive signed number that gets greater by doubling has not
wrapped, either.
-/

namespace UInt64

theorem toNat_add_one_of_ne_zero {c : UInt64} (h : c + 1 ≠ 0) : (c + 1).toNat = c.toNat + 1 := by
  have hlt := c.toNat_lt
  rw [UInt64.toNat_add, UInt64.toNat_one]
  refine Nat.mod_eq_of_lt ?_
  by_contra hge
  apply h
  rw [← UInt64.toNat_inj, UInt64.toNat_add, UInt64.toNat_one, UInt64.toNat_zero]
  omega

theorem eq_add_one_iff {c d : UInt64} (h : d ≠ 0) : d = c + 1 ↔ d.toNat = c.toNat + 1 := by
  constructor
  · rintro rfl
    exact toNat_add_one_of_ne_zero h
  · intro heq
    rw [← UInt64.toNat_inj, heq, UInt64.toNat_add, UInt64.toNat_one]
    have := d.toNat_lt
    omega

theorem toNat_sub_one_add_one {c : UInt64} (h : 0 < c.toNat) : (c - 1).toNat + 1 = c.toNat := by
  have hle : 1 ≤ c := UInt64.le_iff_toNat_le.mpr h
  rw [UInt64.toNat_sub_of_le _ _ hle, UInt64.toNat_one]
  exact Nat.sub_add_cancel h

/-- The number before is the only smaller one that is not still smaller than it. -/
theorem lt_or_eq_pred {c d : UInt64} (h : c < d) : c < d - 1 ∨ c = d - 1 := by
  grind

theorem le_of_lt_add_one {c d : UInt64} (h : c < d + 1) : c ≤ d := by
  grind

end UInt64

namespace Int64

theorem toInt_mul_two {a : Int64} (hpos : 0 < a.toInt) (h : a.toInt * 2 < 2 ^ 63) :
    (a * 2).toInt = a.toInt * 2 := by
  have htwo : (2 : Int64).toInt = 2 := by decide
  rw [Int64.toInt_mul, htwo, Int.bmod_def]
  split_ifs <;> omega

theorem lt_mul_two_iff {a : Int64} (hpos : 0 < a.toInt) : a < a * 2 ↔ a.toInt * 2 < 2 ^ 63 := by
  have htwo : (2 : Int64).toInt = 2 := by decide
  have hlt := a.toInt_lt
  rw [Int64.lt_iff_toInt_lt, Int64.toInt_mul, htwo, Int.bmod_def]
  split_ifs <;> omega

end Int64
