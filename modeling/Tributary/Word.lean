import Mathlib.Data.Int.Basic

/-!
# 64-bit integers

`i64` and `u64` values are unbounded numbers here; where the source can leave
the range of `i64`, `wrap64` is what a release build computes.
-/

namespace Tributary

/-- The least `i64`. -/
def i64Min : Int := -9223372036854775808

/-- The greatest `i64`. -/
def i64Max : Int := 9223372036854775807

/-- Two's complement wrap-around to `i64`. -/
def wrap64 (x : Int) : Int := x.bmod 18446744073709551616

/-- The value is representable, so the operation that gave it did not overflow. -/
def FitsI64 (x : Int) : Prop := i64Min ≤ x ∧ x ≤ i64Max

instance (x : Int) : Decidable (FitsI64 x) :=
  inferInstanceAs (Decidable (i64Min ≤ x ∧ x ≤ i64Max))

theorem wrap64_of_fits {x : Int} (h : FitsI64 x) : wrap64 x = x := by
  simp only [FitsI64, i64Min, i64Max] at h
  exact Int.bmod_eq_of_le_mul_two (by omega) (by omega)

/-- Wrapping keeps apart what is less than the whole range apart. -/
theorem wrap64_add_ne {x c : Int} (hpos : 0 < c) (hlt : c < 18446744073709551616) :
    wrap64 (x + c) ≠ wrap64 x := by
  intro h
  have hmod : (x + c) % (18446744073709551616 : Nat) = x % (18446744073709551616 : Nat) := by
    rw [← Int.bmod_emod (x := x + c), ← Int.bmod_emod (x := x)]
    exact congrArg (· % ((18446744073709551616 : Nat) : Int)) h
  omega

theorem wrap64_eq_iff (x y : Int) : wrap64 x = wrap64 y ↔ (x - y) % 18446744073709551616 = 0 := by
  rw [wrap64, wrap64, Int.bmod_eq_bmod_iff_bmod_sub_eq_zero, ← Int.dvd_iff_bmod_eq_zero]
  exact Int.dvd_iff_emod_eq_zero

end Tributary
