import Mathlib.Algebra.Order.Ring.Nat
import Mathlib.Tactic.Ring

/-! Rounding to multiples of a power of two with masks, in words of `w` bits. -/
namespace Align

/-- `x & ~(a - 1)` -/
def roundDown (w x a : ℕ) : ℕ := x &&& (2 ^ w - 1 - (a - 1))

/-- `(x + a - 1) & ~(a - 1)`; the sum wraps. -/
def roundUp (w x a : ℕ) : ℕ := roundDown w ((x + a - 1) % 2 ^ w) a

section Masks
variable {w k x : ℕ}

theorem mask_eq (hk : k ≤ w) : 2 ^ w - 1 - (2 ^ k - 1) = (2 ^ (w - k) - 1) <<< k := by
  have hpow : 2 ^ (w - k) * 2 ^ k = 2 ^ w := by rw [← Nat.pow_add, Nat.sub_add_cancel hk]
  have hpos : 0 < 2 ^ k := Nat.two_pow_pos k
  rw [Nat.shiftLeft_eq, Nat.sub_mul, one_mul, hpow]
  omega

theorem roundDown_eq (hk : k ≤ w) (hx : x < 2 ^ w) : roundDown w x (2 ^ k) = x / 2 ^ k * 2 ^ k := by
  apply Nat.eq_of_testBit_eq
  intro i
  rw [roundDown, mask_eq hk, Nat.testBit_and, Nat.testBit_shiftLeft, Nat.testBit_two_pow_sub_one,
    Nat.testBit_mul_two_pow, Nat.testBit_div_two_pow]
  by_cases hi : k ≤ i
  · rw [Nat.sub_add_cancel hi]
    by_cases hw : i < w
    · have hbit : i - k < w - k := by omega
      simp [hi, hbit]
    · -- bits above the word are clear in `x`
      have hle : 2 ^ w ≤ 2 ^ i := Nat.pow_le_pow_right (by decide) (not_lt.mp hw)
      have hbit : x.testBit i = false := Nat.testBit_lt_two_pow (hx.trans_le hle)
      simp [hbit]
  · simp [hi]

theorem dvd_roundDown (hk : k ≤ w) (hx : x < 2 ^ w) : 2 ^ k ∣ roundDown w x (2 ^ k) := by
  rw [roundDown_eq hk hx]
  exact Nat.dvd_mul_left _ _

theorem roundDown_bounds (hk : k ≤ w) (hx : x < 2 ^ w) :
    roundDown w x (2 ^ k) ≤ x ∧ x < roundDown w x (2 ^ k) + 2 ^ k := by
  rw [roundDown_eq hk hx]
  have hdiv := Nat.div_add_mod x (2 ^ k)
  have hmod := Nat.mod_lt x (Nat.two_pow_pos k)
  rw [Nat.mul_comm] at hdiv
  omega

theorem roundDown_lt {a : ℕ} (hx : x < 2 ^ w) : roundDown w x a < 2 ^ w :=
  Nat.and_le_left.trans_lt hx

theorem dvd_roundUp (hk : k ≤ w) : 2 ^ k ∣ roundUp w x (2 ^ k) :=
  dvd_roundDown hk (Nat.mod_lt _ (Nat.two_pow_pos w))

theorem roundUp_bounds (hk : k ≤ w) (hx : x + 2 ^ k - 1 < 2 ^ w) :
    x ≤ roundUp w x (2 ^ k) ∧ roundUp w x (2 ^ k) < x + 2 ^ k := by
  have hpos := Nat.two_pow_pos k
  have hbounds := roundDown_bounds hk hx
  rw [roundUp, Nat.mod_eq_of_lt hx]
  omega

/-- If the sum wraps, the result is below `x`. -/
theorem roundUp_lt (hk : k ≤ w) (hx : x < 2 ^ w) (hle : x ≤ roundUp w x (2 ^ k)) :
    roundUp w x (2 ^ k) < x + 2 ^ k := by
  have hpos := Nat.two_pow_pos k
  have hpow : 2 ^ k ≤ 2 ^ w := Nat.pow_le_pow_right (by decide) hk
  by_cases hsum : x + 2 ^ k - 1 < 2 ^ w
  · exact (roundUp_bounds hk hsum).2
  · have hmod : (x + 2 ^ k - 1) % 2 ^ w = x + 2 ^ k - 1 - 2 ^ w := by
      rw [Nat.mod_eq_sub_mod (not_lt.mp hsum)]
      exact Nat.mod_eq_of_lt (by omega)
    have hdown := (roundDown_bounds hk (Nat.mod_lt (x + 2 ^ k - 1) (Nat.two_pow_pos w))).1
    rw [← roundUp, hmod] at hdown
    omega

end Masks

end Align
