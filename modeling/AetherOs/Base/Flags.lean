import Mathlib.Algebra.Group.Nat.Defs
import Mathlib.Data.Nat.Basic

/-! # Flag and field masks -/

namespace AetherOs.Base

open BitVec

theorem and_twoPow_bne_zero {w : ℕ} (x : BitVec w) (i : ℕ) :
    (x &&& twoPow w i != 0#w) = x.getLsbD i := by
  rw [and_twoPow]
  by_cases hbit : x.getLsbD i
  · have hi : i < w := lt_of_getLsbD hbit
    have hne : twoPow w i ≠ 0#w := by
      intro hzero
      have hget := congrArg (fun y => y.getLsbD i) hzero
      simp [hi] at hget
    rw [if_pos hbit, hbit]
    exact bne_iff_ne.mpr hne
  · rw [if_neg hbit, Bool.eq_false_iff.mpr hbit, bne_self_eq_false]

theorem toNat_and_field {w : ℕ} (lo n : ℕ) (x m : BitVec w)
    (hm : ∀ i < w, m.getLsbD i = (decide (lo ≤ i) && decide (i < lo + n))) :
    (x &&& m).toNat = x.toNat / 2 ^ lo % 2 ^ n * 2 ^ lo := by
  refine Nat.eq_of_testBit_eq fun i => ?_
  have hmask : m.toNat.testBit i = (decide (i < w) && decide (lo ≤ i) && decide (i < lo + n)) := by
    by_cases hi : i < w
    · rw [testBit_toNat, hm i hi]
      simp [hi]
    · rw [testBit_toNat, getLsbD_of_ge _ _ (by omega)]
      simp [hi]
  have hx : x.toNat.testBit i = (decide (i < w) && x.toNat.testBit i) := by
    by_cases hi : i < w
    · simp [hi]
    · rw [testBit_toNat, getLsbD_of_ge _ _ (by omega)]
      simp [hi]
  rw [toNat_and, Nat.testBit_and, hmask, Nat.testBit_mul_two_pow, Nat.testBit_mod_two_pow,
    Nat.testBit_div_two_pow]
  by_cases hlo : lo ≤ i
  · have hn : decide (i - lo < n) = decide (i < lo + n) := by
      rw [decide_eq_decide]
      omega
    rw [Nat.sub_add_cancel hlo, hx, hn]
    by_cases hi : i < w <;> simp [hi, hlo, Bool.and_comm]
  · simp [hlo]

theorem toNat_or_of_lt {w k a : ℕ} (x y : BitVec w) (hx : x.toNat = a * 2 ^ k) (hy : y.toNat < 2 ^ k) :
    (x ||| y).toNat = x.toNat + y.toNat := by
  rw [toNat_or, hx, Nat.mul_comm, Nat.two_pow_add_eq_or_of_lt hy]

end AetherOs.Base
