import Mathlib

/-!
# Flags in the low bits of aligned words

A word that is aligned to `2 ^ k` has room for `k` bits of flags. Setting them,
reading them and masking them off again are arithmetic.
-/

namespace OsShell.Words

theorem or_eq_add {k a b : ℕ} (ha : 2 ^ k ∣ a) (hb : b < 2 ^ k) : a ||| b = a + b := by
  obtain ⟨q, rfl⟩ := ha
  exact (Nat.two_pow_add_eq_or_of_lt hb q).symm

theorem and_high {k n a : ℕ} (ha : a < 2 ^ (k + n)) :
    a &&& 2 ^ k * (2 ^ n - 1) = 2 ^ k * (a / 2 ^ k) := by
  refine Nat.eq_of_testBit_eq fun i => ?_
  rw [Nat.testBit_and, Nat.testBit_two_pow_mul, Nat.testBit_two_pow_mul, Nat.testBit_two_pow_sub_one,
    Nat.testBit_div_two_pow]
  by_cases hk : k ≤ i
  · by_cases hn : i - k < n
    · simp [hk, hn, Nat.sub_add_cancel hk]
    · have hlow : a.testBit i = false :=
        Nat.testBit_lt_two_pow (ha.trans_le (Nat.pow_le_pow_right (by norm_num) (by omega)))
      simp [hk, hn, hlow, Nat.sub_add_cancel hk]
  · simp [hk]

theorem and_high_or {k n a b : ℕ} (ha : 2 ^ k ∣ a) (hb : b < 2 ^ k) (han : a < 2 ^ (k + n)) :
    (a ||| b) &&& 2 ^ k * (2 ^ n - 1) = a := by
  have hlt : a ||| b < 2 ^ (k + n) :=
    Nat.or_lt_two_pow han (hb.trans_le (Nat.pow_le_pow_right (by norm_num) (by omega)))
  rw [and_high hlt, or_eq_add ha hb]
  obtain ⟨q, rfl⟩ := ha
  rw [Nat.mul_add_div (by positivity), Nat.div_eq_of_lt hb, Nat.add_zero]

theorem dvd_and_high (k n a : ℕ) : 2 ^ k ∣ a &&& 2 ^ k * n := by
  refine Nat.dvd_of_mod_eq_zero ?_
  rw [Nat.and_mod_two_pow, Nat.mul_mod_right, Nat.and_zero]

theorem and_low_or {k a b c : ℕ} (ha : 2 ^ k ∣ a) (hb : b < 2 ^ k) (hc : c ≤ k) :
    (a ||| b) &&& 2 ^ c - 1 = b &&& 2 ^ c - 1 := by
  have hdvd : 2 ^ c ∣ a := (Nat.pow_dvd_pow 2 hc).trans ha
  rw [or_eq_add ha hb, Nat.and_two_pow_sub_one_eq_mod, Nat.and_two_pow_sub_one_eq_mod,
    Nat.add_mod, Nat.mod_eq_zero_of_dvd hdvd, Nat.zero_add, Nat.mod_mod]

end OsShell.Words
