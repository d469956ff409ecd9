import Mathlib.Data.Nat.Log
import Mathlib.Tactic.Common
import Mathlib.Tactic.Positivity
import Mathlib.Tactic.Ring

/-! # Numbers cut to their top bits

`keepTop k v` keeps the leading bit of a number and the `k` bits behind it. It is
monotone and within one part in `2 ^ k` of the number. -/
namespace MdfeedItch.SignificantBits

/-- The number of bits that `keepTop` clears. -/
def cleared (k v : ℕ) : ℕ := v.log2 - k

def keepTop (k v : ℕ) : ℕ := v / 2 ^ cleared k v * 2 ^ cleared k v

variable {k v w : ℕ}

theorem keepTop_le : keepTop k v ≤ v := Nat.div_mul_le_self v _

/-- What is kept starts with the leading bit. -/
theorem two_pow_le_div (hv : v ≠ 0) (hk : k ≤ v.log2) : 2 ^ k ≤ v / 2 ^ cleared k v := by
  have hsum : k + cleared k v = v.log2 := Nat.add_sub_cancel' hk
  rw [Nat.le_div_iff_mul_le (by positivity), ← pow_add, hsum]
  exact Nat.log2_self_le hv

theorem div_lt_two_pow (hk : k ≤ v.log2) : v / 2 ^ cleared k v < 2 ^ (k + 1) := by
  have hsum : k + 1 + cleared k v = v.log2 + 1 := by
    rw [cleared]
    omega
  rw [Nat.div_lt_iff_lt_mul (by positivity), ← pow_add, hsum]
  exact Nat.lt_log2_self

/-- Short numbers are kept whole. -/
theorem keepTop_of_short (hk : v.log2 ≤ k) : keepTop k v = v := by
  rw [keepTop, cleared, Nat.sub_eq_zero_of_le hk, pow_zero, Nat.div_one, Nat.mul_one]

theorem log2_le_keepTop (hv : v ≠ 0) : 2 ^ v.log2 ≤ keepTop k v := by
  rcases Nat.le_total v.log2 k with hk | hk
  · rw [keepTop_of_short hk]
    exact Nat.log2_self_le hv
  · calc 2 ^ v.log2 = 2 ^ k * 2 ^ cleared k v := by rw [← pow_add, cleared, Nat.add_sub_cancel' hk]
      _ ≤ keepTop k v := Nat.mul_le_mul_right _ (two_pow_le_div hv hk)

theorem keepTop_mono (h : v ≤ w) : keepTop k v ≤ keepTop k w := by
  rcases Nat.eq_zero_or_pos v with rfl | hv
  · exact keepTop_le.trans (Nat.zero_le _)
  have hw : w ≠ 0 := by omega
  rcases Nat.lt_or_ge v.log2 w.log2 with hlog | hlog
  · -- the leading bit of the larger number alone is more than all of the smaller
    calc keepTop k v ≤ v := keepTop_le
      _ ≤ 2 ^ (v.log2 + 1) := Nat.lt_log2_self.le
      _ ≤ 2 ^ w.log2 := Nat.pow_le_pow_right (by norm_num) hlog
      _ ≤ keepTop k w := log2_le_keepTop hw
  · have hsame : v.log2 = w.log2 := by
      refine Nat.le_antisymm ?_ hlog
      exact (Nat.le_log2 hw).mpr ((Nat.log2_self_le hv.ne').trans h)
    rw [keepTop, keepTop, cleared, cleared, hsame]
    exact Nat.mul_le_mul_right _ (Nat.div_le_div_right h)

/-- The cleared bits are less than one part in `2 ^ k`. -/
theorem keepTop_tight (hv : v ≠ 0) : 2 ^ k * (v - keepTop k v) < v := by
  rcases Nat.lt_or_ge v.log2 k with hk | hk
  · rw [keepTop_of_short hk.le, Nat.sub_self, Nat.mul_zero]
    exact Nat.pos_of_ne_zero hv
  · have hrest : v - keepTop k v = v % 2 ^ cleared k v := by
      rw [keepTop]
      have hsplit := Nat.div_add_mod' v (2 ^ cleared k v)
      omega
    rw [hrest]
    calc 2 ^ k * (v % 2 ^ cleared k v) < 2 ^ k * 2 ^ cleared k v :=
          Nat.mul_lt_mul_of_pos_left (Nat.mod_lt _ (by positivity)) (by positivity)
      _ = 2 ^ v.log2 := by rw [← pow_add, cleared, Nat.add_sub_cancel' hk]
      _ ≤ v := Nat.log2_self_le hv

end MdfeedItch.SignificantBits
