import MdfeedItch.LatencyHistogram

/-! # How close a bucket is to its values

From 128 up to the clamp a bucket holds the values with the same seven leading
bits, and below 64 every value has a cell of its own. The values from 64 to 127 go
into the cells of 1 to 63, where the shifted layout meets the linear one. -/
namespace MdfeedItch
open SignificantBits

def representative (v : UInt64) : UInt64 := bucketLowerBound (bucketIndex v).1 (bucketIndex v).2

theorem bucketLowerBound_toNat {bucket sub : ℕ} (hbucket : bucket < 32) (hsub : sub < 64) :
    (bucketLowerBound bucket sub).toNat = if bucket = 0 then sub + 1 else (64 + sub) * 2 ^ bucket := by
  have hs : (UInt64.ofNat sub).toNat = sub := by
    rw [UInt64.toNat_ofNat']
    omega
  rw [bucketLowerBound]
  split_ifs with hzero
  · rw [UInt64.toNat_add, hs]
    show (sub + 1) % 2 ^ 64 = sub + 1
    omega
  · have hsum : (UInt64.ofNat kSubBuckets + UInt64.ofNat sub).toNat = 64 + sub := by
      rw [UInt64.toNat_add, hs]
      show (64 + sub) % 2 ^ 64 = 64 + sub
      omega
    have hshift : (UInt64.ofNat bucket).toNat % 64 = bucket := by
      rw [UInt64.toNat_ofNat']
      omega
    have hfit : (64 + sub) * 2 ^ bucket < 2 ^ 64 := by
      calc (64 + sub) * 2 ^ bucket < 2 ^ 7 * 2 ^ bucket := Nat.mul_lt_mul_of_pos_right (by omega) (by positivity)
        _ = 2 ^ (7 + bucket) := by rw [pow_add]
        _ ≤ 2 ^ 64 := Nat.pow_le_pow_right (by norm_num) (by omega)
    rw [UInt64.toNat_shiftLeft, hsum, hshift, Nat.shiftLeft_eq, Nat.mod_eq_of_lt hfit]

/-- The representatives of the four regimes, and of the seam between the linear and the shifted layout. -/
theorem representative_toNat (v : UInt64) : (representative v).toNat =
    if v.toNat ≤ 1 then 1
    else if v.toNat < 64 then v.toNat
    else if 2 ^ 38 ≤ v.toNat then 127 * 2 ^ 31
    else if v.toNat < 128 then v.toNat - 63
    else keepTop 6 v.toNat := by
  obtain ⟨hbucket, hsub⟩ := bucketIndex_lt v
  rw [representative, bucketLowerBound_toNat hbucket hsub, bucketIndex_eq]
  by_cases htiny : v.toNat ≤ 1
  · simp only [if_pos htiny, if_true]
  have hv : v.toNat ≠ 0 := by omega
  by_cases hsmall : v.toNat < 64
  · simp only [if_neg htiny, if_pos hsmall, if_true]
    omega
  by_cases hlarge : 2 ^ 38 ≤ v.toNat
  · simp only [if_neg htiny, if_neg hsmall, if_pos hlarge]
    rfl
  have hleading : 6 ≤ v.toNat.log2 := (Nat.le_log2 hv).mpr (Nat.not_lt.mp hsmall)
  have hseam : v.toNat.log2 < 7 ↔ v.toNat < 128 := Nat.log2_lt hv
  have hcleared : cleared 6 v.toNat = v.toNat.log2 - 6 := rfl
  simp only [if_neg htiny, if_neg hsmall, if_neg hlarge]
  by_cases hlinear : v.toNat < 128
  · have hnone : cleared 6 v.toNat = 0 := by
      have := hseam.mpr hlinear
      omega
    rw [if_pos hlinear, if_pos hnone, hnone, pow_zero, Nat.div_one]
    omega
  · have hsome : cleared 6 v.toNat ≠ 0 := by
      have := mt hseam.mp hlinear
      omega
    have hge := two_pow_le_div hv hleading
    rw [if_neg hlinear, if_neg hsome, keepTop, Nat.add_sub_of_le (by omega)]

theorem keepTop_range {v : ℕ} (hlow : 128 ≤ v) : 128 ≤ keepTop 6 v ∧ (v < 2 ^ 38 → keepTop 6 v ≤ 127 * 2 ^ 31) := by
  constructor
  · calc 128 = keepTop 6 128 := by decide
      _ ≤ keepTop 6 v := keepTop_mono hlow
  · intro hhigh
    calc keepTop 6 v ≤ keepTop 6 (2 ^ 38 - 1) := keepTop_mono (by omega)
      _ = 127 * 2 ^ 31 := by decide

def InSeam (v : UInt64) : Prop := 64 ≤ v.toNat ∧ v.toNat < 128

theorem representative_le_iff {v w : UInt64} (hv : 1 ≤ v.toNat) (hvw : v.toNat ≤ w.toNat) :
    representative v ≤ representative w ↔ ¬ (v.toNat < 64 ∧ InSeam w ∧ w.toNat < v.toNat + 63) := by
  rw [UInt64.le_iff_toNat_le, representative_toNat, representative_toNat, InSeam]
  have hmono : keepTop 6 v.toNat ≤ keepTop 6 w.toNat := keepTop_mono hvw
  have hv128 := @keepTop_range v.toNat
  have hw128 := @keepTop_range w.toNat
  split_ifs <;> omega

/-- A representative is no larger than its value, and close below the clamp, except in the seam. -/
theorem representative_close_iff {v : UInt64} (hv : 1 ≤ v.toNat) :
    (representative v ≤ v ∧
      (v.toNat < 2 ^ 38 → 64 * ((v.toNat : ℤ) - (representative v).toNat) < v.toNat)) ↔ ¬ InSeam v := by
  rw [UInt64.le_iff_toNat_le, representative_toNat, InSeam]
  have hle : keepTop 6 v.toNat ≤ v.toNat := keepTop_le
  have htight := keepTop_tight (k := 6) (Nat.ne_of_gt hv)
  split_ifs <;> omega

/-- Buckets are monotone and within one part in 64 for two values in order, exactly when the smaller
lies outside of the seam and the larger, if it is in the seam, lies 63 or more above it. -/
theorem representative_monotone_tight_iff (v w : UInt64) (hv : 1 ≤ v) (hvw : v ≤ w) :
    (representative v ≤ representative w ∧ representative v ≤ v ∧
      (v.toNat < 2 ^ 38 → 64 * ((v.toNat : ℤ) - (representative v).toNat) < v.toNat)) ↔
    ¬ InSeam v ∧ (InSeam w → v.toNat + 63 ≤ w.toNat) := by
  have hpos : 1 ≤ v.toNat := UInt64.le_iff_toNat_le.mp hv
  have hle := UInt64.le_iff_toNat_le.mp hvw
  rw [representative_le_iff hpos hle, representative_close_iff hpos, and_comm]
  refine and_congr_right (fun hout => ?_)
  unfold InSeam at hout ⊢
  omega

theorem representative_micro_milli : representative 1000 ≤ representative 1000000 ∧ representative 1000 ≤ 1000 ∧
    ((1000 : UInt64).toNat < 2 ^ 38 →
      64 * (((1000 : UInt64).toNat : ℤ) - (representative 1000).toNat) < (1000 : UInt64).toNat) :=
  (representative_monotone_tight_iff 1000 1000000 (by decide) (by decide)).mpr
    ⟨fun h => absurd h.2 (by decide), fun h => absurd h.2 (by decide)⟩

theorem representative_seam : ¬ ∀ v w : UInt64, 1 ≤ v → v ≤ w → (representative v ≤ representative w ∧
    representative v ≤ v ∧
      (v.toNat < 2 ^ 38 → 64 * ((v.toNat : ℤ) - (representative v).toNat) < v.toNat)) := by
  intro h
  exact absurd (h 63 64 (by decide) (by decide)).1 (by decide)

end MdfeedItch
