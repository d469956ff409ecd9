import MdfeedItch.CumulativeScans
import MdfeedItch.SignificantBits
import Mathlib.Data.Rat.Floor

/-! # The latency histogram

`obs/histogram.h` and `obs/histogram.cpp`. A cell is a pair of a bucket and a
sub-bucket; `percentile` takes the product of its argument with the count as an
exact rational. -/
namespace MdfeedItch
open SignificantBits CumulativeScans

abbrev kSubBucketBits : ℕ := 6
abbrev kSubBuckets : ℕ := 64
abbrev kBuckets : ℕ := 32

def leadingZeros64 (v : UInt64) : ℤ := if v = 0 then 64 else 63 - v.toNat.log2

/-- The bucket and the sub-bucket of a value. -/
def bucketIndex (value : UInt64) : ℕ × ℕ :=
  if value ≤ 1 then (0, 0)
  else
    let topBit := 63 - leadingZeros64 value
    let bucket := topBit - kSubBucketBits
    if bucket < 0 then (0, value.toNat - 1)
    else if kBuckets ≤ bucket then (kBuckets - 1, kSubBuckets - 1)
    else (bucket.toNat, (value >>> UInt64.ofNat bucket.toNat &&& UInt64.ofNat (kSubBuckets - 1)).toNat)

def bucketLowerBound (bucket sub : ℕ) : UInt64 :=
  if bucket = 0 then UInt64.ofNat sub + 1
  else (UInt64.ofNat kSubBuckets + UInt64.ofNat sub) <<< UInt64.ofNat bucket

/-- The sub-bucket of a larger value: the six bits behind its leading one. -/
theorem subBucket_toNat {value : UInt64} (hlow : 64 ≤ value.toNat) (hhigh : value.toNat < 2 ^ 38) :
    (value >>> UInt64.ofNat (cleared 6 value.toNat) &&& UInt64.ofNat (kSubBuckets - 1)).toNat =
      value.toNat / 2 ^ cleared 6 value.toNat - 64 := by
  have hv : value.toNat ≠ 0 := by omega
  have hleading : 6 ≤ value.toNat.log2 := (Nat.le_log2 hv).mpr hlow
  have hlog : value.toNat.log2 < 38 := (Nat.log2_lt hv).mpr hhigh
  have hshift : (UInt64.ofNat (cleared 6 value.toNat)).toNat % 64 = cleared 6 value.toNat := by
    rw [UInt64.toNat_ofNat', cleared]
    omega
  have hge := two_pow_le_div hv hleading
  have hlt := div_lt_two_pow hleading
  have hmask : (UInt64.ofNat (kSubBuckets - 1)).toNat = 2 ^ 6 - 1 := rfl
  rw [UInt64.toNat_and, UInt64.toNat_shiftRight, hshift, hmask, Nat.and_two_pow_sub_one_eq_mod,
    Nat.shiftRight_eq_div_pow]
  omega

/-- The four regimes, by the value as a number. -/
theorem bucketIndex_eq (value : UInt64) : bucketIndex value =
    if value.toNat ≤ 1 then (0, 0)
    else if value.toNat < 64 then (0, value.toNat - 1)
    else if 2 ^ 38 ≤ value.toNat then (31, 63)
    else (cleared 6 value.toNat, value.toNat / 2 ^ cleared 6 value.toNat - 64) := by
  have hone : value ≤ 1 ↔ value.toNat ≤ 1 := UInt64.le_iff_toNat_le
  rw [bucketIndex]
  by_cases htiny : value.toNat ≤ 1
  · rw [if_pos (hone.mpr htiny), if_pos htiny]
  have hv : value.toNat ≠ 0 := by omega
  have hbucket : 63 - leadingZeros64 value - (kSubBucketBits : ℕ) = (value.toNat.log2 : ℤ) - 6 := by
    rw [leadingZeros64, if_neg (fun hz => hv (by rw [hz]; rfl)), sub_sub_cancel]
    rfl
  have hbuckets : ((kBuckets : ℕ) : ℤ) = 32 := rfl
  have hlinear : value.toNat.log2 < 6 ↔ value.toNat < 64 := Nat.log2_lt hv
  have hclamp : 38 ≤ value.toNat.log2 ↔ 2 ^ 38 ≤ value.toNat := Nat.le_log2 hv
  rw [if_neg (fun h => htiny (hone.mp h)), if_neg htiny]
  dsimp only
  rw [hbucket]
  by_cases hsmall : value.toNat < 64
  · rw [if_pos (by omega), if_pos hsmall]
  rw [if_neg (by omega), if_neg hsmall]
  by_cases hlarge : 2 ^ 38 ≤ value.toNat
  · rw [if_pos hlarge, if_pos (by have := hclamp.mpr hlarge; omega)]
    rfl
  · have htoNat : ((value.toNat.log2 : ℤ) - 6).toNat = cleared 6 value.toNat := by
      rw [cleared]
      omega
    rw [if_neg hlarge, if_neg (by have := mt hclamp.mp hlarge; omega), htoNat,
      subBucket_toNat (by omega) (by omega)]

theorem bucketIndex_lt (value : UInt64) : (bucketIndex value).1 < kBuckets ∧ (bucketIndex value).2 < kSubBuckets := by
  show (bucketIndex value).1 < 32 ∧ (bucketIndex value).2 < 64
  rw [bucketIndex_eq]
  split_ifs with htiny hsmall hlarge
  · decide
  · dsimp only
    omega
  · decide
  · have hv : value.toNat ≠ 0 := by omega
    have hlog : value.toNat.log2 < 38 := (Nat.log2_lt hv).mpr (by omega)
    have hleading : 6 ≤ value.toNat.log2 := (Nat.le_log2 hv).mpr (Nat.not_lt.mp hsmall)
    have hlt := div_lt_two_pow hleading
    have hcleared : cleared 6 value.toNat = value.toNat.log2 - 6 := rfl
    dsimp only
    omega

/-- The position of the cell of a value in `counts_`. -/
def cellOf (value : UInt64) : Fin (kBuckets * kSubBuckets) :=
  ⟨(bucketIndex value).1 * kSubBuckets + (bucketIndex value).2, by
    obtain ⟨hbucket, hsub⟩ := bucketIndex_lt value
    simp only [kBuckets, kSubBuckets] at hbucket hsub ⊢
    omega⟩

structure Histogram where
  counts : Vector UInt64 (kBuckets * kSubBuckets)
  count : UInt64
  total : UInt64
  min : UInt64
  max : UInt64

namespace Histogram

def new : Histogram := ⟨Vector.replicate _ 0, 0, 0, 18446744073709551615, 0⟩

def record (h : Histogram) (value : UInt64) : Histogram where
  counts := h.counts.set (cellOf value) (h.counts.get (cellOf value) + 1)
  count := h.count + 1
  total := h.total + value
  min := if value < h.min then value else h.min
  max := if h.max < value then value else h.max

def recordAll (values : List UInt64) : Histogram := values.foldl record new

/-- The cells in the order of the two loops. -/
def cells : List (ℕ × ℕ) := rowMajor kBuckets kSubBuckets

/-- The loops of `percentile`; no result where they run to their end. -/
def scan (h : Histogram) (target running : UInt64) : List (ℕ × ℕ) → Option UInt64
  | [] => none
  | (b, s) :: rest =>
    let running := running + h.counts[b * kSubBuckets + s]?.getD 0
    if target ≤ running then some (bucketLowerBound b s) else h.scan target running rest

def percentile (h : Histogram) (p : ℚ) : UInt64 :=
  if h.count = 0 then 0
  else
    let p := if p < 0 then 0 else p
    let p := if 1 < p then 1 else p
    let target := UInt64.ofNat ⌊p * h.count.toNat⌋₊
    (h.scan target 0 cells).getD h.max

end Histogram

end MdfeedItch
