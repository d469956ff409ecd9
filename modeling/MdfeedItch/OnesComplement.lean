import MdfeedItch.ByteLayout

/-! # Ones-complement checksums of 16 bits

`fold` adds what is above 16 bits back in until nothing is left there. It keeps the
remainder by 65535, so data with a checksum field sum up to ones once the field
holds the complement of their sum. -/
namespace MdfeedItch.OnesComplement
open ByteCursor ByteLayout

def fold (n : ℕ) : ℕ := if n < 65536 then n else fold (n % 65536 + n / 65536)
termination_by n
decreasing_by omega

theorem fold_lt (n : ℕ) : fold n < 65536 := by
  induction n using fold.induct with
  | case1 n h => rwa [fold, if_pos h]
  | case2 n h ih => rwa [fold, if_neg h]

theorem fold_mod (n : ℕ) : fold n % 65535 = n % 65535 := by
  induction n using fold.induct with
  | case1 n h => rw [fold, if_pos h]
  | case2 n h ih =>
    rw [fold, if_neg h, ih]
    omega

theorem fold_pos {n : ℕ} (hn : 0 < n) : 0 < fold n := by
  induction n using fold.induct with
  | case1 n h => rwa [fold, if_pos h]
  | case2 n h ih =>
    rw [fold, if_neg h]
    exact ih (by omega)

/-- A sum and its complement fold to ones. -/
theorem fold_add_complement (n : ℕ) : fold (n + (65535 - fold n)) = 65535 := by
  have hlt := fold_lt n
  have hmod := fold_mod n
  have hsum := fold_mod (n + (65535 - fold n))
  have hsumlt := fold_lt (n + (65535 - fold n))
  have hpos : 0 < fold (n + (65535 - fold n)) := by
    refine fold_pos ?_
    rcases Nat.eq_zero_or_pos n with rfl | hn
    · rw [fold, if_pos (by norm_num)]
      norm_num
    · omega
  omega

/-- The sum of the big-endian words; a last odd byte is the high one of its word. -/
def wordSum : List UInt8 → ℕ
  | [] => 0
  | [a] => a.toNat * 256
  | a :: b :: rest => a.toNat * 256 + b.toNat + wordSum rest

theorem wordSum_append {front : List UInt8} (h : Even front.length) (back : List UInt8) :
    wordSum (front ++ back) = wordSum front + wordSum back := by
  induction front using wordSum.induct with
  | case1 => simp [wordSum]
  | case2 a => simp at h
  | case3 a b rest ih =>
    have hrest : Even rest.length := by simpa [Nat.even_add] using h
    rw [List.cons_append, List.cons_append, wordSum, wordSum, ih hrest]
    exact (Nat.add_assoc _ _ _).symm

theorem wordSum_toBytes {v : ℕ} (h : v < 65536) : wordSum (toBytes 2 v) = v := by
  have hhigh : (UInt8.ofNat (v / 256)).toNat = v / 256 := by
    rw [UInt8.toNat_ofNat']
    omega
  have hlow : (UInt8.ofNat v).toNat = v % 256 := UInt8.toNat_ofNat'
  have hbytes : toBytes 2 v = [UInt8.ofNat (v / 256), UInt8.ofNat v] := by simp [toBytes]
  rw [hbytes, wordSum, wordSum, hhigh, hlow]
  omega

/-- The checksum of data whose checksum field is zero. -/
def checksum (data : List UInt8) : ℕ := 65535 - fold (wordSum data)

/-- With its checksum filled in, data fold to ones. -/
theorem fold_wordSum_checksum {front : List UInt8} (hfront : Even front.length) (back : List UInt8) :
    fold (wordSum (front ++ (toBytes 2 (checksum (front ++ (toBytes 2 0 ++ back))) ++ back))) = 65535 := by
  have hfield (v : ℕ) (hv : v < 65536) :
      wordSum (front ++ (toBytes 2 v ++ back)) = wordSum (front ++ (toBytes 2 0 ++ back)) + v := by
    have heven (v : ℕ) : Even (toBytes 2 v).length := by simp
    rw [wordSum_append hfront, wordSum_append hfront, wordSum_append (heven v), wordSum_append (heven 0),
      wordSum_toBytes hv, wordSum_toBytes (by norm_num)]
    omega
  rw [hfield _ (by rw [checksum]; omega), checksum]
  exact fold_add_complement _

end MdfeedItch.OnesComplement
