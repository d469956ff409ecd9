import Mathlib.Data.Nat.Bitwise
import Mathlib.Data.List.Zip
import Mathlib.Logic.Function.Iterate
import Mathlib.Tactic.Common
import Mathlib.Tactic.Positivity
import Mathlib.Tactic.Ring

/-! # Reflected cyclic redundancy registers

A register of `w` bits that absorbs bytes, low bit first. The rounds are linear in
the register, and injective when the top bit of the polynomial is set. A difference
of the data that spans at most `w` bits cannot cancel, since a zero register has
only been reached through registers with fewer and fewer bits. -/
namespace MdfeedItch.CyclicRedundancy

variable {w : ℕ}

/-- One round: the low bit leaves and selects the polynomial. -/
def shift (poly c : BitVec w) : BitVec w := if c.getLsbD 0 then poly ^^^ (c >>> 1) else c >>> 1

/-- The register after one more byte. -/
def absorb (poly c : BitVec w) (b : BitVec 8) : BitVec w := (shift poly)^[8] (c ^^^ b.setWidth w)

def register (poly c : BitVec w) (data : List (BitVec 8)) : BitVec w := data.foldl (absorb poly) c

theorem shift_xor (poly a b : BitVec w) : shift poly (a ^^^ b) = shift poly a ^^^ shift poly b := by
  simp only [shift, BitVec.getLsbD_xor, BitVec.ushiftRight_xor_distrib]
  cases ha : a.getLsbD 0 <;> cases hb : b.getLsbD 0
  · rfl
  · show poly ^^^ (a >>> 1 ^^^ b >>> 1) = a >>> 1 ^^^ (poly ^^^ b >>> 1)
    ac_rfl
  · exact (BitVec.xor_assoc _ _ _).symm
  · have hcancel : (poly ^^^ a >>> 1) ^^^ (poly ^^^ b >>> 1) = (poly ^^^ poly) ^^^ (a >>> 1 ^^^ b >>> 1) := by
      ac_rfl
    simp only [Bool.xor_self, Bool.false_eq_true, if_false, if_true]
    rw [hcancel, BitVec.xor_self, BitVec.zero_xor]

theorem iterate_shift_xor (poly a b : BitVec w) (k : ℕ) :
    (shift poly)^[k] (a ^^^ b) = (shift poly)^[k] a ^^^ (shift poly)^[k] b := by
  induction k generalizing a b with
  | zero => rfl
  | succ k ih => rw [Function.iterate_succ_apply, Function.iterate_succ_apply,
    Function.iterate_succ_apply, shift_xor, ih]

theorem absorb_xor (poly c d : BitVec w) (a b : BitVec 8) :
    absorb poly c a ^^^ absorb poly d b = absorb poly (c ^^^ d) (a ^^^ b) := by
  rw [absorb, absorb, absorb, ← iterate_shift_xor, BitVec.setWidth_xor]
  congr 1
  ac_rfl

/-- Two runs differ by the run of the differences. -/
theorem register_xor (poly : BitVec w) {xs ys : List (BitVec 8)} (hlen : xs.length = ys.length)
    (c d : BitVec w) :
    register poly c xs ^^^ register poly d ys = register poly (c ^^^ d) (List.zipWith (· ^^^ ·) xs ys) := by
  induction xs generalizing ys c d with
  | nil =>
    obtain rfl := List.length_eq_zero_iff.mp hlen.symm
    rfl
  | cons x xs ih =>
    obtain ⟨y, ys, rfl⟩ := List.exists_cons_of_length_eq_add_one hlen.symm
    have htail : xs.length = ys.length := by simpa using hlen
    have hstep := ih htail (absorb poly c x) (absorb poly d y)
    rwa [absorb_xor] at hstep

theorem register_append (poly c : BitVec w) (xs ys : List (BitVec 8)) :
    register poly c (xs ++ ys) = register poly (register poly c xs) ys := List.foldl_append

/-- One bit of data: with the low bit of the register it selects the polynomial. -/
def absorbBit (poly c : BitVec w) (bit : Bool) : BitVec w :=
  if c.getLsbD 0 ^^ bit then poly ^^^ (c >>> 1) else c >>> 1

/-- The bits of a byte, low bit first. -/
def lowFirst (b : BitVec 8) : List Bool := (List.range 8).map b.getLsbD

/-- The register after the data, taken one bit at a time. -/
def bitRegister (poly c : BitVec w) (data : List (BitVec 8)) : BitVec w :=
  (data.flatMap lowFirst).foldl (absorbBit poly) c

/-- Only the low bit of a difference takes part in a round; the others move on. -/
theorem shift_xor_eq_absorbBit (poly c x : BitVec w) :
    shift poly (c ^^^ x) = absorbBit poly c (x.getLsbD 0) ^^^ (x >>> 1) := by
  rw [shift, absorbBit, BitVec.getLsbD_xor, BitVec.ushiftRight_xor_distrib]
  by_cases hbit : (c.getLsbD 0 ^^ x.getLsbD 0) = true
  · rw [if_pos hbit, if_pos hbit, BitVec.xor_assoc]
  · rw [if_neg hbit, if_neg hbit]

theorem iterate_shift_xor_eq_foldl (poly c x : BitVec w) (k : ℕ) :
    (shift poly)^[k] (c ^^^ x) = ((List.range k).map x.getLsbD).foldl (absorbBit poly) c ^^^ (x >>> k) := by
  induction k with
  | zero => simp
  | succ k ih =>
    have hlow : (x >>> k).getLsbD 0 = x.getLsbD k := by rw [BitVec.getLsbD_ushiftRight, Nat.add_zero]
    rw [Function.iterate_succ_apply', ih, shift_xor_eq_absorbBit, hlow, ← BitVec.shiftRight_add, List.range_succ,
      List.map_append, List.foldl_append]
    rfl

/-- A byte is absorbed bit by bit, low bit first. -/
theorem absorb_eq_foldl (poly c : BitVec w) (hw : 8 ≤ w) (b : BitVec 8) :
    absorb poly c b = (lowFirst b).foldl (absorbBit poly) c := by
  have hbits : (List.range 8).map (b.setWidth w).getLsbD = lowFirst b := by
    refine List.map_congr_left (fun i hi => ?_)
    have hlt : i < w := (List.mem_range.mp hi).trans_le hw
    rw [BitVec.getLsbD_setWidth, decide_eq_true hlt, Bool.true_and]
  have hgone : b.setWidth w >>> 8 = 0#w := by
    apply BitVec.eq_of_getLsbD_eq
    intro i _
    rw [BitVec.getLsbD_ushiftRight, BitVec.getLsbD_setWidth, BitVec.getLsbD_of_ge b (8 + i) (by omega), Bool.and_false,
      BitVec.getLsbD_zero]
  rw [absorb, iterate_shift_xor_eq_foldl, hbits, hgone, BitVec.xor_zero]

/-- So is all data. -/
theorem register_eq_bitRegister (poly c : BitVec w) (hw : 8 ≤ w) (data : List (BitVec 8)) :
    register poly c data = bitRegister poly c data := by
  induction data generalizing c with
  | nil => rfl
  | cons b data ih =>
    rw [bitRegister, List.flatMap_cons, List.foldl_append, ← absorb_eq_foldl poly c hw b]
    exact ih (absorb poly c b)

/-- A round that leaves the top bit clear has halved the register. -/
theorem toNat_of_shift {poly c : BitVec w} (htop : poly.msb = true) (h : (shift poly c).toNat < 2 ^ (w - 1)) :
    c.toNat = 2 * (shift poly c).toNat := by
  have hw : w ≠ 0 := by
    rintro rfl
    rw [BitVec.of_length_zero (x := poly)] at htop
    cases htop
  unfold shift at h ⊢
  cases hlow : c.getLsbD 0 with
  | true =>
    -- the top bit comes from the polynomial
    rw [hlow, if_pos rfl] at h
    have hmsb : (poly ^^^ (c >>> 1)).msb = true := by
      rw [BitVec.msb_xor, htop, BitVec.msb_ushiftRight]
      simp
    rw [BitVec.msb_eq_decide] at hmsb
    exact absurd h (Nat.not_lt.mpr (of_decide_eq_true hmsb))
  | false =>
    have heven : c.toNat % 2 = 0 := by
      rw [BitVec.getLsbD, Nat.testBit_zero] at hlow
      have := of_decide_eq_false hlow
      omega
    rw [if_neg (by simp), BitVec.toNat_ushiftRight, Nat.shiftRight_one]
    omega

/-- Rounds that leave the top bits clear have only shifted. -/
theorem toNat_of_iterate_shift {poly c : BitVec w} (htop : poly.msb = true) {k : ℕ} (hk : k ≤ w)
    (h : ((shift poly)^[k] c).toNat < 2 ^ (w - k)) : c.toNat = 2 ^ k * ((shift poly)^[k] c).toNat := by
  induction k generalizing c with
  | zero => simp
  | succ k ih =>
    rw [Function.iterate_succ_apply] at h ⊢
    have hback := ih (by omega) (h.trans_le (Nat.pow_le_pow_right (by norm_num) (by omega)))
    have hsmall : (shift poly c).toNat < 2 ^ (w - 1) := by
      calc (shift poly c).toNat = 2 ^ k * ((shift poly)^[k] (shift poly c)).toNat := hback
        _ < 2 ^ k * 2 ^ (w - (k + 1)) := Nat.mul_lt_mul_of_pos_left h (by positivity)
        _ = 2 ^ (w - 1) := by rw [← pow_add]; congr 1; omega
    rw [toNat_of_shift htop hsmall, hback]
    ring

theorem toNat_of_absorb {poly c : BitVec w} (htop : poly.msb = true) (hw : 8 ≤ w) {b : BitVec 8}
    (h : (absorb poly c b).toNat < 2 ^ (w - 8)) :
    (c ^^^ b.setWidth w).toNat = 2 ^ 8 * (absorb poly c b).toNat :=
  toNat_of_iterate_shift htop hw h

theorem absorb_injective {poly c d : BitVec w} (htop : poly.msb = true) (hw : 8 ≤ w) {b : BitVec 8}
    (h : absorb poly c b = absorb poly d b) : c = d := by
  have hzero : absorb poly (c ^^^ d) (b ^^^ b) = 0#w := by rw [← absorb_xor, h, BitVec.xor_self]
  rw [BitVec.xor_self] at hzero
  have hback := toNat_of_absorb htop hw (b := 0#8) (c := c ^^^ d) (by rw [hzero]; simp)
  rw [hzero] at hback
  have hxor : c ^^^ d = 0#w := by
    apply BitVec.eq_of_toNat_eq
    simpa using hback
  exact BitVec.xor_eq_zero_iff.mp hxor

theorem register_injective {poly : BitVec w} (htop : poly.msb = true) (hw : 8 ≤ w) {data : List (BitVec 8)}
    {c d : BitVec w}
    (h : register poly c data = register poly d data) : c = d := by
  induction data generalizing c d with
  | nil => exact h
  | cons b data ih => exact absorb_injective htop hw (ih h)

/-- A register that is still to become zero has no more bits than the data left. -/
theorem toNat_lt_of_register {poly d : BitVec w} (htop : poly.msb = true) {es : List (BitVec 8)}
    (hes : 8 * es.length ≤ w)
    (h : register poly d es = 0#w) : d.toNat < 2 ^ (8 * es.length) := by
  induction es generalizing d with
  | nil =>
    have hd : d = 0#w := h
    rw [hd]
    simp
  | cons e es ih =>
    rw [List.length_cons] at hes ⊢
    have hnext := ih (by omega) (d := absorb poly d e) h
    have hback := toNat_of_absorb htop (by omega) (hnext.trans_le
      (Nat.pow_le_pow_right (by norm_num) (by omega)))
    have hd : d.toNat = (d ^^^ e.setWidth w).toNat ^^^ (e.setWidth w).toNat := by
      rw [← BitVec.toNat_xor, BitVec.xor_assoc, BitVec.xor_self, BitVec.xor_zero]
    rw [hd]
    apply Nat.xor_lt_two_pow
    · calc (d ^^^ e.setWidth w).toNat = 2 ^ 8 * (absorb poly d e).toNat := hback
        _ < 2 ^ 8 * 2 ^ (8 * es.length) := Nat.mul_lt_mul_of_pos_left hnext (by norm_num)
        _ = 2 ^ (8 * (es.length + 1)) := by rw [← pow_add]; congr 1; omega
    · rw [BitVec.toNat_setWidth]
      calc e.toNat % 2 ^ w ≤ e.toNat := Nat.mod_le _ _
        _ < 2 ^ 8 := e.isLt
        _ ≤ 2 ^ (8 * (es.length + 1)) := Nat.pow_le_pow_right (by norm_num) (by omega)

/-- A nonzero difference of at most `w` bits does not vanish. -/
theorem eq_zero_of_register {poly : BitVec w} (htop : poly.msb = true) {es : List (BitVec 8)}
    (hes : 8 * es.length ≤ w)
    (h : register poly 0#w es = 0#w) : ∀ e ∈ es, e = 0 := by
  induction es with
  | nil => simp
  | cons e es ih =>
    rw [List.length_cons] at hes
    have hnext := toNat_lt_of_register htop (by omega) (d := absorb poly 0#w e) h
    have hback := toNat_of_absorb htop (by omega) (hnext.trans_le
      (Nat.pow_le_pow_right (by norm_num) (by omega)))
    rw [BitVec.zero_xor, BitVec.toNat_setWidth,
      Nat.mod_eq_of_lt (e.isLt.trans_le (Nat.pow_le_pow_right (by norm_num) (by omega)))] at hback
    have he := e.isLt
    have hzero : e = 0 := by
      apply BitVec.eq_of_toNat_eq
      show e.toNat = 0
      omega
    have hreg : absorb poly 0#w e = 0#w := by
      apply BitVec.eq_of_toNat_eq
      rw [BitVec.toNat_zero]
      omega
    have htail : register poly 0#w es = 0#w := by
      have hall : register poly (absorb poly 0#w e) es = 0#w := h
      rwa [hreg] at hall
    exact List.forall_mem_cons.mpr ⟨hzero, ih (by omega) htail⟩

theorem eq_of_zipWith_xor {xs ys : List (BitVec 8)} (hlen : xs.length = ys.length)
    (h : ∀ e ∈ List.zipWith (· ^^^ ·) xs ys, e = 0) : xs = ys := by
  induction xs generalizing ys with
  | nil => exact (List.length_eq_zero_iff.mp hlen.symm).symm
  | cons x xs ih =>
    obtain ⟨y, ys, rfl⟩ := List.exists_cons_of_length_eq_add_one hlen.symm
    obtain ⟨hhead, htail⟩ := List.forall_mem_cons.mp h
    rw [BitVec.xor_eq_zero_iff.mp hhead, ih (by simpa using hlen) htail]

/-- Data that differ within `w` bits in a row have different registers. -/
theorem register_burst {poly : BitVec w} (htop : poly.msb = true) (hw : 8 ≤ w) {xs ys : List (BitVec 8)}
    (hlen : xs.length = ys.length) (hburst : 8 * xs.length ≤ w) {c : BitVec w} {front back : List (BitVec 8)}
    (h : register poly c (front ++ (xs ++ back)) = register poly c (front ++ (ys ++ back))) : xs = ys := by
  simp only [register_append] at h
  have hxor := register_xor poly hlen (register poly c front) (register poly c front)
  rw [register_injective htop hw h, BitVec.xor_self, BitVec.xor_self] at hxor
  apply eq_of_zipWith_xor hlen
  exact eq_zero_of_register htop
    (by rw [List.length_zipWith, hlen, Nat.min_self, ← hlen]; exact hburst) hxor.symm

/-- Rounds on a register whose low bits are clear only shift. -/
theorem iterate_shift_of_dvd {poly c : BitVec w} {k : ℕ} (h : 2 ^ k ∣ c.toNat) :
    (shift poly)^[k] c = c >>> k := by
  induction k generalizing c with
  | zero => simp
  | succ k ih =>
    have heven : c.getLsbD 0 = false := by
      rw [BitVec.getLsbD, Nat.testBit_zero]
      have htwo : 2 ∣ c.toNat := (dvd_pow_self 2 (by omega)).trans h
      simp only [decide_eq_false_iff_not]
      omega
    have hhalf : 2 ^ k ∣ (c >>> 1).toNat := by
      rw [BitVec.toNat_ushiftRight, Nat.shiftRight_one]
      obtain ⟨q, hq⟩ := h
      refine ⟨q, ?_⟩
      rw [hq, pow_succ, Nat.mul_right_comm, Nat.mul_div_cancel _ (by norm_num)]
    have hfirst : shift poly c = c >>> 1 := if_neg (by simp [heven])
    rw [Function.iterate_succ_apply, hfirst, ih hhalf, ← BitVec.shiftRight_add, Nat.add_comm]

/-- A byte is absorbed by a table lookup under the low byte and a shift. -/
theorem absorb_eq_table (poly c : BitVec w) (hw : 8 ≤ w) (b : BitVec 8) : absorb poly c b =
    (shift poly)^[8] (((c ^^^ b.setWidth w).setWidth 8).setWidth w) ^^^ (c >>> 8) := by
  obtain ⟨x, hx⟩ : ∃ x, c ^^^ b.setWidth w = x := ⟨_, rfl⟩
  obtain ⟨low, hlow⟩ : ∃ low, (x.setWidth 8).setWidth w = low := ⟨_, rfl⟩
  have hsplit : x = low ^^^ (low ^^^ x) := by rw [← BitVec.xor_assoc, BitVec.xor_self, BitVec.zero_xor]
  have hclear : 2 ^ 8 ∣ (low ^^^ x).toNat := by
    have hmod : low.toNat % 2 ^ 8 = x.toNat % 2 ^ 8 := by
      have hfit : 2 ^ 8 ≤ 2 ^ w := Nat.pow_le_pow_right (by norm_num) hw
      rw [← hlow, BitVec.toNat_setWidth, BitVec.toNat_setWidth,
        Nat.mod_eq_of_lt ((Nat.mod_lt _ (by norm_num)).trans_le hfit), Nat.mod_mod]
    apply Nat.dvd_of_mod_eq_zero
    rw [BitVec.toNat_xor, Nat.xor_mod_two_pow, hmod, Nat.xor_self]
  have hhigh : (low ^^^ x) >>> 8 = c >>> 8 := by
    apply BitVec.eq_of_getLsbD_eq
    intro i hi
    simp [← hlow, ← hx, BitVec.getLsbD_ushiftRight, BitVec.getLsbD_setWidth]
  rw [absorb, hx, hlow, ← hhigh, ← iterate_shift_of_dvd hclear, ← iterate_shift_xor, ← hsplit]

end MdfeedItch.CyclicRedundancy
