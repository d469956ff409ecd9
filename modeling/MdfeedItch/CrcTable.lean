import MdfeedItch.BookSnapshotWire
import MdfeedItch.CyclicRedundancy

/-! # The lookup table of the checksum

A table lookup takes eight rounds of the reflected register of 32 bits at once, so
`crc32` is the checksum that takes the data bit by bit. -/
namespace MdfeedItch
open CyclicRedundancy

/-- IEEE 802.3, reflected. -/
def crcPoly : BitVec 32 := 0xEDB88320#32

theorem crcRound_eq (c : UInt32) : (crcRound c).toBitVec = shift crcPoly c.toBitVec := by
  have hlow : c &&& 1 ≠ 0 ↔ c.toBitVec.getLsbD 0 = true := by
    rw [ne_eq, ← UInt32.toBitVec_inj, UInt32.toBitVec_and]
    show ¬(c.toBitVec &&& 1#32 = 0#32) ↔ _
    rw [BitVec.and_one_eq_setWidth_ofBool_getLsbD]
    cases c.toBitVec.getLsbD 0 <;> decide
  rw [crcRound, shift]
  by_cases hbit : c.toBitVec.getLsbD 0 = true
  · rw [if_pos (hlow.mpr hbit), if_pos hbit]
    rfl
  · rw [if_neg (fun h => hbit (hlow.mp h)), if_neg hbit]
    rfl

theorem iterate_crcRound_eq (c : UInt32) (k : ℕ) :
    (crcRound^[k] c).toBitVec = (shift crcPoly)^[k] c.toBitVec := by
  induction k generalizing c with
  | zero => rfl
  | succ k ih => rw [Function.iterate_succ_apply, Function.iterate_succ_apply, ih, crcRound_eq]

theorem crcTable_get (x : UInt8) :
    (crcTable.get x.toFin).toBitVec = (shift crcPoly)^[8] (x.toBitVec.setWidth 32) := by
  have hentry : crcTable.get x.toFin = crcRound^[8] x.toUInt32 := by
    have hindex : UInt32.ofNat x.toFin.val = x.toUInt32 := UInt32.toNat_inj.mp (by simp)
    have hget : crcTable.get x.toFin = crcTable[x.toFin.val] := rfl
    rw [hget, ← hindex]
    exact Vector.getElem_ofFn _
  rw [hentry, iterate_crcRound_eq]
  rfl

theorem crcUpdate_eq (c : UInt32) (b : UInt8) :
    (crcUpdate c b).toBitVec = absorb crcPoly c.toBitVec b.toBitVec := by
  have hmask : ((c ^^^ b.toUInt32) &&& 0xFF).toUInt8 = (c ^^^ b.toUInt32).toUInt8 := by
    rw [UInt32.toUInt8_and]
    exact UInt8.and_neg_one
  rw [absorb_eq_table _ _ (by norm_num), crcUpdate, UInt32.toBitVec_xor, crcTable_get, hmask]
  rfl

theorem foldl_crcUpdate_eq (c : UInt32) (data : List UInt8) :
    (data.foldl crcUpdate c).toBitVec = register crcPoly c.toBitVec (data.map UInt8.toBitVec) := by
  induction data generalizing c with
  | nil => rfl
  | cons b data ih =>
    rw [List.foldl_cons, ih, crcUpdate_eq]
    rfl

/-- The reflected CRC-32, one bit at a time: each byte low bit first, from a register of
ones, with a final complement. -/
def bitwiseCrc32 (data : List UInt8) : UInt32 :=
  ⟨~~~ bitRegister crcPoly (BitVec.allOnes 32) (data.map UInt8.toBitVec)⟩

/-- The checksum by table lookups is the one taken bit by bit. -/
theorem crc32_eq_bitwiseCrc32 (data : List UInt8) : crc32 data = bitwiseCrc32 data := by
  apply UInt32.toBitVec_inj.mp
  have hregister := foldl_crcUpdate_eq 0xFFFFFFFF data
  rw [register_eq_bitRegister _ _ (by norm_num)] at hregister
  rw [crc32, UInt32.toBitVec_xor, hregister]
  exact BitVec.xor_allOnes

/-- The digits from 1 to 9. -/
example : bitwiseCrc32 [0x31, 0x32, 0x33, 0x34, 0x35, 0x36, 0x37, 0x38, 0x39] = 0xCBF43926 := by
  decide +kernel

end MdfeedItch
