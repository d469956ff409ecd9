import MdfeedItch.BookSnapshotCodec
import MdfeedItch.CrcTable

/-! # The checksum of a book snapshot catches short corruptions

Two equally long bodies that differ within four bytes in a row have different
checksums, so a frame damaged there is never accepted. -/
namespace MdfeedItch
open ByteCursor ByteLayout CyclicRedundancy

theorem crc32_burst {front xs ys back : List UInt8} (hlen : xs.length = ys.length) (hburst : xs.length ≤ 4)
    (h : crc32 (front ++ (xs ++ back)) = crc32 (front ++ (ys ++ back))) : xs = ys := by
  have hcancel := congrArg (· ^^^ 0xFFFFFFFF) h
  simp only [crc32, UInt32.xor_assoc, UInt32.xor_self, UInt32.xor_zero] at hcancel
  have hreg := congrArg UInt32.toBitVec hcancel
  rw [foldl_crcUpdate_eq, foldl_crcUpdate_eq] at hreg
  simp only [List.map_append] at hreg
  have hmap := register_burst (by decide) (by norm_num) (by simpa using hlen) (by simpa using by omega) hreg
  exact List.map_injective_iff.mpr (fun a b hab => UInt8.toBitVec_inj.mp hab) hmap

theorem u32Bytes_injective : Function.Injective u32Bytes := by
  intro v w h
  rw [← stored_u32 v [], ← stored_u32 w [], h]

theorem covered_of_frameAround {covered front mid back : List UInt8}
    (h : frameAround covered = front ++ (mid ++ back))
    (hfront : 4 ≤ front.length) (hback : 4 ≤ back.length) :
    covered = front.drop 4 ++ (mid ++ back.take (back.length - 4)) ∧
      u32Bytes (crc32 covered) = back.drop (back.length - 4) := by
  have hdrop : (frameAround covered).drop 4 = covered ++ u32Bytes (crc32 covered) :=
    List.drop_left' (by rw [u32Bytes, length_toBytes])
  rw [h, List.drop_append_of_le_length hfront] at hdrop
  have hsplit : front.drop 4 ++ (mid ++ back) =
      (front.drop 4 ++ (mid ++ back.take (back.length - 4))) ++ back.drop (back.length - 4) := by
    simp only [List.append_assoc, List.take_append_drop]
  have hinj := List.append_inj' (hdrop.symm.trans hsplit)
    (by rw [u32Bytes, length_toBytes, List.length_drop]; omega)
  exact hinj

theorem frameAround_burst {a b front xs ys back : List UInt8} (ha : frameAround a = front ++ (xs ++ back))
    (hb : frameAround b = front ++ (ys ++ back)) (hlen : xs.length = ys.length) (hburst : xs.length ≤ 4)
    (hfront : 4 ≤ front.length) (hback : 4 ≤ back.length) : xs = ys := by
  obtain ⟨hcovered, hcrc⟩ := covered_of_frameAround ha hfront hback
  obtain ⟨hcovered', hcrc'⟩ := covered_of_frameAround hb hfront hback
  have hsum := u32Bytes_injective (hcrc.trans hcrc'.symm)
  rw [hcovered, hcovered'] at hsum
  exact crc32_burst hlen hburst hsum

/-- Lists that agree outside of a window agree in front of it and behind it. -/
theorem take_drop_of_agree {α : Type} {l l' : List α} {start n : ℕ}
    (h : ∀ i, i < start ∨ start + n ≤ i → l[i]? = l'[i]?) :
    l.take start = l'.take start ∧ l.drop (start + n) = l'.drop (start + n) := by
  constructor
  · apply List.ext_getElem?
    intro i
    rw [List.getElem?_take, List.getElem?_take]
    split_ifs with hi
    · exact h i (Or.inl hi)
    · rfl
  · apply List.ext_getElem?
    intro i
    rw [List.getElem?_drop, List.getElem?_drop]
    exact h _ (Or.inr (by omega))

/-- No damage within four consecutive bytes of the covered region is accepted. -/
theorem short_corruption_rejected {snap : BookSnapshot} (hlimit : (coveredBytes snap).length + 4 < 2 ^ 32)
    {bytes : List UInt8} (hlen : bytes.length = (encodeBookSnapshot snap).length)
    (hne : bytes ≠ encodeBookSnapshot snap)
    {start : ℕ} (hstart : 4 ≤ start) (hend : start + 4 ≤ 4 + (coveredBytes snap).length)
    (hsame : ∀ i, i < start ∨ start + 4 ≤ i → bytes[i]? = (encodeBookSnapshot snap)[i]?) :
    ∃ damaged, decodeBookSnapshot bytes = some (damaged, false) := by
  obtain ⟨⟨damaged, ok⟩, hdecode, -⟩ := decodeBookSnapshot_inside bytes
  cases ok with
  | false => exact ⟨damaged, hdecode⟩
  | true =>
    exfalso
    obtain ⟨-, hsize, hbytes⟩ := encode_of_decode hdecode
    have hframe := length_frameAround (coveredBytes snap)
    have hdamaged := length_frameAround (coveredBytes damaged)
    -- in front of the damage and behind it the two byte strings are one
    obtain ⟨hfront, hback⟩ := take_drop_of_agree hsame
    have hcut {l : List UInt8} : l = l.take start ++ ((l.drop start).take 4 ++ l.drop (start + 4)) := by
      rw [← List.drop_drop, List.take_append_drop, List.take_append_drop]
    have hhead : declaredLength bytes = (coveredBytes snap).length + 4 := by
      have hfour {l : List UInt8} : l.take 4 = (l.take start).take 4 := by
        rw [List.take_take, Nat.min_eq_left hstart]
      have hn := (frameAround_parts hlimit []).1
      rw [List.append_nil] at hn
      rw [← hn, declaredLength, declaredLength, hfour, hfront, ← hfour]
      rfl
    have hwhole : bytes = frameAround (coveredBytes damaged) := by
      have hrest : bytes.drop (4 + declaredLength bytes) = [] := by
        apply List.drop_of_length_le
        rw [hlen, encodeBookSnapshot]
        omega
      rw [hrest, List.append_nil] at hbytes
      exact hbytes
    have hbytesCut : frameAround (coveredBytes damaged) = (encodeBookSnapshot snap).take start ++
        ((bytes.drop start).take 4 ++ (encodeBookSnapshot snap).drop (start + 4)) := by
      rw [← hwhole, ← hfront, ← hback]
      exact hcut
    have hmid : (bytes.drop start).take 4 = ((encodeBookSnapshot snap).drop start).take 4 := by
      apply frameAround_burst hbytesCut (b := coveredBytes snap) hcut
      · rw [List.length_take, List.length_take, List.length_drop, List.length_drop, hlen]
        rfl
      · exact List.length_take_le _ _
      · rw [List.length_take, encodeBookSnapshot, hframe]
        omega
      · rw [List.length_drop, encodeBookSnapshot, hframe]
        omega
    apply hne
    calc bytes = bytes.take start ++ ((bytes.drop start).take 4 ++ bytes.drop (start + 4)) := hcut
      _ = encodeBookSnapshot snap := by rw [hfront, hmid, hback, ← hcut]

/-- One byte of a level overwritten: a bid for 100 shares that now reads 200. -/
theorem altered_quantity_rejected :
    let aapl : Symbol := #v[65, 65, 80, 76, 32, 32, 32, 32]
    let snap : BookSnapshot := ⟨7, [⟨aapl, [⟨50, 100, 1⟩], [⟨60, 200, 2⟩]⟩]⟩
    (encodeBookSnapshot snap)[36]? = some 100 ∧
      ∃ damaged, decodeBookSnapshot ((encodeBookSnapshot snap).set 36 200) = some (damaged, false) := by
  intro aapl snap
  have hquantity : (encodeBookSnapshot snap)[36]? = some 100 := by decide
  have hlimit : (coveredBytes snap).length + 4 < 2 ^ 32 := by decide
  refine ⟨hquantity, short_corruption_rejected hlimit List.length_set ?_ (by decide : 4 ≤ 36) (by decide) ?_⟩
  · intro hsame
    have hbyte := congrArg (fun l : List UInt8 => l[36]?) hsame
    rw [List.getElem?_set_self (List.getElem?_eq_some_iff.mp hquantity).1, hquantity] at hbyte
    exact absurd hbyte (by decide)
  · intro i hi
    exact List.getElem?_set_ne (by omega)

end MdfeedItch
